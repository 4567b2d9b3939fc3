import KiroProxy.UsageShaping.Policy

/-!
# The usage shaping of Kiro-RS Tool Plus

After the amplification and the control of the writes, each of the four counts is kept within its
bounds. An operation on numbers of 32 bits that neither wraps nor saturates has no result where it
would overflow.
-/

namespace KiroProxy.UsageShaping.KiroPlus

open PromptCache.CreationControl

/-- The result of an operation that must not overflow. -/
def plain (value : ℤ) : Option ℤ := if IsI32 value then some value else none

/-- A cast of `i64` to `i32`. -/
def asI32 (value : ℤ) : ℤ := value.bmod (2 ^ 32)

def saltInput : UInt64 := 0x6a09e667f3bcc908
def saltOutput : UInt64 := 0xbb67ae8584caa73b
def saltRead : UInt64 := 0x3c6ef372fe94f82b
def saltCreation : UInt64 := 0xa54ff53a5f1d36f1
def saltCap : UInt64 := 0x510e527fade682d1

structure UsageFieldShaping (F : Type) where
  multiplier : F
  jitterRatio : F
  minTokens : ℤ
  maxTokens : ℤ
  maxJitterTokens : ℤ

structure UsageShapingProfile (F : Type) where
  input : UsageFieldShaping F
  output : UsageFieldShaping F
  cacheRead : UsageFieldShaping F
  cacheCreation : UsageFieldShaping F
  capOverflowToInput : Bool
  minCostRatio : F

inductive SuppressedCreationTarget
  | input
  | cacheRead
  | drop
  deriving DecidableEq

inductive SelectedUsageShaping (F : Type)
  | raw
  | profile (profile : UsageShapingProfile F)

/-- What the shaper reads of its policy after the amplification. -/
structure KiroPlusShaper (F : Type) where
  suppressedCreationTarget : SuppressedCreationTarget
  selected : SelectedUsageShaping F
  seed : UInt64

section Normalized

variable {F : Type} (fl : Floats F)

def maxFieldMultiplier : ℤ := 1000

def maxFieldJitterRatio : ℤ := 1

def maxMinCostRatio : ℤ := 100

def UsageFieldShaping.normalized (shaping : UsageFieldShaping F) : UsageFieldShaping F :=
  let minTokens := max shaping.minTokens 0
  let maxTokens := max shaping.maxTokens 0
  { multiplier := fl.clamp
      (if fl.isFinite shaping.multiplier then shaping.multiplier else fl.ofInt 1)
      (fl.ofInt 0) (fl.ofInt maxFieldMultiplier)
    jitterRatio := fl.clamp
      (if fl.isFinite shaping.jitterRatio then shaping.jitterRatio else fl.ofInt 0)
      (fl.ofInt 0) (fl.ofInt maxFieldJitterRatio)
    minTokens := if 0 < maxTokens ∧ maxTokens < minTokens then maxTokens else minTokens
    maxTokens
    maxJitterTokens := max shaping.maxJitterTokens 0 }

def UsageShapingProfile.normalized (profile : UsageShapingProfile F) : UsageShapingProfile F where
  input := profile.input.normalized fl
  output := profile.output.normalized fl
  cacheRead := profile.cacheRead.normalized fl
  cacheCreation := profile.cacheCreation.normalized fl
  capOverflowToInput := profile.capOverflowToInput
  minCostRatio := fl.clamp
    (if fl.isFinite profile.minCostRatio then profile.minCostRatio else fl.ofInt 0)
    (fl.ofInt 0) (fl.ofInt maxMinCostRatio)

end Normalized

section Fields

variable {F : Type} (shaping : UsageFieldShaping F) (seed : UInt64)

/-- The maximum with its jitter taken off; none if it is zero. -/
def effectiveMax : Option ℤ :=
  if shaping.maxTokens ≤ 0 then some i32Max
  else
    let jitter := max (min shaping.maxJitterTokens (saturate (shaping.maxTokens - 1))) 0
    if jitter = 0 then some shaping.maxTokens
    else do
      let deduction : ℕ := (splitmix64 seed).toNat % (jitter.toNat + 1)
      let maxTokens ← plain (shaping.maxTokens - deduction)
      return max maxTokens 1

/-- A value that is not zero within its bounds, with what is above the maximum. -/
def boundCacheField (value : ℤ) : Option (ℤ × ℤ) :=
  let current := max value 0
  if current = 0 then some (0, 0)
  else do
    let maxTokens ← effectiveMax shaping seed
    let bounded := min (max current shaping.minTokens) maxTokens
    return (bounded, max (saturate (current - bounded)) 0)

def boundField (value : ℤ) : Option ℤ := (boundCacheField shaping seed value).map Prod.fst

end Fields

/-- What was held back went to the input, and is counted as the target says. -/
def redirectSuppressedCreation (usage amplified : CacheUsage) (target : SuppressedCreationTarget) :
    Option CacheUsage :=
  let suppressed :=
    max (saturate (amplified.cacheCreationInputTokens - usage.cacheCreationInputTokens)) 0
  if suppressed = 0 then some usage
  else
    let moved := min suppressed (max (saturate (usage.inputTokens - amplified.inputTokens)) 0)
    match target with
    | .input => some usage
    | .cacheRead => do
      let inputTokens ← plain (usage.inputTokens - moved)
      return { usage with
        inputTokens
        cacheReadInputTokens := saturate (usage.cacheReadInputTokens + moved) }
    | .drop => do
      let inputTokens ← plain (usage.inputTokens - moved)
      return { usage with inputTokens }

/-- The parts of a write that was changed, in their old ratio. -/
def rescaleCreationBreakdown (usage : CacheUsage) (creationBefore : ℤ) : Option CacheUsage :=
  let creation := max usage.cacheCreationInputTokens 0
  let total := saturate
    (max usage.cacheCreation5mInputTokens 0 + max usage.cacheCreation1hInputTokens 0)
  if creation = 0 ∨ total ≤ 0 ∨ creationBefore ≤ 0 then
    some { usage with cacheCreation5mInputTokens := 0, cacheCreation1hInputTokens := 0 }
  else do
    let oneHour := asI32 (max usage.cacheCreation1hInputTokens 0 * creation / total)
    let cache1h := min (max oneHour 0) creation
    let cache5m ← plain (creation - cache1h)
    return { usage with
      cacheCreation5mInputTokens := cache5m
      cacheCreation1hInputTokens := cache1h }

section Profile

variable {F : Type} (profile : UsageShapingProfile F)

/-- The bounds of the read and of the write. -/
def boundCache (seed : UInt64) (usage : CacheUsage) : Option CacheUsage := do
  let (read, readOverflow) ← boundCacheField profile.cacheRead (seed ^^^ saltRead ^^^ saltCap)
    usage.cacheReadInputTokens
  let creationBefore := usage.cacheCreationInputTokens
  let (creation, creationOverflow) ← boundCacheField profile.cacheCreation
    (seed ^^^ saltCreation ^^^ saltCap) usage.cacheCreationInputTokens
  let usage := { usage with
    cacheReadInputTokens := read
    cacheCreationInputTokens := creation }
  let usage ←
    if creation = creationBefore then some usage else rescaleCreationBreakdown usage creationBefore
  return if profile.capOverflowToInput = true then
    { usage with
      inputTokens := saturate (saturate (usage.inputTokens + readOverflow) + creationOverflow) }
  else usage

/-- An input of zero takes its minimum from the read, and what that lacks from the write. -/
def raiseInput (usage : CacheUsage) : Option CacheUsage :=
  if usage.inputTokens ≤ 0 ∧ 0 < profile.input.minTokens then do
    let wanted := profile.input.minTokens
    let fromRead := min wanted (max usage.cacheReadInputTokens 0)
    let read ← plain (usage.cacheReadInputTokens - fromRead)
    let missing ← plain (wanted - fromRead)
    let fromCreation := min missing (max usage.cacheCreationInputTokens 0)
    let usage := { usage with cacheReadInputTokens := read }
    let usage ←
      if 0 < fromCreation then do
        let before := usage.cacheCreationInputTokens
        let creation ← plain (usage.cacheCreationInputTokens - fromCreation)
        rescaleCreationBreakdown { usage with cacheCreationInputTokens := creation } before
      else some usage
    let inputTokens ← plain (fromRead + fromCreation)
    return { usage with inputTokens }
  else some usage

variable (fl : Floats F)

def applyCostFloor (usage : CacheUsage) (pricing : Option (ModelPricing F)) (raw : CacheUsage) :
    CacheUsage :=
  if fl.le profile.minCostRatio (fl.ofInt 0) = true then usage
  else
    match pricing with
    | none => usage
    | some pricing =>
      if fl.le pricing.inputCostPerToken (fl.ofInt 0) = true then usage
      else
        let floor := fl.mul (pricing.estimate fl raw) profile.minCostRatio
        let current := pricing.estimate fl usage
        if fl.le (fl.mul floor (fl.sub (fl.ofInt 1) (fl.ofRat (1 / 10 ^ 9)))) current = true then
          usage
        else
          let tokens := fl.toI32 (fl.clamp (fl.ceil (fl.div (fl.sub floor current)
            pricing.inputCostPerToken)) (fl.ofInt 0) (fl.ofInt i32Max))
          { usage with inputTokens := saturate (usage.inputTokens + tokens) }

/-- An output of zero has its minimum as well. -/
def raiseOutput (usage : CacheUsage) : ℤ :=
  if usage.outputTokens ≤ 0 ∧ 0 < profile.output.minTokens then profile.output.minTokens
  else usage.outputTokens

end Profile

def KiroPlusShaper.finalize {F : Type} (fl : Floats F) (shaper : KiroPlusShaper F)
    (amplified controlled : CacheUsage) (pricing : Option (ModelPricing F)) (raw : CacheUsage) :
    Option CacheUsage :=
  match shaper.selected with
  | .raw => some (normalizeShapedCacheUsage controlled)
  | .profile profile => do
    let usage ← redirectSuppressedCreation controlled amplified shaper.suppressedCreationTarget
    let usage ← boundCache profile shaper.seed usage
    let usage ← raiseInput profile usage
    let inputTokens ← boundField profile.input (shaper.seed ^^^ saltInput ^^^ saltCap)
      usage.inputTokens
    let outputTokens ← boundField profile.output (shaper.seed ^^^ saltOutput ^^^ saltCap)
      (raiseOutput profile usage)
    let usage := { usage with inputTokens, outputTokens }
    return normalizeShapedCacheUsage (applyCostFloor profile fl usage pricing raw)

end KiroProxy.UsageShaping.KiroPlus
