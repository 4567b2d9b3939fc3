import KiroProxy.UsageShaping.Policy
import KiroProxy.UsageShaping.SplitInput

/-!
# Shaping the hit ratio

The tokens of a usage are split anew by the hit ratio that is aimed at, and then raised until the
cost is not below that of the request as it came in. Operations that would overflow, and clamps
whose limits are the wrong way round, have no result.
-/

namespace KiroProxy.UsageShaping.HitShaping

open PromptCache.CreationControl

def checked (value : ℤ) : Option ℤ := if IsI32 value then some value else none

def checkedI64 (value : ℤ) : Option ℤ :=
  if -2 ^ 63 ≤ value ∧ value < 2 ^ 63 then some value else none

def checkedClamp (value low high : ℤ) : Option ℤ :=
  if low ≤ high then some (clampInt value low high) else none

theorem checked_eq {value : ℤ} (hlow : 0 ≤ value) (hhigh : value ≤ i32Max) :
    checked value = some value :=
  if_pos ⟨(show i32Min ≤ 0 by decide).trans hlow, hhigh⟩

theorem checkedClamp_eq {low high : ℤ} (h : low ≤ high) (value : ℤ) :
    checkedClamp value low high = some (clampInt value low high) :=
  if_pos h

structure CacheHitShapingInput (F : Type) where
  policy : CacheHitShapingPolicy F
  hasReusablePrefix : Bool
  creationAllowed : Bool
  raw : CacheUsage
  pricing : Option (ModelPricing F)
  inputMinTokens : ℤ
  inputMaxTokens : ℤ
  maxCacheReadTokens : ℤ
  maxCacheCreationTokens : ℤ
  seed : UInt64

structure ShapingBounds where
  inputMin : ℤ
  inputMax : ℤ
  readCap : ℤ
  creationCap : ℤ

section Floats

variable {F : Type} (fl : Floats F)

def ShapingBounds.new (usage : CacheUsage) (input : CacheHitShapingInput F) : ShapingBounds :=
  let inputMax := limitOf input.inputMaxTokens
  let inputMin := min (max input.inputMinTokens 0) inputMax
  let policy := input.policy.normalized fl
  let readCap := limitOf input.maxCacheReadTokens
  { inputMin := inputMin
    inputMax := max inputMax (min usage.inputTokens (max inputMin inputMax))
    readCap :=
      if fl.lt (fl.ofInt 0) policy.maxReadMultiplier then
        min readCap (multiplierCap fl policy (reportedTotal input.raw))
      else readCap
    creationCap := limitOf input.maxCacheCreationTokens }

def meetsFloor (pricing : ModelPricing F) (usage : CacheUsage) (floor : F) : Bool :=
  fl.le (fl.mul floor (fl.sub (fl.ofInt 1) (fl.ofRat (1 / 1000000000)))) (pricing.estimate fl usage)

def raiseCreationToMin (usage : CacheUsage) (input : CacheHitShapingInput F)
    (policy : CacheHitShapingPolicy F) (bounds : ShapingBounds) : CacheUsage :=
  if input.creationAllowed = false ∨ fl.le policy.minCreationRatio (fl.ofInt 0) = true then usage
  else
    let minCreation := min (max (creationShare fl policy (max (reportedTotal input.raw) 0))
      (max policy.minCacheCreationTokens 0)) bounds.creationCap
    if usage.cacheCreationInputTokens < minCreation then
      { usage with cacheCreationInputTokens := minCreation }
    else usage

/-- Input and write of the tokens that are not read. -/
def splitNonRead (usage : CacheUsage) (bounds : ShapingBounds) (allowCreation : Bool)
    (read nonRead : ℤ) : Option (ℤ × ℤ) :=
  if allowCreation then do
    let input ← checkedClamp usage.inputTokens bounds.inputMin bounds.inputMax
    let input := min input nonRead
    let creation ← checked (nonRead - input)
    return (input, creation)
  else do
    let input ← checkedClamp nonRead bounds.inputMin bounds.inputMax
    let input := min input nonRead
    let overflow ← checked (nonRead - input)
    let toRead := min overflow (max (saturate (bounds.readCap - read)) 0)
    let rest ← checked (overflow - toRead)
    return (saturate (input + rest), 0)

/-- A write that is too small is raised, or becomes input. -/
def raiseSplit (bounds : ShapingBounds) (minCreation : ℤ) (allowCreation : Bool) (nonRead : ℤ)
    (split : ℤ × ℤ) : Option (ℤ × ℤ) :=
  if 0 < split.2 ∧ split.2 < minCreation then
    if allowCreation = true ∧ bounds.inputMin ≤ saturate (nonRead - minCreation) then do
      let input ← checked (nonRead - minCreation)
      return (input, minCreation)
    else if nonRead ≤ bounds.inputMax then some (nonRead, 0)
    else some split
  else some split

/-- What a write has above its limit becomes input. -/
def capSplit (bounds : ShapingBounds) (split : ℤ × ℤ) : Option (ℤ × ℤ) :=
  if bounds.creationCap < split.2 then do
    let excess ← checked (split.2 - bounds.creationCap)
    return (saturate (split.1 + excess), bounds.creationCap)
  else some split

def solveSplit (usage : CacheUsage) (total : ℤ) (bounds : ShapingBounds)
    (policy : CacheHitShapingPolicy F) (allowCreation : Bool) (ratio : F) : Option CacheUsage := do
  let ratio := fl.clamp ratio (fl.ofInt 0) (CacheHitShapingPolicy.maxTargetHitRatio fl)
  let read ← checkedClamp (fl.toI32 (fl.round (fl.mul (fl.ofInt total) ratio))) 0 total
  let read := min read bounds.readCap
  let nonRead ← checked (total - read)
  let split ← splitNonRead usage bounds allowCreation read nonRead
  let split ← raiseSplit bounds (max policy.minCacheCreationTokens 0) allowCreation nonRead split
  let split ← capSplit bounds split
  let rest ← checked (total - split.1)
  let read ← checked (rest - split.2)
  return { usage with
    inputTokens := split.1
    cacheReadInputTokens := max read 0
    cacheCreationInputTokens := split.2 }

/-- The largest ratio found in a number of halvings for which a split holds. -/
def bisect (split : F → Option CacheUsage) (holds : CacheUsage → Bool) : ℕ → F → F → Option F
  | 0, low, _ => some low
  | rounds + 1, low, high => do
    let mid := fl.div (fl.add low high) (fl.ofInt 2)
    let shaped ← split mid
    if holds shaped then bisect split holds rounds mid high
    else bisect split holds rounds low mid

/-- A split by a smaller ratio that does not cost too little, if there is one. -/
def losslessSplit (usage : CacheUsage) (total : ℤ) (target : F) (bounds : ShapingBounds)
    (policy : CacheHitShapingPolicy F) (input : CacheHitShapingInput F) (pricing : ModelPricing F)
    (floor : F) : Option (Option CacheUsage) := do
  let split := solveSplit fl usage total bounds policy input.creationAllowed
  let unread ← split (fl.ofInt 0)
  if meetsFloor fl pricing unread floor = false then return none
  else
    let low ← bisect fl split (meetsFloor fl pricing · floor) 40 (fl.ofInt 0) target
    let jitter := fl.mul policy.ratioJitter (unit fl (input.seed ^^^ 0x9f1d2b7c44e8a613))
    let shaped ← split (fl.max (fl.sub low jitter) (fl.ofInt 0))
    if meetsFloor fl pricing shaped floor then return some shaped
    else
      let shaped ← split low
      return some shaped

section Cost

variable (pricing : ModelPricing F) (floor : F) (bounds : ShapingBounds)

def costGap (usage : CacheUsage) : F := fl.sub floor (pricing.estimate fl usage)

def creationRoom (creationAllowed : Bool) (usage : CacheUsage) : ℤ :=
  if creationAllowed = true ∧ fl.lt (fl.ofInt 0) pricing.cacheCreationInputTokenCost = true then
    max (bounds.creationCap - max usage.cacheCreationInputTokens 0) 0
  else 0

/-- How many tokens that are not read make up for the gap, within the room for them and for the
reads that come with them. -/
def nonReadFor (gap cost readShare : F) (room readRoom : ℤ) : ℤ :=
  let nonRead := fl.toI64 (fl.clamp (fl.ceil (fl.div gap cost)) (fl.ofInt 0) (fl.ofInt i32Max))
  let nonRead := min nonRead room
  if fl.lt (fl.ofInt 0) readShare then
    min nonRead (fl.toI64 (fl.floor (fl.div (fl.ofInt readRoom) readShare)))
  else nonRead

def addNonRead (toCreation : Bool) (nonRead : ℤ) (usage : CacheUsage) : Option CacheUsage :=
  if toCreation then do
    let creation ← checked (min (max usage.cacheCreationInputTokens 0 + nonRead) i32Max)
    return { usage with cacheCreationInputTokens := creation }
  else do
    let nonRead ← checked nonRead
    return { usage with inputTokens := saturate (usage.inputTokens + nonRead) }

def addRead (read : ℤ) (usage : CacheUsage) : Option CacheUsage := do
  let read ← checked (min (max usage.cacheReadInputTokens 0 + read) i32Max)
  return { usage with cacheReadInputTokens := read }

def fillRead (readRoom : ℤ) (usage : CacheUsage) : Option CacheUsage := do
  let room ← checked (min readRoom i32Max)
  let read ← checked (max usage.cacheReadInputTokens 0 + room)
  return { usage with cacheReadInputTokens := read }

/-- Tokens that are not read are added with their share of reads. The flag says whether another
round follows. -/
def raiseRound (readsPerNonRead : F) (creationAllowed topUpInput : Bool) (usage : CacheUsage) :
    Option (CacheUsage × Bool) :=
  let gap := costGap fl pricing floor usage
  let room := creationRoom fl pricing bounds creationAllowed usage
  let readRoom := max (bounds.readCap - max usage.cacheReadInputTokens 0) 0
  let readShare := if 0 < readRoom then readsPerNonRead else fl.ofInt 0
  let unitCost :=
    if 0 < room then pricing.cacheCreationInputTokenCost else pricing.inputCostPerToken
  let cost := fl.add unitCost (fl.mul readShare pricing.cacheReadInputTokenCost)
  let nonRead := nonReadFor fl gap cost readShare (if 0 < room then room else i32Max) readRoom
  if fl.le gap (fl.ofInt 0) = true ∨ room ≤ 0 ∧ topUpInput = false ∨
      fl.le cost (fl.ofInt 0) = true then
    some (usage, false)
  else if nonRead ≤ 0 then
    if fl.lt (fl.ofInt 0) readShare then do
      let usage ← fillRead readRoom usage
      return (usage, true)
    else some (usage, false)
  else do
    let read := fl.toI64 (fl.round (fl.mul (fl.ofInt nonRead) readShare))
    let usage ← addNonRead (decide (0 < room)) nonRead usage
    let usage ← addRead (min read readRoom) usage
    return (usage, true)

def runRounds (round : CacheUsage → Option (CacheUsage × Bool)) : ℕ → CacheUsage → Option CacheUsage
  | 0, usage => some usage
  | rounds + 1, usage => do
    let next ← round usage
    if next.2 then runRounds round rounds next.1 else some next.1

def raiseCostAtRatio (ratio : F) (creationAllowed topUpInput : Bool) (usage : CacheUsage) :
    Option CacheUsage :=
  let ratio := fl.clamp ratio (fl.ofInt 0) (CacheHitShapingPolicy.maxTargetHitRatio fl)
  let readsPerNonRead := fl.div ratio (fl.sub (fl.ofInt 1) ratio)
  runRounds (raiseRound fl pricing floor bounds readsPerNonRead creationAllowed topUpInput) 8 usage

/-- How many written tokens make up for the gap. -/
def creationTokens (usage : CacheUsage) : ℤ :=
  fl.toI64 (fl.ceil (fl.div (costGap fl pricing floor usage) pricing.cacheCreationInputTokenCost))

def raiseCreationCost (policy : CacheHitShapingPolicy F) (creationAllowed : Bool)
    (usage : CacheUsage) : Option CacheUsage :=
  if creationAllowed = true ∧ fl.lt (fl.ofInt 0) pricing.cacheCreationInputTokenCost = true then do
    let existing := max usage.cacheCreationInputTokens 0
    let tokens := creationTokens fl pricing floor usage
    let minCreation := max policy.minCacheCreationTokens 0
    let sum ← checkedI64 (existing + tokens)
    let tokens := if sum < minCreation then minCreation - existing else tokens
    let room := max (bounds.creationCap - existing) 0
    let add := max (min tokens room) 0
    if minCreation ≤ existing + add ∨ 0 < existing then do
      let creation ← checked (min (existing + add) i32Max)
      return { usage with cacheCreationInputTokens := creation }
    else some usage
  else some usage

def raiseInputCost (policy : CacheHitShapingPolicy F) (usage : CacheUsage) : CacheUsage :=
  if policy.costFloorTopUpInput = true ∧ meetsFloor fl pricing usage floor = false ∧
      fl.lt (fl.ofInt 0) pricing.inputCostPerToken = true then
    let tokens := fl.toI32 (fl.clamp
      (fl.ceil (fl.div (costGap fl pricing floor usage) pricing.inputCostPerToken))
      (fl.ofInt 0) (fl.ofInt i32Max))
    { usage with inputTokens := saturate (usage.inputTokens + tokens) }
  else usage

def raiseCostToFloor (policy : CacheHitShapingPolicy F) (creationAllowed : Bool)
    (usage : CacheUsage) : Option CacheUsage :=
  if meetsFloor fl pricing usage floor then some usage
  else do
    let usage ← raiseCreationCost fl pricing floor bounds policy creationAllowed usage
    return raiseInputCost fl pricing floor policy usage

end Cost

def raiseReadToRatio (usage : CacheUsage) (ratio : F) (readCap : ℤ) : CacheUsage :=
  let others := fl.ofInt
    (saturate (max usage.inputTokens 0 + max usage.cacheCreationInputTokens 0))
  if fl.le others (fl.ofInt 0) = true ∨ fl.le ratio (fl.ofInt 0) = true then usage
  else
    let needed := fl.toI32 (fl.min (fl.ceil (fl.div (fl.mul ratio others)
      (fl.sub (fl.ofInt 1) ratio))) (fl.ofInt readCap))
    if usage.cacheReadInputTokens < needed then { usage with cacheReadInputTokens := needed }
    else usage

def raiseSmallRead (usage : CacheUsage) (policy : CacheHitShapingPolicy F)
    (bounds : ShapingBounds) : CacheUsage :=
  let minRead := max policy.minCacheReadTokens 0
  let read := max usage.cacheReadInputTokens 0
  if 0 < read ∧ read < minRead then
    { usage with cacheReadInputTokens := min minRead bounds.readCap }
  else usage

def raiseSmallCreation (usage : CacheUsage) (policy : CacheHitShapingPolicy F)
    (bounds : ShapingBounds) (creationAllowed : Bool) : CacheUsage :=
  let minCreation := max policy.minCacheCreationTokens 0
  let creation := max usage.cacheCreationInputTokens 0
  if 0 < creation ∧ creation < minCreation then
    if creationAllowed = true ∧ minCreation ≤ bounds.creationCap then
      { usage with cacheCreationInputTokens := minCreation }
    else
      { usage with
        inputTokens := saturate (usage.inputTokens + creation)
        cacheCreationInputTokens := 0 }
  else usage

def raiseSmallCacheFields (usage : CacheUsage) (policy : CacheHitShapingPolicy F)
    (bounds : ShapingBounds) (creationAllowed : Bool) : CacheUsage :=
  raiseSmallCreation (raiseSmallRead usage policy bounds) policy bounds creationAllowed

def suppressCreation (usage : CacheUsage) (creationAllowed : Bool) : CacheUsage :=
  if creationAllowed = false ∧ 0 < usage.cacheCreationInputTokens then
    { usage with
      inputTokens := saturate (usage.inputTokens + usage.cacheCreationInputTokens)
      cacheCreationInputTokens := 0 }
  else usage

/-- The cost that the shaped usage is not to fall below. -/
def costFloor (input : CacheHitShapingInput F) : Option F :=
  let policy := input.policy.normalized fl
  if fl.lt (fl.ofInt 0) policy.minCostRatio then
    input.pricing.map fun pricing => fl.mul (pricing.estimate fl input.raw) policy.minCostRatio
  else none

def shapesRatio (input : CacheHitShapingInput F) (usage : CacheUsage) : Bool :=
  (input.hasReusablePrefix || decide (0 < usage.cacheReadInputTokens)) &&
    fl.lt (fl.ofInt 0) (input.policy.normalized fl).targetHitRatio

/-- A split that costs too little is raised, or made with a smaller ratio. -/
def raiseSplitCost (usage : CacheUsage) (total : ℤ) (target : F) (bounds : ShapingBounds)
    (input : CacheHitShapingInput F) (pricing : ModelPricing F) (floor : F) (shaped : CacheUsage) :
    Option CacheUsage :=
  let policy := input.policy.normalized fl
  if meetsFloor fl pricing shaped floor then some shaped
  else if policy.readAwareCostFloor then
    raiseCostAtRatio fl pricing floor bounds target input.creationAllowed
      policy.costFloorTopUpInput shaped
  else do
    let lossless ← losslessSplit fl usage total target bounds policy input pricing floor
    return lossless.getD shaped

def splitByTarget (usage : CacheUsage) (total : ℤ) (target : F) (bounds : ShapingBounds)
    (input : CacheHitShapingInput F) : Option CacheUsage := do
  let shaped ← solveSplit fl usage total bounds (input.policy.normalized fl)
    input.creationAllowed target
  match costFloor fl input, input.pricing with
  | some floor, some pricing =>
    raiseSplitCost fl usage total target bounds input pricing floor shaped
  | _, _ => some shaped

def raiseToFloor (bounds : ShapingBounds) (input : CacheHitShapingInput F) (shaped : CacheUsage) :
    Option CacheUsage :=
  match costFloor fl input, input.pricing with
  | some floor, some pricing =>
    raiseCostToFloor fl pricing floor bounds (input.policy.normalized fl) input.creationAllowed
      shaped
  | _, _ => some shaped

def shapeEnabled (usage : CacheUsage) (input : CacheHitShapingInput F) : Option CacheUsage := do
  let policy := input.policy.normalized fl
  let bounds := ShapingBounds.new fl usage input
  let target := targetRatio fl policy input.seed
  let split := if shapesRatio fl input usage then
    splitByTarget fl usage (reportedTotal usage) target bounds input else some usage
  let shaped ← split
  let shaped := raiseSmallCacheFields shaped policy bounds input.creationAllowed
  let shaped := suppressCreation shaped input.creationAllowed
  let shaped ← raiseToFloor fl bounds input shaped
  let shaped := raiseCreationToMin fl shaped input policy bounds
  let shaped := if shapesRatio fl input usage then
    raiseReadToRatio fl shaped target bounds.readCap else shaped
  return normalizeShapedCacheUsage shaped

def shapeCacheHitUsage (usage : CacheUsage) (input : CacheHitShapingInput F) : Option CacheUsage :=
  if (input.policy.normalized fl).enabled = false then some usage
  else
    let usage := normalizeShapedCacheUsage usage
    if reportedTotal usage ≤ 1 then some usage else shapeEnabled fl usage input

end Floats

end KiroProxy.UsageShaping.HitShaping
