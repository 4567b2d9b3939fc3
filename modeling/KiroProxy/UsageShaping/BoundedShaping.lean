import KiroProxy.UsageShaping.Policy
import KiroProxy.UsageShaping.SplitInput

/-!
# Shaping within bounds

The fields of a usage are brought into ranges that follow from the configuration. Shaping moves and
raises tokens within the ranges, and at the end every field is clamped to its range once more.
-/

namespace KiroProxy.UsageShaping.BoundedShaping

open PromptCache.CreationControl

structure BoundedShapingInput (F : Type) where
  policy : CacheHitShapingPolicy F
  hasReusablePrefix : Bool
  creationAllowed : Bool
  raw : CacheUsage
  pricing : Option (ModelPricing F)
  inputMaxTokens : ℤ
  maxCacheReadTokens : ℤ
  maxCacheCreationTokens : ℤ
  maxCreationEventTokens : ℤ
  carriedCostDeficitUsd : F
  seed : UInt64

structure FinalUsageBounds where
  inputMax : ℤ
  readMin : ℤ
  readMax : ℤ
  creationMin : ℤ
  creationMax : ℤ

def inputCapJitterPercent : ℤ := 15

def cacheCapJitterPercent : ℤ := 5

/-- A limit lowered by up to a percentage of it, but not to zero. -/
def jitteredCap (limit percent : ℤ) (seed : UInt64) : ℤ :=
  if limit ≤ 1 ∨ limit = i32Max then limit
  else
    let span := min (limit * percent / 100) (limit - 1)
    if span ≤ 0 then limit
    else limit - ((splitmix64 seed).toNat % (span.toNat + 1) : ℕ)

section Floats

variable {F : Type} (fl : Floats F)

namespace BoundedShapingInput

variable (input : BoundedShapingInput F)

def shapingEnabled : Bool := (input.policy.normalized fl).enabled

def carriesCostDeficit : Bool := (input.policy.normalized fl).costFloorTopUpInput

def costFloorUsd : Option F :=
  let policy := input.policy.normalized fl
  if policy.enabled = false ∨ fl.le policy.minCostRatio (fl.ofInt 0) = true then none
  else input.pricing.map fun pricing => fl.mul (pricing.estimate fl input.raw) policy.minCostRatio

def readLimit : ℤ :=
  let policy := input.policy.normalized fl
  if policy.enabled = true ∧ fl.lt (fl.ofInt 0) policy.maxReadMultiplier = true then
    min (limitOf input.maxCacheReadTokens) (multiplierCap fl policy (reportedTotal input.raw))
  else limitOf input.maxCacheReadTokens

/-- The limit of the write before its jitter. -/
def creationLimit : ℤ :=
  if input.creationAllowed then
    min (limitOf input.maxCacheCreationTokens) (limitOf input.maxCreationEventTokens)
  else 0

end BoundedShapingInput

namespace FinalUsageBounds

def new (input : BoundedShapingInput F) : FinalUsageBounds :=
  let policy := input.policy.normalized fl
  { inputMax := jitteredCap (limitOf input.inputMaxTokens) inputCapJitterPercent
      (input.seed ^^^ 0x2545f4914f6cdd1d)
    readMin := if policy.enabled then max policy.minCacheReadTokens 0 else 0
    readMax := jitteredCap (input.readLimit fl) cacheCapJitterPercent
      (input.seed ^^^ 0x9e6c63d0676a9a99)
    creationMin := if policy.enabled then max policy.minCacheCreationTokens 0 else 0
    creationMax := jitteredCap input.creationLimit cacheCapJitterPercent
      (input.seed ^^^ 0x7c8f1e2b5a3d9f01) }

variable (bounds : FinalUsageBounds)

def clampInput (value : ℤ) : ℤ := clampInt value 1 (max bounds.inputMax 1)

end FinalUsageBounds

def clampCacheField (value low high : ℤ) : ℤ :=
  let value := max value 0
  if value = 0 ∨ high ≤ 0 ∨ high < low then 0 else clampInt value low high

def FinalUsageBounds.enforce (bounds : FinalUsageBounds) (usage : CacheUsage) : CacheUsage :=
  let hasInput := 0 < usage.inputTokens ∨ 0 < usage.cacheReadInputTokens ∨
    0 < usage.cacheCreationInputTokens
  normalizeShapedCacheUsage { usage with
    inputTokens := if hasInput then bounds.clampInput (max usage.inputTokens 0) else 0
    cacheReadInputTokens :=
      clampCacheField usage.cacheReadInputTokens bounds.readMin bounds.readMax
    cacheCreationInputTokens :=
      clampCacheField usage.cacheCreationInputTokens bounds.creationMin bounds.creationMax }

def raiseCreationToMin (usage : CacheUsage) (input : BoundedShapingInput F)
    (policy : CacheHitShapingPolicy F) (bounds : FinalUsageBounds) : CacheUsage :=
  if input.creationAllowed = false ∨ fl.le policy.minCreationRatio (fl.ofInt 0) = true then usage
  else
    let minCreation := min (max (creationShare fl policy (reportedTotal input.raw))
      bounds.creationMin) bounds.creationMax
    if usage.cacheCreationInputTokens < minCreation then
      { usage with cacheCreationInputTokens := minCreation }
    else usage

def splitByRatio (usage : CacheUsage) (total : ℤ) (ratio : F) (bounds : FinalUsageBounds)
    (allowCreation : Bool) : CacheUsage :=
  let ratio := fl.clamp ratio (fl.ofInt 0) (CacheHitShapingPolicy.maxTargetHitRatio fl)
  let read := min (clampInt (fl.toI32 (fl.round (fl.mul (fl.ofInt total) ratio))) 0 total)
    bounds.readMax
  let nonRead := total - read
  let inputTarget := if allowCreation then usage.inputTokens else nonRead
  let input := bounds.clampInput (min inputTarget nonRead)
  let rest := max (saturate (nonRead - input)) 0
  let creation := if allowCreation then min rest bounds.creationMax else 0
  let overflow := rest - creation
  { usage with
    inputTokens := input
    cacheReadInputTokens :=
      saturate (read + min overflow (max (saturate (bounds.readMax - read)) 0))
    cacheCreationInputTokens := creation }

def raiseReadToRatio (usage : CacheUsage) (ratio : F) (readMax : ℤ) : CacheUsage :=
  let others := fl.ofInt
    (saturate (max usage.inputTokens 0 + max usage.cacheCreationInputTokens 0))
  if fl.le others (fl.ofInt 0) = true ∨ fl.le ratio (fl.ofInt 0) = true ∨ readMax ≤ 0 then usage
  else
    let needed := fl.toI32 (fl.min (fl.ceil (fl.div (fl.mul ratio others)
      (fl.sub (fl.ofInt 1) ratio))) (fl.ofInt readMax))
    if usage.cacheReadInputTokens < needed then { usage with cacheReadInputTokens := needed }
    else usage

def tokensFor (gap unitCost : F) : ℤ :=
  if fl.le gap (fl.ofInt 0) = true ∨ fl.le unitCost (fl.ofInt 0) = true then 0
  else fl.toI64 (fl.clamp (fl.ceil (fl.div gap unitCost)) (fl.ofInt 0) (fl.ofInt i32Max))

def raise (current tokens low high : ℤ) : ℤ :=
  if tokens ≤ 0 ∨ high ≤ 0 then current
  else max (min (max (max current 0 + tokens) low) high) current

section Cost

variable (pricing : ModelPricing F) (targetCost : F) (bounds : FinalUsageBounds)

def costGap (usage : CacheUsage) : F := fl.sub targetCost (pricing.estimate fl usage)

def raiseCreationCost (usage : CacheUsage) : CacheUsage :=
  if 0 < bounds.creationMax ∧ bounds.creationMin ≤ bounds.creationMax then
    { usage with
      cacheCreationInputTokens := raise usage.cacheCreationInputTokens
        (tokensFor fl (costGap fl pricing targetCost usage) pricing.cacheCreationInputTokenCost)
        bounds.creationMin bounds.creationMax }
  else usage

def raiseReadCost (allowRead : Bool) (usage : CacheUsage) : CacheUsage :=
  if allowRead = true ∧ 0 < bounds.readMax ∧ bounds.readMin ≤ bounds.readMax then
    { usage with
      cacheReadInputTokens := raise usage.cacheReadInputTokens
        (tokensFor fl (costGap fl pricing targetCost usage) pricing.cacheReadInputTokenCost)
        bounds.readMin bounds.readMax }
  else usage

def raiseInputCost (topUpInput : Bool) (usage : CacheUsage) : CacheUsage :=
  if topUpInput then
    { usage with
      inputTokens := raise usage.inputTokens
        (tokensFor fl (costGap fl pricing targetCost usage) pricing.inputCostPerToken) 1
        bounds.inputMax }
  else usage

def raiseCostWithinBounds (allowRead topUpInput : Bool) (usage : CacheUsage) : CacheUsage :=
  raiseInputCost fl pricing targetCost bounds topUpInput
    (raiseReadCost fl pricing targetCost bounds allowRead
      (raiseCreationCost fl pricing targetCost bounds usage))

end Cost

/-- The cost aimed at, with the deficit of earlier requests. -/
def targetCost (input : BoundedShapingInput F) (floor : F) : F :=
  if input.creationAllowed = true ∧ input.carriesCostDeficit fl = true ∧
      fl.isFinite input.carriedCostDeficitUsd = true then
    fl.add floor (fl.max input.carriedCostDeficitUsd (fl.ofInt 0))
  else floor

def shapesRatio (input : BoundedShapingInput F) (usage : CacheUsage) : Bool :=
  (input.hasReusablePrefix || decide (0 < usage.cacheReadInputTokens)) &&
    fl.lt (fl.ofInt 0) (input.policy.normalized fl).targetHitRatio

def shapeEnabled (input : BoundedShapingInput F) (bounds : FinalUsageBounds) (usage : CacheUsage)
    (total : ℤ) : CacheUsage :=
  let policy := input.policy.normalized fl
  let target := targetRatio fl policy input.seed
  let shapeRatio := shapesRatio fl input usage
  let shaped :=
    if shapeRatio then splitByRatio fl usage total target bounds input.creationAllowed else usage
  let shaped :=
    if input.creationAllowed = false then { shaped with cacheCreationInputTokens := 0 } else shaped
  let shaped := raiseCreationToMin fl shaped input policy bounds
  let shaped :=
    match input.pricing, input.costFloorUsd fl with
    | some pricing, some floor =>
      raiseCostWithinBounds fl pricing (targetCost fl input floor) bounds shapeRatio
        policy.costFloorTopUpInput shaped
    | _, _ => shaped
  if shapeRatio then raiseReadToRatio fl shaped target bounds.readMax else shaped

def shapeWithin (usage : CacheUsage) (input : BoundedShapingInput F) : CacheUsage :=
  let bounds := FinalUsageBounds.new fl input
  let usage := normalizeShapedCacheUsage usage
  if input.shapingEnabled fl = false then usage
  else
    let total := saturate (saturate (max usage.inputTokens 0 + max usage.cacheReadInputTokens 0) +
      max usage.cacheCreationInputTokens 0)
    if total ≤ 1 then usage else shapeEnabled fl input bounds usage total

def shapeBoundedUsage (usage : CacheUsage) (input : BoundedShapingInput F) : CacheUsage :=
  (FinalUsageBounds.new fl input).enforce (shapeWithin fl usage input)

def enforceBoundedUsage (usage : CacheUsage) (input : BoundedShapingInput F) : CacheUsage :=
  (FinalUsageBounds.new fl input).enforce usage

end Floats

end KiroProxy.UsageShaping.BoundedShaping
