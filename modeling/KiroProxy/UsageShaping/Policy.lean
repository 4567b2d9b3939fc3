import KiroProxy.Floats
import KiroProxy.UsageShaping.Breakdown

/-!
# Prices and shaping policies

What the shaping of a usage is set by. All prices and ratios are floating-point numbers.
-/

namespace KiroProxy.UsageShaping

open PromptCache.CreationControl

structure ModelPricing (F : Type) where
  inputCostPerToken : F
  outputCostPerToken : F
  cacheCreationInputTokenCost : F
  cacheCreation1hInputTokenCost : F
  cacheReadInputTokenCost : F

structure CacheHitShapingPolicy (F : Type) where
  enabled : Bool
  targetHitRatio : F
  ratioJitter : F
  minCacheReadTokens : ℤ
  minCacheCreationTokens : ℤ
  minCostRatio : F
  maxReadMultiplier : F
  minCreationRatio : F
  readAwareCostFloor : Bool
  costFloorTopUpInput : Bool

section Floats

variable {F : Type} (fl : Floats F)

namespace ModelPricing

variable (pricing : ModelPricing F)

def effectiveCacheCreation1hInputTokenCost : F :=
  if fl.lt (fl.ofInt 0) pricing.cacheCreation1hInputTokenCost then
    pricing.cacheCreation1hInputTokenCost
  else fl.mul pricing.inputCostPerToken (fl.ofInt 2)

def estimate (usage : CacheUsage) : F :=
  let creation := max usage.cacheCreationInputTokens 0
  let creation1h := min (max usage.cacheCreation1hInputTokens 0) creation
  fl.add (fl.add (fl.add (fl.add
    (fl.mul (fl.ofInt (max usage.inputTokens 0)) pricing.inputCostPerToken)
    (fl.mul (fl.ofInt (max usage.outputTokens 0)) pricing.outputCostPerToken))
    (fl.mul (fl.ofInt (creation - creation1h)) pricing.cacheCreationInputTokenCost))
    (fl.mul (fl.ofInt creation1h) (pricing.effectiveCacheCreation1hInputTokenCost fl)))
    (fl.mul (fl.ofInt (max usage.cacheReadInputTokens 0)) pricing.cacheReadInputTokenCost)

end ModelPricing

namespace CacheHitShapingPolicy

def maxTargetHitRatio : F := fl.ofRat (99 / 100)

/-- A setting that is not finite has its default, and it is kept between zero and a limit. -/
def bounded (value default limit : F) : F :=
  fl.clamp (if fl.isFinite value then value else default) (fl.ofInt 0) limit

def normalized (policy : CacheHitShapingPolicy F) : CacheHitShapingPolicy F :=
  { policy with
    targetHitRatio := bounded fl policy.targetHitRatio (fl.ofRat (9 / 10)) (maxTargetHitRatio fl)
    ratioJitter := bounded fl policy.ratioJitter (fl.ofRat (4 / 100)) (fl.ofRat (2 / 10))
    minCacheReadTokens := max policy.minCacheReadTokens 0
    minCacheCreationTokens := max policy.minCacheCreationTokens 0
    minCostRatio := bounded fl policy.minCostRatio (fl.ofInt 1) (fl.ofInt 5)
    maxReadMultiplier := bounded fl policy.maxReadMultiplier (fl.ofInt 0) (fl.ofInt 50)
    minCreationRatio := bounded fl policy.minCreationRatio (fl.ofInt 0) (fl.ofInt 5) }

end CacheHitShapingPolicy

/-- A limit of which zero means none. -/
def limitOf (value : ℤ) : ℤ := if 0 < value then value else i32Max

def unit (seed : UInt64) : F :=
  fl.div (fl.ofInt (splitmix64 seed % 10001).toNat) (fl.ofInt 10000)

def targetRatio (policy : CacheHitShapingPolicy F) (seed : UInt64) : F :=
  fl.min (fl.add policy.targetHitRatio (fl.mul policy.ratioJitter
    (unit fl (seed ^^^ 0x3c6ef372fe94f82b)))) (CacheHitShapingPolicy.maxTargetHitRatio fl)

def multiplierCap (policy : CacheHitShapingPolicy F) (rawInput : ℤ) : ℤ :=
  fl.toI32 (fl.clamp (fl.round (fl.mul (fl.ofInt (max rawInput 1)) policy.maxReadMultiplier))
    (fl.ofInt 1) (fl.ofInt i32Max))

def creationShare (policy : CacheHitShapingPolicy F) (rawInput : ℤ) : ℤ :=
  fl.toI32 (fl.clamp (fl.round (fl.mul (fl.ofInt rawInput) policy.minCreationRatio))
    (fl.ofInt 0) (fl.ofInt i32Max))

theorem limitOf_pos (value : ℤ) : 0 < limitOf value := by
  have hmax : 0 < i32Max := by decide
  unfold limitOf
  split_ifs with h
  · exact h
  · exact hmax

theorem limitOf_le {value : ℤ} (h : value ≤ i32Max) : limitOf value ≤ i32Max := by
  unfold limitOf
  split_ifs
  · exact h
  · exact le_rfl

theorem isFinite_maxReadMultiplier (policy : CacheHitShapingPolicy F) :
    fl.isFinite (policy.normalized fl).maxReadMultiplier = true := by
  refine fl.isFinite_clamp _ _ _ ?_
  split_ifs with hfinite
  · exact hfinite
  · exact fl.isFinite_zero

theorem multiplierCap_mem (policy : CacheHitShapingPolicy F) (rawInput : ℤ) :
    1 ≤ multiplierCap fl (policy.normalized fl) rawInput ∧
      multiplierCap fl (policy.normalized fl) rawInput ≤ i32Max :=
  fl.toI32_clamp _ 1 i32Max (by decide) (by decide) le_rfl
    (fl.isNan_round_mul _ _ (isFinite_maxReadMultiplier fl policy))

end Floats

end KiroProxy.UsageShaping
