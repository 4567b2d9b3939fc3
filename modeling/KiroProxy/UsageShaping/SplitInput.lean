import KiroProxy.Floats
import KiroProxy.UsageShaping.Breakdown

/-!
# Usages with the cached tokens split from the input

The tokens that were cached are taken out of the input, so that input, read and write make up the
total: by a share of the total that is covered, or by the cached tokens themselves, cut to the
total. The input is then moved into a range that may be set.
-/

namespace KiroProxy.UsageShaping

open PromptCache.CreationControl

structure CacheSimulation (F : Type) where
  cacheCreationInputTokens : ℤ
  cacheReadInputTokens : ℤ
  cacheCreation5mInputTokens : ℤ
  cacheCreation1hInputTokens : ℤ
  targetCacheRatio : Option F
  /-- What is applied to the total. -/
  amplification : Option (ℤ → ℤ)
  splitCachedInput : Bool
  splitInputMinTokens : ℤ
  splitInputMaxTokens : ℤ
  splitInputJitterSeed : UInt64

def clampInt (value low high : ℤ) : ℤ := max low (min value high)

def uncachedUsage (totalInputTokens outputTokens : ℤ) : CacheUsage where
  totalInputTokens := totalInputTokens
  inputTokens := totalInputTokens
  outputTokens := max outputTokens 0
  cacheCreationInputTokens := 0
  cacheReadInputTokens := 0
  cacheCreation5mInputTokens := 0
  cacheCreation1hInputTokens := 0

namespace CacheSimulation

variable {F : Type} (fl : Floats F) (sim : CacheSimulation F)

def coveredTokens (total : ℤ) (coveredRatio : F) : ℤ :=
  fl.toI32 (fl.round (fl.mul (fl.ofInt total) (fl.clamp coveredRatio (fl.ofInt 0) (fl.ofInt 1))))

def readTokens (cacheTotal rawRead rawCachedTotal : ℤ) : ℤ :=
  fl.toI32 (fl.round (fl.mul (fl.ofInt cacheTotal)
    (fl.div (fl.ofInt rawRead) (fl.ofInt rawCachedTotal))))

/-- What the parts leave of the write goes to the hour if only the hour has a part. -/
def fillBreakdown (breakdown : ℤ × ℤ) (cacheCreation : ℤ) : ℤ × ℤ :=
  let assigned := saturate (breakdown.1 + breakdown.2)
  let remainder := max (saturate (cacheCreation - assigned)) 0
  if 0 < remainder then
    if 0 < breakdown.2 ∧ breakdown.1 = 0 then (breakdown.1, breakdown.2 + remainder)
    else (breakdown.1 + remainder, breakdown.2)
  else breakdown

def toSplitRatioUsage (rawInputTokens cacheBasisTokens outputTokens : ℤ) (coveredRatio : F) :
    CacheUsage :=
  let totalInputTokens := max rawInputTokens 0
  if totalInputTokens ≤ 0 then uncachedUsage totalInputTokens outputTokens
  else
    let rawCacheTotal := clampInt (coveredTokens fl totalInputTokens coveredRatio) 0 totalInputTokens
    let cacheBasisTokens := max cacheBasisTokens totalInputTokens
    let cacheTotal :=
      if totalInputTokens < cacheBasisTokens then
        max (coveredTokens fl cacheBasisTokens coveredRatio) rawCacheTotal
      else rawCacheTotal
    let rawRead := max sim.cacheReadInputTokens 0
    let rawCreation := max sim.cacheCreationInputTokens 0
    let rawCachedTotal := saturate (rawRead + rawCreation)
    if rawCachedTotal ≤ 0 ∨ cacheTotal ≤ 0 then uncachedUsage totalInputTokens outputTokens
    else
      let cacheRead := clampInt (readTokens fl cacheTotal rawRead rawCachedTotal) 0 cacheTotal
      let cacheCreation := saturate (cacheTotal - cacheRead)
      let breakdown := capCacheCreationBreakdown sim.cacheCreation5mInputTokens
        sim.cacheCreation1hInputTokens cacheCreation
      let parts := fillBreakdown breakdown cacheCreation
      let inputTokens := saturate (totalInputTokens - rawCacheTotal)
      { totalInputTokens := saturate (saturate (inputTokens + cacheRead) + cacheCreation)
        inputTokens := inputTokens
        outputTokens := max outputTokens 0
        cacheCreationInputTokens := cacheCreation
        cacheReadInputTokens := cacheRead
        cacheCreation5mInputTokens := parts.1
        cacheCreation1hInputTokens := parts.2 }

def toTargetRatioUsage (rawInputTokens cacheBasisTokens outputTokens : ℤ) (targetRatio : F) :
    CacheUsage :=
  if rawInputTokens ≤ 1 then uncachedUsage rawInputTokens outputTokens
  else
    let targetCached := max (fl.toI32 (fl.round (fl.mul (fl.ofInt (max cacheBasisTokens 0))
      (fl.clamp targetRatio (fl.ofInt 0) (fl.ofRat (99 / 100)))))) 0
    let hasRead := decide (0 < sim.cacheReadInputTokens)
    let hasCreation := decide (0 < sim.cacheCreationInputTokens)
    let split : ℤ × ℤ :=
      match hasRead, hasCreation with
      | true, true =>
        let read := min (max sim.cacheReadInputTokens 0) targetCached
        (read, saturate (targetCached - read))
      | true, false => (targetCached, 0)
      | false, true => (0, targetCached)
      | false, false => (0, 0)
    let cacheCreation1h := if 0 < sim.cacheCreation1hInputTokens then split.2 else 0
    { totalInputTokens := saturate (saturate (rawInputTokens + split.2) + split.1)
      inputTokens := rawInputTokens
      outputTokens := max outputTokens 0
      cacheCreationInputTokens := split.2
      cacheReadInputTokens := split.1
      cacheCreation5mInputTokens := saturate (split.2 - cacheCreation1h)
      cacheCreation1hInputTokens := cacheCreation1h }

def cutCached (cacheBasisTokens : ℤ) : ℤ × ℤ :=
  let cacheCreation := max sim.cacheCreationInputTokens 0
  let cacheRead := max sim.cacheReadInputTokens 0
  let cachedTotal := saturate (cacheCreation + cacheRead)
  if cacheBasisTokens < cachedTotal then
    let overflow := cachedTotal - cacheBasisTokens
    let readReduction := min cacheRead overflow
    (cacheRead - readReduction, saturate (cacheCreation - (overflow - readReduction)))
  else (cacheRead, cacheCreation)

def toCutUsage (rawInputTokens cacheBasisTokens outputTokens : ℤ) : CacheUsage :=
  let cached := sim.cutCached cacheBasisTokens
  let cacheRead := cached.1
  let cacheCreation := cached.2
  let cacheCreation5m := min (max sim.cacheCreation5mInputTokens 0) cacheCreation
  let cacheCreation1h :=
    min (max sim.cacheCreation1hInputTokens 0) (saturate (cacheCreation - cacheCreation5m))
  let cappedCachedTotal := saturate (cacheCreation + cacheRead)
  { totalInputTokens :=
      if sim.splitCachedInput then rawInputTokens
      else saturate (saturate (rawInputTokens + cacheCreation) + cacheRead)
    inputTokens :=
      if sim.splitCachedInput then max (saturate (rawInputTokens - cappedCachedTotal)) 0
      else rawInputTokens
    outputTokens := max outputTokens 0
    cacheCreationInputTokens := cacheCreation
    cacheReadInputTokens := cacheRead
    cacheCreation5mInputTokens := cacheCreation5m
    cacheCreation1hInputTokens := cacheCreation1h }

def asU64 (value : ℤ) : UInt64 := UInt64.ofNat (max value 0).toNat

def splitInputRangeTarget (usage : CacheUsage) (minTokens maxTokens : ℤ) : ℤ :=
  let minTokens := max minTokens 0
  let maxTokens := max maxTokens minTokens
  if maxTokens ≤ minTokens then minTokens
  else
    let state := [usage.totalInputTokens, usage.inputTokens, usage.cacheCreationInputTokens,
      usage.cacheReadInputTokens, usage.cacheCreation5mInputTokens,
      usage.cacheCreation1hInputTokens].foldl
        (fun state value => splitmix64 (state ^^^ asU64 value)) sim.splitInputJitterSeed
    minTokens + ((splitmix64 (state ^^^ 0x6751d5c488a2c713)).toNat %
      (maxTokens - minTokens + 1).toNat : ℕ)

def rangeMin (total : ℤ) : ℤ := min (max sim.splitInputMinTokens 0) total

def rangeMax (total : ℤ) : ℤ :=
  if 0 < sim.splitInputMaxTokens then min (max sim.splitInputMaxTokens (sim.rangeMin total)) total
  else total

/-- The input moved to the target, out of the write and then the read, or into the write. -/
def moveInput (usage : CacheUsage) (total target : ℤ) : CacheUsage :=
  if usage.inputTokens < target then
    let delta := target - usage.inputTokens
    let creationReduction := min usage.cacheCreationInputTokens delta
    let creation := usage.cacheCreationInputTokens - creationReduction
    let read := usage.cacheReadInputTokens -
      min usage.cacheReadInputTokens (delta - creationReduction)
    { usage with
      cacheCreationInputTokens := creation
      cacheReadInputTokens := read
      inputTokens := max (saturate (saturate (total - creation) - read)) 0 }
  else if target < usage.inputTokens then
    { usage with
      inputTokens := target
      cacheCreationInputTokens :=
        saturate (usage.cacheCreationInputTokens + (usage.inputTokens - target)) }
  else usage

def applySplitInputRange (usage : CacheUsage) : CacheUsage :=
  if sim.splitCachedInput = false then usage
  else
    let total := max usage.totalInputTokens 0
    if total ≤ 0 then usage
    else
      let minTokens := sim.rangeMin total
      let maxTokens := sim.rangeMax total
      if minTokens ≤ 0 ∧ sim.splitInputMaxTokens ≤ 0 then usage
      else
        let usage := { usage with
          inputTokens := min (max usage.inputTokens 0) total
          cacheReadInputTokens := max usage.cacheReadInputTokens 0
          cacheCreationInputTokens := max usage.cacheCreationInputTokens 0 }
        if minTokens ≤ usage.inputTokens ∧ usage.inputTokens ≤ maxTokens then
          normalizeCacheUsageBreakdown usage
        else
          normalizeCacheUsageBreakdown
            (moveInput usage total (sim.splitInputRangeTarget usage minTokens maxTokens))

def toUsage (totalInputTokens outputTokens : ℤ) : CacheUsage :=
  let rawInputTokens := max totalInputTokens 0
  let cacheBasisTokens :=
    match sim.amplification with
    | some apply => apply rawInputTokens
    | none => rawInputTokens
  match sim.targetCacheRatio with
  | some ratio =>
    if sim.splitCachedInput then
      sim.applySplitInputRange
        (sim.toSplitRatioUsage fl rawInputTokens cacheBasisTokens outputTokens ratio)
    else sim.toTargetRatioUsage fl rawInputTokens cacheBasisTokens outputTokens ratio
  | none =>
    let usage := sim.toCutUsage rawInputTokens cacheBasisTokens outputTokens
    if sim.splitCachedInput then sim.applySplitInputRange usage else usage

end CacheSimulation

end KiroProxy.UsageShaping
