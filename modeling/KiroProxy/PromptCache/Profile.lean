import KiroProxy.Matching
import KiroProxy.PromptCache.State

/-!
# Profiles and their token counts

A profile holds the fingerprints of the prefixes of a request with the tokens up to each. How
many tokens count as cached is a function of the profile and of the policy of the route
alone. Ratios are the `f64` of the source.
-/

namespace KiroProxy.PromptCache

structure PromptCacheLookupPoint where
  fingerprint : Digest
  cumulativeTokens : ℤ
  deriving DecidableEq, Repr

/-- A breakpoint is known by its time to live. -/
structure PromptCacheProfile where
  breakpoints : List ℕ
  lookupPoints : List PromptCacheLookupPoint
  totalInputTokens : ℤ
  model : String
  suppressFirstTurnFallbackRead : Bool
  deriving DecidableEq, Repr

structure PromptCacheUsage where
  cacheCreationInputTokens : ℤ
  cacheReadInputTokens : ℤ
  cacheCreation5mInputTokens : ℤ
  cacheCreation1hInputTokens : ℤ
  effectiveCacheRatio : Option Float

def PromptCacheUsage.default : PromptCacheUsage := ⟨0, 0, 0, 0, none⟩

/-- The fields of `KiroRsToolCachePolicy` that the tracker reads. -/
structure KiroRsToolCachePolicy where
  coverageRatio : Float
  maxCoverageTokens : ℤ
  incrementalCreateEnabled : Bool
  maxNewCreationTokensPerRequest : ℤ

/-- The fields of `StableSegmentCachePolicy` that the tracker reads. -/
structure StableSegmentCachePolicy extends KiroRsToolCachePolicy where
  minTotalInputTokens : ℤ
  minSegmentTokens : ℤ
  defaultTtlSecs : ℕ

def second : ℕ := 1000000000

def defaultPromptCacheTtl : ℕ := 5 * 60 * second

def hourPromptCacheTtl : ℕ := 60 * 60 * second

def defaultMinCacheableTokens : ℤ := 1024

def extendedMinCacheableTokens : ℤ := 4096

def haiku3MinCacheableTokens : ℤ := 2048

def targetReadRatioSpread : Float := 0.03

def floatClamp (value low high : Float) : Float :=
  if value < low then low else if high < value then high else value

/-- `f64::max` and `f64::min` ignore one argument that is not a number. -/
def floatMax (a b : Float) : Float :=
  if a.isNaN then b else if b.isNaN then a else if a < b then b else a

def floatMin (a b : Float) : Float :=
  if a.isNaN then b else if b.isNaN then a else if b < a then b else a

def floatToI32 (value : Float) : ℤ := value.toInt32.toInt

def KiroRsToolCachePolicy.normalizedWith (defaultRatio : Float) (policy : KiroRsToolCachePolicy) :
    KiroRsToolCachePolicy where
  coverageRatio :=
    floatClamp (if policy.coverageRatio.isFinite then policy.coverageRatio else defaultRatio) 0 1
  maxCoverageTokens := max policy.maxCoverageTokens 0
  incrementalCreateEnabled := policy.incrementalCreateEnabled
  maxNewCreationTokensPerRequest := max policy.maxNewCreationTokensPerRequest 0

def KiroRsToolCachePolicy.normalized : KiroRsToolCachePolicy → KiroRsToolCachePolicy :=
  KiroRsToolCachePolicy.normalizedWith 1.0

def StableSegmentCachePolicy.normalized (policy : StableSegmentCachePolicy) :
    StableSegmentCachePolicy where
  toKiroRsToolCachePolicy := policy.toKiroRsToolCachePolicy.normalizedWith 0.90
  minTotalInputTokens := max policy.minTotalInputTokens 0
  minSegmentTokens := max policy.minSegmentTokens 0
  defaultTtlSecs := max policy.defaultTtlSecs 1

def stableSegmentDefaultTtl (policy : StableSegmentCachePolicy) : ℕ :=
  policy.normalized.defaultTtlSecs * second

def applyCoverageLimits (coveredTokens : ℤ) (coverageRatio : Float) (maxCoverageTokens : ℤ) : ℤ :=
  let covered := max coveredTokens 0
  let covered :=
    if coverageRatio < 1.0 then floatToI32 (Float.ofInt covered * coverageRatio).floor
    else covered
  let covered := if 0 < maxCoverageTokens then min covered maxCoverageTokens else covered
  max covered 0

def applyKiroRsToolCoveragePolicy (coveredTokens : ℤ) (policy : KiroRsToolCachePolicy) : ℤ :=
  applyCoverageLimits coveredTokens policy.normalized.coverageRatio
    policy.normalized.maxCoverageTokens

def applyStableSegmentCoveragePolicy (coveredTokens : ℤ) (policy : StableSegmentCachePolicy) : ℤ :=
  applyCoverageLimits coveredTokens policy.normalized.coverageRatio
    policy.normalized.maxCoverageTokens

/-- The Unicode lower case of the model's name is a parameter. -/
def minCacheableTokensForModel (toLowercase : String → String) (model : String) : ℤ :=
  let model := (toLowercase model).toList.map fun c => if c = '_' then '-' else c
  let contains (part : String) := (Matching.find part.toList model).isSome
  if contains "haiku" then
    if contains "3-5" || contains "3.5" then haiku3MinCacheableTokens
    else extendedMinCacheableTokens
  else if contains "opus" && (model == "opus".toList || model == "opusplan".toList ||
      contains "4-5" || contains "4.5" || contains "4-6" || contains "4.6" || contains "4-7" ||
      contains "4.7") then
    extendedMinCacheableTokens
  else defaultMinCacheableTokens

/-- The first eight bytes of the last fingerprint as a number between zero and one. -/
def deterministicRatioUnit (profile : PromptCacheProfile) : Float :=
  match profile.lookupPoints.getLast? with
  | none => 0.5
  | some point => Float.ofNat (point.fingerprint.toNat / 2 ^ 192) / Float.ofNat (2 ^ 64 - 1)

def effectiveCacheReadRatio (profile : PromptCacheProfile) (targetReadRatio : Float) : Float :=
  let target := floatClamp targetReadRatio 0.0 0.99
  if target ≤ 0.0 then 0.0
  else
    let low := floatMax (target - targetReadRatioSpread) 0.0
    let high := floatMin (target + targetReadRatioSpread) 0.99
    if high ≤ low then low else low + deterministicRatioUnit profile * (high - low)

def targetCacheTokens (totalInputTokens : ℤ) (targetReadRatio : Float) (minTokens : ℤ) : ℤ :=
  if totalInputTokens ≤ 1 then 0
  else
    let target := floatToI32
      (Float.ofInt totalInputTokens * floatClamp targetReadRatio 0.0 0.99).round
    let target := max 0 (min target (totalInputTokens - 1))
    if minTokens ≤ target then target else 0

def targetTtlBreakdown (profile : PromptCacheProfile) (creation : ℤ) : ℤ × ℤ :=
  if creation ≤ 0 then (0, 0)
  else if hourPromptCacheTtl ≤ profile.breakpoints.getLast?.getD defaultPromptCacheTtl then
    (0, creation)
  else (creation, 0)

def usageOf (profile : PromptCacheProfile) (creation read : ℤ) (ratio : Option Float) :
    PromptCacheUsage where
  cacheCreationInputTokens := creation
  cacheReadInputTokens := read
  cacheCreation5mInputTokens := (targetTtlBreakdown profile creation).1
  cacheCreation1hInputTokens := (targetTtlBreakdown profile creation).2
  effectiveCacheRatio := ratio

def creationOnlyUsage (profile : PromptCacheProfile) (targetTokens : ℤ) (effectiveRatio : Float) :
    PromptCacheUsage :=
  usageOf profile targetTokens 0 (some effectiveRatio)

/-- What a policy reports as created next to what was read. -/
def policyUsage (profile : PromptCacheProfile) (policy : KiroRsToolCachePolicy)
    (coveredTokens readTokens : ℤ) : PromptCacheUsage :=
  let creation := max (coveredTokens - readTokens) 0
  let creation := if !policy.incrementalCreateEnabled && 0 < readTokens then 0 else creation
  let creation :=
    if 0 < policy.maxNewCreationTokensPerRequest then
      min creation policy.maxNewCreationTokensPerRequest
    else creation
  usageOf profile creation readTokens
    (if 0 < profile.totalInputTokens then
      some (Float.ofInt coveredTokens / Float.ofInt profile.totalInputTokens)
    else none)

end KiroProxy.PromptCache
