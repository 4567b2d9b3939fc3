import KiroProxy.PromptCache.Profile
import KiroProxy.Transition

/-!
# The calls of the tracker

A computation reads the usage of a request and refreshes the entry it finds; an update stores
the prefixes of a request that succeeded. Each works under one lock: what comes before it
decides only whether the call takes the lock and with what.
-/

namespace KiroProxy.PromptCache

open NestedMap

/-- The last eligible prefix that has an unexpired entry; the points come latest first. -/
def findEntry (eligible : PromptCacheLookupPoint → Bool) (now : ℤ)
    (entries : List (Digest × PromptCacheEntry)) :
    List PromptCacheLookupPoint → Option (PromptCacheLookupPoint × PromptCacheEntry)
  | [] => none
  | point :: points =>
    if !eligible point then findEntry eligible now entries points
    else
      match KeyedList.get point.fingerprint entries with
      | none => findEntry eligible now entries points
      | some entry =>
        if entry.expiresAt ≤ now then findEntry eligible now entries points
        else some (point, entry)

def PromptCacheEntry.touch (entry : PromptCacheEntry) (bounds : PromptCacheBounds) (now : ℤ) :
    PromptCacheEntry :=
  { entry with
    lastUsedAt := now
    expiresAt := now + durationFromStd (bounds.effectiveTtl entry.ttl) }

namespace PromptCacheState

/-- The lookup loop that the computations share, in a scope that exists. -/
def lookup (s : PromptCacheState) (scope : PromptCacheScope) (bounds : PromptCacheBounds)
    (eligible : PromptCacheLookupPoint → Bool) (points : List PromptCacheLookupPoint) (now : ℤ) :
    PromptCacheState × Option (PromptCacheLookupPoint × PromptCacheEntry) :=
  match KeyedList.get scope s.byScope with
  | none => (s, none)
  | some entries =>
    match findEntry eligible now entries points.reverse with
    | none => (s, none)
    | some (point, entry) =>
      ({ s with
          byScope := insertCell scope point.fingerprint (entry.touch bounds now) s.byScope },
        some (point, entry))

end PromptCacheState

/-- The entries that an update stores, in order. -/
structure Write where
  scope : PromptCacheScope
  bounds : PromptCacheBounds
  ttl : ℕ
  points : List (Digest × ℤ)

def Write.entry (w : Write) (now cachedTokens : ℤ) : PromptCacheEntry where
  expiresAt := now + durationFromStd w.ttl
  ttl := w.ttl
  lastUsedAt := now
  cachedTokens := cachedTokens

namespace PromptCacheState

def insertAll (s : PromptCacheState) (w : Write) (now : ℤ) : PromptCacheState :=
  w.points.foldl (fun s point => s.insert w.scope point.1 (w.entry now point.2)) s

/-- An update under the lock. -/
def write (s : PromptCacheState) (w : Write) (now : ℤ) : Option PromptCacheState :=
  ((s.pruneExpiredIfDue now).insertAll w now).enforceBounds w.scope w.bounds now

end PromptCacheState

inductive Call
  | compute (scope : Option PromptCacheScope) (profile : Option PromptCacheProfile)
      (targetReadRatio : Float) (bounds : PromptCacheBounds)
  | computeKiroRsTool (scope : Option PromptCacheScope) (profile : Option PromptCacheProfile)
      (bounds : PromptCacheBounds) (policy : KiroRsToolCachePolicy)
  | computeStableSegment (scope : Option PromptCacheScope) (profile : Option PromptCacheProfile)
      (bounds : PromptCacheBounds) (policy : StableSegmentCachePolicy)
  | update (scope : Option PromptCacheScope) (profile : Option PromptCacheProfile)
      (targetReadRatio : Float) (bounds : PromptCacheBounds)
  | updateKiroRsTool (scope : Option PromptCacheScope) (profile : Option PromptCacheProfile)
      (bounds : PromptCacheBounds) (committedCacheTokens : ℤ)
  | updateStableSegment (scope : Option PromptCacheScope) (profile : Option PromptCacheProfile)
      (bounds : PromptCacheBounds) (policy : StableSegmentCachePolicy) (committedCacheTokens : ℤ)

section Calls

variable (toLowercase : String → String)

open PromptCacheState

def computeWithBounds (s : PromptCacheState) (now : ℤ) (scope : Option PromptCacheScope)
    (profile : Option PromptCacheProfile) (targetReadRatio : Float) (bounds : PromptCacheBounds) :
    PromptCacheState × PromptCacheUsage :=
  match scope, profile with
  | some scope, some profile =>
    if profile.breakpoints = [] then (s, .default)
    else
      let minTokens := minCacheableTokensForModel toLowercase profile.model
      let effectiveRatio := effectiveCacheReadRatio profile targetReadRatio
      let targetTokens := targetCacheTokens profile.totalInputTokens effectiveRatio minTokens
      if targetTokens ≤ 0 then (s, .default)
      else if profile.suppressFirstTurnFallbackRead then
        (s, creationOnlyUsage profile targetTokens effectiveRatio)
      else
        let s := s.pruneExpiredIfDue now
        if (KeyedList.get scope s.byScope).isNone then
          (s, creationOnlyUsage profile targetTokens effectiveRatio)
        else
          let (s, found) := s.lookup scope bounds
            (fun point => decide (minTokens ≤ point.cumulativeTokens)) profile.lookupPoints now
          let matchedTokens :=
            (found.map fun hit => max (min hit.2.cachedTokens targetTokens) 0).getD 0
          let creation := max (targetTokens - matchedTokens) 0
          (s, usageOf profile creation matchedTokens (some effectiveRatio))
  | _, _ => (s, .default)

/-- What the policies read: the tokens of the prefix found, of its entry and of the policy. -/
def readTokens (coveredTokens : ℤ)
    (found : Option (PromptCacheLookupPoint × PromptCacheEntry)) : ℤ :=
  (found.map fun hit =>
    max (min (min hit.1.cumulativeTokens hit.2.cachedTokens) coveredTokens) 0).getD 0

def computeKiroRsToolProfileWithBounds (s : PromptCacheState) (now : ℤ)
    (scope : Option PromptCacheScope) (profile : Option PromptCacheProfile)
    (bounds : PromptCacheBounds) (policy : KiroRsToolCachePolicy) :
    PromptCacheState × PromptCacheUsage :=
  let policy := policy.normalized
  match scope, profile with
  | some scope, some profile =>
    match profile.lookupPoints.getLast?.map fun point => max point.cumulativeTokens 0 with
    | none => (s, .default)
    | some coveredTokens =>
      if coveredTokens ≤ 0 then (s, .default)
      else
        let coveredTokens := applyKiroRsToolCoveragePolicy coveredTokens policy
        if coveredTokens ≤ 0 then (s, .default)
        else
          let s := s.pruneExpiredIfDue now
          let (s, found) := s.lookup scope bounds (fun _ => true) profile.lookupPoints now
          (s, policyUsage profile policy coveredTokens (readTokens coveredTokens found))
  | _, _ => (s, .default)

def computeStableSegmentProfileWithBounds (s : PromptCacheState) (now : ℤ)
    (scope : Option PromptCacheScope) (profile : Option PromptCacheProfile)
    (bounds : PromptCacheBounds) (policy : StableSegmentCachePolicy) :
    PromptCacheState × PromptCacheUsage :=
  let policy := policy.normalized
  match scope, profile with
  | some scope, some profile =>
    if profile.totalInputTokens < policy.minTotalInputTokens then (s, .default)
    else
      match profile.lookupPoints.getLast?.map fun point => max point.cumulativeTokens 0 with
      | none => (s, .default)
      | some coveredTokens =>
        let coveredTokens := applyStableSegmentCoveragePolicy coveredTokens policy
        if coveredTokens < max policy.minSegmentTokens 1 then (s, .default)
        else
          let s := s.pruneExpiredIfDue now
          let (s, found) := s.lookup scope bounds
            (fun point => decide (policy.minSegmentTokens ≤ point.cumulativeTokens))
            profile.lookupPoints now
          (s, policyUsage profile policy.toKiroRsToolCachePolicy coveredTokens
            (readTokens coveredTokens found))
  | _, _ => (s, .default)

/-- What `update_with_bounds` writes; nothing where it returns before it takes the lock. -/
def updateWithBounds (scope : Option PromptCacheScope) (profile : Option PromptCacheProfile)
    (targetReadRatio : Float) (bounds : PromptCacheBounds) : Option Write :=
  match scope, profile with
  | some scope, some profile =>
    if profile.breakpoints = [] ∨ profile.lookupPoints = [] then none
    else
      let minTokens := minCacheableTokensForModel toLowercase profile.model
      let effectiveRatio := effectiveCacheReadRatio profile targetReadRatio
      let targetTokens := targetCacheTokens profile.totalInputTokens effectiveRatio minTokens
      if targetTokens ≤ 0 then none
      else
        match profile.lookupPoints.getLast?.map (·.cumulativeTokens) with
        | none => none
        | some flatTotalTokens =>
          if flatTotalTokens ≤ 0 then none
          else
            let cachedTokens (point : PromptCacheLookupPoint) : ℤ :=
              let scaledTokens := floatToI32 (Float.ofInt point.cumulativeTokens /
                Float.ofInt flatTotalTokens * Float.ofInt targetTokens).round
              max (min scaledTokens targetTokens) 0
            some { scope, bounds
                   ttl := bounds.writeEntryTtl
                    (profile.breakpoints.getLast?.getD defaultPromptCacheTtl)
                   points := (profile.lookupPoints.filter
                    fun point => decide (minTokens ≤ cachedTokens point)).map
                      fun point => (point.fingerprint, cachedTokens point) }
  | _, _ => none

def updateKiroRsToolProfileWithBounds (scope : Option PromptCacheScope)
    (profile : Option PromptCacheProfile) (bounds : PromptCacheBounds)
    (committedCacheTokens : ℤ) : Option Write :=
  match scope, profile with
  | some scope, some profile =>
    let committedCacheTokens := max committedCacheTokens 0
    if profile.lookupPoints = [] ∨ committedCacheTokens ≤ 0 then none
    else
      let cachedTokens (point : PromptCacheLookupPoint) : ℤ :=
        max (min point.cumulativeTokens committedCacheTokens) 0
      some { scope, bounds
             ttl := bounds.writeEntryTtl
              (profile.breakpoints.getLast?.getD defaultPromptCacheTtl)
             points := (profile.lookupPoints.filter
              fun point => decide (0 < cachedTokens point)).map
                fun point => (point.fingerprint, cachedTokens point) }
  | _, _ => none

def updateStableSegmentProfileWithBounds (scope : Option PromptCacheScope)
    (profile : Option PromptCacheProfile) (bounds : PromptCacheBounds)
    (policy : StableSegmentCachePolicy) (committedCacheTokens : ℤ) : Option Write :=
  match scope, profile with
  | some scope, some profile =>
    let policy := policy.normalized
    let committedCacheTokens := max committedCacheTokens 0
    if profile.totalInputTokens < policy.minTotalInputTokens ∨ profile.lookupPoints = [] ∨
        committedCacheTokens < max policy.minSegmentTokens 1 then none
    else
      let cachedTokens (point : PromptCacheLookupPoint) : ℤ :=
        max (min point.cumulativeTokens committedCacheTokens) 0
      some { scope, bounds
             ttl := bounds.writeEntryTtl
              (profile.breakpoints.getLast?.getD (stableSegmentDefaultTtl policy))
             points := (profile.lookupPoints.filter
              fun point => decide (policy.minSegmentTokens ≤ point.cumulativeTokens) &&
                decide (max policy.minSegmentTokens 1 ≤ cachedTokens point)).map
                  fun point => (point.fingerprint, cachedTokens point) }
  | _, _ => none

def Call.write : Call → Option Write
  | .update scope profile targetReadRatio bounds =>
    updateWithBounds toLowercase scope profile targetReadRatio bounds
  | .updateKiroRsTool scope profile bounds committedCacheTokens =>
    updateKiroRsToolProfileWithBounds scope profile bounds committedCacheTokens
  | .updateStableSegment scope profile bounds policy committedCacheTokens =>
    updateStableSegmentProfileWithBounds scope profile bounds policy committedCacheTokens
  | _ => none

/-- A call at a moment, with the usage that a computation returns. -/
def call (s : PromptCacheState) (now : ℤ) (c : Call) :
    Option (PromptCacheState × Option PromptCacheUsage) :=
  match c with
  | .compute scope profile targetReadRatio bounds =>
    let (s, usage) := computeWithBounds toLowercase s now scope profile targetReadRatio bounds
    some (s, some usage)
  | .computeKiroRsTool scope profile bounds policy =>
    let (s, usage) := computeKiroRsToolProfileWithBounds s now scope profile bounds policy
    some (s, some usage)
  | .computeStableSegment scope profile bounds policy =>
    let (s, usage) := computeStableSegmentProfileWithBounds s now scope profile bounds policy
    some (s, some usage)
  | _ =>
    match c.write toLowercase with
    | none => some (s, none)
    | some w => (s.write w now).map fun s => (s, none)

def step (s : PromptCacheState) (entry : ℤ × Call) : Option PromptCacheState :=
  (call toLowercase s entry.1 entry.2).map Prod.fst

def run : PromptCacheState → List (ℤ × Call) → Option PromptCacheState :=
  Transition.run (step toLowercase)

/-- A computation either leaves the table alone or looks up one entry, and then reports a
function of what it finds. -/
inductive ReadShape (f : PromptCacheState → ℤ → PromptCacheState × PromptCacheUsage) : Prop
  | idle (usage : PromptCacheUsage) (h : ∀ s now, f s now = (s, usage))
  | reads (scope : PromptCacheScope) (bounds : PromptCacheBounds)
      (eligible : PromptCacheLookupPoint → Bool) (points : List PromptCacheLookupPoint)
      (usage : Option (PromptCacheLookupPoint × PromptCacheEntry) → PromptCacheUsage)
      (h : ∀ s now, f s now =
        (((s.pruneExpiredIfDue now).lookup scope bounds eligible points now).1,
          usage ((s.pruneExpiredIfDue now).lookup scope bounds eligible points now).2))

/-- All a call can do to the table: nothing, one lookup or one write. -/
inductive CallShape (c : Call) : Prop
  | reads (hwrite : c.write toLowercase = none)
      (f : PromptCacheState → ℤ → PromptCacheState × PromptCacheUsage) (hf : ReadShape f)
      (h : ∀ s now, call toLowercase s now c = some ((f s now).1, some (f s now).2))
  | refused (hwrite : c.write toLowercase = none)
      (h : ∀ s now, call toLowercase s now c = some (s, none))
  | writes (w : Write) (hwrite : c.write toLowercase = some w)
      (h : ∀ s now, call toLowercase s now c = (s.write w now).map fun t => (t, none))

theorem usageOf_creation (profile : PromptCacheProfile) {targetTokens : ℤ}
    (htarget : ¬ targetTokens ≤ 0) (ratio : Float) :
    usageOf profile (max (targetTokens - 0) 0) 0 (some ratio) =
      creationOnlyUsage profile targetTokens ratio := by
  rw [creationOnlyUsage, Int.sub_zero, max_eq_left (le_of_lt (not_le.mp htarget))]

theorem lookup_of_isNone {s : PromptCacheState} {scope : PromptCacheScope}
    (h : (KeyedList.get scope s.byScope).isNone = true) (bounds : PromptCacheBounds)
    (eligible : PromptCacheLookupPoint → Bool) (points : List PromptCacheLookupPoint) (now : ℤ) :
    s.lookup scope bounds eligible points now = (s, none) := by
  rw [lookup, Option.isNone_iff_eq_none.mp h]

variable (scope : Option PromptCacheScope) (profile : Option PromptCacheProfile)

theorem readShape_computeWithBounds (targetReadRatio : Float) (bounds : PromptCacheBounds) :
    ReadShape fun s now =>
      computeWithBounds toLowercase s now scope profile targetReadRatio bounds := by
  rcases scope with _ | scope
  · exact .idle .default fun _ _ => rfl
  rcases profile with _ | profile
  · exact .idle .default fun _ _ => rfl
  simp only [computeWithBounds]
  generalize effectiveCacheReadRatio profile targetReadRatio = effectiveRatio
  generalize minCacheableTokensForModel toLowercase profile.model = minTokens
  generalize targetCacheTokens profile.totalInputTokens effectiveRatio minTokens = targetTokens
  split_ifs with hbreak htarget hsuppress
  · exact .idle .default fun _ _ => rfl
  · exact .idle .default fun _ _ => rfl
  · exact .idle _ fun _ _ => rfl
  · refine .reads scope bounds (fun point => decide (minTokens ≤ point.cumulativeTokens))
      profile.lookupPoints (fun found =>
        let matchedTokens := (found.map fun hit => max (min hit.2.cachedTokens targetTokens) 0).getD 0
        usageOf profile (max (targetTokens - matchedTokens) 0) matchedTokens
          (some effectiveRatio)) fun s now => ?_
    split_ifs with hnone
    · rw [lookup_of_isNone hnone]
      exact congrArg _ (usageOf_creation profile htarget _).symm
    · rfl

theorem readShape_computeKiroRsTool (bounds : PromptCacheBounds) (policy : KiroRsToolCachePolicy) :
    ReadShape fun s now =>
      computeKiroRsToolProfileWithBounds s now scope profile bounds policy := by
  rcases scope with _ | scope
  · exact .idle .default fun _ _ => rfl
  rcases profile with _ | profile
  · exact .idle .default fun _ _ => rfl
  simp only [computeKiroRsToolProfileWithBounds]
  split
  · exact .idle .default fun _ _ => rfl
  · split_ifs
    · exact .idle .default fun _ _ => rfl
    · exact .idle .default fun _ _ => rfl
    · exact .reads scope bounds (fun _ => true) profile.lookupPoints
        (fun found => policyUsage profile _ _ (readTokens _ found)) fun _ _ => rfl

theorem readShape_computeStableSegment (bounds : PromptCacheBounds)
    (policy : StableSegmentCachePolicy) :
    ReadShape fun s now =>
      computeStableSegmentProfileWithBounds s now scope profile bounds policy := by
  rcases scope with _ | scope
  · exact .idle .default fun _ _ => rfl
  rcases profile with _ | profile
  · exact .idle .default fun _ _ => rfl
  simp only [computeStableSegmentProfileWithBounds]
  split_ifs
  · exact .idle .default fun _ _ => rfl
  · split
    · exact .idle .default fun _ _ => rfl
    · split_ifs
      · exact .idle .default fun _ _ => rfl
      · exact .reads scope bounds _ profile.lookupPoints
          (fun found => policyUsage profile _ _ (readTokens _ found)) fun _ _ => rfl

theorem callShape_of_write {c : Call}
    (h : ∀ s now, call toLowercase s now c = match c.write toLowercase with
      | none => some (s, none)
      | some w => (s.write w now).map fun s => (s, none)) : CallShape toLowercase c := by
  cases hwrite : c.write toLowercase with
  | none => exact .refused hwrite fun s now => by rw [h, hwrite]
  | some w => exact .writes w hwrite fun s now => by rw [h, hwrite]

theorem callShape (c : Call) : CallShape toLowercase c := by
  cases c with
  | compute scope profile targetReadRatio bounds =>
    exact .reads rfl _ (readShape_computeWithBounds toLowercase scope profile targetReadRatio
      bounds) fun _ _ => rfl
  | computeKiroRsTool scope profile bounds policy =>
    exact .reads rfl _ (readShape_computeKiroRsTool scope profile bounds policy) fun _ _ => rfl
  | computeStableSegment scope profile bounds policy =>
    exact .reads rfl _ (readShape_computeStableSegment scope profile bounds policy)
      fun _ _ => rfl
  | update scope profile targetReadRatio bounds => exact callShape_of_write toLowercase fun _ _ => rfl
  | updateKiroRsTool scope profile bounds committed =>
    exact callShape_of_write toLowercase fun _ _ => rfl
  | updateStableSegment scope profile bounds policy committed =>
    exact callShape_of_write toLowercase fun _ _ => rfl

end Calls

end KiroProxy.PromptCache
