import KiroProxy.PromptCache.CreationControl
import KiroProxy.PromptCache.Throttled

/-!
# A growing conversation

The requests of a conversation extend one another, and what one of them reports as cached is stored
before the next one is computed. The next one finds the last prefix of it and reads exactly these
tokens. The product with the coverage ratio is an arbitrary function here.
-/

namespace KiroProxy.PromptCache

open NestedMap CreationControl PromptCacheState

def coverageLimits (product : ℤ → ℤ) (coveredTokens maxCoverageTokens : ℤ) : ℤ :=
  let covered := product (max coveredTokens 0)
  let covered := if 0 < maxCoverageTokens then min covered maxCoverageTokens else covered
  max covered 0

/-- The product of the source. -/
def ratioProduct (coverageRatio : Float) (covered : ℤ) : ℤ :=
  if coverageRatio < 1.0 then floatToI32 (Float.ofInt covered * coverageRatio).floor else covered

theorem applyCoverageLimits_eq (coveredTokens : ℤ) (coverageRatio : Float) (maxCoverageTokens : ℤ) :
    applyCoverageLimits coveredTokens coverageRatio maxCoverageTokens =
      coverageLimits (ratioProduct coverageRatio) coveredTokens maxCoverageTokens := rfl

section Product

variable (product : ℤ → ℤ)

def computeWithProduct (s : PromptCacheState) (now : ℤ) (scope : Option PromptCacheScope)
    (profile : Option PromptCacheProfile) (bounds : PromptCacheBounds)
    (policy : KiroRsToolCachePolicy) : PromptCacheState × PromptCacheUsage :=
  let policy := policy.normalized
  match scope, profile with
  | some scope, some profile =>
    match profile.lookupPoints.getLast?.map fun point => max point.cumulativeTokens 0 with
    | none => (s, .default)
    | some coveredTokens =>
      if coveredTokens ≤ 0 then (s, .default)
      else
        let coveredTokens := coverageLimits product coveredTokens policy.normalized.maxCoverageTokens
        if coveredTokens ≤ 0 then (s, .default)
        else
          let s := s.pruneExpiredIfDue now
          let (s, found) := s.lookup scope bounds (fun _ => true) profile.lookupPoints now
          (s, policyUsage profile policy coveredTokens (readTokens coveredTokens found))
  | _, _ => (s, .default)

end Product

theorem computeKiroRsTool_eq (s : PromptCacheState) (now : ℤ) (scope : Option PromptCacheScope)
    (profile : Option PromptCacheProfile) (bounds : PromptCacheBounds)
    (policy : KiroRsToolCachePolicy) :
    computeKiroRsToolProfileWithBounds s now scope profile bounds policy =
      computeWithProduct (ratioProduct policy.normalized.normalized.coverageRatio) s now scope profile
        bounds policy := rfl

/-- A request of a conversation, with the times of its plan and of its commit. -/
structure Turn where
  profile : PromptCacheProfile
  bounds : PromptCacheBounds
  plannedAt : ℤ
  committedAt : ℤ

def committedTokens (usage : PromptCacheUsage) : ℤ :=
  max (saturate (usage.cacheReadInputTokens + usage.cacheCreationInputTokens)) 0

section Turns

variable (product : ℤ → ℤ) (scope : PromptCacheScope) (policy : KiroRsToolCachePolicy)

namespace Turn

def plan (turn : Turn) (s : PromptCacheState) : PromptCacheState × PromptCacheUsage :=
  computeWithProduct product s turn.plannedAt (some scope) (some turn.profile) turn.bounds
    policy.normalized

def commit (turn : Turn) (s : PromptCacheState) : Option Write :=
  updateKiroRsToolProfileWithBounds (some scope) (some turn.profile) turn.bounds
    (committedTokens (turn.plan product scope policy s).2)

/-- The table before anything is evicted. -/
def stored (turn : Turn) (s : PromptCacheState) : PromptCacheState :=
  match turn.commit product scope policy s with
  | none => (turn.plan product scope policy s).1
  | some w =>
    ((turn.plan product scope policy s).1.pruneExpiredIfDue turn.committedAt).insertAll w
      turn.committedAt

def take (turn : Turn) (s : PromptCacheState) : Option PromptCacheState :=
  match turn.commit product scope policy s with
  | none => some (turn.plan product scope policy s).1
  | some w => (turn.plan product scope policy s).1.write w turn.committedAt

def expiresAt (turn : Turn) : ℤ :=
  turn.committedAt + durationFromStd (turn.bounds.writeEntryTtl
    (turn.profile.breakpoints.getLast?.getD defaultPromptCacheTtl))

def coveredTokens (turn : Turn) : ℤ :=
  match turn.profile.lookupPoints.getLast? with
  | none => 0
  | some point => coverageLimits product (max point.cumulativeTokens 0) policy.maxCoverageTokens

/-- The prefixes of a request differ, and later ones do not have fewer tokens. -/
structure Ordered (turn : Turn) : Prop where
  nodup : (turn.profile.lookupPoints.map PromptCacheLookupPoint.fingerprint).Nodup
  sorted : turn.profile.lookupPoints.Pairwise fun point point' =>
    point.cumulativeTokens ≤ point'.cumulativeTokens
  i32 : ∀ point ∈ turn.profile.lookupPoints, point.cumulativeTokens ≤ i32Max

/-- A request extends the one before and is planned while the entries of that are there. -/
structure Extends (turn next : Turn) : Prop where
  points : turn.profile.lookupPoints <+: next.profile.lookupPoints
  after : turn.committedAt ≤ next.plannedAt
  inTime : next.plannedAt < turn.expiresAt

end Turn

/-- The plans of a conversation, each of which is committed before the next one. -/
def plans : PromptCacheState → List Turn → Option (List PromptCacheUsage)
  | _, [] => some []
  | s, turn :: turns => do
    let t ← turn.take product scope policy s
    let usages ← plans t turns
    return (turn.plan product scope policy s).2 :: usages

/-- No entry of the conversation is evicted before it expires. -/
def NoEviction : PromptCacheState → List Turn → Prop
  | _, [] => True
  | s, turn :: turns => ∀ t, turn.take product scope policy s = some t →
    (∀ fingerprint entry,
      getCell scope fingerprint (turn.stored product scope policy s).byScope = some entry →
      isLive turn.committedAt entry = true → getCell scope fingerprint t.byScope = some entry) ∧
    NoEviction t turns

end Turns

/-- The first plan reads so many tokens, and every later one reads what the one before read and
created. -/
def ReadsPrevious : ℤ → List PromptCacheUsage → Prop
  | _, [] => True
  | tokens, usage :: usages =>
    usage.cacheReadInputTokens = tokens ∧
      ReadsPrevious (usage.cacheReadInputTokens + usage.cacheCreationInputTokens) usages

structure Covered (coveredTokens : ℤ) (usage : PromptCacheUsage) : Prop where
  read : 0 ≤ usage.cacheReadInputTokens
  creation : 0 ≤ usage.cacheCreationInputTokens
  sum_le : usage.cacheReadInputTokens + usage.cacheCreationInputTokens ≤ coveredTokens
  parts : usage.cacheCreation5mInputTokens + usage.cacheCreation1hInputTokens =
    usage.cacheCreationInputTokens

/-- The product with a ratio: it does not decrease, and it is not above its argument. -/
structure IsShare (product : ℤ → ℤ) : Prop where
  le : ∀ covered, 0 ≤ covered → product covered ≤ covered
  mono : ∀ covered covered', 0 ≤ covered → covered ≤ covered' → product covered ≤ product covered'

section Coverage

variable {product : ℤ → ℤ}

theorem coverageLimits_nonneg (covered limit : ℤ) : 0 ≤ coverageLimits product covered limit :=
  le_max_right _ _

theorem coverageLimits_le (h : IsShare product) (covered limit : ℤ) :
    coverageLimits product covered limit ≤ max covered 0 := by
  have hle := h.le (max covered 0) (le_max_right _ _)
  unfold coverageLimits
  dsimp only
  split_ifs <;> omega

theorem coverageLimits_mono (h : IsShare product) {covered covered' : ℤ} (hle : covered ≤ covered')
    (limit : ℤ) : coverageLimits product covered limit ≤ coverageLimits product covered' limit := by
  have hmono := h.mono (max covered 0) (max covered' 0) (le_max_right _ _) (max_le_max_right 0 hle)
  unfold coverageLimits
  dsimp only
  split_ifs <;> omega

theorem coverageLimits_max (covered limit : ℤ) :
    coverageLimits product covered (max limit 0) = coverageLimits product covered limit := by
  unfold coverageLimits
  dsimp only
  split_ifs <;> omega

end Coverage

section Usage

variable (profile : PromptCacheProfile)

theorem targetTtlBreakdown_sum {creation : ℤ} (h : 0 ≤ creation) :
    (targetTtlBreakdown profile creation).1 + (targetTtlBreakdown profile creation).2 = creation := by
  unfold targetTtlBreakdown
  split_ifs
  · dsimp only
    omega
  · exact zero_add _
  · exact add_zero _

theorem covered_policyUsage (policy : KiroRsToolCachePolicy) {coveredTokens read : ℤ}
    (hread : 0 ≤ read) (hle : read ≤ coveredTokens) :
    Covered coveredTokens (policyUsage profile policy coveredTokens read) ∧
      (policyUsage profile policy coveredTokens read).cacheReadInputTokens = read := by
  unfold policyUsage
  dsimp only
  have hcreation : 0 ≤ (if !policy.incrementalCreateEnabled && 0 < read then 0
      else max (coveredTokens - read) 0) ∧
      (if !policy.incrementalCreateEnabled && 0 < read then 0
        else max (coveredTokens - read) 0) ≤ coveredTokens - read := by
    split_ifs <;> omega
  generalize (if !policy.incrementalCreateEnabled && 0 < read then 0
    else max (coveredTokens - read) 0) = creation at hcreation ⊢
  have hlimited : 0 ≤ (if 0 < policy.maxNewCreationTokensPerRequest then
      min creation policy.maxNewCreationTokensPerRequest else creation) ∧
      (if 0 < policy.maxNewCreationTokensPerRequest then
        min creation policy.maxNewCreationTokensPerRequest else creation) ≤ creation := by
    split_ifs <;> omega
  generalize (if 0 < policy.maxNewCreationTokensPerRequest then
    min creation policy.maxNewCreationTokensPerRequest else creation) = limited at hlimited ⊢
  refine ⟨⟨hread, hlimited.1, ?_, targetTtlBreakdown_sum profile hlimited.1⟩, rfl⟩
  change read + limited ≤ coveredTokens
  omega

theorem covered_default {coveredTokens : ℤ} (h : 0 ≤ coveredTokens) :
    Covered coveredTokens .default :=
  ⟨le_rfl, le_rfl, h, rfl⟩

theorem readTokens_mem {coveredTokens : ℤ} (h : 0 ≤ coveredTokens)
    (found : Option (PromptCacheLookupPoint × PromptCacheEntry)) :
    0 ≤ readTokens coveredTokens found ∧ readTokens coveredTokens found ≤ coveredTokens := by
  unfold readTokens
  cases found with
  | none => exact ⟨le_rfl, h⟩
  | some hit =>
    rw [Option.map_some, Option.getD_some]
    omega

theorem committedTokens_eq {coveredTokens : ℤ} {usage : PromptCacheUsage}
    (h : Covered coveredTokens usage) (hmax : coveredTokens ≤ i32Max) :
    committedTokens usage = usage.cacheReadInputTokens + usage.cacheCreationInputTokens := by
  have hread := h.read
  have hcreation := h.creation
  have hsum := h.sum_le
  have hmin : i32Min ≤ 0 := by decide
  unfold committedTokens saturate
  omega

end Usage

section Plan

variable {product : ℤ → ℤ} {scope : PromptCacheScope} {policy : KiroRsToolCachePolicy} {turn : Turn}
  {s : PromptCacheState}

/-- The prefix that a plan finds. -/
def Turn.found (scope : PromptCacheScope) (turn : Turn) (s : PromptCacheState) :
    Option (PromptCacheLookupPoint × PromptCacheEntry) :=
  ((s.pruneExpiredIfDue turn.plannedAt).lookup scope turn.bounds (fun _ => true)
    turn.profile.lookupPoints turn.plannedAt).2

theorem coveredTokens_le (h : IsShare product) {point : PromptCacheLookupPoint}
    (hlast : turn.profile.lookupPoints.getLast? = some point) :
    turn.coveredTokens product policy ≤ max point.cumulativeTokens 0 := by
  unfold Turn.coveredTokens
  rw [hlast]
  refine (coverageLimits_le h _ _).trans ?_
  rw [max_assoc, max_self]

theorem coveredTokens_nonneg : 0 ≤ turn.coveredTokens product policy := by
  unfold Turn.coveredTokens
  split
  · exact le_rfl
  · exact coverageLimits_nonneg _ _

/-- A plan that covers nothing leaves the table alone, and another one looks up one prefix. -/
theorem plan_eq (h : IsShare product) : turn.plan product scope policy s =
    if turn.coveredTokens product policy ≤ 0 then (s, .default)
    else (((s.pruneExpiredIfDue turn.plannedAt).lookup scope turn.bounds (fun _ => true)
        turn.profile.lookupPoints turn.plannedAt).1,
      policyUsage turn.profile policy.normalized.normalized (turn.coveredTokens product policy)
        (readTokens (turn.coveredTokens product policy) (turn.found scope s))) := by
  unfold Turn.plan computeWithProduct Turn.found
  cases hlast : turn.profile.lookupPoints.getLast? with
  | none =>
    have hzero : turn.coveredTokens product policy = 0 := by
      unfold Turn.coveredTokens
      rw [hlast]
    rw [hzero, if_pos le_rfl]
    dsimp only
    rw [hlast]
    rfl
  | some point =>
    have hle := @coveredTokens_le product policy turn h point hlast
    have hcovered : coverageLimits product (max point.cumulativeTokens 0)
        policy.normalized.normalized.normalized.maxCoverageTokens =
          turn.coveredTokens product policy := by
      unfold Turn.coveredTokens
      rw [hlast]
      dsimp only
      change coverageLimits product _ (max (max (max policy.maxCoverageTokens 0) 0) 0) = _
      rw [coverageLimits_max, coverageLimits_max, coverageLimits_max]
    dsimp only
    rw [hlast, Option.map_some]
    dsimp only
    rw [hcovered]
    split_ifs with hnone hpos
    · rfl
    · omega
    · rfl
    · rfl

theorem plan_fst (h : IsShare product) : (turn.plan product scope policy s).1 = s ∨
    (turn.plan product scope policy s).1 = ((s.pruneExpiredIfDue turn.plannedAt).lookup scope
      turn.bounds (fun _ => true) turn.profile.lookupPoints turn.plannedAt).1 := by
  rw [plan_eq h]
  split_ifs
  · exact .inl rfl
  · exact .inr rfl

theorem covered_plan (h : IsShare product) :
    Covered (turn.coveredTokens product policy) (turn.plan product scope policy s).2 := by
  rw [plan_eq h]
  split_ifs with hnone
  · exact covered_default coveredTokens_nonneg
  · obtain ⟨hread, hle⟩ := readTokens_mem (not_le.mp hnone).le (turn.found scope s)
    exact (covered_policyUsage _ _ hread hle).1

theorem read_plan (h : IsShare product) :
    (turn.plan product scope policy s).2.cacheReadInputTokens =
      if turn.coveredTokens product policy ≤ 0 then 0
      else readTokens (turn.coveredTokens product policy) (turn.found scope s) := by
  rw [plan_eq h]
  split_ifs with hnone
  · rfl
  · obtain ⟨hread, hle⟩ := readTokens_mem (not_le.mp hnone).le (turn.found scope s)
    exact (covered_policyUsage _ _ hread hle).2

end Plan

section Table

variable {s : PromptCacheState} {scope : PromptCacheScope} {fingerprint : Digest}
  {entry : PromptCacheEntry} {now : ℤ}

theorem getCell_of_pruned (hs : s.Sound)
    (h : getCell scope fingerprint (s.pruneExpiredIfDue now).byScope = some entry) :
    getCell scope fingerprint s.byScope = some entry := by
  have hmem := (getCell_eq_some_iff (sound_pruneExpiredIfDue hs now).wellFormed).mp h
  refine (getCell_eq_some_iff hs.wellFormed).mpr ?_
  unfold pruneExpiredIfDue at hmem
  split_ifs at hmem
  · exact hmem
  · rw [cells_pruneExpired] at hmem
    exact List.mem_of_mem_filter hmem

theorem getCell_pruned (hs : s.Sound) (h : getCell scope fingerprint s.byScope = some entry)
    (hlive : isLive now entry = true) :
    getCell scope fingerprint (s.pruneExpiredIfDue now).byScope = some entry := by
  refine (getCell_eq_some_iff (sound_pruneExpiredIfDue hs now).wellFormed).mpr ?_
  have hmem : ((scope, fingerprint), entry) ∈ liveCells now (cells s.byScope) :=
    List.mem_filter.mpr ⟨(getCell_eq_some_iff hs.wellFormed).mp h, hlive⟩
  rw [← liveCells_pruneExpiredIfDue] at hmem
  exact List.mem_of_mem_filter hmem

/-- A lookup only touches an entry that is there. -/
theorem isSome_getCell_of_lookup {bounds : PromptCacheBounds}
    {eligible : PromptCacheLookupPoint → Bool} {points : List PromptCacheLookupPoint}
    (h : getCell scope fingerprint (s.lookup scope bounds eligible points now).1.byScope =
      some entry) : ∃ entry', getCell scope fingerprint s.byScope = some entry' := by
  cases hfound : (s.lookup scope bounds eligible points now).2 with
  | none =>
    rw [lookup_fst, hfound] at h
    exact ⟨entry, h⟩
  | some hit =>
    rw [lookup_fst, hfound] at h
    dsimp only at h
    by_cases heq : fingerprint = hit.1.fingerprint
    · unfold lookup at hfound
      cases hentries : KeyedList.get scope s.byScope with
      | none =>
        rw [hentries] at hfound
        cases hfound
      | some entries =>
        rw [hentries] at hfound
        dsimp only at hfound
        cases hentry : findEntry eligible now entries points.reverse with
        | none =>
          rw [hentry] at hfound
          cases hfound
        | some hit' =>
          rw [hentry] at hfound
          obtain rfl := Option.some.inj hfound
          refine ⟨hit'.2, ?_⟩
          rw [heq, getCell, hentries, Option.bind_some]
          exact (get_of_findEntry hentry).1
    · rw [getCell_insertCell_of_ne heq] at h
      exact ⟨entry, h⟩

theorem byScope_insert (s : PromptCacheState) (scope : PromptCacheScope) (fingerprint : Digest)
    (entry : PromptCacheEntry) :
    (s.insert scope fingerprint entry).byScope = insertCell scope fingerprint entry s.byScope := rfl

theorem getCell_insertAll_of_not_mem {points : List (Digest × ℤ)} {w : Write}
    (hscope : w.scope = scope) (h : fingerprint ∉ points.map Prod.fst) :
    getCell scope fingerprint (points.foldl (fun s point =>
      s.insert w.scope point.1 (w.entry now point.2)) s).byScope =
        getCell scope fingerprint s.byScope := by
  induction points generalizing s with
  | nil => rfl
  | cons point points ih =>
    rw [List.map_cons, List.mem_cons, not_or] at h
    rw [List.foldl_cons, ih h.2, byScope_insert, hscope, getCell_insertCell_of_ne h.1]

theorem getCell_insertAll {points : List (Digest × ℤ)} {w : Write} (hscope : w.scope = scope)
    (hnodup : (points.map Prod.fst).Nodup) {point : Digest × ℤ} (h : point ∈ points) :
    getCell scope point.1 (points.foldl (fun s point =>
      s.insert w.scope point.1 (w.entry now point.2)) s).byScope = some (w.entry now point.2) := by
  induction points generalizing s with
  | nil => cases h
  | cons head points ih =>
    rw [List.map_cons, List.nodup_cons] at hnodup
    rw [List.foldl_cons]
    rcases List.mem_cons.mp h with rfl | hmem
    · rw [getCell_insertAll_of_not_mem hscope hnodup.1, byScope_insert, hscope]
      exact getCell_insertCell_self _ _ _ _
    · exact ih hnodup.2 hmem

theorem findLive_append {get : Digest → Option PromptCacheEntry}
    {points points' : List PromptCacheLookupPoint}
    (h : ∀ point ∈ points, get point.fingerprint = none) :
    findLive (fun _ => true) get (points ++ points') = findLive (fun _ => true) get points' := by
  induction points with
  | nil => rfl
  | cons point points ih =>
    rw [List.cons_append, findLive, if_neg (by decide), h point List.mem_cons_self]
    exact ih fun point' hpoint => h point' (List.mem_cons_of_mem _ hpoint)

end Table

section Step

variable {product : ℤ → ℤ} {scope : PromptCacheScope} {policy : KiroRsToolCachePolicy}
  {turn next : Turn} {s t : PromptCacheState} {tokens : ℤ} {points : List PromptCacheLookupPoint}

/-- Before a request the table holds prefixes of the one before, the last of them with the tokens
that were committed. -/
structure Ready (product : ℤ → ℤ) (scope : PromptCacheScope) (policy : KiroRsToolCachePolicy)
    (s : PromptCacheState) (turn : Turn) (tokens : ℤ) (points : List PromptCacheLookupPoint) :
    Prop where
  sound : s.Sound
  isPrefix : points <+: turn.profile.lookupPoints
  nonneg : 0 ≤ tokens
  tokens_le : tokens ≤ turn.coveredTokens product policy
  known : ∀ fingerprint entry, getCell scope fingerprint s.byScope = some entry →
    0 < tokens ∧ fingerprint ∈ points.map PromptCacheLookupPoint.fingerprint
  last : 0 < tokens → ∃ point entry, points.getLast? = some point ∧
    tokens ≤ point.cumulativeTokens ∧
    getCell scope point.fingerprint s.byScope = some entry ∧
    isLive turn.plannedAt entry = true ∧ entry.cachedTokens = tokens

theorem ready_first (hs : s.Sound) (h : ∀ fingerprint, getCell scope fingerprint s.byScope = none)
    (turn : Turn) : Ready product scope policy s turn 0 [] where
  sound := hs
  isPrefix := List.nil_prefix
  nonneg := le_rfl
  tokens_le := coveredTokens_nonneg
  known fingerprint entry hget := by
    rw [h fingerprint] at hget
    cases hget
  last hpos := absurd hpos (lt_irrefl 0)

theorem found_eq (hs : s.Sound) : turn.found scope s = findLive (fun _ => true) (fun fingerprint =>
    (getCell scope fingerprint (s.pruneExpiredIfDue turn.plannedAt).byScope).filter
      (isLive turn.plannedAt)) turn.profile.lookupPoints.reverse := by
  have hpruned := sound_pruneExpiredIfDue hs turn.plannedAt
  unfold Turn.found
  rw [lookup_snd hpruned]
  congr 1
  funext fingerprint
  exact get_liveCells hpruned _ _ _

theorem found_of_ready (h : Ready product scope policy s turn tokens points) (hturn : turn.Ordered)
    (hpos : 0 < tokens) : ∃ point entry, turn.found scope s = some (point, entry) ∧
      tokens ≤ point.cumulativeTokens ∧ entry.cachedTokens = tokens := by
  obtain ⟨point, entry, hlast, hle, hget, hlive, hcached⟩ := h.last hpos
  obtain ⟨before, rfl⟩ := List.getLast?_eq_some_iff.mp hlast
  obtain ⟨later, hlater⟩ := h.isPrefix
  have hnodup := hturn.nodup
  rw [← hlater, List.map_append] at hnodup
  refine ⟨point, entry, ?_, hle, hcached⟩
  rw [found_eq h.sound, ← hlater, List.reverse_append, findLive_append]
  · rw [List.reverse_append, List.reverse_singleton, List.singleton_append, findLive,
      if_neg (by decide), getCell_pruned h.sound hget hlive, Option.filter_some, if_pos hlive]
  · intro new hnew
    cases hcell : getCell scope new.fingerprint (s.pruneExpiredIfDue turn.plannedAt).byScope with
    | none => rfl
    | some entry' =>
      have hknown := (h.known _ _ (getCell_of_pruned h.sound hcell)).2
      exact absurd rfl (hnodup.rel_of_mem_append hknown
        (List.mem_map_of_mem (List.mem_reverse.mp hnew)))

theorem read_of_ready (hproduct : IsShare product)
    (h : Ready product scope policy s turn tokens points) (hturn : turn.Ordered) :
    (turn.plan product scope policy s).2.cacheReadInputTokens = tokens := by
  have hcovered := h.tokens_le
  rw [read_plan hproduct]
  rcases h.nonneg.eq_or_lt with hzero | hpos
  · have hnone (fingerprint : Digest) :
        (getCell scope fingerprint (s.pruneExpiredIfDue turn.plannedAt).byScope).filter
          (isLive turn.plannedAt) = none := by
      cases hcell : getCell scope fingerprint (s.pruneExpiredIfDue turn.plannedAt).byScope with
      | none => rfl
      | some entry =>
        have hknown := (h.known _ _ (getCell_of_pruned h.sound hcell)).1
        omega
    have hempty : turn.found scope s = none := by
      rw [found_eq h.sound, funext hnone]
      exact findLive_none _ _
    rw [hempty, ← hzero]
    exact ite_self _
  · obtain ⟨point, entry, hfound, hle, hcached⟩ := found_of_ready h hturn hpos
    rw [if_neg (not_le.mpr (hpos.trans_le hcovered)), hfound]
    change max (min (min point.cumulativeTokens entry.cachedTokens) _) 0 = tokens
    rw [hcached]
    omega

theorem sound_plan (hproduct : IsShare product) (hs : s.Sound) :
    (turn.plan product scope policy s).1.Sound := by
  rcases @plan_fst product scope policy turn s hproduct with heq | heq
  · rw [heq]
    exact hs
  · rw [heq]
    exact sound_lookup (sound_pruneExpiredIfDue hs _) _ _ _ _ _

theorem getCell_of_plan (hproduct : IsShare product) (hs : s.Sound) {fingerprint : Digest}
    {entry : PromptCacheEntry}
    (h : getCell scope fingerprint (turn.plan product scope policy s).1.byScope = some entry) :
    ∃ entry', getCell scope fingerprint s.byScope = some entry' := by
  rcases @plan_fst product scope policy turn s hproduct with heq | heq
  · rw [heq] at h
    exact ⟨entry, h⟩
  · rw [heq] at h
    obtain ⟨entry', hentry'⟩ := isSome_getCell_of_lookup h
    exact ⟨entry', getCell_of_pruned hs hentry'⟩

theorem le_last {points : List PromptCacheLookupPoint}
    (hsorted : points.Pairwise fun point point' => point.cumulativeTokens ≤ point'.cumulativeTokens)
    {point last : PromptCacheLookupPoint} (hpoint : point ∈ points)
    (hlast : points.getLast? = some last) : point.cumulativeTokens ≤ last.cumulativeTokens := by
  obtain ⟨before, rfl⟩ := List.getLast?_eq_some_iff.mp hlast
  rcases List.mem_append.mp hpoint with hbefore | hsingle
  · exact (List.pairwise_append.mp hsorted).2.2 point hbefore last List.mem_cons_self
  · rw [List.mem_singleton.mp hsingle]

theorem coveredTokens_mono (hproduct : IsShare product) (hnext : next.Ordered)
    (h : turn.profile.lookupPoints <+: next.profile.lookupPoints) :
    turn.coveredTokens product policy ≤ next.coveredTokens product policy := by
  cases hlast : turn.profile.lookupPoints.getLast? with
  | none =>
    have hzero : turn.coveredTokens product policy = 0 := by
      unfold Turn.coveredTokens
      rw [hlast]
    rw [hzero]
    exact coveredTokens_nonneg
  | some last =>
    have hmem := h.subset (List.mem_of_mem_getLast? hlast)
    cases hlast' : next.profile.lookupPoints.getLast? with
    | none =>
      rw [List.getLast?_eq_none_iff.mp hlast'] at hmem
      cases hmem
    | some last' =>
      have hle := le_last hnext.sorted hmem hlast'
      unfold Turn.coveredTokens
      rw [hlast, hlast']
      exact coverageLimits_mono hproduct (max_le_max_right 0 hle) _

theorem coveredTokens_le_i32Max (hproduct : IsShare product) (hturn : turn.Ordered) :
    turn.coveredTokens product policy ≤ i32Max := by
  have hmax : 0 ≤ i32Max := by decide
  cases hlast : turn.profile.lookupPoints.getLast? with
  | none =>
    unfold Turn.coveredTokens
    rw [hlast]
    exact hmax
  | some last =>
    have hle := @coveredTokens_le product policy turn hproduct last hlast
    have hlast := hturn.i32 last (List.mem_of_mem_getLast? hlast)
    omega

def Turn.planned (product : ℤ → ℤ) (scope : PromptCacheScope) (policy : KiroRsToolCachePolicy)
    (turn : Turn) (s : PromptCacheState) : ℤ :=
  (turn.plan product scope policy s).2.cacheReadInputTokens +
    (turn.plan product scope policy s).2.cacheCreationInputTokens

/-- What is written of a plan that has tokens: prefixes of the request, the last of them with all of
the tokens. -/
structure Committed (scope : PromptCacheScope) (turn : Turn) (tokens : ℤ) (w : Write) : Prop where
  scope_eq : w.scope = scope
  expires : turn.committedAt + durationFromStd w.ttl = turn.expiresAt
  nodup : (w.points.map Prod.fst).Nodup
  known : ∀ fingerprint ∈ w.points.map Prod.fst,
    fingerprint ∈ turn.profile.lookupPoints.map PromptCacheLookupPoint.fingerprint
  last : ∀ point, turn.profile.lookupPoints.getLast? = some point → tokens ≤ point.cumulativeTokens →
    (point.fingerprint, tokens) ∈ w.points

theorem planned_mem (hproduct : IsShare product) : 0 ≤ turn.planned product scope policy s ∧
    turn.planned product scope policy s ≤ turn.coveredTokens product policy := by
  have hcovered := @covered_plan product scope policy turn s hproduct
  exact ⟨add_nonneg hcovered.read hcovered.creation, hcovered.sum_le⟩

theorem commit_cases (hproduct : IsShare product) (hturn : turn.Ordered) :
    turn.planned product scope policy s = 0 ∧ turn.commit product scope policy s = none ∨
      0 < turn.planned product scope policy s ∧ ∃ w, turn.commit product scope policy s = some w ∧
        Committed scope turn (turn.planned product scope policy s) w := by
  obtain ⟨hnonneg, hle⟩ := @planned_mem product scope policy turn s hproduct
  have htokens : committedTokens (turn.plan product scope policy s).2 =
      turn.planned product scope policy s :=
    committedTokens_eq (covered_plan hproduct) (coveredTokens_le_i32Max hproduct hturn)
  unfold Turn.commit updateKiroRsToolProfileWithBounds
  dsimp only
  rw [htokens]
  generalize turn.planned product scope policy s = tokens at hnonneg hle ⊢
  rw [max_eq_left hnonneg]
  rcases hnonneg.eq_or_lt with hzero | hpos
  · exact .inl ⟨hzero.symm, if_pos (.inr hzero.ge)⟩
  · have hne : turn.profile.lookupPoints ≠ [] := by
      intro hnil
      unfold Turn.coveredTokens at hle
      rw [hnil] at hle
      exact absurd hle (not_le.mpr hpos)
    rw [if_neg (not_or.mpr ⟨hne, not_le.mpr hpos⟩)]
    refine .inr ⟨hpos, _, rfl, ?_⟩
    exact
      { scope_eq := rfl
        expires := rfl
        nodup := by
          dsimp only
          rw [List.map_map]
          exact hturn.nodup.sublist (List.filter_sublist.map _)
        known := by
          intro fingerprint hmem
          dsimp only at hmem
          rw [List.map_map] at hmem
          exact (List.filter_sublist.map _).subset hmem
        last := by
          intro point hlast htokens
          refine List.mem_map.mpr ⟨point, List.mem_filter.mpr ⟨List.mem_of_mem_getLast? hlast, ?_⟩, ?_⟩
          · apply decide_eq_true
            omega
          · rw [min_eq_right htokens, max_eq_left hpos.le] }

theorem exists_take (hproduct : IsShare product) (hs : s.Sound) :
    ∃ t, turn.take product scope policy s = some t ∧ t.Sound := by
  have hsound := @sound_plan product scope policy turn s hproduct hs
  unfold Turn.take
  split
  · exact ⟨_, rfl, hsound⟩
  · obtain ⟨_, t, -, -, hwrite, ht, -⟩ := write_spec hsound ‹Write› turn.committedAt
    exact ⟨t, hwrite, ht⟩

/-- After a commit the table is ready for the next request. -/
theorem ready_next (hproduct : IsShare product)
    (h : Ready product scope policy s turn tokens points) (hturn : turn.Ordered)
    (hnext : next.Ordered) (hextends : turn.Extends next)
    (htake : turn.take product scope policy s = some t) (hkept : ∀ fingerprint entry,
      getCell scope fingerprint (turn.stored product scope policy s).byScope = some entry →
      isLive turn.committedAt entry = true → getCell scope fingerprint t.byScope = some entry) :
    Ready product scope policy t next (turn.planned product scope policy s)
      turn.profile.lookupPoints := by
  have hsound := @sound_plan product scope policy turn s hproduct h.sound
  obtain ⟨hnonneg, hle⟩ := @planned_mem product scope policy turn s hproduct
  have htokens : tokens ≤ turn.planned product scope policy s := by
    have hread := read_of_ready hproduct h hturn
    have hcreation := (@covered_plan product scope policy turn s hproduct).creation
    unfold Turn.planned
    omega
  have hknown (fingerprint : Digest) (entry : PromptCacheEntry)
      (hget : getCell scope fingerprint (turn.plan product scope policy s).1.byScope = some entry) :
      0 < turn.planned product scope policy s ∧
        fingerprint ∈ turn.profile.lookupPoints.map PromptCacheLookupPoint.fingerprint := by
    obtain ⟨entry', hentry'⟩ := getCell_of_plan hproduct h.sound hget
    obtain ⟨hpos, hmem⟩ := h.known fingerprint entry' hentry'
    exact ⟨hpos.trans_le htokens, (h.isPrefix.map _).subset hmem⟩
  obtain ⟨t', htake', ht⟩ := @exists_take product scope policy turn s hproduct h.sound
  obtain rfl := Option.some.inj (htake.symm.trans htake')
  refine
    { sound := ht
      isPrefix := hextends.points
      nonneg := hnonneg
      tokens_le := hle.trans (coveredTokens_mono hproduct hnext hextends.points)
      known := ?_
      last := ?_ }
  · rcases @commit_cases product scope policy turn s hproduct hturn with
      ⟨hzero, hcommit⟩ | ⟨hpos, w, hcommit, hcommitted⟩
    · unfold Turn.take at htake
      rw [hcommit] at htake
      obtain rfl := Option.some.inj htake
      exact hknown
    · intro fingerprint entry hget
      refine ⟨hpos, ?_⟩
      unfold Turn.take at htake
      rw [hcommit] at htake
      obtain ⟨mid, t', -, -, hwrite, -, hscope, hglobal, -⟩ := write_spec hsound w turn.committedAt
      obtain rfl := Option.some.inj (htake.symm.trans hwrite)
      have hcell := hscope.subset _ (hglobal.subset _ ((getCell_eq_some_iff ht.wellFormed).mp hget))
      have hpruned := sound_pruneExpiredIfDue hsound turn.committedAt
      have hwritten := (getCell_eq_some_iff
        (sound_insertAll hpruned w turn.committedAt).wellFormed).mpr hcell
      by_cases hmem : fingerprint ∈ w.points.map Prod.fst
      · exact hcommitted.known fingerprint hmem
      · unfold insertAll at hwritten
        rw [getCell_insertAll_of_not_mem hcommitted.scope_eq hmem] at hwritten
        exact (hknown _ _ (getCell_of_pruned hsound hwritten)).2
  · intro hpos
    have hcovered := hpos.trans_le hle
    cases hlast : turn.profile.lookupPoints.getLast? with
    | none =>
      unfold Turn.coveredTokens at hcovered
      rw [hlast] at hcovered
      exact absurd hcovered (lt_irrefl 0)
    | some point =>
      have hpoint := @coveredTokens_le product policy turn hproduct point hlast
      rcases @commit_cases product scope policy turn s hproduct hturn with
        ⟨hzero, hcommit⟩ | ⟨-, w, hcommit, hcommitted⟩
      · exact absurd hzero hpos.ne'
      · have hmem := hcommitted.last point hlast (by omega)
        have hexpires := hcommitted.expires
        have hinTime := hextends.inTime
        have hafter := hextends.after
        have hget := @getCell_insertAll
          ((turn.plan product scope policy s).1.pruneExpiredIfDue turn.committedAt) scope
          turn.committedAt w.points w hcommitted.scope_eq hcommitted.nodup _ hmem
        have hstored : getCell scope point.fingerprint (turn.stored product scope policy s).byScope =
            some (w.entry turn.committedAt (turn.planned product scope policy s)) := by
          unfold Turn.stored
          rw [hcommit]
          exact hget
        have hlive {now : ℤ} (hnow : now < turn.expiresAt) : isLive now
            (w.entry turn.committedAt (turn.planned product scope policy s)) = true := by
          apply decide_eq_true
          change now < turn.committedAt + durationFromStd w.ttl
          omega
        exact ⟨point, _, rfl, by omega, hkept _ _ hstored (hlive (by omega)), hlive hinTime, rfl⟩

end Step

section Run

variable {product : ℤ → ℤ} {scope : PromptCacheScope} {policy : KiroRsToolCachePolicy}

theorem plans_of_ready (hproduct : IsShare product) {turns : List Turn}
    (hturns : ∀ turn ∈ turns, turn.Ordered) (hchain : turns.IsChain Turn.Extends)
    {s : PromptCacheState} {tokens : ℤ} {points : List PromptCacheLookupPoint}
    (hkept : NoEviction product scope policy s turns)
    (hready : ∀ turn ∈ turns.head?, Ready product scope policy s turn tokens points) :
    ∃ usages, plans product scope policy s turns = some usages ∧ ReadsPrevious tokens usages ∧
      List.Forall₂ (fun turn usage => Covered (turn.coveredTokens product policy) usage) turns
        usages := by
  induction turns generalizing s tokens points with
  | nil => exact ⟨[], rfl, trivial, .nil⟩
  | cons turn turns ih =>
    have hturn := hturns turn List.mem_cons_self
    have hfirst := hready turn rfl
    have htail : turns.IsChain Turn.Extends := by
      cases turns with
      | nil => exact .nil
      | cons next turns => exact (List.isChain_cons_cons.mp hchain).2
    obtain ⟨t, htake, -⟩ := @exists_take product scope policy turn s hproduct hfirst.sound
    obtain ⟨hstored, hrest⟩ := hkept t htake
    obtain ⟨usages, husages, hreads, hcovered⟩ :=
      @ih (fun turn hmem => hturns turn (List.mem_cons_of_mem _ hmem)) htail t
        (turn.planned product scope policy s) turn.profile.lookupPoints hrest (by
          intro next hhead
          cases turns with
          | nil => cases hhead
          | cons next' turns =>
            obtain rfl := Option.some.inj hhead
            exact ready_next hproduct hfirst hturn
              (hturns _ (List.mem_cons_of_mem _ List.mem_cons_self))
              (List.isChain_cons_cons.mp hchain).1 htake hstored)
    refine ⟨(turn.plan product scope policy s).2 :: usages, ?_, ?_, ?_⟩
    · unfold plans
      rw [htake, Option.bind_eq_bind, Option.bind_some, husages]
      rfl
    · exact ⟨read_of_ready hproduct hfirst hturn, hreads⟩
    · exact .cons (covered_plan hproduct) hcovered

/-- In a growing conversation every plan is within the covered tokens, the first one reads nothing,
and every later one reads what the one before read and created. -/
theorem plans_readPrevious (product : ℤ → ℤ) (hproduct : IsShare product) (scope : PromptCacheScope)
    (policy : KiroRsToolCachePolicy) (s : PromptCacheState) (hs : s.Sound)
    (hscope : ∀ fingerprint, getCell scope fingerprint s.byScope = none) (turns : List Turn)
    (hturns : ∀ turn ∈ turns, turn.Ordered) (hchain : turns.IsChain Turn.Extends)
    (hkept : NoEviction product scope policy s turns) :
    ∃ usages, plans product scope policy s turns = some usages ∧ ReadsPrevious 0 usages ∧
      List.Forall₂ (fun turn usage => Covered (turn.coveredTokens product policy) usage) turns
        usages :=
  plans_of_ready hproduct hturns hchain hkept fun turn _ => ready_first hs hscope turn

end Run

/-- A request with the given prefixes under the default limits, committed one second after its plan. -/
def defaultTurn (points : List PromptCacheLookupPoint) (plannedAt : ℤ) : Turn where
  profile := { onePrefix with lookupPoints := points }
  bounds :=
    { maxEntriesPerAccount := 200
      maxEntriesGlobal := 20000
      entryTtl := hourPromptCacheTtl
      estimatedBytesLimit := 0
      writeTtl := none }
  plannedAt := plannedAt
  committedAt := plannedAt + second

/-- Two requests, of which the second has one more prefix. -/
def twoTurns : List Turn :=
  [defaultTurn [⟨1, 10⟩] 0, defaultTurn [⟨1, 10⟩, ⟨2, 30⟩] (10 * second)]

theorem plans_readPrevious_twoTurns : ∃ usages,
    plans (fun covered => covered * 9 / 10) { conversationId := "c", routeNamespace := none }
      { coverageRatio := 0.9
        maxCoverageTokens := 0
        incrementalCreateEnabled := true
        maxNewCreationTokensPerRequest := 0 } .empty twoTurns = some usages ∧
      ReadsPrevious 0 usages := by
  have hproduct : IsShare fun covered => covered * 9 / 10 :=
    ⟨fun _ _ => by omega, fun _ _ _ _ => by omega⟩
  have hordered : ∀ turn ∈ twoTurns, turn.Ordered := by
    intro turn hturn
    rcases List.mem_cons.mp hturn with rfl | hturn
    · exact ⟨by decide, by decide, by decide⟩
    · obtain rfl := List.mem_singleton.mp hturn
      exact ⟨by decide, by decide, by decide⟩
  have hchain : twoTurns.IsChain Turn.Extends :=
    .cons_cons ⟨by decide, by decide, by decide⟩ (.singleton _)
  obtain ⟨usages, husages, hreads, -⟩ :=
    plans_readPrevious (fun covered => covered * 9 / 10) hproduct
      { conversationId := "c", routeNamespace := none }
      { coverageRatio := 0.9
        maxCoverageTokens := 0
        incrementalCreateEnabled := true
        maxNewCreationTokensPerRequest := 0 } .empty sound_empty (fun _ => rfl) twoTurns hordered
      hchain (by
        intro t ht
        cases ht
        refine ⟨fun _ _ h _ => h, ?_⟩
        intro t ht
        cases ht
        exact ⟨fun _ _ h _ => h, trivial⟩)
  exact ⟨usages, husages, hreads⟩

end KiroProxy.PromptCache
