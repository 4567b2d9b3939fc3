import KiroProxy.PromptCache.Bounded

/-!
# Throttled pruning of the prompt cache

The tracker prunes its table at most once a second; the reference prunes it at the start of
every call. What a call reads, writes and evicts is a function of the unexpired cells alone,
so on a clock that does not go back both report the same usage and keep the same unexpired
entries.
-/

namespace KiroProxy.PromptCache

open NestedMap PromptCacheState

/-- The same unexpired cells at one moment. -/
def Agree (now : ℤ) (s r : PromptCacheState) : Prop :=
  (liveCells now (cells s.byScope)).Perm (liveCells now (cells r.byScope))

theorem isLive_of_le {now later : ℤ} (hle : now ≤ later) {entry : PromptCacheEntry}
    (h : isLive later entry = true) : isLive now entry = true :=
  decide_eq_true (lt_of_le_of_lt hle (of_decide_eq_true h))

theorem liveCells_liveCells {now later : ℤ} (hle : now ≤ later) (l : List Cell) :
    liveCells later (liveCells now l) = liveCells later l := by
  rw [liveCells, liveCells, liveCells, List.filter_filter]
  apply List.filter_congr
  intro cell _
  cases h : isLive later cell.2 with
  | false => rfl
  | true => rw [isLive_of_le hle h]; rfl

theorem Agree.later {now later : ℤ} {s r : PromptCacheState} (h : Agree now s r)
    (hle : now ≤ later) : Agree later s r := by
  have hfilter := h.filter fun cell => isLive later cell.2
  rwa [← liveCells, ← liveCells, liveCells_liveCells hle, liveCells_liveCells hle] at hfilter

theorem liveCells_pruneExpired (s : PromptCacheState) (now : ℤ) :
    liveCells now (cells (s.pruneExpired now).byScope) = liveCells now (cells s.byScope) := by
  rw [cells_pruneExpired, liveCells_liveCells le_rfl]

theorem liveCells_pruneExpiredIfDue (s : PromptCacheState) (now : ℤ) :
    liveCells now (cells (s.pruneExpiredIfDue now).byScope) =
      liveCells now (cells s.byScope) := by
  rw [pruneExpiredIfDue]
  split_ifs
  · rfl
  · exact liveCells_pruneExpired s now

theorem nodup_liveCells {s : PromptCacheState} (hs : s.Sound) (now : ℤ) :
    ((liveCells now (cells s.byScope)).map Prod.fst).Nodup :=
  (nodup_cells hs.wellFormed).sublist (List.filter_sublist.map Prod.fst)

/-- The search among the unexpired cells. -/
def findLive (eligible : PromptCacheLookupPoint → Bool) (get : Digest → Option PromptCacheEntry) :
    List PromptCacheLookupPoint → Option (PromptCacheLookupPoint × PromptCacheEntry)
  | [] => none
  | point :: points =>
    if !eligible point then findLive eligible get points
    else
      match get point.fingerprint with
      | none => findLive eligible get points
      | some entry => some (point, entry)

theorem findEntry_eq_findLive (eligible : PromptCacheLookupPoint → Bool) (now : ℤ)
    (entries : List (Digest × PromptCacheEntry)) (points : List PromptCacheLookupPoint) :
    findEntry eligible now entries points =
      findLive eligible (fun fingerprint =>
        (KeyedList.get fingerprint entries).filter (isLive now)) points := by
  induction points with
  | nil => rfl
  | cons point points ih =>
    rw [findEntry, findLive, ih]
    cases hget : KeyedList.get point.fingerprint entries with
    | none => rfl
    | some entry =>
      by_cases hexpired : entry.expiresAt ≤ now
      · have hdead : isLive now entry = false := decide_eq_false (not_lt.mpr hexpired)
        simp [hexpired, Option.filter, hdead]
      · have hlive : isLive now entry = true := decide_eq_true (not_le.mp hexpired)
        simp [hexpired, Option.filter, hlive]

theorem findLive_none (eligible : PromptCacheLookupPoint → Bool)
    (points : List PromptCacheLookupPoint) : findLive eligible (fun _ => none) points = none := by
  induction points with
  | nil => rfl
  | cons point points ih =>
    rw [findLive, ih]
    split_ifs <;> rfl

theorem get_liveCells {s : PromptCacheState} (hs : s.Sound) (now : ℤ) (scope : PromptCacheScope)
    (fingerprint : Digest) :
    KeyedList.get (scope, fingerprint) (liveCells now (cells s.byScope)) =
      (getCell scope fingerprint s.byScope).filter (isLive now) := by
  apply Option.ext
  intro entry
  rw [KeyedList.get_eq_some_iff (nodup_liveCells hs now), liveCells, List.mem_filter,
    ← getCell_eq_some_iff hs.wellFormed, Option.filter_eq_some_iff]

theorem lookup_snd {s : PromptCacheState} (hs : s.Sound) (scope : PromptCacheScope)
    (bounds : PromptCacheBounds) (eligible : PromptCacheLookupPoint → Bool)
    (points : List PromptCacheLookupPoint) (now : ℤ) :
    (s.lookup scope bounds eligible points now).2 =
      findLive eligible (fun fingerprint =>
        KeyedList.get (scope, fingerprint) (liveCells now (cells s.byScope))) points.reverse := by
  simp only [get_liveCells hs, getCell]
  rw [lookup]
  cases KeyedList.get scope s.byScope with
  | none => exact (findLive_none eligible _).symm
  | some entries =>
    simp only [Option.bind_some, ← findEntry_eq_findLive]
    split <;> simp_all

theorem lookup_fst (s : PromptCacheState) (scope : PromptCacheScope) (bounds : PromptCacheBounds)
    (eligible : PromptCacheLookupPoint → Bool) (points : List PromptCacheLookupPoint) (now : ℤ) :
    (s.lookup scope bounds eligible points now).1 =
      match (s.lookup scope bounds eligible points now).2 with
      | none => s
      | some (point, entry) =>
        { s with
          byScope := insertCell scope point.fingerprint (entry.touch bounds now) s.byScope } := by
  rw [lookup]
  cases KeyedList.get scope s.byScope with
  | none => rfl
  | some entries =>
    dsimp only
    cases findEntry eligible now entries points.reverse with
    | none => rfl
    | some hit => rfl

section Agreement

variable {s r : PromptCacheState} {now : ℤ}

theorem agree_insertCell (hs : s.Sound) (hr : r.Sound) (h : Agree now s r)
    (scope : PromptCacheScope) (fingerprint : Digest) (entry : PromptCacheEntry) :
    (liveCells now (cells (insertCell scope fingerprint entry s.byScope))).Perm
      (liveCells now (cells (insertCell scope fingerprint entry r.byScope))) := by
  have hcell {p : PromptCacheState} (hp : p.Sound) :
      (liveCells now (cells (insertCell scope fingerprint entry p.byScope))).Perm
        (liveCells now [((scope, fingerprint), entry)] ++
          KeyedList.remove (scope, fingerprint) (liveCells now (cells p.byScope))) := by
    refine ((cells_insertCell hp.wellFormed scope fingerprint entry).filter _).trans ?_
    rw [← List.singleton_append, List.filter_append]
    apply List.Perm.of_eq
    congr 1
    rw [KeyedList.remove, KeyedList.remove, liveCells, List.filter_filter, List.filter_filter]
    apply List.filter_congr
    intro cell _
    exact Bool.and_comm _ _
  exact (hcell hs).trans (((h.filter _).append_left _).trans (hcell hr).symm)

theorem agree_lookup (hs : s.Sound) (hr : r.Sound) (h : Agree now s r)
    (scope : PromptCacheScope) (bounds : PromptCacheBounds)
    (eligible : PromptCacheLookupPoint → Bool) (points : List PromptCacheLookupPoint) :
    (s.lookup scope bounds eligible points now).2 = (r.lookup scope bounds eligible points now).2 ∧
      Agree now (s.lookup scope bounds eligible points now).1
        (r.lookup scope bounds eligible points now).1 := by
  have hsame : (s.lookup scope bounds eligible points now).2 =
      (r.lookup scope bounds eligible points now).2 := by
    rw [lookup_snd hs, lookup_snd hr]
    congr 1
    funext fingerprint
    exact (KeyedList.get_perm h (nodup_liveCells hs now) _).symm
  refine ⟨hsame, ?_⟩
  rw [lookup_fst s, lookup_fst r, hsame]
  split
  · exact h
  · exact agree_insertCell hs hr h scope _ _

theorem agree_insertAll (hs : s.Sound) (hr : r.Sound) (h : Agree now s r) (w : Write) :
    Agree now (s.insertAll w now) (r.insertAll w now) := by
  rw [insertAll, insertAll]
  induction w.points generalizing s r with
  | nil => exact h
  | cons point points ih =>
    exact ih (sound_insert hs _ _ _) (sound_insert hr _ _ _)
      (agree_insertCell hs hr h w.scope point.1 _)

theorem evictBeyond_perm {l l' : List Cell} (hnodup : (l.map Prod.fst).Nodup) (h : l.Perm l')
    (limit : ℕ) : (evictBeyond limit l).Perm (evictBeyond limit l') := by
  have hsmallest : smallest rank (l.length - limit) l = smallest rank (l'.length - limit) l' := by
    rw [h.length_eq]
    exact smallest_perm (fun a ha b hb => eq_of_rank_eq hnodup ha hb) h _
  rw [evictBeyond, evictBeyond, hsmallest]
  exact h.filter _

theorem liveCells_evictBeyond (limit : ℕ) (l : List Cell) :
    liveCells now (evictBeyond limit (liveCells now l)) = evictBeyond limit (liveCells now l) := by
  rw [liveCells, List.filter_eq_self]
  intro cell hcell
  exact (List.mem_filter.mp (List.mem_filter.mp hcell).1).2

theorem liveCells_filter (p : Cell → Bool) (l : List Cell) :
    liveCells now (l.filter p) = (liveCells now l).filter p := by
  rw [liveCells, liveCells, List.filter_filter, List.filter_filter]
  apply List.filter_congr
  intro cell _
  exact Bool.and_comm _ _

theorem liveCells_enforceScope (hs : s.Sound) (scope : PromptCacheScope)
    {bounds : PromptCacheBounds} (hpos : 0 < bounds.maxEntriesPerAccount) (now : ℤ) :
    ∃ t, s.enforceScope scope bounds now = some t ∧ t.Sound ∧
      (liveCells now (cells t.byScope)).Perm
        (evictBeyond bounds.maxEntriesPerAccount
          (scopeCells scope (liveCells now (cells s.byScope))) ++
          (liveCells now (cells s.byScope)).filter fun cell => cell.1.1 != scope) := by
  obtain ⟨t, ht, hsound, hcases⟩ := enforceScope_spec hs scope bounds now
  refine ⟨t, ht, hsound, ?_⟩
  have hscope : liveCells now (scopeCells scope (cells s.byScope)) =
      scopeCells scope (liveCells now (cells s.byScope)) := liveCells_filter _ _
  rcases hcases with ⟨hwithin, rfl⟩ | ⟨-, -, hperm⟩
  · rw [evictBeyond_of_length_le]
    · exact (List.filter_append_perm _ _).symm
    · rw [← hscope]
      have hle := List.length_filter_le (fun cell : Cell => isLive now cell.2)
        (scopeCells scope (cells t.byScope))
      exact hle.trans (hwithin.resolve_left hpos.ne')
  · refine (hperm.filter _).trans (List.Perm.of_eq ?_)
    rw [List.filter_append, ← liveCells, ← liveCells, liveCells_evictBeyond, hscope,
      liveCells_filter]

theorem agree_enforceScope (hs : s.Sound) (hr : r.Sound) (h : Agree now s r)
    (scope : PromptCacheScope) (bounds : PromptCacheBounds) :
    ∃ t u, s.enforceScope scope bounds now = some t ∧ r.enforceScope scope bounds now = some u ∧
      t.Sound ∧ u.Sound ∧ Agree now t u := by
  by_cases hpos : 0 < bounds.maxEntriesPerAccount
  · obtain ⟨t, ht, hsound, hlive⟩ := liveCells_enforceScope hs scope hpos now
    obtain ⟨u, hu, hsound', hlive'⟩ := liveCells_enforceScope hr scope hpos now
    refine ⟨t, u, ht, hu, hsound, hsound', hlive.trans (List.Perm.trans ?_ hlive'.symm)⟩
    apply List.Perm.append
    · apply evictBeyond_perm _ (h.filter _)
      exact (nodup_liveCells hs now).sublist (List.filter_sublist.map Prod.fst)
    · exact h.filter _
  · obtain ⟨t, ht, hsound, hcases⟩ := enforceScope_spec hs scope bounds now
    obtain ⟨u, hu, hsound', hcases'⟩ := enforceScope_spec hr scope bounds now
    refine ⟨t, u, ht, hu, hsound, hsound', ?_⟩
    rcases hcases with ⟨-, rfl⟩ | ⟨hpos', -⟩
    · rcases hcases' with ⟨-, rfl⟩ | ⟨hpos', -⟩
      · exact h
      · exact absurd hpos' hpos
    · exact absurd hpos' hpos

theorem liveCells_enforceGlobal (hs : s.Sound) (bounds : PromptCacheBounds) (now : ℤ) :
    ∃ t, s.enforceGlobal bounds now = some t ∧ t.Sound ∧
      (liveCells now (cells t.byScope)).Perm
        (evictBeyond bounds.globalEntryLimit (liveCells now (cells s.byScope))) := by
  obtain ⟨t, ht, hsound, hcases⟩ := enforceGlobal_spec hs bounds now
  refine ⟨t, ht, hsound, ?_⟩
  rcases hcases with ⟨hwithin, rfl⟩ | ⟨-, hperm⟩
  · rw [evictBeyond_of_length_le]
    exact (List.length_filter_le _ _).trans hwithin
  · refine (hperm.filter _).trans (List.Perm.of_eq ?_)
    rw [← liveCells, liveCells_evictBeyond]

theorem agree_write (hs : s.Sound) (hr : r.Sound) (h : Agree now s r) (w : Write) :
    ∃ t u, s.write w now = some t ∧ r.write w now = some u ∧ t.Sound ∧ u.Sound ∧
      Agree now t u := by
  have hpruned : Agree now (s.pruneExpiredIfDue now) (r.pruneExpiredIfDue now) := by
    rw [Agree, liveCells_pruneExpiredIfDue, liveCells_pruneExpiredIfDue]
    exact h
  have hs' := sound_pruneExpiredIfDue hs now
  have hr' := sound_pruneExpiredIfDue hr now
  obtain ⟨mid, mid', hmid, hmid', hsound, hsound', hagree⟩ :=
    agree_enforceScope (sound_insertAll hs' w now) (sound_insertAll hr' w now)
      (agree_insertAll hs' hr' hpruned w) w.scope w.bounds
  obtain ⟨t, ht, htsound, hlive⟩ := liveCells_enforceGlobal hsound w.bounds now
  obtain ⟨u, hu, husound, hlive'⟩ := liveCells_enforceGlobal hsound' w.bounds now
  refine ⟨t, u, ?_, ?_, htsound, husound, ?_⟩
  · rw [write, enforceBounds, hmid, Option.bind_some, ht]
  · rw [write, enforceBounds, hmid', Option.bind_some, hu]
  · exact hlive.trans ((evictBeyond_perm (nodup_liveCells hsound now) hagree _).trans
      hlive'.symm)

theorem agree_readShape {f : PromptCacheState → ℤ → PromptCacheState × PromptCacheUsage}
    (hf : ReadShape f) (hs : s.Sound) (hr : r.Sound) (h : Agree now s r) :
    (f s now).2 = (f r now).2 ∧ Agree now (f s now).1 (f r now).1 := by
  cases hf with
  | idle usage hidle =>
    rw [hidle, hidle]
    exact ⟨rfl, h⟩
  | reads scope bounds eligible points usage hreads =>
    have hpruned : Agree now (s.pruneExpiredIfDue now) (r.pruneExpiredIfDue now) := by
      rw [Agree, liveCells_pruneExpiredIfDue, liveCells_pruneExpiredIfDue]
      exact h
    obtain ⟨hsame, hagree⟩ := agree_lookup (sound_pruneExpiredIfDue hs now)
      (sound_pruneExpiredIfDue hr now) hpruned scope bounds eligible points
    rw [hreads, hreads, hsame]
    exact ⟨rfl, hagree⟩

theorem agree_call (toLowercase : String → String) (hs : s.Sound) (hr : r.Sound)
    (h : Agree now s r) (c : Call) :
    ∃ t u usage, call toLowercase s now c = some (t, usage) ∧
      call toLowercase r now c = some (u, usage) ∧ t.Sound ∧ u.Sound ∧ Agree now t u := by
  cases callShape toLowercase c with
  | reads hwrite f hf hcall =>
    obtain ⟨husage, hagree⟩ := agree_readShape hf hs hr h
    refine ⟨(f s now).1, (f r now).1, some (f s now).2, hcall s now, ?_,
      sound_readShape hf hs now, sound_readShape hf hr now, hagree⟩
    rw [hcall, husage]
  | refused hwrite hcall => exact ⟨s, r, none, hcall s now, hcall r now, hs, hr, h⟩
  | writes w hwrite hcall =>
    obtain ⟨t, u, ht, hu, hsound, hsound', hagree⟩ := agree_write hs hr h w
    refine ⟨t, u, none, ?_, ?_, hsound, hsound', hagree⟩
    · rw [hcall, ht]
      rfl
    · rw [hcall, hu]
      rfl

end Agreement

section Reference

variable (toLowercase : String → String)

def referenceCall (s : PromptCacheState) (now : ℤ) (c : Call) :
    Option (PromptCacheState × Option PromptCacheUsage) :=
  call toLowercase (s.pruneExpired now) now c

def referenceRun : PromptCacheState → List (ℤ × Call) → Option PromptCacheState :=
  Transition.run fun s entry => (referenceCall toLowercase s entry.1 entry.2).map Prod.fst

theorem agree_referenceCall {s r : PromptCacheState} {now : ℤ} (hs : s.Sound) (hr : r.Sound)
    (h : Agree now s r) (c : Call) :
    ∃ t u usage, call toLowercase s now c = some (t, usage) ∧
      referenceCall toLowercase r now c = some (u, usage) ∧ t.Sound ∧ u.Sound ∧
      Agree now t u := by
  apply agree_call toLowercase hs (sound_pruneExpired hr now)
  rw [Agree, liveCells_pruneExpired]
  exact h

theorem agree_run {s r : PromptCacheState} {last now : ℤ} {calls : List (ℤ × Call)} (hs : s.Sound)
    (hr : r.Sound) (h : Agree last s r)
    (hclock : (last :: (calls.map Prod.fst ++ [now])).Pairwise (· ≤ ·)) :
    ∃ t u, run toLowercase s calls = some t ∧ referenceRun toLowercase r calls = some u ∧
      t.Sound ∧ u.Sound ∧ Agree now t u := by
  induction calls generalizing s r last with
  | nil =>
    have hle : last ≤ now := by simpa using hclock
    exact ⟨s, r, rfl, rfl, hs, hr, h.later hle⟩
  | cons entry calls ih =>
    obtain ⟨hfirst, hrest⟩ := List.pairwise_cons.mp hclock
    have hle : last ≤ entry.1 := hfirst entry.1 (by simp)
    obtain ⟨t, u, usage, ht, hu, hsound, hsound', hagree⟩ :=
      agree_referenceCall toLowercase hs hr (h.later hle) entry.2
    obtain ⟨t', u', ht', hu', hfinal⟩ := ih hsound hsound' hagree hrest
    refine ⟨t', u', ?_, ?_, hfinal⟩
    · apply Transition.run_cons_eq_some.mpr
      refine ⟨t, ?_, ht'⟩
      rw [step, ht]
      rfl
    · apply Transition.run_cons_eq_some.mpr
      refine ⟨u, ?_, hu'⟩
      rw [hu]
      rfl

/-- After every run of calls on a clock that does not go back, the next call returns the same
usage from both trackers and leaves the same unexpired entries, now and at every later
moment. -/
theorem throttled_pruning_agrees (calls : List (ℤ × Call)) (now : ℤ) (c : Call)
    (hclock : (calls.map Prod.fst ++ [now]).Pairwise (· ≤ ·)) :
    ∃ s r t u usage, run toLowercase empty calls = some s ∧
      referenceRun toLowercase empty calls = some r ∧
      call toLowercase s now c = some (t, usage) ∧
      referenceCall toLowercase r now c = some (u, usage) ∧
      ∀ moment, now ≤ moment → ∀ cell : Cell, isLive moment cell.2 = true →
        (cell ∈ cells t.byScope ↔ cell ∈ cells u.byScope) := by
  -- The clock starts at the first moment of the run.
  obtain ⟨first, hfirst⟩ : ∃ first, ∀ moment ∈ calls.map Prod.fst ++ [now], first ≤ moment := by
    cases h : calls.map Prod.fst ++ [now] with
    | nil => exact ⟨0, by simp⟩
    | cons moment moments =>
      rw [h] at hclock
      refine ⟨moment, ?_⟩
      intro later hlater
      rcases List.mem_cons.mp hlater with rfl | hlater
      · exact le_rfl
      · exact (List.pairwise_cons.mp hclock).1 later hlater
  obtain ⟨s, r, hs, hr, hsound, hsound', hagree⟩ :=
    agree_run toLowercase sound_empty sound_empty (List.Perm.refl _)
      (List.pairwise_cons.mpr ⟨hfirst, hclock⟩)
  obtain ⟨t, u, usage, ht, hu, -, -, hagree'⟩ :=
    agree_referenceCall toLowercase hsound hsound' hagree c
  refine ⟨s, r, t, u, usage, hs, hr, ht, hu, ?_⟩
  intro moment hle cell hlive
  have hmem := (hagree'.later hle).mem_iff (a := cell)
  simpa [liveCells, List.mem_filter, hlive] using hmem

end Reference

/-- Two commits within one second. -/
theorem throttled_pruning_agrees_commits :
    ∃ s r t u usage, run id empty [(0, commitUnlimitedBytes)] = some s ∧
      referenceRun id empty [(0, commitUnlimitedBytes)] = some r ∧
      call id s 500000000 commitUnlimitedBytes = some (t, usage) ∧
      referenceCall id r 500000000 commitUnlimitedBytes = some (u, usage) ∧
      ∀ moment, 500000000 ≤ moment → ∀ cell : Cell, isLive moment cell.2 = true →
        (cell ∈ cells t.byScope ↔ cell ∈ cells u.byScope) :=
  throttled_pruning_agrees id [(0, commitUnlimitedBytes)] 500000000 commitUnlimitedBytes
    (by simp)

end KiroProxy.PromptCache
