import KiroProxy.PromptCache.Tracker

/-!
# The counter and the bounds of the prompt cache

Every operation keeps the counter equal to the number of entries and leaves no scope empty,
so that no subtraction on the counter goes below zero. What the two bounds remove is one
filter on the cells: first what has expired, then the smallest cells in the order of
eviction.
-/

namespace KiroProxy.PromptCache

open NestedMap

theorem length_filter_split {α : Type} (p : α → Bool) (l : List α) :
    (l.filter p).length + (l.filter fun a => !p a).length = l.length := by
  rw [← List.length_append, (List.filter_append_perm p l).length_eq]

theorem checkedSub_eq_some {a b c : ℕ} (h : c + b = a) : checkedSub a b = some c := by
  rw [checkedSub, if_pos (by omega)]
  congr 1
  omega

namespace PromptCacheState

structure Sound (s : PromptCacheState) : Prop where
  wellFormed : WellFormed s.byScope
  counted : s.totalEntries = (cells s.byScope).length

variable {s : PromptCacheState}

theorem sound_empty : Sound empty where
  wellFormed := wellFormed_nil
  counted := rfl

theorem sound_pruneExpired (hs : s.Sound) (now : ℤ) : (s.pruneExpired now).Sound where
  wellFormed := wellFormed_retain (isLive now) hs.wellFormed
  counted := (length_cells _).symm

theorem sound_pruneExpiredIfDue (hs : s.Sound) (now : ℤ) : (s.pruneExpiredIfDue now).Sound := by
  rw [pruneExpiredIfDue]
  split_ifs
  · exact hs
  · exact sound_pruneExpired hs now

theorem sound_insert (hs : s.Sound) (scope : PromptCacheScope) (fingerprint : Digest)
    (entry : PromptCacheEntry) : (s.insert scope fingerprint entry).Sound where
  wellFormed := wellFormed_insertCell hs.wellFormed scope fingerprint entry
  counted := by
    rw [insert, length_cells_insertCell hs.wellFormed, ← hs.counted]
    split_ifs <;> rfl

theorem sound_insertAll (hs : s.Sound) (w : Write) (now : ℤ) : (s.insertAll w now).Sound := by
  rw [insertAll]
  induction w.points generalizing s with
  | nil => exact hs
  | cons point points ih => exact ih (sound_insert hs _ _ _)

theorem get_of_findEntry {eligible : PromptCacheLookupPoint → Bool} {now : ℤ}
    {entries : List (Digest × PromptCacheEntry)} {points : List PromptCacheLookupPoint}
    {hit : PromptCacheLookupPoint × PromptCacheEntry}
    (h : findEntry eligible now entries points = some hit) :
    KeyedList.get hit.1.fingerprint entries = some hit.2 ∧ isLive now hit.2 = true := by
  induction points with
  | nil => cases h
  | cons point points ih =>
    rw [findEntry] at h
    split_ifs at h
    · exact ih h
    · split at h
      · exact ih h
      · rename_i entry hentry
        split_ifs at h with hexpired
        · exact ih h
        · cases h
          exact ⟨hentry, decide_eq_true (not_le.mp hexpired)⟩

theorem sound_lookup (hs : s.Sound) (scope : PromptCacheScope) (bounds : PromptCacheBounds)
    (eligible : PromptCacheLookupPoint → Bool) (points : List PromptCacheLookupPoint) (now : ℤ) :
    (s.lookup scope bounds eligible points now).1.Sound := by
  rw [lookup]
  split
  · exact hs
  · rename_i entries hentries
    split
    · exact hs
    · rename_i point entry hfound
      refine ⟨wellFormed_insertCell hs.wellFormed scope _ _, ?_⟩
      have hcell : getCell scope point.fingerprint s.byScope = some entry := by
        rw [getCell, hentries, Option.bind_some]
        exact (get_of_findEntry hfound).1
      rw [length_cells_insertCell hs.wellFormed, hcell]
      exact hs.counted

def scopeCells (scope : PromptCacheScope) (l : List Cell) : List Cell :=
  l.filter fun cell => cell.1.1 == scope

def liveCells (now : ℤ) (l : List Cell) : List Cell :=
  l.filter fun cell => isLive now cell.2

def evictBeyond (limit : ℕ) (l : List Cell) : List Cell :=
  l.filter fun cell => decide (cell.1 ∉ (smallest rank (l.length - limit) l).map Prod.fst)

theorem removeOldest_spec {m : ScopeEntries} (hm : WellFormed m) (removeCount : ℕ)
    (includeScope : PromptCacheScope → Bool) :
    WellFormed (removeOldestEntriesLocked m removeCount includeScope).1 ∧
    (cells (removeOldestEntriesLocked m removeCount includeScope).1).Perm
      ((cells m).filter fun cell => decide (cell.1 ∉ (smallest rank removeCount
        ((cells m).filter fun cell => includeScope cell.1.1)).map Prod.fst)) ∧
    (cells (removeOldestEntriesLocked m removeCount includeScope).1).length +
      (removeOldestEntriesLocked m removeCount includeScope).2 = (cells m).length := by
  rw [removeOldestEntriesLocked]
  split_ifs with hzero
  · subst hzero
    refine ⟨hm, ?_, rfl⟩
    simp [smallest]
  · exact removeCells_spec hm _

variable {limit : ℕ} {l : List Cell}

theorem evictBeyond_of_length_le (h : l.length ≤ limit) : evictBeyond limit l = l := by
  rw [evictBeyond, Nat.sub_eq_zero_of_le h]
  simp [smallest]

theorem filter_others {scope : PromptCacheScope} {l removed : List Cell}
    (hremoved : ∀ cell ∈ removed, cell.1.1 = scope) :
    (l.filter fun cell => cell.1.1 != scope).filter
        (fun cell => decide (cell.1 ∉ removed.map Prod.fst)) =
      l.filter fun cell => cell.1.1 != scope := by
  rw [List.filter_eq_self]
  intro cell hcell
  have hscope := (List.mem_filter.mp hcell).2
  apply decide_eq_true
  intro hmem
  obtain ⟨other, hother, heq⟩ := List.mem_map.mp hmem
  rw [← heq, hremoved other hother] at hscope
  simp at hscope

theorem enforceScope_overflow (hs : s.Sound) {scope : PromptCacheScope}
    {entries : List (Digest × PromptCacheEntry)}
    (hentries : KeyedList.get scope s.byScope = some entries) {bounds : PromptCacheBounds}
    (hpos : 0 < bounds.maxEntriesPerAccount)
    (hover : bounds.maxEntriesPerAccount < entries.length) (now : ℤ) :
    ∃ t, s.enforceScope scope bounds now = some t ∧ t.Sound ∧
      (cells t.byScope).Perm
        (evictBeyond bounds.maxEntriesPerAccount
          (liveCells now (scopeCells scope (cells s.byScope))) ++
          (cells s.byScope).filter fun cell => cell.1.1 != scope) := by
  set kept := entries.filter fun entry => isLive now entry.2 with hkept
  set others := (cells s.byScope).filter fun cell => cell.1.1 != scope with hothers
  have hmine : scopeCells scope (cells s.byScope) = groupCells scope entries :=
    groupCells_of_get hs.wellFormed hentries
  have hlive : liveCells now (scopeCells scope (cells s.byScope)) = groupCells scope kept := by
    rw [hmine]
    exact (groupCells_filter scope (isLive now) entries).symm
  have hlength : (cells s.byScope).length = entries.length + others.length := by
    have hsplit := length_filter_split (fun cell : Cell => cell.1.1 == scope) (cells s.byScope)
    rw [show (cells s.byScope).filter (fun cell => cell.1.1 == scope) = groupCells scope entries
      from hmine, length_groupCells] at hsplit
    exact hsplit.symm
  have hle : kept.length ≤ entries.length := List.length_filter_le _ _
  have hreplaced : (cells (KeyedList.insert scope kept s.byScope)).Perm
      (groupCells scope kept ++ others) := cells_insertGroup hs.wellFormed
  have hcount : (cells (KeyedList.insert scope kept s.byScope)).length =
      kept.length + others.length := by
    rw [hreplaced.length_eq, List.length_append, length_groupCells]
  have htotal : checkedSub s.totalEntries (entries.length - kept.length) =
      some (kept.length + others.length) := by
    apply checkedSub_eq_some
    rw [hs.counted, hlength]
    omega
  rw [hlive, enforceScope, hentries]
  dsimp only
  rw [if_pos ⟨hpos, hover⟩, ← hkept, htotal]
  have hkeys : (kept.map Prod.fst).Nodup :=
    (hs.wellFormed.keys_of_get hentries).sublist (List.filter_sublist.map Prod.fst)
  by_cases hoverflow : 0 < kept.length - bounds.maxEntriesPerAccount
  · have hne : kept ≠ [] := by
      intro hnil
      rw [hnil] at hoverflow
      simp at hoverflow
    have hwell := wellFormed_insertGroup hs.wellFormed scope hkeys hne
    have hcandidates : (cells (KeyedList.insert scope kept s.byScope)).filter
        (fun cell => cell.1.1 == scope) = groupCells scope kept :=
      groupCells_of_get hwell (KeyedList.get_insert_self scope kept s.byScope)
    obtain ⟨hwell', hcells, hremoved⟩ := removeOldest_spec hwell
      (kept.length - bounds.maxEntriesPerAccount) (fun other => other == scope)
    rw [hcandidates] at hcells
    have hsub := checkedSub_eq_some (hremoved.trans hcount)
    simp only [Option.bind_eq_bind, Option.bind_some, if_pos hoverflow, hsub]
    refine ⟨_, rfl, ⟨hwell', rfl⟩, ?_⟩
    refine hcells.trans ((hreplaced.filter _).trans (List.Perm.of_eq ?_))
    rw [List.filter_append, hothers, filter_others, evictBeyond, length_groupCells]
    intro cell hcell
    exact scope_of_mem_groupCells (mem_of_mem_smallest hcell)
  · have hle' : (groupCells scope kept).length ≤ bounds.maxEntriesPerAccount := by
      rw [length_groupCells]
      omega
    rw [evictBeyond_of_length_le hle']
    simp only [Option.bind_eq_bind, Option.bind_some, if_neg hoverflow]
    by_cases hempty : kept.isEmpty = true
    · have hnil : kept = [] := List.isEmpty_iff.mp hempty
      rw [if_pos hempty]
      refine ⟨_, rfl, ⟨?_, ?_⟩, ?_⟩
      · dsimp only
        rw [KeyedList.remove_insert_self]
        exact wellFormed_removeGroup hs.wellFormed scope
      · dsimp only
        rw [KeyedList.remove_insert_self, cells_removeGroup, hnil, List.length_nil, Nat.zero_add]
      · dsimp only
        rw [KeyedList.remove_insert_self, cells_removeGroup, hnil]
        exact List.Perm.refl _
    · rw [if_neg hempty]
      have hwell := wellFormed_insertGroup hs.wellFormed scope hkeys
        (fun hnil => hempty (List.isEmpty_iff.mpr hnil))
      exact ⟨_, rfl, ⟨hwell, hcount.symm⟩, hreplaced⟩

/-- Within its bound the written scope is left alone; beyond it, its expired cells go first and
then its smallest ones. -/
theorem enforceScope_spec (hs : s.Sound) (scope : PromptCacheScope) (bounds : PromptCacheBounds)
    (now : ℤ) :
    ∃ t, s.enforceScope scope bounds now = some t ∧ t.Sound ∧
      ((bounds.maxEntriesPerAccount = 0 ∨
          (scopeCells scope (cells s.byScope)).length ≤ bounds.maxEntriesPerAccount) ∧ t = s ∨
        0 < bounds.maxEntriesPerAccount ∧
          bounds.maxEntriesPerAccount < (scopeCells scope (cells s.byScope)).length ∧
          (cells t.byScope).Perm
            (evictBeyond bounds.maxEntriesPerAccount
              (liveCells now (scopeCells scope (cells s.byScope))) ++
              (cells s.byScope).filter fun cell => cell.1.1 != scope)) := by
  cases hentries : KeyedList.get scope s.byScope with
  | none =>
    have hnone : scopeCells scope (cells s.byScope) = [] := groupCells_of_get_none hentries
    refine ⟨s, by rw [enforceScope, hentries], hs, Or.inl ⟨Or.inr ?_, rfl⟩⟩
    rw [hnone]
    exact Nat.zero_le _
  | some entries =>
    have hlength : (scopeCells scope (cells s.byScope)).length = entries.length := by
      rw [scopeCells, groupCells_of_get hs.wellFormed hentries, length_groupCells]
    by_cases hover : 0 < bounds.maxEntriesPerAccount ∧
        bounds.maxEntriesPerAccount < entries.length
    · obtain ⟨t, ht, hsound, hcells⟩ := enforceScope_overflow hs hentries hover.1 hover.2 now
      exact ⟨t, ht, hsound, Or.inr ⟨hover.1, hlength ▸ hover.2, hcells⟩⟩
    · refine ⟨s, ?_, hs, Or.inl ⟨?_, rfl⟩⟩
      · rw [enforceScope, hentries]
        dsimp only
        rw [if_neg hover]
      · rw [hlength]
        omega

theorem cells_pruneExpired (s : PromptCacheState) (now : ℤ) :
    cells (s.pruneExpired now).byScope = liveCells now (cells s.byScope) :=
  cells_retain (isLive now) s.byScope

/-- The same for the whole table. -/
theorem enforceGlobal_spec (hs : s.Sound) (bounds : PromptCacheBounds) (now : ℤ) :
    ∃ t, s.enforceGlobal bounds now = some t ∧ t.Sound ∧
      ((cells s.byScope).length ≤ bounds.globalEntryLimit ∧ t = s ∨
        bounds.globalEntryLimit < (cells s.byScope).length ∧
          (cells t.byScope).Perm
            (evictBeyond bounds.globalEntryLimit (liveCells now (cells s.byScope)))) := by
  rw [enforceGlobal, ← hs.counted]
  by_cases hover : bounds.globalEntryLimit < s.totalEntries
  · rw [if_pos hover]
    have hpruned := sound_pruneExpired hs now
    have hlive := cells_pruneExpired s now
    generalize s.pruneExpired now = p at hpruned hlive
    dsimp only
    rw [← hlive]
    by_cases hover' : bounds.globalEntryLimit < p.totalEntries
    · rw [if_pos hover']
      obtain ⟨hwell, hcells, hremoved⟩ := removeOldest_spec hpruned.wellFormed
        (p.totalEntries - bounds.globalEntryLimit) (fun _ => true)
      rw [← hpruned.counted] at hremoved
      rw [List.filter_true] at hcells
      simp only [Option.bind_eq_bind, checkedSub_eq_some hremoved, Option.bind_some]
      refine ⟨_, rfl, ⟨hwell, rfl⟩, Or.inr ⟨hover, ?_⟩⟩
      rwa [evictBeyond, ← hpruned.counted]
    · rw [if_neg hover']
      refine ⟨p, rfl, hpruned, Or.inr ⟨hover, ?_⟩⟩
      rw [evictBeyond_of_length_le]
      rw [← hpruned.counted]
      exact not_lt.mp hover'
  · rw [if_neg hover]
    dsimp only
    rw [if_neg hover]
    exact ⟨s, rfl, hs, Or.inl ⟨not_lt.mp hover, rfl⟩⟩

theorem eq_of_rank_eq (hnodup : (l.map Prod.fst).Nodup) {a b : Cell} (ha : a ∈ l) (hb : b ∈ l)
    (h : rank a = rank b) : a = b := by
  have hkey : a.1 = b.1 := by
    simp only [rank, toLex_inj, Prod.mk.injEq] at h
    have hconversation := h.2.2.1
    obtain ⟨hnamespace, hfingerprint⟩ := Prod.mk.inj h.2.2.2
    apply Prod.ext
    · exact PromptCacheScope.ext hconversation hnamespace
    · exact BitVec.eq_of_toNat_eq hfingerprint
  exact List.inj_on_of_nodup_map hnodup ha hb hkey

/-- A bound on a part of the table: live cells go only when no expired one is left in the
part, and then those go that come first in the order of use, until the limit is met. -/
structure EvictsOldest (part : Cell → Bool) (limit : ℕ) (now : ℤ) (before after : List Cell) :
    Prop where
  subset : ∀ cell ∈ after, cell ∈ before
  outside : ∀ cell ∈ before, part cell = false → cell ∈ after
  expired_first : (∃ cell ∈ before, cell ∉ after ∧ isLive now cell.2 = true) →
    ∀ cell ∈ after, part cell = true → isLive now cell.2 = true
  oldest : ∀ cell ∈ before, cell ∉ after → isLive now cell.2 = true →
    ∀ cell' ∈ after, part cell' = true → rank cell < rank cell'
  exact : (∃ cell ∈ before, cell ∉ after ∧ isLive now cell.2 = true) →
    (after.filter part).length = limit

theorem EvictsOldest.refl (part : Cell → Bool) (limit : ℕ) (now : ℤ) (l : List Cell) :
    EvictsOldest part limit now l l where
  subset _ h := h
  outside _ h _ := h
  expired_first := by
    rintro ⟨cell, hcell, hnot, -⟩
    exact absurd hcell hnot
  oldest _ hcell hnot := absurd hcell hnot
  exact := by
    rintro ⟨cell, hcell, hnot, -⟩
    exact absurd hcell hnot

theorem length_evictBeyond (hnodup : (l.map Prod.fst).Nodup) :
    (evictBeyond limit l).length = min l.length limit := by
  rw [evictBeyond, length_filter_smallest hnodup (fun cell => decide_eq_true_iff)]
  omega

theorem rank_lt_of_evictBeyond (hnodup : (l.map Prod.fst).Nodup) {cell cell' : Cell}
    (hcell : cell ∈ l) (hgone : cell ∉ evictBeyond limit l) (hcell' : cell' ∈ evictBeyond limit l) :
    rank cell < rank cell' := by
  obtain ⟨hmem', hkept⟩ := List.mem_filter.mp hcell'
  have hsmall : cell ∈ smallest rank (l.length - limit) l := by
    have hkey : cell.1 ∈ (smallest rank (l.length - limit) l).map Prod.fst := by
      by_contra hkey
      exact hgone (List.mem_filter.mpr ⟨hcell, decide_eq_true hkey⟩)
    obtain ⟨other, hother, heq⟩ := List.mem_map.mp hkey
    rwa [List.inj_on_of_nodup_map hnodup hcell (mem_of_mem_smallest hother) heq.symm]
  have hlarge : cell' ∉ smallest rank (l.length - limit) l :=
    fun h => of_decide_eq_true hkept (List.mem_map_of_mem h)
  apply lt_of_le_of_ne (rank_le_of_smallest hsmall hmem' hlarge)
  intro heq
  rw [eq_of_rank_eq hnodup hcell hmem' heq] at hgone
  exact hgone hcell'

theorem length_part_of_perm {part : Cell → Bool} {now : ℤ} {before after : List Cell}
    (hnodup : (before.map Prod.fst).Nodup)
    (hperm : after.Perm (evictBeyond limit (liveCells now (before.filter part)) ++
      before.filter fun cell => !part cell)) :
    (after.filter part).length = min (liveCells now (before.filter part)).length limit := by
  have hall : (evictBeyond limit (liveCells now (before.filter part))).filter part =
      evictBeyond limit (liveCells now (before.filter part)) := by
    rw [List.filter_eq_self]
    intro cell hcell
    exact (List.mem_filter.mp (List.mem_filter.mp (List.mem_filter.mp hcell).1).1).2
  have hnone : (before.filter fun cell => !part cell).filter part = [] := by
    rw [List.filter_eq_nil_iff]
    intro cell hcell hpart
    have hnot := (List.mem_filter.mp hcell).2
    rw [hpart] at hnot
    cases hnot
  rw [(hperm.filter part).length_eq, List.filter_append, hall, hnone, List.append_nil,
    length_evictBeyond]
  exact hnodup.sublist ((List.filter_sublist.trans List.filter_sublist).map Prod.fst)

/-- Dropping what has expired in a part and then the smallest cells beyond a limit. -/
theorem evictsOldest_of_perm {part : Cell → Bool} {now : ℤ} {before after : List Cell}
    (hnodup : (before.map Prod.fst).Nodup)
    (hperm : after.Perm (evictBeyond limit (liveCells now (before.filter part)) ++
      before.filter fun cell => !part cell)) : EvictsOldest part limit now before after := by
  set kept := liveCells now (before.filter part) with hkept
  have hmem : ∀ cell, cell ∈ after ↔ cell ∈ evictBeyond limit kept ∨
      cell ∈ before.filter fun cell => !part cell := by
    intro cell
    rw [hperm.mem_iff, List.mem_append]
  have hnodup' : (kept.map Prod.fst).Nodup :=
    hnodup.sublist ((List.filter_sublist.trans List.filter_sublist).map Prod.fst)
  have hgone : ∀ cell ∈ before, cell ∉ after → isLive now cell.2 = true →
      cell ∈ kept ∧ cell ∉ evictBeyond limit kept := by
    intro cell hcell hnot hlive
    rw [hmem, not_or] at hnot
    refine ⟨List.mem_filter.mpr ⟨List.mem_filter.mpr ⟨hcell, ?_⟩, hlive⟩, hnot.1⟩
    by_contra hpart
    exact hnot.2 (List.mem_filter.mpr ⟨hcell, by simpa using hpart⟩)
  have hinside : ∀ cell ∈ after, part cell = true → cell ∈ evictBeyond limit kept := by
    intro cell hcell hpart
    rcases (hmem cell).mp hcell with h | h
    · exact h
    · have hnot := (List.mem_filter.mp h).2
      rw [hpart] at hnot
      cases hnot
  refine ⟨?_, ?_, ?_, ?_, ?_⟩
  · intro cell hcell
    rcases (hmem cell).mp hcell with h | h
    · exact (List.mem_filter.mp (List.mem_filter.mp (List.mem_filter.mp h).1).1).1
    · exact (List.mem_filter.mp h).1
  · intro cell hcell hpart
    exact (hmem cell).mpr (Or.inr (List.mem_filter.mpr ⟨hcell, by simp [hpart]⟩))
  · rintro - cell hcell hpart
    exact (List.mem_filter.mp (List.mem_filter.mp (hinside cell hcell hpart)).1).2
  · intro cell hcell hnot hlive cell' hcell' hpart
    obtain ⟨hin, hout⟩ := hgone cell hcell hnot hlive
    exact rank_lt_of_evictBeyond hnodup' hin hout (hinside cell' hcell' hpart)
  · rintro ⟨cell, hcell, hnot, hlive⟩
    obtain ⟨hin, hout⟩ := hgone cell hcell hnot hlive
    have hover : limit < kept.length := by
      by_contra hle
      rw [evictBeyond_of_length_le (not_lt.mp hle)] at hout
      exact hout hin
    rw [length_part_of_perm hnodup hperm, min_eq_right hover.le]

/-- What `enforce_bounds` does to a table, one bound after the other. -/
theorem enforceBounds_spec (hs : s.Sound) (scope : PromptCacheScope) (bounds : PromptCacheBounds)
    (now : ℤ) :
    ∃ mid t, s.enforceScope scope bounds now = some mid ∧
      mid.enforceGlobal bounds now = some t ∧ t.Sound ∧
      EvictsOldest (fun cell => cell.1.1 == scope) bounds.maxEntriesPerAccount now
        (cells s.byScope) (cells mid.byScope) ∧
      EvictsOldest (fun _ => true) bounds.globalEntryLimit now (cells mid.byScope)
        (cells t.byScope) ∧
      (0 < bounds.maxEntriesPerAccount →
        (scopeCells scope (cells t.byScope)).length ≤ bounds.maxEntriesPerAccount) ∧
      (cells t.byScope).length ≤ bounds.globalEntryLimit := by
  obtain ⟨mid, hmid, hsound, hscope⟩ := enforceScope_spec hs scope bounds now
  obtain ⟨t, ht, hsound', hglobal⟩ := enforceGlobal_spec hsound bounds now
  refine ⟨mid, t, hmid, ht, hsound', ?_, ?_, ?_, ?_⟩
  · rcases hscope with ⟨-, rfl⟩ | ⟨-, -, hperm⟩
    · exact EvictsOldest.refl _ _ _ _
    · exact evictsOldest_of_perm (nodup_cells hs.wellFormed) hperm
  · rcases hglobal with ⟨-, rfl⟩ | ⟨-, hperm⟩
    · exact EvictsOldest.refl _ _ _ _
    · apply evictsOldest_of_perm (nodup_cells hsound.wellFormed)
      simpa using hperm
  · intro hpos
    have hmid : (scopeCells scope (cells mid.byScope)).length ≤ bounds.maxEntriesPerAccount := by
      rcases hscope with ⟨hwithin, rfl⟩ | ⟨-, -, hperm⟩
      · omega
      · rw [scopeCells, length_part_of_perm (nodup_cells hs.wellFormed) hperm]
        exact min_le_right _ _
    -- The bound of the table only removes more.
    have hfewer : (scopeCells scope (cells t.byScope)).length ≤
        (scopeCells scope (cells mid.byScope)).length := by
      rcases hglobal with ⟨-, rfl⟩ | ⟨-, hperm⟩
      · exact le_rfl
      · rw [scopeCells, (hperm.filter _).length_eq]
        exact ((List.filter_sublist.trans List.filter_sublist).filter _).length_le
    exact hfewer.trans hmid
  · rcases hglobal with ⟨hwithin, rfl⟩ | ⟨-, hperm⟩
    · exact hwithin
    · rw [hperm.length_eq, length_evictBeyond]
      · exact min_le_right _ _
      · exact (nodup_cells hsound.wellFormed).sublist (List.filter_sublist.map Prod.fst)

theorem length_get_scope {t : PromptCacheState} (ht : t.Sound) (scope : PromptCacheScope) :
    ((KeyedList.get scope t.byScope).getD []).length =
      (scopeCells scope (cells t.byScope)).length := by
  rw [scopeCells, ← groupCells_getD ht.wellFormed, length_groupCells]

end PromptCacheState

section Runs

open PromptCacheState

variable (toLowercase : String → String)

theorem sound_readShape {f : PromptCacheState → ℤ → PromptCacheState × PromptCacheUsage}
    (hf : ReadShape f) {s : PromptCacheState} (hs : s.Sound) (now : ℤ) : (f s now).1.Sound := by
  cases hf with
  | idle usage h =>
    rw [h]
    exact hs
  | reads scope bounds eligible points usage h =>
    rw [h]
    exact sound_lookup (sound_pruneExpiredIfDue hs now) scope bounds eligible points now

theorem write_spec {s : PromptCacheState} (hs : s.Sound) (w : Write) (now : ℤ) :
    ∃ mid t, ((s.pruneExpiredIfDue now).insertAll w now).enforceScope w.scope w.bounds now =
        some mid ∧
      mid.enforceGlobal w.bounds now = some t ∧ s.write w now = some t ∧ t.Sound ∧
      EvictsOldest (fun cell => cell.1.1 == w.scope) w.bounds.maxEntriesPerAccount now
        (cells ((s.pruneExpiredIfDue now).insertAll w now).byScope) (cells mid.byScope) ∧
      EvictsOldest (fun _ => true) w.bounds.globalEntryLimit now (cells mid.byScope)
        (cells t.byScope) ∧
      (0 < w.bounds.maxEntriesPerAccount →
        (scopeCells w.scope (cells t.byScope)).length ≤ w.bounds.maxEntriesPerAccount) ∧
      (cells t.byScope).length ≤ w.bounds.globalEntryLimit := by
  have hwritten := sound_insertAll (sound_pruneExpiredIfDue hs now) w now
  obtain ⟨mid, t, hmid, ht, hsound, hrest⟩ := enforceBounds_spec hwritten w.scope w.bounds now
  refine ⟨mid, t, hmid, ht, ?_, hsound, hrest⟩
  rw [write, enforceBounds, hmid, Option.bind_some, ht]

theorem exists_step {s : PromptCacheState} (hs : s.Sound) (entry : ℤ × Call) :
    ∃ t, step toLowercase s entry = some t ∧ t.Sound := by
  rw [step]
  cases callShape toLowercase entry.2 with
  | reads hwrite f hf h =>
    rw [h]
    exact ⟨_, rfl, sound_readShape hf hs entry.1⟩
  | refused hwrite h =>
    rw [h]
    exact ⟨s, rfl, hs⟩
  | writes w hwrite h =>
    obtain ⟨mid, t, -, -, ht, hsound, -⟩ := write_spec hs w entry.1
    rw [h, ht]
    exact ⟨t, rfl, hsound⟩

theorem exists_run {s : PromptCacheState} (hs : s.Sound) (calls : List (ℤ × Call)) :
    ∃ t, run toLowercase s calls = some t ∧ t.Sound := by
  induction calls generalizing s with
  | nil => exact ⟨s, rfl, hs⟩
  | cons entry calls ih =>
    obtain ⟨s', hs', hsound⟩ := exists_step toLowercase hs entry
    obtain ⟨t, ht, hsound'⟩ := ih hsound
    exact ⟨t, Transition.run_cons_eq_some.mpr ⟨s', hs', ht⟩, hsound'⟩

/-- After every run of calls, at whatever times: no subtraction has failed, the counter counts
the entries and no scope is empty. Every write that follows meets the bounds of its call, and
evicts live entries only where no expired one is left, the least recently used first. -/
theorem prompt_cache_bounds (calls : List (ℤ × Call)) :
    ∃ s, run toLowercase empty calls = some s ∧
      s.totalEntries = totalCacheEntries s.byScope ∧ (∀ group ∈ s.byScope, group.2 ≠ []) ∧
      ∀ now c w, c.write toLowercase = some w →
        ∃ mid t, ((s.pruneExpiredIfDue now).insertAll w now).enforceScope w.scope w.bounds now =
            some mid ∧
          mid.enforceGlobal w.bounds now = some t ∧
          call toLowercase s now c = some (t, none) ∧
          (0 < w.bounds.maxEntriesPerAccount →
            ((KeyedList.get w.scope t.byScope).getD []).length ≤ w.bounds.maxEntriesPerAccount) ∧
          totalCacheEntries t.byScope ≤ w.bounds.globalEntryLimit ∧
          EvictsOldest (fun cell => cell.1.1 == w.scope) w.bounds.maxEntriesPerAccount now
            (cells ((s.pruneExpiredIfDue now).insertAll w now).byScope) (cells mid.byScope) ∧
          EvictsOldest (fun _ => true) w.bounds.globalEntryLimit now (cells mid.byScope)
            (cells t.byScope) := by
  obtain ⟨s, hrun, hs⟩ := exists_run toLowercase sound_empty calls
  refine ⟨s, hrun, ?_, hs.wellFormed.nonempty, ?_⟩
  · rw [hs.counted]
    exact length_cells s.byScope
  · intro now c w hw
    obtain ⟨mid, t, hmid, ht, hwrite, hsound, hscope, hglobal, hmax, hlimit⟩ :=
      write_spec hs w now
    refine ⟨mid, t, hmid, ht, ?_, ?_, ?_, hscope, hglobal⟩
    · cases callShape toLowercase c with
      | reads hnone f hf h =>
        rw [hnone] at hw
        cases hw
      | refused hnone h =>
        rw [hnone] at hw
        cases hw
      | writes w' hw' h =>
        cases hw'.symm.trans hw
        rw [h, hwrite]
        rfl
    · rw [length_get_scope hsound]
      exact hmax
    · rw [length_cells] at hlimit
      exact hlimit

end Runs

def onePrefix : PromptCacheProfile where
  breakpoints := [defaultPromptCacheTtl]
  lookupPoints := [{ fingerprint := 1, cumulativeTokens := 10 }]
  totalInputTokens := 10
  model := "claude-sonnet-4"
  suppressFirstTurnFallbackRead := false

def commitUnlimitedBytes : Call :=
  .updateKiroRsTool (some { conversationId := "c", routeNamespace := none }) (some onePrefix)
    { maxEntriesPerAccount := 200
      maxEntriesGlobal := 20000
      entryTtl := hourPromptCacheTtl
      estimatedBytesLimit := 0
      writeTtl := none } 10

/-- A limit of zero bytes does not bound the table. -/
theorem table_exceeds_zero_bytes : ∃ t, call id PromptCacheState.empty 0 commitUnlimitedBytes =
    some (t, none) ∧ ¬ totalCacheEntries t.byScope ≤ min 20000 (0 / estimatedEntryBytes) := by
  refine ⟨_, rfl, ?_⟩
  decide

theorem prompt_cache_bounds_commit : ∃ t,
    call id PromptCacheState.empty 0 commitUnlimitedBytes = some (t, none) ∧
      totalCacheEntries t.byScope ≤ 20000 := by
  obtain ⟨s, hrun, -, -, hwrites⟩ := prompt_cache_bounds id []
  cases hrun
  obtain ⟨mid, t, -, -, hcall, -, hlimit, -⟩ := hwrites 0 commitUnlimitedBytes _ rfl
  exact ⟨t, hcall, hlimit⟩

end KiroProxy.PromptCache
