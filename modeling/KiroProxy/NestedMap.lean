import KiroProxy.KeyedList

/-!
# Maps of maps

A map from scopes to maps, none of which is left empty, and the flat list of its cells. Every
operation on the two levels is one operation on the cells, up to their order.
-/

namespace KiroProxy.NestedMap

open scoped List

variable {σ κ α : Type}

/-- The entries of every scope. -/
abbrev Groups (σ κ α : Type) := List (σ × List (κ × α))

def groupCells (scope : σ) (entries : List (κ × α)) : List ((σ × κ) × α) :=
  entries.map fun entry => ((scope, entry.1), entry.2)

def cells (m : Groups σ κ α) : List ((σ × κ) × α) :=
  m.flatMap fun group => groupCells group.1 group.2

structure WellFormed (m : Groups σ κ α) : Prop where
  scopes : (m.map Prod.fst).Nodup
  keys : ∀ group ∈ m, (group.2.map Prod.fst).Nodup
  nonempty : ∀ group ∈ m, group.2 ≠ []

theorem wellFormed_nil : WellFormed ([] : Groups σ κ α) where
  scopes := List.nodup_nil
  keys _ h := by cases h
  nonempty _ h := by cases h

@[simp] theorem cells_nil : cells ([] : Groups σ κ α) = [] := rfl

@[simp] theorem cells_cons (group : σ × List (κ × α)) (m : Groups σ κ α) :
    cells (group :: m) = groupCells group.1 group.2 ++ cells m := rfl

@[simp] theorem cells_append (m m' : Groups σ κ α) : cells (m ++ m') = cells m ++ cells m' :=
  List.flatMap_append

theorem scope_of_mem_cells {m : Groups σ κ α} {cell : (σ × κ) × α} (h : cell ∈ cells m) :
    cell.1.1 ∈ m.map Prod.fst := by
  obtain ⟨group, hgroup, hcell⟩ := List.mem_flatMap.mp h
  obtain ⟨entry, -, rfl⟩ := List.mem_map.mp hcell
  exact List.mem_map_of_mem hgroup

theorem scope_of_mem_groupCells {scope : σ} {entries : List (κ × α)} {cell : (σ × κ) × α}
    (h : cell ∈ groupCells scope entries) : cell.1.1 = scope := by
  obtain ⟨entry, -, rfl⟩ := List.mem_map.mp h
  rfl

theorem length_groupCells (scope : σ) (entries : List (κ × α)) :
    (groupCells scope entries).length = entries.length :=
  List.length_map _

theorem length_cells (m : Groups σ κ α) :
    (cells m).length = (m.map fun group => group.2.length).sum := by
  induction m with
  | nil => rfl
  | cons group m ih => simp [length_groupCells, ih]

theorem mem_groupCells {scope : σ} {key : κ} {value : α} {entries : List (κ × α)} :
    ((scope, key), value) ∈ groupCells scope entries ↔ (key, value) ∈ entries := by
  simp [groupCells]

theorem nodup_cells {m : Groups σ κ α} (hm : WellFormed m) : ((cells m).map Prod.fst).Nodup := by
  obtain ⟨hscopes, hkeys, -⟩ := hm
  induction m with
  | nil => exact List.nodup_nil
  | cons group m ih =>
    rw [List.map_cons, List.nodup_cons] at hscopes
    rw [cells_cons, List.map_append]
    apply List.Nodup.append
    · have hgroup := hkeys group List.mem_cons_self
      rw [groupCells, List.map_map]
      have hmap := hgroup.map (Prod.mk_right_injective group.1)
      rwa [List.map_map] at hmap
    · exact ih hscopes.2 fun g hg => hkeys g (List.mem_cons_of_mem _ hg)
    · intro key hkey hkey'
      obtain ⟨cell, hcell, rfl⟩ := List.mem_map.mp hkey
      obtain ⟨cell', hcell', heq⟩ := List.mem_map.mp hkey'
      apply hscopes.1
      rw [← scope_of_mem_groupCells hcell, ← heq]
      exact scope_of_mem_cells hcell'

/-- Keep the entries with a property and drop the scopes that this empties. -/
def retain (p : α → Bool) (m : Groups σ κ α) : Groups σ κ α :=
  (m.map fun group => (group.1, group.2.filter fun entry => p entry.2)).filter
    fun group => !group.2.isEmpty

theorem groupCells_filter (scope : σ) (p : α → Bool) (entries : List (κ × α)) :
    groupCells scope (entries.filter fun entry => p entry.2) =
      (groupCells scope entries).filter fun cell => p cell.2 := by
  rw [groupCells, groupCells, List.filter_map]
  rfl

theorem cells_retain (p : α → Bool) (m : Groups σ κ α) :
    cells (retain p m) = (cells m).filter fun cell => p cell.2 := by
  induction m with
  | nil => rfl
  | cons group m ih =>
    rw [retain] at ih
    rw [retain, List.map_cons, cells_cons, List.filter_append, ← groupCells_filter, ← ih]
    cases h : group.2.filter fun entry => p entry.2 with
    | nil => simp [groupCells]
    | cons entry rest => simp

theorem wellFormed_retain (p : α → Bool) {m : Groups σ κ α} (hm : WellFormed m) :
    WellFormed (retain p m) where
  scopes := by
    have hsub := (List.filter_sublist (l := m.map fun group =>
      (group.1, group.2.filter fun entry => p entry.2)) (p := fun group => !group.2.isEmpty)).map
      Prod.fst
    rw [List.map_map] at hsub
    exact hm.scopes.sublist hsub
  keys group hgroup := by
    obtain ⟨old, hold, rfl⟩ := List.mem_map.mp (List.mem_of_mem_filter hgroup)
    exact (hm.keys old hold).sublist (List.filter_sublist.map Prod.fst)
  nonempty group hgroup := by
    have hnonempty := (List.mem_filter.mp hgroup).2
    simpa using hnonempty

section Scope

variable [DecidableEq σ] {m : Groups σ κ α} {scope : σ} {entries entries' : List (κ × α)}

theorem WellFormed.keys_of_get (hm : WellFormed m) (h : KeyedList.get scope m = some entries) :
    (entries.map Prod.fst).Nodup :=
  hm.keys _ (KeyedList.mem_of_get h)

theorem wellFormed_insertGroup (hm : WellFormed m) (scope : σ)
    (hkeys : (entries'.map Prod.fst).Nodup) (hne : entries' ≠ []) :
    WellFormed (KeyedList.insert scope entries' m) where
  scopes := KeyedList.nodup_keys_insert hm.scopes scope entries'
  keys group hgroup := by
    have hperm := KeyedList.insert_perm hm.scopes scope entries'
    rcases List.mem_cons.mp (hperm.mem_iff.mp hgroup) with rfl | hgroup
    · exact hkeys
    · exact hm.keys group (List.mem_of_mem_filter hgroup)
  nonempty group hgroup := by
    have hperm := KeyedList.insert_perm hm.scopes scope entries'
    rcases List.mem_cons.mp (hperm.mem_iff.mp hgroup) with rfl | hgroup
    · exact hne
    · exact hm.nonempty group (List.mem_of_mem_filter hgroup)

theorem wellFormed_removeGroup (hm : WellFormed m) (scope : σ) :
    WellFormed (KeyedList.remove scope m) where
  scopes := KeyedList.nodup_keys_remove hm.scopes scope
  keys group hgroup := hm.keys group (List.mem_of_mem_filter hgroup)
  nonempty group hgroup := hm.nonempty group (List.mem_of_mem_filter hgroup)

/-- The cells outside of a scope. -/
theorem cells_removeGroup (m : Groups σ κ α) (scope : σ) :
    cells (KeyedList.remove scope m) = (cells m).filter fun cell => cell.1.1 != scope := by
  induction m with
  | nil => rfl
  | cons group m ih =>
    rw [KeyedList.remove] at ih ⊢
    rw [cells_cons, List.filter_append, ← ih]
    by_cases h : group.1 = scope
    · have hnone : (groupCells group.1 group.2).filter (fun cell => cell.1.1 != scope) = [] := by
        rw [List.filter_eq_nil_iff]
        intro cell hcell
        simp [scope_of_mem_groupCells hcell, h]
      rw [hnone, List.filter_cons_of_neg (by simp [h]), List.nil_append]
    · have hall : (groupCells group.1 group.2).filter (fun cell => cell.1.1 != scope) =
          groupCells group.1 group.2 := by
        rw [List.filter_eq_self]
        intro cell hcell
        simp [scope_of_mem_groupCells hcell, h]
      rw [hall, List.filter_cons_of_pos (by simp [h]), cells_cons]

theorem cells_insertGroup (hm : WellFormed m) :
    (cells (KeyedList.insert scope entries' m)).Perm
      (groupCells scope entries' ++ (cells m).filter fun cell => cell.1.1 != scope) := by
  rw [← cells_removeGroup]
  exact (KeyedList.insert_perm hm.scopes scope entries').flatMap_right _

/-- The cells of a scope are its entries. -/
theorem groupCells_of_get (hm : WellFormed m) (h : KeyedList.get scope m = some entries) :
    (cells m).filter (fun cell => cell.1.1 == scope) = groupCells scope entries := by
  obtain ⟨before, after, rfl, hbefore, -⟩ := KeyedList.split_of_get h
  have hscopes := hm.scopes
  rw [List.map_append, List.map_cons, List.nodup_middle, List.nodup_cons, List.mem_append,
    not_or] at hscopes
  have hnone (part : Groups σ κ α) (hpart : scope ∉ part.map Prod.fst) :
      (cells part).filter (fun cell => cell.1.1 == scope) = [] := by
    rw [List.filter_eq_nil_iff]
    intro cell hcell heq
    exact hpart (beq_iff_eq.mp heq ▸ scope_of_mem_cells hcell)
  have hall : (groupCells scope entries).filter (fun cell => cell.1.1 == scope) =
      groupCells scope entries := by
    rw [List.filter_eq_self]
    intro cell hcell
    simp [scope_of_mem_groupCells hcell]
  rw [cells_append, cells_cons, List.filter_append, List.filter_append, hnone before hscopes.1.1,
    hnone after hscopes.1.2, hall, List.nil_append, List.append_nil]

theorem groupCells_of_get_none (h : KeyedList.get scope m = none) :
    (cells m).filter (fun cell => cell.1.1 == scope) = [] := by
  rw [List.filter_eq_nil_iff]
  intro cell hcell heq
  exact KeyedList.get_eq_none_iff.mp h (beq_iff_eq.mp heq ▸ scope_of_mem_cells hcell)

theorem groupCells_getD (hm : WellFormed m) (scope : σ) :
    groupCells scope ((KeyedList.get scope m).getD []) =
      (cells m).filter fun cell => cell.1.1 == scope := by
  cases h : KeyedList.get scope m with
  | none => rw [groupCells_of_get_none h]; rfl
  | some entries => rw [groupCells_of_get hm h]; rfl

theorem keys_getD (hm : WellFormed m) (scope : σ) :
    (((KeyedList.get scope m).getD []).map Prod.fst).Nodup := by
  cases h : KeyedList.get scope m with
  | none => exact List.nodup_nil
  | some entries => exact hm.keys_of_get h

end Scope

section Cell

variable [DecidableEq σ] [DecidableEq κ] {m : Groups σ κ α} {scope : σ} {key : κ} {value : α}

def getCell (scope : σ) (key : κ) (m : Groups σ κ α) : Option α :=
  (KeyedList.get scope m).bind (KeyedList.get key)

def insertCell (scope : σ) (key : κ) (value : α) (m : Groups σ κ α) : Groups σ κ α :=
  KeyedList.insert scope
    (KeyedList.insert key value ((KeyedList.get scope m).getD [])) m

/-- Removes a cell, and its scope with its last one; says whether the cell was there. -/
def removeCell (cell : σ × κ) (m : Groups σ κ α) : Groups σ κ α × Bool :=
  match KeyedList.get cell.1 m with
  | none => (m, false)
  | some entries =>
    if (KeyedList.get cell.2 entries).isSome then
      let rest := KeyedList.remove cell.2 entries
      (if rest.isEmpty then KeyedList.remove cell.1 m else KeyedList.insert cell.1 rest m, true)
    else (m, false)

theorem getCell_eq_some_iff (hm : WellFormed m) :
    getCell scope key m = some value ↔ ((scope, key), value) ∈ cells m := by
  have hfilter : ((scope, key), value) ∈ cells m ↔
      ((scope, key), value) ∈ (cells m).filter fun cell => cell.1.1 == scope := by
    simp [List.mem_filter]
  rw [hfilter, getCell]
  cases h : KeyedList.get scope m with
  | none => simp [groupCells_of_get_none h]
  | some entries =>
    rw [groupCells_of_get hm h, mem_groupCells, Option.bind_some]
    exact KeyedList.get_eq_some_iff (hm.keys_of_get h)

/-- A lookup on two levels is a lookup among the cells. -/
theorem getCell_eq_get (hm : WellFormed m) (scope : σ) (key : κ) :
    getCell scope key m = KeyedList.get (scope, key) (cells m) := by
  apply Option.ext
  intro value
  rw [getCell_eq_some_iff hm, KeyedList.get_eq_some_iff (nodup_cells hm)]

theorem groupCells_remove (scope : σ) (key : κ) (entries : List (κ × α)) :
    groupCells scope (KeyedList.remove key entries) =
      KeyedList.remove (scope, key) (groupCells scope entries) := by
  rw [groupCells, groupCells, KeyedList.remove, KeyedList.remove, List.filter_map]
  congr 1
  apply List.filter_congr
  intro entry _
  simp [bne, Prod.ext_iff]

/-- The other cells of a scope, and those of the other scopes. -/
theorem remove_perm (m : Groups σ κ α) (scope : σ) (key : κ) :
    (KeyedList.remove (scope, key) ((cells m).filter fun cell => cell.1.1 == scope) ++
      (cells m).filter fun cell => cell.1.1 != scope).Perm
      (KeyedList.remove (scope, key) (cells m)) := by
  have hperm := List.filter_append_perm (fun cell : (σ × κ) × α => cell.1.1 == scope)
    (KeyedList.remove (scope, key) (cells m))
  have hsame : (KeyedList.remove (scope, key) (cells m)).filter (fun cell => cell.1.1 == scope) =
      KeyedList.remove (scope, key) ((cells m).filter fun cell => cell.1.1 == scope) := by
    rw [KeyedList.remove, KeyedList.remove, List.filter_filter, List.filter_filter]
    apply List.filter_congr
    intro cell _
    exact Bool.and_comm _ _
  have hother : (KeyedList.remove (scope, key) (cells m)).filter
      (fun cell => !(cell.1.1 == scope)) = (cells m).filter fun cell => cell.1.1 != scope := by
    rw [KeyedList.remove, List.filter_filter]
    apply List.filter_congr
    intro cell _
    by_cases h : cell.1.1 = scope
    · simp [h]
    · have hne : cell.1 ≠ (scope, key) := fun heq => h (congrArg Prod.fst heq)
      simp [bne, h, hne]
  rwa [hsame, hother] at hperm

theorem cells_insertCell (hm : WellFormed m) (scope : σ) (key : κ) (value : α) :
    (cells (insertCell scope key value m)).Perm
      (((scope, key), value) :: KeyedList.remove (scope, key) (cells m)) := by
  have hgroup := (KeyedList.insert_perm (keys_getD hm scope) key value).map
    fun entry => ((scope, entry.1), entry.2)
  have hrest := groupCells_remove scope key ((KeyedList.get scope m).getD [])
  rw [groupCells_getD hm] at hrest
  calc cells (insertCell scope key value m)
    _ ~ groupCells scope (KeyedList.insert key value ((KeyedList.get scope m).getD [])) ++
          (cells m).filter fun cell => cell.1.1 != scope := cells_insertGroup hm
    _ ~ (((scope, key), value) ::
          groupCells scope (KeyedList.remove key ((KeyedList.get scope m).getD []))) ++
          (cells m).filter fun cell => cell.1.1 != scope := hgroup.append_right _
    _ ~ ((scope, key), value) :: KeyedList.remove (scope, key) (cells m) := by
      rw [hrest, List.cons_append]
      exact (remove_perm m scope key).cons _

theorem getCell_insertCell_self (scope : σ) (key : κ) (value : α) (m : Groups σ κ α) :
    getCell scope key (insertCell scope key value m) = some value := by
  rw [getCell, insertCell, KeyedList.get_insert_self, Option.bind_some, KeyedList.get_insert_self]

theorem getCell_insertCell_of_ne {key' : κ} (hne : key' ≠ key) (scope : σ) (value : α)
    (m : Groups σ κ α) :
    getCell scope key' (insertCell scope key value m) = getCell scope key' m := by
  rw [getCell, insertCell, KeyedList.get_insert_self, Option.bind_some,
    KeyedList.get_insert_of_ne hne, getCell]
  cases KeyedList.get scope m with
  | none => rfl
  | some entries => rfl

theorem wellFormed_insertCell (hm : WellFormed m) (scope : σ) (key : κ) (value : α) :
    WellFormed (insertCell scope key value m) := by
  apply wellFormed_insertGroup hm scope (KeyedList.nodup_keys_insert (keys_getD hm scope) key value)
  intro hnil
  have hmem := KeyedList.mem_of_get
    (KeyedList.get_insert_self key value ((KeyedList.get scope m).getD []))
  rw [hnil] at hmem
  cases hmem

theorem length_cells_insertCell (hm : WellFormed m) (scope : σ) (key : κ) (value : α) :
    (cells (insertCell scope key value m)).length =
      (cells m).length + if (getCell scope key m).isNone then 1 else 0 := by
  rw [(cells_insertCell hm scope key value).length_eq, List.length_cons, getCell_eq_get hm]
  cases h : KeyedList.get (scope, key) (cells m) with
  | none => rw [KeyedList.remove_of_get_eq_none h]; rfl
  | some old => exact KeyedList.length_remove_of_get (nodup_cells hm) h

theorem removeCell_snd (hm : WellFormed m) (cell : σ × κ) :
    (removeCell cell m).2 = (KeyedList.get cell (cells m)).isSome := by
  rw [← getCell_eq_get hm, removeCell, getCell]
  cases KeyedList.get cell.1 m with
  | none => rfl
  | some entries =>
    dsimp only [Option.bind_some]
    cases h : (KeyedList.get cell.2 entries).isSome <;> rfl

theorem cells_removeCell (hm : WellFormed m) (cell : σ × κ) :
    (cells (removeCell cell m).1).Perm (KeyedList.remove cell (cells m)) := by
  by_cases hsome : (KeyedList.get cell (cells m)).isSome = true
  · rw [← getCell_eq_get hm, getCell] at hsome
    have hrest := remove_perm m cell.1 cell.2
    rw [removeCell]
    cases h : KeyedList.get cell.1 m with
    | none => rw [h] at hsome; cases hsome
    | some entries =>
      rw [h, Option.bind_some] at hsome
      rw [groupCells_of_get hm h, ← groupCells_remove] at hrest
      dsimp only
      rw [if_pos hsome]
      dsimp only
      split_ifs with hempty
      · rw [cells_removeGroup]
        rw [List.isEmpty_iff.mp hempty] at hrest
        exact hrest
      · exact (cells_insertGroup hm).trans hrest
  · have hnone : KeyedList.get cell (cells m) = none := by simpa using hsome
    rw [KeyedList.remove_of_get_eq_none hnone]
    rw [← getCell_eq_get hm, getCell] at hnone
    rw [removeCell]
    cases h : KeyedList.get cell.1 m with
    | none => exact List.Perm.refl _
    | some entries =>
      rw [h, Option.bind_some] at hnone
      dsimp only
      rw [hnone]
      exact List.Perm.refl _

theorem wellFormed_removeCell (hm : WellFormed m) (cell : σ × κ) :
    WellFormed (removeCell cell m).1 := by
  rw [removeCell]
  cases h : KeyedList.get cell.1 m with
  | none => exact hm
  | some entries =>
    dsimp only
    split_ifs with hsome hempty
    · exact wellFormed_removeGroup hm cell.1
    · apply wellFormed_insertGroup hm cell.1
      · exact KeyedList.nodup_keys_remove (hm.keys_of_get h) cell.2
      · intro hnil
        exact hempty (List.isEmpty_iff.mpr hnil)
    · exact hm

def removeCells (toRemove : List (σ × κ)) (m : Groups σ κ α) : Groups σ κ α × ℕ :=
  toRemove.foldl (fun acc cell =>
    let (rest, present) := removeCell cell acc.1
    (rest, if present then acc.2 + 1 else acc.2)) (m, 0)

theorem length_removeCell (hm : WellFormed m) (cell : σ × κ) :
    (cells (removeCell cell m).1).length + (if (removeCell cell m).2 then 1 else 0) =
      (cells m).length := by
  rw [(cells_removeCell hm cell).length_eq, removeCell_snd hm]
  cases h : KeyedList.get cell (cells m) with
  | none => rw [KeyedList.remove_of_get_eq_none h]; rfl
  | some value => exact KeyedList.length_remove_of_get (nodup_cells hm) h

theorem removeCells_foldl (toRemove : List (σ × κ)) (hm : WellFormed m) (count : ℕ) :
    let result := toRemove.foldl (fun acc cell =>
      let (rest, present) := removeCell cell acc.1
      (rest, if present then acc.2 + 1 else acc.2)) (m, count)
    WellFormed result.1 ∧
      (cells result.1).Perm ((cells m).filter fun cell => decide (cell.1 ∉ toRemove)) ∧
      (cells result.1).length + result.2 = (cells m).length + count := by
  induction toRemove generalizing m count with
  | nil => exact ⟨hm, by simp, rfl⟩
  | cons cell toRemove ih =>
    obtain ⟨hwell, hperm, hlength⟩ := ih (wellFormed_removeCell hm cell)
      (if (removeCell cell m).2 then count + 1 else count)
    refine ⟨hwell, hperm.trans ?_, ?_⟩
    · refine ((cells_removeCell hm cell).filter _).trans (List.Perm.of_eq ?_)
      rw [KeyedList.remove, List.filter_filter]
      apply List.filter_congr
      intro entry _
      by_cases h : entry.1 = cell <;> simp [bne, h]
    · have hone := length_removeCell hm cell
      rw [List.foldl_cons]
      rw [hlength]
      cases hpresent : (removeCell cell m).2 with
      | true => rw [hpresent] at hone; simp at hone ⊢; omega
      | false => rw [hpresent] at hone; simp at hone ⊢; omega

theorem removeCells_spec (hm : WellFormed m) (toRemove : List (σ × κ)) :
    WellFormed (removeCells toRemove m).1 ∧
      (cells (removeCells toRemove m).1).Perm
        ((cells m).filter fun cell => decide (cell.1 ∉ toRemove)) ∧
      (cells (removeCells toRemove m).1).length + (removeCells toRemove m).2 = (cells m).length :=
  removeCells_foldl toRemove hm 0

end Cell

section Smallest

variable {β R : Type} [LinearOrder R] {rank : β → R} {l l' : List β} {a b : β}

def smallest (rank : β → R) (k : ℕ) (l : List β) : List β :=
  (l.insertionSort fun a b => rank a ≤ rank b).take k

theorem mem_of_mem_smallest {k : ℕ} (h : a ∈ smallest rank k l) : a ∈ l :=
  (List.mem_insertionSort _).mp (List.mem_of_mem_take h)

theorem pairwise_sorted (rank : β → R) (l : List β) :
    (l.insertionSort fun a b => rank a ≤ rank b).Pairwise fun a b => rank a ≤ rank b := by
  have : IsTrans β fun a b => rank a ≤ rank b := ⟨fun _ _ _ => le_trans⟩
  have : Std.Total fun a b => rank a ≤ rank b := ⟨fun a b => le_total (rank a) (rank b)⟩
  exact List.pairwise_insertionSort _ l

theorem rank_le_of_smallest {k : ℕ} (ha : a ∈ smallest rank k l) (hb : b ∈ l)
    (hb' : b ∉ smallest rank k l) : rank a ≤ rank b := by
  have hsorted := pairwise_sorted rank l
  rw [← List.take_append_drop k (l.insertionSort _), List.pairwise_append] at hsorted
  have hdrop : b ∈ (l.insertionSort fun a b => rank a ≤ rank b).drop k := by
    have hmem := (List.mem_insertionSort fun a b => rank a ≤ rank b).mpr hb
    rw [← List.take_append_drop k (l.insertionSort _), List.mem_append] at hmem
    exact hmem.resolve_left hb'
  exact hsorted.2.2 a ha b hdrop

/-- The choice does not depend on the order of the list where ranks are distinct. -/
theorem smallest_perm (hinj : ∀ a ∈ l, ∀ b ∈ l, rank a = rank b → a = b) (h : l.Perm l') (k : ℕ) :
    smallest rank k l = smallest rank k l' := by
  rw [smallest, smallest]
  congr 1
  apply List.Perm.eq_of_pairwise _ (pairwise_sorted rank l) (pairwise_sorted rank l')
  · exact (List.perm_insertionSort _ l).trans (h.trans (List.perm_insertionSort _ l').symm)
  · intro a b ha hb hab hba
    have ha := (List.mem_insertionSort _).mp ha
    have hb := h.mem_iff.mpr ((List.mem_insertionSort _).mp hb)
    exact hinj a ha b hb (le_antisymm hab hba)

/-- Without its `k` smallest elements a list is as much shorter. -/
theorem length_filter_smallest {γ : Type} {f : β → γ} (hnodup : (l.map f).Nodup) {k : ℕ}
    {p : β → Bool} (hp : ∀ a, p a = true ↔ f a ∉ (smallest rank k l).map f) :
    (l.filter p).length = l.length - k := by
  set sorted := l.insertionSort fun a b => rank a ≤ rank b with hsorted
  have hperm : sorted.Perm l := List.perm_insertionSort _ l
  have hkeys : (sorted.map f).Nodup := (hperm.map f).nodup_iff.mpr hnodup
  rw [← List.take_append_drop k sorted, List.map_append, List.nodup_append] at hkeys
  have htaken : (sorted.take k).filter p = [] := by
    rw [List.filter_eq_nil_iff]
    intro a ha
    rw [hp, not_not]
    exact List.mem_map_of_mem ha
  have hdropped : (sorted.drop k).filter p = sorted.drop k := by
    rw [List.filter_eq_self]
    intro a ha
    rw [hp]
    intro hmem
    exact hkeys.2.2 (f a) hmem (f a) (List.mem_map_of_mem ha) rfl
  have hall : sorted.filter p = sorted.drop k := by
    rw [← List.take_append_drop k sorted, List.filter_append, htaken, hdropped, List.nil_append,
      List.take_append_drop]
  rw [← (hperm.filter p).length_eq, hall, List.length_drop, hperm.length_eq]

end Smallest

end KiroProxy.NestedMap
