import Mathlib.Data.List.Induction
import Mathlib.Data.List.Sort

/-!
# Bounded insertion

The first elements of a list in the order of their ranks, found in one pass: every element is put
in front of the first one that ranks above it, and what goes beyond the bound is dropped.
-/

namespace KiroProxy.BoundedInsertion

variable {α β : Type*} [LinearOrder β] (rank : α → β) (bound : ℕ)

def insert (top : List α) (a : α) : List α :=
  let insertAt := top.findIdx fun b => rank a < rank b
  if insertAt < bound then
    let top := top.insertIdx insertAt a
    if bound < top.length then top.dropLast else top
  else top

def select (as : List α) : List α := as.foldl (insert rank bound) []

variable {rank} {bound}

theorem insertIdx_findIdx (top : List α) (a : α) :
    top.insertIdx (top.findIdx fun b => rank a < rank b) a =
      top.orderedInsert (fun a b => rank a < rank b) a := by
  induction top with
  | nil => rfl
  | cons b top ih =>
    by_cases h : rank a < rank b
    · rw [List.orderedInsert_cons_of_le _ top h, List.findIdx_cons, decide_eq_true h]
      rfl
    · rw [List.orderedInsert_of_not_le _ top h, List.findIdx_cons, decide_eq_false h]
      exact congrArg (b :: ·) ih

theorem insert_eq_take {top : List α} (h : top.length ≤ bound) (a : α) :
    insert rank bound top a =
      (top.orderedInsert (fun a b => rank a < rank b) a).take bound := by
  have hlength := List.orderedInsert_length (fun a b => rank a < rank b) top a
  unfold insert
  dsimp only
  rw [insertIdx_findIdx]
  by_cases hat : top.findIdx (fun b => rank a < rank b) < bound
  · rw [if_pos hat]
    by_cases hlt : bound < (top.orderedInsert (fun a b => rank a < rank b) a).length
    · rw [if_pos hlt, List.dropLast_eq_take]
      congr 1
      omega
    · rw [if_neg hlt, List.take_of_length_le (Nat.le_of_not_lt hlt)]
  · -- All elements rank below, and there is no room.
    have hle : top.findIdx (fun b => rank a < rank b) ≤ top.length := List.findIdx_le_length
    have hend : top.findIdx (fun b => rank a < rank b) = top.length := by omega
    rw [if_neg hat, ← insertIdx_findIdx, hend, List.insertIdx_length_self,
      List.take_append_of_le_length (by omega), List.take_of_length_le h]

/-- What is dropped does not come back. -/
theorem take_orderedInsert (r : α → α → Prop) [DecidableRel r] (a : α) (top : List α)
    (bound : ℕ) :
    ((top.take bound).orderedInsert r a).take bound = (top.orderedInsert r a).take bound := by
  induction top generalizing bound with
  | nil => rw [List.take_nil]
  | cons b top ih =>
    cases bound with
    | zero => rw [List.take_zero, List.take_zero]
    | succ bound =>
      rw [List.take_succ_cons]
      by_cases h : r a b
      · rw [List.orderedInsert_cons_of_le _ _ h, List.orderedInsert_cons_of_le _ _ h,
          List.take_succ_cons, List.take_succ_cons]
        congr 1
        cases bound with
        | zero => rfl
        | succ bound => rw [List.take_succ_cons, List.take_succ_cons, List.take_take,
            min_eq_left (Nat.le_succ bound)]
      · rw [List.orderedInsert_of_not_le _ _ h, List.orderedInsert_of_not_le _ _ h,
          List.take_succ_cons, List.take_succ_cons, ih]

theorem foldl_insert (as top : List α) :
    as.foldl (insert rank bound) (top.take bound) =
      (as.foldl (fun top a => top.orderedInsert (fun a b => rank a < rank b) a) top).take
        bound := by
  induction as generalizing top with
  | nil => rfl
  | cons a as ih =>
    rw [List.foldl_cons, List.foldl_cons, insert_eq_take (List.length_take_le bound top),
      take_orderedInsert, ih]

/-- Without ties the strict order inserts at the same place. -/
theorem orderedInsert_lt_eq_le {top : List α} {a : α} (h : ∀ b ∈ top, rank a ≠ rank b) :
    top.orderedInsert (fun a b => rank a < rank b) a =
      top.orderedInsert (fun a b => rank a ≤ rank b) a := by
  induction top with
  | nil => rfl
  | cons b top ih =>
    rw [List.forall_mem_cons] at h
    rw [List.orderedInsert_cons, List.orderedInsert_cons, ih h.2]
    exact if_congr (lt_iff_le_and_ne.trans (and_iff_left h.1)) rfl rfl

local instance total_rank : Std.Total fun a b : α => rank a ≤ rank b :=
  ⟨fun a b => le_total (rank a) (rank b)⟩

local instance trans_rank : IsTrans α fun a b => rank a ≤ rank b := ⟨fun _ _ _ => le_trans⟩

/-- Elements of distinct ranks have one order. -/
theorem insertionSort_perm {as as' : List α} (hperm : as.Perm as') (h : (as.map rank).Nodup) :
    as.insertionSort (fun a b => rank a ≤ rank b) =
      as'.insertionSort fun a b => rank a ≤ rank b := by
  refine @List.Perm.eq_of_pairwise _ (fun a b => rank a ≤ rank b) _ _ ?_
    (List.pairwise_insertionSort _ as) (List.pairwise_insertionSort _ as')
    ((List.perm_insertionSort _ as).trans
      (hperm.trans (List.perm_insertionSort _ as').symm))
  intro a b ha hb hab hba
  rw [List.mem_insertionSort] at ha hb
  exact List.inj_on_of_nodup_map h ha (hperm.mem_iff.mpr hb) (hab.antisymm hba)

theorem foldl_orderedInsert {as : List α} (h : (as.map rank).Nodup) :
    as.foldl (fun top a => top.orderedInsert (fun a b => rank a < rank b) a) [] =
      as.insertionSort fun a b => rank a ≤ rank b := by
  induction as using List.reverseRecOn with
  | nil => rfl
  | append_singleton as a ih =>
    have hperm : (as ++ [a]).Perm (a :: as) := List.perm_append_comm
    have hnodup : ((a :: as).map rank).Nodup := (hperm.map rank).nodup_iff.mp h
    rw [insertionSort_perm hperm h, List.foldl_append, List.foldl_cons, List.foldl_nil,
      ih (List.nodup_cons.mp hnodup).2, List.insertionSort_cons]
    refine orderedInsert_lt_eq_le fun b hb heq => ?_
    rw [List.mem_insertionSort] at hb
    exact (List.nodup_cons.mp hnodup).1 (heq ▸ List.mem_map_of_mem hb)

/-- The elements of the lowest ranks, in their order. -/
theorem select_eq_take {as : List α} (h : (as.map rank).Nodup) :
    select rank bound as = (as.insertionSort fun a b => rank a ≤ rank b).take bound := by
  rw [← foldl_orderedInsert h, ← foldl_insert, List.take_nil]
  rfl

end KiroProxy.BoundedInsertion
