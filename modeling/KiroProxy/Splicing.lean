import Mathlib.Data.List.Basic
import Mathlib.Data.List.Sort
import Mathlib.Order.Nat

/-!
# Replacing parts of a text

A text is copied with some of its spans replaced, in the order of their starts. Where the text is
cut into pieces that may each be replaced, the copy is made of the same pieces and their
replacements, with all that stands between them unchanged.
-/

namespace KiroProxy.Splicing

variable {α : Type}

/-- A span of a text and what comes in its place. -/
structure Edit (α : Type) where
  start : ℕ
  stop : ℕ
  text : List α
  deriving DecidableEq

def splice (body : List α) : ℕ → List (Edit α) → List α
  | cursor, [] => body.drop cursor
  | cursor, e :: edits =>
    (body.drop cursor).take (e.start - cursor) ++ (e.text ++ splice body e.stop edits)

/-- A part of a text that may be replaced, with what stands in front of it. -/
structure Piece (α : Type) where
  lead : List α
  old : List α
  new : Option (List α)

/-- The text before the replacements. -/
def before : List (Piece α) → List α → List α
  | [], last => last
  | p :: pieces, last => p.lead ++ (p.old ++ before pieces last)

/-- The text after the replacements. -/
def after : List (Piece α) → List α → List α
  | [], last => last
  | p :: pieces, last => p.lead ++ (p.new.getD p.old ++ after pieces last)

def edits : ℕ → List (Piece α) → List (Edit α)
  | _, [] => []
  | offset, p :: pieces =>
    let start := offset + p.lead.length
    let stop := start + p.old.length
    (p.new.map fun text => ⟨start, stop, text⟩).toList ++ edits stop pieces

/-- What is replaced, with its replacement. -/
def changes (pieces : List (Piece α)) : List (List α × List α) :=
  pieces.filterMap fun p => p.new.map fun text => (p.old, text)

theorem splice_edits (pieces : List (Piece α)) (last : List α) {front : List α} {cursor : ℕ}
    (h : cursor ≤ front.length) :
    splice (front ++ before pieces last) cursor (edits front.length pieces) =
      front.drop cursor ++ after pieces last := by
  induction pieces generalizing front cursor with
  | nil => rw [edits, splice, before, after, List.drop_append_of_le_length h]
  | cons p pieces ih =>
    have hbody : front ++ before (p :: pieces) last =
        front ++ p.lead ++ p.old ++ before pieces last := by
      rw [before, List.append_assoc, List.append_assoc]
    have hstart : front.length + p.lead.length = (front ++ p.lead).length :=
      List.length_append.symm
    have hstop : front.length + p.lead.length + p.old.length =
        (front ++ p.lead ++ p.old).length := by
      rw [List.length_append, List.length_append]
    have hdrop (rest : List α) : (front ++ p.lead ++ rest).drop cursor =
        (front ++ p.lead).drop cursor ++ rest :=
      List.drop_append_of_le_length (hstart ▸ Nat.le_add_right_of_le h)
    have hlead : (front ++ p.lead).drop cursor = front.drop cursor ++ p.lead :=
      List.drop_append_of_le_length h
    rw [edits, after, hbody]
    cases hnew : p.new with
    | none =>
      rw [Option.map_none, Option.toList_none, List.nil_append, hstop, ih (by omega),
        Option.getD_none, hdrop, hlead, List.append_assoc, List.append_assoc]
    | some text =>
      have htake : ((front ++ p.lead ++ p.old ++ before pieces last).drop cursor).take
          (front.length + p.lead.length - cursor) = front.drop cursor ++ p.lead := by
        rw [List.append_assoc _ p.old, hdrop, hlead]
        refine List.take_left' ?_
        rw [← hlead, List.length_drop, hstart]
      rw [Option.map_some, Option.toList_some, List.singleton_append, splice, htake, hstop,
        ih le_rfl, List.drop_length, List.nil_append, Option.getD_some, List.append_assoc]

theorem mem_edits_start {pieces : List (Piece α)} {offset : ℕ} {e : Edit α}
    (h : e ∈ edits offset pieces) : offset ≤ e.start := by
  induction pieces generalizing offset with
  | nil => cases h
  | cons p pieces ih =>
    rw [edits] at h
    rcases List.mem_append.mp h with h | h
    · obtain ⟨text, -, rfl⟩ := Option.map_eq_some_iff.mp (Option.mem_toList.mp h)
      exact Nat.le_add_right _ _
    · have hstart := ih h
      omega

theorem pairwise_edits {pieces : List (Piece α)} (h : ∀ p ∈ pieces, p.old ≠ []) (offset : ℕ) :
    (edits offset pieces).Pairwise fun e e' => e.start < e'.start := by
  induction pieces generalizing offset with
  | nil => exact .nil
  | cons p pieces ih =>
    obtain ⟨hold, hrest⟩ := List.forall_mem_cons.mp h
    have hpos := List.length_pos_of_ne_nil hold
    rw [edits]
    refine List.pairwise_append.mpr ⟨?_, ih hrest _, ?_⟩
    · cases p.new with
      | none => exact .nil
      | some text => exact List.pairwise_singleton _ _
    · intro e he e' he'
      obtain ⟨text, -, rfl⟩ := Option.map_eq_some_iff.mp (Option.mem_toList.mp he)
      have hstart := mem_edits_start he'
      dsimp only
      omega

/-- Sorted by their starts, the edits are in the order of their pieces. -/
theorem insertionSort_eq_edits {pieces : List (Piece α)} (h : ∀ p ∈ pieces, p.old ≠ [])
    {offset : ℕ} {collected : List (Edit α)} (hperm : collected.Perm (edits offset pieces)) :
    collected.insertionSort (fun e e' => e.start ≤ e'.start) = edits offset pieces := by
  have hordered := pairwise_edits h offset
  have hsorted := List.pairwise_insertionSort (fun e e' : Edit α => e.start ≤ e'.start) collected
  have hsame := (List.perm_insertionSort (fun e e' : Edit α => e.start ≤ e'.start) collected).trans
    hperm
  have hstarts : ((edits offset pieces).map Edit.start).Nodup :=
    List.pairwise_map.mpr (hordered.imp Nat.ne_of_lt)
  refine List.Perm.eq_of_pairwise (fun e e' he he' hle hle' => ?_) hsorted
    (hordered.imp Nat.le_of_lt) hsame
  exact List.inj_on_of_nodup_map hstarts (hsame.mem_iff.mp he) he' (le_antisymm hle hle')

end KiroProxy.Splicing
