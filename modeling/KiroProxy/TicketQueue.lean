import Mathlib.Data.Finset.Insert
import Mathlib.Data.Finset.Erase
import Mathlib.Order.Nat

/-!
# Tickets that can be handed back

Tickets are numbered in the order they are issued, and one counter says which is served. A ticket
that is handed back out of turn is kept in a set, and the counter passes over it later. `Split`
says that the tickets from the counter to the next one to issue are the live ones and the
cancelled ones, each once; where the counter is on no cancelled ticket, it is on the smallest
live one.
-/

namespace KiroProxy.TicketQueue

structure Split (serving next : ℕ) (cancelled : Finset ℕ) (live : List ℕ) : Prop where
  le : serving ≤ next
  nodup : live.Nodup
  mem_iff : ∀ ticket, (serving ≤ ticket ∧ ticket < next) ↔ ticket ∈ live ∨ ticket ∈ cancelled
  disjoint : ∀ ticket ∈ live, ticket ∉ cancelled

variable {serving next : ℕ} {cancelled : Finset ℕ} {live live' : List ℕ} {ticket : ℕ}

theorem Split.empty (ticket : ℕ) : Split ticket ticket ∅ [] where
  le := le_rfl
  nodup := List.nodup_nil
  mem_iff := by simp
  disjoint := by simp

theorem Split.perm (h : Split serving next cancelled live) (hperm : live.Perm live') :
    Split serving next cancelled live' where
  le := h.le
  nodup := hperm.nodup h.nodup
  mem_iff ticket := by rw [h.mem_iff, hperm.mem_iff]
  disjoint ticket hmem := h.disjoint ticket (hperm.mem_iff.mpr hmem)

theorem Split.issue (h : Split serving next cancelled live) :
    Split serving (next + 1) cancelled (next :: live) := by
  have hnew : ¬ (next ∈ live ∨ next ∈ cancelled) := by
    rw [← h.mem_iff]
    omega
  rw [not_or] at hnew
  have hle := h.le
  refine ⟨by omega, List.nodup_cons.mpr ⟨hnew.1, h.nodup⟩, ?_, ?_⟩
  · intro ticket
    rw [List.mem_cons, or_assoc, ← h.mem_iff]
    omega
  · intro ticket hmem
    rcases List.mem_cons.mp hmem with rfl | hmem
    · exact hnew.2
    · exact h.disjoint ticket hmem

/-- A ticket is handed back out of turn. -/
theorem Split.cancel (h : Split serving next cancelled (ticket :: live)) :
    Split serving next (insert ticket cancelled) live := by
  obtain ⟨hnew, hnodup⟩ := List.nodup_cons.mp h.nodup
  refine ⟨h.le, hnodup, ?_, ?_⟩
  · intro other
    rw [h.mem_iff, List.mem_cons, Finset.mem_insert]
    tauto
  · intro other hmem hin
    rcases Finset.mem_insert.mp hin with rfl | hin
    · exact hnew hmem
    · exact h.disjoint other (List.mem_cons_of_mem _ hmem) hin

/-- The ticket that is served is handed back. -/
theorem Split.serve (h : Split serving next cancelled (serving :: live)) :
    Split (serving + 1) next cancelled live := by
  obtain ⟨hnew, hnodup⟩ := List.nodup_cons.mp h.nodup
  have hin := (h.mem_iff serving).mpr (.inl List.mem_cons_self)
  refine ⟨hin.2, hnodup, ?_, ?_⟩
  · intro other
    have hiff := h.mem_iff other
    rw [List.mem_cons] at hiff
    by_cases heq : other = serving
    · subst heq
      have hcancelled := h.disjoint other List.mem_cons_self
      exact iff_of_false (by omega) (by tauto)
    · rw [or_iff_right heq] at hiff
      rw [← hiff]
      omega
  · exact fun other hmem => h.disjoint other (List.mem_cons_of_mem _ hmem)

/-- The counter passes over a cancelled ticket. -/
theorem Split.skip (h : Split serving next cancelled live) (hmem : serving ∈ cancelled) :
    Split (serving + 1) next (cancelled.erase serving) live := by
  have hin := (h.mem_iff serving).mpr (.inr hmem)
  refine ⟨hin.2, h.nodup, ?_, ?_⟩
  · intro other
    rw [Finset.mem_erase]
    by_cases heq : other = serving
    · subst heq
      have hlive : other ∉ live := fun hlive => h.disjoint other hlive hmem
      exact iff_of_false (by omega) (by tauto)
    · rw [and_iff_right heq, ← h.mem_iff]
      omega
  · exact fun other hother hin => h.disjoint other hother (Finset.mem_of_mem_erase hin)

theorem Split.serving_le (h : Split serving next cancelled live) (hmem : ticket ∈ live) :
    serving ≤ ticket := ((h.mem_iff ticket).mpr (.inl hmem)).1

theorem Split.lt_next (h : Split serving next cancelled live) (hmem : ticket ∈ live) :
    ticket < next := ((h.mem_iff ticket).mpr (.inl hmem)).2

theorem Split.serving_mem (h : Split serving next cancelled live) (hserving : serving ∉ cancelled)
    (hmem : ticket ∈ live) : serving ∈ live := by
  have hlt := h.lt_next hmem
  have hle := h.serving_le hmem
  exact ((h.mem_iff serving).mp ⟨le_rfl, by omega⟩).resolve_right hserving

end KiroProxy.TicketQueue
