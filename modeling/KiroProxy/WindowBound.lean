import Mathlib

/-!
# Sliding windows over a log of weights

A log holds weights with the times they were recorded at, in the order they were recorded. It is
`Bounded` when no closed window of the given length holds more than the limit, wherever the window
starts. One record keeps the bound if it fits beside everything that is not older than a window
before it; the log need not be sorted for this.

A sorted log forgets its oldest times from the front. `dropWhile_eq_filter` and `countP_dropWhile`
say what is left and what is still counted right.
-/

namespace KiroProxy.WindowBound

section Bounded

variable {τ : Type*}

/-- The weight of the records that satisfy `p`. -/
def weightOf (p : τ → Bool) (log : List (τ × ℕ)) : ℕ :=
  ((log.filter fun record => p record.1).map Prod.snd).sum

@[simp] theorem weightOf_nil (p : τ → Bool) : weightOf p [] = 0 := rfl

theorem weightOf_append (p : τ → Bool) (log log' : List (τ × ℕ)) :
    weightOf p (log ++ log') = weightOf p log + weightOf p log' := by
  rw [weightOf, List.filter_append, List.map_append, List.sum_append]
  rfl

theorem weightOf_singleton (p : τ → Bool) (time : τ) (weight : ℕ) :
    weightOf p [(time, weight)] = if p time then weight else 0 := by
  cases hp : p time with
  | false => simp [weightOf, hp]
  | true => simp [weightOf, hp]

theorem weightOf_mono {p q : τ → Bool} (h : ∀ time, p time → q time) (log : List (τ × ℕ)) :
    weightOf p log ≤ weightOf q log := by
  refine ((List.monotone_filter_right log ?_).map Prod.snd).sum_le_sum fun _ _ => Nat.zero_le _
  intro record
  exact h record.1

variable [AddCommMonoid τ] [PartialOrder τ] [DecidableLE τ]
variable {window : τ} {limit : ℕ} {log : List (τ × ℕ)}

def Bounded (window : τ) (limit : ℕ) (log : List (τ × ℕ)) : Prop :=
  ∀ start, weightOf (fun time => decide (start ≤ time ∧ time ≤ start + window)) log ≤ limit

theorem Bounded.nil : Bounded window limit [] := fun _ => Nat.zero_le _

theorem Bounded.append_singleton [IsOrderedAddMonoid τ] (hlog : Bounded window limit log) {time : τ}
    {weight : ℕ}
    (hfits : weightOf (fun time' => decide (time ≤ time' + window)) log + weight ≤ limit) :
    Bounded window limit (log ++ [(time, weight)]) := by
  intro start
  rw [weightOf_append, weightOf_singleton]
  by_cases hin : start ≤ time ∧ time ≤ start + window
  · rw [if_pos (decide_eq_true hin)]
    -- A window that holds the new record starts less than its length before it.
    have hmono := weightOf_mono (p := fun time' => decide (start ≤ time' ∧ time' ≤ start + window))
      (q := fun time' => decide (time ≤ time' + window)) (fun time' htime' =>
        decide_eq_true (hin.2.trans (add_le_add_left (of_decide_eq_true htime').1 window))) log
    exact (Nat.add_le_add_right hmono weight).trans hfits
  · rw [if_neg (by simpa using hin), Nat.add_zero]
    exact hlog start

end Bounded

section Sorted

variable {τ : Type*} {p : τ → Bool} {times : List τ}

/-- The elements in front that satisfy a predicate which holds of every earlier element too are all
elements that satisfy it. -/
theorem dropWhile_eq_filter [Preorder τ] (hp : ∀ a b, a ≤ b → p b → p a)
    (hsorted : times.Pairwise (· ≤ ·)) :
    times.dropWhile p = times.filter fun time => !p time := by
  induction times with
  | nil => rfl
  | cons time times ih =>
    obtain ⟨hfirst, hrest⟩ := List.pairwise_cons.mp hsorted
    cases hpt : p time with
    | true =>
      rw [List.dropWhile_cons_of_pos hpt, List.filter_cons_of_neg (by simp [hpt]), ih hrest]
    | false =>
      have hnone : ∀ time' ∈ time :: times, (!p time') = true := by
        intro time' hmem
        rcases List.mem_cons.mp hmem with rfl | hmem
        · rw [hpt]; rfl
        · cases hpt' : p time' with
          | false => rfl
          | true => rw [hp _ _ (hfirst _ hmem) hpt'] at hpt; cases hpt
      rw [List.dropWhile_cons_of_neg (by simp [hpt]), List.filter_eq_self.mpr hnone]

/-- What falls from the front was not counted. -/
theorem countP_dropWhile {q : τ → Bool} (hpq : ∀ time, p time → q time = false) (times : List τ) :
    (times.dropWhile p).countP q = times.countP q := by
  induction times with
  | nil => rfl
  | cons time times ih =>
    cases hpt : p time with
    | false => rw [List.dropWhile_cons_of_neg (by simp [hpt])]
    | true =>
      rw [List.dropWhile_cons_of_pos hpt, ih, List.countP_cons_of_neg (by simp [hpq time hpt])]

end Sorted

end KiroProxy.WindowBound
