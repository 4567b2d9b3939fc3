import Mathlib.Data.List.Basic

/-!
# Parties over a shared state

Any number of parties act on one shared state. Each party stands at some place of its
program, and an atomic step of a party changes the shared state and moves that party only.
-/

namespace KiroProxy.Parties

variable {σ π : Type*}

structure System (σ π : Type*) where
  shared : σ
  parties : List π
  deriving DecidableEq, Repr

def System.join (s : System σ π) (p : π) : System σ π := { s with parties := s.parties ++ [p] }

/-- Party number `i` takes a step. -/
def System.act (f : σ → π → Option (σ × π)) (s : System σ π) (i : ℕ) : Option (System σ π) :=
  match s.parties[i]? with
  | some p => (f s.shared p).map fun (shared, p') => ⟨shared, s.parties.set i p'⟩
  | none => none

theorem System.act_eq_some {f : σ → π → Option (σ × π)} {s t : System σ π} {i : ℕ}
    (h : s.act f i = some t) :
    ∃ p shared p', s.parties[i]? = some p ∧ f s.shared p = some (shared, p') ∧
      t = ⟨shared, s.parties.set i p'⟩ := by
  unfold act at h
  cases hp : s.parties[i]? with
  | none => simp [hp] at h
  | some p =>
    rw [hp] at h
    obtain ⟨⟨shared, p'⟩, hstep, rfl⟩ := Option.map_eq_some_iff.mp h
    exact ⟨p, shared, p', rfl, hstep, rfl⟩

section Replace

variable {l : List π} {i : ℕ} {a b x : π}

/-- Another party stays where it is. -/
theorem mem_set_or_eq (h : l[i]? = some a) (hx : x ∈ l) : x ∈ l.set i b ∨ x = a := by
  obtain ⟨j, hj⟩ := List.mem_iff_getElem?.mp hx
  by_cases hij : i = j
  · subst hij
    exact Or.inr (Option.some.inj (hj.symm.trans h))
  · left
    apply List.mem_of_getElem? (i := j)
    rw [List.getElem?_set_ne hij, hj]

theorem mem_set_self (h : l[i]? = some a) : b ∈ l.set i b :=
  List.mem_set (List.getElem?_eq_some_iff.mp h).1 b

theorem forall_mem_set {P : π → Prop} (hl : ∀ x ∈ l, P x) (hb : P b) : ∀ x ∈ l.set i b, P x :=
  fun x hx => (List.mem_or_eq_of_mem_set hx).elim (hl x) fun heq => heq ▸ hb

/-- The count changes by what the moved party contributes. -/
theorem countP_set_add (p : π → Bool) (h : l[i]? = some a) :
    (l.set i b).countP p + (p a).toNat = l.countP p + (p b).toNat := by
  induction l generalizing i with
  | nil => cases h
  | cons head l ih =>
    cases i with
    | zero =>
      cases h
      rw [List.set_cons_zero, List.countP_cons, List.countP_cons]
      cases p a <;> cases p b <;> simp
    | succ i =>
      rw [List.set_cons_succ, List.countP_cons, List.countP_cons]
      have hcount := ih (i := i) h
      omega

/-- The party that moves and the others, before the move and after it. -/
theorem exists_perm_set (h : l[i]? = some a) :
    ∃ rest, l.Perm (a :: rest) ∧ ∀ b, (l.set i b).Perm (b :: rest) := by
  induction l generalizing i with
  | nil => cases h
  | cons head l ih =>
    cases i with
    | zero =>
      cases h
      exact ⟨l, .refl _, fun b => .refl _⟩
    | succ i =>
      obtain ⟨rest, hperm, hset⟩ := ih (i := i) h
      refine ⟨head :: rest, ?_, fun b => ?_⟩
      · exact (hperm.cons head).trans (.swap a head rest)
      · exact ((hset b).cons head).trans (.swap b head rest)

end Replace

end KiroProxy.Parties
