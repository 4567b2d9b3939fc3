import Mathlib.Data.List.Basic

/-!
# Runs of guarded transition systems

A step is a partial function of a state and an action: it is undefined where the
action is not enabled. A run takes a list of actions, one interleaving of all parties.
A loop whose body can fail is a run that stops at its first error.
-/

namespace KiroProxy.Transition

variable {σ α : Type*} {step : σ → α → Option σ}

def run (step : σ → α → Option σ) : σ → List α → Option σ
  | s, [] => some s
  | s, a :: as => (step s a).bind fun s' => run step s' as

variable {as : List α} {s t : σ}

theorem run_cons_eq_some {a : α} :
    run step s (a :: as) = some t ↔ ∃ s', step s a = some s' ∧ run step s' as = some t :=
  Option.bind_eq_some_iff

theorem run_append_eq_some {as bs : List α} :
    run step s (as ++ bs) = some t ↔ ∃ s', run step s as = some s' ∧ run step s' bs = some t := by
  induction as generalizing s with
  | nil => simp [run]
  | cons a as ih =>
    rw [List.cons_append, run_cons_eq_some]
    simp only [run_cons_eq_some, ih]
    constructor
    · rintro ⟨s', hs', s'', hs'', ht⟩
      exact ⟨s'', ⟨s', hs', hs''⟩, ht⟩
    · rintro ⟨s'', ⟨s', hs', hs''⟩, ht⟩
      exact ⟨s', hs', s'', hs'', ht⟩

theorem run_singleton {a : α} : run step s [a] = some t ↔ step s a = some t := by
  simp [run]

/-- An invariant that every admitted step keeps holds after every run of such steps. -/
theorem run_invariant {Inv : σ → Prop} (Admitted : α → Prop)
    (hstep : ∀ s a t, Admitted a → Inv s → step s a = some t → Inv t) {s t : σ}
    (has : ∀ a ∈ as, Admitted a) (hs : Inv s) (h : run step s as = some t) : Inv t := by
  induction as generalizing s with
  | nil =>
    cases h
    exact hs
  | cons a as ih =>
    obtain ⟨s', hs', ht⟩ := run_cons_eq_some.mp h
    exact ih (fun b hb => has b (List.mem_cons_of_mem a hb))
      (hstep s a s' (has a List.mem_cons_self) hs hs') ht

/-- A condition on state and action that holds at every step of a run. -/
def Along (step : σ → α → Option σ) (P : σ → α → Prop) : σ → List α → Prop
  | _, [] => True
  | s, a :: as => P s a ∧ ∀ t ∈ step s a, Along step P t as

instance Along.decidable (step : σ → α → Option σ) (P : σ → α → Prop)
    [∀ s a, Decidable (P s a)] : ∀ s as, Decidable (Along step P s as)
  | _, [] => isTrue trivial
  | s, a :: as =>
    have := fun t => Along.decidable step P t as
    inferInstanceAs (Decidable (P s a ∧ ∀ t ∈ step s a, Along step P t as))

theorem along_of_forall {P : σ → α → Prop} (h : ∀ s a, P s a) (s : σ) (as : List α) :
    Along step P s as := by
  induction as generalizing s with
  | nil => trivial
  | cons a as ih => exact ⟨h s a, fun t _ => ih t⟩

theorem along_forall_iff {ι : Type*} {P : ι → σ → α → Prop} :
    Along step (fun s a => ∀ i, P i s a) s as ↔ ∀ i, Along step (P i) s as := by
  induction as generalizing s with
  | nil => exact ⟨fun _ _ => trivial, fun _ => trivial⟩
  | cons a as ih =>
    constructor
    · exact fun h i => ⟨h.1 i, fun t ht => ih.mp (h.2 t ht) i⟩
    · exact fun h => ⟨fun i => (h i).1, fun t ht => ih.mpr fun i => (h i).2 t ht⟩

theorem along_and_of_forall {P : σ → α → Prop} {Q : α → Prop}
    (h : Along step P s as) (has : ∀ a ∈ as, Q a) :
    Along step (fun s a => Q a ∧ P s a) s as := by
  induction as generalizing s with
  | nil => trivial
  | cons a as ih =>
    exact ⟨⟨has a List.mem_cons_self, h.1⟩, fun t ht =>
      ih (h.2 t ht) fun b hb => has b (List.mem_cons_of_mem a hb)⟩

/-- Where a step from a good state leads to a good one if and only if it meets a condition,
all states of a run are good if and only if all its steps meet the condition. -/
theorem along_good_iff {Domain P : σ → α → Prop} {Inv Good : σ → Prop}
    (hinv : ∀ s a t, Domain s a → Inv s → step s a = some t → Inv t)
    (hstep : ∀ s a, Domain s a → Inv s → Good s → ((∀ t ∈ step s a, Good t) ↔ P s a))
    (has : Along step Domain s as) (hs : Inv s) (hgood : Good s) :
    Along step (fun s a => ∀ t ∈ step s a, Good t) s as ↔ Along step P s as := by
  induction as generalizing s with
  | nil => exact Iff.rfl
  | cons a as ih =>
    have hiff := hstep s a has.1 hs hgood
    have hrest (t : σ) (ht : Good t) (hst : step s a = some t) :=
      ih (has.2 t hst) (hinv s a t has.1 hs hst) ht
    constructor
    · exact fun h => ⟨hiff.mp h.1, fun t hst => (hrest t (h.1 t hst) hst).mp (h.2 t hst)⟩
    · exact fun h => ⟨hiff.mpr h.1, fun t hst => (hrest t (hiff.mpr h.1 t hst) hst).mpr (h.2 t hst)⟩

theorem along_append {P : σ → α → Prop} {as bs : List α}
    (h : Along step P s (as ++ bs)) (hrun : run step s as = some t) :
    Along step P s as ∧ Along step P t bs := by
  induction as generalizing s with
  | nil =>
    cases hrun
    exact ⟨trivial, h⟩
  | cons a as ih =>
    obtain ⟨s', hs', hrun⟩ := run_cons_eq_some.mp hrun
    obtain ⟨has, hbs⟩ := ih (h.2 s' hs') hrun
    refine ⟨⟨h.1, ?_⟩, hbs⟩
    intro s'' hs''
    cases hs'.symm.trans hs''
    exact has

/-- An invariant that is kept by the steps that meet a condition holds after every run of
such steps. -/
theorem run_invariant_along {Inv : σ → Prop} {P : σ → α → Prop}
    (hstep : ∀ s a t, P s a → Inv s → step s a = some t → Inv t) {s t : σ}
    (has : Along step P s as) (hs : Inv s) (h : run step s as = some t) : Inv t := by
  induction as generalizing s with
  | nil =>
    cases h
    exact hs
  | cons a as ih =>
    obtain ⟨s', hs', ht⟩ := run_cons_eq_some.mp h
    exact ih (has.2 s' hs') (hstep s a s' has.1 hs hs') ht

/-- A run either meets a condition at every step and keeps what the condition keeps, or misses
it at some step and keeps what that leaves behind. -/
theorem run_along_or {P : σ → α → Prop} {Good Bad : σ → Prop}
    (hgood : ∀ s a t, Good s → P s a → step s a = some t → Good t)
    (hbad : ∀ s a t, Good s → ¬ P s a → step s a = some t → Bad t)
    (hstays : ∀ s a t, Bad s → step s a = some t → Bad t) {s t : σ}
    (hs : Good s) (h : run step s as = some t) :
    (Along step P s as ∧ Good t) ∨ (¬ Along step P s as ∧ Bad t) := by
  induction as generalizing s with
  | nil =>
    cases h
    exact .inl ⟨trivial, hs⟩
  | cons a as ih =>
    obtain ⟨s', hs', ht⟩ := run_cons_eq_some.mp h
    by_cases hP : P s a
    · have hiff : Along step P s (a :: as) ↔ Along step P s' as :=
        ⟨fun halong => halong.2 s' hs', fun halong => ⟨hP, fun s'' hs'' => by
          cases hs'.symm.trans hs''
          exact halong⟩⟩
      rw [hiff]
      exact ih (hgood s a s' hs hP hs') ht
    · have hrest : Bad t := run_invariant (fun _ => True) (fun s a t _ => hstays s a t)
        (fun _ _ => trivial) (hbad s a s' hs hP hs') ht
      exact .inr ⟨fun halong => hP halong.1, hrest⟩

section Fallible

variable {ε σ α β : Type}

theorem exists_of_bind_eq_ok {x : Except ε α} {f : α → Except ε β} {r : β}
    (h : (x >>= f) = .ok r) : ∃ a, x = .ok a ∧ f a = .ok r := by
  cases x with
  | error e => cases h
  | ok a => exact ⟨a, rfl, h⟩

theorem foldlM_invariant {body : σ → α → Except ε σ} {P : σ → Prop}
    (hbody : ∀ s a t, P s → body s a = .ok t → P t) {s t : σ} {as : List α} (hs : P s)
    (h : as.foldlM body s = .ok t) : P t := by
  induction as generalizing s with
  | nil =>
    cases h
    exact hs
  | cons a as ih =>
    rw [List.foldlM_cons] at h
    obtain ⟨s', hs', h⟩ := exists_of_bind_eq_ok h
    exact ih (hbody s a s' hs hs') h

end Fallible

end KiroProxy.Transition
