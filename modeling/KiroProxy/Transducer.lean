import Mathlib.Data.List.Basic

/-!
# Transducers

A filter of a stream reads one item after the other, keeps a state and emits any number of items
for each. `run` feeds a list of items and collects what is emitted. `run_of_related` compares two
runs: where related states and related items give equal output and related states, related runs
give equal output.
-/

namespace KiroProxy.Transducer

variable {σ σ' ι ι' ο : Type*}

def run (step : σ → ι → σ × List ο) : σ → List ι → σ × List ο
  | s, [] => (s, [])
  | s, item :: items =>
    let (s', out) := step s item
    let (s'', out') := run step s' items
    (s'', out ++ out')

variable {step : σ → ι → σ × List ο} {step' : σ' → ι' → σ' × List ο}

@[simp] theorem run_nil (s : σ) : run step s [] = (s, []) := rfl

theorem run_cons (s : σ) (item : ι) (items : List ι) :
    run step s (item :: items) =
      ((run step (step s item).1 items).1,
        (step s item).2 ++ (run step (step s item).1 items).2) := rfl

theorem run_singleton (s : σ) (item : ι) : run step s [item] = step s item := by
  rw [run_cons, run_nil, List.append_nil]

theorem run_append (s : σ) (items items' : List ι) :
    run step s (items ++ items') =
      ((run step (run step s items).1 items').1,
        (run step s items).2 ++ (run step (run step s items).1 items').2) := by
  induction items generalizing s with
  | nil => rfl
  | cons item items ih =>
    rw [List.cons_append, run_cons, run_cons, ih]
    simp only [List.append_assoc]

theorem run_of_related {R : σ → σ' → Prop} {Q : ι → ι' → Prop}
    (hstep : ∀ s s' item item', R s s' → Q item item' →
      (step s item).2 = (step' s' item').2 ∧ R (step s item).1 (step' s' item').1)
    {items : List ι} {items' : List ι'} (hitems : List.Forall₂ Q items items') {s : σ} {s' : σ'}
    (hs : R s s') : (run step s items).2 = (run step' s' items').2 ∧
      R (run step s items).1 (run step' s' items').1 := by
  induction hitems generalizing s s' with
  | nil => exact ⟨rfl, hs⟩
  | cons hitem _ ih =>
    obtain ⟨hout, hnext⟩ := hstep _ _ _ _ hs hitem
    obtain ⟨houts, hend⟩ := ih hnext
    exact ⟨congrArg₂ (· ++ ·) hout houts, hend⟩

/-- A run through one state. -/
theorem run_of_fixed {s : σ} {f : ι → List ο} {items : List ι}
    (h : ∀ item ∈ items, step s item = (s, f item)) : run step s items = (s, items.flatMap f) := by
  induction items with
  | nil => rfl
  | cons item items ih =>
    rw [run_cons, h item List.mem_cons_self,
      ih fun item' hitem' => h item' (List.mem_cons_of_mem _ hitem'), List.flatMap_cons]

/-- Items that change nothing and whose output is not kept may be left out. -/
theorem run_of_silent {silent : ι → Bool} {keep : ο → Bool}
    (hstep : ∀ s item, silent item = true →
      (step s item).1 = s ∧ (step s item).2.filter keep = []) (s : σ) (items : List ι) :
    (run step s (items.filter fun item => !silent item)).1 = (run step s items).1 ∧
      (run step s (items.filter fun item => !silent item)).2.filter keep =
        (run step s items).2.filter keep := by
  induction items generalizing s with
  | nil => exact ⟨rfl, rfl⟩
  | cons item items ih =>
    by_cases hsilent : silent item = true
    · obtain ⟨hstate, hout⟩ := hstep s item hsilent
      rw [List.filter_cons_of_neg (by rw [hsilent]; exact Bool.false_ne_true), run_cons, hstate,
        List.filter_append, hout, List.nil_append]
      exact ih s
    · rw [List.filter_cons_of_pos (by rw [Bool.not_eq_true _ |>.mp hsilent]; rfl), run_cons,
        run_cons, List.filter_append, List.filter_append, (ih _).1, (ih _).2]
      exact ⟨rfl, rfl⟩

/-- What every step keeps, a run keeps. -/
theorem run_invariant {Inv : σ → Prop} {items : List ι} (hstep : ∀ s, ∀ item ∈ items, Inv s →
    Inv (step s item).1) {s : σ} (hs : Inv s) : Inv (run step s items).1 := by
  induction items generalizing s with
  | nil => exact hs
  | cons item items ih =>
    exact ih (fun s item' hitem' => hstep s item' (List.mem_cons_of_mem _ hitem'))
      (hstep s item List.mem_cons_self hs)

/-- What is read off the output of every step is read off the output of a run. -/
theorem run_output_map {κ : Type*} {f : List ο → List κ} {g : ι → List κ}
    (happend : ∀ out out', f (out ++ out') = f out ++ f out') (hnil : f [] = [])
    (hstep : ∀ s item, f (step s item).2 = g item) (s : σ) (items : List ι) :
    f (run step s items).2 = items.flatMap g := by
  induction items generalizing s with
  | nil => exact hnil
  | cons item items ih => rw [run_cons, happend, hstep, ih, List.flatMap_cons]

end KiroProxy.Transducer
