import Mathlib.Logic.Basic

/-!
# Programs with a state that can fail

A program changes a state and returns a value or fails; what it changed before it failed
stays. `Ensures` asks for one condition where it returns and for another where it fails.
-/

namespace KiroProxy

abbrev Fallible (σ ε α : Type) := ExceptT ε (StateM σ) α

namespace Fallible

variable {σ ε α β : Type}

def exec (p : Fallible σ ε α) (s : σ) : Except ε α × σ := StateT.run (ExceptT.run p) s

def Ends (Q : α → σ → Prop) (E : σ → Prop) : Except ε α × σ → Prop
  | (.ok a, s) => Q a s
  | (.error _, s) => E s

def Ensures (P : σ → Prop) (p : Fallible σ ε α) (Q : α → σ → Prop) (E : σ → Prop) : Prop :=
  ∀ s, P s → Ends Q E (p.exec s)

variable {P P' : σ → Prop} {Q Q' : α → σ → Prop} {R : β → σ → Prop} {E : σ → Prop}

theorem Ends.mono {r : Except ε α × σ} (h : Ends Q E r) (hQ : ∀ a s, Q a s → Q' a s) :
    Ends Q' E r := by
  obtain ⟨result, s⟩ := r
  cases result with
  | error e => exact h
  | ok a => exact hQ a s h

theorem Ensures.mono {p : Fallible σ ε α} (h : Ensures P p Q E) (hP : ∀ s, P' s → P s)
    (hQ : ∀ a s, Q a s → Q' a s) : Ensures P' p Q' E :=
  fun s hs => (h s (hP s hs)).mono hQ

theorem ensures_pure {a : α} (h : ∀ s, P s → Q a s) :
    Ensures P (pure a : Fallible σ ε α) Q E :=
  fun s hs => h s hs

theorem ensures_throw {e : ε} (h : ∀ s, P s → E s) :
    Ensures P (throw e : Fallible σ ε α) Q E :=
  fun s hs => h s hs

theorem ensures_get {Q : σ → σ → Prop} (h : ∀ s, P s → Q s s) :
    Ensures P (get : Fallible σ ε σ) Q E :=
  fun s hs => h s hs

theorem ensures_modify {f : σ → σ} {Q : PUnit → σ → Prop} (h : ∀ s, P s → Q ⟨⟩ (f s)) :
    Ensures P (modify f : Fallible σ ε PUnit) Q E :=
  fun s hs => h s hs

theorem exec_bind (p : Fallible σ ε α) (f : α → Fallible σ ε β) (s : σ) :
    (p >>= f).exec s =
      match p.exec s with
      | (.ok a, t) => (f a).exec t
      | (.error e, t) => (.error e, t) := by
  simp only [exec, ExceptT.run_bind, StateT.run_bind]
  change (match StateT.run (ExceptT.run p) s with
    | (result, t) => StateT.run (match result with
      | .ok a => ExceptT.run (f a)
      | .error e => pure (.error e)) t) = _
  rcases StateT.run (ExceptT.run p) s with ⟨result, t⟩
  cases result <;> rfl

/-- The rule for programs one after the other. -/
theorem Ensures.bind {p : Fallible σ ε α} {f : α → Fallible σ ε β} (hp : Ensures P p Q E)
    (hf : ∀ a, Ensures (Q a) (f a) R E) : Ensures P (p >>= f) R E := by
  intro s hs
  have hend := hp s hs
  rw [exec_bind]
  rcases hrun : p.exec s with ⟨result, t⟩
  rw [hrun] at hend
  cases result with
  | error e => exact hend
  | ok a => exact hf a t hend

end Fallible

end KiroProxy
