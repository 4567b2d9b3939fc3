import KiroProxy.Transition
import Mathlib.Logic.Function.Basic
import Mathlib.Tactic.SplitIfs

/-!
# Updates of the runtime configuration

An update reads the configuration that is installed, edits its copy and validates it, saves the
copy and installs it; the change of the load balancing mode copies, edits and swaps at once and
saves nothing. Two updates run side by side.
-/

namespace KiroProxy.RuntimeConfig

/-- The fields that are saved, and the path that the running process does not keep. -/
structure Config (Field Value : Type) where
  fields : Field → Value
  configPath : Option (List Char)

/-- An edit of some fields of a configuration, which reads no others. -/
structure Update (Field Value : Type) where
  apply : (Field → Value) → Field → Value
  footprint : List Field
  frame : ∀ fields f, f ∉ footprint → apply fields f = fields f
  reads : ∀ {fields fields'}, (∀ f ∈ footprint, fields f = fields' f) →
    ∀ f ∈ footprint, apply fields f = apply fields' f

variable {Field Value : Type}

def Update.set [DecidableEq Field] (field : Field) (value : Value) : Update Field Value where
  apply fields := Function.update fields field value
  footprint := [field]
  frame fields f hf := Function.update_of_ne (fun heq => hf (List.mem_singleton.mpr heq)) _ _
  reads := by
    intro fields fields' _ f hf
    rw [List.mem_singleton.mp hf, Function.update_self, Function.update_self]

inductive Operation (Field Value : Type)
  | updateRuntimeConfig (update : Update Field Value)
  | updateLoadBalancingMode (mode : Value)

def Operation.isRuntimeConfig : Operation Field Value → Bool
  | .updateRuntimeConfig _ => true
  | .updateLoadBalancingMode _ => false

inductive Progress (Field Value : Type)
  | start
  | read (updated : Config Field Value)
  | saved (updated : Config Field Value)
  | done
  | failed

/-- `store` has the configuration that was saved last, if there is a store. -/
structure System (Field Value : Type) where
  installed : Config Field Value
  store : Option (Config Field Value)
  progress : Bool → Progress Field Value

def new (installed : Config Field Value) (store : Option (Config Field Value)) :
    System Field Value where
  installed
  store
  progress _ := .start

/-- How a save ends; one that fails may have been written. -/
inductive SaveOutcome
  | saved
  | failed (written : Bool)
  deriving DecidableEq, Repr

structure Action where
  side : Bool
  save : SaveOutcome
  deriving DecidableEq, Repr

section Step

variable [DecidableEq Field] (loadBalancingMode : Field) (validate : Config Field Value → Bool)

def Operation.update : Operation Field Value → Update Field Value
  | .updateRuntimeConfig update => update
  | .updateLoadBalancingMode mode => .set loadBalancingMode mode

/-- One step of an update, with the installed and the saved configuration. -/
def advance (save : SaveOutcome) (installed : Config Field Value)
    (store : Option (Config Field Value)) :
    Operation Field Value → Progress Field Value →
      Option (Config Field Value × Option (Config Field Value) × Progress Field Value)
  | .updateRuntimeConfig update, .start =>
    let updated := { fields := update.apply installed.fields, configPath := none }
    some (installed, store, if validate updated then .read updated else .failed)
  | .updateRuntimeConfig _, .read updated =>
    match store, save with
    | some old, .failed written => some (installed, some (if written then updated else old), .failed)
    | _, _ => some (installed, store.map fun _ => updated, .saved updated)
  | .updateRuntimeConfig _, .saved updated => some (updated, store, .done)
  | .updateLoadBalancingMode mode, .start =>
    some ({ installed with fields := (Update.set loadBalancingMode mode).apply installed.fields },
      store, .done)
  | _, _ => none

/-- The two updates are `ops false` and `ops true`. -/
def step (ops : Bool → Operation Field Value) (s : System Field Value) (a : Action) :
    Option (System Field Value) :=
  (advance loadBalancingMode validate a.save s.installed s.store (ops a.side)
    (s.progress a.side)).map fun (installed, store, progress) =>
      { installed, store, progress := Function.update s.progress a.side progress }

def run (ops : Bool → Operation Field Value) :
    System Field Value → List Action → Option (System Field Value) :=
  Transition.run (step loadBalancingMode validate ops)

end Step

/-- The state as one of the updates sees it. -/
structure View (Field Value : Type) where
  installed : Config Field Value
  store : Option (Config Field Value)
  mine : Progress Field Value
  other : Progress Field Value

def System.view (s : System Field Value) (side : Bool) : View Field Value :=
  ⟨s.installed, s.store, s.progress side, s.progress (!side)⟩

theorem view_not (s : System Field Value) (side : Bool) :
    s.view (!side) = ⟨s.installed, s.store, s.progress (!side), s.progress side⟩ := by
  rw [System.view, Bool.not_not]

/-- A move of the update `u`, which saves or not. -/
inductive Move (u : Update Field Value) (saves : Bool) (save : SaveOutcome) :
    View Field Value → View Field Value → Prop
  | read {installed store other} (hsaves : saves = true) :
      Move u saves save ⟨installed, store, .start, other⟩
        ⟨installed, store, .read ⟨u.apply installed.fields, none⟩, other⟩
  | save {installed store other} (updated : Config Field Value) (hsaves : saves = true)
      (hsave : store.isSome = true → save = .saved) :
      Move u saves save ⟨installed, store, .read updated, other⟩
        ⟨installed, store.map fun _ => updated, .saved updated, other⟩
  | install {installed store other} (updated : Config Field Value) (hsaves : saves = true) :
      Move u saves save ⟨installed, store, .saved updated, other⟩ ⟨updated, store, .done, other⟩
  | swap {installed store other} (hsaves : saves = false) :
      Move u saves save ⟨installed, store, .start, other⟩
        ⟨{ installed with fields := u.apply installed.fields }, store, .done, other⟩

section Step

variable [DecidableEq Field] {loadBalancingMode : Field} {validate : Config Field Value → Bool}
variable {ops : Bool → Operation Field Value} {s t : System Field Value} {a : Action}

theorem advance_move {save : SaveOutcome} {installed installed' : Config Field Value}
    {store store' : Option (Config Field Value)} {op : Operation Field Value}
    {p p' : Progress Field Value} (other : Progress Field Value)
    (h : advance loadBalancingMode validate save installed store op p =
      some (installed', store', p')) :
    p' = .failed ∨ Move (op.update loadBalancingMode) op.isRuntimeConfig save
      ⟨installed, store, p, other⟩ ⟨installed', store', p', other⟩ := by
  unfold advance at h
  split at h
  · dsimp only at h
    split_ifs at h
    · cases h
      exact .inr (.read rfl)
    · cases h
      exact .inl rfl
  · rename_i updated
    split at h
    · cases h
      exact .inl rfl
    · rename_i hne
      cases h
      refine .inr (.save updated rfl fun hstore => ?_)
      obtain ⟨old, rfl⟩ := Option.isSome_iff_exists.mp hstore
      cases save with
      | saved => rfl
      | failed written => exact (hne old written rfl rfl).elim
  · cases h
    exact .inr (.install _ rfl)
  · cases h
    exact .inr (.swap rfl)
  · cases h

theorem step_move (h : step loadBalancingMode validate ops s a = some t) (side : Bool) :
    (∃ side, t.progress side = .failed) ∨
      (a.side = side ∧ Move ((ops side).update loadBalancingMode) (ops side).isRuntimeConfig a.save
        (s.view side) (t.view side)) ∨
      (a.side = !side ∧ Move ((ops (!side)).update loadBalancingMode)
        (ops (!side)).isRuntimeConfig a.save (s.view (!side)) (t.view (!side))) := by
  obtain ⟨mover, save⟩ := a
  obtain ⟨⟨installed, store, p⟩, hadvance, rfl⟩ := Option.map_eq_some_iff.mp h
  rcases advance_move (s.progress (!mover)) hadvance with rfl | hmove
  · exact .inl ⟨mover, Function.update_self _ _ _⟩
  · right
    have hview : ({ installed, store, progress := Function.update s.progress mover p } :
        System Field Value).view mover = ⟨installed, store, p, s.progress (!mover)⟩ := by
      simp [System.view]
    cases side <;> cases mover
    · exact .inl ⟨rfl, by rw [hview]; exact hmove⟩
    · exact .inr ⟨rfl, by rw [Bool.not_false, hview]; exact hmove⟩
    · exact .inr ⟨rfl, by rw [Bool.not_true, hview]; exact hmove⟩
    · exact .inl ⟨rfl, by rw [hview]; exact hmove⟩

end Step

def Progress.copy : Progress Field Value → Option (Config Field Value)
  | .read updated => some updated
  | .saved updated => some updated
  | _ => none

def Progress.wrote : Progress Field Value → Bool
  | .saved _ => true
  | .done => true
  | _ => false

def Update.In (u : Update Field Value) (initial : Field → Value) (c : Config Field Value) : Prop :=
  ∀ f ∈ u.footprint, c.fields f = u.apply initial f

def Update.NotIn (u : Update Field Value) (initial : Field → Value) (c : Config Field Value) :
    Prop :=
  ∀ f ∈ u.footprint, c.fields f = initial f

/-- An update that changes nothing. -/
def Update.Idle (u : Update Field Value) (initial : Field → Value) : Prop :=
  ∀ f ∈ u.footprint, u.apply initial f = initial f

namespace Update

variable {u u' : Update Field Value} {initial : Field → Value} {c : Config Field Value}

theorem NotIn.apply (h : u.NotIn initial c) (configPath : Option (List Char)) :
    u.In initial ⟨u.apply c.fields, configPath⟩ :=
  u.reads h

theorem NotIn.frame (h : u.NotIn initial c) (hdisjoint : ∀ f ∈ u.footprint, f ∉ u'.footprint)
    (configPath : Option (List Char)) : u.NotIn initial ⟨u'.apply c.fields, configPath⟩ :=
  fun f hf => (u'.frame _ f (hdisjoint f hf)).trans (h f hf)

theorem In.frame (h : u.In initial c) (hdisjoint : ∀ f ∈ u.footprint, f ∉ u'.footprint)
    (configPath : Option (List Char)) : u.In initial ⟨u'.apply c.fields, configPath⟩ :=
  fun f hf => (u'.frame _ f (hdisjoint f hf)).trans (h f hf)

theorem NotIn.in' (h : u.NotIn initial c) (hidle : u.Idle initial) : u.In initial c :=
  fun f hf => (h f hf).trans (hidle f hf).symm

theorem NotIn.idle (h : u.NotIn initial c) (hin : u.In initial c) : u.Idle initial :=
  fun f hf => (hin f hf).symm.trans (h f hf)

end Update

section Fate

variable {u u' : Update Field Value} {initial : Field → Value} {saves saves' : Bool}
variable {save : SaveOutcome} {installed installed' : Config Field Value}
variable {store store' : Option (Config Field Value)} {mine mine' other other' : Progress Field Value}

structure Unshared (u : Update Field Value) (initial : Field → Value) (otherSaves : Bool)
    (v : View Field Value) : Prop where
  own : ∀ c ∈ v.mine.copy, u.In initial c
  installed : v.mine ≠ .done → u.NotIn initial v.installed
  other : v.mine ≠ .done → ∀ c ∈ v.other.copy, u.NotIn initial c
  store : v.mine.wrote = false → otherSaves = true → v.other.wrote = true →
    ∀ c ∈ v.store, u.NotIn initial c

/-- The change is in whatever may be installed or saved last. -/
structure Kept (u : Update Field Value) (initial : Field → Value) (saves otherSaves : Bool)
    (v : View Field Value) : Prop where
  saved : ∀ c, v.mine = .saved c → ∀ c ∈ v.store, u.In initial c
  installed : v.mine = .done → u.In initial v.installed
  other : v.mine = .done → ∀ c ∈ v.other.copy, u.In initial c
  store : v.mine = .done → (saves = true ∨ otherSaves = true ∧ v.other.wrote = true) →
    ∀ c ∈ v.store, u.In initial c

/-- The update overwrites what the other one has saved or installed, or is overwritten: -/
def losesBySelf (saves : Bool) (save : SaveOutcome) (v : View Field Value) : Bool :=
  match saves, v.mine, v.other with
  | true, .read _, .read _ => save == .saved && v.store.isSome
  | true, .saved _, .read _ => true
  | true, .saved _, .saved _ => true
  | false, .start, .read _ => true
  | false, .start, .saved _ => true
  | false, .start, .done => v.store.isSome
  | _, _, _ => false

def losesByOther (save : SaveOutcome) (v : View Field Value) : Bool :=
  match v.mine, v.other with
  | .saved _, .read _ => save == .saved && v.store.isSome
  | _, _ => false

/-- What a step that loses the change leaves behind. -/
def Lost (u : Update Field Value) (initial : Field → Value) (v : View Field Value) : Prop :=
  match v.mine, v.other with
  | .saved _, .read _ => v.store.isSome = true
  | .saved _, .saved _ => ∃ c ∈ v.store, u.NotIn initial c
  | .saved _, .done => ∃ c ∈ v.store, u.NotIn initial c
  | .done, .read c => u.NotIn initial c
  | .done, .saved c => u.NotIn initial c
  | .done, .done => u.NotIn initial v.installed ∨ ∃ c ∈ v.store, u.NotIn initial c
  | _, _ => False

theorem Unshared.move (h : Unshared u initial saves' ⟨installed, store, mine, other⟩)
    (hmove : Move u saves save ⟨installed, store, mine, other⟩ ⟨installed', store', mine', other'⟩) :
    Unshared u initial saves' ⟨installed', store', mine', other'⟩ := by
  cases hmove with
  | read hsaves =>
    refine ⟨?_, fun _ => h.installed (by rintro ⟨⟩), fun _ => h.other (by rintro ⟨⟩), fun _ =>
      h.store rfl⟩
    rintro _ ⟨⟩
    exact (h.installed (by rintro ⟨⟩)).apply none
  | save updated hsaves hsave =>
    exact ⟨h.own, fun _ => h.installed (by rintro ⟨⟩), fun _ => h.other (by rintro ⟨⟩),
      by rintro ⟨⟩⟩
  | install updated hsaves =>
    exact ⟨by rintro _ ⟨⟩, fun hne => absurd rfl hne, fun hne => absurd rfl hne, by rintro ⟨⟩⟩
  | swap hsaves =>
    exact ⟨by rintro _ ⟨⟩, fun hne => absurd rfl hne, fun hne => absurd rfl hne, by rintro ⟨⟩⟩

theorem Unshared.otherMove (hdisjoint : ∀ f ∈ u.footprint, f ∉ u'.footprint)
    (h : Unshared u initial saves' ⟨installed, store, mine, other⟩)
    (hmove : Move u' saves' save ⟨installed, store, other, mine⟩
      ⟨installed', store', other', mine'⟩) :
    Unshared u initial saves' ⟨installed', store', mine', other'⟩ := by
  cases hmove with
  | read hsaves =>
    refine ⟨h.own, h.installed, fun hne => ?_, fun _ _ => by rintro ⟨⟩⟩
    rintro _ ⟨⟩
    exact (h.installed hne).frame hdisjoint none
  | save updated hsaves hsave =>
    refine ⟨h.own, h.installed, h.other, fun hwrote _ _ c hc => ?_⟩
    obtain ⟨_, -, rfl⟩ := Option.map_eq_some_iff.mp hc
    refine h.other ?_ _ rfl
    rintro rfl
    cases hwrote
  | install updated hsaves =>
    exact ⟨h.own, fun hne => h.other hne _ rfl, fun _ => by rintro _ ⟨⟩,
      fun hwrote hsaves _ => h.store hwrote hsaves rfl⟩
  | swap hsaves =>
    refine ⟨h.own, fun hne => (h.installed hne).frame hdisjoint _, fun _ => by rintro _ ⟨⟩,
      fun _ hsaves' => ?_⟩
    rw [hsaves] at hsaves'
    cases hsaves'

theorem Kept.move (h : Kept u initial saves saves' ⟨installed, store, mine, other⟩)
    (hunshared : Unshared u initial saves' ⟨installed, store, mine, other⟩)
    (hkept : u.Idle initial ∨ losesBySelf saves save ⟨installed, store, mine, other⟩ = false)
    (hmove : Move u saves save ⟨installed, store, mine, other⟩ ⟨installed', store', mine', other'⟩)
    (hother : saves = false → other.wrote = true → saves' = true) :
    Kept u initial saves saves' ⟨installed', store', mine', other'⟩ := by
  cases hmove with
  | read hsaves =>
    exact ⟨by rintro _ ⟨⟩, by rintro ⟨⟩, by rintro ⟨⟩, by rintro ⟨⟩⟩
  | save updated hsaves hsave =>
    refine ⟨fun _ _ c hc => ?_, by rintro ⟨⟩, by rintro ⟨⟩, by rintro ⟨⟩⟩
    obtain ⟨_, -, rfl⟩ := Option.map_eq_some_iff.mp hc
    exact hunshared.own _ rfl
  | install updated hsaves =>
    refine ⟨by rintro _ ⟨⟩, fun _ => hunshared.own _ rfl, fun _ c hc => ?_,
      fun _ _ => h.saved _ rfl⟩
    refine (hunshared.other (by rintro ⟨⟩) c hc).in' (hkept.resolve_right ?_)
    subst hsaves
    cases other with
    | read c => rintro ⟨⟩
    | saved c => rintro ⟨⟩
    | _ => cases hc
  | swap hsaves =>
    subst hsaves
    refine ⟨by rintro _ ⟨⟩, fun _ => (hunshared.installed (by rintro ⟨⟩)).apply _,
      fun _ c hc => ?_, fun _ hwrote c hc => ?_⟩
    · refine (hunshared.other (by rintro ⟨⟩) c hc).in' (hkept.resolve_right ?_)
      cases other with
      | read c => rintro ⟨⟩
      | saved c => rintro ⟨⟩
      | _ => cases hc
    · obtain ⟨hsaves', hwrote⟩ := hwrote.resolve_left (by rintro ⟨⟩)
      refine (hunshared.store rfl hsaves' hwrote c hc).in' (hkept.resolve_right ?_)
      obtain rfl : store = some c := hc
      cases other with
      | saved c => rintro ⟨⟩
      | done => rintro ⟨⟩
      | _ => cases hwrote

theorem Kept.otherMove (hdisjoint : ∀ f ∈ u.footprint, f ∉ u'.footprint)
    (h : Kept u initial saves saves' ⟨installed, store, mine, other⟩)
    (hunshared : Unshared u initial saves' ⟨installed, store, mine, other⟩)
    (hkept : u.Idle initial ∨ losesByOther save ⟨installed, store, mine, other⟩ = false)
    (hmove : Move u' saves' save ⟨installed, store, other, mine⟩
      ⟨installed', store', other', mine'⟩) :
    Kept u initial saves saves' ⟨installed', store', mine', other'⟩ := by
  cases hmove with
  | read hsaves =>
    refine ⟨h.saved, h.installed, fun hdone => ?_, fun hdone hwrote => ?_⟩
    · rintro _ ⟨⟩
      exact (h.installed hdone).frame hdisjoint none
    · exact h.store hdone (hwrote.imp_right fun hwrote => nomatch hwrote.2)
  | save updated hsaves hsave =>
    refine ⟨?_, h.installed, h.other, fun hdone _ c hc => ?_⟩
    · rintro saved hsaved c hc
      obtain ⟨_, hstore, rfl⟩ := Option.map_eq_some_iff.mp hc
      subst hsaved
      refine (hunshared.other (by rintro ⟨⟩) _ rfl).in' (hkept.resolve_right ?_)
      simp [losesByOther, hstore, hsave]
    · obtain ⟨_, -, rfl⟩ := Option.map_eq_some_iff.mp hc
      exact h.other hdone _ rfl
  | install updated hsaves =>
    exact ⟨h.saved, fun hdone => h.other hdone _ rfl, fun _ => by rintro _ ⟨⟩,
      fun hdone hwrote => h.store hdone (hwrote.imp_right fun hwrote => ⟨hwrote.1, rfl⟩)⟩
  | swap hsaves =>
    refine ⟨h.saved, fun hdone => (h.installed hdone).frame hdisjoint _, fun _ => by rintro _ ⟨⟩,
      fun hdone hwrote => h.store hdone (.inl (hwrote.resolve_right ?_))⟩
    rintro ⟨hsaves', -⟩
    cases hsaves.symm.trans hsaves'

theorem Unshared.lost_move (hunshared : Unshared u initial saves' ⟨installed, store, mine, other⟩)
    (hloses : losesBySelf saves save ⟨installed, store, mine, other⟩ = true)
    (hmove : Move u saves save ⟨installed, store, mine, other⟩ ⟨installed', store', mine', other'⟩)
    (hother : saves = false → other.wrote = true → saves' = true) :
    Lost u initial ⟨installed', store', mine', other'⟩ := by
  cases hmove with
  | read hsaves =>
    subst hsaves
    cases hloses
  | save updated hsaves hsave =>
    subst hsaves
    cases other with
    | read c =>
      simp only [losesBySelf, Bool.and_eq_true] at hloses
      simpa [Lost] using hloses.2
    | _ => cases hloses
  | install updated hsaves =>
    subst hsaves
    cases other with
    | read c => exact hunshared.other (by rintro ⟨⟩) _ rfl
    | saved c => exact hunshared.other (by rintro ⟨⟩) _ rfl
    | _ => cases hloses
  | swap hsaves =>
    subst hsaves
    cases other with
    | read c => exact hunshared.other (by rintro ⟨⟩) _ rfl
    | saved c => exact hunshared.other (by rintro ⟨⟩) _ rfl
    | done =>
      obtain ⟨c, hc⟩ := Option.isSome_iff_exists.mp hloses
      exact .inr ⟨c, hc, hunshared.store rfl (hother rfl rfl) rfl c hc⟩
    | _ => cases hloses

theorem Unshared.lost_otherMove
    (hunshared : Unshared u initial saves' ⟨installed, store, mine, other⟩)
    (hloses : losesByOther save ⟨installed, store, mine, other⟩ = true)
    (hmove : Move u' saves' save ⟨installed, store, other, mine⟩
      ⟨installed', store', other', mine'⟩) :
    Lost u initial ⟨installed', store', mine', other'⟩ := by
  cases mine with
  | saved c =>
    cases hmove with
    | save updated hsaves hsave =>
      simp only [losesByOther, Bool.and_eq_true] at hloses
      obtain ⟨old, rfl⟩ := Option.isSome_iff_exists.mp hloses.2
      exact ⟨updated, rfl, hunshared.other (by rintro ⟨⟩) _ rfl⟩
    | _ => cases hloses
  | _ => cases hloses

theorem Lost.move (hunshared : Unshared u initial saves' ⟨installed, store, mine, other⟩)
    (h : Lost u initial ⟨installed, store, mine, other⟩)
    (hmove : Move u saves save ⟨installed, store, mine, other⟩
      ⟨installed', store', mine', other'⟩) :
    Lost u initial ⟨installed', store', mine', other'⟩ := by
  cases hmove with
  | install updated hsaves =>
    cases other with
    | read c => exact hunshared.other (by rintro ⟨⟩) _ rfl
    | saved c => exact hunshared.other (by rintro ⟨⟩) _ rfl
    | done => exact .inr h
    | _ => cases h
  | _ => cases h

theorem Lost.otherMove (hunshared : Unshared u initial saves' ⟨installed, store, mine, other⟩)
    (h : Lost u initial ⟨installed, store, mine, other⟩)
    (hmove : Move u' saves' save ⟨installed, store, other, mine⟩
      ⟨installed', store', other', mine'⟩) :
    Lost u initial ⟨installed', store', mine', other'⟩ := by
  cases hmove with
  | save updated hsaves hsave =>
    cases mine with
    | saved c =>
      obtain ⟨old, rfl⟩ := Option.isSome_iff_exists.mp h
      exact ⟨updated, rfl, hunshared.other (by rintro ⟨⟩) _ rfl⟩
    | done => exact h
    | _ => cases h
  | install updated hsaves =>
    cases mine with
    | saved c => exact h
    | done => exact .inl h
    | _ => cases h
  | _ => cases mine <;> cases h

end Fate

section Runs

variable [DecidableEq Field] (loadBalancingMode : Field) (validate : Config Field Value → Bool)
variable (ops : Bool → Operation Field Value) (initial : Field → Value)

/-- The change of one update outlives the step. -/
def Survives (side : Bool) (s : System Field Value) (a : Action) : Prop :=
  ((ops side).update loadBalancingMode).Idle initial ∨
    (if a.side = side then
        losesBySelf (ops side).isRuntimeConfig a.save (s.view side)
      else losesByOther a.save (s.view side)) = false

instance [DecidableEq Value] (side : Bool) (s : System Field Value) (a : Action) :
    Decidable (Survives loadBalancingMode ops initial side s a) := by
  unfold Survives Update.Idle
  infer_instance

variable {loadBalancingMode validate ops initial} {s t : System Field Value} {a : Action}
variable {side : Bool}

theorem isRuntimeConfig_of_disjoint
    (hdisjoint : ∀ f ∈ ((ops side).update loadBalancingMode).footprint,
      f ∉ ((ops (!side)).update loadBalancingMode).footprint)
    (hside : (ops side).isRuntimeConfig = false) : (ops (!side)).isRuntimeConfig = true := by
  cases hop : ops side with
  | updateRuntimeConfig update =>
    rw [hop] at hside
    cases hside
  | updateLoadBalancingMode mode =>
    cases hop' : ops (!side) with
    | updateRuntimeConfig update => rfl
    | updateLoadBalancingMode mode' =>
      rw [hop, hop'] at hdisjoint
      exact absurd List.mem_cons_self (hdisjoint loadBalancingMode List.mem_cons_self)

def System.Failed (s : System Field Value) : Prop := ∃ side, s.progress side = .failed

theorem System.Failed.step (h : s.Failed) (ht : step loadBalancingMode validate ops s a = some t) :
    t.Failed := by
  obtain ⟨side, hside⟩ := h
  obtain ⟨_, hadvance, rfl⟩ := Option.map_eq_some_iff.mp ht
  by_cases ha : a.side = side
  · subst ha
    rw [hside] at hadvance
    cases hop : ops a.side with
    | updateRuntimeConfig update =>
      rw [hop] at hadvance
      cases hadvance
    | updateLoadBalancingMode mode =>
      rw [hop] at hadvance
      cases hadvance
  · exact ⟨side, (Function.update_of_ne (Ne.symm ha) _ _).trans hside⟩

variable (loadBalancingMode ops initial side) in
def Keeping (s : System Field Value) : Prop :=
  s.Failed ∨
    Unshared ((ops side).update loadBalancingMode) initial (ops (!side)).isRuntimeConfig
        (s.view side) ∧
      Kept ((ops side).update loadBalancingMode) initial (ops side).isRuntimeConfig
        (ops (!side)).isRuntimeConfig (s.view side)

variable (loadBalancingMode ops initial side) in
def Losing (s : System Field Value) : Prop :=
  s.Failed ∨
    Unshared ((ops side).update loadBalancingMode) initial (ops (!side)).isRuntimeConfig
        (s.view side) ∧
      Lost ((ops side).update loadBalancingMode) initial (s.view side)

theorem not_ne_self (side : Bool) : (!side) ≠ side := by cases side <;> rintro ⟨⟩

section Step

variable (hdisjoint : ∀ f ∈ ((ops side).update loadBalancingMode).footprint,
  f ∉ ((ops (!side)).update loadBalancingMode).footprint)
include hdisjoint

theorem Keeping.step (h : Keeping loadBalancingMode ops initial side s)
    (hsurvives : Survives loadBalancingMode ops initial side s a)
    (ht : RuntimeConfig.step loadBalancingMode validate ops s a = some t) :
    Keeping loadBalancingMode ops initial side t := by
  rcases h with hfailed | ⟨hunshared, h⟩
  · exact .inl (hfailed.step ht)
  · rcases step_move ht side with hfailed | ⟨hmover, hmove⟩ | ⟨hmover, hmove⟩
    · exact .inl hfailed
    · rw [Survives, if_pos hmover] at hsurvives
      exact .inr ⟨hunshared.move hmove, h.move hunshared hsurvives hmove
        fun hside _ => isRuntimeConfig_of_disjoint hdisjoint hside⟩
    · rw [Survives, if_neg (by rw [hmover]; exact not_ne_self side)] at hsurvives
      rw [view_not, view_not] at hmove
      exact .inr ⟨hunshared.otherMove hdisjoint hmove,
        h.otherMove hdisjoint hunshared hsurvives hmove⟩

theorem Keeping.losing (h : Keeping loadBalancingMode ops initial side s)
    (hsurvives : ¬ Survives loadBalancingMode ops initial side s a)
    (ht : RuntimeConfig.step loadBalancingMode validate ops s a = some t) :
    Losing loadBalancingMode ops initial side t := by
  rw [Survives, not_or, Bool.not_eq_false] at hsurvives
  rcases h with hfailed | ⟨hunshared, -⟩
  · exact .inl (hfailed.step ht)
  · rcases step_move ht side with hfailed | ⟨hmover, hmove⟩ | ⟨hmover, hmove⟩
    · exact .inl hfailed
    · rw [if_pos hmover] at hsurvives
      exact .inr ⟨hunshared.move hmove, hunshared.lost_move hsurvives.2 hmove
        fun hside _ => isRuntimeConfig_of_disjoint hdisjoint hside⟩
    · rw [if_neg (by rw [hmover]; exact not_ne_self side)] at hsurvives
      rw [view_not, view_not] at hmove
      exact .inr ⟨hunshared.otherMove hdisjoint hmove, hunshared.lost_otherMove hsurvives.2 hmove⟩

theorem Losing.step (h : Losing loadBalancingMode ops initial side s)
    (ht : RuntimeConfig.step loadBalancingMode validate ops s a = some t) :
    Losing loadBalancingMode ops initial side t := by
  rcases h with hfailed | ⟨hunshared, h⟩
  · exact .inl (hfailed.step ht)
  · rcases step_move ht side with hfailed | ⟨-, hmove⟩ | ⟨-, hmove⟩
    · exact .inl hfailed
    · exact .inr ⟨hunshared.move hmove, h.move hunshared hmove⟩
    · rw [view_not, view_not] at hmove
      exact .inr ⟨hunshared.otherMove hdisjoint hmove, h.otherMove hunshared hmove⟩

end Step

theorem keeping_new (installed : Config Field Value) (store : Option (Config Field Value)) :
    Keeping loadBalancingMode ops installed.fields side (new installed store) := by
  refine .inr ⟨⟨?_, fun _ _ _ => rfl, fun _ => ?_, fun _ _ => ?_⟩, ⟨?_, ?_, ?_, ?_⟩⟩
  · rintro _ ⟨⟩
  · rintro _ ⟨⟩
  · rintro ⟨⟩
  · rintro _ ⟨⟩
  · rintro ⟨⟩
  · rintro ⟨⟩
  · rintro ⟨⟩

/-- The fate of one of the updates: its change is in the end where it should be exactly if it
survives every step. -/
theorem run_new_in_iff {installed : Config Field Value} {store : Option (Config Field Value)}
    {actions : List Action} (hdisjoint : ∀ f ∈ ((ops side).update loadBalancingMode).footprint,
      f ∉ ((ops (!side)).update loadBalancingMode).footprint)
    (h : run loadBalancingMode validate ops (new installed store) actions = some s)
    (hdone : ∀ side, s.progress side = .done) :
    (((ops side).update loadBalancingMode).In installed.fields s.installed ∧
        ∀ c ∈ s.store, ((ops side).update loadBalancingMode).In installed.fields c) ↔
      Transition.Along (step loadBalancingMode validate ops)
        (Survives loadBalancingMode ops installed.fields side) (new installed store) actions := by
  have hfailed : ¬ s.Failed := by
    rintro ⟨side', hside'⟩
    cases (hdone side').symm.trans hside'
  have hview : s.view side = ⟨s.installed, s.store, .done, .done⟩ := by
    rw [System.view, hdone side, hdone (!side)]
  rcases Transition.run_along_or
      (fun _ _ _ hs hsurvives ht => Keeping.step hdisjoint hs hsurvives ht)
      (fun _ _ _ hs hsurvives ht => Keeping.losing hdisjoint hs hsurvives ht)
      (fun _ _ _ hs ht => Losing.step hdisjoint hs ht) (keeping_new installed store) h with
    ⟨halong, hs⟩ | ⟨halong, hs⟩
  · obtain ⟨-, hkept⟩ := hs.resolve_left hfailed
    rw [hview] at hkept
    refine iff_of_true ⟨hkept.installed rfl, hkept.store rfl ?_⟩ halong
    cases hside : (ops side).isRuntimeConfig with
    | true => exact .inl rfl
    | false => exact .inr ⟨isRuntimeConfig_of_disjoint hdisjoint hside, rfl⟩
  · obtain ⟨-, hlost⟩ := hs.resolve_left hfailed
    rw [hview] at hlost
    refine iff_of_false (fun hin => halong ?_) halong
    have hidle : ((ops side).update loadBalancingMode).Idle installed.fields := by
      rcases hlost with hlost | ⟨c, hc, hlost⟩
      · exact hlost.idle hin.1
      · exact hlost.idle (hin.2 c hc)
    exact Transition.along_of_forall (fun _ _ => .inl hidle) _ _

/-- Two updates that edit different fields and both succeed: in the end the installed and the
saved configuration have both changes exactly if each change survives every step. -/
theorem run_new_in_both_iff (loadBalancingMode : Field) (validate : Config Field Value → Bool)
    (ops : Bool → Operation Field Value) (installed : Config Field Value)
    (store : Option (Config Field Value)) (actions : List Action)
    (hdisjoint : ∀ f ∈ ((ops false).update loadBalancingMode).footprint,
      f ∉ ((ops true).update loadBalancingMode).footprint)
    (h : run loadBalancingMode validate ops (new installed store) actions = some s)
    (hdone : ∀ side, s.progress side = .done) :
    (∀ side, ((ops side).update loadBalancingMode).In installed.fields s.installed ∧
        ∀ c ∈ s.store, ((ops side).update loadBalancingMode).In installed.fields c) ↔
      Transition.Along (step loadBalancingMode validate ops)
        (fun s a => ∀ side, Survives loadBalancingMode ops installed.fields side s a)
        (new installed store) actions := by
  rw [Transition.along_forall_iff]
  refine forall_congr' fun side => run_new_in_iff ?_ h hdone
  cases side with
  | false => exact hdisjoint
  | true => exact fun f hf hf' => hdisjoint f hf' hf

end Runs

def zeros : Config ℕ ℕ := ⟨fun _ => 0, none⟩

def modeAndField : Bool → Operation ℕ ℕ
  | false => .updateRuntimeConfig (.set 1 5)
  | true => .updateLoadBalancingMode 9

/-- The mode changes before the other update reads. -/
def modeFirst : List Action :=
  [⟨true, .saved⟩, ⟨false, .saved⟩, ⟨false, .saved⟩, ⟨false, .saved⟩]

theorem run_new_in_both_iff_modeAndField :
    ∃ s, run 0 (fun _ => true) modeAndField (new zeros (some zeros)) modeFirst = some s ∧
      ∀ side, ((modeAndField side).update 0).In zeros.fields s.installed ∧
        ∀ c ∈ s.store, ((modeAndField side).update 0).In zeros.fields c :=
  ⟨_, rfl, (run_new_in_both_iff 0 (fun _ => true) modeAndField zeros (some zeros) modeFirst
    (by decide) rfl (by rintro (_ | _) <;> rfl)).mpr (by decide)⟩

def twoFields : Bool → Operation ℕ ℕ
  | false => .updateRuntimeConfig (.set 1 5)
  | true => .updateRuntimeConfig (.set 2 6)

/-- Both updates read before either is installed, and the first one is overwritten. -/
theorem overlap_not_in :
    ∃ s, run 0 (fun _ => true) twoFields (new zeros (some zeros))
        [⟨false, .saved⟩, ⟨true, .saved⟩, ⟨false, .saved⟩, ⟨true, .saved⟩, ⟨false, .saved⟩,
          ⟨true, .saved⟩] = some s ∧
      (∀ side, s.progress side = .done) ∧
      ¬ ((twoFields false).update 0).In zeros.fields s.installed ∧
      ∃ c ∈ s.store, ¬ ((twoFields false).update 0).In zeros.fields c := by
  refine ⟨_, rfl, by rintro (_ | _) <;> rfl, fun h => ?_, _, rfl, fun h => ?_⟩
  · cases h 1 List.mem_cons_self
  · cases h 1 List.mem_cons_self

end KiroProxy.RuntimeConfig
