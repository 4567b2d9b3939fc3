import KiroProxy.Parties
import KiroProxy.Transition
import Mathlib

/-!
# The capacity signal

Waiters register on the signal, and a release of capacity leaves them credits, at most one for
each. The two counters are atomics of their own: a release loads the waiters and the credits
one after the other and then exchanges the credits only, and a waiter that leaves lowers the
waiters first and trims the credits afterwards. The generation and the epoch, which only tell
waiters that something has changed, are left out.
-/

namespace KiroProxy

/-- The counters, the `notify_one` calls so far, and whether a subtraction has underflowed. -/
structure CapacitySignal where
  waiters : ℕ
  credits : ℕ
  notified : ℕ
  panicked : Bool
  deriving DecidableEq, Repr

namespace CapacitySignal

def usizeMax : ℕ := 2 ^ 64 - 1

def checkedSub (a b : ℕ) : Option ℕ := if b ≤ a then some (a - b) else none

/-- A waiter, or a call of `capacity_released` or `consume_credit`, with the values it has
loaded. -/
inductive Party
  | active
  | unregistering
  | lowering (current : ℕ)
  | trimming (remaining : ℕ)
  | trimmingFrom (remaining credits : ℕ)
  | unregistered
  | releasing (units : ℕ)
  | releasingTo (units waiters : ℕ)
  | crediting (units waiters current : ℕ)
  | released
  | consuming
  | claiming (current : ℕ)
  | consumed (claimed : Bool)
  deriving DecidableEq, Repr

abbrev System := Parties.System CapacitySignal Party

def new : System := ⟨⟨0, 0, 0, false⟩, []⟩

/-- What a release wants to raise the credits to. -/
def target (units waiters current : ℕ) : ℕ := min (min (current + units) usizeMax) waiters

/-- The loop of `unregister` on the number of waiters it has seen. -/
def retryLower (g : CapacitySignal) : Party :=
  if g.waiters = 0 then .unregistered else .lowering g.waiters

/-- The loop of `fetch_update`. -/
def retryTrim (g : CapacitySignal) (remaining : ℕ) : Party :=
  if remaining < g.credits then .trimmingFrom remaining g.credits else .unregistered

def retryClaim (g : CapacitySignal) : Party :=
  if g.credits = 0 then .consumed false else .claiming g.credits

/-- One atomic operation. An active waiter leaves by `finish_acquired` or by being dropped.
`spurious` lets a weak exchange fail although the value is the expected one. -/
def advance (spurious : Bool) (g : CapacitySignal) : Party → Option (CapacitySignal × Party)
  | .active => some (g, .unregistering)
  | .unregistering => some (g, retryLower g)
  | .lowering current =>
    match checkedSub current 1 with
    | none => some ({ g with panicked := true }, .unregistered)
    | some remaining =>
      if g.waiters = current ∧ spurious = false then
        some ({ g with waiters := remaining }, .trimming remaining)
      else some (g, retryLower g)
  | .trimming remaining => some (g, retryTrim g remaining)
  | .trimmingFrom remaining credits =>
    if g.credits = credits ∧ spurious = false then
      some ({ g with credits := remaining }, .unregistered)
    else some (g, retryTrim g remaining)
  | .releasing units => some (g, .releasingTo units g.waiters)
  | .releasingTo units waiters =>
    if target units waiters g.credits ≤ g.credits then some (g, .released)
    else some (g, .crediting units waiters g.credits)
  | .crediting units waiters current =>
    if g.credits = current then
      match checkedSub (target units waiters current) current with
      | none => some ({ g with panicked := true }, .released)
      | some added =>
        some ({ g with
          credits := target units waiters current
          notified := g.notified + added }, .released)
    else some (g, .releasing units)
  | .consuming => some (g, retryClaim g)
  | .claiming current =>
    match checkedSub current 1 with
    | none => some ({ g with panicked := true }, .consumed false)
    | some remaining =>
      if g.credits = current ∧ spurious = false then
        some ({ g with credits := remaining }, .consumed true)
      else some (g, retryClaim g)
  | .unregistered => none
  | .released => none
  | .consumed _ => none

inductive Action
  | register
  | capacityReleased (units : ℕ)
  | consumeCredit
  | advance (party : ℕ) (spurious : Bool)
  deriving DecidableEq, Repr

def step (s : System) : Action → Option System
  | .register => some { s.join .active with shared.waiters := s.shared.waiters + 1 }
  | .capacityReleased units => if units = 0 then some s else some (s.join (.releasing units))
  | .consumeCredit => some (s.join .consuming)
  | .advance party spurious => s.act (CapacitySignal.advance spurious) party

def run : System → List Action → Option System := Transition.run step

/-- A waiter that still counts. -/
def Party.isLive : Party → Bool
  | .active => true
  | .unregistering => true
  | .lowering _ => true
  | _ => false

/-- No operation of the party is in progress. -/
def Party.atRest : Party → Bool
  | .active => true
  | .unregistered => true
  | .released => true
  | .consumed _ => true
  | _ => false

/-- What a waiter that has lowered the waiters will trim the credits to. -/
def Party.trimsTo : Party → Option ℕ
  | .trimming remaining => some remaining
  | .trimmingFrom remaining _ => some remaining
  | _ => none

/-- The loaded values call for the exchange. -/
def Party.Sound : Party → Prop
  | .lowering current => 0 < current
  | .trimmingFrom remaining credits => remaining < credits
  | .crediting units waiters current => current < target units waiters current
  | .claiming current => 0 < current
  | _ => True

/-- An operation only loads, or it is an exchange that takes effect. -/
inductive Advanced (g : CapacitySignal) : Party → CapacitySignal → Party → Prop
  | load {p p'} (live : p'.isLive = p.isLive) (sound : p'.Sound)
      (trims : ∀ r, p.trimsTo = some r → p'.trimsTo = some r ∨ g.credits ≤ r) : Advanced g p g p'
  | lower (pos : 0 < g.waiters) :
      Advanced g (.lowering g.waiters) { g with waiters := g.waiters - 1 }
        (.trimming (g.waiters - 1))
  | trim {remaining} (lt : remaining < g.credits) :
      Advanced g (.trimmingFrom remaining g.credits) { g with credits := remaining } .unregistered
  | credit {units waiters} :
      Advanced g (.crediting units waiters g.credits)
        { g with
          credits := target units waiters g.credits
          notified := g.notified + (target units waiters g.credits - g.credits) } .released
  | claim (pos : 0 < g.credits) :
      Advanced g (.claiming g.credits) { g with credits := g.credits - 1 } (.consumed true)

theorem checkedSub_of_le {a b : ℕ} (h : b ≤ a) : checkedSub a b = some (a - b) := if_pos h

variable {g : CapacitySignal} {p : Party} {s t : System}

theorem Advanced.retryLower (hlive : p.isLive = true) (hpos : 0 < g.waiters)
    (htrims : p.trimsTo = none) : Advanced g p g g.retryLower := by
  rw [CapacitySignal.retryLower, if_neg hpos.ne']
  refine .load hlive.symm hpos ?_
  rw [htrims]
  simp

theorem Advanced.retryTrim {remaining : ℕ} (hlive : p.isLive = false)
    (htrims : p.trimsTo = some remaining) : Advanced g p g (g.retryTrim remaining) := by
  rw [CapacitySignal.retryTrim]
  split_ifs with h
  · exact .load hlive.symm h fun r hr => .inl (htrims.symm.trans hr)
  · refine .load hlive.symm trivial fun r hr => .inr ?_
    cases htrims.symm.trans hr
    exact Nat.le_of_not_lt h

theorem Advanced.retryClaim (hlive : p.isLive = false) (htrims : p.trimsTo = none) :
    Advanced g p g g.retryClaim := by
  rw [CapacitySignal.retryClaim]
  split_ifs with h
  · refine .load hlive.symm trivial ?_
    rw [htrims]
    simp
  · refine .load hlive.symm (Nat.pos_of_ne_zero h) ?_
    rw [htrims]
    simp

/-- No subtraction underflows, and a live waiter finds itself counted. -/
theorem advanced_of_advance {spurious : Bool} {g g' : CapacitySignal} {p p' : Party}
    (hsound : p.Sound) (hlive : p.isLive = true → 0 < g.waiters)
    (h : advance spurious g p = some (g', p')) : Advanced g p g' p' := by
  cases p with
  | active =>
    cases h
    exact .load rfl trivial fun r hr => .inl hr
  | unregistering =>
    cases h
    exact .retryLower rfl (hlive rfl) rfl
  | lowering current =>
    rw [advance, checkedSub_of_le hsound] at h
    dsimp only at h
    split_ifs at h with heq
    · cases h
      obtain ⟨rfl, -⟩ := heq
      exact .lower hsound
    · cases h
      exact .retryLower rfl (hlive rfl) rfl
  | trimming remaining =>
    cases h
    exact .retryTrim rfl rfl
  | trimmingFrom remaining credits =>
    rw [advance] at h
    split_ifs at h with heq
    · cases h
      obtain ⟨rfl, -⟩ := heq
      exact .trim hsound
    · cases h
      exact .retryTrim rfl rfl
  | releasing units =>
    cases h
    exact .load rfl trivial fun r hr => .inl hr
  | releasingTo units waiters =>
    rw [advance] at h
    split_ifs at h with hle
    · cases h
      exact .load rfl trivial fun r hr => .inl hr
    · cases h
      exact .load rfl (Nat.lt_of_not_le hle) fun r hr => .inl hr
  | crediting units waiters current =>
    rw [advance, checkedSub_of_le (le_of_lt hsound)] at h
    split_ifs at h with heq
    · cases h
      subst heq
      exact .credit
    · cases h
      exact .load rfl trivial fun r hr => .inl hr
  | consuming =>
    cases h
    exact .retryClaim rfl rfl
  | claiming current =>
    rw [advance, checkedSub_of_le hsound] at h
    dsimp only at h
    split_ifs at h with heq
    · cases h
      obtain ⟨rfl, -⟩ := heq
      exact .claim hsound
    · cases h
      exact .retryClaim rfl rfl
  | unregistered => cases h
  | released => cases h
  | consumed claimed => cases h

structure Inv (s : System) : Prop where
  not_panicked : s.shared.panicked = false
  waiters_eq : s.shared.waiters = s.parties.countP Party.isLive
  sound : ∀ p ∈ s.parties, p.Sound

theorem Inv.pos_of_live (h : Inv s) (hp : p ∈ s.parties) (hlive : p.isLive = true) :
    0 < s.shared.waiters := by
  rw [h.waiters_eq, List.countP_pos_iff]
  exact ⟨p, hp, hlive⟩

theorem Inv.advanced (h : Inv s) {i : ℕ} {spurious : Bool}
    (ht : s.act (advance spurious) i = some t) :
    ∃ p g' p', s.parties[i]? = some p ∧ Advanced s.shared p g' p' ∧
      t = ⟨g', s.parties.set i p'⟩ := by
  obtain ⟨p, g', p', hp, hstep, rfl⟩ := Parties.System.act_eq_some ht
  have hmem := List.mem_of_getElem? hp
  exact ⟨p, g', p', hp, advanced_of_advance (h.sound p hmem) (h.pos_of_live hmem) hstep, rfl⟩

theorem Inv.join (h : Inv s) (hlive : p.isLive = false) (hp : p.Sound) :
    Inv (s.join p) where
  not_panicked := h.not_panicked
  waiters_eq := by
    change s.shared.waiters = (s.parties ++ [p]).countP Party.isLive
    rw [List.countP_append, ← h.waiters_eq, List.countP_singleton, hlive]
    rfl
  sound := List.forall_mem_append.mpr ⟨h.sound, by simpa using hp⟩

theorem Inv.step {a : Action} (h : Inv s) (ht : CapacitySignal.step s a = some t) : Inv t := by
  cases a with
  | register =>
    cases ht
    refine ⟨h.not_panicked, ?_, List.forall_mem_append.mpr ⟨h.sound, ?_⟩⟩
    · change s.shared.waiters + 1 = (s.parties ++ [Party.active]).countP Party.isLive
      rw [List.countP_append, ← h.waiters_eq]
      rfl
    · simp [Party.Sound]
  | capacityReleased units =>
    rw [CapacitySignal.step] at ht
    split_ifs at ht
    · cases ht
      exact h
    · cases ht
      exact h.join rfl trivial
  | consumeCredit =>
    cases ht
    exact h.join rfl trivial
  | advance i spurious =>
    obtain ⟨p, g', p', hp, hadvanced, rfl⟩ := h.advanced ht
    have hcount := Parties.countP_set_add (b := p') Party.isLive hp
    rw [← h.waiters_eq] at hcount
    cases hadvanced with
    | load live sound trims =>
      rw [live] at hcount
      exact ⟨h.not_panicked, (Nat.add_right_cancel hcount).symm,
        Parties.forall_mem_set h.sound sound⟩
    | lower pos =>
      refine ⟨h.not_panicked, ?_, Parties.forall_mem_set h.sound trivial⟩
      simp only [Party.isLive, Bool.toNat_true, Bool.toNat_false] at hcount
      simp only
      omega
    | trim lt | credit | claim pos =>
      exact ⟨h.not_panicked, hcount.symm, Parties.forall_mem_set h.sound trivial⟩

def Quiescent (s : System) : Prop := ∀ p ∈ s.parties, p.atRest = true

instance (s : System) : Decidable (Quiescent s) :=
  inferInstanceAs (Decidable (∀ p ∈ s.parties, p.atRest = true))

/-- A waiter that has left is still to trim the credits, to no more than the waiters. -/
def TrimPending (s : System) : Prop :=
  ∃ p ∈ s.parties, ∃ r ∈ p.trimsTo, r ≤ s.shared.waiters

instance (s : System) : Decidable (TrimPending s) :=
  inferInstanceAs (Decidable (∃ p ∈ s.parties, ∃ r ∈ p.trimsTo, r ≤ s.shared.waiters))

def Covered (s : System) : Prop := s.shared.credits ≤ s.shared.waiters ∨ TrimPending s

/-- Since a release loaded the waiters, they have not dropped below the credits that its exchange
stores, or one of those who left is still to trim the credits. -/
def ReleaseCovered (s : System) : Action → Prop
  | .advance party _ =>
    match s.parties[party]? with
    | some (.crediting units waiters current) =>
      s.shared.credits = current →
        target units waiters current ≤ s.shared.waiters ∨ TrimPending s
    | _ => True
  | _ => True

instance (s : System) (a : Action) : Decidable (ReleaseCovered s a) := by
  unfold ReleaseCovered
  split
  · split <;> infer_instance
  · infer_instance

theorem Covered.of_quiescent (h : Covered s) (hs : Quiescent s) :
    s.shared.credits ≤ s.shared.waiters := by
  rcases h with hle | ⟨p, hp, r, hr, -⟩
  · exact hle
  · have hrest := hs p hp
    cases p <;> simp_all [Party.trimsTo, Party.atRest]

section Moves

variable {s : System} {i : ℕ} {p p' : Party} {g' : CapacitySignal}

theorem trimPending_set (hp : s.parties[i]? = some p) (hw : g'.waiters = s.shared.waiters)
    (htrims : p.trimsTo = none) (htrims' : p'.trimsTo = none) :
    TrimPending ⟨g', s.parties.set i p'⟩ ↔ TrimPending s := by
  constructor
  · rintro ⟨q, hq, r, hr, hle⟩
    rcases List.mem_or_eq_of_mem_set hq with hq | rfl
    · exact ⟨q, hq, r, hr, hw ▸ hle⟩
    · rw [htrims'] at hr
      cases hr
  · rintro ⟨q, hq, r, hr, hle⟩
    rcases Parties.mem_set_or_eq hp hq with hq | rfl
    · exact ⟨q, hq, r, hr, hw.symm ▸ hle⟩
    · rw [htrims] at hr
      cases hr

/-- The exchange of a release leaves the credits covered only under the condition. -/
theorem covered_credit_iff {units waiters : ℕ} (spurious : Bool)
    (hp : s.parties[i]? = some (.crediting units waiters s.shared.credits))
    (hw : g'.waiters = s.shared.waiters)
    (hcredits : g'.credits = target units waiters s.shared.credits) :
    Covered ⟨g', s.parties.set i .released⟩ ↔ ReleaseCovered s (.advance i spurious) := by
  rw [ReleaseCovered, hp, Covered, trimPending_set hp hw rfl rfl, hw, hcredits]
  exact ⟨fun h _ => h, fun h => h rfl⟩

theorem Covered.advanced {spurious : Bool} (hp : s.parties[i]? = some p)
    (hadvanced : Advanced s.shared p g' p') (h : Covered s)
    (hrelease : ReleaseCovered s (.advance i spurious)) : Covered ⟨g', s.parties.set i p'⟩ := by
  cases hadvanced with
  | load live sound trims =>
    rcases h with hle | ⟨q, hq, r, hr, hle⟩
    · exact .inl hle
    · rcases Parties.mem_set_or_eq hp hq with hq | rfl
      · exact .inr ⟨q, hq, r, hr, hle⟩
      · rcases trims r hr with hr | hcredits
        · exact .inr ⟨p', Parties.mem_set_self hp, r, hr, hle⟩
        · exact .inl (hcredits.trans hle)
  | lower pos => exact .inr ⟨_, Parties.mem_set_self hp, _, rfl, le_rfl⟩
  | trim lt =>
    rcases h with hle | ⟨q, hq, r, hr, hle⟩
    · exact .inl (lt.le.trans hle)
    · rcases Parties.mem_set_or_eq hp hq with hq | rfl
      · exact .inr ⟨q, hq, r, hr, hle⟩
      · cases hr
        exact .inl hle
  | credit => exact (covered_credit_iff spurious hp (by rfl) (by rfl)).mpr hrelease
  | claim pos =>
    refine h.imp (Nat.sub_le _ _).trans fun htrims => ?_
    exact (trimPending_set hp rfl rfl rfl).mpr htrims

theorem Covered.join (h : Covered s) (p : Party) : Covered (s.join p) :=
  h.imp_right fun ⟨q, hq, hr⟩ => ⟨q, List.mem_append_left _ hq, hr⟩

end Moves

theorem Covered.step {a : Action} (hs : Inv s) (h : Covered s) (hrelease : ReleaseCovered s a)
    (ht : CapacitySignal.step s a = some t) : Covered t := by
  cases a with
  | register =>
    cases ht
    rcases h with hle | ⟨q, hq, r, hr, hle⟩
    · exact .inl (Nat.le_succ_of_le hle)
    · exact .inr ⟨q, List.mem_append_left _ hq, r, hr, Nat.le_succ_of_le hle⟩
  | capacityReleased units =>
    rw [CapacitySignal.step] at ht
    split_ifs at ht
    · cases ht
      exact h
    · cases ht
      exact h.join _
  | consumeCredit =>
    cases ht
    exact h.join _
  | advance i spurious =>
    obtain ⟨p, g', p', hp, hadvanced, rfl⟩ := hs.advanced ht
    exact h.advanced hp hadvanced hrelease

theorem inv_new : Inv new := ⟨rfl, rfl, by simp [new]⟩

/-- In every interleaving no subtraction underflows and the waiters are the live ones; if the
releases are covered, no credit is left over once all operations have returned. -/
theorem run_new_accounts {s : System} (actions : List Action) (h : run new actions = some s) :
    s.shared.panicked = false ∧ s.shared.waiters = s.parties.countP Party.isLive ∧
      (Transition.Along step ReleaseCovered new actions → Quiescent s →
        s.shared.credits ≤ s.shared.waiters) := by
  have hinv : Inv s :=
    Transition.run_invariant (fun _ => True) (fun _ _ _ _ => Inv.step) (fun _ _ => trivial)
      inv_new h
  refine ⟨hinv.not_panicked, hinv.waiters_eq, fun hreleases hquiescent => ?_⟩
  have hkeep : ∀ s a t, ReleaseCovered s a → Inv s ∧ Covered s → step s a = some t →
      Inv t ∧ Covered t := fun s a t hrelease hs ht =>
    ⟨hs.1.step ht, hs.2.step hs.1 hrelease ht⟩
  exact (Transition.run_invariant_along hkeep hreleases ⟨inv_new, .inl le_rfl⟩ h).2.of_quiescent
    hquiescent

def trimActions : List Action :=
  [.register, .register, .capacityReleased 2, .advance 2 false, .advance 2 false, .advance 0 false,
    .advance 0 false, .advance 0 false, .advance 2 false, .advance 0 false, .advance 0 false]

/-- Two units are released to two waiters; one leaves before the exchange and trims after it. -/
theorem run_new_accounts_trim :
    ∃ s, run new trimActions = some s ∧ Quiescent s ∧ s.shared.credits ≤ s.shared.waiters :=
  ⟨_, rfl, by decide, (run_new_accounts trimActions rfl).2.2 (by decide) (by decide)⟩

/-- The only waiter leaves between the loads of a release and its exchange. -/
theorem run_new_leaves_credit :
    ∃ s, run new [.register, .capacityReleased 1, .advance 1 false, .advance 1 false,
        .advance 0 false, .advance 0 false, .advance 0 false, .advance 0 false,
        .advance 1 false] = some s ∧ Quiescent s ∧ s.shared.waiters < s.shared.credits :=
  ⟨_, rfl, by decide, by decide⟩

end CapacitySignal

end KiroProxy
