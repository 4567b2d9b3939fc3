import KiroProxy.CapacitySignal

/-!
# Waiters on the capacity signal

Runs in which every operation returns before the next one starts. A waiter that is woken by a
credit has taken it, and gives it up neither when it acquires a slot nor when it is dropped.
-/

namespace KiroProxy

namespace CapacitySignal

def capacityReleased (g : CapacitySignal) (units : ℕ) : CapacitySignal :=
  if units = 0 then g
  else if target units g.waiters g.credits ≤ g.credits then g
  else { g with
    credits := target units g.waiters g.credits
    notified := g.notified + (target units g.waiters g.credits - g.credits) }

def consumeCredit (g : CapacitySignal) : Option CapacitySignal :=
  if g.credits = 0 then none else some { g with credits := g.credits - 1 }

def unregister (g : CapacitySignal) : CapacitySignal :=
  if g.waiters = 0 then g
  else
    let remaining := g.waiters - 1
    { g with
      waiters := remaining
      credits := if remaining < g.credits then remaining else g.credits }

/-- No other party acts from the first state to the second. -/
def Alone : CapacitySignal × Party → CapacitySignal × Party → Prop :=
  Relation.ReflTransGen fun s t => advance false s.1 s.2 = some t

theorem alone_releasing (g : CapacitySignal) {units : ℕ} (h : units ≠ 0) :
    Alone (g, .releasing units) (g.capacityReleased units, .released) := by
  refine .head (b := (g, .releasingTo units g.waiters)) rfl ?_
  rw [capacityReleased, if_neg h]
  by_cases hle : target units g.waiters g.credits ≤ g.credits
  · rw [if_pos hle]
    exact .single (if_pos hle)
  · rw [if_neg hle]
    refine .head (b := (g, .crediting units g.waiters g.credits)) ?_ (.single ?_)
    · exact if_neg hle
    · rw [advance, if_pos rfl, checkedSub_of_le (Nat.le_of_not_le hle)]

theorem alone_consuming (g : CapacitySignal) :
    Alone (g, .consuming)
      (g.consumeCredit.getD g, .consumed g.consumeCredit.isSome) := by
  by_cases hzero : g.credits = 0
  · rw [consumeCredit, if_pos hzero]
    refine .single ?_
    rw [advance, retryClaim, if_pos hzero]
    rfl
  · rw [consumeCredit, if_neg hzero]
    refine .head (b := (g, .claiming g.credits)) ?_ (.single ?_)
    · rw [advance, retryClaim, if_neg hzero]
    · rw [advance, checkedSub_of_le (Nat.one_le_iff_ne_zero.mpr hzero)]
      exact if_pos ⟨rfl, rfl⟩

theorem alone_unregistering (g : CapacitySignal) :
    Alone (g, .unregistering) (g.unregister, .unregistered) := by
  by_cases hzero : g.waiters = 0
  · rw [unregister, if_pos hzero]
    refine .single ?_
    rw [advance, retryLower, if_pos hzero]
  · rw [unregister, if_neg hzero]
    have hlower : advance false g (.lowering g.waiters) =
        some ({ g with waiters := g.waiters - 1 }, .trimming (g.waiters - 1)) := by
      rw [advance, checkedSub_of_le (Nat.one_le_iff_ne_zero.mpr hzero)]
      exact if_pos ⟨rfl, rfl⟩
    refine .head (b := (g, .lowering g.waiters)) ?_ (.head hlower ?_)
    · rw [advance, retryLower, if_neg hzero]
    · dsimp only
      by_cases hlt : g.waiters - 1 < g.credits
      · rw [if_pos hlt]
        refine .head (b := ({ g with waiters := g.waiters - 1 },
          .trimmingFrom (g.waiters - 1) g.credits)) ?_ (.single ?_)
        · rw [advance, retryTrim, if_pos hlt]
        · exact if_pos ⟨rfl, rfl⟩
      · rw [if_neg hlt]
        refine .single ?_
        rw [advance, retryTrim, if_neg hlt]

end CapacitySignal

structure CapacityWaiter where
  observedStateGeneration : ℕ
  active : Bool
  /-- A credit has woken it. -/
  claimed : Bool
  deriving DecidableEq, Repr

namespace CapacityWaiter

structure System where
  signal : CapacitySignal
  stateGeneration : ℕ
  waiters : List CapacityWaiter
  deriving DecidableEq, Repr

def new : System := ⟨⟨0, 0, 0, false⟩, 0, []⟩

inductive Call
  | register
  | capacityReleased (units : ℕ)
  | notifyStateChanged
  | waitForChange (waiter : ℕ)
  | finishAcquired (waiter : ℕ)
  | drop (waiter : ℕ)
  deriving DecidableEq, Repr

/-- The state when `wait_for_change` returns. It sleeps on where there is no result. -/
def waitForChange (s : System) (waiter : CapacityWaiter) : Option (System × CapacityWaiter) :=
  match s.signal.consumeCredit with
  | some signal => some ({ s with signal }, { waiter with claimed := true })
  | none =>
    if s.stateGeneration ≠ waiter.observedStateGeneration then
      some (s, { waiter with observedStateGeneration := s.stateGeneration })
    else none

def finishAcquired (signal : CapacitySignal) (waiter : CapacityWaiter) :
    CapacitySignal × CapacityWaiter :=
  if waiter.active = false then (signal, waiter)
  else (signal.unregister, { waiter with active := false })

def step (s : System) : Call → Option System
  | .register => some
    { s with
      signal := { s.signal with waiters := s.signal.waiters + 1 }
      waiters := s.waiters ++ [⟨s.stateGeneration, true, false⟩] }
  | .capacityReleased units => some { s with signal := s.signal.capacityReleased units }
  | .notifyStateChanged => some { s with stateGeneration := (s.stateGeneration + 1) % 2 ^ 64 }
  | .waitForChange i => do
    let waiter ← s.waiters[i]?
    let (s, waiter) ← waitForChange s waiter
    some { s with waiters := s.waiters.set i waiter }
  | .finishAcquired i => do
    let waiter ← s.waiters[i]?
    let (signal, waiter) := finishAcquired s.signal waiter
    some { s with signal, waiters := s.waiters.set i waiter }
  | .drop i => do
    let waiter ← s.waiters[i]?
    let signal := if waiter.active then s.signal.unregister else s.signal
    some { s with signal, waiters := s.waiters.eraseIdx i }

def run : System → List Call → Option System := Transition.run step

def StateChangePending (s : System) : Prop :=
  ∃ waiter ∈ s.waiters, waiter.active = true ∧ s.stateGeneration ≠ waiter.observedStateGeneration

instance (s : System) : Decidable (StateChangePending s) :=
  inferInstanceAs (Decidable (∃ waiter ∈ s.waiters, waiter.active = true ∧
    s.stateGeneration ≠ waiter.observedStateGeneration))

structure Inv (s : System) : Prop where
  waiters_eq : s.signal.waiters = s.waiters.countP active
  credits_le : s.signal.credits ≤ s.signal.waiters

theorem credits_capacityReleased_le {g : CapacitySignal} (h : g.credits ≤ g.waiters) (units : ℕ) :
    (g.capacityReleased units).credits ≤ g.waiters ∧
      (g.capacityReleased units).waiters = g.waiters := by
  unfold CapacitySignal.capacityReleased
  split_ifs
  · exact ⟨h, rfl⟩
  · exact ⟨h, rfl⟩
  · exact ⟨min_le_right _ _, rfl⟩

theorem consumeCredit_eq_some {g g' : CapacitySignal} (h : g.consumeCredit = some g') :
    0 < g.credits ∧ g' = { g with credits := g.credits - 1 } := by
  unfold CapacitySignal.consumeCredit at h
  split_ifs at h with hzero
  exact ⟨Nat.pos_of_ne_zero hzero, (Option.some.inj h).symm⟩

theorem unregister_accounts {g : CapacitySignal} {others : ℕ} (h : g.waiters = others + 1) :
    g.unregister.waiters = others ∧ g.unregister.credits = min g.credits others := by
  unfold CapacitySignal.unregister
  rw [if_neg (by omega), h, Nat.add_sub_cancel]
  dsimp only
  split_ifs with hlt
  · exact ⟨rfl, (min_eq_right hlt.le).symm⟩
  · exact ⟨rfl, (min_eq_left (Nat.le_of_not_lt hlt)).symm⟩

section Steps

variable {s t : System} {i : ℕ} {waiter waiter' : CapacityWaiter}

theorem waitForChange_eq_some (h : waitForChange s waiter = some (t, waiter')) :
    waiter'.active = waiter.active ∧ t.waiters = s.waiters ∧
      t.signal.waiters = s.signal.waiters ∧ t.signal.credits ≤ s.signal.credits := by
  unfold waitForChange at h
  split at h
  · rename_i signal hcredit
    obtain ⟨-, rfl⟩ := consumeCredit_eq_some hcredit
    cases h
    exact ⟨rfl, rfl, rfl, Nat.sub_le _ _⟩
  · split_ifs at h
    cases h
    exact ⟨rfl, rfl, rfl, le_rfl⟩

theorem countP_eraseIdx (h : s.waiters[i]? = some waiter) :
    s.waiters.countP active = (s.waiters.eraseIdx i).countP active + waiter.active.toNat := by
  obtain ⟨hi, rfl⟩ := List.getElem?_eq_some_iff.mp h
  rw [← (List.getElem_cons_eraseIdx_perm hi).countP_eq active, List.countP_cons]
  cases s.waiters[i].active <;> rfl

theorem finishAcquired_eq_some (h : step s (.finishAcquired i) = some t) :
    ∃ waiter, s.waiters[i]? = some waiter ∧ t.signal = (finishAcquired s.signal waiter).1 ∧
      t.waiters = s.waiters.set i (finishAcquired s.signal waiter).2 := by
  obtain ⟨waiter, hwaiter, h⟩ := Option.bind_eq_some_iff.mp h
  cases h
  exact ⟨waiter, hwaiter, rfl, rfl⟩

theorem drop_eq_some (h : step s (.drop i) = some t) :
    ∃ waiter, s.waiters[i]? = some waiter ∧ t.waiters = s.waiters.eraseIdx i ∧
      t.stateGeneration = s.stateGeneration ∧
      t.signal = if waiter.active then s.signal.unregister else s.signal := by
  obtain ⟨waiter, hwaiter, h⟩ := Option.bind_eq_some_iff.mp h
  cases h
  exact ⟨waiter, hwaiter, rfl, rfl, rfl⟩

end Steps

theorem Inv.step {s t : System} {call : Call} (h : Inv s)
    (ht : CapacityWaiter.step s call = some t) : Inv t := by
  cases call with
  | register =>
    cases ht
    refine ⟨?_, h.credits_le.trans (Nat.le_succ _)⟩
    change s.signal.waiters + 1 = (s.waiters ++ [_]).countP active
    rw [h.waiters_eq, List.countP_append]
    rfl
  | capacityReleased units =>
    cases ht
    obtain ⟨hcredits, hwaiters⟩ := credits_capacityReleased_le h.credits_le units
    exact ⟨hwaiters.trans h.waiters_eq, hcredits.trans_eq hwaiters.symm⟩
  | notifyStateChanged =>
    cases ht
    exact ⟨h.waiters_eq, h.credits_le⟩
  | waitForChange i =>
    obtain ⟨waiter, hwaiter, ht⟩ := Option.bind_eq_some_iff.mp ht
    obtain ⟨⟨s', waiter'⟩, hwait, ht⟩ := Option.bind_eq_some_iff.mp ht
    cases ht
    obtain ⟨hactive, hwaiters, hcount, hcredits⟩ := waitForChange_eq_some hwait
    have hset := Parties.countP_set_add (b := waiter') active hwaiter
    rw [hactive] at hset
    refine ⟨?_, ?_⟩
    · change s'.signal.waiters = (s'.waiters.set i waiter').countP active
      rw [hwaiters, Nat.add_right_cancel hset, hcount, h.waiters_eq]
    · exact hcredits.trans (h.credits_le.trans_eq hcount.symm)
  | finishAcquired i =>
    obtain ⟨waiter, hwaiter, hsignal, hwaiters⟩ := finishAcquired_eq_some ht
    have hset := Parties.countP_set_add (b := (finishAcquired s.signal waiter).2) active hwaiter
    rw [← hwaiters, ← h.waiters_eq] at hset
    unfold finishAcquired at hsignal hset
    cases hactive : waiter.active with
    | false =>
      rw [if_pos hactive] at hsignal hset
      exact ⟨hsignal ▸ (Nat.add_right_cancel hset).symm, hsignal ▸ h.credits_le⟩
    | true =>
      rw [if_neg (by rw [hactive]; exact Bool.noConfusion)] at hsignal hset
      rw [hactive] at hset
      obtain ⟨hcount, hcredits⟩ := unregister_accounts hset.symm
      refine ⟨hsignal ▸ hcount, ?_⟩
      rw [hsignal, hcount, hcredits]
      exact min_le_right _ _
  | drop i =>
    obtain ⟨waiter, hwaiter, hwaiters, -, hsignal⟩ := drop_eq_some ht
    have herase := countP_eraseIdx hwaiter
    rw [← h.waiters_eq, ← hwaiters] at herase
    cases hactive : waiter.active with
    | false =>
      rw [hactive] at hsignal herase
      exact ⟨hsignal ▸ herase, hsignal ▸ h.credits_le⟩
    | true =>
      rw [hactive] at hsignal herase
      obtain ⟨hcount, hcredits⟩ := unregister_accounts herase
      rw [if_pos rfl] at hsignal
      refine ⟨hsignal ▸ hcount, ?_⟩
      rw [hsignal, hcount, hcredits]
      exact min_le_right _ _

theorem inv_new : Inv new := ⟨rfl, le_rfl⟩

/-- When a registered waiter is dropped, woken or not, a wake-up is left for the others exactly
when a credit has not been claimed or one of them has a change of the state to see. -/
theorem drop_leaves_wakeup_iff {s t : System} {calls : List Call} {i : ℕ} {waiter : CapacityWaiter}
    (hrun : run new calls = some s) (hwaiter : s.waiters[i]? = some waiter)
    (hactive : waiter.active = true)
    (hothers : ∃ other ∈ s.waiters.eraseIdx i, other.active = true)
    (hdrop : step s (.drop i) = some t) :
    0 < t.signal.credits ∨ StateChangePending t ↔
      0 < s.signal.credits ∨ ∃ other ∈ s.waiters.eraseIdx i,
        other.active = true ∧ s.stateGeneration ≠ other.observedStateGeneration := by
  have h : Inv s :=
    Transition.run_invariant (fun _ => True) (fun _ _ _ _ => Inv.step) (fun _ _ => trivial)
      inv_new hrun
  obtain ⟨_, hwaiter', hwaiters, hgeneration, hsignal⟩ := drop_eq_some hdrop
  cases hwaiter.symm.trans hwaiter'
  rw [if_pos hactive] at hsignal
  have hpos : 0 < (s.waiters.eraseIdx i).countP active := List.countP_pos_iff.mpr hothers
  have herase := countP_eraseIdx hwaiter
  rw [← h.waiters_eq, hactive] at herase
  have hcredits := (unregister_accounts herase).2
  rw [StateChangePending, hwaiters, hgeneration, hsignal, hcredits, lt_min_iff,
    and_iff_left hpos]

/-- Two slots are released, and one of the three waiters gives up after it was woken. -/
theorem drop_leaves_wakeup_iff_two :
    ∃ s t, run new [.register, .register, .register, .capacityReleased 2, .waitForChange 0] =
        some s ∧ step s (.drop 0) = some t ∧
      (0 < t.signal.credits ∨ StateChangePending t ↔
        0 < s.signal.credits ∨ ∃ other ∈ s.waiters.eraseIdx 0,
          other.active = true ∧ s.stateGeneration ≠ other.observedStateGeneration) :=
  ⟨_, _, rfl, rfl, @drop_leaves_wakeup_iff _ _
    [.register, .register, .register, .capacityReleased 2, .waitForChange 0] 0 _ rfl rfl rfl
    (by decide) rfl⟩

/-- The slot of the waiter that gives up is free, and the other one sleeps on. -/
theorem drop_loses_wakeup :
    ∃ s t, run new [.register, .register, .capacityReleased 1, .waitForChange 0] = some s ∧
      (∃ waiter, s.waiters[0]? = some waiter ∧ waiter.active = true ∧ waiter.claimed = true) ∧
      (∃ other ∈ s.waiters.eraseIdx 0, other.active = true) ∧ step s (.drop 0) = some t ∧
      ¬ (0 < t.signal.credits ∨ StateChangePending t) ∧ step t (.waitForChange 0) = none :=
  ⟨_, _, rfl, ⟨_, rfl, rfl, rfl⟩, by decide, rfl, by decide, rfl⟩

end CapacityWaiter

end KiroProxy
