import KiroProxy.KeyedList
import KiroProxy.RequestAdmission

/-!
# The key states of the request admission

Every request key has one state, which `state_for` looks up in sixteen locked maps or allocates. A
counter bounds how many states there are: a slot is taken before the lock and given back when
another call was faster. States that nobody holds are evicted after a while.

A section under the lock of a shard is one step, but for its `fetch_sub` on the counter, which is
a step of its own after it; that the lock is held until then only takes interleavings away. What
permits and waiters do under the lock of their gate may come at any time and change the gate in any
way, and a reference may be cloned or dropped by any of its holders.
-/

namespace KiroProxy.RequestKeyStates
open Parties
open RequestAdmission (ConcurrencyGate AdmissionRejectionKind u64Max)

abbrev stateShards : ℕ := 16

def cleanupInterval : ℕ := 64

def usizeValues : ℕ := 2 ^ 64

abbrev Digest := Fin 32 → UInt8

structure RequestApiKeyIdentity where
  digest : Digest
  deriving DecidableEq

def RequestApiKeyIdentity.shardIndex (identity : RequestApiKeyIdentity) : Fin stateShards :=
  Fin.ofNat stateShards (identity.digest 0).toNat

structure KeyState where
  gate : ConcurrencyGate
  lastSeenMs : ℕ
  deriving DecidableEq

def KeyState.new (lastSeenMs : ℕ) : KeyState := ⟨.default, lastSeenMs⟩

def KeyState.isIdle (state : KeyState) : Bool := state.gate.active = 0 ∧ state.gate.queued = 0

/-- A permit, a waiter, a rejection or an attribution with its reference to a state. -/
structure Holder where
  identity : RequestApiKeyIdentity
  state : ℕ
  deriving DecidableEq

/-- The controller with the memory of the key states, known by the order of their allocation, and
the references to them outside the maps. -/
structure RequestAdmissionController where
  shards : Fin stateShards → List (Digest × ℕ)
  trackedKeys : ℕ
  operations : ℕ
  stateTtlMs : ℕ
  maxTrackedKeys : ℕ
  states : ℕ → KeyState
  allocated : ℕ
  holders : List Holder

namespace RequestAdmissionController

def new (stateTtlMs maxTrackedKeys : ℕ) : RequestAdmissionController where
  shards := fun _ => []
  trackedKeys := 0
  operations := 0
  stateTtlMs := stateTtlMs
  maxTrackedKeys := max maxTrackedKeys 1
  states := fun _ => .new 0
  allocated := 0
  holders := []

variable (controller : RequestAdmissionController)

/-- The number of map entries. -/
def entries : ℕ := ∑ shard, (controller.shards shard).length

def lookup (identity : RequestApiKeyIdentity) : Option ℕ :=
  KeyedList.get identity.digest (controller.shards identity.shardIndex)

def strongCount (state : ℕ) : ℕ :=
  ∑ shard, (controller.shards shard).countP (fun entry => entry.2 = state) +
    controller.holders.countP fun holder => holder.state = state

def retains (nowMs state : ℕ) : Bool :=
  let idleFor := nowMs - (controller.states state).lastSeenMs
  idleFor < min controller.stateTtlMs u64Max ∨ 1 < controller.strongCount state ∨
    (controller.states state).isIdle = false

def cleanupShard (shard : Fin stateShards) (nowMs : ℕ) : RequestAdmissionController × ℕ :=
  let before := controller.shards shard
  let after := before.filter fun entry => controller.retains nowMs entry.2
  ({ controller with shards := Function.update controller.shards shard after },
    before.length - after.length)

def reserveStateSlot : Option RequestAdmissionController :=
  if controller.trackedKeys < controller.maxTrackedKeys then
    some { controller with trackedKeys := controller.trackedKeys + 1 }
  else none

/-- `fetch_sub` on the counter, which wraps below zero. -/
def subtract (count : ℕ) : RequestAdmissionController :=
  { controller with
    trackedKeys :=
      if count ≤ controller.trackedKeys then controller.trackedKeys - count
      else controller.trackedKeys + usizeValues - count }

def changeState (state : ℕ) (f : KeyState → KeyState) : RequestAdmissionController :=
  { controller with states := Function.update controller.states state (f (controller.states state)) }

def hold (holder : Holder) : RequestAdmissionController :=
  { controller with holders := controller.holders ++ [holder] }

/-- An entry that was found is seen and its state handed out. -/
def reuse (identity : RequestApiKeyIdentity) (state nowMs : ℕ) : RequestAdmissionController :=
  (controller.changeState state fun keyState => { keyState with lastSeenMs := nowMs }).hold
    ⟨identity, state⟩

def enter (identity : RequestApiKeyIdentity) (nowMs : ℕ) : RequestAdmissionController :=
  let shard := controller.shards identity.shardIndex
  { controller with
    shards := Function.update controller.shards identity.shardIndex
      (KeyedList.insert identity.digest controller.allocated shard)
    states := Function.update controller.states controller.allocated (.new nowMs)
    allocated := controller.allocated + 1
    holders := controller.holders ++ [⟨identity, controller.allocated⟩] }

end RequestAdmissionController

inductive AfterCleanup where
  | lookup (identity : RequestApiKeyIdentity)
  | reserveAgain (identity : RequestApiKeyIdentity)
  | done
  deriving DecidableEq

/-- Where a call stands, with the time at which it started. -/
inductive Call where
  /-- `state_for` has not counted its operation. -/
  | starting (identity : RequestApiKeyIdentity) (nowMs : ℕ)
  /-- The shards are still to be cleaned up. -/
  | cleaning (shards : List (Fin stateShards)) (nowMs : ℕ) (after : AfterCleanup)
  /-- Entries have been removed from a shard, but not been subtracted. -/
  | subtracting (removed : ℕ) (shards : List (Fin stateShards)) (nowMs : ℕ) (after : AfterCleanup)
  | lookup (identity : RequestApiKeyIdentity) (nowMs : ℕ)
  | reserving (identity : RequestApiKeyIdentity) (nowMs : ℕ)
  | reservingAgain (identity : RequestApiKeyIdentity) (nowMs : ℕ)
  /-- A slot has been reserved. -/
  | entering (identity : RequestApiKeyIdentity) (nowMs : ℕ)
  /-- The second lookup has found a state, but its slot not been given back. -/
  | givingBack (state : ℕ)
  | returned (result : Except AdmissionRejectionKind ℕ)
  | cleaned

def AfterCleanup.call (nowMs : ℕ) : AfterCleanup → Call
  | .lookup identity => .lookup identity nowMs
  | .reserveAgain identity => .reservingAgain identity nowMs
  | .done => .cleaned

def Call.inProgress : Call → Bool
  | .returned _ => false
  | .cleaned => false
  | _ => true

/-- What the next `fetch_sub` of a call takes off the counter. -/
def Call.subtrahend : Call → ℕ
  | .subtracting removed _ _ _ => removed
  | .givingBack _ => 1
  | _ => 0

def cleanupAll : List (Fin stateShards) := List.finRange stateShards

def advance (controller : RequestAdmissionController) :
    Call → Option (RequestAdmissionController × Call)
  | .starting identity nowMs =>
    let operation := controller.operations
    let controller := { controller with operations := (operation + 1) % usizeValues }
    if operation % cleanupInterval = 0 then
      let shard := Fin.ofNat stateShards (identity.shardIndex + operation / cleanupInterval)
      some (controller, .cleaning [shard] nowMs (.lookup identity))
    else some (controller, .lookup identity nowMs)
  | .cleaning [] nowMs after => some (controller, after.call nowMs)
  | .cleaning (shard :: shards) nowMs after =>
    let (controller, removed) := controller.cleanupShard shard nowMs
    if 0 < removed then some (controller, .subtracting removed shards nowMs after)
    else some (controller, .cleaning shards nowMs after)
  | .subtracting removed shards nowMs after =>
    some (controller.subtract removed, .cleaning shards nowMs after)
  | .lookup identity nowMs =>
    match controller.lookup identity with
    | some state => some (controller.reuse identity state nowMs, .returned (.ok state))
    | none => some (controller, .reserving identity nowMs)
  | .reserving identity nowMs =>
    match controller.reserveStateSlot with
    | some controller => some (controller, .entering identity nowMs)
    | none => some (controller, .cleaning cleanupAll nowMs (.reserveAgain identity))
  | .reservingAgain identity nowMs =>
    match controller.reserveStateSlot with
    | some controller => some (controller, .entering identity nowMs)
    | none => some (controller, .returned (.error .stateCapacity))
  | .entering identity nowMs =>
    match controller.lookup identity with
    -- Under the lock it makes no difference that the slot is given back after the clone.
    | some state => some (controller.reuse identity state nowMs, .givingBack state)
    | none =>
      some (controller.enter identity nowMs, .returned (.ok controller.allocated))
  | .givingBack state => some (controller.subtract 1, .returned (.ok state))
  | .returned _ => none
  | .cleaned => none

abbrev System := Parties.System RequestAdmissionController Call

inductive Action where
  | stateFor (identity : RequestApiKeyIdentity) (nowMs : ℕ)
  | cleanupShard (shard : Fin stateShards) (nowMs : ℕ)
  | cleanupAll (nowMs : ℕ)
  | advance (call : ℕ)
  | clone (holder : ℕ)
  /-- A section of a permit or a waiter under the lock of the gate. -/
  | changeGate (holder : ℕ) (gate : ConcurrencyGate)
  | drop (holder : ℕ)

def step (s : System) : Action → Option System
  | .stateFor identity nowMs => some (s.join (.starting identity nowMs))
  | .cleanupShard shard nowMs => some (s.join (.cleaning [shard] nowMs .done))
  | .cleanupAll nowMs => some (s.join (.cleaning cleanupAll nowMs .done))
  | .advance call => s.act advance call
  | .clone holder =>
    s.shared.holders[holder]?.map fun holder => { s with shared := s.shared.hold holder }
  | .changeGate holder gate =>
    s.shared.holders[holder]?.map fun holder =>
      { s with shared := s.shared.changeState holder.state fun state => { state with gate } }
  | .drop holder =>
    if holder < s.shared.holders.length then
      some { s with shared := { s.shared with holders := s.shared.holders.eraseIdx holder } }
    else none

def new (stateTtlMs maxTrackedKeys : ℕ) : System := ⟨.new stateTtlMs maxTrackedKeys, []⟩

def run : System → List Action → Option System := Transition.run step

/-- What a call still has to take off the counter, or to cover by an entry. -/
def Call.owed : Call → ℕ
  | .subtracting removed _ _ _ => removed
  | .entering _ _ => 1
  | .givingBack _ => 1
  | _ => 0

/-- The counter covers the entries and what the calls owe, and a state that is held is the one in
the map. -/
structure Accounted (capacity : ℕ) (controller : RequestAdmissionController) (owed : ℕ) : Prop where
  maxTrackedKeys_eq : controller.maxTrackedKeys = capacity
  trackedKeys_eq : controller.trackedKeys = controller.entries + owed
  trackedKeys_le : controller.trackedKeys ≤ capacity
  held : ∀ holder ∈ controller.holders, controller.lookup holder.identity = some holder.state

section Controller

variable {controller controller' : RequestAdmissionController} {identity : RequestApiKeyIdentity}
  {capacity owed state nowMs count : ℕ}

theorem sum_length_update (shards : Fin stateShards → List (Digest × ℕ)) (i : Fin stateShards)
    (shard : List (Digest × ℕ)) :
    ∑ j, (Function.update shards i shard j).length + (shards i).length =
      ∑ j, (shards j).length + shard.length := by
  have hrest : ∑ j ∈ Finset.univ.erase i, (Function.update shards i shard j).length =
      ∑ j ∈ Finset.univ.erase i, (shards j).length := by
    apply Finset.sum_congr rfl
    intro j hj
    rw [Function.update_of_ne (Finset.ne_of_mem_erase hj)]
  rw [← Finset.add_sum_erase _ _ (Finset.mem_univ i), hrest, Function.update_self,
    ← Finset.add_sum_erase _ (fun j => (shards j).length) (Finset.mem_univ i)]
  omega

theorem one_lt_strongCount {holder : Holder} (hmem : holder ∈ controller.holders)
    (hentry : controller.lookup holder.identity = some holder.state) :
    1 < controller.strongCount holder.state := by
  have hentries : 0 < ∑ shard,
      (controller.shards shard).countP (fun entry => entry.2 = holder.state) := by
    apply Finset.sum_pos' (fun _ _ => Nat.zero_le _)
    refine ⟨holder.identity.shardIndex, Finset.mem_univ _, List.countP_pos_iff.mpr ?_⟩
    exact ⟨_, KeyedList.mem_of_get hentry, decide_eq_true rfl⟩
  have hholders : 0 < controller.holders.countP fun other => other.state = holder.state :=
    List.countP_pos_iff.mpr ⟨holder, hmem, decide_eq_true rfl⟩
  unfold RequestAdmissionController.strongCount
  omega

theorem Accounted.eq_of_held {a b : Holder} (h : Accounted capacity controller owed)
    (ha : a ∈ controller.holders) (hb : b ∈ controller.holders) (heq : a.identity = b.identity) :
    a.state = b.state := by
  apply Option.some.inj
  rw [← h.held a ha, ← h.held b hb, heq]

theorem Accounted.cleanupShard (h : Accounted capacity controller owed) (shard : Fin stateShards)
    (nowMs : ℕ) :
    Accounted capacity (controller.cleanupShard shard nowMs).1
      (owed + (controller.cleanupShard shard nowMs).2) := by
  refine ⟨h.maxTrackedKeys_eq, ?_, h.trackedKeys_le, ?_⟩
  · have hsum := sum_length_update controller.shards shard
      ((controller.shards shard).filter fun entry => controller.retains nowMs entry.2)
    have hlength := List.length_filter_le (fun entry => controller.retains nowMs entry.2)
      (controller.shards shard)
    have htracked := h.trackedKeys_eq
    unfold RequestAdmissionController.entries at htracked ⊢
    dsimp only [RequestAdmissionController.cleanupShard]
    omega
  · intro holder hmem
    have hentry := h.held holder hmem
    have hretains : controller.retains nowMs holder.state = true :=
      decide_eq_true (.inr (.inl (one_lt_strongCount hmem hentry)))
    dsimp only [RequestAdmissionController.cleanupShard, RequestAdmissionController.lookup]
    by_cases hshard : holder.identity.shardIndex = shard
    · subst hshard
      rw [Function.update_self]
      exact KeyedList.get_filter_of_pos hentry hretains
    · rw [Function.update_of_ne hshard]
      exact hentry

theorem Accounted.reserveStateSlot (h : Accounted capacity controller owed)
    (hreserve : controller.reserveStateSlot = some controller') :
    Accounted capacity controller' (owed + 1) := by
  unfold RequestAdmissionController.reserveStateSlot at hreserve
  split_ifs at hreserve with hlt
  cases hreserve
  refine ⟨h.maxTrackedKeys_eq, ?_, ?_, h.held⟩
  · have htracked := h.trackedKeys_eq
    change controller.trackedKeys + 1 = controller.entries + (owed + 1)
    omega
  · rw [h.maxTrackedKeys_eq] at hlt
    exact hlt

theorem Accounted.subtract (h : Accounted capacity controller (owed + count)) :
    Accounted capacity (controller.subtract count) owed := by
  have htracked := h.trackedKeys_eq
  have hle := h.trackedKeys_le
  have hsubtract : (controller.subtract count).trackedKeys = controller.trackedKeys - count :=
    if_pos (by omega)
  refine ⟨h.maxTrackedKeys_eq, ?_, ?_, h.held⟩
  · change _ = controller.entries + owed
    omega
  · omega

theorem Accounted.reuse (h : Accounted capacity controller owed)
    (hlookup : controller.lookup identity = some state) :
    Accounted capacity (controller.reuse identity state nowMs) owed := by
  refine ⟨h.maxTrackedKeys_eq, h.trackedKeys_eq, h.trackedKeys_le, fun holder hmem => ?_⟩
  rcases List.mem_append.mp hmem with hmem | hmem
  · exact h.held holder hmem
  · cases List.mem_singleton.mp hmem
    exact hlookup

/-- A new entry uses up the slot that was reserved for it. -/
theorem Accounted.enter (h : Accounted capacity controller (owed + 1))
    (hlookup : controller.lookup identity = none) :
    Accounted capacity (controller.enter identity nowMs) owed := by
  refine ⟨h.maxTrackedKeys_eq, ?_, h.trackedKeys_le, ?_⟩
  · have hsum := sum_length_update controller.shards identity.shardIndex
      (KeyedList.insert identity.digest controller.allocated
        (controller.shards identity.shardIndex))
    have hlength : (KeyedList.insert identity.digest controller.allocated
        (controller.shards identity.shardIndex)).length =
          (controller.shards identity.shardIndex).length + 1 := by
      rw [KeyedList.insert_of_get_eq_none hlookup, List.length_append, List.length_singleton]
    have htracked := h.trackedKeys_eq
    unfold RequestAdmissionController.entries at htracked ⊢
    dsimp only [RequestAdmissionController.enter]
    omega
  · intro holder hmem
    dsimp only [RequestAdmissionController.enter, RequestAdmissionController.lookup]
    rcases List.mem_append.mp hmem with hmem | hmem
    · have hentry := h.held holder hmem
      have hne : holder.identity ≠ identity := by
        rintro rfl
        cases hentry.symm.trans hlookup
      by_cases hshard : holder.identity.shardIndex = identity.shardIndex
      · have hdigest : holder.identity.digest ≠ identity.digest :=
          fun heq => hne (congrArg RequestApiKeyIdentity.mk heq)
        rw [hshard, Function.update_self, KeyedList.get_insert_of_ne hdigest, ← hshard]
        exact hentry
      · rw [Function.update_of_ne hshard]
        exact hentry
    · cases List.mem_singleton.mp hmem
      rw [Function.update_self, KeyedList.get_insert_self]

theorem Call.owed_of_not_inProgress {call : Call} (h : call.inProgress = false) :
    call.owed = 0 := by
  cases call with
  | returned result => rfl
  | cleaned => rfl
  | _ => cases h

theorem Call.subtrahend_le_owed (call : Call) : call.subtrahend ≤ call.owed := by
  cases call with
  | subtracting removed shards nowMs after => exact le_rfl
  | givingBack state => exact le_rfl
  | _ => exact Nat.zero_le _

theorem Call.owed_call (nowMs : ℕ) (after : AfterCleanup) : (after.call nowMs).owed = 0 := by
  cases after <;> rfl

/-- A call moves what it owes between the counter, the entries and itself. -/
theorem Accounted.advance {call call' : Call} (h : Accounted capacity controller (owed + call.owed))
    (hstep : advance controller call = some (controller', call')) :
    Accounted capacity controller' (owed + call'.owed) := by
  cases call with
  | starting identity nowMs =>
    have hcounted : Accounted capacity
        { controller with operations := (controller.operations + 1) % usizeValues } owed :=
      ⟨h.maxTrackedKeys_eq, h.trackedKeys_eq, h.trackedKeys_le, h.held⟩
    dsimp only [RequestKeyStates.advance] at hstep
    split_ifs at hstep
    · cases hstep
      exact hcounted
    · cases hstep
      exact hcounted
  | cleaning shards nowMs after =>
    cases shards with
    | nil =>
      cases hstep
      rw [Call.owed_call]
      exact h
    | cons shard shards =>
      have hcleaned := h.cleanupShard shard nowMs
      dsimp only [RequestKeyStates.advance] at hstep
      split_ifs at hstep with hremoved
      · cases hstep
        exact hcleaned
      · cases hstep
        rw [Nat.eq_zero_of_not_pos hremoved] at hcleaned
        exact hcleaned
  | subtracting removed shards nowMs after =>
    cases hstep
    exact h.subtract
  | lookup identity nowMs =>
    dsimp only [RequestKeyStates.advance] at hstep
    cases hlookup : controller.lookup identity with
    | some state =>
      rw [hlookup] at hstep
      cases hstep
      exact h.reuse hlookup
    | none =>
      rw [hlookup] at hstep
      cases hstep
      exact h
  | reserving identity nowMs =>
    dsimp only [RequestKeyStates.advance] at hstep
    cases hreserve : controller.reserveStateSlot with
    | some reserved =>
      rw [hreserve] at hstep
      cases hstep
      exact h.reserveStateSlot hreserve
    | none =>
      rw [hreserve] at hstep
      cases hstep
      exact h
  | reservingAgain identity nowMs =>
    dsimp only [RequestKeyStates.advance] at hstep
    cases hreserve : controller.reserveStateSlot with
    | some reserved =>
      rw [hreserve] at hstep
      cases hstep
      exact h.reserveStateSlot hreserve
    | none =>
      rw [hreserve] at hstep
      cases hstep
      exact h
  | entering identity nowMs =>
    dsimp only [RequestKeyStates.advance] at hstep
    cases hlookup : controller.lookup identity with
    | some state =>
      rw [hlookup] at hstep
      cases hstep
      exact h.reuse hlookup
    | none =>
      rw [hlookup] at hstep
      cases hstep
      exact h.enter hlookup
  | givingBack state =>
    cases hstep
    exact h.subtract
  | returned result => cases hstep
  | cleaned => cases hstep

theorem Accounted.of_holders_subset {holders : List Holder} {states : ℕ → KeyState}
    (h : Accounted capacity controller owed) (hsubset : holders ⊆ controller.holders) :
    Accounted capacity { controller with holders, states } owed :=
  ⟨h.maxTrackedKeys_eq, h.trackedKeys_eq, h.trackedKeys_le, fun holder hmem =>
    h.held holder (hsubset hmem)⟩

end Controller

def Inv (capacity : ℕ) (s : System) : Prop :=
  Accounted capacity s.shared (s.parties.map Call.owed).sum

theorem Inv.join {capacity : ℕ} {s : System} {call : Call} (h : Inv capacity s)
    (howed : call.owed = 0) : Inv capacity (s.join call) := by
  unfold Inv System.join
  rw [List.map_append, List.sum_append, List.map_singleton, List.sum_singleton, howed,
    Nat.add_zero]
  exact h

theorem Inv.step {capacity : ℕ} {s t : System} {action : Action} (h : Inv capacity s)
    (hstep : step s action = some t) : Inv capacity t := by
  cases action with
  | stateFor identity nowMs =>
    cases hstep
    exact h.join rfl
  | cleanupShard shard nowMs =>
    cases hstep
    exact h.join rfl
  | cleanupAll nowMs =>
    cases hstep
    exact h.join rfl
  | advance i =>
    obtain ⟨call, controller, call', hcall, hadvance, rfl⟩ := System.act_eq_some hstep
    obtain ⟨rest, hperm, hset⟩ := exists_perm_set hcall
    unfold Inv at h ⊢
    rw [(hperm.map Call.owed).sum_eq, List.map_cons, List.sum_cons, Nat.add_comm] at h
    rw [((hset call').map Call.owed).sum_eq, List.map_cons, List.sum_cons, Nat.add_comm]
    exact h.advance hadvance
  | clone i =>
    obtain ⟨holder, hholder, rfl⟩ := Option.map_eq_some_iff.mp hstep
    apply h.of_holders_subset
    intro other hother
    rcases List.mem_append.mp hother with hother | hother
    · exact hother
    · rw [List.mem_singleton.mp hother]
      exact List.mem_of_getElem? hholder
  | changeGate i gate =>
    obtain ⟨holder, hholder, rfl⟩ := Option.map_eq_some_iff.mp hstep
    exact h.of_holders_subset fun _ hother => hother
  | drop i =>
    rw [RequestKeyStates.step] at hstep
    split_ifs at hstep
    cases hstep
    exact h.of_holders_subset fun _ hother => List.mem_of_mem_eraseIdx hother

theorem inv_new (stateTtlMs maxTrackedKeys : ℕ) :
    Inv (max maxTrackedKeys 1) (new stateTtlMs maxTrackedKeys) := by
  have hentries : (new stateTtlMs maxTrackedKeys).shared.entries = 0 :=
    Finset.sum_const_zero
  refine ⟨rfl, ?_, Nat.zero_le _, fun _ hmem => absurd hmem List.not_mem_nil⟩
  rw [hentries]
  rfl

/-- The counter is exact whenever no call is under way, it never exceeds the bound or falls below
what a call is about to take off, and all holders of a key share one state. -/
theorem keyStates_shared {stateTtlMs maxTrackedKeys : ℕ} {s : System} {actions : List Action}
    (hrun : run (new stateTtlMs maxTrackedKeys) actions = some s) :
    ((∀ call ∈ s.parties, call.inProgress = false) → s.shared.trackedKeys = s.shared.entries) ∧
      s.shared.trackedKeys ≤ max maxTrackedKeys 1 ∧
      (∀ call ∈ s.parties, call.subtrahend ≤ s.shared.trackedKeys) ∧
      ∀ a ∈ s.shared.holders, ∀ b ∈ s.shared.holders, a.identity = b.identity →
        a.state = b.state := by
  have h : Inv (max maxTrackedKeys 1) s :=
    Transition.run_invariant (fun _ => True) (fun _ _ _ _ => Inv.step) (fun _ _ => trivial)
      (inv_new stateTtlMs maxTrackedKeys) hrun
  refine ⟨fun hquiet => ?_, h.trackedKeys_le, fun call hcall => ?_, fun a ha b hb =>
    h.eq_of_held ha hb⟩
  · have howed : (s.parties.map Call.owed).sum = 0 := by
      apply List.sum_eq_zero
      intro owed hmem
      obtain ⟨call, hcall, rfl⟩ := List.mem_map.mp hmem
      exact Call.owed_of_not_inProgress (hquiet call hcall)
    rw [h.trackedKeys_eq, howed, Nat.add_zero]
  · have howed : call.owed ≤ (s.parties.map Call.owed).sum :=
      List.single_le_sum (fun _ _ => Nat.zero_le _) _ (List.mem_map_of_mem hcall)
    rw [h.trackedKeys_eq]
    have hle := call.subtrahend_le_owed
    omega

def someKey : RequestApiKeyIdentity := ⟨fun _ => 7⟩

/-- Two calls for a new key, both of which reserve a slot before either takes the lock. -/
def race : List Action :=
  [.stateFor someKey 5, .stateFor someKey 5, .advance 0, .advance 0, .advance 0, .advance 0,
    .advance 1, .advance 1, .advance 0, .advance 1, .advance 0, .advance 1, .advance 1]

theorem keyStates_shared_race :
    ∃ s, run (new 0 2) race = some s ∧ s.shared.holders.length = 2 ∧
      ((∀ call ∈ s.parties, call.inProgress = false) → s.shared.trackedKeys = s.shared.entries) ∧
      s.shared.trackedKeys ≤ 2 ∧
      (∀ call ∈ s.parties, call.subtrahend ≤ s.shared.trackedKeys) ∧
      ∀ a ∈ s.shared.holders, ∀ b ∈ s.shared.holders, a.identity = b.identity →
        a.state = b.state :=
  ⟨_, rfl, rfl, @keyStates_shared 0 2 _ race rfl⟩

end KiroProxy.RequestKeyStates
