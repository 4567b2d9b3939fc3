import KiroProxy.Parties
import KiroProxy.TicketQueue
import KiroProxy.Transition
import Mathlib

/-!
# Concurrency of one request key

Requests under one key share a gate. A request that finds no room takes a ticket and waits, and
every section under the lock of the gate is one step. The policy is read and the temporary back-off
looked at before the lock is taken, so other steps come between. A waiting request may be woken at
any time; the notifications decide only when, and are left out, as are the request rate and the
delay that goes with a rejection.
-/

namespace KiroProxy.RequestAdmission
open Parties TicketQueue

def u32Max : ℕ := 2 ^ 32 - 1

def u64Max : ℕ := 2 ^ 64 - 1

structure RequestAdmissionConfig where
  maxConcurrentRequests : ℕ
  maxQueuedRequests : ℕ
  queueTimeoutMs : ℕ
  maxQueuedRequests_le : maxQueuedRequests ≤ u32Max := by decide
  deriving DecidableEq, Repr

structure ConcurrencyGate where
  active : ℕ
  queued : ℕ
  nextTicket : ℕ
  servingTicket : ℕ
  cancelledTickets : Finset ℕ
  deriving DecidableEq

inductive AdmissionRejectionKind where
  | rpm
  | concurrencyFull
  | queueFull
  | queueTimeout
  | stateCapacity
  | localTemporaryBackoff
  deriving DecidableEq, Repr

def ConcurrencyGate.default : ConcurrencyGate := ⟨0, 0, 0, 0, ∅⟩

def registerLocked (gate : ConcurrencyGate) : ℕ × ConcurrencyGate :=
  (gate.nextTicket,
    { gate with
      nextTicket := min (gate.nextTicket + 1) u64Max
      queued := min (gate.queued + 1) u32Max })

def skipCancelled : ℕ → ConcurrencyGate → ConcurrencyGate
  | 0, gate => gate
  | turns + 1, gate =>
    if gate.servingTicket ∈ gate.cancelledTickets then
      skipCancelled turns
        { gate with
          cancelledTickets := gate.cancelledTickets.erase gate.servingTicket
          servingTicket := min (gate.servingTicket + 1) u64Max }
    else gate

def releaseQueueTicket (gate : ConcurrencyGate) (ticket : ℕ) : ConcurrencyGate :=
  let gate := { gate with queued := gate.queued - 1 }
  let gate :=
    if ticket = gate.servingTicket then
      skipCancelled gate.cancelledTickets.card
        { gate with servingTicket := min (gate.servingTicket + 1) u64Max }
    else if gate.servingTicket < ticket then
      { gate with cancelledTickets := insert ticket gate.cancelledTickets }
    else gate
  if gate.queued = 0 then
    { gate with nextTicket := 0, servingTicket := 0, cancelledTickets := ∅ }
  else gate

def completeLocked (ticket : Option ℕ) (gate : ConcurrencyGate) : ConcurrencyGate :=
  match ticket with
  | none => gate
  | some ticket => releaseQueueTicket gate ticket

/-- Where a request stands in `acquire_concurrency` with its initial configuration and the ticket
of its registration. -/
inductive Request where
  | looping (initial : RequestAdmissionConfig) (ticket : Option ℕ)
  /-- The policy has been read, the gate not been taken. -/
  | deciding (initial : RequestAdmissionConfig) (ticket : Option ℕ)
    (current : RequestAdmissionConfig)
  /-- The request fails, but its registration has not been dropped. -/
  | failing (kind : AdmissionRejectionKind) (ticket : Option ℕ)
  /-- The request holds a permit that counts. -/
  | counted
  /-- The request holds a permit that does not count. -/
  | uncounted
  | rejected (kind : AdmissionRejectionKind)
  | cancelled
  | finished
  deriving DecidableEq, Repr

def queueTurn (ticket : Option ℕ) (gate : ConcurrencyGate) : Bool :=
  match ticket with
  | some ticket => ticket = gate.servingTicket
  | none => gate.queued = 0

/-- The section under the lock. -/
def enterGate (initial : RequestAdmissionConfig) (ticket : Option ℕ)
    (current : RequestAdmissionConfig) (gate : ConcurrencyGate) : ConcurrencyGate × Request :=
  if current.maxConcurrentRequests = 0 then (completeLocked ticket gate, .uncounted)
  else if gate.active < current.maxConcurrentRequests ∧ queueTurn ticket gate then
    (completeLocked ticket { gate with active := gate.active + 1 }, .counted)
  else
    match ticket with
    | some ticket =>
      if current.maxQueuedRequests < initial.maxQueuedRequests then
        (gate, .failing .queueFull (some ticket))
      else if current.queueTimeoutMs < initial.queueTimeoutMs then
        (gate, .failing .queueTimeout (some ticket))
      else (gate, .looping initial (some ticket))
    | none =>
      if ¬ (0 < initial.maxQueuedRequests ∧ 0 < initial.queueTimeoutMs) then
        (gate, .failing .concurrencyFull none)
      else if initial.maxQueuedRequests ≤ gate.queued then (gate, .failing .queueFull none)
      else
        let (ticket, gate) := registerLocked gate
        (gate, .looping initial (some ticket))

/-- The gate, the policy of the key, and the number of tickets issued so far. -/
structure Shared where
  gate : ConcurrencyGate
  policy : RequestAdmissionConfig
  issued : ℕ
  deriving DecidableEq

abbrev System := Parties.System Shared Request

inductive Move where
  | readPolicy
  /-- A temporary back-off of the key is in force. -/
  | backOff
  | enterGate
  | timeOut
  | cancel
  | dropRegistration
  | dropPermit
  deriving DecidableEq, Repr

def Request.ticket : Request → Option ℕ
  | .looping _ ticket => ticket
  | .deciding _ ticket _ => ticket
  | .failing _ ticket => ticket
  | _ => none

/-- How many tickets a request has taken under the lock. -/
def issuedTickets (ticket : Option ℕ) (request : Request) : ℕ :=
  match ticket, request.ticket with
  | none, some _ => 1
  | _, _ => 0

def advance : Move → Shared → Request → Option (Shared × Request)
  | .readPolicy, shared, .looping initial ticket =>
    some (shared, .deciding initial ticket shared.policy)
  | .backOff, shared, .deciding _ ticket current =>
    if current.maxConcurrentRequests = 0 then none
    else some (shared, .failing .localTemporaryBackoff ticket)
  | .enterGate, shared, .deciding initial ticket current =>
    let (gate, request) := RequestAdmission.enterGate initial ticket current shared.gate
    some ({ shared with gate, issued := shared.issued + issuedTickets ticket request }, request)
  | .timeOut, shared, .looping _ (some ticket) =>
    some (shared, .failing .queueTimeout (some ticket))
  | .cancel, shared, .looping _ ticket =>
    some ({ shared with gate := completeLocked ticket shared.gate }, .cancelled)
  | .dropRegistration, shared, .failing kind ticket =>
    some ({ shared with gate := completeLocked ticket shared.gate }, .rejected kind)
  | .dropPermit, shared, .counted =>
    some ({ shared with gate := { shared.gate with active := shared.gate.active - 1 } }, .finished)
  | .dropPermit, shared, .uncounted => some (shared, .finished)
  | _, _, _ => none

inductive Action where
  /-- A request has read its initial configuration and needs a permit that counts. -/
  | acquire (initial : RequestAdmissionConfig)
  | setPolicy (policy : RequestAdmissionConfig)
  | move (request : ℕ) (move : Move)
  deriving DecidableEq, Repr

def step (s : System) : Action → Option System
  | .acquire initial =>
    if initial.maxConcurrentRequests = 0 then none else some (s.join (.looping initial none))
  | .setPolicy policy => some { s with shared := { s.shared with policy } }
  | .move request move => s.act (advance move) request

def new (policy : RequestAdmissionConfig) : System := ⟨⟨.default, policy, 0⟩, []⟩

def run : System → List Action → Option System := Transition.run step

def liveTickets (requests : List Request) : List ℕ := requests.filterMap Request.ticket

structure ConcurrencyGate.InOrder (gate : ConcurrencyGate) (live : List ℕ) : Prop where
  split : Split gate.servingTicket gate.nextTicket gate.cancelledTickets live
  serving : gate.servingTicket ∉ gate.cancelledTickets
  queued : gate.queued = live.length
  next_le : gate.nextTicket ≤ u64Max

variable {gate : ConcurrencyGate} {live live' : List ℕ} {ticket : ℕ}

theorem ConcurrencyGate.InOrder.perm (h : gate.InOrder live) (hperm : live.Perm live') :
    gate.InOrder live' :=
  ⟨h.split.perm hperm, h.serving, h.queued.trans hperm.length_eq, h.next_le⟩

theorem ConcurrencyGate.InOrder.with_active (h : gate.InOrder live) (active : ℕ) :
    { gate with active }.InOrder live :=
  ⟨h.split, h.serving, h.queued, h.next_le⟩

theorem ConcurrencyGate.InOrder.register (h : gate.InOrder live) (hnext : gate.nextTicket < u64Max)
    (hqueued : gate.queued < u32Max) :
    (registerLocked gate).2.InOrder ((registerLocked gate).1 :: live) := by
  have hnextTicket : min (gate.nextTicket + 1) u64Max = gate.nextTicket + 1 :=
    Nat.min_eq_left hnext
  have hcount : min (gate.queued + 1) u32Max = gate.queued + 1 := Nat.min_eq_left hqueued
  constructor
  · dsimp only [registerLocked]
    rw [hnextTicket]
    exact h.split.issue
  · exact h.serving
  · dsimp only [registerLocked]
    rw [hcount, h.queued, List.length_cons]
  · exact Nat.min_le_right _ _

theorem skipCancelled_spec {turns : ℕ} (hturns : gate.cancelledTickets.card ≤ turns)
    (hsplit : Split gate.servingTicket gate.nextTicket gate.cancelledTickets live)
    (hnext : gate.nextTicket ≤ u64Max) :
    ∃ serving cancelled, skipCancelled turns gate =
        { gate with servingTicket := serving, cancelledTickets := cancelled } ∧
      Split serving gate.nextTicket cancelled live ∧ serving ∉ cancelled := by
  induction turns generalizing gate with
  | zero =>
    have hempty := Finset.card_eq_zero.mp (Nat.le_zero.mp hturns)
    refine ⟨_, _, rfl, hsplit, ?_⟩
    rw [hempty]
    exact Finset.notMem_empty _
  | succ turns ih =>
    rw [skipCancelled]
    split_ifs with hmem
    · have hskip := hsplit.skip hmem
      have hcard := Finset.card_erase_of_mem hmem
      have hserving : min (gate.servingTicket + 1) u64Max = gate.servingTicket + 1 :=
        Nat.min_eq_left (hskip.le.trans hnext)
      rw [hserving]
      exact ih (by dsimp only; omega) hskip hnext
    · exact ⟨_, _, rfl, hsplit, hmem⟩

theorem ConcurrencyGate.InOrder.release (h : gate.InOrder (ticket :: live)) :
    (releaseQueueTicket gate ticket).InOrder live := by
  have hqueued : gate.queued - 1 = live.length := by
    rw [h.queued, List.length_cons, Nat.add_sub_cancel]
  have hle := h.split.serving_le List.mem_cons_self
  -- Without the reset, the counter and the cancelled tickets are in order.
  obtain ⟨serving, cancelled, heq, hsplit, hserving⟩ : ∃ serving cancelled,
      releaseQueueTicket gate ticket =
        (if gate.queued - 1 = 0 then ⟨gate.active, gate.queued - 1, 0, 0, ∅⟩
        else ⟨gate.active, gate.queued - 1, gate.nextTicket, serving, cancelled⟩) ∧
      Split serving gate.nextTicket cancelled live ∧ serving ∉ cancelled := by
    unfold releaseQueueTicket
    dsimp only
    by_cases heq : ticket = gate.servingTicket
    · subst heq
      have hserve := h.split.serve
      have hadd : min (gate.servingTicket + 1) u64Max = gate.servingTicket + 1 :=
        Nat.min_eq_left (hserve.le.trans h.next_le)
      let passed : ConcurrencyGate := ⟨gate.active, gate.queued - 1, gate.nextTicket,
        gate.servingTicket + 1, gate.cancelledTickets⟩
      have hpassed : passed.cancelledTickets.card ≤ gate.cancelledTickets.card := le_rfl
      obtain ⟨serving, cancelled, hskip, hsplit, hserving⟩ :=
        skipCancelled_spec hpassed hserve h.next_le
      refine ⟨serving, cancelled, ?_, hsplit, hserving⟩
      rw [if_pos rfl, hadd, hskip]
    · have hlt : gate.servingTicket < ticket := by omega
      refine ⟨gate.servingTicket, insert ticket gate.cancelledTickets, ?_, h.split.cancel, ?_⟩
      · rw [if_neg heq, if_pos hlt]
      · rw [Finset.mem_insert, not_or]
        exact ⟨by omega, h.serving⟩
  rw [heq]
  split_ifs with hempty
  · rw [hqueued] at hempty
    rw [List.length_eq_zero_iff.mp hempty]
    refine ⟨Split.empty 0, Finset.notMem_empty 0, ?_, Nat.zero_le _⟩
    rw [hqueued, hempty]
    rfl
  · exact ⟨hsplit, hserving, hqueued, h.next_le⟩

theorem skipCancelled_active (turns : ℕ) (gate : ConcurrencyGate) :
    (skipCancelled turns gate).active = gate.active ∧
      (skipCancelled turns gate).nextTicket = gate.nextTicket := by
  induction turns generalizing gate with
  | zero => exact ⟨rfl, rfl⟩
  | succ turns ih =>
    rw [skipCancelled]
    split_ifs
    · exact ih _
    · exact ⟨rfl, rfl⟩

theorem releaseQueueTicket_active (gate : ConcurrencyGate) (ticket : ℕ) :
    (releaseQueueTicket gate ticket).active = gate.active ∧
      (releaseQueueTicket gate ticket).nextTicket ≤ gate.nextTicket := by
  have hskip := skipCancelled_active gate.cancelledTickets.card
    { gate with queued := gate.queued - 1, servingTicket := min (gate.servingTicket + 1) u64Max }
  unfold releaseQueueTicket
  dsimp only
  split_ifs
  · exact ⟨hskip.1, Nat.zero_le _⟩
  · exact ⟨hskip.1, hskip.2.le⟩
  · exact ⟨rfl, Nat.zero_le _⟩
  · exact ⟨rfl, le_rfl⟩
  · exact ⟨rfl, Nat.zero_le _⟩
  · exact ⟨rfl, le_rfl⟩

theorem completeLocked_active (ticket : Option ℕ) (gate : ConcurrencyGate) :
    (completeLocked ticket gate).active = gate.active := by
  cases ticket with
  | none => rfl
  | some ticket => exact (releaseQueueTicket_active gate ticket).1

def Request.isCounted : Request → Bool
  | .counted => true
  | _ => false

/-- A move leaves queue and permits alone, or it does one thing to one of them; only an admission
that counts does two. -/
inductive Moved (shared : Shared) : Request → Shared → Request → Prop
  | stay {p p' : Request} (ticket : p'.ticket = p.ticket) (before : p.isCounted = false)
      (after : p'.isCounted = false) : Moved shared p shared p'
  | register {initial current : RequestAdmissionConfig}
      (lt : shared.gate.queued < initial.maxQueuedRequests) :
      Moved shared (.deciding initial none current)
        { shared with gate := (registerLocked shared.gate).2, issued := shared.issued + 1 }
        (.looping initial (some (registerLocked shared.gate).1))
  | release {p p' : Request} {ticket : ℕ} (before : p.ticket = some ticket)
      (after : p'.ticket = none) (counted : p.isCounted = false) (counted' : p'.isCounted = false) :
      Moved shared p { shared with gate := releaseQueueTicket shared.gate ticket } p'
  | admitted {initial current : RequestAdmissionConfig} {ticket : Option ℕ}
      (lt : shared.gate.active < current.maxConcurrentRequests)
      (turn : queueTurn ticket shared.gate = true) :
      Moved shared (.deciding initial ticket current)
        { shared with
          gate := completeLocked ticket { shared.gate with active := shared.gate.active + 1 } }
        .counted
  | giveBack :
      Moved shared .counted
        { shared with gate := { shared.gate with active := shared.gate.active - 1 } } .finished

variable {shared shared' : Shared} {p p' : Request} {s s' : System} {a : Action}

theorem Moved.complete (p p' : Request) (hp : p.isCounted = false) (hp' : p'.isCounted = false)
    (hticket : p'.ticket = none) :
    Moved shared p { shared with gate := completeLocked p.ticket shared.gate } p' := by
  cases hbefore : p.ticket with
  | none => exact .stay (hticket.trans hbefore.symm) hp hp'
  | some ticket => exact .release hbefore hticket hp hp'

theorem moved_of_enterGate (initial current : RequestAdmissionConfig) (ticket : Option ℕ) :
    Moved shared (.deciding initial ticket current)
      { shared with
        gate := (enterGate initial ticket current shared.gate).1
        issued := shared.issued +
          issuedTickets ticket (enterGate initial ticket current shared.gate).2 }
      (enterGate initial ticket current shared.gate).2 := by
  have hnone (request : Request) (h : request.ticket = none) : issuedTickets ticket request = 0 := by
    unfold issuedTickets
    rw [h]
    cases ticket with
    | none => rfl
    | some ticket => rfl
  unfold enterGate
  by_cases hunlimited : current.maxConcurrentRequests = 0
  · rw [if_pos hunlimited, hnone _ rfl]
    exact .complete (.deciding initial ticket current) .uncounted rfl rfl rfl
  · rw [if_neg hunlimited]
    by_cases hroom : shared.gate.active < current.maxConcurrentRequests ∧
        queueTurn ticket shared.gate = true
    · rw [if_pos hroom, hnone _ rfl]
      exact .admitted hroom.1 hroom.2
    · rw [if_neg hroom]
      cases ticket with
      | some ticket =>
        dsimp only
        split_ifs
        · exact .stay rfl rfl rfl
        · exact .stay rfl rfl rfl
        · exact .stay rfl rfl rfl
      | none =>
        dsimp only
        split_ifs with hdisabled hfull
        · exact .stay rfl rfl rfl
        · exact .register (Nat.lt_of_not_le hfull)
        · exact .stay rfl rfl rfl

theorem moved_of_advance {move : Move} (h : advance move shared p = some (shared', p')) :
    Moved shared p shared' p' := by
  cases move with
  | readPolicy =>
    cases p with
    | looping initial ticket =>
      cases h
      exact .stay rfl rfl rfl
    | _ => cases h
  | backOff =>
    cases p with
    | deciding initial ticket current =>
      rw [advance] at h
      split_ifs at h
      cases h
      exact .stay rfl rfl rfl
    | _ => cases h
  | enterGate =>
    cases p with
    | deciding initial ticket current =>
      cases h
      exact moved_of_enterGate initial current ticket
    | _ => cases h
  | timeOut =>
    cases p with
    | looping initial ticket =>
      cases ticket with
      | none => cases h
      | some ticket =>
        cases h
        exact .stay rfl rfl rfl
    | _ => cases h
  | cancel =>
    cases p with
    | looping initial ticket =>
      cases h
      exact .complete (.looping initial ticket) .cancelled rfl rfl rfl
    | _ => cases h
  | dropRegistration =>
    cases p with
    | failing kind ticket =>
      cases h
      exact .complete (.failing kind ticket) (.rejected kind) rfl rfl rfl
    | _ => cases h
  | dropPermit =>
    cases p with
    | counted =>
      cases h
      exact .giveBack
    | uncounted =>
      cases h
      exact .stay rfl rfl rfl
    | _ => cases h

structure Inv (s : System) : Prop where
  active : s.shared.gate.active = s.parties.countP Request.isCounted
  inOrder : s.shared.gate.InOrder (liveTickets s.parties)
  next_le : s.shared.gate.nextTicket ≤ s.shared.issued

theorem liveTickets_cons (request : Request) (requests : List Request) :
    liveTickets (request :: requests) = request.ticket.toList ++ liveTickets requests := by
  unfold liveTickets
  cases hticket : request.ticket with
  | none => rw [List.filterMap_cons_none hticket]; rfl
  | some ticket => rw [List.filterMap_cons_some hticket]; rfl

/-- The accounts before and after the move of one request among the others. -/
theorem Moved.inv (h : Moved shared p shared' p') {others : List Request}
    (hs : Inv ⟨shared, p :: others⟩) (hissued : shared'.issued ≤ u64Max) :
    Inv ⟨shared', p' :: others⟩ := by
  have hactive := hs.active
  have hinOrder := hs.inOrder
  have hnext := hs.next_le
  rw [List.countP_cons] at hactive
  dsimp only at hactive hinOrder hnext
  rw [liveTickets_cons] at hinOrder
  cases h with
  | stay ticket before after =>
    refine ⟨?_, ?_, hnext⟩
    · rw [List.countP_cons, after, ← before]
      exact hactive
    · rw [liveTickets_cons, ticket]
      exact hinOrder
  | @register initial current lt =>
    dsimp only at hissued
    refine ⟨hactive, ?_, ?_⟩
    · rw [liveTickets_cons]
      exact hinOrder.register (by omega) (lt.trans_le initial.maxQueuedRequests_le)
    · exact (Nat.min_le_left _ _).trans (Nat.add_le_add_right hnext 1)
  | @release p p' ticket before after counted counted' =>
    obtain ⟨hsame, hle⟩ := releaseQueueTicket_active shared.gate ticket
    refine ⟨?_, ?_, hle.trans hnext⟩
    · dsimp only
      rw [List.countP_cons, counted', ← counted, hsame]
      exact hactive
    · rw [before] at hinOrder
      rw [liveTickets_cons, after]
      exact hinOrder.release
  | @admitted initial current ticket lt turn =>
    have hwith := hinOrder.with_active (shared.gate.active + 1)
    cases ticket with
    | none =>
      refine ⟨?_, hwith, hnext⟩
      dsimp only [completeLocked]
      rw [hactive, List.countP_cons]
      rfl
    | some ticket =>
      obtain ⟨hsame, hle⟩ := releaseQueueTicket_active
        { shared.gate with active := shared.gate.active + 1 } ticket
      refine ⟨?_, ConcurrencyGate.InOrder.release hwith, hle.trans hnext⟩
      dsimp only [completeLocked]
      rw [hsame, List.countP_cons]
      dsimp only
      rw [hactive]
      rfl
  | giveBack =>
    refine ⟨?_, hinOrder.with_active _, hnext⟩
    dsimp only
    rw [hactive, List.countP_cons]
    rfl

theorem Inv.perm {requests requests' : List Request} (h : Inv ⟨shared, requests⟩)
    (hperm : requests.Perm requests') : Inv ⟨shared, requests'⟩ :=
  ⟨h.active.trans (hperm.countP_eq _), h.inOrder.perm (hperm.filterMap _), h.next_le⟩

theorem Inv.new (policy : RequestAdmissionConfig) : Inv (new policy) where
  active := rfl
  inOrder := ⟨Split.empty 0, Finset.notMem_empty 0, rfl, Nat.zero_le _⟩
  next_le := le_rfl

theorem Moved.issued_le (h : Moved shared p shared' p') : shared.issued ≤ shared'.issued := by
  cases h with
  | register => exact Nat.le_succ _
  | _ => exact le_rfl

theorem moved_of_act {i : ℕ} {move : Move} (h : s.act (advance move) i = some s') :
    ∃ p p' others, s.parties[i]? = some p ∧ Moved s.shared p s'.shared p' ∧
      s.parties.Perm (p :: others) ∧ s'.parties = s.parties.set i p' ∧
      s'.parties.Perm (p' :: others) := by
  obtain ⟨p, shared, p', hp, hadvance, rfl⟩ := Parties.System.act_eq_some h
  obtain ⟨others, hperm, hset⟩ := exists_perm_set hp
  exact ⟨p, p', others, hp, moved_of_advance hadvance, hperm, rfl, hset p'⟩

theorem issued_le_step (h : step s a = some s') : s.shared.issued ≤ s'.shared.issued := by
  cases a with
  | acquire initial =>
    rw [step] at h
    split_ifs at h
    cases h
    exact le_rfl
  | setPolicy policy =>
    cases h
    exact le_rfl
  | move i move =>
    obtain ⟨p, p', others, -, hmoved, -⟩ := moved_of_act h
    exact hmoved.issued_le

theorem Inv.step (hs : Inv s) (h : step s a = some s') (hissued : s'.shared.issued ≤ u64Max) :
    Inv s' := by
  cases a with
  | acquire initial =>
    rw [RequestAdmission.step] at h
    split_ifs at h
    cases h
    refine ⟨?_, ?_, hs.next_le⟩
    · dsimp only [Parties.System.join]
      rw [List.countP_append, ← hs.active]
      rfl
    · dsimp only [Parties.System.join]
      rw [liveTickets, List.filterMap_append]
      exact hs.inOrder.perm (.of_eq (List.append_nil _).symm)
  | setPolicy policy =>
    cases h
    exact ⟨hs.active, hs.inOrder, hs.next_le⟩
  | move i move =>
    obtain ⟨p, p', others, -, hmoved, hperm, -, hperm'⟩ := moved_of_act h
    exact (hmoved.inv (hs.perm hperm) hissued).perm hperm'.symm

theorem Inv.run {policy : RequestAdmissionConfig} {actions : List Action}
    (hrun : run (RequestAdmission.new policy) actions = some s) (hissued : s.shared.issued ≤ u64Max) :
    Inv s := by
  have hstep (s : System) (a : Action) (s' : System) (_ : True)
      (hs : s.shared.issued ≤ u64Max → Inv s) (hstep : RequestAdmission.step s a = some s')
      (hissued : s'.shared.issued ≤ u64Max) : Inv s' :=
    (hs ((issued_le_step hstep).trans hissued)).step hstep hissued
  exact Transition.run_invariant (fun _ => True) hstep (fun _ _ => trivial)
    (fun _ => Inv.new policy) hrun hissued

/-- A request gets a permit that counts in that step. -/
def Admits (s s' : System) (i : ℕ) : Prop :=
  s'.parties[i]? = some .counted ∧ s.parties[i]? ≠ some .counted

instance (s s' : System) (i : ℕ) : Decidable (Admits s s' i) :=
  inferInstanceAs (Decidable (_ ∧ _))

/-- A request is admitted under the lock only, below the limit it has read, and with the smallest
ticket or without one where nobody waits. -/
theorem Inv.admits {i : ℕ} (hs : Inv s) (h : RequestAdmission.step s a = some s')
    (hadmits : Admits s s' i) : ∃ initial ticket current,
      s.parties[i]? = some (.deciding initial ticket current) ∧
      s'.shared.gate.active ≤ current.maxConcurrentRequests ∧
      (ticket = none → liveTickets s.parties = []) ∧
      ∀ own, ticket = some own → ∀ other ∈ liveTickets s.parties, own ≤ other := by
  obtain ⟨hafter, hbefore⟩ := hadmits
  cases a with
  | acquire initial =>
    rw [RequestAdmission.step] at h
    split_ifs at h
    cases h
    dsimp only [Parties.System.join] at hafter
    rw [List.getElem?_append] at hafter
    split_ifs at hafter
    · exact absurd hafter hbefore
    · cases List.mem_singleton.mp (List.mem_of_getElem? hafter)
  | setPolicy policy =>
    cases h
    exact absurd hafter hbefore
  | move j move =>
    obtain ⟨p, p', others, hp, hmoved, -, hset, -⟩ := moved_of_act h
    rw [hset] at hafter
    by_cases hij : j = i
    · subst hij
      rw [List.getElem?_set_self (List.getElem?_eq_some_iff.mp hp).1] at hafter
      obtain rfl := Option.some.inj hafter
      generalize s'.shared = shared' at hmoved
      cases hmoved with
      | stay ticket before after => cases after
      | release before after counted counted' => cases counted'
      | @admitted initial current ticket lt turn =>
        refine ⟨initial, ticket, current, hp, ?_, ?_, ?_⟩
        · dsimp only
          rw [completeLocked_active]
          exact lt
        · rintro rfl
          have hqueued := of_decide_eq_true turn
          rw [hs.inOrder.queued] at hqueued
          exact List.length_eq_zero_iff.mp hqueued
        · rintro own rfl other hother
          rw [of_decide_eq_true turn]
          exact hs.inOrder.split.serving_le hother
    · rw [List.getElem?_set_ne hij] at hafter
      exact absurd hafter hbefore

theorem run_new_inTicketOrder {policy : RequestAdmissionConfig} {actions : List Action}
    {s : System} (hrun : run (new policy) actions = some s) (hissued : s.shared.issued < 2 ^ 64) :
    s.shared.gate.active = s.parties.countP Request.isCounted ∧
    s.shared.gate.queued = (liveTickets s.parties).length ∧
    ((∀ ticket, (s.shared.gate.servingTicket ≤ ticket ∧ ticket < s.shared.gate.nextTicket) ↔
        ticket ∈ liveTickets s.parties ∨ ticket ∈ s.shared.gate.cancelledTickets) ∧
      (liveTickets s.parties).Nodup ∧
      ∀ ticket ∈ liveTickets s.parties, ticket ∉ s.shared.gate.cancelledTickets) ∧
    (∀ ticket ∈ liveTickets s.parties, s.shared.gate.servingTicket ∈ liveTickets s.parties ∧
      s.shared.gate.servingTicket ≤ ticket) ∧
    ∀ a s' i, step s a = some s' → Admits s s' i → ∃ initial ticket current,
      s.parties[i]? = some (.deciding initial ticket current) ∧
      s'.shared.gate.active ≤ current.maxConcurrentRequests ∧
      (ticket = none → liveTickets s.parties = []) ∧
      ∀ own, ticket = some own → ∀ other ∈ liveTickets s.parties, own ≤ other := by
  have hinv := Inv.run hrun (Nat.le_of_lt_succ hissued)
  have hsplit := hinv.inOrder.split
  refine ⟨hinv.active, hinv.inOrder.queued, ⟨hsplit.mem_iff, hsplit.nodup, hsplit.disjoint⟩, ?_, ?_⟩
  · intro ticket hticket
    exact ⟨hsplit.serving_mem hinv.inOrder.serving hticket, hsplit.serving_le hticket⟩
  · intro a s' i hstep hadmits
    exact hinv.admits hstep hadmits

def onePermit : RequestAdmissionConfig :=
  { maxConcurrentRequests := 1, maxQueuedRequests := 5, queueTimeoutMs := 1000 }

/-- A request loops up to the section under the lock and enters it. -/
def attempt (request : ℕ) : List Action := [.move request .readPolicy, .move request .enterGate]

/-- The first of three requests holds the permit, the second leaves the queue, the third waits. -/
def cancelledInQueue : List Action :=
  [.acquire onePermit, .acquire onePermit, .acquire onePermit] ++ attempt 0 ++ attempt 1 ++
    attempt 2 ++ [.move 1 .cancel, .move 2 .readPolicy, .move 0 .dropPermit]

def afterCancelledInQueue : System where
  shared := ⟨⟨0, 1, 2, 1, ∅⟩, onePermit, 2⟩
  parties := [.finished, .cancelled, .deciding onePermit (some 1) onePermit]

theorem run_new_inTicketOrder_cancelledInQueue :
    afterCancelledInQueue.shared.gate.active =
        afterCancelledInQueue.parties.countP Request.isCounted ∧
      afterCancelledInQueue.shared.gate.queued =
        (liveTickets afterCancelledInQueue.parties).length ∧
      ∀ a s' i, step afterCancelledInQueue a = some s' → Admits afterCancelledInQueue s' i →
        ∃ initial ticket current,
          afterCancelledInQueue.parties[i]? = some (.deciding initial ticket current) ∧
          s'.shared.gate.active ≤ current.maxConcurrentRequests ∧
          (ticket = none → liveTickets afterCancelledInQueue.parties = []) ∧
          ∀ own, ticket = some own → ∀ other ∈ liveTickets afterCancelledInQueue.parties,
            own ≤ other := by
  have hrun : run (new onePermit) cancelledInQueue = some afterCancelledInQueue := by decide
  obtain ⟨hactive, hqueued, -, -, hadmits⟩ := run_new_inTicketOrder hrun (by decide)
  exact ⟨hactive, hqueued, hadmits⟩

def twoPermits : RequestAdmissionConfig := { onePermit with maxConcurrentRequests := 2 }

def unlimited : RequestAdmissionConfig := { onePermit with maxConcurrentRequests := 0 }

def readBeforeTightened : List Action :=
  [.acquire twoPermits, .acquire twoPermits] ++ attempt 0 ++
    [.move 1 .readPolicy, .setPolicy onePermit]

def afterReadBeforeTightened : System where
  shared := ⟨⟨1, 0, 0, 0, ∅⟩, onePermit, 0⟩
  parties := [.counted, .deciding twoPermits none twoPermits]

/-- The second request waits when the limit is lifted, and the third has read that. -/
def readAfterLifted : List Action :=
  [.acquire onePermit, .acquire onePermit, .acquire onePermit] ++ attempt 0 ++ attempt 1 ++
    [.setPolicy unlimited, .move 2 .readPolicy]

def afterReadAfterLifted : System where
  shared := ⟨⟨1, 1, 1, 0, ∅⟩, unlimited, 1⟩
  parties := [.counted, .looping onePermit (some 0), .deciding onePermit none unlimited]

/-- A request is admitted above the limit that has come into force since it read the policy, and
one that finds the limit lifted passes those that wait. -/
theorem step_passes_limit_and_queue :
    (run (new twoPermits) readBeforeTightened = some afterReadBeforeTightened ∧
      ∃ s, step afterReadBeforeTightened (.move 1 .enterGate) = some s ∧
        Admits afterReadBeforeTightened s 1 ∧
        s.shared.policy.maxConcurrentRequests < s.shared.gate.active) ∧
    run (new onePermit) readAfterLifted = some afterReadAfterLifted ∧
      ∃ s, step afterReadAfterLifted (.move 2 .enterGate) = some s ∧
        s.parties[2]? = some .uncounted ∧ liveTickets s.parties = [0] :=
  ⟨⟨by decide, ⟨⟨⟨2, 0, 0, 0, ∅⟩, onePermit, 0⟩, [.counted, .counted]⟩, by decide, by decide,
      by decide⟩,
    by decide, ⟨⟨⟨1, 1, 1, 0, ∅⟩, unlimited, 1⟩, [.counted, .looping onePermit (some 0), .uncounted]⟩,
      by decide, by decide, by decide⟩

end KiroProxy.RequestAdmission
