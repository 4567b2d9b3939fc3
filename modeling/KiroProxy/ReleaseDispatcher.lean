import KiroProxy.KeyedList
import KiroProxy.Transition

/-!
# Releases on their way to Redis

Every lease that is acquired holds a permit for its release. When the lease ends, the release is
queued with its permit, and one worker carries the queued releases to Redis in batches: it takes
a batch under the lock, calls Redis without it and writes the results back under the lock again.
Instants count nanoseconds, delays milliseconds.
-/

namespace KiroProxy.ReleaseDispatcher

def schedulerRedisReleaseCapacity : ℕ := 65536

def schedulerRedisReleaseBatchSize : ℕ := 16

def redisCriticalRetryDelay : ℕ := 50

def schedulerRedisReleaseRetryMaxDelay : ℕ := 30000

def schedulerRedisReleaseTimeoutRetryMaxDelay : ℕ := 1000

def u32Max : ℕ := 2 ^ 32 - 1

inductive SchedulerRedisReleaseIntent
  | inFlight (credentialId leaseId : ℕ) (tombstone : Bool)
  | dispatchQueue (leaseId : String)
  deriving DecidableEq, Repr

abbrev Intent := SchedulerRedisReleaseIntent

structure SchedulerRedisPendingRelease where
  failures : ℕ
  nextAttemptAt : ℕ
  deriving DecidableEq, Repr

structure DispatcherState where
  pending : List (Intent × SchedulerRedisPendingRelease) := []
  order : List Intent := []
  systemFailures : ℕ := 0
  systemRetryAt : Option ℕ := none
  workerRunning : Bool := false
  deriving DecidableEq, Repr

def fromMillis (millis : ℕ) : ℕ := millis * 1000000

def rotateLeft64 (n k : ℕ) : ℕ := n * 2 ^ k % 2 ^ 64 + n / 2 ^ (64 - k)

def stableReleaseRetryJitter (base attempt : ℕ) : ℕ :=
  let baseMillis := max base 1
  let spread := max (baseMillis / 10) 1
  let mixed := ((attempt + 0x9e3779b97f4a7c15) % 2 ^ 64 * 0xbf58476d1ce4e5b9 % 2 ^ 64) ^^^
    rotateLeft64 attempt 27
  baseMillis - mixed % (spread + 1)

def schedulerReleaseRetryDelay (failures : ℕ) : ℕ :=
  let multiplier := 2 ^ min (failures - 1) 16
  stableReleaseRetryJitter
    (min (redisCriticalRetryDelay * multiplier) schedulerRedisReleaseRetryMaxDelay) failures

structure Selection where
  order : List Intent
  batch : List Intent := []
  nextAttemptAt : Option ℕ := none
  deriving DecidableEq, Repr

/-- One intent from the front of the order. A pending one goes to the back, another is dropped. -/
def Selection.take (pending : List (Intent × SchedulerRedisPendingRelease)) (now : ℕ)
    (intent : Intent) (rest : List Intent) (s : Selection) : Selection :=
  match KeyedList.get intent pending with
  | some release =>
    if release.nextAttemptAt ≤ now then
      { s with order := rest ++ [intent], batch := s.batch ++ [intent] }
    else
      { s with
        order := rest ++ [intent]
        nextAttemptAt := some (s.nextAttemptAt.elim release.nextAttemptAt
          (min · release.nextAttemptAt)) }
  | none => { s with order := rest }

def Selection.loop (pending : List (Intent × SchedulerRedisPendingRelease)) (now limit : ℕ) :
    ℕ → Selection → Selection
  | 0, s => s
  | candidates + 1, s =>
    if limit ≤ s.batch.length then s
    else
      match s.order with
      | [] => s
      | intent :: rest => loop pending now limit candidates (s.take pending now intent rest)

def DispatcherState.nextReadyBatch (state : DispatcherState) (now limit : ℕ) :
    (List Intent × Option ℕ) × DispatcherState :=
  match state.systemRetryAt.filter (now < ·) with
  | some retryAt => (([], some retryAt), state)
  | none =>
    let s := Selection.loop state.pending now limit state.order.length ⟨state.order, [], none⟩
    ((s.batch, s.nextAttemptAt), { state with systemRetryAt := none, order := s.order })

inductive Outcome
  | success
  /-- The failure concerns this release only, and it is noticed at that time. -/
  | intentFailure (now : ℕ)
  | systemFailure (timedOut : Bool)
  deriving DecidableEq, Repr

/-- The pending releases while the results of a batch are read, and what was seen of these. -/
structure Tally where
  pending : List (Intent × SchedulerRedisPendingRelease)
  completed : List Intent := []
  systemFailed : Bool := false
  onlyTimeouts : Bool := true
  deriving DecidableEq, Repr

def Tally.add (t : Tally) (result : Intent × Outcome) : Tally :=
  match KeyedList.get result.1 t.pending, result.2 with
  | some _, .success =>
    { t with
      pending := KeyedList.remove result.1 t.pending
      completed := t.completed ++ [result.1] }
  | none, .success => t
  | some release, .intentFailure now =>
    let failures := min (release.failures + 1) u32Max
    let release := ⟨failures, now + fromMillis (schedulerReleaseRetryDelay failures)⟩
    { t with pending := KeyedList.insert result.1 release t.pending }
  | none, .intentFailure _ => t
  | _, .systemFailure timedOut =>
    { t with systemFailed := true, onlyTimeouts := t.onlyTimeouts && timedOut }

/-- A failure of the system delays the next batch, a success without one ends the delay. -/
def DispatcherState.settle (state : DispatcherState) (t : Tally) (now : ℕ) : DispatcherState :=
  let state := { state with pending := t.pending }
  if t.systemFailed then
    let failures := min (state.systemFailures + 1) u32Max
    let delay := schedulerReleaseRetryDelay failures
    let delay := if t.onlyTimeouts then min delay schedulerRedisReleaseTimeoutRetryMaxDelay
      else delay
    { state with systemFailures := failures, systemRetryAt := some (now + fromMillis delay) }
  else if t.completed ≠ [] then { state with systemFailures := 0, systemRetryAt := none }
  else state

/-- Where the worker stands. It is `starting` from when an enqueuer has set the flag until its
task is spawned. -/
inductive Worker
  | absent
  | starting
  | polling
  | waiting (nextAttemptAt : Option ℕ)
  | releasing (batch : List Intent)
  deriving DecidableEq, Repr

structure System where
  state : DispatcherState
  /-- Permits of the semaphore `capacity`. -/
  free : ℕ
  /-- Reservations that were neither used nor dropped. -/
  reservations : ℕ
  worker : Worker
  /-- What was enqueued so far. -/
  enqueued : List Intent
  /-- What was taken from the pending releases after a call of Redis that succeeded. -/
  released : List Intent
  deriving DecidableEq, Repr

def System.new : System where
  state := {}
  free := schedulerRedisReleaseCapacity
  reservations := 0
  worker := .absent
  enqueued := []
  released := []

inductive Action
  | tryReserve
  | dropReservation
  | enqueue (intent : Intent) (now : ℕ)
  | spawn
  | poll (now : ℕ)
  | wake
  | settle (outcomes : List Outcome) (now : ℕ)
  deriving DecidableEq, Repr

/-- The reservation is used, or given back when the intent is pending already. -/
def System.enqueue (s : System) (intent : Intent) (now : ℕ) : System :=
  let state := { s.state with workerRunning := true }
  let worker := if s.state.workerRunning then s.worker else .starting
  if (KeyedList.get intent s.state.pending).isSome then
    { s with
      state := state, worker := worker, enqueued := s.enqueued ++ [intent]
      free := s.free + 1, reservations := s.reservations - 1 }
  else
    { s with
      state := { state with
        order := state.order ++ [intent]
        pending := KeyedList.insert intent ⟨0, now⟩ state.pending }
      worker := worker, enqueued := s.enqueued ++ [intent]
      reservations := s.reservations - 1 }

/-- The worker stops when nothing is pending, and takes a batch otherwise. -/
def System.poll (s : System) (now : ℕ) : System :=
  if s.state.pending = [] then
    { s with state := { s.state with order := [], workerRunning := false }, worker := .absent }
  else
    let ((batch, nextAttemptAt), state) :=
      s.state.nextReadyBatch now schedulerRedisReleaseBatchSize
    { s with state := state, worker :=
      if batch = [] then .waiting nextAttemptAt else .releasing batch }

/-- Every pending release that is taken away gives back its permit. -/
def System.settle (s : System) (results : List (Intent × Outcome)) (now : ℕ) : System :=
  let tally := results.foldl Tally.add { pending := s.state.pending }
  { s with
    state := s.state.settle tally now
    free := s.free + tally.completed.length
    worker := .polling
    released := s.released ++ tally.completed }

def step (s : System) : Action → Option System
  | .tryReserve =>
    some (if 0 < s.free then { s with free := s.free - 1, reservations := s.reservations + 1 }
      else s)
  | .dropReservation =>
    if 0 < s.reservations then
      some { s with free := s.free + 1, reservations := s.reservations - 1 }
    else none
  | .enqueue intent now => if 0 < s.reservations then some (s.enqueue intent now) else none
  | .spawn => if s.worker = .starting then some { s with worker := .polling } else none
  | .poll now => if s.worker = .polling then some (s.poll now) else none
  | .wake =>
    match s.worker with
    | .waiting _ => some { s with worker := .polling }
    | _ => none
  | .settle outcomes now =>
    match s.worker with
    | .releasing batch =>
      if outcomes.length = batch.length then some (s.settle (batch.zip outcomes) now) else none
    | _ => none

def run (s : System) (actions : List Action) : Option System :=
  Transition.run step s actions

def intents (actions : List Action) : List Intent :=
  actions.filterMap fun
    | .enqueue intent _ => some intent
    | _ => none

section Batch

variable {pending : List (Intent × SchedulerRedisPendingRelease)} {now limit : ℕ}
  {state : DispatcherState}

def IsPending (pending : List (Intent × SchedulerRedisPendingRelease)) (intent : Intent) : Bool :=
  (KeyedList.get intent pending).isSome

def IsReady (pending : List (Intent × SchedulerRedisPendingRelease)) (now : ℕ)
    (intent : Intent) : Bool :=
  (KeyedList.get intent pending).any fun release => release.nextAttemptAt ≤ now

structure Selection.Saw (pending : List (Intent × SchedulerRedisPendingRelease)) (now : ℕ)
    (s : Selection) (seen rest kept : List Intent) (s' : Selection) : Prop where
  order : s'.order = rest ++ kept ++ seen.filter (IsPending pending)
  batch : s'.batch = s.batch ++ seen.filter (IsReady pending now)
  delayed : ∀ intent ∈ seen, IsPending pending intent = true →
    IsReady pending now intent = false → s'.nextAttemptAt ≠ none
  later : (∀ retryAt ∈ s.nextAttemptAt, now < retryAt) → ∀ retryAt ∈ s'.nextAttemptAt, now < retryAt
  stays : s.nextAttemptAt ≠ none → s'.nextAttemptAt ≠ none

theorem Selection.saw_take (s : Selection) (intent : Intent) (rest kept : List Intent) :
    Selection.Saw pending now s [intent] rest kept
      (s.take pending now intent (rest ++ kept)) := by
  unfold Selection.take
  cases hget : KeyedList.get intent pending with
  | none =>
    have hpending : IsPending pending intent = false := by rw [IsPending, hget]; rfl
    have hready : IsReady pending now intent = false := by rw [IsReady, hget]; rfl
    constructor
    · simp [hpending]
    · simp [hready]
    · intro i hi hpend
      rw [List.mem_singleton.mp hi, hpending] at hpend
      cases hpend
    · exact fun h => h
    · exact fun h => h
  | some release =>
    have hpending : IsPending pending intent = true := by rw [IsPending, hget]; rfl
    have hready : IsReady pending now intent = decide (release.nextAttemptAt ≤ now) := by
      rw [IsReady, hget]
      rfl
    by_cases hle : release.nextAttemptAt ≤ now
    · dsimp only
      rw [if_pos hle]
      constructor
      · simp [hpending]
      · simp [hready, hle]
      · intro i hi _ hnot
        rw [List.mem_singleton.mp hi, hready, decide_eq_true hle] at hnot
        cases hnot
      · exact fun h => h
      · exact fun h => h
    · dsimp only
      rw [if_neg hle]
      constructor
      · simp [hpending]
      · simp [hready, hle]
      · exact fun _ _ _ _ => Option.some_ne_none _
      · intro h retryAt hretry
        obtain rfl := Option.some.inj hretry
        cases hnext : s.nextAttemptAt with
        | none =>
          rw [Option.elim_none]
          omega
        | some next =>
          have hlt := h next hnext
          rw [Option.elim_some]
          omega
      · exact fun _ => Option.some_ne_none _

theorem Selection.Saw.trans {s s' s'' : Selection} {intent : Intent} {seen rest kept : List Intent}
    (h : Selection.Saw pending now s [intent] (seen ++ rest) kept s')
    (h' : Selection.Saw pending now s' seen rest
      (kept ++ [intent].filter (IsPending pending)) s'') :
    Selection.Saw pending now s (intent :: seen) rest kept s'' where
  order := by
    have hcons := List.filter_append (p := IsPending pending) [intent] seen
    rw [List.singleton_append] at hcons
    rw [h'.order, hcons]
    simp only [List.append_assoc]
  batch := by
    have hcons := List.filter_append (p := IsReady pending now) [intent] seen
    rw [List.singleton_append] at hcons
    rw [h'.batch, h.batch, hcons, List.append_assoc]
  delayed i hi hpending hready := by
    rcases List.mem_cons.mp hi with rfl | hi
    · exact h'.stays (h.delayed i (List.mem_singleton_self i) hpending hready)
    · exact h'.delayed i hi hpending hready
  later hlater := h'.later (h.later hlater)
  stays hstays := h'.stays (h.stays hstays)

theorem Selection.exists_saw_loop (todo kept : List Intent) {s : Selection}
    (horder : s.order = todo ++ kept) :
    ∃ seen rest, todo = seen ++ rest ∧
      Selection.Saw pending now s seen rest kept
        (Selection.loop pending now limit todo.length s) ∧
      (rest = [] ∨ limit ≤ (Selection.loop pending now limit todo.length s).batch.length) := by
  induction todo generalizing s kept with
  | nil =>
    refine ⟨[], [], rfl, ⟨?_, ?_, ?_, fun h => h, fun h => h⟩, .inl rfl⟩
    · simpa [Selection.loop] using horder
    · simp [Selection.loop]
    · exact fun i hi => absurd hi List.not_mem_nil
  | cons intent todo ih =>
    rw [List.length_cons, Selection.loop]
    by_cases hfull : limit ≤ s.batch.length
    · rw [if_pos hfull]
      refine ⟨[], intent :: todo, rfl, ⟨?_, ?_, ?_, fun h => h, fun h => h⟩, .inr hfull⟩
      · simpa using horder
      · simp
      · exact fun i hi => absurd hi List.not_mem_nil
    · rw [if_neg hfull, horder]
      dsimp only [List.cons_append]
      have htake : Selection.Saw pending now s [intent] todo kept
          (s.take pending now intent (todo ++ kept)) := Selection.saw_take s intent todo kept
      obtain ⟨seen, rest, rfl, hsaw, hend⟩ := ih (kept ++ [intent].filter (IsPending pending))
        (htake.order.trans (List.append_assoc _ _ _))
      exact ⟨intent :: seen, rest, rfl, htake.trans hsaw, hend⟩

theorem nextReadyBatch_of_backoff {retryAt : ℕ} (hretry : state.systemRetryAt = some retryAt)
    (hlt : now < retryAt) :
    state.nextReadyBatch now limit = (([], some retryAt), state) := by
  have hfilter : state.systemRetryAt.filter (now < ·) = some retryAt := by
    simp [hretry, Option.filter, hlt]
  rw [DispatcherState.nextReadyBatch, hfilter]

theorem nextReadyBatch_of_no_backoff (h : ∀ retryAt ∈ state.systemRetryAt, retryAt ≤ now)
    (limit : ℕ) : ∃ seen rest batch nextAttemptAt order, state.order = seen ++ rest ∧
      state.nextReadyBatch now limit =
        ((batch, nextAttemptAt), { state with systemRetryAt := none, order := order }) ∧
      Selection.Saw state.pending now ⟨state.order, [], none⟩ seen rest []
        ⟨order, batch, nextAttemptAt⟩ ∧
      (rest = [] ∨ limit ≤ batch.length) := by
  have hfilter : state.systemRetryAt.filter (now < ·) = none := by
    rw [Option.filter_eq_none_iff]
    intro retryAt hretry
    simpa using h retryAt hretry
  have hstart : (Selection.mk state.order [] none).order = state.order ++ [] :=
    (List.append_nil _).symm
  obtain ⟨seen, rest, horder, hsaw, hend⟩ := Selection.exists_saw_loop state.order [] hstart
  refine ⟨seen, rest, _, _, _, horder, ?_, hsaw, hend⟩
  rw [DispatcherState.nextReadyBatch, hfilter]

/-- Whatever is returned, a pending intent stays listed and nothing is listed twice. -/
theorem mem_order_nextReadyBatch (hnodup : state.order.Nodup) (now limit : ℕ) :
    (state.nextReadyBatch now limit).2.pending = state.pending ∧
      (state.nextReadyBatch now limit).2.workerRunning = state.workerRunning ∧
      (state.nextReadyBatch now limit).2.order.Nodup ∧
      (∀ intent ∈ (state.nextReadyBatch now limit).2.order, intent ∈ state.order) ∧
      ∀ intent ∈ state.order, IsPending state.pending intent = true →
        intent ∈ (state.nextReadyBatch now limit).2.order := by
  by_cases hbackoff : ∃ retryAt ∈ state.systemRetryAt, now < retryAt
  · obtain ⟨retryAt, hretry, hlt⟩ := hbackoff
    rw [nextReadyBatch_of_backoff hretry hlt]
    exact ⟨rfl, rfl, hnodup, fun _ h => h, fun _ h _ => h⟩
  · have hpassed : ∀ retryAt ∈ state.systemRetryAt, retryAt ≤ now := by
      intro retryAt hretry
      exact Nat.le_of_not_lt fun hlt => hbackoff ⟨retryAt, hretry, hlt⟩
    obtain ⟨seen, rest, batch, next, order, horder, heq, hsaw, -⟩ :=
      nextReadyBatch_of_no_backoff hpassed limit
    have hsaw' : order = rest ++ [] ++ seen.filter (IsPending state.pending) := hsaw.order
    rw [List.append_nil] at hsaw'
    rw [heq]
    dsimp only
    rw [horder] at hnodup
    have hperm : (rest ++ seen).Nodup := (List.perm_append_comm.nodup_iff).mp hnodup
    refine ⟨rfl, rfl, ?_, ?_, ?_⟩
    · rw [hsaw']
      exact hperm.sublist (List.Sublist.append_left List.filter_sublist rest)
    · intro intent hintent
      rw [hsaw'] at hintent
      rw [horder]
      rcases List.mem_append.mp hintent with hrest | hseen
      · exact List.mem_append_right _ hrest
      · exact List.mem_append_left _ (List.mem_of_mem_filter hseen)
    · intro intent hintent hpending
      rw [hsaw']
      rw [horder] at hintent
      rcases List.mem_append.mp hintent with hseen | hrest
      · exact List.mem_append_right _ (List.mem_filter.mpr ⟨hseen, hpending⟩)
      · exact List.mem_append_left _ hrest

end Batch

/-- What the results seen so far have made of the pending releases. -/
structure Tally.Since (pending : List (Intent × SchedulerRedisPendingRelease)) (t : Tally) :
    Prop where
  keys : (t.pending.map Prod.fst).Nodup
  isPending_iff : ∀ intent, IsPending t.pending intent = true ↔
    IsPending pending intent = true ∧ intent ∉ t.completed
  completed : ∀ intent ∈ t.completed, IsPending pending intent = true
  length : t.pending.length + t.completed.length = pending.length

variable {pending : List (Intent × SchedulerRedisPendingRelease)} {key intent : Intent} {s : System}

theorem isPending_remove_iff : IsPending (KeyedList.remove key pending) intent = true ↔
      IsPending pending intent = true ∧ intent ≠ key := by
  unfold IsPending
  by_cases h : intent = key
  · simp [h, KeyedList.get_remove_self]
  · simp [h, KeyedList.get_remove_of_ne]

theorem isPending_insert_iff {release : SchedulerRedisPendingRelease} :
    IsPending (KeyedList.insert key release pending) intent = true ↔
      intent = key ∨ IsPending pending intent = true := by
  unfold IsPending
  by_cases h : intent = key
  · simp [h, KeyedList.get_insert_self]
  · simp [h, KeyedList.get_insert_of_ne]

theorem length_insert_of_get {release : SchedulerRedisPendingRelease}
    (h : KeyedList.get key pending = some release) (release' : SchedulerRedisPendingRelease) :
    (KeyedList.insert key release' pending).length = pending.length := by
  have hkeys : (KeyedList.insert key release' pending).map Prod.fst = pending.map Prod.fst :=
    KeyedList.keys_insert_of_get h
  have hlength := congrArg List.length hkeys
  rwa [List.length_map, List.length_map] at hlength

theorem Tally.Since.add {t : Tally} (h : t.Since pending) (result : Intent × Outcome) :
    (t.add result).Since pending := by
  obtain ⟨intent, outcome⟩ := result
  unfold Tally.add
  dsimp only
  cases hget : KeyedList.get intent t.pending with
  | none =>
    cases outcome with
    | success => exact h
    | intentFailure now => exact h
    | systemFailure timedOut => exact ⟨h.keys, h.isPending_iff, h.completed, h.length⟩
  | some release =>
    have hpending : IsPending t.pending intent = true := by rw [IsPending, hget]; rfl
    cases outcome with
    | success =>
      constructor
      · exact KeyedList.nodup_keys_remove h.keys intent
      · intro i
        rw [isPending_remove_iff, h.isPending_iff, List.mem_append, List.mem_singleton, not_or,
          and_assoc]
      · intro i hi
        rcases List.mem_append.mp hi with hi | hi
        · exact h.completed i hi
        · rw [List.mem_singleton.mp hi]
          exact ((h.isPending_iff intent).mp hpending).1
      · have hremove := KeyedList.length_remove_of_get h.keys hget
        have hlength := h.length
        rw [List.length_append, List.length_singleton]
        dsimp only at hremove ⊢
        omega
    | intentFailure now =>
      constructor
      · exact KeyedList.nodup_keys_insert h.keys intent _
      · intro i
        rw [isPending_insert_iff, ← h.isPending_iff]
        constructor
        · rintro (rfl | hi)
          · exact hpending
          · exact hi
        · exact .inr
      · exact h.completed
      · rw [length_insert_of_get hget]
        exact h.length
    | systemFailure timedOut => exact ⟨h.keys, h.isPending_iff, h.completed, h.length⟩

theorem Tally.since_foldl (results : List (Intent × Outcome)) {t : Tally} (h : t.Since pending) :
    (results.foldl Tally.add t).Since pending := by
  induction results generalizing t with
  | nil => exact h
  | cons result results ih => exact ih (h.add result)

theorem Tally.since_new (hkeys : (pending.map Prod.fst).Nodup) :
    Tally.Since pending { pending := pending } where
  keys := hkeys
  isPending_iff intent := by simp
  completed intent hintent := absurd hintent List.not_mem_nil
  length := Nat.add_zero _

theorem DispatcherState.settle_frame (state : DispatcherState) (t : Tally) (now : ℕ) :
    (state.settle t now).pending = t.pending ∧ (state.settle t now).order = state.order ∧
      (state.settle t now).workerRunning = state.workerRunning := by
  unfold DispatcherState.settle
  dsimp only
  split_ifs
  all_goals exact ⟨rfl, rfl, rfl⟩

structure DispatcherState.Accounts (state : DispatcherState) (enqueued released : List Intent) :
    Prop where
  keys : (state.pending.map Prod.fst).Nodup
  order : state.order.Nodup
  listed : ∀ intent, IsPending state.pending intent = true → intent ∈ state.order
  ordered : ∀ intent ∈ state.order, intent ∈ enqueued
  kept : ∀ intent ∈ enqueued, IsPending state.pending intent = true ∨ intent ∈ released
  gone : ∀ intent ∈ released, IsPending state.pending intent = false ∧ intent ∈ enqueued

structure System.Inv (s : System) : Prop where
  accounts : s.state.Accounts s.enqueued s.released
  permits : s.free + s.state.pending.length + s.reservations = schedulerRedisReleaseCapacity
  running : s.state.workerRunning = true ↔ s.worker ≠ .absent
  served : s.state.pending ≠ [] → s.state.workerRunning = true

theorem System.inv_new : System.Inv .new where
  accounts := ⟨List.nodup_nil, List.nodup_nil, fun _ h => absurd h Bool.false_ne_true,
    fun _ h => absurd h List.not_mem_nil, fun _ h => absurd h List.not_mem_nil,
    fun _ h => absurd h List.not_mem_nil⟩
  permits := rfl
  running := by decide
  served h := absurd rfl h

theorem System.Inv.enqueue (h : s.Inv) (hnew : intent ∉ s.enqueued)
    (hreservation : 0 < s.reservations) (now : ℕ) : (s.enqueue intent now).Inv := by
  have hpending : IsPending s.state.pending intent = false := by
    rw [Bool.eq_false_iff]
    exact fun hpending => hnew (h.accounts.ordered _ (h.accounts.listed _ hpending))
  have hget : KeyedList.get intent s.state.pending = none := Option.not_isSome_iff_eq_none.mp
    (Bool.eq_false_iff.mp hpending)
  unfold System.enqueue
  rw [if_neg (by simp [hget])]
  constructor
  · constructor
    · exact KeyedList.nodup_keys_insert h.accounts.keys _ _
    · have horder : intent ∉ s.state.order := fun hin => hnew (h.accounts.ordered _ hin)
      exact h.accounts.order.append (List.nodup_singleton _) (List.disjoint_singleton.mpr horder)
    · intro i hi
      rcases isPending_insert_iff.mp hi with rfl | hi
      · exact List.mem_append_right _ (List.mem_singleton_self _)
      · exact List.mem_append_left _ (h.accounts.listed i hi)
    · intro i hi
      rcases List.mem_append.mp hi with hi | hi
      · exact List.mem_append_left _ (h.accounts.ordered i hi)
      · exact List.mem_append_right _ hi
    · intro i hi
      rw [isPending_insert_iff]
      rcases List.mem_append.mp hi with hi | hi
      · exact (h.accounts.kept i hi).imp_left .inr
      · exact .inl (.inl (List.mem_singleton.mp hi))
    · intro i hi
      obtain ⟨hgone, henqueued⟩ := h.accounts.gone i hi
      refine ⟨?_, List.mem_append_left _ henqueued⟩
      rw [Bool.eq_false_iff, Ne, isPending_insert_iff, not_or]
      refine ⟨?_, by simp [hgone]⟩
      rintro rfl
      exact hnew henqueued
  · have hinsert : KeyedList.insert intent ⟨0, now⟩ s.state.pending =
        s.state.pending ++ [(intent, ⟨0, now⟩)] := KeyedList.insert_of_get_eq_none hget
    have hlength := congrArg List.length hinsert
    have hpermits := h.permits
    rw [List.length_append, List.length_singleton] at hlength
    dsimp only at hlength ⊢
    omega
  · refine iff_of_true rfl ?_
    dsimp only
    split_ifs with hrunning
    · exact h.running.mp hrunning
    · exact fun heq => by cases heq
  · exact fun _ => rfl

theorem System.Inv.poll (h : s.Inv) (now : ℕ) : (s.poll now).Inv := by
  unfold System.poll
  split_ifs with hempty
  · constructor
    · constructor
      · exact h.accounts.keys
      · exact List.nodup_nil
      · intro i hi
        dsimp only at hi
        rw [hempty] at hi
        cases hi
      · exact fun i hi => absurd hi List.not_mem_nil
      · exact h.accounts.kept
      · exact h.accounts.gone
    · exact h.permits
    · exact iff_of_false Bool.false_ne_true fun hne => hne rfl
    · exact fun hne => absurd hempty hne
  · obtain ⟨hpending, hrunning, hnodup, hold, hlisted⟩ :=
      mem_order_nextReadyBatch h.accounts.order now schedulerRedisReleaseBatchSize
    dsimp only
    constructor
    · constructor
      · rw [hpending]
        exact h.accounts.keys
      · exact hnodup
      · intro i hi
        rw [hpending] at hi
        exact hlisted i (h.accounts.listed i hi) hi
      · exact fun i hi => h.accounts.ordered i (hold i hi)
      · rw [hpending]
        exact h.accounts.kept
      · rw [hpending]
        exact h.accounts.gone
    · dsimp only
      rw [hpending]
      exact h.permits
    · dsimp only
      rw [hrunning]
      refine iff_of_true (h.served hempty) ?_
      split_ifs
      · exact fun heq => by cases heq
      · exact fun heq => by cases heq
    · dsimp only
      rw [hpending, hrunning]
      exact h.served

theorem System.Inv.settle (h : s.Inv) {batch : List Intent} (hworker : s.worker = .releasing batch)
    (results : List (Intent × Outcome)) (now : ℕ) : (s.settle results now).Inv := by
  have hsince := Tally.since_foldl results (Tally.since_new h.accounts.keys)
  have hrunning : s.state.workerRunning = true := by
    rw [h.running, hworker]
    exact fun heq => by cases heq
  unfold System.settle
  generalize results.foldl Tally.add { pending := s.state.pending } = tally at hsince
  obtain ⟨hpending, horder, hworker'⟩ := s.state.settle_frame tally now
  dsimp only
  constructor
  · constructor
    · rw [hpending]
      exact hsince.keys
    · rw [horder]
      exact h.accounts.order
    · intro i hi
      rw [hpending, hsince.isPending_iff] at hi
      rw [horder]
      exact h.accounts.listed i hi.1
    · rw [horder]
      exact h.accounts.ordered
    · intro i hi
      rw [hpending, hsince.isPending_iff, List.mem_append]
      rcases h.accounts.kept i hi with hkept | hgone
      · by_cases hcompleted : i ∈ tally.completed
        · exact .inr (.inr hcompleted)
        · exact .inl ⟨hkept, hcompleted⟩
      · exact .inr (.inl hgone)
    · intro i hi
      rw [hpending, Bool.eq_false_iff, Ne, hsince.isPending_iff]
      rcases List.mem_append.mp hi with hgone | hcompleted
      · obtain ⟨hnot, henqueued⟩ := h.accounts.gone i hgone
        exact ⟨fun hi => by simp [hnot] at hi, henqueued⟩
      · have hold := hsince.completed i hcompleted
        exact ⟨fun hi => hi.2 hcompleted, h.accounts.ordered i (h.accounts.listed i hold)⟩
  · have hlength := hsince.length
    have hpermits := h.permits
    dsimp only
    rw [hpending]
    omega
  · dsimp only
    rw [hworker', hrunning]
    exact iff_of_true rfl fun heq => by cases heq
  · dsimp only
    rw [hworker', hrunning]
    exact fun _ => rfl

/-- An intent that was not enqueued before keeps the account. -/
theorem System.Inv.step {s t : System} {a : Action} (h : s.Inv)
    (hnew : (s.enqueued ++ intents [a]).Nodup) (hstep : step s a = some t) :
    t.Inv ∧ t.enqueued = s.enqueued ++ intents [a] := by
  cases a with
  | tryReserve =>
    obtain rfl := Option.some.inj hstep
    split_ifs with hfree
    · refine ⟨⟨h.accounts, ?_, h.running, h.served⟩, (List.append_nil _).symm⟩
      have hpermits := h.permits
      dsimp only
      omega
    · exact ⟨h, (List.append_nil _).symm⟩
  | dropReservation =>
    rw [ReleaseDispatcher.step] at hstep
    split_ifs at hstep with hreservation
    obtain rfl := Option.some.inj hstep
    refine ⟨⟨h.accounts, ?_, h.running, h.served⟩, (List.append_nil _).symm⟩
    have hpermits := h.permits
    dsimp only
    omega
  | enqueue intent now =>
    rw [ReleaseDispatcher.step] at hstep
    split_ifs at hstep with hreservation
    obtain rfl := Option.some.inj hstep
    have hintent : intent ∉ s.enqueued := by
      have hdisjoint := (List.nodup_append.mp hnew).2.2
      exact fun hin => hdisjoint intent hin intent (List.mem_singleton_self _) rfl
    refine ⟨h.enqueue hintent hreservation now, ?_⟩
    unfold System.enqueue
    dsimp only
    split_ifs
    all_goals rfl
  | spawn =>
    rw [ReleaseDispatcher.step] at hstep
    split_ifs at hstep with hworker
    obtain rfl := Option.some.inj hstep
    refine ⟨⟨h.accounts, h.permits, ?_, h.served⟩, (List.append_nil _).symm⟩
    refine iff_of_true (h.running.mpr ?_) fun heq => by cases heq
    rw [hworker]
    exact fun heq => by cases heq
  | poll now =>
    rw [ReleaseDispatcher.step] at hstep
    split_ifs at hstep with hworker
    obtain rfl := Option.some.inj hstep
    refine ⟨h.poll now, ?_⟩
    unfold System.poll
    split_ifs
    · exact (List.append_nil _).symm
    · exact (List.append_nil _).symm
  | wake =>
    rw [ReleaseDispatcher.step] at hstep
    cases hworker : s.worker with
    | waiting next =>
      rw [hworker] at hstep
      obtain rfl := Option.some.inj hstep
      refine ⟨⟨h.accounts, h.permits, ?_, h.served⟩, (List.append_nil _).symm⟩
      refine iff_of_true (h.running.mpr ?_) fun heq => by cases heq
      rw [hworker]
      exact fun heq => by cases heq
    | absent | starting | polling | releasing =>
      rw [hworker] at hstep
      cases hstep
  | settle outcomes now =>
    rw [ReleaseDispatcher.step] at hstep
    cases hworker : s.worker with
    | releasing batch =>
      rw [hworker] at hstep
      dsimp only at hstep
      split_ifs at hstep
      obtain rfl := Option.some.inj hstep
      exact ⟨h.settle hworker _ now, (List.append_nil _).symm⟩
    | absent | starting | polling | waiting =>
      rw [hworker] at hstep
      cases hstep

theorem System.Inv.run {s t : System} {actions : List Action} (h : s.Inv)
    (hnew : (s.enqueued ++ intents actions).Nodup) (hrun : run s actions = some t) :
    t.Inv ∧ t.enqueued = s.enqueued ++ intents actions := by
  induction actions generalizing s with
  | nil =>
    obtain rfl := Option.some.inj hrun
    exact ⟨h, (List.append_nil _).symm⟩
  | cons a actions ih =>
    obtain ⟨s', hstep, hrest⟩ := Transition.run_cons_eq_some.mp hrun
    have hcons : intents (a :: actions) = intents [a] ++ intents actions :=
      List.filterMap_append (l := [a])
    rw [hcons, ← List.append_assoc] at hnew ⊢
    obtain ⟨h', henqueued⟩ := h.step (List.nodup_append.mp hnew).1 hstep
    rw [← henqueued] at hnew ⊢
    exact ih h' hnew hrest

section Valid

variable {state : DispatcherState} {enqueued released : List Intent}

theorem DispatcherState.Accounts.nextReadyBatch_ready (h : state.Accounts enqueued released)
    {now limit : ℕ} (hlimit : 0 < limit) (hpassed : ∀ retryAt ∈ state.systemRetryAt, retryAt ≤ now)
    {intent : Intent} (hready : IsReady state.pending now intent = true) :
    ∃ intent' ∈ (state.nextReadyBatch now limit).1.1, IsReady state.pending now intent' = true := by
  obtain ⟨seen, rest, batch, next, order, horder, heq, hsaw, hend⟩ :=
    nextReadyBatch_of_no_backoff hpassed limit
  have hbatch : batch = seen.filter (IsReady state.pending now) := hsaw.batch
  rw [heq]
  dsimp only
  rcases hend with rfl | hfull
  · have hpending : IsPending state.pending intent = true := by
      unfold IsReady at hready
      exact Option.isSome_of_any hready
    have hseen := h.listed intent hpending
    rw [horder, List.append_nil] at hseen
    exact ⟨intent, hbatch ▸ List.mem_filter.mpr ⟨hseen, hready⟩, hready⟩
  · obtain ⟨intent', hintent'⟩ := List.exists_mem_of_length_pos (Nat.lt_of_lt_of_le hlimit hfull)
    refine ⟨intent', hintent', ?_⟩
    rw [hbatch] at hintent'
    exact (List.mem_filter.mp hintent').2

theorem DispatcherState.Accounts.nextReadyBatch_or (h : state.Accounts enqueued released)
    (hpending : state.pending ≠ []) (now : ℕ) {limit : ℕ} (hlimit : 0 < limit) :
    (state.nextReadyBatch now limit).1.1 ≠ [] ∨
      ∃ retryAt, (state.nextReadyBatch now limit).1.2 = some retryAt ∧ now < retryAt := by
  by_cases hbackoff : ∃ retryAt ∈ state.systemRetryAt, now < retryAt
  · obtain ⟨retryAt, hretry, hlt⟩ := hbackoff
    rw [nextReadyBatch_of_backoff hretry hlt]
    exact .inr ⟨retryAt, rfl, hlt⟩
  · have hpassed : ∀ retryAt ∈ state.systemRetryAt, retryAt ≤ now := by
      intro retryAt hretry
      exact Nat.le_of_not_lt fun hlt => hbackoff ⟨retryAt, hretry, hlt⟩
    obtain ⟨⟨intent, release⟩, hmem⟩ := List.exists_mem_of_ne_nil _ hpending
    have hget := (KeyedList.get_eq_some_iff h.keys).mpr hmem
    have hkey : IsPending state.pending intent = true := by rw [IsPending, hget]; rfl
    cases hready : IsReady state.pending now intent with
    | true =>
      obtain ⟨intent', hintent', -⟩ := h.nextReadyBatch_ready hlimit hpassed hready
      exact .inl (List.ne_nil_of_mem hintent')
    | false =>
      obtain ⟨seen, rest, batch, next, order, horder, heq, hsaw, hend⟩ :=
        nextReadyBatch_of_no_backoff hpassed limit
      rw [heq]
      dsimp only
      rcases hend with rfl | hfull
      · have hseen := h.listed intent hkey
        rw [horder, List.append_nil] at hseen
        have hsome : next ≠ none := hsaw.delayed intent hseen hkey hready
        obtain ⟨retryAt, rfl⟩ := Option.ne_none_iff_exists'.mp hsome
        have hlater := hsaw.later (fun retryAt hretry => by cases hretry) retryAt rfl
        exact .inr ⟨retryAt, rfl, hlater⟩
      · exact .inl (List.ne_nil_of_length_pos (Nat.lt_of_lt_of_le hlimit hfull))

end Valid

/-- No intent is lost, no permit is lost, somebody works while something is pending, and a batch
of any size is either not empty or has a time to wait for. -/
theorem run_new_listsOrReleases {actions : List Action} {s : System}
    (hdistinct : (intents actions).Nodup) (hrun : run .new actions = some s) :
    (∀ intent ∈ intents actions,
      (IsPending s.state.pending intent = true ∧ s.state.order.count intent = 1 ∧
        intent ∉ s.released) ∨
      (IsPending s.state.pending intent = false ∧ intent ∈ s.released)) ∧
    s.free + s.state.pending.length + s.reservations = schedulerRedisReleaseCapacity ∧
    (s.state.pending ≠ [] → s.state.workerRunning = true ∧ s.worker ≠ .absent) ∧
    (s.state.pending ≠ [] → ∀ now limit, 0 < limit →
      (s.state.nextReadyBatch now limit).1.1 ≠ [] ∨
        ∃ retryAt, (s.state.nextReadyBatch now limit).1.2 = some retryAt ∧ now < retryAt) ∧
    ∀ now limit intent, 0 < limit → (∀ retryAt ∈ s.state.systemRetryAt, retryAt ≤ now) →
      IsReady s.state.pending now intent = true →
      ∃ intent' ∈ (s.state.nextReadyBatch now limit).1.1,
        IsReady s.state.pending now intent' = true := by
  obtain ⟨hinv, henqueued⟩ := System.inv_new.run hdistinct hrun
  refine ⟨?_, hinv.permits, ?_, ?_, ?_⟩
  · intro intent hintent
    have hin : intent ∈ s.enqueued := by
      rw [henqueued]
      exact List.mem_append_right _ hintent
    by_cases hreleased : intent ∈ s.released
    · exact .inr ⟨(hinv.accounts.gone intent hreleased).1, hreleased⟩
    · have hpending := (hinv.accounts.kept intent hin).resolve_right hreleased
      have hcount := List.count_eq_one_of_mem hinv.accounts.order
        (hinv.accounts.listed intent hpending)
      exact .inl ⟨hpending, hcount, hreleased⟩
  · intro hpending
    have hrunning := hinv.served hpending
    exact ⟨hrunning, hinv.running.mp hrunning⟩
  · exact fun hpending now limit hlimit => hinv.accounts.nextReadyBatch_or hpending now hlimit
  · exact fun now limit intent hlimit hpassed hready =>
      hinv.accounts.nextReadyBatch_ready hlimit hpassed hready

/-- Two releases are queued; Redis refuses the first and takes the second. -/
def refusedThenTaken : List Action :=
  [.tryReserve, .tryReserve, .enqueue (.inFlight 1 7 false) 0, .spawn,
    .enqueue (.dispatchQueue "queued") 0, .poll 1, .settle [.intentFailure 2, .success] 2]

def afterRefusedThenTaken : System where
  state := {
    pending := [(.inFlight 1 7 false, ⟨1, 48000002⟩)]
    order := [.inFlight 1 7 false, .dispatchQueue "queued"]
    workerRunning := true }
  free := 65535
  reservations := 0
  worker := .polling
  enqueued := [.inFlight 1 7 false, .dispatchQueue "queued"]
  released := [.dispatchQueue "queued"]

theorem run_new_listsOrReleases_refusedThenTaken :
    (IsPending afterRefusedThenTaken.state.pending (.inFlight 1 7 false) = true ∧
        afterRefusedThenTaken.state.order.count (.inFlight 1 7 false) = 1 ∧
        .inFlight 1 7 false ∉ afterRefusedThenTaken.released) ∨
      (IsPending afterRefusedThenTaken.state.pending (.inFlight 1 7 false) = false ∧
        .inFlight 1 7 false ∈ afterRefusedThenTaken.released) :=
  have hrun : run .new refusedThenTaken = some afterRefusedThenTaken := by decide +kernel
  (run_new_listsOrReleases (by decide) hrun).1 _ (by decide)

/-- A batch of no size has neither an intent nor a time, though a ready intent is pending. -/
theorem nextReadyBatch_zero : ∃ s, run .new [.tryReserve, .enqueue (.dispatchQueue "queued") 0] =
      some s ∧ s.state.pending ≠ [] ∧ (s.state.nextReadyBatch 0 0).1 = ([], none) :=
  ⟨_, rfl, by decide, by decide⟩

end KiroProxy.ReleaseDispatcher
