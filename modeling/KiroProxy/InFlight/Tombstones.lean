import KiroProxy.InFlight.Counting

/-!
# Released leases and the states of Redis

A release records a tombstone, removes the lease from its entry and queues the release for
Redis. A sync fetches a snapshot of Redis, drops the leases with a tombstone from it and applies
the rest. Each of these is a critical section of its own, and releases and syncs interleave.
-/

namespace KiroProxy.InFlight.Tombstones

open Transition

abbrev LeaseKey := ℕ × ℕ

def tombstoneTtl : Duration := 15 * 60 * 1000000000

def tombstoneHardLimit : ℕ := 200000

structure ReleasedLeaseTombstoneSet where
  releasedAt : List (LeaseKey × Instant)
  order : List (LeaseKey × Instant)
  deriving DecidableEq, Repr

namespace ReleasedLeaseTombstoneSet

def containsKey (tombstones : ReleasedLeaseTombstoneSet) (key : LeaseKey) : Bool :=
  (KeyedList.get key tombstones.releasedAt).isSome

def isEmpty (tombstones : ReleasedLeaseTombstoneSet) : Bool := tombstones.releasedAt.isEmpty

def insert (tombstones : ReleasedLeaseTombstoneSet) (key : LeaseKey) (now : Instant) :
    ReleasedLeaseTombstoneSet where
  releasedAt := KeyedList.insert key now tombstones.releasedAt
  order := tombstones.order ++ [(key, now)]

/-- The loop of `prune` over the queue. A key inserted again later keeps its newer time. -/
def pruneFrom (now : Instant) (releasedAt : List (LeaseKey × Instant)) :
    List (LeaseKey × Instant) → ReleasedLeaseTombstoneSet
  | [] => ⟨releasedAt, []⟩
  | (key, time) :: rest =>
    if durationSince now time ≤ tombstoneTtl ∧ rest.length + 1 ≤ tombstoneHardLimit then
      ⟨releasedAt, (key, time) :: rest⟩
    else
      pruneFrom now
        (if KeyedList.get key releasedAt = some time then KeyedList.remove key releasedAt
          else releasedAt)
        rest

def prune (tombstones : ReleasedLeaseTombstoneSet) (now : Instant) : ReleasedLeaseTombstoneSet :=
  pruneFrom now tombstones.releasedAt tombstones.order

end ReleasedLeaseTombstoneSet

def recordReleasedInFlightLeaseTombstone (tombstones : ReleasedLeaseTombstoneSet)
    (key : LeaseKey) (now : Instant) : ReleasedLeaseTombstoneSet :=
  (tombstones.insert key now).prune now

def retainUnreleased (tombstones : ReleasedLeaseTombstoneSet) (credentialId : ℕ)
    (state : SchedulerCredentialState) : SchedulerCredentialState where
  inFlightLeases := state.inFlightLeases.filter fun lease =>
    !tombstones.containsKey (credentialId, lease.id)

def filterReleasedInFlightLeasesFromSchedulerStates (tombstones : ReleasedLeaseTombstoneSet)
    (now : Instant) (states : SchedulerStates) : ReleasedLeaseTombstoneSet × SchedulerStates :=
  if states.isEmpty then (tombstones, states)
  else
    let tombstones := tombstones.prune now
    if tombstones.isEmpty then (tombstones, states)
    else (tombstones, states.map fun state =>
      (state.1, retainUnreleased tombstones state.1 state.2))

inductive RedisLeaseAcquisitionState
  | notStarted
  | commitUnknown
  | definitive (acquired : Bool)
  deriving DecidableEq, Repr

def RedisLeaseAcquisitionState.releaseKind : RedisLeaseAcquisitionState → Option Bool
  | notStarted => none
  | definitive false => none
  | commitUnknown => some true
  | definitive true => some false

inductive ReleasePhase
  | held
  | recorded
  | removed
  | completed
  deriving DecidableEq, Repr

/-- A guard at the time of its release; only then may another party use it. A guard whose
lease Redis may have also holds the tombstones. -/
structure Guard where
  credentialId : ℕ
  leaseId : ℕ
  acquisition : RedisLeaseAcquisitionState
  phase : ReleasePhase
  deriving DecidableEq, Repr

def Guard.key (guard : Guard) : LeaseKey := (guard.credentialId, guard.leaseId)

def Guard.reachesRedis (guard : Guard) : Bool := guard.acquisition.releaseKind.isSome

/-- The lease has been removed from its entry. -/
def Guard.isGone (guard : Guard) : Bool := guard.phase = .removed || guard.phase = .completed

/-- `begun` is not part of the program: the guards whose release had begun at the filter. -/
inductive SyncPhase
  | fetched
  | filtered (states : SchedulerStates) (begun : List ℕ)
  | applied
  deriving DecidableEq, Repr

structure Sync where
  full : Bool
  fetched : SchedulerStates
  phase : SyncPhase
  deriving DecidableEq, Repr

structure System where
  entries : Entries
  tombstones : ReleasedLeaseTombstoneSet
  guards : List Guard
  syncs : List Sync
  releaseIntents : List (LeaseKey × Bool)
  deriving DecidableEq, Repr

def new (entries : Entries) (guards : List Guard) : System where
  entries := entries
  tombstones := ⟨[], []⟩
  guards := guards
  syncs := []
  releaseIntents := []

inductive Action
  | release (guard : ℕ) (now : Instant)
  | fetch (full : Bool) (states : SchedulerStates)
  | filter (sync : ℕ) (now : Instant)
  | apply (sync : ℕ) (time : SyncTime)
  deriving DecidableEq, Repr

def System.begun (s : System) : List ℕ :=
  (List.range s.guards.length).filter fun i => s.guards[i]?.any (·.phase != .held)

/-- The next critical section of `release`. The swap of the flag, after which a second call
returns at once, is part of the first. -/
def System.release (s : System) (i : ℕ) (now : Instant) (guard : Guard) : Option System :=
  match guard.phase with
  | .held => some { s with
      tombstones :=
        if guard.reachesRedis then
          recordReleasedInFlightLeaseTombstone s.tombstones guard.key now
        else s.tombstones
      guards := s.guards.set i { guard with phase := .recorded } }
  | .recorded => some { s with
      entries := (releaseInFlightLeaseFromEntries s.entries guard.credentialId guard.leaseId).2
      guards := s.guards.set i { guard with phase := .removed } }
  | .removed => some { s with
      releaseIntents := s.releaseIntents ++
        guard.acquisition.releaseKind.toList.map fun tombstone => (guard.key, tombstone)
      guards := s.guards.set i { guard with phase := .completed } }
  | .completed => none

def applyStates (full : Bool) (time : SyncTime) (states : SchedulerStates) (entries : Entries) :
    Entries :=
  if full then applySchedulerStates time states entries
  else applySchedulerStatesForIds time states entries

def System.filter (s : System) (i : ℕ) (now : Instant) (sync : Sync) : Option System :=
  match sync.phase with
  | .fetched =>
    let (tombstones, states) :=
      filterReleasedInFlightLeasesFromSchedulerStates s.tombstones now sync.fetched
    some { s with
      tombstones := tombstones
      syncs := s.syncs.set i { sync with phase := .filtered states s.begun } }
  | _ => none

def System.apply (s : System) (i : ℕ) (time : SyncTime) (sync : Sync) : Option System :=
  match sync.phase with
  | .filtered states _ => some { s with
      entries := applyStates sync.full time states s.entries
      syncs := s.syncs.set i { sync with phase := .applied } }
  | _ => none

def step (s : System) : Action → Option System
  | .release i now => s.guards[i]?.bind (s.release i now)
  | .fetch full states =>
    some { s with
      syncs := s.syncs ++ [{ full := full, fetched := states, phase := .fetched }] }
  | .filter i now => s.syncs[i]?.bind (s.filter i now)
  | .apply i time => s.syncs[i]?.bind (s.apply i time)

variable {s t : System} {a : Action} {actions : List Action} {i j : ℕ} {guard : Guard}
  {sync : Sync} {entry : CredentialEntry} {key : LeaseKey} {now : Instant} {time : SyncTime}

theorem System.filter_eq_some (ht : s.filter j now sync = some t) :
    sync.phase = .fetched ∧ t = { s with
      tombstones :=
        (filterReleasedInFlightLeasesFromSchedulerStates s.tombstones now sync.fetched).1
      syncs := s.syncs.set j { sync with
        phase := .filtered
          (filterReleasedInFlightLeasesFromSchedulerStates s.tombstones now sync.fetched).2
          s.begun } } := by
  rw [System.filter] at ht
  split at ht
  · rename_i hphase
    exact ⟨hphase, (Option.some.inj ht).symm⟩
  · cases ht

theorem System.apply_eq_some (ht : s.apply j time sync = some t) :
    ∃ states begun, sync.phase = .filtered states begun ∧ t = { s with
      entries := applyStates sync.full time states s.entries
      syncs := s.syncs.set j { sync with phase := .applied } } := by
  rw [System.apply] at ht
  split at ht
  · rename_i states begun hphase
    exact ⟨states, begun, hphase, (Option.some.inj ht).symm⟩
  · cases ht

namespace ReleasedLeaseTombstoneSet

/-- A tombstone stays while all entries of the queue for its key are within the time limit and
the queue is within its own. -/
theorem get_pruneFrom_ne_none {releasedAt order : List (LeaseKey × Instant)}
    (httl : ∀ time, (key, time) ∈ order → durationSince now time ≤ tombstoneTtl)
    (hlimit : order.length ≤ tombstoneHardLimit) (h : KeyedList.get key releasedAt ≠ none) :
    KeyedList.get key (pruneFrom now releasedAt order).releasedAt ≠ none := by
  induction order generalizing releasedAt with
  | nil => exact h
  | cons front rest ih =>
    obtain ⟨key', time⟩ := front
    rw [pruneFrom]
    split_ifs with hstays hsame
    · exact h
    · have hne : key ≠ key' := by
        rintro rfl
        exact hstays ⟨httl time List.mem_cons_self, hlimit⟩
      refine ih (fun time htime => httl time (List.mem_cons_of_mem _ htime))
        (Nat.le_of_succ_le hlimit) ?_
      rwa [KeyedList.get_remove_of_ne hne]
    · exact ih (fun time htime => httl time (List.mem_cons_of_mem _ htime))
        (Nat.le_of_succ_le hlimit) h

theorem get_pruneFrom_eq_none {releasedAt order : List (LeaseKey × Instant)}
    (h : KeyedList.get key releasedAt = none) :
    KeyedList.get key (pruneFrom now releasedAt order).releasedAt = none := by
  induction order generalizing releasedAt with
  | nil => exact h
  | cons front rest ih =>
    obtain ⟨key', time⟩ := front
    rw [pruneFrom]
    split_ifs with hstays hsame
    · exact h
    · have hne : key ≠ key' := by
        rintro rfl
        cases h.symm.trans hsame
      apply ih
      rwa [KeyedList.get_remove_of_ne hne]
    · exact ih h

end ReleasedLeaseTombstoneSet

def redisLeases (states : SchedulerStates) (credentialId : ℕ) : List SchedulerInFlightLease :=
  ((KeyedList.get credentialId states).map SchedulerCredentialState.inFlightLeases).getD []

def freshIds (time : SyncTime) (states : SchedulerStates) (credentialId : ℕ) : List ℕ :=
  ((redisLeases states credentialId).filter fun lease =>
    redisInFlightLeaseIsFresh lease.lastSeenAtMs time.nowMs time.inFlightMaxAge).map
      SchedulerInFlightLease.id

/-- Every branch of the filter keeps the leases without a tombstone. -/
theorem filter_states (tombstones : ReleasedLeaseTombstoneSet) (now : Instant)
    (states : SchedulerStates) :
    (filterReleasedInFlightLeasesFromSchedulerStates tombstones now states).2 =
      states.map fun state => (state.1, retainUnreleased
        (filterReleasedInFlightLeasesFromSchedulerStates tombstones now states).1
        state.1 state.2) := by
  rw [filterReleasedInFlightLeasesFromSchedulerStates]
  split_ifs with hstates
  · rw [List.isEmpty_iff.mp hstates]
    rfl
  · cases hempty : (tombstones.prune now).isEmpty with
    | true =>
      have hnil : (tombstones.prune now).releasedAt = [] := List.isEmpty_iff.mp hempty
      simp [ReleasedLeaseTombstoneSet.containsKey, retainUnreleased, hempty, hnil, KeyedList.get]
    | false => simp [hempty]

theorem redisLeases_filter (tombstones : ReleasedLeaseTombstoneSet) (now : Instant)
    (states : SchedulerStates) (credentialId : ℕ) :
    redisLeases (filterReleasedInFlightLeasesFromSchedulerStates tombstones now states).2
        credentialId =
      (redisLeases states credentialId).filter fun lease =>
        !(filterReleasedInFlightLeasesFromSchedulerStates tombstones now states).1.containsKey
          (credentialId, lease.id) := by
  rw [filter_states, redisLeases, redisLeases,
    KeyedList.get_mapWithKey (fun id state => retainUnreleased
      (filterReleasedInFlightLeasesFromSchedulerStates tombstones now states).1 id state)]
  cases KeyedList.get credentialId states with
  | none => rfl
  | some state => rfl

variable {states : SchedulerStates}

theorem mem_freshIds_filter (key : LeaseKey) {tombstones : ReleasedLeaseTombstoneSet} :
    key.2 ∈ freshIds time
        (filterReleasedInFlightLeasesFromSchedulerStates tombstones now states).2 key.1 ↔
      (filterReleasedInFlightLeasesFromSchedulerStates tombstones now states).1.containsKey key =
          false ∧
        key.2 ∈ freshIds time states key.1 := by
  rw [freshIds, freshIds, redisLeases_filter]
  simp only [List.mem_map, List.mem_filter, Bool.not_eq_true']
  constructor
  · rintro ⟨lease, ⟨⟨hmem, hcontains⟩, hfresh⟩, hid⟩
    rw [hid] at hcontains
    exact ⟨hcontains, lease, ⟨hmem, hfresh⟩, hid⟩
  · rintro ⟨hcontains, lease, ⟨hmem, hfresh⟩, hid⟩
    refine ⟨lease, ⟨⟨hmem, ?_⟩, hfresh⟩, hid⟩
    rw [hid]
    exact hcontains

structure Covered (entry : CredentialEntry) : Prop where
  nodup : entry.leaseIds.Nodup
  count_le : entry.inFlightRequests ≤ entry.weight

variable {entry' : CredentialEntry} {leaseId weight : ℕ} {guards : List Guard}

theorem leaseIds_release (h : entry.release leaseId = some (weight, entry')) :
    entry'.leaseIds.Sublist entry.leaseIds := by
  obtain ⟨-, -, -, hleases, -⟩ := CredentialEntry.release_eq_some h
  rw [CredentialEntry.leaseIds, hleases]
  exact List.eraseP_sublist.map InFlightLease.id

theorem not_mem_leaseIds_release (hnodup : entry.leaseIds.Nodup)
    (h : entry.release leaseId = some (weight, entry')) : leaseId ∉ entry'.leaseIds := by
  obtain ⟨lease, hfind, -, hleases, -⟩ := CredentialEntry.release_eq_some h
  have hp : (lease.id == leaseId) = true := by simpa using List.find?_some hfind
  obtain ⟨removed, before, after, -, hid, heq, herase⟩ :=
    List.exists_of_eraseP (p := (·.id == leaseId)) (List.mem_of_find?_eq_some hfind) hp
  rw [CredentialEntry.leaseIds, heq, List.map_append, List.map_cons, List.nodup_middle,
    List.nodup_cons, ← List.map_append] at hnodup
  rw [CredentialEntry.leaseIds, hleases, herase]
  have hremoved : removed.id = leaseId := by simpa using hid
  exact hremoved ▸ hnodup.1

theorem Covered.release (h : Covered entry)
    (hrelease : entry.release leaseId = some (weight, entry')) : Covered entry' where
  nodup := h.nodup.sublist (leaseIds_release hrelease)
  count_le := by
    obtain ⟨-, -, -, -, hcount, -⟩ := CredentialEntry.release_eq_some hrelease
    have hweight := CredentialEntry.weight_release hrelease
    have hle := h.count_le
    omega

def applied (full : Bool) (time : SyncTime) (states : SchedulerStates) (credentialId : ℕ)
    (entry : CredentialEntry) : CredentialEntry :=
  match KeyedList.get credentialId states with
  | some state => applySchedulerStateToEntry time entry state
  | none => if full then applySchedulerStateToEntry time entry {} else entry

theorem applyStates_eq (full : Bool) (time : SyncTime) (states : SchedulerStates)
    (entries : Entries) :
    applyStates full time states entries =
      entries.map fun entry => (entry.1, applied full time states entry.1 entry.2) := by
  rw [applyStates]
  cases full with
  | true =>
    refine List.map_congr_left fun entry _ => congrArg (Prod.mk entry.1) ?_
    rw [applied]
    cases KeyedList.get entry.1 states with
    | none => rfl
    | some state => rfl
  | false =>
    refine List.map_congr_left fun entry _ => congrArg (Prod.mk entry.1) ?_
    rw [applied]
    cases KeyedList.get entry.1 states with
    | none => rfl
    | some state => rfl

theorem covered_applySchedulerStateToEntry {state : SchedulerCredentialState}
    (hstate : (state.inFlightLeases.map SchedulerInFlightLease.id).Nodup) :
    Covered (applySchedulerStateToEntry time entry state) where
  nodup := nodup_mergedInFlightLeases time entry.inFlightLeases hstate
  count_le := by
    change saturatingSum _ ≤ _
    rw [saturatingSum_eq]
    exact Nat.min_le_left _ _

theorem Covered.applied (h : Covered entry) (full : Bool) (time : SyncTime) (hstates : distinctIds states)
    (credentialId : ℕ) :
    Covered (applied full time states credentialId entry) := by
  rw [Tombstones.applied]
  cases hget : KeyedList.get credentialId states with
  | some state => exact covered_applySchedulerStateToEntry (hstates _ (KeyedList.mem_of_get hget))
  | none =>
    cases full with
    | true => exact covered_applySchedulerStateToEntry List.nodup_nil
    | false => exact h

theorem mem_leaseIds_applySchedulerStateToEntry (hnotin : leaseId ∉ entry.leaseIds)
    (state : SchedulerCredentialState) :
    leaseId ∈ (applySchedulerStateToEntry time entry state).leaseIds ↔
      leaseId ∈ (freshLeases time state).map SchedulerInFlightLease.id := by
  change leaseId ∈ (mergedInFlightLeases time entry.inFlightLeases state).map InFlightLease.id ↔ _
  rw [mergedInFlightLeases, List.map_append, ids_mergedLeases, List.mem_append]
  refine or_iff_left fun hunseen => ?_
  obtain ⟨lease, hlease, rfl⟩ := List.mem_map.mp hunseen
  exact hnotin (List.mem_map_of_mem (mem_unseenLocalLeases hlease).2.2)

theorem mem_leaseIds_applied (hnotin : leaseId ∉ entry.leaseIds) (full : Bool) (time : SyncTime)
    (states : SchedulerStates) (credentialId : ℕ) :
    leaseId ∈ (applied full time states credentialId entry).leaseIds ↔
      leaseId ∈ freshIds time states credentialId := by
  rw [applied, freshIds, redisLeases]
  cases KeyedList.get credentialId states with
  | some state => exact mem_leaseIds_applySchedulerStateToEntry hnotin state
  | none =>
    refine iff_of_false ?_ List.not_mem_nil
    cases full with
    | true =>
      rw [if_pos rfl, mem_leaseIds_applySchedulerStateToEntry hnotin]
      exact List.not_mem_nil
    | false => exact hnotin

/-- The tombstone of the guard is within the time limit and the set within its own wherever it
is pruned, and Redis lists no lease twice and none that it was never asked for. -/
def Lasting (i : ℕ) (s : System) : Action → Prop
  | .release j now => ∀ guard ∈ s.guards[j]?, guard.phase = .held → guard.reachesRedis = true →
      s.tombstones.order.length + 1 ≤ tombstoneHardLimit ∧
      ∀ guard ∈ s.guards[i]?, ∀ released ∈ s.tombstones.order, released.1 = guard.key →
        durationSince now released.2 ≤ tombstoneTtl
  | .fetch _ states => distinctIds states ∧
      ∀ guard ∈ s.guards[i]?, guard.reachesRedis = false →
        guard.leaseId ∉ (redisLeases states guard.credentialId).map SchedulerInFlightLease.id
  | .filter _ now => s.tombstones.order.length ≤ tombstoneHardLimit ∧
      ∀ guard ∈ s.guards[i]?, ∀ released ∈ s.tombstones.order, released.1 = guard.key →
        durationSince now released.2 ≤ tombstoneTtl
  | .apply _ _ => True

/-- The snapshot has the lease and was filtered before the release began. -/
def Sync.isStale (i : ℕ) (guard : Guard) (time : SyncTime) (sync : Sync) : Bool :=
  match sync.phase with
  | .filtered _ begun =>
    i ∉ begun && guard.leaseId ∈ freshIds time sync.fetched guard.credentialId
  | _ => false

/-- No stale snapshot is applied after the release has removed the lease. -/
def InTime (i : ℕ) (s : System) : Action → Prop
  | .apply j time => ∀ guard ∈ s.guards[i]?, guard.isGone = true → ∀ sync ∈ s.syncs[j]?,
      sync.isStale i guard time = true → KeyedList.get guard.credentialId s.entries = none
  | _ => True

instance (i : ℕ) (s : System) (a : Action) : Decidable (Lasting i s a) := by
  unfold Lasting
  split <;> infer_instance

instance (i : ℕ) (s : System) (a : Action) : Decidable (InTime i s a) := by
  unfold InTime
  split <;> infer_instance

def System.Away (i : ℕ) (s : System) : Prop :=
  ∀ guard ∈ s.guards[i]?, guard.isGone = true →
    ∀ entry ∈ KeyedList.get guard.credentialId s.entries, guard.leaseId ∉ entry.leaseIds

structure Sync.Knows (i : ℕ) (guard : Guard) (sync : Sync) : Prop where
  unknown : guard.reachesRedis = false →
    guard.leaseId ∉ (redisLeases sync.fetched guard.credentialId).map SchedulerInFlightLease.id
  filtered : ∀ states begun, sync.phase = .filtered states begun → ∀ time,
    guard.leaseId ∈ freshIds time states guard.credentialId ↔
      i ∉ begun ∧ guard.leaseId ∈ freshIds time sync.fetched guard.credentialId

structure Inv (i : ℕ) (s : System) : Prop where
  keys : (s.guards.map Guard.key).Nodup
  covered : ∀ entry ∈ s.entries, Covered entry.2
  tombstone : ∀ guard ∈ s.guards[i]?, guard.reachesRedis = true → guard.phase ≠ .held →
    KeyedList.get guard.key s.tombstones.releasedAt ≠ none
  held : ∀ guard ∈ s.guards[i]?, guard.phase = .held →
    KeyedList.get guard.key s.tombstones.releasedAt = none
  fetched : ∀ sync ∈ s.syncs, distinctIds sync.fetched
  filtered : ∀ sync ∈ s.syncs, ∀ states begun, sync.phase = .filtered states begun →
    distinctIds states
  knows : ∀ guard ∈ s.guards[i]?, ∀ sync ∈ s.syncs, sync.Knows i guard

theorem inv_new {entries : Entries} (i : ℕ) (hentries : ∀ entry ∈ entries, Covered entry.2)
    (hkeys : (guards.map Guard.key).Nodup) (hheld : ∀ guard ∈ guards, guard.phase = .held) :
    Inv i (new entries guards) where
  keys := hkeys
  covered := hentries
  tombstone guard hguard _ hphase := absurd (hheld guard (List.mem_of_getElem? hguard)) hphase
  held _ _ _ := rfl
  fetched := by simp [new]
  filtered := by simp [new]
  knows := by simp [new]

theorem keys_set (hguard : guards[j]? = some guard) (guard' : Guard) (hkey : guard'.key = guard.key) :
    (guards.set j guard').map Guard.key = guards.map Guard.key := by
  obtain ⟨hj, hget⟩ := List.getElem?_eq_some_iff.mp hguard
  have hj' : j < (guards.map Guard.key).length := by simpa using hj
  have hself : (guards.map Guard.key)[j] = guard.key := by rw [List.getElem_map, hget]
  rw [List.map_set, hkey, ← hself, List.set_getElem_self]

theorem eq_of_key_eq (hnodup : (guards.map Guard.key).Nodup) {guard' : Guard}
    (hguard : guards[j]? = some guard) (hguard' : guards[i]? = some guard')
    (hkey : guard'.key = guard.key) : i = j := by
  obtain ⟨hi, -⟩ := List.getElem?_eq_some_iff.mp hguard'
  have hi' : i < (guards.map Guard.key).length := by simpa using hi
  refine (List.getElem?_inj hi' hnodup).mp ?_
  rw [List.getElem?_map, List.getElem?_map, hguard, hguard', Option.map_some, Option.map_some,
    hkey]

theorem guard_set_cases {guard' : Guard} (hguard : (guards.set j guard)[i]? = some guard') :
    i = j ∧ guard' = guard ∨ i ≠ j ∧ guards[i]? = some guard' := by
  by_cases hij : i = j
  · subst hij
    obtain ⟨hi, hget⟩ := List.getElem?_eq_some_iff.mp hguard
    rw [List.getElem_set_self] at hget
    exact .inl ⟨rfl, hget.symm⟩
  · rw [List.getElem?_set_ne fun h => hij h.symm] at hguard
    exact .inr ⟨hij, hguard⟩

namespace Inv

/-- The guard at `j` moves on from being held or from a later phase. -/
theorem setPhase (h : Inv i s) (hguard : s.guards[j]? = some guard) (phase : ReleasePhase)
    (hphase : phase ≠ .held)
    (ht : t.guards = s.guards.set j { guard with phase := phase } ∧ t.syncs = s.syncs)
    (hentries : ∀ entry ∈ t.entries, Covered entry.2)
    (htombstone : ∀ guard ∈ s.guards[i]?, guard.reachesRedis = true →
      guard.phase ≠ .held ∨ i = j →
        KeyedList.get guard.key t.tombstones.releasedAt ≠ none)
    (hheld : ∀ guard ∈ s.guards[i]?, i ≠ j → guard.phase = .held →
      KeyedList.get guard.key t.tombstones.releasedAt = none) : Inv i t where
  keys := by
    rw [ht.1, keys_set hguard { guard with phase := phase } rfl]
    exact h.keys
  covered := hentries
  tombstone := by
    intro guard' hguard' hreaches hphase'
    rw [ht.1] at hguard'
    rcases guard_set_cases hguard' with ⟨rfl, rfl⟩ | ⟨-, hguard'⟩
    · exact htombstone guard hguard hreaches (.inr rfl)
    · exact htombstone guard' hguard' hreaches (.inl hphase')
  held := by
    intro guard' hguard' hphase'
    rw [ht.1] at hguard'
    rcases guard_set_cases hguard' with ⟨rfl, rfl⟩ | ⟨hij, hguard'⟩
    · exact absurd hphase' hphase
    · exact hheld guard' hguard' hij hphase'
  fetched := ht.2 ▸ h.fetched
  filtered := ht.2 ▸ h.filtered
  knows := by
    intro guard' hguard' sync hsync
    rw [ht.1] at hguard'
    rw [ht.2] at hsync
    rcases guard_set_cases hguard' with ⟨rfl, rfl⟩ | ⟨-, hguard'⟩
    · have hknows := h.knows guard hguard sync hsync
      exact ⟨hknows.unknown, hknows.filtered⟩
    · exact h.knows guard' hguard' sync hsync

theorem record (h : Inv i s) (hguard : s.guards[j]? = some guard) (hphase : guard.phase = .held)
    (hlasting : Lasting i s (.release j now)) (ht : s.release j now guard = some t) :
    Inv i t := by
  rw [System.release, hphase] at ht
  cases ht
  refine h.setPhase hguard .recorded (by simp) ⟨rfl, rfl⟩ h.covered ?_ ?_
  · intro guard' hguard' hreaches hphase'
    change KeyedList.get guard'.key (ite _ _ s.tombstones).releasedAt ≠ none
    split_ifs with hrecords
    · obtain ⟨hlimit, httl⟩ := hlasting guard hguard hphase hrecords
      refine ReleasedLeaseTombstoneSet.get_pruneFrom_ne_none (fun time htime => ?_) ?_ ?_
      · rcases List.mem_append.mp htime with htime | htime
        · exact httl guard' hguard' _ htime rfl
        · have hnow : time = now := congrArg Prod.snd (List.mem_singleton.mp htime)
          simp [hnow, durationSince]
      · rw [ReleasedLeaseTombstoneSet.insert, List.length_append]
        exact hlimit
      · by_cases hij : i = j
        · subst hij
          obtain rfl : guard = guard' := Option.some.inj (hguard.symm.trans hguard')
          rw [ReleasedLeaseTombstoneSet.insert, KeyedList.get_insert_self]
          exact Option.some_ne_none _
        · exact KeyedList.get_insert_ne_none
            (h.tombstone guard' hguard' hreaches (hphase'.resolve_right hij)) now
    · refine h.tombstone guard' hguard' hreaches (hphase'.resolve_right ?_)
      rintro rfl
      obtain rfl : guard = guard' := Option.some.inj (hguard.symm.trans hguard')
      exact hrecords hreaches
  · intro guard' hguard' hij hheld
    have hne : guard'.key ≠ guard.key := fun hkey => hij (eq_of_key_eq h.keys hguard hguard' hkey)
    change KeyedList.get guard'.key (ite _ _ s.tombstones).releasedAt = none
    split_ifs with hrecords
    · refine ReleasedLeaseTombstoneSet.get_pruneFrom_eq_none ?_
      rw [ReleasedLeaseTombstoneSet.insert, KeyedList.get_insert_of_ne hne]
      exact h.held guard' hguard' hheld
    · exact h.held guard' hguard' hheld

theorem covered_released (h : Inv i s) (guard : Guard) :
    ∀ entry ∈
      (releaseInFlightLeaseFromEntries s.entries guard.credentialId guard.leaseId).2,
        Covered entry.2 := by
  rw [releaseInFlightLeaseFromEntries]
  split
  · exact h.covered
  · rename_i weight entry' hrelease
    obtain ⟨entry, hget, hrelease⟩ := Option.bind_eq_some_iff.mp hrelease
    intro entry'' hmem
    rcases KeyedList.mem_insert hmem with rfl | hmem
    · exact (h.covered _ (KeyedList.mem_of_get hget)).release hrelease
    · exact h.covered entry'' hmem

theorem release (h : Inv i s) (hguard : s.guards[j]? = some guard)
    (hlasting : Lasting i s (.release j now)) (ht : s.release j now guard = some t) :
    Inv i t := by
  cases hphase : guard.phase with
  | held => exact h.record hguard hphase hlasting ht
  | recorded =>
    rw [System.release, hphase] at ht
    cases ht
    refine h.setPhase hguard .removed (by simp) ⟨rfl, rfl⟩ (h.covered_released guard)
      (fun guard' hguard' hreaches hphase' => h.tombstone guard' hguard' hreaches ?_)
      fun guard' hguard' _ => h.held guard' hguard'
    rcases hphase' with hphase' | rfl
    · exact hphase'
    · obtain rfl : guard = guard' := Option.some.inj (hguard.symm.trans hguard')
      simp [hphase]
  | removed =>
    rw [System.release, hphase] at ht
    cases ht
    refine h.setPhase hguard .completed (by simp) ⟨rfl, rfl⟩ h.covered
      (fun guard' hguard' hreaches hphase' => h.tombstone guard' hguard' hreaches ?_)
      fun guard' hguard' _ => h.held guard' hguard'
    rcases hphase' with hphase' | rfl
    · exact hphase'
    · obtain rfl : guard = guard' := Option.some.inj (hguard.symm.trans hguard')
      simp [hphase]
  | completed =>
    rw [System.release, hphase] at ht
    cases ht

theorem fetch (h : Inv i s) {full : Bool}
    (hlasting : Lasting i s (.fetch full states)) (ht : step s (.fetch full states) = some t) :
    Inv i t := by
  cases ht
  obtain ⟨hdistinct, hunknown⟩ := hlasting
  refine ⟨h.keys, h.covered, h.tombstone, h.held, ?_, ?_, ?_⟩
  · intro sync hsync
    rcases List.mem_append.mp hsync with hsync | hsync
    · exact h.fetched sync hsync
    · cases List.mem_singleton.mp hsync
      exact hdistinct
  · intro sync hsync states' begun hphase
    rcases List.mem_append.mp hsync with hsync | hsync
    · exact h.filtered sync hsync states' begun hphase
    · cases List.mem_singleton.mp hsync
      cases hphase
  · intro guard hguard sync hsync
    rcases List.mem_append.mp hsync with hsync | hsync
    · exact h.knows guard hguard sync hsync
    · cases List.mem_singleton.mp hsync
      exact ⟨hunknown guard hguard, fun _ _ hphase => by cases hphase⟩

theorem mem_begun_iff {guard : Guard} (hguard : s.guards[i]? = some guard) :
    i ∈ s.begun ↔ guard.phase ≠ .held := by
  obtain ⟨hi, hget⟩ := List.getElem?_eq_some_iff.mp hguard
  simp [System.begun, hi, hget]

theorem distinctIds_filter (tombstones : ReleasedLeaseTombstoneSet) (now : Instant)
    (h : distinctIds states) :
    distinctIds (filterReleasedInFlightLeasesFromSchedulerStates tombstones now states).2 := by
  rw [filter_states]
  intro state hstate
  obtain ⟨state, hmem, rfl⟩ := List.mem_map.mp hstate
  exact (h state hmem).sublist (List.filter_sublist.map _)

/-- At a filter the set has the tombstone of the guard if and only if its release has begun. -/
theorem get_filter_iff (h : Inv i s) (hguard : s.guards[i]? = some guard)
    (hlasting : Lasting i s (.filter j now)) (states : SchedulerStates) :
    (guard.reachesRedis = true → guard.phase ≠ .held → KeyedList.get guard.key
      (filterReleasedInFlightLeasesFromSchedulerStates s.tombstones now states).1.releasedAt ≠
        none) ∧
    (guard.phase = .held → KeyedList.get guard.key
      (filterReleasedInFlightLeasesFromSchedulerStates s.tombstones now states).1.releasedAt =
        none) := by
  have hsame : (filterReleasedInFlightLeasesFromSchedulerStates s.tombstones now states).1 =
      s.tombstones ∨
      (filterReleasedInFlightLeasesFromSchedulerStates s.tombstones now states).1 =
        s.tombstones.prune now := by
    rw [filterReleasedInFlightLeasesFromSchedulerStates]
    split_ifs with hstates
    · exact .inl rfl
    · refine .inr ?_
      dsimp only
      split_ifs with hempty
      · rfl
      · rfl
  rcases hsame with hsame | hsame
  · rw [hsame]
    exact ⟨h.tombstone guard hguard, h.held guard hguard⟩
  · rw [hsame]
    exact ⟨fun hreaches hphase => ReleasedLeaseTombstoneSet.get_pruneFrom_ne_none
        (fun time htime => hlasting.2 guard hguard _ htime rfl) hlasting.1
        (h.tombstone guard hguard hreaches hphase),
      fun hphase => ReleasedLeaseTombstoneSet.get_pruneFrom_eq_none (h.held guard hguard hphase)⟩

theorem filter (h : Inv i s) (hsync : s.syncs[j]? = some sync)
    (hlasting : Lasting i s (.filter j now)) (ht : s.filter j now sync = some t) : Inv i t := by
  have hmem := List.mem_of_getElem? hsync
  obtain ⟨-, rfl⟩ := System.filter_eq_some ht
  refine ⟨h.keys, h.covered, fun guard hguard => (h.get_filter_iff hguard hlasting _).1,
    fun guard hguard => (h.get_filter_iff hguard hlasting _).2, ?_, ?_, ?_⟩
  · intro sync' hsync'
    rcases List.mem_or_eq_of_mem_set hsync' with hsync' | rfl
    · exact h.fetched sync' hsync'
    · exact h.fetched sync hmem
  · intro sync' hsync' states begun hphase
    rcases List.mem_or_eq_of_mem_set hsync' with hsync' | rfl
    · exact h.filtered sync' hsync' states begun hphase
    · cases hphase
      exact distinctIds_filter s.tombstones now (h.fetched sync hmem)
  · intro guard hguard sync' hsync'
    rcases List.mem_or_eq_of_mem_set hsync' with hsync' | rfl
    · exact h.knows guard hguard sync' hsync'
    · have hknows := h.knows guard hguard sync hmem
      refine ⟨hknows.unknown, fun states begun hphase time => ?_⟩
      cases hphase
      obtain ⟨hbegun, hheld⟩ := h.get_filter_iff hguard hlasting sync.fetched
      refine (mem_freshIds_filter guard.key).trans (and_congr_left fun hfresh => ?_)
      have hreaches : guard.reachesRedis = true := by
        by_contra hreaches
        refine hknows.unknown (Bool.eq_false_iff.mpr hreaches) ?_
        exact (List.filter_sublist.map _).subset hfresh
      have hiff : i ∈ s.begun ↔ guard.phase ≠ .held := mem_begun_iff hguard
      rw [hiff, not_not, ReleasedLeaseTombstoneSet.containsKey,
        Option.isSome_eq_false_iff, Option.isNone_iff_eq_none]
      exact ⟨fun hnone => by_contra fun hphase => hbegun hreaches hphase hnone, hheld⟩

theorem apply (h : Inv i s) (hsync : s.syncs[j]? = some sync)
    (ht : s.apply j time sync = some t) : Inv i t := by
  have hmem := List.mem_of_getElem? hsync
  obtain ⟨states, begun, hphase, rfl⟩ := System.apply_eq_some ht
  refine ⟨h.keys, ?_, h.tombstone, h.held, ?_, ?_, ?_⟩
  · intro entry hentry
    rw [applyStates_eq] at hentry
    obtain ⟨entry', hentry', rfl⟩ := List.mem_map.mp hentry
    exact (h.covered entry' hentry').applied sync.full time
      (h.filtered sync hmem states begun hphase) entry'.1
  · intro sync' hsync'
    rcases List.mem_or_eq_of_mem_set hsync' with hsync' | rfl
    · exact h.fetched sync' hsync'
    · exact h.fetched sync hmem
  · intro sync' hsync' states' begun' hphase'
    rcases List.mem_or_eq_of_mem_set hsync' with hsync' | rfl
    · exact h.filtered sync' hsync' states' begun' hphase'
    · cases hphase'
  · intro guard hguard sync' hsync'
    rcases List.mem_or_eq_of_mem_set hsync' with hsync' | rfl
    · exact h.knows guard hguard sync' hsync'
    · exact ⟨(h.knows guard hguard sync hmem).unknown, fun _ _ hphase' => by cases hphase'⟩

theorem step (h : Inv i s) (hlasting : Lasting i s a) (hstep : step s a = some t) :
    Inv i t := by
  cases a with
  | release j now =>
    obtain ⟨guard, hguard, ht⟩ := Option.bind_eq_some_iff.mp hstep
    exact h.release hguard hlasting ht
  | fetch full states => exact h.fetch hlasting hstep
  | filter j now =>
    obtain ⟨sync, hsync, ht⟩ := Option.bind_eq_some_iff.mp hstep
    exact h.filter hsync hlasting ht
  | apply j time =>
    obtain ⟨sync, hsync, ht⟩ := Option.bind_eq_some_iff.mp hstep
    exact h.apply hsync ht

end Inv

theorem get_released_cases (entries : Entries) (credentialId leaseId id : ℕ) :
    KeyedList.get id (releaseInFlightLeaseFromEntries entries credentialId leaseId).2 =
        KeyedList.get id entries ∧
        (id = credentialId → ∀ entry ∈ KeyedList.get id entries, entry.release leaseId = none) ∨
      id = credentialId ∧ ∃ entry weight entry', KeyedList.get id entries = some entry ∧
        entry.release leaseId = some (weight, entry') ∧
        KeyedList.get id (releaseInFlightLeaseFromEntries entries credentialId leaseId).2 =
          some entry' := by
  rw [releaseInFlightLeaseFromEntries]
  split
  · rename_i hnone
    refine .inl ⟨rfl, ?_⟩
    rintro rfl entry hget
    have hget : KeyedList.get id entries = some entry := hget
    rwa [hget, Option.bind_some] at hnone
  · rename_i weight entry' hbind
    obtain ⟨entry, hget, hrelease⟩ := Option.bind_eq_some_iff.mp hbind
    by_cases hid : id = credentialId
    · subst hid
      exact .inr ⟨rfl, entry, weight, entry', hget, hrelease, KeyedList.get_insert_self _ _ _⟩
    · exact .inl ⟨KeyedList.get_insert_of_ne hid entry' entries, fun h => absurd h hid⟩

theorem not_mem_leaseIds_of_release_eq_none (h : entry.release leaseId = none) :
    leaseId ∉ entry.leaseIds := by
  intro hmem
  obtain ⟨lease, hlease, hid⟩ := List.mem_map.mp hmem
  have hnone := Option.map_eq_none_iff.mp h
  rw [List.find?_eq_none] at hnone
  exact hnone lease hlease (by simp [hid])

theorem away_released (hs : Inv i s) (hguard : s.guards[j]? = some guard) (guard' : Guard)
    (haway : i = j ∧ guard' = guard ∨ ∀ entry ∈ KeyedList.get guard'.credentialId s.entries,
      guard'.leaseId ∉ entry.leaseIds) :
    ∀ entry ∈ KeyedList.get guard'.credentialId
        (releaseInFlightLeaseFromEntries s.entries guard.credentialId guard.leaseId).2,
      guard'.leaseId ∉ entry.leaseIds := by
  intro entry hentry
  rcases get_released_cases s.entries guard.credentialId guard.leaseId guard'.credentialId with
    ⟨hget, hnone⟩ | ⟨hid, old, weight, new, hget, hrelease, hnew⟩
  · rw [hget] at hentry
    rcases haway with ⟨-, rfl⟩ | haway
    · exact not_mem_leaseIds_of_release_eq_none (hnone rfl entry hentry)
    · exact haway entry hentry
  · obtain rfl : new = entry := Option.some.inj (hnew.symm.trans hentry)
    rcases haway with ⟨-, rfl⟩ | haway
    · exact not_mem_leaseIds_release (hs.covered _ (KeyedList.mem_of_get hget)).nodup hrelease
    · exact fun hmem => haway old hget ((leaseIds_release hrelease).subset hmem)

theorem release_away (hs : Inv i s) (hgood : s.Away i) (hguard : s.guards[j]? = some guard)
    (ht : s.release j now guard = some t) : t.Away i := by
  intro guard' hguard' hgone
  cases hphase : guard.phase with
  | held =>
    rw [System.release, hphase] at ht
    cases ht
    rcases guard_set_cases hguard' with ⟨-, rfl⟩ | ⟨-, hguard'⟩
    · cases hgone
    · exact hgood guard' hguard' hgone
  | recorded =>
    rw [System.release, hphase] at ht
    cases ht
    rcases guard_set_cases hguard' with ⟨hij, rfl⟩ | ⟨-, hguard'⟩
    · exact away_released hs hguard guard (.inl ⟨hij, rfl⟩)
    · exact away_released hs hguard guard' (.inr (hgood guard' hguard' hgone))
  | removed =>
    rw [System.release, hphase] at ht
    cases ht
    rcases guard_set_cases hguard' with ⟨rfl, rfl⟩ | ⟨-, hguard'⟩
    · exact hgood guard hguard (by simp [Guard.isGone, hphase])
    · exact hgood guard' hguard' hgone
  | completed =>
    rw [System.release, hphase] at ht
    cases ht

/-- An apply brings the lease back if and only if its snapshot was filtered too early. -/
theorem apply_away_iff (hs : Inv i s) (hgood : s.Away i) (hsync : s.syncs[j]? = some sync)
    (ht : s.apply j time sync = some t) : t.Away i ↔ InTime i s (.apply j time) := by
  have hmem := List.mem_of_getElem? hsync
  obtain ⟨states, begun, hphase, rfl⟩ := System.apply_eq_some ht
  refine forall_congr' fun guard => forall_congr' fun hguard => forall_congr' fun hgone => ?_
  have hknows := (hs.knows guard hguard sync hmem).filtered states begun hphase time
  have hget : KeyedList.get guard.credentialId
      (applyStates sync.full time states s.entries) =
      (KeyedList.get guard.credentialId s.entries).map
        (applied sync.full time states guard.credentialId) := by
    rw [applyStates_eq]
    exact KeyedList.get_mapWithKey (applied sync.full time states) guard.credentialId s.entries
  change (∀ entry ∈ KeyedList.get guard.credentialId (applyStates sync.full time states s.entries),
    guard.leaseId ∉ entry.leaseIds) ↔ _
  rw [hget, hsync]
  cases hentry : KeyedList.get guard.credentialId s.entries with
  | none => simp
  | some entry =>
    have hnotin := hgood guard hguard hgone entry hentry
    have happlied := mem_leaseIds_applied hnotin sync.full time states guard.credentialId
    rw [hknows] at happlied
    simp [Sync.isStale, hphase, happlied]

theorem step_away_iff (hlasting : Lasting i s a) (hs : Inv i s) (hgood : s.Away i) :
    (∀ t ∈ step s a, t.Away i) ↔ InTime i s a := by
  cases a with
  | release j now =>
    refine iff_of_true (fun t hstep => ?_) trivial
    obtain ⟨guard, hguard, ht⟩ := Option.bind_eq_some_iff.mp hstep
    exact release_away hs hgood hguard ht
  | fetch full states =>
    refine iff_of_true (fun t hstep => ?_) trivial
    cases hstep
    exact hgood
  | filter j now =>
    refine iff_of_true (fun t hstep => ?_) trivial
    obtain ⟨sync, hsync, ht⟩ := Option.bind_eq_some_iff.mp hstep
    obtain ⟨-, rfl⟩ := System.filter_eq_some ht
    exact hgood
  | apply j time =>
    cases hstep : step s (.apply j time) with
    | some t =>
      obtain ⟨sync, hsync, ht⟩ := Option.bind_eq_some_iff.mp hstep
      rw [← apply_away_iff hs hgood hsync ht]
      simp
    | none =>
      refine iff_of_true (by simp) ?_
      intro guard hguard hgone sync hsync hstale
      have hsync : s.syncs[j]? = some sync := hsync
      change s.syncs[j]?.bind (s.apply j time) = none at hstep
      rw [hsync, Option.bind_some, System.apply] at hstep
      cases hphase : sync.phase with
      | filtered states begun =>
        rw [hphase] at hstep
        cases hstep
      | fetched | applied =>
        rw [Sync.isStale, hphase] at hstale
        cases hstale

/-- Within the limits of its tombstone a lease stays away from its release on, in every state
of a run, if and only if no snapshot that was filtered before the release is applied after it,
and no lease is counted that is not recorded. -/
theorem run_new_away_iff (entries : Entries) (guards : List Guard) (i : ℕ)
    (actions : List Action) (hentries : ∀ entry ∈ entries, Covered entry.2)
    (hkeys : (guards.map Guard.key).Nodup) (hheld : ∀ guard ∈ guards, guard.phase = .held)
    (hlasting : Along step (Lasting i) (new entries guards) actions)
    (h : run step (new entries guards) actions = some t) :
    (Along step (fun s a => ∀ t ∈ step s a, t.Away i) (new entries guards) actions ↔
      Along step (InTime i) (new entries guards) actions) ∧
    ∀ entry ∈ t.entries, entry.2.inFlightRequests ≤ entry.2.weight := by
  have hnew := inv_new i hentries hkeys hheld
  have haway : (new entries guards).Away i := by
    intro guard hguard hgone
    rw [Guard.isGone, hheld guard (List.mem_of_getElem? hguard)] at hgone
    cases hgone
  have hinv (s : System) (a : Action) (t : System) (ha : Lasting i s a) (hs : Inv i s)
      (hstep : step s a = some t) : Inv i t := hs.step ha hstep
  have hiff (s : System) (a : Action) (ha : Lasting i s a) (hs : Inv i s) (hgood : s.Away i) :
      (∀ t ∈ step s a, t.Away i) ↔ InTime i s a := step_away_iff ha hs hgood
  exact ⟨along_good_iff hinv hiff hlasting hnew haway, fun entry hentry =>
    ((run_invariant_along hinv hlasting hnew h).covered entry hentry).count_le⟩

instance (entry : CredentialEntry) : Decidable (Covered entry) :=
  decidable_of_iff (entry.leaseIds.Nodup ∧ entry.inFlightRequests ≤ entry.weight)
    ⟨fun h => ⟨h.1, h.2⟩, fun h => ⟨h.1, h.2⟩⟩

instance (i : ℕ) (s : System) : Decidable (s.Away i) :=
  inferInstanceAs (Decidable (∀ guard ∈ s.guards[i]?, _ → ∀ entry ∈ _, _))

/-- Two leases of this process, both known to Redis. -/
def twoLeases : Entries :=
  [(1, ⟨false, none, 3, [⟨7, 0, 0, .api, 2, true⟩, ⟨8, 0, 0, .api, 1, true⟩], none⟩)]

def twoGuards : List Guard :=
  [⟨1, 7, .definitive true, .held⟩, ⟨1, 8, .commitUnknown, .held⟩]

def snapshot : SchedulerStates :=
  [(1, ⟨[⟨7, 0, 0, "api".toList, 2⟩, ⟨8, 0, 0, "api".toList, 1⟩]⟩)]

def filteredAfterRelease : List Action :=
  [.fetch true snapshot, .release 0 5, .filter 0 6, .release 0 6, .release 0 6,
    .apply 0 ⟨none, 0, 7⟩]

theorem run_new_away_iff_filteredAfterRelease :
    ∃ t, run step (new twoLeases twoGuards) filteredAfterRelease = some t ∧
      Along step (fun s a => ∀ t ∈ step s a, t.Away 0) (new twoLeases twoGuards)
        filteredAfterRelease ∧
      ∀ entry ∈ t.entries, entry.2.inFlightRequests ≤ entry.2.weight := by
  have h := run_new_away_iff twoLeases twoGuards 0 filteredAfterRelease (by decide) (by decide)
    (by decide) (by decide) rfl
  exact ⟨_, rfl, h.1.mpr (by decide), h.2⟩

/-- The whole release falls between the filter and the apply, and the lease comes back. -/
theorem filteredBeforeRelease_comes_back :
    ∃ t, run step (new twoLeases twoGuards)
        [.fetch true snapshot, .filter 0 4, .release 0 5, .release 0 5, .release 0 5,
          .apply 0 ⟨none, 0, 7⟩] = some t ∧
      Along step (Lasting 0) (new twoLeases twoGuards)
        [.fetch true snapshot, .filter 0 4, .release 0 5, .release 0 5, .release 0 5,
          .apply 0 ⟨none, 0, 7⟩] ∧
      t.guards.map Guard.phase = [.completed, .held] ∧ ¬ t.Away 0 ∧
      (t.entries.map fun entry => (entry.2.inFlightRequests, entry.2.leaseIds)) =
        [(3, [7, 8])] :=
  ⟨_, rfl, by decide, by decide, by decide, by decide⟩

end KiroProxy.InFlight.Tombstones
