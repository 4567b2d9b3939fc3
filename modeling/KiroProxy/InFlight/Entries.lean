import KiroProxy.KeyedList

/-!
# Slots in flight

A request that uses a credential holds a lease in the entry of the credential, and the entry
keeps the sum of the weights of its leases beside them. Times are whole nanoseconds on a
monotonic clock. Cooldowns, rate limits and health, which the same functions set, are left out.
-/

namespace KiroProxy.InFlight

def u32Max : ℕ := 2 ^ 32 - 1

def saturatingAdd (a b : ℕ) : ℕ := min (a + b) u32Max

def saturatingSum (values : List ℕ) : ℕ := values.foldl saturatingAdd 0

theorem foldl_saturatingAdd (values : List ℕ) {start : ℕ} (hstart : start ≤ u32Max) :
    values.foldl saturatingAdd start = min (start + values.sum) u32Max := by
  induction values generalizing start with
  | nil => rw [List.foldl_nil, List.sum_nil, Nat.add_zero, Nat.min_eq_left hstart]
  | cons value values ih =>
    have hle : saturatingAdd start value ≤ u32Max := Nat.min_le_right _ _
    rw [List.foldl_cons, ih hle, List.sum_cons, saturatingAdd]
    omega

theorem saturatingSum_eq (values : List ℕ) : saturatingSum values = min values.sum u32Max := by
  rw [saturatingSum, foldl_saturatingAdd values (Nat.zero_le _), Nat.zero_add]

theorem saturatingAdd_of_le {a b : ℕ} (h : a + b ≤ u32Max) : saturatingAdd a b = a + b :=
  Nat.min_eq_left h

abbrev Instant := ℤ

abbrev Duration := ℕ

def nanosPerMilli : ℕ := 1000000

def durationSince (now earlier : Instant) : Duration := (now - earlier).toNat

inductive InFlightKind
  | api
  | stream
  | mcp
  | test
  deriving DecidableEq, Repr

def InFlightKind.asStr : InFlightKind → List Char
  | api => "api".toList
  | stream => "stream".toList
  | mcp => "mcp".toList
  | test => "test".toList

def InFlightKind.fromStr (value : List Char) : InFlightKind :=
  if value = "stream".toList then stream
  else if value = "mcp".toList then mcp
  else if value = "test".toList then test
  else api

theorem InFlightKind.fromStr_asStr (kind : InFlightKind) : fromStr kind.asStr = kind := by
  cases kind <;> decide

structure InFlightLease where
  id : ℕ
  acquiredAt : Instant
  lastSeenAt : Instant
  kind : InFlightKind
  weightUnits : ℕ
  locallyOwned : Bool
  deriving DecidableEq, Repr

def InFlightLease.weight (lease : InFlightLease) : ℕ := max lease.weightUnits 1

structure CredentialEntry where
  disabled : Bool
  maxConcurrentRequests : Option ℕ
  inFlightRequests : ℕ
  inFlightLeases : List InFlightLease
  redisFullUntil : Option Instant
  deriving DecidableEq, Repr

abbrev Entries := List (ℕ × CredentialEntry)

def normalizeCapacityWeightUnits (value : ℕ) : ℕ := min (max value 1) 64

def effectiveWeightForLimit (requestWeightUnits limit : ℕ) : ℕ :=
  let weight := normalizeCapacityWeightUnits requestWeightUnits
  if 0 < limit then min weight limit else weight

theorem one_le_effectiveWeightForLimit (requestWeightUnits limit : ℕ) :
    1 ≤ effectiveWeightForLimit requestWeightUnits limit := by
  rw [effectiveWeightForLimit, normalizeCapacityWeightUnits]
  split_ifs with h
  · omega
  · omega

theorem effectiveWeightForLimit_le {limit : ℕ} (h : 0 < limit) (requestWeightUnits : ℕ) :
    effectiveWeightForLimit requestWeightUnits limit ≤ limit := by
  rw [effectiveWeightForLimit, if_pos h]
  exact Nat.min_le_right _ _

def effectiveMaxConcurrentRequests (entry : CredentialEntry)
    (globalMaxConcurrentRequests : ℕ) : ℕ :=
  entry.maxConcurrentRequests.getD globalMaxConcurrentRequests

def entryRedisFullHintActive (entry : CredentialEntry) (now : Instant) : Bool :=
  entry.redisFullUntil.any fun fullUntil => now < fullUntil

def entryHasConcurrencyCapacity (entry : CredentialEntry) (now : Instant)
    (globalMaxConcurrentRequests requestWeightUnits : ℕ) : Bool :=
  if entryRedisFullHintActive entry now then false
  else
    let maxConcurrentRequests := effectiveMaxConcurrentRequests entry globalMaxConcurrentRequests
    let weight := effectiveWeightForLimit requestWeightUnits maxConcurrentRequests
    maxConcurrentRequests = 0 ||
      saturatingAdd entry.inFlightRequests weight ≤ maxConcurrentRequests

/-- The lease of a new request and its weight. -/
def CredentialEntry.push (entry : CredentialEntry) (leaseId : ℕ) (now : Instant)
    (weightUnits : ℕ) : CredentialEntry :=
  { entry with
    inFlightRequests := saturatingAdd entry.inFlightRequests weightUnits
    inFlightLeases := entry.inFlightLeases ++ [{
      id := leaseId
      acquiredAt := now
      lastSeenAt := now
      kind := .api
      weightUnits := weightUnits
      locallyOwned := true }] }

/-- The limits of the configuration: for one credential without an override and for all. -/
structure Limits where
  maxConcurrentRequests : ℕ
  globalMaxConcurrentRequests : ℕ
  deriving DecidableEq, Repr

def Limits.localWeight (limits : Limits) (requestWeightUnits : ℕ) : ℕ :=
  effectiveWeightForLimit
    (effectiveWeightForLimit requestWeightUnits limits.maxConcurrentRequests)
    limits.globalMaxConcurrentRequests

def Limits.provisionalWeight (limits : Limits) (entry : CredentialEntry)
    (requestWeightUnits : ℕ) : ℕ :=
  effectiveWeightForLimit
    (effectiveWeightForLimit requestWeightUnits
      (effectiveMaxConcurrentRequests entry limits.maxConcurrentRequests))
    limits.globalMaxConcurrentRequests

/-- The sum of all counts; `sum` of `u32` values wraps. -/
def Entries.inFlightRequests (entries : Entries) : ℕ :=
  (entries.map fun entry => entry.2.inFlightRequests).sum % 2 ^ 32

/-- The entries with the new lease, or `none` where the request is refused. The capacity of the
entry is checked at `checkedAt`, which is read after `now`. -/
def acquireLocalInFlightSlotWithId (entries : Entries) (id leaseId : ℕ)
    (now checkedAt : Instant) (limits : Limits) (requestWeightUnits : ℕ) : Option Entries :=
  let globalInFlight := entries.inFlightRequests
  match KeyedList.get id entries with
  | none => none
  | some entry =>
    if entry.disabled then none
    else
      let leaseWeightUnits := limits.localWeight requestWeightUnits
      if 0 < limits.globalMaxConcurrentRequests ∧
          limits.globalMaxConcurrentRequests < saturatingAdd globalInFlight leaseWeightUnits then
        none
      else if entryHasConcurrencyCapacity entry checkedAt limits.maxConcurrentRequests
          leaseWeightUnits then
        some (KeyedList.insert id (entry.push leaseId now leaseWeightUnits) entries)
      else none

theorem acquireLocalInFlightSlotWithId_eq_some {entries entries' : Entries} {id leaseId : ℕ}
    {now checkedAt : Instant} {limits : Limits} {weight : ℕ} :
    acquireLocalInFlightSlotWithId entries id leaseId now checkedAt limits weight =
        some entries' ↔
      ∃ entry, KeyedList.get id entries = some entry ∧ entry.disabled = false ∧
        ¬ (0 < limits.globalMaxConcurrentRequests ∧ limits.globalMaxConcurrentRequests <
          saturatingAdd entries.inFlightRequests (limits.localWeight weight)) ∧
        entryHasConcurrencyCapacity entry checkedAt limits.maxConcurrentRequests
          (limits.localWeight weight) = true ∧
        KeyedList.insert id (entry.push leaseId now (limits.localWeight weight)) entries =
          entries' := by
  rw [acquireLocalInFlightSlotWithId]
  cases hget : KeyedList.get id entries with
  | none => simp
  | some entry =>
    by_cases hdisabled : entry.disabled = true
    · simp [hdisabled]
    · simp [hdisabled]

def locallyOwnedWeights (leases : List InFlightLease) : List ℕ :=
  (leases.filter InFlightLease.locallyOwned).map InFlightLease.weightUnits

/-- The slot that a process with Redis reserves before it asks Redis. -/
def acquireProvisionalLocalInFlightSlotWithId (entries : Entries) (id leaseId : ℕ)
    (now : Instant) (limits : Limits) (requestWeightUnits : ℕ) : Option Entries :=
  let locallyOwnedGlobalInFlight :=
    saturatingSum (locallyOwnedWeights (entries.flatMap fun entry => entry.2.inFlightLeases))
  match KeyedList.get id entries with
  | none => none
  | some entry =>
    if entry.disabled then none
    else
      let locallyOwnedCredentialInFlight :=
        saturatingSum (locallyOwnedWeights entry.inFlightLeases)
      let effectiveMax := effectiveMaxConcurrentRequests entry limits.maxConcurrentRequests
      let leaseWeightUnits := limits.provisionalWeight entry requestWeightUnits
      if 0 < limits.globalMaxConcurrentRequests ∧
          limits.globalMaxConcurrentRequests <
            saturatingAdd locallyOwnedGlobalInFlight leaseWeightUnits then
        none
      else if 0 < effectiveMax ∧
          effectiveMax < saturatingAdd locallyOwnedCredentialInFlight leaseWeightUnits then
        none
      else some (KeyedList.insert id (entry.push leaseId now leaseWeightUnits) entries)

theorem acquireProvisionalLocalInFlightSlotWithId_eq_some {entries entries' : Entries}
    {id leaseId : ℕ} {now : Instant} {limits : Limits} {weight : ℕ} :
    acquireProvisionalLocalInFlightSlotWithId entries id leaseId now limits weight =
        some entries' ↔
      ∃ entry, KeyedList.get id entries = some entry ∧ entry.disabled = false ∧
        ¬ (0 < limits.globalMaxConcurrentRequests ∧ limits.globalMaxConcurrentRequests <
          saturatingAdd
            (saturatingSum
              (locallyOwnedWeights (entries.flatMap fun entry => entry.2.inFlightLeases)))
            (limits.provisionalWeight entry weight)) ∧
        ¬ (0 < effectiveMaxConcurrentRequests entry limits.maxConcurrentRequests ∧
          effectiveMaxConcurrentRequests entry limits.maxConcurrentRequests <
            saturatingAdd (saturatingSum (locallyOwnedWeights entry.inFlightLeases))
              (limits.provisionalWeight entry weight)) ∧
        KeyedList.insert id (entry.push leaseId now (limits.provisionalWeight entry weight))
          entries = entries' := by
  rw [acquireProvisionalLocalInFlightSlotWithId]
  cases hget : KeyedList.get id entries with
  | none => simp
  | some entry =>
    by_cases hdisabled : entry.disabled = true
    · simp [hdisabled]
    · simp [hdisabled]

def CredentialEntry.release (entry : CredentialEntry) (leaseId : ℕ) :
    Option (ℕ × CredentialEntry) :=
  (entry.inFlightLeases.find? (·.id == leaseId)).map fun lease =>
    (lease.weight, { entry with
      redisFullUntil := none
      inFlightLeases := entry.inFlightLeases.eraseP (·.id == leaseId)
      inFlightRequests :=
        if lease.weight ≤ entry.inFlightRequests then entry.inFlightRequests - lease.weight
        else 0 })

def releaseInFlightLeaseFromEntries (entries : Entries) (credentialId leaseId : ℕ) :
    Option ℕ × Entries :=
  match (KeyedList.get credentialId entries).bind (·.release leaseId) with
  | none => (none, entries)
  | some (weightUnits, entry) => (some weightUnits, KeyedList.insert credentialId entry entries)

theorem CredentialEntry.release_eq_some {entry entry' : CredentialEntry} {leaseId weight : ℕ}
    (h : entry.release leaseId = some (weight, entry')) :
    ∃ lease, entry.inFlightLeases.find? (·.id == leaseId) = some lease ∧
      lease.weight = weight ∧
      entry'.inFlightLeases = entry.inFlightLeases.eraseP (·.id == leaseId) ∧
      entry'.inFlightRequests = entry.inFlightRequests - weight ∧
      entry'.disabled = entry.disabled ∧
      entry'.maxConcurrentRequests = entry.maxConcurrentRequests ∧
      entry'.redisFullUntil = none := by
  obtain ⟨lease, hfind, heq⟩ := Option.map_eq_some_iff.mp h
  cases heq
  refine ⟨lease, hfind, rfl, rfl, ?_, rfl, rfl, rfl⟩
  change ite _ _ _ = _
  split_ifs with hle
  · rfl
  · omega

/-- The leases to keep; the weight of the others is taken from the count at once. -/
def CredentialEntry.retain (keep : InFlightLease → Bool) (entry : CredentialEntry) :
    CredentialEntry :=
  let removed := entry.inFlightLeases.filter fun lease => !keep lease
  { entry with
    inFlightLeases := entry.inFlightLeases.filter keep
    inFlightRequests :=
      if 0 < removed.length then
        entry.inFlightRequests - saturatingSum (removed.map InFlightLease.weight)
      else entry.inFlightRequests }

def localInFlightLeaseScanMinInterval : Duration := 1000000000

def notExpired (maxAge : Duration) (now : Instant) (lease : InFlightLease) : Bool :=
  durationSince now lease.lastSeenAt ≤ maxAge

/-- The number of leases removed, the time of the next scan and the entries. -/
def cleanupExpiredLocalInFlightLeases (entries : Entries) (maxAge : Duration) (now : Instant) :
    ℕ × Instant × Entries :=
  let leases := entries.flatMap fun entry => entry.2.inFlightLeases
  let rescanAt := now + localInFlightLeaseScanMinInterval
  let expiries := (leases.filter (notExpired maxAge now)).map (·.lastSeenAt + (maxAge : ℤ))
  ((leases.filter fun lease => !notExpired maxAge now lease).length,
    expiries.foldl min rescanAt,
    entries.map fun entry => (entry.1, entry.2.retain (notExpired maxAge now)))

/-- `clear_in_flight_leases` of a process without Redis. -/
def clearInFlightLeases (entries : Entries) (credentialId : ℕ) (minIdle : Option Duration)
    (now : Instant) : ℕ × Entries :=
  match KeyedList.get credentialId entries with
  | none => (0, entries)
  | some entry =>
    let cleared := entry.retain fun lease =>
      minIdle.any fun minIdle => durationSince now lease.lastSeenAt < minIdle
    (entry.inFlightLeases.length - cleared.inFlightLeases.length,
      KeyedList.insert credentialId cleared entries)

def clearSchedulerStateForCredentialLocal (entries : Entries) (id : ℕ) (clearInFlight : Bool) :
    Entries :=
  match KeyedList.get id entries with
  | none => entries
  | some entry =>
    if clearInFlight then
      KeyedList.insert id { entry with inFlightRequests := 0, inFlightLeases := [] } entries
    else entries

structure SchedulerInFlightLease where
  id : ℕ
  acquiredAtMs : ℤ
  lastSeenAtMs : ℤ
  kind : List Char
  weightUnits : ℕ
  deriving DecidableEq, Repr

structure SchedulerCredentialState where
  inFlightLeases : List SchedulerInFlightLease := []
  deriving DecidableEq, Repr

abbrev SchedulerStates := List (ℕ × SchedulerCredentialState)

def instantFromElapsedEpochMs (targetMs nowMs : ℤ) (now : Instant) : Instant :=
  if nowMs ≤ targetMs then now else now - (nowMs - targetMs) * nanosPerMilli

def redisInFlightLeaseIsFresh (lastSeenAtMs nowMs : ℤ) (maxAge : Option Duration) : Bool :=
  match maxAge with
  | none => true
  | some maxAge =>
    decide (nowMs ≤ lastSeenAtMs) || (nowMs - lastSeenAtMs).toNat ≤ maxAge / nanosPerMilli

/-- What `apply_scheduler_states` reads before it takes the lock. -/
structure SyncTime where
  inFlightMaxAge : Option Duration
  nowMs : ℤ
  now : Instant
  deriving DecidableEq, Repr

/-- A lease of Redis in the entry. A lease of this process keeps the activity it saw itself. -/
def mergedLease (time : SyncTime) (previous : List InFlightLease)
    (lease : SchedulerInFlightLease) : InFlightLease :=
  let owned := previous.find? fun local' => local'.id == lease.id && local'.locallyOwned
  { id := lease.id
    acquiredAt := instantFromElapsedEpochMs lease.acquiredAtMs time.nowMs time.now
    lastSeenAt := (owned.map InFlightLease.lastSeenAt).getD
      (instantFromElapsedEpochMs lease.lastSeenAtMs time.nowMs time.now)
    kind := .fromStr lease.kind
    weightUnits := max lease.weightUnits 1
    locallyOwned := owned.isSome }

def freshLeases (time : SyncTime) (state : SchedulerCredentialState) :
    List SchedulerInFlightLease :=
  state.inFlightLeases.filter fun lease =>
    redisInFlightLeaseIsFresh lease.lastSeenAtMs time.nowMs time.inFlightMaxAge

def unseenLocalLeases (seen : List ℕ) : List InFlightLease → List InFlightLease
  | [] => []
  | lease :: rest =>
    if lease.locallyOwned = true ∧ lease.id ∉ seen then
      lease :: unseenLocalLeases (lease.id :: seen) rest
    else unseenLocalLeases seen rest

def mergedInFlightLeases (time : SyncTime) (previous : List InFlightLease)
    (state : SchedulerCredentialState) : List InFlightLease :=
  let fresh := freshLeases time state
  fresh.map (mergedLease time previous) ++
    unseenLocalLeases (fresh.map SchedulerInFlightLease.id) previous

def applySchedulerStateToEntry (time : SyncTime) (entry : CredentialEntry)
    (state : SchedulerCredentialState) : CredentialEntry :=
  let leases := mergedInFlightLeases time entry.inFlightLeases state
  { entry with
    inFlightRequests := saturatingSum (leases.map InFlightLease.weight)
    inFlightLeases := leases
    redisFullUntil := none }

def applySchedulerStates (time : SyncTime) (states : SchedulerStates) (entries : Entries) :
    Entries :=
  entries.map fun entry =>
    (entry.1, applySchedulerStateToEntry time entry.2 ((KeyedList.get entry.1 states).getD {}))

def applySchedulerStatesForIds (time : SyncTime) (states : SchedulerStates) (entries : Entries) :
    Entries :=
  entries.map fun entry => (entry.1,
    match KeyedList.get entry.1 states with
    | none => entry.2
    | some state => applySchedulerStateToEntry time entry.2 state)

end KiroProxy.InFlight
