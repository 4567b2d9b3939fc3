import KiroProxy.KeyedList
import KiroProxy.Transition

/-!
# Runtime mutations that wait for the database

What a request finds out about its credential is queued when the database cannot take it at
once. A flusher replays the queues front first: it clones the front, sends it to the store,
pops it under one lock and updates the entry of the credential under another. The store applies
an operation id at most once, and a request whose answer was lost may still be applied.
-/

namespace KiroProxy.RuntimeMutation

def u32Max : ℕ := 2 ^ 32 - 1

def softPendingRuntimeMutationsPerCredential : ℕ := 4096

def softPendingRuntimeMutationsTotal : ℕ := 65536

abbrev OperationId := ℕ

inductive DisabledReason
  | manual
  | tooManyFailures
  | tooManyRefreshFailures
  | quotaExceeded
  | invalidRefreshToken
  | invalidConfig
  | temporarilySuspended
  | accountSuspended
  | accountLocked
  deriving DecidableEq, Repr

def DisabledReason.asStr : DisabledReason → List Char
  | .manual => "Manual".toList
  | .tooManyFailures => "TooManyFailures".toList
  | .tooManyRefreshFailures => "TooManyRefreshFailures".toList
  | .quotaExceeded => "QuotaExceeded".toList
  | .invalidRefreshToken => "InvalidRefreshToken".toList
  | .invalidConfig => "InvalidConfig".toList
  | .temporarilySuspended => "TemporarilySuspended".toList
  | .accountSuspended => "AccountSuspended".toList
  | .accountLocked => "AccountLocked".toList

def DisabledReason.fromStr (value : List Char) : Option DisabledReason :=
  [manual, tooManyFailures, tooManyRefreshFailures, quotaExceeded, invalidRefreshToken,
    invalidConfig, temporarilySuspended, accountSuspended, accountLocked].find?
    (·.asStr = value)

inductive DisabledReasonPatch
  | preserve
  | set (reason : List Char)
  | clear
  deriving DecidableEq, Repr

structure CredentialRuntimeStatePatch where
  failureCount : Option ℕ
  refreshFailureCount : Option ℕ
  disabledReason : DisabledReasonPatch
  warmupRemaining : Option ℕ
  credentialDisabled : Option Bool
  lastUsedAt : Option (List Char)
  expectedGeneration : Option ℕ
  advanceGeneration : Bool
  deriving DecidableEq, Repr

inductive Mutation
  | success (operationId : OperationId) (expectedGeneration successCount : ℕ)
  | apiFailure (operationId : OperationId) (expectedGeneration : ℕ) (lastUsedAt : List Char)
  | disable (operationId : OperationId) (expectedGeneration : ℕ) (reason : List Char)
      (failureCount refreshFailureCount : Option ℕ) (lastUsedAt : List Char)
  | patch (operationId : OperationId) (patch : CredentialRuntimeStatePatch)
      (dispatchNeutral : Bool)
  deriving DecidableEq, Repr

namespace Mutation

def operationId : Mutation → OperationId
  | success operationId _ _ => operationId
  | apiFailure operationId _ _ => operationId
  | disable operationId _ _ _ _ _ => operationId
  | patch operationId _ _ => operationId

def requiresDispatchQuarantine : Mutation → Bool
  | disable _ _ _ _ _ _ => true
  | patch _ _ true => false
  | patch _ p false =>
    let generationOnly := p.failureCount.isNone && p.refreshFailureCount.isNone &&
      p.warmupRemaining.isNone && p.lastUsedAt.isNone && p.credentialDisabled.isNone &&
      p.disabledReason == .preserve
    p.credentialDisabled.isSome || p.disabledReason != .preserve ||
      (p.advanceGeneration && !generationOnly)
  | success _ _ _ => false
  | apiFailure _ _ _ => false

/-- What the previous mutation becomes when a success of the same generation is merged into it. -/
def coalesceIntoPrevious : Mutation → Mutation → Option Mutation
  | success _ expectedGeneration successCount, success operationId previousGeneration previousCount =>
    if previousGeneration = expectedGeneration then
      some (success operationId previousGeneration
        (min (previousCount + max successCount 1) u32Max))
    else none
  | _, _ => none

end Mutation

structure CredentialEntry where
  credentialsDisabled : Bool
  failureCount : ℕ
  refreshFailureCount : ℕ
  warmupRemaining : ℕ
  runtimeRevision : ℕ
  runtimeGeneration : ℕ
  runtimePersistenceDegraded : Bool
  runtimePersistenceQuarantined : Bool
  disabled : Bool
  disabledReason : Option DisabledReason
  deriving DecidableEq, Repr

structure CredentialRuntimeStateRow where
  failureCount : ℕ
  refreshFailureCount : ℕ
  disabledReason : Option (List Char)
  warmupRemaining : ℕ
  generation : ℕ
  revision : ℕ
  deriving DecidableEq, Repr

/-- The answer of the store. -/
structure Persisted where
  state : CredentialRuntimeStateRow
  credentialDisabled : Option Bool
  applied : Bool
  deriving DecidableEq, Repr

def Persisted.first : Persisted where
  state := ⟨0, 0, none, 0, 0, 1⟩
  credentialDisabled := some false
  applied := true

/-- An entry without a state in the database. -/
def CredentialEntry.initial : CredentialEntry where
  credentialsDisabled := false
  failureCount := 0
  refreshFailureCount := 0
  warmupRemaining := 0
  runtimeRevision := 0
  runtimeGeneration := 0
  runtimePersistenceDegraded := false
  runtimePersistenceQuarantined := false
  disabled := false
  disabledReason := none

namespace CredentialEntry

def recomputeDisabled (entry : CredentialEntry) : CredentialEntry :=
  let disabledReason :=
    if entry.credentialsDisabled && entry.disabledReason.isNone then some .manual
    else entry.disabledReason
  { entry with
    disabledReason
    disabled := entry.runtimePersistenceQuarantined || entry.credentialsDisabled ||
      disabledReason.isSome }

/-- The entry, and whether it has changed. -/
def applyRuntimeStateIfNewer (entry : CredentialEntry) (state : CredentialRuntimeStateRow) :
    CredentialEntry × Bool :=
  if state.revision ≤ entry.runtimeRevision then (entry, false)
  else
    let nextReason := (state.disabledReason.bind DisabledReason.fromStr).or
      (if entry.credentialsDisabled then some .manual else none)
    let nextDisabled := entry.runtimePersistenceQuarantined || nextReason.isSome
    let changed := entry.failureCount != state.failureCount ||
      entry.refreshFailureCount != state.refreshFailureCount ||
      entry.warmupRemaining != state.warmupRemaining ||
      entry.runtimeGeneration != state.generation || entry.disabled != nextDisabled ||
      entry.disabledReason != nextReason
    ({ entry with
        failureCount := state.failureCount
        refreshFailureCount := state.refreshFailureCount
        warmupRemaining := state.warmupRemaining
        disabled := nextDisabled
        disabledReason := nextReason
        runtimeGeneration := state.generation
        runtimeRevision := state.revision }, changed)

def applyAuthoritativeRuntimeState (entry : CredentialEntry) (state : CredentialRuntimeStateRow)
    (credentialDisabled : Option Bool) : CredentialEntry :=
  if state.revision < entry.runtimeRevision then entry
  else
    let entry := { entry with
      credentialsDisabled := credentialDisabled.getD entry.credentialsDisabled }
    if entry.runtimeRevision < state.revision then (entry.applyRuntimeStateIfNewer state).1
    else entry.recomputeDisabled

def applyPersistedRuntimeMutation (entry : CredentialEntry) (persisted : Persisted) :
    CredentialEntry :=
  if persisted.state.generation < entry.runtimeGeneration then entry
  else
    entry.applyAuthoritativeRuntimeState persisted.state
      (if persisted.applied then persisted.credentialDisabled else none)

/-- What an enqueue writes to the entry. -/
def degrade (requiresQuarantine : Bool) (entry : CredentialEntry) : CredentialEntry :=
  { entry with
    runtimePersistenceDegraded := true
    runtimePersistenceQuarantined := requiresQuarantine }.recomputeDisabled

/-- What the flusher writes to the entry. -/
def settle (queueEmpty requiresQuarantine : Bool) (persisted : Persisted)
    (entry : CredentialEntry) : CredentialEntry :=
  ({ entry with
      runtimePersistenceDegraded := !queueEmpty
      runtimePersistenceQuarantined := requiresQuarantine
      }.applyPersistedRuntimeMutation persisted).recomputeDisabled

end CredentialEntry

abbrev Pending := List (ℕ × List Mutation)

namespace Pending

def queue (id : ℕ) (pending : Pending) : List Mutation := (KeyedList.get id pending).getD []

def holds (operationId : OperationId) (pending : Pending) : Bool :=
  pending.any fun entry => entry.2.any fun queued => queued.operationId == operationId

/-- The part of `enqueue_pending_runtime_mutation` that holds the lock on the queues: the new
queues, whether the queue is over its budget and whether the entry is to be quarantined. -/
def enqueue (pending : Pending) (id : ℕ) (mutation : Mutation) : Pending × Bool × Bool :=
  if holds mutation.operationId pending then
    (pending, false, (queue id pending).any (·.requiresDispatchQuarantine))
  else
    let total := (pending.map fun entry => entry.2.length).sum
    let queue := queue id pending
    let requiresQuarantine := mutation.requiresDispatchQuarantine ||
      queue.any (·.requiresDispatchQuarantine)
    match queue.getLast?.bind fun previous => mutation.coalesceIntoPrevious previous with
    | some merged =>
      (KeyedList.insert id (queue.dropLast ++ [merged]) pending, false, requiresQuarantine)
    | none =>
      (KeyedList.insert id (queue ++ [mutation]) pending,
        softPendingRuntimeMutationsTotal ≤ total ∨
          softPendingRuntimeMutationsPerCredential ≤ queue.length,
        requiresQuarantine)

/-- The part of the flush that holds the lock on the queues: the new queues, whether the queue
is empty and whether the entry is to be quarantined. -/
def pop (pending : Pending) (id : ℕ) (operationId : OperationId) : Pending × Bool × Bool :=
  match KeyedList.get id pending with
  | none => (pending, false, false)
  | some queue =>
    let queue :=
      if queue.head?.any fun queued => queued.operationId == operationId then queue.tail
      else queue
    (if queue.isEmpty then KeyedList.remove id pending else KeyedList.insert id queue pending,
      queue.isEmpty, queue.any (·.requiresDispatchQuarantine))

end Pending

inductive Flusher
  | idle
  | persisting (id : ℕ) (operationId : OperationId)
  | persisted (id : ℕ) (operationId : OperationId) (persisted : Persisted)
  | popped (id : ℕ) (queueEmpty requiresQuarantine : Bool) (persisted : Persisted)
  deriving DecidableEq, Repr

/-- `enqueuing` is what a call has yet to write to the entries, whose lock it holds. The store
has its ledger of applied mutations; it may still receive the requests. -/
structure System where
  entries : List (ℕ × CredentialEntry)
  pending : Pending
  overflow : ℕ
  statsDirty : Bool
  enqueuing : Option (ℕ × Bool)
  flusher : Flusher
  requests : List (ℕ × Mutation)
  ledger : List (ℕ × Mutation)
  deriving DecidableEq, Repr

def new (entries : List (ℕ × CredentialEntry)) : System where
  entries
  pending := []
  overflow := 0
  statsDirty := false
  enqueuing := none
  flusher := .idle
  requests := []
  ledger := []

def System.applied (s : System) (operationId : OperationId) : Bool :=
  s.ledger.any fun entry => entry.2.operationId == operationId

def System.updateEntry (s : System) (id : ℕ) (f : CredentialEntry → CredentialEntry) : System :=
  { s with
    entries :=
      match KeyedList.get id s.entries with
      | some entry => KeyedList.insert id (f entry) s.entries
      | none => s.entries }

inductive Action
  | enqueue (id : ℕ) (mutation : Mutation)
  | mark
  | front (id : ℕ)
  | apply (request : ℕ)
  | reply (persisted : Persisted)
  | fail
  | pop
  | update
  deriving DecidableEq, Repr

/-- One critical section of a call or of the flusher, or one transaction of the store. -/
def step (s : System) : Action → Option System
  | .enqueue id mutation =>
    match s.enqueuing, KeyedList.get id s.entries with
    | some _, _ => none
    | none, none => some s
    | none, some _ =>
      let (pending, overSoftBudget, requiresQuarantine) := s.pending.enqueue id mutation
      some { s with
        pending
        overflow := s.overflow + overSoftBudget.toNat
        enqueuing := some (id, requiresQuarantine) }
  | .mark =>
    s.enqueuing.map fun (id, requiresQuarantine) =>
      { s.updateEntry id (CredentialEntry.degrade requiresQuarantine) with
        statsDirty := true
        enqueuing := none }
  | .front id =>
    match s.flusher, (s.pending.queue id).head? with
    | .idle, some mutation =>
      some { s with
        flusher := .persisting id mutation.operationId
        requests := s.requests ++ [(id, mutation)] }
    | _, _ => none
  | .apply request =>
    s.requests[request]?.map fun (id, mutation) =>
      if s.applied mutation.operationId then s
      else { s with ledger := s.ledger ++ [(id, mutation)] }
  | .reply persisted =>
    match s.flusher with
    | .persisting id operationId =>
      if persisted.applied && !s.applied operationId then none
      else some { s with flusher := .persisted id operationId persisted }
    | _ => none
  | .fail =>
    match s.flusher with
    | .persisting _ _ => some { s with statsDirty := true, flusher := .idle }
    | _ => none
  | .pop =>
    match s.flusher with
    | .persisted id operationId persisted =>
      let (pending, queueEmpty, requiresQuarantine) := s.pending.pop id operationId
      some { s with pending, flusher := .popped id queueEmpty requiresQuarantine persisted }
    | _ => none
  | .update =>
    match s.flusher, s.enqueuing with
    | .popped id queueEmpty requiresQuarantine persisted, none =>
      some { s.updateEntry id (.settle queueEmpty requiresQuarantine persisted) with
        flusher := .idle }
    | _, _ => none

def run : System → List Action → Option System := Transition.run step

theorem Mutation.coalesceIntoPrevious_eq_some {m previous merged : Mutation}
    (h : m.coalesceIntoPrevious previous = some merged) :
    ∃ op op' generation count count', m = .success op generation count ∧
      previous = .success op' generation count' ∧
      merged = .success op' generation (min (count' + max count 1) u32Max) := by
  unfold coalesceIntoPrevious at h
  split at h
  · split_ifs at h with hgeneration
    cases h
    subst hgeneration
    exact ⟨_, _, _, _, _, rfl, rfl, rfl⟩
  · cases h

namespace Pending

variable {pending : Pending} {id id' : ℕ} {m : Mutation}

theorem queue_insert_self (id : ℕ) (q : List Mutation) (pending : Pending) :
    queue id (KeyedList.insert id q pending) = q := by
  rw [queue, KeyedList.get_insert_self, Option.getD_some]

theorem queue_insert_of_ne (h : id' ≠ id) (q : List Mutation) (pending : Pending) :
    queue id' (KeyedList.insert id q pending) = queue id' pending := by
  rw [queue, KeyedList.get_insert_of_ne h, queue]

theorem enqueue_cases (pending : Pending) (id : ℕ) (m : Mutation) :
    (holds m.operationId pending = true ∧
        pending.enqueue id m =
          (pending, false, (queue id pending).any (·.requiresDispatchQuarantine))) ∨
      (holds m.operationId pending = false ∧ ∃ init previous merged,
        queue id pending = init ++ [previous] ∧ m.coalesceIntoPrevious previous = some merged ∧
        pending.enqueue id m = (KeyedList.insert id (init ++ [merged]) pending, false,
          m.requiresDispatchQuarantine ||
            (queue id pending).any (·.requiresDispatchQuarantine))) ∨
      (holds m.operationId pending = false ∧
        (∀ previous ∈ (queue id pending).getLast?, m.coalesceIntoPrevious previous = none) ∧
        ∃ overBudget, pending.enqueue id m =
          (KeyedList.insert id (queue id pending ++ [m]) pending, overBudget,
          m.requiresDispatchQuarantine ||
            (queue id pending).any (·.requiresDispatchQuarantine))) := by
  unfold enqueue
  split_ifs with hholds
  · exact .inl ⟨hholds, rfl⟩
  · rw [Bool.not_eq_true] at hholds
    dsimp only
    cases hmerged : (queue id pending).getLast?.bind fun previous =>
        m.coalesceIntoPrevious previous with
    | some merged =>
      obtain ⟨previous, hlast, hmerge⟩ := Option.bind_eq_some_iff.mp hmerged
      obtain ⟨init, hqueue⟩ := List.getLast?_eq_some_iff.mp hlast
      refine .inr (.inl ⟨hholds, init, previous, merged, hqueue, hmerge, ?_⟩)
      simp only [hqueue, List.dropLast_concat]
    | none =>
      refine .inr (.inr ⟨hholds, ?_, _, rfl⟩)
      intro previous hlast
      rw [Option.mem_def.mp hlast] at hmerged
      exact hmerged

theorem queue_enqueue_of_ne (h : id' ≠ id) (pending : Pending) (m : Mutation) :
    queue id' (pending.enqueue id m).1 = queue id' pending := by
  rcases enqueue_cases pending id m with ⟨-, h'⟩ | ⟨-, init, previous, merged, -, -, h'⟩ |
      ⟨-, -, overBudget, h'⟩
  · rw [h']
  · rw [h']
    exact queue_insert_of_ne h _ _
  · rw [h']
    exact queue_insert_of_ne h _ _

/-- The mutation in front stays in front, whatever is merged into it. -/
theorem head_enqueue {operationId : OperationId}
    (h : (queue id' pending).head?.map Mutation.operationId = some operationId) (id : ℕ)
    (m : Mutation) :
    (queue id' (pending.enqueue id m).1).head?.map Mutation.operationId = some operationId := by
  by_cases hid : id' = id
  · subst hid
    rcases enqueue_cases pending id' m with ⟨-, h'⟩ |
        ⟨-, init, previous, merged, hqueue, hmerge, h'⟩ | ⟨-, -, overBudget, h'⟩
    · rwa [h']
    · obtain ⟨op, op', generation, count, count', rfl, rfl, rfl⟩ :=
        Mutation.coalesceIntoPrevious_eq_some hmerge
      rw [h', queue_insert_self]
      rw [hqueue] at h
      cases init with
      | nil => exact h
      | cons first init => exact h
    · rw [h', queue_insert_self]
      cases hqueue : queue id' pending with
      | nil =>
        rw [hqueue] at h
        cases h
      | cons first rest =>
        rw [hqueue] at h
        exact h
  · rwa [queue_enqueue_of_ne hid]

theorem get_of_head {operationId : OperationId}
    (h : (queue id pending).head?.map Mutation.operationId = some operationId) :
    ∃ first rest, first.operationId = operationId ∧
      KeyedList.get id pending = some (first :: rest) := by
  unfold queue at h
  cases hget : KeyedList.get id pending with
  | none =>
    rw [hget] at h
    cases h
  | some q =>
    rw [hget, Option.getD_some] at h
    cases q with
    | nil => cases h
    | cons first rest => exact ⟨first, rest, Option.some.inj h, rfl⟩

theorem queue_of_get {q : List Mutation} (h : KeyedList.get id pending = some q) :
    queue id pending = q := by
  rw [queue, h, Option.getD_some]

theorem pop_of_get {operationId : OperationId} {first : Mutation} {rest : List Mutation}
    (hget : KeyedList.get id pending = some (first :: rest))
    (hfirst : first.operationId = operationId) :
    queue id (pending.pop id operationId).1 = rest ∧
      (∀ id' ≠ id, queue id' (pending.pop id operationId).1 = queue id' pending) ∧
      (pending.pop id operationId).2 =
        (rest.isEmpty, rest.any (·.requiresDispatchQuarantine)) := by
  subst hfirst
  unfold pop
  simp only [hget, List.head?_cons, Option.any_some, beq_self_eq_true, if_true, List.tail_cons,
    and_true]
  split_ifs with hrest
  · refine ⟨?_, fun id' hne => ?_⟩
    · rw [queue, KeyedList.get_remove_self, List.isEmpty_iff.mp hrest]
      rfl
    · rw [queue, KeyedList.get_remove_of_ne hne, queue]
  · exact ⟨queue_insert_self _ _ _, fun id' hne => queue_insert_of_ne hne _ _⟩

end Pending

def Fronted (s : System) : Prop :=
  ∀ id operationId, (s.flusher = .persisting id operationId ∨
      ∃ persisted, s.flusher = .persisted id operationId persisted) →
    (s.pending.queue id).head?.map Mutation.operationId = some operationId

theorem fronted_new (entries : List (ℕ × CredentialEntry)) : Fronted (new entries) := by
  rintro id operationId (h | ⟨persisted, h⟩) <;> cases h

theorem get_updateEntry_self (s : System) (id : ℕ) (f : CredentialEntry → CredentialEntry) :
    KeyedList.get id (s.updateEntry id f).entries = (KeyedList.get id s.entries).map f := by
  unfold System.updateEntry
  cases hget : KeyedList.get id s.entries with
  | none => exact hget
  | some entry => exact KeyedList.get_insert_self _ _ _

theorem get_updateEntry_of_ne {id id' : ℕ} (h : id' ≠ id) (s : System)
    (f : CredentialEntry → CredentialEntry) :
    KeyedList.get id' (s.updateEntry id f).entries = KeyedList.get id' s.entries := by
  unfold System.updateEntry
  split
  · exact KeyedList.get_insert_of_ne h _ _
  · rfl

/-- What each step can do. -/
inductive Change (s : System) : Action → System → Prop
  | refuse {id m} (hentry : KeyedList.get id s.entries = none) : Change s (.enqueue id m) s
  | enqueue {id m} (overBudget : ℕ) (hlock : s.enqueuing = none)
      (hentry : (KeyedList.get id s.entries).isSome = true) :
      Change s (.enqueue id m) { s with
        pending := (s.pending.enqueue id m).1
        overflow := overBudget
        enqueuing := some (id, (s.pending.enqueue id m).2.2) }
  | mark {id requiresQuarantine} (hlock : s.enqueuing = some (id, requiresQuarantine)) :
      Change s .mark
        { s.updateEntry id (CredentialEntry.degrade requiresQuarantine) with
          statsDirty := true
          enqueuing := none }
  | front {id first rest} (hidle : s.flusher = .idle) (hqueue : s.pending.queue id = first :: rest) :
      Change s (.front id) { s with
        flusher := .persisting id first.operationId
        requests := s.requests ++ [(id, first)] }
  | apply {i id m} (hrequest : s.requests[i]? = some (id, m))
      (hnew : s.applied m.operationId = false) :
      Change s (.apply i) { s with ledger := s.ledger ++ [(id, m)] }
  | duplicate {i id m} (hrequest : s.requests[i]? = some (id, m))
      (happlied : s.applied m.operationId = true) : Change s (.apply i) s
  | reply {id operationId persisted} (hflusher : s.flusher = .persisting id operationId)
      (happlied : persisted.applied = true → s.applied operationId = true) :
      Change s (.reply persisted) { s with flusher := .persisted id operationId persisted }
  | fail {id operationId} (hflusher : s.flusher = .persisting id operationId) :
      Change s .fail { s with statsDirty := true, flusher := .idle }
  | pop {id operationId persisted} (hflusher : s.flusher = .persisted id operationId persisted) :
      Change s .pop { s with
        pending := (s.pending.pop id operationId).1
        flusher := .popped id (s.pending.pop id operationId).2.1
          (s.pending.pop id operationId).2.2 persisted }
  | update {id queueEmpty requiresQuarantine persisted}
      (hflusher : s.flusher = .popped id queueEmpty requiresQuarantine persisted)
      (hlock : s.enqueuing = none) :
      Change s .update
        { s.updateEntry id (.settle queueEmpty requiresQuarantine persisted) with
          flusher := .idle }

theorem step_change {s t : System} {a : Action} (h : step s a = some t) : Change s a t := by
  cases a with
  | enqueue id m =>
    rw [step] at h
    split at h
    · cases h
    · cases h
      exact .refuse ‹_›
    · cases h
      exact .enqueue _ ‹_› (by simp [*])
  | mark =>
    obtain ⟨⟨id, requiresQuarantine⟩, hlock, rfl⟩ := Option.map_eq_some_iff.mp h
    exact .mark hlock
  | front id =>
    rw [step] at h
    split at h
    · cases h
      rename_i first hidle hhead
      obtain ⟨rest, hqueue⟩ := List.head?_eq_some_iff.mp hhead
      exact .front hidle hqueue
    · cases h
  | apply i =>
    obtain ⟨⟨id, m⟩, hrequest, h⟩ := Option.map_eq_some_iff.mp h
    dsimp only at h
    split_ifs at h with happlied
    · cases h
      exact .duplicate hrequest happlied
    · cases h
      exact .apply hrequest (Bool.not_eq_true _ ▸ happlied)
  | reply persisted =>
    rw [step] at h
    split at h
    · split_ifs at h with happlied
      cases h
      refine .reply ‹_› fun hreply => ?_
      simpa [hreply] using happlied
    · cases h
  | fail =>
    rw [step] at h
    split at h
    · cases h
      exact .fail ‹_›
    · cases h
  | pop =>
    rw [step] at h
    split at h
    · cases h
      exact .pop ‹_›
    · cases h
  | update =>
    rw [step] at h
    split at h
    · cases h
      exact .update ‹_› ‹_›
    · cases h

theorem Fronted.step {s t : System} {a : Action} (h : Fronted s)
    (ht : RuntimeMutation.step s a = some t) : Fronted t := by
  intro id operationId hflusher
  cases step_change ht with
  | refuse hentry => exact h id operationId hflusher
  | enqueue overBudget hlock hentry => exact Pending.head_enqueue (h id operationId hflusher) _ _
  | mark hlock => exact h id operationId hflusher
  | front hidle hqueue =>
    rcases hflusher with hflusher | ⟨persisted, hflusher⟩ <;> cases hflusher
    simp only [hqueue, List.head?_cons, Option.map_some]
  | apply hrequest hnew => exact h id operationId hflusher
  | duplicate hrequest happlied => exact h id operationId hflusher
  | reply hpersisting happlied =>
    rcases hflusher with hflusher | ⟨persisted, hflusher⟩ <;> cases hflusher
    exact h id operationId (.inl hpersisting)
  | fail hpersisting => rcases hflusher with hflusher | ⟨persisted, hflusher⟩ <;> cases hflusher
  | pop hpersisted => rcases hflusher with hflusher | ⟨persisted, hflusher⟩ <;> cases hflusher
  | update hpopped hlock => rcases hflusher with hflusher | ⟨persisted, hflusher⟩ <;> cases hflusher

end KiroProxy.RuntimeMutation
