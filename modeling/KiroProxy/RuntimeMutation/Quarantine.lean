import KiroProxy.RuntimeMutation.Pending

/-!
# The flags of an entry and its queue

An entry is marked as degraded while its queue has a mutation, and as quarantined while the
queue has one that must reach the database before the credential is dispatched again. An
enqueue derives the flags and stores them under the lock on the entries; the flusher derives
them when it pops and stores them later.
-/

namespace KiroProxy.RuntimeMutation

variable {s t : System} {id : ℕ} {a : Action}

def requiresQuarantine (queue : List Mutation) : Bool := queue.any (·.requiresDispatchQuarantine)

/-- The flags say what the queue holds. -/
structure CredentialEntry.Reflects (entry : CredentialEntry) (queue : List Mutation) : Prop where
  degraded : entry.runtimePersistenceDegraded = !queue.isEmpty
  quarantined : entry.runtimePersistenceQuarantined = requiresQuarantine queue

def CredentialEntry.Guarded (entry : CredentialEntry) : Prop :=
  entry.runtimePersistenceQuarantined = true → entry.disabled = true

namespace CredentialEntry

variable {entry : CredentialEntry}

theorem recomputeDisabled_guarded (entry : CredentialEntry) : entry.recomputeDisabled.Guarded := by
  intro hquarantined
  have hquarantined : entry.runtimePersistenceQuarantined = true := hquarantined
  simp [recomputeDisabled, hquarantined]

theorem degrade_reflects {queue : List Mutation} (h : queue.isEmpty = false)
    (entry : CredentialEntry) : (degrade (requiresQuarantine queue) entry).Reflects queue where
  degraded := by
    rw [h]
    rfl
  quarantined := rfl

theorem applyPersistedRuntimeMutation_flags (entry : CredentialEntry) (persisted : Persisted) :
    (entry.applyPersistedRuntimeMutation persisted).runtimePersistenceDegraded =
        entry.runtimePersistenceDegraded ∧
      (entry.applyPersistedRuntimeMutation persisted).runtimePersistenceQuarantined =
        entry.runtimePersistenceQuarantined := by
  unfold applyPersistedRuntimeMutation applyAuthoritativeRuntimeState applyRuntimeStateIfNewer
  dsimp only
  split_ifs <;> exact ⟨rfl, rfl⟩

theorem settle_reflects (queue : List Mutation) (persisted : Persisted) (entry : CredentialEntry) :
    (settle queue.isEmpty (requiresQuarantine queue) persisted entry).Reflects queue where
  degraded := (applyPersistedRuntimeMutation_flags _ persisted).1
  quarantined := (applyPersistedRuntimeMutation_flags _ persisted).2

end CredentialEntry

/-- The flusher has popped a mutation of the credential and is about to store flags that the
new mutation makes stale. -/
def System.overtaken (s : System) (id : ℕ) (m : Mutation) : Bool :=
  match s.flusher with
  | .popped id' queueEmpty quarantine _ =>
    id' == id && !(s.pending.queue id).any (fun queued => queued.operationId == m.operationId) &&
      (queueEmpty || (m.requiresDispatchQuarantine && !quarantine))
  | _ => false

def System.owns (s : System) (id : ℕ) (m : Mutation) : Prop :=
  s.pending.holds m.operationId = true →
    (s.pending.queue id).any (fun queued => queued.operationId == m.operationId) = true

def Timely (id : ℕ) (s : System) : Action → Prop
  | .enqueue id' m => id' = id → s.overtaken id m = false ∧ s.owns id m
  | _ => True

instance (id : ℕ) (s : System) : (a : Action) → Decidable (Timely id s a)
  | .enqueue _ _ => by unfold Timely System.owns; infer_instance
  | .mark | .front _ | .apply _ | .reply _ | .fail | .pop | .update => .isTrue trivial

theorem requiresQuarantine_append (queue queue' : List Mutation) :
    requiresQuarantine (queue ++ queue') =
      (requiresQuarantine queue || requiresQuarantine queue') :=
  List.any_append

theorem any_queue_of_not_holds {pending : Pending} {operationId : OperationId}
    (h : pending.holds operationId = false) :
    (pending.queue id).any (fun queued => queued.operationId == operationId) = false := by
  unfold Pending.queue
  cases hget : KeyedList.get id pending with
  | none => rfl
  | some queue =>
    rw [Pending.holds, List.any_eq_false] at h
    exact Bool.not_eq_true _ ▸ h _ (KeyedList.mem_of_get hget)

/-- What an enqueue stores is true of the queue, and the queue needs the quarantine if it did
or if the mutation does. -/
theorem enqueue_flags {m : Mutation} (howns : s.owns id m) :
    ((s.pending.enqueue id m).1.queue id).isEmpty = false ∧
      (s.pending.enqueue id m).2.2 = requiresQuarantine ((s.pending.enqueue id m).1.queue id) ∧
      ((s.pending.queue id).any (fun queued => queued.operationId == m.operationId) = true ∧
          (s.pending.enqueue id m).1.queue id = s.pending.queue id ∨
        (s.pending.queue id).any (fun queued => queued.operationId == m.operationId) = false ∧
          (s.pending.enqueue id m).2.2 =
            (m.requiresDispatchQuarantine || requiresQuarantine (s.pending.queue id))) := by
  rcases Pending.enqueue_cases s.pending id m with ⟨hholds, h⟩ |
      ⟨hholds, init, previous, merged, hqueue, hmerge, h⟩ | ⟨hholds, -, overBudget, h⟩
  · have hany := howns hholds
    rw [h]
    refine ⟨?_, rfl, .inl ⟨hany, rfl⟩⟩
    obtain ⟨queued, hqueued, -⟩ := List.any_eq_true.mp hany
    exact List.isEmpty_eq_false_iff_exists_mem.mpr ⟨queued, hqueued⟩
  · obtain ⟨op, op', generation, count, count', rfl, rfl, rfl⟩ :=
      Mutation.coalesceIntoPrevious_eq_some hmerge
    rw [h, Pending.queue_insert_self]
    refine ⟨by simp, ?_, .inr ⟨any_queue_of_not_holds hholds, rfl⟩⟩
    dsimp only
    rw [hqueue]
    simp [requiresQuarantine, Mutation.requiresDispatchQuarantine]
  · rw [h, Pending.queue_insert_self]
    refine ⟨by simp, ?_, .inr ⟨any_queue_of_not_holds hholds, rfl⟩⟩
    dsimp only
    rw [requiresQuarantine_append, Bool.or_comm]
    simp [requiresQuarantine]

def System.popping (s : System) (id : ℕ) : Prop :=
  ∃ queueEmpty quarantine persisted, s.flusher = .popped id queueEmpty quarantine persisted

/-- The flags that an operation is about to store are those of the queue, and so are those of
the entry when none is about to store any. -/
structure InSync (id : ℕ) (s : System) : Prop where
  fronted : Fronted s
  popped : ∀ queueEmpty quarantine persisted,
    s.flusher = .popped id queueEmpty quarantine persisted →
      queueEmpty = (s.pending.queue id).isEmpty ∧
        quarantine = requiresQuarantine (s.pending.queue id)
  enqueued : ¬ s.popping id → ∀ quarantine, s.enqueuing = some (id, quarantine) →
    (s.pending.queue id).isEmpty = false ∧ quarantine = requiresQuarantine (s.pending.queue id)
  settled : ¬ s.popping id → (∀ quarantine, s.enqueuing ≠ some (id, quarantine)) →
    ∀ entry, KeyedList.get id s.entries = some entry → entry.Reflects (s.pending.queue id)
  guarded : ∀ entry, KeyedList.get id s.entries = some entry → entry.Guarded

theorem not_popping {flusher : Flusher} (h : s.flusher = flusher)
    (hne : ∀ queueEmpty quarantine persisted,
      flusher ≠ .popped id queueEmpty quarantine persisted) : ¬ s.popping id := by
  rintro ⟨queueEmpty, quarantine, persisted, hpopped⟩
  exact hne _ _ _ (h.symm.trans hpopped)

theorem forall_updateEntry {P : CredentialEntry → Prop} {id' : ℕ}
    {f : CredentialEntry → CredentialEntry} (hself : id = id' → ∀ entry, P (f entry))
    (hother : id ≠ id' → ∀ entry, KeyedList.get id s.entries = some entry → P entry)
    (entry : CredentialEntry)
    (hentry : KeyedList.get id (s.updateEntry id' f).entries = some entry) : P entry := by
  by_cases hid : id = id'
  · subst hid
    rw [get_updateEntry_self] at hentry
    obtain ⟨old, -, rfl⟩ := Option.map_eq_some_iff.mp hentry
    exact hself rfl old
  · rw [get_updateEntry_of_ne hid] at hentry
    exact hother hid entry hentry

theorem InSync.enqueue {m : Mutation} {overBudget : ℕ} (h : InSync id s)
    (htimely : s.overtaken id m = false ∧ s.owns id m) (hfronted : Fronted { s with
        pending := (s.pending.enqueue id m).1
        overflow := overBudget
        enqueuing := some (id, (s.pending.enqueue id m).2.2) }) :
    InSync id { s with
      pending := (s.pending.enqueue id m).1
      overflow := overBudget
      enqueuing := some (id, (s.pending.enqueue id m).2.2) } where
  fronted := hfronted
  popped := by
    intro queueEmpty quarantine persisted hpopped
    obtain ⟨hempty, hquarantine⟩ := h.popped _ _ _ hpopped
    have hflusher : s.flusher = .popped id queueEmpty quarantine persisted := hpopped
    obtain ⟨hempty', hflags, ⟨-, hqueue⟩ | ⟨hnew, hadded⟩⟩ := enqueue_flags htimely.2
    · dsimp only
      rw [hqueue]
      exact ⟨hempty, hquarantine⟩
    · have hovertaken := htimely.1
      rw [System.overtaken, hflusher] at hovertaken
      simp only [hnew, beq_self_eq_true, Bool.not_false, Bool.and_true, Bool.true_and,
        Bool.or_eq_false_iff, Bool.and_eq_false_iff, Bool.not_eq_false'] at hovertaken
      refine ⟨hovertaken.1.trans hempty'.symm, ?_⟩
      dsimp only
      rw [← hflags, hadded, ← hquarantine]
      rcases hovertaken.2 with hm | hquarantine
      · rw [hm, Bool.false_or]
      · rw [hquarantine, Bool.or_true]
  enqueued := by
    rintro - quarantine ⟨⟩
    obtain ⟨hempty, hflags, -⟩ := enqueue_flags htimely.2
    exact ⟨hempty, hflags⟩
  settled hpopping hlock := absurd rfl (hlock _)
  guarded := h.guarded

theorem InSync.step (h : InSync id s) (htimely : Timely id s a)
    (ht : RuntimeMutation.step s a = some t) : InSync id t := by
  have hfronted := h.fronted.step ht
  cases step_change ht with
  | refuse hentry => exact h
  | @enqueue id' m overBudget hlock hentry =>
    by_cases hid : id' = id
    · subst hid
      exact h.enqueue (htimely rfl) hfronted
    · have hqueue := Pending.queue_enqueue_of_ne (Ne.symm hid) s.pending m
      refine ⟨hfronted, ?_, ?_, ?_, h.guarded⟩
      · dsimp only
        rw [hqueue]
        exact h.popped
      · rintro - quarantine ⟨⟩
        exact absurd rfl hid
      · dsimp only
        rw [hqueue]
        exact fun hpopping _ => h.settled hpopping (by simp [hlock])
  | @mark id' quarantine hlock =>
    refine ⟨hfronted, h.popped, by rintro - quarantine ⟨⟩, fun hpopping _ => ?_, ?_⟩
    · refine forall_updateEntry (fun hid entry => ?_) fun hid => ?_
      · subst hid
        obtain ⟨hempty, rfl⟩ := h.enqueued hpopping _ hlock
        exact CredentialEntry.degrade_reflects hempty entry
      · refine h.settled hpopping ?_
        rw [hlock]
        rintro _ ⟨⟩
        exact hid rfl
    · exact forall_updateEntry (fun _ _ => CredentialEntry.recomputeDisabled_guarded _)
        fun _ => h.guarded
  | front hidle hqueue =>
    have hpopping : ¬ s.popping id := not_popping hidle (by rintro _ _ _ ⟨⟩)
    exact ⟨hfronted, by rintro _ _ _ ⟨⟩, fun _ => h.enqueued hpopping,
      fun _ => h.settled hpopping, h.guarded⟩
  | apply hrequest hnew => exact ⟨hfronted, h.popped, h.enqueued, h.settled, h.guarded⟩
  | duplicate hrequest happlied => exact h
  | reply hpersisting happlied =>
    have hpopping : ¬ s.popping id := not_popping hpersisting (by rintro _ _ _ ⟨⟩)
    exact ⟨hfronted, by rintro _ _ _ ⟨⟩, fun _ => h.enqueued hpopping,
      fun _ => h.settled hpopping, h.guarded⟩
  | fail hpersisting =>
    have hpopping : ¬ s.popping id := not_popping hpersisting (by rintro _ _ _ ⟨⟩)
    exact ⟨hfronted, by rintro _ _ _ ⟨⟩, fun _ => h.enqueued hpopping,
      fun _ => h.settled hpopping, h.guarded⟩
  | @pop id' operationId persisted hpersisted =>
    obtain ⟨first, rest, hfirst, hget⟩ :=
      Pending.get_of_head (h.fronted id' operationId (.inr ⟨persisted, hpersisted⟩))
    obtain ⟨hself, hother, hflags⟩ := Pending.pop_of_get hget hfirst
    by_cases hid : id' = id
    · subst hid
      refine ⟨hfronted, ?_, fun hpopping => absurd ⟨_, _, _, rfl⟩ hpopping,
        fun hpopping => absurd ⟨_, _, _, rfl⟩ hpopping, h.guarded⟩
      rintro _ _ _ ⟨⟩
      dsimp only
      rw [hself, hflags]
      exact ⟨rfl, rfl⟩
    · have hqueue := hother id (Ne.symm hid)
      have hpopping : ¬ s.popping id := not_popping hpersisted (by rintro _ _ _ ⟨⟩)
      refine ⟨hfronted, ?_, fun _ => ?_, fun _ => ?_, h.guarded⟩
      · rintro _ _ _ ⟨⟩
        exact absurd rfl hid
      · dsimp only
        rw [hqueue]
        exact h.enqueued hpopping
      · dsimp only
        rw [hqueue]
        exact h.settled hpopping
  | @update id' queueEmpty quarantine persisted hpopped hlock =>
    refine ⟨hfronted, by rintro _ _ _ ⟨⟩, fun _ _ henqueuing => ?_, fun _ hlock' => ?_, ?_⟩
    · cases hlock.symm.trans henqueuing
    · refine forall_updateEntry (fun hid entry => ?_) fun hid => ?_
      · subst hid
        obtain ⟨rfl, rfl⟩ := h.popped _ _ _ hpopped
        exact CredentialEntry.settle_reflects _ persisted entry
      · refine h.settled (not_popping hpopped ?_) hlock'
        rintro _ _ _ ⟨⟩
        exact hid rfl
    · exact forall_updateEntry (fun _ _ => CredentialEntry.recomputeDisabled_guarded _)
        fun _ => h.guarded

theorem inSync_new {entries : List (ℕ × CredentialEntry)}
    (hentries : ∀ entry, KeyedList.get id entries = some entry →
      entry.runtimePersistenceDegraded = false ∧ entry.runtimePersistenceQuarantined = false) :
    InSync id (new entries) where
  fronted := fronted_new entries
  popped := by rintro _ _ _ ⟨⟩
  enqueued := by rintro - _ ⟨⟩
  settled _ _ entry hentry := ⟨(hentries entry hentry).1, (hentries entry hentry).2⟩
  guarded entry hentry hquarantined := by
    rw [(hentries entry hentry).2] at hquarantined
    cases hquarantined

/-- The flags of the credential say what is pending, and a pending disable keeps it out of the
dispatch. -/
structure FlagsMatch (id : ℕ) (s : System) (entry : CredentialEntry) : Prop where
  quarantined : entry.runtimePersistenceQuarantined = true ↔
    ∃ m ∈ s.pending.queue id, m.requiresDispatchQuarantine = true
  degraded : entry.runtimePersistenceDegraded = true ↔ s.pending.queue id ≠ []
  disabled : ∀ {op generation reason failures refreshFailures lastUsed},
    Mutation.disable op generation reason failures refreshFailures lastUsed ∈ s.pending.queue id →
      entry.disabled = true

theorem InSync.flagsMatch (h : InSync id s) (hpopping : ¬ s.popping id) (hlock : s.enqueuing = none)
    {entry : CredentialEntry} (hentry : KeyedList.get id s.entries = some entry) :
    FlagsMatch id s entry := by
  have hreflects := h.settled hpopping (by simp [hlock]) entry hentry
  have hquarantined : entry.runtimePersistenceQuarantined = true ↔
      ∃ m ∈ s.pending.queue id, m.requiresDispatchQuarantine = true := by
    rw [hreflects.quarantined, requiresQuarantine, List.any_eq_true]
  refine ⟨hquarantined, ?_, fun hdisable => ?_⟩
  · simp [hreflects.degraded]
  · exact h.guarded entry hentry (hquarantined.mpr ⟨_, hdisable, rfl⟩)

/-- Whenever no enqueue holds the lock and the flusher has no flags left to store, the flags
are those of the queue, unless an enqueue has overtaken the flusher. -/
theorem run_new_flagsMatch (entries : List (ℕ × CredentialEntry))
    (hentries : ∀ entry, KeyedList.get id entries = some entry →
      entry.runtimePersistenceDegraded = false ∧ entry.runtimePersistenceQuarantined = false)
    (actions : List Action) (htimely : Transition.Along step (Timely id) (new entries) actions)
    (h : run (new entries) actions = some s) (hpopping : ¬ s.popping id)
    (hlock : s.enqueuing = none) {entry : CredentialEntry}
    (hentry : KeyedList.get id s.entries = some entry) : FlagsMatch id s entry := by
  have hs : InSync id s := Transition.run_invariant_along
    (fun _ _ _ htimely hs ht => hs.step htimely ht) htimely (inSync_new hentries) h
  exact hs.flagsMatch hpopping hlock hentry

def suspension : Mutation := .disable 11 0 DisabledReason.accountSuspended.asStr none none []

def popping : List Action :=
  [.enqueue 1 (.success 10 0 1), .mark, .front 1, .apply 0, .reply .first, .pop]

theorem run_new_flagsMatch_suspension :
    ∃ s, run (new [(1, .initial)]) (popping ++ [.update, .enqueue 1 suspension, .mark]) = some s ∧
      ∃ entry, KeyedList.get 1 s.entries = some entry ∧ FlagsMatch 1 s entry := by
  refine ⟨_, rfl, _, rfl, run_new_flagsMatch [(1, .initial)] ?_
    (popping ++ [.update, .enqueue 1 suspension, .mark]) (by decide) rfl
    (not_popping rfl (by rintro _ _ _ ⟨⟩)) rfl rfl⟩
  rintro _ ⟨⟩
  exact ⟨rfl, rfl⟩

/-- The disable comes between the pop and the flags that it leaves behind. -/
theorem suspension_not_flagsMatch :
    ∃ s, run (new [(1, .initial)]) (popping ++ [.enqueue 1 suspension, .mark, .update]) = some s ∧
      s.flusher = .idle ∧ s.enqueuing = none ∧ s.pending.queue 1 = [suspension] ∧
      ∃ entry, KeyedList.get 1 s.entries = some entry ∧ entry.disabled = false ∧
        ¬ FlagsMatch 1 s entry := by
  refine ⟨_, rfl, rfl, rfl, rfl, _, rfl, rfl, fun h => ?_⟩
  cases h.disabled List.mem_cons_self

end KiroProxy.RuntimeMutation
