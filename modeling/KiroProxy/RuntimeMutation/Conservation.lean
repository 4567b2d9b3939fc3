import KiroProxy.RuntimeMutation.Pending

/-!
# Successes from the queue to the store

A success is merged into the last mutation of the queue if it can be. The store takes the count
of a mutation once, with the first request for its operation id. What is merged into a mutation
after that count was read never reaches the store.
-/

namespace KiroProxy.RuntimeMutation

variable {s t : System} {id generation : ℕ} {a : Action}

def Mutation.count : Mutation → ℕ
  | success _ _ successCount => successCount
  | _ => 0

@[simp]
theorem Mutation.operationId_success (op : OperationId) (generation count : ℕ) :
    (success op generation count).operationId = op := rfl

@[simp]
theorem Mutation.count_success (op : OperationId) (generation count : ℕ) :
    (success op generation count).count = count := rfl

/-- The sum of the success counts that the store has taken. -/
def System.recorded (s : System) : ℕ := (s.ledger.map fun entry => entry.2.count).sum

def unsettled (applied : OperationId → Bool) (queue : List Mutation) : ℕ :=
  ((queue.filter fun m => !applied m.operationId).map Mutation.count).sum

/-- The successes whose mutation the store has yet to take. -/
def System.unrecorded (s : System) (id : ℕ) : ℕ := unsettled s.applied (s.pending.queue id)

def System.queued (s : System) (id : ℕ) : ℕ := ((s.pending.queue id).map Mutation.count).sum

def System.knows (s : System) (id : ℕ) (operationId : OperationId) : Prop :=
  operationId ∈ (s.pending.queue id).map Mutation.operationId ∨ s.applied operationId = true

/-- Successes of one credential and one generation, for which no answer of the store is stale. -/
def Action.Succeeds (id generation : ℕ) : Action → Prop
  | .enqueue id' m => id' = id ∧ m = .success m.operationId generation 1
  | .reply persisted => persisted.applied = true
  | _ => True

instance (id generation : ℕ) (a : Action) : Decidable (a.Succeeds id generation) := by
  unfold Action.Succeeds
  split <;> infer_instance

def Action.enqueued : Action → Option OperationId
  | .enqueue _ m => some m.operationId
  | _ => none

def enqueuedIds (actions : List Action) : List OperationId := actions.filterMap Action.enqueued

/-- No success is merged into a mutation that the store has taken, and the store takes a
mutation as it stands in the queue. -/
def Kept (s : System) : Action → Prop
  | .enqueue id m => ∀ previous ∈ (s.pending.queue id).getLast?,
      (m.coalesceIntoPrevious previous).isSome = true → s.applied previous.operationId = false
  | .apply i => ∀ request ∈ s.requests[i]?, s.applied request.2.operationId = false →
      (s.pending.queue request.1).head? = some request.2
  | _ => True

instance (s : System) (a : Action) : Decidable (Kept s a) := by
  unfold Kept
  split <;> infer_instance

structure Counts (id generation : ℕ) (s : System) : Prop where
  fronted : Fronted s
  entry : KeyedList.get id s.entries ≠ none
  pending : s.pending = [] ∨ ∃ queue, s.pending = [(id, queue)]
  queue : ∀ m ∈ s.pending.queue id, ∃ op count, m = .success op generation count
  nodup : ((s.pending.queue id).map Mutation.operationId).Nodup
  requests : ∀ request ∈ s.requests, request.1 = id ∧
    ∃ op count, request.2 = .success op generation count ∧
      (s.applied op = true ∨ ∃ count' rest, count ≤ count' ∧
        s.pending.queue id = .success op generation count' :: rest)
  persisting : ∀ id' op, s.flusher = .persisting id' op → id' = id
  persisted : ∀ id' op persisted, s.flusher = .persisted id' op persisted →
    id' = id ∧ s.applied op = true

theorem counts_new {entries : List (ℕ × CredentialEntry)}
    (hentry : KeyedList.get id entries ≠ none) : Counts id generation (new entries) where
  fronted := fronted_new entries
  entry := hentry
  pending := .inl rfl
  queue := by rintro _ ⟨⟩
  nodup := List.nodup_nil
  requests := by rintro _ ⟨⟩
  persisting := by rintro _ _ ⟨⟩
  persisted := by rintro _ _ _ ⟨⟩

namespace Counts

theorem holds_iff (h : Counts id generation s) (op : OperationId) :
    s.pending.holds op = true ↔ op ∈ (s.pending.queue id).map Mutation.operationId := by
  rcases h.pending with hpending | ⟨queue, hpending⟩
  · simp [hpending, Pending.holds, Pending.queue, KeyedList.get]
  · simp [hpending, Pending.holds, Pending.queue, KeyedList.get]

theorem insert_pending (h : Counts id generation s) (queue : List Mutation) :
    KeyedList.insert id queue s.pending = [(id, queue)] := by
  rcases h.pending with hpending | ⟨queue', hpending⟩
  · simp [hpending, KeyedList.insert]
  · simp [hpending, KeyedList.insert]

theorem queue_singleton (queue : List Mutation) : Pending.queue id [(id, queue)] = queue := by
  simp [Pending.queue, KeyedList.get]

theorem le_queued {m : Mutation} (hm : m ∈ s.pending.queue id) : m.count ≤ s.queued id :=
  List.single_le_sum (by simp) _ (List.mem_map_of_mem hm)

/-- A success that is new begins the queue or is merged into its last mutation. -/
theorem enqueue_cases (h : Counts id generation s) {op : OperationId}
    (hfresh : ¬ s.knows id op) (hroom : s.queued id + 1 ≤ u32Max) :
    (s.pending.queue id = [] ∧
        (s.pending.enqueue id (.success op generation 1)).1 =
          [(id, [.success op generation 1])]) ∨
      ∃ init op' count, s.pending.queue id = init ++ [.success op' generation count] ∧
        (s.pending.enqueue id (.success op generation 1)).1 =
          [(id, init ++ [.success op' generation (count + 1)])] := by
  have hholds : s.pending.holds op = false := by
    rw [← Bool.not_eq_true, h.holds_iff]
    exact fun hop => hfresh (.inl hop)
  rcases Pending.enqueue_cases s.pending id (.success op generation 1) with ⟨hholds', -⟩ |
      ⟨-, init, previous, merged, hqueue, hmerge, h'⟩ | ⟨-, hlast, overBudget, h'⟩
  · cases hholds.symm.trans hholds'
  · obtain ⟨op', count, rfl⟩ := h.queue previous (by rw [hqueue]; simp)
    have hcount : count ≤ s.queued id := le_queued (m := .success op' generation count)
      (by rw [hqueue]; simp)
    rw [Mutation.coalesceIntoPrevious, if_pos rfl] at hmerge
    cases hmerge
    refine .inr ⟨init, op', count, hqueue, ?_⟩
    rw [h', h.insert_pending, Nat.max_self, Nat.min_eq_left (by omega)]
  · refine .inl ?_
    have hempty : s.pending.queue id = [] := by
      cases hgetLast : (s.pending.queue id).getLast? with
      | none => exact List.getLast?_eq_none_iff.mp hgetLast
      | some previous =>
        obtain ⟨op', count, rfl⟩ := h.queue previous (List.mem_of_getLast? hgetLast)
        have hmerge := hlast _ hgetLast
        rw [Mutation.coalesceIntoPrevious, if_pos rfl] at hmerge
        cases hmerge
    refine ⟨hempty, ?_⟩
    rw [h', h.insert_pending, hempty]
    rfl

end Counts

theorem unsettled_append (applied : OperationId → Bool) (queue queue' : List Mutation) :
    unsettled applied (queue ++ queue') = unsettled applied queue + unsettled applied queue' := by
  simp [unsettled]

theorem unsettled_singleton (applied : OperationId → Bool) (m : Mutation) :
    unsettled applied [m] = if applied m.operationId then 0 else m.count := by
  cases happlied : applied m.operationId <;> simp [unsettled, happlied]

theorem unsettled_cons (applied : OperationId → Bool) (m : Mutation) (queue : List Mutation) :
    unsettled applied (m :: queue) =
      (if applied m.operationId then 0 else m.count) + unsettled applied queue := by
  rw [← List.singleton_append, unsettled_append, unsettled_singleton]

theorem unsettled_congr {applied applied' : OperationId → Bool} {queue : List Mutation}
    (h : ∀ m ∈ queue, applied' m.operationId = applied m.operationId) :
    unsettled applied' queue = unsettled applied queue := by
  unfold unsettled
  rw [List.filter_congr fun m hm => by rw [h m hm]]

/-- What a step adds to the successes, and how many it loses. -/
def Balance (id : ℕ) (s : System) (a : Action) (t : System) : Prop :=
  ∃ lost, t.recorded + t.unrecorded id + lost =
      s.recorded + s.unrecorded id + a.enqueued.toList.length ∧ (lost = 0 ↔ Kept s a)

theorem Balance.of_eq (hledger : t.ledger = s.ledger) (hpending : t.pending = s.pending)
    (henqueued : a.enqueued = none) (hkept : Kept s a) : Balance id s a t := by
  refine ⟨0, ?_, fun _ => hkept, fun _ => rfl⟩
  have happlied : t.applied = s.applied := by
    funext op
    rw [System.applied, hledger, System.applied]
  rw [henqueued, System.recorded, hledger, System.unrecorded, hpending, happlied]
  rfl

namespace Counts

theorem applied_append (s : System) (entry : ℕ × Mutation) (op : OperationId) :
    { s with ledger := s.ledger ++ [entry] }.applied op =
      (s.applied op || entry.2.operationId == op) := by
  simp [System.applied]

variable {op : OperationId} {id' : ℕ} {persisted : Persisted}

theorem balance_enqueue (h : Counts id generation s) {overBudget : ℕ} (hfresh : ¬ s.knows id op)
    (hroom : s.queued id + 1 ≤ u32Max) :
    Balance id s (.enqueue id (.success op generation 1)) { s with
      pending := (s.pending.enqueue id (.success op generation 1)).1
      overflow := overBudget
      enqueuing := some (id, (s.pending.enqueue id (.success op generation 1)).2.2) } := by
  have hop : s.applied op = false := Bool.not_eq_true _ ▸ fun happlied => hfresh (.inr happlied)
  rcases h.enqueue_cases hfresh hroom with ⟨hqueue, hpending⟩ | ⟨init, op', count, hqueue, hpending⟩
  · refine ⟨0, ?_, fun _ => ?_, fun _ => rfl⟩
    · change s.recorded + unsettled s.applied (Pending.queue id _) + 0 = _
      rw [hpending, queue_singleton, unsettled_singleton, Mutation.operationId_success, hop,
        System.unrecorded, hqueue]
      rfl
    · intro previous hlast
      rw [hqueue] at hlast
      cases hlast
  · have hlast : (s.pending.queue id).getLast? = some (.success op' generation count) := by
      rw [hqueue, List.getLast?_concat]
    have hkept : Kept s (.enqueue id (.success op generation 1)) ↔ s.applied op' = false := by
      simp [Kept, hlast, Mutation.coalesceIntoPrevious]
    rw [Balance, hkept]
    change ∃ lost, s.recorded + unsettled s.applied (Pending.queue id _) + lost = _ ∧ _
    rw [hpending, queue_singleton, unsettled_append, unsettled_singleton, System.unrecorded, hqueue,
      unsettled_append, unsettled_singleton]
    cases happlied : s.applied op' with
    | true => exact ⟨1, by simp [happlied, Action.enqueued], by simp⟩
    | false =>
      refine ⟨0, ?_, by simp⟩
      simp [happlied, Action.enqueued, Nat.add_assoc]

theorem balance_apply (h : Counts id generation s) {i id' : ℕ} {m : Mutation}
    (hrequest : s.requests[i]? = some (id', m)) (hnew : s.applied m.operationId = false) :
    Balance id s (.apply i) { s with ledger := s.ledger ++ [(id', m)] } := by
  obtain ⟨rfl, op, count, hm, hrest⟩ := h.requests _ (List.mem_of_getElem? hrequest)
  dsimp only at hm
  subst hm
  rw [Mutation.operationId_success] at hnew
  rcases hrest with happlied | ⟨count', rest, hle, hqueue⟩
  · cases happlied.symm.trans hnew
  · have hkept : Kept s (.apply i) ↔ count' = count := by
      simp [Kept, hrequest, hnew, hqueue]
    rw [Balance, hkept]
    refine ⟨count' - count, ?_, by omega⟩
    have hrest : unsettled ({ s with ledger :=
        s.ledger ++ [(id', .success op generation count)] } : System).applied rest =
          unsettled s.applied rest := by
      refine unsettled_congr fun m hm => ?_
      rw [applied_append]
      have hnodup := h.nodup
      rw [hqueue] at hnodup
      have hne : op ≠ m.operationId := by
        intro heq
        apply (List.nodup_cons.mp hnodup).1
        rw [Mutation.operationId_success, heq]
        exact List.mem_map_of_mem hm
      simp [hne]
    simp only [System.unrecorded, hqueue, unsettled_cons, hrest, applied_append, System.recorded,
      Mutation.operationId_success, beq_self_eq_true, Bool.or_true, if_true, hnew,
      Bool.false_eq_true, if_false, List.map_append, List.sum_append, List.map_cons, List.map_nil,
      List.sum_singleton, Mutation.count_success, Action.enqueued, Option.toList_none,
      List.length_nil]
    omega

/-- The mutation that the flusher has persisted, at the front of the only queue. -/
theorem persisted_front (h : Counts id generation s)
    (hpersisted : s.flusher = .persisted id' op persisted) :
    id' = id ∧ ∃ count rest, s.applied op = true ∧
      s.pending = [(id, .success op generation count :: rest)] := by
  obtain ⟨rfl, happlied⟩ := h.persisted _ _ _ hpersisted
  obtain ⟨first, rest, hfirst, hget⟩ :=
    Pending.get_of_head (h.fronted id' op (.inr ⟨persisted, hpersisted⟩))
  obtain ⟨op', count, rfl⟩ := h.queue first
    (by rw [Pending.queue_of_get hget]; exact List.mem_cons_self)
  rw [Mutation.operationId_success] at hfirst
  subst hfirst
  refine ⟨rfl, count, rest, happlied, ?_⟩
  rcases h.pending with hpending | ⟨queue, hpending⟩
  · rw [hpending] at hget
    cases hget
  · rw [hpending, KeyedList.get, if_pos rfl] at hget
    cases hget
    exact hpending

theorem pop_singleton (op : OperationId) (count : ℕ) (rest : List Mutation) :
    (Pending.pop [(id, .success op generation count :: rest)] id op).1 =
      if rest.isEmpty then [] else [(id, rest)] := by
  simp [Pending.pop, KeyedList.get, KeyedList.remove, KeyedList.insert]

theorem queue_pop (op : OperationId) (count : ℕ) (rest : List Mutation) :
    Pending.queue id (Pending.pop [(id, .success op generation count :: rest)] id op).1 = rest := by
  rw [pop_singleton]
  split_ifs with hrest
  · rw [List.isEmpty_iff.mp hrest]
    rfl
  · exact queue_singleton rest

theorem balance_pop (h : Counts id generation s)
    (hpersisted : s.flusher = .persisted id' op persisted) :
    Balance id s .pop { s with
      pending := (s.pending.pop id' op).1
      flusher := .popped id' (s.pending.pop id' op).2.1 (s.pending.pop id' op).2.2 persisted } := by
  obtain ⟨rfl, count, rest, happlied, hpending⟩ := h.persisted_front hpersisted
  refine ⟨0, ?_, fun _ => trivial, fun _ => rfl⟩
  change s.recorded + unsettled s.applied (Pending.queue id' (s.pending.pop id' op).1) + 0 = _
  rw [hpending, queue_pop, System.unrecorded, hpending, queue_singleton, unsettled_cons,
    Mutation.operationId_success, happlied, if_pos rfl, Nat.zero_add]
  rfl

theorem balance (h : Counts id generation s) (hdomain : a.Succeeds id generation)
    (hfresh : ∀ op ∈ a.enqueued, ¬ s.knows id op)
    (hroom : s.queued id + a.enqueued.toList.length ≤ u32Max) (ht : step s a = some t) :
    Balance id s a t := by
  cases step_change ht with
  | @refuse id' m hentry =>
    obtain ⟨rfl, -⟩ := hdomain
    exact absurd hentry h.entry
  | @enqueue id' m overBudget hlock hentry =>
    obtain ⟨rfl, hm⟩ := hdomain
    have hnew := hfresh m.operationId rfl
    generalize m.operationId = op at hm hnew
    subst hm
    exact h.balance_enqueue hnew hroom
  | mark hlock => exact .of_eq rfl rfl rfl trivial
  | front hidle hqueue => exact .of_eq rfl rfl rfl trivial
  | apply hrequest hnew => exact h.balance_apply hrequest hnew
  | duplicate hrequest happlied =>
    refine .of_eq rfl rfl rfl fun request hmem hnew => ?_
    rw [hrequest] at hmem
    cases hmem
    cases happlied.symm.trans hnew
  | reply hpersisting happlied => exact .of_eq rfl rfl rfl trivial
  | fail hpersisting => exact .of_eq rfl rfl rfl trivial
  | pop hpersisted => exact h.balance_pop hpersisted
  | update hpopped hlock => exact .of_eq rfl rfl rfl trivial

/-- How a queue of successes grows by one success. -/
theorem enqueue_grows (h : Counts id generation s) (hfresh : ¬ s.knows id op)
    (hroom : s.queued id + 1 ≤ u32Max) :
    ∃ queue, (s.pending.enqueue id (.success op generation 1)).1 = [(id, queue)] ∧
      (∀ m ∈ queue, ∃ op count, m = .success op generation count) ∧
      (queue.map Mutation.operationId).Nodup ∧
      (∀ op' count rest, s.pending.queue id = .success op' generation count :: rest →
        ∃ count' rest', count ≤ count' ∧ queue = .success op' generation count' :: rest') ∧
      (queue.map Mutation.count).sum = s.queued id + 1 ∧
      ∀ op' ∈ queue.map Mutation.operationId, s.knows id op' ∨ op' = op := by
  rcases h.enqueue_cases hfresh hroom with ⟨hqueue, hpending⟩ |
      ⟨init, op', count, hqueue, hpending⟩
  · refine ⟨_, hpending, ?_, by simp, ?_, ?_, ?_⟩
    · intro m hm
      exact ⟨op, 1, List.mem_singleton.mp hm⟩
    · rw [hqueue]
      rintro _ _ _ ⟨⟩
    · rw [System.queued, hqueue]
      rfl
    · intro op' hop'
      exact .inr (List.mem_singleton.mp hop')
  · refine ⟨_, hpending, ?_, ?_, ?_, ?_, ?_⟩
    · intro m hm
      rcases List.mem_append.mp hm with hm | hm
      · exact h.queue m (by rw [hqueue]; exact List.mem_append_left _ hm)
      · exact ⟨op', count + 1, List.mem_singleton.mp hm⟩
    · have hnodup := h.nodup
      rw [hqueue] at hnodup
      simpa using hnodup
    · intro op'' count'' rest hfirst
      rw [hqueue] at hfirst
      cases init with
      | nil =>
        cases hfirst
        exact ⟨count + 1, [], Nat.le_succ count, rfl⟩
      | cons first init =>
        cases hfirst
        exact ⟨count'', _, Nat.le_refl _, rfl⟩
    · simp [System.queued, hqueue, Nat.add_assoc]
    · intro op'' hop''
      left
      left
      rw [hqueue]
      simpa using hop''

theorem enqueue (h : Counts id generation s) {overBudget : ℕ} (hfresh : ¬ s.knows id op)
    (hroom : s.queued id + 1 ≤ u32Max) (hfronted : Fronted { s with
      pending := (s.pending.enqueue id (.success op generation 1)).1
      overflow := overBudget
      enqueuing := some (id, (s.pending.enqueue id (.success op generation 1)).2.2) }) :
    Counts id generation { s with
      pending := (s.pending.enqueue id (.success op generation 1)).1
      overflow := overBudget
      enqueuing := some (id, (s.pending.enqueue id (.success op generation 1)).2.2) } := by
  obtain ⟨queue, hpending, hqueue, hnodup, hfirst, -, -⟩ := h.enqueue_grows hfresh hroom
  refine ⟨hfronted, h.entry, .inr ⟨queue, hpending⟩, ?_, ?_, ?_, h.persisting, h.persisted⟩
  · dsimp only
    rwa [hpending, queue_singleton]
  · dsimp only
    rwa [hpending, queue_singleton]
  · intro request hrequest
    obtain ⟨hid, op', count, hm, happlied | ⟨count', rest, hle, hrest⟩⟩ :=
      h.requests request hrequest
    · exact ⟨hid, op', count, hm, .inl happlied⟩
    · obtain ⟨count'', rest', hle', rfl⟩ := hfirst _ _ _ hrest
      refine ⟨hid, op', count, hm, .inr ⟨count'', rest', Nat.le_trans hle hle', ?_⟩⟩
      dsimp only
      rw [hpending, queue_singleton]

theorem front (h : Counts id generation s) {first : Mutation} {rest : List Mutation}
    (hqueue : s.pending.queue id' = first :: rest) (hfronted : Fronted { s with
      flusher := .persisting id' first.operationId
      requests := s.requests ++ [(id', first)] }) :
    Counts id generation { s with
      flusher := .persisting id' first.operationId
      requests := s.requests ++ [(id', first)] } := by
  have hid : id' = id := by
    rcases h.pending with hpending | ⟨queue, hpending⟩
    · rw [hpending] at hqueue
      cases hqueue
    · by_contra hid
      rw [hpending, Pending.queue, KeyedList.get, if_neg (Ne.symm hid)] at hqueue
      cases hqueue
  subst hid
  refine ⟨hfronted, h.entry, h.pending, h.queue, h.nodup, ?_, ?_, by rintro _ _ _ ⟨⟩⟩
  · intro request hrequest
    rcases List.mem_append.mp hrequest with hrequest | hrequest
    · exact h.requests request hrequest
    · obtain rfl := List.mem_singleton.mp hrequest
      obtain ⟨op, count, rfl⟩ := h.queue first (by rw [hqueue]; exact List.mem_cons_self)
      exact ⟨rfl, op, count, rfl, .inr ⟨count, rest, Nat.le_refl _, hqueue⟩⟩
  · rintro _ _ ⟨⟩
    rfl

theorem apply (h : Counts id generation s) {m : Mutation}
    (hfronted : Fronted { s with ledger := s.ledger ++ [(id', m)] }) :
    Counts id generation { s with ledger := s.ledger ++ [(id', m)] } := by
  have happlied {op : OperationId} (hop : s.applied op = true) :
      { s with ledger := s.ledger ++ [(id', m)] }.applied op = true := by
    rw [applied_append, hop, Bool.true_or]
  refine ⟨hfronted, h.entry, h.pending, h.queue, h.nodup, ?_, h.persisting, ?_⟩
  · intro request hrequest
    obtain ⟨hid, op, count, hm, hrest⟩ := h.requests request hrequest
    exact ⟨hid, op, count, hm, hrest.imp_left happlied⟩
  · intro id'' op persisted hpersisted
    exact (h.persisted id'' op persisted hpersisted).imp_right happlied

theorem pop (h : Counts id generation s) (hpersisted : s.flusher = .persisted id' op persisted)
    (hfronted : Fronted { s with
      pending := (s.pending.pop id' op).1
      flusher := .popped id' (s.pending.pop id' op).2.1 (s.pending.pop id' op).2.2 persisted }) :
    Counts id generation { s with
      pending := (s.pending.pop id' op).1
      flusher := .popped id' (s.pending.pop id' op).2.1 (s.pending.pop id' op).2.2 persisted } := by
  obtain ⟨rfl, count, rest, happlied, hpending⟩ := h.persisted_front hpersisted
  have hqueue := h.queue
  have hnodup := h.nodup
  rw [hpending, queue_singleton] at hqueue hnodup
  have hrest : (s.pending.pop id' op).1.queue id' = rest := by rw [hpending, queue_pop]
  refine ⟨hfronted, h.entry, ?_, ?_, ?_, ?_, by rintro _ _ ⟨⟩, by rintro _ _ _ ⟨⟩⟩
  · dsimp only
    rw [hpending, pop_singleton]
    split_ifs
    · exact .inl rfl
    · exact .inr ⟨rest, rfl⟩
  · dsimp only
    rw [hrest]
    exact fun m hm => hqueue m (List.mem_cons_of_mem _ hm)
  · dsimp only
    rw [hrest]
    exact (List.nodup_cons.mp hnodup).2
  · intro request hrequest
    obtain ⟨hid, op', count', hm, happlied' | ⟨count'', rest', hle, hqueue'⟩⟩ :=
      h.requests request hrequest
    · exact ⟨hid, op', count', hm, .inl happlied'⟩
    · rw [hpending, queue_singleton] at hqueue'
      cases hqueue'
      exact ⟨hid, op, count', hm, .inl happlied⟩

theorem entry_updateEntry (h : Counts id generation s) (id' : ℕ)
    (f : CredentialEntry → CredentialEntry) :
    KeyedList.get id (s.updateEntry id' f).entries ≠ none := by
  by_cases hid : id = id'
  · subst hid
    rw [get_updateEntry_self, Ne, Option.map_eq_none_iff]
    exact h.entry
  · rw [get_updateEntry_of_ne hid]
    exact h.entry

theorem step (h : Counts id generation s) (hdomain : a.Succeeds id generation)
    (hfresh : ∀ op ∈ a.enqueued, ¬ s.knows id op)
    (hroom : s.queued id + a.enqueued.toList.length ≤ u32Max)
    (ht : RuntimeMutation.step s a = some t) : Counts id generation t := by
  have hfronted := h.fronted.step ht
  cases step_change ht with
  | refuse hentry => exact h
  | @enqueue id' m overBudget hlock hentry =>
    obtain ⟨rfl, hm⟩ := hdomain
    have hnew := hfresh m.operationId rfl
    generalize m.operationId = op at hm hnew
    subst hm
    exact h.enqueue hnew hroom hfronted
  | @mark id' quarantine hlock =>
    exact ⟨hfronted, h.entry_updateEntry id' _, h.pending, h.queue, h.nodup, h.requests,
      h.persisting, h.persisted⟩
  | front hidle hqueue => exact h.front hqueue hfronted
  | apply hrequest hnew => exact h.apply hfronted
  | duplicate hrequest happlied => exact h
  | reply hpersisting happlied =>
    refine ⟨hfronted, h.entry, h.pending, h.queue, h.nodup, h.requests, by rintro _ _ ⟨⟩, ?_⟩
    rintro _ _ _ ⟨⟩
    exact ⟨h.persisting _ _ hpersisting, happlied hdomain⟩
  | fail hpersisting =>
    exact ⟨hfronted, h.entry, h.pending, h.queue, h.nodup, h.requests, by rintro _ _ ⟨⟩,
      by rintro _ _ _ ⟨⟩⟩
  | pop hpersisted => exact h.pop hpersisted hfronted
  | @update id' queueEmpty quarantine persisted hpopped hlock =>
    exact ⟨hfronted, h.entry_updateEntry id' _, h.pending, h.queue, h.nodup, h.requests,
      by rintro _ _ ⟨⟩, by rintro _ _ _ ⟨⟩⟩

theorem grows (h : Counts id generation s) (hdomain : a.Succeeds id generation)
    (hfresh : ∀ op ∈ a.enqueued, ¬ s.knows id op)
    (hroom : s.queued id + a.enqueued.toList.length ≤ u32Max)
    (ht : RuntimeMutation.step s a = some t) :
    t.queued id ≤ s.queued id + a.enqueued.toList.length ∧
      ∀ op, t.knows id op → s.knows id op ∨ op ∈ a.enqueued := by
  cases step_change ht with
  | refuse hentry => exact ⟨Nat.le_add_right _ _, fun _ => .inl⟩
  | @enqueue id' m overBudget hlock hentry =>
    obtain ⟨rfl, hm⟩ := hdomain
    have hnew := hfresh m.operationId rfl
    generalize m.operationId = op at hm hnew
    subst hm
    obtain ⟨queue, hpending, -, -, -, hcount, hids⟩ := h.enqueue_grows hnew hroom
    constructor
    · simp only [System.queued, hpending, queue_singleton, hcount]
      exact Nat.le_refl _
    · rintro op' (hop' | happlied)
      · dsimp only at hop'
        rw [hpending, queue_singleton] at hop'
        exact (hids op' hop').imp_right fun heq => congrArg some heq.symm
      · exact .inl (.inr happlied)
  | mark hlock => exact ⟨Nat.le_refl _, fun _ => .inl⟩
  | front hidle hqueue => exact ⟨Nat.le_refl _, fun _ => .inl⟩
  | @apply i id' m hrequest hnew =>
    refine ⟨Nat.le_refl _, ?_⟩
    rintro op (hop | happlied)
    · exact .inl (.inl hop)
    · rw [applied_append, Bool.or_eq_true] at happlied
      rcases happlied with happlied | hop
      · exact .inl (.inr happlied)
      · obtain ⟨-, op', count, hm, happlied | ⟨count', rest, -, hqueue⟩⟩ :=
          h.requests _ (List.mem_of_getElem? hrequest)
        · dsimp only at hm
          subst hm
          cases hnew.symm.trans happlied
        · dsimp only at hm
          subst hm
          left
          left
          rw [hqueue, ← eq_of_beq hop]
          exact List.mem_cons_self
  | duplicate hrequest happlied => exact ⟨Nat.le_refl _, fun _ => .inl⟩
  | reply hpersisting happlied => exact ⟨Nat.le_refl _, fun _ => .inl⟩
  | fail hpersisting => exact ⟨Nat.le_refl _, fun _ => .inl⟩
  | pop hpersisted =>
    obtain ⟨rfl, count, rest, happlied, hpending⟩ := h.persisted_front hpersisted
    constructor
    · simp only [System.queued, hpending, queue_pop, queue_singleton, List.map_cons, List.sum_cons]
      omega
    · rintro op (hop | happlied)
      · dsimp only at hop
        rw [hpending, queue_pop] at hop
        refine .inl (.inl ?_)
        rw [hpending, queue_singleton]
        exact List.mem_cons_of_mem _ hop
      · exact .inl (.inr happlied)
  | update hpopped hlock => exact ⟨Nat.le_refl _, fun _ => .inl⟩

end Counts

theorem enqueuedIds_cons (a : Action) (as : List Action) :
    enqueuedIds (a :: as) = a.enqueued.toList ++ enqueuedIds as := by
  cases h : a.enqueued with
  | none => simp [enqueuedIds, h]
  | some op => simp [enqueuedIds, h]

/-- The losses of the steps add up, and a run that loses nothing keeps the condition. -/
theorem run_balance {actions : List Action} (h : Counts id generation s)
    (hdomain : ∀ a ∈ actions, a.Succeeds id generation) (hnodup : (enqueuedIds actions).Nodup)
    (hfresh : ∀ op ∈ enqueuedIds actions, ¬ s.knows id op)
    (hroom : s.queued id + (enqueuedIds actions).length ≤ u32Max) (hrun : run s actions = some t) :
    ∃ lost, t.recorded + t.unrecorded id + lost =
        s.recorded + s.unrecorded id + (enqueuedIds actions).length ∧
      (lost = 0 ↔ Transition.Along step Kept s actions) := by
  induction actions generalizing s with
  | nil =>
    cases hrun
    exact ⟨0, rfl, fun _ => trivial, fun _ => rfl⟩
  | cons a actions ih =>
    obtain ⟨s', hs', hrun⟩ := Transition.run_cons_eq_some.mp hrun
    rw [enqueuedIds_cons] at hnodup hfresh hroom ⊢
    rw [List.length_append] at hroom ⊢
    have hdomain' := hdomain a List.mem_cons_self
    have hfresh' : ∀ op ∈ a.enqueued, ¬ s.knows id op := fun op hop =>
      hfresh op (List.mem_append_left _ (Option.mem_toList.mpr hop))
    obtain ⟨lost, hlost, hkept⟩ := h.balance hdomain' hfresh' (by omega) hs'
    obtain ⟨hqueued, hknows⟩ := h.grows hdomain' hfresh' (by omega) hs'
    obtain ⟨-, hnodup, hdisjoint⟩ := List.nodup_append.mp hnodup
    have hfresh'' : ∀ op ∈ enqueuedIds actions, ¬ s'.knows id op := by
      intro op hop hknown
      rcases hknows op hknown with hknown | hnow
      · exact hfresh op (List.mem_append_right _ hop) hknown
      · exact hdisjoint op (Option.mem_toList.mpr hnow) op hop rfl
    obtain ⟨lost', hlost', hkept'⟩ := ih (h.step hdomain' hfresh' (by omega) hs')
      (fun b hb => hdomain b (List.mem_cons_of_mem a hb)) hnodup hfresh'' (by omega) hrun
    refine ⟨lost + lost', by omega, ?_⟩
    rw [Nat.add_eq_zero_iff, hkept, hkept']
    refine and_congr_right fun _ => ⟨fun halong t ht => ?_, fun halong => halong s' hs'⟩
    cases hs'.symm.trans ht
    exact halong

/-- When the queue has drained, the store has taken every success once, exactly if no success
was merged into a mutation behind the back of the store. -/
theorem run_new_recorded_iff (entries : List (ℕ × CredentialEntry)) (id generation : ℕ)
    (actions : List Action)
    (hentry : KeyedList.get id entries ≠ none)
    (hdomain : ∀ a ∈ actions, a.Succeeds id generation) (hnodup : (enqueuedIds actions).Nodup)
    (hroom : (enqueuedIds actions).length ≤ u32Max) (hrun : run (new entries) actions = some s)
    (hdrained : s.pending.queue id = []) :
    s.recorded = (enqueuedIds actions).length ↔
      Transition.Along step Kept (new entries) actions := by
  have hfresh : ∀ op ∈ enqueuedIds actions, ¬ (new entries).knows id op := by
    rintro op - (hop | happlied)
    · cases hop
    · cases happlied
  have hqueued : (new entries).queued id = 0 := rfl
  obtain ⟨lost, hlost, hkept⟩ :=
    run_balance (counts_new hentry) hdomain hnodup hfresh (by omega) hrun
  have hunrecorded : s.unrecorded id = 0 := by
    rw [System.unrecorded, hdrained]
    rfl
  have hnew : (new entries).recorded + (new entries).unrecorded id = 0 := rfl
  rw [← hkept]
  omega

/-- Two successes are merged before the flusher takes them. -/
def mergedInTime : List Action :=
  [.enqueue 1 (.success 10 0 1), .mark, .enqueue 1 (.success 11 0 1), .mark, .front 1, .apply 0,
    .reply .first, .pop, .update]

theorem run_new_recorded_iff_mergedInTime :
    ∃ s, run (new [(1, .initial)]) mergedInTime = some s ∧ s.recorded = 2 :=
  ⟨_, rfl, (run_new_recorded_iff [(1, .initial)] 1 0 mergedInTime (by rintro ⟨⟩) (by decide)
    (by decide) (by decide) rfl rfl).mpr (by decide)⟩

/-- The second success is merged into the mutation that the store is about to take. -/
def mergedTooLate : List Action :=
  [.enqueue 1 (.success 10 0 1), .mark, .front 1, .enqueue 1 (.success 11 0 1), .mark, .apply 0,
    .reply .first, .pop, .update]

theorem recorded_mergedTooLate :
    ∃ s, run (new [(1, .initial)]) mergedTooLate = some s ∧ s.flusher = .idle ∧ s.pending = [] ∧
      (enqueuedIds mergedTooLate).length = 2 ∧ s.recorded = 1 :=
  ⟨_, rfl, rfl, rfl, rfl, rfl⟩

end KiroProxy.RuntimeMutation
