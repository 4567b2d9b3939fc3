import KiroProxy.AttemptBudget

/-!
# The snapshot of an attempt budget

The calls on a budget one after the other, and the flag that its snapshot reports. The flag is set
when a call is refused because no attempt is left, and it stays set when the limit is raised.
-/

namespace KiroProxy.InferenceAttemptBudget

structure InferenceAttemptSnapshot where
  maxAttempts : UInt32
  consumed : UInt32
  localAttempts : UInt32
  externalAttempts : UInt32
  mcpAttempts : UInt32
  exhausted : Bool
  downstreamCommitted : Bool
  deriving DecidableEq, Repr

def snapshot (b : InferenceAttemptBudget) : InferenceAttemptSnapshot where
  maxAttempts := b.maxAttempts
  consumed := b.state &&& consumedMask
  localAttempts := b.localAttempts
  externalAttempts := b.externalAttempts
  mcpAttempts := b.mcpAttempts
  exhausted := b.maxAttempts ≤ b.state &&& consumedMask || b.exhausted
  downstreamCommitted := b.state &&& downstreamCommittedBit ≠ 0

/-- What is left of a call when its `fetch_update` is done. -/
def finish (b : InferenceAttemptBudget) : Call → InferenceAttemptBudget × Call
  | .reserved kind next => (b.countAttempt kind, .returned (.ok next))
  | .exhausting => ({ b with exhausted := true }, .returned (.error .exhausted))
  | call => (b, call)

/-- A whole call, with no other call between its operations. -/
def reserve (b : InferenceAttemptBudget) (kind : InferenceAttemptKind)
    (preserveAttempts : UInt32) : InferenceAttemptBudget × Call :=
  let (next, call) := b.afterUpdate kind preserveAttempts b.maxAttempts
  next.finish call

inductive Operation
  | reserve (kind : InferenceAttemptKind) (preserveAttempts : UInt32)
  | raiseMaxAttempts (required : UInt32)
  | markDownstreamCommitted
  deriving DecidableEq, Repr

def perform (b : InferenceAttemptBudget) : Operation → Option InferenceAttemptBudget
  | .reserve kind preserveAttempts => some (b.reserve kind preserveAttempts).1
  | .raiseMaxAttempts required => some (b.raiseMaxAttempts required)
  | .markDownstreamCommitted => some b.markDownstreamCommitted

/-- The snapshot says that the attempts are exhausted exactly when none is left. -/
def Reported (b : InferenceAttemptBudget) : Prop :=
  b.snapshot.exhausted = true ↔ b.snapshot.maxAttempts ≤ b.snapshot.consumed

/-- Once a call was refused as exhausted, the limit is not raised above what is consumed. -/
def KeepsLimit (b : InferenceAttemptBudget) : Operation → Prop
  | .raiseMaxAttempts required => b.exhausted = true → min required.toNat (2 ^ 31 - 1) ≤ b.consumed
  | .reserve _ _ => True
  | .markDownstreamCommitted => True

variable {b : InferenceAttemptBudget}

/-- A call gets an attempt, or it changes at most the flag, which it sets when none is left. -/
theorem reserve_cases (b : InferenceAttemptBudget) (kind : InferenceAttemptKind)
    (preserveAttempts : UInt32) :
    (b.reserve kind preserveAttempts).1.maxAttempts = b.maxAttempts ∧
    (b.consumed < b.maxAttempts.toNat ∧
        (b.reserve kind preserveAttempts).1.exhausted = b.exhausted ∨
      (b.reserve kind preserveAttempts).1.consumed = b.consumed ∧
        ((b.reserve kind preserveAttempts).1.exhausted = b.exhausted ∨
          b.maxAttempts.toNat ≤ b.consumed)) := by
  unfold reserve afterUpdate updateState
  by_cases hcommitted : b.state &&& downstreamCommittedBit ≠ 0
  · simp only [if_pos hcommitted]
    exact ⟨rfl, Or.inr ⟨rfl, Or.inl rfl⟩⟩
  simp only [if_neg hcommitted]
  by_cases hless : b.state &&& consumedMask < effectiveLimit b.maxAttempts preserveAttempts
  · have hlt : b.consumed < b.maxAttempts.toNat := by
      have hlimit := toNat_effectiveLimit b.maxAttempts preserveAttempts
      have hless' : b.consumed < (effectiveLimit b.maxAttempts preserveAttempts).toNat :=
        UInt32.lt_iff_toNat_lt.mp hless
      omega
    simp only [if_pos hless]
    cases kind with
    | localCredential => exact ⟨rfl, Or.inl ⟨hlt, rfl⟩⟩
    | externalPool => exact ⟨rfl, Or.inl ⟨hlt, rfl⟩⟩
    | mcp => exact ⟨rfl, Or.inl ⟨hlt, rfl⟩⟩
  simp only [if_neg hless]
  by_cases hfallback : b.state &&& consumedMask < b.maxAttempts
  · simp only [if_pos hfallback]
    exact ⟨rfl, Or.inr ⟨rfl, Or.inl rfl⟩⟩
  · simp only [if_neg hfallback]
    rw [UInt32.lt_iff_toNat_lt] at hfallback
    exact ⟨rfl, Or.inr ⟨rfl, Or.inr (not_lt.mp hfallback)⟩⟩

theorem reported_iff : b.Reported ↔ (b.exhausted = true → b.maxAttempts.toNat ≤ b.consumed) := by
  have hle : b.snapshot.maxAttempts ≤ b.snapshot.consumed ↔ b.maxAttempts.toNat ≤ b.consumed :=
    UInt32.le_iff_toNat_le
  have hexhausted : b.snapshot.exhausted = true ↔
      b.maxAttempts.toNat ≤ b.consumed ∨ b.exhausted = true := by
    rw [snapshot, Bool.or_eq_true, decide_eq_true_iff]
    exact or_congr_left UInt32.le_iff_toNat_le
  rw [Reported, hexhausted, hle]
  constructor
  · exact fun h hflag => h.mp (Or.inr hflag)
  · exact fun h => ⟨fun hor => hor.elim id h, Or.inl⟩

theorem Reported.reserve (h : b.Reported) (kind : InferenceAttemptKind)
    (preserveAttempts : UInt32) : (b.reserve kind preserveAttempts).1.Reported := by
  rw [reported_iff] at h ⊢
  obtain ⟨hmax, ⟨hlt, hflag⟩ | ⟨hconsumed, hflag⟩⟩ := reserve_cases b kind preserveAttempts
  · intro hset
    rw [hflag] at hset
    exact absurd (h hset) (not_le.mpr hlt)
  · intro hset
    rw [hmax, hconsumed]
    rcases hflag with hflag | hle
    · rw [hflag] at hset
      exact h hset
    · exact hle

theorem reported_raiseMaxAttempts_iff (h : b.Reported) (required : UInt32) :
    (b.raiseMaxAttempts required).Reported ↔
      (b.exhausted = true → min required.toNat (2 ^ 31 - 1) ≤ b.consumed) := by
  rw [reported_iff] at h ⊢
  have hmax : (b.raiseMaxAttempts required).maxAttempts.toNat =
      max b.maxAttempts.toNat (min required.toNat (2 ^ 31 - 1)) := by
    rw [raiseMaxAttempts, toNat_max, toNat_min, toNat_consumedMask]
  have hconsumed : (b.raiseMaxAttempts required).consumed = b.consumed := rfl
  have hflag : (b.raiseMaxAttempts required).exhausted = b.exhausted := rfl
  rw [hmax, hconsumed, hflag]
  exact forall_congr' fun hset => by rw [Nat.max_le, and_iff_right (h hset)]

theorem Reported.markDownstreamCommitted (h : b.Reported) :
    b.markDownstreamCommitted.Reported := by
  rw [reported_iff] at h ⊢
  rw [consumed_markDownstreamCommitted]
  exact h

theorem reported_new (maxAttempts : UInt32) : (new maxAttempts).Reported :=
  reported_iff.mpr fun hset => by cases hset

theorem reported_perform_iff (h : b.Reported) (operation : Operation) :
    (∀ next ∈ b.perform operation, next.Reported) ↔ b.KeepsLimit operation := by
  have hsome (next : InferenceAttemptBudget) :
      (∀ t ∈ some next, t.Reported) ↔ next.Reported :=
    ⟨fun hall => hall next rfl, fun hnext t ht => Option.some.inj ht ▸ hnext⟩
  cases operation with
  | reserve kind preserveAttempts =>
    exact (hsome _).trans (iff_of_true (h.reserve kind preserveAttempts) trivial)
  | raiseMaxAttempts required => exact (hsome _).trans (reported_raiseMaxAttempts_iff h required)
  | markDownstreamCommitted =>
    exact (hsome _).trans (iff_of_true h.markDownstreamCommitted trivial)

theorem along_reported_iff (maxAttempts : UInt32) (operations : List Operation) :
    (new maxAttempts).Reported ∧
    (Transition.Along perform (fun b operation => ∀ next ∈ b.perform operation, next.Reported)
        (new maxAttempts) operations ↔
      Transition.Along perform KeepsLimit (new maxAttempts) operations) := by
  have hany : Transition.Along perform (fun _ _ => True) (new maxAttempts) operations :=
    Transition.along_of_forall (fun _ _ => trivial) _ _
  have hinv : ∀ b operation next, True → True → perform b operation = some next → True :=
    fun _ _ _ _ _ _ => trivial
  exact ⟨reported_new maxAttempts,
    Transition.along_good_iff hinv (fun _ operation _ _ h => reported_perform_iff h operation) hany
      trivial (reported_new maxAttempts)⟩

/-- The only attempt is consumed, another call is refused, and then the limit is raised. -/
theorem not_reported_afterRaise : ∃ b,
    Transition.run perform (new 1) [.reserve .localCredential 0, .reserve .localCredential 0,
      .raiseMaxAttempts 2] = some b ∧
    b.snapshot.exhausted = true ∧ b.snapshot.consumed < b.snapshot.maxAttempts :=
  ⟨_, rfl, by decide, by decide⟩

end KiroProxy.InferenceAttemptBudget
