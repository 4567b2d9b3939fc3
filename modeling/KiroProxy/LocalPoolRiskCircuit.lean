import KiroProxy.KeyedList
import KiroProxy.Transducer

/-!
# The risk circuit of the local pool

When enough credentials that have worked before are risk-controlled within a window, the local
pool takes no requests for an open period. Then a few probes are let through until a success
closes the circuit, a failure opens it again, or the half-open period ends. The three states are
kept in two optional fields, and the passing of time is noticed at the next call only. Instants and
durations count nanoseconds.
-/

namespace KiroProxy
open Transducer

inductive CredentialRiskControlReason where
  | temporarilySuspended
  | accountSuspended
  | accountLocked
  deriving DecidableEq, Repr

structure LocalPoolRiskCircuit where
  failures : List (ℕ × ℕ)
  openUntil : Option ℕ
  reason : Option CredentialRiskControlReason
  /-- The probes left and the end of the half-open period. -/
  halfOpen : Option (ℕ × ℕ)
  deriving DecidableEq, Repr

namespace LocalPoolRiskCircuit

structure Config where
  localPoolCircuitEnabled : Bool
  localPoolCircuitWindowSecs : ℕ
  localPoolCircuitOpenAfterFailures : ℕ
  localPoolCircuitRequireDistinctCredentials : ℕ
  localPoolCircuitMinRatioPercent : ℕ
  localPoolCircuitOpenSecs : ℕ
  localPoolCircuitHalfOpenProbes : ℕ
  deriving DecidableEq, Repr

def default : LocalPoolRiskCircuit := ⟨[], none, none, none⟩

structure Snapshot where
  isOpen : Bool
  retryAfter : Option ℕ
  deriving DecidableEq, Repr

def Snapshot.default : Snapshot := ⟨false, none⟩

def seconds (n : ℕ) : ℕ := n * 10 ^ 9

/-- The last instant, `i64::MAX` seconds and the nanoseconds of one more. -/
def instantMax : ℕ := 2 ^ 63 * 10 ^ 9 - 1

def checkedAdd (now duration : ℕ) : Option ℕ :=
  if now + duration ≤ instantMax then some (now + duration) else none

def Config.window (config : Config) : ℕ := seconds (max config.localPoolCircuitWindowSecs 1)

def Config.openFor (config : Config) : ℕ := seconds (max config.localPoolCircuitOpenSecs 1)

def Config.probes (config : Config) : ℕ := max config.localPoolCircuitHalfOpenProbes 1

def Config.requiredDistinct (config : Config) : ℕ :=
  max (max config.localPoolCircuitRequireDistinctCredentials
    config.localPoolCircuitOpenAfterFailures) 1

def Config.minRatioPercent (config : Config) : ℕ := min config.localPoolCircuitMinRatioPercent 100

def periodEnd (config : Config) (start : ℕ) : ℕ := (checkedAdd start config.openFor).getD start

/-- The open period over, a few probes are let through. -/
def endOpen (config : Config) (now : ℕ) (circuit : LocalPoolRiskCircuit) : LocalPoolRiskCircuit :=
  match circuit.openUntil.filter (· ≤ now) with
  | none => circuit
  | some openEnd =>
    { circuit with
      openUntil := none
      halfOpen := some (config.probes, periodEnd config openEnd) }

def endHalfOpen (now : ℕ) (circuit : LocalPoolRiskCircuit) : LocalPoolRiskCircuit :=
  match circuit.halfOpen with
  | none => circuit
  | some halfOpen =>
    if now < halfOpen.2 then circuit else { circuit with halfOpen := none, reason := none }

def prune (config : Config) (now : ℕ) (circuit : LocalPoolRiskCircuit) : LocalPoolRiskCircuit :=
  endHalfOpen now <| endOpen config now { circuit with
    failures := circuit.failures.filter fun failure => now - failure.2 ≤ config.window }

def snapshotLocked (circuit : LocalPoolRiskCircuit) (now : ℕ) : Snapshot :=
  let blockedUntil := (circuit.openUntil.filter (now < ·)).or
    ((circuit.halfOpen.filter fun halfOpen => halfOpen.1 = 0 ∧ now < halfOpen.2).map Prod.snd)
  ⟨blockedUntil.isSome, blockedUntil.map (· - now)⟩

def snapshot (config : Config) (now : ℕ) (circuit : LocalPoolRiskCircuit) :
    Snapshot × LocalPoolRiskCircuit :=
  if !config.localPoolCircuitEnabled then (.default, circuit)
  else
    let circuit := circuit.prune config now
    (circuit.snapshotLocked now, circuit)

/-- `none` where the request is admitted, else how long to wait. -/
def admitRequest (config : Config) (now : ℕ) (circuit : LocalPoolRiskCircuit) :
    Option ℕ × LocalPoolRiskCircuit :=
  if !config.localPoolCircuitEnabled then (none, circuit)
  else
    let circuit := circuit.prune config now
    match (circuit.snapshotLocked now).retryAfter with
    | some retryAfter => (some retryAfter, circuit)
    | none =>
      (none, { circuit with
        halfOpen := circuit.halfOpen.map fun halfOpen => (halfOpen.1 - 1, halfOpen.2) })

def recordSuccess (circuit : LocalPoolRiskCircuit) : LocalPoolRiskCircuit :=
  match circuit.halfOpen with
  | none => circuit
  | some _ => { circuit with halfOpen := none, reason := none }

def ratioReached (config : Config) (distinctCredentials dispatchableNow : ℕ) : Bool :=
  config.minRatioPercent = 0 ||
    (distinctCredentials + dispatchableNow) * config.minRatioPercent ≤ distinctCredentials * 100

/-- Whether the circuit opens on the failure that has just been added. -/
def opens (config : Config) (now dispatchableNow : ℕ) (circuit : LocalPoolRiskCircuit) : Bool :=
  let distinctCredentials := circuit.failures.length
  let alreadyOpen := circuit.openUntil.any (now < ·)
  !alreadyOpen && (circuit.halfOpen.isSome ||
    (config.requiredDistinct ≤ distinctCredentials &&
      ratioReached config distinctCredentials dispatchableNow))

def opened (config : Config) (now : ℕ) (reason : CredentialRiskControlReason) :
    LocalPoolRiskCircuit where
  failures := []
  openUntil := some (periodEnd config now)
  reason := some reason
  halfOpen := none

def insertFailure (now credentialId : ℕ) (circuit : LocalPoolRiskCircuit) : LocalPoolRiskCircuit :=
  { circuit with failures := KeyedList.insert credentialId now circuit.failures }

/-- The first component is whether the call has opened the circuit, which is logged. -/
def recordFailure (config : Config) (now credentialId : ℕ) (reason : CredentialRiskControlReason)
    (everSucceeded : Bool) (dispatchableNow : ℕ) (circuit : LocalPoolRiskCircuit) :
    Bool × Snapshot × LocalPoolRiskCircuit :=
  if !config.localPoolCircuitEnabled then (false, .default, circuit)
  else
    let circuit := circuit.prune config now
    if !everSucceeded then (false, circuit.snapshotLocked now, circuit)
    else
      let circuit := circuit.insertFailure now credentialId
      if circuit.opens config now dispatchableNow then
        let circuit := opened config now reason
        (true, circuit.snapshotLocked now, circuit)
      else (false, circuit.snapshotLocked now, circuit)

inductive Call where
  | admitRequest (now : ℕ)
  | success (now : ℕ)
  | failure (now credentialId : ℕ) (reason : CredentialRiskControlReason) (everSucceeded : Bool)
    (dispatchableNow : ℕ)
  | snapshot (now : ℕ)
  deriving DecidableEq, Repr

def Call.now : Call → ℕ
  | .admitRequest now => now
  | .success now => now
  | .failure now _ _ _ _ => now
  | .snapshot now => now

inductive Outcome where
  | admitted
  | refused (retryAfter : ℕ)
  | succeeded
  | failed (opened : Bool) (snapshot : Snapshot)
  | seen (snapshot : Snapshot)
  deriving DecidableEq, Repr

def step (config : Config) (circuit : LocalPoolRiskCircuit) : Call → LocalPoolRiskCircuit × Outcome
  | .admitRequest now =>
    match circuit.admitRequest config now with
    | (none, circuit) => (circuit, .admitted)
    | (some retryAfter, circuit) => (circuit, .refused retryAfter)
  | .success _ => (circuit.recordSuccess, .succeeded)
  | .failure now credentialId reason everSucceeded dispatchableNow =>
    let (opened, seen, circuit) :=
      circuit.recordFailure config now credentialId reason everSucceeded dispatchableNow
    (circuit, .failed opened seen)
  | .snapshot now =>
    let (seen, circuit) := circuit.snapshot config now
    (circuit, .seen seen)

/-- The circuit with what is remembered of the run: when it was last opened, and the failures of
credentials that have succeeded before since then. -/
structure System where
  circuit : LocalPoolRiskCircuit
  lastOpening : Option ℕ
  failed : List (ℕ × ℕ)
  deriving DecidableEq, Repr

def System.next (config : Config) (s : System) (call : Call) : System × List Outcome :=
  let (circuit, outcome) := s.circuit.step config call
  match call, outcome with
  | .failure now _ _ _ _, .failed true _ => (⟨circuit, some now, []⟩, [outcome])
  | .failure now credentialId _ true _, _ =>
    ({ s with circuit, failed := s.failed ++ [(credentialId, now)] }, [outcome])
  | _, _ => ({ s with circuit }, [outcome])

def System.new : System := ⟨.default, none, []⟩

def after (config : Config) (calls : List Call) : System :=
  (run (System.next config) .new calls).1

def outcomes (config : Config) (before calls : List Call) : List Outcome :=
  (run (System.next config) (after config before) calls).2

variable {config : Config} {circuit : LocalPoolRiskCircuit} {now : ℕ}

theorem periodEnd_le (config : Config) (start : ℕ) :
    periodEnd config start ≤ start + config.openFor := by
  rw [periodEnd, checkedAdd]
  by_cases h : start + config.openFor ≤ instantMax
  · rw [if_pos h, Option.getD_some]
  · rw [if_neg h, Option.getD_none]
    exact Nat.le_add_right _ _

def recent (config : Config) (now : ℕ) (failures : List (ℕ × ℕ)) : List (ℕ × ℕ) :=
  failures.filter fun failure => now - failure.2 ≤ config.window

theorem prune_failures (config : Config) (now : ℕ) (circuit : LocalPoolRiskCircuit) :
    (circuit.prune config now).failures = recent config now circuit.failures := by
  unfold prune endHalfOpen endOpen
  dsimp only
  cases circuit.openUntil.filter (· ≤ now) with
  | none =>
    dsimp only
    cases circuit.halfOpen with
    | none => rfl
    | some halfOpen =>
      dsimp only
      split_ifs
      · rfl
      · rfl
  | some openEnd =>
    dsimp only
    split_ifs
    · rfl
    · rfl

variable {openEnd left halfOpenEnd : ℕ} {call : Call}

theorem prune_of_open (hopen : circuit.openUntil = some openEnd) (hhalf : circuit.halfOpen = none)
    (hlt : now < openEnd) :
    circuit.prune config now = { circuit with failures := recent config now circuit.failures } := by
  have hfilter : circuit.openUntil.filter (· ≤ now) = none := by
    rw [hopen, Option.filter_some, if_neg (by simpa using hlt)]
  unfold prune endOpen endHalfOpen
  dsimp only
  rw [hfilter]
  dsimp only
  rw [hhalf]
  rfl

theorem prune_of_opened (hopen : circuit.openUntil = some openEnd) (hle : openEnd ≤ now) :
    circuit.prune config now =
      if now < periodEnd config openEnd then
        { circuit with
          failures := recent config now circuit.failures
          openUntil := none
          halfOpen := some (config.probes, periodEnd config openEnd) }
      else
        { circuit with
          failures := recent config now circuit.failures
          openUntil := none
          reason := none
          halfOpen := none } := by
  have hfilter : circuit.openUntil.filter (· ≤ now) = some openEnd := by
    rw [hopen, Option.filter_some, if_pos (by simpa using hle)]
  unfold prune endOpen endHalfOpen
  dsimp only
  rw [hfilter]
  rfl

theorem prune_of_halfOpen (hopen : circuit.openUntil = none)
    (hhalf : circuit.halfOpen = some (left, halfOpenEnd)) :
    circuit.prune config now =
      if now < halfOpenEnd then { circuit with failures := recent config now circuit.failures }
      else { circuit with
        failures := recent config now circuit.failures
        reason := none
        halfOpen := none } := by
  unfold prune endOpen endHalfOpen
  dsimp only
  rw [hopen]
  dsimp only [Option.filter_none]
  rw [hhalf]
  rfl

theorem prune_of_closed (hopen : circuit.openUntil = none) (hhalf : circuit.halfOpen = none) :
    circuit.prune config now = { circuit with failures := recent config now circuit.failures } := by
  unfold prune endOpen endHalfOpen
  dsimp only
  rw [hopen]
  dsimp only [Option.filter_none]
  rw [hhalf]
  rfl

theorem next_fst_circuit (config : Config) (s : System) (call : Call) :
    (s.next config call).1.circuit = (s.circuit.step config call).1 := by
  unfold System.next
  dsimp only
  split
  · rfl
  · rfl
  · rfl

theorem next_snd (config : Config) (s : System) (call : Call) :
    (s.next config call).2 = [(s.circuit.step config call).2] := by
  unfold System.next
  dsimp only
  split
  · rename_i heq
    rw [heq]
  · rfl
  · rfl

section Enabled

variable (henabled : config.localPoolCircuitEnabled = true)

include henabled

theorem step_failure (circuit : LocalPoolRiskCircuit) (now credentialId : ℕ)
    (reason : CredentialRiskControlReason) (dispatchableNow : ℕ) : ∃ seen,
    circuit.step config (.failure now credentialId reason true dispatchableNow) =
      if ((circuit.prune config now).insertFailure now credentialId).opens config now
          dispatchableNow then (opened config now reason, .failed true seen)
      else ((circuit.prune config now).insertFailure now credentialId, .failed false seen) := by
  unfold step recordFailure
  dsimp only
  rw [henabled, Bool.not_true, if_neg Bool.false_ne_true, if_neg Bool.false_ne_true]
  split_ifs
  · exact ⟨_, rfl⟩
  · exact ⟨_, rfl⟩

theorem step_failure_never (circuit : LocalPoolRiskCircuit) (now credentialId : ℕ)
    (reason : CredentialRiskControlReason) (dispatchableNow : ℕ) :
    circuit.step config (.failure now credentialId reason false dispatchableNow) =
      (circuit.prune config now,
        .failed false ((circuit.prune config now).snapshotLocked now)) := by
  unfold step recordFailure
  dsimp only
  rw [henabled]
  rfl

theorem step_snapshot (circuit : LocalPoolRiskCircuit) (now : ℕ) :
    circuit.step config (.snapshot now) =
      (circuit.prune config now, .seen ((circuit.prune config now).snapshotLocked now)) := by
  unfold step snapshot
  dsimp only
  rw [henabled]
  rfl

theorem step_admitRequest (circuit : LocalPoolRiskCircuit) (now : ℕ) :
    circuit.step config (.admitRequest now) =
      match ((circuit.prune config now).snapshotLocked now).retryAfter with
      | some retryAfter => (circuit.prune config now, .refused retryAfter)
      | none =>
        ({ circuit.prune config now with
            halfOpen := (circuit.prune config now).halfOpen.map fun halfOpen =>
              (halfOpen.1 - 1, halfOpen.2) }, .admitted) := by
  unfold step admitRequest
  dsimp only
  rw [henabled, Bool.not_true, if_neg Bool.false_ne_true]
  cases ((circuit.prune config now).snapshotLocked now).retryAfter with
  | none => rfl
  | some retryAfter => rfl

end Enabled

theorem retryAfter_of_open (hopen : circuit.openUntil = some openEnd) (hlt : now < openEnd) :
    (circuit.snapshotLocked now).retryAfter = some (openEnd - now) := by
  unfold snapshotLocked
  dsimp only
  rw [hopen, Option.filter_some, if_pos (decide_eq_true hlt)]
  rfl

theorem retryAfter_of_used (hopen : circuit.openUntil = none)
    (hhalf : circuit.halfOpen = some (0, halfOpenEnd)) (hlt : now < halfOpenEnd) :
    (circuit.snapshotLocked now).retryAfter = some (halfOpenEnd - now) := by
  unfold snapshotLocked
  dsimp only
  rw [hopen, hhalf, Option.filter_some, if_pos (by simpa using hlt)]
  rfl

theorem retryAfter_of_left (hopen : circuit.openUntil = none)
    (hhalf : circuit.halfOpen = some (left + 1, halfOpenEnd)) :
    (circuit.snapshotLocked now).retryAfter = none := by
  unfold snapshotLocked
  dsimp only
  rw [hopen, hhalf, Option.filter_some, if_neg (by simp)]
  rfl

def IsOpen (openEnd : ℕ) (circuit : LocalPoolRiskCircuit) : Prop :=
  circuit.openUntil = some openEnd ∧ circuit.halfOpen = none

theorem IsOpen.step (h : circuit.IsOpen openEnd) (henabled : config.localPoolCircuitEnabled = true)
    (hlt : call.now < openEnd) :
    (circuit.step config call).1.IsOpen openEnd ∧ (circuit.step config call).2 ≠ .admitted := by
  obtain ⟨hopen, hhalf⟩ := h
  have hprune : circuit.prune config call.now =
      { circuit with failures := recent config call.now circuit.failures } :=
    prune_of_open hopen hhalf hlt
  have hpruned : (circuit.prune config call.now).IsOpen openEnd := by
    rw [hprune]
    exact ⟨hopen, hhalf⟩
  cases call with
  | admitRequest now =>
    have hretry : ((circuit.prune config now).snapshotLocked now).retryAfter =
        some (openEnd - now) := retryAfter_of_open hpruned.1 hlt
    rw [step_admitRequest henabled, hretry]
    exact ⟨hpruned, by simp⟩
  | success now =>
    have hsame : circuit.recordSuccess = circuit := by
      unfold recordSuccess
      rw [hhalf]
    rw [LocalPoolRiskCircuit.step, hsame]
    exact ⟨⟨hopen, hhalf⟩, by simp⟩
  | failure now credentialId reason everSucceeded dispatchableNow =>
    cases everSucceeded with
    | false =>
      rw [step_failure_never henabled]
      exact ⟨hpruned, by simp⟩
    | true =>
      have hopen' : (circuit.prune config now).openUntil = some openEnd := hpruned.1
      have hlt : now < openEnd := hlt
      obtain ⟨seen, heq⟩ := step_failure henabled circuit now credentialId reason dispatchableNow
      have hnot : ((circuit.prune config now).insertFailure now credentialId).opens config now
          dispatchableNow = false := by
        unfold opens insertFailure
        dsimp only
        rw [hopen', Option.any_some, decide_eq_true hlt]
        rfl
      rw [heq, hnot]
      exact ⟨hpruned, by simp⟩
  | snapshot now =>
    rw [step_snapshot henabled]
    exact ⟨hpruned, by simp⟩

def Probing (config : Config) (openEnd left : ℕ) (circuit : LocalPoolRiskCircuit) : Prop :=
  (circuit.IsOpen openEnd ∧ left = config.probes) ∨
  (circuit.openUntil = none ∧ circuit.halfOpen = some (left, periodEnd config openEnd))

theorem Probing.prune (h : circuit.Probing config openEnd left) (hle : openEnd ≤ now)
    (hlt : now < periodEnd config openEnd) :
    (circuit.prune config now).openUntil = none ∧
      (circuit.prune config now).halfOpen = some (left, periodEnd config openEnd) := by
  rcases h with ⟨⟨hopen, -⟩, rfl⟩ | ⟨hopen, hhalf⟩
  · rw [prune_of_opened hopen hle, if_pos hlt]
    exact ⟨rfl, rfl⟩
  · rw [prune_of_halfOpen hopen hhalf, if_pos hlt]
    exact ⟨hopen, hhalf⟩

/-- Neither a success nor a counted failure. -/
def Call.IsNeutral : Call → Prop
  | .success _ => False
  | .failure _ _ _ everSucceeded _ => everSucceeded = false
  | _ => True

/-- A request takes a probe, and other neutral calls none. -/
theorem Probing.step (h : circuit.Probing config openEnd left)
    (henabled : config.localPoolCircuitEnabled = true) (hneutral : call.IsNeutral)
    (hle : openEnd ≤ call.now) (hlt : call.now < periodEnd config openEnd) :
    ∃ left', (circuit.step config call).1.Probing config openEnd left' ∧
      left' + [(circuit.step config call).2].count .admitted = left := by
  obtain ⟨hopen, hhalf⟩ := h.prune hle hlt
  cases call with
  | admitRequest now =>
    rw [step_admitRequest henabled]
    cases left with
    | zero =>
      have hretry : ((circuit.prune config now).snapshotLocked now).retryAfter =
          some (periodEnd config openEnd - now) := retryAfter_of_used hopen hhalf hlt
      rw [hretry]
      exact ⟨0, .inr ⟨hopen, hhalf⟩, by simp⟩
    | succ left =>
      have hretry : ((circuit.prune config now).snapshotLocked now).retryAfter = none :=
        retryAfter_of_left hopen hhalf
      have htaken : (circuit.prune config now).halfOpen.map (fun halfOpen =>
          (halfOpen.1 - 1, halfOpen.2)) = some (left, periodEnd config openEnd) :=
        congrArg (Option.map fun halfOpen => (halfOpen.1 - 1, halfOpen.2)) hhalf
      rw [hretry]
      exact ⟨left, .inr ⟨hopen, htaken⟩, by simp⟩
  | success now => cases hneutral
  | failure now credentialId reason everSucceeded dispatchableNow =>
    obtain rfl : everSucceeded = false := hneutral
    rw [step_failure_never henabled]
    exact ⟨left, .inr ⟨hopen, hhalf⟩, by simp⟩
  | snapshot now =>
    rw [step_snapshot henabled]
    exact ⟨left, .inr ⟨hopen, hhalf⟩, by simp⟩

theorem IsOpen.run {s : System} (h : s.circuit.IsOpen openEnd)
    (henabled : config.localPoolCircuitEnabled = true) {calls : List Call}
    (hlt : ∀ call ∈ calls, call.now < openEnd) :
    (run (System.next config) s calls).1.circuit.IsOpen openEnd ∧
      Outcome.admitted ∉ (run (System.next config) s calls).2 := by
  induction calls generalizing s with
  | nil => exact ⟨h, List.not_mem_nil⟩
  | cons call calls ih =>
    obtain ⟨hnext, hout⟩ := h.step henabled (hlt call List.mem_cons_self)
    rw [← next_fst_circuit] at hnext
    obtain ⟨hend, hrest⟩ := ih hnext fun call' hmem => hlt call' (List.mem_cons_of_mem _ hmem)
    rw [run_cons, next_snd]
    refine ⟨hend, ?_⟩
    rw [List.mem_append, List.mem_singleton, not_or]
    exact ⟨hout.symm, hrest⟩

theorem Probing.run {s : System} (h : s.circuit.Probing config openEnd left)
    (henabled : config.localPoolCircuitEnabled = true) {calls : List Call}
    (hneutral : ∀ call ∈ calls, call.IsNeutral)
    (hbounds : ∀ call ∈ calls, openEnd ≤ call.now ∧ call.now < periodEnd config openEnd) :
    ((run (System.next config) s calls).2).count .admitted ≤ left := by
  induction calls generalizing s left with
  | nil => exact Nat.zero_le _
  | cons call calls ih =>
    obtain ⟨hle, hlt⟩ := hbounds call List.mem_cons_self
    obtain ⟨left', hnext, hcount⟩ := h.step henabled (hneutral call List.mem_cons_self) hle hlt
    rw [← next_fst_circuit] at hnext
    have hrest := ih hnext (fun call' hmem => hneutral call' (List.mem_cons_of_mem _ hmem))
      (fun call' hmem => hbounds call' (List.mem_cons_of_mem _ hmem))
    rw [run_cons, next_snd, List.count_append]
    omega

/-- What a call that opens the circuit leaves. -/
theorem step_opened (henabled : config.localPoolCircuitEnabled = true) {seen : Snapshot}
    (hopened : (circuit.step config call).2 = .failed true seen) :
    ∃ now credentialId reason dispatchableNow,
      call = .failure now credentialId reason true dispatchableNow ∧
      ((circuit.prune config now).insertFailure now credentialId).opens config now
        dispatchableNow = true ∧
      (circuit.step config call).1 = opened config now reason := by
  cases call with
  | admitRequest now =>
    rw [step_admitRequest henabled] at hopened
    cases hretry : ((circuit.prune config now).snapshotLocked now).retryAfter with
    | none =>
      rw [hretry] at hopened
      cases hopened
    | some retryAfter =>
      rw [hretry] at hopened
      cases hopened
  | success now => cases hopened
  | failure now credentialId reason everSucceeded dispatchableNow =>
    cases everSucceeded with
    | false =>
      rw [step_failure_never henabled] at hopened
      cases hopened
    | true =>
      obtain ⟨seen', heq⟩ := step_failure henabled circuit now credentialId reason dispatchableNow
      rw [heq] at hopened ⊢
      split_ifs at hopened ⊢ with hopens
      · exact ⟨now, credentialId, reason, dispatchableNow, rfl, hopens, rfl⟩
      · cases hopened
  | snapshot now =>
    rw [step_snapshot henabled] at hopened
    cases hopened

/-- The map holds the last failure of every credential that has failed within the window. -/
structure Remembers (config : Config) (clock : ℕ) (failures failed : List (ℕ × ℕ)) : Prop where
  keys : (failures.map Prod.fst).Nodup
  sound : ∀ failure ∈ failures, failure ∈ failed
  le : ∀ failure ∈ failed, failure.2 ≤ clock
  last : ∀ failure ∈ failed, clock - failure.2 ≤ config.window →
    ∃ last, (failure.1, last) ∈ failures ∧ failure.2 ≤ last

variable {clock : ℕ} {failures failed : List (ℕ × ℕ)}

theorem Remembers.recent (h : Remembers config clock failures failed) (hle : clock ≤ now) :
    Remembers config now (recent config now failures) failed where
  keys := h.keys.sublist (List.filter_sublist.map Prod.fst)
  sound failure hmem := h.sound failure (List.mem_of_mem_filter hmem)
  le failure hmem := (h.le failure hmem).trans hle
  last failure hmem hwithin := by
    obtain ⟨last, hlast, hfailure⟩ := h.last failure hmem (by omega)
    exact ⟨last, List.mem_filter.mpr ⟨hlast, decide_eq_true (by dsimp only; omega)⟩, hfailure⟩

theorem Remembers.later (h : Remembers config clock failures failed) (hle : clock ≤ now) :
    Remembers config now failures failed where
  keys := h.keys
  sound := h.sound
  le failure hmem := (h.le failure hmem).trans hle
  last failure hmem hwithin := h.last failure hmem (by omega)

theorem Remembers.insert (h : Remembers config now failures failed) (credentialId : ℕ) :
    Remembers config now (KeyedList.insert credentialId now failures)
      (failed ++ [(credentialId, now)]) where
  keys := KeyedList.nodup_keys_insert h.keys _ _
  sound failure hmem := by
    rcases KeyedList.mem_insert hmem with heq | hmem
    · rw [heq]
      exact List.mem_append_right _ (List.mem_singleton_self _)
    · exact List.mem_append_left _ (h.sound failure hmem)
  le failure hmem := by
    rcases List.mem_append.mp hmem with hmem | hmem
    · exact h.le failure hmem
    · rw [List.mem_singleton.mp hmem]
  last failure hmem hwithin := by
    have hself : (credentialId, now) ∈ KeyedList.insert credentialId now failures :=
      KeyedList.mem_of_get (KeyedList.get_insert_self _ _ _)
    rcases List.mem_append.mp hmem with hmem | hmem
    · by_cases heq : failure.1 = credentialId
      · rw [heq]
        exact ⟨now, hself, h.le failure hmem⟩
      · obtain ⟨last, hlast, hfailure⟩ := h.last failure hmem hwithin
        refine ⟨last, KeyedList.mem_of_get ?_, hfailure⟩
        rw [KeyedList.get_insert_of_ne heq]
        exact (KeyedList.get_eq_some_iff h.keys).mpr hlast
    · rw [List.mem_singleton.mp hmem]
      exact ⟨now, hself, le_rfl⟩

/-- The credentials that have failed within the window. -/
def distinctFailed (config : Config) (now : ℕ) (failed : List (ℕ × ℕ)) : Finset ℕ :=
  ((recent config now failed).map Prod.fst).toFinset

theorem Remembers.length (h : Remembers config now failures failed)
    (hwithin : ∀ failure ∈ failures, now - failure.2 ≤ config.window) :
    failures.length = (distinctFailed config now failed).card := by
  rw [← List.length_map Prod.fst, ← List.toFinset_card_of_nodup h.keys]
  congr 1
  ext credentialId
  simp only [distinctFailed, List.mem_toFinset, List.mem_map]
  constructor
  · rintro ⟨failure, hmem, rfl⟩
    exact ⟨failure, List.mem_filter.mpr ⟨h.sound failure hmem,
      decide_eq_true (hwithin failure hmem)⟩, rfl⟩
  · rintro ⟨failure, hmem, rfl⟩
    obtain ⟨hmem, hrecent⟩ := List.mem_filter.mp hmem
    obtain ⟨last, hlast, -⟩ := h.last failure hmem (of_decide_eq_true hrecent)
    exact ⟨_, hlast, rfl⟩

structure Dated (config : Config) (circuit : LocalPoolRiskCircuit) (lastOpening : Option ℕ) :
    Prop where
  openUntil : ∀ openEnd, circuit.openUntil = some openEnd → circuit.halfOpen = none ∧
    ∃ opening, lastOpening = some opening ∧ openEnd ≤ opening + config.openFor
  halfOpen : ∀ left halfOpenEnd, circuit.halfOpen = some (left, halfOpenEnd) →
    circuit.openUntil = none ∧
    ∃ opening, lastOpening = some opening ∧ halfOpenEnd ≤ opening + 2 * config.openFor

variable {lastOpening : Option ℕ}

theorem Dated.closed (hopen : circuit.openUntil = none) (hhalf : circuit.halfOpen = none) :
    Dated config circuit lastOpening where
  openUntil openEnd h := by rw [hopen] at h; cases h
  halfOpen left halfOpenEnd h := by rw [hhalf] at h; cases h

theorem Dated.prune (h : Dated config circuit lastOpening) (now : ℕ) :
    Dated config (circuit.prune config now) lastOpening := by
  cases hopen : circuit.openUntil with
  | some openEnd =>
    obtain ⟨hhalf, opening, hopening, hle⟩ := h.openUntil openEnd hopen
    by_cases hlt : now < openEnd
    · rw [prune_of_open hopen hhalf hlt]
      exact ⟨h.openUntil, h.halfOpen⟩
    · rw [prune_of_opened hopen (Nat.le_of_not_lt hlt)]
      split_ifs
      · have hperiod := periodEnd_le config openEnd
        refine ⟨fun _ heq => (by cases heq), fun left halfOpenEnd heq => ⟨rfl, opening, hopening, ?_⟩⟩
        obtain ⟨-, rfl⟩ := Prod.mk.inj (Option.some.inj heq)
        omega
      · exact Dated.closed rfl rfl
  | none =>
    cases hhalf : circuit.halfOpen with
    | none =>
      rw [prune_of_closed hopen hhalf]
      exact Dated.closed hopen hhalf
    | some halfOpen =>
      rw [prune_of_halfOpen hopen hhalf]
      split_ifs
      · exact ⟨h.openUntil, h.halfOpen⟩
      · exact Dated.closed hopen rfl

theorem Dated.refused (h : Dated config circuit lastOpening)
    (hretry : (circuit.snapshotLocked now).retryAfter ≠ none) :
    ∃ opening, lastOpening = some opening ∧ now < opening + 2 * config.openFor := by
  cases hopen : circuit.openUntil with
  | some openEnd =>
    obtain ⟨hhalf, opening, hopening, hle⟩ := h.openUntil openEnd hopen
    refine ⟨opening, hopening, ?_⟩
    by_contra hge
    apply hretry
    unfold snapshotLocked
    dsimp only
    rw [hopen, hhalf, Option.filter_some, if_neg (by simp; omega)]
    rfl
  | none =>
    cases hhalf : circuit.halfOpen with
    | none =>
      refine absurd ?_ hretry
      unfold snapshotLocked
      dsimp only
      rw [hopen, hhalf]
      rfl
    | some halfOpen =>
      obtain ⟨-, opening, hopening, hle⟩ := h.halfOpen halfOpen.1 halfOpen.2 hhalf
      refine ⟨opening, hopening, ?_⟩
      by_contra hge
      apply hretry
      unfold snapshotLocked
      dsimp only
      rw [hopen, hhalf, Option.filter_some, if_neg (by simp; omega)]
      rfl

/-- What holds of the system when the last call was made at `clock`. -/
structure Inv (config : Config) (clock : ℕ) (s : System) : Prop where
  dated : Dated config s.circuit s.lastOpening
  remembers : Remembers config clock s.circuit.failures s.failed

theorem Remembers.nil (config : Config) (now : ℕ) : Remembers config now [] [] :=
  ⟨List.nodup_nil, nofun, nofun, nofun⟩

theorem Inv.new (config : Config) : Inv config 0 .new where
  dated := Dated.closed rfl rfl
  remembers := Remembers.nil config 0

variable {s : System}

theorem Dated.admitted (h : Dated config circuit lastOpening) :
    Dated config { circuit with
      halfOpen := circuit.halfOpen.map fun halfOpen => (halfOpen.1 - 1, halfOpen.2) }
      lastOpening where
  openUntil openEnd heq := by
    obtain ⟨hhalf, hopening⟩ := h.openUntil openEnd heq
    exact ⟨by rw [hhalf]; rfl, hopening⟩
  halfOpen left halfOpenEnd heq := by
    obtain ⟨halfOpen, hhalf, hpair⟩ := Option.map_eq_some_iff.mp heq
    obtain ⟨-, rfl⟩ := Prod.mk.inj hpair
    exact h.halfOpen halfOpen.1 halfOpen.2 hhalf

theorem Dated.success (h : Dated config circuit lastOpening) :
    Dated config circuit.recordSuccess lastOpening := by
  unfold recordSuccess
  cases hhalf : circuit.halfOpen with
  | none => exact h
  | some halfOpen => exact Dated.closed (h.halfOpen halfOpen.1 halfOpen.2 hhalf).1 rfl

theorem recordSuccess_failures (circuit : LocalPoolRiskCircuit) :
    circuit.recordSuccess.failures = circuit.failures := by
  unfold recordSuccess
  cases circuit.halfOpen with
  | none => rfl
  | some halfOpen => rfl

theorem Dated.opened (config : Config) (now : ℕ) (reason : CredentialRiskControlReason) :
    Dated config (opened config now reason) (some now) where
  openUntil openEnd heq := by
    obtain rfl := Option.some.inj heq
    exact ⟨rfl, now, rfl, periodEnd_le config now⟩
  halfOpen left halfOpenEnd heq := by cases heq

theorem Remembers.prune (h : Remembers config clock circuit.failures failed) (hle : clock ≤ now) :
    Remembers config now (circuit.prune config now).failures failed := by
  rw [prune_failures]
  exact h.recent hle

theorem next_failure (henabled : config.localPoolCircuitEnabled = true) (s : System)
    (now credentialId : ℕ) (reason : CredentialRiskControlReason) (dispatchableNow : ℕ) :
    (s.next config (.failure now credentialId reason true dispatchableNow)).1 =
      if ((s.circuit.prune config now).insertFailure now credentialId).opens config now
          dispatchableNow then ⟨opened config now reason, some now, []⟩
      else ⟨(s.circuit.prune config now).insertFailure now credentialId, s.lastOpening,
        s.failed ++ [(credentialId, now)]⟩ := by
  obtain ⟨seen, heq⟩ := step_failure henabled s.circuit now credentialId reason dispatchableNow
  unfold System.next
  rw [heq]
  split_ifs
  · rfl
  · rfl

theorem next_failure_never (henabled : config.localPoolCircuitEnabled = true) (s : System)
    (now credentialId : ℕ) (reason : CredentialRiskControlReason) (dispatchableNow : ℕ) :
    (s.next config (.failure now credentialId reason false dispatchableNow)).1 =
      { s with circuit := s.circuit.prune config now } := by
  unfold System.next
  rw [step_failure_never henabled]

theorem next_admitRequest (config : Config) (s : System) (now : ℕ) :
    (s.next config (.admitRequest now)).1 =
      { s with circuit := (s.circuit.step config (.admitRequest now)).1 } := rfl

theorem Inv.next (h : Inv config clock s) (henabled : config.localPoolCircuitEnabled = true)
    (hle : clock ≤ call.now) : Inv config call.now (s.next config call).1 := by
  cases call with
  | admitRequest now =>
    have hdated := h.dated.prune now
    have hremembers : Remembers config now (s.circuit.prune config now).failures s.failed :=
      h.remembers.prune hle
    rw [next_admitRequest, step_admitRequest henabled]
    cases ((s.circuit.prune config now).snapshotLocked now).retryAfter with
    | none => exact ⟨hdated.admitted, hremembers⟩
    | some retryAfter => exact ⟨hdated, hremembers⟩
  | success now =>
    refine ⟨h.dated.success, ?_⟩
    have hremembers := h.remembers.later hle
    rw [← recordSuccess_failures] at hremembers
    exact hremembers
  | failure now credentialId reason everSucceeded dispatchableNow =>
    have hdated := h.dated.prune now
    have hremembers : Remembers config now (s.circuit.prune config now).failures s.failed :=
      h.remembers.prune hle
    cases everSucceeded with
    | false =>
      rw [next_failure_never henabled]
      exact ⟨hdated, hremembers⟩
    | true =>
      rw [next_failure henabled]
      split_ifs
      · exact ⟨Dated.opened config now reason, Remembers.nil config now⟩
      · exact ⟨⟨hdated.openUntil, hdated.halfOpen⟩, hremembers.insert credentialId⟩
  | snapshot now =>
    have hcircuit := next_fst_circuit config s (.snapshot now)
    rw [step_snapshot henabled] at hcircuit
    exact ⟨by rw [hcircuit]; exact h.dated.prune now,
      by rw [hcircuit]; exact h.remembers.prune hle⟩

theorem Inv.before (h : Inv config clock s) (henabled : config.localPoolCircuitEnabled = true)
    {before rest : List Call} (hfrom : ∀ earlier ∈ before ++ call :: rest, clock ≤ earlier.now)
    (htimes : ((before ++ call :: rest).map Call.now).Pairwise (· ≤ ·)) :
    ∃ clock' ≤ call.now, Inv config clock' (run (System.next config) s before).1 := by
  induction before generalizing s clock with
  | nil => exact ⟨clock, hfrom call List.mem_cons_self, h⟩
  | cons first before ih =>
    rw [List.cons_append, List.map_cons, List.pairwise_cons] at htimes
    obtain ⟨hfirst, htimes⟩ := htimes
    exact ih (h.next henabled (hfrom first List.mem_cons_self))
      (fun later hmem => hfirst later.now (List.mem_map_of_mem hmem)) htimes

def Opens (config : Config) (circuit : LocalPoolRiskCircuit) (call : Call) : Prop :=
  ∃ seen, (circuit.step config call).2 = .failed true seen

/-- Neither open nor half-open, when the passing of time is taken into account. -/
def IsClosed (config : Config) (now : ℕ) (circuit : LocalPoolRiskCircuit) : Prop :=
  (circuit.prune config now).openUntil = none ∧ (circuit.prune config now).halfOpen = none

theorem isClosed_of_none (hopen : circuit.openUntil = none) (hhalf : circuit.halfOpen = none) :
    circuit.IsClosed config now := by
  rw [IsClosed, prune_of_closed hopen hhalf]
  exact ⟨hopen, hhalf⟩

theorem IsClosed.success (h : circuit.IsClosed config now)
    (hdated : Dated config circuit lastOpening) : circuit.recordSuccess.IsClosed config now := by
  unfold recordSuccess
  cases hhalf : circuit.halfOpen with
  | none => exact h
  | some halfOpen => exact isClosed_of_none (hdated.halfOpen halfOpen.1 halfOpen.2 hhalf).1 rfl

theorem IsClosed.step (h : circuit.IsClosed config call.now)
    (henabled : config.localPoolCircuitEnabled = true) (hdated : Dated config circuit lastOpening)
    (hopens : ¬ Opens config circuit call) :
    (circuit.step config call).1.IsClosed config call.now := by
  cases call with
  | admitRequest now =>
    have hhalf : (circuit.prune config now).halfOpen = none := h.2
    rw [step_admitRequest henabled]
    cases ((circuit.prune config now).snapshotLocked now).retryAfter with
    | none => exact isClosed_of_none h.1 (by dsimp only; rw [hhalf]; rfl)
    | some retryAfter => exact isClosed_of_none h.1 hhalf
  | success now => exact h.success hdated
  | failure now credentialId reason everSucceeded dispatchableNow =>
    cases everSucceeded with
    | false =>
      rw [step_failure_never henabled]
      exact isClosed_of_none h.1 h.2
    | true =>
      obtain ⟨seen, heq⟩ := step_failure henabled circuit now credentialId reason dispatchableNow
      rw [Opens, heq] at hopens
      rw [heq]
      split_ifs at hopens ⊢
      · exact absurd ⟨seen, rfl⟩ hopens
      · exact isClosed_of_none h.1 h.2
  | snapshot now =>
    rw [step_snapshot henabled]
    exact isClosed_of_none h.1 h.2

/-- A closed circuit is opened by a failure that completes the number and the ratio. -/
theorem Inv.opens_of_closed (h : Inv config clock s)
    (henabled : config.localPoolCircuitEnabled = true) (hle : clock ≤ call.now)
    (hclosed : s.circuit.IsClosed config call.now) (hopens : Opens config s.circuit call) :
    ∃ now credentialId reason dispatchableNow,
      call = .failure now credentialId reason true dispatchableNow ∧
      config.requiredDistinct ≤
        (distinctFailed config now (s.failed ++ [(credentialId, now)])).card ∧
      ratioReached config (distinctFailed config now (s.failed ++ [(credentialId, now)])).card
        dispatchableNow = true := by
  obtain ⟨seen, hseen⟩ := hopens
  obtain ⟨now, credentialId, reason, dispatchableNow, rfl, hopens, -⟩ :=
    step_opened henabled hseen
  have hpruned : Remembers config now (s.circuit.prune config now).failures s.failed :=
    h.remembers.prune hle
  have hremembers := hpruned.insert credentialId
  have hwithin : ∀ failure ∈ ((s.circuit.prune config now).insertFailure now credentialId).failures,
      now - failure.2 ≤ config.window := by
    intro failure hmem
    rcases KeyedList.mem_insert hmem with heq | hmem
    · rw [heq, Nat.sub_self]
      exact Nat.zero_le _
    · rw [prune_failures] at hmem
      exact of_decide_eq_true (List.mem_filter.mp hmem).2
  refine ⟨now, credentialId, reason, dispatchableNow, rfl, ?_⟩
  rw [← hremembers.length hwithin]
  have hhalf : (s.circuit.prune config now).halfOpen = none := hclosed.2
  unfold opens at hopens
  dsimp only at hopens
  rw [Bool.and_eq_true, Bool.or_eq_true, Bool.and_eq_true, decide_eq_true_eq] at hopens
  rcases hopens.2 with hhalfOpen | hreached
  · unfold insertFailure at hhalfOpen
    rw [hhalf] at hhalfOpen
    cases hhalfOpen
  · exact hreached

theorem after_append (config : Config) (before calls : List Call) :
    after config (before ++ calls) =
      (run (System.next config) (after config before) calls).1 := by
  rw [after, run_append]
  rfl

theorem after_singleton_circuit (config : Config) (before : List Call) (call : Call) :
    (after config (before ++ [call])).circuit =
      ((after config before).circuit.step config call).1 := by
  rw [after_append, run_singleton, next_fst_circuit]

theorem Opens.isOpen (h : Opens config circuit call)
    (henabled : config.localPoolCircuitEnabled = true) :
    (circuit.step config call).1.IsOpen (periodEnd config call.now) := by
  obtain ⟨seen, hseen⟩ := h
  obtain ⟨now, credentialId, reason, dispatchableNow, rfl, -, heq⟩ := step_opened henabled hseen
  rw [heq]
  exact ⟨rfl, rfl⟩

theorem run_new_opensAndRefuses (henabled : config.localPoolCircuitEnabled = true)
    {calls before rest : List Call} {call : Call} (hcalls : calls = before ++ call :: rest)
    (htimes : (calls.map Call.now).Pairwise (· ≤ ·)) :
    (Opens config (after config before).circuit call →
      (∀ during later, rest = during ++ later →
        (∀ call' ∈ during, call'.now < periodEnd config call.now) →
        .admitted ∉ outcomes config (before ++ [call]) during) ∧
      ∀ during half later, rest = during ++ half ++ later →
        (∀ call' ∈ during, call'.now < periodEnd config call.now) →
        (∀ call' ∈ half, call'.IsNeutral ∧ periodEnd config call.now ≤ call'.now ∧
          call'.now < periodEnd config (periodEnd config call.now)) →
        (outcomes config (before ++ [call] ++ during) half).count .admitted ≤ config.probes) ∧
    ((after config before).circuit.IsClosed config call.now →
      Opens config (after config before).circuit call ∨
        ¬ (after config (before ++ [call])).circuit.IsClosed config call.now →
      ∃ now credentialId reason dispatchableNow,
        call = .failure now credentialId reason true dispatchableNow ∧
        config.requiredDistinct ≤ (distinctFailed config now
          ((after config before).failed ++ [(credentialId, now)])).card ∧
        ratioReached config (distinctFailed config now
          ((after config before).failed ++ [(credentialId, now)])).card dispatchableNow = true) ∧
    (∀ now credentialId reason dispatchableNow,
      call = .failure now credentialId reason false dispatchableNow →
      (after config (before ++ [call])).circuit = (after config before).circuit.prune config now) ∧
    ∀ retryAfter, .refused retryAfter ∈ outcomes config before [call] →
      ∃ opening, (after config before).lastOpening = some opening ∧
        call.now < opening + 2 * config.openFor := by
  have hinv : ∃ clock ≤ call.now, Inv config clock (after config before) := by
    rw [hcalls] at htimes
    exact (Inv.new config).before henabled (fun _ _ => Nat.zero_le _) htimes
  obtain ⟨clock, hle, hinv⟩ := hinv
  refine ⟨fun hopens => ⟨?_, ?_⟩, ?_, ?_, ?_⟩
  · intro during later _ hlt
    have hopen := hopens.isOpen henabled
    rw [← after_singleton_circuit] at hopen
    exact (hopen.run henabled hlt).2
  · intro during half later _ hlt hhalf
    have hopen := hopens.isOpen henabled
    rw [← after_singleton_circuit] at hopen
    have hstill := (hopen.run henabled hlt).1
    rw [← after_append] at hstill
    exact Probing.run (.inl ⟨hstill, rfl⟩) henabled (fun call' hmem => (hhalf call' hmem).1)
      fun call' hmem => (hhalf call' hmem).2
  · intro hclosed hchanged
    refine hinv.opens_of_closed henabled hle hclosed ?_
    by_contra hopens
    rcases hchanged with hopens' | hchanged
    · exact hopens hopens'
    · rw [after_singleton_circuit] at hchanged
      exact hchanged (hclosed.step henabled hinv.dated hopens)
  · rintro now credentialId reason dispatchableNow rfl
    rw [after_singleton_circuit, step_failure_never henabled]
  · intro retryAfter hmem
    rw [outcomes, run_singleton, next_snd, List.mem_singleton] at hmem
    refine (hinv.dated.prune call.now).refused fun hretry => ?_
    cases call with
    | admitRequest now =>
      have hretry : ((after config before).circuit.prune config now |>.snapshotLocked
        now).retryAfter = none := hretry
      rw [step_admitRequest henabled, hretry] at hmem
      cases hmem
    | success now => cases hmem
    | failure now credentialId reason everSucceeded dispatchableNow => cases hmem
    | snapshot now => cases hmem

def twoInAMinute : Config where
  localPoolCircuitEnabled := true
  localPoolCircuitWindowSecs := 60
  localPoolCircuitOpenAfterFailures := 2
  localPoolCircuitRequireDistinctCredentials := 2
  localPoolCircuitMinRatioPercent := 50
  localPoolCircuitOpenSecs := 60
  localPoolCircuitHalfOpenProbes := 1

theorem run_new_opensAndRefuses_twoFailures :
    .admitted ∉ outcomes twoInAMinute
      ([.failure 0 1 .accountLocked true 1] ++ [.failure 1 2 .accountLocked true 0])
      [.admitRequest (seconds 1), .admitRequest (seconds 60)] :=
  ((@run_new_opensAndRefuses twoInAMinute rfl _ [.failure 0 1 .accountLocked true 1]
      [.admitRequest (seconds 1), .admitRequest (seconds 60)]
      (.failure 1 2 .accountLocked true 0) rfl (by decide)).1 ⟨_, rfl⟩).1
    _ [] (List.append_nil _).symm (by decide)

/-- An open period of no seconds lasts one, so a request right after the opening is refused. -/
theorem refused_past_two_open_secs : ∃ (config : Config) (before : List Call) (now opening : ℕ),
    config.localPoolCircuitEnabled = true ∧
    ((before ++ [Call.admitRequest now]).map Call.now).Pairwise (· ≤ ·) ∧
    (∃ retryAfter, .refused retryAfter ∈ outcomes config before [.admitRequest now]) ∧
    (after config before).lastOpening = some opening ∧
    ¬ now < opening + 2 * seconds config.localPoolCircuitOpenSecs :=
  ⟨{ twoInAMinute with localPoolCircuitOpenSecs := 0 },
    [.failure 0 1 .accountLocked true 1, .failure 1 2 .accountLocked true 0], 1, 1,
    rfl, by decide, ⟨seconds 1, by decide⟩, by decide, by decide⟩

end LocalPoolRiskCircuit

end KiroProxy
