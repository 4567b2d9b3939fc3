import KiroProxy.Parties
import KiroProxy.Transition
import Mathlib

/-!
# The breaker of the scheduler's Redis operations

A call is admitted in two steps: it decides under the lock, waits for a permit, and checks under
the lock whether its decision still stands. Each opening of the breaker begins a new generation.
When the backoff is over, one admission becomes the recovery probe. An admission ends by a
success, by a failure or by being dropped, also while it waits. Times are in nanoseconds.
-/

namespace KiroProxy.SchedulerRedis

def millisecond : ℕ := 1000000

def timeoutFailuresToOpen : ℕ := 3

def localLagExcusesTimeout : ℕ := 50 * millisecond

def maxConsecutiveExcusedTimeouts : ℕ := 20

def degradedBackoffBase : ℕ := 2000 * millisecond

def degradedBackoffMax : ℕ := 30000 * millisecond

def u32Max : ℕ := 2 ^ 32 - 1

inductive BreakerKind
  | capacity
  | snapshot
  | affinity
  deriving DecidableEq, Repr

inductive Phase
  | closed
  | open (until' : ℕ)
  | halfOpen
  deriving DecidableEq, Repr

structure BreakerState where
  failureGeneration : ℕ
  consecutiveFailures : ℕ
  phase : Phase
  deriving DecidableEq, Repr

structure BreakerStats where
  admitted : ℕ
  localSaturated : ℕ
  failFast : ℕ
  recoveryProbes : ℕ
  failures : ℕ
  recoveries : ℕ
  cancelledProbes : ℕ
  staleSuccesses : ℕ
  staleFailures : ℕ
  suppressed : ℕ
  localLagTimeouts : ℕ
  consecutiveExcusedTimeouts : ℕ
  deriving DecidableEq, Repr

structure SchedulerRedisBreaker where
  kind : BreakerKind
  state : BreakerState
  stats : BreakerStats
  permits : ℕ
  jitterSeed : UInt64
  deriving DecidableEq, Repr

inductive AdmissionError
  | breakerOpen
  | localSchedulerOverloaded
  deriving DecidableEq, Repr

def rotateLeft (x k : UInt64) : UInt64 := x <<< k ||| x >>> (64 - k)

def stableSchedulerBackoffJitter (base : ℕ) (seed : UInt64) : ℕ :=
  let baseMillis := max (base / millisecond) 1
  let spread := max (baseMillis / 10) 1
  let mixed := (seed + 0x9e3779b97f4a7c15) * 0xbf58476d1ce4e5b9 ^^^ rotateLeft seed 27
  (baseMillis - mixed.toNat % (spread + 1)) * millisecond

/-- Some cause of the error says that the shared deadline was exceeded. -/
def isTimeoutFailure (causes : List (List Char)) : Bool :=
  causes.any fun cause => decide ("超过共享总期限".toList <:+: cause)

namespace SchedulerRedisBreaker

def new (kind : BreakerKind) (maxInFlight : ℕ) (jitterSeed : UInt64) : SchedulerRedisBreaker where
  kind
  state := { failureGeneration := 0, consecutiveFailures := 0, phase := .closed }
  stats := ⟨0, 0, 0, 0, 0, 0, 0, 0, 0, 0, 0, 0⟩
  permits := max maxInFlight 1
  jitterSeed

def baseBackoffForFailure (consecutiveFailures : ℕ) : ℕ :=
  min (degradedBackoffBase * 2 ^ min (consecutiveFailures - 1) 4) degradedBackoffMax

def backoffForFailure (b : SchedulerRedisBreaker) (consecutiveFailures failureGeneration : ℕ) : ℕ :=
  stableSchedulerBackoffJitter (baseBackoffForFailure consecutiveFailures)
    (b.jitterSeed ^^^ UInt64.ofNat failureGeneration * 0x9e3779b97f4a7c15 ^^^
      rotateLeft (UInt64.ofNat consecutiveFailures) 17)

def failFast (b : SchedulerRedisBreaker) : SchedulerRedisBreaker :=
  { b with stats := { b.stats with
      failFast := b.stats.failFast + 1
      suppressed := b.stats.suppressed + 1 } }

/-- The first critical section of `begin_until`, with the time that was read in front of it: the
generation of the admission and whether it is the recovery probe. -/
def decide (b : SchedulerRedisBreaker) (now : ℕ) : SchedulerRedisBreaker × Option (ℕ × Bool) :=
  match b.state.phase with
  | .closed => (b, some (b.state.failureGeneration, false))
  | .open until' =>
    if now < until' then (b.failFast, none)
    else
      ({ b with
          state := { b.state with phase := .halfOpen }
          stats := { b.stats with recoveryProbes := b.stats.recoveryProbes + 1 } },
        some (b.state.failureGeneration, true))
  | .halfOpen => (b.failFast, none)

/-- The second critical section. -/
def stillCurrent (b : SchedulerRedisBreaker) (failureGeneration : ℕ) (recoveryProbe : Bool) :
    Bool :=
  b.state.failureGeneration == failureGeneration &&
    b.state.phase == if recoveryProbe then .halfOpen else .closed

def completeSuccess (b : SchedulerRedisBreaker) (failureGeneration : ℕ) (recoveryProbe : Bool) :
    SchedulerRedisBreaker :=
  let b := { b with stats := { b.stats with consecutiveExcusedTimeouts := 0 } }
  let stale := { b with stats := { b.stats with staleSuccesses := b.stats.staleSuccesses + 1 } }
  if b.state.failureGeneration ≠ failureGeneration then stale
  else
    match recoveryProbe, b.state.phase with
    | true, .halfOpen =>
      { b with
        state := { b.state with phase := .closed, consecutiveFailures := 0 }
        stats := { b.stats with recoveries := b.stats.recoveries + 1, suppressed := 0 } }
    | false, .closed => { b with state := { b.state with consecutiveFailures := 0 } }
    | _, _ => stale

def mayExcuse (recoveryProbe : Bool) (causes : List (List Char)) (runtimeLag : ℕ) : Bool :=
  isTimeoutFailure causes && !recoveryProbe && Nat.ble localLagExcusesTimeout runtimeLag

def excuses (b : SchedulerRedisBreaker) (recoveryProbe : Bool) (causes : List (List Char))
    (runtimeLag : ℕ) : Bool :=
  mayExcuse recoveryProbe causes runtimeLag &&
    Nat.blt b.stats.consecutiveExcusedTimeouts maxConsecutiveExcusedTimeouts

def tolerates (b : SchedulerRedisBreaker) (recoveryProbe : Bool) (causes : List (List Char))
    (consecutiveFailures : ℕ) : Bool :=
  !recoveryProbe &&
    (b.kind == .snapshot ||
      (b.kind == .capacity && isTimeoutFailure causes &&
        Nat.blt consecutiveFailures timeoutFailuresToOpen))

def nextConsecutiveFailures (b : SchedulerRedisBreaker) : ℕ :=
  max (min (b.state.consecutiveFailures + 1) u32Max) 1

def backoffFailures (b : SchedulerRedisBreaker) (causes : List (List Char))
    (consecutiveFailures : ℕ) : ℕ :=
  if b.kind = .capacity ∧ isTimeoutFailure causes = true then
    max (consecutiveFailures - (timeoutFailuresToOpen - 1)) 1
  else consecutiveFailures

def openAfterFailure (b : SchedulerRedisBreaker) (causes : List (List Char))
    (consecutiveFailures now : ℕ) : SchedulerRedisBreaker :=
  let failureGeneration := (b.state.failureGeneration + 1) % 2 ^ 64
  let backoff := b.backoffForFailure (b.backoffFailures causes consecutiveFailures) failureGeneration
  { b with
    state := { failureGeneration, consecutiveFailures, phase := .open (now + backoff) }
    stats := { b.stats with suppressed := 0 } }

def completeFailure (b : SchedulerRedisBreaker) (failureGeneration : ℕ) (recoveryProbe : Bool)
    (causes : List (List Char)) (runtimeLag now : ℕ) : SchedulerRedisBreaker :=
  let excused := b.excuses recoveryProbe causes runtimeLag
  let b := { b with stats := { b.stats with
    failures := b.stats.failures + 1
    consecutiveExcusedTimeouts := b.stats.consecutiveExcusedTimeouts +
      (mayExcuse recoveryProbe causes runtimeLag).toNat } }
  if excused then
    { b with stats := { b.stats with localLagTimeouts := b.stats.localLagTimeouts + 1 } }
  else if b.state.failureGeneration ≠ failureGeneration then
    { b with stats := { b.stats with staleFailures := b.stats.staleFailures + 1 } }
  else
    let consecutiveFailures := b.nextConsecutiveFailures
    if b.tolerates recoveryProbe causes consecutiveFailures then
      { b with state := { b.state with consecutiveFailures } }
    else b.openAfterFailure causes consecutiveFailures now

def cancelProbe (b : SchedulerRedisBreaker) (failureGeneration now : ℕ) : SchedulerRedisBreaker :=
  if b.state.failureGeneration ≠ failureGeneration ∨ b.state.phase ≠ .halfOpen then b
  else
    let backoff := b.backoffForFailure (max b.state.consecutiveFailures 1) b.state.failureGeneration
    { b with
      state := { b.state with phase := .open (now + backoff) }
      stats := { b.stats with cancelledProbes := b.stats.cancelledProbes + 1 } }

/-- `drop` of an admission that has not been completed. -/
def dropAdmission (b : SchedulerRedisBreaker) (failureGeneration : ℕ) (recoveryProbe : Bool)
    (now : ℕ) : SchedulerRedisBreaker :=
  if recoveryProbe then b.cancelProbe failureGeneration now else b

end SchedulerRedisBreaker

/-- How an admission of the current generation ended that counts. -/
inductive Outcome
  | success
  | failure
  deriving DecidableEq, Repr

/-- `history` has the outcomes that counted, the last one first. No operation reads it. -/
structure Shared where
  breaker : SchedulerRedisBreaker
  clock : ℕ
  history : List Outcome
  deriving DecidableEq, Repr

/-- Where an admission stands: it waits for its permit, it has the permit and has yet to check
its decision, or it has been handed to the caller. -/
inductive Place
  | waiting
  | permitted
  | admitted
  deriving DecidableEq, Repr

inductive Call
  | entering (now : ℕ)
  | live (place : Place) (failureGeneration : ℕ) (recoveryProbe : Bool)
  | rejected (error : AdmissionError)
  | ended
  deriving DecidableEq, Repr

abbrev System := Parties.System Shared Call

def new (kind : BreakerKind) (maxInFlight : ℕ) (jitterSeed : UInt64) (clock : ℕ) : System :=
  ⟨{ breaker := .new kind maxInFlight jitterSeed, clock, history := [] }, []⟩

def releasePermit (b : SchedulerRedisBreaker) : SchedulerRedisBreaker :=
  { b with permits := b.permits + 1 }

/-- The next critical section of `begin_until`. -/
def proceed (w : Shared) : Call → Option (Shared × Call)
  | .entering now =>
    match w.breaker.decide now with
    | (breaker, some (failureGeneration, recoveryProbe)) =>
      some ({ w with breaker }, .live .waiting failureGeneration recoveryProbe)
    | (breaker, none) => some ({ w with breaker }, .rejected .breakerOpen)
  | .live .waiting failureGeneration recoveryProbe =>
    if 0 < w.breaker.permits then
      some ({ w with breaker := { w.breaker with permits := w.breaker.permits - 1 } },
        .live .permitted failureGeneration recoveryProbe)
    else none
  | .live .permitted failureGeneration recoveryProbe =>
    if w.breaker.stillCurrent failureGeneration recoveryProbe then
      some ({ w with breaker := { w.breaker with stats :=
          { w.breaker.stats with admitted := w.breaker.stats.admitted + 1 } } },
        .live .admitted failureGeneration recoveryProbe)
    else some ({ w with breaker := releasePermit w.breaker.failFast }, .rejected .breakerOpen)
  | _ => none

def saturate (b : SchedulerRedisBreaker) : SchedulerRedisBreaker :=
  { b with stats := { b.stats with localSaturated := b.stats.localSaturated + 1 } }

/-- The deadline is over before the permit is there, or right after. -/
def overload (w : Shared) : Call → Option (Shared × Call)
  | .live .waiting failureGeneration recoveryProbe =>
    let breaker := (saturate w.breaker).dropAdmission failureGeneration recoveryProbe w.clock
    some ({ w with breaker }, .rejected .localSchedulerOverloaded)
  | .live .permitted failureGeneration recoveryProbe =>
    let breaker := (saturate w.breaker).dropAdmission failureGeneration recoveryProbe w.clock
    some ({ w with breaker := releasePermit breaker }, .rejected .localSchedulerOverloaded)
  | _ => none

def drop (w : Shared) : Call → Option (Shared × Call)
  | .live .waiting failureGeneration recoveryProbe =>
    let breaker := w.breaker.dropAdmission failureGeneration recoveryProbe w.clock
    some ({ w with breaker }, .ended)
  | .live .admitted failureGeneration recoveryProbe =>
    let breaker := w.breaker.dropAdmission failureGeneration recoveryProbe w.clock
    some ({ w with breaker := releasePermit breaker }, .ended)
  | _ => none

def success (w : Shared) : Call → Option (Shared × Call)
  | .live .admitted failureGeneration recoveryProbe =>
    some ({ w with
        breaker := releasePermit (w.breaker.completeSuccess failureGeneration recoveryProbe)
        history :=
          if w.breaker.state.failureGeneration = failureGeneration then .success :: w.history
          else w.history }, .ended)
  | _ => none

def failure (causes : List (List Char)) (runtimeLag : ℕ) (w : Shared) :
    Call → Option (Shared × Call)
  | .live .admitted failureGeneration recoveryProbe =>
    let breaker :=
      w.breaker.completeFailure failureGeneration recoveryProbe causes runtimeLag w.clock
    some ({ w with
        breaker := releasePermit breaker
        history :=
          if w.breaker.state.failureGeneration = failureGeneration ∧
              w.breaker.excuses recoveryProbe causes runtimeLag = false then
            .failure :: w.history
          else w.history }, .ended)
  | _ => none

inductive Move
  | proceed
  | overload
  | drop
  | success
  | failure (causes : List (List Char)) (runtimeLag : ℕ)
  deriving DecidableEq, Repr

def advance : Move → Shared → Call → Option (Shared × Call)
  | .proceed => SchedulerRedis.proceed
  | .overload => SchedulerRedis.overload
  | .drop => SchedulerRedis.drop
  | .success => SchedulerRedis.success
  | .failure causes runtimeLag => SchedulerRedis.failure causes runtimeLag

inductive Action
  | tick (elapsed : ℕ)
  | begin'
  | move (call : ℕ) (move : Move)
  deriving DecidableEq, Repr

def step (s : System) : Action → Option System
  | .tick elapsed => some { s with shared := { s.shared with clock := s.shared.clock + elapsed } }
  | .begin' => some (s.join (.entering s.shared.clock))
  | .move call move => s.act (advance move) call

def run : System → List Action → Option System := Transition.run step

def Call.holds (failureGeneration : ℕ) (recoveryProbe : Bool) : Call → Bool
  | .live _ g probe => g == failureGeneration && probe == recoveryProbe
  | _ => false

def Call.isLive : Call → Bool
  | .live _ _ _ => true
  | _ => false

theorem Call.holds_live {place : Place} {g g' : ℕ} {probe probe' : Bool} :
    (Call.live place g probe).holds g' probe' = true ↔ g = g' ∧ probe = probe' := by
  simp [Call.holds]

theorem Call.holds_eq_false {p : Call} (h : p.isLive = false) (g : ℕ) (probe : Bool) :
    p.holds g probe = false := by
  cases p with
  | live place g' probe' => cases h
  | _ => rfl

structure Call.Fits (state : BreakerState) (call : Call) : Prop where
  entering : ∀ now, call ≠ .entering now
  generation : ∀ {place g probe}, call = .live place g probe → g ≤ state.failureGeneration
  closed : call.holds state.failureGeneration false = true → state.phase = .closed

theorem Call.Fits.of_isLive {state : BreakerState} {call : Call} (h : call.isLive = false)
    (hentering : ∀ now, call ≠ .entering now) : call.Fits state where
  entering := hentering
  generation := by
    rintro place g probe rfl
    cases h
  closed := by
    rw [Call.holds_eq_false h]
    rintro ⟨⟩

/-- The effect of a move on the state, on the outcomes that count and on the call. -/
inductive Change (state : BreakerState) (history : List Outcome) (p : Call) :
    BreakerState → List Outcome → Call → Prop
  | keep {p' : Call}
      (hprobe : p'.holds state.failureGeneration true = p.holds state.failureGeneration true)
      (hfits : p'.Fits state) : Change state history p state history p'
  | probe {until' : ℕ} (hopen : state.phase = .open until')
      (hp : p.holds state.failureGeneration true = false) :
      Change state history p { state with phase := .halfOpen } history
        (.live .waiting state.failureGeneration true)
  | cancel {p' : Call} (until' : ℕ) (hp : p.holds state.failureGeneration true = true)
      (hp' : p'.isLive = false) (hentering : ∀ now, p' ≠ .entering now) :
      Change state history p { state with phase := .open until' } history p'
  | recover (hp : p.holds state.failureGeneration true = (state.phase == .halfOpen)) :
      Change state history p { state with phase := .closed, consecutiveFailures := 0 }
        (.success :: history) .ended
  | tolerate (hp : p.holds state.failureGeneration true = false) (hphase : state.phase = .closed) :
      Change state history p
        { state with consecutiveFailures := max (min (state.consecutiveFailures + 1) u32Max) 1 }
        (.failure :: history) .ended
  | trip (until' : ℕ) :
      Change state history p
        { failureGeneration := state.failureGeneration + 1
          consecutiveFailures := max (min (state.consecutiveFailures + 1) u32Max) 1
          phase := .open until' }
        (.failure :: history) .ended

theorem decide_cases (b : SchedulerRedisBreaker) (now : ℕ) :
    (b.state.phase = .closed ∧ b.decide now = (b, some (b.state.failureGeneration, false))) ∨
      (∃ until' b', b.state.phase = .open until' ∧ until' ≤ now ∧
        b.decide now = (b', some (b.state.failureGeneration, true)) ∧
        b'.state = { b.state with phase := .halfOpen }) ∨
      b.decide now = (b.failFast, none) := by
  unfold SchedulerRedisBreaker.decide
  cases hphase : b.state.phase with
  | closed => exact .inl ⟨rfl, rfl⟩
  | «open» until' =>
    dsimp only
    split_ifs with hnow
    · exact .inr (.inr rfl)
    · exact .inr (.inl ⟨until', _, rfl, Nat.le_of_not_lt hnow, rfl, rfl⟩)
  | halfOpen => exact .inr (.inr rfl)

theorem dropAdmission_cases (b : SchedulerRedisBreaker) (g : ℕ) (probe : Bool) (now : ℕ) :
    (b.dropAdmission g probe now = b ∧
      (probe = true → g = b.state.failureGeneration → b.state.phase ≠ .halfOpen)) ∨
      (probe = true ∧ g = b.state.failureGeneration ∧
        ∃ until', (b.dropAdmission g probe now).state =
          { b.state with phase := .open until' }) := by
  unfold SchedulerRedisBreaker.dropAdmission SchedulerRedisBreaker.cancelProbe
  split_ifs with hprobe hstale
  · refine .inl ⟨rfl, fun _ hg => ?_⟩
    exact hstale.resolve_left fun hne => hne hg.symm
  · rw [not_or, not_not] at hstale
    exact .inr ⟨hprobe, hstale.1.symm, _, rfl⟩
  · exact .inl ⟨rfl, fun h => absurd h hprobe⟩

theorem completeFailure_cases (b : SchedulerRedisBreaker) (g : ℕ) (probe : Bool)
    (causes : List (List Char)) (runtimeLag now : ℕ) :
    ((b.completeFailure g probe causes runtimeLag now).state = b.state ∧
        b.excuses probe causes runtimeLag = true ∧ probe = false) ∨
      ((b.completeFailure g probe causes runtimeLag now).state = b.state ∧
        b.state.failureGeneration ≠ g) ∨
      ((b.completeFailure g probe causes runtimeLag now).state =
          { b.state with consecutiveFailures := b.nextConsecutiveFailures } ∧
        b.state.failureGeneration = g ∧ b.excuses probe causes runtimeLag = false ∧
        b.tolerates probe causes b.nextConsecutiveFailures = true) ∨
      ((∃ until', (b.completeFailure g probe causes runtimeLag now).state =
          { failureGeneration := (b.state.failureGeneration + 1) % 2 ^ 64
            consecutiveFailures := b.nextConsecutiveFailures
            phase := .open until' }) ∧
        b.state.failureGeneration = g ∧ b.excuses probe causes runtimeLag = false ∧
        b.tolerates probe causes b.nextConsecutiveFailures = false) := by
  unfold SchedulerRedisBreaker.completeFailure
  dsimp only
  split_ifs with hexcused hg htolerates
  · refine .inl ⟨rfl, hexcused, ?_⟩
    cases probe with
    | false => rfl
    | true => simp [SchedulerRedisBreaker.excuses, SchedulerRedisBreaker.mayExcuse] at hexcused
  · exact .inr (.inl ⟨rfl, hg⟩)
  · exact .inr (.inr (.inl ⟨rfl, not_not.mp hg, Bool.not_eq_true _ ▸ hexcused, htolerates⟩))
  · exact .inr (.inr (.inr ⟨⟨_, rfl⟩, not_not.mp hg, Bool.not_eq_true _ ▸ hexcused,
      Bool.not_eq_true _ ▸ htolerates⟩))

variable {b : SchedulerRedisBreaker}

theorem probe_eq_false_of_tolerates {probe : Bool}
    {causes : List (List Char)} {consecutiveFailures : ℕ}
    (h : b.tolerates probe causes consecutiveFailures = true) : probe = false := by
  cases probe with
  | false => rfl
  | true => cases h

section Change

abbrev Changes (w : Shared) (p : Call) (w' : Shared) (p' : Call) : Prop :=
  Change w.breaker.state w.history p w'.breaker.state w'.history p'

abbrev ProbesHalfOpen (state : BreakerState) (p : Call) : Prop :=
  p.holds state.failureGeneration true = true → state.phase = .halfOpen

variable {w w' : Shared} {p p' : Call} {g : ℕ} {probe : Bool}

theorem Change.end' {state : BreakerState} {history : List Outcome}
    (hp : p.holds state.failureGeneration true = false) (hp' : p'.isLive = false)
    (hentering : ∀ now, p' ≠ .entering now) : Change state history p state history p' :=
  .keep (by rw [hp, Call.holds_eq_false hp']) (.of_isLive hp' hentering)

theorem decide_change {now : ℕ} (h : proceed w (.entering now) = some (w', p')) :
    Changes w (.entering now) w' p' := by
  rcases decide_cases w.breaker now with
    ⟨hphase, hdecide⟩ | ⟨until', b', hphase, -, hdecide, hstate⟩ | hdecide
  · rw [proceed, hdecide] at h
    cases h
    refine .keep (by simp [Call.holds]) ⟨by rintro _ ⟨⟩, ?_, fun _ => hphase⟩
    rintro place g probe ⟨⟩
    exact Nat.le_refl _
  · rw [proceed, hdecide] at h
    cases h
    rw [Changes, hstate]
    exact .probe hphase rfl
  · rw [proceed, hdecide] at h
    cases h
    exact .end' rfl rfl (by rintro _ ⟨⟩)

/-- A decision that still fits is still current, so that the check rejects no probe that the
breaker waits for. -/
theorem stillCurrent_eq_false {place : Place}
    (h : ¬ b.stillCurrent g probe = true)
    (hprobe : ProbesHalfOpen b.state (.live place g probe)) :
    (Call.live place g probe).holds b.state.failureGeneration true = false := by
  rw [← Bool.not_eq_true]
  intro hholds
  obtain ⟨rfl, rfl⟩ := Call.holds_live.mp hholds
  simp [SchedulerRedisBreaker.stillCurrent, hprobe hholds] at h

theorem holds_false_of_stale {place : Place} {g' : ℕ} {probe' : Bool} (h : g' ≠ g) :
    (Call.live place g probe).holds g' probe' = false := by
  simp [Call.holds, Ne.symm h]

theorem Call.Fits.place {state : BreakerState} {place place' : Place}
    (h : (Call.live place g probe).Fits state) : (Call.live place' g probe).Fits state where
  entering := by rintro _ ⟨⟩
  generation := by
    rintro _ _ _ ⟨⟩
    exact h.generation rfl
  closed := h.closed

variable {place : Place}

theorem proceed_change (hfits : (Call.live place g probe).Fits w.breaker.state)
    (hprobe : ProbesHalfOpen w.breaker.state (.live place g probe))
    (h : proceed w (.live place g probe) = some (w', p')) :
    Changes w (.live place g probe) w' p' := by
  cases place with
  | waiting =>
    rw [proceed] at h
    split_ifs at h
    cases h
    exact .keep rfl hfits.place
  | permitted =>
    rw [proceed] at h
    split_ifs at h with hcurrent
    · cases h
      exact .keep rfl hfits.place
    · cases h
      exact .end' (stillCurrent_eq_false hcurrent hprobe) rfl (by rintro _ ⟨⟩)
  | admitted => cases h

/-- An admission that is dropped, by whatever breaker differs only in its counters. -/
theorem dropAdmission_change {history : List Outcome} {now : ℕ}
    (hprobe : ProbesHalfOpen b.state (.live place g probe))
    (hp' : p'.isLive = false) (hentering : ∀ now, p' ≠ .entering now) :
    Change b.state history (.live place g probe) (b.dropAdmission g probe now).state history p' := by
  rcases dropAdmission_cases b g probe now with ⟨hdrop, hstale⟩ | ⟨rfl, rfl, until', hdrop⟩
  · rw [hdrop]
    refine .end' (Bool.not_eq_true _ ▸ fun hholds => ?_) hp' hentering
    obtain ⟨hg, hprobing⟩ := Call.holds_live.mp hholds
    exact hstale hprobing hg (hprobe hholds)
  · rw [hdrop]
    exact .cancel until' (Call.holds_live.mpr ⟨rfl, rfl⟩) hp' hentering

theorem overload_change (hprobe : ProbesHalfOpen w.breaker.state (.live place g probe))
    (h : overload w (.live place g probe) = some (w', p')) :
    Changes w (.live place g probe) w' p' := by
  cases place with
  | waiting =>
    cases h
    exact dropAdmission_change (b := saturate w.breaker) hprobe rfl (by rintro _ ⟨⟩)
  | permitted =>
    cases h
    exact dropAdmission_change (b := saturate w.breaker) hprobe rfl (by rintro _ ⟨⟩)
  | admitted => cases h

theorem drop_change (hprobe : ProbesHalfOpen w.breaker.state (.live place g probe))
    (h : drop w (.live place g probe) = some (w', p')) :
    Changes w (.live place g probe) w' p' := by
  cases place with
  | waiting =>
    cases h
    exact dropAdmission_change hprobe rfl (by rintro _ ⟨⟩)
  | permitted => cases h
  | admitted =>
    cases h
    exact dropAdmission_change hprobe rfl (by rintro _ ⟨⟩)

theorem success_change (hfits : (Call.live place g probe).Fits w.breaker.state)
    (hprobe : ProbesHalfOpen w.breaker.state (.live place g probe))
    (h : success w (.live place g probe) = some (w', p')) :
    Changes w (.live place g probe) w' p' := by
  cases place with
  | waiting => cases h
  | permitted => cases h
  | admitted =>
    cases h
    dsimp only [releasePermit, SchedulerRedisBreaker.completeSuccess]
    by_cases hg : w.breaker.state.failureGeneration = g
    · subst hg
      cases probe with
      | true =>
        have hphase := hprobe (Call.holds_live.mpr ⟨rfl, rfl⟩)
        simp only [hphase, ne_eq, not_true_eq_false, if_false, if_true]
        exact .recover (by simp [Call.holds, hphase])
      | false =>
        have hphase := hfits.closed (Call.holds_live.mpr ⟨rfl, rfl⟩)
        simp only [hphase, ne_eq, not_true_eq_false, if_false, if_true]
        exact .recover (by simp [Call.holds, hphase])
    · simp only [ne_eq, hg, not_false_eq_true, if_true, if_false]
      exact .end' (holds_false_of_stale hg) rfl (by rintro _ ⟨⟩)

theorem failure_change {causes : List (List Char)} {runtimeLag : ℕ}
    (hfits : (Call.live place g probe).Fits w.breaker.state)
    (hwrap : w.breaker.state.failureGeneration + 1 < 2 ^ 64)
    (h : failure causes runtimeLag w (.live place g probe) = some (w', p')) :
    Changes w (.live place g probe) w' p' := by
  cases place with
  | waiting => cases h
  | permitted => cases h
  | admitted =>
    cases h
    rcases completeFailure_cases w.breaker g probe causes runtimeLag w.clock with
      ⟨hstate, hexcused, rfl⟩ | ⟨hstate, hg⟩ | ⟨hstate, hg, hexcused, htolerates⟩ |
        ⟨hstate, hg, hexcused, -⟩
    · simp only [releasePermit, hstate, hexcused, Bool.true_eq_false, and_false, if_false]
      exact .end' (by simp [Call.holds]) rfl (by rintro _ ⟨⟩)
    · simp only [releasePermit, hstate, hg, false_and, if_false]
      exact .end' (holds_false_of_stale hg) rfl (by rintro _ ⟨⟩)
    · obtain rfl := probe_eq_false_of_tolerates htolerates
      subst hg
      simp only [releasePermit, hstate, hexcused, and_self, if_true]
      exact .tolerate (by simp [Call.holds]) (hfits.closed (Call.holds_live.mpr ⟨rfl, rfl⟩))
    · obtain ⟨until', hstate⟩ := hstate
      rw [Nat.mod_eq_of_lt hwrap] at hstate
      subst hg
      simp only [releasePermit, hstate, hexcused, and_self, if_true]
      exact .trip until'

theorem advance_change {m : Move} (hwrap : w.breaker.state.failureGeneration + 1 < 2 ^ 64)
    (hfits : p.isLive = true → p.Fits w.breaker.state)
    (hprobe : ProbesHalfOpen w.breaker.state p)
    (h : advance m w p = some (w', p')) :
    Changes w p w' p' := by
  cases p with
  | entering now =>
    cases m with
    | proceed => exact decide_change h
    | overload => cases h
    | drop => cases h
    | success => cases h
    | failure causes runtimeLag => cases h
  | live place g probe =>
    cases m with
    | proceed => exact proceed_change (hfits rfl) hprobe h
    | overload => exact overload_change hprobe h
    | drop => exact drop_change hprobe h
    | success => exact success_change (hfits rfl) hprobe h
    | failure causes runtimeLag => exact failure_change (hfits rfl) hwrap h
  | rejected error => cases m <;> cases h
  | ended => cases m <;> cases h

/-- Only a call that proceeds can be live afterwards. -/
theorem ended_of_advance {m : Move} (hm : m ≠ .proceed) (h : advance m w p = some (w', p')) :
    w'.clock = w.clock ∧ p'.isLive = false := by
  cases m with
  | proceed => exact absurd rfl hm
  | overload =>
    change overload w p = _ at h
    unfold overload at h
    split at h <;> cases h <;> exact ⟨rfl, rfl⟩
  | drop =>
    change SchedulerRedis.drop w p = _ at h
    unfold SchedulerRedis.drop at h
    split at h <;> cases h <;> exact ⟨rfl, rfl⟩
  | success =>
    change success w p = _ at h
    unfold success at h
    split at h <;> cases h
    exact ⟨rfl, rfl⟩
  | failure causes runtimeLag =>
    change failure causes runtimeLag w p = _ at h
    unfold failure at h
    split at h <;> cases h
    exact ⟨rfl, rfl⟩

theorem advance_clock {m : Move} (h : advance m w p = some (w', p')) : w'.clock = w.clock := by
  cases m with
  | proceed =>
    change proceed w p = _ at h
    unfold proceed at h
    split at h
    · split at h <;> cases h <;> rfl
    · split_ifs at h
      cases h
      rfl
    · split_ifs at h <;> cases h <;> rfl
    · cases h
  | _ => exact (ended_of_advance (by rintro ⟨⟩) h).1

end Change

def consecutive (history : List Outcome) : ℕ := (history.takeWhile (· == .failure)).length

/-- How the breaker fits its admissions and what has happened to it. -/
structure Sound (s : System) : Prop where
  probes : s.parties.countP (·.holds s.shared.breaker.state.failureGeneration true) =
    if s.shared.breaker.state.phase = .halfOpen then 1 else 0
  fits : ∀ call ∈ s.parties, call.isLive = true → call.Fits s.shared.breaker.state
  entering : ∀ now, Call.entering now ∈ s.parties → now ≤ s.shared.clock
  failures : s.shared.breaker.state.consecutiveFailures =
    min (consecutive s.shared.history) u32Max

theorem sound_new (kind : BreakerKind) (maxInFlight : ℕ) (jitterSeed : UInt64) (clock : ℕ) :
    Sound (new kind maxInFlight jitterSeed clock) where
  probes := rfl
  fits := by rintro _ ⟨⟩
  entering := by rintro _ ⟨⟩
  failures := rfl

theorem Sound.halfOpen {s : System} (h : Sound s) {call : Call} (hcall : call ∈ s.parties)
    (hprobe : call.holds s.shared.breaker.state.failureGeneration true = true) :
    s.shared.breaker.state.phase = .halfOpen := by
  by_contra hphase
  have hcount := h.probes
  rw [if_neg hphase, List.countP_eq_zero] at hcount
  exact hcount call hcall hprobe

theorem consecutive_failure (history : List Outcome) :
    consecutive (.failure :: history) = consecutive history + 1 := rfl

theorem next_failures {n : ℕ} (history : List Outcome) (h : n = min (consecutive history) u32Max) :
    max (min (n + 1) u32Max) 1 = min (consecutive (.failure :: history)) u32Max := by
  rw [consecutive_failure, h]
  have hmax : 1 ≤ u32Max := by decide
  omega

theorem Call.Fits.of_phase {state state' : BreakerState} {call : Call} (h : call.Fits state)
    (hgeneration : state'.failureGeneration = state.failureGeneration)
    (hphase : call.holds state.failureGeneration false = true → state'.phase = .closed) :
    call.Fits state' where
  entering := h.entering
  generation hcall := hgeneration ▸ h.generation hcall
  closed := hgeneration ▸ hphase

/-- After a new generation every older admission fits whatever the phase is. -/
theorem Call.Fits.of_lt {state state' : BreakerState} {call : Call} (h : call.Fits state)
    (hlt : state.failureGeneration < state'.failureGeneration) : call.Fits state' where
  entering := h.entering
  generation hcall := Nat.le_trans (h.generation hcall) (Nat.le_of_lt hlt)
  closed hholds := by
    cases call with
    | live place g probe =>
      obtain ⟨rfl, -⟩ := Call.holds_live.mp hholds
      exact absurd (h.generation rfl) (Nat.not_le_of_lt hlt)
    | _ => cases hholds

theorem Call.Fits.holds_succ {state : BreakerState} {call : Call} {probe : Bool}
    (h : call.isLive = true → call.Fits state) :
    ¬ call.holds (state.failureGeneration + 1) probe = true := by
  intro hholds
  cases call with
  | live place g probe' =>
    obtain ⟨rfl, -⟩ := Call.holds_live.mp hholds
    exact Nat.not_succ_le_self _ ((h rfl).generation rfl)
  | _ => cases hholds

theorem Change.ne_entering {state state' : BreakerState} {history history' : List Outcome}
    {p p' : Call} (h : Change state history p state' history' p') (now : ℕ) :
    p' ≠ .entering now := by
  cases h with
  | keep hprobe hfits => exact hfits.entering now
  | cancel until' hprobe hlive hentering => exact hentering now
  | _ => rintro ⟨⟩

theorem Sound.move {s : System} {w' : Shared} {i : ℕ} {p p' : Call} (h : Sound s)
    (hp : s.parties[i]? = some p) (hclock : w'.clock = s.shared.clock)
    (hchange : Changes s.shared p w' p') :
    Sound ⟨w', s.parties.set i p'⟩ := by
  have hcount := Parties.countP_set_add (b := p')
    (·.holds s.shared.breaker.state.failureGeneration true) hp
  rw [h.probes] at hcount
  have hentering : ∀ now, Call.entering now ∈ s.parties.set i p' → now ≤ w'.clock := by
    intro now hnow
    rcases List.mem_or_eq_of_mem_set hnow with hnow | rfl
    · exact hclock ▸ h.entering now hnow
    · exact absurd rfl (hchange.ne_entering now)
  have hfits : ∀ {state}, (∀ call : Call, call.Fits s.shared.breaker.state → call.Fits state) →
      (p'.isLive = true → p'.Fits state) →
      ∀ call ∈ s.parties.set i p', call.isLive = true → call.Fits state := by
    intro state hother hp'
    exact Parties.forall_mem_set (fun call hcall hlive => hother call (h.fits call hcall hlive)) hp'
  have hfailures := h.failures
  obtain ⟨⟨kind, state, stats, permits, jitterSeed⟩, clock, history⟩ := w'
  dsimp only [Changes] at hchange hentering
  cases hchange with
  | keep hprobe hfit =>
    refine ⟨?_, ?_, hentering, ?_⟩
    · rw [hprobe] at hcount
      exact Nat.add_right_cancel hcount
    · exact hfits (fun _ hcall => hcall) fun _ => hfit
    · exact hfailures
  | probe hopen hprobe =>
    have hclosed : ∀ call : Call, call.Fits s.shared.breaker.state →
        call.Fits { s.shared.breaker.state with phase := .halfOpen } := by
      refine fun call hcall => hcall.of_phase rfl fun hholds => ?_
      cases hopen.symm.trans (hcall.closed hholds)
    refine ⟨?_, ?_, hentering, ?_⟩
    · rw [if_pos rfl]
      rw [hprobe, hopen, if_neg (by rintro ⟨⟩), Call.holds_live.mpr ⟨rfl, rfl⟩] at hcount
      exact hcount
    · refine hfits hclosed fun _ => ⟨by rintro _ ⟨⟩, ?_, by simp [Call.holds]⟩
      rintro place g probe ⟨⟩
      exact Nat.le_refl _
    · exact hfailures
  | cancel until' hprobe hlive _ =>
    have hphase := h.halfOpen (List.mem_of_getElem? hp) hprobe
    have hclosed : ∀ call : Call, call.Fits s.shared.breaker.state →
        call.Fits { s.shared.breaker.state with phase := .open until' } := by
      refine fun call hcall => hcall.of_phase rfl fun hholds => ?_
      cases hphase.symm.trans (hcall.closed hholds)
    refine ⟨?_, ?_, hentering, ?_⟩
    · rw [if_neg (by rintro ⟨⟩)]
      rw [hprobe, Call.holds_eq_false hlive, if_pos hphase] at hcount
      exact Nat.add_right_cancel hcount
    · exact hfits hclosed fun hp' => absurd hp' (Bool.not_eq_true _ ▸ hlive)
    · exact hfailures
  | recover hprobe =>
    refine ⟨?_, ?_, hentering, ?_⟩
    · rw [if_neg (by rintro ⟨⟩)]
      rw [hprobe] at hcount
      by_cases hphase : s.shared.breaker.state.phase = .halfOpen
      · rw [hphase, if_pos rfl] at hcount
        exact Nat.add_right_cancel hcount
      · rw [if_neg hphase, beq_false_of_ne hphase] at hcount
        exact hcount
    · exact hfits (fun call hcall => hcall.of_phase rfl fun _ => rfl) (by rintro ⟨⟩)
    · rfl
  | tolerate hprobe hphase =>
    refine ⟨?_, ?_, hentering, ?_⟩
    · rw [hprobe] at hcount
      exact hcount
    · exact hfits (fun call hcall => hcall.of_phase rfl fun _ => hphase) (by rintro ⟨⟩)
    · exact next_failures _ hfailures
  | trip until' =>
    refine ⟨?_, ?_, hentering, ?_⟩
    · rw [if_neg (by rintro ⟨⟩), List.countP_eq_zero]
      exact Parties.forall_mem_set (fun call hcall => Call.Fits.holds_succ (h.fits call hcall))
        (by rintro ⟨⟩)
    · exact hfits (fun call hcall => hcall.of_lt (Nat.lt_succ_self _)) (by rintro ⟨⟩)
    · exact next_failures _ hfailures

def NoWrap (s : System) (_ : Action) : Prop :=
  s.shared.breaker.state.failureGeneration + 1 < 2 ^ 64

instance (s : System) (a : Action) : Decidable (NoWrap s a) :=
  inferInstanceAs (Decidable (_ < _))

theorem Sound.step {s t : System} {a : Action} (h : Sound s) (hwrap : NoWrap s a)
    (ht : SchedulerRedis.step s a = some t) : Sound t := by
  cases a with
  | tick elapsed =>
    cases ht
    exact ⟨h.probes, h.fits, fun now hnow => Nat.le_add_right_of_le (h.entering now hnow),
      h.failures⟩
  | begin' =>
    cases ht
    refine ⟨?_, ?_, ?_, h.failures⟩
    · simp only [Parties.System.join, List.countP_append]
      exact h.probes
    · intro call hcall hlive
      rcases List.mem_append.mp hcall with hcall | hcall
      · exact h.fits call hcall hlive
      · cases List.mem_singleton.mp hcall
        cases hlive
    · intro now hnow
      rcases List.mem_append.mp hnow with hnow | hnow
      · exact h.entering now hnow
      · cases List.mem_singleton.mp hnow
        exact Nat.le_refl _
  | move call m =>
    obtain ⟨p, w', p', hp, hadvance, rfl⟩ := Parties.System.act_eq_some ht
    have hmem := List.mem_of_getElem? hp
    exact h.move hp (advance_clock hadvance)
      (advance_change hwrap (h.fits p hmem) (h.halfOpen hmem) hadvance)

/-- No call is admitted while the breaker is open, whether by its decision or by the check. -/
def NoAdmission (s t : System) : Prop :=
  ∀ (i : ℕ) (place : Place) (g : ℕ) (probe : Bool), place ≠ .permitted →
    t.parties[i]? = some (.live place g probe) → s.parties[i]? = some (.live place g probe)

structure StepSound (s : System) (a : Action) (t : System) : Prop where
  open' : ∀ until', s.shared.breaker.state.phase = .open until' → s.shared.clock < until' →
    NoAdmission s t
  stale : ∀ {i m place g probe}, a = .move i m → s.parties[i]? = some (.live place g probe) →
    g < s.shared.breaker.state.failureGeneration →
    t.shared.breaker.state = s.shared.breaker.state
  snapshot : ∀ {i place g causes runtimeLag}, s.shared.breaker.kind = .snapshot →
    a = .move i (.failure causes runtimeLag) → s.parties[i]? = some (.live place g false) →
    t.shared.breaker.state.phase = s.shared.breaker.state.phase
  capacity : ∀ {i place g causes runtimeLag}, s.shared.breaker.kind = .capacity →
    a = .move i (.failure causes runtimeLag) → s.parties[i]? = some (.live place g false) →
    isTimeoutFailure causes = true →
    t.shared.breaker.state.phase ≠ s.shared.breaker.state.phase →
    timeoutFailuresToOpen ≤ consecutive t.shared.history

section StepSound

variable {w w' : Shared} {p p' : Call} {until' : ℕ} {place : Place} {g : ℕ} {probe : Bool}

theorem proceed_of_open (hphase : w.breaker.state.phase = .open until')
    (hentering : ∀ now, p = .entering now → now < until')
    (h : proceed w p = some (w', .live place g probe)) : place = .permitted := by
  unfold proceed at h
  split at h
  · rename_i now
    have hdecide : w.breaker.decide now = (w.breaker.failFast, none) := by
      unfold SchedulerRedisBreaker.decide
      rw [hphase]
      exact if_pos (hentering now rfl)
    rw [hdecide] at h
    cases h
  · split_ifs at h
    cases h
    rfl
  · rename_i g' probe'
    have hcurrent : ¬ w.breaker.stillCurrent g' probe' = true := by
      unfold SchedulerRedisBreaker.stillCurrent
      rw [hphase]
      cases probe' <;> simp
    rw [if_neg hcurrent] at h
    cases h
  · cases h

theorem advance_of_open {m : Move} (hphase : w.breaker.state.phase = .open until')
    (hentering : ∀ now, p = .entering now → now < until')
    (h : advance m w p = some (w', .live place g probe)) : place = .permitted := by
  cases m with
  | proceed => exact proceed_of_open hphase hentering h
  | _ => cases (ended_of_advance (by rintro ⟨⟩) h).2

theorem dropAdmission_of_ne {now : ℕ}
    (hg : g ≠ b.state.failureGeneration) : b.dropAdmission g probe now = b := by
  rcases dropAdmission_cases b g probe now with ⟨hdrop, -⟩ | ⟨-, hcurrent, -⟩
  · exact hdrop
  · exact absurd hcurrent hg

theorem completeSuccess_of_ne (hg : g ≠ b.state.failureGeneration) :
    (b.completeSuccess g probe).state = b.state := by
  unfold SchedulerRedisBreaker.completeSuccess
  dsimp only
  rw [if_pos (Ne.symm hg)]

/-- What carries an older generation never changes the state. -/
theorem advance_of_stale {m : Move} (hg : g ≠ w.breaker.state.failureGeneration)
    (h : advance m w (.live place g probe) = some (w', p')) :
    w'.breaker.state = w.breaker.state := by
  cases m with
  | proceed =>
    cases place with
    | waiting =>
      simp only [advance, proceed] at h
      split_ifs at h
      cases h
      rfl
    | permitted =>
      simp only [advance, proceed] at h
      split_ifs at h <;> cases h <;> rfl
    | admitted => cases h
  | overload =>
    have hdrop : (saturate w.breaker).dropAdmission g probe w.clock = saturate w.breaker :=
      dropAdmission_of_ne hg
    cases place with
    | waiting =>
      cases h
      dsimp only
      rw [hdrop]
      rfl
    | permitted =>
      cases h
      dsimp only
      rw [hdrop]
      rfl
    | admitted => cases h
  | drop =>
    cases place with
    | waiting =>
      cases h
      dsimp only
      rw [dropAdmission_of_ne hg]
    | permitted => cases h
    | admitted =>
      cases h
      dsimp only
      rw [dropAdmission_of_ne hg]
      rfl
  | success =>
    cases place with
    | waiting => cases h
    | permitted => cases h
    | admitted =>
      cases h
      exact completeSuccess_of_ne hg
  | failure causes runtimeLag =>
    cases place with
    | waiting => cases h
    | permitted => cases h
    | admitted =>
      cases h
      rcases completeFailure_cases w.breaker g probe causes runtimeLag w.clock with
        ⟨hstate, -⟩ | ⟨hstate, -⟩ | ⟨-, hcurrent, -⟩ | ⟨-, hcurrent, -⟩
      · exact hstate
      · exact hstate
      · exact absurd hcurrent.symm hg
      · exact absurd hcurrent.symm hg

/-- A failure that no probe reports changes the phase only if it is not tolerated. -/
theorem failure_of_phase_ne {causes : List (List Char)} {runtimeLag : ℕ}
    (h : failure causes runtimeLag w (.live place g false) = some (w', p'))
    (hphase : w'.breaker.state.phase ≠ w.breaker.state.phase) :
    w.breaker.tolerates false causes w.breaker.nextConsecutiveFailures = false ∧
      w'.history = .failure :: w.history := by
  cases place with
  | waiting => cases h
  | permitted => cases h
  | admitted =>
    cases h
    rcases completeFailure_cases w.breaker g false causes runtimeLag w.clock with
      ⟨hstate, -⟩ | ⟨hstate, -⟩ | ⟨hstate, -⟩ | ⟨-, hg, hexcused, htolerates⟩
    · exact absurd (congrArg BreakerState.phase hstate) hphase
    · exact absurd (congrArg BreakerState.phase hstate) hphase
    · exact absurd (congrArg BreakerState.phase hstate) hphase
    · exact ⟨htolerates, if_pos ⟨hg, hexcused⟩⟩

end StepSound

theorem Sound.noAdmission {s t : System} {a : Action} {until' : ℕ} (h : Sound s)
    (hphase : s.shared.breaker.state.phase = .open until') (hclock : s.shared.clock < until')
    (ht : SchedulerRedis.step s a = some t) : NoAdmission s t := by
  intro i place g probe hplace hlive
  cases a with
  | tick elapsed =>
    cases ht
    exact hlive
  | begin' =>
    cases ht
    rcases Nat.lt_or_ge i s.parties.length with hi | hi
    · rwa [Parties.System.join, List.getElem?_append_left hi] at hlive
    · rw [Parties.System.join, List.getElem?_append_right hi] at hlive
      cases List.mem_singleton.mp (List.mem_of_getElem? hlive)
  | move call m =>
    obtain ⟨p, w', p', hp, hadvance, rfl⟩ := Parties.System.act_eq_some ht
    by_cases hi : call = i
    · subst hi
      rw [List.getElem?_set_self (List.getElem?_eq_some_iff.mp hp).1] at hlive
      cases hlive
      refine absurd (advance_of_open hphase ?_ hadvance) hplace
      rintro now rfl
      exact Nat.lt_of_le_of_lt (h.entering now (List.mem_of_getElem? hp)) hclock
    · rwa [List.getElem?_set_ne hi] at hlive

theorem Sound.stepSound {s t : System} {a : Action} (h : Sound s)
    (ht : SchedulerRedis.step s a = some t) : StepSound s a t where
  open' until' hphase hclock := h.noAdmission hphase hclock ht
  stale := by
    rintro i m place g probe rfl hp hg
    obtain ⟨p, w', p', hp', hadvance, rfl⟩ := Parties.System.act_eq_some ht
    cases hp.symm.trans hp'
    exact advance_of_stale (Nat.ne_of_lt hg) hadvance
  snapshot := by
    rintro i place g causes runtimeLag hkind rfl hp
    obtain ⟨p, w', p', hp', hadvance, rfl⟩ := Parties.System.act_eq_some ht
    cases hp.symm.trans hp'
    by_contra hphase
    obtain ⟨htolerates, -⟩ := failure_of_phase_ne hadvance hphase
    simp [SchedulerRedisBreaker.tolerates, hkind] at htolerates
  capacity := by
    rintro i place g causes runtimeLag hkind rfl hp htimeout hphase
    obtain ⟨p, w', p', hp', hadvance, rfl⟩ := Parties.System.act_eq_some ht
    cases hp.symm.trans hp'
    obtain ⟨htolerates, hhistory⟩ := failure_of_phase_ne hadvance hphase
    have hnext : timeoutFailuresToOpen ≤ s.shared.breaker.nextConsecutiveFailures := by
      simpa [SchedulerRedisBreaker.tolerates, hkind, htimeout, Nat.blt_eq, ← Bool.not_eq_true]
        using htolerates
    rw [SchedulerRedisBreaker.nextConsecutiveFailures, next_failures _ h.failures] at hnext
    rw [hhistory]
    exact Nat.le_trans hnext (Nat.min_le_left _ _)

/-- The breaker and its admissions at any time. -/
structure Consistent (s : System) : Prop where
  probe : s.shared.breaker.state.phase = .halfOpen ↔
    s.parties.countP (·.holds s.shared.breaker.state.failureGeneration true) = 1
  closed : ∀ place, Call.live place s.shared.breaker.state.failureGeneration false ∈ s.parties →
    s.shared.breaker.state.phase = .closed

theorem Sound.consistent {s : System} (h : Sound s) : Consistent s where
  probe := by
    rw [h.probes]
    split_ifs with hphase <;> simp [hphase]
  closed place hcall := (h.fits _ hcall rfl).closed (Call.holds_live.mpr ⟨rfl, rfl⟩)

/-- In every interleaving the breaker is half-open exactly while its probe is out, and every
step that follows respects the breaker. -/
theorem run_new_consistent (kind : BreakerKind) (maxInFlight : ℕ) (jitterSeed : UInt64)
    (clock : ℕ) {s : System} (actions : List Action)
    (hwrap : Transition.Along step NoWrap (new kind maxInFlight jitterSeed clock) actions)
    (h : run (new kind maxInFlight jitterSeed clock) actions = some s) :
    Consistent s ∧ ∀ a t, step s a = some t → StepSound s a t := by
  have hs : Sound s := Transition.run_invariant_along
    (fun _ _ _ hwrap hs ht => hs.step hwrap ht) hwrap (sound_new kind maxInFlight jitterSeed clock) h
  exact ⟨hs.consistent, fun a t ht => hs.stepSound ht⟩

/-- A failure opens the breaker, and a call that comes after the backoff becomes the probe. -/
def probing : List Action :=
  [.begin', .move 0 .proceed, .move 0 .proceed, .move 0 .proceed, .move 0 (.failure [] 0),
    .tick degradedBackoffBase, .begin', .move 1 .proceed]

theorem run_new_consistent_probing :
    ∃ s, run (new .capacity 2 7 0) probing = some s ∧
      s.shared.breaker.state.phase = .halfOpen ∧
      Consistent s ∧ ∀ a t, step s a = some t → StepSound s a t :=
  ⟨_, rfl, rfl, run_new_consistent .capacity 2 7 0 probing (by decide) rfl⟩

end KiroProxy.SchedulerRedis
