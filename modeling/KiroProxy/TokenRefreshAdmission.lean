import KiroProxy.Parties
import KiroProxy.Transition
import Mathlib

/-!
# Admission of token refreshes

A refresh is admitted by a bucket of this process or, when a Redis store is set, by the bucket
that all instances share. Failures of Redis open a breaker; once its backoff is over, one call
closes it for the others until the answer is there. A call may be dropped while it waits for
Redis. Times are in nanoseconds.
-/

namespace KiroProxy.TokenRefreshAdmission

def millisecond : ℕ := 1000000

def coordinationRetryAfter : ℕ := 1000 * millisecond

def redisBackoffMax : ℕ := 30000 * millisecond

def bucketTokenUnits : ℕ := 60000

inductive Authority
  | processLocal
  | redisGlobal
  | redisGlobalDegraded
  deriving DecidableEq, Repr

inductive RejectionKind
  | rateLimited
  | coordinationUnavailable
  deriving DecidableEq, Repr

structure Rejected where
  kind : RejectionKind
  authority : Authority
  retryAfter : ℕ
  deriving DecidableEq, Repr

structure Receipt where
  authority : Authority
  remainingMilliTokens : ℕ
  deriving DecidableEq, Repr

structure BucketDecision where
  admitted : Bool
  retryAfter : Option ℕ
  remainingMilliTokens : ℕ
  deriving DecidableEq, Repr

structure LocalTokenRefreshBucket where
  units : ℕ
  lastRefill : ℕ
  deriving DecidableEq, Repr

namespace LocalTokenRefreshBucket

def new (burst now : ℕ) : LocalTokenRefreshBucket where
  units := burst * bucketTokenUnits
  lastRefill := now

def reserve (bucket : LocalTokenRefreshBucket) (now maxRpm burst : ℕ) :
    LocalTokenRefreshBucket × BucketDecision :=
  let capacity := burst * bucketTokenUnits
  let elapsedMs := min ((now - bucket.lastRefill) / millisecond) 86400000
  let units := min (bucket.units + elapsedMs * maxRpm) capacity
  if bucketTokenUnits ≤ units then
    let units := units - bucketTokenUnits
    ({ units, lastRefill := now },
      { admitted := true, retryAfter := none,
        remainingMilliTokens := units / (bucketTokenUnits / 1000) })
  else
    let missing := bucketTokenUnits - units
    let rpm := max maxRpm 1
    let retryAfterMs := (missing + (rpm - 1)) / rpm
    ({ units, lastRefill := now },
      { admitted := false, retryAfter := some (max retryAfterMs 1 * millisecond),
        remainingMilliTokens := units / (bucketTokenUnits / 1000) })

/-- Time that has passed under the old limits is not refilled at the new rate. -/
def reconfigure (bucket : LocalTokenRefreshBucket) (burst now : ℕ) : LocalTokenRefreshBucket where
  units := min bucket.units (burst * bucketTokenUnits)
  lastRefill := now

end LocalTokenRefreshBucket

inductive Phase
  | closed
  | open (retryAt : ℕ)
  | halfOpen
  deriving DecidableEq, Repr

structure RedisState where
  generation : ℕ
  consecutiveFailures : ℕ
  phase : Phase
  deriving DecidableEq, Repr

def nextGeneration (generation : ℕ) : ℕ := (generation + 1) % 2 ^ 64

structure Limits where
  maxRpm : ℕ
  burst : ℕ
  deriving DecidableEq, Repr

/-- A store is known by a number. -/
structure Controller where
  limits : Limits
  bucket : LocalTokenRefreshBucket
  redisStore : Option ℕ
  redisState : RedisState
  redisDegraded : Bool
  admitted : ℕ
  rateLimited : ℕ
  coordinationRejected : ℕ
  redisErrors : ℕ
  lastRetryAfterMs : ℕ
  remainingMilliTokens : ℕ
  deriving DecidableEq, Repr

namespace Controller

def new (maxRpm burst now : ℕ) : Controller where
  limits := { maxRpm, burst }
  bucket := .new burst now
  redisStore := none
  redisState := { generation := 0, consecutiveFailures := 0, phase := .closed }
  redisDegraded := false
  admitted := 0
  rateLimited := 0
  coordinationRejected := 0
  redisErrors := 0
  lastRetryAfterMs := 0
  remainingMilliTokens := burst * 1000

/-- The second half of `set_redis_store` and of `update_limits`. -/
def resetRedisState (c : Controller) : Controller :=
  { c with
    redisState :=
      { generation := nextGeneration c.redisState.generation, consecutiveFailures := 0,
        phase := .closed }
    redisDegraded := false }

/-- The time is read before the lock is taken. -/
def beginRedisAttempt (c : Controller) (now : ℕ) : Controller × Except ℕ ℕ :=
  match c.redisState.phase with
  | .closed => (c, .ok c.redisState.generation)
  | .open retryAt =>
    if now < retryAt then (c, .error (max (retryAt - now) millisecond))
    else
      ({ c with redisState := { c.redisState with phase := .halfOpen } },
        .ok c.redisState.generation)
  | .halfOpen => (c, .error coordinationRetryAfter)

def completeRedisSuccess (c : Controller) (generation : ℕ) : Controller :=
  if c.redisState.generation ≠ generation then c
  else
    { c with
      redisState := { c.redisState with consecutiveFailures := 0, phase := .closed }
      redisDegraded := false }

def redisBackoff (consecutiveFailures : ℕ) : ℕ :=
  min (coordinationRetryAfter * 2 ^ min (consecutiveFailures - 1) 5) redisBackoffMax

def completeRedisFailure (c : Controller) (generation now : ℕ) : Controller × ℕ :=
  if c.redisState.generation ≠ generation then (c, coordinationRetryAfter)
  else
    let consecutiveFailures := min (c.redisState.consecutiveFailures + 1) 16
    let backoff := redisBackoff consecutiveFailures
    ({ c with
        redisState :=
          { generation := nextGeneration c.redisState.generation, consecutiveFailures,
            phase := .open (now + backoff) }
        redisDegraded := true }, backoff)

def rejectCoordination (c : Controller) (retryAfter : ℕ) : Controller × Except Rejected Receipt :=
  ({ c with
      coordinationRejected := c.coordinationRejected + 1
      lastRetryAfterMs := retryAfter / millisecond },
    .error
      { kind := .coordinationUnavailable, authority := .redisGlobalDegraded, retryAfter })

/-- The end of `reserve`, with the decision of either bucket. -/
def settle (c : Controller) (authority : Authority) (decision : BucketDecision) :
    Controller × Except Rejected Receipt :=
  let c := { c with remainingMilliTokens := decision.remainingMilliTokens }
  if decision.admitted then
    ({ c with admitted := c.admitted + 1, lastRetryAfterMs := 0 },
      .ok { authority, remainingMilliTokens := decision.remainingMilliTokens })
  else
    let retryAfter := decision.retryAfter.getD millisecond
    ({ c with rateLimited := c.rateLimited + 1, lastRetryAfterMs := retryAfter / millisecond },
      .error { kind := .rateLimited, authority, retryAfter })

end Controller

/-- A call of `reserve`, `set_redis_store` or `update_limits`. -/
inductive Call
  | reserving
  | loading
  | attempting (limits : Limits)
  | awaiting (limits : Limits) (generation : ℕ)
  | dropped
  | returned (result : Except Rejected Receipt)
  | resetting
  | finished
  deriving DecidableEq, Repr

abbrev System := Parties.System Controller Call

def new (maxRpm burst now : ℕ) : System := ⟨.new maxRpm burst now, []⟩

/-- What the awaited Redis call ends with: its decision, or an error or the timeout. -/
abbrev RedisOutcome := Option BucketDecision

open Controller in
/-- One critical section of a call. -/
def advance (now : ℕ) (outcome : RedisOutcome) (c : Controller) :
    Call → Option (Controller × Call)
  | .reserving =>
    match c.redisStore with
    | some _ => some (c, .loading)
    | none =>
      let (bucket, decision) := c.bucket.reserve now c.limits.maxRpm c.limits.burst
      let (c, result) := { c with bucket }.settle .processLocal decision
      some (c, .returned result)
  | .loading => some (c, .attempting c.limits)
  | .attempting limits =>
    match c.beginRedisAttempt now with
    | (c, .ok generation) => some (c, .awaiting limits generation)
    | (c, .error retryAfter) =>
      let (c, result) := c.rejectCoordination retryAfter
      some (c, .returned result)
  | .awaiting _ generation =>
    match outcome with
    | some decision =>
      let (c, result) := (c.completeRedisSuccess generation).settle .redisGlobal decision
      some (c, .returned result)
    | none =>
      let (c, retryAfter) := c.completeRedisFailure generation now
      let (c, result) := { c with redisErrors := c.redisErrors + 1 }.rejectCoordination retryAfter
      some (c, .returned result)
  | .resetting => some (c.resetRedisState, .finished)
  | .dropped => none
  | .returned _ => none
  | .finished => none

def drop (c : Controller) : Call → Option (Controller × Call)
  | .awaiting _ _ => some (c, .dropped)
  | _ => none

inductive Action
  | reserve
  | setRedisStore (store : Option ℕ)
  | updateLimits (maxRpm burst now : ℕ)
  | advance (call now : ℕ) (outcome : RedisOutcome)
  | cancel (call : ℕ)
  deriving DecidableEq, Repr

def step (s : System) : Action → Option System
  | .reserve => some (s.join .reserving)
  | .setRedisStore redisStore =>
    some { s.join .resetting with shared := { s.shared with redisStore } }
  | .updateLimits maxRpm burst now =>
    some { s.join .resetting with
      shared := { s.shared with
        limits := { maxRpm, burst }
        bucket := s.shared.bucket.reconfigure burst now } }
  | .advance call now outcome => s.act (TokenRefreshAdmission.advance now outcome) call
  | .cancel call => s.act drop call

def run : System → List Action → Option System := Transition.run step

def Call.isAwaiting (generation : ℕ) : Call → Bool
  | .awaiting _ g => g == generation
  | _ => false

def Probed (s : System) : Prop :=
  s.shared.redisState.phase = .halfOpen →
    ∃ call ∈ s.parties, call.isAwaiting s.shared.redisState.generation = true

def KeepsProbe (s : System) : Action → Prop
  | .cancel call =>
    s.shared.redisState.phase = .halfOpen →
      ∀ p ∈ s.parties[call]?, p.isAwaiting s.shared.redisState.generation = false
  | _ => True

instance (s : System) (a : Action) : Decidable (KeepsProbe s a) := by
  unfold KeepsProbe
  split <;> infer_instance

theorem settle_redisState (c : Controller) (authority : Authority) (decision : BucketDecision) :
    (c.settle authority decision).1.redisState = c.redisState := by
  unfold Controller.settle
  dsimp only
  split_ifs <;> rfl

theorem beginRedisAttempt_cases (c : Controller) (now : ℕ) :
    (∃ result, c.beginRedisAttempt now = (c, result)) ∨
      c.beginRedisAttempt now =
        ({ c with redisState := { c.redisState with phase := .halfOpen } },
          .ok c.redisState.generation) := by
  unfold Controller.beginRedisAttempt
  split
  · exact .inl ⟨_, rfl⟩
  · split_ifs
    · exact .inl ⟨_, rfl⟩
    · exact .inr rfl
  · exact .inl ⟨_, rfl⟩

/-- A critical section that concerns the breaker ends the wait for the probe or begins it. -/
theorem advance_cases {now : ℕ} {outcome : RedisOutcome} {c c' : Controller} {p p' : Call}
    (h : advance now outcome c p = some (c', p')) :
    (c'.redisState = c.redisState ∧ p.isAwaiting c.redisState.generation = false) ∨
      c'.redisState.phase ≠ .halfOpen ∨ p'.isAwaiting c'.redisState.generation = true := by
  cases p with
  | reserving =>
    rw [advance] at h
    split at h
    · cases h
      exact .inl ⟨rfl, rfl⟩
    · cases h
      exact .inl ⟨settle_redisState _ _ _, rfl⟩
  | loading =>
    cases h
    exact .inl ⟨rfl, rfl⟩
  | attempting limits =>
    rcases beginRedisAttempt_cases c now with ⟨result, hbegin⟩ | hbegin
    · rw [advance, hbegin] at h
      cases result <;> cases h <;> exact .inl ⟨rfl, rfl⟩
    · rw [advance, hbegin] at h
      cases h
      exact .inr (.inr (by simp [Call.isAwaiting]))
  | awaiting limits generation =>
    cases outcome with
    | some decision =>
      simp only [advance, Option.some.injEq, Prod.mk.injEq] at h
      obtain ⟨rfl, rfl⟩ := h
      rw [settle_redisState, Controller.completeRedisSuccess]
      split_ifs with hgeneration
      · exact .inl ⟨rfl, beq_false_of_ne (Ne.symm hgeneration)⟩
      · exact .inr (.inl (by rintro ⟨⟩))
    | none =>
      simp only [advance, Controller.rejectCoordination, Option.some.injEq, Prod.mk.injEq] at h
      obtain ⟨rfl, rfl⟩ := h
      simp only [Controller.completeRedisFailure]
      split_ifs with hgeneration
      · exact .inl ⟨rfl, beq_false_of_ne (Ne.symm hgeneration)⟩
      · exact .inr (.inl (by rintro ⟨⟩))
  | resetting =>
    cases h
    exact .inr (.inl (by rintro ⟨⟩))
  | dropped => cases h
  | returned result => cases h
  | finished => cases h

theorem drop_eq_some {c c' : Controller} {p p' : Call} (h : drop c p = some (c', p')) : c' = c := by
  cases p <;> cases h
  rfl

theorem Probed.join {s : System} (h : Probed s) (call : Call) {c : Controller}
    (hstate : c.redisState = s.shared.redisState) : Probed { s.join call with shared := c } := by
  intro hphase
  rw [hstate] at hphase ⊢
  obtain ⟨probe, hprobe, hawaiting⟩ := h hphase
  exact ⟨probe, List.mem_append_left _ hprobe, hawaiting⟩

theorem Probed.step {s t : System} {a : Action} (h : Probed s) (hkeeps : KeepsProbe s a)
    (ht : TokenRefreshAdmission.step s a = some t) : Probed t := by
  cases a with
  | reserve =>
    cases ht
    exact h.join .reserving rfl
  | setRedisStore store =>
    cases ht
    exact h.join .resetting rfl
  | updateLimits maxRpm burst now =>
    cases ht
    exact h.join .resetting rfl
  | advance call now outcome =>
    obtain ⟨p, c', p', hp, hadvance, rfl⟩ := Parties.System.act_eq_some ht
    intro hphase
    rcases advance_cases hadvance with ⟨hstate, hawaiting⟩ | hclosed | hawaiting
    · simp only [hstate] at hphase ⊢
      obtain ⟨probe, hprobe, hprobing⟩ := h hphase
      rcases Parties.mem_set_or_eq (b := p') hp hprobe with hprobe | rfl
      · exact ⟨probe, hprobe, hprobing⟩
      · rw [hawaiting] at hprobing
        cases hprobing
    · exact absurd hphase hclosed
    · exact ⟨p', Parties.mem_set_self hp, hawaiting⟩
  | cancel call =>
    obtain ⟨p, c', p', hp, hdrop, rfl⟩ := Parties.System.act_eq_some ht
    obtain rfl := drop_eq_some hdrop
    intro hphase
    obtain ⟨probe, hprobe, hprobing⟩ := h hphase
    rcases Parties.mem_set_or_eq (b := p') hp hprobe with hprobe | rfl
    · exact ⟨probe, hprobe, hprobing⟩
    · rw [hkeeps hphase probe hp] at hprobing
      cases hprobing

/-- In every interleaving in which no awaited probe is dropped, a half-open breaker has a call of
its generation pending. -/
theorem run_new_probed (maxRpm burst now : ℕ) {s : System} (actions : List Action)
    (hkeeps : Transition.Along step KeepsProbe (new maxRpm burst now) actions)
    (h : run (new maxRpm burst now) actions = some s) : Probed s := by
  have hnew : Probed (new maxRpm burst now) := by rintro ⟨⟩
  exact Transition.run_invariant_along (fun _ _ _ hkeeps hs ht => hs.step hkeeps ht) hkeeps hnew h

/-- The first call fails, and the second one becomes the probe after the backoff. -/
def probing : List Action :=
  [.setRedisStore (some 0), .advance 0 0 none, .reserve, .advance 1 0 none, .advance 1 0 none,
    .advance 1 0 none, .advance 1 0 none, .reserve, .advance 2 0 none, .advance 2 0 none,
    .advance 2 (1000 * millisecond) none]

/-- The second call is the probe. -/
theorem run_new_probed_probing :
    ∃ s, run (new 60 8 0) probing = some s ∧ s.shared.redisState.phase = .halfOpen ∧ Probed s :=
  ⟨_, rfl, rfl, run_new_probed 60 8 0 probing (by decide) rfl⟩

/-- The caller of the probe goes away, and every later call is rejected. -/
theorem probe_dropped :
    ∃ s, run (new 60 8 0) (probing ++ [.cancel 2, .reserve, .advance 3 0 none, .advance 3 0 none,
        .advance 3 (60000 * millisecond) none]) = some s ∧ ¬ Probed s ∧
      s.parties[3]? = some (.returned (.error
        { kind := .coordinationUnavailable, authority := .redisGlobalDegraded,
          retryAfter := coordinationRetryAfter })) := by
  refine ⟨_, rfl, ?_, rfl⟩
  unfold Probed
  decide

end KiroProxy.TokenRefreshAdmission
