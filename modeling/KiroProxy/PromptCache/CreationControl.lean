import KiroProxy.PromptCache.State

/-!
# How many written tokens are reported

The tokens that a request wrote to the prompt cache are reported only as far as limits of
frequency, size and of a sliding window allow. What is held back is reported as input. Times
are in nanoseconds. The hasher of the seed stays a function; the deficit of costs is left out.
-/

namespace KiroProxy.PromptCache.CreationControl

def i32Max : ℤ := 2 ^ 31 - 1

def i32Min : ℤ := -2 ^ 31

/-- The result of a saturating operation. -/
def saturate (value : ℤ) : ℤ := max (min value i32Max) i32Min

def u32Max : ℕ := 2 ^ 32 - 1

/-- A cast of `u64` to `i64`. -/
def asI64 (value : ℕ) : ℤ := if value < 2 ^ 63 then value else value - 2 ^ 64

theorem asI64_of_lt {value : ℕ} (h : value < 2 ^ 63) : asI64 value = value := if_pos h

def nanosPerSecond : ℤ := 1000000000

/-- `num_seconds` of a difference of times. -/
def numSeconds (duration : ℤ) : ℤ := duration.tdiv nanosPerSecond

def trim (s : String) : String := String.ofList (trimChars s.toList)

inductive ScopeMode
  | credentialConversationModel
  | conversationModel
  deriving DecidableEq, Repr

structure PromptCacheCreationControlConfig where
  enabled : Bool
  scopeMode : ScopeMode
  minSuccessfulRequestsBetweenCreation : ℕ
  minCreationIntervalSecs : ℕ
  minCreationDeltaTokens : ℤ
  maxCreationTokensPerEvent : ℤ
  creationBudgetWindowSecs : ℕ
  maxCreationTokensPerWindow : ℤ
  expireAfterIdleSecs : ℕ
  deriving DecidableEq, Repr

namespace PromptCacheCreationControlConfig

def normalized (config : PromptCacheCreationControlConfig) : PromptCacheCreationControlConfig :=
  { config with
    minCreationDeltaTokens := max config.minCreationDeltaTokens 0
    maxCreationTokensPerEvent := max config.maxCreationTokensPerEvent 0
    maxCreationTokensPerWindow := max config.maxCreationTokensPerWindow 0 }

def validateWithLabel (config : PromptCacheCreationControlConfig) (label : String) :
    Except String Unit :=
  if config.minCreationDeltaTokens < 0 then
    .error (label ++ ".minCreationDeltaTokens 不能小于 0")
  else if config.maxCreationTokensPerEvent < 0 then
    .error (label ++ ".maxCreationTokensPerEvent 不能小于 0")
  else if config.maxCreationTokensPerWindow < 0 then
    .error (label ++ ".maxCreationTokensPerWindow 不能小于 0")
  else
    let config := config.normalized
    if 10000 < config.minSuccessfulRequestsBetweenCreation then
      .error (label ++ ".minSuccessfulRequestsBetweenCreation 不能大于 10000")
    else if 7 * 24 * 60 * 60 < config.minCreationIntervalSecs then
      .error (label ++ ".minCreationIntervalSecs 不能大于 604800")
    else if 7 * 24 * 60 * 60 < config.creationBudgetWindowSecs then
      .error (label ++ ".creationBudgetWindowSecs 不能大于 604800")
    else if 30 * 24 * 60 * 60 < config.expireAfterIdleSecs then
      .error (label ++ ".expireAfterIdleSecs 不能大于 2592000")
    else .ok ()

def validate (config : PromptCacheCreationControlConfig) : Except String Unit :=
  config.validateWithLabel "promptCacheCreationControl"

end PromptCacheCreationControlConfig

structure CreationControlKey where
  conversationId : String
  routeNamespace : Option String
  credentialKey : Option String
  model : Option String
  deriving DecidableEq, Repr

def CreationControlKey.fromScope (scope : PromptCacheScope) (mode : ScopeMode)
    (credentialKey model : Option String) : CreationControlKey where
  conversationId := scope.conversationId
  routeNamespace := scope.routeNamespace
  credentialKey :=
    match mode with
    | .credentialConversationModel => (credentialKey.map trim).filter fun key => key != ""
    | .conversationModel => none
  model := (model.map trim).filter fun model => model != ""

structure CacheUsage where
  totalInputTokens : ℤ
  inputTokens : ℤ
  outputTokens : ℤ
  cacheCreationInputTokens : ℤ
  cacheReadInputTokens : ℤ
  cacheCreation5mInputTokens : ℤ
  cacheCreation1hInputTokens : ℤ
  deriving DecidableEq, Repr

structure CreationWindowEvent where
  time : ℤ
  tokens : ℤ
  deriving DecidableEq, Repr

structure CreationControlState where
  lastSeenAt : Option ℤ := none
  lastCreationAt : Option ℤ := none
  successfulRequestsSinceCreation : ℕ := 0
  pendingCreationTokens : ℤ := 0
  windowEvents : List CreationWindowEvent := []
  deriving DecidableEq, Repr

abbrev States := List (CreationControlKey × CreationControlState)

def usedTokens (events : List CreationWindowEvent) : ℤ :=
  events.foldl (fun sum event => saturate (sum + max event.tokens 0)) 0

def splitmix64 (value : UInt64) : UInt64 :=
  let value := value + 0x9e3779b97f4a7c15
  let value := (value ^^^ (value >>> 30)) * 0xbf58476d1ce4e5b9
  let value := (value ^^^ (value >>> 27)) * 0x94d049bb133111eb
  value ^^^ (value >>> 31)

def sampleInclusive (seed : UInt64) (low high : ℤ) : ℤ :=
  let low := max low 0
  let high := max high low
  low + ((splitmix64 seed).toNat % (high - low + 1).toNat : ℕ)

def jitteredCreationLimit (maxTokens : ℤ) (seed : UInt64) : ℤ :=
  let maxTokens := max maxTokens 0
  if maxTokens ≤ 1 then maxTokens
  else
    let minJitter := min (max (maxTokens / 33) 1) (maxTokens - 1)
    let maxJitter := min (max (maxTokens * 12 / 100) minJitter) (maxTokens - 1)
    saturate (maxTokens - sampleInclusive seed minJitter maxJitter)

/-- What the seed of a limit is hashed from. -/
structure CapSeed where
  key : CreationControlKey
  successfulRequestsSinceCreation : ℕ
  pendingCreationTokens : ℤ
  windowEvents : ℕ
  usedTokens : ℤ
  maxCreationTokensPerEvent : ℤ
  maxCreationTokensPerWindow : ℤ
  inputTokens : ℤ
  outputTokens : ℤ
  cacheReadInputTokens : ℤ
  creation : ℤ
  deriving DecidableEq, Repr

section Hasher

variable (finish : CapSeed → UInt64)

def creationCapSeed (key : CreationControlKey) (state : CreationControlState)
    (config : PromptCacheCreationControlConfig) (usage : CacheUsage) (creation : ℤ)
    (salt : UInt64) : UInt64 :=
  splitmix64 (finish
    { key := key
      successfulRequestsSinceCreation := state.successfulRequestsSinceCreation
      pendingCreationTokens := state.pendingCreationTokens
      windowEvents := state.windowEvents.length
      usedTokens := usedTokens state.windowEvents
      maxCreationTokensPerEvent := config.maxCreationTokensPerEvent
      maxCreationTokensPerWindow := config.maxCreationTokensPerWindow
      inputTokens := usage.inputTokens
      outputTokens := usage.outputTokens
      cacheReadInputTokens := usage.cacheReadInputTokens
      creation := creation } ^^^ salt)

def minPartialCreationTokens : ℤ := 1024

/-- After a first write, writes are held back that are too early or too few. -/
def isHeldBack (state : CreationControlState) (config : PromptCacheCreationControlConfig)
    (creation now : ℤ) : Bool :=
  match state.lastCreationAt with
  | none => false
  | some lastCreationAt =>
    state.successfulRequestsSinceCreation < config.minSuccessfulRequestsBetweenCreation ||
    (0 < config.minCreationIntervalSecs &&
      numSeconds (now - lastCreationAt) < asI64 config.minCreationIntervalSecs) ||
    (0 < config.minCreationDeltaTokens &&
      max (saturate (state.pendingCreationTokens + creation)) 0 < config.minCreationDeltaTokens)

/-- What the window leaves. The jitter is on the limit in the stable mode and else on the
rest. -/
def windowRemaining (config : PromptCacheCreationControlConfig) (used : ℤ) (seed : UInt64)
    (stableWindow : Bool) : ℤ :=
  let remaining := max (saturate (config.maxCreationTokensPerWindow - used)) 0
  if stableWindow then
    let windowCap := jitteredCreationLimit config.maxCreationTokensPerWindow seed
    min remaining (max (saturate (windowCap - used)) 0)
  else jitteredCreationLimit remaining seed

def allowedCreationTokens (key : CreationControlKey) (state : CreationControlState)
    (config : PromptCacheCreationControlConfig) (usage : CacheUsage) (creation now : ℤ)
    (stableWindow : Bool) : ℤ :=
  let allowed := max creation 0
  if allowed ≤ 0 then 0
  else if isHeldBack state config creation now then 0
  else
    let allowed :=
      if 0 < config.maxCreationTokensPerEvent then
        min allowed (jitteredCreationLimit config.maxCreationTokensPerEvent
          (creationCapSeed finish key state config usage creation 0x9b6d9f4321a40f17))
      else allowed
    let allowed :=
      if 0 < config.creationBudgetWindowSecs ∧ 0 < config.maxCreationTokensPerWindow then
        min allowed (windowRemaining config (usedTokens state.windowEvents)
          (creationCapSeed finish key state config usage creation 0xc2a45d138e9f62b7)
          stableWindow)
      else allowed
    if stableWindow = true ∧ allowed < creation ∧ allowed < minPartialCreationTokens then 0
    else max allowed 0

def capCreationBreakdown (cache5m cache1h limit : ℤ) : ℤ × ℤ :=
  let limit := max limit 0
  let cache5m := min (max cache5m 0) limit
  (cache5m, min (max cache1h 0) (saturate (limit - cache5m)))

def reportedTotalInputTokens (inputTokens cacheReadTokens creationTokens : ℤ) : ℤ :=
  saturate (saturate (max inputTokens 0 + max cacheReadTokens 0) + max creationTokens 0)

def withAllowedCreation (usage : CacheUsage) (allowedCreation : ℤ) : CacheUsage :=
  let originalCreation := max usage.cacheCreationInputTokens 0
  let allowedCreation := min (max allowedCreation 0) originalCreation
  if allowedCreation = originalCreation then usage
  else
    let suppressedCreation := saturate (originalCreation - allowedCreation)
    let (cache5m, cache1h) := capCreationBreakdown usage.cacheCreation5mInputTokens
      usage.cacheCreation1hInputTokens allowedCreation
    let inputTokens := saturate (usage.inputTokens + suppressedCreation)
    { usage with
      inputTokens := inputTokens
      cacheCreationInputTokens := allowedCreation
      cacheCreation5mInputTokens := cache5m
      cacheCreation1hInputTokens := cache1h
      totalInputTokens :=
        reportedTotalInputTokens inputTokens usage.cacheReadInputTokens allowedCreation }

def pruneWindowEvents (state : CreationControlState) (now : ℤ)
    (config : PromptCacheCreationControlConfig) : CreationControlState :=
  { state with
    windowEvents :=
      if config.creationBudgetWindowSecs = 0 then []
      else state.windowEvents.dropWhile fun event =>
        asI64 config.creationBudgetWindowSecs ≤ numSeconds (now - event.time) }

def isIdleExpired (state : CreationControlState) (now : ℤ)
    (config : PromptCacheCreationControlConfig) : Bool :=
  0 < config.expireAfterIdleSecs && state.lastSeenAt.any fun lastSeenAt =>
    asI64 config.expireAfterIdleSecs ≤ numSeconds (now - lastSeenAt)

def pruneIdleStates (states : States) (now : ℤ) (config : PromptCacheCreationControlConfig) :
    States :=
  if config.expireAfterIdleSecs = 0 then states
  else states.filter fun state => !isIdleExpired state.2 now config

structure Call where
  now : ℤ
  scope : Option PromptCacheScope
  usage : CacheUsage
  credentialKey : Option String
  model : Option String
  stableWindow : Bool
  deriving DecidableEq, Repr

/-- The state after a call whose tokens were allowed or held back. -/
def CreationControlState.record (state : CreationControlState) (creation allowed now : ℤ) :
    CreationControlState :=
  let recorded : CreationControlState :=
    if 0 < allowed then
      { lastSeenAt := some now
        lastCreationAt := some now
        successfulRequestsSinceCreation := 0
        pendingCreationTokens := 0
        windowEvents := state.windowEvents ++ [⟨now, allowed⟩] }
    else
      { state with
        lastSeenAt := some now
        successfulRequestsSinceCreation := min (state.successfulRequestsSinceCreation + 1) u32Max }
  if allowed < creation then
    { recorded with
      pendingCreationTokens :=
        saturate (recorded.pendingCreationTokens + saturate (creation - allowed)) }
  else recorded

def applySuccessWithMode (config : PromptCacheCreationControlConfig) (states : States)
    (call : Call) : States × CacheUsage :=
  let config := config.normalized
  if config.enabled = false then (states, call.usage)
  else
    match call.scope with
    | none => (states, call.usage)
    | some scope =>
      let creation := max call.usage.cacheCreationInputTokens 0
      let states := pruneIdleStates states call.now config
      let key := CreationControlKey.fromScope scope config.scopeMode call.credentialKey call.model
      if creation ≤ 0 then
        match KeyedList.get key states with
        | none => (states, call.usage)
        | some state =>
          let state := pruneWindowEvents state call.now config
          (KeyedList.insert key { state with
            lastSeenAt := some call.now
            successfulRequestsSinceCreation :=
              min (state.successfulRequestsSinceCreation + 1) u32Max } states, call.usage)
      else
        let state := pruneWindowEvents ((KeyedList.get key states).getD {}) call.now config
        let allowed := allowedCreationTokens finish key state config call.usage creation call.now
          call.stableWindow
        (KeyedList.insert key (state.record creation allowed call.now) states,
          withAllowedCreation call.usage allowed)

/-- The control key of a call. A call without a scope has none and is not controlled. -/
def Call.key (config : PromptCacheCreationControlConfig) (call : Call) :
    Option CreationControlKey :=
  call.scope.map fun scope => .fromScope scope config.scopeMode call.credentialKey call.model

def run (config : PromptCacheCreationControlConfig) (states : States) (calls : List Call) :
    States :=
  calls.foldl (fun states call => (applySuccessWithMode finish config states call).1) states

def letThrough (config : PromptCacheCreationControlConfig) (key : CreationControlKey) :
    States → List Call → ℤ
  | _, [] => 0
  | states, call :: calls =>
    let (states, usage) := applySuccessWithMode finish config states call
    (if call.key config = some key then max usage.cacheCreationInputTokens 0 else 0) +
      letThrough config key states calls

end Hasher

variable (finish : CapSeed → UInt64) {config : PromptCacheCreationControlConfig}
  {states : States} {call : Call} {calls : List Call} {key : CreationControlKey}

theorem saturate_le {value bound : ℤ} (h : value ≤ bound) (hbound : 0 ≤ bound) :
    saturate value ≤ bound := by
  rw [saturate, i32Min]
  omega

theorem sampleInclusive_nonneg (seed : UInt64) (low high : ℤ) :
    0 ≤ sampleInclusive seed low high := by
  have hlow : 0 ≤ max low 0 := le_max_right low 0
  exact Int.add_nonneg hlow (Int.natCast_nonneg _)

theorem jitteredCreationLimit_le (maxTokens : ℤ) (seed : UInt64) :
    jitteredCreationLimit maxTokens seed ≤ max maxTokens 0 := by
  rw [jitteredCreationLimit]
  dsimp only
  split_ifs
  · exact le_rfl
  · refine saturate_le (Int.sub_le_self _ (sampleInclusive_nonneg _ _ _)) (le_max_right _ _)

theorem windowRemaining_le (config : PromptCacheCreationControlConfig) (used : ℤ)
    (seed : UInt64) (stableWindow : Bool) :
    windowRemaining config used seed stableWindow ≤
      max (saturate (config.maxCreationTokensPerWindow - used)) 0 := by
  have hjitter := jitteredCreationLimit_le
    (max (saturate (config.maxCreationTokensPerWindow - used)) 0) seed
  rw [windowRemaining]
  cases stableWindow with
  | true => exact min_le_left _ _
  | false => exact hjitter.trans (by simp)

theorem allowedCreationTokens_nonneg (key : CreationControlKey) (state : CreationControlState)
    (config : PromptCacheCreationControlConfig) (usage : CacheUsage) (creation now : ℤ)
    (stableWindow : Bool) :
    0 ≤ allowedCreationTokens finish key state config usage creation now stableWindow := by
  rw [allowedCreationTokens]
  dsimp only
  split_ifs <;> first | exact le_rfl | exact le_max_right _ _

theorem allowedCreationTokens_le (hwindow : 0 < config.creationBudgetWindowSecs)
    (hmax : 0 < config.maxCreationTokensPerWindow) (key : CreationControlKey)
    (state : CreationControlState) (usage : CacheUsage) (creation now : ℤ)
    (stableWindow : Bool) :
    allowedCreationTokens finish key state config usage creation now stableWindow ≤
      max (saturate (config.maxCreationTokensPerWindow - usedTokens state.windowEvents)) 0 := by
  have hremaining := windowRemaining_le config (usedTokens state.windowEvents)
    (creationCapSeed finish key state config usage creation 0xc2a45d138e9f62b7) stableWindow
  rw [allowedCreationTokens]
  dsimp only
  rw [if_pos (And.intro hwindow hmax)]
  split_ifs
  · exact le_max_right _ _
  · exact le_max_right _ _
  · exact le_max_right _ _
  · exact max_le ((min_le_right _ _).trans hremaining) (le_max_right _ _)
  · exact le_max_right _ _
  · exact max_le ((min_le_right _ _).trans hremaining) (le_max_right _ _)

theorem letThrough_withAllowedCreation {allowed : ℤ} (hallowed : 0 ≤ allowed)
    (usage : CacheUsage) :
    max (withAllowedCreation usage allowed).cacheCreationInputTokens 0 ≤ allowed := by
  rw [withAllowedCreation]
  dsimp only
  split_ifs with hall
  · omega
  · dsimp only
    omega

theorem normalized_of_validate (h : config.validate = .ok ()) : config.normalized = config ∧
    config.creationBudgetWindowSecs < 2 ^ 63 ∧ config.expireAfterIdleSecs < 2 ^ 63 := by
  rw [PromptCacheCreationControlConfig.validate,
    PromptCacheCreationControlConfig.validateWithLabel] at h
  split_ifs at h with hdelta hevent hmax
  dsimp only at h
  split_ifs at h with hsuccesses hinterval hwindow hexpire
  rw [PromptCacheCreationControlConfig.normalized] at hwindow hexpire
  dsimp only at hwindow hexpire
  refine ⟨?_, by omega, by omega⟩
  rw [PromptCacheCreationControlConfig.normalized, max_eq_left (by omega),
    max_eq_left (by omega), max_eq_left (by omega)]

def tokenSum (events : List CreationWindowEvent) : ℤ :=
  (events.map CreationWindowEvent.tokens).sum

theorem tokenSum_append (events events' : List CreationWindowEvent) :
    tokenSum (events ++ events') = tokenSum events + tokenSum events' := by
  rw [tokenSum, List.map_append, List.sum_append, tokenSum, tokenSum]

theorem tokenSum_nonneg {events : List CreationWindowEvent}
    (h : ∀ event ∈ events, 0 ≤ event.tokens) : 0 ≤ tokenSum events := by
  refine List.sum_nonneg fun tokens htokens => ?_
  obtain ⟨event, hevent, rfl⟩ := List.mem_map.mp htokens
  exact h event hevent

theorem foldl_usedTokens {events : List CreationWindowEvent}
    (h : ∀ event ∈ events, 0 ≤ event.tokens) {start : ℤ} (hstart : 0 ≤ start)
    (hmax : start + tokenSum events ≤ i32Max) :
    events.foldl (fun sum event => saturate (sum + max event.tokens 0)) start =
      start + tokenSum events := by
  induction events generalizing start with
  | nil => exact (Int.add_zero start).symm
  | cons event events ih =>
    have hevent := h event List.mem_cons_self
    have hevents := fun event hmem => h event (List.mem_cons_of_mem _ hmem)
    have hrest := tokenSum_nonneg hevents
    have hsum : tokenSum (event :: events) = event.tokens + tokenSum events := by
      rw [tokenSum, List.map_cons, List.sum_cons, tokenSum]
    rw [hsum] at hmax
    have hsaturate : saturate (start + max event.tokens 0) = start + event.tokens := by
      rw [saturate, i32Min]
      omega
    rw [List.foldl_cons, hsaturate, ih hevents (by omega) (by omega), hsum, Int.add_assoc]

structure Budgeted (config : PromptCacheCreationControlConfig) (state : CreationControlState) :
    Prop where
  nonneg : ∀ event ∈ state.windowEvents, 0 ≤ event.tokens
  sum_le : tokenSum state.windowEvents ≤ config.maxCreationTokensPerWindow

theorem usedTokens_eq (hi32 : config.maxCreationTokensPerWindow ≤ i32Max)
    {state : CreationControlState} (h : Budgeted config state) :
    usedTokens state.windowEvents = tokenSum state.windowEvents := by
  have hle := h.sum_le
  rw [usedTokens, foldl_usedTokens h.nonneg le_rfl (by omega), Int.zero_add]

theorem Budgeted.of_suffix {state : CreationControlState} (state' : CreationControlState)
    (h : Budgeted config state)
    (hsuffix : state'.windowEvents <:+ state.windowEvents) : Budgeted config state' := by
  obtain ⟨before, hbefore⟩ := hsuffix
  have hnonneg := h.nonneg
  have hle := h.sum_le
  rw [← hbefore] at hnonneg hle
  rw [tokenSum_append] at hle
  have hbefore := tokenSum_nonneg fun event hmem => hnonneg event (List.mem_append_left _ hmem)
  exact ⟨fun event hmem => hnonneg event (List.mem_append_right _ hmem), by omega⟩

theorem pruneWindowEvents_suffix (state : CreationControlState) (now : ℤ)
    (config : PromptCacheCreationControlConfig) :
    (pruneWindowEvents state now config).windowEvents <:+ state.windowEvents := by
  rw [pruneWindowEvents]
  dsimp only
  split_ifs
  · exact List.nil_suffix
  · exact List.dropWhile_suffix _

theorem record_lastSeenAt (state : CreationControlState) (creation allowed now : ℤ) :
    (state.record creation allowed now).lastSeenAt = some now := by
  rw [CreationControlState.record]
  split_ifs <;> rfl

theorem record_windowEvents (state : CreationControlState) (creation allowed now : ℤ) :
    (state.record creation allowed now).windowEvents =
      state.windowEvents ++ if 0 < allowed then [⟨now, allowed⟩] else [] := by
  rw [CreationControlState.record]
  split_ifs
  · rfl
  · exact (List.append_nil _).symm
  · rfl
  · exact (List.append_nil _).symm

theorem Budgeted.record (hwindow : 0 < config.creationBudgetWindowSecs)
    (hmax : 0 < config.maxCreationTokensPerWindow)
    (hi32 : config.maxCreationTokensPerWindow ≤ i32Max) {state : CreationControlState}
    (h : Budgeted config state) (key : CreationControlKey) (usage : CacheUsage)
    (creation now : ℤ) (stableWindow : Bool) :
    Budgeted config (state.record creation
      (allowedCreationTokens finish key state config usage creation now stableWindow) now) := by
  have hle := allowedCreationTokens_le finish hwindow hmax key state usage creation now
    stableWindow
  have hsum := h.sum_le
  rw [usedTokens_eq hi32 h] at hle
  have hroom := saturate_le (le_refl (config.maxCreationTokensPerWindow -
    tokenSum state.windowEvents)) (by omega)
  constructor
  · rw [record_windowEvents]
    intro event hevent
    rcases List.mem_append.mp hevent with hevent | hevent
    · exact h.nonneg event hevent
    · split_ifs at hevent with hallowed
      · rw [List.mem_singleton.mp hevent]
        exact hallowed.le
      · cases hevent
  · rw [record_windowEvents, tokenSum_append]
    split_ifs with hallowed
    · have hsingle (tokens : ℤ) : tokenSum [⟨now, tokens⟩] = tokens := by simp [tokenSum]
      rw [hsingle]
      omega
    · have hnil : tokenSum [] = 0 := rfl
      omega

theorem budgeted_pruneIdleStates (h : ∀ state ∈ states, Budgeted config state.2) (now : ℤ) :
    ∀ state ∈ pruneIdleStates states now config, Budgeted config state.2 := by
  intro state hstate
  rw [pruneIdleStates] at hstate
  split_ifs at hstate
  · exact h state hstate
  · exact h state (List.mem_of_mem_filter hstate)

theorem budgeted_getD (hmax : 0 < config.maxCreationTokensPerWindow)
    (h : ∀ state ∈ states, Budgeted config state.2) (key : CreationControlKey) :
    Budgeted config ((KeyedList.get key states).getD {}) := by
  cases hget : KeyedList.get key states with
  | none => exact ⟨by simp, hmax.le⟩
  | some state => exact h _ (KeyedList.mem_of_get hget)

/-- The effect of a call with a key: none but expiry, or a state that was seen at the time of
the call, with what it let through among its events. -/
inductive Effect (config : PromptCacheCreationControlConfig) (states : States) (call : Call)
    (key : CreationControlKey) : States → ℤ → Prop
  | unknown (hget : KeyedList.get key (pruneIdleStates states call.now config) = none) :
      Effect config states call key (pruneIdleStates states call.now config) 0
  | seen (state : CreationControlState) (added : List CreationWindowEvent) (tokens : ℤ)
      (hseen : state.lastSeenAt = some call.now)
      (hevents : state.windowEvents = (pruneWindowEvents
        ((KeyedList.get key (pruneIdleStates states call.now config)).getD {}) call.now
        config).windowEvents ++ added)
      (hbudget : Budgeted config state) (hadded : ∀ event ∈ added, event.time = call.now)
      (htokens : tokens ≤ tokenSum added) :
      Effect config states call key
        (KeyedList.insert key state (pruneIdleStates states call.now config)) tokens

theorem applySuccessWithMode_of_key_eq_none (hkey : call.key config = none) :
    applySuccessWithMode finish config states call = (states, call.usage) := by
  have hscope : call.scope = none := Option.map_eq_none_iff.mp hkey
  rw [applySuccessWithMode, hscope]
  dsimp only
  split_ifs <;> rfl

theorem effect_applySuccessWithMode (hnormal : config.normalized = config)
    (henabled : config.enabled = true) (hwindow : 0 < config.creationBudgetWindowSecs)
    (hmax : 0 < config.maxCreationTokensPerWindow)
    (hi32 : config.maxCreationTokensPerWindow ≤ i32Max)
    (hbudget : ∀ state ∈ states, Budgeted config state.2) (hkey : call.key config = some key) :
    Effect config states call key (applySuccessWithMode finish config states call).1
      (max (applySuccessWithMode finish config states call).2.cacheCreationInputTokens 0) := by
  obtain ⟨scope, hscope, rfl⟩ := Option.map_eq_some_iff.mp hkey
  have hpruned := Budgeted.of_suffix _ (budgeted_getD hmax
    (budgeted_pruneIdleStates hbudget call.now)
    (.fromScope scope config.scopeMode call.credentialKey call.model))
    (pruneWindowEvents_suffix _ call.now config)
  rw [applySuccessWithMode, hnormal, hscope]
  dsimp only
  rw [if_neg (by simp [henabled])]
  split_ifs with hcreation
  · have hzero : max call.usage.cacheCreationInputTokens 0 = 0 := by omega
    cases hget : KeyedList.get
        (.fromScope scope config.scopeMode call.credentialKey call.model)
        (pruneIdleStates states call.now config) with
    | none =>
      dsimp only
      rw [hzero]
      exact .unknown hget
    | some state =>
      rw [hget] at hpruned
      dsimp only
      rw [hzero]
      refine .seen _ [] 0 rfl ?_ ⟨hpruned.nonneg, hpruned.sum_le⟩ (by simp) le_rfl
      rw [hget, List.append_nil]
      rfl
  · refine .seen _ _ _ (record_lastSeenAt _ _ _ _) (record_windowEvents _ _ _ _)
      (hpruned.record finish hwindow hmax hi32 _ _ _ _ _) ?_ ?_
    · intro event hevent
      split_ifs at hevent
      · rw [List.mem_singleton.mp hevent]
      · cases hevent
    · have hnonneg := allowedCreationTokens_nonneg finish
        (.fromScope scope config.scopeMode call.credentialKey call.model)
        (pruneWindowEvents ((KeyedList.get
          (.fromScope scope config.scopeMode call.credentialKey call.model)
          (pruneIdleStates states call.now config)).getD {}) call.now config)
        config call.usage (max call.usage.cacheCreationInputTokens 0) call.now call.stableWindow
      refine (letThrough_withAllowedCreation hnonneg call.usage).trans ?_
      split_ifs with hallowed
      · simp [tokenSum]
      · exact (Int.not_lt.mp hallowed)

theorem Effect.budgeted {states' : States} {tokens : ℤ}
    (h : Effect config states call key states' tokens)
    (hbudget : ∀ state ∈ states, Budgeted config state.2) :
    ∀ state ∈ states', Budgeted config state.2 := by
  have hpruned := budgeted_pruneIdleStates hbudget call.now
  cases h with
  | unknown => exact hpruned
  | seen state added tokens hseen hevents hstate hadded htokens =>
    intro entry hentry
    rcases KeyedList.mem_insert hentry with rfl | hentry
    · exact hstate
    · exact hpruned entry hentry

theorem Effect.get_of_ne {states' : States} {tokens : ℤ} {key' : CreationControlKey}
    (h : Effect config states call key states' tokens) (hne : key' ≠ key) :
    KeyedList.get key' states' =
      KeyedList.get key' (pruneIdleStates states call.now config) := by
  cases h with
  | unknown => rfl
  | seen => exact KeyedList.get_insert_of_ne hne _ _

end KiroProxy.PromptCache.CreationControl
