import KiroProxy.PromptCache.CreationControl

/-!
# Spacing of reported writes

The state of a key counts the calls since tokens were last let through, and keeps that time. As long
as it does not expire, the next tokens are let through only after enough calls and enough time. What
a call holds back of its write becomes input.
-/

namespace KiroProxy.PromptCache.CreationControl

section Hasher

variable (finish : CapSeed → UInt64)

/-- The result of a call that does not count. -/
def previewSuccessWithMode (config : PromptCacheCreationControlConfig) (states : States)
    (call : Call) : States × CacheUsage :=
  let config := config.normalized
  if config.enabled = false then (states, call.usage)
  else
    match call.scope with
    | none => (states, call.usage)
    | some scope =>
      let creation := max call.usage.cacheCreationInputTokens 0
      if creation ≤ 0 then (states, call.usage)
      else
        let key := CreationControlKey.fromScope scope config.scopeMode call.credentialKey call.model
        let states := pruneIdleStates states call.now config
        let state := pruneWindowEvents ((KeyedList.get key states).getD {}) call.now config
        let allowed := allowedCreationTokens finish key state config call.usage creation call.now
          call.stableWindow
        (states, withAllowedCreation call.usage allowed)

def result (config : PromptCacheCreationControlConfig) (states : States) (call : Call) :
    CacheUsage :=
  (applySuccessWithMode finish config states call).2

def heldCalls (config : PromptCacheCreationControlConfig) (key : CreationControlKey) :
    States → List Call → ℕ
  | _, [] => 0
  | states, call :: calls =>
    (if call.key config = some key ∧
        (result finish config states call).cacheCreationInputTokens ≤ 0 then 1 else 0) +
      heldCalls config key (applySuccessWithMode finish config states call).1 calls

def LetsThrough (config : PromptCacheCreationControlConfig) (key : CreationControlKey)
    (states : States) (call : Call) : Prop :=
  call.key config = some key ∧ 0 < (result finish config states call).cacheCreationInputTokens

/-- Between two calls that let tokens of a key through there are enough calls of the key that let
none through, and enough seconds. -/
def Spaced (config : PromptCacheCreationControlConfig) (key : CreationControlKey) (states : States)
    (calls : List Call) : Prop :=
  ∀ before first between second after, calls = before ++ first :: between ++ second :: after →
    LetsThrough finish config key (run finish config states before) first →
    LetsThrough finish config key (run finish config states (before ++ first :: between)) second →
    config.minSuccessfulRequestsBetweenCreation ≤
        heldCalls finish config key (run finish config states (before ++ [first])) between ∧
      config.minCreationIntervalSecs ≤ numSeconds (second.now - first.now)

end Hasher

/-- What a call may change of a usage: tokens of its write become input. -/
structure Adjusted (usage result : CacheUsage) : Prop where
  output : result.outputTokens = usage.outputTokens
  read : result.cacheReadInputTokens = usage.cacheReadInputTokens
  creation_le : result.cacheCreationInputTokens ≤ usage.cacheCreationInputTokens
  creation : 0 ≤ usage.cacheCreationInputTokens → 0 ≤ result.cacheCreationInputTokens
  conserved : 0 ≤ usage.inputTokens → 0 ≤ usage.cacheCreationInputTokens →
    usage.inputTokens + (usage.cacheCreationInputTokens - result.cacheCreationInputTokens) ≤ i32Max →
    result.inputTokens + result.cacheReadInputTokens + result.cacheCreationInputTokens =
      usage.inputTokens + usage.cacheReadInputTokens + usage.cacheCreationInputTokens
  parts : usage.cacheCreation5mInputTokens + usage.cacheCreation1hInputTokens =
      usage.cacheCreationInputTokens →
    result.cacheCreation5mInputTokens + result.cacheCreation1hInputTokens =
      result.cacheCreationInputTokens

variable {finish : CapSeed → UInt64} {config : PromptCacheCreationControlConfig}
  {states : States} {call : Call} {calls : List Call} {key : CreationControlKey}

theorem saturate_of_mem {value : ℤ} (hlow : i32Min ≤ value) (hhigh : value ≤ i32Max) :
    saturate value = value := by
  unfold saturate
  omega

theorem adjusted_refl (usage : CacheUsage) : Adjusted usage usage :=
  ⟨rfl, rfl, le_rfl, id, fun _ _ _ => rfl, id⟩

theorem capCreationBreakdown_sum {cache5m cache1h limit : ℤ} (hzero : 0 ≤ limit)
    (hmax : limit ≤ i32Max) (h : limit ≤ cache5m + cache1h) :
    (capCreationBreakdown cache5m cache1h limit).1 + (capCreationBreakdown cache5m cache1h limit).2 =
      limit := by
  have hmin : i32Min ≤ 0 := by decide
  unfold capCreationBreakdown
  dsimp only
  rw [max_eq_left hzero, saturate_of_mem (by omega) (by omega)]
  omega

theorem adjusted_withAllowedCreation {usage : CacheUsage}
    (hmax : usage.cacheCreationInputTokens ≤ i32Max) {allowed : ℤ} (hallowed : 0 ≤ allowed)
    (hcreation : 0 < usage.cacheCreationInputTokens) :
    Adjusted usage (withAllowedCreation usage allowed) := by
  have hmin : i32Min ≤ 0 := by decide
  unfold withAllowedCreation
  dsimp only
  rw [max_eq_left hcreation.le, max_eq_left hallowed]
  split_ifs with hall
  · exact adjusted_refl usage
  · have hlt : min allowed usage.cacheCreationInputTokens < usage.cacheCreationInputTokens :=
      lt_of_le_of_ne (min_le_right _ _) hall
    generalize hcut : min allowed usage.cacheCreationInputTokens = cut at hlt ⊢
    have hzero : 0 ≤ cut := by omega
    rw [saturate_of_mem (show i32Min ≤ usage.cacheCreationInputTokens - cut by omega) (by omega)]
    exact
      { output := rfl
        read := rfl
        creation_le := hlt.le
        creation := fun _ => hzero
        conserved := by
          intro hinput _ hroom
          dsimp only at hroom ⊢
          rw [saturate_of_mem (by omega) hroom]
          omega
        parts := fun hparts => capCreationBreakdown_sum hzero (by omega) (by omega) }

theorem key_eq_some {call : Call} (h : call.key config = some key) :
    ∃ scope, call.scope = some scope ∧
    CreationControlKey.fromScope scope config.scopeMode call.credentialKey call.model = key :=
  Option.map_eq_some_iff.mp h

theorem pruneIdleStates_idem (states : States) (now : ℤ) (config : PromptCacheCreationControlConfig) :
    pruneIdleStates (pruneIdleStates states now config) now config =
      pruneIdleStates states now config := by
  unfold pruneIdleStates
  split_ifs
  · rfl
  · rw [List.filter_filter]
    simp

theorem result_eq_preview (config : PromptCacheCreationControlConfig) (states : States)
    (call : Call) :
    result finish config states call = (previewSuccessWithMode finish config states call).2 := by
  unfold result previewSuccessWithMode applySuccessWithMode
  dsimp only
  by_cases henabled : config.normalized.enabled = false
  · rw [if_pos henabled, if_pos henabled]
  · rw [if_neg henabled, if_neg henabled]
    cases hscope : call.scope with
    | none => rfl
    | some scope =>
      dsimp only
      by_cases hcreation : max call.usage.cacheCreationInputTokens 0 ≤ 0
      · rw [if_pos hcreation, if_pos hcreation]
        split <;> rfl
      · rw [if_neg hcreation, if_neg hcreation]

/-- A preview only drops what the call would drop. -/
theorem preview_preview (config : PromptCacheCreationControlConfig) (states : States) (call : Call) :
    (previewSuccessWithMode finish config
      (previewSuccessWithMode finish config states call).1 call).2 =
      (previewSuccessWithMode finish config states call).2 := by
  unfold previewSuccessWithMode
  dsimp only
  by_cases henabled : config.normalized.enabled = false
  · rw [if_pos henabled, if_pos henabled]
  · rw [if_neg henabled, if_neg henabled]
    cases hscope : call.scope with
    | none => rfl
    | some scope =>
      dsimp only
      by_cases hcreation : max call.usage.cacheCreationInputTokens 0 ≤ 0
      · rw [if_pos hcreation, if_pos hcreation]
      · rw [if_neg hcreation, if_neg hcreation, pruneIdleStates_idem]

theorem result_preview (config : PromptCacheCreationControlConfig) (states : States) (call : Call) :
    result finish config (previewSuccessWithMode finish config states call).1 call =
      (previewSuccessWithMode finish config states call).2 := by
  rw [result_eq_preview, preview_preview]

theorem applySuccessWithMode_of_nonpos (henabled : config.enabled = true)
    (hkey : call.key config = some key) (hcreation : call.usage.cacheCreationInputTokens ≤ 0) :
    applySuccessWithMode finish config states call =
      match KeyedList.get key (pruneIdleStates states call.now config.normalized) with
      | none => (pruneIdleStates states call.now config.normalized, call.usage)
      | some state =>
        (KeyedList.insert key { pruneWindowEvents state call.now config.normalized with
          lastSeenAt := some call.now
          successfulRequestsSinceCreation :=
            min (state.successfulRequestsSinceCreation + 1) u32Max }
          (pruneIdleStates states call.now config.normalized), call.usage) := by
  obtain ⟨scope, hscope, rfl⟩ := key_eq_some hkey
  have hnot : ¬config.normalized.enabled = false := ne_false_of_eq_true henabled
  unfold applySuccessWithMode
  dsimp only
  rw [if_neg hnot, hscope]
  dsimp only
  rw [if_pos (by omega)]
  rfl

theorem applySuccessWithMode_of_pos (henabled : config.enabled = true)
    (hkey : call.key config = some key) (hcreation : 0 < call.usage.cacheCreationInputTokens) :
    ∃ state allowed, state = pruneWindowEvents ((KeyedList.get key
        (pruneIdleStates states call.now config.normalized)).getD {}) call.now config.normalized ∧
      allowed = allowedCreationTokens finish key state config.normalized call.usage
        call.usage.cacheCreationInputTokens call.now call.stableWindow ∧ 0 ≤ allowed ∧
      applySuccessWithMode finish config states call =
        (KeyedList.insert key (state.record call.usage.cacheCreationInputTokens allowed call.now)
          (pruneIdleStates states call.now config.normalized),
        withAllowedCreation call.usage allowed) := by
  obtain ⟨scope, hscope, rfl⟩ := key_eq_some hkey
  have hnot : ¬config.normalized.enabled = false := ne_false_of_eq_true henabled
  refine ⟨_, _, rfl, rfl, allowedCreationTokens_nonneg finish _ _ _ _ _ _ _, ?_⟩
  unfold applySuccessWithMode
  dsimp only
  rw [if_neg hnot, hscope]
  dsimp only
  rw [max_eq_left hcreation.le, if_neg (not_le.mpr hcreation)]
  rfl

theorem applySuccessWithMode_of_disabled (h : config.enabled = false) :
    applySuccessWithMode finish config states call = (states, call.usage) :=
  if_pos h

theorem adjusted_result (config : PromptCacheCreationControlConfig) (states : States)
    (hmax : call.usage.cacheCreationInputTokens ≤ i32Max) :
    Adjusted call.usage (result finish config states call) := by
  unfold result
  cases henabled : config.enabled with
  | false =>
    rw [applySuccessWithMode_of_disabled henabled]
    exact adjusted_refl _
  | true =>
    cases hkey : call.key config with
    | none =>
      rw [applySuccessWithMode_of_key_eq_none finish hkey]
      exact adjusted_refl _
    | some key =>
      rcases le_or_gt call.usage.cacheCreationInputTokens 0 with hcreation | hcreation
      · rw [applySuccessWithMode_of_nonpos henabled hkey hcreation]
        split <;> exact adjusted_refl _
      · obtain ⟨state, allowed, -, -, hnonneg, hresult⟩ :=
          @applySuccessWithMode_of_pos finish config states call key henabled hkey hcreation
        rw [hresult]
        exact adjusted_withAllowedCreation hmax hnonneg hcreation

/-- Tokens were let through at a time that is not before another one, and since then there were not
more calls than so many. -/
def Since (key : CreationControlKey) (time : ℤ) (held : ℕ) (states : States) : Prop :=
  ∃ state last, KeyedList.get key states = some state ∧ state.lastCreationAt = some last ∧
    time ≤ last ∧ state.successfulRequestsSinceCreation ≤ held

theorem pruneIdleStates_of_no_expiry (hexpire : config.expireAfterIdleSecs = 0) (now : ℤ) :
    pruneIdleStates states now config.normalized = states :=
  if_pos hexpire

theorem record_of_pos (state : CreationControlState) {creation allowed : ℤ} (h : 0 < allowed)
    (now : ℤ) :
    (state.record creation allowed now).lastCreationAt = some now ∧
      (state.record creation allowed now).successfulRequestsSinceCreation = 0 := by
  unfold CreationControlState.record
  dsimp only
  rw [if_pos h]
  split_ifs <;> exact ⟨rfl, rfl⟩

theorem record_of_nonpos (state : CreationControlState) {creation allowed : ℤ} (h : allowed ≤ 0)
    (now : ℤ) :
    (state.record creation allowed now).lastCreationAt = state.lastCreationAt ∧
      (state.record creation allowed now).successfulRequestsSinceCreation ≤
        state.successfulRequestsSinceCreation + 1 := by
  unfold CreationControlState.record
  dsimp only
  rw [if_neg (not_lt.mpr h)]
  split_ifs <;> exact ⟨rfl, min_le_left _ _⟩

theorem creation_withAllowedCreation {usage : CacheUsage} {allowed : ℤ} (hallowed : 0 ≤ allowed)
    (hcreation : 0 < usage.cacheCreationInputTokens) :
    0 < (withAllowedCreation usage allowed).cacheCreationInputTokens ↔ 0 < allowed := by
  unfold withAllowedCreation
  dsimp only
  rw [max_eq_left hcreation.le, max_eq_left hallowed]
  split_ifs with hall
  · omega
  · dsimp only
    omega

section Enabled

variable (henabled : config.enabled = true)

include henabled

theorem LetsThrough.creation_pos (h : LetsThrough finish config key states call) :
    0 < call.usage.cacheCreationInputTokens := by
  obtain ⟨hkey, hpos⟩ := h
  by_contra hcreation
  unfold result at hpos
  rw [applySuccessWithMode_of_nonpos henabled hkey (not_lt.mp hcreation)] at hpos
  split at hpos <;> exact hcreation hpos

theorem since_of_letsThrough (h : LetsThrough finish config key states call) :
    Since key call.now 0 (applySuccessWithMode finish config states call).1 := by
  have hcreation := h.creation_pos henabled
  obtain ⟨hkey, hpos⟩ := h
  obtain ⟨state, allowed, -, -, hnonneg, hresult⟩ :=
    @applySuccessWithMode_of_pos finish config states call key henabled hkey hcreation
  unfold result at hpos
  rw [hresult] at hpos ⊢
  obtain ⟨hlast, hcount⟩ := @record_of_pos state call.usage.cacheCreationInputTokens allowed
    ((creation_withAllowedCreation hnonneg hcreation).mp hpos) call.now
  exact ⟨_, call.now, KeyedList.get_insert_self _ _ _, hlast, le_rfl, hcount.le⟩

/-- A call keeps the time, and counts if it is of the key and lets nothing through. -/
theorem since_applySuccessWithMode (hexpire : config.expireAfterIdleSecs = 0) {time : ℤ} {held : ℕ}
    (h : Since key time held states) (htime : time ≤ call.now) :
    Since key time (held + if call.key config = some key ∧
      (result finish config states call).cacheCreationInputTokens ≤ 0 then 1 else 0)
      (applySuccessWithMode finish config states call).1 := by
  by_cases hthrough : LetsThrough finish config key states call
  · obtain ⟨state, last, hget, hlast, hle, hcount⟩ := since_of_letsThrough henabled hthrough
    exact ⟨state, last, hget, hlast, htime.trans hle, by omega⟩
  · have hstates := @pruneIdleStates_of_no_expiry config states hexpire call.now
    obtain ⟨state, last, hget, hlast, hle, hcount⟩ := h
    by_cases hkey : call.key config = some key
    · have hnone : (result finish config states call).cacheCreationInputTokens ≤ 0 :=
        not_lt.mp fun hpos => hthrough ⟨hkey, hpos⟩
      rw [if_pos ⟨hkey, hnone⟩]
      unfold result at hnone
      rcases le_or_gt call.usage.cacheCreationInputTokens 0 with hcreation | hcreation
      · rw [applySuccessWithMode_of_nonpos henabled hkey hcreation, hstates, hget]
        exact ⟨_, last, KeyedList.get_insert_self _ _ _, hlast, hle, by dsimp only; omega⟩
      · obtain ⟨pruned, allowed, hpruned, -, hnonneg, hresult⟩ :=
          @applySuccessWithMode_of_pos finish config states call key henabled hkey hcreation
        rw [hstates, hget, Option.getD_some] at hpruned
        have hprunedLast : pruned.lastCreationAt = some last := hpruned ▸ hlast
        have hprunedCount : pruned.successfulRequestsSinceCreation =
            state.successfulRequestsSinceCreation := by rw [hpruned]; rfl
        rw [hresult] at hnone ⊢
        obtain ⟨hkept, hcounted⟩ := @record_of_nonpos pruned call.usage.cacheCreationInputTokens
          allowed (not_lt.mp fun hpos => absurd hnone
            (not_le.mpr ((creation_withAllowedCreation hnonneg hcreation).mpr hpos))) call.now
        exact ⟨_, last, KeyedList.get_insert_self _ _ _, hkept.trans hprunedLast, hle, by omega⟩
    · rw [if_neg fun hboth => hkey hboth.1, add_zero]
      refine ⟨state, last, ?_, hlast, hle, hcount⟩
      cases hother : call.key config with
      | none => rwa [applySuccessWithMode_of_key_eq_none finish hother]
      | some other =>
        have hne : key ≠ other := by
          rintro rfl
          exact hkey hother
        rcases le_or_gt call.usage.cacheCreationInputTokens 0 with hcreation | hcreation
        · rw [applySuccessWithMode_of_nonpos henabled hother hcreation, hstates]
          split
          · exact hget
          · rwa [KeyedList.get_insert_of_ne hne]
        · obtain ⟨_, _, -, -, -, hresult⟩ :=
            @applySuccessWithMode_of_pos finish config states call other henabled hother hcreation
          rw [hresult, hstates, KeyedList.get_insert_of_ne hne]
          exact hget

theorem since_run (hexpire : config.expireAfterIdleSecs = 0)
    {time : ℤ} {held : ℕ} (h : Since key time held states) (htime : ∀ call ∈ calls, time ≤ call.now) :
    Since key time (held + heldCalls finish config key states calls)
      (run finish config states calls) := by
  induction calls generalizing states held with
  | nil => exact h
  | cons call calls ih =>
    have hstep := @since_applySuccessWithMode finish config states call key henabled hexpire time held
      h (htime call List.mem_cons_self)
    have hrest := ih hstep fun call' hcall => htime call' (List.mem_cons_of_mem call hcall)
    rw [add_assoc] at hrest
    exact hrest

/-- Tokens are let through only after enough calls and enough seconds. -/
theorem le_of_letsThrough (hexpire : config.expireAfterIdleSecs = 0)
    (hinterval : config.minCreationIntervalSecs < 2 ^ 63)
    {time : ℤ} {held : ℕ} (hsince : Since key time held states) (htime : time ≤ call.now)
    (h : LetsThrough finish config key states call) :
    config.minSuccessfulRequestsBetweenCreation ≤ held ∧
      config.minCreationIntervalSecs ≤ numSeconds (call.now - time) := by
  have hcreation := h.creation_pos henabled
  obtain ⟨hkey, hpos⟩ := h
  obtain ⟨state, last, hget, hlast, hle, hcount⟩ := hsince
  unfold result at hpos
  obtain ⟨pruned, allowed, hpruned, hallowed, -, hresult⟩ :=
    @applySuccessWithMode_of_pos finish config states call key henabled hkey hcreation
  rw [pruneIdleStates_of_no_expiry hexpire, hget, Option.getD_some] at hpruned
  have hprunedLast : pruned.lastCreationAt = some last := hpruned ▸ hlast
  have hprunedCount : pruned.successfulRequestsSinceCreation =
      state.successfulRequestsSinceCreation := by rw [hpruned]; rfl
  rw [hresult] at hpos
  have hnotHeld : isHeldBack pruned config.normalized call.usage.cacheCreationInputTokens call.now =
      false := by
    rw [← Bool.not_eq_true]
    intro hheld
    have hzero : allowed = 0 := by
      rw [hallowed, allowedCreationTokens]
      dsimp only
      rw [if_pos hheld, ite_self]
    rw [hzero] at hpos
    exact absurd ((creation_withAllowedCreation le_rfl hcreation).mp hpos) (lt_irrefl 0)
  unfold isHeldBack at hnotHeld
  rw [hprunedLast] at hnotHeld
  simp only [Bool.or_eq_false_iff, decide_eq_false_iff_not, not_lt, Bool.and_eq_false_iff] at hnotHeld
  obtain ⟨⟨hcalls, hseconds⟩, -⟩ := hnotHeld
  have hmono : numSeconds (call.now - last) ≤ numSeconds (call.now - time) :=
    Int.tdiv_le_tdiv (by decide) (by omega)
  have hnonneg : 0 ≤ numSeconds (call.now - time) := Int.tdiv_nonneg (by omega) (by decide)
  refine ⟨?_, ?_⟩
  · exact (hcalls.trans hprunedCount.le).trans hcount
  · rcases hseconds with hnone | hseconds
    · have hzero : config.minCreationIntervalSecs ≤ 0 := hnone
      omega
    · have hcast : asI64 config.normalized.minCreationIntervalSecs =
          config.minCreationIntervalSecs := asI64_of_lt hinterval
      omega

end Enabled

theorem run_append (before after : List Call) :
    run finish config states (before ++ after) =
      run finish config (run finish config states before) after :=
  List.foldl_append

theorem spaced_of_sorted (henabled : config.enabled = true)
    (hexpire : config.expireAfterIdleSecs = 0) (hinterval : config.minCreationIntervalSecs < 2 ^ 63)
    (hsorted : calls.Pairwise fun call call' => call.now ≤ call'.now) :
    Spaced finish config key states calls := by
  intro before first between second after hcalls hfirst hsecond
  rw [hcalls, List.append_assoc, List.cons_append] at hsorted
  obtain ⟨hlater, -⟩ := List.pairwise_cons.mp (List.pairwise_append.mp hsorted).2.1
  have hsince := @since_run finish config _ between key henabled hexpire first.now 0
    (since_of_letsThrough henabled hfirst)
    (fun call hcall => hlater call (List.mem_append_left _ hcall))
  have hstates : run finish config states (before ++ first :: between) = run finish config
      (applySuccessWithMode finish config (run finish config states before) first).1 between := by
    rw [run_append]
    rfl
  have hfirstStates : run finish config states (before ++ [first]) =
      (applySuccessWithMode finish config (run finish config states before) first).1 := by
    rw [run_append]
    rfl
  rw [Nat.zero_add, ← hstates, ← hfirstStates] at hsince
  exact le_of_letsThrough henabled hexpire hinterval hsince
    (hlater second (List.mem_append_right _ List.mem_cons_self)) hsecond

/-- The calls of a run space out what they let through, every one of them only moves tokens of the
write to the input, and a preview is what the call then gives. -/
theorem run_spaced (finish : CapSeed → UInt64) (config : PromptCacheCreationControlConfig)
    (states : States) (calls : List Call) (key : CreationControlKey)
    (henabled : config.enabled = true) (hexpire : config.expireAfterIdleSecs = 0)
    (hinterval : config.minCreationIntervalSecs < 2 ^ 63)
    (hi32 : ∀ call ∈ calls, call.usage.cacheCreationInputTokens ≤ i32Max)
    (hsorted : calls.Pairwise fun call call' => call.now ≤ call'.now) :
    Spaced finish config key states calls ∧
      ∀ before call after, calls = before ++ call :: after →
        Adjusted call.usage (result finish config (run finish config states before) call) ∧
        result finish config
            (previewSuccessWithMode finish config (run finish config states before) call).1 call =
          (previewSuccessWithMode finish config (run finish config states before) call).2 ∧
        result finish config (run finish config states before) call =
          (previewSuccessWithMode finish config (run finish config states before) call).2 := by
  refine ⟨spaced_of_sorted henabled hexpire hinterval hsorted, ?_⟩
  intro before call after hcalls
  have hmem : call ∈ calls := hcalls ▸ List.mem_append_right _ List.mem_cons_self
  exact ⟨adjusted_result config _ (hi32 call hmem), result_preview config _ call,
    result_eq_preview config _ call⟩

/-- Writes are let through after another call and a minute. -/
def minuteSpacing (enabled : Bool) (minCreationIntervalSecs : ℕ) :
    PromptCacheCreationControlConfig :=
  ⟨enabled, .conversationModel, 1, minCreationIntervalSecs, 0, 0, 0, 0, 0⟩

def spacedCall (seconds creation : ℤ) : Call :=
  ⟨seconds * nanosPerSecond, some ⟨"a", none⟩, ⟨10 + creation, 10, 1, creation, 0, creation, 0⟩, none,
    none, false⟩

def spacedKey : CreationControlKey := ⟨"a", none, none, none⟩

theorem run_spaced_minuteSpacing :
    Spaced (fun _ => 0) (minuteSpacing true 60) spacedKey []
        [spacedCall 0 500, spacedCall 30 500, spacedCall 90 500] ∧
      ∀ before call after,
        [spacedCall 0 500, spacedCall 30 500, spacedCall 90 500] = before ++ call :: after →
        Adjusted call.usage
            (result (fun _ => 0) (minuteSpacing true 60)
              (run (fun _ => 0) (minuteSpacing true 60) [] before) call) ∧
          result (fun _ => 0) (minuteSpacing true 60)
              (previewSuccessWithMode (fun _ => 0) (minuteSpacing true 60)
                (run (fun _ => 0) (minuteSpacing true 60) [] before) call).1 call =
            (previewSuccessWithMode (fun _ => 0) (minuteSpacing true 60)
              (run (fun _ => 0) (minuteSpacing true 60) [] before) call).2 ∧
          result (fun _ => 0) (minuteSpacing true 60)
              (run (fun _ => 0) (minuteSpacing true 60) [] before) call =
            (previewSuccessWithMode (fun _ => 0) (minuteSpacing true 60)
              (run (fun _ => 0) (minuteSpacing true 60) [] before) call).2 :=
  run_spaced (fun _ => 0) (minuteSpacing true 60) []
    [spacedCall 0 500, spacedCall 30 500, spacedCall 90 500] spacedKey rfl rfl (by decide) (by decide)
    (by decide)

/-- Without the control nothing is spaced out, an interval of `2 ^ 63` seconds is a negative one, and
a negative write is left as it is. -/
theorem not_spaced_minuteSpacing :
    ¬Spaced (fun _ => 0) (minuteSpacing false 60) spacedKey [] [spacedCall 0 500, spacedCall 1 500] ∧
      ¬Spaced (fun _ => 0) { minuteSpacing true (2 ^ 63) with minSuccessfulRequestsBetweenCreation := 0 }
        spacedKey [] [spacedCall 0 500, spacedCall 1 500] ∧
      ¬0 ≤ (result (fun _ => 0) (minuteSpacing true 60) [] (spacedCall 0 (-1))).cacheCreationInputTokens := by
  refine ⟨fun h => ?_, fun h => ?_, by decide⟩
  · have hspaced := h [] (spacedCall 0 500) [] (spacedCall 1 500) [] rfl ⟨rfl, by decide⟩
      ⟨rfl, by decide⟩
    exact absurd hspaced.2 (by decide)
  · have hspaced := h [] (spacedCall 0 500) [] (spacedCall 1 500) [] rfl ⟨rfl, by decide⟩
      ⟨rfl, by decide⟩
    exact absurd hspaced.2 (by decide)

end KiroProxy.PromptCache.CreationControl
