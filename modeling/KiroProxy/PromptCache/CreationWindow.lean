import KiroProxy.PromptCache.CreationControl

/-!
# The window of written tokens over a run

The events of a key that are younger than the window stay in its queue as long as its state
does not expire. So whatever the calls of an interval let through is still counted at the last
of them.
-/

namespace KiroProxy.PromptCache.CreationControl

variable (finish : CapSeed → UInt64) {config : PromptCacheCreationControlConfig}
  {states : States} {call : Call} {calls : List Call} {key : CreationControlKey}

theorem numSeconds_mono {duration duration' : ℤ} (h : duration ≤ duration') :
    numSeconds duration ≤ numSeconds duration' :=
  Int.tdiv_le_tdiv (by decide) h

/-- The state of a key does not expire within the duration. -/
def NotIdle (config : PromptCacheCreationControlConfig) (duration : ℤ) : Prop :=
  config.expireAfterIdleSecs = 0 ∨ numSeconds duration < config.expireAfterIdleSecs

/-- No two consecutive calls of the key are an idle expiry apart; `last` is the time of the
call of the key before these. -/
def Gapless (config : PromptCacheCreationControlConfig) (key : CreationControlKey) :
    Option ℤ → List Call → Prop
  | _, [] => True
  | last, call :: calls =>
    if call.key config = some key then
      (∀ time ∈ last, NotIdle config (call.now - time)) ∧ Gapless config key (some call.now) calls
    else Gapless config key last calls

theorem Gapless.notIdle {time now : ℤ} (h : Gapless config key (some time) calls)
    (hcalls : ∀ call ∈ calls, now ≤ call.now)
    (hkey : ∃ call ∈ calls, call.key config = some key) : NotIdle config (now - time) := by
  induction calls with
  | nil =>
    obtain ⟨_, hmem, -⟩ := hkey
    cases hmem
  | cons call calls ih =>
    rw [Gapless] at h
    split_ifs at h with hcall
    · have hnow := hcalls call List.mem_cons_self
      refine (h.1 time rfl).imp_right fun hlt => ?_
      exact lt_of_le_of_lt (numSeconds_mono (by omega)) hlt
    · refine ih h (fun call hmem => hcalls call (List.mem_cons_of_mem _ hmem)) ?_
      obtain ⟨call', hmem, hkey⟩ := hkey
      rcases List.mem_cons.mp hmem with rfl | hmem
      · exact absurd hkey hcall
      · exact ⟨call', hmem, hkey⟩

theorem get_pruneIdleStates (hexpire : config.expireAfterIdleSecs < 2 ^ 63)
    {state : CreationControlState} {time now : ℤ}
    (hget : KeyedList.get key states = some state) (hseen : state.lastSeenAt = some time)
    (hidle : NotIdle config (now - time)) :
    KeyedList.get key (pruneIdleStates states now config) = some state := by
  rw [pruneIdleStates]
  split_ifs with hzero
  · exact hget
  · have hlt := hidle.resolve_left hzero
    refine KeyedList.get_filter_of_pos hget ?_
    simp [isIdleExpired, hseen, asI64_of_lt hexpire, hlt]

theorem pruneWindowEvents_append (hwindow : 0 < config.creationBudgetWindowSecs)
    (hsmall : config.creationBudgetWindowSecs < 2 ^ 63) {state : CreationControlState}
    {old recent : List CreationWindowEvent} {now : ℤ}
    (hevents : state.windowEvents = old ++ recent)
    (hrecent : ∀ event ∈ recent,
      numSeconds (now - event.time) < config.creationBudgetWindowSecs) :
    ∃ old', (pruneWindowEvents state now config).windowEvents = old' ++ recent := by
  have hkeeps : recent.dropWhile (fun event =>
      asI64 config.creationBudgetWindowSecs ≤ numSeconds (now - event.time)) = recent := by
    cases recent with
    | nil => rfl
    | cons event recent =>
      have hlt := hrecent event List.mem_cons_self
      refine List.dropWhile_cons_of_neg ?_
      simp [asI64_of_lt hsmall, hlt]
  rw [pruneWindowEvents]
  dsimp only
  rw [if_neg hwindow.ne', hevents, List.dropWhile_append, hkeeps]
  split_ifs
  · exact ⟨[], rfl⟩
  · exact ⟨_, rfl⟩

/-- What the proof needs of a configuration. -/
structure Windowed (config : PromptCacheCreationControlConfig) : Prop where
  normalized : config.normalized = config
  enabled : config.enabled = true
  window : 0 < config.creationBudgetWindowSecs
  window_lt : config.creationBudgetWindowSecs < 2 ^ 63
  expire_lt : config.expireAfterIdleSecs < 2 ^ 63
  limit : 0 < config.maxCreationTokensPerWindow
  limit_le : config.maxCreationTokensPerWindow ≤ i32Max

/-- The recent events of a key are the last of its queue, and its last call is known. -/
def Tracked (key : CreationControlKey) (states : States) (last : Option ℤ)
    (recent : List CreationWindowEvent) : Prop :=
  recent = [] ∨ ∃ time state old, last = some time ∧ KeyedList.get key states = some state ∧
    state.lastSeenAt = some time ∧ state.windowEvents = old ++ recent

variable {recent : List CreationWindowEvent} {last : Option ℤ}

theorem Tracked.tokenSum_le (h : Tracked key states last recent) (hconfig : Windowed config)
    (hbudget : ∀ state ∈ states, Budgeted config state.2) :
    tokenSum recent ≤ config.maxCreationTokensPerWindow := by
  rcases h with rfl | ⟨time, state, old, -, hget, -, hevents⟩
  · exact hconfig.limit.le
  · have hstate : Budgeted config state := hbudget _ (KeyedList.mem_of_get hget)
    exact (Budgeted.of_suffix { windowEvents := recent } hstate ⟨old, hevents.symm⟩).sum_le

theorem letThrough_eq_zero (hkey : ∀ call ∈ calls, call.key config ≠ some key) :
    letThrough finish config key states calls = 0 := by
  induction calls generalizing states with
  | nil => rfl
  | cons call calls ih =>
    rw [letThrough]
    dsimp only
    rw [if_neg (hkey call List.mem_cons_self), Int.zero_add,
      ih fun call hmem => hkey call (List.mem_cons_of_mem _ hmem)]

theorem Tracked.other (h : Tracked key states last recent) (hconfig : Windowed config)
    (hbudget : ∀ state ∈ states, Budgeted config state.2) (hne : call.key config ≠ some key)
    (hidle : ∀ time ∈ last, NotIdle config (call.now - time)) :
    Tracked key (applySuccessWithMode finish config states call).1 last recent := by
  rcases h with rfl | ⟨time, state, old, hlast, hget, hseen, hevents⟩
  · exact .inl rfl
  · refine .inr ⟨time, state, old, hlast, ?_, hseen, hevents⟩
    cases hkey : call.key config with
    | none => rwa [applySuccessWithMode_of_key_eq_none finish hkey]
    | some key' =>
      have heffect := effect_applySuccessWithMode finish hconfig.normalized
        hconfig.enabled hconfig.window hconfig.limit hconfig.limit_le hbudget hkey
      have hkeys : key ≠ key' := by
        rintro rfl
        exact hne hkey
      rw [heffect.get_of_ne hkeys]
      exact get_pruneIdleStates hconfig.expire_lt hget hseen (hidle time hlast)

theorem Tracked.own {states' : States} {tokens : ℤ} (h : Tracked key states last recent)
    (hconfig : Windowed config) (heffect : Effect config states call key states' tokens)
    (hidle : ∀ time ∈ last, NotIdle config (call.now - time)) (hrecent : ∀ event ∈ recent,
      numSeconds (call.now - event.time) < config.creationBudgetWindowSecs) :
    ∃ added, Tracked key states' (some call.now) (recent ++ added) ∧
      (∀ event ∈ added, event.time = call.now) ∧ tokens ≤ tokenSum added := by
  cases heffect with
  | unknown hget =>
    refine ⟨[], .inl ?_, by simp, le_rfl⟩
    rcases h with rfl | ⟨time, state, old, hlast, hget', hseen, -⟩
    · rfl
    · have hkept := get_pruneIdleStates hconfig.expire_lt hget' hseen (hidle time hlast)
      cases hget.symm.trans hkept
  | seen state' added _ hseen' hevents' _ hadded htokens =>
    refine ⟨added, .inr ⟨call.now, state', ?_⟩, hadded, htokens⟩
    rw [hevents']
    rcases h with rfl | ⟨time, state, old, hlast, hget, hseen, hevents⟩
    · exact ⟨_, rfl, KeyedList.get_insert_self _ _ _, hseen', rfl⟩
    · have hkept := get_pruneIdleStates hconfig.expire_lt hget hseen (hidle time hlast)
      obtain ⟨old', hold⟩ :=
        pruneWindowEvents_append hconfig.window hconfig.window_lt hevents hrecent
      refine ⟨old', rfl, KeyedList.get_insert_self _ _ _, hseen', ?_⟩
      rw [hkept, Option.getD_some, hold, List.append_assoc]

theorem tokenSum_add_letThrough_le (hconfig : Windowed config)
    (hbudget : ∀ state ∈ states, Budgeted config state.2)
    (htracked : Tracked key states last recent) (hgapless : Gapless config key last calls)
    (hsorted : calls.Pairwise fun call call' => call.now ≤ call'.now)
    (hspan : calls.Pairwise fun call call' =>
      numSeconds (call'.now - call.now) < config.creationBudgetWindowSecs)
    (hrecent : ∀ event ∈ recent, ∀ call ∈ calls,
      numSeconds (call.now - event.time) < config.creationBudgetWindowSecs) :
    tokenSum recent + letThrough finish config key states calls ≤
      config.maxCreationTokensPerWindow := by
  induction calls generalizing states last recent with
  | nil =>
    rw [letThrough, Int.add_zero]
    exact htracked.tokenSum_le hconfig hbudget
  | cons call calls ih =>
    obtain ⟨hnow, hsorted⟩ := List.pairwise_cons.mp hsorted
    obtain ⟨hspan', hspan⟩ := List.pairwise_cons.mp hspan
    have hrecent' := fun event hevent call' hmem =>
      hrecent event hevent call' (List.mem_cons_of_mem _ hmem)
    rw [Gapless] at hgapless
    rw [letThrough]
    dsimp only
    split_ifs at hgapless ⊢ with hkey
    · have heffect := effect_applySuccessWithMode finish hconfig.normalized
        hconfig.enabled hconfig.window hconfig.limit hconfig.limit_le hbudget hkey
      obtain ⟨added, htracked', hadded, htokens⟩ := htracked.own hconfig heffect hgapless.1
        fun event hevent => hrecent event hevent call List.mem_cons_self
      have hle := ih (heffect.budgeted hbudget) htracked' hgapless.2 hsorted hspan ?_
      · rw [tokenSum_append] at hle
        omega
      · intro event hevent call' hmem
        rcases List.mem_append.mp hevent with hevent | hevent
        · exact hrecent' event hevent call' hmem
        · rw [hadded event hevent]
          exact hspan' call' hmem
    · rw [Int.zero_add]
      have hbudget' : ∀ state ∈ (applySuccessWithMode finish config states call).1,
          Budgeted config state.2 := by
        cases hother : call.key config with
        | none => rwa [applySuccessWithMode_of_key_eq_none finish hother]
        | some key' =>
          exact (effect_applySuccessWithMode finish hconfig.normalized hconfig.enabled hconfig.window
            hconfig.limit hconfig.limit_le hbudget hother).budgeted hbudget
      by_cases hlater : ∃ call ∈ calls, call.key config = some key
      · refine ih hbudget' (htracked.other finish hconfig hbudget hkey fun time htime => ?_) hgapless
          hsorted hspan hrecent'
        rw [Option.mem_def.mp htime] at hgapless
        exact hgapless.notIdle hnow hlater
      · -- The state of the key may expire now, but nothing more is let through.
        rw [letThrough_eq_zero finish fun call hmem hcall => hlater ⟨call, hmem, hcall⟩, Int.add_zero]
        exact htracked.tokenSum_le hconfig hbudget

theorem run_budgeted (hconfig : Windowed config)
    (hbudget : ∀ state ∈ states, Budgeted config state.2) (calls : List Call) :
    ∀ state ∈ run finish config states calls, Budgeted config state.2 := by
  induction calls generalizing states with
  | nil => exact hbudget
  | cons call calls ih =>
    rw [run, List.foldl_cons]
    refine ih ?_
    cases hkey : call.key config with
    | none => rwa [applySuccessWithMode_of_key_eq_none finish hkey]
    | some key =>
      exact (effect_applySuccessWithMode finish hconfig.normalized hconfig.enabled hconfig.window
        hconfig.limit hconfig.limit_le hbudget hkey).budgeted hbudget

theorem numSeconds_lt {duration : ℤ} {seconds : ℕ} (hnonneg : 0 ≤ duration)
    (h : duration < seconds * nanosPerSecond) : numSeconds duration < seconds := by
  rw [numSeconds, Int.tdiv_eq_ediv_of_nonneg hnonneg]
  exact Int.ediv_lt_of_lt_mul (by decide) h

theorem gapless_of_le (h : config.expireAfterIdleSecs = 0 ∨
      config.creationBudgetWindowSecs ≤ config.expireAfterIdleSecs)
    (hlast : ∀ time ∈ last, ∀ call ∈ calls,
      numSeconds (call.now - time) < config.creationBudgetWindowSecs)
    (hspan : calls.Pairwise fun call call' =>
      numSeconds (call'.now - call.now) < config.creationBudgetWindowSecs) :
    Gapless config key last calls := by
  induction calls generalizing last with
  | nil => trivial
  | cons call calls ih =>
    obtain ⟨hspan', hspan⟩ := List.pairwise_cons.mp hspan
    rw [Gapless]
    split_ifs with hkey
    · refine ⟨fun time htime => h.imp_right fun hle => ?_, ih ?_ hspan⟩
      · have hlt := hlast time htime call List.mem_cons_self
        omega
      · intro time htime call' hmem
        cases htime
        exact hspan' call' hmem
    · exact ih (fun time htime call' hmem =>
        hlast time htime call' (List.mem_cons_of_mem _ hmem)) hspan

/-- The calls of a key within any interval shorter than the window let through no more than
the limit of the window, unless the state of the key expires between two of them. -/
theorem letThrough_le (finish : CapSeed → UInt64) (config : PromptCacheCreationControlConfig)
    (key : CreationControlKey) (before inside : List Call) (hvalid : config.validate = .ok ())
    (henabled : config.enabled = true) (hwindow : 0 < config.creationBudgetWindowSecs)
    (hlimit : 0 < config.maxCreationTokensPerWindow)
    (hlimit_le : config.maxCreationTokensPerWindow ≤ i32Max)
    (hsorted : (before ++ inside).Pairwise fun call call' => call.now ≤ call'.now)
    (hspan : ∀ call ∈ inside, ∀ call' ∈ inside,
      call'.now - call.now < config.creationBudgetWindowSecs * nanosPerSecond)
    (hidle : config.expireAfterIdleSecs = 0 ∨
      config.creationBudgetWindowSecs ≤ config.expireAfterIdleSecs ∨
      Gapless config key none inside) :
    letThrough finish config key (run finish config [] before) inside ≤
      config.maxCreationTokensPerWindow := by
  obtain ⟨hnormal, hwindow_lt, hexpire_lt⟩ := normalized_of_validate hvalid
  have hconfig : Windowed config :=
    ⟨hnormal, henabled, hwindow, hwindow_lt, hexpire_lt, hlimit, hlimit_le⟩
  have hsorted := (List.pairwise_append.mp hsorted).2.1
  have hseconds : inside.Pairwise fun call call' =>
      numSeconds (call'.now - call.now) < config.creationBudgetWindowSecs := by
    refine hsorted.imp_of_mem fun hcall hcall' hle => ?_
    exact numSeconds_lt (Int.sub_nonneg.mpr hle) (hspan _ hcall _ hcall')
  have hgapless : Gapless config key none inside := by
    rcases hidle with hzero | hle | hgapless
    · exact gapless_of_le (.inl hzero) (by simp) hseconds
    · exact gapless_of_le (.inr hle) (by simp) hseconds
    · exact hgapless
  have hbudget : ∀ state ∈ run finish config [] before, Budgeted config state.2 :=
    run_budgeted finish hconfig (by simp) before
  have htracked : Tracked key (run finish config [] before) none [] := .inl rfl
  have hle := tokenSum_add_letThrough_le finish hconfig hbudget htracked hgapless hsorted hseconds
    (by simp)
  have hnil : tokenSum [] = 0 := rfl
  omega

def minuteWindow (enabled : Bool) (expireAfterIdleSecs : ℕ) : PromptCacheCreationControlConfig :=
  ⟨enabled, .conversationModel, 0, 0, 0, 0, 60, 1000, expireAfterIdleSecs⟩

/-- A call that wrote five thousand tokens. -/
def write (seconds : ℤ) : Call :=
  ⟨seconds * nanosPerSecond, some ⟨"a", none⟩, ⟨5010, 10, 1, 5000, 0, 5000, 0⟩, none, none, false⟩

def writeKey : CreationControlKey := ⟨"a", none, none, none⟩

theorem letThrough_le_minuteWindow :
    letThrough (fun _ => 0) (minuteWindow true 120) writeKey
      (run (fun _ => 0) (minuteWindow true 120) [] [write 0]) [write 10, write 40] ≤ 1000 :=
  letThrough_le (fun _ => 0) (minuteWindow true 120) writeKey [write 0] [write 10, write 40] rfl
    rfl (by decide) (by decide) (by decide) (by decide) (by decide) (.inr (.inl (by decide)))

/-- A state that expires after a second forgets what the window has let through, and without
the control nothing is held back. -/
theorem expired_window_exceeded :
    (minuteWindow true 1).validate = .ok () ∧
      1000 < letThrough (fun _ => 0) (minuteWindow true 1) writeKey [] [write 0, write 2] ∧
      (minuteWindow false 120).validate = .ok () ∧
      1000 < letThrough (fun _ => 0) (minuteWindow false 120) writeKey [] [write 0] := by
  decide

end KiroProxy.PromptCache.CreationControl
