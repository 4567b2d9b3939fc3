import KiroProxy.Calendar
import KiroProxy.KeyedList
import KiroProxy.Transition

/-!
# Counters of the request key limits

A counter of a key and a period lasts for one window, which is a day, a month or all time. A window
that has no counter yet is started with what the usage rollups say since the start of the window.
The start is computed from one reading of the clock and the window from another one, after the
database has answered.
-/

namespace KiroProxy.RequestKeyLimits

open Calendar

inductive KeyLimitMetric
  | costUsd
  | credits
  | tokens
  deriving DecidableEq

def KeyLimitMetric.asStr : KeyLimitMetric → String
  | .costUsd => "cost_usd"
  | .credits => "credits"
  | .tokens => "tokens"

def allMetrics : List KeyLimitMetric := [.costUsd, .credits, .tokens]

inductive KeyLimitPeriod
  | daily
  | monthly
  | total
  deriving DecidableEq

def KeyLimitPeriod.asStr : KeyLimitPeriod → String
  | .daily => "daily"
  | .monthly => "monthly"
  | .total => "total"

/-- Amounts are what the database sums up, which is finite. -/
structure KeyUsageDelta where
  costUsd : ℚ
  credits : ℚ
  tokens : ℚ
  deriving DecidableEq

def KeyUsageDelta.get (delta : KeyUsageDelta) : KeyLimitMetric → ℚ
  | .costUsd => delta.costUsd
  | .credits => delta.credits
  | .tokens => delta.tokens

def KeyUsageDelta.zero : KeyUsageDelta := ⟨0, 0, 0⟩

def KeyUsageDelta.add (a b : KeyUsageDelta) : KeyUsageDelta :=
  ⟨a.costUsd + b.costUsd, a.credits + b.credits, a.tokens + b.tokens⟩

/-- Times are nanoseconds since 1970. -/
def nanosPerDay : ℤ := 24 * 3600 * 10 ^ 9

/-- The offset of `limits_timezone`. -/
def limitsOffset : ℤ := 8 * 3600 * 10 ^ 9

def epochDay : ℤ := 719468

def localDay (now : ℤ) : ℤ := (now + limitsOffset) / nanosPerDay + epochDay

/-- The time at which a local day starts. -/
def midnight (day : ℤ) : ℤ := (day - epochDay) * nanosPerDay - limitsOffset

def periodWindow (period : KeyLimitPeriod) (now : ℤ) : String × Option ℤ :=
  let day := localDay now
  let date := dateOf day
  match period with
  | .daily =>
    (String.ofList (yearText date.year ++ twoDigits date.month ++ twoDigits date.day),
      some (midnight (day + 1)))
  | .monthly =>
    (String.ofList (yearText date.year ++ twoDigits date.month),
      some (midnight (monthStart (monthOf day + 1))))
  | .total => ("all", none)

def periodStart (period : KeyLimitPeriod) (now : ℤ) : Option ℤ :=
  let day := localDay now
  match period with
  | .daily => some (midnight day)
  | .monthly => some (midnight (monthStart (monthOf day)))
  | .total => none

def counterKey (keyId : String) (period : KeyLimitPeriod) (window : String) : String :=
  "request_key_limits:" ++ keyId ++ ":" ++ period.asStr ++ ":" ++ window

def countedMarker : String := "_counted"

structure Bucket where
  dimensionKey : String
  bucketStart : ℤ
  usage : KeyUsageDelta
  deriving DecidableEq

structure UsageRollups where
  timeBuckets : List Bucket
  totals : List (String × KeyUsageDelta)

def UsageRollups.bucketsSince (rollups : UsageRollups) (keyId : String) (since : ℤ) : List Bucket :=
  rollups.timeBuckets.filter fun bucket => bucket.dimensionKey = keyId ∧ since ≤ bucket.bucketStart

def sumUsage (buckets : List Bucket) : KeyUsageDelta :=
  buckets.foldl (fun sum bucket => sum.add bucket.usage) .zero

def UsageRollups.requestKeyUsageSince (rollups : UsageRollups) (keyId : String) :
    Option ℤ → KeyUsageDelta
  | some since => sumUsage (rollups.bucketsSince keyId since)
  | none => (KeyedList.get keyId rollups.totals).getD .zero

/-- The hashes of the counters in Redis. -/
abbrev Counters := List (String × List (String × ℚ))

def hashInitIfAbsent (key : String) (fields : List (String × ℚ)) (counters : Counters) : Counters :=
  if KeyedList.get key counters = none then
    KeyedList.insert key (KeyedList.insert countedMarker 1 fields) counters
  else counters

def seedFields (totals : KeyUsageDelta) : List (String × ℚ) :=
  allMetrics.map fun metric => (metric.asStr, max (totals.get metric) 0)

structure Reading where
  keyId : String
  period : KeyLimitPeriod
  since : Option ℤ
  readAt : ℤ
  buckets : List Bucket
  totals : KeyUsageDelta

/-- A window that was started from the usage read before. -/
structure Written extends Reading where
  window : String

/-- The task that `spawn_seed_from_history` spawns. -/
inductive Task
  | starting (keys : List (String × List KeyLimitPeriod))
  | reading (now : ℤ) (pending : List (String × KeyLimitPeriod))
  /-- The totals are handed to `seed_from_history`. -/
  | seeding (now : ℤ) (reading : Reading) (pending : List (String × KeyLimitPeriod))
  /-- The window is determined. -/
  | sending (now : ℤ) (written : Written) (pending : List (String × KeyLimitPeriod))

/-- The clock, the two stores and the task, with all windows that the task has started. -/
structure State where
  clock : ℤ
  rollups : UsageRollups
  counters : Counters
  task : Task
  written : List Written

inductive Action
  | tick (clock : ℤ)
  /-- Usage is recorded, no later than it is over. -/
  | record (bucket : Bucket)
  /-- Requests, resets and other tasks change the counters. -/
  | change (counters : Counters)
  /-- The task goes on; what it asks a store may fail. -/
  | advance (ok : Bool)

def flatten (keys : List (String × List KeyLimitPeriod)) : List (String × KeyLimitPeriod) :=
  keys.flatMap fun (keyId, periods) => periods.map fun period => (keyId, period)

def UsageRollups.record (rollups : UsageRollups) (bucket : Bucket) : UsageRollups where
  timeBuckets := rollups.timeBuckets ++ [bucket]
  totals :=
    let old := (KeyedList.get bucket.dimensionKey rollups.totals).getD .zero
    KeyedList.insert bucket.dimensionKey (old.add bucket.usage) rollups.totals

def read (s : State) (now : ℤ) (keyId : String) (period : KeyLimitPeriod) : Reading where
  keyId
  period
  since := periodStart period now
  readAt := s.clock
  buckets := (periodStart period now).elim [] (s.rollups.bucketsSince keyId)
  totals := s.rollups.requestKeyUsageSince keyId (periodStart period now)

/-- The window is started unless it has a counter. -/
def sendWindow (s : State) (now : ℤ) (written : Written)
    (pending : List (String × KeyLimitPeriod)) : State :=
  let key := counterKey written.keyId written.period written.window
  { s with
    counters := hashInitIfAbsent key (seedFields written.totals) s.counters
    task := .reading now pending
    written := if KeyedList.get key s.counters = none then s.written ++ [written] else s.written }

def advance (s : State) (ok : Bool) : Option State :=
  match s.task with
  | .starting keys => some { s with task := .reading s.clock (flatten keys) }
  | .reading _ [] => none
  | .reading now ((keyId, period) :: pending) =>
    if ok = true then some { s with task := .seeding now (read s now keyId period) pending }
    else some { s with task := .reading now pending }
  | .seeding now reading pending =>
    let window := (periodWindow reading.period s.clock).1
    some { s with task := .sending now { reading with window } pending }
  | .sending now written pending =>
    if ok = true then some (sendWindow s now written pending)
    else some { s with task := .reading now pending }

def step (s : State) : Action → Option State
  | .tick clock => if s.clock ≤ clock then some { s with clock } else none
  | .record bucket =>
    if bucket.bucketStart ≤ s.clock then some { s with rollups := s.rollups.record bucket } else none
  | .change counters => some { s with counters }
  | .advance ok => advance s ok

def run : State → List Action → Option State := Transition.run step

def spawnSeedFromHistory (clock : ℤ) (counters : Counters)
    (keys : List (String × List KeyLimitPeriod)) : State :=
  ⟨clock, ⟨[], []⟩, counters, .starting keys, []⟩

def windowNumber (now : ℤ) : KeyLimitPeriod → ℤ
  | .daily => localDay now
  | .monthly => monthOf (localDay now)
  | .total => 0

section Windows

variable {period : KeyLimitPeriod} {now t t' : ℤ}

theorem localDay_mono (h : t ≤ t') : localDay t ≤ localDay t' := by
  unfold localDay nanosPerDay
  omega

theorem windowNumber_mono (h : t ≤ t') (period : KeyLimitPeriod) :
    windowNumber t period ≤ windowNumber t' period := by
  cases period with
  | daily => exact localDay_mono h
  | monthly => exact monthOf_mono (localDay_mono h)
  | total => exact le_rfl

theorem month_eq_of_texts {day day' : ℤ}
    (h : yearText (dateOf day).year ++ twoDigits (dateOf day).month =
      yearText (dateOf day').year ++ twoDigits (dateOf day').month) :
    (dateOf day).year = (dateOf day').year ∧ (dateOf day).month = (dateOf day').month := by
  obtain ⟨hyear, hmonth⟩ := List.append_inj' h rfl
  exact ⟨yearText_injective hyear,
    twoDigits_injective (dateOf_lt day).1 (dateOf_lt day').1 hmonth⟩

theorem periodWindow_eq_iff : (periodWindow period t).1 = (periodWindow period t').1 ↔
    windowNumber t period = windowNumber t' period := by
  cases period with
  | daily =>
    constructor
    · intro h
      obtain ⟨hmonth, hday⟩ := List.append_inj' (String.ofList_injective h) rfl
      obtain ⟨hyear, hmonth⟩ := month_eq_of_texts hmonth
      exact dateOf_injective (Date.ext hyear hmonth
        (twoDigits_injective (dateOf_lt _).2 (dateOf_lt _).2 hday))
    · intro h
      dsimp only [windowNumber] at h
      dsimp only [periodWindow]
      rw [h]
  | monthly =>
    constructor
    · intro h
      obtain ⟨hyear, hmonth⟩ := month_eq_of_texts (String.ofList_injective h)
      exact monthOf_eq_of_dateOf hyear hmonth
    · intro h
      dsimp only [windowNumber] at h
      dsimp only [periodWindow, dateOf]
      rw [h]
  | total => exact ⟨fun _ => rfl, fun _ => rfl⟩

theorem midnight_le : midnight (localDay now) ≤ now := by
  unfold localDay midnight nanosPerDay
  omega

theorem midnight_le_iff {day : ℤ} : midnight day ≤ t ↔ day ≤ localDay t := by
  unfold localDay midnight nanosPerDay
  omega

theorem windowNumber_of_periodStart (hstart : ∀ since ∈ periodStart period now, since ≤ t)
    (ht : t ≤ now) : windowNumber t period = windowNumber now period := by
  refine le_antisymm (windowNumber_mono ht period) ?_
  cases period with
  | daily => exact midnight_le_iff.mp (hstart _ rfl)
  | monthly =>
    have hday := midnight_le_iff.mp (hstart _ rfl)
    have hmonth := (monthOf_eq_iff.mpr ⟨le_rfl, monthStart_strictMono (Int.lt_succ _)⟩ :
      monthOf (monthStart (monthOf (localDay now))) = monthOf (localDay now))
    exact hmonth.ge.trans (monthOf_mono hday)
  | total => exact le_rfl

theorem periodStart_le : ∀ since ∈ periodStart period now, since ≤ now := by
  cases period with
  | daily =>
    rintro _ ⟨⟩
    exact midnight_le
  | monthly =>
    rintro _ ⟨⟩
    exact midnight_le_iff.mpr (monthStart_monthOf _).1
  | total => exact nofun

end Windows

/-- All usage that the totals may hold, from their start to their reading, is of the window. -/
def Written.CoversOnlyItsWindow (written : Written) : Prop :=
  ∀ t, (∀ since ∈ written.since, since ≤ t) → t ≤ written.readAt →
    (periodWindow written.period t).1 = written.window

def Covered (s : State) : Prop := ∀ written ∈ s.written, written.CoversOnlyItsWindow

/-- A window that is to be started is that of the task's own reading of the clock. -/
def SameWindow (s : State) : Action → Prop
  | .advance ok =>
    match s.task with
    | .sending now written _ =>
      ok = true → KeyedList.get (counterKey written.keyId written.period written.window) s.counters =
        none → (periodWindow written.period now).1 = written.window
    | _ => True
  | _ => True

structure Reading.Of (reading : Reading) (now clock : ℤ) : Prop where
  since : reading.since = periodStart reading.period now
  now_le : now ≤ reading.readAt
  readAt_le : reading.readAt ≤ clock

structure Reading.Summed (reading : Reading) : Prop where
  within : ∀ bucket ∈ reading.buckets, ∀ since ∈ reading.since,
    since ≤ bucket.bucketStart ∧ bucket.bucketStart ≤ reading.readAt
  totals : reading.since ≠ none → reading.totals = sumUsage reading.buckets
  none : reading.since = none → reading.buckets = []

def Task.Consistent (clock : ℤ) : Task → Prop
  | .starting _ => True
  | .reading now _ => now ≤ clock
  | .seeding now found _ => found.Of now clock ∧ found.Summed
  | .sending now written _ => written.toReading.Of now clock ∧ written.toReading.Summed ∧
      ∃ t, written.readAt ≤ t ∧ t ≤ clock ∧ written.window = (periodWindow written.period t).1

structure Inv (s : State) : Prop where
  recorded : ∀ bucket ∈ s.rollups.timeBuckets, bucket.bucketStart ≤ s.clock
  task : s.task.Consistent s.clock
  written : ∀ written ∈ s.written, written.toReading.Summed

section Runs

variable {s t : State} {now clock clock' : ℤ} {found : Reading}

theorem Reading.Of.mono (h : found.Of now clock) (hle : clock ≤ clock') : found.Of now clock' :=
  { h with readAt_le := h.readAt_le.trans hle }

theorem Task.Consistent.mono {task : Task} (h : task.Consistent clock) (hle : clock ≤ clock') :
    task.Consistent clock' := by
  cases task with
  | starting keys => trivial
  | reading now pending => exact le_trans h hle
  | seeding now found pending => exact ⟨h.1.mono hle, h.2⟩
  | sending now written pending =>
    obtain ⟨hof, hsummed, t, hread, ht, hwindow⟩ := h
    exact ⟨hof.mono hle, hsummed, t, hread, ht.trans hle, hwindow⟩

theorem read_of (hle : now ≤ s.clock) (keyId : String) (period : KeyLimitPeriod) :
    (read s now keyId period).Of now s.clock :=
  ⟨rfl, hle, le_rfl⟩

theorem read_summed (hrecorded : ∀ bucket ∈ s.rollups.timeBuckets, bucket.bucketStart ≤ s.clock)
    (now : ℤ) (keyId : String) (period : KeyLimitPeriod) : (read s now keyId period).Summed := by
  unfold read
  cases hstart : periodStart period now with
  | none => exact ⟨nofun, fun h => absurd rfl h, fun _ => rfl⟩
  | some since =>
    refine ⟨?_, fun _ => rfl, nofun⟩
    rintro bucket hbucket _ ⟨⟩
    obtain ⟨hmem, hsince⟩ := List.mem_filter.mp hbucket
    exact ⟨(of_decide_eq_true hsince).2, hrecorded bucket hmem⟩

theorem Inv.advance {ok : Bool} (h : Inv s) (hstep : RequestKeyLimits.advance s ok = some t) :
    Inv t := by
  have htask := h.task
  unfold RequestKeyLimits.advance at hstep
  cases hs : s.task with
  | starting keys =>
    rw [hs] at hstep
    obtain rfl := Option.some.inj hstep
    exact { h with task := le_refl s.clock }
  | reading now pending =>
    rw [hs] at hstep htask
    cases pending with
    | nil => cases hstep
    | cons first pending =>
      obtain ⟨keyId, period⟩ := first
      dsimp only at hstep
      split_ifs at hstep
      · obtain rfl := Option.some.inj hstep
        exact { h with task := ⟨read_of htask keyId period, read_summed h.recorded now keyId period⟩ }
      · obtain rfl := Option.some.inj hstep
        exact { h with task := htask }
  | seeding now found pending =>
    rw [hs] at hstep htask
    obtain rfl := Option.some.inj hstep
    exact { h with task := ⟨htask.1, htask.2, s.clock, htask.1.readAt_le, le_rfl, rfl⟩ }
  | sending now written pending =>
    rw [hs] at hstep htask
    obtain ⟨hof, hsummed, -⟩ := htask
    have hnow := hof.now_le.trans hof.readAt_le
    dsimp only at hstep
    split_ifs at hstep
    · obtain rfl := Option.some.inj hstep
      refine ⟨h.recorded, hnow, ?_⟩
      intro written' hmem
      unfold sendWindow at hmem
      dsimp only at hmem
      split_ifs at hmem
      · rcases List.mem_append.mp hmem with hmem | hmem
        · exact h.written written' hmem
        · obtain rfl := List.mem_singleton.mp hmem
          exact hsummed
      · exact h.written written' hmem
    · obtain rfl := Option.some.inj hstep
      exact { h with task := hnow }

theorem Inv.step {a : Action} (h : Inv s) (hstep : RequestKeyLimits.step s a = some t) : Inv t := by
  cases a with
  | tick clock =>
    obtain ⟨hle, hstep⟩ := Option.ite_none_right_eq_some.mp hstep
    obtain rfl := Option.some.inj hstep
    exact ⟨fun bucket hmem => (h.recorded bucket hmem).trans hle, h.task.mono hle, h.written⟩
  | record bucket =>
    obtain ⟨hle, hstep⟩ := Option.ite_none_right_eq_some.mp hstep
    obtain rfl := Option.some.inj hstep
    refine ⟨fun bucket' hmem => ?_, h.task, h.written⟩
    rcases List.mem_append.mp hmem with hmem | hmem
    · exact h.recorded bucket' hmem
    · obtain rfl := List.mem_singleton.mp hmem
      exact hle
  | change counters =>
    obtain rfl := Option.some.inj hstep
    exact ⟨h.recorded, h.task, h.written⟩
  | advance ok => exact h.advance hstep

theorem covers_iff {written : Written} {later : ℤ} (hof : written.toReading.Of now clock)
    (hlater : written.readAt ≤ later)
    (hwindow : written.window = (periodWindow written.period later).1) :
    written.CoversOnlyItsWindow ↔ (periodWindow written.period now).1 = written.window := by
  constructor
  · intro h
    exact h now (hof.since ▸ periodStart_le) hof.now_le
  · intro hsame t hstart hread
    rw [hof.since] at hstart
    rw [hwindow, periodWindow_eq_iff] at hsame
    rw [hwindow, periodWindow_eq_iff, ← hsame]
    rcases le_total t now with hle | hle
    · exact windowNumber_of_periodStart hstart hle
    · refine le_antisymm ?_ (windowNumber_mono hle _)
      exact (windowNumber_mono (hread.trans hlater) _).trans hsame.ge

/-- A window is started where the task sends one that has no counter. -/
theorem written_of_step {a : Action} (hstep : step s a = some t) :
    t.written = s.written ∨ ∃ now written pending, s.task = .sending now written pending ∧
      a = .advance true ∧
      KeyedList.get (counterKey written.keyId written.period written.window) s.counters = none ∧
      t.written = s.written ++ [written] := by
  cases a with
  | tick clock =>
    obtain ⟨-, hstep⟩ := Option.ite_none_right_eq_some.mp hstep
    obtain rfl := Option.some.inj hstep
    exact .inl rfl
  | record bucket =>
    obtain ⟨-, hstep⟩ := Option.ite_none_right_eq_some.mp hstep
    obtain rfl := Option.some.inj hstep
    exact .inl rfl
  | change counters =>
    obtain rfl := Option.some.inj hstep
    exact .inl rfl
  | advance ok =>
    change advance s ok = some t at hstep
    unfold advance at hstep
    split at hstep
    case h_5 now written pending htask =>
      split_ifs at hstep with hok
      · obtain rfl := Option.some.inj hstep
        by_cases habsent : KeyedList.get (counterKey written.keyId written.period written.window)
          s.counters = none
        · exact .inr ⟨now, written, pending, htask, congrArg _ hok, habsent, if_pos habsent⟩
        · exact .inl (if_neg habsent)
      · obtain rfl := Option.some.inj hstep
        exact .inl rfl
    case h_3 =>
      split_ifs at hstep <;>
      · obtain rfl := Option.some.inj hstep
        exact .inl rfl
    case h_2 => cases hstep
    all_goals
      obtain rfl := Option.some.inj hstep
      exact .inl rfl

theorem exists_step_sending {now : ℤ} {written : Written} {pending : List (String × KeyLimitPeriod)}
    (htask : s.task = .sending now written pending)
    (habsent : KeyedList.get (counterKey written.keyId written.period written.window) s.counters =
      none) : ∃ t, step s (.advance true) = some t ∧ t.written = s.written ++ [written] := by
  refine ⟨sendWindow s now written pending, ?_, if_pos habsent⟩
  change advance s true = _
  rw [advance, htask]
  exact if_pos rfl

/-- The windows stay covered where a window that is started is that of the task's own reading. -/
theorem covered_step_iff {a : Action} (hinv : Inv s) (hcovered : Covered s) :
    (∀ t ∈ step s a, Covered t) ↔ SameWindow s a := by
  constructor
  · intro h
    unfold SameWindow
    split
    case h_1 ok =>
      split
      case h_1 now written pending htask =>
        rintro rfl habsent
        have hconsistent := hinv.task
        rw [htask] at hconsistent
        obtain ⟨hof, -, later, hlater, -, hwindow⟩ := hconsistent
        obtain ⟨t, hstep, hwritten⟩ := exists_step_sending htask habsent
        refine (covers_iff hof hlater hwindow).mp (h t hstep written ?_)
        rw [hwritten]
        exact List.mem_append_right _ (List.mem_singleton_self _)
      case h_2 => trivial
    case h_2 => trivial
  · intro hsame t hstep
    rcases written_of_step hstep with hwritten | ⟨now, written, pending, htask, rfl, habsent, hwritten⟩
    · intro written hmem
      exact hcovered written (hwritten ▸ hmem)
    · intro written' hmem
      rw [hwritten] at hmem
      rcases List.mem_append.mp hmem with hmem | hmem
      · exact hcovered written' hmem
      · obtain rfl := List.mem_singleton.mp hmem
        have hconsistent := hinv.task
        rw [htask] at hconsistent
        obtain ⟨hof, -, later, hlater, -, hwindow⟩ := hconsistent
        unfold SameWindow at hsame
        rw [htask] at hsame
        exact (covers_iff hof hlater hwindow).mpr (hsame rfl habsent)

/-- In a run of the seeding, all windows are started from usage inside them only if and only if
every window that is started is that of the task's own reading of the clock. -/
theorem run_spawnSeedFromHistory_covers (clock : ℤ) (counters : Counters)
    (keys : List (String × List KeyLimitPeriod)) (actions : List Action) :
    (Transition.Along step (fun s a => ∀ t ∈ step s a, Covered t)
        (spawnSeedFromHistory clock counters keys) actions ↔
      Transition.Along step SameWindow (spawnSeedFromHistory clock counters keys) actions) ∧
    ∀ s, run (spawnSeedFromHistory clock counters keys) actions = some s →
      ∀ written ∈ s.written, written.CoversOnlyItsWindow → ∀ bucket ∈ written.buckets,
        (periodWindow written.period bucket.bucketStart).1 = written.window := by
  have hinv : Inv (spawnSeedFromHistory clock counters keys) := ⟨nofun, trivial, nofun⟩
  have hall := @Transition.along_of_forall _ _ step (fun _ _ => True) (fun _ _ => trivial)
    (spawnSeedFromHistory clock counters keys) actions
  refine ⟨Transition.along_good_iff (fun s a t _ h => h.step) (fun s a _ => covered_step_iff) hall
    hinv nofun, ?_⟩
  intro s hrun written hmem hcovers bucket hbucket
  have hs : Inv s := Transition.run_invariant (fun _ => True) (fun s a t _ h => h.step)
    (fun _ _ => trivial) hinv hrun
  have hsummed := hs.written written hmem
  by_cases hnone : written.since = none
  · rw [hsummed.none hnone] at hbucket
    cases hbucket
  · obtain ⟨since, hsince⟩ := Option.ne_none_iff_exists'.mp hnone
    have hwithin := hsummed.within bucket hbucket
    refine hcovers bucket.bucketStart (fun since hsince => (hwithin since hsince).1) ?_
    exact (hwithin since hsince).2

end Runs

/-- Two seconds before midnight in UTC+8. -/
def beforeMidnight : ℤ := midnight 740000 - 2 * 10 ^ 9

/-- The task starts before midnight, and the database answers after it. -/
def acrossMidnight : List Action :=
  [.advance true, .advance true, .tick (midnight 740000), .advance true, .advance true]

theorem not_covers_acrossMidnight : ∃ s,
    run (spawnSeedFromHistory beforeMidnight [] [("key", [.daily])]) acrossMidnight = some s ∧
      ¬Covered s := by
  refine ⟨_, rfl, fun h => ?_⟩
  have hwindow := h _ (List.mem_singleton_self _) beforeMidnight (by decide) (by decide)
  have hnumber := periodWindow_eq_iff.mp hwindow
  exact absurd hnumber (by decide)

end KiroProxy.RequestKeyLimits
