import KiroProxy.InFlight.Entries
import KiroProxy.WindowBound

/-!
# The local request window of a credential

A dispatch that a single instance accounts for is checked against the last minute of the
credential's selection events and recorded there, one event for each unit of its weight. Callers
read the clock before they take the lock on the entries, so the times they bring can be out of
order. Instants and durations count nanoseconds.

`run_new_bounded` says that the weight recorded in any minute stays within the limit as long as no
clock is read four minutes or more before one that was used earlier.
-/

namespace KiroProxy.SelectionWindow
open InFlight WindowBound

def seconds (n : ℕ) : ℕ := n * 10 ^ 9

def selectionWindow10s : ℕ := seconds 10

def selectionWindow60s : ℕ := seconds 60

def selectionWindow5m : ℕ := seconds (5 * 60)

def rpmWindow : ℕ := seconds 60

def u64Max : ℕ := 2 ^ 64 - 1

structure SchedulerHealthState where
  selectionCount : ℕ
  recentSelectionCount10s : ℕ
  recentSelectionCount60s : ℕ
  recentSelectionCount5m : ℕ
  deriving DecidableEq, Repr

structure CredentialEntry where
  /-- The limit of the credential itself. -/
  rpm : Option ℕ
  /-- The first event is the oldest. -/
  selectionEvents : List ℕ
  rateLimitAvailableAt : Option ℕ
  totalSelectionCount : ℕ
  health : SchedulerHealthState
  deriving DecidableEq, Repr

def CredentialEntry.new (rpm : Option ℕ) : CredentialEntry where
  rpm
  selectionEvents := []
  rateLimitAvailableAt := none
  totalSelectionCount := 0
  health := ⟨0, 0, 0, 0⟩

structure SchedulerRedisRateLimitWait where
  retryAfter : ℕ
  availableAt : ℕ
  deriving DecidableEq, Repr

inductive SchedulerRedisSelectionAdmission where
  | locallyRecorded
  | rateLimited (wait : SchedulerRedisRateLimitWait)
  deriving DecidableEq, Repr

/-- The index that a binary search finds in a sequence whose elements satisfy `p` first. -/
def partitionPoint (p : ℕ → Bool) (events : List ℕ) : ℕ := (events.takeWhile p).length

def selectionsWithin (events : List ℕ) (now window : ℕ) : ℕ :=
  let first := partitionPoint (fun selectedAt => now - selectedAt > window) events
  min (events.length - first) u32Max

def pruneLocalSelectionEvents (entry : CredentialEntry) (now : ℕ) : CredentialEntry :=
  let events := entry.selectionEvents.dropWhile fun selectedAt =>
    now - selectedAt > selectionWindow5m
  { entry with
    selectionEvents := events
    health := { entry.health with
      recentSelectionCount10s := selectionsWithin events now selectionWindow10s
      recentSelectionCount60s := selectionsWithin events now selectionWindow60s
      recentSelectionCount5m := min events.length u32Max } }

/-- The time under which a selection at `now` is recorded: no event is older than its
predecessor. -/
def recordedAt (entry : CredentialEntry) (now : ℕ) : ℕ :=
  match entry.selectionEvents.getLast? with
  | none => now
  | some last => max last now

def recordLocalSelection (entry : CredentialEntry) (now weightUnits : ℕ) : CredentialEntry :=
  pruneLocalSelectionEvents
    { entry with
      totalSelectionCount := min (entry.totalSelectionCount + 1) u64Max
      health := { entry.health with
        selectionCount := min (entry.health.selectionCount + 1) u64Max }
      selectionEvents := entry.selectionEvents ++
        List.replicate (normalizeCapacityWeightUnits weightUnits) (recordedAt entry now) }
    now

def effectiveRpm (entry : CredentialEntry) (globalRpm : ℕ) : ℕ := entry.rpm.getD globalRpm

def entryRateLimitWindowRemaining (entry : CredentialEntry) (globalRpm now : ℕ) : Option ℕ :=
  let rpm := effectiveRpm entry globalRpm
  if rpm = 0 then none
  else
    let events := entry.selectionEvents
    let firstInWindow := partitionPoint (fun selectedAt => now - selectedAt > rpmWindow) events
    if events.length - firstInWindow < rpm then none
    else
      events[firstInWindow]?.bind fun selectedAt =>
        if now ≤ selectedAt + rpmWindow then some (selectedAt + rpmWindow - now) else none

def reserveLocalSelection (globalRpm now : ℕ) (entry : CredentialEntry)
    (requestWeightUnits : ℕ) : SchedulerRedisSelectionAdmission × CredentialEntry :=
  let requestWeightUnits := normalizeCapacityWeightUnits requestWeightUnits
  let rpm := effectiveRpm entry globalRpm
  let first := partitionPoint (fun selectedAt => now - selectedAt > seconds 60)
    entry.selectionEvents
  let inWindow := entry.selectionEvents.length - first
  let weight := effectiveWeightForLimit requestWeightUnits rpm
  if 0 < rpm ∧ rpm < inWindow + weight then
    let availableAt :=
      match entryRateLimitWindowRemaining entry globalRpm now with
      | none => now + seconds 1
      | some remaining => now + remaining
    let entry := { entry with
      rateLimitAvailableAt := some <|
        match entry.rateLimitAvailableAt with
        | none => availableAt
        | some current => max current availableAt }
    (.rateLimited ⟨availableAt - now, availableAt⟩, entry)
  else
    (.locallyRecorded, recordLocalSelection entry now requestWeightUnits)

inductive Call where
  | reserve (now requestWeightUnits : ℕ)
  | prune (now : ℕ)
  deriving DecidableEq, Repr

def Call.now : Call → ℕ
  | .reserve now _ => now
  | .prune now => now

structure System where
  entry : CredentialEntry
  /-- The accepted dispatches with their recorded times and weights. -/
  accepted : List (ℕ × ℕ)
  deriving DecidableEq, Repr

def System.step (globalRpm : ℕ) (s : System) : Call → System
  | .prune now => { s with entry := pruneLocalSelectionEvents s.entry now }
  | .reserve now requestWeightUnits =>
    match reserveLocalSelection globalRpm now s.entry requestWeightUnits with
    | (.locallyRecorded, entry) =>
      { entry, accepted := s.accepted ++ [(recordedAt s.entry now, requestWeightUnits)] }
    | (.rateLimited _, entry) => { s with entry }

def run (globalRpm : ℕ) (entry : CredentialEntry) (calls : List Call) : System :=
  calls.foldl (System.step globalRpm) ⟨entry, []⟩

@[simp] theorem run_append (globalRpm : ℕ) (entry : CredentialEntry) (calls : List Call)
    (call : Call) : run globalRpm entry (calls ++ [call]) =
      (run globalRpm entry calls).step globalRpm call := by
  rw [run, List.foldl_append]
  rfl

def weightUnits (accepted : List (ℕ × ℕ)) : List (ℕ × ℕ) :=
  accepted.map fun dispatch => (dispatch.1, normalizeCapacityWeightUnits dispatch.2)

def limitedWeights (rpm : ℕ) (accepted : List (ℕ × ℕ)) : List (ℕ × ℕ) :=
  accepted.map fun dispatch => (dispatch.1, effectiveWeightForLimit dispatch.2 rpm)

/-- The events are sorted, and from every time on that no clock has passed by five minutes they
are the units of the accepted dispatches. -/
structure CredentialEntry.Recorded (entry : CredentialEntry) (clocks : List ℕ)
    (accepted : List (ℕ × ℕ)) : Prop where
  sorted : entry.selectionEvents.Pairwise (· ≤ ·)
  counted : ∀ since, (∀ clock ∈ clocks, clock ≤ since + selectionWindow5m) →
    weightOf (fun time => decide (since ≤ time)) (weightUnits accepted) =
      entry.selectionEvents.countP fun time => decide (since ≤ time)

variable {entry : CredentialEntry} {clocks : List ℕ} {accepted : List (ℕ × ℕ)}

theorem normalizeCapacityWeightUnits_idem (value : ℕ) :
    normalizeCapacityWeightUnits (normalizeCapacityWeightUnits value) =
      normalizeCapacityWeightUnits value := by
  unfold normalizeCapacityWeightUnits
  omega

theorem effectiveWeightForLimit_le_normalize (value rpm : ℕ) :
    effectiveWeightForLimit value rpm ≤ normalizeCapacityWeightUnits value := by
  unfold effectiveWeightForLimit
  dsimp only
  split_ifs
  · exact Nat.min_le_left _ _
  · exact le_rfl

theorem effectiveWeightForLimit_normalize (value rpm : ℕ) :
    effectiveWeightForLimit (normalizeCapacityWeightUnits value) rpm =
      effectiveWeightForLimit value rpm := by
  unfold effectiveWeightForLimit
  rw [normalizeCapacityWeightUnits_idem]

theorem weightOf_limitedWeights_le (rpm : ℕ) (p : ℕ → Bool) (accepted : List (ℕ × ℕ)) :
    weightOf p (limitedWeights rpm accepted) ≤ weightOf p (weightUnits accepted) := by
  induction accepted with
  | nil => exact le_rfl
  | cons dispatch accepted ih =>
    have hle := effectiveWeightForLimit_le_normalize dispatch.2 rpm
    rw [limitedWeights, weightUnits, List.map_cons, List.map_cons, ← List.singleton_append,
      weightOf_append, weightOf_singleton, ← List.singleton_append, weightOf_append,
      weightOf_singleton]
    refine Nat.add_le_add ?_ ih
    split_ifs
    · exact hle
    · exact le_rfl

theorem length_sub_partitionPoint (hsorted : entry.selectionEvents.Pairwise (· ≤ ·))
    (now window : ℕ) :
    entry.selectionEvents.length -
        partitionPoint (fun selectedAt => now - selectedAt > window) entry.selectionEvents =
      entry.selectionEvents.countP fun selectedAt => decide (now - window ≤ selectedAt) := by
  have hsplit := congrArg List.length (List.takeWhile_append_dropWhile
    (p := fun selectedAt => decide (now - selectedAt > window)) (l := entry.selectionEvents))
  have hfilter := dropWhile_eq_filter
    (p := fun selectedAt => decide (now - selectedAt > window)) ?_ hsorted
  · rw [hfilter, List.length_append] at hsplit
    rw [partitionPoint, ← hsplit, Nat.add_sub_cancel_left, List.countP_eq_length_filter]
    congr 2
    funext selectedAt
    rw [← decide_not]
    exact decide_eq_decide.mpr (by omega)
  · intro a b hab hb
    have hlt := of_decide_eq_true hb
    exact decide_eq_true (by omega)

theorem CredentialEntry.Recorded.prune (h : entry.Recorded clocks accepted) (now : ℕ) :
    (pruneLocalSelectionEvents entry now).Recorded (clocks ++ [now]) accepted where
  sorted := h.sorted.sublist (List.dropWhile_sublist _)
  counted since hclocks := by
    have hnow := hclocks now (List.mem_append_right _ (List.mem_singleton_self now))
    rw [h.counted since fun clock hclock => hclocks clock (List.mem_append_left _ hclock)]
    symm
    refine countP_dropWhile ?_ _
    intro time htime
    have hlt := of_decide_eq_true htime
    exact decide_eq_false (by omega)

theorem le_recordedAt (entry : CredentialEntry) (now : ℕ) : now ≤ recordedAt entry now := by
  unfold recordedAt
  split
  · exact le_rfl
  · exact Nat.le_max_right _ _

theorem le_recordedAt_of_mem (hsorted : entry.selectionEvents.Pairwise (· ≤ ·)) {time : ℕ}
    (hmem : time ∈ entry.selectionEvents) (now : ℕ) : time ≤ recordedAt entry now := by
  unfold recordedAt
  cases hlast : entry.selectionEvents.getLast? with
  | none =>
    rw [List.getLast?_eq_none_iff.mp hlast] at hmem
    cases hmem
  | some last =>
    obtain ⟨front, hfront⟩ := List.getLast?_eq_some_iff.mp hlast
    rw [hfront] at hmem hsorted
    refine le_trans ?_ (Nat.le_max_left last now)
    rcases List.mem_append.mp hmem with hmem | hmem
    · exact (List.pairwise_append.mp hsorted).2.2 _ hmem _ (List.mem_singleton_self last)
    · exact (List.mem_singleton.mp hmem).le

theorem CredentialEntry.Recorded.record (h : entry.Recorded clocks accepted)
    (now requestWeightUnits : ℕ) :
    (recordLocalSelection entry now (normalizeCapacityWeightUnits requestWeightUnits)).Recorded
      (clocks ++ [now]) (accepted ++ [(recordedAt entry now, requestWeightUnits)]) := by
  refine CredentialEntry.Recorded.prune ⟨?_, ?_⟩ now
  · refine List.pairwise_append.mpr ⟨h.sorted, List.pairwise_replicate.mpr (.inr le_rfl), ?_⟩
    intro time hmem time' hmem'
    rw [List.eq_of_mem_replicate hmem']
    exact le_recordedAt_of_mem h.sorted hmem now
  · intro since hclocks
    rw [weightUnits, List.map_append, weightOf_append, List.countP_append,
      ← h.counted since hclocks, List.map_singleton, weightOf_singleton, List.countP_replicate,
      normalizeCapacityWeightUnits_idem]
    rfl

theorem reserveLocalSelection_cases {rpm globalRpm : ℕ} (hrpm : effectiveRpm entry globalRpm = rpm)
    (hpos : 0 < rpm) (now requestWeightUnits : ℕ) :
    (entry.selectionEvents.length - partitionPoint
          (fun selectedAt => now - selectedAt > selectionWindow60s) entry.selectionEvents +
        effectiveWeightForLimit requestWeightUnits rpm ≤ rpm ∧
      reserveLocalSelection globalRpm now entry requestWeightUnits =
        (.locallyRecorded, recordLocalSelection entry now
          (normalizeCapacityWeightUnits requestWeightUnits))) ∨
    ∃ wait availableAt, reserveLocalSelection globalRpm now entry requestWeightUnits =
      (.rateLimited wait, { entry with rateLimitAvailableAt := availableAt }) := by
  unfold reserveLocalSelection
  dsimp only
  rw [hrpm, effectiveWeightForLimit_normalize]
  split_ifs with hfull
  · exact .inr ⟨_, _, rfl⟩
  · exact .inl ⟨Nat.le_of_not_lt fun hlt => hfull ⟨hpos, hlt⟩, rfl⟩

theorem CredentialEntry.Recorded.fits (h : entry.Recorded clocks accepted) {rpm now weight : ℕ}
    (hclocks : ∀ clock ∈ clocks, clock < now + seconds (4 * 60))
    (hcheck : entry.selectionEvents.length - partitionPoint
        (fun selectedAt => now - selectedAt > selectionWindow60s) entry.selectionEvents +
      weight ≤ rpm) :
    weightOf (fun time => decide (recordedAt entry now ≤ time + selectionWindow60s))
        (limitedWeights rpm accepted) + weight ≤ rpm := by
  have hnow := le_recordedAt entry now
  have hcounted := h.counted (now - selectionWindow60s) (by
    intro clock hclock
    have hlt := hclocks clock hclock
    unfold selectionWindow60s selectionWindow5m seconds at *
    omega)
  rw [length_sub_partitionPoint h.sorted, ← hcounted] at hcheck
  have hmono := weightOf_mono
    (p := fun time => decide (recordedAt entry now ≤ time + selectionWindow60s))
    (q := fun time => decide (now - selectionWindow60s ≤ time))
    (fun time htime => decide_eq_true (by have hle := of_decide_eq_true htime; omega))
    (limitedWeights rpm accepted)
  have hlimited := weightOf_limitedWeights_le rpm
    (fun time => decide (now - selectionWindow60s ≤ time)) accepted
  omega

/-- The invariant of the runs under one limit. -/
structure System.Inv (s : System) (rpm globalRpm : ℕ) (clocks : List ℕ) : Prop where
  limit : effectiveRpm s.entry globalRpm = rpm
  recorded : s.entry.Recorded clocks s.accepted
  bounded : Bounded selectionWindow60s rpm (limitedWeights rpm s.accepted)

theorem CredentialEntry.Recorded.later (h : entry.Recorded clocks accepted) (now : ℕ) :
    entry.Recorded (clocks ++ [now]) accepted where
  sorted := h.sorted
  counted since hclocks :=
    h.counted since fun clock hclock => hclocks clock (List.mem_append_left _ hclock)

theorem System.Inv.step {s : System} {rpm globalRpm : ℕ} (h : s.Inv rpm globalRpm clocks)
    (hpos : 0 < rpm) (call : Call)
    (hclocks : ∀ clock ∈ clocks, clock < call.now + seconds (4 * 60)) :
    (s.step globalRpm call).Inv rpm globalRpm (clocks ++ [call.now]) := by
  cases call with
  | prune now => exact ⟨h.limit, h.recorded.prune now, h.bounded⟩
  | reserve now requestWeightUnits =>
    rw [System.step]
    rcases reserveLocalSelection_cases h.limit hpos now requestWeightUnits with
      ⟨hcheck, haccepted⟩ | ⟨wait, availableAt, hlimited⟩
    · rw [haccepted]
      refine ⟨h.limit, h.recorded.record now requestWeightUnits, ?_⟩
      dsimp only
      rw [limitedWeights, List.map_append, List.map_singleton]
      exact h.bounded.append_singleton (h.recorded.fits hclocks hcheck)
    · rw [hlimited]
      have hlater := h.recorded.later now
      exact ⟨h.limit, ⟨hlater.sorted, hlater.counted⟩, h.bounded⟩

theorem System.Inv.run {rpm globalRpm : ℕ} {entry : CredentialEntry}
    (hnew : entry.selectionEvents = []) (hrpm : effectiveRpm entry globalRpm = rpm) (hpos : 0 < rpm)
    (calls : List Call)
    (hclocks : (calls.map Call.now).Pairwise fun earlier later =>
      earlier < later + seconds (4 * 60)) :
    (run globalRpm entry calls).Inv rpm globalRpm (calls.map Call.now) := by
  induction calls using List.reverseRecOn with
  | nil =>
    refine ⟨hrpm, ⟨?_, ?_⟩, Bounded.nil⟩
    · rw [SelectionWindow.run, List.foldl_nil, hnew]
      exact List.Pairwise.nil
    · intro since _
      rw [SelectionWindow.run, List.foldl_nil, hnew]
      rfl
  | append_singleton calls call ih =>
    rw [List.map_append, List.pairwise_append] at hclocks
    rw [run_append, List.map_append]
    refine (ih hclocks.1).step hpos call ?_
    intro clock hclock
    exact hclocks.2.2 clock hclock _ (List.mem_singleton_self _)

theorem run_new_bounded {rpm globalRpm : ℕ} {entry : CredentialEntry}
    (hnew : entry.selectionEvents = []) (hrpm : effectiveRpm entry globalRpm = rpm) (hpos : 0 < rpm)
    (calls : List Call)
    (hclocks : (calls.map Call.now).Pairwise fun earlier later =>
      earlier < later + seconds (4 * 60)) :
    (run globalRpm entry calls).entry.selectionEvents.Pairwise (· ≤ ·) ∧
      ∀ start,
        (((run globalRpm entry calls).accepted.filter fun dispatch =>
            start ≤ dispatch.1 ∧ dispatch.1 ≤ start + seconds 60).map fun dispatch =>
          min (normalizeCapacityWeightUnits dispatch.2) rpm).sum ≤ rpm := by
  have hinv := System.Inv.run hnew hrpm hpos calls hclocks
  refine ⟨hinv.recorded.sorted, ?_⟩
  intro start
  have hbound := hinv.bounded start
  have hmin : ∀ value, effectiveWeightForLimit value rpm =
      min (normalizeCapacityWeightUnits value) rpm := by
    intro value
    rw [effectiveWeightForLimit, if_pos hpos]
  rw [weightOf, limitedWeights, List.filter_map, List.map_map] at hbound
  simp only [← hmin]
  exact hbound

/-- A dispatch whose clock was read before that of its predecessor, and a prune in between. -/
theorem run_new_bounded_outOfOrder :
    (run 0 (.new (some 3)) [.reserve (seconds 100) 2, .prune (seconds 250),
        .reserve (seconds 99) 1]).entry.selectionEvents.Pairwise (· ≤ ·) ∧
      ∀ start,
        (((run 0 (.new (some 3)) [.reserve (seconds 100) 2, .prune (seconds 250),
            .reserve (seconds 99) 1]).accepted.filter fun dispatch =>
            start ≤ dispatch.1 ∧ dispatch.1 ≤ start + seconds 60).map fun dispatch =>
          min (normalizeCapacityWeightUnits dispatch.2) 3).sum ≤ 3 :=
  run_new_bounded rfl rfl (by decide) _ (by decide)

end KiroProxy.SelectionWindow
