import KiroProxy.Transition
import Mathlib.Data.Finset.Card
import Mathlib.Data.List.Nodup
import Mathlib.Data.List.Perm.Basic

/-!
# The executor of storage tasks

Two lanes of bounded queues feed their own workers, and one record of counters is shared by
all of them. A submission sends its task first and counts it as accepted afterwards, so that
a worker may finish the task before it is counted. `drain` remembers how many tasks were
accepted when it was called and waits until as many have finished. Calls and workers
interleave at their operations on the queues and on the counters that `drain` reads.
-/

namespace KiroProxy.StorageExecutor

inductive StorageTaskLane
  | bestEffort
  | critical
  deriving DecidableEq, Repr

/-- A task is known by its number; the future it runs is outside the model. -/
structure StorageTask where
  id : ℕ
  lane : StorageTaskLane
  deriving DecidableEq, Repr

inductive Outcome
  | succeeded
  | failed
  | timedOut
  deriving DecidableEq, Repr

structure Counters where
  accepted : ℕ
  succeeded : ℕ
  failed : ℕ
  timedOut : ℕ
  rejectedFull : ℕ
  rejectedClosed : ℕ
  finished : ℕ
  deriving DecidableEq, Repr

/-- Every counter exists twice, over all tasks and over those of the critical lane. -/
structure StorageTaskProgress where
  all : Counters
  critical : Counters
  deriving DecidableEq, Repr

namespace StorageTaskProgress

def count (f : Counters → Counters) (p : StorageTaskProgress) (lane : StorageTaskLane) :
    StorageTaskProgress where
  all := f p.all
  critical := if lane = .critical then f p.critical else p.critical

def accept := count fun c => { c with accepted := c.accepted + 1 }

def rejectFull := count fun c => { c with rejectedFull := c.rejectedFull + 1 }

def rejectClosed := count fun c => { c with rejectedClosed := c.rejectedClosed + 1 }

def succeed := count fun c => { c with succeeded := c.succeeded + 1 }

def fail := count fun c => { c with failed := c.failed + 1 }

def timeOut := count fun c => { c with timedOut := c.timedOut + 1 }

def finish := count fun c => { c with finished := c.finished + 1 }

def settle (p : StorageTaskProgress) (lane : StorageTaskLane) : Outcome → StorageTaskProgress
  | .succeeded => p.succeed lane
  | .failed => p.fail lane
  | .timedOut => p.timeOut lane

end StorageTaskProgress

inductive WorkerPhase
  | receiving
  | running (task : StorageTask)
  | settled (task : StorageTask)
  | exited
  deriving DecidableEq, Repr

def WorkerPhase.task : WorkerPhase → Option StorageTask
  | .running task => some task
  | .settled task => some task
  | _ => none

structure Worker where
  lane : StorageTaskLane
  phase : WorkerPhase
  deriving DecidableEq, Repr

structure StorageTaskDrainReport where
  target : ℕ
  finished : ℕ
  drained : Bool
  timedOut : Bool
  deriving DecidableEq, Repr

/-- Where a `drain` call stands. Every turn of its loop first registers for the next
notification; `woken` says that one has come since. -/
inductive Drain
  | idle
  | looping (target : ℕ)
  | registered (target : ℕ) (woken : Bool)
  | waiting (target : ℕ) (woken : Bool)
  | returned (report : StorageTaskDrainReport)
  deriving DecidableEq, Repr

def Drain.notifyWaiters : Drain → Drain
  | .registered target _ => .registered target true
  | .waiting target _ => .waiting target true
  | drain => drain

/-- The queue of one lane; it stays readable after its sender is gone. -/
structure Channel where
  capacity : ℕ
  tasks : List StorageTask
  sender : Bool
  deriving DecidableEq, Repr

/-- The executor with the submissions that have sent their task and not yet counted it, and
its `drain` call. The last two fields are history, read by no operation. -/
structure BestEffortStorageExecutor where
  accepting : Bool
  bestEffort : Channel
  critical : Channel
  workers : List Worker
  progress : StorageTaskProgress
  submitting : List StorageTask
  drain : Drain
  nextId : ℕ
  acceptedTasks : Finset ℕ
  finishedTasks : Finset ℕ
  deriving DecidableEq

namespace BestEffortStorageExecutor

def channel (s : BestEffortStorageExecutor) : StorageTaskLane → Channel
  | .bestEffort => s.bestEffort
  | .critical => s.critical

def setTasks (s : BestEffortStorageExecutor) (lane : StorageTaskLane) (tasks : List StorageTask) :
    BestEffortStorageExecutor :=
  match lane with
  | .bestEffort => { s with bestEffort := { s.bestEffort with tasks } }
  | .critical => { s with critical := { s.critical with tasks } }

def setPhase (s : BestEffortStorageExecutor) (worker : ℕ) (lane : StorageTaskLane)
    (phase : WorkerPhase) : BestEffortStorageExecutor :=
  { s with workers := s.workers.set worker { lane, phase } }

def newWithCriticalLane (queueCapacity workerCount criticalQueueCapacity criticalWorkerCount : ℕ) :
    BestEffortStorageExecutor where
  accepting := true
  bestEffort := { capacity := max queueCapacity 1, tasks := [], sender := true }
  critical := { capacity := max criticalQueueCapacity 1, tasks := [], sender := true }
  workers := List.replicate (max workerCount 1) { lane := .bestEffort, phase := .receiving } ++
    List.replicate (max criticalWorkerCount 1) { lane := .critical, phase := .receiving }
  progress := { all := ⟨0, 0, 0, 0, 0, 0, 0⟩, critical := ⟨0, 0, 0, 0, 0, 0, 0⟩ }
  submitting := []
  drain := .idle
  nextId := 0
  acceptedTasks := ∅
  finishedTasks := ∅

/-- `try_submit_to_lane` up to the outcome of `try_send`. -/
def trySubmitToLane (s : BestEffortStorageExecutor) (lane : StorageTaskLane) :
    BestEffortStorageExecutor :=
  if s.accepting && (s.channel lane).sender then
    if (s.channel lane).tasks.length < (s.channel lane).capacity then
      let task := { id := s.nextId, lane }
      { s.setTasks lane ((s.channel lane).tasks ++ [task]) with
        submitting := task :: s.submitting
        nextId := s.nextId + 1 }
    else { s with progress := s.progress.rejectFull lane }
  else { s with progress := s.progress.rejectClosed lane }

/-- One turn of `drain`'s comparison: it returns or waits for the next notification. -/
def compare (s : BestEffortStorageExecutor) (target : ℕ) (woken : Bool) : Drain :=
  if target ≤ s.progress.all.finished then
    .returned { target, finished := s.progress.all.finished, drained := true, timedOut := false }
  else .waiting target woken

inductive Action
  | submit (lane : StorageTaskLane)
  | accept (task : StorageTask)
  | take (worker : ℕ)
  | settle (worker : ℕ) (outcome : Outcome)
  | finish (worker : ℕ)
  | exit (worker : ℕ)
  | close
  | drainCall
  | drainRegister
  | drainCompare
  | drainWake
  | drainTimeout
  deriving DecidableEq, Repr

def step (s : BestEffortStorageExecutor) : Action → Option BestEffortStorageExecutor
  | .submit lane => some (s.trySubmitToLane lane)
  | .accept task =>
    if task ∈ s.submitting then
      some { s with
        submitting := s.submitting.erase task
        progress := s.progress.accept task.lane
        acceptedTasks := insert task.id s.acceptedTasks }
    else none
  | .take worker =>
    match s.workers[worker]? with
    | some { lane, phase := .receiving } =>
      match (s.channel lane).tasks with
      | task :: tasks => some ((s.setTasks lane tasks).setPhase worker lane (.running task))
      | [] => none
    | _ => none
  | .settle worker outcome =>
    match s.workers[worker]? with
    | some { lane, phase := .running task } =>
      some { s.setPhase worker lane (.settled task) with
        progress := s.progress.settle lane outcome }
    | _ => none
  | .finish worker =>
    match s.workers[worker]? with
    | some { lane, phase := .settled task } =>
      some { s.setPhase worker lane .receiving with
        progress := s.progress.finish lane
        drain := s.drain.notifyWaiters
        finishedTasks := insert task.id s.finishedTasks }
    | _ => none
  | .exit worker =>
    match s.workers[worker]? with
    | some { lane, phase := .receiving } =>
      if (s.channel lane).tasks = [] ∧ (s.channel lane).sender = false then
        some (s.setPhase worker lane .exited)
      else none
    | _ => none
  -- `shutdown` closes the lanes under the write lock, which no submission shares.
  | .close =>
    if s.submitting = [] then
      some { s with
        accepting := false
        bestEffort := { s.bestEffort with sender := false }
        critical := { s.critical with sender := false } }
    else none
  | .drainCall =>
    match s.drain with
    | .idle => some { s with drain := .looping s.progress.all.accepted }
    | _ => none
  | .drainRegister =>
    match s.drain with
    | .looping target => some { s with drain := .registered target false }
    | _ => none
  | .drainCompare =>
    match s.drain with
    | .registered target woken => some { s with drain := s.compare target woken }
    | _ => none
  | .drainWake =>
    match s.drain with
    | .waiting target true => some { s with drain := .looping target }
    | _ => none
  | .drainTimeout =>
    match s.drain with
    | .waiting target _ =>
      let finished := s.progress.all.finished
      some { s with drain := .returned { target, finished, drained := false, timedOut := true } }
    | _ => none

def run : BestEffortStorageExecutor → List Action → Option BestEffortStorageExecutor :=
  Transition.run step

def held (s : BestEffortStorageExecutor) : List ℕ :=
  (s.workers.filterMap (·.phase.task) ++ (s.bestEffort.tasks ++ s.critical.tasks)).map (·.id)

/-- Every task is in one place, and the counters count the history. -/
structure Ledger (s : BestEffortStorageExecutor) : Prop where
  held_nodup : s.held.Nodup
  held_lt : ∀ id ∈ s.held, id < s.nextId
  held_unfinished : ∀ id ∈ s.held, id ∉ s.finishedTasks
  finished_lt : ∀ id ∈ s.finishedTasks, id < s.nextId
  finished_card : s.progress.all.finished = s.finishedTasks.card
  submitting_nodup : (s.submitting.map (·.id)).Nodup
  submitting_lt : ∀ task ∈ s.submitting, task.id < s.nextId
  submitting_unaccepted : ∀ task ∈ s.submitting, task.id ∉ s.acceptedTasks
  accepted_lt : ∀ id ∈ s.acceptedTasks, id < s.nextId
  accepted_card : s.progress.all.accepted = s.acceptedTasks.card

theorem filterMap_set_perm {α β : Type} (f : α → Option β) {l : List α} {i : ℕ} {a : α}
    (h : l[i]? = some a) (b : α) :
    ((f a).toList ++ (l.set i b).filterMap f).Perm ((f b).toList ++ l.filterMap f) := by
  induction l generalizing i with
  | nil => cases h
  | cons head l ih =>
    cases i with
    | zero =>
      cases h
      rw [List.set_cons_zero, List.filterMap_cons, List.filterMap_cons]
      cases f a <;> cases f b <;> simp [List.Perm.swap]
    | succ i =>
      rw [List.set_cons_succ, List.filterMap_cons, List.filterMap_cons]
      have hperm := ih (i := i) h
      cases f head with
      | none => exact hperm
      | some x =>
        exact List.perm_middle.trans ((hperm.cons x).trans List.perm_middle.symm)

theorem held_setPhase_perm {s : BestEffortStorageExecutor} {i : ℕ} {worker : Worker}
    (h : s.workers[i]? = some worker) (lane : StorageTaskLane) (phase : WorkerPhase) :
    (worker.phase.task.toList.map (·.id) ++ (s.setPhase i lane phase).held).Perm
      (phase.task.toList.map (·.id) ++ s.held) := by
  have hperm := filterMap_set_perm (fun w : Worker => w.phase.task) h { lane, phase }
  have hall := (hperm.map (·.id)).append_right
    ((s.bestEffort.tasks ++ s.critical.tasks).map (·.id))
  simpa only [held, setPhase, List.map_append, List.append_assoc] using hall

theorem held_setTasks_perm (s : BestEffortStorageExecutor) (lane : StorageTaskLane)
    (tasks : List StorageTask) :
    ((s.channel lane).tasks.map (·.id) ++ (s.setTasks lane tasks).held).Perm
      (tasks.map (·.id) ++ s.held) := by
  apply List.perm_iff_count.mpr
  intro id
  cases lane with
  | bestEffort =>
    simp only [channel, setTasks, held, List.map_append, List.count_append]
    omega
  | critical =>
    simp only [channel, setTasks, held, List.map_append, List.count_append]
    omega

section Steps

variable {s t : BestEffortStorageExecutor}

theorem Ledger.of_perm (hs : s.Ledger) (hheld : t.held.Perm s.held) (hnext : t.nextId = s.nextId)
    (hfinished : t.finishedTasks = s.finishedTasks) (hsubmitting : t.submitting = s.submitting)
    (haccepted : t.acceptedTasks = s.acceptedTasks)
    (hcount : t.progress.all.finished = s.progress.all.finished)
    (hcount' : t.progress.all.accepted = s.progress.all.accepted) : t.Ledger where
  held_nodup := hheld.nodup_iff.mpr hs.held_nodup
  held_lt id hid := hnext ▸ hs.held_lt id (hheld.mem_iff.mp hid)
  held_unfinished id hid := hfinished ▸ hs.held_unfinished id (hheld.mem_iff.mp hid)
  finished_lt id hid := hnext ▸ hs.finished_lt id (hfinished ▸ hid)
  finished_card := by rw [hcount, hfinished, hs.finished_card]
  submitting_nodup := hsubmitting ▸ hs.submitting_nodup
  submitting_lt task htask := hnext ▸ hs.submitting_lt task (hsubmitting ▸ htask)
  submitting_unaccepted task htask :=
    haccepted ▸ hs.submitting_unaccepted task (hsubmitting ▸ htask)
  accepted_lt id hid := hnext ▸ hs.accepted_lt id (haccepted ▸ hid)
  accepted_card := by rw [hcount', haccepted, hs.accepted_card]

/-- A task that is sent is new: it is held from now on and waits to be counted. -/
theorem Ledger.of_sent (hs : s.Ledger) (lane : StorageTaskLane)
    (hheld : t.held.Perm (s.nextId :: s.held)) (hnext : t.nextId = s.nextId + 1)
    (hfinished : t.finishedTasks = s.finishedTasks)
    (hsubmitting : t.submitting = { id := s.nextId, lane } :: s.submitting)
    (haccepted : t.acceptedTasks = s.acceptedTasks) (hprogress : t.progress = s.progress) :
    t.Ledger where
  held_nodup := by
    rw [hheld.nodup_iff, List.nodup_cons]
    exact ⟨fun h => lt_irrefl _ (hs.held_lt _ h), hs.held_nodup⟩
  held_lt id hid := by
    rw [hnext]
    rcases List.mem_cons.mp (hheld.mem_iff.mp hid) with rfl | hid
    · exact Nat.lt_succ_self _
    · exact (hs.held_lt id hid).trans (Nat.lt_succ_self _)
  held_unfinished id hid := by
    rw [hfinished]
    rcases List.mem_cons.mp (hheld.mem_iff.mp hid) with rfl | hid
    · exact fun h => lt_irrefl _ (hs.finished_lt _ h)
    · exact hs.held_unfinished id hid
  finished_lt id hid := by
    rw [hfinished] at hid
    rw [hnext]
    exact (hs.finished_lt id hid).trans (Nat.lt_succ_self _)
  finished_card := by rw [hprogress, hfinished, hs.finished_card]
  submitting_nodup := by
    rw [hsubmitting, List.map_cons, List.nodup_cons]
    refine ⟨fun h => ?_, hs.submitting_nodup⟩
    obtain ⟨task, htask, heq⟩ := List.mem_map.mp h
    exact lt_irrefl _ (heq ▸ hs.submitting_lt task htask)
  submitting_lt task htask := by
    rw [hsubmitting] at htask
    rw [hnext]
    rcases List.mem_cons.mp htask with rfl | htask
    · exact Nat.lt_succ_self _
    · exact (hs.submitting_lt task htask).trans (Nat.lt_succ_self _)
  submitting_unaccepted task htask := by
    rw [hsubmitting] at htask
    rw [haccepted]
    rcases List.mem_cons.mp htask with rfl | htask
    · exact fun h => lt_irrefl _ (hs.accepted_lt _ h)
    · exact hs.submitting_unaccepted task htask
  accepted_lt id hid := by
    rw [haccepted] at hid
    rw [hnext]
    exact (hs.accepted_lt id hid).trans (Nat.lt_succ_self _)
  accepted_card := by rw [hprogress, haccepted, hs.accepted_card]

theorem ledger_trySubmitToLane (hs : s.Ledger) (lane : StorageTaskLane) :
    (s.trySubmitToLane lane).Ledger := by
  unfold trySubmitToLane
  split_ifs
  · refine hs.of_sent lane ?_ rfl ?_ ?_ ?_ ?_
    · have hperm := s.held_setTasks_perm lane
        ((s.channel lane).tasks ++ [{ id := s.nextId, lane }])
      rw [List.map_append, List.append_assoc] at hperm
      exact (List.perm_append_left_iff _).mp hperm
    all_goals cases lane <;> rfl
  · exact hs.of_perm (List.Perm.refl _) rfl rfl rfl rfl rfl rfl
  · exact hs.of_perm (List.Perm.refl _) rfl rfl rfl rfl rfl rfl

variable {task : StorageTask} {i : ℕ} {counted : Finset ℕ}

theorem ledger_accept (hs : s.Ledger) (htask : task ∈ s.submitting) :
    Ledger { s with
      submitting := s.submitting.erase task
      progress := s.progress.accept task.lane
      acceptedTasks := insert task.id s.acceptedTasks } where
  held_nodup := hs.held_nodup
  held_lt := hs.held_lt
  held_unfinished := hs.held_unfinished
  finished_lt := hs.finished_lt
  finished_card := hs.finished_card
  submitting_nodup := hs.submitting_nodup.sublist (List.erase_sublist.map _)
  submitting_lt task' htask' := hs.submitting_lt task' (List.mem_of_mem_erase htask')
  submitting_unaccepted task' htask' := by
    have hnodup : s.submitting.Nodup := List.Nodup.of_map _ hs.submitting_nodup
    obtain ⟨hne, hmem⟩ := hnodup.mem_erase_iff.mp htask'
    have hid : task'.id ≠ task.id := fun heq =>
      hne (List.inj_on_of_nodup_map hs.submitting_nodup hmem htask heq)
    rw [Finset.mem_insert, not_or]
    exact ⟨hid, hs.submitting_unaccepted task' hmem⟩
  accepted_lt id hid := by
    rcases Finset.mem_insert.mp hid with rfl | hid
    · exact hs.submitting_lt task htask
    · exact hs.accepted_lt id hid
  accepted_card := by
    rw [Finset.card_insert_of_notMem (hs.submitting_unaccepted task htask), ← hs.accepted_card]
    rfl

/-- A task that finishes is held no more. -/
theorem ledger_finish (hs : s.Ledger) {lane : StorageTaskLane}
    (h : s.workers[i]? = some { lane, phase := .settled task }) :
    Ledger { s.setPhase i lane .receiving with
      progress := s.progress.finish lane
      drain := s.drain.notifyWaiters
      finishedTasks := insert task.id s.finishedTasks } := by
  have hperm : (task.id :: (s.setPhase i lane .receiving).held).Perm s.held :=
    held_setPhase_perm h lane .receiving
  have hnodup := hperm.nodup_iff.mpr hs.held_nodup
  rw [List.nodup_cons] at hnodup
  have hmem : ∀ id ∈ (s.setPhase i lane .receiving).held, id ∈ s.held :=
    fun id hid => hperm.mem_iff.mp (List.mem_cons_of_mem _ hid)
  have htask : task.id ∈ s.held := hperm.mem_iff.mp List.mem_cons_self
  exact {
    held_nodup := hnodup.2
    held_lt := fun id hid => hs.held_lt id (hmem id hid)
    held_unfinished := by
      intro id hid
      rw [Finset.mem_insert, not_or]
      exact ⟨fun heq => hnodup.1 (heq ▸ hid), hs.held_unfinished id (hmem id hid)⟩
    finished_lt := by
      intro id hid
      rcases Finset.mem_insert.mp hid with rfl | hid
      · exact hs.held_lt _ htask
      · exact hs.finished_lt id hid
    finished_card := by
      rw [Finset.card_insert_of_notMem (hs.held_unfinished _ htask), ← hs.finished_card]
      rfl
    submitting_nodup := hs.submitting_nodup
    submitting_lt := hs.submitting_lt
    submitting_unaccepted := hs.submitting_unaccepted
    accepted_lt := hs.accepted_lt
    accepted_card := hs.accepted_card }

theorem held_setPhase_of_task {worker : Worker} (h : s.workers[i]? = some worker)
    (lane : StorageTaskLane) {phase : WorkerPhase} (htask : phase.task = worker.phase.task) :
    (s.setPhase i lane phase).held.Perm s.held := by
  have hperm := held_setPhase_perm h lane phase
  rw [htask] at hperm
  exact (List.perm_append_left_iff _).mp hperm

theorem ledger_take (hs : s.Ledger) {lane : StorageTaskLane} {tasks : List StorageTask}
    (h : s.workers[i]? = some { lane, phase := .receiving })
    (htasks : (s.channel lane).tasks = task :: tasks) :
    ((s.setTasks lane tasks).setPhase i lane (.running task)).Ledger := by
  have hworker : (s.setTasks lane tasks).workers[i]? = some { lane, phase := .receiving } := by
    cases lane <;> exact h
  have hphase : ((s.setTasks lane tasks).setPhase i lane (.running task)).held.Perm
      (task.id :: (s.setTasks lane tasks).held) :=
    held_setPhase_perm hworker lane (.running task)
  have hqueue := s.held_setTasks_perm lane tasks
  rw [htasks, List.map_cons, List.cons_append] at hqueue
  have hmoved : (task.id :: (s.setTasks lane tasks).held).Perm s.held :=
    (List.perm_append_left_iff (tasks.map (·.id))).mp (List.perm_middle.trans hqueue)
  refine hs.of_perm (hphase.trans hmoved) ?_ ?_ ?_ ?_ ?_ ?_
  all_goals cases lane <;> rfl

theorem settle_finished (p : StorageTaskProgress) (lane : StorageTaskLane) (outcome : Outcome) :
    (p.settle lane outcome).all.finished = p.all.finished ∧
      (p.settle lane outcome).all.accepted = p.all.accepted := by
  cases outcome <;> exact ⟨rfl, rfl⟩

theorem step_ledger {a : Action} (hs : s.Ledger) (h : step s a = some t) : t.Ledger := by
  cases a with
  | submit lane =>
    cases h
    exact ledger_trySubmitToLane hs lane
  | accept task =>
    rw [step] at h
    split_ifs at h with htask
    cases h
    exact ledger_accept hs htask
  | take worker =>
    rw [step] at h
    split at h
    · rename_i lane hworker
      split at h
      · rename_i task tasks htasks
        cases h
        exact ledger_take hs hworker htasks
      · cases h
    · cases h
  | settle worker outcome =>
    rw [step] at h
    split at h
    · rename_i lane task hworker
      cases h
      obtain ⟨hfinished, haccepted⟩ := settle_finished s.progress lane outcome
      exact hs.of_perm (held_setPhase_of_task hworker lane rfl) rfl rfl rfl rfl hfinished haccepted
    · cases h
  | finish worker =>
    rw [step] at h
    split at h
    · rename_i lane task hworker
      cases h
      exact ledger_finish hs hworker
    · cases h
  | exit worker =>
    rw [step] at h
    split at h
    · rename_i lane hworker
      split_ifs at h
      cases h
      exact hs.of_perm (held_setPhase_of_task hworker lane rfl) rfl rfl rfl rfl rfl rfl
    · cases h
  | close =>
    rw [step] at h
    split_ifs at h
    cases h
    exact hs.of_perm (List.Perm.refl _) rfl rfl rfl rfl rfl rfl
  | drainCall | drainRegister | drainCompare | drainWake | drainTimeout =>
    rw [step] at h
    split at h
    · cases h
      exact hs.of_perm (List.Perm.refl _) rfl rfl rfl rfl rfl rfl
    · cases h

theorem ledger_newWithCriticalLane
    (queueCapacity workerCount criticalQueueCapacity criticalWorkerCount : ℕ) :
    (newWithCriticalLane queueCapacity workerCount criticalQueueCapacity
      criticalWorkerCount).Ledger := by
  have hheld : (newWithCriticalLane queueCapacity workerCount criticalQueueCapacity
      criticalWorkerCount).held = [] := by
    simp [held, newWithCriticalLane, List.filterMap_append, WorkerPhase.task]
  exact {
    held_nodup := by rw [hheld]; exact List.nodup_nil
    held_lt := by rw [hheld]; simp
    held_unfinished := by rw [hheld]; simp
    finished_lt := by simp [newWithCriticalLane]
    finished_card := rfl
    submitting_nodup := List.nodup_nil
    submitting_lt := by simp [newWithCriticalLane]
    submitting_unaccepted := by simp [newWithCriticalLane]
    accepted_lt := by simp [newWithCriticalLane]
    accepted_card := rfl }

/-- No task is lost. -/
def Kept (s : BestEffortStorageExecutor) : Prop :=
  s.held.length + s.progress.all.finished = s.nextId

theorem step_kept {a : Action} (hs : s.Kept) (h : step s a = some t) : t.Kept := by
  cases a with
  | submit lane =>
    cases h
    unfold trySubmitToLane
    split_ifs
    · cases lane <;> simp [Kept, held, setTasks, channel] at hs ⊢ <;> omega
    · exact hs
    · exact hs
  | take worker | settle worker outcome | finish worker | exit worker =>
    rw [step] at h
    split at h
    · rename_i hworker
      have hset (w : Worker) :=
        (filterMap_set_perm (fun w : Worker => w.phase.task) hworker w).length_eq
      have hfinish (lane : StorageTaskLane) :
        (s.progress.finish lane).all.finished = s.progress.all.finished + 1 := rfl
      cases ‹StorageTaskLane› <;>
        grind [Kept, held, setPhase, setTasks, channel, WorkerPhase.task, settle_finished]
    · cases h
  | accept task | close =>
    rw [step] at h
    split_ifs at h
    cases h
    exact hs
  | drainCall | drainRegister | drainCompare | drainWake | drainTimeout =>
    rw [step] at h
    split at h <;> cases h
    exact hs

/-- Every task that was sent is queued, at a worker or finished, and it is there once. -/
theorem run_keeps_tasks (capacity workers criticalCapacity criticalWorkers : ℕ)
    (actions : List Action) (hrun : run (newWithCriticalLane capacity workers criticalCapacity
      criticalWorkers) actions = some s) :
    s.held.Nodup ∧ (∀ id ∈ s.held, id ∉ s.finishedTasks) ∧
      (∀ id, id < s.nextId ↔ id ∈ s.held ∨ id ∈ s.finishedTasks) ∧
      s.progress.all.finished = s.finishedTasks.card ∧
      s.progress.all.accepted = s.acceptedTasks.card := by
  have hs : s.Ledger :=
    Transition.run_invariant (fun _ => True) (fun _ _ _ _ => step_ledger) (fun _ _ => trivial)
      (ledger_newWithCriticalLane _ _ _ _) hrun
  have hkept : s.Kept :=
    Transition.run_invariant (fun _ => True) (fun _ _ _ _ => step_kept) (fun _ _ => trivial)
      (by simp [Kept, held, newWithCriticalLane, WorkerPhase.task]) hrun
  refine ⟨hs.held_nodup, hs.held_unfinished, fun id => ?_, hs.finished_card, hs.accepted_card⟩
  have hall : s.held.toFinset ∪ s.finishedTasks = Finset.range s.nextId := by
    refine Finset.eq_of_subset_of_card_le (fun id hid => Finset.mem_range.mpr ?_) ?_
    · rw [Finset.mem_union, List.mem_toFinset] at hid
      exact hid.elim (hs.held_lt id) (hs.finished_lt id)
    · rw [Finset.card_union_of_disjoint, List.toFinset_card_of_nodup hs.held_nodup,
        ← hs.finished_card, hkept, Finset.card_range]
      exact Finset.disjoint_left.mpr fun id hid => hs.held_unfinished id (List.mem_toFinset.mp hid)
  rw [← Finset.mem_range, ← hall, Finset.mem_union, List.mem_toFinset]

def taken : List Action := [.submit .critical, .take 1]

theorem run_keeps_tasks_taken : ∃ s ∈ run (newWithCriticalLane 1 1 1 1) taken,
    0 ∈ s.held ∨ 0 ∈ s.finishedTasks :=
  ⟨_, rfl, ((run_keeps_tasks 1 1 1 1 taken rfl).2.2.1 0).mp (by decide)⟩

/-- Tasks that the call did not count have finished in place of counted ones: at least as
many as are still unfinished. -/
def Overtaken (counted : Finset ℕ) (s : BestEffortStorageExecutor) : Prop :=
  (counted \ s.finishedTasks).Nonempty ∧
    (counted \ s.finishedTasks).card ≤ (s.finishedTasks \ counted).card

instance (counted : Finset ℕ) (s : BestEffortStorageExecutor) : Decidable (Overtaken counted s) :=
  inferInstanceAs (Decidable (_ ∧ _))

/-- The call compares with the number of the tasks it counted, and reports them drained only
when they have finished. -/
def DrainSound (counted : Finset ℕ) (s : BestEffortStorageExecutor) : Prop :=
  match s.drain with
  | .idle => False
  | .looping target => target = counted.card
  | .registered target _ => target = counted.card
  | .waiting target _ => target = counted.card
  | .returned report => report.drained = true → counted ⊆ s.finishedTasks

/-- The comparison itself: the counter has reached the target exactly when the call is
overtaken or nothing that it counted is missing. -/
theorem target_le_finished_iff (hs : s.Ledger) (counted : Finset ℕ) :
    counted.card ≤ s.progress.all.finished ↔ Overtaken counted s ∨ counted ⊆ s.finishedTasks := by
  rw [hs.finished_card, ← Finset.card_sdiff_le_card_sdiff_iff]
  constructor
  · intro hle
    by_cases hsub : counted ⊆ s.finishedTasks
    · exact Or.inr hsub
    · left
      exact ⟨Finset.sdiff_nonempty.mpr hsub, hle⟩
  · rintro (hovertaken | hsub)
    · exact hovertaken.2
    · rw [Finset.sdiff_eq_empty_iff_subset.mpr hsub, Finset.card_empty]
      exact Nat.zero_le _

theorem DrainSound.of_subset (hs : DrainSound counted s)
    (hdrain : t.drain = s.drain ∨ t.drain = s.drain.notifyWaiters)
    (hsub : s.finishedTasks ⊆ t.finishedTasks) : DrainSound counted t := by
  unfold DrainSound at hs ⊢
  cases hphase : s.drain with
  | returned report =>
    rw [hphase] at hs hdrain
    rcases hdrain with hdrain | hdrain <;> rw [hdrain] <;>
      exact fun hdrained => (hs hdrained).trans hsub
  | _ =>
    rw [hphase] at hs hdrain
    rcases hdrain with hdrain | hdrain <;> rw [hdrain] <;> exact hs

theorem drainSound_compare (hledger : s.Ledger) (hs : DrainSound counted s)
    (hnot : ¬ Overtaken counted s) {target : ℕ} {woken : Bool}
    (hdrain : s.drain = .registered target woken) :
    DrainSound counted { s with drain := s.compare target woken } := by
  have htarget : target = counted.card := by
    unfold DrainSound at hs
    rwa [hdrain] at hs
  unfold DrainSound compare
  split_ifs with hle
  · intro _
    rw [htarget, target_le_finished_iff hledger] at hle
    exact hle.resolve_left hnot
  · exact htarget

theorem step_drainSound {a : Action} (hledger : s.Ledger) (hs : DrainSound counted s)
    (hnot : a = .drainCompare → ¬ Overtaken counted s) (h : step s a = some t) :
    DrainSound counted t := by
  cases a with
  | submit lane =>
    cases h
    apply hs.of_subset
    · left
      unfold trySubmitToLane
      cases lane <;> split_ifs <;> rfl
    · unfold trySubmitToLane
      cases lane <;> split_ifs <;> exact Finset.Subset.refl _
  | accept task =>
    rw [step] at h
    split_ifs at h
    cases h
    exact hs.of_subset (.inl rfl) (Finset.Subset.refl _)
  | take worker =>
    rw [step] at h
    split at h
    · rename_i lane _
      split at h
      · cases h
        cases lane <;> exact hs.of_subset (.inl rfl) (Finset.Subset.refl _)
      · cases h
    · cases h
  | settle worker outcome =>
    rw [step] at h
    split at h
    · cases h
      exact hs.of_subset (.inl rfl) (Finset.Subset.refl _)
    · cases h
  | finish worker =>
    rw [step] at h
    split at h
    · cases h
      exact hs.of_subset (.inr rfl) (Finset.subset_insert _ _)
    · cases h
  | exit worker =>
    rw [step] at h
    split at h
    · split_ifs at h
      cases h
      exact hs.of_subset (.inl rfl) (Finset.Subset.refl _)
    · cases h
  | close =>
    rw [step] at h
    split_ifs at h
    cases h
    exact hs.of_subset (.inl rfl) (Finset.Subset.refl _)
  | drainCall =>
    rw [step] at h
    split at h
    · rename_i hdrain
      unfold DrainSound at hs
      rw [hdrain] at hs
      cases hs
    · cases h
  | drainCompare =>
    rw [step] at h
    split at h
    · rename_i target woken hdrain
      cases h
      exact drainSound_compare hledger hs (hnot rfl) hdrain
    · cases h
  | drainRegister | drainWake =>
    rw [step] at h
    split at h
    · rename_i target hdrain
      cases h
      unfold DrainSound at hs
      rw [hdrain] at hs
      exact hs
    · cases h
  | drainTimeout =>
    rw [step] at h
    split at h
    · cases h
      intro hdrained
      cases hdrained
    · cases h

/-- The comparisons of a `drain` call that counted these tasks are never overtaken. -/
def NeverOvertaken (counted : Finset ℕ) : BestEffortStorageExecutor → List Action → Prop :=
  Transition.Along step fun s a => a = .drainCompare → ¬ Overtaken counted s

instance (counted : Finset ℕ) (s : BestEffortStorageExecutor) (actions : List Action) :
    Decidable (NeverOvertaken counted s actions) :=
  Transition.Along.decidable step _ s actions

end Steps

end BestEffortStorageExecutor

end KiroProxy.StorageExecutor
