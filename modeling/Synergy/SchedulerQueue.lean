import Mathlib.Data.List.Range
import Synergy.SchedulerMoves

/-! Conservation of tasks. Every accepted task carries its place in the order
of arrival; the queue and what the scans have taken share out these places
without loss or repetition, over any interleaving of `schedule` and `run`. -/
namespace Synergy.Scheduler
open List

/-- What a step does to the queue and its history. -/
inductive QueueEffect (s t : Scheduler) : Prop where
  | same (tasks : t.tasks = s.tasks) (taken : t.taken = s.taken)
      (accepted : t.accepted = s.accepted)
  | arrived (task : ScheduleTask) (set : task.isSet = true)
      (tasks : t.tasks = s.tasks ++ [⟨task, s.accepted.length⟩]) (taken : t.taken = s.taken)
      (accepted : t.accepted = s.accepted ++ [task])
  | took (before : List Entry) (it : Entry) (after : List Entry)
      (split : s.tasks = before ++ it :: after) (tasks : t.tasks = before ++ after)
      (taken : t.taken = it :: s.taken) (accepted : t.accepted = s.accepted)

theorem move_queue {s t : Scheduler} {a : Action} (moved : Move s a t) : QueueEffect s t := by
  cases moved with
  | scheduled task same caller held set => exact .arrived task set rfl rfl rfl
  | took pc it split fits first => exact .took _ it _ split rfl rfl rfl
  | _ => exact .same rfl rfl rfl

/-- The accepted tasks are shared out between the queue, in order of arrival,
and what was taken. -/
structure Ledger (s : Scheduler) : Prop where
  conserved : ((s.tasks ++ s.taken).map Entry.ticket).Perm (range s.accepted.length)
  genuine : ∀ e ∈ s.tasks ++ s.taken, s.accepted[e.ticket]? = some e.task
  ordered : (s.tasks.map Entry.ticket).Pairwise (· < ·)
  set : ∀ task ∈ s.accepted, task.isSet = true

variable {s t : Scheduler}

theorem Ledger.ticket_lt (ledger : Ledger s) {e : Entry} (member : e ∈ s.tasks ++ s.taken) :
    e.ticket < s.accepted.length :=
  mem_range.mp (ledger.conserved.mem_iff.mp (mem_map_of_mem member))

private theorem Ledger.arrive (ledger : Ledger s) {task : ScheduleTask} (set : task.isSet = true)
    (tasks : t.tasks = s.tasks ++ [⟨task, s.accepted.length⟩]) (taken : t.taken = s.taken)
    (accepted : t.accepted = s.accepted ++ [task]) : Ledger t where
  conserved := by
    have moved : ((t.tasks ++ t.taken).map Entry.ticket).Perm
        ((s.tasks ++ s.taken).map Entry.ticket ++ [s.accepted.length]) := by
      simp only [tasks, taken, map_append, map_cons, map_nil, append_assoc]
      exact (perm_append_comm).append_left _
    rw [accepted, length_append, length_singleton, range_succ]
    exact moved.trans (ledger.conserved.append_right _)
  genuine e member := by
    rw [accepted]
    rw [tasks, taken, append_assoc] at member
    have known : e ∈ s.tasks ++ s.taken → (s.accepted ++ [task])[e.ticket]? = some e.task :=
      fun old => by rw [getElem?_append_left (ledger.ticket_lt old), ledger.genuine e old]
    rcases mem_append.mp member with queued | later
    · exact known (mem_append_left _ queued)
    · rcases mem_append.mp later with new | gone
      · cases mem_singleton.mp new
        simp
      · exact known (mem_append_right _ gone)
  ordered := by
    rw [tasks, map_append, pairwise_append]
    refine ⟨ledger.ordered, pairwise_singleton _ _, fun early queued late new => ?_⟩
    obtain ⟨e, member, rfl⟩ := mem_map.mp queued
    cases mem_singleton.mp new
    exact ledger.ticket_lt (mem_append_left _ member)
  set := by
    rw [accepted]
    intro other member
    rcases mem_append.mp member with old | new
    · exact ledger.set other old
    · rw [mem_singleton.mp new]
      exact set

private theorem Ledger.take (ledger : Ledger s) {before after : List Entry} {it : Entry}
    (split : s.tasks = before ++ it :: after) (tasks : t.tasks = before ++ after)
    (taken : t.taken = it :: s.taken) (accepted : t.accepted = s.accepted) : Ledger t := by
  have moved : (t.tasks ++ t.taken).Perm (s.tasks ++ s.taken) := by
    rw [tasks, taken, split, append_assoc, append_assoc]
    exact (perm_middle).append_left before
  refine ⟨?_, fun e member => ?_, ?_, ?_⟩
  · rw [accepted]
    exact (moved.map _).trans ledger.conserved
  · rw [accepted]
    exact ledger.genuine e (moved.mem_iff.mp member)
  · have ordered := ledger.ordered
    rw [split] at ordered
    rw [tasks]
    exact ordered.sublist (((sublist_cons_self it after).append_left before).map _)
  · rw [accepted]
    exact ledger.set

theorem ledger_initial (threads : UInt64) (use_caller : Bool) (caller : ThreadId) :
    Ledger (initial threads use_caller caller) := by
  unfold initial
  split <;> exact ⟨by simp, by simp, by simp, by simp⟩

theorem ledger_step {a : Action} (ledger : Ledger s) (stepped : step s a = some t) :
    Ledger t := by
  cases move_queue (move_of_step stepped) with
  | same tasks taken accepted =>
    exact ⟨by rw [tasks, taken, accepted]; exact ledger.conserved,
      by rw [tasks, taken, accepted]; exact ledger.genuine, by rw [tasks]; exact ledger.ordered,
      by rw [accepted]; exact ledger.set⟩
  | arrived task set tasks taken accepted => exact ledger.arrive set tasks taken accepted
  | took before it after split tasks taken accepted => exact ledger.take split tasks taken accepted

/-- What a scan leaves: the first entry that qualifies is gone to the worker
and the others stand as they stood, or no entry qualified and none moved. -/
def TakesEarliest (s : Scheduler) (w : ThreadId) (t : Scheduler) : Prop :=
  (∃ before it after, s.tasks = before ++ it :: after ∧ t.tasks = before ++ after ∧
    t.taken = it :: s.taken ∧ (t.workers w).pc = .picked it.task ∧
    Qualifies s.runing w it ∧ ∀ e ∈ before, ¬ Qualifies s.runing w e) ∨
  t.tasks = s.tasks ∧ t.taken = s.taken ∧ (t.workers w).pc = .picked {} ∧
    ∀ e ∈ s.tasks, ¬ Qualifies s.runing w e

theorem scan_takes_earliest {w : ThreadId} (pc : (s.workers w).pc = .scanning)
    (stepped : step s (.worker w) = some t) : TakesEarliest s w t := by
  have scanned : t = s.runScan w := by simpa [step, workerStep, pc] using stepped.symm
  subst scanned
  rw [runScan_eq]
  rcases scan_cases s.runing w s.tasks with
    ⟨before, it, after, split, found, left, fits, first⟩ | ⟨found, none_fits⟩
  · rw [found]
    exact .inl ⟨before, it, after, split, left, rfl, by simp, fits, first⟩
  · rw [found]
    exact .inr ⟨rfl, rfl, by simp, none_fits⟩

/-- A call of `schedule` with a fiber or a function is accepted at the end of
the queue; one without is dropped. -/
def Arrives (s : Scheduler) (fc : FiberOrCb) (thread : ℤ) (t : Scheduler) : Prop :=
  let task := ScheduleTask.make fc thread
  t.taken = s.taken ∧
    if task.isSet then
      t.tasks = s.tasks ++ [⟨task, s.accepted.length⟩] ∧ t.accepted = s.accepted ++ [task]
    else t.tasks = s.tasks ∧ t.accepted = s.accepted

theorem schedule_arrives {worker : Option ThreadId} {fc : FiberOrCb} {thread : ℤ}
    (stepped : step s (.schedule worker fc thread) = some t) : Arrives s fc thread t := by
  have scheduled : t = s.schedule fc thread := by
    simp only [step] at stepped
    split at stepped <;> cases stepped
    rfl
  subst scheduled
  unfold Arrives schedule scheduleNoLock
  by_cases set : (ScheduleTask.make fc thread).isSet = true <;> simp [set]

/-- **Tasks are conserved.** In every reachable state the accepted tasks are
the queue, in order of arrival, and what was taken, each once; `schedule` adds
exactly the tasks that name something to run; and a scan takes precisely the
earliest entry that its thread may run now. -/
theorem tasks_conserved_and_taken_in_order (threads : UInt64) (use_caller : Bool)
    (caller : ThreadId)
    (reached : Runs.Reachable step (initial threads use_caller caller) s) :
    Ledger s ∧
    (∀ worker fc thread t, step s (.schedule worker fc thread) = some t →
      Arrives s fc thread t) ∧
    ∀ w t, (s.workers w).pc = .scanning → step s (.worker w) = some t →
      TakesEarliest s w t := by
  refine ⟨?_, fun _ _ _ _ => schedule_arrives, fun _ _ => scan_takes_earliest⟩
  exact reached.invariant Ledger (ledger_initial threads use_caller caller)
    fun _ _ _ ledger _ stepped => ledger_step ledger stepped

/-- A task pinned to a thread that never scans stays; the later one is taken. -/
def pinnedElsewhere : List Action :=
  [.newPiber, .schedule none (.piber (some 0)) 9, .schedule none (.cb none) 1,
    .schedule none (.cb (some 7)) 1, .start [1], .worker 1, .worker 1]

theorem pinned_elsewhere_is_kept :
    ∃ s, Runs.run step (initial 1 false 0) pinnedElsewhere = some s ∧
      s.tasks.map Entry.ticket = [0] ∧ s.taken.map Entry.ticket = [1] ∧ Ledger s := by
  have ran : ∃ s, Runs.run step (initial 1 false 0) pinnedElsewhere = some s ∧
      s.tasks.map Entry.ticket = [0] ∧ s.taken.map Entry.ticket = [1] := ⟨_, rfl, rfl, rfl⟩
  obtain ⟨s, replay, queued, taken⟩ := ran
  have reached := Runs.reachable_of_run pinnedElsewhere replay
  exact ⟨s, replay, queued, taken,
    (tasks_conserved_and_taken_in_order 1 false 0 reached).1⟩

end Synergy.Scheduler
