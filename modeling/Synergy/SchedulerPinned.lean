import Synergy.SchedulerShutdown

/-! A task for one thread. Only a scan on that thread takes it, so while the
thread does not run the task stays queued, and a queued task holds up the whole
shutdown: `stopping()` is false, no idle fiber ends, and the threads that `stop`
joins do not come back. -/
namespace Synergy.Scheduler
open List

variable {s t u : Scheduler} {n : ℤ}

/-- Not a step of the thread with this number. -/
def Elsewhere (n : ℤ) (_ : Scheduler) : Action → Prop
  | .worker w => (w : ℤ) ≠ n
  | _ => True

instance (n : ℤ) (s : Scheduler) : (a : Action) → Decidable (Elsewhere n s a)
  | .worker w => inferInstanceAs (Decidable ((w : ℤ) ≠ n))
  | .newPiber | .schedule .. | .start _ | .stop | .owner | .yield _ | .finish _ => .isTrue trivial

/-- A task for the thread `n` waits. -/
def Pinned (n : ℤ) (e : Entry) (s : Scheduler) : Prop :=
  e ∈ s.tasks ∧ e.task.thread = n ∧ n ≠ -1

theorem pinned_move {e : Entry} {a : Action} (pinned : Pinned n e s) (elsewhere : Elsewhere n s a)
    (moved : Move s a t) : Pinned n e t := by
  obtain ⟨queued, thread, real⟩ := pinned
  refine ⟨?_, thread, real⟩
  cases moved with
  | scheduled => exact mem_append_left _ queued
  | @took w before after pc it split fits first =>
    rw [split] at queued
    rcases mem_append.mp queued with ahead | here
    · exact mem_append_left _ ahead
    · rcases mem_cons.mp here with rfl | behind
      · -- the scan that takes it is on its own thread
        rcases fits.1 with free | own
        · exact absurd (thread.symm.trans free) real
        · exact absurd (own.symm.trans thread) elsewhere
      · exact mem_append_right _ behind
  | _ => exact queued

theorem Pinned.not_stopping {e : Entry} (pinned : Pinned n e s) : s.stopping = false := by
  have some_left : s.tasks.isEmpty = false := by
    rw [isEmpty_eq_false_iff]
    exact ne_nil_of_mem pinned.1
  simp [stopping, some_left]

/-- A lost thread stays lost. -/
theorem lost_stays {a : Action} {w : ThreadId} {branch : Branch} (owned : Ownership s)
    (moved : Move s a t) (lost : (s.workers w).pc = .lost branch) :
    (t.workers w).pc = .lost branch := by
  have other : ∀ v x, (s.workers v).pc ≠ .lost branch →
      (Function.update s.workers v x w).pc = .lost branch := by
    intro v x running
    have apart : w ≠ v := fun same => running (same ▸ lost)
    rw [Function.update_of_ne apart, lost]
  cases moved with
  | newPiber | scheduled | ignored | startRefused | stopRefused | stopCalled | stopMarked
  | rootLost | collected | joined | returned => exact lost
  | @started ids open_for quiet count fresh =>
    have apart : w ∉ ids := fun member => by simp [(fresh w member).2] at lost
    simpa [apart] using lost
  | rootResumed pc root ctx =>
    refine other _ _ fun here => ?_
    rcases owned.caller (by simp [pc]) with out | left
    · simp [out] at here
    · simp [left] at here
  | rootReturned pc root done => exact other _ _ (by simp [done])
  | entered pc | enteredRoot pc | took pc | tookNothing pc | pickedPiber pc | pickedCb pc
  | recycledCb pc | pickedIdle pc | leave pc | marked pc | switched pc | threadLost pc
  | idleEnded pc | idleYielded pc | yielded pc | finished pc | termMarked pc | readyMarked pc
  | switchedOut pc | settledPiber pc | settledCb pc | settledIdle pc =>
    exact other _ _ (by simp [pc])

/-- What a task for the thread `n` keeps from happening. -/
structure Blocked (n : ℤ) (e : Entry) (s t : Scheduler) : Prop where
  settled : Settled t
  waits : Pinned n e t
  untold : ∀ w, t.Told w → s.Told w

theorem blocked_move {e : Entry} {a : Action} (blocked : Blocked n e s t)
    (elsewhere : Elsewhere n t a) (stepped : step t a = some u) : Blocked n e s u where
  settled := settled_step blocked.settled stepped
  waits := pinned_move blocked.waits elsewhere (move_of_step stepped)
  untold w told := by
    rcases told_move blocked.settled.owned (move_of_step stepped) told with before | answered
    · exact blocked.untold w before
    · have stopped := stopping_of_answered answered
      rw [blocked.waits.not_stopping] at stopped
      cases stopped

/-- The thread was told to leave before, or a `MainFunc` returned on it. -/
def Ended (s t : Scheduler) (w : ThreadId) : Prop :=
  s.Told w ∨ ∃ branch, (t.workers w).pc = .lost branch

/-- `stop` still has the others of these threads on its list. -/
def Joins (s t : Scheduler) (thrs : List ThreadId) : Prop :=
  (∃ rest, t.owner = .joining rest ∧ ∀ w ∈ thrs, w ∈ rest ∨ Ended s t w) ∨
    ∀ w ∈ thrs, Ended s t w

theorem joins_move {e : Entry} {a : Action} {thrs : List ThreadId} (blocked : Blocked n e s t)
    (joins : Joins s t thrs) (moved : Move t a u) : Joins s u thrs := by
  have stays : ∀ {w}, Ended s t w → Ended s u w := fun ended =>
    ended.imp_right fun ⟨branch, lost⟩ => ⟨branch, lost_stays blocked.settled.owned moved lost⟩
  rcases joins with ⟨rest, joining, listed⟩ | all
  · have same : u.owner = t.owner → Joins s u thrs := fun owner =>
      .inl ⟨rest, owner.trans joining, fun w member => (listed w member).imp_right stays⟩
    cases moved with
    | @joined thr later pc done =>
      cases joining.symm.trans pc
      refine .inl ⟨later, rfl, fun w member => ?_⟩
      rcases listed w member with waiting | ended
      · rcases List.mem_cons.mp waiting with rfl | behind
        · rcases done with left | lost
          · exact .inr (.inl (blocked.untold w (.inl (by simp [left, WorkerPc.departing]))))
          · exact .inr (.inr lost)
        · exact .inl behind
      · exact .inr ended
    | returned pc =>
      cases joining.symm.trans pc
      exact .inr fun w member => (listed w member).resolve_left (by simp)
    | stopCalled quiet | stopMarked quiet | rootResumed quiet | rootLost quiet | rootReturned quiet
    | collected quiet =>
      rw [joining] at quiet
      cases quiet
    | _ => exact same rfl
  · exact .inr fun w member => stays (all w member)

/-- **A task for a thread that does not run blocks the shutdown.** From a
reachable state with such a task queued, in every run without a step of that
thread: the task stays queued, `stopping()` stays false, no worker leaves `run`
that was not told to before, and `stop` returns only where each thread on the
list that it joins was told to before, or was lost. -/
theorem pinned_task_blocks_shutdown (threads : UInt64) (use_caller : Bool) (caller : ThreadId)
    {e : Entry} (reached : Runs.Reachable step (initial threads use_caller caller) s)
    (pinned : Pinned n e s) (later : Runs.Reaches step (Elsewhere n) s t) :
    Pinned n e t ∧ t.stopping = false ∧
    (∀ w, (t.workers w).pc = .left → s.Told w) ∧
    ∀ thrs u, t.owner = .joining thrs → Runs.Reaches step (Elsewhere n) t u →
      u.owner = .outside → ∀ w ∈ thrs, Ended s u w := by
  have settled := settled_run (settled_initial threads use_caller caller) reached
  have start : Blocked n e s s := ⟨settled, pinned, fun _ told => told⟩
  have blocked : Blocked n e s t := later.invariant (Blocked n e s) start
    fun _ _ _ kept elsewhere stepped => blocked_move kept elsewhere stepped
  refine ⟨blocked.waits, blocked.waits.not_stopping, fun w left => ?_,
    fun thrs u joining on out => ?_⟩
  · exact blocked.untold w (.inl (by simp [left, WorkerPc.departing]))
  · have both : Blocked n e s u ∧ Joins s u thrs := by
      refine on.invariant (fun u => Blocked n e s u ∧ Joins s u thrs)
        ⟨blocked, .inl ⟨thrs, joining, fun w member => .inl member⟩⟩ ?_
      rintro v a x ⟨kept, joins⟩ elsewhere stepped
      exact ⟨blocked_move kept elsewhere stepped, joins_move kept joins (move_of_step stepped)⟩
    rcases both.2 with ⟨rest, still, -⟩ | all
    · cases out.symm.trans still
    · exact all

/-- A callback for thread 9, which the scheduler never made. -/
def forNobody : List Action :=
  [.start [1], .worker 1, .schedule none (.cb (some 7)) 9]

/-- `stop` is called, and the worker goes round its idle fiber. -/
def goneRound : List Action :=
  [.stop, .owner, .owner] ++ List.replicate 12 (.worker 1)

theorem for_nobody_blocks_shutdown :
    ∃ s t, Runs.run step (initial 1 false 0) forNobody = some s ∧
      Runs.run step s goneRound = some t ∧ t.owner = .joining [1] ∧
      t.tasks.length = 1 ∧ t.stopping = false ∧ (t.workers 1).pc ≠ .left := by
  have ran : ∃ s t, Runs.run step (initial 1 false 0) forNobody = some s ∧
      Runs.run step s goneRound = some t ∧ t.owner = .joining [1] ∧ t.tasks.length = 1 ∧
      Runs.AllSteps step (Elsewhere 9) s goneRound ∧
      Pinned 9 ⟨.make (.cb (some 7)) 9, 0⟩ s ∧ (s.workers 1).pc = .scanning ∧
      (s.pibers (s.workers 1).idle_piber).state = .READY := by
    refine ⟨_, _, rfl, rfl, rfl, rfl, by decide +kernel, ?_, rfl, rfl⟩
    exact ⟨mem_cons_self, rfl, by decide⟩
  obtain ⟨s, t, replay, after, owner, length, elsewhere, pinned, pc, live⟩ := ran
  have untold : ¬ s.Told 1 := by simp [Told, pc, live, WorkerPc.departing]
  have blocked := pinned_task_blocks_shutdown 1 false 0
    (Runs.reachable_of_run forNobody replay) pinned (Runs.reaches_of_run goneRound after elsewhere)
  exact ⟨s, t, replay, after, owner, length, blocked.2.1,
    fun left => untold (blocked.2.2.1 1 left)⟩

end Synergy.Scheduler
