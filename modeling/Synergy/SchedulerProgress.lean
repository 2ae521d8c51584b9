import Synergy.SchedulerOrder
import Synergy.SchedulerOwnership

/-! How long a callback waits. Each step brings a thread nearer to its next scan,
and each scan of a thread that may run the callback takes it or a task that came
before it. So the steps of one such thread are bounded as long as the callback is
queued, whatever the other threads and the tasks themselves do. -/
namespace Synergy

/-- How far a thread has come since its last scan. -/
def WorkerPc.progress : WorkerPc → ℕ
  | .outside | .picked _ => 0
  | .left | .resuming _ _ => 1
  | .entering | .switching _ _ => 2
  | .inside _ _ | .lost _ => 3
  | .ending _ _ => 4
  | .parting _ _ _ => 5
  | .yielding _ _ _ => 6
  | .resumed _ => 7
  | .scanning => 8

theorem WorkerPc.progress_le (pc : WorkerPc) : pc.progress ≤ 8 := by
  cases pc <;> simp [WorkerPc.progress]

namespace Scheduler
open List

variable {s t : Scheduler} {e : Entry} {w : ThreadId}

/-- How many tasks that came before have been taken. -/
def takenBefore (s : Scheduler) (e : Entry) : ℕ :=
  s.taken.countP fun it => it.ticket < e.ticket

/-- How far the thread has come towards taking the entry; a round of `run` is
nine steps at most. -/
def advanced (s : Scheduler) (e : Entry) (w : ThreadId) : ℕ :=
  9 * s.takenBefore e + (s.workers w).pc.progress

theorem takenBefore_le (ledger : Ledger s) (e : Entry) : s.takenBefore e ≤ e.ticket := by
  have once := ledger.distinct.1
  have below : ((s.taken.filter fun it => it.ticket < e.ticket).map Entry.ticket) ⊆
      range e.ticket := by
    intro ticket member
    obtain ⟨it, inside, rfl⟩ := mem_map.mp member
    simpa using (mem_filter.mp inside).2
  have fewer : (s.taken.filter fun it => it.ticket < e.ticket).Sublist s.taken := filter_sublist
  have bound := ((once.sublist (fewer.map Entry.ticket)).subperm below).length_le
  rwa [length_map, length_range, ← countP_eq_length_filter] at bound

theorem advanced_le (ledger : Ledger s) : s.advanced e w ≤ 9 * e.ticket + 8 := by
  have before := takenBefore_le ledger e
  have place := (s.workers w).pc.progress_le
  unfold advanced
  omega

/-- A step of one thread that is not a scan brings it on. -/
private theorem advanced_one {v : ThreadId} {x : Worker} (taken : t.taken = s.taken)
    (workers : t.workers = Function.update s.workers v x)
    (on : (s.workers v).pc.progress < x.pc.progress) :
    s.advanced e w + (if w = v then 1 else 0) ≤ t.advanced e w := by
  unfold advanced takenBefore
  rw [taken, workers]
  by_cases same : w = v
  · subst v
    rw [Function.update_self, if_pos rfl]
    omega
  · rw [Function.update_of_ne same, if_neg same, Nat.add_zero]

private theorem advanced_same (taken : t.taken = s.taken)
    (workers : (t.workers w).pc.progress = (s.workers w).pc.progress) :
    s.advanced e w ≤ t.advanced e w := by
  unfold advanced takenBefore
  rw [taken, workers]

private theorem advanced_scan (ledger : Ledger s) {v : ThreadId} {before after : List Entry}
    {it : Entry} {x : Worker} (split : s.tasks = before ++ it :: after)
    (first : ∀ other ∈ before, ¬ Qualifies s.runing v other) (queued : e ∈ before ++ after)
    (fits : Qualifies s.runing w e) (pc : (s.workers v).pc = .scanning)
    (taken : t.taken = it :: s.taken) (workers : t.workers = Function.update s.workers v x) :
    s.advanced e w + (if w = v then 1 else 0) ≤ t.advanced e w := by
  unfold advanced takenBefore
  rw [taken, workers, countP_cons]
  by_cases same : w = v
  · subst v
    have behind : e ∈ after := by
      rcases mem_append.mp queued with ahead | behind
      · exact absurd fits (first e ahead)
      · exact behind
    have ordered := ledger.ordered
    rw [split, map_append, pairwise_append, map_cons, pairwise_cons] at ordered
    have earlier : it.ticket < e.ticket := ordered.2.1.1 e.ticket (mem_map_of_mem behind)
    rw [pc, if_pos rfl, if_pos (by simpa using earlier)]
    simp only [WorkerPc.progress]
    omega
  · rw [Function.update_of_ne same, if_neg same]
    omega

/-- The thread has one step more behind it for each that it takes. -/
theorem advanced_move {a : Action} (owned : Ownership s) (ledger : Ledger s)
    (callback : e.task.piber = none) (for_worker : e.task.thread = -1 ∨ e.task.thread = w)
    (queued : e ∈ s.tasks) (still : e ∈ t.tasks) (moved : Move s a t) :
    s.advanced e w + (if a = .worker w then 1 else 0) ≤ t.advanced e w := by
  have fits : Qualifies s.runing w e := ⟨for_worker, fun p same => by simp [callback] at same⟩
  have turn : ∀ v, (if (Action.worker v) = .worker w then 1 else 0) = if w = v then 1 else 0 := by
    intro v
    simp only [Action.worker.injEq, eq_comm]
  cases moved with
  | newPiber | scheduled | ignored | startRefused | stopRefused | stopCalled | stopMarked
  | rootLost | collected | joined | returned => exact advanced_same rfl rfl
  | @started ids open_for quiet count fresh =>
    unfold advanced takenBefore
    by_cases member : w ∈ ids
    · simp [member, (fresh w member).2, WorkerPc.progress]
    · simp [member]
  | rootResumed pc root ctx =>
    have on : (s.workers s.caller).pc.progress < WorkerPc.entering.progress := by
      rcases owned.caller (by simp [pc]) with out | left
      · simp [out, WorkerPc.progress]
      · simp [left, WorkerPc.progress]
    exact (Nat.le_add_right _ _).trans (advanced_one rfl rfl on)
  | rootReturned pc root done =>
    refine advanced_same rfl ?_
    by_cases same : w = s.caller
    · subst w
      simp
    · simp [Function.update_of_ne same]
  | @took v before after pc it split fits' first =>
    rw [turn v]
    exact advanced_scan ledger split first still fits pc rfl rfl
  | @tookNothing v pc none_fits =>
    have apart : w ≠ v := fun same => none_fits e queued (same ▸ fits)
    rw [turn v, if_neg apart]
    refine advanced_same rfl ?_
    simp [Function.update_of_ne apart]
  | @yielded v branch p pc busy =>
    have on : (s.workers v).pc.progress < (WorkerPc.parting branch (s.workers v).t_piber
      false).progress := by simp [pc, WorkerPc.progress]
    exact (Nat.le_add_right _ _).trans (advanced_one rfl rfl on)
  | @finished v branch p pc busy =>
    have on : (s.workers v).pc.progress < (WorkerPc.ending branch p).progress := by
      simp [pc, WorkerPc.progress]
    exact (Nat.le_add_right _ _).trans (advanced_one rfl rfl on)
  | @entered v pc | @enteredRoot v pc | @pickedPiber v p task pc | @recycledCb v p task pc
  | @pickedCb v task pc
  | @pickedIdle v task pc | @leave v task pc | @marked v branch p pc | @switched v branch p pc
  | @threadLost v branch p pc | @idleEnded v p pc | @idleYielded v p pc | @termMarked v branch p pc
  | @readyMarked v branch p ended pc | @switchedOut v branch p ended pc | @settledPiber v pc
  | @settledCb v pc | @settledIdle v pc =>
    rw [turn v]
    exact advanced_one rfl rfl (by simp [*, WorkerPc.progress])

/-- What was taken stays so, and is queued no more. -/
theorem taken_stays {schedule : List Action} (ledger : Ledger s)
    (ran : Runs.run step s schedule = some t) (taken : e ∈ s.taken) : e ∉ t.tasks := by
  induction schedule generalizing s with
  | nil =>
    cases ran
    exact fun queued => ledger.distinct.2 e queued e taken rfl
  | cons a rest ih =>
    unfold Runs.run at ran
    cases stepped : step s a with
    | none => simp [stepped] at ran
    | some u =>
      simp only [stepped] at ran
      refine ih (ledger_step ledger stepped) ran ?_
      cases move_queue (move_of_step stepped) with
      | same _ same => exact same ▸ taken
      | arrived _ _ _ same => exact same ▸ taken
      | took _ _ _ _ _ more => exact more ▸ mem_cons_of_mem _ taken

/-- A queued entry that is queued later was not taken by the first step. -/
theorem queued_between {a : Action} {schedule : List Action} {u : Scheduler} (ledger : Ledger s)
    (stepped : step s a = some u) (ran : Runs.run step u schedule = some t) (queued : e ∈ s.tasks)
    (still : e ∈ t.tasks) : e ∈ u.tasks := by
  cases move_queue (move_of_step stepped) with
  | same same => exact same ▸ queued
  | arrived _ _ more => exact more ▸ mem_append_left _ queued
  | took before it after split left taken =>
    rw [left]
    rw [split] at queued
    rcases mem_append.mp queued with ahead | here
    · exact mem_append_left _ ahead
    · rcases mem_cons.mp here with rfl | behind
      · have gone : e ∈ u.taken := taken ▸ mem_cons_self
        exact absurd still (taken_stays (ledger_step ledger stepped) ran gone)
      · exact mem_append_right _ behind

/-- The steps that a thread takes while a callback that it may run is queued. -/
theorem steps_while_queued (schedule : List Action) (owned : Ownership s) (ledger : Ledger s)
    (queued : e ∈ s.tasks) (callback : e.task.piber = none)
    (for_worker : e.task.thread = -1 ∨ e.task.thread = w)
    (ran : Runs.run step s schedule = some t) (still : e ∈ t.tasks) :
    s.advanced e w + schedule.count (.worker w) ≤ 9 * e.ticket + 8 := by
  induction schedule generalizing s with
  | nil => simpa using advanced_le ledger
  | cons a rest ih =>
    unfold Runs.run at ran
    cases stepped : step s a with
    | none => simp [stepped] at ran
    | some u =>
      simp only [stepped] at ran
      have between := queued_between ledger stepped ran queued still
      have on := advanced_move owned ledger callback for_worker queued between
        (move_of_step stepped)
      have later := ih (ownership_step owned stepped) (ledger_step ledger stepped) between ran
      rw [count_cons]
      simp only [beq_iff_eq]
      omega

/-- **Nobody starves.** Let a callback for any thread, or for the thread `w`, be
queued in a reachable state. However the run goes on, as long as the callback
stays queued the thread `w` takes at most nine steps for each task that came
before it, and eight more; and each pass of that thread over the queue takes the
callback or one of those tasks. -/
theorem callback_waits_boundedly (threads : UInt64) (use_caller : Bool) (caller : ThreadId)
    (reached : Runs.Reachable step (initial threads use_caller caller) s) (queued : e ∈ s.tasks)
    (callback : e.task.piber = none) (for_worker : e.task.thread = -1 ∨ e.task.thread = w)
    (schedule : List Action) (ran : Runs.run step s schedule = some t) (still : e ∈ t.tasks) :
    schedule.count (.worker w) ≤ 9 * e.ticket + 8 ∧
      ∀ u, (t.workers w).pc = .scanning → step t (.worker w) = some u →
        ∃ it, u.taken = it :: t.taken ∧ it.ticket ≤ e.ticket := by
  have kept : ∀ s, Runs.Reachable step (initial threads use_caller caller) s →
      Ownership s ∧ Ledger s := by
    intro s reached
    refine reached.invariant (fun s => Ownership s ∧ Ledger s)
      ⟨ownership_initial threads use_caller caller, ledger_initial threads use_caller caller⟩ ?_
    intro s a t held _ stepped
    exact ⟨ownership_step held.1 stepped, ledger_step held.2 stepped⟩
  constructor
  · obtain ⟨owned, ledger⟩ := kept s reached
    have paid := steps_while_queued schedule owned ledger queued callback for_worker ran still
    omega
  · intro u pc stepped
    obtain ⟨-, ledger⟩ := kept t (reached.trans (Runs.reachable_of_run schedule ran))
    exact scan_reaches_callback ledger (scan_takes_earliest pc stepped) still callback for_worker

/-- A callback with one before it; the other thread takes that one. -/
def oneAhead : List Action :=
  [.start [1, 2], .schedule none (.cb (some 5)) (-1), .schedule none (.cb (some 7)) (-1)]

theorem one_ahead_waits_boundedly :
    ∃ s t, Runs.run step (initial 2 false 0) oneAhead = some s ∧
      Runs.run step s [.worker 1, .worker 2, .worker 2, .worker 2] = some t ∧
      t.tasks = [⟨.make (.cb (some 7)) (-1), 1⟩] ∧
      [Action.worker 1, .worker 2, .worker 2, .worker 2].count (.worker 2) ≤ 17 := by
  have ran : ∃ s t, Runs.run step (initial 2 false 0) oneAhead = some s ∧
      Runs.run step s [.worker 1, .worker 2, .worker 2, .worker 2] = some t ∧
      s.tasks = [⟨.make (.cb (some 5)) (-1), 0⟩, ⟨.make (.cb (some 7)) (-1), 1⟩] ∧
      t.tasks = [⟨.make (.cb (some 7)) (-1), 1⟩] := ⟨_, _, rfl, rfl, rfl, rfl⟩
  obtain ⟨s, t, replay, after, queued, left⟩ := ran
  have reached := Runs.reachable_of_run oneAhead replay
  refine ⟨s, t, replay, after, left, ?_⟩
  exact (callback_waits_boundedly 2 false 0 reached (e := ⟨.make (.cb (some 7)) (-1), 1⟩)
    (by simp [queued]) rfl (.inl rfl) _ after (by simp [left])).1

end Scheduler
end Synergy
