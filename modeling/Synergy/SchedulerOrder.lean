import Synergy.SchedulerQueue

/-! The order in which tasks are taken. A scan passes over an entry only for
another thread's pin or for a fiber in state `RUNING`, so a callback is overtaken
only by tasks for other threads, and one for any thread not at all. -/
namespace Synergy.Scheduler
open List

/-- If the first is a callback that came before the second, it is pinned, and not
to the thread that the second is for. -/
def Waited (e later : Entry) : Prop :=
  e.task.piber = none → e.ticket < later.ticket →
    e.task.thread ≠ -1 ∧ later.task.thread ≠ e.task.thread

/-- Whatever was taken before a callback, queued or taken itself, had reason to
be. The entries taken are listed latest first. -/
structure InOrder (s : Scheduler) : Prop where
  queued : ∀ e ∈ s.tasks, ∀ later ∈ s.taken, Waited e later
  taken : s.taken.Pairwise Waited

variable {s t : Scheduler}

theorem inOrder_initial (threads : UInt64) (use_caller : Bool) (caller : ThreadId) :
    InOrder (initial threads use_caller caller) := by
  unfold initial
  split <;> exact ⟨by simp, by simp⟩

/-- A scan that passes over a callback leaves it for its own thread. -/
theorem waited_of_passed {runing : PiberId → Bool} {w : ThreadId} {e it : Entry}
    (passed : ¬ Qualifies runing w e) (fits : Qualifies runing w it) : Waited e it := by
  intro callback _
  have pinned : ¬ (e.task.thread = -1 ∨ e.task.thread = w) := fun free =>
    passed ⟨free, fun p same => by simp [callback] at same⟩
  have for_worker := fits.1
  omega

private theorem InOrder.take (inOrder : InOrder s) (ledger : Ledger s) {w : ThreadId}
    {before after : List Entry} {it : Entry} (split : s.tasks = before ++ it :: after)
    (fits : Qualifies s.runing w it) (first : ∀ e ∈ before, ¬ Qualifies s.runing w e)
    (tasks : t.tasks = before ++ after) (taken : t.taken = it :: s.taken) : InOrder t where
  queued e member later old := by
    rw [tasks] at member
    have queued : e ∈ s.tasks := by
      rw [split]
      rcases mem_append.mp member with ahead | behind
      · exact mem_append_left _ ahead
      · exact mem_append_right _ (mem_cons_of_mem _ behind)
    rw [taken] at old
    rcases mem_cons.mp old with rfl | earlier
    · rcases mem_append.mp member with ahead | behind
      · exact waited_of_passed (first e ahead) fits
      · -- what stands behind came later
        have ordered := ledger.ordered
        rw [split, map_append, pairwise_append, map_cons, pairwise_cons] at ordered
        have above := ordered.2.1.1 e.ticket (mem_map_of_mem behind)
        intro _ below
        omega
    · exact inOrder.queued e queued later earlier
  taken := by
    rw [taken, pairwise_cons]
    refine ⟨fun later old => inOrder.queued it ?_ later old, inOrder.taken⟩
    rw [split]
    exact mem_append_right _ mem_cons_self

theorem inOrder_move {a : Action} (ledger : Ledger s) (inOrder : InOrder s)
    (moved : Move s a t) : InOrder t := by
  cases moved with
  | @scheduled fc thread worker task same caller held set =>
    refine ⟨fun e member later old => ?_, inOrder.taken⟩
    rcases mem_append.mp member with queued | new
    · exact inOrder.queued e queued later old
    · cases mem_singleton.mp new
      have below := ledger.ticket_lt (mem_append_right s.tasks old)
      intro _ above
      exact absurd above (Nat.lt_asymm below)
  | took pc it split fits first => exact inOrder.take ledger split fits first rfl rfl
  | _ => exact ⟨inOrder.queued, inOrder.taken⟩

theorem Ledger.distinct (ledger : Ledger s) :
    (s.taken.map Entry.ticket).Nodup ∧
      ∀ e ∈ s.tasks, ∀ later ∈ s.taken, e.ticket ≠ later.ticket := by
  have tickets := ledger.conserved.nodup_iff.mpr nodup_range
  rw [map_append, nodup_append] at tickets
  obtain ⟨-, taken, apart⟩ := tickets
  exact ⟨taken, fun e queued later old =>
    apart e.ticket (mem_map_of_mem queued) later.ticket (mem_map_of_mem old)⟩

/-- While a callback for any thread is queued, only tasks that came before it
have been taken. -/
theorem taken_before_unpinned (ledger : Ledger s) (inOrder : InOrder s) {e : Entry}
    (queued : e ∈ s.tasks) (callback : e.task.piber = none) (unpinned : e.task.thread = -1) :
    s.taken.length ≤ e.ticket := by
  obtain ⟨once, apart⟩ := ledger.distinct
  have below : s.taken.map Entry.ticket ⊆ range e.ticket := by
    intro ticket member
    obtain ⟨later, old, rfl⟩ := mem_map.mp member
    have differ := apart e queued later old
    have no_pin := inOrder.queued e queued later old callback
    rw [mem_range]
    by_contra above
    exact (no_pin (by omega)).1 unpinned
  have bound := (once.subperm below).length_le
  rwa [length_map, length_range] at bound

/-- A scan on a thread that may run a queued callback takes it or one before it. -/
theorem scan_reaches_callback (ledger : Ledger s) {w : ThreadId} {e : Entry}
    (left : TakesEarliest s w t) (queued : e ∈ s.tasks) (callback : e.task.piber = none)
    (for_worker : e.task.thread = -1 ∨ e.task.thread = w) :
    ∃ it, t.taken = it :: s.taken ∧ it.ticket ≤ e.ticket := by
  have fits : Qualifies s.runing w e := ⟨for_worker, fun p same => by simp [callback] at same⟩
  rcases left with ⟨before, it, after, split, -, taken, -, -, first⟩ | ⟨-, -, -, none_fits⟩
  · refine ⟨it, taken, ?_⟩
    have ordered := ledger.ordered
    rw [split, map_append, pairwise_append, map_cons, pairwise_cons] at ordered
    rw [split] at queued
    rcases mem_append.mp queued with ahead | here
    · exact absurd fits (first e ahead)
    · rcases mem_cons.mp here with rfl | behind
      · exact le_refl _
      · exact Nat.le_of_lt (ordered.2.1.1 e.ticket (mem_map_of_mem behind))
  · exact absurd fits (none_fits e queued)

/-- **Callbacks are not overtaken.** In every reachable state a task that was
taken before an earlier callback is for another thread than the callback's. A
callback for any thread is overtaken by none: while it is queued, no more tasks
have been taken than came before it, and each scan takes it or one of those. -/
theorem callbacks_are_not_overtaken (threads : UInt64) (use_caller : Bool) (caller : ThreadId)
    (reached : Runs.Reachable step (initial threads use_caller caller) s) :
    InOrder s ∧
    ∀ e ∈ s.tasks, e.task.piber = none → e.task.thread = -1 →
      s.taken.length ≤ e.ticket ∧
      ∀ w t, (s.workers w).pc = .scanning → step s (.worker w) = some t →
        ∃ it, t.taken = it :: s.taken ∧ it.ticket ≤ e.ticket := by
  have both : Ledger s ∧ InOrder s := by
    refine reached.invariant (fun s => Ledger s ∧ InOrder s)
      ⟨ledger_initial threads use_caller caller, inOrder_initial threads use_caller caller⟩ ?_
    intro s a t held _ stepped
    exact ⟨ledger_step held.1 stepped, inOrder_move held.1 held.2 (move_of_step stepped)⟩
  obtain ⟨ledger, inOrder⟩ := both
  refine ⟨inOrder, fun e queued callback unpinned => ⟨?_, fun w t pc stepped => ?_⟩⟩
  · exact taken_before_unpinned ledger inOrder queued callback unpinned
  · exact scan_reaches_callback ledger (scan_takes_earliest pc stepped) queued callback
      (.inl unpinned)

/-- The worker of thread 1 has taken one callback and scans again; one for any
thread and one for thread 9 wait. -/
def callbacksWaiting : List Action :=
  [.schedule none (.cb (some 3)) 9, .schedule none (.cb (some 5)) 1,
    .schedule none (.cb (some 7)) (-1), .start [1], .worker 1, .worker 1]

theorem callbacks_waiting_are_in_order :
    ∃ s, Runs.run step (initial 1 false 0) callbacksWaiting = some s ∧
      s.tasks.map Entry.ticket = [0, 2] ∧ s.taken.map Entry.ticket = [1] ∧ InOrder s := by
  have ran : ∃ s, Runs.run step (initial 1 false 0) callbacksWaiting = some s ∧
      s.tasks.map Entry.ticket = [0, 2] ∧ s.taken.map Entry.ticket = [1] := ⟨_, rfl, rfl, rfl⟩
  obtain ⟨s, replay, queued, taken⟩ := ran
  have reached := Runs.reachable_of_run callbacksWaiting replay
  exact ⟨s, replay, queued, taken, (callbacks_are_not_overtaken 1 false 0 reached).1⟩

end Synergy.Scheduler
