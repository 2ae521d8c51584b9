import Synergy.SchedulerOwnership
import Synergy.Tally

/-! Graceful shutdown. `m_activeThreadCount` goes up with the take, under the
lock, and down behind `resume`, outside it; it counts the threads between the
two. So once `stopping()` answers true no task is left that could add another,
and only a thread outside the scheduler can undo it. -/
namespace Synergy

/-- Between the take of a task and the decrement behind it. -/
def WorkerPc.busy : WorkerPc → Bool
  | .picked task => task.isSet
  | .resuming branch _ | .switching branch _ | .inside branch _ | .ending branch _
  | .parting branch _ _ | .yielding branch _ _ | .resumed branch | .lost branch =>
    branch != .idle
  | _ => false

namespace Scheduler
open Tally

variable {s t : Scheduler}

/-- One for a thread between the take of a task and its decrement. -/
def load (s : Scheduler) (w : ThreadId) : ℤ := if (s.workers w).pc.busy then 1 else 0

/-- The active counter is the number of busy threads. -/
def Counted (s : Scheduler) : Prop := Totals s.load s.activeThreadCount

theorem load_nonneg (s : Scheduler) (w : ThreadId) : 0 ≤ s.load w := by
  unfold load
  split <;> omega

theorem load_of_idle {w : ThreadId} (idle : (s.workers w).pc.busy = false) : s.load w = 0 := by
  simp [load, idle]

theorem load_of_busy {w : ThreadId} (busy : (s.workers w).pc.busy = true) : s.load w = 1 := by
  simp [load, busy]

/-- A step of one thread, which may count itself in or out. -/
private theorem Counted.one_worker {w : ThreadId} {x : Worker} (counted : Counted s)
    (workers : t.workers = Function.update s.workers w x)
    (active : t.activeThreadCount = s.activeThreadCount + (t.load w - s.load w)) :
    Counted t := by
  unfold Counted
  rw [active]
  refine Totals.change counted fun v apart => ?_
  simp [load, workers, Function.update_of_ne apart]

/-- A step that makes no thread busy or free. -/
private theorem Counted.quiet (counted : Counted s)
    (busy : ∀ v, (t.workers v).pc.busy = (s.workers v).pc.busy)
    (active : t.activeThreadCount = s.activeThreadCount) : Counted t := by
  unfold Counted
  rw [active]
  exact Totals.congr counted fun v => by simp [load, busy v]

/-- A step of one thread that stays busy or stays free. -/
private theorem Counted.same_worker {w : ThreadId} {x : Worker} (counted : Counted s)
    (workers : t.workers = Function.update s.workers w x)
    (busy : x.pc.busy = (s.workers w).pc.busy)
    (active : t.activeThreadCount = s.activeThreadCount) : Counted t := by
  refine counted.quiet (fun v => ?_) active
  rw [workers]
  by_cases same : v = w
  · subst v
    rw [Function.update_self, busy]
  · rw [Function.update_of_ne same]

theorem counted_initial (threads : UInt64) (use_caller : Bool) (caller : ThreadId) :
    Counted (initial threads use_caller caller) := by
  have free : ∀ w, ((initial threads use_caller caller).workers w).pc.busy = false := fun w => by
    simp [outside_initial, WorkerPc.busy]
  have active : (initial threads use_caller caller).activeThreadCount = 0 := by
    unfold initial
    split <;> rfl
  unfold Counted
  rw [active]
  exact totals_zero fun w => load_of_idle (free w)

theorem counted_move {a : Action} (owned : Ownership s) (counted : Counted s)
    (moved : Move s a t) : Counted t := by
  cases moved with
  | newPiber | scheduled | ignored | startRefused | stopRefused | stopCalled | stopMarked
  | rootLost | collected | joined | returned => exact counted
  | @started ids open_for quiet count fresh =>
    refine counted.quiet (fun v => ?_) rfl
    by_cases member : v ∈ ids
    · simp [member, (fresh v member).2, WorkerPc.busy]
    · simp [member]
  | rootResumed pc root ctx =>
    refine counted.same_worker rfl ?_ rfl
    rcases owned.caller (by simp [pc]) with out | left
    · simp [out, WorkerPc.busy]
    · simp [left, WorkerPc.busy]
  | rootReturned pc root done => exact counted.same_worker rfl rfl rfl
  | @took w before after pc it split fits first =>
    have set := (owned.tasks it (by simp [split])).1
    refine counted.one_worker rfl ?_
    rw [load_of_idle (s := s) (by simp [pc, WorkerPc.busy]), load_of_busy]
    · simp
    · simp [WorkerPc.busy, set]
  | settledPiber pc =>
    refine counted.one_worker rfl ?_
    rw [load_of_busy (s := s) (by simp [pc, WorkerPc.busy]), load_of_idle]
    · simp
      omega
    · simp [WorkerPc.busy]
  | settledCb pc =>
    refine counted.one_worker rfl ?_
    rw [load_of_busy (s := s) (by simp [pc, WorkerPc.busy]), load_of_idle]
    · simp
      omega
    · simp [WorkerPc.busy]
  | pickedPiber pc piber =>
    exact counted.same_worker rfl (by simp [pc, WorkerPc.busy, ScheduleTask.isSet, piber]) rfl
  | pickedCb pc piber cb spare =>
    exact counted.same_worker rfl (by simp [pc, WorkerPc.busy, ScheduleTask.isSet, cb]) rfl
  | recycledCb pc piber cb spare =>
    exact counted.same_worker rfl (by simp [pc, WorkerPc.busy, ScheduleTask.isSet, cb]) rfl
  | pickedIdle pc piber cb live =>
    exact counted.same_worker rfl (by simp [pc, WorkerPc.busy, ScheduleTask.isSet, piber, cb]) rfl
  | leave pc piber cb ended =>
    exact counted.same_worker rfl (by simp [pc, WorkerPc.busy, ScheduleTask.isSet, piber, cb]) rfl
  | tookNothing pc none_fits =>
    exact counted.same_worker rfl (by simp [pc, WorkerPc.busy, ScheduleTask.isSet]) rfl
  | entered pc | enteredRoot pc | marked pc | switched pc | threadLost pc | idleEnded pc
  | idleYielded pc | yielded pc | finished pc | termMarked pc | readyMarked pc | switchedOut pc
  | settledIdle pc =>
    exact counted.same_worker rfl (by simp [pc, WorkerPc.busy]) rfl

/-- A finished shutdown: nothing queued, nobody busy. -/
theorem quiet_of_stopping (counted : Counted s) (stopped : s.stopping = true) :
    s.m_stopping = true ∧ s.tasks = [] ∧ s.activeThreadCount = 0 ∧
      ∀ w, (s.workers w).pc.busy = false := by
  simp only [stopping, Bool.and_eq_true, List.isEmpty_iff, beq_iff_eq] at stopped
  obtain ⟨⟨flag, empty⟩, active⟩ := stopped
  refine ⟨flag, empty, active, fun w => ?_⟩
  unfold Counted at counted
  rw [active] at counted
  have none_busy := counted.eq_zero s.load_nonneg w
  by_contra busy
  rw [load_of_busy (by simpa using busy)] at none_busy
  omega

end Scheduler

/-- The idle fiber of the thread saw `stopping()` answer true and is on its way
out of its body, or the thread is out of `run`. -/
def WorkerPc.departing : WorkerPc → Bool
  | .ending .idle _ | .parting .idle _ true | .yielding .idle _ true | .left => true
  | _ => false

namespace Scheduler

variable {s t : Scheduler}

/-- Not a call of `schedule` by a thread outside the scheduler. -/
def FromInside (_ : Scheduler) : Action → Prop
  | .schedule none _ _ => False
  | _ => True

theorem stopping_move {a : Action} (counted : Counted s) (stopped : s.stopping = true)
    (inside : FromInside s a) (moved : Move s a t) :
    t.stopping = true ∧ t.taken = s.taken := by
  obtain ⟨flag, empty, active, free⟩ := quiet_of_stopping counted stopped
  cases moved with
  | @scheduled fc thread worker task same caller held set =>
    cases worker with
    | none => exact absurd inside id
    | some w =>
      obtain ⟨⟨branch, p⟩, found⟩ := caller w rfl
      obtain ⟨pc, task⟩ := insideTask_some found
      have busy := free w
      simp [pc, WorkerPc.busy, task] at busy
  | took pc it split => simp [empty] at split
  | @settledPiber w pc => simpa [pc, WorkerPc.busy] using free w
  | @settledCb w pc => simpa [pc, WorkerPc.busy] using free w
  | stopMarked pc => simp [stopping, empty, active]
  | _ => exact ⟨stopped, rfl⟩

/-- The worker has been answered that the scheduler is stopping. -/
def Told (s : Scheduler) (w : ThreadId) : Prop :=
  (s.workers w).pc.departing = true ∨
    (s.workers w).pc.running = true ∧ (s.pibers (s.workers w).idle_piber).state = .TERM

/-- The step in which an idle fiber asks `stopping()` and is told that it is. -/
def answered (s : Scheduler) : Action → Bool
  | .worker w =>
    match (s.workers w).pc with
    | .inside .idle _ => s.stopping
    | _ => false
  | _ => false

theorem stopping_of_answered {a : Action} (told : s.answered a = true) : s.stopping = true := by
  unfold answered at told
  split at told
  · split at told
    · exact told
    · cases told
  · cases told

/-- A thread outside the scheduler calls `schedule` only as long as no worker
has been answered that the scheduler is stopping. -/
def NothingAfterwards (s : Scheduler) : Action → Prop
  | .schedule none _ _ => ∀ w, ¬ s.Told w
  | _ => True

/-- An idle fiber ends only on the thread that was told. -/
private theorem told_of_term {a : Action} {v : ThreadId} (owned : Ownership s)
    (moved : Move s a t) (running : (s.workers v).pc.running = true)
    (term : (t.pibers (s.workers v).idle_piber).state = .TERM) : s.Told v := by
  obtain ⟨_, role⟩ := (owned.workers v).ownIdle running
  rcases term_move moved term with before | ⟨_, root, _⟩ | ⟨w, branch, _, pc⟩
  · exact .inr ⟨running, before⟩
  · have other := (owned.root _ root).2
    rw [role] at other
    cases other
  · have owns := owned.workers w
    simp only [Owns, pc] at owns
    obtain ⟨⟨_, idle_role⟩, _, idle, task⟩ := owns
    by_cases branch_idle : branch = .idle
    · rw [← idle branch_idle, role] at idle_role
      cases idle_role
      exact .inl (by simp [pc, branch_idle, WorkerPc.departing])
    · rw [(task branch_idle).2] at role
      cases role

private theorem told_one_worker {a : Action} {v w : ThreadId} {x : Worker}
    (owned : Ownership s) (moved : Move s a t) (told : t.Told v)
    (workers : t.workers = Function.update s.workers w x)
    (idle : x.idle_piber = (s.workers w).idle_piber)
    (running : (s.workers w).pc.running = true)
    (ending : x.pc.departing = true → s.Told w ∨ s.answered a = true) :
    s.Told v ∨ s.answered a = true := by
  unfold Told at told
  rw [workers] at told
  by_cases same : v = w
  · subst v
    rw [Function.update_self] at told
    rcases told with leaving | ⟨_, term⟩
    · exact ending leaving
    · rw [idle] at term
      exact .inl (told_of_term owned moved running term)
  · rw [Function.update_of_ne same] at told
    rcases told with leaving | ⟨inside, term⟩
    · exact .inl (.inl leaving)
    · exact .inl (told_of_term owned moved inside term)

private theorem told_no_worker {a : Action} {v : ThreadId} (owned : Ownership s)
    (moved : Move s a t) (told : t.Told v) (workers : t.workers v = s.workers v) :
    s.Told v ∨ s.answered a = true := by
  unfold Told at told
  rw [workers] at told
  rcases told with leaving | ⟨inside, term⟩
  · exact .inl (.inl leaving)
  · exact .inl (told_of_term owned moved inside term)

/-- A worker is told in no other way than by an answer to its idle fiber. -/
theorem told_move {a : Action} {v : ThreadId} (owned : Ownership s) (moved : Move s a t)
    (told : t.Told v) : s.Told v ∨ s.answered a = true := by
  have step := moved
  cases moved with
  | newPiber | scheduled | ignored | startRefused | stopRefused | stopCalled | stopMarked
  | rootLost | collected | joined | returned => exact told_no_worker owned step told rfl
  | @started ids open_for quiet count fresh =>
    by_cases member : v ∈ ids
    · simp [Told, member, WorkerPc.departing, WorkerPc.running] at told
    · exact told_no_worker owned step told (by simp [member])
  | rootResumed pc root ctx =>
    by_cases same : v = s.caller
    · subst v
      simp [Told, WorkerPc.departing, WorkerPc.running] at told
    · exact told_no_worker owned step told (by simp [Function.update_of_ne same])
  | rootReturned pc root done =>
    exact told_one_worker owned step told rfl rfl (by simp [done, WorkerPc.running])
      fun _ => .inl (.inl (by simp [done, WorkerPc.departing]))
  | @entered w pc apart =>
    by_cases same : v = w
    · subst v
      simp [Told, WorkerPc.departing, Piber.create] at told
    · exact told_no_worker owned step told (by simp [Function.update_of_ne same])
  | @enteredRoot w pc here =>
    by_cases same : v = w
    · subst v
      simp [Told, WorkerPc.departing, Piber.create] at told
    · exact told_no_worker owned step told (by simp [Function.update_of_ne same])
  | idleEnded pc stopped =>
    exact told_one_worker owned step told rfl rfl (by simp [pc, WorkerPc.running])
      fun _ => .inr (by simp [answered, pc, stopped])
  | @termMarked w branch p pc =>
    refine told_one_worker owned step told rfl rfl (by simp [pc, WorkerPc.running]) fun ending => ?_
    exact .inl (.inl (by cases branch <;> simp_all [WorkerPc.departing]))
  | @readyMarked w branch p ended pc =>
    refine told_one_worker owned step told rfl rfl (by simp [pc, WorkerPc.running]) fun ending => ?_
    exact .inl (.inl (by cases branch <;> cases ended <;> simp_all [WorkerPc.departing]))
  | @finished w branch p pc busy =>
    refine told_one_worker owned step told rfl rfl (by simp [pc, WorkerPc.running]) fun ending => ?_
    cases branch <;> simp_all [WorkerPc.departing]
  | leave pc piber cb ended =>
    exact told_one_worker owned step told rfl rfl (by simp [pc, WorkerPc.running])
      fun _ => .inl (.inr ⟨by simp [pc, WorkerPc.running], ended⟩)
  | took pc | tookNothing pc | pickedPiber pc | pickedCb pc | recycledCb pc | pickedIdle pc
  | marked pc | switched pc | threadLost pc | idleYielded pc | yielded pc
  | switchedOut pc | settledPiber pc | settledCb pc | settledIdle pc =>
    exact told_one_worker owned step told rfl rfl (by simp [pc, WorkerPc.running])
      (by simp [WorkerPc.departing])

/-- What holds along every run for the shutdown. -/
structure Settled (s : Scheduler) : Prop where
  owned : Ownership s
  counted : Counted s

theorem settled_initial (threads : UInt64) (use_caller : Bool) (caller : ThreadId) :
    Settled (initial threads use_caller caller) :=
  ⟨ownership_initial _ _ _, counted_initial _ _ _⟩

theorem settled_step {a : Action} (settled : Settled s) (stepped : step s a = some t) :
    Settled t :=
  ⟨ownership_step settled.owned stepped,
    counted_move settled.owned settled.counted (move_of_step stepped)⟩

theorem settled_run {allowed : Scheduler → Action → Prop} (settled : Settled s)
    (reached : Runs.Reaches step allowed s t) : Settled t :=
  reached.invariant Settled settled fun _ _ _ kept _ stepped => settled_step kept stepped

/-- A finished shutdown stays finished while only tasks schedule. -/
theorem stopping_run (settled : Settled s) (stopped : s.stopping = true)
    (reached : Runs.Reaches step FromInside s t) : t.stopping = true ∧ t.taken = s.taken := by
  suffices both : Settled t ∧ t.stopping = true ∧ t.taken = s.taken from both.2
  refine reached.invariant (fun u => Settled u ∧ u.stopping = true ∧ u.taken = s.taken)
    ⟨settled, stopped, rfl⟩ ?_
  rintro u a v ⟨kept, stopped', same⟩ inside stepped
  obtain ⟨still, untouched⟩ := stopping_move kept.counted stopped' inside (move_of_step stepped)
  exact ⟨settled_step kept stepped, still, untouched.trans same⟩

private theorem told_before_schedule {worker : Option ThreadId} {fc : FiberOrCb} {thread : ℤ}
    {w : ThreadId} (moved : Move s (.schedule worker fc thread) t) (told : t.Told w) :
    s.Told w := by
  cases moved with
  | scheduled => exact told
  | ignored => exact told

private theorem stopping_if_told {a : Action} {w : ThreadId} (settled : Settled s)
    (truthful : ∀ w, s.Told w → s.stopping = true) (later : NothingAfterwards s a)
    (moved : Move s a t) (told : t.Told w) : t.stopping = true := by
  have stopped : s.stopping = true :=
    (told_move settled.owned moved told).elim (truthful w) stopping_of_answered
  by_cases inside : FromInside s a
  · exact (stopping_move settled.counted stopped inside moved).1
  · cases a with
    | schedule worker fc thread =>
      cases worker with
      | none => exact absurd (told_before_schedule moved told) (later w)
      | some v => exact absurd trivial inside
    | _ => exact absurd trivial inside

/-- Whoever was told was told the truth, and it has stayed true. -/
theorem told_run {w : ThreadId} (settled : Settled s) (untold : ∀ w, ¬ s.Told w)
    (reached : Runs.Reaches step NothingAfterwards s t) (told : t.Told w) :
    t.stopping = true := by
  suffices both : Settled t ∧ ∀ w, t.Told w → t.stopping = true from both.2 w told
  refine reached.invariant (fun u => Settled u ∧ ∀ w, u.Told w → u.stopping = true)
    ⟨settled, fun w told => absurd told (untold w)⟩ ?_
  rintro u a v ⟨kept, truthful⟩ later stepped
  exact ⟨settled_step kept stepped, fun w told =>
    stopping_if_told kept truthful later (move_of_step stepped) told⟩

theorem untold_initial (threads : UInt64) (use_caller : Bool) (caller w : ThreadId) :
    ¬ (initial threads use_caller caller).Told w := by
  simp [Told, outside_initial, WorkerPc.departing, WorkerPc.running]

/-- **Shutdown is graceful.** When `stopping()` is true nothing is queued and no
worker is between a take and its decrement; this stays so until a thread
outside the scheduler schedules; and where none does once a worker has been
told, no worker leaves `run` while a task is queued or being run. -/
theorem shutdown_is_graceful (threads : UInt64) (use_caller : Bool) (caller : ThreadId) :
    (∀ s, Runs.Reachable step (initial threads use_caller caller) s → s.stopping = true →
      s.tasks = [] ∧ ∀ w, (s.workers w).pc.busy = false) ∧
    (∀ s t, Runs.Reachable step (initial threads use_caller caller) s → s.stopping = true →
      Runs.Reaches step FromInside s t → t.stopping = true ∧ t.taken = s.taken) ∧
    ∀ s w, Runs.Reaches step NothingAfterwards (initial threads use_caller caller) s →
      (s.workers w).pc = .left → s.tasks = [] ∧ ∀ v, (s.workers v).pc.busy = false := by
  have start := settled_initial threads use_caller caller
  refine ⟨fun s reached stopped => ?_, fun s t reached stopped later => ?_,
    fun s w reached left => ?_⟩
  · obtain ⟨_, empty, _, free⟩ := quiet_of_stopping (settled_run start reached).counted stopped
    exact ⟨empty, free⟩
  · exact stopping_run (settled_run start reached) stopped later
  · have told : s.Told w := .inl (by simp [left, WorkerPc.departing])
    have stopped := told_run start (untold_initial _ _ _) reached told
    obtain ⟨_, empty, _, free⟩ := quiet_of_stopping (settled_run start reached).counted stopped
    exact ⟨empty, free⟩

/-- One worker runs one callback, is told and leaves. -/
def oneCallback : List Action :=
  [.start [1], .schedule none (.cb (some 7)) (-1), .worker 1, .stop, .owner] ++
    List.replicate 4 (.worker 1) ++ [.finish 1] ++ List.replicate 15 (.worker 1)

theorem one_callback_leaves_nothing :
    ∃ s, Runs.run step (initial 1 false 0) oneCallback = some s ∧ s.taken.length = 1 ∧
      (s.workers 1).pc = .left ∧ s.tasks = [] ∧ ∀ v, (s.workers v).pc.busy = false := by
  have seen : (Runs.run step (initial 1 false 0) oneCallback).map
      (fun s => (s.taken.length, (s.workers 1).pc, s.stopping)) = some (1, .left, true) := by
    decide +kernel
  obtain ⟨s, replay, same⟩ := Option.map_eq_some_iff.mp seen
  simp only [Prod.mk.injEq] at same
  obtain ⟨taken, left, stopped⟩ := same
  exact ⟨s, replay, taken, left,
    (shutdown_is_graceful 1 false 0).1 s (Runs.reachable_of_run oneCallback replay) stopped⟩

end Scheduler
end Synergy
