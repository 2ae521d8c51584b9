import Synergy.SchedulerOwnership

/-! Whether `stop` waits for every thread that `start` made. It joins what
`m_threads` holds when it comes to that, so each thread inside `run` has to be
in `m_threads` until then, and in the list being joined from then on. -/
namespace Synergy

/-- Between the entry of `run` and its return. -/
def WorkerPc.inRun : WorkerPc → Bool
  | .outside | .left | .lost _ => false
  | _ => true

namespace Scheduler

/-- A call of `start` that makes threads finds none that `stop` has still to
join: it drops the `Thread` objects that `m_threads` holds. -/
def StartsAfresh (s : Scheduler) : Action → Prop
  | .start _ => s.m_stopping = true ∨ s.threads = []
  | _ => True

instance (s : Scheduler) : (a : Action) → Decidable (StartsAfresh s a)
  | .start _ => inferInstanceAs (Decidable (_ ∨ _))
  | .newPiber | .schedule .. | .stop | .owner | .worker _ | .yield _ | .finish _ =>
    .isTrue trivial

/-- The steps with which a call of `stop` returns: at once, or behind the last
join. -/
def StopReturns (s : Scheduler) : Action → Prop
  | .stop => s.stopping = true
  | .owner => s.owner = .joining []
  | _ => False

/-- Every thread inside `run` will be joined. -/
structure Joinable (s : Scheduler) : Prop where
  covered : ∀ v, v ≠ s.caller → (s.workers v).pc.inRun = true →
    v ∈ s.threads ∨ ∃ thrs, s.owner = .joining thrs ∧ v ∈ thrs
  moved : ∀ thrs, s.owner = .joining thrs → s.threads = []
  stopped : s.m_stopping = true → s.owner = .outside → s.threads = []

variable {s t : Scheduler}

theorem joinable_initial (threads : UInt64) (use_caller : Bool) (caller : ThreadId) :
    Joinable (initial threads use_caller caller) where
  covered v _ inside := by simp [outside_initial, WorkerPc.inRun] at inside
  moved thrs joining := by simp [owner_initial] at joining
  stopped flag := by
    unfold initial at flag
    split at flag <;> cases flag

/-- A step that brings no thread into `run` and leaves `stop` where it is. -/
private theorem Joinable.keep (joinable : Joinable s) (threads : t.threads = s.threads)
    (owner : t.owner = s.owner) (caller : t.caller = s.caller)
    (flag : t.m_stopping = s.m_stopping)
    (inside : ∀ v, v ≠ s.caller → (t.workers v).pc.inRun = true →
      (s.workers v).pc.inRun = true) : Joinable t where
  covered v apart running := by
    rw [caller] at apart
    rw [threads, owner]
    exact joinable.covered v apart (inside v apart running)
  moved := by
    rw [threads, owner]
    exact joinable.moved
  stopped := by
    rw [threads, owner, flag]
    exact joinable.stopped

private theorem inRun_of_update {v w : ThreadId} {x : Worker}
    (at_work : (s.workers w).pc.inRun = true)
    (running : (Function.update s.workers w x v).pc.inRun = true) :
    (s.workers v).pc.inRun = true := by
  by_cases same : v = w
  · rwa [same]
  · rwa [Function.update_of_ne same] at running

/-- The owning thread is no worker of its own. -/
private theorem inRun_of_caller {v : ThreadId} {x : Worker} (apart : v ≠ s.caller)
    (running : (Function.update s.workers s.caller x v).pc.inRun = true) :
    (s.workers v).pc.inRun = true := by
  rwa [Function.update_of_ne apart] at running

/-- `stop` goes on to a place before the joins. -/
private theorem Joinable.approach (joinable : Joinable s) {owner : OwnerPc}
    (before : ∀ thrs, s.owner ≠ .joining thrs) (later : ∀ thrs, owner ≠ .joining thrs)
    (away : owner ≠ .outside) (here : t.owner = owner) (threads : t.threads = s.threads)
    (caller : t.caller = s.caller)
    (inside : ∀ v, v ≠ s.caller → (t.workers v).pc.inRun = true →
      (s.workers v).pc.inRun = true) : Joinable t where
  covered v apart running := by
    rw [caller] at apart
    rw [threads]
    rcases joinable.covered v apart (inside v apart running) with held | ⟨thrs, joining, _⟩
    · exact .inl held
    · exact absurd joining (before thrs)
  moved thrs joining := absurd (here.symm.trans joining) (later thrs)
  stopped _ outside := absurd (here.symm.trans outside) away

theorem joinable_move {a : Action} (joinable : Joinable s) (afresh : StartsAfresh s a)
    (moved : Move s a t) : Joinable t := by
  cases moved with
  | newPiber | scheduled | ignored | startRefused | stopRefused =>
    exact joinable.keep rfl rfl rfl rfl fun _ _ => id
  | @started ids open_for quiet count fresh =>
    have empty : s.threads = [] := afresh.resolve_left (by simp [open_for])
    constructor
    case covered =>
      intro v apart running
      by_cases member : v ∈ ids
      · exact .inl member
      · simp only [member, if_false] at running
        rcases joinable.covered v apart running with held | ⟨thrs, joining, _⟩
        · simp [empty] at held
        · simp [quiet] at joining
    case moved =>
      intro thrs joining
      simp [quiet] at joining
    case stopped =>
      intro flag
      simp [open_for] at flag
  | stopCalled quiet live =>
    exact joinable.approach (by simp [quiet]) (by simp) (by simp) rfl rfl rfl fun _ _ => id
  | stopMarked pc =>
    refine joinable.approach (by simp [pc]) ?_ ?_ rfl rfl rfl fun _ _ => id
    · intro thrs
      split <;> simp
    · split <;> simp
  | rootResumed pc root ctx =>
    exact joinable.approach (by simp [pc]) (by simp) (by simp) rfl rfl rfl
      fun _ => inRun_of_caller
  | rootLost pc root ctx =>
    exact joinable.approach (by simp [pc]) (by simp) (by simp) rfl rfl rfl fun _ _ => id
  | rootReturned pc root done =>
    exact joinable.approach (by simp [pc]) (by simp) (by simp) rfl rfl rfl
      fun _ => inRun_of_caller
  | collected pc =>
    constructor
    case covered =>
      intro v apart running
      rcases joinable.covered v apart running with held | ⟨thrs, joining, _⟩
      · exact .inr ⟨s.threads, rfl, held⟩
      · simp [pc] at joining
    case moved => exact fun _ _ => rfl
    case stopped => exact fun _ _ => rfl
  | @joined thr thrs pc done =>
    constructor
    case covered =>
      intro v apart running
      rcases joinable.covered v apart running with held | ⟨all, joining, member⟩
      · exact .inl held
      · cases pc.symm.trans joining
        rcases List.mem_cons.mp member with rfl | later
        · rcases done with left | ⟨branch, lost⟩ <;> simp [WorkerPc.inRun, *] at running
        · exact .inr ⟨thrs, rfl, later⟩
    case moved => exact fun _ _ => joinable.moved _ pc
    case stopped => exact fun _ _ => joinable.moved _ pc
  | returned pc =>
    constructor
    case covered =>
      intro v apart running
      rcases joinable.covered v apart running with held | ⟨all, joining, member⟩
      · exact .inl held
      · cases pc.symm.trans joining
        cases member
    case moved => exact fun _ _ => joinable.moved _ pc
    case stopped => exact fun _ _ => joinable.moved _ pc
  | _ =>
    exact joinable.keep rfl rfl rfl rfl fun _ _ =>
      inRun_of_update (by simp [WorkerPc.inRun, *])

/-- Where `stop` returns there is nothing left to join. -/
theorem Joinable.nothing_left (joinable : Joinable s) {a : Action} (returns : s.StopReturns a)
    (stepped : step s a = some t) :
    t.caller = s.caller ∧ t.threads = [] ∧ ∀ thrs, t.owner = .joining thrs → thrs = [] := by
  cases a with
  | stop =>
    have flag : s.m_stopping = true := by
      have stopped : s.stopping = true := returns
      simp only [stopping, Bool.and_eq_true] at stopped
      exact stopped.1.1
    have answered : s.stopping = true := returns
    by_cases quiet : s.owner = .outside
    · simp only [step, quiet, answered, if_true, Option.some.injEq] at stepped
      subst stepped
      exact ⟨rfl, joinable.stopped flag quiet, by simp [quiet]⟩
    · simp [step, quiet] at stepped
  | owner =>
    have pc : s.owner = .joining [] := returns
    simp only [step, ownerStep, pc, Option.some.injEq] at stepped
    subst stepped
    exact ⟨rfl, joinable.moved _ pc, by simp⟩
  | _ => cases returns

theorem joinable_run {threads : UInt64} {use_caller : Bool} {caller : ThreadId}
    (reached : Runs.Reaches step StartsAfresh (initial threads use_caller caller) s) :
    Joinable s :=
  reached.invariant Joinable (joinable_initial threads use_caller caller)
    fun _ _ _ joinable afresh stepped => joinable_move joinable afresh (move_of_step stepped)

/-- **`stop` really stops**, in every run whose calls of `start` find no thread
left to join: when it returns, no thread but the caller's is inside `run`. -/
theorem stop_leaves_no_thread_in_run (threads : UInt64) (use_caller : Bool) (caller : ThreadId)
    (reached : Runs.Reaches step StartsAfresh (initial threads use_caller caller) s)
    (returns : s.StopReturns a) (stepped : step s a = some t) :
    ∀ w, w ≠ t.caller → (t.workers w).pc.inRun = false := by
  have joinable := joinable_run reached
  have afresh : StartsAfresh s a := by
    cases a with
    | start => cases returns
    | _ => trivial
  have after := joinable_move joinable afresh (move_of_step stepped)
  obtain ⟨_, empty, joined⟩ := joinable.nothing_left returns stepped
  intro w apart
  apply Bool.eq_false_iff.mpr
  intro running
  rcases after.covered w apart running with held | ⟨thrs, joining, member⟩
  · simp [empty] at held
  · simp [joined thrs joining] at member

/-- One worker is started, told to stop, leaves and is joined. -/
def startedOnce : List Action :=
  [.start [1], .stop, .owner, .owner] ++ List.replicate 12 (.worker 1) ++ [.owner]

theorem started_once_stops :
    ∃ s t, Runs.run step (initial 1 false 0) startedOnce = some s ∧ step s .owner = some t ∧
      (s.workers 1).pc = .left ∧ ∀ w, w ≠ t.caller → (t.workers w).pc.inRun = false := by
  have seen : (Runs.run step (initial 1 false 0) startedOnce).map
      (fun s => ((s.workers 1).pc, s.owner)) = some (.left, .joining []) := by
    decide +kernel
  have admitted : Runs.AllSteps step StartsAfresh (initial 1 false 0) startedOnce := by
    decide +kernel
  obtain ⟨s, replay, same⟩ := Option.map_eq_some_iff.mp seen
  simp only [Prod.mk.injEq] at same
  have stepped : step s .owner = some { s with owner := .outside } := by
    simp [step, ownerStep, same.2]
  have returns : s.StopReturns .owner := same.2
  exact ⟨s, _, replay, stepped, same.1, stop_leaves_no_thread_in_run 1 false 0
    (Runs.reaches_of_run startedOnce replay admitted) returns stepped⟩

/-- `start` is called twice before `stop`, and the first worker never gets to
run meanwhile. -/
def startedTwice : List Action :=
  [.start [1], .start [2], .stop, .owner, .owner] ++ List.replicate 12 (.worker 2) ++ [.owner]

/-- `stop` returns, and the first worker has yet to enter the loop of `run`. -/
theorem started_twice_leaves_one_in_run :
    ∃ s t, Runs.run step (initial 1 false 0) startedTwice = some s ∧ s.StopReturns .owner ∧
      step s .owner = some t ∧ 1 ≠ t.caller ∧ (t.workers 1).pc = .entering ∧
      (t.workers 1).pc.inRun = true := by
  have seen : (Runs.run step (initial 1 false 0) startedTwice).map
      (fun s => ((s.workers 1).pc, s.owner, s.caller)) = some (.entering, .joining [], 0) := by
    decide +kernel
  obtain ⟨s, replay, same⟩ := Option.map_eq_some_iff.mp seen
  simp only [Prod.mk.injEq] at same
  obtain ⟨entering, joining, caller⟩ := same
  refine ⟨s, { s with owner := .outside }, replay, joining, ?_, ?_, entering, ?_⟩
  · simp [step, ownerStep, joining]
  · simp [caller]
  · simp [entering, WorkerPc.inRun]

end Scheduler
end Synergy
