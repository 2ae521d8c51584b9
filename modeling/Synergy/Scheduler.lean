import Mathlib.Data.UInt
import Mathlib.Logic.Function.Basic
import Synergy.Piber
import Synergy.Runs

/-! The scheduler of `synergy/Scheduler.h` and `synergy/Scheduler.cc`: a task
queue under one mutex and any number of threads inside `run`. One step is one
section under `m_mutex`, one access to a shared member outside it, or one
context switch, so the steps of different threads interleave as the lines of
`run`, `resume` and `yield` do. What a task does is left open: while its fiber
runs it may schedule, yield or return. -/
namespace Synergy

/-- A `std::function<void()>` handed to `schedule`. -/
abbrev CallbackId := ℕ

/-- `ScheduleTask`; the thread is `-1` for any thread. -/
structure ScheduleTask where
  piber : Option PiberId := none
  cb : Option CallbackId := none
  thread : ℤ := -1
  deriving DecidableEq, Repr

/-- The template argument of `schedule`, with null pointers and empty
functions. -/
inductive FiberOrCb where
  | piber (p : Option PiberId)
  | cb (f : Option CallbackId)
  deriving DecidableEq, Repr

namespace ScheduleTask

/-- `ScheduleTask::ScheduleTask(fc, thr)`. -/
def make (fc : FiberOrCb) (thr : ℤ) : ScheduleTask :=
  match fc with
  | .piber p => { piber := p, thread := thr }
  | .cb f => { cb := f, thread := thr }

/-- `task.piber || task.cb`. -/
def isSet (task : ScheduleTask) : Bool := task.piber.isSome || task.cb.isSome

end ScheduleTask

/-- A node of `m_tasks`, with its place among all tasks ever accepted. -/
structure Entry where
  task : ScheduleTask
  ticket : ℕ
  deriving DecidableEq, Repr

/-- The three places of `run` that call `resume`. -/
inductive Branch where
  | piber
  | cb
  | idle
  deriving DecidableEq, Repr

/-- Where a thread is inside `run`. From `resuming` to `yielding` it has a
fiber in hand; `ended` tells the last `yield` in `MainFunc` from one in the
body. A thread is `lost` when a `MainFunc` returned on it. -/
inductive WorkerPc where
  | outside
  | entering
  | scanning
  | picked (task : ScheduleTask)
  | resuming (branch : Branch) (p : PiberId)
  | switching (branch : Branch) (p : PiberId)
  | inside (branch : Branch) (p : PiberId)
  | ending (branch : Branch) (p : PiberId)
  | parting (branch : Branch) (p : PiberId) (ended : Bool)
  | yielding (branch : Branch) (p : PiberId) (ended : Bool)
  | resumed (branch : Branch)
  | left
  | lost (branch : Branch)
  deriving DecidableEq, Repr

/-- The locals of `run` and the thread-local pointers of `Piber.cc`. -/
structure Worker where
  pc : WorkerPc := .outside
  t_piber : PiberId := 0
  t_thread_piber : PiberId := 0
  idle_piber : PiberId := 0
  cb_piber : Option PiberId := none
  deriving DecidableEq, Repr

/-- Where the owning thread is inside `stop`. -/
inductive OwnerPc where
  | outside
  | marking
  | resumingRoot
  | inRoot
  | collecting
  | joining (thrs : List ThreadId)
  | lost
  deriving DecidableEq, Repr

/-- What a fiber was constructed for. -/
inductive Role where
  | main
  | root
  | task
  | idle (thread : ThreadId)
  deriving DecidableEq, Repr

/-- `Scheduler`, with all fibers and the threads inside `run`. The counters are
integers, so that a count below zero would show. `roles`, `accepted` and
`taken` are history. -/
structure Scheduler where
  tasks : List Entry := []
  threads : List ThreadId := []
  threadCount : UInt64
  activeThreadCount : ℤ := 0
  idleThreadCount : ℤ := 0
  rootPiber : Option PiberId := none
  rootThread : ℤ := -1
  m_stopping : Bool := false
  caller : ThreadId
  owner : OwnerPc := .outside
  workers : ThreadId → Worker := fun _ => {}
  pibers : PiberId → Piber := fun _ => .create
  created : PiberId := 0
  roles : PiberId → Role := fun _ => .main
  accepted : List ScheduleTask := []
  taken : List Entry := []

namespace Scheduler

@[simp] def setWorker (s : Scheduler) (w : ThreadId) (worker : Worker) : Scheduler :=
  { s with workers := Function.update s.workers w worker }

@[simp] def advance (s : Scheduler) (w : ThreadId) (pc : WorkerPc) : Scheduler :=
  s.setWorker w { s.workers w with pc }

@[simp] def setPiber (s : Scheduler) (p : PiberId) (piber : Piber) : Scheduler :=
  { s with pibers := Function.update s.pibers p piber }

/-- `new Piber`; the new fiber is `s.created`. -/
@[simp] def newPiber (s : Scheduler) (role : Role) (piber : Piber) : Scheduler :=
  { s with
    pibers := Function.update s.pibers s.created piber
    roles := Function.update s.roles s.created role
    created := s.created + 1 }

/-- `Scheduler::Scheduler(threads, use_caller, name)` on the thread `caller`. -/
def initial (threads : UInt64) (use_caller : Bool) (caller : ThreadId) : Scheduler :=
  if use_caller then
    -- `Piber::GetThis()` makes the main fiber of the thread, then comes the root.
    let s := (({ threadCount := threads - 1, caller } : Scheduler).newPiber .main
      .threadMain).newPiber .root .create
    { s.setWorker caller { t_piber := 0, t_thread_piber := 0 } with
      rootPiber := some 1, rootThread := caller }
  else { threadCount := threads, caller }

/-- `Scheduler::tickle`. -/
def tickle (s : Scheduler) : Scheduler := s

@[simp] theorem tickle_eq (s : Scheduler) : s.tickle = s := rfl

/-- `Scheduler::stopping`. -/
def stopping (s : Scheduler) : Bool :=
  s.m_stopping && s.tasks.isEmpty && s.activeThreadCount == 0

/-- `Scheduler::scheduleNoLock`, with `need_tickle`. -/
def scheduleNoLock (s : Scheduler) (fc : FiberOrCb) (thread : ℤ) : Scheduler × Bool :=
  let need_tickle := s.tasks.isEmpty
  let task := ScheduleTask.make fc thread
  if task.isSet then
    ({ s with
      tasks := s.tasks ++ [⟨task, s.accepted.length⟩]
      accepted := s.accepted ++ [task] }, need_tickle)
  else (s, need_tickle)

/-- `Scheduler::schedule`. -/
def schedule (s : Scheduler) (fc : FiberOrCb) (thread : ℤ) : Scheduler :=
  let (s, need_tickle) := s.scheduleNoLock fc thread
  if need_tickle then s.tickle else s

/-- `Scheduler::start`; the kernel names the new threads. -/
def start (s : Scheduler) (ids : List ThreadId) : Scheduler :=
  if s.m_stopping then s
  else
    { s with
      threads := ids
      workers := fun w => if w ∈ ids then { pc := .entering } else s.workers w }

/-- The prologue of `run`. -/
def enterRun (s : Scheduler) (w : ThreadId) : Scheduler :=
  if (w : ℤ) ≠ s.rootThread then
    -- `Piber::GetThis()` makes the main fiber of a fresh thread.
    ((s.newPiber .main .threadMain).newPiber (.idle w) .create).setWorker w
      { s.workers w with
        pc := .scanning, t_piber := s.created, t_thread_piber := s.created
        idle_piber := s.created + 1, cb_piber := none }
  else
    (s.newPiber (.idle w) .create).setWorker w
      { s.workers w with pc := .scanning, idle_piber := s.created, cb_piber := none }

/-- The loop of `run` over `m_tasks`: the entry taken, the entries left and
`tickle_me`. -/
def scan (runing : PiberId → Bool) (thread : ThreadId) :
    List Entry → Option Entry × List Entry × Bool
  | [] => (none, [], false)
  | it :: rest =>
    if it.task.thread ≠ -1 ∧ it.task.thread ≠ thread then
      let (task, left, _) := scan runing thread rest
      (task, it :: left, true)
    else if it.task.piber.any runing then
      let (task, left, tickle_me) := scan runing thread rest
      (task, it :: left, tickle_me)
    else (some it, rest, !rest.isEmpty)

/-- The test of `it->piber->getState() == Piber::RUNING`. -/
def runing (s : Scheduler) (p : PiberId) : Bool := (s.pibers p).state == .RUNING

/-- One pass of `run` over the queue, under `m_mutex`. -/
def runScan (s : Scheduler) (w : ThreadId) : Scheduler :=
  match scan s.runing w s.tasks with
  | (none, _, tickle_me) =>
    (if tickle_me then s.tickle else s).advance w (.picked {})
  | (some it, left, tickle_me) =>
    let s := { s with
      tasks := left, activeThreadCount := s.activeThreadCount + 1, taken := it :: s.taken }
    (if tickle_me then s.tickle else s).advance w (.picked it.task)

/-- The branches of `run` up to the call of `resume`. -/
def dispatch (s : Scheduler) (w : ThreadId) (task : ScheduleTask) : Scheduler :=
  match task.piber, task.cb with
  | some p, _ => s.advance w (.resuming .piber p)
  | none, some _ =>
    match (s.workers w).cb_piber with
    | some p => (s.setPiber p (s.pibers p).reset).advance w (.resuming .cb p)
    | none =>
      (s.newPiber .task .create).setWorker w
        { s.workers w with pc := .resuming .cb s.created, cb_piber := some s.created }
  | none, none =>
    let idle := (s.workers w).idle_piber
    if (s.pibers idle).state = .TERM then s.advance w .left
    else
      { s with idleThreadCount := s.idleThreadCount + 1 }.advance w (.resuming .idle idle)

/-- `Piber::resume` up to the context switch. -/
def resumeMark (s : Scheduler) (w : ThreadId) (branch : Branch) (p : PiberId) : Scheduler :=
  (s.setPiber p (s.pibers p).markRuning).setWorker w
    { s.workers w with pc := .switching branch p, t_piber := p }

/-- The context switch of `Piber::resume`. A finished fiber continues behind
the last `yield` of `MainFunc`, which returns with `uc_link == nullptr`. -/
def resumeSwitch (s : Scheduler) (w : ThreadId) (branch : Branch) (p : PiberId) : Scheduler :=
  match (s.pibers p).ctx with
  | .body => (s.setPiber p (s.pibers p).load).advance w (.inside branch p)
  | .ended => s.advance w (.lost branch)

/-- `Piber::yield` up to the context switch. -/
def yieldMark (s : Scheduler) (w : ThreadId) (branch : Branch) (p : PiberId) (ended : Bool) :
    Scheduler :=
  (s.setPiber p (s.pibers p).markReady).setWorker w
    { s.workers w with
      pc := .yielding branch p ended, t_piber := (s.workers w).t_thread_piber }

/-- The context switch of `Piber::yield`. -/
def yieldSwitch (s : Scheduler) (w : ThreadId) (branch : Branch) (p : PiberId) (ended : Bool) :
    Scheduler :=
  (s.setPiber p ((s.pibers p).save (if ended then .ended else .body))).advance w
    (.resumed branch)

/-- The rest of a branch of `run`, behind `resume`. -/
def settle (s : Scheduler) (w : ThreadId) : Branch → Scheduler
  | .piber => { s with activeThreadCount := s.activeThreadCount - 1 }.advance w .scanning
  | .cb =>
    { s with activeThreadCount := s.activeThreadCount - 1 }.setWorker w
      { s.workers w with pc := .scanning, cb_piber := none }
  | .idle => { s with idleThreadCount := s.idleThreadCount - 1 }.advance w .scanning

/-- The next line of `run` on the thread `w`, or of the fiber it runs where
that is the library's own: `idle`, `MainFunc`, `resume` and `yield`. -/
def workerStep (s : Scheduler) (w : ThreadId) : Option Scheduler :=
  match (s.workers w).pc with
  | .entering => some (s.enterRun w)
  | .scanning => some (s.runScan w)
  | .picked task => some (s.dispatch w task)
  | .resuming branch p => some (s.resumeMark w branch p)
  | .switching branch p => some (s.resumeSwitch w branch p)
  | .inside .idle p =>
    -- `idle`: the loop condition, then `Piber::GetThis()->yield()` or the end of the body.
    if s.stopping then some (s.advance w (.ending .idle p))
    else some (s.advance w (.parting .idle (s.workers w).t_piber false))
  | .ending branch p =>
    some ((s.setPiber p (s.pibers p).markTerm).advance w (.parting branch p true))
  | .parting branch p ended => some (s.yieldMark w branch p ended)
  | .yielding branch p ended => some (s.yieldSwitch w branch p ended)
  | .resumed branch => some (s.settle w branch)
  | _ => none

/-- The next line of `stop` on the owning thread. Only this thread touches the
root fiber, so its switches are one step each with the marks beside them. -/
def ownerStep (s : Scheduler) : Option Scheduler :=
  match s.owner with
  | .marking =>
    some { s with
      m_stopping := true
      owner := if s.rootPiber.isSome then .resumingRoot else .collecting }
  | .resumingRoot =>
    match s.rootPiber with
    | none => none
    | some r =>
      let marked := s.setPiber r (s.pibers r).markRuning
      match (s.pibers r).ctx with
      | .body =>
        some { (marked.setPiber r (marked.pibers r).load).setWorker s.caller
          { s.workers s.caller with pc := .entering, t_piber := r } with owner := .inRoot }
      | .ended => some { marked with owner := .lost }
  | .inRoot =>
    match s.rootPiber with
    | none => none
    | some r =>
      -- `MainFunc` of the root: TERM, then the `yield` to the caller's main fiber.
      if (s.workers s.caller).pc = .left then
        some { (s.setPiber r ((s.pibers r).markTerm.markReady.save .ended)).setWorker s.caller
          { s.workers s.caller with t_piber := (s.workers s.caller).t_thread_piber } with
          owner := .collecting }
      else none
  | .collecting => some { s with owner := .joining s.threads, threads := [] }
  | .joining [] => some { s with owner := .outside }
  | .joining (thr :: thrs) =>
    match (s.workers thr).pc with
    | .left | .lost _ => some { s with owner := .joining thrs }
    | _ => none
  | _ => none

/-- A fiber that user code can hold: one it made, or the one of a callback. -/
def userPiber (s : Scheduler) : FiberOrCb → Bool
  | .piber (some p) => p < s.created && s.roles p == .task
  | _ => true

/-- The task that the thread runs at the moment, in its own code. -/
def insideTask (s : Scheduler) (w : ThreadId) : Option (Branch × PiberId) :=
  match (s.workers w).pc with
  | .inside .idle _ => none
  | .inside branch p => some (branch, p)
  | _ => none

/-- The steps. `schedule` names the worker whose task calls it, or no one for a
thread outside the scheduler; `yield` and `finish` are the two ways in which a
task gives up its thread. -/
inductive Action where
  | newPiber
  | schedule (worker : Option ThreadId) (fc : FiberOrCb) (thread : ℤ)
  | start (ids : List ThreadId)
  | stop
  | owner
  | worker (w : ThreadId)
  | yield (w : ThreadId)
  | finish (w : ThreadId)
  deriving DecidableEq, Repr

def step (s : Scheduler) : Action → Option Scheduler
  | .newPiber => some (s.newPiber .task .create)
  | .schedule worker fc thread =>
    if worker.all (fun w => (s.insideTask w).isSome) ∧ s.userPiber fc then
      some (s.schedule fc thread)
    else none
  | .start ids =>
    if s.owner = .outside ∧ ids.length = s.threadCount.toNat ∧ ids.Nodup ∧
        ∀ id ∈ ids, id ≠ s.caller ∧ (s.workers id).pc = .outside then
      some (s.start ids)
    else none
  | .stop =>
    if s.owner = .outside then
      if s.stopping then some s else some { s with owner := .marking }
    else none
  | .owner => s.ownerStep
  | .worker w => s.workerStep w
  | .yield w =>
    match s.insideTask w with
    | some (branch, _) => some (s.advance w (.parting branch (s.workers w).t_piber false))
    | none => none
  | .finish w =>
    match s.insideTask w with
    | some (branch, p) => some (s.advance w (.ending branch p))
    | none => none

end Scheduler
end Synergy
