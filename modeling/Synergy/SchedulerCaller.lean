import Mathlib.Computability.StateTransition
import Synergy.PiberContext
import Synergy.SchedulerMoves

/-! A scheduler on its caller's thread alone, `Scheduler(1, true)`. `stop`
switches to the root fiber, whose `run` resumes the tasks and at last its idle
fiber, and each of them switches back. One step is one line of the fiber in
execution; what user code does up to its next yield, or its end, is a
parameter. `tickle` is empty in this class. -/
namespace Synergy.CallerMode

/-- A call of `schedule` with a function, or with a new fiber for it, pinned to
the caller's thread or not. -/
structure Task where
  asPiber : Bool
  f : CallbackId
  pinned : Bool
  deriving DecidableEq, Repr

/-- A call of `schedule` with the current fiber; further calls follow, and then
its yield, behind which it goes on at `next`. -/
structure Again (Local : Type) where
  pinned : Bool
  behind : List Task
  next : Local

/-- What a segment asks of the scheduler, in this order. Where the current fiber
is not scheduled again, the function returns. -/
structure Segment (Local : Type) where
  tasks : List Task
  again : Option (Again Local)

/-- User code: where a function starts, and what a segment does. -/
structure Code (Local Mem : Type) where
  start : CallbackId → Local
  segment : Local → Mem → Mem × Segment Local

/-- What `m_cb` holds. -/
inductive EntryFunction where
  | run
  | idle
  | user (f : CallbackId)
  deriving DecidableEq, Repr

/-- The local of `MainFunc` and those of `run` on top of it. -/
structure RunFrame where
  cur : PiberId
  idle_piber : PiberId
  cb_piber : Option PiberId := none
  deriving DecidableEq, Repr

/-- The points of the program: in the caller before and inside `stop`, in
`MainFunc`, in `run`, in `idle`, and in user code. -/
inductive Place (Local : Type) where
  | scheduling (todo : List Task)
  | stopping
  | stopped
  | entry
  | run (cur : PiberId)
  | scanning (frame : RunFrame)
  | picked (frame : RunFrame) (task : ScheduleTask)
  | resumedTask (frame : RunFrame)
  | resumedCb (frame : RunFrame)
  | resumedIdle (frame : RunFrame)
  | idling (cur : PiberId)
  | body (cur : PiberId) (here : Local)
  | parting (cur : PiberId) (next : Local)
  | ending (cur : PiberId)
  | ended

/-- The scheduler and its thread, with the memory of the user code. `log` is
history: the segments run so far. -/
structure State (Local Mem : Type) where
  thread : PiberThread EntryFunction (Place Local)
  caller : ThreadId
  rootPiber : Option PiberId
  tasks : List Entry := []
  ticket : ℕ := 0
  m_stopping : Bool := false
  activeThreadCount : ℤ := 0
  idleThreadCount : ℤ := 0
  mem : Mem
  log : List Local := []

variable {Local Mem : Type}

/-- `Scheduler::Scheduler(1, true)`, on a thread that goes on to schedule these
tasks and to stop. -/
def initial (caller : ThreadId) (todo : List Task) (mem : Mem) : State Local Mem :=
  let thread := (PiberThread.blank (.scheduling todo)).getThis.1
  let rootPiber := some thread.created
  { thread := { thread.create .entry (some .run) false with t_scheduler_piber := rootPiber }
    caller, rootPiber, mem }

namespace State

@[simp] def goto (s : State Local Mem) (point : Place Local) : State Local Mem :=
  { s with thread := s.thread.goto point }

/-- A context switch of the thread, if there is one. -/
def switch (s : State Local Mem) (thread : Option (PiberThread EntryFunction (Place Local))) :
    Option (State Local Mem) :=
  thread.map fun thread => { s with thread }

/-- `Scheduler::stopping`. -/
def stopping (s : State Local Mem) : Bool :=
  s.m_stopping && s.tasks.isEmpty && s.activeThreadCount == 0

/-- `Scheduler::schedule`. -/
def schedule (s : State Local Mem) (fc : FiberOrCb) (pinned : Bool) : State Local Mem :=
  let task := ScheduleTask.make fc (if pinned then s.caller else -1)
  if task.isSet then { s with tasks := s.tasks ++ [⟨task, s.ticket⟩], ticket := s.ticket + 1 }
  else s

/-- `schedule(f)`, or `schedule(Piber::ptr(new Piber(f)))`. The fiber has the
default `run_in_scheduler = true`; with `false` it would take no part in
scheduling, as `Piber.h` puts it. -/
def add (s : State Local Mem) (task : Task) : State Local Mem :=
  if task.asPiber then
    { s with thread := s.thread.create .entry (some (.user task.f)) true }.schedule
      (.piber (some s.thread.created)) task.pinned
  else s.schedule (.cb (some task.f)) task.pinned

end State

/-- The next line of the fiber in execution. -/
def step (code : Code Local Mem) (s : State Local Mem) : Option (State Local Mem) :=
  match s.thread.running.point with
  | .scheduling [] => some (s.goto .stopping)
  | .scheduling (task :: todo) => some ((s.add task).goto (.scheduling todo))
  | .stopping =>
    if s.stopping then some (s.goto .stopped)
    else
      let s := { s with m_stopping := true }
      -- with `m_threads` empty, `stop` joins nothing behind the root
      match s.rootPiber with
      | some root => s.switch (s.thread.resume root .stopped)
      | none => some (s.goto .stopped)
  | .stopped => none
  | .entry =>
    let (thread, cur) := s.thread.getThis
    let s := { s with thread }
    match (thread.pibers cur).cb with
    | none => none
    | some .run => some (s.goto (.run cur))
    | some .idle => some (s.goto (.idling cur))
    | some (.user f) => some (s.goto (.body cur (code.start f)))
  | .run cur =>
    let idle_piber := s.thread.created
    some ({ s with thread := s.thread.create .entry (some .idle) true }.goto
      (.scanning { cur, idle_piber }))
  | .scanning frame =>
    let runing := fun p => decide ((s.thread.pibers p).state = .RUNING)
    match Scheduler.scan runing s.caller s.tasks with
    | (some it, left, _) =>
      some ({ s with tasks := left, activeThreadCount := s.activeThreadCount + 1 }.goto
        (.picked frame it.task))
    | (none, _, _) => some (s.goto (.picked frame {}))
  | .picked frame task =>
    match task.piber, task.cb with
    | some p, _ => s.switch (s.thread.resume p (.resumedTask frame))
    | none, some f =>
      match frame.cb_piber with
      | some p =>
        s.switch ((s.thread.reset .entry p (some (.user f))).resume p (.resumedCb frame))
      | none =>
        let p := s.thread.created
        s.switch ((s.thread.create .entry (some (.user f)) true).resume p
          (.resumedCb { frame with cb_piber := some p }))
    | none, none =>
      if (s.thread.pibers frame.idle_piber).state = .TERM then some (s.goto (.ending frame.cur))
      else
        { s with idleThreadCount := s.idleThreadCount + 1 }.switch
          (s.thread.resume frame.idle_piber (.resumedIdle frame))
  | .resumedTask frame =>
    some ({ s with activeThreadCount := s.activeThreadCount - 1 }.goto (.scanning frame))
  | .resumedCb frame =>
    some ({ s with activeThreadCount := s.activeThreadCount - 1 }.goto
      (.scanning { frame with cb_piber := none }))
  | .resumedIdle frame =>
    some ({ s with idleThreadCount := s.idleThreadCount - 1 }.goto (.scanning frame))
  | .idling cur =>
    if s.stopping then some (s.goto (.ending cur))
    else
      let (thread, this) := s.thread.getThis
      s.switch (thread.yield this (.idling cur))
  | .body cur here =>
    let (mem, segment) := code.segment here s.mem
    let s := segment.tasks.foldl State.add { s with mem, log := s.log ++ [here] }
    match segment.again with
    | none => some (s.goto (.ending cur))
    | some again =>
      let (thread, this) := s.thread.getThis
      let s := { s with thread }.schedule (.piber (some this)) again.pinned
      some ((again.behind.foldl State.add s).goto (.parting cur again.next))
  | .parting cur next =>
    let (thread, this) := s.thread.getThis
    s.switch (thread.yield this (.body cur next))
  | .ending cur => s.switch (s.thread.finish cur .ended)
  | .ended => none

/-- What a segment appends to the queue. -/
def Code.appended (code : Code Local Mem) (segment : Segment Local) : List Local :=
  segment.tasks.map (fun task => code.start task.f) ++
    match segment.again with
    | none => []
    | some again => again.next :: again.behind.map fun task => code.start task.f

/-- The plain work queue: it pops the head, runs it to its next yield or its
end, and appends what that scheduled. The derivation is finite, and `log` are
the segments in the order in which they ran. -/
inductive Drains (code : Code Local Mem) : List Local → Mem → List Local → Mem → Prop where
  | empty : Drains code [] mem [] mem
  | pop {segment : Segment Local} (ran : code.segment here mem = (next, segment))
      (rest : Drains code (queue ++ code.appended segment) next log last) :
      Drains code (here :: queue) mem (here :: log) last

end Synergy.CallerMode
