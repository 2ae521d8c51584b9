import Mathlib.Logic.Function.Basic
import Synergy.Runs
import Synergy.Scheduler

/-! The event registry of `synergy/iomanager.h` and `synergy/iomanager.cc`. Any
number of threads call it; each fd has a mutex of its own and the count of
pending events is shared by all. Locking, the test behind it and `epoll_ctl`
are one step, since only the holder reads or writes the fd until then; from
there every statement of a locked section is a step. -/
namespace Synergy

/-- A set of events, as `FdContext::events` and `epoll_event::events` hold it. -/
abbrev EventMask := BitVec 32

/-- `Event`; its `NONE` is the empty mask. -/
inductive Event where
  | READ
  | WRITE
  deriving DecidableEq, Repr

def Event.bits : Event → EventMask
  | .READ => 0x1
  | .WRITE => 0x4

/-- `events & event`, as a condition. -/
def Event.isIn (event : Event) (events : EventMask) : Bool := events &&& event.bits != 0

namespace Epoll

def EPOLLIN : EventMask := 0x1
def EPOLLOUT : EventMask := 0x4
def EPOLLERR : EventMask := 0x8
def EPOLLHUP : EventMask := 0x10
def EPOLLET : EventMask := 0x80000000

/-- The operations of `epoll_ctl`. -/
inductive Op where
  | ADD
  | MOD
  | DEL
  deriving DecidableEq, Repr

/-- The interest masks that the kernel keeps, by fd. -/
abbrev Interest := ℕ → Option EventMask

/-- `epoll_ctl` where it succeeds; the kernel refuses to add an fd twice and to
change or remove one that is not there. -/
def ctl (interest : Interest) (op : Op) (fd : ℕ) (mask : EventMask) : Option Interest :=
  match op, interest fd with
  | .ADD, none => some (Function.update interest fd (some mask))
  | .MOD, some _ => some (Function.update interest fd (some mask))
  | .DEL, some _ => some (Function.update interest fd none)
  | _, _ => none

end Epoll

/-- A scheduler, as `Scheduler::GetThis()` names it. -/
abbrev SchedulerId := ℕ

/-- `FdContext::EventContext`. -/
structure EventContext where
  scheduler : Option SchedulerId := none
  piber : Option PiberId := none
  cb : Option CallbackId := none
  deriving DecidableEq, Repr

/-- The statements behind `epoll_ctl` in the locked sections. -/
inductive Micro where
  | increment
  | decrement
  | setEvents (events : EventMask)
  | assign (event : Event) (ctx : EventContext)
  | resetContext (event : Event)
  | trigger (event : Event)
  | triggerIfSet (event : Event)
  deriving DecidableEq, Repr

/-- The holder of an fd mutex and what it has yet to do under it. -/
structure Held where
  thread : ThreadId
  rest : List Micro
  deriving DecidableEq, Repr

/-- `FdContext`. -/
structure FdContext where
  read : EventContext := {}
  write : EventContext := {}
  fd : ℕ := 0
  events : EventMask := 0
  mutex : Option Held := none
  deriving DecidableEq, Repr

/-- The two members that `getEventContext` can refer to. -/
inductive Slot where
  | read
  | write
  deriving DecidableEq, Repr

/-- `m_fdContexts`. -/
structure FdTable where
  size : ℕ := 0
  slot : ℕ → FdContext := fun _ => {}

/-- A callback or fiber given to a scheduler. -/
structure Handover where
  scheduler : Option SchedulerId
  task : FiberOrCb
  deriving DecidableEq, Repr

/-- What a context hands over: its callback or else its fiber. -/
def EventContext.handover (ctx : EventContext) : Handover :=
  ⟨ctx.scheduler, if ctx.cb.isSome then .cb ctx.cb else .piber ctx.piber⟩

namespace FdContext

def get (c : FdContext) : Slot → EventContext
  | .read => c.read
  | .write => c.write

def set (c : FdContext) (slot : Slot) (ctx : EventContext) : FdContext :=
  match slot with
  | .read => { c with read := ctx }
  | .write => { c with write := ctx }

end FdContext

/-- What the code calls and does not define. -/
structure Undefined where
  getEventContext : Event → Slot
  resetEventContext : EventContext → EventContext
  triggerEvent : FdContext → Event → FdContext × Option Handover
  contextResize : FdTable → ℕ → FdTable

/-- What the code relies on in them. -/
structure Undefined.Lawful (u : Undefined) : Prop where
  read : u.getEventContext .READ = .read
  write : u.getEventContext .WRITE = .write
  reset : ∀ ctx, u.resetEventContext ctx = {}
  trigger_events : ∀ c event, (u.triggerEvent c event).1.events = c.events &&& ~~~event.bits
  trigger_fd : ∀ c event, (u.triggerEvent c event).1.fd = c.fd
  trigger_empties : ∀ c event, (u.triggerEvent c event).1.get (u.getEventContext event) = {}
  trigger_spares : ∀ c event other, other ≠ event →
    (u.triggerEvent c event).1.get (u.getEventContext other) = c.get (u.getEventContext other)
  trigger_hands : ∀ c event, (u.triggerEvent c event).2 =
    some (c.get (u.getEventContext event)).handover
  resize_size : ∀ table n, (u.contextResize table n).size = max table.size n
  resize_old : ∀ table n, ∀ i < table.size, (u.contextResize table n).slot i = table.slot i
  resize_new : ∀ table n i, table.size ≤ i → i < n → (u.contextResize table n).slot i = { fd := i }

/-- The least that meets it, to replay schedules with. -/
def Undefined.least : Undefined where
  getEventContext
    | .READ => .read
    | .WRITE => .write
  resetEventContext _ := {}
  triggerEvent c event :=
    match event with
    | .READ => ({ c with events := c.events &&& ~~~event.bits, read := {} },
        some c.read.handover)
    | .WRITE => ({ c with events := c.events &&& ~~~event.bits, write := {} },
        some c.write.handover)
  contextResize table n :=
    { size := max table.size n
      slot := fun i => if i < table.size then table.slot i else { fd := i } }

theorem least_lawful : Undefined.least.Lawful where
  read := rfl
  write := rfl
  reset _ := rfl
  trigger_events c event := by cases event <;> rfl
  trigger_fd c event := by cases event <;> rfl
  trigger_empties c event := by cases event <;> rfl
  trigger_spares c event other apart := by
    cases event <;> cases other <;> first
      | exact absurd rfl apart
      | rfl
  trigger_hands c event := by cases event <;> rfl
  resize_size table n := rfl
  resize_old table n i inside := by simp [Undefined.least, inside]
  resize_new table n i outside _ := by simp [Undefined.least, Nat.not_lt.mpr outside]

/-- A locked section up to `epoll_ctl`, and what follows where that succeeds. -/
structure LockedSection where
  op : Epoll.Op
  events : EventMask
  rest : List Micro
  deriving DecidableEq, Repr

namespace FdContext
open Epoll

/-- `IOManager::addEvent` under the fd mutex. -/
def addEvent (c : FdContext) (event : Event) (ctx : EventContext) : LockedSection where
  op := if c.events ≠ 0 then .MOD else .ADD
  events := EPOLLET ||| c.events ||| event.bits
  rest := [.increment, .setEvents (c.events ||| event.bits), .assign event ctx]

/-- `IOManager::delEvent` under the fd mutex. -/
def delEvent (c : FdContext) (event : Event) : Option LockedSection :=
  if !event.isIn c.events then none
  else
    let new_events := c.events &&& ~~~event.bits
    some {
      op := if new_events ≠ 0 then .MOD else .DEL
      events := EPOLLET ||| new_events
      rest := [.decrement, .setEvents new_events, .resetContext event] }

/-- `IOManager::cancelEvent` under the fd mutex. -/
def cancelEvent (c : FdContext) (event : Event) : Option LockedSection :=
  if !event.isIn c.events then none
  else
    let new_events := c.events &&& ~~~event.bits
    some {
      op := if new_events ≠ 0 then .MOD else .DEL
      events := EPOLLET ||| new_events
      rest := [.trigger event, .decrement] }

/-- An event can only be deleted where it is registered. -/
theorem delEvent_registered {c : FdContext} {event : Event} {locked : LockedSection}
    (decided : c.delEvent event = some locked) : event.isIn c.events = true ∧ locked =
      { op := if c.events &&& ~~~event.bits ≠ 0 then .MOD else .DEL
        events := EPOLLET ||| (c.events &&& ~~~event.bits)
        rest := [.decrement, .setEvents (c.events &&& ~~~event.bits), .resetContext event] } := by
  unfold delEvent at decided
  cases set : event.isIn c.events with
  | false => simp [set] at decided
  | true =>
    simp only [set, Bool.not_true, Bool.false_eq_true, if_false, Option.some.injEq] at decided
    exact ⟨rfl, decided.symm⟩

/-- An event can only be cancelled where it is registered. -/
theorem cancelEvent_registered {c : FdContext} {event : Event} {locked : LockedSection}
    (decided : c.cancelEvent event = some locked) : event.isIn c.events = true ∧ locked =
      { op := if c.events &&& ~~~event.bits ≠ 0 then .MOD else .DEL
        events := EPOLLET ||| (c.events &&& ~~~event.bits)
        rest := [.trigger event, .decrement] } := by
  unfold cancelEvent at decided
  cases set : event.isIn c.events with
  | false => simp [set] at decided
  | true =>
    simp only [set, Bool.not_true, Bool.false_eq_true, if_false, Option.some.injEq] at decided
    exact ⟨rfl, decided.symm⟩

/-- `IOManager::cancelAll` under the fd mutex. -/
def cancelAll (c : FdContext) : Option LockedSection :=
  if c.events = 0 then none
  else some { op := .DEL, events := 0, rest := [.triggerIfSet .READ, .triggerIfSet .WRITE] }

/-- `real_events` of `IOManager::idle` for a report. -/
def realEvents (c : FdContext) (report : EventMask) : EventMask :=
  let events :=
    if report &&& (EPOLLERR ||| EPOLLHUP) ≠ 0 then
      report ||| ((EPOLLIN ||| EPOLLOUT) &&& c.events)
    else report
  (if events &&& EPOLLIN ≠ 0 then Event.READ.bits else 0) |||
    (if events &&& EPOLLOUT ≠ 0 then Event.WRITE.bits else 0)

/-- The report loop of `IOManager::idle` under the fd mutex. -/
def handle (c : FdContext) (report : EventMask) : Option LockedSection :=
  let real_events := c.realEvents report
  if c.events &&& real_events = 0 then none
  else
    let left_events := c.events &&& ~~~real_events
    some {
      op := if left_events ≠ 0 then .MOD else .DEL
      events := EPOLLET ||| left_events
      rest :=
        (if Event.READ.isIn real_events then [.trigger .READ, .decrement] else []) ++
        (if Event.WRITE.isIn real_events then [.trigger .WRITE, .decrement] else []) }

end FdContext

/-- The four calls on an fd. `addEvent` comes with what `Scheduler::GetThis()`
and `Piber::GetThis()` answer on the calling thread. -/
inductive FdCall where
  | addEvent (event : Event) (cb : Option CallbackId) (scheduler : Option SchedulerId)
    (piber : PiberId)
  | delEvent (event : Event)
  | cancelEvent (event : Event)
  | cancelAll
  deriving DecidableEq, Repr

/-- The context that `addEvent` fills in: the callback or else the fiber. -/
def FdCall.context (cb : Option CallbackId) (scheduler : Option SchedulerId) (piber : PiberId) :
    EventContext :=
  if cb.isSome then { scheduler, cb } else { scheduler, piber := some piber }

def FdCall.decide (call : FdCall) (c : FdContext) : Option LockedSection :=
  match call with
  | .addEvent event cb scheduler piber =>
    some (c.addEvent event (FdCall.context cb scheduler piber))
  | .delEvent event => c.delEvent event
  | .cancelEvent event => c.cancelEvent event
  | .cancelAll => c.cancelAll

/-- An `epoll_event` that `epoll_wait` filled in: the read end of the tickle
pipe, or an fd with its events. -/
inductive Report where
  | tickle
  | ready (fd : ℕ) (events : EventMask)
  deriving DecidableEq, Repr

/-- Where a thread is in a call or in the report loop. -/
inductive IoPc where
  | free
  | growing (call : FdCall) (fd : ℕ)
  | locating (call : FdCall) (fd : ℕ)
  | calling (fd : ℕ)
  | returned (ok : Bool)
  | reporting (reports : List Report)
  | handling (fd : ℕ) (reports : List Report)
  deriving DecidableEq, Repr

/-- A call of `triggerEvent`, and whether the event was registered then. -/
structure Trigger where
  fd : ℕ
  event : Event
  wasSet : Bool
  deriving DecidableEq, Repr

namespace Micro

/-- The effect of one statement on its fd. -/
def run (u : Undefined) (c : FdContext) : Micro → FdContext
  | .setEvents events => { c with events }
  | .assign event ctx => c.set (u.getEventContext event) ctx
  | .resetContext event =>
    let slot := u.getEventContext event
    c.set slot (u.resetEventContext (c.get slot))
  | .trigger event => (u.triggerEvent c event).1
  | _ => c

/-- Its effect on `m_pendingEventCount`. -/
def change : Micro → ℤ
  | .increment => 1
  | .decrement => -1
  | _ => 0

/-- The call of `triggerEvent` that it makes. -/
def triggered (fd : ℕ) (c : FdContext) : Micro → List Trigger
  | .trigger event => [⟨fd, event, event.isIn c.events⟩]
  | _ => []

/-- What it hands to a scheduler. -/
def handed (u : Undefined) (c : FdContext) : Micro → List Handover
  | .trigger event => (u.triggerEvent c event).2.toList
  | _ => []

end Micro

/-- `IOManager` without its scheduler, and the kernel's side of `m_epfd`. The
count is an integer, so that a count below zero shows; `triggered` and `handed`
are history. -/
structure IOManager where
  table : FdTable := {}
  pendingEventCount : ℤ := 0
  interest : Epoll.Interest := fun _ => none
  threads : ThreadId → IoPc := fun _ => .free
  triggered : List Trigger := []
  handed : List Handover := []

namespace IOManager
open Epoll

@[simp] def goto (m : IOManager) (thread : ThreadId) (pc : IoPc) : IOManager :=
  { m with threads := Function.update m.threads thread pc }

@[simp] def store (m : IOManager) (fd : ℕ) (c : FdContext) : IOManager :=
  { m with table := { m.table with slot := Function.update m.table.slot fd c } }

/-- The table lookup of the four calls; only `addEvent` lets the table grow. -/
def locate (m : IOManager) (thread : ThreadId) (call : FdCall) (fd : ℕ) : IOManager :=
  if m.table.size > fd then m.goto thread (.locating call fd)
  else
    match call with
    | .addEvent .. => m.goto thread (.growing call fd)
    | _ => m.goto thread (.returned false)

/-- `contextResize(fd * 1.5)` and the access behind it, under the write lock.
An access past the table is undefined and has no step. -/
def grow (u : Undefined) (m : IOManager) (thread : ThreadId) (call : FdCall) (fd : ℕ) :
    Option IOManager :=
  let table := u.contextResize m.table (fd * 3 / 2)
  if fd < table.size then some ({ m with table }.goto thread (.locating call fd)) else none

/-- The locked section up to `epoll_ctl`, whose outcome is the kernel's. -/
def lock (m : IOManager) (thread : ThreadId) (fd : ℕ) (decided : Option LockedSection)
    (ok : Bool) (success failure : IoPc) : Option IOManager :=
  let c := m.table.slot fd
  if c.mutex.isSome then none
  else
    match decided, ok with
    | some locked, true =>
      (Epoll.ctl m.interest locked.op c.fd locked.events).map fun interest =>
        ({ m with interest }.store fd { c with mutex := some ⟨thread, locked.rest⟩ }).goto
          thread success
    | _, _ => some (m.goto thread failure)

/-- The next statement of the locked section, or the unlock at its end. -/
def advance (u : Undefined) (m : IOManager) (thread : ThreadId) (fd : ℕ) (after : IoPc) :
    Option IOManager :=
  let c := m.table.slot fd
  match c.mutex with
  | none => none
  | some held =>
    if held.thread ≠ thread then none
    else
      match held.rest with
      | [] => some ((m.store fd { c with mutex := none }).goto thread after)
      | .triggerIfSet event :: rest =>
        let rest := if event.isIn c.events then .trigger event :: .decrement :: rest else rest
        some (m.store fd { c with mutex := some ⟨thread, rest⟩ })
      | op :: rest =>
        some { m.store fd { op.run u c with mutex := some ⟨thread, rest⟩ } with
          pendingEventCount := m.pendingEventCount + op.change
          triggered := op.triggered fd c ++ m.triggered
          handed := op.handed u c ++ m.handed }

/-- What `epoll_wait` may report: events of an fd in its set, as far as the
interest mask admits them; errors and hang-ups are always admitted. -/
def mayReport (m : IOManager) : Report → Bool
  | .tickle => true
  | .ready fd events =>
    match m.interest fd with
    | none => false
    | some mask =>
      events &&& ~~~(mask ||| EPOLLERR ||| EPOLLHUP) == 0 &&
        events &&& ~~~(EPOLLIN ||| EPOLLOUT ||| EPOLLERR ||| EPOLLHUP) == 0

/-- The steps: a call, a return of `epoll_wait` in `IOManager::idle`, and the
next step of a thread, with the outcome of `epoll_ctl` where it has one. -/
inductive Action where
  | call (thread : ThreadId) (call : FdCall) (fd : ℕ)
  | wait (thread : ThreadId) (reports : List Report)
  | next (thread : ThreadId) (ok : Bool)
  deriving DecidableEq, Repr

def threadStep (u : Undefined) (m : IOManager) (thread : ThreadId) (ok : Bool) :
    Option IOManager :=
  match m.threads thread with
  | .free => none
  | .growing call fd => m.grow u thread call fd
  | .locating call fd =>
    m.lock thread fd (call.decide (m.table.slot fd)) ok (.calling fd) (.returned false)
  | .calling fd => m.advance u thread fd (.returned true)
  | .returned _ => some (m.goto thread .free)
  | .reporting [] => some (m.goto thread .free)
  | .reporting (.tickle :: reports) => some (m.goto thread (.reporting reports))
  | .reporting (.ready fd events :: reports) =>
    m.lock thread fd ((m.table.slot fd).handle events) ok (.handling fd reports)
      (.reporting reports)
  | .handling fd reports => m.advance u thread fd (.reporting reports)

def step (u : Undefined) (m : IOManager) : Action → Option IOManager
  | .call thread call fd =>
    if m.threads thread = .free then some (m.locate thread call fd) else none
  | .wait thread reports =>
    if m.threads thread = .free ∧ reports.all m.mayReport then
      some (m.goto thread (.reporting reports))
    else none
  | .next thread ok => m.threadStep u thread ok

end IOManager
end Synergy
