import Mathlib.Data.Fintype.Order
import Synergy.GuardedCode
import Synergy.IOManager

/-! Every function of the library that uses a lock, as the locks see it. There
are four kinds of mutex and any number of each: one timer manager, one event
registry and one scheduler per object, and one context per fd. A fiber is resumed
or yields at a `clear`, where the thread holds nothing, and a callback is called
there; so are `FdMgr` and `onTimerInsertedAtFront`, and so a thread sleeps in
`epoll_wait` or `join`. Under a lock the library runs code that it does not define
in three places: it copies and destroys the closures of its users, it logs, and the
registry calls members of its contexts that have no body. -/
namespace Synergy.LockUse
open Guarded Guarded.Stmt Locks

/-- The mutexes. An `IOManager` is a scheduler and a timer manager too. -/
inductive Lock where
  | timers (manager : SchedulerId)
  | registry (iom : SchedulerId)
  | context (iom : SchedulerId) (fd : ℕ)
  | tasks (scheduler : SchedulerId)
  deriving DecidableEq, Repr

/-- The order in which the library takes them. -/
def rank : Lock → Fin 3
  | .timers _ | .registry _ => 0
  | .context _ _ => 1
  | .tasks _ => 2

/-- What the library runs under a lock and does not define: three members of the
registry, the log and assert macros, and the copy constructor and the destructor of
a closure. -/
structure Missing where
  triggerEvent : SchedulerId → Stmt Lock
  resetEventContext : Stmt Lock
  contextResize : Stmt Lock
  log : Stmt Lock
  copy : CallbackId → Stmt Lock
  destroy : CallbackId → Stmt Lock

section Closures

variable (missing : Missing)

/-- A task or a `std::function` is copied, with the closure if it has one. -/
def copied : Stmt Lock := .branch (.choose fun f => .call (missing.copy f)) skip

/-- A task or a `std::function` is destroyed or overwritten. -/
def destroyed : Stmt Lock := .branch (.choose fun f => .call (missing.destroy f)) skip

/-- A log macro, or an assertion. -/
def logged : Stmt Lock := .call missing.log

end Closures

namespace Scheduler

variable (missing : Missing)

/-- `Scheduler::tickle` is empty. -/
def tickle : Stmt Lock := skip

/-- `Scheduler::scheduleNoLock`: `fc`, the parameter of the constructor of `task`
and `task` itself are copies, and so is the element of the list. -/
def scheduleNoLock : Stmt Lock :=
  block [
    copied missing, copied missing, copied missing, destroyed missing,
    .branch (copied missing) skip, destroyed missing, destroyed missing]

/-- `Scheduler::schedule`. -/
def schedule (s : SchedulerId) : Stmt Lock :=
  block [.guarded .scopeMutex (.tasks s) (scheduleNoLock missing), .branch tickle skip]

/-- `Scheduler::stopping`. -/
def stopping (s : SchedulerId) : Stmt Lock := .guarded .scopeMutex (.tasks s) (.jump .returns)

/-- `Scheduler::start`, with the constructor of `Thread` in its loop. -/
def start (s : SchedulerId) : Stmt Lock :=
  .guarded .scopeMutex (.tasks s) (block [.branch (.jump .returns) skip, .loop .create])

/-- The loop of `run` over `m_tasks`. -/
def scan : Stmt Lock :=
  .loop (.branch (.jump .continues) (.branch (.jump .continues)
    -- `task = *it` and `m_tasks.erase(it++)`
    (block [copied missing, destroyed missing, destroyed missing, .jump .breaks])))

/-- `Scheduler::run`. -/
def run (s : SchedulerId) : Stmt Lock :=
  .loop (block [
    .guarded .scopeMutex (.tasks s) (scan missing),
    .branch tickle skip,
    -- `task.piber->resume()`, `cb_piber->resume()`, the end of the idle fiber or its `resume()`
    .branch .clear (.branch .clear (block [.branch (.jump .breaks) skip, .clear]))])

/-- `Scheduler::idle`. -/
def idle (s : SchedulerId) : Stmt Lock :=
  .loop (block [.call (stopping s), .branch (.jump .breaks) skip, .clear])

/-- `Scheduler::stop`. -/
def stop (s : SchedulerId) : Stmt Lock :=
  block [
    .call (stopping s), .branch (.jump .returns) skip,
    .loop tickle, .branch tickle skip,
    -- `m_rootPiber->resume()`
    .branch .clear skip,
    .guarded .scopeMutex (.tasks s) skip,
    -- `i->join()`
    .loop .clear]

end Scheduler

/-- What the code relies on: a trigger schedules what the context holds and drops
it, and nothing else that runs under a lock takes one. For a closure that is a
condition on its user: no object that it captures takes a lock of the library where
it is copied or destroyed. -/
structure Missing.Lawful (missing : Missing) : Prop where
  triggers : ∀ s, missing.triggerEvent s =
    block [.call (Scheduler.schedule missing s), .call missing.resetEventContext]
  resets : missing.resetEventContext.Lockless
  resizes : missing.contextResize.Lockless
  logs : missing.log.Lockless
  copies : ∀ f, (missing.copy f).Lockless
  destroys : ∀ f, (missing.destroy f).Lockless

namespace TimerManager

variable (missing : Missing)

/-- `TimerManager::addTimer(val, lock)`, in the frame of the guard; whoever
implements `onTimerInsertedAtFront` is called with no lock. -/
def addTimerLocked : Stmt Lock := block [.unlock, .branch .clear skip]

/-- `TimerManager::addTimer`, and `addConditionTimer`, which only binds. -/
def addTimer (m : SchedulerId) : Stmt Lock :=
  .guarded .writeScopedLockImpl (.timers m) (block [addTimerLocked, .jump .returns])

/-- `TimerManager::getNextTimer`. -/
def getNextTimer (m : SchedulerId) : Stmt Lock :=
  .guarded .readScopedLockImpl (.timers m)
    (block [.branch (.jump .returns) skip, .branch (.jump .returns) (.jump .returns)])

/-- `TimerManager::hasTimer`. -/
def hasTimer (m : SchedulerId) : Stmt Lock :=
  .guarded .readScopedLockImpl (.timers m) (.jump .returns)

/-- `TimerManager::listExpiredCb`. -/
def listExpiredCb (m : SchedulerId) : Stmt Lock :=
  block [
    .guarded .readScopedLockImpl (.timers m) (.branch (.jump .returns) skip),
    .guarded .writeScopedLockImpl (.timers m) (block [
      .branch (.jump .returns) skip, .branch (.jump .returns) skip, .loop skip,
      -- `cbs.push_back(timer->m_cb)`, and `timer->m_cb = nullptr` of a timer that does not recur
      .loop (block [copied missing, .branch skip (destroyed missing)])])]

end TimerManager

namespace Timer

variable (missing : Missing)

/-- `Timer::cancel`. -/
def cancel (m : SchedulerId) : Stmt Lock :=
  .guarded .writeScopedLockImpl (.timers m)
    (.branch (block [destroyed missing, .jump .returns]) (.jump .returns))

/-- `Timer::refresh`. -/
def refresh (m : SchedulerId) : Stmt Lock :=
  .guarded .writeScopedLockImpl (.timers m)
    (block [.branch (.jump .returns) skip, .branch (.jump .returns) skip, .jump .returns])

/-- `Timer::reset`. -/
def reset (m : SchedulerId) : Stmt Lock :=
  block [
    .branch (.jump .returns) skip,
    .guarded .writeScopedLockImpl (.timers m) (block [
      .branch (.jump .returns) skip, .branch (.jump .returns) skip,
      TimerManager.addTimerLocked, .jump .returns])]

end Timer

namespace IOManager

variable (missing : Missing)

/-- The beginning of `delEvent`, `cancelEvent` and `cancelAll`: the context is
looked up under the lock of the table and used under its own. -/
def withContext (m : SchedulerId) (fd : ℕ) (body : Stmt Lock) : Stmt Lock :=
  .guarded .readScopedLockImpl (.registry m) (block [
    .branch (.jump .returns) skip, .unlock, .guarded .scopeMutex (.context m fd) body])

/-- A trigger, of a context for any scheduler. -/
def trigger : Stmt Lock := .choose fun s => .call (missing.triggerEvent s)

/-- `IOManager::addEvent`. -/
def addEvent (m : SchedulerId) (fd : ℕ) : Stmt Lock :=
  .guarded .readScopedLockImpl (.registry m) (block [
    .branch .unlock
      (block [.unlock, .guarded .writeScopedLockImpl (.registry m) (.call missing.contextResize)]),
    .guarded .scopeMutex (.context m fd) (block [
      .branch (block [logged missing, .jump .returns]) skip, logged missing,
      -- `event_ctx.cb.swap(cb)` or `event_ctx.piber = piber::GetThis()`
      .branch skip (destroyed missing), .jump .returns])])

/-- `IOManager::delEvent`. -/
def delEvent (m : SchedulerId) (fd : ℕ) : Stmt Lock :=
  withContext m fd (block [
    .branch (.jump .returns) skip, .branch (block [logged missing, .jump .returns]) skip,
    .call missing.resetEventContext, .jump .returns])

/-- `IOManager::cancelEvent`. -/
def cancelEvent (m : SchedulerId) (fd : ℕ) : Stmt Lock :=
  withContext m fd (block [
    .branch (.jump .returns) skip, .branch (block [logged missing, .jump .returns]) skip,
    trigger missing, .jump .returns])

/-- `IOManager::cancelAll`. -/
def cancelAll (m : SchedulerId) (fd : ℕ) : Stmt Lock :=
  withContext m fd (block [
    .branch (.jump .returns) skip, .branch (block [logged missing, .jump .returns]) skip,
    .branch (trigger missing) skip, .branch (trigger missing) skip, logged missing,
    .jump .returns])

/-- `IOManager::stopping`. -/
def stopping (m : SchedulerId) : Stmt Lock :=
  block [.branch (.call (Scheduler.stopping m)) skip, .jump .returns]

/-- One report in `IOManager::idle`, of the wakeup pipe or of an fd. -/
def handleEvent (m : SchedulerId) : Stmt Lock :=
  .branch (.jump .continues)
    (.choose fun fd => .guarded .scopeMutex (.context m fd) (block [
      .branch (.jump .continues) skip, .branch (.jump .continues) skip,
      .branch (trigger missing) skip, .branch (trigger missing) skip]))

/-- `IOManager::idle`. -/
def idle (m : SchedulerId) : Stmt Lock :=
  .loop (block [
    .call (stopping m), .branch (.jump .breaks) skip,
    -- `epoll_wait`
    .clear, .branch (.branch (.jump .continues) (.jump .breaks)) skip,
    .loop (handleEvent missing m),
    -- `raw_ptr->yield()`
    .clear])

end IOManager

namespace Hook

variable (missing : Missing)

/-- A call of `FdMgr`, which brings its own lock. -/
def fdMgr : Stmt Lock := .clear

/-- `timer->cancel()`, if there is one. -/
def cancelTimer (m : SchedulerId) : Stmt Lock := .branch (.call (Timer.cancel missing m)) skip

/-- `iom->addConditionTimer(..)`, if there is a timeout. -/
def armTimer (m : SchedulerId) : Stmt Lock := .branch (.call (TimerManager.addTimer m)) skip

/-- The callback of the timers of `do_io` and `connect_with_timeout`. -/
def onTimeout (m : SchedulerId) (fd : ℕ) : Stmt Lock :=
  block [.branch (.jump .returns) skip, .call (IOManager.cancelEvent missing m fd)]

/-- `do_io`, and so the calls that only wrap it. -/
def do_io (m : SchedulerId) (fd : ℕ) : Stmt Lock :=
  block [
    .branch (.jump .returns) skip, fdMgr, .branch (.jump .returns) skip,
    .branch (.jump .returns) skip, .branch (.jump .returns) skip,
    -- `retry`
    .loop (block [
      .branch (.jump .breaks) skip,
      armTimer m, .call (IOManager.addEvent missing m fd),
      .branch (block [logged missing, cancelTimer missing m, .jump .returns])
        (block [.clear, cancelTimer missing m, .branch (.jump .returns) (.jump .continues)])]),
    .jump .returns]

/-- `accept`. -/
def accept (m : SchedulerId) (fd : ℕ) : Stmt Lock :=
  block [.call (do_io missing m fd), .branch fdMgr skip, .jump .returns]

/-- `sleep`, `usleep` and `nanosleep`. -/
def sleep (m : SchedulerId) : Stmt Lock :=
  block [.branch (.jump .returns) skip, .call (TimerManager.addTimer m), .clear, .jump .returns]

/-- `connect_with_timeout`. -/
def connect_with_timeout (m : SchedulerId) (fd : ℕ) : Stmt Lock :=
  block [
    .branch (.jump .returns) skip, fdMgr, .branch (.jump .returns) skip,
    .branch (.jump .returns) skip, .branch (.jump .returns) skip,
    .branch (.jump .returns) (.branch (.jump .returns) skip),
    armTimer m, .call (IOManager.addEvent missing m fd),
    .branch (block [.clear, cancelTimer missing m, .branch (.jump .returns) skip])
      (block [cancelTimer missing m, logged missing]),
    .branch (.jump .returns) skip, .jump .returns]

/-- `close`. -/
def close (m : SchedulerId) (fd : ℕ) : Stmt Lock :=
  block [
    .branch (.jump .returns) skip, fdMgr,
    .branch (block [.branch (.call (IOManager.cancelAll missing m fd)) skip, fdMgr]) skip,
    .jump .returns]

end Hook

/-- The functions of the library that a thread may be in. -/
inductive Function (missing : Missing) : Stmt Lock → Prop where
  | schedule (s) : Function missing (Scheduler.schedule missing s)
  | stopping (s) : Function missing (Scheduler.stopping s)
  | start (s) : Function missing (Scheduler.start s)
  | run (s) : Function missing (Scheduler.run missing s)
  | idle (s) : Function missing (Scheduler.idle s)
  | stop (s) : Function missing (Scheduler.stop s)
  | addTimer (m) : Function missing (TimerManager.addTimer m)
  | getNextTimer (m) : Function missing (TimerManager.getNextTimer m)
  | hasTimer (m) : Function missing (TimerManager.hasTimer m)
  | listExpiredCb (m) : Function missing (TimerManager.listExpiredCb missing m)
  | cancel (m) : Function missing (Timer.cancel missing m)
  | refresh (m) : Function missing (Timer.refresh m)
  | reset (m) : Function missing (Timer.reset m)
  | addEvent (m fd) : Function missing (IOManager.addEvent missing m fd)
  | delEvent (m fd) : Function missing (IOManager.delEvent missing m fd)
  | cancelEvent (m fd) : Function missing (IOManager.cancelEvent missing m fd)
  | cancelAll (m fd) : Function missing (IOManager.cancelAll missing m fd)
  | ioStopping (m) : Function missing (IOManager.stopping m)
  | ioIdle (m) : Function missing (IOManager.idle missing m)
  | onTimeout (m fd) : Function missing (Hook.onTimeout missing m fd)
  | do_io (m fd) : Function missing (Hook.do_io missing m fd)
  | accept (m fd) : Function missing (Hook.accept missing m fd)
  | sleep (m) : Function missing (Hook.sleep m)
  | connect (m fd) : Function missing (Hook.connect_with_timeout missing m fd)
  | close (m fd) : Function missing (Hook.close missing m fd)

section Safe

attribute [local simp] block skip wp held rank

variable {missing : Missing} (lawful : missing.Lawful) {outer : Set Lock}
  {post : Ending → List (Scoped Lock) → Prop} {guards : List (Scoped Lock)} (s m : SchedulerId)
  (fd : ℕ)

theorem safe_schedulerStopping : Safe rank (Scheduler.stopping s) := by
  simp [Scheduler.stopping]

theorem safe_start : Safe rank (Scheduler.start s) := by
  simp [Scheduler.start]

theorem safe_schedulerIdle : Safe rank (Scheduler.idle s) := by
  simp [Scheduler.idle, safe_schedulerStopping s]

theorem safe_stop : Safe rank (Scheduler.stop s) := by
  simp [Scheduler.stop, Scheduler.tickle, safe_schedulerStopping s]

theorem safe_addTimer : Safe rank (TimerManager.addTimer m) := by
  simp [TimerManager.addTimer, TimerManager.addTimerLocked]

theorem safe_getNextTimer : Safe rank (TimerManager.getNextTimer m) := by
  simp [TimerManager.getNextTimer]

theorem safe_hasTimer : Safe rank (TimerManager.hasTimer m) := by
  simp [TimerManager.hasTimer]

theorem safe_refresh : Safe rank (Timer.refresh m) := by
  simp [Timer.refresh]

theorem safe_reset : Safe rank (Timer.reset m) := by
  simp [Timer.reset, TimerManager.addTimerLocked]

theorem safe_ioStopping : Safe rank (IOManager.stopping m) := by
  simp [IOManager.stopping, safe_schedulerStopping m]

theorem safe_sleep : Safe rank (Hook.sleep m) := by
  simp [Hook.sleep, safe_addTimer m]

include lawful

theorem wp_copied : wp rank outer (copied missing) post guards ↔ post .falls guards :=
  ⟨fun pre => pre.2, fun holds =>
    ⟨fun f => (wp_call_of_lockless (lawful.copies f)).mpr holds, holds⟩⟩

theorem wp_destroyed : wp rank outer (destroyed missing) post guards ↔ post .falls guards :=
  ⟨fun pre => pre.2, fun holds =>
    ⟨fun f => (wp_call_of_lockless (lawful.destroys f)).mpr holds, holds⟩⟩

theorem wp_logged : wp rank outer (logged missing) post guards ↔ post .falls guards :=
  wp_call_of_lockless lawful.logs

/-- `schedule` may be called with locks that come before those of the queues. -/
theorem wp_schedule :
    wp rank outer (Scheduler.schedule missing s) (fun _ after => after = []) [] ↔
      ∀ r ∈ outer, rank r < 2 := by
  simp [Scheduler.schedule, Scheduler.scheduleNoLock, Scheduler.tickle, wp_copied lawful,
    wp_destroyed lawful]

/-- A trigger is a call of `schedule`, with the mutex of the context held. -/
theorem wp_trigger :
    wp rank outer (IOManager.trigger missing) post guards ↔
      (∀ r ∈ held outer guards, rank r < 2) ∧ post .falls guards := by
  have dropped : wp rank (held outer guards) missing.resetEventContext
      (fun _ after => after = []) [] := wp_of_lockless lawful.resets fun _ => rfl
  have each : ∀ s, wp rank (held outer guards) (missing.triggerEvent s)
      (fun _ after => after = []) [] ↔ ∀ r ∈ held outer guards, rank r < 2 := by
    intro s
    rw [lawful.triggers]
    simp [dropped, wp_schedule lawful]
  simp [IOManager.trigger, each]

theorem safe_schedule : Safe rank (Scheduler.schedule missing s) :=
  (wp_schedule lawful s).mpr (by simp)

theorem safe_run : Safe rank (Scheduler.run missing s) := by
  simp [Scheduler.run, Scheduler.scan, Scheduler.tickle, wp_copied lawful, wp_destroyed lawful]

theorem safe_listExpiredCb : Safe rank (TimerManager.listExpiredCb missing m) := by
  simp [TimerManager.listExpiredCb, wp_copied lawful, wp_destroyed lawful]

theorem safe_cancel : Safe rank (Timer.cancel missing m) := by
  simp [Timer.cancel, wp_destroyed lawful]

theorem safe_addEvent : Safe rank (IOManager.addEvent missing m fd) := by
  simp [IOManager.addEvent, wp_of_lockless lawful.resizes, wp_logged lawful,
    wp_destroyed lawful]

theorem safe_delEvent : Safe rank (IOManager.delEvent missing m fd) := by
  simp [IOManager.delEvent, IOManager.withContext, wp_logged lawful,
    wp_of_lockless lawful.resets]

theorem safe_cancelEvent : Safe rank (IOManager.cancelEvent missing m fd) := by
  simp [IOManager.cancelEvent, IOManager.withContext, wp_trigger lawful, wp_logged lawful]

theorem safe_cancelAll : Safe rank (IOManager.cancelAll missing m fd) := by
  simp [IOManager.cancelAll, IOManager.withContext, wp_trigger lawful, wp_logged lawful]

theorem safe_ioIdle : Safe rank (IOManager.idle missing m) := by
  simp [IOManager.idle, IOManager.handleEvent, safe_ioStopping m, wp_trigger lawful]

theorem safe_onTimeout : Safe rank (Hook.onTimeout missing m fd) := by
  simp [Hook.onTimeout, safe_cancelEvent lawful m fd]

theorem safe_do_io : Safe rank (Hook.do_io missing m fd) := by
  simp [Hook.do_io, Hook.fdMgr, Hook.armTimer, Hook.cancelTimer, safe_addTimer m,
    safe_cancel lawful m, safe_addEvent lawful m fd, wp_logged lawful]

theorem safe_accept : Safe rank (Hook.accept missing m fd) := by
  simp [Hook.accept, Hook.fdMgr, safe_do_io lawful m fd]

theorem safe_connect : Safe rank (Hook.connect_with_timeout missing m fd) := by
  simp [Hook.connect_with_timeout, Hook.fdMgr, Hook.armTimer, Hook.cancelTimer, safe_addTimer m,
    safe_cancel lawful m, safe_addEvent lawful m fd, wp_logged lawful]

theorem safe_close : Safe rank (Hook.close missing m fd) := by
  simp [Hook.close, Hook.fdMgr, safe_cancelAll lawful m fd]

end Safe

theorem safe_of_function {missing : Missing} (lawful : missing.Lawful) {body : Stmt Lock}
    (function : Function missing body) : Safe rank body := by
  cases function with
  | schedule s => exact safe_schedule lawful s
  | stopping s => exact safe_schedulerStopping s
  | start s => exact safe_start s
  | run s => exact safe_run lawful s
  | idle s => exact safe_schedulerIdle s
  | stop s => exact safe_stop s
  | addTimer m => exact safe_addTimer m
  | getNextTimer m => exact safe_getNextTimer m
  | hasTimer m => exact safe_hasTimer m
  | listExpiredCb m => exact safe_listExpiredCb lawful m
  | cancel m => exact safe_cancel lawful m
  | refresh m => exact safe_refresh m
  | reset m => exact safe_reset m
  | addEvent m fd => exact safe_addEvent lawful m fd
  | delEvent m fd => exact safe_delEvent lawful m fd
  | cancelEvent m fd => exact safe_cancelEvent lawful m fd
  | cancelAll m fd => exact safe_cancelAll lawful m fd
  | ioStopping m => exact safe_ioStopping m
  | ioIdle m => exact safe_ioIdle lawful m
  | onTimeout m fd => exact safe_onTimeout lawful m fd
  | do_io m fd => exact safe_do_io lawful m fd
  | accept m fd => exact safe_accept lawful m fd
  | sleep m => exact safe_sleep m
  | connect m fd => exact safe_connect lawful m fd
  | close m fd => exact safe_close lawful m fd

/-- The calls are executions of the functions. -/
def Calls (missing : Missing) (_ : World ThreadId Lock) : Action ThreadId Lock → Prop
  | .call _ program => ∃ body after e, Function missing body ∧ Exec body [] program after e
  | _ => True

section Threads

variable {missing : Missing} {writersFirst : Bool} {members : Finset ThreadId}
  {w : World ThreadId Lock}

theorem orderly_of_calls (lawful : missing.Lawful)
    (reached : Runs.Reaches (World.step writersFirst) (Calls missing) { born := members } w) :
    Orderly rank w := by
  refine reached.invariant (Orderly rank) (orderly_initial rank members) ?_
  intro w a v orderly calls stepped
  refine orderly_move orderly ?_ (move_of_step stepped)
  cases a with
  | call t program =>
    obtain ⟨body, after, e, function, exec⟩ := calls
    exact (safe_of_function lawful function).disciplined exec
  | _ => trivial

/-- **The library does not deadlock.** Let any number of threads be in its
functions at once, at any place of any execution, `start` waiting for a new
thread under the lock of the queue included, and let no closure take a lock of
the library where it is copied or destroyed. Then some thread can go on, however
the read-write locks rank readers and writers; and with no new call all
schedules end after the same number of steps, with all calls done and all
mutexes free. -/
theorem calls_never_deadlock (lawful : missing.Lawful)
    (reached : Runs.Reaches (World.step writersFirst) (Calls missing) { born := members } w) :
    (∀ t, w.Busy t → w.Able writersFirst) ∧
    ∃ n : ℕ, ∀ schedule v, (∀ a ∈ schedule, Action.Inner a) →
      Runs.run (World.step writersFirst) w schedule = some v → schedule.length ≤ n ∧
      (schedule.length < n → v.Able writersFirst) ∧
      (schedule.length = n → (∀ t, ¬ v.Busy t) ∧ ∀ r, v.owners r = []) := by
  have orderly := orderly_of_calls lawful reached
  exact ⟨fun t busy => orderly.able busy, orderly.comes_to_rest⟩

/-- **Locks exclude and are not carried along.** A mutex locked for writing has
one owner. Where a thread resumes or yields a fiber, sleeps in `epoll_wait` or
`join`, or calls a callback, it owns no mutex, so no fiber ever takes one to
another thread; a closure is copied and destroyed under locks too, and takes
none. A thread that waits for a mutex owns only mutexes of lower rank. -/
theorem locks_exclude_and_stay (lawful : missing.Lawful)
    (reached : Runs.Reaches (World.step writersFirst) (Calls missing) { born := members } w) :
    (∀ r t, (t, .exclusive) ∈ w.owners r → w.owners r = [(t, .exclusive)]) ∧
    (∀ t, (w.todo t).head? = some .clear → ∀ r mode, (t, mode) ∉ w.owners r) ∧
    ∀ t r mode rest, w.todo t = .acquire r mode :: rest →
      ∀ q mode', (t, mode') ∈ w.owners q → rank q < rank r := by
  have orderly := orderly_of_calls lawful reached
  refine ⟨orderly.exclusive, fun t clear r mode owns => ?_,
    fun t r mode rest next q mode' owns => ?_⟩
  · have nothing := orderly.held_nothing (t := t) (.inr clear)
    have member : r ∈ w.heldBy t := ⟨mode, owns⟩
    rw [nothing] at member
    cases member
  · have disciplined := orderly.disciplined t
    rw [next] at disciplined
    exact disciplined.1 q ⟨mode', owns⟩

end Threads

/-- Nothing of it takes a lock. -/
def Missing.silent : Missing where
  triggerEvent _ := skip
  resetEventContext := skip
  contextResize := skip
  log := skip
  copy _ := skip
  destroy _ := skip

/-- Triggers as they have to be. -/
def Missing.least : Missing :=
  { Missing.silent with
    triggerEvent := fun s => block [.call (Scheduler.schedule .silent s), .call skip] }

theorem least_lawful : Missing.least.Lawful where
  triggers _ := rfl
  resets := trivial
  resizes := trivial
  logs := trivial
  copies _ := trivial
  destroys _ := trivial

/-- `start` makes one thread. -/
def startOne : List (Instr Lock) := [.acquire (.tasks 0) .exclusive, .create, .release (.tasks 0)]

def scheduleOne : List (Instr Lock) := [.acquire (.tasks 0) .exclusive, .release (.tasks 0)]

/-- The guard of `start` and `schedule` in its scope. -/
def queueGuard : Scoped Lock := ⟨.scopeMutex, .tasks 0, true⟩

theorem startOne_exec : Exec (Scheduler.start 0) [] startOne [] .falls := by
  have round : Exec (.loop .create) [queueGuard] ([.create] ++ []) [queueGuard] .falls :=
    .loopAgain .create (.inl rfl) .loopLeft
  have inside : Exec (block [.branch (.jump .returns) skip, .loop .create]) [queueGuard] [.create]
      [queueGuard] .falls := .seq (.no .jump) (.seq round .jump)
  exact .guarded inside

theorem scheduleOne_exec : Exec (Scheduler.schedule .least 0) [] scheduleOne [] .falls := by
  have copies : Exec (copied .least) [queueGuard] [] [queueGuard] .falls :=
    .yes (.choose 7 (.call .jump))
  have destroys : Exec (destroyed .least) [queueGuard] [] [queueGuard] .falls :=
    .yes (.choose 7 (.call .jump))
  have inside : Exec (Scheduler.scheduleNoLock .least) [queueGuard] [] [queueGuard] .falls :=
    .seq copies (.seq copies (.seq copies (.seq destroys
      (.seq (.yes copies) (.seq destroys (.seq destroys .jump))))))
  exact .seq (.guarded inside) (.seq (.no .jump) .jump)

/-- Thread 1 waits in `start` for thread 4, and thread 2 for its mutex. -/
def startAndSchedule : List (Action ThreadId Lock) :=
  [.call 1 startOne, .next 1, .create 1 4, .call 2 scheduleOne]

private theorem startAndSchedule_reaches :
    ∃ w, Runs.Reaches (World.step true) (Calls Missing.least) { born := {1, 2} } w ∧
      w.step true (.next 2) = none ∧ w.Busy 2 ∧ w.owners (.tasks 0) = [(1, .exclusive)] := by
  have ran : ∃ w, Runs.run (World.step true) ({ born := {1, 2} } : World ThreadId Lock)
      startAndSchedule = some w ∧ w.step true (.next 2) = none ∧ w.Busy 2 ∧
      w.owners (.tasks 0) = [(1, .exclusive)] := by
    refine ⟨_, rfl, rfl, .inr ?_, rfl⟩
    decide
  obtain ⟨w, replay, refused, busy, owner⟩ := ran
  refine ⟨w, Runs.reaches_of_run startAndSchedule replay ?_, refused, busy, owner⟩
  exact ⟨⟨_, _, _, .start 0, startOne_exec⟩, trivial, trivial,
    ⟨_, _, _, .schedule 0, scheduleOne_exec⟩, trivial⟩

theorem start_and_schedule_go_on :
    ∃ w, Runs.Reaches (World.step true) (Calls Missing.least) { born := {1, 2} } w ∧
      w.step true (.next 2) = none ∧ w.Able true := by
  obtain ⟨w, reached, refused, busy, -⟩ := startAndSchedule_reaches
  exact ⟨w, reached, refused, (calls_never_deadlock least_lawful reached).1 2 busy⟩

theorem start_and_schedule_exclude :
    ∃ w, Runs.Reaches (World.step true) (Calls Missing.least) { born := {1, 2} } w ∧
      (1, .exclusive) ∈ w.owners (.tasks 0) ∧ w.owners (.tasks 0) = [(1, .exclusive)] := by
  obtain ⟨w, reached, -, -, owner⟩ := startAndSchedule_reaches
  have owns : (1, .exclusive) ∈ w.owners (.tasks 0) := by simp [owner]
  exact ⟨w, reached, owns, (locks_exclude_and_stay least_lawful reached).1 _ _ owns⟩

/-- A closure captured an object that cancels a timer of the manager as it is
destroyed. -/
def Missing.cancelling : Missing :=
  { Missing.silent with destroy := fun _ => .guarded .writeScopedLockImpl (.timers 0) skip }

def cancelTwice : List (Instr Lock) :=
  [.acquire (.timers 0) .exclusive, .acquire (.timers 0) .exclusive, .release (.timers 0),
    .release (.timers 0)]

theorem cancelTwice_exec : Exec (Timer.cancel .cancelling 0) [] cancelTwice [] .returns := by
  let outside : Scoped Lock := ⟨.writeScopedLockImpl, .timers 0, true⟩
  have again : Exec (Missing.cancelling.destroy 7) []
      [.acquire (.timers 0) .exclusive, .release (.timers 0)] [] .falls :=
    .guarded .jump
  have dropped : Exec (destroyed .cancelling) [outside]
      [.acquire (.timers 0) .exclusive, .release (.timers 0)] [outside] .falls :=
    .yes (.choose 7 (.call again))
  have back : Exec (block [.jump .returns]) [outside] [] [outside] .returns :=
    .seqLeft .jump (by simp)
  have inside : Exec (block [destroyed .cancelling, .jump .returns]) [outside]
      [.acquire (.timers 0) .exclusive, .release (.timers 0)] [outside] .returns :=
    .seq dropped back
  exact .guarded (.yes inside)

/-- `m_cb = nullptr` waits for the lock that `cancel` has: the condition on
closures is needed. -/
theorem cancelling_closure_hangs :
    ∃ w, Runs.Reaches (World.step true) (Calls .cancelling) { born := {1} } w ∧ w.Busy 1 ∧
      ¬ w.Able true := by
  have ran : ∃ w, Runs.run (World.step true) ({ born := {1} } : World ThreadId Lock)
      [.call 1 cancelTwice, .next 1] = some w ∧ w.todo 1 = cancelTwice.tail ∧
      (∀ t, t ≠ 1 → w.todo t = []) ∧ (∀ t, w.phase t = .ready) ∧
      w.owners (.timers 0) = [(1, .exclusive)] := by
    refine ⟨_, rfl, rfl, fun t other => ?_, fun _ => rfl, rfl⟩
    simp [Function.update_of_ne other]
  obtain ⟨w, replay, todo, others, ready, owner⟩ := ran
  have reached : Runs.Reaches (World.step true) (Calls .cancelling) { born := {1} } w :=
    Runs.reaches_of_run _ replay ⟨⟨_, _, _, .cancel 0, cancelTwice_exec⟩, trivial, trivial⟩
  refine ⟨w, reached, .inr (by simp [todo, cancelTwice]), ?_⟩
  have only : ∀ {t : ThreadId} {instr rest}, w.todo t = instr :: rest →
      instr = .acquire (.timers 0) .exclusive := by
    intro t instr rest next
    by_cases same : t = 1
    · subst t
      rw [todo] at next
      cases next
      rfl
    · rw [others t same] at next
      cases next
  rintro ⟨a, v, inner, stepped⟩
  cases move_of_step stepped with
  | called => cases inner
  | acquired _ next free =>
    cases only next
    have nobody : w.owners (.timers 0) = [] := free
    rw [owner] at nobody
    cases nobody
  | released _ next | cleared _ next | created _ next => cases only next
  | notified starting => simp [ready] at starting
  | awaited awaiting => simp [ready] at awaiting

end Synergy.LockUse
