import Mathlib.Logic.Function.Basic
import Synergy.OrderedSet
import Synergy.Runs

/-! The timer manager of `common/Timer.h` and `common/Timer.cc`. Timers live in
a heap indexed by construction order, so that a handle outlives the membership
of its timer in `m_timers`. `GetElapsedMS` is an argument of every operation
that reads it. -/
namespace Synergy
open OrderedSet

/-- A `std::function<void()>`: a function the caller supplied, or `OnTimer`
bound to a weak condition and the caller's function. -/
inductive Callback where
  | function (id : ℕ)
  | onTimer (weakCond : ℕ) (function : Option ℕ)
  deriving DecidableEq, Repr

/-- The name of a constructed `Timer`, in the order of construction. -/
abbrev TimerId := ℕ

/-- `Timer`, with the address that `Comparator` falls back on. -/
structure Timer where
  recurring : Bool := false
  ms : UInt64 := 0
  next : UInt64 := 0
  cb : Option Callback := none
  address : ℕ := 0
  deriving DecidableEq, Repr

namespace Timer

/-- `Timer::Timer(ms, cb, recurring, manager)`. -/
def armed (now ms : UInt64) (cb : Option Callback) (recurring : Bool) (address : ℕ) : Timer :=
  { recurring, ms, next := now + ms, cb, address }

/-- `Timer::Timer(next)`: the probe that `listExpiredCb` looks up. -/
def probe (next : UInt64) (address : ℕ) : Timer := { next, address }

/-- `Timer::Comparator::operator()`, null pointers included. -/
def comparator : Option Timer → Option Timer → Bool
  | none, none => false
  | none, some _ => true
  | some _, none => false
  | some lhs, some rhs =>
    if lhs.next < rhs.next then true
    else if rhs.next < lhs.next then false
    else decide (lhs.address < rhs.address)

end Timer

/-- `TimerManager`: the heap of timers, `m_timers` in iteration order,
`m_tickled` and `m_previouseTime`. -/
structure TimerManager where
  heap : TimerId → Timer := fun _ => {}
  constructed : ℕ := 0
  timers : List TimerId := []
  tickled : Bool := false
  previouseTime : UInt64 := 0

namespace TimerManager

/-- The pointer under which the set orders a timer. -/
def key (m : TimerManager) (t : TimerId) : Option Timer := some (m.heap t)

/-- Assignment to the members of one timer. -/
def store (m : TimerManager) (t : TimerId) (value : Timer) : TimerManager :=
  { m with heap := Function.update m.heap t value }

/-- `m_timers.insert(val)`. -/
def insertTimer (m : TimerManager) (t : TimerId) : TimerManager :=
  { m with timers := insert Timer.comparator m.key t m.timers }

/-- `m_timers.find(shared_from_this())`. -/
def findTimer (m : TimerManager) (t : TimerId) : Option TimerId :=
  find Timer.comparator m.key (m.key t) m.timers

/-- `m_timers.erase(it)` for an iterator that is not `end()`. -/
def eraseTimer (m : TimerManager) (it : TimerId) : TimerManager :=
  { m with timers := m.timers.erase it }

/-- `TimerManager::TimerManager()`. -/
def initial (now : UInt64) : TimerManager := { previouseTime := now }

/-- `new Timer(ms, cb, recurring, this)`. -/
def construct (m : TimerManager) (now ms : UInt64) (cb : Option Callback) (recurring : Bool)
    (address : ℕ) : TimerManager :=
  { m.store m.constructed (Timer.armed now ms cb recurring address) with
    constructed := m.constructed + 1 }

/-- `TimerManager::addTimer(val, lock)`; the flag says that
`onTimerInsertedAtFront` is called after the unlock. -/
def addTimerLocked (m : TimerManager) (val : TimerId) : TimerManager × Bool :=
  let m := m.insertTimer val
  let it := m.findTimer val
  let at_front := it == m.timers.head? && !m.tickled
  if at_front then ({ m with tickled := true }, at_front) else (m, at_front)

/-- `TimerManager::addTimer(ms, cb, recurring)`: the manager, the returned
timer, and the call of `onTimerInsertedAtFront`. -/
def addTimer (m : TimerManager) (now ms : UInt64) (cb : Option Callback) (recurring : Bool)
    (address : ℕ) : TimerManager × TimerId × Bool :=
  let timer := m.constructed
  let (m, at_front) := (m.construct now ms cb recurring address).addTimerLocked timer
  (m, timer, at_front)

/-- `TimerManager::addConditionTimer`. -/
def addConditionTimer (m : TimerManager) (now ms : UInt64) (cb : Option ℕ) (weak_cond : ℕ)
    (recurring : Bool) (address : ℕ) : TimerManager × TimerId × Bool :=
  m.addTimer now ms (some (.onTimer weak_cond cb)) recurring address

/-- `Timer::cancel`. No result stands for `erase(end())`. -/
def cancel (m : TimerManager) (self : TimerId) : Option (TimerManager × Bool) :=
  if (m.heap self).cb.isSome then
    let m := m.store self { m.heap self with cb := none }
    match m.findTimer self with
    | none => none
    | some it => some (m.eraseTimer it, true)
  else some (m, false)

/-- `Timer::refresh`. -/
def refresh (m : TimerManager) (self : TimerId) (now : UInt64) : TimerManager × Bool :=
  if (m.heap self).cb.isNone then (m, false)
  else match m.findTimer self with
    | none => (m, false)
    | some it =>
      let m := m.eraseTimer it
      let m := m.store self { m.heap self with next := now + (m.heap self).ms }
      (m.insertTimer self, true)

/-- `Timer::reset`: the new manager, the call of `onTimerInsertedAtFront`, and
the result. -/
def reset (m : TimerManager) (self : TimerId) (ms : UInt64) (from_now : Bool) (now : UInt64) :
    TimerManager × Bool × Bool :=
  if ms == (m.heap self).ms && !from_now then (m, false, true)
  else if (m.heap self).cb.isNone then (m, false, false)
  else match m.findTimer self with
    | none => (m, false, false)
    | some it =>
      let m := m.eraseTimer it
      let start := if from_now then now else (m.heap self).next - (m.heap self).ms
      let m := m.store self { m.heap self with ms := ms, next := start + ms }
      let (m, at_front) := m.addTimerLocked self
      (m, at_front, true)

/-- `TimerManager::getNextTimer`. -/
def getNextTimer (m : TimerManager) (now : UInt64) : TimerManager × UInt64 :=
  let m := { m with tickled := false }
  match m.timers with
  | [] => (m, 0xffffffffffffffff)
  | next :: _ =>
    if now ≥ (m.heap next).next then (m, 0) else (m, (m.heap next).next - now)

/-- `TimerManager::hasTimer`. -/
def hasTimer (m : TimerManager) : Bool := !m.timers.isEmpty

/-- The comparison of `TimerManager::detectClockRollover`, in `uint64_t`. -/
def rolledOver (m : TimerManager) (now_ms : UInt64) : Bool :=
  decide (now_ms < m.previouseTime) && decide (now_ms < m.previouseTime - 60 * 60 * 1000)

/-- `TimerManager::detectClockRollover`. -/
def detectClockRollover (m : TimerManager) (now_ms : UInt64) : TimerManager × Bool :=
  ({ m with previouseTime := now_ms }, m.rolledOver now_ms)

/-- The position up to which `listExpiredCb` takes the set apart; `address` is
where the temporary `now_timer` happens to be allocated. -/
def expiryCut (m : TimerManager) (rollover : Bool) (now_ms : UInt64) (address : ℕ) :
    List TimerId × List TimerId :=
  let it := if rollover then (m.timers, [])
    else lowerBound Timer.comparator m.key (some (Timer.probe now_ms address)) m.timers
  advance (fun t => (m.heap t).next == now_ms) it

/-- One round of the final loop of `listExpiredCb`. -/
def expireOne (now_ms : UInt64) (m : TimerManager) (t : TimerId) : TimerManager :=
  if (m.heap t).recurring then
    (m.store t { m.heap t with next := now_ms + (m.heap t).ms }).insertTimer t
  else m.store t { m.heap t with cb := none }

/-- The final loop of `listExpiredCb`, with the callbacks it appends to `cbs`,
each beside its timer. -/
def expireAll (now_ms : UInt64) : TimerManager → List TimerId →
    TimerManager × List (TimerId × Option Callback)
  | m, [] => (m, [])
  | m, timer :: expired =>
    let cb := (m.heap timer).cb
    let (m, cbs) := expireAll now_ms (expireOne now_ms m timer) expired
    (m, (timer, cb) :: cbs)

/-- The write-locked section of `TimerManager::listExpiredCb`. -/
def listExpiredLocked (m : TimerManager) (now_ms : UInt64) (address : ℕ) :
    TimerManager × List (TimerId × Option Callback) :=
  match m.timers with
  | [] => (m, [])
  | first :: _ =>
    let (m, rollover) := m.detectClockRollover now_ms
    if !rollover && decide ((m.heap first).next > now_ms) then (m, [])
    else
      let it := m.expiryCut rollover now_ms address
      expireAll now_ms { m with timers := it.2 } it.1

/-- `TimerManager::listExpiredCb` with nothing between its two locks. -/
def listExpiredCb (m : TimerManager) (now_ms : UInt64) (address : ℕ) :
    TimerManager × List (TimerId × Option Callback) :=
  if m.timers.isEmpty then (m, []) else m.listExpiredLocked now_ms address

end TimerManager

/-- A call of the public interface. Allocation chooses the addresses. -/
inductive TimerCall where
  | addTimer (ms : UInt64) (cb : Option Callback) (recurring : Bool) (address : ℕ)
  | addConditionTimer (ms : UInt64) (cb : Option ℕ) (weak_cond : ℕ) (recurring : Bool)
      (address : ℕ)
  | cancel (timer : TimerId)
  | refresh (timer : TimerId)
  | reset (timer : TimerId) (ms : UInt64) (from_now : Bool)
  | getNextTimer
  | hasTimer
  | listExpiredCb (address : ℕ)
  deriving DecidableEq, Repr

/-- What a call lets its caller, or the override of `onTimerInsertedAtFront`,
observe. -/
inductive TimerEvent where
  | added (timer : TimerId) (cb : Option Callback) (recurring : Bool)
  | insertedAtFront
  | cancelled (timer : TimerId)
  | asked (deadline : Option UInt64)
  | handedOut (cbs : List (TimerId × Option Callback))
  deriving DecidableEq, Repr

/-- A manager, the last clock reading, and what was observed so far, latest
first. -/
structure TimerSession where
  manager : TimerManager
  clock : UInt64
  history : List TimerEvent := []

namespace TimerSession

/-- A manager just constructed at this clock reading. -/
def initial (now : UInt64) : TimerSession := { manager := .initial now, clock := now }

/-- The override runs when `addTimer` found the timer at the front. -/
def notify (at_front : Bool) (history : List TimerEvent) : List TimerEvent :=
  if at_front then .insertedAtFront :: history else history

/-- An address that no timer in the set occupies. -/
def Unoccupied (m : TimerManager) (address : ℕ) : Prop :=
  ∀ t ∈ m.timers, (m.heap t).address ≠ address

instance (m : TimerManager) (address : ℕ) : Decidable (Unoccupied m address) :=
  inferInstanceAs (Decidable (∀ t ∈ m.timers, (m.heap t).address ≠ address))

/-- One call at one clock reading. A timer operation needs a handle, and the
allocator never hands out an address in use. -/
def step (s : TimerSession) : UInt64 × TimerCall → Option TimerSession
  | (now, .addTimer ms cb recurring address) =>
    if Unoccupied s.manager address then
      let (m, timer, at_front) := s.manager.addTimer now ms cb recurring address
      some ⟨m, now, notify at_front (.added timer cb recurring :: s.history)⟩
    else none
  | (now, .addConditionTimer ms cb weak_cond recurring address) =>
    if Unoccupied s.manager address then
      let (m, timer, at_front) :=
        s.manager.addConditionTimer now ms cb weak_cond recurring address
      some ⟨m, now, notify at_front
        (.added timer (some (.onTimer weak_cond cb)) recurring :: s.history)⟩
    else none
  | (now, .cancel timer) =>
    if timer < s.manager.constructed then
      match s.manager.cancel timer with
      | none => none
      | some (m, done) =>
        some ⟨m, now, if done then .cancelled timer :: s.history else s.history⟩
    else none
  | (now, .refresh timer) =>
    if timer < s.manager.constructed then some ⟨(s.manager.refresh timer now).1, now, s.history⟩
    else none
  | (now, .reset timer ms from_now) =>
    if timer < s.manager.constructed then
      let (m, at_front, _) := s.manager.reset timer ms from_now now
      some ⟨m, now, notify at_front s.history⟩
    else none
  | (now, .getNextTimer) =>
    let deadline := s.manager.timers.head?.map fun t => (s.manager.heap t).next
    some ⟨(s.manager.getNextTimer now).1, now, .asked deadline :: s.history⟩
  | (now, .hasTimer) => some { s with clock := now }
  | (now, .listExpiredCb address) =>
    let (m, cbs) := s.manager.listExpiredCb now address
    some ⟨m, now, .handedOut cbs :: s.history⟩

end TimerSession
end Synergy
