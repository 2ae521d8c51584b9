import Mathlib.Data.Nat.Notation
import Synergy.Runs
import Synergy.Scheduler

/-! `Thread` of `common/thread.cc`: an object, the thread that owns it and the
thread that it starts. One step is one line of the constructor, of `join`, of the
destructor or of `Thread::run`. `run` reads and writes the object until it notifies
the constructor, which waits for that; from there on only the callback gets at it,
through `SetName` and `GetThis`, whose pointer is never cleared. -/
namespace Synergy

/-- A `std::string`. -/
abbrev Name := List UInt8

/-- `"UNKONW"`. -/
def unkonw : Name := [85, 78, 75, 79, 78, 87]

/-- Where the started thread is in `Thread::run`. -/
inductive ChildPc where
  | unborn
  | setThread
  | setThreadName
  | setId
  | setNp
  | swap
  | notify
  | call
  | calling
  | done
  deriving DecidableEq, Repr

/-- Behind the notification. -/
def ChildPc.notified : ChildPc → Bool
  | .call | .calling | .done => true
  | _ => false

/-- Where the owner is; `failed` is the exception of the constructor. -/
inductive HolderPc where
  | creating
  | waiting
  | holding
  | joining
  | failed
  | gone
  deriving DecidableEq, Repr

/-- What the kernel has of the started thread. -/
inductive Handle where
  | absent
  | joinable
  | joined
  | detached
  deriving DecidableEq, Repr

/-- A use of the object on the started thread: by `run` or by the callback, and
whether it was alive. -/
structure Access where
  byRun : Bool
  alive : Bool
  deriving DecidableEq, Repr

/-- `Thread`, with its started thread: the thread-local pointers, the name that
the kernel shows and the local `cb` of `run`. The uses of the object on that
thread, the calls of `cb` and the releases of the handle are history. -/
structure Thread where
  alive : Bool := true
  m_id : ℤ := -1
  m_thread : Bool := false
  m_cb : Option CallbackId
  m_name : Name
  m_semaphore : ℕ := 0
  holder : HolderPc := .creating
  handle : Handle := .absent
  child : ChildPc := .unborn
  t_thread : Bool := false
  t_thread_name : Name := unkonw
  kernel_name : Name := []
  cb : Option CallbackId := none
  accesses : List Access := []
  called : List CallbackId := []
  released : ℕ := 0
  deriving DecidableEq, Repr

namespace Thread

/-- The member initializers of `Thread::Thread` and the test behind them. -/
def initial (cb : CallbackId) (name : Name) : Thread :=
  { m_cb := some cb, m_name := if name = [] then unkonw else name }

/-- The started thread uses the object. -/
@[simp] def access (s : Thread) (byRun : Bool) : Thread :=
  { s with accesses := ⟨byRun, s.alive⟩ :: s.accesses }

/-- `pthread_create`, which may fail. -/
def create (s : Thread) (ok : Bool) : Thread :=
  if ok then
    { s with m_thread := true, handle := .joinable, child := .setThread, holder := .waiting }
  else { s with alive := false, holder := .failed }

/-- `Thread::join`, up to the wait of `pthread_join`. -/
def join (s : Thread) : Thread := if s.m_thread then { s with holder := .joining } else s

/-- `Thread::~Thread`. -/
def destroy (s : Thread) : Thread :=
  if s.m_thread then
    { s with handle := .detached, released := s.released + 1, alive := false, holder := .gone }
  else { s with alive := false, holder := .gone }

/-- `Thread::SetName` on the started thread. -/
def setName (s : Thread) (name : Name) : Thread :=
  if name = [] then s
  else if s.t_thread then { s.access false with m_name := name, t_thread_name := name }
  else { s with t_thread_name := name }

/-- `Thread::GetThis()` on the started thread, and a read of the object that it
points to: `getId` or `getName`. -/
def getThis (s : Thread) : Thread := if s.t_thread then s.access false else s

/-- The next line of `Thread::run`, on the thread that the kernel calls `tid`. -/
def childStep (tid : ℤ) (s : Thread) : Option Thread :=
  match s.child with
  | .setThread => some { s with t_thread := true, child := .setThreadName }
  | .setThreadName => some { s.access true with t_thread_name := s.m_name, child := .setId }
  | .setId => some { s.access true with m_id := tid, child := .setNp }
  | .setNp => some { s.access true with kernel_name := s.m_name.take 15, child := .swap }
  | .swap => some { s.access true with cb := s.m_cb, m_cb := none, child := .notify }
  | .notify => some { s.access true with m_semaphore := s.m_semaphore + 1, child := .call }
  | .call => some { s with child := .calling, called := s.cb.toList ++ s.called }
  | _ => none

inductive Action where
  | create (ok : Bool)
  | wait
  | join
  | joined
  | destroy
  | child
  | setName (name : Name)
  | getThis
  | finish
  deriving DecidableEq, Repr

/-- `setName`, `getThis` and `finish` are what the callback does. -/
def step (tid : ℤ) (s : Thread) : Action → Option Thread
  | .create ok => if s.holder = .creating then some (s.create ok) else none
  | .wait =>
    if s.holder = .waiting ∧ 0 < s.m_semaphore then
      some { s with m_semaphore := s.m_semaphore - 1, holder := .holding }
    else none
  | .join => if s.holder = .holding then some s.join else none
  | .joined =>
    -- `pthread_join` comes back when the callback has
    if s.holder = .joining ∧ s.handle = .joinable ∧ s.child = .done then
      some { s with
        handle := .joined, released := s.released + 1, m_thread := false, holder := .holding }
    else none
  | .destroy => if s.holder = .holding then some s.destroy else none
  | .child => childStep tid s
  | .setName name => if s.child = .calling then some (s.setName name) else none
  | .getThis => if s.child = .calling then some s.getThis else none
  | .finish => if s.child = .calling then some { s with child := .done } else none

/-- The name that the constructor settles on. -/
def given (name : Name) : Name := if name = [] then unkonw else name

/-- What the owner can rely on at each place. -/
def HolderLaw (s : Thread) : Prop :=
  match s.holder with
  | .creating => s.alive = true ∧ s.handle = .absent ∧ s.child = .unborn
  | .failed => s.alive = false ∧ s.handle = .absent ∧ s.child = .unborn
  | .waiting => s.alive = true ∧ s.handle = .joinable ∧ s.child ≠ .unborn
  | .joining => s.alive = true ∧ s.handle = .joinable ∧ s.child.notified = true
  | .holding =>
    s.alive = true ∧ (s.handle = .joinable ∨ s.handle = .joined ∧ s.child = .done) ∧
      s.child.notified = true
  | .gone =>
    s.alive = false ∧ (s.handle = .detached ∨ s.handle = .joined ∧ s.child = .done) ∧
      s.child.notified = true

/-- Before the notification the constructor waits. -/
def Unnotified (name : Name) (s : Thread) : Prop :=
  s.holder = .waiting ∧ s.m_semaphore = 0 ∧ s.called = [] ∧ s.m_name = given name

/-- What the started thread has taken over by the notification. -/
def TakenOver (tid : ℤ) (callback : CallbackId) (name : Name) (s : Thread) : Prop :=
  s.m_semaphore = (if s.holder = .waiting then 1 else 0) ∧ s.m_cb = none ∧
    s.cb = some callback ∧ s.t_thread = true ∧ s.m_id = tid ∧
    s.kernel_name = (given name).take 15 ∧ s.m_name ≠ [] ∧
    (s.alive = true → s.t_thread_name = s.m_name)

/-- What the started thread has done at each place. -/
def ChildLaw (tid : ℤ) (callback : CallbackId) (name : Name) (s : Thread) : Prop :=
  match s.child with
  | .unborn => s.m_semaphore = 0 ∧ s.called = [] ∧ s.m_name = given name ∧ s.m_cb = some callback
  | .setThread => Unnotified name s ∧ s.m_cb = some callback
  | .setThreadName => Unnotified name s ∧ s.m_cb = some callback ∧ s.t_thread = true
  | .setId =>
    Unnotified name s ∧ s.m_cb = some callback ∧ s.t_thread = true ∧ s.t_thread_name = given name
  | .setNp =>
    Unnotified name s ∧ s.m_cb = some callback ∧ s.t_thread = true ∧
      s.t_thread_name = given name ∧ s.m_id = tid
  | .swap =>
    Unnotified name s ∧ s.m_cb = some callback ∧ s.t_thread = true ∧
      s.t_thread_name = given name ∧ s.m_id = tid ∧ s.kernel_name = (given name).take 15
  | .notify =>
    Unnotified name s ∧ s.m_cb = none ∧ s.cb = some callback ∧ s.t_thread = true ∧
      s.t_thread_name = given name ∧ s.m_id = tid ∧ s.kernel_name = (given name).take 15
  | .call => TakenOver tid callback name s ∧ s.called = []
  | .calling | .done => TakenOver tid callback name s ∧ s.called = [callback]

structure Law (tid : ℤ) (callback : CallbackId) (name : Name) (s : Thread) : Prop where
  holder : HolderLaw s
  child : ChildLaw tid callback name s
  pointer : s.holder ≠ .gone → (s.m_thread = true ↔ s.handle = .joinable)
  released : s.released = if s.handle = .joined ∨ s.handle = .detached then 1 else 0
  run_alive : ∀ access ∈ s.accesses, access.byRun = true → access.alive = true

variable {tid : ℤ} {callback : CallbackId} {name : Name} {s t : Thread}

theorem given_ne_nil (name : Name) : given name ≠ [] := by
  unfold given
  split
  · simp [unkonw]
  · assumption

theorem law_initial (tid : ℤ) (callback : CallbackId) (name : Name) :
    Law tid callback name (initial callback name) :=
  ⟨⟨rfl, rfl, rfl⟩, ⟨rfl, rfl, rfl, rfl⟩, by simp [initial], rfl, by simp [initial]⟩

theorem Law.takenOver (law : Law tid callback name s) (notified : s.child.notified = true) :
    TakenOver tid callback name s := by
  have child := law.child
  cases pc : s.child <;> simp only [ChildLaw, pc] at child <;>
    simp only [pc, ChildPc.notified, Bool.false_eq_true] at notified
  all_goals exact child.1

private theorem law_child (law : Law tid callback name s) (stepped : childStep tid s = some t) :
    Law tid callback name t := by
  obtain ⟨holder, child, pointer, released, run_alive⟩ := law
  unfold childStep at stepped
  split at stepped <;> cases stepped
  case h_7 pc =>
    -- the call of the callback, which the owner does not wait for
    simp only [ChildLaw, pc] at child
    refine ⟨?_, ?_, pointer, released, run_alive⟩
    · cases place : s.holder <;> simp_all [HolderLaw, ChildPc.notified]
    · simp_all [ChildLaw, TakenOver]
  all_goals
    rename_i pc
    simp only [ChildLaw, pc, Unnotified] at child
    obtain ⟨⟨waiting, rest⟩, more⟩ := child
    simp only [HolderLaw, waiting] at holder
    refine ⟨by simp [HolderLaw, waiting, holder], ?_, pointer, released, ?_⟩
    · simp_all [ChildLaw, TakenOver, Unnotified, given_ne_nil]
    · simp_all

private theorem law_create (law : Law tid callback name s) (creating : s.holder = .creating)
    (ok : Bool) : Law tid callback name (s.create ok) := by
  obtain ⟨holder, child, pointer, released, run_alive⟩ := law
  simp only [HolderLaw, creating] at holder
  obtain ⟨alive, handle, unborn⟩ := holder
  simp only [ChildLaw, unborn] at child
  unfold create
  cases ok with
  | true =>
    rw [if_pos rfl]
    refine ⟨by simp [HolderLaw, alive], ?_, by simp, by simpa [handle] using released, run_alive⟩
    simp [ChildLaw, Unnotified, child]
  | false =>
    rw [if_neg (by simp)]
    refine ⟨by simp [HolderLaw, handle, unborn], by simpa [ChildLaw, unborn] using child, ?_,
      released, run_alive⟩
    intro _
    exact pointer (by simp [creating])

/-- The semaphore is up behind the notification only. -/
private theorem notified_of_posted (law : Law tid callback name s) (waiting : s.holder = .waiting)
    (posted : 0 < s.m_semaphore) : s.child.notified = true := by
  have child := law.child
  have holder := law.holder
  simp only [HolderLaw, waiting] at holder
  cases pc : s.child with
  | call | calling | done => rfl
  | unborn => exact absurd pc holder.2.2
  | _ =>
    simp only [ChildLaw, pc, Unnotified] at child
    omega

/-- A step of the owner behind the notification, which changes what it waits for
and the handle. -/
private theorem law_owner {m_semaphore released : ℕ} {holder : HolderPc} {handle : Handle}
    {m_thread alive : Bool} (law : Law tid callback name s) (notified : s.child.notified = true)
    (there : HolderLaw { s with m_semaphore, released, holder, handle, m_thread, alive })
    (semaphore : m_semaphore = if holder = .waiting then 1 else 0)
    (lives : alive = true → s.alive = true)
    (pointer : holder ≠ .gone → (m_thread = true ↔ handle = .joinable))
    (once : released = if handle = .joined ∨ handle = .detached then 1 else 0) :
    Law tid callback name { s with m_semaphore, released, holder, handle, m_thread, alive } := by
  have child := law.child
  refine ⟨there, ?_, pointer, once, law.run_alive⟩
  cases pc : s.child <;> simp only [pc, ChildPc.notified, Bool.false_eq_true] at notified
  all_goals
    simp only [ChildLaw, pc, TakenOver] at child ⊢
    obtain ⟨⟨-, m_cb, cb, t_thread, m_id, kernel_name, named, same⟩, called⟩ := child
    exact ⟨⟨semaphore, m_cb, cb, t_thread, m_id, kernel_name, named, fun now => same (lives now)⟩,
      called⟩

private theorem law_wait (law : Law tid callback name s) (waiting : s.holder = .waiting)
    (posted : 0 < s.m_semaphore) :
    Law tid callback name { s with m_semaphore := s.m_semaphore - 1, holder := .holding } := by
  have notified := notified_of_posted law waiting posted
  have taken := law.takenOver notified
  have holder := law.holder
  simp only [HolderLaw, waiting] at holder
  refine law_owner law notified ⟨holder.1, .inl holder.2.1, notified⟩ ?_ id
    (fun _ => law.pointer (by simp [waiting])) law.released
  simp [taken.1, waiting]

private theorem law_join (law : Law tid callback name s) (holding : s.holder = .holding) :
    Law tid callback name s.join := by
  have holder := law.holder
  simp only [HolderLaw, holding] at holder
  obtain ⟨alive, handle, notified⟩ := holder
  have taken := law.takenOver notified
  unfold join
  split
  · rename_i pending
    have joinable := (law.pointer (by simp [holding])).mp pending
    refine law_owner law notified ⟨alive, joinable, notified⟩ ?_ id
      (fun _ => law.pointer (by simp [holding])) law.released
    simp [taken.1, holding]
  · exact law

private theorem law_joined (law : Law tid callback name s) (joining : s.holder = .joining)
    (joinable : s.handle = .joinable) (done : s.child = .done) :
    Law tid callback name { s with
      handle := .joined, released := s.released + 1, m_thread := false, holder := .holding } := by
  have holder := law.holder
  simp only [HolderLaw, joining] at holder
  have taken := law.takenOver holder.2.2
  refine law_owner law holder.2.2 ⟨holder.1, .inr ⟨rfl, done⟩, holder.2.2⟩ ?_ id (by simp)
    (by simp [law.released, joinable])
  simp [taken.1, joining]

private theorem law_destroy (law : Law tid callback name s) (holding : s.holder = .holding) :
    Law tid callback name s.destroy := by
  have holder := law.holder
  simp only [HolderLaw, holding] at holder
  obtain ⟨alive, handle, notified⟩ := holder
  have taken := law.takenOver notified
  have semaphore : s.m_semaphore = if HolderPc.gone = .waiting then 1 else 0 := by
    simp [taken.1, holding]
  unfold destroy
  split
  · rename_i pending
    have joinable := (law.pointer (by simp [holding])).mp pending
    exact law_owner law notified ⟨rfl, .inl rfl, notified⟩ semaphore nofun (by simp)
      (by simp [law.released, joinable])
  · rename_i none_pending
    have joined : s.handle = .joined ∧ s.child = .done := by
      rcases handle with joinable | joined
      · exact absurd ((law.pointer (by simp [holding])).mpr joinable) none_pending
      · exact joined
    exact law_owner law notified ⟨rfl, .inr joined, notified⟩ semaphore nofun (by simp)
      law.released

private theorem law_setName (law : Law tid callback name s) (calling : s.child = .calling)
    (new : Name) : Law tid callback name (s.setName new) := by
  obtain ⟨holder, child, pointer, released, run_alive⟩ := law
  simp only [ChildLaw, calling, TakenOver] at child
  unfold setName
  split
  · exact ⟨holder, by simpa [ChildLaw, calling, TakenOver] using child, pointer, released,
      run_alive⟩
  · rename_i named
    rw [if_pos child.1.2.2.2.1]
    refine ⟨holder, ?_, pointer, released, by simpa using run_alive⟩
    simp_all [ChildLaw, TakenOver]

private theorem law_getThis (law : Law tid callback name s) : Law tid callback name s.getThis := by
  unfold getThis
  split
  · exact ⟨law.holder, law.child, law.pointer, law.released, by simpa using law.run_alive⟩
  · exact law

private theorem law_finish (law : Law tid callback name s) (calling : s.child = .calling) :
    Law tid callback name { s with child := .done } := by
  obtain ⟨holder, child, pointer, released, run_alive⟩ := law
  refine ⟨?_, by simpa [ChildLaw, calling, TakenOver] using child, pointer, released, run_alive⟩
  cases pc : s.holder <;> simp_all [HolderLaw, ChildPc.notified]

theorem law_step {a : Action} (law : Law tid callback name s) (stepped : step tid s a = some t) :
    Law tid callback name t := by
  cases a with
  | child => exact law_child law stepped
  | create ok =>
    simp only [step] at stepped
    split at stepped <;> cases stepped
    exact law_create law ‹_› ok
  | wait =>
    simp only [step] at stepped
    split at stepped <;> cases stepped
    rename_i guard
    exact law_wait law guard.1 guard.2
  | join =>
    simp only [step] at stepped
    split at stepped <;> cases stepped
    exact law_join law ‹_›
  | joined =>
    simp only [step] at stepped
    split at stepped <;> cases stepped
    rename_i guard
    exact law_joined law guard.1 guard.2.1 guard.2.2
  | destroy =>
    simp only [step] at stepped
    split at stepped <;> cases stepped
    exact law_destroy law ‹_›
  | setName new =>
    simp only [step] at stepped
    split at stepped <;> cases stepped
    exact law_setName law ‹_› new
  | getThis =>
    simp only [step] at stepped
    split at stepped <;> cases stepped
    exact law_getThis law
  | finish =>
    simp only [step] at stepped
    split at stepped <;> cases stepped
    exact law_finish law ‹_›

theorem law_run {allowed : Thread → Action → Prop}
    (reached : Runs.Reaches (step tid) allowed (initial callback name) s) :
    Law tid callback name s :=
  reached.invariant (Law tid callback name) (law_initial tid callback name)
    fun _ _ _ law _ stepped => law_step law stepped

/-- What the owner gets from the constructor. -/
def HandedOver (tid : ℤ) (callback : CallbackId) (name : Name) (s : Thread) : Prop :=
  s.m_id = tid ∧ s.m_cb = none ∧ s.cb = some callback ∧ s.kernel_name = (given name).take 15

theorem Law.handedOver (law : Law tid callback name s)
    (back : s.holder = .holding ∨ s.holder = .joining ∨ s.holder = .gone) :
    HandedOver tid callback name s := by
  have notified : s.child.notified = true := by
    have holder := law.holder
    rcases back with pc | pc | pc <;> simp only [HolderLaw, pc] at holder <;> exact holder.2.2
  obtain ⟨-, m_cb, cb, -, m_id, kernel_name, -⟩ := law.takenOver notified
  exact ⟨m_id, m_cb, cb, kernel_name⟩

/-- The callback is called once, and by the time that the thread is in it. -/
theorem Law.called_once (law : Law tid callback name s) :
    s.called = if s.child = .calling ∨ s.child = .done then [callback] else [] := by
  have child := law.child
  cases pc : s.child <;> simp only [ChildLaw, pc, Unnotified] at child
  case unborn => simpa using child.2.1
  case call | calling | done => simpa using child.2
  all_goals simpa using child.1.2.2.1

/-- The handle is given back once the object is gone, and not before. -/
theorem Law.released_once (law : Law tid callback name s) :
    s.released ≤ 1 ∧ (s.holder = .gone → s.released = 1) := by
  rw [law.released]
  refine ⟨by split <;> omega, fun gone => ?_⟩
  have holder := law.holder
  simp only [HolderLaw, gone] at holder
  rcases holder.2.1 with detached | joined
  · simp [detached]
  · simp [joined.1]

theorem Law.joined_done (law : Law tid callback name s) (joined : s.handle = .joined) :
    s.child = .done := by
  have holder := law.holder
  cases pc : s.holder <;> simp only [HolderLaw, pc, joined] at holder <;> simp_all

/-- The constructor never waits in vain. -/
theorem Law.constructor_goes_on (law : Law tid callback name s) (waiting : s.holder = .waiting) :
    (step tid s .wait).isSome = true ∨ (step tid s .child).isSome = true := by
  have holder := law.holder
  simp only [HolderLaw, waiting] at holder
  by_cases notified : s.child.notified = true
  · have posted := (law.takenOver notified).1
    simp only [waiting, if_true] at posted
    exact .inl (by simp [step, waiting, posted])
  · cases pc : s.child with
    | unborn => exact absurd pc holder.2.2
    | call | calling | done => simp [pc, ChildPc.notified] at notified
    | _ => exact .inr (by simp [step, childStep, pc])

/-- The thread is started, joined and destroyed. -/
def startJoinDestroy : List Action :=
  [.create true] ++ List.replicate 6 .child ++
    [.wait, .join, .child, .finish, .joined, .destroy]

/-- Every use on the started thread found the object alive. -/
def Sound (s : Thread) : Prop := ∀ access ∈ s.accesses, access.alive = true

/-- The callback calls `SetName` with a name, and reads through `GetThis`, only
while the object lives. -/
def UsesAlive (s : Thread) : Action → Prop
  | .setName new => new = [] ∨ s.alive = true
  | .getThis => s.alive = true
  | _ => True

instance (s : Thread) : (a : Action) → Decidable (UsesAlive s a)
  | .setName new => inferInstanceAs (Decidable (new = [] ∨ s.alive = true))
  | .getThis => inferInstanceAs (Decidable (s.alive = true))
  | .create _ | .wait | .join | .joined | .destroy | .child | .finish => .isTrue trivial

/-- A line of `run` uses a living object, or none. -/
private theorem accesses_child (law : Law tid callback name s)
    (stepped : childStep tid s = some t) :
    t.accesses = s.accesses ∨ t.accesses = ⟨true, true⟩ :: s.accesses := by
  have later := (law_child law stepped).run_alive
  unfold childStep at stepped
  split at stepped <;> cases stepped
  case h_1 | h_7 => exact .inl rfl
  all_goals
    have alive := later _ List.mem_cons_self rfl
    exact .inr (by simpa using alive)

theorem sound_step {a : Action} (law : Law tid callback name s) (stepped : step tid s a = some t) :
    Sound t ↔ Sound s ∧ UsesAlive s a := by
  have same : t.accesses = s.accesses → UsesAlive s a → (Sound t ↔ Sound s ∧ UsesAlive s a) := by
    intro accesses names
    simp [Sound, accesses, names]
  cases a with
  | child =>
    rcases accesses_child law stepped with kept | more
    · exact same kept trivial
    · simp [Sound, more, UsesAlive]
  | setName new =>
    simp only [step] at stepped
    split at stepped <;> cases stepped
    rename_i calling
    have taken := law.takenOver (by simp [calling, ChildPc.notified])
    unfold setName
    by_cases unnamed : new = []
    · simp [unnamed, Sound, UsesAlive]
    · simp [unnamed, taken.2.2.2.1, Sound, UsesAlive, and_comm]
  | getThis =>
    simp only [step] at stepped
    split at stepped <;> cases stepped
    rename_i calling
    have taken := law.takenOver (by simp [calling, ChildPc.notified])
    simp [getThis, taken.2.2.2.1, Sound, UsesAlive, and_comm]
  | create ok =>
    simp only [step] at stepped
    split at stepped <;> cases stepped
    exact same (by unfold create; split <;> rfl) trivial
  | join =>
    simp only [step] at stepped
    split at stepped <;> cases stepped
    exact same (by unfold join; split <;> rfl) trivial
  | destroy =>
    simp only [step] at stepped
    split at stepped <;> cases stepped
    exact same (by unfold destroy; split <;> rfl) trivial
  | wait | joined | finish =>
    simp only [step] at stepped
    split at stepped <;> cases stepped
    exact same rfl trivial

/-- The owner lets go at once, and the thread reads its own name later. -/
def readLate : List Action :=
  [.create true] ++ List.replicate 7 .child ++ [.setName [80], .wait, .destroy, .getThis]

end Thread
end Synergy
