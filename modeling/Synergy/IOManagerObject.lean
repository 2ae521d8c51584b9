import Synergy.IOManagerPending
import Synergy.SchedulerShutdown

/-! The whole `IOManager`: the `Scheduler` that it inherits from and its own
members. In `synergy/Scheduler.h` neither `idle` nor `stopping` nor `tickle` is
virtual, so the inherited `run` binds `Scheduler::idle`, and that and the
inherited `stop` ask `Scheduler::stopping`. Nothing calls `IOManager::idle`, so
no step below waits for a report. -/
namespace Synergy

/-- Both parts of the object. `entered` is history: the threads that have been
inside `run`. -/
structure IOManager.Object where
  scheduler : Scheduler
  io : IOManager := {}
  entered : List ThreadId := []

/-- The scheduler of the object, as `Scheduler::GetThis()` names it. -/
def IOManager.self : SchedulerId := 0

namespace Scheduler

/-- What `triggerEvent` hands to this scheduler is scheduled on it. -/
def deliver (s : Scheduler) : List Handover → Scheduler
  | [] => s
  | h :: earlier =>
    let s := s.deliver earlier
    if h.scheduler = some IOManager.self then s.schedule h.task (-1) else s

/-- The thread runs code of the user: a task, or code outside `run` and `stop`. -/
def inUserCode (s : Scheduler) (thread : ThreadId) : Bool :=
  match (s.workers thread).pc with
  | .inside branch _ => branch != .idle
  | .outside => thread != s.caller || s.owner == .outside
  | .left => thread == s.caller && s.owner == .outside
  | _ => false

/-- What `GetThis()` answers on the thread. A task calls `addEvent` from its own
fiber; another thread has no fiber that this scheduler could run, so it names a
callback. -/
def answersTo (s : Scheduler) (thread : ThreadId) : FdCall → Bool
  | .addEvent _ cb scheduler piber =>
    if (s.insideTask thread).isSome then
      scheduler == some IOManager.self && piber == (s.workers thread).t_piber
    else cb.isSome || scheduler != some IOManager.self
  | _ => true

end Scheduler

namespace IOManager.Object

/-- `IOManager::stopping`. The class does not declare it and nothing calls it. -/
def stopping (m : Object) : Bool := m.io.pendingEventCount == 0 && m.scheduler.stopping

/-- `IOManager::IOManager(threads, use_caller, name)` up to its `start()`, which
is the first step. -/
def create (threads : UInt64) (use_caller : Bool) (caller : ThreadId) : Object where
  scheduler := Scheduler.initial threads use_caller caller

/-- A step of the scheduler or of the event registry. -/
inductive Action where
  | scheduler (action : Scheduler.Action)
  | io (action : IOManager.Action)
  deriving DecidableEq, Repr

/-- A thread that is in one of the four calls does nothing else. -/
def free (m : Object) : Scheduler.Action → Bool
  | .schedule worker _ _ => worker.all fun w => m.io.threads w == .free
  | .start ids => ids.all fun id => m.io.threads id == .free
  | .stop => m.io.threads m.scheduler.caller == .free
  | .yield w | .finish w => m.io.threads w == .free
  | _ => true

def mayCall (m : Object) : IOManager.Action → Bool
  | .call thread call _ => m.scheduler.inUserCode thread && m.scheduler.answersTo thread call
  | .wait .. => false
  | .next .. => true

def step (u : Undefined) (m : Object) : Action → Option Object
  | .scheduler a =>
    if m.free a then
      (m.scheduler.step a).map fun scheduler =>
        { m with scheduler, entered := m.scheduler.entering a ++ m.entered }
    else none
  | .io a =>
    if m.mayCall a then
      (m.io.step u a).map fun io =>
        { m with scheduler := m.scheduler.deliver io.handed, io := { io with handed := [] } }
    else none

end IOManager.Object

/-! What is handed over was put down by `addEvent`. -/

/-- A thread in the report loop of `IOManager::idle`. -/
def IoPc.isReport : IoPc → Bool
  | .reporting _ | .handling .. => true
  | _ => false

/-- The contexts that a statement is about to put down. -/
def Micro.deposits : Micro → List EventContext
  | .assign _ ctx => [ctx]
  | _ => []

/-- The contexts that a call of `addEvent` comes with. -/
def FdCall.deposits : FdCall → List EventContext
  | .addEvent _ cb scheduler piber => [FdCall.context cb scheduler piber]
  | _ => []

def IoPc.deposits : IoPc → List EventContext
  | .growing call _ | .locating call _ => call.deposits
  | _ => []

/-- The contexts of an fd, those included that are about to be put down. -/
def FdContext.deposits (c : FdContext) : List EventContext :=
  [c.read, c.write] ++ match c.mutex with
    | none => []
    | some held => held.rest.flatMap Micro.deposits

namespace IOManager

variable {u : Undefined} {m n : IOManager} {thread : ThreadId} {good : EventContext → Prop}

/-- Every context in the registry is good. -/
structure Deposits (good : EventContext → Prop) (m : IOManager) : Prop where
  threads : ∀ thread, ∀ ctx ∈ (m.threads thread).deposits, good ctx
  table : ∀ fd < m.table.size, ∀ ctx ∈ (m.table.slot fd).deposits, good ctx

theorem Deposits.weaken {better : EventContext → Prop} (deposits : Deposits better m)
    (weaker : ∀ ctx, better ctx → good ctx) : Deposits good m where
  threads thread ctx member := weaker ctx (deposits.threads thread ctx member)
  table fd inside ctx member := weaker ctx (deposits.table fd inside ctx member)

theorem deposits_decide {call : FdCall} {c : FdContext} {locked : LockedSection}
    (decided : call.decide c = some locked) :
    locked.rest.flatMap Micro.deposits = call.deposits := by
  cases call with
  | addEvent event cb scheduler piber =>
    cases decided
    rfl
  | delEvent event =>
    obtain ⟨-, rfl⟩ := FdContext.delEvent_registered decided
    rfl
  | cancelEvent event =>
    obtain ⟨-, rfl⟩ := FdContext.cancelEvent_registered decided
    rfl
  | cancelAll =>
    simp only [FdCall.decide, FdContext.cancelAll] at decided
    split at decided <;> cases decided
    rfl

theorem deposits_handle {c : FdContext} {report : EventMask} {locked : LockedSection}
    (decided : c.handle report = some locked) : locked.rest.flatMap Micro.deposits = [] := by
  unfold FdContext.handle at decided
  simp only at decided
  split at decided <;> cases decided
  simp only [List.flatMap_append, List.append_eq_nil_iff]
  constructor <;> split <;> rfl

theorem slot_cases (lawful : u.Lawful) (slot : Slot) : ∃ event, u.getEventContext event = slot := by
  cases slot with
  | read => exact ⟨.READ, lawful.read⟩
  | write => exact ⟨.WRITE, lawful.write⟩

theorem get_set (c : FdContext) (slot other : Slot) (ctx : EventContext) :
    (c.set slot ctx).get other = if other = slot then ctx else c.get other := by
  cases slot <;> cases other <;> rfl

/-- A statement leaves a context as it is, empties it or puts down its own. -/
theorem run_get (lawful : u.Lawful) (c : FdContext) (op : Micro) (slot : Slot) :
    (op.run u c).get slot = c.get slot ∨ (op.run u c).get slot = {} ∨
      (op.run u c).get slot ∈ op.deposits := by
  cases op with
  | trigger event =>
    obtain ⟨other, rfl⟩ := slot_cases lawful slot
    by_cases same : other = event
    · subst same
      exact .inr (.inl (lawful.trigger_empties c other))
    · exact .inl (lawful.trigger_spares c event other same)
  | assign event ctx =>
    simp only [Micro.run, get_set, Micro.deposits, List.mem_singleton]
    split
    · exact .inr (.inr rfl)
    · exact .inl rfl
  | resetContext event =>
    simp only [Micro.run, get_set]
    split
    · exact .inr (.inl (lawful.reset _))
    · exact .inl rfl
  | _ =>
    left
    cases slot <;> rfl

theorem mem_deposits {c : FdContext} {ctx : EventContext} :
    ctx ∈ c.deposits ↔ (∃ slot, ctx = c.get slot) ∨
      ∃ held, c.mutex = some held ∧ ctx ∈ held.rest.flatMap Micro.deposits := by
  have slots : (∃ slot, ctx = c.get slot) ↔ ctx = c.read ∨ ctx = c.write := by
    constructor
    · rintro ⟨slot, same⟩
      cases slot with
      | read => exact .inl same
      | write => exact .inr same
    · rintro (same | same)
      · exact ⟨.read, same⟩
      · exact ⟨.write, same⟩
  rw [slots]
  unfold FdContext.deposits
  cases held : c.mutex <;> simp [or_assoc]

theorem Deposits.slots (deposits : Deposits good m) {fd : ℕ} (inside : fd < m.table.size)
    (slot : Slot) : good ((m.table.slot fd).get slot) :=
  deposits.table fd inside _ (mem_deposits.mpr (.inl ⟨slot, rfl⟩))

theorem Deposits.pending (deposits : Deposits good m) {fd : ℕ} {held : Held}
    (inside : fd < m.table.size) (locked : (m.table.slot fd).mutex = some held) :
    ∀ ctx ∈ held.rest.flatMap Micro.deposits, good ctx := fun ctx member =>
  deposits.table fd inside ctx (mem_deposits.mpr (.inr ⟨held, locked, member⟩))

private theorem good_of_parts {c : FdContext} {mutex : Option Held}
    (slots : ∀ slot, good (c.get slot))
    (pending : ∀ held, mutex = some held → ∀ ctx ∈ held.rest.flatMap Micro.deposits, good ctx) :
    ∀ ctx ∈ ({ c with mutex } : FdContext).deposits, good ctx := by
  intro ctx member
  rcases mem_deposits.mp member with ⟨slot, rfl⟩ | ⟨held, locked, later⟩
  · cases slot
    · exact slots .read
    · exact slots .write
  · exact pending held locked ctx later

private theorem Deposits.goto (deposits : Deposits good m) {pc : IoPc}
    (here : ∀ ctx ∈ pc.deposits, good ctx) : Deposits good (m.goto thread pc) where
  threads other ctx member := by
    by_cases same : other = thread
    · subst same
      exact here ctx (by simpa using member)
    · exact deposits.threads other ctx (by simpa [Function.update_of_ne same] using member)
  table := deposits.table

private theorem Deposits.store (deposits : Deposits good m) {fd : ℕ} {c : FdContext}
    (table : n.table = { m.table with slot := Function.update m.table.slot fd c })
    (threads : n.threads = m.threads) (here : ∀ ctx ∈ c.deposits, good ctx) :
    Deposits good n where
  threads := by
    rw [threads]
    exact deposits.threads
  table other inside ctx member := by
    rw [table] at inside member
    by_cases same : other = fd
    · subst same
      exact here ctx (by simpa using member)
    · exact deposits.table other inside ctx (by simpa [Function.update_of_ne same] using member)

private theorem Deposits.grow (lawful : u.Lawful) (deposits : Deposits good m) (empty : good {})
    (size : ℕ) : Deposits good { m with table := u.contextResize m.table size } where
  threads := deposits.threads
  table fd inside ctx member := by
    rw [lawful.resize_size] at inside
    by_cases old : fd < m.table.size
    · rw [lawful.resize_old _ _ _ old] at member
      exact deposits.table fd old ctx member
    · rw [lawful.resize_new _ _ _ (by omega) (by omega)] at member
      have blank : ctx = {} := by simpa [FdContext.deposits] using member
      rw [blank]
      exact empty

theorem deposits_move {a : Action} (lawful : u.Lawful) (placed : Placed m) (empty : good {})
    (deposits : Deposits good m)
    (filed : ∀ thread call fd, a = .call thread call fd → ∀ ctx ∈ call.deposits, good ctx)
    (moved : Move u m a n) : Deposits good n := by
  cases moved with
  | located | mustGrow => exact deposits.goto (filed _ _ _ rfl)
  | missed | waited | refusedCall | refusedReport | drained | done =>
    exact deposits.goto (by simp [IoPc.deposits])
  | @grew thread call fd ok pc inside =>
    have waiting := deposits.threads thread
    rw [pc] at waiting
    exact (deposits.grow lawful empty _).goto waiting
  | @lockedCall thread call fd locked watched pc unheld decided kernel =>
    have inside := placed.located thread fd (by simp [pc, IoPc.fds])
    have waiting := deposits.threads thread
    rw [pc] at waiting
    have held : Deposits good ({ m with interest := watched }.store fd { m.table.slot fd with
        mutex := some ⟨thread, locked.rest⟩ }) := by
      refine deposits.store rfl rfl (good_of_parts (deposits.slots inside) fun held same => ?_)
      cases same
      rw [deposits_decide decided]
      exact waiting
    exact held.goto (by simp [IoPc.deposits])
  | @lockedReport thread fd events reports locked watched pc unheld decided kernel =>
    have inside := placed.located thread fd (by simp [pc, IoPc.fds, Report.fd])
    have held : Deposits good ({ m with interest := watched }.store fd { m.table.slot fd with
        mutex := some ⟨thread, locked.rest⟩ }) := by
      refine deposits.store rfl rfl (good_of_parts (deposits.slots inside) fun held same => ?_)
      cases same
      simp [deposits_handle decided]
    exact held.goto (by simp [IoPc.deposits])
  | @unlocked thread fd after ok inside held =>
    have within := placed.inside inside
    have freed : Deposits good (m.store fd { m.table.slot fd with mutex := none }) :=
      deposits.store rfl rfl (good_of_parts (deposits.slots within) (by simp))
    refine freed.goto ?_
    cases inside <;> simp [IoPc.deposits]
  | @expanded thread fd after event rest ok inside held =>
    have within := placed.inside inside
    have later := deposits.pending within held
    refine deposits.store rfl rfl (good_of_parts (deposits.slots within) fun holder same => ?_)
    cases same
    intro ctx member
    apply later ctx
    split at member <;> simpa [Micro.deposits] using member
  | @executed thread fd after op rest ok inside held plain =>
    have within := placed.inside inside
    have later := deposits.pending within held
    refine deposits.store rfl rfl (good_of_parts (fun slot => ?_) fun holder same => ?_)
    · rcases run_get lawful (m.table.slot fd) op slot with same | cleared | put
      · rw [same]
        exact deposits.slots within slot
      · rw [cleared]
        exact empty
      · exact later _ (List.mem_flatMap.mpr ⟨op, List.mem_cons_self, put⟩)
    · cases same
      intro ctx member
      obtain ⟨other, listed, put⟩ := List.mem_flatMap.mp member
      exact later ctx (List.mem_flatMap.mpr ⟨other, List.mem_cons_of_mem _ listed, put⟩)

/-- What a step hands over was put down in the registry. -/
theorem handed_move {a : Action} (lawful : u.Lawful) (placed : Placed m)
    (deposits : Deposits good m) (moved : Move u m a n) :
    ∀ h ∈ n.handed, h ∈ m.handed ∨ ∃ ctx, good ctx ∧ h = ctx.handover := by
  intro h member
  cases moved with
  | @executed thread fd after op rest ok inside held plain =>
    rcases List.mem_append.mp member with now | before
    · cases op with
      | trigger event =>
        simp only [Micro.handed, lawful.trigger_hands, Option.toList_some,
          List.mem_singleton] at now
        exact .inr ⟨_, deposits.slots (placed.inside inside) _, now⟩
      | _ => cases now
    · exact .inl before
  | _ => exact .inl member

private theorem noReport_goto {pc : IoPc} (here : pc.isReport = false)
    (calls : ∀ thread, (m.threads thread).isReport = false) (other : ThreadId) :
    (Function.update m.threads thread pc other).isReport = false := by
  by_cases same : other = thread
  · subst same
    rwa [Function.update_self]
  · rw [Function.update_of_ne same]
    exact calls other

theorem noReport_move {a : Action} (calls : ∀ thread, (m.threads thread).isReport = false)
    (unwaited : ∀ thread reports, a ≠ .wait thread reports) (moved : Move u m a n) :
    ∀ thread, (n.threads thread).isReport = false := by
  cases moved with
  | waited => exact absurd rfl (unwaited _ _)
  | @lockedReport thread fd events reports locked watched pc =>
    simpa [pc, IoPc.isReport] using calls thread
  | @refusedReport thread fd events reports ok pc =>
    simpa [pc, IoPc.isReport] using calls thread
  | @drained thread reports ok pc => simpa [pc, IoPc.isReport] using calls thread
  | @unlocked thread fd after ok inside held =>
    refine noReport_goto ?_ calls
    cases inside with
    | call pc => rfl
    | report pc => simpa [pc, IoPc.isReport] using calls thread
  | expanded | executed => exact calls
  | _ => exact noReport_goto rfl calls

end IOManager

namespace Scheduler

variable {s t : Scheduler}

theorem Grown.userPiber (grown : Grown s t) {fc : FiberOrCb} (held : s.userPiber fc = true) :
    t.userPiber fc = true := by
  cases fc with
  | cb f => rfl
  | piber p =>
    cases p with
    | none => rfl
    | some p =>
      simp only [Scheduler.userPiber, Bool.and_eq_true, decide_eq_true_eq, beq_iff_eq] at held ⊢
      exact ⟨Nat.lt_of_lt_of_le held.1 grown.created, (grown.roles p held.1).trans held.2⟩

/-- A context holds a callback or a task fiber, or is not for this scheduler. -/
def Runnable (s : Scheduler) (ctx : EventContext) : Prop :=
  ctx.scheduler = some IOManager.self → s.userPiber ctx.handover.task = true

theorem schedule_frame (s : Scheduler) (fc : FiberOrCb) (thread : ℤ) :
    ∃ tasks accepted, s.schedule fc thread = { s with tasks, accepted } := by
  unfold schedule scheduleNoLock
  by_cases set : (ScheduleTask.make fc thread).isSet
  · exact ⟨_, _, by simp only [set, if_true, tickle_eq, ite_self]; rfl⟩
  · exact ⟨s.tasks, s.accepted, by simp [set]⟩

/-- Delivery adds to the queue and changes nothing else. -/
theorem deliver_frame (s : Scheduler) (handed : List Handover) :
    ∃ tasks accepted, s.deliver handed = { s with tasks, accepted } := by
  induction handed with
  | nil => exact ⟨s.tasks, s.accepted, rfl⟩
  | cons h earlier ih =>
    obtain ⟨tasks, accepted, same⟩ := ih
    simp only [deliver, same]
    split
    · obtain ⟨tasks', accepted', again⟩ := schedule_frame { s with tasks, accepted } h.task (-1)
      exact ⟨tasks', accepted', again⟩
    · exact ⟨tasks, accepted, rfl⟩

/-- A call of `schedule` by nobody in particular. -/
def OnlySchedules (_ : Scheduler) (a : Action) : Prop := ∃ fc, a = .schedule none fc (-1)

/-- Delivery is a run of such calls. -/
theorem reaches_deliver {handed : List Handover}
    (runnable : ∀ h ∈ handed, h.scheduler = some IOManager.self → s.userPiber h.task = true) :
    Runs.Reaches step OnlySchedules s (s.deliver handed) := by
  induction handed with
  | nil => exact .refl
  | cons h earlier ih =>
    have before := ih fun other member => runnable other (List.mem_cons_of_mem _ member)
    obtain ⟨tasks, accepted, same⟩ := deliver_frame s earlier
    simp only [deliver]
    split
    · have held : (s.deliver earlier).userPiber h.task = true := by
        rw [same]
        exact runnable h List.mem_cons_self ‹_›
      exact .next before ⟨h.task, rfl⟩ (by simp [step, held])
    · exact before

/-- What a call of `addEvent` comes with can be run by this scheduler, or is not
for it. -/
theorem runnable_deposits {thread : ThreadId} {call : FdCall} (owned : Ownership s)
    (answers : s.answersTo thread call = true) : ∀ ctx ∈ call.deposits, s.Runnable ctx := by
  intro ctx member
  cases call with
  | addEvent event cb scheduler piber =>
    cases List.mem_singleton.mp member
    intro ours
    by_cases callback : cb.isSome = true
    · simp [FdCall.context, callback, EventContext.handover, userPiber]
    · simp only [FdCall.context, callback, EventContext.handover] at ours ⊢
      simp only [answersTo] at answers
      split at answers
      · rename_i in_task
        obtain ⟨⟨branch, p⟩, found⟩ := Option.isSome_iff_exists.mp in_task
        obtain ⟨pc, busy⟩ := insideTask_some found
        have owns := owned.workers thread
        simp only [Owns, pc] at owns
        obtain ⟨_, ⟨_, _, task⟩, current⟩ := owns
        simp only [Bool.and_eq_true, beq_iff_eq] at answers
        rw [answers.2, current]
        simpa [userPiber, IsTask] using task busy
      · simp [callback] at answers
        exact absurd ours answers
  | _ => cases member

end Scheduler

namespace IOManager.Object

variable {u : Undefined} {m n : Object}

/-- One step, by the part that takes it. -/
inductive Move (u : Undefined) (m : Object) : Action → Object → Prop where
  | scheduler (moved : Scheduler.Move m.scheduler b t) :
      Move u m (.scheduler b) { m with
        scheduler := t, entered := m.scheduler.entering b ++ m.entered }
  | io (allowed : m.mayCall b = true) (moved : IOManager.Move u m.io b registry) :
      Move u m (.io b) { m with
        scheduler := m.scheduler.deliver registry.handed, io := { registry with handed := [] } }

theorem move_of_step {a : Action} (stepped : step u m a = some n) : Move u m a n := by
  cases a with
  | scheduler b =>
    simp only [step] at stepped
    split at stepped
    · obtain ⟨t, taken, rfl⟩ := Option.map_eq_some_iff.mp stepped
      exact .scheduler (Scheduler.move_of_step taken)
    · cases stepped
  | io b =>
    simp only [step] at stepped
    split at stepped
    · rename_i allowed
      obtain ⟨io, taken, rfl⟩ := Option.map_eq_some_iff.mp stepped
      exact .io allowed (IOManager.move_of_step taken)
    · cases stepped

/-- What every step keeps where `addEvent` is for new events. -/
structure Kept (m : Object) : Prop where
  settled : Scheduler.Settled m.scheduler
  entered : ∀ w, w ∉ m.entered → (m.scheduler.workers w).pc = .outside
  deposits : Deposits m.scheduler.Runnable m.io
  counted : PendingLaw 0 m.io
  calls : ∀ thread, (m.io.threads thread).isReport = false
  handed : m.io.handed = []

theorem kept_create (threads : UInt64) (use_caller : Bool) (caller : ThreadId) :
    Kept (create threads use_caller caller) where
  settled := Scheduler.settled_initial _ _ _
  entered w _ := Scheduler.outside_initial _ _ _ w
  deposits := ⟨by simp [create, IoPc.deposits], by simp [create]⟩
  counted := pendingLaw_initial
  calls _ := rfl
  handed := rfl

private theorem reports_fit {a : IOManager.Action}
    (calls : ∀ thread, (m.io.threads thread).isReport = false) : ReportsFit m.io a := by
  unfold ReportsFit
  split
  · rename_i thread
    split
    · rename_i pc
      simpa [pc, IoPc.isReport] using calls thread
    · trivial
  · trivial

/-- The caller's duty in a call of `addEvent`. -/
def AddsNew (m : Object) : Action → Prop
  | .io a => IOManager.AddsNew m.io a
  | .scheduler _ => True

/-- What a call hands over can be run by the scheduler that it is for. -/
theorem Kept.runnable {b : IOManager.Action} {registry : IOManager} (lawful : u.Lawful)
    (kept : Kept m) (moved : IOManager.Move u m.io b registry) :
    ∀ h ∈ registry.handed, h.scheduler = some self → m.scheduler.userPiber h.task = true := by
  intro h member ours
  rcases handed_move lawful kept.counted.placed kept.deposits moved h member with
    old | ⟨ctx, good, rfl⟩
  · simp [kept.handed] at old
  · exact good ours

theorem kept_move {a : Action} (lawful : u.Lawful) (kept : Kept m) (adds_new : AddsNew m a)
    (moved : Move u m a n) : Kept n := by
  cases moved with
  | @scheduler b t moved =>
    have grown := Scheduler.grown_move moved
    refine ⟨⟨Scheduler.ownership_move kept.settled.owned moved,
        Scheduler.counted_move kept.settled.owned kept.settled.counted moved⟩, fun w out => ?_,
      kept.deposits.weaken fun ctx runnable ours => grown.userPiber (runnable ours),
      kept.counted, kept.calls, kept.handed⟩
    obtain ⟨fresh, before⟩ := not_or.mp (List.mem_append.not.mp out)
    exact Scheduler.outside_move moved (kept.entered w before) fresh
  | @io b registry allowed moved =>
    obtain ⟨next, _, same, law⟩ :=
      pendingLaw_move lawful kept.counted (reports_fit kept.calls) moved
    rw [same adds_new] at law
    have filed : ∀ thread call fd, b = .call thread call fd →
        ∀ ctx ∈ call.deposits, m.scheduler.Runnable ctx := by
      rintro thread call fd rfl
      simp only [mayCall, Bool.and_eq_true] at allowed
      exact Scheduler.runnable_deposits kept.settled.owned allowed.2
    have unwaited : ∀ thread reports, b ≠ .wait thread reports := by
      rintro thread reports rfl
      cases allowed
    have blank : m.scheduler.Runnable {} := fun ours => by cases ours
    have calls := noReport_move kept.calls unwaited moved
    have deposits := deposits_move lawful kept.counted.placed blank kept.deposits filed moved
    obtain ⟨tasks, accepted, same⟩ := Scheduler.deliver_frame m.scheduler registry.handed
    have settled := Scheduler.settled_run kept.settled
      (Scheduler.reaches_deliver (kept.runnable lawful moved))
    rw [same] at settled ⊢
    exact ⟨settled, kept.entered, ⟨deposits.threads, deposits.table⟩,
      law.goto ⟨law.placed.located, law.placed.watched, law.placed.named⟩ rfl rfl rfl,
      calls, rfl⟩

end IOManager.Object
end Synergy
