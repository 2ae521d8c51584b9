import Mathlib.Algebra.BigOperators.Ring.Finset
import Synergy.SchedulerCurrent
import Synergy.SchedulerExclusion
import Synergy.SchedulerQueue
import Synergy.SharedPtr

/-! The lives of fibers. The variables of type `Piber::ptr` share them: members and
locals of the scheduler, the nodes of `m_tasks`, the local `cur` of `MainFunc`,
which lies on the stack of its own fiber, and the variables of the user. The
destructor of `Piber` frees that stack. A step is one of the scheduler, with what
it does to these variables; temporaries of one expression are left out. Where a
scan takes a fiber out of other hands its entry may be loaded twice, and `MainFunc`
constructs `cur` over the first one, which is never released; so the results are
about runs whose scans stay apart. -/
namespace Synergy
open SharedPtr

/-- The variables of type `Piber::ptr`; `node` is `it->piber` in the node of
`m_tasks` with this ticket. -/
inductive PiberPtr where
  | t_thread_piber (w : ThreadId)
  | m_rootPiber
  | task (w : ThreadId)
  | cb_piber (w : ThreadId)
  | idle_piber (w : ThreadId)
  | node (ticket : ℕ)
  | cur (p : PiberId)
  | user (i : ℕ)
  deriving DecidableEq, Repr

/-- Variables of the scheduler that belong to no thread or to another one. -/
def PiberPtr.Foreign (w : Option ThreadId) : PiberPtr → Prop
  | .t_thread_piber v | .task v | .cb_piber v | .idle_piber v => w ≠ some v
  | .m_rootPiber | .node _ => True
  | .cur _ | .user _ => False

/-- The scheduler and the control blocks of the fibers, with `s_piber_count`; `entry`
says that the context of the fiber is still the one that `makecontext` installed. -/
structure Lives where
  sched : Scheduler
  ptrs : Heap PiberPtr PiberId
  entry : PiberId → Bool := fun _ => true

namespace Lives

/-- `Scheduler::Scheduler`. -/
def initial (threads : UInt64) (use_caller : Bool) (caller : ThreadId) : Lives where
  sched := Scheduler.initial threads use_caller caller
  ptrs :=
    if use_caller then
      (({} : Heap PiberPtr PiberId).make (.t_thread_piber caller) 0).make .m_rootPiber 1
    else {}

/-- The end of `run`, and of a thread that was started for it. -/
def leave (k : Lives) (w : ThreadId) : Heap PiberPtr PiberId :=
  let ptrs := ((k.ptrs.reset (.task w)).reset (.cb_piber w)).reset (.idle_piber w)
  if (w : ℤ) ≠ k.sched.rootThread then ptrs.reset (.t_thread_piber w) else ptrs

/-- What the next line of `run`, or of the fiber it runs, does to the variables. -/
def workerPtrs (k : Lives) (w : ThreadId) : Heap PiberPtr PiberId :=
  let s := k.sched
  match (s.workers w).pc with
  | .entering =>
    if (w : ℤ) ≠ s.rootThread then
      (k.ptrs.make (.t_thread_piber w) s.created).make (.idle_piber w) (s.created + 1)
    else k.ptrs.make (.idle_piber w) s.created
  | .scanning =>
    let ptrs := k.ptrs.reset (.task w)
    match (Scheduler.scan s.runing w s.tasks).1 with
    | none => ptrs
    | some it => (ptrs.copy (.task w) (.node it.ticket)).reset (.node it.ticket)
  | .picked task =>
    match task.piber, task.cb with
    | some _, _ => k.ptrs
    | none, some _ =>
      match (s.workers w).cb_piber with
      | some _ => k.ptrs.reset (.task w)
      | none => (k.ptrs.make (.cb_piber w) s.created).reset (.task w)
    | none, none =>
      if (s.pibers (s.workers w).idle_piber).state = .TERM then k.leave w else k.ptrs
  | .switching _ p =>
    -- an entry leads to the first line of `MainFunc`, a second time as well
    if (s.pibers p).ctx = .body ∧ k.entry p = true then
      k.ptrs.construct (.cur p) (s.workers w).t_piber
    else k.ptrs
  | .ending _ p => k.ptrs.reset (.cur p)
  | .resumed .piber => k.ptrs.reset (.task w)
  | .resumed .cb => k.ptrs.reset (.cb_piber w)
  | _ => k.ptrs

/-- The contexts behind that line: `yield` saves over one, `reset` makes one. -/
def workerEntry (k : Lives) (w : ThreadId) : PiberId → Bool :=
  match (k.sched.workers w).pc with
  | .yielding _ p _ => Function.update k.entry p false
  | .picked task =>
    match task.piber, task.cb, (k.sched.workers w).cb_piber with
    | none, some _, some p => Function.update k.entry p true
    | _, _, _ => k.entry
  | _ => k.entry

/-- What the next line of `stop` does, and of `MainFunc` of the root. -/
def ownerPtrs (k : Lives) : Heap PiberPtr PiberId :=
  match k.sched.owner, k.sched.rootPiber with
  | .resumingRoot, some r =>
    if (k.sched.pibers r).ctx = .body then k.ptrs.construct (.cur r) r else k.ptrs
  | .inRoot, some r => k.ptrs.reset (.cur r)
  | _, _ => k.ptrs

/-- What `schedule` is given: a variable of the user or a callback. -/
inductive Argument where
  | user (i : ℕ)
  | cb (f : Option CallbackId)
  deriving DecidableEq, Repr

def Argument.value (ptrs : Heap PiberPtr PiberId) : Argument → FiberOrCb
  | .user i => .piber (ptrs.points (.user i))
  | .cb f => .cb f

/-- The node of the new task. -/
def Argument.push (ptrs : Heap PiberPtr PiberId) (ticket : ℕ) : Argument → Heap PiberPtr PiberId
  | .user i => ptrs.copy (.node ticket) (.user i)
  | .cb _ => ptrs.reset (.node ticket)

/-- The user makes, copies and drops pointers at any time, takes the one to the
current fiber in a task, and hands them to `schedule`. -/
inductive Action where
  | create (i : ℕ)
  | copy (i j : ℕ)
  | getThis (w : ThreadId) (i : ℕ)
  | drop (i : ℕ)
  | schedule (worker : Option ThreadId) (fc : Argument) (thread : ℤ)
  | start (ids : List ThreadId)
  | stop
  | owner
  | worker (w : ThreadId)
  | yield (w : ThreadId)
  | finish (w : ThreadId)
  deriving DecidableEq, Repr

def step (k : Lives) : Action → Option Lives
  | .create i =>
    (Scheduler.step k.sched .newPiber).map fun sched =>
      { k with sched, ptrs := k.ptrs.make (.user i) k.sched.created }
  | .copy i j => some { k with ptrs := k.ptrs.copy (.user i) (.user j) }
  | .getThis w i =>
    if (k.sched.insideTask w).isSome then
      some { k with ptrs := k.ptrs.assign (.user i) (k.sched.workers w).t_piber }
    else none
  | .drop i => some { k with ptrs := k.ptrs.reset (.user i) }
  | .schedule worker fc thread =>
    (Scheduler.step k.sched (.schedule worker (fc.value k.ptrs) thread)).map fun sched =>
      { k with
        sched
        ptrs :=
          if (ScheduleTask.make (fc.value k.ptrs) thread).isSet then
            fc.push k.ptrs k.sched.accepted.length
          else k.ptrs }
  | .start ids => (Scheduler.step k.sched (.start ids)).map fun sched => { k with sched }
  | .stop => (Scheduler.step k.sched .stop).map fun sched => { k with sched }
  | .owner =>
    (Scheduler.step k.sched .owner).map fun sched => { k with sched, ptrs := k.ownerPtrs }
  | .worker w =>
    (Scheduler.step k.sched (.worker w)).map fun sched =>
      { sched, ptrs := k.workerPtrs w, entry := k.workerEntry w }
  | .yield w => (Scheduler.step k.sched (.yield w)).map fun sched => { k with sched }
  | .finish w => (Scheduler.step k.sched (.finish w)).map fun sched => { k with sched }

/-- The step of the scheduler in it. -/
def Action.seen (ptrs : Heap PiberPtr PiberId) : Action → Option Scheduler.Action
  | .create _ => some .newPiber
  | .schedule who fc thread => some (.schedule who (fc.value ptrs) thread)
  | .start ids => some (.start ids)
  | .stop => some .stop
  | .owner => some .owner
  | .worker w => some (.worker w)
  | .yield w => some (.yield w)
  | .finish w => some (.finish w)
  | .copy _ _ | .getThis _ _ | .drop _ => none

/-- Scans take no fiber that some thread holds unmarked, so that no context is
loaded twice. -/
def ScansApart (k : Lives) (a : Action) : Prop :=
  ∀ b ∈ a.seen k.ptrs, Scheduler.ScansApart k.sched b

/-- The fibers whose members the next line of the thread reads or writes. -/
def touchedBy (s : Scheduler) (w : ThreadId) : List PiberId :=
  let x := s.workers w
  match x.pc with
  | .scanning => s.tasks.filterMap fun it => it.task.piber
  | .picked task => if task.isSet then x.cb_piber.toList else [x.idle_piber]
  | .resuming _ p | .ending _ p | .parting _ p _ => [p]
  | .switching _ p | .yielding _ p _ => p :: (s.home w x).toList
  | .inside _ _ => [x.t_piber]
  | _ => []

/-- The fibers whose members the step reads or writes. -/
def touches (s : Scheduler) : Action → List PiberId
  | .worker w | .yield w | .getThis w _ => touchedBy s w
  | .owner =>
    match s.owner, s.rootPiber with
    | .resumingRoot, some r | .inRoot, some r => [r, (s.workers s.caller).t_thread_piber]
    | _, _ => []
  | _ => []

/-- What a variable may point to, by what the fiber was constructed for. -/
def Fits (s : Scheduler) (p : PiberId) : PiberPtr → Prop
  | .t_thread_piber _ => s.roles p = .main
  | .m_rootPiber => s.roles p = .root
  | .task _ | .cb_piber _ | .node _ | .user _ => s.roles p = .task
  | .idle_piber w => s.roles p = .idle w
  | .cur q => p = q

/-- What `task` and `cb_piber` hold while a branch of `run` has a fiber in hand. -/
def InBranch (p : PiberId) (task cb idle : Option PiberId) : Branch → Prop
  | .piber => task = some p ∧ cb = none
  | .cb => task = none ∧ cb = some p
  | .idle => task = none ∧ cb = none ∧ idle = some p

/-- What the locals hold behind `resume`. -/
def Behind (task cb : Option PiberId) : Branch → Prop
  | .piber => cb = none
  | .cb => task = none
  | .idle => task = none ∧ cb = none

/-- What the locals of `run` hold at each place of the thread. -/
def Locals (x : Worker) (task cb idle : Option PiberId) : Prop :=
  match x.pc with
  | .outside | .entering | .left => task = none ∧ cb = none ∧ idle = none
  | .scanning => task = none ∧ cb = none ∧ idle = some x.idle_piber
  | .picked taken => task = taken.piber ∧ cb = none ∧ idle = some x.idle_piber
  | .resuming branch p | .switching branch p | .inside branch p | .ending branch p
  | .parting branch p _ | .yielding branch p _ =>
    InBranch p task cb idle branch ∧ idle = some x.idle_piber
  | .resumed branch => Behind task cb branch ∧ idle = some x.idle_piber
  | .lost _ => True

/-- The main fiber of a thread lives as long as the thread, and that of the
caller from the constructor on. -/
def Main (s : Scheduler) (w : ThreadId) (x : Worker) (main : Option PiberId) : Prop :=
  if (w : ℤ) = s.rootThread then main = some x.t_thread_piber
  else
    match x.pc with
    | .outside | .entering | .left => main = none
    | .lost _ => True
    | _ => main = some x.t_thread_piber

/-- The variables beside the scheduler whose steps they follow. -/
structure Holds (s : Scheduler) (points : PiberPtr → Option PiberId) : Prop where
  mode : s.rootThread = -1 ∧ s.rootPiber = none ∨ s.rootThread = s.caller
  fits : ∀ y p, points y = some p → p < s.created ∧ Fits s p y
  locals : ∀ w, Locals (s.workers w) (points (.task w)) (points (.cb_piber w))
    (points (.idle_piber w))
  main : ∀ w, Main s w (s.workers w) (points (.t_thread_piber w))
  root : points .m_rootPiber = s.rootPiber
  queued : ∀ it ∈ s.tasks, points (.node it.ticket) = it.task.piber
  nodes : ∀ n p, points (.node n) = some p → ∃ it ∈ s.tasks, it.ticket = n

variable {s t : Scheduler} {w : ThreadId} {x : Worker} {f g : PiberPtr → Option PiberId}

theorem fits_grown (grown : Scheduler.Grown s t) {p : PiberId} {y : PiberPtr}
    (fits : p < s.created ∧ Fits s p y) : p < t.created ∧ Fits t p y := by
  have role := grown.roles p fits.1
  refine ⟨Nat.lt_of_lt_of_le fits.1 grown.created, ?_⟩
  cases y <;> simp only [Fits, role] at fits ⊢ <;> exact fits.2

private theorem of_update {y z : PiberPtr} {p : PiberId} {now : Option PiberId}
    (found : Function.update f z now y = some p) : f y = some p ∨ y = z ∧ now = some p := by
  by_cases same : y = z
  · subst y
    rw [Function.update_self] at found
    exact .inr ⟨rfl, found⟩
  · rw [Function.update_of_ne same] at found
    exact .inl found

private theorem foreign_update {u : Option ThreadId} {y z : PiberPtr} {now : Option PiberId}
    (foreign : y.Foreign u) (own : ¬ z.Foreign u) : Function.update f z now y = f y :=
  Function.update_of_ne (fun same => own (by rwa [same] at foreign)) _ _

/-- What a step writes: no foreign variable, and only what fits. -/
structure Writes (t : Scheduler) (u : Option ThreadId) (f g : PiberPtr → Option PiberId) :
    Prop where
  apart : ∀ y, y.Foreign u → g y = f y
  fits : ∀ y p, g y = some p → f y = some p ∨ p < t.created ∧ Fits t p y

theorem writes_refl (t : Scheduler) (u : Option ThreadId) (f : PiberPtr → Option PiberId) :
    Writes t u f f := ⟨fun _ _ => rfl, fun _ _ => .inl⟩

theorem Writes.set {u : Option ThreadId} (writes : Writes t u f g) {z : PiberPtr}
    {now : Option PiberId} (own : ¬ z.Foreign u)
    (fits : ∀ p, now = some p → p < t.created ∧ Fits t p z) :
    Writes t u f (Function.update g z now) where
  apart y foreign := (foreign_update foreign own).trans (writes.apart y foreign)
  fits y p found := by
    rcases of_update found with old | ⟨rfl, same⟩
    · exact writes.fits y p old
    · exact .inr (fits p same)

theorem Writes.reset {u : Option ThreadId} (writes : Writes t u f g) {z : PiberPtr}
    (own : ¬ z.Foreign u) : Writes t u f (Function.update g z none) :=
  writes.set own (by simp)

/-- A step that leaves the threads and the queue alone. -/
private theorem Holds.no_worker (holds : Holds s f) (grown : Scheduler.Grown s t)
    (fixed : t.rootThread = s.rootThread ∧ t.rootPiber = s.rootPiber ∧ t.caller = s.caller)
    (workers : t.workers = s.workers) (tasks : t.tasks = s.tasks) (writes : Writes t none f g) :
    Holds t g where
  mode := by
    rw [fixed.1, fixed.2.1, fixed.2.2]
    exact holds.mode
  fits y p found := by
    rcases writes.fits y p found with old | new
    · exact fits_grown grown (holds.fits y p old)
    · exact new
  locals v := by
    rw [workers, writes.apart (.task v) (by simp [PiberPtr.Foreign]),
      writes.apart (.cb_piber v) (by simp [PiberPtr.Foreign]),
      writes.apart (.idle_piber v) (by simp [PiberPtr.Foreign])]
    exact holds.locals v
  main v := by
    rw [workers, writes.apart (.t_thread_piber v) (by simp [PiberPtr.Foreign])]
    have main := holds.main v
    simp only [Main, fixed.1] at main ⊢
    exact main
  root := by
    rw [writes.apart .m_rootPiber trivial, fixed.2.1]
    exact holds.root
  queued it member := by
    rw [writes.apart (.node it.ticket) trivial]
    exact holds.queued it (tasks ▸ member)
  nodes n p found := by
    rw [writes.apart (.node n) trivial] at found
    rw [tasks]
    exact holds.nodes n p found

/-- A step of one thread. -/
private theorem Holds.thread (holds : Holds s f) (grown : Scheduler.Grown s t)
    (fixed : t.rootThread = s.rootThread ∧ t.rootPiber = s.rootPiber ∧ t.caller = s.caller)
    (workers : t.workers = Function.update s.workers w x)
    (apart : ∀ y, y.Foreign (some w) → (∀ n, y ≠ .node n) → g y = f y)
    (fits : ∀ y p, g y = some p → f y = some p ∨ p < t.created ∧ Fits t p y)
    (locals : Locals x (g (.task w)) (g (.cb_piber w)) (g (.idle_piber w)))
    (main : Main s w x (g (.t_thread_piber w)))
    (queued : ∀ it ∈ t.tasks, g (.node it.ticket) = it.task.piber)
    (nodes : ∀ n p, g (.node n) = some p → ∃ it ∈ t.tasks, it.ticket = n) : Holds t g where
  mode := by
    rw [fixed.1, fixed.2.1, fixed.2.2]
    exact holds.mode
  fits y p found := by
    rcases fits y p found with old | new
    · exact fits_grown grown (holds.fits y p old)
    · exact new
  locals v := by
    rw [workers]
    by_cases same : v = w
    · subst v
      rw [Function.update_self]
      exact locals
    · have other : some w ≠ some v := fun back => same (Option.some.inj back).symm
      rw [Function.update_of_ne same, apart (.task v) other (by simp),
        apart (.cb_piber v) other (by simp), apart (.idle_piber v) other (by simp)]
      exact holds.locals v
  main v := by
    rw [workers]
    by_cases same : v = w
    · subst v
      rw [Function.update_self]
      simp only [Main, fixed.1] at main ⊢
      exact main
    · have other : some w ≠ some v := fun back => same (Option.some.inj back).symm
      rw [Function.update_of_ne same, apart (.t_thread_piber v) other (by simp)]
      have main := holds.main v
      simp only [Main, fixed.1] at main ⊢
      exact main
  root := by
    rw [apart .m_rootPiber trivial (by simp), fixed.2.1]
    exact holds.root
  queued := queued
  nodes := nodes

/-- A step of one thread that leaves the queue alone. -/
private theorem Holds.one_worker (holds : Holds s f) (grown : Scheduler.Grown s t)
    (fixed : t.rootThread = s.rootThread ∧ t.rootPiber = s.rootPiber ∧ t.caller = s.caller)
    (workers : t.workers = Function.update s.workers w x) (tasks : t.tasks = s.tasks)
    (writes : Writes t (some w) f g)
    (locals : Locals x (g (.task w)) (g (.cb_piber w)) (g (.idle_piber w)))
    (main : Main s w x (g (.t_thread_piber w))) : Holds t g := by
  refine holds.thread grown fixed workers (fun y foreign _ => writes.apart y foreign) writes.fits
    locals main (fun it member => ?_) fun n p found => ?_
  · rw [writes.apart (.node it.ticket) trivial]
    exact holds.queued it (tasks ▸ member)
  · rw [writes.apart (.node n) trivial] at found
    rw [tasks]
    exact holds.nodes n p found

/-- A step of one thread that leaves the variables alone. -/
private theorem Holds.same_ptrs (holds : Holds s f) (grown : Scheduler.Grown s t)
    (fixed : t.rootThread = s.rootThread ∧ t.rootPiber = s.rootPiber ∧ t.caller = s.caller)
    (workers : t.workers = Function.update s.workers w x) (tasks : t.tasks = s.tasks)
    (locals : ∀ task cb idle, Locals (s.workers w) task cb idle → Locals x task cb idle)
    (main : ∀ m, Main s w (s.workers w) m → Main s w x m) : Holds t f :=
  holds.one_worker grown fixed workers tasks (writes_refl t _ f)
    (locals _ _ _ (holds.locals w)) (main _ (holds.main w))

/-- The entry taken has a ticket of its own. -/
private theorem other_tickets (ledger : Scheduler.Ledger s) {before after : List Entry} {it : Entry}
    (split : s.tasks = before ++ it :: after) : ∀ e ∈ before ++ after, e.ticket ≠ it.ticket := by
  have tickets := ledger.ordered
  rw [split, List.map_append, List.map_cons] at tickets
  obtain ⟨_, late, across⟩ := List.pairwise_append.mp tickets
  intro e member same
  rcases List.mem_append.mp member with inside | inside
  · have lt := across e.ticket (List.mem_map_of_mem inside) it.ticket List.mem_cons_self
    omega
  · have lt := (List.pairwise_cons.mp late).1 e.ticket (List.mem_map_of_mem inside)
    omega

/-- `task = *it` and the `erase` behind it. -/
private theorem Holds.took (holds : Holds s f) (owned : Scheduler.Ownership s)
    (ledger : Scheduler.Ledger s) {before after : List Entry} {it : Entry}
    (grown : Scheduler.Grown s t)
    (fixed : t.rootThread = s.rootThread ∧ t.rootPiber = s.rootPiber ∧ t.caller = s.caller)
    (split : s.tasks = before ++ it :: after) (tasks : t.tasks = before ++ after)
    (workers : t.workers = Function.update s.workers w x)
    (locals : Locals x it.task.piber (f (.cb_piber w)) (f (.idle_piber w)))
    (main : Main s w x (f (.t_thread_piber w))) :
    Holds t (Function.update (Function.update f (.task w) it.task.piber) (.node it.ticket) none) := by
  have here : it ∈ s.tasks := by simp [split]
  have kept : ∀ e, e ∈ before ++ after → e ∈ s.tasks := fun e member => by
    rw [split]
    rcases List.mem_append.mp member with early | late
    · exact List.mem_append_left _ early
    · exact List.mem_append_right _ (List.mem_cons_of_mem _ late)
  have writes : Writes t (some w) f (Function.update f (.task w) it.task.piber) :=
    (writes_refl _ _ _).set (by simp [PiberPtr.Foreign]) fun p same =>
      have task := (owned.tasks it here).2 p same
      fits_grown grown ⟨task.1, task.2⟩
  refine holds.thread grown fixed workers (fun y other queue => ?_) (fun y p found => ?_)
    (by simpa using locals) (by simpa using main) (fun e member => ?_) fun n p found => ?_
  · rw [Function.update_of_ne (queue _)]
    exact writes.apart y other
  · rcases of_update found with old | ⟨_, none_found⟩
    · exact writes.fits y p old
    · cases none_found
  · rw [tasks] at member
    have apart : PiberPtr.node e.ticket ≠ .node it.ticket := by
      simpa using other_tickets ledger split e member
    rw [Function.update_of_ne apart, Function.update_of_ne (by simp)]
    exact holds.queued e (kept e member)
  · have apart : n ≠ it.ticket := by
      rintro rfl
      simp at found
    rw [Function.update_of_ne (by simpa using apart), Function.update_of_ne (by simp)] at found
    obtain ⟨e, member, same⟩ := holds.nodes n p found
    rw [tasks]
    refine ⟨e, ?_, same⟩
    rw [split] at member
    rcases List.mem_append.mp member with early | late
    · exact List.mem_append_left _ early
    · rcases List.mem_cons.mp late with rfl | late
      · exact absurd same.symm apart
      · exact List.mem_append_right _ late

/-- The locals of `run` end with it, and the main fiber with its thread. -/
theorem leave_points (k : Lives) (w : ThreadId) :
    (k.leave w).points = Function.update (Function.update (Function.update (Function.update
      k.ptrs.points (.task w) none) (.cb_piber w) none) (.idle_piber w) none) (.t_thread_piber w)
        (if (w : ℤ) = k.sched.rootThread then k.ptrs.points (.t_thread_piber w) else none) := by
  by_cases root : (w : ℤ) = k.sched.rootThread
  · simp only [Lives.leave, root, ne_eq, not_true_eq_false, if_false, if_true, Heap.reset_points]
    refine (Function.update_eq_self_iff.mpr ?_).symm
    simp
  · simp [Lives.leave, root]

/-- What a thread may hold in its hands is what its variables hold. -/
theorem holds_worker {k : Lives} (owned : Scheduler.Ownership k.sched)
    (ledger : Scheduler.Ledger k.sched)
    (holds : Holds k.sched k.ptrs.points) (moved : Scheduler.Move k.sched (.worker w) t) :
    Holds t (k.workerPtrs w).points := by
  have grown := Scheduler.grown_move moved
  have fixed := Scheduler.fixed_move moved
  have locals := holds.locals w
  have main := holds.main w
  have owns := owned.workers w
  have refl := fun t => writes_refl t (some w) k.ptrs.points
  cases moved with
  | entered pc apart =>
    have ptrs : (k.workerPtrs w).points = Function.update (Function.update k.ptrs.points
        (.t_thread_piber w) (some k.sched.created)) (.idle_piber w) (some (k.sched.created + 1)) := by
      simp [workerPtrs, pc, apart]
    rw [ptrs]
    simp only [Locals, pc] at locals
    refine holds.one_worker grown fixed rfl rfl (((refl _).set (by simp [PiberPtr.Foreign])
      fun p same => ?_).set (by simp [PiberPtr.Foreign]) fun p same => ?_) ?_ ?_
    · cases same
      exact ⟨Nat.lt_succ_of_lt (Nat.lt_succ_self _), by simp [Fits]⟩
    · cases same
      exact ⟨by simp, by simp [Fits]⟩
    · simp [Locals, locals]
    · simp [Main, apart]
  | enteredRoot pc root =>
    have ptrs : (k.workerPtrs w).points = Function.update k.ptrs.points
        (.idle_piber w) (some k.sched.created) := by
      simp [workerPtrs, pc, root]
    rw [ptrs]
    simp only [Locals, pc] at locals
    refine holds.one_worker grown fixed rfl rfl ((refl _).set (by simp [PiberPtr.Foreign])
      fun p same => ?_) ?_ ?_
    · cases same
      exact ⟨by simp, by simp [Fits]⟩
    · simp [Locals, locals]
    · simpa [Main, root] using main
  | @took _ before after pc it split fits first =>
    have found : (Scheduler.scan k.sched.runing w k.sched.tasks).1 = some it := by
      rw [split]
      exact Scheduler.scan_finds fits first
    have ptrs : (k.workerPtrs w).points = Function.update (Function.update k.ptrs.points
        (.task w) it.task.piber) (.node it.ticket) none := by
      simp [workerPtrs, pc, found, holds.queued it (by simp [split])]
    rw [ptrs]
    simp only [Locals, pc] at locals
    exact holds.took owned ledger grown fixed split rfl rfl (by simp [Locals, locals])
      (by simpa [Main, pc] using main)
  | tookNothing pc none_fits =>
    have found : (Scheduler.scan k.sched.runing w k.sched.tasks).1 = none := by
      rcases Scheduler.scan_cases k.sched.runing w k.sched.tasks with
        ⟨before, it, after, split, -, -, fits, -⟩ | ⟨nothing, -⟩
      · exact absurd fits (none_fits it (by simp [split]))
      · exact nothing
    have ptrs : (k.workerPtrs w).points = Function.update k.ptrs.points (.task w) none := by
      simp [workerPtrs, pc, found]
    rw [ptrs]
    simp only [Locals, pc] at locals
    exact holds.one_worker grown fixed rfl rfl ((refl _).reset (by simp [PiberPtr.Foreign]))
      (by simp [Locals, locals]) (by simpa [Main, pc] using main)
  | pickedPiber pc piber =>
    have ptrs : k.workerPtrs w = k.ptrs := by simp [workerPtrs, pc, piber]
    rw [ptrs]
    refine holds.same_ptrs grown fixed rfl rfl ?_ (by simp [Main, pc])
    simp only [Locals, pc, InBranch, piber]
    exact fun _ _ _ held => ⟨⟨held.1, held.2.1⟩, held.2.2⟩
  | pickedCb pc piber cb spare =>
    have ptrs : (k.workerPtrs w).points = Function.update (Function.update k.ptrs.points
        (.cb_piber w) (some k.sched.created)) (.task w) none := by
      simp [workerPtrs, pc, piber, cb, spare]
    rw [ptrs]
    simp only [Locals, pc] at locals
    refine holds.one_worker grown fixed rfl rfl (((refl _).set (by simp [PiberPtr.Foreign])
      fun p same => ?_).reset (by simp [PiberPtr.Foreign])) ?_ ?_
    · cases same
      exact ⟨by simp, by simp [Fits]⟩
    · simp [Locals, InBranch, locals]
    · simpa [Main, pc] using main
  | recycledCb pc piber cb spare =>
    -- `cb_piber` is null whenever a task is picked
    simp only [Scheduler.Owns, pc, spare] at owns
    cases owns.2.1
  | pickedIdle pc piber cb live =>
    have ptrs : k.workerPtrs w = k.ptrs := by simp [workerPtrs, pc, piber, cb, live]
    rw [ptrs]
    refine holds.same_ptrs grown fixed rfl rfl ?_ (by simp [Main, pc])
    simp only [Locals, pc, InBranch, piber]
    exact fun _ _ _ held => ⟨held, held.2.2⟩
  | leave pc piber cb ended =>
    have ptrs : k.workerPtrs w = k.leave w := by simp [workerPtrs, pc, piber, cb, ended]
    rw [ptrs, leave_points]
    refine holds.one_worker grown fixed rfl rfl (((((refl _).reset (by simp [PiberPtr.Foreign])).reset
      (by simp [PiberPtr.Foreign])).reset (by simp [PiberPtr.Foreign])).set
      (by simp [PiberPtr.Foreign]) fun p same => ?_) (by simp [Locals]) ?_
    · split at same
      · exact fits_grown grown (holds.fits _ p same)
      · cases same
    · by_cases root : (w : ℤ) = k.sched.rootThread
      · simpa [Main, root] using main
      · simp [Main, root]
  | @switched _ branch p pc ctx =>
    simp only [Scheduler.Owns, pc] at owns
    simp only [Locals, pc] at locals
    by_cases entry : k.entry p = true
    · have ptrs : (k.workerPtrs w).points = Function.update k.ptrs.points (.cur p) (some p) := by
        simp [workerPtrs, pc, ctx, entry, owns.2.2]
      have made := owned.claimed (w := w) (p := p) (by simp [pc, WorkerPc.claims])
      rw [ptrs]
      refine holds.one_worker grown fixed rfl rfl ((refl _).set (by simp [PiberPtr.Foreign])
        fun q same => ?_) (by simpa [Locals] using locals) (by simpa [Main, pc] using main)
      cases same
      exact ⟨made.1, rfl⟩
    · have ptrs : k.workerPtrs w = k.ptrs := by simp [workerPtrs, pc, entry]
      rw [ptrs]
      exact holds.same_ptrs grown fixed rfl rfl (by simp [Locals, pc]) (by simp [Main, pc])
  | @termMarked _ branch p pc =>
    have ptrs : (k.workerPtrs w).points = Function.update k.ptrs.points (.cur p) none := by
      simp [workerPtrs, pc]
    rw [ptrs]
    simp only [Locals, pc] at locals
    exact holds.one_worker grown fixed rfl rfl ((refl _).reset (by simp [PiberPtr.Foreign]))
      (by simpa [Locals] using locals) (by simpa [Main, pc] using main)
  | settledPiber pc =>
    have ptrs : (k.workerPtrs w).points = Function.update k.ptrs.points (.task w) none := by
      simp [workerPtrs, pc]
    rw [ptrs]
    simp only [Locals, pc, Behind] at locals
    exact holds.one_worker grown fixed rfl rfl ((refl _).reset (by simp [PiberPtr.Foreign]))
      (by simp [Locals, locals]) (by simpa [Main, pc] using main)
  | settledCb pc =>
    have ptrs : (k.workerPtrs w).points = Function.update k.ptrs.points (.cb_piber w) none := by
      simp [workerPtrs, pc]
    rw [ptrs]
    simp only [Locals, pc, Behind] at locals
    exact holds.one_worker grown fixed rfl rfl ((refl _).reset (by simp [PiberPtr.Foreign]))
      (by simp [Locals, locals]) (by simpa [Main, pc] using main)
  | idleYielded pc live =>
    simp only [Scheduler.Owns, pc] at owns
    have ptrs : k.workerPtrs w = k.ptrs := by simp [workerPtrs, pc]
    rw [ptrs]
    exact holds.same_ptrs grown fixed rfl rfl (by simp [Locals, pc, owns.2.2]) (by simp [Main, pc])
  | @switchedOut _ branch p ended pc =>
    have ptrs : k.workerPtrs w = k.ptrs := by simp [workerPtrs, pc]
    rw [ptrs]
    refine holds.same_ptrs grown fixed rfl rfl ?_ (by simp [Main, pc])
    simp only [Locals, pc]
    intro task cb idle held
    refine ⟨?_, held.2⟩
    cases branch with
    | piber => exact held.1.2
    | cb => exact held.1.1
    | idle => exact ⟨held.1.1, held.1.2.1⟩
  | settledIdle pc =>
    have ptrs : k.workerPtrs w = k.ptrs := by simp [workerPtrs, pc]
    rw [ptrs]
    refine holds.same_ptrs grown fixed rfl rfl ?_ (by simp [Main, pc])
    simp only [Locals, pc]
    exact fun _ _ _ held => ⟨held.1.1, held.1.2, held.2⟩
  | marked pc | idleEnded pc | readyMarked pc =>
    have ptrs : k.workerPtrs w = k.ptrs := by simp [workerPtrs, pc]
    rw [ptrs]
    exact holds.same_ptrs grown fixed rfl rfl (by simp [Locals, pc]) (by simp [Main, pc])
  | threadLost pc ctx =>
    have ptrs : k.workerPtrs w = k.ptrs := by simp [workerPtrs, pc, ctx]
    rw [ptrs]
    exact holds.same_ptrs grown fixed rfl rfl (by simp [Locals]) (by simp [Main, pc])

/-- The thread itself has a variable for the fiber in its hands. -/
theorem Holds.in_hand (holds : Holds s f) {p : PiberId}
    (held : (s.workers w).pc.claims = some p) :
    f (.task w) = some p ∨ f (.cb_piber w) = some p ∨ f (.idle_piber w) = some p := by
  have branches : ∀ branch task cb idle, InBranch p task cb idle branch →
      task = some p ∨ cb = some p ∨ idle = some p := by
    intro branch task cb idle inside
    cases branch with
    | piber => exact .inl inside.1
    | cb => exact .inr (.inl inside.2)
    | idle => exact .inr (.inr inside.2.2)
  have locals := holds.locals w
  cases pc : (s.workers w).pc <;> simp only [pc, WorkerPc.claims, reduceCtorEq,
    Option.some.injEq] at held <;> simp only [Locals, pc] at locals
  case picked => exact .inl (locals.1.trans held)
  all_goals exact branches _ _ _ _ (held ▸ locals.1)

/-- A step is one of the scheduler, or one of the user's with its own pointers. -/
theorem sched_step {k l : Lives} {a : Action} (stepped : step k a = some l) :
    a.seen k.ptrs = none ∧ l.sched = k.sched ∨
      ∃ b, a.seen k.ptrs = some b ∧ Scheduler.step k.sched b = some l.sched := by
  cases a with
  | copy i j | drop i =>
    cases stepped
    exact .inl ⟨rfl, rfl⟩
  | getThis w i =>
    simp only [step] at stepped
    split at stepped <;> cases stepped
    exact .inl ⟨rfl, rfl⟩
  | create i =>
    cases stepped
    exact .inr ⟨.newPiber, rfl, rfl⟩
  | schedule worker fc thread | start ids | stop | owner | worker w | yield w | finish w =>
    obtain ⟨t, moved, same⟩ := Option.map_eq_some_iff.mp stepped
    subst same
    exact .inr ⟨_, rfl, moved⟩

theorem seen_worker {ptrs : Heap PiberPtr PiberId} {a : Action}
    (seen : a.seen ptrs = some (.worker w)) : a = .worker w := by
  cases a <;> simp_all [Action.seen]

theorem seen_owner {ptrs : Heap PiberPtr PiberId} {a : Action}
    (seen : a.seen ptrs = some .owner) : a = .owner := by
  cases a <;> simp_all [Action.seen]

/-- Where a pointer in the frame of `MainFunc` comes from. -/
theorem cur_worker {k : Lives} {p : PiberId}
    (found : (k.workerPtrs w).points (.cur p) = some p) :
    (∃ branch, (k.sched.workers w).pc = .switching branch p ∧ (k.sched.pibers p).ctx = .body) ∨
      k.ptrs.points (.cur p) = some p ∧ ∀ branch, (k.sched.workers w).pc ≠ .ending branch p := by
  have elsewhere : ∀ ptrs : Heap PiberPtr PiberId, k.workerPtrs w = ptrs →
      ptrs.points (.cur p) = k.ptrs.points (.cur p) → k.ptrs.points (.cur p) = some p :=
    fun ptrs same kept => by rwa [same, kept] at found
  cases pc : (k.sched.workers w).pc with
  | switching branch q =>
    by_cases same : q = p ∧ (k.sched.pibers p).ctx = .body
    · exact .inl ⟨branch, by rw [same.1], same.2⟩
    · refine .inr ⟨elsewhere _ (by simp only [workerPtrs, pc]; rfl) ?_, by simp⟩
      split
      · rename_i entered
        have apart : PiberPtr.cur p ≠ .cur q := by
          rintro ⟨⟩
          exact same ⟨rfl, entered.1⟩
        rw [Heap.construct_points, Function.update_of_ne apart]
      · rfl
  | ending branch q =>
    by_cases same : q = p
    · subst q
      simp [workerPtrs, pc] at found
    · refine .inr ⟨elsewhere _ (by simp only [workerPtrs, pc]; rfl) ?_, by simpa using same⟩
      rw [Heap.reset_points, Function.update_of_ne (by simpa using Ne.symm same)]
  | resumed branch =>
    refine .inr ⟨?_, by simp⟩
    cases branch <;> simpa [workerPtrs, pc] using found
  | entering =>
    refine .inr ⟨?_, by simp⟩
    by_cases apart : (w : ℤ) ≠ k.sched.rootThread <;> simpa [workerPtrs, pc, apart] using found
  | scanning =>
    refine .inr ⟨elsewhere _ (by simp only [workerPtrs, pc]; rfl) ?_, by simp⟩
    split <;> simp
  | picked task =>
    refine .inr ⟨elsewhere _ (by simp only [workerPtrs, pc]; rfl) ?_, by simp⟩
    split
    · rfl
    · split <;> simp
    · split
      · unfold Lives.leave
        split <;> simp
      · rfl
  | _ =>
    refine .inr ⟨?_, by simp⟩
    simpa [workerPtrs, pc] using found

theorem cur_owner {k : Lives} {p : PiberId} (found : k.ownerPtrs.points (.cur p) = some p) :
    (k.sched.owner = .resumingRoot ∧ k.sched.rootPiber = some p ∧
        (k.sched.pibers p).ctx = .body) ∨
      k.ptrs.points (.cur p) = some p ∧
        (k.sched.owner = .inRoot → k.sched.rootPiber ≠ some p) := by
  unfold ownerPtrs at found
  split at found
  · rename_i r owner root
    by_cases same : r = p ∧ (k.sched.pibers p).ctx = .body
    · exact .inl ⟨owner, same.1 ▸ root, same.2⟩
    · refine .inr ⟨?_, by simp [owner]⟩
      split at found
      · rename_i entered
        have apart : PiberPtr.cur p ≠ .cur r := by
          rintro ⟨⟩
          exact same ⟨rfl, entered⟩
        rwa [Heap.construct_points, Function.update_of_ne apart] at found
      · exact found
  · rename_i r owner root
    have apart : r ≠ p := by
      rintro rfl
      simp at found
    rw [Heap.reset_points, Function.update_of_ne (by simpa using Ne.symm apart)] at found
    exact .inr ⟨found, by simpa [root] using fun _ => apart⟩
  · rename_i out
    exact .inr ⟨found, fun owner root => out _ owner root⟩

theorem cur_step {k l : Lives} {a : Action} {p : PiberId} (stepped : step k a = some l)
    (found : l.ptrs.points (.cur p) = some p) :
    (∃ w branch, a = .worker w ∧ (k.sched.workers w).pc = .switching branch p ∧
        (k.sched.pibers p).ctx = .body) ∨
      (a = .owner ∧ k.sched.owner = .resumingRoot ∧ k.sched.rootPiber = some p ∧
        (k.sched.pibers p).ctx = .body) ∨
      k.ptrs.points (.cur p) = some p ∧
        (∀ w branch, a = .worker w → (k.sched.workers w).pc ≠ .ending branch p) ∧
        (a = .owner → k.sched.owner = .inRoot → k.sched.rootPiber ≠ some p) := by
  cases a with
  | worker w =>
    obtain ⟨t, _, same⟩ := Option.map_eq_some_iff.mp stepped
    subst same
    rcases cur_worker found with ⟨branch, pc, ctx⟩ | ⟨kept, out⟩
    · exact .inl ⟨w, branch, rfl, pc, ctx⟩
    · refine .inr (.inr ⟨kept, fun v branch same => ?_, by simp⟩)
      cases same
      exact out branch
  | owner =>
    obtain ⟨t, _, same⟩ := Option.map_eq_some_iff.mp stepped
    subst same
    rcases cur_owner found with root | ⟨kept, out⟩
    · exact .inr (.inl ⟨rfl, root⟩)
    · exact .inr (.inr ⟨kept, by simp, fun _ => out⟩)
  | getThis w i =>
    simp only [step] at stepped
    split at stepped <;> cases stepped
    exact .inr (.inr ⟨by simpa using found, by simp, by simp⟩)
  | create i | copy i j | drop i =>
    cases stepped
    exact .inr (.inr ⟨by simpa using found, by simp, by simp⟩)
  | schedule worker fc thread =>
    obtain ⟨t, _, same⟩ := Option.map_eq_some_iff.mp stepped
    subst same
    refine .inr (.inr ⟨?_, by simp, by simp⟩)
    split at found
    · cases fc <;> simpa [Argument.push] using found
    · exact found
  | start ids | stop | yield w | finish w =>
    obtain ⟨t, _, same⟩ := Option.map_eq_some_iff.mp stepped
    subst same
    exact .inr (.inr ⟨found, by simp, by simp⟩)

/-- A null pointer is what a variable holds that cannot hold its fiber. -/
theorem Holds.cur_none (holds : Holds s f) {p : PiberId} (empty : f (.cur p) ≠ some p) :
    f (.cur p) = none := by
  cases found : f (.cur p) with
  | none => rfl
  | some q =>
    have same : q = p := (holds.fits _ _ found).2
    exact absurd (same ▸ found) empty

/-- A fiber that has its first context and is not in execution has no `cur`. -/
def Unentered (k : Lives) : Prop :=
  ∀ p, k.entry p = true ∨ k.sched.rootPiber = some p →
    (∀ w, (k.sched.workers w).pc.executes ≠ some p) →
    (k.sched.owner = .inRoot → k.sched.rootPiber ≠ some p) → k.ptrs.points (.cur p) = none

/-- A context that is the first one now was so before, and is not saved over. -/
theorem entry_step {k l : Lives} {a : Action} {p : PiberId} (owned : Scheduler.Ownership k.sched)
    (stepped : step k a = some l) (entry : l.entry p = true) :
    k.entry p = true ∧
      ∀ w branch ended, a = .worker w → (k.sched.workers w).pc ≠ .yielding branch p ended := by
  cases a with
  | worker w =>
    obtain ⟨t, _, same⟩ := Option.map_eq_some_iff.mp stepped
    subst same
    simp only [workerEntry] at entry
    cases pc : (k.sched.workers w).pc with
    | yielding branch q ended =>
      simp only [pc] at entry
      have apart : p ≠ q := by
        rintro rfl
        simp at entry
      rw [Function.update_of_ne apart] at entry
      refine ⟨entry, fun v other flag same found => ?_⟩
      cases same
      rw [pc] at found
      cases found
      exact apart rfl
    | picked task =>
      have owns := owned.workers w
      simp only [Scheduler.Owns, pc] at owns
      cases piber : task.piber <;> cases cb : task.cb <;>
        simp only [pc, owns.2.1, piber, cb] at entry
      all_goals exact ⟨entry, fun v other flag same found => by cases same; simp [pc] at found⟩
    | _ =>
      simp only [pc] at entry
      exact ⟨entry, fun v other flag same found => by cases same; simp [pc] at found⟩
  | getThis w i =>
    simp only [step] at stepped
    split at stepped <;> cases stepped
    exact ⟨entry, by simp⟩
  | create i | copy i j | drop i =>
    cases stepped
    exact ⟨entry, by simp⟩
  | schedule worker fc thread | start ids | stop | owner | yield w | finish w =>
    obtain ⟨t, _, same⟩ := Option.map_eq_some_iff.mp stepped
    subst same
    exact ⟨entry, by simp⟩

theorem unentered_step {k l : Lives} {a : Action} (owned : Scheduler.Ownership k.sched)
    (holds : Holds l.sched l.ptrs.points) (unentered : Unentered k)
    (stepped : step k a = some l) : Unentered l := by
  intro p first out root
  refine holds.cur_none fun found => ?_
  rcases cur_step stepped found with ⟨w, branch, rfl, pc, ctx⟩ | ⟨rfl, owner, here, ctx⟩ |
    ⟨before, -, kept⟩
  · obtain ⟨t, moved, rfl⟩ := Option.map_eq_some_iff.mp stepped
    have inside : k.sched.workerStep w = some t := moved
    simp only [Scheduler.workerStep, pc, Scheduler.resumeSwitch, ctx, Option.some.injEq] at inside
    exact out w (by simp [← inside, WorkerPc.executes])
  · obtain ⟨t, moved, rfl⟩ := Option.map_eq_some_iff.mp stepped
    have inside : k.sched.ownerStep = some t := moved
    simp only [Scheduler.ownerStep, owner, here, ctx, Option.some.injEq] at inside
    exact root (by simp [← inside]) (by simp [← inside, here])
  · have was : k.ptrs.points (.cur p) = none := by
      rcases sched_step stepped with ⟨silent, same⟩ | ⟨b, seen, moved⟩
      · rw [same] at first out root
        exact unentered p (first.imp_left fun entry => (entry_step owned stepped entry).1) out root
      · have move := Scheduler.move_of_step moved
        have fixed := Scheduler.fixed_move move
        rw [fixed.2.1] at first root
        refine unentered p (first.imp_left fun entry => (entry_step owned stepped entry).1)
          (fun w running => ?_) fun owner here => ?_
        · rcases Scheduler.executes_move owned move running with still | ⟨rfl, branch, ended, pc⟩
          · exact out w still
          · rcases first with entry | here
            · exact (entry_step owned stepped entry).2 w branch ended (seen_worker seen) pc
            · exact owned.root_unheld here w (WorkerPc.claims_of_executes running)
        · rcases Scheduler.inRoot_move move owner with still | rfl
          · exact root still here
          · exact kept (seen_owner seen) owner here
    rw [was] at before
    cases before

/-- The law of the variables in every state. -/
structure Keeps (k : Lives) : Prop where
  owned : Scheduler.Ownership k.sched
  ledger : Scheduler.Ledger k.sched
  guarded : Scheduler.Guarded k.sched
  lawful : Lawful k.ptrs
  holds : Holds k.sched k.ptrs.points
  unentered : Unentered k

theorem Keeps.alive {k : Lives} (keeps : Keeps k) {y : PiberPtr} {p : PiberId}
    (found : k.ptrs.points y = some p) : k.ptrs.alive p = true :=
  (keeps.lawful.alive_iff p).mpr ⟨y, found⟩

theorem Keeps.alive_in_hand {k : Lives} (keeps : Keeps k) {p : PiberId}
    (held : (k.sched.workers w).pc.claims = some p) : k.ptrs.alive p = true := by
  rcases keeps.holds.in_hand held with found | found | found <;> exact keeps.alive found

private theorem Keeps.unborn {k : Lives} (keeps : Keeps k) {p : PiberId} (new : k.sched.created ≤ p)
    (y : PiberPtr) : k.ptrs.points y ≠ some p := fun found =>
  Nat.not_lt.mpr new (keeps.holds.fits y p found).1

/-- Where `MainFunc` begins its variable is a new one: no other thread is in the
fiber. -/
theorem Keeps.entered_empty {k : Lives} (keeps : Keeps k) {branch : Branch} {p : PiberId}
    (pc : (k.sched.workers w).pc = .switching branch p) (entry : k.entry p = true) :
    k.ptrs.points (.cur p) = none := by
  have held : (k.sched.workers w).pc.claims = some p := by simp [pc, WorkerPc.claims]
  refine keeps.unentered p (.inl entry) (fun v running => ?_) fun _ root =>
    keeps.owned.root_unheld root w held
  have same := keeps.guarded.sole v w p (WorkerPc.claims_of_executes running) held
  subst same
  simp [pc, WorkerPc.executes] at running

theorem Keeps.root_empty {k : Lives} (keeps : Keeps k) {r : PiberId}
    (pc : k.sched.owner = .resumingRoot) (root : k.sched.rootPiber = some r) :
    k.ptrs.points (.cur r) = none :=
  keeps.unentered r (.inr root)
    (fun v running => keeps.owned.root_unheld root v (WorkerPc.claims_of_executes running))
    (by simp [pc])

theorem lawful_worker {k : Lives} (keeps : Keeps k) (w : ThreadId) : Lawful (k.workerPtrs w) := by
  have fresh := fun y => keeps.unborn (Nat.le_refl k.sched.created) y
  have lawful := keeps.lawful
  cases pc : (k.sched.workers w).pc with
  | entering =>
    by_cases apart : (w : ℤ) ≠ k.sched.rootThread
    · simp only [workerPtrs, pc, apart, ne_eq, not_false_eq_true, if_true]
      refine (lawful.make _ fresh).make _ fun y found => ?_
      rw [Heap.make_points] at found
      rcases of_update found with found | ⟨rfl, same⟩
      · exact keeps.unborn (Nat.le_succ _) y found
      · exact absurd (Option.some.inj same) (Nat.ne_of_lt (Nat.lt_succ_self _))
    · simp only [workerPtrs, pc, apart, if_false]
      exact lawful.make _ fresh
  | scanning =>
    simp only [workerPtrs, pc]
    split
    · exact lawful.reset _
    · exact ((lawful.reset _).copy _ _).reset _
  | picked task =>
    simp only [workerPtrs, pc]
    split
    · exact lawful
    · split
      · exact lawful.reset _
      · exact (lawful.make _ fresh).reset _
    · split
      · unfold Lives.leave
        simp only
        split
        · exact (((lawful.reset _).reset _).reset _).reset _
        · exact ((lawful.reset _).reset _).reset _
      · exact lawful
  | switching branch p =>
    simp only [workerPtrs, pc]
    split
    · rename_i entered
      have owns := keeps.owned.workers w
      simp only [Scheduler.Owns, pc] at owns
      have held : (k.sched.workers w).pc.claims = some p := by simp [pc, WorkerPc.claims]
      rw [owns.2.2]
      exact lawful.construct (keeps.entered_empty pc entered.2) (keeps.alive_in_hand held)
    · exact lawful
  | ending branch p =>
    simp only [workerPtrs, pc]
    exact lawful.reset _
  | resumed branch =>
    cases branch with
    | piber =>
      simp only [workerPtrs, pc]
      exact lawful.reset _
    | cb =>
      simp only [workerPtrs, pc]
      exact lawful.reset _
    | idle => simpa only [workerPtrs, pc] using lawful
  | _ => simpa only [workerPtrs, pc] using lawful

theorem lawful_owner {k : Lives} (keeps : Keeps k) : Lawful k.ownerPtrs := by
  unfold ownerPtrs
  split
  · rename_i r _ root
    split
    · exact keeps.lawful.construct (keeps.root_empty ‹_› root)
        (keeps.alive (keeps.holds.root.trans root))
    · exact keeps.lawful
  · exact keeps.lawful.reset _
  · exact keeps.lawful

theorem holds_owner {k : Lives} (owned : Scheduler.Ownership k.sched)
    (holds : Holds k.sched k.ptrs.points) (moved : Scheduler.Move k.sched .owner t) :
    Holds t k.ownerPtrs.points := by
  have grown := Scheduler.grown_move moved
  have fixed := Scheduler.fixed_move moved
  have quiet : k.sched.owner ≠ .resumingRoot → k.sched.owner ≠ .inRoot →
      k.ownerPtrs = k.ptrs := by
    intro first second
    unfold ownerPtrs
    split <;> simp_all
  cases moved with
  | stopMarked pc | collected pc | joined pc | returned pc =>
    rw [quiet (by simp [pc]) (by simp [pc])]
    exact holds.no_worker grown fixed rfl rfl (writes_refl _ _ _)
  | rootLost pc root ctx =>
    have ptrs : k.ownerPtrs = k.ptrs := by simp [ownerPtrs, pc, root, ctx]
    rw [ptrs]
    exact holds.no_worker grown fixed rfl rfl (writes_refl _ _ _)
  | @rootResumed r pc root ctx =>
    have ptrs : k.ownerPtrs.points = Function.update k.ptrs.points (.cur r) (some r) := by
      simp [ownerPtrs, pc, root, ctx]
    have locals := holds.locals k.sched.caller
    have main := holds.main k.sched.caller
    rw [ptrs]
    refine holds.one_worker grown fixed rfl rfl ((writes_refl _ _ _).set
      (by simp [PiberPtr.Foreign]) fun q same => ?_) ?_ ?_
    · cases same
      exact ⟨(owned.root r root).1, rfl⟩
    · rcases owned.caller (by simp [pc]) with here | here <;>
        simpa [Locals, here] using locals
    · rcases owned.caller (by simp [pc]) with here | here <;>
        simpa [Main, here] using main
  | @rootReturned r pc root done =>
    have ptrs : k.ownerPtrs.points = Function.update k.ptrs.points (.cur r) none := by
      simp [ownerPtrs, pc, root]
    have locals := holds.locals k.sched.caller
    have main := holds.main k.sched.caller
    rw [ptrs]
    exact holds.one_worker grown fixed rfl rfl ((writes_refl _ _ _).reset
      (by simp [PiberPtr.Foreign])) (by simpa [Locals, done] using locals)
      (by simpa [Main, done] using main)

theorem holds_start {ids : List ThreadId} (holds : Holds s f)
    (moved : Scheduler.Move s (.start ids) t) : Holds t f := by
  cases moved with
  | startRefused => exact holds
  | started open_for quiet count fresh =>
    refine ⟨holds.mode, holds.fits, fun w => ?_, fun w => ?_, holds.root, holds.queued, holds.nodes⟩
    · by_cases member : w ∈ ids
      · have locals := holds.locals w
        simp only [Locals, (fresh w member).2] at locals
        simpa [member, Locals] using locals
      · simpa [member] using holds.locals w
    · have main := holds.main w
      by_cases member : w ∈ ids
      · have apart : (w : ℤ) ≠ s.rootThread := by
          have other := (fresh w member).1
          rcases holds.mode with absent | caller
          · omega
          · exact fun same => other (Int.ofNat_inj.mp (same.trans caller))
        simp only [Main, apart, (fresh w member).2, if_false] at main
        simpa [Main, member, apart] using main
      · simpa [member, Main] using main

private theorem schedule_eq (s : Scheduler) (fc : FiberOrCb) (thread : ℤ) :
    s.schedule fc thread = if (ScheduleTask.make fc thread).isSet then
      { s with
        tasks := s.tasks ++ [⟨ScheduleTask.make fc thread, s.accepted.length⟩]
        accepted := s.accepted ++ [ScheduleTask.make fc thread] } else s := by
  unfold Scheduler.schedule Scheduler.scheduleNoLock
  by_cases set : (ScheduleTask.make fc thread).isSet <;> simp [set]

theorem holds_schedule {k : Lives} (ledger : Scheduler.Ledger k.sched)
    (holds : Holds k.sched k.ptrs.points) (fc : Argument) (thread : ℤ)
    (set : (ScheduleTask.make (fc.value k.ptrs) thread).isSet = true) :
    Holds (k.sched.schedule (fc.value k.ptrs) thread)
      (fc.push k.ptrs k.sched.accepted.length).points := by
  have points : (fc.push k.ptrs k.sched.accepted.length).points =
      Function.update k.ptrs.points (.node k.sched.accepted.length)
        (ScheduleTask.make (fc.value k.ptrs) thread).piber := by
    cases fc <;> simp [Argument.push, Argument.value, ScheduleTask.make]
  rw [points, schedule_eq, if_pos set]
  have apart : ∀ y : PiberPtr, y ≠ .node k.sched.accepted.length →
      Function.update k.ptrs.points (.node k.sched.accepted.length)
        (ScheduleTask.make (fc.value k.ptrs) thread).piber y = k.ptrs.points y :=
    fun y other => Function.update_of_ne other _ _
  refine ⟨holds.mode, fun y p found => ?_, fun w => ?_, fun w => ?_, ?_, fun it member => ?_,
    fun n p found => ?_⟩
  · rcases of_update found with found | ⟨rfl, same⟩
    · exact holds.fits y p found
    · cases fc with
      | user i => exact holds.fits (.user i) p same
      | cb f => cases same
  · rw [apart _ (by simp), apart _ (by simp), apart _ (by simp)]
    exact holds.locals w
  · rw [apart _ (by simp)]
    exact holds.main w
  · rw [apart _ (by simp)]
    exact holds.root
  · rcases List.mem_append.mp member with old | new
    · have lt := ledger.ticket_lt (List.mem_append_left _ old)
      rw [apart _ (by simp; omega)]
      exact holds.queued it old
    · cases List.mem_singleton.mp new
      simp
  · by_cases here : n = k.sched.accepted.length
    · exact ⟨_, List.mem_append_right _ (List.mem_singleton.mpr rfl), here.symm⟩
    · rw [apart _ (by simpa using here)] at found
      obtain ⟨it, member, same⟩ := holds.nodes n p found
      exact ⟨it, List.mem_append_left _ member, same⟩

/-- A variable of the user changes. -/
private theorem Holds.user (holds : Holds s f) {i : ℕ} {now : Option PiberId}
    (task : ∀ p, now = some p → s.IsTask p) : Holds s (Function.update f (.user i) now) :=
  holds.no_worker (Scheduler.grown_of_same rfl rfl) ⟨rfl, rfl, rfl⟩ rfl rfl
    ((writes_refl _ _ _).set (by simp [PiberPtr.Foreign]) task)

theorem Keeps.current {k : Lives} (keeps : Keeps k) (working : (k.sched.insideTask w).isSome) :
    (k.sched.workers w).pc.claims = some (k.sched.workers w).t_piber ∧
      k.sched.IsTask (k.sched.workers w).t_piber := by
  obtain ⟨⟨branch, p⟩, found⟩ := Option.isSome_iff_exists.mp working
  obtain ⟨pc, busy⟩ := Scheduler.insideTask_some found
  have owns := keeps.owned.workers w
  simp only [Scheduler.Owns, pc] at owns
  rw [owns.2.2]
  exact ⟨by simp [pc, WorkerPc.claims], owns.2.1.2.2 busy⟩

theorem ptrs_step {k l : Lives} {a : Action} (keeps : Keeps k) (stepped : step k a = some l) :
    Lawful l.ptrs ∧ Holds l.sched l.ptrs.points := by
  have behind : ∀ {b t} {ptrs : Heap PiberPtr PiberId}, Scheduler.step k.sched b = some t →
      Lawful ptrs → (Scheduler.Move k.sched b t → Holds t ptrs.points) →
      Lawful ptrs ∧ Holds t ptrs.points :=
    fun moved lawful holds => ⟨lawful, holds (Scheduler.move_of_step moved)⟩
  have fresh := fun y => keeps.unborn (Nat.le_refl k.sched.created) y
  cases a with
  | create i =>
    have moved : Scheduler.step k.sched .newPiber = some (k.sched.newPiber .task .create) := rfl
    cases stepped
    refine behind moved (keeps.lawful.make _ fresh) fun _ => ?_
    rw [Heap.make_points]
    refine keeps.holds.no_worker (Scheduler.grown_newPiber _ _ _) ⟨rfl, rfl, rfl⟩ rfl rfl
      ((writes_refl _ _ _).set (by simp [PiberPtr.Foreign]) fun p same => ?_)
    cases same
    exact ⟨by simp, by simp [Fits]⟩
  | copy i j =>
    cases stepped
    refine ⟨keeps.lawful.copy _ _, ?_⟩
    rw [Heap.copy_points]
    exact keeps.holds.user fun p found => keeps.holds.fits (.user j) p found
  | getThis w i =>
    simp only [step] at stepped
    split at stepped <;> cases stepped
    obtain ⟨held, task⟩ := keeps.current ‹_›
    refine ⟨keeps.lawful.assign _ (keeps.alive_in_hand held), ?_⟩
    rw [Heap.assign_points]
    refine keeps.holds.user fun p found => ?_
    cases found
    exact task
  | drop i =>
    cases stepped
    refine ⟨keeps.lawful.reset _, ?_⟩
    rw [Heap.reset_points]
    exact keeps.holds.user (by simp)
  | schedule worker fc thread =>
    obtain ⟨t, moved, same⟩ := Option.map_eq_some_iff.mp stepped
    subst same
    have result : t = k.sched.schedule (fc.value k.ptrs) thread := by
      simp only [Scheduler.step] at moved
      split at moved <;> cases moved
      rfl
    by_cases set : (ScheduleTask.make (fc.value k.ptrs) thread).isSet
    · rw [if_pos set]
      refine behind moved ?_ fun _ => ?_
      · cases fc with
        | user i => exact keeps.lawful.copy _ _
        | cb f => exact keeps.lawful.reset _
      · rw [result]
        exact holds_schedule keeps.ledger keeps.holds fc thread set
    · rw [if_neg set]
      refine behind moved keeps.lawful fun _ => ?_
      rw [result, schedule_eq, if_neg set]
      exact keeps.holds
  | start ids =>
    obtain ⟨t, moved, same⟩ := Option.map_eq_some_iff.mp stepped
    subst same
    exact behind moved keeps.lawful fun move => holds_start keeps.holds move
  | stop =>
    obtain ⟨t, moved, same⟩ := Option.map_eq_some_iff.mp stepped
    subst same
    refine behind moved keeps.lawful fun move => ?_
    have grown := Scheduler.grown_move move
    have fixed := Scheduler.fixed_move move
    cases move <;>
      exact keeps.holds.no_worker grown fixed rfl rfl (writes_refl _ _ _)
  | owner =>
    obtain ⟨t, moved, same⟩ := Option.map_eq_some_iff.mp stepped
    subst same
    exact behind moved (lawful_owner keeps) fun move => holds_owner keeps.owned keeps.holds move
  | worker w =>
    obtain ⟨t, moved, same⟩ := Option.map_eq_some_iff.mp stepped
    subst same
    exact behind moved (lawful_worker keeps w) fun move =>
      holds_worker keeps.owned keeps.ledger keeps.holds move
  | yield w =>
    obtain ⟨t, moved, same⟩ := Option.map_eq_some_iff.mp stepped
    subst same
    refine behind moved keeps.lawful fun move => ?_
    have grown := Scheduler.grown_move move
    have fixed := Scheduler.fixed_move move
    cases move with
    | @yielded _ branch p pc busy =>
      have owns := keeps.owned.workers w
      simp only [Scheduler.Owns, pc] at owns
      exact keeps.holds.same_ptrs grown fixed rfl rfl (by simp [Locals, pc, owns.2.2])
        (by simp [Main, pc])
  | finish w =>
    obtain ⟨t, moved, same⟩ := Option.map_eq_some_iff.mp stepped
    subst same
    refine behind moved keeps.lawful fun move => ?_
    have grown := Scheduler.grown_move move
    have fixed := Scheduler.fixed_move move
    cases move with
    | finished pc busy =>
      exact keeps.holds.same_ptrs grown fixed rfl rfl (by simp [Locals, pc]) (by simp [Main, pc])

theorem keeps_step {k l : Lives} {a : Action} (keeps : Keeps k) (apart : ScansApart k a)
    (stepped : step k a = some l) : Keeps l := by
  obtain ⟨lawful, holds⟩ := ptrs_step keeps stepped
  have unentered := unentered_step keeps.owned holds keeps.unentered stepped
  rcases sched_step stepped with ⟨-, same⟩ | ⟨b, seen, moved⟩
  · refine ⟨?_, ?_, ?_, lawful, holds, unentered⟩ <;> rw [same]
    · exact keeps.owned
    · exact keeps.ledger
    · exact keeps.guarded
  · exact ⟨Scheduler.ownership_step keeps.owned moved, Scheduler.ledger_step keeps.ledger moved,
      Scheduler.guarded_move keeps.owned keeps.guarded (apart b seen)
        (Scheduler.move_of_step moved), lawful, holds, unentered⟩

theorem initial_points (threads : UInt64) (caller : ThreadId) :
    (initial threads true caller).ptrs.points = Function.update (Function.update (fun _ => none)
      (.t_thread_piber caller) (some 0)) .m_rootPiber (some 1) := by
  simp [initial]

theorem keeps_initial (threads : UInt64) (use_caller : Bool) (caller : ThreadId) :
    Keeps (initial threads use_caller caller) := by
  refine ⟨Scheduler.ownership_initial threads use_caller caller,
    Scheduler.ledger_initial threads use_caller caller,
    Scheduler.guarded_initial threads use_caller caller, ?_, ?_, fun p _ _ _ => ?_⟩
  rotate_right
  · cases use_caller <;> simp [initial]
  · cases use_caller with
    | false => exact lawful_empty
    | true =>
      show Lawful ((({} : Heap PiberPtr PiberId).make (.t_thread_piber caller) 0).make
        .m_rootPiber 1)
      refine (lawful_empty.make _ (by simp)).make _ fun y found => ?_
      rw [Heap.make_points] at found
      rcases of_update found with found | ⟨rfl, same⟩
      · cases found
      · cases same
  · have tasks : (Scheduler.initial threads use_caller caller).tasks = [] := by
      unfold Scheduler.initial
      split <;> rfl
    have workers := Scheduler.workers_initial threads use_caller caller
    cases use_caller with
    | false =>
      refine ⟨.inl ⟨rfl, rfl⟩, fun y p found => (nomatch found),
        fun w => ⟨rfl, rfl, rfl⟩, fun w => ?_,
        rfl, by simp [initial, tasks], by simp [initial]⟩
      have apart : (w : ℤ) ≠ -1 := by omega
      simp [Main, initial, Scheduler.initial, apart]
    | true =>
      rw [initial_points]
      refine ⟨.inr rfl, fun y p found => ?_, fun w => ?_, fun w => ?_, by simp; rfl,
        by simp [initial, tasks], by simp⟩
      · rcases of_update found with found | ⟨rfl, same⟩
        · rcases of_update found with found | ⟨rfl, same⟩
          · cases found
          · cases same
            simp [initial, Scheduler.initial, Fits]
        · cases same
          simp [initial, Scheduler.initial, Fits]
      · simp [initial, workers, Locals]
      · by_cases same : w = caller
        · subst w
          simp [Main, initial, Scheduler.initial]
        · have apart : (w : ℤ) ≠ (Scheduler.initial threads true caller).rootThread := by
            simpa [Scheduler.initial] using same
          simp [Main, initial, workers, apart, same]

theorem keeps_run {k l : Lives} (keeps : Keeps k) (reached : Runs.Reaches step ScansApart k l) :
    Keeps l :=
  reached.invariant Keeps keeps fun _ _ _ keeps apart stepped => keeps_step keeps apart stepped

theorem Holds.home (holds : Holds s f) {p : PiberId} (home : s.home w (s.workers w) = some p)
    (running : (s.workers w).pc.claims ≠ none) :
    f .m_rootPiber = some p ∨ f (.t_thread_piber w) = some p := by
  have main := holds.main w
  unfold Scheduler.home at home
  by_cases root : (w : ℤ) = s.rootThread
  · rw [if_pos root] at home
    exact .inl (holds.root.trans home)
  · rw [if_neg root] at home
    cases home
    refine .inr ?_
    simp only [Main, root, if_false] at main
    cases pc : (s.workers w).pc <;> simp only [pc, WorkerPc.claims, ne_eq, not_true_eq_false]
      at running <;> simp only [pc] at main <;> exact main

theorem Keeps.alive_touchedBy {k : Lives} (keeps : Keeps k) {p : PiberId}
    (touched : p ∈ touchedBy k.sched w) : k.ptrs.alive p = true := by
  have in_hand := fun held => keeps.alive_in_hand (w := w) (p := p) held
  have owns := keeps.owned.workers w
  have home : (k.sched.workers w).pc.claims ≠ none →
      p ∈ (k.sched.home w (k.sched.workers w)).toList → k.ptrs.alive p = true := by
    intro running found
    rcases keeps.holds.home (by simpa using found) running with points | points
    · exact keeps.alive points
    · exact keeps.alive points
  unfold touchedBy at touched
  cases pc : (k.sched.workers w).pc <;> simp only [pc, List.not_mem_nil] at touched <;>
    simp only [Scheduler.Owns, pc] at owns
  case scanning =>
    obtain ⟨it, member, piber⟩ := List.mem_filterMap.mp touched
    exact keeps.alive ((keeps.holds.queued it member).trans piber)
  case picked task =>
    split at touched
    · simp [owns.2.1] at touched
    · have locals := keeps.holds.locals w
      simp only [Locals, pc] at locals
      cases List.mem_singleton.mp touched
      exact keeps.alive locals.2.2
  case switching branch q =>
    rcases List.mem_cons.mp touched with rfl | partner
    · exact in_hand (by simp [pc, WorkerPc.claims])
    · exact home (by simp [pc, WorkerPc.claims]) partner
  case yielding branch q ended =>
    rcases List.mem_cons.mp touched with rfl | partner
    · exact in_hand (by simp [pc, WorkerPc.claims])
    · exact home (by simp [pc, WorkerPc.claims]) partner
  case inside branch q =>
    cases List.mem_singleton.mp touched
    exact in_hand (by simp [pc, WorkerPc.claims, owns.2.2])
  all_goals
    cases List.mem_singleton.mp touched
    exact in_hand (by simp [pc, WorkerPc.claims])

theorem Keeps.alive_touches {k : Lives} (keeps : Keeps k) {a : Action} {p : PiberId}
    (touched : p ∈ touches k.sched a) : k.ptrs.alive p = true := by
  cases a with
  | worker w | yield w | getThis w i => exact keeps.alive_touchedBy touched
  | owner =>
    have root : ∀ r, k.sched.rootPiber = some r →
        p ∈ [r, (k.sched.workers k.sched.caller).t_thread_piber] → k.ptrs.alive p = true := by
      intro r found member
      rcases List.mem_cons.mp member with rfl | main
      · exact keeps.alive (keeps.holds.root.trans found)
      · cases List.mem_singleton.mp main
        have mode : k.sched.rootThread = k.sched.caller := by
          rcases keeps.holds.mode with ⟨_, absent⟩ | caller
          · rw [found] at absent
            cases absent
          · exact caller
        have here := keeps.holds.main k.sched.caller
        rw [Main, if_pos mode.symm] at here
        exact keeps.alive here
    simp only [touches] at touched
    split at touched
    · exact root _ ‹_› touched
    · exact root _ ‹_› touched
    · cases touched
  | _ => cases touched

/-- In every run whose scans stay apart the library never touches a destroyed
fiber: not one that a thread is on, nor one in the queue, nor the main fiber or the
root that it switches back to. User code may drop its own pointers whenever it
likes. -/
theorem destroyed_fibers_are_untouched (threads : UInt64) (use_caller : Bool) (caller : ThreadId)
    {k : Lives} (reached : Runs.Reaches step ScansApart (initial threads use_caller caller) k) :
    (∀ a, ∀ p ∈ touches k.sched a, k.ptrs.alive p = true) ∧
      ∀ w p, (k.sched.workers w).pc.claims = some p → k.ptrs.alive p = true := by
  have keeps := keeps_run (keeps_initial threads use_caller caller) reached
  exact ⟨fun a p touched => keeps.alive_touches touched, fun w p held => keeps.alive_in_hand held⟩

/-- `ScansApart` where no threads but these are started. -/
def ScansApartAmong (ids : List ThreadId) (k : Lives) (a : Action) : Prop :=
  ∀ b ∈ a.seen k.ptrs, Scheduler.ScansApartAmong ids k.sched b

instance (ids : List ThreadId) (k : Lives) (a : Action) : Decidable (ScansApartAmong ids k a) :=
  inferInstanceAs (Decidable (∀ b ∈ a.seen k.ptrs, Scheduler.ScansApartAmong ids k.sched b))

theorem among_scans_apart {threads : UInt64} {caller : ThreadId} {ids : List ThreadId} {k : Lives}
    (reached : Runs.Reaches step (ScansApartAmong ids) (initial threads false caller) k) :
    Runs.Reaches step ScansApart (initial threads false caller) k := by
  refine reached.under (fun k => Scheduler.Among k.sched ids)
    (Scheduler.among_initial threads caller ids) (fun k a l among apart stepped => ?_)
    fun _ _ among apart b seen => among.scansApart (apart b seen)
  rcases sched_step stepped with ⟨-, same⟩ | ⟨b, seen, moved⟩
  · rwa [same]
  · have move := Scheduler.move_of_step moved
    exact Scheduler.among_move among (among.starts (apart b seen) move) move

/-- The user drops its only pointer to a fiber before a thread comes to it. -/
def droppedEarly : List Action :=
  [.create 0, .schedule none (.user 0) (-1), .drop 0, .start [1]] ++ List.replicate 5 (.worker 1)

theorem dropped_early_is_alive :
    ∃ k, Runs.run step (initial 1 false 0) droppedEarly = some k ∧
      (k.sched.workers 1).pc = .inside .piber 0 ∧ k.ptrs.alive 0 = true := by
  have ran : ∃ k, Runs.run step (initial 1 false 0) droppedEarly = some k ∧
      (k.sched.workers 1).pc = .inside .piber 0 := ⟨_, rfl, rfl⟩
  have apart : Runs.AllSteps step (ScansApartAmong [1]) (initial 1 false 0) droppedEarly := by
    decide +kernel
  obtain ⟨k, replay, pc⟩ := ran
  refine ⟨k, replay, pc, (destroyed_fibers_are_untouched 1 false 0
    (among_scans_apart (Runs.reaches_of_run droppedEarly replay apart))).2 1 0 ?_⟩
  rw [pc]
  rfl

/-- `Piber::TotalFibers`. -/
def TotalFibers (k : Lives) : ℤ := k.ptrs.population

/-- In every run whose scans stay apart the fibers alive are those pointed to, and
so many are counted. -/
theorem total_fibers_is_exact (threads : UInt64) (use_caller : Bool) (caller : ThreadId)
    {k : Lives} (reached : Runs.Reaches step ScansApart (initial threads use_caller caller) k) :
    ∃ members : Finset PiberId, k.TotalFibers = members.card ∧
      ∀ p, (p ∈ members ↔ k.ptrs.alive p = true) ∧
        (k.ptrs.alive p = true ↔ ∃ y, k.ptrs.points y = some p) := by
  have keeps := keeps_run (keeps_initial threads use_caller caller) reached
  obtain ⟨support, outside, sum⟩ := keeps.lawful.population
  refine ⟨support.filter fun p => k.ptrs.alive p = true, ?_, fun p => ⟨?_, keeps.lawful.alive_iff p⟩⟩
  · rw [TotalFibers, ← sum, Finset.sum_boole]
  · rw [Finset.mem_filter]
    refine ⟨And.right, fun live => ⟨?_, live⟩⟩
    by_contra out
    have zero := outside p out
    simp [live] at zero

/-- Behind its end the fiber is gone, and its thread has two fibers of its own. -/
def droppedAndDone : List Action := droppedEarly ++ [.finish 1] ++ List.replicate 4 (.worker 1)

theorem dropped_early_is_destroyed :
    ∃ k, Runs.run step (initial 1 false 0) droppedAndDone = some k ∧
      k.ptrs.alive 0 = false ∧ k.TotalFibers = 2 ∧ ∃ members : Finset PiberId,
        k.TotalFibers = members.card ∧ ∀ p, p ∈ members ↔ ∃ y, k.ptrs.points y = some p := by
  have ran : ∃ k, Runs.run step (initial 1 false 0) droppedAndDone = some k ∧
        k.ptrs.alive 0 = false ∧ k.TotalFibers = 2 := ⟨_, rfl, by decide +kernel, by decide +kernel⟩
  have apart : Runs.AllSteps step (ScansApartAmong [1]) (initial 1 false 0) droppedAndDone := by
    decide +kernel
  obtain ⟨k, replay, gone, total⟩ := ran
  obtain ⟨members, counted, known⟩ := total_fibers_is_exact 1 false 0
    (among_scans_apart (Runs.reaches_of_run droppedAndDone replay apart))
  exact ⟨k, replay, gone, total, members, counted, fun p => (known p).1.trans (known p).2⟩

end Lives
end Synergy
