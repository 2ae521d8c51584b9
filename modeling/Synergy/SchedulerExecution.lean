import Synergy.SchedulerOwnership
import Synergy.SchedulerQueue

/-! From the queue into a fiber. A task that a scan has taken is in the hands of
its thread, as the local `task` and then as the fiber about to be resumed, until
the switch into the fiber; the entries and the threads that entered them are kept
as history. So what `schedule` accepted can be followed up to its execution. -/
namespace Synergy

/-- The scheduler, the entry in the hands of each thread, and the entries that
were entered, latest first, each with the thread that did. -/
structure Execution where
  sched : Scheduler
  carried : ThreadId → Option Entry := fun _ => none
  entered : List (Entry × ThreadId) := []

/-- The thread has this entry in its hands. A thread that a finished fiber took
away never comes to enter. -/
def WorkerPc.Carries (e : Entry) : WorkerPc → Prop
  | .picked task => task = e.task
  | .resuming branch p | .switching branch p =>
    match branch with
    | .piber => e.task.piber = some p
    | .cb => e.task.piber = none
    | .idle => False
  | .lost branch => branch ≠ .idle
  | _ => False

namespace Execution

/-- The entry in the hands of the thread behind its next step. -/
def carriedAfter (x : Execution) (w : ThreadId) : Option Entry :=
  match (x.sched.workers w).pc with
  | .scanning => (Scheduler.scan x.sched.runing w x.sched.tasks).1
  | .switching _ p => if (x.sched.pibers p).ctx = .body then none else x.carried w
  | _ => x.carried w

/-- The entry that the next step of the thread enters. -/
def enters (x : Execution) (w : ThreadId) : Option Entry :=
  match (x.sched.workers w).pc with
  | .switching _ p => if (x.sched.pibers p).ctx = .body then x.carried w else none
  | _ => none

def step (x : Execution) (a : Scheduler.Action) : Option Execution :=
  (Scheduler.step x.sched a).map fun sched =>
    match a with
    | .worker w =>
      { sched
        carried := Function.update x.carried w (x.carriedAfter w)
        entered := ((x.enters w).map fun e => (e, w)).toList ++ x.entered }
    | _ => { x with sched }

/-- What happens to the hands in a step of the scheduler. -/
inductive Effect (x : Execution) (t : Scheduler) : Execution → Prop where
  | kept (taken : t.taken = x.sched.taken)
      (carries : ∀ w e, x.carried w = some e → (x.sched.workers w).pc.Carries e →
        e.task.isSet = true → (t.workers w).pc.Carries e) : Effect x t { x with sched := t }
  | took (w : ThreadId) (it : Entry) (taken : t.taken = it :: x.sched.taken)
      (pc : (x.sched.workers w).pc = .scanning) (pin : it.task.thread = -1 ∨ it.task.thread = w)
      (carries : (t.workers w).pc.Carries it)
      (others : ∀ v, v ≠ w → t.workers v = x.sched.workers v) :
      Effect x t { x with sched := t, carried := Function.update x.carried w (some it) }
  | entered (w : ThreadId) (taken : t.taken = x.sched.taken)
      (others : ∀ v, v ≠ w → t.workers v = x.sched.workers v) :
      Effect x t { sched := t, carried := Function.update x.carried w none,
                   entered := ((x.carried w).map fun e => (e, w)).toList ++ x.entered }

variable {x y : Execution} {t : Scheduler} {w : ThreadId}

/-- What is in hand is carried. -/
def Hands (x : Execution) : Prop :=
  ∀ w e, x.carried w = some e → (x.sched.workers w).pc.Carries e

/-- A step that is neither a scan nor a switch into a fiber. -/
private theorem Effect.of_worker {z : Worker} (taken : t.taken = x.sched.taken)
    (workers : t.workers = Function.update x.sched.workers w z)
    (on : ∀ e, (x.sched.workers w).pc.Carries e → e.task.isSet = true → z.pc.Carries e) :
    Effect x t { x with sched := t } := by
  refine .kept taken fun v e _ carries set => ?_
  rw [workers]
  by_cases same : v = w
  · subst v
    rw [Function.update_self]
    exact on e carries set
  · rwa [Function.update_of_ne same]

private theorem others_of_update {z : Worker}
    (workers : t.workers = Function.update x.sched.workers w z) :
    ∀ v, v ≠ w → t.workers v = x.sched.workers v := fun v apart => by
  rw [workers, Function.update_of_ne apart]

private theorem worker_quiet (carried : x.carriedAfter w = x.carried w)
    (enters : x.enters w = none) :
    ({ sched := t, carried := Function.update x.carried w (x.carriedAfter w),
       entered := ((x.enters w).map fun e => (e, w)).toList ++ x.entered } : Execution) =
      { x with sched := t } := by
  rw [carried, enters, Function.update_eq_self]
  rfl

theorem effect_worker (hands : Hands x) (moved : Scheduler.Move x.sched (.worker w) t) :
    Effect x t { sched := t, carried := Function.update x.carried w (x.carriedAfter w),
                 entered := ((x.enters w).map fun e => (e, w)).toList ++ x.entered } := by
  cases moved with
  | @took _ before after pc it split fits first =>
    have found : x.carriedAfter w = some it := by
      simp only [carriedAfter, pc, split]
      exact Scheduler.scan_finds fits first
    have quiet : x.enters w = none := by simp [enters, pc]
    rw [found, quiet]
    exact .took w it rfl pc fits.1 (by simp [WorkerPc.Carries]) (others_of_update rfl)
  | tookNothing pc none_fits =>
    have empty : x.carried w = none := by
      cases carried : x.carried w with
      | none => rfl
      | some e =>
        have carries := hands w e carried
        simp [pc, WorkerPc.Carries] at carries
    have found : x.carriedAfter w = x.carried w := by
      simp only [carriedAfter, pc, empty]
      rcases Scheduler.scan_cases x.sched.runing w x.sched.tasks with
        ⟨before, it, after, split, -, -, fits, -⟩ | ⟨nothing, -⟩
      · exact absurd fits (none_fits it (by simp [split]))
      · exact nothing
    rw [worker_quiet found (by simp [enters, pc])]
    refine .of_worker rfl rfl fun e carries _ => ?_
    simp [pc, WorkerPc.Carries] at carries
  | switched pc ctx =>
    have gone : x.carriedAfter w = none := by simp [carriedAfter, pc, ctx]
    have enters_it : x.enters w = x.carried w := by simp [enters, pc, ctx]
    rw [gone, enters_it]
    exact .entered w rfl (others_of_update rfl)
  | @threadLost _ branch p pc ctx =>
    rw [worker_quiet (by simp [carriedAfter, pc, ctx]) (by simp [enters, pc, ctx])]
    refine .of_worker rfl rfl fun e carries _ => ?_
    rw [pc] at carries
    cases branch <;> simp_all [WorkerPc.Carries]
  | @pickedPiber _ task p pc piber =>
    rw [worker_quiet (by simp [carriedAfter, pc]) (by simp [enters, pc])]
    refine .of_worker rfl rfl fun e carries _ => ?_
    have same : task = e.task := by simpa [pc, WorkerPc.Carries] using carries
    simp [WorkerPc.Carries, ← same, piber]
  | @pickedCb _ task f pc piber cb spare =>
    rw [worker_quiet (by simp [carriedAfter, pc]) (by simp [enters, pc])]
    refine .of_worker rfl rfl fun e carries _ => ?_
    have same : task = e.task := by simpa [pc, WorkerPc.Carries] using carries
    simp [WorkerPc.Carries, ← same, piber]
  | @recycledCb _ task f p pc piber cb spare =>
    rw [worker_quiet (by simp [carriedAfter, pc]) (by simp [enters, pc])]
    refine .of_worker rfl rfl fun e carries _ => ?_
    have same : task = e.task := by simpa [pc, WorkerPc.Carries] using carries
    simp [WorkerPc.Carries, ← same, piber]
  | @pickedIdle _ task pc piber cb live =>
    rw [worker_quiet (by simp [carriedAfter, pc]) (by simp [enters, pc])]
    refine .of_worker rfl rfl fun e carries set => ?_
    have same : task = e.task := by simpa [pc, WorkerPc.Carries] using carries
    simp [ScheduleTask.isSet, ← same, piber, cb] at set
  | @leave _ task pc piber cb ended =>
    rw [worker_quiet (by simp [carriedAfter, pc]) (by simp [enters, pc])]
    refine .of_worker rfl rfl fun e carries set => ?_
    have same : task = e.task := by simpa [pc, WorkerPc.Carries] using carries
    simp [ScheduleTask.isSet, ← same, piber, cb] at set
  | @marked _ branch p pc =>
    rw [worker_quiet (by simp [carriedAfter, pc]) (by simp [enters, pc])]
    refine .of_worker rfl rfl fun e carries _ => ?_
    simpa [pc, WorkerPc.Carries] using carries
  | entered pc | enteredRoot pc | idleEnded pc | idleYielded pc | termMarked pc | readyMarked pc
  | switchedOut pc | settledPiber pc | settledCb pc | settledIdle pc =>
    rw [worker_quiet (by simp [carriedAfter, pc]) (by simp [enters, pc])]
    refine .of_worker rfl rfl fun e carries _ => ?_
    simp [pc, WorkerPc.Carries] at carries

theorem effect_outside {a : Scheduler.Action} (owned : Scheduler.Ownership x.sched)
    (other : ∀ w, a ≠ .worker w) (moved : Scheduler.Move x.sched a t) :
    Effect x t { x with sched := t } := by
  have same : ∀ {s : Scheduler}, s.taken = x.sched.taken → s.workers = x.sched.workers →
      Effect x s { x with sched := s } := fun taken workers =>
    .kept taken fun w e _ carries _ => by rwa [workers]
  cases moved with
  | newPiber | scheduled | ignored | startRefused | stopRefused | stopCalled | stopMarked
  | rootLost | collected | joined | returned => exact same rfl rfl
  | @started ids open_for quiet count fresh =>
    refine .kept rfl fun w e _ carries _ => ?_
    by_cases member : w ∈ ids
    · simp [(fresh w member).2, WorkerPc.Carries] at carries
    · simpa [member] using carries
  | rootResumed pc root ctx =>
    refine .of_worker rfl rfl fun e carries _ => ?_
    rcases owned.caller (by simp [pc]) with out | left
    · simp [out, WorkerPc.Carries] at carries
    · simp [left, WorkerPc.Carries] at carries
  | rootReturned pc root done => exact .of_worker rfl rfl fun e carries _ => carries
  | yielded pc | finished pc =>
    refine .of_worker rfl rfl fun e carries _ => ?_
    simp [pc, WorkerPc.Carries] at carries
  | _ => exact absurd rfl (other _)

theorem effect_step {a : Scheduler.Action} (owned : Scheduler.Ownership x.sched)
    (hands : Hands x) (stepped : step x a = some y) :
    Effect x y.sched y ∧ Scheduler.step x.sched a = some y.sched := by
  obtain ⟨t, moved, same⟩ := Option.map_eq_some_iff.mp stepped
  have effect := Scheduler.move_of_step moved
  cases a with
  | worker w =>
    subst same
    exact ⟨effect_worker hands effect, moved⟩
  | _ =>
    subst same
    exact ⟨effect_outside owned (by simp) effect, moved⟩

/-- The accepted tasks are shared out between the queue, the hands of the
threads and the fibers entered. -/
structure Shares (x : Execution) : Prop where
  owned : Scheduler.Ownership x.sched
  ledger : Scheduler.Ledger x.sched
  hands : Hands x
  shared : ∃ threads : List ThreadId, threads.Nodup ∧
    (∀ w, w ∈ threads ↔ ∃ e, x.carried w = some e) ∧
    (threads.filterMap x.carried ++ x.entered.map Prod.fst).Perm x.sched.taken
  pinned : ∀ w e, x.carried w = some e → e.task.thread = -1 ∨ e.task.thread = w
  kept : ∀ en ∈ x.entered, en.1.task.thread = -1 ∨ en.1.task.thread = en.2

private theorem filterMap_update {threads : List ThreadId} {carried : ThreadId → Option Entry}
    {held : Option Entry} (out : w ∉ threads) :
    threads.filterMap (Function.update carried w held) = threads.filterMap carried := by
  refine List.filterMap_congr fun v member => ?_
  have apart : v ≠ w := fun same => out (same ▸ member)
  rw [Function.update_of_ne apart]

theorem Shares.isSet (shares : Shares x) {e : Entry} (held : x.carried w = some e) :
    e.task.isSet = true := by
  obtain ⟨threads, -, known, shared⟩ := shares.shared
  have inside : e ∈ threads.filterMap x.carried :=
    List.mem_filterMap.mpr ⟨w, (known w).mpr ⟨e, held⟩, held⟩
  have taken : e ∈ x.sched.taken := shared.mem_iff.mp (List.mem_append_left _ inside)
  have accepted := shares.ledger.genuine e (List.mem_append_right _ taken)
  exact shares.ledger.set _ (List.mem_of_getElem? accepted)

/-- The hands of the thread are empty or filled by a step that nobody else's
hands notice. -/
private theorem hands_update {held : Option Entry} (hands : Hands x)
    (others : ∀ v, v ≠ w → t.workers v = x.sched.workers v)
    (here : ∀ e, held = some e → (t.workers w).pc.Carries e) (v : ThreadId) (e : Entry)
    (carried : Function.update x.carried w held v = some e) : (t.workers v).pc.Carries e := by
  by_cases same : v = w
  · subst v
    rw [Function.update_self] at carried
    exact here e carried
  · rw [Function.update_of_ne same] at carried
    rw [others v same]
    exact hands v e carried

private theorem pinned_update {held : Option Entry} (shares : Shares x)
    (here : ∀ e, held = some e → e.task.thread = -1 ∨ e.task.thread = w) (v : ThreadId) (e : Entry)
    (carried : Function.update x.carried w held v = some e) :
    e.task.thread = -1 ∨ e.task.thread = v := by
  by_cases same : v = w
  · subst v
    rw [Function.update_self] at carried
    exact here e carried
  · rw [Function.update_of_ne same] at carried
    exact shares.pinned v e carried

theorem shared_took {it : Entry} (shares : Shares x) (empty : x.carried w = none)
    (taken : t.taken = it :: x.sched.taken) :
    ∃ threads : List ThreadId, threads.Nodup ∧
      (∀ v, v ∈ threads ↔ ∃ e, Function.update x.carried w (some it) v = some e) ∧
      (threads.filterMap (Function.update x.carried w (some it)) ++
        x.entered.map Prod.fst).Perm t.taken := by
  obtain ⟨threads, nodup, known, shared⟩ := shares.shared
  have out : w ∉ threads := fun member => by
    obtain ⟨e, held⟩ := (known w).mp member
    rw [empty] at held
    cases held
  refine ⟨w :: threads, nodup.cons out, fun v => ?_, ?_⟩
  · by_cases same : v = w
    · subst v
      simp
    · simp [same, known v]
  · rw [List.filterMap_cons, Function.update_self, filterMap_update out, taken]
    exact shared.cons it

theorem shared_entered (shares : Shares x) (taken : t.taken = x.sched.taken) :
    ∃ threads : List ThreadId, threads.Nodup ∧
      (∀ v, v ∈ threads ↔ ∃ e, Function.update x.carried w none v = some e) ∧
      (threads.filterMap (Function.update x.carried w none) ++
        (((x.carried w).map fun e => (e, w)).toList ++ x.entered).map Prod.fst).Perm t.taken := by
  obtain ⟨threads, nodup, known, shared⟩ := shares.shared
  rw [taken]
  cases held : x.carried w with
  | none =>
    rw [← held, Function.update_eq_self]
    exact ⟨threads, nodup, known, by simpa [held] using shared⟩
  | some e =>
    have member : w ∈ threads := (known w).mpr ⟨e, held⟩
    refine ⟨threads.erase w, nodup.erase w, fun v => ?_, ?_⟩
    · rw [nodup.mem_erase_iff]
      by_cases same : v = w
      · subst v
        simp
      · simp [same, known v]
    · have split := (List.perm_cons_erase member).filterMap x.carried
      rw [List.filterMap_cons, held] at split
      rw [filterMap_update (nodup.not_mem_erase)]
      simp only [Option.map_some, Option.toList_some, List.singleton_append, List.map_cons]
      exact List.perm_middle.trans ((split.symm.append_right _).trans shared)

theorem shares_step {a : Scheduler.Action} (shares : Shares x) (stepped : step x a = some y) :
    Shares y := by
  obtain ⟨effect, moved⟩ := effect_step shares.owned shares.hands stepped
  have owned := Scheduler.ownership_step shares.owned moved
  have ledger := Scheduler.ledger_step shares.ledger moved
  obtain ⟨sched, carried, entered⟩ := y
  cases effect with
  | kept taken carries =>
    refine ⟨owned, ledger, fun w e held => ?_, ?_, shares.pinned, shares.kept⟩
    · exact carries w e held (shares.hands w e held) (shares.isSet held)
    · rw [taken]
      exact shares.shared
  | took w it taken pc pin carries others =>
    have empty : x.carried w = none := by
      cases held : x.carried w with
      | none => rfl
      | some e =>
        have inside := shares.hands w e held
        simp [pc, WorkerPc.Carries] at inside
    refine ⟨owned, ledger, ?_, shared_took shares empty taken, ?_, shares.kept⟩
    · exact hands_update shares.hands others fun e same => by cases same; exact carries
    · exact pinned_update shares fun e same => by cases same; exact pin
  | entered w taken others =>
    refine ⟨owned, ledger, ?_, shared_entered shares taken, ?_, fun en member => ?_⟩
    · exact hands_update shares.hands others fun e same => by cases same
    · exact pinned_update shares fun e same => by cases same
    · rcases List.mem_append.mp member with here | before
      · obtain ⟨e, held, rfl⟩ : ∃ e, x.carried w = some e ∧ en = (e, w) := by
          simpa [eq_comm] using here
        exact shares.pinned w e held
      · exact shares.kept en before

theorem shares_initial (threads : UInt64) (use_caller : Bool) (caller : ThreadId) :
    Shares { sched := .initial threads use_caller caller } where
  owned := Scheduler.ownership_initial threads use_caller caller
  ledger := Scheduler.ledger_initial threads use_caller caller
  hands w e held := by cases held
  shared := by
    have taken : (Scheduler.initial threads use_caller caller).taken = [] := by
      unfold Scheduler.initial
      split <;> rfl
    exact ⟨[], List.nodup_nil, by simp, by simp [taken]⟩
  pinned w e held := by cases held
  kept en member := by cases member

/-- **Every accepted task is entered once.** In every reachable state each task
that `schedule` accepted is in exactly one place: in the queue, in the hands of
one thread on its way from the take to the switch into the fiber, or in the
history of entered tasks. No task is entered twice or by a thread other than the
one that it was scheduled for. -/
theorem every_task_is_entered_once (threads : UInt64) (use_caller : Bool) (caller : ThreadId)
    (reached : Runs.Reachable step { sched := .initial threads use_caller caller } x) :
    ∃ holders : List ThreadId, holders.Nodup ∧
      (∀ w, w ∈ holders ↔ ∃ e, x.carried w = some e) ∧
      ((x.sched.tasks ++ holders.filterMap x.carried ++ x.entered.map Prod.fst).map
        Entry.ticket).Perm (List.range x.sched.accepted.length) ∧
      (∀ e ∈ x.sched.tasks ++ holders.filterMap x.carried ++ x.entered.map Prod.fst,
        x.sched.accepted[e.ticket]? = some e.task) ∧
      (∀ w e, x.carried w = some e → (x.sched.workers w).pc.Carries e) ∧
      ∀ en ∈ x.entered, en.1.task.thread = -1 ∨ en.1.task.thread = en.2 := by
  have shares : Shares x := reached.invariant Shares (shares_initial threads use_caller caller)
    fun _ _ _ shares _ stepped => shares_step shares stepped
  obtain ⟨holders, nodup, known, shared⟩ := shares.shared
  have places : (x.sched.tasks ++ holders.filterMap x.carried ++ x.entered.map Prod.fst).Perm
      (x.sched.tasks ++ x.sched.taken) := by
    rw [List.append_assoc]
    exact shared.append_left _
  refine ⟨holders, nodup, known, ?_, fun e member => ?_, shares.hands, shares.kept⟩
  · exact (places.map _).trans shares.ledger.conserved
  · exact shares.ledger.genuine e (places.mem_iff.mp member)

/-- Thread 1 enters a callback that is for it, and thread 2 has another in hand. -/
def enteredAndPicked : List Scheduler.Action :=
  [.start [1, 2], .schedule none (.cb (some 5)) 1, .schedule none (.cb (some 7)) (-1),
    .worker 1, .worker 1, .worker 2, .worker 2, .worker 1, .worker 1, .worker 1]

theorem entered_and_picked_share :
    ∃ x, Runs.run step { sched := .initial 2 false 0 } enteredAndPicked = some x ∧
      x.entered = [(⟨.make (.cb (some 5)) 1, 0⟩, 1)] ∧
      ∀ w e, x.carried w = some e → (x.sched.workers w).pc.Carries e := by
  have ran : ∃ x, Runs.run step { sched := .initial 2 false 0 } enteredAndPicked = some x ∧
      x.entered = [(⟨.make (.cb (some 5)) 1, 0⟩, 1)] := ⟨_, rfl, rfl⟩
  obtain ⟨x, replay, entered⟩ := ran
  obtain ⟨_, _, _, _, _, hands, _⟩ :=
    every_task_is_entered_once 2 false 0 (Runs.reachable_of_run enteredAndPicked replay)
  exact ⟨x, replay, entered, hands⟩

end Execution
end Synergy
