import Synergy.IOManagerObject

/-! Shutdown with events outstanding. `IOManager::stopping` says that an
`IOManager` waits for its events, but `run` and `stop` go by
`Scheduler::stopping`, which knows no events. It is left to the callers: no
event is left behind where, as long as one is registered, a task is queued or
runs, and where none is added once nothing holds the shutdown up. -/
namespace Synergy

/-- Inside `run`: neither out of it nor lost. -/
def WorkerPc.within : WorkerPc → Bool
  | .outside | .left | .lost _ => false
  | _ => true

namespace IOManager

variable {u : Undefined} {m n : IOManager} {thread : ThreadId}

/-- The next statement of the thread is `++m_pendingEventCount`. -/
def counts (m : IOManager) (thread : ThreadId) : Bool :=
  match m.threads thread with
  | .calling fd | .handling fd _ =>
    match (m.table.slot fd).mutex with
    | some ⟨holder, .increment :: _⟩ => holder == thread
    | _ => false
  | _ => false

theorem pending_move {a : Action} (moved : Move u m a n) :
    n.pendingEventCount ≤ m.pendingEventCount ∨
      ∃ thread ok, a = .next thread ok ∧ m.counts thread = true := by
  cases moved with
  | @executed thread fd after op rest ok inside held plain =>
    cases op with
    | increment =>
      refine .inr ⟨thread, ok, rfl, ?_⟩
      cases inside with
      | call pc => simp [counts, pc, held]
      | report pc => simp [counts, pc, held]
    | decrement =>
      left
      simp [Micro.change]
    | _ =>
      left
      simp [Micro.change]
  | _ => exact .inl (Int.le_refl _)

/-- No event is registered on any fd, and no locked section is under way. -/
def Quiet (m : IOManager) : Prop :=
  ∀ fd < m.table.size, (m.table.slot fd).events = 0 ∧ (m.table.slot fd).mutex = none

instance (m : IOManager) : Decidable (Quiet m) := by
  unfold Quiet
  infer_instance

theorem PendingLaw.zero_of_quiet (law : PendingLaw 0 m) (quiet : Quiet m) :
    m.pendingEventCount = 0 := by
  have nothing : ∀ fd, m.weight fd = 0 := by
    intro fd
    unfold weight
    split
    · obtain ⟨events, unheld⟩ := quiet fd ‹_›
      simp [FdContext.owed, unheld, events, registered, Event.isIn]
    · rfl
  have outside : ∀ fd ∉ (∅ : Finset ℕ), m.weight fd = 0 := fun fd _ => nothing fd
  have total := law.counted.eq_sum outside
  rw [Finset.sum_empty] at total
  omega

end IOManager

namespace Scheduler

variable {s t : Scheduler}

/-- One of these threads is inside `run`. -/
def anyWithin (s : Scheduler) (threads : List ThreadId) : Bool :=
  threads.any fun w => (s.workers w).pc.within

/-- No `stop` is under way, or it has a thread inside `run` to wait for, or the
root to resume. -/
def waits (s : Scheduler) : Bool :=
  match s.owner with
  | .outside | .lost => true
  | .marking | .resumingRoot => s.rootPiber.isSome || s.anyWithin s.threads
  | .inRoot => s.anyWithin (s.caller :: s.threads)
  | .collecting => s.anyWithin s.threads
  | .joining thrs => s.anyWithin thrs

/-- No thread is inside `run`, and none inside `stop`. -/
structure AtRest (s : Scheduler) : Prop where
  outside : s.owner = .outside
  empty : ∀ w, (s.workers w).pc.within = false

/-- Something holds the shutdown up: a task is queued or runs, or `stop` was not
called; nobody is on the way out of `run`, and `stop` waits for somebody there. -/
structure HeldUp (s : Scheduler) : Prop where
  live : s.stopping = false
  waits : s.waits = true
  untold : ∀ w, (s.workers w).pc.within = true → ¬ s.Told w

/-- The steps that do not let the shutdown go on: `stop` is called while a task
is queued or runs and with somebody to wait for; where it sets `m_stopping`, and
where a task gives its thread back meanwhile, another one is queued or runs; and
no thread switches to an ended context and is lost. -/
def HoldsOn (s : Scheduler) : Action → Prop
  | .stop => s.stopping = false ∧ (s.rootPiber.isSome || s.anyWithin s.threads) = true
  | .owner => s.owner = .marking → s.tasks ≠ [] ∨ s.activeThreadCount ≠ 0
  | .worker w =>
    match (s.workers w).pc with
    | .switching _ p => (s.pibers p).ctx = .body
    | .resumed branch =>
      branch ≠ .idle → s.m_stopping = true → s.tasks ≠ [] ∨ s.activeThreadCount ≠ 1
    | _ => True
  | _ => True

instance (s : Scheduler) (w : ThreadId) : Decidable (s.Told w) :=
  inferInstanceAs (Decidable (_ ∨ _))

instance (s : Scheduler) : (a : Action) → Decidable (HoldsOn s a)
  | .stop => inferInstanceAs (Decidable (_ ∧ _))
  | .owner => inferInstanceAs (Decidable (_ → _))
  | .newPiber | .schedule .. | .start _ | .yield _ | .finish _ => .isTrue trivial
  | .worker w =>
    match pc : (s.workers w).pc with
    | .switching _ p => decidable_of_iff ((s.pibers p).ctx = .body) (by simp [HoldsOn, pc])
    | .resumed branch =>
      decidable_of_iff (branch ≠ .idle → s.m_stopping = true →
        s.tasks ≠ [] ∨ s.activeThreadCount ≠ 1) (by simp [HoldsOn, pc])
    | .outside | .entering | .scanning | .picked _ | .resuming .. | .inside .. | .ending ..
    | .parting .. | .yielding .. | .left | .lost _ => .isTrue (by simp [HoldsOn, pc])

theorem within_of_running {w : ThreadId} {x : Worker} {v : ThreadId}
    (inside : ((Function.update s.workers w x) v).pc.within = true)
    (before : (s.workers w).pc.within = true) : (s.workers v).pc.within = true := by
  by_cases same : v = w
  · rw [same]
    exact before
  · rwa [Function.update_of_ne same] at inside

/-- A thread gets inside `run` at its entry only. -/
theorem within_move {a : Action} {v : ThreadId} (moved : Move s a t)
    (inside : (t.workers v).pc.within = true) :
    (s.workers v).pc.within = true ∨ (t.workers v).pc = .entering := by
  cases moved with
  | newPiber | scheduled | ignored | startRefused | stopRefused | stopCalled | stopMarked
  | rootLost | collected | joined | returned => exact .inl inside
  | @started ids open_for quiet count fresh =>
    by_cases member : v ∈ ids
    · exact .inr (by simp [member])
    · exact .inl (by simpa [member] using inside)
  | rootResumed =>
    by_cases same : v = s.caller
    · exact .inr (by simp [same])
    · exact .inl (by simpa [Function.update_of_ne same] using inside)
  | rootReturned pc root done =>
    by_cases same : v = s.caller
    · simp [same, done, WorkerPc.within] at inside
    · exact .inl (by simpa [Function.update_of_ne same] using inside)
  | entered pc | enteredRoot pc | took pc | tookNothing pc | pickedPiber pc | pickedCb pc
  | recycledCb pc | pickedIdle pc | leave pc | marked pc | switched pc | threadLost pc
  | idleEnded pc | idleYielded pc | yielded pc | finished pc | termMarked pc | readyMarked pc
  | switchedOut pc | settledPiber pc | settledCb pc | settledIdle pc =>
    exact .inl (within_of_running inside (by simp [pc, WorkerPc.within]))

/-- A thread gets out of `run` where it was told to, or is lost. -/
theorem within_kept {a : Action} {v : ThreadId} (on : HoldsOn s a) (moved : Move s a t)
    (inside : (s.workers v).pc.within = true) (untold : ¬ s.Told v) :
    (t.workers v).pc.within = true := by
  have stays : ∀ w x, (w = v → x.pc.within = true) →
      ((Function.update s.workers w x) v).pc.within = true := by
    intro w x here
    by_cases same : v = w
    · subst same
      simpa using here rfl
    · rwa [Function.update_of_ne same]
  cases moved with
  | newPiber | scheduled | ignored | startRefused | stopRefused | stopCalled | stopMarked
  | rootLost | collected | joined | returned => exact inside
  | @started ids open_for quiet count fresh =>
    by_cases member : v ∈ ids
    · simp [member, WorkerPc.within]
    · simpa [member] using inside
  | rootReturned pc root done =>
    refine stays _ _ ?_
    rintro rfl
    simp [done, WorkerPc.within] at inside
  | leave pc piber cb ended =>
    refine stays _ _ ?_
    rintro rfl
    exact absurd (.inr ⟨by simp [pc, WorkerPc.running], ended⟩) untold
  | threadLost pc ctx =>
    simp only [HoldsOn, pc, ctx] at on
    cases on
  | _ => exact stays _ _ fun _ => rfl

theorem anyWithin_mono {threads : List ThreadId}
    (kept : ∀ v, (s.workers v).pc.within = true → (t.workers v).pc.within = true)
    (inside : s.anyWithin threads = true) : t.anyWithin threads = true := by
  obtain ⟨v, member, within⟩ := List.any_eq_true.mp inside
  exact List.any_eq_true.mpr ⟨v, member, kept v within⟩

/-- What `stop` waits for stays where the threads stay. -/
private theorem waits_mono (owner : t.owner = s.owner) (threads : t.threads = s.threads)
    (root : t.rootPiber = s.rootPiber) (caller : t.caller = s.caller)
    (kept : ∀ v, (s.workers v).pc.within = true → (t.workers v).pc.within = true)
    (waits : s.waits = true) : t.waits = true := by
  have mono : ∀ threads, s.anyWithin threads = true → t.anyWithin threads = true :=
    fun _ => anyWithin_mono kept
  unfold Scheduler.waits at waits ⊢
  rw [owner, root, threads, caller]
  split <;> simp_all only [Bool.or_eq_true]
  · exact waits.imp_right (mono _)
  · exact waits.imp_right (mono _)

private theorem live_move {a : Action} (settled : Settled s) (live : s.stopping = false)
    (on : HoldsOn s a) (moved : Move s a t) : t.stopping = false := by
  have counted := counted_move settled.owned settled.counted moved
  cases moved with
  | scheduled => simp [stopping]
  | stopMarked pc =>
    have held := on pc
    simp only [stopping]
    grind
  | @took w before after pc it split =>
    by_contra stopped
    obtain ⟨_, _, _, free⟩ := quiet_of_stopping counted (by simpa using stopped)
    have set := (settled.owned.tasks it (by simp [split])).1
    simpa [WorkerPc.busy, set] using free w
  | settledPiber pc =>
    have held := on
    simp only [HoldsOn, pc] at held
    simp only [stopping, advance, setWorker]
    grind
  | settledCb pc =>
    have held := on
    simp only [HoldsOn, pc] at held
    simp only [stopping, setWorker]
    grind
  | _ => exact live

private theorem waits_move {a : Action} (waits : s.waits = true) (on : HoldsOn s a)
    (moved : Move s a t)
    (kept : ∀ v, (s.workers v).pc.within = true → (t.workers v).pc.within = true) :
    t.waits = true := by
  have mono : ∀ threads, s.anyWithin threads = true → t.anyWithin threads = true :=
    fun _ => anyWithin_mono kept
  cases moved with
  | newPiber | scheduled | ignored | startRefused | stopRefused => exact waits
  | started open_for quiet => simp [Scheduler.waits, quiet]
  | stopCalled quiet live => exact on.2
  | stopMarked pc =>
    cases root : s.rootPiber with
    | none =>
      have others : s.anyWithin s.threads = true := by
        simpa [Scheduler.waits, pc, root] using waits
      simpa [Scheduler.waits, root] using mono _ others
    | some r => simp [Scheduler.waits]
  | rootResumed pc root ctx =>
    simp [Scheduler.waits, anyWithin, WorkerPc.within]
  | rootLost pc root ctx => rfl
  | rootReturned pc root done =>
    refine mono s.threads ?_
    simpa [Scheduler.waits, pc, anyWithin, done, WorkerPc.within] using waits
  | collected pc =>
    refine mono s.threads ?_
    simpa [Scheduler.waits, pc] using waits
  | @joined thr thrs pc done =>
    have out : (s.workers thr).pc.within = false := by
      rcases done with left | ⟨branch, lost⟩
      · simp [left, WorkerPc.within]
      · simp [lost, WorkerPc.within]
    simpa [Scheduler.waits, pc, anyWithin, out] using waits
  | returned pc => simp [Scheduler.waits, pc, anyWithin] at waits
  | entered pc | enteredRoot pc | took pc | tookNothing pc | pickedPiber pc | pickedCb pc
  | recycledCb pc | pickedIdle pc | leave pc | marked pc | switched pc | threadLost pc
  | idleEnded pc | idleYielded pc | yielded pc | finished pc | termMarked pc | readyMarked pc
  | switchedOut pc | settledPiber pc | settledCb pc | settledIdle pc =>
    exact waits_mono (s := s) rfl rfl rfl rfl kept waits

/-- Where nothing is told to leave, what holds the shutdown up stays. -/
theorem heldUp_move {a : Action} (settled : Settled s) (held : HeldUp s) (on : HoldsOn s a)
    (moved : Move s a t) : HeldUp t where
  live := live_move settled held.live on moved
  waits := waits_move held.waits on moved fun v inside =>
    within_kept on moved inside (held.untold v inside)
  untold v inside told := by
    rcases within_move moved inside with before | entering
    · rcases told_move settled.owned moved told with earlier | now
      · exact held.untold v before earlier
      · have answering := stopping_of_answered now
        simp [held.live] at answering
    · simp [Told, entering, WorkerPc.departing, WorkerPc.running] at told

/-- A scheduler at rest stays so, or is started or stopped and held up. -/
theorem atRest_move {a : Action} (rest : AtRest s) (on : HoldsOn s a)
    (moved : Move s a t) : AtRest t ∨ HeldUp t := by
  have elsewhere : ∀ {w : ThreadId} {pc : WorkerPc}, (s.workers w).pc = pc → pc.within = true →
      AtRest t ∨ HeldUp t := by
    intro w pc here inside
    have out := rest.empty w
    rw [here, inside] at out
    cases out
  cases moved with
  | newPiber | scheduled | ignored | startRefused | stopRefused =>
    exact .inl ⟨rest.outside, rest.empty⟩
  | @started ids open_for quiet count fresh =>
    refine .inr ⟨by simp [stopping, open_for], by simp [waits, quiet], fun w inside told => ?_⟩
    by_cases member : w ∈ ids
    · simp [Told, member, WorkerPc.departing, WorkerPc.running] at told
    · have out := rest.empty w
      simp [member, out] at inside
  | stopCalled quiet live =>
    refine .inr ⟨on.1, on.2, fun w inside => ?_⟩
    have out := rest.empty w
    rw [out] at inside
    cases inside
  | stopMarked pc | rootResumed pc | rootLost pc | rootReturned pc | collected pc | joined pc
  | returned pc =>
    rw [rest.outside] at pc
    cases pc
  | entered pc | enteredRoot pc | took pc | tookNothing pc | pickedPiber pc | pickedCb pc
  | recycledCb pc | pickedIdle pc | leave pc | marked pc | switched pc | threadLost pc
  | idleEnded pc | idleYielded pc | yielded pc | finished pc | termMarked pc | readyMarked pc
  | switchedOut pc | settledPiber pc | settledCb pc | settledIdle pc => exact elsewhere pc rfl

/-- Nothing could leave an event behind: nobody shuts down, or something holds
the shutdown up. -/
def Open (s : Scheduler) : Prop := AtRest s ∨ HeldUp s

theorem open_move {a : Action} (settled : Settled s) (opened : Open s) (on : HoldsOn s a)
    (moved : Move s a t) : Open t :=
  opened.elim (fun rest => atRest_move rest on moved)
    fun held => .inr (heldUp_move settled held on moved)

theorem open_deliver {handed : List Handover} (settled : Settled s) (opened : Open s)
    (runnable : ∀ h ∈ handed, h.scheduler = some IOManager.self → s.userPiber h.task = true) :
    Open (s.deliver handed) := by
  suffices both : Settled (s.deliver handed) ∧ Open (s.deliver handed) from both.2
  refine (reaches_deliver runnable).invariant (fun t => Settled t ∧ Open t) ⟨settled, opened⟩ ?_
  rintro t a v ⟨kept, still⟩ ⟨fc, rfl⟩ stepped
  have on : HoldsOn t (.schedule none fc (-1)) := trivial
  exact ⟨settled_step kept stepped, open_move kept still on (move_of_step stepped)⟩

/-- Where the scheduler is open no thread leaves `run`. -/
theorem Open.stays {a : Action} {w : ThreadId} (opened : Open s) (moved : Move s a t)
    (left : (t.workers w).pc = .left) : (s.workers w).pc = .left := by
  have other : ∀ v x, x.pc ≠ .left → (Function.update s.workers v x w).pc = .left →
      (s.workers w).pc = .left := by
    intro v x stays there
    by_cases same : w = v
    · rw [same, Function.update_self] at there
      exact absurd there stays
    · rwa [Function.update_of_ne same] at there
  cases moved with
  | newPiber | scheduled | ignored | startRefused | stopRefused | stopCalled | stopMarked
  | rootLost | collected | joined | returned => exact left
  | @started ids open_for quiet count fresh =>
    by_cases member : w ∈ ids
    · simp [member] at left
    · simpa [member] using left
  | rootReturned pc root done =>
    by_cases same : w = s.caller
    · rw [same, done]
    · simpa [Function.update_of_ne same] using left
  | @leave v task pc piber cb ended =>
    have inside : (s.workers v).pc.within = true := by simp [pc, WorkerPc.within]
    rcases opened with rest | held
    · rw [rest.empty v] at inside
      cases inside
    · exact absurd (.inr ⟨by simp [pc, WorkerPc.running], ended⟩) (held.untold v inside)
  | _ => exact other _ _ (by simp) left

/-- Where the scheduler is open no `stop` is about to return. -/
theorem Open.joining (opened : Open s) : s.owner ≠ .joining [] := by
  intro joined
  rcases opened with rest | held
  · rw [rest.outside] at joined
    cases joined
  · have waits := held.waits
    simp [Scheduler.waits, joined, anyWithin] at waits

end Scheduler

namespace IOManager.Object

variable {u : Undefined} {m n : Object}

/-- `Scheduler.Open` of the scheduler, by the threads that have been inside. -/
def Room (m : Object) : Prop :=
  m.scheduler.owner = .outside ∧
      (∀ w ∈ m.entered, (m.scheduler.workers w).pc.within = false) ∨
    m.scheduler.stopping = false ∧ m.scheduler.waits = true ∧
      ∀ w ∈ m.entered, (m.scheduler.workers w).pc.within = true → ¬ m.scheduler.Told w

instance (m : Object) : Decidable m.Room := by
  unfold Room
  infer_instance

theorem Kept.opened (kept : Kept m) (room : m.Room) : m.scheduler.Open := by
  have known : ∀ w, (m.scheduler.workers w).pc.within = true → w ∈ m.entered := by
    intro w inside
    by_contra out
    rw [kept.entered w out] at inside
    cases inside
  rcases room with ⟨outside, empty⟩ | ⟨live, waits, untold⟩
  · refine .inl ⟨outside, fun w => ?_⟩
    by_contra inside
    have within : (m.scheduler.workers w).pc.within = true := by simpa using inside
    exact inside (empty w (known w within))
  · exact .inr ⟨live, waits, fun w inside => untold w (known w inside) inside⟩

/-- What is asked of the callers. `addEvent` is for new events, and counts one
only where there is room for it; and as long as some event is registered the
scheduler is not let go. -/
def Heeded (m : Object) : Action → Prop
  | .scheduler a => m.io.Quiet ∨ m.scheduler.HoldsOn a
  | .io a => IOManager.AddsNew m.io a ∧
    match a with
    | .next thread _ => m.io.counts thread = true → m.Room
    | _ => True

instance (m : Object) : (a : Action) → Decidable (Heeded m a)
  | .scheduler _ => inferInstanceAs (Decidable (_ ∨ _))
  | .io (.next ..) => inferInstanceAs (Decidable (_ ∧ (_ → _)))
  | .io (.call ..) | .io (.wait ..) => inferInstanceAs (Decidable (_ ∧ True))

/-- A worker leaves `run` in this step. -/
def LeavesRun (m n : Object) : Prop :=
  ∃ w, (m.scheduler.workers w).pc ≠ .left ∧ (n.scheduler.workers w).pc = .left

/-- `stop` returns in this step. -/
def StopReturns (m : Object) : Action → Prop
  | .scheduler .stop => m.scheduler.stopping = true
  | .scheduler .owner => m.scheduler.owner = .joining []
  | _ => False

/-- An event is pending only where there is room. -/
structure Attended (m : Object) : Prop where
  kept : Kept m
  room : 0 < m.io.pendingEventCount → m.scheduler.Open

theorem Attended.pending_nonneg (attended : Attended m) : 0 ≤ m.io.pendingEventCount :=
  attended.kept.counted.nonneg

/-- A pending event is registered, or its section is under way. -/
theorem Attended.holds_on {b : Scheduler.Action} (attended : Attended m)
    (heeded : Heeded m (.scheduler b)) (pending : 0 < m.io.pendingEventCount) :
    m.scheduler.HoldsOn b := by
  rcases heeded with quiet | on
  · have zero := attended.kept.counted.zero_of_quiet quiet
    omega
  · exact on

theorem attended_move {a : Action} (lawful : u.Lawful) (attended : Attended m)
    (heeded : Heeded m a) (moved : Move u m a n) : Attended n := by
  have adds_new : AddsNew m a := by
    cases a with
    | scheduler b => trivial
    | io b => exact heeded.1
  refine ⟨kept_move lawful attended.kept adds_new moved, fun pending => ?_⟩
  have settled := attended.kept.settled
  cases moved with
  | scheduler moved =>
    exact Scheduler.open_move settled (attended.room pending) (attended.holds_on heeded pending)
      moved
  | @io b registry allowed moved =>
    refine Scheduler.open_deliver settled ?_ (attended.kept.runnable lawful moved)
    rcases IOManager.pending_move moved with fewer | ⟨thread, ok, rfl, counts⟩
    · exact attended.room (Int.lt_of_lt_of_le pending fewer)
    · exact attended.kept.opened (heeded.2 counts)

theorem attended_create (threads : UInt64) (use_caller : Bool) (caller : ThreadId) :
    Attended (create threads use_caller caller) :=
  ⟨kept_create _ _ _, fun pending => absurd pending (by simp [create])⟩

/-- **No event is left behind.** In every run whose steps are heeded, no worker
leaves `run` and `stop` does not return while an event is pending. -/
theorem shuts_down_without_events (u : Undefined) (lawful : u.Lawful) (threads : UInt64)
    (use_caller : Bool) (caller : ThreadId) {a : Action}
    (reached : Runs.Reaches (step u) Heeded (create threads use_caller caller) m)
    (heeded : Heeded m a) (stepped : step u m a = some n) :
    LeavesRun m n ∨ StopReturns m a → m.io.pendingEventCount = 0 := by
  have attended : Attended m := reached.invariant Attended (attended_create _ _ _)
    fun _ _ _ kept heeded stepped => attended_move lawful kept heeded (move_of_step stepped)
  intro ends
  by_contra some_pending
  have pending : 0 < m.io.pendingEventCount := by
    have nonneg := attended.pending_nonneg
    omega
  have opened := attended.room pending
  rcases ends with ⟨w, inside, left⟩ | returns
  · cases move_of_step stepped with
    | scheduler moved => exact inside (opened.stays moved left)
    | @io b registry allowed moved =>
      obtain ⟨tasks, accepted, same⟩ := Scheduler.deliver_frame m.scheduler registry.handed
      simp only [same] at left
      exact inside left
  · unfold StopReturns at returns
    split at returns
    · have live := (attended.holds_on heeded pending).1
      rw [returns] at live
      cases live
    · exact opened.joining returns
    · exact returns

/-- One worker runs a callback that adds an event, and is stopped behind it. -/
def addThenStop (between : List Action) : List Action :=
  [.scheduler (.start [1]), .scheduler (.schedule none (.cb (some 7)) (-1))] ++
    List.replicate 5 (.scheduler (.worker 1)) ++
    [.io (.call 1 (.addEvent .READ (some 8) (some self) 2) 5)] ++
    List.replicate 7 (.io (.next 1 true)) ++ between ++ [.scheduler (.finish 1)] ++
    List.replicate 4 (.scheduler (.worker 1)) ++
    [.scheduler .stop, .scheduler .owner, .scheduler .owner] ++
    List.replicate 11 (.scheduler (.worker 1)) ++ [.scheduler .owner]

/-- The callback removes its event again. -/
def removed : List Action :=
  [.io (.call 1 (.delEvent .READ) 5)] ++ List.replicate 6 (.io (.next 1 true))

theorem removed_event_lets_stop_return :
    ∃ m n, Runs.run (step .least) (create 1 false 0) (addThenStop removed) = some m ∧
      step .least m (.scheduler .owner) = some n ∧ (m.scheduler.workers 1).pc = .left ∧
      StopReturns m (.scheduler .owner) ∧ m.io.pendingEventCount = 0 := by
  have seen : (Runs.run (step .least) (create 1 false 0) (addThenStop removed)).map
      (fun m => ((m.scheduler.workers 1).pc, m.scheduler.owner,
        (step .least m (.scheduler .owner)).isSome)) = some (.left, .joining [], true) := by
    decide +kernel
  have heeded : Runs.AllSteps (step .least) Heeded (create 1 false 0) (addThenStop removed) := by
    decide +kernel
  obtain ⟨m, replay, same⟩ := Option.map_eq_some_iff.mp seen
  simp only [Prod.mk.injEq] at same
  obtain ⟨left, joined, enabled⟩ := same
  obtain ⟨n, returned⟩ := Option.isSome_iff_exists.mp enabled
  have waits : Heeded m (.scheduler .owner) := .inr fun marking => by simp [joined] at marking
  exact ⟨m, n, replay, returned, left, joined, shuts_down_without_events .least least_lawful 1
    false 0 (Runs.reaches_of_run (addThenStop removed) replay heeded) waits returned (.inr joined)⟩

/-- A callback adds an event behind a `stop` that has returned. -/
example :
    let behind := addThenStop removed ++
      [.scheduler .owner, .io (.call 0 (.addEvent .READ (some 8) (some self) 2) 5)] ++
      List.replicate 5 (.io (.next 0 true))
    Runs.AllSteps (step .least) Heeded (create 1 false 0) behind ∧
      (Runs.run (step .least) (create 1 false 0) behind).map (·.io.pendingEventCount) =
        some 1 := by
  decide +kernel

/-- The event stays, and the worker and `stop` leave all the same. -/
theorem added_event_left_behind :
    ∃ m, Runs.run (step .least) (create 1 false 0) (addThenStop []) = some m ∧
      (m.scheduler.workers 1).pc = .left ∧ StopReturns m (.scheduler .owner) ∧
      (step .least m (.scheduler .owner)).isSome = true ∧ m.io.pendingEventCount = 1 ∧
      (m.io.table.slot 5).events = Event.READ.bits := by
  have seen : (Runs.run (step .least) (create 1 false 0) (addThenStop [])).map
      (fun m => ((m.scheduler.workers 1).pc, m.scheduler.owner,
        (step .least m (.scheduler .owner)).isSome, m.io.pendingEventCount,
        (m.io.table.slot 5).events)) = some (.left, .joining [], true, 1, Event.READ.bits) := by
    decide +kernel
  obtain ⟨m, replay, same⟩ := Option.map_eq_some_iff.mp seen
  simp only [Prod.mk.injEq] at same
  obtain ⟨left, joined, enabled, pending, events⟩ := same
  exact ⟨m, replay, left, joined, enabled, pending, events⟩

end IOManager.Object
end Synergy
