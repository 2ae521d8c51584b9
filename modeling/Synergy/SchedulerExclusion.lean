import Synergy.SchedulerOwnership

/-! One fiber, one thread. The scan passes over a fiber in state `RUNING`, but
`resume` writes `RUNING` after the lock is released, and `yield` writes `READY`
before the context is saved. Between the two a fiber is in the hands of a
thread without showing it; `ScansApart` says that no scan finds it there, and
then no fiber runs twice and no context is loaded before it is saved. -/
namespace Synergy

namespace WorkerPc

/-- The fiber that the thread has marked `RUNING` and not yet unmarked. -/
def marks : WorkerPc → Option PiberId
  | .switching _ p | .inside _ p | .ending _ p | .parting _ p false => some p
  | _ => none

/-- The fiber in the hands of the thread while its state does not say so. -/
def unmarked : WorkerPc → Option PiberId
  | .picked task => task.piber
  | .resuming _ p | .parting _ p true | .yielding _ p _ => some p
  | _ => none

/-- The fiber whose context the thread has loaded and not yet saved. -/
def executes : WorkerPc → Option PiberId
  | .inside _ p | .ending _ p | .parting _ p _ | .yielding _ p _ => some p
  | _ => none

theorem claims_of_marks {pc : WorkerPc} {p : PiberId} (marked : pc.marks = some p) :
    pc.claims = some p := by
  cases pc <;> simp_all [marks, claims]
  rename_i ended
  cases ended <;> simp_all

theorem claims_of_executes {pc : WorkerPc} {p : PiberId} (running : pc.executes = some p) :
    pc.claims = some p := by
  cases pc <;> simp_all [executes, claims]

theorem marks_or_unmarked {pc : WorkerPc} {p : PiberId} (held : pc.claims = some p) :
    pc.marks = some p ∨ pc.unmarked = some p := by
  cases pc <;> simp_all [marks, unmarked, claims]
  rename_i ended
  cases ended <;> simp_all

end WorkerPc

namespace Scheduler

variable {s t : Scheduler}

/-- The scan takes no fiber that some thread holds unmarked: taken by it and
not yet `RUNING`, or past the mark of its last `yield` and not yet saved. -/
def ScansApart (s : Scheduler) : Action → Prop
  | .worker w => (s.workers w).pc = .scanning →
      ∀ it, (scan s.runing w s.tasks).1 = some it → ∀ p, it.task.piber = some p →
        ∀ v, (s.workers v).pc.unmarked ≠ some p
  | _ => True

/-- No fiber is executed by two threads, and no thread is about to load a
context that has not been saved. -/
structure Exclusive (s : Scheduler) : Prop where
  one_thread : ∀ v w p, (s.workers v).pc.executes = some p →
    (s.workers w).pc.executes = some p → v = w
  saved_first : ∀ w branch p, (s.workers w).pc = .switching branch p →
    (s.pibers p).saved = true

/-- The invariant behind it: at most one thread holds a fiber, its marks are
true, and only a fiber in execution has no saved context. -/
structure Guarded (s : Scheduler) : Prop where
  sole : ∀ v w p, (s.workers v).pc.claims = some p → (s.workers w).pc.claims = some p → v = w
  marked : ∀ w p, (s.workers w).pc.marks = some p → (s.pibers p).state = .RUNING
  saved : ∀ p, (s.pibers p).saved = false →
    (∃ w, (s.workers w).pc.executes = some p) ∨ s.roles p = .main ∨ s.roles p = .root

/-- A fiber that a thread holds without executing it has its context saved. -/
theorem Guarded.saved_of_held (guarded : Guarded s) (owned : Ownership s) {w : ThreadId}
    {p : PiberId} (held : (s.workers w).pc.claims = some p)
    (waiting : (s.workers w).pc.executes = none) : (s.pibers p).saved = true := by
  by_contra unsaved
  rcases guarded.saved p (by simpa using unsaved) with ⟨v, running⟩ | main | root
  · have same := guarded.sole v w p (WorkerPc.claims_of_executes running) held
    rw [same, waiting] at running
    cases running
  · obtain ⟨_, role | role⟩ := owned.claimed held <;> rw [main] at role <;> cases role
  · obtain ⟨_, role | role⟩ := owned.claimed held <;> rw [root] at role <;> cases role

theorem Guarded.exclusive (guarded : Guarded s) (owned : Ownership s) : Exclusive s where
  one_thread v w p first second :=
    guarded.sole v w p (WorkerPc.claims_of_executes first) (WorkerPc.claims_of_executes second)
  saved_first w branch p pc :=
    guarded.saved_of_held owned (w := w) (by simp [pc, WorkerPc.claims])
      (by simp [pc, WorkerPc.executes])

/-- A step that hands no fiber over; it may touch fibers that nobody holds. -/
private theorem Guarded.no_worker (guarded : Guarded s)
    (claims : ∀ v, (t.workers v).pc.claims = (s.workers v).pc.claims)
    (marks : ∀ v, (t.workers v).pc.marks = (s.workers v).pc.marks)
    (executes : ∀ v, (t.workers v).pc.executes = (s.workers v).pc.executes)
    (touched : ∀ q, t.pibers q = s.pibers q ∧ t.roles q = s.roles q ∨
      (∀ v, (s.workers v).pc.claims ≠ some q) ∧
        ((t.pibers q).saved = false → t.roles q = .main ∨ t.roles q = .root)) : Guarded t where
  sole v w p first second := by
    rw [claims] at first second
    exact guarded.sole v w p first second
  marked v p marked := by
    rw [marks] at marked
    rcases touched p with ⟨same, _⟩ | ⟨unheld, _⟩
    · rw [same]
      exact guarded.marked v p marked
    · exact absurd (WorkerPc.claims_of_marks marked) (unheld v)
  saved p unsaved := by
    rcases touched p with ⟨same, role⟩ | ⟨_, special⟩
    · rw [same] at unsaved
      rw [role]
      exact (guarded.saved p unsaved).imp_left fun ⟨v, running⟩ => ⟨v, (executes v).trans running⟩
    · exact .inr (special unsaved)

/-- A step of one thread. It keeps the fiber it holds or takes one that nobody
else holds, and touches no fiber that another thread holds. -/
private theorem Guarded.one_worker {w : ThreadId} {x : Worker} (guarded : Guarded s)
    (workers : t.workers = Function.update s.workers w x)
    (claim : ∀ q, x.pc.claims = some q → (s.workers w).pc.claims = some q ∨
      ∀ v, (s.workers v).pc.claims ≠ some q)
    (mark : ∀ q, x.pc.marks = some q → (t.pibers q).state = .RUNING)
    (kept : ∀ q, (s.workers w).pc.executes = some q → x.pc.executes = some q ∨
      (t.pibers q).saved = true)
    (touched : ∀ q, t.pibers q = s.pibers q ∧ t.roles q = s.roles q ∨
      (∀ v, v ≠ w → (s.workers v).pc.claims ≠ some q) ∧ ((t.pibers q).saved = false →
        x.pc.executes = some q ∨ t.roles q = .main ∨ t.roles q = .root)) : Guarded t where
  sole := by
    have apart : ∀ v q, v ≠ w → (s.workers v).pc.claims = some q → x.pc.claims ≠ some q := by
      intro v q other theirs mine
      rcases claim q mine with before | unheld
      · exact other (guarded.sole v w q theirs before)
      · exact unheld v theirs
    intro v u q first second
    rw [workers] at first second
    by_cases left : v = w <;> by_cases right : u = w
    · rw [left, right]
    · subst left
      rw [Function.update_self] at first
      rw [Function.update_of_ne right] at second
      exact absurd first (apart u q right second)
    · subst right
      rw [Function.update_of_ne left] at first
      rw [Function.update_self] at second
      exact absurd second (apart v q left first)
    · rw [Function.update_of_ne left] at first
      rw [Function.update_of_ne right] at second
      exact guarded.sole v u q first second
  marked v q marked := by
    rw [workers] at marked
    by_cases same : v = w
    · subst same
      rw [Function.update_self] at marked
      exact mark q marked
    · rw [Function.update_of_ne same] at marked
      rcases touched q with ⟨untouched, _⟩ | ⟨unheld, _⟩
      · rw [untouched]
        exact guarded.marked v q marked
      · exact absurd (WorkerPc.claims_of_marks marked) (unheld v same)
  saved q unsaved := by
    have here : x.pc.executes = some q → ∃ v, (t.workers v).pc.executes = some q := fun running =>
      ⟨w, by rw [workers, Function.update_self]; exact running⟩
    rcases touched q with ⟨untouched, role⟩ | ⟨_, special⟩
    · rw [role]
      refine (guarded.saved q (untouched ▸ unsaved)).imp_left fun ⟨v, running⟩ => ?_
      by_cases same : v = w
      · subst same
        rcases kept q running with still | resaved
        · exact here still
        · rw [resaved] at unsaved
          cases unsaved
      · exact ⟨v, by rw [workers, Function.update_of_ne same]; exact running⟩
    · exact (special unsaved).imp_left here

/-- A step of one thread that touches only the fiber it holds. -/
private theorem Guarded.hold {w : ThreadId} {x : Worker} {p : PiberId} (guarded : Guarded s)
    (workers : t.workers = Function.update s.workers w x)
    (held : (s.workers w).pc.claims = some p) (claims : ∀ q, x.pc.claims = some q → q = p)
    (mark : x.pc.marks = some p → (t.pibers p).state = .RUNING)
    (saved : (t.pibers p).saved = true ∨ x.pc.executes = some p)
    (pibers : ∀ q, q ≠ p → t.pibers q = s.pibers q) (roles : t.roles = s.roles) :
    Guarded t := by
  have alone : ∀ v, v ≠ w → (s.workers v).pc.claims ≠ some p := fun v other theirs =>
    other (guarded.sole v w p theirs held)
  refine guarded.one_worker workers (fun q mine => ?_) (fun q marked => ?_) (fun q running => ?_)
    fun q => ?_
  · rw [claims q mine]
    exact .inl held
  · have same := claims q (WorkerPc.claims_of_marks marked)
    subst same
    exact mark marked
  · have same : q = p := by
      have both := (WorkerPc.claims_of_executes running).symm.trans held
      exact Option.some.inj both
    subst same
    exact saved.symm
  · by_cases same : q = p
    · subst same
      refine .inr ⟨alone, fun unsaved => .inl ?_⟩
      rcases saved with resaved | running
      · rw [resaved] at unsaved
        cases unsaved
      · exact running
    · exact .inl ⟨pibers q same, by rw [roles]⟩

/-- A step of one thread that holds no fiber before or after. -/
private theorem Guarded.free {w : ThreadId} {x : Worker} (guarded : Guarded s)
    (workers : t.workers = Function.update s.workers w x)
    (before : (s.workers w).pc.claims = none) (after : x.pc.claims = none)
    (touched : ∀ q, t.pibers q = s.pibers q ∧ t.roles q = s.roles q ∨
      (∀ v, (s.workers v).pc.claims ≠ some q) ∧
        ((t.pibers q).saved = false → t.roles q = .main ∨ t.roles q = .root)) : Guarded t := by
  refine guarded.one_worker workers (fun q mine => ?_) (fun q marked => ?_) (fun q running => ?_)
    fun q => ?_
  · rw [after] at mine
    cases mine
  · have mine := WorkerPc.claims_of_marks marked
    rw [after] at mine
    cases mine
  · have mine := WorkerPc.claims_of_executes running
    rw [before] at mine
    cases mine
  · exact (touched q).imp_right fun ⟨unheld, special⟩ =>
      ⟨fun v _ => unheld v, fun unsaved => .inr (special unsaved)⟩

theorem guarded_initial (threads : UInt64) (use_caller : Bool) (caller : ThreadId) :
    Guarded (initial threads use_caller caller) := by
  have free := outside_initial threads use_caller caller
  refine ⟨fun v w p held _ => ?_, fun w p held => ?_, fun p unsaved => ?_⟩
  · simp [free, WorkerPc.claims] at held
  · simp [free, WorkerPc.marks] at held
  · unfold initial at unsaved ⊢
    split at unsaved
    · rename_i mode
      by_cases root : p = 1
      · subst root
        exact .inr (.inr (by simp [mode]))
      · by_cases main : p = 0
        · subst main
          exact .inr (.inl (by simp [mode]))
        · simp [Function.update_of_ne root, Function.update_of_ne main, Piber.create] at unsaved
    · cases unsaved

/-- Nobody holds the fiber that a scan takes, if no thread holds it unmarked. -/
private theorem Guarded.taken_unheld (guarded : Guarded s) {w : ThreadId} {it : Entry}
    {p : PiberId} (fits : Qualifies s.runing w it) (taken : it.task.piber = some p)
    (apart : ∀ v, (s.workers v).pc.unmarked ≠ some p) (v : ThreadId) :
    (s.workers v).pc.claims ≠ some p := by
  intro held
  rcases WorkerPc.marks_or_unmarked held with marks | unmarked
  · have state := guarded.marked v p marks
    have passed := fits.2 p taken
    simp [runing, state] at passed
  · exact apart v unmarked

/-- A thread leaves the fiber that it executes at the switch of `yield` only. -/
theorem executes_move {a : Action} (owned : Ownership s) (moved : Move s a t) {v : ThreadId}
    {p : PiberId} (running : (s.workers v).pc.executes = some p) :
    (t.workers v).pc.executes = some p ∨
      a = .worker v ∧ ∃ branch ended, (s.workers v).pc = .yielding branch p ended := by
  have one_worker : ∀ {w : ThreadId} {x : Worker}, t.workers = Function.update s.workers w x →
      (v = w → x.pc.executes = some p) → (t.workers v).pc.executes = some p := by
    intro w x workers here
    rw [workers]
    by_cases same : v = w
    · rw [same, Function.update_self]
      exact here same
    · rwa [Function.update_of_ne same]
  have owns := owned.workers v
  cases moved with
  | newPiber | scheduled | ignored | startRefused | stopRefused | stopCalled | stopMarked
  | rootLost | collected | joined | returned => exact .inl running
  | @started ids open_for quiet count fresh =>
    have apart : v ∉ ids := by
      intro member
      simp [(fresh v member).2, WorkerPc.executes] at running
    exact .inl (by simpa [apart] using running)
  | rootResumed pc =>
    refine .inl (one_worker rfl fun same => ?_)
    rw [same] at running
    rcases owned.caller (by simp [pc]) with here | here <;>
      simp [here, WorkerPc.executes] at running
  | rootReturned => exact .inl (one_worker rfl fun same => same ▸ running)
  | @switchedOut w branch q ended pc =>
    by_cases same : v = w
    · subst v
      simp only [pc, WorkerPc.executes, Option.some.injEq] at running
      exact .inr ⟨rfl, branch, ended, running ▸ pc⟩
    · exact .inl (one_worker rfl fun here => absurd here same)
  | finished pc | idleEnded pc | termMarked pc | readyMarked pc =>
    refine .inl (one_worker rfl fun same => ?_)
    subst same
    simpa [pc, WorkerPc.executes] using running
  | idleYielded pc | yielded pc =>
    -- `GetThis()` is the fiber in hand
    refine .inl (one_worker rfl fun same => ?_)
    subst same
    simp only [Owns, pc] at owns
    simpa [pc, WorkerPc.executes, owns.2.2] using running
  | entered pc | enteredRoot pc | took pc | tookNothing pc | pickedPiber pc | pickedCb pc
  | recycledCb pc | pickedIdle pc | leave pc | marked pc | switched pc | threadLost pc
  | settledPiber pc | settledCb pc | settledIdle pc =>
    refine .inl (one_worker rfl fun same => ?_)
    subst same
    simp [pc, WorkerPc.executes] at running

/-- The root leaves `run` by a step of the owner only. -/
theorem inRoot_move {a : Action} (moved : Move s a t) (inside : s.owner = .inRoot) :
    t.owner = .inRoot ∨ a = .owner := by
  cases moved with
  | stopMarked | rootResumed | rootLost | rootReturned | collected | joined | returned =>
    exact .inr rfl
  | stopCalled quiet => simp [quiet] at inside
  | _ => exact .inl inside

theorem guarded_move {a : Action} (owned : Ownership s) (guarded : Guarded s)
    (apart : ScansApart s a) (moved : Move s a t) : Guarded t := by
  have fresh : ∀ v, (s.workers v).pc.claims ≠ some s.created := fun v held =>
    Nat.lt_irrefl _ (owned.claimed held).1
  have later : ∀ v, (s.workers v).pc.claims ≠ some (s.created + 1) := fun v held => by
    exact Nat.not_succ_le_self _ (Nat.le_of_lt (owned.claimed held).1)
  cases moved with
  | newPiber =>
    refine guarded.no_worker (fun _ => rfl) (fun _ => rfl) (fun _ => rfl) fun q => ?_
    by_cases same : q = s.created
    · subst same
      exact .inr ⟨fresh, by simp [Piber.create]⟩
    · exact .inl (by simp [Function.update_of_ne same])
  | scheduled | ignored | startRefused | stopRefused | stopCalled | stopMarked | collected | joined
  | returned =>
    exact guarded.no_worker (fun _ => rfl) (fun _ => rfl) (fun _ => rfl) fun _ => .inl ⟨rfl, rfl⟩
  | @started ids open_for quiet count unborn =>
    have outside : ∀ v ∈ ids, (s.workers v).pc = .outside := fun v member => (unborn v member).2
    refine guarded.no_worker (fun v => ?_) (fun v => ?_) (fun v => ?_) fun _ => .inl ⟨rfl, rfl⟩ <;>
      by_cases member : v ∈ ids
    · simp [member, outside v member, WorkerPc.claims]
    · simp [member]
    · simp [member, outside v member, WorkerPc.marks]
    · simp [member]
    · simp [member, outside v member, WorkerPc.executes]
    · simp [member]
  | @rootResumed r pc root ctx =>
    have before : (s.workers s.caller).pc.claims = none := by
      rcases owned.caller (by simp [pc]) with out | left
      · simp [out, WorkerPc.claims]
      · simp [left, WorkerPc.claims]
    refine guarded.free rfl before rfl fun q => ?_
    by_cases same : q = r
    · subst same
      exact .inr ⟨owned.root_unheld root, fun _ => .inr (owned.root q root).2⟩
    · exact .inl (by simp [Function.update_of_ne same])
  | @rootLost r pc root ctx =>
    refine guarded.no_worker (fun _ => rfl) (fun _ => rfl) (fun _ => rfl) fun q => ?_
    by_cases same : q = r
    · subst same
      exact .inr ⟨owned.root_unheld root, fun _ => .inr (owned.root q root).2⟩
    · exact .inl (by simp [Function.update_of_ne same])
  | @rootReturned r pc root done =>
    refine guarded.free rfl (by simp [done, WorkerPc.claims]) (by simp [done, WorkerPc.claims])
      fun q => ?_
    by_cases same : q = r
    · subst same
      exact .inr ⟨owned.root_unheld root, fun _ => .inr (owned.root q root).2⟩
    · exact .inl (by simp [Function.update_of_ne same])
  | @entered w pc other =>
    refine guarded.free rfl (by simp [pc, WorkerPc.claims]) rfl fun q => ?_
    by_cases main : q = s.created
    · subst main
      exact .inr ⟨fresh, fun _ => by simp⟩
    · by_cases idle : q = s.created + 1
      · subst idle
        exact .inr ⟨later, by simp [Piber.create]⟩
      · exact .inl (by simp [Function.update_of_ne main, Function.update_of_ne idle])
  | @enteredRoot w pc here =>
    refine guarded.free rfl (by simp [pc, WorkerPc.claims]) rfl fun q => ?_
    by_cases idle : q = s.created
    · subst idle
      exact .inr ⟨fresh, by simp [Piber.create]⟩
    · exact .inl (by simp [Function.update_of_ne idle])
  | @took w before after pc it split fits first =>
    have none_held : (s.workers w).pc.claims = none := by simp [pc, WorkerPc.claims]
    refine guarded.one_worker rfl (fun q mine => ?_) (by simp [WorkerPc.marks])
      (by simp [pc, WorkerPc.executes]) fun _ => .inl ⟨rfl, rfl⟩
    have scanned : (scan s.runing w s.tasks).1 = some it := by
      rw [split]
      exact scan_finds fits first
    exact .inr (guarded.taken_unheld fits mine (apart pc it scanned q mine))
  | @pickedPiber w task p pc piber =>
    have held : (s.workers w).pc.claims = some p := by simp [pc, WorkerPc.claims, piber]
    exact guarded.hold rfl held (by simp [WorkerPc.claims]) (by simp [WorkerPc.marks])
      (.inl (guarded.saved_of_held owned held (by simp [pc, WorkerPc.executes])))
      (fun _ _ => rfl) rfl
  | @pickedCb w task f pc piber cb spare =>
    refine guarded.one_worker rfl (fun q mine => ?_) (by simp [WorkerPc.marks])
      (by simp [pc, WorkerPc.executes]) fun q => ?_
    · cases mine
      exact .inr fresh
    · by_cases same : q = s.created
      · subst same
        exact .inr ⟨fun v _ => fresh v, by simp [Piber.create]⟩
      · exact .inl (by simp [Function.update_of_ne same])
  | @recycledCb w task f p pc piber cb spare =>
    have owns := owned.workers w
    simp only [Owns, pc, spare] at owns
    cases owns.2.1
  | @pickedIdle w task pc piber cb live =>
    refine guarded.one_worker rfl (fun q mine => ?_) (by simp [WorkerPc.marks])
      (by simp [pc, WorkerPc.executes]) fun _ => .inl ⟨rfl, rfl⟩
    cases mine
    exact .inr (owned.idle_unheld (by simp [pc, WorkerPc.running])
      (by simp [pc, WorkerPc.claims, piber]))
  | tookNothing pc | settledPiber pc | settledCb pc | settledIdle pc =>
    exact guarded.free rfl (by simp [pc, WorkerPc.claims]) rfl fun _ => .inl ⟨rfl, rfl⟩
  | leave pc piber =>
    exact guarded.free rfl (by simp [pc, WorkerPc.claims, piber]) rfl fun _ => .inl ⟨rfl, rfl⟩
  | @marked w branch p pc =>
    have held : (s.workers w).pc.claims = some p := by simp [pc, WorkerPc.claims]
    have saved := guarded.saved_of_held owned held (by simp [pc, WorkerPc.executes])
    exact guarded.hold rfl held (by simp [WorkerPc.claims]) (by simp [Piber.markRuning])
      (.inl (by simpa [Piber.markRuning] using saved))
      (fun q other => by simp [Function.update_of_ne other]) rfl
  | @switched w branch p pc ctx =>
    have state := guarded.marked w p (by simp [pc, WorkerPc.marks])
    exact guarded.hold (p := p) rfl (by simp [pc, WorkerPc.claims]) (by simp [WorkerPc.claims])
      (by simpa [Piber.load] using fun _ => state) (.inr rfl)
      (fun q other => by simp [Function.update_of_ne other]) rfl
  | @threadLost w branch p pc ctx =>
    have held : (s.workers w).pc.claims = some p := by simp [pc, WorkerPc.claims]
    exact guarded.hold rfl held (by simp [WorkerPc.claims]) (by simp [WorkerPc.marks])
      (.inl (guarded.saved_of_held owned held (by simp [pc, WorkerPc.executes])))
      (fun _ _ => rfl) rfl
  | @idleEnded w p pc stopped =>
    have state := guarded.marked w p (by simp [pc, WorkerPc.marks])
    exact guarded.hold (p := p) rfl (by simp [pc, WorkerPc.claims]) (by simp [WorkerPc.claims])
      (fun _ => state) (.inr rfl) (fun _ _ => rfl) rfl
  | @finished w branch p pc busy =>
    have state := guarded.marked w p (by simp [pc, WorkerPc.marks])
    exact guarded.hold (p := p) rfl (by simp [pc, WorkerPc.claims]) (by simp [WorkerPc.claims])
      (fun _ => state) (.inr rfl) (fun _ _ => rfl) rfl
  | @idleYielded w p pc live =>
    have state := guarded.marked w p (by simp [pc, WorkerPc.marks])
    have owns := owned.workers w
    simp only [Owns, pc] at owns
    exact guarded.hold (p := p) rfl (by simp [pc, WorkerPc.claims])
      (by simp [WorkerPc.claims, owns.2.2]) (fun _ => state)
      (.inr (by simp [WorkerPc.executes, owns.2.2])) (fun _ _ => rfl) rfl
  | @yielded w branch p pc busy =>
    have state := guarded.marked w p (by simp [pc, WorkerPc.marks])
    have owns := owned.workers w
    simp only [Owns, pc] at owns
    exact guarded.hold (p := p) rfl (by simp [pc, WorkerPc.claims])
      (by simp [WorkerPc.claims, owns.2.2]) (fun _ => state)
      (.inr (by simp [WorkerPc.executes, owns.2.2])) (fun _ _ => rfl) rfl
  | @termMarked w branch p pc =>
    exact guarded.hold (p := p) rfl (by simp [pc, WorkerPc.claims]) (by simp [WorkerPc.claims])
      (by simp [WorkerPc.marks]) (.inr rfl)
      (fun q other => by simp [Function.update_of_ne other]) rfl
  | @readyMarked w branch p ended pc =>
    exact guarded.hold (p := p) rfl (by simp [pc, WorkerPc.claims]) (by simp [WorkerPc.claims])
      (by simp [WorkerPc.marks]) (.inr rfl)
      (fun q other => by simp [Function.update_of_ne other]) rfl
  | @switchedOut w branch p ended pc =>
    exact guarded.hold (p := p) rfl (by simp [pc, WorkerPc.claims]) (by simp [WorkerPc.claims])
      (by simp [WorkerPc.marks]) (.inl (by simp [Piber.save]))
      (fun q other => by simp [Function.update_of_ne other]) rfl

/-- **One fiber, one thread.** In every run whose scans stay apart no fiber is
executed by two threads, and no thread loads a context that was not saved. -/
theorem fibers_run_on_one_thread (threads : UInt64) (use_caller : Bool) (caller : ThreadId)
    (reached : Runs.Reaches step ScansApart (initial threads use_caller caller) s) :
    Exclusive s := by
  suffices both : Ownership s ∧ Guarded s from both.2.exclusive both.1
  refine reached.invariant (fun u => Ownership u ∧ Guarded u)
    ⟨ownership_initial _ _ _, guarded_initial _ _ _⟩ ?_
  rintro u a v ⟨owned, guarded⟩ apart stepped
  exact ⟨ownership_step owned stepped, guarded_move owned guarded apart (move_of_step stepped)⟩

/-- The caller's thread is the only one inside `run`. -/
structure Lone (s : Scheduler) (caller : ThreadId) : Prop where
  no_threads : s.threadCount = 0
  on_caller : s.caller = caller
  others : ∀ v, v ≠ caller → (s.workers v).pc = .outside

private theorem Lone.one_worker {caller w : ThreadId} {x : Worker} (lone : Lone s caller)
    (threads : t.threadCount = s.threadCount) (same : t.caller = s.caller)
    (workers : t.workers = Function.update s.workers w x)
    (inside : (s.workers w).pc ≠ .outside) : Lone t caller where
  no_threads := threads.trans lone.no_threads
  on_caller := same.trans lone.on_caller
  others v other := by
    have apart : v ≠ w := fun here => inside (here ▸ lone.others v other)
    rw [workers, Function.update_of_ne apart]
    exact lone.others v other

theorem lone_move {a : Action} {caller : ThreadId} (lone : Lone s caller) (moved : Move s a t) :
    Lone t caller := by
  cases moved with
  | newPiber | scheduled | ignored | startRefused | stopRefused | stopCalled | stopMarked
  | rootLost | collected | joined | returned => exact ⟨lone.no_threads, lone.on_caller, lone.others⟩
  | @started ids open_for quiet count fresh =>
    have empty : ids = [] := by
      rw [lone.no_threads] at count
      exact List.eq_nil_of_length_eq_zero count
    subst empty
    exact ⟨lone.no_threads, lone.on_caller, lone.others⟩
  | rootResumed =>
    refine ⟨lone.no_threads, lone.on_caller, fun v other => ?_⟩
    have apart : v ≠ s.caller := fun here => other (here.trans lone.on_caller)
    simpa [Function.update_of_ne apart] using lone.others v other
  | rootReturned pc root done => exact lone.one_worker rfl rfl rfl (by simp [done])
  | entered pc | enteredRoot pc | took pc | tookNothing pc | pickedPiber pc | pickedCb pc
  | recycledCb pc | pickedIdle pc | leave pc | marked pc | switched pc | threadLost pc
  | idleEnded pc | idleYielded pc | yielded pc | finished pc | termMarked pc | readyMarked pc
  | switchedOut pc | settledPiber pc | settledCb pc | settledIdle pc =>
    exact lone.one_worker rfl rfl rfl (by simp [pc])

theorem Lone.scansApart {caller : ThreadId} (lone : Lone s caller) (a : Action) :
    ScansApart s a := by
  cases a with
  | worker w =>
    intro pc it _ p _ v held
    by_cases here : v = caller
    · have scanner : w = caller := by
        by_contra other
        rw [lone.others w other] at pc
        cases pc
      rw [here, ← scanner, pc] at held
      cases held
    · rw [lone.others v here] at held
      cases held
  | _ => trivial

/-- Every run of `Scheduler(1, true)` stays apart, whatever its tasks do. -/
theorem lone_caller_scans_apart {caller : ThreadId}
    (reached : Runs.Reachable step (initial 1 true caller) s) :
    Runs.Reaches step ScansApart (initial 1 true caller) s := by
  have start : Lone (initial 1 true caller) caller :=
    ⟨rfl, rfl, fun v other => by simp [initial]⟩
  exact reached.under (Lone · caller) start
    (fun _ _ _ lone _ stepped => lone_move lone (move_of_step stepped))
    fun _ a lone _ => lone.scansApart a

/-- Only these threads are inside `run`, now and after a `stop`. -/
structure Among (s : Scheduler) (ids : List ThreadId) : Prop where
  root : s.rootPiber.isSome = true → s.caller ∈ ids
  others : ∀ v, v ∉ ids → (s.workers v).pc = .outside

/-- `ScansApart` where no threads but these are started. -/
def ScansApartAmong (ids : List ThreadId) (s : Scheduler) : Action → Prop
  | .start started => ∀ id ∈ started, id ∈ ids
  | .worker w =>
    match (s.workers w).pc, (scan s.runing w s.tasks).1 with
    | .scanning, some it => it.task.piber = none ∨
        ∀ v ∈ ids, (s.workers v).pc.unmarked ≠ it.task.piber
    | _, _ => True
  | _ => True

instance (ids : List ThreadId) (s : Scheduler) (a : Action) :
    Decidable (ScansApartAmong ids s a) := by
  unfold ScansApartAmong
  split <;> try infer_instance
  split <;> infer_instance

theorem Among.scansApart {ids : List ThreadId} {a : Action} (among : Among s ids)
    (apart : ScansApartAmong ids s a) : ScansApart s a := by
  cases a with
  | worker w =>
    intro pc it found p fiber v held
    simp only [ScansApartAmong, pc, found] at apart
    by_cases member : v ∈ ids
    · rcases apart with none_there | free
      · rw [none_there] at fiber
        cases fiber
      · exact free v member (held.trans fiber.symm)
    · rw [among.others v member] at held
      cases held
  | _ => trivial

theorem Among.starts {ids : List ThreadId} {a : Action} (among : Among s ids)
    (apart : ScansApartAmong ids s a) (moved : Move s a t) : ∀ w ∈ s.entering a, w ∈ ids := by
  intro w member
  cases a with
  | start started =>
    simp only [entering] at member
    split at member
    · cases member
    · exact apart w member
  | owner =>
    simp only [entering] at member
    split at member
    · rw [List.mem_singleton.mp member]
      refine among.root ?_
      cases moved <;> simp_all
    · cases member
  | _ => cases member

theorem among_move {ids : List ThreadId} {a : Action} (among : Among s ids)
    (started : ∀ w ∈ s.entering a, w ∈ ids) (moved : Move s a t) : Among t ids where
  root := by
    have same : t.rootPiber = s.rootPiber ∧ t.caller = s.caller := by
      cases moved <;> exact ⟨rfl, rfl⟩
    rw [same.1, same.2]
    exact among.root
  others v other := outside_move moved (among.others v other) fun member => other (started v member)

theorem among_initial (threads : UInt64) (caller : ThreadId) (ids : List ThreadId) :
    Among (initial threads false caller) ids :=
  ⟨by simp [initial], fun _ _ => rfl⟩

theorem among_scans_apart {threads : UInt64} {caller : ThreadId} {ids : List ThreadId}
    (reached : Runs.Reaches step (ScansApartAmong ids) (initial threads false caller) s) :
    Runs.Reaches step ScansApart (initial threads false caller) s :=
  reached.under (Among · ids) (among_initial threads caller ids)
    (fun _ _ _ among apart stepped =>
      among_move among (among.starts apart (move_of_step stepped)) (move_of_step stepped))
    fun _ _ among apart => among.scansApart apart

/-- The fiber of `test_fiber1` schedules itself and yields on one thread; behind
the context switch of that `yield` another thread takes it. -/
def inTurn : List Action :=
  [.newPiber, .schedule none (.piber (some 0)) (-1), .start [1, 2]] ++
    List.replicate 5 (.worker 1) ++
    [.worker 2, .schedule (some 1) (.piber (some 0)) (-1), .yield 1, .worker 1, .worker 1] ++
    List.replicate 4 (.worker 2)

theorem in_turn_is_exclusive :
    ∃ s, Runs.run step (initial 2 false 0) inTurn = some s ∧
      s.taken.map (·.task.piber) = [some 0, some 0] ∧ (s.workers 1).pc = .resumed .piber ∧
      (s.workers 2).pc = .inside .piber 0 ∧ Exclusive s := by
  have seen : (Runs.run step (initial 2 false 0) inTurn).map
      (fun s => (s.taken.map (·.task.piber), (s.workers 1).pc, (s.workers 2).pc)) =
        some ([some 0, some 0], .resumed .piber, .inside .piber 0) := by
    decide +kernel
  have apart : Runs.AllSteps step (ScansApartAmong [1, 2]) (initial 2 false 0) inTurn := by
    decide +kernel
  obtain ⟨s, replay, same⟩ := Option.map_eq_some_iff.mp seen
  simp only [Prod.mk.injEq] at same
  obtain ⟨twice, first, second⟩ := same
  exact ⟨s, replay, twice, first, second, fibers_run_on_one_thread 2 false 0
    (among_scans_apart (Runs.reaches_of_run inTurn replay apart))⟩

/-- `test_fiber1` on two threads: the fiber schedules itself and yields; the
second thread takes it between the mark and the switch of that `yield`. -/
def selfSchedule : List Action :=
  [.newPiber, .schedule none (.piber (some 0)) (-1), .start [1, 2]] ++
    List.replicate 5 (.worker 1) ++
    [.worker 2, .schedule (some 1) (.piber (some 0)) (-1), .yield 1, .worker 1] ++
    List.replicate 3 (.worker 2)

theorem self_schedule_runs_twice :
    ∃ s t, Runs.run step (initial 2 false 0) selfSchedule = some s ∧
      (s.workers 2).pc = .switching .piber 0 ∧ (s.pibers 0).saved = false ∧
      step s (.worker 2) = some t ∧ (t.workers 1).pc.executes = some 0 ∧
      (t.workers 2).pc.executes = some 0 ∧ ¬ Exclusive t := by
  have before : (Runs.run step (initial 2 false 0) selfSchedule).map
      (fun s => ((s.workers 2).pc, (s.pibers 0).saved)) = some (.switching .piber 0, false) := by
    decide +kernel
  have after : (Runs.run step (initial 2 false 0) selfSchedule).bind
      (fun s => (step s (.worker 2)).map
        (fun t => ((t.workers 1).pc.executes, (t.workers 2).pc.executes))) =
        some (some 0, some 0) := by
    decide +kernel
  obtain ⟨s, replay, same⟩ := Option.map_eq_some_iff.mp before
  rw [replay, Option.bind_some] at after
  obtain ⟨t, stepped, both⟩ := Option.map_eq_some_iff.mp after
  simp only [Prod.mk.injEq] at same both
  refine ⟨s, t, replay, same.1, same.2, stepped, both.1, both.2, fun exclusive => ?_⟩
  have apart := exclusive.one_thread 1 2 0 both.1 both.2
  cases apart

end Scheduler
end Synergy
