import Synergy.SchedulerOwnership

/-! The pointer to the current fiber. `resume`, `yield` and the constructor of a
main fiber set it by hand beside the context switch. `yield` sets it to the
main fiber of the thread; on the thread that constructed the scheduler it
switches to the root fiber instead, so there the two part company. -/
namespace Synergy

/-- In `yield`, before its first line. -/
def WorkerPc.parts : WorkerPc → Bool
  | .parting _ _ _ => true
  | _ => false

namespace Scheduler

/-- The fiber whose context executes `run` on the thread. -/
def home (s : Scheduler) (w : ThreadId) (x : Worker) : Option PiberId :=
  if (w : ℤ) = s.rootThread then s.rootPiber else some x.t_thread_piber

/-- The fiber whose context is executing on a thread of the scheduler. Between
`SetThis` and the `swapcontext` behind it a thread is on its way. -/
def executing (s : Scheduler) (w : ThreadId) : Option PiberId :=
  let x := s.workers w
  match x.pc with
  | .inside _ p | .ending _ p | .parting _ p _ => some p
  | .scanning | .picked _ | .resuming _ _ | .resumed _ => s.home w x
  | .switching _ _ | .yielding _ _ _ | .lost _ => none
  -- Before the prologue of `run` a worker thread has no fiber at all.
  | .entering => if (w : ℤ) = s.rootThread then s.rootPiber else none
  | .outside => if (w : ℤ) = s.rootThread then some x.t_thread_piber else none
  | .left =>
    if (w : ℤ) = s.rootThread then
      match s.owner with
      | .inRoot => s.rootPiber
      | .lost => none
      | _ => some x.t_thread_piber
    else some x.t_thread_piber

/-- No fiber gives up the thread that constructed the scheduler, where that
thread runs the root. -/
def PartsElsewhere (s : Scheduler) : Action → Prop
  | .worker w => (s.workers w).pc.parts = true → (w : ℤ) ≠ s.rootThread
  | _ => True

instance (s : Scheduler) : (a : Action) → Decidable (PartsElsewhere s a)
  | .worker _ => inferInstanceAs (Decidable (_ → _))
  | .newPiber | .schedule .. | .start _ | .stop | .owner | .yield _ | .finish _ =>
    .isTrue trivial

/-- What `t_piber` has to be at each place of `run`. -/
def Points (s : Scheduler) (w : ThreadId) (x : Worker) : Prop :=
  match x.pc with
  | .inside _ p | .ending _ p | .parting _ p _ | .switching _ p => x.t_piber = p
  | .scanning | .picked _ | .resuming _ _ | .resumed _ => s.home w x = some x.t_piber
  | .yielding _ _ _ => s.home w x = some x.t_piber
  | .entering => (w : ℤ) = s.rootThread → s.rootPiber = some x.t_piber
  | .outside => (w : ℤ) = s.rootThread → x.t_piber = x.t_thread_piber
  | .left =>
    if (w : ℤ) = s.rootThread then
      (s.owner = .inRoot → s.rootPiber = some x.t_piber) ∧
        (s.owner ≠ .inRoot → s.owner ≠ .lost → x.t_piber = x.t_thread_piber)
    else x.t_piber = x.t_thread_piber
  | .lost _ => True

/-- The pointers of all threads, with what says who may be the caller. -/
structure Pointing (s : Scheduler) : Prop where
  owned : Ownership s
  mode : s.rootThread = -1 ∨ s.rootThread = s.caller
  points : ∀ w, s.Points w (s.workers w)

variable {s t : Scheduler} {w : ThreadId}

/-- The members that the constructor fixes. -/
theorem fixed_move {a : Action} (moved : Move s a t) :
    t.rootThread = s.rootThread ∧ t.rootPiber = s.rootPiber ∧ t.caller = s.caller := by
  cases moved <;> exact ⟨rfl, rfl, rfl⟩

theorem pointing_initial (threads : UInt64) (use_caller : Bool) (caller : ThreadId) :
    Pointing (initial threads use_caller caller) where
  owned := ownership_initial threads use_caller caller
  mode := by
    unfold initial
    split
    · exact .inr rfl
    · exact .inl rfl
  points w := by
    rw [workers_initial]
    exact fun _ => rfl

/-- Only the owning thread of a scheduler in caller mode is the root thread. -/
theorem Pointing.root_is_caller (pointing : Pointing s) (root : (w : ℤ) = s.rootThread) :
    w = s.caller := by
  rcases pointing.mode with absent | caller
  · omega
  · exact Int.ofNat_inj.mp (root.trans caller)

/-- `stop` moves on while no thread moves and the root is not running. -/
private theorem Points.elsewhere {x : Worker} (points : s.Points w x)
    (thread : t.rootThread = s.rootThread) (root : t.rootPiber = s.rootPiber)
    (owner : t.owner = s.owner ∨
      s.owner ≠ .inRoot ∧ s.owner ≠ .lost ∧ t.owner ≠ .inRoot) : t.Points w x := by
  cases pc : x.pc <;> simp only [Points, home, pc, thread, root] at points ⊢
  case left =>
    rcases owner with same | ⟨out, alive, later⟩
    · rw [same]
      exact points
    · split at points
      · rename_i caller
        rw [if_pos caller]
        exact ⟨fun inside => absurd inside later, fun _ _ => points.2 out alive⟩
      · rename_i caller
        rw [if_neg caller]
        exact points
  all_goals exact points

private theorem Pointing.no_worker (pointing : Pointing s) (owned : Ownership t)
    (fixed : t.rootThread = s.rootThread ∧ t.rootPiber = s.rootPiber ∧ t.caller = s.caller)
    (workers : t.workers = s.workers)
    (owner : t.owner = s.owner ∨
      s.owner ≠ .inRoot ∧ s.owner ≠ .lost ∧ t.owner ≠ .inRoot) : Pointing t := by
  obtain ⟨thread, root, caller⟩ := fixed
  refine ⟨owned, ?_, fun v => ?_⟩
  · rw [thread, caller]
    exact pointing.mode
  · rw [workers]
    exact (pointing.points v).elsewhere thread root owner

/-- One thread moves, and `stop` with it only where the thread is the caller. -/
private theorem Pointing.one_worker {x : Worker} (pointing : Pointing s) (owned : Ownership t)
    (fixed : t.rootThread = s.rootThread ∧ t.rootPiber = s.rootPiber ∧ t.caller = s.caller)
    (workers : t.workers = Function.update s.workers w x)
    (owner : t.owner = s.owner ∨ w = s.caller) (here : t.Points w x) : Pointing t := by
  obtain ⟨thread, root, caller⟩ := fixed
  refine ⟨owned, ?_, fun v => ?_⟩
  · rw [thread, caller]
    exact pointing.mode
  · rw [workers]
    by_cases same : v = w
    · subst same
      rw [Function.update_self]
      exact here
    · rw [Function.update_of_ne same]
      rcases owner with stays | moves
      · exact (pointing.points v).elsewhere thread root (.inl stays)
      · -- only the caller's place depends on where `stop` is
        have apart : ¬ (v : ℤ) = s.rootThread :=
          fun caller => same ((pointing.root_is_caller caller).trans moves.symm)
        have points := pointing.points v
        cases pc : (s.workers v).pc <;>
          simp only [Points, home, pc, thread, root, apart, if_false] at points ⊢ <;>
          exact points

/-- A thread moves on from a known place of `run`. -/
private theorem Pointing.from_place {x : Worker} {place : WorkerPc} (pointing : Pointing s)
    (owned : Ownership t)
    (fixed : t.rootThread = s.rootThread ∧ t.rootPiber = s.rootPiber ∧ t.caller = s.caller)
    (pc : (s.workers w).pc = place) (workers : t.workers = Function.update s.workers w x)
    (owner : t.owner = s.owner)
    (carry : s.Points w { s.workers w with pc := place } → t.Points w x) : Pointing t := by
  have points := pointing.points w
  have same : { s.workers w with pc := place } = s.workers w := by rw [← pc]
  rw [← same] at points
  exact pointing.one_worker owned fixed workers (.inl owner) (carry points)

theorem pointing_move {a : Action} (pointing : Pointing s) (elsewhere : PartsElsewhere s a)
    (moved : Move s a t) : Pointing t := by
  have owned := ownership_move pointing.owned moved
  have fixed := fixed_move moved
  have here := pointing.points
  cases moved with
  | newPiber | scheduled | ignored | startRefused | stopRefused =>
    exact pointing.no_worker owned fixed rfl (.inl rfl)
  | @started ids open_for quiet count fresh =>
    refine ⟨owned, pointing.mode, fun v => ?_⟩
    by_cases member : v ∈ ids
    · simp only [member, if_true, Points]
      intro caller
      exact absurd (pointing.root_is_caller caller) (fresh v member).1
    · simp only [member, if_false]
      exact (here v).elsewhere rfl rfl (.inl rfl)
  | stopCalled quiet live =>
    exact pointing.no_worker owned fixed rfl (.inr (by simp [quiet]))
  | stopMarked pc =>
    refine pointing.no_worker owned fixed rfl (.inr ⟨by simp [pc], by simp [pc], ?_⟩)
    dsimp only
    split <;> simp
  | rootLost pc root ctx =>
    exact pointing.no_worker owned fixed rfl (.inr (by simp [pc]))
  | collected pc => exact pointing.no_worker owned fixed rfl (.inr (by simp [pc]))
  | joined pc done => exact pointing.no_worker owned fixed rfl (.inr (by simp [pc]))
  | returned pc => exact pointing.no_worker owned fixed rfl (.inr (by simp [pc]))
  | @rootResumed r pc root ctx =>
    refine pointing.one_worker owned fixed rfl (.inr rfl) ?_
    exact fun _ => root
  | @rootReturned r pc root done =>
    refine pointing.one_worker owned fixed rfl (.inr rfl) ?_
    simp [Points, done]
  | @entered w pc apart =>
    refine pointing.one_worker owned fixed rfl (.inl rfl) ?_
    simp [Points, home, apart]
  | @enteredRoot w pc same =>
    have points := here w
    simp only [Points, pc] at points
    refine pointing.one_worker owned fixed rfl (.inl rfl) ?_
    simpa [Points, home, same] using points same
  | @took w before after pc it split fits first =>
    exact pointing.from_place owned fixed pc rfl rfl id
  | @tookNothing w pc none_fits =>
    exact pointing.from_place owned fixed pc rfl rfl id
  | @pickedPiber w task p pc piber =>
    exact pointing.from_place owned fixed pc rfl rfl id
  | @pickedCb w task f pc piber cb spare =>
    exact pointing.from_place owned fixed pc rfl rfl id
  | @recycledCb w task f p pc piber cb spare =>
    exact pointing.from_place owned fixed pc rfl rfl id
  | @pickedIdle w task pc piber cb live =>
    exact pointing.from_place owned fixed pc rfl rfl id
  | @leave w task pc piber cb ended =>
    have points := here w
    simp only [Points, pc, home] at points
    refine pointing.one_worker owned fixed rfl (.inl rfl) ?_
    by_cases caller : (w : ℤ) = s.rootThread
    · rw [if_pos caller] at points
      simp only [Points, advance, setWorker, caller, if_true]
      refine ⟨fun _ => points, fun out _ => ?_⟩
      -- the caller is inside `run` only under the root
      have waiting := pointing.owned.caller out
      rw [← pointing.root_is_caller caller, pc] at waiting
      simp at waiting
    · rw [if_neg caller] at points
      simp only [Points, advance, setWorker, caller, if_false]
      exact (Option.some.inj points).symm
  | @marked w branch p pc =>
    exact pointing.one_worker owned fixed rfl (.inl rfl) rfl
  | @switched w branch p pc ctx =>
    exact pointing.from_place owned fixed pc rfl rfl id
  | @threadLost w branch p pc ctx =>
    exact pointing.one_worker owned fixed rfl (.inl rfl) trivial
  | @idleEnded w p pc stopped =>
    exact pointing.from_place owned fixed pc rfl rfl id
  | @idleYielded w p pc live =>
    exact pointing.one_worker owned fixed rfl (.inl rfl) rfl
  | @yielded w branch p pc busy =>
    exact pointing.one_worker owned fixed rfl (.inl rfl) rfl
  | @finished w branch p pc busy =>
    exact pointing.from_place owned fixed pc rfl rfl id
  | @termMarked w branch p pc =>
    exact pointing.from_place owned fixed pc rfl rfl id
  | @readyMarked w branch p ended pc =>
    have apart := elsewhere (by rw [pc]; rfl)
    refine pointing.one_worker owned fixed rfl (.inl rfl) ?_
    simp [Points, home, apart]
  | @switchedOut w branch p ended pc =>
    exact pointing.from_place owned fixed pc rfl rfl id
  | @settledPiber w pc =>
    exact pointing.from_place owned fixed pc rfl rfl id
  | @settledCb w pc =>
    exact pointing.from_place owned fixed pc rfl rfl id
  | @settledIdle w pc =>
    exact pointing.from_place owned fixed pc rfl rfl id

theorem Pointing.current (pointing : Pointing s) {p : PiberId}
    (executing : s.executing w = some p) : (s.workers w).t_piber = p := by
  have points := pointing.points w
  cases pc : (s.workers w).pc <;>
    simp only [Scheduler.executing, Points, pc, reduceCtorEq, Option.some.injEq] at executing points
  case outside =>
    split at executing
    · rename_i caller
      rw [points caller]
      exact Option.some.inj executing
    · cases executing
  case entering =>
    split at executing
    · rename_i caller
      exact Option.some.inj ((points caller).symm.trans executing)
    · cases executing
  case left =>
    split at executing
    · rename_i caller
      rw [if_pos caller] at points
      split at executing
      · rename_i inside
        exact Option.some.inj ((points.1 inside).symm.trans executing)
      · cases executing
      · rename_i out alive
        rw [points.2 out alive]
        exact Option.some.inj executing
    · rename_i caller
      rw [if_neg caller] at points
      rw [points]
      exact Option.some.inj executing
  case inside | ending | parting => exact points.trans executing
  all_goals exact Option.some.inj (points.symm.trans executing)

theorem pointing_run {threads : UInt64} {use_caller : Bool} {caller : ThreadId}
    (reached : Runs.Reaches step PartsElsewhere (initial threads use_caller caller) s) :
    Pointing s :=
  reached.invariant Pointing (pointing_initial threads use_caller caller)
    fun _ _ _ pointing elsewhere stepped =>
      pointing_move pointing elsewhere (move_of_step stepped)

/-- **The current fiber is right**, on every thread and at every place of `run`
and `stop`, in every run in which no fiber gives up the caller's thread to the
root. -/
theorem current_fiber_is_right (threads : UInt64) (use_caller : Bool) (caller : ThreadId)
    (reached : Runs.Reaches step PartsElsewhere (initial threads use_caller caller) s) :
    ∀ w p, s.executing w = some p → (s.workers w).t_piber = p :=
  fun _ _ executing => (pointing_run reached).current executing

/-- What holds in every run: a thread that comes back from a fiber has the
pointer on its main fiber, which on the caller's thread is not the root. -/
structure Returning (s : Scheduler) : Prop where
  mode : s.rootThread = -1 ∨ s.rootThread = s.caller
  apart : s.rootThread = s.caller → ∀ r, s.rootPiber = some r →
    (s.workers s.caller).t_thread_piber ≠ r
  behind : ∀ w branch, (∃ p ended, (s.workers w).pc = .yielding branch p ended) ∨
    (s.workers w).pc = .resumed branch → (s.workers w).t_piber = (s.workers w).t_thread_piber

theorem returning_initial (threads : UInt64) (use_caller : Bool) (caller : ThreadId) :
    Returning (initial threads use_caller caller) where
  mode := (pointing_initial threads use_caller caller).mode
  apart := by
    unfold initial
    split
    · simp
    · intro root
      cases root
  behind := by simp [outside_initial]

private theorem Returning.one_worker {x : Worker} (returning : Returning s)
    (fixed : t.rootThread = s.rootThread ∧ t.rootPiber = s.rootPiber ∧ t.caller = s.caller)
    (workers : t.workers = Function.update s.workers w x)
    (kept : x.t_thread_piber = (s.workers w).t_thread_piber ∨ (w : ℤ) ≠ s.rootThread)
    (here : ∀ branch, (∃ p ended, x.pc = .yielding branch p ended) ∨ x.pc = .resumed branch →
      x.t_piber = x.t_thread_piber) : Returning t := by
  obtain ⟨thread, root, caller⟩ := fixed
  refine ⟨?_, ?_, fun v => ?_⟩
  · rw [thread, caller]
    exact returning.mode
  · rw [thread, caller, root, workers]
    intro owning r found
    by_cases same : s.caller = w
    · rw [same, Function.update_self]
      rcases kept with kept | away
      · rw [kept, ← same]
        exact returning.apart owning r found
      · exact absurd (same ▸ owning.symm) away
    · rw [Function.update_of_ne same]
      exact returning.apart owning r found
  · rw [workers]
    by_cases same : v = w
    · subst same
      rw [Function.update_self]
      exact here
    · rw [Function.update_of_ne same]
      exact returning.behind v

theorem returning_move {a : Action} (returning : Returning s) (moved : Move s a t) :
    Returning t := by
  have fixed := fixed_move moved
  have behind := returning.behind
  cases moved with
  | newPiber | scheduled | ignored | startRefused | stopRefused | stopCalled | stopMarked
  | rootLost | collected | joined | returned =>
    exact ⟨returning.mode, returning.apart, returning.behind⟩
  | @started ids open_for quiet count fresh =>
    have apart : s.caller ∉ ids := fun member => (fresh _ member).1 rfl
    refine ⟨returning.mode, ?_, fun v branch => ?_⟩
    · simp only [apart, if_false]
      exact returning.apart
    · by_cases member : v ∈ ids
      · simp [member]
      · simp only [member, if_false]
        exact behind v branch
  | rootReturned pc root done =>
    exact returning.one_worker fixed rfl (.inl rfl) fun _ _ => rfl
  | entered pc apart => exact returning.one_worker fixed rfl (.inr apart) (by simp)
  | @readyMarked w branch p ended pc =>
    exact returning.one_worker fixed rfl (.inl rfl) fun _ _ => rfl
  | @switchedOut w branch p ended pc =>
    have home := behind w branch (.inl ⟨p, ended, pc⟩)
    exact returning.one_worker fixed rfl (.inl rfl) fun _ _ => home
  | _ => exact returning.one_worker fixed rfl (.inl rfl) (by simp)

/-- The condition is exact: whenever a fiber has given up the caller's thread,
`run` goes on there with the pointer on another fiber than its own. -/
theorem back_in_root_astray {threads : UInt64} {use_caller : Bool} {caller : ThreadId}
    (reached : Runs.Reachable step (initial threads use_caller caller) s)
    (root : (w : ℤ) = s.rootThread) (back : (s.workers w).pc = .resumed branch) :
    ∀ p, s.executing w = some p → (s.workers w).t_piber ≠ p := by
  have returning := reached.invariant Returning (returning_initial threads use_caller caller)
    fun _ _ _ returning _ stepped => returning_move returning (move_of_step stepped)
  intro p executing
  simp only [Scheduler.executing, back, home, root, if_true] at executing
  rw [returning.behind w branch (.inr back)]
  rcases returning.mode with absent | owning
  · omega
  · have same : w = s.caller := Int.ofNat_inj.mp (root.trans owning)
    rw [same]
    exact returning.apart owning p executing

/-- A worker thread runs a callback, and the caller's thread enters the root
and its idle fiber. -/
def callerWatches : List Action :=
  [.start [1], .schedule none (.cb (some 7)) (-1)] ++ List.replicate 5 (.worker 1) ++
    [.finish 1] ++ List.replicate 3 (.worker 1) ++ [.schedule none (.cb (some 8)) 1, .stop, .owner,
    .owner] ++ List.replicate 5 (.worker 0)

theorem caller_watches_current :
    ∃ s, Runs.run step (initial 2 true 0) callerWatches = some s ∧
      s.executing 0 = some 5 ∧ s.executing 1 = some 2 ∧
      ∀ w p, s.executing w = some p → (s.workers w).t_piber = p := by
  have seen : (Runs.run step (initial 2 true 0) callerWatches).map
      (fun s => (s.executing 0, s.executing 1)) = some (some 5, some 2) := by
    decide +kernel
  have admitted : Runs.AllSteps step PartsElsewhere (initial 2 true 0) callerWatches := by
    decide +kernel
  obtain ⟨s, replay, same⟩ := Option.map_eq_some_iff.mp seen
  simp only [Prod.mk.injEq] at same
  exact ⟨s, replay, same.1, same.2,
    current_fiber_is_right 2 true 0 (Runs.reaches_of_run callerWatches replay admitted)⟩

/-- Only the caller's thread: a callback is queued, `stop` runs the root, and
the callback ends. -/
def callerRunsCallback : List Action :=
  [.schedule none (.cb (some 7)) (-1), .stop, .owner, .owner] ++ List.replicate 5 (.worker 0) ++
    [.finish 0] ++ List.replicate 3 (.worker 0)

/-- Back in `run` the root executes, and `Piber::GetThis()` is the main fiber. -/
theorem caller_runs_callback_astray :
    ∃ s, Runs.run step (initial 1 true 0) callerRunsCallback = some s ∧
      (s.workers 0).pc = .resumed .cb ∧ s.executing 0 = some 1 ∧ (s.workers 0).t_piber = 0 := by
  have seen : (Runs.run step (initial 1 true 0) callerRunsCallback).map
      (fun s => ((s.workers 0).pc, s.executing 0, (s.workers 0).t_piber)) =
        some (.resumed .cb, some 1, 0) := by
    decide +kernel
  obtain ⟨s, replay, same⟩ := Option.map_eq_some_iff.mp seen
  simp only [Prod.mk.injEq] at same
  exact ⟨s, replay, same⟩

end Scheduler
end Synergy
