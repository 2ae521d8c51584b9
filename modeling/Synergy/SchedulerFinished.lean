import Synergy.SchedulerExclusion

/-! Finished fibers stay finished. Only the idle branch of `run` tests for
`TERM`; the scan tests for `RUNING`, and `stop` resumes the root untested. What
keeps a finished fiber from being resumed is then up to the callers, and
`FinishesAlone` says what they owe. -/
namespace Synergy

/-- The fiber that the thread is about to resume, up to the context switch of
`resume`. -/
def WorkerPc.waiting : WorkerPc → Option PiberId
  | .picked task => task.piber
  | .resuming _ p | .switching _ p => some p
  | _ => none

theorem WorkerPc.claims_of_waiting {pc : WorkerPc} {p : PiberId} (held : pc.waiting = some p) :
    pc.claims = some p := by
  cases pc <;> simp_all [waiting, claims]

namespace Scheduler

variable {s t : Scheduler}

/-- No fiber is scheduled once it is finished; a fiber finishes when no entry
of the queue and no thread on its way to switch to it is left; and `stop` is not called
with a finished root, unless it returns at once. -/
def FinishesAlone (s : Scheduler) : Action → Prop
  | .schedule _ (.piber (some p)) _ => (s.pibers p).state ≠ .TERM
  | .stop => s.stopping = false → ∀ r, s.rootPiber = some r → (s.pibers r).state ≠ .TERM
  | .worker w => ∀ branch p, (s.workers w).pc = .ending branch p →
      (∀ e ∈ s.tasks, e.task.piber ≠ some p) ∧ ∀ v, (s.workers v).pc.waiting ≠ some p
  | _ => True

/-- No call of `resume`, in the three branches of `run` or in `stop`, is made
on a finished fiber, and none switches to one that finished since the call. -/
structure ResumesLive (s : Scheduler) : Prop where
  in_run : ∀ w branch p, (s.workers w).pc = .resuming branch p → (s.pibers p).state ≠ .TERM
  in_switch : ∀ w branch p, (s.workers w).pc = .switching branch p → (s.pibers p).state ≠ .TERM
  in_stop : s.owner = .resumingRoot → ∀ r, s.rootPiber = some r → (s.pibers r).state ≠ .TERM

/-- The invariant behind it: what is queued or about to be resumed is alive. -/
structure Alive (s : Scheduler) : Prop where
  queued : ∀ e ∈ s.tasks, ∀ p, e.task.piber = some p → (s.pibers p).state ≠ .TERM
  waiting : ∀ w p, (s.workers w).pc.waiting = some p → (s.pibers p).state ≠ .TERM
  root : s.owner = .marking ∨ s.owner = .resumingRoot →
    ∀ r, s.rootPiber = some r → (s.pibers r).state ≠ .TERM

theorem Alive.resumesLive (alive : Alive s) : ResumesLive s where
  in_run w branch p pc := alive.waiting w p (by simp [pc, WorkerPc.waiting])
  in_switch w branch p pc := alive.waiting w p (by simp [pc, WorkerPc.waiting])
  in_stop pc := alive.root (.inr pc)

theorem entry_move {a : Action} {e : Entry} (moved : Move s a t) (member : e ∈ t.tasks) :
    e ∈ s.tasks ∨ ∃ worker fc thread, a = .schedule worker fc thread ∧
      e.task = ScheduleTask.make fc thread := by
  cases moved with
  | @scheduled fc thread worker task same caller held set =>
    rcases List.mem_append.mp member with old | new
    · exact .inl old
    · cases List.mem_singleton.mp new
      exact .inr ⟨worker, fc, thread, rfl, same⟩
  | @took w before after pc it split fits first =>
    rw [split]
    rcases List.mem_append.mp member with early | late
    · exact .inl (List.mem_append_left _ early)
    · exact .inl (List.mem_append_right _ (List.mem_cons_of_mem _ late))
  | _ => exact .inl member

/-- A fiber comes to be about to be resumed from the queue, or fresh or idle
and then not finished. -/
private theorem waiting_move {a : Action} {v : ThreadId} {p : PiberId} (owned : Ownership s)
    (moved : Move s a t) (held : (t.workers v).pc.waiting = some p) :
    (s.workers v).pc.waiting = some p ∨ (∃ e ∈ s.tasks, e.task.piber = some p) ∨
      (t.pibers p).state ≠ .TERM := by
  have other_worker : ∀ w x, t.workers = Function.update s.workers w x → v ≠ w →
      (s.workers v).pc.waiting = some p := by
    intro w x workers apart
    rwa [workers, Function.update_of_ne apart] at held
  have no_longer : ∀ w x, t.workers = Function.update s.workers w x →
      x.pc.waiting = none → (s.workers v).pc.waiting = some p := by
    intro w x workers none_held
    refine other_worker w x workers fun same => ?_
    subst same
    rw [workers, Function.update_self, none_held] at held
    cases held
  cases moved with
  | newPiber | scheduled | ignored | startRefused | stopRefused | stopCalled | stopMarked
  | rootLost | collected | joined | returned => exact .inl held
  | @started ids open_for quiet count fresh =>
    by_cases member : v ∈ ids
    · simp [member, WorkerPc.waiting] at held
    · exact .inl (by simpa [member] using held)
  | @rootReturned r pc root done =>
    exact .inl (no_longer s.caller _ rfl (by simp [done, WorkerPc.waiting]))
  | @took w before after pc it split fits first =>
    by_cases same : v = w
    · subst same
      simp only [advance, setWorker, Function.update_self, WorkerPc.waiting] at held
      exact .inr (.inl ⟨it, by simp [split], held⟩)
    · exact .inl (other_worker w _ rfl same)
  | @pickedPiber w task q pc piber =>
    by_cases same : v = w
    · subst same
      simp only [advance, setWorker, Function.update_self, WorkerPc.waiting] at held
      exact .inl (by simp [pc, WorkerPc.waiting, piber, held])
    · exact .inl (other_worker w _ rfl same)
  | @pickedCb w task f pc piber cb spare =>
    by_cases same : v = w
    · subst same
      simp only [setWorker, Function.update_self, WorkerPc.waiting] at held
      cases held
      exact .inr (.inr (by simp [Piber.create]))
    · exact .inl (other_worker w _ rfl same)
  | @recycledCb w task f q pc piber cb spare =>
    have owns := owned.workers w
    simp only [Owns, pc, spare] at owns
    cases owns.2.1
  | @pickedIdle w task pc piber cb live =>
    by_cases same : v = w
    · subst same
      simp only [advance, setWorker, Function.update_self, WorkerPc.waiting] at held
      cases held
      exact .inr (.inr live)
    · exact .inl (other_worker w _ rfl same)
  | @marked w branch q pc =>
    by_cases same : v = w
    · subst same
      simp only [setWorker, Function.update_self, WorkerPc.waiting] at held
      exact .inl (by simpa [pc, WorkerPc.waiting] using held)
    · exact .inl (other_worker w _ rfl same)
  | rootResumed | entered | enteredRoot | tookNothing | leave | switched | threadLost
  | idleEnded | idleYielded | yielded | finished | termMarked | readyMarked | switchedOut
  | settledPiber | settledCb | settledIdle => exact .inl (no_longer _ _ rfl rfl)

private theorem root_move {a : Action} (moved : Move s a t)
    (calling : t.owner = .marking ∨ t.owner = .resumingRoot) : t.rootPiber = s.rootPiber ∧
      (s.owner = .marking ∨ s.owner = .resumingRoot ∨ a = .stop ∧ s.stopping = false) := by
  cases moved with
  | stopCalled quiet live => exact ⟨rfl, .inr (.inr ⟨rfl, live⟩)⟩
  | stopMarked pc => exact ⟨rfl, .inl pc⟩
  | rootResumed | rootLost | rootReturned | collected | joined | returned =>
    rcases calling with pc | pc <;> cases pc
  | _ => exact ⟨rfl, calling.imp id .inl⟩

theorem alive_step {a : Action} (owned : Ownership s) (alive : Alive s)
    (alone : FinishesAlone s a) (moved : Move s a t) : Alive t where
  queued e member p fiber term := by
    rcases entry_move moved member with old | ⟨worker, fc, thread, same, made⟩
    · have task := (owned.tasks e old).2 p fiber
      rcases term_move moved term with before | ⟨_, root, _⟩ | ⟨w, branch, same, pc⟩
      · exact alive.queued e old p fiber before
      · have role := (owned.root p root).2
        rw [task.2] at role
        cases role
      · subst same
        exact (alone branch p pc).1 e old fiber
    · subst same
      rw [made] at fiber
      cases fc with
      | cb f => cases fiber
      | piber q =>
        simp only [ScheduleTask.make] at fiber
        subst fiber
        rcases term_move moved term with before | ⟨same, _⟩ | ⟨w, branch, same, _⟩
        · exact alone before
        · cases same
        · cases same
  waiting v p held term := by
    rcases term_move moved term with finished | ⟨_, root, _⟩ | ⟨w, branch, same, pc⟩
    · rcases waiting_move owned moved held with before | ⟨e, member, fiber⟩ | live
      · exact alive.waiting v p before finished
      · exact alive.queued e member p fiber finished
      · exact live term
    · rcases waiting_move owned moved held with before | ⟨e, member, fiber⟩ | live
      · exact owned.root_unheld root v (WorkerPc.claims_of_waiting before)
      · have task := (owned.tasks e member).2 p fiber
        have role := (owned.root p root).2
        rw [task.2] at role
        cases role
      · exact live term
    · subst same
      rcases waiting_move owned moved held with before | ⟨e, member, fiber⟩ | live
      · exact (alone branch p pc).2 v before
      · exact (alone branch p pc).1 e member fiber
      · exact live term
  root calling r root term := by
    obtain ⟨same, before⟩ := root_move moved calling
    rw [same] at root
    have role := (owned.root r root).2
    rcases term_move moved term with finished | ⟨_, _, collecting⟩ | ⟨w, branch, act, pc⟩
    · rcases before with marking | resuming | ⟨act, live⟩
      · exact alive.root (.inl marking) r root finished
      · exact alive.root (.inr resuming) r root finished
      · subst act
        exact alone live r root finished
    · rw [collecting] at calling
      rcases calling with pc | pc <;> cases pc
    · exact owned.root_unheld root w (by simp [pc, WorkerPc.claims])

theorem alive_initial (threads : UInt64) (use_caller : Bool) (caller : ThreadId) :
    Alive (initial threads use_caller caller) := by
  have free := outside_initial threads use_caller caller
  refine ⟨?_, fun w p held => ?_, ?_⟩
  · unfold initial
    split <;> simp
  · simp [free, WorkerPc.waiting] at held
  · unfold initial
    split <;> simp

/-- **Finished fibers stay finished.** In every run whose calls meet
`FinishesAlone` no fiber in state `TERM` is ever resumed. -/
theorem finished_fibers_not_resumed (threads : UInt64) (use_caller : Bool) (caller : ThreadId)
    (reached : Runs.Reaches step FinishesAlone (initial threads use_caller caller) s) :
    ResumesLive s := by
  suffices both : Ownership s ∧ Alive s from both.2.resumesLive
  refine reached.invariant (fun u => Ownership u ∧ Alive u)
    ⟨ownership_initial _ _ _, alive_initial _ _ _⟩ ?_
  rintro u a v ⟨owned, alive⟩ alone stepped
  exact ⟨ownership_step owned stepped, alive_step owned alive alone (move_of_step stepped)⟩

/-- `FinishesAlone` where the caller's thread is the only one inside `run`. -/
def FinishesUnqueued (s : Scheduler) : Action → Prop
  | .schedule _ (.piber (some p)) _ => (s.pibers p).state ≠ .TERM
  | .stop => s.stopping = true ∨ s.rootPiber.all (fun r => (s.pibers r).state != .TERM)
  | .worker w =>
    match (s.workers w).pc with
    | .ending _ p => ∀ e ∈ s.tasks, e.task.piber ≠ some p
    | _ => True
  | _ => True

instance (s : Scheduler) : (a : Action) → Decidable (FinishesUnqueued s a)
  | .schedule _ (.piber (some _)) _ => inferInstanceAs (Decidable (_ ≠ _))
  | .stop => inferInstanceAs (Decidable (_ ∨ _))
  | .newPiber | .schedule _ (.piber none) _ | .schedule _ (.cb _) _ | .start _ | .owner
  | .yield _ | .finish _ => .isTrue trivial
  | .worker w =>
    match pc : (s.workers w).pc with
    | .ending _ p =>
      decidable_of_iff (∀ e ∈ s.tasks, e.task.piber ≠ some p) (by simp [FinishesUnqueued, pc])
    | .outside | .entering | .scanning | .picked _ | .resuming .. | .switching .. | .inside ..
    | .parting .. | .yielding .. | .resumed _ | .left | .lost _ =>
      .isTrue (by simp [FinishesUnqueued, pc])

theorem Lone.finishesAlone {a : Action} {caller : ThreadId} (lone : Lone s caller)
    (unqueued : FinishesUnqueued s a) : FinishesAlone s a := by
  cases a with
  | worker w =>
    intro branch p pc
    simp only [FinishesUnqueued, pc] at unqueued
    refine ⟨unqueued, fun v held => ?_⟩
    by_cases here : v = caller
    · have same : w = caller := by
        by_contra other
        rw [lone.others w other] at pc
        cases pc
      rw [here, ← same, pc] at held
      cases held
    · rw [lone.others v here] at held
      cases held
  | stop =>
    intro live r root
    simpa [FinishesUnqueued, live, root] using unqueued
  | schedule worker fc thread =>
    cases fc with
    | cb f => trivial
    | piber p =>
      cases p with
      | none => trivial
      | some p => exact unqueued
  | _ => trivial

theorem lone_caller_finishes_alone {caller : ThreadId}
    (reached : Runs.Reaches step FinishesUnqueued (initial 1 true caller) s) :
    Runs.Reaches step FinishesAlone (initial 1 true caller) s := by
  have start : Lone (initial 1 true caller) caller := ⟨rfl, rfl, fun v other => by simp [initial]⟩
  exact reached.under (Lone · caller) start
    (fun _ _ _ lone _ stepped => lone_move lone (move_of_step stepped))
    fun _ _ lone unqueued => lone.finishesAlone unqueued

/-- `stop` runs one fiber to its end on the caller's thread and returns. -/
def oneFiber : List Action :=
  [.newPiber, .schedule none (.piber (some 2)) (-1), .stop, .owner, .owner] ++
    List.replicate 5 (.worker 0) ++ [.finish 0] ++ List.replicate 15 (.worker 0) ++
    List.replicate 3 .owner

theorem one_fiber_not_resumed_again :
    ∃ s, Runs.run step (initial 1 true 0) oneFiber = some s ∧ s.owner = .outside ∧
      (s.pibers 2).state = .TERM ∧ ResumesLive s := by
  have seen : (Runs.run step (initial 1 true 0) oneFiber).map
      (fun s => (s.owner, (s.pibers 2).state)) = some (.outside, .TERM) := by
    decide +kernel
  have unqueued : Runs.AllSteps step FinishesUnqueued (initial 1 true 0) oneFiber := by
    decide +kernel
  obtain ⟨s, replay, same⟩ := Option.map_eq_some_iff.mp seen
  simp only [Prod.mk.injEq] at same
  exact ⟨s, replay, same.1, same.2, finished_fibers_not_resumed 1 true 0
    (lone_caller_finishes_alone (Runs.reaches_of_run oneFiber replay unqueued))⟩

/-- A fiber queued twice and run to its end the first time. -/
def queuedTwice : List Action :=
  [.newPiber, .schedule none (.piber (some 0)) (-1), .schedule none (.piber (some 0)) (-1),
    .start [1]] ++
    List.replicate 5 (.worker 1) ++ [.finish 1] ++ List.replicate 6 (.worker 1)

/-- The second entry is resumed all the same, and `MainFunc` returns. -/
theorem queued_twice_resumes_finished :
    ∃ s t, Runs.run step (initial 1 false 0) queuedTwice = some s ∧
      (s.workers 1).pc = .resuming .piber 0 ∧ (s.pibers 0).state = .TERM ∧ ¬ ResumesLive s ∧
      Runs.run step s [.worker 1, .worker 1] = some t ∧ (t.workers 1).pc = .lost .piber := by
  have before : (Runs.run step (initial 1 false 0) queuedTwice).map
      (fun s => ((s.workers 1).pc, (s.pibers 0).state)) =
        some (.resuming .piber 0, .TERM) := by
    decide +kernel
  have after : (Runs.run step (initial 1 false 0) queuedTwice).bind
      (fun s => (Runs.run step s [.worker 1, .worker 1]).map fun t => (t.workers 1).pc) =
        some (.lost .piber) := by
    decide +kernel
  obtain ⟨s, replay, same⟩ := Option.map_eq_some_iff.mp before
  rw [replay, Option.bind_some] at after
  obtain ⟨t, ran, lost⟩ := Option.map_eq_some_iff.mp after
  simp only [Prod.mk.injEq] at same
  exact ⟨s, t, replay, same.1, same.2, fun live => live.in_run 1 .piber 0 same.1 same.2, ran, lost⟩

/-- `stop` returns, a task arrives, and `stop` is called again. -/
def stoppedTwice : List Action :=
  [.stop, .owner, .owner] ++ List.replicate 12 (.worker 0) ++
    List.replicate 3 .owner ++ [.schedule none (.cb (some 7)) (-1), .stop, .owner]

/-- The second `stop` resumes the finished root. -/
theorem stopped_twice_resumes_root :
    ∃ s, Runs.run step (initial 1 true 0) stoppedTwice = some s ∧
      s.owner = .resumingRoot ∧ (s.pibers 1).state = .TERM ∧ ¬ ResumesLive s := by
  have seen : (Runs.run step (initial 1 true 0) stoppedTwice).map
      (fun s => (s.owner, s.rootPiber, (s.pibers 1).state)) =
        some (.resumingRoot, some 1, .TERM) := by
    decide +kernel
  obtain ⟨s, replay, same⟩ := Option.map_eq_some_iff.mp seen
  simp only [Prod.mk.injEq] at same
  obtain ⟨calling, root, finished⟩ := same
  exact ⟨s, replay, calling, finished, fun live => live.in_stop calling 1 root finished⟩

end Scheduler
end Synergy
