import Synergy.Scheduler

/-! What a step of the scheduler can do, said once. `Move` lists the branches
of the source with the state each one leaves; the laws of the other modules are
proved branch by branch over it and never unfold the step function. -/
namespace Synergy.Scheduler

/-- An entry that a scan on this thread may take. -/
def Qualifies (runing : PiberId → Bool) (thread : ThreadId) (it : Entry) : Prop :=
  (it.task.thread = -1 ∨ it.task.thread = thread) ∧
    ∀ p, it.task.piber = some p → runing p = false

section Scan

variable {runing : PiberId → Bool} {thread : ThreadId} {it : Entry}

private theorem any_runing_iff (task : ScheduleTask) :
    task.piber.any runing = false ↔ ∀ p, task.piber = some p → runing p = false := by
  cases task.piber with
  | none => simp
  | some p => simp

theorem scan_take (rest : List Entry) (taken : Qualifies runing thread it) :
    scan runing thread (it :: rest) = (some it, rest, !rest.isEmpty) := by
  obtain ⟨pin, free⟩ := taken
  have here : ¬ (it.task.thread ≠ -1 ∧ it.task.thread ≠ thread) := by omega
  simp [scan, here, (any_runing_iff it.task).mpr free]

theorem scan_pass (rest : List Entry) (passed : ¬ Qualifies runing thread it) :
    (scan runing thread (it :: rest)).1 = (scan runing thread rest).1 ∧
      (scan runing thread (it :: rest)).2.1 = it :: (scan runing thread rest).2.1 := by
  by_cases pinned : it.task.thread ≠ -1 ∧ it.task.thread ≠ thread
  · simp [scan, pinned]
  · have busy : it.task.piber.any runing = true := by
      by_contra free
      exact passed ⟨by omega, (any_runing_iff it.task).mp (by simpa using free)⟩
    simp [scan, pinned, busy]

/-- A scan takes the first entry that qualifies and leaves the others in their
order; it comes back with nothing only if no entry qualifies. -/
theorem scan_cases (runing : PiberId → Bool) (thread : ThreadId) (queue : List Entry) :
    (∃ before it after, queue = before ++ it :: after ∧
      (scan runing thread queue).1 = some it ∧
      (scan runing thread queue).2.1 = before ++ after ∧
      Qualifies runing thread it ∧ ∀ e ∈ before, ¬ Qualifies runing thread e) ∨
    (scan runing thread queue).1 = none ∧ ∀ e ∈ queue, ¬ Qualifies runing thread e := by
  induction queue with
  | nil => exact .inr ⟨rfl, by simp⟩
  | cons head rest ih =>
    by_cases taken : Qualifies runing thread head
    · have found := scan_take rest taken
      exact .inl ⟨[], head, rest, rfl, by rw [found], by rw [found]; rfl, taken, by simp⟩
    · obtain ⟨same, left⟩ := scan_pass rest taken
      rw [same, left]
      rcases ih with ⟨before, it, after, split, found, kept, here, passed⟩ | ⟨none_found, none_fit⟩
      · refine .inl ⟨head :: before, it, after, by rw [split]; rfl, found, by rw [kept]; rfl,
          here, fun e member => ?_⟩
        rcases List.mem_cons.mp member with rfl | later
        · exact taken
        · exact passed e later
      · refine .inr ⟨none_found, fun e member => ?_⟩
        rcases List.mem_cons.mp member with rfl | later
        · exact taken
        · exact none_fit e later

theorem scan_finds {before after : List Entry} (fits : Qualifies runing thread it)
    (first : ∀ e ∈ before, ¬ Qualifies runing thread e) :
    (scan runing thread (before ++ it :: after)).1 = some it := by
  induction before with
  | nil => simp [scan_take after fits]
  | cons head rest ih =>
    rw [List.cons_append, (scan_pass _ (first head List.mem_cons_self)).1]
    exact ih fun e member => first e (List.mem_cons_of_mem _ member)

end Scan

theorem runScan_eq (s : Scheduler) (w : ThreadId) :
    s.runScan w = match (scan s.runing w s.tasks).1 with
      | none => s.advance w (.picked {})
      | some it =>
        { s with
          tasks := (scan s.runing w s.tasks).2.1
          activeThreadCount := s.activeThreadCount + 1
          taken := it :: s.taken }.advance w (.picked it.task) := by
  unfold runScan
  obtain ⟨found, left, tickle_me⟩ := scan s.runing w s.tasks
  cases found <;> simp

/-- One step, by the branch of the source that takes it. -/
inductive Move (s : Scheduler) : Action → Scheduler → Prop where
  | newPiber : Move s .newPiber (s.newPiber .task .create)
  | scheduled (task : ScheduleTask) (same : task = ScheduleTask.make fc thread)
      (caller : ∀ w, worker = some w → ∃ at_work, s.insideTask w = some at_work)
      (held : s.userPiber fc) (set : task.isSet) :
      Move s (.schedule worker fc thread) { s with
        tasks := s.tasks ++ [⟨task, s.accepted.length⟩]
        accepted := s.accepted ++ [task] }
  | ignored : Move s (.schedule worker fc thread) s
  | started (open_for : s.m_stopping = false) (quiet : s.owner = .outside)
      (count : ids.length = s.threadCount.toNat)
      (fresh : ∀ id ∈ ids, id ≠ s.caller ∧ (s.workers id).pc = .outside) :
      Move s (.start ids) { s with
        threads := ids
        workers := fun w => if w ∈ ids then { pc := .entering } else s.workers w }
  | startRefused : Move s (.start ids) s
  | stopRefused (quiet : s.owner = .outside) (stopped : s.stopping = true) : Move s .stop s
  | stopCalled (quiet : s.owner = .outside) (live : s.stopping = false) :
      Move s .stop { s with owner := .marking }
  | stopMarked (pc : s.owner = .marking) :
      Move s .owner { s with
        m_stopping := true
        owner := if s.rootPiber.isSome then .resumingRoot else .collecting }
  | rootResumed (pc : s.owner = .resumingRoot) (root : s.rootPiber = some r)
      (ctx : (s.pibers r).ctx = .body) :
      Move s .owner { s with
        pibers := Function.update s.pibers r (s.pibers r).markRuning.load
        workers := Function.update s.workers s.caller
          { s.workers s.caller with pc := .entering, t_piber := r }
        owner := .inRoot }
  | rootLost (pc : s.owner = .resumingRoot) (root : s.rootPiber = some r)
      (ctx : (s.pibers r).ctx = .ended) :
      Move s .owner { s with
        pibers := Function.update s.pibers r (s.pibers r).markRuning
        owner := .lost }
  | rootReturned (pc : s.owner = .inRoot) (root : s.rootPiber = some r)
      (done : (s.workers s.caller).pc = .left) :
      Move s .owner { s with
        pibers := Function.update s.pibers r ((s.pibers r).markTerm.save .ended)
        workers := Function.update s.workers s.caller
          { s.workers s.caller with t_piber := (s.workers s.caller).t_thread_piber }
        owner := .collecting }
  | collected (pc : s.owner = .collecting) :
      Move s .owner { s with owner := .joining s.threads, threads := [] }
  | joined (pc : s.owner = .joining (thr :: thrs))
      (done : (s.workers thr).pc = .left ∨ ∃ branch, (s.workers thr).pc = .lost branch) :
      Move s .owner { s with owner := .joining thrs }
  | returned (pc : s.owner = .joining []) : Move s .owner { s with owner := .outside }
  | entered (pc : (s.workers w).pc = .entering) (apart : (w : ℤ) ≠ s.rootThread) :
      Move s (.worker w) (((s.newPiber .main .threadMain).newPiber (.idle w) .create).setWorker w
        { pc := .scanning, t_piber := s.created, t_thread_piber := s.created
          idle_piber := s.created + 1, cb_piber := none })
  | enteredRoot (pc : (s.workers w).pc = .entering) (same : (w : ℤ) = s.rootThread) :
      Move s (.worker w) ((s.newPiber (.idle w) .create).setWorker w
        { s.workers w with pc := .scanning, idle_piber := s.created, cb_piber := none })
  | took (pc : (s.workers w).pc = .scanning) (it : Entry)
      (split : s.tasks = before ++ it :: after) (fits : Qualifies s.runing w it)
      (first : ∀ e ∈ before, ¬ Qualifies s.runing w e) :
      Move s (.worker w) ({ s with
        tasks := before ++ after
        activeThreadCount := s.activeThreadCount + 1
        taken := it :: s.taken }.advance w (.picked it.task))
  | tookNothing (pc : (s.workers w).pc = .scanning)
      (none_fits : ∀ e ∈ s.tasks, ¬ Qualifies s.runing w e) :
      Move s (.worker w) (s.advance w (.picked {}))
  | pickedPiber (pc : (s.workers w).pc = .picked task) (piber : task.piber = some p) :
      Move s (.worker w) (s.advance w (.resuming .piber p))
  | pickedCb (pc : (s.workers w).pc = .picked task) (piber : task.piber = none)
      (cb : task.cb = some f) (spare : (s.workers w).cb_piber = none) :
      Move s (.worker w) ((s.newPiber .task .create).setWorker w
        { s.workers w with pc := .resuming .cb s.created, cb_piber := some s.created })
  | recycledCb (pc : (s.workers w).pc = .picked task) (piber : task.piber = none)
      (cb : task.cb = some f) (spare : (s.workers w).cb_piber = some p) :
      Move s (.worker w) ((s.setPiber p (s.pibers p).reset).advance w (.resuming .cb p))
  | pickedIdle (pc : (s.workers w).pc = .picked task) (piber : task.piber = none)
      (cb : task.cb = none) (live : (s.pibers (s.workers w).idle_piber).state ≠ .TERM) :
      Move s (.worker w) ({ s with idleThreadCount := s.idleThreadCount + 1 }.advance w
        (.resuming .idle (s.workers w).idle_piber))
  | leave (pc : (s.workers w).pc = .picked task) (piber : task.piber = none)
      (cb : task.cb = none) (ended : (s.pibers (s.workers w).idle_piber).state = .TERM) :
      Move s (.worker w) (s.advance w .left)
  | marked (pc : (s.workers w).pc = .resuming branch p) :
      Move s (.worker w) ((s.setPiber p (s.pibers p).markRuning).setWorker w
        { s.workers w with pc := .switching branch p, t_piber := p })
  | switched (pc : (s.workers w).pc = .switching branch p) (ctx : (s.pibers p).ctx = .body) :
      Move s (.worker w) ((s.setPiber p (s.pibers p).load).advance w (.inside branch p))
  | threadLost (pc : (s.workers w).pc = .switching branch p) (ctx : (s.pibers p).ctx = .ended) :
      Move s (.worker w) (s.advance w (.lost branch))
  | idleEnded (pc : (s.workers w).pc = .inside .idle p) (stopped : s.stopping = true) :
      Move s (.worker w) (s.advance w (.ending .idle p))
  | idleYielded (pc : (s.workers w).pc = .inside .idle p) (live : s.stopping = false) :
      Move s (.worker w) (s.advance w (.parting .idle (s.workers w).t_piber false))
  | yielded (pc : (s.workers w).pc = .inside branch p) (busy : branch ≠ .idle) :
      Move s (.yield w) (s.advance w (.parting branch (s.workers w).t_piber false))
  | finished (pc : (s.workers w).pc = .inside branch p) (busy : branch ≠ .idle) :
      Move s (.finish w) (s.advance w (.ending branch p))
  | termMarked (pc : (s.workers w).pc = .ending branch p) :
      Move s (.worker w) ((s.setPiber p (s.pibers p).markTerm).advance w (.parting branch p true))
  | readyMarked (pc : (s.workers w).pc = .parting branch p ended) :
      Move s (.worker w) ((s.setPiber p (s.pibers p).markReady).setWorker w
        { s.workers w with
          pc := .yielding branch p ended, t_piber := (s.workers w).t_thread_piber })
  | switchedOut (pc : (s.workers w).pc = .yielding branch p ended) :
      Move s (.worker w) ((s.setPiber p ((s.pibers p).save (if ended then .ended else .body))).advance
        w (.resumed branch))
  | settledPiber (pc : (s.workers w).pc = .resumed .piber) :
      Move s (.worker w)
        ({ s with activeThreadCount := s.activeThreadCount - 1 }.advance w .scanning)
  | settledCb (pc : (s.workers w).pc = .resumed .cb) :
      Move s (.worker w) ({ s with activeThreadCount := s.activeThreadCount - 1 }.setWorker w
        { s.workers w with pc := .scanning, cb_piber := none })
  | settledIdle (pc : (s.workers w).pc = .resumed .idle) :
      Move s (.worker w)
        ({ s with idleThreadCount := s.idleThreadCount - 1 }.advance w .scanning)

variable {s t : Scheduler} {w : ThreadId}

theorem insideTask_some {branch : Branch} {p : PiberId}
    (found : s.insideTask w = some (branch, p)) :
    (s.workers w).pc = .inside branch p ∧ branch ≠ .idle := by
  unfold insideTask at found
  split at found <;> simp_all

private theorem move_dispatch {task : ScheduleTask} (pc : (s.workers w).pc = .picked task) :
    Move s (.worker w) (s.dispatch w task) := by
  unfold dispatch
  split
  · exact .pickedPiber pc ‹_›
  · split
    · exact .recycledCb pc ‹_› ‹_› ‹_›
    · exact .pickedCb pc ‹_› ‹_› ‹_›
  · by_cases ended : (s.pibers (s.workers w).idle_piber).state = .TERM
    · simp only [ended, if_true]
      exact .leave pc ‹_› ‹_› ended
    · simp only [ended, if_false]
      exact .pickedIdle pc ‹_› ‹_› ended

private theorem move_scan (pc : (s.workers w).pc = .scanning) :
    Move s (.worker w) (s.runScan w) := by
  rw [runScan_eq]
  rcases scan_cases s.runing w s.tasks with
    ⟨before, it, after, split, found, left, fits, first⟩ | ⟨found, none_fits⟩
  · rw [found, left]
    exact .took pc it split fits first
  · rw [found]
    exact .tookNothing pc none_fits

theorem move_of_workerStep (stepped : s.workerStep w = some t) : Move s (.worker w) t := by
  unfold workerStep at stepped
  split at stepped <;> try cases stepped
  · rename_i pc
    unfold enterRun
    by_cases apart : (w : ℤ) ≠ s.rootThread
    · simp only [apart, ne_eq, not_false_eq_true, if_true]
      exact .entered pc apart
    · simp only [apart, if_false]
      exact .enteredRoot pc (not_not.mp apart)
  · exact move_scan ‹_›
  · exact move_dispatch ‹_›
  · exact .marked ‹_›
  · rename_i pc
    unfold resumeSwitch
    split
    · exact .switched pc ‹_›
    · exact .threadLost pc ‹_›
  · rename_i pc
    split at stepped <;> cases stepped
    · exact .idleEnded pc ‹_›
    · exact .idleYielded pc (by simpa using ‹¬ s.stopping = true›)
  · exact .termMarked ‹_›
  · exact .readyMarked ‹_›
  · exact .switchedOut ‹_›
  · rename_i branch pc
    cases branch with
    | piber => exact .settledPiber pc
    | cb => exact .settledCb pc
    | idle => exact .settledIdle pc

private theorem markReady_term (p : Piber) : p.markTerm.markReady = p.markTerm := by
  simp [Piber.markReady, Piber.markTerm]

theorem move_of_ownerStep (stepped : s.ownerStep = some t) : Move s .owner t := by
  unfold ownerStep at stepped
  split at stepped
  · cases stepped
    exact .stopMarked ‹_›
  · split at stepped
    · cases stepped
    · split at stepped <;> cases stepped
      · simpa using Move.rootResumed ‹_› ‹_› ‹_›
      · exact .rootLost ‹_› ‹_› ‹_›
  · split at stepped
    · cases stepped
    · split at stepped <;> cases stepped
      rw [markReady_term]
      exact .rootReturned ‹_› ‹_› ‹_›
  · cases stepped
    exact .collected ‹_›
  · cases stepped
    exact .returned ‹_›
  · split at stepped <;> cases stepped
    · exact .joined ‹_› (.inl ‹_›)
    · exact .joined ‹_› (.inr ⟨_, ‹_›⟩)
  · cases stepped

private theorem move_of_schedule {worker : Option ThreadId} {fc : FiberOrCb} {thread : ℤ}
    (caller : ∀ w, worker = some w → ∃ at_work, s.insideTask w = some at_work)
    (held : s.userPiber fc) : Move s (.schedule worker fc thread) (s.schedule fc thread) := by
  have same : s.schedule fc thread = (s.scheduleNoLock fc thread).1 := by
    unfold schedule
    simp
  rw [same]
  unfold scheduleNoLock
  by_cases set : (ScheduleTask.make fc thread).isSet
  · simp only [set, if_true]
    exact .scheduled _ rfl caller held set
  · simp only [set]
    exact .ignored

/-- Every step is one of the moves. -/
theorem move_of_step {a : Action} (stepped : step s a = some t) : Move s a t := by
  cases a with
  | newPiber =>
    cases stepped
    exact .newPiber
  | schedule worker fc thread =>
    simp only [step] at stepped
    split at stepped <;> cases stepped
    rename_i guard
    refine move_of_schedule (fun w same => ?_) guard.2
    have working := guard.1
    rw [same] at working
    exact Option.isSome_iff_exists.mp (by simpa using working)
  | start ids =>
    simp only [step] at stepped
    split at stepped <;> cases stepped
    rename_i guard
    unfold start
    by_cases flag : s.m_stopping = true
    · rw [if_pos flag]
      exact .startRefused
    · rw [if_neg flag]
      exact .started (by simpa using flag) guard.1 guard.2.1 guard.2.2.2
  | stop =>
    simp only [step] at stepped
    split at stepped
    · rename_i quiet
      split at stepped <;> cases stepped
      · exact .stopRefused quiet ‹_›
      · exact .stopCalled quiet (by simpa using ‹¬ s.stopping = true›)
    · cases stepped
  | owner => exact move_of_ownerStep stepped
  | worker w => exact move_of_workerStep stepped
  | yield w =>
    simp only [step] at stepped
    split at stepped <;> cases stepped
    rename_i found
    obtain ⟨pc, busy⟩ := insideTask_some found
    exact .yielded pc busy
  | finish w =>
    simp only [step] at stepped
    split at stepped <;> cases stepped
    rename_i found
    obtain ⟨pc, busy⟩ := insideTask_some found
    exact .finished pc busy

/-- The threads that the step lets into `run`. -/
def entering (s : Scheduler) : Action → List ThreadId
  | .start ids => if s.m_stopping then [] else ids
  | .owner => if s.owner = .resumingRoot then [s.caller] else []
  | _ => []

/-- No other thread gets inside. -/
theorem outside_move {a : Action} (moved : Move s a t) (out : (s.workers w).pc = .outside)
    (fresh : w ∉ s.entering a) : (t.workers w).pc = .outside := by
  have other : ∀ v x, (s.workers v).pc ≠ .outside →
      ((Function.update s.workers v x) w).pc = .outside := by
    intro v x inside
    have apart : w ≠ v := fun same => inside (same ▸ out)
    rw [Function.update_of_ne apart, out]
  cases moved with
  | newPiber | scheduled | ignored | startRefused | stopRefused | stopCalled | stopMarked
  | rootLost | collected | joined | returned => exact out
  | @started ids open_for quiet count started =>
    have apart : w ∉ ids := by simpa [entering, open_for] using fresh
    simpa [apart] using out
  | @rootResumed r pc root ctx =>
    have apart : w ≠ s.caller := by simpa [entering, pc] using fresh
    simpa [Function.update_of_ne apart] using out
  | rootReturned pc root done => exact other _ _ (by simp [done])
  | entered pc | enteredRoot pc | took pc | tookNothing pc | pickedPiber pc | pickedCb pc
  | recycledCb pc | pickedIdle pc | leave pc | marked pc | switched pc | threadLost pc
  | idleEnded pc | idleYielded pc | yielded pc | finished pc | termMarked pc | readyMarked pc
  | switchedOut pc | settledPiber pc | settledCb pc | settledIdle pc =>
    exact other _ _ (by simp [pc])

end Synergy.Scheduler
