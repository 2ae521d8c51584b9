import Mathlib.Algebra.BigOperators.Ring.Finset
import Synergy.SchedulerShutdown

/-! The two counters of the scheduler. `m_idleThreadCount` goes up before the
resume of an idle fiber and down behind it, so it counts the threads between
the two, as `m_activeThreadCount` counts those with a task. No thread is in
both, hence neither `size_t` can wrap and `hasIdleThreads` tells the truth. -/
namespace Synergy

/-- Between the increment before the resume of the idle fiber and the decrement
behind it. -/
def WorkerPc.resting : WorkerPc → Bool
  | .resuming branch _ | .switching branch _ | .inside branch _ | .ending branch _
  | .parting branch _ _ | .yielding branch _ _ | .resumed branch | .lost branch =>
    branch == .idle
  | _ => false

/-- No thread works and rests. -/
theorem WorkerPc.not_resting_of_busy {pc : WorkerPc} (busy : pc.busy = true) :
    pc.resting = false := by
  cases pc <;> simp_all [WorkerPc.busy, WorkerPc.resting]

namespace Scheduler
open Tally

variable {s t : Scheduler}

/-- `Scheduler::hasIdleThreads`. -/
def hasIdleThreads (s : Scheduler) : Bool := s.idleThreadCount > 0

/-- One for a thread that has counted itself idle. -/
def rest (s : Scheduler) (w : ThreadId) : ℤ := if (s.workers w).pc.resting then 1 else 0

/-- The idle counter is the number of resting threads. -/
def Rested (s : Scheduler) : Prop := Totals s.rest s.idleThreadCount

theorem rest_of_resting {w : ThreadId} (resting : (s.workers w).pc.resting = true) :
    s.rest w = 1 := by
  simp [rest, resting]

theorem rest_of_not {w : ThreadId} (elsewhere : (s.workers w).pc.resting = false) :
    s.rest w = 0 := by
  simp [rest, elsewhere]

/-- A step of one thread, which may lie down or get up. -/
private theorem Rested.one_worker {w : ThreadId} {x : Worker} (rested : Rested s)
    (workers : t.workers = Function.update s.workers w x)
    (idle : t.idleThreadCount = s.idleThreadCount + (t.rest w - s.rest w)) : Rested t := by
  unfold Rested
  rw [idle]
  refine Totals.change rested fun v apart => ?_
  simp [rest, workers, Function.update_of_ne apart]

/-- A step after which the same threads rest. -/
private theorem Rested.quiet (rested : Rested s)
    (resting : ∀ v, (t.workers v).pc.resting = (s.workers v).pc.resting)
    (idle : t.idleThreadCount = s.idleThreadCount) : Rested t := by
  unfold Rested
  rw [idle]
  exact Totals.congr rested fun v => by simp [rest, resting v]

private theorem Rested.same_worker {w : ThreadId} {x : Worker} (rested : Rested s)
    (workers : t.workers = Function.update s.workers w x)
    (resting : x.pc.resting = (s.workers w).pc.resting)
    (idle : t.idleThreadCount = s.idleThreadCount) : Rested t := by
  refine rested.quiet (fun v => ?_) idle
  rw [workers]
  by_cases same : v = w
  · subst v
    rw [Function.update_self, resting]
  · rw [Function.update_of_ne same]

theorem rested_initial (threads : UInt64) (use_caller : Bool) (caller : ThreadId) :
    Rested (initial threads use_caller caller) := by
  have idle : (initial threads use_caller caller).idleThreadCount = 0 := by
    unfold initial
    split <;> rfl
  unfold Rested
  rw [idle]
  refine totals_zero fun w => rest_of_not ?_
  simp [outside_initial, WorkerPc.resting]

theorem rested_move {a : Action} (owned : Ownership s) (rested : Rested s)
    (moved : Move s a t) : Rested t := by
  cases moved with
  | newPiber | scheduled | ignored | startRefused | stopRefused | stopCalled | stopMarked
  | rootLost | collected | joined | returned => exact rested
  | @started ids open_for quiet count fresh =>
    refine rested.quiet (fun v => ?_) rfl
    by_cases member : v ∈ ids
    · simp [member, (fresh v member).2, WorkerPc.resting]
    · simp [member]
  | rootResumed pc root ctx =>
    refine rested.same_worker rfl ?_ rfl
    rcases owned.caller (by simp [pc]) with out | left
    · simp [out, WorkerPc.resting]
    · simp [left, WorkerPc.resting]
  | rootReturned pc root done => exact rested.same_worker rfl rfl rfl
  | pickedIdle pc piber cb live =>
    refine rested.one_worker rfl ?_
    rw [rest_of_not (s := s) (by simp [pc, WorkerPc.resting]), rest_of_resting]
    · simp
    · simp [WorkerPc.resting]
  | settledIdle pc =>
    refine rested.one_worker rfl ?_
    rw [rest_of_resting (s := s) (by simp [pc, WorkerPc.resting]), rest_of_not]
    · simp
      omega
    · simp [WorkerPc.resting]
  | took pc | tookNothing pc | pickedPiber pc | pickedCb pc | recycledCb pc | leave pc
  | entered pc | enteredRoot pc | marked pc | switched pc | threadLost pc | idleEnded pc
  | idleYielded pc | yielded pc | finished pc | termMarked pc | readyMarked pc | switchedOut pc
  | settledPiber pc | settledCb pc =>
    exact rested.same_worker rfl (by simp [pc, WorkerPc.resting]) rfl

/-- These are the threads that have been inside `run`. -/
def Entered (s : Scheduler) (members : Finset ThreadId) : Prop :=
  ∀ w, w ∈ members ↔ (s.workers w).pc ≠ .outside

private theorem Entered.same_worker {members : Finset ThreadId} {w : ThreadId} {x : Worker}
    (entered : Entered s members) (workers : t.workers = Function.update s.workers w x)
    (was : (s.workers w).pc ≠ .outside) (stays : x.pc ≠ .outside) :
    ∃ members, Entered t members := by
  refine ⟨members, fun v => ?_⟩
  rw [entered v, workers]
  by_cases same : v = w
  · subst v
    simp [was, stays]
  · rw [Function.update_of_ne same]

theorem entered_move {a : Action} {members : Finset ThreadId} (entered : Entered s members)
    (moved : Move s a t) : ∃ members, Entered t members := by
  cases moved with
  | newPiber | scheduled | ignored | startRefused | stopRefused | stopCalled | stopMarked
  | rootLost | collected | joined | returned => exact ⟨members, entered⟩
  | @started ids open_for quiet count fresh =>
    refine ⟨members ∪ ids.toFinset, fun v => ?_⟩
    rw [Finset.mem_union, List.mem_toFinset, entered v]
    by_cases member : v ∈ ids <;> simp [member]
  | rootResumed pc root ctx =>
    refine ⟨insert s.caller members, fun v => ?_⟩
    rw [Finset.mem_insert, entered v]
    by_cases same : v = s.caller
    · subst v
      simp
    · simp [same]
  | rootReturned pc root done =>
    exact entered.same_worker rfl (by simp [done]) (by simp [done])
  | took pc | tookNothing pc | pickedPiber pc | pickedCb pc | recycledCb pc | pickedIdle pc
  | leave pc | entered pc | enteredRoot pc | marked pc | switched pc | threadLost pc
  | idleEnded pc | idleYielded pc | yielded pc | finished pc | termMarked pc | readyMarked pc
  | switchedOut pc | settledPiber pc | settledCb pc | settledIdle pc =>
    exact entered.same_worker rfl (by simp [pc]) (by simp)

/-- A total of zeros and ones is the size of the set that counts. -/
private theorem total_eq_card {within : WorkerPc → Bool} {count : ℤ} {members : Finset ThreadId}
    (entered : Entered s members) (never : within .outside = false)
    (counted : Totals (fun w => if within (s.workers w).pc then 1 else 0) count) :
    count = (members.filter fun w => within (s.workers w).pc).card := by
  have outside : ∀ w ∉ members, (if within (s.workers w).pc then (1 : ℤ) else 0) = 0 := by
    intro w out
    have pc : (s.workers w).pc = .outside := by
      by_contra inside
      exact out ((entered w).mpr inside)
    simp [pc, never]
  rw [counted.eq_sum outside, Finset.sum_boole]

/-- What the counters say about the threads `members`. -/
structure CountersExact (s : Scheduler) (members : Finset ThreadId) : Prop where
  entered : Entered s members
  active : s.activeThreadCount = (members.filter fun w => (s.workers w).pc.busy).card
  idle : s.idleThreadCount = (members.filter fun w => (s.workers w).pc.resting).card

/-- A thread that counts has not left `run`. -/
private theorem counts_inside {pc : WorkerPc} (counts : pc.busy = true ∨ pc.resting = true) :
    pc ≠ .left := by
  rintro rfl
  simp [WorkerPc.busy, WorkerPc.resting] at counts

theorem CountersExact.sum_le {members : Finset ThreadId} (exact : CountersExact s members) :
    s.activeThreadCount + s.idleThreadCount ≤
      (members.filter fun w => (s.workers w).pc ≠ .left).card := by
  have apart : Disjoint (members.filter fun w => (s.workers w).pc.busy)
      (members.filter fun w => (s.workers w).pc.resting) := by
    rw [Finset.disjoint_filter]
    intro w _ busy
    simp [WorkerPc.not_resting_of_busy busy]
  have both := Finset.card_union_of_disjoint apart
  have within : (members.filter (fun w => (s.workers w).pc.busy) ∪
      members.filter fun w => (s.workers w).pc.resting) ⊆
      members.filter fun w => (s.workers w).pc ≠ .left := by
    intro w counts
    rw [← Finset.filter_or, Finset.mem_filter] at counts
    exact Finset.mem_filter.mpr ⟨counts.1, counts_inside counts.2⟩
  have bound := Finset.card_le_card within
  rw [exact.active, exact.idle]
  omega

theorem CountersExact.hasIdleThreads_iff {members : Finset ThreadId}
    (exact : CountersExact s members) :
    s.hasIdleThreads = true ↔ ∃ w, (s.workers w).pc.resting = true := by
  have inside : ∀ w, (s.workers w).pc.resting = true → w ∈ members := by
    intro w resting
    rw [exact.entered w]
    intro out
    simp [out, WorkerPc.resting] at resting
  have positive : s.hasIdleThreads = true ↔
      (members.filter fun w => (s.workers w).pc.resting).Nonempty := by
    rw [← Finset.card_pos, hasIdleThreads, exact.idle, decide_eq_true_eq]
    omega
  rw [positive]
  constructor
  · rintro ⟨w, member⟩
    exact ⟨w, (Finset.mem_filter.mp member).2⟩
  · rintro ⟨w, resting⟩
    exact ⟨w, Finset.mem_filter.mpr ⟨inside w resting, resting⟩⟩

/-- **The counters are exact.** In every reachable state, over any interleaving,
the two counters are the numbers of the threads that run a task and of those
that run their idle fiber; together they never exceed the threads that have entered
`run` and not left it, none is ever below zero, and `hasIdleThreads` is true
just when a thread idles. -/
theorem counters_are_exact (threads : UInt64) (use_caller : Bool) (caller : ThreadId)
    (reached : Runs.Reachable step (initial threads use_caller caller) s) :
    ∃ members, CountersExact s members ∧
      s.activeThreadCount + s.idleThreadCount ≤
        (members.filter fun w => (s.workers w).pc ≠ .left).card ∧
      (s.hasIdleThreads = true ↔ ∃ w, (s.workers w).pc.resting = true) := by
  have kept : Settled s ∧ Rested s ∧ ∃ members, Entered s members := by
    refine reached.invariant (fun s => Settled s ∧ Rested s ∧ ∃ members, Entered s members)
      ⟨settled_initial threads use_caller caller, rested_initial threads use_caller caller,
        ∅, fun w => by simp [outside_initial]⟩ ?_
    rintro u a v ⟨settled, rested, members, entered⟩ _ stepped
    exact ⟨settled_step settled stepped, rested_move settled.owned rested (move_of_step stepped),
      entered_move entered (move_of_step stepped)⟩
  obtain ⟨settled, rested, members, entered⟩ := kept
  have exact : CountersExact s members :=
    ⟨entered, total_eq_card entered rfl settled.counted, total_eq_card entered rfl rested⟩
  exact ⟨members, exact, exact.sum_le, exact.hasIdleThreads_iff⟩

/-- One thread has a task in hand and the other rests. -/
def oneEach : List Action :=
  [.start [1, 2], .schedule none (.cb (some 7)) (-1), .worker 1, .worker 1, .worker 2,
    .worker 2, .worker 2]

theorem one_each_is_counted :
    ∃ s, Runs.run step (initial 2 false 0) oneEach = some s ∧
      s.activeThreadCount = 1 ∧ s.idleThreadCount = 1 ∧
      ∃ w, (s.workers w).pc.resting = true := by
  have ran : ∃ s, Runs.run step (initial 2 false 0) oneEach = some s ∧
      s.activeThreadCount = 1 ∧ s.idleThreadCount = 1 := ⟨_, rfl, rfl, rfl⟩
  obtain ⟨s, replay, active, idle⟩ := ran
  obtain ⟨_, _, _, truthful⟩ :=
    counters_are_exact 2 false 0 (Runs.reachable_of_run oneEach replay)
  exact ⟨s, replay, active, idle, truthful.mp (by simp [hasIdleThreads, idle])⟩

end Scheduler
end Synergy
