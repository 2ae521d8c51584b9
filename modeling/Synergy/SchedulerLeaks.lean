import Synergy.SchedulerHandles

/-! Where fibers stay behind. `MainFunc` keeps a pointer to its own fiber, so one
that has given up its thread and is pointed to by nobody else is never destroyed,
and never resumed again. The fibers that the scheduler makes for itself do not
end so: the idle fiber of a thread is destroyed when the thread leaves `run`. -/
namespace Synergy.Lives
open SharedPtr

variable {k l : Lives} {w : ThreadId} {p : PiberId} {f : PiberPtr → Option PiberId}

/-- Somebody else than the fiber itself points to it. -/
def Elsewhere (k : Lives) (p : PiberId) : Prop := ∃ z, z ≠ .cur p ∧ k.ptrs.points z = some p

/-- Pointers come from constructors and from other pointers, and the `cur` of a
fiber is written only where somebody else points to the fiber. -/
structure Spreads (k : Lives) (points : PiberPtr → Option PiberId) : Prop where
  source : ∀ y p, points y = some p →
    k.ptrs.points y = some p ∨ k.sched.created ≤ p ∨ k.Elsewhere p
  cur : ∀ p, points (.cur p) = k.ptrs.points (.cur p) ∨ k.Elsewhere p

theorem spreads_refl (k : Lives) : Spreads k k.ptrs.points :=
  ⟨fun _ _ => .inl, fun _ => .inl rfl⟩

theorem Spreads.update (spreads : Spreads k f) (z : PiberPtr) (now : Option PiberId)
    (source : ∀ p, now = some p → k.sched.created ≤ p ∨ k.Elsewhere p)
    (own : ∀ q, z = .cur q → k.Elsewhere q) : Spreads k (Function.update f z now) where
  source y p found := by
    by_cases same : y = z
    · subst y
      rw [Function.update_self] at found
      exact .inr (source p found)
    · rw [Function.update_of_ne same] at found
      exact spreads.source y p found
  cur p := by
    by_cases same : PiberPtr.cur p = z
    · exact .inr (own p same.symm)
    · rw [Function.update_of_ne same]
      exact spreads.cur p

theorem Spreads.reset (spreads : Spreads k f) {z : PiberPtr} (own : ∀ q, z ≠ .cur q) :
    Spreads k (Function.update f z none) :=
  spreads.update z none (by simp) fun q same => absurd same (own q)

/-- `cur` is set or dropped while somebody else points to the fiber. -/
theorem Spreads.frame (spreads : Spreads k f) (held : k.Elsewhere p) {now : Option PiberId}
    (own : ∀ q, now = some q → q = p) : Spreads k (Function.update f (.cur p) now) := by
  refine spreads.update _ _ (fun q same => ?_) fun q same => ?_
  · rw [own q same]
    exact .inr held
  · cases same
    exact held

theorem Keeps.elsewhere (keeps : Keeps k) (held : (k.sched.workers w).pc.claims = some p) :
    k.Elsewhere p := by
  rcases keeps.holds.in_hand held with found | found | found
  · exact ⟨_, by simp, found⟩
  · exact ⟨_, by simp, found⟩
  · exact ⟨_, by simp, found⟩

theorem spreads_worker (keeps : Keeps k) (w : ThreadId) : Spreads k (k.workerPtrs w).points := by
  have refl := spreads_refl k
  cases pc : (k.sched.workers w).pc with
  | entering =>
    by_cases apart : (w : ℤ) ≠ k.sched.rootThread
    · simp only [workerPtrs, pc, apart, ne_eq, not_false_eq_true, if_true, Heap.make_points]
      refine (refl.update _ _ (fun p same => ?_) (by simp)).update _ _ (fun p same => ?_) (by simp)
      · cases same
        exact .inl (Nat.le_refl _)
      · cases same
        exact .inl (Nat.le_succ _)
    · simp only [workerPtrs, pc, apart, if_false, Heap.make_points]
      refine refl.update _ _ (fun p same => ?_) (by simp)
      cases same
      exact .inl (Nat.le_refl _)
  | scanning =>
    simp only [workerPtrs, pc]
    split
    · rw [Heap.reset_points]
      exact refl.reset (by simp)
    · simp only [Heap.reset_points, Heap.copy_points]
      refine Spreads.reset (Spreads.update (refl.reset (by simp)) _ _ (fun p same => ?_) (by simp))
        (by simp)
      rw [Function.update_of_ne (by simp)] at same
      exact .inr ⟨_, by simp, same⟩
  | picked task =>
    simp only [workerPtrs, pc]
    split
    · exact refl
    · split
      · rw [Heap.reset_points]
        exact refl.reset (by simp)
      · simp only [Heap.reset_points, Heap.make_points]
        refine Spreads.reset (refl.update _ _ (fun p same => ?_) (by simp)) (by simp)
        cases same
        exact .inl (Nat.le_refl _)
    · split
      · unfold Lives.leave
        simp only
        have locals := ((refl.reset (z := .task w) (by simp)).reset (z := .cb_piber w)
          (by simp)).reset (z := .idle_piber w) (by simp)
        split
        · simp only [Heap.reset_points]
          exact locals.reset (by simp)
        · simp only [Heap.reset_points]
          exact locals
      · exact refl
  | switching branch q =>
    have held := keeps.elsewhere (w := w) (p := q) (by simp [pc, WorkerPc.claims])
    have owns := keeps.owned.workers w
    simp only [Scheduler.Owns, pc] at owns
    simp only [workerPtrs, pc]
    split
    · rw [Heap.construct_points, owns.2.2]
      exact refl.frame held (by simp)
    · exact refl
  | ending branch q =>
    have held := keeps.elsewhere (w := w) (p := q) (by simp [pc, WorkerPc.claims])
    simp only [workerPtrs, pc, Heap.reset_points]
    exact refl.frame held (by simp)
  | resumed branch =>
    cases branch with
    | piber =>
      simp only [workerPtrs, pc, Heap.reset_points]
      exact refl.reset (by simp)
    | cb =>
      simp only [workerPtrs, pc, Heap.reset_points]
      exact refl.reset (by simp)
    | idle => simpa only [workerPtrs, pc] using refl
  | _ => simpa only [workerPtrs, pc] using refl

theorem spreads_owner (keeps : Keeps k) : Spreads k k.ownerPtrs.points := by
  have refl := spreads_refl k
  have held : ∀ r, k.sched.rootPiber = some r → k.Elsewhere r := fun r root =>
    ⟨_, by simp, keeps.holds.root.trans root⟩
  unfold ownerPtrs
  split
  · rename_i r _ root
    split
    · rw [Heap.construct_points]
      exact refl.frame (held r root) (by simp)
    · exact refl
  · rename_i r _ root
    rw [Heap.reset_points]
    exact refl.frame (held r root) (by simp)
  · exact refl

theorem spreads_step {a : Action} (keeps : Keeps k) (stepped : step k a = some l) :
    Spreads k l.ptrs.points := by
  have refl := spreads_refl k
  cases a with
  | create i =>
    cases stepped
    rw [Heap.make_points]
    refine refl.update _ _ (fun p same => ?_) (by simp)
    cases same
    exact .inl (Nat.le_refl _)
  | copy i j =>
    cases stepped
    rw [Heap.copy_points]
    exact refl.update _ _ (fun p same => .inr ⟨_, by simp, same⟩) (by simp)
  | getThis w i =>
    simp only [step] at stepped
    split at stepped <;> cases stepped
    rw [Heap.assign_points]
    refine refl.update _ _ (fun p same => ?_) (by simp)
    cases same
    exact .inr (keeps.elsewhere (keeps.current ‹_›).1)
  | drop i =>
    cases stepped
    rw [Heap.reset_points]
    exact refl.reset (by simp)
  | schedule worker fc thread =>
    obtain ⟨t, _, same⟩ := Option.map_eq_some_iff.mp stepped
    subst same
    split
    · cases fc with
      | user i =>
        rw [Argument.push, Heap.copy_points]
        exact refl.update _ _ (fun p same => .inr ⟨_, by simp, same⟩) (by simp)
      | cb f =>
        rw [Argument.push, Heap.reset_points]
        exact refl.reset (by simp)
    · exact refl
  | owner =>
    obtain ⟨t, _, same⟩ := Option.map_eq_some_iff.mp stepped
    subst same
    exact spreads_owner keeps
  | worker w =>
    obtain ⟨t, _, same⟩ := Option.map_eq_some_iff.mp stepped
    subst same
    exact spreads_worker keeps w
  | start ids | stop | yield w | finish w =>
    obtain ⟨t, _, same⟩ := Option.map_eq_some_iff.mp stepped
    subst same
    exact refl

/-- The fiber was entered, has not ended, and its own `cur` is all that its
control block counts. -/
structure Abandoned (k : Lives) (p : PiberId) : Prop where
  cur : k.ptrs.points (.cur p) = some p
  count : k.ptrs.use_count p = 1

theorem Abandoned.alone (abandoned : k.Abandoned p) (keeps : Keeps k) : ¬ k.Elsewhere p :=
  fun ⟨z, other, found⟩ =>
    other ((keeps.lawful.use_count_eq_one abandoned.cur).mp abandoned.count z found)

theorem abandoned_step {a : Action} (keeps : Keeps k) (after : Keeps l)
    (abandoned : k.Abandoned p) (stepped : step k a = some l) : l.Abandoned p := by
  have spreads := spreads_step keeps stepped
  have alone := abandoned.alone keeps
  have cur : l.ptrs.points (.cur p) = some p := by
    rcases spreads.cur p with same | held
    · exact same.trans abandoned.cur
    · exact absurd held alone
  refine ⟨cur, (after.lawful.use_count_eq_one cur).mpr fun z found => ?_⟩
  rcases spreads.source z p found with old | new | held
  · by_contra other
    exact alone ⟨z, other, old⟩
  · exact absurd (keeps.holds.fits _ _ abandoned.cur).1 (Nat.not_lt.mpr new)
  · exact absurd held alone

/-- A fiber that gave up its thread while nobody else pointed to it stays alive
for good, and no thread comes back to it, while the scans stay apart. -/
theorem abandoned_fiber_leaks (threads : UInt64) (use_caller : Bool) (caller : ThreadId)
    (reached : Runs.Reaches step ScansApart (initial threads use_caller caller) k)
    (abandoned : k.Abandoned p) (later : Runs.Reaches step ScansApart k l) :
    l.ptrs.alive p = true ∧ (∀ w, (l.sched.workers w).pc.claims ≠ some p) ∧
      ∀ it ∈ l.sched.tasks, it.task.piber ≠ some p := by
  have start := keeps_run (keeps_initial threads use_caller caller) reached
  have both : Keeps l ∧ l.Abandoned p :=
    later.invariant (fun m => Keeps m ∧ m.Abandoned p) ⟨start, abandoned⟩
      fun _ _ _ ⟨keeps, abandoned⟩ apart stepped =>
        have after := keeps_step keeps apart stepped
        ⟨after, abandoned_step keeps after abandoned stepped⟩
  obtain ⟨keeps, abandoned⟩ := both
  have alone := abandoned.alone keeps
  exact ⟨keeps.alive abandoned.cur, fun w held => alone (keeps.elsewhere held),
    fun it member piber => alone ⟨_, by simp, (keeps.holds.queued it member).trans piber⟩⟩

/-- A fiber yields without a word to anybody, and its thread goes on. -/
def yieldsAlone : List Action := droppedEarly ++ [.yield 1] ++ List.replicate 3 (.worker 1)

theorem yields_alone_leaks :
    ∃ k, Runs.run step (initial 1 false 0) yieldsAlone = some k ∧ k.Abandoned 0 ∧
      ∀ l, Runs.Reaches step ScansApart k l → l.ptrs.alive 0 = true := by
  have ran : ∃ k, Runs.run step (initial 1 false 0) yieldsAlone = some k ∧ k.Abandoned 0 :=
    ⟨_, rfl, by decide +kernel, by decide +kernel⟩
  have apart : Runs.AllSteps step (ScansApartAmong [1]) (initial 1 false 0) yieldsAlone := by
    decide +kernel
  obtain ⟨k, replay, abandoned⟩ := ran
  exact ⟨k, replay, abandoned, fun l later => (abandoned_fiber_leaks 1 false 0
    (among_scans_apart (Runs.reaches_of_run yieldsAlone replay apart)) abandoned later).1⟩

/-- What a move means for one thread, as far as its idle fiber goes. -/
inductive Turn (s t : Scheduler) (v : ThreadId) : Prop where
  | still (pc : (t.workers v).pc = (s.workers v).pc)
      (idle : (t.workers v).idle_piber = (s.workers v).idle_piber)
  | called (pc : (t.workers v).pc = .entering)
  | entered (pc : (t.workers v).pc = .scanning)
      (fresh : (t.pibers (t.workers v).idle_piber).state ≠ .TERM)
  | ran (was : (s.workers v).pc.running = true)
      (idle : (t.workers v).idle_piber = (s.workers v).idle_piber)
      (left : (t.workers v).pc = .left → (s.pibers (s.workers v).idle_piber).state = .TERM)
      (resumed : ∀ branch p, (t.workers v).pc = .switching branch p →
        (t.pibers p).state ≠ .TERM) : Turn s t v

variable {s t : Scheduler}

private theorem turn_of_update {x : Worker} (v : ThreadId)
    (workers : t.workers = Function.update s.workers w x)
    (here : t.workers w = x → Turn s t w) : Turn s t v := by
  by_cases same : v = w
  · subst v
    exact here (by rw [workers, Function.update_self])
  · have other : t.workers v = s.workers v := by rw [workers, Function.update_of_ne same]
    exact .still (by rw [other]) (by rw [other])

private theorem turn_of_ran {x : Worker} (v : ThreadId)
    (workers : t.workers = Function.update s.workers w x)
    (was : (s.workers w).pc.running = true) (idle : x.idle_piber = (s.workers w).idle_piber)
    (left : x.pc ≠ .left) (resumed : ∀ branch p, x.pc ≠ .switching branch p) : Turn s t v :=
  turn_of_update v workers fun here => .ran was (by rw [here, idle])
    (fun gone => absurd (here ▸ gone) left) fun branch p pc => absurd (here ▸ pc) (resumed branch p)

theorem turn_move {a : Scheduler.Action} (moved : Scheduler.Move s a t) (v : ThreadId) :
    Turn s t v := by
  cases moved with
  | newPiber | scheduled | ignored | startRefused | stopRefused | stopCalled | stopMarked
  | rootLost | collected | joined | returned => exact .still rfl rfl
  | started =>
    rename_i ids _ _ _ _
    by_cases member : v ∈ ids
    · exact .called (by simp [member])
    · exact .still (by simp [member]) (by simp [member])
  | rootResumed => exact turn_of_update v rfl fun here => .called (by rw [here])
  | rootReturned =>
    exact turn_of_update v rfl fun here => .still (by rw [here]) (by rw [here])
  | entered =>
    exact turn_of_update v rfl fun here => .entered (by rw [here]) (by simp [Piber.create])
  | enteredRoot =>
    exact turn_of_update v rfl fun here => .entered (by rw [here]) (by simp [Piber.create])
  | leave pc piber cb ended =>
    exact turn_of_update v rfl fun here => .ran (by simp [pc, WorkerPc.running]) (by rw [here])
      (fun _ => ended) (by simp)
  | marked pc =>
    refine turn_of_update v rfl fun here => .ran (by simp [pc, WorkerPc.running]) (by rw [here])
      (by simp) fun branch p same => ?_
    simp only [here, WorkerPc.switching.injEq] at same
    simp [← same.2, Piber.markRuning]
  | took pc | tookNothing pc | pickedPiber pc | pickedCb pc | recycledCb pc | pickedIdle pc
  | switched pc | threadLost pc | idleEnded pc | idleYielded pc | yielded pc | finished pc
  | termMarked pc | readyMarked pc | switchedOut pc | settledPiber pc | settledCb pc
  | settledIdle pc =>
    exact turn_of_ran v rfl (by simp [pc, WorkerPc.running]) rfl (by simp) (by simp)

theorem turn_step {a : Action} (stepped : step k a = some l) (v : ThreadId) :
    Turn k.sched l.sched v := by
  rcases sched_step stepped with ⟨-, same⟩ | ⟨b, -, moved⟩
  · exact .still (by rw [same]) (by rw [same])
  · exact turn_move (Scheduler.move_of_step moved) v

theorem term_step {a : Action} (stepped : step k a = some l)
    (term : (l.sched.pibers p).state = .TERM) :
    (k.sched.pibers p).state = .TERM ∨ k.sched.rootPiber = some p ∨
      ∃ w branch, a = .worker w ∧ (k.sched.workers w).pc = .ending branch p := by
  rcases sched_step stepped with ⟨-, same⟩ | ⟨b, seen, moved⟩
  · exact .inl (same ▸ term)
  · rcases Scheduler.term_move (Scheduler.move_of_step moved) term with before | ⟨_, root, _⟩ |
      ⟨w, branch, same, pc⟩
    · exact .inl before
    · exact .inr (.inl root)
    · exact .inr (.inr ⟨w, branch, seen_worker (same ▸ seen), pc⟩)

/-- An idle fiber is past `cur.reset()` when it is `TERM`, and its thread leaves
only then. -/
structure Idles (k : Lives) : Prop where
  resumed : ∀ v p, (k.sched.workers v).pc = .switching .idle p → (k.sched.pibers p).state ≠ .TERM
  cleared : ∀ v, (k.sched.workers v).pc.running = true →
    (k.sched.pibers (k.sched.workers v).idle_piber).state = .TERM →
    k.ptrs.points (.cur (k.sched.workers v).idle_piber) = none
  gone : ∀ v, (k.sched.workers v).pc = .left →
    k.ptrs.points (.cur (k.sched.workers v).idle_piber) = none

/-- Only its own thread is ever at the idle fiber, and in the idle branch. -/
theorem Keeps.idle_branch (keeps : Keeps k) {v : ThreadId} {branch : Branch}
    (running : (k.sched.workers v).pc.running = true)
    (here : (k.sched.workers w).pc = .switching branch (k.sched.workers v).idle_piber ∨
      (k.sched.workers w).pc = .ending branch (k.sched.workers v).idle_piber) :
    w = v ∧ branch = .idle := by
  obtain ⟨_, role⟩ := (keeps.owned.workers v).ownIdle running
  have owns := keeps.owned.workers w
  have hand : k.sched.OwnIdle w (k.sched.workers w) ∧
      k.sched.InHand (k.sched.workers w) branch (k.sched.workers v).idle_piber := by
    rcases here with pc | pc <;> simp only [Scheduler.Owns, pc] at owns
    · exact ⟨owns.1, owns.2.1⟩
    · exact owns
  obtain ⟨⟨_, own⟩, _, idle, task⟩ := hand
  by_cases same : branch = .idle
  · rw [← idle same, role] at own
    cases own
    exact ⟨rfl, same⟩
  · rw [(task same).2] at role
    cases role

theorem Keeps.idle_not_root (keeps : Keeps k) {v : ThreadId}
    (running : (k.sched.workers v).pc.running = true) :
    k.sched.rootPiber ≠ some (k.sched.workers v).idle_piber := by
  intro root
  have role := (keeps.owned.root _ root).2
  rw [((keeps.owned.workers v).ownIdle running).2] at role
  cases role

theorem idles_step {a : Action} (keeps : Keeps k) (after : Keeps l) (idles : Idles k)
    (stepped : step k a = some l) : Idles l := by
  -- what was cleared stays so, as only its own thread could enter the idle fiber again
  have stays : ∀ v, (k.sched.workers v).pc.running = true →
      (∀ p, (k.sched.workers v).pc = .switching .idle p → p ≠ (k.sched.workers v).idle_piber) →
      k.ptrs.points (.cur (k.sched.workers v).idle_piber) = none →
      l.ptrs.points (.cur (k.sched.workers v).idle_piber) = none := by
    intro v running out empty
    refine after.holds.cur_none fun found => ?_
    rcases cur_step stepped found with ⟨w, branch, -, pc, -⟩ | ⟨-, -, root, -⟩ | ⟨kept, -⟩
    · obtain ⟨rfl, rfl⟩ := keeps.idle_branch running (.inl pc)
      exact out _ pc rfl
    · exact keeps.idle_not_root running root
    · rw [empty] at kept
      cases kept
  have cleared : ∀ v, (k.sched.workers v).pc.running = true →
      (l.sched.pibers (k.sched.workers v).idle_piber).state = .TERM →
      l.ptrs.points (.cur (k.sched.workers v).idle_piber) = none := by
    intro v running term
    rcases term_step stepped term with before | root | ⟨w, branch, same, pc⟩
    · exact stays v running (fun p pc same => idles.resumed v p pc (same ▸ before))
        (idles.cleared v running before)
    · exact absurd root (keeps.idle_not_root running)
    · refine after.holds.cur_none fun found => ?_
      rcases cur_step stepped found with ⟨u, other, -, switching, -⟩ | ⟨-, -, root, -⟩ |
        ⟨-, out, -⟩
      · obtain ⟨rfl, rfl⟩ := keeps.idle_branch running (.inl switching)
        obtain ⟨rfl, rfl⟩ := keeps.idle_branch running (.inr pc)
        rw [switching] at pc
        cases pc
      · exact keeps.idle_not_root running root
      · exact out w branch same pc
  constructor
  · intro v p pc term
    cases turn_step stepped v with
    | still same idle =>
      rw [same] at pc
      have running : (k.sched.workers v).pc.running = true := by simp [pc, WorkerPc.running]
      have owns := keeps.owned.workers v
      simp only [Scheduler.Owns, pc] at owns
      have own : p = (k.sched.workers v).idle_piber := owns.2.1.2.1 rfl
      rcases term_step stepped term with before | root | ⟨w, branch, _, ending⟩
      · exact idles.resumed v p pc before
      · exact keeps.idle_not_root running (own ▸ root)
      · obtain ⟨rfl, _⟩ := keeps.idle_branch running (.inr (own ▸ ending))
        rw [pc] at ending
        cases ending
    | called other | entered other =>
      rw [other] at pc
      cases pc
    | ran was idle left resumed => exact resumed _ p pc term
  · intro v running term
    cases turn_step stepped v with
    | still same idle =>
      rw [idle] at term ⊢
      exact cleared v (same ▸ running) term
    | called other => simp [other, WorkerPc.running] at running
    | entered other fresh => exact absurd term fresh
    | ran was idle left resumed =>
      rw [idle] at term ⊢
      exact cleared v was term
  · intro v pc
    cases turn_step stepped v with
    | still same idle =>
      rw [idle]
      rw [same] at pc
      exact stays v (by simp [pc, WorkerPc.running]) (by simp [pc]) (idles.gone v pc)
    | called other | entered other =>
      rw [other] at pc
      cases pc
    | ran was idle left resumed =>
      rw [idle]
      have term := left pc
      exact stays v was (fun p switching same => idles.resumed v p switching (same ▸ term))
        (idles.cleared v was term)

theorem idles_initial (threads : UInt64) (use_caller : Bool) (caller : ThreadId) :
    Idles (initial threads use_caller caller) := by
  have workers := Scheduler.workers_initial threads use_caller caller
  constructor <;> simp [initial, workers, WorkerPc.running]

theorem idles_run (threads : UInt64) (use_caller : Bool) (caller : ThreadId)
    (reached : Runs.Reaches step ScansApart (initial threads use_caller caller) k) :
    Keeps k ∧ Idles k :=
  reached.invariant (fun k => Keeps k ∧ Idles k)
    ⟨keeps_initial threads use_caller caller, idles_initial threads use_caller caller⟩
    fun _ _ _ ⟨keeps, idles⟩ apart stepped =>
      have after := keeps_step keeps apart stepped
      ⟨after, idles_step keeps after idles stepped⟩

/-- What is left of a thread that has left `run`: nothing points to its idle
fiber, which is destroyed. -/
theorem Keeps.idle_destroyed (keeps : Keeps k) (idles : Idles k)
    (pc : (k.sched.workers w).pc = .left) :
    k.ptrs.alive (k.sched.workers w).idle_piber = false := by
  by_contra live
  obtain ⟨y, found⟩ := (keeps.lawful.alive_iff _).mp (by simpa using live)
  have role := ((keeps.owned.workers w).ownIdle (by simp [pc, WorkerPc.running])).2
  have fits := (keeps.holds.fits y _ found).2
  have locals := keeps.holds.locals w
  simp only [Locals, pc] at locals
  cases y <;> simp only [Fits, role, reduceCtorEq, Role.idle.injEq] at fits
  case idle_piber v =>
    subst v
    rw [locals.2.2] at found
    cases found
  case cur q =>
    rw [← fits, idles.gone w pc] at found
    cases found

/-- **The scheduler leaves no fiber of its own behind.** In every run whose scans
stay apart the idle fiber of a thread that has left `run` is destroyed. And when
all threads have, with nothing queued, whatever fiber is still alive is one that
the user points to, one that gave up its thread and was never resumed, the root,
or the main fiber of the caller. -/
theorem run_leaves_no_fiber (threads : UInt64) (use_caller : Bool) (caller : ThreadId)
    (reached : Runs.Reaches step ScansApart (initial threads use_caller caller) k) :
    (∀ w, (k.sched.workers w).pc = .left →
      k.ptrs.alive (k.sched.workers w).idle_piber = false) ∧
    ((∀ w, (k.sched.workers w).pc = .outside ∨ (k.sched.workers w).pc = .left) →
      k.sched.tasks = [] → ∀ p, k.ptrs.alive p = true →
      (∃ i, k.ptrs.points (.user i) = some p) ∨ k.ptrs.points (.cur p) = some p ∨
        k.sched.rootPiber = some p ∨ k.ptrs.points (.t_thread_piber k.sched.caller) = some p) := by
  obtain ⟨keeps, idles⟩ := idles_run threads use_caller caller reached
  refine ⟨fun w pc => keeps.idle_destroyed idles pc, fun quiet empty p live => ?_⟩
  obtain ⟨y, found⟩ := (keeps.lawful.alive_iff p).mp live
  have locals : ∀ w, k.ptrs.points (.task w) = none ∧ k.ptrs.points (.cb_piber w) = none ∧
      k.ptrs.points (.idle_piber w) = none := by
    intro w
    have locals := keeps.holds.locals w
    rcases quiet w with pc | pc <;> simpa only [Locals, pc] using locals
  cases y with
  | t_thread_piber w =>
    by_cases root : (w : ℤ) = k.sched.rootThread
    · refine .inr (.inr (.inr ?_))
      rcases keeps.holds.mode with ⟨absent, _⟩ | mode
      · omega
      · rwa [← Int.ofNat_inj.mp (root.trans mode)]
    · have main := keeps.holds.main w
      rcases quiet w with pc | pc <;> simp only [Main, root, pc, if_false] at main <;>
        rw [main] at found <;> cases found
  | m_rootPiber => exact .inr (.inr (.inl (keeps.holds.root.symm.trans found)))
  | task w =>
    rw [(locals w).1] at found
    cases found
  | cb_piber w =>
    rw [(locals w).2.1] at found
    cases found
  | idle_piber w =>
    rw [(locals w).2.2] at found
    cases found
  | node n =>
    obtain ⟨it, member, _⟩ := keeps.holds.nodes n p found
    rw [empty] at member
    cases member
  | cur q =>
    have same : p = q := (keeps.holds.fits _ _ found).2
    exact .inr (.inl (same ▸ found))
  | user i => exact .inl ⟨i, found⟩

/-- One thread runs one callback and leaves. -/
def callbackAndLeave : List Action :=
  [.start [1], .schedule none (.cb (some 7)) (-1), .worker 1, .stop, .owner] ++
    List.replicate 4 (.worker 1) ++ [.finish 1] ++ List.replicate 15 (.worker 1)

theorem callback_and_leave_leaves_none :
    ∃ k, Runs.run step (initial 1 false 0) callbackAndLeave = some k ∧
      (k.sched.workers 1).pc = .left ∧ k.ptrs.alive (k.sched.workers 1).idle_piber = false ∧
      k.sched.created = 3 ∧ k.TotalFibers = 0 := by
  have ran : ∃ k, Runs.run step (initial 1 false 0) callbackAndLeave = some k ∧
      (k.sched.workers 1).pc = .left ∧ k.sched.created = 3 ∧ k.TotalFibers = 0 :=
    ⟨_, rfl, by decide +kernel, by decide +kernel, by decide +kernel⟩
  have apart : Runs.AllSteps step (ScansApartAmong [1]) (initial 1 false 0) callbackAndLeave := by
    decide +kernel
  obtain ⟨k, replay, left, made, total⟩ := ran
  exact ⟨k, replay, left, (run_leaves_no_fiber 1 false 0
    (among_scans_apart (Runs.reaches_of_run callbackAndLeave replay apart))).1 1 left, made, total⟩

end Synergy.Lives
