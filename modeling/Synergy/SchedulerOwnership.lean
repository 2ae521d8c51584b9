import Synergy.SchedulerMoves

/-! Which fiber may be where. The queue and the task branches hold fibers made
for tasks, the idle branch holds the idle fiber of its own thread, and no one
but the owner holds the root. Roles are fixed at construction, so these facts
survive whatever the fibers do, double execution included. -/
namespace Synergy

/-- The fiber that the thread has taken and not yet given back. -/
def WorkerPc.claims : WorkerPc → Option PiberId
  | .picked task => task.piber
  | .resuming _ p | .switching _ p | .inside _ p | .ending _ p | .parting _ p _
  | .yielding _ p _ => some p
  | _ => none

/-- Past the prologue of `run`. -/
def WorkerPc.running : WorkerPc → Bool
  | .outside | .entering => false
  | _ => true

namespace Scheduler

/-- A fiber that was made for a task. -/
def IsTask (s : Scheduler) (p : PiberId) : Prop := p < s.created ∧ s.roles p = .task

/-- The idle fiber of the thread is its own. -/
def OwnIdle (s : Scheduler) (w : ThreadId) (x : Worker) : Prop :=
  x.idle_piber < s.created ∧ s.roles x.idle_piber = .idle w

/-- The fiber in hand belongs to the branch; only the callback branch has a
callback fiber. -/
def InHand (s : Scheduler) (x : Worker) (branch : Branch) (p : PiberId) : Prop :=
  (branch ≠ .cb → x.cb_piber = none) ∧ (branch = .idle → p = x.idle_piber) ∧
    (branch ≠ .idle → s.IsTask p)

/-- What a thread holds at each place of `run`. -/
def Owns (s : Scheduler) (w : ThreadId) (x : Worker) : Prop :=
  match x.pc with
  | .outside | .entering => x.cb_piber = none
  | .scanning | .left => s.OwnIdle w x ∧ x.cb_piber = none
  | .picked task => s.OwnIdle w x ∧ x.cb_piber = none ∧ ∀ p, task.piber = some p → s.IsTask p
  | .switching branch p | .inside branch p =>
    s.OwnIdle w x ∧ s.InHand x branch p ∧ x.t_piber = p
  | .resuming branch p | .ending branch p | .parting branch p _ | .yielding branch p _ =>
    s.OwnIdle w x ∧ s.InHand x branch p
  | .resumed branch | .lost branch => s.OwnIdle w x ∧ (branch ≠ .cb → x.cb_piber = none)

theorem Owns.ownIdle {s : Scheduler} {w : ThreadId} {x : Worker} (owns : s.Owns w x)
    (running : x.pc.running = true) : s.OwnIdle w x := by
  cases pc : x.pc <;> simp only [Owns, pc] at owns <;> first
    | exact owns.1
    | simp [pc, WorkerPc.running] at running

/-- Fibers are only ever added. -/
structure Grown (s t : Scheduler) : Prop where
  created : s.created ≤ t.created
  roles : ∀ p < s.created, t.roles p = s.roles p

structure Ownership (s : Scheduler) : Prop where
  workers : ∀ w, s.Owns w (s.workers w)
  tasks : ∀ e ∈ s.tasks, e.task.isSet = true ∧ ∀ p, e.task.piber = some p → s.IsTask p
  root : ∀ r, s.rootPiber = some r → r < s.created ∧ s.roles r = .root
  caller : s.owner ≠ .inRoot →
    (s.workers s.caller).pc = .outside ∨ (s.workers s.caller).pc = .left

variable {s t : Scheduler} {w : ThreadId} {x : Worker}

/-- No fiber is made. -/
theorem grown_of_same (created : t.created = s.created) (roles : t.roles = s.roles) :
    Grown s t := ⟨Nat.le_of_eq created.symm, fun p _ => by rw [roles]⟩

theorem grown_newPiber (s : Scheduler) (role : Role) (piber : Piber) :
    Grown s (s.newPiber role piber) where
  created := Nat.le_succ _
  roles p old := by simp [Function.update_of_ne (Nat.ne_of_lt old)]

theorem Grown.trans {u : Scheduler} (first : Grown s t) (second : Grown t u) : Grown s u where
  created := Nat.le_trans first.created second.created
  roles p old :=
    (second.roles p (Nat.lt_of_lt_of_le old first.created)).trans (first.roles p old)

theorem Grown.congr {u : Scheduler} (grown : Grown s t) (created : u.created = t.created)
    (roles : u.roles = t.roles) : Grown s u :=
  grown.trans (grown_of_same created roles)

theorem grown_move {a : Action} (moved : Move s a t) : Grown s t := by
  cases moved with
  | newPiber => exact grown_newPiber s _ _
  | @entered w pc apart =>
    have grown := (grown_newPiber s .main .threadMain).trans
      (grown_newPiber (s.newPiber .main .threadMain) (.idle w) .create)
    exact grown.congr rfl rfl
  | @enteredRoot w pc same => exact (grown_newPiber s (.idle w) .create).congr rfl rfl
  | pickedCb pc piber cb spare => exact (grown_newPiber s .task .create).congr rfl rfl
  | _ => exact grown_of_same rfl rfl

theorem Grown.isTask (grown : Grown s t) {p : PiberId} (made : s.IsTask p) : t.IsTask p :=
  ⟨Nat.lt_of_lt_of_le made.1 grown.created, (grown.roles p made.1).trans made.2⟩

theorem Grown.ownIdle (grown : Grown s t) (own : s.OwnIdle w x) : t.OwnIdle w x :=
  ⟨Nat.lt_of_lt_of_le own.1 grown.created, (grown.roles _ own.1).trans own.2⟩

theorem Grown.inHand (grown : Grown s t) {branch : Branch} {p : PiberId}
    (held : s.InHand x branch p) : t.InHand x branch p :=
  ⟨held.1, held.2.1, fun task => grown.isTask (held.2.2 task)⟩

theorem Grown.owns (grown : Grown s t) (owns : s.Owns w x) : t.Owns w x := by
  cases pc : x.pc <;> simp only [Owns, pc] at owns ⊢
  case outside => exact owns
  case entering => exact owns
  case scanning => exact ⟨grown.ownIdle owns.1, owns.2⟩
  case left => exact ⟨grown.ownIdle owns.1, owns.2⟩
  case picked =>
    exact ⟨grown.ownIdle owns.1, owns.2.1, fun p same => grown.isTask (owns.2.2 p same)⟩
  case switching => exact ⟨grown.ownIdle owns.1, grown.inHand owns.2.1, owns.2.2⟩
  case inside => exact ⟨grown.ownIdle owns.1, grown.inHand owns.2.1, owns.2.2⟩
  case resumed => exact ⟨grown.ownIdle owns.1, owns.2⟩
  case lost => exact ⟨grown.ownIdle owns.1, owns.2⟩
  all_goals exact ⟨grown.ownIdle owns.1, grown.inHand owns.2⟩

/-- A step that changes one thread only. -/
private theorem Ownership.one_worker (owned : Ownership s) (grown : Grown s t)
    (here : t.Owns w x) (workers : t.workers = Function.update s.workers w x)
    (tasks : ∀ e ∈ t.tasks, e ∈ s.tasks) (root : t.rootPiber = s.rootPiber)
    (caller : t.caller = s.caller) (owner : t.owner = s.owner)
    (at_work : (s.workers w).pc ≠ .outside ∧ (s.workers w).pc ≠ .left) : Ownership t where
  workers v := by
    rw [workers]
    by_cases same : v = w
    · subst v
      rw [Function.update_self]
      exact here
    · rw [Function.update_of_ne same]
      exact grown.owns (owned.workers v)
  tasks e member := by
    obtain ⟨set, fibers⟩ := owned.tasks e (tasks e member)
    exact ⟨set, fun p same => grown.isTask (fibers p same)⟩
  root r found := by
    obtain ⟨old, role⟩ := owned.root r (root ▸ found)
    exact ⟨Nat.lt_of_lt_of_le old grown.created, (grown.roles r old).trans role⟩
  caller out := by
    rw [owner] at out
    rw [caller, workers]
    have waiting := owned.caller out
    by_cases same : s.caller = w
    · subst w
      rcases waiting with pc | pc
      · exact absurd pc at_work.1
      · exact absurd pc at_work.2
    · rw [Function.update_of_ne same]
      exact waiting

/-- A step that leaves the threads alone. -/
private theorem Ownership.no_worker (owned : Ownership s) (grown : Grown s t)
    (workers : t.workers = s.workers) (tasks : t.tasks = s.tasks)
    (root : t.rootPiber = s.rootPiber) (caller : t.caller = s.caller)
    (owner : s.owner = .inRoot → t.owner = .inRoot) : Ownership t where
  workers v := by
    rw [workers]
    exact grown.owns (owned.workers v)
  tasks e member := by
    rw [tasks] at member
    obtain ⟨set, fibers⟩ := owned.tasks e member
    exact ⟨set, fun p same => grown.isTask (fibers p same)⟩
  root r found := by
    obtain ⟨old, role⟩ := owned.root r (root ▸ found)
    exact ⟨Nat.lt_of_lt_of_le old grown.created, (grown.roles r old).trans role⟩
  caller out := by
    rw [caller, workers]
    exact owned.caller fun inside => out (owner inside)

/-- The main fiber of the caller has the number that its pointers begin with. -/
theorem workers_initial (threads : UInt64) (use_caller : Bool) (caller w : ThreadId) :
    (initial threads use_caller caller).workers w = {} := by
  unfold initial
  split
  · simp
  · rfl

/-- No thread is inside `run` at the start. -/
theorem outside_initial (threads : UInt64) (use_caller : Bool) (caller w : ThreadId) :
    ((initial threads use_caller caller).workers w).pc = .outside := by
  rw [workers_initial]

theorem owner_initial (threads : UInt64) (use_caller : Bool) (caller : ThreadId) :
    (initial threads use_caller caller).owner = .outside := by
  unfold initial
  split <;> rfl

theorem ownership_initial (threads : UInt64) (use_caller : Bool) (caller : ThreadId) :
    Ownership (initial threads use_caller caller) where
  workers w := by
    simp [Owns, workers_initial]
  tasks := by
    unfold initial
    split <;> simp
  root := by
    unfold initial
    split <;> simp
  caller _ := .inl (outside_initial _ _ _ _)

/-- A step of one thread that makes no fiber and adds no entry: what it owned at
its place gives what it owns behind the step. -/
private theorem Ownership.from_place {place : WorkerPc} (owned : Ownership s) (grown : Grown s t)
    (pc : (s.workers w).pc = place) (at_work : place ≠ .outside ∧ place ≠ .left)
    (workers : t.workers = Function.update s.workers w x) (tasks : ∀ e ∈ t.tasks, e ∈ s.tasks)
    (root : t.rootPiber = s.rootPiber) (caller : t.caller = s.caller) (owner : t.owner = s.owner)
    (carry : s.Owns w { s.workers w with pc := place } → s.Owns w x) : Ownership t := by
  have owns := owned.workers w
  have same : { s.workers w with pc := place } = s.workers w := by rw [← pc]
  rw [← same] at owns
  exact owned.one_worker grown (grown.owns (carry owns)) workers tasks root caller owner
    (by rwa [pc])

theorem ownership_move {a : Action} (owned : Ownership s) (moved : Move s a t) :
    Ownership t := by
  have grown := grown_move moved
  cases moved with
  | newPiber => exact owned.no_worker grown rfl rfl rfl rfl id
  | @scheduled fc thread worker task same caller held set =>
    refine ⟨owned.workers, fun e member => ?_, owned.root, owned.caller⟩
    rcases List.mem_append.mp member with old | new
    · exact owned.tasks e old
    · cases List.mem_singleton.mp new
      refine ⟨set, fun p found => ?_⟩
      subst same
      cases fc with
      | piber q =>
        simp only [ScheduleTask.make] at found
        subst found
        simpa [userPiber, IsTask] using held
      | cb f => cases found
  | ignored => exact owned
  | @started ids open_for quiet count fresh =>
    refine ⟨fun w => ?_, owned.tasks, owned.root, fun out => ?_⟩
    · by_cases member : w ∈ ids
      · simp [member, Owns]
      · simp only [member, if_false]
        exact owned.workers w
    · have apart : s.caller ∉ ids := fun member => (fresh _ member).1 rfl
      simp only [apart, if_false]
      exact owned.caller out
  | startRefused => exact owned
  | stopRefused => exact owned
  | stopCalled quiet live =>
    exact owned.no_worker grown rfl rfl rfl rfl fun inside => by simp [quiet] at inside
  | stopMarked pc =>
    exact owned.no_worker grown rfl rfl rfl rfl fun inside => by simp [pc] at inside
  | @rootResumed r pc root ctx =>
    have waiting := owned.caller (by simp [pc])
    have spare : (s.workers s.caller).cb_piber = none := by
      have owns := owned.workers s.caller
      rcases waiting with same | same <;> simp only [Owns, same] at owns
      · exact owns
      · exact owns.2
    refine ⟨fun w => ?_, owned.tasks, owned.root, by simp⟩
    by_cases same : w = s.caller
    · subst w
      simp [Owns, spare]
    · simp only [Function.update_of_ne same]
      exact owned.workers w
  | rootLost pc root ctx =>
    exact owned.no_worker grown rfl rfl rfl rfl fun inside => by simp [pc] at inside
  | rootReturned pc root done =>
    refine ⟨fun w => ?_, owned.tasks, owned.root, fun _ => .inr (by simp [done])⟩
    by_cases same : w = s.caller
    · subst w
      have owns := owned.workers s.caller
      simp only [Owns, done] at owns
      simp only [Function.update_self, Owns, done]
      exact owns
    · simp only [Function.update_of_ne same]
      exact owned.workers w
  | collected pc =>
    exact owned.no_worker grown rfl rfl rfl rfl fun inside => by simp [pc] at inside
  | joined pc done =>
    exact owned.no_worker grown rfl rfl rfl rfl fun inside => by simp [pc] at inside
  | returned pc =>
    exact owned.no_worker grown rfl rfl rfl rfl fun inside => by simp [pc] at inside
  | @entered w pc apart =>
    refine owned.one_worker grown ?_ rfl (fun _ => id) rfl rfl rfl (by simp [pc])
    simp [Owns, OwnIdle]
  | @enteredRoot w pc same =>
    refine owned.one_worker grown ?_ rfl (fun _ => id) rfl rfl rfl (by simp [pc])
    simp [Owns, OwnIdle]
  | @took w before after pc it split fits first =>
    have fibers := (owned.tasks it (by simp [split])).2
    refine owned.from_place grown pc (by simp) rfl (fun e member => ?_) rfl rfl rfl
      fun ⟨idle, spare⟩ => ⟨idle, spare, fibers⟩
    rw [split]
    rcases List.mem_append.mp member with early | late
    · exact List.mem_append_left _ early
    · exact List.mem_append_right _ (List.mem_cons_of_mem _ late)
  | tookNothing pc =>
    exact owned.from_place grown pc (by simp) rfl (fun _ => id) rfl rfl rfl
      fun ⟨idle, spare⟩ => ⟨idle, spare, by simp⟩
  | @pickedPiber w task p pc piber =>
    exact owned.from_place grown pc (by simp) rfl (fun _ => id) rfl rfl rfl
      fun ⟨idle, spare, fibers⟩ => ⟨idle, fun _ => spare, by simp, fun _ => fibers p piber⟩
  | @pickedCb w task f pc piber cb spare =>
    have owns := owned.workers w
    simp only [Owns, pc] at owns
    refine owned.one_worker grown ?_ rfl (fun _ => id) rfl rfl rfl (by simp [pc])
    exact ⟨grown.ownIdle owns.1, by simp, by simp, fun _ => by simp [IsTask]⟩
  | @recycledCb w task f p pc piber cb spare =>
    have owns := owned.workers w
    simp only [Owns, pc, spare] at owns
    cases owns.2.1
  | pickedIdle pc =>
    exact owned.from_place grown pc (by simp) rfl (fun _ => id) rfl rfl rfl
      fun ⟨idle, spare, _⟩ => ⟨idle, fun _ => spare, fun _ => rfl, by simp⟩
  | leave pc =>
    exact owned.from_place grown pc (by simp) rfl (fun _ => id) rfl rfl rfl
      fun ⟨idle, spare, _⟩ => ⟨idle, spare⟩
  | marked pc =>
    exact owned.from_place grown pc (by simp) rfl (fun _ => id) rfl rfl rfl
      fun ⟨idle, held⟩ => ⟨idle, held, rfl⟩
  | switched pc | termMarked pc | readyMarked pc =>
    exact owned.from_place grown pc (by simp) rfl (fun _ => id) rfl rfl rfl id
  | threadLost pc =>
    exact owned.from_place grown pc (by simp) rfl (fun _ => id) rfl rfl rfl
      fun ⟨idle, ⟨spare, _⟩, _⟩ => ⟨idle, spare⟩
  | idleEnded pc | finished pc =>
    exact owned.from_place grown pc (by simp) rfl (fun _ => id) rfl rfl rfl
      fun ⟨idle, held, _⟩ => ⟨idle, held⟩
  | idleYielded pc | yielded pc =>
    exact owned.from_place grown pc (by simp) rfl (fun _ => id) rfl rfl rfl
      fun ⟨idle, held, current⟩ => ⟨idle, current ▸ held⟩
  | switchedOut pc =>
    exact owned.from_place grown pc (by simp) rfl (fun _ => id) rfl rfl rfl
      fun ⟨idle, spare, _⟩ => ⟨idle, spare⟩
  | settledPiber pc | settledIdle pc =>
    exact owned.from_place grown pc (by simp) rfl (fun _ => id) rfl rfl rfl
      fun ⟨idle, spare⟩ => ⟨idle, spare (by simp)⟩
  | settledCb pc =>
    exact owned.from_place grown pc (by simp) rfl (fun _ => id) rfl rfl rfl
      fun ⟨idle, _⟩ => ⟨idle, rfl⟩

theorem Ownership.claimed (owned : Ownership s) {w : ThreadId} {p : PiberId}
    (held : (s.workers w).pc.claims = some p) :
    p < s.created ∧ (s.roles p = .task ∨ s.roles p = .idle w) := by
  have owns := owned.workers w
  have in_hand : ∀ branch, s.OwnIdle w (s.workers w) → s.InHand (s.workers w) branch p →
      p < s.created ∧ (s.roles p = .task ∨ s.roles p = .idle w) := by
    rintro branch ⟨old, role⟩ ⟨_, idle, task⟩
    by_cases branch_idle : branch = .idle
    · rw [idle branch_idle]
      exact ⟨old, .inr role⟩
    · exact ⟨(task branch_idle).1, .inl (task branch_idle).2⟩
  cases pc : (s.workers w).pc <;> simp only [pc, WorkerPc.claims, reduceCtorEq,
    Option.some.injEq] at held <;> simp only [Owns, pc] at owns
  case picked =>
    have task := owns.2.2 p held
    exact ⟨task.1, .inl task.2⟩
  case switching => exact in_hand _ owns.1 (held ▸ owns.2.1)
  case inside => exact in_hand _ owns.1 (held ▸ owns.2.1)
  all_goals exact in_hand _ owns.1 (held ▸ owns.2)

theorem Ownership.root_unheld (owned : Ownership s) {r : PiberId} (root : s.rootPiber = some r)
    (v : ThreadId) : (s.workers v).pc.claims ≠ some r := by
  intro held
  have role := (owned.root r root).2
  rcases (owned.claimed held).2 with other | other <;> rw [role] at other <;> cases other

/-- Nobody holds the idle fiber of a thread that does not hold it itself. -/
theorem Ownership.idle_unheld (owned : Ownership s) {w : ThreadId}
    (running : (s.workers w).pc.running = true) (free : (s.workers w).pc.claims = none)
    (v : ThreadId) : (s.workers v).pc.claims ≠ some (s.workers w).idle_piber := by
  intro held
  obtain ⟨_, role⟩ := (owned.workers w).ownIdle running
  rcases (owned.claimed held).2 with other | other
  · rw [role] at other
    cases other
  · rw [role] at other
    cases other
    rw [free] at held
    cases held

private theorem term_of_update {pibers : PiberId → Piber} {p q : PiberId} {next : Piber}
    (kept : next.state = .TERM → (pibers q).state = .TERM)
    (term : (Function.update pibers q next p).state = .TERM) : (pibers p).state = .TERM := by
  by_cases same : p = q
  · subst same
    rw [Function.update_self] at term
    exact kept term
  · rwa [Function.update_of_ne same] at term

/-- A fiber turns `TERM` in `MainFunc` only, on the thread that runs it. -/
theorem term_move {a : Action} {p : PiberId} (moved : Move s a t)
    (term : (t.pibers p).state = .TERM) :
    (s.pibers p).state = .TERM ∨ (a = .owner ∧ s.rootPiber = some p ∧ t.owner = .collecting) ∨
      ∃ w branch, a = .worker w ∧ (s.workers w).pc = .ending branch p := by
  cases moved with
  | @rootReturned r pc root done =>
    by_cases same : p = r
    · exact .inr (.inl ⟨rfl, same ▸ root, rfl⟩)
    · exact .inl (by simpa [Function.update_of_ne same] using term)
  | @termMarked w branch q pc =>
    by_cases same : p = q
    · exact .inr (.inr ⟨w, branch, rfl, same ▸ pc⟩)
    · exact .inl (by simpa [Function.update_of_ne same] using term)
  | newPiber | enteredRoot | pickedCb => exact .inl (term_of_update (by simp [Piber.create]) term)
  | entered =>
    exact .inl (term_of_update (by simp [Piber.threadMain])
      (term_of_update (by simp [Piber.create]) term))
  | rootResumed | rootLost | marked =>
    exact .inl (term_of_update (by simp [Piber.markRuning, Piber.load]) term)
  | recycledCb => exact .inl (term_of_update (by simp [Piber.reset]) term)
  | switched | switchedOut =>
    refine .inl (term_of_update ?_ term)
    exact id
  | readyMarked =>
    refine .inl (term_of_update (fun ended => ?_) term)
    by_contra live
    simp [Piber.markReady, live] at ended
  | _ => exact .inl term

theorem ownership_step {a : Action} (owned : Ownership s) (stepped : step s a = some t) :
    Ownership t :=
  ownership_move owned (move_of_step stepped)

end Scheduler
end Synergy
