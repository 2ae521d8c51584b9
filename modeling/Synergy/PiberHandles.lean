import Synergy.Piber
import Synergy.Runs
import Synergy.SharedPtr

/-! `Piber::ptr` in `synergy/Piber.cc`. `MainFunc` points to its own fiber while
the body runs; it drops that pointer before the last `yield`, which it calls
through a raw one, on the stack that the destructor frees. So somebody else has
to hold the fiber at the end of its body and until the thread is off its stack.
There are any number of threads. A fiber is resumed by the main fiber of a thread,
as the comment of `GetThis` has it, so that a yield of it goes back there; while a
thread is on it, it is neither resumed nor reset; and it yields itself. Pointers to
main fibers are left out. -/
namespace Synergy
open SharedPtr

/-- The variables of type `Piber::ptr`. The local `cur` and the temporary of
`GetThis()->yield()` lie on the stack of the fiber, in the frames that one
`makecontext` led to. -/
inductive FiberVar where
  | cur (p : PiberId) (activation : ℕ)
  | temporary (p : PiberId) (activation : ℕ)
  | user (i : ℕ)
  deriving DecidableEq, Repr

/-- The fiber on whose stack the variable lies. -/
def FiberVar.home : FiberVar → Option PiberId
  | .cur p _ | .temporary p _ => some p
  | .user _ => none

/-- Where a fiber is: before its entry, with a thread inside the body, behind a
`yield`, with a thread behind `cur.reset()`, and behind the last `yield`. -/
inductive Stage where
  | fresh
  | inside
  | suspended
  | parting
  | ended
  deriving DecidableEq, Repr

/-- The stack that a thread is on; a thread that returned from `MainFunc` with
`uc_link == nullptr` is no more. -/
inductive Standing where
  | main
  | fiber (p : PiberId)
  | exited
  deriving DecidableEq, Repr

/-- The fibers, their control blocks and the threads. `accesses` is history: for
each access to a fiber whether it was alive. -/
structure Fibers where
  ptrs : Heap FiberVar PiberId := {}
  created : PiberId := 0
  stage : PiberId → Stage := fun _ => .fresh
  activation : PiberId → ℕ := fun _ => 0
  standing : ThreadId → Standing := fun _ => .main
  accesses : List Bool := []

namespace Fibers

@[simp] def enter (s : Fibers) (p : PiberId) (stage : Stage) : Fibers :=
  { s with stage := Function.update s.stage p stage }

@[simp] def stand (s : Fibers) (w : ThreadId) (standing : Standing) : Fibers :=
  { s with standing := Function.update s.standing w standing }

@[simp] def access (s : Fibers) (p : PiberId) : Fibers :=
  { s with accesses := s.ptrs.alive p :: s.accesses }

/-- `Piber::resume` on the thread, and how the fiber goes on. Behind its last
`yield`, `MainFunc` returns. -/
def resume (s : Fibers) (w : ThreadId) (p : PiberId) : Option Fibers :=
  match s.stage p with
  | .fresh =>
    some { ((s.access p).enter p .inside).stand w (.fiber p) with
      ptrs := s.ptrs.assign (.cur p (s.activation p)) p }
  | .suspended =>
    some { ((s.access p).enter p .inside).stand w (.fiber p) with
      ptrs := s.ptrs.reset (.temporary p (s.activation p)) }
  | .ended => some ((s.access p).stand w .exited)
  | _ => none

/-- `Piber::reset`: the frames on the stack are forgotten, not unwound. -/
def reset (s : Fibers) (p : PiberId) : Option Fibers :=
  match s.stage p with
  | .fresh | .suspended | .ended =>
    some { (s.access p).enter p .fresh with
      activation := Function.update s.activation p (s.activation p + 1) }
  | _ => none

/-- `yield` in the body, called through a pointer or through the temporary. -/
def yield (s : Fibers) (w : ThreadId) (p : PiberId) (temporary : Bool) : Fibers :=
  { ((s.access p).enter p .suspended).stand w .main with
    ptrs := if temporary then s.ptrs.assign (.temporary p (s.activation p)) p else s.ptrs }

/-- The end of `MainFunc` up to `cur.reset()`. -/
def finish (s : Fibers) (p : PiberId) : Fibers :=
  { (s.access p).enter p .parting with ptrs := s.ptrs.reset (.cur p (s.activation p)) }

/-- `rwa_ptr->yield()`. -/
def leave (s : Fibers) (w : ThreadId) (p : PiberId) : Fibers :=
  ((s.access p).enter p .ended).stand w .main

inductive Action where
  | create (i : ℕ)
  | copy (i j : ℕ)
  | drop (i : ℕ)
  | getThis (w : ThreadId) (i : ℕ)
  | resume (w : ThreadId) (i : ℕ)
  | reset (i : ℕ)
  | yield (w : ThreadId) (temporary : Bool)
  | finish (w : ThreadId)
  | leave (w : ThreadId)
  deriving DecidableEq, Repr

/-- The fiber whose body or last lines the thread executes. -/
def running (s : Fibers) (w : ThreadId) (stage : Stage) : Option PiberId :=
  match s.standing w with
  | .fiber p => if s.stage p = stage then some p else none
  | _ => none

def step (s : Fibers) : Action → Option Fibers
  | .create i =>
    some { s with ptrs := s.ptrs.make (.user i) s.created, created := s.created + 1 }
  | .copy i j => some { s with ptrs := s.ptrs.copy (.user i) (.user j) }
  | .drop i => some { s with ptrs := s.ptrs.reset (.user i) }
  | .getThis w i =>
    (s.running w .inside).map fun p => { s.access p with ptrs := s.ptrs.assign (.user i) p }
  | .resume w i =>
    if s.standing w = .main then (s.ptrs.points (.user i)).bind (s.resume w) else none
  | .reset i => (s.ptrs.points (.user i)).bind s.reset
  | .yield w temporary => (s.running w .inside).map fun p => s.yield w p temporary
  | .finish w => (s.running w .inside).map s.finish
  | .leave w => (s.running w .parting).map (s.leave w)

/-- A thread stands on the stack of the fiber. -/
def OnStack (s : Fibers) (p : PiberId) : Prop := ∃ w, s.standing w = .fiber p

/-- No thread is on the stack of a destroyed fiber, and none was used. -/
structure Sound (s : Fibers) : Prop where
  standing : ∀ p, s.OnStack p → s.ptrs.alive p = true
  used : ∀ ok ∈ s.accesses, ok = true

/-- The variable is all that holds a fiber whose thread is behind `cur.reset()`. -/
def dropsLast (s : Fibers) (i : ℕ) : Bool :=
  match s.ptrs.points (.user i) with
  | none => false
  | some p => s.stage p == .parting && s.ptrs.use_count p == 1

/-- Somebody else holds the fiber at the end of its body, and whoever does holds
it until the thread has gone. -/
def Held (s : Fibers) : Action → Prop
  | .create i | .drop i | .getThis _ i => s.dropsLast i = false
  | .copy i j => i = j ∨ s.dropsLast i = false
  | .finish w => ∀ p ∈ s.running w .inside, s.ptrs.use_count p ≠ 1
  | _ => True

instance (s : Fibers) : (a : Action) → Decidable (Held s a)
  | .create i | .drop i | .getThis _ i => inferInstanceAs (Decidable (s.dropsLast i = false))
  | .copy i j => inferInstanceAs (Decidable (i = j ∨ s.dropsLast i = false))
  | .finish w =>
    inferInstanceAs (Decidable (∀ p ∈ s.running w .inside, s.ptrs.use_count p ≠ 1))
  | .resume _ _ | .reset _ | .yield _ _ | .leave _ => .isTrue trivial

/-- A fiber in execution has one thread on its stack, any other has none. -/
structure Placed (standing : ThreadId → Standing) (stage : PiberId → Stage) : Prop where
  sole : ∀ v w p, standing v = .fiber p → standing w = .fiber p → v = w
  staged : ∀ p, (∃ w, standing w = .fiber p) ↔ stage p = .inside ∨ stage p = .parting

/-- What holds of any program. -/
structure Kept (s : Fibers) : Prop where
  lawful : Lawful s.ptrs
  made : ∀ x p, s.ptrs.points x = some p → p < s.created
  own : ∀ x p q, x.home = some p → s.ptrs.points x = some q → q = p
  old : ∀ p, s.stage p ≠ .fresh → p < s.created
  frames : ∀ p, s.stage p = .inside ∨ s.stage p = .suspended →
    s.ptrs.points (.cur p (s.activation p)) = some p
  placed : Placed s.standing s.stage

section Placed

variable {standing : ThreadId → Standing} {stage : PiberId → Stage} {w : ThreadId} {p : PiberId}
  {place : Standing} {next : Stage}

/-- A thread that is on the fiber, or goes there while nobody is, and the stage that
goes with its next place. -/
theorem Placed.move (placed : Placed standing stage)
    (before : standing w = .fiber p ∨ standing w = .main ∧ ¬ ∃ v, standing v = .fiber p)
    (after : place = .fiber p ∧ (next = .inside ∨ next = .parting) ∨
      (∀ q, place ≠ .fiber q) ∧ ¬ (next = .inside ∨ next = .parting)) :
    Placed (Function.update standing w place) (Function.update stage p next) := by
  have alone : ∀ v, v ≠ w → standing v ≠ .fiber p := by
    intro v other on
    rcases before with here | ⟨-, away⟩
    · exact other (placed.sole v w p on here)
    · exact away ⟨v, on⟩
  have only : ∀ q, place = .fiber q → q = p := by
    intro q on
    rcases after with ⟨here, -⟩ | ⟨away, -⟩
    · exact Standing.fiber.inj (on.symm.trans here)
    · exact absurd on (away q)
  constructor
  · intro v u q first second
    by_cases left : v = w <;> by_cases right : u = w
    · rw [left, right]
    · rw [left, Function.update_self] at first
      rw [Function.update_of_ne right, only q first] at second
      exact absurd second (alone u right)
    · rw [Function.update_of_ne left] at first
      rw [right, Function.update_self] at second
      rw [only q second] at first
      exact absurd first (alone v left)
    · rw [Function.update_of_ne left] at first
      rw [Function.update_of_ne right] at second
      exact placed.sole v u q first second
  · intro q
    by_cases same : q = p
    · subst q
      rw [Function.update_self]
      rcases after with ⟨here, working⟩ | ⟨away, quiet⟩
      · exact ⟨fun _ => working, fun _ => ⟨w, by rw [Function.update_self, here]⟩⟩
      · refine ⟨fun ⟨v, on⟩ => ?_, fun working => absurd working quiet⟩
        by_cases here : v = w
        · rw [here, Function.update_self] at on
          exact absurd on (away p)
        · rw [Function.update_of_ne here] at on
          exact absurd on (alone v here)
    · rw [Function.update_of_ne same, ← placed.staged q]
      refine exists_congr fun v => ?_
      by_cases here : v = w
      · subst v
        rw [Function.update_self]
        refine ⟨fun on => absurd (only q on) same, fun on => ?_⟩
        rcases before with there | ⟨there, -⟩ <;> rw [there] at on <;> cases on
        exact absurd rfl same
      · rw [Function.update_of_ne here]

/-- A fiber that no thread is on. -/
theorem Placed.quiet (placed : Placed standing stage)
    (away : ¬ (stage p = .inside ∨ stage p = .parting))
    (quiet : ¬ (next = .inside ∨ next = .parting)) :
    Placed standing (Function.update stage p next) where
  sole := placed.sole
  staged q := by
    rw [placed.staged q]
    by_cases same : q = p
    · subst q
      rw [Function.update_self]
      exact iff_of_false away quiet
    · rw [Function.update_of_ne same]

end Placed

variable {s t : Fibers} {a : Action} {p q : PiberId} {i : ℕ} {w : ThreadId}

theorem running_eq_some {stage : Stage} :
    s.running w stage = some p ↔ s.standing w = .fiber p ∧ s.stage p = stage := by
  unfold running
  cases place : s.standing w with
  | fiber q =>
    simp only [Option.ite_none_right_eq_some, Option.some.injEq, Standing.fiber.injEq]
    exact ⟨fun ⟨staged, same⟩ => ⟨same, same ▸ staged⟩, fun ⟨same, staged⟩ => ⟨same ▸ staged, same⟩⟩
  | main | exited => simp

theorem Kept.onStack (kept : Kept s) (p : PiberId) :
    s.OnStack p ↔ s.stage p = .inside ∨ s.stage p = .parting := kept.placed.staged p

theorem Kept.alive (kept : Kept s) {x : FiberVar} (found : s.ptrs.points x = some p) :
    s.ptrs.alive p = true :=
  (kept.lawful.alive_iff p).mpr ⟨x, found⟩

theorem Kept.inside_alive (kept : Kept s) (inside : s.stage p = .inside) :
    s.ptrs.alive p = true :=
  kept.alive (kept.frames p (.inl inside))

/-- A variable of the user is overwritten, and nothing else happens. -/
theorem kept_user (kept : Kept s) {ptrs : Heap FiberVar PiberId} {now : Option PiberId}
    (lawful : Lawful ptrs) (points : ptrs.points = Function.update s.ptrs.points (.user i) now)
    {created : PiberId} (grown : s.created ≤ created) (made : ∀ p, now = some p → p < created)
    (accesses : List Bool) : Kept { s with ptrs, created, accesses } where
  lawful := lawful
  made x p found := by
    rw [points] at found
    by_cases same : x = .user i
    · subst x
      rw [Function.update_self] at found
      exact made p found
    · rw [Function.update_of_ne same] at found
      exact Nat.lt_of_lt_of_le (kept.made x p found) grown
  own x p q home found := by
    have apart : x ≠ .user i := by
      rintro rfl
      cases home
    rw [points, Function.update_of_ne apart] at found
    exact kept.own x p q home found
  old p staged := Nat.lt_of_lt_of_le (kept.old p staged) grown
  frames p here := by
    rw [points, Function.update_of_ne (by simp)]
    exact kept.frames p here
  placed := kept.placed

/-- A fiber moves on, and only a variable on its own stack is written. -/
theorem kept_fiber (kept : Kept s) {ptrs : Heap FiberVar PiberId} {x : FiberVar}
    {now : Option PiberId} {stage : Stage} {standing : ThreadId → Standing}
    (lawful : Lawful ptrs) (points : ptrs.points = Function.update s.ptrs.points x now)
    (home : x.home = some p) (old : p < s.created) (made : ∀ q, now = some q → q = p)
    (frame : stage = .inside ∨ stage = .suspended →
      ptrs.points (.cur p (s.activation p)) = some p)
    (placed : Placed standing (Function.update s.stage p stage)) (accesses : List Bool) :
    Kept { s with ptrs, accesses, standing, stage := Function.update s.stage p stage } where
  lawful := lawful
  made y q found := by
    rw [points] at found
    by_cases same : y = x
    · subst y
      rw [Function.update_self] at found
      exact made q found ▸ old
    · rw [Function.update_of_ne same] at found
      exact kept.made y q found
  own y q r own found := by
    rw [points] at found
    by_cases same : y = x
    · subst y
      rw [Function.update_self] at found
      cases home.symm.trans own
      exact made r found
    · rw [Function.update_of_ne same] at found
      exact kept.own y q r own found
  old q staged := by
    by_cases same : q = p
    · exact same ▸ old
    · exact kept.old q (by simpa [Function.update_of_ne same] using staged)
  placed := placed
  frames q here := by
    by_cases same : q = p
    · subst q
      exact frame (by simpa using here)
    · have apart : FiberVar.cur q (s.activation q) ≠ x := by
        rintro rfl
        exact same (Option.some.inj home)
      rw [points, Function.update_of_ne apart]
      exact kept.frames q (by simpa [Function.update_of_ne same] using here)

/-- A fiber moves on, and no variable is written. -/
theorem kept_quiet (kept : Kept s) {stage : Stage} {standing : ThreadId → Standing}
    (old : p < s.created)
    (frame : stage = .inside ∨ stage = .suspended →
      s.ptrs.points (.cur p (s.activation p)) = some p)
    (placed : Placed standing (Function.update s.stage p stage)) (accesses : List Bool) :
    Kept { s with accesses, standing, stage := Function.update s.stage p stage } :=
  kept_fiber kept (x := .cur p 0) kept.lawful (Function.update_eq_self _ _).symm rfl old
    (fun q found => kept.own _ p q rfl found) frame placed accesses

/-- A fiber that is not in execution has no thread. -/
theorem Kept.away (kept : Kept s) (quiet : ¬ (s.stage p = .inside ∨ s.stage p = .parting)) :
    ¬ ∃ v, s.standing v = .fiber p := fun on => quiet ((kept.onStack p).mp on)

theorem kept_resume (kept : Kept s) (home : s.standing w = .main)
    (found : s.ptrs.points (.user i) = some p) (resumed : s.resume w p = some t) : Kept t := by
  have old := kept.made _ _ found
  unfold resume at resumed
  split at resumed <;> cases resumed
  · rename_i fresh
    have placed : Placed (Function.update s.standing w (.fiber p))
        (Function.update s.stage p .inside) :=
      kept.placed.move (.inr ⟨home, kept.away (by simp [fresh])⟩) (.inl ⟨rfl, .inl rfl⟩)
    have points := Heap.assign_points (h := s.ptrs) (x := .cur p (s.activation p)) (o := p)
    exact kept_fiber kept (kept.lawful.assign _ (kept.alive found)) points rfl old
      (fun q same => (Option.some.inj same).symm) (fun _ => by rw [points, Function.update_self])
      placed _
  · rename_i suspended
    have placed : Placed (Function.update s.standing w (.fiber p))
        (Function.update s.stage p .inside) :=
      kept.placed.move (.inr ⟨home, kept.away (by simp [suspended])⟩) (.inl ⟨rfl, .inl rfl⟩)
    have points := Heap.reset_points (h := s.ptrs) (x := .temporary p (s.activation p))
    refine kept_fiber kept (kept.lawful.reset _) points rfl old
      (fun q same => by cases same) (fun _ => ?_) placed _
    rw [points, Function.update_of_ne (by simp)]
    exact kept.frames p (.inr suspended)
  · rename_i ended
    have placed : Placed (Function.update s.standing w .exited)
        (Function.update s.stage p .ended) :=
      kept.placed.move (.inr ⟨home, kept.away (by simp [ended])⟩) (.inr ⟨by simp, by simp⟩)
    rw [← ended, Function.update_eq_self] at placed
    exact ⟨kept.lawful, kept.made, kept.own, kept.old, kept.frames, placed⟩

theorem kept_reset (kept : Kept s) (found : s.ptrs.points (.user i) = some p)
    (again : s.reset p = some t) : Kept t := by
  have old := kept.made _ _ found
  have fresh : ¬ (s.stage p = .inside ∨ s.stage p = .parting) → Kept { s with
      accesses := s.ptrs.alive p :: s.accesses, stage := Function.update s.stage p .fresh
      activation := Function.update s.activation p (s.activation p + 1) } := by
    intro away
    refine ⟨kept.lawful, kept.made, kept.own, fun q staged => ?_, fun q here => ?_,
      kept.placed.quiet away (by simp)⟩
    · by_cases same : q = p
      · exact same ▸ old
      · exact kept.old q (by simpa [Function.update_of_ne same] using staged)
    · by_cases same : q = p
      · simp [same] at here
      · simp only [Function.update_of_ne same] at here ⊢
        exact kept.frames q here
  unfold reset at again
  split at again <;> cases again
  all_goals
    rename_i quiet
    exact fresh (by simp [quiet])

theorem kept_step (kept : Kept s) (stepped : step s a = some t) : Kept t := by
  cases a with
  | create i =>
    cases stepped
    refine kept_user kept (kept.lawful.make _ fun y found => ?_) Heap.make_points (Nat.le_succ _)
      (fun p same => ?_) _
    · exact absurd (kept.made y _ found) (Nat.lt_irrefl _)
    · cases same
      exact Nat.lt_succ_self _
  | copy i j =>
    cases stepped
    exact kept_user kept (kept.lawful.copy _ _) Heap.copy_points (Nat.le_refl _)
      (fun p same => kept.made _ p same) _
  | drop i =>
    cases stepped
    exact kept_user kept (kept.lawful.reset _) Heap.reset_points (Nat.le_refl _)
      (fun p same => nomatch same) _
  | getThis w i =>
    obtain ⟨p, ran, rfl⟩ := Option.map_eq_some_iff.mp stepped
    obtain ⟨-, inside⟩ := running_eq_some.mp ran
    refine kept_user kept (kept.lawful.assign _ (kept.inside_alive inside)) Heap.assign_points
      (Nat.le_refl _) (fun q same => ?_) _
    cases same
    exact kept.old p (by simp [inside])
  | resume w i =>
    simp only [step] at stepped
    split at stepped
    · obtain ⟨p, found, resumed⟩ := Option.bind_eq_some_iff.mp stepped
      exact kept_resume kept ‹_› found resumed
    · cases stepped
  | reset i =>
    obtain ⟨p, found, again⟩ := Option.bind_eq_some_iff.mp stepped
    exact kept_reset kept found again
  | yield w temporary =>
    obtain ⟨p, ran, rfl⟩ := Option.map_eq_some_iff.mp stepped
    obtain ⟨on, inside⟩ := running_eq_some.mp ran
    have old := kept.old p (by simp [inside])
    have frame := kept.frames p (.inl inside)
    have placed : Placed (Function.update s.standing w .main)
        (Function.update s.stage p .suspended) :=
      kept.placed.move (.inl on) (.inr ⟨by simp, by simp⟩)
    cases temporary with
    | false => exact kept_quiet kept old (fun _ => frame) placed _
    | true =>
      have points := Heap.assign_points (h := s.ptrs) (x := .temporary p (s.activation p)) (o := p)
      refine kept_fiber kept (kept.lawful.assign _ (kept.inside_alive inside)) points rfl old
        (fun q same => (Option.some.inj same).symm) (fun _ => ?_) placed _
      rw [points, Function.update_of_ne (by simp)]
      exact frame
  | finish w =>
    obtain ⟨p, ran, rfl⟩ := Option.map_eq_some_iff.mp stepped
    obtain ⟨on, inside⟩ := running_eq_some.mp ran
    have placed : Placed (Function.update s.standing w (.fiber p))
        (Function.update s.stage p .parting) :=
      kept.placed.move (.inl on) (.inl ⟨rfl, .inr rfl⟩)
    rw [← on, Function.update_eq_self] at placed
    exact kept_fiber kept (kept.lawful.reset _) Heap.reset_points rfl
      (kept.old p (by simp [inside])) (fun q same => by cases same) (by simp) placed _
  | leave w =>
    obtain ⟨p, ran, rfl⟩ := Option.map_eq_some_iff.mp stepped
    obtain ⟨on, parting⟩ := running_eq_some.mp ran
    exact kept_quiet kept (kept.old p (by simp [parting])) (by simp)
      (kept.placed.move (.inl on) (.inr ⟨by simp, by simp⟩)) _

theorem kept_empty : Kept {} :=
  ⟨lawful_empty, fun _ _ found => (nomatch found), fun _ _ _ _ found => (nomatch found),
    fun _ staged => absurd rfl staged, fun _ here => by simp at here,
    ⟨fun _ _ _ on => by simp at on, fun _ => by simp⟩⟩

/-- A fiber inside its body has more than one pointer if a user has one. -/
theorem Kept.inside_shared (kept : Kept s) (inside : s.stage p = .inside)
    (found : s.ptrs.points (.user i) = some p) : s.ptrs.use_count p ≠ 1 := fun one => by
  have only := (kept.lawful.use_count_eq_one found).mp one _ (kept.frames p (.inl inside))
  cases only

theorem dropsLast_eq_false (i : ℕ) : s.dropsLast i = false ↔
    ∀ p, s.ptrs.points (.user i) = some p → s.stage p = .parting → s.ptrs.use_count p ≠ 1 := by
  unfold dropsLast
  cases found : s.ptrs.points (.user i) with
  | none => simp
  | some p => simp

/-- Overwriting a variable of the user does harm exactly where it is the last
that holds a fiber whose thread has not gone. -/
theorem sound_user (kept : Kept s) {ptrs : Heap FiberVar PiberId} {now : Option PiberId}
    (lawful : Lawful ptrs) (points : ptrs.points = Function.update s.ptrs.points (.user i) now)
    (known : ∀ p, now = some p → s.OnStack p → s.ptrs.alive p = true ∧
      (s.ptrs.points (.user i) = some p → s.ptrs.use_count p ≠ 1))
    {created : PiberId} {accesses : List Bool}
    (used : (∀ ok ∈ accesses, ok = true) ↔ ∀ ok ∈ s.accesses, ok = true) :
    Sound { s with ptrs, created, accesses } ↔ Sound s ∧ s.dropsLast i = false := by
  rw [dropsLast_eq_false]
  have alive := kept.lawful.alive_update lawful points
  have lives : ∀ p, s.OnStack p → (ptrs.alive p = true ↔ s.ptrs.alive p = true ∧
      (s.ptrs.points (.user i) = some p → s.ptrs.use_count p ≠ 1)) := by
    intro p on
    rw [alive p]
    exact ⟨fun either => either.elim (fun here => known p here on) id, .inr⟩
  constructor
  · rintro ⟨standing, fine⟩
    exact ⟨⟨fun p on => ((lives p on).mp (standing p on)).1, used.mp fine⟩,
      fun p found parting =>
        have on : s.OnStack p := (kept.onStack p).mpr (.inr parting)
        ((lives p on).mp (standing p on)).2 found⟩
  · rintro ⟨⟨standing, fine⟩, shared⟩
    refine ⟨fun p on => (lives p on).mpr ⟨standing p on, fun found => ?_⟩, used.mpr fine⟩
    rcases (kept.onStack p).mp on with inside | parting
    · exact kept.inside_shared inside found
    · exact shared p found parting

/-- A fiber moves on, and of all fibers only it may be destroyed. -/
theorem sound_fiber {stage : Stage} {allowed : Prop} (kept : Kept s) (after : Kept t)
    (moved : t.stage = Function.update s.stage p stage)
    (others : ∀ q, q ≠ p → (t.ptrs.alive q = true ↔ s.ptrs.alive q = true))
    (accesses : t.accesses = s.ptrs.alive p :: s.accesses)
    (here : s.ptrs.alive p = true ∧ (t.OnStack p → t.ptrs.alive p = true) ↔
      (s.OnStack p → s.ptrs.alive p = true) ∧ allowed) : Sound t ↔ Sound s ∧ allowed := by
  have same : ∀ q, q ≠ p → (t.OnStack q ↔ s.OnStack q) := fun q apart => by
    rw [after.onStack q, kept.onStack q, moved, Function.update_of_ne apart]
  constructor
  · rintro ⟨standing, used⟩
    rw [accesses, List.forall_mem_cons] at used
    obtain ⟨before, admitted⟩ := here.mp ⟨used.1, standing p⟩
    refine ⟨⟨fun q on => ?_, used.2⟩, admitted⟩
    by_cases self : q = p
    · subst q
      exact before on
    · exact (others q self).mp (standing q ((same q self).mpr on))
  · rintro ⟨⟨standing, used⟩, admitted⟩
    obtain ⟨alive, after⟩ := here.mpr ⟨standing p, admitted⟩
    refine ⟨fun q on => ?_, by rw [accesses, List.forall_mem_cons]; exact ⟨alive, used⟩⟩
    by_cases self : q = p
    · subst q
      exact after on
    · exact (others q self).mpr (standing q ((same q self).mp on))

/-- A fiber moves on that is alive, and stays so as long as a thread is on it. -/
theorem sound_alive {stage : Stage} (kept : Kept s) (after : Kept t)
    (moved : t.stage = Function.update s.stage p stage)
    (others : ∀ q, q ≠ p → (t.ptrs.alive q = true ↔ s.ptrs.alive q = true))
    (accesses : t.accesses = s.ptrs.alive p :: s.accesses) (alive : s.ptrs.alive p = true)
    (still : t.OnStack p → t.ptrs.alive p = true) : Sound t ↔ Sound s ∧ True :=
  sound_fiber kept after moved others accesses
    ⟨fun _ => ⟨fun _ => alive, trivial⟩, fun _ => ⟨alive, still⟩⟩

/-- A variable on the stack of one fiber is no other fiber's life. -/
theorem Kept.others (kept : Kept s) {ptrs : Heap FiberVar PiberId} {x : FiberVar}
    {now : Option PiberId} (lawful : Lawful ptrs)
    (points : ptrs.points = Function.update s.ptrs.points x now) (home : x.home = some p)
    (made : ∀ q, now = some q → q = p) (q : PiberId) (apart : q ≠ p) :
    ptrs.alive q = true ↔ s.ptrs.alive q = true := by
  rw [kept.lawful.alive_update lawful points q]
  constructor
  · rintro (here | ⟨alive, _⟩)
    · exact absurd (made q here) apart
    · exact alive
  · exact fun alive => .inr ⟨alive, fun found => absurd (kept.own x p q home found) apart⟩

private theorem used_cons (alive : s.ptrs.alive p = true) :
    (∀ ok ∈ s.ptrs.alive p :: s.accesses, ok = true) ↔ ∀ ok ∈ s.accesses, ok = true := by
  simp [alive]

theorem sound_resume (kept : Kept s) (after : Kept t)
    (found : s.ptrs.points (.user i) = some p) (resumed : s.resume w p = some t) :
    Sound t ↔ Sound s ∧ True := by
  have alive := kept.alive found
  unfold resume at resumed
  split at resumed <;> cases resumed
  · have others := kept.others (kept.lawful.assign (.cur p (s.activation p)) alive)
      Heap.assign_points rfl fun q same => (Option.some.inj same).symm
    exact sound_alive kept after rfl others rfl alive
      fun _ => after.inside_alive (p := p) (by simp)
  · have others := kept.others (kept.lawful.reset (.temporary p (s.activation p)))
      Heap.reset_points rfl fun q same => by cases same
    exact sound_alive kept after rfl others rfl alive
      fun _ => after.inside_alive (p := p) (by simp)
  · have moved : s.stage = Function.update s.stage p (s.stage p) :=
      (Function.update_eq_self p s.stage).symm
    exact sound_alive kept after moved (fun _ _ => Iff.rfl) rfl alive fun _ => alive

theorem sound_reset (kept : Kept s) (after : Kept t) (found : s.ptrs.points (.user i) = some p)
    (again : s.reset p = some t) : Sound t ↔ Sound s ∧ True := by
  have alive := kept.alive found
  unfold reset at again
  split at again <;> cases again <;>
    exact sound_alive kept after rfl (fun _ _ => Iff.rfl) rfl alive fun _ => alive

/-- One step keeps threads off destroyed stacks exactly where it holds what it
has to. -/
theorem exact_step (kept : Kept s) (stepped : step s a = some t) :
    Sound t ↔ Sound s ∧ Held s a := by
  have after := kept_step kept stepped
  cases a with
  | create i =>
    cases stepped
    refine sound_user kept after.lawful Heap.make_points (fun p same on => ?_) Iff.rfl
    cases same
    have staged : s.stage s.created ≠ .fresh := by
      rcases (kept.onStack _).mp on with here | here <;> simp [here]
    exact absurd (kept.old _ staged) (Nat.lt_irrefl _)
  | copy i j =>
    cases stepped
    by_cases same : i = j
    · subst j
      have points : (s.ptrs.copy (.user i) (.user i)).points = s.ptrs.points := by
        rw [Heap.copy_points, Function.update_eq_self]
      have alive : ∀ p, (s.ptrs.copy (.user i) (.user i)).alive p = true ↔ s.ptrs.alive p = true :=
        fun p => by rw [after.lawful.alive_iff p, kept.lawful.alive_iff p, points]
      constructor
      · exact fun sound => ⟨⟨fun p on => (alive p).mp (sound.standing p on), sound.used⟩, .inl rfl⟩
      · exact fun ⟨sound, _⟩ => ⟨fun p on => (alive p).mpr (sound.standing p on), sound.used⟩
    · have held : Held s (.copy i j) ↔ s.dropsLast i = false := by simp [Held, same]
      rw [held]
      refine sound_user kept after.lawful Heap.copy_points (fun p found _ => ?_) Iff.rfl
      refine ⟨kept.alive found, fun here one => ?_⟩
      have only := (kept.lawful.use_count_eq_one here).mp one _ found
      exact same (by simpa using only.symm)
  | drop i =>
    cases stepped
    exact sound_user kept after.lawful Heap.reset_points (fun p same => by cases same) Iff.rfl
  | getThis w i =>
    obtain ⟨p, ran, rfl⟩ := Option.map_eq_some_iff.mp stepped
    obtain ⟨-, inside⟩ := running_eq_some.mp ran
    have alive := kept.inside_alive inside
    refine sound_user kept after.lawful Heap.assign_points (fun q same _ => ?_) (used_cons alive)
    cases same
    exact ⟨alive, kept.inside_shared inside⟩
  | resume w i =>
    simp only [step] at stepped
    split at stepped
    · obtain ⟨p, found, resumed⟩ := Option.bind_eq_some_iff.mp stepped
      exact sound_resume kept after found resumed
    · cases stepped
  | reset i =>
    obtain ⟨p, found, again⟩ := Option.bind_eq_some_iff.mp stepped
    exact sound_reset kept after found again
  | yield w temporary =>
    obtain ⟨p, ran, rfl⟩ := Option.map_eq_some_iff.mp stepped
    obtain ⟨-, inside⟩ := running_eq_some.mp ran
    have alive := kept.inside_alive inside
    have gone : ¬ (s.yield w p temporary).OnStack p := by
      rw [after.onStack p]
      simp [Fibers.yield]
    refine sound_alive (p := p) kept after rfl ?_ rfl alive fun on => absurd on gone
    cases temporary with
    | false => exact fun _ _ => Iff.rfl
    | true =>
      exact kept.others after.lawful Heap.assign_points rfl fun q same => (Option.some.inj same).symm
  | finish w =>
    obtain ⟨p, ran, rfl⟩ := Option.map_eq_some_iff.mp stepped
    obtain ⟨-, inside⟩ := running_eq_some.mp ran
    have alive := kept.inside_alive inside
    have ends : (s.finish p).ptrs.alive p = true ↔ s.ptrs.use_count p ≠ 1 := by
      have frame := kept.frames p (.inl inside)
      rw [kept.lawful.alive_update after.lawful (Heap.reset_points) p]
      simp [alive, frame]
    have held : Held s (.finish w) ↔ s.ptrs.use_count p ≠ 1 := by simp [Held, ran]
    have there : (s.finish p).OnStack p := by
      rw [after.onStack p]
      simp [Fibers.finish]
    rw [held]
    refine sound_fiber (p := p) kept after rfl (kept.others after.lawful Heap.reset_points rfl
      fun q same => by cases same) rfl ⟨fun ⟨_, standing⟩ => ⟨fun _ => alive, ?_⟩,
        fun ⟨_, held⟩ => ⟨alive, fun _ => ends.mpr held⟩⟩
    exact ends.mp (standing there)
  | leave w =>
    obtain ⟨p, ran, rfl⟩ := Option.map_eq_some_iff.mp stepped
    obtain ⟨on, parting⟩ := running_eq_some.mp ran
    have gone : ¬ (s.leave w p).OnStack p := by
      rw [after.onStack p]
      simp [Fibers.leave]
    refine sound_fiber (p := p) kept after rfl (fun _ _ => Iff.rfl) rfl
      ⟨fun ⟨alive, _⟩ => ⟨fun _ => alive, trivial⟩,
        fun ⟨standing, _⟩ => ⟨standing ⟨w, on⟩, fun on => absurd on gone⟩⟩

/-- No thread ever stands on the stack of a destroyed fiber, and no destroyed
fiber is ever used, exactly where in every step `MainFunc` finds somebody else
with a pointer when it drops its own, and the last such pointer is kept until
the thread has gone. -/
theorem held_to_the_end_iff {schedule : List Action} (ran : Runs.run step {} schedule = some t) :
    Sound t ↔ Runs.AllSteps step Held {} schedule := by
  have start : Sound ({} : Fibers) := ⟨fun p ⟨w, on⟩ => by simp at on, by simp⟩
  have exactly : Sound t ↔ Sound ({} : Fibers) ∧ Runs.AllSteps step Held {} schedule :=
    Runs.run_lawful_iff (fun _ _ _ kept stepped => kept_step kept stepped)
      (fun _ _ _ kept stepped => exact_step kept stepped) schedule kept_empty ran
  exact exactly.trans ⟨And.right, fun held => ⟨start, held⟩⟩

/-- A fiber is resumed, yields through `GetThis()`, is resumed by another thread to
its end, and another body is run on its stack. -/
def testFiber : List Action :=
  [.create 0, .resume 1 0, .yield 1 true, .resume 2 0, .finish 2, .leave 2, .reset 0,
    .resume 1 0, .finish 1, .leave 1, .drop 0]

/-- The body drops the only pointer to its own fiber. -/
def droppedInside : List Action := [.create 0, .resume 1 0, .drop 0, .finish 1]

theorem test_fiber_is_held :
    (∃ t, Runs.run step {} testFiber = some t ∧ Sound t ∧ t.ptrs.population = 0) ∧
      ∃ t, Runs.run step {} droppedInside = some t ∧ ¬ Sound t := by
  have held : Runs.AllSteps step Held {} testFiber := by decide +kernel
  have dropped : ¬ Runs.AllSteps step Held {} droppedInside := by decide +kernel
  have first : ∃ t, Runs.run step {} testFiber = some t ∧ t.ptrs.population = 0 :=
    ⟨_, rfl, by decide +kernel⟩
  have second : ∃ t, Runs.run step {} droppedInside = some t := ⟨_, rfl⟩
  obtain ⟨t, ran, population⟩ := first
  obtain ⟨u, broke⟩ := second
  exact ⟨⟨t, ran, (held_to_the_end_iff ran).mpr held, population⟩,
    u, broke, fun sound => dropped ((held_to_the_end_iff broke).mp sound)⟩

example : (Runs.run step {} [.create 0, .resume 1 0, .yield 1 true]).map
    (fun s => s.ptrs.use_count 0) = some 3 := by decide +kernel

/-- A frame that `reset` left on the stack still counts. -/
structure Stale (s : Fibers) (p : PiberId) (activation : ℕ) : Prop where
  cur : s.ptrs.points (.cur p activation) = some p
  past : activation < s.activation p

theorem stale_step {n : ℕ} (stale : Stale s p n) (stepped : step s a = some t) : Stale t p n := by
  have elsewhere : ∀ x now, x ≠ .cur p n →
      Function.update s.ptrs.points x now (.cur p n) = some p := fun x now apart => by
    rw [Function.update_of_ne (Ne.symm apart)]
    exact stale.cur
  have frame : ∀ q, FiberVar.cur q (s.activation q) ≠ .cur p n := by
    rintro q ⟨⟩
    exact Nat.lt_irrefl _ stale.past
  cases a with
  | create i =>
    cases stepped
    exact ⟨by simpa using stale.cur, stale.past⟩
  | copy i j | drop i =>
    cases stepped
    exact ⟨by simpa using stale.cur, stale.past⟩
  | getThis w i =>
    obtain ⟨q, -, rfl⟩ := Option.map_eq_some_iff.mp stepped
    exact ⟨by simpa using stale.cur, stale.past⟩
  | resume w i =>
    simp only [step] at stepped
    split at stepped
    · obtain ⟨q, _, resumed⟩ := Option.bind_eq_some_iff.mp stepped
      unfold resume at resumed
      split at resumed <;> cases resumed
      · refine ⟨?_, stale.past⟩
        rw [Heap.assign_points]
        exact elsewhere _ _ (frame q)
      · exact ⟨by simpa using stale.cur, stale.past⟩
      · exact ⟨stale.cur, stale.past⟩
    · cases stepped
  | reset i =>
    obtain ⟨q, _, again⟩ := Option.bind_eq_some_iff.mp stepped
    have past : n < Function.update s.activation q (s.activation q + 1) p := by
      by_cases same : p = q
      · subst q
        rw [Function.update_self]
        exact Nat.lt_succ_of_lt stale.past
      · rw [Function.update_of_ne same]
        exact stale.past
    unfold reset at again
    split at again <;> cases again <;> exact ⟨stale.cur, past⟩
  | yield w temporary =>
    obtain ⟨q, -, rfl⟩ := Option.map_eq_some_iff.mp stepped
    refine ⟨?_, stale.past⟩
    cases temporary <;> simpa [Fibers.yield] using stale.cur
  | finish w =>
    obtain ⟨q, -, rfl⟩ := Option.map_eq_some_iff.mp stepped
    refine ⟨?_, stale.past⟩
    simp only [Fibers.finish, Heap.reset_points]
    exact elsewhere _ _ (frame q)
  | leave w =>
    obtain ⟨q, -, rfl⟩ := Option.map_eq_some_iff.mp stepped
    exact ⟨stale.cur, stale.past⟩

/-- A fiber that was reset between two of its segments is never destroyed, as
the pointer in its old frame is never dropped. -/
theorem reset_suspended_leaks {u : Fibers} (reached : Runs.Reachable step {} s)
    (found : s.ptrs.points (.user i) = some p) (suspended : s.stage p = .suspended)
    (again : step s (.reset i) = some t) (later : Runs.Reachable step t u) :
    u.ptrs.alive p = true := by
  have kept : Kept s := reached.invariant Kept kept_empty fun _ _ _ kept _ stepped =>
    kept_step kept stepped
  have stale : Stale t p (s.activation p) := by
    simp only [step, found, Option.bind_some, reset, suspended, Option.some.injEq] at again
    subst again
    exact ⟨kept.frames p (.inr suspended), by simp⟩
  have both : Kept u ∧ Stale u p (s.activation p) :=
    later.invariant (fun u => Kept u ∧ Stale u p (s.activation p))
      ⟨kept_step kept again, stale⟩ fun _ _ _ ⟨kept, stale⟩ _ stepped =>
        ⟨kept_step kept stepped, stale_step stale stepped⟩
  exact both.1.alive both.2.cur

/-- The fiber is reset behind its first `yield`, run to its end and dropped. -/
theorem reset_behind_yield_leaks :
    ∃ u, Runs.run step {} [.create 0, .resume 1 0, .yield 1 true, .reset 0, .resume 1 0, .finish 1,
      .leave 1, .drop 0] = some u ∧ u.ptrs.points (.user 0) = none ∧ u.ptrs.alive 0 = true := by
  have start : ∃ s t, Runs.run step {} [.create 0, .resume 1 0, .yield 1 true] = some s ∧
      s.ptrs.points (.user 0) = some 0 ∧ s.stage 0 = .suspended ∧
      step s (.reset 0) = some t ∧
      ∃ u, Runs.run step t [.resume 1 0, .finish 1, .leave 1, .drop 0] = some u ∧
        u.ptrs.points (.user 0) = none ∧ Runs.run step {} [.create 0, .resume 1 0, .yield 1 true,
          .reset 0, .resume 1 0, .finish 1, .leave 1, .drop 0] = some u :=
    ⟨_, _, rfl, rfl, rfl, rfl, _, rfl, rfl, rfl⟩
  obtain ⟨s, t, before, found, suspended, again, u, after, empty, whole⟩ := start
  exact ⟨u, whole, empty, reset_suspended_leaks (Runs.reachable_of_run _ before) found suspended
    again (Runs.reachable_of_run _ after)⟩

end Fibers
end Synergy
