import Mathlib.Data.Fintype.EquivFin
import Mathlib.Order.WellFounded
import Synergy.Runs
import Synergy.Tally

/-! Threads that share locks and start one another. A thread that takes locks in
the order of their levels only, and gives back what it took, can hang on a lock
only behind a thread that waits for a lock of a higher level; so among such
threads somebody can always go on. The creator of a thread waits until the new
thread has notified it, and may hold locks meanwhile, since the new thread
notifies before it takes any. -/
namespace Synergy.Locks

inductive Mode where
  | shared
  | exclusive
  deriving DecidableEq, Repr

/-- What a program does to the locks. At `clear` it calls code that may take
locks itself, or gives up its thread for a while. -/
inductive Instr (R : Type) where
  | acquire (r : R) (mode : Mode)
  | release (r : R)
  | create
  | clear
  deriving DecidableEq, Repr

/-- A new thread has to notify its creator, who waits for it. -/
inductive Phase (T : Type) where
  | ready
  | starting
  | awaiting (child : T)
  deriving DecidableEq, Repr

structure World (T R : Type) where
  owners : R → List (T × Mode) := fun _ => []
  todo : T → List (Instr R) := fun _ => []
  phase : T → Phase T := fun _ => .ready
  born : Finset T

inductive Action (T R : Type) where
  | call (t : T) (program : List (Instr R))
  | next (t : T)
  | create (t child : T)
  deriving DecidableEq, Repr

variable {T R : Type} [DecidableEq T] [DecidableEq R]

namespace World

/-- Whether the lock would be granted. A reader may have to wait for writers that
wait themselves. -/
def Free (writersFirst : Bool) (w : World T R) (r : R) : Mode → Prop
  | .exclusive => w.owners r = []
  | .shared => (∀ o ∈ w.owners r, o.2 = .shared) ∧
      (writersFirst = true → ∀ u ∈ w.born, (w.todo u).head? ≠ some (.acquire r .exclusive))

instance (writersFirst : Bool) (w : World T R) (r : R) :
    (mode : Mode) → Decidable (w.Free writersFirst r mode)
  | .exclusive => inferInstanceAs (Decidable (_ = _))
  | .shared => inferInstanceAs (Decidable (_ ∧ _))

/-- A thread may be called while it does nothing, or from a `clear`. -/
def Callable (w : World T R) (t : T) : Prop :=
  t ∈ w.born ∧ w.phase t = .ready ∧
    ((w.todo t).head? = none ∨ (w.todo t).head? = some .clear)

instance (w : World T R) (t : T) : Decidable (w.Callable t) :=
  inferInstanceAs (Decidable (_ ∧ _ ∧ _))

@[simp] def advance (w : World T R) (t : T) (rest : List (Instr R)) : World T R :=
  { w with todo := Function.update w.todo t rest }

/-- The next instruction of a thread that is neither starting nor waiting. -/
def instrStep (writersFirst : Bool) (w : World T R) (t : T) : Option (World T R) :=
  match w.todo t with
  | .acquire r mode :: rest =>
    if w.Free writersFirst r mode then
      some { w.advance t rest with
        owners := Function.update w.owners r ((t, mode) :: w.owners r) }
    else none
  | .release r :: rest =>
    if ∃ o ∈ w.owners r, o.1 = t then
      some { w.advance t rest with
        owners := Function.update w.owners r ((w.owners r).filter fun o => o.1 ≠ t) }
    else none
  | .clear :: rest => some (w.advance t rest)
  | _ => none

def step (writersFirst : Bool) (w : World T R) : Action T R → Option (World T R)
  | .call t program => if w.Callable t then some (w.advance t (program ++ w.todo t)) else none
  | .next t =>
    match w.phase t with
    | .starting => some { w with phase := Function.update w.phase t .ready }
    | .awaiting child =>
      if w.phase child = .starting then none
      else some { w with phase := Function.update w.phase t .ready }
    | .ready => w.instrStep writersFirst t
  | .create t child =>
    match w.phase t, w.todo t with
    | .ready, .create :: rest =>
      if child ∈ w.born then none
      else some { w.advance t rest with
        phase := Function.update (Function.update w.phase t (.awaiting child)) child .starting
        born := insert child w.born }
    | _, _ => none

/-- The locks of a thread. -/
def heldBy (w : World T R) (t : T) : Set R := {r | ∃ mode, (t, mode) ∈ w.owners r}

end World

/-- From these locks held the program leads to those, takes locks upwards only,
and holds none where it calls out. -/
def Leads {L : Type} [Preorder L] (level : R → L) (held : Set R) :
    List (Instr R) → Set R → Prop
  | [], left => held = left
  | .acquire r _ :: rest, left =>
    (∀ h ∈ held, level h < level r) ∧ Leads level (insert r held) rest left
  | .release r :: rest, left => r ∈ held ∧ Leads level (held \ {r}) rest left
  | .create :: rest, left => Leads level held rest left
  | .clear :: rest, left => held = ∅ ∧ Leads level held rest left

/-- The program ends with no lock. -/
abbrev Disciplined {L : Type} [Preorder L] (level : R → L) (held : Set R)
    (program : List (Instr R)) : Prop := Leads level held program ∅

variable {L : Type} [Preorder L] {level : R → L}

omit [DecidableEq R] in
theorem Leads.append {held middle left : Set R} {program rest : List (Instr R)}
    (first : Leads level held program middle) (second : Leads level middle rest left) :
    Leads level held (program ++ rest) left := by
  induction program generalizing held with
  | nil =>
    have same : held = middle := first
    rw [same]
    exact second
  | cons instr program ih =>
    cases instr with
    | acquire r mode => exact ⟨first.1, ih first.2⟩
    | release r => exact ⟨first.1, ih first.2⟩
    | create => exact ih first
    | clear => exact ⟨first.1, ih first.2⟩

/-- One step, by what it does. -/
inductive Move (writersFirst : Bool) (w : World T R) : Action T R → World T R → Prop where
  | called {t : T} {program : List (Instr R)} (callable : w.Callable t) :
      Move writersFirst w (.call t program) (w.advance t (program ++ w.todo t))
  | acquired {t : T} {r : R} {mode : Mode} {rest : List (Instr R)} (ready : w.phase t = .ready)
      (next : w.todo t = .acquire r mode :: rest) (free : w.Free writersFirst r mode) :
      Move writersFirst w (.next t) { w.advance t rest with
        owners := Function.update w.owners r ((t, mode) :: w.owners r) }
  | released {t : T} {r : R} {rest : List (Instr R)} (ready : w.phase t = .ready)
      (next : w.todo t = .release r :: rest) :
      Move writersFirst w (.next t) { w.advance t rest with
        owners := Function.update w.owners r ((w.owners r).filter fun o => o.1 ≠ t) }
  | cleared {t : T} {rest : List (Instr R)} (ready : w.phase t = .ready)
      (next : w.todo t = .clear :: rest) :
      Move writersFirst w (.next t) (w.advance t rest)
  | notified {t : T} (starting : w.phase t = .starting) :
      Move writersFirst w (.next t) { w with phase := Function.update w.phase t .ready }
  | awaited {t child : T} (awaiting : w.phase t = .awaiting child)
      (done : w.phase child ≠ .starting) :
      Move writersFirst w (.next t) { w with phase := Function.update w.phase t .ready }
  | created {t child : T} {rest : List (Instr R)} (ready : w.phase t = .ready)
      (next : w.todo t = .create :: rest) (fresh : child ∉ w.born) :
      Move writersFirst w (.create t child) { w.advance t rest with
        phase := Function.update (Function.update w.phase t (.awaiting child)) child .starting
        born := insert child w.born }

variable {writersFirst : Bool} {v w : World T R} {t : T} {r : R}

theorem move_of_step {a : Action T R} (stepped : w.step writersFirst a = some v) :
    Move writersFirst w a v := by
  cases a with
  | call t program =>
    simp only [World.step] at stepped
    split at stepped <;> cases stepped
    exact .called ‹_›
  | next t =>
    simp only [World.step] at stepped
    split at stepped
    · cases stepped
      exact .notified ‹_›
    · split at stepped <;> cases stepped
      exact .awaited ‹_› ‹_›
    · unfold World.instrStep at stepped
      split at stepped
      · split at stepped <;> cases stepped
        exact .acquired ‹_› ‹_› ‹_›
      · split at stepped <;> cases stepped
        exact .released ‹_› ‹_›
      · cases stepped
        exact .cleared ‹_› ‹_›
      · cases stepped
  | create t child =>
    simp only [World.step] at stepped
    split at stepped
    · split at stepped <;> cases stepped
      exact .created ‹_› ‹_› ‹_›
    · cases stepped

/-- What holds while every call is of a disciplined program. -/
structure Orderly (level : R → L) (w : World T R) : Prop where
  disciplined : ∀ t, Disciplined level (w.heldBy t) (w.todo t)
  exclusive : ∀ r t, (t, .exclusive) ∈ w.owners r → w.owners r = [(t, .exclusive)]
  unborn : ∀ t ∉ w.born, w.todo t = [] ∧ w.phase t = .ready

/-- The calls are of disciplined programs. -/
def Orders (level : R → L) (_ : World T R) : Action T R → Prop
  | .call _ program => Disciplined level ∅ program
  | _ => True

omit [DecidableEq T] [DecidableEq R] in
/-- Before any call. -/
theorem orderly_initial (level : R → L) (members : Finset T) :
    Orderly level { born := members } where
  disciplined t := by simp [World.heldBy, Leads]
  exclusive r t owns := by simp at owns
  unborn t _ := ⟨rfl, rfl⟩

omit [DecidableEq T] in
theorem heldBy_acquired (w : World T R) (t u : T) (r : R) (mode : Mode)
    (owners : v.owners = Function.update w.owners r ((t, mode) :: w.owners r)) :
    v.heldBy u = {q | q ∈ w.heldBy u ∨ u = t ∧ q = r} := by
  ext q
  by_cases same : q = r
  · subst q
    simp only [World.heldBy, owners, Function.update_self, Set.mem_ofPred_eq, List.mem_cons,
      Prod.mk.injEq, and_true]
    constructor
    · rintro ⟨other, ⟨here, -⟩ | before⟩
      · exact .inr here
      · exact .inl ⟨other, before⟩
    · rintro (⟨other, before⟩ | here)
      · exact ⟨other, .inr before⟩
      · exact ⟨mode, .inl ⟨here, rfl⟩⟩
  · simp [World.heldBy, owners, same]

theorem heldBy_released (w : World T R) (t u : T) (r : R)
    (owners : v.owners = Function.update w.owners r ((w.owners r).filter fun o => o.1 ≠ t)) :
    v.heldBy u = {q | q ∈ w.heldBy u ∧ ¬ (u = t ∧ q = r)} := by
  ext q
  by_cases same : q = r
  · subst q
    simp [World.heldBy, owners]
  · simp [World.heldBy, owners, same]

omit [DecidableEq T] [DecidableEq R] in
theorem Orderly.held_nothing (orderly : Orderly level w)
    (open_for : (w.todo t).head? = none ∨ (w.todo t).head? = some .clear) : w.heldBy t = ∅ := by
  have disciplined := orderly.disciplined t
  cases todo : w.todo t with
  | nil =>
    rw [todo] at disciplined
    exact disciplined
  | cons instr rest =>
    rw [todo] at open_for disciplined
    have clear : instr = .clear := by simpa using open_for
    subst clear
    exact disciplined.1

omit [DecidableEq T] [DecidableEq R] in
theorem Orderly.born_of_next {instr : Instr R} {rest : List (Instr R)} (orderly : Orderly level w)
    (next : w.todo t = instr :: rest) : t ∈ w.born := by
  by_contra out
  rw [(orderly.unborn t out).1] at next
  cases next

omit [DecidableEq R] in
/-- A step of one thread that leaves the locks of the others alone. -/
private theorem Orderly.one_thread {rest : List (Instr R)} (orderly : Orderly level w)
    (alive : t ∈ w.born) (todo : v.todo = Function.update w.todo t rest)
    (phase : v.phase = w.phase) (born : v.born = w.born)
    (here : Disciplined level (v.heldBy t) rest)
    (others : ∀ u, u ≠ t → v.heldBy u = w.heldBy u)
    (exclusive : ∀ r u, (u, .exclusive) ∈ v.owners r → v.owners r = [(u, .exclusive)]) :
    Orderly level v where
  disciplined u := by
    rw [todo]
    by_cases same : u = t
    · subst u
      rw [Function.update_self]
      exact here
    · rw [Function.update_of_ne same, others u same]
      exact orderly.disciplined u
  exclusive := exclusive
  unborn u out := by
    rw [born] at out
    have apart : u ≠ t := fun same => out (same ▸ alive)
    rw [todo, phase, Function.update_of_ne apart]
    exact orderly.unborn u out

omit [DecidableEq T] [DecidableEq R] in
/-- A step that moves phases only. -/
private theorem Orderly.phases (orderly : Orderly level w) (owners : v.owners = w.owners)
    (todo : v.todo = w.todo) (unborn : ∀ u ∉ v.born, u ∉ w.born ∧ v.phase u = w.phase u) :
    Orderly level v where
  disciplined u := by
    have held : v.heldBy u = w.heldBy u := by simp [World.heldBy, owners]
    rw [held, todo]
    exact orderly.disciplined u
  exclusive := by
    rw [owners]
    exact orderly.exclusive
  unborn u out := by
    obtain ⟨before, same⟩ := unborn u out
    rw [todo, same]
    exact orderly.unborn u before

omit [DecidableEq T] in
/-- A lock that is granted is granted to nobody else who could not share it. -/
private theorem exclusive_acquired (orderly : Orderly level w) {mode : Mode}
    (free : w.Free writersFirst r mode)
    (owners : v.owners = Function.update w.owners r ((t, mode) :: w.owners r)) (q : R) (u : T)
    (owns : (u, .exclusive) ∈ v.owners q) : v.owners q = [(u, .exclusive)] := by
  by_cases same : q = r
  · subst q
    rw [owners, Function.update_self] at owns ⊢
    cases mode with
    | exclusive =>
      have nobody : w.owners r = [] := free
      rw [nobody] at owns ⊢
      rw [List.mem_singleton.mp owns]
    | shared =>
      rcases List.mem_cons.mp owns with here | before
      · cases here
      · cases free.1 _ before
  · rw [owners, Function.update_of_ne same] at owns ⊢
    exact orderly.exclusive q u owns

private theorem exclusive_released (orderly : Orderly level w)
    (owners : v.owners = Function.update w.owners r ((w.owners r).filter fun o => o.1 ≠ t))
    (q : R) (u : T) (owns : (u, .exclusive) ∈ v.owners q) : v.owners q = [(u, .exclusive)] := by
  by_cases same : q = r
  · subst q
    rw [owners, Function.update_self] at owns ⊢
    obtain ⟨before, apart⟩ := List.mem_filter.mp owns
    rw [orderly.exclusive r u before]
    simpa using apart
  · rw [owners, Function.update_of_ne same] at owns ⊢
    exact orderly.exclusive q u owns

theorem orderly_move {a : Action T R} (orderly : Orderly level w) (orders : Orders level w a)
    (moved : Move writersFirst w a v) : Orderly level v := by
  cases moved with
  | @called t program callable =>
    obtain ⟨alive, ready, open_for⟩ := callable
    refine orderly.one_thread alive rfl rfl rfl ?_ (fun _ _ => rfl) orderly.exclusive
    have behind := orderly.disciplined t
    have called : Disciplined level ∅ program := orders
    change Disciplined level (w.heldBy t) _
    rw [orderly.held_nothing open_for] at behind ⊢
    exact called.append behind
  | @acquired t r mode rest ready next free =>
    have held := fun u => heldBy_acquired (v := { w.advance t rest with
      owners := Function.update w.owners r ((t, mode) :: w.owners r) }) w t u r mode rfl
    have disciplined := orderly.disciplined t
    rw [next] at disciplined
    refine orderly.one_thread (orderly.born_of_next next) rfl rfl rfl ?_ (fun u apart => ?_)
      (exclusive_acquired orderly free rfl)
    · rw [held t]
      convert disciplined.2 using 1
      ext q
      simp [or_comm]
    · rw [held u]
      simp [apart]
  | @released t r rest ready next =>
    have held := fun u => heldBy_released (v := { w.advance t rest with
      owners := Function.update w.owners r ((w.owners r).filter fun o => o.1 ≠ t) }) w t u r rfl
    have disciplined := orderly.disciplined t
    rw [next] at disciplined
    refine orderly.one_thread (orderly.born_of_next next) rfl rfl rfl ?_ (fun u apart => ?_)
      (exclusive_released orderly rfl)
    · rw [held t]
      convert disciplined.2 using 1
      ext q
      simp
    · rw [held u]
      simp [apart]
  | @cleared t rest ready next =>
    have disciplined := orderly.disciplined t
    rw [next] at disciplined
    exact orderly.one_thread (orderly.born_of_next next) rfl rfl rfl disciplined.2
      (fun _ _ => rfl) orderly.exclusive
  | @notified t starting =>
    refine orderly.phases rfl rfl fun u out => ⟨out, ?_⟩
    have apart : u ≠ t := by
      rintro rfl
      rw [(orderly.unborn u out).2] at starting
      cases starting
    simp [apart]
  | @awaited t child awaiting done =>
    refine orderly.phases rfl rfl fun u out => ⟨out, ?_⟩
    have apart : u ≠ t := by
      rintro rfl
      rw [(orderly.unborn u out).2] at awaiting
      cases awaiting
    simp [apart]
  | @created t child rest ready next fresh =>
    have disciplined := orderly.disciplined t
    rw [next] at disciplined
    have alive := orderly.born_of_next next
    have advanced : Orderly level (w.advance t rest) :=
      orderly.one_thread alive rfl rfl rfl disciplined (fun _ _ => rfl) orderly.exclusive
    refine advanced.phases rfl rfl fun u out => ?_
    simp only [Finset.mem_insert, not_or] at out
    have apart : u ≠ t := fun same => out.2 (same ▸ alive)
    exact ⟨out.2, by simp [out.1, apart]⟩

/-- A step of a call in progress. -/
def Action.Inner : Action T R → Prop
  | .call _ _ => False
  | _ => True

instance : (a : Action T R) → Decidable a.Inner
  | .call _ _ => .isFalse id
  | .next _ | .create _ _ => .isTrue trivial

/-- Somebody can go on. -/
def World.Able (writersFirst : Bool) (w : World T R) : Prop :=
  ∃ a v, Action.Inner a ∧ w.step writersFirst a = some v

/-- The thread has a call in progress. -/
def World.Busy (w : World T R) (t : T) : Prop := w.phase t ≠ .ready ∨ w.todo t ≠ []

private theorem able_of_starting (starting : w.phase t = .starting) : w.Able writersFirst := by
  refine ⟨.next t, { w with phase := Function.update w.phase t .ready }, trivial, ?_⟩
  simp [World.step, starting]

theorem able_of_phase (writersFirst : Bool) (working : w.phase t ≠ .ready) :
    w.Able writersFirst := by
  cases phase : w.phase t with
  | ready => exact absurd phase working
  | starting => exact able_of_starting phase
  | awaiting child =>
    by_cases starting : w.phase child = .starting
    · exact able_of_starting starting
    · refine ⟨.next t, { w with phase := Function.update w.phase t .ready }, trivial, ?_⟩
      simp [World.step, phase, starting]

private theorem able_of_instr (ready : w.phase t = .ready) (v : World T R)
    (stepped : w.instrStep writersFirst t = some v) : w.Able writersFirst :=
  ⟨.next t, v, trivial, by simpa only [World.step, ready] using stepped⟩

private theorem able_of_granted {mode : Mode} {rest : List (Instr R)} (ready : w.phase t = .ready)
    (next : w.todo t = .acquire r mode :: rest) (free : w.Free writersFirst r mode) :
    w.Able writersFirst := by
  refine able_of_instr ready { w.advance t rest with
    owners := Function.update w.owners r ((t, mode) :: w.owners r) } ?_
  simp only [World.instrStep, next, free, if_true]

private theorem able_of_release {rest : List (Instr R)} (ready : w.phase t = .ready)
    (next : w.todo t = .release r :: rest) (owns : r ∈ w.heldBy t) : w.Able writersFirst := by
  obtain ⟨mode, owned⟩ := owns
  have own : ∃ o ∈ w.owners r, o.1 = t := ⟨_, owned, rfl⟩
  refine able_of_instr ready { w.advance t rest with
    owners := Function.update w.owners r ((w.owners r).filter fun o => o.1 ≠ t) } ?_
  simp only [World.instrStep, next, own, if_true]

private theorem able_of_clear {rest : List (Instr R)} (ready : w.phase t = .ready)
    (next : w.todo t = .clear :: rest) : w.Able writersFirst := by
  refine able_of_instr ready (w.advance t rest) ?_
  simp only [World.instrStep, next]

private theorem able_of_create [Infinite T] {rest : List (Instr R)} (ready : w.phase t = .ready)
    (next : w.todo t = .create :: rest) : w.Able writersFirst := by
  obtain ⟨child, fresh⟩ := Infinite.exists_notMem_finset w.born
  refine ⟨.create t child, { w.advance t rest with
    phase := Function.update (Function.update w.phase t (.awaiting child)) child .starting
    born := insert child w.born }, trivial, ?_⟩
  simp only [World.step, ready, next, fresh, if_false]

/-- A thread that owns a lock can go on, or hangs on one of a higher level. -/
private theorem able_of_owner [Infinite T] (orderly : Orderly level w) (owns : r ∈ w.heldBy t)
    (higher : ∀ q mode rest, level r < level q → w.phase t = .ready →
      w.todo t = .acquire q mode :: rest → w.Able writersFirst) : w.Able writersFirst := by
  by_cases ready : w.phase t = .ready
  · have disciplined := orderly.disciplined t
    cases todo : w.todo t with
    | nil =>
      have nothing : w.heldBy t = ∅ := orderly.held_nothing (by simp [todo])
      rw [nothing] at owns
      cases owns
    | cons instr rest =>
      rw [todo] at disciplined
      cases instr with
      | acquire q mode => exact higher q mode rest (disciplined.1 r owns) ready todo
      | release q => exact able_of_release ready todo disciplined.1
      | create => exact able_of_create ready todo
      | clear => exact able_of_clear ready todo
  · exact able_of_phase writersFirst ready

omit [DecidableEq T] [DecidableEq R] in
/-- Who does not get a lock finds an owner of it, or a writer that waits. -/
private theorem owner_or_writer {mode : Mode}
    (refused : ¬ w.Free writersFirst r mode) :
    (∃ u, r ∈ w.heldBy u) ∨ ∃ u rest, w.todo u = .acquire r .exclusive :: rest := by
  have somebody : ∀ o ∈ w.owners r, ∃ u, r ∈ w.heldBy u := fun o owns => ⟨o.1, o.2, owns⟩
  cases mode with
  | exclusive =>
    obtain ⟨o, owns⟩ := List.exists_mem_of_ne_nil _ refused
    exact .inl (somebody o owns)
  | shared =>
    by_cases shared : ∀ o ∈ w.owners r, o.2 = .shared
    · have waiting : ∃ u ∈ w.born, (w.todo u).head? = some (.acquire r .exclusive) := by
        by_contra none_waits
        exact refused ⟨shared, fun _ u alive here => none_waits ⟨u, alive, here⟩⟩
      obtain ⟨u, -, head⟩ := waiting
      obtain ⟨rest, todo⟩ := List.head?_eq_some_iff.mp head
      exact .inr ⟨u, rest, todo⟩
    · push Not at shared
      obtain ⟨o, owns, -⟩ := shared
      exact .inl (somebody o owns)

/-- By induction on the level of the lock, from above. -/
private theorem able_of_acquire [Infinite T] [WellFoundedGT L] (orderly : Orderly level w) (l : L) :
    ∀ t r mode rest, level r = l → w.phase t = .ready → w.todo t = .acquire r mode :: rest →
      w.Able writersFirst := by
  induction l using WellFoundedGT.induction with
  | ind l above =>
    intro t r mode rest at_level ready next
    have behind_owner : (∃ u, r ∈ w.heldBy u) → w.Able writersFirst := by
      rintro ⟨u, owns⟩
      refine able_of_owner orderly owns fun q mode' rest' higher ready' next' => ?_
      exact above (level q) (at_level ▸ higher) u q mode' rest' rfl ready' next'
    by_cases free : w.Free writersFirst r mode
    · exact able_of_granted ready next free
    · rcases owner_or_writer free with owner | ⟨u, rest', writer⟩
      · exact behind_owner owner
      · -- the writer that waits gets the lock, or finds an owner
        by_cases ready' : w.phase u = .ready
        · by_cases free' : w.Free writersFirst r .exclusive
          · exact able_of_granted ready' writer free'
          · obtain ⟨o, owns⟩ := List.exists_mem_of_ne_nil _ free'
            exact behind_owner ⟨o.1, o.2, owns⟩
        · exact able_of_phase writersFirst ready'

/-- **No deadlock.** While a call is in progress, somebody can go on. -/
theorem Orderly.able [Infinite T] [WellFoundedGT L] (orderly : Orderly level w)
    (busy : w.Busy t) : w.Able writersFirst := by
  by_cases ready : w.phase t = .ready
  · cases todo : w.todo t with
    | nil => exact absurd busy (by simp [World.Busy, ready, todo])
    | cons instr rest =>
      cases instr with
      | acquire r mode => exact able_of_acquire orderly (level r) t r mode rest rfl ready todo
      | release r =>
        have disciplined := orderly.disciplined t
        rw [todo] at disciplined
        exact able_of_release ready todo disciplined.1
      | create => exact able_of_create ready todo
      | clear => exact able_of_clear ready todo
  · exact able_of_phase writersFirst ready

def Instr.cost : Instr R → ℤ
  | .create => 3
  | _ => 1

def Phase.cost : Phase T → ℤ
  | .ready => 0
  | _ => 1

/-- The steps that a program takes, with those of the threads it starts. -/
def programCost : List (Instr R) → ℤ
  | [] => 0
  | instr :: rest => instr.cost + programCost rest

/-- The steps that the calls of the thread have yet to take. -/
def World.cost (w : World T R) (t : T) : ℤ := (w.phase t).cost + programCost (w.todo t)

omit [DecidableEq R] in
theorem Instr.cost_pos (instr : Instr R) : 0 < instr.cost := by
  cases instr <;> simp [Instr.cost]

omit [DecidableEq T] in
theorem Phase.cost_nonneg (phase : Phase T) : 0 ≤ phase.cost := by
  cases phase <;> simp [Phase.cost]

omit [DecidableEq R] in
theorem programCost_nonneg (program : List (Instr R)) : 0 ≤ programCost program := by
  induction program with
  | nil => exact le_refl 0
  | cons instr rest ih =>
    have positive := instr.cost_pos
    unfold programCost
    omega

omit [DecidableEq T] [DecidableEq R] in
theorem World.cost_nonneg (w : World T R) (t : T) : 0 ≤ w.cost t :=
  add_nonneg (w.phase t).cost_nonneg (programCost_nonneg _)

omit [DecidableEq T] [DecidableEq R] in
/-- Who has nothing to do is idle. -/
theorem idle_of_cost (spent : w.cost t = 0) : ¬ w.Busy t := by
  have phase_cost := (w.phase t).cost_nonneg
  have todo_cost := programCost_nonneg (w.todo t)
  unfold World.cost at spent
  rintro (working | left)
  · cases phase : w.phase t <;> simp_all [Phase.cost] <;> omega
  · obtain ⟨instr, rest, todo⟩ := List.exists_cons_of_ne_nil left
    have positive := instr.cost_pos
    have rest_cost := programCost_nonneg rest
    rw [todo, programCost] at spent
    omega

omit [DecidableEq T] [DecidableEq R] in
theorem Orderly.total (orderly : Orderly level w) : ∃ n, Tally.Totals w.cost n := by
  refine ⟨_, w.born, fun t out => ?_, rfl⟩
  obtain ⟨todo, phase⟩ := orderly.unborn t out
  simp [World.cost, programCost, todo, phase, Phase.cost]

/-- Every inner step pays one. -/
theorem cost_move {a : Action T R} {n : ℤ} (orderly : Orderly level w)
    (total : Tally.Totals w.cost n) (inner : a.Inner) (moved : Move writersFirst w a v) :
    Tally.Totals v.cost (n - 1) := by
  have one_thread : ∀ {v : World T R} (t : T), (∀ u, u ≠ t → v.cost u = w.cost u) →
      v.cost t = w.cost t - 1 → Tally.Totals v.cost (n - 1) := by
    intro v t others here
    have changed := total.change (g := v.cost) others
    rwa [here, sub_sub_cancel_left] at changed
  cases moved with
  | called => cases inner
  | @acquired t r mode rest ready next =>
    refine one_thread t (fun u apart => by simp [World.cost, apart]) ?_
    simp [World.cost, programCost, next, Instr.cost]
    omega
  | @released t r rest ready next =>
    refine one_thread t (fun u apart => by simp [World.cost, apart]) ?_
    simp [World.cost, programCost, next, Instr.cost]
    omega
  | @cleared t rest ready next =>
    refine one_thread t (fun u apart => by simp [World.cost, apart]) ?_
    simp [World.cost, programCost, next, Instr.cost]
    omega
  | @notified t starting =>
    refine one_thread t (fun u apart => by simp [World.cost, apart]) ?_
    simp [World.cost, starting, Phase.cost]
  | @awaited t child awaiting =>
    refine one_thread t (fun u apart => by simp [World.cost, apart]) ?_
    simp [World.cost, awaiting, Phase.cost]
  | @created t child rest ready next fresh =>
    have alive := orderly.born_of_next next
    have apart : child ≠ t := fun same => fresh (same ▸ alive)
    obtain ⟨idle, quiet⟩ := orderly.unborn child fresh
    let waiting : World T R := { w.advance t rest with
      phase := Function.update w.phase t (.awaiting child) }
    have first := total.change (g := waiting.cost) (i := t) fun u other => by
      simp [waiting, World.cost, other]
    have second := first.change (i := child) (g := World.cost { w.advance t rest with
        phase := Function.update (Function.update w.phase t (.awaiting child)) child .starting
        born := insert child w.born }) fun u other => by
      simp [waiting, World.cost, other]
    convert second using 1
    simp [waiting, World.cost, programCost, apart, ready, next, idle, quiet, Instr.cost,
      Phase.cost]
    omega

/-- A run of inner steps pays its length. -/
theorem cost_run {n : ℤ} (orderly : Orderly level w) (total : Tally.Totals w.cost n)
    (schedule : List (Action T R)) (inner : ∀ a ∈ schedule, a.Inner)
    (ran : Runs.run (World.step writersFirst) w schedule = some v) :
    Orderly level v ∧ Tally.Totals v.cost (n - schedule.length) := by
  induction schedule generalizing w n with
  | nil =>
    cases ran
    simpa using ⟨orderly, total⟩
  | cons a rest ih =>
    unfold Runs.run at ran
    cases stepped : w.step writersFirst a with
    | none => simp [stepped] at ran
    | some u =>
      simp only [stepped] at ran
      have here := inner a List.mem_cons_self
      have orders : Orders level w a := by
        cases a with
        | call => cases here
        | _ => trivial
      have moved := move_of_step stepped
      obtain ⟨orderly', total'⟩ := ih (orderly_move orderly orders moved)
        (cost_move orderly total here moved) (fun b later => inner b (List.mem_cons_of_mem _ later))
        ran
      refine ⟨orderly', ?_⟩
      convert total' using 1
      simp
      omega

/-- **Every call ends.** Let no new call be made: then all schedules come to rest
after the same number of steps, each can be continued up to there, and at rest
no call is in progress and no lock is taken. -/
theorem Orderly.comes_to_rest [Infinite T] [WellFoundedGT L] (orderly : Orderly level w) :
    ∃ n : ℕ, ∀ schedule v, (∀ a ∈ schedule, Action.Inner a) →
      Runs.run (World.step writersFirst) w schedule = some v → schedule.length ≤ n ∧
      (schedule.length < n → v.Able writersFirst) ∧
      (schedule.length = n → (∀ t, ¬ v.Busy t) ∧ ∀ r, v.owners r = []) := by
  obtain ⟨n, total⟩ := orderly.total
  have positive := total.nonneg w.cost_nonneg
  refine ⟨n.toNat, fun schedule v inner ran => ?_⟩
  obtain ⟨later, left⟩ := cost_run orderly total schedule inner ran
  have bound := left.nonneg v.cost_nonneg
  refine ⟨by omega, fun short => ?_, fun full => ?_⟩
  · have somebody : ∃ t, v.Busy t := by
      by_contra all_idle
      have nothing : Tally.Totals v.cost 0 := Tally.totals_zero fun t => by
        have idle : ¬ v.Busy t := fun busy => all_idle ⟨t, busy⟩
        simp only [World.Busy, not_or, not_not] at idle
        simp [World.cost, programCost, idle.1, idle.2, Phase.cost]
      obtain ⟨members, outside, sum⟩ := left
      have rest := nothing.eq_sum outside
      omega
    obtain ⟨t, busy⟩ := somebody
    exact later.able busy
  · have zero : n - schedule.length = 0 := by omega
    rw [zero] at left
    have idle : ∀ t, ¬ v.Busy t := fun t => idle_of_cost (left.eq_zero v.cost_nonneg t)
    refine ⟨idle, fun r => ?_⟩
    apply List.eq_nil_iff_forall_not_mem.mpr
    rintro ⟨t, mode⟩ owns
    have todo : v.todo t = [] := by
      by_contra some_left
      exact idle t (.inr some_left)
    have nothing := later.held_nothing (t := t) (.inl (by simp [todo]))
    have member : r ∈ v.heldBy t := ⟨mode, owns⟩
    rw [nothing] at member
    cases member

end Synergy.Locks
