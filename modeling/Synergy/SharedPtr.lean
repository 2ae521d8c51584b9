import Synergy.Tally

/-! Shared pointers. A control block counts the variables that point to its
object; the object is destroyed with the last of them. The rules at the end speak
of variables only, so whoever uses them never sees a count. -/
namespace Synergy.SharedPtr
open Tally

/-- Variables from `L` and objects from `O`; `population` is changed where an
object is constructed or destroyed. -/
structure Heap (L O : Type) where
  points : L → Option O := fun _ => none
  use_count : O → ℕ := fun _ => 0
  alive : O → Bool := fun _ => false
  population : ℤ := 0

namespace Heap

variable {L O : Type} [DecidableEq O]

/-- A control block gives up one pointer. -/
def release (h : Heap L O) (o : O) : Heap L O :=
  let left := h.use_count o - 1
  let h := { h with use_count := Function.update h.use_count o left }
  if left = 0 then
    { h with alive := Function.update h.alive o false, population := h.population - 1 }
  else h

/-- What a variable pointed to before it was overwritten. -/
def forget (h : Heap L O) : Option O → Heap L O
  | none => h
  | some o => h.release o

@[simp] theorem forget_points (h : Heap L O) (old : Option O) :
    (h.forget old).points = h.points := by
  cases old with
  | none => rfl
  | some o =>
    simp only [forget, release]
    split <;> rfl

variable [DecidableEq L]

/-- `x.reset()`, and the end of the life of `x`. -/
def reset (h : Heap L O) (x : L) : Heap L O :=
  { h with points := Function.update h.points x none }.forget (h.points x)

/-- `T x = y`, where `y` points to `o`: whatever is in the place of `x` is not
released. -/
def construct (h : Heap L O) (x : L) (o : O) : Heap L O :=
  { h with
    points := Function.update h.points x (some o)
    use_count := Function.update h.use_count o (h.use_count o + 1) }

/-- `x = y`, where `y` points to `o`. -/
def assign (h : Heap L O) (x : L) (o : O) : Heap L O := (h.construct x o).forget (h.points x)

/-- `x = y`. -/
def copy (h : Heap L O) (x y : L) : Heap L O :=
  match h.points y with
  | none => h.reset x
  | some o => h.assign x o

/-- `x.reset(new T)`; the new object is `o`. -/
def make (h : Heap L O) (x : L) (o : O) : Heap L O :=
  { points := Function.update h.points x (some o)
    use_count := Function.update h.use_count o 1
    alive := Function.update h.alive o true
    population := h.population + 1 : Heap L O }.forget (h.points x)

variable {h : Heap L O} {x y : L} {o : O}

@[simp] theorem reset_points : (h.reset x).points = Function.update h.points x none := by
  simp [reset]

@[simp] theorem construct_points :
    (h.construct x o).points = Function.update h.points x (some o) := rfl

@[simp] theorem assign_points :
    (h.assign x o).points = Function.update h.points x (some o) := by
  simp [assign]

@[simp] theorem make_points : (h.make x o).points = Function.update h.points x (some o) := by
  simp [make]

@[simp] theorem copy_points : (h.copy x y).points = Function.update h.points x (h.points y) := by
  cases found : h.points y with
  | none => simp [copy, found]
  | some o => simp [copy, found]

end Heap

variable {L O : Type} [DecidableEq O]

/-- One for a variable that points to the object. -/
def pointer (h : Heap L O) (o : O) (x : L) : ℤ := if h.points x = some o then 1 else 0

/-- The counts are right but for a pointer that is owed to one control block. -/
structure Owed (h : Heap L O) (owed : Option O) : Prop where
  counted : ∀ o, Totals (pointer h o) (h.use_count o - if owed = some o then 1 else 0)
  alive : ∀ o, h.alive o = true ↔ 0 < h.use_count o
  population : Totals (fun o => if h.alive o = true then 1 else 0) h.population

/-- Every control block counts the variables that point to its object, the
objects with such variables are alive, and so many are counted. -/
abbrev Lawful (h : Heap L O) : Prop := Owed h none

variable {h : Heap L O} {x y : L} {o : O} {old : Option O}

theorem pointer_nonneg (h : Heap L O) (o : O) (x : L) : 0 ≤ pointer h o x := by
  unfold pointer
  split <;> omega

theorem lawful_empty : Lawful ({} : Heap L O) where
  counted _ := totals_zero fun _ => rfl
  alive _ := by simp
  population := totals_zero fun _ => rfl

/-- The pointer that was owed is paid, whether or not it was the last. -/
theorem Owed.forget (owed : Owed h old) : Lawful (h.forget old) := by
  cases old with
  | none => exact owed
  | some o =>
    have one : 0 ≤ (h.use_count o : ℤ) - 1 := by
      simpa using (owed.counted o).nonneg (pointer_nonneg h o)
    have count : ∀ q, Totals (pointer h q)
        (Function.update h.use_count o (h.use_count o - 1) q - if none = some q then 1 else 0) := by
      intro q
      have counted := owed.counted q
      by_cases same : q = o
      · subst q
        have step : ((h.use_count o - 1 : ℕ) : ℤ) = h.use_count o - 1 := by omega
        simpa [step] using counted
      · have apart : o ≠ q := fun back => same back.symm
        simpa [Function.update_of_ne same, apart] using counted
    simp only [Heap.forget, Heap.release]
    by_cases last : h.use_count o - 1 = 0
    · rw [if_pos last]
      refine ⟨count, fun q => ?_, ?_⟩
      · by_cases same : q = o
        · subst q
          simp [last]
        · simp [Function.update_of_ne same, owed.alive q]
      · have was : h.alive o = true := (owed.alive o).mpr (by omega)
        have change := owed.population.change
          (g := fun q => if Function.update h.alive o false q = true then 1 else 0) (i := o)
          fun q apart => by simp [Function.update_of_ne apart]
        simpa [was, sub_eq_add_neg] using change
    · rw [if_neg last]
      refine ⟨count, fun q => ?_, owed.population⟩
      show h.alive q = true ↔ 0 < Function.update h.use_count o (h.use_count o - 1) q
      by_cases same : q = o
      · subst q
        rw [Function.update_self, owed.alive o]
        omega
      · rw [Function.update_of_ne same]
        exact owed.alive q

/-- An object that is pointed to is counted, so it is alive; and nothing else
keeps an object alive. -/
theorem Owed.alive_iff (lawful : Lawful h) (o : O) :
    h.alive o = true ↔ ∃ x, h.points x = some o := by
  rw [lawful.alive o]
  have counted : Totals (pointer h o) (h.use_count o) := by simpa using lawful.counted o
  constructor
  · intro used
    by_contra none_points
    have zero : (h.use_count o : ℤ) = ∑ x ∈ (∅ : Finset L), pointer h o x :=
      counted.eq_sum fun x _ => if_neg fun found => none_points ⟨x, found⟩
    rw [Finset.sum_empty] at zero
    omega
  · rintro ⟨x, found⟩
    by_contra unused
    have none_counted : (h.use_count o : ℤ) = 0 := by omega
    rw [none_counted] at counted
    have here := counted.eq_zero (pointer_nonneg h o) x
    simp [pointer, found] at here

variable [DecidableEq L]

/-- A count of one names the only variable. -/
theorem Owed.use_count_eq_one (lawful : Lawful h) (found : h.points x = some o) :
    h.use_count o = 1 ↔ ∀ y, h.points y = some o → y = x := by
  have counted : Totals (pointer h o) (h.use_count o) := by simpa using lawful.counted o
  have here : pointer h o x = 1 := if_pos found
  constructor
  · intro one y also
    by_contra apart
    have rest := counted.change (g := Function.update (pointer h o) x 0) (i := x)
      fun z other => Function.update_of_ne other _ _
    rw [Function.update_self, here, one] at rest
    have none_left := Totals.eq_zero (by simpa using rest) (fun z => by
      by_cases same : z = x
      · simp [same]
      · rw [Function.update_of_ne same]
        exact pointer_nonneg h o z) y
    rw [Function.update_of_ne apart, pointer, if_pos also] at none_left
    cases none_left
  · intro only
    have sum : (h.use_count o : ℤ) = ∑ y ∈ ({x} : Finset L), pointer h o y :=
      counted.eq_sum fun y out => if_neg fun also => out (Finset.mem_singleton.mpr (only y also))
    rw [Finset.sum_singleton, here] at sum
    omega

/-- The counts of the pointers change at the variable that is overwritten. -/
private theorem counted_update {g : Heap L O} (lawful : Lawful h) (q : O) (now : Option O)
    (points : g.points = Function.update h.points x now) :
    Totals (pointer g q) (h.use_count q + ((if now = some q then 1 else 0) -
      if h.points x = some q then 1 else 0)) := by
  have counted : Totals (pointer h q) (h.use_count q) := by simpa using lawful.counted q
  have change := counted.change (g := pointer g q) (i := x) fun y apart => by
    simp [pointer, points, Function.update_of_ne apart]
  simpa [pointer, points] using change

theorem Owed.reset (lawful : Lawful h) (x : L) : Lawful (h.reset x) := by
  refine Owed.forget ⟨fun q => ?_, lawful.alive, lawful.population⟩
  have counted := counted_update (g := { h with points := Function.update h.points x none })
    lawful q none rfl
  simpa [sub_eq_add_neg] using counted

theorem Owed.assign (lawful : Lawful h) (x : L) (live : h.alive o = true) :
    Lawful (h.assign x o) := by
  refine Owed.forget ⟨fun q => ?_, fun q => ?_, lawful.population⟩
  · have counted := counted_update (g := h.construct x o) lawful q (some o) rfl
    by_cases same : q = o
    · subst q
      simpa [Heap.construct, add_sub_assoc] using counted
    · have apart : o ≠ q := fun back => same back.symm
      simpa [Heap.construct, Function.update_of_ne same, apart, sub_eq_add_neg] using counted
  · by_cases same : q = o
    · subst q
      simp [Heap.construct, live]
    · simp [Heap.construct, Function.update_of_ne same, lawful.alive q]

/-- A new variable is one that pointed to nothing. -/
theorem Owed.construct (lawful : Lawful h) (empty : h.points x = none) (live : h.alive o = true) :
    Lawful (h.construct x o) := by
  have assigned := lawful.assign x live
  rwa [Heap.assign, empty, Heap.forget] at assigned

theorem Owed.copy (lawful : Lawful h) (x y : L) : Lawful (h.copy x y) := by
  unfold Heap.copy
  cases found : h.points y with
  | none => exact lawful.reset x
  | some o => exact lawful.assign x ((lawful.alive_iff o).mpr ⟨y, found⟩)

theorem Owed.make (lawful : Lawful h) (x : L) (fresh : ∀ y, h.points y ≠ some o) :
    Lawful (h.make x o) := by
  have dead : h.alive o = false := by
    by_contra live
    obtain ⟨y, found⟩ := (lawful.alive_iff o).mp (by simpa using live)
    exact fresh y found
  have unused : h.use_count o = 0 := by
    by_contra used
    have live := (lawful.alive o).mpr (by omega)
    rw [dead] at live
    cases live
  refine Owed.forget ⟨fun q => ?_, fun q => ?_, ?_⟩
  · have counted := counted_update (g := {
      points := Function.update h.points x (some o)
      use_count := Function.update h.use_count o 1
      alive := Function.update h.alive o true
      population := h.population + 1 }) lawful q (some o) rfl
    by_cases same : q = o
    · subst q
      simpa [unused, fresh x] using counted
    · have apart : o ≠ q := fun back => same back.symm
      simpa [Function.update_of_ne same, apart, sub_eq_add_neg] using counted
  · by_cases same : q = o
    · subst q
      simp
    · simp [Function.update_of_ne same, lawful.alive q]
  · have change := lawful.population.change
      (g := fun q => if Function.update h.alive o true q = true then 1 else 0) (i := o)
      fun q apart => by simp [Function.update_of_ne apart]
    simpa [dead] using change

/-- Which objects live on when one variable is overwritten. -/
theorem Owed.alive_update {g : Heap L O} (lawful : Lawful h) (after : Lawful g) {now : Option O}
    (points : g.points = Function.update h.points x now) (o : O) :
    g.alive o = true ↔
      now = some o ∨ h.alive o = true ∧ (h.points x = some o → h.use_count o ≠ 1) := by
  have kept : h.alive o = true ∧ (h.points x = some o → h.use_count o ≠ 1) ↔
      ∃ y, y ≠ x ∧ h.points y = some o := by
    rw [lawful.alive_iff o]
    constructor
    · rintro ⟨⟨y, found⟩, shared⟩
      by_cases same : y = x
      · subst y
        by_contra alone
        refine shared found ((lawful.use_count_eq_one found).mpr fun z also => ?_)
        by_contra other
        exact alone ⟨z, other, also⟩
      · exact ⟨y, same, found⟩
    · rintro ⟨y, other, found⟩
      exact ⟨⟨y, found⟩, fun here one =>
        other ((lawful.use_count_eq_one here).mp one y found)⟩
  rw [after.alive_iff o, kept, points]
  constructor
  · rintro ⟨y, found⟩
    by_cases same : y = x
    · subst y
      rw [Function.update_self] at found
      exact .inl found
    · rw [Function.update_of_ne same] at found
      exact .inr ⟨y, same, found⟩
  · rintro (here | ⟨y, other, found⟩)
    · exact ⟨x, by rw [Function.update_self, here]⟩
    · exact ⟨y, by rw [Function.update_of_ne other, found]⟩

end Synergy.SharedPtr
