import Synergy.IOManager

/-! The lookup with which `IOManager::addEvent` begins. The test of the size and
the access behind it are under the read lock; where the test fails, the table
grows under the write lock, and other threads may come between. -/
namespace Synergy

/-- The conversion of a size to `int`. -/
def asInt (size : ℕ) : ℤ := (BitVec.ofNat 32 size).toInt

/-- `fd * 1.5`, converted to a size. The product of an `int` is exact in
`double`, and the conversion truncates. -/
def growth (fd : ℕ) : ℕ := fd * 3 / 2

/-- An access of `m_fdContexts`, with the size at that moment. -/
structure TableAccess where
  index : ℕ
  size : ℕ
  deriving DecidableEq, Repr

/-- `m_fdContexts`, the threads between the two locks with their fd, and as
history the accesses. -/
structure FdLookups where
  table : FdTable := {}
  growing : ThreadId → Option ℕ := fun _ => none
  accesses : List TableAccess := []

namespace FdLookups

/-- The section under the read lock, and the section under the write lock. -/
inductive Action where
  | check (thread : ThreadId) (fd : ℕ)
  | grow (thread : ThreadId)
  deriving DecidableEq, Repr

def access (s : FdLookups) (fd : ℕ) : FdLookups :=
  { s with accesses := ⟨fd, s.table.size⟩ :: s.accesses }

/-- An `int` that is not negative is below `2 ^ 31`. -/
def step (contextResize : FdTable → ℕ → FdTable) (s : FdLookups) : Action → Option FdLookups
  | .check thread fd =>
    if fd < 2 ^ 31 ∧ s.growing thread = none then
      some (if asInt s.table.size > fd then s.access fd
        else { s with growing := Function.update s.growing thread (some fd) })
    else none
  | .grow thread =>
    (s.growing thread).map fun fd =>
      { s with
        table := contextResize s.table (growth fd)
        growing := Function.update s.growing thread none }.access fd

/-- Every access was within the table. -/
def InTable (s : FdLookups) : Prop := ∀ a ∈ s.accesses, a.index < a.size

/-- The table grows for an fd of at least two, or has the slot by now. -/
def GrowsEnough (s : FdLookups) : Action → Prop
  | .check .. => True
  | .grow thread => ∀ fd, s.growing thread = some fd → 2 ≤ fd ∨ fd < s.table.size

instance (s : FdLookups) : (a : Action) → Decidable (GrowsEnough s a)
  | .check .. => .isTrue trivial
  | .grow thread =>
    match growing : s.growing thread with
    | none => .isTrue fun fd found => nomatch growing.symm.trans found
    | some fd => decidable_of_iff (2 ≤ fd ∨ fd < s.table.size) <| by
        simp [GrowsEnough, growing]

theorem asInt_le (size : ℕ) : asInt size ≤ size := by
  unfold asInt
  rw [BitVec.toInt_eq_toNat_cond, BitVec.toNat_ofNat]
  split <;> omega

/-- Half as much again is more, from two on. -/
theorem lt_growth_iff (fd : ℕ) : fd < growth fd ↔ 2 ≤ fd := by
  unfold growth
  omega

variable {contextResize : FdTable → ℕ → FdTable}
  (size : ∀ table n, (contextResize table n).size = max table.size n)

include size in
private theorem grown_iff (table : FdTable) (fd : ℕ) :
    fd < (contextResize table (growth fd)).size ↔ 2 ≤ fd ∨ fd < table.size := by
  rw [size, lt_max_iff, lt_growth_iff]
  exact or_comm

include size in
/-- One section makes an access past the table exactly where the condition
fails. -/
theorem inTable_step {s t : FdLookups} {a : Action} (stepped : step contextResize s a = some t) :
    InTable t ↔ InTable s ∧ GrowsEnough s a := by
  cases a with
  | check thread fd =>
    simp only [step] at stepped
    split at stepped
    · cases stepped
      split
      · rename_i fits
        have inside : fd < s.table.size := by
          have converted := asInt_le s.table.size
          omega
        simp [InTable, access, GrowsEnough, inside]
      · simp [InTable, GrowsEnough]
    · cases stepped
  | grow thread =>
    obtain ⟨fd, growing, rfl⟩ := Option.map_eq_some_iff.mp stepped
    simp only [InTable, access, List.forall_mem_cons, grown_iff size, GrowsEnough, growing,
      Option.some.injEq, forall_eq']
    exact and_comm

include size in
/-- A run of `addEvent` calls on any threads stays within the table exactly if
each growth meets the condition. -/
theorem accesses_in_table_iff (schedule : List Action)
    (ran : Runs.run (step contextResize) {} schedule = some s) :
    InTable s ↔ Runs.AllSteps (step contextResize) GrowsEnough {} schedule := by
  have exact_step : ∀ s a t, True → step contextResize s a = some t →
      (InTable t ↔ InTable s ∧ GrowsEnough s a) :=
    fun _ _ _ _ stepped => inTable_step size stepped
  rw [Runs.run_lawful_iff (fun _ _ _ _ _ => trivial) exact_step schedule trivial ran]
  simp [InTable]

/-- Two threads look up the same small fd; a third has grown the table when they
get the write lock. -/
def grownMeanwhile : List Action :=
  [.check 0 1, .check 1 1, .check 2 7, .grow 2, .grow 0, .grow 1, .check 0 9]

theorem grown_meanwhile_in_table :
    ∃ s, Runs.run (step Undefined.least.contextResize) {} grownMeanwhile = some s ∧
      s.accesses.length = 4 ∧ InTable s :=
  ⟨_, rfl, rfl, (accesses_in_table_iff least_lawful.resize_size grownMeanwhile rfl).mpr
    (by decide)⟩

/-- The first call, for the standard input. -/
def standardInput : List Action := [.check 0 0, .grow 0]

theorem standard_input_past_table :
    ∃ s, Runs.run (step Undefined.least.contextResize) {} standardInput = some s ∧
      s.accesses = [⟨0, 0⟩] ∧ ¬ InTable s := by
  refine ⟨_, rfl, rfl, fun inside => ?_⟩
  exact absurd (inside ⟨0, 0⟩ (by decide)) (by decide)

end FdLookups

namespace IOManager

/-- The same of the registry, where an access past the table has no step. -/
theorem grow_defined_iff {u : Undefined} (lawful : u.Lawful) (m : IOManager) (thread : ThreadId)
    (call : FdCall) (fd : ℕ) :
    (m.grow u thread call fd).isSome ↔ 2 ≤ fd ∨ fd < m.table.size := by
  rw [← FdLookups.grown_iff lawful.resize_size]
  unfold grow
  change Option.isSome (if _ then _ else _) ↔ fd < (u.contextResize m.table (fd * 3 / 2)).size
  split <;> simp [*]

end IOManager
end Synergy
