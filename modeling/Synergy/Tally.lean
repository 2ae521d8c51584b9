import Mathlib.Algebra.BigOperators.Group.Finset.Basic
import Mathlib.Algebra.Order.BigOperators.Group.Finset

/-! Totals over any index type, where all but finitely many members count zero.
A counter that is changed beside the members it counts is specified by its
total; a step that touches one member changes the total by that member's
change. -/
namespace Synergy.Tally

variable {ι : Type} {f g : ι → ℤ} {n : ℤ} {i : ι}

/-- The members of `f` that are not zero are finitely many and sum to `n`. -/
def Totals (f : ι → ℤ) (n : ℤ) : Prop :=
  ∃ support : Finset ι, (∀ i ∉ support, f i = 0) ∧ ∑ i ∈ support, f i = n

theorem totals_zero (empty : ∀ i, f i = 0) : Totals f 0 :=
  ⟨∅, fun i _ => empty i, by simp⟩

theorem Totals.congr (counted : Totals f n) (same : ∀ i, g i = f i) : Totals g n := by
  obtain ⟨support, outside, sum⟩ := counted
  exact ⟨support, fun i out => (same i).trans (outside i out),
    (Finset.sum_congr rfl fun i _ => same i).trans sum⟩

private theorem sum_insert [DecidableEq ι] {support : Finset ι}
    (outside : ∀ i ∉ support, f i = 0) (i : ι) :
    ∑ j ∈ insert i support, f j = ∑ j ∈ support, f j :=
  (Finset.sum_subset (Finset.subset_insert i support) fun j _ out => outside j out).symm

/-- A change at one member changes the total by as much. -/
theorem Totals.change (counted : Totals f n) (others : ∀ j, j ≠ i → g j = f j) :
    Totals g (n + (g i - f i)) := by
  classical
  obtain ⟨support, outside, sum⟩ := counted
  refine ⟨insert i support, fun j out => ?_, ?_⟩
  · have apart : j ≠ i := fun same => out (same ▸ Finset.mem_insert_self i support)
    rw [others j apart]
    exact outside j fun member => out (Finset.mem_insert_of_mem member)
  · have member := Finset.mem_insert_self i support
    have rest : ∑ j ∈ (insert i support).erase i, g j = ∑ j ∈ (insert i support).erase i, f j :=
      Finset.sum_congr rfl fun j inside => others j (Finset.ne_of_mem_erase inside)
    have before := Finset.add_sum_erase (insert i support) f member
    have after := Finset.add_sum_erase (insert i support) g member
    rw [sum_insert outside i, sum] at before
    omega

/-- Where nothing counts below zero, a zero total leaves only zeros. -/
theorem Totals.eq_zero (counted : Totals f 0) (nonneg : ∀ i, 0 ≤ f i) (i : ι) : f i = 0 := by
  obtain ⟨support, outside, sum⟩ := counted
  by_cases member : i ∈ support
  · exact (Finset.sum_eq_zero_iff_of_nonneg fun j _ => nonneg j).mp sum i member
  · exact outside i member

theorem Totals.nonneg (counted : Totals f n) (nonneg : ∀ i, 0 ≤ f i) : 0 ≤ n := by
  obtain ⟨support, _, sum⟩ := counted
  rw [← sum]
  exact Finset.sum_nonneg fun i _ => nonneg i

/-- The total is the sum over any finite set outside of which nothing counts. -/
theorem Totals.eq_sum (counted : Totals f n) {members : Finset ι}
    (outside : ∀ i ∉ members, f i = 0) : n = ∑ i ∈ members, f i := by
  classical
  obtain ⟨support, zero, sum⟩ := counted
  have left : support ⊆ support ∪ members := Finset.subset_union_left
  have right : members ⊆ support ∪ members := Finset.subset_union_right
  rw [← sum, Finset.sum_subset left fun i _ out => zero i out,
    Finset.sum_subset right fun i _ out => outside i out]

end Synergy.Tally
