import Mathlib.Data.List.TakeWhile

/-! A `std::set` with its own comparator, as the list of its elements in
iteration order. Elements are compared through a key that may live elsewhere
and change there, so the comparator and the key are arguments of every
operation; an iterator is the split of the list at its position. -/
namespace Synergy.OrderedSet

variable {α κ : Type}

/-- The comparator requirement the container relies on. -/
structure StrictOrder (less : κ → κ → Bool) : Prop where
  irrefl : ∀ k, less k k = false
  trans : ∀ a b c, less a b = true → less b c = true → less a c = true

/-- Iteration order is strictly increasing in the key. -/
def Sorted (less : κ → κ → Bool) (key : α → κ) (elements : List α) : Prop :=
  elements.Pairwise fun a b => less (key a) (key b) = true

/-- `insert`: an element equivalent to one already held is dropped. -/
def insert (less : κ → κ → Bool) (key : α → κ) (element : α) : List α → List α
  | [] => [element]
  | head :: rest =>
    if less (key element) (key head) then element :: head :: rest
    else if less (key head) (key element) then head :: insert less key element rest
    else head :: rest

/-- `lower_bound`: the position of the first element not less than the key. -/
def lowerBound (less : κ → κ → Bool) (key : α → κ) (probe : κ) (elements : List α) :
    List α × List α :=
  (elements.takeWhile fun a => less (key a) probe, elements.dropWhile fun a => less (key a) probe)

/-- Advance an iterator while the element under it satisfies the test. -/
def advance (test : α → Bool) (it : List α × List α) : List α × List α :=
  (it.1 ++ it.2.takeWhile test, it.2.dropWhile test)

/-- `find`: the element equivalent to the key, or nothing for `end()`. -/
def find (less : κ → κ → Bool) (key : α → κ) (probe : κ) (elements : List α) : Option α :=
  match (lowerBound less key probe elements).2 with
  | [] => none
  | head :: _ => if less probe (key head) then none else some head

section membership

variable {less : κ → κ → Bool} {key : α → κ}

theorem sorted_congr {other : α → κ} (same : ∀ a ∈ elements, other a = key a)
    (sorted : Sorted less key elements) : Sorted less other elements := by
  refine List.Pairwise.imp_of_mem ?_ sorted
  intro a b memberA memberB before
  rw [same a memberA, same b memberB]
  exact before

theorem Sorted.nodup (order : StrictOrder less) (sorted : Sorted less key elements) :
    elements.Nodup := by
  refine List.Pairwise.imp ?_ sorted
  rintro a b before rfl
  rw [order.irrefl] at before
  cases before

theorem mem_of_mem_insert (member : b ∈ insert less key a elements) : b = a ∨ b ∈ elements := by
  induction elements with
  | nil => simpa [insert] using member
  | cons head rest ih =>
    unfold insert at member
    split at member
    · simpa using member
    · split at member
      · rcases List.mem_cons.mp member with rfl | inside
        · exact .inr (by simp)
        · exact (ih inside).imp_right (List.mem_cons_of_mem _)
      · exact .inr member

theorem mem_insert_of_mem (member : b ∈ elements) : b ∈ insert less key a elements := by
  induction elements with
  | nil => cases member
  | cons head rest ih =>
    unfold insert
    split
    · exact List.mem_cons_of_mem _ member
    · split
      · rcases List.mem_cons.mp member with rfl | inside
        · simp
        · exact List.mem_cons_of_mem _ (ih inside)
      · exact member

/-- An element comparable with every element held is really inserted. -/
theorem mem_insert_self
    (apart : ∀ b ∈ elements, less (key a) (key b) = true ∨ less (key b) (key a) = true) :
    a ∈ insert less key a elements := by
  induction elements with
  | nil => simp [insert]
  | cons head rest ih =>
    unfold insert
    split
    · simp
    · rename_i notBefore
      have behind := (apart head (by simp)).resolve_left notBefore
      rw [if_pos behind]
      exact List.mem_cons_of_mem _ (ih fun b member => apart b (List.mem_cons_of_mem _ member))

theorem sorted_insert (order : StrictOrder less) (sorted : Sorted less key elements) :
    Sorted less key (insert less key a elements) := by
  induction elements with
  | nil => simp [insert, Sorted]
  | cons head rest ih =>
    obtain ⟨first, later⟩ := List.pairwise_cons.mp sorted
    unfold insert
    split
    · rename_i before
      refine List.pairwise_cons.mpr ⟨?_, sorted⟩
      intro b member
      rcases List.mem_cons.mp member with rfl | inside
      · exact before
      · exact order.trans _ _ _ before (first b inside)
    · split
      · rename_i behind
        refine List.pairwise_cons.mpr ⟨?_, ih later⟩
        intro b member
        rcases mem_of_mem_insert member with rfl | inside
        · exact behind
        · exact first b inside
      · exact sorted

/-- What is inserted behind another element leaves the front in place. -/
theorem head_insert (less : κ → κ → Bool) (key : α → κ) (element : α) (elements : List α) :
    (insert less key element elements).head? = some element ∨
      ∃ front, elements.head? = some front ∧ less (key element) (key front) = false ∧
        (insert less key element elements).head? = some front := by
  cases elements with
  | nil => exact .inl rfl
  | cons head rest =>
    unfold insert
    split
    · exact .inl rfl
    · rename_i notBefore
      refine .inr ⟨head, rfl, Bool.eq_false_iff.mpr notBefore, ?_⟩
      split <;> rfl

/-- A held element is found under its own key. -/
theorem find_self (order : StrictOrder less) (sorted : Sorted less key elements)
    (member : a ∈ elements) : find less key (key a) elements = some a := by
  unfold find lowerBound
  induction elements with
  | nil => cases member
  | cons head rest ih =>
    obtain ⟨first, later⟩ := List.pairwise_cons.mp sorted
    rcases List.mem_cons.mp member with rfl | inside
    · simp [order.irrefl]
    · simpa [first a inside] using ih later inside

theorem sorted_erase [DecidableEq α] (sorted : Sorted less key elements) :
    Sorted less key (elements.erase a) :=
  sorted.sublist List.erase_sublist

/-- Moving an iterator keeps the elements and their order. -/
theorem advance_append (test : α → Bool) (it : List α × List α) :
    (advance test it).1 ++ (advance test it).2 = it.1 ++ it.2 := by
  simp [advance, List.append_assoc, List.takeWhile_append_dropWhile]

/-- Where the test can only turn from true to false along the list, nothing
from the first failure on passes it. -/
theorem test_of_mem_dropWhile (test : α → Bool) {elements : List α}
    (closed : elements.Pairwise fun a b => test b = true → test a = true)
    (member : a ∈ elements.dropWhile test) : test a = false := by
  induction elements with
  | nil => cases member
  | cons head rest ih =>
    obtain ⟨first, later⟩ := List.pairwise_cons.mp closed
    rw [List.dropWhile_cons] at member
    split at member
    · exact ih later member
    · rename_i fails
      rcases List.mem_cons.mp member with rfl | inside
      · exact Bool.eq_false_iff.mpr fails
      · exact Bool.eq_false_iff.mpr fun passes => fails (first a inside passes)

/-- `lower_bound` leaves nothing behind that precedes the key. -/
theorem not_before_lowerBound (order : StrictOrder less) (sorted : Sorted less key elements)
    (member : a ∈ (lowerBound less key probe elements).2) : less (key a) probe = false := by
  refine test_of_mem_dropWhile (fun b => less (key b) probe) ?_ member
  apply List.Pairwise.imp _ sorted
  intro a b before below
  exact order.trans _ _ _ before below

theorem lowerBound_append (probe : κ) (elements : List α) :
    (lowerBound less key probe elements).1 ++ (lowerBound less key probe elements).2 = elements :=
  List.takeWhile_append_dropWhile

end membership

end Synergy.OrderedSet
