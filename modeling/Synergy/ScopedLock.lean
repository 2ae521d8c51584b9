import Mathlib.Data.List.Basic
import Mathlib.Data.List.Infix

/-! The scoped lock guards of `common/mutex.h`. A guard holds the mutex it was
built on from construction on, until `unlock` or destruction. -/
namespace Synergy

/-- The calls that a guard makes on its mutex. -/
inductive MutexCall where
  | lock
  | wrlock
  | rdlock
  | unlock
  deriving DecidableEq, Repr

namespace MutexCall

def Acquires (c : MutexCall) : Prop := c ≠ .unlock

instance (c : MutexCall) : Decidable c.Acquires := inferInstanceAs (Decidable (_ ≠ _))

/-- Whether the mutex is held after the calls, latest first. No result where an
acquisition found it held or a release did not. -/
def heldBy : List MutexCall → Option Bool
  | [] => some false
  | c :: earlier =>
    (heldBy earlier).bind fun held =>
      if c.Acquires then if held then none else some true
      else if held then some false else none

def acquisitions (calls : List MutexCall) : ℕ := calls.countP (· ≠ .unlock)

def releases (calls : List MutexCall) : ℕ := calls.countP (· = .unlock)

theorem heldBy_acquire {c : MutexCall} (acquires : c.Acquires)
    (free : heldBy earlier = some false) : heldBy (c :: earlier) = some true := by
  simp [heldBy, free, acquires]

theorem heldBy_unlock (held : heldBy earlier = some true) :
    heldBy (.unlock :: earlier) = some false := by
  simp [heldBy, held, Acquires]

theorem heldBy_unlock_free (free : heldBy earlier = some false) :
    heldBy (.unlock :: earlier) = none := by
  simp [heldBy, free, Acquires]

/-- In a disciplined history the two counts differ by what is held. -/
theorem acquisitions_eq (disciplined : heldBy calls = some held) :
    acquisitions calls = releases calls + held.toNat := by
  induction calls generalizing held with
  | nil =>
    cases disciplined
    rfl
  | cons c earlier ih =>
    obtain ⟨before, past, step⟩ := Option.bind_eq_some_iff.mp disciplined
    have count := ih past
    by_cases acquires : c.Acquires
    · have different : c ≠ .unlock := acquires
      cases before <;> simp_all [acquisitions, releases]
    · have same : c = .unlock := not_not.mp acquires
      cases before <;> simp_all [acquisitions, releases]

end MutexCall

/-- A guard: `m_is_lock` or `m_locked`, and the calls on its mutex, latest first. -/
structure Guard where
  locked : Bool
  calls : List MutexCall
  deriving DecidableEq, Repr

namespace Guard

def construct (acquire : MutexCall) : Guard := ⟨true, [acquire]⟩

def lock (acquire : MutexCall) (g : Guard) : Guard :=
  if !g.locked then ⟨true, acquire :: g.calls⟩ else g

def unlock (g : Guard) : Guard :=
  if g.locked then ⟨false, .unlock :: g.calls⟩ else g

/-- The flag says whether the mutex is held, and the guard made no wrong call. -/
def Agrees (g : Guard) : Prop := MutexCall.heldBy g.calls = some g.locked

end Guard

namespace ScopeMutex

def construct : Guard := .construct .lock
def lock (g : Guard) : Guard := g.lock .lock
def unlock (g : Guard) : Guard := g.unlock

/-- `~ScopeMutex` clears the flag and unlocks, whatever the flag was. -/
def destruct (g : Guard) : Guard := ⟨false, .unlock :: g.calls⟩

end ScopeMutex

namespace WriteScopedLockImpl

def construct : Guard := .construct .wrlock
def lock (g : Guard) : Guard := g.lock .wrlock
def unlock (g : Guard) : Guard := g.unlock
def destruct (g : Guard) : Guard := unlock g

end WriteScopedLockImpl

namespace ReadScopedLockImpl

def construct : Guard := .construct .rdlock
def lock (g : Guard) : Guard := g.lock .rdlock
def unlock (g : Guard) : Guard := g.unlock
def destruct (g : Guard) : Guard := unlock g

end ReadScopedLockImpl

inductive GuardKind where
  | scopeMutex
  | writeScopedLockImpl
  | readScopedLockImpl
  deriving DecidableEq, Repr

/-- A call between construction and destruction. -/
inductive GuardCall where
  | lock
  | unlock
  deriving DecidableEq, Repr

namespace GuardKind

def construct : GuardKind → Guard
  | .scopeMutex => ScopeMutex.construct
  | .writeScopedLockImpl => WriteScopedLockImpl.construct
  | .readScopedLockImpl => ReadScopedLockImpl.construct

def call (k : GuardKind) (g : Guard) : GuardCall → Guard
  | .lock => match k with
    | .scopeMutex => ScopeMutex.lock g
    | .writeScopedLockImpl => WriteScopedLockImpl.lock g
    | .readScopedLockImpl => ReadScopedLockImpl.lock g
  | .unlock => match k with
    | .scopeMutex => ScopeMutex.unlock g
    | .writeScopedLockImpl => WriteScopedLockImpl.unlock g
    | .readScopedLockImpl => ReadScopedLockImpl.unlock g

def destruct : GuardKind → Guard → Guard
  | .scopeMutex => ScopeMutex.destruct
  | .writeScopedLockImpl => WriteScopedLockImpl.destruct
  | .readScopedLockImpl => ReadScopedLockImpl.destruct

/-- The guard after the calls. -/
def run (k : GuardKind) (calls : List GuardCall) : Guard := calls.foldl k.call k.construct

/-- From construction through destruction, the guard acquires only what it does
not hold and releases only what it does, its flag is right after every call, and
in the end it has released as often as it acquired. -/
structure Balanced (k : GuardKind) (calls : List GuardCall) : Prop where
  agrees : ∀ before, before <+: calls → (k.run before).Agrees
  disciplined : MutexCall.heldBy (k.destruct (k.run calls)).calls ≠ none
  level : MutexCall.acquisitions (k.destruct (k.run calls)).calls =
    MutexCall.releases (k.destruct (k.run calls)).calls

end GuardKind

namespace Guard

variable {g : Guard}

theorem lock_agrees {acquire : MutexCall} (agrees : g.Agrees) (acquires : acquire.Acquires) :
    (g.lock acquire).Agrees ∧ (g.lock acquire).locked = true := by
  unfold lock
  cases flag : g.locked with
  | true => exact ⟨agrees, flag⟩
  | false =>
    have free : MutexCall.heldBy g.calls = some false := by rw [agrees, flag]
    exact ⟨MutexCall.heldBy_acquire acquires free, rfl⟩

theorem unlock_agrees (agrees : g.Agrees) : g.unlock.Agrees ∧ g.unlock.locked = false := by
  unfold unlock
  cases flag : g.locked with
  | true =>
    have held : MutexCall.heldBy g.calls = some true := by rw [agrees, flag]
    exact ⟨MutexCall.heldBy_unlock held, rfl⟩
  | false => exact ⟨agrees, flag⟩

end Guard

namespace GuardKind

theorem construct_agrees (k : GuardKind) : k.construct.Agrees ∧ k.construct.locked = true := by
  cases k <;> exact ⟨rfl, rfl⟩

/-- After a call the flag says which call it was. -/
theorem call_agrees (k : GuardKind) {g : Guard} (agrees : g.Agrees) (c : GuardCall) :
    (k.call g c).Agrees ∧ (k.call g c).locked = decide (c = .lock) := by
  cases c with
  | lock => cases k <;> exact Guard.lock_agrees agrees (by decide)
  | unlock => cases k <;> exact Guard.unlock_agrees agrees

theorem run_agrees (k : GuardKind) (calls : List GuardCall) :
    (k.run calls).Agrees ∧ (k.run calls).locked = decide (calls.getLast? ≠ some .unlock) := by
  induction calls using List.reverseRecOn with
  | nil => exact construct_agrees k
  | append_singleton earlier c ih =>
    rw [run, List.foldl_append]
    obtain ⟨agrees, flag⟩ := call_agrees k ih.1 c
    refine ⟨agrees, flag.trans ?_⟩
    cases c <;> simp

theorem level_of_free (free : MutexCall.heldBy calls = some false) :
    MutexCall.acquisitions calls = MutexCall.releases calls := by
  simpa using MutexCall.acquisitions_eq free

/-- A guard is balanced unless it is a `ScopeMutex` that was unlocked last. -/
theorem balanced_iff_holds_at_end (k : GuardKind) (calls : List GuardCall) :
    k.Balanced calls ↔ k ≠ .scopeMutex ∨ calls.getLast? ≠ some .unlock := by
  obtain ⟨agrees, flag⟩ := run_agrees k calls
  have from_free (free : MutexCall.heldBy (k.destruct (k.run calls)).calls = some false) :
      k.Balanced calls :=
    ⟨fun before _ => (run_agrees k before).1, by simp [free], level_of_free free⟩
  have unlocks : MutexCall.heldBy (k.run calls).unlock.calls = some false := by
    obtain ⟨left, cleared⟩ := Guard.unlock_agrees agrees
    rw [← cleared]
    exact left
  cases k with
  | writeScopedLockImpl => exact iff_of_true (from_free unlocks) (.inl (by decide))
  | readScopedLockImpl => exact iff_of_true (from_free unlocks) (.inl (by decide))
  | scopeMutex =>
    -- the destructor releases once more than the flag allows
    by_cases last : calls.getLast? = some .unlock
    · have free : MutexCall.heldBy (run .scopeMutex calls).calls = some false := by
        rw [agrees, flag]
        simp [last]
      refine iff_of_false (fun balanced => ?_) (by simp [last])
      exact balanced.disciplined (MutexCall.heldBy_unlock_free free)
    · have held : MutexCall.heldBy (run .scopeMutex calls).calls = some true := by
        rw [agrees, flag]
        simp [last]
      exact iff_of_true (from_free (MutexCall.heldBy_unlock held)) (.inr last)

/-- One explicit `unlock`: the mutex is released a second time at the end of the
scope. -/
theorem unlocked_scope_mutex_unbalanced :
    (destruct .scopeMutex (run .scopeMutex [.unlock])).calls = [.unlock, .unlock, .lock] ∧
      ¬ Balanced .scopeMutex [.unlock] :=
  ⟨rfl, fun balanced => balanced.disciplined rfl⟩

end GuardKind
end Synergy
