import Synergy.Locks
import Synergy.ScopedLock

/-! Code that uses the guards of `common/mutex.h`, as far as its locks go: where
a guard is built, unlocked early and destroyed, whichever way the scope is left.
Conditions are left open, so a function has all the executions that the guards
would allow. The precondition of a piece of code for what follows it is computed
from its text; code that meets it leads from its locks on entry to its locks on
exit and takes them upwards. -/
namespace Synergy.Guarded
open Locks

/-- A guard in scope: its mutex and its flag. -/
structure Scoped (R : Type) where
  kind : GuardKind
  mutex : R
  locked : Bool
  deriving DecidableEq, Repr

/-- How a statement ends. -/
inductive Ending where
  | falls
  | continues
  | breaks
  | returns
  deriving DecidableEq, Repr

/-- `choose` is a branch by a number, such as an fd; `unlock` is on the innermost
guard; a `call` is of a function with guards of its own. -/
inductive Stmt (R : Type) where
  | jump (ending : Ending)
  | seq (first second : Stmt R)
  | branch (yes no : Stmt R)
  | choose (body : ℕ → Stmt R)
  | loop (body : Stmt R)
  | guarded (kind : GuardKind) (mutex : R) (body : Stmt R)
  | unlock
  | call (body : Stmt R)
  | create
  | clear

namespace Stmt

def skip {R : Type} : Stmt R := .jump .falls

/-- The statements one after another. -/
def block {R : Type} : List (Stmt R) → Stmt R
  | [] => skip
  | first :: rest => .seq first (block rest)

end Stmt

variable {R : Type}

/-- What a call on a mutex asks for. -/
def instr (mutex : R) : MutexCall → Instr R
  | .lock | .wrlock => .acquire mutex .exclusive
  | .rdlock => .acquire mutex .shared
  | .unlock => .release mutex

/-- The calls that a guard has made since its history was empty. -/
def emitted (mutex : R) (g : Guard) : List (Instr R) := g.calls.reverse.map (instr mutex)

/-- The guard of this flag, with no history. -/
def Scoped.guard (g : Scoped R) : Guard := ⟨g.locked, []⟩

/-- An execution: the guards in scope before and after, innermost first, and the
calls on the mutexes between. A loop may be left after any round, so the
executions of an endless one are those as far as it has got. -/
inductive Exec : Stmt R → List (Scoped R) → List (Instr R) → List (Scoped R) → Ending → Prop where
  | jump : Exec (.jump e) s [] s e
  | seq (first : Exec a s before middle .falls) (second : Exec b middle later after e) :
      Exec (.seq a b) s (before ++ later) after e
  | seqLeft (first : Exec a s trace after e) (jumps : e ≠ .falls) :
      Exec (.seq a b) s trace after e
  | yes (taken : Exec a s trace after e) : Exec (.branch a b) s trace after e
  | no (taken : Exec b s trace after e) : Exec (.branch a b) s trace after e
  | choose (n : ℕ) (taken : Exec (body n) s trace after e) : Exec (.choose body) s trace after e
  | loopLeft : Exec (.loop body) s [] s .falls
  | loopAgain (round : Exec body s before middle e) (goes_on : e = .falls ∨ e = .continues)
      (rest : Exec (.loop body) middle later after last) :
      Exec (.loop body) s (before ++ later) after last
  | loopBroken (round : Exec body s trace after .breaks) : Exec (.loop body) s trace after .falls
  | loopReturned (round : Exec body s trace after .returns) :
      Exec (.loop body) s trace after .returns
  | guarded (inside : Exec body (⟨kind, mutex, kind.construct.locked⟩ :: s) trace
        (⟨kind, mutex, locked⟩ :: after) e) :
      Exec (.guarded kind mutex body) s
        (emitted mutex kind.construct ++ trace ++
          emitted mutex (kind.destruct ⟨locked, []⟩)) after e
  | unlock : Exec .unlock (g :: s) (emitted g.mutex (g.kind.call g.guard .unlock))
      (⟨g.kind, g.mutex, (g.kind.call g.guard .unlock).locked⟩ :: s) .falls
  | call (inside : Exec body [] trace [] e) : Exec (.call body) s trace s .falls
  | create : Exec .create s [.create] s .falls
  | clear : Exec .clear s [.clear] s .falls

/-- The locks of a thread that came in with `outer`. -/
def held (outer : Set R) : List (Scoped R) → Set R
  | [] => outer
  | g :: rest => if g.locked then insert g.mutex (held outer rest) else held outer rest

/-- No two guards hold one mutex. -/
def Apart (outer : Set R) : List (Scoped R) → Prop
  | [] => True
  | g :: rest => (g.locked = true → g.mutex ∉ held outer rest) ∧ Apart outer rest

variable {L : Type} [Preorder L] {level : R → L}

/-- The precondition of a statement for what follows it. A loop gives back the
guards as it found them; a `ScopeMutex` is locked where its scope ends. -/
def wp (level : R → L) (outer : Set R) :
    Stmt R → (Ending → List (Scoped R) → Prop) → List (Scoped R) → Prop
  | .jump e, post, s => post e s
  | .seq a b, post, s =>
    wp level outer a (fun e after =>
      (e = .falls → wp level outer b post after) ∧ (e ≠ .falls → post e after)) s
  | .branch a b, post, s => wp level outer a post s ∧ wp level outer b post s
  | .choose body, post, s => ∀ n, wp level outer (body n) post s
  | .loop body, post, s =>
    post .falls s ∧ wp level outer body (fun e after =>
      (e = .falls ∨ e = .continues → after = s) ∧ (e = .breaks → post .falls after) ∧
        (e = .returns → post .returns after)) s
  | .guarded kind mutex body, post, s =>
    (∀ h ∈ held outer s, level h < level mutex) ∧
      wp level outer body (fun e after => ∀ g rest, after = g :: rest →
        (kind = .scopeMutex → g.locked = true) ∧ post e rest) (⟨kind, mutex, true⟩ :: s)
  | .unlock, post, s => ∀ g rest, s = g :: rest → post .falls (⟨g.kind, g.mutex, false⟩ :: rest)
  | .call body, post, s =>
    wp level (held outer s) body (fun _ after => after = []) [] ∧ post .falls s
  | .create, post, s => post .falls s
  | .clear, post, s => (∀ r, r ∉ held outer s) ∧ post .falls s

/-- The code has no guard of its own, unlocks none, creates no thread and calls
nothing that may take a lock. -/
def Stmt.Lockless : Stmt R → Prop
  | .jump _ => True
  | .seq a b | .branch a b => a.Lockless ∧ b.Lockless
  | .choose body => ∀ n, (body n).Lockless
  | .loop body | .call body => body.Lockless
  | .guarded _ _ _ | .unlock | .create | .clear => False

/-- By induction on the code. -/
theorem wp_of_lockless {body : Stmt R} (lockless : body.Lockless) {outer : Set R}
    {post : Ending → List (Scoped R) → Prop} {s : List (Scoped R)} (holds : ∀ e, post e s) :
    wp level outer body post s := by
  induction body generalizing outer post s with
  | jump e => exact holds e
  | seq a b first second =>
    exact first lockless.1 fun e => ⟨fun _ => second lockless.2 holds, fun _ => holds e⟩
  | branch a b yes no => exact ⟨yes lockless.1 holds, no lockless.2 holds⟩
  | choose body ih => exact fun n => ih n (lockless n) holds
  | loop body ih =>
    exact ⟨holds _, ih lockless fun e => ⟨fun _ => rfl, fun _ => holds _, fun _ => holds _⟩⟩
  | call body ih => exact ⟨ih lockless fun _ => rfl, holds _⟩
  | guarded | unlock | create | clear => exact lockless.elim

/-- A call of code with no locks is no step of the caller's. -/
theorem wp_call_of_lockless {body : Stmt R} (lockless : body.Lockless) {outer : Set R}
    {post : Ending → List (Scoped R) → Prop} {s : List (Scoped R)} :
    wp level outer (.call body) post s ↔ post .falls s :=
  ⟨fun called => called.2, fun holds => ⟨wp_of_lockless lockless fun _ => rfl, holds⟩⟩

theorem unlock_eq (g : Scoped R) :
    g.kind.call g.guard .unlock = ⟨false, if g.locked then [.unlock] else []⟩ := by
  obtain ⟨kind, mutex, locked⟩ := g
  cases kind <;> cases locked <;> rfl

theorem destruct_eq (kind : GuardKind) (locked : Bool) (scope : kind = .scopeMutex → locked = true) :
    kind.destruct ⟨locked, []⟩ = ⟨false, if locked then [.unlock] else []⟩ := by
  cases kind with
  | scopeMutex =>
    rw [scope rfl]
    rfl
  | writeScopedLockImpl => cases locked <;> rfl
  | readScopedLockImpl => cases locked <;> rfl

private theorem leads_construct {outer : Set R} {s : List (Scoped R)} (kind : GuardKind)
    {mutex : R} (above : ∀ h ∈ held outer s, level h < level mutex) :
    Leads level (held outer s) (emitted mutex kind.construct)
      (held outer (⟨kind, mutex, true⟩ :: s)) := by
  cases kind <;> exact ⟨above, rfl⟩

/-- Where a guard gives up its mutex, or had none. -/
private theorem leads_release {outer : Set R} {s : List (Scoped R)} {g : Scoped R}
    (apart : Apart outer (g :: s)) (after : Bool) :
    Leads level (held outer (g :: s))
      (emitted g.mutex ⟨after, if g.locked then [.unlock] else []⟩) (held outer s) := by
  obtain ⟨kind, mutex, locked⟩ := g
  cases locked with
  | false => exact rfl
  | true =>
    have fresh : mutex ∉ held outer s := apart.1 rfl
    refine ⟨Set.mem_insert _ _, ?_⟩
    exact Set.insert_sdiff_self_of_notMem fresh

/-- Code that meets its precondition takes locks upwards and has those of its
guards in the end. By induction on the execution. -/
theorem wp_sound {outer : Set R} {stmt : Stmt R} {s after : List (Scoped R)}
    {trace : List (Instr R)} {e : Ending} (exec : Exec stmt s trace after e)
    {post : Ending → List (Scoped R) → Prop} (pre : wp level outer stmt post s)
    (apart : Apart outer s) :
    Leads level (held outer s) trace (held outer after) ∧ Apart outer after ∧ post e after := by
  induction exec generalizing outer post with
  | jump => exact ⟨rfl, apart, pre⟩
  | seq first second before later =>
    obtain ⟨leads, apart', rest⟩ := before pre apart
    obtain ⟨leads', apart'', holds⟩ := later (rest.1 rfl) apart'
    exact ⟨leads.append leads', apart'', holds⟩
  | seqLeft first jumps ih =>
    obtain ⟨leads, apart', rest⟩ := ih pre apart
    exact ⟨leads, apart', rest.2 jumps⟩
  | yes taken ih => exact ih pre.1 apart
  | no taken ih => exact ih pre.2 apart
  | choose n taken ih => exact ih (pre n) apart
  | loopLeft => exact ⟨rfl, apart, pre.1⟩
  | loopAgain round goes_on rest once again =>
    obtain ⟨leads, apart', ends⟩ := once pre.2 apart
    have same := ends.1 goes_on
    subst same
    obtain ⟨leads', apart'', holds⟩ := again pre apart'
    exact ⟨leads.append leads', apart'', holds⟩
  | loopBroken round ih =>
    obtain ⟨leads, apart', ends⟩ := ih pre.2 apart
    exact ⟨leads, apart', ends.2.1 rfl⟩
  | loopReturned round ih =>
    obtain ⟨leads, apart', ends⟩ := ih pre.2 apart
    exact ⟨leads, apart', ends.2.2 rfl⟩
  | @guarded body kind mutex s trace locked after e inside ih =>
    obtain ⟨above, pre⟩ := pre
    have fresh : mutex ∉ held outer s := fun member => lt_irrefl _ (above mutex member)
    rw [(GuardKind.construct_agrees kind).2] at ih
    obtain ⟨leads, apart', ends⟩ := ih pre ⟨fun _ => fresh, apart⟩
    obtain ⟨scope, holds⟩ := ends _ _ rfl
    refine ⟨((leads_construct kind above).append leads).append ?_, apart'.2, holds⟩
    rw [destruct_eq kind locked scope]
    exact leads_release apart' false
  | @unlock g s =>
    rw [unlock_eq]
    exact ⟨leads_release apart false, ⟨fun flag => by simp at flag, apart.2⟩, pre g s rfl⟩
  | call inside ih =>
    obtain ⟨leads, -, -⟩ := ih pre.1 trivial
    exact ⟨leads, apart, pre.2⟩
  | create => exact ⟨rfl, apart, pre⟩
  | clear => exact ⟨⟨Set.eq_empty_iff_forall_notMem.mpr pre.1, rfl⟩, apart, pre.2⟩

/-- The function can be called with no lock, and ends so. -/
abbrev Safe (level : R → L) (body : Stmt R) : Prop :=
  wp level ∅ body (fun _ after => after = []) []

theorem Safe.disciplined {body : Stmt R} (safe : Safe level body) {trace : List (Instr R)}
    {after : List (Scoped R)} {e : Ending} (exec : Exec body [] trace after e) :
    Disciplined level ∅ trace := by
  obtain ⟨leads, -, ended⟩ := wp_sound exec safe trivial
  subst ended
  exact leads

end Synergy.Guarded
