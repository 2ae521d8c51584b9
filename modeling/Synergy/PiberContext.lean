import Mathlib.Logic.Function.Basic
import Synergy.Piber

/-! The context switches of `synergy/Piber.cc` on one thread. A saved context
is a stack and a point of the program there; the thread executes one such
context. Points and entry functions are parameters: who resumes, and what the
bodies do, is said by the modules that use this one. -/
namespace Synergy

/-- `ucontext_t`. The stack is named by the fiber that owns it. -/
structure Ucontext (P : Type) where
  stack : PiberId
  point : P
  deriving DecidableEq, Repr

/-- `Piber`, with an entry function from `B`. -/
structure PiberObject (B P : Type) where
  state : Piber.State := .READY
  ctx : Ucontext P
  cb : Option B
  runInScheduler : Bool

/-- A thread: its fibers, the thread-local pointers of `Piber.cc` and
`Scheduler.cc`, and the context in execution. -/
structure PiberThread (B P : Type) where
  pibers : PiberId → PiberObject B P
  created : PiberId := 0
  t_piber : Option PiberId := none
  t_thread_piber : Option PiberId := none
  t_scheduler_piber : Option PiberId := none
  running : Ucontext P

namespace PiberThread

variable {B P : Type}

/-- A thread at a point of its program, before its first fiber. -/
def blank (point : P) : PiberThread B P where
  pibers p := { ctx := ⟨p, point⟩, cb := none, runInScheduler := false }
  running := ⟨0, point⟩

/-- The thread goes on to another point. -/
@[simp] def goto (s : PiberThread B P) (point : P) : PiberThread B P :=
  { s with running := { s.running with point } }

@[simp] def setPiber (s : PiberThread B P) (p : PiberId) (piber : PiberObject B P) :
    PiberThread B P :=
  { s with pibers := Function.update s.pibers p piber }

/-- `swapcontext`: saves the context in execution, then continues the other. -/
def swapcontext (s : PiberThread B P) (oucp ucp : PiberId) (point : P) : PiberThread B P :=
  let s := s.setPiber oucp { s.pibers oucp with ctx := ⟨s.running.stack, point⟩ }
  { s with running := (s.pibers ucp).ctx }

/-- `Piber::Piber(cb, stacksize, run_in_scheduler)`; the new fiber is
`s.created`, and `entry` is where `makecontext` starts it. -/
def create (s : PiberThread B P) (entry : P) (cb : Option B) (run_in_scheduler : Bool) :
    PiberThread B P :=
  { s.setPiber s.created
      { ctx := ⟨s.created, entry⟩, cb, runInScheduler := run_in_scheduler } with
    created := s.created + 1 }

/-- `Piber::GetThis`. The first call makes the fiber of the thread itself, whose
constructor does not set `m_runInScheduler`. -/
def getThis (s : PiberThread B P) : PiberThread B P × PiberId :=
  match s.t_piber with
  | some p => (s, p)
  | none =>
    let main_piber := s.created
    let s := s.setPiber main_piber
      { s.pibers main_piber with state := .RUNING, ctx := s.running, cb := none }
    ({ s with
        created := s.created + 1
        t_piber := some main_piber
        t_thread_piber := some main_piber }, main_piber)

/-- `Piber::reset`. -/
def reset (s : PiberThread B P) (entry : P) (p : PiberId) (cb : Option B) : PiberThread B P :=
  s.setPiber p { s.pibers p with state := .READY, ctx := ⟨p, entry⟩, cb }

/-- The fiber with whose context `resume` and `yield` of `p` swap. -/
def partner (s : PiberThread B P) (p : PiberId) : Option PiberId :=
  if (s.pibers p).runInScheduler then s.t_scheduler_piber else s.t_thread_piber

/-- `Piber::resume`, called where the thread goes on at `point`. There is no
next state where the code follows a null pointer. -/
def resume (s : PiberThread B P) (p : PiberId) (point : P) : Option (PiberThread B P) :=
  (s.partner p).map fun partner =>
    let s := { s with t_piber := some p }
    let s := s.setPiber p { s.pibers p with state := .RUNING }
    s.swapcontext partner p point

/-- `Piber::yield`. -/
def yield (s : PiberThread B P) (p : PiberId) (point : P) : Option (PiberThread B P) :=
  (s.partner p).map fun partner =>
    let s := { s with t_piber := s.t_thread_piber }
    let state := if (s.pibers p).state ≠ .TERM then .READY else (s.pibers p).state
    let s := s.setPiber p { s.pibers p with state }
    s.swapcontext p partner point

/-- The end of `MainFunc`, behind the call of `m_cb`. -/
def finish (s : PiberThread B P) (cur : PiberId) (point : P) : Option (PiberThread B P) :=
  (s.setPiber cur { s.pibers cur with cb := none, state := .TERM }).yield cur point

variable {s : PiberThread B P} {p partner : PiberId}

theorem getThis_of_some (current : s.t_piber = some p) : s.getThis = (s, p) := by
  simp [getThis, current]

/-- What a resume does: the resumer goes into the partner's context. -/
theorem resume_eq (point : P) (found : s.partner p = some partner) (apart : p ≠ partner) :
    s.resume p point = some { s with
      t_piber := some p
      pibers := Function.update (Function.update s.pibers p { s.pibers p with state := .RUNING })
        partner { s.pibers partner with ctx := ⟨s.running.stack, point⟩ }
      running := (s.pibers p).ctx } := by
  simp [resume, found, swapcontext, Function.update_of_ne apart, Function.update_of_ne apart.symm]

/-- What a yield does: it continues what the partner's context holds. -/
theorem yield_eq (point : P) (found : s.partner p = some partner) (apart : p ≠ partner) :
    s.yield p point = some { s with
      t_piber := s.t_thread_piber
      pibers := Function.update s.pibers p { s.pibers p with
        state := if (s.pibers p).state ≠ .TERM then .READY else (s.pibers p).state
        ctx := ⟨s.running.stack, point⟩ }
      running := (s.pibers partner).ctx } := by
  simp [yield, found, swapcontext, Function.update_of_ne apart.symm]

theorem finish_eq (point : P) (found : s.partner p = some partner) (apart : p ≠ partner) :
    s.finish p point = some { s with
      t_piber := s.t_thread_piber
      pibers := Function.update s.pibers p { s.pibers p with
        cb := none
        state := .TERM
        ctx := ⟨s.running.stack, point⟩ }
      running := (s.pibers partner).ctx } := by
  have same : (s.setPiber p { s.pibers p with cb := none, state := .TERM }).partner p =
      some partner := by
    simpa [PiberThread.partner] using found
  rw [finish, yield_eq point same apart]
  simp [Function.update_of_ne apart.symm]

end PiberThread
end Synergy
