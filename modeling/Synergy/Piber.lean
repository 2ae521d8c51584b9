import Mathlib.Data.Nat.Notation

/-! The fiber of `synergy/Piber.h` and `synergy/Piber.cc`, as far as a scheduler
of many threads sees it. The body of a fiber is any code, so a context is
reduced to where it continues. `swapcontext` saves into its first argument and
continues its second; `makecontext` installs a fresh entry. -/
namespace Synergy

/-- A kernel thread id, as `getThreadId()` returns it. -/
abbrev ThreadId := ℕ

/-- `m_id`: fibers are numbered in the order of construction. -/
abbrev PiberId := ℕ

/-- `Piber::State`. -/
inductive Piber.State where
  | READY
  | RUNING
  | TERM
  deriving DecidableEq, Repr

/-- Where a context continues: in the body of the fiber, or at the end of
`MainFunc`, behind its last `yield`. -/
inductive Context where
  | body
  | ended
  deriving DecidableEq, Repr

/-- `Piber`. The field `saved` is history: it says that `ctx` is where the
fiber left off, so that no thread has loaded it since. -/
structure Piber where
  state : Piber.State := .READY
  ctx : Context := .body
  saved : Bool := true
  deriving DecidableEq, Repr

namespace Piber

/-- `Piber::Piber(cb, stacksize, run_in_scheduler)`. -/
def create : Piber := {}

/-- `Piber::Piber()`: the fiber of the thread that runs the constructor. -/
def threadMain : Piber := { state := .RUNING, saved := false }

/-- `Piber::reset`. -/
def reset (p : Piber) : Piber := { p with state := .READY, ctx := .body, saved := true }

/-- `m_state = RUNING` of `resume`. -/
def markRuning (p : Piber) : Piber := { p with state := .RUNING }

/-- `swapcontext` of `resume`, as the fiber sees it. -/
def load (p : Piber) : Piber := { p with saved := false }

/-- `m_state = TERM` of `MainFunc`. -/
def markTerm (p : Piber) : Piber := { p with state := .TERM }

/-- The state change of `yield`. -/
def markReady (p : Piber) : Piber :=
  if p.state ≠ .TERM then { p with state := .READY } else p

/-- `swapcontext` of `yield`, as the fiber sees it. -/
def save (p : Piber) (ctx : Context) : Piber := { p with ctx, saved := true }

end Piber
end Synergy
