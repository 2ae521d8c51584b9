import Mathlib.Data.Nat.Notation

/-! What the hooked calls of `hook.cc` share: the stored context of an fd, and
the error numbers they compare or set. -/
namespace Synergy

/-- `FdCtx`, as far as the hook reads or writes it. -/
structure FdCtx where
  isClose : Bool := false
  isSocket : Bool := true
  userNonblock : Bool := false
  sysNonblock : Bool := true
  recvTimeout : UInt64 := 0xffffffffffffffff
  sendTimeout : UInt64 := 0xffffffffffffffff
  deriving DecidableEq, Repr

inductive TimeoutKind where
  | SO_RCVTIMEO
  | SO_SNDTIMEO
  deriving DecidableEq, Repr

def FdCtx.getTimeout (ctx : FdCtx) : TimeoutKind → UInt64
  | .SO_RCVTIMEO => ctx.recvTimeout
  | .SO_SNDTIMEO => ctx.sendTimeout

def EINTR : ℕ := 4
def EBADF : ℕ := 9
def EAGAIN : ℕ := 11
def ETIMEDOUT : ℕ := 110
def EINPROGRESS : ℕ := 115

end Synergy
