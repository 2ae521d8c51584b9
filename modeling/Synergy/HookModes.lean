import Mathlib.Data.List.Infix
import Synergy.Hook

/-! The two non-blocking modes of a hooked socket: the one the caller asked for,
stored in the `FdCtx`, and the one the kernel has. `fcntl` and `ioctl` both
change them. -/
namespace Synergy

/-- On Linux. -/
def O_NONBLOCK : BitVec 32 := .twoPow 32 11

/-- The test of `flags & O_NONBLOCK`. -/
def nonblock (flags : BitVec 32) : Bool := flags &&& O_NONBLOCK != 0

/-- A closed fd, or one that is no socket, is left to the system. -/
def FdCtx.passes : Option FdCtx → Bool
  | none => true
  | some ctx => ctx.isClose || !ctx.isSocket

/-- `fcntl(fd, F_SETFL, arg)`: the context, and the flags passed to `fcntl_f`. -/
def fcntlSetfl (ctx : Option FdCtx) (arg : BitVec 32) : Option FdCtx × BitVec 32 :=
  if FdCtx.passes ctx then (ctx, arg)
  else
    let ctx := ctx.map fun c => { c with userNonblock := nonblock arg }
    if ctx.any FdCtx.sysNonblock then (ctx, arg ||| O_NONBLOCK)
    else (ctx, arg &&& ~~~O_NONBLOCK)

/-- `fcntl(fd, F_GETFL)`, given what `fcntl_f` returned. -/
def fcntlGetfl (ctx : Option FdCtx) (arg : BitVec 32) : BitVec 32 :=
  if FdCtx.passes ctx then arg
  else if ctx.any FdCtx.userNonblock then arg ||| O_NONBLOCK
  else arg &&& ~~~O_NONBLOCK

/-- `ioctl(d, FIONBIO, &arg)`: the context, and the value passed to `ioctl_f`. -/
def ioctlFionbio (ctx : Option FdCtx) (arg : BitVec 32) : Option FdCtx × BitVec 32 :=
  let user_nonblock := arg != 0
  if FdCtx.passes ctx then (ctx, arg)
  else (ctx.map fun c => { c with userNonblock := user_nonblock }, arg)

/-- `F_SETFL` in the kernel: only some flags can be set. -/
def setFlags (settable kernel arg : BitVec 32) : BitVec 32 :=
  arg &&& settable ||| kernel &&& ~~~settable

/-- `FIONBIO` in the kernel. -/
def setNonblock (kernel arg : BitVec 32) : BitVec 32 :=
  if arg = 0 then kernel &&& ~~~O_NONBLOCK else kernel ||| O_NONBLOCK

/-- A call on the fd. The kernel may refuse the flags. -/
inductive ModeCall where
  | setfl (arg : BitVec 32) (refused : Bool)
  | getfl
  | fionbio (arg : BitVec 32)
  deriving DecidableEq, Repr

/-- An answer of `F_GETFL`, with the kernel's flags and the mode last asked for. -/
structure ModeReport where
  value : BitVec 32
  kernel : BitVec 32
  asked : Bool
  deriving DecidableEq, Repr

/-- The stored context, the kernel's flags, the mode last asked for, and the
answers so far. -/
structure SocketModes where
  ctx : Option FdCtx
  kernel : BitVec 32
  asked : Bool
  reports : List ModeReport := []
  deriving DecidableEq, Repr

namespace SocketModes

def step (settable : BitVec 32) (s : SocketModes) : ModeCall → SocketModes
  | .setfl arg refused =>
    let (ctx, passed) := fcntlSetfl s.ctx arg
    { s with
      ctx
      kernel := if refused then s.kernel else setFlags settable s.kernel passed
      asked := nonblock arg }
  | .getfl =>
    { s with reports := ⟨fcntlGetfl s.ctx s.kernel, s.kernel, s.asked⟩ :: s.reports }
  | .fionbio arg =>
    let (ctx, passed) := ioctlFionbio s.ctx arg
    { s with ctx, kernel := setNonblock s.kernel passed, asked := arg != 0 }

/-- A socket as it was set up, before any call. -/
def initial (ctx : FdCtx) (kernel : BitVec 32) : SocketModes :=
  { ctx := some ctx, kernel, asked := ctx.userNonblock }

def run (settable : BitVec 32) (s : SocketModes) (calls : List ModeCall) : SocketModes :=
  calls.foldl (step settable) s

/-- The kernel has the system's mode; every answer showed the mode last asked
for, and else the kernel's flags. -/
structure Separated (s : SocketModes) : Prop where
  kernel : s.ctx.map FdCtx.sysNonblock = some (nonblock s.kernel)
  mode : ∀ r ∈ s.reports, nonblock r.value = r.asked
  others : ∀ r ∈ s.reports, r.value &&& ~~~O_NONBLOCK = r.kernel &&& ~~~O_NONBLOCK

end SocketModes

theorem nonblock_eq (flags : BitVec 32) : nonblock flags = flags.getLsbD 11 := by
  unfold nonblock O_NONBLOCK
  rw [BitVec.and_twoPow]
  cases flags.getLsbD 11 <;> decide

@[simp] theorem nonblock_or (flags : BitVec 32) : nonblock (flags ||| O_NONBLOCK) = true := by
  rw [nonblock_eq, BitVec.getLsbD_or]
  simp [O_NONBLOCK]

@[simp] theorem nonblock_clear (flags : BitVec 32) : nonblock (flags &&& ~~~O_NONBLOCK) = false := by
  rw [nonblock_eq, BitVec.getLsbD_and]
  simp [O_NONBLOCK]

theorem or_clear (flags : BitVec 32) :
    (flags ||| O_NONBLOCK) &&& ~~~O_NONBLOCK = flags &&& ~~~O_NONBLOCK := by
  ext i inside
  simp only [BitVec.getElem_and, BitVec.getElem_or, BitVec.getElem_not]
  cases flags[i] <;> cases O_NONBLOCK[i] <;> rfl

/-- A flag that is on already, and asked for, stays on whether or not it can be
set. -/
theorem nonblock_setFlags {kernel arg : BitVec 32} (on : nonblock kernel = true)
    (asked : nonblock arg = true) (settable : BitVec 32) :
    nonblock (setFlags settable kernel arg) = true := by
  rw [nonblock_eq] at on asked ⊢
  simp [setFlags, on, asked]

theorem nonblock_setNonblock (kernel arg : BitVec 32) :
    nonblock (setNonblock kernel arg) = (arg != 0) := by
  unfold setNonblock
  by_cases zero : arg = 0
  · rw [if_pos zero, nonblock_clear, zero]
    rfl
  · rw [if_neg zero, nonblock_or]
    exact (bne_iff_ne.mpr zero).symm

namespace SocketModes

/-- What every call keeps: the context stays that of an open socket in the
system's mode, and holds the mode last asked for. -/
structure Stored (s : SocketModes) : Prop where
  context : ∃ ctx, s.ctx = some ctx ∧ ctx.isClose = false ∧ ctx.isSocket = true ∧
    ctx.sysNonblock = true ∧ ctx.userNonblock = s.asked
  mode : ∀ r ∈ s.reports, nonblock r.value = r.asked
  others : ∀ r ∈ s.reports, r.value &&& ~~~O_NONBLOCK = r.kernel &&& ~~~O_NONBLOCK

variable {s : SocketModes} {settable : BitVec 32}

theorem Stored.system (stored : Stored s) : s.ctx.map FdCtx.sysNonblock = some true := by
  obtain ⟨ctx, found, -, -, sys, -⟩ := stored.context
  simp [found, sys]

/-- `F_GETFL` answers with the stored mode. -/
theorem Stored.getfl (stored : Stored s) :
    nonblock (fcntlGetfl s.ctx s.kernel) = s.asked ∧
      fcntlGetfl s.ctx s.kernel &&& ~~~O_NONBLOCK = s.kernel &&& ~~~O_NONBLOCK := by
  obtain ⟨ctx, found, opened, socket, -, user⟩ := stored.context
  cases asked : s.asked with
  | true => simp [fcntlGetfl, found, FdCtx.passes, opened, socket, user, asked, or_clear]
  | false =>
    simp [fcntlGetfl, found, FdCtx.passes, opened, socket, user, asked, BitVec.and_assoc]

theorem Stored.step (stored : Stored s) (c : ModeCall) : Stored (s.step settable c) := by
  obtain ⟨ctx, found, opened, socket, sys, user⟩ := stored.context
  cases c with
  | setfl arg refused =>
    refine ⟨⟨{ ctx with userNonblock := nonblock arg }, ?_⟩, stored.mode, stored.others⟩
    simp [SocketModes.step, fcntlSetfl, found, FdCtx.passes, opened, socket, sys]
  | getfl =>
    obtain ⟨mode, others⟩ := stored.getfl
    exact ⟨⟨ctx, found, opened, socket, sys, user⟩,
      List.forall_mem_cons.mpr ⟨mode, stored.mode⟩,
      List.forall_mem_cons.mpr ⟨others, stored.others⟩⟩
  | fionbio arg =>
    refine ⟨⟨{ ctx with userNonblock := arg != 0 }, ?_⟩, stored.mode, stored.others⟩
    simp [SocketModes.step, ioctlFionbio, found, FdCtx.passes, opened, socket, sys]

/-- Only a `FIONBIO` that asks for blocking takes the kernel's flag away. -/
theorem Stored.kernel_step (stored : Stored s) (on : nonblock s.kernel = true) (c : ModeCall) :
    nonblock (s.step settable c).kernel = true ↔ c ≠ .fionbio 0 := by
  obtain ⟨ctx, found, opened, socket, sys, -⟩ := stored.context
  cases c with
  | setfl arg refused =>
    refine iff_of_true ?_ (by simp)
    have passed : (fcntlSetfl s.ctx arg).2 = arg ||| O_NONBLOCK := by
      simp [fcntlSetfl, found, FdCtx.passes, opened, socket, sys]
    cases refused with
    | true => exact on
    | false =>
      change nonblock (setFlags settable s.kernel (fcntlSetfl s.ctx arg).2) = true
      rw [passed]
      exact nonblock_setFlags on (nonblock_or arg) settable
  | getfl => exact iff_of_true on (by simp)
  | fionbio arg =>
    have passed : (ioctlFionbio s.ctx arg).2 = arg := by
      unfold ioctlFionbio
      split <;> rfl
    change nonblock (setNonblock s.kernel (ioctlFionbio s.ctx arg).2) = true ↔ _
    rw [passed, nonblock_setNonblock]
    simp

theorem Stored.separated (stored : Stored s) :
    Separated s ↔ nonblock s.kernel = true := by
  constructor
  · intro separated
    have kernel := separated.kernel
    rw [stored.system] at kernel
    exact (Option.some.inj kernel).symm
  · intro on
    exact ⟨by rw [stored.system, on], stored.mode, stored.others⟩

theorem Stored.run (stored : Stored s) (calls : List ModeCall) :
    Stored (s.run settable calls) := by
  induction calls generalizing s with
  | nil => exact stored
  | cons c rest ih => exact ih (stored.step c)

private theorem prefixes_cons (Law : SocketModes → Prop) (c : ModeCall) (rest : List ModeCall) :
    (∀ before, before <+: c :: rest → Law (s.run settable before)) ↔
      Law s ∧ ∀ before, before <+: rest → Law ((s.step settable c).run settable before) := by
  constructor
  · intro all
    exact ⟨all [] List.nil_prefix,
      fun before first => all (c :: before) (List.cons_prefix_cons.mpr ⟨rfl, first⟩)⟩
  · rintro ⟨here, later⟩ before first
    rcases List.prefix_cons_iff.mp first with rfl | ⟨tail, rfl, shorter⟩
    · exact here
    · exact later tail shorter

/-- The modes are separated after every call exactly if no `FIONBIO` asks for
blocking: `ioctl` stores the request and then passes it on as it is. -/
theorem separated_throughout_iff (settable : BitVec 32) (ctx : FdCtx) (kernel : BitVec 32)
    (opened : ctx.isClose = false) (socket : ctx.isSocket = true)
    (sys : ctx.sysNonblock = true) (on : nonblock kernel = true) (calls : List ModeCall) :
    (∀ before, before <+: calls → Separated ((initial ctx kernel).run settable before)) ↔
      ∀ arg, .fionbio arg ∈ calls → arg ≠ 0 := by
  have stored : Stored (initial ctx kernel) :=
    ⟨⟨ctx, rfl, opened, socket, sys, rfl⟩, nofun, nofun⟩
  have start : nonblock (initial ctx kernel).kernel = true := on
  generalize initial ctx kernel = s at stored start
  induction calls generalizing s with
  | nil =>
    refine iff_of_true (fun before first => ?_) nofun
    rw [List.prefix_nil.mp first]
    exact stored.separated.mpr start
  | cons c rest ih =>
    rw [prefixes_cons, and_iff_right (stored.separated.mpr start)]
    by_cases keeps : c = .fionbio 0
    · refine iff_of_false (fun all => ?_) (fun all => all 0 (by simp [keeps]) rfl)
      have on := (stored.step c).separated.mp (all [] List.nil_prefix)
      exact (stored.kernel_step start c).mp on keeps
    · refine (ih _ (stored.step c) ((stored.kernel_step start c).mpr keeps)).trans ?_
      constructor
      · rintro all arg (_ | later)
        · rintro rfl
          exact keeps rfl
        · exact all arg (by assumption)
      · exact fun all arg later => all arg (List.mem_cons_of_mem c later)

/-- The caller's mode goes on and off, once by a call that the kernel refuses. -/
def modeChanges : List ModeCall :=
  [.getfl, .setfl 0x402 false, .getfl, .fionbio 1, .getfl, .setfl 0x4800 true, .getfl]

theorem mode_changes_separated :
    Separated ((initial {} 0x802).run 0x46c00 modeChanges) :=
  (separated_throughout_iff 0x46c00 {} 0x802 rfl rfl rfl (by decide) modeChanges).mpr
    (by simp [modeChanges]) modeChanges (List.prefix_refl _)

/-- The caller goes back to the mode a socket has at first. -/
theorem blocking_again_mixes_modes :
    ((initial {} 0x802).run 0x46c00 [.fionbio 1, .fionbio 0]).kernel = 0x2 ∧
      ((initial {} 0x802).run 0x46c00 [.fionbio 1, .fionbio 0]).ctx = some {} ∧
      ¬ Separated ((initial {} 0x802).run 0x46c00 [.fionbio 1, .fionbio 0]) := by
  refine ⟨by decide, by decide, fun separated => ?_⟩
  exact absurd separated.kernel (by decide)

end SocketModes
end Synergy
