import Mathlib.Algebra.Order.Field.Rat
import Mathlib.Tactic.FieldSimp
import Mathlib.Tactic.Linarith
import Mathlib.Tactic.NormNum
import Synergy.TimerTable

/-! The hooked `sleep`, `usleep` and `nanosleep` of `hook.cc`. With the hook
enabled each registers one timer that schedules the fiber again, and yields. -/
namespace Synergy
open OrderedSet TimerManager

/-- A `timespec` that `nanosleep` accepts. -/
structure Timespec where
  tv_sec : Int64
  tv_nsec : Int64
  sec_nonneg : 0 ≤ tv_sec.toInt
  nsec_nonneg : 0 ≤ tv_nsec.toInt
  nsec_le : tv_nsec.toInt ≤ 999999999

/-- A result of `long` arithmetic; overflow is undefined. -/
def asLong (x : ℤ) : Option Int64 :=
  if -2 ^ 63 ≤ x ∧ x < 2 ^ 63 then some (Int64.ofInt x) else none

inductive SleepCall where
  | sleep (seconds : UInt32)
  | usleep (usec : UInt32)
  | nanosleep (req : Timespec)

namespace SleepCall

/-- `int timeout_ms` of `nanosleep`. -/
def timeout_ms (req : Timespec) : Option Int32 := do
  let sec_ms ← asLong (req.tv_sec.toInt * 1000)
  let ms ← asLong (sec_ms.toInt + (req.tv_nsec / 1000 / 1000).toInt)
  pure ms.toInt32

/-- The argument of `addTimer`, converted to `uint64_t`. -/
def ms : SleepCall → Option UInt64
  | .sleep seconds => some (seconds * 1000).toUInt64
  | .usleep usec => some (usec / 1000).toUInt64
  | .nanosleep req => (timeout_ms req).map fun timeout => timeout.toInt64.toUInt64

/-- The call up to `yield`. With the hook off it goes to the system. -/
def register (call : SleepCall) (t_hook_enable : Bool) (s : TimerSession) (now : UInt64)
    (fiber address : ℕ) : Option TimerSession :=
  if !t_hook_enable then some s
  else call.ms.bind fun ms => s.step (now, .addTimer ms (some (.function fiber)) false address)

def nanoseconds : SleepCall → ℕ
  | .sleep seconds => seconds.toNat * 10 ^ 9
  | .usleep usec => usec.toNat * 10 ^ 3
  | .nanosleep req => req.tv_sec.toInt.toNat * 10 ^ 9 + req.tv_nsec.toInt.toNat

/-- What the caller asks for, in milliseconds. -/
def requested (call : SleepCall) : ℚ := call.nanoseconds / 10 ^ 6

/-- The timer registered is due no earlier than the caller asks. -/
def SleepsEnough (call : SleepCall) (s : TimerSession) (now : UInt64) (fiber address : ℕ) : Prop :=
  ∃ u, call.register true s now fiber address = some u ∧
    s.manager.constructed ∈ u.manager.timers ∧
    now.toNat + call.requested ≤ (u.manager.heap s.manager.constructed).next.toNat

/-- No conversion loses anything; or `timeout_ms` turns negative, hence huge as
`uint64_t`, and the clock is still too low for the sum to wrap. -/
def Converts (now : UInt64) : SleepCall → Prop
  | .sleep seconds => seconds.toNat * 1000 < 2 ^ 32
  | .usleep usec => 1000 ∣ usec.toNat
  | .nanosleep req =>
    let ms := req.tv_sec.toInt.toNat * 1000 + req.tv_nsec.toInt.toNat / 10 ^ 6
    ms < 2 ^ 31 ∧ 10 ^ 6 ∣ req.tv_nsec.toInt.toNat ∨
      ms < 2 ^ 63 ∧ 2 ^ 31 ≤ ms % 2 ^ 32 ∧ now.toNat + ms % 2 ^ 32 < 2 ^ 32

theorem asLong_nat (n : ℕ) :
    asLong n = if n < 2 ^ 63 then some (Int64.ofInt n) else none := by
  unfold asLong
  by_cases fits : n < 2 ^ 63
  · rw [if_pos fits, if_pos (by omega)]
  · rw [if_neg fits, if_neg (by omega)]

theorem toInt_ofInt_nat {n : ℕ} (fits : n < 2 ^ 63) : (Int64.ofInt n).toInt = n := by
  apply Int64.toInt_ofInt_of_le <;> omega

theorem nsec_to_ms (req : Timespec) :
    (req.tv_nsec / 1000 / 1000).toInt = (req.tv_nsec.toInt.toNat / 10 ^ 6 : ℕ) := by
  have lower := req.nsec_nonneg
  have upper := req.nsec_le
  rw [Int64.toInt_div_of_ne_right _ _ (by decide), Int64.toInt_div_of_ne_right _ _ (by decide)]
  change (req.tv_nsec.toInt.tdiv 1000).tdiv 1000 = _
  rw [Int.tdiv_eq_ediv_of_nonneg lower, Int.tdiv_eq_ediv_of_nonneg (by omega)]
  omega

/-- The milliseconds of a `timespec`, rounded down. -/
theorem timeout_ms_eq (req : Timespec) :
    timeout_ms req =
      if req.tv_sec.toInt.toNat * 1000 + req.tv_nsec.toInt.toNat / 10 ^ 6 < 2 ^ 63 then
        some (Int64.ofInt
          (req.tv_sec.toInt.toNat * 1000 + req.tv_nsec.toInt.toNat / 10 ^ 6 : ℕ)).toInt32
      else none := by
  have seconds : req.tv_sec.toInt * 1000 = (req.tv_sec.toInt.toNat * 1000 : ℕ) := by
    have nonneg := req.sec_nonneg
    omega
  unfold timeout_ms
  rw [seconds, asLong_nat, nsec_to_ms]
  by_cases first : req.tv_sec.toInt.toNat * 1000 < 2 ^ 63
  · rw [if_pos first]
    simp only [Option.bind_eq_bind, Option.bind_some]
    rw [toInt_ofInt_nat first, ← Nat.cast_add, asLong_nat]
    by_cases whole : req.tv_sec.toInt.toNat * 1000 + req.tv_nsec.toInt.toNat / 10 ^ 6 < 2 ^ 63
    · rw [if_pos whole, if_pos whole]
      rfl
    · rw [if_neg whole, if_neg whole]
      rfl
  · have whole : ¬ req.tv_sec.toInt.toNat * 1000 + req.tv_nsec.toInt.toNat / 10 ^ 6 < 2 ^ 63 :=
      fun fits => first (Nat.lt_of_le_of_lt (Nat.le_add_right _ _) fits)
    rw [if_neg first, if_neg whole, Option.bind_eq_bind, Option.bind_none]

/-- Narrowing to `int` keeps 32 bits; widening copies the sign bit up. -/
theorem narrowed_toNat {n : ℕ} (fits : n < 2 ^ 63) :
    (Int64.ofInt n).toInt32.toInt64.toUInt64.toNat =
      if n % 2 ^ 32 < 2 ^ 31 then n % 2 ^ 32 else 2 ^ 64 - 2 ^ 32 + n % 2 ^ 32 := by
  have value : (Int64.ofInt n).toInt32.toInt64.toInt = (n : ℤ).bmod (2 ^ 32) := by
    rw [Int32.toInt_toInt64, Int64.toInt_toInt32, toInt_ofInt_nat fits]
  have bits := BitVec.toInt_eq_toNat_cond (Int64.ofInt n).toInt32.toInt64.toBitVec
  change (Int64.ofInt n).toInt32.toInt64.toInt = _ at bits
  have bound := (Int64.ofInt n).toInt32.toInt64.toUInt64.toNat_lt
  rw [value, Int64.toNat_toBitVec, Int.bmod_def] at bits
  split at bits <;> split at bits <;> split <;> omega

theorem requested_le_iff (call : SleepCall) (now next : ℕ) :
    (now : ℚ) + call.requested ≤ next ↔ now * 10 ^ 6 + call.nanoseconds ≤ next * 10 ^ 6 := by
  have scaled : (now : ℚ) + call.requested =
      ((now * 10 ^ 6 + call.nanoseconds : ℕ) : ℚ) / 10 ^ 6 := by
    rw [requested, Nat.cast_add, add_div, Nat.cast_mul, Nat.cast_pow, Nat.cast_ofNat]
    rw [mul_div_cancel_right₀ _ (by norm_num)]
  rw [scaled, div_le_iff₀ (by norm_num)]
  exact_mod_cast Iff.rfl

private theorem rounded_up_lt {now wanted limit : ℕ}
    (fits : now * 10 ^ 6 + wanted ≤ limit * 10 ^ 6) :
    now + (wanted + 999999) / 10 ^ 6 < limit + 1 := by
  omega

theorem fits_iff (call : SleepCall) (now : ℕ) :
    (now : ℚ) + call.requested ≤ 2 ^ 64 - 1 ↔
      now * 10 ^ 6 + call.nanoseconds ≤ 18446744073709551615 * 10 ^ 6 := by
  have limit : (2 ^ 64 - 1 : ℚ) = (18446744073709551615 : ℕ) := by norm_num
  rw [limit, requested_le_iff]

/-- A whole number of milliseconds short of the request is too early. -/
theorem wait_iff {now waited wanted : ℕ} (short : waited * 10 ^ 6 ≤ wanted)
    (fits : now + (wanted + 999999) / 10 ^ 6 < 2 ^ 64) :
    now * 10 ^ 6 + wanted ≤ (now + waited) % 2 ^ 64 * 10 ^ 6 ↔ waited * 10 ^ 6 = wanted := by
  have small : now + waited < 2 ^ 64 := by omega
  rw [Nat.mod_eq_of_lt small]
  omega

/-- What is registered is due the converted interval after the reading. -/
theorem sleepsEnough_iff_ms (reached : Runs.Reachable TimerSession.step (.initial start) s)
    (unoccupied : TimerSession.Unoccupied s.manager address) (call : SleepCall) (now : UInt64)
    (fiber : ℕ) :
    SleepsEnough call s now fiber address ↔
      ∃ ms, call.ms = some ms ∧ now.toNat + call.requested ≤ (now + ms).toNat := by
  obtain ⟨ready, -⟩ := TimerSession.wellFormed_run reached
  unfold SleepsEnough register
  cases converted : call.ms with
  | none => simp
  | some ms =>
    obtain ⟨u, stepped⟩ := (TimerSession.enabled_iff ready now
      (.addTimer ms (some (.function fiber)) false address)).mpr unoccupied
    have added := TimerSession.step_table ready stepped
    have pending : s.manager.constructed ∈ u.manager.timers := by
      change s.manager.constructed ∈ u.manager.table.pending
      rw [added]
      exact Set.mem_insert _ _
    have due : (u.manager.heap s.manager.constructed).next = now + ms := by
      change (u.manager.table.timer s.manager.constructed).next = _
      rw [added]
      simp [TimerTable.call, TimerTable.add, TimerManager.table, Timer.armed]
    simp [stepped, pending, due]

private theorem sleep_iff (seconds : UInt32) (now : UInt64)
    (fits : now.toNat + ((sleep seconds).nanoseconds + 999999) / 10 ^ 6 < 2 ^ 64) :
    now.toNat * 10 ^ 6 + (sleep seconds).nanoseconds ≤
      (now + (seconds * 1000).toUInt64).toNat * 10 ^ 6 ↔ seconds.toNat * 1000 < 2 ^ 32 := by
  have product : (seconds * 1000).toUInt64.toNat = seconds.toNat * 1000 % 2 ^ 32 := by
    simp
  have short : seconds.toNat * 1000 % 2 ^ 32 * 10 ^ 6 ≤ seconds.toNat * 10 ^ 9 := by omega
  simp only [nanoseconds] at fits ⊢
  rw [UInt64.toNat_add, product, wait_iff short fits]
  omega

private theorem usleep_iff (usec : UInt32) (now : UInt64)
    (fits : now.toNat + ((usleep usec).nanoseconds + 999999) / 10 ^ 6 < 2 ^ 64) :
    now.toNat * 10 ^ 6 + (usleep usec).nanoseconds ≤
      (now + (usec / 1000).toUInt64).toNat * 10 ^ 6 ↔ 1000 ∣ usec.toNat := by
  have quotient : (usec / 1000).toUInt64.toNat = usec.toNat / 1000 := by
    simp
  have short : usec.toNat / 1000 * 10 ^ 6 ≤ usec.toNat * 10 ^ 3 := by omega
  simp only [nanoseconds] at fits ⊢
  rw [UInt64.toNat_add, quotient, wait_iff short fits]
  omega

/-- A value that narrows to a negative `int` waits almost `2 ^ 64`, or wraps. -/
private theorem nanosleep_iff (req : Timespec) (now : UInt64)
    (fits : now.toNat + ((nanosleep req).nanoseconds + 999999) / 10 ^ 6 < 2 ^ 64) :
    (∃ ms, (nanosleep req).ms = some ms ∧
      now.toNat * 10 ^ 6 + (nanosleep req).nanoseconds ≤ (now + ms).toNat * 10 ^ 6) ↔
      Converts now (nanosleep req) := by
  have below : req.tv_nsec.toInt.toNat < 10 ^ 9 := by
    have upper := req.nsec_le
    omega
  simp only [ms, timeout_ms_eq, Converts, nanoseconds] at fits ⊢
  generalize req.tv_sec.toInt.toNat = sec at fits ⊢
  generalize req.tv_nsec.toInt.toNat = nsec at fits below ⊢
  by_cases whole : sec * 1000 + nsec / 10 ^ 6 < 2 ^ 63
  · rw [if_pos whole]
    simp only [Option.map_some, Option.some.injEq, exists_eq_left', UInt64.toNat_add,
      narrowed_toNat whole]
    by_cases low : (sec * 1000 + nsec / 10 ^ 6) % 2 ^ 32 < 2 ^ 31
    · have short : (sec * 1000 + nsec / 10 ^ 6) % 2 ^ 32 * 10 ^ 6 ≤ sec * 10 ^ 9 + nsec := by
        omega
      rw [if_pos low, wait_iff short fits]
      omega
    · rw [if_neg low]
      omega
  · rw [if_neg whole]
    simp only [Option.map_none, reduceCtorEq, false_and, exists_false, false_iff]
    omega

/-- A hooked sleep waits for the whole time asked exactly where the conversions
do. -/
theorem sleeps_enough_iff_converts (start : UInt64)
    (reached : Runs.Reachable TimerSession.step (.initial start) s)
    (unoccupied : TimerSession.Unoccupied s.manager address) (call : SleepCall) (now : UInt64)
    (fiber : ℕ) (fits : (now.toNat : ℚ) + call.requested ≤ 2 ^ 64 - 1) :
    SleepsEnough call s now fiber address ↔ call.Converts now := by
  have whole : now.toNat + (call.nanoseconds + 999999) / 10 ^ 6 < 2 ^ 64 :=
    lt_of_lt_of_eq (rounded_up_lt ((fits_iff call now.toNat).mp fits)) (by norm_num)
  rw [sleepsEnough_iff_ms reached unoccupied]
  simp only [requested_le_iff]
  cases call with
  | sleep seconds => simpa [ms, Converts] using sleep_iff seconds now whole
  | usleep usec => simpa [ms, Converts] using usleep_iff usec now whole
  | nanosleep req => exact nanosleep_iff req now whole

/-- The longest `sleep` that is not cut, while another timer is pending. -/
theorem longest_sleep_sleeps_enough :
    ∃ s, TimerSession.step (.initial 5) (5, .addTimer 100 none true 8) = some s ∧
      SleepsEnough (.sleep 4294967) s 9 1 40 :=
  ⟨_, rfl, (sleeps_enough_iff_converts 5
    (Runs.reachable_of_run [(5, .addTimer 100 none true 8)] rfl) (by decide) _ 9 1
    ((fits_iff _ _).mpr (by decide))).mpr (by decide : 4294967 * 1000 < 2 ^ 32)⟩

/-- The request fits, and the timer of a fresh manager is due too early for it. -/
def FallsShort (now : UInt64) (call : SleepCall) : Prop :=
  (now.toNat : ℚ) + call.requested ≤ 2 ^ 64 - 1 ∧
    ¬ SleepsEnough call (.initial now) now 1 40

theorem fallsShort_iff (now : UInt64) (call : SleepCall) :
    FallsShort now call ↔
      now.toNat * 10 ^ 6 + call.nanoseconds ≤ 18446744073709551615 * 10 ^ 6 ∧
        ∀ ms, call.ms = some ms →
          (now + ms).toNat * 10 ^ 6 < now.toNat * 10 ^ 6 + call.nanoseconds := by
  have unoccupied : TimerSession.Unoccupied (TimerSession.initial now).manager 40 :=
    fun t held => nomatch held
  simp only [FallsShort, fits_iff, sleepsEnough_iff_ms .refl unoccupied, requested_le_iff,
    not_exists, not_and, Nat.not_le]

/-- About 49 days, a millisecond and a half, half a millisecond, and about 24
days on a system up for longer. -/
theorem short_sleeps_fall_short :
    FallsShort 5 (.sleep 4294968) ∧ FallsShort 5 (.usleep 1500) ∧
      FallsShort 5 (.nanosleep ⟨0, 500000, by decide, by decide, by decide⟩) ∧
      FallsShort 5000000000 (.nanosleep ⟨2147484, 0, by decide, by decide, by decide⟩) := by
  simp only [fallsShort_iff]
  refine ⟨⟨by decide, ?_⟩, ⟨by decide, ?_⟩, ⟨by decide, ?_⟩, by decide, ?_⟩
  all_goals
    intro ms converted
    cases converted
    decide

end SleepCall
end Synergy
