import Mathlib.Algebra.Ring.Nat
import Synergy.TimerSessions

/-! What one call of `listExpiredCb` hands out, and when the next call would.
The cut through the set is exact although the probe breaks ties by its own
address, and it is where `getNextTimer` says it is. -/
namespace Synergy
open OrderedSet

namespace TimerManager

variable {m : TimerManager} {now : UInt64}

/-- The timers that are to be handed out at a clock reading, in set order. -/
def expiredAt (m : TimerManager) (now : UInt64) : List TimerId :=
  m.timers.filter fun t => m.rolledOver now || decide ((m.heap t).next ≤ now)

theorem mem_expiredAt : t ∈ m.expiredAt now ↔
    t ∈ m.timers ∧ (m.rolledOver now = true ∨ (m.heap t).next ≤ now) := by
  simp [expiredAt]

theorem listExpiredCb_names (sorted : Sorted Timer.comparator m.key m.timers) (now : UInt64)
    (address : ℕ) : (m.listExpiredCb now address).2.map Prod.fst = m.expiredAt now := by
  obtain ⟨expired, rest, previous, split, due, later, whole, _, same⟩ :=
    listExpiredLocked_split m now address
  rw [listExpiredCb_eq, same, expireAll_names, expiredAt, split, List.filter_append]
  have taken : expired.filter (fun t => m.rolledOver now || decide ((m.heap t).next ≤ now)) =
      expired := by
    apply List.filter_eq_self.mpr
    intro t member
    simpa using due t member
  have left : rest.filter (fun t => m.rolledOver now || decide ((m.heap t).next ≤ now)) = [] := by
    apply List.filter_eq_nil_iff.mpr
    intro t member
    have forward : m.rolledOver now = false := by
      apply Bool.eq_false_iff.mpr
      intro rollover
      rw [whole rollover] at member
      cases member
    simpa [forward] using later sorted t member
  rw [taken, left, List.append_nil]

/-- One call of `listExpiredCb`, exactly: what it hands out, and what it leaves
of every timer. -/
structure ExactExpiry (m : TimerManager) (now : UInt64) (after : TimerManager)
    (cbs : List (TimerId × Option Callback)) : Prop where
  due_exactly : ∀ t cb, (t, cb) ∈ cbs ↔
    t ∈ m.timers ∧ (m.rolledOver now = true ∨ (m.heap t).next ≤ now) ∧ cb = (m.heap t).cb
  once : (cbs.map Prod.fst).Nodup
  ordered : cbs.Pairwise fun a b => (m.heap a.1).next ≤ (m.heap b.1).next
  one_shot : ∀ t cb, (t, cb) ∈ cbs → (m.heap t).recurring = false →
    t ∉ after.timers ∧ after.heap t = { m.heap t with cb := none }
  recurring : ∀ t cb, (t, cb) ∈ cbs → (m.heap t).recurring = true →
    t ∈ after.timers ∧ after.heap t = { m.heap t with next := now + (m.heap t).ms }
  others : ∀ t, (∀ cb, (t, cb) ∉ cbs) →
    (t ∈ after.timers ↔ t ∈ m.timers) ∧ after.heap t = m.heap t
  distinct : after.timers.Nodup

theorem listExpiredCb_exact (ready : Represents m []) (now : UInt64) (address : ℕ) :
    ExactExpiry m now (m.listExpiredCb now address).1 (m.listExpiredCb now address).2 := by
  have names := listExpiredCb_names ready.sorted now address
  obtain ⟨represents, expired, expiry⟩ :=
    listExpiredLocked_expiry ready List.nodup_nil now address
  rw [← listExpiredCb_eq] at represents expiry
  have found : expired = m.expiredAt now := by
    rw [← names, expiry.handed, List.map_map]
    exact (List.map_id _).symm
  have pair : ∀ t cb, (t, cb) ∈ (m.listExpiredCb now address).2 ↔
      t ∈ expired ∧ cb = (m.heap t).cb := by
    intro t cb
    rw [expiry.handed, List.mem_map]
    constructor
    · rintro ⟨b, member, same⟩
      cases same
      exact ⟨member, rfl⟩
    · rintro ⟨member, rfl⟩
      exact ⟨t, member, rfl⟩
  constructor
  case due_exactly =>
    intro t cb
    rw [pair, found, mem_expiredAt, and_assoc]
  case once =>
    rw [names, ← found]
    exact expiry.distinct
  case ordered =>
    rw [expiry.handed, List.pairwise_map, found]
    exact (next_ordered ready.sorted).sublist List.filter_sublist
  case one_shot =>
    intro t cb handed once
    have member := ((pair t cb).mp handed).1
    constructor
    · intro inside
      have again := ((expiry.members t).mp inside).2 member
      rw [once] at again
      cases again
    · rw [expiry.heap, if_pos member]
      simp [expiredTimer, once]
  case recurring =>
    intro t cb handed again
    have member := ((pair t cb).mp handed).1
    constructor
    · exact (expiry.members t).mpr ⟨expiry.pending t member, fun _ => again⟩
    · rw [expiry.heap, if_pos member]
      simp [expiredTimer, again]
  case others =>
    intro t absent
    have missed : t ∉ expired := fun member => absent _ ((pair t _).mpr ⟨member, rfl⟩)
    constructor
    · rw [expiry.members t]
      simp [missed]
    · rw [expiry.heap, if_neg missed]
  case distinct => exact represents.nodup

/-- Without a rollover something is handed out exactly when the first timer is
due. -/
theorem hands_out_iff (sorted : Sorted Timer.comparator m.key m.timers)
    (forward : m.previouseTime ≤ now) (address : ℕ) (front : m.timers.head? = some first) :
    (m.listExpiredCb now address).2 = [] ↔ now < (m.heap first).next := by
  have empty : (m.listExpiredCb now address).2 = [] ↔ m.expiredAt now = [] := by
    rw [← listExpiredCb_names sorted now address, List.map_eq_nil_iff]
  have member : first ∈ m.timers := List.mem_of_mem_head? front
  rw [empty, expiredAt, List.filter_eq_nil_iff]
  simp only [no_rollover forward, Bool.false_or, decide_eq_true_eq, UInt64.not_le]
  constructor
  · intro later
    exact later first member
  · intro future t inside
    obtain ⟨rest, shape⟩ := List.head?_eq_some_iff.mp front
    have ordered := next_ordered sorted
    rw [shape] at ordered inside
    rcases List.mem_cons.mp inside with rfl | behind
    · exact future
    · exact UInt64.lt_of_lt_of_le future ((List.pairwise_cons.mp ordered).1 t behind)

/-- The delay `getNextTimer` returns, by the first timer of the set. -/
theorem getNextTimer_delay (m : TimerManager) (now : UInt64) :
    (m.getNextTimer now).2 = match m.timers.head? with
      | none => 0xffffffffffffffff
      | some first => if (m.heap first).next ≤ now then 0 else (m.heap first).next - now := by
  unfold getNextTimer
  cases m.timers with
  | nil => rfl
  | cons first rest =>
    dsimp only [List.head?_cons]
    split <;> rfl

/-- The wait until a due time in the future ends exactly there, and neither
wraps nor reaches the value that stands for infinity. -/
private theorem wait_until {next : UInt64} (positive : 1 ≤ now) (future : now < next) :
    next - now ≠ 0 ∧ next - now ≠ 0xffffffffffffffff ∧
      now.toNat + (next - now).toNat < 2 ^ 64 ∧ now + (next - now) = next ∧
      ∀ k < next - now, now ≤ now + k ∧ now + k < next := by
  rw [UInt64.le_iff_toNat_le] at positive
  rw [UInt64.lt_iff_toNat_lt] at future
  have bound := next.toNat_lt
  have wait : (next - now).toNat = next.toNat - now.toNat :=
    UInt64.toNat_sub_of_le _ _ (UInt64.le_iff_toNat_le.mpr (Nat.le_of_lt future))
  have one : (1 : UInt64).toNat = 1 := rfl
  have infinity : (0xffffffffffffffff : UInt64).toNat = 2 ^ 64 - 1 := rfl
  refine ⟨?_, ?_, by omega, ?_, ?_⟩
  · intro zero
    rw [zero] at wait
    simp only [UInt64.toNat_zero] at wait
    omega
  · intro endless
    rw [endless] at wait
    omega
  · rw [UInt64.add_comm]
    exact UInt64.sub_add_cancel _ _
  · intro k before
    rw [UInt64.lt_iff_toNat_lt, wait] at before
    have sum : (now + k).toNat = now.toNat + k.toNat := by
      rw [UInt64.toNat_add]
      apply Nat.mod_eq_of_lt
      omega
    rw [UInt64.le_iff_toNat_le, UInt64.lt_iff_toNat_lt, sum]
    omega

/-- `getNextTimer` at a clock reading, against what `listExpiredCb` would hand
out from then on. -/
structure NextAgrees (m : TimerManager) (now : UInt64) (waiting : TimerManager)
    (delay : UInt64) : Prop where
  never : delay = 0xffffffffffffffff ↔ m.timers = []
  now_due : ∀ address, delay = 0 ↔ (waiting.listExpiredCb now address).2 ≠ []
  no_wrap : m.timers ≠ [] → now.toNat + delay.toNat < 2 ^ 64
  nothing_before : m.timers ≠ [] → ∀ k < delay, ∀ address,
    (waiting.listExpiredCb (now + k) address).2 = []
  first_then : ∀ first, m.timers.head? = some first → ∀ address,
    (first, (m.heap first).cb) ∈ (waiting.listExpiredCb (now + delay) address).2

/-- Behind `getNextTimer`, the first timer decides at every reading. -/
private theorem waiting_silent_iff (ready : Represents m []) (front : m.timers.head? = some first)
    (past : m.previouseTime ≤ later) (address : ℕ) :
    ((m.getNextTimer now).1.listExpiredCb later address).2 = [] ↔ later < (m.heap first).next := by
  rw [getNextTimer_waits]
  exact hands_out_iff (ready.retickle false).sorted past address front

private theorem waiting_hands_first (ready : Represents m [])
    (front : m.timers.head? = some first) (due : (m.heap first).next ≤ later) (address : ℕ) :
    (first, (m.heap first).cb) ∈ ((m.getNextTimer now).1.listExpiredCb later address).2 := by
  rw [getNextTimer_waits]
  apply ((listExpiredCb_exact (ready.retickle false) later address).due_exactly _ _).mpr
  exact ⟨List.mem_of_mem_head? front, .inr due, rfl⟩

theorem getNextTimer_agrees (ready : Represents m []) (positive : 1 ≤ now)
    (forward : m.previouseTime ≤ now) :
    NextAgrees m now (m.getNextTimer now).1 (m.getNextTimer now).2 := by
  have delay := getNextTimer_delay m now
  cases front : m.timers.head? with
  | none =>
    have empty := List.head?_eq_none_iff.mp front
    rw [front] at delay
    have silent : ∀ address, ((m.getNextTimer now).1.listExpiredCb now address).2 = [] := by
      intro address
      simp [getNextTimer_waits, listExpiredCb, empty]
    constructor
    case never => simp [delay, empty]
    case now_due => simp [delay, silent]
    all_goals simp [empty]
  | some first =>
    have filled : m.timers ≠ [] := by
      intro empty
      simp [empty] at front
    rw [front] at delay
    have silent_iff : ∀ later, now ≤ later → ∀ address,
        (((m.getNextTimer now).1.listExpiredCb later address).2 = [] ↔
          later < (m.heap first).next) := fun later past =>
      waiting_silent_iff ready front (UInt64.le_trans forward past)
    by_cases due : (m.heap first).next ≤ now
    · simp only [due, ↓reduceIte] at delay
      rw [delay]
      constructor
      case never => simp [filled]
      case now_due =>
        intro address
        simp only [true_iff]
        intro silent
        exact UInt64.not_lt.mpr due ((silent_iff now (UInt64.le_refl _) address).mp silent)
      case no_wrap =>
        intro _
        exact now.toNat_lt
      case nothing_before =>
        intro _ k before
        exact absurd before UInt64.not_lt_zero
      case first_then =>
        intro other same address
        cases front.symm.trans same
        rw [UInt64.add_zero]
        exact waiting_hands_first ready front due address
    · simp only [due, ↓reduceIte] at delay
      have future : now < (m.heap first).next := UInt64.not_le.mp due
      obtain ⟨nonzero, finite, fits, arrives, before⟩ := wait_until positive future
      rw [delay]
      constructor
      case never => simp [finite, filled]
      case now_due =>
        intro address
        simp [nonzero, (silent_iff now (UInt64.le_refl _) address).mpr future]
      case no_wrap => exact fun _ => fits
      case nothing_before =>
        intro _ k early address
        exact (silent_iff (now + k) (before k early).1 address).mpr (before k early).2
      case first_then =>
        intro other same address
        cases front.symm.trans same
        rw [arrives]
        exact waiting_hands_first ready front (UInt64.le_refl _) address

end TimerManager

namespace TimerSession
open TimerManager

/-- Whatever was called before, one call of `listExpiredCb` hands out exactly
what is due, once and in order, and re-arms or disarms exactly that. -/
theorem list_expired_is_exact (start : UInt64)
    (reached : Runs.Reachable step (initial start) s) (now : UInt64) (address : ℕ) :
    ExactExpiry s.manager now (s.manager.listExpiredCb now address).1
      (s.manager.listExpiredCb now address).2 :=
  listExpiredCb_exact (wellFormed_run reached).represents now address

/-- Two timers due together around the address of the probe, one of them
recurring without an interval, and one that is not due. -/
def tiedCalls : List (UInt64 × TimerCall) :=
  [(5, .addTimer 15 (some (.function 1)) false 40), (20, .addTimer 0 (some (.function 2)) true 8),
    (5, .addTimer 100 (some (.function 3)) false 24)]

theorem tied_calls_expire_exactly :
    ∃ s, Runs.run step (initial 5) tiedCalls = some s ∧
      (s.manager.listExpiredCb 20 16).2 =
        [(1, some (.function 2)), (0, some (.function 1))] ∧
      (s.manager.listExpiredCb 20 16).1.timers = [1, 2] ∧
      ExactExpiry s.manager 20 (s.manager.listExpiredCb 20 16).1
        (s.manager.listExpiredCb 20 16).2 :=
  ⟨_, rfl, by decide, by decide,
    list_expired_is_exact 5 (Runs.reachable_of_run tiedCalls rfl) 20 16⟩

/-- Whatever was called before, the delay that `getNextTimer` returns ends at
the first clock reading at which `listExpiredCb` hands something out. -/
theorem next_timer_is_when_something_expires (start : UInt64)
    (reached : Runs.Reachable step (initial start) s) (positive : 1 ≤ now)
    (forward : s.manager.previouseTime ≤ now) :
    NextAgrees s.manager now (s.manager.getNextTimer now).1 (s.manager.getNextTimer now).2 :=
  getNextTimer_agrees (wellFormed_run reached).represents positive forward

theorem tied_calls_agree_on_next :
    ∃ s, Runs.run step (initial 5) tiedCalls = some s ∧ (s.manager.getNextTimer 12).2 = 8 ∧
      NextAgrees s.manager 12 (s.manager.getNextTimer 12).1 (s.manager.getNextTimer 12).2 :=
  ⟨_, rfl, by decide, next_timer_is_when_something_expires 5
    (Runs.reachable_of_run tiedCalls rfl) (by decide) (by decide)⟩

end TimerSession
end Synergy
