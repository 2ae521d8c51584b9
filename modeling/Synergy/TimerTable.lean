import Mathlib.Data.Set.Insert
import Synergy.TimerExpiry

/-! What the timer manager is for: timers, and the set of those that are
pending. There is no order here, no search and no early return. Each call of the
code does to the table exactly what is said here, and the order of `m_timers`
follows from the table. -/
namespace Synergy
open OrderedSet TimerManager

/-- The timers by name, those pending, and the reading `detectClockRollover`
remembers. -/
@[ext] structure TimerTable where
  timer : TimerId → Timer
  pending : Set TimerId
  constructed : ℕ
  previous : UInt64

namespace TimerTable

/-- A timer that still has its callback. -/
def Armed (a : TimerTable) (t : TimerId) : Prop := (a.timer t).cb.isSome = true

instance (a : TimerTable) (t : TimerId) : Decidable (a.Armed t) :=
  inferInstanceAs (Decidable (_ = true))

/-- The clock is taken to have gone back by more than an hour. -/
def WentBack (a : TimerTable) (now : UInt64) : Prop :=
  now < a.previous ∧ now < a.previous - 60 * 60 * 1000

/-- Handed out at this clock reading. -/
def Due (a : TimerTable) (now : UInt64) (t : TimerId) : Prop :=
  t ∈ a.pending ∧ (a.WentBack now ∨ (a.timer t).next ≤ now)

def write (a : TimerTable) (t : TimerId) (value : Timer) : TimerTable :=
  { a with timer := Function.update a.timer t value }

/-- A new timer is pending from the start. -/
def add (a : TimerTable) (value : Timer) : TimerTable where
  timer := Function.update a.timer a.constructed value
  pending := insert a.constructed a.pending
  constructed := a.constructed + 1
  previous := a.previous

open Classical in
/-- What is due is re-armed or disarmed; nothing happens where nothing is
pending. -/
noncomputable def expire (a : TimerTable) (now : UInt64) : TimerTable where
  timer := fun t => if a.Due now t then expiredTimer now (a.timer t) else a.timer t
  pending := { t | t ∈ a.pending ∧ (a.Due now t → (a.timer t).recurring = true) }
  constructed := a.constructed
  previous := if a.pending = ∅ then a.previous else now

/-- One call at one clock reading. -/
noncomputable def call (a : TimerTable) (now : UInt64) : TimerCall → TimerTable
  | .addTimer ms cb recurring address => a.add (.armed now ms cb recurring address)
  | .addConditionTimer ms cb weak_cond recurring address =>
    a.add (.armed now ms (some (.onTimer weak_cond cb)) recurring address)
  | .cancel t =>
    if a.Armed t then
      { a.write t { a.timer t with cb := none } with pending := a.pending \ {t} }
    else a
  | .refresh t => if a.Armed t then a.write t (refreshTimer (a.timer t) now) else a
  | .reset t ms from_now =>
    if a.Armed t then a.write t (resetTimer (a.timer t) ms from_now now) else a
  | .getNextTimer | .hasTimer => a
  | .listExpiredCb _ => a.expire now

/-- An allocation avoids the addresses in use, and an operation needs a handle. -/
def Admits (a : TimerTable) : TimerCall → Prop
  | .addTimer _ _ _ address | .addConditionTimer _ _ _ _ address =>
    ∀ t ∈ a.pending, (a.timer t).address ≠ address
  | .cancel t | .refresh t | .reset t _ _ => t < a.constructed
  | .getNextTimer | .hasTimer | .listExpiredCb _ => True

end TimerTable

namespace TimerManager

variable {m : TimerManager} {now : UInt64}

/-- The table that a manager holds. -/
def table (m : TimerManager) : TimerTable where
  timer := m.heap
  pending := { t | t ∈ m.timers }
  constructed := m.constructed
  previous := m.previouseTime

theorem wentBack_iff : m.table.WentBack now ↔ m.rolledOver now = true := by
  simp [TimerTable.WentBack, rolledOver, table]

theorem mem_expiredAt_iff_due : t ∈ m.expiredAt now ↔ m.table.Due now t := by
  rw [mem_expiredAt, TimerTable.Due, wentBack_iff]
  rfl

theorem rekey_table (ready : Represents m []) (member : t ∈ m.timers) (value : Timer)
    (address : value.address = (m.heap t).address) :
    (m.rekey t value).table = m.table.write t value := by
  ext b
  · rfl
  · exact (ready.rekey member value address).2 b
  · rfl
  · rfl

theorem announce_table (m : TimerManager) (t : TimerId) : (m.announce t).1.table = m.table := by
  unfold announce
  split <;> rfl

theorem cancel_table (ready : Represents m []) (value : Timer) :
    ((m.eraseTimer t).store t value).table =
      { m.table.write t value with pending := m.table.pending \ {t} } := by
  ext b
  · rfl
  · simp [table, eraseTimer, ready.nodup.mem_erase_iff, and_comm]
  · rfl
  · rfl

/-- A reset to the interval the timer has, from where it was, is no change. -/
theorem reset_same_write (m : TimerManager) (t : TimerId) (now : UInt64) :
    m.table.write t (resetTimer (m.heap t) (m.heap t).ms false now) = m.table := by
  have same : resetTimer (m.heap t) (m.heap t).ms false now = m.heap t := by
    simp [resetTimer]
  rw [same]
  ext b
  · simp [TimerTable.write, table]
  · rfl
  · rfl
  · rfl

/-- `detectClockRollover` runs whenever something is pending. -/
theorem listExpiredLocked_previous (filled : m.timers ≠ []) (now : UInt64) (address : ℕ) :
    (m.listExpiredLocked now address).1.previouseTime = now := by
  cases shape : m.timers with
  | nil => exact absurd shape filled
  | cons first rest =>
    by_cases early : (!m.rolledOver now && decide ((m.heap first).next > now)) = true
    · simp only [listExpiredLocked, shape, detectClockRollover, early, ↓reduceIte]
    · simp only [listExpiredLocked, shape, detectClockRollover, early, Bool.false_eq_true,
        ↓reduceIte]
      exact (expireAll_frame now _ _).2.2

theorem listExpiredCb_table (ready : Represents m []) (now : UInt64) (address : ℕ) :
    (m.listExpiredCb now address).1.table = m.table.expire now := by
  have names := listExpiredCb_names ready.sorted now address
  obtain ⟨-, expired, expiry⟩ := listExpiredLocked_expiry ready List.nodup_nil now address
  rw [← listExpiredCb_eq] at expiry
  have found : ∀ t, t ∈ expired ↔ m.table.Due now t := by
    intro t
    rw [← mem_expiredAt_iff_due, ← names, expiry.handed, List.map_map]
    simp
  classical
  apply TimerTable.ext
  case timer =>
    funext b
    change (m.listExpiredCb now address).1.heap b =
      if m.table.Due now b then expiredTimer now (m.heap b) else m.heap b
    rw [expiry.heap b]
    simp only [found b]
  case pending =>
    ext b
    change b ∈ (m.listExpiredCb now address).1.timers ↔
      b ∈ m.timers ∧ (m.table.Due now b → (m.heap b).recurring = true)
    rw [expiry.members b, found b]
  case constructed => exact expiry.constructed
  case previous =>
    change (m.listExpiredCb now address).1.previouseTime =
      if m.table.pending = ∅ then m.previouseTime else now
    have empty_iff : m.table.pending = ∅ ↔ m.timers = [] := by
      simp [table, Set.eq_empty_iff_forall_notMem, List.eq_nil_iff_forall_not_mem]
    by_cases empty : m.timers = []
    · rw [if_pos (empty_iff.mpr empty)]
      simp [listExpiredCb, empty]
    · rw [if_neg (empty_iff.not.mpr empty), listExpiredCb_eq, listExpiredLocked_previous empty]

/-- Strict order leaves one way to list the pending timers. -/
theorem timers_of_table {m' : TimerManager} (ready : Represents m []) (ready' : Represents m' [])
    (timers : m.heap = m'.heap) (pending : m.table.pending = m'.table.pending) :
    m.timers = m'.timers := by
  have perm : m.timers.Perm m'.timers := by
    apply (List.perm_ext_iff_of_nodup ready.nodup ready'.nodup).mpr
    intro t
    exact Set.ext_iff.mp pending t
  have sorted : Sorted Timer.comparator m.key m'.timers := by
    have same : m.key = m'.key := by
      funext t
      rw [key, key, timers]
    rw [same]
    exact ready'.sorted
  apply perm.eq_of_pairwise _ ready.sorted sorted
  intro a b _ _ before after
  have circle := Timer.comparator_strict.trans _ _ _ before after
  rw [Timer.comparator_strict.irrefl] at circle
  cases circle

end TimerManager

namespace TimerSession

variable {s u : TimerSession}

private theorem add_table (ready : Represents s.manager [])
    (stepped : step s (now, .addTimer ms cb recurring address) = some u) :
    u.manager.table = s.manager.table.add (.armed now ms cb recurring address) := by
  simp only [step] at stepped
  split at stepped
  · rename_i unoccupied
    cases stepped
    have built := ready.construct now ms cb recurring address
      (fun t held => unoccupied t (held.resolve_right (by simp)))
    have placed := built.insert (by simp)
    have announced := addTimerLocked_eq placed.1 ((placed.2 _).mpr (.inl rfl))
    change (TimerManager.addTimerLocked (s.manager.construct now ms cb recurring address)
      s.manager.constructed).1.table = _
    rw [announced, announce_table]
    ext b
    · rfl
    · exact placed.2 b
    · rfl
    · rfl
  · cases stepped

/-- Every call of the code does to the table what the table says. -/
theorem step_table (ready : Represents s.manager []) {call : TimerCall}
    (stepped : step s (now, call) = some u) :
    u.manager.table = s.manager.table.call now call := by
  have member : ∀ t, (s.manager.heap t).cb.isSome → t ∈ s.manager.timers :=
    fun t armed => (ready.armed t armed).resolve_right (by simp)
  cases call with
  | addTimer ms cb recurring address => exact add_table ready stepped
  | addConditionTimer ms cb weak_cond recurring address =>
    rw [step_plain] at stepped
    exact add_table ready stepped
  | cancel t =>
    simp only [step] at stepped
    split at stepped
    · by_cases armed : s.manager.table.Armed t
      · rw [cancel_armed ready armed (member t armed)] at stepped
        cases stepped
        rw [TimerTable.call, if_pos armed]
        exact cancel_table ready _
      · have silent : (s.manager.heap t).cb = none := by
          simpa [TimerTable.Armed, table] using armed
        rw [cancel_silent silent] at stepped
        cases stepped
        rw [TimerTable.call, if_neg armed]
    · cases stepped
  | refresh t =>
    simp only [step] at stepped
    split at stepped
    · cases stepped
      by_cases armed : s.manager.table.Armed t
      · rw [refresh_armed ready armed (member t armed), TimerTable.call, if_pos armed]
        exact rekey_table ready (member t armed) _ rfl
      · have silent : (s.manager.heap t).cb = none := by
          simpa [TimerTable.Armed, table] using armed
        rw [refresh_silent silent, TimerTable.call, if_neg armed]
    · cases stepped
  | reset t ms from_now =>
    simp only [step] at stepped
    split at stepped
    · cases stepped
      by_cases armed : s.manager.table.Armed t
      · rw [TimerTable.call, if_pos armed]
        by_cases same : ms = (s.manager.heap t).ms ∧ from_now = false
        · obtain ⟨rfl, rfl⟩ := same
          rw [reset_shortcut]
          exact (reset_same_write s.manager t now).symm
        · rw [reset_armed ready armed (member t armed) same]
          change ((s.manager.rekey t _).announce t).1.table = _
          rw [announce_table]
          exact rekey_table ready (member t armed) _ rfl
      · have silent : (s.manager.heap t).cb = none := by
          simpa [TimerTable.Armed, table] using armed
        have idle : ms = (s.manager.heap t).ms ∧ from_now = false ∨ (s.manager.heap t).cb = none :=
          .inr silent
        obtain ⟨done, same⟩ := reset_idle idle now
        rw [same, TimerTable.call, if_neg armed]
    · cases stepped
  | getNextTimer =>
    cases stepped
    rw [getNextTimer_waits]
    rfl
  | hasTimer =>
    cases stepped
    rfl
  | listExpiredCb address =>
    cases stepped
    exact listExpiredCb_table ready now address

private theorem guarded_iff {p : Prop} [Decidable p] {x : TimerSession} :
    (∃ u, (if p then some x else none) = some u) ↔ p := by
  by_cases holds : p
  · simp [holds]
  · simp [holds]

/-- A call is enabled exactly where the table admits it. -/
theorem enabled_iff (ready : Represents s.manager []) (now : UInt64) (call : TimerCall) :
    (∃ u, step s (now, call) = some u) ↔ s.manager.table.Admits call := by
  cases call with
  | addTimer | addConditionTimer | refresh | reset => exact guarded_iff
  | cancel t =>
    simp only [step, TimerTable.Admits, table]
    split
    · rename_i known
      simp only [known, iff_true]
      cases live : (s.manager.heap t).cb with
      | none =>
        rw [cancel_silent live]
        exact ⟨_, rfl⟩
      | some cb =>
        have armed : (s.manager.heap t).cb.isSome := by rw [live]; rfl
        rw [cancel_armed ready armed ((ready.armed t armed).resolve_right (by simp))]
        exact ⟨_, rfl⟩
    · simp [*]
  | getNextTimer | hasTimer | listExpiredCb => exact ⟨fun _ => trivial, fun _ => ⟨_, rfl⟩⟩

end TimerSession
end Synergy
