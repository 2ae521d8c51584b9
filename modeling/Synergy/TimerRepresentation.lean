import Mathlib.Data.List.Nodup
import Synergy.Timer

/-! The representation invariant of the timer manager: `m_timers` is strictly
ordered, and a timer is armed only while it is in the set. Each operation takes
a timer out before it changes the sort key and puts it back afterwards, so the
invariant is stated relative to the timers that are currently out. -/
namespace Synergy
open OrderedSet

namespace Timer

theorem comparator_iff (lhs rhs : Timer) :
    comparator (some lhs) (some rhs) = true ↔
      lhs.next < rhs.next ∨ lhs.next = rhs.next ∧ lhs.address < rhs.address := by
  simp only [comparator]
  split
  · rename_i before
    simp [before]
  · rename_i notBefore
    split
    · rename_i behind
      have different : lhs.next ≠ rhs.next := by grind
      simp [notBefore, different]
    · rename_i notBehind
      have same : lhs.next = rhs.next := by grind
      simp [same]

theorem comparator_strict : StrictOrder comparator where
  irrefl := by
    intro k
    cases k with
    | none => rfl
    | some timer => simp [comparator]
  trans := by
    intro a b c first second
    cases a with
    | none => cases c with
      | none => cases b <;> simp [comparator] at first second
      | some c => rfl
    | some a => cases b with
      | none => simp [comparator] at first
      | some b => cases c with
        | none => simp [comparator] at second
        | some c =>
          rw [comparator_iff] at first second ⊢
          grind

/-- Two live timers never share an address, so one precedes the other. -/
theorem comparator_apart (lhs rhs : Timer) (different : lhs.address ≠ rhs.address) :
    comparator (some lhs) (some rhs) = true ∨ comparator (some rhs) (some lhs) = true := by
  rw [comparator_iff, comparator_iff]
  have addresses : lhs.address < rhs.address ∨ rhs.address < lhs.address := by omega
  grind

theorem next_le_of_not_before (lhs rhs : Timer)
    (notBefore : comparator (some lhs) (some rhs) = false) : rhs.next ≤ lhs.next := by
  have absent : ¬ (lhs.next < rhs.next ∨ lhs.next = rhs.next ∧ lhs.address < rhs.address) := by
    rw [← comparator_iff, notBefore]
    exact Bool.false_ne_true
  grind

end Timer

namespace TimerManager

@[simp] theorem store_timers (m : TimerManager) (t : TimerId) (value : Timer) :
    (m.store t value).timers = m.timers := rfl
@[simp] theorem store_constructed (m : TimerManager) (t : TimerId) (value : Timer) :
    (m.store t value).constructed = m.constructed := rfl
@[simp] theorem store_heap (m : TimerManager) (t : TimerId) (value : Timer) :
    (m.store t value).heap = Function.update m.heap t value := rfl
@[simp] theorem insertTimer_heap (m : TimerManager) (t : TimerId) :
    (m.insertTimer t).heap = m.heap := rfl
@[simp] theorem insertTimer_constructed (m : TimerManager) (t : TimerId) :
    (m.insertTimer t).constructed = m.constructed := rfl
@[simp] theorem eraseTimer_heap (m : TimerManager) (t : TimerId) :
    (m.eraseTimer t).heap = m.heap := rfl

/-- The invariant while the timers `out` are outside the set although they may
be armed: those an operation has taken out, and those just constructed. -/
structure Represents (m : TimerManager) (out : List TimerId) : Prop where
  sorted : Sorted Timer.comparator m.key m.timers
  addresses : ∀ a b, a ∈ m.timers ∨ a ∈ out → b ∈ m.timers ∨ b ∈ out → a ≠ b →
    (m.heap a).address ≠ (m.heap b).address
  outside : ∀ t ∈ out, t ∉ m.timers
  known : ∀ t, t ∈ m.timers ∨ t ∈ out → t < m.constructed
  armed : ∀ t, (m.heap t).cb.isSome → t ∈ m.timers ∨ t ∈ out

variable {m : TimerManager} {out : List TimerId}

theorem Represents.nodup (ready : Represents m out) : m.timers.Nodup :=
  ready.sorted.nodup Timer.comparator_strict

theorem initial_represents (now : UInt64) : Represents (initial now) [] where
  sorted := List.Pairwise.nil
  addresses := by simp [initial]
  outside := by simp
  known := by simp [initial]
  armed := by simp [initial]

/-- A timer under construction is out of the set until `addTimer` inserts it. -/
theorem Represents.construct (ready : Represents m out) (now ms : UInt64) (cb : Option Callback)
    (recurring : Bool) (address : ℕ)
    (unoccupied : ∀ t, t ∈ m.timers ∨ t ∈ out → (m.heap t).address ≠ address) :
    Represents (m.construct now ms cb recurring address) (m.constructed :: out) := by
  have old : ∀ a, a ∈ m.timers ∨ a ∈ out → a ≠ m.constructed :=
    fun a held => Nat.ne_of_lt (ready.known a held)
  have split : ∀ a, a ∈ m.timers ∨ a ∈ m.constructed :: out →
      a = m.constructed ∨ a ∈ m.timers ∨ a ∈ out := by
    intro a held
    rw [List.mem_cons] at held
    exact or_left_comm.mp held
  refine ⟨?_, ?_, ?_, ?_, ?_⟩
  · refine sorted_congr ?_ ready.sorted
    intro a member
    simp [key, TimerManager.construct, Function.update_of_ne (old a (.inl member))]
  · intro a b heldA heldB different
    simp only [TimerManager.construct, store_heap]
    rcases split a heldA with rfl | oldA
    · have oldB := (split b heldB).resolve_left different.symm
      rw [Function.update_self, Function.update_of_ne (old b oldB)]
      exact (unoccupied b oldB).symm
    · rw [Function.update_of_ne (old a oldA)]
      rcases split b heldB with rfl | oldB
      · rw [Function.update_self]
        exact unoccupied a oldA
      · rw [Function.update_of_ne (old b oldB)]
        exact ready.addresses a b oldA oldB different
  · intro a outA inside
    rcases List.mem_cons.mp outA with rfl | outside
    · exact old _ (.inl inside) rfl
    · exact ready.outside a outside inside
  · intro a held
    simp only [TimerManager.construct]
    rcases split a held with rfl | oldA
    · exact Nat.lt_succ_self _
    · exact Nat.lt_succ_of_lt (ready.known a oldA)
  · intro a live
    by_cases same : a = m.constructed
    · exact .inr (by simp [same])
    · simp only [TimerManager.construct, store_heap, Function.update_of_ne same] at live
      exact (ready.armed a live).imp_right (List.mem_cons_of_mem _)

/-- An armed timer is found, under the key it was inserted with. -/
theorem Represents.find (ready : Represents m out) (member : t ∈ m.timers) :
    m.findTimer t = some t :=
  find_self Timer.comparator_strict ready.sorted member

private theorem sorted_store (sorted : Sorted Timer.comparator m.key m.timers)
    (absent : t ∉ m.timers) (value : Timer) :
    Sorted Timer.comparator (m.store t value).key m.timers := by
  refine sorted_congr ?_ sorted
  intro a member
  have different : a ≠ t := fun same => absent (same ▸ member)
  simp [key, Function.update_of_ne different]

theorem Represents.take_out (ready : Represents m out) (member : t ∈ m.timers) :
    Represents (m.eraseTimer t) (t :: out) := by
  have split : ∀ a, (a ∈ (m.eraseTimer t).timers ∨ a ∈ t :: out) ↔ (a ∈ m.timers ∨ a ∈ out) := by
    intro a
    simp only [eraseTimer, ready.nodup.mem_erase_iff, List.mem_cons]
    by_cases same : a = t
    · simp [same, member]
    · simp [same]
  refine ⟨sorted_erase ready.sorted, ?_, ?_, ?_, ?_⟩
  · intro a b memberA memberB
    exact ready.addresses a b ((split a).mp memberA) ((split b).mp memberB)
  · intro a memberA
    simp only [eraseTimer, ready.nodup.mem_erase_iff]
    rcases List.mem_cons.mp memberA with rfl | outA
    · simp
    · exact fun inside => ready.outside a outA inside.2
  · exact fun a memberA => ready.known a ((split a).mp memberA)
  · exact fun a live => (split a).mpr (ready.armed a live)

theorem mem_insertTimer (ready : Represents m (t :: out)) (value : Timer)
    (address : value.address = (m.heap t).address) (b : TimerId) :
    b ∈ ((m.store t value).insertTimer t).timers ↔ b = t ∨ b ∈ m.timers := by
  have absent : t ∉ m.timers := ready.outside t (by simp)
  constructor
  · exact mem_of_mem_insert
  · rintro (rfl | inside)
    · refine mem_insert_self fun c member => Timer.comparator_apart _ _ ?_
      have different : c ≠ b := fun same => absent (same ▸ member)
      simpa [Function.update_of_ne different, address] using
        ready.addresses b c (.inr (by simp)) (.inl member) different.symm
    · exact mem_insert_of_mem inside

/-- A timer taken out may change its key and its members, and is then put back. -/
theorem Represents.put_back (ready : Represents m (t :: out)) (value : Timer)
    (fresh : t ∉ out) (address : value.address = (m.heap t).address) :
    Represents ((m.store t value).insertTimer t) out := by
  have absent : t ∉ m.timers := ready.outside t (by simp)
  have members := mem_insertTimer ready value address
  have split : ∀ a, (a ∈ ((m.store t value).insertTimer t).timers ∨ a ∈ out) →
      (a ∈ m.timers ∨ a ∈ t :: out) := by
    intro a held
    rw [members] at held
    rcases held with (rfl | inside) | outA
    · exact .inr (by simp)
    · exact .inl inside
    · exact .inr (by simp [outA])
  have kept : ∀ a, ((m.store t value).heap a).address = (m.heap a).address := by
    intro a
    by_cases same : a = t
    · subst a
      simp [address]
    · simp [Function.update_of_ne same]
  refine ⟨sorted_insert Timer.comparator_strict (sorted_store ready.sorted absent value),
    ?_, ?_, ?_, ?_⟩
  · intro a b heldA heldB different
    rw [insertTimer_heap, kept, kept]
    exact ready.addresses a b (split a heldA) (split b heldB) different
  · intro a outA
    rw [members]
    rintro (rfl | inside)
    · exact fresh outA
    · exact ready.outside a (by simp [outA]) inside
  · exact fun a held => ready.known a (split a held)
  · intro a live
    rw [members]
    by_cases same : a = t
    · exact .inl (.inl same)
    · rw [insertTimer_heap, store_heap, Function.update_of_ne same] at live
      rcases ready.armed a live with inside | outA
      · exact .inl (.inr inside)
      · exact .inr ((List.mem_cons.mp outA).resolve_left same)

/-- A timer taken out and disarmed needs no place any more. -/
theorem Represents.disarm (ready : Represents m (t :: out)) (value : Timer)
    (fresh : t ∉ out) (silent : value.cb = none) : Represents (m.store t value) out := by
  have absent : t ∉ m.timers := ready.outside t (by simp)
  have kept : ∀ a, a ∈ m.timers ∨ a ∈ out → (m.store t value).heap a = m.heap a := by
    intro a held
    have different : a ≠ t := by
      rintro rfl
      exact held.elim absent fresh
    simp [Function.update_of_ne different]
  have wider : ∀ a, a ∈ m.timers ∨ a ∈ out → a ∈ m.timers ∨ a ∈ t :: out :=
    fun a held => held.imp_right (List.mem_cons_of_mem _)
  refine ⟨sorted_store ready.sorted absent value, ?_, ?_, ?_, ?_⟩
  · intro a b heldA heldB different
    rw [kept a heldA, kept b heldB]
    exact ready.addresses a b (wider a heldA) (wider b heldB) different
  · exact fun a outA => ready.outside a (by simp [outA])
  · exact fun a held => ready.known a (wider a held)
  · intro a live
    by_cases same : a = t
    · subst a
      simp [silent] at live
    · rw [store_heap, Function.update_of_ne same] at live
      exact (ready.armed a live).imp_right fun outA => (List.mem_cons.mp outA).resolve_left same

/-- What was constructed is put into the set as it is. -/
theorem Represents.insert (ready : Represents m (t :: out)) (fresh : t ∉ out) :
    Represents (m.insertTimer t) out ∧
      ∀ b, b ∈ (m.insertTimer t).timers ↔ b = t ∨ b ∈ m.timers := by
  have same : m.store t (m.heap t) = m := by simp [store]
  have back := ready.put_back (m.heap t) fresh rfl
  have members := mem_insertTimer ready (m.heap t) rfl
  rw [same] at back members
  exact ⟨back, members⟩

/-- Change the members of a timer of the set, out of the set. -/
def rekey (m : TimerManager) (t : TimerId) (value : Timer) : TimerManager :=
  ((m.eraseTimer t).store t value).insertTimer t

theorem Represents.rekey (ready : Represents m out) (member : t ∈ m.timers) (value : Timer)
    (address : value.address = (m.heap t).address) :
    Represents (m.rekey t value) out ∧
      ∀ b, b ∈ (m.rekey t value).timers ↔ b ∈ m.timers := by
  have fresh : t ∉ out := fun outT => ready.outside t outT member
  have taken := ready.take_out member
  refine ⟨taken.put_back value fresh address, fun b => ?_⟩
  rw [TimerManager.rekey, mem_insertTimer taken value address]
  simp only [eraseTimer, ready.nodup.mem_erase_iff]
  by_cases same : b = t
  · simp [same, member]
  · simp [same]

theorem Represents.retickle (ready : Represents m out) (tickled : Bool) :
    Represents { m with tickled := tickled } out :=
  ⟨ready.sorted, ready.addresses, ready.outside, ready.known, ready.armed⟩

theorem getNextTimer_waits (m : TimerManager) (now : UInt64) :
    (m.getNextTimer now).1 = { m with tickled := false } := by
  unfold getNextTimer
  dsimp only
  split
  · rfl
  · split <;> rfl

/-- What is left of `addTimer(val, lock)` once the timer is in the set: it
notifies when the timer came first and no notification is outstanding. -/
def announce (m : TimerManager) (t : TimerId) : TimerManager × Bool :=
  if m.timers.head? = some t ∧ m.tickled = false then ({ m with tickled := true }, true)
  else (m, false)

theorem addTimerLocked_eq (ready : Represents (m.insertTimer t) out)
    (held : t ∈ (m.insertTimer t).timers) : m.addTimerLocked t = (m.insertTimer t).announce t := by
  unfold addTimerLocked announce
  simp only [ready.find held]
  by_cases front : (m.insertTimer t).timers.head? = some t
  · cases (m.insertTimer t).tickled <;> simp [front]
  · have other : (some t == (m.insertTimer t).timers.head?) = false :=
      beq_eq_false_iff_ne.mpr (Ne.symm front)
    simp [front, other]

theorem announce_timers (m : TimerManager) (t : TimerId) : (m.announce t).1.timers = m.timers := by
  unfold announce
  split <;> rfl

theorem announce_heap (m : TimerManager) (t : TimerId) : (m.announce t).1.heap = m.heap := by
  unfold announce
  split <;> rfl

theorem Represents.announce (ready : Represents m out) (t : TimerId) :
    Represents (m.announce t).1 out := by
  unfold TimerManager.announce
  split
  · exact ready.retickle true
  · exact ready

/-- Members other than the due time and the address do not move a timer. -/
private theorem sorted_same_place (sorted : Sorted Timer.comparator m.key m.timers)
    {value : Timer} (next : value.next = (m.heap t).next)
    (address : value.address = (m.heap t).address) :
    Sorted Timer.comparator (m.store t value).key m.timers := by
  have place : ∀ a, ((m.store t value).heap a).next = (m.heap a).next ∧
      ((m.store t value).heap a).address = (m.heap a).address := by
    intro a
    by_cases same : a = t
    · subst a
      simp [next, address]
    · simp [Function.update_of_ne same]
  refine List.Pairwise.imp ?_ sorted
  intro a b before
  rw [key, key, Timer.comparator_iff] at before ⊢
  rw [(place a).1, (place a).2, (place b).1, (place b).2]
  exact before

/-- `erase(find())` in `cancel` is given a position in the set. -/
theorem cancel_armed (ready : Represents m out) (armed : (m.heap t).cb.isSome)
    (member : t ∈ m.timers) :
    m.cancel t = some ((m.eraseTimer t).store t { m.heap t with cb := none }, true) := by
  have found : (m.store t { m.heap t with cb := none }).findTimer t = some t :=
    find_self Timer.comparator_strict (sorted_same_place ready.sorted rfl rfl) member
  unfold cancel
  simp only [armed, ↓reduceIte, found]
  rfl

theorem cancel_silent (silent : (m.heap t).cb = none) : m.cancel t = some (m, false) := by
  simp [cancel, silent]

/-- The members `refresh` gives a pending timer. -/
def refreshTimer (timer : Timer) (now : UInt64) : Timer :=
  { timer with next := now + timer.ms }

theorem refresh_armed (ready : Represents m out) (armed : (m.heap t).cb.isSome)
    (member : t ∈ m.timers) (now : UInt64) :
    m.refresh t now = (m.rekey t (refreshTimer (m.heap t) now), true) := by
  have live : (m.heap t).cb.isNone = false := by
    rw [← Option.not_isSome, armed]
    rfl
  unfold refresh
  simp only [live, ready.find member]
  rfl

theorem refresh_silent (silent : (m.heap t).cb = none) (now : UInt64) :
    m.refresh t now = (m, false) := by
  simp [refresh, silent]

/-- The members `reset` gives a pending timer. -/
def resetTimer (timer : Timer) (ms : UInt64) (from_now : Bool) (now : UInt64) : Timer :=
  { timer with ms := ms, next := (if from_now then now else timer.next - timer.ms) + ms }

/-- `reset` returns before it takes the lock when the interval is already the
one asked for, armed or not. -/
theorem reset_shortcut (m : TimerManager) (t : TimerId) (now : UInt64) :
    m.reset t (m.heap t).ms false now = (m, false, true) := by
  simp [reset]

theorem reset_silent (changes : ¬ (ms = (m.heap t).ms ∧ from_now = false))
    (silent : (m.heap t).cb = none) (now : UInt64) :
    m.reset t ms from_now now = (m, false, false) := by
  have skipped : (ms == (m.heap t).ms && !from_now) = false := by
    rw [Bool.eq_false_iff]
    simpa using changes
  simp [reset, skipped, silent]

/-- `reset` does nothing to a timer whose interval is already the one asked
for, and to a timer that is not armed. -/
theorem reset_idle
    (idle : ms = (m.heap t).ms ∧ from_now = false ∨ (m.heap t).cb = none) (now : UInt64) :
    ∃ done, m.reset t ms from_now now = (m, false, done) := by
  by_cases shortcut : ms = (m.heap t).ms ∧ from_now = false
  · obtain ⟨rfl, rfl⟩ := shortcut
    exact ⟨true, reset_shortcut m t now⟩
  · exact ⟨false, reset_silent shortcut (idle.resolve_left shortcut) now⟩

theorem reset_armed (ready : Represents m out) (armed : (m.heap t).cb.isSome)
    (member : t ∈ m.timers) (changes : ¬ (ms = (m.heap t).ms ∧ from_now = false))
    (now : UInt64) :
    m.reset t ms from_now now =
      let r := (m.rekey t (resetTimer (m.heap t) ms from_now now)).announce t
      (r.1, r.2, true) := by
  have live : (m.heap t).cb.isNone = false := by
    rw [← Option.not_isSome, armed]
    rfl
  have skipped : (ms == (m.heap t).ms && !from_now) = false := by
    rw [Bool.eq_false_iff]
    simpa using changes
  have moved := ready.rekey member (resetTimer (m.heap t) ms from_now now) rfl
  have inserted := addTimerLocked_eq (t := t)
    (m := (m.eraseTimer t).store t (resetTimer (m.heap t) ms from_now now))
    moved.1 ((moved.2 t).mpr member)
  have called : m.reset t ms from_now now =
      let r := TimerManager.addTimerLocked
        ((m.eraseTimer t).store t (resetTimer (m.heap t) ms from_now now)) t
      (r.1, r.2, true) := by
    unfold reset
    simp only [skipped, live, Bool.false_eq_true, ↓reduceIte, ready.find member]
    rfl
  rw [called, inserted]
  rfl

/-- The members the final loop of `listExpiredCb` leaves in an expired timer. -/
def expiredTimer (now : UInt64) (timer : Timer) : Timer :=
  if timer.recurring then { timer with next := now + timer.ms } else { timer with cb := none }

theorem expireOne_heap (now : UInt64) (m : TimerManager) (t : TimerId) :
    (expireOne now m t).heap = Function.update m.heap t (expiredTimer now (m.heap t)) := by
  unfold expireOne expiredTimer
  split <;> rfl

theorem expireAll_frame (now : UInt64) (m : TimerManager) (expired : List TimerId) :
    (expireAll now m expired).1.constructed = m.constructed ∧
      (expireAll now m expired).1.tickled = m.tickled ∧
      (expireAll now m expired).1.previouseTime = m.previouseTime := by
  induction expired generalizing m with
  | nil => exact ⟨rfl, rfl, rfl⟩
  | cons t rest ih =>
    obtain ⟨constructed, tickled, previous⟩ := ih (expireOne now m t)
    have one : (expireOne now m t).constructed = m.constructed ∧
        (expireOne now m t).tickled = m.tickled ∧
        (expireOne now m t).previouseTime = m.previouseTime := by
      unfold expireOne
      split <;> exact ⟨rfl, rfl, rfl⟩
    exact ⟨constructed.trans one.1, tickled.trans one.2.1, previous.trans one.2.2⟩

/-- Each expired timer is rewritten once, from the members it had when the
loop began; every other timer keeps its members. -/
theorem expireAll_heap (now : UInt64) (m : TimerManager) (expired : List TimerId)
    (distinct : expired.Nodup) (b : TimerId) :
    (expireAll now m expired).1.heap b =
      if b ∈ expired then expiredTimer now (m.heap b) else m.heap b := by
  induction expired generalizing m with
  | nil => rfl
  | cons t rest ih =>
    obtain ⟨fresh, distinctRest⟩ := List.nodup_cons.mp distinct
    have later := ih (expireOne now m t) distinctRest
    rw [expireOne_heap] at later
    simp only [expireAll, later, List.mem_cons]
    by_cases same : b = t
    · subst b
      simp [fresh]
    · simp [same]

theorem expireAll_cbs (now : UInt64) (m : TimerManager) (expired : List TimerId)
    (distinct : expired.Nodup) :
    (expireAll now m expired).2 = expired.map fun t => (t, (m.heap t).cb) := by
  induction expired generalizing m with
  | nil => rfl
  | cons t rest ih =>
    obtain ⟨fresh, distinctRest⟩ := List.nodup_cons.mp distinct
    simp only [expireAll, ih _ distinctRest, List.map_cons, List.cons.injEq, true_and]
    refine List.map_congr_left fun b member => ?_
    have different : b ≠ t := fun same => fresh (same ▸ member)
    rw [expireOne_heap, Function.update_of_ne different]

theorem expireAll_names (now : UInt64) (m : TimerManager) (expired : List TimerId) :
    (expireAll now m expired).2.map Prod.fst = expired := by
  induction expired generalizing m with
  | nil => rfl
  | cons t rest ih => simp [expireAll, ih]

private theorem expireOne_represents (ready : Represents m (t :: out)) (fresh : t ∉ out)
    (now : UInt64) :
    Represents (expireOne now m t) out ∧
      ∀ b, b ∈ (expireOne now m t).timers ↔ b ∈ m.timers ∨ b = t ∧ (m.heap t).recurring := by
  unfold expireOne
  split
  · rename_i recurring
    refine ⟨ready.put_back _ fresh rfl, fun b => ?_⟩
    rw [mem_insertTimer ready { m.heap t with next := now + (m.heap t).ms } rfl]
    simp only [recurring, and_true]
    exact or_comm
  · rename_i once
    exact ⟨ready.disarm _ fresh rfl, fun b => by simp [once]⟩

/-- After the loop the recurring ones among the expired timers are back in the
set, under their new key, and the others are disarmed. -/
theorem expireAll_represents (now : UInt64) (m : TimerManager) (expired : List TimerId)
    (ready : Represents m (expired ++ out)) (distinct : (expired ++ out).Nodup) :
    Represents (expireAll now m expired).1 out ∧
      ∀ b, b ∈ (expireAll now m expired).1.timers ↔
        b ∈ m.timers ∨ b ∈ expired ∧ (m.heap b).recurring := by
  induction expired generalizing m with
  | nil => exact ⟨ready, fun b => by simp [expireAll]⟩
  | cons t rest ih =>
    obtain ⟨fresh, distinctRest⟩ := List.nodup_cons.mp distinct
    obtain ⟨kept, members⟩ := expireOne_represents ready fresh now
    obtain ⟨represents, back⟩ := ih (expireOne now m t) kept distinctRest
    refine ⟨represents, fun b => ?_⟩
    simp only [expireAll, back, members, List.mem_cons]
    rw [expireOne_heap]
    by_cases same : b = t
    · subst b
      have absent : t ∉ rest := fun inside => fresh (List.mem_append_left _ inside)
      simp [absent]
    · simp [same]

/-- `m_timers.erase(m_timers.begin(), it)` takes a prefix of the set out. -/
private theorem Represents.take_prefix (ready : Represents m out) (distinct : out.Nodup)
    {expired rest : List TimerId} (split : m.timers = expired ++ rest) :
    Represents { m with timers := rest } (expired ++ out) ∧ (expired ++ out).Nodup := by
  have nodup := ready.nodup
  have ordered := ready.sorted
  rw [split] at nodup ordered
  obtain ⟨expiredNodup, restNodup, disjoint⟩ := List.nodup_append.mp nodup
  have held : ∀ a, (a ∈ rest ∨ a ∈ expired ++ out) ↔ (a ∈ m.timers ∨ a ∈ out) := by
    intro a
    rw [split, List.mem_append, List.mem_append, or_assoc]
    exact or_left_comm
  refine ⟨⟨(List.pairwise_append.mp ordered).2.1, ?_, ?_, ?_, ?_⟩, ?_⟩
  · intro a b heldA heldB
    exact ready.addresses a b ((held a).mp heldA) ((held b).mp heldB)
  · intro a outA inside
    rcases List.mem_append.mp outA with first | outside
    · exact disjoint a first a inside rfl
    · exact ready.outside a outside (by rw [split]; exact List.mem_append_right _ inside)
  · exact fun a heldA => ready.known a ((held a).mp heldA)
  · exact fun a live => (held a).mpr (ready.armed a live)
  · refine List.nodup_append.mpr ⟨expiredNodup, distinct, ?_⟩
    rintro a first b outB rfl
    exact ready.outside a outB (by rw [split]; exact List.mem_append_left _ first)

theorem no_rollover (forward : m.previouseTime ≤ now) : m.rolledOver now = false := by
  have notBefore : ¬ now < m.previouseTime := UInt64.not_lt.mpr forward
  simp [rolledOver, notBefore]

theorem expiryCut_append (m : TimerManager) (rollover : Bool) (now : UInt64) (address : ℕ) :
    (m.expiryCut rollover now address).1 ++ (m.expiryCut rollover now address).2 = m.timers := by
  unfold expiryCut
  rw [advance_append]
  cases rollover
  · exact lowerBound_append _ _
  · exact List.append_nil _

/-- Without a rollover, what precedes the cut is due. -/
theorem expiryCut_due (now : UInt64) (address : ℕ)
    (member : t ∈ (m.expiryCut false now address).1) : (m.heap t).next ≤ now := by
  simp only [expiryCut, advance, lowerBound, Bool.false_eq_true, ↓reduceIte,
    List.mem_append] at member
  rcases member with below | equal
  · have before := List.mem_takeWhile_imp below
    rw [key, Timer.comparator_iff] at before
    simp only [Timer.probe] at before
    grind
  · have same := List.mem_takeWhile_imp equal
    simp only [beq_iff_eq] at same
    grind

/-- The order of the set is an order by due time; the address only breaks ties. -/
theorem next_ordered (sorted : Sorted Timer.comparator m.key m.timers) :
    m.timers.Pairwise fun a b => (m.heap a).next ≤ (m.heap b).next := by
  apply List.Pairwise.imp _ sorted
  intro a b before
  rw [key, key, Timer.comparator_iff] at before
  grind

/-- Without a rollover, what is behind the cut is not due, wherever the probe
fell among the timers due at this very reading. -/
theorem expiryCut_later (sorted : Sorted Timer.comparator m.key m.timers) (now : UInt64)
    (address : ℕ) (member : t ∈ (m.expiryCut false now address).2) : now < (m.heap t).next := by
  simp only [expiryCut, advance, Bool.false_eq_true, ↓reduceIte] at member
  have notBelow : ∀ a ∈ (lowerBound Timer.comparator m.key
      (some (Timer.probe now address)) m.timers).2, now ≤ (m.heap a).next := by
    intro a inside
    have notBefore : Timer.comparator (m.key a) (some (Timer.probe now address)) = false :=
      not_before_lowerBound Timer.comparator_strict sorted inside
    exact Timer.next_le_of_not_before _ _ notBefore
  have ordered : (lowerBound Timer.comparator m.key
      (some (Timer.probe now address)) m.timers).2.Pairwise
      fun a b => (m.heap a).next ≤ (m.heap b).next :=
    (next_ordered sorted).sublist (List.dropWhile_sublist _)
  have different : ((m.heap t).next == now) = false := by
    refine test_of_mem_dropWhile (fun a => (m.heap a).next == now) ?_ member
    apply List.Pairwise.imp_of_mem _ ordered
    intro a b memberA _ before equal
    rw [beq_iff_eq] at equal ⊢
    exact UInt64.le_antisymm (equal ▸ before) (notBelow a memberA)
  have reached := notBelow t ((List.dropWhile_sublist _).subset member)
  rw [beq_eq_false_iff_ne] at different
  grind

/-- The write-locked section of `listExpiredCb` takes a prefix of the set,
which is what is due unless a rollover was reported, and runs the final loop
over it. -/
theorem listExpiredLocked_split (m : TimerManager) (now : UInt64) (address : ℕ) :
    ∃ expired rest previous, m.timers = expired ++ rest ∧
      (∀ t ∈ expired, m.rolledOver now = true ∨ (m.heap t).next ≤ now) ∧
      (Sorted Timer.comparator m.key m.timers → ∀ t ∈ rest, now < (m.heap t).next) ∧
      (m.rolledOver now = true → rest = []) ∧
      (previous = m.previouseTime ∨ previous = now) ∧
      m.listExpiredLocked now address =
        expireAll now { m with timers := rest, previouseTime := previous } expired := by
  cases shape : m.timers with
  | nil =>
    refine ⟨[], [], m.previouseTime, rfl, by simp, by simp, fun _ => rfl, .inl rfl, ?_⟩
    simp only [listExpiredLocked, shape, expireAll]
    rw [← shape]
  | cons first later =>
    by_cases early : (!m.rolledOver now && decide ((m.heap first).next > now)) = true
    · obtain ⟨forward, future⟩ : m.rolledOver now = false ∧ now < (m.heap first).next := by
        simpa using early
      refine ⟨[], first :: later, now, rfl, by simp, ?_, by simp [forward], .inr rfl, ?_⟩
      · intro sorted t member
        have ordered := next_ordered (m := m) (by rw [shape]; exact sorted)
        rw [shape] at ordered
        rcases List.mem_cons.mp member with rfl | behind
        · exact future
        · exact UInt64.lt_of_lt_of_le future ((List.pairwise_cons.mp ordered).1 t behind)
      · simp only [listExpiredLocked, shape, detectClockRollover, early, ↓reduceIte, expireAll]
    · let marked : TimerManager := { m with previouseTime := now }
      have whole := expiryCut_append marked (m.rolledOver now) now address
      refine ⟨(marked.expiryCut (m.rolledOver now) now address).1,
        (marked.expiryCut (m.rolledOver now) now address).2, now, ?_, ?_, ?_, ?_, .inr rfl, ?_⟩
      · rw [whole]
        exact shape.symm
      · intro t member
        cases rollover : m.rolledOver now with
        | true => exact .inl rfl
        | false =>
          rw [rollover] at member
          exact .inr (expiryCut_due (m := marked) now address member)
      · intro sorted t member
        cases rollover : m.rolledOver now with
        | true =>
          rw [rollover] at member
          cases member
        | false =>
          rw [rollover] at member
          refine expiryCut_later (m := marked) ?_ now address member
          change Sorted Timer.comparator m.key m.timers
          rw [shape]
          exact sorted
      · intro rollover
        rw [rollover]
        rfl
      · simp only [listExpiredLocked, shape, detectClockRollover, early, Bool.false_eq_true,
          ↓reduceIte, marked]

/-- What one call of `listExpiredCb` does to a manager, by the set `expired`
of timers it found. -/
structure Expiry (m : TimerManager) (now : UInt64) (expired : List TimerId) (after : TimerManager)
    (cbs : List (TimerId × Option Callback)) : Prop where
  distinct : expired.Nodup
  pending : ∀ t ∈ expired, t ∈ m.timers
  due : ∀ t ∈ expired, m.rolledOver now = true ∨ (m.heap t).next ≤ now
  handed : cbs = expired.map fun t => (t, (m.heap t).cb)
  heap : ∀ t, after.heap t = if t ∈ expired then expiredTimer now (m.heap t) else m.heap t
  members : ∀ t, t ∈ after.timers ↔ t ∈ m.timers ∧ (t ∈ expired → (m.heap t).recurring)
  constructed : after.constructed = m.constructed
  tickled : after.tickled = m.tickled
  previous : after.previouseTime = m.previouseTime ∨ after.previouseTime = now

theorem listExpiredLocked_expiry (ready : Represents m out) (distinct : out.Nodup) (now : UInt64)
    (address : ℕ) :
    Represents (m.listExpiredLocked now address).1 out ∧
      ∃ expired, Expiry m now expired (m.listExpiredLocked now address).1
        (m.listExpiredLocked now address).2 := by
  obtain ⟨expired, rest, previous, split, due, _, _, clock, same⟩ :=
    listExpiredLocked_split m now address
  obtain ⟨taken, apart⟩ := ready.take_prefix distinct split
  have marked : Represents { m with timers := rest, previouseTime := previous } (expired ++ out) :=
    ⟨taken.sorted, taken.addresses, taken.outside, taken.known, taken.armed⟩
  obtain ⟨represents, back⟩ := expireAll_represents now _ expired marked apart
  obtain ⟨constructed, tickled, stamped⟩ :=
    expireAll_frame now { m with timers := rest, previouseTime := previous } expired
  have once : expired.Nodup := (List.nodup_append.mp apart).1
  have nodup := ready.nodup
  rw [split] at nodup
  rw [same]
  refine ⟨represents, expired, once, ?_, due, expireAll_cbs now _ expired once,
    expireAll_heap now _ expired once, ?_, constructed, tickled, ?_⟩
  · exact fun t member => split ▸ List.mem_append_left _ member
  · intro t
    rw [back, split, List.mem_append]
    have apart : t ∈ expired → t ∉ rest :=
      fun first second => (List.nodup_append.mp nodup).2.2 t first t second rfl
    by_cases first : t ∈ expired
    · simp [first, apart first]
    · simp [first]
  · rw [stamped]
    exact clock

theorem listExpiredCb_eq (m : TimerManager) (now : UInt64) (address : ℕ) :
    m.listExpiredCb now address = m.listExpiredLocked now address := by
  unfold listExpiredCb
  split
  · rename_i empty
    simp [listExpiredLocked, List.isEmpty_iff.mp empty]
  · rfl

end TimerManager
end Synergy
