import Mathlib.Algebra.Ring.Nat
import Synergy.TimerSessions

/-! No missed wake-up for an earlier timer. A thread that sleeps for the delay
`getNextTimer` returned relies on `onTimerInsertedAtFront` to hear of any timer
due before that. `refresh` and the recurring re-arm insert without the front
check; they are harmless because a timer's start is never in the future. -/
namespace Synergy
open OrderedSet TimerManager

/-- The due time of the first timer at the last `getNextTimer`; nothing stands
for infinity. -/
def deadline : List TimerEvent → Option UInt64
  | [] => none
  | .asked due :: _ => due
  | _ :: history => deadline history

/-- `onTimerInsertedAtFront` was called since the last `getNextTimer`. -/
def notifiedSince : List TimerEvent → Bool
  | [] => false
  | .asked _ :: _ => false
  | .insertedAtFront :: _ => true
  | _ :: history => notifiedSince history

namespace TimerSession

/-- No addition of the call exceeds `2^64 - 1`. -/
def Fits (s : TimerSession) (now : UInt64) : TimerCall → Prop
  | .addTimer ms _ _ _ => now.toNat + ms.toNat < 2 ^ 64
  | .addConditionTimer ms _ _ _ _ => now.toNat + ms.toNat < 2 ^ 64
  | .refresh t => (s.manager.heap t).cb.isSome →
      now.toNat + (s.manager.heap t).ms.toNat < 2 ^ 64
  | .reset t ms from_now => (s.manager.heap t).cb.isSome →
      (if from_now then now else (s.manager.heap t).next - (s.manager.heap t).ms).toNat +
        ms.toNat < 2 ^ 64
  | .listExpiredCb _ => ∀ t ∈ s.manager.timers, (s.manager.heap t).recurring →
      (s.manager.heap t).next ≤ now → now.toNat + (s.manager.heap t).ms.toNat < 2 ^ 64
  | _ => True

instance (s : TimerSession) (now : UInt64) : (call : TimerCall) → Decidable (Fits s now call)
  | .addTimer ms _ _ _ => inferInstanceAs (Decidable (now.toNat + ms.toNat < 2 ^ 64))
  | .addConditionTimer ms _ _ _ _ => inferInstanceAs (Decidable (now.toNat + ms.toNat < 2 ^ 64))
  | .cancel _ => .isTrue trivial
  | .refresh _ => inferInstanceAs (Decidable (_ → _))
  | .reset _ _ _ => inferInstanceAs (Decidable (_ → _))
  | .getNextTimer => .isTrue trivial
  | .hasTimer => .isTrue trivial
  | .listExpiredCb _ => inferInstanceAs (Decidable (∀ t ∈ s.manager.timers, _ → _ → _))

/-- The clock does not go back, and nothing wraps. -/
def Forward (s : TimerSession) (call : UInt64 × TimerCall) : Prop :=
  s.clock ≤ call.1 ∧ s.Fits call.1 call.2

variable {m : TimerManager} {clock now : UInt64}

instance (s : TimerSession) (call : UInt64 × TimerCall) : Decidable (Forward s call) :=
  inferInstanceAs (Decidable (_ ∧ _))

theorem fits_plain (fits : Fits s now call) : Fits s now call.plain := by
  cases call <;> exact fits

/-- The timer was armed no later than the clock, and its due time is the exact
sum. -/
def StartedBy (clock : UInt64) (timer : Timer) : Prop :=
  timer.ms ≤ timer.next ∧ timer.next - timer.ms ≤ clock

private theorem startedBy_sum {start ms : UInt64} (fits : start.toNat + ms.toNat < 2 ^ 64)
    (past : start ≤ clock) {timer : Timer} (next : timer.next = start + ms)
    (interval : timer.ms = ms) : StartedBy clock timer := by
  have sum : (start + ms).toNat = start.toNat + ms.toNat := by
    rw [UInt64.toNat_add]
    exact Nat.mod_eq_of_lt fits
  rw [StartedBy, next, interval]
  have large : ms ≤ start + ms := by
    rw [UInt64.le_iff_toNat_le, sum]
    omega
  refine ⟨large, ?_⟩
  rw [UInt64.add_sub_cancel]
  exact past

/-- Arming again, no earlier, never makes a started timer due earlier. -/
private theorem rearm_later (started : StartedBy clock timer) (past : clock ≤ now)
    (fits : now.toNat + timer.ms.toNat < 2 ^ 64) : timer.next ≤ now + timer.ms := by
  obtain ⟨large, start⟩ := started
  rw [UInt64.le_iff_toNat_le] at *
  rw [UInt64.toNat_sub_of_le _ _ (UInt64.le_iff_toNat_le.mpr large)] at start
  rw [UInt64.toNat_add, Nat.mod_eq_of_lt fits]
  omega

/-- The promise to the sleeping thread, with what keeps it. -/
structure Awake (s : TimerSession) : Prop where
  represents : Represents s.manager []
  started : ∀ t ∈ s.manager.timers, StartedBy s.clock (s.manager.heap t)
  previous : s.manager.previouseTime ≤ s.clock
  tickled : s.manager.tickled = notifiedSince s.history
  covered : notifiedSince s.history = false → ∀ t ∈ s.manager.timers,
    ∃ due, deadline s.history = some due ∧ due ≤ (s.manager.heap t).next

theorem awake_initial (start : UInt64) : Awake (initial start) := by
  refine ⟨initial_represents start, ?_, UInt64.le_refl _, rfl, ?_⟩ <;>
    simp [initial, TimerManager.initial]

theorem StartedBy.mono (started : StartedBy clock timer) (past : clock ≤ now) :
    StartedBy now timer :=
  ⟨started.1, UInt64.le_trans started.2 past⟩

/-- A silent insertion means that the timer came behind another one, or that a
notification was outstanding already. -/
private theorem announce_silent (silent : (m.announce t).2 = false) :
    m.timers.head? ≠ some t ∨ m.tickled = true := by
  unfold TimerManager.announce at silent
  split at silent
  · cases silent
  · rename_i condition
    by_cases front : m.timers.head? = some t
    · exact .inr (by simpa [front] using condition)
    · exact .inl front

private theorem announce_tickled (m : TimerManager) (t : TimerId) :
    (m.announce t).1.tickled = ((m.announce t).2 || m.tickled) := by
  unfold TimerManager.announce
  split
  · rfl
  · rfl

/-- What lands behind the front is due no earlier than the front. -/
private theorem behind_front {m : TimerManager}
    (behind : (m.insertTimer t).timers.head? ≠ some t) :
    ∃ front ∈ m.timers, (m.heap front).next ≤ (m.heap t).next := by
  rcases head_insert Timer.comparator m.key t m.timers with
    first | ⟨front, head, notBefore, _⟩
  · exact absurd first behind
  · exact ⟨front, List.mem_of_mem_head? head, Timer.next_le_of_not_before _ _ notBefore⟩

theorem notifiedSince_notify (at_front : Bool) (history : List TimerEvent) :
    notifiedSince (notify at_front history) = (at_front || notifiedSince history) := by
  cases at_front <;> rfl

theorem deadline_notify (at_front : Bool) (history : List TimerEvent) :
    deadline (notify at_front history) = deadline history := by
  cases at_front <;> rfl

/-- A timer put into the set without a notification is due no earlier than
one that was promised already. -/
private theorem covered_insert (m : TimerManager) {promise : Option UInt64}
    (silent : ((m.insertTimer t).announce t).2 = false) (fresh : m.tickled = false)
    (covered : ∀ b ∈ m.timers, ∃ due, promise = some due ∧ due ≤ (m.heap b).next) :
    ∃ due, promise = some due ∧ due ≤ (m.heap t).next := by
  have behind := (announce_silent silent).resolve_right (by
    rw [Bool.not_eq_true]
    exact fresh)
  obtain ⟨front, member, later⟩ := behind_front behind
  obtain ⟨due, same, before⟩ := covered front member
  exact ⟨due, same, UInt64.le_trans before later⟩

private theorem started_step (ready : Awake s) (effect : Effect s now call u)
    (past : s.clock ≤ now) (fits : Fits s now call) :
    ∀ b ∈ u.manager.timers, StartedBy now (u.manager.heap b) := by
  intro b member
  have aged : ∀ c ∈ s.manager.timers, StartedBy now (s.manager.heap c) :=
    fun c inside => (ready.started c inside).mono past
  have forward : s.manager.previouseTime ≤ now := UInt64.le_trans ready.previous past
  cases effect with
  | @added address ms cb recurring after unoccupied same =>
    rw [added_heap same]
    rcases (added_members ready.represents unoccupied same b).mp member with rfl | old
    · rw [Function.update_self]
      exact startedBy_sum fits (UInt64.le_refl _) rfl rfl
    · rw [Function.update_of_ne (Nat.ne_of_lt (ready.represents.known b (.inl old)))]
      exact aged b old
  | quiet => exact aged b member
  | @cancelled t old armed =>
    obtain ⟨different, inside⟩ := (ready.represents.nodup.mem_erase_iff).mp member
    rw [store_heap, Function.update_of_ne different]
    exact aged b inside
  | @refreshed t old armed =>
    have moved := ready.represents.rekey old (refreshTimer (s.manager.heap t) now) rfl
    by_cases here : b = t
    · subst b
      simp only [rekey, insertTimer_heap, store_heap, Function.update_self]
      exact startedBy_sum (fits armed) (UInt64.le_refl _) rfl rfl
    · simp only [rekey, insertTimer_heap, store_heap, Function.update_of_ne here]
      exact aged b ((moved.2 b).mp member)
  | @moved t ms from_now after old armed same =>
    have moved := ready.represents.rekey old (resetTimer (s.manager.heap t) ms from_now now) rfl
    rw [same, announce_timers, moved.2] at member
    rw [same, announce_heap]
    by_cases here : b = t
    · subst b
      simp only [rekey, insertTimer_heap, store_heap, Function.update_self]
      refine startedBy_sum (fits armed) ?_ rfl rfl
      cases from_now
      · exact (aged t member).2
      · exact UInt64.le_refl _
    · simp only [rekey, insertTimer_heap, store_heap, Function.update_of_ne here]
      exact aged b member
  | asked => exact aged b member
  | @expired after expired cbs address kept expiry =>
    obtain ⟨inside, stays⟩ := (expiry.members b).mp member
    rw [expiry.heap]
    split
    · rename_i found
      have due := (expiry.due b found).resolve_left (by simp [no_rollover forward])
      rw [expiredTimer, if_pos (stays found)]
      exact startedBy_sum (fits b inside (stays found) due) (UInt64.le_refl _) rfl rfl
    · exact aged b inside

private theorem previous_step (ready : Awake s) (effect : Effect s now call u)
    (past : s.clock ≤ now) : u.manager.previouseTime ≤ now := by
  have forward : s.manager.previouseTime ≤ now := UInt64.le_trans ready.previous past
  have announced : ∀ m t, (TimerManager.announce m t).1.previouseTime = m.previouseTime := by
    intro m t
    unfold TimerManager.announce
    split <;> rfl
  cases effect with
  | added unoccupied same =>
    rw [same, announced]
    exact forward
  | quiet => exact forward
  | cancelled member armed => exact forward
  | refreshed member armed => exact forward
  | moved member armed same =>
    rw [same, announced]
    exact forward
  | asked => exact forward
  | expired after expiry =>
    rcases expiry.previous with same | same
    · rw [same]
      exact forward
    · rw [same]
      exact UInt64.le_refl _

private theorem tickled_step (ready : Awake s) (effect : Effect s now call u) :
    u.manager.tickled = notifiedSince u.history := by
  cases effect with
  | added unoccupied same =>
    rw [notifiedSince_notify, same, announce_tickled]
    exact congrArg _ ready.tickled
  | quiet => exact ready.tickled
  | cancelled member armed => exact ready.tickled
  | refreshed member armed => exact ready.tickled
  | moved member armed same =>
    rw [notifiedSince_notify, same, announce_tickled]
    exact congrArg _ ready.tickled
  | asked => rfl
  | expired after expiry => exact expiry.tickled.trans ready.tickled

/-- Every call keeps the promise: what lands before the deadline is announced,
and what `refresh` and the re-arm move only becomes due later. -/
private theorem covered_step (ready : Awake s) (effect : Effect s now call u)
    (past : s.clock ≤ now) (fits : Fits s now call) (silent : notifiedSince u.history = false) :
    ∀ b ∈ u.manager.timers, ∃ due, deadline u.history = some due ∧
      due ≤ (u.manager.heap b).next := by
  intro b member
  have forward : s.manager.previouseTime ≤ now := UInt64.le_trans ready.previous past
  cases effect with
  | @added address ms cb recurring after unoccupied same =>
    rw [notifiedSince_notify, Bool.or_eq_false_iff] at silent
    obtain ⟨unannounced, before⟩ := silent
    have covered := ready.covered before
    have fresh : s.manager.tickled = false := ready.tickled.trans before
    rw [deadline_notify]
    rcases (added_members ready.represents unoccupied same b).mp member with rfl | old
    · rw [same] at unannounced
      rw [same, announce_heap]
      refine covered_insert (s.manager.construct now ms cb recurring address) unannounced fresh
        fun c inside => ?_
      have different : c ≠ s.manager.constructed :=
        Nat.ne_of_lt (ready.represents.known c (.inl inside))
      simp only [construct, store_heap, Function.update_of_ne different]
      exact covered c inside
    · rw [added_heap same,
        Function.update_of_ne (Nat.ne_of_lt (ready.represents.known b (.inl old)))]
      exact covered b old
  | quiet => exact ready.covered silent b member
  | @cancelled t old armed =>
    obtain ⟨different, inside⟩ := (ready.represents.nodup.mem_erase_iff).mp member
    rw [store_heap, Function.update_of_ne different]
    exact ready.covered silent b inside
  | @refreshed t old armed =>
    have moved := ready.represents.rekey old (refreshTimer (s.manager.heap t) now) rfl
    obtain ⟨due, promise, before⟩ := ready.covered silent b ((moved.2 b).mp member)
    refine ⟨due, promise, ?_⟩
    by_cases here : b = t
    · subst b
      simp only [rekey, insertTimer_heap, store_heap, Function.update_self]
      exact UInt64.le_trans before (rearm_later (ready.started t old) past (fits armed))
    · simp only [rekey, insertTimer_heap, store_heap, Function.update_of_ne here]
      exact before
  | @moved t ms from_now after old armed same =>
    rw [notifiedSince_notify, Bool.or_eq_false_iff] at silent
    obtain ⟨unannounced, before⟩ := silent
    have covered := ready.covered before
    have fresh : s.manager.tickled = false := ready.tickled.trans before
    have moved := ready.represents.rekey old (resetTimer (s.manager.heap t) ms from_now now) rfl
    rw [same, announce_timers, moved.2] at member
    rw [deadline_notify, same, announce_heap]
    by_cases here : b = t
    · subst b
      rw [same] at unannounced
      refine covered_insert ((s.manager.eraseTimer t).store t
        (resetTimer (s.manager.heap t) ms from_now now)) unannounced fresh fun c inside => ?_
      obtain ⟨different, held⟩ := (ready.represents.nodup.mem_erase_iff).mp inside
      rw [store_heap, Function.update_of_ne different]
      exact covered c held
    · simp only [rekey, insertTimer_heap, store_heap, Function.update_of_ne here]
      exact covered b member
  | asked =>
    have sorted := ready.represents.sorted
    cases shape : s.manager.timers with
    | nil =>
      rw [shape] at member
      cases member
    | cons first rest =>
      rw [shape] at member sorted
      refine ⟨(s.manager.heap first).next, rfl, ?_⟩
      rcases List.mem_cons.mp member with rfl | later
      · exact UInt64.le_refl _
      · have order := (List.pairwise_cons.mp sorted).1 b later
        rw [key, key, Timer.comparator_iff] at order
        grind
  | @expired after expired cbs address kept expiry =>
    obtain ⟨inside, stays⟩ := (expiry.members b).mp member
    obtain ⟨due, promise, before⟩ := ready.covered silent b inside
    refine ⟨due, promise, ?_⟩
    rw [expiry.heap]
    split
    · rename_i found
      have arrived := (expiry.due b found).resolve_left (by simp [no_rollover forward])
      rw [expiredTimer, if_pos (stays found)]
      exact UInt64.le_trans before
        (rearm_later (ready.started b inside) past (fits b inside (stays found) arrived))
    · exact before

theorem awake_step (ready : Awake s) (forward : Forward s (now, call))
    (stepped : step s (now, call) = some u) : Awake u := by
  have effect := step_effect ready.represents stepped
  have fits := fits_plain forward.2
  refine ⟨effect.represents ready.represents, ?_, ?_, tickled_step ready effect,
    covered_step ready effect forward.1 fits⟩
  · rw [effect.clock]
    exact started_step ready effect forward.1 fits
  · rw [effect.clock]
    exact previous_step ready effect forward.1

/-- **No missed wake-up.** While the override has not run since the last
`getNextTimer`, no timer is due before the deadline that call was about. -/
theorem no_earlier_timer_unannounced (start : UInt64)
    (reached : Runs.Reaches step Forward (initial start) s)
    (silent : notifiedSince s.history = false) :
    ∀ t ∈ s.manager.timers, ∃ due, deadline s.history = some due ∧
      due ≤ (s.manager.heap t).next :=
  (reached.invariant Awake (awake_initial start) fun _ _ _ ready forward stepped =>
    awake_step ready forward stepped).covered silent

/-- A sleeper who asked at 10, while timers are re-armed, refreshed and put
off behind its deadline. -/
def quietNight : List (UInt64 × TimerCall) :=
  [(5, .addTimer 100 (some (.function 1)) false 40), (5, .addTimer 30 (some (.function 2)) true 8),
    (10, .getNextTimer), (20, .refresh 0), (36, .listExpiredCb 16), (40, .reset 0 200 false)]

theorem quiet_night_keeps_deadline :
    ∃ s, Runs.run step (initial 5) quietNight = some s ∧ deadline s.history = some 35 ∧
      ∀ t ∈ s.manager.timers, ∃ due, deadline s.history = some due ∧
        due ≤ (s.manager.heap t).next :=
  ⟨_, rfl, by decide, no_earlier_timer_unannounced 5
    (Runs.reaches_of_run quietNight rfl (by decide)) (by decide)⟩

end TimerSession
end Synergy
