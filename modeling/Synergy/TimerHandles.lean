import Synergy.TimerAccounting

/-! What the operations of a timer handle report. All three consult `m_cb`,
which is set exactly while the timer is pending, except that `reset` returns
before it looks when the interval asked for is the one the timer has. -/
namespace Synergy
open OrderedSet TimerManager

/-- An operation of a handle, with its arguments. -/
inductive TimerOperation where
  | cancel
  | refresh
  | reset (ms : UInt64) (from_now : Bool)
  deriving DecidableEq, Repr

namespace TimerManager

/-- The manager after an operation of the handle, and the result of the
operation. -/
def perform (m : TimerManager) (self : TimerId) (now : UInt64) :
    TimerOperation → Option (TimerManager × Bool)
  | .cancel => m.cancel self
  | .refresh => some (m.refresh self now)
  | .reset ms from_now =>
    let (m, _, done) := m.reset self ms from_now now
    some (m, done)

/-- Every other timer keeps its members and its membership. -/
def OthersKept (m after : TimerManager) (t : TimerId) : Prop :=
  ∀ b, b ≠ t → after.heap b = m.heap b ∧ (b ∈ after.timers ↔ b ∈ m.timers)

/-- The operation returns, it reports whether the timer is pending, a false
answer means that nothing changed, and no other timer is touched. -/
structure Truthful (m : TimerManager) (t : TimerId) (after : TimerManager) (done : Bool) :
    Prop where
  reported : done = true ↔ t ∈ m.timers
  refused : done = false → after = m
  others : done = true → OthersKept m after t

/-- A `reset` to the interval the timer has, counted from where it was, of a
timer that is no longer pending. -/
def RepeatedReset (m : TimerManager) (t : TimerId) : TimerOperation → Prop
  | .reset ms from_now => ms = (m.heap t).ms ∧ from_now = false ∧ t ∉ m.timers
  | _ => False

variable {m : TimerManager} {t : TimerId}

theorem truthful_refusal (out : t ∉ m.timers) : Truthful m t m false where
  reported := by simp [out]
  refused := fun _ => rfl
  others := fun done => nomatch done

theorem truthful_success (member : t ∈ m.timers) (kept : OthersKept m after t) :
    Truthful m t after true where
  reported := by simp [member]
  refused := fun refused => nomatch refused
  others := fun _ => kept

theorem othersKept_rekey (ready : Represents m []) (member : t ∈ m.timers) (value : Timer)
    (address : value.address = (m.heap t).address) : OthersKept m (m.rekey t value) t := by
  intro b different
  constructor
  · simp [rekey, Function.update_of_ne different]
  · exact (ready.rekey member value address).2 b

theorem othersKept_cancel (ready : Represents m []) (value : Timer) :
    OthersKept m ((m.eraseTimer t).store t value) t := by
  intro b different
  constructor
  · simp [Function.update_of_ne different]
  · simp [eraseTimer, ready.nodup.mem_erase_iff, different]

/-- `m_cb` decides for `cancel` and `refresh`, and for `reset` behind its early
return. -/
theorem perform_truthful (ready : Represents m [])
    (pending : t ∈ m.timers ↔ (m.heap t).cb.isSome) (now : UInt64) (operation : TimerOperation)
    (fresh : ¬ RepeatedReset m t operation) :
    ∃ after done, m.perform t now operation = some (after, done) ∧ Truthful m t after done := by
  by_cases member : t ∈ m.timers
  · have armed := pending.mp member
    cases operation with
    | cancel => exact ⟨_, _, cancel_armed ready armed member,
        truthful_success member (othersKept_cancel ready _)⟩
    | refresh =>
      refine ⟨_, _, congrArg some (refresh_armed ready armed member now), ?_⟩
      exact truthful_success member (othersKept_rekey ready member _ rfl)
    | reset ms from_now =>
      by_cases same : ms = (m.heap t).ms ∧ from_now = false
      · obtain ⟨rfl, rfl⟩ := same
        refine ⟨m, true, ?_, truthful_success member fun b _ => ⟨rfl, Iff.rfl⟩⟩
        simp only [perform, reset_shortcut]
      · have moved := reset_armed ready armed member same now
        refine ⟨_, true, by simp only [perform, moved]; rfl, truthful_success member ?_⟩
        intro b different
        rw [announce_heap, announce_timers]
        exact othersKept_rekey ready member (resetTimer (m.heap t) ms from_now now) rfl b different
  · have silent : (m.heap t).cb = none := by
      have disarmed := (not_congr pending).mp member
      simpa using disarmed
    cases operation with
    | cancel => exact ⟨m, false, cancel_silent silent, truthful_refusal member⟩
    | refresh =>
      exact ⟨m, false, congrArg some (refresh_silent silent now), truthful_refusal member⟩
    | reset ms from_now =>
      have changes : ¬ (ms = (m.heap t).ms ∧ from_now = false) :=
        fun same => fresh ⟨same.1, same.2, member⟩
      refine ⟨m, false, ?_, truthful_refusal member⟩
      simp only [perform, reset_silent changes silent]

/-- The early return of `reset` answers true without looking. -/
theorem repeated_reset_untruthful (now : UInt64) (repeated : RepeatedReset m t operation) :
    ∃ after, m.perform t now operation = some (after, true) ∧ t ∉ m.timers := by
  cases operation with
  | cancel => cases repeated
  | refresh => cases repeated
  | reset ms from_now =>
    obtain ⟨rfl, rfl, out⟩ := repeated
    refine ⟨m, ?_, out⟩
    simp only [perform, reset_shortcut]

end TimerManager

namespace TimerSession

/-- A call adds at most one timer. -/
theorem Effect.newest (effect : Effect s now call u) :
    ∃ newest : Option Callback × Bool, ∀ t cb recurring, .added t cb recurring ∈ u.history →
      .added t cb recurring ∈ s.history ∨
        t = s.manager.constructed ∧ (cb, recurring) = newest := by
  cases effect with
  | @added address ms newCb newRecurring after unoccupied same =>
    refine ⟨(newCb, newRecurring), fun t cb recurring added => ?_⟩
    rcases List.mem_cons.mp (added_mem_notify.mp added) with here | old
    · cases here
      exact .inr ⟨rfl, rfl⟩
    · exact .inl old
  | quiet => exact ⟨default, fun _ _ _ added => .inl added⟩
  | cancelled member armed =>
    exact ⟨default, fun _ _ _ added => .inl ((List.mem_cons.mp added).resolve_left (by simp))⟩
  | refreshed member armed => exact ⟨default, fun _ _ _ added => .inl added⟩
  | moved member armed same =>
    exact ⟨default, fun _ _ _ added => .inl (added_mem_notify.mp added)⟩
  | asked =>
    exact ⟨default, fun _ _ _ added => .inl ((List.mem_cons.mp added).resolve_left (by simp))⟩
  | expired after expiry =>
    exact ⟨default, fun _ _ _ added => .inl ((List.mem_cons.mp added).resolve_left (by simp))⟩

/-- A name is given to one timer only. -/
def AddedOnce (history : List TimerEvent) : Prop :=
  ∀ t first again kind other, .added t first kind ∈ history → .added t again other ∈ history →
    (first, kind) = (again, other)

theorem addedOnce_step (ready : Accounted s) (once : AddedOnce s.history)
    (stepped : step s (now, call) = some u) : AddedOnce u.history := by
  obtain ⟨newest, born⟩ := (step_effect ready.represents stepped).newest
  have older : ∀ t cb recurring, .added t cb recurring ∈ s.history →
      t ≠ s.manager.constructed :=
    fun t cb recurring added => Nat.ne_of_lt (ready.known t cb recurring added).1
  intro t first again kind other firstAdded againAdded
  rcases born t first kind firstAdded with firstOld | ⟨here, firstNew⟩
  · rcases born t again other againAdded with againOld | ⟨here, _⟩
    · exact once t first again kind other firstOld againOld
    · exact absurd here (older t first kind firstOld)
  · rcases born t again other againAdded with againOld | ⟨_, againNew⟩
    · exact absurd here (older t again other againOld)
    · exact firstNew.trans againNew.symm

theorem addedOnce_run (reached : Runs.Reachable step (initial start) s) :
    AddedOnce s.history := by
  have both := reached.invariant (fun v => Accounted v ∧ AddedOnce v.history)
    ⟨accounted_initial start, by simp [AddedOnce, initial]⟩ ?_
  · exact both.2
  · rintro v ⟨now, call⟩ w ⟨ready, once⟩ _ stepped
    exact ⟨accounted_step ready stepped, addedOnce_step ready once stepped⟩

/-- A timer added with a callback is pending exactly while it has it. -/
theorem pending_iff_armed (reached : Runs.Reachable step (initial start) s)
    (added : .added t (some cb) recurring ∈ s.history) :
    t ∈ s.manager.timers ↔ (s.manager.heap t).cb.isSome := by
  obtain ⟨ready, emptied⟩ := wellFormed_run reached
  constructor
  · intro member
    apply Option.isSome_iff_ne_none.mpr
    intro silent
    obtain ⟨kind, empty⟩ := emptied t member silent
    cases addedOnce_run reached t (some cb) none recurring kind added empty
  · intro armed
    exact (ready.armed t armed).resolve_right (by simp)

/-- In every reachable state, an operation on a timer that was added with a
callback is truthful unless it repeats the interval of a timer that is no
longer pending. -/
theorem handle_truthful_iff_not_repeated (start : UInt64)
    (reached : Runs.Reachable step (initial start) s)
    (added : .added t (some cb) recurring ∈ s.history) (now : UInt64)
    (operation : TimerOperation) :
    (∃ after done, s.manager.perform t now operation = some (after, done) ∧
      Truthful s.manager t after done) ↔ ¬ RepeatedReset s.manager t operation := by
  obtain ⟨ready, _⟩ := wellFormed_run reached
  constructor
  · rintro ⟨after, done, performed, truthful⟩ repeated
    obtain ⟨kept, answered, out⟩ := repeated_reset_untruthful now repeated
    cases performed.symm.trans answered
    exact out (truthful.reported.mp rfl)
  · exact perform_truthful ready (pending_iff_armed reached added) now operation

/-- A one-shot timer that fires. -/
def firedOnce : List (UInt64 × TimerCall) :=
  [(5, .addTimer 100 (some (.function 1)) false 40), (140, .listExpiredCb 16)]

theorem fired_timer_answers_truthfully :
    ∃ s, Runs.run step (initial 5) firedOnce = some s ∧
      ∃ after done, s.manager.perform 0 150 (.reset 70 false) = some (after, done) ∧
        Truthful s.manager 0 after done :=
  ⟨_, rfl, (handle_truthful_iff_not_repeated 5 (Runs.reachable_of_run firedOnce rfl)
    (by decide : TimerEvent.added 0 (some (.function 1)) false ∈ _) 150 (.reset 70 false)).mpr
      fun repeated => absurd repeated.1 (by decide)⟩

/-- Asked to keep its interval, the fired timer says that it is armed. -/
theorem fired_timer_claims_to_be_armed :
    ∃ s, Runs.run step (initial 5) firedOnce = some s ∧
      .added 0 (some (.function 1)) false ∈ s.history ∧
      s.manager.perform 0 150 (.reset 100 false) = some (s.manager, true) ∧
      0 ∉ s.manager.timers ∧ s.manager.perform 0 150 .refresh = some (s.manager, false) ∧
      ¬ Truthful s.manager 0 s.manager true := by
  refine ⟨_, rfl, by decide, rfl, by decide, rfl, ?_⟩
  intro truthful
  exact absurd (truthful.reported.mp rfl) (by decide)

end TimerSession
end Synergy
