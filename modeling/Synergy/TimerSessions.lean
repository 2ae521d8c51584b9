import Synergy.TimerRepresentation

/-! Every call sequence keeps the representation invariant. The inversion of
the step function says once what a call can do to a well-formed manager; the
laws about whole sessions are derived from it. -/
namespace Synergy
open OrderedSet TimerManager

/-- `addConditionTimer` is `addTimer` with a bound callback. -/
def TimerCall.plain : TimerCall → TimerCall
  | .addConditionTimer ms cb weak_cond recurring address =>
    .addTimer ms (some (.onTimer weak_cond cb)) recurring address
  | call => call

namespace TimerSession

theorem step_plain (s : TimerSession) (now : UInt64) (call : TimerCall) :
    s.step (now, call) = s.step (now, call.plain) := by
  cases call <;> rfl

/-- What one call can do to a session. -/
inductive Effect (s : TimerSession) (now : UInt64) : TimerCall → TimerSession → Prop where
  | added {after : TimerManager × Bool}
      (unoccupied : Unoccupied s.manager address)
      (same : after = ((s.manager.construct now ms cb recurring address).insertTimer
        s.manager.constructed).announce s.manager.constructed) :
      Effect s now (.addTimer ms cb recurring address)
        ⟨after.1, now, notify after.2 (.added s.manager.constructed cb recurring :: s.history)⟩
  | quiet : Effect s now call ⟨s.manager, now, s.history⟩
  | cancelled (member : t ∈ s.manager.timers) (armed : (s.manager.heap t).cb.isSome) :
      Effect s now (.cancel t)
        ⟨(s.manager.eraseTimer t).store t { s.manager.heap t with cb := none }, now,
          .cancelled t :: s.history⟩
  | refreshed (member : t ∈ s.manager.timers) (armed : (s.manager.heap t).cb.isSome) :
      Effect s now (.refresh t)
        ⟨s.manager.rekey t (refreshTimer (s.manager.heap t) now), now, s.history⟩
  | moved {after : TimerManager × Bool}
      (member : t ∈ s.manager.timers) (armed : (s.manager.heap t).cb.isSome)
      (same : after = (s.manager.rekey t
        (resetTimer (s.manager.heap t) ms from_now now)).announce t) :
      Effect s now (.reset t ms from_now) ⟨after.1, now, notify after.2 s.history⟩
  | asked : Effect s now .getNextTimer
      ⟨{ s.manager with tickled := false }, now,
        .asked (s.manager.timers.head?.map fun t => (s.manager.heap t).next) :: s.history⟩
  | expired (ready : Represents after []) (expiry : Expiry s.manager now expired after cbs) :
      Effect s now (.listExpiredCb address) ⟨after, now, .handedOut cbs :: s.history⟩

private theorem add_effect (ready : Represents s.manager [])
    (stepped : step s (now, .addTimer ms cb recurring address) = some u) :
    Effect s now (.addTimer ms cb recurring address) u := by
  simp only [step] at stepped
  split at stepped
  · rename_i unoccupied
    cases stepped
    have built := ready.construct now ms cb recurring address
      (fun t held => unoccupied t (held.resolve_right (by simp)))
    have placed := built.insert (by simp)
    have announced := addTimerLocked_eq placed.1 ((placed.2 _).mpr (.inl rfl))
    exact .added unoccupied announced
  · cases stepped

theorem step_effect (ready : Represents s.manager [])
    (stepped : step s (now, call) = some u) : Effect s now call.plain u := by
  have armed_member : ∀ t, (s.manager.heap t).cb.isSome → t ∈ s.manager.timers :=
    fun t armed => (ready.armed t armed).resolve_right (by simp)
  cases call with
  | addTimer ms cb recurring address => exact add_effect ready stepped
  | addConditionTimer ms cb weak_cond recurring address =>
    rw [step_plain] at stepped
    exact add_effect ready stepped
  | cancel t =>
    simp only [step] at stepped
    split at stepped
    · cases live : (s.manager.heap t).cb with
      | none =>
        rw [cancel_silent live] at stepped
        cases stepped
        exact .quiet
      | some cb =>
        have armed : (s.manager.heap t).cb.isSome := by rw [live]; rfl
        rw [cancel_armed ready armed (armed_member t armed)] at stepped
        cases stepped
        exact .cancelled (armed_member t armed) armed
    · cases stepped
  | refresh t =>
    simp only [step] at stepped
    split at stepped
    · cases stepped
      cases live : (s.manager.heap t).cb with
      | none =>
        rw [refresh_silent live]
        exact .quiet
      | some cb =>
        have armed : (s.manager.heap t).cb.isSome := by rw [live]; rfl
        rw [refresh_armed ready armed (armed_member t armed)]
        exact .refreshed (armed_member t armed) armed
    · cases stepped
  | reset t ms from_now =>
    simp only [step] at stepped
    split at stepped
    · cases stepped
      by_cases idle : ms = (s.manager.heap t).ms ∧ from_now = false ∨ (s.manager.heap t).cb = none
      · obtain ⟨done, same⟩ := reset_idle idle now
        rw [same]
        exact .quiet
      · obtain ⟨changes, live⟩ := not_or.mp idle
        have armed : (s.manager.heap t).cb.isSome := Option.isSome_iff_ne_none.mpr live
        rw [reset_armed ready armed (armed_member t armed) changes]
        exact .moved (armed_member t armed) armed rfl
    · cases stepped
  | getNextTimer =>
    cases stepped
    rw [getNextTimer_waits]
    exact .asked
  | hasTimer =>
    cases stepped
    exact .quiet
  | listExpiredCb address =>
    simp only [step, listExpiredCb_eq] at stepped
    cases stepped
    obtain ⟨represents, expired, expiry⟩ :=
      listExpiredLocked_expiry ready List.nodup_nil now address
    exact .expired represents expiry

theorem Effect.clock (effect : Effect s now call u) : u.clock = now := by
  cases effect <;> rfl

theorem Effect.represents (ready : Represents s.manager []) (effect : Effect s now call u) :
    Represents u.manager [] := by
  cases effect with
  | @added address ms cb recurring after unoccupied same =>
    have built := ready.construct now ms cb recurring address
      (fun t held => unoccupied t (held.resolve_right (by simp)))
    rw [same]
    exact (built.insert (by simp)).1.announce _
  | quiet => exact ready
  | cancelled member armed => exact (ready.take_out member).disarm _ (by simp) rfl
  | @refreshed t member armed =>
    exact (ready.rekey member (refreshTimer (s.manager.heap t) now) rfl).1
  | @moved t ms from_now after member armed same =>
    rw [same]
    exact (ready.rekey member (resetTimer (s.manager.heap t) ms from_now now) rfl).1.announce t
  | asked => exact ready.retickle false
  | expired after expiry => exact after

/-- The representation invariant, with the record of who was added empty. -/
structure WellFormed (s : TimerSession) : Prop where
  represents : Represents s.manager []
  emptied : ∀ t ∈ s.manager.timers, (s.manager.heap t).cb = none →
    ∃ recurring, .added t none recurring ∈ s.history

theorem notify_suffix (at_front : Bool) (history : List TimerEvent) :
    history <:+ notify at_front history := by
  cases at_front
  · exact List.suffix_refl _
  · exact List.suffix_cons _ _

/-- Nothing observed is forgotten. -/
theorem Effect.history (effect : Effect s now call u) : s.history <:+ u.history := by
  cases effect with
  | added unoccupied same => exact (List.suffix_cons _ _).trans (notify_suffix _ _)
  | quiet => exact List.suffix_refl _
  | cancelled member armed => exact List.suffix_cons _ _
  | refreshed member armed => exact List.suffix_refl _
  | moved member armed same => exact notify_suffix _ _
  | asked => exact List.suffix_cons _ _
  | expired after expiry => exact List.suffix_cons _ _

/-- Membership after an insertion by `addTimer`. -/
theorem added_members {m : TimerManager} (ready : Represents m []) (unoccupied : Unoccupied m address)
    {after : TimerManager × Bool}
    (same : after = ((m.construct now ms cb recurring address).insertTimer
      m.constructed).announce m.constructed) (b : TimerId) :
    b ∈ after.1.timers ↔ b = m.constructed ∨ b ∈ m.timers := by
  have built := ready.construct now ms cb recurring address
    (fun t held => unoccupied t (held.resolve_right (by simp)))
  rw [same, announce_timers]
  exact (built.insert (by simp)).2 b

theorem added_heap {m : TimerManager} {after : TimerManager × Bool}
    (same : after = ((m.construct now ms cb recurring address).insertTimer
      m.constructed).announce m.constructed) :
    after.1.heap =
      Function.update m.heap m.constructed (Timer.armed now ms cb recurring address) := by
  rw [same, announce_heap]
  rfl

/-- A timer in the set after a call was either added by it, or was in the set
before with the same callback and kind. -/
theorem Effect.origin (ready : Represents s.manager []) (effect : Effect s now call u)
    (member : b ∈ u.manager.timers) :
    (∃ cb recurring, .added b cb recurring ∈ u.history ∧ (u.manager.heap b).cb = cb) ∨
      b ∈ s.manager.timers ∧ (u.manager.heap b).cb = (s.manager.heap b).cb := by
  cases effect with
  | @added address ms cb recurring after unoccupied same =>
    rcases (added_members ready unoccupied same b).mp member with rfl | old
    · refine .inl ⟨cb, recurring, (notify_suffix _ _).subset (by simp), ?_⟩
      simp [added_heap same, Timer.armed]
    · have different : b ≠ s.manager.constructed := Nat.ne_of_lt (ready.known b (.inl old))
      exact .inr ⟨old, by simp [added_heap same, Function.update_of_ne different]⟩
  | quiet => exact .inr ⟨member, rfl⟩
  | @cancelled t old armed =>
    have kept := (ready.nodup.mem_erase_iff).mp member
    exact .inr ⟨kept.2, by simp [Function.update_of_ne kept.1]⟩
  | @refreshed t old armed =>
    have moved := ready.rekey old (refreshTimer (s.manager.heap t) now) rfl
    refine .inr ⟨(moved.2 b).mp member, ?_⟩
    by_cases same : b = t
    · subst b
      simp [rekey, refreshTimer]
    · simp [rekey, Function.update_of_ne same]
  | @moved t ms from_now after old armed same =>
    have moved := ready.rekey old (resetTimer (s.manager.heap t) ms from_now now) rfl
    rw [same, announce_timers, moved.2] at member
    refine .inr ⟨member, ?_⟩
    rw [same, announce_heap]
    by_cases here : b = t
    · subst b
      simp [rekey, resetTimer]
    · simp [rekey, Function.update_of_ne here]
  | asked => exact .inr ⟨member, rfl⟩
  | expired after expiry =>
    obtain ⟨old, stays⟩ := (expiry.members b).mp member
    refine .inr ⟨old, ?_⟩
    rw [expiry.heap]
    split
    · rename_i found
      simp [expiredTimer, stays found]
    · rfl

theorem wellFormed_step (ready : WellFormed s) (stepped : step s (now, call) = some u) :
    WellFormed u := by
  have effect := step_effect ready.represents stepped
  refine ⟨effect.represents ready.represents, fun t member silent => ?_⟩
  rcases effect.origin ready.represents member with ⟨cb, recurring, added, same⟩ | ⟨old, same⟩
  · rw [silent] at same
    exact ⟨recurring, same ▸ added⟩
  · obtain ⟨recurring, added⟩ := ready.emptied t old (same ▸ silent)
    exact ⟨recurring, effect.history.subset added⟩

theorem wellFormed_run (reached : Runs.Reachable step (initial start) s) : WellFormed s :=
  reached.invariant WellFormed
    ⟨initial_represents start, by simp [initial, TimerManager.initial]⟩
    fun _ _ _ ready _ stepped => wellFormed_step ready stepped

/-- The representation invariant as the header relies on it: `m_timers` is
strictly ordered without repetitions, an armed timer is in it once, a silent
one was added silent, and `cancel` never erases at `end()`. -/
structure SetLaws (s : TimerSession) : Prop where
  ordered : Sorted Timer.comparator s.manager.key s.manager.timers
  distinct : s.manager.timers.Nodup
  armed_once : ∀ t, (s.manager.heap t).cb.isSome → s.manager.timers.count t = 1
  silent_added_silent : ∀ t ∈ s.manager.timers, (s.manager.heap t).cb = none →
    ∃ recurring, .added t none recurring ∈ s.history
  armed_found : ∀ t, (s.manager.heap t).cb.isSome → s.manager.findTimer t = some t
  cancel_defined : ∀ t, s.manager.cancel t ≠ none

/-- Every sequence of calls, at any clock readings, keeps the set's laws. -/
theorem sessions_keep_set_laws (start : UInt64)
    (reached : Runs.Reachable step (initial start) s) : SetLaws s := by
  obtain ⟨ready, emptied⟩ := wellFormed_run reached
  have armed_member : ∀ t, (s.manager.heap t).cb.isSome → t ∈ s.manager.timers :=
    fun t armed => (ready.armed t armed).resolve_right (by simp)
  refine ⟨ready.sorted, ready.nodup, fun t armed => ?_, emptied, fun t armed => ?_, fun t => ?_⟩
  · exact List.count_eq_one_of_mem ready.nodup (armed_member t armed)
  · exact ready.find (armed_member t armed)
  · cases live : (s.manager.heap t).cb with
    | none =>
      rw [cancel_silent live]
      exact Option.some_ne_none _
    | some cb =>
      have armed : (s.manager.heap t).cb.isSome := by rw [live]; rfl
      rw [cancel_armed ready armed (armed_member t armed)]
      exact Option.some_ne_none _

/-- Two timers due together, a silent one, a shortened interval, an interval
that wraps, and a clock that goes back. -/
def mixedCalls : List (UInt64 × TimerCall) :=
  [(5, .addTimer 100 (some (.function 1)) false 40), (5, .addTimer 100 none true 8),
    (5, .addTimer 100 (some (.function 2)) true 24), (9, .reset 0 50 false),
    (60, .listExpiredCb 16), (60, .refresh 2), (3, .reset 2 0xffffffffffffffff true),
    (200, .listExpiredCb 16)]

theorem mixed_calls_keep_set_laws :
    ∃ s, Runs.run step (initial 5) mixedCalls = some s ∧ s.manager.timers = [2, 1] ∧ SetLaws s :=
  ⟨_, rfl, by decide, sessions_keep_set_laws 5 (Runs.reachable_of_run mixedCalls rfl)⟩

end TimerSession
end Synergy
