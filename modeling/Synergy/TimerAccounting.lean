import Mathlib.Algebra.Ring.Nat
import Synergy.TimerSessions

/-! Accounting between cancelling and expiring: from the point of view of one
timer a call is one of four things, and whole histories are counted from that. -/
namespace Synergy
open OrderedSet TimerManager

/-- How often one observation hands out the callback of a timer. -/
def TimerEvent.hands (t : TimerId) : TimerEvent → ℕ
  | .handedOut cbs => (cbs.map Prod.fst).count t
  | _ => 0

namespace TimerSession

/-- How often `listExpiredCb` handed out the callback of a timer. -/
def handedCount (t : TimerId) (history : List TimerEvent) : ℕ :=
  (history.map (TimerEvent.hands t)).sum

/-- How often a `cancel` of the timer returned true. -/
def cancelCount (t : TimerId) (history : List TimerEvent) : ℕ :=
  history.count (.cancelled t)

@[simp] theorem handedCount_cons (event : TimerEvent) (history : List TimerEvent) :
    handedCount t (event :: history) = event.hands t + handedCount t history := by
  simp [handedCount]

@[simp] theorem handedCount_notify (at_front : Bool) (history : List TimerEvent) :
    handedCount t (notify at_front history) = handedCount t history := by
  cases at_front <;> simp [notify, TimerEvent.hands]

@[simp] theorem cancelCount_added (history : List TimerEvent) :
    cancelCount t (.added b cb recurring :: history) = cancelCount t history := by
  simp [cancelCount]

@[simp] theorem cancelCount_notify (at_front : Bool) (history : List TimerEvent) :
    cancelCount t (notify at_front history) = cancelCount t history := by
  cases at_front <;> simp [notify, cancelCount]

/-- What one call is to one timer that existed before it. -/
inductive Life (s u : TimerSession) (t : TimerId) : Prop where
  | untouched (members : t ∈ u.manager.timers ↔ t ∈ s.manager.timers)
      (handed : handedCount t u.history = handedCount t s.history)
      (cancels : cancelCount t u.history = cancelCount t s.history)
  | cancelled (before : t ∈ s.manager.timers) (after : t ∉ u.manager.timers)
      (handed : handedCount t u.history = handedCount t s.history)
      (cancels : cancelCount t u.history = cancelCount t s.history + 1)
  | fired (before : t ∈ s.manager.timers) (once : (s.manager.heap t).recurring = false)
      (after : t ∉ u.manager.timers)
      (handed : handedCount t u.history = handedCount t s.history + 1)
      (cancels : cancelCount t u.history = cancelCount t s.history)
  | rearmed (before : t ∈ s.manager.timers) (recurring : (s.manager.heap t).recurring)
      (after : t ∈ u.manager.timers)
      (handed : handedCount t u.history = handedCount t s.history + 1)
      (cancels : cancelCount t u.history = cancelCount t s.history)

theorem Expiry.hands (expiry : Expiry m now expired after cbs) (t : TimerId) :
    (TimerEvent.handedOut cbs).hands t = if t ∈ expired then 1 else 0 := by
  have names : cbs.map Prod.fst = expired := by
    rw [expiry.handed, List.map_map]
    exact List.map_id _
  rw [TimerEvent.hands, names]
  split
  · rename_i member
    exact List.count_eq_one_of_mem expiry.distinct member
  · rename_i absent
    exact List.count_eq_zero.mpr absent

/-- The counter moves only when `addTimer` constructs. -/
theorem announce_constructed (m : TimerManager) (t : TimerId) :
    (m.announce t).1.constructed = m.constructed := by
  unfold TimerManager.announce
  split <;> rfl

theorem Effect.life (ready : Represents s.manager []) (effect : Effect s now call u)
    (old : t < s.manager.constructed) : Life s u t := by
  cases effect with
  | @added address ms cb recurring after unoccupied same =>
    refine .untouched ?_ (by simp [TimerEvent.hands]) (by simp)
    have different : t ≠ s.manager.constructed := Nat.ne_of_lt old
    simp [added_members ready unoccupied same, different]
  | quiet => exact .untouched Iff.rfl rfl rfl
  | @cancelled c member armed =>
    by_cases here : t = c
    · subst t
      refine .cancelled member ?_ (by simp [TimerEvent.hands]) (by simp [cancelCount])
      exact fun inside => ((ready.nodup.mem_erase_iff).mp inside).1 rfl
    · have elsewhere : TimerEvent.cancelled c ≠ .cancelled t := by
        intro same
        cases same
        exact here rfl
      refine .untouched ?_ (by simp [TimerEvent.hands]) (by simp [cancelCount, elsewhere])
      simp [eraseTimer, ready.nodup.mem_erase_iff, here]
  | @refreshed c member armed =>
    exact .untouched ((ready.rekey member (refreshTimer (s.manager.heap c) now) rfl).2 t) rfl rfl
  | @moved c ms from_now after member armed same =>
    have moved := ready.rekey member (resetTimer (s.manager.heap c) ms from_now now) rfl
    refine .untouched ?_ (by simp) (by simp)
    rw [same, announce_timers]
    exact moved.2 t
  | asked => exact .untouched Iff.rfl (by simp [TimerEvent.hands]) (by simp [cancelCount])
  | @expired after expired cbs address kept expiry =>
    have cancels : cancelCount t (.handedOut cbs :: s.history) = cancelCount t s.history := by
      simp [cancelCount]
    by_cases found : t ∈ expired
    · have before := expiry.pending t found
      have handed : handedCount t (.handedOut cbs :: s.history) = handedCount t s.history + 1 := by
        rw [handedCount_cons, Expiry.hands expiry, if_pos found]
        exact Nat.add_comm _ _
      by_cases kind : (s.manager.heap t).recurring
      · exact .rearmed before kind ((expiry.members t).mpr ⟨before, fun _ => kind⟩) handed cancels
      · refine .fired before (by simpa using kind) ?_ handed cancels
        exact fun inside => kind (((expiry.members t).mp inside).2 found)
    · refine .untouched ?_ ?_ cancels
      · simp [expiry.members t, found]
      · rw [handedCount_cons, Expiry.hands expiry, if_neg found, Nat.zero_add]

/-- A call constructs at most the next timer, and says nothing about timers
that do not exist yet. -/
theorem Effect.unborn (ready : Represents s.manager []) (effect : Effect s now call u)
    (unborn : s.manager.constructed ≤ t) :
    handedCount t u.history = handedCount t s.history ∧
      cancelCount t u.history = cancelCount t s.history := by
  have absent : t ∉ s.manager.timers :=
    fun inside => Nat.not_lt.mpr unborn (ready.known t (.inl inside))
  cases effect with
  | added unoccupied same => simp [TimerEvent.hands]
  | quiet => exact ⟨rfl, rfl⟩
  | @cancelled c member armed =>
    have elsewhere : TimerEvent.cancelled c ≠ .cancelled t := by
      intro same
      cases same
      exact absent member
    simp [TimerEvent.hands, cancelCount, elsewhere]
  | refreshed member armed => exact ⟨rfl, rfl⟩
  | moved member armed same => simp
  | asked => simp [TimerEvent.hands, cancelCount]
  | expired after expiry =>
    have missed : ¬ t ∈ _ := fun found => absent (expiry.pending t found)
    rw [handedCount_cons, Expiry.hands expiry, if_neg missed]
    simp [cancelCount]

/-- The kind of a timer is fixed when it is constructed. -/
theorem Effect.kind (effect : Effect s now call u) (old : t < s.manager.constructed) :
    t < u.manager.constructed ∧
      (u.manager.heap t).recurring = (s.manager.heap t).recurring := by
  have rekeyed : ∀ c value, value.recurring = (s.manager.heap c).recurring →
      ((s.manager.rekey c value).heap t).recurring = (s.manager.heap t).recurring := by
    intro c value same
    by_cases here : t = c
    · subst t
      simpa [rekey] using same
    · simp [rekey, Function.update_of_ne here]
  cases effect with
  | @added address ms cb recurring after unoccupied same =>
    have different : t ≠ s.manager.constructed := Nat.ne_of_lt old
    have grown : after.1.constructed = s.manager.constructed + 1 := by
      rw [same, announce_constructed]
      rfl
    refine ⟨?_, by simp [added_heap same, Function.update_of_ne different]⟩
    change t < after.1.constructed
    omega
  | quiet => exact ⟨old, rfl⟩
  | @cancelled c member armed =>
    refine ⟨old, ?_⟩
    by_cases here : t = c
    · subst t
      simp
    · simp [Function.update_of_ne here]
  | refreshed member armed => exact ⟨old, rekeyed _ _ rfl⟩
  | @moved c ms from_now after member armed same =>
    have grown : after.1.constructed = s.manager.constructed := by
      rw [same, announce_constructed]
      rfl
    refine ⟨by change t < after.1.constructed; omega, ?_⟩
    rw [same, announce_heap]
    exact rekeyed _ _ rfl
  | asked => exact ⟨old, rfl⟩
  | expired after expiry =>
    refine ⟨by rw [expiry.constructed]; exact old, ?_⟩
    rw [expiry.heap]
    split
    · unfold expiredTimer
      split <;> rfl
    · rfl

theorem added_mem_notify {history : List TimerEvent} :
    .added t cb recurring ∈ notify at_front history ↔ .added t cb recurring ∈ history := by
  cases at_front <;> simp [notify]

/-- What is added is the next timer, and it starts in the set. -/
theorem Effect.birth (ready : Represents s.manager []) (effect : Effect s now call u)
    (added : .added t cb recurring ∈ u.history) :
    .added t cb recurring ∈ s.history ∨
      t = s.manager.constructed ∧ t < u.manager.constructed ∧ t ∈ u.manager.timers ∧
        (u.manager.heap t).recurring = recurring := by
  cases effect with
  | @added address ms cb' recurring' after unoccupied same =>
    rw [added_mem_notify] at added
    rcases List.mem_cons.mp added with here | old
    · cases here
      refine .inr ⟨rfl, ?_, (added_members ready unoccupied same _).mpr (.inl rfl), ?_⟩
      · change _ < after.1.constructed
        rw [same, announce_constructed]
        exact Nat.lt_succ_self _
      · simp [added_heap same, Timer.armed]
    · exact .inl old
  | quiet => exact .inl added
  | cancelled member armed => exact .inl ((List.mem_cons.mp added).resolve_left (by simp))
  | refreshed member armed => exact .inl added
  | moved member armed same => exact .inl (added_mem_notify.mp added)
  | asked => exact .inl ((List.mem_cons.mp added).resolve_left (by simp))
  | expired after expiry => exact .inl ((List.mem_cons.mp added).resolve_left (by simp))

/-- What the history says of every timer, as the set and the heap bear it out. -/
structure Accounted (s : TimerSession) : Prop where
  represents : Represents s.manager []
  known : ∀ t cb recurring, .added t cb recurring ∈ s.history →
    t < s.manager.constructed ∧ (s.manager.heap t).recurring = recurring
  unborn : ∀ t, s.manager.constructed ≤ t →
    handedCount t s.history = 0 ∧ cancelCount t s.history = 0
  oneShot : ∀ t cb, .added t cb false ∈ s.history →
    handedCount t s.history + cancelCount t s.history = if t ∈ s.manager.timers then 0 else 1
  recurring : ∀ t cb, .added t cb true ∈ s.history →
    cancelCount t s.history = if t ∈ s.manager.timers then 0 else 1

theorem accounted_initial (start : UInt64) : Accounted (initial start) := by
  refine ⟨initial_represents start, ?_, ?_, ?_, ?_⟩ <;> simp [initial, handedCount, cancelCount]

theorem accounted_step (ready : Accounted s) (stepped : step s (now, call) = some u) :
    Accounted u := by
  have effect := step_effect ready.represents stepped
  have born : ∀ t cb recurring, .added t cb recurring ∈ u.history →
      .added t cb recurring ∈ s.history ∧ t < s.manager.constructed ∨
      t = s.manager.constructed ∧ t < u.manager.constructed ∧ t ∈ u.manager.timers ∧
        (u.manager.heap t).recurring = recurring := by
    intro t cb recurring added
    refine (effect.birth ready.represents added).imp_left fun old => ⟨old, ?_⟩
    exact (ready.known t cb recurring old).1
  have fresh : ∀ t, t = s.manager.constructed →
      handedCount t u.history = 0 ∧ cancelCount t u.history = 0 := by
    intro t same
    have unborn := ready.unborn t (Nat.le_of_eq same.symm)
    have quiet := effect.unborn ready.represents (Nat.le_of_eq same.symm)
    exact ⟨quiet.1.trans unborn.1, quiet.2.trans unborn.2⟩
  refine ⟨effect.represents ready.represents, ?_, ?_, ?_, ?_⟩
  · intro t cb recurring added
    rcases born t cb recurring added with ⟨old, existing⟩ | ⟨_, known, _, kind⟩
    · have kept := effect.kind existing
      exact ⟨kept.1, kept.2.trans (ready.known t cb recurring old).2⟩
    · exact ⟨known, kind⟩
  · intro t unborn
    have before : s.manager.constructed ≤ t :=
      Nat.not_lt.mp fun existing => Nat.not_lt.mpr unborn (effect.kind existing).1
    have quiet := effect.unborn ready.represents before
    have zero := ready.unborn t before
    exact ⟨quiet.1.trans zero.1, quiet.2.trans zero.2⟩
  · intro t cb added
    rcases born t cb false added with ⟨old, existing⟩ | ⟨same, _, member, _⟩
    · have before := ready.oneShot t cb old
      have once := (ready.known t cb false old).2
      cases effect.life ready.represents existing with
      | untouched members handed cancels => rw [handed, cancels, before, if_congr members rfl rfl]
      | cancelled was after handed cancels =>
        rw [if_pos was] at before
        rw [if_neg after, handed, cancels]
        omega
      | fired was kind after handed cancels =>
        rw [if_pos was] at before
        rw [if_neg after, handed, cancels]
        omega
      | rearmed was kind => exact absurd (once.symm.trans kind) (by decide)
    · rw [if_pos member, (fresh t same).1, (fresh t same).2]
  · intro t cb added
    rcases born t cb true added with ⟨old, existing⟩ | ⟨same, _, member, _⟩
    · have before := ready.recurring t cb old
      have kept := (ready.known t cb true old).2
      cases effect.life ready.represents existing with
      | untouched members handed cancels => rw [cancels, before, if_congr members rfl rfl]
      | cancelled was after handed cancels =>
        rw [if_pos was] at before
        rw [if_neg after, cancels, before]
      | fired was kind => exact absurd (kept.symm.trans kind) (by decide)
      | rearmed was kind after handed cancels => rw [if_pos after, cancels, before, if_pos was]
    · rw [if_pos member, (fresh t same).2]

theorem accounted_run (reached : Runs.Reachable step (initial start) s) : Accounted s :=
  reached.invariant Accounted (accounted_initial start) fun _ _ _ ready _ stepped =>
    accounted_step ready stepped

/-- Out of the set a constructed timer stays out, whatever is called, and no
later call hands it out or cancels it. -/
theorem stays_out (ready : Accounted s) (existing : t < s.manager.constructed)
    (out : t ∉ s.manager.timers) (reached : Runs.Reachable step s u) :
    t ∉ u.manager.timers ∧ handedCount t u.history = handedCount t s.history ∧
      cancelCount t u.history = cancelCount t s.history := by
  have kept := reached.invariant (fun v => (Accounted v ∧ t < v.manager.constructed) ∧
    t ∉ v.manager.timers ∧ handedCount t v.history = handedCount t s.history ∧
    cancelCount t v.history = cancelCount t s.history) ⟨⟨ready, existing⟩, out, rfl, rfl⟩ ?_
  · exact kept.2
  rintro v ⟨now, call⟩ w ⟨⟨readyV, existingV⟩, outV, handedV, cancelsV⟩ _ stepped
  have effect := step_effect readyV.represents stepped
  refine ⟨⟨accounted_step readyV stepped, (effect.kind existingV).1⟩, ?_⟩
  cases effect.life readyV.represents existingV with
  | untouched members handed cancels =>
    exact ⟨fun inside => outV (members.mp inside), handed.trans handedV, cancels.trans cancelsV⟩
  | cancelled was => exact absurd was outV
  | fired was => exact absurd was outV
  | rearmed was => exact absurd was outV

theorem handedOut_mem_notify {history : List TimerEvent} :
    .handedOut cbs ∈ notify at_front history ↔ .handedOut cbs ∈ history := by
  cases at_front <;> simp [notify]

/-- Each new report of `listExpiredCb` names a timer at most once. -/
theorem Effect.handed_once (effect : Effect s now call u) (handed : .handedOut cbs ∈ u.history) :
    .handedOut cbs ∈ s.history ∨ ∀ t, (cbs.map Prod.fst).count t ≤ 1 := by
  cases effect with
  | added unoccupied same =>
    exact .inl ((List.mem_cons.mp (handedOut_mem_notify.mp handed)).resolve_left (by simp))
  | quiet => exact .inl handed
  | cancelled member armed => exact .inl ((List.mem_cons.mp handed).resolve_left (by simp))
  | refreshed member armed => exact .inl handed
  | moved member armed same => exact .inl (handedOut_mem_notify.mp handed)
  | asked => exact .inl ((List.mem_cons.mp handed).resolve_left (by simp))
  | expired after expiry =>
    rcases List.mem_cons.mp handed with same | old
    · cases same
      refine .inr fun t => ?_
      have hands := Expiry.hands expiry t
      rw [TimerEvent.hands] at hands
      rw [hands]
      split <;> omega
    · exact .inl old

/-- No call of `listExpiredCb` hands a callback out twice. -/
theorem handed_once_per_call (reached : Runs.Reachable step (initial start) s)
    (call : .handedOut cbs ∈ s.history) (t : TimerId) : (cbs.map Prod.fst).count t ≤ 1 := by
  have every := reached.invariant (fun v => Accounted v ∧ ∀ cbs, .handedOut cbs ∈ v.history →
    ∀ t, (cbs.map Prod.fst).count t ≤ 1) ⟨accounted_initial start, by simp [initial]⟩ ?_
  · exact every.2 cbs call t
  rintro v ⟨now, called⟩ w ⟨ready, once⟩ _ stepped
  refine ⟨accounted_step ready stepped, fun cbs member => ?_⟩
  exact ((step_effect ready.represents stepped).handed_once member).elim (once cbs) id

/-- The account of one timer that was added with a callback. -/
structure FiresOrIsCancelled (s : TimerSession) (t : TimerId) (recurring : Bool) : Prop where
  at_most_once : recurring = false →
    handedCount t s.history + cancelCount t s.history ≤ 1
  settled_iff_out : recurring = false →
    (handedCount t s.history + cancelCount t s.history = 1 ↔ t ∉ s.manager.timers)
  stays_until_cancelled : recurring = true →
    (t ∈ s.manager.timers ↔ cancelCount t s.history = 0)
  once_per_call : ∀ cbs, .handedOut cbs ∈ s.history → (cbs.map Prod.fst).count t ≤ 1
  never_back : t ∉ s.manager.timers → ∀ u, Runs.Reachable step s u →
    t ∉ u.manager.timers ∧ handedCount t u.history = handedCount t s.history ∧
      cancelCount t u.history = cancelCount t s.history

/-- Over every session, a one-shot timer is handed out or cancelled once, and
out of the set exactly then; a recurring one leaves the set only by a cancel;
and no timer that left comes back or is handed out again. -/
theorem every_timer_fires_or_is_cancelled (start : UInt64)
    (reached : Runs.Reachable step (initial start) s)
    (added : .added t (some cb) recurring ∈ s.history) : FiresOrIsCancelled s t recurring := by
  have ready := accounted_run reached
  have existing := (ready.known t (some cb) recurring added).1
  refine ⟨?_, ?_, ?_, fun cbs call => handed_once_per_call reached call t,
    fun out u later => stays_out ready existing out later⟩
  · rintro rfl
    rw [ready.oneShot t _ added]
    split <;> omega
  · rintro rfl
    rw [ready.oneShot t _ added]
    split <;> simp [*]
  · rintro rfl
    rw [ready.recurring t _ added]
    split <;> simp [*]

/-- A one-shot timer that fires, and a recurring one that fires twice in two
calls before it is cancelled. -/
def firedThenCancelled : List (UInt64 × TimerCall) :=
  [(5, .addTimer 100 (some (.function 1)) false 40),
    (5, .addConditionTimer 30 (some 2) 9 true 8), (140, .listExpiredCb 16),
    (170, .listExpiredCb 16), (180, .cancel 0), (180, .cancel 1), (180, .reset 1 70 true),
    (900, .listExpiredCb 16)]

theorem fired_then_cancelled_accounts :
    ∃ s, Runs.run step (initial 5) firedThenCancelled = some s ∧
      (handedCount 0 s.history = 1 ∧ cancelCount 0 s.history = 0 ∧
        FiresOrIsCancelled s 0 false) ∧
      handedCount 1 s.history = 2 ∧ cancelCount 1 s.history = 1 ∧ FiresOrIsCancelled s 1 true :=
  ⟨_, rfl,
    ⟨by decide, by decide,
      every_timer_fires_or_is_cancelled 5 (Runs.reachable_of_run firedThenCancelled rfl)
        (by decide : TimerEvent.added 0 (some (.function 1)) false ∈ _)⟩,
    by decide, by decide,
    every_timer_fires_or_is_cancelled 5 (Runs.reachable_of_run firedThenCancelled rfl)
      (by decide : TimerEvent.added 1 (some (.onTimer 9 (some 2))) true ∈ _)⟩

end TimerSession
end Synergy
