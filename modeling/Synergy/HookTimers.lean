import Mathlib.Data.Fintype.EquivFin
import Synergy.Hook
import Synergy.TimerTable

/-! The condition timers of one hooked call. The call shares the timer manager
with every other user; the callback of an expired timer runs later, if at all,
and may find the call in another round or gone. -/
namespace Synergy
open TimerManager

/-- A timer that the call armed, at a clock reading, and when it is due. -/
structure Arming where
  timer : TimerId
  reading : UInt64
  due : UInt64
  deriving DecidableEq, Repr

/-- The timer manager, the callbacks handed out and not run yet, and
`timer_info::cancelled`; as history, what the call armed and which of its
callbacks ran during it. -/
structure CallTimers where
  session : TimerSession
  queue : List (TimerId × Option Callback) := []
  cancelled : ℕ := 0
  armed : List Arming := []
  ran : List TimerId := []

/-- A callback bound to this condition. -/
def boundTo (tinfo : ℕ) : Option Callback → Bool
  | some (.onTimer weakCond _) => weakCond == tinfo
  | _ => false

namespace CallTimers

def initial (start : UInt64) : CallTimers := { session := .initial start }

def own (s : CallTimers) : List TimerId := s.armed.map Arming.timer

/-- The callbacks that a call hands out. -/
def handed (s : TimerSession) (now : UInt64) : TimerCall → List (TimerId × Option Callback)
  | .listExpiredCb address => (s.manager.listExpiredCb now address).2
  | _ => []

/-- Nobody else has the condition of the call, nor a handle of its timers. -/
def Foreign (tinfo : ℕ) (s : CallTimers) : TimerCall → Prop
  | .addTimer _ cb _ _ => boundTo tinfo cb = false
  | .addConditionTimer _ _ weak_cond _ _ => weak_cond ≠ tinfo
  | .cancel t | .refresh t | .reset t _ _ => t ∉ s.own
  | .getNextTimer | .hasTimer | .listExpiredCb _ => True

instance (tinfo : ℕ) (s : CallTimers) : (call : TimerCall) → Decidable (Foreign tinfo s call)
  | .addTimer _ cb _ _ => inferInstanceAs (Decidable (boundTo tinfo cb = false))
  | .addConditionTimer _ _ weak_cond _ _ => inferInstanceAs (Decidable (weak_cond ≠ tinfo))
  | .cancel t | .refresh t | .reset t _ _ => inferInstanceAs (Decidable (t ∉ s.own))
  | .getNextTimer | .hasTimer | .listExpiredCb _ => .isTrue trivial

/-- A call of the timer manager by anyone else. -/
def others (tinfo : ℕ) (s : CallTimers) (now : UInt64) (call : TimerCall) : Option CallTimers :=
  if Foreign tinfo s call then
    (s.session.step (now, call)).map fun session =>
      { s with session, queue := s.queue ++ handed s.session now call }
  else none

/-- `iom->addConditionTimer(timeout, .., winfo)`, with the timer returned. -/
def arm (tinfo : ℕ) (s : CallTimers) (timeout now : UInt64) (address : ℕ) :
    Option (CallTimers × TimerId) :=
  let timer := s.session.manager.constructed
  (s.session.step (now, .addConditionTimer timeout (some 0) tinfo false address)).map fun session =>
    ({ s with session, armed := ⟨timer, now, (session.manager.heap timer).next⟩ :: s.armed }, timer)

/-- `if(timer) timer->cancel()`. -/
def disarm (s : CallTimers) : Option TimerId → Option CallTimers
  | none => some s
  | some timer =>
    (s.session.step (s.session.clock, .cancel timer)).map fun session => { s with session }

/-- A callback that was handed out runs. The weak condition is locked only while
the call is alive; the flag says that the function goes on to `cancelEvent`. -/
def callback (tinfo : ℕ) (alive : Bool) (s : CallTimers) (k : ℕ) : Option (CallTimers × Bool) :=
  s.queue[k]?.map fun entry =>
    let s := { s with queue := s.queue.eraseIdx k }
    if boundTo tinfo entry.2 && alive then
      let s := { s with ran := entry.1 :: s.ran }
      if s.cancelled != 0 then (s, false) else ({ s with cancelled := ETIMEDOUT }, true)
    else (s, false)

/-- What holds of the call's timers while it has at most this one in hand. -/
structure Kept (tinfo : ℕ) (inHand : Option TimerId) (s : CallTimers) : Prop where
  ready : Represents s.session.manager []
  held : ∀ t, inHand = some t → t ∈ s.own
  known : ∀ t ∈ s.own, t < s.session.manager.constructed
  once : ∀ t ∈ s.own, (s.session.manager.heap t).recurring = false
  pending : ∀ t ∈ s.own, t ∈ s.session.manager.timers →
    inHand = some t ∧ (s.session.manager.heap t).cb.isSome
  bound : ∀ t ∈ s.session.manager.timers, boundTo tinfo (s.session.manager.heap t).cb → t ∈ s.own
  queued : ∀ entry ∈ s.queue, boundTo tinfo entry.2 → entry.1 ∈ s.own
  ran : ∀ t ∈ s.ran, t ∈ s.own
  flag : s.cancelled = if s.ran = [] then 0 else ETIMEDOUT

theorem kept_initial (tinfo : ℕ) (start : UInt64) : Kept tinfo none (initial start) where
  ready := initial_represents start
  held := nofun
  known := nofun
  once := nofun
  pending := nofun
  bound := nofun
  queued := nofun
  ran := nofun
  flag := rfl

variable {tinfo : ℕ} {inHand : Option TimerId} {s u : CallTimers}

/-- What a foreign call leaves alone in the table. -/
structure Undisturbed (tinfo : ℕ) (mine : List TimerId) (before after : TimerTable) : Prop where
  constructed : before.constructed ≤ after.constructed
  once : ∀ t ∈ mine, (after.timer t).recurring = false
  pending : ∀ t ∈ mine, t ∈ after.pending → t ∈ before.pending ∧ after.timer t = before.timer t
  bound : ∀ t ∈ after.pending, boundTo tinfo (after.timer t).cb →
    t ∈ before.pending ∧ boundTo tinfo (before.timer t).cb

variable {mine : List TimerId} {table : TimerTable}

theorem undisturbed_refl (once : ∀ t ∈ mine, (table.timer t).recurring = false) :
    Undisturbed tinfo mine table table :=
  ⟨Nat.le_refl _, once, fun _ _ pending => ⟨pending, rfl⟩, fun _ pending bound => ⟨pending, bound⟩⟩

private theorem undisturbed_add (once : ∀ t ∈ mine, (table.timer t).recurring = false)
    (known : ∀ t ∈ mine, t < table.constructed) (value : Timer)
    (foreign : boundTo tinfo value.cb = false) :
    Undisturbed tinfo mine table (table.add value) := by
  have older : ∀ t ∈ mine, t ≠ table.constructed := fun t owned => Nat.ne_of_lt (known t owned)
  refine ⟨Nat.le_succ _, fun t owned => ?_, fun t owned pending => ?_, fun t pending bound => ?_⟩
  · simp only [TimerTable.add, Function.update_of_ne (older t owned)]
    exact once t owned
  · have before := (Set.mem_insert_iff.mp pending).resolve_left (older t owned)
    exact ⟨before, Function.update_of_ne (older t owned) _ _⟩
  · by_cases new : t = table.constructed
    · simp [TimerTable.add, new, foreign] at bound
    · simp only [TimerTable.add, Function.update_of_ne new] at bound
      exact ⟨(Set.mem_insert_iff.mp pending).resolve_left new, bound⟩

/-- One foreign timer gets a new value, and keeps its callback or leaves. -/
private theorem undisturbed_write {pending : Set TimerId}
    (once : ∀ t ∈ mine, (table.timer t).recurring = false) (apart : c ∉ mine)
    (fewer : pending ⊆ table.pending) (value : Timer)
    (same : c ∈ pending → value.cb = (table.timer c).cb) :
    Undisturbed tinfo mine table { table.write c value with pending } := by
  have elsewhere : ∀ t ∈ mine, t ≠ c := fun t owned here => apart (here ▸ owned)
  refine ⟨Nat.le_refl _, fun t owned => ?_, fun t owned left => ?_, fun t left bound => ?_⟩
  · simp only [TimerTable.write, Function.update_of_ne (elsewhere t owned)]
    exact once t owned
  · exact ⟨fewer left, Function.update_of_ne (elsewhere t owned) _ _⟩
  · refine ⟨fewer left, ?_⟩
    by_cases here : t = c
    · subst t
      simpa [TimerTable.write, same left] using bound
    · simpa only [TimerTable.write, Function.update_of_ne here] using bound

private theorem undisturbed_expire (once : ∀ t ∈ mine, (table.timer t).recurring = false)
    (now : UInt64) :
    Undisturbed tinfo mine table (table.expire now) := by
  have cb : ∀ t ∈ (table.expire now).pending,
      ((table.expire now).timer t).cb = (table.timer t).cb := by
    rintro t ⟨-, again⟩
    by_cases due : table.Due now t
    · simp [TimerTable.expire, due, expiredTimer, again due]
    · simp [TimerTable.expire, due]
  refine ⟨Nat.le_refl _, fun t owned => ?_, fun t owned left => ⟨left.1, ?_⟩,
    fun t left bound => ⟨left.1, cb t left ▸ bound⟩⟩
  · by_cases due : table.Due now t
    · simp [TimerTable.expire, due, expiredTimer, once t owned]
    · simp [TimerTable.expire, due, once t owned]
  · have missed : ¬ table.Due now t := by
      intro due
      have again := left.2 due
      rw [once t owned] at again
      cases again
    exact if_neg missed

theorem undisturbed_call (once : ∀ t ∈ s.own, (table.timer t).recurring = false)
    (known : ∀ t ∈ s.own, t < table.constructed) {call : TimerCall}
    (foreign : Foreign tinfo s call) (now : UInt64) :
    Undisturbed tinfo s.own table (table.call now call) := by
  cases call with
  | addTimer ms cb recurring address => exact undisturbed_add once known _ foreign
  | addConditionTimer ms cb weak_cond recurring address =>
    exact undisturbed_add once known _ (beq_eq_false_iff_ne.mpr foreign)
  | cancel c =>
    by_cases armed : table.Armed c
    · rw [TimerTable.call, if_pos armed]
      exact undisturbed_write once foreign (fun _ left => left.1) _ (fun left => absurd rfl left.2)
    · rw [TimerTable.call, if_neg armed]
      exact undisturbed_refl once
  | refresh c =>
    by_cases armed : table.Armed c
    · rw [TimerTable.call, if_pos armed]
      exact undisturbed_write once foreign subset_rfl _ (fun _ => rfl)
    · rw [TimerTable.call, if_neg armed]
      exact undisturbed_refl once
  | reset c ms from_now =>
    by_cases armed : table.Armed c
    · rw [TimerTable.call, if_pos armed]
      exact undisturbed_write once foreign subset_rfl _ (fun _ => rfl)
    · rw [TimerTable.call, if_neg armed]
      exact undisturbed_refl once
  | getNextTimer => exact undisturbed_refl once
  | hasTimer => exact undisturbed_refl once
  | listExpiredCb address => exact undisturbed_expire once now

/-- What is handed out was in the set, with its callback. -/
theorem handed_origin (ready : Represents s.session.manager [])
    (out : entry ∈ handed s.session now call) :
    entry.1 ∈ s.session.manager.timers ∧ entry.2 = (s.session.manager.heap entry.1).cb := by
  cases call with
  | listExpiredCb address =>
    obtain ⟨-, expired, expiry⟩ := listExpiredLocked_expiry ready List.nodup_nil now address
    simp only [handed, listExpiredCb_eq, expiry.handed] at out
    obtain ⟨t, found, rfl⟩ := List.mem_map.mp out
    exact ⟨expiry.pending t found, rfl⟩
  | addTimer | addConditionTimer | cancel | refresh | reset | getNextTimer | hasTimer =>
    cases out

theorem Kept.others (kept : Kept tinfo inHand s) (called : others tinfo s now call = some u) :
    Kept tinfo inHand u ∧ u.armed = s.armed ∧ u.ran = s.ran := by
  unfold CallTimers.others at called
  by_cases foreign : Foreign tinfo s call
  · rw [if_pos foreign] at called
    obtain ⟨session, stepped, rfl⟩ := Option.map_eq_some_iff.mp called
    have after := TimerSession.step_table kept.ready stepped
    have once : ∀ t ∈ s.own, (s.session.manager.table.timer t).recurring = false := kept.once
    have undisturbed := undisturbed_call once kept.known foreign now
    rw [← after] at undisturbed
    refine ⟨?_, rfl, rfl⟩
    exact {
      ready := (TimerSession.step_effect kept.ready stepped).represents kept.ready
      held := kept.held
      known := fun t mine => Nat.lt_of_lt_of_le (kept.known t mine) undisturbed.constructed
      once := undisturbed.once
      pending := fun t mine left => by
        obtain ⟨before, same⟩ := undisturbed.pending t mine left
        obtain ⟨hand, armed⟩ := kept.pending t mine before
        exact ⟨hand, by
          change (session.manager.table.timer t).cb.isSome
          rw [same]
          exact armed⟩
      bound := fun t left bound => by
        obtain ⟨before, same⟩ := undisturbed.bound t left bound
        exact kept.bound t before same
      queued := fun entry waiting bound => by
        rcases List.mem_append.mp waiting with old | new
        · exact kept.queued entry old bound
        · obtain ⟨member, cb⟩ := handed_origin kept.ready new
          exact kept.bound entry.1 member (cb ▸ bound)
      ran := kept.ran
      flag := kept.flag }
  · rw [if_neg foreign] at called
    cases called

/-- The new timer is the only one in hand, and is due the timeout after the
reading. -/
theorem Kept.arm (kept : Kept tinfo none s)
    (armed : arm tinfo s timeout now address = some (u, timer)) :
    Kept tinfo (some timer) u ∧ u.armed = ⟨timer, now, now + timeout⟩ :: s.armed ∧
      u.ran = s.ran := by
  obtain ⟨session, stepped, same⟩ := Option.map_eq_some_iff.mp armed
  cases same
  have after := TimerSession.step_table kept.ready stepped
  set timer := s.session.manager.constructed
  have value : session.manager.heap timer =
      Timer.armed now timeout (some (.onTimer tinfo (some 0))) false address := by
    change session.manager.table.timer timer = _
    rw [after]
    exact Function.update_self _ _ _
  have older : ∀ t ∈ s.own, t ≠ timer := fun t mine => Nat.ne_of_lt (kept.known t mine)
  have others : ∀ t, t ≠ timer → session.manager.heap t = s.session.manager.heap t := by
    intro t different
    change session.manager.table.timer t = _
    rw [after]
    exact Function.update_of_ne different _ _
  have members : ∀ t, t ∈ session.manager.timers ↔ t = timer ∨ t ∈ s.session.manager.timers := by
    intro t
    change t ∈ session.manager.table.pending ↔ _
    rw [after]
    exact Iff.rfl
  have grown : session.manager.constructed = timer + 1 := by
    change session.manager.table.constructed = _
    rw [after]
    rfl
  refine ⟨?_, by rw [value]; rfl, rfl⟩
  exact {
    ready := (TimerSession.step_effect kept.ready stepped).represents kept.ready
    held := fun t here => by
      cases here
      exact List.mem_cons_self
    known := List.forall_mem_cons.mpr
      ⟨by rw [grown]; exact Nat.lt_succ_self _,
        fun t mine => by rw [grown]; exact Nat.lt_succ_of_lt (kept.known t mine)⟩
    once := List.forall_mem_cons.mpr
      ⟨by rw [value]; rfl, fun t mine => by rw [others t (older t mine)]; exact kept.once t mine⟩
    pending := List.forall_mem_cons.mpr
      ⟨fun _ => ⟨rfl, by rw [value]; rfl⟩, fun t mine left => by
        have before := ((members t).mp left).resolve_left (older t mine)
        cases (kept.pending t mine before).1⟩
    bound := fun t left bound => by
      by_cases new : t = timer
      · exact new ▸ List.mem_cons_self
      · rw [others t new] at bound
        exact List.mem_cons_of_mem _ (kept.bound t (((members t).mp left).resolve_left new) bound)
    queued := fun entry waiting bound => List.mem_cons_of_mem _ (kept.queued entry waiting bound)
    ran := fun t run => List.mem_cons_of_mem _ (kept.ran t run)
    flag := kept.flag }

/-- What `cancel` leaves in the set, if the timer has its callback while it is
in the set. -/
private theorem cancelled_table {timer : TimerId} (table : TimerTable) (now : UInt64)
    (armed : timer ∈ table.pending → table.Armed timer) :
    (∀ t ∈ (table.call now (.cancel timer)).pending, t ≠ timer ∧ t ∈ table.pending ∧
      (table.call now (.cancel timer)).timer t = table.timer t) ∧
    ∀ t, ((table.call now (.cancel timer)).timer t).recurring = (table.timer t).recurring := by
  rw [TimerTable.call]
  by_cases live : table.Armed timer
  · rw [if_pos live]
    refine ⟨fun t left => ⟨left.2, left.1, Function.update_of_ne left.2 _ _⟩, fun t => ?_⟩
    by_cases here : t = timer
    · rw [here]
      simp [TimerTable.write]
    · simp [TimerTable.write, Function.update_of_ne here]
  · rw [if_neg live]
    refine ⟨fun t left => ⟨?_, left, rfl⟩, fun _ => rfl⟩
    rintro rfl
    exact live (armed left)

/-- After `cancel` the call has no timer in hand. -/
theorem Kept.disarm (kept : Kept tinfo inHand s) (cancelled : disarm s inHand = some u) :
    Kept tinfo none u ∧ u.armed = s.armed ∧ u.ran = s.ran := by
  cases inHand with
  | none =>
    cases cancelled
    exact ⟨kept, rfl, rfl⟩
  | some timer =>
    obtain ⟨session, stepped, rfl⟩ := Option.map_eq_some_iff.mp cancelled
    have after := TimerSession.step_table kept.ready stepped
    have mine := kept.held timer rfl
    obtain ⟨left, kind⟩ := cancelled_table s.session.manager.table s.session.clock
      fun pending => (kept.pending timer mine pending).2
    rw [← after] at left kind
    have constructed : session.manager.constructed = s.session.manager.constructed := by
      change session.manager.table.constructed = _
      rw [after, TimerTable.call]
      split <;> rfl
    refine ⟨?_, rfl, rfl⟩
    exact {
      ready := (TimerSession.step_effect kept.ready stepped).represents kept.ready
      held := fun t none_held => by cases none_held
      known := fun t mine => constructed ▸ kept.known t mine
      once := fun t mine => (kind t).trans (kept.once t mine)
      pending := fun t mine member => by
        obtain ⟨other, before, -⟩ := left t member
        cases (kept.pending t mine before).1
        exact absurd rfl other
      bound := fun t member bound => by
        obtain ⟨-, before, same⟩ := left t member
        change boundTo tinfo (session.manager.table.timer t).cb = true at bound
        rw [same] at bound
        exact kept.bound t before bound
      queued := kept.queued
      ran := kept.ran
      flag := kept.flag }

/-- `cancel` never erases at `end()`. -/
theorem Kept.disarm_defined (kept : Kept tinfo inHand s) :
    ∃ u, CallTimers.disarm s inHand = some u := by
  cases inHand with
  | none => exact ⟨s, rfl⟩
  | some timer =>
    obtain ⟨session, stepped⟩ := (TimerSession.enabled_iff kept.ready s.session.clock
      (.cancel timer)).mpr (kept.known timer (kept.held timer rfl))
    exact ⟨_, Option.map_eq_some_iff.mpr ⟨session, stepped, rfl⟩⟩

/-- There is always room for one more timer. -/
theorem exists_unoccupied (m : TimerManager) : ∃ address, TimerSession.Unoccupied m address := by
  obtain ⟨address, free⟩ := Infinite.exists_notMem_finset
    (m.timers.map fun t => (m.heap t).address).toFinset
  refine ⟨address, fun t member same => free ?_⟩
  exact List.mem_toFinset.mpr (List.mem_map.mpr ⟨t, member, same⟩)

theorem Kept.arm_defined (kept : Kept tinfo inHand s) (timeout now : UInt64) :
    ∃ address armed, CallTimers.arm tinfo s timeout now address = some armed := by
  obtain ⟨address, free⟩ := exists_unoccupied s.session.manager
  obtain ⟨session, stepped⟩ := (TimerSession.enabled_iff kept.ready now
    (.addConditionTimer timeout (some 0) tinfo false address)).mpr free
  exact ⟨address, _, Option.map_eq_some_iff.mpr ⟨session, stepped, rfl⟩⟩

/-- What a callback can do. -/
theorem callback_cases (run : callback tinfo alive s k = some (u, cancels)) :
    ∃ entry ∈ s.queue,
      u = { s with queue := s.queue.eraseIdx k } ∧ cancels = false ∨
      boundTo tinfo entry.2 = true ∧ alive = true ∧ s.cancelled ≠ 0 ∧ cancels = false ∧
        u = { s with queue := s.queue.eraseIdx k, ran := entry.1 :: s.ran } ∨
      boundTo tinfo entry.2 = true ∧ alive = true ∧ s.cancelled = 0 ∧ cancels = true ∧
        u = { s with
          queue := s.queue.eraseIdx k, ran := entry.1 :: s.ran, cancelled := ETIMEDOUT } := by
  obtain ⟨entry, found, same⟩ := Option.map_eq_some_iff.mp run
  refine ⟨entry, List.mem_of_getElem? found, ?_⟩
  by_cases reaches : (boundTo tinfo entry.2 && alive) = true
  · obtain ⟨bound, living⟩ := Bool.and_eq_true_iff.mp reaches
    by_cases early : s.cancelled = 0
    · simp [reaches, early] at same
      exact .inr (.inr ⟨bound, living, early, same.2, same.1.symm⟩)
    · simp [reaches, early] at same
      exact .inr (.inl ⟨bound, living, early, same.2, same.1.symm⟩)
  · simp [reaches] at same
    exact .inl ⟨same.1.symm, same.2⟩

/-- A callback that ran during the call is remembered. -/
theorem Kept.callback (kept : Kept tinfo inHand s)
    (run : callback tinfo alive s k = some (u, cancels)) :
    Kept tinfo inHand u ∧ u.armed = s.armed ∧ s.ran ⊆ u.ran := by
  obtain ⟨entry, waiting, cases⟩ := callback_cases run
  have queued : ∀ e ∈ s.queue.eraseIdx k, boundTo tinfo e.2 → e.1 ∈ s.own :=
    fun e left => kept.queued e (List.mem_of_mem_eraseIdx left)
  have ran (bound : boundTo tinfo entry.2 = true) : ∀ t ∈ entry.1 :: s.ran, t ∈ s.own :=
    List.forall_mem_cons.mpr ⟨kept.queued entry waiting bound, kept.ran⟩
  rcases cases with ⟨rfl, -⟩ | ⟨bound, -, late, -, rfl⟩ | ⟨bound, -, -, -, rfl⟩
  · exact ⟨{ kept with queued }, rfl, List.Subset.refl _⟩
  · have marked : s.cancelled = ETIMEDOUT := by
      have flag := kept.flag
      split at flag
      · exact absurd flag late
      · exact flag
    exact ⟨{ kept with queued, ran := ran bound, flag := marked }, rfl,
      List.subset_cons_self _ _⟩
  · exact ⟨{ kept with queued, ran := ran bound, flag := rfl }, rfl,
      List.subset_cons_self _ _⟩

/-- The clock of the session is the reading of the latest call of the manager. -/
theorem Kept.others_clock (kept : Kept tinfo inHand s)
    (called : CallTimers.others tinfo s now call = some u) : u.session.clock = now := by
  unfold CallTimers.others at called
  split at called
  · obtain ⟨session, stepped, rfl⟩ := Option.map_eq_some_iff.mp called
    exact (TimerSession.step_effect kept.ready stepped).clock
  · cases called

theorem Kept.arm_clock (kept : Kept tinfo inHand s)
    (armed : CallTimers.arm tinfo s timeout now address = some (u, timer)) :
    u.session.clock = now := by
  obtain ⟨session, stepped, same⟩ := Option.map_eq_some_iff.mp armed
  cases same
  exact (TimerSession.step_effect kept.ready stepped).clock

theorem Kept.disarm_clock (kept : Kept tinfo inHand s)
    (cancelled : CallTimers.disarm s timer = some u) : u.session.clock = s.session.clock := by
  cases timer with
  | none =>
    cases cancelled
    rfl
  | some timer =>
    obtain ⟨session, stepped, rfl⟩ := Option.map_eq_some_iff.mp cancelled
    exact (TimerSession.step_effect kept.ready stepped).clock

theorem callback_session (run : callback tinfo alive s k = some (u, cancels)) :
    u.session = s.session := by
  obtain ⟨entry, -, ⟨rfl, -⟩ | ⟨-, -, -, -, rfl⟩ | ⟨-, -, -, -, rfl⟩⟩ := callback_cases run
  all_goals rfl

theorem Kept.none_pending (kept : Kept tinfo none s) :
    ∀ a ∈ s.armed, a.timer ∉ s.session.manager.timers := by
  intro a mine left
  cases (kept.pending a.timer (List.mem_map_of_mem mine) left).1

/-- The flag tells whether a callback of the call ran. -/
theorem Kept.cancelled_iff (kept : Kept tinfo inHand s) : s.cancelled ≠ 0 ↔ s.ran ≠ [] := by
  rw [kept.flag]
  by_cases empty : s.ran = []
  · simp [empty]
  · simp [empty, ETIMEDOUT]

theorem Kept.still_cancelled (kept : Kept tinfo inHand s) (later : Kept tinfo inHand' u)
    (more : s.ran ⊆ u.ran) (cancelled : s.cancelled ≠ 0) : u.cancelled ≠ 0 := by
  obtain ⟨t, run⟩ := List.exists_mem_of_ne_nil _ (kept.cancelled_iff.mp cancelled)
  exact later.cancelled_iff.mpr (List.ne_nil_of_mem (more run))

/-- A callback goes on to `cancelEvent` only after it set the flag. -/
theorem callback_cancels (run : callback tinfo alive s k = some (u, true)) : u.cancelled ≠ 0 := by
  obtain ⟨entry, -, ⟨-, other⟩ | ⟨-, -, -, other, -⟩ | ⟨-, -, -, -, rfl⟩⟩ := callback_cases run
  · cases other
  · cases other
  · exact (by decide : ETIMEDOUT ≠ 0)

/-- The flag is set by the callback of a timer of the call. -/
theorem Kept.timed_out (kept : Kept tinfo inHand s) (cancelled : s.cancelled ≠ 0) :
    s.cancelled = ETIMEDOUT ∧ ∃ a ∈ s.armed, a.timer ∈ s.ran := by
  have flag := kept.flag
  split at flag
  · exact absurd flag cancelled
  · rename_i filled
    obtain ⟨t, run⟩ := List.exists_mem_of_ne_nil _ filled
    obtain ⟨a, mine, rfl⟩ := List.mem_map.mp (kept.ran t run)
    exact ⟨flag, a, mine, run⟩

end CallTimers
end Synergy
