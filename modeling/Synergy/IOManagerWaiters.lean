import Mathlib.Algebra.BigOperators.Ring.Finset
import Synergy.IOManagerObject

/-! What becomes of the contexts that `addEvent` puts down. A context waits in
its fd until `triggerEvent` hands it to its scheduler or `delEvent` throws it
away; a ledger beside the registry says which of these happened to each. -/
namespace Synergy

/-- The scheduler will queue it: it names a callback or a fiber. -/
def Handover.Real (h : Handover) : Prop := (ScheduleTask.make h.task (-1)).isSet = true

instance (h : Handover) : Decidable h.Real := inferInstanceAs (Decidable (_ = true))

theorem real_handover_iff (ctx : EventContext) :
    ctx.handover.Real ↔ ctx.cb.isSome ∨ ctx.piber.isSome := by
  unfold Handover.Real EventContext.handover
  cases cb : ctx.cb <;> simp [ScheduleTask.make, ScheduleTask.isSet]

/-- `addEvent` always names something to run. -/
theorem real_context (cb : Option CallbackId) (scheduler : Option SchedulerId) (piber : PiberId) :
    (FdCall.context cb scheduler piber).handover.Real := by
  rw [real_handover_iff]
  unfold FdCall.context
  split
  · exact .inl ‹_›
  · exact .inr rfl

/-- The contexts of an fd, and what a section under way has yet to put down, as
they would be handed over. -/
def FdContext.waiters (c : FdContext) : List Handover := c.deposits.map EventContext.handover

namespace Micro

/-- What a statement of `delEvent` throws away. -/
def dropped (u : Undefined) (c : FdContext) : Micro → List Handover
  | .resetContext event => [(c.get (u.getEventContext event)).handover]
  | _ => []

/-- What the assignment of `addEvent` writes over. -/
def overwritten (u : Undefined) (c : FdContext) : Micro → List Handover
  | .assign event _ => [(c.get (u.getEventContext event)).handover]
  | _ => []

end Micro

/-- The registry, and as history the contexts that successful calls of
`addEvent` came with, those thrown away by `delEvent`, and those written over. -/
structure WaiterLedger where
  io : IOManager := {}
  accepted : List Handover := []
  dropped : List Handover := []
  overwritten : List Handover := []

namespace IOManager

/-- The statement that the thread executes next, and its fd. -/
def statement (m : IOManager) (thread : ThreadId) : Option (FdContext × Micro) :=
  match m.threads thread with
  | .calling fd | .handling fd _ =>
    match (m.table.slot fd).mutex with
    | some ⟨_, op :: _⟩ => some (m.table.slot fd, op)
    | _ => none
  | _ => none

/-- The contexts of a call that gets past `epoll_ctl` with this step. -/
def accepts (m n : IOManager) : Action → List Handover
  | .next thread _ =>
    match m.threads thread, n.threads thread with
    | .locating call _, .calling _ => call.deposits.map EventContext.handover
    | _, _ => []
  | _ => []

def drops (u : Undefined) (m : IOManager) : Action → List Handover
  | .next thread _ => ((m.statement thread).map fun at_ => at_.2.dropped u at_.1).getD []
  | _ => []

def overwrites (u : Undefined) (m : IOManager) : Action → List Handover
  | .next thread _ => ((m.statement thread).map fun at_ => at_.2.overwritten u at_.1).getD []
  | _ => []

end IOManager

namespace WaiterLedger

def step (u : Undefined) (s : WaiterLedger) (a : IOManager.Action) : Option WaiterLedger :=
  (s.io.step u a).map fun io =>
    { io
      accepted := s.io.accepts io a ++ s.accepted
      dropped := s.io.drops u a ++ s.dropped
      overwritten := s.io.overwrites u a ++ s.overwritten }

end WaiterLedger

namespace IOManager
open Tally

variable {u : Undefined} {m n : IOManager} {thread : ThreadId} {fd : ℕ} {h : Handover}

/-- The waiters of an fd of the table. -/
def waitersAt (m : IOManager) (fd : ℕ) : List Handover :=
  if fd < m.table.size then (m.table.slot fd).waiters else []

theorem count_blank (real : h.Real) : [({} : EventContext).handover].count h = 0 := by
  rw [List.count_eq_zero, List.mem_singleton]
  rintro rfl
  cases real

/-- How often a waiter stands in the two contexts of an fd. -/
def standing (h : Handover) (c : FdContext) : ℕ :=
  [(c.get .read).handover].count h + [(c.get .write).handover].count h

theorem count_waiters (c : FdContext) (h : Handover) :
    c.waiters.count h = standing h c + (match c.mutex with
      | none => 0
      | some held => ((held.rest.flatMap Micro.deposits).map EventContext.handover).count h) := by
  unfold FdContext.waiters FdContext.deposits standing
  cases c.mutex <;> simp [List.count_cons, FdContext.get] <;> omega

/-- Another context in a slot: what stood there is gone. -/
theorem standing_set (c : FdContext) (slot : Slot) (ctx : EventContext) :
    standing h (c.set slot ctx) + [(c.get slot).handover].count h =
      standing h c + [ctx.handover].count h := by
  cases slot <;> simp only [standing, FdContext.set, FdContext.get] <;> omega

theorem standing_congr {c d : FdContext} (same : ∀ slot, c.get slot = d.get slot) :
    standing h c = standing h d := by
  simp only [standing, same]

/-- `triggerEvent` empties the context of its event. -/
theorem trigger_get (lawful : u.Lawful) (c : FdContext) (event : Event) (slot : Slot) :
    (u.triggerEvent c event).1.get slot = (c.set (u.getEventContext event) {}).get slot := by
  obtain ⟨other, rfl⟩ := slot_cases lawful slot
  rw [get_set]
  by_cases same : other = event
  · rw [same, if_pos rfl]
    exact lawful.trigger_empties c event
  · have apart : u.getEventContext other ≠ u.getEventContext event := by
      cases other <;> cases event <;> simp_all [lawful.read, lawful.write]
    rw [if_neg apart]
    exact lawful.trigger_spares c event other same

/-- A statement moves what it touches into exactly one place. -/
theorem standing_run (lawful : u.Lawful) (real : h.Real) (c : FdContext) (op : Micro) :
    standing h (op.run u c) + (op.handed u c).count h + (op.dropped u c).count h +
        (op.overwritten u c).count h =
      standing h c + (op.deposits.map EventContext.handover).count h := by
  have blank := count_blank real
  cases op with
  | trigger event =>
    have emptied := standing_set (h := h) c (u.getEventContext event) {}
    have same : standing h (u.triggerEvent c event).1 =
        standing h (c.set (u.getEventContext event) {}) :=
      standing_congr (trigger_get lawful c event)
    simp only [Micro.run, Micro.handed, Micro.dropped, Micro.overwritten, Micro.deposits,
      lawful.trigger_hands, Option.toList_some, List.count_nil, List.map_nil]
    omega
  | assign event ctx =>
    have replaced := standing_set (h := h) c (u.getEventContext event) ctx
    simpa [Micro.run, Micro.handed, Micro.dropped, Micro.overwritten, Micro.deposits] using replaced
  | resetContext event =>
    have emptied := standing_set (h := h) c (u.getEventContext event) {}
    simp only [Micro.run, Micro.handed, Micro.dropped, Micro.overwritten, Micro.deposits,
      lawful.reset, List.count_nil, List.map_nil]
    omega
  | increment | decrement | setEvents | triggerIfSet => rfl

/-- How many of these waiters stand at each fd. -/
def weightOf (h : Handover) (m : IOManager) (fd : ℕ) : ℤ := (m.waitersAt fd).count h

/-- What the ledger gains in a step, less what it loses. -/
def gain (u : Undefined) (h : Handover) (m n : IOManager) (a : Action) : ℤ :=
  (m.accepts n a).count h - (n.handed.count h - m.handed.count h) - (m.drops u a).count h -
    (m.overwrites u a).count h

theorem statement_inside {after : IoPc} (inside : Inside m thread fd after) :
    m.statement thread = match (m.table.slot fd).mutex with
      | some ⟨_, op :: _⟩ => some (m.table.slot fd, op)
      | _ => none := by
  cases inside with
  | call pc | report pc => simp only [statement, pc]

theorem accepts_inside {after : IoPc} (inside : Inside m thread fd after) (n : IOManager)
    (ok : Bool) : m.accepts n (.next thread ok) = [] := by
  cases inside with
  | call pc | report pc => simp only [accepts, pc]

/-- A step that moves no waiter. -/
private theorem totals_quiet {a : Action} {total : ℤ} (counted : Totals (weightOf h m) total)
    (same : ∀ fd, weightOf h n fd = weightOf h m fd) (handed : n.handed = m.handed)
    (accepts : m.accepts n a = []) (drops : m.drops u a = [])
    (overwrites : m.overwrites u a = []) :
    Totals (weightOf h n) (total + gain u h m n a) := by
  have nothing : gain u h m n a = 0 := by simp [gain, handed, accepts, drops, overwrites]
  rw [nothing, Int.add_zero]
  exact counted.congr same

/-- A step that writes one context of the table. -/
private theorem totals_store {a : Action} {total : ℤ} {c : FdContext}
    (counted : Totals (weightOf h m) total) (inside : fd < m.table.size)
    (table : n.table = { m.table with slot := Function.update m.table.slot fd c })
    (gained : gain u h m n a = c.waiters.count h - (m.table.slot fd).waiters.count h) :
    Totals (weightOf h n) (total + gain u h m n a) := by
  have here : weightOf h n fd - weightOf h m fd =
      c.waiters.count h - (m.table.slot fd).waiters.count h := by
    simp [weightOf, waitersAt, table, inside]
  rw [gained, ← here]
  refine counted.change fun other apart => ?_
  simp [weightOf, waitersAt, table, Function.update_of_ne apart]

/-- The ledger balances at each step: what is accepted comes to stand at an fd,
and what no longer stands there was handed over, dropped or written over. -/
theorem totals_move {a : Action} {total : ℤ} (lawful : u.Lawful) (placed : Placed m)
    (real : h.Real) (counted : Totals (weightOf h m) total) (moved : Move u m a n) :
    Totals (weightOf h n) (total + gain u h m n a) := by
  cases moved with
  | @grew thread call fd ok pc inside =>
    refine totals_quiet counted (fun other => ?_) rfl (by simp [accepts, pc])
      (by simp [drops, statement, pc]) (by simp [overwrites, statement, pc])
    have blank := count_blank real
    simp only [weightOf, waitersAt, goto, lawful.resize_size]
    by_cases old : other < m.table.size
    · rw [if_pos (by omega), if_pos old, lawful.resize_old _ _ _ old]
    · rw [if_neg old]
      split
      · rw [lawful.resize_new _ _ _ (by omega) (by omega), count_waiters]
        simp [standing, FdContext.get, blank]
      · rfl
  | @lockedCall thread call fd locked watched pc unheld decided kernel =>
    have inside := placed.located thread fd (by simp [pc, IoPc.fds])
    refine totals_store counted inside rfl ?_
    rw [count_waiters, count_waiters, unheld]
    simp [gain, accepts, drops, overwrites, statement, pc, standing, FdContext.get,
      deposits_decide decided]
  | @lockedReport thread fd events reports locked watched pc unheld decided kernel =>
    have inside := placed.located thread fd (by simp [pc, IoPc.fds, Report.fd])
    refine totals_store counted inside rfl ?_
    rw [count_waiters, count_waiters, unheld]
    simp [gain, accepts, drops, overwrites, statement, pc, standing, FdContext.get,
      deposits_handle decided]
  | @unlocked thread fd after ok inside held =>
    refine totals_store counted (placed.inside inside) rfl ?_
    rw [count_waiters, count_waiters, held]
    simp [gain, accepts_inside inside, drops, overwrites, statement_inside inside, held, standing,
      FdContext.get]
  | @expanded thread fd after event rest ok inside held =>
    refine totals_store counted (placed.inside inside) rfl ?_
    rw [count_waiters, count_waiters, held]
    have same : (if event.isIn (m.table.slot fd).events then .trigger event :: .decrement :: rest
        else rest).flatMap Micro.deposits = rest.flatMap Micro.deposits := by
      split <;> simp [Micro.deposits]
    simp [gain, accepts_inside inside, drops, overwrites, statement_inside inside, held, standing,
      FdContext.get, same, Micro.deposits, Micro.dropped, Micro.overwritten]
  | @executed thread fd after op rest ok inside held plain =>
    refine totals_store counted (placed.inside inside) rfl ?_
    have moved := standing_run lawful real (m.table.slot fd) op
    rw [count_waiters, count_waiters, held]
    simp only [gain, accepts_inside inside, drops, overwrites, statement_inside inside, held]
    simp only [Option.map_some, Option.getD_some, List.count_append, List.count_nil,
      List.flatMap_cons, List.map_append]
    have frame : standing h { op.run u (m.table.slot fd) with mutex := some ⟨thread, rest⟩ } =
        standing h (op.run u (m.table.slot fd)) := rfl
    rw [frame]
    push_cast
    omega
  | located pc | mustGrow pc | missed pc | waited pc | refusedCall pc | refusedReport pc
  | drained pc =>
    exact totals_quiet counted (fun _ => rfl) rfl (by simp [accepts, pc])
      (by simp [drops, statement, pc]) (by simp [overwrites, statement, pc])
  | done pc =>
    rcases pc with pc | ⟨result, pc⟩ <;>
      exact totals_quiet counted (fun _ => rfl) rfl (by simp [accepts, pc])
        (by simp [drops, statement, pc]) (by simp [overwrites, statement, pc])

/-- A registered event has a waiter, and an unregistered one has none. -/
def Settled (events : EventMask) (waiter : Event → EventContext) : Prop :=
  ∀ event : Event, (waiter event).handover.Real ↔ event.isIn events = true

/-- The statements leave the fd settled, and no assignment among them meets a
waiter. -/
def Tidy (events : EventMask) (waiter : Event → EventContext) : List Micro → Prop
  | [] => Settled events waiter
  | .setEvents next :: rest => Tidy next waiter rest
  | .assign event ctx :: rest =>
    ¬ (waiter event).handover.Real ∧ Tidy events (Function.update waiter event ctx) rest
  | .resetContext event :: rest => Tidy events (Function.update waiter event {}) rest
  | .trigger event :: rest =>
    Tidy (events &&& ~~~event.bits) (Function.update waiter event {}) rest
  | .triggerIfSet event :: rest =>
    if event.isIn events then
      Tidy (events &&& ~~~event.bits) (Function.update waiter event {}) rest
    else Tidy events waiter rest
  | .increment :: rest | .decrement :: rest => Tidy events waiter rest

def waiterOf (u : Undefined) (c : FdContext) (event : Event) : EventContext :=
  c.get (u.getEventContext event)

variable {events : EventMask} {waiter : Event → EventContext}

theorem settled_clear (settled : Settled events waiter) (event : Event) :
    Settled (events &&& ~~~event.bits) (Function.update waiter event {}) := by
  intro other
  by_cases same : other = event
  · subst same
    simp [real_handover_iff]
  · simp [settled other, same]

/-- Triggering what is registered, or not, leaves an fd settled. -/
theorem tidy_triggers {rest : List Micro} (settled : Settled events waiter)
    (only : ∀ op ∈ rest, op = .decrement ∨ (∃ event, op = .trigger event) ∨
      ∃ event, op = .triggerIfSet event) : Tidy events waiter rest := by
  induction rest generalizing events waiter with
  | nil => exact settled
  | cons op rest ih =>
    have later := fun other member => only other (List.mem_cons_of_mem op member)
    rcases only op List.mem_cons_self with rfl | ⟨event, rfl⟩ | ⟨event, rfl⟩
    · exact ih settled later
    · exact ih (settled_clear settled event) later
    · simp only [Tidy]
      split
      · exact ih (settled_clear settled event) later
      · exact ih settled later

theorem tidy_decide {call : FdCall} {c : FdContext} {locked : LockedSection}
    (settled : Settled c.events waiter)
    (adds_new : ∀ event cb scheduler piber, call = .addEvent event cb scheduler piber →
      event.isIn c.events = false)
    (decided : call.decide c = some locked) : Tidy c.events waiter locked.rest := by
  cases call with
  | addEvent event cb scheduler piber =>
    cases decided
    have clear := adds_new event cb scheduler piber rfl
    refine ⟨by simp [settled event, clear], fun other => ?_⟩
    by_cases same : other = event
    · subst same
      simp [real_context]
    · simp [settled other, same]
  | delEvent event =>
    obtain ⟨-, rfl⟩ := FdContext.delEvent_registered decided
    exact settled_clear settled event
  | cancelEvent event =>
    obtain ⟨-, rfl⟩ := FdContext.cancelEvent_registered decided
    exact tidy_triggers settled (by simp)
  | cancelAll =>
    simp only [FdCall.decide, FdContext.cancelAll] at decided
    split at decided <;> cases decided
    exact tidy_triggers settled (by simp)

theorem tidy_handle {c : FdContext} {report : EventMask} {locked : LockedSection}
    (settled : Settled c.events waiter) (decided : c.handle report = some locked) :
    Tidy c.events waiter locked.rest := by
  unfold FdContext.handle at decided
  simp only at decided
  split at decided <;> cases decided
  refine tidy_triggers settled fun op member => ?_
  rcases List.mem_append.mp member with read | write
  · split at read <;> simp at read
    rcases read with rfl | rfl <;> simp
  · split at write <;> simp at write
    rcases write with rfl | rfl <;> simp

theorem tidy_run (lawful : u.Lawful) {c : FdContext} {op : Micro} {rest : List Micro}
    (plain : ∀ event, op ≠ .triggerIfSet event)
    (tidy : Tidy c.events (waiterOf u c) (op :: rest)) :
    Tidy (op.run u c).events (waiterOf u (op.run u c)) rest := by
  have apart : ∀ event other : Event, u.getEventContext other = u.getEventContext event ↔
      other = event := by
    intro event other
    cases other <;> cases event <;> simp [lawful.read, lawful.write]
  have moved : ∀ event ctx, waiterOf u (c.set (u.getEventContext event) ctx) =
      Function.update (waiterOf u c) event ctx := by
    intro event ctx
    funext other
    simp only [waiterOf, get_set, apart, Function.update_apply]
  rw [Micro.run_events lawful]
  cases op with
  | assign event ctx =>
    rw [Micro.run, moved]
    exact tidy.2
  | resetContext event =>
    rw [Micro.run, lawful.reset, moved]
    exact tidy
  | trigger event =>
    have emptied : waiterOf u (u.triggerEvent c event).1 =
        Function.update (waiterOf u c) event {} := by
      rw [← moved]
      funext other
      exact trigger_get lawful c event _
    rw [Micro.run, emptied]
    exact tidy
  | triggerIfSet event => exact absurd rfl (plain event)
  | increment | decrement | setEvents => exact tidy

/-- What the holder of the fd mutex has yet to do. -/
def pendingRest (c : FdContext) : List Micro := (c.mutex.map Held.rest).getD []

/-- Every fd is settled, or will be at the end of the section under way. -/
def Served (u : Undefined) (m : IOManager) : Prop :=
  ∀ fd < m.table.size, Tidy (m.table.slot fd).events (waiterOf u (m.table.slot fd))
    (pendingRest (m.table.slot fd))

private theorem served_store {c : FdContext} (served : Served u m)
    (table : n.table = { m.table with slot := Function.update m.table.slot fd c })
    (here : Tidy c.events (waiterOf u c) (pendingRest c)) : Served u n := by
  intro other inside
  rw [table] at inside ⊢
  by_cases same : other = fd
  · subst same
    simpa using here
  · simpa [Function.update_of_ne same] using served other inside

theorem served_move {a : Action} (lawful : u.Lawful) (placed : Placed m) (served : Served u m)
    (adds_new : AddsNew m a) (moved : Move u m a n) : Served u n := by
  cases moved with
  | @grew thread call fd ok pc inside =>
    intro other within
    simp only [goto, lawful.resize_size] at within ⊢
    by_cases old : other < m.table.size
    · rw [lawful.resize_old _ _ _ old]
      exact served other old
    · rw [lawful.resize_new _ _ _ (by omega) (by omega)]
      intro event
      have blank : waiterOf u { fd := other } event = {} := by
        unfold waiterOf
        cases u.getEventContext event <;> rfl
      rw [blank, real_handover_iff]
      simp
  | @lockedCall thread call fd locked watched pc unheld decided kernel =>
    have settled := served fd (placed.located thread fd (by simp [pc, IoPc.fds]))
    simp only [pendingRest, unheld] at settled
    refine served_store served rfl (tidy_decide settled (fun event cb scheduler piber same => ?_)
      decided)
    simpa only [AddsNew, pc, same] using adds_new
  | @lockedReport thread fd events reports locked watched pc unheld decided kernel =>
    have settled := served fd (placed.located thread fd (by simp [pc, IoPc.fds, Report.fd]))
    simp only [pendingRest, unheld] at settled
    exact served_store served rfl (tidy_handle settled decided)
  | @unlocked thread fd after ok inside held =>
    have tidy := served fd (placed.inside inside)
    simp only [pendingRest, held] at tidy
    exact served_store served rfl tidy
  | @expanded thread fd after event rest ok inside held =>
    have tidy := served fd (placed.inside inside)
    simp only [pendingRest, held] at tidy
    refine served_store served rfl ?_
    simp only [Option.map_some, Option.getD_some, Tidy] at tidy
    split at tidy
    · simp only [pendingRest, Option.map_some, Option.getD_some, *, if_true]
      exact tidy
    · simp only [pendingRest, Option.map_some, Option.getD_some, *]
      exact tidy
  | @executed thread fd after op rest ok inside held plain =>
    have tidy := served fd (placed.inside inside)
    simp only [pendingRest, held] at tidy
    exact served_store served rfl (tidy_run lawful plain tidy)
  | located | mustGrow | missed | waited | refusedCall | refusedReport | drained | done =>
    exact served

/-- No assignment meets a waiter. -/
theorem overwrites_none {a : Action} (placed : Placed m) (served : Served u m) (real : h.Real)
    (moved : Move u m a n) : (m.overwrites u a).count h = 0 := by
  cases moved with
  | @executed thread fd after op rest ok inside held plain =>
    have tidy := served fd (placed.inside inside)
    simp only [pendingRest, held] at tidy
    simp only [overwrites, statement_inside inside, held]
    cases op with
    | assign event ctx =>
      rw [List.count_eq_zero]
      intro member
      cases List.mem_singleton.mp member
      exact tidy.1 real
    | _ => rfl
  | unlocked inside held | expanded inside held =>
    simp [overwrites, statement_inside inside, held, Micro.overwritten]
  | done pc => rcases pc with pc | ⟨result, pc⟩ <;> simp [overwrites, statement, pc]
  | located | mustGrow | missed | waited => rfl
  | grew pc | lockedCall pc | lockedReport pc | refusedCall pc | refusedReport pc | drained pc =>
    simp [overwrites, statement, pc]

end IOManager

namespace WaiterLedger
open IOManager Tally

variable {u : Undefined} {s t : WaiterLedger} {h : Handover}

/-- The accepted waiters are those that stand at some fd and those that left. -/
structure Balanced (s : WaiterLedger) : Prop where
  placed : Placed s.io
  counted : ∀ h : Handover, h.Real → Totals (weightOf h s.io)
    (s.accepted.count h - s.io.handed.count h - s.dropped.count h - s.overwritten.count h)

/-- Every registered event has its waiter, and none was written over. -/
structure Kept (u : Undefined) (s : WaiterLedger) : Prop where
  balanced : Balanced s
  served : Served u s.io
  kept : ∀ h : Handover, h.Real → s.overwritten.count h = 0

theorem balanced_step {a : IOManager.Action} (lawful : u.Lawful) (balanced : Balanced s)
    (stepped : step u s a = some t) : Balanced t := by
  obtain ⟨io, taken, rfl⟩ := Option.map_eq_some_iff.mp stepped
  have moved := move_of_step taken
  refine ⟨placed_move lawful balanced.placed moved, fun h real => ?_⟩
  have counted := totals_move lawful balanced.placed real (balanced.counted h real) moved
  have same : ((s.io.accepts io a ++ s.accepted).count h : ℤ) - io.handed.count h -
      (s.io.drops u a ++ s.dropped).count h - (s.io.overwrites u a ++ s.overwritten).count h =
      s.accepted.count h - s.io.handed.count h - s.dropped.count h - s.overwritten.count h +
        gain u h s.io io a := by
    simp only [gain, List.count_append]
    push_cast
    omega
  rw [same]
  exact counted

theorem kept_step {a : IOManager.Action} (lawful : u.Lawful) (kept : Kept u s)
    (adds_new : AddsNew s.io a) (stepped : step u s a = some t) : Kept u t := by
  have balanced := balanced_step lawful kept.balanced stepped
  obtain ⟨io, taken, rfl⟩ := Option.map_eq_some_iff.mp stepped
  have moved := move_of_step taken
  refine ⟨balanced, served_move lawful kept.balanced.placed kept.served adds_new moved,
    fun h real => ?_⟩
  rw [List.count_append, kept.kept h real,
    overwrites_none kept.balanced.placed kept.served real moved]

theorem balanced_initial : Balanced {} where
  placed := ⟨by simp [IoPc.fds], by simp, by simp⟩
  counted h _ := totals_zero fun fd => by simp [weightOf, waitersAt]

theorem kept_initial (u : Undefined) : Kept u {} where
  balanced := balanced_initial
  served fd inside := absurd inside (Nat.not_lt_zero fd)
  kept _ _ := rfl

/-- The sum over the table, from the total over all fds. -/
theorem Balanced.account (balanced : Balanced s) (real : h.Real) :
    s.accepted.count h = s.io.handed.count h + s.dropped.count h + s.overwritten.count h +
      ∑ fd ∈ Finset.range s.io.table.size, (s.io.table.slot fd).waiters.count h := by
  have outside : ∀ fd ∉ Finset.range s.io.table.size, weightOf h s.io fd = 0 := by
    intro fd beyond
    have past : ¬ fd < s.io.table.size := by simpa using beyond
    simp [weightOf, waitersAt, past]
  have total := (balanced.counted h real).eq_sum outside
  have inside : ∑ fd ∈ Finset.range s.io.table.size, weightOf h s.io fd =
      ((∑ fd ∈ Finset.range s.io.table.size, (s.io.table.slot fd).waiters.count h : ℕ) : ℤ) := by
    rw [Nat.cast_sum]
    refine Finset.sum_congr rfl fun fd member => ?_
    simp [weightOf, waitersAt, Finset.mem_range.mp member]
  rw [inside] at total
  omega

/-- In every run a waiter that `addEvent` accepted stands at its fd or has left
in exactly one way. -/
theorem waiters_balance (u : Undefined) (lawful : u.Lawful)
    (reached : Runs.Reachable (step u) {} s) (real : h.Real) :
    s.accepted.count h = s.io.handed.count h + s.dropped.count h + s.overwritten.count h +
      ∑ fd ∈ Finset.range s.io.table.size, (s.io.table.slot fd).waiters.count h :=
  (reached.invariant Balanced balanced_initial fun _ _ _ balanced _ stepped =>
    balanced_step lawful balanced stepped).account real

/-- **No waiter is lost and none is woken twice.** In every run whose `addEvent`
calls are for new events, each waiter accepted was handed to its scheduler once,
dropped by `delEvent`, or stands at its fd; and an fd whose mutex is free has a
waiter for exactly the registered events. -/
theorem every_waiter_has_one_fate (u : Undefined) (lawful : u.Lawful)
    (reached : Runs.Reaches (step u) (fun s a => AddsNew s.io a) {} s) :
    (∀ h : Handover, h.Real → s.accepted.count h = s.io.handed.count h + s.dropped.count h +
      ∑ fd ∈ Finset.range s.io.table.size, (s.io.table.slot fd).waiters.count h) ∧
    ∀ fd < s.io.table.size, (s.io.table.slot fd).mutex = none → ∀ event : Event,
      ((s.io.table.slot fd).get (u.getEventContext event)).handover.Real ↔
        event.isIn (s.io.table.slot fd).events = true := by
  have kept : Kept u s := reached.invariant (Kept u) (kept_initial u)
    fun _ _ _ kept adds_new stepped => kept_step lawful kept adds_new stepped
  refine ⟨fun h real => ?_, fun fd inside free => ?_⟩
  · rw [kept.balanced.account real, kept.kept h real, Nat.add_zero]
  · have settled := kept.served fd inside
    simp only [pendingRest, free] at settled
    exact settled

/-- A reader and a writer of one fd; the report of the writer alone is stale
when it is taken up, for `delEvent` has dropped it. -/
def droppedBeforeReport : List IOManager.Action :=
  [.call 1 (.addEvent .READ (some 7) (some 0) 0) 5] ++ List.replicate 7 (.next 1 true) ++
    [.call 1 (.addEvent .WRITE (some 8) (some 0) 0) 5] ++ List.replicate 6 (.next 1 true) ++
    [.wait 2 [.ready 5 0x5], .call 1 (.delEvent .WRITE) 5] ++ List.replicate 6 (.next 1 true) ++
    List.replicate 7 (.next 2 true)

theorem dropped_waiter_is_not_woken :
    ∃ s, Runs.run (step .least) {} droppedBeforeReport = some s ∧
      s.accepted.count ⟨some 0, .cb (some 8)⟩ = 1 ∧ s.dropped.count ⟨some 0, .cb (some 8)⟩ = 1 ∧
      s.accepted.count ⟨some 0, .cb (some 7)⟩ = s.io.handed.count ⟨some 0, .cb (some 7)⟩ +
        s.dropped.count ⟨some 0, .cb (some 7)⟩ +
        ∑ fd ∈ Finset.range s.io.table.size,
          (s.io.table.slot fd).waiters.count ⟨some 0, .cb (some 7)⟩ := by
  have seen : (Runs.run (step .least) {} droppedBeforeReport).map (fun s =>
      (s.accepted.count ⟨some 0, .cb (some 8)⟩, s.dropped.count ⟨some 0, .cb (some 8)⟩)) =
      some (1, 1) := by
    decide +kernel
  have admitted : Runs.AllSteps (step .least) (fun s a => AddsNew s.io a) {}
      droppedBeforeReport := by
    decide +kernel
  obtain ⟨s, replay, same⟩ := Option.map_eq_some_iff.mp seen
  simp only [Prod.mk.injEq] at same
  exact ⟨s, replay, same.1, same.2, (every_waiter_has_one_fate .least least_lawful
    (Runs.reaches_of_run droppedBeforeReport replay admitted)).1 _ (by decide)⟩

end WaiterLedger
end Synergy
