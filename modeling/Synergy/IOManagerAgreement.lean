import Synergy.IOManagerPending

/-! The kernel's interest set and the program's masks. A locked section changes
the kernel first and the mask of its fd statement by statement, so the kernel
always has the mask that the section under way will leave. Nothing here depends
on who registered what: a stale report still writes what it will leave. -/
namespace Synergy

/-- Only `READ` and `WRITE` are in the mask. -/
def Known (events : EventMask) : Prop :=
  events &&& ~~~(Event.READ.bits ||| Event.WRITE.bits) = 0

instance (events : EventMask) : Decidable (Known events) :=
  inferInstanceAs (Decidable (_ = _))

/-- What the kernel is to keep for an fd with these events. -/
def watch (events : EventMask) : Option EventMask :=
  if events = 0 then none else some (Epoll.EPOLLET ||| events)

section masks

variable {events left right : EventMask}

theorem known_iff : Known events ↔
    ∀ i, events.getLsbD i = true → i = 0 ∨ i = 2 := by
  constructor
  · intro known i set
    have clear : (events &&& ~~~(Event.READ.bits ||| Event.WRITE.bits)).getLsbD i = false := by
      rw [known]
      exact BitVec.getLsbD_zero
    have inside : i < 32 := BitVec.lt_of_getLsbD set
    simp only [Event.bits_eq, BitVec.getLsbD_and, BitVec.getLsbD_not, BitVec.getLsbD_or,
      BitVec.getLsbD_twoPow, Event.index, set, inside, decide_true, Bool.true_and,
      Bool.not_eq_false', Bool.or_eq_true, Bool.and_eq_true, decide_eq_true_eq] at clear
    omega
  · intro only
    apply BitVec.eq_of_getLsbD_eq
    intro i inside
    cases set : events.getLsbD i with
    | false => simp [set]
    | true =>
      rcases only i set with rfl | rfl <;> simp [Event.bits]

theorem Known.and (known : Known left) (right : EventMask) : Known (left &&& right) := by
  rw [known_iff] at known ⊢
  intro i set
  rw [BitVec.getLsbD_and, Bool.and_eq_true] at set
  exact known i set.1

theorem Known.or (first : Known left) (second : Known right) : Known (left ||| right) := by
  rw [known_iff] at first second ⊢
  intro i set
  rw [BitVec.getLsbD_or, Bool.or_eq_true] at set
  exact set.elim (first i) (second i)

theorem known_bits (event : Event) : Known event.bits := by
  cases event <;> decide

theorem known_zero : Known 0 := by decide

/-- Two masks of events are the same when they have the same events. -/
theorem Known.ext (first : Known left) (second : Known right)
    (same : ∀ event : Event, event.isIn left = event.isIn right) : left = right := by
  rw [known_iff] at first second
  have read := same .READ
  have write := same .WRITE
  rw [Event.isIn_eq, Event.isIn_eq] at read write
  apply BitVec.eq_of_getLsbD_eq
  intro i _
  by_cases event : i = 0 ∨ i = 2
  · rcases event with rfl | rfl
    · exact read
    · exact write
  · have clear : ∀ mask : EventMask, (∀ i, mask.getLsbD i = true → i = 0 ∨ i = 2) →
        mask.getLsbD i = false :=
      fun mask known => Bool.eq_false_iff.mpr fun set => event (known i set)
    rw [clear left first, clear right second]

/-- `EPOLLET` is put on top of the events and comes off again. -/
theorem Known.strip (known : Known events) :
    (Epoll.EPOLLET ||| events) &&& ~~~Epoll.EPOLLET = events := by
  rw [known_iff] at known
  apply BitVec.eq_of_getLsbD_eq
  intro i inside
  have edge : Epoll.EPOLLET = BitVec.twoPow 32 31 := rfl
  simp only [edge, BitVec.getLsbD_and, BitVec.getLsbD_or, BitVec.getLsbD_not,
    BitVec.getLsbD_twoPow, inside]
  cases set : events.getLsbD i with
  | false => cases decide (31 = i) <;> simp
  | true => rcases known i set with rfl | rfl <;> decide

theorem watch_stripped (known : Known events) :
    (watch events).map (· &&& ~~~Epoll.EPOLLET) = if events = 0 then none else some events := by
  unfold watch
  split
  · rfl
  · rw [Option.map_some, known.strip]

end masks

namespace Micro

/-- The mask of an fd once the statements are done. -/
def settle (events : EventMask) : List Micro → EventMask
  | [] => events
  | .triggerIfSet event :: rest => settle (events &&& ~~~event.bits) rest
  | op :: rest => settle (op.onEvents events) rest

/-- A statement that stores a mask stores one of known events. -/
def Proper (op : Micro) : Prop := ∀ events, op = .setEvents events → Known events

theorem settle_cons {op : Micro} {rest : List Micro} {events : EventMask}
    (plain : ∀ event, op ≠ .triggerIfSet event) :
    settle events (op :: rest) = settle (op.onEvents events) rest := by
  cases op with
  | triggerIfSet event => exact absurd rfl (plain event)
  | _ => rfl

theorem onEvents_known {op : Micro} {events : EventMask} (proper : op.Proper)
    (known : Known events) : Known (op.onEvents events) := by
  cases op with
  | setEvents next => exact proper next rfl
  | trigger event => exact known.and _
  | _ => exact known

/-- Clearing an event that is not there changes nothing. -/
theorem clear_absent {event : Event} {events : EventMask} (clear : event.isIn events = false) :
    events &&& ~~~event.bits = events := by
  rw [Event.isIn_eq] at clear
  apply BitVec.eq_of_getLsbD_eq
  intro i inside
  simp only [Event.bits_eq, BitVec.getLsbD_and, BitVec.getLsbD_not, BitVec.getLsbD_twoPow, inside]
  by_cases here : event.index = i
  · subst here
    simp [clear]
  · simp [here]

end Micro

open Micro

/-- What a successful `epoll_ctl` leaves in the set for the fd. -/
def LockedSection.interest (locked : LockedSection) : Option EventMask :=
  if locked.op = .DEL then none else some locked.events

/-- The operation suits what the kernel has, and it gives the kernel what the
rest of the section will leave. -/
structure Suits (events : EventMask) (locked : LockedSection) : Prop where
  op : locked.op = .ADD ↔ events = 0
  interest : locked.interest = watch (settle events locked.rest)
  proper : ∀ op ∈ locked.rest, op.Proper

private theorem suits_addEvent (c : FdContext) (event : Event) (ctx : EventContext)
    (known : Known c.events) : Suits c.events (c.addEvent event ctx) := by
  have filled : c.events ||| event.bits ≠ 0 := by
    intro empty
    have absent : event.isIn (c.events ||| event.bits) = false := by
      rw [empty]
      exact event.isIn_zero
    simp at absent
  constructor
  case op =>
    by_cases empty : c.events = 0 <;> simp [FdContext.addEvent, empty]
  case interest =>
    have kept : (c.addEvent event ctx).op ≠ .DEL := by
      unfold FdContext.addEvent
      split <;> simp
    rw [LockedSection.interest, if_neg kept]
    simp only [FdContext.addEvent, settle, onEvents, watch]
    rw [if_neg filled, BitVec.or_assoc]
  case proper =>
    intro op member events same
    subst same
    simp only [FdContext.addEvent, List.mem_cons, reduceCtorEq, Micro.setEvents.injEq,
      List.not_mem_nil, or_false, false_or] at member
    rw [member]
    exact known.or (known_bits event)

/-- `del` and `mod` by what is left. -/
private theorem suits_left {c : FdContext} {left : EventMask} {rest : List Micro}
    (registered : c.events ≠ 0) (settled : settle c.events rest = left)
    (proper : ∀ op ∈ rest, op.Proper) :
    Suits c.events ⟨if left ≠ 0 then .MOD else .DEL, Epoll.EPOLLET ||| left, rest⟩ := by
  constructor
  case op =>
    constructor
    · intro add
      dsimp only at add
      split at add <;> cases add
    · intro empty
      exact absurd empty registered
  case interest =>
    rw [settled]
    by_cases empty : left = 0 <;> simp [LockedSection.interest, watch, empty]
  case proper => exact proper

private theorem registered_ne {event : Event} {events : EventMask}
    (set : event.isIn events = true) : events ≠ 0 := by
  intro empty
  rw [empty] at set
  cases event <;> cases set

private theorem suits_delEvent {c : FdContext} {event : Event} {locked : LockedSection}
    (known : Known c.events) (decided : c.delEvent event = some locked) :
    Suits c.events locked := by
  obtain ⟨set, rfl⟩ := FdContext.delEvent_registered decided
  refine suits_left (registered_ne set) rfl ?_
  intro op member events same
  subst same
  simp only [List.mem_cons, reduceCtorEq, Micro.setEvents.injEq, List.not_mem_nil, or_false,
    false_or] at member
  rw [member]
  exact known.and _

private theorem suits_cancelEvent {c : FdContext} {event : Event} {locked : LockedSection}
    (decided : c.cancelEvent event = some locked) : Suits c.events locked := by
  obtain ⟨set, rfl⟩ := FdContext.cancelEvent_registered decided
  refine suits_left (registered_ne set) rfl ?_
  intro op member events same
  subst same
  simp at member

private theorem suits_cancelAll {c : FdContext} {locked : LockedSection} (known : Known c.events)
    (decided : c.cancelAll = some locked) : Suits c.events locked := by
  unfold FdContext.cancelAll at decided
  split at decided
  · cases decided
  · rename_i registered
    cases decided
    have emptied : c.events &&& ~~~Event.READ.bits &&& ~~~Event.WRITE.bits = 0 := by
      apply ((known.and _).and _).ext known_zero
      intro event
      cases event <;> simp
    constructor
    case op =>
      constructor
      · intro add
        cases add
      · intro empty
        exact absurd empty registered
    case interest =>
      simp only [LockedSection.interest, settle, if_true]
      rw [emptied]
      rfl
    case proper =>
      intro op member events same
      subst same
      simp at member

private theorem suits_handle {c : FdContext} {report : EventMask} {locked : LockedSection}
    (known : Known c.events) (decided : c.handle report = some locked) :
    Suits c.events locked := by
  unfold FdContext.handle at decided
  by_cases named : c.events &&& c.realEvents report = 0
  · simp [named] at decided
  · simp only [named, if_false, Option.some.injEq] at decided
    subst decided
    apply suits_left
    · intro empty
      simp [empty] at named
    · -- the triggers clear the reported events one by one
      cases read : Event.READ.isIn (c.realEvents report) <;>
        cases write : Event.WRITE.isIn (c.realEvents report) <;>
        simp only [if_true, if_false, Bool.false_eq_true, List.nil_append, List.append_nil,
          List.cons_append, settle, onEvents]
      · apply known.ext (known.and _)
        intro event
        cases event <;> simp [read, write]
      · apply (known.and _).ext (known.and _)
        intro event
        cases event <;> simp [read, write]
      · apply (known.and _).ext (known.and _)
        intro event
        cases event <;> simp [read, write]
      · apply ((known.and _).and _).ext (known.and _)
        intro event
        cases event <;> simp [read, write]
    · intro op member events same
      subst same
      simp only [List.mem_append] at member
      rcases member with member | member <;> split at member <;> simp at member

theorem suits_decide {call : FdCall} {c : FdContext} {locked : LockedSection}
    (known : Known c.events) (decided : call.decide c = some locked) : Suits c.events locked := by
  cases call with
  | addEvent event cb scheduler piber =>
    cases decided
    exact suits_addEvent c event _ known
  | delEvent event => exact suits_delEvent known decided
  | cancelEvent event => exact suits_cancelEvent decided
  | cancelAll => exact suits_cancelAll known decided

/-- The mask of the fd once the section under way is through. -/
def FdContext.target (c : FdContext) : EventMask :=
  match c.mutex with
  | none => c.events
  | some held => settle c.events held.rest

/-- Masks hold known events only, also the ones about to be stored. -/
structure FdContext.Tidy (c : FdContext) : Prop where
  known : Known c.events
  proper : ∀ held, c.mutex = some held → ∀ op ∈ held.rest, op.Proper

namespace IOManager

variable {u : Undefined} {m n : IOManager} {thread : ThreadId}

/-- The kernel has, for each fd of the table, what the fd will settle to. -/
structure Agreement (m : IOManager) : Prop where
  placed : Placed m
  mirrored : ∀ fd < m.table.size, m.interest fd = watch (m.table.slot fd).target
  tidy : ∀ fd < m.table.size, (m.table.slot fd).Tidy

theorem ctl_interest {interest watched : Epoll.Interest} {locked : LockedSection} {fd : ℕ}
    (kernel : Epoll.ctl interest locked.op fd locked.events = some watched) :
    watched = Function.update interest fd locked.interest := by
  unfold Epoll.ctl at kernel
  split at kernel <;> cases kernel <;> simp [LockedSection.interest, *]

theorem tidy_fresh (fd : ℕ) : FdContext.Tidy { fd } where
  known := known_zero
  proper := by simp

theorem Agreement.goto (agree : Agreement m) (placed : Placed n) (table : n.table = m.table)
    (interest : n.interest = m.interest) : Agreement n where
  placed := placed
  mirrored := by
    rw [table, interest]
    exact agree.mirrored
  tidy := by
    rw [table]
    exact agree.tidy

/-- Fresh contexts have no events, and the kernel knows none of their fds. -/
private theorem Agreement.grow (lawful : u.Lawful) (agree : Agreement m) {size : ℕ}
    (placed : Placed n) (table : n.table = u.contextResize m.table size)
    (interest : n.interest = m.interest) : Agreement n where
  placed := placed
  mirrored fd inside := by
    rw [table, lawful.resize_size] at inside
    rw [table, interest]
    by_cases old : fd < m.table.size
    · rw [lawful.resize_old _ _ _ old]
      exact agree.mirrored fd old
    · rw [lawful.resize_new _ _ _ (by omega) (by omega)]
      by_contra stray
      exact old (agree.placed.watched fd fun absent => stray absent)
  tidy fd inside := by
    rw [table, lawful.resize_size] at inside
    rw [table]
    by_cases old : fd < m.table.size
    · rw [lawful.resize_old _ _ _ old]
      exact agree.tidy fd old
    · rw [lawful.resize_new _ _ _ (by omega) (by omega)]
      exact tidy_fresh fd

/-- A step that writes one context, and the kernel's entry of its fd with it. -/
private theorem Agreement.store (agree : Agreement m) {fd : ℕ} {c : FdContext}
    (placed : Placed n)
    (table : n.table = { m.table with slot := Function.update m.table.slot fd c })
    (interest : n.interest = Function.update m.interest fd (watch c.target)) (tidy : c.Tidy) :
    Agreement n where
  placed := placed
  mirrored other inside := by
    rw [table] at inside ⊢
    rw [interest]
    by_cases here : other = fd
    · subst here
      simp
    · simpa [Function.update_of_ne here] using agree.mirrored other inside
  tidy other inside := by
    rw [table] at inside ⊢
    by_cases here : other = fd
    · subst here
      simpa using tidy
    · simpa [Function.update_of_ne here] using agree.tidy other inside

/-- Inside a section the kernel's entry stays as it is, since the fd still
settles to the same mask. -/
private theorem Agreement.settle (agree : Agreement m) {fd : ℕ} {c : FdContext}
    (placed : Placed n) (inside : fd < m.table.size)
    (table : n.table = { m.table with slot := Function.update m.table.slot fd c })
    (interest : n.interest = m.interest) (same : c.target = (m.table.slot fd).target)
    (tidy : c.Tidy) : Agreement n := by
  refine agree.store placed table ?_ tidy
  rw [interest, same, ← agree.mirrored fd inside, Function.update_eq_self]

private theorem Agreement.lock (agree : Agreement m) {fd : ℕ} {locked : LockedSection}
    {watched : Epoll.Interest} (placed : Placed n) (inside : fd < m.table.size)
    (suits : Suits (m.table.slot fd).events locked)
    (kernel : Epoll.ctl m.interest locked.op (m.table.slot fd).fd locked.events = some watched)
    (table : n.table = { m.table with
      slot := Function.update m.table.slot fd { m.table.slot fd with
        mutex := some ⟨thread, locked.rest⟩ } })
    (interest : n.interest = watched) : Agreement n := by
  refine agree.store placed table ?_ ⟨(agree.tidy fd inside).known, ?_⟩
  · rw [interest, ctl_interest kernel, agree.placed.named fd inside, suits.interest]
    rfl
  · intro held same
    cases same
    exact suits.proper

theorem agreement_move {a : Action} (lawful : u.Lawful) (agree : Agreement m)
    (moved : Move u m a n) : Agreement n := by
  have placed := placed_move lawful agree.placed moved
  cases moved with
  | located | mustGrow | missed | waited | refusedCall | refusedReport | drained | done =>
    exact agree.goto placed rfl rfl
  | grew => exact agree.grow lawful placed rfl rfl
  | @lockedCall thread call fd locked watched pc unheld decided kernel =>
    have inside := agree.placed.located thread fd (by simp [pc, IoPc.fds])
    have suits := suits_decide (agree.tidy fd inside).known decided
    exact agree.lock placed inside suits kernel rfl rfl
  | @lockedReport thread fd events reports locked watched pc unheld decided kernel =>
    have inside := agree.placed.located thread fd (by rw [pc]; exact List.mem_cons_self)
    have suits := suits_handle (agree.tidy fd inside).known decided
    exact agree.lock placed inside suits kernel rfl rfl
  | @unlocked thread fd after ok inside held =>
    have within := agree.placed.inside inside
    refine agree.settle placed within rfl rfl ?_ ⟨(agree.tidy fd within).known, by simp⟩
    simp [FdContext.target, held, Micro.settle]
  | @expanded thread fd after event rest ok inside held =>
    have within := agree.placed.inside inside
    have tidy := agree.tidy fd within
    refine agree.settle placed within rfl rfl ?_ ⟨tidy.known, ?_⟩
    · cases set : event.isIn (m.table.slot fd).events with
      | true => simp [FdContext.target, held, Micro.settle, onEvents]
      | false => simp [FdContext.target, held, Micro.settle, clear_absent set]
    · intro holder same
      cases same
      have later : ∀ op ∈ rest, op.Proper :=
        fun op member => tidy.proper _ held op (List.mem_cons_of_mem _ member)
      intro op member
      dsimp only at member
      split at member
      · rcases List.mem_cons.mp member with rfl | member
        · simp [Proper]
        · rcases List.mem_cons.mp member with rfl | member
          · simp [Proper]
          · exact later op member
      · exact later op member
  | @executed thread fd after op rest ok inside held plain =>
    have within := agree.placed.inside inside
    have tidy := agree.tidy fd within
    refine agree.settle placed within rfl rfl ?_ ⟨?_, ?_⟩
    · simp only [FdContext.target, held, run_events lawful, settle_cons plain]
    · rw [run_events lawful]
      exact onEvents_known (tidy.proper _ held op List.mem_cons_self) tidy.known
    · intro holder same
      cases same
      exact fun other member => tidy.proper _ held other (List.mem_cons_of_mem _ member)

theorem agreement_initial : Agreement {} where
  placed := ⟨by simp [IoPc.fds], by simp, by simp⟩
  mirrored := by simp
  tidy := by simp

theorem agreement_run (lawful : u.Lawful) (reached : Runs.Reachable (step u) {} m) :
    Agreement m :=
  reached.invariant Agreement agreement_initial fun _ _ _ agree _ stepped =>
    agreement_move lawful agree (move_of_step stepped)

/-- `ADD` is for an fd that the kernel does not have, `MOD` and `DEL` for one it
has. -/
def Issuable (m : IOManager) (fd : ℕ) (locked : LockedSection) : Prop :=
  (locked.op = .ADD → m.interest fd = none) ∧ (locked.op ≠ .ADD → m.interest fd ≠ none)

/-- Nothing but the place of a thread has changed. -/
structure Untouched (m n : IOManager) : Prop where
  table : n.table = m.table
  pending : n.pendingEventCount = m.pendingEventCount
  interest : n.interest = m.interest
  triggered : n.triggered = m.triggered
  handed : n.handed = m.handed

/-- The kernel and the program agree on what is watched, where no section is
under way; what the program asks of the kernel next is possible; and where the
kernel refuses, the operation says so and changes nothing. -/
structure KernelAgrees (u : Undefined) (m : IOManager) : Prop where
  watched : ∀ fd < m.table.size, (m.table.slot fd).mutex = none →
    (m.interest fd).map (· &&& ~~~Epoll.EPOLLET) =
      if (m.table.slot fd).events = 0 then none else some (m.table.slot fd).events
  elsewhere : ∀ fd, m.table.size ≤ fd → m.interest fd = none
  call_issuable : ∀ fd < m.table.size, (m.table.slot fd).mutex = none → ∀ (call : FdCall) locked,
    call.decide (m.table.slot fd) = some locked →
      (m.table.slot fd).fd = fd ∧ m.Issuable fd locked
  report_issuable : ∀ fd < m.table.size, (m.table.slot fd).mutex = none → ∀ report locked,
    (m.table.slot fd).handle report = some locked →
      (m.table.slot fd).fd = fd ∧ m.Issuable fd locked
  call_fails : ∀ thread call fd n, m.threads thread = .locating call fd →
    step u m (.next thread false) = some n →
      n.threads thread = .returned false ∧ Untouched m n
  report_skipped : ∀ thread fd report reports n,
    m.threads thread = .reporting (.ready fd report :: reports) →
    step u m (.next thread false) = some n →
      n.threads thread = .reporting reports ∧ Untouched m n

private theorem Agreement.free (agree : Agreement m) {fd : ℕ} (inside : fd < m.table.size)
    (unheld : (m.table.slot fd).mutex = none) :
    m.interest fd = watch (m.table.slot fd).events := by
  rw [agree.mirrored fd inside, FdContext.target, unheld]

private theorem Agreement.issuable (agree : Agreement m) {fd : ℕ} {locked : LockedSection}
    (inside : fd < m.table.size) (unheld : (m.table.slot fd).mutex = none)
    (suits : Suits (m.table.slot fd).events locked) : m.Issuable fd locked := by
  rw [Issuable, agree.free inside unheld, watch]
  constructor
  · intro add
    rw [if_pos (suits.op.mp add)]
  · intro change
    rw [if_neg fun empty => change (suits.op.mpr empty)]
    exact Option.some_ne_none _

private theorem lock_refused {fd : ℕ} {decided : Option LockedSection} {success failure : IoPc}
    (stepped : m.lock thread fd decided false success failure = some n) :
    n = m.goto thread failure := by
  unfold lock at stepped
  cases held : (m.table.slot fd).mutex with
  | some holder => simp [held] at stepped
  | none =>
    cases decided <;>
      simp only [held, Option.isSome_none, Bool.false_eq_true, if_false] at stepped <;>
      cases stepped <;> rfl

/-- **The kernel watches what the program registered.** In every reachable
state, however often `epoll_ctl` failed on the way. -/
theorem kernel_watches_registered (u : Undefined) (lawful : u.Lawful)
    (reached : Runs.Reachable (step u) {} m) : KernelAgrees u m := by
  have agree := agreement_run lawful reached
  constructor
  case watched =>
    intro fd inside unheld
    rw [agree.free inside unheld]
    exact watch_stripped (agree.tidy fd inside).known
  case elsewhere =>
    intro fd outside
    by_contra stray
    exact Nat.not_lt.mpr outside (agree.placed.watched fd stray)
  case call_issuable =>
    intro fd inside unheld call locked decided
    have suits := suits_decide (agree.tidy fd inside).known decided
    exact ⟨agree.placed.named fd inside, agree.issuable inside unheld suits⟩
  case report_issuable =>
    intro fd inside unheld report locked decided
    have suits := suits_handle (agree.tidy fd inside).known decided
    exact ⟨agree.placed.named fd inside, agree.issuable inside unheld suits⟩
  case call_fails =>
    intro thread call fd n pc stepped
    simp only [step, threadStep, pc] at stepped
    rw [lock_refused stepped]
    exact ⟨by simp, rfl, rfl, rfl, rfl, rfl⟩
  case report_skipped =>
    intro thread fd report reports n pc stepped
    simp only [step, threadStep, pc] at stepped
    rw [lock_refused stepped]
    exact ⟨by simp, rfl, rfl, rfl, rfl, rfl⟩

/-- Both events of an fd are added, the second at the second try; a report of
both finds one of them cancelled, and the kernel refuses once more. -/
def refusedOnTheWay : List Action :=
  [.call 1 (.addEvent .READ (some 7) (some 0) 0) 5] ++ List.replicate 7 (.next 1 true) ++
    [.call 1 (.addEvent .WRITE (some 8) (some 0) 0) 5, .next 1 false, .next 1 true] ++
    [.call 1 (.addEvent .WRITE (some 8) (some 0) 0) 5] ++ List.replicate 6 (.next 1 true) ++
    [.wait 2 [.ready 5 0x5, .ready 5 0x1], .call 1 (.cancelEvent .READ) 5] ++
    List.replicate 5 (.next 1 true) ++ [.next 2 false]

theorem refused_on_the_way_agrees :
    ∃ m, Runs.run (step .least) {} refusedOnTheWay = some m ∧
      m.interest 5 = some (Epoll.EPOLLET ||| Event.WRITE.bits) ∧ KernelAgrees .least m := by
  have seen : (Runs.run (step .least) {} refusedOnTheWay).map (fun m => m.interest 5) =
      some (some (Epoll.EPOLLET ||| Event.WRITE.bits)) := by
    decide +kernel
  obtain ⟨m, replay, interest⟩ := Option.map_eq_some_iff.mp seen
  exact ⟨m, replay, interest, kernel_watches_registered .least least_lawful
    (Runs.reachable_of_run refusedOnTheWay replay)⟩

end IOManager
end Synergy
