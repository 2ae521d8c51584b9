import Synergy.IOManagerMoves
import Synergy.Tally

/-! The count of pending events. Each locked section changes the mask and the
count one after the other, so in between an fd counts its registered events
less what the section still owes the count. The sections of the four calls are
balanced whatever happened before, but for an `addEvent` of an event that is
there already, which counts it once more; that of a report is balanced only
where the report names no event that was unregistered since. -/
namespace Synergy

namespace Event

/-- The place of the event in a mask. -/
def index : Event → ℕ
  | .READ => 0
  | .WRITE => 2

theorem bits_eq (event : Event) : event.bits = BitVec.twoPow 32 event.index := by
  cases event <;> rfl

theorem isIn_eq (event : Event) (events : EventMask) :
    event.isIn events = events.getLsbD event.index := by
  unfold isIn
  rw [bits_eq, BitVec.and_twoPow]
  cases events.getLsbD event.index <;> cases event <;> rfl

@[simp] theorem isIn_or (event : Event) (left right : EventMask) :
    event.isIn (left ||| right) = (event.isIn left || event.isIn right) := by
  simp [isIn_eq]

@[simp] theorem isIn_and (event : Event) (left right : EventMask) :
    event.isIn (left &&& right) = (event.isIn left && event.isIn right) := by
  simp [isIn_eq]

@[simp] theorem isIn_not (event : Event) (events : EventMask) :
    event.isIn (~~~events) = !event.isIn events := by
  have inside : event.index < 32 := by cases event <;> decide
  simp [isIn_eq, inside]

@[simp] theorem isIn_bits (event other : Event) : event.isIn other.bits = decide (event = other) := by
  cases event <;> cases other <;> rfl

@[simp] theorem isIn_zero (event : Event) : event.isIn 0#32 = false := by
  simp [isIn_eq]

end Event

/-- The number of events in a mask. -/
def registered (events : EventMask) : ℤ :=
  (if Event.READ.isIn events then 1 else 0) + (if Event.WRITE.isIn events then 1 else 0)

theorem registered_nonneg (events : EventMask) : 0 ≤ registered events := by
  unfold registered
  split <;> split <;> omega

namespace Micro

/-- The effect of a statement on the mask of its fd. -/
def onEvents (events : EventMask) : Micro → EventMask
  | .setEvents next => next
  | .trigger event => events &&& ~~~event.bits
  | _ => events

theorem run_events {u : Undefined} (lawful : u.Lawful) (c : FdContext) (op : Micro) :
    (op.run u c).events = op.onEvents c.events := by
  cases op with
  | trigger event => exact lawful.trigger_events c event
  | assign event ctx =>
    simp only [run, onEvents, FdContext.set]
    split <;> rfl
  | resetContext event =>
    simp only [run, onEvents, FdContext.set]
    split <;> rfl
  | _ => rfl

/-- The events that will be registered after the statements, less the change of
the count that they will make: what the fd counts for now. -/
def outlook (events : EventMask) : List Micro → ℤ
  | [] => registered events
  | .triggerIfSet event :: rest =>
    if event.isIn events then outlook (events &&& ~~~event.bits) rest + 1 else outlook events rest
  | op :: rest => outlook (op.onEvents events) rest - op.change

/-- Every trigger among the statements meets a registered event, and the fd
never counts below zero on the way. -/
def Sound (events : EventMask) : List Micro → Prop
  | [] => True
  | .triggerIfSet event :: rest =>
    if event.isIn events then Sound (events &&& ~~~event.bits) rest else Sound events rest
  | op :: rest => (∀ event, op = .trigger event → event.isIn events = true) ∧
      0 ≤ outlook events (op :: rest) ∧ Sound (op.onEvents events) rest

theorem Sound.nonneg {rest : List Micro} {events : EventMask} (sound : Sound events rest) :
    0 ≤ outlook events rest := by
  induction rest generalizing events with
  | nil => exact registered_nonneg events
  | cons op rest ih =>
    cases op with
    | triggerIfSet event =>
      simp only [Sound, outlook] at sound ⊢
      split at sound
      · rename_i set
        have later := ih sound
        simp only [set, if_true]
        omega
      · rename_i clear
        simp only [clear]
        exact ih sound
    | _ => exact sound.2.1

/-- A section that keeps the count true. -/
structure Balanced (events : EventMask) (rest : List Micro) : Prop where
  sound : Sound events rest
  even : outlook events rest = registered events

end Micro

open Micro

theorem registered_set {event : Event} {events : EventMask} (clear : event.isIn events = false) :
    registered (events ||| event.bits) = registered events + 1 := by
  unfold registered
  cases event
  · simp [clear]
    omega
  · simp [clear]

theorem registered_again {event : Event} {events : EventMask} (set : event.isIn events = true) :
    registered (events ||| event.bits) = registered events := by
  unfold registered
  cases event
  · simp [set]
  · simp [set]

theorem registered_clear {event : Event} {events : EventMask} (set : event.isIn events = true) :
    registered (events &&& ~~~event.bits) = registered events - 1 := by
  unfold registered
  cases event
  · simp [set]
  · simp [set]

theorem balanced_addEvent (c : FdContext) (event : Event) (ctx : EventContext)
    (clear : event.isIn c.events = false) : Balanced c.events (c.addEvent event ctx).rest := by
  have nonneg := registered_nonneg c.events
  have even : outlook c.events (c.addEvent event ctx).rest = registered c.events := by
    simp only [FdContext.addEvent, outlook, onEvents, change, registered_set clear]
    omega
  refine ⟨⟨by simp, by rw [← even] at nonneg; exact nonneg, by simp, ?_, by simp, ?_, trivial⟩, even⟩
  · simp only [outlook, onEvents, change, registered_set clear]
    omega
  · simp only [outlook, onEvents, change, registered_set clear]
    omega

/-- Adding an event once more counts it once more, though it is there already. -/
theorem sound_addEvent (c : FdContext) (event : Event) (ctx : EventContext)
    (set : event.isIn c.events = true) : Sound c.events (c.addEvent event ctx).rest ∧
      outlook c.events (c.addEvent event ctx).rest ≤ registered c.events := by
  have nonneg := registered_nonneg (c.events &&& ~~~event.bits)
  have cleared := registered_clear set
  have same := registered_again set
  refine ⟨⟨by simp, ?_, by simp, ?_, by simp, ?_, trivial⟩, ?_⟩ <;>
    simp only [FdContext.addEvent, outlook, onEvents, change, same] <;> omega

theorem balanced_delEvent {c : FdContext} {event : Event} {locked : LockedSection}
    (decided : c.delEvent event = some locked) : Balanced c.events locked.rest := by
  have nonneg := registered_nonneg (c.events &&& ~~~event.bits)
  obtain ⟨set, rfl⟩ := FdContext.delEvent_registered decided
  have cleared := registered_clear set
  refine ⟨⟨by simp, ?_, by simp, ?_, by simp, ?_, trivial⟩, ?_⟩ <;>
    simp only [outlook, onEvents, change] <;> omega

theorem balanced_cancelEvent {c : FdContext} {event : Event} {locked : LockedSection}
    (decided : c.cancelEvent event = some locked) : Balanced c.events locked.rest := by
  have nonneg := registered_nonneg (c.events &&& ~~~event.bits)
  obtain ⟨set, rfl⟩ := FdContext.cancelEvent_registered decided
  have cleared := registered_clear set
  refine ⟨⟨?_, ?_, by simp, ?_, trivial⟩, ?_⟩
  · intro other same
    cases same
    exact set
  all_goals
    simp only [outlook, onEvents, change]
    omega

theorem sound_cons {op : Micro} {rest : List Micro} {events : EventMask}
    (plain : ∀ event, op ≠ .triggerIfSet event) (sound : Sound events (op :: rest)) :
    (∀ event, op = .trigger event → event.isIn events = true) ∧
      Sound (op.onEvents events) rest := by
  cases op with
  | triggerIfSet event => exact absurd rfl (plain event)
  | _ => exact ⟨sound.1, sound.2.2⟩

theorem outlook_cons {op : Micro} {rest : List Micro} {events : EventMask}
    (plain : ∀ event, op ≠ .triggerIfSet event) :
    outlook events (op :: rest) = outlook (op.onEvents events) rest - op.change := by
  cases op with
  | triggerIfSet event => exact absurd rfl (plain event)
  | _ => rfl

private theorem outlook_trigger (event : Event) (events : EventMask) (rest : List Micro) :
    outlook events (.trigger event :: .decrement :: rest) =
      outlook (events &&& ~~~event.bits) rest + 1 := by
  simp only [outlook, onEvents, change]
  omega

private theorem sound_trigger {event : Event} {events : EventMask} {rest : List Micro}
    (set : event.isIn events = true) (later : Sound (events &&& ~~~event.bits) rest) :
    Sound events (.trigger event :: .decrement :: rest) := by
  have nonneg := later.nonneg
  refine ⟨?_, ?_, by simp, ?_, later⟩
  · intro other same
    cases same
    exact set
  · rw [outlook_trigger]
    omega
  · simp only [outlook, onEvents, change]
    omega

/-- `triggerEvent` and the decrement behind it, where the event is registered. -/
private theorem balanced_trigger {event : Event} {events : EventMask} {rest : List Micro}
    (set : event.isIn events = true)
    (later : Balanced (events &&& ~~~event.bits) rest) :
    Balanced events (.trigger event :: .decrement :: rest) := by
  have cleared := registered_clear set
  have even := later.even
  refine ⟨sound_trigger set later.sound, ?_⟩
  rw [outlook_trigger]
  omega

private theorem balanced_triggerIfSet {event : Event} {events : EventMask} {rest : List Micro}
    (set : event.isIn events = true → Balanced (events &&& ~~~event.bits) rest)
    (clear : event.isIn events = false → Balanced events rest) :
    Balanced events (.triggerIfSet event :: rest) := by
  cases here : event.isIn events with
  | true =>
    have later := set here
    have cleared := registered_clear here
    have even := later.even
    refine ⟨by simpa [Sound, here] using later.sound, ?_⟩
    simp only [outlook, here, if_true]
    omega
  | false =>
    have later := clear here
    exact ⟨by simpa [Sound, here] using later.sound, by simpa [outlook, here] using later.even⟩

theorem balanced_nil (events : EventMask) : Balanced events [] := ⟨trivial, rfl⟩

theorem balanced_cancelAll {c : FdContext} {locked : LockedSection}
    (decided : c.cancelAll = some locked) : Balanced c.events locked.rest := by
  unfold FdContext.cancelAll at decided
  split at decided
  · cases decided
  · cases decided
    exact balanced_triggerIfSet
      (fun _ => balanced_triggerIfSet (fun _ => balanced_nil _) fun _ => balanced_nil _)
      (fun _ => balanced_triggerIfSet (fun _ => balanced_nil _) fun _ => balanced_nil _)

/-- The report names no event that is registered, or none that is not. -/
def ReportFits (c : FdContext) (report : EventMask) : Prop :=
  c.events &&& c.realEvents report = 0 ∨ c.realEvents report &&& ~~~c.events = 0

instance (c : FdContext) (report : EventMask) : Decidable (ReportFits c report) :=
  inferInstanceAs (Decidable (_ ∨ _))

theorem balanced_handle {c : FdContext} {report : EventMask} {locked : LockedSection}
    (fits : ReportFits c report) (decided : c.handle report = some locked) :
    Balanced c.events locked.rest := by
  by_cases named : c.events &&& c.realEvents report = 0
  · simp [FdContext.handle, named] at decided
  · have known : ∀ event : Event, event.isIn (c.realEvents report) = true →
        event.isIn c.events = true := by
      intro event reported
      have stray : event.isIn (c.realEvents report &&& ~~~c.events) = false := by
        rw [fits.resolve_left named]
        exact event.isIn_zero
      simpa [reported] using stray
    simp only [FdContext.handle, named, if_false, Option.some.injEq] at decided
    subst decided
    cases read : Event.READ.isIn (c.realEvents report) <;>
      cases write : Event.WRITE.isIn (c.realEvents report) <;>
      simp only [if_true, if_false, Bool.false_eq_true, List.nil_append, List.append_nil,
        List.cons_append]
    · exact balanced_nil _
    · exact balanced_trigger (known _ write) (balanced_nil _)
    · exact balanced_trigger (known _ read) (balanced_nil _)
    · refine balanced_trigger (known _ read) (balanced_trigger ?_ (balanced_nil _))
      simp [known _ write]

/-- What an fd counts for: its registered events, and where a section is under
way what that will leave. -/
def FdContext.owed (c : FdContext) : ℤ :=
  match c.mutex with
  | none => registered c.events
  | some held => outlook c.events held.rest

/-- The fd of a report. -/
def Report.fd : Report → Option ℕ
  | .tickle => none
  | .ready fd _ => some fd

/-- The fds a thread has looked up. -/
def IoPc.fds : IoPc → List ℕ
  | .locating _ fd | .calling fd => [fd]
  | .reporting reports => reports.filterMap Report.fd
  | .handling fd reports => fd :: reports.filterMap Report.fd
  | _ => []

namespace IOManager
open Tally

variable {u : Undefined} {m n : IOManager} {thread : ThreadId}

/-- The fds in use are inside the table, and every context knows its fd. -/
structure Placed (m : IOManager) : Prop where
  located : ∀ thread, ∀ fd ∈ (m.threads thread).fds, fd < m.table.size
  watched : ∀ fd, m.interest fd ≠ none → fd < m.table.size
  named : ∀ fd < m.table.size, (m.table.slot fd).fd = fd

theorem ctl_watched {interest watched : Epoll.Interest} {op : Epoll.Op} {fd other : ℕ}
    {events : EventMask} (kernel : Epoll.ctl interest op fd events = some watched)
    (member : watched other ≠ none) : other = fd ∨ interest other ≠ none := by
  by_cases same : other = fd
  · exact .inl same
  · right
    unfold Epoll.ctl at kernel
    split at kernel <;> cases kernel <;> rwa [Function.update_of_ne same] at member

theorem Micro.run_fd (lawful : u.Lawful) (c : FdContext) (op : Micro) :
    (op.run u c).fd = c.fd := by
  cases op with
  | trigger event => exact lawful.trigger_fd c event
  | assign event ctx =>
    simp only [run, FdContext.set]
    split <;> rfl
  | resetContext event =>
    simp only [run, FdContext.set]
    split <;> rfl
  | _ => rfl

theorem Inside.mem_fds {fd : ℕ} {after : IoPc} (inside : Inside m thread fd after) :
    fd ∈ (m.threads thread).fds ∧ ∀ other ∈ after.fds, other ∈ (m.threads thread).fds := by
  cases inside with
  | call pc => simp [pc, IoPc.fds]
  | report pc =>
    rw [pc]
    exact ⟨List.mem_cons_self, fun other member => List.mem_cons_of_mem _ member⟩

theorem Placed.inside (placed : Placed m) {fd : ℕ} {after : IoPc}
    (inside : Inside m thread fd after) : fd < m.table.size :=
  placed.located thread fd inside.mem_fds.1

/-- A step that moves one thread and leaves the table and the kernel as they are. -/
private theorem Placed.goto (placed : Placed m) {pc : IoPc}
    (known : ∀ fd ∈ pc.fds, fd < m.table.size) : Placed (m.goto thread pc) where
  located other := by
    by_cases same : other = thread
    · subst same
      simpa using known
    · simpa [Function.update_of_ne same] using placed.located other
  watched := placed.watched
  named := placed.named

/-- A step that writes one context and keeps its fd. -/
private theorem Placed.store (placed : Placed m) {fd : ℕ} {c : FdContext}
    (table : n.table = { m.table with slot := Function.update m.table.slot fd c })
    (same : c.fd = (m.table.slot fd).fd) (threads : n.threads = m.threads)
    (interest : n.interest = m.interest) : Placed n where
  located := by
    rw [threads, table]
    exact placed.located
  watched := by
    rw [interest, table]
    exact placed.watched
  named other inside := by
    rw [table] at inside ⊢
    by_cases here : other = fd
    · subst here
      simpa [same] using placed.named other inside
    · simpa [Function.update_of_ne here] using placed.named other inside

private theorem Placed.watch (placed : Placed m) {fd : ℕ} {watched : Epoll.Interest}
    {op : Epoll.Op} {events : EventMask} (inside : fd < m.table.size)
    (kernel : Epoll.ctl m.interest op (m.table.slot fd).fd events = some watched) :
    Placed { m with interest := watched } where
  located := placed.located
  watched other member := by
    rw [placed.named fd inside] at kernel
    rcases ctl_watched kernel member with rfl | before
    · exact inside
    · exact placed.watched other before
  named := placed.named

private theorem Placed.lock (placed : Placed m) {fd : ℕ} {c : FdContext} {pc : IoPc}
    {watched : Epoll.Interest} {op : Epoll.Op} {events : EventMask} (inside : fd < m.table.size)
    (kernel : Epoll.ctl m.interest op (m.table.slot fd).fd events = some watched)
    (same : c.fd = (m.table.slot fd).fd) (known : ∀ fd ∈ pc.fds, fd < m.table.size) :
    Placed (({ m with interest := watched }.store fd c).goto thread pc) := by
  have stored : Placed ({ m with interest := watched }.store fd c) :=
    (placed.watch inside kernel).store rfl same rfl rfl
  exact stored.goto known

/-- Growing the table moves no context. -/
private theorem Placed.grow (lawful : u.Lawful) (placed : Placed m) (size : ℕ) :
    Placed { m with table := u.contextResize m.table size } where
  located other fd member := by
    have inside := placed.located other fd member
    simp only [lawful.resize_size]
    omega
  watched fd member := by
    have inside := placed.watched fd member
    simp only [lawful.resize_size]
    omega
  named fd inside := by
    simp only [lawful.resize_size] at inside ⊢
    by_cases old : fd < m.table.size
    · rw [lawful.resize_old _ _ _ old]
      exact placed.named fd old
    · rw [lawful.resize_new _ _ _ (by omega) (by omega)]

private theorem Placed.reported (placed : Placed m) {fd : ℕ} {events : EventMask}
    {reports : List Report} (pc : m.threads thread = .reporting (.ready fd events :: reports)) :
    ∀ other ∈ fd :: reports.filterMap Report.fd, other < m.table.size := fun other member =>
  placed.located thread other (by rw [pc]; exact member)

theorem placed_move {a : Action} (lawful : u.Lawful) (placed : Placed m) (moved : Move u m a n) :
    Placed n := by
  cases moved with
  | located pc inside => exact placed.goto (by simpa [IoPc.fds] using inside)
  | mustGrow pc outside => exact placed.goto (by simp [IoPc.fds])
  | missed pc outside => exact placed.goto (by simp [IoPc.fds])
  | @waited thread reports pc allowed =>
    refine placed.goto fun fd member => ?_
    obtain ⟨report, listed, named⟩ := List.mem_filterMap.mp member
    cases report with
    | tickle => cases named
    | ready other events =>
      cases named
      have admitted := allowed _ listed
      refine placed.watched fd fun absent => ?_
      simp [mayReport, absent] at admitted
  | @grew thread call fd ok pc inside =>
    exact (placed.grow lawful _).goto (by simpa [IoPc.fds] using inside)
  | @lockedCall thread call fd locked watched pc unheld decided kernel =>
    have inside := placed.located thread fd (by simp [pc, IoPc.fds])
    exact placed.lock inside kernel rfl (by simpa [IoPc.fds] using inside)
  | @lockedReport thread fd events reports locked watched pc unheld decided kernel =>
    have known := placed.reported pc
    exact placed.lock (known fd List.mem_cons_self) kernel rfl known
  | refusedCall pc => exact placed.goto (by simp [IoPc.fds])
  | @refusedReport thread fd events reports ok pc =>
    have known := placed.reported pc
    exact placed.goto fun other member => known other (List.mem_cons_of_mem _ member)
  | @drained thread reports ok pc =>
    exact placed.goto fun other member =>
      placed.located thread other (by rw [pc]; exact member)
  | done pc => exact placed.goto (by simp [IoPc.fds])
  | @unlocked thread fd after ok inside held =>
    have stored : Placed (m.store fd { m.table.slot fd with mutex := none }) :=
      placed.store rfl rfl rfl rfl
    exact stored.goto fun other member =>
      placed.located thread other (inside.mem_fds.2 other member)
  | expanded inside held => exact placed.store rfl rfl rfl rfl
  | @executed thread fd after op rest ok inside held plain =>
    exact placed.store rfl (Micro.run_fd lawful (m.table.slot fd) op) rfl rfl

/-- What each fd of the table counts for. -/
def weight (m : IOManager) (fd : ℕ) : ℤ :=
  if fd < m.table.size then (m.table.slot fd).owed else 0

/-- The count is what the fds count for together and a surplus for the events
that were added twice; the sections under way are sound, and no trigger so far
met an event that was not registered. -/
structure PendingLaw (surplus : ℤ) (m : IOManager) : Prop where
  placed : Placed m
  counted : Totals m.weight (m.pendingEventCount - surplus)
  sound : ∀ fd < m.table.size, ∀ held, (m.table.slot fd).mutex = some held →
    Sound (m.table.slot fd).events held.rest
  genuine : ∀ trigger ∈ m.triggered, trigger.wasSet = true

/-- The caller's duty: `addEvent` is for an event that is not registered. -/
def AddsNew (m : IOManager) : Action → Prop
  | .next thread _ =>
    match m.threads thread with
    | .locating (.addEvent event _ _ _) fd => event.isIn (m.table.slot fd).events = false
    | _ => True
  | _ => True

instance (m : IOManager) : (a : Action) → Decidable (AddsNew m a)
  | .call .. | .wait .. => .isTrue trivial
  | .next thread _ =>
    match pc : m.threads thread with
    | .locating (.addEvent event _ _ _) fd =>
      decidable_of_iff (event.isIn (m.table.slot fd).events = false) (by simp [AddsNew, pc])
    | .locating (.delEvent _) _ | .locating (.cancelEvent _) _ | .locating .cancelAll _
    | .free | .growing .. | .calling _ | .returned _ | .reporting _ | .handling .. =>
      .isTrue (by simp [AddsNew, pc])

/-- A report that the loop takes up with a successful `epoll_ctl` fits the
registrations of that moment. -/
def ReportsFit (m : IOManager) : Action → Prop
  | .next thread true =>
    match m.threads thread with
    | .reporting (.ready fd events :: _) => ReportFits (m.table.slot fd) events
    | _ => True
  | _ => True

instance (m : IOManager) (a : Action) : Decidable (AddsNew m a ∧ ReportsFit m a) := by
  have fits : Decidable (ReportsFit m a) := by
    unfold ReportsFit
    split <;> try infer_instance
    split <;> infer_instance
  infer_instance

variable {surplus : ℤ}

theorem PendingLaw.weight_nonneg (law : PendingLaw surplus m) (fd : ℕ) : 0 ≤ m.weight fd := by
  unfold weight
  split
  · rename_i inside
    unfold FdContext.owed
    cases held : (m.table.slot fd).mutex with
    | none => exact registered_nonneg _
    | some holder => exact (law.sound fd inside holder held).nonneg
  · exact Int.le_refl 0

theorem PendingLaw.goto (law : PendingLaw surplus m) (placed : Placed n)
    (table : n.table = m.table) (pending : n.pendingEventCount = m.pendingEventCount)
    (triggered : n.triggered = m.triggered) : PendingLaw surplus n where
  placed := placed
  counted := by
    rw [pending]
    exact law.counted.congr fun fd => by simp [weight, table]
  sound := by
    rw [table]
    exact law.sound
  genuine := by
    rw [triggered]
    exact law.genuine

private theorem PendingLaw.grow (lawful : u.Lawful) (law : PendingLaw surplus m) {size : ℕ}
    (placed : Placed n) (table : n.table = u.contextResize m.table size)
    (pending : n.pendingEventCount = m.pendingEventCount)
    (triggered : n.triggered = m.triggered) : PendingLaw surplus n where
  placed := placed
  counted := by
    rw [pending]
    refine law.counted.congr fun fd => ?_
    simp only [weight, table, lawful.resize_size]
    by_cases old : fd < m.table.size
    · rw [if_pos old, if_pos (by omega), lawful.resize_old _ _ _ old]
    · rw [if_neg old]
      split
      · rw [lawful.resize_new _ _ _ (by omega) (by omega)]
        simp [FdContext.owed, registered]
      · rfl
  sound fd inside held := by
    simp only [table, lawful.resize_size] at inside ⊢
    by_cases old : fd < m.table.size
    · rw [lawful.resize_old _ _ _ old]
      exact law.sound fd old held
    · rw [lawful.resize_new _ _ _ (by omega) (by omega)]
      intro none_held
      cases none_held
  genuine := by
    rw [triggered]
    exact law.genuine

/-- A step that writes one context: the count moves by what the context moves,
and what it moves beyond that goes into the surplus. -/
private theorem PendingLaw.store (law : PendingLaw surplus m) {fd : ℕ} {c : FdContext} {extra : ℤ}
    (placed : Placed n) (inside : fd < m.table.size)
    (table : n.table = { m.table with slot := Function.update m.table.slot fd c })
    (pending : n.pendingEventCount =
      m.pendingEventCount + (c.owed - (m.table.slot fd).owed) + extra)
    (sound : ∀ held, c.mutex = some held → Sound c.events held.rest)
    (genuine : ∀ trigger ∈ n.triggered, trigger.wasSet = true) :
    PendingLaw (surplus + extra) n where
  placed := placed
  counted := by
    have here : n.weight fd - m.weight fd = c.owed - (m.table.slot fd).owed := by
      simp [weight, table, inside]
    have moved : n.pendingEventCount - (surplus + extra) =
        m.pendingEventCount - surplus + (n.weight fd - m.weight fd) := by
      omega
    rw [moved]
    refine law.counted.change fun other apart => ?_
    simp [weight, table, Function.update_of_ne apart]
  sound other within held := by
    rw [table] at within ⊢
    by_cases here : other = fd
    · subst here
      simpa using sound held
    · simpa [Function.update_of_ne here] using law.sound other within held
  genuine := genuine

private theorem balanced_decide {call : FdCall} {c : FdContext} {locked : LockedSection}
    (adds_new : ∀ event cb scheduler piber, call = .addEvent event cb scheduler piber →
      event.isIn c.events = false)
    (decided : call.decide c = some locked) : Balanced c.events locked.rest := by
  cases call with
  | addEvent event cb scheduler piber =>
    cases decided
    exact balanced_addEvent c event _ (adds_new event cb scheduler piber rfl)
  | delEvent event => exact balanced_delEvent decided
  | cancelEvent event => exact balanced_cancelEvent decided
  | cancelAll => exact balanced_cancelAll decided

private theorem sound_decide {call : FdCall} {c : FdContext} {locked : LockedSection}
    (decided : call.decide c = some locked) : Sound c.events locked.rest ∧
      outlook c.events locked.rest ≤ registered c.events := by
  have balanced_case : Balanced c.events locked.rest → _ := fun balanced =>
    And.intro balanced.sound (Int.le_of_eq balanced.even)
  cases call with
  | addEvent event cb scheduler piber =>
    cases decided
    cases set : event.isIn c.events with
    | true => exact sound_addEvent c event _ set
    | false => exact balanced_case (balanced_addEvent c event _ set)
  | delEvent event => exact balanced_case (balanced_delEvent decided)
  | cancelEvent event => exact balanced_case (balanced_cancelEvent decided)
  | cancelAll => exact balanced_case (balanced_cancelAll decided)

/-- Taking the mutex for a sound section; what the section will count without
registering it is surplus from here on. -/
private theorem PendingLaw.lock (law : PendingLaw surplus m) {fd : ℕ} {locked : LockedSection}
    (placed : Placed n) (inside : fd < m.table.size)
    (unheld : (m.table.slot fd).mutex = none)
    (sound : Sound (m.table.slot fd).events locked.rest)
    (table : n.table = { m.table with
      slot := Function.update m.table.slot fd { m.table.slot fd with
        mutex := some ⟨thread, locked.rest⟩ } })
    (pending : n.pendingEventCount = m.pendingEventCount)
    (triggered : n.triggered = m.triggered) :
    PendingLaw (surplus + (registered (m.table.slot fd).events -
      outlook (m.table.slot fd).events locked.rest)) n := by
  refine law.store placed inside table ?_ ?_ ?_
  · simp only [FdContext.owed, unheld, pending]
    omega
  · intro held same
    cases same
    exact sound
  · rw [triggered]
    exact law.genuine

/-- The surplus of the next state: it only ever grows, and not at all where
`addEvent` is called for new events. -/
def Carried (surplus : ℤ) (adds_new : Prop) (n : IOManager) : Prop :=
  ∃ next, surplus ≤ next ∧ (adds_new → next = surplus) ∧ PendingLaw next n

private theorem PendingLaw.carried (law : PendingLaw surplus n) (adds_new : Prop) :
    Carried surplus adds_new n :=
  ⟨surplus, Int.le_refl _, fun _ => rfl, law⟩

private theorem PendingLaw.carried_zero (law : PendingLaw (surplus + 0) n) (adds_new : Prop) :
    Carried surplus adds_new n := by
  rw [Int.add_zero] at law
  exact law.carried adds_new

theorem pendingLaw_move {a : Action} (lawful : u.Lawful) (law : PendingLaw surplus m)
    (fits : ReportsFit m a) (moved : Move u m a n) :
    Carried surplus (AddsNew m a) n := by
  have placed := placed_move lawful law.placed moved
  cases moved with
  | located | mustGrow | missed | waited | refusedCall | refusedReport | drained | done =>
    exact (law.goto placed rfl rfl rfl).carried _
  | grew => exact (law.grow lawful placed rfl rfl rfl).carried _
  | @lockedCall thread call fd locked watched pc unheld decided kernel =>
    have inside := law.placed.located thread fd (by simp [pc, IoPc.fds])
    obtain ⟨sound, covered⟩ := sound_decide decided
    refine ⟨_, ?_, fun adds_new => ?_, law.lock placed inside unheld sound rfl rfl rfl⟩
    · omega
    · have balanced := balanced_decide (fun event cb scheduler piber same => by
        simpa only [AddsNew, pc, same] using adds_new) decided
      have even := balanced.even
      omega
  | @lockedReport thread fd events reports locked watched pc unheld decided kernel =>
    have inside := law.placed.reported pc fd List.mem_cons_self
    have fitting : ReportFits (m.table.slot fd) events := by
      simpa only [ReportsFit, pc] using fits
    have balanced := balanced_handle fitting decided
    have kept := law.lock placed inside unheld balanced.sound rfl rfl rfl
    rw [balanced.even, Int.sub_self] at kept
    exact kept.carried_zero _
  | @unlocked thread fd after ok inside held =>
    refine (law.store placed (law.placed.inside inside) rfl ?_ (by simp) law.genuine).carried_zero _
    simp [FdContext.owed, held, outlook]
  | @expanded thread fd after event rest ok inside held =>
    have within := law.placed.inside inside
    have sound := law.sound fd within _ held
    refine (law.store placed within rfl ?_ ?_ law.genuine).carried_zero _
    · cases set : event.isIn (m.table.slot fd).events with
      | true => simp [FdContext.owed, held, outlook_trigger, outlook, set]
      | false => simp [FdContext.owed, held, outlook, set]
    · intro holder same
      cases same
      cases set : event.isIn (m.table.slot fd).events with
      | true => exact sound_trigger set (by simpa [Sound, set] using sound)
      | false => simpa [Sound, set] using sound
  | @executed thread fd after op rest ok inside held plain =>
    have within := law.placed.inside inside
    obtain ⟨registered_then, sound⟩ := sound_cons plain (law.sound fd within _ held)
    refine (law.store placed within rfl ?_ ?_ fun trigger member => ?_).carried_zero _
    · simp only [FdContext.owed, held, run_events lawful, outlook_cons plain]
      omega
    · intro holder same
      cases same
      rw [run_events lawful]
      exact sound
    · rcases List.mem_append.mp member with now | before
      · cases op with
        | trigger event =>
          cases List.mem_singleton.mp now
          exact registered_then event rfl
        | _ => cases now
      · exact law.genuine trigger before

theorem PendingLaw.nonneg (law : PendingLaw surplus m) : surplus ≤ m.pendingEventCount := by
  have total := law.counted.nonneg law.weight_nonneg
  omega

theorem pendingLaw_initial : PendingLaw 0 {} where
  placed := ⟨by simp [IoPc.fds], by simp, by simp⟩
  counted := totals_zero fun fd => by simp [weight]
  sound := by simp
  genuine := by simp

/-- **The count is true.** In every run whose `addEvent` calls are for new
events and whose reports fit when they are taken up, `m_pendingEventCount` is
never below zero, `triggerEvent` only ever meets registered events, and whenever
no fd mutex is held the count is the number of registered events. -/
theorem pending_counts_registered (u : Undefined) (lawful : u.Lawful)
    (reached : Runs.Reaches (step u) (fun m a => AddsNew m a ∧ ReportsFit m a) {} m) :
    0 ≤ m.pendingEventCount ∧ (∀ trigger ∈ m.triggered, trigger.wasSet = true) ∧
      ((∀ fd < m.table.size, (m.table.slot fd).mutex = none) →
        m.pendingEventCount =
          ∑ fd ∈ Finset.range m.table.size, registered (m.table.slot fd).events) := by
  have law : PendingLaw 0 m := by
    refine reached.invariant (PendingLaw 0) pendingLaw_initial fun t a v kept admitted stepped => ?_
    obtain ⟨next, _, same, law⟩ := pendingLaw_move lawful kept admitted.2 (move_of_step stepped)
    rw [← same admitted.1]
    exact law
  refine ⟨law.nonneg, law.genuine, fun free => ?_⟩
  have outside : ∀ fd ∉ Finset.range m.table.size, m.weight fd = 0 := fun fd beyond =>
    if_neg (by simpa using beyond)
  have total := law.counted.eq_sum outside
  rw [Int.sub_zero] at total
  rw [total]
  refine Finset.sum_congr rfl fun fd member => ?_
  have inside := Finset.mem_range.mp member
  rw [weight, if_pos inside, FdContext.owed, free fd inside]

/-- Two events on one fd; a report of both is taken up while both stand. -/
def freshReport : List Action :=
  [.call 1 (.addEvent .READ (some 7) (some 0) 0) 5] ++ List.replicate 7 (.next 1 true) ++
    [.call 1 (.addEvent .WRITE (some 8) (some 0) 0) 5] ++ List.replicate 6 (.next 1 true) ++
    [.wait 2 [.ready 5 0x5]] ++ List.replicate 7 (.next 2 true)

theorem fresh_report_counts_down :
    ∃ m, Runs.run (step .least) {} freshReport = some m ∧ m.triggered.length = 2 ∧
      ∀ trigger ∈ m.triggered, trigger.wasSet = true := by
  have seen : (Runs.run (step .least) {} freshReport).map (fun m => m.triggered.length) =
      some 2 := by
    decide +kernel
  have admitted : Runs.AllSteps (step .least) (fun m a => AddsNew m a ∧ ReportsFit m a) {}
      freshReport := by
    decide +kernel
  obtain ⟨m, replay, length⟩ := Option.map_eq_some_iff.mp seen
  exact ⟨m, replay, length, (pending_counts_registered .least least_lawful
    (Runs.reaches_of_run freshReport replay admitted)).2.1⟩

/-- The report of both waits while `delEvent` takes one of them away. -/
def staleReport : List Action :=
  [.call 1 (.addEvent .READ (some 7) (some 0) 0) 5] ++ List.replicate 7 (.next 1 true) ++
    [.call 1 (.addEvent .WRITE (some 8) (some 0) 0) 5] ++ List.replicate 6 (.next 1 true) ++
    [.wait 2 [.ready 5 0x5], .call 1 (.delEvent .WRITE) 5] ++ List.replicate 6 (.next 1 true) ++
    List.replicate 7 (.next 2 true)

/-- The removed event is triggered and counted down all the same. -/
theorem stale_report_counts_below_zero :
    ∃ m, Runs.run (step .least) {} staleReport = some m ∧
      (∀ fd < m.table.size, (m.table.slot fd).mutex = none) ∧ m.pendingEventCount = -1 ∧
      (∑ fd ∈ Finset.range m.table.size, registered (m.table.slot fd).events) = 0 ∧
      ⟨5, .WRITE, false⟩ ∈ m.triggered := by
  have seen : (Runs.run (step .least) {} staleReport).map (fun m =>
      (decide (∀ fd < m.table.size, (m.table.slot fd).mutex = none), m.pendingEventCount,
        ∑ fd ∈ Finset.range m.table.size, registered (m.table.slot fd).events,
        decide (⟨5, .WRITE, false⟩ ∈ m.triggered))) = some (true, -1, 0, true) := by
    decide +kernel
  obtain ⟨m, replay, same⟩ := Option.map_eq_some_iff.mp seen
  simp only [Prod.mk.injEq, decide_eq_true_eq] at same
  exact ⟨m, replay, same.1, same.2.1, same.2.2.1, same.2.2.2⟩

end IOManager
end Synergy
