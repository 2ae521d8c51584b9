import Mathlib.Data.Int.Notation
import Synergy.SchedulerMoves

/-! The idle and tickle protocol of `synergy/iomanager.cc`. `schedule` pushes
under `m_mutex` and tickles where the queue was empty; `tickle` tests
`m_idleThreadCount` and writes a byte to the pipe; a worker that finds nothing
counts itself idle and waits in `epoll_wait`. Each access to something shared
is a step. What tasks do is left open, and `epoll_wait` may return for other
reasons than the pipe. -/
namespace Synergy

/-- Where a thread goes on behind a call of `tickle`: outside the scheduler, in
a task, in the report loop of `idle`, or in `run` with nothing to do. -/
inductive TickleReturn where
  | outside
  | running
  | reporting
  | dispatching
  deriving DecidableEq, Repr

/-- Where a thread is. From `entering` to `drained` it is in `idle`; a released
worker knows whether the pipe was among the reports. -/
inductive TicklePc where
  | outside
  | running
  | scanning
  | testing (behind : TickleReturn)
  | writing (behind : TickleReturn)
  | dispatching
  | entering
  | waiting
  | released (tickled : Bool)
  | reporting
  | drained
  | leaving
  deriving DecidableEq, Repr

def TickleReturn.pc : TickleReturn → TicklePc
  | .outside => .outside
  | .running => .running
  | .reporting => .reporting
  | .dispatching => .dispatching

/-- Where code that may call `schedule` returns to from there. -/
def TicklePc.caller : TicklePc → Option TickleReturn
  | .outside => some .outside
  | .running => some .running
  | .reporting => some .reporting
  | _ => none

/-- Before the next scan of a worker, or before a byte that will be written. -/
def TicklePc.carries : TicklePc → Bool
  | .outside | .dispatching | .entering | .waiting => false
  | _ => true

/-- What the protocol shares: the task queue, the idle count, and the pipe with
its unread bytes. `edge` says that a byte was written since `epoll_wait` last
reported the read end, which is registered with `EPOLLET`. `members` are the
threads that take part. -/
structure TickleProtocol where
  members : List ThreadId
  tasks : List Entry := []
  ticket : ℕ := 0
  idleThreadCount : ℤ := 0
  pipe : ℕ := 0
  edge : Bool := false
  threads : ThreadId → TicklePc := fun _ => .outside

namespace TickleProtocol

/-- Workers about to scan, and threads outside the scheduler. -/
def initial (workers callers : List ThreadId) : TickleProtocol :=
  { members := workers ++ callers
    threads := fun thread => if thread ∈ workers then .scanning else .outside }

@[simp] def goto (s : TickleProtocol) (thread : ThreadId) (pc : TicklePc) : TickleProtocol :=
  { s with threads := Function.update s.threads thread pc }

/-- The locked section of `schedule`, with `need_tickle` leading to `tickle`. -/
def push (s : TickleProtocol) (thread : ThreadId) (behind : TickleReturn) (fc : FiberOrCb)
    (pin : ℤ) : TickleProtocol :=
  let need_tickle := s.tasks.isEmpty
  let task := ScheduleTask.make fc pin
  let s := if task.isSet then
      { s with tasks := s.tasks ++ [⟨task, s.ticket⟩], ticket := s.ticket + 1 }
    else s
  s.goto thread (if need_tickle then .testing behind else behind.pc)

/-- One pass of `run` over the queue; `runing` are the fibers in that state. -/
def runScan (s : TickleProtocol) (w : ThreadId) (runing : List PiberId) : TickleProtocol :=
  let (found, left, tickle_me) := Scheduler.scan (fun p => decide (p ∈ runing)) w s.tasks
  let behind := if found.isSome then TickleReturn.running else .dispatching
  { s with tasks := if found.isSome then left else s.tasks }.goto w
    (if tickle_me then .testing behind else behind.pc)

/-- The steps: a call of `schedule`, a scan, the end of a task, a return of
`epoll_wait` with or without the pipe, a report of an fd, and the next step of
a thread. -/
inductive Action where
  | push (thread : ThreadId) (fc : FiberOrCb) (pin : ℤ)
  | scan (w : ThreadId) (runing : List PiberId)
  | finish (w : ThreadId)
  | wake (w : ThreadId) (tickled : Bool)
  | next (thread : ThreadId)
  deriving DecidableEq, Repr

/-- The next line of `tickle`, `run` or `idle`. -/
def threadStep (s : TickleProtocol) (thread : ThreadId) : Option TickleProtocol :=
  match s.threads thread with
  | .testing behind =>
    -- `if(!hasIdleThreads()) return;`
    some (s.goto thread (if 0 < s.idleThreadCount then .writing behind else behind.pc))
  | .writing behind =>
    some ({ s with pipe := s.pipe + 1, edge := true }.goto thread behind.pc)
  | .dispatching =>
    some ({ s with idleThreadCount := s.idleThreadCount + 1 }.goto thread .entering)
  | .entering => some (s.goto thread .waiting)
  | .released tickled =>
    -- `while (read(m_tickleFds[0], dummy, sizeof(dummy)) > 0);`
    some ((if tickled then { s with pipe := 0 } else s).goto thread .reporting)
  | .reporting => some (s.goto thread .drained)
  | .drained => some (s.goto thread .leaving)
  | .leaving =>
    some ({ s with idleThreadCount := s.idleThreadCount - 1 }.goto thread .scanning)
  | _ => none

def step (s : TickleProtocol) : Action → Option TickleProtocol
  | .push thread fc pin =>
    match (s.threads thread).caller with
    | some behind => if thread ∈ s.members then some (s.push thread behind fc pin) else none
    | none => none
  | .scan w runing => if s.threads w = .scanning then some (s.runScan w runing) else none
  | .finish w => if s.threads w = .running then some (s.goto w .scanning) else none
  | .wake w tickled =>
    if s.threads w = .waiting ∧ (tickled = true → s.edge = true ∧ 0 < s.pipe) then
      some ({ s with edge := s.edge && !tickled }.goto w (.released tickled))
    else none
  | .next thread => s.threadStep thread

/-- A callback that any thread may take. -/
def Unpinned (it : Entry) : Prop :=
  it.task.thread = -1 ∧ it.task.piber = none ∧ it.task.cb.isSome = true

instance (it : Entry) : Decidable (Unpinned it) := inferInstanceAs (Decidable (_ ∧ _ ∧ _))

/-- A lost wake-up: a worker waits with the pipe empty and nobody about to
write, an unpinned callback is queued, and each thread is outside the scheduler
or inside `idle` before a return of `epoll_wait`. -/
structure Lost (s : TickleProtocol) : Prop where
  blocked : ∃ w ∈ s.members, s.threads w = .waiting
  silent : s.pipe = 0
  queued : ∃ it ∈ s.tasks, Unpinned it
  resting : ∀ v, s.threads v = .outside ∨ s.threads v = .entering ∨ s.threads v = .waiting

/-- Some thread other than these will scan or write, or the pipe holds a byte. -/
def Carried (s : TickleProtocol) (besides : List ThreadId) : Prop :=
  0 < s.pipe ∨ ∃ v ∈ s.members, v ∉ besides ∧ (s.threads v).carries = true

instance (s : TickleProtocol) (besides : List ThreadId) : Decidable (s.Carried besides) :=
  inferInstanceAs (Decidable (_ ∨ _))

/-- The two tests that keep `schedule` silent, on the queue and on the count of
idle threads, each answer no only while an unpinned callback in the queue has
somebody else to find it. -/
def Heard (s : TickleProtocol) : Action → Prop
  | .push _ fc pin => s.tasks ≠ [] → Unpinned ⟨ScheduleTask.make fc pin, s.ticket⟩ → s.Carried []
  | .next thread =>
    ((s.threads thread) = .testing .outside ∨ (s.threads thread) = .testing .dispatching) →
      ¬ 0 < s.idleThreadCount → (∃ it ∈ s.tasks, Unpinned it) → s.Carried [thread]
  | _ => True

instance (s : TickleProtocol) : (a : Action) → Decidable (Heard s a)
  | .push .. | .next _ => inferInstanceAs (Decidable (_ → _))
  | .scan .. | .finish _ | .wake .. => .isTrue trivial

variable {s t : TickleProtocol}

/-- One step, by the line that it is. -/
inductive Move (s : TickleProtocol) : Action → TickleProtocol → Prop where
  | pushed (thread : ThreadId) (fc : FiberOrCb) (pin : ℤ) (behind : TickleReturn)
      (caller : (s.threads thread).caller = some behind) (member : thread ∈ s.members) :
      Move s (.push thread fc pin) (s.push thread behind fc pin)
  | scanned (w : ThreadId) (runing : List PiberId) (pc : s.threads w = .scanning) :
      Move s (.scan w runing) (s.runScan w runing)
  | finished (w : ThreadId) (pc : s.threads w = .running) :
      Move s (.finish w) (s.goto w .scanning)
  | woken (w : ThreadId) (tickled : Bool) (pc : s.threads w = .waiting) :
      Move s (.wake w tickled)
        ({ s with edge := s.edge && !tickled }.goto w (.released tickled))
  | idleSeen (thread : ThreadId) (behind : TickleReturn)
      (pc : s.threads thread = .testing behind) :
      Move s (.next thread) (s.goto thread (.writing behind))
  | noneIdle (thread : ThreadId) (behind : TickleReturn)
      (pc : s.threads thread = .testing behind) (idle : ¬ 0 < s.idleThreadCount) :
      Move s (.next thread) (s.goto thread behind.pc)
  | written (thread : ThreadId) (behind : TickleReturn)
      (pc : s.threads thread = .writing behind) :
      Move s (.next thread) ({ s with pipe := s.pipe + 1, edge := true }.goto thread behind.pc)
  | counted (w : ThreadId) (pc : s.threads w = .dispatching) :
      Move s (.next w) ({ s with idleThreadCount := s.idleThreadCount + 1 }.goto w .entering)
  | waited (w : ThreadId) (pc : s.threads w = .entering) : Move s (.next w) (s.goto w .waiting)
  | emptied (w : ThreadId) (tickled : Bool) (pc : s.threads w = .released tickled) :
      Move s (.next w) ((if tickled then { s with pipe := 0 } else s).goto w .reporting)
  | reported (w : ThreadId) (pc : s.threads w = .reporting) :
      Move s (.next w) (s.goto w .drained)
  | left (w : ThreadId) (pc : s.threads w = .drained) : Move s (.next w) (s.goto w .leaving)
  | uncounted (w : ThreadId) (pc : s.threads w = .leaving) :
      Move s (.next w) ({ s with idleThreadCount := s.idleThreadCount - 1 }.goto w .scanning)

private theorem move_of_next {thread : ThreadId} (stepped : s.threadStep thread = some t) :
    Move s (.next thread) t := by
  unfold threadStep at stepped
  cases pc : s.threads thread with
  | outside | running | scanning | waiting => simp [pc] at stepped
  | testing behind =>
    simp only [pc, Option.some.injEq] at stepped
    subst stepped
    by_cases idle : 0 < s.idleThreadCount
    · rw [if_pos idle]
      exact .idleSeen thread behind pc
    · rw [if_neg idle]
      exact .noneIdle thread behind pc idle
  | writing behind =>
    simp only [pc, Option.some.injEq] at stepped
    subst stepped
    exact .written thread behind pc
  | dispatching =>
    simp only [pc, Option.some.injEq] at stepped
    subst stepped
    exact .counted thread pc
  | entering =>
    simp only [pc, Option.some.injEq] at stepped
    subst stepped
    exact .waited thread pc
  | released tickled =>
    simp only [pc, Option.some.injEq] at stepped
    subst stepped
    exact .emptied thread tickled pc
  | reporting =>
    simp only [pc, Option.some.injEq] at stepped
    subst stepped
    exact .reported thread pc
  | drained =>
    simp only [pc, Option.some.injEq] at stepped
    subst stepped
    exact .left thread pc
  | leaving =>
    simp only [pc, Option.some.injEq] at stepped
    subst stepped
    exact .uncounted thread pc

theorem move_of_step {a : Action} (stepped : step s a = some t) : Move s a t := by
  cases a with
  | push thread fc pin =>
    simp only [step] at stepped
    split at stepped
    · rename_i behind caller
      split at stepped <;> cases stepped
      exact .pushed thread fc pin behind caller ‹_›
    · cases stepped
  | scan w runing =>
    simp only [step] at stepped
    split at stepped <;> cases stepped
    exact .scanned w runing ‹_›
  | finish w =>
    simp only [step] at stepped
    split at stepped <;> cases stepped
    exact .finished w ‹_›
  | wake w tickled =>
    simp only [step] at stepped
    split at stepped <;> cases stepped
    rename_i waiting
    exact .woken w tickled waiting.1
  | next thread => exact move_of_next stepped

/-- What each step keeps: an unpinned callback in the queue is on its way to a
scan, and only members take part. -/
structure Attended (s : TickleProtocol) : Prop where
  carried : (∃ it ∈ s.tasks, Unpinned it) → s.Carried []
  strangers : ∀ v, v ∉ s.members → s.threads v = .outside

theorem unpinned_qualifies {runing : PiberId → Bool} {w : ThreadId} {it : Entry}
    (unpinned : Unpinned it) : Scheduler.Qualifies runing w it := by
  obtain ⟨anywhere, no_piber, -⟩ := unpinned
  refine ⟨.inl anywhere, fun p piber => ?_⟩
  rw [no_piber] at piber
  cases piber

theorem Attended.member {w : ThreadId} (attended : Attended s)
    (inside : s.threads w ≠ .outside) : w ∈ s.members := by
  by_contra stranger
  exact inside (attended.strangers w stranger)

theorem attended_initial (workers callers : List ThreadId) :
    Attended (initial workers callers) where
  carried := by simp [initial]
  strangers v stranger := by
    have idle : v ∉ workers := fun member => stranger (List.mem_append_left _ member)
    simp [initial, idle]

private theorem Attended.strangers_move {thread : ThreadId} (pc : TicklePc)
    (attended : Attended s) (member : thread ∈ s.members) (members : t.members = s.members)
    (threads : t.threads = Function.update s.threads thread pc) :
    ∀ v, v ∉ t.members → t.threads v = .outside := by
  intro v stranger
  rw [members] at stranger
  have apart : v ≠ thread := fun same => stranger (same ▸ member)
  rw [threads, Function.update_of_ne apart]
  exact attended.strangers v stranger

/-- A member moves to a place from which it carries the queue. -/
private theorem Attended.carry {thread : ThreadId} (pc : TicklePc) (attended : Attended s)
    (member : thread ∈ s.members) (members : t.members = s.members)
    (threads : t.threads = Function.update s.threads thread pc) (carries : pc.carries = true) :
    Attended t := by
  refine ⟨fun _ => .inr ⟨thread, by rwa [members], by simp, ?_⟩,
    attended.strangers_move _ member members threads⟩
  rw [threads, Function.update_self]
  exact carries

/-- A member moves on while somebody else carries the queue, if it holds an
unpinned callback. -/
private theorem Attended.leave {thread : ThreadId} (pc : TicklePc) (attended : Attended s)
    (member : thread ∈ s.members) (members : t.members = s.members)
    (threads : t.threads = Function.update s.threads thread pc) (pipe : t.pipe = s.pipe)
    (others : (∃ it ∈ t.tasks, Unpinned it) → s.Carried [thread]) : Attended t := by
  refine ⟨fun queued => ?_, attended.strangers_move _ member members threads⟩
  rcases others queued with byte | ⟨v, inside, apart, carries⟩
  · exact .inl (by rwa [pipe])
  · refine .inr ⟨v, by rwa [members], by simp, ?_⟩
    rw [threads, Function.update_of_ne (by simpa using apart)]
    exact carries

/-- Who carries nothing is not missed. -/
theorem Carried.others {thread : ThreadId} (carried : s.Carried [])
    (empty_handed : (s.threads thread).carries = false) : s.Carried [thread] := by
  rcases carried with byte | ⟨v, inside, -, carries⟩
  · exact .inl byte
  · refine .inr ⟨v, inside, fun same => ?_, carries⟩
    rw [List.mem_singleton.mp same, empty_handed] at carries
    cases carries

theorem caller_pc {pc : TicklePc} {behind : TickleReturn} (caller : pc.caller = some behind) :
    behind.pc = pc := by
  cases pc <;> cases caller <;> rfl

theorem attended_push {thread : ThreadId} {behind : TickleReturn} {fc : FiberOrCb} {pin : ℤ}
    (attended : Attended s) (member : thread ∈ s.members)
    (caller : (s.threads thread).caller = some behind)
    (heard : Heard s (.push thread fc pin)) : Attended (s.push thread behind fc pin) := by
  have back := caller_pc caller
  by_cases empty : s.tasks = []
  · refine attended.carry (.testing behind) member ?_ ?_ rfl
    · simp only [push]
      split <;> rfl
    · simp only [push, empty, List.isEmpty_nil, if_true]
      split <;> rfl
  · have threads : (s.push thread behind fc pin).threads =
        Function.update s.threads thread behind.pc := by
      simp only [push, List.isEmpty_eq_false_iff.mpr empty]
      split <;> rfl
    have members : (s.push thread behind fc pin).members = s.members := by
      simp only [push]
      split <;> rfl
    by_cases carries : behind.pc.carries = true
    · exact attended.carry _ member members threads carries
    · refine attended.leave _ member members threads ?_ fun queued => ?_
      · simp only [push]
        split <;> rfl
      · refine Carried.others ?_ (by rw [← back]; simpa using carries)
        obtain ⟨it, inside, unpinned⟩ := queued
        simp only [push] at inside
        split at inside
        · rcases List.mem_append.mp inside with old | new
          · exact attended.carried ⟨it, old, unpinned⟩
          · rw [List.mem_singleton.mp new] at unpinned
            exact heard empty unpinned
        · exact attended.carried ⟨it, inside, unpinned⟩

theorem attended_scan {w : ThreadId} {runing : List PiberId} (attended : Attended s)
    (scanning : s.threads w = .scanning) : Attended (s.runScan w runing) := by
  have member := attended.member (w := w) (by simp [scanning])
  have scanned := Scheduler.scan_cases (fun p => decide (p ∈ runing)) w s.tasks
  unfold runScan
  generalize Scheduler.scan (fun p => decide (p ∈ runing)) w s.tasks = result at scanned ⊢
  obtain ⟨found, left, tickle_me⟩ := result
  cases found with
  | some it =>
    cases tickle_me with
    | true => exact attended.carry (.testing .running) member rfl rfl rfl
    | false => exact attended.carry .running member rfl rfl rfl
  | none =>
    -- an unpinned callback would have been taken
    have none_queued : ¬ ∃ it ∈ s.tasks, Unpinned it := by
      rintro ⟨it, inside, unpinned⟩
      rcases scanned with ⟨_, _, _, _, found, _⟩ | ⟨-, none_fits⟩
      · cases found
      · exact none_fits it inside (unpinned_qualifies unpinned)
    cases tickle_me with
    | true => exact attended.carry (.testing .dispatching) member rfl rfl rfl
    | false =>
      exact attended.leave .dispatching member rfl rfl rfl fun queued =>
        absurd queued none_queued

theorem attended_step {a : Action} (attended : Attended s) (heard : Heard s a)
    (stepped : step s a = some t) : Attended t := by
  have at_work : ∀ {w pc}, s.threads w = pc → pc ≠ .outside → w ∈ s.members :=
    fun here inside => attended.member (by rwa [here])
  cases move_of_step stepped with
  | pushed thread fc pin behind caller member => exact attended_push attended member caller heard
  | scanned w runing pc => exact attended_scan attended pc
  | finished w pc => exact attended.carry .scanning (at_work pc (by simp)) rfl rfl rfl
  | woken w tickled pc =>
    exact attended.carry (.released tickled) (at_work pc (by simp)) rfl rfl rfl
  | idleSeen thread behind pc =>
    exact attended.carry (.writing behind) (at_work pc (by simp)) rfl rfl rfl
  | noneIdle thread behind pc idle =>
    have member := at_work pc (by simp)
    have threads : (s.goto thread behind.pc).threads =
        Function.update s.threads thread behind.pc := rfl
    cases behind with
    | running => exact attended.carry _ member rfl threads rfl
    | reporting => exact attended.carry _ member rfl threads rfl
    | outside => exact attended.leave _ member rfl threads rfl (heard (.inl pc) idle)
    | dispatching => exact attended.leave _ member rfl threads rfl (heard (.inr pc) idle)
  | written thread behind pc =>
    exact ⟨fun _ => .inl (Nat.succ_pos _),
      attended.strangers_move behind.pc (at_work pc (by simp)) rfl rfl⟩
  | counted w pc =>
    exact attended.leave .entering (at_work pc (by simp)) rfl rfl rfl fun queued =>
      (attended.carried queued).others (by rw [pc]; rfl)
  | waited w pc =>
    exact attended.leave .waiting (at_work pc (by simp)) rfl rfl rfl fun queued =>
      (attended.carried queued).others (by rw [pc]; rfl)
  | emptied w tickled pc =>
    have member := at_work pc (by simp)
    cases tickled <;> exact attended.carry .reporting member rfl rfl rfl
  | reported w pc => exact attended.carry .drained (at_work pc (by simp)) rfl rfl rfl
  | left w pc => exact attended.carry .leaving (at_work pc (by simp)) rfl rfl rfl
  | uncounted w pc => exact attended.carry .scanning (at_work pc (by simp)) rfl rfl rfl

theorem Attended.not_lost (attended : Attended s) : ¬ s.Lost := by
  intro lost
  rcases attended.carried lost.queued with byte | ⟨v, -, -, carries⟩
  · exact absurd lost.silent (by omega)
  · rcases lost.resting v with pc | pc | pc <;> simp [pc, TicklePc.carries] at carries

/-- **No lost wake-up** while each of the two tests stays silent only in front
of somebody who finds the callback. -/
theorem no_wakeup_lost (workers callers : List ThreadId)
    (reached : Runs.Reaches step Heard (initial workers callers) s) : ¬ s.Lost :=
  (reached.invariant Attended (attended_initial workers callers)
    fun _ _ _ attended heard stepped => attended_step attended heard stepped).not_lost

/-- A thread that is outside the scheduler, in a call of `schedule` or not. -/
def outsider : TicklePc → Bool
  | .outside | .testing .outside | .writing .outside => true
  | _ => false

/-- Nobody joins or leaves the workers, and who is no member does nothing. -/
structure SameParty (s t : TickleProtocol) : Prop where
  members : t.members = s.members
  outsiders : ∀ v, outsider (t.threads v) = outsider (s.threads v)
  strangers : ∀ v, v ∉ s.members → s.threads v = .outside → t.threads v = .outside

private theorem sameParty_goto {thread : ThreadId} (pc : TicklePc) (members : t.members = s.members)
    (threads : t.threads = Function.update s.threads thread pc)
    (here : outsider pc = outsider (s.threads thread))
    (member : thread ∈ s.members ∨ s.threads thread ≠ .outside) : SameParty s t := by
  refine ⟨members, fun v => ?_, fun v stranger out => ?_⟩
  · rw [threads]
    by_cases same : v = thread
    · rw [same, Function.update_self, here]
    · rw [Function.update_of_ne same]
  · rw [threads]
    by_cases same : v = thread
    · subst same
      rcases member with member | inside
      · exact absurd member stranger
      · exact absurd out inside
    · rw [Function.update_of_ne same]
      exact out

theorem sameParty_step {a : Action} (stepped : step s a = some t) : SameParty s t := by
  cases move_of_step stepped with
  | pushed thread fc pin behind caller member =>
    have back := caller_pc caller
    refine sameParty_goto (if s.tasks.isEmpty then .testing behind else behind.pc) ?_ ?_ ?_
      (.inl member)
    · simp only [push]
      split <;> rfl
    · simp only [push]
      split <;> rfl
    · rw [← back]
      cases behind <;> split <;> rfl
  | scanned w runing pc =>
    unfold runScan
    generalize Scheduler.scan (fun p => decide (p ∈ runing)) w s.tasks = result
    obtain ⟨found, left, tickle_me⟩ := result
    refine sameParty_goto _ rfl rfl ?_ (.inr (by simp [pc]))
    rw [pc]
    cases found <;> cases tickle_me <;> rfl
  | emptied w tickled pc =>
    cases tickled <;> exact sameParty_goto _ rfl rfl (by rw [pc]; rfl) (.inr (by simp [pc]))
  | noneIdle thread behind pc | written thread behind pc =>
    refine sameParty_goto _ rfl rfl ?_ (.inr (by simp [pc]))
    rw [pc]
    cases behind <;> rfl
  | idleSeen thread behind pc =>
    refine sameParty_goto _ rfl rfl ?_ (.inr (by simp [pc]))
    rw [pc]
    cases behind <;> rfl
  | finished w pc | woken w tickled pc | counted w pc | waited w pc | reported w pc | left w pc
  | uncounted w pc =>
    exact sameParty_goto _ rfl rfl (by rw [pc]; rfl) (.inr (by simp [pc]))

/-- A callback is queued, and nobody comes for it. -/
structure Stranded (s : TickleProtocol) : Prop where
  silent : s.pipe = 0
  queued : ∃ it ∈ s.tasks, Unpinned it
  quiet : ∀ v, (s.threads v).carries = false
  staffed : ∃ w ∈ s.members, s.threads w ≠ .outside

/-- The next line of a thread on its way to `epoll_wait`. -/
private theorem Stranded.next {w : ThreadId} {pc : TicklePc} (stranded : Stranded s)
    (carries : pc.carries = false) (inside : pc ≠ .outside)
    (threads : t.threads = Function.update s.threads w pc) (same : t.pipe = s.pipe)
    (tasks : t.tasks = s.tasks) (members : t.members = s.members) : Stranded t := by
  refine ⟨same.trans stranded.silent, ?_, fun v => ?_, ?_⟩
  · rw [tasks]
    exact stranded.queued
  · rw [threads]
    by_cases here : v = w
    · rw [here, Function.update_self, carries]
    · rw [Function.update_of_ne here]
      exact stranded.quiet v
  · obtain ⟨u, member, at_work⟩ := stranded.staffed
    refine ⟨u, by rwa [members], ?_⟩
    rw [threads]
    by_cases here : u = w
    · rwa [here, Function.update_self]
    · rwa [Function.update_of_ne here]

/-- Each worker of a list goes from its empty scan into `idle`. -/
private theorem Stranded.settle (stranded : Stranded s) (workers : List ThreadId) :
    ∃ t, Runs.Reachable step s t ∧ Stranded t ∧ (∀ v ∈ workers, t.threads v ≠ .dispatching) ∧
      ∀ v, t.threads v = .dispatching → s.threads v = .dispatching := by
  induction workers with
  | nil => exact ⟨s, .refl, stranded, by simp, fun _ => id⟩
  | cons w rest ih =>
    obtain ⟨t, reached, stranded, settled, kept⟩ := ih
    by_cases pc : t.threads w = .dispatching
    · let u := { t with idleThreadCount := t.idleThreadCount + 1 }.goto w .entering
      have stepped : step t (.next w) = some u := by simp [step, threadStep, pc, u]
      refine ⟨u, .next reached trivial stepped, stranded.next rfl (by simp) rfl rfl rfl rfl,
        fun v member => ?_, fun v => ?_⟩
      · by_cases here : v = w
        · simp [u, here]
        · simp only [u, goto, Function.update_of_ne here]
          exact settled v ((List.mem_cons.mp member).resolve_left here)
      · by_cases here : v = w
        · simp [u, here]
        · simp only [u, goto, Function.update_of_ne here]
          exact kept v
    · refine ⟨t, reached, stranded, fun v member => ?_, kept⟩
      rcases List.mem_cons.mp member with rfl | later
      · exact pc
      · exact settled v later

theorem Stranded.loses (stranded : Stranded s)
    (strangers : ∀ v, v ∉ s.members → s.threads v = .outside) :
    ∃ t, Runs.Reachable step s t ∧ t.Lost := by
  obtain ⟨t, reached, stranded, settled, kept⟩ := stranded.settle s.members
  have resting : ∀ v, t.threads v = .outside ∨ t.threads v = .entering ∨
      t.threads v = .waiting := by
    intro v
    have quiet := stranded.quiet v
    have apart : t.threads v ≠ .dispatching := by
      intro pc
      by_cases member : v ∈ s.members
      · exact settled v member pc
      · have out := strangers v member
        rw [kept v pc] at out
        cases out
    cases pc : t.threads v <;> simp_all [TicklePc.carries]
  obtain ⟨w, member, inside⟩ := stranded.staffed
  rcases resting w with pc | pc | pc
  · exact absurd pc inside
  · let u := t.goto w .waiting
    have stepped : step t (.next w) = some u := by simp [step, threadStep, pc, u]
    refine ⟨u, .next reached trivial stepped, ⟨w, member, by simp [u]⟩, stranded.silent,
      stranded.queued, fun v => ?_⟩
    by_cases here : v = w
    · simp [u, here]
    · simp only [u, goto, Function.update_of_ne here]
      exact resting v
  · exact ⟨t, reached, ⟨w, member, pc⟩, stranded.silent, stranded.queued, resting⟩

theorem sameParty_run {workers callers : List ThreadId}
    (reached : Runs.Reachable step (initial workers callers) s) :
    SameParty (initial workers callers) s := by
  apply reached.invariant (SameParty (initial workers callers))
  case start => exact ⟨rfl, fun _ => rfl, fun _ _ => id⟩
  case keeps =>
    intro t a u before _ stepped
    have party := sameParty_step stepped
    refine ⟨party.members.trans before.members,
      fun v => (party.outsiders v).trans (before.outsiders v), fun v stranger out => ?_⟩
    exact party.strangers v (by rwa [before.members]) (before.strangers v stranger out)

/-- Nobody carries anything but the pushing or testing thread, which goes on
empty-handed. -/
private theorem quiet_of_uncarried {thread : ThreadId} (pc : TicklePc) {besides : List ThreadId}
    (alone : ∀ v ∈ besides, v = thread) (uncarried : ¬ s.Carried besides)
    (strangers : ∀ v, v ∉ s.members → s.threads v = .outside) (carries : pc.carries = false)
    (threads : t.threads = Function.update s.threads thread pc) (v : ThreadId) :
    (t.threads v).carries = false := by
  rw [threads]
  by_cases here : v = thread
  · rw [here, Function.update_self, carries]
  · rw [Function.update_of_ne here]
    by_contra busy
    apply uncarried
    refine .inr ⟨v, ?_, fun member => here (alone v member), by simpa using busy⟩
    by_contra stranger
    rw [strangers v stranger] at busy
    exact busy rfl

/-- The condition is exact: behind any step that fails it the workers alone go
on to lose the wake-up. -/
theorem unheard_step_loses {workers callers : List ThreadId} {a : Action} (staffed : workers ≠ [])
    (reached : Runs.Reachable step (initial workers callers) s) (stepped : step s a = some t)
    (unheard : ¬ Heard s a) : ∃ u, Runs.Reachable step t u ∧ u.Lost := by
  have before := sameParty_run reached
  have later := sameParty_run (.next reached trivial stepped)
  have nobody : ∀ v, v ∉ (initial workers callers).members →
      (initial workers callers).threads v = .outside := by
    intro v stranger
    have apart : v ∉ workers := fun member => stranger (List.mem_append_left _ member)
    simp [initial, apart]
  have strangers : ∀ v, v ∉ s.members → s.threads v = .outside := fun v stranger =>
    before.strangers v (by rwa [← before.members]) (nobody v (by rwa [← before.members]))
  have staffed : ∃ w ∈ t.members, t.threads w ≠ .outside := by
    obtain ⟨w, member⟩ := List.exists_mem_of_ne_nil _ staffed
    refine ⟨w, by rw [later.members]; exact List.mem_append_left _ member, fun out => ?_⟩
    have same := later.outsiders w
    simp [out, initial, member, outsider] at same
  have stranded : Stranded t := by
    cases a with
    | scan | finish | wake => exact absurd trivial unheard
    | push thread fc pin =>
      obtain ⟨busy, unpinned, uncarried⟩ := by
        simpa only [Heard, Classical.not_imp] using unheard
      simp only [step] at stepped
      split at stepped
      · rename_i behind caller
        split at stepped <;> cases stepped
        have back := caller_pc caller
        have accepted : (ScheduleTask.make fc pin).isSet = true := by
          simp [ScheduleTask.isSet, unpinned.2.2]
        have threads : (s.push thread behind fc pin).threads =
            Function.update s.threads thread behind.pc := by
          simp [push, accepted, List.isEmpty_eq_false_iff.mpr busy]
        refine ⟨?_, ⟨_, ?_, unpinned⟩, ?_, staffed⟩
        · have silent : ¬ 0 < s.pipe := fun byte => uncarried (.inl byte)
          simpa [push, accepted] using silent
        · simp [push, accepted]
        · apply quiet_of_uncarried _ (by simp) uncarried strangers _ threads
          by_contra carries
          exact uncarried (.inr ⟨thread, ‹_›, by simp, by rw [← back]; simpa using carries⟩)
      · cases stepped
    | next thread =>
      obtain ⟨testing, idle, queued, uncarried⟩ := by
        simpa only [Heard, Classical.not_imp] using unheard
      have silent : ¬ 0 < s.pipe := fun byte => uncarried (.inl byte)
      rcases testing with pc | pc <;>
        simp only [step, threadStep, pc, idle, if_false, Option.some.injEq] at stepped <;>
        subst stepped
      · exact ⟨by simpa using silent, queued,
          quiet_of_uncarried .outside (by simp) uncarried strangers rfl rfl, staffed⟩
      · exact ⟨by simpa using silent, queued,
          quiet_of_uncarried .dispatching (by simp) uncarried strangers rfl rfl, staffed⟩
  apply stranded.loses
  intro v stranger
  rw [later.members] at stranger
  exact later.strangers v stranger (nobody v stranger)

/-- A worker waits, a callback is scheduled from outside, and the byte wakes the
worker, which takes it. -/
def callbackWakes : List Action :=
  [.scan 1 [], .next 1, .next 1, .push 0 (.cb (some 7)) (-1), .next 0, .next 0, .wake 1 true,
    .next 1, .next 1, .next 1, .next 1, .scan 1 []]

theorem waiting_worker_takes_callback :
    ∃ s, Runs.run step (initial [1] [0]) callbackWakes = some s ∧
      s.threads 1 = .running ∧ s.tasks = [] ∧ ¬ s.Lost := by
  have seen : (Runs.run step (initial [1] [0]) callbackWakes).map
      (fun s => (s.threads 1, s.tasks)) = some (.running, []) := by
    decide +kernel
  have admitted : Runs.AllSteps step Heard (initial [1] [0]) callbackWakes := by
    decide +kernel
  obtain ⟨s, replay, same⟩ := Option.map_eq_some_iff.mp seen
  simp only [Prod.mk.injEq] at same
  exact ⟨s, replay, same.1, same.2,
    no_wakeup_lost [1] [0] (Runs.reaches_of_run callbackWakes replay admitted)⟩

/-- The worker has found the queue empty and has not counted itself yet when
the callback is pushed and the count is tested. -/
def callbackBetween : List Action :=
  [.scan 1 [], .push 0 (.cb (some 7)) (-1), .next 0, .next 1, .next 1]

theorem callback_between_scan_and_count_lost :
    ∃ s, Runs.run step (initial [1] [0]) callbackBetween = some s ∧ s.Lost := by
  refine ⟨_, rfl, ⟨1, by decide, rfl⟩, rfl, ⟨_, List.mem_singleton_self _, by decide⟩, fun v => ?_⟩
  by_cases worker : v = 1
  · subst worker
    exact .inr (.inr rfl)
  · by_cases caller : v = 0
    · subst caller
      exact .inl rfl
    · have accepted : (ScheduleTask.make (.cb (some 7)) (-1)).isSet = true := rfl
      exact .inl (by simp [initial, worker, caller, runScan, push, Scheduler.scan, accepted])

end TickleProtocol
end Synergy
