import Synergy.HookIo
import Synergy.IOManager

/-! `connect_with_timeout` of `hook.cc`. A connect in progress waits for the
socket to become writable; a failed `addEvent`, a report, the timeout and another
fiber's cancellation all lead to one test of `SO_ERROR`. -/
namespace Synergy

/-- A call of `connect_with_timeout`. -/
structure ConnectCall where
  t_hook_enable : Bool
  ctx : Option FdCtx
  timeout_ms : UInt64

/-- The lines of `connect_with_timeout`. -/
inductive ConnectLine where
  | entering
  | direct
  | connecting
  | arming
  | adding (timer : Option TimerId)
  | refused (timer : Option TimerId)
  | waiting (timer : Option TimerId)
  | resumed (timer : Option TimerId)
  | checking
  | asking
  | returned (r : IoResult)
  deriving DecidableEq, Repr

namespace ConnectLine

def inHand : ConnectLine → Option TimerId
  | .adding timer | .refused timer | .waiting timer | .resumed timer => timer
  | .entering | .direct | .connecting | .arming | .checking | .asking | .returned _ => none

/-- `tinfo` exists once the connect is in progress. -/
def alive : ConnectLine → Bool
  | .entering | .direct | .connecting | .returned _ => false
  | .arming | .adding _ | .refused _ | .waiting _ | .resumed _ | .checking | .asking => true

end ConnectLine

/-- The tests before the underlying `connect`. -/
def ConnectCall.enter (c : ConnectCall) : ConnectLine :=
  if !c.t_hook_enable then .direct
  else match c.ctx with
    | none => .returned ⟨-1, EBADF⟩
    | some ctx =>
      if ctx.isClose then .returned ⟨-1, EBADF⟩
      else if !ctx.isSocket then .direct
      else if ctx.userNonblock then .direct
      else .connecting

theorem ConnectCall.enter_cases (c : ConnectCall) :
    c.enter = .direct ∨ c.enter = .connecting ∨ c.enter = .returned ⟨-1, EBADF⟩ := by
  unfold ConnectCall.enter
  cases c.ctx with
  | none => cases c.t_hook_enable <;> simp
  | some ctx =>
    dsimp only
    split_ifs <;> simp

theorem ConnectCall.enter_inHand (c : ConnectCall) : c.enter.inHand = none := by
  rcases c.enter_cases with next | next | next <;> rw [next] <;> rfl

/-- A report that `epoll_wait` gave to an idle loop, which has yet to take it
up: its events, and whether the connect had begun by then. -/
structure Fetched where
  events : EventMask
  sinceConnect : Bool
  deriving DecidableEq, Repr

/-- What triggered the `WRITE` event: a report of epoll, fetched since the connect
began or before, the callback of the timer, or another fiber that called
`cancelEvent` or `cancelAll`. -/
inductive Waker where
  | report (sinceConnect : Bool)
  | timer
  | otherFiber
  deriving DecidableEq, Repr

/-- The `WRITE` event of the fd, as far as this call registers it. Once
triggered it is no longer registered, and the fiber is scheduled. -/
inductive WriteEvent where
  | absent
  | registered
  | triggered (waker : Waker)
  deriving DecidableEq, Repr

/-- A report on which the idle loop triggers a registered `WRITE` event. -/
def Writable (events : EventMask) : Bool :=
  Event.WRITE.isIn (({ events := Event.WRITE.bits } : FdContext).realEvents events)

/-- A call among the other users of the timer manager and of the fd. `unfinished`
is the kernel's side of the connection; `reports` are those of the fd that idle
loops have fetched and not taken up; `cancelling` counts the callbacks between
setting the flag and `cancelEvent`. As history: what `connect` returned, whether
`addEvent` failed, whether a report since then has reached the call, whether a
callback ran before the wake-up, and what `getsockopt` stored. -/
structure Connecting where
  timers : CallTimers
  pc : ConnectLine := .entering
  event : WriteEvent := .absent
  unfinished : Bool := false
  reports : List Fetched := []
  cancelling : ℕ := 0
  connected : Option IoResult := none
  refused : Bool := false
  reported : Bool := false
  ranBefore : Bool := false
  soError : Option ℕ := none

/-- A step of someone else, or the next line of the call with what the system
does there. An idle loop fetches a report, and later takes it up, with the
outcome of its `epoll_ctl`. -/
inductive ConnectAction where
  | others (now : UInt64) (call : TimerCall)
  | callback (k : ℕ)
  | cancelEvent
  | report (events : EventMask)
  | handle (k : ℕ) (ok : Bool)
  | cancel
  | finish
  | enter
  | connect (r : IoResult)
  | arm (now : UInt64) (address : ℕ)
  | addEvent (rt : ℤ)
  | wake
  | disarm
  | check
  | getsockopt (rt : IoResult) (error : ℕ)
  deriving DecidableEq, Repr

namespace Connecting

def initial (start : UInt64) : Connecting := { timers := .initial start }

/-- `triggerEvent(WRITE)`, if it is registered. -/
def trigger (waker : Waker) : WriteEvent → WriteEvent
  | .registered => .triggered waker
  | .absent => .absent
  | .triggered by_whom => .triggered by_whom

/-- After `connect_f`. -/
def afterConnect (r : IoResult) : ConnectLine :=
  if r.n = 0 then .returned r
  else if r.n ≠ -1 ∨ r.errno ≠ EINPROGRESS then .returned r
  else .arming

theorem afterConnect_cases (r : IoResult) :
    afterConnect r = .returned r ∨ r.n ≠ 0 ∧ afterConnect r = .arming := by
  unfold afterConnect
  by_cases done : r.n = 0
  · exact .inl (if_pos done)
  · rw [if_neg done]
    split_ifs
    · exact .inl rfl
    · exact .inr ⟨done, rfl⟩

theorem afterConnect_inHand (r : IoResult) : (afterConnect r).inHand = none := by
  rcases afterConnect_cases r with next | ⟨-, next⟩ <;> rw [next] <;> rfl

/-- After `getsockopt`. -/
def afterGetsockopt (rt : IoResult) (error : ℕ) : IoResult :=
  if rt.n = -1 then ⟨-1, rt.errno⟩
  else if error = 0 then ⟨0, 0⟩
  else ⟨-1, error⟩

def step (c : ConnectCall) (tinfo : ℕ) (s : Connecting) : ConnectAction → Option Connecting
  | .others now call => (s.timers.others tinfo now call).map fun timers => { s with timers }
  | .callback k =>
    (s.timers.callback tinfo s.pc.alive k).map fun ran =>
      { s with timers := ran.1, cancelling := if ran.2 then s.cancelling + 1 else s.cancelling }
  | .cancelEvent =>
    if s.cancelling = 0 then none
    else some { s with cancelling := s.cancelling - 1, event := trigger .timer s.event }
  | .report events =>
    some { s with reports := s.reports ++ [⟨events, s.connected.isSome⟩] }
  | .handle k ok =>
    s.reports[k]?.map fun report =>
      let s := { s with reports := s.reports.eraseIdx k }
      if s.event = .registered ∧ Writable report.events ∧ ok then
        { s with
          event := trigger (.report report.sinceConnect) s.event
          reported := s.reported || report.sinceConnect }
      else s
  | .cancel => some { s with event := trigger .otherFiber s.event }
  | .finish => some { s with unfinished := false }
  | .enter => match s.pc with
    | .entering => some { s with pc := c.enter }
    | _ => none
  | .connect r => match s.pc with
    | .direct => some { s with connected := some r, pc := .returned r }
    | .connecting =>
      some { s with
        connected := some r
        unfinished := decide (afterConnect r = .arming)
        pc := afterConnect r }
    | _ => none
  | .arm now address => match s.pc with
    | .arming =>
      if c.timeout_ms != 0xffffffffffffffff then
        (s.timers.arm tinfo c.timeout_ms now address).map fun armed =>
          { s with timers := armed.1, pc := .adding (some armed.2) }
      else some { s with pc := .adding none }
    | _ => none
  | .addEvent rt => match s.pc with
    | .adding timer =>
      if rt = 0 then some { s with event := .registered, pc := .waiting timer }
      else some { s with refused := true, pc := .refused timer }
    | _ => none
  | .wake => match s.pc, s.event with
    | .waiting timer, .triggered _ =>
      some { s with ranBefore := !s.timers.ran.isEmpty, pc := .resumed timer }
    | _, _ => none
  | .disarm => match s.pc with
    | .refused timer => (s.timers.disarm timer).map fun timers => { s with timers, pc := .asking }
    | .resumed timer => (s.timers.disarm timer).map fun timers => { s with timers, pc := .checking }
    | _ => none
  | .check => match s.pc with
    | .checking =>
      if s.timers.cancelled != 0 then
        some { s with pc := .returned ⟨-1, s.timers.cancelled⟩ }
      else some { s with pc := .asking }
    | _ => none
  | .getsockopt rt error => match s.pc with
    | .asking =>
      -- while the connect is unfinished there is no error yet
      if s.unfinished ∧ rt.n ≠ -1 ∧ error ≠ 0 then none
      else
        some { s with
          soError := if rt.n = -1 then none else some error
          pc := .returned (afterGetsockopt rt error) }
    | _ => none

/-- What one step can do to a call. -/
inductive Move (c : ConnectCall) (tinfo : ℕ) (s : Connecting) : Connecting → Prop where
  | others (called : s.timers.others tinfo now call = some after) :
      Move c tinfo s { s with timers := after }
  | callback (ran : s.timers.callback tinfo s.pc.alive k = some (after, cancels)) :
      Move c tinfo s
        { s with
          timers := after
          cancelling := if cancels then s.cancelling + 1 else s.cancelling }
  | cancelEvent (running : s.cancelling ≠ 0) :
      Move c tinfo s
        { s with cancelling := s.cancelling - 1, event := trigger .timer s.event }
  | report : Move c tinfo s { s with reports := s.reports ++ [⟨events, s.connected.isSome⟩] }
  | unhandled : Move c tinfo s { s with reports := s.reports.eraseIdx k }
  | handled (registered : s.event = .registered) :
      Move c tinfo s
        { s with
          reports := s.reports.eraseIdx k
          event := trigger (.report sinceConnect) s.event
          reported := s.reported || sinceConnect }
  | cancel : Move c tinfo s { s with event := trigger .otherFiber s.event }
  | finish : Move c tinfo s { s with unfinished := false }
  | enter (here : s.pc = .entering) : Move c tinfo s { s with pc := c.enter }
  | direct (here : s.pc = .direct) :
      Move c tinfo s { s with connected := some r, pc := .returned r }
  | connect (here : s.pc = .connecting) :
      Move c tinfo s
        { s with
          connected := some r
          unfinished := decide (afterConnect r = .arming)
          pc := afterConnect r }
  | arm (here : s.pc = .arming)
      (armed : s.timers.arm tinfo c.timeout_ms now address = some (after, timer)) :
      Move c tinfo s { s with timers := after, pc := .adding (some timer) }
  | unbounded (here : s.pc = .arming) : Move c tinfo s { s with pc := .adding none }
  | added (here : s.pc = .adding timer) :
      Move c tinfo s { s with event := .registered, pc := .waiting timer }
  | refuse (here : s.pc = .adding timer) :
      Move c tinfo s { s with refused := true, pc := .refused timer }
  | wake (here : s.pc = .waiting timer) (triggered : s.event = .triggered waker) :
      Move c tinfo s { s with ranBefore := !s.timers.ran.isEmpty, pc := .resumed timer }
  | giveUp (here : s.pc = .refused timer) (disarmed : s.timers.disarm timer = some after) :
      Move c tinfo s { s with timers := after, pc := .asking }
  | disarm (here : s.pc = .resumed timer) (disarmed : s.timers.disarm timer = some after) :
      Move c tinfo s { s with timers := after, pc := .checking }
  | timedOut (here : s.pc = .checking) (cancelled : s.timers.cancelled ≠ 0) :
      Move c tinfo s { s with pc := .returned ⟨-1, s.timers.cancelled⟩ }
  | ask (here : s.pc = .checking) (clear : s.timers.cancelled = 0) :
      Move c tinfo s { s with pc := .asking }
  | getsockopt (here : s.pc = .asking) :
      Move c tinfo s
        { s with
          soError := if rt.n = -1 then none else some error
          pc := .returned (afterGetsockopt rt error) }

theorem move_of_step (stepped : step c tinfo s a = some u) : Move c tinfo s u := by
  cases a with
  | others now call =>
    obtain ⟨timers, called, rfl⟩ := Option.map_eq_some_iff.mp stepped
    exact .others called
  | callback k =>
    obtain ⟨ran, called, rfl⟩ := Option.map_eq_some_iff.mp stepped
    exact .callback called
  | cancelEvent =>
    simp only [step] at stepped
    split at stepped <;> cases stepped
    exact .cancelEvent (by assumption)
  | report events =>
    cases stepped
    exact .report
  | handle k ok =>
    obtain ⟨report, found, rfl⟩ := Option.map_eq_some_iff.mp stepped
    dsimp only
    split
    · rename_i both
      exact .handled both.1
    · exact .unhandled
  | cancel =>
    cases stepped
    exact .cancel
  | finish =>
    cases stepped
    exact .finish
  | enter =>
    simp only [step] at stepped
    split at stepped <;> cases stepped
    exact .enter (by assumption)
  | connect r =>
    simp only [step] at stepped
    split at stepped <;> cases stepped
    · exact .direct (by assumption)
    · exact .connect (by assumption)
  | arm now address =>
    simp only [step] at stepped
    split at stepped
    · rename_i here
      split at stepped
      · obtain ⟨armed, called, rfl⟩ := Option.map_eq_some_iff.mp stepped
        exact .arm here called
      · cases stepped
        exact .unbounded here
    · cases stepped
  | addEvent rt =>
    simp only [step] at stepped
    split at stepped
    · split at stepped <;> cases stepped
      · exact .added (by assumption)
      · exact .refuse (by assumption)
    · cases stepped
  | wake =>
    simp only [step] at stepped
    split at stepped <;> cases stepped
    exact .wake (by assumption) (by assumption)
  | disarm =>
    simp only [step] at stepped
    split at stepped
    · obtain ⟨timers, disarmed, rfl⟩ := Option.map_eq_some_iff.mp stepped
      exact .giveUp (by assumption) disarmed
    · obtain ⟨timers, disarmed, rfl⟩ := Option.map_eq_some_iff.mp stepped
      exact .disarm (by assumption) disarmed
    · cases stepped
  | check =>
    simp only [step] at stepped
    split at stepped
    · rename_i here
      by_cases clear : s.timers.cancelled = 0
      · simp only [clear, bne_self_eq_false, Bool.false_eq_true, ↓reduceIte] at stepped
        cases stepped
        exact .ask here clear
      · rw [if_pos (bne_iff_ne.mpr clear)] at stepped
        cases stepped
        exact .timedOut here clear
    · cases stepped
  | getsockopt rt error =>
    simp only [step] at stepped
    split at stepped
    · split at stepped <;> cases stepped
      exact .getsockopt (by assumption)
    · cases stepped

/-- The timers of a call are kept, whatever the call finds on its way. -/
theorem timers_move (kept : CallTimers.Kept tinfo s.pc.inHand s.timers) (move : Move c tinfo s u) :
    CallTimers.Kept tinfo u.pc.inHand u.timers := by
  cases move with
  | others called => exact (kept.others called).1
  | callback ran => exact (kept.callback ran).1
  | cancelEvent | report | unhandled | handled | cancel | finish => exact kept
  | enter here =>
    rw [here] at kept
    change CallTimers.Kept tinfo c.enter.inHand s.timers
    rwa [c.enter_inHand]
  | @connect r here =>
    rw [here] at kept
    change CallTimers.Kept tinfo (afterConnect r).inHand s.timers
    rwa [afterConnect_inHand]
  | arm here armed =>
    rw [here] at kept
    exact (kept.arm armed).1
  | giveUp here disarmed =>
    rw [here] at kept
    exact (kept.disarm disarmed).1
  | disarm here disarmed =>
    rw [here] at kept
    exact (kept.disarm disarmed).1
  | direct here | unbounded here | added here | refuse here | wake here triggered
    | timedOut here cancelled | ask here clear | getsockopt here => rwa [here] at kept

/-- The underlying `connect` did not return 0. -/
def Failed (s : Connecting) : Prop := ∀ r, s.connected = some r → r.n ≠ 0

/-- The ways to the test of `SO_ERROR`. -/
def Joined (s : Connecting) : Prop :=
  s.refused = true ∧ s.event = .absent ∨
    s.refused = false ∧ ∃ waker, waker ≠ .timer ∧ s.event = .triggered waker

/-- A result is that of the underlying `connect` or a failure, or else it says
what `SO_ERROR` said. -/
def Outcome (s : Connecting) (r : IoResult) : Prop :=
  s.soError = none ∧ (r.n = 0 → ∃ q, s.connected = some q ∧ q.n = 0) ∨
    ∃ error, s.soError = some error ∧ (r.n = 0 ↔ error = 0) ∧ Failed s ∧ Joined s

/-- What holds at each line. -/
def Stage (s : Connecting) : Prop :=
  match s.pc with
  | .entering | .direct | .connecting => s.event = .absent ∧ s.refused = false
  | .arming | .adding _ => s.event = .absent ∧ s.refused = false ∧ Failed s
  | .refused _ => s.event = .absent ∧ s.refused = true ∧ Failed s
  | .waiting _ => s.event ≠ .absent ∧ s.refused = false ∧ Failed s
  | .resumed _ | .checking => (∃ waker, s.event = .triggered waker) ∧ s.refused = false ∧ Failed s
  | .asking => Joined s ∧ Failed s
  | .returned r => Outcome s r

/-- Where a call can be whose callback ran before the wake-up. -/
def TimesOut : ConnectLine → Prop
  | .resumed _ | .checking => True
  | .returned r => r = ⟨-1, ETIMEDOUT⟩
  | _ => False

/-- The lines a call passes before it waits, or in place of the wait. -/
def BeforeWake : ConnectLine → Prop
  | .entering | .direct | .connecting | .arming | .adding _ | .refused _ => True
  | .waiting _ | .resumed _ | .checking | .asking | .returned _ => False

/-- What a call keeps up to the join and behind it. -/
structure Joins (s : Connecting) : Prop where
  stage : Stage s
  unasked : (∀ r, s.pc ≠ .returned r) → s.soError = none
  registered : s.event = .registered → ∃ timer, s.pc = .waiting timer
  reported : s.reported = true ↔ s.event = .triggered (.report true)
  marked : s.event = .triggered .timer → s.timers.cancelled ≠ 0
  cancelling : s.cancelling ≠ 0 → s.timers.cancelled ≠ 0
  timesOut : s.ranBefore = true → s.timers.cancelled ≠ 0 ∧ TimesOut s.pc

theorem joins_initial (start : UInt64) : Joins (initial start) where
  stage := ⟨rfl, rfl⟩
  unasked _ := rfl
  registered := nofun
  reported := by simp [initial]
  marked := nofun
  cancelling := nofun
  timesOut := nofun

/-- A step on the timers leaves the flag as it is, or sets it. -/
private theorem Joins.elsewhere (joins : Joins s) {after : CallTimers} {cancelling : ℕ}
    (flag : s.timers.cancelled ≠ 0 → after.cancelled ≠ 0)
    (counts : cancelling ≠ 0 → after.cancelled ≠ 0) :
    Joins { s with timers := after, cancelling } where
  stage := joins.stage
  unasked := joins.unasked
  registered := joins.registered
  reported := joins.reported
  marked triggered := flag (joins.marked triggered)
  cancelling := counts
  timesOut before := ⟨flag (joins.timesOut before).1, (joins.timesOut before).2⟩

/-- The registered event is triggered, by a report or not. -/
private theorem Joins.trigger (joins : Joins s) (registered : s.event = .registered)
    (waker : Waker) (marked : waker = .timer → s.timers.cancelled ≠ 0) {reported : Bool}
    {reports : List Fetched} (same : reported = true ↔ waker = .report true) :
    Joins { s with event := .triggered waker, reported, reports } := by
  obtain ⟨timer, here⟩ := joins.registered registered
  have stage := joins.stage
  simp only [Stage, here] at stage
  refine ⟨?_, joins.unasked, nofun, ?_, ?_, joins.cancelling, joins.timesOut⟩
  · simp only [Stage, here]
    exact ⟨nofun, stage.2⟩
  · simpa using same
  · intro triggered
    cases triggered
    exact marked rfl

theorem trigger_idle {e : WriteEvent} (idle : e ≠ .registered) (waker : Waker) :
    trigger waker e = e := by
  cases e with
  | registered => exact absurd rfl idle
  | absent | triggered => rfl

/-- Someone else's `triggerEvent`, whether or not the event is registered. -/
private theorem Joins.cancelled (joins : Joins s) (waker : Waker)
    (other : ∀ sinceConnect, waker ≠ .report sinceConnect)
    (marked : waker = .timer → s.timers.cancelled ≠ 0) :
    Joins { s with event := Connecting.trigger waker s.event } := by
  by_cases registered : s.event = .registered
  · have unreported : s.reported = true ↔ waker = .report true := by
      rw [joins.reported, registered]
      simp [other]
    rw [registered]
    exact joins.trigger registered waker marked unreported
  · rw [trigger_idle registered]
    exact joins

/-- A line of the call itself triggers nothing. -/
private theorem Joins.line (joins : Joins s) {u : Connecting}
    (flag : s.timers.cancelled ≠ 0 → u.timers.cancelled ≠ 0)
    (same : u.cancelling = s.cancelling ∧ u.reported = s.reported)
    (triggers : ∀ waker, u.event = .triggered waker ↔ s.event = .triggered waker)
    (stage : Stage u) (unasked : (∀ r, u.pc ≠ .returned r) → u.soError = none)
    (registered : u.event = .registered → ∃ timer, u.pc = .waiting timer)
    (timesOut : u.ranBefore = true → u.timers.cancelled ≠ 0 ∧ TimesOut u.pc) : Joins u where
  stage := stage
  unasked := unasked
  registered := registered
  reported := by rw [same.2, joins.reported, triggers]
  marked triggered := flag (joins.marked ((triggers _).mp triggered))
  cancelling counts := flag (joins.cancelling (same.1 ▸ counts))
  timesOut := timesOut

/-- The event is registered only while the fiber waits. -/
theorem Joins.idle (joins : Joins s) (elsewhere : ∀ timer, s.pc ≠ .waiting timer) :
    s.event ≠ .registered := by
  intro registered
  obtain ⟨timer, here⟩ := joins.registered registered
  exact elsewhere timer here

/-- A line before the wake-up, which leaves the event alone. -/
private theorem Joins.early (joins : Joins s) {after : CallTimers} {old pc : ConnectLine}
    {connected : Option IoResult} {unfinished refused : Bool} (here : s.pc = old)
    (before : BeforeWake old) (flag : s.timers.cancelled ≠ 0 → after.cancelled ≠ 0)
    (stage : Stage { s with timers := after, pc, connected, unfinished, refused }) :
    Joins { s with timers := after, pc, connected, unfinished, refused } := by
  have running : ∀ r, s.pc ≠ .returned r := by
    rintro r done
    rw [← here, done] at before
    exact before
  have elsewhere : ∀ timer, s.pc ≠ .waiting timer := by
    rintro timer waiting
    rw [← here, waiting] at before
    exact before
  have inTime : ¬ TimesOut s.pc := by
    rw [here]
    cases old <;> first | exact before.elim | exact id
  exact joins.line flag ⟨rfl, rfl⟩ (fun _ => Iff.rfl) stage (fun _ => joins.unasked running)
    (fun registered => absurd registered (joins.idle elsewhere))
    (fun ran => absurd (joins.timesOut ran).2 inTime)

theorem joins_move (kept : CallTimers.Kept tinfo s.pc.inHand s.timers) (joins : Joins s)
    (move : Move c tinfo s u) : Joins u := by
  have stage := joins.stage
  have later := timers_move kept move
  cases move with
  | others called =>
    have ran := (kept.others called).2.2
    have flag := kept.still_cancelled later (ran.symm ▸ List.Subset.refl _)
    exact joins.elsewhere flag fun counts => flag (joins.cancelling counts)
  | @callback k after cancels run =>
    have flag := kept.still_cancelled later (kept.callback run).2.2
    refine joins.elsewhere flag fun counts => ?_
    cases cancels with
    | true => exact CallTimers.callback_cancels run
    | false => exact flag (joins.cancelling counts)
  | cancelEvent running =>
    have triggered := joins.cancelled .timer nofun fun _ => joins.cancelling running
    exact { triggered with cancelling := fun _ => joins.cancelling running }
  | report | unhandled => exact { joins with stage := joins.stage }
  | @handled sinceConnect k registered =>
    have unreported : s.reported = false := by
      have seen := joins.reported
      simp only [registered, reduceCtorEq, iff_false, Bool.not_eq_true] at seen
      exact seen
    rw [registered]
    refine joins.trigger registered (.report sinceConnect) nofun ?_
    simp [unreported]
  | cancel => exact joins.cancelled .otherFiber nofun nofun
  | finish => exact { joins with stage := joins.stage }
  | enter here =>
    simp only [Stage, here] at stage
    refine joins.early here trivial id ?_
    rcases c.enter_cases with next | next | next <;> simp only [Stage, next]
    · exact stage
    · exact stage
    · exact .inl ⟨joins.unasked (by simp [here]), nofun⟩
  | @direct r here =>
    simp only [Stage, here] at stage
    exact joins.early here trivial id
      (.inl ⟨joins.unasked (by simp [here]), fun zero => ⟨r, rfl, zero⟩⟩)
  | @connect r here =>
    simp only [Stage, here] at stage
    refine joins.early here trivial id ?_
    rcases afterConnect_cases r with next | ⟨failed, next⟩ <;> simp only [Stage, next]
    · exact .inl ⟨joins.unasked (by simp [here]), fun zero => ⟨r, rfl, zero⟩⟩
    · refine ⟨stage.1, stage.2, fun q same => ?_⟩
      cases same
      exact failed
  | arm here armed =>
    simp only [Stage, here] at stage
    rw [here] at kept
    have ran := (CallTimers.Kept.arm kept armed).2.2
    have flag := kept.still_cancelled later (ran.symm ▸ List.Subset.refl _)
    exact joins.early here trivial flag stage
  | unbounded here =>
    simp only [Stage, here] at stage
    exact joins.early here trivial id stage
  | @added timer here =>
    simp only [Stage, here] at stage
    refine joins.line id ⟨rfl, rfl⟩ (by simp [stage.1]) ⟨nofun, stage.2⟩
      (fun _ => joins.unasked (by simp [here])) (fun _ => ⟨timer, rfl⟩)
      (fun ran => absurd (joins.timesOut ran).2 (by simp [here, TimesOut]))
  | refuse here =>
    simp only [Stage, here] at stage
    exact joins.early here trivial id
      ⟨stage.1, rfl, stage.2.2⟩
  | @wake timer waker here triggered =>
    simp only [Stage, here] at stage
    refine joins.line id ⟨rfl, rfl⟩ (fun _ => Iff.rfl) ⟨⟨waker, triggered⟩, stage.2⟩
      (fun _ => joins.unasked (by simp [here])) (by simp [triggered]) fun ran => ⟨?_, trivial⟩
    exact kept.cancelled_iff.mpr (by simpa using ran)
  | giveUp here disarmed =>
    simp only [Stage, here] at stage
    rw [here] at kept
    have ran := (CallTimers.Kept.disarm kept disarmed).2.2
    have flag := kept.still_cancelled later (ran.symm ▸ List.Subset.refl _)
    exact joins.early here trivial flag
      ⟨.inl ⟨stage.2.1, stage.1⟩, stage.2.2⟩
  | disarm here disarmed =>
    simp only [Stage, here] at stage
    rw [here] at kept
    have ran := (CallTimers.Kept.disarm kept disarmed).2.2
    have flag := kept.still_cancelled later (ran.symm ▸ List.Subset.refl _)
    exact joins.line flag ⟨rfl, rfl⟩ (fun _ => Iff.rfl) stage
      (fun _ => joins.unasked (by simp [here])) (fun registered => absurd registered
        (joins.idle (by simp [here]))) fun before => ⟨flag (joins.timesOut before).1, trivial⟩
  | timedOut here cancelled =>
    have marked := (kept.timed_out cancelled).1
    refine joins.line id ⟨rfl, rfl⟩ (fun _ => Iff.rfl)
      (.inl ⟨joins.unasked (by simp [here]), nofun⟩) (fun running => absurd rfl (running _))
      (fun registered => absurd registered (joins.idle (by simp [here])))
      fun _ => ⟨cancelled, ?_⟩
    rw [marked]
    rfl
  | ask here clear =>
    simp only [Stage, here] at stage
    obtain ⟨⟨waker, triggered⟩, unrefused, failed⟩ := stage
    have other : waker ≠ .timer := by
      rintro rfl
      exact joins.marked triggered clear
    exact joins.line id ⟨rfl, rfl⟩ (fun _ => Iff.rfl)
      ⟨.inr ⟨unrefused, waker, other, triggered⟩, failed⟩
      (fun _ => joins.unasked (by simp [here])) (by simp [triggered])
      fun before => absurd clear (joins.timesOut before).1
  | @getsockopt rt error here =>
    simp only [Stage, here] at stage
    refine joins.line id ⟨rfl, rfl⟩ (fun _ => Iff.rfl) ?_ (fun running => absurd rfl (running _))
      (fun registered => absurd registered (joins.idle (by simp [here])))
      (fun ran => absurd (joins.timesOut ran).2 (by simp [here, TimesOut]))
    by_cases failed : rt.n = -1
    · have result : afterGetsockopt rt error = ⟨-1, rt.errno⟩ := if_pos failed
      simp only [Stage, result]
      exact .inl ⟨if_pos failed, nofun⟩
    · refine .inr ⟨error, if_neg failed, ?_, stage.2, stage.1⟩
      unfold afterGetsockopt
      by_cases clear : error = 0 <;> simp [failed, clear]

theorem joins_run (reached : Runs.Reachable (step c tinfo) (initial start) s) :
    CallTimers.Kept tinfo s.pc.inHand s.timers ∧ Joins s :=
  reached.invariant (fun s => CallTimers.Kept tinfo s.pc.inHand s.timers ∧ Joins s)
    ⟨CallTimers.kept_initial tinfo start, joins_initial start⟩
    fun _ _ _ both _ stepped =>
      ⟨timers_move both.1 (move_of_step stepped), joins_move both.1 both.2 (move_of_step stepped)⟩

/-- What a caller may conclude from a result, and what the call leaves behind. -/
structure Honest (s : Connecting) (r : IoResult) : Prop where
  success : r.n = 0 → (∃ q, s.connected = some q ∧ q.n = 0) ∨
    s.reported = true ∧ s.soError = some 0
  timedOut : s.ranBefore = true → r = ⟨-1, ETIMEDOUT⟩
  disarmed : ∀ a ∈ s.timers.armed, a.timer ∉ s.timers.session.manager.timers

/-- `SO_ERROR` was read as 0 though the event was never registered, or though the
wait was ended by another fiber or by a report from before the connect. -/
def Unawaited (s : Connecting) : Prop :=
  s.soError = some 0 ∧ (s.refused = true ∨ s.event = .triggered .otherFiber ∨
    s.event = .triggered (.report false))

instance (s : Connecting) : Decidable (Unawaited s) := inferInstanceAs (Decidable (_ ∧ (_ ∨ _)))

/-- A call that returns is honest exactly if it waited for the report before it
took `SO_ERROR` for an answer. -/
theorem honest_iff_awaited (start : UInt64)
    (reached : Runs.Reachable (step c tinfo) (initial start) s) (done : s.pc = .returned r) :
    Honest s r ↔ ¬ Unawaited s := by
  obtain ⟨kept, joins⟩ := joins_run reached
  have outcome := joins.stage
  simp only [Stage, done] at outcome
  constructor
  · rintro honest ⟨asked, unawaited⟩
    rcases outcome with ⟨unasked, -⟩ | ⟨error, same, zero, failed, joined⟩
    · cases asked.symm.trans unasked
    · cases asked.symm.trans same
      rcases honest.success (zero.mpr rfl) with ⟨q, connected, succeeded⟩ | ⟨reported, -⟩
      · exact failed q connected succeeded
      · have report := joins.reported.mp reported
        rcases unawaited with refused | other | older
        · rcases joined with ⟨-, absent⟩ | ⟨added, -⟩
          · cases absent.symm.trans report
          · cases added.symm.trans refused
        · cases other.symm.trans report
        · cases older.symm.trans report
  · intro awaited
    refine ⟨fun zero => ?_, fun before => ?_, ?_⟩
    · rcases outcome with ⟨-, connected⟩ | ⟨error, same, clear, -, joined⟩
      · exact .inl (connected zero)
      · rw [clear.mp zero] at same
        rcases joined with ⟨refused, -⟩ | ⟨-, waker, untimed, triggered⟩
        · exact absurd ⟨same, .inl refused⟩ awaited
        · cases waker with
          | report sinceConnect =>
            cases sinceConnect with
            | true => exact .inr ⟨joins.reported.mpr triggered, same⟩
            | false => exact absurd ⟨same, .inr (.inr triggered)⟩ awaited
          | timer => exact absurd rfl untimed
          | otherFiber => exact absurd ⟨same, .inr (.inl triggered)⟩ awaited
    · have late := (joins.timesOut before).2
      rw [done] at late
      exact late
    · rw [done] at kept
      exact kept.none_pending

/-- A connect with the default timeout. -/
def defaultConnect : ConnectCall where
  t_hook_enable := true
  ctx := some {}
  timeout_ms := 5000

/-- An older report does not concern the event, and another fiber cancels too
late; the report came first. -/
def reportedInTime : List ConnectAction :=
  [.report Epoll.EPOLLIN, .enter, .connect ⟨-1, EINPROGRESS⟩, .arm 10 40, .addEvent 0, .finish,
    .report Epoll.EPOLLOUT, .handle 0 true, .handle 0 true, .cancel, .wake, .disarm, .check,
    .getsockopt ⟨0, 0⟩ 0]

theorem reported_in_time_is_honest :
    ∃ s, Runs.run (step defaultConnect 7) (initial 5) reportedInTime = some s ∧
      s.pc = .returned ⟨0, 0⟩ ∧ Honest s ⟨0, 0⟩ := by
  have ran : Runs.run (step defaultConnect 7) (initial 5) reportedInTime = some _ := rfl
  exact ⟨_, ran, rfl, (honest_iff_awaited 5 (Runs.reachable_of_run reportedInTime ran) rfl).mpr
    (by decide)⟩

/-- `addEvent` fails, and the connect is still going on. -/
def refusedEvent : List ConnectAction :=
  [.enter, .connect ⟨-1, EINPROGRESS⟩, .arm 10 40, .addEvent (-1), .disarm, .getsockopt ⟨0, 0⟩ 0]

/-- Another fiber cancels the event while the connect is going on. -/
def cancelledWait : List ConnectAction :=
  [.enter, .connect ⟨-1, EINPROGRESS⟩, .arm 10 40, .addEvent 0, .cancel, .wake, .disarm, .check,
    .getsockopt ⟨0, 0⟩ 0]

/-- An idle loop fetched its report before the connect, and takes it up behind
`addEvent`. -/
def olderReport : List ConnectAction :=
  [.report Epoll.EPOLLOUT, .enter, .connect ⟨-1, EINPROGRESS⟩, .arm 10 40, .addEvent 0,
    .handle 0 true, .wake, .disarm, .check, .getsockopt ⟨0, 0⟩ 0]

/-- The call succeeded, and the connection is not there yet. -/
def Pretended (s : Connecting) : Prop :=
  s.pc = .returned ⟨0, 0⟩ ∧ s.unfinished = true ∧ s.reported = false ∧ ¬ Honest s ⟨0, 0⟩

theorem pretended_of_failed {s : Connecting} (done : s.pc = .returned ⟨0, 0⟩)
    (unfinished : s.unfinished = true) (unreported : s.reported = false)
    (failed : s.connected = some ⟨-1, EINPROGRESS⟩) : Pretended s := by
  refine ⟨done, unfinished, unreported, fun honest => ?_⟩
  rcases honest.success rfl with ⟨q, connected, succeeded⟩ | ⟨reported, -⟩
  · cases failed.symm.trans connected
    cases succeeded
  · cases unreported.symm.trans reported

theorem unfinished_connects_succeed :
    (∃ s, Runs.run (step defaultConnect 7) (initial 5) refusedEvent = some s ∧ Pretended s) ∧
      (∃ s, Runs.run (step defaultConnect 7) (initial 5) cancelledWait = some s ∧ Pretended s) ∧
      ∃ s, Runs.run (step defaultConnect 7) (initial 5) olderReport = some s ∧ Pretended s :=
  ⟨⟨_, rfl, pretended_of_failed rfl rfl rfl rfl⟩, ⟨_, rfl, pretended_of_failed rfl rfl rfl rfl⟩,
    _, rfl, pretended_of_failed rfl rfl rfl rfl⟩

end Connecting
end Synergy
