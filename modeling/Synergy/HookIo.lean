import Synergy.HookTimers

/-! `do_io` of `hook.cc`: the loop around the underlying function of every
hooked read and write. Each round may arm a timer, register the event and yield;
the flag of the timers is shared by all rounds. -/
namespace Synergy

/-- What the underlying function returned, with `errno`. -/
structure IoResult where
  n : ℤ
  errno : ℕ
  deriving DecidableEq, Repr

/-- `n == -1` with `errno` either `EINTR` or `EAGAIN`. -/
def IoResult.Retry (r : IoResult) : Prop := r.n = -1 ∧ (r.errno = EINTR ∨ r.errno = EAGAIN)

instance (r : IoResult) : Decidable r.Retry := inferInstanceAs (Decidable (_ ∧ _))

/-- A call of `do_io`: the thread's hook flag, the context of the fd, and which
timeout of it applies. -/
structure IoCall where
  t_hook_enable : Bool
  ctx : Option FdCtx
  timeout_so : TimeoutKind

/-- The lines of `do_io`. A line after the timer was armed has it in hand. -/
inductive IoLine where
  | entering
  | direct
  | calling
  | again
  | adding (timer : Option TimerId)
  | refused (timer : Option TimerId) (errno : ℕ)
  | waiting (timer : Option TimerId)
  | resumed (timer : Option TimerId)
  | checking
  | returned (r : IoResult)
  deriving DecidableEq, Repr

namespace IoLine

def inHand : IoLine → Option TimerId
  | .adding timer | .refused timer _ | .waiting timer | .resumed timer => timer
  | .entering | .direct | .calling | .again | .checking | .returned _ => none

/-- `tinfo` exists from the prologue to the return. -/
def alive : IoLine → Bool
  | .entering | .direct | .returned _ => false
  | .calling | .again | .adding _ | .refused .. | .waiting _ | .resumed _ | .checking => true

/-- The call takes at most this many lines before the next call of the function,
or its return. -/
def ahead : IoLine → ℕ
  | .again => 5
  | .adding _ => 4
  | .waiting _ => 3
  | .resumed _ => 2
  | .entering | .refused .. | .checking => 1
  | .direct | .calling | .returned _ => 0

theorem ahead_le (line : IoLine) : line.ahead ≤ 5 := by
  cases line <;> simp [ahead]

end IoLine

namespace IoCall

/-- The tests before the loop. -/
def enter (c : IoCall) : IoLine :=
  if !c.t_hook_enable then .direct
  else match c.ctx with
    | none => .direct
    | some ctx =>
      if ctx.isClose then .returned ⟨-1, EBADF⟩
      else if !ctx.isSocket || ctx.userNonblock then .direct
      else .calling

/-- `ctx->getTimeout(timeout_so)`. -/
def timeout (c : IoCall) : UInt64 := (c.ctx.map fun ctx => ctx.getTimeout c.timeout_so).getD 0

/-- A blocking socket under the hook. -/
structure Hooked (c : IoCall) : Prop where
  enabled : c.t_hook_enable = true
  blocking : ∃ ctx, c.ctx = some ctx ∧ ctx.isClose = false ∧ ctx.isSocket = true ∧
    ctx.userNonblock = false

theorem Hooked.enter {c : IoCall} (hooked : c.Hooked) : c.enter = .calling := by
  obtain ⟨ctx, found, opened, socket, blocking⟩ := hooked.blocking
  simp [IoCall.enter, hooked.enabled, found, opened, socket, blocking]

theorem enter_ahead (c : IoCall) : c.enter.ahead = 0 := by
  unfold IoCall.enter
  cases c.ctx with
  | none => split <;> rfl
  | some ctx =>
    dsimp only
    split_ifs <;> rfl

theorem enter_inHand (c : IoCall) : c.enter.inHand = none := by
  unfold IoCall.enter
  cases c.ctx with
  | none => split <;> rfl
  | some ctx =>
    dsimp only
    split_ifs <;> rfl

end IoCall

/-- A call of `do_io` among the other users of the timer manager; as history the
results of the underlying function, latest first, and whether `addEvent` failed. -/
structure DoIo where
  timers : CallTimers
  pc : IoLine := .entering
  results : List IoResult := []
  refused : Bool := false

/-- A step of someone else, or the next line of the call with what the system
does there: the result of the function, the reading and address of a new timer,
the `errno` that a failed `addEvent` leaves. -/
inductive IoAction where
  | others (now : UInt64) (call : TimerCall)
  | callback (k : ℕ)
  | enter
  | call (r : IoResult)
  | arm (now : UInt64) (address : ℕ)
  | addEvent (failure : Option ℕ)
  | wake
  | disarm
  | check
  deriving DecidableEq, Repr

/-- The lines of the call, and the wake-up of its fiber. -/
def IoAction.own : IoAction → Bool
  | .others .. | .callback _ => false
  | .enter | .call _ | .arm .. | .addEvent _ | .wake | .disarm | .check => true

namespace DoIo

def initial (start : UInt64) : DoIo := { timers := .initial start }

/-- The tests of a result: `EINTR` calls again, `EAGAIN` waits first. -/
def afterCall (r : IoResult) : IoLine :=
  if r.n = -1 ∧ r.errno = EINTR then .calling
  else if r.n = -1 ∧ r.errno = EAGAIN then .again
  else .returned r

theorem afterCall_cases (r : IoResult) :
    r.Retry ∧ (afterCall r = .calling ∨ afterCall r = .again) ∨
      ¬ r.Retry ∧ afterCall r = .returned r := by
  unfold afterCall IoResult.Retry
  by_cases interrupted : r.n = -1 ∧ r.errno = EINTR
  · exact .inl ⟨⟨interrupted.1, .inl interrupted.2⟩, .inl (if_pos interrupted)⟩
  · by_cases blocked : r.n = -1 ∧ r.errno = EAGAIN
    · refine .inl ⟨⟨blocked.1, .inr blocked.2⟩, .inr ?_⟩
      rw [if_neg interrupted, if_pos blocked]
    · refine .inr ⟨?_, ?_⟩
      · rintro ⟨failed, errno | errno⟩
        · exact interrupted ⟨failed, errno⟩
        · exact blocked ⟨failed, errno⟩
      · rw [if_neg interrupted, if_neg blocked]

theorem afterCall_inHand (r : IoResult) : (afterCall r).inHand = none := by
  unfold afterCall
  split_ifs <;> rfl

/-- The fiber may be scheduled again for any reason while it waits; `cancelEvent`
in the callback is one of them. -/
def step (c : IoCall) (tinfo : ℕ) (s : DoIo) : IoAction → Option DoIo
  | .others now call => (s.timers.others tinfo now call).map fun timers => { s with timers }
  | .callback k =>
    (s.timers.callback tinfo s.pc.alive k).map fun ran => { s with timers := ran.1 }
  | .enter => match s.pc with
    | .entering => some { s with pc := c.enter }
    | _ => none
  | .call r => match s.pc with
    | .direct => some { s with results := r :: s.results, pc := .returned r }
    | .calling => some { s with results := r :: s.results, pc := afterCall r }
    | _ => none
  | .arm now address => match s.pc with
    | .again =>
      if c.timeout != 0xffffffffffffffff then
        (s.timers.arm tinfo c.timeout now address).map fun armed =>
          { s with timers := armed.1, pc := .adding (some armed.2) }
      else some { s with pc := .adding none }
    | _ => none
  | .addEvent failure => match s.pc with
    | .adding timer => match failure with
      | none => some { s with pc := .waiting timer }
      | some errno => some { s with refused := true, pc := .refused timer errno }
    | _ => none
  | .wake => match s.pc with
    | .waiting timer => some { s with pc := .resumed timer }
    | _ => none
  | .disarm => match s.pc with
    | .refused timer errno =>
      (s.timers.disarm timer).map fun timers => { s with timers, pc := .returned ⟨-1, errno⟩ }
    | .resumed timer => (s.timers.disarm timer).map fun timers => { s with timers, pc := .checking }
    | _ => none
  | .check => match s.pc with
    | .checking =>
      if s.timers.cancelled != 0 then
        some { s with pc := .returned ⟨-1, s.timers.cancelled⟩ }
      else some { s with pc := .calling }
    | _ => none

/-- What one step can do to a call. -/
inductive Move (c : IoCall) (tinfo : ℕ) (s : DoIo) : IoAction → DoIo → Prop where
  | others (called : s.timers.others tinfo now call = some after) :
      Move c tinfo s (.others now call) { s with timers := after }
  | callback (ran : s.timers.callback tinfo s.pc.alive k = some (after, cancels)) :
      Move c tinfo s (.callback k) { s with timers := after }
  | enter (here : s.pc = .entering) : Move c tinfo s .enter { s with pc := c.enter }
  | direct (here : s.pc = .direct) :
      Move c tinfo s (.call r) { s with results := r :: s.results, pc := .returned r }
  | call (here : s.pc = .calling) :
      Move c tinfo s (.call r) { s with results := r :: s.results, pc := afterCall r }
  | arm (here : s.pc = .again) (bounded : c.timeout ≠ 0xffffffffffffffff)
      (armed : s.timers.arm tinfo c.timeout now address = some (after, timer)) :
      Move c tinfo s (.arm now address) { s with timers := after, pc := .adding (some timer) }
  | unbounded (here : s.pc = .again) (never : c.timeout = 0xffffffffffffffff) :
      Move c tinfo s (.arm now address) { s with pc := .adding none }
  | added (here : s.pc = .adding timer) :
      Move c tinfo s (.addEvent none) { s with pc := .waiting timer }
  | refuse (here : s.pc = .adding timer) :
      Move c tinfo s (.addEvent (some errno)) { s with refused := true, pc := .refused timer errno }
  | wake (here : s.pc = .waiting timer) : Move c tinfo s .wake { s with pc := .resumed timer }
  | giveUp (here : s.pc = .refused timer errno) (disarmed : s.timers.disarm timer = some after) :
      Move c tinfo s .disarm { s with timers := after, pc := .returned ⟨-1, errno⟩ }
  | disarm (here : s.pc = .resumed timer) (disarmed : s.timers.disarm timer = some after) :
      Move c tinfo s .disarm { s with timers := after, pc := .checking }
  | timedOut (here : s.pc = .checking) (cancelled : s.timers.cancelled ≠ 0) :
      Move c tinfo s .check { s with pc := .returned ⟨-1, s.timers.cancelled⟩ }
  | retry (here : s.pc = .checking) : Move c tinfo s .check { s with pc := .calling }

theorem move_of_step (stepped : step c tinfo s a = some u) : Move c tinfo s a u := by
  cases a with
  | others now call =>
    obtain ⟨timers, called, rfl⟩ := Option.map_eq_some_iff.mp stepped
    exact .others called
  | callback k =>
    obtain ⟨ran, called, rfl⟩ := Option.map_eq_some_iff.mp stepped
    exact .callback called
  | enter =>
    simp only [step] at stepped
    split at stepped <;> cases stepped
    exact .enter (by assumption)
  | call r =>
    simp only [step] at stepped
    split at stepped <;> cases stepped
    · exact .direct (by assumption)
    · exact .call (by assumption)
  | arm now address =>
    simp only [step] at stepped
    split at stepped
    · rename_i here
      by_cases bounded : c.timeout = 0xffffffffffffffff
      · simp only [bounded, bne_self_eq_false, Bool.false_eq_true, ↓reduceIte] at stepped
        cases stepped
        exact .unbounded here bounded
      · rw [if_pos (bne_iff_ne.mpr bounded)] at stepped
        obtain ⟨armed, called, rfl⟩ := Option.map_eq_some_iff.mp stepped
        exact .arm here bounded called
    · cases stepped
  | addEvent failure =>
    simp only [step] at stepped
    split at stepped
    · cases failure <;> cases stepped
      · exact .added (by assumption)
      · exact .refuse (by assumption)
    · cases stepped
  | wake =>
    simp only [step] at stepped
    split at stepped <;> cases stepped
    exact .wake (by assumption)
  | disarm =>
    simp only [step] at stepped
    split at stepped
    · obtain ⟨timers, disarmed, rfl⟩ := Option.map_eq_some_iff.mp stepped
      exact .giveUp (by assumption) disarmed
    · obtain ⟨timers, disarmed, rfl⟩ := Option.map_eq_some_iff.mp stepped
      exact .disarm (by assumption) disarmed
    · cases stepped
  | check =>
    simp only [step] at stepped
    split at stepped
    · rename_i here
      by_cases clear : s.timers.cancelled = 0
      · simp only [clear, bne_self_eq_false, Bool.false_eq_true, ↓reduceIte] at stepped
        cases stepped
        exact .retry here
      · rw [if_pos (bne_iff_ne.mpr clear)] at stepped
        cases stepped
        exact .timedOut here clear
    · cases stepped

/-- The timers of a call are kept, whatever the call finds on its way. -/
theorem timers_move (kept : CallTimers.Kept tinfo s.pc.inHand s.timers) (move : Move c tinfo s a u) :
    CallTimers.Kept tinfo u.pc.inHand u.timers := by
  cases move with
  | others called => exact (kept.others called).1
  | callback ran => exact (kept.callback ran).1
  | enter here =>
    rw [here] at kept
    change CallTimers.Kept tinfo c.enter.inHand s.timers
    rwa [c.enter_inHand]
  | direct here => rwa [here] at kept
  | @call r here =>
    rw [here] at kept
    change CallTimers.Kept tinfo (afterCall r).inHand s.timers
    rwa [afterCall_inHand]
  | arm here bounded armed =>
    rw [here] at kept
    exact (kept.arm armed).1
  | unbounded here never => rwa [here] at kept
  | added here => rwa [here] at kept
  | refuse here => rwa [here] at kept
  | wake here => rwa [here] at kept
  | giveUp here disarmed =>
    rw [here] at kept
    exact (kept.disarm disarmed).1
  | disarm here disarmed =>
    rw [here] at kept
    exact (kept.disarm disarmed).1
  | timedOut here cancelled => rwa [here] at kept
  | retry here => rwa [here] at kept

/-- The call returned what the function said last, and before that only asked to
be called again; or it gave up, for one of two reasons. -/
def Answered (s : DoIo) (r : IoResult) : Prop :=
  (∃ earlier, s.results = r :: earlier ∧ ¬ r.Retry ∧ ∀ e ∈ earlier, e.Retry) ∨
    r.n = -1 ∧ (∀ e ∈ s.results, e.Retry) ∧
      (s.refused = true ∨ r.errno = ETIMEDOUT ∧ ∃ a ∈ s.timers.armed, a.timer ∈ s.timers.ran)

/-- What a hooked call keeps, line by line. -/
structure Retrying (s : DoIo) : Prop where
  hooked : s.pc ≠ .direct
  retried : (∀ r, s.pc ≠ .returned r) → ∀ e ∈ s.results, e.Retry
  noted : ∀ timer errno, s.pc = .refused timer errno → s.refused = true
  answered : ∀ r, s.pc = .returned r → Answered s r

/-- Nothing but the next line and the results matter while the call runs. -/
private theorem Retrying.goto (retrying : Retrying s) (running : ∀ r, s.pc ≠ .returned r)
    (same : u.results = s.results) (hooked : u.pc ≠ .direct) (stays : ∀ r, u.pc ≠ .returned r)
    (noted : ∀ timer errno, u.pc = .refused timer errno → u.refused = true) : Retrying u where
  hooked := hooked
  retried _ := same ▸ retrying.retried running
  noted := noted
  answered r done := absurd done (stays r)

/-- A step of someone else: the histories of the timers only grow. -/
private theorem Retrying.elsewhere (retrying : Retrying s) {after : CallTimers}
    (armed : after.armed = s.timers.armed) (ran : s.timers.ran ⊆ after.ran) :
    Retrying { s with timers := after } where
  hooked := retrying.hooked
  retried := retrying.retried
  noted := retrying.noted
  answered r done := by
    rcases retrying.answered r done with definitive |
      ⟨failed, retried, refused | ⟨errno, a, mine, run⟩⟩
    · exact .inl definitive
    · exact .inr ⟨failed, retried, .inl refused⟩
    · exact .inr ⟨failed, retried, .inr ⟨errno, a, armed.symm ▸ mine, ran run⟩⟩

theorem retrying_initial (start : UInt64) : Retrying (initial start) where
  hooked := nofun
  retried _ := nofun
  noted := nofun
  answered := nofun

theorem retrying_move (hooked : c.Hooked) (kept : CallTimers.Kept tinfo s.pc.inHand s.timers)
    (retrying : Retrying s) (move : Move c tinfo s a u) : Retrying u := by
  cases move with
  | others called =>
    obtain ⟨-, armed, ran⟩ := kept.others called
    exact retrying.elsewhere armed (ran.symm ▸ List.Subset.refl _)
  | callback ran =>
    obtain ⟨-, armed, more⟩ := kept.callback ran
    exact retrying.elsewhere armed more
  | enter here =>
    refine retrying.goto (by simp [here]) rfl ?_ ?_ ?_ <;> simp [hooked.enter]
  | direct here => exact absurd here retrying.hooked
  | @call r here =>
    have retried := retrying.retried (by simp [here])
    rcases afterCall_cases r with ⟨retry, next⟩ | ⟨definitive, next⟩
    · have more : ∀ e ∈ r :: s.results, e.Retry := List.forall_mem_cons.mpr ⟨retry, retried⟩
      rcases next with next | next
      · exact ⟨by simp [next], fun _ => more, by simp [next], by simp [next]⟩
      · exact ⟨by simp [next], fun _ => more, by simp [next], by simp [next]⟩
    · refine ⟨by simp [next], fun running => absurd next (running r), by simp [next], ?_⟩
      intro r' done
      cases next.symm.trans done
      exact .inl ⟨s.results, rfl, definitive, retried⟩
  | arm here bounded armed => exact retrying.goto (by simp [here]) rfl nofun nofun nofun
  | unbounded here never => exact retrying.goto (by simp [here]) rfl nofun nofun nofun
  | added here => exact retrying.goto (by simp [here]) rfl nofun nofun nofun
  | refuse here => exact retrying.goto (by simp [here]) rfl nofun nofun fun _ _ _ => rfl
  | wake here => exact retrying.goto (by simp [here]) rfl nofun nofun nofun
  | @giveUp timer errno after here disarmed =>
    refine ⟨nofun, fun running => absurd rfl (running _), nofun, ?_⟩
    rintro r ⟨⟩
    exact .inr ⟨rfl, retrying.retried (by simp [here]), .inl (retrying.noted timer errno here)⟩
  | disarm here disarmed => exact retrying.goto (by simp [here]) rfl nofun nofun nofun
  | timedOut here cancelled =>
    refine ⟨nofun, fun running => absurd rfl (running _), nofun, ?_⟩
    rintro r ⟨⟩
    obtain ⟨marked, a, mine, run⟩ := kept.timed_out cancelled
    exact .inr ⟨rfl, retrying.retried (by simp [here]), .inr ⟨marked, a, mine, run⟩⟩
  | retry here => exact retrying.goto (by simp [here]) rfl nofun nofun nofun

theorem kept_run (hooked : c.Hooked)
    (reached : Runs.Reachable (step c tinfo) (initial start) s) :
    CallTimers.Kept tinfo s.pc.inHand s.timers ∧ Retrying s :=
  reached.invariant (fun s => CallTimers.Kept tinfo s.pc.inHand s.timers ∧ Retrying s)
    ⟨CallTimers.kept_initial tinfo start, retrying_initial start⟩
    fun _ _ _ both _ stepped =>
      ⟨timers_move both.1 (move_of_step stepped),
        retrying_move hooked both.1 both.2 (move_of_step stepped)⟩

/-- A call that has not returned has a line to go on with. -/
theorem goes_on (kept : CallTimers.Kept tinfo s.pc.inHand s.timers) (retrying : Retrying s)
    (running : ∀ r, s.pc ≠ .returned r) :
    ∃ a u, a.own = true ∧ step c tinfo s a = some u := by
  cases here : s.pc with
  | entering => exact ⟨.enter, _, rfl, by simp only [step, here]; rfl⟩
  | direct => exact absurd here retrying.hooked
  | calling => exact ⟨.call ⟨0, 0⟩, _, rfl, by simp only [step, here]; rfl⟩
  | again =>
    by_cases never : c.timeout = 0xffffffffffffffff
    · exact ⟨.arm 0 0, _, rfl, by simp only [step, here, never]; rfl⟩
    · obtain ⟨address, armed, called⟩ := kept.arm_defined c.timeout 0
      exact ⟨.arm 0 address, _, rfl, by
        simp only [step, here, bne_iff_ne.mpr never, called, ↓reduceIte]; rfl⟩
  | adding timer => exact ⟨.addEvent none, _, rfl, by simp only [step, here]; rfl⟩
  | refused timer errno =>
    rw [here] at kept
    obtain ⟨after, disarmed⟩ := kept.disarm_defined
    exact ⟨.disarm, _, rfl, by simp only [step, here]; exact congrArg _ disarmed⟩
  | waiting timer => exact ⟨.wake, _, rfl, by simp only [step, here]; rfl⟩
  | resumed timer =>
    rw [here] at kept
    obtain ⟨after, disarmed⟩ := kept.disarm_defined
    exact ⟨.disarm, _, rfl, by simp only [step, here]; exact congrArg _ disarmed⟩
  | checking =>
    by_cases clear : s.timers.cancelled = 0
    · exact ⟨.check, _, rfl, by simp only [step, here, clear]; rfl⟩
    · exact ⟨.check, _, rfl, by simp only [step, here, bne_iff_ne.mpr clear, ↓reduceIte]; rfl⟩
  | returned r => exact absurd here (running r)

/-- Each line of the call brings the next call of the function nearer, and what
others do puts nothing off. -/
theorem ahead_move (move : Move c tinfo s a u) :
    (if a.own then 1 else 0) + u.pc.ahead + 6 * s.results.length ≤
      s.pc.ahead + 6 * u.results.length := by
  cases move with
  | others | callback => simp [IoAction.own]
  | enter here =>
    rw [here]
    change 1 + c.enter.ahead + 6 * s.results.length ≤ 1 + 6 * s.results.length
    rw [c.enter_ahead]
  | @direct r here =>
    change 1 + 0 + 6 * s.results.length ≤ s.pc.ahead + 6 * (r :: s.results).length
    rw [List.length_cons]
    omega
  | @call r here =>
    have bound := (afterCall r).ahead_le
    change 1 + (afterCall r).ahead + 6 * s.results.length ≤
      s.pc.ahead + 6 * (r :: s.results).length
    rw [List.length_cons]
    omega
  | arm here | unbounded here | added here | refuse here | wake here | giveUp here | disarm here
  | timedOut here | retry here => simp [here, IoAction.own, IoLine.ahead]

theorem ahead_run (schedule : List IoAction) (ran : Runs.run (step c tinfo) s schedule = some u) :
    schedule.countP IoAction.own + u.pc.ahead + 6 * s.results.length ≤
      s.pc.ahead + 6 * u.results.length := by
  induction schedule generalizing s with
  | nil =>
    cases ran
    simp
  | cons action rest ih =>
    unfold Runs.run at ran
    cases stepped : step c tinfo s action with
    | none => simp [stepped] at ran
    | some t =>
      simp only [stepped] at ran
      have here := ahead_move (move_of_step stepped)
      have later := ih ran
      rw [List.countP_cons]
      omega

/-- A hooked call as its caller sees it. It goes on as long as it runs; and if
the underlying function gives these outcomes, and the one numbered `n` is
definitive, then six lines of the call for each outcome are enough. -/
structure BlockingCall (c : IoCall) (tinfo : ℕ) (s : DoIo) : Prop where
  running : (∀ r, s.pc ≠ .returned r) → (∀ e ∈ s.results, e.Retry) ∧
    ∃ a u, a.own = true ∧ step c tinfo s a = some u
  onward : ∀ schedule u, Runs.run (step c tinfo) s schedule = some u →
    schedule.countP IoAction.own ≤ 6 * (u.results.length - s.results.length) + 5
  finishes : ∀ (outcome : ℕ → IoResult) n, ¬ (outcome n).Retry → ∀ schedule u,
    Runs.run (step c tinfo) s schedule = some u →
    (∀ i < u.results.length, u.results.reverse[i]? = some (outcome i)) →
    6 * (n + 1) ≤ schedule.countP IoAction.own → u.pc = .returned (outcome n)
  returned : ∀ r ∈ s.results, ¬ r.Retry → s.pc = .returned r
  answered : ∀ r, s.pc = .returned r → Answered s r
  disarmed : ∀ r, s.pc = .returned r →
    ∀ a ∈ s.timers.armed, a.timer ∉ s.timers.session.manager.timers

/-- Where the function has answered definitively, that is what was returned. -/
private theorem Retrying.returned (retrying : Retrying s) :
    ∀ r ∈ s.results, ¬ r.Retry → s.pc = .returned r := by
  intro r mine definitive
  by_contra other
  by_cases running : ∀ r, s.pc ≠ .returned r
  · exact definitive (retrying.retried running r mine)
  · obtain ⟨r', done⟩ := not_forall_not.mp running
    rcases retrying.answered r' done with ⟨earlier, results, -, retried⟩ | ⟨-, retried, -⟩
    · rcases List.mem_cons.mp (results ▸ mine) with rfl | before
      · exact other done
      · exact definitive (retried r before)
    · exact definitive (retried r mine)

private theorem onward (schedule : List IoAction)
    (ran : Runs.run (step c tinfo) s schedule = some u) :
    schedule.countP IoAction.own ≤ 6 * (u.results.length - s.results.length) + 5 := by
  have counted := ahead_run schedule ran
  have bound := s.pc.ahead_le
  omega

/-- A read with a timeout of 100 milliseconds. -/
def boundedRead : IoCall where
  t_hook_enable := true
  ctx := some { recvTimeout := 100 }
  timeout_so := .SO_RCVTIMEO

theorem boundedRead_hooked : boundedRead.Hooked := ⟨rfl, _, rfl, rfl, rfl, rfl⟩

/-- The timer of the first round expires just as the fiber is woken; its callback
runs while the second round waits. -/
def lateCallback : List IoAction :=
  [.enter, .call ⟨-1, EINTR⟩, .call ⟨-1, EAGAIN⟩, .arm 10 40, .addEvent none,
    .others 110 (.listExpiredCb 16), .wake, .disarm, .check, .call ⟨-1, EAGAIN⟩, .arm 112 56,
    .addEvent none, .callback 0, .wake, .disarm, .check]

end DoIo
end Synergy
