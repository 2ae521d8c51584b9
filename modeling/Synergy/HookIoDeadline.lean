import Synergy.HookIo

/-! The timeout of a hooked call. `do_io` keeps no account of the time it has
spent: each round arms a timer with the whole timeout again. -/
namespace Synergy.DoIo

/-- The clock does not go back. -/
def Forward (s : DoIo) : IoAction → Prop
  | .others now _ | .arm now _ => s.timers.session.clock ≤ now
  | .callback _ | .enter | .call _ | .addEvent _ | .wake | .disarm | .check => True

instance (s : DoIo) : (a : IoAction) → Decidable (Forward s a)
  | .others now _ | .arm now _ => inferInstanceAs (Decidable (s.timers.session.clock ≤ now))
  | .callback _ | .enter | .call _ | .addEvent _ | .wake | .disarm | .check => .isTrue trivial

/-- Every timer is due the timeout after its own arming; the readings go up, and
the clock is past them. -/
structure Rounds (c : IoCall) (s : DoIo) : Prop where
  due : ∀ a ∈ s.timers.armed, a.due = a.reading + c.timeout
  ordered : s.timers.armed.Pairwise fun later earlier => earlier.reading ≤ later.reading
  past : ∀ a ∈ s.timers.armed, a.reading ≤ s.timers.session.clock

variable {c : IoCall} {tinfo : ℕ} {s u : DoIo}

theorem rounds_initial (c : IoCall) (start : UInt64) : Rounds c (initial start) where
  due := nofun
  ordered := .nil
  past := nofun

/-- The same armings, at the same reading or later. -/
private theorem Rounds.later (rounds : Rounds c s) (armed : u.timers.armed = s.timers.armed)
    (clock : s.timers.session.clock ≤ u.timers.session.clock) : Rounds c u where
  due := armed ▸ rounds.due
  ordered := armed ▸ rounds.ordered
  past a mine := UInt64.le_trans (rounds.past a (armed ▸ mine)) clock

theorem rounds_move (kept : CallTimers.Kept tinfo s.pc.inHand s.timers) (rounds : Rounds c s)
    (forward : Forward s a) (move : Move c tinfo s a u) : Rounds c u := by
  cases move with
  | others called =>
    refine rounds.later (kept.others called).2.1 ?_
    rw [kept.others_clock called]
    exact forward
  | callback ran =>
    refine rounds.later (kept.callback ran).2.1 ?_
    rw [CallTimers.callback_session ran]
    exact UInt64.le_refl _
  | arm here bounded armed =>
    rw [here] at kept
    obtain ⟨-, more, -⟩ := kept.arm armed
    have clock := kept.arm_clock armed
    refine ⟨?_, ?_, ?_⟩
    · simp only [more]
      exact List.forall_mem_cons.mpr ⟨rfl, rounds.due⟩
    · simp only [more]
      exact List.pairwise_cons.mpr
        ⟨fun a mine => UInt64.le_trans (rounds.past a mine) forward, rounds.ordered⟩
    · simp only [more, clock]
      exact List.forall_mem_cons.mpr ⟨UInt64.le_refl _,
        fun a mine => UInt64.le_trans (rounds.past a mine) forward⟩
  | giveUp here disarmed =>
    rw [here] at kept
    refine rounds.later (kept.disarm disarmed).2.1 ?_
    rw [kept.disarm_clock disarmed]
    exact UInt64.le_refl _
  | disarm here disarmed =>
    rw [here] at kept
    refine rounds.later (kept.disarm disarmed).2.1 ?_
    rw [kept.disarm_clock disarmed]
    exact UInt64.le_refl _
  | enter | direct | call | unbounded | added | refuse | wake | timedOut | retry =>
    exact rounds.later rfl (UInt64.le_refl _)

theorem rounds_run (reached : Runs.Reaches (step c tinfo) Forward (initial start) s) :
    Rounds c s := by
  have both := reached.invariant
    (fun s => CallTimers.Kept tinfo s.pc.inHand s.timers ∧ Rounds c s)
    ⟨CallTimers.kept_initial tinfo start, rounds_initial c start⟩ ?_
  · exact both.2
  · intro s a u law forward stepped
    exact ⟨timers_move law.1 (move_of_step stepped),
      rounds_move law.1 law.2 forward (move_of_step stepped)⟩

/-- The first arming is the oldest. -/
theorem Rounds.first (rounds : Rounds c s) (first : s.timers.armed.getLast? = some a₀)
    (mine : a ∈ s.timers.armed) : a₀.reading ≤ a.reading := by
  obtain ⟨later, split⟩ := List.getLast?_eq_some_iff.mp first
  have ordered := rounds.ordered
  rw [split] at ordered mine
  rcases List.mem_append.mp mine with earlier | last
  · exact (List.pairwise_append.mp ordered).2.2 a earlier a₀ (List.mem_singleton_self _)
  · rw [List.mem_singleton.mp last]
    exact UInt64.le_refl _

/-- On a clock that does not go back, every timer of the call is due the whole
timeout after its own arming, so it is within the timeout of the first arming
only if no time has passed since. -/
theorem every_round_has_whole_timeout (start : UInt64)
    (reached : Runs.Reaches (step c tinfo) Forward (initial start) s)
    (fits : ∀ a ∈ s.timers.armed, a.reading.toNat + c.timeout.toNat < 2 ^ 64)
    (first : s.timers.armed.getLast? = some a₀) :
    ∀ a ∈ s.timers.armed, a.due.toNat = a.reading.toNat + c.timeout.toNat ∧
      a₀.reading ≤ a.reading ∧
      (a.due.toNat ≤ a₀.reading.toNat + c.timeout.toNat ↔ a.reading = a₀.reading) := by
  intro a mine
  have rounds := rounds_run reached
  have due : a.due.toNat = a.reading.toNat + c.timeout.toNat := by
    rw [rounds.due a mine, UInt64.toNat_add, Nat.mod_eq_of_lt (fits a mine)]
  have after := rounds.first first mine
  refine ⟨due, after, ?_⟩
  have order := UInt64.le_iff_toNat_le.mp after
  rw [due]
  constructor
  · intro within
    apply UInt64.toNat_inj.mp
    omega
  · intro same
    rw [same]

/-- Woken without progress half way through the timeout. -/
def spuriousWakeup : List IoAction :=
  [.enter, .call ⟨-1, EAGAIN⟩, .arm 10 40, .addEvent none, .wake, .disarm, .check,
    .call ⟨-1, EAGAIN⟩, .arm 60 56]

theorem second_round_due_later :
    ∃ s, Runs.run (step boundedRead 7) (initial 5) spuriousWakeup = some s ∧
      ∀ a ∈ s.timers.armed, a.due.toNat = a.reading.toNat + boundedRead.timeout.toNat ∧
        10 ≤ a.reading ∧
        (a.due.toNat ≤ (10 : UInt64).toNat + boundedRead.timeout.toNat ↔ a.reading = 10) := by
  have ran : Runs.run (step boundedRead 7) (initial 5) spuriousWakeup = some _ := rfl
  exact ⟨_, ran, every_round_has_whole_timeout 5
    (Runs.reaches_of_run spuriousWakeup ran (by decide)) (by decide) rfl⟩

/-- The timers of a call are due within the timeout of its first arming. -/
def WholeCallBounded (c : IoCall) (s : DoIo) : Prop :=
  ∀ a ∈ s.timers.armed, ∀ a₀ ∈ s.timers.armed.getLast?,
    a.due.toNat ≤ a₀.reading.toNat + c.timeout.toNat

theorem wakeups_extend_wait :
    ∃ s, Runs.run (step boundedRead 7) (initial 5) spuriousWakeup = some s ∧
      Runs.AllSteps (step boundedRead 7) Forward (initial 5) spuriousWakeup ∧
      s.timers.armed = [⟨1, 60, 160⟩, ⟨0, 10, 110⟩] ∧ ¬ WholeCallBounded boundedRead s := by
  refine ⟨_, rfl, by decide, by decide, fun bounded => ?_⟩
  exact absurd (bounded ⟨1, 60, 160⟩ (by decide) ⟨0, 10, 110⟩ (by decide)) (by decide)

end Synergy.DoIo
