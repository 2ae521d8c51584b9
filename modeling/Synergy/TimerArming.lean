import Synergy.TimerTable

/-! When each timer was armed last, and which interval it was given last. The
code keeps neither: it keeps their sum, modulo `2 ^ 64`, and takes the interval
off again when `reset` asks for another one from where the timer was. -/
namespace Synergy
open OrderedSet TimerManager

/-- A session with the clock reading at the latest arming of each timer and the
latest interval it was given. -/
structure TimerRecord where
  session : TimerSession
  armedAt : TimerId → UInt64 := fun _ => 0
  interval : TimerId → UInt64 := fun _ => 0

namespace TimerRecord

def initial (start : UInt64) : TimerRecord := { session := .initial start }

/-- A timer is armed by `addTimer`, by a `refresh` or a `reset` from now that
returns true, and by `listExpiredCb` when it hands out a recurring one. -/
def arming (m : TimerManager) (now : UInt64) (old : TimerId → UInt64) :
    TimerCall → TimerId → UInt64
  | .addTimer .. | .addConditionTimer .. => Function.update old m.constructed now
  | .refresh t => if (m.refresh t now).2 then Function.update old t now else old
  | .reset t ms from_now =>
    if from_now ∧ (m.reset t ms from_now now).2.2 then Function.update old t now else old
  | .listExpiredCb address => fun t =>
    if t ∈ (m.listExpiredCb now address).2.map Prod.fst ∧ (m.heap t).recurring then now else old t
  | .cancel _ | .getNextTimer | .hasTimer => old

/-- A timer is given an interval by `addTimer` and by a `reset` that returns
true. -/
def giving (m : TimerManager) (now : UInt64) (old : TimerId → UInt64) :
    TimerCall → TimerId → UInt64
  | .addTimer ms .. | .addConditionTimer ms .. => Function.update old m.constructed ms
  | .reset t ms from_now =>
    if (m.reset t ms from_now now).2.2 then Function.update old t ms else old
  | .cancel _ | .refresh _ | .getNextTimer | .hasTimer | .listExpiredCb _ => old

def step (r : TimerRecord) : UInt64 × TimerCall → Option TimerRecord
  | (now, call) => (r.session.step (now, call)).map fun session =>
    { session
      armedAt := arming r.session.manager now r.armedAt call
      interval := giving r.session.manager now r.interval call }

/-- Every run of a session is the run of a record. -/
theorem reachable_record (reached : Runs.Reachable TimerSession.step (.initial start) s) :
    ∃ r, Runs.Reachable step (initial start) r ∧ r.session = s := by
  induction reached with
  | refl => exact ⟨_, .refl, rfl⟩
  | @next s call u before _ stepped ih =>
    obtain ⟨r, reached, rfl⟩ := ih
    obtain ⟨now, call⟩ := call
    have noted := congrArg (Option.map fun session : TimerSession =>
      { session
        armedAt := arming r.session.manager now r.armedAt call
        interval := giving r.session.manager now r.interval call : TimerRecord }) stepped
    exact ⟨_, .next (a := (now, call)) reached trivial noted, rfl⟩

theorem session_reachable (reached : Runs.Reachable step (initial start) r) :
    Runs.Reachable TimerSession.step (.initial start) r.session := by
  induction reached with
  | refl => exact .refl
  | @next r call q before _ stepped ih =>
    obtain ⟨now, call⟩ := call
    obtain ⟨session, called, rfl⟩ := Option.map_eq_some_iff.mp stepped
    exact .next ih trivial called

/-- The due time of every pending timer is its latest arming plus its latest
interval, modulo `2 ^ 64`. -/
def Dated (table : TimerTable) (armedAt interval : TimerId → UInt64) : Prop :=
  ∀ t ∈ table.pending,
    (table.timer t).next = armedAt t + (table.timer t).ms ∧ (table.timer t).ms = interval t

variable {m : TimerManager} {now : UInt64} {armedAt interval : TimerId → UInt64}

theorem refresh_result (ready : Represents m []) :
    (m.refresh t now).2 = true ↔ m.table.Armed t := by
  by_cases armed : m.table.Armed t
  · rw [refresh_armed ready armed ((ready.armed t armed).resolve_right (by simp))]
    simp [armed]
  · have silent : (m.heap t).cb = none := by simpa [TimerTable.Armed, table] using armed
    rw [refresh_silent silent]
    simp [armed]

/-- `reset` also returns true where it returns early. -/
theorem reset_result (ready : Represents m []) :
    (m.reset t ms from_now now).2.2 = true ↔
      m.table.Armed t ∨ ms = (m.heap t).ms ∧ from_now = false := by
  by_cases same : ms = (m.heap t).ms ∧ from_now = false
  · obtain ⟨rfl, rfl⟩ := same
    rw [reset_shortcut]
    simp
  · by_cases armed : m.table.Armed t
    · rw [reset_armed ready armed ((ready.armed t armed).resolve_right (by simp)) same]
      simp [armed]
    · have silent : (m.heap t).cb = none := by simpa [TimerTable.Armed, table] using armed
      rw [reset_silent same silent]
      simp [armed, same]

theorem handed_iff_due (ready : Represents m []) (address : ℕ) :
    t ∈ (m.listExpiredCb now address).2.map Prod.fst ↔ m.table.Due now t := by
  rw [listExpiredCb_names ready.sorted, mem_expiredAt_iff_due]

private theorem dated_add {table : TimerTable} (dated : Dated table armedAt interval)
    (now ms : UInt64) (cb : Option Callback)
    (recurring : Bool) (address : ℕ) :
    Dated (table.add (.armed now ms cb recurring address))
      (Function.update armedAt table.constructed now)
      (Function.update interval table.constructed ms) := by
  intro t pending
  by_cases same : t = table.constructed
  · rw [same]
    simp [TimerTable.add, Timer.armed]
  · have old : t ∈ table.pending := (Set.mem_insert_iff.mp pending).resolve_left same
    simp only [TimerTable.add, Function.update_of_ne same]
    exact dated t old

/-- One timer gets a new due time, arming and interval. -/
private theorem dated_write {table : TimerTable} (dated : Dated table armedAt interval)
    (t : TimerId) (value : Timer) (at_reading ms : UInt64) (next : value.next = at_reading + value.ms)
    (given : value.ms = ms) :
    Dated (table.write t value) (Function.update armedAt t at_reading)
      (Function.update interval t ms) := by
  intro b pending
  by_cases same : b = t
  · rw [same]
    simp [TimerTable.write, next, given]
  · simp only [TimerTable.write, Function.update_of_ne same]
    exact dated b pending

private theorem dated_expire {table : TimerTable} (dated : Dated table armedAt interval)
    (now : UInt64) {armedAt' : TimerId → UInt64}
    (rearmed : ∀ t, table.Due now t → (table.timer t).recurring = true → armedAt' t = now)
    (kept : ∀ t, ¬ table.Due now t → armedAt' t = armedAt t) :
    Dated (table.expire now) armedAt' interval := by
  rintro t ⟨pending, back⟩
  obtain ⟨next, ms⟩ := dated t pending
  by_cases due : table.Due now t
  · have again := back due
    simp only [TimerTable.expire, if_pos due, expiredTimer, if_pos again]
    exact ⟨by rw [rearmed t due again], ms⟩
  · simp only [TimerTable.expire, if_neg due]
    exact ⟨by rw [kept t due, next], ms⟩

theorem dated_step {r q : TimerRecord} (ready : Represents r.session.manager [])
    (dated : Dated r.session.manager.table r.armedAt r.interval)
    (stepped : step r (now, call) = some q) :
    Dated q.session.manager.table q.armedAt q.interval := by
  obtain ⟨session, called, rfl⟩ := Option.map_eq_some_iff.mp stepped
  simp only [TimerSession.step_table ready called]
  cases call with
  | addTimer ms cb recurring address => exact dated_add dated now ms _ _ _
  | addConditionTimer ms cb weak_cond recurring address => exact dated_add dated now ms _ _ _
  | cancel t =>
    simp only [TimerTable.call]
    by_cases armed : r.session.manager.table.Armed t
    · rw [if_pos armed]
      rintro b ⟨pending, other⟩
      simp only [TimerTable.write, Function.update_of_ne other]
      exact dated b pending
    · rw [if_neg armed]
      exact dated
  | refresh t =>
    simp only [TimerTable.call, arming, giving, refresh_result ready]
    by_cases armed : r.session.manager.table.Armed t
    · simp only [if_pos armed]
      have pending := (ready.armed t armed).resolve_right (by simp)
      have written := dated_write dated t (refreshTimer (r.session.manager.table.timer t) now) now
        (r.interval t) rfl (dated t pending).2
      rwa [Function.update_eq_self] at written
    · simp only [if_neg armed]
      exact dated
  | reset t ms from_now =>
    simp only [TimerTable.call, arming, giving, reset_result ready]
    by_cases armed : r.session.manager.table.Armed t
    · have pending := (ready.armed t armed).resolve_right (by simp)
      simp only [armed, true_or, and_true, if_true]
      cases from_now with
      | true => exact dated_write dated t _ now ms rfl rfl
      | false =>
        -- the arming is recovered from the due time
        have start : (r.session.manager.heap t).next - (r.session.manager.heap t).ms =
            r.armedAt t := by
          have next : (r.session.manager.heap t).next = _ := (dated t pending).1
          rw [next]
          exact UInt64.add_sub_cancel _ _
        have written := dated_write dated t
          (resetTimer (r.session.manager.table.timer t) ms false now) (r.armedAt t) ms
          (congrArg (· + ms) start) rfl
        rw [Function.update_eq_self] at written
        simpa using written
    · simp only [armed, false_or]
      by_cases same : ms = (r.session.manager.heap t).ms ∧ from_now = false
      · obtain ⟨rfl, rfl⟩ := same
        simp only [and_self, if_true, Bool.false_eq_true, false_and, if_false]
        intro b pending
        refine ⟨(dated b pending).1, ?_⟩
        by_cases here : b = t
        · rw [here, Function.update_self]
          rfl
        · rw [Function.update_of_ne here]
          exact (dated b pending).2
      · simp only [same, and_false, if_false]
        exact dated
  | getNextTimer => exact dated
  | hasTimer => exact dated
  | listExpiredCb address =>
    exact dated_expire dated now
      (fun t due again => if_pos ⟨(handed_iff_due ready address).mpr due, again⟩)
      fun t missed => if_neg fun both => missed ((handed_iff_due ready address).mp both.1)

theorem dated_run (reached : Runs.Reachable step (initial start) r) :
    Dated r.session.manager.table r.armedAt r.interval := by
  have both := reached.invariant
    (fun r => Represents r.session.manager [] ∧
      Dated r.session.manager.table r.armedAt r.interval)
    ⟨initial_represents start, fun t pending => nomatch pending⟩ ?_
  · exact both.2
  · rintro r ⟨now, call⟩ q ⟨ready, dated⟩ _ stepped
    refine ⟨?_, dated_step ready dated stepped⟩
    obtain ⟨session, called, rfl⟩ := Option.map_eq_some_iff.mp stepped
    exact (TimerSession.step_effect ready called).represents ready

/-- Before the exact sum of its latest arming and interval, no call of
`listExpiredCb` without a rollover hands the timer out. -/
def NeverEarly (r : TimerRecord) (t : TimerId) : Prop :=
  ∀ now : UInt64, now.toNat < (r.armedAt t).toNat + (r.interval t).toNat →
    r.session.manager.rolledOver now = false → ∀ address,
      t ∉ (r.session.manager.listExpiredCb now address).2.map Prod.fst

/-- A timer waits for its due time exactly if the sum fits 64 bits. -/
theorem never_early_iff_sum_fits (start : UInt64)
    (reached : Runs.Reachable step (initial start) r)
    (pending : t ∈ r.session.manager.timers) :
    NeverEarly r t ↔ (r.armedAt t).toNat + (r.interval t).toNat < 2 ^ 64 := by
  obtain ⟨ready, -⟩ := TimerSession.wellFormed_run (session_reachable reached)
  obtain ⟨next, given⟩ := dated_run reached t pending
  have sum : (r.session.manager.heap t).next.toNat =
      ((r.armedAt t).toNat + (r.interval t).toNat) % 2 ^ 64 := by
    rw [← UInt64.toNat_add, ← given, ← next]
    rfl
  constructor
  · intro never
    by_contra wraps
    -- at this reading the wrapped due time has come and nothing looks like a rollover
    obtain ⟨now, later, due⟩ : ∃ now, r.session.manager.previouseTime ≤ now ∧
        (r.session.manager.heap t).next ≤ now := by
      rcases UInt64.le_total r.session.manager.previouseTime (r.session.manager.heap t).next with
        after | before
      · exact ⟨_, after, UInt64.le_refl _⟩
      · exact ⟨_, UInt64.le_refl _, before⟩
    have early : now.toNat < (r.armedAt t).toNat + (r.interval t).toNat :=
      Nat.lt_of_lt_of_le now.toNat_lt (Nat.le_of_not_lt wraps)
    apply never now early (no_rollover later) 0
    exact (handed_iff_due ready 0).mpr ⟨pending, .inr due⟩
  · intro fits now early forward address handed
    obtain ⟨-, due⟩ := (handed_iff_due ready address).mp handed
    rw [wentBack_iff, forward] at due
    have late : (r.session.manager.heap t).next ≤ now := due.resolve_left (by simp)
    rw [UInt64.le_iff_toNat_le, sum, Nat.mod_eq_of_lt fits] at late
    omega

/-- An interval of about 49 days, shortened while the timer is pending. -/
def longInterval : List (UInt64 × TimerCall) :=
  [(5, .addTimer 0xffffffff (some (.function 1)) false 40), (9, .reset 0 0xfffffff0 false)]

theorem long_interval_waits :
    ∃ r, Runs.run step (initial 5) longInterval = some r ∧ NeverEarly r 0 :=
  ⟨_, rfl, (never_early_iff_sum_fits 5 (Runs.reachable_of_run longInterval rfl)
    (by decide : 0 ∈ _)).mpr (by decide)⟩

/-- An interval that stands for never. -/
def longestInterval : List (UInt64 × TimerCall) :=
  [(5, .addTimer 0xffffffffffffffff (some (.function 1)) false 40)]

theorem longest_interval_expires_at_once :
    ∃ r, Runs.run step (initial 5) longestInterval = some r ∧
      (5 : UInt64).toNat < (r.armedAt 0).toNat + (r.interval 0).toNat ∧
      r.session.manager.rolledOver 5 = false ∧
      (r.session.manager.listExpiredCb 5 16).2 = [(0, some (.function 1))] ∧
      ¬ NeverEarly r 0 := by
  refine ⟨_, rfl, by decide, by decide, by decide, fun never => ?_⟩
  exact never 5 (by decide) (by decide) 16 (by decide)

end TimerRecord
end Synergy
