import Synergy.TimerRepresentation

/-! Many threads share one timer manager. `listExpiredCb` reads the clock
before it takes the write lock, so its reading may be older than the one that
`m_previouseTime` remembers; `detectClockRollover` then has to tell a stale
reading from a clock that went back. -/
namespace Synergy
open OrderedSet TimerManager

/-- Where a thread is inside an operation that takes more than one step. -/
inductive TimerPc where
  | outside
  | adding (timer : TimerId)
  | listing (now_ms : UInt64)
  | listingChecked (now_ms : UInt64)
  deriving DecidableEq, Repr

/-- One callback handed out: the due time of its timer and the clock, both at
that moment. -/
structure Handed where
  timer : TimerId
  next : UInt64
  clock : UInt64
  deriving DecidableEq, Repr

structure TimerThreads where
  manager : TimerManager
  clock : UInt64
  pc : ℕ → TimerPc := fun _ => .outside
  handed : List Handed := []

/-- The steps of the threads, and of the clock. The operations that run under
one lock are one step. -/
inductive TimerAction where
  | tick (clock : UInt64)
  | construct (thread : ℕ) (ms : UInt64) (cb : Option Callback) (recurring : Bool)
      (address : ℕ)
  | insert (thread : ℕ)
  | cancel (timer : TimerId)
  | refresh (timer : TimerId)
  | reset (timer : TimerId) (ms : UInt64) (from_now : Bool)
  | getNextTimer
  | readClock (thread : ℕ)
  | checkEmpty (thread : ℕ)
  | expire (thread : ℕ) (address : ℕ)
  deriving DecidableEq, Repr

namespace TimerThreads

def initial (start : UInt64) : TimerThreads := { manager := .initial start, clock := start }

def goto (s : TimerThreads) (thread : ℕ) (pc : TimerPc) : TimerThreads :=
  { s with pc := Function.update s.pc thread pc }

def step (s : TimerThreads) : TimerAction → Option TimerThreads
  | .tick clock => if s.clock ≤ clock then some { s with clock } else none
  | .construct thread ms cb recurring address =>
    if s.pc thread = .outside then
      some ({ s with manager := s.manager.construct s.clock ms cb recurring address }.goto thread
        (.adding s.manager.constructed))
    else none
  | .insert thread =>
    match s.pc thread with
    | .adding timer =>
      some ({ s with manager := (s.manager.addTimerLocked timer).1 }.goto thread .outside)
    | _ => none
  | .cancel timer => (s.manager.cancel timer).map fun done => { s with manager := done.1 }
  | .refresh timer => some { s with manager := (s.manager.refresh timer s.clock).1 }
  | .reset timer ms from_now =>
    some { s with manager := (s.manager.reset timer ms from_now s.clock).1 }
  | .getNextTimer => some { s with manager := (s.manager.getNextTimer s.clock).1 }
  | .readClock thread =>
    if s.pc thread = .outside then some (s.goto thread (.listing s.clock)) else none
  | .checkEmpty thread =>
    match s.pc thread with
    | .listing now_ms =>
      if s.manager.timers.isEmpty then some (s.goto thread .outside)
      else some (s.goto thread (.listingChecked now_ms))
    | _ => none
  | .expire thread address =>
    match s.pc thread with
    | .listingChecked now_ms =>
      let (m, cbs) := s.manager.listExpiredLocked now_ms address
      let handed := cbs.map fun cb => ⟨cb.1, (s.manager.heap cb.1).next, s.clock⟩
      some ({ s with manager := m, handed := handed ++ s.handed }.goto thread .outside)
    | _ => none

/-- What one step can do, with the guard it passed. -/
inductive Move (s : TimerThreads) : TimerAction → TimerThreads → Prop where
  | tick (forward : s.clock ≤ later) : Move s (.tick later) { s with clock := later }
  | construct (free : s.pc thread = .outside) :
      Move s (.construct thread ms cb recurring address)
        ({ s with manager := s.manager.construct s.clock ms cb recurring address }.goto thread
          (.adding s.manager.constructed))
  | insert (here : s.pc thread = .adding timer) :
      Move s (.insert thread)
        ({ s with manager := (s.manager.addTimerLocked timer).1 }.goto thread .outside)
  | cancel (done : s.manager.cancel timer = some (after, answer)) :
      Move s (.cancel timer) { s with manager := after }
  | refresh : Move s (.refresh timer) { s with manager := (s.manager.refresh timer s.clock).1 }
  | reset :
      Move s (.reset timer ms from_now)
        { s with manager := (s.manager.reset timer ms from_now s.clock).1 }
  | getNextTimer : Move s .getNextTimer { s with manager := (s.manager.getNextTimer s.clock).1 }
  | readClock (free : s.pc thread = .outside) :
      Move s (.readClock thread) (s.goto thread (.listing s.clock))
  | leave (here : s.pc thread = .listing now_ms) (empty : s.manager.timers.isEmpty = true) :
      Move s (.checkEmpty thread) (s.goto thread .outside)
  | stay (here : s.pc thread = .listing now_ms) (pending : ¬ s.manager.timers.isEmpty = true) :
      Move s (.checkEmpty thread) (s.goto thread (.listingChecked now_ms))
  | expire (here : s.pc thread = .listingChecked now_ms)
      (listed : s.manager.listExpiredLocked now_ms address = (after, cbs)) :
      Move s (.expire thread address)
        ({ s with
            manager := after
            handed := cbs.map (fun (cb : TimerId × Option Callback) =>
              (⟨cb.1, (s.manager.heap cb.1).next, s.clock⟩ : Handed)) ++
              s.handed }.goto thread .outside)

theorem move_of_step (stepped : step s action = some u) : Move s action u := by
  cases action with
  | tick clock =>
    simp only [step] at stepped
    split at stepped <;> cases stepped
    exact .tick (by assumption)
  | construct thread ms cb recurring address =>
    simp only [step] at stepped
    split at stepped <;> cases stepped
    exact .construct (by assumption)
  | insert thread =>
    simp only [step] at stepped
    split at stepped <;> cases stepped
    exact .insert (by assumption)
  | cancel timer =>
    obtain ⟨done, cancelled, rfl⟩ := Option.map_eq_some_iff.mp stepped
    exact .cancel cancelled
  | refresh timer =>
    cases stepped
    exact .refresh
  | reset timer ms from_now =>
    cases stepped
    exact .reset
  | getNextTimer =>
    cases stepped
    exact .getNextTimer
  | readClock thread =>
    simp only [step] at stepped
    split at stepped <;> cases stepped
    exact .readClock (by assumption)
  | checkEmpty thread =>
    simp only [step] at stepped
    split at stepped
    · rename_i now_ms here
      split at stepped <;> cases stepped
      · exact .leave here (by assumption)
      · exact .stay here (by assumption)
    · cases stepped
  | expire thread address =>
    simp only [step] at stepped
    split at stepped <;> cases stepped
    exact .expire (by assumption) rfl

/-- Nothing was handed out early. -/
def NothingEarly (s : TimerThreads) : Prop := ∀ h ∈ s.handed, h.next ≤ h.clock

instance (s : TimerThreads) : Decidable (NothingEarly s) :=
  inferInstanceAs (Decidable (∀ h ∈ s.handed, h.next ≤ h.clock))

/-- The comparison of `detectClockRollover` over the integers: an older reading
passes for a rollover when it is more than an hour old, and always while
`m_previouseTime` is within the first hour of the clock. -/
def TakenForRollover (previous now : ℕ) : Prop :=
  now < previous ∧ (previous < 3600000 ∨ now + 3600000 < previous)

instance (previous now : ℕ) : Decidable (TakenForRollover previous now) :=
  inferInstanceAs (Decidable (_ ∧ _))

theorem rolledOver_iff (m : TimerManager) (now : UInt64) :
    m.rolledOver now = true ↔ TakenForRollover m.previouseTime.toNat now.toNat := by
  have bound := m.previouseTime.toNat_lt
  have hour : (60 * 60 * 1000 : UInt64).toNat = 3600000 := rfl
  simp only [rolledOver, Bool.and_eq_true, decide_eq_true_eq, UInt64.lt_iff_toNat_lt,
    TakenForRollover, UInt64.toNat_sub, hour]
  omega

/-- A write-locked section of `listExpiredCb` hands out what is not due only by
taking a stale reading for a rollover while a timer is pending. -/
def NoFalseRollover (s : TimerThreads) : TimerAction → Prop
  | .expire thread _ => ∀ now_ms, s.pc thread = .listingChecked now_ms →
      TakenForRollover s.manager.previouseTime.toNat now_ms.toNat →
      ∀ t ∈ s.manager.timers, (s.manager.heap t).next ≤ s.clock
  | _ => True

/-- No thread has read a clock that is still to come. -/
def ReadingsPast (s : TimerThreads) : Prop :=
  ∀ thread now_ms, s.pc thread = .listing now_ms ∨ s.pc thread = .listingChecked now_ms →
    now_ms ≤ s.clock

private theorem readings_goto {pc : TimerPc} (past : ReadingsPast s)
    (fresh : ∀ now_ms, pc = .listing now_ms ∨ pc = .listingChecked now_ms → now_ms ≤ s.clock) :
    ReadingsPast (s.goto thread pc) := by
  intro other now_ms inside
  by_cases same : other = thread
  · subst other
    simp only [goto, Function.update_self] at inside
    exact fresh now_ms inside
  · simp only [goto, Function.update_of_ne same] at inside
    exact past other now_ms inside

theorem readings_move (past : ReadingsPast s) (move : Move s action u) : ReadingsPast u := by
  cases move with
  | tick forward => exact fun thread now_ms inside =>
      UInt64.le_trans (past thread now_ms inside) forward
  | construct | insert | leave | expire => exact readings_goto past (by simp)
  | cancel | refresh | reset | getNextTimer => exact past
  | readClock =>
    refine readings_goto past fun now_ms inside => ?_
    rcases inside with same | same
    · cases same
      exact UInt64.le_refl _
    · cases same
  | @stay thread now_ms here =>
    refine readings_goto past fun later inside => ?_
    rcases inside with same | same
    · cases same
    · cases same
      exact past thread now_ms (.inl here)

/-- What a write-locked section hands out: what is due by its reading, and the
whole set under a rollover. -/
private theorem handed_due_iff (m : TimerManager) (address : ℕ) {now_ms clock : UInt64}
    (past : now_ms ≤ clock) :
    (∀ cb ∈ (m.listExpiredLocked now_ms address).2, (m.heap cb.1).next ≤ clock) ↔
      (m.rolledOver now_ms = true → ∀ t ∈ m.timers, (m.heap t).next ≤ clock) := by
  obtain ⟨expired, rest, previous, split, due, _, whole, _, same⟩ :=
    listExpiredLocked_split m now_ms address
  have names := expireAll_names now_ms { m with timers := rest, previouseTime := previous } expired
  rw [← same] at names
  have handed : (∀ cb ∈ (m.listExpiredLocked now_ms address).2, (m.heap cb.1).next ≤ clock) ↔
      ∀ t ∈ expired, (m.heap t).next ≤ clock := by
    rw [← names]
    simp only [List.mem_map, forall_exists_index, and_imp, forall_apply_eq_imp_iff₂]
  rw [handed]
  constructor
  · intro early rollover t member
    rw [split, whole rollover, List.append_nil] at member
    exact early t member
  · intro sound t member
    rcases due t member with rollover | arrived
    · exact sound rollover t (by rw [split]; exact List.mem_append_left _ member)
    · exact UInt64.le_trans arrived past

/-- One step hands something out early exactly when it takes a stale reading
for a rollover with a timer still pending that is not due. -/
theorem early_move_iff (past : ReadingsPast s) (move : Move s action u) :
    NothingEarly u ↔ NothingEarly s ∧ NoFalseRollover s action := by
  cases move with
  | @expire thread now_ms address after cbs here listed =>
    have exact_due := handed_due_iff s.manager address (past thread now_ms (.inr here))
    rw [rolledOver_iff, listed] at exact_due
    simp only [NothingEarly, goto, List.mem_append, List.mem_map, NoFalseRollover, here]
    constructor
    · intro all
      refine ⟨fun h old => all h (.inr old), fun other same => ?_⟩
      cases same
      exact exact_due.mp fun cb member => all _ (.inl ⟨cb, member, rfl⟩)
    · rintro ⟨old, sound⟩ h (⟨cb, member, rfl⟩ | before)
      · exact exact_due.mpr (sound now_ms rfl) cb member
      · exact old h before
  | tick | construct | insert | cancel | refresh | reset | getNextTimer | readClock | leave
    | stay => simp [NothingEarly, NoFalseRollover, goto]

/-- Over every interleaving, nothing is handed out early exactly when no
write-locked section took a stale reading for a rollover while a timer that is
not due was pending. -/
theorem nothing_early_iff_no_false_rollover (start : UInt64) (schedule : List TimerAction)
    (ran : Runs.run step (initial start) schedule = some s) :
    NothingEarly s ↔ Runs.AllSteps step NoFalseRollover (initial start) schedule := by
  have past : ReadingsPast (initial start) := by
    intro thread now_ms inside
    rcases inside with same | same <;> cases same
  rw [Runs.run_lawful_iff (fun _ _ _ kept stepped => readings_move kept (move_of_step stepped))
    (fun _ _ _ kept stepped => early_move_iff kept (move_of_step stepped)) schedule past ran]
  simp [NothingEarly, initial]

/-- Two readings taken an hour after boot; the older one waits for the lock. -/
def lateReading : List TimerAction :=
  [.construct 0 100 (some (.function 1)) false 40, .insert 0, .readClock 1, .tick 3700100,
    .readClock 2, .checkEmpty 1, .checkEmpty 2, .expire 2 16, .expire 1 16]

theorem late_reading_stays_due :
    ∃ s, Runs.run step (initial 3700000) lateReading = some s ∧ NothingEarly s ∧
      Runs.AllSteps step NoFalseRollover (initial 3700000) lateReading := by
  have ran : ∃ s, Runs.run step (initial 3700000) lateReading = some s ∧ NothingEarly s :=
    ⟨_, rfl, by decide⟩
  obtain ⟨s, replay, early⟩ := ran
  exact ⟨s, replay, early, (nothing_early_iff_no_false_rollover 3700000 lateReading replay).mp early⟩

/-- A reading of 5 that waits for the lock while another thread stores 6: the
machine booted less than an hour ago, so the older reading is a rollover. -/
def staleReading : List TimerAction :=
  [.construct 0 100 (some (.function 1)) false 40, .insert 0, .readClock 1, .tick 6,
    .readClock 2, .checkEmpty 1, .checkEmpty 2, .expire 2 16, .expire 1 16]

/-- A timer due at 105 is handed out at 6. -/
theorem stale_reading_fires_early :
    ∃ s, Runs.run step (initial 5) staleReading = some s ∧
      ⟨0, 105, 6⟩ ∈ s.handed ∧ ¬ NothingEarly s :=
  ⟨_, rfl, by decide, by decide⟩

end TimerThreads
end Synergy
