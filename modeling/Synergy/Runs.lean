import Mathlib.Logic.Basic

/-! Runs of a guarded step function. A step answers `none` where the action is
not enabled, so one definition serves replay of a concrete schedule and proof
about every schedule. A run may be restricted by a condition on the state
before each step; a law is then proved once for a step and once for the run. -/
namespace Synergy.Runs

variable {S A : Type}

/-- The states reached from `s` by enabled steps, each taken where `allowed`
admits it. -/
inductive Reaches (step : S → A → Option S) (allowed : S → A → Prop) (s : S) : S → Prop where
  | refl : Reaches step allowed s s
  | next (before : Reaches step allowed s t) (admitted : allowed t a)
      (stepped : step t a = some u) : Reaches step allowed s u

/-- No condition on the steps. -/
def Always (_ : S) (_ : A) : Prop := True

/-- The states of unrestricted runs. -/
abbrev Reachable (step : S → A → Option S) (s t : S) : Prop := Reaches step Always s t

/-- Replay of one concrete schedule. -/
def run (step : S → A → Option S) : S → List A → Option S
  | s, [] => some s
  | s, action :: rest =>
    match step s action with
    | none => none
    | some t => run step t rest

variable {step : S → A → Option S} {allowed : S → A → Prop}

/-- What holds at the start and is kept by every admitted step holds in every
state reached. -/
theorem Reaches.invariant (Law : S → Prop) (reached : Reaches step allowed s t)
    (start : Law s)
    (keeps : ∀ t a u, Law t → allowed t a → step t a = some u → Law u) : Law t := by
  induction reached with
  | refl => exact start
  | next before admitted stepped ih => exact keeps _ _ _ ih admitted stepped

theorem Reaches.trans (first : Reaches step allowed s t) (second : Reaches step allowed t u) :
    Reaches step allowed s u := by
  induction second with
  | refl => exact first
  | next before admitted stepped ih => exact .next ih admitted stepped

/-- A weaker condition admits every run that a stronger one does. -/
theorem Reaches.weaken {stricter : S → A → Prop} (reached : Reaches step stricter s t)
    (weaker : ∀ t a, stricter t a → allowed t a) : Reaches step allowed s t := by
  induction reached with
  | refl => exact .refl
  | next before admitted stepped ih => exact .next ih (weaker _ _ admitted) stepped

/-- A run along which a law holds meets every condition that the law implies. -/
theorem Reaches.under {stricter : S → A → Prop} (Law : S → Prop)
    (reached : Reaches step allowed s t) (start : Law s)
    (keeps : ∀ t a u, Law t → allowed t a → step t a = some u → Law u)
    (implied : ∀ t a, Law t → allowed t a → stricter t a) : Reaches step stricter s t := by
  induction reached with
  | refl => exact .refl
  | next before admitted stepped ih =>
    exact .next ih (implied _ _ (before.invariant Law start keeps) admitted) stepped

/-- Every step that the schedule takes from `s` is admitted. -/
def AllSteps (step : S → A → Option S) (allowed : S → A → Prop) : S → List A → Prop
  | _, [] => True
  | s, action :: rest =>
    allowed s action ∧ match step s action with
      | none => True
      | some t => AllSteps step allowed t rest

instance decidableAllSteps [∀ s a, Decidable (allowed s a)] :
    (schedule : List A) → (s : S) → Decidable (AllSteps step allowed s schedule)
  | [], _ => .isTrue trivial
  | action :: rest, s =>
    have : Decidable (match step s action with
        | none => True
        | some t => AllSteps step allowed t rest) :=
      match step s action with
      | none => .isTrue trivial
      | some t => decidableAllSteps rest t
    inferInstanceAs (Decidable (_ ∧ _))

theorem allSteps_always (schedule : List A) (s : S) : AllSteps step Always s schedule := by
  induction schedule generalizing s with
  | nil => trivial
  | cons action rest ih =>
    refine ⟨trivial, ?_⟩
    cases step s action with
    | none => trivial
    | some t => exact ih t

/-- A replay whose steps are all admitted is a run. -/
theorem reaches_of_run (schedule : List A) (ran : run step s schedule = some t)
    (admitted : AllSteps step allowed s schedule) : Reaches step allowed s t := by
  suffices walk : ∀ rest u, Reaches step allowed s u → AllSteps step allowed u rest →
      run step u rest = some t → Reaches step allowed s t from
    walk schedule s .refl admitted ran
  intro rest
  induction rest with
  | nil =>
    intro u reached _ ended
    cases ended
    exact reached
  | cons action rest ih =>
    intro u reached admitted ended
    unfold run at ended
    cases stepped : step u action with
    | none => simp [stepped] at ended
    | some v =>
      simp only [stepped] at ended
      obtain ⟨here, later⟩ := admitted
      rw [stepped] at later
      exact ih v (.next reached here stepped) later ended

/-- Replaying a schedule stays among the reachable states. -/
theorem reachable_of_run (schedule : List A) (ran : run step s schedule = some t) :
    Reachable step s t :=
  reaches_of_run schedule ran (allSteps_always schedule s)

/-- When one step spoils the law exactly if its condition fails, a whole run
keeps the law exactly if every step met the condition. -/
theorem run_lawful_iff {Law : S → Prop} {Kept : S → Prop}
    (kept : ∀ s a t, Kept s → step s a = some t → Kept t)
    (exact_step : ∀ s a t, Kept s → step s a = some t → (Law t ↔ Law s ∧ allowed s a))
    (schedule : List A) (start : Kept s) (ran : run step s schedule = some t) :
    Law t ↔ Law s ∧ AllSteps step allowed s schedule := by
  induction schedule generalizing s with
  | nil =>
    cases ran
    simp [AllSteps]
  | cons action rest ih =>
    unfold run at ran
    cases stepped : step s action with
    | none => simp [stepped] at ran
    | some u =>
      simp only [stepped] at ran
      rw [ih (kept _ _ _ start stepped) ran, exact_step _ _ _ start stepped]
      simp only [AllSteps, stepped]
      exact and_assoc

end Synergy.Runs
