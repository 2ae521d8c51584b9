import Synergy.IOManager

/-! What a step of the event registry can do, said once, as for the scheduler. -/
namespace Synergy.IOManager

/-- A thread inside a locked section of a call or of the report loop, with the
place it goes to at the unlock. -/
inductive Inside (m : IOManager) (thread : ThreadId) (fd : ℕ) : IoPc → Prop where
  | call (pc : m.threads thread = .calling fd) : Inside m thread fd (.returned true)
  | report (pc : m.threads thread = .handling fd reports) :
      Inside m thread fd (.reporting reports)

/-- One step, by the branch of the source that takes it. -/
inductive Move (u : Undefined) (m : IOManager) : Action → IOManager → Prop where
  | located (pc : m.threads thread = .free) (inside : fd < m.table.size) :
      Move u m (.call thread call fd) (m.goto thread (.locating call fd))
  | mustGrow (pc : m.threads thread = .free) (outside : m.table.size ≤ fd) :
      Move u m (.call thread call fd) (m.goto thread (.growing call fd))
  | missed (pc : m.threads thread = .free) (outside : m.table.size ≤ fd) :
      Move u m (.call thread call fd) (m.goto thread (.returned false))
  | waited (pc : m.threads thread = .free) (allowed : ∀ r ∈ reports, m.mayReport r = true) :
      Move u m (.wait thread reports) (m.goto thread (.reporting reports))
  | grew (pc : m.threads thread = .growing call fd)
      (inside : fd < (u.contextResize m.table (fd * 3 / 2)).size) :
      Move u m (.next thread ok)
        ({ m with table := u.contextResize m.table (fd * 3 / 2) }.goto thread (.locating call fd))
  | lockedCall (pc : m.threads thread = .locating call fd)
      (unheld : (m.table.slot fd).mutex = none)
      (decided : call.decide (m.table.slot fd) = some locked)
      (kernel : Epoll.ctl m.interest locked.op (m.table.slot fd).fd locked.events =
        some watched) :
      Move u m (.next thread true)
        (({ m with interest := watched }.store fd { m.table.slot fd with
          mutex := some ⟨thread, locked.rest⟩ }).goto thread (.calling fd))
  | lockedReport (pc : m.threads thread = .reporting (.ready fd events :: reports))
      (unheld : (m.table.slot fd).mutex = none)
      (decided : (m.table.slot fd).handle events = some locked)
      (kernel : Epoll.ctl m.interest locked.op (m.table.slot fd).fd locked.events =
        some watched) :
      Move u m (.next thread true)
        (({ m with interest := watched }.store fd { m.table.slot fd with
          mutex := some ⟨thread, locked.rest⟩ }).goto thread (.handling fd reports))
  | refusedCall (pc : m.threads thread = .locating call fd) :
      Move u m (.next thread ok) (m.goto thread (.returned false))
  | refusedReport (pc : m.threads thread = .reporting (.ready fd events :: reports)) :
      Move u m (.next thread ok) (m.goto thread (.reporting reports))
  | drained (pc : m.threads thread = .reporting (.tickle :: reports)) :
      Move u m (.next thread ok) (m.goto thread (.reporting reports))
  | done (pc : m.threads thread = .reporting [] ∨ ∃ result, m.threads thread = .returned result) :
      Move u m (.next thread ok) (m.goto thread .free)
  | unlocked (inside : Inside m thread fd after)
      (held : (m.table.slot fd).mutex = some ⟨thread, []⟩) :
      Move u m (.next thread ok)
        ((m.store fd { m.table.slot fd with mutex := none }).goto thread after)
  | expanded (inside : Inside m thread fd after)
      (held : (m.table.slot fd).mutex = some ⟨thread, .triggerIfSet event :: rest⟩) :
      Move u m (.next thread ok)
        (m.store fd { m.table.slot fd with mutex := some ⟨thread,
          if event.isIn (m.table.slot fd).events then .trigger event :: .decrement :: rest
          else rest⟩ })
  | executed (inside : Inside m thread fd after)
      (held : (m.table.slot fd).mutex = some ⟨thread, op :: rest⟩)
      (plain : ∀ event, op ≠ .triggerIfSet event) :
      Move u m (.next thread ok)
        { m.store fd { op.run u (m.table.slot fd) with mutex := some ⟨thread, rest⟩ } with
          pendingEventCount := m.pendingEventCount + op.change
          triggered := op.triggered fd (m.table.slot fd) ++ m.triggered
          handed := op.handed u (m.table.slot fd) ++ m.handed }

variable {u : Undefined} {m n : IOManager} {thread : ThreadId}

private theorem move_of_advance {fd : ℕ} {after : IoPc} {ok : Bool}
    (inside : Inside m thread fd after) (stepped : m.advance u thread fd after = some n) :
    Move u m (.next thread ok) n := by
  unfold advance at stepped
  cases held : (m.table.slot fd).mutex with
  | none => simp [held] at stepped
  | some holder =>
    obtain ⟨other, rest⟩ := holder
    by_cases mine : other = thread
    · subst mine
      simp only [held, ne_eq, not_true_eq_false, if_false] at stepped
      split at stepped <;> cases stepped
      · exact .unlocked inside held
      · exact .expanded inside held
      · rename_i plain
        exact .executed inside held fun event same => plain event same
    · simp [held, mine] at stepped

private theorem lock_cases {fd : ℕ} {decided : Option LockedSection} {ok : Bool}
    {success failure : IoPc} (stepped : m.lock thread fd decided ok success failure = some n) :
    (∃ locked watched, ok = true ∧ (m.table.slot fd).mutex = none ∧ decided = some locked ∧
      Epoll.ctl m.interest locked.op (m.table.slot fd).fd locked.events = some watched ∧
      n = ({ m with interest := watched }.store fd { m.table.slot fd with
        mutex := some ⟨thread, locked.rest⟩ }).goto thread success) ∨
    n = m.goto thread failure := by
  unfold lock at stepped
  cases held : (m.table.slot fd).mutex with
  | some holder => simp [held] at stepped
  | none =>
    simp only [held, Option.isSome_none, Bool.false_eq_true, if_false] at stepped
    split at stepped
    · rename_i locked
      obtain ⟨watched, kernel, same⟩ := Option.map_eq_some_iff.mp stepped
      exact .inl ⟨locked, watched, rfl, rfl, rfl, kernel, same.symm⟩
    · cases stepped
      exact .inr rfl

theorem move_of_threadStep {ok : Bool} (stepped : m.threadStep u thread ok = some n) :
    Move u m (.next thread ok) n := by
  unfold threadStep at stepped
  split at stepped
  · cases stepped
  · unfold grow at stepped
    simp only at stepped
    split at stepped <;> cases stepped
    exact .grew ‹_› ‹_›
  · rename_i pc
    rcases lock_cases stepped with ⟨locked, watched, rfl, unheld, decided, kernel, rfl⟩ | rfl
    · exact .lockedCall pc unheld decided kernel
    · exact .refusedCall pc
  · exact move_of_advance (.call ‹_›) stepped
  · cases stepped
    exact .done (.inr ⟨_, ‹_›⟩)
  · cases stepped
    exact .done (.inl ‹_›)
  · cases stepped
    exact .drained ‹_›
  · rename_i pc
    rcases lock_cases stepped with ⟨locked, watched, rfl, unheld, decided, kernel, rfl⟩ | rfl
    · exact .lockedReport pc unheld decided kernel
    · exact .refusedReport pc
  · exact move_of_advance (.report ‹_›) stepped

/-- Every step is one of the moves. -/
theorem move_of_step {a : Action} (stepped : step u m a = some n) : Move u m a n := by
  cases a with
  | call thread call fd =>
    simp only [step] at stepped
    split at stepped <;> cases stepped
    rename_i pc
    unfold locate
    by_cases inside : m.table.size > fd
    · rw [if_pos inside]
      exact .located pc inside
    · rw [if_neg inside]
      have outside := Nat.le_of_not_lt inside
      cases call with
      | addEvent => exact .mustGrow pc outside
      | delEvent | cancelEvent | cancelAll => exact .missed pc outside
  | wait thread reports =>
    simp only [step] at stepped
    split at stepped <;> cases stepped
    rename_i guard
    exact .waited guard.1 (List.all_eq_true.mp guard.2)
  | next thread ok => exact move_of_threadStep stepped

end Synergy.IOManager
