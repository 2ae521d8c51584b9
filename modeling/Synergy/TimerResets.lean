import Synergy.TimerArming

/-! Shortening and lengthening a pending timer. However often its interval is
changed, and whatever is done to other timers in between, only the last interval
counts. -/
namespace Synergy
open OrderedSet TimerManager

/-- A `reset` of the timer that counts from where it was. -/
def TimerCall.resets (t : TimerId) : TimerCall → Bool
  | .reset b _ from_now => b == t && !from_now
  | _ => false

/-- Two timers that differ at most in interval and due time, and count from the
same arming; without a callback they do not differ. -/
structure Timer.SameOrigin (x y : Timer) : Prop where
  recurring : x.recurring = y.recurring
  cb : x.cb = y.cb
  address : x.address = y.address
  origin : x.next - x.ms = y.next - y.ms
  silent : x.cb = none → x = y

theorem Timer.SameOrigin.refl (x : Timer) : Timer.SameOrigin x x :=
  ⟨rfl, rfl, rfl, rfl, fun _ => rfl⟩

theorem resetTimer_origin {x y : Timer} (same : Timer.SameOrigin x y) (armed : x.cb.isSome)
    (ms now : UInt64) : Timer.SameOrigin (resetTimer x ms false now) y where
  recurring := same.recurring
  cb := same.cb
  address := same.address
  origin := by
    rw [← same.origin]
    exact UInt64.add_sub_cancel _ _
  silent := by
    intro silent
    change x.cb = none at silent
    simp [silent] at armed

theorem resetTimer_same {x y : Timer} (same : Timer.SameOrigin x y) (ms now now' : UInt64) :
    resetTimer x ms false now = resetTimer y ms false now' := by
  obtain ⟨recurring, cb, address, origin, -⟩ := same
  simp [resetTimer, recurring, cb, address, origin]

namespace TimerTable

/-- Two tables that differ at most in one timer, and there only so far. -/
structure Alike (t : TimerId) (near : Timer → Timer → Prop) (a b : TimerTable) : Prop where
  others : ∀ c, c ≠ t → a.timer c = b.timer c
  own : near (a.timer t) (b.timer t)
  address : (a.timer t).address = (b.timer t).address
  pending : a.pending = b.pending
  constructed : a.constructed = b.constructed
  previous : a.previous = b.previous
  known : t < a.constructed

/-- A call about other timers. -/
def Elsewhere (a : TimerTable) (t : TimerId) (now : UInt64) : TimerCall → Prop
  | .cancel b | .refresh b | .reset b _ _ => b ≠ t
  | .listExpiredCb _ => ¬ a.Due now t
  | .addTimer .. | .addConditionTimer .. | .getNextTimer | .hasTimer => True

variable {a b : TimerTable} {near : Timer → Timer → Prop} {t : TimerId} {now : UInt64}

theorem Alike.addresses (alike : Alike t near a b) (c : TimerId) :
    (a.timer c).address = (b.timer c).address := by
  by_cases same : c = t
  · rw [same]
    exact alike.address
  · rw [alike.others c same]

theorem Alike.admits (alike : Alike t near a b) (call : TimerCall) :
    a.Admits call ↔ b.Admits call := by
  cases call with
  | addTimer | addConditionTimer =>
    simp only [Admits, alike.pending]
    exact forall₂_congr fun c _ => by rw [alike.addresses c]
  | cancel | refresh | reset => simp only [Admits, alike.constructed]
  | getNextTimer | hasTimer | listExpiredCb => exact Iff.rfl

private theorem Alike.write (alike : Alike t near a b) {c : TimerId} (other : c ≠ t)
    (value : Timer) : Alike t near (a.write c value) (b.write c value) := by
  constructor
  case others =>
    intro d apart
    by_cases same : d = c
    · simp [TimerTable.write, same]
    · simp only [TimerTable.write, Function.update_of_ne same]
      exact alike.others d apart
  case own =>
    simp only [TimerTable.write, Function.update_of_ne other.symm]
    exact alike.own
  case address =>
    simp only [TimerTable.write, Function.update_of_ne other.symm]
    exact alike.address
  case pending => exact alike.pending
  case constructed => exact alike.constructed
  case previous => exact alike.previous
  case known => exact alike.known

private theorem Alike.add (alike : Alike t near a b) (value : Timer) :
    Alike t near (a.add value) (b.add value) := by
  have fresh : a.constructed ≠ t := Nat.ne_of_gt alike.known
  have written := alike.write fresh value
  rw [alike.constructed] at fresh
  refine ⟨?_, ?_, ?_, ?_, ?_, alike.previous, Nat.lt_succ_of_lt alike.known⟩
  · intro c apart
    simpa only [TimerTable.add, TimerTable.write, alike.constructed] using written.others c apart
  · simpa only [TimerTable.add, TimerTable.write, alike.constructed] using written.own
  · simpa only [TimerTable.add, TimerTable.write, alike.constructed] using written.address
  · simp only [TimerTable.add, alike.constructed, alike.pending]
  · simp only [TimerTable.add, alike.constructed]

private theorem Alike.due_iff (alike : Alike t near a b) {c : TimerId} (other : c ≠ t) :
    a.Due now c ↔ b.Due now c := by
  simp only [Due, WentBack, alike.pending, alike.previous, alike.others c other]

private theorem Alike.expire (alike : Alike t near a b) (first : ¬ a.Due now t)
    (second : ¬ b.Due now t) : Alike t near (a.expire now) (b.expire now) := by
  classical
  constructor
  case others =>
    intro c other
    simp only [TimerTable.expire, alike.due_iff other, alike.others c other]
  case own =>
    simp only [TimerTable.expire, if_neg first, if_neg second]
    exact alike.own
  case address =>
    simp only [TimerTable.expire, if_neg first, if_neg second]
    exact alike.address
  case pending =>
    ext c
    by_cases same : c = t
    · simp [TimerTable.expire, same, first, second, alike.pending]
    · simp [TimerTable.expire, alike.due_iff same, alike.others c same, alike.pending]
  case constructed => exact alike.constructed
  case previous => simp only [TimerTable.expire, alike.pending, alike.previous]
  case known => exact alike.known

/-- A call about other timers does the same to both. -/
theorem Alike.elsewhere (alike : Alike t near a b) {call : TimerCall}
    (first : a.Elsewhere t now call) (second : b.Elsewhere t now call) :
    Alike t near (a.call now call) (b.call now call) := by
  have armed_iff : ∀ c, c ≠ t → (a.Armed c ↔ b.Armed c) := fun c other => by
    rw [Armed, Armed, alike.others c other]
  cases call with
  | addTimer | addConditionTimer => exact alike.add _
  | cancel c =>
    simp only [TimerTable.call, armed_iff c first]
    by_cases armed : b.Armed c
    · simp only [if_pos armed, alike.others c first]
      have written := alike.write first { b.timer c with cb := none }
      exact ⟨written.others, written.own, written.address, by rw [alike.pending],
        written.constructed, written.previous, written.known⟩
    · simpa only [if_neg armed] using alike
  | refresh c =>
    simp only [TimerTable.call, armed_iff c first]
    by_cases armed : b.Armed c
    · simp only [if_pos armed, alike.others c first]
      exact alike.write first _
    · simpa only [if_neg armed] using alike
  | reset c ms from_now =>
    simp only [TimerTable.call, armed_iff c first]
    by_cases armed : b.Armed c
    · simp only [if_pos armed, alike.others c first]
      exact alike.write first _
    · simpa only [if_neg armed] using alike
  | getNextTimer => exact alike
  | hasTimer => exact alike
  | listExpiredCb => exact alike.expire first second

private theorem Alike.own_write (alike : Alike t near a b) {closer : Timer → Timer → Prop}
    {x y : Timer} (own : closer x y) (address : x.address = y.address) :
    Alike t closer (a.write t x) (b.write t y) := by
  refine ⟨fun c other => ?_, ?_, ?_, alike.pending, alike.constructed, alike.previous, alike.known⟩
  · simp only [TimerTable.write, Function.update_of_ne other]
    exact alike.others c other
  · simpa [TimerTable.write] using own
  · simpa [TimerTable.write] using address

private theorem write_self (a : TimerTable) (t : TimerId) : a.write t (a.timer t) = a := by
  simp [TimerTable.write]

/-- A reset that a later one overrides may be left out. -/
theorem Alike.skip (alike : Alike t Timer.SameOrigin a b) (now ms : UInt64) :
    Alike t Timer.SameOrigin (a.call now (.reset t ms false)) b := by
  simp only [TimerTable.call]
  split
  · rename_i armed
    have moved := alike.own_write (resetTimer_origin alike.own armed ms now) alike.address
    rwa [write_self] at moved
  · exact alike

/-- Behind the same reset, nothing of the earlier ones is left. -/
theorem Alike.settle (alike : Alike t Timer.SameOrigin a b) (ms : UInt64) :
    Alike t Eq (a.call now (.reset t ms false)) (b.call now (.reset t ms false)) := by
  have armed_iff : a.Armed t ↔ b.Armed t := by simp only [Armed, alike.own.cb]
  by_cases armed : a.Armed t
  · simp only [TimerTable.call, if_pos armed, if_pos (armed_iff.mp armed)]
    exact alike.own_write (resetTimer_same alike.own ms now now) alike.address
  · simp only [TimerTable.call, if_neg armed, if_neg (armed_iff.not.mp armed)]
    have silent : (a.timer t).cb = none := by simpa [Armed] using armed
    exact ⟨alike.others, alike.own.silent silent, alike.address, alike.pending,
      alike.constructed, alike.previous, alike.known⟩

end TimerTable

namespace TimerSession

/-- A call about other timers: it is not made on the handle of this one, and
`listExpiredCb` does not hand it out. -/
def Elsewhere (t : TimerId) (s : TimerSession) : UInt64 × TimerCall → Prop
  | (_, .cancel b) | (_, .refresh b) | (_, .reset b _ _) => b ≠ t
  | (now, .listExpiredCb address) => t ∉ (s.manager.listExpiredCb now address).2.map Prod.fst
  | (_, .addTimer ..) | (_, .addConditionTimer ..) | (_, .getNextTimer) | (_, .hasTimer) => True

def ResetOrElsewhere (t : TimerId) (s : TimerSession) (call : UInt64 × TimerCall) : Prop :=
  call.2.resets t = true ∨ Elsewhere t s call

instance (t : TimerId) (s : TimerSession) :
    (call : UInt64 × TimerCall) → Decidable (Elsewhere t s call)
  | (_, .cancel b) | (_, .refresh b) | (_, .reset b _ _) => inferInstanceAs (Decidable (b ≠ t))
  | (_, .listExpiredCb _) => inferInstanceAs (Decidable (_ ∉ _))
  | (_, .addTimer ..) | (_, .addConditionTimer ..) | (_, .getNextTimer) | (_, .hasTimer) =>
    .isTrue trivial

instance (t : TimerId) (s : TimerSession) (call : UInt64 × TimerCall) :
    Decidable (ResetOrElsewhere t s call) := inferInstanceAs (Decidable (_ ∨ _))

/-- The calls without the resets of the timer that a later one overrides. -/
def lastAlone (t : TimerId) : List (UInt64 × TimerCall) → List (UInt64 × TimerCall)
  | [] => []
  | call :: rest =>
    if call.2.resets t && rest.any (fun later => later.2.resets t) then lastAlone t rest
    else call :: lastAlone t rest

/-- Two well-formed sessions whose tables are alike. -/
structure Twins (t : TimerId) (near : Timer → Timer → Prop) (s v : TimerSession) : Prop where
  left : Represents s.manager []
  right : Represents v.manager []
  alike : TimerTable.Alike t near s.manager.table v.manager.table

variable {s s' v : TimerSession} {t : TimerId} {near : Timer → Timer → Prop}

private theorem elsewhere_table (ready : Represents s.manager []) {now : UInt64} {call : TimerCall}
    (elsewhere : Elsewhere t s (now, call)) : s.manager.table.Elsewhere t now call := by
  cases call with
  | listExpiredCb address =>
    exact fun due => elsewhere ((TimerRecord.handed_iff_due ready address).mpr due)
  | cancel | refresh | reset => exact elsewhere
  | addTimer | addConditionTimer | getNextTimer | hasTimer => trivial

/-- Both take a call that the first one takes. -/
private theorem Twins.both {now : UInt64} {call : TimerCall} (twins : Twins t near s v)
    (stepped : step s (now, call) = some s') {closer : Timer → Timer → Prop}
    (alike : TimerTable.Alike t closer (s.manager.table.call now call)
      (v.manager.table.call now call)) :
    ∃ v', step v (now, call) = some v' ∧ Twins t closer s' v' := by
  have admitted := (twins.alike.admits call).mp ((enabled_iff twins.left now call).mp ⟨_, stepped⟩)
  obtain ⟨v', follows⟩ := (enabled_iff twins.right now call).mpr admitted
  refine ⟨v', follows, (step_effect twins.left stepped).represents twins.left,
    (step_effect twins.right follows).represents twins.right, ?_⟩
  rw [step_table twins.left stepped, step_table twins.right follows]
  exact alike

private theorem Twins.elsewhere {call : UInt64 × TimerCall} (twins : Twins t near s v)
    (first : Elsewhere t s call) (second : Elsewhere t v call)
    (stepped : step s call = some s') : ∃ v', step v call = some v' ∧ Twins t near s' v' :=
  twins.both stepped (twins.alike.elsewhere (elsewhere_table twins.left first)
    (elsewhere_table twins.right second))

/-- The head of an admitted schedule, and where the rest of it starts. -/
private theorem run_cons {call : UInt64 × TimerCall} {rest : List (UInt64 × TimerCall)}
    (allowed : Runs.AllSteps step (ResetOrElsewhere t) s (call :: rest))
    (ran : Runs.run step s (call :: rest) = some s') :
    ResetOrElsewhere t s call ∧ ∃ u, step s call = some u ∧
      Runs.AllSteps step (ResetOrElsewhere t) u rest ∧ Runs.run step u rest = some s' := by
  obtain ⟨here, later⟩ := allowed
  unfold Runs.run at ran
  cases stepped : step s call with
  | none => simp [stepped] at ran
  | some u =>
    rw [stepped] at later
    simp only [stepped] at ran
    exact ⟨here, u, rfl, later, ran⟩

private theorem lastAlone_plain (calls : List (UInt64 × TimerCall))
    (plain : calls.any (fun call => call.2.resets t) = false) : lastAlone t calls = calls := by
  induction calls with
  | nil => rfl
  | cons call rest ih =>
    obtain ⟨head, tail⟩ : call.2.resets t = false ∧
        rest.any (fun later => later.2.resets t) = false := by
      simpa only [List.any_cons, Bool.or_eq_false_iff] using plain
    simp only [lastAlone, head, Bool.false_and, Bool.false_eq_true, if_false, ih tail]

/-- Without resets of the timer the twins stay as near as they are. -/
private theorem Twins.run_plain (calls : List (UInt64 × TimerCall))
    (plain : calls.any (fun call => call.2.resets t) = false) (twins : Twins t near s v)
    (first : Runs.AllSteps step (ResetOrElsewhere t) s calls)
    (second : Runs.AllSteps step (ResetOrElsewhere t) v calls)
    (ran : Runs.run step s calls = some s') :
    ∃ v', Runs.run step v calls = some v' ∧ Twins t near s' v' := by
  induction calls generalizing s v with
  | nil =>
    cases ran
    exact ⟨v, rfl, twins⟩
  | cons call rest ih =>
    obtain ⟨head, tail⟩ : call.2.resets t = false ∧
        rest.any (fun later => later.2.resets t) = false := by
      simpa only [List.any_cons, Bool.or_eq_false_iff] using plain
    obtain ⟨here, u, stepped, later, onward⟩ := run_cons first ran
    have elsewhere : ∀ w, ResetOrElsewhere t w call → Elsewhere t w call := fun w admitted =>
      admitted.resolve_left (by simp [head])
    obtain ⟨w, follows, near⟩ := twins.elsewhere (elsewhere s here) (elsewhere v second.1) stepped
    have remaining := second.2
    rw [follows] at remaining
    obtain ⟨v', done, same⟩ := ih tail near later remaining onward
    exact ⟨v', by rw [Runs.run, follows]; exact done, same⟩

/-- With resets of the timer, twins from one arming end up the same. -/
private theorem Twins.run_resets (calls : List (UInt64 × TimerCall))
    (some_reset : calls.any (fun call => call.2.resets t) = true)
    (twins : Twins t Timer.SameOrigin s v)
    (first : Runs.AllSteps step (ResetOrElsewhere t) s calls)
    (second : Runs.AllSteps step (ResetOrElsewhere t) v (lastAlone t calls))
    (ran : Runs.run step s calls = some s') :
    ∃ v', Runs.run step v (lastAlone t calls) = some v' ∧ Twins t Eq s' v' := by
  induction calls generalizing s v with
  | nil => simp at some_reset
  | cons call rest ih =>
    obtain ⟨here, u, stepped, later, onward⟩ := run_cons first ran
    rw [List.any_cons, Bool.or_eq_true] at some_reset
    by_cases again : rest.any (fun later => later.2.resets t) = true
    · cases head : call.2.resets t with
      | true =>
        -- overridden: only the first session takes it
        simp only [lastAlone, head, again, Bool.and_self, if_true] at second ⊢
        obtain ⟨now, call⟩ := call
        cases call with
        | reset b ms from_now =>
          obtain ⟨rfl, rfl⟩ : b = t ∧ from_now = false := by
            simpa [TimerCall.resets] using head
          have skipped := twins.alike.skip now ms
          rw [← step_table twins.left stepped] at skipped
          exact ih again ⟨(step_effect twins.left stepped).represents twins.left, twins.right,
            skipped⟩ later second onward
        | _ => cases head
      | false =>
        simp only [lastAlone, head, Bool.false_and, Bool.false_eq_true, if_false] at second ⊢
        have elsewhere : ∀ w, ResetOrElsewhere t w call → Elsewhere t w call := fun w admitted =>
          admitted.resolve_left (by simp [head])
        obtain ⟨w, follows, near⟩ :=
          twins.elsewhere (elsewhere s here) (elsewhere v second.1) stepped
        have remaining := second.2
        rw [follows] at remaining
        obtain ⟨v', done, same⟩ := ih again near later remaining onward
        exact ⟨v', by rw [Runs.run, follows]; exact done, same⟩
    · have plain := Bool.eq_false_iff.mpr again
      have head := some_reset.resolve_right again
      simp only [lastAlone, head, plain, Bool.and_false, Bool.false_eq_true, if_false,
        lastAlone_plain rest plain] at second ⊢
      obtain ⟨now, call⟩ := call
      cases call with
      | reset b ms from_now =>
        obtain ⟨rfl, rfl⟩ : b = t ∧ from_now = false := by
          simpa [TimerCall.resets] using head
        obtain ⟨w, follows, same⟩ := twins.both stepped (twins.alike.settle ms)
        have remaining := second.2
        rw [follows] at remaining
        obtain ⟨v', done, end_same⟩ := same.run_plain rest plain later remaining onward
        exact ⟨v', by rw [Runs.run, follows]; exact done, end_same⟩
      | _ => cases head

/-- Resets of the timer, with calls about other timers between them, leave every
timer and the order of the set as the last one alone does. -/
def OnlyLastResetCounts (s : TimerSession) (t : TimerId) : Prop :=
  ∀ calls u, Runs.AllSteps step (ResetOrElsewhere t) s calls →
    Runs.AllSteps step (ResetOrElsewhere t) s (lastAlone t calls) →
    Runs.run step s calls = some u →
    ∃ v, Runs.run step s (lastAlone t calls) = some v ∧
      v.manager.heap = u.manager.heap ∧ v.manager.timers = u.manager.timers

theorem only_last_reset_counts (ready : Represents s.manager [])
    (pending : t ∈ s.manager.timers) : OnlyLastResetCounts s t := by
  intro calls u first second ran
  have known := ready.known t (.inl pending)
  have settled : ∃ v, Runs.run step s (lastAlone t calls) = some v ∧ Twins t Eq u v := by
    by_cases some_reset : calls.any (fun call => call.2.resets t) = true
    · exact Twins.run_resets calls some_reset ⟨ready, ready, fun _ _ => rfl,
        Timer.SameOrigin.refl _, rfl, rfl, rfl, rfl, known⟩ first second ran
    · have plain := Bool.eq_false_iff.mpr some_reset
      rw [lastAlone_plain calls plain] at second ⊢
      exact Twins.run_plain calls plain ⟨ready, ready, fun _ _ => rfl, rfl, rfl, rfl, rfl, rfl,
        known⟩ first second ran
  obtain ⟨v, done, twins⟩ := settled
  have heaps : u.manager.heap = v.manager.heap := by
    funext b
    by_cases same : b = t
    · rw [same]
      exact twins.alike.own
    · exact twins.alike.others b same
  exact ⟨v, done, heaps.symm, (timers_of_table twins.left twins.right heaps twins.alike.pending).symm⟩

end TimerSession

namespace TimerRecord

/-- **Due times depend on the last arming and the last interval only**, in
every reachable state and for every pending timer. -/
theorem due_by_last_arming_and_interval (start : UInt64)
    (reached : Runs.Reachable step (initial start) r) (pending : t ∈ r.session.manager.timers) :
    (r.session.manager.heap t).next = r.armedAt t + (r.session.manager.heap t).ms ∧
      (r.session.manager.heap t).ms = r.interval t ∧
      TimerSession.OnlyLastResetCounts r.session t := by
  obtain ⟨ready, -⟩ := TimerSession.wellFormed_run (session_reachable reached)
  obtain ⟨next, given⟩ := dated_run reached t pending
  exact ⟨next, given, TimerSession.only_last_reset_counts ready pending⟩

/-- A timer that was refreshed, beside one that is due soon. -/
def refreshedTimer : List (UInt64 × TimerCall) :=
  [(5, .addTimer 100 (some (.function 1)) false 40), (6, .addTimer 10 (some (.function 2)) true 8),
    (9, .refresh 0)]

/-- Lengthened past the end of the clock, shortened, and lengthened again, while
the other timer is handed out and cancelled. -/
def changedThrice : List (UInt64 × TimerCall) :=
  [(12, .reset 0 0xffffffffffffffff false), (14, .reset 0 20 false), (17, .listExpiredCb 16),
    (18, .reset 0 50 false), (19, .cancel 1)]

theorem changed_thrice_counts_last :
    ∃ r, Runs.run step (initial 5) refreshedTimer = some r ∧
      (r.session.manager.heap 0).next = 109 ∧ r.armedAt 0 = 9 ∧ r.interval 0 = 100 ∧
      ∃ u v, Runs.run TimerSession.step r.session changedThrice = some u ∧
        Runs.run TimerSession.step r.session
          [(17, .listExpiredCb 16), (18, .reset 0 50 false), (19, .cancel 1)] = some v ∧
        (u.manager.heap 0).next = 59 ∧ v.manager.heap = u.manager.heap ∧
        v.manager.timers = u.manager.timers := by
  have law := due_by_last_arming_and_interval 5 (Runs.reachable_of_run refreshedTimer rfl)
    (by decide : 0 ∈ _)
  refine ⟨_, rfl, law.1, rfl, law.2.1.symm, ?_⟩
  obtain ⟨v, alone, heaps, timers⟩ := law.2.2 changedThrice _ (by decide) (by decide) rfl
  exact ⟨_, v, rfl, alone, by decide, heaps, timers⟩

end TimerRecord
end Synergy
