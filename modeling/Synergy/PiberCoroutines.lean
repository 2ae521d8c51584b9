import Mathlib.Computability.StateTransition
import Synergy.PiberContext
import Synergy.Runs

/-! Fibers as coroutines of one thread. The main fiber of the thread creates,
resumes and resets fibers in any order, and their bodies are segments with
`Piber::GetThis()->yield()` between them. All of them share `t_piber` and the
context of the main fiber. -/
namespace Synergy.Coroutine
open StateTransition (Reaches)

/-- An entry function: its first segment, and those behind a yield. -/
structure Body (Seg : Type) where
  first : Seg
  rest : List Seg
  deriving DecidableEq, Repr

variable {Seg : Type}

/-- What is left to run behind the first segment. -/
def Body.next (todo : Body Seg) : Option (Body Seg) :=
  match todo.rest with
  | [] => none
  | seg :: rest => some ⟨seg, rest⟩

def Body.segments (todo : Body Seg) : List Seg := todo.first :: todo.rest

/-- What the main fiber calls; the numbers of the fibers are those of their
construction, from one. -/
inductive Call (Seg : Type) where
  | create (cb : Body Seg)
  | resume (p : PiberId)
  | reset (p : PiberId) (cb : Body Seg)
  deriving DecidableEq, Repr

/-- The points of the program: in the main fiber before further calls, and in
`MainFunc`, where `cur` is its local. -/
inductive Point (Seg : Type) where
  | main (calls : List (Call Seg))
  | entry
  | body (cur : PiberId) (todo : Body Seg)
  | parting (cur : PiberId) (left : Body Seg)
  | ending (cur : PiberId)
  | ended
  deriving DecidableEq, Repr

/-- The thread, with the segments run so far and the fiber whose stack each one
ran on. -/
structure Machine (Seg : Type) where
  thread : PiberThread (Body Seg) (Point Seg)
  log : List (PiberId × Seg) := []

/-- The thread behind its first `Piber::GetThis()`. -/
def start (calls : List (Call Seg)) : Machine Seg :=
  { thread := (PiberThread.blank (.main calls)).getThis.1 }

/-- The next line of the fiber in execution. -/
def step (m : Machine Seg) : Option (Machine Seg) :=
  match m.thread.running.point with
  | .main [] => none
  | .main (.create cb :: calls) =>
    some { m with thread := (m.thread.create .entry (some cb) false).goto (.main calls) }
  | .main (.resume p :: calls) =>
    (m.thread.resume p (.main calls)).map fun thread => { m with thread }
  | .main (.reset p cb :: calls) =>
    some { m with thread := (m.thread.reset .entry p (some cb)).goto (.main calls) }
  | .entry =>
    let (thread, cur) := m.thread.getThis
    -- a call of an empty `m_cb` throws
    (thread.pibers cur).cb.map fun cb => { m with thread := thread.goto (.body cur cb) }
  | .body cur todo =>
    let point := match todo.next with
      | none => .ending cur
      | some left => .parting cur left
    some
      { thread := m.thread.goto point, log := m.log ++ [(m.thread.running.stack, todo.first)] }
  | .parting cur left =>
    let (thread, this) := m.thread.getThis
    (thread.yield this (.body cur left)).map fun thread => { m with thread }
  | .ending cur => (m.thread.finish cur .ended).map fun thread => { m with thread }
  | .ended => none

/-- What coroutines are for: each fiber is a list of segments that a resume
takes the first of. `given` holds all segments a fiber was ever given. -/
structure Generators (Seg : Type) where
  created : PiberId := 1
  todo : PiberId → Option (Body Seg) := fun _ => none
  given : PiberId → List Seg := fun _ => []
  log : List (PiberId × Seg) := []

namespace Generators

def Made (g : Generators Seg) (p : PiberId) : Prop := 0 < p ∧ p < g.created

instance (g : Generators Seg) (p : PiberId) : Decidable (g.Made p) :=
  inferInstanceAs (Decidable (_ ∧ _))

/-- A resume is for a fiber with segments left, a reset for one without. -/
def call (g : Generators Seg) : Call Seg → Option (Generators Seg)
  | .create cb =>
    some { g with
      created := g.created + 1
      todo := Function.update g.todo g.created (some cb)
      given := Function.update g.given g.created (g.given g.created ++ cb.segments) }
  | .resume p =>
    if g.Made p then
      (g.todo p).map fun todo => { g with
        todo := Function.update g.todo p todo.next
        log := g.log ++ [(p, todo.first)] }
    else none
  | .reset p cb =>
    if g.Made p ∧ (g.todo p).isNone then
      some { g with
        todo := Function.update g.todo p (some cb)
        given := Function.update g.given p (g.given p ++ cb.segments) }
    else none

/-- The segments left to a fiber. -/
def left (g : Generators Seg) (p : PiberId) : List Seg := ((g.todo p).map Body.segments).getD []

end Generators

/-- What a fiber has run. -/
def ran (p : PiberId) (log : List (PiberId × Seg)) : List Seg :=
  (log.filter fun entry => entry.1 = p).map Prod.snd

/-- A fiber between two resumes. -/
def Fits (p : PiberId) (piber : PiberObject (Body Seg) (Point Seg)) : Option (Body Seg) → Prop
  | none => piber.state = .TERM
  | some todo => piber.state = .READY ∧
    (piber.ctx = ⟨p, .entry⟩ ∧ piber.cb = some todo ∨ piber.ctx = ⟨p, .body p todo⟩)

/-- The thread in its main fiber, and the generators its fibers stand for. -/
structure Agrees (s : PiberThread (Body Seg) (Point Seg)) (g : Generators Seg) : Prop where
  created : s.created = g.created
  current : s.t_piber = some 0
  main : s.t_thread_piber = some 0
  kind : ∀ p, g.Made p → (s.pibers p).runInScheduler = false
  fits : ∀ p, g.Made p → Fits p (s.pibers p) (g.todo p)

variable {m : Machine Seg} {g h : Generators Seg} {p : PiberId} {calls : List (Call Seg)}
variable {todo : Body Seg}

/-- The thread while a fiber runs that the main fiber has resumed. -/
def inside (m : Machine Seg) (p : PiberId) (calls : List (Call Seg)) (point : Point Seg) :
    Machine Seg :=
  { m with thread := { m.thread with
      t_piber := some p
      pibers := Function.update
        (Function.update m.thread.pibers p { m.thread.pibers p with state := .RUNING })
        0 { m.thread.pibers 0 with ctx := ⟨0, .main calls⟩ }
      running := ⟨p, point⟩ } }

theorem partner_main (agrees : Agrees m.thread g) (made : g.Made p) :
    m.thread.partner p = some 0 := by
  simp [PiberThread.partner, agrees.kind p made, agrees.main]

/-- A resume leads into the body, through the entry of `MainFunc` the first
time. -/
theorem resume_enters (agrees : Agrees m.thread g) (made : g.Made p) (left : g.todo p = some todo)
    (here : m.thread.running = ⟨0, .main (.resume p :: calls)⟩) :
    Reaches step m (inside m p calls (.body p todo)) := by
  have apart : p ≠ 0 := Nat.pos_iff_ne_zero.mp made.1
  have resumed := PiberThread.resume_eq (.main calls) (partner_main agrees made) apart
  have fits := agrees.fits p made
  rw [left] at fits
  obtain ⟨ready, entry | body⟩ := fits
  · obtain ⟨ctx, held⟩ := entry
    have first : step m = some (inside m p calls .entry) := by
      simp [step, here, resumed, inside, ctx]
    have second : step (inside m p calls .entry) = some (inside m p calls (.body p todo)) := by
      simp [step, inside, PiberThread.getThis, Function.update_of_ne apart, held]
    exact .tail (.single first) second
  · have first : step m = some (inside m p calls (.body p todo)) := by
      simp [step, here, resumed, inside, body]
    exact .single first

/-- The thread back in its main fiber, which had resumed this one. -/
def returned (m : Machine Seg) (p : PiberId) (calls : List (Call Seg))
    (piber : PiberObject (Body Seg) (Point Seg)) : Machine Seg :=
  { m with thread := { m.thread with
      t_piber := m.thread.t_thread_piber
      pibers := Function.update
        (Function.update m.thread.pibers 0 { m.thread.pibers 0 with ctx := ⟨0, .main calls⟩ })
        p piber
      running := ⟨0, .main calls⟩ } }

/-- Only the resumed fiber differs from what it was, and the main context. -/
private theorem update_inside (apart : p ≠ 0) (piber running : PiberObject (Body Seg) (Point Seg))
    (main : PiberObject (Body Seg) (Point Seg)) (f : PiberId → PiberObject (Body Seg) (Point Seg)) :
    Function.update (Function.update (Function.update f p running) 0 main) p piber =
      Function.update (Function.update f 0 main) p piber := by
  rw [Function.update_comm apart, Function.update_idem]

theorem partner_inside (agrees : Agrees m.thread g) (made : g.Made p) (point : Point Seg) :
    (inside m p calls point).thread.partner p = some 0 := by
  have apart : p ≠ 0 := Nat.pos_iff_ne_zero.mp made.1
  simp [PiberThread.partner, inside, Function.update_of_ne apart, agrees.kind p made, agrees.main]

theorem parting_returns (agrees : Agrees m.thread g) (made : g.Made p) (left : Body Seg) :
    step (inside m p calls (.parting p left)) = some (returned m p calls
      { m.thread.pibers p with state := .READY, ctx := ⟨p, .body p left⟩ }) := by
  have apart : p ≠ 0 := Nat.pos_iff_ne_zero.mp made.1
  have yielded : (inside m p calls (.parting p left)).thread.yield p (.body p left) =
      some (returned m p calls
        { m.thread.pibers p with state := .READY, ctx := ⟨p, .body p left⟩ }).thread := by
    rw [PiberThread.yield_eq _ (partner_inside agrees made _) apart]
    simp [inside, returned, Function.update_of_ne apart, update_inside apart]
  exact congrArg (Option.map _) yielded

theorem ending_returns (agrees : Agrees m.thread g) (made : g.Made p) :
    step (inside m p calls (.ending p)) = some (returned m p calls
      { m.thread.pibers p with state := .TERM, cb := none, ctx := ⟨p, .ended⟩ }) := by
  have apart : p ≠ 0 := Nat.pos_iff_ne_zero.mp made.1
  have finished : (inside m p calls (.ending p)).thread.finish p .ended =
      some (returned m p calls
        { m.thread.pibers p with state := .TERM, cb := none, ctx := ⟨p, .ended⟩ }).thread := by
    rw [PiberThread.finish_eq _ (partner_inside agrees made _) apart]
    simp [inside, returned, Function.update_of_ne apart, update_inside apart]
  exact congrArg (Option.map _) finished

/-- A segment leads back to the main fiber, through a yield or the end of
`MainFunc`. -/
theorem body_returns (calls : List (Call Seg)) (todo : Body Seg) (agrees : Agrees m.thread g)
    (made : g.Made p) :
    ∃ piber, Reaches step (inside m p calls (.body p todo))
        (returned { m with log := m.log ++ [(p, todo.first)] } p calls piber) ∧
      Fits p piber todo.next ∧ piber.runInScheduler = false := by
  have kind := agrees.kind p made
  let logged : Machine Seg := { m with log := m.log ++ [(p, todo.first)] }
  have agrees : Agrees logged.thread g := agrees
  cases next : todo.next with
  | none =>
    have ran : step (inside m p calls (.body p todo)) =
        some (inside logged p calls (.ending p)) := by
      simp [step, inside, next, logged]
    exact ⟨_, .tail (.single ran) (ending_returns agrees made), rfl, kind⟩
  | some left =>
    have ran : step (inside m p calls (.body p todo)) =
        some (inside logged p calls (.parting p left)) := by
      simp [step, inside, next, logged]
    exact ⟨_, .tail (.single ran) (parting_returns agrees made left), ⟨rfl, .inr rfl⟩, kind⟩

/-- One fiber changes, and perhaps the context of the main fiber. -/
private theorem Agrees.store {s t : PiberThread (Body Seg) (Point Seg)} (agrees : Agrees s g)
    (created : t.created = h.created) (current : t.t_piber = some 0)
    (main : t.t_thread_piber = some 0) (made : ∀ q, h.Made q → q = p ∨ g.Made q)
    (others : ∀ q, q ≠ 0 → q ≠ p → t.pibers q = s.pibers q)
    (todos : h.todo = Function.update g.todo p (h.todo p))
    (kind : (t.pibers p).runInScheduler = false) (fits : Fits p (t.pibers p) (h.todo p)) :
    Agrees t h := by
  have elsewhere : ∀ q, h.Made q → q ≠ p → g.Made q ∧ t.pibers q = s.pibers q := by
    intro q known apart
    have before := (made q known).resolve_left apart
    exact ⟨before, others q (Nat.pos_iff_ne_zero.mp before.1) apart⟩
  refine ⟨created, current, main, fun q known => ?_, fun q known => ?_⟩
  · by_cases same : q = p
    · rw [same, kind]
    · obtain ⟨before, kept⟩ := elsewhere q known same
      rw [kept]
      exact agrees.kind q before
  · by_cases same : q = p
    · rw [same]
      exact fits
    · obtain ⟨before, kept⟩ := elsewhere q known same
      rw [kept, todos, Function.update_of_ne same]
      exact agrees.fits q before

/-- The next call of the main fiber does what it does to the generators. -/
theorem call_agrees {call : Call Seg} (agrees : Agrees m.thread g) (log : m.log = g.log)
    (here : m.thread.running = ⟨0, .main (call :: calls)⟩) (called : g.call call = some h) :
    ∃ t, Reaches step m t ∧ t.thread.running = ⟨0, .main calls⟩ ∧ Agrees t.thread h ∧
      t.log = h.log := by
  cases call with
  | create cb =>
    cases called
    have stepped : step m = some
        { m with thread := (m.thread.create .entry (some cb) false).goto (.main calls) } := by
      simp [step, here]
    refine ⟨_, .single stepped, by simp [PiberThread.create, here], ?_, log⟩
    apply agrees.store (p := g.created)
    case created => simp [PiberThread.create, agrees.created]
    case current => exact agrees.current
    case main => exact agrees.main
    case made =>
      intro q made
      have bound : q < g.created + 1 := made.2
      rcases Nat.lt_succ_iff_lt_or_eq.mp bound with old | new
      · exact .inr ⟨made.1, old⟩
      · exact .inl new
    case others =>
      intro q _ apart
      simp [PiberThread.create, agrees.created, Function.update_of_ne apart]
    case todos => simp
    case kind => simp [PiberThread.create, agrees.created]
    case fits =>
      simp only [PiberThread.create, PiberThread.goto, PiberThread.setPiber, agrees.created,
        Function.update_self]
      exact ⟨rfl, .inl ⟨rfl, rfl⟩⟩
  | resume p =>
    simp only [Generators.call] at called
    split at called
    · rename_i made
      obtain ⟨todo, left, rfl⟩ := Option.map_eq_some_iff.mp called
      obtain ⟨piber, back, fits, kind⟩ := body_returns calls todo agrees made
      refine ⟨_, (resume_enters agrees made left here).trans back, rfl, ?_, ?_⟩
      · apply agrees.store (p := p)
        case created => exact agrees.created
        case current => exact agrees.main
        case main => exact agrees.main
        case made => exact fun q known => .inr known
        case others =>
          intro q main apart
          simp [returned, Function.update_of_ne apart, Function.update_of_ne main]
        case todos => simp
        case kind => simpa [returned] using kind
        case fits => simpa [returned] using fits
      · simp [returned, log]
    · cases called
  | reset p cb =>
    simp only [Generators.call] at called
    split at called <;> cases called
    rename_i admitted
    obtain ⟨made, ended⟩ := admitted
    have stepped : step m = some
        { m with thread := (m.thread.reset .entry p (some cb)).goto (.main calls) } := by
      simp [step, here]
    refine ⟨_, .single stepped, by simp [PiberThread.reset, here], ?_, log⟩
    apply agrees.store (p := p)
    case created => exact agrees.created
    case current => exact agrees.current
    case main => exact agrees.main
    case made => exact fun q known => .inr known
    case others =>
      intro q _ apart
      simp [PiberThread.reset, Function.update_of_ne apart]
    case todos => simp
    case kind => simpa [PiberThread.reset] using agrees.kind p made
    case fits =>
      simp only [PiberThread.reset, PiberThread.goto, PiberThread.setPiber, Function.update_self]
      exact ⟨rfl, .inl ⟨rfl, rfl⟩⟩

theorem start_agrees (calls : List (Call Seg)) : Agrees (start calls).thread {} where
  created := rfl
  current := rfl
  main := rfl
  kind _ made := absurd made.2 (Nat.not_lt.mpr made.1)
  fits _ made := absurd made.2 (Nat.not_lt.mpr made.1)

theorem calls_agree (rest : List (Call Seg)) (agrees : Agrees m.thread g) (log : m.log = g.log)
    (here : m.thread.running = ⟨0, .main (calls ++ rest)⟩)
    (called : Runs.run Generators.call g calls = some h) :
    ∃ t, Reaches step m t ∧ t.thread.running = ⟨0, .main rest⟩ ∧ Agrees t.thread h ∧
      t.log = h.log := by
  induction calls generalizing m g with
  | nil =>
    cases called
    exact ⟨m, .refl, here, agrees, log⟩
  | cons call calls ih =>
    unfold Runs.run at called
    cases one : g.call call with
    | none => simp [one] at called
    | some next =>
      simp only [one] at called
      obtain ⟨t, first, there, agrees, log⟩ := call_agrees agrees log here one
      obtain ⟨u, later, home, agrees, log⟩ := ih agrees log there called
      exact ⟨u, first.trans later, home, agrees, log⟩

namespace Generators

/-- What a fiber has run and what is left to it is what it was given. -/
structure InOrder (g : Generators Seg) : Prop where
  main : 0 < g.created
  unmade : ∀ p, ¬ g.Made p → g.todo p = none
  split : ∀ p, ran p g.log ++ g.left p = g.given p

theorem segments_next (todo : Body Seg) :
    todo.segments = todo.first :: (todo.next.map Body.segments).getD [] := by
  unfold Body.next Body.segments
  cases todo.rest <;> rfl

theorem ran_append (p q : PiberId) (log : List (PiberId × Seg)) (seg : Seg) :
    ran p (log ++ [(q, seg)]) = if q = p then ran p log ++ [seg] else ran p log := by
  by_cases same : q = p <;> simp [ran, same]

/-- A fiber with nothing left is given a body. -/
private theorem InOrder.give {cb : Body Seg} (order : InOrder g) (log : h.log = g.log)
    (none_left : g.todo p = none) (todo : h.todo = Function.update g.todo p (some cb))
    (given : h.given = Function.update g.given p (g.given p ++ cb.segments)) (q : PiberId) :
    ran q h.log ++ h.left q = h.given q := by
  have before := order.split q
  rw [log, left, todo, given]
  by_cases same : q = p
  · subst same
    simp only [left, none_left, Option.map_none, Option.getD_none, List.append_nil] at before
    simp [before]
  · simpa [left, Function.update_of_ne same] using before

theorem inOrder_call {call : Call Seg} (order : InOrder g) (called : g.call call = some h) :
    InOrder h := by
  cases call with
  | create cb =>
    cases called
    have fresh : g.todo g.created = none :=
      order.unmade _ fun made => absurd made.2 (Nat.lt_irrefl _)
    refine ⟨Nat.succ_pos _, fun q unmade => ?_, order.give rfl fresh rfl rfl⟩
    have apart : q ≠ g.created := by
      intro same
      exact unmade ⟨same ▸ order.main, same ▸ Nat.lt_succ_self _⟩
    refine (Function.update_of_ne apart _ _).trans ?_
    exact order.unmade q fun made => unmade ⟨made.1, Nat.lt_succ_of_lt made.2⟩
  | resume p =>
    simp only [call] at called
    split at called
    · rename_i made
      obtain ⟨todo, found, rfl⟩ := Option.map_eq_some_iff.mp called
      refine ⟨order.main, fun q unmade => ?_, fun q => ?_⟩
      · have apart : q ≠ p := fun same => unmade (same ▸ made)
        exact (Function.update_of_ne apart _ _).trans (order.unmade q unmade)
      · have before := order.split q
        by_cases same : p = q
        · subst same
          simp only [left, found, Option.map_some, Option.getD_some, segments_next todo] at before
          simpa [ran_append, left] using before
        · simpa [ran_append, same, left, Function.update_of_ne (Ne.symm same)] using before
    · cases called
  | reset p cb =>
    simp only [call] at called
    split at called <;> cases called
    rename_i admitted
    obtain ⟨made, ended⟩ := admitted
    have none_left := Option.isNone_iff_eq_none.mp ended
    refine ⟨order.main, fun q unmade => ?_, order.give rfl none_left rfl rfl⟩
    have apart : q ≠ p := fun same => unmade (same ▸ made)
    exact (Function.update_of_ne apart _ _).trans (order.unmade q unmade)

theorem inOrder_run (called : Runs.run call {} calls = some g) : InOrder g := by
  have reached := Runs.reachable_of_run calls called
  apply reached.invariant InOrder
  case start => exact ⟨Nat.one_pos, fun _ _ => rfl, fun _ => rfl⟩
  case keeps => exact fun _ _ _ order _ called => inOrder_call order called

end Generators

theorem fits_state {piber : PiberObject (Body Seg) (Point Seg)} {left : Option (Body Seg)}
    (fits : Fits p piber left) : piber.state = if left.isSome then .READY else .TERM := by
  cases left with
  | none => exact fits
  | some todo => exact fits.1

/-- **Fibers are coroutines.** Behind any permitted calls, of which a resume is
for a fiber with segments left and a reset for one without, the main fiber is
in execution again, each fiber has run its segments in order, and it is `TERM`
if none is left and `READY` else. A further resume runs one segment, comes back,
and changes no other fiber. -/
theorem fibers_are_coroutines (calls rest : List (Call Seg))
    (permitted : Runs.run Generators.call {} calls = some g) :
    ∃ m, Reaches step (start (calls ++ rest)) m ∧ m.thread.running = ⟨0, .main rest⟩ ∧
      m.thread.t_piber = some 0 ∧ m.log = g.log ∧
      (∀ p, ran p m.log ++ g.left p = g.given p) ∧
      (∀ p, g.Made p →
        (m.thread.pibers p).state = if (g.todo p).isSome then .READY else .TERM) ∧
      ∀ p todo later, g.Made p → g.todo p = some todo → rest = .resume p :: later →
        ∃ t, Reaches step m t ∧ t.thread.running = ⟨0, .main later⟩ ∧
          t.log = m.log ++ [(p, todo.first)] ∧
          (t.thread.pibers p).state = (if todo.next.isSome then .READY else .TERM) ∧
          ∀ q, q ≠ 0 → q ≠ p → t.thread.pibers q = m.thread.pibers q := by
  have order := Generators.inOrder_run permitted
  obtain ⟨m, reached, home, agrees, log⟩ :=
    calls_agree rest (start_agrees (calls ++ rest)) rfl rfl permitted
  refine ⟨m, reached, home, agrees.current, log, fun p => log ▸ order.split p,
    fun p made => fits_state (agrees.fits p made), ?_⟩
  rintro p todo later made left rfl
  obtain ⟨piber, back, fits, -⟩ := body_returns later todo agrees made
  refine ⟨_, (resume_enters agrees made left home).trans back, rfl, rfl, ?_, fun q main apart => ?_⟩
  · simpa [returned] using fits_state fits
  · simp [returned, Function.update_of_ne apart, Function.update_of_ne main]

/-- Two fibers take turns, and the first is used again for another function. -/
def twoFibers : List (Call ℕ) :=
  [.create ⟨10, [11]⟩, .create ⟨20, [21, 22]⟩, .resume 1, .resume 2, .resume 2, .resume 1,
    .reset 1 ⟨30, []⟩, .resume 1]

theorem two_fibers_take_turns :
    ∃ m, Reaches step (start twoFibers) m ∧ m.thread.running = ⟨0, .main []⟩ ∧
      m.log = [(1, 10), (2, 20), (2, 21), (1, 11), (1, 30)] ∧
      (m.thread.pibers 1).state = .TERM ∧ (m.thread.pibers 2).state = .READY := by
  obtain ⟨m, reached, home, -, log, -, states, -⟩ :=
    fibers_are_coroutines twoFibers [] rfl
  exact ⟨m, reached, home, log, states 1 (by decide), states 2 (by decide)⟩

end Synergy.Coroutine
