import Synergy.PiberContext
import Synergy.Runs

/-! Fibers that resume fibers. Neither `resume` nor `yield` notes who resumed:
the resumer's context goes into the main fiber of the thread, or into the fiber
of the scheduler for a fiber with `m_runInScheduler`, and a yield continues what
is there. What bodies do is left open. -/
namespace Synergy

/-- The points of the program. Each call of `resume` and `yield` has a number
of its own, and with it the point right behind it; `cur` is the local of
`MainFunc`. -/
inductive Place where
  | main (behind : ℕ)
  | entry
  | body (cur : PiberId) (behind : ℕ)
  | ended
  deriving DecidableEq, Repr

/-- Where code that calls goes on behind its call. -/
def Place.after : Place → ℕ → Option Place
  | .main _, behind => some (.main behind)
  | .body cur _, behind => some (.body cur behind)
  | .entry, _ | .ended, _ => none

/-- The thread, the number of the next call, and as history where each fiber
was last resumed from. -/
structure Nesting where
  thread : PiberThread Unit Place
  behind : ℕ := 1
  resumedFrom : PiberId → Option (Ucontext Place) := fun _ => none

namespace Nesting

/-- What `t_scheduler_piber` is on the thread: nothing, the main fiber on a
worker thread, or the root fiber on the thread that constructed a scheduler. -/
inductive SchedulerPiber where
  | absent
  | main
  | root
  deriving DecidableEq, Repr

/-- A thread behind its first `Piber::GetThis()`; the main fiber is `0`. -/
def initial (scheduler : SchedulerPiber) : Nesting :=
  let thread := (PiberThread.blank (.main 0)).getThis.1
  match scheduler with
  | .absent => { thread }
  | .main => { thread := { thread with t_scheduler_piber := some 0 } }
  | .root =>
    { thread := { thread.create .entry (some ()) false with t_scheduler_piber := some 1 } }

/-- What the fiber in execution does: it calls a constructor, `resume` or
`yield`, its `MainFunc` begins, or its entry function returns. -/
inductive Action where
  | create (run_in_scheduler : Bool)
  | resume (q : PiberId)
  | yield (p : PiberId)
  | enter
  | finish
  deriving DecidableEq, Repr

/-- A resume is for another fiber that is neither `TERM` nor running; a yield is
in the body of a fiber. -/
def step (s : Nesting) : Action → Option Nesting
  | .create run_in_scheduler =>
    some { s with thread := s.thread.create .entry (some ()) run_in_scheduler }
  | .resume q =>
    match s.thread.running.point.after s.behind with
    | some point =>
      if q < s.thread.created ∧ q ≠ s.thread.running.stack ∧
          (s.thread.pibers q).state = .READY then
        (s.thread.resume q point).map fun thread =>
          { thread
            behind := s.behind + 1
            resumedFrom := Function.update s.resumedFrom q
              (some ⟨s.thread.running.stack, point⟩) }
      else none
    | none => none
  | .yield p =>
    match s.thread.running.point with
    | .body cur _ =>
      (s.thread.yield p (.body cur s.behind)).map fun thread =>
        { s with thread, behind := s.behind + 1 }
    | _ => none
  | .enter =>
    match s.thread.running.point with
    | .entry =>
      let (thread, cur) := s.thread.getThis
      some { s with thread := thread.goto (.body cur s.behind), behind := s.behind + 1 }
    | _ => none
  | .finish =>
    match s.thread.running.point with
    | .body cur _ => (s.thread.finish cur .ended).map fun thread => { s with thread }
    | _ => none

/-- The steps with which a fiber gives up control. -/
def Leaves : Action → Prop
  | .yield _ | .finish => True
  | _ => False

/-- Control goes back to the fiber that last resumed this one, right behind
that call. -/
def HandsBack (s t : Nesting) : Prop :=
  s.resumedFrom s.thread.running.stack = some t.thread.running

/-- Each resume puts its caller where no fiber still running has put its
resumer, and is for a fiber whose own context has not served for that; a fiber
yields on its own object. -/
def Orderly (s : Nesting) : Action → Prop
  | .resume q =>
    (∀ p < s.thread.created, p ≠ 0 → (s.thread.pibers p).state = .RUNING →
      s.thread.partner p ≠ s.thread.partner q) ∧ (s.thread.pibers q).ctx.stack = q
  | .yield p => p = s.thread.running.stack
  | _ => True

instance (s : Nesting) : (a : Action) → Decidable (Orderly s a)
  | .resume _ => inferInstanceAs (Decidable (_ ∧ _))
  | .yield p => inferInstanceAs (Decidable (p = _))
  | .create _ | .enter | .finish => .isTrue trivial

/-- The place behind a call of the innermost of these fibers. -/
def placeOf : List PiberId → ℕ → Place
  | [], behind => .main behind
  | c :: _, behind => .body c behind

/-- Each fiber of the chain was resumed by the next one, the last by the main
fiber. -/
def Linked (resumedFrom : PiberId → Option (Ucontext Place)) : List PiberId → Prop
  | [] => True
  | c :: rest =>
    (∃ behind, resumedFrom c = some ⟨rest.headD 0, placeOf rest behind⟩) ∧
      Linked resumedFrom rest

/-- The resumes not handed back yet, innermost first. -/
structure Nested (s : Nesting) (chain : List PiberId) : Prop where
  main : s.thread.t_thread_piber = some 0 ∧ (s.thread.pibers 0).state = .RUNING ∧
    0 < s.thread.created
  scheduler : ∀ o, s.thread.t_scheduler_piber = some o →
    o < s.thread.created ∧ (o ≠ 0 → (s.thread.pibers o).runInScheduler = false)
  innermost : (∃ behind, s.thread.running = ⟨chain.headD 0, placeOf chain behind⟩) ∨
    ∃ c rest, chain = c :: rest ∧ s.thread.running = ⟨c, .entry⟩ ∧ s.thread.t_piber = some c
  members : ∀ c ∈ chain, c ≠ 0 ∧ c < s.thread.created ∧ (s.thread.pibers c).state = .RUNING
  resting : ∀ q < s.thread.created, q ≠ 0 → q ∉ chain →
    (s.thread.pibers q).state ≠ .RUNING ∧
    ((s.thread.pibers q).state = .READY → (s.thread.pibers q).ctx.stack = q →
      (s.thread.pibers q).ctx.point = .entry ∨
        ∃ behind, (s.thread.pibers q).ctx.point = .body q behind)
  linked : Linked s.resumedFrom chain
  held : ∀ c ∈ chain, ∃ o, s.thread.partner c = some o ∧
    s.resumedFrom c = some (s.thread.pibers o).ctx
  apart : chain.Pairwise fun above below => above ≠ below ∧
    s.thread.partner above ≠ s.thread.partner below ∧ s.thread.partner below ≠ some above

variable {s t : Nesting} {chain rest : List PiberId} {c : PiberId}

/-- One step, by the branch of the code that takes it. -/
inductive Move (s : Nesting) : Action → Nesting → Prop where
  | created (run_in_scheduler : Bool) :
      Move s (.create run_in_scheduler)
        { s with thread := s.thread.create .entry (some ()) run_in_scheduler }
  | resumed (q : PiberId) (point : Place) (thread : PiberThread Unit Place)
      (after : s.thread.running.point.after s.behind = some point)
      (bound : q < s.thread.created) (apart : q ≠ s.thread.running.stack)
      (ready : (s.thread.pibers q).state = .READY)
      (entered : s.thread.resume q point = some thread) :
      Move s (.resume q)
        { thread
          behind := s.behind + 1
          resumedFrom := Function.update s.resumedFrom q
            (some ⟨s.thread.running.stack, point⟩) }
  | yielded (p cur : PiberId) (behind : ℕ) (thread : PiberThread Unit Place)
      (point : s.thread.running.point = .body cur behind)
      (left : s.thread.yield p (.body cur s.behind) = some thread) :
      Move s (.yield p) { s with thread, behind := s.behind + 1 }
  | began (point : s.thread.running.point = .entry) :
      Move s .enter
        { s with
          thread := s.thread.getThis.1.goto (.body s.thread.getThis.2 s.behind)
          behind := s.behind + 1 }
  | finished (cur : PiberId) (behind : ℕ) (thread : PiberThread Unit Place)
      (point : s.thread.running.point = .body cur behind)
      (left : s.thread.finish cur .ended = some thread) :
      Move s .finish { s with thread }

theorem move_of_step {a : Action} (stepped : step s a = some t) : Move s a t := by
  cases a with
  | create run_in_scheduler =>
    cases stepped
    exact .created run_in_scheduler
  | resume q =>
    simp only [step] at stepped
    split at stepped
    · rename_i point after
      split at stepped
      · rename_i permitted
        obtain ⟨bound, apart, ready⟩ := permitted
        obtain ⟨thread, entered, rfl⟩ := Option.map_eq_some_iff.mp stepped
        exact .resumed q point thread after bound apart ready entered
      · cases stepped
    · cases stepped
  | yield p =>
    simp only [step] at stepped
    split at stepped
    · rename_i cur behind point
      obtain ⟨thread, left, rfl⟩ := Option.map_eq_some_iff.mp stepped
      exact .yielded p cur behind thread point left
    · cases stepped
  | enter =>
    simp only [step] at stepped
    split at stepped
    · rename_i point
      cases stepped
      exact .began point
    · cases stepped
  | finish =>
    simp only [step] at stepped
    split at stepped
    · rename_i cur behind point
      obtain ⟨thread, left, rfl⟩ := Option.map_eq_some_iff.mp stepped
      exact .finished cur behind thread point left
    · cases stepped

theorem nested_initial (scheduler : SchedulerPiber) : Nested (initial scheduler) [] := by
  cases scheduler with
  | absent =>
    refine ⟨⟨rfl, rfl, by decide⟩, by simp [initial, PiberThread.getThis, PiberThread.blank],
      .inl ⟨0, rfl⟩, by simp, fun q bound other => ?_, trivial, by simp, .nil⟩
    exact absurd (Nat.lt_one_iff.mp bound) other
  | main =>
    refine ⟨⟨rfl, rfl, by decide⟩, fun o pointer => ?_, .inl ⟨0, rfl⟩, by simp,
      fun q bound other => ?_, trivial, by simp, .nil⟩
    · cases pointer
      exact ⟨by decide, fun other => absurd rfl other⟩
    · exact absurd (Nat.lt_one_iff.mp bound) other
  | root =>
    refine ⟨⟨rfl, rfl, by decide⟩, fun o pointer => ?_, .inl ⟨0, rfl⟩, by simp,
      fun q bound other _ => ?_, trivial, by simp, .nil⟩
    · cases pointer
      exact ⟨by decide, fun _ => rfl⟩
    · have root : q = 1 := Nat.le_antisymm (Nat.le_of_lt_succ bound) (Nat.pos_of_ne_zero other)
      rw [root]
      exact ⟨by decide, fun _ _ => .inl rfl⟩

theorem Nested.partner_apart (nested : Nested s chain) {p : PiberId} (other : p ≠ 0) :
    s.thread.partner p ≠ some p := by
  intro own
  unfold PiberThread.partner at own
  split at own
  · rename_i kind
    rw [(nested.scheduler p own).2 other] at kind
    cases kind
  · rw [nested.main.1] at own
    exact other (Option.some.inj own).symm

theorem Nested.other {q : PiberId} (nested : Nested s chain)
    (ready : (s.thread.pibers q).state = .READY) : q ≠ 0 := by
  rintro rfl
  simp [nested.main.2.1] at ready

theorem Nested.partner_made {p o : PiberId} (nested : Nested s chain)
    (found : s.thread.partner p = some o) : o < s.thread.created := by
  unfold PiberThread.partner at found
  split at found
  · exact (nested.scheduler o found).1
  · rw [nested.main.1] at found
    exact Option.some.inj found ▸ nested.main.2.2

theorem Linked.resumer {resumedFrom : PiberId → Option (Ucontext Place)}
    (linked : Linked resumedFrom chain) (member : c ∈ chain) :
    ∃ ctx, resumedFrom c = some ctx ∧ (ctx.stack = 0 ∨ ctx.stack ∈ chain) := by
  induction chain with
  | nil => cases member
  | cons head rest ih =>
    obtain ⟨⟨behind, resumer⟩, later⟩ := linked
    rcases List.mem_cons.mp member with rfl | inside
    · refine ⟨_, resumer, ?_⟩
      cases rest with
      | nil => exact .inl rfl
      | cons next rest => exact .inr (by simp)
    · obtain ⟨ctx, found, stack⟩ := ih later inside
      exact ⟨ctx, found, stack.imp_right (List.mem_cons_of_mem _)⟩

theorem Linked.resume {resumedFrom : PiberId → Option (Ucontext Place)} {q : PiberId}
    (linked : Linked resumedFrom chain) (fresh : q ∉ chain) (ctx : Option (Ucontext Place)) :
    Linked (Function.update resumedFrom q ctx) chain := by
  induction chain with
  | nil => trivial
  | cons head rest ih =>
    have apart : head ≠ q := fun same => fresh (same ▸ List.mem_cons_self)
    refine ⟨?_, ih linked.2 fun member => fresh (List.mem_cons_of_mem _ member)⟩
    rw [Function.update_of_ne apart]
    exact linked.1

theorem partner_same {s t : PiberThread Unit Place} {p : PiberId}
    (kind : (t.pibers p).runInScheduler = (s.pibers p).runInScheduler)
    (scheduler : t.t_scheduler_piber = s.t_scheduler_piber)
    (main : t.t_thread_piber = s.t_thread_piber) : t.partner p = s.partner p := by
  simp [PiberThread.partner, kind, scheduler, main]

/-- The innermost fiber gives up control: the next one goes on behind its
resume. -/
private theorem Nested.leave {o : PiberId} (piber : PiberObject Unit Place)
    (nested : Nested s (c :: rest)) (found : s.thread.partner c = some o)
    (kind : piber.runInScheduler = (s.thread.pibers c).runInScheduler)
    (stopped : piber.state ≠ .RUNING)
    (point : piber.state = .READY → ∃ behind, piber.ctx.point = .body c behind)
    (thread : t.thread = { s.thread with
      t_piber := s.thread.t_thread_piber
      pibers := Function.update s.thread.pibers c piber
      running := (s.thread.pibers o).ctx })
    (history : t.resumedFrom = s.resumedFrom) :
    s.resumedFrom c = some t.thread.running ∧ Nested t rest := by
  have here := nested.members c List.mem_cons_self
  have kinds : ∀ p, (t.thread.pibers p).runInScheduler = (s.thread.pibers p).runInScheduler := by
    intro p
    rw [thread]
    by_cases same : p = c
    · subst same
      simpa using kind
    · simp [Function.update_of_ne same]
  have partners : ∀ p, t.thread.partner p = s.thread.partner p := fun p =>
    partner_same (kinds p) (by rw [thread]) (by rw [thread])
  have others : ∀ p, p ≠ c → t.thread.pibers p = s.thread.pibers p := by
    intro p apart
    rw [thread]
    exact Function.update_of_ne apart _ _
  have handed : s.resumedFrom c = some t.thread.running := by
    obtain ⟨o', same, held⟩ := nested.held c List.mem_cons_self
    obtain rfl : o = o' := Option.some.inj (found.symm.trans same)
    rw [held, thread]
  refine ⟨handed, ?_⟩
  obtain ⟨below, apart⟩ := List.pairwise_cons.mp nested.apart
  have created : t.thread.created = s.thread.created := by rw [thread]
  constructor
  case main =>
    rw [others 0 (Ne.symm here.1), created]
    refine ⟨?_, nested.main.2⟩
    rw [thread]
    exact nested.main.1
  case scheduler =>
    intro o' slot
    rw [kinds, created]
    apply nested.scheduler
    rw [← slot, thread]
  case innermost =>
    obtain ⟨behind, resumer⟩ := nested.linked.1
    exact .inl ⟨behind, Option.some.inj (handed.symm.trans resumer)⟩
  case members =>
    intro d member
    rw [others d (Ne.symm (below d member).1), created]
    exact nested.members d (List.mem_cons_of_mem _ member)
  case resting =>
    intro q bound main out
    rw [created] at bound
    by_cases same : q = c
    · subst same
      have now : t.thread.pibers q = piber := by
        rw [thread]
        exact Function.update_self _ _ _
      rw [now]
      exact ⟨stopped, fun ready _ => .inr (point ready)⟩
    · rw [others q same]
      exact nested.resting q bound main (by simp [same, out])
  case linked =>
    rw [history]
    exact nested.linked.2
  case held =>
    intro d member
    obtain ⟨o', slot, held⟩ := nested.held d (List.mem_cons_of_mem _ member)
    have untouched : o' ≠ c := fun same => (below d member).2.2 (by rw [slot, same])
    exact ⟨o', by rw [partners, slot], by rw [history, held, others o' untouched]⟩
  case apart =>
    simpa only [partners] using apart

private theorem Nested.fresh {q : PiberId} (nested : Nested s chain)
    (ready : (s.thread.pibers q).state = .READY) : q ∉ chain := by
  intro member
  simp [(nested.members q member).2.2] at ready

/-- No fiber of the chain has its resumer in the context of a fiber whose
context is its own. -/
private theorem Nested.slot_apart {q d : PiberId} (nested : Nested s chain) (member : d ∈ chain)
    (own : (s.thread.pibers q).ctx.stack = q) (other : q ≠ 0) (fresh : q ∉ chain) :
    s.thread.partner d ≠ some q := by
  intro pointer
  obtain ⟨o, same, held⟩ := nested.held d member
  obtain rfl : q = o := Option.some.inj (pointer.symm.trans same)
  obtain ⟨ctx, resumer, stack⟩ := nested.linked.resumer member
  rw [Option.some.inj (held.symm.trans resumer)] at own
  rcases stack with none_left | inside
  · exact other (own.symm.trans none_left)
  · exact fresh (own ▸ inside)

/-- What a resume of `q` leaves of the fibers, with the resumer in `o`. -/
private structure Entered (before after : PiberId → PiberObject Unit Place) (q o : PiberId)
    (resumer : Ucontext Place) : Prop where
  now : after q = { before q with state := .RUNING }
  slot : (after o).ctx = resumer
  states : ∀ p, p ≠ q → (after p).state = (before p).state
  ctxs : ∀ p, p ≠ o → (after p).ctx = (before p).ctx
  kinds : ∀ p, (after p).runInScheduler = (before p).runInScheduler

private theorem entered_update (pibers : PiberId → PiberObject Unit Place) {q o : PiberId}
    (resumer : Ucontext Place) (apart : o ≠ q) :
    Entered pibers (Function.update (Function.update pibers q { pibers q with state := .RUNING })
      o { pibers o with ctx := resumer }) q o resumer := by
  constructor
  case now => simp [Function.update_of_ne apart.symm]
  case slot => simp
  case states =>
    intro p away
    by_cases same : p = o
    · simp [same]
    · simp [Function.update_of_ne same, Function.update_of_ne away]
  case ctxs =>
    intro p away
    rw [Function.update_of_ne away]
    by_cases here : p = q
    · simp [here]
    · rw [Function.update_of_ne here]
  case kinds =>
    intro p
    by_cases same : p = o
    · simp [same]
    · rw [Function.update_of_ne same]
      by_cases here : p = q
      · simp [here]
      · rw [Function.update_of_ne here]

/-- A fiber is resumed; it becomes the innermost one. -/
private theorem Nested.enterFiber {q o : PiberId} (nested : Nested s chain)
    (bound : q < s.thread.created) (ready : (s.thread.pibers q).state = .READY)
    (orderly : Orderly s (.resume q)) (found : s.thread.partner q = some o)
    (thread : t.thread = { s.thread with
      t_piber := some q
      pibers := Function.update
        (Function.update s.thread.pibers q { s.thread.pibers q with state := .RUNING })
        o { s.thread.pibers o with ctx := ⟨chain.headD 0, placeOf chain s.behind⟩ }
      running := (s.thread.pibers q).ctx })
    (history : t.resumedFrom = Function.update s.resumedFrom q
      (some ⟨chain.headD 0, placeOf chain s.behind⟩)) : Nested t (q :: chain) := by
  obtain ⟨free, own⟩ := orderly
  have other := nested.other ready
  have fresh := nested.fresh ready
  have apart : o ≠ q := fun same => nested.partner_apart other (by rw [found, same])
  obtain ⟨now, slot, states, ctxs, kinds⟩ : Entered s.thread.pibers t.thread.pibers q o
      ⟨chain.headD 0, placeOf chain s.behind⟩ := by
    rw [thread]
    exact entered_update s.thread.pibers _ apart
  have partners : ∀ p, t.thread.partner p = s.thread.partner p := fun p =>
    partner_same (kinds p) (by rw [thread]) (by rw [thread])
  have created : t.thread.created = s.thread.created := by rw [thread]
  constructor
  case main =>
    rw [states 0 other.symm, created]
    refine ⟨?_, nested.main.2⟩
    rw [thread]
    exact nested.main.1
  case scheduler =>
    intro o' pointer
    rw [kinds, created]
    apply nested.scheduler
    rw [← pointer, thread]
  case innermost =>
    have running : ∀ place, (s.thread.pibers q).ctx.point = place →
        t.thread.running = ⟨q, place⟩ := by
      intro place here
      rw [thread, ← here]
      exact congrArg (fun stack => Ucontext.mk stack _) own
    rcases (nested.resting q bound other fresh).2 ready own with entry | ⟨behind, body⟩
    · exact .inr ⟨q, chain, rfl, running _ entry, by rw [thread]⟩
    · exact .inl ⟨behind, running _ body⟩
  case members =>
    intro d member
    rw [created]
    rcases List.mem_cons.mp member with rfl | inside
    · exact ⟨other, bound, by rw [now]⟩
    · rw [states d fun same => fresh (same ▸ inside)]
      exact nested.members d inside
  case resting =>
    intro p below main out
    rw [created] at below
    obtain ⟨away, outside⟩ := not_or.mp (List.mem_cons.not.mp out)
    obtain ⟨stopped, place⟩ := nested.resting p below main outside
    rw [states p away]
    refine ⟨stopped, fun idle own => ?_⟩
    by_cases same : p = o
    · -- the resumer is in its context now
      exfalso
      rw [same, slot, ← same] at own
      cases chain with
      | nil => exact main own.symm
      | cons head rest => exact outside (own ▸ List.mem_cons_self)
    · rw [ctxs p same] at own ⊢
      exact place idle own
  case linked =>
    rw [history]
    refine ⟨⟨s.behind, Function.update_self _ _ _⟩, nested.linked.resume fresh _⟩
  case held =>
    intro d member
    rw [history]
    rcases List.mem_cons.mp member with rfl | inside
    · exact ⟨o, by rw [partners, found], by rw [Function.update_self, slot]⟩
    · obtain ⟨o', pointer, held⟩ := nested.held d inside
      obtain ⟨main, below, runing⟩ := nested.members d inside
      have untouched : o' ≠ o := by
        rintro rfl
        exact free d below main runing (by rw [pointer, found])
      have distinct : d ≠ q := fun same => fresh (same ▸ inside)
      exact ⟨o', by rw [partners, pointer], by
        rw [Function.update_of_ne distinct, held, ctxs o' untouched]⟩
  case apart =>
    simp only [partners]
    refine List.pairwise_cons.mpr ⟨fun d member => ?_, nested.apart⟩
    obtain ⟨main, below, runing⟩ := nested.members d member
    exact ⟨fun same => fresh (same ▸ member), (free d below main runing).symm,
      nested.slot_apart member own other fresh⟩

private theorem Nested.create (nested : Nested s chain) (run_in_scheduler : Bool) :
    Nested { s with thread := s.thread.create .entry (some ()) run_in_scheduler } chain := by
  have known : ∀ p, p < s.thread.created →
      (s.thread.create .entry (some ()) run_in_scheduler).pibers p = s.thread.pibers p := by
    intro p below
    exact Function.update_of_ne (Nat.ne_of_lt below) _ _
  have partners : ∀ p, p < s.thread.created →
      (s.thread.create .entry (some ()) run_in_scheduler).partner p = s.thread.partner p :=
    fun p below => partner_same (by rw [known p below]) rfl rfl
  constructor
  case main =>
    rw [known 0 nested.main.2.2]
    exact ⟨nested.main.1, nested.main.2.1, Nat.succ_pos _⟩
  case scheduler =>
    intro o pointer
    obtain ⟨below, kind⟩ := nested.scheduler o pointer
    rw [known o below]
    exact ⟨Nat.lt_succ_of_lt below, kind⟩
  case innermost => exact nested.innermost
  case members =>
    intro d member
    obtain ⟨main, below, runing⟩ := nested.members d member
    rw [known d below]
    exact ⟨main, Nat.lt_succ_of_lt below, runing⟩
  case resting =>
    intro q bound main out
    rcases Nat.lt_succ_iff_lt_or_eq.mp bound with old | new
    · rw [known q old]
      exact nested.resting q old main out
    · rw [new]
      simp [PiberThread.create]
  case linked => exact nested.linked
  case held =>
    intro d member
    obtain ⟨o, pointer, held⟩ := nested.held d member
    exact ⟨o, by rw [partners d (nested.members d member).2.1, pointer], by
      rw [known o (nested.partner_made pointer), held]⟩
  case apart =>
    refine nested.apart.imp_of_mem fun {above below} first second law => ?_
    simp only [partners above (nested.members above first).2.1,
      partners below (nested.members below second).2.1]
    exact law

private theorem Nested.partnered (nested : Nested s (c :: rest)) :
    ∃ o, s.thread.partner c = some o ∧ c ≠ o := by
  obtain ⟨o, found, -⟩ := nested.held c List.mem_cons_self
  refine ⟨o, found, ?_⟩
  rintro rfl
  exact nested.partner_apart (nested.members c List.mem_cons_self).1 found

/-- In a body, the fiber that runs is the innermost one. -/
private theorem Nested.in_body {cur : PiberId} {behind : ℕ} (nested : Nested s chain)
    (point : s.thread.running.point = .body cur behind) :
    s.thread.running.stack = cur ∧ ∃ rest, chain = cur :: rest := by
  rcases nested.innermost with ⟨last, running⟩ | ⟨c, rest, -, running, -⟩
  · rw [running] at point ⊢
    cases chain with
    | nil => cases point
    | cons c rest =>
      cases point
      exact ⟨rfl, rest, rfl⟩
  · rw [running] at point
    cases point

private theorem Nested.calls {point : Place} (nested : Nested s chain)
    (after : s.thread.running.point.after s.behind = some point) :
    s.thread.running.stack = chain.headD 0 ∧ point = placeOf chain s.behind := by
  rcases nested.innermost with ⟨last, running⟩ | ⟨c, rest, -, running, -⟩
  · rw [running] at after ⊢
    refine ⟨rfl, ?_⟩
    cases chain <;> exact (Option.some.inj after).symm
  · rw [running] at after
    cases after

/-- At its entry, the fiber that runs is the innermost one and the current one. -/
private theorem Nested.at_entry (nested : Nested s chain)
    (point : s.thread.running.point = .entry) :
    ∃ c rest, chain = c :: rest ∧ s.thread.running = ⟨c, .entry⟩ ∧
      s.thread.t_piber = some c := by
  rcases nested.innermost with ⟨last, running⟩ | entry
  · rw [running] at point
    cases chain <;> cases point
  · exact entry

theorem nested_step {a : Action} (nested : Nested s chain) (orderly : Orderly s a)
    (stepped : step s a = some t) : (Leaves a → HandsBack s t) ∧ ∃ chain, Nested t chain := by
  cases move_of_step stepped with
  | created run_in_scheduler => exact ⟨False.elim, chain, nested.create run_in_scheduler⟩
  | resumed q point thread after bound _ ready entered =>
    refine ⟨False.elim, q :: chain, ?_⟩
    obtain ⟨stack, rfl⟩ := nested.calls after
    cases found : s.thread.partner q with
    | none => simp [PiberThread.resume, found] at entered
    | some o =>
      have apart : q ≠ o := by
        rintro rfl
        exact nested.partner_apart (nested.other ready) found
      rw [PiberThread.resume_eq _ found apart, Option.some.injEq] at entered
      exact nested.enterFiber bound ready orderly found (by rw [← entered, stack])
        (by rw [stack])
  | yielded p cur behind thread point left =>
    obtain rfl : p = s.thread.running.stack := orderly
    obtain ⟨stack, rest, rfl⟩ := nested.in_body point
    obtain ⟨-, -, runing⟩ := nested.members cur List.mem_cons_self
    obtain ⟨o, found, apart⟩ := nested.partnered
    rw [stack, PiberThread.yield_eq _ found apart, Option.some.injEq,
      if_pos (by simp [runing])] at left
    obtain ⟨handed, inner⟩ := Nested.leave (t := { s with thread, behind := s.behind + 1 })
      { s.thread.pibers cur with
        state := .READY, ctx := ⟨s.thread.running.stack, .body cur s.behind⟩ }
      nested found rfl (by simp) (fun _ => ⟨s.behind, rfl⟩) left.symm rfl
    exact ⟨fun _ => by rwa [HandsBack, stack], rest, inner⟩
  | began point =>
    refine ⟨False.elim, chain, ?_⟩
    obtain ⟨c, rest, rfl, running, current⟩ := nested.at_entry point
    rw [PiberThread.getThis_of_some current]
    exact ⟨nested.main, nested.scheduler, .inl ⟨s.behind, by simp [running, placeOf]⟩,
      nested.members, nested.resting, nested.linked, nested.held, nested.apart⟩
  | finished cur behind thread point left =>
    obtain ⟨stack, rest, rfl⟩ := nested.in_body point
    obtain ⟨o, found, apart⟩ := nested.partnered
    rw [PiberThread.finish_eq _ found apart, Option.some.injEq] at left
    obtain ⟨handed, inner⟩ := Nested.leave (t := { s with thread })
      { s.thread.pibers cur with
        state := .TERM, cb := none, ctx := ⟨s.thread.running.stack, .ended⟩ }
      nested found rfl (by simp) (by simp) left.symm rfl
    exact ⟨fun _ => by rwa [HandsBack, stack], rest, inner⟩

theorem nested_run (scheduler : SchedulerPiber)
    (reached : Runs.Reaches step Orderly (initial scheduler) s) : ∃ chain, Nested s chain :=
  reached.invariant (fun s => ∃ chain, Nested s chain) ⟨[], nested_initial scheduler⟩
    fun _ _ _ ⟨_, nested⟩ orderly stepped => (nested_step nested orderly stepped).2

/-- **Control goes back to the resumer** when a fiber yields or finishes, in
every run whose resumes are orderly, at any depth. -/
theorem control_goes_back (scheduler : SchedulerPiber) {a : Action}
    (reached : Runs.Reaches step Orderly (initial scheduler) s) (orderly : Orderly s a)
    (stepped : step s a = some t) (leaves : Leaves a) : HandsBack s t := by
  obtain ⟨chain, nested⟩ := nested_run scheduler reached
  exact (nested_step nested orderly stepped).1 leaves

/-- The documented use: the main fiber resumes the fibers of the thread, and the
fiber of the scheduler those with `m_runInScheduler`. -/
def FromPartner (s : Nesting) : Action → Prop
  | .resume q => s.thread.partner q = some s.thread.running.stack
  | .yield p => p = s.thread.running.stack
  | _ => True

private theorem Nested.stack (nested : Nested s chain) :
    s.thread.running.stack = chain.headD 0 := by
  rcases nested.innermost with ⟨last, running⟩ | ⟨c, rest, rfl, running, -⟩
  · rw [running]
  · rw [running]
    rfl

/-- Nobody else has a resumer where the innermost fiber would put itself. -/
theorem Nested.free {q : PiberId} (nested : Nested s chain)
    (partner : s.thread.partner q = some s.thread.running.stack) :
    ∀ p < s.thread.created, p ≠ 0 → (s.thread.pibers p).state = .RUNING →
      s.thread.partner p ≠ s.thread.partner q := by
  intro p bound main runing
  rw [partner, nested.stack]
  have member : p ∈ chain := by
    by_contra out
    exact (nested.resting p bound main out).1 runing
  cases chain with
  | nil => cases member
  | cons c rest =>
    rcases List.mem_cons.mp member with rfl | below
    · exact nested.partner_apart main
    · exact ((List.pairwise_cons.mp nested.apart).1 p below).2.2

/-- Every context is its fiber's own. -/
def OwnContexts (s : Nesting) : Prop := ∀ q, (s.thread.pibers q).ctx.stack = q

private theorem own_update {pibers : PiberId → PiberObject Unit Place}
    {piber : PiberObject Unit Place} (own : ∀ q, (pibers q).ctx.stack = q)
    (stack : piber.ctx.stack = c) (q : PiberId) :
    (Function.update pibers c piber q).ctx.stack = q := by
  by_cases same : q = c
  · rw [same, Function.update_self, stack]
  · rw [Function.update_of_ne same]
    exact own q

theorem ownContexts_initial (scheduler : SchedulerPiber) : OwnContexts (initial scheduler) := by
  have main : ∀ q, ((PiberThread.blank (B := Unit) (Place.main 0)).getThis.1.pibers q).ctx.stack =
      q := own_update (fun _ => rfl) rfl
  cases scheduler with
  | absent => exact main
  | main => exact main
  | root => exact own_update main rfl

theorem ownContexts_step {a : Action} (nested : Nested s chain) (own : OwnContexts s)
    (documented : FromPartner s a) (stepped : step s a = some t) : OwnContexts t := by
  cases move_of_step stepped with
  | created run_in_scheduler => exact own_update own rfl
  | resumed q point thread _ _ apart _ entered =>
    have found : s.thread.partner q = some s.thread.running.stack := documented
    rw [PiberThread.resume_eq _ found apart, Option.some.injEq] at entered
    subst entered
    exact own_update (own_update own (own q)) rfl
  | yielded p cur behind thread point left =>
    obtain rfl : p = s.thread.running.stack := documented
    obtain ⟨stack, rest, rfl⟩ := nested.in_body point
    obtain ⟨o, found, apart⟩ := nested.partnered
    rw [stack, PiberThread.yield_eq _ found apart, Option.some.injEq] at left
    subst left
    exact own_update own stack
  | began point =>
    obtain ⟨c, rest, rfl, running, current⟩ := nested.at_entry point
    rw [PiberThread.getThis_of_some current]
    exact own
  | finished cur behind thread point left =>
    obtain ⟨stack, rest, rfl⟩ := nested.in_body point
    obtain ⟨o, found, apart⟩ := nested.partnered
    rw [PiberThread.finish_eq _ found apart, Option.some.injEq] at left
    subst left
    exact own_update own stack

/-- **Documented use is orderly**: where only the main fiber and the fiber of the
scheduler resume, each resume meets the condition. -/
theorem documented_is_orderly (scheduler : SchedulerPiber)
    (reached : Runs.Reaches step FromPartner (initial scheduler) s) :
    Runs.Reaches step Orderly (initial scheduler) s := by
  have implied : ∀ t a, (∃ chain, Nested t chain) ∧ OwnContexts t → FromPartner t a →
      Orderly t a := by
    rintro t a ⟨⟨chain, nested⟩, own⟩ documented
    cases a with
    | resume q =>
      exact ⟨nested.free documented, own q⟩
    | yield p => exact documented
    | create | enter | finish => trivial
  apply reached.under (fun s => (∃ chain, Nested s chain) ∧ OwnContexts s)
  case start =>
    exact ⟨⟨[], nested_initial scheduler⟩, ownContexts_initial scheduler⟩
  case keeps =>
    rintro t a u ⟨⟨chain, nested⟩, own⟩ documented stepped
    have orderly := implied t a ⟨⟨chain, nested⟩, own⟩ documented
    exact ⟨(nested_step nested orderly stepped).2, ownContexts_step nested own documented stepped⟩
  case implied => exact implied

/-- Beside the root of a scheduler, the main fiber resumes a fiber that resumes
one for the scheduler, which yields. -/
def twoKinds : List Action :=
  [.create false, .create true, .resume 2, .enter, .resume 3, .enter, .yield 3]

theorem two_kinds_orderly : Runs.AllSteps step Orderly (initial .root) twoKinds := by
  decide +kernel

theorem two_kinds_go_back :
    ∃ s t, Runs.run step (initial .root) twoKinds = some s ∧ step s .finish = some t ∧
      s.thread.running = ⟨2, .body 2 3⟩ ∧ t.thread.running = ⟨0, .main 1⟩ ∧ HandsBack s t := by
  have seen : (Runs.run step (initial .root) twoKinds).map (fun s => (s.thread.running,
      (step s .finish).map fun t => t.thread.running)) =
        some (⟨2, .body 2 3⟩, some ⟨0, .main 1⟩) := by
    decide +kernel
  obtain ⟨s, replay, same⟩ := Option.map_eq_some_iff.mp seen
  obtain ⟨here, last⟩ := Prod.mk.inj same
  obtain ⟨t, stepped, there⟩ := Option.map_eq_some_iff.mp last
  exact ⟨s, t, replay, stepped, here, there,
    control_goes_back .root (a := .finish) (Runs.reaches_of_run twoKinds replay two_kinds_orderly)
      trivial stepped trivial⟩

/-- The main fiber resumes a fiber that resumes another one, which yields. -/
def oneKind : List Action :=
  [.create false, .create false, .resume 1, .enter, .resume 2, .enter, .yield 2]

/-- The first fiber finishes, and goes on behind the resume that it called. -/
theorem one_kind_goes_astray :
    ∃ s t, Runs.run step (initial .absent) oneKind = some s ∧ step s .finish = some t ∧
      s.thread.running.stack = 1 ∧ s.resumedFrom 1 = some ⟨0, .main 1⟩ ∧
      t.thread.running = ⟨1, .body 1 3⟩ ∧ ¬ HandsBack s t := by
  have seen : (Runs.run step (initial .absent) oneKind).map (fun s => (s.thread.running.stack,
      s.resumedFrom 1, (step s .finish).map fun t => t.thread.running)) =
        some (1, some ⟨0, .main 1⟩, some ⟨1, .body 1 3⟩) := by
    decide +kernel
  obtain ⟨s, replay, same⟩ := Option.map_eq_some_iff.mp seen
  simp only [Prod.mk.injEq] at same
  obtain ⟨stack, resumer, last⟩ := same
  obtain ⟨t, stepped, there⟩ := Option.map_eq_some_iff.mp last
  refine ⟨s, t, replay, stepped, stack, resumer, there, fun back => ?_⟩
  rw [HandsBack, stack, resumer, there] at back
  simp at back

/-- Behind the nested yield `Piber::GetThis()` answers the main fiber, although
the outer fiber runs; the `yield` of what it answers goes on where it was called. -/
theorem yield_of_get_this_stays :
    ∃ s t, Runs.run step (initial .root) twoKinds = some s ∧
      Runs.AllSteps step Orderly (initial .root) twoKinds ∧
      s.thread.running.stack = 2 ∧ s.thread.getThis.2 = 0 ∧
      step s (.yield s.thread.getThis.2) = some t ∧ s.resumedFrom 2 = some ⟨0, .main 1⟩ ∧
      t.thread.running.stack = 2 ∧ ¬ HandsBack s t := by
  have seen : (Runs.run step (initial .root) twoKinds).map (fun s => (s.thread.running.stack,
      s.thread.getThis.2, s.resumedFrom 2,
      (step s (.yield s.thread.getThis.2)).map fun t => t.thread.running.stack)) =
        some (2, 0, some ⟨0, .main 1⟩, some 2) := by
    decide +kernel
  obtain ⟨s, replay, same⟩ := Option.map_eq_some_iff.mp seen
  simp only [Prod.mk.injEq] at same
  obtain ⟨stack, current, resumer, last⟩ := same
  obtain ⟨t, stepped, there⟩ := Option.map_eq_some_iff.mp last
  refine ⟨s, t, replay, two_kinds_orderly, stack, current, stepped, resumer, there, fun back => ?_⟩
  rw [HandsBack, stack, resumer, Option.some.injEq] at back
  rw [← back] at there
  cases there

end Nesting
end Synergy
