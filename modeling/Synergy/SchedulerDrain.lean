import Synergy.SchedulerPool

/-! The scheduler on its caller's thread is a plain work queue: one pass of
`run` is one step of the queue, through the switches between the root, a task
and its `MainFunc`, and behind the last pass `stop` returns. -/
namespace Synergy.CallerMode
open StateTransition (Reaches)

variable {Local Mem : Type} {code : Code Local Mem} {s t : State Local Mem}

/-- The caller waits in `stop`, the root is inside `run` with its idle fiber not
started, and the queue stands for these segments. -/
structure Stage (code : Code Local Mem) (s : State Local Mem) (idle : PiberId) (active : ℤ)
    (busy : List PiberId) (items : List Local) : Prop where
  main : s.thread.t_thread_piber = some 0 ∧ (s.thread.pibers 0).ctx = ⟨0, .stopped⟩
  root : s.thread.t_scheduler_piber = some 1 ∧ (s.thread.pibers 1).runInScheduler = false
  spare : 1 < idle ∧ idle < s.thread.created ∧ s.thread.pibers idle =
    { ctx := ⟨idle, .entry⟩, cb := some .idle, runInScheduler := true }
  flags : s.m_stopping = true ∧ s.activeThreadCount = active
  pool : Pool code s.caller s.thread.pibers s.thread.created s.tasks (busy ++ [idle]) items

/-- The state in which a fiber runs that the root has resumed from `back`. -/
def resumed (s : State Local Mem) (p : PiberId) (back here : Place Local) : State Local Mem :=
  { s with thread := { s.thread with
      t_piber := some p
      pibers := Function.update
        (Function.update s.thread.pibers p { s.thread.pibers p with state := .RUNING })
        1 { s.thread.pibers 1 with ctx := ⟨1, back⟩ }
      running := ⟨p, here⟩ } }

variable {idle p : PiberId} {items : List Local} {here : Local} {back : Place Local}

/-- The root resumes a fiber, at the point at which its context is. -/
theorem switch_resume {point : Place Local} (root : s.thread.t_scheduler_piber = some 1)
    (on_root : s.thread.running.stack = 1) (apart : p ≠ 1)
    (kind : (s.thread.pibers p).runInScheduler = true)
    (ctx : (s.thread.pibers p).ctx = ⟨p, point⟩) :
    s.switch (s.thread.resume p back) = some (resumed s p back point) := by
  have found : s.thread.partner p = some 1 := by simp [PiberThread.partner, kind, root]
  rw [PiberThread.resume_eq _ found apart, on_root, ctx]
  rfl

theorem resumed_enters {f : CallbackId} (apart : p ≠ 1)
    (cb : (s.thread.pibers p).cb = some (.user f)) :
    step code (resumed s p back .entry) = some (resumed s p back (.body p (code.start f))) := by
  simp [step, resumed, PiberThread.getThis, Function.update_of_ne apart, cb]

/-- A task that waits is resumed and comes to its segment. -/
theorem waits_reaches (root : s.thread.t_scheduler_piber = some 1)
    (on_root : s.thread.running.stack = 1) (apart : p ≠ 1)
    (waits : Waits code s.thread.pibers p here) (t : State Local Mem)
    (stepped : step code t = s.switch (s.thread.resume p back)) :
    Reaches (step code) t (resumed s p back (.body p here)) := by
  rcases waits.ctx with ⟨ctx, f, cb, rfl⟩ | ctx
  · rw [switch_resume root on_root apart waits.kind ctx] at stepped
    exact .tail (.single stepped) (resumed_enters apart cb)
  · rw [switch_resume root on_root apart waits.kind ctx] at stepped
    exact .single stepped

theorem resumed_stage {active : ℤ} (stage : Stage code s idle active [p] items)
    (task : 1 < p) (apart : p ≠ idle) (point : Place Local) :
    Stage code (resumed s p back point) idle active [p] items := by
  have main : (0 : PiberId) ≠ p := Nat.ne_of_lt (Nat.lt_trans Nat.one_pos task)
  have root : (1 : PiberId) ≠ p := Nat.ne_of_lt task
  obtain ⟨low, below, spare⟩ := stage.spare
  refine ⟨?_, ?_, ⟨low, below, ?_⟩, stage.flags, ?_⟩
  · simpa [resumed, Function.update_of_ne main] using stage.main
  · simpa [resumed] using stage.root
  · simpa [resumed, Function.update_of_ne (Nat.ne_of_gt low),
      Function.update_of_ne (Ne.symm apart)] using spare
  · apply (stage.pool.update { s.thread.pibers p with state := .RUNING }).congr
    intro q task
    exact Function.update_of_ne (Nat.ne_of_gt task) _ _

/-- `run` pops the head of the queue. -/
theorem scan_head {frame : RunFrame} {it : Entry} {rest : List Entry}
    (stage : Stage code s idle 0 [] (here :: items))
    (running : s.thread.running = ⟨1, .scanning frame⟩) (tasks : s.tasks = it :: rest)
    (holds : Holds code s.caller s.thread.pibers it here) :
    step code s = some ({ s with tasks := rest, activeThreadCount := 1 }.goto
      (.picked frame it.task)) := by
  have fits : Scheduler.Qualifies (fun p => decide ((s.thread.pibers p).state = .RUNING))
      s.caller it := by
    refine ⟨holds.pin, fun p piber => ?_⟩
    rcases holds.work with ⟨none_piber, -⟩ | ⟨q, some_piber, waits⟩
    · rw [none_piber] at piber
      cases piber
    · rw [some_piber] at piber
      cases piber
      simp [waits.ready]
  simp [step, running, tasks, Scheduler.scan_take rest fits, stage.flags.2]

/-- One pass of `run` up to the segment that it pops. -/
theorem take_item {frame : RunFrame} (stage : Stage code s idle 0 [] (here :: items))
    (running : s.thread.running = ⟨1, .scanning frame⟩) (cleared : frame.cb_piber = none) :
    ∃ t p back, Reaches (step code) s (resumed t p back (.body p here)) ∧
      t.log = s.log ∧ t.mem = s.mem ∧ 1 < p ∧ p < t.thread.created ∧ p ≠ idle ∧
      (t.thread.pibers p).runInScheduler = true ∧ Stage code t idle 1 [p] items ∧
      (back = .resumedTask frame ∨ back = .resumedCb { frame with cb_piber := some p }) := by
  obtain ⟨it, rest, holds, others, tasks⟩ := List.forall₂_cons_right_iff.mp stage.pool.holds
  have popped := scan_head stage running tasks holds
  have pool := stage.pool
  rw [tasks] at pool
  obtain ⟨low, below, spare⟩ := stage.spare
  rcases holds.work with ⟨none_piber, f, cb, rfl⟩ | ⟨p, piber, waits⟩
  · let s₁ := { s with tasks := rest, activeThreadCount := 1 }.goto (.picked frame it.task)
    let t := { s₁ with thread := s₁.thread.create .entry (some (.user f)) true }
    have apart : s.thread.created ≠ 1 := Nat.ne_of_gt (Nat.lt_trans low below)
    have main : (0 : PiberId) ≠ s.thread.created :=
      Nat.ne_of_lt (Nat.lt_trans Nat.one_pos (Nat.lt_trans low below))
    have waits : Waits code t.thread.pibers s.thread.created (code.start f) := by
      constructor <;> simp [t, s₁, PiberThread.create]
    refine ⟨t, s.thread.created, .resumedCb { frame with cb_piber := some s.thread.created },
      .head popped (waits_reaches (s := t) stage.root.1 ?_ apart waits s₁ ?_), rfl, rfl,
      Nat.lt_trans low below, Nat.lt_succ_self _, Nat.ne_of_gt below, waits.kind, ?_, .inr rfl⟩
    · simp [t, s₁, PiberThread.create, running]
    · simp only [step, s₁, State.goto, PiberThread.goto, none_piber, cb, cleared]
      rfl
    · refine ⟨?_, ?_, ⟨low, Nat.lt_succ_of_lt below, ?_⟩, ⟨stage.flags.1, rfl⟩, ?_⟩
      · simpa [t, s₁, PiberThread.create, Function.update_of_ne main] using stage.main
      · simpa [t, s₁, PiberThread.create, Function.update_of_ne apart.symm] using stage.root
      · simpa [t, s₁, PiberThread.create, Function.update_of_ne (Nat.ne_of_lt below)] using spare
      · exact (pool.take_cb none_piber).create _
  · let t := { s with tasks := rest, activeThreadCount := 1 }.goto (.picked frame it.task)
    have taken := pool.take_piber piber
    obtain ⟨task, bound, free⟩ := pool.apart p (mem_queued List.mem_cons_self piber)
    have apart : p ≠ idle := fun same => free (by simp [same])
    refine ⟨t, p, .resumedTask frame,
      .head popped (waits_reaches (s := t) stage.root.1 (by simp [t, running]) (Nat.ne_of_gt task)
        waits t ?_), rfl, rfl, task, bound, apart, waits.kind,
      ⟨stage.main, stage.root, stage.spare, ⟨stage.flags.1, rfl⟩, taken⟩, .inl rfl⟩
    simp only [step, t, State.goto, PiberThread.goto, piber]

/-- A task's fiber has given control back to the root. -/
def handedBack (s : State Local Mem) (p : PiberId)
    (piber : PiberObject EntryFunction (Place Local)) (back : Place Local) : State Local Mem :=
  { s with thread := { s.thread with
      t_piber := s.thread.t_thread_piber
      pibers := Function.update s.thread.pibers p piber
      running := ⟨1, back⟩ } }

theorem handedBack_stage {u : State Local Mem} {after : List Local}
    {piber : PiberObject EntryFunction (Place Local)} (back : Place Local)
    (stage : Stage code s idle 1 [p] items) (task : 1 < p) (apart : p ≠ idle) (frame : Frame s u)
    (pool : Pool code s.caller (Function.update u.thread.pibers p piber) u.thread.created u.tasks
      [idle] after) : Stage code (handedBack u p piber back) idle 1 [] after := by
  obtain ⟨low, below, spare⟩ := stage.spare
  have created : 1 < s.thread.created := Nat.lt_trans low below
  have main : (0 : PiberId) ≠ p := Nat.ne_of_lt (Nat.lt_trans Nat.one_pos task)
  have pointers := frame.pointers
  rw [← frame.caller] at pool
  refine ⟨?_, ?_, ⟨low, Nat.lt_of_lt_of_le below frame.created, ?_⟩, ?_, pool⟩
  · simpa [handedBack, Function.update_of_ne main, pointers,
      frame.pibers 0 (Nat.lt_trans Nat.one_pos created)] using stage.main
  · simpa [handedBack, Function.update_of_ne (Nat.ne_of_lt task), pointers,
      frame.pibers 1 created] using stage.root
  · simpa [handedBack, Function.update_of_ne (Ne.symm apart), frame.pibers idle below] using spare
  · simpa [handedBack, frame.flags] using stage.flags

/-- A task's fiber at a point of its own, while the root waits at `back`. -/
structure Inside (s : State Local Mem) (p : PiberId) (back here : Place Local) : Prop where
  running : s.thread.running = ⟨p, here⟩
  current : s.thread.t_piber = some p
  scheduler : s.thread.t_scheduler_piber = some 1
  kind : (s.thread.pibers p).runInScheduler = true
  state : (s.thread.pibers p).state = .RUNING
  back : (s.thread.pibers 1).ctx = ⟨1, back⟩

theorem yields_back (code : Code Local Mem) {next : Local}
    (inside : Inside s p back (.parting p next)) (apart : p ≠ 1) :
    step code s = some (handedBack s p
      { s.thread.pibers p with state := .READY, ctx := ⟨p, .body p next⟩ } back) := by
  have found : s.thread.partner p = some 1 := by
    simp [PiberThread.partner, inside.kind, inside.scheduler]
  have yielded := PiberThread.yield_eq (.body p next) found apart
  rw [if_pos (by simp [inside.state]), inside.running, inside.back] at yielded
  simp only [step, inside.running, PiberThread.getThis_of_some inside.current, State.switch,
    yielded]
  rfl

theorem ends_back (code : Code Local Mem) (inside : Inside s p back (.ending p)) (apart : p ≠ 1) :
    step code s = some (handedBack s p
      { s.thread.pibers p with state := .TERM, cb := none, ctx := ⟨p, .ended⟩ } back) := by
  have found : s.thread.partner p = some 1 := by
    simp [PiberThread.partner, inside.kind, inside.scheduler]
  have finished := PiberThread.finish_eq (.ended) found apart
  rw [inside.running, inside.back] at finished
  simp only [step, inside.running, State.switch, finished]
  rfl

theorem Inside.later {point : Place Local} {u : State Local Mem}
    (inside : Inside s p back point) (there : Place Local) (frame : Frame s u) (task : 1 < p)
    (known : p < s.thread.created) : Inside (u.goto there) p back there := by
  have same := frame.pibers p known
  have root := frame.pibers 1 (Nat.lt_trans task known)
  constructor
  case running => simp [frame.running, inside.running]
  case current => exact frame.current.trans inside.current
  case scheduler => exact frame.pointers.2.1.trans inside.scheduler
  case kind => exact (congrArg PiberObject.runInScheduler same).trans inside.kind
  case state => exact (congrArg PiberObject.state same).trans inside.state
  case back => exact (congrArg PiberObject.ctx root).trans inside.back

/-- A task's fiber about to run a segment, beside the root and the queue. -/
structure Turn (code : Code Local Mem) (s : State Local Mem) (idle p : PiberId)
    (back : Place Local) (here : Local) (items : List Local) : Prop where
  stage : Stage code s idle 1 [p] items
  task : 1 < p
  known : p < s.thread.created
  apart : p ≠ idle
  inside : Inside s p back (.body p here)

/-- The segment's own effect, and what it schedules first. -/
def firstTasks (s : State Local Mem) (here : Local) (next : Mem) (segment : Segment Local) :
    State Local Mem :=
  segment.tasks.foldl State.add { s with mem := next, log := s.log ++ [here] }

theorem Turn.stage_logged (turn : Turn code s idle p back here items) (next : Mem) :
    Stage code { s with mem := next, log := s.log ++ [here] } idle 1 [p] items :=
  ⟨turn.stage.main, turn.stage.root, turn.stage.spare, turn.stage.flags, turn.stage.pool⟩

theorem Turn.inside_logged (turn : Turn code s idle p back here items) (next : Mem) :
    Inside { s with mem := next, log := s.log ++ [here] } p back (.body p here) :=
  ⟨turn.inside.running, turn.inside.current, turn.inside.scheduler, turn.inside.kind,
    turn.inside.state, turn.inside.back⟩

theorem Turn.first_tasks (turn : Turn code s idle p back here items) (next : Mem)
    (segment : Segment Local) (piber : PiberObject EntryFunction (Place Local)) :
    Frame { s with mem := next, log := s.log ++ [here] } (firstTasks s here next segment) ∧
      Pool code s.caller (Function.update (firstTasks s here next segment).thread.pibers p piber)
        (firstTasks s here next segment).thread.created (firstTasks s here next segment).tasks
        [p, idle] (items ++ segment.tasks.map fun task => code.start task.f) := by
  have created : 1 < s.thread.created := Nat.lt_trans turn.task turn.known
  have bound : ∀ q ∈ [p, idle], q < s.thread.created := by
    intro q member
    rcases List.mem_cons.mp member with rfl | member
    · exact turn.known
    · rw [List.mem_singleton.mp member]
      exact turn.stage.spare.2.1
  exact adds_stand (s := { s with mem := next, log := s.log ++ [here] }) piber segment.tasks
    turn.known created bound ((turn.stage_logged next).pool.update piber)

/-- The last segment of a function: its fiber ends. -/
theorem segment_ends {segment : Segment Local} {next : Mem}
    (turn : Turn code s idle p back here items)
    (ran : code.segment here s.mem = (next, segment)) (last : segment.again = none) :
    ∃ u, Reaches (step code) s u ∧ u.thread.running = ⟨1, back⟩ ∧ u.log = s.log ++ [here] ∧
      u.mem = next ∧ Stage code u idle 1 [] (items ++ code.appended segment) := by
  let piber : PiberObject EntryFunction (Place Local) :=
    { s.thread.pibers p with state := .TERM, cb := none, ctx := ⟨p, .ended⟩ }
  obtain ⟨frame, pool⟩ := turn.first_tasks next segment piber
  have stepped : step code s = some ((firstTasks s here next segment).goto (.ending p)) := by
    simp [step, turn.inside.running, ran, last, firstTasks]
  have ending := (turn.inside_logged next).later (.ending p) frame turn.task turn.known
  refine ⟨_, .tail (.single stepped) (ends_back code ending (Nat.ne_of_gt turn.task)), rfl,
    frame.kept.1, frame.kept.2, ?_⟩
  have stands := handedBack_stage back (turn.stage_logged next) turn.task turn.apart frame
    (pool.finish (by simp [piber]))
  simp only [Code.appended, last, List.append_nil]
  rw [show piber = { (firstTasks s here next segment).thread.pibers p with
      state := .TERM, cb := none, ctx := ⟨p, .ended⟩ } by
    rw [frame.pibers p turn.known]] at stands
  exact stands

/-- A segment that schedules its fiber again and yields. -/
theorem segment_yields {segment : Segment Local} {next : Mem} {again : Again Local}
    (turn : Turn code s idle p back here items)
    (ran : code.segment here s.mem = (next, segment)) (more : segment.again = some again) :
    ∃ u, Reaches (step code) s u ∧ u.thread.running = ⟨1, back⟩ ∧ u.log = s.log ++ [here] ∧
      u.mem = next ∧ Stage code u idle 1 [] (items ++ code.appended segment) := by
  have created : 1 < s.thread.created := Nat.lt_trans turn.task turn.known
  -- the queue is described with the fiber as it will be behind its yield
  let piber : PiberObject EntryFunction (Place Local) :=
    { s.thread.pibers p with state := .READY, ctx := ⟨p, .body p again.next⟩ }
  obtain ⟨frame₁, pool₁⟩ := turn.first_tasks next segment piber
  let s₁ := firstTasks s here next segment
  let s₂ := s₁.schedule (.piber (some p)) again.pinned
  let s₃ := again.behind.foldl State.add s₂
  have scheduled : s₂ = _ := schedule_eq again.pinned fun _ => rfl
  have frame₂ : Frame s₁ s₂ := by
    rw [scheduled]
    exact ⟨rfl, Nat.le_refl _, fun _ _ => rfl⟩
  have frame := frame₁.trans frame₂
  have pool₂ : Pool code s₂.caller (Function.update s₂.thread.pibers p piber)
      s₂.thread.created s₂.tasks [idle]
      (items ++ segment.tasks.map (fun task => code.start task.f) ++ [again.next]) := by
    rw [frame.caller, scheduled]
    apply pool₁.push_piber (p := p)
    case holds =>
      rw [frame₁.caller]
      refine ⟨pin_ok _ _, .inr ⟨p, rfl, ?_⟩⟩
      constructor
      case ready => simp [piber]
      case kind => simpa [piber] using turn.inside.kind
      case ctx => exact .inr (by simp [piber])
    case piber => rfl
    case task => exact ⟨turn.task, Nat.lt_of_lt_of_le turn.known frame₁.created⟩
    case free => simpa using turn.apart
  have bound : ∀ q ∈ [idle], q < s₂.thread.created := by
    intro q member
    rw [List.mem_singleton.mp member]
    exact Nat.lt_of_lt_of_le turn.stage.spare.2.1 frame.created
  obtain ⟨frame₃, pool₃⟩ := adds_stand (s := s₂) piber again.behind
    (Nat.lt_of_lt_of_le turn.known frame.created) (Nat.lt_of_lt_of_le created frame.created)
    bound pool₂
  rw [frame.caller] at pool₃
  have all := frame.trans frame₃
  have stepped : step code s = some (s₃.goto (.parting p again.next)) := by
    have current := frame₁.current.trans turn.inside.current
    have this := PiberThread.getThis_of_some current
    simp only [firstTasks] at this
    simp only [step, turn.inside.running, ran, more, this]
    rfl
  have parting := (turn.inside_logged next).later (.parting p again.next) all turn.task
    turn.known
  refine ⟨_, .tail (.single stepped) (yields_back code parting (Nat.ne_of_gt turn.task)), rfl,
    all.kept.1, all.kept.2, ?_⟩
  have stands := handedBack_stage back (turn.stage_logged next) turn.task turn.apart all pool₃
  rw [show piber = { s₃.thread.pibers p with
      state := .READY, ctx := ⟨p, .body p again.next⟩ } by
    rw [all.pibers p turn.known]] at stands
  simp only [List.append_assoc, List.singleton_append] at stands
  simp only [Code.appended, more]
  exact stands

/-- A segment runs, schedules what it schedules, and gives control back. -/
theorem run_segment {segment : Segment Local} {next : Mem}
    (turn : Turn code s idle p back here items)
    (ran : code.segment here s.mem = (next, segment)) :
    ∃ u, Reaches (step code) s u ∧ u.thread.running = ⟨1, back⟩ ∧ u.log = s.log ++ [here] ∧
      u.mem = next ∧ Stage code u idle 1 [] (items ++ code.appended segment) := by
  cases again : segment.again with
  | none => exact segment_ends turn ran again
  | some more => exact segment_yields turn ran again

theorem resumed_inside {active : ℤ} {busy : List PiberId}
    (stage : Stage code s idle active busy items) (task : 1 < p)
    (kind : (s.thread.pibers p).runInScheduler = true) (back point : Place Local) :
    Inside (resumed s p back point) p back point := by
  have root : p ≠ 1 := Nat.ne_of_gt task
  constructor
  case running => rfl
  case current => rfl
  case scheduler => exact stage.root.1
  case kind => simpa [resumed, Function.update_of_ne root] using kind
  case state => simp [resumed, Function.update_of_ne root]
  case back => simp [resumed]

/-- One pass of `run` over a queue with a task in it. -/
theorem pop_item {frame : RunFrame} {segment : Segment Local} {next : Mem}
    (stage : Stage code s idle 0 [] (here :: items))
    (running : s.thread.running = ⟨1, .scanning frame⟩) (cleared : frame.cb_piber = none)
    (ran : code.segment here s.mem = (next, segment)) :
    ∃ t, Reaches (step code) s t ∧ t.thread.running = ⟨1, .scanning frame⟩ ∧
      t.log = s.log ++ [here] ∧ t.mem = next ∧
      Stage code t idle 0 [] (items ++ code.appended segment) := by
  obtain ⟨t, p, back, taken, log, mem, task, known, apart, kind, busy, from_run⟩ :=
    take_item stage running cleared
  have turn : Turn code (resumed t p back (.body p here)) idle p back here items :=
    ⟨resumed_stage busy task apart _, task, known, apart, resumed_inside busy task kind _ _⟩
  rw [← mem] at ran
  obtain ⟨u, segment_ran, home, logged, stored, after⟩ := run_segment turn ran
  have counted : u.activeThreadCount - 1 = 0 := by simp [after.flags.2]
  have settled : step code u = some ({ u with activeThreadCount := 0 }.goto (.scanning frame)) := by
    rcases from_run with rfl | rfl
    · simp [step, home, counted]
    · have same : { frame with cb_piber := none } = frame := by
        cases frame
        simp_all
      simp [step, home, counted, same]
  refine ⟨_, (taken.trans segment_ran).tail settled, by simp [home], ?_, stored,
    ⟨after.main, after.root, after.spare, ⟨after.flags.1, rfl⟩, after.pool⟩⟩
  exact logged.trans (congrArg (· ++ [here]) log)

/-- Every pass of `run` over a queue that drains. -/
theorem drains_queue {frame : RunFrame} {mem last : Mem} {log : List Local}
    (drains : Drains code items mem log last) (stage : Stage code s idle 0 [] items)
    (running : s.thread.running = ⟨1, .scanning frame⟩) (cleared : frame.cb_piber = none)
    (here : s.mem = mem) :
    ∃ t, Reaches (step code) s t ∧ t.thread.running = ⟨1, .scanning frame⟩ ∧
      t.log = s.log ++ log ∧ t.mem = last ∧ Stage code t idle 0 [] [] := by
  induction drains generalizing s with
  | empty => exact ⟨s, .refl, running, by simp, here, stage⟩
  | pop ran rest ih =>
    subst here
    obtain ⟨t, first, home, log, mem, stage⟩ := pop_item stage running cleared ran
    obtain ⟨u, later, home, logged, stored, stage⟩ := ih stage home mem
    exact ⟨u, first.trans later, home, by simp [logged, log], stored, stage⟩

/-- Every fiber but the main one and the root has ended, and the queue is
empty. -/
structure Emptied (s : State Local Mem) : Prop where
  main : s.thread.t_thread_piber = some 0 ∧ (s.thread.pibers 0).ctx = ⟨0, .stopped⟩
  root : (s.thread.pibers 1).runInScheduler = false
  tasks : s.tasks = []
  ended : ∀ p, 1 < p → p < s.thread.created → (s.thread.pibers p).state = .TERM

theorem scan_empty (code : Code Local Mem) {frame : RunFrame}
    (running : s.thread.running = ⟨1, .scanning frame⟩) (tasks : s.tasks = []) :
    step code s = some (s.goto (.picked frame {})) := by
  simp [step, running, tasks, Scheduler.scan]

/-- With the queue empty the idle fiber is resumed, finds the scheduler stopping,
and ends. -/
theorem idle_ends {frame : RunFrame} (stage : Stage code s idle 0 [] [])
    (running : s.thread.running = ⟨1, .scanning frame⟩) (spare : frame.idle_piber = idle) :
    ∃ t, Reaches (step code) s t ∧ t.thread.running = ⟨1, .scanning frame⟩ ∧
      t.log = s.log ∧ t.mem = s.mem ∧ idle < t.thread.created ∧ 1 < idle ∧ Emptied t := by
  obtain ⟨low, below, cell⟩ := stage.spare
  have tasks : s.tasks = [] := List.forall₂_nil_right_iff.mp stage.pool.holds
  have apart : idle ≠ 1 := Nat.ne_of_gt low
  have main : (0 : PiberId) ≠ idle := Nat.ne_of_lt (Nat.lt_trans Nat.one_pos low)
  have live : (s.thread.pibers idle).state ≠ .TERM := by simp [cell]
  let s₁ : State Local Mem :=
    { s with idleThreadCount := s.idleThreadCount + 1 }.goto (.picked frame {})
  have stage₁ : Stage code s₁ idle 0 [] [] :=
    ⟨stage.main, stage.root, stage.spare, stage.flags, stage.pool⟩
  have resumes : step code (s.goto (.picked frame {})) =
      some (resumed s₁ idle (.resumedIdle frame) .entry) := by
    rw [← switch_resume stage₁.root.1 (by simp [s₁, running]) apart (by simp [s₁, cell])
      (by simp [s₁, cell])]
    simp [step, spare, live, s₁]
  have enters : step code (resumed s₁ idle (.resumedIdle frame) .entry) =
      some (resumed s₁ idle (.resumedIdle frame) (.idling idle)) := by
    simp [step, resumed, PiberThread.getThis, Function.update_of_ne apart, s₁, cell]
  have stops : step code (resumed s₁ idle (.resumedIdle frame) (.idling idle)) =
      some (resumed s₁ idle (.resumedIdle frame) (.ending idle)) := by
    simp [step, resumed, State.stopping, s₁, stage.flags, tasks]
  have inside := resumed_inside stage₁ low (by simp [s₁, cell]) (.resumedIdle frame)
    (.ending idle)
  have scanned := scan_empty code running tasks
  have ends := ends_back code inside apart
  refine ⟨_, .tail (.tail (.tail (.tail (.tail (.single scanned) resumes) enters) stops) ends) rfl,
    rfl, rfl, rfl, below, low, ?_⟩
  constructor
  case main =>
    simpa [handedBack, resumed, s₁, Function.update_of_ne main] using stage.main
  case root =>
    simpa [handedBack, resumed, s₁, Function.update_of_ne apart.symm] using stage.root.2
  case tasks => exact tasks
  case ended =>
    intro p task known
    by_cases same : p = idle
    · simp [handedBack, resumed, same]
    · have ended := stage.pool.ended p task known (by simp [queued, tasks]) (by simpa using same)
      simpa [handedBack, resumed, s₁, Function.update_of_ne same,
        Function.update_of_ne (Nat.ne_of_gt task)] using ended

/-- With the idle fiber ended `run` returns, and the root gives control back to
`stop`. -/
theorem root_ends {frame : RunFrame} (emptied : Emptied s)
    (running : s.thread.running = ⟨1, .scanning frame⟩) (cur : frame.cur = 1)
    (known : frame.idle_piber < s.thread.created) (task : 1 < frame.idle_piber) :
    ∃ t, Reaches (step code) s t ∧ t.thread.running = ⟨0, .stopped⟩ ∧
      t.thread.t_piber = some 0 ∧ t.log = s.log ∧ t.mem = s.mem ∧ t.tasks = [] ∧
      ∀ p, 0 < p → p < t.thread.created → (t.thread.pibers p).state = .TERM := by
  have ended := emptied.ended _ task known
  have leaves : step code (s.goto (.picked frame {})) = some (s.goto (.ending 1)) := by
    simp [step, ended, cur]
  have found : (s.goto (.ending 1)).thread.partner 1 = some 0 := by
    simp [PiberThread.partner, emptied.root, emptied.main.1]
  have finished := PiberThread.finish_eq .ended found (by decide)
  have back : step code (s.goto (.ending 1)) = some { s with thread := { s.thread with
      t_piber := s.thread.t_thread_piber
      pibers := Function.update s.thread.pibers 1 { s.thread.pibers 1 with
        cb := none, state := .TERM, ctx := ⟨1, .ended⟩ }
      running := ⟨0, .stopped⟩ } } := by
    have stack : (s.goto (.ending 1)).thread.running.stack = 1 := by simp [running]
    have point : (s.goto (.ending 1)).thread.running.point = .ending 1 := rfl
    simp only [step, point, State.switch, finished, stack]
    simp [emptied.main.2]
  have scanned := scan_empty code running emptied.tasks
  refine ⟨_, .tail (.tail (.single scanned) leaves) back, rfl, emptied.main.1, rfl, rfl,
    emptied.tasks, fun p positive bound => ?_⟩
  by_cases root : p = 1
  · simp [root]
  · have task : 1 < p := Nat.lt_of_le_of_ne positive (Ne.symm root)
    simpa [Function.update_of_ne root] using emptied.ended p task bound

/-- The caller has tasks to schedule before it stops. -/
structure Before (code : Code Local Mem) (s : State Local Mem) (todo : List Task) (mem : Mem)
    (items : List Local) : Prop where
  running : s.thread.running = ⟨0, .scheduling todo⟩
  main : s.thread.t_thread_piber = some 0
  root : s.thread.t_scheduler_piber = some 1 ∧ s.rootPiber = some 1 ∧
    s.thread.pibers 1 = { ctx := ⟨1, .entry⟩, cb := some .run, runInScheduler := false }
  created : 1 < s.thread.created
  flags : s.m_stopping = false ∧ s.activeThreadCount = 0
  history : s.log = [] ∧ s.mem = mem
  pool : Pool code s.caller s.thread.pibers s.thread.created s.tasks [] items

theorem before_initial (code : Code Local Mem) (caller : ThreadId) (todo : List Task) (mem : Mem) :
    Before code (initial caller todo mem) todo mem [] := by
  refine ⟨rfl, rfl, ⟨rfl, rfl, rfl⟩, Nat.lt_succ_self 1, ⟨rfl, rfl⟩, ⟨rfl, rfl⟩, .nil,
    by simp [queued, initial], by simp [queued, initial], fun p task below => ?_⟩
  exact absurd below (Nat.not_lt.mpr task)

theorem Before.add {task : Task} {todo : List Task} {mem : Mem}
    (before : Before code s (task :: todo) mem items) :
    Before code ((s.add task).goto (.scheduling todo)) todo mem (items ++ [code.start task.f]) := by
  have main : 0 < s.thread.created := Nat.lt_trans Nat.one_pos before.created
  have pool := before.pool
  rw [← Function.update_eq_self 0 s.thread.pibers] at pool
  obtain ⟨frame, pool⟩ := add_stands _ task main before.created (by simp) pool
  rw [← frame.pibers 0 main, Function.update_eq_self, ← frame.caller] at pool
  obtain ⟨thread, scheduler, rootPiber⟩ := frame.pointers
  constructor
  case running => simp [frame.running, before.running]
  case main => exact thread.trans before.main
  case root =>
    exact ⟨scheduler.trans before.root.1, rootPiber.trans before.root.2.1,
      (frame.pibers 1 before.created).trans before.root.2.2⟩
  case created => exact Nat.lt_of_lt_of_le before.created frame.created
  case flags => exact ⟨frame.flags.1.trans before.flags.1, frame.flags.2.trans before.flags.2⟩
  case history => exact ⟨frame.kept.1.trans before.history.1, frame.kept.2.trans before.history.2⟩
  case pool => exact pool

theorem Before.adds {todo : List Task} {mem : Mem} (before : Before code s todo mem items) :
    ∃ t, Reaches (step code) s t ∧
      Before code t [] mem (items ++ todo.map fun task => code.start task.f) := by
  induction todo generalizing s items with
  | nil => exact ⟨s, .refl, by simpa using before⟩
  | cons task todo ih =>
    have stepped : step code s = some ((s.add task).goto (.scheduling todo)) := by
      simp [step, before.running]
    obtain ⟨t, later, done⟩ := ih before.add
    exact ⟨t, .head stepped later, by simpa using done⟩

/-- `stop` resumes the root, which comes to the loop of `run`. -/
theorem stop_enters {mem : Mem} (before : Before code s [] mem items) :
    ∃ t idle, Reaches (step code) s t ∧
      t.thread.running = ⟨1, .scanning { cur := 1, idle_piber := idle }⟩ ∧ t.log = [] ∧
      t.mem = mem ∧ Stage code t idle 0 [] items := by
  obtain ⟨scheduler, rootPiber, root⟩ := before.root
  have main : s.thread.created ≠ 0 := Nat.ne_of_gt (Nat.lt_trans Nat.one_pos before.created)
  have apart : s.thread.created ≠ 1 := Nat.ne_of_gt before.created
  have found : s.thread.partner 1 = some 0 := by simp [PiberThread.partner, root, before.main]
  have resumes := PiberThread.resume_eq .stopped (s := (s.goto .stopping).thread) found (by decide)
  let entering : PiberThread EntryFunction (Place Local) := { s.thread with
    t_piber := some 1
    pibers := Function.update (Function.update s.thread.pibers 1 { s.thread.pibers 1 with
      state := .RUNING }) 0 { s.thread.pibers 0 with ctx := ⟨0, .stopped⟩ }
    running := ⟨1, .entry⟩ }
  have calls : step code s = some (s.goto .stopping) := by simp [step, before.running]
  have stops : step code (s.goto .stopping) =
      some { s with m_stopping := true, thread := entering } := by
    have open_for : (s.goto .stopping).stopping = false := by simp [State.stopping, before.flags]
    have point : (s.goto .stopping).thread.running.point = .stopping := rfl
    have held : (s.goto .stopping).rootPiber = some 1 := rootPiber
    simp only [step, point, open_for, Bool.false_eq_true, if_false, held, resumes, State.switch]
    simp [entering, before.running, root, rootPiber]
  have enters : step code { s with m_stopping := true, thread := entering } =
      some { s with m_stopping := true, thread := entering.goto (.run 1) } := by
    simp [step, entering, PiberThread.getThis, root]
  have idles : step code { s with m_stopping := true, thread := entering.goto (.run 1) } =
      some { s with
        m_stopping := true
        thread := (entering.create .entry (some .idle) true).goto
          (.scanning { cur := 1, idle_piber := s.thread.created }) } := by
    simp [step, entering, PiberThread.create]
  refine ⟨_, s.thread.created, .tail (.tail (.tail (.single calls) stops) enters) idles, rfl,
    before.history.1, before.history.2, ?_⟩
  refine ⟨?_, ?_, ⟨before.created, Nat.lt_succ_self _, ?_⟩, ⟨rfl, before.flags.2⟩, ?_⟩
  · simp [entering, PiberThread.create, Function.update_of_ne main.symm, before.main]
  · simp [entering, PiberThread.create, Function.update_of_ne apart.symm, scheduler, root]
  · simp [entering, PiberThread.create]
  · refine (before.pool.congr fun q task => ?_).create _
    have others : q ≠ 0 ∧ q ≠ 1 :=
      ⟨Nat.ne_of_gt (Nat.lt_trans Nat.one_pos task), Nat.ne_of_gt task⟩
    simp [entering, Function.update_of_ne others.1, Function.update_of_ne others.2]

/-- **The caller's thread drains a plain work queue.** -/
theorem stop_drains_queue (code : Code Local Mem) (caller : ThreadId) (todo : List Task)
    (mem last : Mem) (log : List Local)
    (finite : Drains code (todo.map fun task => code.start task.f) mem log last) :
    ∃ t, Reaches (step code) (initial caller todo mem) t ∧ t.thread.running = ⟨0, .stopped⟩ ∧
      t.thread.t_piber = some 0 ∧ t.log = log ∧ t.mem = last ∧ t.tasks = [] ∧
      ∀ p, 0 < p → p < t.thread.created → (t.thread.pibers p).state = .TERM := by
  obtain ⟨s₁, scheduled, before⟩ := (before_initial code caller todo mem).adds
  obtain ⟨s₂, idle, entered, running, log₂, mem₂, stage⟩ := stop_enters before
  obtain ⟨s₃, drained, home, log₃, mem₃, stage⟩ := drains_queue finite stage running rfl mem₂
  obtain ⟨s₄, ended, home, log₄, mem₄, known, task, emptied⟩ := idle_ends stage home rfl
  obtain ⟨t, left, stopped, current, log₅, mem₅, tasks, all_ended⟩ :=
    root_ends emptied home rfl known task
  refine ⟨t, (((scheduled.trans entered).trans drained).trans ended).trans left, stopped, current,
    ?_, ?_, tasks, all_ended⟩
  · rw [log₅, log₄, log₃, log₂, List.nil_append]
  · rw [mem₅, mem₄, mem₃]

/-- Functions that schedule more, pinned fibers among them, and yield. -/
def errands : Code (CallbackId × ℕ) ℕ where
  start f := (f, 0)
  segment here mem := (mem + 1, match here with
    | (1, 0) => { tasks := [⟨true, 2, true⟩], again := some ⟨false, [⟨false, 3, false⟩], (1, 1)⟩ }
    | (1, 1) => { tasks := [⟨false, 4, true⟩], again := some ⟨true, [], (1, 2)⟩ }
    | (2, 0) => { tasks := [], again := some ⟨true, [], (2, 1)⟩ }
    | _ => { tasks := [], again := none })

theorem errands_run_in_order :
    ∃ t, Reaches (step errands) (initial 5 [⟨false, 1, false⟩, ⟨true, 7, true⟩] 0) t ∧
      t.thread.running = ⟨0, .stopped⟩ ∧ t.tasks = [] ∧
      t.log = [(1, 0), (7, 0), (2, 0), (1, 1), (3, 0), (2, 1), (4, 0), (1, 2)] := by
  have finite : Drains errands [(1, 0), (7, 0)] 0
      [(1, 0), (7, 0), (2, 0), (1, 1), (3, 0), (2, 1), (4, 0), (1, 2)] 8 :=
    .pop rfl (.pop rfl (.pop rfl (.pop rfl (.pop rfl (.pop rfl (.pop rfl (.pop rfl .empty)))))))
  obtain ⟨t, reached, stopped, -, log, -, tasks, -⟩ :=
    stop_drains_queue errands 5 [⟨false, 1, false⟩, ⟨true, 7, true⟩] 0 8 _ finite
  exact ⟨t, reached, stopped, tasks, log⟩

end Synergy.CallerMode
