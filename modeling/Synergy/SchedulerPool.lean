import Mathlib.Data.List.Forall2
import Synergy.SchedulerCaller

/-! What the task queue of a scheduler on its caller's thread stands for. An
entry of `m_tasks` is the segment that popping it will run, whether it is a
function, a fiber that has not started, or one that yielded; a fiber that is
neither queued nor busy has ended. -/
namespace Synergy.CallerMode

variable {Local Mem : Type}

abbrev Pibers (Local : Type) := PiberId → PiberObject EntryFunction (Place Local)

/-- The fibers in the queue. -/
def queued (tasks : List Entry) : List PiberId := tasks.filterMap fun it => it.task.piber

/-- A fiber that runs this segment when it is resumed. -/
structure Waits (code : Code Local Mem) (pibers : Pibers Local) (p : PiberId) (here : Local) :
    Prop where
  ready : (pibers p).state = .READY
  kind : (pibers p).runInScheduler = true
  ctx : ((pibers p).ctx = ⟨p, .entry⟩ ∧
      ∃ f, (pibers p).cb = some (.user f) ∧ code.start f = here) ∨
    (pibers p).ctx = ⟨p, .body p here⟩

/-- An entry of the queue that stands for this segment. -/
structure Holds (code : Code Local Mem) (caller : ThreadId) (pibers : Pibers Local) (it : Entry)
    (here : Local) : Prop where
  pin : it.task.thread = -1 ∨ it.task.thread = caller
  work : (it.task.piber = none ∧ ∃ f, it.task.cb = some f ∧ code.start f = here) ∨
    ∃ p, it.task.piber = some p ∧ Waits code pibers p here

/-- The queue stands for these segments. The fibers in it are apart from each
other and from the `busy` ones, and any other task has ended; `0` is the main
fiber and `1` the root. -/
structure Pool (code : Code Local Mem) (caller : ThreadId) (pibers : Pibers Local)
    (created : PiberId) (tasks : List Entry) (busy : List PiberId) (items : List Local) :
    Prop where
  holds : List.Forall₂ (Holds code caller pibers) tasks items
  apart : ∀ p ∈ queued tasks, 1 < p ∧ p < created ∧ p ∉ busy
  distinct : (queued tasks).Nodup
  ended : ∀ p, 1 < p → p < created → p ∉ queued tasks → p ∉ busy → (pibers p).state = .TERM

section Pool

variable {code : Code Local Mem} {caller : ThreadId} {pibers after : Pibers Local}
variable {created p : PiberId} {tasks rest : List Entry} {busy : List PiberId} {it : Entry}
variable {here : Local} {items : List Local}

theorem holds_congr (same : ∀ p, it.task.piber = some p → after p = pibers p)
    (holds : Holds code caller pibers it here) : Holds code caller after it here := by
  refine ⟨holds.pin, holds.work.imp_right ?_⟩
  rintro ⟨p, piber, waits⟩
  have kept := same p piber
  exact ⟨p, piber, by rw [kept]; exact waits.ready, by rw [kept]; exact waits.kind, by
    rw [kept]; exact waits.ctx⟩

theorem mem_queued (inside : it ∈ tasks) (piber : it.task.piber = some p) : p ∈ queued tasks :=
  List.mem_filterMap.mpr ⟨it, inside, piber⟩

/-- Fibers outside the queue may change, where they are busy or have ended. -/
theorem Pool.change {bound : PiberId} {others : List PiberId}
    (pool : Pool code caller pibers created tasks busy items) (grown : created ≤ bound)
    (same : ∀ p ∈ queued tasks, after p = pibers p)
    (apart : ∀ p ∈ queued tasks, p ∉ busy → p ∉ others)
    (ended : ∀ p, 1 < p → p < bound → p ∉ queued tasks → p ∉ others →
      (after p).state = .TERM) : Pool code caller after bound tasks others items where
  holds := by
    have members := (List.forall₂_and_left tasks items).mpr
      ⟨fun it (inside : it ∈ tasks) => inside, pool.holds⟩
    exact members.imp fun it here ⟨inside, holds⟩ =>
      holds_congr (fun p piber => same p (mem_queued inside piber)) holds
  apart p member := by
    obtain ⟨task, below, free⟩ := pool.apart p member
    exact ⟨task, Nat.lt_of_lt_of_le below grown, apart p member free⟩
  distinct := pool.distinct
  ended := ended

/-- A busy fiber changes. -/
theorem Pool.update (piber : PiberObject EntryFunction (Place Local))
    (pool : Pool code caller pibers created tasks (p :: busy) items) :
    Pool code caller (Function.update pibers p piber) created tasks (p :: busy) items := by
  apply pool.change (Nat.le_refl _)
  case same =>
    intro q member
    have free := (pool.apart q member).2.2
    exact Function.update_of_ne (List.ne_of_not_mem_cons free) _ _
  case apart => exact fun q _ free => free
  case ended =>
    intro q task below out free
    rw [Function.update_of_ne (List.ne_of_not_mem_cons free)]
    exact pool.ended q task below out free

/-- The main fiber and the root are no tasks. -/
theorem Pool.congr (pool : Pool code caller pibers created tasks busy items)
    (same : ∀ p, 1 < p → after p = pibers p) :
    Pool code caller after created tasks busy items := by
  apply pool.change (Nat.le_refl _)
  case same => exact fun q member => same q (pool.apart q member).1
  case apart => exact fun q _ free => free
  case ended =>
    intro q task below out free
    rw [same q task]
    exact pool.ended q task below out free

/-- A new fiber is busy first. -/
theorem Pool.create (piber : PiberObject EntryFunction (Place Local))
    (pool : Pool code caller pibers created tasks busy items) :
    Pool code caller (Function.update pibers created piber) (created + 1) tasks
      (created :: busy) items := by
  apply pool.change (Nat.le_succ _)
  case same =>
    exact fun q member => Function.update_of_ne (Nat.ne_of_lt (pool.apart q member).2.1) _ _
  case apart =>
    intro q member free
    have below := (pool.apart q member).2.1
    exact List.not_mem_cons_of_ne_of_not_mem (Nat.ne_of_lt below) free
  case ended =>
    intro q task below out free
    obtain ⟨away, free⟩ := List.ne_and_not_mem_of_not_mem_cons free
    rw [Function.update_of_ne away]
    exact pool.ended q task (Nat.lt_of_le_of_ne (Nat.le_of_lt_succ below) away) out free

/-- A busy fiber ends. -/
theorem Pool.finish (pool : Pool code caller pibers created tasks (p :: busy) items)
    (ended : (pibers p).state = .TERM) : Pool code caller pibers created tasks busy items := by
  apply pool.change (Nat.le_refl _) (fun _ _ => rfl)
  case apart => exact fun q _ free member => free (List.mem_cons_of_mem _ member)
  case ended =>
    intro q task below out free
    by_cases same : q = p
    · rw [same, ended]
    · exact pool.ended q task below out (List.not_mem_cons_of_ne_of_not_mem same free)

theorem Pool.push_cb (pool : Pool code caller pibers created tasks busy items)
    (holds : Holds code caller pibers it here) (piber : it.task.piber = none) :
    Pool code caller pibers created (tasks ++ [it]) busy (items ++ [here]) := by
  have same : queued (tasks ++ [it]) = queued tasks := by simp [queued, piber]
  refine ⟨List.rel_append pool.holds (.cons holds .nil), ?_, ?_, ?_⟩ <;> rw [same]
  · exact pool.apart
  · exact pool.distinct
  · exact pool.ended

/-- A busy fiber is scheduled. -/
theorem Pool.push_piber (pool : Pool code caller pibers created tasks (p :: busy) items)
    (holds : Holds code caller pibers it here) (piber : it.task.piber = some p)
    (task : 1 < p ∧ p < created) (free : p ∉ busy) :
    Pool code caller pibers created (tasks ++ [it]) busy (items ++ [here]) := by
  have both : queued (tasks ++ [it]) = queued tasks ++ [p] := by simp [queued, piber]
  have fresh : p ∉ queued tasks := fun member =>
    (pool.apart p member).2.2 List.mem_cons_self
  refine ⟨List.rel_append pool.holds (.cons holds .nil), ?_, ?_, ?_⟩ <;> rw [both]
  · intro q member
    rcases List.mem_append.mp member with old | new
    · obtain ⟨task, below, free⟩ := pool.apart q old
      exact ⟨task, below, (List.ne_and_not_mem_of_not_mem_cons free).2⟩
    · rw [List.mem_singleton.mp new]
      exact ⟨task.1, task.2, free⟩
  · simp only [List.nodup_append, List.mem_singleton]
    refine ⟨pool.distinct, List.nodup_singleton p, ?_⟩
    rintro a member b rfl rfl
    exact fresh member
  · intro q task below out free
    obtain ⟨out, away⟩ := not_or.mp (List.mem_append.not.mp out)
    exact pool.ended q task below out
      (List.not_mem_cons_of_ne_of_not_mem (fun same => away (List.mem_singleton.mpr same)) free)

theorem Pool.take_cb (pool : Pool code caller pibers created (it :: tasks) busy (here :: items))
    (piber : it.task.piber = none) : Pool code caller pibers created tasks busy items := by
  have same : queued (it :: tasks) = queued tasks := by simp [queued, piber]
  obtain ⟨holds, apart, distinct, ended⟩ := pool
  rw [same] at apart distinct ended
  exact ⟨(List.forall₂_cons.mp holds).2, apart, distinct, ended⟩

/-- A scheduled fiber is taken, and busy from then on. -/
theorem Pool.take_piber
    (pool : Pool code caller pibers created (it :: tasks) busy (here :: items))
    (piber : it.task.piber = some p) :
    Pool code caller pibers created tasks (p :: busy) items := by
  have both : queued (it :: tasks) = p :: queued tasks := by simp [queued, piber]
  obtain ⟨holds, apart, distinct, ended⟩ := pool
  rw [both] at apart distinct ended
  obtain ⟨fresh, distinct⟩ := List.nodup_cons.mp distinct
  refine ⟨(List.forall₂_cons.mp holds).2, fun q member => ?_, distinct,
    fun q task below out free => ?_⟩
  · obtain ⟨task, below, free⟩ := apart q (List.mem_cons_of_mem _ member)
    exact ⟨task, below, List.not_mem_cons_of_ne_of_not_mem (fun same => fresh (same ▸ member)) free⟩
  · obtain ⟨away, free⟩ := List.ne_and_not_mem_of_not_mem_cons free
    exact ended q task below (List.not_mem_cons_of_ne_of_not_mem away out) free

end Pool

/-- What calls of `schedule` leave alone: all but the queue and the new fibers. -/
structure Frame (s t : State Local Mem) : Prop where
  rest : t = { s with
    thread := { s.thread with pibers := t.thread.pibers, created := t.thread.created }
    tasks := t.tasks
    ticket := t.ticket }
  created : s.thread.created ≤ t.thread.created
  pibers : ∀ q < s.thread.created, t.thread.pibers q = s.thread.pibers q

variable {code : Code Local Mem} {s t : State Local Mem}

theorem Frame.trans {u : State Local Mem} (first : Frame s t) (second : Frame t u) :
    Frame s u where
  rest := by
    rw [second.rest, first.rest]
  created := Nat.le_trans first.created second.created
  pibers q below := by
    rw [second.pibers q (Nat.lt_of_lt_of_le below first.created), first.pibers q below]

theorem Frame.caller (frame : Frame s t) : t.caller = s.caller := by
  rw [frame.rest]

theorem Frame.current (frame : Frame s t) : t.thread.t_piber = s.thread.t_piber := by
  rw [frame.rest]

theorem Frame.running (frame : Frame s t) : t.thread.running = s.thread.running := by
  rw [frame.rest]

theorem Frame.pointers (frame : Frame s t) :
    t.thread.t_thread_piber = s.thread.t_thread_piber ∧
      t.thread.t_scheduler_piber = s.thread.t_scheduler_piber ∧ t.rootPiber = s.rootPiber := by
  rw [frame.rest]
  exact ⟨rfl, rfl, rfl⟩

theorem Frame.flags (frame : Frame s t) :
    t.m_stopping = s.m_stopping ∧ t.activeThreadCount = s.activeThreadCount := by
  rw [frame.rest]
  exact ⟨rfl, rfl⟩

theorem Frame.kept (frame : Frame s t) : t.log = s.log ∧ t.mem = s.mem := by
  rw [frame.rest]
  exact ⟨rfl, rfl⟩

theorem frame_refl (s : State Local Mem) : Frame s s :=
  ⟨rfl, Nat.le_refl _, fun _ _ => rfl⟩

theorem schedule_eq {fc : FiberOrCb} (pinned : Bool)
    (set : ∀ thr, (ScheduleTask.make fc thr).isSet) :
    s.schedule fc pinned = { s with
      tasks := s.tasks ++ [⟨ScheduleTask.make fc (if pinned then s.caller else -1), s.ticket⟩]
      ticket := s.ticket + 1 } := by
  simp [State.schedule, set]

theorem pin_ok (caller : ThreadId) (pinned : Bool) :
    (if pinned then (caller : ℤ) else -1) = -1 ∨
      (if pinned then (caller : ℤ) else -1) = caller := by
  cases pinned <;> simp

/-- A task is scheduled while the record of another fiber is left open. -/
theorem add_stands {busy : List PiberId} {items : List Local} {p : PiberId}
    (piber : PiberObject EntryFunction (Place Local)) (task : Task)
    (known : p < s.thread.created) (low : 1 < s.thread.created)
    (bound : ∀ q ∈ busy, q < s.thread.created)
    (pool : Pool code s.caller (Function.update s.thread.pibers p piber) s.thread.created s.tasks
      busy items) :
    Frame s (s.add task) ∧
      Pool code s.caller (Function.update (s.add task).thread.pibers p piber)
        (s.add task).thread.created (s.add task).tasks busy (items ++ [code.start task.f]) := by
  have pin := pin_ok s.caller task.pinned
  unfold State.add
  split
  · have apart : s.thread.created ≠ p := (Nat.ne_of_lt known).symm
    have opened := pool.create
      { ctx := ⟨s.thread.created, .entry⟩, cb := some (.user task.f), runInScheduler := true }
    rw [Function.update_comm apart.symm] at opened
    rw [schedule_eq task.pinned fun _ => rfl]
    refine ⟨⟨rfl, Nat.le_succ _, fun q below => ?_⟩, ?_⟩
    · exact Function.update_of_ne (Nat.ne_of_lt below) _ _
    · apply opened.push_piber (p := s.thread.created)
      case holds =>
        refine ⟨pin, .inr ⟨s.thread.created, rfl, ?_⟩⟩
        constructor <;>
          simp [Function.update_of_ne apart]
      case piber => rfl
      case task => exact ⟨low, Nat.lt_succ_self _⟩
      case free => exact fun member => Nat.lt_irrefl _ (bound _ member)
  · rw [schedule_eq task.pinned fun _ => rfl]
    refine ⟨⟨rfl, Nat.le_refl _, fun _ _ => rfl⟩, ?_⟩
    exact pool.push_cb ⟨pin, .inl ⟨rfl, task.f, rfl, rfl⟩⟩ rfl

theorem adds_stand {busy : List PiberId} {items : List Local} {p : PiberId}
    (piber : PiberObject EntryFunction (Place Local)) (tasks : List Task)
    (known : p < s.thread.created) (low : 1 < s.thread.created)
    (bound : ∀ q ∈ busy, q < s.thread.created)
    (pool : Pool code s.caller (Function.update s.thread.pibers p piber) s.thread.created s.tasks
      busy items) :
    Frame s (tasks.foldl State.add s) ∧
      Pool code s.caller (Function.update (tasks.foldl State.add s).thread.pibers p piber)
        (tasks.foldl State.add s).thread.created (tasks.foldl State.add s).tasks busy
        (items ++ tasks.map fun task => code.start task.f) := by
  induction tasks generalizing s items with
  | nil => exact ⟨frame_refl s, by simpa using pool⟩
  | cons task rest ih =>
    obtain ⟨frame, added⟩ := add_stands piber task known low bound pool
    have same : (s.add task).caller = s.caller := by rw [frame.rest]
    have grown := frame.created
    obtain ⟨later, all⟩ := ih (Nat.lt_of_lt_of_le known grown) (Nat.lt_of_lt_of_le low grown)
      (fun q member => Nat.lt_of_lt_of_le (bound q member) grown) (by rw [same]; exact added)
    refine ⟨frame.trans later, ?_⟩
    rw [same] at all
    simpa using all

end Synergy.CallerMode
