import Mathlib

/-! # Wake-ups of the executor

The tasks of the executor, whose futures do what they like, and wakers, which anybody who
has been given one may use at any time: the future that is polled, an interrupt handler,
and also after the task has completed. A waker puts the id of its task into a queue that
holds `TASK_MAX` of them.
-/

namespace FerriOS.Executor

abbrev TaskId := Nat

def TASK_MAX : Nat := 100

/-- Where the executor is. Interrupts are off in `test` and `halt`; `stopped` is a panic. -/
inductive Pc where
  | ready
  | poll (task : TaskId)
  | sleep
  | test
  | halt
  | halted
  | stopped
  deriving DecidableEq

structure State where
  /-- The keys of `tasks`. -/
  tasks : Finset TaskId
  taskQueue : List TaskId
  /-- The tasks that have been polled, so that there may be wakers of them. -/
  wakers : Finset TaskId
  completed : Finset TaskId
  /-- The tasks woken since their last poll began. -/
  woken : Finset TaskId
  pc : Pc

namespace State

def goto (s : State) (pc : Pc) : State := { s with pc }

/-- An interrupt ends the halt. -/
def awake (s : State) : State := if s.pc = .halted then s.goto .ready else s

def interruptsOn (s : State) : Bool := s.pc ≠ .test && s.pc ≠ .halt && s.pc ≠ .stopped

/-- `wake_task`; a full queue is a panic. -/
def wakeTask (s : State) (task : TaskId) : State :=
  if s.taskQueue.length < TASK_MAX then
    { s with taskQueue := s.taskQueue ++ [task], woken := insert task s.woken }
  else s.goto .stopped

/-- One operation of `run_ready_tasks` and `sleep_if_idle`, other than a poll. -/
def executor (s : State) : Option State :=
  match s.pc with
  | .ready =>
      match s.taskQueue with
      | [] => some (s.goto .sleep)
      | task :: rest =>
          if task ∈ s.tasks then
            some { s with taskQueue := rest, wakers := insert task s.wakers, woken := s.woken.erase task, pc := .poll task }
          else some { s with taskQueue := rest }
  | .poll _ => none
  | .sleep => some (s.goto .test)
  | .test => some (s.goto (if s.taskQueue.isEmpty then .halt else .ready))
  | .halt => some (s.goto .halted)
  | .halted => none
  | .stopped => none

/-- The poll returns; a task that is done is removed, with the waker in the cache. -/
def polled (s : State) (done : Bool) : Option State :=
  match s.pc with
  | .poll task =>
      if done then some { s with tasks := s.tasks.erase task, completed := insert task s.completed, pc := .ready }
      else some (s.goto .ready)
  | _ => none

end State

inductive Event where
  | executor
  /-- The poll returns `Ready` or `Pending`. -/
  | polled (done : Bool)
  /-- `wake` or `wake_by_ref`, by the future that is polled or in an interrupt. -/
  | wake (task : TaskId)
  | interrupt
  deriving DecidableEq

def step (s : State) : Event → Option State
  | .executor => s.executor
  | .polled done => s.polled done
  | .wake task => if s.interruptsOn ∧ task ∈ s.wakers then some (s.awake.wakeTask task) else none
  | .interrupt => if s.interruptsOn then some s.awake else none

/-- At most `TASK_MAX` tasks have been spawned, with ids of their own. -/
structure Spawned where
  ids : List TaskId
  distinct : ids.Nodup
  fit : ids.length ≤ TASK_MAX

def Spawned.start (spawned : Spawned) : State where
  tasks := spawned.ids.toFinset
  taskQueue := spawned.ids
  wakers := ∅
  completed := ∅
  woken := ∅
  pc := .ready

/-- No waker is used while the queue is full. -/
def Event.Fits (event : Event) (s : State) : Prop :=
  ∀ task, event = .wake task → s.taskQueue.length < TASK_MAX

/-- The states of the runs in which no waker is used while the queue is full. -/
inductive Runs : State → Prop where
  | start (spawned : Spawned) : Runs spawned.start
  | step : Runs s → event.Fits s → step s event = some s' → Runs s'

/-- No wake-up panics, a completed task is not polled, and the executor does not sleep
    on a task that has been woken since its last poll. -/
structure Tolerates (s : State) : Prop where
  running : s.pc ≠ .stopped
  completed : ∀ task ∈ s.completed, s.pc ≠ .poll task
  awaited : ∀ task ∈ s.tasks, task ∈ s.woken → task ∈ s.taskQueue
  asleep : s.pc = .halt ∨ s.pc = .halted → ∀ task ∈ s.tasks, task ∉ s.woken

structure Inv (s : State) : Prop where
  running : s.pc ≠ .stopped
  gone : ∀ task ∈ s.completed, task ∉ s.tasks
  polled : ∀ task, s.pc = .poll task → task ∈ s.tasks
  awaited : ∀ task ∈ s.tasks, task ∈ s.woken → task ∈ s.taskQueue
  idle : s.pc = .halt ∨ s.pc = .halted → s.taskQueue = []

variable {s s' : State} {event : Event}

theorem Inv.tolerates (inv : Inv s) : Tolerates s where
  running := inv.running
  completed task done here := inv.gone task done (inv.polled task here)
  awaited := inv.awaited
  asleep here task live woken := by
    have queued := inv.awaited task live woken
    rw [inv.idle here] at queued
    cases queued

namespace Inv

theorem goto (inv : Inv s) {pc : Pc} (running : pc ≠ .stopped) (noPoll : ∀ task, pc ≠ .poll task)
    (idle : pc = .halt ∨ pc = .halted → s.taskQueue = []) : Inv (s.goto pc) :=
  ⟨running, inv.gone, fun task here => absurd here (noPoll task), inv.awaited, idle⟩

theorem awake (inv : Inv s) : Inv s.awake := by
  rw [State.awake]
  split
  · exact inv.goto (by simp) (by simp) (by simp)
  · exact inv

theorem wakeTask (inv : Inv s) (task : TaskId) (room : s.taskQueue.length < TASK_MAX)
    (working : ¬ (s.pc = .halt ∨ s.pc = .halted)) : Inv (s.wakeTask task) := by
  rw [State.wakeTask, if_pos room]
  refine ⟨inv.running, inv.gone, inv.polled, fun other live woken => ?_, fun here => absurd here working⟩
  rcases Finset.mem_insert.mp woken with rfl | before
  · exact List.mem_append_right _ (List.mem_singleton_self other)
  · exact List.mem_append_left _ (inv.awaited other live before)

theorem executor (inv : Inv s) (next : s.executor = some s') : Inv s' := by
  rw [State.executor.eq_def] at next
  cases here : s.pc with
  | ready =>
      simp only [here] at next
      cases queue : s.taskQueue with
      | nil =>
          simp only [queue] at next
          exact Option.some.inj next ▸ inv.goto (by simp) (by simp) (by simp)
      | cons task rest =>
          simp only [queue] at next
          have left : ∀ other ∈ s.tasks, other ∈ s.woken → other ≠ task → other ∈ rest := by
            intro other live woken different
            have queued := inv.awaited other live woken
            rw [queue] at queued
            exact (List.mem_cons.mp queued).resolve_left different
          split at next
          case isTrue live =>
            obtain rfl := Option.some.inj next
            refine ⟨by simp, inv.gone, fun other same => ?_, fun other there woken => ?_, by simp⟩
            · rw [← Pc.poll.inj same]
              exact live
            · obtain ⟨different, woken⟩ := Finset.mem_erase.mp woken
              exact left other there woken different
          case isFalse dead =>
            obtain rfl := Option.some.inj next
            refine ⟨by simp, inv.gone, by simp, fun other there woken => left other there woken ?_, by simp⟩
            rintro rfl
            exact dead there
  | poll task => simp [here] at next
  | sleep =>
      simp only [here] at next
      exact Option.some.inj next ▸ inv.goto (by simp) (by simp) (by simp)
  | test =>
      simp only [here] at next
      obtain rfl := Option.some.inj next
      split
      case isTrue none => exact inv.goto (by simp) (by simp) fun _ => List.isEmpty_iff.mp none
      case isFalse => exact inv.goto (by simp) (by simp) (by simp)
  | halt =>
      simp only [here] at next
      exact Option.some.inj next ▸ inv.goto (by simp) (by simp) fun _ => inv.idle (.inl here)
  | halted => simp [here] at next
  | stopped => simp [here] at next

theorem poll_returns (inv : Inv s) {done : Bool} (next : s.polled done = some s') : Inv s' := by
  rw [State.polled.eq_def] at next
  cases here : s.pc with
  | poll task =>
      simp only [here] at next
      split at next
      · obtain rfl := Option.some.inj next
        refine ⟨by simp, fun other completed live => ?_, by simp, fun other live woken => ?_, by simp⟩
        · obtain ⟨different, live⟩ := Finset.mem_erase.mp live
          exact inv.gone other ((Finset.mem_insert.mp completed).resolve_left different) live
        · exact inv.awaited other (Finset.mem_of_mem_erase live) woken
      · exact Option.some.inj next ▸ inv.goto (by simp) (by simp) (by simp)
  | ready | sleep | test | halt | halted | stopped => simp [here] at next

/-- Every step keeps the invariant, where a waker finds room in the queue. -/
theorem step (inv : Inv s) (fits : event.Fits s) (taken : step s event = some s') : Inv s' := by
  cases event with
  | executor => exact inv.executor taken
  | polled done => exact inv.poll_returns taken
  | wake task =>
      simp only [Executor.step, Option.ite_none_right_eq_some, Option.some.injEq] at taken
      obtain ⟨⟨accepted, -⟩, rfl⟩ := taken
      have room : s.awake.taskQueue.length < TASK_MAX := by
        rw [State.awake]
        split <;> exact fits task rfl
      refine inv.awake.wakeTask task room ?_
      rw [State.awake]
      split
      · simp [State.goto]
      case isFalse other =>
        simp only [State.interruptsOn, Bool.and_eq_true, decide_eq_true_eq] at accepted
        simp [other, accepted.1.2]
  | interrupt =>
      simp only [Executor.step, Option.ite_none_right_eq_some, Option.some.injEq] at taken
      exact taken.2 ▸ inv.awake

end Inv

theorem Runs.inv (runs : Runs s) : Inv s := by
  induction runs with
  | start spawned =>
      exact ⟨nofun, fun _ done => absurd done (Finset.notMem_empty _), nofun,
        fun _ _ woken => absurd woken (Finset.notMem_empty _),
          fun asleep => by cases asleep <;> contradiction⟩
  | step _ fits taken inv => exact inv.step fits taken

/-- In a run in which no waker is used while the queue is full, every wake-up counts. -/
theorem wakes_tolerated (runs : Runs s) : Tolerates s := runs.inv.tolerates

/-- A list of events, where each can happen. -/
def play (s : State) : List Event → Option State
  | [] => some s
  | event :: events => (step s event).bind fun s => play s events

/-- One task. -/
def oneTask : Spawned := ⟨[7], List.nodup_singleton 7, by decide⟩

/-- The task is polled and woken, and has been queued again when the poll returns. -/
theorem wakes_tolerated_polled : ∃ s, Runs s ∧ 7 ∈ s.woken ∧ Tolerates s := by
  have polling := (Runs.start oneTask).step (show Event.Fits .executor _ from nofun) rfl
  have woken := polling.step (show Event.Fits (.wake 7) _ from fun _ _ => by decide) rfl
  exact ⟨_, woken, by decide, wakes_tolerated woken⟩

/-- The task is polled, and woken once more than the queue has room for. -/
theorem queue_overflows : (play oneTask.start
    (.executor :: List.replicate (TASK_MAX + 1) (.wake 7))).map State.pc =
    some .stopped := by
  decide +kernel

end FerriOS.Executor
