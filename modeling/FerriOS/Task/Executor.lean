import Mathlib

/-! # Input streams and the executor

The task executor of one CPU, with the two streams of input bytes. A step of the
executor is one operation on a queue, on a waker or on the interrupt flag, and an
input interrupt can come between any two of them while interrupts are on. The handler
of an interrupt runs to its end, with interrupts off.
-/

namespace FerriOS.Task

inductive Stream where
  | keyboard
  | serial
  deriving DecidableEq

/-- Task ids are unique: those of the two tasks that read a stream, and the others. -/
inductive TaskId where
  | stream (stream : Stream)
  | other (n : Nat)
  deriving DecidableEq

def TASK_MAX : Nat := 100
def INPUT_MAX : Nat := 100

/-- The operations of `poll_next`; `init` is the start of the task, which makes the queue. -/
inductive Stage where
  | init
  | pop
  | register
  | popAgain
  | take
  deriving DecidableEq

/-- Where the executor is. Interrupts are off in `test` and `halt`. -/
inductive Pc where
  | ready
  | poll (stream : Stream) (stage : Stage)
  | sleep
  | test
  | halt
  | halted
  | stopped
  deriving DecidableEq

structure State where
  taskQueue : List TaskId
  /-- The bytes of a stream, once its queue has been made. -/
  queue : Stream → Option (List UInt8)
  waker : Stream → Option TaskId
  /-- The last poll of the task returned `Pending`, and it is not polled now. -/
  pending : Stream → Bool
  pc : Pc

variable {s s' : State} {stream : Stream}

namespace State

def bytes (s : State) (stream : Stream) : List UInt8 := (s.queue stream).getD []

def goto (s : State) (pc : Pc) : State := { s with pc }

def setQueue (s : State) (stream : Stream) (bytes : List UInt8) : State :=
  { s with queue := Function.update s.queue stream (some bytes) }

def setWaker (s : State) (stream : Stream) (waker : Option TaskId) : State :=
  { s with waker := Function.update s.waker stream waker }

def setPending (s : State) (stream : Stream) (pending : Bool) : State :=
  { s with pending := Function.update s.pending stream pending }

/-- An interrupt ends the halt. -/
def awake (s : State) : State := if s.pc = .halted then s.goto .ready else s

def interruptsOn (s : State) : Bool := s.pc ≠ .test && s.pc ≠ .halt && s.pc ≠ .stopped

/-- `wake_task`; a full queue is a panic. -/
def wakeTask (s : State) (id : TaskId) : State :=
  if s.taskQueue.length < TASK_MAX then { s with taskQueue := s.taskQueue ++
    [id] } else s.goto .stopped

/-- `WAKER.wake`. -/
def wake (s : State) (stream : Stream) : State :=
  match s.waker stream with
  | none => s
  | some id => (s.setWaker stream none).wakeTask id

/-- `add_scancode` and `add_byte`. A byte for a full queue is dropped, or a panic. -/
def addByte (s : State) (stream : Stream) (byte : UInt8) : State :=
  match s.queue stream with
  | none => s
  | some bytes =>
      if bytes.length < INPUT_MAX then (s.setQueue stream (bytes ++ [byte])).wake stream
      else match stream with
        | .keyboard => s
        | .serial => s.goto .stopped

/-- One operation of `poll_next`. A byte is handled, and the task polls again. -/
def pollNext (s : State) (stream : Stream) : Stage → State
  | .init => (s.setQueue stream []).goto (.poll stream .pop)
  | .pop =>
      match s.bytes stream with
      | _ :: rest => s.setQueue stream rest
      | [] => s.goto (.poll stream .register)
  | .register => (s.setWaker stream (some (.stream stream))).goto (.poll stream .popAgain)
  | .popAgain =>
      match s.bytes stream with
      | _ :: rest => (s.setQueue stream rest).goto (.poll stream .take)
      | [] => (s.setPending stream true).goto .ready
  | .take => (s.setWaker stream none).goto (.poll stream .pop)

/-- One operation of `run_ready_tasks` and `sleep_if_idle`. A task without a stream is
    polled at once; what it wakes are other events. -/
def executor (s : State) : Option State :=
  match s.pc with
  | .ready =>
      match s.taskQueue with
      | [] => some (s.goto .sleep)
      | .other _ :: rest => some { s with taskQueue := rest }
      | .stream stream :: rest =>
          some (({ s with taskQueue := rest }.setPending stream false).goto
            (.poll stream (if (s.queue stream).isNone then .init else .pop)))
  | .poll stream stage => some (s.pollNext stream stage)
  | .sleep => some (s.goto .test)
  | .test => some (s.goto (if s.taskQueue.isEmpty then .halt else .ready))
  | .halt => some (s.goto .halted)
  | .halted => none
  | .stopped => none

end State

inductive Event where
  | executor
  /-- An input interrupt. -/
  | input (stream : Stream) (byte : UInt8)
  /-- Any other interrupt, or a wake-up by other code. -/
  | interrupt (woken : Option TaskId)

def step (s : State) : Event → Option State
  | .executor => s.executor
  | .input stream byte => if s.interruptsOn then some (s.awake.addByte stream byte) else none
  | .interrupt woken =>
      if s.interruptsOn then some (woken.elim s.awake s.awake.wakeTask) else none

/-- Some tasks have been spawned, and none has been polled. -/
def State.start (spawned : List TaskId) : State where
  taskQueue := spawned
  queue _ := none
  waker _ := none
  pending _ := false
  pc := .ready

/-- The states of all runs. -/
def Reachable (s : State) : Prop :=
  ∃ spawned, Relation.ReflTransGen (fun s s' => ∃ event, step s event = some s') (.start spawned) s

/-- The task of the stream will be polled again: it is queued, or the next byte queues it. -/
def Awaited (s : State) (stream : Stream) : Prop :=
  s.waker stream = some (.stream stream) ∨ .stream stream ∈ s.taskQueue

structure Inv (s : State) : Prop where
  awaited : ∀ stream, s.pending stream = true → Awaited s stream
  queued : ∀ stream, s.pending stream = true → s.bytes stream ≠ [] → .stream stream ∈ s.taskQueue
  waker : ∀ stream id, s.waker stream = some id → id = .stream stream
  polled : ∀ stream stage, s.pc = .poll stream stage → s.pending stream = false
  registered : ∀ stream, s.pc = .poll stream .popAgain → Awaited s stream
  idle : s.pc = .halt → s.taskQueue = []

/-- The invariant holds until a panic stops the CPU. -/
def Kept (s : State) : Prop := s.pc = .stopped ∨ Inv s

namespace Inv

theorem goto (inv : Inv s) {pc : Pc} (noPoll : ∀ stream stage, pc ≠ .poll stream stage)
    (idle : pc = .halt → s.taskQueue = []) : Inv (s.goto pc) :=
  ⟨inv.awaited, inv.queued, inv.waker, fun stream stage here => absurd here (noPoll stream stage),
    fun stream here => absurd here (noPoll stream _), idle⟩

theorem awake (inv : Inv s) : Inv s.awake := by
  rw [State.awake]
  split
  · exact inv.goto (by simp) (by simp)
  · exact inv

theorem wakeTask (inv : Inv s) (woken : TaskId) (running : s.pc ≠ .halt) :
    Kept (s.wakeTask woken) := by
  rw [State.wakeTask]
  split
  · refine .inr ⟨fun stream pending => ?_, fun stream pending waiting => ?_, inv.waker, inv.polled,
      fun stream here => ?_,
      fun here => absurd here running⟩
    · exact (inv.awaited stream pending).imp id fun member => List.mem_append_left _ member
    · exact List.mem_append_left _ (inv.queued stream pending waiting)
    · exact (inv.registered stream here).imp id fun member => List.mem_append_left _ member
  · exact .inl rfl

/-- A byte comes in: the task that waits for it is queued, or was queued before. -/
theorem addByte (inv : Inv s) (stream : Stream) (byte : UInt8) (running : s.pc ≠ .halt) :
    Kept (s.addByte stream byte) := by
  rw [State.addByte.eq_def]
  cases made : s.queue stream with
  | none => exact .inr inv
  | some bytes =>
      simp only
      split
      case isFalse =>
        cases stream with
        | keyboard => exact .inr inv
        | serial => exact .inl rfl
      case isTrue =>
        have others : ∀ {other}, other ≠ stream →
          (s.setQueue stream (bytes ++ [byte])).bytes other = s.bytes other :=
          fun different => congrArg (Option.getD · []) (Function.update_of_ne different _ _)
        rw [State.wake]
        cases registered : s.waker stream with
        | none =>
            have same : (s.setQueue stream (bytes ++ [byte])).waker stream = none := registered
            simp only [same]
            have queued : Awaited s stream → TaskId.stream stream ∈ s.taskQueue := fun awaited =>
              awaited.resolve_left fun is => nomatch registered.symm.trans is
            refine .inr ⟨inv.awaited, fun other pending waiting => ?_, inv.waker, inv.polled,
              inv.registered, inv.idle⟩
            by_cases here : other = stream
            · subst here
              exact queued (inv.awaited other pending)
            · rw [others here] at waiting
              exact inv.queued other pending waiting
        | some woken =>
            have same : (s.setQueue stream (bytes ++ [byte])).waker stream = some woken :=
              registered
            simp only [same]
            obtain rfl := inv.waker stream woken registered
            rw [State.wakeTask]
            split
            case isFalse => exact .inl rfl
            case isTrue =>
              have awaited : ∀ other, Awaited s other → Awaited
                  { (s.setQueue stream (bytes ++ [byte])).setWaker stream none with
                    taskQueue := s.taskQueue ++ [.stream stream] } other := by
                intro other awaited
                by_cases here : other = stream
                · subst here
                  exact .inr (List.mem_append_right _ List.mem_cons_self)
                · refine awaited.imp (fun is => ?_) fun member => List.mem_append_left _ member
                  exact (Function.update_of_ne here _ _).trans is
              refine .inr ⟨fun other pending => awaited other (inv.awaited other pending),
                fun other pending waiting => ?_,
                fun other id is => ?_, inv.polled, fun other here =>
                  awaited other (inv.registered other here),
                fun here => absurd here running⟩
              · by_cases here : other = stream
                · subst here
                  exact List.mem_append_right _ List.mem_cons_self
                · have before : s.bytes other ≠ [] := others here ▸ waiting
                  exact List.mem_append_left _ (inv.queued other pending before)
              · by_cases here : other = stream
                · subst here
                  have gone : Function.update s.waker other none other = none :=
                    Function.update_self _ _ _
                  cases gone.symm.trans is
                · exact inv.waker other id ((Function.update_of_ne here _ _).symm.trans is)

/-- One operation of a poll. -/
theorem pollNext (inv : Inv s) (stream : Stream) {stage : Stage}
    (here : s.pc = .poll stream stage) :
    Inv (s.pollNext stream stage) := by
  have polled := inv.polled stream stage here
  -- the other streams do not see a change of this one
  have apart : ∀ {other}, s.pending other = true → other ≠ stream := by
    rintro other pending rfl
    cases polled.symm.trans pending
  have rest : ∀ {s' : State}, s'.taskQueue = s.taskQueue → s'.pending = s.pending →
    s'.waker = s.waker →
      (∀ other ≠ stream, s'.queue other = s.queue other) →
      (∃ stage, s'.pc = .poll stream stage ∧ (stage = .popAgain → Awaited s stream)) → Inv s' := by
    rintro s' tasks pending waker queue ⟨stage', pc, registered⟩
    refine ⟨fun other waits => ?_, fun other waits waiting => ?_, fun other id is =>
      inv.waker other id (waker ▸ is),
      fun other stage'' there => ?_, fun other there => ?_, fun there => ?_⟩
    · rw [Awaited, tasks, waker]
      exact inv.awaited other (pending ▸ waits)
    · have was : s.pending other = true := pending ▸ waits
      rw [State.bytes, queue other (apart was)] at waiting
      rw [tasks]
      exact inv.queued other was waiting
    · obtain ⟨rfl, -⟩ := Pc.poll.inj (pc.symm.trans there)
      rw [pending]
      exact polled
    · obtain ⟨rfl, rfl⟩ := Pc.poll.inj (pc.symm.trans there)
      rw [Awaited, tasks, waker]
      exact registered rfl
    · cases pc.symm.trans there
  have shorter : ∀ (left : List UInt8) other, other ≠ stream →
    Function.update s.queue stream (some left) other = s.queue other :=
    fun left other different => Function.update_of_ne different _ _
  cases stage with
  | init => exact rest rfl rfl rfl (shorter _) ⟨.pop, rfl, (nomatch ·)⟩
  | pop =>
      rw [State.pollNext]
      split
      · exact rest rfl rfl rfl (shorter _) ⟨.pop, here, (nomatch ·)⟩
      · exact rest rfl rfl rfl (fun _ _ => rfl) ⟨.register, rfl, (nomatch ·)⟩
  | register =>
      refine ⟨fun other waits => ?_, inv.queued, fun other id is => ?_, fun other stage' there =>
        ?_, fun other there => ?_,
        fun there => (nomatch there)⟩
      · exact (inv.awaited other waits).imp
          (fun is => (Function.update_of_ne (apart waits) _ _).trans is) id
      · by_cases same : other = stream
        · subst same
          have own : (s.pollNext other .register).waker other = some (.stream other) :=
            Function.update_self _ _ _
          exact (Option.some.inj (own.symm.trans is)).symm
        · exact inv.waker other id ((Function.update_of_ne same _ _).symm.trans is)
      · obtain ⟨rfl, -⟩ := Pc.poll.inj there
        exact polled
      · obtain ⟨rfl, -⟩ := Pc.poll.inj there
        exact .inl (Function.update_self _ _ _)
  | popAgain =>
      rw [State.pollNext]
      split
      · exact rest rfl rfl rfl (shorter _) ⟨.take, rfl, (nomatch ·)⟩
      case h_2 none =>
        refine ⟨fun other waits => ?_, fun other waits waiting => ?_, inv.waker, fun _ _ there =>
          (nomatch there),
          fun _ there => (nomatch there), fun there => (nomatch there)⟩
        · by_cases same : other = stream
          · subst same
            exact inv.registered other here
          · exact inv.awaited other ((Function.update_of_ne same _ _).symm.trans waits)
        · by_cases same : other = stream
          · subst same
            exact absurd none waiting
          · exact inv.queued other ((Function.update_of_ne same _ _).symm.trans waits) waiting
  | take =>
      refine ⟨fun other waits => ?_, inv.queued, fun other id is => ?_, fun other stage' there =>
        ?_,
        fun _ there => (nomatch there), fun there => (nomatch there)⟩
      · exact (inv.awaited other waits).imp
          (fun is => (Function.update_of_ne (apart waits) _ _).trans is) id
      · by_cases same : other = stream
        · subst same
          have gone : (s.pollNext other .take).waker other = none := Function.update_self _ _ _
          cases gone.symm.trans is
        · exact inv.waker other id ((Function.update_of_ne same _ _).symm.trans is)
      · obtain ⟨rfl, -⟩ := Pc.poll.inj there
        exact polled

/-- One operation of the executor. -/
theorem executor (inv : Inv s) (next : s.executor = some s') : Kept s' := by
  rw [State.executor] at next
  split at next
  case h_1 here =>
    split at next
    case h_1 => exact Option.some.inj next ▸ .inr (inv.goto (by simp) (by simp))
    case h_2 n rest tasks =>
      obtain rfl := Option.some.inj next
      have left : ∀ stream, TaskId.stream stream ∈ s.taskQueue → TaskId.stream stream ∈ rest := by
        intro stream member
        rw [tasks] at member
        exact (List.mem_cons.mp member).resolve_left (by simp)
      refine .inr ⟨fun stream waits => (inv.awaited stream waits).imp id (left stream),
        fun stream waits waiting =>
        left stream (inv.queued stream waits waiting), inv.waker, inv.polled, fun stream there =>
          ?_, fun there => ?_⟩
      · cases here.symm.trans there
      · cases here.symm.trans there
    case h_3 stream rest tasks =>
      obtain rfl := Option.some.inj next
      -- the task that is polled now does not wait any more
      have waited : ∀ other, Function.update s.pending stream false other = true → other ≠ stream ∧
        s.pending other = true := by
        intro other waits
        by_cases same : other = stream
        · subst same
          rw [Function.update_self] at waits
          cases waits
        · exact ⟨same, (Function.update_of_ne same _ _).symm.trans waits⟩
      have left : ∀ other ≠ stream, TaskId.stream other ∈ s.taskQueue →
        TaskId.stream other ∈ rest := by
        intro other different member
        rw [tasks] at member
        exact (List.mem_cons.mp member).resolve_left fun is => different (TaskId.stream.inj is)
      refine .inr ⟨fun other waits => ?_, fun other waits waiting => ?_, inv.waker,
        fun other stage there => ?_,
        fun other there => ?_, fun there => (nomatch there)⟩
      · obtain ⟨different, before⟩ := waited other waits
        exact (inv.awaited other before).imp id (left other different)
      · obtain ⟨different, before⟩ := waited other waits
        exact left other different (inv.queued other before waiting)
      · obtain ⟨rfl, -⟩ := Pc.poll.inj there
        exact Function.update_self _ _ _
      · obtain ⟨-, is⟩ := Pc.poll.inj there
        split at is <;> cases is
  case h_2 stream stage here => exact Option.some.inj next ▸ .inr (inv.pollNext stream here)
  case h_3 => exact Option.some.inj next ▸ .inr (inv.goto (by simp) (by simp))
  case h_4 =>
    obtain rfl := Option.some.inj next
    split
    case isTrue none => exact .inr (inv.goto (by simp) fun _ => List.isEmpty_iff.mp none)
    case isFalse => exact .inr (inv.goto (by simp) (by simp))
  case h_5 => exact Option.some.inj next ▸ .inr (inv.goto (by simp) (by simp))
  case h_6 => cases next
  case h_7 => cases next

end Inv

theorem interruptsOn_halt (accepted : s.interruptsOn = true) : s.awake.pc ≠ .halt := by
  rw [State.awake]
  split
  · exact fun is => nomatch is
  · intro is
    simp [State.interruptsOn, is] at accepted

/-- Every step keeps the invariant. -/
theorem step_kept (kept : Kept s) {event : Event} (taken : step s event = some s') : Kept s' := by
  rcases kept with stopped | inv
  · cases event <;> simp [step, State.executor, State.interruptsOn, stopped] at taken
  · cases event with
    | executor => exact inv.executor taken
    | input stream byte =>
        simp only [step, Option.ite_none_right_eq_some, Option.some.injEq] at taken
        obtain ⟨accepted, rfl⟩ := taken
        exact inv.awake.addByte stream byte (interruptsOn_halt accepted)
    | interrupt woken =>
        simp only [step, Option.ite_none_right_eq_some, Option.some.injEq] at taken
        obtain ⟨accepted, rfl⟩ := taken
        cases woken with
        | none => exact .inr inv.awake
        | some woken => exact inv.awake.wakeTask woken (interruptsOn_halt accepted)

theorem start_kept (spawned : List TaskId) : Kept (.start spawned) :=
  .inr ⟨fun _ waits => (nomatch waits), fun _ waits => (nomatch waits), fun _ _ is => (nomatch is),
    fun _ _ there => (nomatch there), fun _ there => (nomatch there), fun there => (nomatch there)⟩

theorem Reachable.kept (reached : Reachable s) : Kept s := by
  obtain ⟨spawned, steps⟩ := reached
  induction steps with
  | refl => exact start_kept spawned
  | tail _ taken ih => exact taken.elim fun _ taken => step_kept ih taken

/-- No wake-up is lost: where a byte waits for a task that is pending, the task is queued,
    and the executor does not come to its halt. -/
theorem no_lost_wakeup (reached : Reachable s) (running : s.pc ≠ .stopped) (stream : Stream)
    (pending : s.pending stream = true) (waiting : s.bytes stream ≠ []) :
    .stream stream ∈ s.taskQueue ∧ s.pc ≠ .halt := by
  have inv := reached.kept.resolve_left running
  have queued := inv.queued stream pending waiting
  refine ⟨queued, fun halt => ?_⟩
  rw [inv.idle halt] at queued
  cases queued

/-- A list of events, where each can happen. -/
def play (s : State) : List Event → Option State
  | [] => some s
  | event :: events => (step s event).bind fun s => play s events

theorem play_reachable {events : List Event} (reached : Reachable s)
    (played : play s events = some s') : Reachable s' := by
  induction events generalizing s with
  | nil => exact Option.some.inj played ▸ reached
  | cons event events ih =>
      obtain ⟨s₁, taken, rest⟩ := Option.bind_eq_some_iff.mp played
      obtain ⟨spawned, steps⟩ := reached
      exact ih ⟨spawned, steps.tail ⟨event, taken⟩⟩ rest

/-- A key is pressed while the keyboard task waits. -/
theorem no_lost_wakeup_key : ∃ s, Reachable s ∧ s.bytes .keyboard = [0x1E] ∧
    .stream .keyboard ∈ s.taskQueue ∧ s.pc ≠ .halt := by
  have played : ∃ s, play (.start [.stream .keyboard])
      [.executor, .executor, .executor, .executor, .executor, .input .keyboard 0x1E] = some s ∧
        s.pc ≠ .stopped ∧ s.pending .keyboard = true ∧ s.bytes .keyboard = [0x1E] :=
    ⟨_, rfl, by decide, rfl, rfl⟩
  obtain ⟨s, played, running, pending, byte⟩ := played
  have reached : Reachable s := play_reachable ⟨_, .refl⟩ played
  exact ⟨s, reached, byte, no_lost_wakeup reached running .keyboard pending
    (by rw [byte]; exact List.cons_ne_nil _ _)⟩

end FerriOS.Task
