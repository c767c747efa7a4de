import FerriOS.Task.Executor

/-! # Input is delivered

A stream is a channel from the interrupt handler to its task. Whatever comes between the
operations, the task gets the bytes that the queue has accepted, each one once and in order,
and the CPU does not halt before it has got all of them.
-/

namespace FerriOS.Task

variable {s s' s₀ : State} {stream other : Stream} {event : Event} {accepted handed : List UInt8}

/-- The byte that a step puts into the queue. -/
def acceptedBy (s : State) (stream : Stream) : Event → List UInt8
  | .input other byte => if other = stream ∧ (s.queue stream).any (·.length < INPUT_MAX) then [byte] else []
  | _ => []

/-- The byte that a step gives to the task. -/
def handedBy (s : State) (stream : Stream) : Event → List UInt8
  | .executor =>
      if s.pc = .poll stream .pop ∨ s.pc = .poll stream .popAgain then (s.bytes stream).take 1 else
        []
  | _ => []

/-- Runs with the bytes that the queue has accepted, and those that the task was given. -/
inductive Delivers (stream : Stream) (s : State) : List UInt8 → List UInt8 → State → Prop where
  | start : Delivers stream s [] [] s
  | step {accepted handed : List UInt8} {s₁ s₂ : State}
      (before : Delivers stream s accepted handed s₁)
      (event : Event)
      (taken : step s₁ event = some s₂) :
      Delivers stream s (accepted ++ acceptedBy s₁ stream event)
        (handed ++ handedBy s₁ stream event) s₂

/-! ## The queue -/

@[simp] theorem bytes_goto (s : State) (pc : Pc) : (s.goto pc).bytes stream = s.bytes stream := rfl

@[simp] theorem bytes_setWaker (s : State) (waker : Option TaskId) :
    (s.setWaker other waker).bytes stream = s.bytes stream := rfl

@[simp] theorem bytes_setPending (s : State) (pending : Bool) :
    (s.setPending other pending).bytes stream = s.bytes stream := rfl

theorem bytes_setQueue (s : State) (bytes : List UInt8) :
    (s.setQueue other bytes).bytes stream = if stream = other then bytes else s.bytes stream := by
  by_cases here : stream = other
  · subst here
    rw [if_pos rfl]
    exact congrArg (Option.getD · []) (Function.update_self stream (some bytes) s.queue)
  · rw [if_neg here]
    exact congrArg (Option.getD · []) (Function.update_of_ne here _ _)

theorem bytes_wakeTask (s : State) (id : TaskId) :
    (s.wakeTask id).bytes stream = s.bytes stream := by
  rw [State.wakeTask]
  split <;> rfl

theorem bytes_wake (s : State) : (s.wake other).bytes stream = s.bytes stream := by
  rw [State.wake]
  split
  · rfl
  · exact bytes_wakeTask _ _

theorem queue_awake (s : State) : s.awake.queue = s.queue := by
  rw [State.awake]
  split <;> rfl

/-- A task makes its queue once, and is polled or pending from then on. -/
structure Rests (s : State) : Prop where
  made : ∀ stream, s.pending stream = false → s.queue stream = none ∨
    (∃ stage, s.pc = .poll stream stage) ∨
    s.pc = .stopped
  fresh : ∀ stream, s.pc = .poll stream .init → s.queue stream = none
  idle : s.pc = .halt ∨ s.pc = .halted → s.taskQueue = []

theorem start_rests (spawned : List TaskId) : Rests (.start spawned) := by
  refine ⟨fun _ _ => .inl rfl, fun _ _ => rfl, ?_⟩
  rintro (here | here) <;> cases here

namespace Rests

/-- An interrupt makes no queue and takes no task. -/
theorem change (rests : Rests s) (queue : ∀ stream, s.queue stream = none → s'.queue stream = none)
    (pending : s'.pending = s.pending)
    (pc : s'.pc = s.pc ∨ s'.pc = .stopped) (running : ¬ (s.pc = .halt ∨ s.pc = .halted)) :
    Rests s' := by
  refine ⟨fun stream idle => ?_, fun stream here => ?_, fun here => ?_⟩
  · rw [pending] at idle
    rcases pc with same | stopped
    · rw [same]
      exact (rests.made stream idle).imp_left (queue stream)
    · exact .inr (.inr stopped)
  · rcases pc with same | stopped
    · exact queue stream (rests.fresh stream (same.symm.trans here))
    · cases stopped.symm.trans here
  · rcases pc with same | stopped
    · exact absurd (same ▸ here) running
    · rw [stopped] at here
      rcases here with here | here <;> cases here

theorem awake (rests : Rests s) (on : s.interruptsOn = true) :
    Rests s.awake ∧ ¬ (s.awake.pc = .halt ∨ s.awake.pc = .halted) := by
  have halt := interruptsOn_halt on
  rw [State.awake] at halt ⊢
  split
  case isTrue here =>
    refine ⟨⟨fun stream idle => ?_, fun stream is => ?_, fun is => ?_⟩, ?_⟩
    · refine .inl ((rests.made stream idle).resolve_right ?_)
      rw [here]
      rintro (⟨stage, is⟩ | is) <;> cases is
    · cases is
    · rcases is with is | is <;> cases is
    · rintro (is | is) <;> cases is
  case isFalse here =>
    rw [if_neg here] at halt
    exact ⟨rests, fun is => is.elim halt here⟩

theorem wakeTask (rests : Rests s) (running : ¬ (s.pc = .halt ∨ s.pc = .halted)) (id : TaskId) :
    Rests (s.wakeTask id) := by
  rw [State.wakeTask]
  split
  · exact rests.change (fun _ none => none) rfl (.inl rfl) running
  · exact rests.change (fun _ none => none) rfl (.inr rfl) running

theorem addByte (rests : Rests s) (running : ¬ (s.pc = .halt ∨ s.pc = .halted)) (other : Stream)
    (byte : UInt8) :
    Rests (s.addByte other byte) := by
  rw [State.addByte.eq_def]
  cases made : s.queue other with
  | none => exact rests
  | some bytes =>
      simp only
      split
      case isFalse =>
        cases other with
        | keyboard => exact rests
        | serial => exact rests.change (fun _ none => none) rfl (.inr rfl) running
      case isTrue =>
        have pushed : Rests (s.setQueue other (bytes ++ [byte])) := by
          refine rests.change (fun stream none => ?_) rfl (.inl rfl) running
          have apart : stream ≠ other := by
            rintro rfl
            cases made.symm.trans none
          exact (Function.update_of_ne apart _ _).trans none
        rw [State.wake]
        split
        · exact pushed
        · have cleared : Rests ((s.setQueue other (bytes ++ [byte])).setWaker other none) :=
            pushed.change (fun _ none => none) rfl (.inl rfl) running
          exact cleared.wakeTask running _

/-- A poll begins: the task has its queue, or makes it first. -/
theorem begin (rests : Rests s) (here : s.pc = .ready) (rest : List TaskId) (other : Stream) :
    Rests (({ s with taskQueue := rest }.setPending other false).goto
      (.poll other (if (s.queue other).isNone then .init else .pop))) := by
  refine ⟨fun stream idle => ?_, fun stream is => ?_, fun is => ?_⟩
  · by_cases same : stream = other
    · subst same
      exact .inr (.inl ⟨_, rfl⟩)
    · refine .inl ((rests.made stream
        ((Function.update_of_ne same _ _).symm.trans idle)).resolve_right ?_)
      rw [here]
      rintro (⟨stage, is⟩ | is) <;> cases is
  · obtain ⟨rfl, is⟩ := Pc.poll.inj is
    split at is
    case isTrue none => exact Option.isNone_iff_eq_none.mp none
    case isFalse => cases is
  · rcases is with is | is <;> cases is

/-- An operation that goes on with the poll. -/
theorem goesOn (rests : Rests s) {stage stage' : Stage} (here : s.pc = .poll other stage)
    (queue : ∀ stream ≠ other, s'.queue stream = s.queue stream)
    (pending : s'.pending = s.pending) (pc : s'.pc = .poll other stage') (later : stage' ≠ .init) :
    Rests s' := by
  refine ⟨fun stream idle => ?_, fun stream is => ?_, fun is => ?_⟩
  · by_cases same : stream = other
    · subst same
      exact .inr (.inl ⟨_, pc⟩)
    · rw [queue stream same]
      refine .inl ((rests.made stream (pending ▸ idle)).resolve_right ?_)
      rw [here]
      rintro (⟨stage, is⟩ | is)
      · exact same (Pc.poll.inj is).1.symm
      · cases is
  · exact absurd (Pc.poll.inj (pc.symm.trans is)).2 later
  · rw [pc] at is
    rcases is with is | is <;> cases is

theorem pollNext (rests : Rests s) (other : Stream) {stage : Stage}
    (here : s.pc = .poll other stage) :
    Rests (s.pollNext other stage) := by
  have apart : ∀ (left : List UInt8), ∀ stream ≠ other,
    Function.update s.queue other (some left) stream = s.queue stream :=
    fun left stream different => Function.update_of_ne different _ _
  cases stage with
  | init => exact rests.goesOn here (apart _) rfl rfl (by decide)
  | pop =>
      rw [State.pollNext]
      split
      · exact rests.goesOn here (apart _) rfl here (by decide)
      · exact rests.goesOn here (fun _ _ => rfl) rfl rfl (by decide)
  | register => exact rests.goesOn here (fun _ _ => rfl) rfl rfl (by decide)
  | popAgain =>
      rw [State.pollNext]
      split
      · exact rests.goesOn here (apart _) rfl rfl (by decide)
      · refine ⟨fun stream idle => ?_, fun stream is => ?_, fun is => ?_⟩
        · by_cases same : stream = other
          · subst same
            cases (Function.update_self ..).symm.trans idle
          · refine .inl ((rests.made stream
              ((Function.update_of_ne same _ _).symm.trans idle)).resolve_right ?_)
            rw [here]
            rintro (⟨stage, is⟩ | is)
            · exact same (Pc.poll.inj is).1.symm
            · cases is
        · cases is
        · rcases is with is | is <;> cases is
  | take => exact rests.goesOn here (fun _ _ => rfl) rfl rfl (by decide)

theorem goto (rests : Rests s) {pc : Pc} (noPoll : ∀ stream stage, s.pc ≠ .poll stream stage)
    (alive : s.pc ≠ .stopped)
    (noPoll' : ∀ stream stage, pc ≠ .poll stream stage) (idle : pc = .halt ∨ pc = .halted → s.taskQueue = []) :
    Rests (s.goto pc) := by
  refine ⟨fun stream waits => .inl ((rests.made stream waits).resolve_right ?_), fun stream is =>
    absurd is (noPoll' stream _), idle⟩
  rintro (⟨stage, is⟩ | is)
  · exact noPoll stream stage is
  · exact alive is

theorem executor (rests : Rests s) (next : s.executor = some s') : Rests s' := by
  rw [State.executor] at next
  split at next
  case h_1 here =>
    split at next
    case h_1 =>
      obtain rfl := Option.some.inj next
      exact rests.goto (by simp [here]) (by simp [here]) (by simp) (by simp)
    case h_2 n rest tasks =>
      obtain rfl := Option.some.inj next
      exact ⟨rests.made, rests.fresh, fun is => by simp [here] at is⟩
    case h_3 stream rest tasks =>
      obtain rfl := Option.some.inj next
      exact rests.begin here rest stream
  case h_2 stream stage here => exact Option.some.inj next ▸ rests.pollNext stream here
  case h_3 here => exact Option.some.inj next ▸ rests.goto (by simp [here]) (by simp [here]) (by simp) (by simp)
  case h_4 here =>
    obtain rfl := Option.some.inj next
    split
    case isTrue none =>
      exact rests.goto (by simp [here]) (by simp [here]) (by simp) fun _ =>
        List.isEmpty_iff.mp none
    case isFalse => exact rests.goto (by simp [here]) (by simp [here]) (by simp) (by simp)
  case h_5 here =>
    exact Option.some.inj next ▸ rests.goto (by simp [here]) (by simp [here]) (by simp) fun _ =>
      rests.idle (.inl here)
  case h_6 => cases next
  case h_7 => cases next

theorem step (rests : Rests s) (taken : step s event = some s') : Rests s' := by
  cases event with
  | executor => exact rests.executor taken
  | input other byte =>
      simp only [Task.step, Option.ite_none_right_eq_some, Option.some.injEq] at taken
      obtain ⟨on, rfl⟩ := taken
      obtain ⟨awake, running⟩ := rests.awake on
      exact awake.addByte running other byte
  | interrupt woken =>
      simp only [Task.step, Option.ite_none_right_eq_some, Option.some.injEq] at taken
      obtain ⟨on, rfl⟩ := taken
      obtain ⟨awake, running⟩ := rests.awake on
      cases woken with
      | none => exact awake
      | some woken => exact awake.wakeTask running woken

end Rests

/-! ## One step -/

theorem awake_bytes (s : State) :
    s.awake.bytes stream = s.bytes stream := by rw [State.bytes, queue_awake, State.bytes]

theorem addByte_bytes (s : State) (other : Stream) (byte : UInt8) :
    (s.addByte other byte).bytes stream = s.bytes stream ++ acceptedBy s stream
    (.input other byte) := by
  rw [State.addByte.eq_def, acceptedBy]
  cases made : s.queue other with
  | none =>
      rw [if_neg, List.append_nil]
      rintro ⟨rfl, room⟩
      rw [made] at room
      cases room
  | some bytes =>
      simp only
      split
      case isTrue room =>
        rw [bytes_wake, bytes_setQueue]
        by_cases here : stream = other
        · subst here
          rw [if_pos rfl, State.bytes, made, if_pos ⟨rfl, by simpa using room⟩]
          rfl
        · rw [if_neg here, if_neg fun both => here both.1.symm, List.append_nil]
      case isFalse full =>
        have none : ¬ (other = stream ∧ (s.queue stream).any (·.length < INPUT_MAX) = true) := by
          rintro ⟨rfl, room⟩
          rw [made] at room
          exact full (by simpa using room)
        rw [if_neg none, List.append_nil]
        cases other <;> rfl

theorem handedBy_other {stage : Stage} (here : s.pc = .poll other stage) (apart : stream ≠ other) :
    handedBy s stream .executor = [] := by
  unfold handedBy
  rw [here]
  apply if_neg
  rintro (is | is)
  · exact apart (Pc.poll.inj is).1.symm
  · exact apart (Pc.poll.inj is).1.symm

theorem handedBy_pop (here : s.pc = .poll stream .pop ∨ s.pc = .poll stream .popAgain) :
    handedBy s stream .executor = (s.bytes stream).take 1 :=
  if_pos here

theorem handedBy_none (noPop : ∀ other, s.pc ≠ .poll other .pop ∧ s.pc ≠ .poll other .popAgain) :
    handedBy s stream .executor = [] :=
  if_neg fun is => is.elim (noPop stream).1 (noPop stream).2

/-- What a poll takes from its queue is what the task gets. -/
theorem pollNext_bytes (rests : Rests s) {stage : Stage} (here : s.pc = .poll other stage) :
    handedBy s stream .executor ++ (s.pollNext other stage).bytes stream = s.bytes stream := by
  obtain rfl | apart := eq_or_ne stream other
  · cases stage with
    | init =>
        have none : s.bytes stream = [] := by
          rw [State.bytes, rests.fresh stream here]
          rfl
        rw [handedBy_none (by simp [here]), State.pollNext, bytes_goto, bytes_setQueue, if_pos rfl,
          none]
        rfl
    | pop =>
        rw [handedBy_pop (.inl here), State.pollNext]
        split
        case h_1 byte rest bytes => rw [bytes_setQueue, if_pos rfl, bytes]; rfl
        case h_2 bytes => rw [bytes_goto, bytes]; rfl
    | register =>
        rw [handedBy_none (by simp [here]), State.pollNext]
        rfl
    | popAgain =>
        rw [handedBy_pop (.inr here), State.pollNext]
        split
        case h_1 byte rest bytes => rw [bytes_goto, bytes_setQueue, if_pos rfl, bytes]; rfl
        case h_2 bytes => rw [bytes_goto, bytes_setPending, bytes]; rfl
    | take =>
        rw [handedBy_none (by simp [here]), State.pollNext]
        rfl
  · rw [handedBy_other here apart, List.nil_append]
    cases stage with
    | init => rw [State.pollNext, bytes_goto, bytes_setQueue, if_neg apart]
    | register => rfl
    | take => rfl
    | pop =>
        rw [State.pollNext]
        split
        · rw [bytes_setQueue, if_neg apart]
        · rfl
    | popAgain =>
        rw [State.pollNext]
        split
        · rw [bytes_goto, bytes_setQueue, if_neg apart]
        · rfl

theorem executor_bytes (rests : Rests s) (next : s.executor = some s') :
    handedBy s stream .executor ++ s'.bytes stream = s.bytes stream := by
  rw [State.executor] at next
  split at next
  case h_2 other stage here => exact Option.some.inj next ▸ pollNext_bytes rests here
  case h_1 here =>
    rw [handedBy_none (by simp [here]), List.nil_append]
    split at next <;> exact Option.some.inj next ▸ rfl
  case h_6 => cases next
  case h_7 => cases next
  all_goals
    rename_i here
    rw [handedBy_none (by simp [here]), List.nil_append]
    exact Option.some.inj next ▸ rfl

/-- What a step gives to the task leaves the queue at its head, what it accepts comes in at
    its end, and nothing else happens to the queue. -/
theorem step_bytes (rests : Rests s) (taken : step s event = some s') :
    handedBy s stream event ++ s'.bytes stream = s.bytes stream ++ acceptedBy s stream event := by
  cases event with
  | executor =>
      rw [executor_bytes rests taken]
      exact (List.append_nil _).symm
  | input other byte =>
      simp only [step, Option.ite_none_right_eq_some, Option.some.injEq] at taken
      obtain ⟨-, rfl⟩ := taken
      have same : acceptedBy s.awake stream (.input other byte) = acceptedBy s stream
        (.input other byte) := by
        rw [acceptedBy, acceptedBy, queue_awake]
      rw [addByte_bytes, awake_bytes, same]
      rfl
  | interrupt woken =>
      simp only [step, Option.ite_none_right_eq_some, Option.some.injEq] at taken
      obtain ⟨-, rfl⟩ := taken
      have same : (woken.elim s.awake s.awake.wakeTask).bytes stream = s.bytes stream := by
        cases woken with
        | none => exact awake_bytes s
        | some woken => exact (bytes_wakeTask _ _).trans (awake_bytes s)
      rw [same]
      exact (List.append_nil _).symm

/-! ## Runs -/

theorem Delivers.run {spawned : List TaskId}
    (run : Delivers stream (.start spawned) accepted handed s) :
    Reachable s ∧ Rests s ∧ accepted = handed ++ s.bytes stream := by
  induction run with
  | start => exact ⟨⟨spawned, .refl⟩, start_rests spawned, rfl⟩
  | @step accepted handed s₁ s₂ before event taken ih =>
      obtain ⟨⟨spawned', steps⟩, rests, balance⟩ := ih
      refine ⟨⟨spawned', steps.tail ⟨event, taken⟩⟩, rests.step taken, ?_⟩
      rw [balance, List.append_assoc, ← step_bytes rests taken, List.append_assoc]

/-- When the CPU has halted, no byte waits. -/
theorem Inv.halted_empty (inv : Inv s) (rests : Rests s) (halted : s.pc = .halted)
    (stream : Stream) :
    s.bytes stream = [] := by
  cases pending : s.pending stream with
  | false =>
      have none : s.queue stream = none :=
        (rests.made stream pending).resolve_right (by simp [halted])
      rw [State.bytes, none]
      rfl
  | true =>
      by_contra waiting
      have queued := inv.queued stream pending waiting
      rw [rests.idle (.inr halted)] at queued
      cases queued

/-- In every run, the task has been given the bytes that its queue has accepted but for those
    that wait there, each one once and in order. When the CPU has halted, none waits. -/
theorem input_delivered {spawned : List TaskId}
    (run : Delivers stream (.start spawned) accepted handed s) :
    accepted = handed ++ s.bytes stream ∧ (s.pc = .halted → handed = accepted) := by
  obtain ⟨reached, rests, balance⟩ := run.run
  refine ⟨balance, fun halted => ?_⟩
  have inv := reached.kept.resolve_left (by simp [halted])
  have empty := inv.halted_empty rests halted stream
  rw [balance, empty, List.append_nil]

/-- A list of events, where each can happen, with the bytes that come in and go out. -/
def convey (stream : Stream) (s : State) : List Event → Option (List UInt8 × List UInt8 × State)
  | [] => some ([], [], s)
  | event :: events => do
      let s' ← step s event
      let (accepted, handed, last) ← convey stream s' events
      some (acceptedBy s stream event ++ accepted, handedBy s stream event ++ handed, last)

theorem Delivers.convey {events : List Event} {more got : List UInt8}
    (run : Delivers stream s₀ accepted handed s)
    (conveyed : convey stream s events = some (more, got, s')) :
    Delivers stream s₀ (accepted ++ more) (handed ++ got) s' := by
  induction events generalizing s accepted handed more got with
  | nil =>
      cases conveyed
      rw [List.append_nil, List.append_nil]
      exact run
  | cons event events ih =>
      obtain ⟨s₁, taken, rest⟩ := Option.bind_eq_some_iff.mp conveyed
      obtain ⟨⟨more', got', last⟩, conveyed', same⟩ := Option.bind_eq_some_iff.mp rest
      cases same
      rw [← List.append_assoc, ← List.append_assoc]
      exact ih (run.step event taken) conveyed'

/-- A key is pressed while the CPU has halted; the task gets it, and the CPU halts again. -/
theorem input_delivered_key : ∃ s, Delivers .keyboard (.start [.stream .keyboard]) [0x1E] [0x1E] s ∧
    s.pc = .halted ∧
    [0x1E] = [0x1E] ++ s.bytes .keyboard := by
  obtain ⟨s, conveyed, halted⟩ : ∃ s, convey .keyboard (.start [.stream .keyboard])
      (List.replicate 9 .executor ++ .input .keyboard 0x1E :: List.replicate 9 .executor) = some ([0x1E], [0x1E],
        s) ∧ s.pc = .halted :=
    ⟨_, rfl, rfl⟩
  have run : Delivers .keyboard (.start [.stream .keyboard]) [0x1E] [0x1E] s :=
    Delivers.start.convey conveyed
  exact ⟨s, run, halted, (input_delivered run).1⟩

end FerriOS.Task
