import FerriOS.Task.Delivery

/-! # The executor comes to rest

The executor does not spin. Each of its operations uses up some of the work that the tasks,
the bytes and its own place stand for, and an interrupt adds a bounded amount.
-/

namespace FerriOS.Task

variable {s s' : State} {stream : Stream} {event : Event} {spawned : List TaskId}
  {events : List Event}

/-! ## The work that is left -/

/-- The work of the place where the executor is. Behind a queue that was empty it goes to
    halt, where a task in the queue brings it back to `ready`. -/
def Pc.work (idle : Bool) : Pc → Nat
  | .ready => 4
  | .poll _ .init => 8
  | .poll _ .pop => 7
  | .poll _ .register => 6
  | .poll _ .popAgain => 5
  | .poll _ .take => 8
  | .sleep => if idle then 3 else 6
  | .test => if idle then 2 else 5
  | .halt => 1
  | .halted => 0
  | .stopped => 0

/-- The bytes that wait in the two queues. -/
def State.waiting (s : State) : Nat := (s.bytes .keyboard).length + (s.bytes .serial).length

/-- A task in the queue is a poll, and a byte is at most four operations. -/
def State.work (s : State) : Nat :=
  s.pc.work s.taskQueue.isEmpty + 5 * s.taskQueue.length + 4 * s.waiting

/-- An interrupt adds at most a task, a byte, and the way back to `ready`. -/
def INTERRUPT_WORK : Nat := 16

def Event.isExecutor : Event → Bool
  | .executor => true
  | .input _ _ => false
  | .interrupt _ => false

theorem waiting_setQueue (s : State) (stream : Stream) (bytes : List UInt8) :
    (s.setQueue stream bytes).waiting + (s.bytes stream).length = s.waiting + bytes.length := by
  rw [State.waiting, State.waiting, bytes_setQueue, bytes_setQueue]
  cases stream with
  | keyboard =>
      rw [if_pos rfl, if_neg (by decide)]
      omega
  | serial =>
      rw [if_pos rfl, if_neg (by decide)]
      omega

theorem work_lt (tasks : s'.taskQueue = s.taskQueue)
    (less : s'.pc.work s.taskQueue.isEmpty + 4 * s'.waiting < s.pc.work s.taskQueue.isEmpty + 4 * s.waiting) :
    s'.work < s.work := by
  rw [State.work, State.work, tasks]
  omega

/-! ## One step -/

/-- Each operation of a poll uses up work. -/
theorem pollNext_work {stage : Stage} (here : s.pc = .poll stream stage) :
    (s.pollNext stream stage).work < s.work := by
  cases stage with
  | init =>
      have waiting := waiting_setQueue s stream []
      refine work_lt rfl ?_
      rw [here]
      change 7 + 4 * (s.setQueue stream []).waiting < 8 + 4 * s.waiting
      rw [List.length_nil] at waiting
      omega
  | pop =>
      rw [State.pollNext]
      split
      case h_1 byte rest bytes =>
        have waiting := waiting_setQueue s stream rest
        rw [bytes, List.length_cons] at waiting
        refine work_lt rfl ?_
        change s.pc.work _ + _ < _
        omega
      case h_2 =>
        refine work_lt rfl ?_
        rw [here]
        exact Nat.add_lt_add_right (by decide : 6 < 7) _
  | register =>
      refine work_lt rfl ?_
      rw [here]
      exact Nat.add_lt_add_right (by decide : 5 < 6) _
  | popAgain =>
      rw [State.pollNext]
      split
      case h_1 byte rest bytes =>
        have waiting := waiting_setQueue s stream rest
        rw [bytes, List.length_cons] at waiting
        refine work_lt rfl ?_
        rw [here]
        change 8 + 4 * (s.setQueue stream rest).waiting < 5 + 4 * s.waiting
        omega
      case h_2 =>
        refine work_lt rfl ?_
        rw [here]
        exact Nat.add_lt_add_right (by decide : 4 < 5) _
  | take =>
      refine work_lt rfl ?_
      rw [here]
      exact Nat.add_lt_add_right (by decide : 7 < 8) _

theorem pollNext_runs {stage : Stage} (here : s.pc = .poll stream stage) :
    (s.pollNext stream stage).pc ≠ .stopped := by
  cases stage with
  | init => exact Pc.noConfusion
  | register => exact Pc.noConfusion
  | take => exact Pc.noConfusion
  | pop =>
      rw [State.pollNext]
      split
      · change s.pc ≠ .stopped
        rw [here]
        exact Pc.noConfusion
      · exact Pc.noConfusion
  | popAgain =>
      rw [State.pollNext]
      split <;> exact Pc.noConfusion

/-- Each operation of the executor uses up work, and none stops it. -/
theorem executor_work (next : s.executor = some s') : s'.work < s.work ∧ s'.pc ≠ .stopped := by
  rw [State.executor] at next
  split at next
  case h_1 here =>
    split at next
    case h_1 none =>
      obtain rfl := Option.some.inj next
      refine ⟨work_lt rfl ?_, Pc.noConfusion⟩
      rw [here, none]
      exact Nat.add_lt_add_right (by decide : 3 < 4) _
    case h_2 n rest tasks =>
      obtain rfl := Option.some.inj next
      refine ⟨?_, by simp [here]⟩
      rw [State.work, State.work, here, tasks, List.length_cons]
      change 4 + 5 * rest.length + 4 * s.waiting < 4 + 5 * (rest.length + 1) + 4 * s.waiting
      omega
    case h_3 stream rest tasks =>
      obtain rfl := Option.some.inj next
      refine ⟨?_, Pc.noConfusion⟩
      rw [State.work, State.work, here, tasks, List.length_cons]
      have poll : Pc.work rest.isEmpty
        (.poll stream (if (s.queue stream).isNone then .init else .pop)) ≤ 8 := by
        split
        · exact le_rfl
        · exact Nat.le_succ 7
      change Pc.work rest.isEmpty (.poll stream (if (s.queue stream).isNone then .init else .pop)) +
        5 * rest.length + 4 * s.waiting < 4 + 5 * (rest.length + 1) + 4 * s.waiting
      omega
  case h_2 stream stage here =>
    obtain rfl := Option.some.inj next
    exact ⟨pollNext_work here, pollNext_runs here⟩
  case h_3 here =>
    obtain rfl := Option.some.inj next
    refine ⟨work_lt rfl ?_, Pc.noConfusion⟩
    rw [here]
    refine Nat.add_lt_add_right ?_ _
    change (if s.taskQueue.isEmpty then 2 else 5) < if s.taskQueue.isEmpty then 3 else 6
    split <;> decide
  case h_4 here =>
    obtain rfl := Option.some.inj next
    cases idle : s.taskQueue.isEmpty with
    | true =>
        refine ⟨work_lt rfl ?_, Pc.noConfusion⟩
        rw [here, idle]
        exact Nat.add_lt_add_right (by decide : 1 < 2) _
    | false =>
        refine ⟨work_lt rfl ?_, Pc.noConfusion⟩
        rw [here, idle]
        exact Nat.add_lt_add_right (by decide : 4 < 5) _
  case h_5 here =>
    obtain rfl := Option.some.inj next
    refine ⟨work_lt rfl ?_, Pc.noConfusion⟩
    rw [here]
    exact Nat.add_lt_add_right (by decide : 0 < 1) _
  case h_6 => cases next
  case h_7 => cases next

theorem work_stopped (s : State) : (s.goto .stopped).work ≤ s.work := by
  rw [State.work, State.work]
  change 0 + 5 * s.taskQueue.length + 4 * s.waiting ≤ _
  omega

/-- A task that is queued is a poll, and takes the executor back from its way to halt. -/
theorem wakeTask_work (s : State) (id : TaskId) : (s.wakeTask id).work ≤ s.work + 8 := by
  rw [State.wakeTask]
  split
  case isFalse => exact (work_stopped s).trans (Nat.le_add_right _ _)
  case isTrue =>
    have pc : s.pc.work (s.taskQueue ++ [id]).isEmpty ≤ s.pc.work s.taskQueue.isEmpty + 3 := by
      cases s.pc with
      | sleep => simp only [Pc.work]; split <;> split <;> decide
      | test => simp only [Pc.work]; split <;> split <;> decide
      | poll stream stage => cases stage <;> exact Nat.le_add_right _ _
      | _ => exact Nat.le_add_right _ _
    rw [State.work, State.work]
    change s.pc.work (s.taskQueue ++ [id]).isEmpty + 5 *
      (s.taskQueue ++ [id]).length + 4 * s.waiting ≤ _
    rw [List.length_append, List.length_singleton]
    omega

theorem awake_work (s : State) : s.awake.work ≤ s.work + 4 := by
  rw [State.awake]
  split
  case isTrue here =>
    rw [State.work, State.work, here]
    change 4 + 5 * s.taskQueue.length + 4 * s.waiting ≤ 0 + 5 * s.taskQueue.length + 4 * s.waiting + 4
    omega
  case isFalse => exact Nat.le_add_right _ _

theorem addByte_work (s : State) (stream : Stream) (byte : UInt8) :
    (s.addByte stream byte).work ≤ s.work + 12 := by
  rw [State.addByte.eq_def]
  cases made : s.queue stream with
  | none => exact Nat.le_add_right _ _
  | some bytes =>
      simp only
      split
      case isFalse =>
        cases stream with
        | keyboard => exact Nat.le_add_right _ _
        | serial => exact (work_stopped s).trans (Nat.le_add_right _ _)
      case isTrue =>
        have pushed : (s.setQueue stream (bytes ++ [byte])).work ≤ s.work + 4 := by
          have waiting := waiting_setQueue s stream (bytes ++ [byte])
          rw [State.bytes, made, Option.getD_some, List.length_append,
            List.length_singleton] at waiting
          rw [State.work, State.work]
          change s.pc.work s.taskQueue.isEmpty + 5 * s.taskQueue.length + _ ≤ _
          omega
        rw [State.wake]
        split
        · omega
        · exact (wakeTask_work _ _).trans (Nat.add_le_add_right pushed 8)

/-- An operation of the executor uses up work, and an interrupt adds a bounded amount. -/
theorem step_work (taken : step s event = some s') :
    s'.work + (if event.isExecutor then 1 else 0) ≤ s.work + if event.isExecutor then 0 else INTERRUPT_WORK := by
  cases event with
  | executor => exact (executor_work taken).1
  | input stream byte =>
      simp only [step, Option.ite_none_right_eq_some, Option.some.injEq] at taken
      obtain ⟨-, rfl⟩ := taken
      exact (addByte_work _ stream byte).trans (Nat.add_le_add_right (awake_work s) 12)
  | interrupt woken =>
      simp only [step, Option.ite_none_right_eq_some, Option.some.injEq] at taken
      obtain ⟨-, rfl⟩ := taken
      have awake := awake_work s
      cases woken with
      | none => exact awake.trans (Nat.add_le_add_left (by decide) _)
      | some woken =>
          have woke := wakeTask_work s.awake woken
          change (s.awake.wakeTask woken).work + 0 ≤ s.work + 16
          omega

/-! ## Runs -/

theorem play_work (played : play s events = some s') :
    events.countP (·.isExecutor) + s'.work ≤ s.work + INTERRUPT_WORK * events.countP
      (!·.isExecutor) := by
  induction events generalizing s with
  | nil =>
      obtain rfl := Option.some.inj played
      exact Nat.le_of_eq (Nat.zero_add _)
  | cons event events ih =>
      obtain ⟨s₁, taken, rest⟩ := Option.bind_eq_some_iff.mp played
      have first := step_work taken
      have later := ih rest
      rw [List.countP_cons, List.countP_cons, Nat.mul_add]
      cases kind : event.isExecutor with
      | true =>
          simp only [kind, if_true] at first ⊢
          simp only [Bool.not_true, Bool.false_eq_true, if_false]
          omega
      | false =>
          simp only [kind, Bool.false_eq_true, if_false] at first ⊢
          simp only [Bool.not_false, if_true]
          omega

theorem play_rests (rests : Rests s) (played : play s events = some s') : Rests s' := by
  induction events generalizing s with
  | nil => exact Option.some.inj played ▸ rests
  | cons event events ih =>
      obtain ⟨s₁, taken, rest⟩ := Option.bind_eq_some_iff.mp played
      exact ih (rests.step taken) rest

theorem executor_none (stuck : s.executor = none) : s.pc = .halted ∨ s.pc = .stopped := by
  rw [State.executor] at stuck
  split at stuck
  case h_1 => split at stuck <;> cases stuck
  case h_6 here => exact .inl here
  case h_7 here => exact .inr here
  all_goals cases stuck

theorem executor_halts (s : State) (running : s.pc ≠ .stopped) :
    ∃ n s', n + s'.work ≤ s.work ∧ play s (List.replicate n .executor) = some s' ∧
    s'.pc = .halted := by
  cases next : s.executor with
  | none => exact ⟨0, s, Nat.le_of_eq (Nat.zero_add _), rfl,
      (executor_none next).resolve_right running⟩
  | some s₁ =>
      obtain ⟨less, runs⟩ := executor_work next
      obtain ⟨n, s', spent, played, halted⟩ := executor_halts s₁ runs
      refine ⟨n + 1, s', by omega, ?_, halted⟩
      rw [List.replicate_succ]
      exact Option.bind_eq_some_iff.mpr ⟨s₁, next, played⟩
termination_by s.work

theorem play_append {more : List Event} {s₁ : State} (played : play s events = some s₁)
    (on : play s₁ more = some s') : play s (events ++ more) = some s' := by
  induction events generalizing s with
  | nil => exact Option.some.inj played ▸ on
  | cons event events ih =>
      obtain ⟨s₂, taken, rest⟩ := Option.bind_eq_some_iff.mp played
      exact Option.bind_eq_some_iff.mpr ⟨s₂, taken, ih rest⟩

/-- Whatever has happened, the executor, left alone, handles all bytes and halts, and over
    the whole run it has done no more than a fixed number of operations for each spawned task
    and each interrupt. -/
theorem executor_rests (played : play (.start spawned) events = some s)
    (running : s.pc ≠ .stopped) :
    ∃ n s', events.countP (·.isExecutor) + n ≤
        4 + 5 * spawned.length + INTERRUPT_WORK * events.countP (!·.isExecutor) ∧
      play s (List.replicate n .executor) = some s' ∧ s'.pc = .halted ∧ ∀ stream,
        s'.bytes stream = [] := by
  have spent : events.countP (·.isExecutor) + s.work ≤
    4 + 5 * spawned.length + INTERRUPT_WORK * events.countP (!·.isExecutor) := play_work played
  obtain ⟨n, s', left, alone, halted⟩ := executor_halts s running
  refine ⟨n, s', by omega, alone, halted, fun stream => ?_⟩
  have whole := play_append played alone
  have reached : Reachable s' := play_reachable ⟨spawned, .refl⟩ whole
  have inv := reached.kept.resolve_left (by simp [halted])
  exact inv.halted_empty (play_rests (start_rests spawned) whole) halted stream

/-- A key is pressed while the CPU has halted. -/
theorem executor_rests_key : ∃ s, play (.start [.stream .keyboard])
      (List.replicate 9 .executor ++ [.input .keyboard 0x1E]) = some s ∧
    ∃ n s', 9 + n ≤ 25 ∧ play s (List.replicate n .executor) = some s' ∧ s'.pc = .halted ∧
      ∀ stream, s'.bytes stream = [] := by
  obtain ⟨s, played, running⟩ : ∃ s, play (.start [.stream .keyboard])
      (List.replicate 9 .executor ++ [.input .keyboard 0x1E]) = some s ∧ s.pc = .ready :=
        ⟨_, rfl, rfl⟩
  exact ⟨s, played, executor_rests played (by simp [running])⟩

end FerriOS.Task
