import FerriOS.Kernel.Footprint
import FerriOS.Kernel.Plans

/-! # Trap frames and their stacks

A new kernel stack has room for a trap frame at its top. The registers that
`syscall_entry` pushes are two words short of one.
-/

namespace FerriOS.System

open FerriOS.Lib FerriOS.Memory FerriOS.Loader

variable {cfg : Config} {m m' : Machine} {k k' : Kernel} {t u : Nat}

/-- The whole trap frame of a thread lies in its kernel stack. -/
def Thread.FrameInside (thread : Thread) : Prop :=
  ∀ tf, thread.tf = some tf → thread.kstack - STACK_SIZE ≤ tf ∧ tf + TRAP_FRAME_SIZE ≤ thread.kstack

theorem Thread.FrameInside.new : Thread.FrameInside .new := fun _ none => nomatch none

/-- `setup_kstack` puts the trap frame below the top of the stack. -/
theorem Thread.FrameInside.setup {thread : Thread} (kstack : Nat)
    (top : thread.kstack = kstack + STACK_SIZE)
    (tf : thread.tf = some (kstack + STACK_SIZE - TRAP_FRAME_SIZE)) : thread.FrameInside := by
  intro frame is
  obtain rfl := Option.some.inj (tf.symm.trans is)
  rw [top]
  simp only [STACK_SIZE, STACK_PAGES, PAGE_SIZE, TRAP_FRAME_SIZE]
  omega

theorem Thread.FrameInside.keeps {a b : Thread} (inside : a.FrameInside) (keeps : a.Keeps b) :
    b.FrameInside := by
  intro tf is
  rw [keeps.kstack]
  exact inside tf (keeps.tf ▸ is)

/-- The registers that a system call pushes end at the top of the stack, and a
    trap frame over them does not. -/
theorem setTrapframe_outside (top : m.kernel.cpu.kernelSyscallRsp = (m.kernel.threadTable t).kstack) :
    ¬ ((Machine.setTrapframe m.kernel t).threadTable t).FrameInside := by
  intro inside
  rw [Machine.setTrapframe, Kernel.setThread_at] at inside
  obtain ⟨-, above⟩ := inside _ rfl
  simp only [Machine.entryFrame, top, TRAP_FRAME_SIZE] at above
  omega

/-- The step is no system call, or a call of a killed process, which does not come to
    `set_trapframe`. -/
def NoSyscall (m : Machine) : Event → Prop
  | .call _ _ _ => ∃ i p, m.kernel.currentPid = some i ∧ m.kernel.processTable i = some p ∧
      p.killed = true
  | _ => True

/-- A round of `wait` leaves trap frames where they are, or clears a slot. -/
theorem Body.wait_inside (body : Body cfg t .wait k k') (inside : (k.threadTable u).FrameInside) :
    (k'.threadTable u).FrameInside := by
  cases body with
  | same => exact inside
  | mem => exact inside
  | @reap _ i j z tid mem' caller found owns zombie other =>
      by_cases here : u = tid
      · subst here
        rw [Kernel.released_at]
        exact .new
      · rwa [Kernel.released_ne _ _ _ here]

/-- Steps that are no system calls leave the trap frames in their stacks. -/
theorem Shape.frame_inside {event : Event} (shape : Shape cfg m m' event)
    (quiet : NoSyscall m event)
    (inside : (m.kernel.threadTable u).FrameInside) : (m'.kernel.threadTable u).FrameInside := by
  cases shape with
  | idle kernel pc pc' => rwa [kernel]
  | switch here found switched pc => exact inside.keeps (switched.keeps u)
  | late here found switched touches away =>
      exact (inside.keeps (switched.keeps u)).keeps (touches.keeps u)
  | tick touches away => exact inside.keeps (touches.keeps u)
  | killed here serves killed touches away => exact inside.keeps (touches.keeps u)
  | proceed here body ends => exact (body.wait_inside inside).keeps (ends.keeps u)
  | call here serves spared body ends =>
      obtain ⟨i, p, pid, entry, killed⟩ := quiet
      obtain rfl := Option.some.inj (pid.symm.trans serves.toCurrent.currentPid_eq)
      obtain rfl := Option.some.inj (entry.symm.trans serves.entry)
      cases killed.symm.trans spared

/-- As long as no system call comes to `set_trapframe`, every trap frame lies in the
    kernel stack of its thread. -/
theorem trap_frames_inside (lower : cfg.LowerHalf) (run : RunsWhen cfg NoSyscall m) (t : Nat) :
    (m.kernel.threadTable t).FrameInside := by
  refine run.always (I := fun m => ∀ t, (m.kernel.threadTable t).FrameInside) lower
    (fun m boots => ?_)
    (fun m m' event inv quiet taken inside u =>
    (step_shape lower inv taken).frame_inside quiet (inside u)) t
  exact boots.threads .new (fun kstack tid => .setup kstack rfl rfl)
    (fun kstack pid tid prepared => .setup kstack rfl rfl) lower

theorem trap_frames_inside_booted :
    ∃ m, RunsWhen bareConfig NoSyscall m ∧ (m.kernel.threadTable 0).tf ≠ none ∧
    (m.kernel.threadTable 0).FrameInside := by
  obtain ⟨k, -, boots, shown⟩ := boots_bare 40 (by decide)
  have ready : ((Machine.start k).kernel.threadTable 0).Ready := .inl (shown.states 0)
  obtain ⟨p, -, -, -, owns⟩ := (shown.reached.inv bareConfig_lower).1.coherent.ready_alive
    (shown.owner 0 (by decide)) ready
  exact ⟨_, ⟨_, boots, .refl⟩, owns.tf, trap_frames_inside bareConfig_lower ⟨_, boots, .refl⟩ 0⟩

/-- After its first system call, the trap frame of a thread reaches over the end of its stack. -/
theorem getpid_frame_outside :
    ∃ m, Reachable bareConfig m ∧ m.pc = .user 0 ∧ ¬ (m.kernel.threadTable 0).FrameInside := by
  obtain ⟨m, shown⟩ := running_reached
  obtain ⟨user, -, -, -, -, -, p, serves, spared, -⟩ :=
    shown.running bareConfig_lower rfl (by decide)
  have calling := user.calling 0 .new
  have serves' := user.serves_calling 0 .new serves
  obtain ⟨kernel, pc, -, -⟩ := finish_run .getpid 0 (.value 0) serves'.toCurrent spared
  have reached := shown.call bareConfig_lower rfl (by decide) .getpid
  rw [Machine.dispatch, serves'.toCurrent.getpid_run] at reached
  refine ⟨_, reached, pc, ?_⟩
  have top : (m.syscallEntry 0 .new).kernel.cpu.kernelSyscallRsp = ((m.syscallEntry 0 .new).kernel.threadTable 0).kstack :=
    user.cpu.syscallStack
  intro inside
  change (((m.calling 0 0 .new).finish 0 .getpid 0
    (.value 0)).kernel.threadTable 0).FrameInside at inside
  rw [kernel] at inside
  exact setTrapframe_outside top inside

end FerriOS.System
