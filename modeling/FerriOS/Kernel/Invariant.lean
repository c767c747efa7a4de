import FerriOS.Kernel.Coherence

/-! # The invariant of the machine

What holds between any two steps: the tables agree, the address spaces are
separate, only the current thread is running, and a thread that waits inside a
system call has what it needs to return from it. `OnCpu` is what the scheduler
sets up for the thread it switches to.
-/

namespace FerriOS.System

open FerriOS.Lib FerriOS.Memory FerriOS.Loader

variable {cfg : Config} {m m' : Machine} {t i : Nat} {p : Process}

/-- The page tables of the process table. -/
def Kernel.roots (k : Kernel) (i : Nat) : Option PhysFrame := (k.processTable i).bind (·.pageTable)

/-- A system call that returns gives the caller its stack pointer back; a successful
    `exec` gives it the stack of the new image. -/
def RspRestored (cfg : Config) : Entry → Prop
  | .returned _ _ (.exec path argv) (.value _) _ exitRsp => ∃ image s prepared s',
      cfg.lookup path = some image ∧ prepareExecImage cfg.mapper image argv s = .ok prepared s' ∧
        exitRsp = prepared.userSp
  | .returned _ _ _ _ entryRsp exitRsp => exitRsp = entryRsp
  | _ => True

structure Kept (cfg : Config) (m : Machine) : Prop where
  coherent : Coherent m.kernel
  separate : Separate kernelLaw NPROCESS m.kernel.roots m.kernel.mem
  current : ∀ t, m.kernel.cpu.currentTid = some t → t < NTHREAD
  alone : ∀ t, (m.kernel.threadTable t).state = .running → m.kernel.cpu.currentTid = some t
  waits : ∀ t c r, (m.kernel.threadTable t).Ready → m.continuation t = .wait c r →
    (m.kernel.threadTable t).pid = some c.pid ∧ c.killed = false ∧
      (m.kernel.threadTable t).context.rsp3 = r
  users : ∀ t, (m.kernel.threadTable t).Ready → m.continuation t = .toUser →
    (m.kernel.threadTable t).pid ≠ none
  returns : ∀ e ∈ m.history, RspRestored cfg e

/-- Thread `t` is on the CPU, with the stacks and the page table it needs. -/
structure OnCpu (m : Machine) (t : Nat) : Prop where
  tid : m.kernel.cpu.currentTid = some t
  ready : (m.kernel.threadTable t).Ready
  syscallStack : m.kernel.cpu.kernelSyscallRsp = (m.kernel.threadTable t).kstack
  rsp0 : m.kernel.privilegeStack0 = (m.kernel.threadTable t).kstack - TRAP_FRAME_SIZE
  cr3 : ∀ i p, (m.kernel.threadTable t).pid = some i → m.kernel.processTable i = some p →
    p.pageTable = some m.kernel.mem.cr3

/-- The invariant. -/
def Machine.Inv (cfg : Config) (m : Machine) : Prop :=
  Kept cfg m ∧ match m.pc with
    | .kernel t => OnCpu m t ∧
        m.kernel.cpu.savedUserRsp = (m.kernel.threadTable t).context.rsp3
    | .user t => OnCpu m t ∧ (m.kernel.threadTable t).pid ≠ none ∧ m.continuation t = .toUser
    | .scheduler => True
    | .stopped _ => True

/-- The process of the thread on the CPU. -/
structure Serves (m : Machine) (t i : Nat) (p : Process) : Prop extends Current m.kernel t i p where
  alive : p.state = .alive
  whole : LiveEntry m.kernel i p
  owns : Owns m.kernel i p t
  table : p.pageTable = some m.kernel.mem.cr3

theorem OnCpu.serves (cpu : OnCpu m t) (kept : Kept cfg m)
    (user : (m.kernel.threadTable t).pid ≠ none) :
    ∃ i p, Serves m t i p := by
  obtain ⟨i, pid⟩ := Option.ne_none_iff_exists'.mp user
  obtain ⟨p, entry, alive, whole, owns⟩ := kept.coherent.ready_alive pid cpu.ready
  exact ⟨i, p, ⟨cpu.tid, owns.bound, pid, whole.inside, entry⟩, alive, whole, owns,
    cpu.cr3 i p pid entry⟩

theorem Serves.live (serves : Serves m t i p) : p.live = true :=
    Process.live_iff.mpr (.inl serves.alive)

theorem Serves.pid_eq (serves : Serves m t i p) : m.pid = i := by
  rw [Machine.pid, serves.toCurrent.currentPid_eq, Option.getD_some]

theorem Serves.root (serves : Serves m t i p) : m.kernel.roots i = some m.kernel.mem.cr3 := by
  rw [Kernel.roots, serves.entry, Option.bind_some, serves.table]

/-- A step that leaves the processes, their memory and the part of each thread as
    they are. -/
structure Quiet (m m' : Machine) : Prop where
  processes : m'.kernel.processTable = m.kernel.processTable
  ram : m'.kernel.mem.ram = m.kernel.mem.ram
  allocator : m'.kernel.mem.frameAllocator = m.kernel.mem.frameAllocator
  stacks' : m'.kernel.kernelStacks = m.kernel.kernelStacks
  roles : ∀ t, SameRole (m.kernel.threadTable t) (m'.kernel.threadTable t)
  history : ∃ new, m'.history = new ++ m.history ∧ ∀ e ∈ new, ∃ base, e = .gsAccess base

namespace Quiet

theorem refl : Quiet m m := ⟨rfl, rfl, rfl, rfl, fun _ => .refl, [], rfl, by simp⟩

theorem trans {m'' : Machine} (first : Quiet m m') (second : Quiet m' m'') : Quiet m m'' where
  processes := second.processes.trans first.processes
  ram := second.ram.trans first.ram
  allocator := second.allocator.trans first.allocator
  stacks' := second.stacks'.trans first.stacks'
  roles t := (first.roles t).trans (second.roles t)
  history := by
    obtain ⟨new, shape, only⟩ := first.history
    obtain ⟨new', shape', only'⟩ := second.history
    refine ⟨new' ++ new, by rw [shape', shape, List.append_assoc], fun e member => ?_⟩
    exact (List.mem_append.mp member).elim (only' e) (only e)

variable (quiet : Quiet m m')

include quiet

theorem coherent (coh : Coherent m.kernel) : Coherent m'.kernel :=
  coh.same (fun i => by rw [quiet.processes]; exact .refl) quiet.roles

theorem roots : m'.kernel.roots = m.kernel.roots := by
  funext i
  rw [Kernel.roots, Kernel.roots, quiet.processes]

theorem separate (sep : Separate kernelLaw NPROCESS m.kernel.roots m.kernel.mem) :
    Separate kernelLaw NPROCESS m'.kernel.roots m'.kernel.mem := by
  have available : m'.kernel.mem.available = m.kernel.mem.available := by
    rw [MemState.available, quiet.allocator, MemState.available]
  refine ⟨?_, fun i inside f here => ?_⟩
  · rw [ledger, quiet.ram, available, quiet.roots]
    exact sep.distinct
  · rw [quiet.ram]
    rw [quiet.roots] at here
    exact sep.slots i inside f here

theorem returns (old : ∀ e ∈ m.history, RspRestored cfg e) :
    ∀ e ∈ m'.history, RspRestored cfg e := by
  obtain ⟨new, shape, only⟩ := quiet.history
  intro e member
  rw [shape] at member
  rcases List.mem_append.mp member with here | before
  · obtain ⟨base, rfl⟩ := only e here
    trivial
  · exact old e before

end Quiet

section Pc

theorem Kept.congr (kept : Kept cfg m) (kernel : m'.kernel = m.kernel) (stack : m'.stack = m.stack)
    (history : m'.history = m.history) : Kept cfg m' := by
  obtain ⟨k, pc, interrupts, gs, st, h⟩ := m
  obtain ⟨k', pc', interrupts', gs', st', h'⟩ := m'
  simp only at kernel stack history
  subst kernel stack history
  exact ⟨kept.coherent, kept.separate, kept.current, kept.alone, kept.waits, kept.users,
    kept.returns⟩

theorem Kept.stop (kept : Kept cfg m) (message : String) : (m.stop message).Inv cfg :=
  ⟨kept.congr rfl rfl rfl, trivial⟩

theorem Kept.swapgs (kept : Kept cfg m) : Kept cfg m.swapgs := kept.congr rfl rfl rfl

theorem Quiet.stop (message : String) : Quiet m (m.stop message) :=
    ⟨rfl, rfl, rfl, rfl, fun _ => .refl, [], rfl, by simp⟩

theorem Quiet.swapgs : Quiet m m.swapgs := ⟨rfl, rfl, rfl, rfl, fun _ => .refl, [], rfl, by simp⟩

theorem Kept.record (kept : Kept cfg m) {e : Entry} (restored : RspRestored cfg e) :
    Kept cfg (m.record e) := by
  refine ⟨kept.coherent, kept.separate, kept.current, kept.alone, kept.waits, kept.users,
    fun e' member => ?_⟩
  rcases List.mem_cons.mp member with rfl | before
  · exact restored
  · exact kept.returns e' before

theorem Quiet.gsAccess (base : GsBase) : Quiet m (m.record (.gsAccess base)) :=
  ⟨rfl, rfl, rfl, rfl, fun _ => .refl, [.gsAccess base], rfl, fun _ member =>
    ⟨base, List.mem_singleton.mp member⟩⟩

/-- What a change may do to a thread: nothing, take it from the scheduler, or start
    it. The thread that runs may be started afresh. -/
inductive Suspended (m m' : Machine) (u : Nat) : Prop where
  | same (thread : m'.kernel.threadTable u = m.kernel.threadTable u)
      (stack : m'.stack u = m.stack u)
  | gone (idle : ¬ (m'.kernel.threadTable u).Ready)
  | fresh (alone : (m'.kernel.threadTable u).state = .running → m.kernel.cpu.currentTid = some u)
      (pid : (m'.kernel.threadTable u).pid ≠ none) (start : m'.continuation u = .toUser)

theorem continuation_congr {u : Nat} (thread : m'.kernel.threadTable u = m.kernel.threadTable u)
    (stack : m'.stack u = m.stack u) : m'.continuation u = m.continuation u := by
  rw [Machine.continuation, Machine.continuation, thread, stack]

/-- The current thread stays; the others are as they were, gone, or new. -/
theorem Kept.change (kept : Kept cfg m) (coherent : Coherent m'.kernel)
    (separate : Separate kernelLaw NPROCESS m'.kernel.roots m'.kernel.mem)
    (returns : ∀ e ∈ m'.history, RspRestored cfg e)
    (current : m'.kernel.cpu.currentTid = m.kernel.cpu.currentTid)
    (threads : ∀ u, Suspended m m' u) :
    Kept cfg m' := by
  refine ⟨coherent, separate, fun u here => kept.current u (current ▸ here), fun u running => ?_,
    fun u c r ready waiting => ?_, fun u ready user => ?_, returns⟩
  · rw [current]
    rcases threads u with ⟨thread, _⟩ | idle | ⟨alone, _, _⟩
    · exact kept.alone u (thread ▸ running)
    · exact absurd (.inr running) idle
    · exact alone running
  · rcases threads u with ⟨thread, stack⟩ | idle | ⟨_, _, start⟩
    · rw [continuation_congr thread stack] at waiting
      rw [thread] at ready ⊢
      exact kept.waits u c r ready waiting
    · exact absurd ready idle
    · cases start.symm.trans waiting
  · rcases threads u with ⟨thread, stack⟩ | idle | ⟨_, pid, _⟩
    · rw [continuation_congr thread stack] at user
      rw [thread] at ready ⊢
      exact kept.users u ready user
    · exact absurd ready idle
    · exact pid

end Pc

/-- The context of one thread was saved. -/
theorem Kept.saved {thread : Thread} {cont : Cont} (kept : Kept cfg m) (quiet : Quiet m m')
    (shape : m'.kernel.threadTable = Function.update m.kernel.threadTable t thread)
    (stack : m'.stack = Function.update m.stack t cont)
    (same : m'.kernel.cpu.currentTid = m.kernel.cpu.currentTid)
    (rip : thread.context.rip = .onYield ∨ thread.context.rip = .onSyscallYield)
    (alone : thread.state = .running → m.kernel.cpu.currentTid = some t)
    (waits : ∀ c r, thread.Ready → cont = .wait c r →
      thread.pid = some c.pid ∧ c.killed = false ∧ thread.context.rsp3 = r)
    (users : thread.Ready → cont = .toUser → thread.pid ≠ none) : Kept cfg m' := by
  have here : m'.kernel.threadTable t = thread := by rw [shape, Function.update_self]
  have others : ∀ {u}, u ≠ t → m'.kernel.threadTable u = m.kernel.threadTable u := fun other => by
    rw [shape, Function.update_of_ne other]
  have contHere : m'.continuation t = cont := by
    rw [Machine.continuation, here, stack, Function.update_self]
    rcases rip with rip | rip <;> rw [rip]
  have contOthers : ∀ {u}, u ≠ t → m'.continuation u = m.continuation u := fun other => by
    rw [Machine.continuation, Machine.continuation, others other, stack,
      Function.update_of_ne other]
  refine ⟨quiet.coherent kept.coherent, quiet.separate kept.separate, fun u current => ?_,
    fun u running => ?_, fun u c r ready waiting => ?_, fun u ready user => ?_,
      quiet.returns kept.returns⟩
  · exact kept.current u (same ▸ current)
  · rw [same]
    by_cases other : u = t
    · subst other
      exact alone (here ▸ running)
    · exact kept.alone u (others other ▸ running)
  · by_cases other : u = t
    · subst other
      rw [here] at ready ⊢
      exact waits c r ready (contHere.symm.trans waiting)
    · rw [others other] at ready ⊢
      exact kept.waits u c r ready ((contOthers other).symm.trans waiting)
  · by_cases other : u = t
    · subst other
      rw [here] at ready ⊢
      exact users ready (contHere.symm.trans user)
    · rw [others other] at ready ⊢
      exact kept.users u ready ((contOthers other).symm.trans user)

theorem Machine.toScheduler_inv (kept : Kept cfg m) : m.toScheduler.Inv cfg := by
  rw [Machine.toScheduler]
  split
  · exact ⟨kept.congr rfl rfl rfl, trivial⟩
  · exact kept.stop _

theorem Quiet.toScheduler : Quiet m m.toScheduler := by
  rw [Machine.toScheduler]
  split
  · exact ⟨rfl, rfl, rfl, rfl, fun _ => .refl, [], rfl, by simp⟩
  · exact .stop _

/-- What an interrupted thread may go on with. -/
def Interruptible (m : Machine) (t : Nat) (cont : Cont) : Prop :=
  (∀ c r, cont ≠ .wait c r) ∧ (cont = .toUser → (m.kernel.threadTable t).pid ≠ none)

/-- A yield of the timer handler. Without a current thread it returns where it was. -/
theorem onYield_spec (cont : Cont) (kept : Kept cfg m)
    (fits : ∀ t, m.kernel.cpu.currentTid = some t → Interruptible m t cont)
    (idle : m.kernel.cpu.currentTid = none → m.pc = .scheduler) :
    (m.onYield cont).Inv cfg ∧ Quiet m (m.onYield cont) := by
  have quiet₁ : Quiet m (m.setKernel (m.kernel.setCr3 m.kernel.kernelPageTableFrame)) :=
    ⟨rfl, rfl, rfl, rfl, fun _ => .refl, [], rfl, by simp⟩
  rw [Machine.onYield]
  cases current : m.kernel.cpu.currentTid with
  | none =>
      have kernel : (m.setKernel
        (m.kernel.setCr3 m.kernel.kernelPageTableFrame)).kernel.cpu.currentTid = none :=
        current
      simp only [kernel]
      refine ⟨⟨⟨quiet₁.coherent kept.coherent, quiet₁.separate kept.separate, kept.current,
        kept.alone,
        kept.waits, kept.users, kept.returns⟩, ?_⟩, quiet₁⟩
      have pc : (m.setKernel (m.kernel.setCr3 m.kernel.kernelPageTableFrame)).pc = .scheduler :=
        idle current
      rw [pc]
      trivial
  | some t =>
      have kernel : (m.setKernel
        (m.kernel.setCr3 m.kernel.kernelPageTableFrame)).kernel.cpu.currentTid = some t :=
        current
      simp only [kernel]
      split
      case isTrue => exact ⟨Kept.stop
        (⟨quiet₁.coherent kept.coherent, quiet₁.separate kept.separate,
          kept.current, kept.alone, kept.waits, kept.users, kept.returns⟩ : Kept cfg _) _,
            quiet₁.trans (.stop _)⟩
      case isFalse stays =>
        have running : (m.kernel.threadTable t).state = .running := not_not.mp stays
        set thread : Thread := { m.kernel.threadTable t with
          state := .runnable, context := { (m.kernel.threadTable t).context with rip := .onYield } }
        have role : SameRole (m.kernel.threadTable t) thread :=
          ⟨rfl, id, .inr ⟨.inr running, .inl rfl⟩⟩
        set m₁ := Machine.save _ t .onYield cont
        have shape : m₁.kernel.threadTable = Function.update m.kernel.threadTable t thread := by
          simp only [m₁, Machine.save, Machine.setKernel, setState, Kernel.setThread,
            Function.update_self,
            Function.update_idem, thread, Kernel.setCr3, Kernel.setMem]
        have quiet : Quiet m m₁ := ⟨rfl, rfl, rfl, rfl, fun u => by
          rw [shape]; exact SameRole.update role u, [], rfl, by simp⟩
        obtain ⟨noWait, user⟩ := fits t current
        refine ⟨Machine.toScheduler_inv
          (kept.saved quiet shape rfl rfl (.inl rfl) (fun _ => current)
          (fun c r _ waiting => absurd waiting (noWait c r)) fun _ => user),
            quiet.trans .toScheduler⟩

/-- A yield inside a system call. -/
theorem onSyscallYield_spec (cont : Cont) (kept : Kept cfg m)
    (current : m.kernel.cpu.currentTid = some t)
    (waits : ∀ c r, (m.kernel.threadTable t).Ready → cont = .wait c r →
      (m.kernel.threadTable t).pid = some c.pid ∧ c.killed = false ∧ m.kernel.cpu.savedUserRsp = r)
    (noUser : cont ≠ .toUser) :
    (m.onSyscallYield cont).Inv cfg ∧ Quiet m (m.onSyscallYield cont) := by
  have kernel : (m.setKernel (m.kernel.setCr3 m.kernel.kernelPageTableFrame)).kernel.cpu.currentTid = some t :=
    current
  rw [Machine.onSyscallYield]
  simp only [kernel]
  set thread : Thread := { m.kernel.threadTable t with
    context := { (m.kernel.threadTable t).context with
      rip := .onSyscallYield, rsp3 := m.kernel.cpu.savedUserRsp } }
  have role : SameRole (m.kernel.threadTable t) thread := ⟨rfl, id, .inl rfl⟩
  set m₁ := Machine.save _ t .onSyscallYield cont
  have shape : m₁.kernel.threadTable = Function.update m.kernel.threadTable t thread := by
    simp only [m₁, Machine.save, Machine.setKernel, Kernel.setThread, Function.update_self,
      Function.update_idem, thread, Kernel.setCr3, Kernel.setMem]
  have quiet : Quiet m m₁ := ⟨rfl, rfl, rfl, rfl, fun u => by
    rw [shape]; exact SameRole.update role u, [], rfl, by simp⟩
  have saved : Kept cfg m₁ := kept.saved quiet shape rfl rfl (.inr rfl) (fun _ => current) waits
    fun _ user => absurd user noUser
  exact ⟨Machine.toScheduler_inv saved.swapgs, (quiet.trans .swapgs).trans .toScheduler⟩

end FerriOS.System
