import FerriOS.Kernel.Steps

/-! # Runs

The boot code establishes the invariant, so it holds in every state of every run.
A property that the boot states have and every action keeps holds there as well.
-/

namespace FerriOS.System

open FerriOS.Lib FerriOS.Memory FerriOS.Loader

variable {cfg : Config} {m m' : Machine} {k k' : Kernel} {t i : Nat} {p : Process}

/-- A thread of the boot code that waits for the scheduler. -/
def Waiting (thread : Thread) : Prop :=
  thread.state = .runnable ∧
    (thread.context.rip = .kthreadEntry ∨
      (thread.context.rip = .initProcessRing3EntryTrampoline ∧ thread.pid ≠ none))

/-- What the boot code keeps up. -/
structure Booted (k : Kernel) : Prop where
  coherent : Coherent k
  separate : Separate kernelLaw NPROCESS k.roots k.mem
  current : k.cpu.currentTid = none
  threads : ∀ t, k.threadTable t = .new ∨ Waiting (k.threadTable t)
  first : ∀ i p, k.processTable i = some p → p.state = .alive ∧ p.ppid = none

theorem Booted.waiting (booted : Booted k) (ready : (k.threadTable t).Ready) :
    Waiting (k.threadTable t) := by
  rcases booted.threads t with blank | waiting
  · rw [blank] at ready
    rcases ready with is | is <;> cases is
  · exact waiting

theorem Booted.kept (booted : Booted k) : Kept cfg (.start k) := by
  refine ⟨booted.coherent, booted.separate, fun t here => ?_, fun t running => ?_,
    fun t c r ready wait => ?_,
    fun t ready user => ?_, by simp [Machine.start]⟩
  · cases here.symm.trans booted.current
  · cases running.symm.trans (booted.waiting (.inr running)).1
  · rw [Machine.continuation] at wait
    rcases (booted.waiting ready).2 with rip | ⟨rip, -⟩ <;> simp [Machine.start, rip] at wait
  · rw [Machine.continuation] at user
    rcases (booted.waiting ready).2 with rip | ⟨rip, pid⟩
    · simp [Machine.start, rip] at user
    · exact pid

theorem Booted.initial {mem : MemState} {rsp0 : Nat} (memory : BootMemory mem) :
    Booted (.initial mem rsp0) where
  coherent := ⟨(fun _ _ entry => nomatch entry), (fun _ _ entry => nomatch entry),
    (fun _ _ pid => nomatch pid)⟩
  separate := by
    have empty : spaces NPROCESS (Kernel.initial mem rsp0).roots mem.ram = 0 :=
      Finset.sum_eq_zero fun i _ => spaceAt_none rfl
    refine ⟨?_, fun i _ f here => nomatch here⟩
    have available : mem.available = (mem.frameAllocator.untouched : Multiset PhysFrame) := by
      rw [MemState.available, BootInfoFrameAllocator.available, memory.recycled, List.nil_append]
    have mem' : (Kernel.initial mem rsp0).mem = mem := rfl
    rw [ledger, mem', empty, zero_add, available, Multiset.coe_nodup]
    exact (usableOf_nodup memory.map).sublist (List.drop_sublist _ _)
  current := rfl
  threads _ := .inl rfl
  first _ _ entry := nomatch entry

theorem Booted.update {thread : Thread} (booted : Booted k) (waiting : Waiting thread)
    (threads : k'.threadTable = Function.update k.threadTable t thread) (u : Nat) :
    k'.threadTable u = .new ∨ Waiting (k'.threadTable u) := by
  by_cases here : u = t
  · subst here
    rw [threads, Function.update_self]
    exact .inr waiting
  · rw [threads, Function.update_of_ne here]
    exact booted.threads u

/-- The kernel thread that `create_kernel_thread` makes of the slot `thread`. -/
def kernelThread (kstack tid : Nat) (thread : Thread) : Thread :=
  { thread with
    tid := tid
    state := .runnable
    kstack := kstack + STACK_SIZE
    tf := some (kstack + STACK_SIZE - TRAP_FRAME_SIZE)
    context := { thread.context with rsp := kstack + STACK_SIZE, rip := .kthreadEntry, rflags := 0x200 } }

/-- A kernel thread comes into a slot that was free. -/
theorem createKernelThread_ok {kstack : Nat} (created : createKernelThread kstack k = .ok () k') :
    ∃ tid, k.freeTid = some tid ∧ k'.processTable = k.processTable ∧
      k'.threadTable = Function.update k.threadTable tid
        (kernelThread kstack tid (k.threadTable tid)) ∧
      k'.mem = k.mem ∧ k'.cpu = k.cpu ∧ k'.kernelStacks = kstack :: k.kernelStacks ∧
        kstack ≠ 0 := by
  rw [createKernelThread, nextTid] at created
  simp only [Prog.get_bind, Prog.pure_bind, Prog.bind_assoc] at created
  cases free : k.freeTid with
  | none =>
      rw [Kernel.freeTid] at free
      simp [free, Prog.expect] at created
  | some tid =>
      obtain ⟨inside, -⟩ := freeTid_spec free
      rw [Kernel.freeTid] at free
      simp only [free, Prog.expect_some, Prog.pure_bind, Prog.bind_ok (threadAt_run inside),
        setupKstack] at created
      split at created
      case isTrue => simp at created
      case isFalse stack =>
        simp only [Prog.modify_bind, Prog.bind_assoc, Prog.pure_bind, putThread_run inside, Outcome.ok.injEq,
          true_and] at created
        subst created
        exact ⟨tid, rfl, rfl, rfl, rfl, rfl, rfl, stack⟩

/-- A thread for the kernel. -/
theorem Booted.kernelThread {kstack : Nat} (booted : Booted k)
    (created : createKernelThread kstack k = .ok () k') :
    Booted k' := by
  obtain ⟨tid, free, processes, threads, mem, cpu, -⟩ := createKernelThread_ok created
  obtain ⟨inside, unused⟩ := freeTid_spec free
  have blank : k.threadTable tid = .new := (booted.threads tid).resolve_right fun waiting => by
    cases unused.symm.trans waiting.1
  rw [blank] at threads
  refine ⟨(booted.coherent.thread (System.kernelThread kstack tid .new) unused
    (fun _ => rfl)).congr processes threads, ?_,
    by rw [cpu, booted.current],
      booted.update (t := tid) ⟨rfl, .inl rfl⟩ threads, by rw [processes]; exact booted.first⟩
  rw [roots_congr processes, mem]
  exact booted.separate

theorem markThreadsAsRunnable_run (threads : p.threads = [t]) (bound : t < NTHREAD) :
    markThreadsAsRunnable p k = .ok ()
      (k.setThread t { k.threadTable t with state := .runnable }) := by
  rw [markThreadsAsRunnable, threads]
  simp only [Prog.each, not_lt.mpr bound.le, if_false]
  rw [Prog.bind_run, Prog.bind_ok (threadAt_run bound), putThread_run bound]
  rfl

/-- The thread that starts a program. -/
def startThread (kstack pid tid : Nat) (prepared : Exec) : Thread :=
  { embryo kstack pid tid with
    state := .runnable, context := startContext (embryo kstack pid tid).context prepared }

/-- The process that runs a program. -/
def startProcess (pid tid : Nat) (prepared : Exec) : Process :=
  { newProcess pid tid with pageTable := some prepared.pageTable, heapSize := prepared.heapSize }

/-- A process is created in slots that were free. -/
theorem createUserProcessFromPath_run {kstack pid tid : Nat} {path image : List UInt8}
    {prepared : Exec}
    {mem' : MemState} (found : cfg.lookup path = some image)
    (built : prepareExecImage cfg.mapper image [] k.mem = .ok prepared mem') (stack : kstack ≠ 0)
    (free : k.freePid = some pid) (freeT : k.freeTid = some tid) :
    ∃ k', createUserProcessFromPath cfg kstack path k = .ok () k' ∧
      k'.processTable = Function.update k.processTable pid (some (startProcess pid tid prepared)) ∧
      k'.threadTable = Function.update k.threadTable tid (startThread kstack pid tid prepared) ∧
      k'.mem = mem' ∧ k'.cpu = k.cpu ∧ k'.kernelStacks = kstack :: k.kernelStacks := by
  have free' : (k.setMem mem').freePid = some pid := free
  have freeT' : (k.setMem mem').freeTid = some tid := freeT
  obtain ⟨insideTid, -⟩ := freeTid_spec freeT
  have boundPid : pid < NPROCESS := freePid_inside free
  rw [createUserProcessFromPath]
  simp only [found, Prog.okOr_some, Prog.pure_bind]
  rw [Prog.bind_ok (onMem_ok built), Prog.bind_run, allocProc_run stack]
  simp only [free', freeT', firstThread, newProcess, List.head?_cons, Prog.expect_some,
    Prog.pure_bind,
    Prog.bind_ok (threadAt_run insideTid), Prog.bind_ok (putThread_run insideTid _),
    Kernel.withEmbryo, Kernel.setThread_at, embryo, Prog.okOr_some, Prog.modify_bind,
    addToProcessTable, not_le.mpr boundPid, if_false, Prog.bind_ok (putProcess_run boundPid _)]
  rw [markThreadsAsRunnable_run rfl insideTid]
  refine ⟨_, rfl, rfl, ?_, rfl, rfl, rfl⟩
  simp only [Kernel.setThread, Kernel.setProcess, Kernel.setTrapFrame, Kernel.setMem,
    Function.update_self, Function.update_idem, startThread, startContext, embryo]

/-- A process that was created has its own slot, thread and address space. -/
theorem createUserProcessFromPath_ok {kstack : Nat} {path : List UInt8}
    (created : createUserProcessFromPath cfg kstack path k = .ok () k') :
    ∃ image prepared mem' pid tid, cfg.lookup path = some image ∧
      prepareExecImage cfg.mapper image [] k.mem = .ok prepared mem' ∧ k.freePid = some pid ∧
      k.freeTid = some tid ∧
      k'.processTable = Function.update k.processTable pid (some (startProcess pid tid prepared)) ∧
      k'.threadTable = Function.update k.threadTable tid (startThread kstack pid tid prepared) ∧
      k'.mem = mem' ∧ k'.cpu = k.cpu ∧ k'.kernelStacks = kstack :: k.kernelStacks ∧ kstack ≠ 0 := by
  have whole := created
  rw [createUserProcessFromPath] at created
  cases found : cfg.lookup path with
  | none => simp [found, Prog.okOr] at created
  | some image =>
    simp only [found, Prog.okOr_some, Prog.pure_bind] at created
    obtain ⟨prepared, k₁, run, created⟩ := Prog.bind_eq_ok.mp created
    rw [onMem, Prog.zoom] at run
    cases built : prepareExecImage cfg.mapper image [] k.mem with
    | err message mem' => simp [built] at run
    | panic message => simp [built] at run
    | ok r mem' =>
      simp only [built, Outcome.ok.injEq] at run
      obtain ⟨rfl, rfl⟩ := run
      by_cases null : kstack = 0
      · subst null
        obtain ⟨_, _, allocated, -⟩ := Prog.bind_eq_ok.mp created
        exact ((allocProc_null _).of_ok allocated).elim
      · cases free : k.freePid with
        | none =>
          have free' : (k.setMem mem').freePid = none := free
          rw [Prog.bind_run, allocProc_run null] at created
          simp [free'] at created
        | some pid =>
          cases freeT : k.freeTid with
          | none =>
            have free' : (k.setMem mem').freePid = some pid := free
            have freeT' : (k.setMem mem').freeTid = none := freeT
            rw [Prog.bind_run, allocProc_run null] at created
            simp [free', freeT'] at created
          | some tid =>
            obtain ⟨k₂, run, processes, threads, mem, cpu, stacked⟩ :=
              createUserProcessFromPath_run found built null free freeT
            obtain ⟨-, rfl⟩ := Outcome.ok.inj (run.symm.trans whole)
            exact ⟨image, r, mem', pid, tid, rfl, built, rfl, rfl, processes, threads, mem, cpu,
              stacked, null⟩

/-- A process for a program. -/
theorem Booted.userProcess {kstack : Nat} {path : List UInt8} (lower : cfg.LowerHalf)
    (booted : Booted k)
    (created : createUserProcessFromPath cfg kstack path k = .ok () k') : Booted k' := by
  obtain ⟨image, prepared, mem', pid, tid, found, built, free, freeT, processes, threads, mem, cpu,
    -⟩ :=
    createUserProcessFromPath_ok created
  obtain ⟨boundPid, vacant⟩ := freePid_spec free
  obtain ⟨boundTid, unused⟩ := freeTid_spec freeT
  obtain ⟨built, heap⟩ := (prepareExecImage_spec cfg.mapper [] (lower path image found).confined
    booted.separate.available_nodup).of_ok built
  refine ⟨?_, ?_, by rw [cpu, booted.current],
    booted.update ⟨rfl, .inr ⟨rfl, Option.some_ne_none _⟩⟩ threads, fun i p entry => ?_⟩
  · refine (booted.coherent.fork
      (startThread kstack pid tid prepared) vacant unused boundPid boundTid
      (q := startProcess pid tid prepared) rfl rfl (fun is => nomatch is)
        (Option.some_ne_none _) heap
      rfl rfl (Option.some_ne_none _) rfl).congr ?_ ?_
    · exact processes
    · exact threads
  · have roots : k'.roots = Function.update k.roots pid (some prepared.pageTable) :=
      (roots_congr (k := k.setProcess pid (some (startProcess pid tid prepared))) processes).trans
        (roots_setProcess ..)
    rw [roots, mem]
    exact booted.separate.build (freePid_inside free) built
  · rw [processes] at entry
    by_cases here : i = pid
    · subst here
      rw [Function.update_self, Option.some.injEq] at entry
      subst entry
      exact ⟨rfl, rfl⟩
    · rw [Function.update_of_ne here] at entry
      exact booted.first i p entry

/-- The boot code keeps what it has set up. -/
theorem Booted.create {creation : Creation} (lower : cfg.LowerHalf) (booted : Booted k) :
    (create cfg creation k).Sat True (fun _ => Booted) (fun _ _ => True) := by
  cases creation with
  | kernelThread kstack =>
      rw [System.create]
      cases created : createKernelThread kstack k with
      | ok _ k' => exact booted.kernelThread created
      | err message k' => trivial
      | panic message => trivial
  | userProcess kstack path =>
      rw [System.create]
      cases created : createUserProcessFromPath cfg kstack path k with
      | ok _ k' => exact booted.userProcess lower created
      | err message k' => trivial
      | panic message => trivial

theorem Boots.booted (lower : cfg.LowerHalf) (boots : Boots cfg m) :
    ∃ k, m = .start k ∧ Booted k := by
  obtain ⟨memory, created⟩ := boots
  refine ⟨_, rfl, Outcome.Sat.of_ok (K := True) (Q := fun _ => Booted)
    (E := fun _ _ => True) ?_ created⟩
  exact Outcome.Sat.each_keep Booted _ (fun _ _ k booted => booted.create lower) (.initial memory)

theorem Boots.inv (lower : cfg.LowerHalf) (boots : Boots cfg m) : m.Inv cfg := by
  obtain ⟨k, rfl, booted⟩ := boots.booted lower
  exact ⟨booted.kept, trivial⟩

theorem steps_lead (lower : cfg.LowerHalf) (inv : m.Inv cfg)
    (steps : Relation.ReflTransGen (Steps cfg) m m') :
    Leads cfg m m' := by
  induction steps with
  | refl => exact ⟨.refl, inv⟩
  | tail _ step ih =>
      obtain ⟨event, taken⟩ := step
      obtain ⟨run, inv'⟩ := step_leads lower ih.inv taken
      exact ⟨ih.run.trans run, inv'⟩

theorem Reachable.inv (lower : cfg.LowerHalf) (reached : Reachable cfg m) : m.Inv cfg := by
  obtain ⟨m₀, boots, steps⟩ := reached
  exact (steps_lead lower (boots.inv lower) steps).inv

theorem Run.keeps {I : Machine → Prop} (acts : ∀ m m', Acts cfg m m' → I m → I m')
    (run : Run cfg m m')
    (start : I m) : I m' := by
  induction run with
  | refl => exact start
  | tail _ action ih => exact acts _ _ action ih

theorem Reachable.always {I : Machine → Prop} (lower : cfg.LowerHalf)
    (boots : ∀ k, Booted k → I (.start k))
    (acts : ∀ m m', Acts cfg m m' → I m → I m') (reached : Reachable cfg m) : I m := by
  obtain ⟨m₀, boot, steps⟩ := reached
  have run := (steps_lead lower (boot.inv lower) steps).run
  obtain ⟨k, rfl, booted⟩ := boot.booted lower
  exact run.keeps acts (boots k booted)

theorem Reachable.step {event : Event} (reached : Reachable cfg m)
    (taken : step cfg m event = some m') :
    Reachable cfg m' := by
  obtain ⟨m₀, boots, steps⟩ := reached
  exact ⟨m₀, boots, steps.tail ⟨event, taken⟩⟩

end FerriOS.System
