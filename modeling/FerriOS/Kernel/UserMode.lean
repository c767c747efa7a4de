import FerriOS.Kernel.Plans
import FerriOS.Kernel.Footprint

/-! # User mode

What the CPU is set up for whenever a program runs, and what becomes of a program
whose process was killed: it runs for one more stretch at most, in which it can do
nothing but exit.
-/

namespace FerriOS.System

open FerriOS.Lib FerriOS.Memory FerriOS.Loader

variable {cfg : Config} {m m' m'' : Machine} {k k' : Kernel} {t u i j : Nat} {p q : Process}

/-- Thread `t` runs its program, with the stacks and the page table it needs. -/
structure RunsUser (m : Machine) (t : Nat) : Prop where
  tid : m.kernel.cpu.currentTid = some t
  syscallStack : m.kernel.cpu.kernelSyscallRsp = (m.kernel.threadTable t).kstack
  rsp0 : m.kernel.privilegeStack0 = (m.kernel.threadTable t).kstack - TRAP_FRAME_SIZE
  table : ∃ i p, (m.kernel.threadTable t).pid = some i ∧ m.kernel.processTable i = some p ∧
    p.pageTable = some m.kernel.mem.cr3

/-- In every state of a run, the CPU in user mode is set up for the thread it runs,
    and every system call so far gave its caller the right stack pointer. -/
theorem user_mode (lower : cfg.LowerHalf) (reached : Reachable cfg m) :
    (∀ t, m.pc = .user t → RunsUser m t) ∧ ∀ e ∈ m.history, RspRestored cfg e := by
  have inv := reached.inv lower
  refine ⟨fun t pc => ?_, inv.1.returns⟩
  have user := inv.user pc
  obtain ⟨i, p, serves⟩ := user.serves
  exact ⟨user.cpu.tid, user.cpu.syscallStack, user.cpu.rsp0, i, p, serves.pid, serves.entry,
    serves.table⟩

theorem user_mode_forked : ∃ m, Shows bareConfig m .forked ∧ RunsUser m 0 ∧
    ∀ e ∈ m.history, RspRestored bareConfig e := by
  obtain ⟨m, shown⟩ := forked_reached
  obtain ⟨runs, restored⟩ := user_mode bareConfig_lower shown.reached
  exact ⟨m, shown, runs 0 shown.pc, restored⟩

/-- The process was killed, but has not ended so far. -/
def Doomed (p : Process) : Prop := p.state = .alive ∧ p.killed = true

/-- The process has ended because it was killed; it may have been reaped since. -/
def Ended (p : Process) : Prop := (p.state = .zombie ∧ p.exitStatus = RET_ERROR) ∨ p.live = false

theorem Ended.not_alive (ended : Ended p) : p.state ≠ .alive := by
  rcases ended with ⟨zombie, -⟩ | dead
  · simp [zombie]
  · intro alive
    simp [Process.live, alive] at dead

/-- The process goes back to user mode, or makes a child. -/
def ActsOn (i : Nat) : Entry → Prop
  | .returned _ pid _ _ _ _ => pid = i
  | .forked parent _ => parent = i
  | _ => False

/-- A state of a process in which it does nothing but end, and what becomes of it. -/
structure Silent (S : Process → Prop) : Prop where
  killed : ∀ {p}, S p → p.state = .alive → p.killed = true
  exits : ∀ {p}, S p → S { p with state := .zombie, exitStatus := RET_ERROR }
  marked : ∀ {p}, S p → S { p with killed := true }
  blank : S .new

theorem Silent.ended : Silent Ended where
  killed ended alive := absurd alive ended.not_alive
  exits _ := .inl ⟨rfl, rfl⟩
  marked ended := ended
  blank := .inr rfl

theorem Silent.doomed : Silent fun p => Doomed p ∨ Ended p where
  killed state alive := state.elim And.right fun ended => absurd alive ended.not_alive
  exits _ := .inr (.inl ⟨rfl, rfl⟩)
  marked state := state.imp (fun ⟨alive, _⟩ => ⟨alive, rfl⟩) id
  blank := .inr (.inr rfl)

/-- Since a state with the history `old`, the process `i` did nothing but end. -/
structure Silenced (S : Process → Prop) (old : List Entry) (i : Nat) (m : Machine) : Prop where
  entry : ∃ p, m.kernel.processTable i = some p ∧ S p
  history : ∃ new, m.history = new ++ old ∧ ∀ e ∈ new, ¬ ActsOn i e

variable {S : Process → Prop} {old : List Entry}

theorem Silenced.killed (silent : Silent S) (silenced : Silenced S old i m)
    (serves : Serves m t i p) :
    p.killed = true := by
  obtain ⟨q, entry, state⟩ := silenced.entry
  obtain rfl := Option.some.inj (serves.entry.symm.trans entry)
  exact silent.killed state serves.alive

theorem Silenced.other (silent : Silent S) (silenced : Silenced S old i m) (serves : Serves m t j p)
    (spared : p.killed = false) : j ≠ i := by
  rintro rfl
  cases (silenced.killed silent serves).symm.trans spared

theorem Silenced.record {e : Entry} (m' : Machine) (silenced : Silenced S old i m)
    (entry : m'.kernel.processTable i = m.kernel.processTable i)
    (history : m'.history = e :: m.history) (other : ¬ ActsOn i e) : Silenced S old i m' where
  entry := by rw [entry]; exact silenced.entry
  history := by
    obtain ⟨new, shape, none⟩ := silenced.history
    refine ⟨e :: new, by rw [history, shape, List.cons_append], fun e' member => ?_⟩
    rcases List.mem_cons.mp member with rfl | before
    · exact other
    · exact none e' before

theorem Silenced.same (silenced : Silenced S old i m)
    (entry : m'.kernel.processTable i = m.kernel.processTable i)
    (history : m'.history = m.history) : Silenced S old i m' :=
  ⟨entry ▸ silenced.entry, history ▸ silenced.history⟩

theorem Silenced.acts (silent : Silent S) (acts : Acts cfg m m') (silenced : Silenced S old i m) :
    Silenced S old i m' := by
  obtain ⟨kept, action, -⟩ := acts
  obtain ⟨p₀, entry₀, state₀⟩ := silenced.entry
  cases action with
  | quiet quiet =>
      refine ⟨by rw [quiet.processes]; exact silenced.entry, ?_⟩
      obtain ⟨new, shape, none⟩ := silenced.history
      obtain ⟨new', shape', only⟩ := quiet.history
      refine ⟨new' ++ new, by rw [shape', shape, List.append_assoc], fun e member => ?_⟩
      rcases List.mem_append.mp member with here | before
      · obtain ⟨base, rfl⟩ := only e here
        exact id
      · exact none e before
  | returned serves spared _ =>
      exact silenced.record _ rfl rfl (silenced.other silent serves spared)
  | @exit t j p status serves notInit killed cause =>
      by_cases here : j = i
      · subst here
        obtain rfl := Option.some.inj (serves.entry.symm.trans entry₀)
        have marked := silent.killed state₀ serves.alive
        obtain rfl : status = RET_ERROR := by
          cases killed with
          | false => cases marked.symm.trans cause
          | true => exact cause.2
        exact ⟨⟨_, Function.update_self .., silent.exits state₀⟩,
          (silenced.record (m.record (.exited j RET_ERROR killed)) rfl rfl id).history⟩
      · exact silenced.record _ (Function.update_of_ne (Ne.symm here) ..) rfl id
  | fork serves spared free _ _ _ =>
      refine silenced.record _ (Function.update_of_ne ?_ ..) rfl
        (silenced.other silent serves spared)
      rintro rfl
      rw [(freePid_spec free).2] at entry₀
      cases entry₀
  | forkFails => exact silenced.same rfl rfl
  | exec serves spared _ _ _ _ =>
      exact silenced.same (Function.update_of_ne
        (Ne.symm (silenced.other silent serves spared)) ..) rfl
  | execFails => exact silenced.same rfl rfl
  | sbrk => exact silenced.same rfl rfl
  | @kill t i' p j q serves spared inside entry =>
      by_cases here : j = i
      · subst here
        obtain rfl := Option.some.inj (entry.symm.trans entry₀)
        exact ⟨⟨_, Function.update_self .., silent.marked state₀⟩, silenced.history⟩
      · exact silenced.same (Function.update_of_ne (Ne.symm here) ..) rfl
  | @reap t i' p j c tid f mem' serves found entry owns table freed =>
      obtain ⟨c', -, -, entry', -, -, place, -⟩ := serves.child kept found
      obtain rfl := Option.some.inj (entry.symm.trans entry')
      by_cases here : j = i
      · subst here
        refine ⟨⟨.new, ?_, silent.blank⟩, (silenced.record (m.record _) rfl rfl id).history⟩
        rw [← place]
        exact Function.update_self ..
      · refine silenced.record _ ?_ rfl id
        exact Function.update_of_ne (place ▸ Ne.symm here) ..

/-- From `m` to `m''` the process `i` exited, and nothing else happened to the
    processes, their threads, and the memory. -/
structure OnlyExits (m m'' : Machine) (t i : Nat) : Prop where
  entry : ∃ p, m''.kernel.processTable i = some p ∧ p.state = .zombie ∧ p.exitStatus = RET_ERROR
  processes : ∀ j ≠ i, m''.kernel.processTable j = m.kernel.processTable j
  threads : ∀ u ≠ t, m''.kernel.threadTable u = m.kernel.threadTable u
  ram : m''.kernel.mem.ram = m.kernel.mem.ram
  allocator : m''.kernel.mem.frameAllocator = m.kernel.mem.frameAllocator
  stacks' : m''.kernel.kernelStacks = m.kernel.kernelStacks

/-- A yield inside a system call changes the thread that yields only. -/
theorem onSyscallYield_threads (cont : Cont) (current : m.kernel.cpu.currentTid = some t) :
    (∀ u ≠ t, (m.onSyscallYield cont).kernel.threadTable u = m.kernel.threadTable u) ∧
      (m.onSyscallYield cont).continuation t = cont := by
  have kernel : (m.setKernel (m.kernel.setCr3 m.kernel.kernelPageTableFrame)).kernel.cpu.currentTid = some t :=
    current
  have stack : ∀ m : Machine, m.toScheduler.stack = m.stack := fun m => by
    rw [Machine.toScheduler]
    split <;> rfl
  rw [Machine.onSyscallYield]
  simp only [kernel]
  refine ⟨fun u other => ?_, ?_⟩
  · rw [toScheduler_kernel]
    exact (Kernel.setThread_ne _ other).trans (Kernel.setThread_ne _ other)
  · rw [Machine.continuation, toScheduler_kernel, stack]
    simp [Machine.save, Machine.swapgs, Machine.setKernel, Kernel.setThread]

theorem sysExit_only (kept : Kept cfg m) (serves : Serves m t i p) (notInit : i ≠ INIT_PID) :
    OnlyExits m (m.sysExit RET_ERROR true) t i := by
  rw [Machine.sysExit, exit_run serves.toCurrent notInit serves.owns.threads serves.whole.pid,
    serves.pid_eq]
  have kept' := kept.exit RET_ERROR true serves
  obtain ⟨-, quiet⟩ := onSyscallYield_spec .exited kept' serves.tid
    (fun c r _ is => by cases is) (fun is => by cases is)
  obtain ⟨threads, -⟩ := onSyscallYield_threads .exited
    (m := (m.setKernel (m.kernel.exited t i p RET_ERROR)).record
    (.exited i RET_ERROR true)) serves.tid
  refine ⟨⟨_, (congrFun quiet.processes i).trans (Function.update_self ..), rfl, rfl⟩,
    fun j other => ?_,
    fun u other => ?_, quiet.ram, quiet.allocator, quiet.stacks'⟩
  · exact (congrFun quiet.processes j).trans (Function.update_of_ne other ..)
  · exact (threads u other).trans (Kernel.setThread_ne _ other)

theorem InCall.finish_killed {what : Call} {entryRsp : Nat} {reply : Reply} (call : InCall cfg m t)
    (serves : Serves m t i p) (notInit : i ≠ INIT_PID) (killed : p.killed = true) :
    OnlyExits m (m.finish t what entryRsp reply) t i := by
  rw [Machine.finish, serves.toCurrent.unlessKilled_run rfl, if_pos killed]
  exact sysExit_only call.kept serves notInit

/-- What holds of the process `i` in `m'` when it was killed in a step from `m`. -/
structure TakesEffect (cfg : Config) (m m' : Machine) (i : Nat) : Prop where
  /-- It waits for its end or has ended, and has neither come back from a system
      call nor made a child. -/
  silenced : Silenced (fun p => Doomed p ∨ Ended p) m.history i m'
  /-- Where it runs its program, the next tick or call ends it; the call has no
      other effect. -/
  stretch : ∀ t, m'.pc = .user t → (m'.kernel.threadTable t).pid = some i → ∀ event m'',
    step cfg m' event = some m'' → OnlyExits m' m'' t i ∧
      ((event = .tick ∧ m'' = m'.sysExit RET_ERROR true) ∨
        ∃ rsp regs what, event = .call rsp regs what ∧
          m'' = (m'.syscallEntry rsp regs).sysExit RET_ERROR true)
  /-- A `wait` that goes on yields again or ends it. -/
  resumed : ∀ t c r m'', m'.pc = .kernel t → (m'.kernel.threadTable t).pid = some i →
    m'.continuation t = .wait c r → step cfg m' .proceed = some m'' →
      m''.continuation t = .wait c r ∨
        ∃ p, m''.kernel.processTable i = some p ∧ p.state = .zombie ∧ p.exitStatus = RET_ERROR
  /-- When it has ended, no thread of it is dispatched. -/
  never : ∀ p, m'.kernel.processTable i = some p → Ended p → ∀ t,
    (m'.kernel.threadTable t).pid = some i →
    (m'.kernel.threadTable t).state ≠ .runnable ∧ m'.pc ≠ .kernel t ∧ m'.pc ≠ .user t
  /-- The end is final. -/
  final : ∀ p m'', m'.kernel.processTable i = some p → Ended p →
    Relation.ReflTransGen (Steps cfg) m' m'' →
    ∃ q, m''.kernel.processTable i = some q ∧ Ended q

theorem Silenced.takesEffect (lower : cfg.LowerHalf) (inv : m'.Inv cfg) (notInit : i ≠ INIT_PID)
    (silenced : Silenced (fun p => Doomed p ∨ Ended p) m.history i m') :
    TakesEffect cfg m m' i := by
  refine ⟨silenced, fun t pc pid event m'' taken => ?_, fun t c r m'' pc pid cont taken => ?_,
    fun p entry ended t pid => ?_, fun p m'' entry ended later => ?_⟩
  · have user := inv.user pc
    obtain ⟨j, p, serves⟩ := user.serves
    obtain rfl : j = i := Option.some.inj (serves.pid.symm.trans pid)
    have killed := silenced.killed .doomed serves
    cases event with
    | schedule => simp [step, pc] at taken
    | lateTick => simp [step, pc] at taken
    | proceed => simp [step, pc] at taken
    | tick =>
        simp only [step, pc, Option.some.injEq] at taken
        have exits : m'.userTick = m'.sysExit RET_ERROR true := by
          rw [Machine.userTick, serves.toCurrent.unlessKilled_run rfl, if_pos killed]
        rw [← taken, exits]
        exact ⟨sysExit_only user.kept serves notInit, .inl ⟨rfl, rfl⟩⟩
    | call rsp regs what =>
        simp only [step, pc, Option.some.injEq] at taken
        have entered := user.entered rsp regs
        have serves' := user.serves_entered rsp regs serves
        have exits : m'.syscall cfg t rsp regs what = (m'.syscallEntry rsp regs).sysExit RET_ERROR true := by
          rw [Machine.syscall, serves'.toCurrent.unlessKilled_run rfl, if_pos killed]
        rw [← taken, exits]
        have only := sysExit_only entered.kept serves' notInit
        exact ⟨⟨only.entry, only.processes, only.threads, only.ram, only.allocator, only.stacks'⟩,
          .inr ⟨rsp, regs, what, rfl, rfl⟩⟩
  · obtain ⟨kept, rest⟩ := inv
    rw [pc] at rest
    obtain ⟨owner, spared, -⟩ := kept.waits t c r rest.1.ready cont
    have call : InCall cfg m'.swapgs t :=
      InCall.congr (m := m') ⟨kept, rest.1, by simp [pid], UserCode.of_wait cont⟩ rfl kept.swapgs
    obtain ⟨j, p, serves⟩ := call.serves
    obtain rfl : j = i := Option.some.inj (serves.pid.symm.trans pid)
    have killed := silenced.killed .doomed (serves.congr rfl)
    simp only [step, pc, Machine.proceed, cont, Option.some.injEq] at taken
    have copy : c.pid = j := Option.some.inj (owner.symm.trans pid)
    rcases call.waitLoop_cases (r := r) serves copy spared with
      ⟨-, -, ends⟩ | ⟨-, -, yields⟩ | ⟨_, z, tid, f, mem', -, -, -, -, -, -, reaped, serves', ends⟩
    · rw [← taken, ends]
      exact .inr (call.finish_killed serves notInit killed).entry
    · rw [← taken, yields]
      exact .inl (onSyscallYield_threads _ serves.tid).2
    · rw [← taken, ends]
      exact .inr (reaped.finish_killed serves' notInit killed).entry
  · have idle : ¬ (m'.kernel.threadTable t).Ready := fun ready => by
      obtain ⟨q, entry', alive, -⟩ := inv.1.coherent.ready_alive pid ready
      obtain rfl := Option.some.inj (entry.symm.trans entry')
      exact ended.not_alive alive
    refine ⟨fun is => idle (.inl is), fun pc => ?_, fun pc => idle (inv.user pc).cpu.ready⟩
    have rest := inv.2
    rw [pc] at rest
    exact idle rest.1.ready
  · have goes := steps_lead lower inv later
    exact (Run.keeps (fun _ _ acts => Silenced.acts .ended acts) goes.run
      (⟨⟨p, entry, ended⟩, [], rfl, by simp⟩ : Silenced Ended m'.history i m')).entry

/-- A `kill` that succeeds for a process that is alive and not `init` takes effect,
    in every run that goes on from it. -/
theorem kill_takes_effect {rsp : Nat} {regs : TrapFrame} {m₁ : Machine} (lower : cfg.LowerHalf)
    (reached : Reachable cfg m) (pc : m.pc = .user t)
    (caller : currentProcess m.kernel = .ok (some q) m.kernel)
    (spared : q.killed = false) (target : m.kernel.processTable i = some p)
    (alive : p.state = .alive)
    (notInit : i ≠ INIT_PID) (called : step cfg m (.call rsp regs (.kill i)) = some m₁)
    (later : Relation.ReflTransGen (Steps cfg) m₁ m') : TakesEffect cfg m m' i := by
  have user := (reached.inv lower).user pc
  obtain ⟨j, q', serves⟩ := user.serves
  have here := serves.toCurrent.currentProcess_run.symm.trans caller
  simp only [Outcome.ok.injEq, Option.some.injEq, and_true] at here
  subst here
  have calling := user.calling rsp regs
  have entered := user.entered rsp regs
  have serves₁ := user.serves_calling rsp regs serves
  have live : p.live = true := Process.live_iff.mpr (.inl alive)
  have run := kill_run calling.kept.coherent (i := i) (p := p) target live
  have marked := calling.inCall.mark (j := i) (q := p) target
  have body : m.syscall cfg t rsp regs (.kill i) = ((m.calling t rsp regs).setKernel
      ((m.calling t rsp regs).kernel.setProcess i (some { p with killed := true }))).finish t
        (.kill i) rsp
        (.value 0) := by
    rw [Machine.syscall, (user.serves_entered rsp regs serves).toCurrent.unlessKilled_run rfl,
      if_neg (by simp [spared])]
    change (m.calling t rsp regs).dispatch cfg t rsp (.kill i) = _
    rw [Machine.dispatch, Prog.bind_ok run]
    rfl
  simp only [step, pc, Option.some.injEq, body] at called
  subst called
  have silenced : Silenced (fun p => Doomed p ∨ Ended p) m.history i
    ((m.calling t rsp regs).setKernel
      ((m.calling t rsp regs).kernel.setProcess i (some { p with killed := true }))) := by
    refine ⟨⟨_, Function.update_self .., .inl ⟨alive, rfl⟩⟩, [_], rfl, fun e member => ?_⟩
    obtain rfl := List.mem_singleton.mp member
    exact id
  have ends : Leads cfg _ (((m.calling t rsp regs).setKernel
    ((m.calling t rsp regs).kernel.setProcess i
      (some { p with killed := true }))).finish t (.kill i) rsp (.value 0)) :=
        marked.finish fun _ => rfl
  have goes := steps_lead lower ends.inv later
  exact (Run.keeps (fun _ _ acts => Silenced.acts .doomed acts)
    (ends.run.trans goes.run) silenced).takesEffect
    lower goes.inv notInit

/-- A parent kills its child. -/
theorem kill_takes_effect_child : ∃ m m₁, Shows bareConfig m .forked ∧
    step bareConfig m (.call 0 .new (.kill 1)) = some m₁ ∧ TakesEffect bareConfig m m₁ 1 := by
  obtain ⟨m, shown⟩ := forked_reached
  obtain ⟨-, -, -, -, -, -, p, serves, spared, -⟩ := shown.running bareConfig_lower rfl (by decide)
  obtain ⟨c, entry⟩ := shown.entry_of (i := 1) (by decide)
  have alive : c.state = .alive := by
    have there := shown.members 1
    rw [entry] at there
    exact congrArg Member.state (Option.some.inj there)
  have called : step bareConfig m
    (.call 0 .new (.kill 1)) = some (m.syscall bareConfig 0 0 .new (.kill 1)) := by
    simp only [step, shown.pc, Scene.forked]
  exact ⟨m, _, shown, called, kill_takes_effect bareConfig_lower shown.reached shown.pc
    serves.toCurrent.currentProcess_run spared entry alive (by decide) called .refl⟩

end FerriOS.System
