import FerriOS.Kernel.Fairness
import FerriOS.Kernel.GsOrientation

/-! # A wait is answered

A parent that has yielded in `wait` keeps its thread, its kernel stack and its zombie child, as
long as others run. When it is chosen, it reaps.
-/

namespace FerriOS.System

open FerriOS.Lib FerriOS.Memory FerriOS.Loader

variable {cfg : Config} {m m' m'' : Machine} {k k' : Kernel} {t u i j r : Nat} {p z c : Process}
  {chosen : List Nat} {event : Event}

/-! ## Kernel stacks -/

/-- The stacks stay but for those of `u` and of the thread that is current in the end. -/
def StacksBut (u : Nat) (m m' : Machine) : Prop :=
  ∀ t ≠ u, m'.kernel.cpu.currentTid ≠ some t → m'.stack t = m.stack t

theorem toScheduler_stack (m : Machine) : m.toScheduler.stack = m.stack := by
  rw [Machine.toScheduler]
  split <;> rfl

theorem onYield_stack (cont : Cont) (idle : m.kernel.cpu.currentTid ≠ some t) :
    (m.onYield cont).stack t = m.stack t := by
  rw [Machine.onYield]
  cases current : (m.setKernel
    (m.kernel.setCr3 m.kernel.kernelPageTableFrame)).kernel.cpu.currentTid with
  | none => rfl
  | some v =>
      have other : t ≠ v := by
        rintro rfl
        exact idle current
      dsimp only
      split
      case isTrue => rfl
      case isFalse =>
        rw [toScheduler_stack]
        exact Function.update_of_ne other ..

theorem onSyscallYield_stack (cont : Cont) (idle : m.kernel.cpu.currentTid ≠ some t) :
    (m.onSyscallYield cont).stack t = m.stack t := by
  rw [Machine.onSyscallYield]
  cases current : (m.setKernel
    (m.kernel.setCr3 m.kernel.kernelPageTableFrame)).kernel.cpu.currentTid with
  | none => rfl
  | some v =>
      have other : t ≠ v := by
        rintro rfl
        exact idle current
      dsimp only
      rw [toScheduler_stack]
      exact Function.update_of_ne other ..

theorem onSyscallYield_current_tid (m : Machine) (cont : Cont) :
    (m.onSyscallYield cont).kernel.cpu.currentTid = m.kernel.cpu.currentTid := by
  cases current : m.kernel.cpu.currentTid with
  | none =>
      have here : (m.setKernel
        (m.kernel.setCr3 m.kernel.kernelPageTableFrame)).kernel.cpu.currentTid = none :=
        current
      rw [Machine.onSyscallYield]
      simp only [here]
      exact current
  | some v => exact (onSyscallYield_touches cont current).1.current.trans current

theorem StacksBut.onYield (cont : Cont) : StacksBut u m (m.onYield cont) := fun t _ idle =>
  onYield_stack cont (by rw [← onYield_current_tid m cont]; exact idle)

theorem StacksBut.onSyscallYield (cont : Cont) : StacksBut u m (m.onSyscallYield cont) :=
    fun t _ idle =>
  onSyscallYield_stack cont (by rw [← onSyscallYield_current_tid m cont]; exact idle)

theorem StacksBut.same (stack : m'.stack = m.stack) : StacksBut u m m' :=
    fun t _ _ => congrFun stack t

theorem StacksBut.sysExit (status : Int) (killed : Bool) : StacksBut u m (m.sysExit status killed) := by
  rw [Machine.sysExit]
  cases exit status m.kernel with
  | ok _ k => exact StacksBut.onSyscallYield (m := (m.setKernel k).record (.exited m.pid status killed)) .exited
  | err message k => exact .same rfl
  | panic message => exact .same rfl

theorem StacksBut.unlessKilled {rest : Machine → Machine} (goes : StacksBut u m (rest m)) :
    StacksBut u m (m.unlessKilled rest) := by
  rw [Machine.unlessKilled]
  cases currentProcess m.kernel with
  | err message k => exact .same rfl
  | panic message => exact .same rfl
  | ok found k =>
      cases found with
      | none => exact .same rfl
      | some p =>
          dsimp only
          split
          · exact .sysExit _ _
          · exact goes

theorem StacksBut.finish (what : Call) (entryRsp : Nat) (reply : Reply) :
    StacksBut u m (m.finish u what entryRsp reply) := by
  apply StacksBut.unlessKilled
  intro t other _
  exact Function.update_of_ne other ..

theorem StacksBut.finishCall (what : Call) (entryRsp : Nat) (outcome : Outcome Kernel Nat) :
    StacksBut u m (m.finishCall u what entryRsp outcome) := by
  cases outcome with
  | ok value k => exact StacksBut.finish (m := m.setKernel k) what entryRsp _
  | err message k => exact StacksBut.finish (m := m.setKernel k) what entryRsp _
  | panic message => exact .same rfl

theorem StacksBut.forkCall (entryRsp kstack : Nat) : StacksBut u m (m.forkCall u entryRsp kstack) := by
  rw [Machine.forkCall]
  cases fork kstack m.kernel with
  | ok child k => exact StacksBut.finish (m := (m.setKernel k).record (.forked m.pid child)) _ entryRsp _
  | err message k => exact StacksBut.finish (m := m.setKernel k) _ entryRsp _
  | panic message => exact .same rfl

theorem StacksBut.waitLoop (c : Process) (entryRsp : Nat) :
    StacksBut u m (m.waitLoop u c entryRsp) := by
  rw [Machine.waitLoop]
  cases waitRound c m.kernel with
  | err message k => exact StacksBut.finish (m := m.setKernel k) _ entryRsp _
  | panic message => exact .same rfl
  | ok found k =>
      cases found with
      | none => exact StacksBut.onSyscallYield (m := m.setKernel k) _
      | some child =>
          exact StacksBut.finish
            (m := (m.setKernel k).record (.reaped m.pid child.1 child.2)) _ entryRsp _

theorem StacksBut.dispatch (entryRsp : Nat) (what : Call) :
    StacksBut u m (m.dispatch cfg u entryRsp what) := by
  cases what with
  | fork kstack => exact .forkCall entryRsp kstack
  | exec path argv => exact .finishCall _ entryRsp _
  | getpid => exact .finishCall _ entryRsp _
  | exit status => exact .sysExit status false
  | kill pid => exact .finishCall _ entryRsp _
  | sbrk n => exact .finishCall _ entryRsp _
  | other => exact .finish _ entryRsp _
  | wait =>
      rw [Machine.dispatch]
      cases currentProcess m.kernel with
      | err message k => exact .same rfl
      | panic message => exact .same rfl
      | ok found k =>
          cases found with
          | none => exact .same rfl
          | some p => exact .waitLoop p entryRsp

theorem StacksBut.syscall (rsp : Nat) (regs : TrapFrame) (what : Call) :
    StacksBut u m (m.syscall cfg u rsp regs what) := by
  have goes : StacksBut u (m.syscallEntry rsp regs)
    ((m.syscallEntry rsp regs).unlessKilled fun m' =>
      (m'.setKernel (Machine.setTrapframe m'.kernel u)).dispatch cfg u rsp what) :=
    .unlessKilled (StacksBut.dispatch
      (m := (m.syscallEntry rsp regs).setKernel
        (Machine.setTrapframe (m.syscallEntry rsp regs).kernel u)) rsp what)
  exact goes

theorem schedule_stack (m : Machine) : m.schedule.stack = m.stack := by
  rw [Machine.schedule]
  cases findNextRunnableThread m.kernel with
  | none => rfl
  | some next =>
      dsimp only
      cases prepareSwitch next m.kernel <;> rfl

theorem StacksBut.proceed (taken : m.proceed u = some m') : StacksBut u m m' := by
  rw [Machine.proceed] at taken
  cases cont : m.continuation u with
  | kthread => simp [cont] at taken
  | wait c entryRsp =>
      simp only [cont, Option.some.injEq] at taken
      exact taken ▸ StacksBut.waitLoop (m := m.swapgs) c entryRsp
  | _ =>
      simp only [cont, Option.some.injEq] at taken
      exact taken ▸ .same rfl

theorem StacksBut.userTick : StacksBut u m m.userTick := .unlessKilled (.onYield .toUser)

theorem onYield_stays (cont : Cont) (runnable : (m.kernel.threadTable t).state = .runnable) :
    (m.onYield cont).stack t = m.stack t := by
  by_cases current : m.kernel.cpu.currentTid = some t
  · rw [onYield_stops cont current (by rw [runnable]; decide)]
    rfl
  · exact onYield_stack cont current

/-- A thread that waits in the queue keeps its kernel stack. -/
theorem step_stack (lower : cfg.LowerHalf) (inv : m.Inv cfg) (taken : step cfg m event = some m')
    (queued : Queued m t)
    (passed : chosenBy m event ≠ some t) : m'.stack t = m.stack t := by
  obtain ⟨waits, current⟩ := step_queue lower inv taken queued passed
  -- nobody else is on the CPU while another thread is current
  have idle : ∀ {u : Nat}, (m.pc = .kernel u ∨ m.pc = .user u) → chosenBy m event = none → t ≠ u ∧
    m'.kernel.cpu.currentTid ≠ some t := by
    intro u here none
    have other : t ≠ u := by
      rintro rfl
      exact here.elim queued.kernel queued.user
    rw [current, none, Option.none_or, (inv.onCpu here).tid]
    exact ⟨other, fun is => other (Option.some.inj is).symm⟩
  cases event with
  | schedule =>
      simp only [step] at taken
      split at taken
      case isFalse => cases taken
      case isTrue =>
        obtain rfl := Option.some.inj taken
        exact congrFun (schedule_stack m) t
  | lateTick =>
      simp only [step] at taken
      split at taken
      case isFalse => cases taken
      case isTrue =>
        split at taken
        case h_1 => cases taken
        case h_2 next found =>
          have chosen : m'.kernel.cpu.currentTid ≠ some t := by
            rw [current, chosenBy, found, Option.some_or, ← found]
            exact passed
          split at taken
          · obtain rfl := Option.some.inj taken
            exact StacksBut.onYield (u := t + 1) (m := m.setKernel _) .lost t
              (Nat.ne_of_lt (Nat.lt_succ_self t)) chosen
          · obtain rfl := Option.some.inj taken
            rfl
          · obtain rfl := Option.some.inj taken
            rfl
  | tick =>
      cases here : m.pc with
      | scheduler =>
          simp only [step, here] at taken
          split at taken
          · obtain rfl := Option.some.inj taken
            exact onYield_stays _ queued.runnable
          · cases taken
      | stopped message => simp [step, here] at taken
      | kernel u =>
          simp only [step, here] at taken
          split at taken
          · obtain rfl := Option.some.inj taken
            exact onYield_stays _ queued.runnable
          · obtain rfl := Option.some.inj taken
            exact onYield_stays _ queued.runnable
          · cases taken
      | user u =>
          simp only [step, here, Option.some.injEq] at taken
          obtain ⟨other, chosen⟩ := idle (.inr here) rfl
          subst taken
          exact StacksBut.userTick t other chosen
  | proceed =>
      simp only [step] at taken
      cases here : m.pc with
      | kernel u =>
          simp only [here] at taken
          obtain ⟨other, chosen⟩ := idle (.inl here) rfl
          exact StacksBut.proceed taken t other chosen
      | _ => simp [here] at taken
  | call rsp regs what =>
      simp only [step] at taken
      cases here : m.pc with
      | user u =>
          simp only [here, Option.some.injEq] at taken
          obtain ⟨other, chosen⟩ := idle (.inr here) rfl
          subst taken
          exact StacksBut.syscall rsp regs what t other chosen
      | _ => simp [here] at taken

/-! ## The child -/

/-- A zombie child of a process. -/
def Kernel.Ended (k : Kernel) (i j : Nat) : Prop :=
  ∃ z, k.processTable j = some z ∧ z.state = .zombie ∧ z.ppid = some i

/-- A process that is a zombie stays one, where its space stays. -/
theorem Kernel.Ended.lasts (run : m.world.Run m'.world) (coh : Coherent m.kernel)
    (coh' : Coherent m'.kernel)
    (ended : m.kernel.Ended i j) (space : m'.kernel.spaceOf j = m.kernel.spaceOf j) :
    m'.kernel.Ended i j := by
  obtain ⟨z, entry, zombie, parent⟩ := ended
  have leads : Slot.Leads (m.kernel.slot j) (m'.kernel.slot j) := World.Run.leads run j
  obtain ⟨z', after⟩ := slot_entry (leads.used (slot_used entry))
  have live : z'.live = true := by
    obtain ⟨root, table⟩ := Option.ne_none_iff_exists'.mp
      (coh.live j z entry (Process.live_iff.mpr (.inr zombie))).table
    by_contra dead
    have none := (coh'.blank j z' after (Bool.eq_false_iff.mpr dead)).1
    rw [spaceOf_some entry table, Kernel.spaceOf, Kernel.roots, after, Option.bind_some,
      none] at space
    cases space
  obtain ⟨-, parent', -, still⟩ := slot_leads entry after leads live
  exact ⟨z', after, (still zombie).1, parent'.trans parent⟩

/-- Only the thread of the parent takes it away. -/
theorem Kernel.Ended.turn (lower : cfg.LowerHalf) (inv : m.Inv cfg) (turn : Turn cfg m m')
    (queued : Queued m t)
    (owner : (m.kernel.threadTable t).pid = some i) (ended : m.kernel.Ended i j) :
    m'.kernel.Ended i j := by
  have coh := inv.1.coherent
  have alive : ∀ {u i : Nat}, (m.pc = .kernel u ∨ m.pc = .user u) →
    (m.kernel.threadTable u).pid = some i →
      ∃ p, m.kernel.processTable i = some p ∧ p.state = .alive ∧ Owns m.kernel i p u := by
    intro u i here pid
    obtain ⟨p, entry, alive, -, owns⟩ := coh.ready_alive pid (inv.onCpu here).ready
    exact ⟨p, entry, alive, owns⟩
  have ⟨z, entry, zombie, parent⟩ := ended
  have other : ¬ Here m j := by
    rintro ⟨u, here, pid⟩
    obtain ⟨p, entry', state, -⟩ := alive here pid
    obtain rfl := Option.some.inj (entry.symm.trans entry')
    cases zombie.symm.trans state
  obtain ⟨root, table⟩ := Option.ne_none_iff_exists'.mp
    (coh.live j z entry (Process.live_iff.mpr (.inr zombie))).table
  have there : m.kernel.spaceOf j ≠ none := by
    rw [spaceOf_some entry table]
    exact Option.some_ne_none _
  rcases turn.remains lower inv other there with same | ⟨-, i', ⟨u, here, pid⟩, z', entry', parent'⟩
  · exact ended.lasts (turn.refines lower inv) coh (turn.inv lower inv).1.coherent same
  · obtain rfl := Option.some.inj (entry.symm.trans entry')
    obtain rfl : i = i' := Option.some.inj (parent.symm.trans parent')
    obtain ⟨p, there', -, owns⟩ := alive here pid
    obtain ⟨p', there, -, -, owns'⟩ := coh.ready_alive owner (.inl queued.runnable)
    obtain rfl := Option.some.inj (there'.symm.trans there)
    obtain rfl := (List.cons.inj (owns.threads.symm.trans owns'.threads)).1
    exact (here.elim queued.kernel queued.user).elim

/-- The thread has yielded in `wait`, and a child of its process has ended. -/
structure Awaits (m : Machine) (t i j : Nat) (cont : Cont) : Prop where
  queued : Queued m t
  stack : m.continuation t = cont
  owner : (m.kernel.threadTable t).pid = some i
  child : m.kernel.Ended i j

theorem Awaits.run {cont : Cont} (lower : cfg.LowerHalf) (lives : Lives cfg m)
    (awaits : Awaits m t i j cont)
    (run : Chosen cfg m chosen m')
    (passed : t ∉ chosen) : Lives cfg m' ∧ Awaits m' t i j cont := by
  induction run with
  | start => exact ⟨lives, awaits⟩
  | @step chosen m₁ m₂ before event taken ih =>
      rw [List.mem_append, not_or] at passed
      obtain ⟨lives₁, awaits₁⟩ := ih passed.2
      have inv₁ := lives₁.inv lower
      have other : chosenBy m₁ event ≠ some t :=
        fun is => passed.1 (by rw [is]; exact List.mem_singleton_self t)
      have turn := Turn.step event taken
      obtain ⟨⟨queued, thread⟩, -⟩ := step_queue lower inv₁ taken awaits₁.queued other
      have stack := continuation_congr thread (step_stack lower inv₁ taken awaits₁.queued other)
      exact ⟨lives₁.turn turn, queued, stack.trans awaits₁.stack, thread ▸ awaits₁.owner,
        awaits₁.child.turn lower inv₁ turn awaits₁.queued awaits₁.owner⟩
  | store before pc inside allowed byte ih =>
      obtain ⟨lives₁, queued, stack, owner, child⟩ := ih passed
      exact ⟨lives₁.turn (.store pc inside allowed byte),
        ⟨queued.runnable, queued.kernel, queued.user⟩, stack,
        owner, child⟩

/-! ## The answer -/

theorem Acts.grows (acts : Acts cfg m m') : ∃ new, m'.history = new ++ m.history := by
  cases acts.action with
  | quiet quiet =>
      obtain ⟨new, history, -⟩ := quiet.history
      exact ⟨new, history⟩
  | returned => exact ⟨[_], rfl⟩
  | exit => exact ⟨[_], rfl⟩
  | fork => exact ⟨[_], rfl⟩
  | reap => exact ⟨[_], rfl⟩
  | _ => exact ⟨[], rfl⟩

theorem Run.grows (run : Run cfg m m') : ∃ new, m'.history = new ++ m.history := by
  induction run with
  | refl => exact ⟨[], rfl⟩
  | tail _ acts ih =>
      obtain ⟨old, before⟩ := ih
      obtain ⟨new, after⟩ := acts.grows
      exact ⟨new ++ old, by rw [after, before, List.append_assoc]⟩

theorem Kernel.Ended.found (coh : Coherent k) (ended : k.Ended i j) : zombieChild i k ≠ none := by
  obtain ⟨z, entry, zombie, parent⟩ := ended
  intro none
  rw [zombieChild, List.find?_eq_none] at none
  have bound := (coh.live j z entry (Process.live_iff.mpr (.inr zombie))).bound
  have missed := none j (List.mem_range.mpr bound)
  simp [isChild, isZombie, entry, zombie, parent] at missed

theorem schedule_switch (lower : cfg.LowerHalf) (inv : m.Inv cfg) (here : m.pc = .scheduler)
    (found : findNextRunnableThread m.kernel = some t) :
    ∃ m', step cfg m .schedule = some m' ∧ m'.pc = .kernel t ∧ Switched t m.kernel m'.kernel ∧
    m'.stack = m.stack := by
  have taken : step cfg m .schedule = some m.schedule := by
    simp only [step]
    exact if_pos here
  refine ⟨m.schedule, taken, ?_⟩
  have shape := step_shape lower inv taken
  cases shape with
  | idle _ _ loops => cases (schedule_idle taken loops).symm.trans found
  | switch _ found' switched pc =>
      obtain rfl := Option.some.inj (found'.symm.trans found)
      exact ⟨pc, switched, schedule_stack m⟩

/-- A parent that goes on in `wait` with a zombie child reaps, and returns if it was not killed. -/
theorem Awaits.proceed (inv : m.Inv cfg) (here : m.pc = .kernel t)
    (stack : m.continuation t = .wait c r)
    (owner : (m.kernel.threadTable t).pid = some i) (child : m.kernel.Ended i j) :
    ∃ m' child status new,
      step cfg m .proceed = some m' ∧ m'.history = new ++ .reaped i child status :: m.history ∧
        ∀ p, m.kernel.processTable i = some p → p.killed = false → m'.pc = .user t := by
  obtain ⟨kept, cpu⟩ := inv
  rw [here] at cpu
  obtain ⟨cpu, saved⟩ := cpu
  obtain ⟨pid, spared, entered⟩ := kept.waits t c r cpu.ready stack
  have call : InCall cfg m t := ⟨kept, cpu, by simp [pid], UserCode.of_wait stack⟩
  obtain ⟨i', p, serves⟩ := call.serves
  obtain rfl : i = i' := Option.some.inj (owner.symm.trans serves.pid)
  have taken : step cfg m .proceed = some (m.swapgs.waitLoop t c r) := by
    simp only [step, here, Machine.proceed, stack]
  have cases' := InCall.waitLoop_cases (m := m.swapgs) (r := r) (call.congr rfl kept.swapgs)
    (serves.congr rfl)
    (Option.some.inj (pid.symm.trans serves.pid)) spared
  rcases cases' with ⟨none, -⟩ | ⟨none, -⟩ |
    ⟨_, z, tid, f, mem', -, -, -, -, -, -, reaped, serves', ends⟩
  · exact absurd none (child.found kept.coherent)
  · exact absurd none (child.found kept.coherent)
  · have restored : ∀ i', RspRestored cfg
      (.returned t i' .wait (.reaped z.pid z.exitStatus) r m.kernel.cpu.savedUserRsp) :=
      fun _ => saved.trans entered
    obtain ⟨new, history⟩ := (reaped.finish restored).run.grows
    refine ⟨m.swapgs.waitLoop t c r, z.pid, z.exitStatus, new, taken, ?_, fun q entry alive => ?_⟩
    · rw [ends, history]
      rfl
    · obtain rfl := Option.some.inj (serves.entry.symm.trans entry)
      rw [ends, Machine.finish, serves'.toCurrent.unlessKilled_run rfl, if_neg (by simp [alive])]

/-- Once a child has ended, its parent keeps waiting for it until it is chosen, which is before
    any other thread is chosen twice. It finds a zombie child then and reaps it; and where GS
    has its orientation, it comes back to user mode, with the orientation kept. -/
theorem wait_answered {m₁ : Machine} (lower : cfg.LowerHalf) (lives : Lives cfg m)
    (awaits : Awaits m t i j (.wait c r)) (run : Chosen cfg m chosen m₁)
    (passed : t ∉ chosen) : Awaits m₁ t i j (.wait c r) ∧ chosen.Nodup ∧ chosen.length < NTHREAD ∧
      (m₁.pc = .scheduler → findNextRunnableThread m₁.kernel = some t → ∃ m₂ m₃ child status new,
        step cfg m₁ .schedule = some m₂ ∧ step cfg m₂ .proceed = some m₃ ∧
          m₃.history = new ++ .reaped i child status :: m₂.history ∧
          (GsKept m₁ → GsKept m₃ ∧
            ∀ p, m₂.kernel.processTable i = some p → p.killed = false → m₃.pc = .user t)) := by
  obtain ⟨p, -, -, -, owns⟩ :=
    (lives.inv lower).1.coherent.ready_alive awaits.owner (.inl awaits.queued.runnable)
  obtain ⟨distinct, few⟩ := run.few lower lives owns.bound awaits.queued passed
  obtain ⟨lives₁, awaits₁⟩ := awaits.run lower lives run passed
  refine ⟨awaits₁, distinct, few, fun here found => ?_⟩
  have inv₁ := lives₁.inv lower
  obtain ⟨m₂, taken, pc, switched, stack⟩ := schedule_switch lower inv₁ here found
  have turn := Turn.step .schedule taken
  have inv₂ := turn.inv lower inv₁
  obtain ⟨state, thread, -⟩ := switched.threads t
  have continues : m₂.continuation t = .wait c r := by
    rw [← awaits₁.stack, Machine.continuation, Machine.continuation, thread, stack]
  have owner : (m₂.kernel.threadTable t).pid = some i := by
    rw [thread]
    exact awaits₁.owner
  have child := awaits₁.child.lasts (turn.refines lower inv₁) inv₁.1.coherent inv₂.1.coherent
    (switched.spaces.spaceOf j)
  obtain ⟨m₃, who, status, new, goes, history, returns⟩ :=
    Awaits.proceed inv₂ pc continues owner child
  have chooses : SparedTick m₁ .schedule := trivial
  have proceeds : SparedTick m₂ .proceed := trivial
  refine ⟨m₂, m₃, who, status, new, taken, goes, history, fun oriented => ⟨?_, returns⟩⟩
  exact (oriented.step inv₁ chooses taken).step inv₂ proceeds goes

/-- The first process waits, and its child has exited. -/
def Scene.answered : Scene where
  pc := .scheduler
  current := some 1
  started := true
  states := [.runnable, .zombie]
  members := [⟨.alive, false, none⟩, ⟨.zombie, false, some 0⟩]
  rests := [.waits, .exited]
  frames := 27

theorem wait_answered_child : ∃ m m₂ m₃ child status new, Shows bareConfig m .answered ∧
    step bareConfig m .schedule = some m₂ ∧
    step bareConfig m₂ .proceed = some m₃ ∧
      m₃.history = new ++ .reaped 0 child status :: m₂.history := by
  obtain ⟨m, shown⟩ := plan_reaches 40
    [.schedule, .proceed, .fork, .wait, .schedule, .proceed, .exit]
    (v := .answered) (by decide) (by decide)
  obtain ⟨c, r, waiting⟩ := shown.rests 0 .waits rfl
  obtain ⟨z, entry, -, there⟩ := shown.occupied (i := 1) rfl
  have queued : Queued m 0 := .away (shown.states 0) (.inl shown.pc)
  have ended : m.kernel.Ended 0 1 :=
    ⟨z, entry, congrArg Member.state there, congrArg Member.ppid there⟩
  have next : findNextRunnableThread m.kernel = some 0 := shown.nextThread.trans (by decide)
  obtain ⟨-, -, -, answer⟩ := wait_answered bareConfig_lower shown.reached.lives
    ⟨queued, waiting, shown.owner 0 (by decide), ended⟩
    .start List.not_mem_nil
  obtain ⟨m₂, m₃, child, status, new, scheduled, goes, history, -⟩ := answer shown.pc next
  exact ⟨m, m₂, m₃, child, status, new, shown, scheduled, goes, history⟩

end FerriOS.System
