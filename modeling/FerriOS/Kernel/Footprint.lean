import FerriOS.Kernel.Runs

/-! # The footprint of a step

What a step may touch of the threads, of their kernel stacks and of the trap frames.
A step runs on behalf of the current thread: the other threads keep everything, but
for the child of a `fork` and the thread of a child that is reaped.
-/

namespace FerriOS.System

open FerriOS.Lib FerriOS.Memory FerriOS.Loader

/-- A thread with its kernel stack and its trap frame where they were. -/
structure Thread.Keeps (a b : Thread) : Prop where
  kstack : b.kstack = a.kstack
  tf : b.tf = a.tf
  used : b.state = .unused ↔ a.state = .unused
  zombie : a.state = .zombie → b.state = .zombie

/-- The heap size of each process. -/
def Kernel.heaps (k : Kernel) (i : Nat) : Option Nat := (k.processTable i).map (·.heapSize)

/-- The address spaces, their heaps and the frames that are left stay as they are. -/
structure SameSpaces (k k' : Kernel) : Prop where
  ram : k'.mem.ram = k.mem.ram
  frameAllocator : k'.mem.frameAllocator = k.mem.frameAllocator
  roots : k'.roots = k.roots
  heaps : k'.heaps = k.heaps

/-- No stack is allocated or released and no trap frame is written; of the threads,
    only `t` changes. -/
structure Touches (t : Nat) (k k' : Kernel) : Prop where
  spaces : SameSpaces k k'
  kernelStacks : k'.kernelStacks = k.kernelStacks
  trapFrames : k'.trapFrames = k.trapFrames
  current : k'.cpu.currentTid = k.cpu.currentTid
  others : ∀ u ≠ t, k'.threadTable u = k.threadTable u
  own : (k.threadTable t).Keeps (k'.threadTable t)

/-- The CPU has left the thread, or has stopped. -/
def Away (m : Machine) : Prop := m.pc = .scheduler ∨ ∃ message, m.pc = .stopped message

/-- What the body of a call does to the kernel, for the thread `t`. -/
inductive Body (cfg : Config) (t : Nat) : Call → Kernel → Kernel → Prop where
  | same : Body cfg t what k k
  | mem (kept : ledger NPROCESS k.roots mem' = ledger NPROCESS k.roots k.mem ∨ ∃ path argv,
      what = .exec path argv) :
      Body cfg t what k (k.setMem mem')
  | fork (stack : kstack ≠ 0) (used : (k.threadTable t).state ≠ .unused)
      (free : k.freePid = some pid)
      (freeT : k.freeTid = some tid) (tf : (k.threadTable t).tf = some parentTf)
      (copied : copyUvm k.mem.cr3 k.mem = .ok root mem') :
      Body cfg t (.fork kstack) k (k.forked kstack pid tid p parentTf root mem')
  | forkFails (stack : kstack ≠ 0) (used : (k.threadTable t).state ≠ .unused)
      (freeT : k.freeTid = some tid)
      (failed : fork kstack k = .err message ((k.withEmbryo kstack pid tid).setMem mem')) :
      Body cfg t (.fork kstack) k ((k.withEmbryo kstack pid tid).setMem mem')
  | exec (owner : (k.threadTable t).pid = some i) (tf : (k.threadTable t).tf = some frame) :
      Body cfg t (.exec path argv) k ((k.setMem mem').committed t i p frame r)
  | kill {q : Process} (entry : k.processTable j = some q) :
      Body cfg t (.kill pid) k (k.setProcess j (some { q with killed := true }))
  | reap (caller : (k.threadTable t).pid = some i) (found : zombieChild i k = some j)
      (owns : Owns k j z tid)
      (zombie : z.state = .zombie) (other : tid ≠ t) (entry : k.processTable j = some z)
        (table : z.pageTable = some f)
      (freed : freeUvm f k.mem = .ok () mem') :
      Body cfg t .wait k (k.released z tid mem')

/-- From `m₁` on, the thread is left, or goes on in user mode. -/
def EndsFrom (t : Nat) (m₁ m' : Machine) : Prop :=
  (Touches t m₁.kernel m'.kernel ∧ Away m') ∨ (m'.kernel = m₁.kernel ∧ m'.pc = .user t)

/-- The scheduler has chosen `next`: threads change their states at most. -/
structure Switched (next : Nat) (k k' : Kernel) : Prop where
  spaces : SameSpaces k k'
  kernelStacks : k'.kernelStacks = k.kernelStacks
  trapFrames : k'.trapFrames = k.trapFrames
  current : k'.cpu.currentTid = some next
  runnable : (k.threadTable next).state = .runnable
  threads : ∀ u, ∃ state, k'.threadTable u = { k.threadTable u with state } ∧
    (state = (k.threadTable u).state ∨
    ((k.threadTable u).Ready ∧ (state = .runnable ∨ state = .running))) ∧
    (state = .running → u = next)
  chosen : k.cpu.currentTid ≠ some next → (k'.threadTable next).state = .running

/-- What a step does to threads, kernel stacks and trap frames. -/
inductive Shape (cfg : Config) (m m' : Machine) : Event → Prop where
  | idle (kernel : m'.kernel = m.kernel) (pc : m.pc = .scheduler) (pc' : m'.pc = .scheduler) :
      Shape cfg m m' .schedule
  | switch (here : m.pc = .scheduler) (found : findNextRunnableThread m.kernel = some next)
      (switched : Switched next m.kernel m'.kernel) (pc : m'.pc = .kernel next) :
        Shape cfg m m' .schedule
  | late (here : m.pc = .scheduler) (found : findNextRunnableThread m.kernel = some next)
      (switched : Switched next m.kernel k₁) (touches : Touches next k₁ m'.kernel)
        (away : Away m') :
      Shape cfg m m' .lateTick
  | tick (touches : Touches t m.kernel m'.kernel) (away : Away m') : Shape cfg m m' .tick
  | proceed (here : m.pc = .kernel t) (body : Body cfg t .wait m.kernel m₁.kernel)
      (ends : EndsFrom t m₁ m') :
      Shape cfg m m' .proceed
  | killed (here : m.pc = .user t) (serves : Serves m t i p) (killed : p.killed = true)
      (touches : Touches t (m.syscallEntry rsp regs).kernel m'.kernel) (away : Away m') :
      Shape cfg m m' (.call rsp regs what)
  | call (here : m.pc = .user t) (serves : Serves m t i p) (spared : p.killed = false)
      (body : Body cfg t what (m.calling t rsp regs).kernel m₁.kernel) (ends : EndsFrom t m₁ m') :
      Shape cfg m m' (.call rsp regs what)

variable {cfg : Config} {m m' m₁ : Machine} {k k' k'' : Kernel} {t i : Nat} {p c : Process}

theorem Thread.Keeps.refl {a : Thread} : a.Keeps a := ⟨rfl, rfl, Iff.rfl, id⟩

theorem Thread.Keeps.trans {a b c : Thread} (first : a.Keeps b) (second : b.Keeps c) : a.Keeps c :=
  ⟨second.kstack.trans first.kstack, second.tf.trans first.tf, second.used.trans first.used,
    second.zombie ∘ first.zombie⟩

namespace SameSpaces

theorem refl : SameSpaces k k := ⟨rfl, rfl, rfl, rfl⟩

theorem trans (first : SameSpaces k k') (second : SameSpaces k' k'') : SameSpaces k k'' :=
  ⟨second.ram.trans first.ram, second.frameAllocator.trans first.frameAllocator,
    second.roots.trans first.roots,
    second.heaps.trans first.heaps⟩

theorem ledger_eq (same : SameSpaces k k') :
    ledger NPROCESS k'.roots k'.mem = ledger NPROCESS k.roots k.mem := by
  simp only [ledger, MemState.available, same.ram, same.frameAllocator, same.roots]

end SameSpaces

namespace Touches

theorem refl : Touches t k k := ⟨.refl, rfl, rfl, rfl, fun _ _ => rfl, .refl⟩

theorem trans (first : Touches t k k') (second : Touches t k' k'') : Touches t k k'' where
  spaces := first.spaces.trans second.spaces
  kernelStacks := second.kernelStacks.trans first.kernelStacks
  trapFrames := second.trapFrames.trans first.trapFrames
  current := second.current.trans first.current
  others u other := (second.others u other).trans (first.others u other)
  own := first.own.trans second.own

theorem of_threads (spaces : SameSpaces k k') (kernelStacks : k'.kernelStacks = k.kernelStacks)
    (trapFrames : k'.trapFrames = k.trapFrames)
    (current : k'.cpu.currentTid = k.cpu.currentTid) (threads : k'.threadTable = k.threadTable) :
    Touches t k k' :=
  ⟨spaces, kernelStacks, trapFrames, current,
    fun _ _ => by rw [threads], by rw [threads]; exact .refl⟩

theorem keeps (touches : Touches t k k') (u : Nat) :
    (k.threadTable u).Keeps (k'.threadTable u) := by
  by_cases here : u = t
  · subst here
    exact touches.own
  · rw [touches.others u here]
    exact .refl

theorem update (thread : Thread) (threads : k'.threadTable = Function.update k.threadTable t thread)
    (keeps : (k.threadTable t).Keeps thread) (kernelStacks : k'.kernelStacks = k.kernelStacks)
    (trapFrames : k'.trapFrames = k.trapFrames) (current : k'.cpu.currentTid = k.cpu.currentTid)
    (spaces : SameSpaces k k') : Touches t k k' where
  spaces := spaces
  kernelStacks := kernelStacks
  trapFrames := trapFrames
  current := current
  others u other := by rw [threads, Function.update_of_ne other]
  own := by rwa [threads, Function.update_self]

end Touches

theorem heaps_setProcess (k : Kernel) (j : Nat) (entry : Option Process) :
    (k.setProcess j entry).heaps = Function.update k.heaps j (entry.map (·.heapSize)) := by
  funext i
  by_cases here : i = j
  · subst here
    rw [Kernel.heaps, Kernel.setProcess_at, Function.update_self]
  · rw [Kernel.heaps, Kernel.setProcess_ne _ here, Function.update_of_ne here, Kernel.heaps]

theorem toScheduler_kernel (m : Machine) : m.toScheduler.kernel = m.kernel := by
  rw [Machine.toScheduler]
  split <;> rfl

theorem toScheduler_pc (m : Machine) :
    m.toScheduler.pc = .scheduler ∨ ∃ message, m.toScheduler.pc = .stopped message := by
  rw [Machine.toScheduler]
  split
  · exact .inl rfl
  · exact .inr ⟨_, rfl⟩

/-- A yield of the timer handler saves the current thread. -/
theorem onYield_touches (cont : Cont) (current : m.kernel.cpu.currentTid = some t) :
    Touches t m.kernel (m.onYield cont).kernel ∧ Away (m.onYield cont) := by
  have here : (m.setKernel (m.kernel.setCr3 m.kernel.kernelPageTableFrame)).kernel.cpu.currentTid = some t := current
  rw [Machine.onYield]
  simp only [here]
  split
  case isTrue => exact ⟨.of_threads ⟨rfl, rfl, rfl, rfl⟩ rfl rfl rfl rfl, .inr ⟨_, rfl⟩⟩
  case isFalse running =>
    have state : (m.kernel.threadTable t).state = .running := not_not.mp running
    refine ⟨?_, toScheduler_pc _⟩
    rw [toScheduler_kernel]
    refine Touches.update { m.kernel.threadTable t with
      state := .runnable, context := { (m.kernel.threadTable t).context with rip := .onYield } } ?_
      ⟨rfl, rfl, ?_, fun zombie => by cases zombie.symm.trans state⟩ rfl rfl rfl
        ⟨rfl, rfl, rfl, rfl⟩
    · simp only [Machine.save, Machine.setKernel, setState, Kernel.setThread, Function.update_self,
        Function.update_idem,
        Kernel.setCr3, Kernel.setMem]
    · simp only [state]
      exact ⟨(fun is => by cases is), fun is => by cases is⟩

/-- A yield inside a system call saves the current thread. -/
theorem onSyscallYield_touches (cont : Cont) (current : m.kernel.cpu.currentTid = some t) :
    Touches t m.kernel (m.onSyscallYield cont).kernel ∧ Away (m.onSyscallYield cont) := by
  have here : (m.setKernel (m.kernel.setCr3 m.kernel.kernelPageTableFrame)).kernel.cpu.currentTid = some t := current
  rw [Machine.onSyscallYield]
  simp only [here]
  refine ⟨?_, toScheduler_pc _⟩
  rw [toScheduler_kernel]
  refine Touches.update { m.kernel.threadTable t with context := {
    (m.kernel.threadTable t).context with
    rip := .onSyscallYield, rsp3 := m.kernel.cpu.savedUserRsp } } ?_
      ⟨rfl, rfl, Iff.rfl, id⟩ rfl rfl rfl ⟨rfl, rfl, rfl, rfl⟩
  simp only [Machine.save, Machine.setKernel, Machine.swapgs, Kernel.setThread,
    Function.update_self, Function.update_idem,
    Kernel.setCr3, Kernel.setMem]

/-- An exit makes the current thread a zombie, and leaves it. -/
theorem sysExit_touches (serves : Serves m t i p) (status : Int) (killed : Bool) :
    Touches t m.kernel (m.sysExit status killed).kernel ∧ Away (m.sysExit status killed) := by
  rw [Machine.sysExit]
  by_cases init : i = INIT_PID
  · subst init
    rw [exit_init serves.toCurrent]
    exact ⟨.refl, .inr ⟨_, rfl⟩⟩
  · rw [exit_run serves.toCurrent init serves.owns.threads serves.whole.pid]
    have roots : (m.kernel.exited t i p status).roots = m.kernel.roots := by
      refine (roots_setProcess m.kernel i _).trans (Function.update_eq_self_iff.mpr ?_)
      rw [Kernel.roots, serves.entry]
      rfl
    have heaps : (m.kernel.exited t i p status).heaps = m.kernel.heaps := by
      refine (heaps_setProcess m.kernel i _).trans (Function.update_eq_self_iff.mpr ?_)
      rw [Kernel.heaps, serves.entry]
      rfl
    have zombie : Touches t m.kernel (m.kernel.exited t i p status) := by
      refine Touches.update _ rfl ⟨rfl, rfl, ?_, fun _ => rfl⟩ rfl rfl rfl ⟨rfl, rfl, roots, heaps⟩
      simp only [serves.owns.used, iff_false]
      exact fun is => by cases is
    obtain ⟨yields, away⟩ := onSyscallYield_touches (t := t)
      (m := (m.setKernel (m.kernel.exited t i p status)).record
        (.exited m.pid status killed)) .exited serves.tid
    exact ⟨zombie.trans yields, away⟩

namespace InCall

variable (call : InCall cfg m t)

include call

theorem unlessKilled_cases (rest : Machine → Machine) :
    (Touches t m.kernel (m.unlessKilled rest).kernel ∧ Away (m.unlessKilled rest)) ∨
    m.unlessKilled rest = rest m := by
  obtain ⟨i, p, serves⟩ := call.serves
  rw [serves.toCurrent.unlessKilled_run rfl]
  split
  · exact .inl (sysExit_touches serves _ _)
  · exact .inr rfl

theorem finish_cases (what : Call) (entryRsp : Nat) (reply : Reply) :
    (Touches t m.kernel (m.finish t what entryRsp reply).kernel ∧
    Away (m.finish t what entryRsp reply)) ∨
      ((m.finish t what entryRsp reply).kernel = m.kernel ∧
        (m.finish t what entryRsp reply).pc = .user t) := by
  rw [Machine.finish]
  rcases call.unlessKilled_cases _ with left | goes
  · exact .inl left
  · rw [goes]
    exact .inr ⟨rfl, rfl⟩

end InCall

theorem EndsFrom.stop (message : String) : EndsFrom t m (m.stop message) :=
    .inl ⟨.refl, .inr ⟨_, rfl⟩⟩

theorem EndsFrom.keeps {m₁ : Machine} (ends : EndsFrom t m₁ m') (u : Nat) :
    (m₁.kernel.threadTable u).Keeps (m'.kernel.threadTable u) := by
  rcases ends with ⟨touches, -⟩ | ⟨same, -⟩
  · exact touches.keeps u
  · rw [same]
    exact .refl

theorem EndsFrom.others (ends : EndsFrom t m₁ m') (other : u ≠ t) :
    m'.kernel.threadTable u = m₁.kernel.threadTable u := by
  rcases ends with ⟨touches, -⟩ | ⟨same, -⟩
  · exact touches.others u other
  · rw [same]

theorem EndsFrom.kernelStacks (ends : EndsFrom t m₁ m') :
    m'.kernel.kernelStacks = m₁.kernel.kernelStacks := by
  rcases ends with ⟨touches, -⟩ | ⟨same, -⟩
  · exact touches.kernelStacks
  · rw [same]

namespace InCall

variable (call : InCall cfg m t)

include call

theorem finish_body {what : Call} (entryRsp : Nat) (reply : Reply)
    (body : Body cfg t what k m.kernel) :
    ∃ m₁, Body cfg t what k m₁.kernel ∧ EndsFrom t m₁ (m.finish t what entryRsp reply) :=
  ⟨m, body, call.finish_cases what entryRsp reply⟩

theorem forkCall_body {entryRsp kstack : Nat} (serves : Serves m t i p) : ∃ m₁,
    Body cfg t (.fork kstack) m.kernel m₁.kernel ∧
      EndsFrom t m₁ (m.forkCall t entryRsp kstack) := by
  rw [Machine.forkCall]
  by_cases null : kstack = 0
  · subst null
    have spec := fork_null serves.toCurrent
    revert spec
    cases fork 0 m.kernel with
    | ok child k => exact fun impossible => impossible.elim
    | panic message => exact fun _ => ⟨m, .same, .stop message⟩
    | err message k =>
        rintro ⟨rfl, -⟩
        exact finish_body (m := m) call _ _ .same
  · obtain ⟨parentTf, tf⟩ := Option.ne_none_iff_exists'.mp serves.owns.tf
    have used := serves.owns.used
    have run := fork_run serves.toCurrent serves.table tf used null
    rw [run]
    cases free : m.kernel.freePid with
    | none => exact finish_body (m := m) call _ _ .same
    | some pid =>
      cases freeT : m.kernel.freeTid with
      | none => exact finish_body (m := m) call _ _ .same
      | some tid =>
        cases copied : copyUvm m.kernel.mem.cr3 m.kernel.mem with
        | panic message => exact ⟨m, .same, .stop message⟩
        | err message mem' =>
          have failed : fork kstack m.kernel = .err message
            ((m.kernel.withEmbryo kstack pid tid).setMem mem') := by
            simp only [run, free, freeT, copied]
          exact (call.forkFailed kstack pid serves freeT copied).finish_body _ _
            (.forkFails null used freeT failed)
        | ok root mem' =>
          simp only [serves.pid_eq]
          exact (call.forked _ _ serves free freeT copied).finish_body _ _
            (.fork null used free freeT tf copied)

theorem execCall_body {path : List UInt8} {argv : List (List UInt8)} {entryRsp : Nat}
    (lower : cfg.LowerHalf)
    (serves : Serves m t i p) (idle : m.continuation t = .toUser) : ∃ m₁,
    Body cfg t (.exec path argv) m.kernel m₁.kernel ∧
      EndsFrom t m₁ (m.finishCall t (.exec path argv) entryRsp
      ((do exec cfg path argv; pure 0 : Prog Kernel Nat) m.kernel)) := by
  obtain ⟨frame, tf⟩ := Option.ne_none_iff_exists'.mp serves.owns.tf
  rw [Prog.bind_run, exec_run serves.toCurrent tf]
  cases found : cfg.lookup path with
  | none => exact finish_body (m := m) call _ _ .same
  | some image =>
    have spec := prepareExecImage_spec cfg.mapper argv (lower path image found).confined
      call.kept.separate.available_nodup
    dsimp only
    cases prepared : prepareExecImage cfg.mapper image argv m.kernel.mem with
    | panic message => exact ⟨m, .same, .stop message⟩
    | err message mem' =>
      have kept := call.kept.execFails lower found prepared
      exact (call.setMem kept (spec.of_err prepared).cr3).finish_body _ _ (.mem (.inr ⟨_, _, rfl⟩))
    | ok r mem' => exact (call.committed _ lower serves idle found prepared).finish_body _ _ (.exec serves.pid tf)

theorem killCall_body {pid entryRsp : Nat} : ∃ m₁,
    Body cfg t (.kill pid) m.kernel m₁.kernel ∧ EndsFrom t m₁ (m.finishCall t (.kill pid) entryRsp
      ((do kill pid; pure 0 : Prog Kernel Nat) m.kernel)) := by
  have spec := kill_spec m.kernel pid
  rw [Prog.bind_run]
  revert spec
  cases kill pid m.kernel with
  | panic message => exact fun impossible => impossible.elim
  | err message k =>
    rintro rfl
    exact finish_body (m := m) call _ _ .same
  | ok _ k =>
    rintro ⟨j, q, -, entry, -, rfl⟩
    exact (call.mark entry).finish_body _ _ (.kill entry)

theorem sbrkCall_body {n : Int} {entryRsp : Nat} (serves : Serves m t i p) : ∃ m₁,
    Body cfg t (.sbrk n) m.kernel m₁.kernel ∧
      EndsFrom t m₁ (m.finishCall t (.sbrk n) entryRsp (sbrk cfg n m.kernel)) := by
  have spec := sbrk_spec cfg serves.toCurrent serves.table serves.whole.heap
    (call.kept.separate.owned_nodup serves.inside serves.root) (serves.slots call.kept) n
  revert spec
  cases sbrk cfg n m.kernel with
  | panic message => exact fun _ => ⟨m, .same, .stop message⟩
  | err message k =>
    rintro ⟨mem', rfl, conserves⟩
    exact (call.moved serves conserves).finish_body _ _ (.mem (.inl
      (call.kept.separate.ledger_conserve serves.inside serves.root conserves)))
  | ok value k =>
    rintro ⟨-, mem', rfl, conserves⟩
    exact (call.moved serves conserves).finish_body _ _ (.mem (.inl
      (call.kept.separate.ledger_conserve serves.inside serves.root conserves)))

theorem waitLoop_body {r : Nat} (serves : Serves m t i p) (copy : c.pid = i)
    (spared : c.killed = false) : ∃ m₁,
    Body cfg t .wait m.kernel m₁.kernel ∧ EndsFrom t m₁ (m.waitLoop t c r) := by
  rcases call.waitLoop_cases (r := r) serves copy spared with ⟨-, -, ends⟩ | ⟨-, -, yields⟩ |
    ⟨j, z, tid, f, mem', found, entry, -, owns, table, freed, reaped, -, ends⟩
  · rw [ends]
    exact finish_body call _ _ .same
  · rw [yields]
    exact ⟨m, .same, .inl (onSyscallYield_touches _ serves.tid)⟩
  · obtain ⟨z', -, -, entry', zombie, -, -, -, other, -⟩ := serves.child call.kept found
    obtain rfl := Option.some.inj (entry'.symm.trans entry)
    rw [ends]
    refine reaped.finish_body _ _ (.reap serves.pid found owns zombie ?_ entry table freed)
    rintro rfl
    exact other (Option.some.inj (owns.pid.symm.trans serves.pid))

/-- What a call does: its body, and what comes after. -/
theorem dispatch_body {rsp : Nat} (what : Call) (lower : cfg.LowerHalf) (serves : Serves m t i p)
    (spared : p.killed = false) (idle : m.continuation t = .toUser) : ∃ m₁,
    Body cfg t what m.kernel m₁.kernel ∧ EndsFrom t m₁ (m.dispatch cfg t rsp what) := by
  cases what with
  | fork kstack => exact call.forkCall_body serves
  | exec path argv => exact call.execCall_body lower serves idle
  | getpid =>
    rw [Machine.dispatch, serves.toCurrent.getpid_run]
    exact finish_body (m := m) call _ _ .same
  | exit status => exact ⟨m, .same, .inl (sysExit_touches serves _ _)⟩
  | wait =>
    rw [Machine.dispatch, serves.toCurrent.currentProcess_run]
    exact call.waitLoop_body serves serves.whole.pid spared
  | kill pid => exact call.killCall_body
  | sbrk n => exact call.sbrkCall_body serves
  | other => exact finish_body call _ _ .same

end InCall

theorem Switched.keeps {next : Nat} (switched : Switched next k k') (u : Nat) :
    (k.threadTable u).Keeps (k'.threadTable u) := by
  obtain ⟨state, thread, same | ⟨ready, is⟩, -⟩ := switched.threads u
  · rw [thread, same]
    exact .refl
  · rw [thread]
    refine ⟨rfl, rfl, iff_of_false ?_ ready.started.1, fun zombie => ?_⟩
    · rcases is with rfl | rfl <;> exact (nomatch ·)
    · rcases ready with was | was <;> cases zombie.symm.trans was

/-- The chosen thread is running, when it is not the current one. -/
theorem markNext_chosen {next : Nat} (other : k.cpu.currentTid ≠ some next) :
    ((markNext k next).threadTable next).state = .running := by
  have chosen : (setState k next .running).threadTable next = { k.threadTable next with state := .running } :=
    Kernel.setThread_at ..
  rw [markNext]
  cases current : (setState k next .running).cpu.currentTid with
  | none => rw [chosen]
  | some cur =>
    have apart : next ≠ cur := by
      rintro rfl
      exact other current
    simp only
    split
    · rw [setState, Kernel.setThread_ne _ apart, chosen]
    · rw [chosen]

theorem prepareSwitch_switched {next : Nat} (kept : Kept cfg m)
    (found : findNextRunnableThread m.kernel = some next) :
    ∃ k, prepareSwitch next m.kernel = .ok () k ∧ Switched next m.kernel k := by
  obtain ⟨-, runnable⟩ := findNextRunnableThread_spec found
  obtain ⟨pageTable, run, -⟩ := prepareSwitch_run runnable kept.alone kept.coherent
  have rest := markNext_rest m.kernel next
  have threads : (m.kernel.switched next pageTable).threadTable = (markNext m.kernel next).threadTable := rfl
  have roots : (m.kernel.switched next pageTable).roots = m.kernel.roots := by
    change (markNext m.kernel next).roots = _
    rw [rest]
    rfl
  have heaps : (m.kernel.switched next pageTable).heaps = m.kernel.heaps := by
    change (markNext m.kernel next).heaps = _
    rw [rest]
    rfl
  refine ⟨_, run, ⟨?_, ?_, roots, heaps⟩, ?_, ?_, rfl, runnable, fun u => ?_, fun other => ?_⟩
  · change (markNext m.kernel next).mem.ram = _
    rw [rest]
  · change (markNext m.kernel next).mem.frameAllocator = _
    rw [rest]
  · change (markNext m.kernel next).kernelStacks = _
    rw [rest]
  · change (markNext m.kernel next).trapFrames = _
    rw [rest]
  · rw [threads]
    exact markNext_threads runnable kept.alone u
  · rw [threads]
    exact markNext_chosen other

theorem calling_thread (m : Machine) (t rsp : Nat) (regs : TrapFrame) :
    (m.calling t rsp regs).kernel.threadTable t =
    { m.kernel.threadTable t with tf := some (m.kernel.cpu.kernelSyscallRsp - 96) } :=
    Function.update_self ..

theorem calling_ne {u : Nat} (m : Machine) (rsp : Nat) (regs : TrapFrame) (other : u ≠ t) :
    (m.calling t rsp regs).kernel.threadTable u = m.kernel.threadTable u :=
    Function.update_of_ne other ..

theorem schedule_shape (kept : Kept cfg m) (here : m.pc = .scheduler) :
    Shape cfg m m.schedule .schedule := by
  rw [Machine.schedule]
  cases found : findNextRunnableThread m.kernel with
  | none => exact .idle rfl here here
  | some next =>
      obtain ⟨k, run, switched⟩ := prepareSwitch_switched kept found
      simp only [run]
      have spaces := switched.spaces
      exact .switch here found ⟨⟨spaces.ram, spaces.frameAllocator, spaces.roots, spaces.heaps⟩,
        switched.kernelStacks, switched.trapFrames, switched.current, switched.runnable,
        switched.threads, switched.chosen⟩ rfl

theorem InUser.tick_shape (user : InUser cfg m t) : Shape cfg m m.userTick .tick := by
  rcases user.inCall.unlessKilled_cases (fun m => m.onYield .toUser) with left | goes
  · exact .tick left.1 left.2
  · rw [Machine.userTick, goes]
    obtain ⟨touches, away⟩ := onYield_touches .toUser user.cpu.tid
    exact .tick touches away

theorem InUser.call_shape {rsp : Nat} {regs : TrapFrame} (user : InUser cfg m t) (what : Call)
    (here : m.pc = .user t)
    (lower : cfg.LowerHalf) : Shape cfg m (m.syscall cfg t rsp regs what)
    (.call rsp regs what) := by
  obtain ⟨i, p, serves⟩ := user.serves
  have entered := user.serves_entered rsp regs serves
  rw [Machine.syscall, entered.toCurrent.unlessKilled_run rfl]
  split
  case isTrue killed =>
    obtain ⟨touches, away⟩ := sysExit_touches entered RET_ERROR true
    exact .killed here serves killed touches away
  case isFalse alive =>
    have spared := Bool.eq_false_iff.mpr alive
    have calling := user.calling rsp regs
    obtain ⟨m₁, body, ends⟩ :=
      calling.inCall.dispatch_body what lower (user.serves_calling rsp regs serves)
      spared calling.idle
    exact .call here serves spared body ends

theorem proceed_shape (kept : Kept cfg m) (here : m.pc = .kernel t) (cpu : OnCpu m t)
    (step : m.proceed t = some m') : Shape cfg m m' .proceed := by
  rw [Machine.proceed] at step
  cases cont : m.continuation t with
  | kthread => simp [cont] at step
  | lost =>
      simp only [cont, Option.some.injEq] at step
      exact step ▸ .proceed here .same (.stop (m := m) _)
  | exited =>
      simp only [cont, Option.some.injEq] at step
      exact step ▸ .proceed here .same (.stop (m := m.swapgs) _)
  | toUser =>
      simp only [cont, Option.some.injEq] at step
      exact step ▸ @Shape.proceed _ _ _ _ m here .same (.inr ⟨rfl, rfl⟩)
  | wait c r =>
      simp only [cont, Option.some.injEq] at step
      subst step
      obtain ⟨pid, spared, -⟩ := kept.waits t c r cpu.ready cont
      have call : InCall cfg m t := ⟨kept, cpu, by simp [pid], UserCode.of_wait cont⟩
      obtain ⟨i, p, serves⟩ := call.serves
      obtain ⟨m₁, body, ends⟩ :=
        InCall.waitLoop_body (m := m.swapgs) (r := r) (call.congr rfl kept.swapgs)
        (serves.congr rfl) (Option.some.inj (pid.symm.trans serves.pid)) spared
      exact .proceed here body ends

/-- Every step has its shape. -/
theorem step_shape {event : Event} (lower : cfg.LowerHalf) (inv : m.Inv cfg)
    (taken : step cfg m event = some m') :
    Shape cfg m m' event := by
  have ⟨kept, pc⟩ := inv
  cases event with
  | schedule =>
      simp only [step, Option.ite_none_right_eq_some, Option.some.injEq] at taken
      exact taken.2 ▸ schedule_shape kept taken.1
  | lateTick =>
      simp only [step, Option.ite_none_right_eq_some] at taken
      obtain ⟨⟨here, -⟩, taken⟩ := taken
      cases found : findNextRunnableThread m.kernel with
      | none => simp [found] at taken
      | some next =>
          obtain ⟨k, run, switched⟩ := prepareSwitch_switched kept found
          simp only [found, run, Option.some.injEq] at taken
          obtain ⟨touches, away⟩ := onYield_touches (m := m.setKernel k) .lost switched.current
          exact taken ▸ .late here found switched touches away
  | tick =>
      simp only [step] at taken
      have yields : ∀ cont u, m.kernel.cpu.currentTid = some u →
        Shape cfg m (m.onYield cont) .tick := fun cont u current =>
        .tick (onYield_touches cont current).1 (onYield_touches cont current).2
      cases here : m.pc with
      | stopped message => simp [here] at taken
      | scheduler =>
          simp only [here, Option.ite_none_right_eq_some, Option.some.injEq] at taken
          obtain ⟨-, rfl⟩ := taken
          cases current : m.kernel.cpu.currentTid with
          | some u => exact yields _ u current
          | none =>
              rw [Machine.onYield]
              have none' : (m.setKernel
                (m.kernel.setCr3 m.kernel.kernelPageTableFrame)).kernel.cpu.currentTid = none :=
                current
              simp only [none']
              exact .tick (t := 0) (.of_threads ⟨rfl, rfl, rfl, rfl⟩ rfl rfl rfl rfl) (.inl here)
      | user u =>
          simp only [here, Option.some.injEq] at taken
          exact taken ▸ (inv.user here).tick_shape
      | kernel u =>
          simp only [here] at taken pc
          cases cont : m.continuation u with
          | toUser =>
              simp only [cont, Option.some.injEq] at taken
              exact taken ▸ yields _ u pc.1.tid
          | kthread =>
              simp only [cont, Option.some.injEq] at taken
              exact taken ▸ yields _ u pc.1.tid
          | _ => simp [cont] at taken
  | proceed =>
      simp only [step] at taken
      cases here : m.pc with
      | kernel u =>
          simp only [here] at taken pc
          exact proceed_shape kept here pc.1 taken
      | _ => simp [here] at taken
  | call rsp regs what =>
      simp only [step] at taken
      cases here : m.pc with
      | user u =>
          simp only [here, Option.some.injEq] at taken
          exact taken ▸ (inv.user here).call_shape what here lower
      | _ => simp [here] at taken

theorem steps_always {good : Machine → Event → Prop} {I : Machine → Prop} {m₀ : Machine}
    (lower : cfg.LowerHalf)
    (inv : m₀.Inv cfg) (start : I m₀)
    (steps : ∀ m m' event, m.Inv cfg → good m event → step cfg m event = some m' → I m → I m')
    (run : Relation.ReflTransGen
    (fun m m' => ∃ event, good m event ∧ step cfg m event = some m') m₀ m) :
    m.Inv cfg ∧ I m := by
  induction run with
  | refl => exact ⟨inv, start⟩
  | tail _ step ih =>
      obtain ⟨event, meets, taken⟩ := step
      exact ⟨(step_leads lower ih.1 taken).inv,
        steps _ _ event ih.1 meets taken ih.2⟩

/-- A run whose steps all meet a condition. -/
def RunsWhen (cfg : Config) (good : Machine → Event → Prop) (m : Machine) : Prop :=
  ∃ m₀, Boots cfg m₀ ∧
    Relation.ReflTransGen (fun m m' => ∃ event, good m event ∧ step cfg m event = some m') m₀ m

namespace RunsWhen

variable {good : Machine → Event → Prop}

theorem reachable (run : RunsWhen cfg good m) : Reachable cfg m := by
  obtain ⟨m₀, boots, steps⟩ := run
  exact ⟨m₀, boots, Relation.ReflTransGen.mono
    (fun _ _ ⟨event, _, taken⟩ => ⟨event, taken⟩) _ _ steps⟩

theorem always {I : Machine → Prop} (lower : cfg.LowerHalf) (boots : ∀ m, Boots cfg m → I m)
    (steps : ∀ m m' event, m.Inv cfg → good m event → step cfg m event = some m' → I m → I m')
    (run : RunsWhen cfg good m) : I m := by
  obtain ⟨m₀, boot, run⟩ := run
  exact (steps_always lower (boot.inv lower) (boots m₀ boot) steps run).2

end RunsWhen

/-- A property of threads that new threads have holds of the threads of the boot. -/
theorem Boots.threads {P : Thread → Prop} (blank : P .new)
    (kernel : ∀ kstack tid, P (kernelThread kstack tid .new))
    (user : ∀ kstack pid tid prepared, P (startThread kstack pid tid prepared))
    (lower : cfg.LowerHalf)
    (boots : Boots cfg m) (t : Nat) : P (m.kernel.threadTable t) := by
  obtain ⟨memory, created⟩ := boots
  have update : ∀ {k k' : Kernel} {tid : Nat} {thread : Thread}, (∀ t, P (k.threadTable t)) →
    P thread →
      k'.threadTable = Function.update k.threadTable tid thread → ∀ t, P (k'.threadTable t) := by
    intro k k' tid thread old new threads t
    by_cases here : t = tid
    · subst here
      rw [threads, Function.update_self]
      exact new
    · rw [threads, Function.update_of_ne here]
      exact old t
  refine (Outcome.Sat.of_ok (K := True) (Q := fun _ k => Booted k ∧ ∀ t, P (k.threadTable t))
    (E := fun _ _ => True) ?_
    created).2 t
  refine Outcome.Sat.each_keep (fun k => Booted k ∧ ∀ t, P (k.threadTable t)) _
    (fun creation _ k ⟨booted, old⟩ => ?_)
    ⟨.initial memory, fun _ => blank⟩
  cases creation with
  | kernelThread kstack =>
      rw [create]
      cases made : createKernelThread kstack k with
      | ok _ k' =>
          obtain ⟨tid, free, -, threads, -⟩ := createKernelThread_ok made
          have empty : k.threadTable tid = .new :=
            (booted.threads tid).resolve_right fun waiting => by
            cases (freeTid_spec free).2.symm.trans waiting.1
          rw [empty] at threads
          exact ⟨booted.kernelThread made, update old (kernel kstack tid) threads⟩
      | err message k' => trivial
      | panic message => trivial
  | userProcess kstack path =>
      rw [create]
      cases made : createUserProcessFromPath cfg kstack path k with
      | ok _ k' =>
          obtain ⟨-, prepared, -, pid, tid, -, -, -, -, -, threads, -⟩ :=
            createUserProcessFromPath_ok made
          exact ⟨booted.userProcess lower made, update old (user kstack pid tid prepared) threads⟩
      | err message k' => trivial
      | panic message => trivial

end FerriOS.System
