import FerriOS.Kernel.Calls

/-! # The machine

One CPU with the scheduler loop, the timer interrupt, and system calls. A step is
what runs between two points where something else can come in: a round of the
scheduler loop, a timer tick, what follows a context switch, a system call up to
its return or its switch to the scheduler. System calls run with interrupts off.

The `history` is no part of the kernel. It records what user programs can see of
it, the last entry first.
-/

namespace FerriOS.System

open FerriOS.Lib FerriOS.Memory FerriOS.Loader

/-- A system call with its arguments. `fork` comes with what the kernel heap
    returns for the stack of the child; `other` are the calls that print, and
    `uptime`, which change nothing of this state. -/
inductive Call where
  | fork (kstack : Nat)
  | exec (path : List UInt8) (argv : List (List UInt8))
  | getpid
  | exit (status : Int)
  | wait
  | kill (pid : Nat)
  | sbrk (n : Int)
  | other

inductive Reply where
  | value (n : Nat)
  | reaped (pid : Nat) (status : Int)
  | failed (message : String)
  deriving DecidableEq

/-- What is on the kernel stack of a thread that was switched away from, or that
    has not run so far: what the thread goes on with. -/
inductive Cont where
  | toUser
  | kthread
  | wait (process : Process) (entryRsp : Nat)
  | exited
  /-- The stack frames of the scheduler loop, which the loop overwrites. -/
  | lost

/-- Where the CPU executes. -/
inductive Pc where
  | scheduler
  | kernel (tid : Nat)
  | user (tid : Nat)
  | stopped (message : String)
  deriving DecidableEq

inductive GsBase where
  | user
  | cpu
  deriving DecidableEq

structure Gs where
  base : GsBase
  kernelBase : GsBase
  deriving DecidableEq

/-- `swapgs`. -/
def Gs.swap (gs : Gs) : Gs := ⟨gs.kernelBase, gs.base⟩

inductive Entry where
  /-- `syscall_entry` reads or writes the CPU record through `gs`. -/
  | gsAccess (base : GsBase)
  /-- A system call returns to user mode. -/
  | returned (tid pid : Nat) (call : Call) (reply : Reply) (entryRsp exitRsp : Nat)
  /-- `fork` made a child. -/
  | forked (parent child : Nat)
  /-- A process exited, by its own call or because it was killed. -/
  | exited (pid : Nat) (status : Int) (killed : Bool)
  /-- `wait` reaped a child. -/
  | reaped (parent child : Nat) (status : Int)

structure Machine where
  kernel : Kernel
  pc : Pc
  /-- The scheduler loop runs with interrupts on once it has been idle. -/
  interrupts : Bool
  gs : Gs
  /-- The kernel stacks, by thread. -/
  stack : Nat → Cont
  history : List Entry

namespace Machine

def stop (m : Machine) (message : String) : Machine := { m with pc := .stopped message }

def swapgs (m : Machine) : Machine := { m with gs := m.gs.swap }

def record (m : Machine) (entry : Entry) : Machine := { m with history := entry :: m.history }

def setKernel (m : Machine) (k : Kernel) : Machine := { m with kernel := k }

/-- What a thread goes on with when it is switched to. -/
def continuation (m : Machine) (tid : Nat) : Cont :=
  match (m.kernel.threadTable tid).context.rip with
  | .initProcessRing3EntryTrampoline => .toUser
  | .forkReturnTrampoline => .toUser
  | .kthreadEntry => .kthread
  | .onYield => m.stack tid
  | .onSyscallYield => m.stack tid
  | .null => .lost
  | .schedulerLoop => .lost

end Machine

/-- The next runnable thread after the current one, which comes last. -/
def findNextRunnableThread (k : Kernel) : Option Nat :=
  let currentTid := k.cpu.currentTid.getD (NTHREAD - 1)
  ((List.range NTHREAD).map fun i => (currentTid + (i + 1)) % NTHREAD).find? fun tid =>
    (k.threadTable tid).state == .runnable

def setState (k : Kernel) (tid : Nat) (state : ThreadState) : Kernel :=
  k.setThread tid { k.threadTable tid with state }

/-- The bookkeeping of the scheduler: the chosen thread becomes running, and then
    the current thread, when it is running, runnable. -/
def markNext (k : Kernel) (next : Nat) : Kernel :=
  let k := setState k next .running
  match k.cpu.currentTid with
  | none => k
  | some current =>
      if (k.threadTable current).state = .running then setState k current .runnable else k

/-- Load the page table of the chosen thread. -/
def switchPageTable (next : Nat) : Prog Kernel Unit := do
  let k ← .get
  match (k.threadTable next).pid with
  | none => .modify fun k => k.setCr3 k.kernelPageTableFrame
  | some pid => do
      let process ← .expect "process_table does not have the process" (← processAt pid)
      let pageTable ← .expect "this process does not have a page-table" process.pageTable
      .modify (·.setCr3 pageTable)

/-- The scheduler has chosen a thread: everything up to the context switch. -/
def prepareSwitch (next : Nat) : Prog Kernel Unit := do
  .modify fun k => markNext k next
  .modify fun k => k.setCpu { k.cpu with currentTid := some next }
  switchPageTable next
  .modify fun k => { k.setCpu { k.cpu with
      kernelSyscallRsp := (k.threadTable next).kstack
      savedUserRsp := (k.threadTable next).context.rsp3 } with
    privilegeStack0 := (k.threadTable next).kstack - TRAP_FRAME_SIZE }

namespace Machine

/-- The context of the scheduler loop is saved, and the thread goes on. -/
def switchTo (m : Machine) (next : Nat) : Machine :=
  { m with
    kernel := m.kernel.setCpu { m.kernel.cpu with
      scheduler := { m.kernel.cpu.scheduler with rip := .schedulerLoop } }
    pc := .kernel next }

/-- One round of the scheduler loop. Without a runnable thread it turns interrupts
    on and waits for one. -/
def schedule (m : Machine) : Machine :=
  match findNextRunnableThread m.kernel with
  | none => { m with interrupts := true }
  | some next =>
      match prepareSwitch next m.kernel with
      | .ok _ k => (m.setKernel k).switchTo next
      | .err message _ => m.stop message
      | .panic message => m.stop message

/-- Go on with the scheduler loop, which has no context before its first switch. -/
def toScheduler (m : Machine) : Machine :=
  if m.kernel.cpu.scheduler.rip = .schedulerLoop then { m with pc := .scheduler }
  else m.stop "page fault"

/-- Save the context of a thread that was in the middle of `cont`. -/
def save (m : Machine) (tid : Nat) (rip : CodeAddr) (cont : Cont) : Machine :=
  { m with
    kernel := m.kernel.setThread tid { m.kernel.threadTable tid with
      context := { (m.kernel.threadTable tid).context with rip } }
    stack := Function.update m.stack tid cont }

/-- `on_yield`, from code that would go on with `cont`. Without a current thread
    it returns to that code. -/
def onYield (m : Machine) (cont : Cont) : Machine :=
  let m := m.setKernel (m.kernel.setCr3 m.kernel.kernelPageTableFrame)
  match m.kernel.cpu.currentTid with
  | none => m
  | some tid =>
      if (m.kernel.threadTable tid).state ≠ .running then
        m.stop "CPU has current_tid but the thread is not Running"
      else ((m.setKernel (setState m.kernel tid .runnable)).save tid .onYield cont).toScheduler

/-- `on_syscall_yield`, from a system call that would go on with `cont`. -/
def onSyscallYield (m : Machine) (cont : Cont) : Machine :=
  let m := m.setKernel (m.kernel.setCr3 m.kernel.kernelPageTableFrame)
  match m.kernel.cpu.currentTid with
  | none => m.stop "no current thread"
  | some tid =>
      let thread := m.kernel.threadTable tid
      let m := m.setKernel (m.kernel.setThread tid
        { thread with context := { thread.context with rsp3 := m.kernel.cpu.savedUserRsp } })
      (m.save tid .onSyscallYield cont).swapgs.toScheduler

/-- The pid of the process that runs. -/
def pid (m : Machine) : Nat := m.kernel.currentPid.getD 0

/-- `sys_exit`; a return of `exit` is a panic. -/
def sysExit (m : Machine) (status : Int) (killed : Bool) : Machine :=
  match exit status m.kernel with
  | .ok _ k => ((m.setKernel k).record (.exited m.pid status killed)).onSyscallYield .exited
  | .err _ _ => m.stop "why exit returns..?"
  | .panic message => m.stop message

/-- `exit_if_current_process_killed`, then `rest`. -/
def unlessKilled (m : Machine) (rest : Machine → Machine) : Machine :=
  match currentProcess m.kernel with
  | .ok (some process) _ => if process.killed then m.sysExit RET_ERROR true else rest m
  | .ok none _ => m.stop "no process"
  | .err message _ => m.stop message
  | .panic message => m.stop message

/-- The end of `syscall_dispatch`, and the way back to user mode, which leaves the
    kernel stack empty. -/
def finish (m : Machine) (tid : Nat) (call : Call) (entryRsp : Nat) (reply : Reply) : Machine :=
  m.unlessKilled fun m =>
    let m := (m.record (.gsAccess m.gs.base)).record
      (.returned tid m.pid call reply entryRsp m.kernel.cpu.savedUserRsp)
    { m.swapgs with pc := .user tid, stack := Function.update m.stack tid .toUser }

/-- A call that neither yields nor exits. -/
def finishCall (m : Machine) (tid : Nat) (call : Call) (entryRsp : Nat)
    (outcome : Outcome Kernel Nat) :
    Machine :=
  match outcome with
  | .ok value k => (m.setKernel k).finish tid call entryRsp (.value value)
  | .err message k => (m.setKernel k).finish tid call entryRsp (.failed message)
  | .panic message => m.stop message

def forkCall (m : Machine) (tid : Nat) (entryRsp kstack : Nat) : Machine :=
  match fork kstack m.kernel with
  | .ok child k => ((m.setKernel k).record (.forked m.pid child)).finish tid
      (.fork kstack) entryRsp (.value child)
  | .err message k => (m.setKernel k).finish tid (.fork kstack) entryRsp (.failed message)
  | .panic message => m.stop message

/-- A round of `wait`, which ends the call or yields. -/
def waitLoop (m : Machine) (tid : Nat) (process : Process) (entryRsp : Nat) : Machine :=
  match waitRound process m.kernel with
  | .ok (some (pid, status)) k =>
      ((m.setKernel k).record (.reaped m.pid pid status)).finish tid .wait entryRsp
        (.reaped pid status)
  | .ok none k => (m.setKernel k).onSyscallYield (.wait process entryRsp)
  | .err message k => (m.setKernel k).finish tid .wait entryRsp (.failed message)
  | .panic message => m.stop message

/-- The body of a system call. -/
def dispatch (cfg : Config) (m : Machine) (tid entryRsp : Nat) (call : Call) : Machine :=
  match call with
  | .fork kstack => m.forkCall tid entryRsp kstack
  | .exec path argv => m.finishCall tid call entryRsp
      ((do exec cfg path argv; pure 0 : Prog Kernel Nat) m.kernel)
  | .getpid => m.finishCall tid call entryRsp (getpid m.kernel)
  | .exit status => m.sysExit status false
  | .wait =>
      match currentProcess m.kernel with
      | .ok (some process) _ => m.waitLoop tid process entryRsp
      | _ => m.stop "no pid"
  | .kill pid => m.finishCall tid call entryRsp ((do kill pid; pure 0 : Prog Kernel Nat) m.kernel)
  | .sbrk n => m.finishCall tid call entryRsp (sbrk cfg n m.kernel)
  | .other => m.finish tid call entryRsp (.value 0)

/-- The registers that `syscall_entry` pushes, twelve words below the stack top. -/
def entryFrame (k : Kernel) : Nat := k.cpu.kernelSyscallRsp - 96

/-- `syscall_entry` up to the call of `syscall_dispatch`. -/
def syscallEntry (m : Machine) (rsp : Nat) (regs : TrapFrame) : Machine :=
  let m := m.swapgs
  let m := m.record (.gsAccess m.gs.base)
  let k := m.kernel.setCpu { m.kernel.cpu with savedUserRsp := rsp }
  m.setKernel (k.setTrapFrame (entryFrame k) regs)

/-- `set_trapframe`. -/
def setTrapframe (k : Kernel) (tid : Nat) : Kernel :=
  k.setThread tid { k.threadTable tid with tf := some (entryFrame k) }

def syscall (cfg : Config) (m : Machine) (tid rsp : Nat) (regs : TrapFrame) (call : Call) :
    Machine :=
  (m.syscallEntry rsp regs).unlessKilled fun m =>
    (m.setKernel (setTrapframe m.kernel tid)).dispatch cfg tid rsp call

/-- A timer tick in user mode. -/
def userTick (m : Machine) : Machine :=
  m.unlessKilled fun m => m.onYield .toUser

/-- What a thread does after it was switched to. -/
def proceed (m : Machine) (tid : Nat) : Option Machine :=
  match m.continuation tid with
  | .toUser => some { m with pc := .user tid }
  | .kthread => none
  | .wait process entryRsp => some (m.swapgs.waitLoop tid process entryRsp)
  | .exited => some (m.swapgs.stop "zonbie exit")
  | .lost => some (m.stop "stack overwritten")

end Machine

inductive Event where
  | schedule
  /-- A tick between the choice of a thread and the switch to it. -/
  | lateTick
  | tick
  | proceed
  | call (rsp : Nat) (regs : TrapFrame) (call : Call)

/-- The step of an event, where it can happen. -/
def step (cfg : Config) (m : Machine) : Event → Option Machine
  | .schedule => if m.pc = .scheduler then some m.schedule else none
  | .lateTick =>
      if m.pc = .scheduler ∧ m.interrupts = true then
        match findNextRunnableThread m.kernel with
        | none => none
        | some next =>
            match prepareSwitch next m.kernel with
            | .ok _ k => some ((m.setKernel k).onYield .lost)
            | .err message _ => some (m.stop message)
            | .panic message => some (m.stop message)
      else none
  | .tick =>
      match m.pc with
      | .scheduler => if m.interrupts then some (m.onYield .lost) else none
      | .kernel tid =>
          match m.continuation tid with
          | .toUser => some (m.onYield .toUser)
          | .kthread => some (m.onYield .kthread)
          | _ => none
      | .user _ => some m.userTick
      | .stopped _ => none
  | .proceed =>
      match m.pc with
      | .kernel tid => m.proceed tid
      | _ => none
  | .call rsp regs call =>
      match m.pc with
      | .user tid => some (m.syscall cfg tid rsp regs call)
      | _ => none

/-- What the boot code creates before it starts the scheduler. -/
inductive Creation where
  | kernelThread (kstack : Nat)
  | userProcess (kstack : Nat) (path : List UInt8)

def create (cfg : Config) : Creation → Prog Kernel Unit
  | .kernelThread kstack => createKernelThread kstack
  | .userProcess kstack path => createUserProcessFromPath cfg kstack path

/-- The kernel when its memory is set up: empty tables, and the page table of the
    boot loader. -/
def Kernel.initial (mem : MemState) (privilegeStack0 : Nat) : Kernel where
  mem := mem
  kernelPageTableFrame := mem.cr3
  processTable := fun _ => none
  threadTable := fun _ => .new
  cpu := ⟨.new, none, 0, 0⟩
  privilegeStack0 := privilegeStack0
  trapFrames := fun _ => .new
  kernelStacks := []

def Machine.start (k : Kernel) : Machine where
  kernel := k
  pc := .scheduler
  interrupts := false
  gs := ⟨.user, .cpu⟩
  stack := fun _ => .lost
  history := []

/-- The memory that `memory::init` sets up: nothing is recycled. -/
structure BootMemory (mem : MemState) : Prop where
  map : MapAligned mem.frameAllocator.memoryMap
  recycled : mem.frameAllocator.recycledFrames = []

/-- The machine starts the scheduler after the boot code has created the first
    threads and processes. -/
inductive Boots (cfg : Config) : Machine → Prop where
  | intro (memory : BootMemory mem)
      (created : (Prog.each creations (create cfg)) (.initial mem rsp0) = .ok () k) :
      Boots cfg (.start k)

/-- One step of a run. -/
def Steps (cfg : Config) (m m' : Machine) : Prop := ∃ event, step cfg m event = some m'

/-- The states of all runs. -/
def Reachable (cfg : Config) (m : Machine) : Prop :=
  ∃ m₀, Boots cfg m₀ ∧ Relation.ReflTransGen (Steps cfg) m₀ m

end FerriOS.System
