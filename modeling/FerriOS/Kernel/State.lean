import FerriOS.Exec.Image

/-! # Kernel state

The tables of the kernel: processes, threads, the CPU record, and next to them
the memory of `MemState`. Pids and tids are plain numbers, as in the source; a
table access out of range panics.
-/

namespace FerriOS.System

open FerriOS.Lib FerriOS.Memory FerriOS.Loader

def NPROCESS : Nat := 16
def NTHREAD_PER_PROCESS : Nat := 8
def NTHREAD : Nat := 64

def RET_SUCCESS : Int := 0
def RET_ERROR : Int := -1

inductive ProcessState where
  | unused
  | alive
  | zombie
  deriving DecidableEq, Repr

inductive ThreadState where
  | unused
  | embryo
  | sleeping
  | runnable
  | running
  | zombie
  deriving DecidableEq, Repr

/-- Where a saved context goes on: the start of a thread, or the return from
    `switch_context` in one of its callers. -/
inductive CodeAddr where
  | null
  | kthreadEntry
  | initProcessRing3EntryTrampoline
  | forkReturnTrampoline
  | onYield
  | onSyscallYield
  | schedulerLoop
  deriving DecidableEq, Repr

structure Context where
  rsp : Nat
  rip : CodeAddr
  rflags : Nat
  cs : Nat
  ss : Nat
  rsp3 : Nat
  userRip : Nat
  userRdi : Nat
  userRsi : Nat
  deriving DecidableEq, Repr

def Context.new : Context := ⟨0, .null, 0, 0, 0, 0, 0, 0, 0⟩

/-- The registers saved on the kernel stack. -/
structure TrapFrame where
  r15 : Nat
  r14 : Nat
  r13 : Nat
  r12 : Nat
  rbp : Nat
  rbx : Nat
  rdx : Nat
  rsi : Nat
  rdi : Nat
  rax : Nat
  r11 : Nat
  rcx : Nat
  rip : Nat
  rsp : Nat
  deriving DecidableEq, Repr

def TrapFrame.new : TrapFrame := ⟨0, 0, 0, 0, 0, 0, 0, 0, 0, 0, 0, 0, 0, 0⟩

/-- `size_of::<TrapFrame>()`. -/
def TRAP_FRAME_SIZE : Nat := 112

structure Thread where
  tid : Nat
  pid : Option Nat
  state : ThreadState
  context : Context
  /-- The top of the kernel stack. -/
  kstack : Nat
  /-- The address of the trap frame. -/
  tf : Option Nat
  deriving DecidableEq, Repr

def Thread.new : Thread := ⟨0, none, .unused, .new, 0, none⟩

structure Process where
  pid : Nat
  ppid : Option Nat
  state : ProcessState
  /-- The threads of the process; the source's array has `NTHREAD_PER_PROCESS` slots,
      filled from the front. -/
  threads : List Nat
  pageTable : Option PhysFrame
  exitStatus : Int
  killed : Bool
  heapSize : Nat
  deriving DecidableEq

/-- The entry that `free_process` leaves behind. -/
def Process.new : Process := ⟨0, none, .unused, [], none, RET_SUCCESS, false, 0⟩

/-- The process owns an address space: it runs, or waits to be reaped. -/
def Process.live (p : Process) : Bool := p.state == .alive || p.state == .zombie

structure Cpu where
  scheduler : Context
  currentTid : Option Nat
  savedUserRsp : Nat
  kernelSyscallRsp : Nat

/-- The state of the kernel. -/
structure Kernel where
  mem : MemState
  kernelPageTableFrame : PhysFrame
  processTable : Nat → Option Process
  threadTable : Nat → Thread
  cpu : Cpu
  /-- `TSS.rsp0`. -/
  privilegeStack0 : Nat
  /-- The trap frames that were written, by address. -/
  trapFrames : Nat → TrapFrame
  /-- The kernel stacks that are allocated, by their lowest address. -/
  kernelStacks : List Nat

/-- What is fixed for a build and its programs: whether integer overflow panics,
    the mapper of the x86_64 crate, and the table of user programs. -/
structure Config where
  overflowChecks : Bool
  mapper : Mapper
  lookup : List UInt8 → Option (List UInt8)

namespace Kernel

def setProcess (k : Kernel) (pid : Nat) (p : Option Process) : Kernel :=
  { k with processTable := Function.update k.processTable pid p }

def setThread (k : Kernel) (tid : Nat) (t : Thread) : Kernel :=
  { k with threadTable := Function.update k.threadTable tid t }

def setMem (k : Kernel) (mem : MemState) : Kernel := { k with mem }

def setCpu (k : Kernel) (cpu : Cpu) : Kernel := { k with cpu }

def setTrapFrame (k : Kernel) (tf : Nat) (frame : TrapFrame) : Kernel :=
  { k with trapFrames := Function.update k.trapFrames tf frame }

/-- Load CR3. -/
def setCr3 (k : Kernel) (pageTable : PhysFrame) : Kernel :=
  k.setMem { k.mem with cr3 := pageTable }

/-- The process that the current thread belongs to. -/
def currentPid (k : Kernel) : Option Nat := k.cpu.currentTid.bind fun tid => (k.threadTable tid).pid

end Kernel

/-- Run a memory routine. -/
def onMem {α : Type} (x : Prog MemState α) : Prog Kernel α :=
  x.zoom (·.mem) fun mem k => k.setMem mem

/-- `process_table[pid]`. -/
def processAt (pid : Nat) : Prog Kernel (Option Process) := do
  let k ← .get
  if pid < NPROCESS then pure (k.processTable pid) else .crash "index out of bounds"

/-- `process_table[pid] = p`. -/
def putProcess (pid : Nat) (p : Option Process) : Prog Kernel Unit := do
  let _ ← processAt pid
  .modify (·.setProcess pid p)

/-- `thread_table[tid]`. -/
def threadAt (tid : Nat) : Prog Kernel Thread := do
  let k ← .get
  if tid < NTHREAD then pure (k.threadTable tid) else .crash "index out of bounds"

/-- `thread_table[tid] = t`. -/
def putThread (tid : Nat) (t : Thread) : Prog Kernel Unit := do
  let _ ← threadAt tid
  .modify (·.setThread tid t)

/-- `cpu.current_thread()`. -/
def currentThread : Prog Kernel (Option Thread) := do
  let k ← .get
  match k.cpu.currentTid with
  | none => pure none
  | some tid => do
      let thread ← threadAt tid
      pure (some thread)

/-- `cpu.current_pid()`. -/
def currentPid : Prog Kernel (Option Nat) := do
  let thread ← currentThread
  pure (thread.bind (·.pid))

/-- `cpu.current_process()`. -/
def currentProcess : Prog Kernel (Option Process) := do
  match ← currentPid with
  | none => pure none
  | some pid => processAt pid

/-- `a + b` on `usize`: with overflow checks a sum that does not fit panics,
    without them it wraps. -/
def usizeAdd (cfg : Config) (a b : Nat) : Prog Kernel Nat :=
  if a + b < 2 ^ 64 then pure (a + b)
  else if cfg.overflowChecks then .crash "attempt to add with overflow"
  else pure ((a + b) % 2 ^ 64)

end FerriOS.System
