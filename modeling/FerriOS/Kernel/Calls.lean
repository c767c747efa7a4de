import FerriOS.Kernel.Process

/-! # System calls

The process calls as the kernel runs them for the current process. `exit` and
`wait` end in a switch to the scheduler; here are the steps up to it: what `exit`
writes to the tables, and one round of the loop in `wait`.
-/

namespace FerriOS.System

open FerriOS.Lib FerriOS.Memory FerriOS.Loader

/-- The process that must not exit. -/
def INIT_PID : Nat := 0

/-- The context of a forked thread: it returns to user mode like its parent. -/
def forkContext (child : Thread) (parentTf : TrapFrame) (parentUserRsp : Nat) : Context :=
  { child.context with
    rip := .forkReturnTrampoline
    rsp := child.kstack - TRAP_FRAME_SIZE
    rsp3 := parentUserRsp
    userRip := parentTf.rcx
    userRdi := parentTf.rdi
    userRsi := parentTf.rsi }

/-- Create a child with a copy of the address space of the current process. `kstack`
    is what the kernel heap returns for the stack of the child. -/
def fork (kstack : Nat) : Prog Kernel Nat := do
  let process ← .expect "process not found" (← currentProcess)
  let child ← allocProc kstack
  let parentPageTable ← .expect "no page table" process.pageTable
  let pageTable ← onMem (copyUvm parentPageTable)
  let child := { child with pageTable := some pageTable, ppid := some process.pid }
  let k ← .get
  let parentTid ← .expect "no current thread" k.cpu.currentTid
  let parent ← threadAt parentTid
  let parentTf ← .expect "no trapframe" parent.tf
  let childTid ← firstThread "no child thread" child
  let thread ← threadAt childTid
  let childTf ← .expect "no trapframe" thread.tf
  .modify (·.setTrapFrame childTf
    { k.trapFrames parentTf with rax := 0, rsp := k.cpu.savedUserRsp })
  putThread childTid
    { thread with context := forkContext thread (k.trapFrames parentTf) k.cpu.savedUserRsp }
  let child := { child with heapSize := process.heapSize }
  putProcess child.pid (some child)
  markThreadsAsRunnable child
  pure child.pid

/-- `process_table.get(pid).and_then(|p| p.as_ref())`. -/
def Kernel.process? (k : Kernel) (pid : Nat) : Option Process :=
  if pid < NPROCESS then k.processTable pid else none

/-- `thread_table.get(tid)`. -/
def Kernel.thread? (k : Kernel) (tid : Nat) : Option Thread :=
  if tid < NTHREAD then some (k.threadTable tid) else none

/-- Put a prepared image in place of the image of the current process. -/
def applyExec (pid tid : Nat) (prepared : Exec) : Prog Kernel Unit := do
  let k ← .get
  let process ← .okOr "exec: process table entry missing" (k.process? pid)
  putProcess pid (some { process with
    pageTable := some prepared.pageTable, heapSize := prepared.heapSize })
  let thread ← .okOr "exec: thread table entry missing" (k.thread? tid)
  putThread tid { thread with context := { thread.context with
    rsp3 := prepared.userSp
    userRip := prepared.entry
    userRdi := prepared.argc
    userRsi := prepared.argvUserPtr } }
  let tf ← .okOr "exec: no trapframe" thread.tf
  .modify fun k => k.setTrapFrame tf { k.trapFrames tf with
    rax := 0, rdi := prepared.argc, rsi := prepared.argvUserPtr, rcx := prepared.entry }
  .modify fun k => k.setCpu { k.cpu with savedUserRsp := prepared.userSp }
  .modify (·.setCr3 prepared.pageTable)

/-- Undo an `applyExec` that failed half-way, from the state `old` before it. -/
def rollbackExec (pid tid : Nat) (old : Kernel) (process : Process) (thread : Thread)
    (tf : TrapFrame) : Prog Kernel Unit := do
  let k ← .get
  match k.process? pid with
  | none => pure ()
  | some p => putProcess pid (some { p with
      pageTable := process.pageTable, heapSize := process.heapSize })
  match k.thread? tid with
  | none => pure ()
  | some t => do
      putThread tid { t with context := thread.context }
      match t.tf with
      | none => pure ()
      | some addr => .modify (·.setTrapFrame addr tf)
  .modify fun k => k.setCpu { k.cpu with savedUserRsp := old.cpu.savedUserRsp }
  .modify (·.setCr3 old.mem.cr3)

def commitExec (prepared : Exec) : Prog Kernel Unit := do
  let old ← .get
  let tid ← .okOr "exec: no current thread id" old.cpu.currentTid
  let pid ← .okOr "exec: no current process id" (← currentPid)
  let process ← .okOr "exec: process table entry missing" (old.process? pid)
  let thread ← .okOr "exec: thread table entry missing" (old.thread? tid)
  let tf ← .okOr "exec: no trapframe" thread.tf
  match ← (applyExec pid tid prepared).attempt with
  | .ok _ => pure ()
  | .error message => do
      rollbackExec pid tid old process thread (old.trapFrames tf)
      .fail message

/-- Replace the image of the current process by the program of a path. -/
def exec (cfg : Config) (path : List UInt8) (argv : List (List UInt8)) : Prog Kernel Unit := do
  let elf ← .okOr "exec: program not found" (cfg.lookup path)
  let prepared ← onMem (prepareExecImage cfg.mapper elf argv)
  commitExec prepared

def getpid : Prog Kernel Nat := do
  .okOr "no process" (← currentPid)

/-- A thread of an exiting process becomes a zombie. -/
def zombieThread (process : Process) (tid : Nat) : Prog Kernel Unit := do
  let thread ← threadAt tid
  if thread.pid = some process.pid then putThread tid { thread with state := .zombie } else pure ()

/-- `exit` up to its switch to the scheduler, from which it never comes back. -/
def exit (status : Int) : Prog Kernel Unit := do
  let pid ← .okOr "no process" (← currentPid)
  if pid = INIT_PID then .fail "init exiting"
  else do
    let process ← .okOr "no process" (← processAt pid)
    let process := { process with state := .zombie, exitStatus := status }
    putProcess pid (some process)
    .each process.threads (zombieThread process)

/-- An entry of the process table is a child of `pid`. -/
def isChild (pid : Nat) (entry : Option Process) : Bool := entry.any (·.ppid == some pid)

def isZombie (entry : Option Process) : Bool := entry.any (·.state == .zombie)

/-- The first zombie child of `pid`; the last slot of the table is left out. -/
def zombieChild (pid : Nat) (k : Kernel) : Option Nat :=
  (List.range (NPROCESS - 1)).find? fun i =>
    isChild pid (k.processTable i) && isZombie (k.processTable i)

def havekids (pid : Nat) (k : Kernel) : Bool :=
  (List.range (NPROCESS - 1)).any fun i => isChild pid (k.processTable i)

/-- One round of `wait`, for the copy of the caller's entry that `wait` took when it
    was called. The result is the reaped child; without one the caller yields. -/
def waitRound (process : Process) : Prog Kernel (Option (Nat × Int)) := do
  let k ← .get
  match zombieChild process.pid k with
  | some i => do
      let child ← .expect "no child" (← processAt i)
      putProcess i none
      freeProcess child
      pure (some (child.pid, child.exitStatus))
  | none =>
      if !havekids process.pid k then .fail "no child process"
      else if process.killed then .fail "this process has killed"
      else pure none

/-- Mark the process with the given pid as killed. -/
def kill (pid : Nat) : Prog Kernel Unit := do
  let k ← .get
  let i ← .okOr "no process" ((List.range (NPROCESS - 1)).find? fun i =>
    (k.processTable i).any (·.pid == pid))
  let process ← .expect "called Option::unwrap() on a None value" (← processAt i)
  putProcess i (some { process with killed := true })

/-- `n as usize` of an `isize`. -/
def asUsize (n : Int) : Nat := (n % 2 ^ 64).toNat

/-- Grow or shrink the heap of a process; the result is the process with its new
    heap size. -/
def growProcessHeap (cfg : Config) (n : Int) (process : Process) : Prog Kernel Process := do
  let pageTable ← .expect "no page table" process.pageTable
  if 0 < n then do
    let newSize ← usizeAdd cfg process.heapSize (asUsize n)
    let newSize ← onMem (allocUvm pageTable process.heapSize newSize)
    pure { process with heapSize := newSize }
  else if n < 0 then do
    let newSize ← usizeAdd cfg process.heapSize (asUsize n)
    let newSize ← onMem (deallocUvm pageTable process.heapSize newSize)
    pure { process with heapSize := newSize }
  else
    pure process

/-- Move the break of the current process. The process that grows is the copy that
    `unwrap` makes of the table entry; the copy is dropped. -/
def sbrk (cfg : Config) (n : Int) : Prog Kernel Nat := do
  let pid ← .expect "no process" (← currentPid)
  let process ← .okOr "no process" (← processAt pid)
  let _ ← growProcessHeap cfg n process
  pure process.heapSize

end FerriOS.System
