import FerriOS.Kernel.State

/-! # Processes

Allocating and releasing the slots of the process and thread tables, and creating
the first process.
-/

namespace FerriOS.System

open FerriOS.Lib FerriOS.Memory FerriOS.Loader

/-- The selectors of user code and data, by their place in the GDT. -/
def USER_CODE_SELECTOR : Nat := 0x23
def USER_DATA_SELECTOR : Nat := 0x1B

/-- The first slot that was never used; the last slot of the table is left out. -/
def nextPid : Prog Kernel Nat := do
  let k ← .get
  .okOr "Process table is full"
    ((List.range (NPROCESS - 1)).find? fun i => (k.processTable i).isNone)

def nextTid : Prog Kernel (Option Nat) := do
  let k ← .get
  pure ((List.range (NTHREAD - 1)).find? fun i => (k.threadTable i).state == .unused)

/-- Take a kernel stack from the heap, which returned `kstack`, and write an empty
    trap frame at its top. Writing through the null pointer is a page fault. -/
def setupKstack (kstack : Nat) (thread : Thread) : Prog Kernel Thread :=
  if kstack = 0 then .crash "page fault"
  else do
    let kstackTop := kstack + STACK_SIZE
    let tf := kstackTop - TRAP_FRAME_SIZE
    .modify fun k => { k.setTrapFrame tf .new with kernelStacks := kstack :: k.kernelStacks }
    pure { thread with
      kstack := kstackTop, tf := some tf, context := { thread.context with rsp := kstackTop } }

def createUserThread (kstack : Nat) : Prog Kernel Thread := do
  let tid ← .okOr "Thread table is full" (← nextTid)
  let thread ← setupKstack kstack { Thread.new with tid, state := .embryo }
  pure { thread with context := { thread.context with
    rip := .initProcessRing3EntryTrampoline
    rflags := 0x200
    cs := USER_CODE_SELECTOR
    ss := USER_DATA_SELECTOR
    rsp3 := USER_STACK_TOP
    userRip := USER_CODE_START } }

/-- A thread of the kernel itself, with a slot that was unused. -/
def createKernelThread (kstack : Nat) : Prog Kernel Unit := do
  let tid ← .expect "Thread table is full" (← nextTid)
  let thread ← threadAt tid
  let thread ← setupKstack kstack { thread with tid, state := .runnable }
  putThread tid { thread with context := { thread.context with rip := .kthreadEntry, rflags := 0x200 } }

def Process.addThread (p : Process) (tid : Nat) : Prog Kernel Process :=
  if NTHREAD_PER_PROCESS ≤ p.threads.length then .fail "too many threads in process"
  else pure { p with threads := p.threads ++ [tid] }

/-- A process with its first thread, which goes to the thread table. -/
def allocProc (kstack : Nat) : Prog Kernel Process := do
  let pid ← nextPid
  let thread ← createUserThread kstack
  let firstThread := { thread with pid := some pid }
  let process ← Process.addThread { Process.new with pid, state := .alive } firstThread.tid
  putThread firstThread.tid firstThread
  pure process

def addToProcessTable (process : Process) : Prog Kernel Unit :=
  if NPROCESS ≤ process.pid then .fail "Process table is full"
  else putProcess process.pid (some process)

def markThreadsAsRunnable (process : Process) : Prog Kernel Unit :=
  .each process.threads fun tid => do
    if NTHREAD < tid then .fail "tid > NTHREAD"
    else do
      let thread ← threadAt tid
      putThread tid { thread with state := .runnable }

/-- Give the kernel stack of a thread back and clear the thread's slot. -/
def freeThread (process : Process) (tid : Nat) : Prog Kernel Unit :=
  if NTHREAD ≤ tid then .fail "tid >= NTHREAD"
  else do
    let thread ← threadAt tid
    if thread.pid ≠ some process.pid then .fail "thread does not belong to process"
    else do
      if thread.kstack ≠ 0 then
        .modify fun k => { k with kernelStacks := k.kernelStacks.erase (thread.kstack - STACK_SIZE) }
      putThread tid .new

/-- Release what a process holds; its slot becomes unused. -/
def freeProcess (process : Process) : Prog Kernel Unit := do
  .each process.threads (freeThread process)
  match process.pageTable with
  | none => pure ()
  | some pageTable => do
      let k ← .get
      if k.mem.cr3 = pageTable then .fail "cannot free cr3 active page table"
      else onMem (freeUvm pageTable)
  putProcess process.pid (some .new)

/-- The first thread of a process, which has one. -/
def firstThread (message : String) (process : Process) : Prog Kernel Nat :=
  .expect message process.threads.head?

/-- Load the program of a path into a new process. -/
def createUserProcessFromPath (cfg : Config) (kstack : Nat) (path : List UInt8) :
    Prog Kernel Unit := do
  let elf ← .okOr "program not found" (cfg.lookup path)
  let prepared ← onMem (prepareExecImage cfg.mapper elf [])
  let process ← allocProc kstack
  let process := { process with pageTable := some prepared.pageTable, heapSize := prepared.heapSize }
  let tid ← firstThread "no first thread" process
  let thread ← threadAt tid
  putThread tid { thread with context := { thread.context with
    rsp3 := prepared.userSp
    userRip := prepared.entry
    userRdi := prepared.argc
    userRsi := prepared.argvUserPtr } }
  let tf ← .okOr "no trapframe" thread.tf
  .modify fun k => k.setTrapFrame tf { k.trapFrames tf with
    rdi := prepared.argc, rsi := prepared.argvUserPtr, rcx := prepared.entry }
  addToProcessTable process
  markThreadsAsRunnable process

end FerriOS.System
