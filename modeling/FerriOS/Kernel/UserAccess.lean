import FerriOS.Kernel.Effects

/-! # User memory in system calls

The copies between the kernel and the memory of the current process, each page
found by a walk of its page table and checked by the flags of the last level.
-/

namespace FerriOS.System

open FerriOS.Lib FerriOS.Memory FerriOS.Loader

/-- The page table of the current process. -/
def currentPageTable : Prog Kernel PhysFrame := do
  let process ← .okOr "syscall: process not found" (← currentProcess)
  .okOr "syscall: no page table" process.pageTable

/-- The page of a user address, and the offset in it, where the last level has the
    flags that are asked for, each with its message. -/
def userPage (cfg : Config) (pageTable : PhysFrame) (ptr copied : Nat)
    (checks : List (PageTableFlags × String)) :
    Prog Kernel (PhysFrame × Nat) := do
  let addr ← usizeAdd cfg ptr copied
  let va ← virtAddr addr
  match ← onMem (walkPagetable pageTable va false) with
  | none => .fail "syscall: address is not mapped"
  | some (pt, i) => do
      let k ← .get
      let pte := k.mem.ram.entry pt i
      .each checks fun (flag, message) => if pte.flags.contains flag then pure () else .fail message
      pure (pte.addr, pageOffset va)

/-- Copy bytes of the kernel to a user address, page by page. -/
def copyToUser (cfg : Config) (ptr : Nat) (bytes : List UInt8) : Prog Kernel Unit :=
  if bytes = [] then pure ()
  else if ptr = 0 then .fail "syscall: null pointer"
  else do
    let pageTable ← currentPageTable
    .each (pieces ptr bytes.length) fun (copied, size) => do
      let (page, offset) ← userPage cfg pageTable ptr copied
        [(.PRESENT, "syscall: address is not present"),
         (.USER_ACCESSIBLE, "syscall: address is not user-accessible"),
         (.WRITABLE, "syscall: address is not writable")]
      onMem (writeRam (·.writeBytes page offset ((bytes.drop copied).take size)))

/-- One piece of `copy_bytes_from_user`, behind the bytes that are copied already. -/
def readPiece (cfg : Config) (pageTable : PhysFrame) (ptr : Nat) (bytes : List UInt8)
    (piece : Nat × Nat) :
    Prog Kernel (List UInt8) := do
  let (page, offset) ← userPage cfg pageTable ptr piece.1
    [(.PRESENT, "syscall: address is not present"),
     (.USER_ACCESSIBLE, "syscall: address is not user-accessible")]
  let k ← .get
  pure (bytes ++ (List.range piece.2).map fun i => k.mem.ram page (offset + i))

/-- Copy bytes at a user address to the kernel, page by page. -/
def copyBytesFromUser (cfg : Config) (ptr len : Nat) : Prog Kernel (List UInt8) :=
  if ptr = 0 then .fail "syscall: null pointer"
  else do
    let pageTable ← currentPageTable
    (pieces ptr len).foldlM (readPiece cfg pageTable ptr) []

/-- `SysRet::MAX`. -/
def SYS_RET_MAX : Nat := 2 ^ 63 - 1

/-- `sys_wait` after its `wait` has returned a child: the exit status goes to
    `statusPtr`, unless it is null. -/
def deliverStatus (cfg : Config) (statusPtr pid : Nat) (exitStatus : Int) : Prog Kernel Int :=
  if SYS_RET_MAX < pid then pure RET_ERROR
  else if statusPtr ≠ 0 then do
    match ← (copyToUser cfg statusPtr (leBytes (asUsize exitStatus) 8)).attempt with
    | .ok _ => pure (pid : Int)
    | .error _ => pure RET_ERROR
  else pure (pid : Int)

/-- A round of the `wait` of `sys_wait`, with what follows when the round is the
    last. The result is the value of the system call; without one the caller yields. -/
def sysWaitRound (cfg : Config) (statusPtr : Nat) (process : Process) : Prog Kernel (Option Int) :=
  do
  match ← (waitRound process).attempt with
  | .error _ => pure (some RET_ERROR)
  | .ok none => pure none
  | .ok (some (pid, exitStatus)) => do
      let ret ← deliverStatus cfg statusPtr pid exitStatus
      pure (some ret)

variable {cfg : Config} {k k' k'' : Kernel}

/-- The memory may differ; the tables are the same. -/
structure SameTables (k k' : Kernel) : Prop where
  processes : k'.processTable = k.processTable
  threads : k'.threadTable = k.threadTable

theorem SameTables.refl : SameTables k k := ⟨rfl, rfl⟩

theorem SameTables.trans (first : SameTables k k') (second : SameTables k' k'') :
    SameTables k k'' :=
  ⟨second.processes.trans first.processes, second.threads.trans first.threads⟩

end FerriOS.System
