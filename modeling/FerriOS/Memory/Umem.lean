import FerriOS.Memory.Va

/-! # User address spaces

Building, copying, growing, shrinking and releasing the user half of a page
table. The four nested loops of the copy and of the release run the same body at
every level, so each is one recursion on the height of the table.
-/

namespace FerriOS.Memory

open FerriOS.Lib

def USER_CODE_START : Nat := 0x0000_1000_0000_0000
def USER_STACK_TOP : Nat := 0x0000_2000_0000_0000

/-- A new PML4 with the kernel half of the table in CR3. -/
def setupKvm : Prog MemState PhysFrame := do
  let newFrame ← .okOr "allocating frame failed" (← allocateFrame)
  writeRam (·.zeroFrame newFrame)
  let s ← .get
  .each (List.range' PAGETABLE_KERNEL_SPACE_START
      (PAGETABLE_KERNEL_SPACE_END - PAGETABLE_KERNEL_SPACE_START)) fun i =>
    writeRam fun ram => ram.setEntry newFrame i (ram.entry s.cr3 i)
  pure newFrame

def newUvm : Prog MemState PhysFrame := do
  let newFrame ← setupKvm
  writeRam (·.setEntry newFrame (pml4Index USER_CODE_START) .unused)
  writeRam (·.setEntry newFrame (pml4Index USER_STACK_TOP) .unused)
  pure newFrame

/-- The slots a walk over the user half visits in a table of the given height. -/
def userSlots (height : Nat) : List Nat :=
  List.range' PAGETABLE_USER_SPACE_START (if height = 4 then PAGETABLE_USER_SPACE_END else 512)

/-- The error when no frame is left for a node of the given height. -/
def copyError : Nat → String
  | 0 => "copy_uvm: failed to allocate data frame"
  | 1 => "copy_uvm: failed to allocate PT frame"
  | 2 => "copy_uvm: failed to allocate PD frame"
  | _ => "copy_uvm: failed to allocate PDPT frame"

/-- Prepare the frame of a copied node of the given height: the bytes of a page,
    an empty table. -/
def fillNode : Nat → PhysFrame → PhysFrame → Prog MemState Unit
  | 0, src, frame => writeRam (·.copyFrame src frame)
  | _ + 1, _, frame => initPageTable frame

/-- Copy the present slots of a parent table of the given height into the child
    table. -/
def copyLevel : Nat → PhysFrame → PhysFrame → Prog MemState Unit
  | 0, _, _ => pure ()
  | d + 1, parent, child =>
      .each (userSlots (d + 1)) fun i => do
        let s ← .get
        let entry := s.ram.entry parent i
        if entry.present then do
          let frame ← .okOr (copyError d) (← allocateFrame)
          fillNode d entry.addr frame
          setFrame child i frame entry.flags
          copyLevel d entry.addr frame
        else
          pure ()

/-- Copy the user half of a parent address space into a new one. -/
def copyUvm (parentPml4 : PhysFrame) : Prog MemState PhysFrame := do
  let childPml4 ← newUvm
  copyLevel 4 parentPml4 childPml4
  pure childPml4

def frameFromEntry (entry : PageTableEntry) : Prog MemState PhysFrame :=
  if !entry.present then .fail "page table entry not present"
  else if entry.huge then .fail "huge pages not supported"
  else pure entry.addr

/-- Round a size up to a page; the mask clears the offset within the page. -/
def pageRoundUp (value : Nat) : Option Nat :=
  (checkedAdd value (PAGE_SIZE - 1)).map fun value => value / PAGE_SIZE * PAGE_SIZE

/-- The addresses of `while addr < stop { ..; addr += PAGE_SIZE }`. -/
def pageSteps (start stop : Nat) : List Nat :=
  (List.range ((stop - start + (PAGE_SIZE - 1)) / PAGE_SIZE)).map (start + PAGE_SIZE * ·)

/-- Release the page mapped at `addr`, when there is one. -/
def releasePage (pml4 : PhysFrame) (overflow : String) (addr : Nat) : Prog MemState Unit := do
  let va ← virtAddr addr
  match ← walkPagetable pml4 va false with
  | none => pure ()
  | some (pt, i) => do
      let s ← .get
      if (s.ram.entry pt i).present then do
        let frame ← frameFromEntry (s.ram.entry pt i)
        deallocateFrame frame
        writeRam (·.setEntry pt i .unused)
      else
        pure ()
  let _ ← .okOr overflow (checkedAdd addr PAGE_SIZE)

def rollbackAllocUvm (pml4 : PhysFrame) (start stop : Nat) : Prog MemState Unit :=
  .each (pageSteps start stop) (releasePage pml4 "alloc_uvm: rollback address overflow")

/-- The first address above user space. -/
def userSpaceTop : Nat := PAGETABLE_USER_SPACE_END <<< PTE_BASE_ADDRESS

/-- Map the page at `addr` to a fresh cleared frame; `start` is where the
    rollback of the whole growth begins. -/
def allocUvmPage (pml4 : PhysFrame) (start addr : Nat) : Prog MemState Unit := do
  match ← allocateFrame with
  | none => do
      rollbackAllocUvm pml4 start addr
      .fail "alloc_uvm: frame alloc failed"
  | some frame => do
      writeRam (·.zeroFrame frame)
      let va ← virtAddr addr
      match ← walkPagetable pml4 va true with
      | none => do
          deallocateFrame frame
          rollbackAllocUvm pml4 start addr
          .fail "alloc_uvm: page table alloc failed"
      | some (pt, i) => do
          let s ← .get
          if (s.ram.entry pt i).present then do
            deallocateFrame frame
            rollbackAllocUvm pml4 start addr
            .fail "alloc_uvm: page is already mapped"
          else do
            setFrame pt i frame (.PRESENT ||| .WRITABLE ||| .USER_ACCESSIBLE)
            let _ ← .okOr "alloc_uvm: address overflow" (checkedAdd addr PAGE_SIZE)

/-- Grow the user space of a process from `oldsz` to `newsz`. -/
def allocUvm (pml4 : PhysFrame) (oldsz newsz : Nat) : Prog MemState Nat :=
  if userSpaceTop ≤ newsz then .fail "alloc_uvm: newsz is outside user space"
  else if newsz < oldsz then pure oldsz
  else do
    let start ← .okOr "alloc_uvm: size overflow" (pageRoundUp oldsz)
    .each (pageSteps start newsz) (allocUvmPage pml4 start)
    pure newsz

/-- Shrink the user space of a process from `oldsz` to `newsz`. -/
def deallocUvm (pml4 : PhysFrame) (oldsz newsz : Nat) : Prog MemState Nat :=
  if oldsz ≤ newsz then pure oldsz
  else do
    let start ← .okOr "alloc_uvm: size overflow" (pageRoundUp newsz)
    .each (pageSteps start oldsz) (releasePage pml4 "dealloc_uvm: address overflow")
    pure newsz

/-- Release everything below a table of the given height, the table itself not. -/
def freeLevel : Nat → PhysFrame → Prog MemState Unit
  | 0, _ => pure ()
  | d + 1, table =>
      .each (userSlots (d + 1)) fun i => do
        let s ← .get
        if (s.ram.entry table i).present then do
          let child ← frameFromEntry (s.ram.entry table i)
          freeLevel d child
          deallocateFrame child
          writeRam (·.setEntry table i .unused)
        else
          pure ()

/-- Release the user half of an address space and its PML4. -/
def freeUvm (pml4 : PhysFrame) : Prog MemState Unit := do
  freeLevel 4 pml4
  deallocateFrame pml4

end FerriOS.Memory
