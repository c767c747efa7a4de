import FerriOS.Memory.Umem

/-! # Executable images

Reading an ELF file, loading its LOAD segments into a new address space, and
building the initial stack. A file is a list of bytes, and every header field is
read from it as the loader reads it.
-/

namespace FerriOS.Loader

open FerriOS.Lib FerriOS.Memory

/-- The little-endian number in `n` bytes from `off` on. -/
def readLe (image : List UInt8) (off : Nat) : Nat → Nat
  | 0 => 0
  | n + 1 => (image.getD off 0).toNat + 256 * readLe image (off + 1) n

/-- `to_le_bytes` of a word of `n` bytes. -/
def leBytes (value : Nat) : Nat → List UInt8
  | 0 => []
  | n + 1 => UInt8.ofNat value :: leBytes (value / 256) n

def ELF_MAGIC_NUM : Nat := 0x464C457F
def ELF_CLASS_64 : UInt8 := 2
def ELF_DATA_LE : UInt8 := 1
def ELF_TYPE_EXEC : Nat := 2
def ELF_MACHINE_X86_64 : Nat := 0x3E
def ELF_PROG_LOAD : Nat := 1

/-- `size_of::<Elf64Header>()` and `size_of::<Elf64ProgramHeader>()`. -/
def ELF_HEADER_SIZE : Nat := 64
def ELF_PROGRAM_HEADER_SIZE : Nat := 56

/-- The fields of the file header that the loader looks at. -/
structure Elf64Header where
  ident : List UInt8
  elfType : Nat
  machine : Nat
  version : Nat
  entry : Nat
  phoff : Nat
  phentsize : Nat
  phnum : Nat

def Elf64Header.read (image : List UInt8) : Elf64Header where
  ident := image.take 16
  elfType := readLe image 16 2
  machine := readLe image 18 2
  version := readLe image 20 4
  entry := readLe image 24 8
  phoff := readLe image 32 8
  phentsize := readLe image 54 2
  phnum := readLe image 56 2

def Elf64Header.magic (h : Elf64Header) : Nat := readLe h.ident 0 4

/-- The fields of a program header that the loader looks at. -/
structure Elf64ProgramHeader where
  progType : Nat
  flags : Nat
  offset : Nat
  vaddr : Nat
  filesz : Nat
  memsz : Nat

def Elf64ProgramHeader.read (image : List UInt8) (start : Nat) : Elf64ProgramHeader where
  progType := readLe image start 4
  flags := readLe image (start + 4) 4
  offset := readLe image (start + 8) 8
  vaddr := readLe image (start + 16) 8
  filesz := readLe image (start + 32) 8
  memsz := readLe image (start + 40) 8

/-- A prepared image. -/
structure Exec where
  pageTable : PhysFrame
  entry : Nat
  userSp : Nat
  argc : Nat
  argvUserPtr : Nat
  heapSize : Nat

def readElfHeader {σ : Type} (image : List UInt8) : Prog σ Elf64Header :=
  if image.length < ELF_HEADER_SIZE then .fail "exec: ELF header is truncated"
  else
    let elf := Elf64Header.read image
    if elf.ident.take 4 ≠ [0x7F, 0x45, 0x4C, 0x46] then .fail "exec: bad ELF magic"
    else if elf.ident.getD 4 0 ≠ ELF_CLASS_64 ∨ elf.ident.getD 5 0 ≠ ELF_DATA_LE then
      .fail "exec: unsupported ELF class"
    else if elf.elfType ≠ ELF_TYPE_EXEC ∨ elf.machine ≠ ELF_MACHINE_X86_64 ∨ elf.version ≠ 1 then
      .fail "exec: unsupported ELF target"
    else if elf.magic ≠ ELF_MAGIC_NUM then .fail "exec: bad ELF magic"
    else pure elf

/-- The pieces of `while done < len { ..; done += piece }` over a user range: what
    is done before the piece, and its size, which ends at the page. -/
def piecesFrom (start len : Nat) : Nat → Nat → List (Nat × Nat)
  | 0, _ => []
  | fuel + 1, done =>
      if done < len then
        let size := min (PAGE_SIZE - (start + done) % PAGE_SIZE) (len - done)
        (done, size) :: piecesFrom start len fuel (done + size)
      else []

/-- A piece has at least one byte, so there are at most `len` pieces. -/
def pieces (start len : Nat) : List (Nat × Nat) := piecesFrom start len len 0

/-- Store bytes at a user address below a page table, within one page. -/
def writeMapped (pml4 : PhysFrame) (addr : Nat) (bytes : List UInt8) : Prog MemState Unit := do
  let va ← virtAddr addr
  match ← walkPagetable pml4 va false with
  | none => .fail "exec: address is not mapped"
  | some (pt, i) => do
      let s ← .get
      if (s.ram.entry pt i).present then
        writeRam (·.writeBytes (s.ram.entry pt i).addr (pageOffset va) bytes)
      else
        .fail "exec: address is not present"

def copyToUserPagetable (pml4 : PhysFrame) (dst : Nat) (src : List UInt8) : Prog MemState Unit :=
  .each (pieces dst src.length) fun (written, size) =>
    writeMapped pml4 (dst + written) ((src.drop written).take size)

def zeroUserRange (pml4 : PhysFrame) (start len : Nat) : Prog MemState Unit :=
  .each (pieces start len) fun (cleared, size) =>
    writeMapped pml4 (start + cleared) (List.replicate size 0)

/-- Map a page, or add flags to the mapping that it has. -/
def ensureUserPageMapping (mapper : Mapper) (pml4 : PhysFrame) (flags : PageTableFlags)
    (page : Nat) :
    Prog MemState Unit := do
  match ← walkPagetable pml4 page false with
  | none => mapPage mapper pml4 page flags
  | some (pt, i) => do
      let s ← .get
      let entry := s.ram.entry pt i
      if entry.present then writeRam (·.setEntry pt i ⟨entry.addr, entry.flags ||| flags⟩)
      else mapPage mapper pml4 page flags

/-- The canonical address of a page, from its 36-bit number. -/
def canonicalPage (number : Nat) : Nat :=
  if number < 2 ^ 35 then number * PAGE_SIZE else number * PAGE_SIZE + (2 ^ 64 - 2 ^ 48)

/-- `Page::range_inclusive`; it steps over the hole between the halves. -/
def pageRangeInclusive (start stop : Nat) : List Nat :=
  let number addr := addr / PAGE_SIZE % 2 ^ 36
  (List.range' (number start) (number stop + 1 - number start)).map canonicalPage

/-- `VirtAddr - u64`. -/
def virtAddrSub {σ : Type} (va n : Nat) : Prog σ Nat := do
  let addr ← .expect "called Option::unwrap() on a None value" (checkedSub va n)
  virtAddr addr

def segmentFlags (header : Elf64ProgramHeader) : PageTableFlags :=
  if header.flags &&& 0x2 ≠ 0 then .PRESENT ||| .USER_ACCESSIBLE ||| .WRITABLE
  else .PRESENT ||| .USER_ACCESSIBLE

/-- Map and fill the LOAD segment of one program header; the result is the
    highest end of a segment so far. -/
def loadSegment (mapper : Mapper) (image : List UInt8) (pml4 : PhysFrame) (maxLoadEnd : Nat)
    (header : Elf64ProgramHeader) : Prog MemState Nat :=
  if header.memsz < header.filesz then .fail "exec: invalid LOAD segment sizes"
  else if header.memsz = 0 then pure maxLoadEnd
  else do
    let fileEnd ← .okOr "exec: segment overflow" (checkedAdd header.offset header.filesz)
    if image.length < fileEnd then .fail "exec: truncated LOAD segment"
    else do
      let segmentStart ← virtAddr header.vaddr
      let segmentEndU64 ← .okOr "exec: invalid segment address"
        (checkedAdd header.vaddr header.memsz)
      let segmentEnd ← virtAddr segmentEndU64
      let lastByte ← virtAddrSub segmentEnd 1
      .each (pageRangeInclusive (pageContaining segmentStart) (pageContaining lastByte))
        (ensureUserPageMapping mapper pml4 (segmentFlags header))
      zeroUserRange pml4 header.vaddr header.memsz
      copyToUserPagetable pml4 header.vaddr ((image.take fileEnd).drop header.offset)
      pure (max maxLoadEnd segmentEndU64)

/-- The program header with the given index. -/
def readProgramHeader {σ : Type} (image : List UInt8) (elf : Elf64Header) (i : Nat) :
    Prog σ Elf64ProgramHeader := do
  let offset ← .okOr "exec: program header overflow" (checkedMul i elf.phentsize)
  let start ← .okOr "exec: program header overflow" (checkedAdd elf.phoff offset)
  let stop ← .okOr "exec: program header overflow" (checkedAdd start elf.phentsize)
  if image.length < stop then .fail "exec: truncated program header"
  else pure (Elf64ProgramHeader.read image start)

/-- Load the LOAD segments in the order of their headers; the result is where the
    heap starts. -/
def loadElfSegments (mapper : Mapper) (image : List UInt8) (elf : Elf64Header) (pml4 : PhysFrame) :
    Prog MemState Nat :=
  if elf.phentsize ≠ ELF_PROGRAM_HEADER_SIZE then .fail "exec: unexpected program header size"
  else do
    let maxLoadEnd ← (List.range elf.phnum).foldlM (fun maxLoadEnd i => do
      let header ← readProgramHeader image elf i
      if header.progType ≠ ELF_PROG_LOAD then pure maxLoadEnd
      else loadSegment mapper image pml4 maxLoadEnd header) 0
    .okOr "exec: heap size overflow" (pageRoundUp maxLoadEnd)

def copyU64SliceToUser (pml4 : PhysFrame) (dst : Nat) (data : List Nat) : Prog MemState Unit :=
  copyToUserPagetable pml4 dst (data.flatMap (leBytes · 8))

/-- One argument of the initial stack: the string, then its NUL. -/
def pushArgument (pml4 : PhysFrame) (stack : Nat × List Nat) (arg : List UInt8) :
    Prog MemState (Nat × List Nat) := do
  let sp ← .okOr "exec: stack overflow" (checkedSub stack.1 (arg.length + 1))
  let sp := sp / 8 * 8
  copyToUserPagetable pml4 sp arg
  copyToUserPagetable pml4 (sp + arg.length) [0]
  pure (sp, stack.2 ++ [sp])

/-- The initial stack: the strings, the pointer array, and a three-word frame. -/
def setupUserStack (pml4 : PhysFrame) (argv : List (List UInt8)) (stackTop : Nat) :
    Prog MemState (Nat × Nat × Nat) := do
  let (sp, argvPtrs) ← argv.foldlM (pushArgument pml4) (stackTop, [])
  let argvPtrs := argvPtrs ++ [0]
  let argvBytes ← .okOr "exec: argv overflow" (checkedMul argvPtrs.length 8)
  let sp ← .okOr "exec: stack overflow" (checkedSub sp argvBytes)
  let argvUserPtr := sp / 16 * 16
  copyU64SliceToUser pml4 argvUserPtr argvPtrs
  let ustack := [0xFFFF_FFFF_FFFF_FFFF, argv.length, argvUserPtr]
  let sp ← .okOr "exec: stack overflow" (checkedSub argvUserPtr (ustack.length * 8))
  copyU64SliceToUser pml4 sp ustack
  pure (sp, argv.length, argvUserPtr)

/-- The limits of `copy_argv`: an argument list has fewer arguments and shorter ones. -/
def MAX_ARGC : Nat := 16
def MAX_ARG_LEN : Nat := 256

/-- The lowest address of the user stack; the guard page is below it. -/
def stackStart : Nat := USER_STACK_TOP - STACK_PAGES * PAGE_SIZE
def guardPage : Nat := stackStart - PAGE_SIZE

/-- Build a new address space from an ELF file and the arguments. -/
def prepareExecImage (mapper : Mapper) (image : List UInt8) (argv : List (List UInt8)) :
    Prog MemState Exec :=
  if image.length < ELF_HEADER_SIZE then .fail "exec: invalid ELF image"
  else do
    let elf ← readElfHeader image
    let pageTable ← newUvm
    let heapSize ← loadElfSegments mapper image elf pageTable
    mapPage mapper pageTable guardPage (.PRESENT ||| .WRITABLE)
    mapPages mapper pageTable stackStart STACK_PAGES (.PRESENT ||| .WRITABLE ||| .USER_ACCESSIBLE)
    let (userSp, argc, argvUserPtr) ← setupUserStack pageTable argv USER_STACK_TOP
    pure { pageTable, entry := elf.entry, userSp, argc, argvUserPtr, heapSize }

end FerriOS.Loader
