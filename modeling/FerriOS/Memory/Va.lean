import FerriOS.Memory.FrameAllocator

/-! # Virtual addresses and the page walk

`walkPagetable` is the four-level walk of the kernel. `Descent` says what a walk
that creates missing tables may do on its way down; the mapper of the x86_64
crate is known only through it.
-/

namespace FerriOS.Memory

open FerriOS.Lib

/-- `VirtAddr::new`: bit 47 is extended when the bits above it are clear, and an
    address that is not canonical otherwise is a panic (`none`). -/
def VirtAddr.new (addr : Nat) : Option Nat :=
  if addr < 2 ^ 47 then some addr
  else if addr < 2 ^ 48 then some (addr + (2 ^ 64 - 2 ^ 48))
  else if 2 ^ 64 - 2 ^ 47 ≤ addr ∧ addr < 2 ^ 64 then some addr
  else none

theorem VirtAddr.new_lower {addr : Nat} (h : addr < 2 ^ 47) : VirtAddr.new addr = some addr :=
  if_pos h

def virtAddr {σ : Type} (addr : Nat) : Prog σ Nat :=
  .expect "address passed to VirtAddr::new must not contain any data in bits 48 to 64"
    (VirtAddr.new addr)

theorem virtAddr_run {σ : Type} {addr : Nat} (lower : addr < 2 ^ 47) (s : σ) :
    virtAddr addr s = .ok addr s := by
  rw [virtAddr, VirtAddr.new_lower lower]
  rfl

def pml4Index (va : Nat) : Nat := va / 2 ^ 39 % 512
def pdptIndex (va : Nat) : Nat := va / 2 ^ 30 % 512
def pdIndex (va : Nat) : Nat := va / 2 ^ 21 % 512
def ptIndex (va : Nat) : Nat := va / 2 ^ 12 % 512
def pageOffset (va : Nat) : Nat := va % PAGE_SIZE

/-- The flags a walk gives to a table it creates. -/
def tableFlags : PageTableFlags := .PRESENT ||| .WRITABLE ||| .USER_ACCESSIBLE

theorem tableFlags_present : tableFlags.contains .PRESENT = true := by decide

theorem tableFlags_small : tableFlags.contains .HUGE_PAGE = false := by decide

/-- `init_page_table`: clear a frame to use it as a page table. -/
def initPageTable (frame : PhysFrame) : Prog MemState Unit := writeRam (·.zeroFrame frame)

/-- `PageTableEntry::set_frame` on a slot of a table; huge entries are refused. -/
def setFrame (table : PhysFrame) (index : Nat) (frame : PhysFrame) (flags : PageTableFlags) :
    Prog MemState Unit :=
  if flags.contains .HUGE_PAGE then .crash "assertion failed: !flags.contains(HUGE_PAGE)"
  else writeRam (·.setEntry table index ⟨frame, flags⟩)

theorem setFrame_run {table frame : PhysFrame} {index : Nat} {flags : PageTableFlags}
    (small : flags.contains .HUGE_PAGE = false) (s : MemState) :
    setFrame table index frame flags s =
      .ok () (s.setRam (s.ram.setEntry table index ⟨frame, flags⟩)) := by
  simp [setFrame, small]

/-- One level of the walk: the table below slot `index`, created when `alloc`
    asks for it and a frame is left. -/
def walkLevel (alloc : Bool) (table : PhysFrame) (index : Nat) :
    Prog MemState (Option PhysFrame) := do
  let s ← .get
  if (s.ram.entry table index).present then
    pure (some (s.ram.entry table index).addr)
  else if alloc then
    match ← allocateFrame with
    | none => pure none
    | some frame =>
        initPageTable frame
        setFrame table index frame tableFlags
        pure (some frame)
  else
    pure none

/-- The slot of the page table that translates `va`: its table and its index. -/
def walkPagetable (pml4 : PhysFrame) (va : Nat) (alloc : Bool) :
    Prog MemState (Option (PhysFrame × Nat)) := do
  match ← walkLevel alloc pml4 (pml4Index va) with
  | none => pure none
  | some pdpt =>
      match ← walkLevel alloc pdpt (pdptIndex va) with
      | none => pure none
      | some pd =>
          match ← walkLevel alloc pd (pdIndex va) with
          | none => pure none
          | some pt => pure (some (pt, ptIndex va))

/-- The slot that a walk without allocation finds. -/
def lookup (ram : PhysMem) (pml4 : PhysFrame) (va : Nat) : Option (PhysFrame × Nat) := do
  let pdpt ← ram.child pml4 (pml4Index va)
  let pd ← ram.child pdpt (pdptIndex va)
  let pt ← ram.child pd (pdIndex va)
  return (pt, ptIndex va)

/-- What a walk that creates missing tables does with the slots `is` below the
    table `t`: follow a present slot, adding the flags `widen` it lacks; link a
    cleared frame with the flags `insert` into an absent one; give up when no
    frame is left or at a huge page, which may get the flags as well. -/
inductive Descent (insert widen : PageTableFlags) :
    List Nat → PhysFrame → MemState → Option PhysFrame → MemState → Prop where
  | arrived : Descent insert widen [] t s (some t) s
  | kept : (s.ram.entry t i).present = true → (s.ram.entry t i).flags.contains widen = true →
      Descent insert widen is (s.ram.entry t i).addr s r s' →
      Descent insert widen (i :: is) t s r s'
  | widened : (s.ram.entry t i).present = true → (s.ram.entry t i).flags.contains widen = false →
      Descent insert widen is (s.ram.entry t i).addr
        (s.setRam (s.ram.setEntry t i
          ⟨(s.ram.entry t i).addr, (s.ram.entry t i).flags ||| widen⟩)) r s' →
      Descent insert widen (i :: is) t s r s'
  | created : (s.ram.entry t i).present = false → allocateFrame s = .ok (some c) s₁ →
      Descent insert widen is c
        (s₁.setRam ((s₁.ram.zeroFrame c).setEntry t i ⟨c, insert⟩)) r s' →
      Descent insert widen (i :: is) t s r s'
  | exhausted : (s.ram.entry t i).present = false → allocateFrame s = .ok none s₁ →
      Descent insert widen (i :: is) t s none s₁
  | huge : (s.ram.entry t i).present = true → (s.ram.entry t i).huge = true →
      Descent insert widen (i :: is) t s none s
  | hugeWidened : (s.ram.entry t i).present = true → (s.ram.entry t i).huge = true →
      Descent insert widen (i :: is) t s none
        (s.setRam (s.ram.setEntry t i
          ⟨(s.ram.entry t i).addr, (s.ram.entry t i).flags ||| widen⟩))

/-- The slots of `va` above its page table. -/
def tableIndices (va : Nat) : List Nat := [pml4Index va, pdptIndex va, pdIndex va]

/-- `map_to` of the x86_64 crate, which is not part of this repository: a routine
    that maps one page to a given frame, and what the crate documents of it.
    Parent entries get the present, writable and user bits of the leaf flags. -/
structure Mapper where
  mapTo : (pml4 : PhysFrame) → (page : Nat) → (frame : PhysFrame) → PageTableFlags →
    Prog MemState Unit
  /-- The leaf is set when its slot was unused; on an error it is left alone. A
      panic means a parent slot that is neither present nor zero. -/
  mapTo_spec : ∀ pml4 page frame flags s,
    flags.contains .PRESENT = true → flags.contains .HUGE_PAGE = false →
    match mapTo pml4 page frame flags s with
    | .ok _ s' => ∃ pt s₁,
        Descent (flags &&& tableFlags) (flags &&& tableFlags) (tableIndices page) pml4 s
          (some pt) s₁ ∧
        (s₁.ram.entry pt (ptIndex page)).isUnused = true ∧
        s' = s₁.setRam (s₁.ram.setEntry pt (ptIndex page) ⟨frame, flags⟩)
    | .err _ s' =>
        Descent (flags &&& tableFlags) (flags &&& tableFlags) (tableIndices page) pml4 s none s' ∨
        ∃ pt, Descent (flags &&& tableFlags) (flags &&& tableFlags) (tableIndices page) pml4 s
          (some pt) s' ∧ (s'.ram.entry pt (ptIndex page)).isUnused = false
    | .panic _ => ∃ is i rest table s₁, tableIndices page = is ++ i :: rest ∧
        Descent (flags &&& tableFlags) (flags &&& tableFlags) is pml4 s (some table) s₁ ∧
        (s₁.ram.entry table i).present = false ∧ (s₁.ram.entry table i).isUnused = false

/-- Map a page to a fresh cleared frame. -/
def mapPage (mapper : Mapper) (pml4 : PhysFrame) (page : Nat) (flags : PageTableFlags) :
    Prog MemState Unit := do
  let frame ← .okOr "map_page: frame alloc failed" (← allocateFrame)
  writeRam (·.zeroFrame frame)
  match ← (mapper.mapTo pml4 page frame flags).attempt with
  | .ok _ => pure ()
  | .error _ => .fail "map_page: map_to failed"

/-- `checked_add` on `u64`. -/
def checkedAdd (a b : Nat) : Option Nat := if a + b < 2 ^ 64 then some (a + b) else none

theorem checkedAdd_eq {a b c : Nat} (h : checkedAdd a b = some c) : a + b = c := by
  rw [checkedAdd] at h
  split at h
  · exact Option.some.inj h
  · cases h

def checkedMul (a b : Nat) : Option Nat := if a * b < 2 ^ 64 then some (a * b) else none

def checkedSub (a b : Nat) : Option Nat := if b ≤ a then some (a - b) else none

/-- `Page::containing_address`. -/
def pageContaining (va : Nat) : Nat := va / PAGE_SIZE * PAGE_SIZE

/-- Map the page `i` pages above `startPage`. -/
def mapNthPage (mapper : Mapper) (pml4 : PhysFrame) (startPage : Nat) (flags : PageTableFlags)
    (i : Nat) : Prog MemState Unit := do
  let offset ← .okOr "map_pages: page offset overflow" (checkedMul i PAGE_SIZE)
  let va ← .okOr "map_pages: virtual address overflow" (checkedAdd startPage offset)
  let va ← virtAddr va
  mapPage mapper pml4 (pageContaining va) flags

/-- Map `numPages` pages from `startPage` on. -/
def mapPages (mapper : Mapper) (pml4 : PhysFrame) (startPage numPages : Nat)
    (flags : PageTableFlags) : Prog MemState Unit :=
  .each (List.range numPages) (mapNthPage mapper pml4 startPage flags)

end FerriOS.Memory
