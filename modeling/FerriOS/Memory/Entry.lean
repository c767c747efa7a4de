import Mathlib

/-! # Page-table entries

An entry is the 64-bit word of the x86-64 paging formats: twelve low flag bits,
a 40-bit frame number, twelve high flag bits. Functions on entries work on the
three fields; `toWord` and `ofWord` are the word the memory stores.
-/

namespace FerriOS.Memory

/-- A 4 KiB frame, named by its number: the frame starts at `number * 4096`. -/
abbrev PhysFrame := BitVec 40

def PAGE_SIZE : Nat := 4096
def STACK_PAGES : Nat := 8
def STACK_SIZE : Nat := PAGE_SIZE * STACK_PAGES

/-- PML4 entries 0 to 255 are for user space. -/
def PAGETABLE_USER_SPACE_START : Nat := 0
def PAGETABLE_USER_SPACE_END : Nat := 256
def PAGETABLE_KERNEL_SPACE_START : Nat := 256
def PAGETABLE_KERNEL_SPACE_END : Nat := 512
def PTE_BASE_ADDRESS : Nat := 39

/-- The flag bits of an entry: bits 0 to 11 and bits 52 to 63. -/
structure PageTableFlags where
  low : BitVec 12
  high : BitVec 12
  deriving DecidableEq, Repr

namespace PageTableFlags

def PRESENT : PageTableFlags := ⟨0x1, 0⟩
def WRITABLE : PageTableFlags := ⟨0x2, 0⟩
def USER_ACCESSIBLE : PageTableFlags := ⟨0x4, 0⟩
def HUGE_PAGE : PageTableFlags := ⟨0x80, 0⟩
def empty : PageTableFlags := ⟨0, 0⟩

instance : OrOp PageTableFlags where
  or a b := ⟨a.low ||| b.low, a.high ||| b.high⟩

instance : AndOp PageTableFlags where
  and a b := ⟨a.low &&& b.low, a.high &&& b.high⟩

def contains (a b : PageTableFlags) : Bool := (a &&& b) == b

theorem or_def (a b : PageTableFlags) : a ||| b = ⟨a.low ||| b.low, a.high ||| b.high⟩ := rfl

theorem and_def (a b : PageTableFlags) : a &&& b = ⟨a.low &&& b.low, a.high &&& b.high⟩ := rfl

theorem contains_iff {a b : PageTableFlags} :
    a.contains b = true ↔ a.low &&& b.low = b.low ∧ a.high &&& b.high = b.high := by
  cases b
  simp [contains, and_def]

@[simp] theorem or_empty (a : PageTableFlags) : a ||| empty = a := by
  cases a
  simp [or_def, empty]

theorem contains_self (a : PageTableFlags) : a.contains a = true := by
  simp [contains_iff]

private theorem bits_kept {w : Nat} {x z : BitVec w} (y : BitVec w) (h : x &&& z = z) :
    (x ||| y) &&& z = z := by
  rw [BitVec.and_comm, BitVec.and_or_distrib_left, BitVec.and_comm z x, h]
  ext i
  simp
  tauto

theorem contains_or_left {a c : PageTableFlags} (b : PageTableFlags) (h : a.contains c = true) :
    (a ||| b).contains c = true := by
  rw [contains_iff] at h ⊢
  exact ⟨bits_kept _ h.1, bits_kept _ h.2⟩

theorem or_comm (a b : PageTableFlags) : a ||| b = b ||| a := by
  simp [or_def, BitVec.or_comm]

theorem contains_or_right {b c : PageTableFlags} (a : PageTableFlags) (h : b.contains c = true) :
    (a ||| b).contains c = true := by
  rw [or_comm]
  exact contains_or_left a h

theorem contains_trans {a b c : PageTableFlags} (hab : a.contains b = true)
    (hbc : b.contains c = true) : a.contains c = true := by
  rw [contains_iff] at hab hbc ⊢
  constructor
  · rw [← hbc.1, ← BitVec.and_assoc, hab.1]
  · rw [← hbc.2, ← BitVec.and_assoc, hab.2]

theorem contains_and {a b c : PageTableFlags} (ha : a.contains c = true)
    (hb : b.contains c = true) :
    (a &&& b).contains c = true := by
  rw [contains_iff] at ha hb ⊢
  simp only [and_def, BitVec.and_assoc, ha, hb, and_self]

private theorem bit_and (x : BitVec 12) {k : Nat} (hk : k < 12) :
    x &&& BitVec.twoPow 12 k = BitVec.twoPow 12 k ↔ x.getLsbD k = true := by
  rw [BitVec.and_twoPow]
  by_cases set : x.getLsbD k = true
  · simp [set]
  · have nonzero : (0 : BitVec 12) ≠ BitVec.twoPow 12 k := by
      intro same
      have bit := congrArg (fun y => y.getLsbD k) same
      simp [hk] at bit
    simp only [set, Bool.false_eq_true, if_false, iff_false]
    exact nonzero

theorem contains_huge (a : PageTableFlags) : a.contains HUGE_PAGE = a.low.getLsbD 7 := by
  have bit := bit_and a.low (k := 7) (by decide)
  rw [Bool.eq_iff_iff, contains_iff, ← bit]
  simp [HUGE_PAGE]
  rfl

theorem or_huge (a b : PageTableFlags) :
    (a ||| b).contains HUGE_PAGE = (a.contains HUGE_PAGE || b.contains HUGE_PAGE) := by
  simp only [contains_huge, or_def, BitVec.getLsbD_or]

theorem contains_empty (a : PageTableFlags) : a.contains .empty = true := by
  simp [contains_iff, empty]

end PageTableFlags

/-- One slot of a page table. -/
structure PageTableEntry where
  addr : PhysFrame
  flags : PageTableFlags
  deriving DecidableEq, Repr

namespace PageTableEntry

/-- The zero word. -/
def unused : PageTableEntry := ⟨0, .empty⟩

def isUnused (e : PageTableEntry) : Bool := e == unused

def present (e : PageTableEntry) : Bool := e.flags.contains .PRESENT

def huge (e : PageTableEntry) : Bool := e.flags.contains .HUGE_PAGE

/-- The frame of the next table or page, when the entry is present. -/
def child (e : PageTableEntry) : Option PhysFrame := if e.present then some e.addr else none

def toWord (e : PageTableEntry) : BitVec 64 := e.flags.high ++ e.addr ++ e.flags.low

def ofWord (w : BitVec 64) : PageTableEntry :=
  ⟨w.extractLsb' 12 40, ⟨w.extractLsb' 0 12, w.extractLsb' 52 12⟩⟩

@[simp] theorem ofWord_toWord (e : PageTableEntry) : ofWord e.toWord = e := by
  obtain ⟨addr, low, high⟩ := e
  simp only [ofWord, toWord, mk.injEq, PageTableFlags.mk.injEq]
  refine ⟨?_, ?_, ?_⟩ <;>
  · ext i hi
    simp only [BitVec.getElem_extractLsb', BitVec.getLsbD_append]
    grind

@[simp] theorem ofWord_zero : ofWord 0 = unused := by decide

@[simp] theorem unused_present : unused.present = false := by decide

@[simp] theorem unused_child : unused.child = none := by decide

theorem child_eq_some {e : PageTableEntry} {c : PhysFrame} :
    e.child = some c ↔ e.present = true ∧ e.addr = c := by
  simp [child]

theorem child_eq_none {e : PageTableEntry} : e.child = none ↔ e.present = false := by
  simp [child]

theorem isUnused_iff {e : PageTableEntry} : e.isUnused = true ↔ e = unused := by
  simp [isUnused]

theorem present_of_isUnused {e : PageTableEntry} (h : e.isUnused = true) : e.present = false := by
  rw [isUnused_iff.mp h, unused_present]

end PageTableEntry

end FerriOS.Memory
