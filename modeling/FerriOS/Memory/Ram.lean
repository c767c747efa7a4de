import FerriOS.Memory.Entry
import FerriOS.Lib.Radix

/-! # Physical memory

The kernel reaches every frame through the physical-memory window, so a table
reference or a page pointer is a frame, and the contents of a frame are its
4096 bytes. A page table is a frame read as 512 little-endian words.
-/

namespace FerriOS.Memory

/-- The byte at an offset of a frame. -/
abbrev PhysMem := PhysFrame → Nat → UInt8

/-- The 64-bit word spelled by eight bytes, the lowest first. -/
def leWord (b : Nat → UInt8) : BitVec 64 :=
  (b 7).toBitVec ++ (b 6).toBitVec ++ (b 5).toBitVec ++ (b 4).toBitVec ++
    (b 3).toBitVec ++ (b 2).toBitVec ++ (b 1).toBitVec ++ (b 0).toBitVec

/-- Byte `k` of a word. -/
def leByte (w : BitVec 64) (k : Nat) : UInt8 := ⟨w.extractLsb' (8 * k) 8⟩

theorem leWord_leByte (w : BitVec 64) : leWord (leByte w) = w := by
  ext i hi
  simp only [leWord, leByte, BitVec.getLsbD_append,
    BitVec.getLsbD_extractLsb', ← BitVec.getLsbD_eq_getElem]
  grind

theorem leWord_congr {b c : Nat → UInt8} (h : ∀ k < 8, b k = c k) : leWord b = leWord c := by
  simp only [leWord, h 0 (by omega), h 1 (by omega), h 2 (by omega), h 3 (by omega),
    h 4 (by omega), h 5 (by omega), h 6 (by omega), h 7 (by omega)]

namespace PhysMem

/-- Slot `i` of the table in frame `f`. -/
def entry (ram : PhysMem) (f : PhysFrame) (i : Nat) : PageTableEntry :=
  .ofWord (leWord fun k => ram f (8 * i + k))

def setEntry (ram : PhysMem) (f : PhysFrame) (i : Nat) (e : PageTableEntry) : PhysMem :=
  fun g off => if g = f ∧ off / 8 = i then leByte e.toWord (off % 8) else ram g off

/-- `write_bytes(frame, 0, PAGE_SIZE)`, which is also an empty table. -/
def zeroFrame (ram : PhysMem) (f : PhysFrame) : PhysMem :=
  fun g off => if g = f then 0 else ram g off

/-- `copy_nonoverlapping(src, dst, PAGE_SIZE)`. -/
def copyFrame (ram : PhysMem) (src dst : PhysFrame) : PhysMem :=
  fun g off => if g = dst then ram src off else ram g off

/-- Store the bytes of `data` from offset `start` of frame `f` on. -/
def writeBytes (ram : PhysMem) (f : PhysFrame) (start : Nat) (data : List UInt8) : PhysMem :=
  fun g off => if g = f ∧ start ≤ off ∧ off < start + data.length
    then data.getD (off - start) 0 else ram g off

/-- The next table or page below a slot. -/
def child (ram : PhysMem) (f : PhysFrame) (i : Nat) : Option PhysFrame := (ram.entry f i).child

variable {ram ram' : PhysMem} {f g : PhysFrame} {i j : Nat} {e : PageTableEntry}

theorem entry_congr (h : ram' f = ram f) : ram'.entry f = ram.entry f := by
  funext i
  simp only [entry, h]

theorem child_congr (h : ram' f = ram f) : ram'.child f = ram.child f := by
  funext i
  simp only [child, entry_congr h]

@[simp] theorem entry_setEntry : (ram.setEntry f i e).entry f i = e := by
  have bytes : leWord (fun k => (ram.setEntry f i e) f (8 * i + k)) = leWord (leByte e.toWord) := by
    refine leWord_congr fun k hk => ?_
    simp only [setEntry, true_and, show (8 * i + k) / 8 = i by omega, if_true,
      show (8 * i + k) % 8 = k by omega]
  simp only [entry, bytes, leWord_leByte, PageTableEntry.ofWord_toWord]

theorem entry_setEntry_ne (h : (g, j) ≠ (f, i)) :
    (ram.setEntry f i e).entry g j = ram.entry g j := by
  refine congrArg PageTableEntry.ofWord (leWord_congr fun k hk => ?_)
  refine if_neg fun same => h ?_
  rw [same.1, show j = i by omega]

theorem setEntry_frame (h : g ≠ f) : ram.setEntry f i e g = ram g := by
  funext off
  exact if_neg fun same => h same.1

theorem zeroFrame_frame (h : g ≠ f) : ram.zeroFrame f g = ram g := by
  funext off
  exact if_neg h

theorem copyFrame_frame {src : PhysFrame} (h : g ≠ f) : ram.copyFrame src f g = ram g := by
  funext off
  exact if_neg h

theorem copyFrame_self {src : PhysFrame} : ram.copyFrame src f f = ram src := by
  funext off
  exact if_pos rfl

theorem writeBytes_frame {start : Nat} {data : List UInt8} (h : g ≠ f) :
    ram.writeBytes f start data g = ram g := by
  funext off
  exact if_neg fun same => h same.1

@[simp] theorem entry_zeroFrame : (ram.zeroFrame f).entry f i = .unused := by
  have zero : leWord (fun k => ram.zeroFrame f f (8 * i + k)) = 0 := by
    have bytes : leWord (fun k => ram.zeroFrame f f (8 * i + k)) = leWord (fun _ => 0) :=
      leWord_congr fun k _ => by simp [zeroFrame]
    rw [bytes]
    decide
  simp only [entry, zero, PageTableEntry.ofWord_zero]

theorem entry_zeroFrame_ne (h : g ≠ f) : (ram.zeroFrame f).entry g = ram.entry g :=
  entry_congr (zeroFrame_frame h)

end PhysMem

end FerriOS.Memory
