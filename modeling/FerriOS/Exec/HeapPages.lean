import FerriOS.Memory.Leaves
import FerriOS.Memory.MapTo
import FerriOS.Exec.Loading

/-! # Which heap pages a program can write

The pages of a growth are mapped writable, and so are the tables that the growth
creates. Tables that are there already keep the flags that the loader gave them.
-/

namespace FerriOS.Loader

open FerriOS.Lib FerriOS.Memory

variable {root : PhysFrame} {s s' s₁ s₂ : MemState} {a oldsz newsz size : Nat}

/-- A page that a growth has mapped can be read, and it can be written when the tables
    that were there before can. -/
theorem growth_permits (distinct : (owned 4 root 0 s).Nodup) (slots : Slots kernelLaw s.ram 4 root)
    (grew : allocUvm root oldsz newsz s = .ok size s') (member : a ∈ growthPages oldsz newsz) :
    UserReadable s'.ram root a ∧
      (UserWritable s'.ram root a ↔ ∀ f ∈ flagsOf s.ram root a, f.contains .WRITABLE = true) := by
  obtain ⟨top, -, -⟩ := (allocUvm_spec kernelLaw_noHuge kernelLaw_tableFlags distinct slots).of_ok grew
  have below : newsz < 2 ^ 47 := by
    simpa [userSpaceTop, PAGETABLE_USER_SPACE_END, PTE_BASE_ADDRESS] using top
  have ordered : oldsz ≤ newsz := by
    by_contra shrinks
    rw [growthPages_of_le (not_le.mp shrinks).le] at member
    exact absurd member List.not_mem_nil
  have rounded := pageRoundUp_of_lower (ordered.trans below.le)
  rw [growthPages_of_lower (ordered.trans below.le)] at member
  obtain ⟨-, -, set, grow⟩ := (allocUvm_leaves ordered below rounded distinct).of_ok grew
  have lower : a < 2 ^ 47 := (mem_pageSteps member).2.trans below
  have fits := pageIndices_fits lower
  have length : (flagsOf s'.ram root a).length = 4 :=
    length_flagsAlong (leafEntry_page_path lower (set.present member rfl))
  -- what is there already lies above the page, where every table is a user table
  have old : ∀ f ∈ flagsOf s.ram root a, f.contains .PRESENT = true ∧
    f.contains .USER_ACCESSIBLE = true := by
    intro f here
    obtain ⟨ks, -, initial, law, present, route⟩ := mem_flagsAlong slots .nil fits here
    refine ⟨present, law.2 (lt_of_le_of_ne initial.length_le fun whole => ?_)⟩
    obtain rfl := initial.eq_of_length whole
    have mapped := (pageMapped_pageOf lower).mp (pageMapped_routes.mpr route)
    rw [pageOf_leafEntry] at mapped
    exact mapped (PageTableEntry.child_eq_none.mpr (set.fresh a member))
  have each : ∀ f ∈ flagsOf s'.ram root a, f ∈ flagsOf s.ram root a ∨ f = tableFlags :=
    fun f here =>
    (grow _ fits f).2 here
  refine ⟨⟨length, fun f here => ?_⟩, fun writable f here => ?_, fun above =>
    ⟨length, fun f here => ?_⟩⟩
  · rcases each f here with before | rfl
    · exact PageTableFlags.contains_or.mpr (old f before)
    · decide
  · exact (PageTableFlags.contains_or.mp (writable.2 f ((grow _ fits f).1 here))).2
  · rcases each f here with before | rfl
    · exact PageTableFlags.contains_or.mpr
        ⟨PageTableFlags.contains_or.mpr (old f before), above f before⟩
    · decide

/-- After a program of the lower half has been loaded, a page of a growth can be read,
    and it can be written if and only if every entry that is above it already is writable. -/
theorem heapPage_writable_iff (mapper : Mapper) {image : List UInt8} {argv : List (List UInt8)}
    {prepared : Exec}
    (lower : LowerHalf image) (distinct : s.available.Nodup)
    (loaded : prepareExecImage mapper image argv s = .ok prepared s₁)
    (grew : allocUvm prepared.pageTable oldsz newsz s₁ = .ok size s₂) :
    ∀ a ∈ growthPages oldsz newsz, UserReadable s₂.ram prepared.pageTable a ∧
      (UserWritable s₂.ram prepared.pageTable a ↔
        ∀ f ∈ flagsOf s₁.ram prepared.pageTable a, f.contains .WRITABLE = true) := by
  obtain ⟨built, -⟩ := (prepareExecImage_spec mapper argv lower.confined distinct).of_ok loaded
  have tree : (owned 4 prepared.pageTable 0 s₁).Nodup := by
    rw [owned, add_zero]
    exact built.ledger ▸ distinct
  exact fun a member => growth_permits tree built.slots grew member

/-- A program with one byte of memory that it may only read. -/
def readOnlyImage : List UInt8 :=
  [0x7F, 0x45, 0x4C, 0x46, 2, 1, 1, 0, 0, 0, 0, 0, 0, 0, 0, 0, 2, 0, 0x3E, 0, 1, 0, 0, 0] ++
  [0, 0, 0, 0, 0, 0, 0, 0, 64, 0, 0, 0, 0, 0, 0, 0, 0, 0, 0, 0, 0, 0, 0, 0, 0, 0, 0, 0, 64, 0, 56,
    0, 1, 0, 0, 0, 0, 0, 0, 0] ++
  [1, 0, 0, 0, 4, 0, 0, 0, 0, 0, 0, 0, 0, 0, 0, 0, 0, 0, 0, 0, 0, 16, 0, 0, 0, 0, 0, 0, 0, 0, 0,
    0] ++
  [0, 0, 0, 0, 0, 0, 0, 0, 1, 0, 0, 0, 0, 0, 0, 0, 0, 0, 0, 0, 0, 0, 0, 0]

def freshMemory : MemState := ⟨fun _ _ => 0,
    ⟨[], 0, [2, 3, 4, 5, 6, 7, 8, 9, 10, 11, 12, 13, 14, 15, 16, 17, 18, 19, 20]⟩, 1⟩

theorem freshMemory_distinct : freshMemory.available.Nodup :=
  Multiset.coe_nodup.mpr (by decide)

theorem readOnlyImage_ends {i : Nat} (inside : i < (Elf64Header.read readOnlyImage).phnum) :
    (headerAt readOnlyImage i).vaddr + (headerAt readOnlyImage i).memsz < 2 ^ 47 := by
  have count : (Elf64Header.read readOnlyImage).phnum = 1 := by decide
  obtain rfl : i = 0 := by omega
  rw [headerAt]
  decide

theorem readOnlyImage_lower : LowerHalf readOnlyImage :=
  fun _ inside _ _ => (readOnlyImage_ends inside).le

/-- The value that a run returns. -/
def valueOf {σ α : Type} : Outcome σ α → Option α
  | .ok a _ => some a
  | _ => none

theorem valueOf_eq_some {σ α : Type} {o : Outcome σ α} {b : α} (value : valueOf o = some b) :
    ∃ s, o = .ok b s := by
  cases o with
  | ok a s => exact ⟨s, by rw [Option.some.inj value]⟩
  | err => cases value
  | panic => cases value

/-- Load a program and grow its heap by a byte: where the heap was, and the flags on the
    way to the new page before and after. -/
def loadAndGrow (image : List UInt8) :
    Prog MemState (Nat × List PageTableFlags × List PageTableFlags) := do
  let exec ← prepareExecImage offsetPageTable image []
  let s₁ ← .get
  let _ ← allocUvm exec.pageTable exec.heapSize (exec.heapSize + 1)
  let s₂ ← .get
  pure (exec.heapSize, flagsOf s₁.ram exec.pageTable exec.heapSize,
    flagsOf s₂.ram exec.pageTable exec.heapSize)

theorem loadAndGrow_readOnly : valueOf (loadAndGrow readOnlyImage freshMemory) =
    some (0x100000001000, [⟨5, 0⟩, ⟨5, 0⟩, ⟨5, 0⟩], [⟨5, 0⟩, ⟨5, 0⟩, ⟨5, 0⟩, ⟨7, 0⟩]) := by
  decide +kernel

theorem readOnly_grows : ∃ exec s₁ size s₂,
    prepareExecImage offsetPageTable readOnlyImage [] freshMemory = .ok exec s₁ ∧
    allocUvm exec.pageTable exec.heapSize (exec.heapSize + 1) s₁ = .ok size s₂ ∧
      exec.heapSize = 0x100000001000 ∧
    flagsOf s₂.ram exec.pageTable exec.heapSize = [⟨5, 0⟩, ⟨5, 0⟩, ⟨5, 0⟩, ⟨7, 0⟩] := by
  obtain ⟨s, run⟩ := valueOf_eq_some loadAndGrow_readOnly
  obtain ⟨exec, s₁, loaded, run⟩ := Prog.bind_eq_ok.mp run
  rw [Prog.get_bind] at run
  obtain ⟨size, s₂, grew, run⟩ := Prog.bind_eq_ok.mp run
  rw [Prog.get_bind] at run
  have value := (Outcome.ok.inj run).1
  simp only [Prod.mk.injEq] at value
  exact ⟨exec, s₁, size, s₂, loaded, grew, value.1, value.2.2⟩

theorem heapPage_writable_iff_readOnly : ∃ exec s₁ size s₂,
    prepareExecImage offsetPageTable readOnlyImage [] freshMemory = .ok exec s₁ ∧
    allocUvm exec.pageTable exec.heapSize (exec.heapSize + 1) s₁ = .ok size s₂ ∧
    ∀ a ∈ growthPages exec.heapSize (exec.heapSize + 1), UserReadable s₂.ram exec.pageTable a ∧
      (UserWritable s₂.ram exec.pageTable a ↔ ∀ f ∈ flagsOf s₁.ram exec.pageTable a,
        f.contains .WRITABLE = true) := by
  obtain ⟨exec, s₁, size, s₂, loaded, grew, -⟩ := readOnly_grows
  exact ⟨exec, s₁, size, s₂, loaded, grew,
    heapPage_writable_iff offsetPageTable readOnlyImage_lower freshMemory_distinct loaded grew⟩

/-- The first page of the heap of that program cannot be written. -/
theorem readOnly_heap_page : LowerHalf readOnlyImage ∧ ∃ exec s₁ size s₂,
    prepareExecImage offsetPageTable readOnlyImage [] freshMemory = .ok exec s₁ ∧
    allocUvm exec.pageTable exec.heapSize (exec.heapSize + 1) s₁ = .ok size s₂ ∧
    exec.heapSize ∈ growthPages exec.heapSize (exec.heapSize + 1) ∧
      ¬ UserWritable s₂.ram exec.pageTable exec.heapSize := by
  obtain ⟨exec, s₁, size, s₂, loaded, grew, heap, flags⟩ := readOnly_grows
  refine ⟨readOnlyImage_lower, exec, s₁, size, s₂, loaded, grew, ?_, fun writable => ?_⟩
  · rw [heap]
    decide
  · have first := writable.2 ⟨5, 0⟩ (by rw [flags]; exact List.mem_cons_self)
    revert first
    decide

end FerriOS.Loader
