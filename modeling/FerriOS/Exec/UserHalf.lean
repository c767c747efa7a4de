import FerriOS.Memory.Growth
import FerriOS.Exec.HeapPages

/-! # Segments outside the user half

The loader does not ask whether a segment lies in the user half. One of the upper half is
written through the tables that all address spaces share. An image without such segments
is loaded into frames that were free.
-/

namespace FerriOS.Loader

open FerriOS.Lib FerriOS.Memory

variable {root : PhysFrame} {s s' : MemState} {ram ram' : PhysMem} {image : List UInt8} {a : Nat}

/-- The upper half is read off the root and the tables of the upper half. -/
theorem upper_congr (same : ram'.entry root = ram.entry root)
    (tables : ∀ f ∈ upperTables ram root, ram' f = ram f)
    (upper : 2 ^ 47 ≤ a) (below : a < 2 ^ 48) :
    flagsOf ram' root a = flagsOf ram root a ∧ pageOf ram' root a = pageOf ram root a := by
  have kernel : 256 ≤ pml4Index a ∧ pml4Index a < 512 := by
    rw [pml4Index]
    omega
  have inPdpt : pdptIndex a ∈ userFan 3 := by
    rw [mem_userFan, pdptIndex, if_neg (by decide)]
    omega
  have inPd : pdIndex a ∈ userFan 2 := by
    rw [mem_userFan, pdIndex, if_neg (by decide)]
    omega
  have child : ram'.child root = ram.child root := by
    funext i
    rw [PhysMem.child, PhysMem.child, same]
  have fits : FitsFrom 3 [pdptIndex a, pdIndex a, ptIndex a] :=
    ⟨inPdpt, inPd, ptIndex_fits a, trivial⟩
  have slots : pageIndices a = pml4Index a :: [pdptIndex a, pdIndex a, ptIndex a] := rfl
  rw [flagsOf, flagsOf, pageOf, pageOf, slots, flagsAlong_cons ram', flagsAlong_cons ram, follow,
    follow, same, child]
  cases link : ram.child root (pml4Index a) with
  | none =>
      rw [PageTableEntry.child_eq_none.mp link]
      simp
  | some pdpt =>
      obtain ⟨present, rfl⟩ := PageTableEntry.child_eq_some.mp link
      have table : ∀ {is d t}, TreePath ram 3 (ram.entry root (pml4Index a)).addr is (d + 1) t →
        ram' t = ram t := by
        intro is d t p
        refine tables t (mem_upperTables.mpr ⟨pml4Index a, Finset.mem_Ico.mpr kernel, ?_⟩)
        rw [link, Option.elim_some]
        exact Radix.mem_tables.mpr ⟨_, _, p⟩
      rw [if_pos present, if_pos present, Option.bind_some, Option.bind_some,
        flagsAlong_congr fits fun _ _ _ p _ => PhysMem.entry_congr (table p),
        follow_congr fits fun _ _ _ p _ => PhysMem.child_congr (table p)]
      exact ⟨rfl, rfl⟩

/-- Only frames that have been taken from the allocator are written; so the upper half of
    every page table that was in use is as it was. -/
structure OnlyTaken (s s' : MemState) : Prop where
  inUse : ∀ f ∉ s.available, s'.ram f = s.ram f
  free : ∀ f ∈ s'.available, f ∈ s.available ∧ s'.ram f = s.ram f
  upper : ∀ root, (∀ f ∈ root ::ₘ upperTables s.ram root, f ∉ s.available) → ∀ a, 2 ^ 47 ≤ a →
    a < 2 ^ 48 →
    flagsOf s'.ram root a = flagsOf s.ram root a ∧ pageOf s'.ram root a = pageOf s.ram root a

theorem OnlyTaken.of_frames (inUse : ∀ f ∉ s.available, s'.ram f = s.ram f)
    (free : ∀ f ∈ s'.available, f ∈ s.available ∧ s'.ram f = s.ram f) : OnlyTaken s s' where
  inUse := inUse
  free := free
  upper root used _ upper below :=
    upper_congr (PhysMem.entry_congr (inUse root (used root (Multiset.mem_cons_self _ _))))
      (fun f member => inUse f (used f (Multiset.mem_cons_of_mem member))) upper below

/-- An image is loaded into frames that were free, and its page table has the upper half of
    the one in CR3, if every segment that the loader comes to lies in the user half, or ends
    the load before it is mapped. -/
theorem prepareExecImage_onlyTaken (mapper : Mapper) (argv : List (List UInt8))
    (distinct : s.available.Nodup)
    (confined : Confined True image (Multiset.card s.available)) :
    (∀ exec s', prepareExecImage mapper image argv s = .ok exec s' → OnlyTaken s s' ∧
      (exec.pageTable ≠ s.cr3 → ∀ i, 256 ≤ i → i < 512 →
        s'.ram.entry exec.pageTable i = s.ram.entry s.cr3 i)) ∧
    ∀ message s', prepareExecImage mapper image argv s = .err message s' → OnlyTaken s s' := by
  have spec := prepareExecImage_spec mapper argv confined distinct
  refine ⟨fun exec s' loaded => ?_, fun message s' failed => ?_⟩
  · obtain ⟨built, -⟩ := spec.of_ok loaded
    refine ⟨.of_frames built.outside fun f left => ⟨?_, built.spare f left⟩, built.kernel⟩
    rw [← built.ledger]
    exact Multiset.mem_add.mpr (.inr left)
  · have abandoned := spec.of_err failed
    exact .of_frames abandoned.outside fun f left =>
      ⟨Multiset.mem_of_le abandoned.available left, abandoned.spare f left⟩

/-- A program with one byte at the lowest address of the upper half. -/
def upperHalfImage : List UInt8 :=
  [0x7F, 0x45, 0x4C, 0x46, 2, 1, 1, 0, 0, 0, 0, 0, 0, 0, 0, 0, 2, 0, 0x3E, 0, 1, 0, 0, 0] ++
  [0, 0, 0, 0, 0, 0, 0, 0, 64, 0, 0, 0, 0, 0, 0, 0, 0, 0, 0, 0, 0, 0, 0, 0, 0, 0, 0, 0, 64, 0, 56,
    0, 1, 0, 0, 0, 0, 0, 0, 0] ++
  [1, 0, 0, 0, 4, 0, 0, 0, 0, 0, 0, 0, 0, 0, 0, 0, 0, 0, 0, 0, 0, 0x80, 0xFF, 0xFF, 0, 0, 0, 0, 0,
    0, 0, 0] ++
  [0, 0, 0, 0, 0, 0, 0, 0, 1, 0, 0, 0, 0, 0, 0, 0, 0, 0, 0, 0, 0, 0, 0, 0]

/-- The kernel has a page there, frame 33, below the tables in the frames 30 to 32. -/
def kernelPage : PhysMem :=
  let page : PhysMem := fun f _ => if f = 33 then 0xAB else 0
  let pt := page.setEntry 32 0 ⟨33, tableFlags⟩
  let pd := pt.setEntry 31 0 ⟨32, tableFlags⟩
  (pd.setEntry 30 0 ⟨31, tableFlags⟩).setEntry 1 256 ⟨30, tableFlags⟩

theorem prepareExecImage_onlyTaken_readOnly :
    (∀ exec s', prepareExecImage offsetPageTable readOnlyImage [] freshMemory = .ok exec s' →
    OnlyTaken freshMemory s' ∧
      (exec.pageTable ≠ freshMemory.cr3 → ∀ i, 256 ≤ i → i < 512 →
        s'.ram.entry exec.pageTable i = freshMemory.ram.entry freshMemory.cr3 i)) ∧
    ∀ message s', prepareExecImage offsetPageTable readOnlyImage [] freshMemory = .err message s' →
    OnlyTaken freshMemory s' :=
  prepareExecImage_onlyTaken offsetPageTable [] freshMemory_distinct readOnlyImage_lower.confined

/-- A byte of a frame after a program has been loaded. -/
def byteAfter (image : List UInt8) (f : PhysFrame) : Prog MemState UInt8 := do
  let _ ← prepareExecImage offsetPageTable image []
  let s ← .get
  pure (s.ram f 0)

theorem byteAfter_upperHalf : valueOf
    (byteAfter upperHalfImage 33 (freshMemory.setRam kernelPage)) = some 0 := by
  decide +kernel

/-- The page is not free, and its first byte is lost. -/
theorem upperSegment_overwrites : 33 ∉ (freshMemory.setRam kernelPage).available ∧ ∃ exec s',
    prepareExecImage offsetPageTable upperHalfImage []
      (freshMemory.setRam kernelPage) = .ok exec s' ∧
    kernelPage 33 0 = 0xAB ∧ s'.ram 33 0 = 0 := by
  obtain ⟨t, run⟩ := valueOf_eq_some byteAfter_upperHalf
  obtain ⟨exec, s', loaded, run⟩ := Prog.bind_eq_ok.mp run
  rw [Prog.get_bind] at run
  refine ⟨?_, exec, s', loaded, by decide, (Outcome.ok.inj run).1⟩
  have absent : (33 : PhysFrame) ∉ freshMemory.frameAllocator.recycledFrames := by decide
  exact absent

end FerriOS.Loader
