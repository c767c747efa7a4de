import FerriOS.Exec.Image
import FerriOS.Memory.Spaces
import FerriOS.Memory.Pages

/-! # Loading is built from fresh frames

For an image whose LOAD segments lie in the lower half, preparing it writes only
frames that the allocator had left, and ends with an address space that obeys the
kernel's law. The guard page breaks that law for a moment: the tables above it
are not for user mode until the stack pages next to it are mapped.
-/

namespace FerriOS.Loader

open FerriOS.Lib FerriOS.Memory

variable {P : SlotLaw} {root pt : PhysFrame} {h : Multiset PhysFrame} {s s' : MemState}
  {addr : Nat}

/-- The pieces of a range lie in the range. -/
theorem mem_pieces {start len : Nat} (done size : Nat) (member : (done, size) ∈ pieces start len) :
    0 < size ∧ done + size ≤ len ∧ (start + done) % PAGE_SIZE + size ≤ PAGE_SIZE := by
  suffices run : ∀ fuel from_, (done, size) ∈ piecesFrom start len fuel from_ →
      0 < size ∧ done + size ≤ len ∧
        (start + done) % PAGE_SIZE + size ≤ PAGE_SIZE from run _ _ member
  intro fuel
  induction fuel with
  | zero => intro from_ member; simp [piecesFrom] at member
  | succ fuel ih =>
      intro from_ member
      simp only [piecesFrom] at member
      split at member
      · rcases List.mem_cons.mp member with here | later
        · obtain ⟨rfl, rfl⟩ := Prod.mk.inj here
          have offset : (start + done) % PAGE_SIZE < PAGE_SIZE := Nat.mod_lt _ (by decide)
          omega
        · exact ih _ later
      · simp at member

/-- A store through the page table writes one page of the tree, or nothing. -/
theorem writeMapped_spec {bytes : List UInt8} (lower : addr < 2 ^ 47)
    (distinct : (owned 4 root h s).Nodup) :
    (writeMapped root addr bytes s).Sat False (fun _ s' => Extends P 4 root h h s s')
      (fun _ s' => Extends P 4 root h h s s') := by
  simp only [writeMapped, virtAddr, VirtAddr.new_lower lower, Prog.expect, Prog.pure_bind,
    Prog.bind_ok (walkPagetable_lookup _ _ _)]
  cases found : lookup s.ram root addr with
  | none => exact Extends.refl
  | some slot =>
      obtain ⟨pt, i⟩ := slot
      obtain ⟨p, rfl⟩ := lookup_path lower found
      simp only [Prog.get_bind]
      by_cases linked : (s.ram.entry pt (ptIndex addr)).present = true
      · simp only [linked, if_true]
        have page := p.snoc (ptIndex_fits addr) (PageTableEntry.child_eq_some.mpr ⟨linked, rfl⟩)
        exact leaf_write_extends distinct page fun f other => PhysMem.writeBytes_frame other
      · simp only [linked, Bool.false_eq_true, if_false]
        exact Extends.refl

/-- The loops of the loader store page by page. -/
private theorem writeLoop_spec {start len : Nat} (bytes : Nat × Nat → List UInt8)
    (lower : start + len ≤ 2 ^ 47) (distinct : (owned 4 root h s).Nodup) :
    (Prog.each (pieces start len)
    (fun piece => writeMapped root (start + piece.1) (bytes piece)) s).Sat
      False (fun _ s' => Extends P 4 root h h s s') (fun _ s' => Extends P 4 root h h s s') := by
  refine Outcome.Sat.each_keep (fun s' => Extends P 4 root h h s s') _
    (fun piece member s₁ done => ?_) .refl
  have bounds := mem_pieces piece.1 piece.2 member
  exact (writeMapped_spec (by omega) (done.nodup distinct)).mono id
    (fun _ _ step => done.trans step)
    fun _ _ step => done.trans step

theorem copyToUserPagetable_spec {dst : Nat} {src : List UInt8} (lower : dst + src.length ≤ 2 ^ 47)
    (distinct : (owned 4 root h s).Nodup) :
    (copyToUserPagetable root dst src s).Sat False (fun _ s' => Extends P 4 root h h s s')
      (fun _ s' => Extends P 4 root h h s s') :=
  writeLoop_spec _ lower distinct

theorem zeroUserRange_spec {start len : Nat} (lower : start + len ≤ 2 ^ 47)
    (distinct : (owned 4 root h s).Nodup) :
    (zeroUserRange root start len s).Sat False (fun _ s' => Extends P 4 root h h s s')
      (fun _ s' => Extends P 4 root h h s s') :=
  writeLoop_spec _ lower distinct

/-- The slot of a page that is mapped is found. -/
theorem lookup_mapped (mapped : PageMapped s.ram root addr) :
    ∃ pt, lookup s.ram root addr = some (pt, ptIndex addr) ∧
      (s.ram.entry pt (ptIndex addr)).present = true := by
  obtain ⟨frame, page⟩ := mapped
  change TreePath s.ram 4 root
    [pml4Index addr, pdptIndex addr, pdIndex addr, ptIndex addr] 0 frame at page
  cases page with
  | cons _ link₁ page =>
  cases page with
  | cons _ link₂ page =>
  cases page with
  | cons _ link₃ page =>
  cases page with
  | cons _ link₄ page =>
  refine ⟨_, ?_, (PageTableEntry.child_eq_some.mp link₄).1⟩
  simp only [lookup, Option.bind_eq_bind, link₁, Option.bind_some, link₂, link₃]
  rfl

theorem writeMapped_ok (bytes : List UInt8) (lower : addr < 2 ^ 47)
    (mapped : PageMapped s.ram root addr) :
    ∃ ram, writeMapped root addr bytes s = .ok () (s.setRam ram) := by
  obtain ⟨pt, found, present⟩ := lookup_mapped mapped
  simp only [writeMapped, virtAddr, VirtAddr.new_lower lower, Prog.expect, Prog.pure_bind,
    Prog.bind_ok (walkPagetable_lookup _ _ _), found, Prog.get_bind, present, if_true]
  exact ⟨_, rfl⟩

/-- Stores to pages that are mapped succeed. -/
theorem writePieces_mapped {start : Nat} (bytes : Nat × Nat → List UInt8)
    {pieces : List (Nat × Nat)}
    (mapped : ∀ piece ∈ pieces, start + piece.1 < 2 ^ 47 ∧ PageMapped s.ram root (start + piece.1))
    (distinct : (owned 4 root h s).Nodup) :
    ∃ ram, Prog.each pieces (fun piece =>
    writeMapped root (start + piece.1) (bytes piece)) s = .ok () (s.setRam ram) := by
  induction pieces generalizing s with
  | nil => exact ⟨s.ram, rfl⟩
  | cons piece pieces ih =>
      obtain ⟨⟨lower, here⟩, later⟩ := List.forall_mem_cons.mp mapped
      obtain ⟨ram, run⟩ := writeMapped_ok (bytes piece) lower here
      have step := (writeMapped_spec (P := Lawless) lower distinct).of_ok run
      obtain ⟨ram', rest⟩ := ih
        (fun next member => ⟨(later next member).1, step.pageMapped (later next member).2⟩)
        (step.nodup distinct)
      exact ⟨ram', (Prog.bind_ok run).trans rest⟩

/-- All pages from `lo` to `hi` are mapped. -/
def RangeMapped (root : PhysFrame) (lo hi : Nat) (s : MemState) : Prop :=
  ∀ a, lo ≤ a → a < hi → PageMapped s.ram root a

theorem copyToUserPagetable_mapped {dst : Nat} {src : List UInt8} {lo hi : Nat} (low : lo ≤ dst)
    (high : dst + src.length ≤ hi) (lower : hi ≤ 2 ^ 47) (mapped : RangeMapped root lo hi s)
    (distinct : (owned 4 root h s).Nodup) :
    ∃ ram, copyToUserPagetable root dst src s = .ok () (s.setRam ram) := by
  refine writePieces_mapped _ (fun piece member => ?_) distinct
  have bounds := mem_pieces piece.1 piece.2 member
  exact ⟨by omega, mapped _ (by omega) (by omega)⟩

theorem zeroUserRange_mapped {start len : Nat} (lower : start + len ≤ 2 ^ 47)
    (mapped : RangeMapped root start (start + len) s) (distinct : (owned 4 root h s).Nodup) :
    ∃ ram, zeroUserRange root start len s = .ok () (s.setRam ram) := by
  refine writePieces_mapped _ (fun piece member => ?_) distinct
  have bounds := mem_pieces piece.1 piece.2 member
  exact ⟨by omega, mapped _ (by omega) (by omega)⟩

theorem virtAddrSub_one {σ : Type} {va : Nat} (positive : 0 < va) (lower : va < 2 ^ 47) (s : σ) :
    virtAddrSub va 1 s = .ok (va - 1) s := by
  rw [virtAddrSub, checkedSub, if_pos (show 1 ≤ va from positive)]
  exact virtAddr_run (by omega) s

theorem segmentFlags_lawful (header : Elf64ProgramHeader) (va : Nat) :
    MapOk kernelLaw (segmentFlags header) va := by
  rw [segmentFlags]
  split <;>
  · refine ⟨by decide, by decide, ⟨by decide, fun _ => by decide⟩, fun ks _ =>
      ⟨⟨by decide, fun _ => by decide⟩, ?_⟩⟩
    rintro f ⟨small, user⟩
    refine ⟨?_, fun short => PageTableFlags.contains_or_left _ (user short)⟩
    rw [PageTableFlags.or_huge, small]
    decide

/-- The law of the loader's error exits: whatever was taken is lost. -/
def Fails (P : SlotLaw) (root : PhysFrame) (h : Multiset PhysFrame) (s s' : MemState) : Prop :=
  ∃ lost, Extends P 4 root h (lost + h) s s'

theorem Fails.of_extends (step : Extends P 4 root h h s s') : Fails P root h s s' :=
  ⟨0, by rwa [zero_add]⟩

theorem Fails.after {s₁ : MemState} (fails : Fails P root h s₁ s')
    (step : Extends P 4 root h h s s₁) : Fails P root h s s' :=
  fails.imp fun _ next => step.trans next

/-- A page of a segment is mapped, or gets the flags of the segment as well. -/
theorem ensureUserPageMapping_spec (mapper : Mapper) (header : Elf64ProgramHeader)
    (lower : addr < 2 ^ 47) (distinct : (owned 4 root h s).Nodup)
    (slots : Slots kernelLaw s.ram 4 root) :
    (ensureUserPageMapping mapper root (segmentFlags header) addr s).Sat False
      (fun _ s' => Covered kernelLaw root h [addr] s s')
      (fun _ s' => Fails kernelLaw root h s s' ∧ FramesShort root [addr] s) := by
  have lawful := segmentFlags_lawful header addr
  have fresh : ¬ PageMapped s.ram root addr →
    (mapPage mapper root addr (segmentFlags header) s).Sat False
      (fun _ s' => Covered kernelLaw root h [addr] s s')
      (fun _ s' => Fails kernelLaw root h s s' ∧ FramesShort root [addr] s) := fun unmapped =>
    (mapPage_spec mapper lawful lower distinct slots).mono id (fun _ s' mapped => mapped.1.covered)
      fun _ s' fails => ⟨fails.1, (fails.2 kernelLaw_noHuge).resolve_left unmapped⟩
  rw [ensureUserPageMapping, Prog.bind_ok (walkPagetable_lookup _ _ _)]
  cases found : lookup s.ram root addr with
  | none =>
      refine fresh fun mapped => ?_
      obtain ⟨pt, there, -⟩ := lookup_mapped mapped
      rw [found] at there
      cases there
  | some slot =>
      obtain ⟨pt, i⟩ := slot
      obtain ⟨p, rfl⟩ := lookup_path lower found
      simp only [Prog.get_bind]
      by_cases linked : (s.ram.entry pt (ptIndex addr)).present = true
      · simp only [linked, if_true]
        have mapped : ∀ a ∈ [addr], PageMapped s.ram root a := fun a member =>
          List.mem_singleton.mp member ▸ (pageMapped_iff p).mpr linked
        refine Extends.covered
          (reflag_extends (P := kernelLaw) distinct p (ptIndex_fits addr) linked
          (PageTableFlags.contains_or_left _ linked) fun law => ⟨?_, fun short => ?_⟩).1 rfl mapped
        · rw [PageTableFlags.or_huge, law.1, lawful.small]
          rfl
        · exact PageTableFlags.contains_or_left _ (law.2 short)
      · simp only [linked, Bool.false_eq_true, if_false]
        exact fresh fun mapped => linked ((pageMapped_iff p).mp mapped)

theorem mem_pageRangeInclusive {start stop page : Nat} (lower : stop < 2 ^ 47)
    (member : page ∈ pageRangeInclusive start stop) : page < 2 ^ 47 := by
  obtain ⟨k, inside, rfl⟩ := List.mem_map.mp member
  rw [List.mem_range'_1] at inside
  simp only [canonicalPage, PAGE_SIZE] at inside ⊢
  split <;> omega

/-- The pages from `start` to `stop`, by their numbers. -/
theorem mem_pageRangeInclusive_iff {start stop n : Nat} (lowerStart : start < 2 ^ 47)
    (lowerStop : stop < 2 ^ 47) :
    (∃ page ∈ pageRangeInclusive start stop, n = page / PAGE_SIZE) ↔ start / PAGE_SIZE ≤ n ∧
    n ≤ stop / PAGE_SIZE := by
  have page : ∀ k ≤ stop / PAGE_SIZE, canonicalPage k = k * PAGE_SIZE := by
    intro k small
    rw [canonicalPage, if_pos]
    simp only [PAGE_SIZE] at small
    omega
  have number : ∀ a < 2 ^ 47, a / PAGE_SIZE % 2 ^ 36 = a / PAGE_SIZE := by
    intro a lower
    simp only [PAGE_SIZE]
    omega
  simp only [pageRangeInclusive, List.mem_map, List.mem_range'_1, number _ lowerStart,
    number _ lowerStop]
  constructor
  · rintro ⟨_, ⟨k, inside, rfl⟩, rfl⟩
    rw [page k (by omega), Nat.mul_div_cancel _ (by decide)]
    omega
  · intro inside
    refine ⟨_, ⟨n, by omega, rfl⟩, ?_⟩
    rw [page n inside.2, Nat.mul_div_cancel _ (by decide)]

theorem pageContaining_div (va : Nat) : pageContaining va / PAGE_SIZE = va / PAGE_SIZE :=
  Nat.mul_div_cancel _ (by decide)

/-- A header whose segment the loader goes on to map. -/
def Loads (image : List UInt8) (header : Elf64ProgramHeader) : Prop :=
  header.filesz ≤ header.memsz ∧ header.memsz ≠ 0 ∧
    ∃ fileEnd ≤ image.length, checkedAdd header.offset header.filesz = some fileEnd

/-- A header that the checks of the loader let through: it is empty, or its segment is
    mapped and ends below the end of the lower half. -/
def Passed (image : List UInt8) (header : Elf64ProgramHeader) : Prop :=
  header.filesz = 0 ∧ header.memsz = 0 ∨ Loads image header ∧ header.vaddr + header.memsz < 2 ^ 47

/-- One of the addresses of the segment is refused by `VirtAddr::new`: its start, its end,
    or that of its last byte. -/
def SegmentPanics (header : Elf64ProgramHeader) : Prop :=
  VirtAddr.new header.vaddr = none ∨
    header.vaddr + header.memsz < 2 ^ 64 ∧
      ∀ stop, VirtAddr.new (header.vaddr + header.memsz) = some stop →
        VirtAddr.new (stop - 1) = none

theorem segmentPanics_of_full {header : Elf64ProgramHeader}
    (full : header.vaddr + header.memsz = 2 ^ 47) :
    SegmentPanics header := by
  refine .inr ⟨by omega, fun stop found => ?_⟩
  rw [full] at found
  obtain rfl := Option.some.inj found
  decide

/-- The segment ends below the end of the lower half; or the loader refuses it, because the
    sum of its address and its size overflows; or the loader panics before it maps anything,
    which `K` allows. -/
def SegmentOk (K : Prop) (header : Elf64ProgramHeader) : Prop :=
  header.vaddr + header.memsz < 2 ^ 47 ∨
    (VirtAddr.new header.vaddr ≠ none ∧ 2 ^ 64 ≤ header.vaddr + header.memsz) ∨ K ∧
    SegmentPanics header

/-- The pages of a segment. -/
def segmentPages (header : Elf64ProgramHeader) : List Nat :=
  if header.memsz = 0 then []
  else pageRangeInclusive (pageContaining header.vaddr)
    (pageContaining (header.vaddr + header.memsz - 1))

/-- The pages of a segment are mapped, so its range is. -/
private theorem Covered.segment {header : Elf64ProgramHeader} (nonzero : header.memsz ≠ 0)
    (below : header.vaddr + header.memsz < 2 ^ 47)
    (covered : Covered P root h (segmentPages header) s s') :
    RangeMapped root header.vaddr (header.vaddr + header.memsz) s' := by
  intro a low high
  have floor : ∀ {va : Nat}, va < 2 ^ 47 → pageContaining va < 2 ^ 47 := fun small =>
    (Nat.div_mul_le_self _ _).trans_lt small
  have inside : ∃ page ∈ segmentPages header, a / PAGE_SIZE = page / PAGE_SIZE := by
    rw [segmentPages, if_neg nonzero,
      mem_pageRangeInclusive_iff (floor (by omega)) (floor (by omega)),
      pageContaining_div, pageContaining_div]
    exact ⟨Nat.div_le_div_right low, Nat.div_le_div_right (by omega)⟩
  obtain ⟨page, member, same⟩ := inside
  rw [PageMapped, pageIndices_congr same]
  exact covered.mapped page member

/-- Mapping and filling a segment that ends below the end of the lower half. -/
private theorem loadPages_spec (mapper : Mapper) {header : Elf64ProgramHeader} {bytes : List UInt8}
    (nonzero : header.memsz ≠ 0) (below : header.vaddr + header.memsz < 2 ^ 47)
    (short : bytes.length ≤ header.memsz) {result : Nat} (bound : result ≤ 2 ^ 47)
    (distinct : (owned 4 root h s).Nodup) (slots : Slots kernelLaw s.ram 4 root) :
    ((do
      .each (pageRangeInclusive (pageContaining header.vaddr)
          (pageContaining (header.vaddr + header.memsz - 1)))
        (ensureUserPageMapping mapper root (segmentFlags header))
      zeroUserRange root header.vaddr header.memsz
      copyToUserPagetable root header.vaddr bytes
      pure result : Prog MemState Nat) s).Sat False
      (fun r s' => r ≤ 2 ^ 47 ∧ Covered kernelLaw root h (segmentPages header) s s')
      (fun _ s' => Fails kernelLaw root h s s' ∧ FramesShort root (segmentPages header) s) := by
  have pages : segmentPages header = pageRangeInclusive (pageContaining header.vaddr)
      (pageContaining (header.vaddr + header.memsz - 1)) := if_neg nonzero
  rw [← pages]
  refine Outcome.Sat.bind (Outcome.Sat.each (fun done s' => Covered kernelLaw root h done s s') _
    (fun done page rest s₁ split covered => ?_) .refl) fun _ s₁ covered => ?_
  · have member : page ∈ segmentPages header := by simp [split]
    have lower : page < 2 ^ 47 := by
      refine mem_pageRangeInclusive ?_ (pages ▸ member)
      exact (Nat.div_mul_le_self _ _).trans_lt (by omega)
    refine (ensureUserPageMapping_spec mapper header lower (covered.toExtends.nodup distinct)
      (covered.toExtends.slots slots)).mono id (fun _ _ next => covered.append next)
        fun _ _ fails => ?_
    exact ⟨fails.1.after covered.toExtends, covered.short fails.2 fun a inside => by
      rw [split]
      simp only [List.mem_append, List.mem_cons, List.not_mem_nil, or_false] at inside ⊢
      tauto⟩
  -- the pages are there, so the bytes find their place
  have distinct₁ := covered.toExtends.nodup distinct
  have mapped := Covered.segment nonzero below covered
  obtain ⟨ram₂, zeroed⟩ := zeroUserRange_mapped below.le mapped distinct₁
  have step₂ := (zeroUserRange_spec (P := kernelLaw) below.le distinct₁).of_ok zeroed
  have distinct₂ := step₂.nodup distinct₁
  obtain ⟨ram₃, copied⟩ : ∃ ram, copyToUserPagetable root header.vaddr bytes (s₁.setRam ram₂) =
      .ok () ((s₁.setRam ram₂).setRam ram) :=
    copyToUserPagetable_mapped le_rfl (Nat.add_le_add_left short _) below.le
      (fun a low high => step₂.pageMapped (mapped a low high)) distinct₂
  have step₃ := (copyToUserPagetable_spec (P := kernelLaw) (by omega) distinct₂).of_ok copied
  rw [Prog.bind_ok zeroed, Prog.bind_ok copied]
  have filled := (covered.append (step₂.covered rfl (by simp : ∀ a ∈ [], _))).append
    (step₃.covered rfl (by simp : ∀ a ∈ [], _))
  rw [List.append_nil, List.append_nil] at filled
  exact ⟨bound, filled⟩

theorem virtAddrSub_refused {σ : Type} {va n : Nat} (refused : VirtAddr.new (va - n) = none)
    (s : σ) :
    ∃ message, virtAddrSub va n s = .panic message := by
  rw [virtAddrSub, checkedSub]
  split
  · simp only [Prog.expect, Prog.pure_bind, virtAddr, refused]
    exact ⟨_, rfl⟩
  · exact ⟨_, rfl⟩

/-- A segment that is in the file, and one of whose addresses is refused, makes the loader
    panic. -/
theorem loadSegment_panics (mapper : Mapper) {image : List UInt8} {header : Elf64ProgramHeader}
    (loads : Loads image header) (edge : SegmentPanics header) (root : PhysFrame)
    (maxLoadEnd : Nat) (s : MemState) :
    ∃ message, loadSegment mapper image root maxLoadEnd header s = .panic message := by
  obtain ⟨sizes, nonzero, fileEnd, inside, sum⟩ := loads
  rw [loadSegment, if_neg (not_lt.mpr sizes), if_neg nonzero, sum]
  simp only [Prog.okOr, Prog.pure_bind, if_neg (not_lt.mpr inside)]
  cases start : VirtAddr.new header.vaddr with
  | none =>
      simp only [virtAddr, start, Prog.expect, Prog.crash_bind]
      exact ⟨_, rfl⟩
  | some segmentStart =>
      obtain ⟨fits, refused⟩ := edge.resolve_left (by simp [start])
      have stop : checkedAdd header.vaddr header.memsz = some (header.vaddr + header.memsz) :=
        if_pos fits
      simp only [virtAddr, start, Prog.expect, Prog.pure_bind, stop]
      cases last : VirtAddr.new (header.vaddr + header.memsz) with
      | none =>
          simp only [Prog.crash_bind]
          exact ⟨_, rfl⟩
      | some top =>
          obtain ⟨message, run⟩ := virtAddrSub_refused (refused top last) s
          exact ⟨message, by rw [Prog.pure_bind, Prog.bind_run, run]⟩

/-- A segment of the lower half is loaded into pages of the tree. -/
theorem loadSegment_spec {K : Prop} (mapper : Mapper) (image : List UInt8) {maxLoadEnd : Nat}
    {header : Elf64ProgramHeader} (confined : Loads image header → SegmentOk K header)
    (bound : maxLoadEnd ≤ 2 ^ 47) (distinct : (owned 4 root h s).Nodup)
    (slots : Slots kernelLaw s.ram 4 root) :
    (loadSegment mapper image root maxLoadEnd header s).Sat K
      (fun r s' => r ≤ 2 ^ 47 ∧ Covered kernelLaw root h (segmentPages header) s s' ∧
        Passed image header)
      (fun _ s' => Fails kernelLaw root h s s' ∧
        (Passed image header → FramesShort root (segmentPages header) s)) := by
  rw [loadSegment]
  split
  case isTrue sizes =>
    refine ⟨.of_extends .refl, fun passed => ?_⟩
    rcases passed with ⟨file, memory⟩ | loads
    · omega
    · exact absurd loads.1.1 (not_le.mpr sizes)
  rename_i sizes
  split
  case isTrue zero =>
    refine ⟨bound, ?_, .inl ⟨by omega, zero⟩⟩
    rw [segmentPages, if_pos zero]
    exact .refl
  rename_i nonzero
  have loaded : Passed image header → Loads image header ∧ header.vaddr + header.memsz < 2 ^ 47 :=
    fun passed =>
    passed.resolve_left fun empty => nonzero empty.2
  cases sum : checkedAdd header.offset header.filesz with
  | none =>
      refine ⟨.of_extends .refl, fun passed => ?_⟩
      obtain ⟨fileEnd, -, there⟩ := (loaded passed).1.2.2
      rw [sum] at there
      cases there
  | some fileEnd =>
      simp only [Prog.okOr, Prog.pure_bind]
      split
      case isTrue truncated =>
        refine ⟨.of_extends .refl, fun passed => ?_⟩
        obtain ⟨fileEnd', inside, there⟩ := (loaded passed).1.2.2
        obtain rfl := Option.some.inj (sum.symm.trans there)
        exact absurd inside (not_le.mpr truncated)
      rename_i inside
      have loads : Loads image header := ⟨not_lt.mp sizes, nonzero, fileEnd, not_lt.mp inside, sum⟩
      have short : ((image.take fileEnd).drop header.offset).length ≤ header.memsz := by
        have length := checkedAdd_eq sum
        simp only [List.length_drop, List.length_take]
        omega
      rcases confined loads with below | ⟨start, overflow⟩ | ⟨panics, edge⟩
      · have stop : checkedAdd header.vaddr header.memsz = some (header.vaddr + header.memsz) :=
          if_pos (below.trans (by decide))
        simp only [Prog.bind_ok (virtAddr_run (show header.vaddr < 2 ^ 47 by omega) _), stop,
          Prog.pure_bind, Prog.bind_ok (virtAddr_run below _),
          Prog.bind_ok (virtAddrSub_one (show 0 < header.vaddr + header.memsz by omega) below _)]
        exact (loadPages_spec mapper nonzero below short
          (max_le bound below.le) distinct slots).mono
          False.elim (fun _ _ done => ⟨done.1, done.2, .inr ⟨loads, below⟩⟩) fun _ _ fails =>
            ⟨fails.1, fun _ => fails.2⟩
      · obtain ⟨segmentStart, found⟩ := Option.ne_none_iff_exists'.mp start
        have stop : checkedAdd header.vaddr header.memsz = none := if_neg (not_lt.mpr overflow)
        simp only [virtAddr, found, Prog.expect, Prog.pure_bind, stop, Prog.fail_bind]
        refine ⟨.of_extends .refl, fun passed => ?_⟩
        have below := (loaded passed).2
        omega
      · -- one of the three calls of `VirtAddr::new` before the first mapping panics
        obtain ⟨message, run⟩ := loadSegment_panics mapper loads edge root maxLoadEnd s
        rw [loadSegment, if_neg sizes, if_neg nonzero, sum] at run
        simp only [Prog.okOr, Prog.pure_bind, if_neg inside] at run
        rw [run]
        exact panics

/-- The program header `i` of an image. -/
@[irreducible] def headerAt (image : List UInt8) (i : Nat) : Elf64ProgramHeader :=
  .read image ((Elf64Header.read image).phoff + i * ELF_PROGRAM_HEADER_SIZE)

/-- The program header `i` lies in the file. -/
def HeaderInFile (image : List UInt8) (i : Nat) : Prop :=
  (Elf64Header.read image).phoff + (i + 1) * ELF_PROGRAM_HEADER_SIZE ≤ image.length ∧
    (Elf64Header.read image).phoff + (i + 1) * ELF_PROGRAM_HEADER_SIZE < 2 ^ 64

/-- The pages of the LOAD segments of some headers. -/
def loadedPages (image : List UInt8) (is : List Nat) : List Nat :=
  is.flatMap fun i => if (headerAt image i).progType = ELF_PROG_LOAD then segmentPages
    (headerAt image i) else []

/-- The loader comes to header `i`: it is in the file, the headers before it pass the
    checks, and there are frames for their pages and for the tables above these. -/
structure Reached (image : List UInt8) (frames i : Nat) : Prop where
  size : (Elf64Header.read image).phentsize = ELF_PROGRAM_HEADER_SIZE
  inside : i < (Elf64Header.read image).phnum
  inFile : HeaderInFile image i
  passed : ∀ j < i, (headerAt image j).progType = ELF_PROG_LOAD → Passed image (headerAt image j)
  enough : ({[]} ∪ wanted (loadedPages image (List.range i))).card ≤ frames

/-- Every segment that the loader comes to lies in the lower half, or makes it return an
    error or panic before it maps anything of it; `K` allows the panic. -/
def SegmentsOk (K : Prop) (image : List UInt8) (frames : Nat) : Prop :=
  ∀ i, Reached image frames i → (headerAt image i).progType = ELF_PROG_LOAD →
    Loads image (headerAt image i) →
    SegmentOk K (headerAt image i)

/-- The file starts with the header of an executable for this machine. -/
structure HeaderAccepted (image : List UInt8) : Prop where
  size : ELF_HEADER_SIZE ≤ image.length
  magic : (Elf64Header.read image).ident.take 4 = [0x7F, 0x45, 0x4C, 0x46]
  elfClass : (Elf64Header.read image).ident.getD 4 0 = ELF_CLASS_64 ∧
    (Elf64Header.read image).ident.getD 5 0 = ELF_DATA_LE
  target : (Elf64Header.read image).elfType = ELF_TYPE_EXEC ∧
    (Elf64Header.read image).machine = ELF_MACHINE_X86_64 ∧
    (Elf64Header.read image).version = 1

/-- The header of the file is refused, or every segment that the loader comes to is in
    order. -/
def Confined (K : Prop) (image : List UInt8) (frames : Nat) : Prop :=
  HeaderAccepted image → SegmentsOk K image frames

/-- The LOAD segments of an image lie in the lower half. -/
def LowerHalf (image : List UInt8) : Prop :=
  ∀ i < (Elf64Header.read image).phnum, (headerAt image i).progType = ELF_PROG_LOAD →
    (headerAt image i).memsz ≠ 0 → (headerAt image i).vaddr + (headerAt image i).memsz ≤ 2 ^ 47

theorem SegmentOk.of_lower {header : Elf64ProgramHeader}
    (lower : header.vaddr + header.memsz ≤ 2 ^ 47) :
    SegmentOk True header :=
  lower.lt_or_eq.imp id fun full => .inr ⟨trivial, segmentPanics_of_full full⟩

theorem LowerHalf.segmentsOk {image : List UInt8} {frames : Nat} (lower : LowerHalf image) :
    SegmentsOk True image frames :=
  fun i reached load loads => .of_lower (lower i reached.inside load loads.2.1)

theorem LowerHalf.confined {image : List UInt8} {frames : Nat} (lower : LowerHalf image) :
    Confined True image frames :=
  fun _ => lower.segmentsOk

/-- A program header that lies in the file is read from it. -/
theorem readProgramHeader_inFile {image : List UInt8} {i : Nat} (inFile : HeaderInFile image i)
    (size : (Elf64Header.read image).phentsize = ELF_PROGRAM_HEADER_SIZE) (s : MemState) :
    readProgramHeader image (Elf64Header.read image) i s = .ok (headerAt image i) s := by
  obtain ⟨inside, small⟩ := inFile
  rw [Nat.add_one_mul, ← Nat.add_assoc] at inside small
  have offset : checkedMul i ELF_PROGRAM_HEADER_SIZE = some (i * ELF_PROGRAM_HEADER_SIZE) :=
    if_pos (by omega)
  have start : checkedAdd (Elf64Header.read image).phoff (i * ELF_PROGRAM_HEADER_SIZE) = some _ :=
    if_pos (by omega)
  have stop : checkedAdd ((Elf64Header.read image).phoff + i * ELF_PROGRAM_HEADER_SIZE) ELF_PROGRAM_HEADER_SIZE = some _ :=
    if_pos small
  simp only [readProgramHeader, size, offset, start, stop, Prog.okOr_some, Prog.pure_bind,
    if_neg (not_lt.mpr inside),
    headerAt, Prog.pure_run]

/-- A program header is read from the file or refused. -/
theorem readProgramHeader_spec {image : List UInt8} (size : (Elf64Header.read image).phentsize =
    ELF_PROGRAM_HEADER_SIZE) (i : Nat) (s : MemState) :
    (readProgramHeader image (Elf64Header.read image) i s).Sat False
      (fun header s' => header = headerAt image i ∧ s' = s ∧ HeaderInFile image i)
        (fun _ s' => s' = s) := by
  by_cases inFile : HeaderInFile image i
  · rw [readProgramHeader_inFile inFile size]
    exact ⟨rfl, rfl, inFile⟩
  -- one of the checks on the way refuses it
  rw [readProgramHeader, size]
  simp only [checkedMul, checkedAdd]
  split
  case isFalse => rfl
  simp only [Prog.okOr_some, Prog.pure_bind]
  split
  case isFalse => rfl
  simp only [Prog.okOr_some, Prog.pure_bind]
  split
  case isFalse => rfl
  rename_i small
  simp only [Prog.okOr_some, Prog.pure_bind]
  split
  · rfl
  · rename_i inside
    refine absurd ⟨?_, ?_⟩ inFile
    · simp only [ELF_PROGRAM_HEADER_SIZE] at inside ⊢
      omega
    · simp only [ELF_PROGRAM_HEADER_SIZE] at small ⊢
      omega

theorem range_around {n i : Nat} (inside : i < n) :
    ∃ rest, List.range n = List.range i ++ i :: rest := by
  obtain ⟨k, count⟩ := Nat.exists_eq_add_of_lt inside
  rw [count, Nat.add_assoc, List.range_add, List.range_succ_eq_map, List.map_cons, Nat.add_zero]
  exact ⟨_, rfl⟩

theorem range_split {n i : Nat} {done rest : List Nat} (split : List.range n = done ++ i :: rest) :
    i < n ∧ done = List.range i := by
  have length := congrArg List.length split
  simp only [List.length_range, List.length_append, List.length_cons] at length
  have here : (List.range n)[done.length]? = some i := by simp [split]
  rw [List.getElem?_range (by omega)] at here
  obtain rfl := Option.some.inj here
  refine ⟨by omega, ?_⟩
  have initial : (List.range n).take done.length = done := by simp [split]
  rw [← initial, List.take_range, List.length_range, Nat.min_eq_left (by omega)]

/-- The loop of the loader: the headers in `done` passed, and their pages are mapped. -/
structure LoadedUpTo (image : List UInt8) (root : PhysFrame) (h : Multiset PhysFrame)
    (s : MemState) (done : List Nat) (maxLoadEnd : Nat) (s' : MemState) : Prop where
  bound : maxLoadEnd ≤ 2 ^ 47
  covered : Covered kernelLaw root h (loadedPages image done) s s'
  passed : ∀ j ∈ done, (headerAt image j).progType = ELF_PROG_LOAD → Passed image (headerAt image j)

namespace LoadedUpTo

variable {image : List UInt8} {done : List Nat} {maxLoadEnd maxLoadEnd' i : Nat} {s₁ : MemState}

theorem start : LoadedUpTo image root h s [] 0 s where
  bound := Nat.zero_le _
  covered := .refl
  passed _ never := absurd never List.not_mem_nil

private theorem snoc (loaded : LoadedUpTo image root h s done maxLoadEnd s₁)
  (bound : maxLoadEnd' ≤ 2 ^ 47)
    (covered : Covered kernelLaw root h (loadedPages image [i]) s₁ s')
    (here : (headerAt image i).progType = ELF_PROG_LOAD → Passed image (headerAt image i)) :
    LoadedUpTo image root h s (done ++ [i]) maxLoadEnd' s' where
  bound := bound
  covered := by
    have both := loaded.covered.append covered
    rwa [loadedPages, loadedPages, ← List.flatMap_append] at both
  passed j member := by
    rcases List.mem_append.mp member with old | new
    · exact loaded.passed j old
    · rw [List.mem_singleton.mp new]
      exact here

/-- The tree holds the pages of the headers so far, so there were frames for them. -/
theorem enough (loaded : LoadedUpTo image root h s done maxLoadEnd s') :
    ({[]} ∪ wanted (loadedPages image done)).card ≤
    (treeRoutes s.ram 4 root).card + Multiset.card s.available := by
  have some : {[]} ∪ wanted (loadedPages image done) ⊆ treeRoutes s'.ram 4 root := by
    rw [loaded.covered.routes]
    refine Finset.union_subset (fun is member => ?_) Finset.subset_union_right
    obtain rfl := Finset.mem_singleton.mp member
    exact Finset.mem_union_left _ (mem_treeRoutes.mpr ⟨4, root, .nil⟩)
  have fewer := Finset.card_le_card some
  have count := loaded.covered.toConserves.count
  omega

end LoadedUpTo

/-- One turn of the loop; the segment of a header that passes is loaded if there are frames. -/
theorem loadHeader_spec {K : Prop} (mapper : Mapper) {image : List UInt8} {done : List Nat}
    {maxLoadEnd i : Nat}
    {s₁ : MemState} (size : (Elf64Header.read image).phentsize = ELF_PROGRAM_HEADER_SIZE)
    (confined : HeaderInFile image i → (headerAt image i).progType = ELF_PROG_LOAD →
    Loads image (headerAt image i) →
      SegmentOk K (headerAt image i))
    (loaded : LoadedUpTo image root h s done maxLoadEnd s₁) (distinct : (owned 4 root h s).Nodup)
    (slots : Slots kernelLaw s.ram 4 root) :
    ((do
      let header ← readProgramHeader image (Elf64Header.read image) i
      if header.progType ≠ ELF_PROG_LOAD then pure maxLoadEnd
      else loadSegment mapper image root maxLoadEnd header : Prog MemState Nat) s₁).Sat K
      (fun r s' => LoadedUpTo image root h s (done ++ [i]) r s')
      (fun _ s' => Fails kernelLaw root h s s' ∧
        (HeaderInFile image i →
          ((headerAt image i).progType = ELF_PROG_LOAD → Passed image (headerAt image i)) →
          FramesShort root (loadedPages image (done ++ [i])) s)) := by
  have step := loaded.covered.toExtends
  by_cases inFile : HeaderInFile image i
  case neg =>
    refine Outcome.Sat.bind ((readProgramHeader_spec size i s₁).mono False.elim
      (fun _ _ read => read)
      fun _ _ same => ⟨same ▸ .of_extends step, fun there => absurd there inFile⟩)
        fun header s₂ read => ?_
    exact absurd read.2.2 inFile
  rw [Prog.bind_ok (readProgramHeader_inFile inFile size s₁)]
  split
  case isTrue other =>
    rw [Prog.pure_run, Outcome.sat_ok]
    refine loaded.snoc loaded.bound ?_ fun load => absurd load other
    rw [loadedPages, List.flatMap_singleton, if_neg other]
    exact .refl
  case isFalse segment =>
    have load := not_ne_iff.mp segment
    have pages : loadedPages image [i] = segmentPages (headerAt image i) := by
      rw [loadedPages, List.flatMap_singleton, if_pos load]
    refine (loadSegment_spec mapper image (confined inFile load) loaded.bound (step.nodup distinct)
      (step.slots slots)).mono id
        (fun _ _ next => loaded.snoc next.1 (pages ▸ next.2.1) fun _ => next.2.2)
      fun _ _ fails => ⟨fails.1.after step, fun _ passed => ?_⟩
    refine loaded.covered.short (fails.2 (passed load)) fun a member => ?_
    rwa [loadedPages, List.flatMap_append, ← loadedPages, ← loadedPages, pages]

/-- Every segment of a confined image is loaded into pages of the tree. -/
theorem loadElfSegments_spec {K : Prop} (mapper : Mapper) {image : List UInt8} {frames : Nat}
    (confined : SegmentsOk K image frames)
    (held : (treeRoutes s.ram 4 root).card + Multiset.card s.available ≤ frames)
    (distinct : (owned 4 root h s).Nodup) (slots : Slots kernelLaw s.ram 4 root) :
    (loadElfSegments mapper image (.read image) root s).Sat K
      (fun r s' => r ≤ 2 ^ 47 ∧ Extends kernelLaw 4 root h h s s')
      (fun _ s' => Fails kernelLaw root h s s') := by
  rw [loadElfSegments]
  split
  · exact .of_extends .refl
  rename_i other
  have size := not_ne_iff.mp other
  refine Outcome.Sat.bind (Outcome.Sat.foldlM (LoadedUpTo image root h s) _
    (fun done i rest maxLoadEnd s₁ split loaded => ?_) .start) fun maxLoadEnd s₁ loaded => ?_
  · obtain ⟨inside, rfl⟩ := range_split split
    have reached : HeaderInFile image i → Reached image frames i := fun inFile =>
      ⟨size, inside, inFile, fun j before => loaded.passed j (List.mem_range.mpr before),
        loaded.enough.trans held⟩
    exact (loadHeader_spec mapper size
      (fun inFile => confined i (reached inFile)) loaded distinct slots).mono id
      (fun _ _ next => next) fun _ _ fails => fails.1
  · rw [pageRoundUp_of_lower loaded.bound]
    refine ⟨?_, loaded.covered.toExtends⟩
    have bound := loaded.bound
    simp only [PAGE_SIZE]
    omega

/-- Two stores or early returns in a row, in a tree that only grows. -/
private theorem bind_stack {α β : Type} {x : Prog MemState α} {f : α → Prog MemState β}
    {Q : α → Prop} {R : β → Prop}
    (first : (x s).Sat False (fun a s' => Q a ∧ Extends P 4 root h h s s')
      (fun _ s' => Extends P 4 root h h s s'))
    (rest : ∀ a s₁, Q a → Extends P 4 root h h s s₁ → (f a s₁).Sat False
      (fun b s' => R b ∧ Extends P 4 root h h s₁ s') (fun _ s' => Extends P 4 root h h s₁ s')) :
    ((x >>= f) s).Sat False (fun b s' => R b ∧ Extends P 4 root h h s s')
      (fun _ s' => Extends P 4 root h h s s') :=
  Outcome.Sat.bind first fun a s₁ ⟨value, step⟩ =>
    (rest a s₁ value step).mono id (fun _ _ next => ⟨next.1, step.trans next.2⟩)
      fun _ _ next => step.trans next

private theorem checkedSub_spec (message : String) {a b : Nat} :
    ((.okOr message (checkedSub a b) : Prog MemState Nat) s).Sat False
      (fun c s' => c + b = a ∧ Extends P 4 root h h s s')
        (fun _ s' => Extends P 4 root h h s s') := by
  rw [checkedSub]
  split
  · exact ⟨by omega, .refl⟩
  · exact Extends.refl

private theorem copy_stack {dst : Nat} {src : List UInt8} (lower : dst + src.length ≤ 2 ^ 47)
    (distinct : (owned 4 root h s).Nodup) :
    (copyToUserPagetable root dst src s).Sat False (fun _ s' => True ∧ Extends P 4 root h h s s')
      (fun _ s' => Extends P 4 root h h s s') :=
  (copyToUserPagetable_spec lower distinct).mono id (fun _ _ step => ⟨trivial, step⟩)
    fun _ _ step => step

theorem pushArgument_spec {stack : Nat × List Nat} {arg : List UInt8} (lower : stack.1 ≤ 2 ^ 47)
    (distinct : (owned 4 root h s).Nodup) :
    (pushArgument root stack arg s).Sat False
      (fun stack' s' => stack'.1 ≤ 2 ^ 47 ∧ Extends P 4 root h h s s')
      (fun _ s' => Extends P 4 root h h s s') := by
  refine bind_stack (checkedSub_spec _) fun sp s₁ below step₁ => ?_
  have aligned : sp / 8 * 8 ≤ sp := Nat.div_mul_le_self _ _
  refine bind_stack (copy_stack (by omega) (step₁.nodup distinct)) fun _ s₂ _ step₂ => ?_
  refine bind_stack (copy_stack (by simp only [List.length_singleton]; omega)
    (step₂.nodup (step₁.nodup distinct))) fun _ s₃ _ step₃ => ?_
  exact ⟨by simp only; omega, .refl⟩

theorem length_words (data : List Nat) : (data.flatMap (leBytes · 8)).length = data.length * 8 := by
  have word : ∀ n v, (leBytes v n).length = n := by
    intro n
    induction n with
    | zero => exact fun _ => rfl
    | succ n ih => exact fun v => by rw [leBytes, List.length_cons, ih]
  induction data with
  | nil => rfl
  | cons v data ih =>
      rw [List.flatMap_cons, List.length_append, ih, word, List.length_cons]
      omega

/-- The initial stack is written below its top, which is in the lower half. -/
theorem setupUserStack_spec {argv : List (List UInt8)} {stackTop : Nat} (lower : stackTop ≤ 2 ^ 47)
    (distinct : (owned 4 root h s).Nodup) :
    (setupUserStack root argv stackTop s).Sat False (fun _ s' => True ∧ Extends P 4 root h h s s')
      (fun _ s' => Extends P 4 root h h s s') := by
  refine bind_stack (Outcome.Sat.foldlM
    (fun _ (stack : Nat × List Nat) s' => stack.1 ≤ 2 ^ 47 ∧ Extends P 4 root h h s s') _
    (fun done arg rest stack s₁ _ inv => ?_) ⟨lower, .refl⟩) fun stack s₁ below step₁ => ?_
  · exact (pushArgument_spec inv.1 (inv.2.nodup distinct)).mono id
      (fun _ _ next => ⟨next.1, inv.2.trans next.2⟩) fun _ _ next => inv.2.trans next
  refine bind_stack (Outcome.Sat.okOr (Q := fun bytes s' => bytes = (stack.2 ++ [0]).length * 8 ∧
    Extends P 4 root h h s₁ s') (fun bytes found => ?_) fun _ => .refl) fun bytes s₂ size step₂ =>
      ?_
  · rw [checkedMul] at found
    split at found
    · exact ⟨(Option.some.inj found).symm, .refl⟩
    · cases found
  have distinct₂ := step₂.nodup (step₁.nodup distinct)
  refine bind_stack (checkedSub_spec _) fun sp s₃ left step₃ => ?_
  have aligned : sp / 16 * 16 ≤ sp := Nat.div_mul_le_self _ _
  refine bind_stack (copy_stack ?_ (step₃.nodup distinct₂)) fun _ s₄ _ step₄ => ?_
  · rw [length_words]
    omega
  refine bind_stack (checkedSub_spec _) fun sp' s₅ left' step₅ => ?_
  refine bind_stack (copy_stack ?_ (step₅.nodup (step₄.nodup (step₃.nodup distinct₂))))
    fun _ s₆ _ _ => ?_
  · rw [length_words]
    omega
  exact ⟨trivial, .refl⟩

/-- The law while the guard page is mapped and the stack is not: the tables above
    the guard page need not be for user mode. -/
def guardLaw : SlotLaw := fun is f =>
  f.contains .HUGE_PAGE = false ∧
    (is.length < 4 → f.contains .USER_ACCESSIBLE = true ∨ Along [] (tableIndices guardPage) is)

theorem guardLaw_of_kernelLaw (is : List Nat) (f : PageTableFlags) (law : kernelLaw is f) :
    guardLaw is f :=
  ⟨law.1, fun short => .inl (law.2 short)⟩

theorem guardLaw_noHuge : NoHuge guardLaw := fun _ _ law => law.1

theorem guard_mapOk : MapOk guardLaw (.PRESENT ||| .WRITABLE) guardPage where
  present := by decide
  small := by decide
  leaf := ⟨by decide, fun short => absurd short (by decide)⟩
  tables ks along := by
    refine ⟨⟨by decide, fun _ => .inr along⟩, fun f law => ⟨?_, fun _ => .inr along⟩⟩
    rw [PageTableFlags.or_huge, law.1]
    decide

/-- The flags of the stack pages. -/
private theorem stack_mapOk {P : SlotLaw} (va : Nat)
    (insert : ∀ ks, P ks tableFlags) (widen : ∀ ks f, P ks f → P ks (f ||| tableFlags)) :
    MapOk P (.PRESENT ||| .WRITABLE ||| .USER_ACCESSIBLE) va where
  present := by decide
  small := by decide
  leaf := insert _
  tables ks _ := by
    have same : (PageTableFlags.PRESENT ||| .WRITABLE ||| .USER_ACCESSIBLE) &&& tableFlags = tableFlags := by
      decide
    rw [same]
    exact ⟨insert ks, widen ks⟩

private theorem or_tableFlags_small {f : PageTableFlags} (small : f.contains .HUGE_PAGE = false) :
    (f ||| tableFlags).contains .HUGE_PAGE = false := by
  rw [PageTableFlags.or_huge, small, tableFlags_small]
  rfl

theorem stack_repairs (ks : List Nat) (f : PageTableFlags)
    (law : Widened guardLaw ((.PRESENT ||| .WRITABLE ||| .USER_ACCESSIBLE) &&& tableFlags) []
      (tableIndices stackStart) ks f) : kernelLaw ks f := by
  refine ⟨law.1.1, fun short => ?_⟩
  rcases law.1.2 short with user | along
  · exact user
  · have same : tableIndices guardPage = tableIndices stackStart := by decide
    exact PageTableFlags.contains_trans (law.2 (same ▸ along)) (by decide)

/-- The stack pages, from the lowest. -/
def stackPages : List Nat := pageAddrs stackStart STACK_PAGES

theorem mapStack_spec (mapper : Mapper) (distinct : (owned 4 root h s).Nodup)
    (slots : Slots guardLaw s.ram 4 root) :
    (mapPages mapper root stackStart STACK_PAGES
    (.PRESENT ||| .WRITABLE ||| .USER_ACCESSIBLE) s).Sat False
      (fun _ s' => Grown kernelLaw root h stackPages s s' ∧ Slots kernelLaw s'.ram 4 root)
      (fun _ s' => (∃ lost, Extends Lawless 4 root h (lost + h) s s') ∧
        RangeFails root stackPages s) :=
  mapPages_spec 7 mapper guardLaw_noHuge kernelLaw_noHuge
    (stack_mapOk stackStart (fun ks => guardLaw_of_kernelLaw _ _ (kernelLaw_tableFlags ks))
    fun ks f law =>
      ⟨or_tableFlags_small law.1, fun _ => .inl (PageTableFlags.contains_or_right f (by decide))⟩)
    stack_repairs
    (fun i _ => stack_mapOk _ kernelLaw_tableFlags fun ks f law =>
      ⟨or_tableFlags_small law.1, fun _ => PageTableFlags.contains_or_right f (by decide)⟩)
    (by decide) (by decide) distinct slots

theorem magic_of_ident {h : Elf64Header} (magic : h.ident.take 4 = [0x7F, 0x45, 0x4C, 0x46]) :
    h.magic = ELF_MAGIC_NUM := by
  have byte : ∀ i < 4, h.ident.getD i 0 = [0x7F, 0x45, 0x4C, 0x46].getD i 0 := by
    intro i small
    rw [← magic, List.getD_eq_getElem?_getD, List.getD_eq_getElem?_getD,
      List.getElem?_take_of_lt small]
  rw [Elf64Header.magic]
  simp only [readLe, byte 0 (by decide), byte 1 (by decide), byte 2 (by decide), byte 3
    (by decide), Nat.zero_add,
    Nat.reduceAdd]
  rfl

theorem readElfHeader_accepted {image : List UInt8} (accepted : HeaderAccepted image)
    (s : MemState) :
    readElfHeader image s = .ok (.read image) s := by
  obtain ⟨size, magic, ⟨bits, order⟩, ⟨elfType, machine, version⟩⟩ := accepted
  rw [readElfHeader, if_neg (not_lt.mpr size)]
  simp only [magic, bits, order, elfType, machine, version, magic_of_ident magic, ne_eq, not_true,
    or_self, if_false,
    Prog.pure_run]

theorem readElfHeader_refused {image : List UInt8} (refused : ¬ HeaderAccepted image)
    (s : MemState) :
    ∃ message, readElfHeader image s = .err message s := by
  rw [readElfHeader]
  split
  · exact ⟨_, rfl⟩
  simp only []
  split_ifs with magic elfClass target number
  · exact ⟨_, rfl⟩
  · exact ⟨_, rfl⟩
  · exact ⟨_, rfl⟩
  · exact ⟨_, rfl⟩
  · rename_i size
    obtain ⟨bits, order⟩ := not_or.mp elfClass
    obtain ⟨elfType, rest⟩ := not_or.mp target
    obtain ⟨machine, version⟩ := not_or.mp rest
    refine absurd ⟨not_lt.mp size, not_not.mp magic, ⟨not_not.mp bits, not_not.mp order⟩,
      not_not.mp elfType,
      not_not.mp machine, not_not.mp version⟩ refused

theorem readElfHeader_spec (image : List UInt8) (s : MemState) :
    (readElfHeader image s).Sat False (fun elf s' => elf = .read image ∧ s' = s)
    (fun _ s' => s' = s) := by
  by_cases accepted : HeaderAccepted image
  · rw [readElfHeader_accepted accepted]
    exact ⟨rfl, rfl⟩
  · obtain ⟨message, refused⟩ := readElfHeader_refused accepted s
    rw [refused]
    rfl

/-- Preparing a confined image builds an address space from frames that were
    available, or leaves the frames it took behind. -/
theorem prepareExecImage_spec {K : Prop} (mapper : Mapper) {image : List UInt8}
    (argv : List (List UInt8))
    (confined : Confined K image (Multiset.card s.available)) (distinct : s.available.Nodup) :
    (prepareExecImage mapper image argv s).Sat K
      (fun r s' => Built kernelLaw r.pageTable s s' ∧ r.heapSize ≤ 2 ^ 47)
      (fun _ s' => Abandoned s s') := by
  rw [prepareExecImage]
  split
  · exact .refl
  by_cases accepted : HeaderAccepted image
  case neg =>
    obtain ⟨message, refused⟩ := readElfHeader_refused accepted s
    rw [Prog.bind_err refused]
    exact .refl
  rw [Prog.bind_ok (readElfHeader_accepted accepted s)]
  refine Outcome.Sat.bind ((newUvm_spec s).mono False.elim (fun _ _ new => new) fun _ _ lost =>
    lost.1)
    fun root t new => ?_
  have distinct₁ : (owned 4 root 0 t).Nodup := by rwa [new.owned_eq, add_zero]
  refine Outcome.Sat.bind ((loadElfSegments_spec mapper
    (confined accepted) new.frames.le distinct₁ new.slots).mono id
    (fun _ _ loaded => loaded) fun _ _ ⟨lost, step⟩ => new.abandon distinct step)
    fun heapSize s₁ ⟨bound, step₁⟩ => ?_
  have distinct₂ := step₁.nodup distinct₁
  have slots₁ := step₁.slots new.slots
  have guardSlots := slots₁.mono guardLaw_of_kernelLaw
  refine Outcome.Sat.bind ((mapPage_spec mapper guard_mapOk (by decide) distinct₂ guardSlots).mono
    False.elim (fun _ _ mapped => mapped.1.toExtends)
    fun _ _ ⟨⟨lost, step⟩, _⟩ => new.abandon distinct ((step₁.change guardSlots).trans step))
      fun _ s₂ step₂ => ?_
  have before := (step₁.change guardSlots).trans step₂
  have slots₂ := step₂.slots guardSlots
  refine Outcome.Sat.bind ((mapStack_spec mapper (step₂.nodup distinct₂) slots₂).mono False.elim
    (fun _ _ mapped => mapped)
    fun _ _ ⟨⟨lost, step⟩, _⟩ => ?_) fun _ s₃ ⟨grown, slots₃⟩ => ?_
  · exact new.abandon distinct ((before.change (slots₂.mono fun _ _ _ => trivial)).trans step)
  have whole : Extends kernelLaw 4 root 0 0 t s₃ :=
    ((before.change (slots₂.mono fun _ _ _ => trivial)).trans
      (grown.toExtends.change (slots₃.mono (Q := Lawless) fun _ _ _ => trivial))).change slots₃
  refine Outcome.Sat.bind ((setupUserStack_spec (by decide) (whole.nodup distinct₁)).mono False.elim
    (fun _ _ step => step) fun _ _ step => new.abandon distinct (whole.trans step))
    fun stack s₄ ⟨_, step₄⟩ => ?_
  exact ⟨new.extend distinct (whole.trans step₄), bound⟩

end FerriOS.Loader
