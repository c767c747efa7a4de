import FerriOS.Exec.Bare
import FerriOS.Memory.MapTo
import FerriOS.Memory.Pages

/-! # The contents of a loaded image

What a program reads after each step of the loader: a page that is mapped is zero,
a range that is cleared or copied has its bytes, and everything else is as before.
Together the LOAD segments give the memory that the file describes.
-/

namespace FerriOS.Loader

open FerriOS.Lib FerriOS.Memory

variable {P : SlotLaw} {root : PhysFrame} {h : Multiset PhysFrame} {s s' s₁ : MemState}
  {addr a : Nat}

theorem each_ok {σ ι : Type} {body : ι → Prog σ Unit} (Inv : List ι → σ → Prop) {is : List ι}
    {s t : σ}
    (run : Prog.each is body s = .ok () t) (start : Inv [] s)
    (step : ∀ done i rest s t, is = done ++ i :: rest → Inv done s → body i s = .ok () t →
    Inv (done ++ [i]) t) :
    Inv is t := by
  refine (Outcome.Sat.each (K := True) (E := fun _ _ => True) Inv is
    (fun done i rest s split inv => ?_) start).of_ok run
  cases outcome : body i s with
  | ok value t => exact step done i rest s t split inv outcome
  | err message t => trivial
  | panic message => trivial

theorem foldlM_ok {σ ι α : Type} {body : α → ι → Prog σ α} (Inv : List ι → α → σ → Prop)
    {is : List ι} {a b : α} {s t : σ}
    (run : is.foldlM body a s = .ok b t) (start : Inv [] a s)
    (step : ∀ done i rest a b s t, is = done ++ i :: rest → Inv done a s → body a i s = .ok b t →
      Inv (done ++ [i]) b t) : Inv is b t := by
  refine (Outcome.Sat.foldlM (K := True) (E := fun _ _ => True) Inv is
    (fun done i rest a s split inv => ?_) start).of_ok run
  cases outcome : body a i s with
  | ok b t => exact step done i rest a b s t split inv outcome
  | err message t => trivial
  | panic message => trivial

/-- Outside of the addresses from `lo` to `hi`, a program reads what it read before. -/
def Unseen (root : PhysFrame) (lo hi : Nat) (s s' : MemState) : Prop :=
  ∀ a < 2 ^ 47, (a < lo ∨ hi ≤ a) → userLoad root s' a = userLoad root s a

theorem Unseen.refl {lo hi : Nat} : Unseen root lo hi s s := fun _ _ _ => rfl

theorem Unseen.trans {lo hi : Nat} (first : Unseen root lo hi s s₁)
    (second : Unseen root lo hi s₁ s') :
    Unseen root lo hi s s' :=
  fun a lower outside => (second a lower outside).trans (first a lower outside)

/-- A store within a page is read back. -/
theorem writeMapped_apart {bytes : List UInt8} (lower : addr < 2 ^ 47)
    (fits : addr % PAGE_SIZE + bytes.length ≤ PAGE_SIZE) (apart : LeavesApart s.ram root)
    (written : writeMapped root addr bytes s = .ok () s') :
    LeavesApart s'.ram root ∧ ∀ a < 2 ^ 47, userLoad root s' a =
      if addr ≤ a ∧ a < addr + bytes.length then bytes[a - addr]? else userLoad root s a := by
  simp only [writeMapped, virtAddr, VirtAddr.new_lower lower, Prog.expect, Prog.pure_bind,
    Prog.bind_ok (walkPagetable_lookup _ _ _)] at written
  cases found : lookup s.ram root addr with
  | none => simp [found] at written
  | some slot =>
      obtain ⟨pt, i⟩ := slot
      simp only [found, Prog.get_bind] at written
      by_cases linked : (s.ram.entry pt i).present = true
      · simp only [linked, if_true, writeRam_run, Outcome.ok.injEq, true_and] at written
        subst written
        have page : pageOf s.ram root addr = some (s.ram.entry pt i).addr := by
          rw [pageOf_leafEntry, leafEntry, found]
          exact PageTableEntry.child_eq_some.mpr ⟨linked, rfl⟩
        exact ⟨apart.congr (apart.tables_kept lower page), fun a lowerA =>
          apart.store_view lower page fits lowerA⟩
      · simp [linked] at written

/-- Storing a piece of the bytes and then the rest stores the bytes. -/
theorem stored_piece {src : List UInt8} {start done size : Nat} (inside : done + size ≤ src.length)
    (before : Option UInt8) :
    (if start + (done + size) ≤ a ∧ a < start + src.length then src[a - start]?
      else if start + done ≤ a ∧ a < start + done + size then ((src.drop done).take size)[a -
        (start + done)]?
      else before) =
    if start + done ≤ a ∧ a < start + src.length then src[a - start]? else before := by
  by_cases next : start + (done + size) ≤ a ∧ a < start + src.length
  · rw [if_pos next, if_pos (by omega)]
  · rw [if_neg next]
    by_cases here : start + done ≤ a ∧ a < start + done + size
    · rw [if_pos here, if_pos (by omega), List.getElem?_take, if_pos (by omega), List.getElem?_drop]
      congr 1
      omega
    · rw [if_neg here, if_neg (by omega)]

/-- The loops of the loader store a list of bytes, page by page. -/
theorem writeLoop_apart {src : List UInt8} {start : Nat} (bytes : Nat × Nat → List UInt8)
    (cut : ∀ done size, done + size ≤ src.length → bytes (done, size) = (src.drop done).take size)
    (lower : start + src.length ≤ 2 ^ 47) (fuel : Nat) :
    ∀ {done : Nat} {s : MemState}, src.length ≤ done + fuel →
      LeavesApart s.ram root →
      Prog.each (piecesFrom start src.length fuel done)
        (fun piece => writeMapped root (start + piece.1) (bytes piece)) s = .ok () s' →
      LeavesApart s'.ram root ∧ ∀ a < 2 ^ 47, userLoad root s' a =
        if start + done ≤ a ∧ a < start + src.length then src[a - start]? else userLoad root s a := by
  induction fuel with
  | zero =>
      intro done s enough apart run
      obtain ⟨-, rfl⟩ := Outcome.ok.inj run
      exact ⟨apart, fun a _ => by rw [if_neg (by omega)]⟩
  | succ fuel ih =>
      intro done s enough apart run
      rw [piecesFrom] at run
      split at run
      case isFalse ends =>
        obtain ⟨-, rfl⟩ := Outcome.ok.inj run
        exact ⟨apart, fun a _ => by rw [if_neg (by omega)]⟩
      case isTrue more =>
        set size := min (PAGE_SIZE - (start + done) % PAGE_SIZE) (src.length - done) with sizeEq
        have positive : 0 < size := by
          simp only [PAGE_SIZE] at sizeEq
          omega
        have inside : done + size ≤ src.length := by omega
        have fits : (start + done) % PAGE_SIZE + size ≤ PAGE_SIZE := by
          simp only [PAGE_SIZE] at sizeEq ⊢
          omega
        rw [Prog.each] at run
        obtain ⟨_, s₁, first, rest⟩ := Prog.bind_eq_ok.mp run
        rw [cut done size inside] at first
        have length : ((src.drop done).take size).length = size := by
          rw [List.length_take, List.length_drop]
          omega
        obtain ⟨apart₁, here⟩ := writeMapped_apart (by omega) (by rwa [length]) apart first
        obtain ⟨apart', later⟩ := ih (by omega) apart₁ rest
        refine ⟨apart', fun a lowerA => ?_⟩
        rw [later a lowerA, here a lowerA, length, stored_piece inside]

theorem copyToUserPagetable_apart {dst : Nat} {src : List UInt8} (lower : dst + src.length ≤ 2 ^ 47)
    (apart : LeavesApart s.ram root) (copied : copyToUserPagetable root dst src s = .ok () s') :
    LeavesApart s'.ram root ∧ ∀ a < 2 ^ 47, userLoad root s' a =
      if dst ≤ a ∧ a < dst + src.length then src[a - dst]? else userLoad root s a :=
  writeLoop_apart (fun piece => (src.drop piece.1).take piece.2) (fun _ _ _ => rfl) lower src.length
    (Nat.le_add_left _ _) apart copied

theorem copyToUserPagetable_view {dst : Nat} {src : List UInt8} (lower : dst + src.length ≤ 2 ^ 47)
    (distinct : (owned 4 root h s).Nodup) (copied : copyToUserPagetable root dst src s = .ok () s')
    (lowerA : a < 2 ^ 47) :
    userLoad root s' a = if dst ≤ a ∧ a < dst + src.length then src[a - dst]? else userLoad root s a :=
  (copyToUserPagetable_apart lower (leavesApart distinct) copied).2 a lowerA

/-- A range that was cleared reads as zeros. -/
theorem zeroUserRange_view {start len : Nat} (lower : start + len ≤ 2 ^ 47)
    (distinct : (owned 4 root h s).Nodup)
    (cleared : zeroUserRange root start len s = .ok () s') (lowerA : a < 2 ^ 47) :
    userLoad root s' a = if start ≤ a ∧ a < start + len then some 0 else userLoad root s a := by
  have length : (List.replicate len (0 : UInt8)).length = len := List.length_replicate
  have run : Prog.each (piecesFrom start (List.replicate len (0 : UInt8)).length len 0)
      (fun piece => writeMapped root (start + piece.1)
        (List.replicate piece.2 0)) s = .ok () s' := by
    rw [length]
    exact cleared
  have view := (writeLoop_apart (fun piece => List.replicate piece.2 0) (fun done size inside => by
    rw [List.drop_replicate, List.take_replicate, Nat.min_eq_left (by omega)]) (by rwa [length]) len
    (by rw [length, Nat.zero_add]) (leavesApart distinct) run).2 a lowerA
  rw [view, length, Nat.add_zero]
  split
  case isTrue inside => rw [List.getElem?_replicate, if_pos (by omega)]
  case isFalse => rfl

/-- A page of a segment keeps its bytes, or is zero when it is new. -/
theorem ensureUserPageMapping_view (mapper : Mapper) (header : Elf64ProgramHeader) {page : Nat}
    (lower : page < 2 ^ 47) (distinct : (owned 4 root h s).Nodup)
    (slots : Slots kernelLaw s.ram 4 root)
    (ensured : ensureUserPageMapping mapper root (segmentFlags header) page s = .ok () s')
    (lowerA : a < 2 ^ 47) :
    (a / PAGE_SIZE = page / PAGE_SIZE → userLoad root s' a = some ((userLoad root s a).getD 0)) ∧
      (a / PAGE_SIZE ≠ page / PAGE_SIZE → userLoad root s' a = userLoad root s a) := by
  have lawful := segmentFlags_lawful header page
  have fresh : mapPage mapper root page (segmentFlags header) s = .ok () s' →
      (a / PAGE_SIZE = page / PAGE_SIZE → userLoad root s' a = some ((userLoad root s a).getD 0)) ∧
        (a / PAGE_SIZE ≠ page / PAGE_SIZE → userLoad root s' a = userLoad root s a) := by
    intro mapped
    obtain ⟨here, there⟩ := mapPage_view mapper lawful lower distinct slots mapped lowerA
    refine ⟨fun same => ?_, there⟩
    obtain ⟨before, after⟩ := here same
    rw [before, after, Option.getD_none]
  rw [ensureUserPageMapping, Prog.bind_ok (walkPagetable_lookup _ _ _)] at ensured
  cases found : lookup s.ram root page with
  | none => exact fresh (by simpa only [found] using ensured)
  | some slot =>
      obtain ⟨pt, i⟩ := slot
      obtain ⟨p, rfl⟩ := lookup_path lower found
      simp only [found, Prog.get_bind] at ensured
      by_cases linked : (s.ram.entry pt (ptIndex page)).present = true
      · simp only [linked, if_true, writeRam_run, Outcome.ok.injEq, true_and] at ensured
        subst ensured
        have view := @reflag_view _ _ _ _ _ _ (segmentFlags header) distinct p linked lowerA
        refine ⟨fun same => ?_, fun _ => view⟩
        have there : pageOf s.ram root a = some (s.ram.entry pt (ptIndex page)).addr := by
          rw [pageOf_path lowerA, pageIndices_congr same]
          exact p.snoc (ptIndex_fits page) (PageTableEntry.child_eq_some.mpr ⟨linked, rfl⟩)
        rw [view, userLoad, there, Option.map_some, Option.getD_some]
      · simp only [linked, Bool.false_eq_true, if_false] at ensured
        exact fresh ensured

/-- Mapping the pages of a segment: they keep their bytes, or are zero when they are new. -/
theorem ensureUserPages_view (mapper : Mapper) (header : Elf64ProgramHeader) {start stop : Nat}
    (lowerStart : start < 2 ^ 47) (lowerStop : stop < 2 ^ 47) (distinct : (owned 4 root h s).Nodup)
    (slots : Slots kernelLaw s.ram 4 root)
    (ensured : Prog.each (pageRangeInclusive start stop)
      (ensureUserPageMapping mapper root (segmentFlags header)) s = .ok () s') :
    Extends kernelLaw 4 root h h s s' ∧ ∀ a < 2 ^ 47,
      (start / PAGE_SIZE ≤ a / PAGE_SIZE ∧ a / PAGE_SIZE ≤ stop / PAGE_SIZE →
        userLoad root s' a = some ((userLoad root s a).getD 0)) ∧
      (¬ (start / PAGE_SIZE ≤ a / PAGE_SIZE ∧ a / PAGE_SIZE ≤ stop / PAGE_SIZE) →
        userLoad root s' a = userLoad root s a) := by
  suffices loop : Extends kernelLaw 4 root h h s s' ∧ ∀ a < 2 ^ 47,
      ((∃ page ∈ pageRangeInclusive start stop, a / PAGE_SIZE = page / PAGE_SIZE) →
        userLoad root s' a = some ((userLoad root s a).getD 0)) ∧
      (¬ (∃ page ∈ pageRangeInclusive start stop, a / PAGE_SIZE = page / PAGE_SIZE) →
        userLoad root s' a = userLoad root s a) by
    refine ⟨loop.1, fun a lowerA => ?_⟩
    rw [← mem_pageRangeInclusive_iff lowerStart lowerStop]
    exact loop.2 a lowerA
  refine each_ok (fun done t => Extends kernelLaw 4 root h h s t ∧ ∀ a < 2 ^ 47,
      ((∃ page ∈ done, a / PAGE_SIZE = page / PAGE_SIZE) →
        userLoad root t a = some ((userLoad root s a).getD 0)) ∧
      (¬ (∃ page ∈ done, a / PAGE_SIZE = page / PAGE_SIZE) → userLoad root t a = userLoad root s a))
    ensured ⟨.refl, fun a _ => ⟨fun ⟨_, member, _⟩ => absurd member List.not_mem_nil, fun _ => rfl⟩⟩
    fun done page rest t t' split ⟨step, views⟩ run => ?_
  have member : page ∈ pageRangeInclusive start stop := by simp [split]
  have lower := mem_pageRangeInclusive lowerStop member
  have distinct₁ := step.nodup distinct
  have slots₁ := step.slots slots
  have next := ((ensureUserPageMapping_spec mapper header lower distinct₁ slots₁).of_ok run).toExtends
  refine ⟨step.trans next, fun a lowerA => ?_⟩
  obtain ⟨here, there⟩ := ensureUserPageMapping_view mapper header lower distinct₁ slots₁ run lowerA
  obtain ⟨old, other⟩ := views a lowerA
  simp only [List.mem_append, List.mem_singleton, or_and_right, exists_or, exists_eq_left]
  by_cases before : ∃ page ∈ done, a / PAGE_SIZE = page / PAGE_SIZE
  · refine ⟨fun _ => ?_, fun absent => absurd (.inl before) absent⟩
    by_cases same : a / PAGE_SIZE = page / PAGE_SIZE
    · rw [here same, old before, Option.getD_some]
    · rw [there same, old before]
  · refine ⟨fun now => ?_, fun absent => ?_⟩
    · rw [here (now.resolve_left before), other before]
    · rw [there fun same => absent (.inr same), other before]

/-- Memory after a segment is written to it: the bytes of the file, then zeros. -/
def Elf64ProgramHeader.store (image : List UInt8) (header : Elf64ProgramHeader) (mem : Nat → UInt8)
    (a : Nat) : UInt8 :=
  if header.vaddr ≤ a ∧ a < header.vaddr + header.filesz then image.getD
    (header.offset + (a - header.vaddr)) 0
  else if header.vaddr ≤ a ∧ a < header.vaddr + header.memsz then 0
  else mem a

/-- The page of an address has a byte of the segment. -/
def Elf64ProgramHeader.Touches (header : Elf64ProgramHeader) (a : Nat) : Prop :=
  ∃ b, b / PAGE_SIZE = a / PAGE_SIZE ∧ header.vaddr ≤ b ∧ b < header.vaddr + header.memsz

theorem touches_iff {header : Elf64ProgramHeader} (nonzero : header.memsz ≠ 0) :
    header.Touches a ↔ header.vaddr / PAGE_SIZE ≤ a / PAGE_SIZE ∧
      a / PAGE_SIZE ≤ (header.vaddr + header.memsz - 1) / PAGE_SIZE := by
  constructor
  · rintro ⟨b, same, low, high⟩
    rw [← same]
    exact ⟨Nat.div_le_div_right low, Nat.div_le_div_right (by omega)⟩
  · rintro ⟨low, high⟩
    by_cases first : a / PAGE_SIZE = header.vaddr / PAGE_SIZE
    · exact ⟨header.vaddr, first.symm, le_rfl, by omega⟩
    · refine ⟨a / PAGE_SIZE * PAGE_SIZE, Nat.mul_div_cancel _ (by decide), ?_⟩
      simp only [PAGE_SIZE] at low high first ⊢
      omega

/-- The steps that load a segment with at least one byte. -/
structure SegmentRun (mapper : Mapper) (image : List UInt8) (root : PhysFrame) (maxLoadEnd : Nat)
    (header : Elf64ProgramHeader) (s : MemState) (r : Nat) (s' : MemState) : Prop where
  below : header.vaddr + header.memsz < 2 ^ 47
  inside : header.offset + header.filesz ≤ image.length
  stop : r = max maxLoadEnd (header.vaddr + header.memsz)
  run : ∃ s₁ s₂,
    Prog.each (pageRangeInclusive (pageContaining header.vaddr)
      (pageContaining (header.vaddr + header.memsz - 1)))
      (ensureUserPageMapping mapper root (segmentFlags header)) s = .ok () s₁ ∧
    zeroUserRange root header.vaddr header.memsz s₁ = .ok () s₂ ∧
    copyToUserPagetable root header.vaddr
      ((image.take (header.offset + header.filesz)).drop header.offset) s₂ = .ok () s'

/-- A segment of the lower half is loaded in these steps, or it is empty. -/
theorem loadSegment_ok {mapper : Mapper} {image : List UInt8} {header : Elf64ProgramHeader}
    {maxLoadEnd r : Nat}
    (lower : header.memsz ≠ 0 → header.vaddr + header.memsz ≤ 2 ^ 47)
    (loaded : loadSegment mapper image root maxLoadEnd header s = .ok r s') :
    header.filesz ≤ header.memsz ∧ (header.memsz = 0 ∧ r = maxLoadEnd ∧ s' = s ∨
      header.memsz ≠ 0 ∧ SegmentRun mapper image root maxLoadEnd header s r s') := by
  rw [loadSegment] at loaded
  split at loaded
  · cases loaded
  rename_i sizes
  refine ⟨not_lt.mp sizes, ?_⟩
  split at loaded
  · rename_i zero
    obtain ⟨rfl, rfl⟩ := Outcome.ok.inj loaded
    exact .inl ⟨zero, rfl, rfl⟩
  rename_i nonzero
  cases sum : checkedAdd header.offset header.filesz with
  | none => simp [sum, Prog.okOr] at loaded
  | some fileEnd =>
      obtain rfl := checkedAdd_eq sum
      simp only [sum, Prog.okOr, Prog.pure_bind] at loaded
      split at loaded
      · cases loaded
      rename_i inside
      have place : header.vaddr + header.memsz ≤ 2 ^ 47 := lower nonzero
      have stop : checkedAdd header.vaddr header.memsz = some (header.vaddr + header.memsz) :=
        if_pos (place.trans_lt (by decide))
      rcases place.lt_or_eq with below | full
      · simp only [Prog.bind_ok (virtAddr_run (show header.vaddr < 2 ^ 47 by omega) _), stop,
          Prog.pure_bind, Prog.bind_ok (virtAddr_run below _),
          Prog.bind_ok (virtAddrSub_one
            (show 0 < header.vaddr + header.memsz by omega) below _)] at loaded
        obtain ⟨_, s₁, mapped, loaded⟩ := Prog.bind_eq_ok.mp loaded
        obtain ⟨_, s₂, zeroed, loaded⟩ := Prog.bind_eq_ok.mp loaded
        obtain ⟨_, s₃, copied, last⟩ := Prog.bind_eq_ok.mp loaded
        obtain ⟨rfl, rfl⟩ := Outcome.ok.inj last
        exact .inr ⟨nonzero, below, not_lt.mp inside, rfl, s₁, s₂, mapped, zeroed, copied⟩
      · -- the end of the lower half is sign-extended, and the address before it is refused
        have start : VirtAddr.new header.vaddr = some header.vaddr := VirtAddr.new_lower (by omega)
        simp only [virtAddr, start, Prog.expect, Prog.pure_bind, stop, full] at loaded
        cases loaded

/-- A program sees the bytes of a segment that was loaded, and its pages. -/
theorem loadSegment_view {mapper : Mapper} {image : List UInt8} {header : Elf64ProgramHeader}
    {maxLoadEnd r : Nat}
    (lower : header.memsz ≠ 0 → header.vaddr + header.memsz ≤ 2 ^ 47)
    (distinct : (owned 4 root h s).Nodup)
    (slots : Slots kernelLaw s.ram 4 root)
    (loaded : loadSegment mapper image root maxLoadEnd header s = .ok r s')
    (lowerA : a < 2 ^ 47) :
    (userLoad root s' a).getD 0 = header.store image (fun b => (userLoad root s b).getD 0) a ∧
      ((userLoad root s' a).isSome ↔ (userLoad root s a).isSome ∨ header.Touches a) := by
  obtain ⟨sizes, ⟨zero, -, rfl⟩ | ⟨nonzero, below, inside, -, s₁, s₂, mapped, zeroed, copied⟩⟩ :=
    loadSegment_ok lower loaded
  · have untouched : ¬ header.Touches a := fun ⟨_, _, low, high⟩ => by omega
    rw [Elf64ProgramHeader.store, if_neg (by omega), if_neg (by omega)]
    exact ⟨rfl, by simp only [untouched, or_false]⟩
  set src := (image.take (header.offset + header.filesz)).drop header.offset with srcEq
  have length : src.length = header.filesz := by
    rw [srcEq, List.length_drop, List.length_take]
    omega
  have floor : ∀ {va : Nat}, va < 2 ^ 47 → pageContaining va < 2 ^ 47 := fun small =>
    (Nat.div_mul_le_self _ _).trans_lt small
  obtain ⟨step₁, view₁⟩ := ensureUserPages_view mapper header (floor (by omega))
    (floor (by omega)) distinct slots mapped
  have distinct₁ := step₁.nodup distinct
  have view₂ := zeroUserRange_view below.le distinct₁ zeroed lowerA
  have distinct₂ := ((zeroUserRange_spec
    (P := Lawless) below.le distinct₁).of_ok zeroed).nodup distinct₁
  have view₃ := copyToUserPagetable_view (by omega) distinct₂ copied lowerA
  obtain ⟨here, there⟩ := view₁ a lowerA
  rw [pageContaining_div, pageContaining_div, ← touches_iff nonzero] at here there
  rw [view₃, length, view₂, Elf64ProgramHeader.store]
  by_cases inFile : header.vaddr ≤ a ∧ a < header.vaddr + header.filesz
  · have byte : src[a - header.vaddr]? = some (image.getD
      (header.offset + (a - header.vaddr)) 0) := by
      rw [srcEq, List.getElem?_drop, List.getElem?_take, if_pos (by omega),
        List.getElem?_eq_getElem (by omega),
        List.getD_eq_getElem _ _ (by omega)]
    have touched : header.Touches a := ⟨a, rfl, inFile.1, by omega⟩
    rw [if_pos inFile, if_pos inFile, byte]
    exact ⟨rfl, by simp only [Option.isSome_some, touched, or_true]⟩
  rw [if_neg inFile, if_neg inFile]
  by_cases inMemory : header.vaddr ≤ a ∧ a < header.vaddr + header.memsz
  · have touched : header.Touches a := ⟨a, rfl, inMemory⟩
    rw [if_pos inMemory, if_pos inMemory]
    exact ⟨rfl, by simp only [Option.isSome_some, touched, or_true]⟩
  rw [if_neg inMemory, if_neg inMemory]
  by_cases touched : header.Touches a
  · rw [here touched]
    exact ⟨rfl, by simp only [Option.isSome_some, touched, or_true]⟩
  · rw [there touched]
    exact ⟨rfl, by simp only [touched, or_false]⟩

/-- A LOAD segment with at least one byte. -/
def Segment (image : List UInt8) (i : Nat) : Prop :=
  (headerAt image i).progType = ELF_PROG_LOAD ∧ (headerAt image i).memsz ≠ 0

/-- Where a segment ends. -/
def segmentEnd (image : List UInt8) (i : Nat) : Nat :=
  (headerAt image i).vaddr + (headerAt image i).memsz

/-- The LOAD segments of some headers, in their order, written to zeroed memory. -/
def storeSegments (image : List UInt8) (is : List Nat) : Nat → UInt8 :=
  is.foldl (fun mem i => if (headerAt image i).progType = ELF_PROG_LOAD then (headerAt image i).store image mem else mem)
    fun _ => 0

/-- The memory that an image describes. -/
def imageByte (image : List UInt8) : Nat → UInt8 :=
  storeSegments image (List.range (Elf64Header.read image).phnum)

/-- The page of an address has a byte of a LOAD segment. -/
def Touched (image : List UInt8) (a : Nat) : Prop :=
  ∃ i < (Elf64Header.read image).phnum, Segment image i ∧ (headerAt image i).Touches a

/-- The loop of the loader: the new address space holds the headers in `done`. -/
private structure HoldsUpTo (image : List UInt8) (root : PhysFrame) (h : Multiset PhysFrame)
  (s : MemState)
    (done : List Nat) (maxLoadEnd : Nat) (s' : MemState) : Prop where
  step : Extends kernelLaw 4 root h h s s'
  bytes : ∀ a < 2 ^ 47, (userLoad root s' a).getD 0 = storeSegments image done a
  pages : ∀ a < 2 ^ 47, (userLoad root s' a).isSome ↔ ∃ i ∈ done, Segment image i ∧
    (headerAt image i).Touches a
  above : ∀ i ∈ done, Segment image i → segmentEnd image i ≤ maxLoadEnd
  attained : maxLoadEnd = 0 ∨ ∃ i ∈ done, Segment image i ∧ segmentEnd image i = maxLoadEnd

/-- A header of another type changes nothing. -/
private theorem HoldsUpTo.skip {image : List UInt8} {done : List Nat} {maxLoadEnd i : Nat}
    (holds : HoldsUpTo image root h s done maxLoadEnd s')
    (other : (headerAt image i).progType ≠ ELF_PROG_LOAD) :
    HoldsUpTo image root h s (done ++ [i]) maxLoadEnd s' := by
  have absent : ¬ Segment image i := fun segment => other segment.1
  refine ⟨holds.step, fun a lowerA => ?_, fun a lowerA => ?_, fun j member segment => ?_, ?_⟩
  · rw [holds.bytes a lowerA, storeSegments, storeSegments, List.foldl_append, List.foldl_cons,
      List.foldl_nil, if_neg other]
  · rw [holds.pages a lowerA]
    simp only [List.mem_append, List.mem_singleton, or_and_right, exists_or, exists_eq_left,
      absent, false_and, or_false]
  · rcases List.mem_append.mp member with old | new
    · exact holds.above j old segment
    · exact absurd (List.mem_singleton.mp new ▸ segment) absent
  · exact holds.attained.imp id fun ⟨j, member, there⟩ => ⟨j, List.mem_append_left _ member, there⟩

/-- A LOAD segment is written over the ones before it. -/
private theorem HoldsUpTo.snoc {mapper : Mapper} {image : List UInt8} {done : List Nat}
  {maxLoadEnd i r : Nat}
    (holds : HoldsUpTo image root h s done maxLoadEnd s₁)
    (load : (headerAt image i).progType = ELF_PROG_LOAD)
    (lower : (headerAt image i).memsz ≠ 0 → segmentEnd image i ≤ 2 ^ 47)
    (bound : maxLoadEnd ≤ 2 ^ 47)
    (distinct : (owned 4 root h s).Nodup) (slots : Slots kernelLaw s.ram 4 root)
    (loaded : loadSegment mapper image root maxLoadEnd (headerAt image i) s₁ = .ok r s') :
    HoldsUpTo image root h s (done ++ [i]) r s' := by
  have distinct₁ := holds.step.nodup distinct
  have slots₁ := holds.step.slots slots
  have confined : Loads image (headerAt image i) → SegmentOk True (headerAt image i) := fun loads =>
    .of_lower (lower loads.2.1)
  have next := ((loadSegment_spec mapper image confined bound distinct₁ slots₁).of_ok loaded).2.1.toExtends
  have view := fun a lowerA => loadSegment_view (a := a) lower distinct₁ slots₁ loaded lowerA
  refine ⟨holds.step.trans next, fun a lowerA => ?_, fun a lowerA => ?_, ?_, ?_⟩
  · have before : (userLoad root s₁ a).getD 0 = storeSegments image done a := holds.bytes a lowerA
    rw [(view a lowerA).1, storeSegments, List.foldl_append, List.foldl_cons, List.foldl_nil,
      if_pos load]
    simp only [Elf64ProgramHeader.store, before]
    rfl
  · have segment : (headerAt image i).Touches a → Segment image i :=
      fun ⟨_, _, low, high⟩ => ⟨load, by omega⟩
    rw [(view a lowerA).2, holds.pages a lowerA]
    simp only [List.mem_append, List.mem_singleton, or_and_right, exists_or, exists_eq_left]
    exact or_congr Iff.rfl ⟨fun touches => ⟨segment touches, touches⟩, fun both => both.2⟩
  · intro j member segment
    obtain ⟨-, ⟨zero, rfl, -⟩ | ⟨-, run⟩⟩ := loadSegment_ok lower loaded
    · rcases List.mem_append.mp member with old | new
      · exact holds.above j old segment
      · exact absurd zero (List.mem_singleton.mp new ▸ segment.2)
    · rw [run.stop]
      rcases List.mem_append.mp member with old | new
      · exact (holds.above j old segment).trans (le_max_left _ _)
      · rw [List.mem_singleton.mp new]
        exact le_max_right _ _
  · have earlier := holds.attained.imp id fun ⟨j, member, there⟩ =>
      (⟨j, List.mem_append_left [i] member, there⟩ : ∃ j ∈ done ++ [i], Segment image j ∧
        segmentEnd image j = maxLoadEnd)
    obtain ⟨-, ⟨zero, rfl, -⟩ | ⟨nonzero, run⟩⟩ := loadSegment_ok lower loaded
    · exact earlier
    · rcases max_choice maxLoadEnd (segmentEnd image i) with old | new
      · rw [run.stop, ← segmentEnd, old]
        exact earlier
      · exact .inr ⟨i, by simp, ⟨load, nonzero⟩, by rw [run.stop, ← segmentEnd, new]⟩

/-- What the loader leaves in an empty address space: the pages and the bytes of the
    LOAD segments, and a heap that starts on the page boundary after them. -/
structure HoldsSegments (image : List UInt8) (root : PhysFrame) (heapSize : Nat) (s : MemState) :
    Prop where
  bytes : ∀ a < 2 ^ 47, (userLoad root s a).getD 0 = imageByte image a
  pages : ∀ a < 2 ^ 47, (userLoad root s a).isSome ↔ Touched image a
  aligned : PAGE_SIZE ∣ heapSize
  above : ∀ i < (Elf64Header.read image).phnum, Segment image i → segmentEnd image i ≤ heapSize
  tight : ∀ i < (Elf64Header.read image).phnum, Segment image i →
    ∃ j < (Elf64Header.read image).phnum, Segment image j ∧
    heapSize < segmentEnd image j + PAGE_SIZE

/-- The loader fills an empty address space with the LOAD segments. -/
theorem loadElfSegments_view {mapper : Mapper} {image : List UInt8} {heapSize : Nat}
    (lower : LowerHalf image)
    (distinct : (owned 4 root h s).Nodup) (slots : Slots kernelLaw s.ram 4 root)
    (empty : ∀ a < 2 ^ 47, userLoad root s a = none)
    (loaded : loadElfSegments mapper image (.read image) root s = .ok heapSize s') :
    HoldsSegments image root heapSize s' := by
  rw [loadElfSegments] at loaded
  split at loaded
  · cases loaded
  rename_i size
  obtain ⟨maxLoadEnd, s₁, loop, rounded⟩ := Prog.bind_eq_ok.mp loaded
  have ends : ∀ {done : List Nat} {maxLoadEnd : Nat} {t : MemState},
    (∀ j ∈ done, j < (Elf64Header.read image).phnum) →
      HoldsUpTo image root h s done maxLoadEnd t → maxLoadEnd ≤ 2 ^ 47 := by
    intro done maxLoadEnd t inside holds
    rcases holds.attained with zero | ⟨j, member, ⟨load, nonzero⟩, there⟩
    · rw [zero]
      exact Nat.zero_le _
    · rw [← there]
      exact lower j (inside j member) load nonzero
  have holds := foldlM_ok (HoldsUpTo image root h s) loop
    ⟨.refl, fun a lowerA => by rw [empty a lowerA]; rfl,
    fun a lowerA => by simp [empty a lowerA], by simp, .inl rfl⟩
      fun done i rest m r t t' split holds run => ?_
  · have bound := ends (fun j member => List.mem_range.mp member) holds
    rw [pageRoundUp_of_lower bound] at rounded
    obtain ⟨rfl, rfl⟩ := Outcome.ok.inj rounded
    refine ⟨holds.bytes, fun a lowerA => ?_, Nat.dvd_mul_left _ _, fun i inside segment => ?_,
      fun i inside segment => ?_⟩
    · rw [holds.pages a lowerA]
      simp only [List.mem_range, Touched]
    · have above := holds.above i (List.mem_range.mpr inside) segment
      simp only [PAGE_SIZE]
      omega
    · have above := holds.above i (List.mem_range.mpr inside) segment
      rcases holds.attained with zero | ⟨j, member, there, attained⟩
      · have nonzero := segment.2
        rw [segmentEnd] at above
        omega
      · refine ⟨j, List.mem_range.mp member, there, ?_⟩
        rw [attained]
        simp only [PAGE_SIZE]
        omega
  · obtain ⟨inside, rfl⟩ := range_split split
    obtain ⟨header, t₁, read, rest⟩ := Prog.bind_eq_ok.mp run
    obtain ⟨rfl, rfl, -⟩ := (readProgramHeader_spec (not_ne_iff.mp size) i t).of_ok read
    split at rest
    case isTrue other =>
      obtain ⟨rfl, rfl⟩ := Outcome.ok.inj rest
      exact holds.skip other
    case isFalse load =>
      have bound := ends (fun j member => (List.mem_range.mp member).trans inside) holds
      exact holds.snoc (not_ne_iff.mp load)
        (fun nonzero => lower i inside (not_ne_iff.mp load) nonzero) bound distinct
        slots rest

/-- Mapping a range of pages: they were not mapped, and are zero. -/
theorem mapPages_view {mapper : Mapper} {flags : PageTableFlags} {start count : Nat}
    (present : flags.contains .PRESENT = true) (small : flags.contains .HUGE_PAGE = false)
    (aligned : PAGE_SIZE ∣ start) (lower : start + PAGE_SIZE * count ≤ 2 ^ 47)
    (distinct : (owned 4 root h s).Nodup)
    (slots : Slots Lawless s.ram 4 root)
    (mapped : mapPages mapper root start count flags s = .ok () s') :
    Extends Lawless 4 root h h s s' ∧ ∀ a < 2 ^ 47,
      (start ≤ a ∧ a < start + PAGE_SIZE * count → userLoad root s a = none ∧ userLoad root s' a = some 0) ∧
      (¬ (start ≤ a ∧ a < start + PAGE_SIZE * count) → userLoad root s' a = userLoad root s a) := by
  have lawful : ∀ va, MapOk Lawless flags va := fun _ =>
    ⟨present, small, trivial, fun _ _ => ⟨trivial, fun _ _ => trivial⟩⟩
  have loop := each_ok (fun done t => Extends Lawless 4 root h h s t ∧ ∀ a < 2 ^ 47,
      (start ≤ a ∧ a < start + PAGE_SIZE * done.length → userLoad root s a = none ∧
        userLoad root t a = some 0) ∧
      (¬ (start ≤ a ∧ a < start + PAGE_SIZE * done.length) → userLoad root t a = userLoad root s a))
    mapped ⟨.refl, fun a _ => ⟨fun range => by simp only [List.length_nil, PAGE_SIZE] at range; omega, fun _ => rfl⟩⟩
    fun done i rest t t' split ⟨step, views⟩ run => ?_
  · rwa [List.length_range] at loop
  obtain ⟨inside, before⟩ := range_split split
  have length : done.length = i := by rw [before, List.length_range]
  have place : start + PAGE_SIZE * i < 2 ^ 47 := by
    simp only [PAGE_SIZE] at lower ⊢
    omega
  rw [mapNthPage_run mapper flags aligned place] at run
  have distinct₁ := step.nodup distinct
  have slots₁ := step.slots slots
  have next := ((mapPage_spec mapper (lawful _) place distinct₁ slots₁).of_ok run).1.toExtends
  refine ⟨step.trans next, fun a lowerA => ?_⟩
  obtain ⟨here, there⟩ := mapPage_view mapper (lawful _) place distinct₁ slots₁ run lowerA
  obtain ⟨old, other⟩ := views a lowerA
  obtain ⟨k, rfl⟩ := aligned
  have page : a / PAGE_SIZE = (PAGE_SIZE * k + PAGE_SIZE * i) / PAGE_SIZE ↔
      PAGE_SIZE * k + PAGE_SIZE * i ≤ a ∧ a < PAGE_SIZE * k + PAGE_SIZE * (i + 1) := by
    simp only [PAGE_SIZE]
    omega
  rw [page] at here
  rw [ne_eq, page] at there
  rw [List.length_append, List.length_singleton, length]
  rw [length] at old other
  refine ⟨fun range => ?_, fun outside => ?_⟩
  · by_cases last : PAGE_SIZE * k + PAGE_SIZE * i ≤ a
    · obtain ⟨unmapped, zero⟩ := here ⟨last, range.2⟩
      have same := other (by omega)
      exact ⟨by rw [← same, unmapped], zero⟩
    · obtain ⟨unmapped, zero⟩ := old ⟨range.1, by omega⟩
      exact ⟨unmapped, by rw [there (by omega), zero]⟩
  · have above : ¬ (PAGE_SIZE * k ≤ a ∧ a < PAGE_SIZE * k + PAGE_SIZE * i) := by
      simp only [PAGE_SIZE] at outside ⊢
      omega
    rw [there (by omega), other above]

theorem newSpace_unmapped {t : MemState} (new : NewSpace root s t) (lower : a < 2 ^ 47) :
    userLoad root t a = none := by
  have none : pageOf t.ram root a = none := by
    cases found : pageOf t.ram root a with
    | none => rfl
    | some x =>
        have path := (pageOf_path lower).mp found
        cases path with
        | cons inside link rest =>
            rw [PhysMem.child, new.empty_slots _ inside, PageTableEntry.unused_child] at link
            cases link
  rw [userLoad, none, Option.map_none]

theorem pageMapped_userLoad (lower : a < 2 ^ 47) :
    PageMapped s.ram root a ↔ (userLoad root s a).isSome = true := by
  rw [pageMapped_pageOf lower, userLoad, Option.isSome_map, Option.isSome_iff_ne_none]

end FerriOS.Loader
