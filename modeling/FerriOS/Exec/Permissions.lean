import FerriOS.Memory.Relabel
import FerriOS.Memory.Leaves
import FerriOS.Exec.Contents
import FerriOS.Exec.HeapPages

/-! # The permissions of loaded segments

The first segment that touches a page maps it, which gives the tables on the way its
flags; a later one only adds flags to the page itself. So a page can be written when a
writable segment touches it, and when one was the first on some page of its table.
-/

namespace FerriOS.Loader

open FerriOS.Lib FerriOS.Memory

variable {root : PhysFrame} {h : Multiset PhysFrame} {s s' : MemState} {a page : Nat}
  {made writable : Nat → Prop}

/-- The segment may be written. -/
def Elf64ProgramHeader.Writable (header : Elf64ProgramHeader) : Prop := header.flags &&& 0x2 ≠ 0

/-- Every slot is for the user; the slots above the pages in `made` are writable, and the
    pages in `writable` are. -/
def permLaw (made writable : Nat → Prop) : SlotLaw := fun ks f =>
  f.contains (.PRESENT ||| .USER_ACCESSIBLE) = true ∧
    (f.contains .WRITABLE = true ↔
      (∃ b, made b ∧ Along [] (tableIndices b) ks) ∨ ∃ b, writable b ∧ ks = pageIndices b)

/-- The law depends on the pages of the addresses only. -/
theorem permLaw_mono {made' writable' : Nat → Prop} {ks : List Nat} {f : PageTableFlags}
    (tables : ∀ b, made b → ∃ b', made' b' ∧ b / PAGE_SIZE = b' / PAGE_SIZE)
    (tablesBack : ∀ b, made' b → ∃ b', made b' ∧ b / PAGE_SIZE = b' / PAGE_SIZE)
    (pages : ∀ b, writable b → ∃ b', writable' b' ∧ b / PAGE_SIZE = b' / PAGE_SIZE)
    (pagesBack : ∀ b, writable' b → ∃ b', writable b' ∧ b / PAGE_SIZE = b' / PAGE_SIZE)
    (law : permLaw made writable ks f) : permLaw made' writable' ks f := by
  refine ⟨law.1, law.2.trans (or_congr ⟨?_, ?_⟩ ⟨?_, ?_⟩)⟩
  · rintro ⟨b, here, along⟩
    obtain ⟨b', there, same⟩ := tables b here
    exact ⟨b', there, (tableIndices_congr same).1 ▸ along⟩
  · rintro ⟨b, here, along⟩
    obtain ⟨b', there, same⟩ := tablesBack b here
    exact ⟨b', there, (tableIndices_congr same).1 ▸ along⟩
  · rintro ⟨b, here, rfl⟩
    obtain ⟨b', there, same⟩ := pages b here
    exact ⟨b', there, pageIndices_congr same⟩
  · rintro ⟨b, here, rfl⟩
    obtain ⟨b', there, same⟩ := pagesBack b here
    exact ⟨b', there, pageIndices_congr same⟩

theorem contains_writable (f : PageTableFlags) :
    f.contains .WRITABLE = true ↔ f.low.getLsbD 1 = true := by
  have bit : ∀ x : BitVec 12, (x &&& 2#12 = 2#12) ↔ x.getLsbD 1 = true := by
    intro x
    rw [show 2#12 = BitVec.twoPow 12 1 from rfl, BitVec.and_twoPow]
    split
    case isTrue set => exact iff_of_true rfl set
    case isFalse clear => exact iff_of_false (by decide) clear
  rw [PageTableFlags.contains_iff, ← bit]
  exact ⟨fun both => both.1, fun low => ⟨low, by simp [PageTableFlags.WRITABLE]⟩⟩

theorem or_writable (f g : PageTableFlags) :
    (f ||| g).contains .WRITABLE = true ↔ f.contains .WRITABLE = true ∨
    g.contains .WRITABLE = true := by
  simp only [contains_writable, PageTableFlags.or_def, BitVec.getLsbD_or, Bool.or_eq_true]

theorem segmentFlags_bits (header : Elf64ProgramHeader) :
    ((segmentFlags header).contains (.PRESENT ||| .USER_ACCESSIBLE) = true ∧
      ((segmentFlags header).contains .WRITABLE = true ↔ header.Writable)) ∧
    ((segmentFlags header &&& tableFlags).contains (.PRESENT ||| .USER_ACCESSIBLE) = true ∧
      ((segmentFlags header &&& tableFlags).contains .WRITABLE = true ↔ header.Writable)) := by
  rw [segmentFlags]
  split
  case isTrue set =>
    have yes : header.Writable := set
    exact ⟨⟨by decide, iff_of_true (by decide) yes⟩, by decide, iff_of_true (by decide) yes⟩
  case isFalse clear =>
    have no : ¬ header.Writable := clear
    exact ⟨⟨by decide, iff_of_false (by decide) no⟩, by decide, iff_of_false (by decide) no⟩

theorem along_length {b : Nat} {ks : List Nat} (along : Along [] (tableIndices b) ks) (c : Nat) :
    ks ≠ pageIndices c := by
  rintro rfl
  exact absurd along.length_le (by simp [pageIndices, tableIndices])

theorem along_mapped {b : Nat} {ks : List Nat} (mapped : PageMapped s.ram root b)
    (along : Along [] (tableIndices b) ks) :
    ks ∈ treeRoutes s.ram 4 root := by
  obtain ⟨x, p⟩ := mapped
  obtain ⟨rest, whole⟩ : ∃ rest, pageIndices b = ks ++ rest := by
    obtain rfl | rfl | rfl | impossible := along
    · exact ⟨_, rfl⟩
    · exact ⟨_, rfl⟩
    · exact ⟨_, rfl⟩
    · exact impossible.elim
  rw [whole] at p
  exact mem_treeRoutes.mpr p.initial

/-- Mapping a page for a segment, or adding the flags of the segment to its page. -/
theorem ensureUserPageMapping_perms (mapper : Mapper) (header : Elf64ProgramHeader)
    (lower : page < 2 ^ 47)
    (distinct : (owned 4 root h s).Nodup) (kernel : Slots kernelLaw s.ram 4 root)
    (slots : Slots (permLaw made writable) s.ram 4 root)
    (madeMapped : ∀ b, made b → PageMapped s.ram root b)
    (writableMapped : ∀ b, writable b → PageMapped s.ram root b)
    (run : ensureUserPageMapping mapper root (segmentFlags header) page s = .ok () s') :
    Slots (permLaw (fun b => made b ∨ header.Writable ∧ ¬ PageMapped s.ram root page ∧ b = page)
      (fun b => writable b ∨ header.Writable ∧ b = page)) s'.ram 4 root := by
  obtain ⟨⟨pageUser, pageBit⟩, tableUser, tableBit⟩ := segmentFlags_bits header
  have lawful := segmentFlags_lawful header page
  have others : ∀ ks, ¬ Along [] (tableIndices page) ks → ks ≠ pageIndices page → ∀ f,
    permLaw made writable ks f →
      permLaw (fun b => made b ∨ header.Writable ∧ ¬ PageMapped s.ram root page ∧ b = page)
        (fun b => writable b ∨ header.Writable ∧ b = page) ks f := by
    intro ks off other f law
    refine ⟨law.1, law.2.trans (or_congr ⟨?_, ?_⟩ ⟨?_, ?_⟩)⟩
    · exact fun ⟨b, here, along⟩ => ⟨b, .inl here, along⟩
    · rintro ⟨b, here | ⟨-, -, rfl⟩, along⟩
      · exact ⟨b, here, along⟩
      · exact absurd along off
    · exact fun ⟨b, here, same⟩ => ⟨b, .inl here, same⟩
    · rintro ⟨b, here | ⟨-, rfl⟩, same⟩
      · exact ⟨b, here, same⟩
      · exact absurd same other
  have fresh : mapPage mapper root page (segmentFlags header) s = .ok () s' → Slots (permLaw
      (fun b => made b ∨ header.Writable ∧ ¬ PageMapped s.ram root page ∧ b = page)
      (fun b => writable b ∨ header.Writable ∧ b = page)) s'.ram 4 root := by
    intro mapped
    have unmapped : ¬ PageMapped s.ram root page :=
      ((mapPage_spec mapper lawful lower distinct kernel).of_ok mapped).1.fresh
    refine mapPage_relabel mapper lawful.present lawful.small lower distinct others
      (fun ks along f law => ?_)
      (fun ks along absent => ?_) ?_ slots mapped
    · refine ⟨PageTableFlags.contains_or_left _ law.1, ?_⟩
      rw [or_writable, law.2, tableBit]
      constructor
      · rintro ((⟨b, here, there⟩ | ⟨b, here, rfl⟩) | set)
        · exact .inl ⟨b, .inl here, there⟩
        · exact absurd rfl (along_length along b)
        · exact .inl ⟨page, .inr ⟨set, unmapped, rfl⟩, along⟩
      · rintro (⟨b, here | ⟨set, -, rfl⟩, there⟩ | ⟨b, -, rfl⟩)
        · exact .inl (.inl ⟨b, here, there⟩)
        · exact .inr set
        · exact absurd rfl (along_length along b)
    · refine ⟨tableUser, tableBit.trans
        ⟨fun set => .inl ⟨page, .inr ⟨set, unmapped, rfl⟩, along⟩, ?_⟩⟩
      rintro (⟨b, here | ⟨set, -, rfl⟩, there⟩ | ⟨b, -, rfl⟩)
      · exact absurd (along_mapped (madeMapped b here) there) absent
      · exact set
      · exact absurd rfl (along_length along b)
    · refine ⟨pageUser, pageBit.trans ⟨fun set => .inr ⟨page, .inr ⟨set, rfl⟩, rfl⟩, ?_⟩⟩
      rintro (⟨b, -, along⟩ | ⟨b, here | ⟨set, -⟩, same⟩)
      · exact absurd rfl (along_length along page)
      · have there := writableMapped b here
        rw [PageMapped, ← same] at there
        exact absurd there unmapped
      · exact set
  rw [ensureUserPageMapping, Prog.bind_ok (walkPagetable_lookup _ _ _)] at run
  cases found : lookup s.ram root page with
  | none => exact fresh (by simpa only [found] using run)
  | some slot =>
      obtain ⟨pt, i⟩ := slot
      obtain ⟨p, rfl⟩ := lookup_path lower found
      simp only [found, Prog.get_bind] at run
      by_cases linked : (s.ram.entry pt (ptIndex page)).present = true
      · simp only [linked, if_true, writeRam_run, Outcome.ok.injEq, true_and] at run
        subst run
        have there : PageMapped s.ram root page := (pageMapped_iff p).mpr linked
        have law := ((slots _ _ _ p _ (ptIndex_fits page)).resolve_left fun zero => by
          rw [zero] at linked
          cases linked).2
        refine reflag_relabel distinct p (ptIndex_fits page) linked
          (PageTableFlags.contains_or_left _ linked) ?_
          (fun ks other f old => ?_) slots
        · refine ⟨PageTableFlags.contains_or_left _ law.1, ?_⟩
          rw [or_writable, law.2, pageBit]
          constructor
          · rintro ((⟨b, -, along⟩ | ⟨b, here, same⟩) | set)
            · exact absurd rfl (along_length along page)
            · exact .inr ⟨b, .inl here, same⟩
            · exact .inr ⟨page, .inr ⟨set, rfl⟩, rfl⟩
          · rintro (⟨b, -, along⟩ | ⟨b, here | ⟨set, -⟩, same⟩)
            · exact absurd rfl (along_length along page)
            · exact .inl (.inr ⟨b, here, same⟩)
            · exact .inr set
        · refine ⟨old.1, old.2.trans (or_congr ⟨?_, ?_⟩ ⟨?_, ?_⟩)⟩
          · exact fun ⟨b, here, along⟩ => ⟨b, .inl here, along⟩
          · rintro ⟨b, here | ⟨-, absent, -⟩, along⟩
            · exact ⟨b, here, along⟩
            · exact absurd there absent
          · exact fun ⟨b, here, same⟩ => ⟨b, .inl here, same⟩
          · rintro ⟨b, here | ⟨-, rfl⟩, same⟩
            · exact ⟨b, here, same⟩
            · exact absurd same other
      · simp only [linked, Bool.false_eq_true, if_false] at run
        exact fresh run

/-- The pages of a segment, one by one: those that were not mapped get tables for the
    segment, and all of them its flags. -/
theorem ensureUserPages_perms (mapper : Mapper) (header : Elf64ProgramHeader) {start stop : Nat}
    (lowerStart : start < 2 ^ 47) (lowerStop : stop < 2 ^ 47) (distinct : (owned 4 root h s).Nodup)
    (kernel : Slots kernelLaw s.ram 4 root) (slots : Slots (permLaw made writable) s.ram 4 root)
    (madeMapped : ∀ b, made b → b < 2 ^ 47 ∧ PageMapped s.ram root b)
    (writableMapped : ∀ b, writable b → b < 2 ^ 47 ∧ PageMapped s.ram root b)
    (run : Prog.each (pageRangeInclusive start stop)
    (ensureUserPageMapping mapper root (segmentFlags header)) s = .ok () s') :
    Slots (permLaw
      (fun b => made b ∨ header.Writable ∧ ¬ PageMapped s.ram root b ∧
        start / PAGE_SIZE ≤ b / PAGE_SIZE ∧ b / PAGE_SIZE ≤ stop / PAGE_SIZE)
      (fun b => writable b ∨ header.Writable ∧
        start / PAGE_SIZE ≤ b / PAGE_SIZE ∧ b / PAGE_SIZE ≤ stop / PAGE_SIZE)) s'.ram 4 root := by
  have loop := each_ok (fun done t => Extends kernelLaw 4 root h h s t ∧
      (∀ b < 2 ^ 47, PageMapped t.ram root b ↔ PageMapped s.ram root b ∨ ∃ page ∈ done,
        b / PAGE_SIZE = page / PAGE_SIZE) ∧
      Slots (permLaw (fun b => made b ∨ header.Writable ∧ ¬ PageMapped s.ram root b ∧
        ∃ page ∈ done, b / PAGE_SIZE = page / PAGE_SIZE)
        (fun b => writable b ∨ header.Writable ∧ ∃ page ∈ done,
          b / PAGE_SIZE = page / PAGE_SIZE)) t.ram 4 root)
    run ⟨.refl, fun b _ => by simp, slots.mono fun ks f =>
      permLaw_mono (fun b here => ⟨b, .inl here, rfl⟩)
      (fun b here => ⟨b, here.resolve_right fun new => by simp at new, rfl⟩)
        (fun b here => ⟨b, .inl here, rfl⟩)
      fun b here => ⟨b, here.resolve_right fun new => by simp at new, rfl⟩⟩
    fun done page rest t t' split inv run => ?_
  · refine loop.2.2.mono fun ks f =>
      permLaw_mono (fun b here => ⟨b, ?_, rfl⟩) (fun b here => ⟨b, ?_, rfl⟩)
      (fun b here => ⟨b, ?_, rfl⟩) fun b here => ⟨b, ?_, rfl⟩
    · rwa [mem_pageRangeInclusive_iff lowerStart lowerStop] at here
    · rwa [mem_pageRangeInclusive_iff lowerStart lowerStop]
    · rwa [mem_pageRangeInclusive_iff lowerStart lowerStop] at here
    · rwa [mem_pageRangeInclusive_iff lowerStart lowerStop]
  · obtain ⟨step, mapped, perms⟩ := inv
    have member : page ∈ pageRangeInclusive start stop := by simp [split]
    have inside : ∀ q ∈ done ++ [page], q < 2 ^ 47 := fun q here =>
      mem_pageRangeInclusive lowerStop (by
        rw [split]
        rcases List.mem_append.mp here with old | new
        · exact List.mem_append_left _ old
        · rw [List.mem_singleton.mp new]
          simp)
    have lower : page < 2 ^ 47 := inside page (by simp)
    have distinct₁ := step.nodup distinct
    have kernel₁ := step.slots kernel
    have next := ((ensureUserPageMapping_spec mapper header lower distinct₁ kernel₁).of_ok run).toExtends
    have inDone : ∀ {b : Nat}, (∃ q ∈ done, b / PAGE_SIZE = q / PAGE_SIZE) →
      PageMapped t.ram root b := by
      rintro b ⟨q, member', same⟩
      have there : PageMapped t.ram root q :=
        (mapped q (inside q (by simp [member']))).mpr (.inr ⟨q, member', rfl⟩)
      rw [PageMapped, pageIndices_congr same]
      exact there
    refine ⟨step.trans next, fun b lowerB => ?_, ?_⟩
    · obtain ⟨here, there⟩ := ensureUserPageMapping_view mapper header lower distinct₁ kernel₁ run lowerB
      rw [pageMapped_userLoad lowerB]
      simp only [List.mem_append, List.mem_singleton, or_and_right, exists_or, exists_eq_left]
      by_cases same : b / PAGE_SIZE = page / PAGE_SIZE
      · rw [here same]
        exact iff_of_true rfl (.inr (.inr same))
      · rw [there same, ← pageMapped_userLoad lowerB, mapped b lowerB]
        simp only [same, or_false]
    · have after := ensureUserPageMapping_perms mapper header lower distinct₁ kernel₁ perms
        (fun b here => here.elim (fun old => step.pageMapped (madeMapped b old).2) fun new =>
          inDone new.2.2)
        (fun b here => here.elim (fun old => step.pageMapped (writableMapped b old).2) fun new =>
          inDone new.2) run
      refine after.mono fun ks f =>
        permLaw_mono (fun b here => ?_) (fun b here => ?_) (fun b here => ?_) fun b here => ?_
      · rcases here with (old | ⟨set, unmapped, q, member', same⟩) | ⟨set, unmapped, rfl⟩
        · exact ⟨b, .inl old, rfl⟩
        · exact ⟨b, .inr ⟨set, unmapped, q, by simp [member'], same⟩, rfl⟩
        · exact ⟨b, .inr ⟨set, fun old => unmapped (step.pageMapped old), b, by simp, rfl⟩, rfl⟩
      · rcases here with old | ⟨set, unmapped, q, member', same⟩
        · exact ⟨b, .inl (.inl old), rfl⟩
        · by_cases before : ∃ q ∈ done, b / PAGE_SIZE = q / PAGE_SIZE
          · exact ⟨b, .inl (.inr ⟨set, unmapped, before⟩), rfl⟩
          · obtain rfl : q = page := by
              rcases List.mem_append.mp member' with old | new
              · exact absurd ⟨q, old, same⟩ before
              · exact List.mem_singleton.mp new
            refine ⟨q, .inr ⟨set, fun there => ?_, rfl⟩, same⟩
            rcases (mapped q lower).mp there with old | ⟨q', old, same'⟩
            · rw [PageMapped, ← pageIndices_congr same] at old
              exact unmapped old
            · exact before ⟨q', old, same.trans same'⟩
      · rcases here with (old | ⟨set, q, member', same⟩) | ⟨set, rfl⟩
        · exact ⟨b, .inl old, rfl⟩
        · exact ⟨b, .inr ⟨set, q, by simp [member'], same⟩, rfl⟩
        · exact ⟨b, .inr ⟨set, b, by simp, rfl⟩, rfl⟩
      · rcases here with old | ⟨set, q, member', same⟩
        · exact ⟨b, .inl (.inl old), rfl⟩
        · rcases List.mem_append.mp member' with old | new
          · exact ⟨b, .inl (.inr ⟨set, q, old, same⟩), rfl⟩
          · obtain rfl := List.mem_singleton.mp new
            exact ⟨q, .inr ⟨set, rfl⟩, same⟩

theorem along_or_page {ks : List Nat} (nonempty : ks ≠ []) (initial : ks <+: pageIndices a) :
    Along [] (tableIndices a) ks ∨ ks = pageIndices a := by
  have shape : ks = [] ∨ ks = [pml4Index a] ∨ ks = [pml4Index a, pdptIndex a] ∨
      ks = [pml4Index a, pdptIndex a, pdIndex a] ∨
        ks = [pml4Index a, pdptIndex a, pdIndex a, ptIndex a] := by
    simpa [List.inits, pageIndices, tableIndices] using (List.mem_inits _ _).mpr initial
  rcases shape with none | one | two | three | four
  · exact absurd none nonempty
  · exact .inl (.inl one)
  · exact .inl (.inr (.inl two))
  · exact .inl (.inr (.inr (.inl three)))
  · exact .inr four

/-- A page that is mapped under the law can be read, and written when it is a writable
    page and its page table is a writable table. -/
theorem permLaw_permits {ram : PhysMem} (lower : a < 2 ^ 47)
    (slots : Slots (permLaw made writable) ram 4 root)
    (mapped : PageMapped ram root a) : UserReadable ram root a ∧ (UserWritable ram root a ↔
      (∃ b, made b ∧ tableIndices a = tableIndices b) ∧ ∃ b, writable b ∧
        pageIndices a = pageIndices b) := by
  obtain ⟨x, p⟩ := mapped
  have length : (flagsOf ram root a).length = 4 := length_flagsAlong p
  refine ⟨⟨length, fun f here => ?_⟩, fun permitted => ⟨?_, ?_⟩, fun ⟨⟨b, here, tables⟩, page⟩ =>
    ⟨length, fun f there => ?_⟩⟩
  · obtain ⟨ks, -, -, law, -⟩ := mem_flagsAlong slots .nil (pageIndices_fits lower) here
    exact law.1
  · -- the slot of the page table
    obtain ⟨f, here, law⟩ := @law_flagsAlong root x ram [pml4Index a, pdptIndex a] _ (pdIndex a) _
      [ptIndex a] slots p
    rcases law.2.mp (PageTableFlags.contains_or.mp (permitted.2 f here)).2 with ⟨b, there, along⟩ |
      ⟨b, -, same⟩
    · refine ⟨b, there, ?_⟩
      rcases along with one | two | three | impossible
      · simp at one
      · simp at two
      · exact three
      · exact impossible.elim
    · exact absurd (congrArg List.length same) (by simp [pageIndices, tableIndices])
  · obtain ⟨f, here, law⟩ : ∃ f ∈ flagsOf ram root a,
      permLaw made writable (tableIndices a ++ [ptIndex a]) f :=
      law_flagsAlong slots p
    rcases law.2.mp (PageTableFlags.contains_or.mp (permitted.2 f here)).2 with ⟨b, -, along⟩ | page
    · exact absurd rfl (along_length along a)
    · exact page
  · obtain ⟨ks, nonempty, initial, law, -⟩ :=
      mem_flagsAlong slots .nil (pageIndices_fits lower) there
    refine PageTableFlags.contains_or.mpr ⟨law.1, law.2.mpr ?_⟩
    rcases along_or_page nonempty initial with along | rfl
    · exact .inl ⟨b, here, tables ▸ along⟩
    · exact .inr page

theorem touches_lower {header : Elf64ProgramHeader}
    (lower : header.memsz ≠ 0 → header.vaddr + header.memsz ≤ 2 ^ 47)
    (touches : header.Touches a) : a < 2 ^ 47 := by
  obtain ⟨b, same, low, high⟩ := touches
  have place := lower (by omega)
  simp only [PAGE_SIZE] at same
  omega

/-- Loading a segment. -/
theorem loadSegment_perms {mapper : Mapper} {image : List UInt8} {header : Elf64ProgramHeader}
    {maxLoadEnd r : Nat}
    (lower : header.memsz ≠ 0 → header.vaddr + header.memsz ≤ 2 ^ 47)
    (distinct : (owned 4 root h s).Nodup)
    (kernel : Slots kernelLaw s.ram 4 root) (slots : Slots (permLaw made writable) s.ram 4 root)
    (madeMapped : ∀ b, made b → b < 2 ^ 47 ∧ PageMapped s.ram root b)
    (writableMapped : ∀ b, writable b → b < 2 ^ 47 ∧ PageMapped s.ram root b)
    (loaded : loadSegment mapper image root maxLoadEnd header s = .ok r s') :
    Slots (permLaw (fun b => made b ∨ header.Writable ∧ ¬ PageMapped s.ram root b ∧
      header.Touches b)
      (fun b => writable b ∨ header.Writable ∧ header.Touches b)) s'.ram 4 root := by
  obtain ⟨sizes, ⟨zero, -, rfl⟩ | ⟨nonzero, below, inside, -, s₁, s₂, mapped, zeroed, copied⟩⟩ :=
    loadSegment_ok lower loaded
  · have untouched : ∀ b, ¬ header.Touches b := fun b ⟨_, _, low, high⟩ => by omega
    exact slots.mono fun ks f => permLaw_mono (fun b here => ⟨b, .inl here, rfl⟩)
      (fun b here => ⟨b, here.resolve_right fun new => untouched b new.2.2, rfl⟩)
        (fun b here => ⟨b, .inl here, rfl⟩)
      fun b here => ⟨b, here.resolve_right fun new => untouched b new.2, rfl⟩
  · have floor : ∀ {va : Nat}, va < 2 ^ 47 → pageContaining va < 2 ^ 47 := fun small =>
      (Nat.div_mul_le_self _ _).trans_lt small
    have perms := ensureUserPages_perms mapper header (floor (by omega))
      (floor (by omega)) distinct kernel slots
      madeMapped writableMapped mapped
    have distinct₁ := (ensureUserPages_view mapper header (floor (by omega))
      (floor (by omega)) distinct kernel
      mapped).1.nodup distinct
    have short : ((image.take (header.offset + header.filesz)).drop header.offset).length ≤ header.memsz := by
      rw [List.length_drop, List.length_take]
      omega
    -- filling the pages writes no table
    have filled : ∀ {P : SlotLaw}, Slots P s₁.ram 4 root → Slots P s'.ram 4 root := by
      intro P before
      have second : Extends P 4 root h h s₁ s₂ :=
        (zeroUserRange_spec below.le distinct₁).of_ok zeroed
      have third : Extends P 4 root h h s₂ s' :=
        (copyToUserPagetable_spec (by omega) (second.nodup distinct₁)).of_ok copied
      exact third.slots (second.slots before)
    have after := filled perms
    simp only [pageContaining_div] at after
    refine after.mono fun ks f =>
      permLaw_mono (fun b here => ⟨b, ?_, rfl⟩) (fun b here => ⟨b, ?_, rfl⟩)
      (fun b here => ⟨b, ?_, rfl⟩) fun b here => ⟨b, ?_, rfl⟩
    · rwa [touches_iff nonzero]
    · rwa [touches_iff nonzero] at here
    · rwa [touches_iff nonzero]
    · rwa [touches_iff nonzero] at here

/-- One of the first `n` headers is a writable segment that touches the page. -/
def WritableBy (image : List UInt8) (n a : Nat) : Prop :=
  ∃ i < n, Segment image i ∧ (headerAt image i).Touches a ∧ (headerAt image i).Writable

/-- The first segment among the first `n` headers that touches the page is writable. -/
def FirstWritable (image : List UInt8) (n a : Nat) : Prop :=
  ∃ i < n, Segment image i ∧ (headerAt image i).Touches a ∧ (headerAt image i).Writable ∧
    ∀ j < i, Segment image j → ¬ (headerAt image j).Touches a

/-- The loop of the loader: the first `n` headers are loaded. -/
private structure PermsUpTo (image : List UInt8) (root : PhysFrame) (h : Multiset PhysFrame)
  (s : MemState) (n : Nat)
    (s' : MemState) : Prop where
  step : Extends kernelLaw 4 root h h s s'
  pages : ∀ a < 2 ^ 47, PageMapped s'.ram root a ↔ ∃ i < n, Segment image i ∧
    (headerAt image i).Touches a
  perms : Slots (permLaw (FirstWritable image n) (WritableBy image n)) s'.ram 4 root

/-- A header of another type changes nothing. -/
private theorem PermsUpTo.skip {image : List UInt8} {n : Nat}
  (perms : PermsUpTo image root h s n s')
    (other : (headerAt image n).progType ≠ ELF_PROG_LOAD) :
    PermsUpTo image root h s (n + 1) s' := by
  have earlier : ∀ {i : Nat}, i < n + 1 → Segment image i → i < n := fun bound segment =>
    lt_of_le_of_ne (Nat.lt_succ_iff.mp bound) fun same => other (same ▸ segment.1)
  refine ⟨perms.step, fun a lower => (perms.pages a lower).trans ⟨?_, ?_⟩,
    perms.perms.mono fun ks f => permLaw_mono
    (fun b here => ⟨b, ?_, rfl⟩) (fun b here => ⟨b, ?_, rfl⟩) (fun b here => ⟨b, ?_, rfl⟩)
    fun b here => ⟨b, ?_, rfl⟩⟩
  · exact fun ⟨i, bound, segment⟩ => ⟨i, bound.trans (Nat.lt_succ_self n), segment⟩
  · exact fun ⟨i, bound, segment, touches⟩ => ⟨i, earlier bound segment, segment, touches⟩
  · obtain ⟨i, bound, rest⟩ := here
    exact ⟨i, bound.trans (Nat.lt_succ_self n), rest⟩
  · obtain ⟨i, bound, segment, rest⟩ := here
    exact ⟨i, earlier bound segment, segment, rest⟩
  · obtain ⟨i, bound, rest⟩ := here
    exact ⟨i, bound.trans (Nat.lt_succ_self n), rest⟩
  · obtain ⟨i, bound, segment, rest⟩ := here
    exact ⟨i, earlier bound segment, segment, rest⟩

/-- A LOAD segment maps the pages that no segment has touched before. -/
private theorem PermsUpTo.snoc {mapper : Mapper} {image : List UInt8} {n m r : Nat} {s₁ : MemState}
    (perms : PermsUpTo image root h s n s₁) (load : (headerAt image n).progType = ELF_PROG_LOAD)
    (lowers : ∀ i ≤ n, Segment image i →
    (headerAt image i).vaddr + (headerAt image i).memsz ≤ 2 ^ 47) (bound : m ≤ 2 ^ 47)
    (distinct : (owned 4 root h s).Nodup) (kernel : Slots kernelLaw s.ram 4 root)
    (loaded : loadSegment mapper image root m (headerAt image n) s₁ = .ok r s') :
    PermsUpTo image root h s (n + 1) s' := by
  have lower : (headerAt image n).memsz ≠ 0 →
    (headerAt image n).vaddr + (headerAt image n).memsz ≤ 2 ^ 47 :=
    fun nonzero => lowers n le_rfl ⟨load, nonzero⟩
  have distinct₁ := perms.step.nodup distinct
  have kernel₁ := perms.step.slots kernel
  have confined : Loads image (headerAt image n) → SegmentOk True (headerAt image n) := fun loads =>
    .of_lower (lower loads.2.1)
  have next := ((loadSegment_spec mapper image confined bound distinct₁ kernel₁).of_ok loaded).2.1.toExtends
  have touched : ∀ {b i : Nat}, i < n → Segment image i → (headerAt image i).Touches b →
    b < 2 ^ 47 ∧ PageMapped s₁.ram root b :=
    fun {b i} small segment touches => by
      have lowerB := touches_lower (fun _ => lowers i small.le segment) touches
      exact ⟨lowerB, (perms.pages b lowerB).mpr ⟨i, small, segment, touches⟩⟩
  have segment : ∀ {b : Nat}, (headerAt image n).Touches b → Segment image n :=
    fun ⟨_, _, low, high⟩ => ⟨load, by omega⟩
  have after := loadSegment_perms lower distinct₁ kernel₁ perms.perms
    (fun b ⟨i, small, seg, touches, _⟩ => touched small seg touches)
    (fun b ⟨i, small, seg, touches, _⟩ => touched small seg touches) loaded
  refine ⟨perms.step.trans next, fun a lowerA => ?_, after.mono fun ks f => permLaw_mono
    (fun b here => ⟨b, ?_, rfl⟩) (fun b here => ⟨b, ?_, rfl⟩) (fun b here => ⟨b, ?_, rfl⟩)
    fun b here => ⟨b, ?_, rfl⟩⟩
  · rw [pageMapped_userLoad lowerA, (loadSegment_view lower distinct₁ kernel₁ loaded lowerA).2,
      ← pageMapped_userLoad lowerA,
      perms.pages a lowerA]
    constructor
    · rintro (⟨i, small, rest⟩ | touches)
      · exact ⟨i, small.trans (Nat.lt_succ_self n), rest⟩
      · exact ⟨n, Nat.lt_succ_self n, segment touches, touches⟩
    · rintro ⟨i, small, seg, touches⟩
      rcases Nat.lt_succ_iff_lt_or_eq.mp small with old | rfl
      · exact .inl ⟨i, old, seg, touches⟩
      · exact .inr touches
  · rcases here with ⟨i, small, rest⟩ | ⟨set, unmapped, touches⟩
    · exact ⟨i, small.trans (Nat.lt_succ_self n), rest⟩
    · exact ⟨n, Nat.lt_succ_self n, segment touches, touches, set, fun j small seg before =>
        unmapped (touched small seg before).2⟩
  · obtain ⟨i, small, seg, touches, set, first⟩ := here
    rcases Nat.lt_succ_iff_lt_or_eq.mp small with old | rfl
    · exact .inl ⟨i, old, seg, touches, set, first⟩
    · refine .inr ⟨set, fun mapped => ?_, touches⟩
      obtain ⟨j, small, seg', before⟩ := (perms.pages b (touches_lower lower touches)).mp mapped
      exact first j small seg' before
  · rcases here with ⟨i, small, rest⟩ | ⟨set, touches⟩
    · exact ⟨i, small.trans (Nat.lt_succ_self n), rest⟩
    · exact ⟨n, Nat.lt_succ_self n, segment touches, touches, set⟩
  · obtain ⟨i, small, seg, touches, set⟩ := here
    rcases Nat.lt_succ_iff_lt_or_eq.mp small with old | rfl
    · exact .inl ⟨i, old, seg, touches, set⟩
    · exact .inr ⟨set, touches⟩

theorem tableIndices_iff {b : Nat} (lowerA : a < 2 ^ 47) (lowerB : b < 2 ^ 47) :
    tableIndices a = tableIndices b ↔ a / 2 ^ 21 = b / 2 ^ 21 := by
  simp only [tableIndices, List.cons.injEq, and_true, pml4Index, pdptIndex, pdIndex]
  omega

/-- What the loader has done to the flags when it returns. -/
theorem loadElfSegments_permits {mapper : Mapper} {image : List UInt8} {heapSize : Nat}
    (lower : LowerHalf image)
    (distinct : (owned 4 root h s).Nodup) (kernel : Slots kernelLaw s.ram 4 root)
    (start : Slots (permLaw (fun _ => False) fun _ => False) s.ram 4 root)
    (empty : ∀ a < 2 ^ 47, userLoad root s a = none)
    (loaded : loadElfSegments mapper image (.read image) root s = .ok heapSize s')
    (lowerA : a < 2 ^ 47)
    (touched : Touched image a) :
    UserReadable s'.ram root a ∧
      (UserWritable s'.ram root a ↔ WritableBy image (Elf64Header.read image).phnum a ∧
      ∃ b, b / 2 ^ 21 = a / 2 ^ 21 ∧ FirstWritable image (Elf64Header.read image).phnum b) := by
  rw [loadElfSegments] at loaded
  split at loaded
  · cases loaded
  rename_i size
  obtain ⟨maxLoadEnd, s₁, loop, rounded⟩ := Prog.bind_eq_ok.mp loaded
  have lowers : ∀ i < (Elf64Header.read image).phnum, Segment image i →
      (headerAt image i).vaddr + (headerAt image i).memsz ≤ 2 ^ 47 := fun i inside segment =>
    lower i inside segment.1 segment.2
  have before : PermsUpTo image root h s 0 s := by
    refine ⟨.refl, fun a lower => by simp [pageMapped_userLoad lower, empty a lower],
      start.mono fun ks f => permLaw_mono
      (fun b never => never.elim) (fun b here => ?_) (fun b never => never.elim) fun b here => ?_⟩
    · obtain ⟨i, never, -⟩ := here
      exact absurd never (Nat.not_lt_zero i)
    · obtain ⟨i, never, -⟩ := here
      exact absurd never (Nat.not_lt_zero i)
  have perms := foldlM_ok (fun done m t => PermsUpTo image root h s done.length t ∧ m ≤ 2 ^ 47) loop
    ⟨before, Nat.zero_le _⟩ fun done i rest m r t t' split inv run => ?_
  · have same : s₁ = s' := by
      cases sum : pageRoundUp maxLoadEnd with
      | none => simp [sum, Prog.okOr] at rounded
      | some n =>
          rw [sum] at rounded
          exact (Outcome.ok.inj rounded).2
    subst same
    rw [List.length_range] at perms
    have mapped := (perms.1.pages a lowerA).mpr touched
    obtain ⟨readable, permitted⟩ := permLaw_permits lowerA perms.1.perms mapped
    refine ⟨readable, permitted.trans ⟨?_, ?_⟩⟩
    · rintro ⟨⟨b, here, tables⟩, c, there, page⟩
      obtain ⟨i, inside, segment, touches, set⟩ := there
      have lowerC := touches_lower (fun _ => lowers i inside segment) touches
      refine ⟨⟨i, inside, segment, ?_, set⟩, b, ?_, here⟩
      · obtain ⟨x, same, low, high⟩ := touches
        exact ⟨x, same.trans (pageIndices_injective lowerA lowerC page).symm, low, high⟩
      · obtain ⟨j, inside', segment', touches', -⟩ := here
        exact ((tableIndices_iff lowerA
          (touches_lower (fun _ => lowers j inside' segment') touches')).mp tables).symm
    · rintro ⟨there, b, same, here⟩
      obtain ⟨j, inside', segment', touches', -⟩ := id here
      have lowerB := touches_lower (fun _ => lowers j inside' segment') touches'
      exact ⟨⟨b, here, (tableIndices_iff lowerA lowerB).mpr same.symm⟩, a, there, rfl⟩
  · obtain ⟨perms, bound⟩ := inv
    obtain ⟨inside, rfl⟩ := range_split split
    obtain ⟨header, t₁, read, rest⟩ := Prog.bind_eq_ok.mp run
    obtain ⟨rfl, rfl, -⟩ := (readProgramHeader_spec (not_ne_iff.mp size) i t).of_ok read
    rw [List.length_append, List.length_singleton, List.length_range] at *
    split at rest
    case isTrue other =>
      obtain ⟨rfl, rfl⟩ := Outcome.ok.inj rest
      exact ⟨perms.skip other, bound⟩
    case isFalse load =>
      have place : (headerAt image i).memsz ≠ 0 →
        (headerAt image i).vaddr + (headerAt image i).memsz ≤ 2 ^ 47 :=
        fun nonzero => lowers i inside ⟨not_ne_iff.mp load, nonzero⟩
      refine ⟨perms.snoc (not_ne_iff.mp load)
        (fun j small => lowers j (small.trans_lt inside)) bound distinct kernel rest, ?_⟩
      obtain ⟨-, ⟨zero, rfl, -⟩ | ⟨nonzero, run⟩⟩ := loadSegment_ok place rest
      · exact bound
      · rw [run.stop]
        exact max_le bound run.below.le

/-- After a program of the lower half has been loaded, each page of its segments can be
    read. It can be written exactly when a writable segment touches it, if and only if that
    segment finds a page of the same page table whose first segment is writable. -/
theorem segmentPage_permissions_iff (mapper : Mapper) {image : List UInt8} {heapSize : Nat}
    {s₀ : MemState}
    (lower : LowerHalf image) (distinct : s₀.available.Nodup) (made : newUvm s₀ = .ok root s)
    (loaded : loadElfSegments mapper image (.read image) root s = .ok heapSize s') :
    ∀ a < 2 ^ 47, Touched image a → UserReadable s'.ram root a ∧
      ((UserWritable s'.ram root a ↔ WritableBy image (Elf64Header.read image).phnum a) ↔
        (WritableBy image (Elf64Header.read image).phnum a →
          ∃ b, b / 2 ^ 21 = a / 2 ^ 21 ∧
            FirstWritable image (Elf64Header.read image).phnum b)) := by
  intro a lowerA touched
  have new := (newUvm_spec s₀).of_ok made
  have tree : (owned 4 root 0 s).Nodup := by rwa [new.owned_eq, add_zero]
  obtain ⟨readable, permitted⟩ := loadElfSegments_permits lower tree new.slots new.slots
    (fun b lowerB => newSpace_unmapped new lowerB) loaded lowerA touched
  refine ⟨readable, ?_⟩
  rw [permitted]
  tauto

/-- A program of two segments on one page; only the second may be written. -/
def sharedPageImage : List UInt8 :=
  [0x7F, 0x45, 0x4C, 0x46, 2, 1, 1, 0, 0, 0, 0, 0, 0, 0, 0, 0, 2, 0, 0x3E, 0, 1, 0, 0, 0] ++
  [0, 0, 0, 0, 0, 0, 0, 0, 64, 0, 0, 0, 0, 0, 0, 0, 0, 0, 0, 0, 0, 0, 0, 0, 0, 0, 0, 0, 64, 0, 56,
    0, 2, 0, 0, 0, 0, 0, 0, 0] ++
  [1, 0, 0, 0, 4, 0, 0, 0, 0, 0, 0, 0, 0, 0, 0, 0, 0, 0, 0, 0, 0, 16, 0, 0, 0, 0, 0, 0, 0, 0, 0,
    0] ++
  [0, 0, 0, 0, 0, 0, 0, 0, 1, 0, 0, 0, 0, 0, 0, 0, 0, 0, 0, 0, 0, 0, 0, 0] ++
  [1, 0, 0, 0, 6, 0, 0, 0, 0, 0, 0, 0, 0, 0, 0, 0, 1, 0, 0, 0, 0, 16, 0, 0, 0, 0, 0, 0, 0, 0, 0,
    0] ++
  [0, 0, 0, 0, 0, 0, 0, 0, 1, 0, 0, 0, 0, 0, 0, 0, 0, 0, 0, 0, 0, 0, 0, 0]

theorem sharedPageImage_lower : LowerHalf sharedPageImage := by
  intro i inside _ _
  have count : (Elf64Header.read sharedPageImage).phnum = 2 := by decide
  obtain rfl | rfl : i = 0 ∨ i = 1 := by omega
  · rw [headerAt]
    decide
  · rw [headerAt]
    decide

/-- Load the segments of a program into a new address space; the flags on the way to its
    first page. -/
def loadFresh (image : List UInt8) : Prog MemState (List PageTableFlags) := do
  let root ← newUvm
  let _ ← loadElfSegments offsetPageTable image (.read image) root
  let s ← .get
  pure (flagsOf s.ram root 0x100000000000)

theorem loadFresh_sharedPage :
    valueOf (loadFresh sharedPageImage freshMemory) = some [⟨5, 0⟩, ⟨5, 0⟩, ⟨5, 0⟩, ⟨7, 0⟩] := by
  decide +kernel

theorem sharedPage_loads : ∃ root s heapSize s', newUvm freshMemory = .ok root s ∧
    loadElfSegments offsetPageTable sharedPageImage
      (.read sharedPageImage) root s = .ok heapSize s' ∧
    flagsOf s'.ram root 0x100000000000 = [⟨5, 0⟩, ⟨5, 0⟩, ⟨5, 0⟩, ⟨7, 0⟩] := by
  obtain ⟨t, run⟩ := valueOf_eq_some loadFresh_sharedPage
  obtain ⟨root, s, made, run⟩ := Prog.bind_eq_ok.mp run
  obtain ⟨heapSize, s', loaded, run⟩ := Prog.bind_eq_ok.mp run
  rw [Prog.get_bind] at run
  exact ⟨root, s, heapSize, s', made, loaded, (Outcome.ok.inj run).1⟩

theorem segmentPage_permissions_iff_sharedPage :
    ∃ root s heapSize s', newUvm freshMemory = .ok root s ∧
    loadElfSegments offsetPageTable sharedPageImage
      (.read sharedPageImage) root s = .ok heapSize s' ∧
    ∀ a < 2 ^ 47, Touched sharedPageImage a → UserReadable s'.ram root a ∧
      ((UserWritable s'.ram root a ↔
        WritableBy sharedPageImage (Elf64Header.read sharedPageImage).phnum a) ↔
        (WritableBy sharedPageImage (Elf64Header.read sharedPageImage).phnum a →
          ∃ b, b / 2 ^ 21 = a / 2 ^ 21 ∧
            FirstWritable sharedPageImage (Elf64Header.read sharedPageImage).phnum b)) := by
  obtain ⟨root, s, heapSize, s', made, loaded, -⟩ := sharedPage_loads
  exact ⟨root, s, heapSize, s', made, loaded,
    segmentPage_permissions_iff offsetPageTable sharedPageImage_lower freshMemory_distinct made loaded⟩

/-- The page has a writable segment and cannot be written. -/
theorem sharedPage_not_writable :
    LowerHalf sharedPageImage ∧ ∃ root s heapSize s', newUvm freshMemory = .ok root s ∧
    loadElfSegments offsetPageTable sharedPageImage
      (.read sharedPageImage) root s = .ok heapSize s' ∧
    WritableBy sharedPageImage (Elf64Header.read sharedPageImage).phnum 0x100000000000 ∧
    ¬ UserWritable s'.ram root 0x100000000000 := by
  obtain ⟨root, s, heapSize, s', made, loaded, flags⟩ := sharedPage_loads
  refine ⟨sharedPageImage_lower, root, s, heapSize, s', made, loaded,
    ⟨1, by decide, ⟨?_, ?_⟩, ?_, ?_⟩, fun permitted => ?_⟩
  · rw [headerAt]
    decide
  · rw [headerAt]
    decide
  · rw [headerAt]
    exact ⟨0x100000000001, by decide, by decide, by decide⟩
  · rw [headerAt, Elf64ProgramHeader.Writable]
    decide
  · have first := permitted.2 ⟨5, 0⟩ (by rw [flags]; exact List.mem_cons_self)
    revert first
    decide

end FerriOS.Loader
