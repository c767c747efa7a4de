import FerriOS.Exec.Bare
import FerriOS.Exec.HeapPages

/-! # Images that make the loader panic

The sizes and offsets of an image are checked; the addresses of its segments are not. The
loader comes to a segment when the file holds its header, when the headers before it pass,
and when there are frames for their pages. There it panics if one of the addresses is not
canonical.
-/

namespace FerriOS.Loader

open FerriOS.Lib FerriOS.Memory

variable {root : PhysFrame} {h : Multiset PhysFrame} {s : MemState} {image : List UInt8}
  {frames i j : Nat}

theorem HeaderInFile.earlier (inFile : HeaderInFile image i) (before : j ≤ i) :
    HeaderInFile image j := by
  have less : (j + 1) * ELF_PROGRAM_HEADER_SIZE ≤ (i + 1) * ELF_PROGRAM_HEADER_SIZE :=
    Nat.mul_le_mul_right _ (Nat.succ_le_succ before)
  obtain ⟨inside, small⟩ := inFile
  exact ⟨by omega, by omega⟩

/-- A later header needs at least as many frames. -/
theorem Reached.framesSuffice (reached : Reached image frames i) (before : j < i)
    (tree : treeRoutes s.ram 4 root = {[]})
    (held : frames ≤ (treeRoutes s.ram 4 root).card + Multiset.card s.available) :
    ¬ FramesShort root (loadedPages image (List.range j ++ [j])) s := by
  have earlier : ∀ a ∈ loadedPages image (List.range j ++ [j]),
    a ∈ loadedPages image (List.range i) := by
    intro a member
    rw [← List.range_succ] at member
    obtain ⟨k, inside, page⟩ := List.mem_flatMap.mp member
    rw [List.mem_range] at inside
    exact List.mem_flatMap.mpr ⟨k, List.mem_range.mpr (by omega), page⟩
  have fewer := Finset.card_le_card (Finset.union_subset_union (le_refl {[]}) (wanted_mono earlier))
  have nodes := card_missing s.ram root (loadedPages image (List.range j ++ [j]))
  have enough := reached.enough
  rw [tree] at nodes held
  rw [FramesShort]
  omega

/-- The loop of the loader gets to a header that is reached. -/
theorem Reached.comes (reached : Reached image frames i) (mapper : Mapper)
    (tree : treeRoutes s.ram 4 root = {[]})
    (held : frames ≤ (treeRoutes s.ram 4 root).card + Multiset.card s.available)
    (distinct : (owned 4 root h s).Nodup) (slots : Slots kernelLaw s.ram 4 root) :
    ∃ maxLoadEnd s', (List.range i).foldlM (fun maxLoadEnd i => (do
      let header ← readProgramHeader image (.read image) i
      if header.progType ≠ ELF_PROG_LOAD then pure maxLoadEnd
      else loadSegment mapper image root maxLoadEnd header : Prog MemState Nat)) 0 s = .ok maxLoadEnd s' := by
  refine ((Outcome.Sat.foldlM (LoadedUpTo image root h s) _
    (fun done j rest maxLoadEnd s₁ split loaded => ?_) .start :
    Outcome.Sat False (LoadedUpTo image root h s (List.range i)) (fun _ _ => False) _).total).imp
      fun _ => .imp fun _ => And.left
  obtain ⟨before, rfl⟩ := range_split split
  have below : HeaderInFile image j → (headerAt image j).progType = ELF_PROG_LOAD →
    Loads image (headerAt image j) →
      SegmentOk False (headerAt image j) := fun _ load loads =>
    .inl ((reached.passed j before load).resolve_left fun empty => loads.2.1 empty.2).2
  refine (loadHeader_spec mapper reached.size below loaded distinct slots).mono id
    (fun _ _ next => next) fun _ _ fails => ?_
  exact reached.framesSuffice before tree held
    (fails.2 (reached.inFile.earlier before.le) (reached.passed j before))

/-- The loader panics at a segment that it comes to, if one of its addresses is refused. -/
theorem prepareExecImage_panics (mapper : Mapper) (argv : List (List UInt8))
    (distinct : s.available.Nodup)
    (accepted : HeaderAccepted image) (reached : Reached image (Multiset.card s.available) i)
    (load : (headerAt image i).progType = ELF_PROG_LOAD) (loads : Loads image (headerAt image i))
    (edge : SegmentPanics (headerAt image i)) :
    ∃ message, prepareExecImage mapper image argv s = .panic message := by
  obtain ⟨root, t, made, new⟩ : ∃ root t, newUvm s = .ok root t ∧ NewSpace root s t := by
    refine ((newUvm_spec s).mono id (fun _ _ new => new) fun _ _ fails => ?_).total
    have page : ({[]} : Finset (List Nat)).card ≤ _ :=
      (Finset.card_le_card Finset.subset_union_left).trans reached.enough
    rw [fails.2] at page
    exact absurd page (by decide)
  have distinct₁ : (owned 4 root 0 t).Nodup := by rwa [new.owned_eq, add_zero]
  obtain ⟨maxLoadEnd, s₁, before⟩ :=
    reached.comes mapper (routes_single new.tree) new.frames.ge distinct₁ new.slots
  obtain ⟨rest, split⟩ := range_around reached.inside
  obtain ⟨message, panics⟩ := loadSegment_panics mapper loads edge root maxLoadEnd s₁
  have loop : loadElfSegments mapper image (.read image) root t = .panic message := by
    rw [loadElfSegments, if_neg (not_not.mpr reached.size), split, Prog.bind_run,
      Prog.foldlM_append_ok before, List.foldlM_cons, Prog.bind_run,
        Prog.bind_ok (readProgramHeader_inFile reached.inFile reached.size s₁),
      if_neg (not_not.mpr load), panics]
  refine ⟨message, ?_⟩
  rw [prepareExecImage, if_neg (not_lt.mpr accepted.size),
    Prog.bind_ok (readElfHeader_accepted accepted s),
    Prog.bind_ok made, Prog.bind_run, loop]

/-- The loader does not panic when every segment that it comes to ends in the lower half, or
    has an end that overflows; and it does otherwise, unless it goes on to map a segment of
    the upper half. -/
theorem prepareExecImage_total (mapper : Mapper) (argv : List (List UInt8))
    (distinct : s.available.Nodup) :
    (Confined False image (Multiset.card s.available) → ∀ message,
    prepareExecImage mapper image argv s ≠ .panic message) ∧
    (Confined True image (Multiset.card s.available) →
      (∀ message, prepareExecImage mapper image argv s ≠ .panic message) →
        Confined False image (Multiset.card s.available)) := by
  refine ⟨fun confined message panics => ?_, fun confined total accepted i reached load loads => ?_⟩
  · have spec := prepareExecImage_spec mapper argv confined distinct
    rw [panics] at spec
    exact spec
  · rcases confined accepted i reached load loads with below | overflow | ⟨-, edge⟩
    · exact .inl below
    · exact .inr (.inl overflow)
    · obtain ⟨message, panics⟩ :=
        prepareExecImage_panics mapper argv distinct accepted reached load loads edge
      exact absurd panics (total message)

theorem readOnlyImage_confined {frames : Nat} : Confined False readOnlyImage frames :=
  fun _ _ reached _ _ => .inl (readOnlyImage_ends reached.inside)

theorem prepareExecImage_total_readOnly :
    Confined False readOnlyImage (Multiset.card freshMemory.available) ∧
    ∀ message, prepareExecImage offsetPageTable readOnlyImage [] freshMemory ≠ .panic message :=
  ⟨readOnlyImage_confined, (prepareExecImage_total offsetPageTable
    [] freshMemory_distinct).1 readOnlyImage_confined⟩

/-- A program whose segment starts between the halves. -/
def noncanonicalImage : List UInt8 :=
  [0x7F, 0x45, 0x4C, 0x46, 2, 1, 1, 0, 0, 0, 0, 0, 0, 0, 0, 0, 2, 0, 0x3E, 0, 1, 0, 0, 0] ++
  [0, 0, 0, 0, 0, 0, 0, 0, 64, 0, 0, 0, 0, 0, 0, 0, 0, 0, 0, 0, 0, 0, 0, 0, 0, 0, 0, 0, 64, 0, 56,
    0, 1, 0, 0, 0, 0, 0, 0, 0] ++
  [1, 0, 0, 0, 4, 0, 0, 0, 0, 0, 0, 0, 0, 0, 0, 0, 0, 0, 0, 0, 0, 0, 1, 0, 0, 0, 0, 0, 0, 0, 0,
    0] ++
  [0, 0, 0, 0, 0, 0, 0, 0, 1, 0, 0, 0, 0, 0, 0, 0, 0, 0, 0, 0, 0, 0, 0, 0]

theorem noncanonicalImage_panics : ∃ message,
    prepareExecImage offsetPageTable noncanonicalImage [] freshMemory = .panic message := by
  have lost : (prepareExecImage offsetPageTable noncanonicalImage
    [] freshMemory).final.isNone = true := by decide +kernel
  cases outcome : prepareExecImage offsetPageTable noncanonicalImage [] freshMemory with
  | ok exec s' =>
      rw [outcome] at lost
      cases lost
  | err message s' =>
      rw [outcome] at lost
      cases lost
  | panic message => exact ⟨message, rfl⟩

end FerriOS.Loader
