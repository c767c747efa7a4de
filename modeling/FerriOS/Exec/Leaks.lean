import FerriOS.Exec.Bare
import FerriOS.Memory.MapTo

/-! # What a failing load costs

Nothing on the way through the loader gives a frame back, and no error exit does. Once
the page table is allocated, an image that is refused has cost at least that frame.
-/

namespace FerriOS.Loader

open FerriOS.Lib FerriOS.Memory

variable {α β ι : Type} {root : PhysFrame} {s s' : MemState}

/-- A routine that only takes frames from the allocator. -/
def Draws (x : Prog MemState α) : Prop :=
  ∀ s, (x s).Sat True (fun _ s' => s'.available ≤ s.available) fun _ s' =>
    s'.available ≤ s.available

namespace Draws

theorem pure (a : α) : Draws (pure a : Prog MemState α) := fun _ => le_rfl

theorem fail (message : String) : Draws (.fail message : Prog MemState α) := fun _ => le_rfl

theorem crash (message : String) : Draws (.crash message : Prog MemState α) := fun _ => trivial

theorem get : Draws (.get : Prog MemState MemState) := fun _ => le_rfl

theorem okOr (message : String) (o : Option α) : Draws (.okOr message o : Prog MemState α) := by
  cases o with
  | none => exact fail message
  | some a => exact pure a

theorem expect (message : String) (o : Option α) : Draws (.expect message o : Prog MemState α) := by
  cases o with
  | none => exact crash message
  | some a => exact pure a

theorem writeRam (f : PhysMem → PhysMem) : Draws (writeRam f) := fun _ => le_rfl

theorem bind {x : Prog MemState α} {f : α → Prog MemState β} (first : Draws x)
    (rest : ∀ a, Draws (f a)) :
    Draws (x >>= f) := fun s =>
  ((first s).bind (R := fun _ s' => s'.available ≤ s.available) fun a s₁ less =>
    (rest a s₁).mono id (fun _ _ next => next.trans less) fun _ _ next => next.trans less)

theorem ite {c : Prop} [Decidable c] {x y : Prog MemState α} (yes : Draws x) (no : Draws y) :
    Draws (if c then x else y) := by
  split
  · exact yes
  · exact no

theorem attempt {x : Prog MemState α} (draws : Draws x) : Draws x.attempt :=
    fun s => (draws s).attempt

theorem each {is : List ι} {body : ι → Prog MemState Unit} (draws : ∀ i, Draws (body i)) :
    Draws (.each is body) := by
  induction is with
  | nil => exact pure ()
  | cons i is ih => exact bind (draws i) fun _ => ih

theorem foldlM {is : List ι} {body : α → ι → Prog MemState α} (draws : ∀ a i, Draws (body a i))
    (a : α) :
    Draws (is.foldlM body a) := by
  induction is generalizing a with
  | nil => exact pure a
  | cons i is ih => exact bind (draws a i) ih

end Draws

theorem allocateFrame_draws : Draws allocateFrame := by
  intro s
  obtain ⟨s', r, run, -, -, -, -, available⟩ := allocateFrame_spec s
  rw [run]
  cases r with
  | none => exact (available.2.trans available.1.symm).le
  | some c => exact available ▸ Multiset.le_cons_self _ c

theorem walkPagetable_draws (va : Nat) : Draws (walkPagetable root va false) := by
  intro s
  rw [walkPagetable_lookup]
  exact le_rfl

theorem descent_draws {insert widen : PageTableFlags} {is : List Nat} {t : PhysFrame}
    {r : Option PhysFrame}
    (walk : Descent insert widen is t s r s') : s'.available ≤ s.available := by
  induction walk with
  | arrived => exact le_rfl
  | kept _ _ _ ih => exact ih
  | widened _ _ _ ih => exact ih
  | created _ taken _ ih =>
      have less := (allocateFrame_draws _).of_ok taken
      exact ih.trans less
  | exhausted _ taken => exact (allocateFrame_draws _).of_ok taken
  | huge => exact le_rfl
  | hugeWidened => exact le_rfl

variable (mapper : Mapper) {flags : PageTableFlags}

theorem mapTo_draws (page : Nat) (frame : PhysFrame) (present : flags.contains .PRESENT = true)
    (small : flags.contains .HUGE_PAGE = false) : Draws (mapper.mapTo root page frame flags) := by
  intro s
  have spec := mapper.mapTo_spec root page frame flags s present small
  cases run : mapper.mapTo root page frame flags s with
  | ok value s' =>
      rw [run] at spec
      obtain ⟨pt, s₁, walk, -, rfl⟩ := spec
      have less := descent_draws walk
      exact less
  | err message s' =>
      rw [run] at spec
      rcases spec with walk | ⟨pt, walk, -⟩
      · exact descent_draws walk
      · exact descent_draws walk
  | panic message => trivial

theorem mapPage_draws (page : Nat) (present : flags.contains .PRESENT = true)
    (small : flags.contains .HUGE_PAGE = false) : Draws (mapPage mapper root page flags) := by
  refine .bind allocateFrame_draws fun r => .bind (.okOr _ r) fun frame =>
    .bind (.writeRam _) fun _ =>
    .bind (.attempt (mapTo_draws mapper page frame present small)) fun result => ?_
  cases result with
  | ok value => exact .pure ()
  | error message => exact .fail _

theorem mapPages_draws (start count : Nat) (present : flags.contains .PRESENT = true)
    (small : flags.contains .HUGE_PAGE = false) : Draws (mapPages mapper root start count flags) :=
  .each fun _ => .bind (.okOr _ _) fun _ => .bind (.okOr _ _) fun _ => .bind (.expect _ _) fun _ =>
    mapPage_draws mapper _ present small

theorem writeMapped_draws (addr : Nat) (bytes : List UInt8) :
    Draws (writeMapped root addr bytes) := by
  refine .bind (.expect _ _) fun va => .bind (walkPagetable_draws va) fun slot => ?_
  cases slot with
  | none => exact .fail _
  | some slot => exact .bind .get fun s => .ite (.writeRam _) (.fail _)

theorem copyToUserPagetable_draws (dst : Nat) (src : List UInt8) :
    Draws (copyToUserPagetable root dst src) :=
  .each fun _ => writeMapped_draws _ _

theorem ensureUserPageMapping_draws (header : Elf64ProgramHeader) (page : Nat) :
    Draws (ensureUserPageMapping mapper root (segmentFlags header) page) := by
  have lawful := segmentFlags_lawful header page
  refine .bind (walkPagetable_draws page) fun slot => ?_
  cases slot with
  | none => exact mapPage_draws mapper page lawful.present lawful.small
  | some slot => exact .bind .get fun s => .ite (.writeRam _) (mapPage_draws mapper page lawful.present lawful.small)

theorem loadSegment_draws (image : List UInt8) (maxLoadEnd : Nat) (header : Elf64ProgramHeader) :
    Draws (loadSegment mapper image root maxLoadEnd header) := by
  refine .ite (.fail _) (.ite (.pure _) (.bind (.okOr _ _) fun fileEnd => .ite (.fail _) ?_))
  refine .bind (.expect _ _) fun segmentStart => .bind (.okOr _ _) fun segmentEnd =>
    .bind (.expect _ _) fun stop =>
    .bind (.bind (.expect _ _) fun _ => .expect _ _) fun lastByte => ?_
  exact .bind (.each (ensureUserPageMapping_draws mapper header)) fun _ =>
    .bind (.each fun _ => writeMapped_draws _ _) fun _ =>
      .bind (copyToUserPagetable_draws _ _) fun _ => .pure _

theorem loadElfSegments_draws (image : List UInt8) (elf : Elf64Header) :
    Draws (loadElfSegments mapper image elf root) := by
  refine .ite (.fail _) (.bind (.foldlM (fun maxLoadEnd i => .bind ?_ fun header => ?_) 0) fun _ =>
    .okOr _ _)
  · exact .bind (.okOr _ _) fun _ => .bind (.okOr _ _) fun _ => .bind (.okOr _ _) fun _ =>
      .ite (.fail _) (.pure _)
  · exact .ite (.pure _) (loadSegment_draws mapper image maxLoadEnd header)

theorem setupUserStack_draws (argv : List (List UInt8)) (stackTop : Nat) :
    Draws (setupUserStack root argv stackTop) := by
  refine .bind (.foldlM (fun stack arg => .bind (.okOr _ _) fun sp => ?_) _) fun stack => ?_
  · exact .bind (copyToUserPagetable_draws _ _) fun _ =>
      .bind (copyToUserPagetable_draws _ _) fun _ => .pure _
  · exact .bind (.okOr _ _) fun _ => .bind (.okOr _ _) fun _ =>
      .bind (copyToUserPagetable_draws _ _) fun _ =>
      .bind (.okOr _ _) fun _ => .bind (copyToUserPagetable_draws _ _) fun _ => .pure _

theorem newUvm_draws : Draws newUvm := by
  intro s
  refine (newUvm_spec s).mono False.elim (fun root t new => ?_) fun _ _ fails => fails.1.available
  exact new.available ▸ Multiset.le_cons_self _ root

theorem loading_draws (image : List UInt8) (argv : List (List UInt8)) (elf : Elf64Header) :
    Draws (do
    let heapSize ← loadElfSegments mapper image elf root
    mapPage mapper root guardPage (.PRESENT ||| .WRITABLE)
    mapPages mapper root stackStart STACK_PAGES (.PRESENT ||| .WRITABLE ||| .USER_ACCESSIBLE)
    let (userSp, argc, argvUserPtr) ← setupUserStack root argv USER_STACK_TOP
    pure ({ pageTable := root, entry := elf.entry, userSp, argc, argvUserPtr, heapSize } : Exec)) :=
  .bind (loadElfSegments_draws mapper image elf) fun _ =>
    .bind (mapPage_draws mapper _ (by decide) (by decide)) fun _ =>
    .bind (mapPages_draws mapper _ _ (by decide) (by decide)) fun _ =>
      .bind (setupUserStack_draws argv _) fun _ => .pure _

/-- A load that fails behind the header has cost the page table, when there was a frame. -/
theorem loading_fails {image : List UInt8} {argv : List (List UInt8)} {message : String}
    (accepted : HeaderAccepted image)
    (failed : prepareExecImage mapper image argv s = .err message s') :
    (s.available = 0 ∧ s'.available = 0) ∨
    Multiset.card s'.available < Multiset.card s.available := by
  rw [prepareExecImage, if_neg (not_lt.mpr accepted.size),
    Prog.bind_ok (readElfHeader_accepted accepted s)] at failed
  have space := newUvm_spec s
  cases made : newUvm s with
  | ok root t =>
      rw [made] at space
      rw [Prog.bind_ok made] at failed
      have count := Multiset.card_le_card ((loading_draws mapper image argv _ t).of_err failed)
      have taken := congrArg Multiset.card space.available
      rw [Multiset.card_cons] at taken
      exact .inr (by omega)
  | err refusal t =>
      rw [made] at space
      rw [Prog.bind_err made] at failed
      obtain ⟨-, rfl⟩ := Outcome.err.inj failed
      have less : t.available ≤ s.available := space.1.available
      rw [space.2] at less
      exact .inl ⟨space.2, Multiset.le_zero.mp less⟩
  | panic refusal =>
      rw [made] at space
      exact space.elim

theorem loading_refused {image : List UInt8} {argv : List (List UInt8)} {message : String}
    (refused : ¬ HeaderAccepted image)
    (failed : prepareExecImage mapper image argv s = .err message s') : s' = s := by
  rw [prepareExecImage] at failed
  split at failed
  · exact (Outcome.err.inj failed).2.symm
  obtain ⟨refusal, run⟩ := readElfHeader_refused refused s
  rw [Prog.bind_err run] at failed
  exact (Outcome.err.inj failed).2.symm

/-- A load that fails costs nothing exactly if the header is refused, or if there was no
    frame to begin with; the second part says so of the frames as a set. -/
theorem prepareExecImage_leaks (mapper : Mapper) (image : List UInt8) (argv : List (List UInt8))
    {s s' : MemState}
    {message : String} (failed : prepareExecImage mapper image argv s = .err message s') :
    (s'.available = s.available ↔ ¬ HeaderAccepted image ∨ s.available = 0) ∧
      (s.available.Nodup → ((∀ f, f ∈ s'.available ↔ f ∈ s.available) ↔ ¬ HeaderAccepted image ∨
        s.available = 0)) := by
  have count : s'.available = s.available ↔ ¬ HeaderAccepted image ∨ s.available = 0 := by
    by_cases accepted : HeaderAccepted image
    · rw [or_iff_right (not_not.mpr accepted)]
      rcases loading_fails mapper accepted failed with ⟨none, none'⟩ | less
      · exact iff_of_true (none'.trans none.symm) none
      · refine iff_of_false (fun same => ?_) fun none => ?_
        · rw [same] at less
          exact lt_irrefl _ less
        · rw [none, Multiset.card_zero] at less
          exact Nat.not_lt_zero _ less
    · exact iff_of_true (congrArg _ (loading_refused mapper accepted failed)) (.inl accepted)
  refine ⟨count, fun distinct => ?_⟩
  have less : s'.available ≤ s.available := by
    by_cases accepted : HeaderAccepted image
    · rw [prepareExecImage, if_neg (not_lt.mpr accepted.size),
        Prog.bind_ok (readElfHeader_accepted accepted s)] at failed
      exact ((Draws.bind newUvm_draws fun root =>
        loading_draws mapper image argv _) s).of_err failed
    · rw [loading_refused mapper accepted failed]
  rw [← count, ← Multiset.Nodup.ext (Multiset.nodup_of_le less distinct) distinct]

/-- A file header with program headers of another size. -/
def oddImage : List UInt8 :=
  [0x7F, 0x45, 0x4C, 0x46, 2, 1, 1, 0, 0, 0, 0, 0, 0, 0, 0, 0, 2, 0, 0x3E, 0, 1, 0, 0,
    0] ++ List.replicate 40 0

theorem oddImage_accepted : HeaderAccepted oddImage := by
  constructor <;> decide

/-- A memory with a single frame left. -/
def oneFrame : MemState := ⟨fun _ _ => 0, ⟨[], 0, [5]⟩, 1⟩

theorem oneFrame_available : oneFrame.available = {5} := rfl

theorem oneFrame_some : oneFrame.available ≠ 0 := by
  rw [oneFrame_available]
  exact Multiset.singleton_ne_zero 5

theorem oddImage_fails {s : MemState} (some : s.available ≠ 0) :
    ∃ root s', prepareExecImage offsetPageTable oddImage [] s =
    .err "exec: unexpected program header size" s' ∧ s.available = root ::ₘ s'.available := by
  obtain ⟨root, t, made, new⟩ : ∃ root t, newUvm s = .ok root t ∧ NewSpace root s t :=
    ((newUvm_spec s).mono id (fun _ _ new => new) fun _ _ fails => some fails.2).total
  refine ⟨root, t, ?_, new.available⟩
  rw [prepareExecImage, if_neg (by decide),
    Prog.bind_ok (readElfHeader_accepted oddImage_accepted _), Prog.bind_ok made]
  exact Prog.bind_err (by rw [loadElfSegments, if_pos (by decide)]; rfl)

theorem prepareExecImage_leaks_odd : ∃ s', prepareExecImage offsetPageTable oddImage [] oneFrame =
    .err "exec: unexpected program header size" s' ∧
      (s'.available = oneFrame.available ↔ ¬ HeaderAccepted oddImage ∨ oneFrame.available = 0) := by
  obtain ⟨root, s', failed, -⟩ := oddImage_fails oneFrame_some
  exact ⟨s', failed, (prepareExecImage_leaks _ _ _ failed).1⟩

/-- The frame does not come back. -/
theorem oddImage_leaks : ∃ s', prepareExecImage offsetPageTable oddImage [] oneFrame =
    .err "exec: unexpected program header size" s' ∧ 5 ∈ oneFrame.available ∧ 5 ∉ s'.available := by
  obtain ⟨root, s', failed, taken⟩ := oddImage_fails oneFrame_some
  refine ⟨s', failed, by rw [oneFrame_available]; exact Multiset.mem_singleton_self 5, ?_⟩
  have count := congrArg Multiset.card taken
  rw [oneFrame_available, Multiset.card_singleton, Multiset.card_cons] at count
  have none : s'.available = 0 := Multiset.card_eq_zero.mp (by omega)
  simp [none]

end FerriOS.Loader
