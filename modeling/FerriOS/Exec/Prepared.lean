import FerriOS.Exec.Args
import FerriOS.Exec.HeapPages

/-! # The prepared image

Before the arguments are written, the new address space holds the image, the guard page
and an empty stack. The arguments are written below the top of the stack wherever a page
is present; they reach the image when they are longer than the stack and the guard page,
and a segment lies right below these.
-/

namespace FerriOS.Loader

open FerriOS.Lib FerriOS.Memory

variable {root : PhysFrame} {s s' : MemState} {image : List UInt8} {argv : List (List UInt8)}
  {r : Exec}

/-- The new address space is the one that the file describes, with a stack. -/
structure HoldsImage (image : List UInt8) (r : Exec) (s : MemState) : Prop where
  /-- The pages of the LOAD segments are mapped, the stack with its guard page, and no others. -/
  pages : ∀ a < 2 ^ 47, PageMapped s.ram r.pageTable a ↔ Touched image a ∨ guardPage ≤ a ∧
    a < USER_STACK_TOP
  /-- The segments, in their order over zeroed memory, are what a program reads. -/
  bytes : ∀ a < 2 ^ 47, Touched image a → userLoad r.pageTable s a = some (imageByte image a)
  aligned : PAGE_SIZE ∣ r.heapSize
  above : ∀ i < (Elf64Header.read image).phnum, Segment image i → segmentEnd image i ≤ r.heapSize
  tight : ∀ i < (Elf64Header.read image).phnum, Segment image i →
    ∃ j < (Elf64Header.read image).phnum, Segment image j ∧
    r.heapSize < segmentEnd image j + PAGE_SIZE

/-- The state in which the arguments are written. -/
theorem prepareExecImage_mapped (mapper : Mapper) (lower : LowerHalf image)
    (distinct : s.available.Nodup)
    (prepared : prepareExecImage mapper image argv s = .ok r s') :
    ∃ t, (∀ argv', prepareExecImage mapper image argv' s = (do
        let (userSp, argc, argvUserPtr) ← setupUserStack r.pageTable argv' USER_STACK_TOP
        pure ({ pageTable := r.pageTable, entry := r.entry, userSp, argc, argvUserPtr, heapSize := r.heapSize } : Exec)
        : Prog MemState Exec) t) ∧
      (owned 4 r.pageTable 0 t).Nodup ∧
      (∀ a < 2 ^ 47, Touched image a → ¬ (guardPage ≤ a ∧ a < USER_STACK_TOP)) ∧
        HoldsImage image r t := by
  rw [prepareExecImage] at prepared
  split at prepared
  · cases prepared
  rename_i size
  obtain ⟨elf, s₀, header, run₀⟩ := Prog.bind_eq_ok.mp prepared
  obtain ⟨rfl, rfl⟩ := (readElfHeader_spec image s).of_ok header
  obtain ⟨root, t, made, run₁⟩ := Prog.bind_eq_ok.mp run₀
  obtain ⟨heapSize, s₁, loaded, run₂⟩ := Prog.bind_eq_ok.mp run₁
  obtain ⟨⟨⟩, s₂, guard, run₃⟩ := Prog.bind_eq_ok.mp run₂
  obtain ⟨⟨⟩, s₃, stack, run₄⟩ := Prog.bind_eq_ok.mp run₃
  obtain ⟨top, s₄, -, last⟩ := Prog.bind_eq_ok.mp run₄
  obtain ⟨rfl, rfl⟩ := Outcome.ok.inj last
  -- the segments
  have new := (newUvm_spec s₀).of_ok made
  have distinct₀ : (owned 4 root 0 t).Nodup := by rwa [new.owned_eq, add_zero]
  have step₁ := ((loadElfSegments_spec mapper lower.segmentsOk le_rfl distinct₀ new.slots).of_ok loaded).2
  have holds := loadElfSegments_view lower distinct₀ new.slots
    (fun a lowerA => newSpace_unmapped new lowerA) loaded
  have distinct₁ := step₁.nodup distinct₀
  have slots₁ := (step₁.slots new.slots).mono guardLaw_of_kernelLaw
  -- the guard page and the stack pages
  have view₂ := fun a lowerA =>
    mapPage_view (a := a) mapper guard_mapOk (by decide) distinct₁ slots₁ guard lowerA
  have step₂ := ((mapPage_spec mapper guard_mapOk
    (by decide) distinct₁ slots₁).of_ok guard).1.toExtends
  have distinct₂ := step₂.nodup distinct₁
  have slots₂ := (step₂.slots slots₁).mono (Q := Lawless) fun _ _ _ => trivial
  obtain ⟨step₃, view₃⟩ := mapPages_view (by decide) (by decide) (by decide)
    (by decide) distinct₂ slots₂ stack
  have guardRange : ∀ a, a / PAGE_SIZE = guardPage / PAGE_SIZE ↔ guardPage ≤ a ∧
    a < stackStart := by
    intro a
    have start : guardPage / PAGE_SIZE * 4096 = guardPage := by decide
    have next : guardPage + 4096 = stackStart := by decide
    simp only [PAGE_SIZE] at start ⊢
    omega
  have stackEnd : stackStart + PAGE_SIZE * STACK_PAGES = USER_STACK_TOP := by decide
  have below : guardPage < stackStart := by decide
  have above : stackStart < USER_STACK_TOP := by decide
  rw [stackEnd] at view₃
  have inside : ∀ a < 2 ^ 47, guardPage ≤ a ∧ a < USER_STACK_TOP →
      userLoad root s₁ a = none ∧ PageMapped s₃.ram root a := by
    intro a lowerA range
    rcases lt_or_ge a stackStart with onGuard | onStack
    · obtain ⟨before, after⟩ := (view₂ a lowerA).1 ((guardRange a).mpr ⟨range.1, onGuard⟩)
      refine ⟨before, step₃.pageMapped ?_⟩
      rw [pageMapped_userLoad lowerA, after]
      rfl
    · obtain ⟨before, after⟩ := (view₃ a lowerA).1 ⟨onStack, range.2⟩
      have same := (view₂ a lowerA).2 fun page =>
        absurd ((guardRange a).mp page).2 (not_lt.mpr onStack)
      refine ⟨by rw [← same, before], ?_⟩
      rw [pageMapped_userLoad lowerA, after]
      rfl
  have outside : ∀ a < 2 ^ 47, ¬ (guardPage ≤ a ∧ a < USER_STACK_TOP) →
    userLoad root s₃ a = userLoad root s₁ a := by
    intro a lowerA range
    rw [(view₃ a lowerA).2 (by omega)]
    refine (view₂ a lowerA).2 fun page => ?_
    have here := (guardRange a).mp page
    omega
  have apart : ∀ a < 2 ^ 47, Touched image a → ¬ (guardPage ≤ a ∧ a < USER_STACK_TOP) := by
    intro a lowerA touched range
    have mapped := (holds.pages a lowerA).mpr touched
    rw [(inside a lowerA range).1] at mapped
    cases mapped
  refine ⟨s₃, fun argv' => ?_, step₃.nodup distinct₂, apart, fun a lowerA => ?_,
    fun a lowerA touched => ?_,
    holds.aligned, holds.above, holds.tight⟩
  · rw [prepareExecImage, if_neg size, Prog.bind_ok header, Prog.bind_ok made, Prog.bind_ok loaded,
      Prog.bind_ok guard,
      Prog.bind_ok stack]
  · by_cases range : guardPage ≤ a ∧ a < USER_STACK_TOP
    · exact ⟨fun _ => .inr range, fun _ => (inside a lowerA range).2⟩
    · rw [pageMapped_userLoad lowerA, outside a lowerA range, holds.pages a lowerA]
      simp only [range, or_false]
  · have mapped := (holds.pages a lowerA).mpr touched
    have byte := holds.bytes a lowerA
    rw [outside a lowerA (apart a lowerA touched)]
    obtain ⟨b, found⟩ := Option.isSome_iff_exists.mp mapped
    rw [found, Option.getD_some] at byte
    rw [found, byte]

/-- A store takes no frame. -/
theorem writeMapped_kept {addr : Nat} {bytes : List UInt8}
    (written : writeMapped root addr bytes s = .ok () s') :
    s'.available = s.available := by
  rw [writeMapped, virtAddr] at written
  cases start : VirtAddr.new addr with
  | none =>
      rw [start] at written
      cases written
  | some va =>
      simp only [start, Prog.expect_some, Prog.pure_bind,
        Prog.bind_ok (walkPagetable_lookup _ _ _)] at written
      cases found : lookup s.ram root va with
      | none => simp [found] at written
      | some slot =>
          simp only [found, Prog.get_bind] at written
          split at written
          · obtain ⟨-, rfl⟩ := Outcome.ok.inj written
            rfl
          · cases written

theorem writes_kept {writes : List (Nat × List UInt8)}
    (run : Prog.each writes (fun write => copyToUserPagetable root write.1 write.2) s = .ok () s') :
    s'.available = s.available :=
  each_ok (fun _ t => t.available = s.available) run rfl fun _ _ _ t _ _ kept copied =>
    (each_ok (fun _ t' => t'.available = t.available) copied rfl fun _ _ _ _ _ _ kept written =>
      (writeMapped_kept written).trans kept).trans kept

/-- What the arguments write on the pages of the image is what it has there. -/
def SparesImage (image : List UInt8) (argv : List (List UInt8)) : Prop :=
  ∀ write ∈ stackWrites USER_STACK_TOP argv, ∀ i < write.2.length, Touched image (write.1 + i) →
    write.2[i]? = some (imageByte image (write.1 + i))

/-- The image is there after the arguments if it was there before, and they spare it. -/
theorem HoldsImage.arguments {t : MemState} {places : Nat × Nat × Nat}
    (holds : HoldsImage image r t)
    (distinct : (owned 4 r.pageTable 0 t).Nodup)
    (built : setupUserStack r.pageTable argv USER_STACK_TOP t = .ok places s') :
    HoldsImage image r s' ↔ SparesImage image argv := by
  have aligned : 16 ∣ USER_STACK_TOP := by decide
  have lower : USER_STACK_TOP < 2 ^ 47 := by decide
  obtain ⟨room, -, writes⟩ := setupUserStack_run aligned built
  have within := stackWrites_within aligned room
  obtain ⟨held, kept⟩ := writes_hold (fun write member => (within write member).2.trans lower.le)
    (stackWrites_apart aligned room) (leavesApart distinct) writes
  have routes := (((setupUserStack_spec (P := Lawless) lower.le distinct).of_ok built).2.covered
    (writes_kept writes)
    (by simp : ∀ a ∈ [], _)).routes
  have mapped : ∀ a, PageMapped s'.ram r.pageTable a ↔ PageMapped t.ram r.pageTable a := by
    intro a
    rw [pageMapped_routes, pageMapped_routes, routes]
    simp [wanted]
  constructor
  · intro after write member i inside touched
    have top := (within write member).2
    rw [← held write member i inside]
    exact after.bytes _ (by omega) touched
  · intro spares
    refine ⟨fun a lowerA => (mapped a).trans (holds.pages a lowerA), fun a lowerA touched => ?_,
      holds.aligned,
      holds.above, holds.tight⟩
    by_cases across : ∃ write ∈ stackWrites USER_STACK_TOP argv, write.1 ≤ a ∧
      a < write.1 + write.2.length
    · obtain ⟨write, member, low, high⟩ := across
      obtain ⟨i, rfl⟩ := Nat.exists_eq_add_of_le low
      rw [held write member i (by omega)]
      exact spares write member i (by omega) touched
    · rw [kept a lowerA, holds.bytes a lowerA touched]
      intro write member
      by_contra inside
      exact across ⟨write, member, by omega, by omega⟩

/-- The loaded image equals the file exactly if the arguments spare it; and they do when
    they take no more than the stack and the guard page. -/
theorem prepareExecImage_holds (mapper : Mapper) (lower : LowerHalf image) (distinct : s.available.Nodup)
    (prepared : prepareExecImage mapper image argv s = .ok r s') :
    (HoldsImage image r s' ↔ SparesImage image argv) ∧
      (stackUse argv ≤ (STACK_PAGES + 1) * PAGE_SIZE → SparesImage image argv) := by
  obtain ⟨t, again, tree, apart, holds⟩ := prepareExecImage_mapped mapper lower distinct prepared
  obtain ⟨places, s₁, built, last⟩ := Prog.bind_eq_ok.mp ((again argv).symm.trans prepared)
  obtain ⟨-, rfl⟩ := Outcome.ok.inj last
  refine ⟨holds.arguments tree built, fun small write member i inside touched => ?_⟩
  have aligned : 16 ∣ USER_STACK_TOP := by decide
  have top : USER_STACK_TOP < 2 ^ 47 := by decide
  have pages : guardPage + (STACK_PAGES + 1) * PAGE_SIZE = USER_STACK_TOP := by decide
  have room : stackUse argv ≤ USER_STACK_TOP := by omega
  have frame := framePlace_eq aligned room
  have bounds := stackWrites_within aligned room write member
  exact absurd ⟨by omega, by omega⟩ (apart _ (by omega) touched)

/-- An image that loads also loads with other arguments, if these find pages. -/
theorem prepareExecImage_again (mapper : Mapper) (lower : LowerHalf image) (distinct : s.available.Nodup)
    (prepared : prepareExecImage mapper image argv s = .ok r s') (argv' : List (List UInt8))
    (room : stackUse argv' ≤ USER_STACK_TOP)
    (pages : ∀ a, framePlace USER_STACK_TOP argv' ≤ a → a < guardPage → Touched image a) :
    ∃ r' s₁ t, prepareExecImage mapper image argv' s = .ok r' s₁ ∧ HoldsImage image r' t ∧
      (owned 4 r'.pageTable 0 t).Nodup ∧ setupUserStack r'.pageTable argv' USER_STACK_TOP t =
        .ok (r'.userSp, r'.argc, r'.argvUserPtr) s₁ := by
  obtain ⟨t, again, tree, -, holds⟩ := prepareExecImage_mapped mapper lower distinct prepared
  have top : USER_STACK_TOP < 2 ^ 47 := by decide
  obtain ⟨ram, built⟩ := setupUserStack_mapped (by decide) top.le room (fun a low high =>
    (holds.pages a (high.trans top)).mpr (by
      rcases lt_or_ge a guardPage with below | above
      · exact .inl (pages a low below)
      · exact .inr ⟨above, high⟩)) tree
  exact ⟨_, _, t, (again argv').trans (Prog.bind_ok built),
    ⟨holds.pages, holds.bytes, holds.aligned, holds.above, holds.tight⟩,
    tree, built⟩

/-- A program with one byte, on the page below the guard page. -/
def belowGuardImage : List UInt8 :=
  [0x7F, 0x45, 0x4C, 0x46, 2, 1, 1, 0, 0, 0, 0, 0, 0, 0, 0, 0, 2, 0, 0x3E, 0, 1, 0, 0, 0] ++
  [0, 0, 0, 0, 0, 0, 0, 0, 64, 0, 0, 0, 0, 0, 0, 0, 0, 0, 0, 0, 0, 0, 0, 0, 0, 0, 0, 0, 64, 0, 56,
    0, 1, 0, 0, 0, 0, 0, 0, 0] ++
  [1, 0, 0, 0, 4, 0, 0, 0, 0, 0, 0, 0, 0, 0, 0, 0, 0, 0x60, 0xFF, 0xFF, 0xFF, 0x1F, 0, 0, 0, 0, 0,
    0, 0, 0, 0, 0] ++
  [1, 0, 0, 0, 0, 0, 0, 0, 0, 0x10, 0, 0, 0, 0, 0, 0, 0, 0, 0, 0, 0, 0, 0, 0]

theorem belowGuardImage_lower : LowerHalf belowGuardImage := by
  intro i inside _ _
  have count : (Elf64Header.read belowGuardImage).phnum = 1 := by decide
  obtain rfl : i = 0 := by omega
  rw [headerAt]
  decide

theorem belowGuardImage_touched {a : Nat} (low : 0x1FFFFFFF6000 ≤ a) (high : a < guardPage) :
    Touched belowGuardImage a := by
  have start : (headerAt belowGuardImage 0).vaddr = 0x1FFFFFFF6000 := by
    rw [headerAt]
    decide
  have size : (headerAt belowGuardImage 0).memsz = 0x1000 := by
    rw [headerAt]
    decide
  have stop : guardPage = 0x1FFFFFFF7000 := by decide
  refine ⟨0, by decide, ⟨?_, by omega⟩, a, rfl, by omega, by omega⟩
  rw [headerAt]
  decide

theorem belowGuardImage_loads :
    ∃ r s', prepareExecImage offsetPageTable belowGuardImage [] freshMemory = .ok r s' := by
  have loads : (valueOf (prepareExecImage offsetPageTable belowGuardImage
    [] freshMemory)).isSome = true := by decide +kernel
  obtain ⟨r, value⟩ := Option.isSome_iff_exists.mp loads
  exact ⟨r, valueOf_eq_some value⟩

theorem prepareExecImage_holds_belowGuard :
    ∃ r s', prepareExecImage offsetPageTable belowGuardImage [[0x61]] freshMemory =
    .ok r s' ∧ HoldsImage belowGuardImage r s' := by
  obtain ⟨r, s₁, loaded⟩ := belowGuardImage_loads
  obtain ⟨r', s', -, prepared, -⟩ :=
    prepareExecImage_again offsetPageTable belowGuardImage_lower freshMemory_distinct loaded
    [[0x61]] (by decide) fun a low high => absurd (low.trans_lt high) (by decide)
  obtain ⟨equal, fits⟩ := prepareExecImage_holds offsetPageTable belowGuardImage_lower freshMemory_distinct prepared
  exact ⟨r', s', prepared, equal.mpr (fits (by decide))⟩

/-- An argument that fills the stack and the guard page. -/
def overlongArgument : List UInt8 := List.replicate 36856 0x61

theorem overlongArgument_frame : stackUse [overlongArgument] = 36904 ∧
    framePlace USER_STACK_TOP [overlongArgument] = 0x1FFFFFFF6FD8 := by
  have length : overlongArgument.length = 36856 := by rw [overlongArgument, List.length_replicate]
  have use : stackUse [overlongArgument] = 36904 := by
    rw [stackUse, stringsSize, stringsSize, length, List.length_singleton]
  have frame := @framePlace_eq USER_STACK_TOP [overlongArgument] (by decide) (by rw [use]; decide)
  have top : USER_STACK_TOP = 0x200000000000 := rfl
  exact ⟨use, by omega⟩

theorem belowGuardImage_zero : imageByte belowGuardImage 0x1FFFFFFF6FD8 = 0 := by
  simp only [imageByte, storeSegments, headerAt]
  decide

/-- With that argument, the frame of the entry point lies in the image. -/
theorem overlongArgument_overwrites : LowerHalf belowGuardImage ∧ ∃ r s',
    prepareExecImage offsetPageTable belowGuardImage [overlongArgument] freshMemory = .ok r s' ∧
      ¬ HoldsImage belowGuardImage r s' := by
  obtain ⟨use, frame⟩ := overlongArgument_frame
  have stop : guardPage = 0x1FFFFFFF7000 := by decide
  obtain ⟨r, s₁, loaded⟩ := belowGuardImage_loads
  obtain ⟨r', s', t, prepared, holds, tree, built⟩ :=
    prepareExecImage_again offsetPageTable belowGuardImage_lower
    freshMemory_distinct loaded [overlongArgument] (by rw [use]; decide)
    fun a low high => belowGuardImage_touched (by omega) high
  refine ⟨belowGuardImage_lower, r', s', prepared, fun after => ?_⟩
  have spares := (holds.arguments tree built).mp after
  have member : (framePlace USER_STACK_TOP [overlongArgument],
      (frameWords USER_STACK_TOP [overlongArgument]).flatMap
        (leBytes · 8)) ∈ stackWrites USER_STACK_TOP [overlongArgument] :=
    List.mem_append_right _ (List.mem_cons_of_mem _ List.mem_cons_self)
  have words : 0 < ((frameWords USER_STACK_TOP [overlongArgument]).flatMap
    (leBytes · 8)).length := by
    simp only [length_words, frameWords, List.length_cons]
    omega
  have touched : Touched belowGuardImage (framePlace USER_STACK_TOP [overlongArgument] + 0) := by
    rw [frame]
    exact belowGuardImage_touched (by decide) (by decide)
  have byte := spares _ member 0 words touched
  rw [frame, Nat.add_zero, belowGuardImage_zero] at byte
  have first : ((frameWords USER_STACK_TOP [overlongArgument]).flatMap
    (leBytes · 8))[0]? = some 255 := rfl
  rw [first] at byte
  cases byte

end FerriOS.Loader
