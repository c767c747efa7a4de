import FerriOS.Exec.InitialStack
import FerriOS.Memory.Pages

/-! # Images without segments

An image whose header is in order, but which has no program headers, needs
thirteen frames: the page table, the guard page with three tables above it, and
the pages of the stack. With that many frames left, it loads.
-/

namespace FerriOS.Loader

open FerriOS.Lib FerriOS.Memory

variable {root : PhysFrame} {s s' : MemState}

/-- An executable for this machine, with nothing to load. -/
structure Bare (image : List UInt8) : Prop where
  header : ∀ s : MemState, readElfHeader image s = .ok (.read image) s
  phentsize : (Elf64Header.read image).phentsize = ELF_PROGRAM_HEADER_SIZE
  phnum : (Elf64Header.read image).phnum = 0

/-- The frames of an address space without segments. -/
def BARE_FRAMES : Nat := 13

theorem Bare.length {image : List UInt8} (bare : Bare image) : ELF_HEADER_SIZE ≤ image.length := by
  by_contra short
  have header := bare.header ⟨fun _ _ => 0, ⟨[], 0, []⟩, 0⟩
  rw [readElfHeader, if_pos (not_le.mp short)] at header
  cases header

theorem Bare.load {image : List UInt8} (bare : Bare image) (mapper : Mapper) (s : MemState) :
    loadElfSegments mapper image (.read image) root s = .ok 0 s := by
  rw [loadElfSegments, if_neg (by simp [bare.phentsize]), bare.phnum]
  rfl

theorem Bare.lowerHalf {image : List UInt8} (bare : Bare image) : LowerHalf image := by
  intro i inside
  rw [bare.phnum] at inside
  cases inside

theorem routes_single {t : MemState} (tree : treeFrames t.ram 4 root = {root}) :
    treeRoutes t.ram 4 root = {[]} := by
  have one : (treeRoutes t.ram 4 root).card = 1 := by rw
    [card_treeRoutes, tree, Multiset.card_singleton]
  obtain ⟨is, only⟩ := Finset.card_eq_one.mp one
  have here : [] ∈ treeRoutes t.ram 4 root := mem_treeRoutes.mpr ⟨4, root, .nil⟩
  rw [only, Finset.mem_singleton] at here
  rw [only, here]

theorem wanted_guard : (wanted [guardPage] \ {[]}).card = 4 := by decide +kernel

theorem wanted_stack : (wanted stackPages \
    ({[]} ∪ wanted [guardPage])).card = 8 := by decide +kernel

theorem guard_apart : ∀ a ∈ stackPages,
    pageIndices a ∉ ({[]} ∪ wanted [guardPage] : Finset (List Nat)) := by
  decide +kernel

/-- The slots of the address space of an image without segments. -/
def bareRoutes : Finset (List Nat) := {[]} ∪ wanted [guardPage] ∪ wanted stackPages

theorem bareRoutes_card : bareRoutes.card = BARE_FRAMES := by decide +kernel

/-- The guard page and the stack, by their addresses. -/
theorem stack_mapped (guard : PageMapped s.ram root guardPage)
    (stack : ∀ a ∈ stackPages, PageMapped s.ram root a) :
    RangeMapped root guardPage USER_STACK_TOP s := by
  intro a low high
  have start : guardPage = 0x1FFFFFFF7000 := by decide
  have top : USER_STACK_TOP = 0x200000000000 := rfl
  by_cases below : a < guardPage + PAGE_SIZE
  · have same : a / PAGE_SIZE = guardPage / PAGE_SIZE := by
      simp only [start, PAGE_SIZE] at low below ⊢
      omega
    rwa [PageMapped, pageIndices_congr same]
  · have first : stackStart = 0x1FFFFFFF8000 := by decide
    have page : stackStart + PAGE_SIZE * ((a - stackStart) / PAGE_SIZE) ∈ stackPages := by
      refine List.mem_map.mpr ⟨_, List.mem_range.mpr ?_, rfl⟩
      simp only [start, top, first, PAGE_SIZE, STACK_PAGES] at low high below ⊢
      omega
    have same : a / PAGE_SIZE = (stackStart + PAGE_SIZE *
      ((a - stackStart) / PAGE_SIZE)) / PAGE_SIZE := by
      simp only [start, first, PAGE_SIZE] at below ⊢
      omega
    rw [PageMapped, pageIndices_congr same]
    exact stack _ page

/-- With thirteen frames left, an image without segments loads up to its arguments. -/
theorem Bare.mapped {image : List UInt8} (bare : Bare image) (mapper : Mapper)
    (distinct : s.available.Nodup) (enough : BARE_FRAMES ≤ Multiset.card s.available) :
    ∃ root t, (∀ argv, prepareExecImage mapper image argv s = (do
        let (userSp, argc, argvUserPtr) ← setupUserStack root argv USER_STACK_TOP
        pure ({ pageTable := root, entry := (Elf64Header.read image).entry, userSp, argc, argvUserPtr, heapSize := 0 } : Exec)
        : Prog MemState Exec) t) ∧
      (owned 4 root 0 t).Nodup ∧ RangeMapped root guardPage USER_STACK_TOP t ∧
      Multiset.card s.available = Multiset.card t.available + BARE_FRAMES ∧
        treeRoutes t.ram 4 root = bareRoutes := by
  obtain ⟨root, t, made, new⟩ : ∃ root t, newUvm s = .ok root t ∧ NewSpace root s t := by
    refine ((newUvm_spec s).mono id (fun _ _ new => new) fun _ _ fails => ?_).total
    rw [fails.2] at enough
    exact absurd enough (by decide)
  have distinct₁ : (owned 4 root 0 t).Nodup := by rwa [new.owned_eq, add_zero]
  have routes := routes_single new.tree
  have taken := congrArg Multiset.card new.available
  rw [Multiset.card_cons] at taken
  -- the guard page
  obtain ⟨⟨⟩, s₁, mapped, guard⟩ :
    ∃ u s₁, mapPage mapper root guardPage (.PRESENT ||| .WRITABLE) t = .ok u s₁ ∧
      Mapped guardLaw root 0 guardPage t s₁ := by
    refine ((mapPage_spec mapper guard_mapOk (by decide) distinct₁ new.slots).mono id
      (fun _ _ mapped => mapped.1) fun _ _ fails => ?_).total
    rcases fails.2 guardLaw_noHuge with there | short
    · rw [pageMapped_routes, routes] at there
      simp [pageIndices, tableIndices] at there
    · rw [FramesShort, missing, routes, wanted_guard] at short
      simp only [BARE_FRAMES] at enough
      omega
  have routes₁ : treeRoutes s₁.ram 4 root = {[]} ∪ wanted [guardPage] := by rw
    [guard.routes, routes]
  have distinct₂ := guard.toExtends.nodup distinct₁
  have spent₁ := (Grown.refl.snoc guard).spent
  rw [List.nil_append, missing, routes, wanted_guard] at spent₁
  -- the stack
  obtain ⟨⟨⟩, s₂, mappedAll, stack⟩ : ∃ u s₂,
      mapPages mapper root stackStart STACK_PAGES
        (.PRESENT ||| .WRITABLE ||| .USER_ACCESSIBLE) s₁ = .ok u s₂ ∧
        Grown kernelLaw root 0 stackPages s₁ s₂ := by
    refine ((mapStack_spec mapper distinct₂ (guard.slots new.slots)).mono id
      (fun _ _ mapped => mapped.1) fun _ _ fails => ?_).total
    rcases fails.2 with ⟨a, member, there⟩ | short
    · rw [pageMapped_routes, routes₁] at there
      exact guard_apart a member there
    · rw [FramesShort, missing, routes₁, wanted_stack] at short
      simp only [BARE_FRAMES] at enough
      omega
  have spent₂ := stack.spent
  rw [missing, routes₁, wanted_stack] at spent₂
  refine ⟨root, s₂, fun argv => ?_, stack.toExtends.nodup distinct₂,
    stack_mapped (stack.toExtends.pageMapped guard.page) stack.mapped, ?_, ?_⟩
  · rw [prepareExecImage, if_neg (not_lt.mpr bare.length), Prog.bind_ok (bare.header s), Prog.bind_ok made,
      Prog.bind_ok (bare.load mapper t), Prog.bind_ok mapped, Prog.bind_ok mappedAll]
  · rw [BARE_FRAMES]
    omega
  · rw [stack.routes, routes₁, bareRoutes]

/-- With thirteen frames left, an image without segments loads. -/
theorem prepareExecImage_bare {image : List UInt8} (bare : Bare image) (mapper : Mapper)
    (distinct : s.available.Nodup) (enough : BARE_FRAMES ≤ Multiset.card s.available) :
    ∃ r s', prepareExecImage mapper image [] s = .ok r s' ∧
      Multiset.card s.available = Multiset.card s'.available + BARE_FRAMES ∧
      treeRoutes s'.ram 4 r.pageTable = bareRoutes := by
  obtain ⟨root, t, run, distinct₁, mapped, spent, routes⟩ := bare.mapped mapper distinct enough
  obtain ⟨ram, arguments⟩ := @setupUserStack_mapped root t USER_STACK_TOP [] (by decide)
    (by decide) (by decide)
    (fun a low high => mapped a (le_trans (by decide) low) high) distinct₁
  have filled := ((setupUserStack_spec (P := Lawless) (by decide) distinct₁).of_ok arguments).2
  have drawn := filled.count
  rw [MemState.setRam_available] at drawn
  have same := Finset.eq_of_subset_of_card_le filled.routes (by omega)
  exact ⟨_, _, (run []).trans (Prog.bind_ok arguments), spent, same.symm.trans routes⟩

/-- A file header, with no program header behind it. -/
def bareImage : List UInt8 :=
  [0x7F, 0x45, 0x4C, 0x46, 2, 1, 1, 0, 0, 0, 0, 0, 0, 0, 0, 0, 2, 0, 0x3E, 0, 1, 0, 0, 0] ++
    List.replicate 30 0 ++ [56, 0] ++ List.replicate 8 0

theorem bareImage_bare : Bare bareImage where
  header _ := by rfl
  phentsize := by decide
  phnum := by decide

end FerriOS.Loader
