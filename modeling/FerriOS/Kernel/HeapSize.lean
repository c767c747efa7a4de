import FerriOS.Memory.Growth
import FerriOS.Memory.MapTo
import FerriOS.Kernel.Effects

/-! # The size of a heap

`grow_process_heap` adds a signed request to an unsigned size. A growth is exact: the
sum does not overflow, and the break moves or nothing does. A shrink relies on the
addition to wrap, and one by more than the size becomes a growth that is not done.
-/

namespace FerriOS.System

open FerriOS.Lib FerriOS.Memory

variable {cfg : Config} {k : Kernel} {p : Process} {root : PhysFrame} {n : Int}

/-- A page table whose user half is a tree without huge pages, and whose upper half is
    apart from it. -/
structure ProperTable (root : PhysFrame) (s : MemState) : Prop where
  distinct : (owned 4 root 0 s).Nodup
  apart : ∀ f ∈ upperTables s.ram root, f ∉ owned 4 root 0 s
  small : ∀ a < 2 ^ 47, (leafEntry s.ram root a).present = true →
    (leafEntry s.ram root a).huge = false

/-- The pages from `start` to `stop` are unmapped and their frames free, and the other
    leaves are as they were. -/
structure ShrunkExactly (root : PhysFrame) (start stop : Nat) (s s' : MemState) : Prop where
  unmapped : ∀ a, start ≤ a → a < stop → (leafEntry s'.ram root a).present = false
  freed : ∀ a, start ≤ a → a < stop → (leafEntry s.ram root a).present = true →
    (leafEntry s.ram root a).addr ∈ s'.available
  others : ∀ a < 2 ^ 48, ¬ (start ≤ a ∧ a < stop) → leafEntry s'.ram root a = leafEntry s.ram root a

/-- No page is mapped, unmapped or mapped elsewhere. -/
def SameMappings (root : PhysFrame) (s s' : MemState) : Prop :=
  ∀ a < 2 ^ 48, leafEntry s'.ram root a = leafEntry s.ram root a ∨
    (leafEntry s.ram root a).present = false ∧ (leafEntry s'.ram root a).present = false

/-- The heap of `p` becomes `n` bytes larger, or nothing happens and the request is
    refused. -/
def HeapMoves (cfg : Config) (root : PhysFrame) (n : Int) (p : Process) (k : Kernel) : Prop :=
  (growProcessHeap cfg n p k).Sat False
    (fun q k' => q = { p with heapSize := q.heapSize } ∧ (q.heapSize : Int) = p.heapSize + n ∧
      ∃ low high, pageRoundUp (min p.heapSize q.heapSize) = some low ∧
        pageRoundUp (max p.heapSize q.heapSize) = some high ∧
        (0 ≤ n → GrownExactly root low high k.mem k'.mem) ∧
          (n ≤ 0 → ShrunkExactly root low high k.mem k'.mem))
    (fun _ k' => SameMappings root k.mem k'.mem)

theorem ShrunkExactly.refl {s : MemState} {size : Nat} : ShrunkExactly root size size s s :=
  ⟨fun _ _ _ => by omega, fun _ _ _ => by omega, fun _ _ _ => rfl⟩

theorem SameMappings.refl {s : MemState} : SameMappings root s s := fun _ _ => .inl rfl

theorem asUsize_nonneg (positive : 0 ≤ n) (upper : n < 2 ^ 63) : asUsize n = n.toNat := by
  rw [asUsize, Int.emod_eq_of_lt positive (by omega)]

/-- A negative request as a `usize`. -/
theorem asUsize_neg (negative : n < 0) (lower : -2 ^ 63 ≤ n) : (asUsize n : Int) = 2 ^ 64 + n := by
  have wrapped : n % 2 ^ 64 = 2 ^ 64 + n := by omega
  rw [asUsize, wrapped]
  omega

theorem growProcessHeap_grows (table : p.pageTable = some root) (positive : 0 < n) :
    growProcessHeap cfg n p k =
    (usizeAdd cfg p.heapSize (asUsize n) >>= fun newSize =>
    onMem (allocUvm root p.heapSize newSize) >>= fun newSize =>
      pure { p with heapSize := newSize }) k := by
  simp only [growProcessHeap, table, Prog.expect, Prog.pure_bind, if_pos positive]

theorem growProcessHeap_shrinks (table : p.pageTable = some root) (negative : n < 0) :
    growProcessHeap cfg n p k =
    (usizeAdd cfg p.heapSize (asUsize n) >>= fun newSize =>
    onMem (deallocUvm root p.heapSize newSize) >>= fun newSize =>
      pure { p with heapSize := newSize }) k := by
  simp only [growProcessHeap, table, Prog.expect, Prog.pure_bind, if_neg (not_lt.mpr negative.le),
    if_pos negative]

/-- A growth is exact. -/
theorem grow_moves (table : p.pageTable = some root) (proper : ProperTable root k.mem)
    (heap : p.heapSize < 2 ^ 47)
    (positive : 0 < n) (upper : n < 2 ^ 63) : HeapMoves cfg root n p k := by
  have sum : usizeAdd cfg p.heapSize (asUsize n) k = .ok (p.heapSize + n.toNat) k := by
    rw [usizeAdd, asUsize_nonneg positive.le upper, if_pos (by omega)]
    rfl
  rw [HeapMoves, growProcessHeap_grows table positive, Prog.bind_ok sum]
  by_cases below : p.heapSize + n.toNat < 2 ^ 47
  · have ordered := Nat.le_add_right p.heapSize n.toNat
    have rounded := pageRoundUp_of_lower (ordered.trans below.le)
    have aligned : PAGE_SIZE ∣ (p.heapSize + (PAGE_SIZE - 1)) / PAGE_SIZE * PAGE_SIZE :=
      Nat.dvd_mul_left _ _
    refine Outcome.Sat.bind ((onMem_spec
      (allocUvm_leaves ordered below rounded proper.distinct)).mono id
      (fun _ _ grown => grown) fun _ k' failed => ?_) fun size k' grown => ?_
    · obtain ⟨mem', rfl, kept, back⟩ := failed
      intro a lowerA
      refine ((RolledBack.of_leaves aligned kept proper.distinct proper.apart back).leaves a lowerA).imp_right
        fun emptied => ⟨emptied.2.1, ?_⟩
      exact congrArg PageTableEntry.present emptied.2.2
    · obtain ⟨mem', rfl, rfl, step, set, -⟩ := grown
      have grown := GrownExactly.of_set aligned below step proper.distinct proper.apart set
      have size : ((p.heapSize + n.toNat : Nat) : Int) = p.heapSize + n := by omega
      refine ⟨rfl, size, _, _, ?_, ?_, fun _ => grown, fun none => by omega⟩
      · rw [min_eq_left ordered]
        exact rounded
      · rw [max_eq_right ordered]
        exact pageRoundUp_of_lower below.le
  · have top : userSpaceTop ≤ p.heapSize + n.toNat := by
      simpa [userSpaceTop, PAGETABLE_USER_SPACE_END, PTE_BASE_ADDRESS] using below
    have refused : allocUvm root p.heapSize (p.heapSize + n.toNat) k.mem =
        .err "alloc_uvm: newsz is outside user space" k.mem := by
      rw [allocUvm, if_pos top]
      rfl
    rw [Prog.bind_err (onMem_err refused)]
    exact SameMappings.refl

/-- A shrink by at most the size is exact, when the addition may wrap. -/
theorem shrink_moves (table : p.pageTable = some root) (proper : ProperTable root k.mem)
    (heap : p.heapSize < 2 ^ 47)
    (negative : n < 0) (lower : -2 ^ 63 ≤ n) (wraps : cfg.overflowChecks = false)
    (room : -n ≤ p.heapSize) :
    HeapMoves cfg root n p k := by
  have value := asUsize_neg negative lower
  obtain ⟨size, rfl⟩ : ∃ size : Nat, n = size - p.heapSize := ⟨(p.heapSize + n).toNat, by omega⟩
  have sum : usizeAdd cfg p.heapSize (asUsize (size - p.heapSize)) k = .ok size k := by
    rw [usizeAdd, if_neg (by omega), wraps, if_neg Bool.false_ne_true]
    have wrapped : (p.heapSize + asUsize (size - p.heapSize)) % 2 ^ 64 = size := by omega
    rw [wrapped]
    rfl
  have shrinks : size < p.heapSize := by omega
  have rounded := @pageRoundUp_of_lower size (by omega)
  rw [HeapMoves, growProcessHeap_shrinks table negative, Prog.bind_ok sum]
  refine Outcome.Sat.bind ((onMem_spec
    (deallocUvm_leaves shrinks heap.le rounded proper.distinct proper.small)).mono id
    (fun _ _ shrunk => shrunk) fun _ _ impossible => impossible.elim fun _ impossible =>
    impossible.2.elim)
    fun result k' shrunk => ?_
  obtain ⟨mem', rfl, rfl, shrunk⟩ := shrunk
  have value' : (result : Int) = p.heapSize + (result - p.heapSize) := by omega
  refine ⟨rfl, value', _, _, (congrArg pageRoundUp (min_eq_right shrinks.le)).trans rounded,
    (congrArg pageRoundUp (max_eq_left shrinks.le)).trans (pageRoundUp_of_lower heap.le),
    fun grows => by omega, fun _ => ?_⟩
  have covers := fun a => @pageSteps_covers a _ p.heapSize
    (Nat.dvd_mul_left PAGE_SIZE ((result + (PAGE_SIZE - 1)) / PAGE_SIZE))
  refine ⟨fun a low high => ?_, fun a low high there => ?_, fun a lowerA outside => ?_⟩
  · obtain ⟨b, member, same⟩ := (covers a).mpr ⟨low, high⟩
    have lowerB : b < 2 ^ 47 := (mem_pageSteps member).2.trans heap
    rw [leafEntry_page same]
    rcases shrunk.emptied b lowerB b member rfl with empty | ⟨absent, kept⟩
    · exact empty ▸ rfl
    · exact kept ▸ absent
  · obtain ⟨b, member, same⟩ := (covers a).mpr ⟨low, high⟩
    rw [leafEntry_page same] at there ⊢
    exact shrunk.freed b member there
  · by_cases lowerHalf : a < 2 ^ 47
    · exact shrunk.others a lowerHalf fun b member same => outside ((covers a).mp ⟨b, member, same⟩)
    · exact upper_leaf shrunk.toConserves proper.apart (not_lt.mp lowerHalf) lowerA

/-- The sum of a shrink that fits leaves the range of a `usize`. -/
theorem shrink_overflows (table : p.pageTable = some root) (negative : n < 0) (lower : -2 ^ 63 ≤ n)
    (checks : cfg.overflowChecks = true) (room : -n ≤ p.heapSize) :
    growProcessHeap cfg n p k = .panic "attempt to add with overflow" := by
  have value := asUsize_neg negative lower
  rw [growProcessHeap_shrinks table negative, Prog.bind_run, usizeAdd, if_neg (by omega),
    if_pos checks]
  rfl

/-- The sum of a shrink by more than the size is larger than the size, and nothing is
    done. -/
theorem shrink_ignored (table : p.pageTable = some root) (negative : n < 0) (lower : -2 ^ 63 ≤ n)
    (beyond : p.heapSize < -n) : growProcessHeap cfg n p k = .ok p k := by
  have value := asUsize_neg negative lower
  have sum : usizeAdd cfg p.heapSize (asUsize n) k = .ok (p.heapSize + asUsize n) k := by
    rw [usizeAdd, if_pos (by omega)]
    rfl
  have kept : deallocUvm root p.heapSize (p.heapSize + asUsize n) k.mem = .ok p.heapSize k.mem := by
    rw [deallocUvm, if_pos (Nat.le_add_right _ _)]
    rfl
  rw [growProcessHeap_shrinks table negative, Prog.bind_ok sum, Prog.bind_ok (onMem_ok kept)]
  rfl

/-- A request moves the heap by exactly what it asks for, or is refused, if and only if
    it is no shrink, or one that fits and whose addition may wrap. -/
theorem growProcessHeap_exact_iff (table : p.pageTable = some root)
    (proper : ProperTable root k.mem)
    (heap : p.heapSize < 2 ^ 47) (lower : -2 ^ 63 ≤ n) (upper : n < 2 ^ 63) :
    HeapMoves cfg root n p k ↔ 0 ≤ n ∨ cfg.overflowChecks = false ∧ -n ≤ p.heapSize := by
  rcases lt_trichotomy n 0 with negative | rfl | positive
  · refine ⟨fun moves => .inr ?_, fun fits => ?_⟩
    · by_cases room : -n ≤ p.heapSize
      · by_cases checks : cfg.overflowChecks = true
        · rw [HeapMoves, shrink_overflows table negative lower checks room] at moves
          exact moves.elim
        · exact ⟨by simpa using checks, room⟩
      · rw [HeapMoves, shrink_ignored table negative lower (not_le.mp room)] at moves
        have same : (p.heapSize : Int) = p.heapSize + n := moves.2.1
        omega
    · obtain ⟨wraps, room⟩ := fits.resolve_left (by omega)
      exact shrink_moves table proper heap negative lower wraps room
  · refine ⟨fun _ => .inl le_rfl, fun _ => ?_⟩
    have nothing : growProcessHeap cfg 0 p k = .ok p k := by
      simp [growProcessHeap, table, Prog.expect]
    rw [HeapMoves, nothing]
    have size : (p.heapSize : Int) = p.heapSize + 0 := by omega
    have rounded := pageRoundUp_of_lower heap.le
    refine ⟨rfl, size, _, _, by rw [min_self]; exact rounded, by rw [max_self]; exact rounded,
      fun _ => ?_, fun _ => .refl⟩
    exact ⟨fun a low high => absurd (low.trans_lt high) (lt_irrefl _), leavesApart proper.distinct,
      fun _ _ _ => rfl⟩
  · exact ⟨fun _ => .inl positive.le, fun _ => grow_moves table proper heap positive upper⟩

/-- A process with a heap of one page. -/
def heapProcess : Process := { Process.new with pageTable := some 1, heapSize := 4096 }

def heapKernel : Kernel where
  mem := staleMemory
  kernelPageTableFrame := 1
  processTable _ := some heapProcess
  threadTable _ := { Thread.new with pid := some 0 }
  cpu := ⟨.new, some 0, 0, 0⟩
  privilegeStack0 := 0
  trapFrames _ := .new
  kernelStacks := []

theorem heapKernel_proper : ProperTable 1 heapKernel.mem where
  distinct := staleMemory_distinct
  apart := staleMemory_apart
  small a lower _ := by
    rcases leafEntry_cases lower heapKernel.mem.ram 1 with ⟨pt, -, there⟩ | ⟨-, there⟩
    · rw [there]
      exact staleMemory_small pt (ptIndex a)
    · rw [there]
      rfl

theorem growProcessHeap_exact_iff_page :
    HeapMoves ⟨true, offsetPageTable, fun _ => none⟩ 1 4096 heapProcess heapKernel ↔
      (0 : Int) ≤ 4096 ∨ true = false ∧ (-4096 : Int) ≤ 4096 :=
  growProcessHeap_exact_iff rfl heapKernel_proper (by decide) (by decide) (by decide)

/-- A shrink by two pages succeeds without doing anything, and one by a page is not even
    added. -/
theorem shrink_not_refused : ProperTable 1 heapKernel.mem ∧
    growProcessHeap ⟨true, offsetPageTable, fun _ => none⟩
      (-8192) heapProcess heapKernel = .ok heapProcess heapKernel ∧
    growProcessHeap ⟨true, offsetPageTable, fun _ => none⟩ (-4096) heapProcess heapKernel =
      .panic "attempt to add with overflow" :=
  ⟨heapKernel_proper, shrink_ignored rfl (by decide) (by decide) (by decide),
    shrink_overflows rfl (by decide) (by decide) rfl (by decide)⟩

end FerriOS.System
