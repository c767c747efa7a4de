import FerriOS.Memory.Ram

/-! # The heap of the kernel

Blocks of nine sizes are kept on lists, whose links are stored in the blocks themselves.
The blocks come from a heap that is not part of this repository: it is known by what it
promises of the blocks that it has handed out. What the lists and the allocations have
between them is what has been taken from that heap.
-/

namespace FerriOS.Allocator

open FerriOS.Memory

def HEAP_START : Nat := 0xFFFF888800000000
def HEAP_SIZE : Nat := 1024 * 1024

structure Layout where
  size : Nat
  align : Nat
  powerOfTwo : ∃ k, align = 2 ^ k
  deriving DecidableEq

/-- A pointer and the layout that it was asked for with. -/
abbrev Block := Nat × Layout

abbrev Bytes := Nat → UInt8

/-- `linked_list_allocator::Heap`, which keeps some of its state in the free memory. -/
structure Heap (σ : Type) where
  allocateFirstFit : Layout → σ → Bytes → Option Nat × σ × Bytes
  deallocate : Nat → Layout → σ → Bytes → σ × Bytes

def BLOCK_SIZES : List Nat := [8, 16, 32, 64, 128, 256, 512, 1024, 2048]

abbrev Index := Fin BLOCK_SIZES.length

/-- The first block size that is large enough. -/
def listIndex (layout : Layout) : Option Index :=
  BLOCK_SIZES.findFinIdx? fun s => max layout.size layout.align ≤ s

theorem blockSize_power : ∀ index : Index, BLOCK_SIZES.get index = 2 ^ (index.val + 3) := by decide

/-- `Layout::from_size_align` of a block size with itself. -/
def blockLayout (index : Index) : Layout :=
  ⟨BLOCK_SIZES.get index, BLOCK_SIZES.get index, _, blockSize_power index⟩

/-! ## List nodes -/

/-- `size_of` and `align_of` a `ListNode`, which is a link. -/
def NODE_SIZE : Nat := 8
def NODE_ALIGN : Nat := 8

/-- The link in a block; null is the end of the list. -/
def next (mem : Bytes) (node : Nat) : Option Nat :=
  let link := (leWord fun k => mem (node + k)).toNat
  if link = 0 then none else some link

def writeNext (mem : Bytes) (node : Nat) (link : Option Nat) : Bytes := fun a =>
  if node ≤ a ∧ a < node + NODE_SIZE then leByte (BitVec.ofNat 64 (link.getD 0))
    (a - node) else mem a

/-! ## The allocator -/

structure FixedSizeBlockAllocator (σ : Type) where
  listHeads : Index → Option Nat
  fallbackAllocator : σ
  mem : Bytes
  /-- What the fallback has handed out and not been given back. Nothing reads it. -/
  taken : Multiset Block

namespace FixedSizeBlockAllocator

variable {σ : Type}

/-- A pointer, 0 if it is null, and what is left. -/
def fallbackAlloc (heap : Heap σ) (layout : Layout) (a : FixedSizeBlockAllocator σ) :
    Nat × FixedSizeBlockAllocator σ :=
  match heap.allocateFirstFit layout a.fallbackAllocator a.mem with
  | (some ptr, fallbackAllocator, mem) =>
      (ptr, { a with fallbackAllocator, mem, taken := (ptr, layout) ::ₘ a.taken })
  | (none, fallbackAllocator, mem) => (0, { a with fallbackAllocator, mem })

def alloc (heap : Heap σ) (layout : Layout) (a : FixedSizeBlockAllocator σ) :
    Nat × FixedSizeBlockAllocator σ :=
  match listIndex layout with
  | some index =>
      match a.listHeads index with
      | some node =>
          (node, { a with listHeads := Function.update a.listHeads index (next a.mem node), mem := writeNext a.mem node none })
      | none => fallbackAlloc heap (blockLayout index) a
  | none => fallbackAlloc heap layout a

/-- `none` is a panic. -/
def dealloc (heap : Heap σ) (ptr : Nat) (layout : Layout) (a : FixedSizeBlockAllocator σ) :
    Option (FixedSizeBlockAllocator σ) :=
  match listIndex layout with
  | some index =>
      if NODE_SIZE ≤ BLOCK_SIZES.get index ∧ NODE_ALIGN ≤ BLOCK_SIZES.get index then
        some { a with
          mem := writeNext a.mem ptr (a.listHeads index)
          listHeads := Function.update a.listHeads index (some ptr) }
      else none
  | none =>
      if ptr = 0 then none
      else
        let left := heap.deallocate ptr layout a.fallbackAllocator a.mem
        some { a with fallbackAllocator := left.1, mem := left.2, taken := a.taken.erase (ptr, layout) }

end FixedSizeBlockAllocator

/-! ## What the fallback promises -/

/-- The addresses of a block. -/
def Covers (b : Block) (a : Nat) : Prop := b.1 ≤ a ∧ a < b.1 + b.2.size

/-- No address is in both blocks. -/
def Apart (b c : Block) : Prop := ∀ a, Covers b a → ¬ Covers c a

/-- A block is aligned, and lies in the heap. -/
structure Placed (b : Block) : Prop where
  aligned : b.2.align ∣ b.1
  above : HEAP_START ≤ b.1
  inside : b.1 + b.2.size ≤ HEAP_START + HEAP_SIZE

/-- `Serves h mem taken`: a heap in this state has handed out these blocks. It returns
    placed blocks apart from them, and does not write to them, nor mind who does. -/
structure HeapLaws {σ : Type} (heap : Heap σ) (Serves : σ → Bytes → Multiset Block → Prop) :
    Prop where
  allocated : ∀ {h mem taken layout ptr h' mem'}, Serves h mem taken →
    heap.allocateFirstFit layout h mem = (some ptr, h', mem') →
    Placed (ptr, layout) ∧ (∀ b ∈ taken, Apart (ptr, layout) b) ∧
      Serves h' mem' ((ptr, layout) ::ₘ taken) ∧
      ∀ b ∈ taken, ∀ a, Covers b a → mem' a = mem a
  failed : ∀ {h mem taken layout h' mem'}, Serves h mem taken →
    heap.allocateFirstFit layout h mem = (none, h', mem') →
    Serves h' mem' taken ∧ ∀ b ∈ taken, ∀ a, Covers b a → mem' a = mem a
  deallocated : ∀ {h mem taken ptr layout}, Serves h mem ((ptr, layout) ::ₘ taken) →
    Serves (heap.deallocate ptr layout h mem).1 (heap.deallocate ptr layout h mem).2 taken ∧
      ∀ b ∈ taken, ∀ a, Covers b a → (heap.deallocate ptr layout h mem).2 a = mem a
  written : ∀ {h mem taken mem'}, Serves h mem taken →
    (∀ a, (∀ b ∈ taken, ¬ Covers b a) → mem' a = mem a) →
    Serves h mem' taken

/-! ## Histories -/

/-- The states that calls of the allocator lead to, with the allocations that are live.
    A live pointer is freed with its own layout, and whoever has it writes there. -/
inductive Runs {σ : Type} (heap : Heap σ) (Serves : σ → Bytes → Multiset Block → Prop) :
    FixedSizeBlockAllocator σ → Multiset Block → Prop where
  | init {h : σ} {mem : Bytes} : Serves h mem 0 → Runs heap Serves ⟨fun _ => none, h, mem, 0⟩ 0
  | null {a : FixedSizeBlockAllocator σ} {live : Multiset Block} {a' : FixedSizeBlockAllocator σ}
      {layout : Layout} :
      Runs heap Serves a live → a.alloc heap layout = (0, a') → Runs heap Serves a' live
  | alloc {a : FixedSizeBlockAllocator σ} {live : Multiset Block} {a' : FixedSizeBlockAllocator σ}
      {layout : Layout} {ptr : Nat} :
      Runs heap Serves a live → a.alloc heap layout = (ptr, a') → ptr ≠ 0 →
        Runs heap Serves a' ((ptr, layout) ::ₘ live)
  | dealloc {a : FixedSizeBlockAllocator σ} {live : Multiset Block}
      {a' : FixedSizeBlockAllocator σ} {layout : Layout} {ptr : Nat} :
      Runs heap Serves a ((ptr, layout) ::ₘ live) → a.dealloc heap ptr layout = some a' →
        Runs heap Serves a' live
  | write {a : FixedSizeBlockAllocator σ} {live : Multiset Block} {b : Block} {addr : Nat}
      {value : UInt8} :
      Runs heap Serves a live → b ∈ live → Covers b addr →
      Runs heap Serves { a with mem := Function.update a.mem addr value } live

/-! ## Blocks -/

variable {σ : Type} {heap : Heap σ} {Serves : σ → Bytes → Multiset Block → Prop}
  {a a' : FixedSizeBlockAllocator σ}
  {b c : Block} {s t used live : Multiset Block} {lists : Index → List Nat} {layout : Layout}
    {mem mem' : Bytes} {ptr p : Nat}
  {head link : Option Nat} {l : List Nat} {i : Index}

/-- What an allocation is taken with. -/
def takenLayout (layout : Layout) : Layout := (listIndex layout).elim layout blockLayout

theorem listIndex_fits (found : listIndex layout = some i) :
    layout.size ≤ (blockLayout i).size ∧ layout.align ∣ (blockLayout i).align := by
  have large := (List.findFinIdx?_eq_some_iff.mp found).1
  simp only [decide_eq_true_eq] at large
  obtain ⟨k, power⟩ := layout.powerOfTwo
  refine ⟨(le_max_left _ _).trans large, ?_⟩
  have small : layout.align ≤ BLOCK_SIZES.get i := (le_max_right _ _).trans large
  rw [power, blockSize_power, Nat.pow_le_pow_iff_right (by decide)] at small
  have size : (blockLayout i).align = 2 ^ (i.val + 3) := blockSize_power i
  rw [power, size]
  exact Nat.pow_dvd_pow 2 small

theorem takenLayout_fits (layout : Layout) :
    layout.size ≤ (takenLayout layout).size ∧ layout.align ∣ (takenLayout layout).align := by
  rw [takenLayout]
  cases found : listIndex layout with
  | some i => exact listIndex_fits found
  | none => exact ⟨le_rfl, dvd_rfl⟩

theorem blockLayout_size (i : Index) : NODE_SIZE ≤ (blockLayout i).size := by
  revert i
  decide

def use (b : Block) : Block := (b.1, takenLayout b.2)

theorem Covers.use {x : Nat} (covers : Covers b x) : Covers (use b) x :=
  ⟨covers.1, covers.2.trans_le (Nat.add_le_add_left (takenLayout_fits b.2).1 b.1)⟩

theorem Placed.of_use (placed : Placed (use b)) : Placed b where
  aligned := (takenLayout_fits b.2).2.trans placed.aligned
  above := placed.above
  inside := (Nat.add_le_add_left (takenLayout_fits b.2).1 b.1).trans placed.inside

theorem Apart.symm (apart : Apart b c) : Apart c b := fun x inC inB => apart x inB inC

theorem Apart.of_use (apart : Apart (use b) (use c)) : Apart b c :=
    fun x inB inC => apart x inB.use inC.use

/-- No two of the blocks overlap. -/
def AllApart (s : Multiset Block) : Prop := ∀ b rest, s = b ::ₘ rest → ∀ c ∈ rest, Apart b c

namespace AllApart

theorem zero : AllApart 0 := fun _ _ same => absurd same.symm Multiset.cons_ne_zero

theorem cons (all : AllApart s) (new : ∀ c ∈ s, Apart b c) : AllApart (b ::ₘ s) := by
  intro d rest same c member
  rcases Multiset.cons_eq_cons.mp same with ⟨rfl, rfl⟩ | ⟨-, between, rfl, rfl⟩
  · exact new c member
  · rcases Multiset.mem_cons.mp member with rfl | old
    · exact (new d (Multiset.mem_cons_self d between)).symm
    · exact all d between rfl c old

theorem tail (all : AllApart (b ::ₘ s)) : AllApart s := by
  intro d rest same c member
  refine all d (b ::ₘ rest) ?_ c (Multiset.mem_cons_of_mem member)
  rw [same, Multiset.cons_swap]

theorem left (all : AllApart (s + t)) : AllApart s := by
  induction t using Multiset.induction_on with
  | empty => rwa [add_zero] at all
  | cons b t ih =>
      rw [Multiset.add_cons] at all
      exact ih all.tail

theorem of_use (all : AllApart (s + t.map use)) : AllApart (s + t) := by
  induction t using Multiset.induction_on with
  | empty => simpa using all
  | cons b t ih =>
      rw [Multiset.map_cons, Multiset.add_cons] at all
      rw [Multiset.add_cons]
      refine (ih all.tail).cons fun c member => ?_
      rcases Multiset.mem_add.mp member with free | live
      · exact fun x inB inC => all _ _ rfl c (Multiset.mem_add.mpr (.inl free)) x inB.use inC
      · exact (all _ _ rfl (use c)
          (Multiset.mem_add.mpr (.inr (Multiset.mem_map_of_mem use live)))).of_use

theorem starts (all : AllApart s) (positive : ∀ b ∈ s, 0 < b.2.size) : (s.map Prod.fst).Nodup := by
  induction s using Multiset.induction_on with
  | empty => exact Multiset.nodup_zero
  | cons b s ih =>
      rw [Multiset.map_cons, Multiset.nodup_cons]
      refine ⟨fun member => ?_, ih all.tail fun c inS => positive c (Multiset.mem_cons_of_mem inS)⟩
      obtain ⟨c, inS, same⟩ := Multiset.mem_map.mp member
      have first := positive b (Multiset.mem_cons_self b s)
      have second := positive c (Multiset.mem_cons_of_mem inS)
      exact all b s rfl c inS b.1 ⟨le_rfl, by omega⟩ ⟨same.le, by omega⟩

end AllApart

/-! ## Lists -/

/-- The list that starts with this head. -/
def Links (mem : Bytes) : Option Nat → List Nat → Prop
  | head, [] => head = none
  | head, p :: rest => head = some p ∧ Links mem (next mem p) rest

theorem next_congr (same : ∀ k < 8, mem' (p + k) = mem (p + k)) : next mem' p = next mem p := by
  rw [next, next, leWord_congr same]

theorem next_writeNext (valid : ∀ q, link = some q → 0 < q ∧ q < 2 ^ 64) :
    next (writeNext mem p link) p = link := by
  have bytes : leWord (fun k => writeNext mem p link (p + k)) = BitVec.ofNat 64 (link.getD 0) := by
    rw [leWord_congr (c := leByte (BitVec.ofNat 64 (link.getD 0))) fun k small => ?_, leWord_leByte]
    rw [writeNext, if_pos ⟨Nat.le_add_right p k, Nat.add_lt_add_left small p⟩,
      Nat.add_sub_cancel_left]
  rw [next, bytes]
  cases link with
  | none => rfl
  | some q =>
      obtain ⟨positive, small⟩ := valid q rfl
      have value : (BitVec.ofNat 64 ((some q).getD 0)).toNat = q := by
        rw [Option.getD_some, BitVec.toNat_ofNat, Nat.mod_eq_of_lt small]
      rw [value, if_neg positive.ne']

theorem Links.congr (links : Links mem head l) (same : ∀ p ∈ l, next mem' p = next mem p) :
    Links mem' head l := by
  induction l generalizing head with
  | nil => exact links
  | cons p rest ih =>
      refine ⟨links.1, ?_⟩
      rw [same p List.mem_cons_self]
      exact ih links.2 fun q member => same q (List.mem_cons_of_mem p member)

/-- The blocks of the lists. -/
def freeBlocks (lists : Index → List Nat) : Multiset Block :=
  ∑ i, ((lists i).map fun p => (p, blockLayout i) : List Block)

theorem mem_freeBlocks : b ∈ freeBlocks lists ↔ ∃ i, ∃ p ∈ lists i, b = (p, blockLayout i) := by
  simp only [freeBlocks, Multiset.mem_sum, Finset.mem_univ, true_and, Multiset.mem_coe,
    List.mem_map, eq_comm]

theorem freeBlocks_push (lists : Index → List Nat) (i : Index) (p : Nat) :
    freeBlocks (Function.update lists i (p :: lists i)) = (p,
      blockLayout i) ::ₘ freeBlocks lists := by
  rw [freeBlocks, freeBlocks, ← Finset.add_sum_erase _ _ (Finset.mem_univ i),
    ← Finset.add_sum_erase _ _ (Finset.mem_univ i),
    Function.update_self, List.map_cons, ← Multiset.cons_coe, Multiset.cons_add]
  congr 2
  refine Finset.sum_congr rfl fun j other => ?_
  rw [Function.update_of_ne (Finset.ne_of_mem_erase other)]

theorem freeBlocks_pop {rest : List Nat} (here : lists i = p :: rest) :
    freeBlocks lists = (p, blockLayout i) ::ₘ freeBlocks (Function.update lists i rest) := by
  rw [← freeBlocks_push, Function.update_self, Function.update_idem, ← here,
    Function.update_eq_self]

theorem freeBlocks_starts (lists : Index → List Nat) :
    (freeBlocks lists).map Prod.fst = ∑ i, (lists i : Multiset Nat) := by
  rw [freeBlocks, ← Multiset.coe_mapAddMonoidHom, map_sum]
  refine Finset.sum_congr rfl fun i _ => ?_
  rw [Multiset.coe_mapAddMonoidHom, Multiset.map_coe, List.map_map]
  exact congrArg _ (List.map_id _)

theorem Links.kept {heads : Index → Option Nat} (links : ∀ i, Links mem (heads i) (lists i))
    (same : ∀ b ∈ freeBlocks lists, ∀ x, Covers b x → mem' x = mem x) (i : Index) :
    Links mem' (heads i) (lists i) := by
  refine (links i).congr fun p member => next_congr fun k small => ?_
  refine same (p, blockLayout i) (mem_freeBlocks.mpr ⟨i, p, member, rfl⟩) (p + k)
    ⟨Nat.le_add_right p k, ?_⟩
  exact Nat.add_lt_add_left (small.trans_le (blockLayout_size i)) p

/-! ## The invariant -/

/-- The blocks of the lists and the blocks in use are those that have been taken from the
    fallback. -/
structure Inv (Serves : σ → Bytes → Multiset Block → Prop) (a : FixedSizeBlockAllocator σ)
    (used : Multiset Block)
    (lists : Index → List Nat) : Prop where
  serves : Serves a.fallbackAllocator a.mem a.taken
  accounts : freeBlocks lists + used = a.taken
  placed : ∀ b ∈ a.taken, Placed b
  apart : AllApart a.taken
  chains : ∀ i, Links a.mem (a.listHeads i) (lists i)

namespace Inv

theorem free_taken (inv : Inv Serves a used lists) (free : b ∈ freeBlocks lists) : b ∈ a.taken :=
  inv.accounts ▸ Multiset.mem_add.mpr (.inl free)

theorem used_taken (inv : Inv Serves a used lists) (member : b ∈ used) : b ∈ a.taken :=
  inv.accounts ▸ Multiset.mem_add.mpr (.inr member)

theorem used_apart (inv : Inv Serves a (b ::ₘ used) lists) (free : c ∈ freeBlocks lists) :
    Apart b c := by
  refine inv.apart b (freeBlocks lists + used) ?_ c (Multiset.mem_add.mpr (.inl free))
  rw [← inv.accounts, Multiset.add_cons]

/-- A head is an address that a link can hold. -/
theorem head_valid (inv : Inv Serves a used lists) (i : Index) :
    ∀ q, a.listHeads i = some q → 0 < q ∧ q < 2 ^ 64 := by
  intro q head
  have chain := inv.chains i
  cases list : lists i with
  | nil =>
      rw [list, Links, head] at chain
      cases chain
  | cons p rest =>
      rw [list, Links, head] at chain
      obtain rfl := Option.some.inj chain.1
      have placed := inv.placed _
        (inv.free_taken (mem_freeBlocks.mpr ⟨i, q, list ▸ List.mem_cons_self, rfl⟩))
      have above := placed.above
      have inside := placed.inside
      have size := blockLayout_size i
      simp only [HEAP_START, HEAP_SIZE, NODE_SIZE] at above inside size
      omega

theorem write (laws : HeapLaws heap Serves) (inv : Inv Serves a used lists) (inside : b ∈ used)
    (only : ∀ x, ¬ Covers b x → mem' x = a.mem x) :
    Inv Serves { a with mem := mem' } used lists := by
  obtain ⟨rest, rfl⟩ := Multiset.exists_cons_of_mem inside
  refine ⟨laws.written inv.serves fun x outside => only x (outside b (inv.used_taken inside)),
    inv.accounts, inv.placed, inv.apart,
    Links.kept inv.chains fun c free x covers => only x fun here =>
      inv.used_apart free x here covers⟩

/-- A block of the fallback is new, and the others are as they were. -/
theorem fallbackAlloc (laws : HeapLaws heap Serves) (inv : Inv Serves a used lists)
    (run : a.fallbackAlloc heap layout = (ptr, a')) :
    (ptr = 0 ∧ Inv Serves a' used lists) ∨
    (ptr ≠ 0 ∧ Inv Serves a' ((ptr, layout) ::ₘ used) lists) := by
  rw [FixedSizeBlockAllocator.fallbackAlloc] at run
  split at run
  case h_1 q h mem' result =>
    obtain ⟨rfl, rfl⟩ := Prod.mk.inj run
    obtain ⟨placed, new, serves, same⟩ := laws.allocated inv.serves result
    refine .inr ⟨fun null => ?_, serves, ?_, ?_, inv.apart.cons new,
      Links.kept inv.chains fun c free => same c (inv.free_taken free)⟩
    · have above := placed.above
      simp only [null, HEAP_START] at above
      omega
    · rw [Multiset.add_cons, inv.accounts]
    · intro c member
      rcases Multiset.mem_cons.mp member with rfl | old
      · exact placed
      · exact inv.placed c old
  case h_2 h mem' result =>
    obtain ⟨rfl, rfl⟩ := Prod.mk.inj run
    obtain ⟨serves, same⟩ := laws.failed inv.serves result
    exact .inl ⟨rfl, serves, inv.accounts, inv.placed, inv.apart,
      Links.kept inv.chains fun c free => same c (inv.free_taken free)⟩

/-- The first block of a list goes into use. -/
theorem pop (laws : HeapLaws heap Serves) (inv : Inv Serves a used lists) {node : Nat}
    (head : a.listHeads i = some node) :
    ∃ lists', node ≠ 0 ∧ Inv Serves { a with
      listHeads := Function.update a.listHeads i (next a.mem node), mem :=
        writeNext a.mem node none }
      ((node, blockLayout i) ::ₘ used) lists' := by
  have chain := inv.chains i
  cases list : lists i with
  | nil =>
      rw [list, Links, head] at chain
      cases chain
  | cons p rest =>
      rw [list, Links, head] at chain
      obtain ⟨same, below⟩ := chain
      obtain rfl := Option.some.inj same
      have accounts : freeBlocks (Function.update lists i rest) +
        (node, blockLayout i) ::ₘ used = a.taken := by
        rw [← inv.accounts, freeBlocks_pop list, Multiset.add_cons, Multiset.cons_add]
      have heads : ∀ j, Links a.mem (Function.update a.listHeads i (next a.mem node) j)
        (Function.update lists i rest j) := by
        intro j
        by_cases here : j = i
        · subst here
          rwa [Function.update_self, Function.update_self]
        · rw [Function.update_of_ne here, Function.update_of_ne here]
          exact inv.chains j
      have moved : Inv Serves { a with listHeads := Function.update a.listHeads i (next a.mem node) }
          ((node, blockLayout i) ::ₘ used) (Function.update lists i rest) :=
        ⟨inv.serves, accounts, inv.placed, inv.apart, heads⟩
      refine ⟨_, (inv.head_valid i node head).1.ne',
        moved.write laws (Multiset.mem_cons_self _ _) fun x outside => if_neg ?_⟩
      exact fun link => outside
        ⟨link.1, link.2.trans_le (Nat.add_le_add_left (blockLayout_size i) node)⟩

theorem alloc (laws : HeapLaws heap Serves) (inv : Inv Serves a used lists)
    (run : a.alloc heap layout = (ptr, a')) :
    ∃ lists', (ptr = 0 ∧ Inv Serves a' used lists') ∨ (ptr ≠ 0 ∧ Inv Serves a' ((ptr, takenLayout layout) ::ₘ used) lists') := by
  rw [FixedSizeBlockAllocator.alloc] at run
  rw [takenLayout]
  cases index : listIndex layout with
  | none =>
      simp only [index] at run
      exact ⟨lists, inv.fallbackAlloc laws run⟩
  | some i =>
      simp only [index] at run
      cases head : a.listHeads i with
      | none =>
          simp only [head] at run
          exact ⟨lists, inv.fallbackAlloc laws run⟩
      | some node =>
          simp only [head] at run
          obtain ⟨rfl, rfl⟩ := Prod.mk.inj run
          obtain ⟨lists', positive, popped⟩ := inv.pop laws head
          exact ⟨lists', .inr ⟨positive, popped⟩⟩

/-- A block in use goes to the front of its list. -/
theorem push (laws : HeapLaws heap Serves)
    (inv : Inv Serves a ((ptr, blockLayout i) ::ₘ used) lists) : Inv Serves { a with
    mem := writeNext a.mem ptr (a.listHeads i), listHeads :=
      Function.update a.listHeads i (some ptr) }
    used (Function.update lists i (ptr :: lists i)) := by
  have written : Inv Serves { a with mem := writeNext a.mem ptr (a.listHeads i) } _ lists :=
    inv.write laws (Multiset.mem_cons_self _ _) fun x outside => if_neg fun link =>
      outside ⟨link.1, link.2.trans_le (Nat.add_le_add_left (blockLayout_size i) ptr)⟩
  refine ⟨written.serves, ?_, inv.placed, inv.apart, fun j => ?_⟩
  · rw [freeBlocks_push, Multiset.cons_add, ← Multiset.add_cons, inv.accounts]
  · change Links _ (Function.update a.listHeads i (some ptr) j) _
    by_cases here : j = i
    · subst here
      rw [Function.update_self, Function.update_self]
      refine ⟨rfl, ?_⟩
      rw [next_writeNext (inv.head_valid j)]
      exact written.chains j
    · rw [Function.update_of_ne here, Function.update_of_ne here]
      exact written.chains j

theorem dealloc (laws : HeapLaws heap Serves)
    (inv : Inv Serves a ((ptr, takenLayout layout) ::ₘ used) lists) :
    ∃ a' lists', a.dealloc heap ptr layout = some a' ∧ Inv Serves a' used lists' := by
  rw [FixedSizeBlockAllocator.dealloc]
  rw [takenLayout] at inv
  cases index : listIndex layout with
  | some i =>
      rw [index] at inv
      exact ⟨_, _, if_pos ⟨blockLayout_size i, blockLayout_size i⟩, inv.push laws⟩
  | none =>
      rw [index, Option.elim_none] at inv
      have positive : ptr ≠ 0 := by
        have above := (inv.placed _ (inv.used_taken (Multiset.mem_cons_self _ _))).above
        rintro rfl
        simp only [HEAP_START] at above
        omega
      have taken : a.taken = (ptr, layout) ::ₘ (freeBlocks lists + used) := by rw
        [← inv.accounts, Multiset.add_cons]
      obtain ⟨serves, same⟩ := laws.deallocated (taken ▸ inv.serves)
      have left : a.taken.erase (ptr, layout) = freeBlocks lists + used := by rw
        [taken, Multiset.erase_cons_head]
      refine ⟨_, lists, if_neg positive, ?_, left.symm, fun b member => inv.placed b (Multiset.mem_of_mem_erase member), ?_,
        Links.kept inv.chains fun b free => same b (Multiset.mem_add.mpr (.inl free))⟩
      · simp only [left]
        exact serves
      · simp only [left]
        exact (taken ▸ inv.apart).tail

end Inv

/-- Every call keeps the invariant. -/
theorem Runs.inv (laws : HeapLaws heap Serves) (runs : Runs heap Serves a live) :
    ∃ lists, Inv Serves a (live.map use) lists := by
  induction runs with
  | init serves =>
      refine ⟨fun _ => [], serves, ?_, by simp, .zero, fun _ => rfl⟩
      simp [freeBlocks]
  | null _ run ih =>
      obtain ⟨lists, inv⟩ := ih
      obtain ⟨lists', ⟨-, kept⟩ | ⟨positive, -⟩⟩ := inv.alloc laws run
      · exact ⟨lists', kept⟩
      · exact absurd rfl positive
  | alloc _ run positive ih =>
      obtain ⟨lists, inv⟩ := ih
      obtain ⟨lists', ⟨null, -⟩ | ⟨-, kept⟩⟩ := inv.alloc laws run
      · exact absurd null positive
      · exact ⟨lists', by rwa [Multiset.map_cons]⟩
  | dealloc _ run ih =>
      obtain ⟨lists, inv⟩ := ih
      rw [Multiset.map_cons] at inv
      obtain ⟨a', lists', freed, kept⟩ := inv.dealloc laws
      obtain rfl := Option.some.inj (run.symm.trans freed)
      exact ⟨lists', kept⟩
  | write _ member covers ih =>
      obtain ⟨lists, inv⟩ := ih
      refine ⟨lists, inv.write laws (Multiset.mem_map_of_mem use member) fun x outside =>
        Function.update_of_ne ?_ _ _⟩
      rintro rfl
      exact outside covers.use

/-- What holds between the lists, the allocations that are live, and the fallback. -/
structure Sound (a : FixedSizeBlockAllocator σ) (live : Multiset Block)
    (lists : Index → List Nat) : Prop where
  /-- Each list ends, no block is on a list twice or on two lists. -/
  chains : ∀ i, Links a.mem (a.listHeads i) (lists i)
  distinct : (∑ i, (lists i : Multiset Nat)).Nodup
  /-- A block of a list is as large as the list says and aligned, and comes from the fallback. -/
  blocks : ∀ i, ∀ p ∈ lists i, Placed (p, blockLayout i) ∧ (p, blockLayout i) ∈ a.taken
  allocations : ∀ b ∈ live, Placed b
  apart : AllApart (freeBlocks lists + live)
  /-- What goes back to the fallback has been taken from it with this layout. -/
  returned : ∀ b ∈ live, listIndex b.2 = none → b ∈ a.taken

theorem Inv.sound (inv : Inv Serves a (live.map use) lists) : Sound a live lists where
  chains := inv.chains
  distinct := by
    rw [← freeBlocks_starts]
    have all : AllApart (freeBlocks lists + live.map use) := inv.accounts ▸ inv.apart
    refine all.left.starts fun b member => ?_
    obtain ⟨i, p, -, rfl⟩ := mem_freeBlocks.mp member
    exact lt_of_lt_of_le (by decide) (blockLayout_size i)
  blocks i p member := by
    have taken := inv.free_taken (mem_freeBlocks.mpr ⟨i, p, member, rfl⟩)
    exact ⟨inv.placed _ taken, taken⟩
  allocations b member := (inv.placed _
    (inv.used_taken (Multiset.mem_map_of_mem use member))).of_use
  apart := AllApart.of_use (inv.accounts ▸ inv.apart)
  returned b member fallback := by
    have taken := inv.used_taken (Multiset.mem_map_of_mem use member)
    rwa [use, takenLayout, fallback, Option.elim_none] at taken

/-- In every history of calls the allocations that are live and the blocks of the lists do
    not overlap, and lie in the heap, aligned; and no call panics. -/
theorem heap_sound (laws : HeapLaws heap Serves) (runs : Runs heap Serves a live) :
    (∃ lists, Sound a live lists) ∧
    ∀ ptr layout rest, live = (ptr, layout) ::ₘ rest → ∃ a',
    a.dealloc heap ptr layout = some a' := by
  obtain ⟨lists, inv⟩ := runs.inv laws
  refine ⟨⟨lists, inv.sound⟩, fun ptr layout rest same => ?_⟩
  subst same
  rw [Multiset.map_cons] at inv
  obtain ⟨a', -, freed, -⟩ := inv.dealloc laws
  exact ⟨a', freed⟩

/-- What a fresh heap does while nothing goes back to it: it cuts one block after the
    other off its memory. -/
def cut (layout : Layout) (h : Nat) (mem : Bytes) : Option Nat × Nat × Bytes :=
  let ptr := (h + layout.align - 1) / layout.align * layout.align
  if ptr + layout.size ≤ HEAP_START + HEAP_SIZE then (some ptr, ptr + layout.size, mem) else
    (none, h, mem)

def freshHeap : Heap Nat := ⟨cut, fun _ _ h mem => (h, mem)⟩

def FreshServes (h : Nat) (_ : Bytes) (taken : Multiset Block) : Prop :=
  HEAP_START ≤ h ∧ ∀ b ∈ taken, b.1 + b.2.size ≤ h

theorem freshHeap_laws : HeapLaws freshHeap FreshServes where
  allocated {h mem taken layout ptr h' mem'} serves result := by
    obtain ⟨start, below⟩ := serves
    change cut layout h mem = _ at result
    rw [cut] at result
    split at result
    case isTrue fits =>
      obtain ⟨same, rest⟩ := Prod.mk.inj result
      obtain ⟨rfl, rfl⟩ := Prod.mk.inj rest
      obtain rfl := Option.some.inj same
      obtain ⟨k, power⟩ := layout.powerOfTwo
      have positive : 0 < layout.align := power ▸ Nat.two_pow_pos k
      have up : h ≤ (h + layout.align - 1) / layout.align * layout.align := by
        have round := Nat.lt_div_mul_add (a := h + layout.align - 1) positive
        omega
      refine ⟨⟨Nat.dvd_mul_left _ _, start.trans up, fits⟩, fun b member x inNew inOld => ?_,
        ⟨?_, fun b member => ?_⟩, fun _ _ _ _ => rfl⟩
      · exact absurd (inOld.2.trans_le ((below b member).trans up)) (not_lt.mpr inNew.1)
      · exact start.trans (up.trans (Nat.le_add_right _ _))
      · rcases Multiset.mem_cons.mp member with rfl | old
        · exact le_rfl
        · exact (below b old).trans (up.trans (Nat.le_add_right _ _))
    case isFalse => cases result
  failed {h mem taken layout h' mem'} serves result := by
    change cut layout h mem = _ at result
    rw [cut] at result
    split at result
    case isTrue => cases result
    case isFalse =>
      obtain ⟨-, rest⟩ := Prod.mk.inj result
      obtain ⟨rfl, rfl⟩ := Prod.mk.inj rest
      exact ⟨serves, fun _ _ _ _ => rfl⟩
  deallocated serves := ⟨⟨serves.1, fun b member => serves.2 b (Multiset.mem_cons_of_mem member)⟩,
    fun _ _ _ _ => rfl⟩
  written serves _ := serves

def fiveBytes : Layout := ⟨5, 4, 2, rfl⟩

/-- A block is allocated, freed, and allocated again from its list. -/
theorem heap_sound_reused : ∃ a lists, Runs freshHeap FreshServes a {(HEAP_START, fiveBytes)} ∧
    Sound a {(HEAP_START, fiveBytes)} lists := by
  have start : Runs freshHeap FreshServes ⟨fun _ => none, HEAP_START, fun _ => 0, 0⟩ 0 :=
    .init ⟨le_rfl, fun b member => absurd member (Multiset.notMem_zero b)⟩
  have first : (⟨fun _ => none, HEAP_START, fun _ => 0, 0⟩ : FixedSizeBlockAllocator Nat).alloc freshHeap fiveBytes = (HEAP_START, _) := rfl
  have once := start.alloc first (by decide)
  have freed := once.dealloc rfl
  have second := @Runs.alloc _ _ _ _ _ _ fiveBytes HEAP_START freed rfl (by decide)
  obtain ⟨⟨lists, sound⟩, -⟩ := heap_sound freshHeap_laws second
  exact ⟨_, lists, second, sound⟩

end FerriOS.Allocator
