import FerriOS.Memory.Leaves

/-! # Growing a user address space

A growth maps the pages between the two sizes, each to a cleared frame of its own, or
it fails and leaves the page table with the pages that it had.
-/

namespace FerriOS.Memory

open FerriOS.Lib

variable {P : SlotLaw} {root : PhysFrame} {h : Multiset PhysFrame} {s s' : MemState}
  {ram : PhysMem} {a : Nat}

/-- The tables of the upper half of a page table. -/
@[irreducible] noncomputable def upperTables (ram : PhysMem) (root : PhysFrame) :
  Multiset PhysFrame :=
  ∑ i ∈ Finset.Ico PAGETABLE_KERNEL_SPACE_START PAGETABLE_KERNEL_SPACE_END,
    (ram.child root i).elim 0 (treeTables ram 3)

theorem mem_upperTables {f : PhysFrame} : f ∈ upperTables ram root ↔
    ∃ i ∈ Finset.Ico PAGETABLE_KERNEL_SPACE_START PAGETABLE_KERNEL_SPACE_END,
      f ∈ (ram.child root i).elim 0 (treeTables ram 3) := by
  rw [upperTables, Multiset.mem_sum]

/-- The leaves of the upper half stay, when its tables are not written. -/
theorem upper_leaf (kept : Conserves P 4 root h h s s')
    (apart : ∀ f ∈ upperTables s.ram root, f ∉ owned 4 root h s)
    (upper : 2 ^ 47 ≤ a) (below : a < 2 ^ 48) :
    leafEntry s'.ram root a = leafEntry s.ram root a := by
  have kernel : 256 ≤ pml4Index a ∧ pml4Index a < 512 := by
    rw [pml4Index]
    omega
  have entry : s'.ram.entry root (pml4Index a) = s.ram.entry root (pml4Index a) :=
    kept.upper (by decide) _ (by rw [mem_userFan, if_pos rfl]; omega)
  have inPdpt : pdptIndex a ∈ userFan 3 := by
    rw [mem_userFan, pdptIndex, if_neg (by decide)]
    omega
  have inPd : pdIndex a ∈ userFan 2 := by
    rw [mem_userFan, pdIndex, if_neg (by decide)]
    omega
  have same : s'.ram.child root (pml4Index a) = s.ram.child root (pml4Index a) :=
    congrArg PageTableEntry.child entry
  have fits : FitsFrom 3 [pdptIndex a, pdIndex a] := ⟨inPdpt, inPd, trivial⟩
  rw [leafEntry, leafEntry, lookup_follow, lookup_follow, tableIndices, follow, follow, same]
  cases link : s.ram.child root (pml4Index a) with
  | none => simp only [Option.bind_none, Option.map_none, Option.elim_none]
  | some pdpt =>
      have table : ∀ {is d t}, TreePath s.ram 3 pdpt is (d + 1) t → s'.ram t = s.ram t := by
        intro is d t p
        refine kept.outside t (apart t
          (mem_upperTables.mpr ⟨pml4Index a, Finset.mem_Ico.mpr kernel, ?_⟩))
        rw [link, Option.elim_some]
        exact Radix.mem_tables.mpr ⟨_, _, p⟩
      have below : follow s'.ram pdpt [pdptIndex a, pdIndex a] = follow s.ram pdpt
        [pdptIndex a, pdIndex a] :=
        follow_congr fits fun _ _ _ p _ => PhysMem.child_congr (table p)
      rw [Option.bind_some, Option.bind_some, below]
      cases found : follow s.ram pdpt [pdptIndex a, pdIndex a] with
      | none => rw [Option.map_none, Option.elim_none, Option.elim_none]
      | some pt =>
          obtain ⟨e, p⟩ := (follow_path fits).mp found
          obtain rfl : e = 1 := Nat.add_left_cancel p.length
          rw [Option.map_some, Option.elim_some, Option.elim_some, PhysMem.entry_congr (table p)]

/-- Exactly the pages from `start` to `stop` have become present, each with a frame
    that was free and that no other page has, and that is cleared. -/
structure GrownExactly (root : PhysFrame) (start stop : Nat) (s s' : MemState) : Prop where
  pages : ∀ a, start ≤ a → a < stop → (leafEntry s.ram root a).present = false ∧
    ∃ c ∈ s.available, c ∉ s'.available ∧ s'.ram c = (fun _ => 0) ∧
      leafEntry s'.ram root a = ⟨c, .PRESENT ||| .WRITABLE ||| .USER_ACCESSIBLE⟩
  own : LeavesApart s'.ram root
  others : ∀ a < 2 ^ 48, ¬ (start ≤ a ∧ a < stop) → leafEntry s'.ram root a = leafEntry s.ram root a

/-- Every leaf is as before, save that a slot of a page from `start` to `stop` that was not
    present may be zero now; and the frames that were free are free, or tables. -/
structure RolledBack (root : PhysFrame) (start stop : Nat) (s s' : MemState) : Prop where
  leaves : ∀ a < 2 ^ 48, leafEntry s'.ram root a = leafEntry s.ram root a ∨
    (start ≤ a ∧ a < stop) ∧ (leafEntry s.ram root a).present = false ∧
    leafEntry s'.ram root a = .unused
  frames : ∀ f ∈ s.available, f ∈ s'.available ∨ f ∈ treeTables s'.ram 4 root

/-- Four slots of the user half are those of an address. -/
theorem exists_pageIndices {is : List Nat} {d : Nat} {t x : PhysFrame}
    (p : TreePath ram d t is 0 x) (height : d = 4) :
    ∃ a < 2 ^ 47, pageIndices a = is := by
  subst height
  cases p with
  | @cons _ i₁ _ _ _ _ _ in₁ _ p =>
  cases p with
  | @cons _ i₂ _ _ _ _ _ in₂ _ p =>
  cases p with
  | @cons _ i₃ _ _ _ _ _ in₃ _ p =>
  cases p with
  | @cons _ i₄ _ _ _ _ _ in₄ _ p =>
  cases p with
  | nil =>
      have bound₁ : i₁ < 256 := by simpa [mem_userFan] using in₁
      have bound₂ : i₂ < 512 := by simpa [mem_userFan] using in₂
      have bound₃ : i₃ < 512 := by simpa [mem_userFan] using in₃
      have bound₄ : i₄ < 512 := by simpa [mem_userFan] using in₄
      refine ⟨i₁ * 2 ^ 39 + i₂ * 2 ^ 30 + i₃ * 2 ^ 21 + i₄ * 2 ^ 12, by omega, ?_⟩
      simp only [pageIndices, tableIndices, pml4Index, pdptIndex, pdIndex, ptIndex,
        List.cons_append, List.nil_append,
        List.cons.injEq, and_true]
      omega

/-- The pages of a growth are those between the sizes, rounded up. -/
theorem pageSteps_covers {start newsz : Nat} (aligned : PAGE_SIZE ∣ start) :
    (∃ b ∈ pageSteps start newsz, a / PAGE_SIZE = b / PAGE_SIZE) ↔
      start ≤ a ∧ a < (newsz + (PAGE_SIZE - 1)) / PAGE_SIZE * PAGE_SIZE := by
  obtain ⟨k, rfl⟩ := aligned
  constructor
  · rintro ⟨b, member, same⟩
    obtain ⟨low, high⟩ := mem_pageSteps member
    simp only [PAGE_SIZE] at low high same ⊢
    omega
  · rintro ⟨low, high⟩
    refine ⟨PAGE_SIZE * (a / PAGE_SIZE), List.mem_map.mpr ⟨a / PAGE_SIZE - k, ?_, ?_⟩, ?_⟩
    · rw [List.mem_range]
      simp only [PAGE_SIZE] at low high ⊢
      omega
    · simp only [PAGE_SIZE] at low ⊢
      omega
    · simp only [PAGE_SIZE]
      omega

/-- Where no page is new, the frames that were free are free, or tables. -/
theorem RolledBack.of_leaves {start newsz : Nat} (aligned : PAGE_SIZE ∣ start)
    (kept : Conserves Lawless 4 root 0 0 s s') (distinct : (owned 4 root 0 s).Nodup)
    (apart : ∀ f ∈ upperTables s.ram root, f ∉ owned 4 root 0 s)
    (back : LeavesBack root (pageSteps start newsz) s s') :
    RolledBack root start ((newsz + (PAGE_SIZE - 1)) / PAGE_SIZE * PAGE_SIZE) s s' := by
  refine ⟨fun a lowerA => ?_, fun f free => ?_⟩
  · by_cases lower : a < 2 ^ 47
    · exact (back a lower).imp_right fun emptied =>
        ⟨(pageSteps_covers aligned).mp emptied.1, emptied.2⟩
    · exact .inl (upper_leaf kept apart (not_lt.mp lower) lowerA)
  · -- a frame that is neither free nor a table would be a page that was not there before
    have member : f ∈ owned 4 root 0 s' := by
      rw [kept.ledger]
      exact Multiset.mem_add.mpr (.inl (Multiset.mem_add.mpr (.inr free)))
    rcases Multiset.mem_add.mp member with old | inHand
    · rcases Multiset.mem_add.mp old with inTree | left
      · obtain ⟨is, e, p⟩ := Radix.mem_nodes.mp inTree
        cases e with
        | succ e => exact .inr (Radix.mem_tables.mpr ⟨is, e, p⟩)
        | zero =>
            obtain ⟨a, lowerA, rfl⟩ := exists_pageIndices p rfl
            have page := (pageOf_path lowerA).mpr p
            rw [pageOf_leafEntry] at page
            obtain ⟨there, -⟩ := PageTableEntry.child_eq_some.mp page
            have same := (back a lowerA).resolve_right fun emptied => by
              rw [emptied.2.2] at there
              cases there
            rw [same, ← pageOf_leafEntry] at page
            exact absurd free (tree_apart distinct ((pageOf_path lowerA).mp page).mem)
      · exact .inl left
    · exact absurd inHand (Multiset.notMem_zero f)

/-- Where a growth has set the leaves of its pages, exactly these are new. -/
theorem GrownExactly.of_set {start newsz : Nat} (aligned : PAGE_SIZE ∣ start)
    (below : newsz < 2 ^ 47)
    (kept : Extends Lawless 4 root 0 0 s s') (distinct : (owned 4 root 0 s).Nodup)
    (apart : ∀ f ∈ upperTables s.ram root, f ∉ owned 4 root 0 s)
    (set : LeavesSet root (pageSteps start newsz) s s') :
    GrownExactly root start ((newsz + (PAGE_SIZE - 1)) / PAGE_SIZE * PAGE_SIZE) s s' := by
  have held := kept.nodup distinct
  refine ⟨fun a low high => ?_, leavesApart held, fun a lowerA outside => ?_⟩
  · obtain ⟨b, member, same⟩ := (pageSteps_covers aligned).mpr ⟨low, high⟩
    have lowerB : b < 2 ^ 47 := (mem_pageSteps member).2.trans below
    obtain ⟨c, free, leaf, zero⟩ := set.backed b member
    have page := leafEntry_page_path lowerB (set.present member rfl)
    rw [leaf] at page
    rw [leafEntry_page same, leafEntry_page same]
    exact ⟨set.fresh b member, c, free, tree_apart held page.mem, zero, leaf⟩
  · by_cases lower : a < 2 ^ 47
    · exact set.others a lower fun b member same =>
        outside ((pageSteps_covers aligned).mp ⟨b, member, same⟩)
    · exact upper_leaf kept.toConserves apart (not_lt.mp lower) lowerA

/-- A growth that returns maps exactly its pages. A growth that fails maps and unmaps
    nothing, and the frames that it has taken are free again, or tables. -/
theorem allocUvm_exact {oldsz newsz : Nat} (ordered : oldsz ≤ newsz) (below : newsz < 2 ^ 47)
    (distinct : (owned 4 root 0 s).Nodup)
    (apart : ∀ f ∈ upperTables s.ram root, f ∉ owned 4 root 0 s) :
    ∃ start stop, pageRoundUp oldsz = some start ∧ pageRoundUp newsz = some stop ∧
      (allocUvm root oldsz newsz s).Sat False
        (fun r s' => r = newsz ∧ GrownExactly root start stop s s')
        (fun _ s' => RolledBack root start stop s s') := by
  have rounded := pageRoundUp_of_lower (ordered.trans below.le)
  have aligned : PAGE_SIZE ∣ (oldsz + (PAGE_SIZE - 1)) / PAGE_SIZE * PAGE_SIZE :=
    Nat.dvd_mul_left _ _
  refine ⟨_, _, rounded, pageRoundUp_of_lower below.le, ?_⟩
  refine (allocUvm_leaves ordered below rounded distinct).mono id (fun r s' grown => ?_)
    fun _ s' failed => ?_
  · obtain ⟨value, step, set, -⟩ := grown
    exact ⟨value, .of_set aligned below step distinct apart set⟩
  · exact .of_leaves aligned failed.1 distinct apart failed.2

/-- Frames 1 to 4 are the tables of the first page, whose slot is not present and not zero. -/
def staleSlot : PhysMem := fun f off =>
  if f.toNat = 0 ∨ 4 < f.toNat then 0
  else if off = 0 then (if f = 4 then 2 else 7)
  else if off = 1 then UInt8.ofNat (16 * (f.toNat + 1))
  else 0

/-- Frame 6 is free. -/
def staleMemory : MemState := ⟨staleSlot, ⟨[], 0, [6]⟩, 0⟩

theorem staleSlot_entry (f : PhysFrame) (i : Nat) :
    staleSlot.entry f i = if (0 < f.toNat ∧ f.toNat ≤ 4) ∧ i = 0 then ⟨f + 1, if f = 4 then .WRITABLE else tableFlags⟩
      else .unused := by
  split
  case isTrue here =>
    obtain ⟨⟨positive, small⟩, rfl⟩ := here
    obtain rfl | rfl | rfl | rfl : f = 1 ∨ f = 2 ∨ f = 3 ∨ f = 4 := by bv_omega
    all_goals decide
  case isFalse other =>
    have zero : leWord (fun k => staleSlot f (8 * i + k)) = leWord fun _ => 0 := by
      refine leWord_congr fun k small => ?_
      by_cases outside : f.toNat = 0 ∨ 4 < f.toNat
      · exact if_pos outside
      · rw [staleSlot, if_neg outside, if_neg (by omega), if_neg (by omega)]
    rw [PhysMem.entry, zero]
    decide

theorem staleSlot_child (f : PhysFrame) (i : Nat) :
    staleSlot.child f i = if (0 < f.toNat ∧ f.toNat < 4) ∧ i = 0 then some (f + 1) else none := by
  rw [PhysMem.child, staleSlot_entry]
  by_cases last : f = 4
  · subst last
    by_cases zero : i = 0
    · subst zero
      decide
    · simp [zero, PageTableEntry.child]
  · have apart : f.toNat ≠ 4 := by bv_omega
    by_cases here : (0 < f.toNat ∧ f.toNat ≤ 4) ∧ i = 0
    · rw [if_pos here, if_neg last, if_pos ⟨⟨here.1.1, by omega⟩, here.2⟩]
      exact PageTableEntry.child_eq_some.mpr ⟨tableFlags_present, rfl⟩
    · rw [if_neg here, if_neg (by omega)]
      rfl

theorem treeFrames_single {d i : Nat} {t c : PhysFrame} (inside : i ∈ userFan (d + 1))
    (link : ram.child t i = some c)
    (others : ∀ j ≠ i, ram.child t j = none) :
    treeFrames ram (d + 1) t = t ::ₘ treeFrames ram d c := by
  rw [treeFrames, Radix.nodes,
    Finset.sum_eq_single i (fun j _ other => by rw [others j other, Option.elim_none])
    (fun outside => absurd inside outside), link, Option.elim_some]
  rfl

theorem staleMemory_owned : owned 4 1 0 staleMemory = {1, 2, 3, 4, 6} := by
  have inside : ∀ d, 0 ∈ userFan d := fun d => by
    rw [mem_userFan]
    split <;> decide
  have link : ∀ f : PhysFrame, 0 < f.toNat ∧ f.toNat < 4 →
    staleMemory.ram.child f 0 = some (f + 1) := fun f here =>
    (staleSlot_child f 0).trans (if_pos ⟨here, rfl⟩)
  have others : ∀ (f : PhysFrame) (j : Nat), j ≠ 0 → staleMemory.ram.child f j = none :=
    fun f j other =>
    (staleSlot_child f j).trans (if_neg fun here => other here.2)
  rw [owned, treeFrames_single (d := 3) (inside _) (link 1 (by decide)) (others _),
    treeFrames_single (inside _) (link _ (by decide)) (others _),
    treeFrames_single (inside _) (link _ (by decide)) (others _), treeFrames, Radix.nodes_empty]
  · rfl
  · intro j _
    exact (staleSlot_child _ j).trans (if_neg fun here => absurd here.1.2 (by decide))

theorem staleMemory_distinct : (owned 4 1 0 staleMemory).Nodup := by
  rw [staleMemory_owned]
  exact Multiset.coe_nodup.mpr (by decide)

theorem staleMemory_apart (f : PhysFrame) (upper : f ∈ upperTables staleMemory.ram 1) :
    f ∉ owned 4 1 0 staleMemory := by
  obtain ⟨i, above, here⟩ := mem_upperTables.mp upper
  have low : 256 ≤ i := (Finset.mem_Ico.mp above).1
  have unlinked : staleMemory.ram.child 1 i = none :=
    (staleSlot_child 1 i).trans (if_neg fun slot => by omega)
  rw [unlinked, Option.elim_none] at here
  exact absurd here (Multiset.notMem_zero f)

theorem staleMemory_small (f : PhysFrame) (i : Nat) : (staleMemory.ram.entry f i).huge = false := by
  change (staleSlot.entry f i).huge = false
  rw [staleSlot_entry]
  split
  · by_cases last : f = 4
    · rw [if_pos last]
      change PageTableFlags.WRITABLE.contains .HUGE_PAGE = false
      decide
    · rw [if_neg last]
      exact tableFlags_small
  · rfl

/-- The growth fails on its second page, and the slot that was not present is zero then. -/
theorem staleSlot_cleared : (owned 4 1 0 staleMemory).Nodup ∧
    (∀ f ∈ upperTables staleMemory.ram 1, f ∉ owned 4 1 0 staleMemory) ∧
    (∀ f i, (staleMemory.ram.entry f i).huge = false) ∧
    ∃ s', allocUvm 1 0 8192 staleMemory = .err "alloc_uvm: frame alloc failed" s' ∧
      leafEntry s'.ram 1 0 ≠ leafEntry staleMemory.ram 1 0 :=
  ⟨staleMemory_distinct, staleMemory_apart, staleMemory_small, _, rfl, by decide +kernel⟩

/-- The growth by one page succeeds. -/
theorem allocUvm_exact_page : ∃ start stop, pageRoundUp 0 = some start ∧
    pageRoundUp 4096 = some stop ∧
    (allocUvm 1 0 4096 staleMemory).Sat False
    (fun r s' => r = 4096 ∧ GrownExactly 1 start stop staleMemory s')
      (fun _ s' => RolledBack 1 start stop staleMemory s') :=
  allocUvm_exact (by decide) (by decide) staleMemory_distinct staleMemory_apart

end FerriOS.Memory
