import FerriOS.Memory.Leaves

/-! # The page walk over a whole table

`walk_pagetable` and `translate_addr_inner` go through the same tables, each with index
arithmetic of its own. A walk with allocation links cleared tables into empty slots on
the way to its address, which changes no translation.
-/

namespace FerriOS.Memory

open FerriOS.Lib

/-! ## The other walk -/

namespace VirtAddr

/-- The index of a level: the address is shifted, and cut down to 16 bits and to 9. -/
def p1Index (addr : Nat) : Nat := addr / 2 ^ 12 % 2 ^ 16 % 512
def p2Index (addr : Nat) : Nat := addr / 2 ^ 12 / 2 ^ 9 % 2 ^ 16 % 512
def p3Index (addr : Nat) : Nat := addr / 2 ^ 12 / 2 ^ 9 / 2 ^ 9 % 2 ^ 16 % 512
def p4Index (addr : Nat) : Nat := addr / 2 ^ 12 / 2 ^ 9 / 2 ^ 9 / 2 ^ 9 % 2 ^ 16 % 512
def pageOffset (addr : Nat) : Nat := addr % 2 ^ 16 % PAGE_SIZE

def tableIndexes (addr : Nat) : List Nat := [p4Index addr, p3Index addr, p2Index addr, p1Index addr]

end VirtAddr

/-- The loop of `translate_addr_inner`: the frame that it ends with, after the slots that
    it has read. -/
def translateTables : List Nat → PhysFrame →
    Prog MemState (List (PhysFrame × Nat) × Option PhysFrame)
  | [], frame => pure ([], some frame)
  | index :: indexes, frame => do
      let s ← .get
      let entry := s.ram.entry frame index
      if entry.present then
        if entry.huge then .crash "huge pages not supported"
        else do
          let walk ← translateTables indexes entry.addr
          pure ((frame, index) :: walk.1, walk.2)
      else pure ([(frame, index)], none)

def translateAddrInner (addr : Nat) : Prog MemState (Option Nat) := do
  let s ← .get
  let walk ← translateTables (VirtAddr.tableIndexes addr) s.cr3
  pure (walk.2.map fun frame => frame.toNat * PAGE_SIZE + VirtAddr.pageOffset addr)

/-- The page table is in use. -/
def MemState.using (s : MemState) (root : PhysFrame) : MemState := { s with cr3 := root }

variable {ram : PhysMem} {root t c x pt : PhysFrame} {s s₁ s' : MemState}
  {is js target pre : List Nat} {va i d e : Nat}

theorem tableIndexes_eq (va : Nat) : VirtAddr.tableIndexes va = pageIndices va := by
  simp only [VirtAddr.tableIndexes, VirtAddr.p4Index, VirtAddr.p3Index, VirtAddr.p2Index,
    VirtAddr.p1Index, pageIndices,
    tableIndices, pml4Index, pdptIndex, pdIndex, ptIndex, List.cons_append, List.nil_append,
      List.cons.injEq, and_true]
  omega

theorem pageOffset_eq (va : Nat) : VirtAddr.pageOffset va = pageOffset va := by
  simp only [VirtAddr.pageOffset, pageOffset, PAGE_SIZE]
  omega

/-- The slots that a walk down `is` reads. -/
def slotsRead (ram : PhysMem) : PhysFrame → List Nat → List (PhysFrame × Nat)
  | _, [] => []
  | t, i :: is => (t, i) :: (ram.child t i).elim [] fun c => slotsRead ram c is

/-- No slot says that it maps a huge page. -/
def SmallSlots (ram : PhysMem) (slots : List (PhysFrame × Nat)) : Prop :=
  ∀ slot ∈ slots, (ram.entry slot.1 slot.2).present = true → (ram.entry slot.1 slot.2).huge = false

theorem translateTables_run (small : SmallSlots s.ram (slotsRead s.ram t is)) :
    translateTables is t s = .ok (slotsRead s.ram t is, follow s.ram t is) s := by
  induction is generalizing t with
  | nil => rfl
  | cons i is ih =>
      by_cases present : (s.ram.entry t i).present = true
      · have link : s.ram.child t i = some (s.ram.entry t i).addr :=
          PageTableEntry.child_eq_some.mpr ⟨present, rfl⟩
        rw [slotsRead, link, Option.elim_some] at small
        have here := small (t, i) List.mem_cons_self present
        have rest := ih fun slot member => small slot (List.mem_cons_of_mem _ member)
        simp only [translateTables, Prog.get_bind, present, here, if_true, Bool.false_eq_true,
          if_false,
          Prog.bind_ok rest, Prog.pure_run, slotsRead, follow, link, Option.elim_some,
            Option.bind_some]
      · have none : s.ram.child t i = none :=
          PageTableEntry.child_eq_none.mpr (by simpa using present)
        simp only [translateTables, Prog.get_bind, present, slotsRead, follow, none,
          Option.elim_none, Option.bind_none]
        rfl

theorem slotsRead_last (arrives : follow ram t is = some pt) (i : Nat) :
    (slotsRead ram t (is ++ [i])).getLast? = some (pt, i) := by
  induction is generalizing t with
  | nil =>
      obtain rfl := Option.some.inj arrives
      cases link : ram.child t i <;> simp [slotsRead, link]
  | cons k is ih =>
      obtain ⟨c, link, below⟩ := Option.bind_eq_some_iff.mp arrives
      rw [List.cons_append, slotsRead, link, Option.elim_some, List.getLast?_cons, ih below,
        Option.getD_some]

/-! ## The tables of both halves -/

@[irreducible] def allSlots (_ : Nat) : Finset Nat := Finset.range 512

abbrev TablePath (ram : PhysMem) (root : PhysFrame) (is : List Nat) (e : Nat) (x : PhysFrame) :
    Prop :=
  Radix.Path ram.child allSlots 3 root is e x

/-- The PML4 and the tables below it, those of the kernel too. -/
def pageTables (ram : PhysMem) (root : PhysFrame) : Multiset PhysFrame :=
  Radix.nodes ram.child allSlots 3 root

/-- The tables are distinct frames, not free and without entries for huge pages, and the
    free frames are distinct. -/
structure TableTree (root : PhysFrame) (s : MemState) : Prop where
  distinct : (pageTables s.ram root).Nodup
  free : s.available.Nodup
  apart : ∀ f ∈ pageTables s.ram root, f ∉ s.available
  small : ∀ f ∈ pageTables s.ram root, ∀ i < 512, (s.ram.entry f i).present = true →
    (s.ram.entry f i).huge = false

theorem mem_allSlots {d i : Nat} : i ∈ allSlots d ↔ i < 512 := by
  rw [allSlots, Finset.mem_range]

theorem pageIndices_small (va : Nat) : ∀ i ∈ pageIndices va, i < 512 := by
  simp [pageIndices, tableIndices, pml4Index, pdptIndex, pdIndex, ptIndex, Nat.mod_lt]

theorem tableIndices_small (va : Nat) : ∀ i ∈ tableIndices va, i < 512 := fun i member =>
  pageIndices_small va i (List.mem_append_left _ member)

/-- Following the slots of three levels is a path to a page table. -/
theorem follow_tables {d : Nat} (inside : ∀ i ∈ is, i < 512) (height : is.length + e = d) :
    follow ram t is = some x ↔ Radix.Path ram.child allSlots d t is e x := by
  induction is generalizing d t with
  | nil =>
      obtain rfl : e = d := by simpa using height
      refine ⟨fun found => ?_, fun p => ?_⟩
      · obtain rfl := Option.some.inj found
        exact .nil
      · cases p
        rfl
  | cons i is ih =>
      obtain ⟨d, rfl⟩ : ∃ k, d = k + 1 := ⟨is.length + e, by rw [← height, List.length_cons]; omega⟩
      have rest : ∀ k ∈ is, k < 512 := fun k member => inside k (List.mem_cons_of_mem _ member)
      have height' : is.length + e = d := by
        rw [List.length_cons] at height
        omega
      rw [follow, Option.bind_eq_some_iff]
      constructor
      · rintro ⟨c, link, below⟩
        exact .cons (mem_allSlots.mpr (inside i List.mem_cons_self)) link
          ((ih rest height').mp below)
      · intro p
        cases p with
        | cons _ link below => exact ⟨_, link, (ih rest height').mpr below⟩

theorem lookup_tables : lookup ram root va = some (pt, i) ↔
    TablePath ram root (tableIndices va) 0 pt ∧ i = ptIndex va := by
  rw [lookup_follow, Option.map_eq_some_iff]
  simp only [Prod.mk.injEq, follow_tables (e := 0) (d := 3) (tableIndices_small va) rfl]
  exact ⟨fun ⟨_, p, same, index⟩ => ⟨same ▸ p, index.symm⟩, fun ⟨p, index⟩ =>
    ⟨pt, p, rfl, index.symm⟩⟩

/-- What a walk reads lies in tables. -/
theorem slotsRead_tables {d : Nat} (inside : ∀ i ∈ is, i < 512) (short : is.length ≤ d + 1) :
    ∀ slot ∈ slotsRead ram t is, slot.1 ∈ Radix.nodes ram.child allSlots d t ∧ slot.2 < 512 := by
  induction is generalizing d t with
  | nil => exact fun slot member => absurd member (List.not_mem_nil)
  | cons i is ih =>
      have here := inside i List.mem_cons_self
      intro slot member
      rcases List.mem_cons.mp member with rfl | below
      · exact ⟨Radix.root_mem d t, here⟩
      · cases link : ram.child t i with
        | none =>
            rw [link, Option.elim_none] at below
            exact absurd below List.not_mem_nil
        | some c =>
            rw [link, Option.elim_some] at below
            cases d with
            | zero =>
                obtain rfl : is = [] := List.length_eq_zero_iff.mp (by simpa using short)
                exact absurd below List.not_mem_nil
            | succ d =>
                obtain ⟨table, small⟩ := ih (fun k there => inside k (List.mem_cons_of_mem _ there))
                  (by simpa using short) slot below
                exact ⟨Multiset.mem_cons_of_mem (Multiset.mem_of_le
                  (Radix.child_le (mem_allSlots.mpr here) link) table), small⟩

theorem TableTree.smallSlots (tree : TableTree root s) (va : Nat) :
    SmallSlots s.ram (slotsRead s.ram root (pageIndices va)) := by
  intro slot member
  obtain ⟨table, inside⟩ := slotsRead_tables (d := 3) (pageIndices_small va)
    (by simp [pageIndices, tableIndices]) slot member
  exact tree.small slot.1 table slot.2 inside

theorem translateAddrInner_run (tree : TableTree root s) (va : Nat) :
    translateAddrInner va (s.using root) =
    .ok ((leafEntry s.ram root va).child.map fun frame => frame.toNat * PAGE_SIZE + pageOffset va)
      (s.using root) := by
  have small : SmallSlots (s.using root).ram
    (slotsRead (s.using root).ram root (pageIndices va)) := tree.smallSlots va
  rw [← pageOf_leafEntry, translateAddrInner, tableIndexes_eq, pageOffset_eq, Prog.get_bind]
  exact Prog.bind_ok (translateTables_run small)

/-! ## Linking tables -/

/-- Tables have been linked on the way down the slots `target`, and nothing else. -/
structure Linking (root : PhysFrame) (target : List Nat) (s s' : MemState) : Prop where
  tree : TableTree root s'
  taken : s'.available ≤ s.available
  paths : ∀ {js e x}, TablePath s.ram root js e x → TablePath s'.ram root js e x
  /-- A table that is new is on the way, and was free. -/
  fresh : ∀ {js e x}, TablePath s'.ram root js e x →
    TablePath s.ram root js e x ∨ (js <+: target ∧ x ∈ s.available ∧ x ∉ s'.available)
  /-- It is empty, but for the next slot on the way. -/
  empty : ∀ {js e x}, TablePath s'.ram root js e x → x ∉ pageTables s.ram root → ∀ i,
    s'.ram.entry x i = .unused ∨ js ++ [i] <+: target
  slots : ∀ {js e x}, TablePath s.ram root js e x → ∀ i, s'.ram.entry x i = s.ram.entry x i ∨
    js ++ [i] <+: target
  outside : ∀ f ∉ pageTables s.ram root, f ∉ s.available → s'.ram f = s.ram f

namespace Linking

theorem refl (tree : TableTree root s) (target : List Nat) : Linking root target s s where
  tree := tree
  taken := le_rfl
  paths := id
  fresh := .inl
  empty p new := absurd p.mem new
  slots _ _ := .inl rfl
  outside _ _ _ := rfl

theorem trans (first : Linking root target s s₁) (second : Linking root target s₁ s') :
    Linking root target s s' where
  tree := second.tree
  taken := second.taken.trans first.taken
  paths p := second.paths (first.paths p)
  fresh p := by
    rcases second.fresh p with old | ⟨way, free, taken⟩
    · exact (first.fresh old).imp_right fun ⟨way, free, taken⟩ =>
        ⟨way, free, fun still => taken (Multiset.mem_of_le second.taken still)⟩
    · exact .inr ⟨way, Multiset.mem_of_le first.taken free, taken⟩
  empty {js e x} p new i := by
    by_cases between : x ∈ pageTables s₁.ram root
    · obtain ⟨js', e', q⟩ := Radix.mem_nodes.mp between
      obtain ⟨rfl, rfl⟩ := Radix.Path.unique second.tree.distinct p (second.paths q)
      rcases second.slots q i with same | way
      · rw [same]
        exact first.empty q new i
      · exact .inr way
    · exact second.empty p between i
  slots {js e x} p i := by
    rcases second.slots (first.paths p) i with same | way
    · rw [same]
      exact first.slots p i
    · exact .inr way
  outside f other used := by
    have other' : f ∉ pageTables s₁.ram root := fun member => by
      obtain ⟨js, e, p⟩ := Radix.mem_nodes.mp member
      rcases first.fresh p with old | ⟨-, free, -⟩
      · exact other old.mem
      · exact used free
    rw [second.outside f other' fun free => used (Multiset.mem_of_le first.taken free),
      first.outside f other used]

theorem leaf (linking : Linking root (tableIndices va) s s') (p : TablePath s.ram root js 0 x)
    (i : Nat) :
    s'.ram.entry x i = s.ram.entry x i := by
  refine (linking.slots p i).resolve_right fun way => ?_
  have short := way.length_le
  have height := p.length
  simp only [List.length_append, tableIndices, List.length_cons, List.length_nil] at short
  omega

/-- No address has a leaf that it did not have. -/
theorem leafEntry_same (linking : Linking root (tableIndices va) s s') (tree : TableTree root s)
    (a : Nat) :
    leafEntry s'.ram root a = leafEntry s.ram root a := by
  rw [leafEntry, leafEntry]
  cases before : lookup s.ram root a with
  | some slot =>
      obtain ⟨p, index⟩ := lookup_tables.mp before
      rw [lookup_tables.mpr ⟨linking.paths p, index⟩, Option.elim_some, Option.elim_some,
        linking.leaf p]
  | none =>
      cases after : lookup s'.ram root a with
      | none => rw [Option.elim_none, Option.elim_none]
      | some slot =>
          obtain ⟨p, index⟩ := lookup_tables.mp after
          rcases linking.fresh p with old | ⟨-, free, -⟩
          · rw [lookup_tables.mpr ⟨old, index⟩] at before
            cases before
          · rw [Option.elim_some, Option.elim_none]
            refine (linking.empty p
              (fun member => tree.apart slot.1 member free) slot.2).resolve_right fun way => ?_
            have short := way.length_le
            simp [tableIndices] at short

end Linking

/-- A cleared frame is linked into an empty slot. -/
theorem create_linking (tree : TableTree root s) (p : TablePath s.ram root pre (e + 1) t)
    (inside : i < 512)
    (absent : (s.ram.entry t i).present = false) (taken : allocateFrame s = .ok (some c) s₁)
    (way : pre ++ [i] <+: target)
    (linked : s' = s₁.setRam ((s₁.ram.zeroFrame c).setEntry t i ⟨c, tableFlags⟩)) :
    Linking root target s s' ∧ TablePath s'.ram root (pre ++ [i]) e c ∧ ∀ j,
      s'.ram.entry c j = .unused := by
  have free := allocateFrame_free taken
  have frames : s.available = c ::ₘ s'.available := by
    rw [linked, MemState.setRam_available]
    exact (allocateFrame_taken taken).frames c rfl
  have distinct := tree.free
  rw [frames, Multiset.nodup_cons] at distinct
  have new : c ∉ pageTables s.ram root := fun member => tree.apart c member free
  have inTree : t ∈ pageTables s.ram root := p.mem
  have apart : t ≠ c := by
    rintro rfl
    exact new inTree
  have ram : s'.ram = (s.ram.zeroFrame c).setEntry t i ⟨c, tableFlags⟩ := by
    rw [linked, MemState.setRam_ram, allocateFrame_ram taken]
  have hole : ∀ j, s'.ram.entry c j = .unused := fun j => by
    rw [ram, PhysMem.entry_congr (PhysMem.setEntry_frame apart.symm), PhysMem.entry_zeroFrame]
  have here : s'.ram.entry t i = ⟨c, tableFlags⟩ := by rw [ram, PhysMem.entry_setEntry]
  have same : ∀ y, y ≠ c → ∀ j, (y, j) ≠ (t, i) → s'.ram.entry y j = s.ram.entry y j :=
    fun y old j other => by
    rw [ram, PhysMem.entry_setEntry_ne other, PhysMem.entry_zeroFrame_ne old]
  have link : s'.ram.child t i = some c := by
    rw [PhysMem.child, here]
    exact PageTableEntry.child_eq_some.mpr ⟨tableFlags_present, rfl⟩
  have empty : ∀ j, s'.ram.child c j = none :=
    fun j => by rw [PhysMem.child, hole, PageTableEntry.unused_child]
  have others : ∀ y, y ≠ c → ∀ j, (y, j) ≠ (t, i) → s'.ram.child y j = s.ram.child y j :=
    fun y old j other => by
    rw [PhysMem.child, same y old j other, PhysMem.child]
  have unlinked : s.ram.child t i = none := PageTableEntry.child_eq_none.mpr absent
  have grown : pageTables s'.ram root = c ::ₘ pageTables s.ram root :=
    Radix.nodes_graft p tree.distinct (mem_allSlots.mpr inside) unlinked new link
      (Radix.nodes_empty _ _ fun j _ => empty j) others
  have paths : ∀ {js k x}, TablePath s.ram root js k x → TablePath s'.ram root js k x := fun q => by
    refine q.mono fun y table j b old => ?_
    rw [others y (fun fresh => new (fresh ▸ Multiset.mem_of_le (Radix.tables_le _ _) table)) j
      fun slot => ?_, old]
    obtain ⟨rfl, rfl⟩ := Prod.mk.inj slot
    rw [unlinked] at old
    cases old
  have made : TablePath s'.ram root (pre ++ [i]) e c :=
    (paths p).snoc (mem_allSlots.mpr inside) link
  have distinct' : (pageTables s'.ram root).Nodup := by
    rw [grown]
    exact Multiset.nodup_cons.mpr ⟨new, tree.distinct⟩
  refine ⟨⟨⟨distinct', distinct.2, fun f member => ?_, fun f member j small present => ?_⟩, ?_,
    paths, fun q => ?_,
    fun q fresh j => .inl ?_, fun {js k x} q j => ?_, fun f other used => ?_⟩, made, hole⟩
  · rw [grown] at member
    rcases Multiset.mem_cons.mp member with rfl | old
    · exact distinct.1
    · exact fun still => tree.apart f old (frames ▸ Multiset.mem_cons_of_mem still)
  · rw [grown] at member
    rcases Multiset.mem_cons.mp member with rfl | old
    · rw [hole, PageTableEntry.unused_present] at present
      cases present
    · by_cases slot : (f, j) = (t, i)
      · obtain ⟨rfl, rfl⟩ := Prod.mk.inj slot
        rw [here]
        exact tableFlags_small
      · rw [same f (fun fresh => new (fresh ▸ old)) j slot] at present ⊢
        exact tree.small f old j small present
  · exact frames ▸ Multiset.le_cons_self _ _
  · refine (q.of_graft new link empty others).imp_right fun fresh => ?_
    subst fresh
    obtain ⟨rfl, -⟩ := Radix.Path.unique distinct' q made
    exact ⟨way, free, distinct.1⟩
  · rcases q.of_graft new link empty others with old | rfl
    · exact absurd old.mem fresh
    · exact hole j
  · by_cases slot : (x, j) = (t, i)
    · obtain ⟨rfl, rfl⟩ := Prod.mk.inj slot
      obtain ⟨rfl, -⟩ := Radix.Path.unique tree.distinct q p
      exact .inr way
    · exact .inl (same x (fun fresh => new (fresh ▸ q.mem)) j slot)
  · have notTable : f ≠ t := by
      rintro rfl
      exact other inTree
    have notNew : f ≠ c := by
      rintro rfl
      exact used free
    rw [ram, PhysMem.setEntry_frame notTable, PhysMem.zeroFrame_frame notNew]

/-- The tables that are missing on the way down `is`. -/
def missingTables (ram : PhysMem) : List Nat → PhysFrame → Nat
  | [], _ => 0
  | i :: is, t => (ram.child t i).elim (is.length + 1) (missingTables ram is)

theorem missingTables_empty (empty : ∀ i, ram.child c i = none) (is : List Nat) :
    missingTables ram is c = is.length := by
  cases is with
  | nil => rfl
  | cons i is => rw [missingTables, empty, Option.elim_none, List.length_cons]

/-- What a walk with allocation leaves behind, and when it finds its way. -/
structure Walked (root : PhysFrame) (target : List Nat) (missing : Nat) (s : MemState)
    (r : Option PhysFrame) (s' : MemState) :
    Prop where
  linking : Linking root target s s'
  arrived : ∀ pt, r = some pt → TablePath s'.ram root target 0 pt
  stopped : r = none → ∀ e x, ¬ TablePath s'.ram root target e x
  short : r = none ↔ Multiset.card s.available < missing
  complete : missing = 0 → s' = s

/-- Level by level: a slot is followed, or a table is linked into it. -/
theorem Descent.walked {r : Option PhysFrame} (walk : Descent tableFlags .empty is t s r s')
    (tree : TableTree root s)
    (p : TablePath s.ram root pre is.length t) (inside : ∀ i ∈ is, i < 512)
    (whole : pre ++ is = target) :
    Walked root target (missingTables s.ram is t) s r s' := by
  induction walk generalizing pre with
  | arrived =>
      rw [List.append_nil] at whole
      subst whole
      refine ⟨.refl tree _, fun pt here => ?_, nofun, by simp [missingTables], fun _ => rfl⟩
      obtain rfl := Option.some.inj here
      exact p
  | @kept is s r s' i t present _ _ ih =>
      have here := inside i List.mem_cons_self
      have link : s.ram.child t i = some (s.ram.entry t i).addr :=
        PageTableEntry.child_eq_some.mpr ⟨present, rfl⟩
      rw [missingTables, link, Option.elim_some]
      exact ih tree (p.snoc (mem_allSlots.mpr here) link)
        (fun k member => inside k (List.mem_cons_of_mem _ member))
        (by rw [List.append_assoc, List.singleton_append, whole])
  | widened _ lacking =>
      rw [PageTableFlags.contains_empty] at lacking
      cases lacking
  | @created s c s₁ is t i r s' absent taken _ ih =>
      have here := inside i List.mem_cons_self
      have way : pre ++ [i] <+: target :=
        ⟨is, by rw [List.append_assoc, List.singleton_append, whole]⟩
      obtain ⟨linking, made, hole⟩ := create_linking tree p here absent taken way rfl
      have rest := ih linking.tree made (fun k member => inside k (List.mem_cons_of_mem _ member))
        (by rw [List.append_assoc, List.singleton_append, whole])
      have frames := congrArg Multiset.card ((allocateFrame_taken taken).frames c rfl)
      have below : missingTables
        ((s₁.ram.zeroFrame c).setEntry t i ⟨c, tableFlags⟩) is c = is.length :=
        missingTables_empty (fun j => PageTableEntry.child_eq_none.mpr (by
          have empty := hole j
          rw [MemState.setRam_ram] at empty
          rw [empty, PageTableEntry.unused_present])) is
      have unlinked : s.ram.child t i = none := PageTableEntry.child_eq_none.mpr absent
      rw [missingTables, unlinked, Option.elim_none]
      refine ⟨linking.trans rest.linking, rest.arrived, rest.stopped, ?_, fun none =>
        absurd none (Nat.succ_ne_zero _)⟩
      rw [rest.short, MemState.setRam_ram, below, MemState.setRam_available, frames,
        Multiset.card_cons]
      omega
  | @exhausted s s₁ i is t absent taken =>
      have unlinked : s.ram.child t i = none := PageTableEntry.child_eq_none.mpr absent
      obtain ⟨available, left⟩ := (allocateFrame_taken taken).none rfl
      have ram := allocateFrame_ram taken
      rw [missingTables, unlinked, Option.elim_none]
      have same : Linking root target s s₁ :=
        { Linking.refl tree target with
          tree := ⟨by rw [ram]; exact tree.distinct, by rw [left]; exact Multiset.nodup_zero,
            fun _ _ => by rw [left]; exact Multiset.notMem_zero _, by rw [ram]; exact tree.small⟩
          taken := by rw [left]; exact Multiset.zero_le _
          paths := fun q => by rw [ram]; exact q
          fresh := fun q => .inl (by rwa [ram] at q)
          empty := fun q new => absurd q.mem (by rwa [pageTables, ← ram] at new)
          slots := fun _ _ => .inl (by rw [ram])
          outside := fun _ _ _ => by rw [ram] }
      refine ⟨same, nofun, fun _ e x q => ?_, by simp [available], fun none =>
        absurd none (Nat.succ_ne_zero _)⟩
      rw [ram, ← whole] at q
      cases Radix.Path.of_append q p with
      | cons _ link _ =>
          rw [unlinked] at link
          cases link
  | huge present large =>
      rw [tree.small _ p.mem _ (inside _ List.mem_cons_self) present] at large
      cases large
  | hugeWidened present large =>
      rw [tree.small _ p.mem _ (inside _ List.mem_cons_self) present] at large
      cases large

theorem missingTables_path {d : Nat} (p : Radix.Path ram.child allSlots d t is e x) :
    missingTables ram is t = 0 := by
  induction p with
  | nil => rfl
  | cons _ link _ ih => rw [missingTables, link, Option.elim_some, ih]

/-- The entries for the tables of `va` are present. -/
def TablesPresent (ram : PhysMem) (root : PhysFrame) (va : Nat) : Prop :=
  let pml4e := ram.entry root (pml4Index va)
  let pdpte := ram.entry pml4e.addr (pdptIndex va)
  let pde := ram.entry pdpte.addr (pdIndex va)
  pml4e.present = true ∧ pdpte.present = true ∧ pde.present = true

theorem lookup_isSome : (lookup ram root va).isSome = true ↔ TablesPresent ram root va := by
  have level : ∀ t i, ram.child t i = if
    (ram.entry t i).present then some (ram.entry t i).addr else none := fun _ _ => rfl
  rw [lookup_follow, Option.isSome_map, TablesPresent]
  simp only [tableIndices, follow, level]
  split <;> simp_all
  split <;> simp_all

/-- What a walk without allocation tells of an address. -/
structure WalkReads (root : PhysFrame) (va : Nat) (s : MemState) : Prop where
  run : walkPagetable root va false s = .ok (lookup s.ram root va) s
  found : (lookup s.ram root va).isSome = true ↔ TablesPresent s.ram root va
  /-- The other walk reads the same slot last. -/
  last : ∀ slot, lookup s.ram root va = some slot → ∃ slots frame,
    translateTables (VirtAddr.tableIndexes va) root s = .ok (slots, frame) s ∧
      slots.getLast? = some slot
  translation : translateAddrInner va (s.using root) =
    .ok ((lookup s.ram root va).elim none fun slot =>
      if (s.ram.entry slot.1 slot.2).present then some ((s.ram.entry slot.1 slot.2).addr.toNat * PAGE_SIZE + va % PAGE_SIZE)
      else none) (s.using root)

/-- What a walk with allocation does. -/
structure WalkLinks (root : PhysFrame) (va : Nat) (s : MemState) (r : Option (PhysFrame × Nat))
    (s' : MemState) : Prop where
  slot : r = lookup s'.ram root va
  /-- It runs out of frames, or it finds a slot. -/
  short : r = none ↔ Multiset.card s.available < missingTables s.ram (tableIndices va) root
  kept : ∀ slot, lookup s.ram root va = some slot → r = some slot ∧ s' = s
  linking : Linking root (tableIndices va) s s'
  leaves : ∀ a, leafEntry s'.ram root a = leafEntry s.ram root a
  translations : ∀ a, ∃ phys, translateAddrInner a (s.using root) = .ok phys (s.using root) ∧
    translateAddrInner a (s'.using root) = .ok phys (s'.using root)

/-- The walk of the kernel is a lookup, and with allocation it changes no translation. -/
theorem walkPagetable_local (tree : TableTree root s) (va : Nat) : WalkReads root va s ∧
    ∃ r s', walkPagetable root va true s = .ok r s' ∧ WalkLinks root va s r s' := by
  constructor
  · refine ⟨walkPagetable_lookup root va s, lookup_isSome, fun slot found => ?_, ?_⟩
    · have small := tree.smallSlots va
      obtain ⟨p, index⟩ := lookup_tables.mp found
      rw [tableIndexes_eq]
      refine ⟨_, _, translateTables_run small, ?_⟩
      rw [pageIndices, slotsRead_last
        ((follow_tables (d := 3) (e := 0) (tableIndices_small va) rfl).mpr p), ← index]
    · rw [translateAddrInner_run tree, leafEntry]
      cases lookup s.ram root va with
      | none => rw [Option.elim_none, Option.elim_none, PageTableEntry.unused_child,
          Option.map_none]
      | some slot =>
          rw [Option.elim_some, Option.elim_some, PageTableEntry.child]
          split <;> rfl
  · obtain ⟨r, s', run, walk⟩ := walkPagetable_descent root va s
    have walked := walk.walked tree .nil (tableIndices_small va) rfl
    have slot : r.map (·, ptIndex va) = lookup s'.ram root va := by
      cases r with
      | some pt => exact (lookup_tables.mpr ⟨walked.arrived pt rfl, rfl⟩).symm
      | none =>
          cases found : lookup s'.ram root va with
          | none => rfl
          | some slot => exact absurd (lookup_tables.mp found).1 (walked.stopped rfl _ _)
    have leaves := walked.linking.leafEntry_same tree
    refine ⟨_, s', run, slot, ?_, fun before found => ?_, walked.linking, leaves, fun a => ?_⟩
    · rw [← walked.short, Option.map_eq_none_iff]
    · have same := walked.complete (missingTables_path (lookup_tables.mp found).1)
      rw [slot, same]
      exact ⟨found, rfl⟩
    · refine ⟨_, translateAddrInner_run tree a, ?_⟩
      rw [translateAddrInner_run walked.linking.tree, leaves]

/-- A cleared PML4 and three free frames. -/
def blankTable : MemState := ⟨fun _ _ => 0, ⟨[], 0, [6, 7, 8]⟩, 0⟩

theorem blankTable_entry (f : PhysFrame) (i : Nat) : blankTable.ram.entry f i = .unused := by
  change PageTableEntry.ofWord (leWord fun _ => 0) = .unused
  decide

theorem blankTable_tree : TableTree 1 blankTable := by
  have single : pageTables blankTable.ram 1 = {1} := Radix.nodes_empty 3 1 fun i _ => by
    rw [PhysMem.child, blankTable_entry, PageTableEntry.unused_child]
  refine ⟨by rw [single]; exact Multiset.nodup_singleton 1, Multiset.coe_nodup.mpr (by decide),
    fun f member => ?_,
    fun f _ i _ present => ?_⟩
  · rw [single, Multiset.mem_singleton] at member
    subst member
    exact fun free => absurd (Multiset.mem_coe.mp free) (by decide)
  · rw [blankTable_entry, PageTableEntry.unused_present] at present
    cases present

/-- The three frames are just enough for an address of the kernel half. -/
theorem walkPagetable_local_blank : WalkReads 1 0xFFFF800000001000 blankTable ∧
    ∃ r s', walkPagetable 1 0xFFFF800000001000 true blankTable = .ok r s' ∧ r ≠ none ∧
      WalkLinks 1 0xFFFF800000001000 blankTable r s' := by
  obtain ⟨reads, r, s', run, links⟩ := walkPagetable_local blankTable_tree 0xFFFF800000001000
  refine ⟨reads, r, s', run, fun none => ?_, links⟩
  have short := links.short.mp none
  rw [missingTables_empty fun i => by rw
    [PhysMem.child, blankTable_entry, PageTableEntry.unused_child]] at short
  exact absurd short (by decide)

end FerriOS.Memory
