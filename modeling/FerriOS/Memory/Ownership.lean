import FerriOS.Memory.Va

/-! # Owned frames

The user half of an address space is the tree of its PML4 slots 0 to 255. A
routine that works on one tree, or on a subtree of one, owns its frames, the
frames the allocator can hand out, and the frames it holds in its hands.
`Conserves` says that it neither loses nor duplicates one of them and writes no
other frame; `Extends` says in addition that nothing linked before goes away.
A step on a subtree is a step on the whole tree (`Conserves.lift`).
-/

namespace FerriOS.Memory

open FerriOS.Lib

/-- The slots of the user half: those of a PML4 (height 4) below 256, all 512 of
    the other tables. -/
@[irreducible] def userFan (d : Nat) : Finset Nat :=
  Finset.range (if d = 4 then PAGETABLE_USER_SPACE_END else 512)

theorem mem_userFan {d i : Nat} : i ∈ userFan d ↔ i < if d = 4 then 256 else 512 := by
  simp [userFan, PAGETABLE_USER_SPACE_END]

/-- The slots `is` lead from the root of height `H` to the node `x` of height `e`. -/
abbrev TreePath (ram : PhysMem) (H : Nat) (root : PhysFrame) (is : List Nat) (e : Nat)
    (x : PhysFrame) : Prop :=
  Radix.Path ram.child userFan H root is e x

/-- The frames of a subtree of height `H`, tables and pages. -/
def treeFrames (ram : PhysMem) (H : Nat) (root : PhysFrame) : Multiset PhysFrame :=
  Radix.nodes ram.child userFan H root

/-- The slot lists that lead to a node of the tree. -/
noncomputable def treeRoutes (ram : PhysMem) (H : Nat) (root : PhysFrame) : Finset (List Nat) :=
  Radix.routes ram.child userFan H root

theorem mem_treeRoutes {ram : PhysMem} {H : Nat} {root : PhysFrame} {is : List Nat} :
    is ∈ treeRoutes ram H root ↔ ∃ e x, TreePath ram H root is e x := Radix.mem_routes

theorem card_treeRoutes (ram : PhysMem) (H : Nat) (root : PhysFrame) :
    (treeRoutes ram H root).card = Multiset.card (treeFrames ram H root) := Radix.card_routes H root

def treeTables (ram : PhysMem) (H : Nat) (root : PhysFrame) : Multiset PhysFrame :=
  Radix.tables ram.child userFan H root

/-- The frames of the user half, tables and pages. -/
abbrev userFrames (ram : PhysMem) (pml4 : PhysFrame) : Multiset PhysFrame := treeFrames ram 4 pml4

theorem treeTables_le (ram : PhysMem) (H : Nat) (root : PhysFrame) :
    treeTables ram H root ≤ treeFrames ram H root := Radix.tables_le _ _

theorem treeFrames_congr {ram ram' : PhysMem} {H : Nat} {root : PhysFrame}
    (same : ∀ f ∈ treeTables ram H root, ram'.child f = ram.child f) :
    treeFrames ram' H root = treeFrames ram H root := Radix.nodes_congr H root same

theorem treeRoutes_congr {ram ram' : PhysMem} {H : Nat} {root : PhysFrame}
    (same : ∀ f ∈ treeTables ram H root, ram'.child f = ram.child f) :
    treeRoutes ram' H root = treeRoutes ram H root := Radix.routes_congr H root same

/-- What the flags of a present slot have to meet, for the slots that lead to it
    and its own. -/
abbrev SlotLaw := List Nat → PageTableFlags → Prop

/-- An entry is zero, or present with flags that the law allows. -/
def SlotOk (law : PageTableFlags → Prop) (e : PageTableEntry) : Prop :=
  e = .unused ∨ (e.present = true ∧ law e.flags)

/-- The law lets no huge page into the user half. -/
def NoHuge (P : SlotLaw) : Prop := ∀ is f, P is f → f.contains .HUGE_PAGE = false

theorem SlotOk.small {law : PageTableFlags → Prop} {e : PageTableEntry} (ok : SlotOk law e)
    (noHuge : ∀ f, law f → f.contains .HUGE_PAGE = false) (linked : e.present = true) :
    law e.flags ∧ e.huge = false := by
  rcases ok with zero | ⟨-, allowed⟩
  · simp [zero] at linked
  · exact ⟨allowed, noHuge _ allowed⟩

/-- Every slot of the user half obeys the law `P`. -/
def Slots (P : SlotLaw) (ram : PhysMem) (H : Nat) (root : PhysFrame) : Prop :=
  ∀ is d t, TreePath ram H root is (d + 1) t →
    ∀ i ∈ userFan (d + 1), SlotOk (P (is ++ [i])) (ram.entry t i)

/-- What a routine on the tree below `root` may write, with `hand` in hand. -/
def owned (H : Nat) (root : PhysFrame) (hand : Multiset PhysFrame) (s : MemState) :
    Multiset PhysFrame :=
  treeFrames s.ram H root + s.available + hand

/-- The owned frames are the same before and after, and no other is written. -/
structure Conserves (P : SlotLaw) (H : Nat) (root : PhysFrame)
    (hand hand' : Multiset PhysFrame) (s s' : MemState) : Prop where
  ledger : owned H root hand' s' = owned H root hand s
  outside : ∀ f ∉ owned H root hand s, s'.ram f = s.ram f
  slots : Slots P s.ram H root → Slots P s'.ram H root
  /-- The slots of the root that are not for the user half are left alone. -/
  upper : H ≠ 0 → ∀ i ∉ userFan H, s'.ram.entry root i = s.ram.entry root i
  cr3 : s'.cr3 = s.cr3
  memoryMap : s'.frameAllocator.memoryMap = s.frameAllocator.memoryMap

/-- In addition, every path of the address space survives, and no frame is given back:
    what is left was left before, and is not written. -/
structure Extends (P : SlotLaw) (H : Nat) (root : PhysFrame)
    (hand hand' : Multiset PhysFrame) (s s' : MemState) : Prop
    extends Conserves P H root hand hand' s s' where
  paths : ∀ is e x, TreePath s.ram H root is e x → TreePath s'.ram H root is e x
  spare : ∀ f ∈ s'.available, f ∈ s.available ∧ s'.ram f = s.ram f

/-- Every path that is new leads along the slots `js`. -/
def NewPaths (H : Nat) (root : PhysFrame) (js : List Nat) (ram ram' : PhysMem) : Prop :=
  ∀ is e x, TreePath ram' H root is e x → TreePath ram H root is e x ∨ is <+: js

variable {P : SlotLaw} {H : Nat} {root t c : PhysFrame}
  {h h' h'' : Multiset PhysFrame} {s s' s'' : MemState} {is : List Nat} {d e i : Nat}
  {fl : PageTableFlags}

theorem Conserves.refl : Conserves P H root h h s s :=
  ⟨rfl, fun _ _ => rfl, id, fun _ _ _ => rfl, rfl, rfl⟩

theorem Conserves.trans (first : Conserves P H root h h' s s')
    (second : Conserves P H root h' h'' s' s'') : Conserves P H root h h'' s s'' where
  ledger := second.ledger.trans first.ledger
  outside f absent := by
    rw [second.outside f (by rw [first.ledger]; exact absent), first.outside f absent]
  slots := second.slots ∘ first.slots
  upper tall i kernel := (second.upper tall i kernel).trans (first.upper tall i kernel)
  cr3 := second.cr3.trans first.cr3
  memoryMap := second.memoryMap.trans first.memoryMap

theorem Extends.refl : Extends P H root h h s s :=
    ⟨.refl, fun _ _ _ p => p, fun _ left => ⟨left, rfl⟩⟩

theorem Extends.trans (first : Extends P H root h h' s s')
    (second : Extends P H root h' h'' s' s'') : Extends P H root h h'' s s'' where
  toConserves := first.toConserves.trans second.toConserves
  paths is e x p := second.paths is e x (first.paths is e x p)
  spare f left := by
    obtain ⟨there, same⟩ := second.spare f left
    exact ⟨(first.spare f there).1, same.trans (first.spare f there).2⟩

theorem NewPaths.refl {js : List Nat} {ram : PhysMem} : NewPaths H root js ram ram :=
  fun _ _ _ p => .inl p

theorem NewPaths.trans {js : List Nat} {ram ram' ram'' : PhysMem}
    (first : NewPaths H root js ram ram')
    (second : NewPaths H root js ram' ram'') : NewPaths H root js ram ram'' := by
  intro is e x p
  rcases second is e x p with p' | new
  · exact first is e x p'
  · exact .inr new

theorem NewPaths.longer {js ks : List Nat} {ram ram' : PhysMem}
    (new : NewPaths H root js ram ram') :
    NewPaths H root (js ++ ks) ram ram' :=
  fun is e x p => (new is e x p).imp id fun initial => initial.trans (List.prefix_append _ _)

theorem Extends.routes (step : Extends P H root h h' s s') :
    treeRoutes s.ram H root ⊆ treeRoutes s'.ram H root := by
  intro is member
  obtain ⟨e, x, p⟩ := mem_treeRoutes.mp member
  exact mem_treeRoutes.mpr ⟨e, x, step.paths is e x p⟩

theorem NewPaths.routes {js : List Nat} {ram ram' : PhysMem} (new : NewPaths H root js ram ram') :
    treeRoutes ram' H root ⊆ treeRoutes ram H root ∪ js.inits.toFinset := by
  intro is member
  obtain ⟨e, x, p⟩ := mem_treeRoutes.mp member
  rw [Finset.mem_union, List.mem_toFinset, List.mem_inits, mem_treeRoutes]
  exact (new is e x p).imp (fun old => ⟨e, x, old⟩) id

theorem Conserves.count (step : Conserves P H root h h' s s') :
    (treeRoutes s'.ram H root).card + Multiset.card s'.available + Multiset.card h' =
      (treeRoutes s.ram H root).card + Multiset.card s.available + Multiset.card h := by
  have total := congrArg Multiset.card step.ledger
  simpa only [owned, Multiset.card_add, ← card_treeRoutes] using total

theorem owned_tree : treeFrames s.ram H root ≤ owned H root h s := by
  rw [owned, add_assoc]
  exact Multiset.le_add_right _ _

theorem Conserves.nodup (step : Conserves P H root h h' s s')
    (distinct : (owned H root h s).Nodup) :
    (owned H root h' s').Nodup := by
  rw [step.ledger]
  exact distinct

theorem hand_fresh (distinct : (owned H root (c ::ₘ h) s).Nodup) : c ∉ treeFrames s.ram H root := by
  rw [owned, Multiset.add_cons, Multiset.nodup_cons] at distinct
  exact fun member => distinct.1 (Multiset.mem_add.mpr (.inl (Multiset.mem_add.mpr (.inl member))))

theorem hand_apart (distinct : (owned H root (c ::ₘ h) s).Nodup) : c ∉ s.available := by
  rw [owned, Multiset.add_cons, Multiset.nodup_cons] at distinct
  exact fun left => distinct.1 (Multiset.mem_add.mpr (.inl (Multiset.mem_add.mpr (.inr left))))

theorem tree_apart (distinct : (owned H root h s).Nodup) (member : c ∈ treeFrames s.ram H root) :
    c ∉ s.available :=
  Multiset.disjoint_left.mp (Multiset.nodup_add.mp
    (Multiset.nodup_of_le (Multiset.le_add_right _ _) distinct)).2.2 member

theorem tree_nodup (distinct : (owned H root h s).Nodup) : (treeFrames s.ram H root).Nodup :=
  Multiset.nodup_of_le owned_tree distinct

theorem allocateFrame_extends (taken : allocateFrame s = .ok (some c) s') :
    Extends P H root h (c ::ₘ h) s s' := by
  obtain ⟨ram, cr3, memoryMap, frames, -⟩ := allocateFrame_taken taken
  have available := frames c rfl
  refine ⟨⟨?_, fun f _ => by rw [ram], by rw [ram]; exact id, fun _ _ _ => by rw [ram], cr3,
    memoryMap⟩, ?_,
    fun f left => ⟨?_, by rw [ram]⟩⟩
  · simp only [owned, ram, available, Multiset.add_cons, Multiset.cons_add]
  · rw [ram]; exact fun _ _ _ p => p
  · rw [available]
    exact Multiset.mem_cons_of_mem left

theorem allocateFrame_none (taken : allocateFrame s = .ok none s') :
    Extends P H root h h s s' := by
  obtain ⟨ram, cr3, memoryMap, -, none⟩ := allocateFrame_taken taken
  have available := none rfl
  refine ⟨⟨?_, fun f _ => by rw [ram], by rw [ram]; exact id, fun _ _ _ => by rw [ram], cr3,
    memoryMap⟩, ?_,
    fun f left => ?_⟩
  · simp only [owned, ram, available]
  · rw [ram]; exact fun _ _ _ p => p
  · rw [available.2] at left
    exact absurd left (Multiset.notMem_zero f)

theorem deallocateFrame_conserves (given : deallocateFrame c s = .ok () s') :
    Conserves P H root (c ::ₘ h) h s s' := by
  obtain ⟨s₁, run, ram, cr3, memoryMap, -, available⟩ := deallocateFrame_available c s
  obtain rfl := (Outcome.ok.inj (run.symm.trans given)).2
  refine ⟨?_, fun f _ => by rw [ram], by rw [ram]; exact id, fun _ _ _ => by rw [ram], cr3,
    memoryMap⟩
  simp only [owned, ram, available, Multiset.add_cons, Multiset.cons_add]

theorem path_congr {ram ram' : PhysMem}
    (same : ∀ f ∈ treeTables ram H root, ram' f = ram f) (p : TreePath ram H root is e t) :
    TreePath ram' H root is e t :=
  p.mono fun y hy i c link => by rw [PhysMem.child_congr (same y hy), link]

theorem path_congr_iff {ram ram' : PhysMem}
    (same : ∀ f ∈ treeTables ram H root, ram' f = ram f) :
    TreePath ram' H root is e t ↔ TreePath ram H root is e t := by
  refine ⟨path_congr ?_, path_congr same⟩
  have tables : treeTables ram' H root = treeTables ram H root :=
    Radix.tables_congr H root fun f hf => PhysMem.child_congr (same f hf)
  exact fun f hf => (same f (tables ▸ hf)).symm

theorem slots_congr {ram ram' : PhysMem}
    (same : ∀ f ∈ treeTables ram H root, ram' f = ram f) (slots : Slots P ram H root) :
    Slots P ram' H root := by
  intro is d t p i inside
  have p₀ := (path_congr_iff same).mp p
  rw [PhysMem.entry_congr (same t p₀.mem_tables)]
  exact slots is d t p₀ i inside

theorem Slots.child {ram : PhysMem} (slots : Slots P ram (d + 1) t) (inside : i ∈ userFan (d + 1))
    (link : ram.child t i = some c) : Slots (fun js => P (i :: js)) ram d c :=
  fun is e x p j insideJ => slots (i :: is) e x (.cons inside link p) j insideJ

/-- Writing owned frames that are not tables of the tree: pages, frames in hand. -/
theorem write_extends {ram : PhysMem} (tables : ∀ f ∈ treeTables s.ram H root, ram f = s.ram f)
    (outside : ∀ f ∉ owned H root h s, ram f = s.ram f)
    (spare : ∀ f ∈ s.available, ram f = s.ram f) :
    Extends P H root h h s (s.setRam ram) where
  ledger := by
    simp only [owned, MemState.setRam_ram, MemState.setRam_available]
    rw [treeFrames_congr fun f hf => PhysMem.child_congr (tables f hf)]
  outside := outside
  slots := slots_congr tables
  upper tall i _ := by
    obtain ⟨d, rfl⟩ := Nat.exists_eq_succ_of_ne_zero tall
    exact congrFun (PhysMem.entry_congr (tables root (by simp [treeTables, Radix.tables]))) i
  cr3 := rfl
  memoryMap := rfl
  paths _ _ _ p := path_congr tables p
  spare f left := ⟨left, spare f left⟩

theorem leaf_write_extends {ram : PhysMem} (distinct : (owned H root h s).Nodup)
    (p : TreePath s.ram H root is 0 c) (others : ∀ f ≠ c, ram f = s.ram f) :
    Extends P H root h h s (s.setRam ram) := by
  refine write_extends (fun f table => others f ?_) (fun f absent => others f ?_) fun f left =>
    others f ?_
  · rintro rfl
    obtain ⟨js, e, q⟩ := Radix.mem_tables.mp table
    obtain ⟨-, height⟩ := Radix.Path.unique (tree_nodup distinct) p q
    omega
  · rintro rfl
    exact absent (Multiset.mem_of_le owned_tree p.mem)
  · rintro rfl
    exact tree_apart distinct p.mem left

/-- Clearing or filling a frame in hand. -/
theorem hand_extends (ram : PhysMem) (distinct : (owned H root (c ::ₘ h) s).Nodup)
    (others : ∀ f ≠ c, ram f = s.ram f) :
    Extends P H root (c ::ₘ h) (c ::ₘ h) s (s.setRam ram) ∧
      ∀ js, NewPaths H root js s.ram ram := by
  have tables : ∀ f ∈ treeTables s.ram H root, ram f = s.ram f := by
    refine fun f hf => others f ?_
    rintro rfl
    exact hand_fresh distinct (Multiset.mem_of_le (treeTables_le _ _ _) hf)
  refine ⟨write_extends tables (fun f hf => others f ?_) fun f left => others f ?_,
    fun js is e x p => ?_⟩
  · rintro rfl
    exact hf (by simp [owned])
  · rintro rfl
    exact hand_apart distinct left
  · exact .inl ((path_congr_iff tables).mp p)

/-- No slot of the user half is a kernel slot of the root. -/
private theorem upper_ne {j : Nat} (distinct : (treeFrames s.ram H root).Nodup)
    (p : TreePath s.ram H root is (d + 1) t) (inside : i ∈ userFan (d + 1))
    (kernel : j ∉ userFan H) :
    (root, j) ≠ (t, i) := by
  rintro ⟨rfl, rfl⟩
  obtain ⟨-, rfl⟩ := Radix.Path.unique distinct p .nil
  exact kernel inside

/-- A present entry stands for the child it names. -/
private theorem child_set {ram : PhysMem} (present : fl.contains .PRESENT = true) :
    (ram.setEntry t i ⟨c, fl⟩).child t i = some c := by
  simp [PhysMem.child, PageTableEntry.child, PageTableEntry.present, present]

private theorem child_set_ne {ram : PhysMem} {en : PageTableEntry} {x : PhysFrame} {j : Nat}
    (other : (x, j) ≠ (t, i)) : (ram.setEntry t i en).child x j = ram.child x j := by
  rw [PhysMem.child, PhysMem.entry_setEntry_ne other, PhysMem.child]

/-- Linking a frame in hand into an absent slot. A frame linked as a table must
    have been cleared. -/
theorem link_extends (distinct : (owned H root (c ::ₘ h) s).Nodup)
    (p : TreePath s.ram H root is (d + 1) t) (inside : i ∈ userFan (d + 1))
    (absent : (s.ram.entry t i).present = false) (present : fl.contains .PRESENT = true)
    (law : P (is ++ [i]) fl) (cleared : d ≠ 0 → ∀ j, s.ram.entry c j = .unused) :
    Extends P H root (c ::ₘ h) h s (s.setRam (s.ram.setEntry t i ⟨c, fl⟩)) ∧
      TreePath (s.ram.setEntry t i ⟨c, fl⟩) H root (is ++ [i]) d c ∧
      NewPaths H root (is ++ [i]) s.ram (s.ram.setEntry t i ⟨c, fl⟩) := by
  have fresh := hand_fresh distinct
  have tree := tree_nodup distinct
  have free : s.ram.child t i = none := PageTableEntry.child_eq_none.mpr absent
  have apart : t ≠ c := by
    rintro rfl
    exact fresh p.mem
  have same : ∀ x j, (x, j) ≠ (t, i) → (s.ram.setEntry t i ⟨c, fl⟩).child x j = s.ram.child x j :=
    fun x j => child_set_ne
  have single : Radix.nodes (s.ram.setEntry t i ⟨c, fl⟩).child userFan d c = {c} := by
    rcases Nat.eq_zero_or_pos d with rfl | tall
    · rfl
    · refine Radix.nodes_empty d c fun j _ => ?_
      rw [same c j fun eq => apart (Prod.mk.inj eq).1.symm, PhysMem.child, cleared (by omega) j]
      exact PageTableEntry.unused_child
  have grown : treeFrames (s.ram.setEntry t i ⟨c, fl⟩) H root = c ::ₘ treeFrames s.ram H root :=
    Radix.nodes_graft p tree inside free fresh (child_set present) single
      fun x _ j other => same x j other
  have paths : ∀ is e x, TreePath s.ram H root is e x →
      TreePath (s.ram.setEntry t i ⟨c, fl⟩) H root is e x := by
    intro js e x q
    refine q.mono fun y _ j b link => ?_
    rw [same y j ?_, link]
    rintro ⟨rfl, rfl⟩
    simp [free] at link
  have newPath := (paths is (d + 1) t p).snoc inside (child_set present)
  have newTree : (treeFrames (s.ram.setEntry t i ⟨c, fl⟩) H root).Nodup := by
    rw [grown]
    exact Multiset.nodup_cons.mpr ⟨fresh, tree⟩
  -- a node of the new tree is the linked one or an old one
  have classify : ∀ {js e x}, TreePath (s.ram.setEntry t i ⟨c, fl⟩) H root js e x →
      x = c ∨ TreePath s.ram H root js e x := by
    intro js e x q
    have member : x ∈ treeFrames (s.ram.setEntry t i ⟨c, fl⟩) H root := q.mem
    rw [grown, Multiset.mem_cons] at member
    refine member.imp id fun old => ?_
    obtain ⟨ks, k, q₀⟩ := Radix.mem_nodes.mp old
    obtain ⟨rfl, rfl⟩ := Radix.Path.unique newTree (paths _ _ _ q₀) q
    exact q₀
  refine ⟨⟨⟨?_, ?_, ?_, fun _ j kernel => ?_, rfl, rfl⟩, paths, fun f left =>
    ⟨left, PhysMem.setEntry_frame ?_⟩⟩, newPath,
    fun js e x q => ?_⟩
  · simp only [owned, MemState.setRam_ram, MemState.setRam_available, grown, Multiset.cons_add,
      Multiset.add_cons]
  · intro f outside
    refine PhysMem.setEntry_frame ?_
    rintro rfl
    exact outside (Multiset.mem_of_le owned_tree p.mem)
  · intro slots js e x q j insideJ
    rcases classify q with rfl | q₀
    · obtain ⟨-, height⟩ := newPath.unique newTree q
      left
      rw [MemState.setRam_ram, PhysMem.entry_setEntry_ne fun eq => apart (Prod.mk.inj eq).1.symm]
      exact cleared (by omega) j
    · by_cases at_slot : (x, j) = (t, i)
      · obtain ⟨rfl, rfl⟩ := Prod.mk.inj at_slot
        obtain ⟨rfl, -⟩ := Radix.Path.unique tree q₀ p
        right
        simp [PageTableEntry.present, present, law]
      · rw [MemState.setRam_ram, PhysMem.entry_setEntry_ne at_slot]
        exact slots _ _ _ q₀ j insideJ
  · exact PhysMem.entry_setEntry_ne (upper_ne tree p inside kernel)
  · rintro rfl
    exact tree_apart distinct p.mem left
  · rcases classify q with rfl | q₀
    · obtain ⟨rfl, -⟩ := newPath.unique newTree q
      exact .inr (List.prefix_refl _)
    · exact .inl q₀

/-- Writing a present slot without changing the frame it links. -/
theorem reflag_extends (distinct : (owned H root h s).Nodup)
    (p : TreePath s.ram H root is (d + 1) t)
    (inside : i ∈ userFan (d + 1)) (linked : (s.ram.entry t i).present = true)
    (present : fl.contains .PRESENT = true)
    (law : P (is ++ [i]) (s.ram.entry t i).flags → P (is ++ [i]) fl) :
    Extends P H root h h s (s.setRam (s.ram.setEntry t i ⟨(s.ram.entry t i).addr, fl⟩)) ∧
      ∀ js, NewPaths H root js s.ram (s.ram.setEntry t i ⟨(s.ram.entry t i).addr, fl⟩) := by
  have same : (s.ram.setEntry t i ⟨(s.ram.entry t i).addr, fl⟩).child = s.ram.child := by
    funext x j
    by_cases at_slot : (x, j) = (t, i)
    · obtain ⟨rfl, rfl⟩ := Prod.mk.inj at_slot
      rw [child_set present, PhysMem.child, PageTableEntry.child, if_pos linked]
    · exact child_set_ne at_slot
  refine ⟨⟨⟨?_, ?_, ?_, fun _ j kernel => ?_, rfl, rfl⟩, ?_, fun f left =>
    ⟨left, PhysMem.setEntry_frame ?_⟩⟩,
    fun js is e x q => ?_⟩
  · simp only [owned, MemState.setRam_ram, MemState.setRam_available, treeFrames, same]
  · intro f outside
    refine PhysMem.setEntry_frame ?_
    rintro rfl
    exact outside (Multiset.mem_of_le owned_tree p.mem)
  · intro slots js e x q j insideJ
    simp only [MemState.setRam_ram, TreePath, same] at q ⊢
    by_cases at_slot : (x, j) = (t, i)
    · obtain ⟨rfl, rfl⟩ := Prod.mk.inj at_slot
      obtain ⟨rfl, -⟩ := Radix.Path.unique (tree_nodup distinct) q p
      right
      rcases slots _ _ _ q j insideJ with zero | ⟨_, flags⟩
      · simp [zero] at linked
      · simp [PageTableEntry.present, present, law flags]
    · rw [PhysMem.entry_setEntry_ne at_slot]
      exact slots _ _ _ q j insideJ
  · exact PhysMem.entry_setEntry_ne (upper_ne (tree_nodup distinct) p inside kernel)
  · simp only [MemState.setRam_ram, TreePath, same]
    exact fun _ _ _ q => q
  · rintro rfl
    exact tree_apart distinct p.mem left
  · left
    simpa only [TreePath, same] using q

/-- Emptying a slot takes the node it links in hand, when that node links none. -/
theorem unlink_conserves (distinct : (owned H root h s).Nodup)
    (p : TreePath s.ram H root is (d + 1) t) (inside : i ∈ userFan (d + 1))
    (linked : (s.ram.entry t i).present = true)
    (single : treeFrames s.ram d (s.ram.entry t i).addr = {(s.ram.entry t i).addr}) :
    Conserves P H root h ((s.ram.entry t i).addr ::ₘ h) s
      (s.setRam (s.ram.setEntry t i .unused)) := by
  have gone : (s.ram.setEntry t i .unused).child t i = none := by
    simp [PhysMem.child]
  have link : s.ram.child t i = some (s.ram.entry t i).addr :=
    PageTableEntry.child_eq_some.mpr ⟨linked, rfl⟩
  have shrunk : (s.ram.entry t i).addr ::ₘ treeFrames (s.ram.setEntry t i .unused) H root =
      treeFrames s.ram H root :=
    Radix.nodes_prune p (tree_nodup distinct) inside link single gone fun x _ j => child_set_ne
  refine ⟨?_, ?_, ?_, fun _ j kernel => ?_, rfl, rfl⟩
  · simp only [owned, MemState.setRam_ram, MemState.setRam_available, Multiset.add_cons, ← shrunk,
      Multiset.cons_add]
  · intro f outside
    refine PhysMem.setEntry_frame ?_
    rintro rfl
    exact outside (Multiset.mem_of_le owned_tree p.mem)
  · intro slots js e x q j insideJ
    have q₀ : TreePath s.ram H root js (e + 1) x := by
      refine q.mono fun y _ k b child => ?_
      by_cases at_slot : (y, k) = (t, i)
      · obtain ⟨rfl, rfl⟩ := Prod.mk.inj at_slot
        simp [gone] at child
      · rwa [MemState.setRam_ram, child_set_ne at_slot] at child
    by_cases at_slot : (x, j) = (t, i)
    · obtain ⟨rfl, rfl⟩ := Prod.mk.inj at_slot
      simp [SlotOk]
    · rw [MemState.setRam_ram, PhysMem.entry_setEntry_ne at_slot]
      exact slots _ _ _ q₀ j insideJ
  · exact PhysMem.entry_setEntry_ne (upper_ne (tree_nodup distinct) p inside kernel)

section Lift

variable (inside : i ∈ userFan (d + 1)) (link : s.ram.child t i = some c)
  (distinct : (owned (d + 1) t h s).Nodup)

include inside link

theorem owned_child : owned d c h s ≤ owned (d + 1) t h s := by
  have below : treeFrames s.ram d c ≤ treeFrames s.ram (d + 1) t :=
    Radix.Path.nodes_le (.cons inside link .nil)
  exact add_le_add (add_le_add below le_rfl) le_rfl

include distinct

theorem owned_child_nodup : (owned d c h s).Nodup :=
  Multiset.nodup_of_le (owned_child inside link) distinct

theorem parent_not_owned : t ∉ owned d c h s := by
  have tree := tree_nodup distinct
  have shape : owned (d + 1) t h s = treeFrames s.ram (d + 1) t + (s.available + h) :=
    add_assoc _ _ _
  rw [shape] at distinct
  have apart := (Multiset.nodup_add.mp distinct).2.2
  intro member
  rw [owned, add_assoc] at member
  rcases Multiset.mem_add.mp member with below | rest
  · exact Radix.root_fresh tree inside link below
  · exact Multiset.disjoint_left.mp apart (Radix.root_mem _ _) rest

/-- The frames of a sibling are not owned by the subtree. -/
theorem sibling_not_owned {j : Nat} {b f : PhysFrame} (insideJ : j ∈ userFan (d + 1))
    (other : j ≠ i)
    (linkJ : s.ram.child t j = some b) (member : f ∈ treeFrames s.ram d b) : f ∉ owned d c h s := by
  have tree := tree_nodup distinct
  have shape : owned (d + 1) t h s = treeFrames s.ram (d + 1) t + (s.available + h) :=
    add_assoc _ _ _
  rw [shape] at distinct
  have apart := (Multiset.nodup_add.mp distinct).2.2
  have below : f ∈ treeFrames s.ram (d + 1) t :=
    Multiset.mem_of_le (Radix.Path.nodes_le (.cons insideJ linkJ .nil)) member
  intro owns
  rw [owned, add_assoc] at owns
  rcases Multiset.mem_add.mp owns with sub | rest
  · exact Multiset.disjoint_left.mp
      (Radix.children_disjoint tree insideJ inside other linkJ link) member sub
  · exact Multiset.disjoint_left.mp apart below rest

/-- The frame rule: a step on the subtree of one slot is a step on the tree. -/
theorem Conserves.lift (sub : Conserves (fun js => P (i :: js)) d c h h' s s') :
    Conserves P (d + 1) t h h' s s' ∧ s'.ram t = s.ram t ∧
      ∀ j ∈ userFan (d + 1), j ≠ i → ∀ b, s.ram.child t j = some b →
        ∀ f ∈ treeFrames s.ram d b, s'.ram f = s.ram f := by
  have head : s'.ram t = s.ram t := sub.outside t (parent_not_owned inside link distinct)
  have siblings : ∀ j ∈ userFan (d + 1), j ≠ i → ∀ b, s.ram.child t j = some b →
      ∀ f ∈ treeFrames s.ram d b, s'.ram f = s.ram f := fun j hj other b hb f hf =>
    sub.outside f (sibling_not_owned inside link distinct hj other hb hf)
  have slot : s'.ram.child t = s.ram.child t := PhysMem.child_congr head
  have exchange : treeFrames s'.ram (d + 1) t + treeFrames s.ram d c =
      treeFrames s.ram (d + 1) t + treeFrames s'.ram d c :=
    Radix.nodes_exchange inside link slot fun j hj other b hb x hx =>
      PhysMem.child_congr (siblings j hj other b hb x (Multiset.mem_of_le (Radix.tables_le _ _) hx))
  refine ⟨⟨?_, ?_, ?_, fun _ j _ => by rw [PhysMem.entry_congr head], sub.cr3, sub.memoryMap⟩,
    head, siblings⟩
  · have ledger := sub.ledger
    simp only [owned] at ledger ⊢
    generalize treeFrames s'.ram (d + 1) t = tree', treeFrames s.ram (d + 1) t = tree,
      treeFrames s'.ram d c = below', treeFrames s.ram d c = below at exchange ledger ⊢
    have total : tree' + s'.available + h' + below = tree + s.available + h + below := by
      calc tree' + s'.available + h' + below
          = tree' + below + (s'.available + h') := by abel
        _ = tree + (below' + s'.available + h') := by rw [exchange]; abel
        _ = tree + s.available + h + below := by rw [ledger]; abel
    exact add_right_cancel total
  · exact fun f absent => sub.outside f
      fun member => absent (Multiset.mem_of_le (owned_child inside link) member)
  · -- a slot of the tree is in the root table, in the changed subtree, or in a sibling
    intro slots js e x q j insideJ
    cases q with
    | nil => rw [PhysMem.entry_congr head]; exact slots [] _ _ .nil j insideJ
    | @cons _ k _ b ks _ _ insideK linkK q' =>
        rw [slot] at linkK
        by_cases same : k = i
        · subst same
          obtain rfl := Option.some.inj (link.symm.trans linkK)
          exact sub.slots (slots.child insideK linkK) ks e x q' j insideJ
        · have keep : ∀ f ∈ treeTables s.ram d b, s'.ram f = s.ram f := fun f hf =>
            siblings k insideK same b linkK f (Multiset.mem_of_le (treeTables_le _ _ _) hf)
          exact slots_congr keep (slots.child insideK linkK) ks e x q' j insideJ

theorem Extends.lift (sub : Extends (fun js => P (i :: js)) d c h h' s s') :
    Extends P (d + 1) t h h' s s' ∧ s'.ram t = s.ram t := by
  obtain ⟨step, head, siblings⟩ := sub.toConserves.lift inside link distinct
  refine ⟨⟨step, fun js e x q => ?_, sub.spare⟩, head⟩
  have slot : s'.ram.child t = s.ram.child t := PhysMem.child_congr head
  cases q with
  | nil => exact .nil
  | @cons _ k _ b ks _ _ insideK linkK q' =>
      refine .cons insideK (by rw [slot, linkK]) ?_
      by_cases same : k = i
      · subst same
        obtain rfl := Option.some.inj (link.symm.trans linkK)
        exact sub.paths ks e x q'
      · exact path_congr (fun f hf => siblings k insideK same b linkK f
          (Multiset.mem_of_le (treeTables_le _ _ _) hf)) q'

end Lift

/-- The slots `is` are slots of the user half when they end at height `e + 1`. -/
def Fits : List Nat → Nat → Prop
  | [], _ => True
  | i :: is, e => i ∈ userFan (is.length + e + 1 + 1) ∧ Fits is e

theorem fits_append {is js : List Nat} :
    Fits (is ++ js) e ↔ Fits is (js.length + e) ∧ Fits js e := by
  induction is with
  | nil => simp [Fits]
  | cons i is ih =>
      have height : (is ++ js).length + e = is.length + (js.length + e) := by
        rw [List.length_append, Nat.add_assoc]
      simp only [List.cons_append, Fits, ih, height, and_assoc]

theorem fits_tableIndices {va : Nat} (lower : va < 2 ^ 47) : Fits (tableIndices va) 0 := by
  have pml4 : pml4Index va ∈ userFan 4 := by
    rw [mem_userFan, if_pos rfl, pml4Index]
    omega
  have pdpt : pdptIndex va ∈ userFan 3 := by
    rw [mem_userFan]
    exact Nat.mod_lt _ (by decide)
  have pd : pdIndex va ∈ userFan 2 := by
    rw [mem_userFan]
    exact Nat.mod_lt _ (by decide)
  exact ⟨pml4, pdpt, pd, trivial⟩

theorem ptIndex_fits (va : Nat) : ptIndex va ∈ userFan 1 := by
  rw [mem_userFan, ptIndex]
  exact Nat.mod_lt _ (by decide)

/-- A cleared frame in hand, linked into an absent slot. -/
theorem create_extends (distinct : (owned H root h s).Nodup)
    (p : TreePath s.ram H root is (d + 1) t)
    (inside : i ∈ userFan (d + 1)) (absent : (s.ram.entry t i).present = false)
    (present : fl.contains .PRESENT = true) (law : P (is ++ [i]) fl)
    (taken : allocateFrame s = .ok (some c) s') :
    Extends P H root h h s (s'.setRam ((s'.ram.zeroFrame c).setEntry t i ⟨c, fl⟩)) ∧
      TreePath ((s'.ram.zeroFrame c).setEntry t i ⟨c, fl⟩) H root (is ++ [i]) d c ∧
      NewPaths H root (is ++ [i]) s.ram ((s'.ram.zeroFrame c).setEntry t i ⟨c, fl⟩) := by
  have first : Extends P H root h (c ::ₘ h) s s' := allocateFrame_extends taken
  have inHand := first.nodup distinct
  obtain ⟨second, same⟩ := hand_extends (P := P) (s'.ram.zeroFrame c) inHand
    fun f hf => PhysMem.zeroFrame_frame hf
  have held := second.nodup inHand
  have p' := second.paths _ _ _ (first.paths _ _ _ p)
  have apart : t ≠ c := by
    rintro rfl
    exact hand_fresh held p'.mem
  have ram := allocateFrame_ram taken
  have kept : (s'.ram.zeroFrame c).entry t i = s.ram.entry t i := by
    rw [PhysMem.entry_zeroFrame_ne apart, ram]
  obtain ⟨third, linked, new⟩ := link_extends (P := P) held p' inside
    (by rw [MemState.setRam_ram, kept]; exact absent) present law
    (fun _ j => PhysMem.entry_zeroFrame)
  exact ⟨(first.trans second).trans third, linked, ram ▸ (same _).trans new⟩

/-- `ks` leads to one of the slots along `js`, counted from `is` on. -/
def Along : List Nat → List Nat → List Nat → Prop
  | _, [], _ => False
  | is, i :: js, ks => ks = is ++ [i] ∨ Along (is ++ [i]) js ks

theorem Along.longer {js ks ls : List Nat} :
    ∀ {is : List Nat}, Along is js ks → Along is (js ++ ls) ks := by
  induction js with
  | nil => exact fun impossible => impossible.elim
  | cons i js ih => exact fun along => along.imp id ih

theorem Along.length_le {js ks : List Nat} : ∀ {is : List Nat}, Along is js ks →
    ks.length ≤ is.length + js.length := by
  induction js with
  | nil => exact fun impossible => impossible.elim
  | cons i js ih =>
      rintro is (rfl | along)
      · simp
      · have bound := ih along
        simp only [List.length_append, List.length_cons, List.length_nil] at bound ⊢
        omega

/-- The law holds for what a walk from the slots `is` on along `js` may write. -/
def Allows (P : SlotLaw) (insert widen : PageTableFlags) (is js : List Nat) : Prop :=
  ∀ ks, Along is js ks → P ks insert ∧ ∀ f, P ks f → P ks (f ||| widen)

theorem Allows.here {insert widen : PageTableFlags} {js : List Nat}
    (law : Allows P insert widen is (i :: js)) :
    P (is ++ [i]) insert ∧ ∀ f, P (is ++ [i]) f → P (is ++ [i]) (f ||| widen) :=
  law _ (.inl rfl)

theorem Allows.below {insert widen : PageTableFlags} {js : List Nat}
    (law : Allows P insert widen is (i :: js)) : Allows P insert widen (is ++ [i]) js :=
  fun _ along => law _ (.inr along)

theorem Allows.initial {insert widen : PageTableFlags} {js ks : List Nat}
    (law : Allows P insert widen is (js ++ ks)) : Allows P insert widen is js :=
  fun _ along => law _ along.longer

/-- A walk that creates missing tables keeps the ledger, and arrives where the
    slots lead. -/
theorem Descent.extends {insert widen : PageTableFlags} {js : List Nat} {r : Option PhysFrame}
    (walk : Descent insert widen js t s r s') (present : insert.contains .PRESENT = true)
    (law : Allows P insert widen is js)
    (fits : Fits js e) (distinct : (owned H root h s).Nodup)
    (p : TreePath s.ram H root is (js.length + e + 1) t) :
    Extends P H root h h s s' ∧ (∀ x, r = some x → TreePath s'.ram H root (is ++ js) (e + 1) x) ∧
      NewPaths H root (is ++ js) s.ram s'.ram := by
  induction walk generalizing is with
  | arrived =>
      refine ⟨.refl, fun x same => ?_, .refl⟩
      obtain rfl := Option.some.inj same
      simpa using p
  | @kept js s r s' i t linked _ _ ih =>
      rw [List.length_cons, show js.length + 1 + e + 1 = js.length + e + 1 + 1 by omega] at p
      have q := p.snoc fits.1 (PageTableEntry.child_eq_some.mpr ⟨linked, rfl⟩)
      have rest := ih law.below fits.2 distinct q
      rw [List.append_cons]
      exact rest
  | @widened js r s' i t s linked _ _ ih =>
      rw [List.length_cons, show js.length + 1 + e + 1 = js.length + e + 1 + 1 by omega] at p
      obtain ⟨step, same⟩ := reflag_extends (P := P) distinct p fits.1 linked
        (PageTableFlags.contains_or_left widen linked) (law.here.2 _)
      have q := step.paths _ _ _ (p.snoc fits.1 (PageTableEntry.child_eq_some.mpr ⟨linked, rfl⟩))
      have rest := ih law.below fits.2 (step.nodup distinct) q
      rw [List.append_cons]
      exact ⟨step.trans rest.1, rest.2.1, (same _).trans rest.2.2⟩
  | @created s c s₁ js t i r s' absent taken _ ih =>
      rw [List.length_cons, show js.length + 1 + e + 1 = js.length + e + 1 + 1 by omega] at p
      obtain ⟨step, q, new⟩ := create_extends distinct p fits.1 absent present law.here.1 taken
      have rest := ih law.below fits.2 (step.nodup distinct) q
      rw [List.append_cons]
      exact ⟨step.trans rest.1, rest.2.1, new.longer.trans rest.2.2⟩
  | exhausted _ taken =>
      refine ⟨allocateFrame_none taken, (fun _ impossible => nomatch impossible), ?_⟩
      rw [allocateFrame_ram taken]
      exact .refl
  | huge => exact ⟨.refl, (fun _ impossible => nomatch impossible), .refl⟩
  | @hugeWidened i js t s linked _ =>
      rw [List.length_cons, show js.length + 1 + e + 1 = js.length + e + 1 + 1 by omega] at p
      obtain ⟨step, same⟩ := reflag_extends (P := P) distinct p fits.1 linked
        (PageTableFlags.contains_or_left widen linked) (law.here.2 _)
      exact ⟨step, (fun _ impossible => nomatch impossible), same _⟩

/-- Where there is no huge page, a walk gives up only when no frame is left, in
    front of a slot that is still absent. -/
theorem Descent.stops {insert widen : PageTableFlags} {js : List Nat} {r : Option PhysFrame}
    (walk : Descent insert widen js t s r s') (noHuge : NoHuge P)
    (present : insert.contains .PRESENT = true) (law : Allows P insert widen is js)
    (fits : Fits js e) (distinct : (owned H root h s).Nodup) (slots : Slots P s.ram H root)
    (p : TreePath s.ram H root is (js.length + e + 1) t) (stopped : r = none) :
    s'.available = 0 ∧ is ++ js ∉ treeRoutes s'.ram H root := by
  induction walk generalizing is with
  | arrived => cases stopped
  | @kept js s r s' i t linked _ _ ih =>
      rw [List.length_cons, show js.length + 1 + e + 1 = js.length + e + 1 + 1 by omega] at p
      have q := p.snoc fits.1 (PageTableEntry.child_eq_some.mpr ⟨linked, rfl⟩)
      rw [List.append_cons]
      exact ih law.below fits.2 distinct slots q stopped
  | @widened js r s' i t s linked _ _ ih =>
      rw [List.length_cons, show js.length + 1 + e + 1 = js.length + e + 1 + 1 by omega] at p
      obtain ⟨step, -⟩ := reflag_extends (P := P) distinct p fits.1 linked
        (PageTableFlags.contains_or_left widen linked) (law.here.2 _)
      have q := step.paths _ _ _ (p.snoc fits.1 (PageTableEntry.child_eq_some.mpr ⟨linked, rfl⟩))
      rw [List.append_cons]
      exact ih law.below fits.2 (step.nodup distinct) (step.slots slots) q stopped
  | @created s c s₁ js t i r s' absent taken _ ih =>
      rw [List.length_cons, show js.length + 1 + e + 1 = js.length + e + 1 + 1 by omega] at p
      obtain ⟨step, q, -⟩ := create_extends distinct p fits.1 absent present law.here.1 taken
      rw [List.append_cons]
      exact ih law.below fits.2 (step.nodup distinct) (step.slots slots) q stopped
  | @exhausted s s₁ i js t absent taken =>
      obtain ⟨s₂, r, run, -, -, -, -, available⟩ := allocateFrame_spec s
      obtain ⟨rfl, rfl⟩ := Outcome.ok.inj (run.symm.trans taken)
      refine ⟨available.2, fun member => ?_⟩
      rw [allocateFrame_ram taken] at member
      obtain ⟨f, x, q⟩ := mem_treeRoutes.mp member
      cases q.of_append p with
      | cons _ link _ =>
          have linked := (PageTableEntry.child_eq_some.mp link).1
          simp [absent] at linked
  | huge linked huge =>
      have here := slots _ (_ + e + 1) _
        (by simpa only [List.length_cons, Nat.add_right_comm] using p) _ fits.1
      simp [(here.small (noHuge _) linked).2] at huge
  | hugeWidened linked huge =>
      have here := slots _ (_ + e + 1) _
        (by simpa only [List.length_cons, Nat.add_right_comm] using p) _ fits.1
      simp [(here.small (noHuge _) linked).2] at huge

end FerriOS.Memory
