import FerriOS.Memory.FaithfulCopy
import FerriOS.Memory.Growth

/-! # Releasing an address space

`free_uvm` hands every frame of the user half to the deallocator, the pages and the
tables below a table before the table. It reads a slot before it clears it, so it needs
no more than that the frames are distinct.
-/

namespace FerriOS.Memory

open FerriOS.Lib

variable {ram : PhysMem} {root table c : PhysFrame} {frames more : Multiset PhysFrame}
  {s s' s'' : MemState} {d i : Nat}

/-- The frames have been handed to the deallocator, each as often as it is counted, and
    nothing else has happened to the allocator. -/
def HandedBack (frames : Multiset PhysFrame) (s s' : MemState) : Prop :=
  s'.cr3 = s.cr3 ∧ ∃ freed : List PhysFrame, (freed : Multiset PhysFrame) = frames ∧
    s'.frameAllocator = { s.frameAllocator with recycledFrames := freed ++ s.frameAllocator.recycledFrames }

namespace HandedBack

theorem refl : HandedBack 0 s s := ⟨rfl, [], rfl, rfl⟩

theorem trans (first : HandedBack frames s s') (second : HandedBack more s' s'') :
    HandedBack (frames + more) s s'' := by
  obtain ⟨cr3, freed, rfl, allocator⟩ := first
  obtain ⟨cr3', freed', rfl, allocator'⟩ := second
  refine ⟨cr3'.trans cr3, freed' ++ freed, ?_, ?_⟩
  · rw [add_comm, Multiset.coe_add]
  · rw [allocator', allocator, List.append_assoc]

theorem available (back : HandedBack frames s s') : s'.available = frames + s.available := by
  obtain ⟨-, freed, rfl, allocator⟩ := back
  rw [MemState.available, allocator, MemState.available, BootInfoFrameAllocator.available,
    BootInfoFrameAllocator.available, List.append_assoc, ← Multiset.coe_add]
  rfl

end HandedBack

theorem deallocateFrame_handedBack (given : deallocateFrame c s = .ok () s') (ram : PhysMem) :
    HandedBack {c} s (s'.setRam ram) := by
  obtain ⟨-, rfl⟩ := Outcome.ok.inj given
  exact ⟨rfl, [c], rfl, rfl⟩

/-- The frames below a slot. -/
def belowSlot (ram : PhysMem) (d : Nat) (table : PhysFrame) (i : Nat) : Multiset PhysFrame :=
  (ram.child table i).elim 0 (treeFrames ram d)

theorem treeFrames_slots (ram : PhysMem) (d : Nat) (table : PhysFrame) :
    treeFrames ram (d + 1) table = table ::ₘ
      ((userSlots (d + 1)).map (belowSlot ram d table)).sum := by
  have slots : userFan (d + 1) = (userSlots (d + 1)).toFinset := by
    ext i
    rw [List.mem_toFinset, mem_userSlots]
  rw [treeFrames, Radix.nodes, slots, List.sum_toFinset _ userSlots_nodup]
  rfl

/-- What has been released of a table, up to the slots `done`. -/
structure ReleasedUpTo (d : Nat) (table : PhysFrame) (s : MemState) (done : List Nat)
    (s' : MemState) : Prop where
  back : HandedBack (done.map (belowSlot s.ram d table)).sum s s'
  outside : ∀ f ∉ treeTables s.ram (d + 1) table, s'.ram f = s.ram f
  slots : ∀ i ∉ done, s'.ram.entry table i = s.ram.entry table i
  later : ∀ i ∉ done, i ∈ userFan (d + 1) → ∀ f ∈ belowSlot s.ram d table i, s'.ram f = s.ram f

namespace ReleasedUpTo

variable {done : List Nat}

theorem nil : ReleasedUpTo d table s [] s :=
    ⟨.refl, fun _ _ => rfl, fun _ _ => rfl, fun _ _ _ _ _ => rfl⟩

theorem absent (released : ReleasedUpTo d table s done s')
    (empty : (s.ram.entry table i).present = false) :
    ReleasedUpTo d table s (done ++ [i]) s' where
  back := by
    have nothing : belowSlot s.ram d table i = 0 := by
      rw [belowSlot, PhysMem.child, PageTableEntry.child_eq_none.mpr empty, Option.elim_none]
    rw [List.map_append, List.sum_append, List.map_singleton, List.sum_singleton, nothing, add_zero]
    exact released.back
  outside := released.outside
  slots j missing := released.slots j fun member => missing (List.mem_append_left _ member)
  later j missing := released.later j fun member => missing (List.mem_append_left _ member)

/-- One more slot: what is below it, its table, and the slot itself. -/
theorem snoc (released : ReleasedUpTo d table s done s')
    (distinct : (treeFrames s.ram (d + 1) table).Nodup)
    (inside : i ∈ userFan (d + 1)) (link : s.ram.child table i = some c)
    (back : HandedBack frames s' s'') (whole : c ::ₘ frames = treeFrames s.ram d c)
    (outside : ∀ f ∉ treeTables s.ram d c, s''.ram f = s'.ram f) (t : MemState)
    (given : deallocateFrame c s'' = .ok () t) :
    ReleasedUpTo d table s (done ++ [i]) (t.setRam (t.ram.setEntry table i .unused)) := by
  have below : belowSlot s.ram d table i = treeFrames s.ram d c := by rw
    [belowSlot, link, Option.elim_some]
  have ram : t.ram = s''.ram := by
    obtain ⟨-, rfl⟩ := Outcome.ok.inj given
    rfl
  have fresh : ∀ {j b}, j ∈ userFan (d + 1) → s.ram.child table j = some b →
    ∀ f ∈ treeFrames s.ram d b, f ≠ table := by
    rintro j b insideJ linkJ f member rfl
    exact Radix.root_fresh distinct insideJ linkJ member
  have head : s''.ram table = s'.ram table := by
    refine outside table fun member => ?_
    exact fresh inside link table (Multiset.mem_of_le (treeTables_le _ _ _) member) rfl
  refine ⟨?_, fun f other => ?_, fun j missing => ?_, fun j missing insideJ f member => ?_⟩
  · rw [List.map_append, List.sum_append, List.map_singleton, List.sum_singleton, below, ← whole,
      ← Multiset.singleton_add,
      add_comm ({c} : Multiset PhysFrame)]
    exact released.back.trans (back.trans (deallocateFrame_handedBack given _))
  · have notTable : f ≠ table := by
      rintro rfl
      exact other (Multiset.mem_cons_self _ _)
    have notBelow : f ∉ treeTables s.ram d c := fun member => other (Multiset.mem_cons_of_mem
      (Multiset.mem_sum.mpr ⟨i, inside, by rwa [link, Option.elim_some]⟩))
    rw [MemState.setRam_ram, PhysMem.setEntry_frame notTable, ram, outside f notBelow,
      released.outside f other]
  · have apart : j ≠ i := fun same =>
      missing (List.mem_append_right _ (same ▸ List.mem_singleton_self i))
    rw [MemState.setRam_ram, PhysMem.entry_setEntry_ne fun same => apart (Prod.mk.inj same).2, ram,
      PhysMem.entry_congr head]
    exact released.slots j fun member => missing (List.mem_append_left _ member)
  · have apart : j ≠ i := fun same =>
      missing (List.mem_append_right _ (same ▸ List.mem_singleton_self i))
    have old := released.later j
      (fun member => missing (List.mem_append_left _ member)) insideJ f member
    cases linkJ : s.ram.child table j with
    | none =>
        rw [belowSlot, linkJ, Option.elim_none] at member
        exact absurd member (Multiset.notMem_zero f)
    | some b =>
        rw [belowSlot, linkJ, Option.elim_some] at member
        have disjoint := Multiset.disjoint_left.mp
          (Radix.children_disjoint distinct insideJ inside apart linkJ link) member
        rw [MemState.setRam_ram, PhysMem.setEntry_frame (fresh insideJ linkJ f member), ram, ← old]
        exact outside f fun inTables => disjoint (Multiset.mem_of_le (treeTables_le _ _ _) inTables)

end ReleasedUpTo

/-- Everything below a table is handed back, and only slots of its tables are cleared. -/
theorem freeLevel_handsBack (d : Nat) :
    ∀ {P : SlotLaw} {table : PhysFrame} {s : MemState}, NoHuge P →
    (treeFrames s.ram d table).Nodup → Linked P s.ram d table →
    (freeLevel d table s).Sat False
      (fun _ s' => ∃ frames, table ::ₘ frames = treeFrames s.ram d table ∧ HandedBack frames s s' ∧
        (∀ f ∉ treeTables s.ram d table, s'.ram f = s.ram f) ∧
        (d ≠ 0 → ∀ i ∉ userFan d, s'.ram.entry table i = s.ram.entry table i))
      (fun _ _ => False) := by
  induction d with
  | zero => exact fun _ _ _ => ⟨0, rfl, .refl, fun _ _ => rfl, fun tall => absurd rfl tall⟩
  | succ d ih =>
      intro P table s noHuge distinct linked
      refine (Outcome.Sat.each (ReleasedUpTo d table s) (userSlots (d + 1))
        (fun done i rest s₁ split released => ?_) .nil).mono
        id (fun _ s' released =>
          ⟨_, (treeFrames_slots s.ram d table).symm, released.back, released.outside,
          fun _ i outside => released.slots i fun member => outside (mem_userSlots.mp member)⟩)
        fun _ _ impossible => impossible
      have inside : i ∈ userFan (d + 1) := mem_userSlots.mp (by simp [split])
      have later : i ∉ done := by
        have once := userSlots_nodup (d := d + 1)
        rw [split] at once
        exact fun member => (List.nodup_append.mp once).2.2 i member i List.mem_cons_self rfl
      have slot := released.slots i later
      simp only [Prog.get_bind, slot]
      by_cases present : (s.ram.entry table i).present = true
      · have link : s.ram.child table i = some (s.ram.entry table i).addr :=
          PageTableEntry.child_eq_some.mpr ⟨present, rfl⟩
        have small : (s.ram.entry table i).huge = false :=
          noHuge _ _ (linked [] d table .nil i inside present)
        have unchanged : ∀ f ∈ treeFrames s.ram d (s.ram.entry table i).addr, s₁.ram f = s.ram f :=
          fun f member =>
          released.later i later inside f (by rwa [belowSlot, link, Option.elim_some])
        have tables : ∀ f ∈ treeTables s.ram d (s.ram.entry table i).addr, s₁.ram f = s.ram f :=
          fun f member => unchanged f (Multiset.mem_of_le (treeTables_le _ _ _) member)
        have tree : treeFrames s₁.ram d (s.ram.entry table i).addr = treeFrames s.ram d
          (s.ram.entry table i).addr :=
          treeFrames_congr fun f member => PhysMem.child_congr (tables f member)
        have inner : treeTables s₁.ram d (s.ram.entry table i).addr = treeTables s.ram d
          (s.ram.entry table i).addr :=
          Radix.tables_congr d _ fun f member => PhysMem.child_congr (tables f member)
        simp only [present, if_true, Prog.bind_ok (frameFromEntry_run present small _)]
        refine Outcome.Sat.bind (ih (P := fun js => P (i :: js)) (fun js => noHuge _)
          (by rw [tree]; exact Radix.child_nodup distinct inside link)
            (linked_congr tables (linked.child inside link)))
          fun _ s₂ sub => ?_
        obtain ⟨frames, whole, back, outside, -⟩ := sub
        rw [tree] at whole
        rw [inner] at outside
        exact released.snoc distinct inside link back whole outside _ rfl
      · simp only [present, Bool.false_eq_true, if_false]
        exact released.absent (by simpa using present)

/-- The flags of a slot are not those of a huge page. -/
abbrev SmallPages : SlotLaw := fun _ flags => flags.contains .HUGE_PAGE = false

/-- `free_uvm` has released what the user half of a table is made of, and nothing else. -/
structure FreedExactly (root : PhysFrame) (s s' : MemState) : Prop where
  handed : HandedBack (userFrames s.ram root) s s'
  /-- Only tables of the user half are written. -/
  outside : ∀ f ∉ treeTables s.ram 4 root, s'.ram f = s.ram f
  upper : ∀ i, 256 ≤ i → s'.ram.entry root i = s.ram.entry root i

theorem freeUvm_handsBack (distinct : (userFrames s.ram root).Nodup)
    (small : Linked SmallPages s.ram 4 root) :
    ∃ s', freeUvm root s = .ok () s' ∧ FreedExactly root s s' := by
  obtain ⟨_, t, run, frames, whole, back, outside, upper⟩ :=
    (freeLevel_handsBack 4 (fun _ _ small => small) distinct small).total
  have given : deallocateFrame root t = .ok () _ := rfl
  refine ⟨_, (Prog.bind_ok run).trans given, ⟨?_, outside, fun i high => upper (by decide) i ?_⟩⟩
  · rw [userFrames, ← whole, ← Multiset.singleton_add, add_comm]
    exact back.trans (deallocateFrame_handedBack given t.ram)
  · rw [mem_userFan, if_pos rfl]
    omega

/-- Releasing an address space returns every frame of its user half to the allocator, each
    of them once, and no other; after a copy the allocator is as full as before it. -/
theorem freeUvm_exact :
    (∀ root s, (userFrames s.ram root).Nodup → Linked SmallPages s.ram 4 root →
      ∃ s', freeUvm root s = .ok () s' ∧ FreedExactly root s s') ∧
    ∀ parent child s s', s.available.Nodup → (∀ f ∈ userFrames s.ram parent, f ∉ s.available) →
      Linked SmallPages s.ram 4 parent → copyUvm parent s = .ok child s' →
      ∃ s'', freeUvm child s' = .ok () s'' ∧ s''.available = s.available := by
  refine ⟨fun root s => freeUvm_handsBack, fun parent child s s' distinct apart small copied => ?_⟩
  obtain ⟨built, -⟩ := (copyUvm_spec (P := SmallPages)
    (fun _ _ law => law) distinct small apart).of_ok copied
  have fresh : (userFrames s'.ram child).Nodup := by
    rw [← built.ledger] at distinct
    exact (Multiset.nodup_add.mp distinct).1
  obtain ⟨s'', released, freed⟩ := freeUvm_handsBack fresh built.slots.linked
  exact ⟨s'', released, freed.handed.available.trans built.ledger⟩

/-- Four tables with two pages, the frames 5 and 6, at the first addresses. -/
def twoPages : PhysMem := fun f off =>
  if f.toNat = 0 ∨ 4 < f.toNat then 0
  else if off = 0 then 7
  else if off = 1 then UInt8.ofNat (16 * (f.toNat + 1))
  else if f.toNat = 4 ∧ off = 8 then 7
  else if f.toNat = 4 ∧ off = 9 then 0x60
  else 0

theorem twoPages_entry (f : PhysFrame) (i : Nat) :
    twoPages.entry f i = if (0 < f.toNat ∧ f.toNat ≤ 4) ∧ i = 0 then ⟨f + 1, tableFlags⟩
      else if f.toNat = 4 ∧ i = 1 then ⟨6, tableFlags⟩ else .unused := by
  split
  case isTrue here =>
    obtain ⟨⟨positive, small⟩, rfl⟩ := here
    obtain rfl | rfl | rfl | rfl : f = 1 ∨ f = 2 ∨ f = 3 ∨ f = 4 := by bv_omega
    all_goals decide
  case isFalse notFirst =>
    split
    case isTrue here =>
      obtain ⟨last, rfl⟩ := here
      obtain rfl : f = 4 := by bv_omega
      decide
    case isFalse notSecond =>
      have zero : leWord (fun k => twoPages f (8 * i + k)) = leWord fun _ => 0 := by
        refine leWord_congr fun k small => ?_
        by_cases outside : f.toNat = 0 ∨ 4 < f.toNat
        · exact if_pos outside
        · rw [twoPages, if_neg outside, if_neg (by omega), if_neg (by omega), if_neg (by omega),
            if_neg (by omega)]
      rw [PhysMem.entry, zero]
      decide

theorem twoPages_child (f : PhysFrame) (i : Nat) :
    twoPages.child f i = if (0 < f.toNat ∧ f.toNat ≤ 4) ∧ i = 0 then some (f + 1)
      else if f.toNat = 4 ∧ i = 1 then some 6 else none := by
  rw [PhysMem.child, twoPages_entry]
  split
  · exact PageTableEntry.child_eq_some.mpr ⟨tableFlags_present, rfl⟩
  · split
    · exact PageTableEntry.child_eq_some.mpr ⟨tableFlags_present, rfl⟩
    · rfl

theorem twoPages_small (f : PhysFrame) (i : Nat) : (twoPages.entry f i).huge = false := by
  rw [twoPages_entry]
  split
  · exact tableFlags_small
  · split
    · exact tableFlags_small
    · rfl

theorem twoPages_frames : userFrames twoPages 1 = {1, 2, 3, 4, 5, 6} := by
  have inside : ∀ d, 0 ∈ userFan d := fun d => by
    rw [mem_userFan]
    split <;> decide
  have link : ∀ f : PhysFrame, 0 < f.toNat ∧ f.toNat < 4 → twoPages.child f 0 = some (f + 1) :=
    fun f here => (twoPages_child f 0).trans (if_pos ⟨⟨here.1, here.2.le⟩, rfl⟩)
  have others : ∀ f : PhysFrame, f.toNat < 4 → ∀ j, j ≠ 0 → twoPages.child f j = none := by
    intro f small j other
    rw [twoPages_child, if_neg (fun here => other here.2), if_neg (by omega)]
  have pages : treeFrames twoPages 1 4 = {4, 5, 6} := by
    have two : ∑ i ∈ userFan 1, (twoPages.child 4 i).elim 0 (treeFrames twoPages 0) =
        ∑ i ∈ ({0, 1} : Finset Nat), (twoPages.child 4 i).elim 0 (treeFrames twoPages 0) := by
      have slots : ({0, 1} : Finset Nat) ⊆ userFan 1 := fun i member => by
        rw [Finset.mem_insert, Finset.mem_singleton] at member
        rw [mem_userFan, if_neg (by decide)]
        omega
      refine (Finset.sum_subset slots fun i _ outside => ?_).symm
      have none : twoPages.child 4 i = none := by
        simp only [Finset.mem_insert, Finset.mem_singleton, not_or] at outside
        rw [twoPages_child, if_neg (fun here => outside.1 here.2), if_neg fun here =>
          outside.2 here.2]
      rw [none, Option.elim_none]
    have first : twoPages.child 4 0 = some 5 := twoPages_child 4 0
    have second : twoPages.child 4 1 = some 6 := twoPages_child 4 1
    refine (congrArg (Multiset.cons 4) two).trans ?_
    rw [Finset.sum_pair Nat.zero_ne_one, first, second]
    rfl
  rw [userFrames, treeFrames_single (d := 3) (inside _) (link 1 (by decide)) (others 1 (by decide)),
    treeFrames_single (inside _) (link _ (by decide)) (others _ (by decide)),
    treeFrames_single (inside _) (link _ (by decide)) (others _ (by decide))]
  change (1 ::ₘ 2 ::ₘ 3 ::ₘ treeFrames twoPages 1 4) = _
  rw [pages]
  rfl

theorem twoPages_distinct : (userFrames twoPages 1).Nodup := by
  rw [twoPages_frames]
  exact Multiset.coe_nodup.mpr (by decide)

/-- As many frames are free as the tree has. -/
def spareMemory : MemState := ⟨twoPages, ⟨[], 0, [7, 8, 9, 10, 11, 12]⟩, 0⟩

theorem spareMemory_small : Linked SmallPages spareMemory.ram 4 1 :=
    fun _ _ t _ i _ _ => twoPages_small t i

theorem spareMemory_apart : ∀ f ∈ userFrames spareMemory.ram 1, f ∉ spareMemory.available := by
  intro f inTree free
  have tree : f ∈ [(1 : PhysFrame), 2, 3, 4, 5, 6] := by
    have member := inTree
    rw [show userFrames spareMemory.ram 1 = {1, 2, 3, 4, 5, 6} from twoPages_frames] at member
    exact member
  have recycled : f ∈ [(7 : PhysFrame), 8, 9, 10, 11, 12] := free
  simp only [List.mem_cons, List.not_mem_nil, or_false] at tree recycled
  bv_omega

theorem copyUvm_runs (distinct : s.available.Nodup)
    (apart : ∀ f ∈ userFrames s.ram root, f ∉ s.available)
    (small : Linked SmallPages s.ram 4 root)
    (enough : Multiset.card (userFrames s.ram root) ≤ Multiset.card s.available) :
    ∃ child s', copyUvm root s = .ok child s' := by
  obtain ⟨child, s', copied, -⟩ :=
    ((copyUvm_spec (P := SmallPages) (fun _ _ law => law) distinct small apart).mono id
    (fun _ _ built => built) fun _ _ failed => absurd failed.2 (not_lt.mpr enough)).total
  exact ⟨child, s', copied⟩

/-- Four tables and two pages are released, and a copy of them, for which the frames are
    just enough. -/
theorem freeUvm_exact_spare : (∃ s', freeUvm 1 spareMemory = .ok () s' ∧
    FreedExactly 1 spareMemory s') ∧
    ∃ child s' s'', copyUvm 1 spareMemory = .ok child s' ∧ freeUvm child s' = .ok () s'' ∧
      s''.available = spareMemory.available := by
  have free : spareMemory.available.Nodup := Multiset.coe_nodup.mpr (by decide)
  refine ⟨freeUvm_exact.1 1 spareMemory twoPages_distinct spareMemory_small, ?_⟩
  have enough : Multiset.card (userFrames spareMemory.ram 1) ≤
      Multiset.card spareMemory.available := by
    rw [show userFrames spareMemory.ram 1 = {1, 2, 3, 4, 5, 6} from twoPages_frames]
    rfl
  obtain ⟨child, s', copied⟩ := copyUvm_runs free spareMemory_apart spareMemory_small enough
  obtain ⟨s'', released, restored⟩ :=
    freeUvm_exact.2 1 child spareMemory s' free spareMemory_apart spareMemory_small copied
  exact ⟨child, s', s'', copied, released, restored⟩

end FerriOS.Memory
