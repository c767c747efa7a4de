import FerriOS.Memory.Copying
import FerriOS.Memory.UserView

/-! # The copy of an address space

A copy looks like the original, and neither side sees what the other one writes.
-/

namespace FerriOS.Memory

open FerriOS.Lib

variable {s s' : MemState} {ram₀ ram : PhysMem} {is : List Nat} {d : Nat} {parent child : PhysFrame}

theorem Mirrors.flagsAlong (mirrors : Mirrors ram₀ ram d parent child) (fits : FitsFrom d is) :
    flagsAlong ram child is = flagsAlong ram₀ parent is := by
  induction is generalizing d parent child with
  | nil => rfl
  | cons i is ih =>
      cases d with
      | zero => exact fits.elim
      | succ d =>
          obtain ⟨present, below⟩ := mirrors i fits.1
          rw [Memory.flagsAlong, Memory.flagsAlong, present]
          split
          case isTrue linked => rw [(below linked).1, ih (below linked).2 fits.2]
          case isFalse => rfl

/-- Both trees have the same bytes in the same pages. -/
theorem Mirrors.pages (mirrors : Mirrors ram₀ ram d parent child) (fits : FitsFrom d is)
    (whole : is.length = d) :
    (follow ram child is).map ram = (follow ram₀ parent is).map ram₀ := by
  induction is generalizing d parent child with
  | nil =>
      obtain rfl : 0 = d := whole
      exact congrArg some mirrors
  | cons i is ih =>
      cases d with
      | zero => exact fits.elim
      | succ d =>
          obtain ⟨present, below⟩ := mirrors i fits.1
          rw [follow, follow, PhysMem.child, PhysMem.child, PageTableEntry.child,
            PageTableEntry.child, present]
          split
          case isTrue linked =>
            rw [Option.bind_some, Option.bind_some]
            exact ih (below linked).2 fits.2 (Nat.succ.inj whole)
          case isFalse => rw [Option.bind_none, Option.bind_none, Option.map_none, Option.map_none]

/-- The address space below `child` is a copy of the one below `parent`, made between
    two states. -/
structure FaithfulCopy (parent child : PhysFrame) (s s' : MemState) : Prop where
  /-- The same slots are present, with the same flags. -/
  flags : ∀ va < 2 ^ 47, flagsOf s'.ram child va = flagsOf s.ram parent va
  /-- The same pages are mapped, with the same bytes. -/
  contents : ∀ va < 2 ^ 47, (pageOf s'.ram child va).map s'.ram = (pageOf s.ram parent va).map s.ram
  /-- The frames of the copy were taken from the allocator, each of them once. -/
  fresh : userFrames s'.ram child + s'.available = s.available
  distinct : (userFrames s'.ram child).Nodup
  apart : ∀ f ∈ userFrames s'.ram child, f ∉ userFrames s.ram parent
  /-- The tables and pages of the parent are as they were. -/
  unmodified : ∀ f ∈ userFrames s.ram parent, s'.ram f = s.ram f
  /-- Neither side sees what the other one writes. -/
  childWrites : ∀ writes : List (Nat × UInt8), (∀ w ∈ writes, w.1 < 2 ^ 47) → ∀ va < 2 ^ 47,
    userLoad parent (userStores child writes s') va = userLoad parent s' va
  parentWrites : ∀ writes : List (Nat × UInt8), (∀ w ∈ writes, w.1 < 2 ^ 47) → ∀ va < 2 ^ 47,
    userLoad child (userStores parent writes s') va = userLoad child s' va

/-- `copy_uvm` makes a copy of an address space without huge pages, whose frames are
    its own. -/
theorem copyUvm_faithful (exclusive : (userFrames s.ram parent + s.available).Nodup)
    (small : Linked (fun _ flags => flags.contains .HUGE_PAGE = false) s.ram 4 parent)
    (copied : copyUvm parent s = .ok child s') : FaithfulCopy parent child s s' := by
  obtain ⟨-, available, disjoint⟩ := Multiset.nodup_add.mp exclusive
  have apart : ∀ f ∈ userFrames s.ram parent, f ∉ s.available :=
    fun f => Multiset.disjoint_left.mp disjoint
  obtain ⟨built, mirrors⟩ := (copyUvm_spec (fun _ _ law => law) available small apart).of_ok copied
  have taken : ∀ f ∈ userFrames s'.ram child, f ∈ s.available := fun f member => by
    rw [← built.ledger]
    exact Multiset.mem_add.mpr (.inl member)
  have split := available
  rw [← built.ledger] at split
  have unmodified : ∀ f ∈ userFrames s.ram parent, s'.ram f = s.ram f :=
    fun f member => built.outside f (apart f member)
  have same : treeFrames s'.ram 4 parent = treeFrames s.ram 4 parent :=
    treeFrames_congr fun f member =>
      PhysMem.child_congr (unmodified f (Multiset.mem_of_le (treeTables_le _ _ _) member))
  have ownedChild : owned 4 child 0 s' = s.available := by rw [owned, add_zero, built.ledger]
  refine ⟨fun va lower => mirrors.flagsAlong (pageIndices_fits lower),
    fun va lower => mirrors.pages (pageIndices_fits lower) rfl, built.ledger,
      (Multiset.nodup_add.mp split).1,
    fun f member inParent => apart f inParent (taken f member), unmodified,
    fun writes lowers va lower => ?_, fun writes lowers va lower => ?_⟩
  · refine userStores_unseen lowers (ownedChild ▸ available) (fun f member => ?_) lower
    rw [userFrames, same] at member
    rw [ownedChild]
    exact apart f member
  · have left : s'.available ≤ s.available := built.ledger ▸ Multiset.le_add_left _ _
    refine userStores_unseen lowers ?_ (fun f member => ?_) lower
    · rw [owned, add_zero, same]
      exact Multiset.nodup_of_le (add_le_add le_rfl left) exclusive
    · rw [owned, add_zero, same, Multiset.mem_add, not_or]
      exact ⟨fun inParent => apart f inParent (taken f member),
        Multiset.disjoint_left.mp (Multiset.nodup_add.mp split).2.2 member⟩

end FerriOS.Memory
