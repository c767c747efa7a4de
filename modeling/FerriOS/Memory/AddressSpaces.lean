import FerriOS.Memory.Copying

/-! # Many address spaces in one memory

The page tables in the slots of a table of roots, with the frames the allocator
has left, make up one ledger. As long as no frame occurs in it twice, a routine
that works on one address space leaves the others alone.
-/

namespace FerriOS.Memory

open FerriOS.Lib

variable {n i j : Nat} {roots : Nat → Option PhysFrame} {s s' : MemState} {root f : PhysFrame}
  {P : SlotLaw}

/-- The frames of the address space in slot `i`. -/
def spaceAt (roots : Nat → Option PhysFrame) (ram : PhysMem) (i : Nat) : Multiset PhysFrame :=
  (roots i).elim 0 (userFrames ram)

/-- The frames of all address spaces. -/
def spaces (n : Nat) (roots : Nat → Option PhysFrame) (ram : PhysMem) : Multiset PhysFrame :=
  ∑ i ∈ Finset.range n, spaceAt roots ram i

/-- The frames of all address spaces, and those still to be handed out. -/
def ledger (n : Nat) (roots : Nat → Option PhysFrame) (s : MemState) : Multiset PhysFrame :=
  spaces n roots s.ram + s.available

/-- No frame is used twice, and every address space obeys the law. -/
structure Separate (P : SlotLaw) (n : Nat) (roots : Nat → Option PhysFrame) (s : MemState) :
    Prop where
  distinct : (ledger n roots s).Nodup
  slots : ∀ i < n, ∀ f, roots i = some f → Slots P s.ram 4 f

theorem spaceAt_some {ram : PhysMem} (here : roots i = some root) :
    spaceAt roots ram i = userFrames ram root := by
  rw [spaceAt, here, Option.elim_some]

theorem spaceAt_none {ram : PhysMem} (here : roots i = none) : spaceAt roots ram i = 0 := by
  rw [spaceAt, here, Option.elim_none]

theorem spaceAt_le (inside : i < n) (ram : PhysMem) : spaceAt roots ram i ≤ spaces n roots ram :=
  Finset.single_le_sum (f := spaceAt roots ram) (fun _ _ => Multiset.zero_le _)
    (Finset.mem_range.mpr inside)

theorem spaces_split (inside : i < n) (ram : PhysMem) : spaces n roots ram =
    spaceAt roots ram i + ∑ j ∈ (Finset.range n).erase i, spaceAt roots ram j :=
  (Finset.add_sum_erase _ _ (Finset.mem_range.mpr inside)).symm

/-- The frames that slot `j` shares with nothing of slot `i` and the allocator. -/
theorem Separate.apart (sep : Separate P n roots s) (insideI : i < n) (insideJ : j < n)
    (other : j ≠ i)
    (member : f ∈ spaceAt roots s.ram j) : f ∉ spaceAt roots s.ram i + s.available := by
  have distinct := sep.distinct
  rw [ledger, spaces_split insideJ, add_assoc] at distinct
  have disjoint := (Multiset.nodup_add.mp distinct).2.2
  refine fun shared => Multiset.disjoint_left.mp disjoint member ?_
  rcases Multiset.mem_add.mp shared with inI | left
  · refine Multiset.mem_add.mpr (.inl (Multiset.mem_of_le ?_ inI))
    exact Finset.single_le_sum (f := spaceAt roots s.ram) (fun _ _ => Multiset.zero_le _)
      (Finset.mem_erase.mpr ⟨other.symm, Finset.mem_range.mpr insideI⟩)
  · exact Multiset.mem_add.mpr (.inr left)

theorem Separate.apart_available (sep : Separate P n roots s) (inside : j < n)
    (member : f ∈ spaceAt roots s.ram j) : f ∉ s.available := by
  have distinct := sep.distinct
  rw [ledger] at distinct
  exact fun left => Multiset.disjoint_left.mp (Multiset.nodup_add.mp distinct).2.2
    (Multiset.mem_of_le (spaceAt_le inside _) member) left

theorem Separate.available_nodup (sep : Separate P n roots s) : s.available.Nodup :=
  (Multiset.nodup_add.mp sep.distinct).2.1

theorem Separate.owned_nodup (sep : Separate P n roots s) (inside : i < n)
    (here : roots i = some root) :
    (owned 4 root 0 s).Nodup := by
  have part : spaceAt roots s.ram i + s.available ≤ ledger n roots s :=
    add_le_add (spaceAt_le inside _) le_rfl
  rw [spaceAt_some here] at part
  rw [owned, add_zero]
  exact Multiset.nodup_of_le part sep.distinct

theorem Separate.root_mem (here : roots i = some root) : root ∈ spaceAt roots s.ram i := by
  rw [spaceAt_some here]
  exact Radix.root_mem 4 root

theorem Separate.root_ne (sep : Separate P n roots s) (insideI : i < n) (insideJ : j < n)
    (other : j ≠ i)
    (hereI : roots i = some root) (hereJ : roots j = some f) : f ≠ root := by
  rintro rfl
  exact sep.apart insideI insideJ other (Separate.root_mem hereJ)
    (Multiset.mem_add.mpr (.inl (Separate.root_mem hereI)))

theorem spaceAt_congr {roots' : Nat → Option PhysFrame} (entry : roots' j = roots j)
    (kept : ∀ f ∈ spaceAt roots s.ram j, s'.ram f = s.ram f) :
    spaceAt roots' s'.ram j = spaceAt roots s.ram j := by
  rw [spaceAt, entry]
  cases here : roots j with
  | none => rw [spaceAt_none here, Option.elim_none]
  | some root =>
      rw [spaceAt_some here] at kept ⊢
      exact treeFrames_congr fun f hf =>
        PhysMem.child_congr (kept f (Multiset.mem_of_le (treeTables_le _ _ _) hf))

/-- A routine that writes the frames of slot `i` and the allocator's moves frames
    between these two only. -/
theorem Separate.ledger_split {roots' : Nat → Option PhysFrame} (sep : Separate P n roots s)
    (inside : i < n)
    (entries : ∀ j ≠ i, roots' j = roots j)
    (outside : ∀ f ∉ spaceAt roots s.ram i + s.available, s'.ram f = s.ram f) :
    ∃ rest, ledger n roots' s' = spaceAt roots' s'.ram i + s'.available + rest ∧
      ledger n roots s = spaceAt roots s.ram i + s.available + rest := by
  have others : ∑ j ∈ (Finset.range n).erase i, spaceAt roots' s'.ram j =
      ∑ j ∈ (Finset.range n).erase i, spaceAt roots s.ram j := by
    refine Finset.sum_congr rfl fun j member => ?_
    obtain ⟨other, insideJ⟩ := Finset.mem_erase.mp member
    exact spaceAt_congr (entries j other) fun f hf =>
      outside f (sep.apart inside (Finset.mem_range.mp insideJ) other hf)
  refine ⟨_, ?_, by rw [ledger, spaces_split inside, add_right_comm]⟩
  rw [ledger, spaces_split inside, others, add_right_comm]

/-- Slot `i` was changed by a routine that writes its frames and the allocator's. -/
theorem Separate.change {roots' : Nat → Option PhysFrame} (sep : Separate P n roots s)
    (inside : i < n)
    (entries : ∀ j ≠ i, roots' j = roots j)
    (outside : ∀ f ∉ spaceAt roots s.ram i + s.available, s'.ram f = s.ram f)
    (ledgerI : spaceAt roots' s'.ram i + s'.available ≤ spaceAt roots s.ram i + s.available)
    (slotsI : ∀ f, roots' i = some f → Slots P s'.ram 4 f) : Separate P n roots' s' where
  distinct := by
    obtain ⟨rest, after, before⟩ := sep.ledger_split inside entries outside
    refine Multiset.nodup_of_le ?_ sep.distinct
    rw [after, before]
    exact add_le_add ledgerI le_rfl
  slots j insideJ f here := by
    by_cases other : j = i
    · subst other
      exact slotsI f here
    · rw [entries j other] at here
      refine slots_congr (fun g hg => outside g (sep.apart inside insideJ other ?_))
        (sep.slots j insideJ f here)
      rw [spaceAt_some here]
      exact Multiset.mem_of_le (treeTables_le _ _ _) hg

theorem Separate.conserve (sep : Separate P n roots s) (inside : i < n) (here : roots i = some root)
    (step : Conserves P 4 root 0 0 s s') : Separate P n roots s' := by
  have shape : ∀ s : MemState, owned 4 root 0 s = spaceAt roots s.ram i + s.available := fun s => by
    rw [owned, add_zero, spaceAt_some here]
  refine sep.change inside (fun _ _ => rfl)
    (fun f absent => step.outside f (shape s ▸ absent)) ?_ ?_
  · rw [← shape, ← shape, step.ledger]
  · rintro f same
    obtain rfl := Option.some.inj (here.symm.trans same)
    exact step.slots (sep.slots i inside root here)

theorem Separate.abandon (sep : Separate P n roots s) (lost : Abandoned s s') :
    Separate P n roots s' where
  distinct := by
    refine Multiset.nodup_of_le (add_le_add (le_of_eq ?_) lost.available) sep.distinct
    refine Finset.sum_congr rfl fun j member => spaceAt_congr rfl fun f hf => ?_
    exact lost.outside f (sep.apart_available (Finset.mem_range.mp member) hf)
  slots j inside f here := by
    refine slots_congr (fun g hg => lost.outside g (sep.apart_available inside ?_))
      (sep.slots j inside f here)
    rw [spaceAt_some here]
    exact Multiset.mem_of_le (treeTables_le _ _ _) hg

/-- An address space that was built takes the place of the one in slot `i`. -/
theorem Separate.build (sep : Separate P n roots s) (inside : i < n) (built : Built P root s s') :
    Separate P n (Function.update roots i (some root)) s' := by
  have here : Function.update roots i (some root) i = some root := Function.update_self ..
  refine sep.change inside (fun j other => Function.update_of_ne other ..)
    (fun f absent => ?_) ?_ ?_
  · exact built.outside f fun left => absent (Multiset.mem_add.mpr (.inr left))
  · rw [spaceAt_some here, built.ledger]
    exact Multiset.le_add_left _ _
  · rintro f same
    obtain rfl := Option.some.inj (here.symm.trans same)
    exact built.slots

/-- The address space in slot `i` was released. -/
theorem Separate.release (sep : Separate P n roots s) (inside : i < n) (here : roots i = some root)
    (freed : Released root s s') : Separate P n (Function.update roots i none) s' := by
  have gone : Function.update roots i none i = none := Function.update_self ..
  refine sep.change inside (fun j other => Function.update_of_ne other ..)
    (fun f absent => ?_) ?_ ?_
  · exact freed.outside f (spaceAt_some here ▸ absent)
  · rw [spaceAt_none gone, zero_add, freed.available, spaceAt_some here]
  · rintro f same
    cases gone.symm.trans same

/-! The routines on the slots lose no frame. -/

theorem Separate.ledger_conserve (sep : Separate P n roots s) (inside : i < n)
    (here : roots i = some root)
    (step : Conserves P 4 root 0 0 s s') : ledger n roots s' = ledger n roots s := by
  have shape : ∀ s : MemState, owned 4 root 0 s = spaceAt roots s.ram i + s.available := fun s => by
    rw [owned, add_zero, spaceAt_some here]
  obtain ⟨rest, after, before⟩ :=
    sep.ledger_split inside (fun _ _ => rfl) fun f absent => step.outside f (shape s ▸ absent)
  rw [after, before, ← shape, ← shape, step.ledger]

theorem Separate.ledger_build (sep : Separate P n roots s) (inside : i < n)
    (vacant : roots i = none)
    (built : Built P root s s') :
    ledger n (Function.update roots i (some root)) s' = ledger n roots s := by
  have entries : ∀ j ≠ i, Function.update roots i (some root) j = roots j :=
    fun j other => Function.update_of_ne other ..
  obtain ⟨rest, after, before⟩ := sep.ledger_split inside entries
    fun f absent => built.outside f fun left => absent (Multiset.mem_add.mpr (.inr left))
  rw [after, before, spaceAt_some (Function.update_self ..), spaceAt_none vacant, zero_add,
    built.ledger]

theorem Separate.ledger_release (sep : Separate P n roots s) (inside : i < n)
    (here : roots i = some root)
    (freed : Released root s s') :
    ledger n (Function.update roots i none) s' = ledger n roots s := by
  have entries : ∀ j ≠ i, Function.update roots i none j = roots j :=
    fun j other => Function.update_of_ne other ..
  obtain ⟨rest, after, before⟩ :=
    sep.ledger_split inside entries fun f absent => freed.outside f (spaceAt_some here ▸ absent)
  rw [after, before, spaceAt_none (Function.update_self ..), zero_add, freed.available,
    spaceAt_some here]

end FerriOS.Memory
