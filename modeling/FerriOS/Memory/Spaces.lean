import FerriOS.Memory.Ledger

/-! # Building, copying and releasing address spaces

A new address space is made of frames the allocator had left. Releasing it gives
them all back. An error on the way leaves the new tables behind, unlinked.
-/

namespace FerriOS.Memory

open FerriOS.Lib

variable {P : SlotLaw} {root : PhysFrame} {s s' : MemState} {d i : Nat}

/-- An empty address space: a frame that was available, with the kernel half of
    the table in CR3. -/
structure NewSpace (root : PhysFrame) (s s' : MemState) : Prop where
  available : s.available = root ::ₘ s'.available
  outside : ∀ f ≠ root, s'.ram f = s.ram f
  empty : ∀ i < 256, s'.ram.entry root i = .unused
  kernel : root ≠ s.cr3 → ∀ i, 256 ≤ i → i < 512 → s'.ram.entry root i = s.ram.entry s.cr3 i
  cr3 : s'.cr3 = s.cr3
  memoryMap : s'.frameAllocator.memoryMap = s.frameAllocator.memoryMap

/-- What a routine that builds an address space and fails leaves behind. -/
structure Abandoned (s s' : MemState) : Prop where
  available : s'.available ≤ s.available
  outside : ∀ f ∉ s.available, s'.ram f = s.ram f
  cr3 : s'.cr3 = s.cr3
  memoryMap : s'.frameAllocator.memoryMap = s.frameAllocator.memoryMap
  spare : ∀ f ∈ s'.available, s'.ram f = s.ram f

theorem Abandoned.refl : Abandoned s s := ⟨le_rfl, fun _ _ => rfl, rfl, rfl, fun _ _ => rfl⟩

/-- The loop of `setupKvm`: the kernel slots in `done` are copied. -/
private structure KernelCopied (root : PhysFrame) (s : MemState) (done : List Nat) (t : MemState) :
    Prop where
  available : s.available = root ::ₘ t.available
  outside : ∀ f ≠ root, t.ram f = s.ram f
  empty : ∀ i < 256, t.ram.entry root i = .unused
  copied : root ≠ s.cr3 → ∀ i ∈ done, t.ram.entry root i = s.ram.entry s.cr3 i
  cr3 : t.cr3 = s.cr3
  memoryMap : t.frameAllocator.memoryMap = s.frameAllocator.memoryMap

private theorem KernelCopied.snoc {done : List Nat} (copied : KernelCopied root s done s')
    (kernel : 256 ≤ i) : KernelCopied root s (done ++ [i])
      (s'.setRam (s'.ram.setEntry root i (s'.ram.entry s.cr3 i))) where
  available := copied.available
  outside f other := by
    rw [MemState.setRam_ram, PhysMem.setEntry_frame other, copied.outside f other]
  empty j user := by
    rw [MemState.setRam_ram, PhysMem.entry_setEntry_ne, copied.empty j user]
    rintro ⟨-, rfl⟩
    omega
  copied apart j member := by
    have source : s'.ram.entry s.cr3 = s.ram.entry s.cr3 :=
      PhysMem.entry_congr (copied.outside _ apart.symm)
    by_cases here : j = i
    · subst here
      rw [MemState.setRam_ram, PhysMem.entry_setEntry, source]
    · have old : j ∈ done := by simpa [here] using member
      rw [MemState.setRam_ram, PhysMem.entry_setEntry_ne, copied.copied apart j old]
      rintro ⟨-, rfl⟩
      exact here rfl
  cr3 := copied.cr3
  memoryMap := copied.memoryMap

theorem setupKvm_spec (s : MemState) :
    (setupKvm s).Sat False (fun root s' => NewSpace root s s')
      (fun _ s' => Abandoned s s' ∧ s.available = 0) := by
  obtain ⟨s₁, r, run, ram, cr3, memoryMap, -, available⟩ := allocateFrame_spec s
  rw [setupKvm, Prog.bind_ok run]
  have bounds : ∀ i, i ∈ List.range' PAGETABLE_KERNEL_SPACE_START
      (PAGETABLE_KERNEL_SPACE_END - PAGETABLE_KERNEL_SPACE_START) ↔ 256 ≤ i ∧ i < 512 :=
    fun i => List.mem_range'_1
  generalize List.range' PAGETABLE_KERNEL_SPACE_START
    (PAGETABLE_KERNEL_SPACE_END - PAGETABLE_KERNEL_SPACE_START) = slots at bounds ⊢
  cases r with
  | none =>
      simp only [Prog.okOr, Prog.fail_bind, Outcome.sat_err]
      refine ⟨⟨?_, fun f _ => by rw [ram], cr3, memoryMap, fun f _ => by rw [ram]⟩, available.1⟩
      rw [available.1, available.2]
  | some root =>
      simp only [Prog.okOr, Prog.pure_bind, Prog.bind_ok (writeRam_run _ _), Prog.get_bind]
      refine Outcome.Sat.bind (Q := fun _ t => NewSpace root s t) ?_ fun _ t new => new
      refine (Outcome.Sat.each (E := fun _ _ => False) (KernelCopied root s) slots
        (fun done i rest t split copied => ?_) ?_).mono id (fun _ t copied => ?_)
        fun _ _ impossible => impossible.elim
      · simp only [writeRam_run, Outcome.sat_ok, MemState.setRam_cr3, cr3]
        exact copied.snoc ((bounds i).mp (by simp [split])).1
      · refine ⟨available, fun f hf => ?_, fun i _ => PhysMem.entry_zeroFrame, by simp, cr3,
          memoryMap⟩
        rw [MemState.setRam_ram, PhysMem.zeroFrame_frame hf, ram]
      · exact ⟨copied.available, copied.outside, copied.empty, fun apart i low high =>
          copied.copied apart i ((bounds i).mpr ⟨low, high⟩), copied.cr3, copied.memoryMap⟩

/-- `newUvm` clears two slots of the user half that are clear already. -/
theorem newUvm_spec (s : MemState) :
    (newUvm s).Sat False (fun root s' => NewSpace root s s')
      (fun _ s' => Abandoned s s' ∧ s.available = 0) := by
  refine Outcome.Sat.bind (setupKvm_spec s) fun root t new => ?_
  have clear : ∀ {t : MemState} {slot : Nat}, slot < 256 → NewSpace root s t →
      NewSpace root s (t.setRam (t.ram.setEntry root slot .unused)) := by
    intro t slot user new
    refine ⟨new.available, fun f other => ?_, fun i inside => ?_, fun apart i low high => ?_,
      new.cr3,
      new.memoryMap⟩
    · rw [MemState.setRam_ram, PhysMem.setEntry_frame other, new.outside f other]
    · by_cases here : i = slot
      · subst here
        exact PhysMem.entry_setEntry
      · rw [MemState.setRam_ram, PhysMem.entry_setEntry_ne, new.empty i inside]
        rintro ⟨-, rfl⟩
        exact here rfl
    · rw [MemState.setRam_ram, PhysMem.entry_setEntry_ne, new.kernel apart i low high]
      rintro ⟨-, rfl⟩
      omega
  exact clear (by decide) (clear (by decide) new)

theorem mem_userSlots : i ∈ userSlots d ↔ i ∈ userFan d := by
  rw [userSlots, List.mem_range'_1, mem_userFan]
  simp only [PAGETABLE_USER_SPACE_START, PAGETABLE_USER_SPACE_END, Nat.zero_le, true_and,
    Nat.zero_add]

theorem userSlots_nodup : (userSlots d).Nodup := List.nodup_range'

/-- An address space built from frames that were available. -/
structure Built (P : SlotLaw) (root : PhysFrame) (s s' : MemState) : Prop where
  ledger : userFrames s'.ram root + s'.available = s.available
  outside : ∀ f ∉ s.available, s'.ram f = s.ram f
  slots : Slots P s'.ram 4 root
  kernel : root ≠ s.cr3 → ∀ i, 256 ≤ i → i < 512 → s'.ram.entry root i = s.ram.entry s.cr3 i
  cr3 : s'.cr3 = s.cr3
  memoryMap : s'.frameAllocator.memoryMap = s.frameAllocator.memoryMap
  spare : ∀ f ∈ s'.available, s'.ram f = s.ram f

namespace NewSpace

variable {t : MemState} {h : Multiset PhysFrame}

theorem empty_slots (new : NewSpace root s t) : ∀ i ∈ userFan 4, t.ram.entry root i = .unused :=
  fun i inside => new.empty i (mem_userFan.mp inside)

theorem tree (new : NewSpace root s t) : treeFrames t.ram 4 root = {root} :=
  Radix.nodes_empty 4 root fun i inside => by
    rw [PhysMem.child, new.empty_slots i inside, PageTableEntry.unused_child]

theorem owned_eq (new : NewSpace root s t) : owned 4 root h t = s.available + h := by
  rw [owned, new.tree, new.available, Multiset.singleton_add]

theorem frames (new : NewSpace root s t) :
    (treeRoutes t.ram 4 root).card + Multiset.card t.available = Multiset.card s.available := by
  rw [card_treeRoutes, new.tree, new.available, Multiset.card_cons, Multiset.card_singleton,
    Nat.add_comm]

theorem slots (new : NewSpace root s t) : Slots P t.ram 4 root := by
  intro is d x p i inside
  cases p with
  | nil => exact .inl (new.empty_slots i inside)
  | @cons _ j _ c is _ _ insideJ link p =>
      rw [PhysMem.child, new.empty_slots j insideJ, PageTableEntry.unused_child] at link
      cases link

theorem outside_extend {h' : Multiset PhysFrame} (new : NewSpace root s t)
    (step : Extends P 4 root 0 h' t s') : ∀ f ∉ s.available, s'.ram f = s.ram f := by
  intro f absent
  have owns : f ∉ owned 4 root 0 t := by rwa [new.owned_eq, add_zero]
  have other : f ≠ root := by
    rintro rfl
    exact absent (by simp [new.available])
  rw [step.outside f owns, new.outside f other]

theorem spare_extend {h' : Multiset PhysFrame} (new : NewSpace root s t)
    (distinct : s.available.Nodup)
    (step : Extends P 4 root 0 h' t s') : ∀ f ∈ s'.available, s'.ram f = s.ram f := by
  intro f left
  obtain ⟨there, same⟩ := step.spare f left
  rw [new.available] at distinct
  rw [same, new.outside f]
  rintro rfl
  exact (Multiset.nodup_cons.mp distinct).1 there

theorem extend (new : NewSpace root s t) (distinct : s.available.Nodup)
    (step : Extends P 4 root 0 0 t s') :
    Built P root s s' where
  ledger := by
    have ledger := step.ledger
    rwa [new.owned_eq, add_zero, owned, add_zero] at ledger
  outside := new.outside_extend step
  slots := step.slots new.slots
  kernel apart i low high := by
    have upper : i ∉ userFan 4 := by
      rw [mem_userFan, if_pos rfl]
      omega
    rw [step.upper (by decide) i upper, new.kernel apart i low high]
  cr3 := step.cr3.trans new.cr3
  memoryMap := step.memoryMap.trans new.memoryMap
  spare := new.spare_extend distinct step

theorem abandon (new : NewSpace root s t) (distinct : s.available.Nodup)
    (step : Extends P 4 root 0 h t s') :
    Abandoned s s' where
  available := by
    have ledger := step.ledger
    rw [new.owned_eq, add_zero, owned] at ledger
    rw [← ledger, add_right_comm]
    exact Multiset.le_add_left _ _
  outside := new.outside_extend step
  cr3 := step.cr3.trans new.cr3
  memoryMap := step.memoryMap.trans new.memoryMap
  spare := new.spare_extend distinct step

end NewSpace

/-- Releasing what is below a table gives it all back to the allocator. -/
theorem freeLevel_spec (d : Nat) : ∀ {P : SlotLaw} {table : PhysFrame} {h : Multiset PhysFrame}
    {s : MemState}, NoHuge P → (owned d table h s).Nodup → Slots P s.ram d table →
    (freeLevel d table s).Sat False
      (fun _ s' => Conserves P d table h h s s' ∧ treeFrames s'.ram d table = {table})
      (fun _ _ => False) := by
  induction d with
  | zero => exact fun _ _ _ => ⟨.refl, rfl⟩
  | succ d ih =>
      intro P table h s noHuge distinct slots
      refine (Outcome.Sat.each (fun done t => Conserves P (d + 1) table h h s t ∧
          ∀ j ∈ done, t.ram.child table j = none) (userSlots (d + 1))
        (fun done i rest s₁ split ⟨step, emptied⟩ => ?_) ⟨.refl, by simp⟩).mono id
        (fun _ _ ⟨step, emptied⟩ => ⟨step, ?_⟩) fun _ _ impossible => impossible
      · have inside : i ∈ userFan (d + 1) := mem_userSlots.mp (by simp [split])
        have distinct₁ := step.nodup distinct
        simp only [Prog.get_bind]
        by_cases linked : (s₁.ram.entry table i).present = true
        · have slots₁ := step.slots slots
          have small := ((slots₁ [] d table .nil i inside).small (noHuge _) linked).2
          have link : s₁.ram.child table i = some (s₁.ram.entry table i).addr :=
            PageTableEntry.child_eq_some.mpr ⟨linked, rfl⟩
          simp only [linked, if_true, Prog.bind_ok (frameFromEntry_run linked small _)]
          refine Outcome.Sat.bind (ih (P := fun js => P (i :: js)) (fun js => noHuge _)
            (owned_child_nodup inside link distinct₁) (slots₁.child inside link))
            fun _ s₂ ⟨sub, single⟩ => ?_
          obtain ⟨whole, head, -⟩ := sub.lift inside link distinct₁
          have done₂ := step.trans whole
          -- the slot of the emptied table still names it
          rw [← PhysMem.entry_congr head] at linked single ⊢
          have unlinked := unlink_conserves (P := P)
            (done₂.nodup distinct) .nil inside linked single
          refine ⟨(done₂.trans unlinked).trans (deallocateFrame_conserves rfl), fun j member => ?_⟩
          by_cases here : j = i
          · subst here
            exact PageTableEntry.child_eq_none.mpr (by simp)
          · have old : j ∈ done := by simpa [here] using member
            have other : ((s₂.ram.setEntry table i .unused).child table j) = s₂.ram.child table j := by
              rw [PhysMem.child, PhysMem.entry_setEntry_ne fun same => here (Prod.mk.inj same).2,
                PhysMem.child]
            refine other.trans ?_
            rw [PhysMem.child_congr head, emptied j old]
        · simp only [linked, Bool.false_eq_true, if_false]
          refine ⟨step, fun j member => ?_⟩
          rcases List.mem_append.mp member with old | new
          · exact emptied j old
          · obtain rfl := List.mem_singleton.mp new
            exact PageTableEntry.child_eq_none.mpr (by simpa using linked)
      · exact Radix.nodes_empty (d + 1) table fun j inside => emptied j (mem_userSlots.mpr inside)

/-- What releasing an address space gives back: every frame of its user half. -/
structure Released (root : PhysFrame) (s s' : MemState) : Prop where
  available : s'.available = userFrames s.ram root + s.available
  outside : ∀ f ∉ userFrames s.ram root + s.available, s'.ram f = s.ram f
  cr3 : s'.cr3 = s.cr3
  memoryMap : s'.frameAllocator.memoryMap = s.frameAllocator.memoryMap

theorem freeUvm_spec (noHuge : NoHuge P) (distinct : (userFrames s.ram root + s.available).Nodup)
    (slots : Slots P s.ram 4 root) :
    (freeUvm root s).Sat False (fun _ s' => Released root s s') (fun _ _ => False) := by
  have whole : owned 4 root 0 s = userFrames s.ram root + s.available := add_zero _
  refine Outcome.Sat.bind (freeLevel_spec 4 (h := 0) noHuge (whole ▸ distinct) slots)
    fun _ t ⟨step, single⟩ => ?_
  have ledger := step.ledger
  rw [whole, owned, single, add_zero, Multiset.singleton_add] at ledger
  exact ⟨ledger, fun f absent => step.outside f (whole ▸ absent), step.cr3, step.memoryMap⟩

end FerriOS.Memory
