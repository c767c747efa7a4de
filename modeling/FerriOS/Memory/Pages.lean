import FerriOS.Memory.UserView

/-! # What stays in the pages

Mapping a page writes tables, and frames that it takes from the allocator. The bytes
of the pages stay, so a program sees the new page, which is zero, and nothing else
that is new.
-/

namespace FerriOS.Memory

open FerriOS.Lib

variable {P : SlotLaw} {H : Nat} {root t x c : PhysFrame} {h : Multiset PhysFrame}
  {s s' s'' : MemState}
  {ram : PhysMem} {is js : List Nat} {d e i va a : Nat} {insert widen : PageTableFlags}

/-- The pages of the tree and the frames in hand are as they were. -/
def Spares (H : Nat) (root : PhysFrame) (h : Multiset PhysFrame) (s s' : MemState) : Prop :=
  ∀ x, (x ∈ h ∨ ∃ is, TreePath s.ram H root is 0 x) → s'.ram x = s.ram x

theorem Spares.refl : Spares H root h s s := fun _ _ => rfl

theorem Spares.trans (first : Spares H root h s s') (step : Extends P H root h h s s')
    (second : Spares H root h s' s'') : Spares H root h s s'' := by
  intro x here
  rw [second x (here.imp id fun ⟨is, p⟩ => ⟨is, step.paths _ _ _ p⟩), first x here]

theorem table_apart (distinct : (owned H root h s).Nodup) (p : TreePath s.ram H root is (d + 1) t)
    (here : x ∈ h ∨ ∃ js, TreePath s.ram H root js 0 x) : x ≠ t := by
  rintro rfl
  rcases here with inHand | ⟨js, q⟩
  · obtain ⟨-, -, apart⟩ := Multiset.nodup_add.mp distinct
    exact Multiset.disjoint_left.mp apart (Multiset.mem_add.mpr (.inl p.mem)) inHand
  · obtain ⟨-, height⟩ := Radix.Path.unique (tree_nodup distinct) p q
    omega

theorem available_apart (distinct : (owned H root h s).Nodup) (free : c ∈ s.available)
    (here : x ∈ h ∨ ∃ js, TreePath s.ram H root js 0 x) : x ≠ c := by
  rintro rfl
  obtain ⟨both, -, apart⟩ := Multiset.nodup_add.mp distinct
  rcases here with inHand | ⟨js, q⟩
  · exact Multiset.disjoint_left.mp apart (Multiset.mem_add.mpr (.inr free)) inHand
  · exact Multiset.disjoint_left.mp (Multiset.nodup_add.mp both).2.2 q.mem free

theorem setEntry_spares {entry : PageTableEntry} (distinct : (owned H root h s).Nodup)
    (p : TreePath s.ram H root is (d + 1) t) :
    Spares H root h s (s.setRam (s.ram.setEntry t i entry)) :=
  fun _ here => PhysMem.setEntry_frame (table_apart distinct p here)

/-- A walk that creates missing tables spares the pages. -/
theorem Descent.spares {r : Option PhysFrame} (walk : Descent insert widen js t s r s')
    (present : insert.contains .PRESENT = true) (fits : Fits js e)
    (distinct : (owned H root h s).Nodup)
    (p : TreePath s.ram H root is (js.length + e + 1) t) : Spares H root h s s' := by
  induction walk generalizing is with
  | arrived => exact .refl
  | @kept js s r s' i t linked _ _ ih =>
      rw [List.length_cons, show js.length + 1 + e + 1 = js.length + e + 1 + 1 by omega] at p
      exact ih fits.2 distinct (p.snoc fits.1 (PageTableEntry.child_eq_some.mpr ⟨linked, rfl⟩))
  | @widened js r s' i t s linked _ _ ih =>
      rw [List.length_cons, show js.length + 1 + e + 1 = js.length + e + 1 + 1 by omega] at p
      obtain ⟨step, -⟩ := reflag_extends (P := Lawless) distinct p fits.1 linked
        (PageTableFlags.contains_or_left widen linked) fun _ => trivial
      have q := step.paths _ _ _ (p.snoc fits.1 (PageTableEntry.child_eq_some.mpr ⟨linked, rfl⟩))
      exact (setEntry_spares distinct p).trans step (ih fits.2 (step.nodup distinct) q)
  | @created s c s₁ js t i r s' absent taken _ ih =>
      rw [List.length_cons, show js.length + 1 + e + 1 = js.length + e + 1 + 1 by omega] at p
      obtain ⟨step, q, -⟩ := create_extends
        (P := Lawless) distinct p fits.1 absent present trivial taken
      refine Spares.trans (fun x here => ?_) step (ih fits.2 (step.nodup distinct) q)
      rw [MemState.setRam_ram, PhysMem.setEntry_frame (table_apart distinct p here),
        PhysMem.zeroFrame_frame (available_apart distinct (allocateFrame_free taken) here),
          allocateFrame_ram taken]
  | exhausted _ taken => exact fun x _ => by rw [allocateFrame_ram taken]
  | huge => exact .refl
  | @hugeWidened i js t s linked _ =>
      rw [List.length_cons, show js.length + 1 + e + 1 = js.length + e + 1 + 1 by omega] at p
      exact setEntry_spares distinct p

/-- Mapping a page spares the other pages, and the new page is zero. -/
theorem mapPage_contents (mapper : Mapper) {flags : PageTableFlags}
    (present : flags.contains .PRESENT = true)
    (small : flags.contains .HUGE_PAGE = false) (lower : va < 2 ^ 47)
    (distinct : (owned 4 root h s).Nodup)
    (mapped : mapPage mapper root va flags s = .ok () s') :
    Spares 4 root h s s' ∧ ∃ c, TreePath s'.ram 4 root (pageIndices va) 0 c ∧ s'.ram c = fun _ =>
      0 := by
  have upper : (flags &&& tableFlags).contains .PRESENT = true :=
    PageTableFlags.contains_and present tableFlags_present
  obtain ⟨s₁, r, run, -⟩ := allocateFrame_spec s
  rw [mapPage, Prog.bind_ok run] at mapped
  cases r with
  | none => cases mapped
  | some c =>
      have first : Extends Lawless 4 root h (c ::ₘ h) s s₁ := allocateFrame_extends run
      obtain ⟨clear, -⟩ := hand_extends (P := Lawless) (s₁.ram.zeroFrame c)
        (first.nodup distinct) fun f hf => PhysMem.zeroFrame_frame hf
      have second := first.trans clear
      have held := second.nodup distinct
      simp only [Prog.okOr, writeRam_run, Prog.bind_run, Prog.attempt, Prog.pure_run] at mapped
      have spec := mapper.mapTo_spec root va c flags (s₁.setRam (s₁.ram.zeroFrame c)) present small
      cases outcome : mapper.mapTo root va c flags (s₁.setRam (s₁.ram.zeroFrame c)) with
      | err message s₂ => simp [outcome] at mapped
      | panic message => simp [outcome] at mapped
      | ok value s₂ =>
          rw [outcome] at spec
          obtain ⟨pt, s₃, walk, unused, rfl⟩ := spec
          simp only [outcome, Prog.pure_run, Outcome.ok.injEq, true_and] at mapped
          subst mapped
          have tables : Allows Lawless (flags &&& tableFlags) (flags &&& tableFlags) []
            (tableIndices va) :=
            fun _ _ => ⟨trivial, fun _ _ => trivial⟩
          obtain ⟨third, arrived, -⟩ :=
            walk.extends (H := 4) upper tables (fits_tableIndices lower) held .nil
          have spared : Spares 4 root (c ::ₘ h) (s₁.setRam (s₁.ram.zeroFrame c)) s₃ :=
            walk.spares upper (fits_tableIndices lower) held .nil
          have p := arrived pt rfl
          have held' := third.nodup held
          obtain ⟨-, page, -⟩ := page_extends (P := Lawless) held' p
            (PageTableEntry.present_of_isUnused unused) present trivial
          have last : ∀ x, (x ∈ c ::ₘ h ∨ ∃ is, TreePath s₃.ram 4 root is 0 x) →
              s₃.ram.setEntry pt (ptIndex va) ⟨c, flags⟩ x = s₃.ram x := setEntry_spares held' p
          refine ⟨fun x here => ?_, c, page, ?_⟩
          · have here₁ : x ∈ c ::ₘ h ∨ ∃ is, TreePath (s₁.ram.zeroFrame c) 4 root is 0 x :=
              here.imp (Multiset.mem_cons_of_mem) (Exists.imp fun is q => second.paths _ _ _ q)
            have other : x ≠ c := available_apart distinct (allocateFrame_free run) here
            rw [MemState.setRam_ram,
              last x (here₁.imp id (Exists.imp fun is q => third.paths _ _ _ q)),
              spared x here₁, MemState.setRam_ram, PhysMem.zeroFrame_frame other,
                allocateFrame_ram run]
          · have inHand : c ∈ c ::ₘ h := Multiset.mem_cons_self c h
            rw [MemState.setRam_ram, last c (.inl inHand), spared c (.inl inHand),
              MemState.setRam_ram]
            funext off
            exact if_pos rfl

/-- Two addresses of one page lead along the same slots. -/
theorem pageIndices_congr {b : Nat} (same : a / PAGE_SIZE = b / PAGE_SIZE) :
    pageIndices a = pageIndices b := by
  simp only [PAGE_SIZE] at same
  have pml4 : pml4Index a = pml4Index b := by
    simp only [pml4Index]
    omega
  have pdpt : pdptIndex a = pdptIndex b := by
    simp only [pdptIndex]
    omega
  have pd : pdIndex a = pdIndex b := by
    simp only [pdIndex]
    omega
  have pt : ptIndex a = ptIndex b := by
    simp only [ptIndex]
    omega
  rw [pageIndices, pageIndices, tableIndices, tableIndices, pml4, pdpt, pd, pt]

theorem pageMapped_pageOf (lower : a < 2 ^ 47) :
    PageMapped s.ram root a ↔ pageOf s.ram root a ≠ none := by
  rw [Option.ne_none_iff_exists', PageMapped]
  exact exists_congr fun x => (pageOf_path lower).symm

theorem pageOf_kept (lower : a < 2 ^ 47)
    (paths : ∀ is e x, TreePath s.ram 4 root is e x → TreePath s'.ram 4 root is e x)
    (back : PageMapped s'.ram root a → PageMapped s.ram root a) :
    pageOf s'.ram root a = pageOf s.ram root a := by
  cases old : pageOf s.ram root a with
  | some x => exact (pageOf_path lower).mpr (paths _ _ _ ((pageOf_path lower).mp old))
  | none =>
      by_contra mapped
      exact (pageMapped_pageOf lower).mp (back ((pageMapped_pageOf lower).mpr mapped)) old

theorem userLoad_spared (lower : a < 2 ^ 47) (spared : Spares 4 root h s s')
    (page : pageOf s'.ram root a = pageOf s.ram root a) :
    userLoad root s' a = userLoad root s a := by
  rw [userLoad, userLoad, page]
  cases found : pageOf s.ram root a with
  | none => rfl
  | some x => rw [Option.map_some, Option.map_some,
      spared x (.inr ⟨_, (pageOf_path lower).mp found⟩)]

/-- A program sees a page that was mapped as zeros, and the rest as before. -/
theorem mapPage_view (mapper : Mapper) {flags : PageTableFlags} (lawful : MapOk P flags va)
    (lower : va < 2 ^ 47)
    (distinct : (owned 4 root h s).Nodup) (slots : Slots P s.ram 4 root)
    (mapped : mapPage mapper root va flags s = .ok () s') (lowerA : a < 2 ^ 47) :
    (a / PAGE_SIZE = va / PAGE_SIZE → userLoad root s a = none ∧ userLoad root s' a = some 0) ∧
      (a / PAGE_SIZE ≠ va / PAGE_SIZE → userLoad root s' a = userLoad root s a) := by
  obtain ⟨grown, -⟩ := (mapPage_spec mapper lawful lower distinct slots).of_ok mapped
  obtain ⟨spared, c, page, zero⟩ :=
    mapPage_contents mapper lawful.present lawful.small lower distinct mapped
  refine ⟨fun same => ⟨?_, ?_⟩, fun other => ?_⟩
  · have unmapped : pageOf s.ram root a = none := by
      by_contra there
      have old := (pageMapped_pageOf lowerA).mpr there
      rw [PageMapped, pageIndices_congr same] at old
      exact grown.fresh old
    rw [userLoad, unmapped, Option.map_none]
  · have there : pageOf s'.ram root a = some c := by
      rw [pageOf_path lowerA, pageIndices_congr same]
      exact page
    rw [userLoad, there, Option.map_some, zero]
  · refine userLoad_spared lowerA spared (pageOf_kept lowerA grown.paths fun mapped => ?_)
    obtain ⟨x, p⟩ := mapped
    rcases grown.only _ _ _ p with old | initial
    · exact ⟨x, old⟩
    · have same := initial.eq_of_length (by simp [pageIndices, tableIndices])
      exact absurd (pageIndices_injective lowerA lower same) other

theorem reflag_view {pt : PhysFrame} {flags : PageTableFlags} (distinct : (owned 4 root h s).Nodup)
    (p : TreePath s.ram 4 root (tableIndices va) 1 pt)
    (linked : (s.ram.entry pt (ptIndex va)).present = true)
    (lowerA : a < 2 ^ 47) :
    userLoad root (s.setRam (s.ram.setEntry pt (ptIndex va)
      ⟨(s.ram.entry pt (ptIndex va)).addr,
        (s.ram.entry pt (ptIndex va)).flags ||| flags⟩)) a = userLoad root s a := by
  obtain ⟨step, same⟩ := reflag_extends (P := Lawless) distinct p (ptIndex_fits va) linked
    (PageTableFlags.contains_or_left flags linked) fun _ => trivial
  refine userLoad_spared lowerA (setEntry_spares distinct p)
    (pageOf_kept lowerA step.paths fun ⟨x, q⟩ => ⟨x, ?_⟩)
  exact (same [] _ _ _ q).resolve_right
    fun initial => by simp [pageIndices, tableIndices] at initial

/-- The pages of a page table are different frames, and none is a table. -/
structure LeavesApart (ram : PhysMem) (root : PhysFrame) : Prop where
  pages : ∀ a < 2 ^ 47, ∀ b < 2 ^ 47, ∀ x, pageOf ram root a = some x → pageOf ram root b = some x →
    a / PAGE_SIZE = b / PAGE_SIZE
  tables : ∀ a < 2 ^ 47, ∀ x, pageOf ram root a = some x → x ∉ treeTables ram 4 root

theorem leavesApart (distinct : (owned 4 root h s).Nodup) : LeavesApart s.ram root where
  pages a lowerA b lowerB x pageA pageB := by
    have indices := (Radix.Path.unique (tree_nodup distinct) ((pageOf_path lowerA).mp pageA)
      ((pageOf_path lowerB).mp pageB)).1
    exact pageIndices_injective lowerA lowerB indices
  tables a lowerA x page member := by
    obtain ⟨js, e, q⟩ := Radix.mem_tables.mp member
    exact table_apart distinct q (.inr ⟨_, (pageOf_path lowerA).mp page⟩) rfl

namespace LeavesApart

theorem tables_kept {page : PhysFrame} {start : Nat} {bytes : List UInt8}
    (apart : LeavesApart ram root)
    (lower : va < 2 ^ 47) (here : pageOf ram root va = some page) :
    ∀ f ∈ treeTables ram 4 root, ram.writeBytes page start bytes f = ram f := by
  intro f member
  refine PhysMem.writeBytes_frame ?_
  rintro rfl
  exact apart.tables va lower f here member

theorem congr {ram' : PhysMem} (apart : LeavesApart ram root)
    (same : ∀ f ∈ treeTables ram 4 root, ram' f = ram f) :
    LeavesApart ram' root where
  pages a lowerA b lowerB x pageA pageB := by
    rw [pageOf_leafEntry, leafEntry_congr lowerA same, ← pageOf_leafEntry] at pageA
    rw [pageOf_leafEntry, leafEntry_congr lowerB same, ← pageOf_leafEntry] at pageB
    exact apart.pages a lowerA b lowerB x pageA pageB
  tables a lowerA x page := by
    rw [pageOf_leafEntry, leafEntry_congr lowerA same, ← pageOf_leafEntry] at page
    rw [treeTables, Radix.tables_congr 4 root fun f member => PhysMem.child_congr (same f member)]
    exact apart.tables a lowerA x page

/-- A program sees the bytes that were stored in one of its pages. -/
theorem store_view {page : PhysFrame} {bytes : List UInt8} (apart : LeavesApart s.ram root)
    (lower : va < 2 ^ 47)
    (there : pageOf s.ram root va = some page) (fits : va % PAGE_SIZE + bytes.length ≤ PAGE_SIZE)
    (lowerA : a < 2 ^ 47) :
    userLoad root (s.setRam (s.ram.writeBytes page (pageOffset va) bytes)) a =
      if va ≤ a ∧ a < va + bytes.length then bytes[a - va]? else userLoad root s a := by
  have same : pageOf (s.ram.writeBytes page
    (pageOffset va) bytes) root a = pageOf s.ram root a := by
    rw [pageOf_leafEntry, leafEntry_congr lowerA (apart.tables_kept lower there),
      ← pageOf_leafEntry]
  rw [userLoad, userLoad, MemState.setRam_ram, same]
  by_cases here : a / PAGE_SIZE = va / PAGE_SIZE
  · have found : pageOf s.ram root a = some page := by
      rw [pageOf, pageIndices_congr here]
      exact there
    have place : (pageOffset va ≤ pageOffset a ∧ pageOffset a < pageOffset va + bytes.length) ↔
        va ≤ a ∧ a < va + bytes.length := by
      simp only [pageOffset, PAGE_SIZE] at here fits ⊢
      omega
    rw [found, Option.map_some, Option.map_some, PhysMem.writeBytes]
    simp only [true_and, place]
    split
    case isTrue inside =>
      have offset : pageOffset a - pageOffset va = a - va := by
        simp only [pageOffset, PAGE_SIZE] at here ⊢
        omega
      rw [offset, List.getElem?_eq_getElem (by omega), List.getD_eq_getElem _ _ (by omega)]
    case isFalse => rfl
  · have outside : ¬ (va ≤ a ∧ a < va + bytes.length) := by
      simp only [PAGE_SIZE] at here fits
      omega
    rw [if_neg outside]
    cases found : pageOf s.ram root a with
    | none => rfl
    | some x =>
        have other : x ≠ page := by
          rintro rfl
          exact here (apart.pages a lowerA va lower x found there)
        rw [Option.map_some, Option.map_some, PhysMem.writeBytes_frame other]

end LeavesApart

end FerriOS.Memory
