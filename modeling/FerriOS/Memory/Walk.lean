import FerriOS.Memory.Widening

/-! # What the walk and the mapper do

A walk without allocation reads the tree. A walk with allocation and the mapping
of a page extend it, and arrive at the page table of their address.
-/

namespace FerriOS.Memory

open FerriOS.Lib

variable {P Q : SlotLaw} {root pt : PhysFrame} {h : Multiset PhysFrame} {s s' : MemState}
  {va i : Nat}

/-- The slots that lead to the page of `va`. -/
def pageIndices (va : Nat) : List Nat := tableIndices va ++ [ptIndex va]

/-- The page of `addr` is mapped. -/
def PageMapped (ram : PhysMem) (root : PhysFrame) (addr : Nat) : Prop :=
  ∃ frame, TreePath ram 4 root (pageIndices addr) 0 frame

theorem pageMapped_routes {ram : PhysMem} {addr : Nat} :
    PageMapped ram root addr ↔ pageIndices addr ∈ treeRoutes ram 4 root := by
  rw [mem_treeRoutes]
  refine ⟨fun ⟨frame, p⟩ => ⟨0, frame, p⟩, fun ⟨e, x, p⟩ => ?_⟩
  obtain rfl : e = 0 := by simpa [pageIndices, tableIndices] using p.length
  exact ⟨x, p⟩

theorem pageMapped_iff (p : TreePath s.ram 4 root (tableIndices va) 1 pt) :
    PageMapped s.ram root va ↔ (s.ram.entry pt (ptIndex va)).present = true := by
  constructor
  · rintro ⟨frame, page⟩
    cases page.of_append p with
    | cons _ link _ => exact (PageTableEntry.child_eq_some.mp link).1
  · intro linked
    exact ⟨_, p.snoc (ptIndex_fits va) (PageTableEntry.child_eq_some.mpr ⟨linked, rfl⟩)⟩

theorem Extends.pageMapped {h' : Multiset PhysFrame} {addr : Nat}
    (step : Extends P 4 root h h' s s')
    (mapped : PageMapped s.ram root addr) : PageMapped s'.ram root addr :=
  mapped.imp fun _ page => step.paths _ _ _ page

theorem NewPaths.pageMapped {ram ram' : PhysMem} {addr : Nat}
    (new : NewPaths 4 root (tableIndices va) ram ram') (mapped : PageMapped ram' root addr) :
    PageMapped ram root addr := by
  obtain ⟨frame, page⟩ := mapped
  rcases new _ _ _ page with old | initial
  · exact ⟨frame, old⟩
  · have short := initial.length_le
    simp [pageIndices, tableIndices] at short

/-- The slot lists a tree has when it maps the pages of `addrs`. -/
def wanted (addrs : List Nat) : Finset (List Nat) :=
  (addrs.flatMap fun addr => (pageIndices addr).inits).toFinset

theorem mem_wanted {addrs : List Nat} {is : List Nat} :
    is ∈ wanted addrs ↔ ∃ a ∈ addrs, is <+: pageIndices a := by
  simp only [wanted, List.mem_toFinset, List.mem_flatMap, List.mem_inits]

theorem wanted_append (addrs more : List Nat) :
    wanted (addrs ++ more) = wanted addrs ∪ wanted more := by
  simp only [wanted, List.flatMap_append, List.toFinset_append]

theorem wanted_mono {addrs more : List Nat} (some : ∀ a ∈ addrs, a ∈ more) :
    wanted addrs ⊆ wanted more := by
  intro is member
  obtain ⟨a, inside, initial⟩ := mem_wanted.mp member
  exact mem_wanted.mpr ⟨a, some a inside, initial⟩

theorem wanted_subset {ram : PhysMem} {addrs : List Nat}
    (mapped : ∀ a ∈ addrs, PageMapped ram root a) :
    wanted addrs ⊆ treeRoutes ram 4 root := by
  intro is member
  obtain ⟨a, inside, initial⟩ := mem_wanted.mp member
  obtain ⟨rest, whole⟩ := initial
  obtain ⟨frame, p⟩ := mapped a inside
  rw [← whole] at p
  obtain ⟨e, x, q⟩ := p.initial
  exact mem_treeRoutes.mpr ⟨e, x, q⟩

/-- The tables and pages that have to be made for the pages of `addrs`. -/
noncomputable def missing (ram : PhysMem) (root : PhysFrame) (addrs : List Nat) :
  Finset (List Nat) :=
  wanted addrs \ treeRoutes ram 4 root

theorem mem_missing {ram : PhysMem} {addrs : List Nat} {is : List Nat} :
    is ∈ missing ram root addrs ↔ (∃ a ∈ addrs, is <+: pageIndices a) ∧
      is ∉ treeRoutes ram 4 root := by
  rw [missing, Finset.mem_sdiff, mem_wanted]

/-- The tree with the pages of `addrs` is the tree and what is missing of them. -/
theorem card_missing (ram : PhysMem) (root : PhysFrame) (addrs : List Nat) :
    (treeRoutes ram 4 root ∪ wanted addrs).card = (treeRoutes ram 4 root).card +
    (missing ram root addrs).card := by
  rw [missing, Finset.union_comm, ← Finset.card_sdiff_add_card, Nat.add_comm]

/-- The allocator has fewer frames left than the pages of `addrs` take. -/
def FramesShort (root : PhysFrame) (addrs : List Nat) (s : MemState) : Prop :=
  Multiset.card s.available < (missing s.ram root addrs).card

theorem framesShort_of_none (out : s.available = 0) (unmapped : ¬ PageMapped s.ram root va) :
    FramesShort root [va] s := by
  rw [FramesShort, out, Multiset.card_zero, Finset.card_pos]
  exact ⟨pageIndices va, mem_missing.mpr ⟨⟨va, by simp, List.prefix_refl _⟩,
    fun member => unmapped (pageMapped_routes.mpr member)⟩⟩

/-- The last frame went into a table on the way, with the frame of the page still
    in hand and a table still missing. -/
theorem framesShort_of_walk {c : PhysFrame} (step : Extends P 4 root h (c ::ₘ h) s s')
    (new : NewPaths 4 root (tableIndices va) s.ram s'.ram) (out : s'.available = 0)
    (blocked : tableIndices va ∉ treeRoutes s'.ram 4 root) : FramesShort root [va] s := by
  have count := step.count
  rw [out, Multiset.card_zero, Multiset.card_cons] at count
  have table : tableIndices va <+: pageIndices va := List.prefix_append _ _
  have page : pageIndices va ∉ treeRoutes s'.ram 4 root := by
    intro member
    obtain ⟨e, x, p⟩ := mem_treeRoutes.mp member
    exact blocked (mem_treeRoutes.mpr p.initial)
  have made : insert (tableIndices va) (insert (pageIndices va)
      (treeRoutes s'.ram 4 root \ treeRoutes s.ram 4 root)) ⊆ missing s.ram root [va] := by
    intro is member
    rw [mem_missing]
    rcases Finset.mem_insert.mp member with rfl | member
    · exact ⟨⟨va, by simp, table⟩, fun old => blocked (step.routes old)⟩
    rcases Finset.mem_insert.mp member with rfl | member
    · exact ⟨⟨va, by simp, List.prefix_refl _⟩, fun old => page (step.routes old)⟩
    obtain ⟨here, fresh⟩ := Finset.mem_sdiff.mp member
    refine ⟨⟨va, by simp, ?_⟩, fresh⟩
    have either := new.routes here
    rw [Finset.mem_union, List.mem_toFinset, List.mem_inits] at either
    exact (either.resolve_left fresh).trans table
  have size := Finset.card_le_card made
  have different : tableIndices va ≠ pageIndices va := by simp [pageIndices]
  rw [Finset.card_insert_of_notMem (by simp [different, blocked]),
    Finset.card_insert_of_notMem (by simp [page]), Finset.card_sdiff_of_subset step.routes] at size
  have grown := Finset.card_le_card step.routes
  rw [FramesShort]
  omega

theorem pageIndices_injective {a b : Nat} (lowerA : a < 2 ^ 47) (lowerB : b < 2 ^ 47)
    (same : pageIndices a = pageIndices b) : a / PAGE_SIZE = b / PAGE_SIZE := by
  simp only [pageIndices, tableIndices, List.cons_append, List.nil_append, List.cons.injEq,
    and_true,
    pml4Index, pdptIndex, pdIndex, ptIndex] at same
  simp only [PAGE_SIZE]
  omega

theorem walkLevel_child (t : PhysFrame) (i : Nat) (s : MemState) :
    walkLevel false t i s = .ok (s.ram.child t i) s := by
  by_cases linked : (s.ram.entry t i).present = true
  · simp [walkLevel, PhysMem.child, PageTableEntry.child, linked]
  · simp [walkLevel, PhysMem.child, PageTableEntry.child, linked]

theorem walkPagetable_lookup (root : PhysFrame) (va : Nat) (s : MemState) :
    walkPagetable root va false s = .ok (lookup s.ram root va) s := by
  rw [walkPagetable, Prog.bind_ok (walkLevel_child _ _ _), lookup]
  cases s.ram.child root (pml4Index va) with
  | none => rfl
  | some pdpt =>
      simp only [Option.bind_eq_bind, Option.bind_some, Prog.bind_ok (walkLevel_child _ _ _)]
      cases s.ram.child pdpt (pdptIndex va) with
      | none => rfl
      | some pd =>
          simp only [Option.bind_some, Prog.bind_ok (walkLevel_child _ _ _)]
          cases s.ram.child pd (pdIndex va) <;> rfl

/-- One level of a walk with allocation is one step of a descent. -/
private theorem walkLevel_descent (t : PhysFrame) (i : Nat) (s : MemState) :
    ∃ r s', walkLevel true t i s = .ok r s' ∧
      match r with
      | some c => ∀ is r' s'', Descent tableFlags .empty is c s' r' s'' →
          Descent tableFlags .empty (i :: is) t s r' s''
      | none => ∀ is, Descent tableFlags .empty (i :: is) t s none s' := by
  by_cases linked : (s.ram.entry t i).present = true
  · refine ⟨some (s.ram.entry t i).addr, s, ?_, fun is r' s'' rest => ?_⟩
    · simp only [walkLevel, Prog.get_bind, linked, if_true, Prog.pure_run]
    · exact .kept linked (PageTableFlags.contains_empty _) rest
  · have absent : (s.ram.entry t i).present = false := by simpa using linked
    obtain ⟨s₁, r, run, -⟩ := allocateFrame_spec s
    cases r with
    | none =>
        refine ⟨none, s₁, ?_, fun is => .exhausted absent run⟩
        simp [walkLevel, absent, Prog.bind_ok run]
    | some c =>
        refine ⟨some c, _, ?_, fun is r' s'' rest => .created absent run rest⟩
        simp only [walkLevel, Prog.get_bind, absent, Bool.false_eq_true, if_false, if_true,
          Prog.bind_ok run, initPageTable, Prog.bind_ok (writeRam_run _ _),
          Prog.bind_ok (setFrame_run tableFlags_small _), Prog.pure_run]
        rfl

/-- A walk with allocation is a descent to the page table of `va`. -/
theorem walkPagetable_descent (root : PhysFrame) (va : Nat) (s : MemState) :
    ∃ r s', walkPagetable root va true s = .ok (r.map (·, ptIndex va)) s' ∧
      Descent tableFlags .empty (tableIndices va) root s r s' := by
  obtain ⟨r₁, s₁, run₁, first⟩ := walkLevel_descent root (pml4Index va) s
  rw [walkPagetable, Prog.bind_ok run₁]
  cases r₁ with
  | none => exact ⟨none, s₁, rfl, first _⟩
  | some pdpt =>
      obtain ⟨r₂, s₂, run₂, second⟩ := walkLevel_descent pdpt (pdptIndex va) s₁
      simp only [Prog.bind_ok run₂]
      cases r₂ with
      | none => exact ⟨none, s₂, rfl, first _ _ _ (second _)⟩
      | some pd =>
          obtain ⟨r₃, s₃, run₃, third⟩ := walkLevel_descent pd (pdIndex va) s₂
          simp only [Prog.bind_ok run₃]
          cases r₃ with
          | none => exact ⟨none, s₃, rfl, first _ _ _ (second _ _ _ (third _))⟩
          | some pt => exact ⟨some pt, s₃, rfl, first _ _ _ (second _ _ _ (third _ _ _ .arrived))⟩

theorem lookup_path (lower : va < 2 ^ 47) (found : lookup s.ram root va = some (pt, i)) :
    TreePath s.ram 4 root (tableIndices va) 1 pt ∧ i = ptIndex va := by
  obtain ⟨insidePml4, insidePdpt, insidePd, -⟩ := fits_tableIndices lower
  simp only [lookup, Option.bind_eq_bind, Option.bind_eq_some_iff, Option.pure_def,
    Option.some.injEq, Prod.mk.injEq] at found
  obtain ⟨pdpt, link₁, pd, link₂, pt', link₃, rfl, rfl⟩ := found
  exact ⟨.cons insidePml4 link₁ (.cons insidePdpt link₂ (.cons insidePd link₃ .nil)), rfl⟩

theorem lookup_none {ram : PhysMem} (lower : va < 2 ^ 47)
    (absent : tableIndices va ∉ treeRoutes ram 4 root) :
    lookup ram root va = none := by
  cases found : lookup ram root va with
  | none => rfl
  | some slot =>
      obtain ⟨p, -⟩ := lookup_path (s := ⟨ram, ⟨[], 0, []⟩, 0⟩) lower found
      exact absurd (mem_treeRoutes.mpr ⟨_, _, p⟩) absent

theorem walk_allows (law : ∀ is, P is tableFlags) (va : Nat) :
    Allows P tableFlags .empty [] (tableIndices va) := by
  intro ks _
  refine ⟨law _, fun f allowed => ?_⟩
  rw [PageTableFlags.or_empty]
  exact allowed

/-- A walk with allocation keeps the ledger and finds a slot of its page table,
    unless no frame is left. -/
theorem walkPagetable_extends (law : ∀ is, P is tableFlags) (lower : va < 2 ^ 47)
    (distinct : (owned 4 root h s).Nodup) :
    ∃ r s', walkPagetable root va true s = .ok (r.map (·, ptIndex va)) s' ∧
      Extends P 4 root h h s s' ∧
      (∀ pt, r = some pt → TreePath s'.ram 4 root (tableIndices va) 1 pt) ∧
      NewPaths 4 root (tableIndices va) s.ram s'.ram ∧
      (NoHuge P → Slots P s.ram 4 root → r = none →
        s'.available = 0 ∧ tableIndices va ∉ treeRoutes s'.ram 4 root) := by
  obtain ⟨r, s', run, walk⟩ := walkPagetable_descent root va s
  obtain ⟨step, arrived, new⟩ := walk.extends tableFlags_present (walk_allows law va)
    (fits_tableIndices lower) distinct .nil
  exact ⟨r, s', run, step, arrived, new, fun noHuge slots => walk.stops noHuge tableFlags_present
    (walk_allows law va) (fits_tableIndices lower) distinct slots .nil⟩

/-- What mapping a page leaves behind: the page, mapped to a frame of its own. -/
structure Mapped (P : SlotLaw) (root : PhysFrame) (h : Multiset PhysFrame) (va : Nat)
    (s s' : MemState) : Prop extends Extends P 4 root h h s s' where
  fresh : ¬ PageMapped s.ram root va
  page : PageMapped s'.ram root va
  only : NewPaths 4 root (pageIndices va) s.ram s'.ram

theorem Mapped.routes (mapped : Mapped P root h va s s') :
    treeRoutes s'.ram 4 root = treeRoutes s.ram 4 root ∪ wanted [va] := by
  have only : wanted [va] = (pageIndices va).inits.toFinset := by simp [wanted]
  refine Finset.Subset.antisymm (only ▸ mapped.only.routes)
    (Finset.union_subset mapped.toExtends.routes ?_)
  exact wanted_subset fun a member => List.mem_singleton.mp member ▸ mapped.page

/-- Linking a page in hand below the page table of `va`. -/
theorem page_extends {c : PhysFrame} {fl : PageTableFlags}
    (distinct : (owned 4 root (c ::ₘ h) s).Nodup)
    (p : TreePath s.ram 4 root (tableIndices va) 1 pt)
    (absent : (s.ram.entry pt (ptIndex va)).present = false)
    (present : fl.contains .PRESENT = true) (law : P (pageIndices va) fl) :
    Extends P 4 root (c ::ₘ h) h s (s.setRam (s.ram.setEntry pt (ptIndex va) ⟨c, fl⟩)) ∧
      TreePath (s.ram.setEntry pt (ptIndex va) ⟨c, fl⟩) 4 root (pageIndices va) 0 c ∧
      NewPaths 4 root (pageIndices va) s.ram (s.ram.setEntry pt (ptIndex va) ⟨c, fl⟩) :=
  link_extends distinct p (ptIndex_fits va) absent present law fun nonzero => absurd rfl nonzero

/-- The flags a page is mapped with, and those its tables get, are lawful. -/
structure MapOk (P : SlotLaw) (flags : PageTableFlags) (va : Nat) : Prop where
  present : flags.contains .PRESENT = true
  small : flags.contains .HUGE_PAGE = false
  leaf : P (pageIndices va) flags
  tables : Allows P (flags &&& tableFlags) (flags &&& tableFlags) [] (tableIndices va)

/-- The slots a descent has come to obey the law of the tree. -/
private theorem descent_slot {insert widen : PageTableFlags} {is rest : List Nat}
  {table : PhysFrame}
    (present : insert.contains .PRESENT = true)
    (tables : Allows P insert widen [] (tableIndices va))
    (lower : va < 2 ^ 47) (distinct : (owned 4 root h s).Nodup) (slots : Slots P s.ram 4 root)
    (split : tableIndices va = is ++ i :: rest)
    (walk : Descent insert widen is root s (some table) s') :
    SlotOk (P (is ++ [i])) (s'.ram.entry table i) := by
  have fits := fits_tableIndices lower
  have length : (tableIndices va).length = 3 := rfl
  rw [split] at tables fits length
  obtain ⟨fitsInitial, fitsRest⟩ := fits_append.mp fits
  have height : 4 = is.length + ((i :: rest).length + 0) + 1 := by
    rw [List.length_append] at length
    omega
  have reach := walk.extends (H := 4) present tables.initial fitsInitial distinct
    (height ▸ (.nil : TreePath s.ram 4 root [] 4 root))
  exact reach.1.slots slots _ _ _ (reach.2.1 _ rfl) i fitsRest.1

/-- `mapPage` maps a fresh frame, and every entry on the way has the flags of the
    page; or it loses a frame, because the page is mapped already or frames are
    short. The tree never shrinks. -/
theorem mapPage_spec (mapper : Mapper) {flags : PageTableFlags} (lawful : MapOk P flags va)
    (lower : va < 2 ^ 47) (distinct : (owned 4 root h s).Nodup) (slots : Slots P s.ram 4 root) :
    (mapPage mapper root va flags s).Sat False
      (fun _ s' => Mapped P root h va s s' ∧
        Slots (Widened P (flags &&& tableFlags) [] (tableIndices va)) s'.ram 4 root)
      (fun _ s' => (∃ lost, Extends P 4 root h (lost + h) s s') ∧
        (NoHuge P → PageMapped s.ram root va ∨ FramesShort root [va] s)) := by
  obtain ⟨present, small, law, tables⟩ := lawful
  have upper : (flags &&& tableFlags).contains .PRESENT = true :=
    PageTableFlags.contains_and present tableFlags_present
  obtain ⟨s₁, r, run, -, -, -, -, available⟩ := allocateFrame_spec s
  rw [mapPage, Prog.bind_ok run]
  cases r with
  | none =>
      refine ⟨⟨0, by simpa using allocateFrame_none run⟩, fun _ =>
        or_iff_not_imp_left.mpr fun unmapped => ?_⟩
      exact framesShort_of_none available.1 unmapped
  | some c =>
      have first : Extends P 4 root h (c ::ₘ h) s s₁ := allocateFrame_extends run
      obtain ⟨clear, cleared⟩ := hand_extends (P := P) (s₁.ram.zeroFrame c)
        (first.nodup distinct) fun f hf => PhysMem.zeroFrame_frame hf
      have second := first.trans clear
      have held := second.nodup distinct
      -- a descent of the mapper from here, and what it owns afterwards
      have descend : ∀ {r s'}, Descent (flags &&& tableFlags) (flags &&& tableFlags)
          (tableIndices va) root (s₁.setRam (s₁.ram.zeroFrame c)) r s' →
          Extends P 4 root (c ::ₘ h) (c ::ₘ h) (s₁.setRam (s₁.ram.zeroFrame c)) s' ∧
          (∀ x, r = some x → TreePath s'.ram 4 root (tableIndices va) 1 x) ∧
          NewPaths 4 root (tableIndices va) (s₁.ram.zeroFrame c) s'.ram := fun walk =>
        walk.extends upper tables (fits_tableIndices lower) held .nil
      simp only [Prog.okOr, writeRam_run, Prog.bind_run, Prog.attempt, Prog.pure_run]
      have spec := mapper.mapTo_spec root va c flags (s₁.setRam (s₁.ram.zeroFrame c)) present small
      cases outcome : mapper.mapTo root va c flags (s₁.setRam (s₁.ram.zeroFrame c)) with
      | ok value s' =>
          rw [outcome] at spec
          obtain ⟨pt, s₂, walk, unused, rfl⟩ := spec
          obtain ⟨third, arrived, new⟩ := descend walk
          have absent := PageTableEntry.present_of_isUnused unused
          obtain ⟨fourth, page, leaf⟩ :=
            page_extends (third.nodup held) (arrived pt rfl) absent present law
          have only : NewPaths 4 root (pageIndices va) s₁.ram
              (s₂.ram.setEntry pt (ptIndex va) ⟨c, flags⟩) :=
                ((cleared _).trans new.longer).trans leaf
          rw [allocateFrame_ram run] at only
          have along := walk.widens (P := P) (by simp) upper (PageTableFlags.contains_self _) tables
            (fits_tableIndices lower) held .nil (second.slots slots)
          have last := page_extends (P := Widened P (flags &&& tableFlags) [] (tableIndices va))
            (third.nodup held) (arrived pt rfl) absent present
            ⟨law, fun along => absurd along.length_le (by simp [pageIndices, tableIndices])⟩
          refine ⟨⟨(second.trans third).trans fourth, fun mapped => ?_, ⟨c, page⟩, only⟩,
            last.1.slots along⟩
          have still := (second.trans third).pageMapped mapped
          exact Bool.noConfusion (absent.symm.trans ((pageMapped_iff (arrived pt rfl)).mp still))
      | err message s' =>
          rw [outcome] at spec
          have fromStart : ∀ {r}, Descent (flags &&& tableFlags) (flags &&& tableFlags)
              (tableIndices va) root (s₁.setRam (s₁.ram.zeroFrame c)) r s' →
              NewPaths 4 root (tableIndices va) s.ram s'.ram := by
            intro r walk
            have new := (cleared _).trans (descend walk).2.2
            rwa [allocateFrame_ram run] at new
          rcases spec with walk | ⟨pt, walk, used⟩
          · refine ⟨⟨{c}, second.trans (descend walk).1⟩, fun noHuge => .inr ?_⟩
            obtain ⟨out, blocked⟩ := walk.stops noHuge upper tables (fits_tableIndices lower) held
              (second.slots slots) .nil rfl
            exact framesShort_of_walk (second.trans (descend walk).1) (fromStart walk) out blocked
          · refine ⟨⟨{c}, second.trans (descend walk).1⟩, fun _ => .inl ?_⟩
            have p := (descend walk).2.1 pt rfl
            have reached := (descend walk).1.slots (second.slots slots) _ _ _ p _ (ptIndex_fits va)
            rcases reached with zero | ⟨linked, -⟩
            · simp [zero, PageTableEntry.isUnused] at used
            · exact (fromStart walk).pageMapped ((pageMapped_iff p).mpr linked)
      | panic message =>
          rw [outcome] at spec
          obtain ⟨is, i, rest, table, s₂, split, walk, absent, used⟩ := spec
          -- the slots of the tree are zero or present, so the crate never panics here
          rcases descent_slot upper tables lower held (second.slots slots) split walk with zero |
            ⟨linked, -⟩
          · simp [zero, PageTableEntry.isUnused] at used
          · simp [linked] at absent

/-- The tree has grown by the pages of `addrs` that it did not have, with the tables on
    the way to them. -/
structure Covered (P : SlotLaw) (root : PhysFrame) (h : Multiset PhysFrame) (addrs : List Nat)
    (s s' : MemState) : Prop extends Extends P 4 root h h s s' where
  routes : treeRoutes s'.ram 4 root = treeRoutes s.ram 4 root ∪ wanted addrs

namespace Covered

variable {addrs more : List Nat} {s₁ : MemState}

theorem refl : Covered P root h [] s s :=
  ⟨.refl, by simp [wanted]⟩

theorem append (first : Covered P root h addrs s s₁) (second : Covered P root h more s₁ s') :
    Covered P root h (addrs ++ more) s s' where
  toExtends := first.toExtends.trans second.toExtends
  routes := by rw [second.routes, first.routes, wanted_append, Finset.union_assoc]

theorem mapped (covered : Covered P root h addrs s s') : ∀ a ∈ addrs, PageMapped s'.ram root a := by
  intro a member
  rw [pageMapped_routes, covered.routes]
  exact Finset.mem_union_right _ (mem_wanted.mpr ⟨a, member, List.prefix_refl _⟩)

theorem only (covered : Covered P root h addrs s s') {a : Nat} (mapped : PageMapped s'.ram root a) :
    PageMapped s.ram root a ∨ ∃ b ∈ addrs, pageIndices a = pageIndices b := by
  rw [pageMapped_routes, covered.routes, Finset.mem_union, ← pageMapped_routes] at mapped
  refine mapped.imp id fun new => ?_
  obtain ⟨b, member, initial⟩ := mem_wanted.mp new
  exact ⟨b, member, initial.eq_of_length (by simp [pageIndices, tableIndices])⟩

theorem spent (covered : Covered P root h addrs s s') :
    Multiset.card s.available = Multiset.card s'.available + (missing s.ram root addrs).card := by
  have count := covered.toConserves.count
  have nodes := card_missing s.ram root addrs
  rw [← covered.routes] at nodes
  omega

theorem short {all : List Nat} (covered : Covered P root h addrs s s₁)
    (short : FramesShort root more s₁)
    (some : ∀ a ∈ addrs ++ more, a ∈ all) : FramesShort root all s := by
  have count := covered.toConserves.count
  have before := card_missing s.ram root all
  have after := card_missing s₁.ram root more
  have whole : treeRoutes s.ram 4 root ∪ wanted
    (addrs ++ more) ⊆ treeRoutes s.ram 4 root ∪ wanted all :=
    Finset.union_subset_union le_rfl (wanted_mono some)
  have fewer := Finset.card_le_card whole
  rw [wanted_append, ← Finset.union_assoc, ← covered.routes] at fewer
  rw [FramesShort] at short ⊢
  omega

end Covered

theorem Extends.covered {addrs : List Nat} (step : Extends P 4 root h h s s')
    (kept : s'.available = s.available)
    (mapped : ∀ a ∈ addrs, PageMapped s.ram root a) : Covered P root h addrs s s' where
  toExtends := step
  routes := by
    have count := step.count
    rw [kept] at count
    rw [Finset.union_eq_left.mpr (wanted_subset mapped)]
    exact (Finset.eq_of_subset_of_card_le step.routes (by omega)).symm

theorem Mapped.covered (mapped : Mapped P root h va s s') : Covered P root h [va] s s' :=
  ⟨mapped.toExtends, mapped.routes⟩

/-- A growth that succeeds maps pages that were not mapped before, with the tables
    on the way to them. -/
structure Grown (P : SlotLaw) (root : PhysFrame) (h : Multiset PhysFrame) (addrs : List Nat)
    (s s' : MemState) : Prop extends Covered P root h addrs s s' where
  fresh : ∀ a ∈ addrs, ¬ PageMapped s.ram root a

namespace Grown

variable {addrs : List Nat} {s₁ : MemState}

theorem refl : Grown P root h [] s s :=
  ⟨.refl, by simp⟩

theorem snoc (grown : Grown P root h addrs s s₁) (page : Mapped P root h va s₁ s') :
    Grown P root h (addrs ++ [va]) s s' where
  toCovered := grown.toCovered.append page.covered
  fresh a member before := by
    rcases List.mem_append.mp member with old | new
    · exact grown.fresh a old before
    · obtain rfl := List.mem_singleton.mp new
      exact page.fresh (grown.toExtends.pageMapped before)

end Grown

/-- The addresses of the pages of a range. -/
def pageAddrs (start count : Nat) : List Nat :=
  (List.range count).map fun i => start + PAGE_SIZE * i

/-- One page of a range. -/
theorem mapNthPage_run (mapper : Mapper) (flags : PageTableFlags) {start : Nat}
    (aligned : PAGE_SIZE ∣ start) (lower : start + PAGE_SIZE * i < 2 ^ 47) (s : MemState) :
    mapNthPage mapper root start flags i s = mapPage mapper root
      (start + PAGE_SIZE * i) flags s := by
  have offset : checkedMul i PAGE_SIZE = some (i * PAGE_SIZE) := by
    rw [checkedMul, if_pos]
    simp only [PAGE_SIZE] at lower ⊢
    omega
  have address : checkedAdd start (i * PAGE_SIZE) = some (start + PAGE_SIZE * i) := by
    rw [checkedAdd, Nat.mul_comm i, if_pos (lower.trans (by decide))]
  have page : pageContaining (start + PAGE_SIZE * i) = start + PAGE_SIZE * i :=
    Nat.div_mul_cancel ((Nat.dvd_add_right aligned).mpr (Nat.dvd_mul_right _ _))
  simp only [mapNthPage, offset, address, Prog.okOr, virtAddr, VirtAddr.new_lower lower,
    Prog.expect,
    Prog.pure_bind, page]

/-- What a range of pages can fail for. -/
def RangeFails (root : PhysFrame) (addrs : List Nat) (s : MemState) : Prop :=
  (∃ a ∈ addrs, PageMapped s.ram root a) ∨ FramesShort root addrs s

/-- `mapPages` maps every page of its range, or stops at the first failure. From
    its first page on, the entries above the range have the flags of the pages. -/
theorem mapPages_spec (count : Nat) (mapper : Mapper) {flags : PageTableFlags} {start : Nat}
    (noHuge : NoHuge P) (noHugeQ : NoHuge Q) (first : MapOk P flags start)
    (upgrade : ∀ ks f, Widened P (flags &&& tableFlags) [] (tableIndices start) ks f → Q ks f)
    (lawful : ∀ i ≤ count, MapOk Q flags (start + PAGE_SIZE * i))
    (aligned : PAGE_SIZE ∣ start) (lower : start + PAGE_SIZE * (count + 1) ≤ 2 ^ 47)
    (distinct : (owned 4 root h s).Nodup) (slots : Slots P s.ram 4 root) :
    (mapPages mapper root start (count + 1) flags s).Sat False
      (fun _ s' => Grown Q root h (pageAddrs start (count + 1)) s s' ∧ Slots Q s'.ram 4 root)
      (fun _ s' => (∃ lost, Extends Lawless 4 root h (lost + h) s s') ∧
        RangeFails root (pageAddrs start (count + 1)) s) := by
  have inside : ∀ i ≤ count, start + PAGE_SIZE * i < 2 ^ 47 := by
    intro i hi
    simp only [PAGE_SIZE] at lower ⊢
    omega
  have split : List.range (count + 1) = 0 :: (List.range count).map Nat.succ :=
    List.range_succ_eq_map
  have member : ∀ i ≤ count, start + PAGE_SIZE * i ∈ pageAddrs start (count + 1) := fun i hi =>
    List.mem_map.mpr ⟨i, List.mem_range.mpr (by omega), rfl⟩
  have different : ∀ i ≤ count, ∀ j ≤ count,
      pageIndices (start + PAGE_SIZE * i) = pageIndices (start + PAGE_SIZE * j) → i = j := by
    intro i hi j hj same
    have equal := pageIndices_injective (inside i hi) (inside j hj) same
    obtain ⟨k, rfl⟩ := aligned
    simp only [PAGE_SIZE, ← Nat.mul_add] at equal
    omega
  -- the failure of a later page, seen from the start of the range
  have fails : ∀ {done : List Nat} {i : Nat} {s₁ : MemState} {L : SlotLaw}, i ≤ count →
      (∀ j ∈ done, j ≤ count ∧ j ≠ i) →
      Grown L root h (done.map fun j => start + PAGE_SIZE * j) s s₁ →
      PageMapped s₁.ram root (start + PAGE_SIZE * i) ∨ FramesShort root [start + PAGE_SIZE * i] s₁ →
      RangeFails root (pageAddrs start (count + 1)) s := by
    intro done i s₁ L hi earlier grown because
    rcases because with mapped | short
    · refine .inl ⟨_, member i hi, (grown.only mapped).resolve_right ?_⟩
      rintro ⟨b, old, same⟩
      obtain ⟨j, inDone, rfl⟩ := List.mem_map.mp old
      exact (earlier j inDone).2 (different i hi j (earlier j inDone).1 same).symm
    · refine .inr (grown.short short fun a ha => ?_)
      rcases List.mem_append.mp ha with old | new
      · obtain ⟨j, inDone, rfl⟩ := List.mem_map.mp old
        exact member j (earlier j inDone).1
      · rw [List.mem_singleton.mp new]
        exact member i hi
  rw [mapPages, split, Prog.each]
  refine Outcome.Sat.bind (Q := fun _ s' =>
    Grown Q root h ([0].map fun j => start + PAGE_SIZE * j) s s' ∧
    Slots Q s'.ram 4 root) ?_ fun _ s₁ start₁ => ?_
  · rw [mapNthPage_run mapper flags aligned (inside 0 (Nat.zero_le _))]
    refine (mapPage_spec mapper first (inside 0 (Nat.zero_le _)) distinct slots).mono id
      (fun _ s' page => ?_) fun _ s' failed => ?_
    · obtain ⟨mapped, along⟩ := page
      have slots' := along.mono upgrade
      exact ⟨{ Grown.refl.snoc mapped with slots := fun _ => slots' }, slots'⟩
    · obtain ⟨⟨lost, step⟩, because⟩ := failed
      exact ⟨⟨lost, step.lawless slots⟩, @fails [] _ _ P (Nat.zero_le _) (by simp) .refl
        (because noHuge)⟩
  · have shape : pageAddrs start (count + 1) =
        (([0] ++ (List.range count).map Nat.succ).map fun j => start + PAGE_SIZE * j) := by
      rw [pageAddrs, split]
      rfl
    rw [shape]
    refine (Outcome.Sat.each (fun done s' => Grown Q root h (([0] ++ done).map fun j =>
      start + PAGE_SIZE * j) s s' ∧ Slots Q s'.ram 4 root) _
      (fun done i rest s₂ place before => ?_) start₁)
    obtain ⟨grown, slots₂⟩ := before
    have later : i ∈ (List.range count).map Nat.succ := by simp [place]
    obtain ⟨k, hk, rfl⟩ := List.mem_map.mp later
    have small : k + 1 ≤ count := List.mem_range.mp hk
    rw [mapNthPage_run mapper flags aligned (inside _ small)]
    refine (mapPage_spec mapper (lawful _ small) (inside _ small) (grown.toConserves.nodup distinct)
      slots₂).mono id (fun _ s' page => ?_) fun _ s' failed => ?_
    · obtain ⟨mapped, -⟩ := page
      refine ⟨?_, mapped.slots slots₂⟩
      have more := grown.snoc mapped
      simpa using more
    · obtain ⟨⟨lost, next⟩, because⟩ := failed
      refine ⟨⟨lost, ((grown.toExtends.trans next).change
        ((next.slots slots₂).mono fun _ _ _ => trivial))⟩, ?_⟩
      rw [← shape]
      refine fails small (fun j old => ?_) grown (because noHugeQ)
      have once : (List.range (count + 1)).Nodup := List.nodup_range
      rw [split, ← List.singleton_append, place, ← List.append_assoc] at once
      refine ⟨?_, fun same => ?_⟩
      · have whole : j ∈ List.range (count + 1) := by
          rw [split, ← List.singleton_append, place, ← List.append_assoc]
          exact List.mem_append_left _ old
        exact Nat.lt_succ_iff.mp (List.mem_range.mp whole)
      · subst same
        exact (List.disjoint_of_nodup_append once) old List.mem_cons_self

end FerriOS.Memory
