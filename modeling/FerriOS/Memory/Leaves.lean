import FerriOS.Memory.Pages
import FerriOS.Memory.Ledger
import FerriOS.Memory.Flags

/-! # The leaves of a page table

Tables that are created on the way to a page are cleared, so they have no leaf that
was not there before. Growing an address space sets the leaves of its pages, and a
growth that fails takes back the leaves that it has set.
-/

namespace FerriOS.Memory

open FerriOS.Lib

variable {root t pt c : PhysFrame} {h : Multiset PhysFrame} {s s' : MemState}
  {ram ram' : PhysMem} {is js : List Nat} {d i va a : Nat} {insert widen : PageTableFlags}
  {e : PageTableEntry}

theorem lookup_of_path (p : TreePath ram 4 root (tableIndices va) 1 pt) :
    lookup ram root va = some (pt, ptIndex va) := by
  change TreePath ram 4 root [pml4Index va, pdptIndex va, pdIndex va] 1 pt at p
  cases p with
  | cons _ link₁ p =>
  cases p with
  | cons _ link₂ p =>
  cases p with
  | cons _ link₃ p =>
  cases p with
  | nil => simp [lookup, link₁, link₂, link₃]

theorem leafEntry_of_path (p : TreePath ram 4 root (tableIndices va) 1 pt) :
    leafEntry ram root va = ram.entry pt (ptIndex va) := by
  rw [leafEntry, lookup_of_path p, Option.elim_some]

theorem leafEntry_cases (lower : va < 2 ^ 47) (ram : PhysMem) (root : PhysFrame) :
    (∃ pt, TreePath ram 4 root (tableIndices va) 1 pt ∧
    leafEntry ram root va = ram.entry pt (ptIndex va)) ∨
      lookup ram root va = none ∧ leafEntry ram root va = .unused := by
  cases found : lookup ram root va with
  | none => exact .inr ⟨rfl, by rw [leafEntry, found, Option.elim_none]⟩
  | some slot =>
      obtain ⟨p, -⟩ := lookup_path (s := ⟨ram, ⟨[], 0, []⟩, 0⟩) lower found
      exact .inl ⟨slot.1, p, leafEntry_of_path p⟩

theorem tableIndices_congr {b : Nat} (same : a / PAGE_SIZE = b / PAGE_SIZE) :
    tableIndices a = tableIndices b ∧ ptIndex a = ptIndex b := by
  have whole := pageIndices_congr same
  simp only [pageIndices] at whole
  exact ⟨List.append_inj_left' whole rfl, by simpa using List.append_inj_right' whole rfl⟩

theorem leafEntry_page {b : Nat} (same : a / PAGE_SIZE = b / PAGE_SIZE) :
    leafEntry ram root a = leafEntry ram root b := by
  obtain ⟨tables, slot⟩ := tableIndices_congr same
  simp only [tableIndices, List.cons.injEq, and_true] at tables
  rw [leafEntry, leafEntry, lookup, lookup, tables.1, tables.2.1, tables.2.2, slot]

/-- Setting the slot of a page changes the leaf of that page, and no other. -/
theorem setEntry_leaf (distinct : (owned 4 root h s).Nodup)
    (p : TreePath s.ram 4 root (tableIndices va) 1 pt)
    (lower : va < 2 ^ 47) (lowerA : a < 2 ^ 47) :
    leafEntry (s.ram.setEntry pt (ptIndex va) e) root a =
      if a / PAGE_SIZE = va / PAGE_SIZE then e else leafEntry s.ram root a := by
  have upper : lookup (s.ram.setEntry pt (ptIndex va) e) root a = lookup s.ram root a := by
    refine lookup_upper lowerA fun is d t q => PhysMem.child_congr (PhysMem.setEntry_frame ?_)
    rintro rfl
    obtain ⟨-, height⟩ := Radix.Path.unique (tree_nodup distinct) p q
    omega
  rw [leafEntry, upper]
  split
  case isTrue same =>
    obtain ⟨tables, slot⟩ := tableIndices_congr same
    rw [@lookup_of_path root pt s.ram a (tables ▸ p), Option.elim_some, slot,
      PhysMem.entry_setEntry]
  case isFalse other =>
    rcases leafEntry_cases lowerA s.ram root with ⟨pt', q, there⟩ | ⟨absent, there⟩
    · rw [lookup_of_path q, Option.elim_some, there]
      refine PhysMem.entry_setEntry_ne fun same => other ?_
      obtain ⟨rfl, slot⟩ : pt' = pt ∧ ptIndex a = ptIndex va := Prod.mk.inj same
      have tables := (Radix.Path.unique (tree_nodup distinct) q p).1
      exact pageIndices_injective lowerA lower (by rw [pageIndices, pageIndices, tables, slot])
    · rw [absent, Option.elim_none, there]

/-- Changing the flags of a slot above the page tables changes no leaf. -/
theorem reflag_leaves {fl : PageTableFlags} (distinct : (owned 4 root h s).Nodup)
    (p : TreePath s.ram 4 root is (d + 2) t)
    (linked : (s.ram.entry t i).present = true) (present : fl.contains .PRESENT = true)
    (lowerA : a < 2 ^ 47) :
    leafEntry (s.ram.setEntry t i
      ⟨(s.ram.entry t i).addr, fl⟩) root a = leafEntry s.ram root a := by
  have upper : lookup (s.ram.setEntry t i
    ⟨(s.ram.entry t i).addr, fl⟩) root a = lookup s.ram root a := by
    refine lookup_upper lowerA fun js d' t' q => ?_
    funext j
    by_cases slot : (t', j) = (t, i)
    · obtain ⟨rfl, rfl⟩ := Prod.mk.inj slot
      rw [PhysMem.child, PhysMem.entry_setEntry, PhysMem.child,
        PageTableEntry.child_eq_some.mpr ⟨linked, rfl⟩]
      exact PageTableEntry.child_eq_some.mpr ⟨present, rfl⟩
    · rw [PhysMem.child, PhysMem.entry_setEntry_ne slot, PhysMem.child]
  rw [leafEntry, upper]
  rcases leafEntry_cases lowerA s.ram root with ⟨pt, q, there⟩ | ⟨absent, there⟩
  · rw [lookup_of_path q, Option.elim_some, there]
    refine PhysMem.entry_setEntry_ne fun same => ?_
    obtain ⟨rfl, -⟩ := Prod.mk.inj same
    obtain ⟨-, height⟩ := Radix.Path.unique (tree_nodup distinct) p q
    omega
  · rw [absent, Option.elim_none, there]

/-- A table that was created is empty, so no address has a leaf that it did not have. -/
theorem create_leaves {s₁ : MemState} (distinct : (owned 4 root h s).Nodup)
    (p : TreePath s.ram 4 root is (d + 2) t)
    (inside : i ∈ userFan (d + 2)) (absent : (s.ram.entry t i).present = false)
    (present : insert.contains .PRESENT = true)
    (taken : allocateFrame s = .ok (some c) s₁) (lowerA : a < 2 ^ 47) :
    leafEntry ((s₁.ram.zeroFrame c).setEntry t i ⟨c, insert⟩) root a = leafEntry s.ram root a := by
  obtain ⟨step, made, new⟩ := create_extends
    (P := Lawless) distinct p inside absent present trivial taken
  have free := allocateFrame_free taken
  have apart : t ≠ c := by
    rintro rfl
    exact tree_apart distinct p.mem free
  rcases leafEntry_cases lowerA s.ram root with ⟨pt, q, there⟩ | ⟨missing, there⟩
  · have still := step.paths _ _ _ q
    rw [MemState.setRam_ram] at still
    rw [leafEntry_of_path still, there]
    have other : pt ≠ t := by
      rintro rfl
      obtain ⟨-, height⟩ := Radix.Path.unique (tree_nodup distinct) p q
      omega
    have old : pt ≠ c := by
      rintro rfl
      exact tree_apart distinct q.mem free
    rw [PhysMem.entry_congr (PhysMem.setEntry_frame other), PhysMem.entry_zeroFrame_ne old,
      allocateFrame_ram taken]
  · rw [there]
    rcases leafEntry_cases lowerA ((s₁.ram.zeroFrame c).setEntry t i ⟨c, insert⟩) root with
      ⟨pt, q, here⟩ | ⟨-, here⟩
    · have fresh := (new _ _ _ q).resolve_left fun old => by
        rw [lookup_of_path old] at missing
        cases missing
      have length := p.length
      have same := fresh.eq_of_length (by
        have short := fresh.length_le
        simp only [List.length_append, tableIndices, List.length_cons, List.length_nil] at short ⊢
        omega)
      -- the page table of the address is the new table
      have height : d = 0 := by
        have equal := congrArg List.length same
        simp only [List.length_append, tableIndices, List.length_cons, List.length_nil] at equal
        omega
      subst height
      rw [← same] at made
      obtain rfl := Radix.Path.deterministic q made
      rw [here, PhysMem.entry_congr (PhysMem.setEntry_frame apart.symm), PhysMem.entry_zeroFrame]
    · exact here

/-- A walk that creates missing tables changes no leaf. -/
theorem Descent.leaves {r : Option PhysFrame} (walk : Descent insert widen js t s r s')
    (present : insert.contains .PRESENT = true) (fits : Fits js 0)
    (distinct : (owned 4 root h s).Nodup)
    (p : TreePath s.ram 4 root is (js.length + 1) t) (lowerA : a < 2 ^ 47) :
    leafEntry s'.ram root a = leafEntry s.ram root a := by
  induction walk generalizing is with
  | arrived => rfl
  | @kept js s r s' i t linked _ _ ih =>
      exact ih fits.2 distinct (p.snoc fits.1 (PageTableEntry.child_eq_some.mpr ⟨linked, rfl⟩))
  | @widened js r s' i t s linked _ _ ih =>
      have still := PageTableFlags.contains_or_left widen linked
      obtain ⟨step, -⟩ := reflag_extends (P := Lawless) distinct p fits.1 linked still fun _ =>
        trivial
      have q := step.paths _ _ _ (p.snoc fits.1 (PageTableEntry.child_eq_some.mpr ⟨linked, rfl⟩))
      rw [ih fits.2 (step.nodup distinct) q, MemState.setRam_ram,
        reflag_leaves distinct p linked still lowerA]
  | @created s c s₁ js t i r s' absent taken _ ih =>
      obtain ⟨step, q, -⟩ := create_extends
        (P := Lawless) distinct p fits.1 absent present trivial taken
      rw [ih fits.2 (step.nodup distinct) q, MemState.setRam_ram,
        create_leaves distinct p fits.1 absent present taken lowerA]
  | exhausted _ taken => rw [allocateFrame_ram taken]
  | huge => rfl
  | @hugeWidened i js t s linked _ =>
      rw [MemState.setRam_ram,
        reflag_leaves distinct p linked (PageTableFlags.contains_or_left widen linked) lowerA]

theorem leafEntry_page_path (lower : va < 2 ^ 47) (leaf : (leafEntry ram root va).present = true) :
    TreePath ram 4 root (pageIndices va) 0 (leafEntry ram root va).addr := by
  rcases leafEntry_cases lower ram root with ⟨pt, p, there⟩ | ⟨-, there⟩
  · rw [there] at leaf ⊢
    exact p.snoc (ptIndex_fits va) (PageTableEntry.child_eq_some.mpr ⟨leaf, rfl⟩)
  · rw [there] at leaf
    cases leaf

/-- The pages of `addrs` that were present are not any more, and their frames are free;
    every other leaf is as it was. -/
structure PagesReleased (root : PhysFrame) (h : Multiset PhysFrame) (addrs : List Nat)
    (s s' : MemState) : Prop
    extends Conserves Lawless 4 root h h s s' where
  emptied : ∀ a < 2 ^ 47, ∀ b ∈ addrs, a / PAGE_SIZE = b / PAGE_SIZE →
    leafEntry s'.ram root a = .unused ∨
      (leafEntry s.ram root a).present = false ∧ leafEntry s'.ram root a = leafEntry s.ram root a
  others : ∀ a < 2 ^ 47, (∀ b ∈ addrs, a / PAGE_SIZE ≠ b / PAGE_SIZE) →
    leafEntry s'.ram root a = leafEntry s.ram root a
  freed : ∀ b ∈ addrs, (leafEntry s.ram root b).present = true →
    (leafEntry s.ram root b).addr ∈ s'.available
  more : ∀ f ∈ s.available, f ∈ s'.available

theorem PagesReleased.nil : PagesReleased root h [] s s :=
  ⟨.refl, by simp, fun _ _ _ => rfl, by simp, fun _ free => free⟩

/-- One more page. -/
theorem PagesReleased.snoc {addrs : List Nat} {s₁ : MemState}
    (done : PagesReleased root h addrs s s₁) (lower : va < 2 ^ 47)
    (page : PagesReleased root h [va] s₁ s') : PagesReleased root h (addrs ++ [va]) s s' where
  toConserves := done.toConserves.trans page.toConserves
  emptied a lowerA b member same := by
    by_cases here : a / PAGE_SIZE = va / PAGE_SIZE
    · by_cases old : ∃ b ∈ addrs, a / PAGE_SIZE = b / PAGE_SIZE
      · obtain ⟨b', member', same'⟩ := old
        rcases page.emptied a lowerA va (by simp) here with empty | ⟨absent, kept⟩
        · exact .inl empty
        · rw [kept]
          exact done.emptied a lowerA b' member' same'
      · have first := done.others a lowerA fun b' member' same' => old ⟨b', member', same'⟩
        rw [← first]
        exact page.emptied a lowerA va (by simp) here
    · have kept := page.others a lowerA fun b' member' => by
        rw [List.mem_singleton.mp member']
        exact here
      rw [kept]
      rcases List.mem_append.mp member with old | new
      · exact done.emptied a lowerA b old same
      · exact absurd (List.mem_singleton.mp new ▸ same) here
  others a lowerA apart := by
    rw [page.others a lowerA fun b member => apart b (List.mem_append_right _ member),
      done.others a lowerA fun b member => apart b (List.mem_append_left _ member)]
  freed b member there := by
    rcases List.mem_append.mp member with old | new
    · exact page.more _ (done.freed b old there)
    · obtain rfl := List.mem_singleton.mp new
      by_cases old : ∃ b' ∈ addrs, b / PAGE_SIZE = b' / PAGE_SIZE
      · obtain ⟨b', member', same⟩ := old
        rw [leafEntry_page same] at there ⊢
        exact page.more _ (done.freed b' member' there)
      · have first := done.others b lower fun b' member' same => old ⟨b', member', same⟩
        rw [← first] at there ⊢
        exact page.freed b new there
  more f free := page.more f (done.more f free)

/-- Releasing a page empties its leaf, and changes no other. -/
theorem releasePage_leaves (overflow : String) (lower : va < 2 ^ 47)
    (distinct : (owned 4 root h s).Nodup)
    (small : (leafEntry s.ram root va).present = true → (leafEntry s.ram root va).huge = false) :
    (releasePage root overflow va s).Sat False (fun _ s' => PagesReleased root h [va] s s')
    (fun _ _ => False) := by
  have next : checkedAdd va PAGE_SIZE = some (va + PAGE_SIZE) := by
    rw [checkedAdd, if_pos]
    simp only [PAGE_SIZE]
    omega
  have nothing : (leafEntry s.ram root va).present = false → PagesReleased root h [va] s s := by
    refine fun absent => ⟨.refl, fun a _ b member same => .inr ⟨?_, rfl⟩, fun _ _ _ => rfl,
      fun b member there => ?_,
      fun _ free => free⟩
    · rw [leafEntry_page same, List.mem_singleton.mp member]
      exact absent
    · rw [List.mem_singleton.mp member, absent] at there
      cases there
  simp only [releasePage, virtAddr, VirtAddr.new_lower lower, Prog.expect, Prog.pure_bind,
    Prog.bind_ok (walkPagetable_lookup _ _ _), next, Prog.okOr]
  rcases leafEntry_cases lower s.ram root with ⟨pt, p, there⟩ | ⟨absent, there⟩
  · rw [lookup_of_path p]
    rw [there] at small
    simp only [Prog.get_bind]
    by_cases linked : (s.ram.entry pt (ptIndex va)).present = true
    · simp only [linked, if_true, Prog.bind_ok (frameFromEntry_run linked (small linked) _)]
      have unlinked := unlink_conserves (P := Lawless) distinct p (ptIndex_fits va) linked rfl
      have leaf : ∀ a < 2 ^ 47, leafEntry (s.ram.setEntry pt (ptIndex va) .unused) root a =
          if a / PAGE_SIZE = va / PAGE_SIZE then .unused else leafEntry s.ram root a :=
        fun a lowerA => setEntry_leaf distinct p lower lowerA
      refine ⟨unlinked.trans (deallocateFrame_conserves rfl), fun a lowerA b member same => .inl ?_,
        fun a lowerA apart => ?_, fun b member _ => ?_, fun f free => Multiset.mem_cons_of_mem free⟩
      · rw [List.mem_singleton.mp member] at same
        exact (leaf a lowerA).trans (if_pos same)
      · exact (leaf a lowerA).trans (if_neg (apart va (by simp)))
      · rw [List.mem_singleton.mp member, there]
        exact Multiset.mem_cons_self (s.ram.entry pt (ptIndex va)).addr s.available
    · simp only [linked, Bool.false_eq_true, if_false]
      refine nothing ?_
      rw [there]
      simpa using linked
  · rw [absent]
    exact nothing (by rw [there]; rfl)

/-- Releasing pages one by one. -/
theorem releasePages_leaves {addrs : List Nat} (overflow : String) (lower : ∀ b ∈ addrs, b < 2 ^ 47)
    (distinct : (owned 4 root h s).Nodup)
    (small : ∀ b ∈ addrs, (leafEntry s.ram root b).present = true →
    (leafEntry s.ram root b).huge = false) :
    (Prog.each addrs (releasePage root overflow) s).Sat False
    (fun _ s' => PagesReleased root h addrs s s') (fun _ _ => False) := by
  refine Outcome.Sat.each (fun gone s' => PagesReleased root h gone s s') _
    (fun gone b rest s₁ split done => ?_) .nil
  have member : b ∈ addrs := by simp [split]
  refine (releasePage_leaves overflow (lower b member) (done.nodup distinct) fun there =>
    ?_).mono id
    (fun _ s₂ page => done.snoc (lower b member) page) fun _ _ impossible => impossible
  by_cases old : ∃ b' ∈ gone, b / PAGE_SIZE = b' / PAGE_SIZE
  · obtain ⟨b', member', same⟩ := old
    rcases done.emptied b (lower b member) b' member' same with empty | ⟨-, kept⟩
    · rw [empty] at there
      cases there
    · rw [kept] at there ⊢
      exact small b member there
  · have kept := done.others b (lower b member) fun b' member' same => old ⟨b', member', same⟩
    rw [kept] at there ⊢
    exact small b member there

/-- The pages of `addrs` have been mapped to cleared frames that were free; every other
    leaf is as it was. -/
structure LeavesSet (root : PhysFrame) (addrs : List Nat) (s s' : MemState) : Prop where
  fresh : ∀ a ∈ addrs, (leafEntry s.ram root a).present = false
  backed : ∀ a ∈ addrs, ∃ c ∈ s.available, leafEntry s'.ram root a = ⟨c, tableFlags⟩ ∧
    s'.ram c = fun _ => 0
  others : ∀ a < 2 ^ 47, (∀ b ∈ addrs, a / PAGE_SIZE ≠ b / PAGE_SIZE) →
    leafEntry s'.ram root a = leafEntry s.ram root a

namespace LeavesSet

variable {addrs : List Nat} {s₁ : MemState}

theorem nil : LeavesSet root [] s s := ⟨by simp, by simp, fun _ _ _ => rfl⟩

theorem present (set : LeavesSet root addrs s s') {b : Nat} (member : b ∈ addrs)
    (same : a / PAGE_SIZE = b / PAGE_SIZE) :
    (leafEntry s'.ram root a).present = true := by
  obtain ⟨c, -, leaf, -⟩ := set.backed b member
  rw [leafEntry_page same, leaf]
  exact tableFlags_present

/-- One more page. -/
theorem snoc (set : LeavesSet root addrs s s₁) (before : Extends Lawless 4 root h h s s₁)
    (lower : ∀ b ∈ addrs, b < 2 ^ 47) (lowerA : a < 2 ^ 47) (spared : Spares 4 root h s₁ s')
    (page : LeavesSet root [a] s₁ s') : LeavesSet root (addrs ++ [a]) s s' := by
  have absent : (leafEntry s₁.ram root a).present = false := page.fresh a (by simp)
  have new : ∀ b ∈ addrs, a / PAGE_SIZE ≠ b / PAGE_SIZE := fun b member same =>
    Bool.noConfusion (absent.symm.trans (set.present member same))
  refine ⟨fun b member => ?_, fun b member => ?_, fun b lowerB apart => ?_⟩
  · rcases List.mem_append.mp member with old | here
    · exact set.fresh b old
    · obtain rfl := List.mem_singleton.mp here
      rw [← set.others b lowerA new]
      exact absent
  · rcases List.mem_append.mp member with old | here
    · obtain ⟨c, free, leaf, zero⟩ := set.backed b old
      have still : leafEntry s'.ram root b = leafEntry s₁.ram root b :=
        page.others b (lower b old) fun b' member' => by
          rw [List.mem_singleton.mp member']
          exact (new b old).symm
      have p := leafEntry_page_path (lower b old) (set.present old rfl)
      rw [leaf] at p
      exact ⟨c, free, by rw [still, leaf], by rw [spared c (.inr ⟨_, p⟩), zero]⟩
    · obtain rfl := List.mem_singleton.mp here
      obtain ⟨c, free, leaf, zero⟩ := page.backed b (by simp)
      exact ⟨c, (before.spare c free).1, leaf, zero⟩
  · rw [page.others b lowerB fun b' member' => apart b' (List.mem_append_right _ member'),
      set.others b lowerB fun b' member' => apart b' (List.mem_append_left _ member')]

end LeavesSet

/-- One page of a growth is mapped, or the growth is rolled back from a state that has
    the same leaves. -/
theorem allocUvmPage_leaves {R : MemState → Prop} (start : Nat) (lower : va < 2 ^ 47)
    (distinct : (owned 4 root h s).Nodup)
    (rolls : ∀ t, Conserves Lawless 4 root h h s t →
    (∀ a < 2 ^ 47, leafEntry t.ram root a = leafEntry s.ram root a) →
      (rollbackAllocUvm root start va t).Sat False (fun _ => R) (fun _ _ => False)) :
    (allocUvmPage root start va s).Sat False
      (fun _ s' => Extends Lawless 4 root h h s s' ∧ Spares 4 root h s s' ∧
        LeavesSet root [va] s s' ∧
        FlagsGrow tableFlags 4 root s.ram s'.ram)
      (fun _ => R) := by
  have rollback : ∀ {t : MemState} (message : String), Conserves Lawless 4 root h h s t →
      (∀ a < 2 ^ 47, leafEntry t.ram root a = leafEntry s.ram root a) →
      ((rollbackAllocUvm root start va >>= fun _ =>
        (Prog.fail message : Prog MemState Unit)) t).Sat False
        (fun _ s' => Extends Lawless 4 root h h s s' ∧ Spares 4 root h s s' ∧
          LeavesSet root [va] s s' ∧
        FlagsGrow tableFlags 4 root s.ram s'.ram)
        (fun _ => R) := by
    intro t message kept same
    exact Outcome.Sat.bind (Q := fun _ => R)
      ((rolls t kept same).mono id (fun _ _ done => done) fun _ _ impossible => impossible.elim)
        fun _ _ done => done
  obtain ⟨s₁, r, run, ram, -⟩ := allocateFrame_spec s
  rw [allocUvmPage, Prog.bind_ok run]
  cases r with
  | none =>
      have kept : Extends Lawless 4 root h h s s₁ := allocateFrame_none run
      exact rollback _ kept.toConserves fun a _ => by rw [ram]
  | some c =>
      have free := allocateFrame_free run
      have first : Extends Lawless 4 root h (c ::ₘ h) s s₁ := allocateFrame_extends run
      obtain ⟨clear, -⟩ := hand_extends (P := Lawless) (s₁.ram.zeroFrame c)
        (first.nodup distinct) fun f hf => PhysMem.zeroFrame_frame hf
      have second := first.trans clear
      have held := second.nodup distinct
      -- the frame in hand is cleared, which no table sees
      have cleared : ∀ a < 2 ^ 47,
        leafEntry (s₁.ram.zeroFrame c) root a = leafEntry s.ram root a := by
        intro a lowerA
        rw [← ram]
        refine leafEntry_congr lowerA fun f member => PhysMem.zeroFrame_frame ?_
        rintro rfl
        exact hand_fresh (first.nodup distinct) (Multiset.mem_of_le (treeTables_le _ _ _) member)
      obtain ⟨r, s₂, walked, walk⟩ := walkPagetable_descent root va (s₁.setRam (s₁.ram.zeroFrame c))
      have tables : Allows Lawless tableFlags .empty [] (tableIndices va) :=
        fun _ _ => ⟨trivial, fun _ _ => trivial⟩
      obtain ⟨third, arrived, -⟩ :=
        walk.extends (H := 4) tableFlags_present tables (fits_tableIndices lower) held .nil
      have leaves : ∀ a < 2 ^ 47, leafEntry s₂.ram root a = leafEntry s.ram root a :=
        fun a lowerA => by
        rw [walk.leaves tableFlags_present (fits_tableIndices lower) held .nil lowerA,
          MemState.setRam_ram,
          cleared a lowerA]
      have reached := second.trans third
      simp only [Prog.bind_ok (writeRam_run _ _), virtAddr, VirtAddr.new_lower lower, Prog.expect,
        Prog.pure_bind, Prog.bind_ok walked]
      cases r with
      | none => exact rollback _ (reached.toConserves.trans (deallocateFrame_conserves rfl)) leaves
      | some pt =>
          have p := arrived pt rfl
          simp only [Option.map_some, Prog.get_bind]
          by_cases linked : (s₂.ram.entry pt (ptIndex va)).present = true
          · simp only [linked, if_true]
            exact rollback _ (reached.toConserves.trans (deallocateFrame_conserves rfl)) leaves
          · have absent : (s₂.ram.entry pt (ptIndex va)).present = false := by simpa using linked
            have held₂ := third.nodup held
            obtain ⟨fourth, -, -⟩ :=
              page_extends (P := Lawless) held₂ p absent tableFlags_present trivial
            have next : checkedAdd va PAGE_SIZE = some (va + PAGE_SIZE) := by
              rw [checkedAdd, if_pos]
              simp only [PAGE_SIZE]
              omega
            have leafSmall : (PageTableFlags.PRESENT ||| .WRITABLE ||| .USER_ACCESSIBLE).contains
                .HUGE_PAGE = false := tableFlags_small
            simp only [absent, Bool.false_eq_true, if_false,
              Prog.bind_ok (setFrame_run leafSmall _), next, Prog.okOr]
            have spared : Spares 4 root (c ::ₘ h) (s₁.setRam (s₁.ram.zeroFrame c)) s₂ :=
              walk.spares tableFlags_present (fits_tableIndices lower) held .nil
            have last : ∀ x, (x ∈ c ::ₘ h ∨ ∃ is, TreePath s₂.ram 4 root is 0 x) →
                s₂.ram.setEntry pt (ptIndex va) ⟨c, tableFlags⟩ x = s₂.ram x :=
                  setEntry_spares held₂ p
            have inHand : c ∈ c ::ₘ h := Multiset.mem_cons_self c h
            have tablesFlags : FlagsGrow tableFlags 4 root s.ram (s₁.ram.zeroFrame c) := by
              rw [← ram]
              refine flagsGrow_congr fun f member => PhysMem.zeroFrame_frame ?_
              rintro rfl
              exact hand_fresh (first.nodup distinct)
                (Multiset.mem_of_le (treeTables_le _ _ _) member)
            have walkFlags : FlagsGrow tableFlags 4 root (s₁.ram.zeroFrame c) s₂.ram :=
              walk.flags (by simp) tableFlags_present (fits_tableIndices lower) held .nil
            have leafFlags : FlagsGrow tableFlags 4 root s₂.ram
              (s₂.ram.setEntry pt (ptIndex va) ⟨c, tableFlags⟩) :=
              flagsGrow_link (tree_nodup held₂) p absent
                (fun x _ j other => PhysMem.entry_setEntry_ne other)
                PhysMem.entry_setEntry fun tall => absurd rfl tall
            refine ⟨reached.trans fourth, fun x here => ?_,
              ⟨fun a here => ?_, fun a here => ⟨c, free, ?_, ?_⟩,
              fun a lowerA apart => ?_⟩, (tablesFlags.trans walkFlags).trans leafFlags⟩
            · have here₁ : x ∈ c ::ₘ h ∨ ∃ is, TreePath (s₁.ram.zeroFrame c) 4 root is 0 x :=
                here.imp (Multiset.mem_cons_of_mem) (Exists.imp fun is q => second.paths _ _ _ q)
              exact (last x (here₁.imp id (Exists.imp fun is q => third.paths _ _ _ q))).trans
                ((spared x here₁).trans (by
                  rw [MemState.setRam_ram,
                    PhysMem.zeroFrame_frame (available_apart distinct free here), ram]))
            · obtain rfl := List.mem_singleton.mp here
              rw [← leaves a lower, leafEntry_of_path p]
              exact absent
            · obtain rfl := List.mem_singleton.mp here
              exact (setEntry_leaf held₂ p lower lower).trans (if_pos rfl)
            · refine (last c (.inl inHand)).trans ((spared c (.inl inHand)).trans ?_)
              rw [MemState.setRam_ram]
              funext off
              exact if_pos rfl
            · exact ((setEntry_leaf held₂ p lower lowerA).trans
                (if_neg (apart va (by simp)))).trans (leaves a lowerA)

/-- The pages before a page of a range are those of the range up to it. -/
theorem pageSteps_before {start stop : Nat} {done rest : List Nat}
    (split : pageSteps start stop = done ++ a :: rest) :
    pageSteps start a = done := by
  have prefixed : done = (pageSteps start stop).take done.length := by rw [split, List.take_left]
  have short : done.length < (pageSteps start stop).length := by
    rw [split]
    simp
  have place : (pageSteps start stop)[done.length]? = some a := by
    rw [split]
    simp
  rw [pageSteps, List.length_map, List.length_range] at short
  obtain rfl : start + PAGE_SIZE * done.length = a := by
    rw [pageSteps, List.getElem?_map, List.getElem?_range short, Option.map_some] at place
    exact Option.some.inj place
  have count : (start + PAGE_SIZE * done.length - start +
    (PAGE_SIZE - 1)) / PAGE_SIZE = done.length := by
    simp only [PAGE_SIZE]
    omega
  rw [pageSteps, ← List.map_take, List.take_range, min_eq_left short.le] at prefixed
  rw [pageSteps, count]
  exact prefixed.symm

/-- The lower leaves are as before, save that a slot of one of the pages that was not
    present may be zero now. -/
def LeavesBack (root : PhysFrame) (addrs : List Nat) (s s' : MemState) : Prop :=
  ∀ a < 2 ^ 47, leafEntry s'.ram root a = leafEntry s.ram root a ∨
    (∃ b ∈ addrs, a / PAGE_SIZE = b / PAGE_SIZE) ∧ (leafEntry s.ram root a).present = false ∧
      leafEntry s'.ram root a = .unused

theorem LeavesBack.mono {addrs more : List Nat} (back : LeavesBack root addrs s s')
    (subset : ∀ b ∈ addrs, b ∈ more) : LeavesBack root more s s' := by
  intro a lowerA
  refine (back a lowerA).imp_right fun emptied => ⟨?_, emptied.2⟩
  obtain ⟨b, member, same⟩ := emptied.1
  exact ⟨b, subset b member, same⟩

/-- Releasing the pages that a growth has mapped empties their leaves. -/
theorem LeavesSet.taken_back {addrs : List Nat} {s₁ t : MemState} (set : LeavesSet root addrs s s₁)
    (same : ∀ a < 2 ^ 47, leafEntry t.ram root a = leafEntry s₁.ram root a)
    (done : PagesReleased root h addrs t s') : LeavesBack root addrs s s' := by
  intro a lowerA
  by_cases grown : ∃ b ∈ addrs, a / PAGE_SIZE = b / PAGE_SIZE
  · obtain ⟨b, member, equal⟩ := grown
    refine .inr ⟨⟨b, member, equal⟩, ?_,
      (done.emptied a lowerA b member equal).resolve_right fun absent => ?_⟩
    · rw [leafEntry_page equal]
      exact set.fresh b member
    · -- the page was present when the release began
      have there := set.present member equal
      rw [← same a lowerA, absent.1] at there
      cases there
  · have apart : ∀ b ∈ addrs, a / PAGE_SIZE ≠ b / PAGE_SIZE :=
      fun b member equal => grown ⟨b, member, equal⟩
    exact .inl ((done.others a lowerA apart).trans
      ((same a lowerA).trans (set.others a lowerA apart)))

/-- The rollback empties the leaves that the growth has set. -/
theorem rollback_leaves {start : Nat} {s₁ t : MemState} (lower : va < 2 ^ 47)
    (distinct : (owned 4 root h s).Nodup)
    (set : LeavesSet root (pageSteps start va) s s₁) (kept : Conserves Lawless 4 root h h s t)
    (same : ∀ a < 2 ^ 47, leafEntry t.ram root a = leafEntry s₁.ram root a) :
    (rollbackAllocUvm root start va t).Sat False
      (fun _ s' => Conserves Lawless 4 root h h s s' ∧ LeavesBack root (pageSteps start va) s s')
      (fun _ _ => False) := by
  have inside : ∀ b ∈ pageSteps start va, b < 2 ^ 47 :=
    fun b member => (mem_pageSteps member).2.trans lower
  refine (releasePages_leaves _ inside (kept.nodup distinct) fun b member _ => ?_).mono id
    (fun _ s' done => ?_)
    fun _ _ impossible => impossible
  · obtain ⟨c, -, leaf, -⟩ := set.backed b member
    rw [same b (inside b member), leaf]
    exact tableFlags_small
  · exact ⟨kept.trans done.toConserves, set.taken_back same done⟩

/-- Growing sets the leaves of its pages, and a growth that fails sets none. -/
theorem allocUvm_leaves {oldsz newsz start : Nat} (ordered : oldsz ≤ newsz) (below : newsz < 2 ^ 47)
    (rounded : pageRoundUp oldsz = some start) (distinct : (owned 4 root h s).Nodup) :
    (allocUvm root oldsz newsz s).Sat False
      (fun r s' => r = newsz ∧ Extends Lawless 4 root h h s s' ∧
        LeavesSet root (pageSteps start newsz) s s' ∧
        FlagsGrow tableFlags 4 root s.ram s'.ram)
      (fun _ s' => Conserves Lawless 4 root h h s s' ∧
        LeavesBack root (pageSteps start newsz) s s') := by
  have top : ¬ userSpaceTop ≤ newsz := by
    simpa [userSpaceTop, PAGETABLE_USER_SPACE_END, PTE_BASE_ADDRESS] using below
  rw [allocUvm, if_neg top, if_neg (not_lt.mpr ordered), rounded]
  simp only [Prog.okOr, Prog.pure_bind]
  refine Outcome.Sat.bind (Q := fun _ s' => Extends Lawless 4 root h h s s' ∧
    LeavesSet root (pageSteps start newsz) s s' ∧
      FlagsGrow tableFlags 4 root s.ram s'.ram)
    (Outcome.Sat.each (fun done s' => Extends Lawless 4 root h h s s' ∧ LeavesSet root done s s' ∧
      FlagsGrow tableFlags 4 root s.ram s'.ram) _ (fun done a rest s₁ split inv => ?_)
        ⟨.refl, .nil, .refl⟩) fun _ s' grown => ⟨rfl, grown⟩
  obtain ⟨before, set, flags⟩ := inv
  have inside : ∀ b ∈ done ++ a :: rest, b < 2 ^ 47 :=
    fun b member => (mem_pageSteps (split ▸ member)).2.trans below
  have lowerA : a < 2 ^ 47 := inside a (by simp)
  have lower : ∀ b ∈ done, b < 2 ^ 47 := fun b member => inside b (List.mem_append_left _ member)
  refine (allocUvmPage_leaves start lowerA (before.nodup distinct) fun t kept same => ?_).mono id
    (fun _ s₂ page => ⟨before.trans page.1, set.snoc before lower lowerA page.2.1 page.2.2.1,
      flags.trans page.2.2.2⟩) fun _ _ failed => failed
  have steps := pageSteps_before split
  rw [← steps] at set
  refine (rollback_leaves lowerA distinct set (before.toConserves.trans kept) same).mono id
    (fun _ _ back => ⟨back.1, back.2.mono fun b member => ?_⟩) fun _ _ impossible => impossible
  rw [split]
  exact List.mem_append_left _ (steps ▸ member)

/-- Shrinking releases the pages above the new size. -/
theorem deallocUvm_leaves {oldsz newsz start : Nat} (shrinks : newsz < oldsz)
    (lower : oldsz ≤ 2 ^ 47)
    (rounded : pageRoundUp newsz = some start) (distinct : (owned 4 root h s).Nodup)
    (small : ∀ a < 2 ^ 47, (leafEntry s.ram root a).present = true →
    (leafEntry s.ram root a).huge = false) :
    (deallocUvm root oldsz newsz s).Sat False
    (fun r s' => r = newsz ∧ PagesReleased root h (pageSteps start oldsz) s s')
      (fun _ _ => False) := by
  have inside : ∀ b ∈ pageSteps start oldsz, b < 2 ^ 47 :=
    fun b member => (mem_pageSteps member).2.trans_le lower
  rw [deallocUvm, if_neg (not_le.mpr shrinks), rounded]
  simp only [Prog.okOr, Prog.pure_bind]
  exact Outcome.Sat.bind (releasePages_leaves _ inside distinct fun b member =>
    small b (inside b member))
    fun _ s' done => ⟨rfl, done⟩

end FerriOS.Memory
