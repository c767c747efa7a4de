import FerriOS.Memory.UserView

/-! # The flags on the way to a page

The processor allows an access when every level on the way to the page does. A table
that is linked into the tree brings the flags of its slot with it and no others, so the
flags on the way to any address stay, and what is new are those flags.
-/

namespace FerriOS.Memory

open FerriOS.Lib

variable {root t c x : PhysFrame} {h : Multiset PhysFrame} {s s' : MemState}
  {ram ram' ram'' : PhysMem}
  {is js : List Nat} {d e i va : Nat} {fl insert : PageTableFlags}

theorem PageTableFlags.contains_or {a b c : PageTableFlags} :
    a.contains (b ||| c) = true ↔ a.contains b = true ∧ a.contains c = true := by
  refine ⟨fun both => ⟨?_, ?_⟩, fun ⟨left, right⟩ => ?_⟩
  · exact PageTableFlags.contains_trans both
      (PageTableFlags.contains_or_left c (PageTableFlags.contains_self b))
  · exact PageTableFlags.contains_trans both
      (PageTableFlags.contains_or_right b (PageTableFlags.contains_self c))
  · rw [PageTableFlags.contains_iff] at left right ⊢
    simp only [PageTableFlags.or_def, BitVec.and_or_distrib_left, left, right, and_self]

/-- The access that the flags `bits` stand for is allowed at every level. -/
def Permits (bits : PageTableFlags) (ram : PhysMem) (root : PhysFrame) (va : Nat) : Prop :=
  (flagsOf ram root va).length = 4 ∧ ∀ f ∈ flagsOf ram root va, f.contains bits = true

def UserReadable (ram : PhysMem) (root : PhysFrame) (va : Nat) : Prop :=
  Permits (.PRESENT ||| .USER_ACCESSIBLE) ram root va

def UserWritable (ram : PhysMem) (root : PhysFrame) (va : Nat) : Prop :=
  Permits (.PRESENT ||| .USER_ACCESSIBLE ||| .WRITABLE) ram root va

/-- The flags along slots of the user half stay, and new ones are `fl`. -/
def FlagsGrow (fl : PageTableFlags) (d : Nat) (t : PhysFrame) (ram ram' : PhysMem) : Prop :=
  ∀ is, FitsFrom d is → ∀ f, (f ∈ flagsAlong ram t is → f ∈ flagsAlong ram' t is) ∧
    (f ∈ flagsAlong ram' t is → f ∈ flagsAlong ram t is ∨ f = fl)

theorem FlagsGrow.refl : FlagsGrow fl d t ram ram := fun _ _ _ => ⟨id, .inl⟩

theorem FlagsGrow.trans (first : FlagsGrow fl d t ram ram') (second : FlagsGrow fl d t ram' ram'') :
    FlagsGrow fl d t ram ram'' := fun is fits f =>
  ⟨fun old => (second is fits f).1 ((first is fits f).1 old),
    fun new => ((second is fits f).2 new).elim (first is fits f).2 .inr⟩

theorem flagsGrow_congr (same : ∀ f ∈ treeTables ram d t, ram' f = ram f) :
    FlagsGrow fl d t ram ram' := by
  have equal : ∀ is, FitsFrom d is → flagsAlong ram' t is = flagsAlong ram t is := fun is fits =>
    flagsAlong_congr fits fun _ _ x p _ =>
      PhysMem.entry_congr (same x (Radix.mem_tables.mpr ⟨_, _, p⟩))
  exact fun is fits f => ⟨fun old => (equal is fits).symm ▸ old, fun new =>
    .inl (equal is fits ▸ new)⟩

/-- A node that is linked into an absent slot, without links of its own. -/
theorem flagsGrow_link (distinct : (treeFrames ram 4 root).Nodup)
    (p : TreePath ram 4 root is (d + 1) t)
    (absent : (ram.entry t i).present = false)
    (others : ∀ x ∈ treeFrames ram 4 root, ∀ j, (x, j) ≠ (t, i) → ram'.entry x j = ram.entry x j)
    (here : ram'.entry t i = ⟨c, fl⟩) (cleared : d ≠ 0 → ∀ j, ram'.entry c j = .unused) :
    FlagsGrow fl 4 root ram ram' := by
  -- along the slots `ks` from a node `x` of the tree
  suffices below : ∀ ks e x js, TreePath ram 4 root js e x → FitsFrom e ks → ∀ f,
      (f ∈ flagsAlong ram x ks → f ∈ flagsAlong ram' x ks) ∧
      (f ∈ flagsAlong ram' x ks → f ∈ flagsAlong ram x ks ∨ f = fl) from
    fun ks fits f => below ks 4 root [] .nil fits f
  intro ks
  induction ks with
  | nil => exact fun _ _ _ _ _ _ => ⟨id, .inl⟩
  | cons k ks ih =>
      intro e x js q fits f
      cases e with
      | zero => exact fits.elim
      | succ e =>
          rw [flagsAlong_cons, flagsAlong_cons]
          by_cases slot : (x, k) = (t, i)
          · obtain ⟨rfl, rfl⟩ : x = t ∧ k = i := Prod.mk.inj slot
            obtain rfl : d = e := by
              have height := (Radix.Path.unique distinct p q).2
              omega
            rw [absent, here]
            refine ⟨fun none => absurd none List.not_mem_nil, fun new => .inr ?_⟩
            split at new
            case isFalse => exact absurd new List.not_mem_nil
            case isTrue =>
              rcases List.mem_cons.mp new with same | deeper
              · exact same
              · -- the linked node has no links
                cases ks with
                | nil => exact absurd deeper List.not_mem_nil
                | cons j ks =>
                    have tall : d ≠ 0 := by
                      rintro rfl
                      exact fits.2
                    rw [flagsAlong_cons, cleared tall j] at deeper
                    exact absurd deeper List.not_mem_nil
          · rw [others x q.mem k slot]
            split
            case isFalse => exact ⟨id, .inl⟩
            case isTrue linked =>
              have next := ih e _ _
                (q.snoc fits.1 (PageTableEntry.child_eq_some.mpr ⟨linked, rfl⟩)) fits.2 f
              rw [List.mem_cons, List.mem_cons]
              exact ⟨fun old => old.imp id next.1, fun new =>
                new.elim (fun first => .inl (.inl first)) fun rest =>
                (next.2 rest).imp .inr id⟩

/-- A walk that only creates tables brings their flags. -/
theorem Descent.flags {r : Option PhysFrame} (walk : Descent insert .empty js t s r s')
    (arrives : r ≠ none)
    (present : insert.contains .PRESENT = true) (fits : Fits js e)
    (distinct : (owned 4 root h s).Nodup)
    (p : TreePath s.ram 4 root is (js.length + e + 1) t) :
    FlagsGrow insert 4 root s.ram s'.ram := by
  induction walk generalizing is with
  | arrived => exact .refl
  | @kept js s r s' i t linked _ _ ih =>
      rw [List.length_cons, show js.length + 1 + e + 1 = js.length + e + 1 + 1 by omega] at p
      exact ih arrives fits.2 distinct
        (p.snoc fits.1 (PageTableEntry.child_eq_some.mpr ⟨linked, rfl⟩))
  | widened _ lacks _ _ =>
      rw [PageTableFlags.contains_empty] at lacks
      cases lacks
  | @created s c s₁ js t i r s' absent taken _ ih =>
      rw [List.length_cons, show js.length + 1 + e + 1 = js.length + e + 1 + 1 by omega] at p
      obtain ⟨step, q, -⟩ := create_extends
        (P := Lawless) distinct p fits.1 absent present trivial taken
      refine FlagsGrow.trans ?_ (ih arrives fits.2 (step.nodup distinct) q)
      have free := allocateFrame_free taken
      have apart : ∀ x ∈ treeFrames s.ram 4 root, x ≠ c := by
        rintro x member rfl
        exact tree_apart distinct member free
      refine flagsGrow_link (c := c) (tree_nodup distinct) p absent (fun x member j other => ?_) ?_
        fun _ j => ?_
      · rw [MemState.setRam_ram, PhysMem.entry_setEntry_ne other,
          PhysMem.entry_zeroFrame_ne (apart x member),
          allocateFrame_ram taken]
      · rw [MemState.setRam_ram, PhysMem.entry_setEntry]
      · rw [MemState.setRam_ram,
          PhysMem.entry_setEntry_ne (fun same => apart t p.mem (Prod.mk.inj same).1.symm),
          PhysMem.entry_zeroFrame]
  | exhausted => exact absurd rfl arrives
  | huge => exact absurd rfl arrives
  | hugeWidened => exact absurd rfl arrives

/-- The flags along slots are those of the entries that are passed. -/
theorem mem_flagsAlong {P : SlotLaw} {f : PageTableFlags} (slots : Slots P ram 4 root)
    (p : TreePath ram 4 root js e t)
    (fits : FitsFrom e is) (member : f ∈ flagsAlong ram t is) :
    ∃ ks, ks ≠ [] ∧ ks <+: is ∧ P (js ++ ks) f ∧ f.contains .PRESENT = true ∧
    js ++ ks ∈ treeRoutes ram 4 root := by
  induction is generalizing js e t with
  | nil => exact absurd member List.not_mem_nil
  | cons i is ih =>
      cases e with
      | zero => exact fits.elim
      | succ e =>
          rw [flagsAlong_cons] at member
          split at member
          case isFalse => exact absurd member List.not_mem_nil
          case isTrue linked =>
            have q := p.snoc fits.1 (PageTableEntry.child_eq_some.mpr ⟨linked, rfl⟩)
            rcases List.mem_cons.mp member with rfl | deeper
            · have law := (slots _ _ _ p i fits.1).resolve_left fun zero => by
                rw [zero] at linked
                cases linked
              exact ⟨[i], by simp, by simp, law.2, linked, mem_treeRoutes.mpr ⟨_, _, q⟩⟩
            · obtain ⟨ks, -, initial, law, present, route⟩ := ih q fits.2 deeper
              rw [List.append_assoc] at law route
              exact ⟨i :: ks, by simp, List.cons_prefix_cons.mpr ⟨rfl, initial⟩, law, present,
                route⟩

theorem length_flagsAlong (p : TreePath ram d t is e x) :
    (flagsAlong ram t is).length = is.length := by
  induction p with
  | nil => rfl
  | cons _ link _ ih =>
      obtain ⟨linked, rfl⟩ := PageTableEntry.child_eq_some.mp link
      rw [flagsAlong_cons, if_pos linked, List.length_cons, List.length_cons, ih]

theorem flagsAlong_append {ks : List Nat} (p : TreePath ram d t is e x) :
    flagsAlong ram t (is ++ ks) = flagsAlong ram t is ++ flagsAlong ram x ks := by
  induction p with
  | nil => rfl
  | cons _ link _ ih =>
      obtain ⟨linked, rfl⟩ := PageTableEntry.child_eq_some.mp link
      rw [List.cons_append, flagsAlong_cons, flagsAlong_cons, if_pos linked, if_pos linked, ih,
        List.cons_append]

theorem law_flagsAlong {P : SlotLaw} {ks : List Nat} (slots : Slots P ram 4 root)
    (p : TreePath ram 4 root (is ++ i :: ks) e x) :
    ∃ f ∈ flagsAlong ram root (is ++ i :: ks), P (is ++ [i]) f := by
  obtain ⟨d, y, q⟩ := p.initial
  cases p.of_append q with
  | cons inside link _ =>
      obtain ⟨linked, rfl⟩ := PageTableEntry.child_eq_some.mp link
      have law := (slots _ _ _ q i inside).resolve_left fun zero => by
        rw [zero] at linked
        cases linked
      refine ⟨_, ?_, law.2⟩
      rw [flagsAlong_append q, flagsAlong_cons, if_pos linked]
      simp

end FerriOS.Memory
