import FerriOS.Memory.Spaces

/-! # Copying an address space

The copy of a tree has the shape of the tree, with the same flags in every slot and
the same bytes in every page. It is built from frames that the allocator had, and
copying fails only when there are fewer of them than the tree has.
-/

namespace FerriOS.Memory

open FerriOS.Lib

variable {P : SlotLaw} {root : PhysFrame} {h : Multiset PhysFrame} {s s' : MemState}
  {ram₀ ram ram' : PhysMem} {d i : Nat}

/-- The present slots of a tree obey the law `P`. -/
def Linked (P : SlotLaw) (ram : PhysMem) (H : Nat) (root : PhysFrame) : Prop :=
  ∀ is d t, TreePath ram H root is (d + 1) t → ∀ i ∈ userFan (d + 1),
    (ram.entry t i).present = true →
    P (is ++ [i]) (ram.entry t i).flags

theorem Slots.linked (slots : Slots P ram d root) : Linked P ram d root := by
  intro is e t p i inside present
  rcases slots is e t p i inside with zero | ⟨-, law⟩
  · simp [zero] at present
  · exact law

theorem Linked.child {c : PhysFrame} (linked : Linked P ram (d + 1) root)
    (inside : i ∈ userFan (d + 1))
    (link : ram.child root i = some c) : Linked (fun js => P (i :: js)) ram d c :=
  fun is e x p j insideJ => linked (i :: is) e x (.cons inside link p) j insideJ

theorem linked_congr (same : ∀ f ∈ treeTables ram d root, ram' f = ram f)
    (linked : Linked P ram d root) :
    Linked P ram' d root := by
  intro is e t p i inside present
  have p₀ := (path_congr_iff same).mp p
  rw [PhysMem.entry_congr (same t p₀.mem_tables)] at present ⊢
  exact linked is e t p₀ i inside present

/-- The tree below `child` in `ram` has the shape, the flags and the pages of the
    tree below `parent` in `ram₀`. -/
def Mirrors (ram₀ ram : PhysMem) : Nat → PhysFrame → PhysFrame → Prop
  | 0, parent, child => ram child = ram₀ parent
  | d + 1, parent, child => ∀ i ∈ userFan (d + 1),
      (ram.entry child i).present = (ram₀.entry parent i).present ∧
      ((ram₀.entry parent i).present = true →
        (ram.entry child i).flags = (ram₀.entry parent i).flags ∧
        Mirrors ram₀ ram d (ram₀.entry parent i).addr (ram.entry child i).addr)

/-- The same for one slot of a table of height `d + 1`. -/
def MirrorsSlot (ram₀ ram : PhysMem) (d : Nat) (parent child : PhysFrame) (i : Nat) : Prop :=
  (ram.entry child i).present = (ram₀.entry parent i).present ∧
    ((ram₀.entry parent i).present = true →
    (ram.entry child i).flags = (ram₀.entry parent i).flags ∧
      Mirrors ram₀ ram d (ram₀.entry parent i).addr (ram.entry child i).addr)

variable {parent child : PhysFrame}

/-- Frames below the copy are all that the copy depends on. -/
theorem Mirrors.congr (mirrors : Mirrors ram₀ ram d parent child)
    (same : ∀ f ∈ treeFrames ram d child, ram' f = ram f) : Mirrors ram₀ ram' d parent child := by
  induction d generalizing parent child with
  | zero => exact (same child (Radix.root_mem _ _)).trans mirrors
  | succ d ih =>
      intro i inside
      obtain ⟨present, below⟩ := mirrors i inside
      have head : ram'.entry child = ram.entry child :=
        PhysMem.entry_congr (same child (Radix.root_mem _ _))
      rw [head]
      refine ⟨present, fun linked =>
        ⟨(below linked).1, ih (below linked).2 fun f member => same f ?_⟩⟩
      have link : ram.child child i = some (ram.entry child i).addr :=
        PageTableEntry.child_eq_some.mpr ⟨present.trans linked, rfl⟩
      exact Multiset.mem_of_le (Radix.Path.nodes_le (.cons inside link .nil)) member

theorem MirrorsSlot.congr (mirrors : MirrorsSlot ram₀ ram d parent child i)
    (head : ram'.entry child i = ram.entry child i)
    (same : ∀ c, ram.child child i = some c → ∀ f ∈ treeFrames ram d c, ram' f = ram f) :
    MirrorsSlot ram₀ ram' d parent child i := by
  obtain ⟨present, below⟩ := mirrors
  rw [MirrorsSlot, head]
  refine ⟨present, fun linked => ⟨(below linked).1, (below linked).2.congr (same _ ?_)⟩⟩
  exact PageTableEntry.child_eq_some.mpr ⟨present.trans linked, rfl⟩

/-- The tree that was copied may be read in a later memory. -/
theorem Mirrors.congr_left {ram₁ : PhysMem} (mirrors : Mirrors ram₀ ram d parent child)
    (same : ∀ f ∈ treeFrames ram₀ d parent, ram₁ f = ram₀ f) : Mirrors ram₁ ram d parent child := by
  induction d generalizing parent child with
  | zero => exact Eq.trans mirrors (same parent (Radix.root_mem _ _)).symm
  | succ d ih =>
      intro i inside
      obtain ⟨present, below⟩ := mirrors i inside
      have head : ram₁.entry parent = ram₀.entry parent :=
        PhysMem.entry_congr (same parent (Radix.root_mem _ _))
      rw [head]
      refine ⟨present, fun linked =>
        ⟨(below linked).1, ih (below linked).2 fun f member => same f ?_⟩⟩
      have link : ram₀.child parent i = some (ram₀.entry parent i).addr :=
        PageTableEntry.child_eq_some.mpr ⟨linked, rfl⟩
      exact Multiset.mem_of_le (Radix.Path.nodes_le (.cons inside link .nil)) member

/-- A copy has as many frames as the tree. -/
theorem Mirrors.card (mirrors : Mirrors ram₀ ram d parent child) :
    Multiset.card (treeFrames ram d child) = Multiset.card (treeFrames ram₀ d parent) := by
  induction d generalizing parent child with
  | zero => rfl
  | succ d ih =>
      simp only [treeFrames, Radix.nodes, Multiset.card_cons, Multiset.card_sum]
      refine congrArg (· + 1) (Finset.sum_congr rfl fun i inside => ?_)
      obtain ⟨present, below⟩ := mirrors i inside
      cases linked : (ram₀.entry parent i).present with
      | false =>
          rw [PhysMem.child, PhysMem.child, PageTableEntry.child_eq_none.mpr linked,
            PageTableEntry.child_eq_none.mpr (present.trans linked), Option.elim_none,
              Option.elim_none]
      | true =>
          rw [PhysMem.child, PhysMem.child, PageTableEntry.child_eq_some.mpr ⟨linked, rfl⟩,
            PageTableEntry.child_eq_some.mpr ⟨present.trans linked, rfl⟩, Option.elim_some,
              Option.elim_some]
          exact ih (below linked).2

/-- A path of one of the two trees is a path of the other. -/
theorem Mirrors.path {is : List Nat} {e : Nat} {x : PhysFrame}
    (mirrors : Mirrors ram₀ ram d parent child)
    (path : TreePath ram₀ d parent is e x) :
    ∃ y, TreePath ram d child is e y ∧ Mirrors ram₀ ram e x y := by
  induction is generalizing d parent child with
  | nil =>
      cases path
      exact ⟨child, .nil, mirrors⟩
  | cons i is ih =>
      cases path with
      | cons inside link path =>
          obtain ⟨present, below⟩ := mirrors i inside
          obtain ⟨linked, rfl⟩ := PageTableEntry.child_eq_some.mp link
          obtain ⟨y, path', mirrors'⟩ := ih (below linked).2 path
          exact ⟨y, .cons inside
            (PageTableEntry.child_eq_some.mpr ⟨present.trans linked, rfl⟩) path', mirrors'⟩

theorem Mirrors.path_back {is : List Nat} {e : Nat} {y : PhysFrame}
    (mirrors : Mirrors ram₀ ram d parent child)
    (path : TreePath ram d child is e y) :
    ∃ x, TreePath ram₀ d parent is e x ∧ Mirrors ram₀ ram e x y := by
  induction is generalizing d parent child with
  | nil =>
      cases path
      exact ⟨parent, .nil, mirrors⟩
  | cons i is ih =>
      cases path with
      | cons inside link path =>
          obtain ⟨present, below⟩ := mirrors i inside
          obtain ⟨linked, rfl⟩ := PageTableEntry.child_eq_some.mp link
          have linked₀ := present.symm.trans linked
          obtain ⟨x, path', mirrors'⟩ := ih (below linked₀).2 path
          exact ⟨x, .cons inside (PageTableEntry.child_eq_some.mpr ⟨linked₀, rfl⟩) path', mirrors'⟩

theorem Mirrors.routes (mirrors : Mirrors ram₀ ram d parent child) :
    treeRoutes ram d child = treeRoutes ram₀ d parent := by
  ext is
  simp only [mem_treeRoutes]
  exact ⟨fun ⟨e, _, path⟩ => ⟨e, (mirrors.path_back path).imp fun _ => And.left⟩,
    fun ⟨e, _, path⟩ => ⟨e, (mirrors.path path).imp fun _ => And.left⟩⟩

private theorem fillNode_run (d : Nat) (src frame : PhysFrame) (s : MemState) : ∃ ram,
    fillNode d src frame s = .ok () (s.setRam ram) ∧ (∀ f ≠ frame, ram f = s.ram f) ∧
      (d ≠ 0 → ∀ i, ram.entry frame i = .unused) ∧ (d = 0 → ram frame = s.ram src) := by
  cases d with
  | zero => exact ⟨_, rfl, fun f hf => PhysMem.copyFrame_frame hf, fun table => absurd rfl table,
      fun _ => PhysMem.copyFrame_self⟩
  | succ d => exact ⟨_, rfl, fun f hf => PhysMem.zeroFrame_frame hf, fun _ i =>
      PhysMem.entry_zeroFrame,
      fun page => nomatch page⟩

/-- A slot below the root was filled with a fresh frame, and the subtree of the
    frame extended: the tree is extended, and its other slots are as before. -/
private theorem graft_extends {frame child : PhysFrame} {h : Multiset PhysFrame} {ram : PhysMem}
    {flags : PageTableFlags} {s₂ : MemState} (taken : allocateFrame s = .ok (some frame) s₂)
    (others : ∀ f ≠ frame, ram f = s₂.ram f) (cleared : d ≠ 0 → ∀ j, ram.entry frame j = .unused)
    (distinct : (owned (d + 1) child h s).Nodup) (inside : i ∈ userFan (d + 1))
    (absent : s.ram.entry child i = .unused) (present : flags.contains .PRESENT = true)
    (law : P [i] flags) :
    let s₃ := s₂.setRam (ram.setEntry child i ⟨frame, flags⟩)
    Extends P (d + 1) child h h s s₃ ∧ s₃.ram.child child i = some frame ∧
      (d ≠ 0 → ∀ j ∈ userFan d, s₃.ram.entry frame j = .unused) ∧
      ∀ j ≠ i, s₃.ram.entry child j = s.ram.entry child j := by
  have first : Extends P (d + 1) child h (frame ::ₘ h) s s₂ := allocateFrame_extends taken
  have second := (hand_extends (P := P) ram (first.nodup distinct) others).1
  have held := second.nodup (first.nodup distinct)
  have other : child ≠ frame := by
    rintro rfl
    exact hand_fresh held (Radix.root_mem _ _)
  have kept : ∀ j, ram.entry child j = s.ram.entry child j := fun j => by
    rw [PhysMem.entry_congr (others child other), allocateFrame_ram taken]
  obtain ⟨third, page, -⟩ := link_extends (P := P) held .nil inside
    (by rw [MemState.setRam_ram, kept, absent, PageTableEntry.unused_present]) present law cleared
  refine ⟨(first.trans second).trans third, ?_, fun tall j _ => ?_, fun j different => ?_⟩
  · cases page with
    | cons _ link below =>
        cases below with
        | nil => exact link
  · rw [MemState.setRam_ram, PhysMem.entry_setEntry_ne fun same => other (Prod.mk.inj same).1.symm]
    exact cleared tall j
  · rw [MemState.setRam_ram, PhysMem.entry_setEntry_ne fun same => different (Prod.mk.inj same).2,
      kept]

/-- The frames of the subtree in slot `i`. -/
def sizeAt (ram : PhysMem) (d : Nat) (table : PhysFrame) (i : Nat) : Nat :=
  Multiset.card ((ram.child table i).elim 0 (treeFrames ram d))

theorem sizeAt_some {c : PhysFrame} (link : ram.child root i = some c) :
    sizeAt ram d root i = Multiset.card (treeFrames ram d c) := by
  rw [sizeAt, link, Option.elim_some]

theorem card_table (ram : PhysMem) (d : Nat) (table : PhysFrame) :
    Multiset.card (treeFrames ram (d + 1) table) = ((userSlots (d + 1)).map
      (sizeAt ram d table)).sum + 1 := by
  have slots : userFan (d + 1) = (userSlots (d + 1)).toFinset := by
    ext i
    rw [List.mem_toFinset, mem_userSlots]
  rw [treeFrames, Radix.nodes, Multiset.card_cons, Multiset.card_sum, slots,
    List.sum_toFinset _ userSlots_nodup]
  rfl

/-- What the copy of a table has done after the slots `done`. -/
private structure CopiedUpTo (P : SlotLaw) (d : Nat) (parent child : PhysFrame)
  (h : Multiset PhysFrame)
    (s : MemState) (done : List Nat) (t : MemState) : Prop where
  step : Extends P (d + 1) child h h s t
  untouched : ∀ j ∈ userFan (d + 1), j ∉ done → t.ram.entry child j = .unused
  copied : ∀ j ∈ done, j ∈ userFan (d + 1) → MirrorsSlot s.ram t.ram d parent child j
  spent : Multiset.card t.available +
    (done.map (sizeAt s.ram d parent)).sum = Multiset.card s.available

/-- A new frame below a table is a subtree of its own. -/
private theorem tree_single {frame : PhysFrame}
  (empty : d ≠ 0 → ∀ j ∈ userFan d, ram.entry frame j = .unused) :
    Multiset.card (treeFrames ram d frame) = 1 := by
  cases d with
  | zero => rfl
  | succ d =>
      rw [treeFrames, Radix.nodes_empty (d + 1) frame fun j inside => ?_, Multiset.card_singleton]
      rw [PhysMem.child, empty (Nat.succ_ne_zero d) j inside, PageTableEntry.unused_child]

/-- Copying fills the child with a copy of the parent, from frames that were available;
    it fails when there are too few of them. -/
theorem copyLevel_spec (d : Nat) :
    ∀ {P : SlotLaw} {parent child : PhysFrame} {h : Multiset PhysFrame}
    {s : MemState}, NoHuge P → (owned d child h s).Nodup → Linked P s.ram d parent →
    (∀ f ∈ treeFrames s.ram d parent, f ∉ owned d child h s) →
    (d ≠ 0 → ∀ i ∈ userFan d, s.ram.entry child i = .unused) →
    (d = 0 → s.ram child = s.ram parent) →
    (copyLevel d parent child s).Sat False
      (fun _ s' => Extends P d child h h s s' ∧ Mirrors s.ram s'.ram d parent child)
      (fun _ s' => Extends P d child h h s s' ∧
        Multiset.card s.available + 1 < Multiset.card (treeFrames s.ram d parent)) := by
  induction d with
  | zero => exact fun _ _ _ _ _ page => ⟨.refl, page rfl⟩
  | succ d ih =>
      intro P parent child h s noHuge distinct linked apart clear _
      refine (Outcome.Sat.each (CopiedUpTo P d parent child h s) (userSlots (d + 1))
        (fun done i rest s₁ split copied => ?_)
        ⟨.refl, fun j inside _ => clear (Nat.succ_ne_zero d) j inside, by simp, by simp⟩).mono id
        (fun _ _ copied => ⟨copied.step, fun j inside =>
          copied.copied j (mem_userSlots.mpr inside) inside⟩)
        fun _ _ fails => fails
      obtain ⟨step, untouched, mirrored, spent⟩ := copied
      have inside : i ∈ userFan (d + 1) := mem_userSlots.mp (by simp [split])
      have later : i ∉ done := by
        have once := userSlots_nodup (d := d + 1)
        rw [split] at once
        exact fun member => (List.disjoint_of_nodup_append once) member List.mem_cons_self
      -- the parent is no owned frame, so whatever was done so far has not changed it
      have kept : ∀ {t}, Extends P (d + 1) child h h s t →
          ∀ f ∈ treeFrames s.ram (d + 1) parent, t.ram f = s.ram f :=
        fun step f hf => step.outside f (apart f hf)
      have head : s₁.ram.entry parent = s.ram.entry parent :=
        PhysMem.entry_congr (kept step parent (Radix.root_mem _ _))
      have total : (done.map (sizeAt s.ram d parent)).sum + sizeAt s.ram d parent i + 1 ≤
          Multiset.card (treeFrames s.ram (d + 1) parent) := by
        rw [card_table, split, List.map_append, List.map_cons, List.sum_append, List.sum_cons]
        omega
      simp only [Prog.get_bind, head]
      by_cases present : (s.ram.entry parent i).present = true
      · simp only [present, if_true]
        have link₀ : s.ram.child parent i = some (s.ram.entry parent i).addr :=
          PageTableEntry.child_eq_some.mpr ⟨present, rfl⟩
        have law := linked [] d parent .nil i inside present
        have small : (s.ram.entry parent i).flags.contains .HUGE_PAGE = false := noHuge _ _ law
        have size := sizeAt_some (d := d) link₀
        generalize address : (s.ram.entry parent i).addr = source at *
        have sub₀ : treeFrames s.ram d source ≤ treeFrames s.ram (d + 1) parent :=
          Radix.Path.nodes_le (.cons inside link₀ .nil)
        have positive : 0 < Multiset.card (treeFrames s.ram d source) :=
          Multiset.card_pos_iff_exists_mem.mpr ⟨source, Radix.root_mem d source⟩
        obtain ⟨s₂, r, taken, -, -, -, -, left⟩ := allocateFrame_spec s₁
        rw [Prog.bind_ok taken]
        cases r with
        | none =>
            refine ⟨step.trans (allocateFrame_none taken), ?_⟩
            simp only at left
            rw [left.1, Multiset.card_zero] at spent
            omega
        | some frame =>
            simp only at left
            obtain ⟨ram, filled, others, cleared, page⟩ := fillNode_run d source frame s₂
            simp only [Prog.okOr, Prog.pure_bind, Prog.bind_ok filled,
              Prog.bind_ok (setFrame_run small _), MemState.setRam_setRam, MemState.setRam_ram]
            obtain ⟨graft, link, empty, same⟩ := graft_extends taken others cleared
              (step.nodup distinct) inside (untouched i inside later) present law
            have notChild : frame ≠ child := by
              rintro rfl
              have both := step.nodup distinct
              rw [owned, left, Multiset.add_cons, Multiset.cons_add] at both
              exact (Multiset.nodup_cons.mp both).1 (Multiset.mem_add.mpr (.inl
                (Multiset.mem_add.mpr (.inl (Radix.root_mem _ _)))))
            have fresh : ∀ f, f ∈ treeFrames s₁.ram (d + 1) child → f ≠ frame := by
              rintro f member rfl
              have both := step.nodup distinct
              rw [owned, left, Multiset.add_cons, Multiset.cons_add] at both
              exact (Multiset.nodup_cons.mp both).1 (Multiset.mem_add.mpr (.inl
                (Multiset.mem_add.mpr (.inl member))))
            have done₃ := step.trans graft
            have kept₂ : s₂.ram = s₁.ram := allocateFrame_ram taken
            obtain ⟨s₃, shape⟩ :
              ∃ s₃, s₃ = s₂.setRam (ram.setEntry child i ⟨frame, (s.ram.entry parent i).flags⟩) :=
              ⟨_, rfl⟩
            have avail₃ : Multiset.card s₁.available = Multiset.card s₃.available + 1 := by
              rw [left, Multiset.card_cons, shape, MemState.setRam_available]
            have entry₃ : s₃.ram.entry child i = ⟨frame, (s.ram.entry parent i).flags⟩ := by
              rw [shape]
              exact PhysMem.entry_setEntry
            have elsewhere : ∀ f, f ≠ child → f ≠ frame → s₃.ram f = s₁.ram f :=
              fun f notRoot notFrame => by
              rw [shape, MemState.setRam_ram, PhysMem.setEntry_frame notRoot, others f notFrame,
                kept₂]
            have filled₃ : d = 0 → s₃.ram frame = s.ram source := fun zero => by
              rw [shape, MemState.setRam_ram, PhysMem.setEntry_frame notChild, page zero, kept₂,
                kept step source (Multiset.mem_of_le sub₀ (Radix.root_mem _ _))]
            rw [← shape] at graft link empty same done₃ ⊢
            have source₃ : ∀ f ∈ treeFrames s.ram d source, s₃.ram f = s.ram f :=
              fun f member => kept done₃ f (Multiset.mem_of_le sub₀ member)
            have tables₃ : ∀ f ∈ treeTables s.ram d source, s₃.ram f = s.ram f :=
              fun f member => source₃ f (Multiset.mem_of_le (treeTables_le _ _ _) member)
            have tree₃ : treeFrames s₃.ram d source = treeFrames s.ram d source :=
              treeFrames_congr fun f hf => PhysMem.child_congr (tables₃ f hf)
            have distinct₃ := done₃.nodup distinct
            refine (ih (P := fun js => P (i :: js)) (fun js => noHuge _)
              (owned_child_nodup inside link distinct₃)
              (linked_congr tables₃ (linked.child inside link₀)) (fun f member owns => ?_) empty
              fun zero => (filled₃ zero).trans (source₃ source (Radix.root_mem _ _)).symm).mono id
                (fun _ t copy => ?_) fun _ t fails => ?_
            · rw [tree₃] at member
              refine apart f (Multiset.mem_of_le sub₀ member) ?_
              rw [← done₃.ledger]
              exact Multiset.mem_of_le (owned_child inside link) owns
            · obtain ⟨sub, mirrors⟩ := copy
              obtain ⟨whole, root⟩ := sub.lift inside link distinct₃
              have entries : t.ram.entry child = s₃.ram.entry child := PhysMem.entry_congr root
              refine ⟨done₃.trans whole, fun j insideJ missing => ?_, fun j member insideJ => ?_,
                ?_⟩
              · simp only [List.mem_append, List.mem_singleton, not_or] at missing
                rw [entries, same j missing.2]
                exact untouched j insideJ missing.1
              · rcases List.mem_append.mp member with old | new
                · have other : j ≠ i := by
                    rintro rfl
                    exact later old
                  refine (mirrored j old insideJ).congr (by rw [entries, same j other])
                    fun c linkJ f memberF => ?_
                  have notRoot : f ≠ child := by
                    rintro rfl
                    exact Radix.root_fresh (tree_nodup (step.nodup distinct)) insideJ linkJ memberF
                  have inTree : ∀ g ∈ treeFrames s₁.ram d c, g ∈ treeFrames s₁.ram (d + 1) child :=
                    fun g hg =>
                    Multiset.mem_of_le (Radix.Path.nodes_le (.cons insideJ linkJ .nil)) hg
                  have linkJ₃ : s₃.ram.child child j = some c := by
                    rw [PhysMem.child, same j other, ← PhysMem.child, linkJ]
                  have treeJ₃ : treeFrames s₃.ram d c = treeFrames s₁.ram d c := by
                    refine treeFrames_congr fun g hg =>
                      PhysMem.child_congr (elsewhere g ?_ (fresh g (inTree g ?_)))
                    · rintro rfl
                      exact Radix.root_fresh (tree_nodup (step.nodup distinct)) insideJ linkJ
                        (Multiset.mem_of_le (treeTables_le _ _ _) hg)
                    · exact Multiset.mem_of_le (treeTables_le _ _ _) hg
                  rw [← elsewhere f notRoot (fresh f (inTree f memberF))]
                  exact sub.outside f
                    (sibling_not_owned inside link distinct₃ insideJ other linkJ₃
                      (treeJ₃ ▸ memberF))
                · obtain rfl := List.mem_singleton.mp new
                  rw [MirrorsSlot, entries, entry₃]
                  refine ⟨rfl, fun _ => ⟨rfl, ?_⟩⟩
                  rw [address]
                  exact mirrors.congr_left fun f member => (source₃ f (tree₃ ▸ member)).symm
              · have count := congrArg Multiset.card sub.ledger
                simp only [owned, Multiset.card_add, mirrors.card, tree₃,
                  tree_single empty] at count
                rw [List.map_append, List.sum_append, List.map_singleton, List.sum_singleton, size]
                omega
            · obtain ⟨sub, short⟩ := fails
              refine ⟨done₃.trans (sub.lift inside link distinct₃).1, ?_⟩
              rw [tree₃] at short
              omega
      · simp only [present, Bool.false_eq_true, if_false]
        have absent : (s.ram.entry parent i).present = false := Bool.eq_false_iff.mpr present
        have empty : sizeAt s.ram d parent i = 0 := by
          rw [sizeAt, PhysMem.child, PageTableEntry.child_eq_none.mpr absent]
          rfl
        refine ⟨step, fun j insideJ missing => ?_, fun j member insideJ => ?_, ?_⟩
        · exact untouched j insideJ fun member => missing (List.mem_append_left _ member)
        · rcases List.mem_append.mp member with old | new
          · exact mirrored j old insideJ
          · obtain rfl := List.mem_singleton.mp new
            rw [MirrorsSlot, untouched j inside later, absent]
            exact ⟨rfl, fun is => by cases is⟩
        · rw [List.map_append, List.sum_append, List.map_singleton, List.sum_singleton, empty,
            add_zero, spent]

/-- A copy is built from available frames and leaves the parent alone. It fails only
    when the allocator has fewer frames than the parent uses. -/
theorem copyUvm_spec {parent : PhysFrame} (noHuge : NoHuge P) (distinct : s.available.Nodup)
    (linked : Linked P s.ram 4 parent) (apart : ∀ f ∈ userFrames s.ram parent, f ∉ s.available) :
    (copyUvm parent s).Sat False
      (fun root s' => Built P root s s' ∧ Mirrors s.ram s'.ram 4 parent root)
      (fun _ s' => Abandoned s s' ∧
        Multiset.card s.available < Multiset.card (userFrames s.ram parent)) := by
  have positive : 0 < Multiset.card (userFrames s.ram parent) :=
    Multiset.card_pos_iff_exists_mem.mpr ⟨parent, Radix.root_mem 4 parent⟩
  refine Outcome.Sat.bind ((newUvm_spec s).mono id (fun _ _ new => new) fun _ _ fails =>
    ⟨fails.1, ?_⟩)
    fun root t new => ?_
  · rwa [fails.2, Multiset.card_zero]
  have same : ∀ f ∈ userFrames s.ram parent, t.ram f = s.ram f := by
    intro f member
    refine new.outside f ?_
    rintro rfl
    exact apart f member (by simp [new.available])
  have tables : ∀ f ∈ treeTables s.ram 4 parent, t.ram f = s.ram f :=
    fun f hf => same f (Multiset.mem_of_le (treeTables_le _ _ _) hf)
  have tree : userFrames t.ram parent = userFrames s.ram parent :=
    treeFrames_congr fun f hf => PhysMem.child_congr (tables f hf)
  have taken := congrArg Multiset.card new.available
  rw [Multiset.card_cons] at taken
  refine Outcome.Sat.bind (Q := fun _ s' => Extends P 4 root 0 0 t s' ∧
    Mirrors t.ram s'.ram 4 parent root)
    ((copyLevel_spec 4 noHuge (by rwa [new.owned_eq, add_zero]) (linked_congr tables linked)
      (fun f member => ?_) (fun _ => new.empty_slots) nofun).mono id (fun _ _ step => step)
      fun _ _ fails => ⟨new.abandon distinct fails.1, ?_⟩) fun _ s' step =>
        ⟨new.extend distinct step.1, ?_⟩
  · rw [new.owned_eq, add_zero]
    exact apart f (tree ▸ member)
  · have short := fails.2
    rw [← userFrames, tree] at short
    omega
  · exact step.2.congr_left fun f member => (same f (tree ▸ member)).symm

end FerriOS.Memory
