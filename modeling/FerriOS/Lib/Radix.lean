import Mathlib

/-! # Radix trees stored in a memory

A memory is seen only through `next l i`, the node linked by slot `i` of table
`l`. A tree of height `d` below `l` is read off the memory; nothing says that it
is a tree. That is what `Nodup` of its node multiset states, and under it a
change to one slot changes the multiset by exactly the subtree of that slot.
-/

namespace FerriOS.Lib.Radix

variable {Loc Idx : Type} (next : Loc → Idx → Option Loc) (fan : Nat → Finset Idx)

/-- Every node of the tree of height `d` below `l`, the root included, counted
    once for each path that reaches it. A table of height `d` uses the slots
    `fan d`. -/
def nodes : Nat → Loc → Multiset Loc
  | 0, l => {l}
  | d + 1, l => l ::ₘ ∑ i ∈ fan (d + 1), (next l i).elim 0 (nodes d)

/-- The inner nodes, whose slots the tree reads. -/
def tables : Nat → Loc → Multiset Loc
  | 0, _ => 0
  | d + 1, l => l ::ₘ ∑ i ∈ fan (d + 1), (next l i).elim 0 (tables d)

/-- The nodes of height zero. -/
def leaves : Nat → Loc → Multiset Loc
  | 0, l => {l}
  | d + 1, l => ∑ i ∈ fan (d + 1), (next l i).elim 0 (leaves d)

/-- `Path d l is e x`: the slots `is`, followed from the table `l` of height `d`,
    lead to the node `x` of height `e`. -/
inductive Path : Nat → Loc → List Idx → Nat → Loc → Prop where
  | nil : Path d l [] d l
  | cons : i ∈ fan (d + 1) → next l i = some c → Path d c is e x → Path (d + 1) l (i :: is) e x

variable {next fan} {next' : Loc → Idx → Option Loc}

theorem nodes_split (d : Nat) (l : Loc) :
    nodes next fan d l = tables next fan d l + leaves next fan d l := by
  induction d generalizing l with
  | zero => simp [nodes, tables, leaves]
  | succ d ih =>
      simp only [nodes, tables, leaves, Multiset.cons_add, ← Finset.sum_add_distrib]
      congr 1
      refine Finset.sum_congr rfl fun i _ => ?_
      cases next l i with
      | none => rfl
      | some c => exact ih c

theorem tables_le (d : Nat) (l : Loc) : tables next fan d l ≤ nodes next fan d l := by
  rw [nodes_split]
  exact Multiset.le_add_right _ _

theorem root_mem (d : Nat) (l : Loc) : l ∈ nodes next fan d l := by
  cases d <;> simp [nodes]

theorem child_le {d i} {l c : Loc} (inside : i ∈ fan (d + 1)) (link : next l i = some c) :
    nodes next fan d c ≤ ∑ j ∈ fan (d + 1), (next l j).elim 0 (nodes next fan d) := by
  have single := Finset.single_le_sum (f := fun j => (next l j).elim 0 (nodes next fan d))
    (fun j _ => Multiset.zero_le _) inside
  simpa only [link, Option.elim_some] using single

/-- Two slots of one table hold disjoint subtrees. -/
theorem children_disjoint {d i j} {l c b : Loc} (distinct : (nodes next fan (d + 1) l).Nodup)
    (insideI : i ∈ fan (d + 1)) (insideJ : j ∈ fan (d + 1)) (different : i ≠ j)
    (linkI : next l i = some c) (linkJ : next l j = some b) :
    Disjoint (nodes next fan d c) (nodes next fan d b) := by
  classical
  have pair : nodes next fan d c + nodes next fan d b ≤
      ∑ k ∈ fan (d + 1), (next l k).elim 0 (nodes next fan d) := by
    have sub : ({i, j} : Finset Idx) ⊆ fan (d + 1) := by
      intro k hk
      rcases Finset.mem_insert.mp hk with rfl | hk
      · exact insideI
      · exact Finset.mem_singleton.mp hk ▸ insideJ
    have le := Finset.sum_le_sum_of_subset (f := fun k => (next l k).elim 0 (nodes next fan d)) sub
    simpa only [Finset.sum_pair different, linkI, linkJ, Option.elim_some] using le
  have sumDistinct := (Multiset.nodup_cons.mp distinct).2
  exact (Multiset.nodup_add.mp (Multiset.nodup_of_le pair sumDistinct)).2.2

theorem root_fresh {d} {l : Loc} (distinct : (nodes next fan (d + 1) l).Nodup) {i c}
    (inside : i ∈ fan (d + 1)) (link : next l i = some c) : l ∉ nodes next fan d c :=
  fun member => (Multiset.nodup_cons.mp distinct).1
    (Multiset.mem_of_le (child_le inside link) member)

theorem child_nodup {d} {l : Loc} (distinct : (nodes next fan (d + 1) l).Nodup) {i c}
    (inside : i ∈ fan (d + 1)) (link : next l i = some c) : (nodes next fan d c).Nodup :=
  Multiset.nodup_of_le (child_le inside link) (Multiset.nodup_cons.mp distinct).2

/-- The tree depends only on the slots of its inner nodes. -/
theorem nodes_congr (d : Nat) (l : Loc)
    (same : ∀ x ∈ tables next fan d l, next' x = next x) :
    nodes next' fan d l = nodes next fan d l := by
  induction d generalizing l with
  | zero => rfl
  | succ d ih =>
      have head : next' l = next l := same l (by simp [tables])
      simp only [nodes, head]
      congr 1
      refine Finset.sum_congr rfl fun i hi => ?_
      cases link : next l i with
      | none => rfl
      | some c =>
          refine ih c fun x hx => same x (Multiset.mem_cons_of_mem ?_)
          exact Multiset.mem_sum.mpr ⟨i, hi, by simpa only [link, Option.elim_some] using hx⟩

theorem tables_congr (d : Nat) (l : Loc)
    (same : ∀ x ∈ tables next fan d l, next' x = next x) :
    tables next' fan d l = tables next fan d l := by
  induction d generalizing l with
  | zero => rfl
  | succ d ih =>
      have head : next' l = next l := same l (by simp [tables])
      simp only [tables, head]
      congr 1
      refine Finset.sum_congr rfl fun i hi => ?_
      cases link : next l i with
      | none => rfl
      | some c =>
          refine ih c fun x hx => same x (Multiset.mem_cons_of_mem ?_)
          exact Multiset.mem_sum.mpr ⟨i, hi, by simpa only [link, Option.elim_some] using hx⟩

/-- A table without links is a tree of its own. -/
theorem nodes_empty (d : Nat) (l : Loc) (empty : ∀ i ∈ fan d, next l i = none) :
    nodes next fan d l = {l} := by
  cases d with
  | zero => rfl
  | succ d =>
      have none_below : ∑ i ∈ fan (d + 1), (next l i).elim 0 (nodes next fan d) = 0 :=
        Finset.sum_eq_zero fun i hi => by rw [empty i hi, Option.elim_none]
      rw [nodes, none_below]
      rfl

namespace Path

theorem length {d e l is x} (p : Path next fan d l is e x) : is.length + e = d := by
  induction p with
  | nil => simp
  | cons _ _ _ ih => simp only [List.length_cons]; omega

theorem nodes_le {d e l is x} (p : Path next fan d l is e x) :
    nodes next fan e x ≤ nodes next fan d l := by
  induction p with
  | nil => exact le_rfl
  | cons inside link _ ih =>
      exact (ih.trans (child_le inside link)).trans (Multiset.le_cons_self _ _)

theorem mem {d e l is x} (p : Path next fan d l is e x) : x ∈ nodes next fan d l :=
  Multiset.mem_of_le p.nodes_le (root_mem e x)

theorem mem_tables {d e l is x} (p : Path next fan d l is (e + 1) x) :
    x ∈ tables next fan d l := by
  generalize height : e + 1 = h at p
  induction p with
  | nil => subst height; simp [tables]
  | cons inside link _ ih =>
      refine Multiset.mem_cons_of_mem (Multiset.mem_sum.mpr ⟨_, inside, ?_⟩)
      simpa only [link, Option.elim_some] using ih height

theorem nodup {d e l is x} (p : Path next fan d l is e x) (distinct : (nodes next fan d l).Nodup) :
    (nodes next fan e x).Nodup :=
  Multiset.nodup_of_le p.nodes_le distinct

theorem snoc {d e l is x i c} (p : Path next fan d l is (e + 1) x) (inside : i ∈ fan (e + 1))
    (link : next x i = some c) : Path next fan d l (is ++ [i]) e c := by
  generalize height : e + 1 = h at p
  induction p with
  | nil => subst height; exact .cons inside link .nil
  | cons hi hl _ ih => exact .cons hi hl (ih link height)

/-- A path along `is ++ js` passes the node that `is` leads to. -/
theorem of_append {d e f l js x y} {is : List Idx} (p : Path next fan d l (is ++ js) e x)
    (q : Path next fan d l is f y) : Path next fan f y js e x := by
  induction q with
  | nil => exact p
  | cons _ link _ ih =>
      cases p with
      | cons _ link' p' =>
          obtain rfl := Option.some.inj (link.symm.trans link')
          exact ih p'

/-- The initial part of a path is a path. -/
theorem initial {d e l js x} {is : List Idx} (p : Path next fan d l (is ++ js) e x) :
    ∃ f y, Path next fan d l is f y := by
  induction is generalizing d l with
  | nil => exact ⟨d, l, .nil⟩
  | cons i is ih =>
      cases p with
      | cons inside link p' =>
          obtain ⟨f, y, q⟩ := ih p'
          exact ⟨f, y, .cons inside link q⟩

/-- A path survives when the links of the tree's nodes are kept. -/
theorem mono {d e l is x} (p : Path next fan d l is e x)
    (keep : ∀ y ∈ tables next fan d l, ∀ i c, next y i = some c → next' y i = some c) :
    Path next' fan d l is e x := by
  induction p with
  | nil => exact .nil
  | @cons d i l c is e x inside link _ ih =>
      refine .cons inside (keep _ (by simp [tables]) _ _ link) (ih fun y hy => keep y ?_)
      refine Multiset.mem_cons_of_mem (Multiset.mem_sum.mpr ⟨i, inside, ?_⟩)
      simpa only [link, Option.elim_some] using hy

/-- Slots that agree with a path's own slots lead the same way. -/
theorem deterministic {d e l is x y} (p : Path next fan d l is e x)
    (q : Path next fan d l is e y) : x = y := by
  induction p with
  | nil => cases q; rfl
  | cons _ link _ ih =>
      cases q with
      | cons _ link' q' =>
          obtain rfl := Option.some.inj (link.symm.trans link')
          exact ih q'

/-- In a tree, a node is reached by one path only. -/
theorem unique {d e e' l is js x} (distinct : (nodes next fan d l).Nodup)
    (p : Path next fan d l is e x) (q : Path next fan d l js e' x) : is = js ∧ e = e' := by
  induction p generalizing js with
  | nil =>
      cases q with
      | nil => exact ⟨rfl, rfl⟩
      | cons inside link q' => exact absurd q'.mem (root_fresh distinct inside link)
  | @cons d i l c is e x inside link p' ih =>
      cases q with
      | nil => exact absurd p'.mem (root_fresh distinct inside link)
      | @cons _ j _ b js _ _ inside' link' q' =>
          by_cases same : i = j
          · subst same
            obtain rfl := Option.some.inj (link.symm.trans link')
            obtain ⟨rfl, rfl⟩ := ih (child_nodup distinct inside link) q'
            exact ⟨rfl, rfl⟩
          · have apart := children_disjoint distinct inside inside' same link link'
            exact absurd q'.mem (Multiset.disjoint_left.mp apart p'.mem)

end Path

/-- The nodes are the ends of the paths. -/
theorem mem_nodes {d l x} : x ∈ nodes next fan d l ↔ ∃ is e, Path next fan d l is e x := by
  refine ⟨fun member => ?_, fun ⟨_, _, p⟩ => p.mem⟩
  induction d generalizing l with
  | zero => exact ⟨[], 0, Multiset.mem_singleton.mp member ▸ .nil⟩
  | succ d ih =>
      rcases Multiset.mem_cons.mp member with rfl | below
      · exact ⟨[], d + 1, .nil⟩
      · obtain ⟨i, inside, sub⟩ := Multiset.mem_sum.mp below
        cases link : next l i with
        | none => simp [link] at sub
        | some c =>
            obtain ⟨is, e, p⟩ := ih (by simpa only [link, Option.elim_some] using sub)
            exact ⟨i :: is, e, .cons inside link p⟩

/-- The inner nodes are the ends of the paths that stop above height zero. -/
theorem mem_tables {d l x} :
    x ∈ tables next fan d l ↔ ∃ is e, Path next fan d l is (e + 1) x := by
  refine ⟨fun member => ?_, fun ⟨_, _, p⟩ => p.mem_tables⟩
  induction d generalizing l with
  | zero => simp [tables] at member
  | succ d ih =>
      rcases Multiset.mem_cons.mp member with rfl | below
      · exact ⟨[], d, .nil⟩
      · obtain ⟨i, inside, sub⟩ := Multiset.mem_sum.mp below
        cases link : next l i with
        | none => simp [link] at sub
        | some c =>
            obtain ⟨is, e, p⟩ := ih (by simpa only [link, Option.elim_some] using sub)
            exact ⟨i :: is, e, .cons inside link p⟩

section Routes

open Classical

variable (next fan) in
/-- The slot lists of the paths of a tree. -/
noncomputable def routes : Nat → Loc → Finset (List Idx)
  | 0, _ => {[]}
  | d + 1, l => insert [] ((fan (d + 1)).biUnion fun i =>
      (next l i).elim ∅ fun c => (routes d c).image (i :: ·))

theorem routes_congr (d : Nat) (l : Loc)
    (same : ∀ x ∈ tables next fan d l, next' x = next x) :
    routes next' fan d l = routes next fan d l := by
  induction d generalizing l with
  | zero => rfl
  | succ d ih =>
      have head : next' l = next l := same l (by simp [tables])
      simp only [routes, head]
      congr 1
      refine Finset.biUnion_congr rfl fun i hi => ?_
      cases link : next l i with
      | none => rfl
      | some c =>
          rw [Option.elim_some, Option.elim_some, ih c fun x hx =>
            same x (Multiset.mem_cons_of_mem ?_)]
          exact Multiset.mem_sum.mpr ⟨i, hi, by simpa only [link, Option.elim_some] using hx⟩

theorem mem_routes {d l is} : is ∈ routes next fan d l ↔ ∃ e x, Path next fan d l is e x := by
  induction d generalizing l is with
  | zero =>
      refine ⟨fun member => ?_, fun ⟨e, x, p⟩ => ?_⟩
      · obtain rfl := Finset.mem_singleton.mp member
        exact ⟨0, l, .nil⟩
      · cases p
        exact Finset.mem_singleton_self _
  | succ d ih =>
      simp only [routes, Finset.mem_insert, Finset.mem_biUnion]
      constructor
      · rintro (rfl | ⟨i, inside, below⟩)
        · exact ⟨d + 1, l, .nil⟩
        · cases link : next l i with
          | none => simp [link] at below
          | some c =>
              simp only [link, Option.elim_some, Finset.mem_image] at below
              obtain ⟨js, member, rfl⟩ := below
              obtain ⟨e, x, p⟩ := ih.mp member
              exact ⟨e, x, .cons inside link p⟩
      · rintro ⟨e, x, p⟩
        cases p with
        | nil => exact .inl rfl
        | @cons _ i _ c js _ _ inside link q =>
            refine .inr ⟨i, inside, ?_⟩
            rw [link, Option.elim_some]
            exact Finset.mem_image_of_mem _ (ih.mpr ⟨e, x, q⟩)

/-- A tree has a node for each of its paths. -/
theorem card_routes (d : Nat) (l : Loc) :
    (routes next fan d l).card = Multiset.card (nodes next fan d l) := by
  induction d generalizing l with
  | zero => rfl
  | succ d ih =>
      have starts : ∀ i, ∀ js ∈ (next l i).elim ∅ fun c => (routes next fan d c).image (i :: ·),
          ∃ ks, js = i :: ks := by
        intro i js member
        cases link : next l i with
        | none => simp [link] at member
        | some c =>
            simp only [link, Option.elim_some, Finset.mem_image] at member
            obtain ⟨ks, -, rfl⟩ := member
            exact ⟨ks, rfl⟩
      have fresh : [] ∉ (fan (d + 1)).biUnion fun i =>
          (next l i).elim ∅ fun c => (routes next fan d c).image (i :: ·) := by
        intro member
        obtain ⟨i, -, below⟩ := Finset.mem_biUnion.mp member
        obtain ⟨ks, impossible⟩ := starts i _ below
        cases impossible
      rw [routes, Finset.card_insert_of_notMem fresh, nodes, Multiset.card_cons, Multiset.card_sum,
        Finset.card_biUnion]
      · congr 1
        refine Finset.sum_congr rfl fun i _ => ?_
        cases next l i with
        | none => rfl
        | some c =>
            rw [Option.elim_some, Finset.card_image_of_injective _ fun _ _ same =>
              (List.cons.inj same).2,
              ih, Option.elim_some]
      · intro i _ j _ different
        refine Finset.disjoint_left.mpr fun js member member' => different ?_
        obtain ⟨ks, rfl⟩ := starts i _ member
        obtain ⟨ks', same⟩ := starts j _ member'
        exact (List.cons.inj same).1

end Routes

/-- Changing one slot exchanges that slot's subtree. -/
theorem nodes_update [DecidableEq Idx] {d e l is t i} (p : Path next fan d l is (e + 1) t)
    (distinct : (nodes next fan d l).Nodup) (inside : i ∈ fan (e + 1))
    (others : ∀ x ∈ tables next fan d l, ∀ j, (x, j) ≠ (t, i) → next' x j = next x j) :
    nodes next' fan d l + (next t i).elim 0 (nodes next fan e) =
      nodes next fan d l + (next' t i).elim 0 (nodes next' fan e) := by
  -- a slot other than the changed one keeps its subtree, which does not hold `t`
  have sibling : ∀ {d l k}, (∀ c, next l k = some c → t ∉ nodes next fan d c) →
      (∀ c, next l k = some c → ∀ x ∈ tables next fan d c, ∀ j, (x, j) ≠ (t, i) →
        next' x j = next x j) → next' l k = next l k →
      (next' l k).elim 0 (nodes next' fan d) = (next l k).elim 0 (nodes next fan d) := by
    intro d l k absent same slot
    rw [slot]
    cases link : next l k with
    | none => rfl
    | some c =>
        refine nodes_congr d c fun x hx => funext fun j => same c link x hx j ?_
        rintro ⟨rfl, -⟩
        exact absent c link (Multiset.mem_of_le (tables_le d c) hx)
  generalize height : e + 1 = h at p
  induction p with
  | @nil d l =>
      subst height
      have rest : ∑ j ∈ (fan (e + 1)).erase i, (next' l j).elim 0 (nodes next' fan e) =
          ∑ j ∈ (fan (e + 1)).erase i, (next l j).elim 0 (nodes next fan e) := by
        refine Finset.sum_congr rfl fun j hj =>
          sibling (fun c link => ?_) (fun c link x hx => ?_) ?_
        · exact root_fresh distinct (Finset.mem_of_mem_erase hj) link
        · refine others x (Multiset.mem_cons_of_mem (Multiset.mem_sum.mpr ⟨j, ?_, ?_⟩))
          · exact Finset.mem_of_mem_erase hj
          · simpa only [link, Option.elim_some] using hx
        · exact others l (by simp [tables]) j fun same =>
            Finset.ne_of_mem_erase hj (Prod.mk.inj same).2
      simp only [nodes, ← Finset.add_sum_erase _ _ inside, rest, Multiset.cons_add]
      congr 1
      abel
  | @cons d k l c is h t within link p' ih =>
      have here := others l (by simp [tables])
      have apart : l ≠ t := fun same => root_fresh distinct within link (same ▸ p'.mem)
      have link' : next' l k = some c := by
        rw [here k fun same => apart (Prod.mk.inj same).1, link]
      have below : ∀ {j b}, j ∈ fan (d + 1) → next l j = some b → ∀ x ∈ tables next fan d b,
          x ∈ tables next fan (d + 1) l := by
        intro j b hj hb x hx
        refine Multiset.mem_cons_of_mem (Multiset.mem_sum.mpr ⟨j, hj, ?_⟩)
        simpa only [hb, Option.elim_some] using hx
      have inner := ih (child_nodup distinct within link)
        (fun x hx => others x (below within link x hx)) sibling height
      have rest : ∑ j ∈ (fan (d + 1)).erase k, (next' l j).elim 0 (nodes next' fan d) =
          ∑ j ∈ (fan (d + 1)).erase k, (next l j).elim 0 (nodes next fan d) := by
        refine Finset.sum_congr rfl fun j hj => sibling (fun b hb => ?_) (fun b hb x hx => ?_) ?_
        · have siblings := children_disjoint distinct within (Finset.mem_of_mem_erase hj)
            (Finset.ne_of_mem_erase hj).symm link hb
          exact fun member => Multiset.disjoint_left.mp siblings p'.mem member
        · exact others x (below (Finset.mem_of_mem_erase hj) hb x hx)
        · exact here j fun same => apart (Prod.mk.inj same).1
      simp only [nodes, ← Finset.add_sum_erase _ _ within, rest, Multiset.cons_add, link, link',
        Option.elim_some]
      congr 1
      rw [add_right_comm, inner, add_right_comm]

/-- Changing what lies below one slot of the root exchanges that slot's subtree. -/
theorem nodes_exchange [DecidableEq Idx] {d l i c} (inside : i ∈ fan (d + 1))
    (link : next l i = some c)
    (head : next' l = next l)
    (siblings : ∀ j ∈ fan (d + 1), j ≠ i → ∀ b, next l j = some b →
      ∀ x ∈ tables next fan d b, next' x = next x) :
    nodes next' fan (d + 1) l + nodes next fan d c = nodes next fan
      (d + 1) l + nodes next' fan d c := by
  have rest : ∑ j ∈ (fan (d + 1)).erase i, (next l j).elim 0 (nodes next' fan d) =
      ∑ j ∈ (fan (d + 1)).erase i, (next l j).elim 0 (nodes next fan d) := by
    refine Finset.sum_congr rfl fun j hj => ?_
    cases linkJ : next l j with
    | none => rfl
    | some b =>
        exact nodes_congr d b
          (siblings j (Finset.mem_of_mem_erase hj) (Finset.ne_of_mem_erase hj) b linkJ)
  simp only [nodes, head, ← Finset.add_sum_erase _ _ inside, rest, link, Option.elim_some,
    Multiset.cons_add]
  congr 1
  abel

/-- Linking a node without links of its own into an empty slot adds that node. -/
theorem nodes_graft [DecidableEq Idx] {d e l is t i c} (p : Path next fan d l is (e + 1) t)
    (distinct : (nodes next fan d l).Nodup) (inside : i ∈ fan (e + 1)) (free : next t i = none)
    (fresh : c ∉ nodes next fan d l) (link : next' t i = some c)
    (single : nodes next' fan e c = {c})
    (others : ∀ x, x ≠ c → ∀ j, (x, j) ≠ (t, i) → next' x j = next x j) :
    nodes next' fan d l = c ::ₘ nodes next fan d l := by
  have changed := nodes_update p distinct inside fun x (hx : x ∈ tables next fan d l) j =>
    others x (fun same => fresh (same ▸ Multiset.mem_of_le (tables_le d l) hx)) j
  simpa only [free, link, Option.elim_none, Option.elim_some, add_zero, single,
    Multiset.add_comm _ {c}, Multiset.singleton_add] using changed

/-- Linking a node without links of its own makes no path but those to that node. -/
theorem Path.of_graft {d e l is x t i c} (p : Path next' fan d l is e x)
    (fresh : c ∉ nodes next fan d l)
    (link : next' t i = some c) (empty : ∀ j, next' c j = none)
    (others : ∀ y, y ≠ c → ∀ j, (y, j) ≠ (t, i) → next' y j = next y j) :
    Path next fan d l is e x ∨ x = c := by
  induction p with
  | nil => exact .inl .nil
  | @cons d k l b is e x inside step rest ih =>
      by_cases here : (l, k) = (t, i)
      · obtain ⟨rfl, rfl⟩ := Prod.mk.inj here
        obtain rfl := Option.some.inj (step.symm.trans link)
        cases rest with
        | nil => exact .inr rfl
        | cons _ below _ =>
            rw [empty] at below
            cases below
      · have link' := step
        have apart : l ≠ c := by
          rintro rfl
          exact fresh (root_mem _ _)
        rw [others l apart k here] at link'
        have below : c ∉ nodes next fan d b := fun member =>
          fresh (Multiset.mem_cons_of_mem (Multiset.mem_of_le (child_le inside link') member))
        rcases ih below with path | new
        · exact .inl (.cons inside link' path)
        · exact .inr new

/-- Emptying a slot that links a single node takes that node away. -/
theorem nodes_prune [DecidableEq Idx] {d e l is t i c} (p : Path next fan d l is (e + 1) t)
    (distinct : (nodes next fan d l).Nodup) (inside : i ∈ fan (e + 1)) (link : next t i = some c)
    (single : nodes next fan e c = {c}) (gone : next' t i = none)
    (others : ∀ x ∈ tables next fan d l, ∀ j, (x, j) ≠ (t, i) → next' x j = next x j) :
    c ::ₘ nodes next' fan d l = nodes next fan d l := by
  have changed := nodes_update p distinct inside others
  simpa only [gone, link, Option.elim_none, Option.elim_some, add_zero, single,
    Multiset.add_comm _ {c}, Multiset.singleton_add] using changed

end FerriOS.Lib.Radix
