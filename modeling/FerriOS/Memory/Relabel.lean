import FerriOS.Memory.Pages
import FerriOS.Memory.Flags

/-! # Laws that change with the tree

A slot law says what flags the slots of a tree have. Mapping a page changes the slots
on the way to it, each in its own manner: what is there gets flags in addition, what is
not is made with them. So the tree obeys another law afterwards.
-/

namespace FerriOS.Memory

open FerriOS.Lib

variable {P Q : SlotLaw} {root t pt : PhysFrame} {h : Multiset PhysFrame} {s s' : MemState}
  {ram : PhysMem}
  {is js ks : List Nat} {d e i va : Nat} {insert fl : PageTableFlags}

/-- Another law for one slot. -/
theorem Slots.at {R : PageTableFlags → Prop} (slots : Slots P ram 4 root)
    (p : TreePath ram 4 root is (d + 1) t)
    (here : SlotOk R (ram.entry t i)) (others : ∀ ks ≠ is ++ [i], ∀ f, P ks f → Q ks f)
    (there : ∀ f, R f → Q (is ++ [i]) f) :
    Slots Q ram 4 root := by
  intro ks e x q j inside
  by_cases same : ks ++ [j] = is ++ [i]
  · obtain ⟨rfl, last⟩ := List.append_inj' same rfl
    obtain rfl := (List.cons.inj last).1
    obtain rfl : e = d := by
      have lengthQ := q.length
      have lengthP := p.length
      omega
    obtain rfl := p.deterministic q
    exact here.imp id fun ⟨present, law⟩ => ⟨present, there _ law⟩
  · exact (slots ks e x q j inside).imp id fun ⟨present, law⟩ => ⟨present, others _ same _ law⟩

/-- Another law for a slot that is written. -/
theorem reflag_relabel (distinct : (owned 4 root h s).Nodup)
    (p : TreePath s.ram 4 root is (d + 1) t)
    (inside : i ∈ userFan (d + 1)) (linked : (s.ram.entry t i).present = true)
    (present : fl.contains .PRESENT = true)
    (law : Q (is ++ [i]) fl) (others : ∀ ks ≠ is ++ [i], ∀ f, P ks f → Q ks f)
    (slots : Slots P s.ram 4 root) :
    Slots Q (s.ram.setEntry t i ⟨(s.ram.entry t i).addr, fl⟩) 4 root := by
  obtain ⟨step, -⟩ := reflag_extends
    (P := fun ks f => ks ≠ is ++ [i] → P ks f) distinct p inside linked present
    fun _ impossible => absurd rfl impossible
  have kept := step.slots (slots.mono fun ks f law _ => law)
  refine kept.at (step.paths _ _ _ p) (R := (· = fl)) (.inr ?_)
    (fun ks other f law => others ks other f (law other))
    fun f same => same ▸ law
  rw [PhysMem.entry_setEntry]
  exact ⟨present, rfl⟩

theorem contains_or_self {a b : PageTableFlags} (has : a.contains b = true) : a ||| b = a := by
  obtain ⟨low, high⟩ := PageTableFlags.contains_iff.mp has
  cases a
  simp only [PageTableFlags.or_def, PageTableFlags.mk.injEq] at low high ⊢
  constructor
  · rw [← low]
    ext k inside
    simp
    exact fun here _ => here
  · rw [← high]
    ext k inside
    simp
    exact fun here _ => here

theorem Along.length_lt : ∀ {is : List Nat}, Along is js ks → is.length < ks.length := by
  induction js with
  | nil => exact fun impossible => impossible.elim
  | cons i js ih =>
      rintro is (rfl | along)
      · simp
      · have bound := ih along
        simp only [List.length_append, List.length_cons, List.length_nil] at bound
        omega

private theorem Along.ne (along : Along (is ++ [i]) js ks) : ks ≠ is ++ [i] := by
  intro same
  have length := along.length_lt
  rw [same] at length
  omega

/-- The slot that has been passed obeys the new law, those behind it the old. -/
private theorem keep_mixed (keep : ∀ ks, ¬ Along is (i :: js) ks → ∀ f, P ks f → Q ks f)
  (ks : List Nat)
    (off : ¬ Along (is ++ [i]) js ks) (f : PageTableFlags)
    (law : if ks = is ++ [i] then Q ks f else P ks f) : Q ks f := by
  split at law
  case isTrue => exact law
  case isFalse other => exact keep ks (fun along => along.elim other off) f law

/-- A walk that creates and widens tables changes the law of the slots it passes. -/
theorem Descent.relabel {r : Option PhysFrame} (walk : Descent insert insert js t s r s')
    (arrives : r ≠ none)
    (present : insert.contains .PRESENT = true) (keep : ∀ ks, ¬ Along is js ks → ∀ f, P ks f → Q ks f)
    (widen : ∀ ks, Along is js ks → ∀ f, P ks f → Q ks (f ||| insert))
    (make : ∀ ks, Along is js ks → ks ∉ treeRoutes s.ram 4 root → Q ks insert) (fits : Fits js e)
    (distinct : (owned 4 root h s).Nodup) (p : TreePath s.ram 4 root is (js.length + e + 1) t)
    (slots : Slots P s.ram 4 root) : Slots Q s'.ram 4 root := by
  induction walk generalizing is P with
  | arrived => exact slots.mono fun ks f => keep ks (fun impossible => impossible.elim) f
  | @kept js s r s' i t linked contains _ ih =>
      rw [List.length_cons, show js.length + 1 + e + 1 = js.length + e + 1 + 1 by omega] at p
      have q := p.snoc fits.1 (PageTableEntry.child_eq_some.mpr ⟨linked, rfl⟩)
      refine ih (P := fun ks f =>
        if ks = is ++ [i] then Q ks f else P ks f) arrives (keep_mixed keep)
        (fun ks along f law => widen ks (.inr along) f (by rwa [if_neg along.ne] at law))
        (fun ks along => make ks (.inr along)) fits.2 distinct q ?_
      refine slots.at p ((slots _ _ _ p i fits.1).imp id fun ⟨there, law⟩ => ⟨there, ?_⟩)
        (fun ks other f law => by rw [if_neg other]; exact law)
          fun f law => by rw [if_pos rfl]; exact law
      rw [← contains_or_self contains]
      exact widen _ (.inl rfl) _ law
  | @widened js r s' i t s linked _ _ ih =>
      rw [List.length_cons, show js.length + 1 + e + 1 = js.length + e + 1 + 1 by omega] at p
      have still := PageTableFlags.contains_or_left insert linked
      obtain ⟨step, -⟩ := reflag_extends (P := Lawless) distinct p fits.1 linked still fun _ =>
        trivial
      have q := step.paths _ _ _ (p.snoc fits.1 (PageTableEntry.child_eq_some.mpr ⟨linked, rfl⟩))
      refine ih (P := fun ks f =>
        if ks = is ++ [i] then Q ks f else P ks f) arrives (keep_mixed keep)
        (fun ks along f law => widen ks (.inr along) f (by rwa [if_neg along.ne] at law))
        (fun ks along fresh => make ks (.inr along) fun old => fresh (step.routes old)) fits.2
          (step.nodup distinct) q ?_
      have law := ((slots _ _ _ p i fits.1).resolve_left fun zero => by
        rw [zero] at linked
        cases linked).2
      refine reflag_relabel distinct p fits.1 linked still ?_ (fun ks other f law => by rw [if_neg other]; exact law) slots
      rw [if_pos rfl]
      exact widen _ (.inl rfl) _ law
  | @created s c s₁ js t i r s' absent taken _ ih =>
      rw [List.length_cons, show js.length + 1 + e + 1 = js.length + e + 1 + 1 by omega] at p
      have zero : s.ram.entry t i = .unused := (slots _ _ _ p i fits.1).resolve_right fun there =>
        Bool.noConfusion (absent.symm.trans there.1)
      have fresh : is ++ [i] ∉ treeRoutes s.ram 4 root := by
        intro old
        obtain ⟨e', x, q⟩ := mem_treeRoutes.mp old
        have whole := q.length
        have height := p.length
        rw [List.length_append, List.length_singleton] at whole
        obtain rfl : e' = js.length + e + 1 := by omega
        cases q.of_append p with
        | cons _ link _ => exact Bool.noConfusion (absent.symm.trans (PageTableEntry.child_eq_some.mp link).1)
      have before : Slots (fun ks f => if ks = is ++ [i] then Q ks f else P ks f) s.ram 4 root :=
        slots.at p (R := fun _ => False) (.inl zero)
          (fun ks other f law => by rw [if_neg other]; exact law)
          fun _ impossible => impossible.elim
      obtain ⟨step, q, -⟩ := create_extends
        (P := fun ks f => if ks = is ++ [i] then Q ks f else P ks f) distinct p
        fits.1 absent present (by rw [if_pos rfl]; exact make _ (.inl rfl) fresh) taken
      exact ih (P := fun ks f =>
        if ks = is ++ [i] then Q ks f else P ks f) arrives (keep_mixed keep)
        (fun ks along f law => widen ks (.inr along) f (by rwa [if_neg along.ne] at law))
        (fun ks along new => make ks (.inr along) fun old => new (step.routes old)) fits.2
          (step.nodup distinct) q
        (step.slots before)
  | exhausted => exact absurd rfl arrives
  | huge => exact absurd rfl arrives
  | hugeWidened => exact absurd rfl arrives

/-- Mapping a page changes the law of the slots on the way to it. -/
theorem mapPage_relabel (mapper : Mapper) {flags : PageTableFlags}
    (present : flags.contains .PRESENT = true)
    (small : flags.contains .HUGE_PAGE = false) (lower : va < 2 ^ 47)
    (distinct : (owned 4 root h s).Nodup)
    (keep : ∀ ks, ¬ Along [] (tableIndices va) ks → ks ≠ pageIndices va → ∀ f, P ks f → Q ks f)
    (widen : ∀ ks, Along [] (tableIndices va) ks → ∀ f, P ks f →
    Q ks (f ||| (flags &&& tableFlags)))
    (make : ∀ ks, Along [] (tableIndices va) ks → ks ∉ treeRoutes s.ram 4 root →
    Q ks (flags &&& tableFlags))
    (leaf : Q (pageIndices va) flags) (slots : Slots P s.ram 4 root)
    (mapped : mapPage mapper root va flags s = .ok () s') : Slots Q s'.ram 4 root := by
  have upper : (flags &&& tableFlags).contains .PRESENT = true :=
    PageTableFlags.contains_and present tableFlags_present
  obtain ⟨s₁, r, run, -⟩ := allocateFrame_spec s
  rw [mapPage, Prog.bind_ok run] at mapped
  cases r with
  | none => cases mapped
  | some c =>
      have first : Extends P 4 root h (c ::ₘ h) s s₁ := allocateFrame_extends run
      obtain ⟨clear, -⟩ := hand_extends (P := P) (s₁.ram.zeroFrame c)
        (first.nodup distinct) fun f hf => PhysMem.zeroFrame_frame hf
      have second := first.trans clear
      have held := second.nodup distinct
      simp only [Prog.okOr, writeRam_run, Prog.bind_run, Prog.attempt, Prog.pure_run] at mapped
      have spec := mapper.mapTo_spec root va c flags (s₁.setRam (s₁.ram.zeroFrame c)) present small
      cases outcome : mapper.mapTo root va c flags (s₁.setRam (s₁.ram.zeroFrame c)) with
      | err message s₂ => simp [outcome] at mapped
      | panic message => simp [outcome] at mapped
      | ok value s₂ =>
          rw [outcome] at spec
          obtain ⟨pt, s₃, walk, unused, rfl⟩ := spec
          simp only [outcome, Prog.pure_run, Outcome.ok.injEq, true_and] at mapped
          subst mapped
          have tables : Allows Lawless (flags &&& tableFlags) (flags &&& tableFlags) []
            (tableIndices va) :=
            fun _ _ => ⟨trivial, fun _ _ => trivial⟩
          obtain ⟨third, arrived, -⟩ :=
            walk.extends (H := 4) upper tables (fits_tableIndices lower) held .nil
          have p := arrived pt rfl
          have walked : Slots (fun ks f => ks ≠ pageIndices va → Q ks f) s₃.ram 4 root :=
            walk.relabel (by simp) upper (fun ks off f law other => keep ks off other f law)
              (fun ks along f law _ => widen ks along f law)
              (fun ks along fresh _ => make ks along fun old => fresh (second.routes old))
              (fits_tableIndices lower) held .nil (second.slots slots)
          have zero : s₃.ram.entry pt (ptIndex va) = .unused :=
            PageTableEntry.isUnused_iff.mp unused
          have before : Slots Q s₃.ram 4 root := walked.at p (R := fun _ => False) (.inl zero)
            (fun ks other f law => law other) fun _ impossible => impossible.elim
          obtain ⟨fourth, -, -⟩ := page_extends (P := Q) (third.nodup held) p
            (PageTableEntry.present_of_isUnused unused) present leaf
          exact fourth.slots before

end FerriOS.Memory
