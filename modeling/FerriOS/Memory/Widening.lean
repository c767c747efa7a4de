import FerriOS.Memory.Ownership

/-! # What a mapping makes sure of

The mapper adds the flags of a page to every table entry on the way to it. So a
mapping can repair a law that earlier mappings were allowed to break.
-/

namespace FerriOS.Memory

open FerriOS.Lib

variable {P Q : SlotLaw} {H : Nat} {root t : PhysFrame} {h : Multiset PhysFrame}
  {s s' : MemState} {is js : List Nat} {d e i va : Nat} {insert widen : PageTableFlags}

theorem Slots.mono {ram : PhysMem} (slots : Slots P ram H root) (weaker : ∀ is f, P is f → Q is f) :
    Slots Q ram H root :=
  fun is d t p i inside => (slots is d t p i inside).imp id fun ⟨present, law⟩ =>
    ⟨present, weaker _ _ law⟩

theorem Extends.change {h' : Multiset PhysFrame} (step : Extends P H root h h' s s')
    (slots : Slots Q s'.ram H root) : Extends Q H root h h' s s' :=
  { step with slots := fun _ => slots }

/-- Slots are zero or present; nothing is said of the flags. -/
abbrev Lawless : SlotLaw := fun _ _ => True

theorem Extends.lawless {h' : Multiset PhysFrame} (step : Extends P H root h h' s s')
    (slots : Slots P s.ram H root) : Extends Lawless H root h h' s s' :=
  step.change ((step.slots slots).mono fun _ _ _ => trivial)

/-- The law `P`, and the flags `widen` in the slots along `js` from `is` on. -/
def Widened (P : SlotLaw) (widen : PageTableFlags) (is js : List Nat) : SlotLaw := fun ks f =>
  P ks f ∧ (Along is js ks → f.contains widen = true)

/-- One slot is known to have the flags. -/
private theorem slots_here {ram : PhysMem} (slots : Slots P ram H root)
    (p : TreePath ram H root is (d + 1) t) (has : (ram.entry t i).flags.contains widen = true) :
    Slots (Widened P widen is [i]) ram H root := by
  intro ks e x q j inside
  refine (slots ks e x q j inside).imp id fun ⟨present, law⟩ => ⟨present, law, ?_⟩
  rintro (same | impossible)
  · obtain ⟨rfl, last⟩ := List.append_inj' same rfl
    obtain rfl := (List.cons.inj last).1
    obtain rfl : e = d := by
      have lengthQ := q.length
      have lengthP := p.length
      omega
    obtain rfl := p.deterministic q
    exact has
  · exact impossible.elim

/-- The law along a walk goes with one step of it. -/
private theorem Allows.widened (law : Allows P insert widen is js)
  (has : insert.contains widen = true)
    (ks : List Nat) : Allows (Widened P widen ks [i]) insert widen is js := by
  intro ls along
  refine ⟨⟨(law ls along).1, fun _ => has⟩, fun f allowed =>
    ⟨(law ls along).2 f allowed.1, fun _ => ?_⟩⟩
  exact PageTableFlags.contains_or_right f (PageTableFlags.contains_self widen)

private theorem widened_cons {ks : List Nat} {f : PageTableFlags}
    (law : Widened (Widened P widen is [i]) widen (is ++ [i]) js ks f) :
    Widened P widen is (i :: js) ks f :=
  ⟨law.1.1, fun along => along.elim (fun here => law.1.2 (.inl here)) law.2⟩

/-- A walk that arrives has put its flags into every slot it passed. -/
theorem Descent.widens {r : Option PhysFrame} (walk : Descent insert widen js t s r s')
    (arrives : r ≠ none) (present : insert.contains .PRESENT = true)
    (has : insert.contains widen = true) (law : Allows P insert widen is js) (fits : Fits js e)
    (distinct : (owned H root h s).Nodup) (p : TreePath s.ram H root is (js.length + e + 1) t)
    (slots : Slots P s.ram H root) : Slots (Widened P widen is js) s'.ram H root := by
  induction walk generalizing is P with
  | arrived => exact slots.mono fun ks f allowed => ⟨allowed, fun impossible => impossible.elim⟩
  | @kept js s r s' i t linked contains _ ih =>
      rw [List.length_cons, show js.length + 1 + e + 1 = js.length + e + 1 + 1 by omega] at p
      have q := p.snoc fits.1 (PageTableEntry.child_eq_some.mpr ⟨linked, rfl⟩)
      refine (ih arrives (law.below.widened (i := i) has is) fits.2 distinct q
        (slots_here slots p contains)).mono fun ks f => widened_cons
  | @widened js r s' i t s linked _ _ ih =>
      rw [List.length_cons, show js.length + 1 + e + 1 = js.length + e + 1 + 1 by omega] at p
      obtain ⟨step, -⟩ := reflag_extends (P := P) distinct p fits.1 linked
        (PageTableFlags.contains_or_left widen linked) (law.here.2 _)
      have p' := step.paths _ _ _ p
      have q := step.paths _ _ _ (p.snoc fits.1 (PageTableEntry.child_eq_some.mpr ⟨linked, rfl⟩))
      refine (ih arrives (law.below.widened (i := i) has is) fits.2 (step.nodup distinct) q
        (slots_here (step.slots slots) p' ?_)).mono fun ks f => widened_cons
      rw [MemState.setRam_ram, PhysMem.entry_setEntry]
      exact PageTableFlags.contains_or_right _ (PageTableFlags.contains_self widen)
  | @created s c s₁ js t i r s' absent taken _ ih =>
      rw [List.length_cons, show js.length + 1 + e + 1 = js.length + e + 1 + 1 by omega] at p
      obtain ⟨step, q, -⟩ := create_extends distinct p fits.1 absent present law.here.1 taken
      refine (ih arrives (law.below.widened (i := i) has is) fits.2 (step.nodup distinct) q
        (slots_here (step.slots slots) (step.paths _ _ _ p) ?_)).mono fun ks f => widened_cons
      rw [MemState.setRam_ram, PhysMem.entry_setEntry]
      exact has
  | exhausted => exact absurd rfl arrives
  | huge => exact absurd rfl arrives
  | hugeWidened => exact absurd rfl arrives

end FerriOS.Memory
