import Mathlib

/-! # Systems of processes

What a kernel with processes is for, whatever its tables are: a process acts while it is
the current one, it changes its own space and no other, and it lasts until its parent has
taken its exit code. An identifier is used once.
-/

namespace FerriOS.Lib

variable {Pid Space Code : Type}

structure Proc (Pid Space Code : Type) where
  parent : Option Pid
  /-- The exit code, once it has exited. -/
  exit : Option Code
  killed : Bool
  space : Space

inductive Slot (Pid Space Code : Type) where
  | vacant
  | occupied (p : Proc Pid Space Code)
  | reaped

structure World (Pid Space Code : Type) where
  current : Option Pid
  slots : Pid → Slot Pid Space Code

/-- The process runs. -/
def Slot.Runs : Slot Pid Space Code → Prop
  | .occupied p => p.exit = none
  | _ => False

namespace World

variable [DecidableEq Pid]

def set (w : World Pid Space Code) (i : Pid) (slot : Slot Pid Space Code) : World Pid Space Code :=
  { w with slots := Function.update w.slots i slot }

/-- The process `p` acts. -/
structure Acts (w : World Pid Space Code) (i : Pid) (p : Proc Pid Space Code) : Prop where
  here : w.current = some i
  slot : w.slots i = .occupied p
  running : p.exit = none

inductive Step : World Pid Space Code → World Pid Space Code → Prop where
  | switch (current : Option Pid) : Step w { w with current }
  | change (acts : w.Acts i p) (space : Space) : Step w (w.set i (.occupied { p with space }))
  | fork {i c : Pid} {p : Proc Pid Space Code} (acts : w.Acts i p) (vacant : w.slots c = .vacant) :
      Step w (w.set c (.occupied ⟨some i, none, false, p.space⟩))
  | exit (acts : w.Acts i p) (code : Code) :
      Step w (w.set i (.occupied { p with exit := some code }))
  | kill {i j : Pid} {p q : Proc Pid Space Code} (acts : w.Acts i p)
      (victim : w.slots j = .occupied q) :
      Step w (w.set j (.occupied { q with killed := true }))
  | reap {i j : Pid} {p q : Proc Pid Space Code} {code : Code} (acts : w.Acts i p)
      (child : w.slots j = .occupied q) (parent : q.parent = some i) (ended : q.exit = some code) :
      Step w (w.set j .reaped)

abbrev Run : World Pid Space Code → World Pid Space Code → Prop := Relation.ReflTransGen Step

variable {w w' : World Pid Space Code} {i j c : Pid} {p q : Proc Pid Space Code}

@[simp] theorem set_at (w : World Pid Space Code) (i : Pid) (slot : Slot Pid Space Code) :
    (w.set i slot).slots i = slot :=
  Function.update_self ..

theorem set_ne (slot : Slot Pid Space Code) (other : j ≠ i) : (w.set i slot).slots j = w.slots j :=
  Function.update_of_ne other ..

end World

/-! ## What lasts -/

/-- The same process, not earlier. -/
inductive Slot.Leads : Slot Pid Space Code → Slot Pid Space Code → Prop where
  | vacant (slot : Slot Pid Space Code) : Leads .vacant slot
  | occupied {p q : Proc Pid Space Code} (parent : q.parent = p.parent)
      (exit : ∀ code, p.exit = some code → q = { p with killed := q.killed })
      (killed : p.killed = true → q.killed = true) : Leads (.occupied p) (.occupied q)
  | taken {p : Proc Pid Space Code} : Leads (.occupied p) .reaped
  | reaped : Leads .reaped .reaped

namespace Slot.Leads

theorem refl (slot : Slot Pid Space Code) : Leads slot slot := by
  cases slot with
  | vacant => exact .vacant _
  | occupied p => exact .occupied rfl (fun _ _ => rfl) id
  | reaped => exact .reaped

theorem trans {a b c : Slot Pid Space Code} (first : Leads a b) (second : Leads b c) :
    Leads a c := by
  cases first with
  | vacant => exact .vacant _
  | reaped => exact second
  | taken =>
      cases second with
      | reaped => exact .taken
  | occupied parent exit killed =>
      cases second with
      | taken => exact .taken
      | occupied parent' exit' killed' =>
          refine .occupied (parent'.trans parent) (fun code ended => ?_) (killed' ∘ killed)
          have middle := exit code ended
          have last := exit' code (by rw [middle, ended])
          rw [last, middle]

theorem runs {a b : Slot Pid Space Code} (leads : Leads a b) (used : a ≠ .vacant) (runs : b.Runs) :
    a.Runs := by
  cases leads with
  | vacant => exact absurd rfl used
  | taken => exact runs.elim
  | reaped => exact runs
  | @occupied p q parent exit killed =>
      cases ended : p.exit with
      | none => exact ended
      | some code =>
          have same := exit code ended
          have stopped : q.exit = some code := by rw [same, ended]
          cases stopped.symm.trans runs

theorem used {a b : Slot Pid Space Code} (leads : Leads a b) (used : a ≠ .vacant) :
    b ≠ .vacant := by
  cases leads with
  | vacant => exact absurd rfl used
  | _ => exact nofun

end Slot.Leads

namespace World

variable [DecidableEq Pid] {w w' : World Pid Space Code} {i j c : Pid} {p q : Proc Pid Space Code}

/-- A change to one slot. -/
theorem leads_set {slot : Slot Pid Space Code} (leads : Slot.Leads (w.slots i) slot) (j : Pid) :
    Slot.Leads (w.slots j) ((w.set i slot).slots j) := by
  by_cases here : j = i
  · subst here
    rwa [set_at]
  · rw [set_ne slot here]
    exact .refl _

theorem Step.leads (step : Step w w') (j : Pid) : Slot.Leads (w.slots j) (w'.slots j) := by
  cases step with
  | switch => exact .refl _
  | change acts space =>
      refine leads_set ?_ j
      rw [acts.slot]
      exact .occupied rfl (fun code ended => by cases ended.symm.trans acts.running) id
  | fork acts vacant =>
      refine leads_set ?_ j
      rw [vacant]
      exact .vacant _
  | exit acts code =>
      refine leads_set ?_ j
      rw [acts.slot]
      exact .occupied rfl (fun code ended => by cases ended.symm.trans acts.running) id
  | kill acts victim =>
      refine leads_set ?_ j
      rw [victim]
      exact .occupied rfl (fun _ _ => rfl) fun _ => rfl
  | reap acts child =>
      refine leads_set ?_ j
      rw [child]
      exact .taken

/-- In a run, a process keeps its parent, a kill is not taken back, and after its exit
    nothing but a kill changes it; what was reaped does not come back. -/
theorem Run.leads (run : Run w w') (j : Pid) : Slot.Leads (w.slots j) (w'.slots j) := by
  induction run with
  | refl => exact .refl _
  | tail _ step ih => exact ih.trans (step.leads j)

/-- A process without a running parent. -/
structure Orphan (w : World Pid Space Code) (j : Pid) (p : Proc Pid Space Code) : Prop where
  slot : w.slots j = .occupied p
  parent : ∀ i, p.parent = some i → w.slots i ≠ .vacant ∧ ¬ (w.slots i).Runs

/-- A process disappears when its parent, which runs, reaps it. -/
theorem Step.reaps (step : Step w w') (before : w.slots j = .occupied p)
    (after : w'.slots j = .reaped) :
    ∃ i r, w.Acts i r ∧ p.parent = some i ∧ p.exit ≠ none := by
  have other : ∀ {k : Pid} {r : Proc Pid Space Code},
    (w.set k (.occupied r)).slots j ≠ .reaped := by
    intro k r same
    by_cases here : j = k
    · subst here
      rw [set_at] at same
      cases same
    · rw [set_ne _ here, before] at same
      cases same
  cases step with
  | switch => cases before.symm.trans after
  | change acts space => exact absurd after other
  | fork acts vacant => exact absurd after other
  | exit acts code => exact absurd after other
  | kill acts victim => exact absurd after other
  | @reap i k r q code acts child parent ended =>
      by_cases here : j = k
      · subst here
        obtain rfl : q = p := by
          cases child.symm.trans before
          rfl
        exact ⟨i, r, acts, parent, by rw [ended]; exact Option.some_ne_none code⟩
      · rw [set_ne _ here, before] at after
        cases after

/-- A new process is the child of the current one, with a copy of its space. -/
theorem Step.born (step : Step w w') (before : w.slots j = .vacant)
    (after : w'.slots j = .occupied q) :
    ∃ i p, w.Acts i p ∧ q = ⟨some i, none, false, p.space⟩ := by
  have unchanged : w'.slots j ≠ w.slots j := by
    rw [after, before]
    exact nofun
  have apart : ∀ {k : Pid} {r : Proc Pid Space Code} {slot : Slot Pid Space Code},
    w.slots k = .occupied r →
      (w.set k slot).slots j = w.slots j := by
    intro k r slot used
    refine set_ne _ ?_
    rintro rfl
    cases before.symm.trans used
  cases step with
  | switch => exact absurd rfl unchanged
  | change acts space => exact absurd (apart acts.slot) unchanged
  | exit acts code => exact absurd (apart acts.slot) unchanged
  | kill acts victim => exact absurd (apart victim) unchanged
  | reap acts child => exact absurd (apart child) unchanged
  | @fork i c p acts vacant =>
      by_cases here : j = c
      · subst here
        rw [set_at] at after
        cases after
        exact ⟨i, p, acts, rfl⟩
      · exact absurd (set_ne _ here) unchanged

/-- An orphan is never reaped. -/
theorem Step.orphan (step : Step w w') (orphan : w.Orphan j p) :
    ∃ q, w'.Orphan j q ∧ q.parent = p.parent := by
  have leads := step.leads j
  rw [orphan.slot] at leads
  have parents : ∀ i, p.parent = some i → w'.slots i ≠ .vacant ∧ ¬ (w'.slots i).Runs := by
    intro i parent
    obtain ⟨used, stopped⟩ := orphan.parent i parent
    exact ⟨(step.leads i).used used, fun runs => stopped ((step.leads i).runs used runs)⟩
  cases after : w'.slots j with
  | vacant =>
      rw [after] at leads
      cases leads
  | occupied q =>
      rw [after] at leads
      cases leads with
      | occupied parent => exact ⟨q, ⟨after, parent ▸ parents⟩, parent⟩
  | reaped =>
      obtain ⟨i, r, acts, parent, -⟩ := step.reaps orphan.slot after
      refine absurd ?_ (orphan.parent i parent).2
      rw [acts.slot]
      exact acts.running

theorem Run.orphan (run : Run w w') (orphan : w.Orphan j p) :
    ∃ q, w'.Orphan j q ∧ q.parent = p.parent := by
  induction run with
  | refl => exact ⟨p, orphan, rfl⟩
  | tail _ step ih =>
      obtain ⟨q, there, parent⟩ := ih
      obtain ⟨q', there', parent'⟩ := step.orphan there
      exact ⟨q', there', parent'.trans parent⟩

end World

end FerriOS.Lib
