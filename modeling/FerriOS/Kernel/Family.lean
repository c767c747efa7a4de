import FerriOS.Kernel.Lifetimes

/-! # The family of processes

Slots are handed out in order, so a child comes after its parent in the table. The first
process is never taken out of it.
-/

namespace FerriOS.System

open FerriOS.Lib FerriOS.Memory

/-- What an action does to the process table. -/
inductive TableChange (k k' : Kernel) : Prop where
  | same (table : k'.processTable = k.processTable)
  | entry {i : Nat} {p q : Process} (here : k.processTable i = some p)
      (table : k'.processTable = Function.update k.processTable i (some q))
        (parent : ∀ j, q.ppid = some j → p.ppid = some j)
      (init : i = INIT_PID → p.state = .alive → q.state = .alive)
  | child {i pid tid : Nat} {p : Process} {root : PhysFrame} (here : k.processTable i = some p)
      (own : p.pid = i)
      (free : k.freePid = some pid)
        (table : k'.processTable = Function.update k.processTable pid
          (some (childProcess pid tid root p)))

/-- The used slots come first, and a parent has a smaller pid than its children. -/
structure Family (table : Nat → Option Process) : Prop where
  packed : ∀ i p, table i = some p → ∀ j < i, table j ≠ none
  older : ∀ i p j, table i = some p → p.ppid = some j → j < i
  init : ∀ p, table INIT_PID = some p → p.state = .alive

variable {cfg : Config} {m m' : Machine} {k k' : Kernel} {i j pid : Nat} {p q : Process}

theorem freePid_first (free : k.freePid = some pid) (below : j < pid) :
    k.processTable j ≠ none := by
  obtain ⟨-, -, first⟩ := List.find?_range_eq_some.mp free
  intro vacant
  have used := first j below
  simp [vacant] at used

theorem Action.table (kept : Kept cfg m) (action : Action cfg m m') : TableChange m.kernel m'.kernel := by
  cases action with
  | quiet quiet => exact .same quiet.processes
  | returned => exact .same rfl
  | forkFails => exact .same rfl
  | execFails => exact .same rfl
  | sbrk => exact .same rfl
  | exit serves notInit => exact .entry serves.entry rfl (fun j parent => parent) fun init => absurd init notInit
  | exec serves => exact .entry serves.entry rfl (fun j parent => parent) fun _ alive => alive
  | kill serves _ _ entry => exact .entry entry rfl (fun j parent => parent) fun _ alive => alive
  | fork serves _ free => exact .child serves.entry serves.whole.pid free rfl
  | @reap t i p j c tid f mem' serves found entry =>
      obtain ⟨z, -, -, here, zombie, -, place, -, -, -⟩ := serves.child kept found
      obtain rfl := Option.some.inj (here.symm.trans entry)
      refine .entry (i := z.pid) (place.symm ▸ entry) rfl (fun j parent => ?_) fun _ alive => ?_
      · cases parent
      · cases zombie.symm.trans alive

namespace Family

theorem fresh (family : Family k.processTable) (free : k.freePid = some pid)
    (here : k.processTable i = some p) :
    i < pid := by
  obtain ⟨-, vacant⟩ := freePid_spec free
  by_contra above
  rcases Nat.lt_or_eq_of_le (not_lt.mp above) with past | same
  · exact family.packed i p here pid past vacant
  · subst same
    cases vacant.symm.trans here

/-- A process in the first free slot, whose parent is in the table. -/
theorem add {q : Process} (family : Family k.processTable) (free : k.freePid = some pid)
    (alive : q.state = .alive)
    (parent : ∀ j, q.ppid = some j → j < pid) :
    Family (Function.update k.processTable pid (some q)) where
  packed i p entry j below := by
    by_cases at' : j = pid
    · subst at'
      rw [Function.update_self]
      exact Option.some_ne_none _
    · rw [Function.update_of_ne at']
      by_cases here : i = pid
      · subst here
        exact freePid_first free below
      · rw [Function.update_of_ne here] at entry
        exact family.packed i p entry j below
  older i p j entry ppid := by
    by_cases here : i = pid
    · subst here
      rw [Function.update_self] at entry
      cases entry
      exact parent j ppid
    · rw [Function.update_of_ne here] at entry
      exact family.older i p j entry ppid
  init p entry := by
    by_cases here : INIT_PID = pid
    · subst here
      rw [Function.update_self] at entry
      cases entry
      exact alive
    · rw [Function.update_of_ne here] at entry
      exact family.init p entry

theorem change (family : Family k.processTable) (step : TableChange k k') :
    Family k'.processTable := by
  cases step with
  | same table => rwa [table]
  | child here own free table =>
      rw [table]
      refine family.add free rfl fun j parent => ?_
      obtain rfl := Option.some.inj parent
      exact own ▸ family.fresh free here
  | @entry i p q here table parent init =>
      have old : ∀ {j r}, Function.update k.processTable i (some q) j = some r → ∃ r',
        k.processTable j = some r' ∧
          (∀ u, r.ppid = some u → r'.ppid = some u) ∧
            (j = INIT_PID → r'.state = .alive → r.state = .alive) := by
        intro j r after
        by_cases at' : j = i
        · subst at'
          rw [Function.update_self] at after
          cases after
          exact ⟨p, here, parent, init⟩
        · rw [Function.update_of_ne at'] at after
          exact ⟨r, after, fun _ same => same, fun _ same => same⟩
      rw [table]
      constructor
      case packed =>
        intro j r after u below
        obtain ⟨r', before, -⟩ := old after
        have used := family.packed j r' before u below
        by_cases at' : u = i
        · subst at'
          rw [Function.update_self]
          exact Option.some_ne_none _
        · rwa [Function.update_of_ne at']
      case older =>
        intro j r u after ppid
        obtain ⟨r', before, same, -⟩ := old after
        exact family.older j r' u before (same u ppid)
      case init =>
        intro r after
        obtain ⟨r', before, -, same⟩ := old after
        exact same rfl (family.init r' before)

end Family

theorem Boots.family (boots : Boots cfg m) : Family m.kernel.processTable := by
  obtain ⟨memory, created⟩ := boots
  have start : Family fun _ => none := by
    constructor
    · intro i p entry
      cases entry
    · intro i p j entry
      cases entry
    · intro p entry
      cases entry
  refine Outcome.Sat.of_ok (K := True) (Q := fun _ k => Family (Kernel.processTable k))
    (E := fun _ _ => True) ?_ created
  refine Outcome.Sat.each_keep (fun k => Family (Kernel.processTable k)) _
    (fun creation _ k family => ?_) start
  cases creation with
  | kernelThread kstack =>
      rw [create]
      cases made : createKernelThread kstack k with
      | ok _ k' =>
          obtain ⟨tid, -, processes, -⟩ := createKernelThread_ok made
          change Family k'.processTable
          rwa [processes]
      | err message k' => trivial
      | panic message => trivial
  | userProcess kstack path =>
      rw [create]
      cases made : createUserProcessFromPath cfg kstack path k with
      | ok _ k' =>
          obtain ⟨image, prepared, mem', pid, tid, -, -, free, -, processes, -⟩ :=
            createUserProcessFromPath_ok made
          change Family k'.processTable
          rw [processes]
          refine family.add free rfl fun j parent => ?_
          cases parent
      | err message k' => trivial
      | panic message => trivial

/-- In every state of every run the processes form a forest: a parent has a smaller pid than
    its children, and its entry is still there. The first process never ends. -/
theorem process_family (lower : cfg.LowerHalf) (lives : Lives cfg m) :
    (∀ i p j, m.kernel.processTable i = some p → p.ppid = some j → j < i ∧ ∃ q,
    m.kernel.processTable j = some q) ∧
      ∀ p, m.kernel.processTable INIT_PID = some p → p.state = .alive := by
  have family : Family m.kernel.processTable :=
    lives.always lower (I := fun m => Family m.kernel.processTable) (fun _ boots => boots.family)
      (fun _ _ acts family => family.change (acts.action.table acts.before)) fun _ _ _ family =>
        family
  refine ⟨fun i p j entry parent => ?_, family.init⟩
  have before := family.older i p j entry parent
  exact ⟨before, Option.ne_none_iff_exists'.mp (family.packed i p entry j before)⟩

theorem process_family_orphaned : ∃ m, Shows bareConfig m .orphaned ∧
    (∀ i p j, m.kernel.processTable i = some p → p.ppid = some j → j < i ∧ ∃ q,
    m.kernel.processTable j = some q) ∧
      ∀ p, m.kernel.processTable INIT_PID = some p → p.state = .alive := by
  obtain ⟨m, shown⟩ := orphaned_reached
  exact ⟨m, shown, process_family bareConfig_lower shown.reached.lives⟩

end FerriOS.System
