import FerriOS.Kernel.Isolation
import FerriOS.Kernel.Plans

/-! # Lifetimes

What the world of processes says of the tables, over whole runs with programs that write.
-/

namespace FerriOS.System

open FerriOS.Lib FerriOS.Memory

variable {cfg : Config} {m m' : Machine} {v : Scene} {k : Kernel} {t i j : Nat} {p q : Process}

/-! ## Entries and slots -/

theorem slot_used (entry : k.processTable i = some p) : k.slot i ≠ .vacant := by
  rw [Kernel.slot, entry]
  dsimp only
  split <;> (intro is; cases is)

theorem slot_entry (used : k.slot i ≠ .vacant) : ∃ p, k.processTable i = some p :=
  Option.ne_none_iff_exists'.mp fun none' => used (slot_vacant none')

theorem slot_runs (entry : k.processTable i = some p) : (k.slot i).Runs ↔ p.state = .alive := by
  rw [Kernel.slot, entry]
  cases state : p.state <;> simp [Process.live, Process.summary, Slot.Runs, state]

/-- What becomes of an entry while its process is there. -/
theorem slot_leads {k' : Kernel} (entry : k.processTable i = some p)
    (after : k'.processTable i = some q)
    (leads : Slot.Leads (k.slot i) (k'.slot i)) (live : q.live = true) :
    p.live = true ∧ q.ppid = p.ppid ∧
      (p.killed = true → q.killed = true) ∧
        (p.state = .zombie → q.state = .zombie ∧ q.exitStatus = p.exitStatus) := by
  cases alive : p.live with
  | false =>
      rw [slot_dead entry alive, slot_live after live] at leads
      cases leads
  | true =>
      rw [slot_live entry alive, slot_live after live] at leads
      cases leads with
      | occupied parent exit killed =>
          refine ⟨rfl, parent, killed, fun zombie => ?_⟩
          have ended := congrArg Proc.exit (exit p.exitStatus (if_pos zombie))
          have code : (if q.state = .zombie then some q.exitStatus else none) = some p.exitStatus := ended.trans (if_pos zombie)
          split at code
          case isTrue state => exact ⟨state, Option.some.inj code⟩
          case isFalse => cases code

theorem orphan_slot (entry : m.kernel.processTable j = some p) (live : p.live = true)
    (parent : ∀ i, p.ppid = some i → ∃ r, m.kernel.processTable i = some r ∧ r.state ≠ .alive) :
    m.world.Orphan j (p.summary (m.kernel.spaceOf j)) where
  slot := slot_live entry live
  parent i is := by
    obtain ⟨r, there, ended⟩ := parent i is
    exact ⟨slot_used there, fun runs => ended ((slot_runs there).mp runs)⟩

theorem turns_refine (lower : cfg.LowerHalf) (lives : Lives cfg m)
    (turns : Relation.ReflTransGen (Turn cfg) m m') :
    Lives cfg m' ∧ m.world.Run m'.world := by
  induction turns with
  | refl => exact ⟨lives, .refl⟩
  | tail _ turn ih => exact ⟨ih.1.turn turn, ih.2.trans (turn.refines lower (ih.1.inv lower))⟩

theorem Shows.occupied {member : Member} (shown : Shows cfg m v)
    (there : v.members[i]? = some member) :
    ∃ p, m.kernel.processTable i = some p ∧ p.live = true ∧ p.member = member := by
  obtain ⟨p, entry, same⟩ := Option.map_eq_some_iff.mp ((shown.members i).trans there)
  exact ⟨p, entry, shown.live i p entry, same⟩

/-- The child has made a child and has exited. -/
def Scene.orphaned : Scene where
  pc := .scheduler
  current := some 1
  started := true
  states := [.runnable, .zombie, .runnable]
  members := [⟨.alive, false, none⟩, ⟨.zombie, false, some 0⟩, ⟨.alive, false, some 1⟩]
  rests := [.user, .exited, .user]
  frames := 14

theorem orphaned_reached : ∃ m, Shows bareConfig m .orphaned :=
  plan_reaches 40 [.schedule, .proceed, .fork, .tick, .schedule, .proceed, .fork, .exit]
    (by decide) (by decide)

/-! ## Over whole runs -/

/-- A run of the machine, programs that write to their memory included, is a run of a
    system of processes with spaces of their own. -/
theorem kernel_refines (lower : cfg.LowerHalf) (lives : Lives cfg m)
    (turns : Relation.ReflTransGen (Turn cfg) m m') :
    m.world.Run m'.world := (turns_refine lower lives turns).2

theorem Shows.turns {v v' : Scene} {plan : List Move} (shown : Shows bareConfig m v)
    (followed : v.follow plan = some v') :
    ∃ m', Shows bareConfig m' v' ∧ Relation.ReflTransGen (Turn bareConfig) m m' := by
  obtain ⟨m', shown', run⟩ := @Shows.follow_runs _ _ _ _
    (fun _ _ => True) bareConfig_lower plan shown followed
    fun _ _ _ _ _ _ _ => trivial
  exact ⟨m', shown', run.lift id fun _ _ step => step.elim fun event taken => .step event taken.2⟩

/-- From the boot, through a fork and a tick. -/
theorem kernel_refines_child : ∃ k m, Boots bareConfig (.start k) ∧
    Relation.ReflTransGen (Turn bareConfig) (.start k) m ∧ m.pc = .user 1 ∧
      (Machine.start k).world.Run m.world := by
  obtain ⟨k, -, boots, shown⟩ := boots_bare 40 (by decide)
  obtain ⟨m, shown', turns⟩ := shown.turns childPlan_follow
  exact ⟨k, m, boots, turns, shown'.pc,
    kernel_refines bareConfig_lower shown.reached.lives turns⟩

/-- A process keeps its parent, a kill is not taken back, an exit code is final and a slot
    that was reaped is never used again. -/
theorem entries_last (lower : cfg.LowerHalf) (lives : Lives cfg m)
    (turns : Relation.ReflTransGen (Turn cfg) m m')
    (entry : m.kernel.processTable i = some p) :
    ∃ q, m'.kernel.processTable i = some q ∧ (q.live = true →
      p.live = true ∧ q.ppid = p.ppid ∧ (p.killed = true → q.killed = true) ∧
        (p.state = .zombie → q.state = .zombie ∧ q.exitStatus = p.exitStatus)) := by
  obtain ⟨-, run⟩ := turns_refine lower lives turns
  have leads : Slot.Leads (m.kernel.slot i) (m'.kernel.slot i) := run.leads i
  obtain ⟨q, after⟩ := slot_entry (leads.used (slot_used entry))
  exact ⟨q, after, slot_leads entry after leads⟩

/-- The child exits, and its entry lasts while its parent runs again. -/
theorem entries_last_exited : ∃ m m' p, Relation.ReflTransGen (Turn bareConfig) m m' ∧
    m'.pc = .user 0 ∧ m.kernel.processTable 1 = some p ∧ p.state = .zombie ∧
    ∃ q, m'.kernel.processTable 1 = some q ∧ (q.live = true → p.live = true ∧ q.ppid = p.ppid ∧
      (p.killed = true → q.killed = true) ∧
        (p.state = .zombie → q.state = .zombie ∧ q.exitStatus = p.exitStatus)) := by
  obtain ⟨m, shown⟩ := plan_reaches 40
    [.schedule, .proceed, .fork, .tick, .schedule, .proceed, .exit]
    (by decide) rfl
  obtain ⟨m', shown', turns⟩ :=
    shown.turns (by decide : Scene.follow _ [.schedule, .proceed] = some .bereft)
  obtain ⟨p, entry, -, here⟩ := shown.occupied (i := 1) rfl
  exact ⟨m, m', p, turns, shown'.pc, entry, congrArg Member.state here,
    entries_last bareConfig_lower shown.reached.lives turns entry⟩

/-- A process whose parent has ended is never reaped: its slot stays taken. -/
theorem orphan_stays (lower : cfg.LowerHalf) (lives : Lives cfg m)
    (turns : Relation.ReflTransGen (Turn cfg) m m')
    (entry : m.kernel.processTable j = some p) (live : p.live = true)
    (parent : ∀ i, p.ppid = some i → ∃ r, m.kernel.processTable i = some r ∧ r.state ≠ .alive) :
    ∃ q, m'.kernel.processTable j = some q ∧ q.live = true ∧ q.ppid = p.ppid := by
  obtain ⟨-, run⟩ := turns_refine lower lives turns
  obtain ⟨r, orphan, same⟩ := World.Run.orphan run (orphan_slot entry live parent)
  have slot : m'.kernel.slot j = .occupied r := orphan.slot
  obtain ⟨q, after⟩ := slot_entry (by rw [slot]; intro is; cases is)
  cases alive : q.live with
  | false =>
      rw [slot_dead after alive] at slot
      cases slot
  | true =>
      rw [slot_live after alive] at slot
      cases slot
      exact ⟨q, after, alive, same⟩

theorem orphan_stays_second : ∃ m m' p, Turn bareConfig m m' ∧ m.kernel.processTable 2 = some p ∧
    ∃ q, m'.kernel.processTable 2 = some q ∧ q.live = true ∧ q.ppid = p.ppid := by
  obtain ⟨m, shown⟩ := orphaned_reached
  obtain ⟨m', taken, -⟩ := shown.schedule bareConfig_lower rfl
    (by decide : Scene.orphaned.nextThread = some 2)
  obtain ⟨p, entry, live, here⟩ := shown.occupied (i := 2) rfl
  obtain ⟨r, entry₁, -, there⟩ := shown.occupied (i := 1) rfl
  refine ⟨m, m', p, .step _ taken, entry,
    orphan_stays bareConfig_lower shown.reached.lives (.single (.step _ taken)) entry live
      fun i parent => ?_⟩
  obtain rfl : i = 1 := Option.some.inj (parent.symm.trans (congrArg Member.ppid here))
  refine ⟨r, entry₁, fun alive => ?_⟩
  cases alive.symm.trans (congrArg Member.state there)

/-- While others run, a process keeps every byte of its memory, all the flags and its heap. -/
theorem spaces_isolated {p q : Proc Nat (Option UserSpace) Int} (lower : cfg.LowerHalf)
    (lives : Lives cfg m)
    (turns : Relation.ReflTransGen (Elsewhere cfg j) m m') (before : m.kernel.slot j = .occupied p)
    (after : m'.kernel.slot j = .occupied q) : q.space = p.space :=
    (elsewhere_spaces lower lives turns before).2.2 q after

/-- While its parent makes another child and is preempted. -/
theorem spaces_isolated_child : ∃ m m' p q,
    Relation.ReflTransGen (Elsewhere bareConfig 1) m m' ∧ m'.pc = .kernel 1 ∧
      m.kernel.slot 1 = .occupied p ∧ m'.kernel.slot 1 = .occupied q ∧ q.space = p.space := by
  have others : ∀ visit ∈ Scene.forked.visits [.fork, .tick, .schedule],
    visit.1.current = some 0 ∧ 0 < visit.1.states.length := by decide
  obtain ⟨m, shown⟩ := forked_reached
  obtain ⟨m', shown', steps⟩ := @Shows.follow_runs _ _ _ _
    (fun m _ => m.kernel.currentPid ≠ some 1) bareConfig_lower [.fork, .tick, .schedule] shown rfl
    fun w _ _ m inside _ here => by
      obtain ⟨current, used⟩ := others _ inside
      rw [Kernel.currentPid, here.current, current, Option.bind_some, here.owner 0 used]
      decide
  have elsewhere : Relation.ReflTransGen (Elsewhere bareConfig 1) m m' :=
    steps.lift id fun _ _ step => step.elim fun event taken => ⟨.step event taken.2, taken.1⟩
  obtain ⟨p, entry, live, -⟩ := shown.occupied (i := 1) rfl
  obtain ⟨q, entry', live', -⟩ := shown'.occupied (i := 1) rfl
  exact ⟨m, m', _, _, elsewhere, shown'.pc, slot_live entry live, slot_live entry' live',
    spaces_isolated bareConfig_lower shown.reached.lives elsewhere (slot_live entry live)
      (slot_live entry' live')⟩

end FerriOS.System
