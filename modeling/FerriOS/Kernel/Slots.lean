import FerriOS.Kernel.Children
import FerriOS.Kernel.Waiting
import FerriOS.Kernel.Fork

/-! # Slots of the process table

A slot that `next_pid` hands out is one that no process ever had. The slot of a
reaped child holds a blank entry, which is not an empty slot, so it is not handed
out again.
-/

namespace FerriOS.System

open FerriOS.Lib FerriOS.Memory FerriOS.Loader

variable {cfg : Config} {m m' : Machine} {k k' : Kernel} {t i j : Nat} {p q : Process}

/-- The slots of the processes that are alive or zombies. -/
def Kernel.liveSlots (k : Kernel) : Finset Nat :=
  (Finset.range NPROCESS).filter fun i => (k.processTable i).any (·.live)

theorem mem_liveSlots : i ∈ k.liveSlots ↔ i < NPROCESS ∧ ∃ p, k.processTable i = some p ∧
    p.live = true := by
  rw [Kernel.liveSlots, Finset.mem_filter, Finset.mem_range, Option.any_eq_true]

/-- Slots that are filled lie below the last one, and a blank entry is what a reaped
    child left. -/
structure HandedOut (processes : Nat → Option Process) (history : List Entry) : Prop where
  inside : ∀ i p, processes i = some p → i < NPROCESS - 1
  spent : ∀ i p, processes i = some p → p.live = false → i ∈ history.filterMap Entry.buried

variable {processes processes' : Nat → Option Process} {history : List Entry}

theorem HandedOut.same (new : List Entry) (handed : HandedOut processes history)
    (entries : ∀ i q, processes' i = some q → ∃ p, processes i = some p ∧ q.live = p.live) :
    HandedOut processes' (new ++ history) := by
  refine ⟨fun i q entry => ?_, fun i q entry dead => ?_⟩
  · obtain ⟨p, here, -⟩ := entries i q entry
    exact handed.inside i p here
  · obtain ⟨p, here, live⟩ := entries i q entry
    rw [List.filterMap_append]
    exact List.mem_append_right _ (handed.spent i p here (live ▸ dead))

/-- One slot is written, with a live entry or after the child in it was reaped. -/
theorem HandedOut.write (new : List Entry) (handed : HandedOut processes history)
    (inside : j < NPROCESS - 1)
    (spent : q.live = false → j ∈ (new ++ history).filterMap Entry.buried) :
    HandedOut (Function.update processes j (some q)) (new ++ history) := by
  refine ⟨fun i p entry => ?_, fun i p entry dead => ?_⟩
  · by_cases here : i = j
    · exact here ▸ inside
    · rw [Function.update_of_ne here] at entry
      exact handed.inside i p entry
  · by_cases here : i = j
    · subst here
      rw [Function.update_self, Option.some.injEq] at entry
      exact spent (entry ▸ dead)
    · rw [Function.update_of_ne here] at entry
      rw [List.filterMap_append]
      exact List.mem_append_right _ (handed.spent i p entry dead)

/-- Every action hands slots out in this way. -/
theorem HandedOut.acts (acts : Acts cfg m m') (handed : HandedOut m.kernel.processTable m.history) :
    HandedOut m'.kernel.processTable m'.history := by
  obtain ⟨kept, action, -⟩ := acts
  cases action with
  | quiet quiet =>
      obtain ⟨new, shape, -⟩ := quiet.history
      rw [quiet.processes, shape]
      exact handed.same new fun i q entry => ⟨q, entry, rfl⟩
  | returned => exact handed.same [_] fun i q entry => ⟨q, entry, rfl⟩
  | exit serves =>
      exact handed.write [_] (handed.inside _ _ serves.entry) (by simp [Process.live])
  | fork serves spared free =>
      exact handed.write [_] (freePid_spec free).1
        (by simp [childProcess, newProcess, Process.live])
  | forkFails => exact handed
  | exec serves =>
      refine handed.write [] (handed.inside _ _ serves.entry) fun dead => ?_
      exact handed.spent _ _ serves.entry dead
  | execFails => exact handed
  | sbrk => exact handed
  | kill serves spared inside entry =>
      exact handed.write [] (handed.inside _ _ entry) fun dead => handed.spent _ _ entry dead
  | @reap t i j p c f tid mem' serves found entry owns table freed =>
      obtain ⟨c', -, -, entry', -, -, place, -⟩ := serves.child kept found
      obtain rfl := Option.some.inj (entry.symm.trans entry')
      have inside : c.pid < NPROCESS - 1 := place ▸ handed.inside _ _ entry
      exact handed.write [_] inside fun _ => by simp [Entry.buried]

/-- The boot fills no slot but by `next_pid`. -/
theorem Boots.inside (boots : Boots cfg m) (entry : m.kernel.processTable i = some p) :
    i < NPROCESS - 1 := by
  obtain ⟨memory, created⟩ := boots
  refine Outcome.Sat.of_ok (K := True)
    (Q := fun _ k => ∀ i p, Kernel.processTable k i = some p → i < NPROCESS - 1)
    (E := fun _ _ => True) ?_ created i p entry
  refine Outcome.Sat.each_keep
    (fun k => ∀ i p, Kernel.processTable k i = some p → i < NPROCESS - 1) _
    (fun creation _ k inside => ?_) fun _ _ entry => nomatch entry
  cases creation with
  | kernelThread kstack =>
      rw [create]
      cases made : createKernelThread kstack k with
      | ok _ k' =>
          obtain ⟨tid, -, processes, -⟩ := createKernelThread_ok made
          exact fun i p entry => inside i p (processes ▸ entry)
      | err message k' => trivial
      | panic message => trivial
  | userProcess kstack path =>
      rw [create]
      cases made : createUserProcessFromPath cfg kstack path k with
      | ok _ k' =>
          obtain ⟨_, _, _, pid, _, -, -, free, -, processes, -⟩ := createUserProcessFromPath_ok made
          intro i p entry
          by_cases here : i = pid
          · exact here ▸ (freePid_spec free).1
          · rw [processes, Function.update_of_ne here] at entry
            exact inside i p entry
      | err message k' => trivial
      | panic message => trivial

theorem Reachable.handedOut (lower : cfg.LowerHalf) (reached : Reachable cfg m) :
    HandedOut m.kernel.processTable m.history := by
  obtain ⟨m₀, boots, steps⟩ := reached
  refine (steps_lead lower (boots.inv lower) steps).run.keeps
    (I := fun m => HandedOut m.kernel.processTable m.history)
    (fun _ _ acts => HandedOut.acts acts)
    ⟨fun i p entry => boots.inside entry, fun i p entry dead => ?_⟩
  obtain ⟨k, rfl, booted⟩ := boots.booted lower
  have live : p.live = true := Process.live_iff.mpr (.inl (booted.first i p entry).1)
  cases dead.symm.trans live

/-- `fork` finds the process table full exactly if every slot was used. -/
theorem freePid_none : k.freePid = none ↔ ∀ i < NPROCESS - 1, k.processTable i ≠ none := by
  simp [Kernel.freePid, Option.isNone_iff_eq_none]

/-- The programs that do not complain of the process table. -/
abbrev Tells {α : Type} (o : Outcome MemState α) : Prop :=
  o.Sat True (fun _ _ => True) fun message _ => message ≠ "Process table is full"

theorem tells_frame {α : Type} {message : String} {rest : PhysFrame → Prog MemState α}
    {s : MemState}
    (other : message ≠ "Process table is full") (tells : ∀ frame s, Tells (rest frame s)) :
    Tells ((do let frame ← .okOr message (← allocateFrame); rest frame : Prog MemState α) s) := by
  obtain ⟨s', r, run, -⟩ := allocateFrame_spec s
  rw [Prog.bind_ok run]
  exact Outcome.Sat.bind (Q := fun _ _ => True)
    (Outcome.Sat.okOr (fun _ _ => trivial) fun _ => other)
    fun frame s _ => tells frame s

theorem copyLevel_tells (d : Nat) (parent child : PhysFrame) (s : MemState) :
    Tells (copyLevel d parent child s) := by
  induction d generalizing parent child s with
  | zero => trivial
  | succ d ih =>
      rw [copyLevel]
      refine Outcome.Sat.each_keep (fun _ => True) _ (fun i _ s _ => ?_) trivial
      rw [Prog.get_bind]
      by_cases present : (s.ram.entry parent i).present = true
      · simp only [present, if_true]
        refine tells_frame (by rcases d with - | - | - | d <;> simp [copyError]) fun frame s => ?_
        refine Outcome.Sat.bind (Q := fun _ _ => True) (by cases d <;> trivial) fun _ s _ => ?_
        refine Outcome.Sat.bind (Q := fun _ _ => True) ?_ fun _ s _ => ih _ _ s
        rw [setFrame]
        split <;> trivial
      · simp only [present, Bool.false_eq_true, if_false]
        trivial

theorem newUvm_tells (s : MemState) : Tells (newUvm s) := by
  refine Outcome.Sat.bind (Q := fun _ _ => True) ?_ fun _ _ _ => trivial
  rw [setupKvm]
  -- The slots are not to be unfolded.
  generalize List.range' PAGETABLE_KERNEL_SPACE_START
    (PAGETABLE_KERNEL_SPACE_END - PAGETABLE_KERNEL_SPACE_START) = slots
  refine tells_frame (by decide) fun frame s => ?_
  refine Outcome.Sat.bind (Q := fun _ _ => True) trivial fun _ s _ => ?_
  rw [Prog.get_bind]
  refine Outcome.Sat.bind (Q := fun _ _ => True) ?_ fun _ _ _ => trivial
  refine Outcome.Sat.each_keep (fun _ => True) _ (fun i _ s _ => ?_) trivial
  rw [writeRam_run]
  trivial

theorem copyUvm_tells (f : PhysFrame) (s : MemState) : Tells (copyUvm f s) :=
  Outcome.Sat.bind (newUvm_tells s) fun root s _ =>
    Outcome.Sat.bind (copyLevel_tells 4 f root s) fun _ _ _ => trivial

/-- `fork` finds the table full only where it is. -/
theorem fork_full {kstack : Nat} {f : PhysFrame} (cur : Current k t i p)
    (table : p.pageTable = some f)
    (owns : Owns k i p t) (stack : kstack ≠ 0) :
    (∃ k', fork kstack k = .err "Process table is full" k') ↔ k.freePid = none := by
  obtain ⟨parentTf, tf⟩ := Option.ne_none_iff_exists'.mp owns.tf
  rw [fork_run cur table tf owns.used stack]
  cases k.freePid with
  | none => exact iff_of_true ⟨k, rfl⟩ rfl
  | some pid =>
      refine iff_of_false (fun ⟨k', failed⟩ => ?_) (Option.some_ne_none _)
      cases freeT : k.freeTid with
      | none => simp [freeT] at failed
      | some tid =>
        cases copied : copyUvm f k.mem with
        | ok root mem' => simp [freeT, copied] at failed
        | panic message => simp [freeT, copied] at failed
        | err message mem' =>
          simp only [freeT, copied, Outcome.err.injEq] at failed
          exact (copyUvm_tells f k.mem).of_err copied failed.1

/-- Every filled slot holds a live process or a reaped child. -/
theorem used_slots_card (lower : cfg.LowerHalf) (reached : Reachable cfg m) :
    m.kernel.liveSlots.card + (m.history.filterMap Entry.buried).length =
      ((Finset.range (NPROCESS - 1)).filter fun i => m.kernel.processTable i ≠ none).card := by
  have handed := reached.handedOut lower
  have custody := reached.custody lower
  have shape : m.kernel.liveSlots ∪ (m.history.filterMap Entry.buried).toFinset =
      (Finset.range (NPROCESS - 1)).filter fun i => m.kernel.processTable i ≠ none := by
    ext i
    simp only [Finset.mem_union, mem_liveSlots, List.mem_toFinset, Finset.mem_filter,
      Finset.mem_range]
    constructor
    · rintro (⟨-, p, entry, -⟩ | buried)
      · exact ⟨handed.inside i p entry, by simp [entry]⟩
      · obtain ⟨parent, status, reaped⟩ := mem_buried.mp buried
        have forked := (custody.reaped parent i status reaped).1
        have used : m.kernel.processTable i ≠ none := fun vacant =>
          (custody.vacant i vacant).1 (mem_born.mpr ⟨parent, forked⟩)
        obtain ⟨p, entry⟩ := Option.ne_none_iff_exists'.mp used
        exact ⟨handed.inside i p entry, used⟩
    · rintro ⟨inside, used⟩
      obtain ⟨p, entry⟩ := Option.ne_none_iff_exists'.mp used
      cases live : p.live with
      | true => exact .inl ⟨by omega, p, entry, live⟩
      | false => exact .inr (handed.spent i p entry live)
  have apart : Disjoint m.kernel.liveSlots (m.history.filterMap Entry.buried).toFinset := by
    refine Finset.disjoint_left.mpr fun i live buried => ?_
    obtain ⟨-, p, entry, live⟩ := mem_liveSlots.mp live
    exact custody.live i p entry live (List.mem_toFinset.mp buried)
  rw [← shape, Finset.card_union_of_disjoint apart, List.toFinset_card_of_nodup custody.buriedOnce]

theorem used_slots_le (lower : cfg.LowerHalf) (reached : Reachable cfg m) :
    m.kernel.liveSlots.card + (m.history.filterMap Entry.buried).length ≤ NPROCESS - 1 := by
  have whole := Finset.card_filter_le (Finset.range (NPROCESS - 1)) fun i =>
    m.kernel.processTable i ≠ none
  rwa [← used_slots_card lower reached, Finset.card_range] at whole

theorem used_slots (lower : cfg.LowerHalf) (reached : Reachable cfg m) :
    m.kernel.liveSlots.card + (m.history.filterMap Entry.buried).length < NPROCESS - 1 ↔
      m.kernel.freePid ≠ none := by
  have all := Finset.card_filter_eq_iff (s := Finset.range (NPROCESS - 1))
    (p := fun i => m.kernel.processTable i ≠ none)
  rw [Finset.card_range, ← used_slots_card lower reached] at all
  rw [lt_iff_le_and_ne, and_iff_right (used_slots_le lower reached), ne_eq, all, ne_eq,
    freePid_none]
  simp only [Finset.mem_range]

/-- While fewer processes are there than slots, `fork` does not find the table full
    exactly if fewer slots than that were ever used: those of reaped children count. -/
theorem slots_reusable_iff {rsp : Nat} {regs : TrapFrame} (lower : cfg.LowerHalf)
    (reached : Reachable cfg m)
    (pc : m.pc = .user t) (entered : k = (m.calling t rsp regs).kernel)
    (fewer : k.liveSlots.card < NPROCESS - 1)
    (thread : k.freeTid ≠ none) (frames : k.spaceSize ≤ Multiset.card k.mem.available) :
    (∀ kstack k', kstack ≠ 0 → fork kstack k ≠ .err "Process table is full" k') ↔
      k.liveSlots.card + (m.history.filterMap Entry.buried).length < NPROCESS - 1 := by
  have user := (reached.inv lower).user pc
  obtain ⟨i, p, serves⟩ := user.serves
  have serves' := user.serves_calling rsp regs serves
  have full : ∀ {kstack}, kstack ≠ 0 →
    ((∃ k', fork kstack k = .err "Process table is full" k') ↔ k.freePid = none) := by
    subst entered
    exact fun stack => fork_full serves'.toCurrent serves'.table serves'.owns stack
  have processes : k.processTable = m.kernel.processTable := entered ▸ rfl
  have same : k.liveSlots = m.kernel.liveSlots := by simp only [Kernel.liveSlots, processes]
  have free : k.freePid = m.kernel.freePid := by simp only [Kernel.freePid, processes]
  rw [same, used_slots lower reached, ← free]
  constructor
  · exact fun never none => by
      obtain ⟨k', failed⟩ := (full Nat.one_ne_zero).mpr none
      exact never 1 k' Nat.one_ne_zero failed
  · exact fun some' kstack k' stack failed => some' ((full stack).mp ⟨k', failed⟩)

theorem slots_reusable_forked : ∃ m, Shows bareConfig m .forked ∧
    ((∀ kstack k', kstack ≠ 0 →
    fork kstack (m.calling 0 0 .new).kernel ≠ .err "Process table is full" k') ↔
      (m.calling 0 0 .new).kernel.liveSlots.card +
        (m.history.filterMap Entry.buried).length < NPROCESS - 1) := by
  obtain ⟨m, shown⟩ := forked_reached
  obtain ⟨user, -, -, -, -, -, p, serves, -⟩ := shown.running bareConfig_lower rfl (by decide)
  have processes : (m.calling 0 0 .new).kernel.processTable = m.kernel.processTable := rfl
  have fewer : (m.calling 0 0 .new).kernel.liveSlots.card < NPROCESS - 1 := by
    have room := (used_slots bareConfig_lower shown.reached).mpr
      (by simp [shown.freePid (by decide)])
    simp only [Kernel.liveSlots, processes] at room ⊢
    omega
  have space : (m.calling 0 0 .new).kernel.spaceSize = BARE_FRAMES :=
    shown.size serves.entry serves.table
  have frames : Multiset.card (m.calling 0 0 .new).kernel.mem.available = 27 := shown.frames
  exact ⟨m, shown, slots_reusable_iff bareConfig_lower shown.reached shown.pc rfl fewer
    (by simp [shown.freeTid_calling bareConfig_lower (by decide)]) (by rw [space, frames]; decide)⟩

/-- The process table is filled, and the first child has exited. -/
def Scene.crowded : Scene where
  pc := .user 0
  current := some 0
  started := true
  states := [.running, .zombie] ++ List.replicate 13 .runnable
  members := [⟨.alive, false, none⟩, ⟨.zombie, false, some 0⟩] ++ List.replicate 13
    ⟨.alive, false, some 0⟩
  rests := [.user, .exited] ++ List.replicate 13 .user
  frames := 18

theorem crowded_reached : ∃ m, Shows bareConfig m .crowded :=
  plan_reaches 200 ([.schedule, .proceed, .fork, .tick, .schedule, .proceed, .exit, .schedule,
    .proceed] ++
    List.replicate 13 .fork) (by decide) (by decide)
/-- After the call of `wait` that reaps the first zombie child, its thread and its
    frames are free, and its slot is not. -/
theorem Shows.wait_frees {v : Scene} (shown : Shows cfg m v) (lower : cfg.LowerHalf)
    (here : v.pc = .user t)
    (acts : v.acts t = true)
    (first : (List.range (NPROCESS - 1)).find? (fun i => v.members[i]?.any fun p =>
      p.ppid == some t && p.state == .zombie) = some i) (room : v.members.length < NTHREAD - 1) :
    ∃ m', Reachable cfg m' ∧ m'.pc = .user t ∧ m'.history.filterMap Entry.buried ≠ [] ∧
      (∀ j, m'.kernel.processTable j = none → m.kernel.processTable j = none) ∧
      (m'.calling t 0 .new).kernel.freeTid ≠ none ∧
        (m'.calling t 0 .new).kernel.spaceSize = BARE_FRAMES ∧
      Multiset.card (m'.calling t 0 .new).kernel.mem.available = v.frames + BARE_FRAMES := by
  obtain ⟨user, -, -, -, -, -, p, serves, spared, -⟩ := shown.running lower here acts
  have calling := user.calling 0 .new
  have serves' := user.serves_calling 0 .new serves
  have reached := shown.call lower here acts .wait
  obtain ⟨status, told⟩ := shown.reaps lower here acts first
  have found : System.zombieChild t (m.calling t 0 .new).kernel = some i :=
    shown.zombieChild_eq first
  obtain ⟨z, tid, f, mem', entry, -, place, other, owns, table, -, released, run⟩ :=
    serves'.waitRound calling.kept serves'.whole.pid found
  have thread : t ≠ tid := by
    rintro rfl
    exact other (Option.some.inj (owns.pid.symm.trans serves'.pid))
  obtain ⟨m₁, shape⟩ : ∃ m₁, m₁ = ((m.calling t 0 .new).setKernel
    ((m.calling t 0 .new).kernel.released z tid mem')).record
    (.reaped (m.calling t 0 .new).pid z.pid z.exitStatus) := ⟨_, rfl⟩
  have body : (m.calling t 0 .new).dispatch cfg t 0 .wait = m₁.finish t .wait 0
    (.reaped z.pid z.exitStatus) := by
    rw [Machine.dispatch, serves'.toCurrent.currentProcess_run, shape]
    simp only [Machine.waitLoop, run]
  have cur : Current m₁.kernel t t p := by
    subst shape
    refine ⟨serves'.tid, serves'.bound, ?_, serves'.inside, ?_⟩
    · exact (congrArg Thread.pid (Kernel.released_ne _ _ _ thread)).trans serves'.pid
    · exact (Kernel.setProcess_ne _ (place.symm ▸ other.symm)).trans serves'.entry
  obtain ⟨kernel, pc, -⟩ := finish_run .wait 0 (.reaped z.pid z.exitStatus) cur spared
  rw [← body] at kernel pc
  generalize (m.calling t 0 .new).dispatch cfg t 0 .wait = m' at reached told kernel pc
  have memory : (m'.calling t 0 .new).kernel.mem = mem' := by
    have same : (m'.calling t 0 .new).kernel.mem = m'.kernel.mem := rfl
    rw [same, kernel, shape]
    rfl
  have root : (m.calling t 0 .new).kernel.roots i = some f := by rw
    [Kernel.roots, entry, Option.bind_some, table]
  have inside : i < NPROCESS := (calling.kept.coherent.live i z entry (shown.live i z entry)).inside
  refine ⟨m', reached, pc, ?_, fun j vacant => ?_, ?_, ?_, ?_⟩
  · exact List.ne_nil_of_mem (mem_buried.mpr ⟨t, status, told⟩)
  · rw [kernel, shape] at vacant
    by_cases here : j = z.pid
    · subst here
      cases (Function.update_self ..).symm.trans vacant
    · exact (Function.update_of_ne here ..).symm.trans vacant
  · have unused : ((m'.calling t 0 .new).kernel.threadTable v.members.length).state = .unused := by
      rw [calling_states, kernel, shape]
      by_cases freed : v.members.length = tid
      · rw [freed]
        exact congrArg Thread.state (Kernel.released_at ..)
      · refine (congrArg Thread.state (Kernel.released_ne _ _ _ freed)).trans ?_
        rw [calling_states, shown.states, List.getD_eq_default _ _ shown.length.1.le]
    have some' : (m'.calling t 0 .new).kernel.freeTid.isSome = true :=
      List.find?_isSome.mpr ⟨_, List.mem_range.mpr room, by simp [unused]⟩
    exact Option.isSome_iff_ne_none.mp some'
  · have routes := serves'.space_kept calling.kept inside other root released
    rw [Kernel.spaceSize, memory, released.cr3, ← card_treeRoutes, routes, card_treeRoutes]
    exact shown.size serves.entry serves.table
  · rw [memory, released.available, Multiset.card_add, add_comm]
    exact congrArg₂ _ shown.frames (shown.size entry table)

/-- Fourteen processes are there, and `fork` finds the table full. -/
theorem slots_used_up : ∃ m k', Reachable bareConfig m ∧ m.pc = .user 0 ∧
    (m.calling 0 0 .new).kernel.liveSlots.card < NPROCESS - 1 ∧
    (m.calling 0 0 .new).kernel.freeTid ≠ none ∧
      (m.calling 0 0 .new).kernel.spaceSize ≤ Multiset.card
        (m.calling 0 0 .new).kernel.mem.available ∧
        fork 1 (m.calling 0 0 .new).kernel = .err "Process table is full" k' := by
  obtain ⟨m, shown⟩ := crowded_reached
  obtain ⟨m', reached, pc, reaped, vacant, thread, space, frames⟩ :=
    shown.wait_frees bareConfig_lower rfl (by decide) (i := 1) (by decide) (by decide)
  have full : m'.kernel.freePid = none := freePid_none.mpr fun j inside none => by
    obtain ⟨p, entry⟩ := shown.entry_of (i := j) inside
    cases (vacant j none).symm.trans entry
  have processes : (m'.calling 0 0 .new).kernel.processTable = m'.kernel.processTable := rfl
  have free : (m'.calling 0 0 .new).kernel.freePid = none := by
    rw [← full]
    simp only [Kernel.freePid, processes]
  have user := (reached.inv bareConfig_lower).user pc
  obtain ⟨i, p, serves⟩ := user.serves
  have serves' := user.serves_calling 0 .new serves
  obtain ⟨k', failed⟩ := (fork_full serves'.toCurrent serves'.table serves'.owns Nat.one_ne_zero).mpr free
  refine ⟨m', k', reached, pc, ?_, thread, by rw [space, frames]; decide, failed⟩
  have room := used_slots_le bareConfig_lower reached
  have some' := List.length_pos_iff.mpr reaped
  simp only [Kernel.liveSlots, processes] at room ⊢
  omega

end FerriOS.System
