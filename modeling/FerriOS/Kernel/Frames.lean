import FerriOS.Kernel.Plans
import FerriOS.Exec.Leaks

/-! # Frames of running processes

Every frame has one use: it is part of one address space, or the allocator still
has it. So the address space of a reaped child can be released, and an `exec` that
fails has touched nothing of its caller.
-/

namespace FerriOS.System

open FerriOS.Lib FerriOS.Memory FerriOS.Loader

variable {cfg : Config} {m m' : Machine} {k k' : Kernel} {t i j : Nat} {p c : Process}

/-- The page table of a process that is alive or a zombie. -/
def Kernel.livePageTable (k : Kernel) (i : Nat) : Option PhysFrame :=
  (k.processTable i).bind fun p => if p.live then p.pageTable else none

theorem Coherent.roots_eq (coh : Coherent k) : k.roots = k.livePageTable := by
  funext i
  rw [Kernel.roots, Kernel.livePageTable]
  cases entry : k.processTable i with
  | none => rfl
  | some p =>
      rw [Option.bind_some, Option.bind_some]
      split
      · rfl
      · rename_i dead
        exact (coh.blank i p entry (Bool.eq_false_iff.mpr dead)).1

theorem Coherent.root_inside {f : PhysFrame} (coh : Coherent k)
    (here : k.livePageTable i = some f) : i < NPROCESS := by
  rw [Kernel.livePageTable] at here
  cases entry : k.processTable i with
  | none => simp [entry] at here
  | some p =>
      simp only [entry, Option.bind_some, Option.ite_none_right_eq_some] at here
      exact (coh.live i p entry here.1).inside

/-- In every state of a run no frame has two uses: in the recycled list, in the user
    half of a live process, or among the frames never handed out. -/
theorem frames_exclusive (lower : cfg.LowerHalf) (reached : Reachable cfg m) :
    ((m.kernel.mem.frameAllocator.recycledFrames : Multiset PhysFrame) +
      spaces NPROCESS m.kernel.livePageTable m.kernel.mem.ram +
      (m.kernel.mem.frameAllocator.untouched : Multiset PhysFrame)).Nodup ∧
    ∀ i j f g is js x, m.kernel.livePageTable i = some f → m.kernel.livePageTable j = some g →
      TreePath m.kernel.mem.ram 4 f is 0 x → TreePath m.kernel.mem.ram 4 g js 0 x → i = j ∧
        is = js := by
  have kept := (reached.inv lower).1
  have separate := kept.separate
  rw [kept.coherent.roots_eq] at separate
  constructor
  · have distinct := separate.distinct
    rw [ledger, MemState.available, BootInfoFrameAllocator.available, ← Multiset.coe_add,
      ← add_assoc] at distinct
    rwa [add_comm (m.kernel.mem.frameAllocator.recycledFrames : Multiset PhysFrame)]
  · intro i j f g is js x hereI hereJ pathI pathJ
    have memberI : x ∈ spaceAt m.kernel.livePageTable m.kernel.mem.ram i :=
      spaceAt_some hereI ▸ pathI.mem
    have memberJ : x ∈ spaceAt m.kernel.livePageTable m.kernel.mem.ram j :=
      spaceAt_some hereJ ▸ pathJ.mem
    by_cases same : j = i
    · subst same
      obtain rfl := Option.some.inj (hereI.symm.trans hereJ)
      have tree : (treeFrames m.kernel.mem.ram 4 f).Nodup :=
        tree_nodup (separate.owned_nodup (kept.coherent.root_inside hereI) hereI)
      exact ⟨rfl, (Radix.Path.unique tree pathI pathJ).1⟩
    · exact absurd (Multiset.mem_add.mpr (.inl memberI))
        (separate.apart (kept.coherent.root_inside hereI)
        (kept.coherent.root_inside hereJ) same memberJ)

/-- A parent and its child have their frames apart. -/
theorem frames_exclusive_forked : ∃ m, Shows bareConfig m .forked ∧
    ((m.kernel.mem.frameAllocator.recycledFrames : Multiset PhysFrame) +
      spaces NPROCESS m.kernel.livePageTable m.kernel.mem.ram +
      (m.kernel.mem.frameAllocator.untouched : Multiset PhysFrame)).Nodup := by
  obtain ⟨m, shown⟩ := forked_reached
  exact ⟨m, shown, (frames_exclusive bareConfig_lower shown.reached).1⟩

/-- The kernel in which a round of `wait` runs for a caller: when it is called, and
    when its thread goes on after a yield. -/
inductive WaitRuns (m : Machine) : Kernel → Process → Prop where
  | called {t i rsp : Nat} {p : Process} {regs : TrapFrame} (pc : m.pc = .user t)
      (serves : Serves m t i p) (spared : p.killed = false) :
      WaitRuns m (m.calling t rsp regs).kernel p
  | resumed {t entryRsp : Nat} {caller : Process} (pc : m.pc = .kernel t)
      (cont : m.continuation t = .wait caller entryRsp) :
      WaitRuns m m.kernel caller

theorem WaitRuns.serves {caller : Process} (inv : m.Inv cfg) (waits : WaitRuns m k caller) :
    ∃ m' t i p, m'.kernel = k ∧ Kept cfg m' ∧ Serves m' t i p ∧ caller.pid = i := by
  cases waits with
  | called pc serves _ =>
      have user := inv.user pc
      exact ⟨_, _, _, _, rfl, (user.calling _ _).kept, user.serves_calling _ _ serves,
        serves.whole.pid⟩
  | @resumed t entryRsp _ pc cont =>
      obtain ⟨kept, rest⟩ := inv
      rw [pc] at rest
      obtain ⟨pid, -, -⟩ := kept.waits t caller entryRsp rest.1.ready cont
      obtain ⟨i, p, serves⟩ := rest.1.serves kept (by simp [pid])
      exact ⟨m, t, i, p, rfl, kept, serves, Option.some.inj (pid.symm.trans serves.pid)⟩

theorem WaitRuns.spared {caller : Process} (inv : m.Inv cfg) (waits : WaitRuns m k caller) :
    caller.killed = false := by
  cases waits with
  | called _ _ spared => exact spared
  | @resumed t entryRsp _ pc cont =>
      obtain ⟨kept, rest⟩ := inv
      rw [pc] at rest
      exact (kept.waits t caller entryRsp rest.1.ready cont).2.1

/-- What is released with a child: its slot, its thread with the kernel stack, and
    every frame of its address space. -/
structure Reaps (k k' : Kernel) (c : Process) : Prop where
  slot : k'.processTable c.pid = some .new
  thread : ∃ t, c.threads = [t] ∧ k'.threadTable t = .new ∧
    ((k.threadTable t).kstack ≠ 0 →
      k'.kernelStacks = k.kernelStacks.erase ((k.threadTable t).kstack - STACK_SIZE))
  space : ∃ f, c.pageTable = some f ∧ k'.mem.available = userFrames k.mem.ram f + k.mem.available

/-- `free_process` does not fail for a child that `wait` has taken out of the table. -/
theorem freeProcess_reaps {caller : Process} (lower : cfg.LowerHalf) (reached : Reachable cfg m)
    (waits : WaitRuns m k caller) (found : zombieChild caller.pid k = some j)
    (entry : k.processTable j = some c) :
    ∃ k', freeProcess c (k.setProcess j none) = .ok () k' ∧ Reaps k k' c := by
  obtain ⟨m', t, i, p, rfl, kept, serves, rfl⟩ := waits.serves (reached.inv lower)
  obtain ⟨c', tid, f, entry', zombie, -, place, bound, -, owns, table, inactive⟩ :=
    serves.child kept found
  obtain rfl := Option.some.inj (entry.symm.trans entry')
  have root : m'.kernel.roots j = some f := by rw [Kernel.roots, entry, Option.bind_some, table]
  have inside : j < NPROCESS := Nat.lt_of_lt_of_le bound (Nat.sub_le ..)
  have owned := kept.separate.owned_nodup inside root
  obtain ⟨_, mem', freed, released⟩ := (freeUvm_spec kernelLaw_noHuge
    (by rwa [Memory.owned, add_zero] at owned) (kept.separate.slots j inside f root)).total
  refine ⟨_, freeProcess_run (k := m'.kernel.setProcess j none) owns.threads owns.bound
    (place ▸ owns.pid)
    (place ▸ inside) table inactive freed, ?_, ⟨tid, owns.threads, ?_, fun stack => ?_⟩, f, table,
    released.available⟩
  · exact Function.update_self ..
  · exact Function.update_self ..
  · exact if_pos stack

theorem freeProcess_reaps_child : ∃ m c k', Shows bareConfig m .bereft ∧
    freeProcess c ((m.calling 0 0 .new).kernel.setProcess 1 none) = .ok () k' ∧
      Reaps (m.calling 0 0 .new).kernel k' c := by
  obtain ⟨m, shown⟩ := bereft_reached
  obtain ⟨user, -, -, -, -, -, p, serves, spared, -⟩ :=
    shown.running bareConfig_lower rfl (by decide)
  obtain ⟨c, entry⟩ := shown.entry_of (i := 1) (by decide)
  have found : zombieChild p.pid (m.calling 0 0 .new).kernel = some 1 := by
    rw [serves.whole.pid]
    exact shown.zombieChild_eq (by decide)
  have waits : WaitRuns m (m.calling 0 0 .new).kernel p := .called shown.pc serves spared
  obtain ⟨k', run, reaps⟩ := freeProcess_reaps bareConfig_lower shown.reached waits found entry
  exact ⟨m, c, k', shown, run, reaps⟩

/-- The current process is as before: its entries, its registers, and every byte of
    its address space. -/
structure Intact (k k' : Kernel) : Prop where
  processes : k'.processTable = k.processTable
  threads : k'.threadTable = k.threadTable
  trapFrames : k'.trapFrames = k.trapFrames
  savedUserRsp : k'.cpu.savedUserRsp = k.cpu.savedUserRsp
  cr3 : k'.mem.cr3 = k.mem.cr3
  space : ∀ f ∈ userFrames k.mem.ram k.mem.cr3, k'.mem.ram f = k.mem.ram f
  /-- So is every frame that the allocator did not have. -/
  used : ∀ f ∉ k.mem.available, k'.mem.ram f = k.mem.ram f

/-- An `exec` that fails leaves its caller intact. -/
theorem exec_fails_intact {path : List UInt8} {argv : List (List UInt8)} {rsp : Nat}
    {regs : TrapFrame}
    {message : String} (lower : cfg.LowerHalf) (reached : Reachable cfg m) (pc : m.pc = .user t)
    (failed : exec cfg path argv (m.calling t rsp regs).kernel = .err message k') :
    Intact (m.calling t rsp regs).kernel k' := by
  have calling := ((reached.inv lower).user pc).calling rsp regs
  obtain ⟨i, p, serves⟩ := calling.serves
  obtain ⟨frame, tf⟩ := Option.ne_none_iff_exists'.mp serves.owns.tf
  have apart := serves.frames_apart calling.kept
  rw [exec_run serves.toCurrent tf] at failed
  cases found : cfg.lookup path with
  | none =>
      simp only [found, Outcome.err.injEq] at failed
      rw [← failed.2]
      exact ⟨rfl, rfl, rfl, rfl, rfl, fun _ _ => rfl, fun _ _ => rfl⟩
  | some image =>
      simp only [found] at failed
      cases prepared : prepareExecImage cfg.mapper image argv (m.calling t rsp regs).kernel.mem with
      | ok r mem' => simp [prepared] at failed
      | panic message => simp [prepared] at failed
      | err message' mem' =>
          simp only [prepared, Outcome.err.injEq] at failed
          have lost := (prepareExecImage_spec cfg.mapper argv (lower path image found).confined
            calling.kept.separate.available_nodup).of_err prepared
          rw [← failed.2]
          exact ⟨rfl, rfl, rfl, rfl, lost.cr3, fun f member => lost.outside f (apart f member),
            lost.outside⟩

def oddPath : List UInt8 := [0x2F, 0x6F]

/-- A machine with a second program, whose program headers have another size. -/
def oddConfig : Config where
  overflowChecks := true
  mapper := offsetPageTable
  lookup path := if path = oddPath then some oddImage else bareConfig.lookup path

theorem oddConfig_lower : oddConfig.LowerHalf := by
  intro path image found
  simp only [oddConfig] at found
  split at found
  · obtain rfl := Option.some.inj found
    intro i inside
    exact absurd inside (by rw [show (Elf64Header.read oddImage).phnum = 0 by decide]; omega)
  · exact bareConfig_lower path image found

/-- The frame of the new page table was taken when the file turns out to be odd. -/
theorem exec_fails_intact_odd : ∃ m k', Reachable oddConfig m ∧ m.pc = .user 0 ∧
    exec oddConfig oddPath [] (m.calling 0 0 .new).kernel =
      .err "exec: unexpected program header size" k' ∧
      k'.mem.available ≠ m.kernel.mem.available ∧ Intact (m.calling 0 0 .new).kernel k' := by
  have fits : 40 + BARE_FRAMES ≤ 2 ^ 30 := by decide
  have card := bareMemory_card fits
  obtain ⟨k, -, booted⟩ := boots_shows (bareMemory_boot fits)
    (rfl : oddConfig.lookup barePath = some bareImage) bareImage_bare
    (by rw [card]; exact Nat.le_add_left _ _)
  rw [card, Nat.add_sub_cancel] at booted
  obtain ⟨m, shown⟩ := booted.follow oddConfig_lower
    (by decide : (Scene.booted 40).follow [.schedule, .proceed] = some .running)
  obtain ⟨user, -, -, -, -, -, p, serves, -⟩ := shown.running oddConfig_lower rfl (by decide)
  have serves' := user.serves_calling 0 .new serves
  obtain ⟨tf, frame⟩ := Option.ne_none_iff_exists'.mp serves'.owns.tf
  have frames : Multiset.card m.kernel.mem.available = 40 := shown.frames
  obtain ⟨root, mem', failed, taken⟩ := oddImage_fails (s := m.kernel.mem) fun none => by
    rw [none] at frames
    cases frames
  have run : exec oddConfig oddPath [] (m.calling 0 0 .new).kernel =
      .err "exec: unexpected program header size" ((m.calling 0 0 .new).kernel.setMem mem') := by
    have failed' : prepareExecImage oddConfig.mapper oddImage [] (m.calling 0 0 .new).kernel.mem =
      .err "exec: unexpected program header size" mem' := failed
    have found : oddConfig.lookup oddPath = some oddImage := rfl
    rw [exec_run serves'.toCurrent frame, found]
    simp only [failed']
  refine ⟨m, _, shown.reached, shown.pc, run, fun same => ?_,
    exec_fails_intact oddConfig_lower shown.reached shown.pc run⟩
  have less := congrArg Multiset.card taken
  rw [← same, Multiset.card_cons] at less
  exact absurd less (Nat.succ_ne_self _).symm

end FerriOS.System
