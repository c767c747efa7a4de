import FerriOS.Kernel.Plans
import FerriOS.Memory.FaithfulCopy

/-! # Copies and failures of fork

The address space of a running process is one that `copy_uvm` copies faithfully.
`fork` takes a slot of each table, a kernel stack, and then frames, one at a time.
Without a free slot it fails before it takes anything. When the frames run out it
gives nothing back: the thread stays an embryo, with its stack, and the frames of
the copy are lost.
-/

namespace FerriOS.System

open FerriOS.Lib FerriOS.Memory FerriOS.Loader

variable {cfg : Config} {m m' : Machine} {k k' : Kernel} {v : Scene} {t i : Nat} {p : Process}

theorem Serves.exclusive (serves : Serves m t i p) (kept : Kept cfg m) :
    (userFrames m.kernel.mem.ram m.kernel.mem.cr3 + m.kernel.mem.available).Nodup := by
  have owned := kept.separate.owned_nodup serves.inside serves.root
  rwa [Memory.owned, add_zero] at owned

theorem Serves.small (serves : Serves m t i p) (kept : Kept cfg m) :
    Linked (fun _ flags => flags.contains .HUGE_PAGE = false) m.kernel.mem.ram 4 m.kernel.mem.cr3 :=
  fun is d t path j inside present =>
    kernelLaw_noHuge _ _ ((serves.slots kept).linked is d t path j inside present)

theorem copyUvm_faithful_forked : ∃ m root mem', Shows bareConfig m .forked ∧
    copyUvm m.kernel.mem.cr3 m.kernel.mem = .ok root mem' ∧
      FaithfulCopy m.kernel.mem.cr3 root m.kernel.mem mem' := by
  obtain ⟨m, shown⟩ := forked_reached
  obtain ⟨user, -, -, -, -, -, p, serves, -⟩ := shown.running bareConfig_lower rfl (by decide)
  obtain ⟨root, mem', copied, -⟩ := shown.copies serves user.kept (by decide)
  exact ⟨m, root, mem', shown, copied,
    copyUvm_faithful (serves.exclusive user.kept) (serves.small user.kept) copied⟩

/-- Nothing that a fork takes has changed. -/
structure Untouched (k k' : Kernel) : Prop where
  threads : k'.threadTable = k.threadTable
  processes : k'.processTable = k.processTable
  stacks' : k'.kernelStacks = k.kernelStacks
  frames : k'.mem.available = k.mem.available

theorem Untouched.refl : Untouched k k := ⟨rfl, rfl, rfl, rfl⟩

/-- The frames of the address space that a fork copies. -/
def Kernel.spaceSize (k : Kernel) : Nat := Multiset.card (userFrames k.mem.ram k.mem.cr3)

/-- A copy fails only where the frames are fewer than those of the address space,
    and there it does fail. -/
theorem copyUvm_fails_iff (serves : Serves m t i p) (kept : Kept cfg m) :
    (∃ message mem', copyUvm m.kernel.mem.cr3 m.kernel.mem = .err message mem') ↔
      Multiset.card m.kernel.mem.available < m.kernel.spaceSize := by
  have spec := copyUvm_spec kernelLaw_noHuge kept.separate.available_nodup
    (serves.slots kept).linked
    (serves.frames_apart kept)
  refine ⟨fun ⟨message, mem', fails⟩ => (spec.of_err fails).2, fun short => ?_⟩
  cases copied : copyUvm m.kernel.mem.cr3 m.kernel.mem with
  | err message mem' => exact ⟨message, mem', rfl⟩
  | panic message =>
      rw [copied] at spec
      exact spec.elim
  | ok root mem' =>
      obtain ⟨built, mirrors⟩ := spec.of_ok copied
      have ledger := congrArg Multiset.card built.ledger
      rw [Multiset.card_add, userFrames, mirrors.card] at ledger
      simp only [Kernel.spaceSize, userFrames] at short
      omega

theorem withEmbryo_touches {kstack pid tid : Nat} {mem' : MemState} (freeT : k.freeTid = some tid) :
    ¬ Untouched k ((k.withEmbryo kstack pid tid).setMem mem') := by
  intro untouched
  have state := congrArg (fun table => (table tid).state) untouched.threads
  have embryo : (((k.withEmbryo kstack pid tid).setMem mem').threadTable tid).state = .embryo :=
    congrArg Thread.state (Kernel.setThread_at ..)
  cases embryo.symm.trans (state.trans (freeTid_spec freeT).2)

/-- A fork that fails has changed nothing exactly if no slot was free, or the frames
    were enough. -/
theorem fork_fails_clean {rsp kstack : Nat} {regs : TrapFrame} {message : String}
    (lower : cfg.LowerHalf)
    (reached : Reachable cfg m) (pc : m.pc = .user t) (entered : k = (m.calling t rsp regs).kernel)
    (failed : fork kstack k = .err message k') :
    Untouched k k' ↔
      k.freePid = none ∨ k.freeTid = none ∨ k.spaceSize ≤ Multiset.card k.mem.available := by
  have user := (reached.inv lower).user pc
  obtain ⟨i, p, serves⟩ := user.serves
  have calling := user.calling rsp regs
  have serves' := user.serves_calling rsp regs serves
  have fails := copyUvm_fails_iff serves' calling.kept
  rw [← entered] at fails
  have cur : Current k t i p := entered ▸ serves'.toCurrent
  by_cases null : kstack = 0
  · subst null
    obtain ⟨rfl, full⟩ := (fork_null cur).of_err failed
    exact iff_of_true .refl (full.imp_right .inl)
  · have owns : Owns k i p t := entered ▸ serves'.owns
    have table : p.pageTable = some k.mem.cr3 := entered ▸ serves'.table
    obtain ⟨parentTf, tf⟩ := Option.ne_none_iff_exists'.mp owns.tf
    rw [fork_run cur table tf owns.used null] at failed
    cases free : k.freePid with
    | none =>
      simp only [free, Outcome.err.injEq] at failed
      exact iff_of_true (failed.2 ▸ .refl) (.inl rfl)
    | some pid =>
      cases freeT : k.freeTid with
      | none =>
        simp only [free, freeT, Outcome.err.injEq] at failed
        exact iff_of_true (failed.2 ▸ .refl) (.inr (.inl rfl))
      | some tid =>
        cases copied : copyUvm k.mem.cr3 k.mem with
        | ok root mem' => simp [free, freeT, copied] at failed
        | panic message => simp [free, freeT, copied] at failed
        | err message mem' =>
          simp only [free, freeT, copied, Outcome.err.injEq] at failed
          have short := fails.mp ⟨message, mem', copied⟩
          refine iff_of_false (failed.2 ▸ withEmbryo_touches freeT) fun clean => ?_
          rcases clean with gone | gone | enough
          · cases gone
          · cases gone
          · exact absurd short (not_lt.mpr enough)

/-- One process, and five frames for the copy of its thirteen. -/
def Scene.scarce : Scene where
  pc := .user 0
  current := some 0
  started := true
  states := [.running]
  members := [⟨.alive, false, none⟩]
  rests := [.user]
  frames := 5

theorem scarce_reached : ∃ m, Shows bareConfig m .scarce :=
  plan_reaches 5 [.schedule, .proceed] (by decide) (by decide)

/-- A fork without frames enough, and what it leaves. -/
theorem Shows.fork_fails (shown : Shows cfg m v) (lower : cfg.LowerHalf) (here : v.pc = .user t)
    (acts : v.acts t = true) (room : v.members.length < NPROCESS - 1)
    (short : v.frames < BARE_FRAMES) :
    ∃ message mem', System.fork 1 (m.calling t 0 .new).kernel = .err message
      (((m.calling t 0 .new).kernel.withEmbryo 1 v.members.length v.members.length).setMem mem') := by
  obtain ⟨user, -, -, -, -, -, p, serves, -⟩ := shown.running lower here acts
  have serves' := user.serves_calling 0 .new serves
  obtain ⟨parentTf, tf⟩ := Option.ne_none_iff_exists'.mp serves'.owns.tf
  have size : m.kernel.spaceSize = BARE_FRAMES := shown.size serves.entry serves.table
  obtain ⟨message, mem', copied⟩ :=
    (copyUvm_fails_iff serves user.kept).mpr (by rwa [shown.frames, size])
  have copied' : copyUvm (m.calling t 0 .new).kernel.mem.cr3
    (m.calling t 0 .new).kernel.mem = .err message mem' :=
    copied
  have free : (m.calling t 0 .new).kernel.freePid = some v.members.length := shown.freePid room
  have freeT := shown.freeTid_calling (t := t) lower room
  refine ⟨message, mem', ?_⟩
  rw [fork_run serves'.toCurrent serves'.table tf serves'.owns.used Nat.one_ne_zero]
  simp only [free, freeT, copied']

/-- Through the exact condition: the frames were not enough. -/
theorem fork_fails_clean_scarce : ∃ m message k', Shows bareConfig m .scarce ∧
    fork 1 (m.calling 0 0 .new).kernel = .err message k' ∧
      (Untouched (m.calling 0 0 .new).kernel k' ↔ (m.calling 0 0 .new).kernel.freePid = none ∨
        (m.calling 0 0 .new).kernel.freeTid = none ∨
          (m.calling 0 0 .new).kernel.spaceSize ≤ Multiset.card
            (m.calling 0 0 .new).kernel.mem.available) := by
  obtain ⟨m, shown⟩ := scarce_reached
  obtain ⟨message, mem', failed⟩ :=
    shown.fork_fails bareConfig_lower rfl (by decide) (by decide) (by decide)
  exact ⟨m, message, _, shown, failed,
    fork_fails_clean bareConfig_lower shown.reached shown.pc rfl failed⟩

/-- A process that forks when the frames are short leaves an embryo behind. -/
theorem fork_leaves_embryo : ∃ m message k', Reachable bareConfig m ∧ m.pc = .user 0 ∧
    fork 1 (m.calling 0 0 .new).kernel = .err message k' ∧ (k'.threadTable 1).state = .embryo ∧
      ¬ Untouched (m.calling 0 0 .new).kernel k' := by
  obtain ⟨m, shown⟩ := scarce_reached
  obtain ⟨message, mem', failed⟩ :=
    shown.fork_fails bareConfig_lower rfl (by decide) (by decide) (by decide)
  exact ⟨m, message, _, shown.reached, shown.pc, failed,
    congrArg Thread.state (Kernel.setThread_at ..),
    withEmbryo_touches (shown.freeTid_calling bareConfig_lower (by decide))⟩

end FerriOS.System
