import FerriOS.Kernel.Footprint
import FerriOS.Kernel.Plans

/-! # The orientation of GS

The scheduler and user programs run with the user's GS. A system call turns it around
once on its way in and once on its way out, whether it returns or yields. The exit of
a process that the timer handler finds killed only does the second half.
-/

namespace FerriOS.System

open FerriOS.Lib FerriOS.Memory FerriOS.Loader

variable {cfg : Config} {m m' m₁ : Machine} {k : Kernel} {v : Scene} {t i : Nat} {p : Process}
  {cont : Cont}

/-- `GS_BASE` holds the user's value, and `KERNEL_GS_BASE` the CPU record. -/
def USER_GS : Gs := ⟨.user, .cpu⟩

/-- GS is the user's in user mode, and whenever `syscall_entry` used it, it was the
    CPU record. -/
structure GsOriented (m : Machine) : Prop where
  user : ∀ t, m.pc = .user t → m.gs = USER_GS
  accesses : ∀ base, .gsAccess base ∈ m.history → base = .cpu

/-- No tick in user mode finds its process killed. -/
def SparedTick (m : Machine) : Event → Prop
  | .tick => ∀ t i p, m.pc = .user t → m.kernel.currentPid = some i →
      m.kernel.processTable i = some p → p.killed = false
  | _ => True

/-- The code has stopped, or has left GS as `gs`; accesses on the way found what was there
    at its start. -/
structure LeavesGs (gs : Gs) (m m' : Machine) : Prop where
  gs : (∃ message, m'.pc = .stopped message) ∨ m'.gs = gs
  accesses : ∀ base, .gsAccess base ∈ m'.history → .gsAccess base ∈ m.history ∨ base = m.gs.base

/-- The code turns GS around. -/
abbrev Flips (m m' : Machine) : Prop := LeavesGs m.gs.swap m m'

namespace LeavesGs

theorem stop (gs : Gs) (message : String) : LeavesGs gs m (m.stop message) :=
    ⟨.inl ⟨_, rfl⟩, fun _ member => .inl member⟩

theorem congr {gs : Gs} (leaves : LeavesGs gs m₁ m') (same : m₁.gs = m.gs)
    (history : ∀ base, .gsAccess base ∈ m₁.history → .gsAccess base ∈ m.history ∨
    base = m.gs.base) : LeavesGs gs m m' :=
  ⟨leaves.gs, fun base member => (leaves.accesses base member).elim (history base) fun is =>
    .inr (is.trans (congrArg _ same))⟩

end LeavesGs

theorem flips_setKernel (flips : Flips (m.setKernel k) m') : Flips m m' :=
    flips.congr rfl fun _ member => .inl member

theorem flips_record {e : Entry} (other : ∀ base, e ≠ .gsAccess base)
    (flips : Flips (m.record e) m') : Flips m m' :=
  flips.congr rfl fun base member =>
    .inl ((List.mem_cons.mp member).resolve_left fun is => other base is.symm)

theorem toScheduler_gs (m : Machine) :
    m.toScheduler.gs = m.gs ∧ m.toScheduler.history = m.history := by
  rw [Machine.toScheduler]
  split <;> exact ⟨rfl, rfl⟩

theorem onYield_gs (m : Machine) (cont : Cont) :
    (m.onYield cont).gs = m.gs ∧ (m.onYield cont).history = m.history := by
  rw [Machine.onYield]
  split
  · exact ⟨rfl, rfl⟩
  · split
    · exact ⟨rfl, rfl⟩
    · exact toScheduler_gs _

theorem onSyscallYield_flips (m : Machine) (cont : Cont) : Flips m (m.onSyscallYield cont) := by
  rw [Machine.onSyscallYield]
  split
  · exact flips_setKernel (.stop _ _)
  · obtain ⟨gs, history⟩ := toScheduler_gs (Machine.swapgs _)
    exact ⟨.inr gs, fun base member => .inl (by rw [history] at member; exact member)⟩

theorem sysExit_flips (m : Machine) (status : Int) (killed : Bool) :
    Flips m (m.sysExit status killed) := by
  rw [Machine.sysExit]
  split
  · exact flips_setKernel (flips_record (by simp) (onSyscallYield_flips _ _))
  · exact .stop _ _
  · exact .stop _ _

theorem unlessKilled_flips {rest : Machine → Machine} (flips : Flips m (rest m)) :
    Flips m (m.unlessKilled rest) := by
  rw [Machine.unlessKilled]
  split
  · split
    · exact sysExit_flips m _ _
    · exact flips
  · exact .stop _ _
  · exact .stop _ _
  · exact .stop _ _

theorem finish_flips (m : Machine) (t : Nat) (what : Call) (entryRsp : Nat) (reply : Reply) :
    Flips m (m.finish t what entryRsp reply) := by
  refine unlessKilled_flips ⟨.inr rfl, fun base member => ?_⟩
  rcases List.mem_cons.mp member with is | member
  · cases is
  · rcases List.mem_cons.mp member with is | before
    · exact .inr (Entry.gsAccess.inj is)
    · exact .inl before

theorem finishCall_flips (m : Machine) (t : Nat) (what : Call) (entryRsp : Nat)
    (outcome : Outcome Kernel Nat) :
    Flips m (m.finishCall t what entryRsp outcome) := by
  cases outcome with
  | ok value k => exact flips_setKernel (finish_flips (m.setKernel k) t what entryRsp _)
  | err message k => exact flips_setKernel (finish_flips (m.setKernel k) t what entryRsp _)
  | panic message => exact .stop _ _

theorem forkCall_flips (m : Machine) (t entryRsp kstack : Nat) :
    Flips m (m.forkCall t entryRsp kstack) := by
  rw [Machine.forkCall]
  split
  · exact flips_setKernel (flips_record (by simp) (finish_flips _ t _ entryRsp _))
  · exact flips_setKernel (finish_flips _ t _ entryRsp _)
  · exact .stop _ _

theorem waitLoop_flips (m : Machine) (t : Nat) (process : Process) (entryRsp : Nat) :
    Flips m (m.waitLoop t process entryRsp) := by
  rw [Machine.waitLoop]
  split
  · exact flips_setKernel (flips_record (by simp) (finish_flips _ t _ entryRsp _))
  · exact flips_setKernel (onSyscallYield_flips _ _)
  · exact flips_setKernel (finish_flips _ t _ entryRsp _)
  · exact .stop _ _

theorem dispatch_flips (cfg : Config) (m : Machine) (t entryRsp : Nat) (what : Call) :
    Flips m (m.dispatch cfg t entryRsp what) := by
  cases what with
  | fork kstack => exact forkCall_flips m t entryRsp kstack
  | exec path argv => exact finishCall_flips m t _ entryRsp _
  | getpid => exact finishCall_flips m t _ entryRsp _
  | exit status => exact sysExit_flips m status false
  | wait =>
      rw [Machine.dispatch]
      split
      · exact waitLoop_flips m t _ entryRsp
      · exact .stop _ _
  | kill pid => exact finishCall_flips m t _ entryRsp _
  | sbrk n => exact finishCall_flips m t _ entryRsp _
  | other => exact finish_flips m t _ entryRsp _

theorem Gs.swap_swap (gs : Gs) : gs.swap.swap = gs := rfl

/-- GS is the user's between steps, unless the machine has stopped. -/
structure GsKept (m : Machine) : Prop where
  gs : (∃ message, m.pc = .stopped message) ∨ m.gs = USER_GS
  accesses : ∀ base, .gsAccess base ∈ m.history → base = .cpu

theorem GsKept.oriented (kept : GsKept m) : GsOriented m := by
  refine ⟨fun t here => kept.gs.resolve_left ?_, kept.accesses⟩
  rintro ⟨message, stopped⟩
  cases here.symm.trans stopped

theorem GsKept.same (kept : GsKept m) (running : ∀ message, m.pc ≠ .stopped message)
    (gs : m'.gs = m.gs)
    (history : m'.history = m.history) : GsKept m' :=
  ⟨.inr (gs.trans (kept.gs.resolve_left fun ⟨message, stopped⟩ => running message stopped)),
    history ▸ kept.accesses⟩

/-- Code that runs behind `swapgs` and turns GS back. -/
theorem GsKept.flips (kept : GsKept m) (running : ∀ message, m.pc ≠ .stopped message)
    (flips : Flips m.swapgs m') :
    GsKept m' := by
  have gs := kept.gs.resolve_left fun ⟨message, stopped⟩ => running message stopped
  refine ⟨flips.gs.imp id fun same => ?_, fun base member =>
    (flips.accesses base member).elim (kept.accesses base) ?_⟩
  · rw [same, ← gs]
    exact Gs.swap_swap _
  · rintro rfl
    rw [Machine.swapgs, gs]
    rfl

theorem schedule_gs (m : Machine) : m.schedule.gs = m.gs ∧ m.schedule.history = m.history := by
  rw [Machine.schedule]
  split
  · exact ⟨rfl, rfl⟩
  · split <;> exact ⟨rfl, rfl⟩

theorem GsKept.stopped (kept : GsKept m) (message : String) : GsKept (m.stop message) :=
    ⟨.inl ⟨_, rfl⟩, kept.accesses⟩

/-- A step keeps the orientation, where no tick in user mode finds its process killed. -/
theorem GsKept.step {event : Event} (kept : GsKept m) (inv : m.Inv cfg)
    (spared : SparedTick m event)
    (taken : step cfg m event = some m') : GsKept m' := by
  cases event with
  | schedule =>
      simp only [System.step, Option.ite_none_right_eq_some, Option.some.injEq] at taken
      obtain ⟨here, rfl⟩ := taken
      exact kept.same (by simp [here]) (schedule_gs m).1 (schedule_gs m).2
  | lateTick =>
      simp only [System.step, Option.ite_none_right_eq_some] at taken
      obtain ⟨⟨here, -⟩, taken⟩ := taken
      split at taken
      · cases taken
      · split at taken
        · obtain rfl := Option.some.inj taken
          obtain ⟨gs, history⟩ := onYield_gs (m.setKernel _) .lost
          exact kept.same (by simp [here]) gs history
        · exact Option.some.inj taken ▸ kept.stopped _
        · exact Option.some.inj taken ▸ kept.stopped _
  | tick =>
      simp only [System.step] at taken
      cases here : m.pc with
      | stopped message => simp [here] at taken
      | scheduler =>
          simp only [here, Option.ite_none_right_eq_some, Option.some.injEq] at taken
          obtain ⟨-, rfl⟩ := taken
          exact kept.same (by simp [here]) (onYield_gs m _).1 (onYield_gs m _).2
      | kernel u =>
          simp only [here] at taken
          split at taken
          · exact Option.some.inj taken ▸ kept.same (by simp [here]) (onYield_gs m _).1
              (onYield_gs m _).2
          · exact Option.some.inj taken ▸ kept.same (by simp [here]) (onYield_gs m _).1
              (onYield_gs m _).2
          · cases taken
      | user u =>
          simp only [here, Option.some.injEq] at taken
          obtain ⟨i, p, serves⟩ := (inv.user here).serves
          have alive := spared u i p here serves.toCurrent.currentPid_eq serves.entry
          rw [Machine.userTick, serves.toCurrent.unlessKilled_run rfl,
            if_neg (by simp [alive])] at taken
          exact taken ▸ kept.same (by simp [here]) (onYield_gs m _).1 (onYield_gs m _).2
  | proceed =>
      simp only [System.step] at taken
      cases here : m.pc with
      | kernel u =>
          simp only [here, Machine.proceed] at taken
          have running : ∀ message, m.pc ≠ .stopped message := by simp [here]
          split at taken
          · exact Option.some.inj taken ▸ kept.same running rfl rfl
          · cases taken
          · exact Option.some.inj taken ▸ kept.flips running (waitLoop_flips _ _ _ _)
          · exact Option.some.inj taken ▸ kept.flips running (.stop _ _)
          · exact Option.some.inj taken ▸ kept.stopped _
      | _ => simp [here] at taken
  | call rsp regs what =>
      simp only [System.step] at taken
      cases here : m.pc with
      | user u =>
          simp only [here, Option.some.injEq] at taken
          subst taken
          have flips : Flips (m.syscallEntry rsp regs) (m.syscall cfg u rsp regs what) :=
            unlessKilled_flips (flips_setKernel (dispatch_flips cfg _ u rsp what))
          exact kept.flips (by simp [here]) (flips.congr rfl fun base member =>
            (List.mem_cons.mp member).elim (fun is => .inr (Entry.gsAccess.inj is)) .inl)
      | _ => simp [here] at taken

/-- As long as no tick in user mode finds its process killed, GS is oriented as it should. -/
theorem gs_oriented (lower : cfg.LowerHalf) (run : RunsWhen cfg SparedTick m) : GsOriented m := by
  refine (run.always (I := GsKept) lower (fun m boots => ?_)
    fun m m' event inv spared taken kept => kept.step inv spared taken).oriented
  obtain ⟨k, rfl, -⟩ := boots.booted lower
  exact ⟨.inr rfl, by simp [Machine.start]⟩

/-- A thread that a plan preempts was not killed. -/
theorem Shows.sparedTick {v' : Scene} {move : Move} (shown : Shows cfg m v) (lower : cfg.LowerHalf)
    (next : v.next move = some v') : SparedTick m (move.event 1) := by
  cases move with
  | tick =>
      intro t i p pc current entry
      have here := shown.pc.symm.trans pc
      obtain ⟨-, -, -, -, -, -, q, serves, spared, -⟩ :=
        shown.running lower here (Scene.next_user here next).1
      obtain rfl := Option.some.inj (serves.toCurrent.currentPid_eq.symm.trans current)
      obtain rfl := Option.some.inj (serves.entry.symm.trans entry)
      exact spared
  | schedule => trivial
  | proceed => trivial
  | fork => trivial
  | exit => trivial
  | kill pid => trivial
  | wait => trivial

/-- Behind a fork and a tick. -/
theorem gs_oriented_child : ∃ m, RunsWhen bareConfig SparedTick m ∧ m.pc = .user 1 ∧
    GsOriented m := by
  obtain ⟨k, -, boots, shown⟩ := boots_bare 40 (by decide)
  obtain ⟨m, shown', steps⟩ := shown.follow_runs bareConfig_lower childPlan_follow
    fun _ _ _ _ _ next here => here.sparedTick bareConfig_lower next
  have run : RunsWhen bareConfig SparedTick m := ⟨_, boots, steps⟩
  exact ⟨m, run, shown'.pc, gs_oriented bareConfig_lower run⟩

/-- A tick in user mode ends a process that was killed, and turns GS around. -/
theorem Shows.tickKilled {member : Member} (shown : Shows cfg m v) (lower : cfg.LowerHalf)
    (here : v.pc = .user t)
    (started : v.started = true) (inside : t < v.states.length)
    (entry : v.members[t]? = some member)
    (killed : member.killed = true) (notInit : t ≠ INIT_PID) :
    ∃ m', step cfg m .tick = some m' ∧ m'.gs = m.gs.swap ∧
    Shows cfg m' { v with
      pc := .scheduler
      states := v.states.set t .zombie
      members := v.members.modify t fun p => { p with state := .zombie }
      rests := v.rests.set t .exited } := by
  have loop := shown.started started
  obtain ⟨i, p, serves⟩ := ((shown.reached.inv lower).user (shown.pc.trans here)).serves
  obtain rfl : t = i := Option.some.inj ((shown.owner t inside).symm.trans serves.pid)
  have dead : p.killed = true := by
    have same := shown.members t
    rw [serves.entry, entry, Option.map_some, Option.some.injEq] at same
    rw [← killed, ← same]
    rfl
  obtain ⟨m₁, shape⟩ : ∃ m₁, m₁ = (m.setKernel (m.kernel.exited t t p RET_ERROR)).record
      (.exited m.pid RET_ERROR true) := ⟨_, rfl⟩
  have taken : step cfg m .tick = some (m₁.onSyscallYield .exited) := by
    simp only [step, shown.pc.trans here, Machine.userTick]
    rw [serves.toCurrent.unlessKilled_run rfl, if_pos dead, Machine.sysExit,
      exit_run serves.toCurrent notInit serves.owns.threads serves.whole.pid, shape]
    rfl
  have yielded := onSyscallYield_yielded (m := m₁) (t := t) .exited
    (by rw [shape]; exact serves.tid)
    (by rw [shape]; exact loop)
  have gs : (m₁.onSyscallYield .exited).gs = m.gs.swap := by
    rcases (onSyscallYield_flips m₁ .exited).gs with ⟨message, stopped⟩ | gs
    · cases yielded.pc.symm.trans stopped
    · rw [gs, shape]
      rfl
  have threads : m₁.kernel.threadTable = Function.update m.kernel.threadTable t
      { m.kernel.threadTable t with state := .zombie } := by
    rw [shape]
    rfl
  rw [threads, Function.update_self] at yielded
  refine ⟨_, taken, gs, shown.yields .exited
    (shown.reached.step taken) yielded threads serves.pid inside
    (by rw [shape]; rfl) (by rw [shape]; rfl) (fun j => ?_) (fun j c entry' => ?_)
    (by rw [shape]; rfl) (by rw [shape]; rfl)
    (fun _ => trivial) (by simp)⟩
  · rw [shape]
    exact shown.modified serves.entry rfl j
  · rw [shape] at entry'
    exact shown.modified_tables
      (p := { p with state := .zombie, exitStatus := RET_ERROR }) serves.entry rfl rfl j c entry'

/-- The first process has killed its child, which runs. -/
def Scene.condemned : Scene where
  pc := .user 1
  current := some 1
  started := true
  states := [.runnable, .running]
  members := [⟨.alive, false, none⟩, ⟨.alive, true, some 0⟩]
  rests := [.user, .user]
  frames := 27

/-- After a killed process was ended by a tick, the next one runs with the kernel's GS. -/
theorem killed_tick_turns_gs : ∃ m, Reachable bareConfig m ∧ ¬ GsOriented m := by
  obtain ⟨m, shown⟩ : ∃ m, Shows bareConfig m .condemned :=
    plan_reaches 40 [.schedule, .proceed, .fork, .kill 1, .tick, .schedule, .proceed] (by decide)
      (by decide)
  by_cases oriented : GsOriented m
  · obtain ⟨m₁, -, gs, shown₁⟩ :=
      shown.tickKilled bareConfig_lower rfl rfl (by decide) rfl rfl (by decide)
    obtain ⟨m₂, scheduled, shown₂⟩ := shown₁.schedule (n := 0) bareConfig_lower rfl (by decide)
    obtain ⟨m₃, proceeded, shown₃⟩ := shown₂.proceed rfl rfl
    refine ⟨m₃, shown₃.reached, fun oriented₃ => ?_⟩
    have back : m₂.continuation 0 = .toUser := shown₂.rests 0 .user rfl
    have gs₂ : m₂.gs = m₁.gs := by
      simp only [step, Option.ite_none_right_eq_some, Option.some.injEq] at scheduled
      exact scheduled.2 ▸ (schedule_gs m₁).1
    have gs₃ : m₃.gs = m₂.gs := by
      have pc₂ : m₂.pc = .kernel 0 := shown₂.pc
      simp only [step, pc₂, Machine.proceed, back, Option.some.injEq] at proceeded
      rw [← proceeded]
    have now := oriented₃.user 0 shown₃.pc
    rw [gs₃, gs₂, gs, oriented.user 1 shown.pc] at now
    cases now
  · exact ⟨m, shown.reached, oriented⟩

end FerriOS.System
