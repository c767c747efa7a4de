import FerriOS.Kernel.Actions

/-! # Steps

A step of the machine is a number of actions and ends in the invariant again. The
system calls run on top of `InCall`, which holds from their entry to their end.
-/

namespace FerriOS.System

open FerriOS.Lib FerriOS.Memory FerriOS.Loader

variable {cfg : Config} {m m' m'' : Machine} {k k' : Kernel} {t i j : Nat} {p q c : Process}
  {cont : Cont}

/-- `m'` comes from `m` by actions, and the invariant holds there. -/
structure Leads (cfg : Config) (m m' : Machine) : Prop where
  run : Run cfg m m'
  inv : m'.Inv cfg

namespace Leads

theorem quiet (kept : Kept cfg m) (inv : m'.Inv cfg) (quiet : Quiet m m') : Leads cfg m m' :=
  ⟨.single ⟨kept, .quiet quiet, inv.1⟩, inv⟩

theorem after (action : Acts cfg m m') (rest : Leads cfg m' m'') : Leads cfg m m'' :=
  ⟨.head action rest.run, rest.inv⟩

theorem stop (kept : Kept cfg m) (message : String) : Leads cfg m (m.stop message) :=
  .quiet kept (kept.stop message) (.stop message)

end Leads

theorem Serves.congr (serves : Serves m t i p) (kernel : m'.kernel = m.kernel) :
    Serves m' t i p := by
  obtain ⟨k, pc, interrupts, gs, st, h⟩ := m
  obtain ⟨k', pc', interrupts', gs', st', h'⟩ := m'
  simp only at kernel
  subst kernel
  exact ⟨serves.toCurrent, serves.alive, serves.whole, serves.owns, serves.table⟩

/-- The thread keeps the CPU. -/
theorem OnCpu.change (cpu : OnCpu m t) (tid : m'.kernel.cpu.currentTid = m.kernel.cpu.currentTid)
    (syscallStack : m'.kernel.cpu.kernelSyscallRsp = m.kernel.cpu.kernelSyscallRsp)
    (rsp0 : m'.kernel.privilegeStack0 = m.kernel.privilegeStack0)
    (state : (m'.kernel.threadTable t).state = (m.kernel.threadTable t).state)
    (kstack : (m'.kernel.threadTable t).kstack = (m.kernel.threadTable t).kstack)
    (cr3 : ∀ i p, (m'.kernel.threadTable t).pid = some i → m'.kernel.processTable i = some p →
      p.pageTable = some m'.kernel.mem.cr3) : OnCpu m' t where
  tid := tid.trans cpu.tid
  ready := by
    rw [Thread.Ready, state]
    exact cpu.ready
  syscallStack := by rw [syscallStack, cpu.syscallStack, kstack]
  rsp0 := by rw [rsp0, cpu.rsp0, kstack]
  cr3 := cr3

/-- Code that goes on in user mode when the kernel stack is empty. -/
def UserCode (rip : CodeAddr) : Prop :=
  rip = .initProcessRing3EntryTrampoline ∨ rip = .forkReturnTrampoline ∨ rip = .onYield ∨
    rip = .onSyscallYield

theorem UserCode.of_toUser (back : m.continuation t = .toUser) :
    UserCode (m.kernel.threadTable t).context.rip := by
  rw [Machine.continuation] at back
  split at back <;> simp_all [UserCode]

theorem UserCode.of_wait {r : Nat} (back : m.continuation t = .wait c r) :
    UserCode (m.kernel.threadTable t).context.rip := by
  rw [Machine.continuation] at back
  split at back <;> simp_all [UserCode]

theorem UserCode.toUser (code : UserCode (m.kernel.threadTable t).context.rip)
    (stack : m.stack t = .toUser) :
    m.continuation t = .toUser := by
  rw [Machine.continuation]
  rcases code with rip | rip | rip | rip <;> simp [rip, stack]

theorem allocProc_null (k : Kernel) : (allocProc 0 k).Sat True (fun _ _ => False)
    (fun _ k' => k' = k ∧ (k.freePid = none ∨ k.freeTid = none)) := by
  rw [allocProc, nextPid]
  cases pid : k.freePid with
  | none =>
      rw [Kernel.freePid] at pid
      simp [Prog.bind_run, pid, Prog.okOr]
  | some i =>
      rw [Kernel.freePid] at pid
      simp only [Prog.bind_run, Prog.get_run, pid, Prog.okOr, Prog.pure_run, createUserThread,
        nextTid]
      cases tid : (List.range (NTHREAD - 1)).find? fun i => (k.threadTable i).state == .unused <;>
        simp [setupKstack, Kernel.freeTid, tid]

theorem fork_null (cur : Current k t i p) : (fork 0 k).Sat True (fun _ _ => False)
    (fun _ k' => k' = k ∧ (k.freePid = none ∨ k.freeTid = none)) := by
  rw [fork, Prog.bind_ok cur.currentProcess_run]
  simp only [Prog.expect, Prog.pure_bind]
  exact Outcome.Sat.bind (allocProc_null k) fun _ _ impossible => impossible.elim

/-- A zombie child is reaped. -/
theorem Serves.waitRound (serves : Serves m t i p) (kept : Kept cfg m) (copy : c.pid = i)
    (found : zombieChild i m.kernel = some j) : ∃ z tid f mem', m.kernel.processTable j = some z ∧
      z.state = .zombie ∧ z.pid = j ∧ j ≠ i ∧ Owns m.kernel j z tid ∧ z.pageTable = some f ∧
      freeUvm f m.kernel.mem = .ok () mem' ∧ Released f m.kernel.mem mem' ∧
      System.waitRound c m.kernel = .ok (some (z.pid, z.exitStatus))
        (m.kernel.released z tid mem') := by
  subst copy
  obtain ⟨z, tid, f, entry, zombie, -, place, bound, other, owns, table, inactive⟩ :=
    serves.child kept found
  have root : m.kernel.roots j = some f := by rw [Kernel.roots, entry, Option.bind_some, table]
  have inside : j < NPROCESS := Nat.lt_of_lt_of_le bound (Nat.sub_le ..)
  have owned := kept.separate.owned_nodup inside root
  obtain ⟨_, mem', freed, released⟩ := (freeUvm_spec kernelLaw_noHuge
    (by rwa [Memory.owned, add_zero] at owned) (kept.separate.slots j inside f root)).total
  exact ⟨z, tid, f, mem', entry, zombie, place, other, owns, table, freed, released,
    waitRound_reaps found entry place owns.threads owns.bound
      (place ▸ owns.pid) table inactive freed⟩

/-- The way back to user mode. -/
def Machine.enterUser (m : Machine) (t : Nat) : Machine :=
  { m.swapgs with pc := .user t, stack := Function.update m.stack t .toUser }

/-- Thread `t` is inside a system call. -/
structure InCall (cfg : Config) (m : Machine) (t : Nat) : Prop where
  kept : Kept cfg m
  cpu : OnCpu m t
  user : (m.kernel.threadTable t).pid ≠ none
  code : UserCode (m.kernel.threadTable t).context.rip

namespace InCall

variable (call : InCall cfg m t)

include call

theorem serves : ∃ i p, Serves m t i p := call.cpu.serves call.kept call.user

theorem congr (kernel : m'.kernel = m.kernel) (kept : Kept cfg m') : InCall cfg m' t := by
  obtain ⟨k, pc, interrupts, gs, st, h⟩ := m
  obtain ⟨k', pc', interrupts', gs', st', h'⟩ := m'
  simp only at kernel
  subst kernel
  exact ⟨kept, ⟨call.cpu.tid, call.cpu.ready, call.cpu.syscallStack, call.cpu.rsp0, call.cpu.cr3⟩,
    call.user, call.code⟩

theorem change (kept : Kept cfg m') (thread : m'.kernel.threadTable t = m.kernel.threadTable t)
    (cpu : m'.kernel.cpu = m.kernel.cpu)
    (rsp0 : m'.kernel.privilegeStack0 = m.kernel.privilegeStack0)
    (cr3 : ∀ i p, (m.kernel.threadTable t).pid = some i → m'.kernel.processTable i = some p →
      p.pageTable = some m'.kernel.mem.cr3) : InCall cfg m' t where
  kept := kept
  cpu := call.cpu.change (by rw [cpu]) (by rw [cpu]) rsp0 (by rw [thread]) (by rw [thread])
    (by rw [thread]; exact cr3)
  user := by rw [thread]; exact call.user
  code := by rw [thread]; exact call.code

theorem serves_same (serves : Serves m' t i p)
    (thread : (m.kernel.threadTable t).pid = (m'.kernel.threadTable t).pid)
    (entry : m.kernel.processTable i = m'.kernel.processTable i) : Serves m t i p := by
  obtain ⟨j, q, here⟩ := call.serves
  obtain rfl : i = j := Option.some.inj (serves.pid.symm.trans (thread.symm.trans here.pid))
  obtain rfl := Option.some.inj (serves.entry.symm.trans (entry.symm.trans here.entry))
  exact here

theorem setMem {mem' : MemState} (kept : Kept cfg (m.setKernel (m.kernel.setMem mem')))
    (cr3 : mem'.cr3 = m.kernel.mem.cr3) : InCall cfg (m.setKernel (m.kernel.setMem mem')) t :=
  call.change kept rfl rfl rfl fun i p pid entry =>
    (call.cpu.cr3 i p pid entry).trans (congrArg some cr3.symm)

theorem sysExit {status : Int} {killed : Bool} (serves : Serves m t i p)
    (cause : if killed then p.killed = true ∧ status = RET_ERROR else p.killed = false) : Leads cfg m (m.sysExit status killed) := by
  rw [Machine.sysExit]
  by_cases init : i = INIT_PID
  · subst init
    rw [exit_init serves.toCurrent]
    exact .stop call.kept _
  · rw [exit_run serves.toCurrent init serves.owns.threads serves.whole.pid, serves.pid_eq]
    have kept := call.kept.exit status killed serves
    obtain ⟨inv, quiet⟩ := onSyscallYield_spec .exited kept serves.tid
      (fun c r _ is => nomatch is) (fun is => nomatch is)
    exact .after ⟨call.kept, .exit serves init killed cause, kept⟩ (.quiet kept inv quiet)

/-- `exit_if_current_process_killed` ends a killed process. -/
theorem unlessKilled {rest : Machine → Machine}
    (spared : ∀ i p, Serves m t i p → p.killed = false → Leads cfg m (rest m)) :
    Leads cfg m (m.unlessKilled rest) := by
  obtain ⟨i, p, serves⟩ := call.serves
  rw [serves.toCurrent.unlessKilled_run rfl]
  split
  case isTrue killed => exact call.sysExit serves ⟨killed, rfl⟩
  case isFalse alive => exact spared i p serves (Bool.eq_false_iff.mpr alive)

theorem enterUser : Leads cfg m (m.enterUser t) := by
  have user : (m.enterUser t).continuation t = .toUser :=
    UserCode.toUser call.code (Function.update_self ..)
  have kept : Kept cfg (m.enterUser t) := by
    refine call.kept.change call.kept.coherent call.kept.separate call.kept.returns rfl fun u => ?_
    by_cases here : u = t
    · subst here
      exact .fresh (fun _ => call.cpu.tid) call.user user
    · exact .same rfl (Function.update_of_ne here ..)
  have cpu := call.cpu
  exact .quiet call.kept ⟨kept, ⟨cpu.tid, cpu.ready, cpu.syscallStack, cpu.rsp0, cpu.cr3⟩,
    call.user, user⟩
    ⟨rfl, rfl, rfl, rfl, fun _ => .refl, [], rfl, by simp⟩

theorem finish {what : Call} {entryRsp : Nat} {reply : Reply}
    (restored : ∀ i, RspRestored cfg
    (.returned t i what reply entryRsp m.kernel.cpu.savedUserRsp)) :
    Leads cfg m (m.finish t what entryRsp reply) := by
  refine call.unlessKilled fun i p serves spared => ?_
  have kept₁ : Kept cfg (m.record (.gsAccess m.gs.base)) := call.kept.record trivial
  have kept₂ := kept₁.record (restored i)
  change Leads cfg m (((m.record (.gsAccess m.gs.base)).record
    (.returned t m.pid what reply entryRsp m.kernel.cpu.savedUserRsp)).enterUser t)
  rw [serves.pid_eq]
  refine .after ⟨call.kept, .quiet (.gsAccess _), kept₁⟩ ?_
  exact .after ⟨kept₁, .returned (serves.congr rfl) spared (restored i), kept₂⟩
    (enterUser (call.congr rfl kept₂))

theorem forkFailed (kstack pid : Nat) {tid : Nat} {message : String} {mem' : MemState}
    (serves : Serves m t i p)
    (freeT : m.kernel.freeTid = some tid)
    (copied : copyUvm m.kernel.mem.cr3 m.kernel.mem = .err message mem') :
    InCall cfg (m.setKernel ((m.kernel.withEmbryo kstack pid tid).setMem mem')) t := by
  have other : t ≠ tid := by
    rintro rfl
    exact serves.owns.used (freeTid_spec freeT).2
  have lost := ((copyUvm_spec kernelLaw_noHuge call.kept.separate.available_nodup
    (serves.slots call.kept).linked (serves.frames_apart call.kept)).of_err copied).1
  have kept := call.kept.forkFails kstack pid serves freeT copied
  refine call.change kept (Kernel.setThread_ne _ other) rfl rfl fun i p pid entry => ?_
  exact (call.cpu.cr3 i p pid entry).trans (congrArg some lost.cr3.symm)

/-- After a fork, the parent runs on. -/
theorem forked (kstack parentTf : Nat) {pid tid : Nat} {root : PhysFrame} {mem' : MemState}
    (serves : Serves m t i p)
    (free : m.kernel.freePid = some pid) (freeT : m.kernel.freeTid = some tid)
    (copied : copyUvm m.kernel.mem.cr3 m.kernel.mem = .ok root mem') :
    InCall cfg ((m.setKernel (m.kernel.forked kstack pid tid p parentTf root mem')).record
      (.forked i pid)) t := by
  have other : t ≠ tid := by
    rintro rfl
    exact serves.owns.used (freeTid_spec freeT).2
  have built := ((copyUvm_spec kernelLaw_noHuge call.kept.separate.available_nodup
    (serves.slots call.kept).linked (serves.frames_apart call.kept)).of_ok copied).1
  have kept := call.kept.fork kstack parentTf serves free freeT copied
  refine call.change kept ?_ rfl rfl fun j c pid' entry => ?_
  · exact (Kernel.setThread_ne _ other).trans (Kernel.setThread_ne _ other)
  · have apart : j ≠ pid := by
      rintro rfl
      have vacant := (freePid_spec free).2
      rw [Option.some.inj (pid'.symm.trans serves.pid), serves.entry] at vacant
      cases vacant
    have old : m.kernel.processTable j = some c := (Kernel.setProcess_ne _ apart).symm.trans entry
    exact (call.cpu.cr3 j c pid' old).trans (congrArg some built.cr3.symm)

theorem forkCall {kstack : Nat} (serves : Serves m t i p) (spared : p.killed = false) :
    Leads cfg m (m.forkCall t m.kernel.cpu.savedUserRsp kstack) := by
  rw [Machine.forkCall]
  by_cases null : kstack = 0
  · subst null
    have spec := fork_null serves.toCurrent
    revert spec
    cases fork 0 m.kernel with
    | ok child k => exact fun impossible => impossible.elim
    | panic message => exact fun _ => .stop call.kept message
    | err message k =>
        rintro ⟨rfl, -⟩
        exact call.finish (m := m) fun _ => rfl
  · obtain ⟨parentTf, tf⟩ := Option.ne_none_iff_exists'.mp serves.owns.tf
    rw [fork_run serves.toCurrent serves.table tf serves.owns.used null]
    cases free : m.kernel.freePid with
    | none => exact call.finish (m := m) fun _ => rfl
    | some pid =>
      cases freeT : m.kernel.freeTid with
      | none => exact call.finish (m := m) fun _ => rfl
      | some tid =>
        cases copied : copyUvm m.kernel.mem.cr3 m.kernel.mem with
        | panic message => exact .stop call.kept message
        | err message mem' =>
          have failed := call.forkFailed kstack pid serves freeT copied
          exact .after ⟨call.kept, .forkFails serves spared free freeT copied, failed.kept⟩
            (failed.finish fun _ => rfl)
        | ok root mem' =>
          have forked := call.forked kstack parentTf serves free freeT copied
          simp only [serves.pid_eq]
          exact .after ⟨call.kept, .fork serves spared free freeT tf copied, forked.kept⟩
            (forked.finish fun _ => rfl)

/-- After an exec, the caller runs on with its new image. -/
theorem committed {path image : List UInt8} {argv : List (List UInt8)} {r : Exec} {mem' : MemState}
    (frame : Nat)
    (lower : cfg.LowerHalf) (serves : Serves m t i p) (idle : m.continuation t = .toUser)
    (found : cfg.lookup path = some image)
    (prepared : prepareExecImage cfg.mapper image argv m.kernel.mem = .ok r mem') :
    InCall cfg (m.setKernel ((m.kernel.setMem mem').committed t i p frame r)) t := by
  have kept := call.kept.exec frame lower serves idle found prepared
  have thread : ((m.kernel.setMem mem').committed t i p frame r).threadTable t =
      { m.kernel.threadTable t with context := startContext (m.kernel.threadTable t).context r } :=
    Kernel.committed_thread ..
  have entry : ((m.kernel.setMem mem').committed t i p frame r).processTable i =
      some { p with pageTable := some r.pageTable, heapSize := r.heapSize } :=
        Function.update_self ..
  refine ⟨kept, ?_, ?_, ?_⟩
  · refine call.cpu.change rfl rfl rfl (by simp only [Machine.setKernel, thread])
      (by simp only [Machine.setKernel, thread]) fun j c pid entry' => ?_
    have same : i = j := Option.some.inj
      (serves.pid.symm.trans ((congrArg Thread.pid thread).symm.trans pid))
    subst same
    obtain rfl := Option.some.inj (entry.symm.trans entry')
    rfl
  · rw [Machine.setKernel, thread]
    exact call.user
  · rw [Machine.setKernel, thread]
    exact call.code

theorem execCall {path : List UInt8} {argv : List (List UInt8)} (lower : cfg.LowerHalf)
    (serves : Serves m t i p) (spared : p.killed = false) (idle : m.continuation t = .toUser) :
    Leads cfg m (m.finishCall t (.exec path argv) m.kernel.cpu.savedUserRsp
      ((do exec cfg path argv; pure 0 : Prog Kernel Nat) m.kernel)) := by
  obtain ⟨frame, tf⟩ := Option.ne_none_iff_exists'.mp serves.owns.tf
  rw [Prog.bind_run, exec_run serves.toCurrent tf]
  cases found : cfg.lookup path with
  | none => exact call.finish (m := m) fun _ => rfl
  | some image =>
    have spec := prepareExecImage_spec cfg.mapper argv (lower path image found).confined
      call.kept.separate.available_nodup
    dsimp only
    cases prepared : prepareExecImage cfg.mapper image argv m.kernel.mem with
    | panic message => exact .stop call.kept message
    | err message mem' =>
      have lost := spec.of_err prepared
      have kept := call.kept.execFails lower found prepared
      exact .after ⟨call.kept, .execFails serves spared found prepared, kept⟩
        ((call.setMem kept lost.cr3).finish fun _ => rfl)
    | ok r mem' =>
      have committed := call.committed frame lower serves idle found prepared
      exact .after ⟨call.kept, .exec serves spared idle tf found prepared, committed.kept⟩
        (committed.finish fun _ => ⟨image, m.kernel.mem, r, mem', found, prepared, rfl⟩)

theorem mark (entry : m.kernel.processTable j = some q) :
    InCall cfg (m.setKernel (m.kernel.setProcess j (some { q with killed := true }))) t := by
  refine call.change (call.kept.kill entry) rfl rfl rfl fun i c pid entry' => ?_
  by_cases here : i = j
  · subst here
    obtain rfl := Option.some.inj ((Kernel.setProcess_at ..).symm.trans entry')
    exact call.cpu.cr3 i q pid entry
  · exact call.cpu.cr3 i c pid ((Kernel.setProcess_ne _ here).symm.trans entry')

theorem killCall {pid : Nat} (serves : Serves m t i p) (spared : p.killed = false) :
    Leads cfg m (m.finishCall t (.kill pid) m.kernel.cpu.savedUserRsp
      ((do kill pid; pure 0 : Prog Kernel Nat) m.kernel)) := by
  have spec := kill_spec m.kernel pid
  rw [Prog.bind_run]
  revert spec
  cases kill pid m.kernel with
  | panic message => exact fun impossible => impossible.elim
  | err message k =>
    rintro rfl
    exact call.finish (m := m) fun _ => rfl
  | ok _ k =>
    rintro ⟨j, q, inside, entry, -, rfl⟩
    exact .after ⟨call.kept, .kill serves spared inside entry, call.kept.kill entry⟩
      ((call.mark entry).finish fun _ => rfl)

/-- What `sbrk` may do to the memory. -/
theorem moved {mem' : MemState} (serves : Serves m t i p)
    (moved : Conserves kernelLaw 4 m.kernel.mem.cr3 0 0 m.kernel.mem mem') :
    InCall cfg (m.setKernel (m.kernel.setMem mem')) t :=
  call.setMem (call.kept.setMem
    (call.kept.separate.conserve serves.inside serves.root moved)) moved.cr3

theorem sbrkCall {n : Int} (serves : Serves m t i p) (spared : p.killed = false) :
    Leads cfg m (m.finishCall t (.sbrk n) m.kernel.cpu.savedUserRsp (sbrk cfg n m.kernel)) := by
  have spec := sbrk_spec cfg serves.toCurrent serves.table serves.whole.heap
    (call.kept.separate.owned_nodup serves.inside serves.root) (serves.slots call.kept) n
  revert spec
  cases sbrk cfg n m.kernel with
  | panic message => exact fun _ => .stop call.kept message
  | err message k =>
    rintro ⟨mem', rfl, conserves⟩
    have moved := call.moved serves conserves
    exact .after ⟨call.kept, .sbrk serves spared conserves, moved.kept⟩ (moved.finish fun _ => rfl)
  | ok value k =>
    rintro ⟨-, mem', rfl, conserves⟩
    have moved := call.moved serves conserves
    exact .after ⟨call.kept, .sbrk serves spared conserves, moved.kept⟩ (moved.finish fun _ => rfl)

/-- A round of `wait` ends the call without a child, yields, or reaps a child and
    ends the call. -/
theorem waitLoop_cases {r : Nat} (serves : Serves m t i p) (copy : c.pid = i)
    (spared : c.killed = false) :
    (zombieChild i m.kernel = none ∧ havekids i m.kernel = false ∧
      m.waitLoop t c r = m.finish t .wait r (.failed "no child process")) ∨
    (zombieChild i m.kernel = none ∧ havekids i m.kernel = true ∧
      m.waitLoop t c r = m.onSyscallYield (.wait c r)) ∨
    ∃ j z tid f mem', zombieChild i m.kernel = some j ∧ m.kernel.processTable j = some z ∧
      z.live = true ∧ Owns m.kernel j z tid ∧ z.pageTable = some f ∧
        freeUvm f m.kernel.mem = .ok () mem' ∧
      InCall cfg ((m.setKernel (m.kernel.released z tid mem')).record
        (.reaped i z.pid z.exitStatus)) t ∧
      Serves ((m.setKernel (m.kernel.released z tid mem')).record
        (.reaped i z.pid z.exitStatus)) t i p ∧
      m.waitLoop t c r =
        ((m.setKernel (m.kernel.released z tid mem')).record
          (.reaped i z.pid z.exitStatus)).finish t .wait r
          (.reaped z.pid z.exitStatus) := by
  subst copy
  rw [Machine.waitLoop]
  cases found : zombieChild c.pid m.kernel with
  | none =>
    rw [waitRound_waits found]
    cases kids : havekids c.pid m.kernel with
    | false => exact .inl ⟨rfl, rfl, rfl⟩
    | true =>
      refine .inr (.inl ⟨rfl, rfl, ?_⟩)
      simp only [Bool.not_true, spared, Bool.false_eq_true, if_false]
      rfl
  | some j =>
    obtain ⟨z, tid, f, mem', entry, zombie, place, other, owns, table, freed, released, run⟩ :=
      serves.waitRound call.kept rfl found
    have live : z.live = true := Process.live_iff.mpr (.inr zombie)
    rw [run]
    have kept := call.kept.reap (i := c.pid) live entry owns table freed
    have thread : t ≠ tid := by
      rintro rfl
      exact other (Option.some.inj (owns.pid.symm.trans serves.pid))
    have reaped : InCall cfg ((m.setKernel (m.kernel.released z tid mem')).record
        (.reaped c.pid z.pid z.exitStatus)) t := by
      refine call.change kept (Kernel.setThread_ne _ thread) rfl rfl fun i' c' pid' entry' => ?_
      have here : i' ≠ j := by
        rintro rfl
        exact other (Option.some.inj (pid'.symm.trans serves.pid))
      have old : m.kernel.processTable i' = some c' :=
        (Kernel.setProcess_ne _ (place.symm ▸ here)).symm.trans entry'
      exact (call.cpu.cr3 i' c' pid' old).trans (congrArg some released.cr3.symm)
    have same := reaped.serves_same serves (congrArg Thread.pid (Kernel.setThread_ne _ thread))
      (Kernel.setProcess_ne _ (place.symm ▸ other.symm))
    exact .inr (.inr ⟨j, z, tid, f, mem', rfl, entry, live, owns, table, freed, reaped, same,
      by simp only [serves.pid_eq]⟩)

/-- A round of `wait`, for a caller whose entry was not killed when it called. -/
theorem waitLoop (serves : Serves m t i p) (copy : c.pid = i) (spared : c.killed = false) :
    Leads cfg m (m.waitLoop t c m.kernel.cpu.savedUserRsp) := by
  rcases call.waitLoop_cases (r := m.kernel.cpu.savedUserRsp) serves copy spared with
    ⟨-, -, ends⟩ | ⟨-, -, yields⟩ |
      ⟨j, z, tid, f, mem', found, entry, live, owns, table, freed, reaped, -, ends⟩
  · rw [ends]
    exact call.finish fun _ => rfl
  · have resumes : ∀ c' r, (m.kernel.threadTable t).Ready →
        Cont.wait c m.kernel.cpu.savedUserRsp = .wait c' r →
          (m.kernel.threadTable t).pid = some c'.pid ∧ c'.killed = false ∧
            m.kernel.cpu.savedUserRsp = r := by
      intro c' r _ same
      injection same with same same'
      subst same same'
      exact ⟨copy ▸ serves.pid, spared, rfl⟩
    obtain ⟨inv, quiet⟩ := onSyscallYield_spec _ call.kept serves.tid resumes fun is => nomatch is
    rw [yields]
    exact .quiet call.kept inv quiet
  · rw [ends]
    exact .after ⟨call.kept, .reap serves found entry owns table freed, reaped.kept⟩
      (reaped.finish fun _ => rfl)

theorem dispatch (what : Call) (lower : cfg.LowerHalf) (serves : Serves m t i p)
    (spared : p.killed = false)
    (idle : m.continuation t = .toUser) :
    Leads cfg m (m.dispatch cfg t m.kernel.cpu.savedUserRsp what) := by
  cases what with
  | fork kstack => exact call.forkCall serves spared
  | exec path argv => exact call.execCall lower serves spared idle
  | getpid =>
    rw [Machine.dispatch, serves.toCurrent.getpid_run]
    exact call.finish (m := m) fun _ => rfl
  | exit status => exact call.sysExit serves spared
  | wait =>
    rw [Machine.dispatch, serves.toCurrent.currentProcess_run]
    exact call.waitLoop serves serves.whole.pid spared
  | kill pid => exact call.killCall serves spared
  | sbrk n => exact call.sbrkCall serves spared
  | other => exact call.finish fun _ => rfl

end InCall

/-- The machine when the body of a system call starts. -/
def Machine.calling (m : Machine) (t rsp : Nat) (regs : TrapFrame) : Machine :=
  (m.syscallEntry rsp regs).setKernel (Machine.setTrapframe (m.syscallEntry rsp regs).kernel t)

/-- The thread runs its program. -/
structure InUser (cfg : Config) (m : Machine) (t : Nat) : Prop where
  kept : Kept cfg m
  cpu : OnCpu m t
  user : (m.kernel.threadTable t).pid ≠ none
  idle : m.continuation t = .toUser

theorem Machine.Inv.user (inv : m.Inv cfg) (pc : m.pc = .user t) : InUser cfg m t := by
  obtain ⟨kept, rest⟩ := inv
  rw [pc] at rest
  exact ⟨kept, rest.1, rest.2.1, rest.2.2⟩

theorem Quiet.syscallEntry {rsp : Nat} {regs : TrapFrame} : Quiet m (m.syscallEntry rsp regs) :=
  ⟨rfl, rfl, rfl, rfl, fun _ => .refl, [.gsAccess m.swapgs.gs.base], rfl,
    fun _ member => ⟨_, List.mem_singleton.mp member⟩⟩

theorem Quiet.calling {rsp : Nat} {regs : TrapFrame} :
    Quiet (m.syscallEntry rsp regs) (m.calling t rsp regs) :=
  ⟨rfl, rfl, rfl, rfl, SameRole.update ⟨rfl, fun _ => Option.some_ne_none _, .inl rfl⟩, [],
    rfl, by simp⟩

namespace InUser

variable (rsp : Nat) (regs : TrapFrame) (user : InUser cfg m t)

include user

theorem serves : ∃ i p, Serves m t i p := user.cpu.serves user.kept user.user

theorem inCall : InCall cfg m t := ⟨user.kept, user.cpu, user.user, UserCode.of_toUser user.idle⟩

/-- `syscall_entry` leaves the thread where it is. -/
theorem entered : InUser cfg (m.syscallEntry rsp regs) t := by
  have quiet : Quiet m (m.syscallEntry rsp regs) := .syscallEntry
  have kept : Kept cfg (m.syscallEntry rsp regs) :=
    user.kept.change (quiet.coherent user.kept.coherent) (quiet.separate user.kept.separate)
      (quiet.returns user.kept.returns) rfl fun _ => .same rfl rfl
  have cpu := user.cpu
  exact ⟨kept, ⟨cpu.tid, cpu.ready, cpu.syscallStack, cpu.rsp0, cpu.cr3⟩, user.user, user.idle⟩

/-- The body of a system call finds the thread on the CPU. -/
theorem calling : InUser cfg (m.calling t rsp regs) t := by
  have entered := user.entered rsp regs
  have quiet : Quiet (m.syscallEntry rsp regs) (m.calling t rsp regs) := .calling
  rw [Machine.calling] at quiet ⊢
  generalize m.syscallEntry rsp regs = m₁ at *
  have thread : (Machine.setTrapframe m₁.kernel t).threadTable t =
      { m₁.kernel.threadTable t with tf := some (Machine.entryFrame m₁.kernel) } :=
        Function.update_self ..
  have idle : (m₁.setKernel (Machine.setTrapframe m₁.kernel t)).continuation t = .toUser := by
    rw [Machine.continuation, Machine.setKernel, thread]
    exact entered.idle
  have owner : ((Machine.setTrapframe m₁.kernel t).threadTable t).pid ≠ none := by
    rw [thread]
    exact entered.user
  refine ⟨?_, entered.cpu.change rfl rfl rfl (by simp only [Machine.setKernel, thread])
      (by simp only [Machine.setKernel, thread]) fun j c pid entry => ?_, owner, idle⟩
  · refine entered.kept.change (quiet.coherent entered.kept.coherent)
      (quiet.separate entered.kept.separate)
      entered.kept.returns rfl fun u => ?_
    by_cases here : u = t
    · subst here
      exact .fresh (fun _ => entered.cpu.tid) owner idle
    · exact .same (Kernel.setThread_ne _ here) rfl
  · exact entered.cpu.cr3 j c ((congrArg Thread.pid thread).symm.trans pid) entry

theorem serves_calling (serves : Serves m t i p) : Serves (m.calling t rsp regs) t i p := by
  exact (user.calling rsp regs).inCall.serves_same serves
    ((Quiet.calling.roles t).pid.trans (Quiet.syscallEntry.roles t).pid) rfl

theorem serves_entered (serves : Serves m t i p) : Serves (m.syscallEntry rsp regs) t i p :=
  (user.entered rsp regs).inCall.serves_same serves rfl rfl

theorem syscall {what : Call} (lower : cfg.LowerHalf) :
    Leads cfg m (m.syscall cfg t rsp regs what) := by
  have entered := user.entered rsp regs
  refine .after ⟨user.kept, .quiet .syscallEntry, entered.kept⟩
    (entered.inCall.unlessKilled fun i p serves spared => ?_)
  have calling := user.calling rsp regs
  have serves' : Serves m t i p :=
    ⟨⟨serves.tid, serves.bound, serves.pid, serves.inside, serves.entry⟩, serves.alive,
      user.kept.coherent.live i p serves.entry serves.live, serves.owns.same .refl .refl,
        serves.table⟩
  exact .after ⟨entered.kept, .quiet .calling, calling.kept⟩
    (calling.inCall.dispatch what lower (user.serves_calling rsp regs serves') spared calling.idle)

end InUser

/-- The kernel when the scheduler has chosen a thread. -/
def Kernel.switched (k : Kernel) (next : Nat) (pageTable : PhysFrame) : Kernel :=
  let k := (markNext k next).setCpu { (markNext k next).cpu with currentTid := some next }
  let k := k.setCr3 pageTable
  { k.setCpu { k.cpu with
      kernelSyscallRsp := (k.threadTable next).kstack
      savedUserRsp := (k.threadTable next).context.rsp3 } with
    privilegeStack0 := (k.threadTable next).kstack - TRAP_FRAME_SIZE }

theorem findNextRunnableThread_spec {next : Nat} (found : findNextRunnableThread k = some next) :
    next < NTHREAD ∧ (k.threadTable next).state = .runnable := by
  rw [findNextRunnableThread] at found
  obtain ⟨i, -, rfl⟩ := List.mem_map.mp (List.mem_of_find?_eq_some found)
  exact ⟨Nat.mod_lt _ (by decide), by simpa using List.find?_some found⟩

/-- The bookkeeping leaves every thread in its part; no thread is running then but
    the chosen one. -/
theorem markNext_threads {next : Nat} (runnable : (k.threadTable next).state = .runnable)
    (alone : ∀ u, (k.threadTable u).state = .running → k.cpu.currentTid = some u) (u : Nat) :
    ∃ state, (markNext k next).threadTable u = { k.threadTable u with state } ∧
      (state = (k.threadTable u).state ∨
        ((k.threadTable u).Ready ∧ (state = .runnable ∨ state = .running))) ∧
      (state = .running → u = next) := by
  obtain ⟨state, chosen, which⟩ : ∃ state,
      (setState k next .running).threadTable u = { k.threadTable u with state } ∧
        ((u = next ∧ state = .running) ∨ (u ≠ next ∧ state = (k.threadTable u).state)) := by
    by_cases here : u = next
    · subst here
      exact ⟨.running, Kernel.setThread_at .., .inl ⟨rfl, rfl⟩⟩
    · exact ⟨(k.threadTable u).state, Kernel.setThread_ne _ here, .inr ⟨here, rfl⟩⟩
  have role : state = (k.threadTable u).state ∨
      ((k.threadTable u).Ready ∧ (state = .runnable ∨ state = .running)) := by
    rcases which with ⟨rfl, is⟩ | ⟨-, same⟩
    · exact .inr ⟨.inl runnable, .inr is⟩
    · exact .inl same
  have running : state = .running → u ≠ next → k.cpu.currentTid = some u := fun is other => by
    rcases which with ⟨here, -⟩ | ⟨-, same⟩
    · exact absurd here other
    · exact alone u (same.symm.trans is)
  rw [markNext]
  have cpu : (setState k next .running).cpu = k.cpu := rfl
  cases current : k.cpu.currentTid with
  | none =>
      simp only [cpu, current]
      refine ⟨state, chosen, role, fun is => ?_⟩
      by_contra other
      cases current.symm.trans (running is other)
  | some cur =>
      simp only [cpu, current]
      split
      case isTrue was =>
        by_cases here : u = cur
        · subst here
          refine ⟨.runnable, (Kernel.setThread_at ..).trans ?_, ?_, fun is => nomatch is⟩
          · rw [chosen]
          · rw [chosen] at was
            rcases role with same | ⟨ready, -⟩
            · exact .inr ⟨.inr (same.symm.trans was), .inl rfl⟩
            · exact .inr ⟨ready, .inl rfl⟩
        · refine ⟨state, (Kernel.setThread_ne _ here).trans chosen, role, fun is => ?_⟩
          by_contra other
          exact here (Option.some.inj ((current.symm.trans (running is other)))).symm
      case isFalse was =>
        refine ⟨state, chosen, role, fun is => ?_⟩
        by_contra other
        obtain rfl := Option.some.inj (current.symm.trans (running is other))
        exact was (chosen ▸ is)

theorem markNext_rest (k : Kernel) (next : Nat) :
    markNext k next = { k with threadTable := (markNext k next).threadTable } := by
  rw [markNext]
  cases (setState k next .running).cpu.currentTid with
  | none => rfl
  | some cur =>
      dsimp only
      split <;> rfl

theorem prepareSwitch_run {next : Nat} (runnable : (k.threadTable next).state = .runnable)
    (alone : ∀ u, (k.threadTable u).state = .running → k.cpu.currentTid = some u)
    (coherent : Coherent k) :
    ∃ pageTable, prepareSwitch next k = .ok () (k.switched next pageTable) ∧
      ∀ i p, (k.threadTable next).pid = some i → k.processTable i = some p →
        p.pageTable = some pageTable := by
  obtain ⟨state, thread, -, -⟩ := markNext_threads runnable alone next
  have processes : (markNext k next).processTable = k.processTable := by rw [markNext_rest]
  generalize marked : (markNext k next).setCpu
    { (markNext k next).cpu with currentTid := some next } = k₁
  have pid : (k₁.threadTable next).pid = (k.threadTable next).pid := by
    rw [← marked, Kernel.setCpu, thread]
  have processes₁ : k₁.processTable = k.processTable := by rw [← marked, ← processes]; rfl
  suffices loads : ∃ pageTable, switchPageTable next k₁ = .ok () (k₁.setCr3 pageTable) ∧
      ∀ i p, (k.threadTable next).pid = some i → k.processTable i = some p →
        p.pageTable = some pageTable by
    obtain ⟨pageTable, run, tables⟩ := loads
    refine ⟨pageTable, ?_, tables⟩
    rw [prepareSwitch, Prog.modify_bind, Prog.modify_bind, marked, Prog.bind_ok run, Kernel.switched, marked]
    rfl
  rw [switchPageTable, Prog.get_bind, pid]
  cases owner : (k.threadTable next).pid with
  | none => exact ⟨_, rfl, fun i p is => nomatch is⟩
  | some i =>
      obtain ⟨p, entry, -, whole, -⟩ := coherent.ready_alive owner (.inl runnable)
      obtain ⟨f, table⟩ := Option.ne_none_iff_exists'.mp whole.table
      refine ⟨f, ?_, fun j q is entry' => ?_⟩
      · simp only [Prog.bind_ok (processAt_run whole.inside), processes₁, entry, Prog.expect_some,
          Prog.pure_bind, table, Prog.modify_run]
      · obtain rfl := Option.some.inj is
        obtain rfl := Option.some.inj (entry.symm.trans entry')
        exact table

/-- What the scheduler has set up when it switches. -/
theorem Kept.switched {next : Nat} {pageTable : PhysFrame} (kept : Kept cfg m) (bound : next < NTHREAD)
    (runnable : (m.kernel.threadTable next).state = .runnable)
    (tables : ∀ i p, (m.kernel.threadTable next).pid = some i → m.kernel.processTable i = some p →
      p.pageTable = some pageTable) :
    Kept cfg (m.setKernel (m.kernel.switched next pageTable)) ∧
      OnCpu (m.setKernel (m.kernel.switched next pageTable)) next ∧
      Quiet m (m.setKernel (m.kernel.switched next pageTable)) ∧
      (m.kernel.switched next pageTable).cpu.savedUserRsp =
        ((m.kernel.switched next pageTable).threadTable next).context.rsp3 := by
  have threads := markNext_threads runnable kept.alone
  have rest := markNext_rest m.kernel next
  generalize switched : m.kernel.switched next pageTable = k'
  rw [Kernel.switched] at switched
  generalize (markNext m.kernel next).threadTable = table at rest threads
  rw [rest] at switched
  have table' : k'.threadTable = table := by rw [← switched]; rfl
  have current : k'.cpu.currentTid = some next := by rw [← switched]; rfl
  have cr3 : k'.mem.cr3 = pageTable := by rw [← switched]; rfl
  have syscallStack : k'.cpu.kernelSyscallRsp = (k'.threadTable next).kstack := by rw [← switched]; rfl
  have rsp0 : k'.privilegeStack0 = (k'.threadTable next).kstack - TRAP_FRAME_SIZE := by rw [← switched]; rfl
  have saved : k'.cpu.savedUserRsp = (k'.threadTable next).context.rsp3 := by rw [← switched]; rfl
  have roles : ∀ u, SameRole (m.kernel.threadTable u) (k'.threadTable u) := fun u => by
    obtain ⟨state, thread, role, -⟩ := threads u
    rw [table', thread]
    refine ⟨rfl, id, role.imp id fun ⟨ready, is⟩ => ⟨ready, is.imp id id⟩⟩
  have quiet : Quiet m (m.setKernel k') := by
    rw [← switched] at roles ⊢
    exact ⟨rfl, rfl, rfl, rfl, roles, [], rfl, by simp⟩
  have ready : ∀ u, (k'.threadTable u).Ready → (m.kernel.threadTable u).Ready := fun u is => by
    rcases (roles u).state with same | ⟨was, -⟩
    · rwa [Thread.Ready, same] at is
    · exact was
  have continuation : ∀ u, (m.setKernel k').continuation u = m.continuation u := fun u => by
    obtain ⟨state, thread, -, -⟩ := threads u
    rw [Machine.continuation, Machine.continuation, Machine.setKernel, table', thread]
  refine ⟨⟨quiet.coherent kept.coherent, quiet.separate kept.separate, fun u here => ?_,
    fun u running => ?_,
    fun u c r is waiting => ?_, fun u is user => ?_, quiet.returns kept.returns⟩,
    ⟨current, ?_, syscallStack, rsp0, fun i p pid entry => ?_⟩, quiet, saved⟩
  · obtain rfl := Option.some.inj (current.symm.trans here)
    exact bound
  · obtain ⟨state, thread, -, only⟩ := threads u
    rw [Machine.setKernel, table', thread] at running
    rw [only running]
    exact current
  · obtain ⟨state, thread, -, -⟩ := threads u
    rw [continuation u] at waiting
    have old := kept.waits u c r (ready u is) waiting
    rw [Machine.setKernel, table', thread]
    exact old
  · rw [(quiet.roles u).pid]
    exact kept.users u (ready u is) (continuation u ▸ user)
  · rcases (quiet.roles next).state with same | ⟨-, is⟩
    · exact .inl (same.trans runnable)
    · exact is
  · rw [(quiet.roles next).pid] at pid
    rw [quiet.processes] at entry
    rw [tables i p pid entry]
    exact congrArg some cr3.symm

theorem Kept.switchTo {next : Nat} (kept : Kept cfg m) (cpu : OnCpu m next)
    (saved : m.kernel.cpu.savedUserRsp = (m.kernel.threadTable next).context.rsp3) :
    (m.switchTo next).Inv cfg ∧ Quiet m (m.switchTo next) := by
  have quiet : Quiet m (m.switchTo next) := ⟨rfl, rfl, rfl, rfl, fun _ => .refl, [], rfl, by simp⟩
  exact ⟨⟨kept.change (quiet.coherent kept.coherent) (quiet.separate kept.separate) kept.returns rfl
    fun _ => .same rfl rfl, ⟨cpu.tid, cpu.ready, cpu.syscallStack, cpu.rsp0, cpu.cr3⟩, saved⟩,
      quiet⟩

theorem schedule_spec (kept : Kept cfg m) (here : m.pc = .scheduler) : Leads cfg m m.schedule := by
  rw [Machine.schedule]
  cases found : findNextRunnableThread m.kernel with
  | none =>
      refine .quiet kept ⟨kept.congr rfl rfl rfl, ?_⟩
        ⟨rfl, rfl, rfl, rfl, fun _ => .refl, [], rfl, by simp⟩
      simp only [here]
  | some next =>
      obtain ⟨bound, runnable⟩ := findNextRunnableThread_spec found
      obtain ⟨pageTable, run, tables⟩ := prepareSwitch_run runnable kept.alone kept.coherent
      obtain ⟨kept', cpu, quiet, saved⟩ := kept.switched bound runnable tables
      simp only [run]
      obtain ⟨inv, quiet'⟩ := kept'.switchTo cpu saved
      exact .quiet kept inv (quiet.trans quiet')

theorem onYield_current (cont : Cont) (kept : Kept cfg m) (cpu : OnCpu m t)
    (noWait : ∀ c r, cont ≠ .wait c r)
    (user : cont = .toUser → (m.kernel.threadTable t).pid ≠ none) :
    (m.onYield cont).Inv cfg ∧ Quiet m (m.onYield cont) := by
  refine onYield_spec _ kept (fun u current => ?_) fun none => ?_
  · obtain rfl := Option.some.inj (cpu.tid.symm.trans current)
    exact ⟨noWait, user⟩
  · cases none.symm.trans cpu.tid

theorem lateTick_spec {next : Nat} (kept : Kept cfg m)
    (found : findNextRunnableThread m.kernel = some next) :
    ∃ k, prepareSwitch next m.kernel = .ok () k ∧ Leads cfg m ((m.setKernel k).onYield .lost) := by
  obtain ⟨bound, runnable⟩ := findNextRunnableThread_spec found
  obtain ⟨pageTable, run, tables⟩ := prepareSwitch_run runnable kept.alone kept.coherent
  obtain ⟨kept', cpu, quiet, -⟩ := kept.switched bound runnable tables
  obtain ⟨inv, quiet'⟩ := onYield_current .lost kept' cpu (fun c r is => nomatch is)
    (fun is => nomatch is)
  exact ⟨_, run, .quiet kept inv (quiet.trans quiet')⟩

/-- A thread goes on where it was switched away. -/
theorem proceed_spec (kept : Kept cfg m) (cpu : OnCpu m t)
    (saved : m.kernel.cpu.savedUserRsp = (m.kernel.threadTable t).context.rsp3)
    (step : m.proceed t = some m') : Leads cfg m m' := by
  rw [Machine.proceed] at step
  cases cont : m.continuation t with
  | kthread => simp [cont] at step
  | lost =>
      simp only [cont, Option.some.injEq] at step
      exact step ▸ .stop kept _
  | exited =>
      simp only [cont, Option.some.injEq] at step
      exact step ▸ .quiet kept (kept.swapgs.stop _) (Quiet.swapgs.trans (.stop _))
  | toUser =>
      simp only [cont, Option.some.injEq] at step
      subst step
      exact .quiet kept ⟨kept.congr rfl rfl rfl,
        ⟨cpu.tid, cpu.ready, cpu.syscallStack, cpu.rsp0, cpu.cr3⟩,
        kept.users t cpu.ready cont, cont⟩ ⟨rfl, rfl, rfl, rfl, fun _ => .refl, [], rfl, by simp⟩
  | wait c r =>
      simp only [cont, Option.some.injEq] at step
      subst step
      obtain ⟨pid, spared, entered⟩ := kept.waits t c r cpu.ready cont
      have call : InCall cfg m t := ⟨kept, cpu, by simp [pid], UserCode.of_wait cont⟩
      obtain ⟨i, p, serves⟩ := call.serves
      have copy : c.pid = i := Option.some.inj (pid.symm.trans serves.pid)
      rw [← entered, ← saved]
      exact .after ⟨kept, .quiet .swapgs, kept.swapgs⟩
        (InCall.waitLoop (m := m.swapgs) (call.congr rfl kept.swapgs)
          (serves.congr rfl) copy spared)

theorem InUser.tick (user : InUser cfg m t) : Leads cfg m m.userTick := by
  refine user.inCall.unlessKilled fun i p serves _ => ?_
  obtain ⟨inv, quiet⟩ := onYield_current .toUser user.kept user.cpu (fun c r is => nomatch is)
    fun _ => user.user
  exact .quiet user.kept inv quiet

/-- Every step is made of actions and keeps the invariant. -/
theorem step_leads {event : Event} (lower : cfg.LowerHalf) (inv : m.Inv cfg)
    (taken : step cfg m event = some m') :
    Leads cfg m m' := by
  have ⟨kept, pc⟩ := inv
  cases event with
  | schedule =>
      simp only [step] at taken
      split at taken
      case isTrue here =>
        obtain rfl := Option.some.inj taken
        exact schedule_spec kept here
      case isFalse => cases taken
  | lateTick =>
      simp only [step] at taken
      split at taken
      case isFalse => cases taken
      case isTrue here =>
        cases found : findNextRunnableThread m.kernel with
        | none => simp [found] at taken
        | some next =>
            obtain ⟨k, run, leads⟩ := lateTick_spec kept found
            simp only [found, run, Option.some.injEq] at taken
            exact taken ▸ leads
  | tick =>
      simp only [step] at taken
      cases here : m.pc with
      | stopped message => simp [here] at taken
      | scheduler =>
          simp only [here] at taken
          split at taken
          case isFalse => cases taken
          case isTrue =>
            obtain rfl := Option.some.inj taken
            obtain ⟨inv, quiet⟩ := onYield_spec .lost kept
              (fun _ _ => ⟨(fun c r is => nomatch is), (fun is => nomatch is)⟩) fun _ => here
            exact .quiet kept inv quiet
      | user u =>
          simp only [here, Option.some.injEq] at taken
          exact taken ▸ (inv.user here).tick
      | kernel u =>
          simp only [here] at taken pc
          have yields : ∀ {cont : Cont}, (∀ c r, cont ≠ .wait c r) →
              (cont = .toUser → (m.kernel.threadTable u).pid ≠ none) →
                Leads cfg m (m.onYield cont) := by
            intro cont noWait user
            obtain ⟨inv, quiet⟩ := onYield_current _ kept pc.1 noWait user
            exact .quiet kept inv quiet
          cases cont : m.continuation u with
          | toUser =>
              simp only [cont, Option.some.injEq] at taken
              exact taken ▸ yields (fun c r is => nomatch is) fun _ => kept.users u pc.1.ready cont
          | kthread =>
              simp only [cont, Option.some.injEq] at taken
              exact taken ▸ yields (fun c r is => nomatch is) (fun is => nomatch is)
          | _ => simp [cont] at taken
  | proceed =>
      simp only [step] at taken
      cases here : m.pc with
      | kernel u =>
          simp only [here] at taken pc
          exact proceed_spec kept pc.1 pc.2 taken
      | _ => simp [here] at taken
  | call rsp regs what =>
      simp only [step] at taken
      cases here : m.pc with
      | user u =>
          simp only [here, Option.some.injEq] at taken
          exact taken ▸ (inv.user here).syscall rsp regs lower
      | _ => simp [here] at taken

end FerriOS.System
