import FerriOS.Kernel.Frames
import FerriOS.Kernel.UserAccess

/-! # Rounds of `wait`

What a round of `wait` does when its process was killed in the meantime, and when the
status pointer is not mapped.
-/

namespace FerriOS.System

open FerriOS.Lib FerriOS.Memory FerriOS.Loader

variable {cfg : Config} {m m' : Machine} {k k' : Kernel} {v : Scene} {t i j : Nat} {p c : Process}
  {root : PhysFrame}

/-- A round reaps the first zombie child, or changes nothing. -/
theorem WaitRuns.round (inv : m.Inv cfg) (waits : WaitRuns m k c) :
    (∃ j z tid mem', zombieChild c.pid k = some j ∧ k.processTable j = some z ∧ z.pid = j ∧
      z.state = .zombie ∧ waitRound c k = .ok (some (z.pid, z.exitStatus))
        (k.released z tid mem')) ∨
    (zombieChild c.pid k = none ∧
      waitRound c k = if havekids c.pid k then .ok none k else .err "no child process" k) := by
  have spared := waits.spared inv
  obtain ⟨m', t, i, p, rfl, kept, serves, copy⟩ := waits.serves inv
  cases found : zombieChild c.pid m'.kernel with
  | none =>
      refine .inr ⟨rfl, ?_⟩
      rw [waitRound_waits found, spared]
      cases havekids c.pid m'.kernel <;> rfl
  | some j =>
      obtain ⟨z, tid, f, mem', entry, zombie, place, -, -, -, -, -, run⟩ :=
        serves.waitRound kept copy (copy ▸ found)
      exact .inl ⟨j, z, tid, mem', rfl, entry, place, zombie, run⟩

/-- The round ends the call: it reaps a child or returns an error. -/
def EndsWait (caller : Process) (k : Kernel) : Prop :=
  (waitRound caller k).Sat False (fun reaped _ => reaped ≠ none) (fun _ _ => True)

theorem WaitRuns.ends_iff (inv : m.Inv cfg) (waits : WaitRuns m k c) :
    EndsWait c k ↔ zombieChild c.pid k ≠ none ∨ havekids c.pid k = false := by
  rcases waits.round inv with ⟨j, z, tid, mem', found, -, -, -, run⟩ | ⟨none', run⟩
  · rw [EndsWait, run, found]
    exact iff_of_true (Option.some_ne_none _) (.inl (Option.some_ne_none _))
  · rw [EndsWait, run, none']
    cases havekids c.pid k with
    | false => exact iff_of_true trivial (.inr rfl)
    | true => simp

/-- A process that was killed while it waits ends its wait when its thread is
    dispatched, exactly if it has a zombie child or no child at all. -/
theorem killed_wait_ends {r : Nat} (lower : cfg.LowerHalf) (reached : Reachable cfg m)
    (pc : m.pc = .kernel t)
    (waiting : m.continuation t = .wait c r) (pid : (m.kernel.threadTable t).pid = some i)
    (entry : m.kernel.processTable i = some p) :
    (p.killed = true → EndsWait c m.kernel) ↔
      p.killed = false ∨ zombieChild i m.kernel ≠ none ∨ havekids i m.kernel = false := by
  have inv := reached.inv lower
  have waits : WaitRuns m m.kernel c := .resumed pc waiting
  obtain ⟨kept, rest⟩ := inv
  rw [pc] at rest
  obtain rfl : i = c.pid := Option.some.inj
    (pid.symm.trans (kept.waits t c r rest.1.ready waiting).1)
  rw [← waits.ends_iff (reached.inv lower)]
  cases p.killed <;> simp

/-- The first process waits for its child, and was killed by it; the scheduler has
    switched to it. -/
def Scene.parted : Scene where
  pc := .kernel 0
  current := some 0
  started := true
  states := [.running, .runnable]
  members := [⟨.alive, true, none⟩, ⟨.alive, false, some 0⟩]
  rests := [.waits, .user]
  frames := 27

theorem parted_reached : ∃ m, Shows bareConfig m .parted :=
  plan_reaches 40 [.schedule, .proceed, .fork, .wait, .schedule, .proceed, .kill 0, .tick,
    .schedule]
    (by decide) (by decide)

/-- A killed process that waits for a child that runs on. -/
theorem killed_wait_ends_parted :
    ∃ m c r p, Shows bareConfig m .parted ∧ m.continuation 0 = .wait c r ∧
    m.kernel.processTable 0 = some p ∧ ((p.killed = true → EndsWait c m.kernel) ↔
      p.killed = false ∨ zombieChild 0 m.kernel ≠ none ∨ havekids 0 m.kernel = false) := by
  obtain ⟨m, shown⟩ := parted_reached
  obtain ⟨c, r, waiting⟩ := shown.rests 0 .waits rfl
  obtain ⟨p, entry⟩ := shown.entry_of (i := 0) (by decide)
  exact ⟨m, c, r, p, shown, waiting, entry,
    killed_wait_ends bareConfig_lower shown.reached shown.pc waiting
      (shown.owner 0 (by decide)) entry⟩

/-- It yields again, killed as it is and without a zombie child. -/
theorem killed_wait_yields : ∃ m c r p, Reachable bareConfig m ∧ m.pc = .kernel 0 ∧
    m.continuation 0 = .wait c r ∧ m.kernel.processTable 0 = some p ∧ p.killed = true ∧
      zombieChild 0 m.kernel = none ∧
      step bareConfig m .proceed = some (m.swapgs.onSyscallYield (.wait c r)) := by
  obtain ⟨m, shown⟩ := parted_reached
  obtain ⟨c, r, waiting⟩ := shown.rests 0 .waits rfl
  obtain ⟨p, entry⟩ := shown.entry_of (i := 0) (by decide)
  have killed : p.killed = true := by
    have there := shown.members 0
    rw [entry] at there
    exact congrArg Member.killed (Option.some.inj there)
  have inv := shown.reached.inv bareConfig_lower
  have waits : WaitRuns m m.kernel c := .resumed shown.pc waiting
  have copy : c.pid = 0 := by
    obtain ⟨kept, rest⟩ := inv
    rw [shown.pc] at rest
    exact Option.some.inj ((kept.waits 0 c r rest.1.ready waiting).1.symm.trans
      (shown.owner 0 (by decide)))
  have idle : zombieChild c.pid m.kernel = none := copy ▸ shown.zombieChild (by decide)
  have kids : havekids c.pid m.kernel = true := copy ▸ shown.havekids bareConfig_lower (by decide)
  refine ⟨m, c, r, p, shown.reached, shown.pc, waiting, entry, killed, copy ▸ idle, ?_⟩
  have run : waitRound c m.swapgs.kernel = .ok none m.kernel := by
    refine (waitRound_waits idle).trans ?_
    rw [kids, waits.spared inv]
    rfl
  have pc : m.pc = .kernel 0 := shown.pc
  simp only [step, pc, Machine.proceed, waiting, Machine.waitLoop, run]
  rfl

theorem Serves.space_kept {f : PhysFrame} {mem' : MemState} (serves : Serves m t i p)
    (kept : Kept cfg m)
    (inside : j < NPROCESS) (other : j ≠ i) (root : m.kernel.roots j = some f)
    (released : Released f m.kernel.mem mem') :
    treeRoutes mem'.ram 4 m.kernel.mem.cr3 = treeRoutes m.kernel.mem.ram 4 m.kernel.mem.cr3 := by
  refine treeRoutes_congr fun g inTree => PhysMem.child_congr (released.outside g ?_)
  rw [← spaceAt_some root]
  refine kept.separate.apart inside serves.inside other.symm ?_
  rw [spaceAt_some serves.root]
  exact Multiset.mem_of_le (treeTables_le _ _ _) inTree

/-- A status pointer to which no table leads. -/
theorem copyToUser_unmapped {ptr : Nat} {bytes : List UInt8} (cur : Current k t i p)
    (table : p.pageTable = some root) (null : ptr ≠ 0) (lower : ptr < 2 ^ 47) (some' : bytes ≠ [])
    (absent : tableIndices ptr ∉ treeRoutes k.mem.ram 4 root) :
    copyToUser cfg ptr bytes k = .err "syscall: address is not mapped" k := by
  have pageTable : currentPageTable k = .ok root k := by
    rw [currentPageTable, Prog.bind_ok cur.currentProcess_run]
    simp only [Prog.okOr_some, Prog.pure_bind, table, Prog.pure_run]
  obtain ⟨b, rest, rfl⟩ := List.exists_cons_of_ne_nil some'
  have first : ∃ size later, pieces ptr (b :: rest).length = (0, size) :: later := by
    rw [pieces, List.length_cons, piecesFrom, if_pos (Nat.succ_pos _)]
    exact ⟨_, _, rfl⟩
  obtain ⟨size, later, split⟩ := first
  have sum : usizeAdd cfg ptr 0 k = .ok ptr k := by
    rw [usizeAdd, if_pos (by omega)]
    rfl
  have page : ∀ checks, userPage cfg root ptr 0 checks k = .err "syscall: address is not mapped" k := fun checks => by
    rw [userPage, Prog.bind_ok sum, Prog.bind_ok (virtAddr_run lower k),
      Prog.bind_ok (onMem_ok (walkPagetable_lookup root ptr k.mem)), lookup_none lower absent]
    rfl
  rw [copyToUser, if_neg some', if_neg null, Prog.bind_ok pageTable, split, Prog.each]
  exact Prog.bind_err (Prog.bind_err (page _))

/-- The second page, to which no table of a program without segments leads. -/
def UNMAPPED_PTR : Nat := 0x1000

theorem unmapped_bare : tableIndices UNMAPPED_PTR ∉ bareRoutes := by decide +kernel

/-- A parent waits for its zombie child with a pointer that is not mapped. -/
theorem Shows.wait_unmapped (shown : Shows cfg m v) (lower : cfg.LowerHalf) (here : v.pc = .user t)
    (acts : v.acts t = true)
    (first : (List.range (NPROCESS - 1)).find? (fun i => v.members[i]?.any fun p =>
      p.ppid == some t && p.state == .zombie) = some i) :
    ∃ p k', WaitRuns m (m.calling t 0 .new).kernel p ∧ p.pid = t ∧
      System.zombieChild t (m.calling t 0 .new).kernel = some i ∧
        sysWaitRound cfg UNMAPPED_PTR p (m.calling t 0 .new).kernel = .ok (some RET_ERROR) k' ∧
          k'.processTable i = some .new := by
  obtain ⟨user, -, -, -, -, -, p, serves, spared, -⟩ := shown.running lower here acts
  have calling := user.calling 0 .new
  have serves' := user.serves_calling 0 .new serves
  have found : System.zombieChild t (m.calling t 0 .new).kernel = some i :=
    shown.zombieChild_eq first
  obtain ⟨z, tid, f, mem', entry, zombie, place, other, owns, table, freed, released, run⟩ :=
    serves'.waitRound calling.kept serves'.whole.pid found
  have root : (m.calling t 0 .new).kernel.roots i = some f := by
    rw [Kernel.roots, entry, Option.bind_some, table]
  have inside : i < NPROCESS :=
    (calling.kept.coherent.live i z entry (Process.live_iff.mpr (.inr zombie))).inside
  have space : treeRoutes mem'.ram 4 m.kernel.mem.cr3 = bareRoutes :=
    (serves'.space_kept calling.kept inside other root released).trans
    (shown.space t p _ serves.entry serves.table)
  have thread : t ≠ tid := by
    rintro rfl
    exact other (Option.some.inj (owns.pid.symm.trans serves'.pid))
  have cur : Current ((m.calling t 0 .new).kernel.released z tid mem') t t p := by
    refine ⟨serves'.tid, serves'.bound, ?_, serves'.inside, ?_⟩
    · exact (congrArg Thread.pid (Kernel.setThread_ne _ thread)).trans serves'.pid
    · exact (Kernel.setProcess_ne _ (place.symm ▸ other.symm)).trans serves'.entry
  have refused : ∀ bytes, bytes ≠ [] → copyToUser cfg UNMAPPED_PTR bytes
      ((m.calling t 0 .new).kernel.released z tid mem') = .err "syscall: address is not mapped"
        ((m.calling t 0 .new).kernel.released z tid mem') := fun bytes some' =>
    copyToUser_unmapped cur serves'.table (by decide) (by decide) some' (space ▸ unmapped_bare)
  have small : ¬ SYS_RET_MAX < z.pid := by
    rw [place]
    simp only [SYS_RET_MAX, NPROCESS] at inside ⊢
    omega
  have slot : ((m.calling t 0 .new).kernel.released z tid mem').processTable i = some .new := by
    rw [← place]
    exact Function.update_self ..
  refine ⟨p, (m.calling t 0 .new).kernel.released z tid mem',
    .called (shown.pc.trans here) serves spared,
    serves.whole.pid, found, ?_, slot⟩
  rw [sysWaitRound, Prog.bind_run, Prog.attempt, run]
  simp only [deliverStatus, if_neg small, if_pos (show UNMAPPED_PTR ≠ 0 by decide)]
  rw [Prog.bind_run, Prog.bind_run, Prog.attempt, refused _ (by simp [leBytes])]
  rfl

end FerriOS.System
