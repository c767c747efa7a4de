import FerriOS.Kernel.Invariant

/-! # Actions

The changes that steps are made of. Each one keeps the invariant, and what it
does to processes, threads and memory can be read off its constructor; a property
of runs is proved by looking at each action once.
-/

namespace FerriOS.System

open FerriOS.Lib FerriOS.Memory FerriOS.Loader

/-- The kernel after `exit`. -/
def Kernel.exited (k : Kernel) (t i : Nat) (p : Process) (status : Int) : Kernel :=
  (k.setProcess i (some { p with state := .zombie, exitStatus := status })).setThread t
    { k.threadTable t with state := .zombie }

/-- What the process `p` with pid `i` does through its thread `t`, or the machine
    on its own. A killed process does nothing but exit, and finish a `wait`. -/
inductive Action (cfg : Config) : Machine → Machine → Prop where
  | quiet (quiet : Quiet m m') : Action cfg m m'
  | returned (serves : Serves m t i p) (spared : p.killed = false)
      (restored : RspRestored cfg (.returned t i call reply entryRsp m.kernel.cpu.savedUserRsp)) :
      Action cfg m (m.record (.returned t i call reply entryRsp m.kernel.cpu.savedUserRsp))
  | exit (serves : Serves m t i p) (notInit : i ≠ INIT_PID) (killed : Bool)
      (cause : if killed then p.killed = true ∧ status = RET_ERROR else p.killed = false) :
      Action cfg m ((m.setKernel (m.kernel.exited t i p status)).record (.exited i status killed))
  | fork (serves : Serves m t i p) (spared : p.killed = false) (free : m.kernel.freePid = some pid)
      (freeT : m.kernel.freeTid = some tid) (tf : (m.kernel.threadTable t).tf = some parentTf)
      (copied : copyUvm m.kernel.mem.cr3 m.kernel.mem = .ok root mem') :
      Action cfg m ((m.setKernel (m.kernel.forked kstack pid tid p parentTf root mem')).record
        (.forked i pid))
  | forkFails (serves : Serves m t i p) (spared : p.killed = false)
      (free : m.kernel.freePid = some pid)
      (freeT : m.kernel.freeTid = some tid)
      (failed : copyUvm m.kernel.mem.cr3 m.kernel.mem = .err message mem') :
      Action cfg m (m.setKernel ((m.kernel.withEmbryo kstack pid tid).setMem mem'))
  | exec (serves : Serves m t i p) (spared : p.killed = false) (idle : m.continuation t = .toUser)
      (tf : (m.kernel.threadTable t).tf = some frame) (found : cfg.lookup path = some image)
      (prepared : prepareExecImage cfg.mapper image argv m.kernel.mem = .ok r mem') :
      Action cfg m (m.setKernel ((m.kernel.setMem mem').committed t i p frame r))
  | execFails (serves : Serves m t i p) (spared : p.killed = false)
      (found : cfg.lookup path = some image)
      (failed : prepareExecImage cfg.mapper image argv m.kernel.mem = .err message mem') :
      Action cfg m (m.setKernel (m.kernel.setMem mem'))
  | sbrk (serves : Serves m t i p) (spared : p.killed = false)
      (moved : Conserves kernelLaw 4 m.kernel.mem.cr3 0 0 m.kernel.mem mem') :
      Action cfg m (m.setKernel (m.kernel.setMem mem'))
  | kill (serves : Serves m t i p) (spared : p.killed = false) (inside : j < NPROCESS)
      (entry : m.kernel.processTable j = some q) :
      Action cfg m (m.setKernel (m.kernel.setProcess j (some { q with killed := true })))
  | reap (serves : Serves m t i p) (found : zombieChild i m.kernel = some j)
      (entry : m.kernel.processTable j = some c) (owns : Owns m.kernel j c tid)
      (table : c.pageTable = some f) (freed : freeUvm f m.kernel.mem = .ok () mem') :
      Action cfg m ((m.setKernel (m.kernel.released c tid mem')).record
        (.reaped i c.pid c.exitStatus))

variable {cfg : Config} {m m' : Machine} {k k' : Kernel} {t i j : Nat} {p q c : Process}

/-- An action between states that keep the invariant. -/
structure Acts (cfg : Config) (m m' : Machine) : Prop where
  before : Kept cfg m
  action : Action cfg m m'
  after : Kept cfg m'

/-- Running any number of actions. -/
abbrev Run (cfg : Config) : Machine → Machine → Prop := Relation.ReflTransGen (Acts cfg)

/-- The images of the program table lie in the lower half. -/
def Config.LowerHalf (cfg : Config) : Prop :=
  ∀ path image, cfg.lookup path = some image → Loader.LowerHalf image

theorem Coherent.congr (coh : Coherent k) (processes : k'.processTable = k.processTable)
    (threads : k'.threadTable = k.threadTable) : Coherent k' :=
  coh.same (fun i => by rw [processes]; exact .refl) fun t => by rw [threads]; exact .refl

theorem roots_setProcess (k : Kernel) (j : Nat) (entry : Option Process) :
    (k.setProcess j entry).roots = Function.update k.roots j (entry.bind (·.pageTable)) := by
  funext i
  by_cases here : i = j
  · subst here
    rw [Kernel.roots, Kernel.setProcess_at, Function.update_self]
  · rw [Kernel.roots, Kernel.setProcess_ne _ here, Function.update_of_ne here, Kernel.roots]

theorem roots_congr (processes : k'.processTable = k.processTable) : k'.roots = k.roots := by
  funext i
  rw [Kernel.roots, Kernel.roots, processes]

theorem roots_kept (entry : k.processTable j = some p) (table : q.pageTable = p.pageTable) :
    (k.setProcess j (some q)).roots = k.roots := by
  have here : k.roots j = (some q).bind (·.pageTable) := by
    rw [Kernel.roots, entry, Option.bind_some, Option.bind_some, table]
  rw [roots_setProcess, ← here, Function.update_eq_self]

theorem Serves.frames_apart (serves : Serves m t i p) (kept : Kept cfg m) :
    ∀ f ∈ userFrames m.kernel.mem.ram m.kernel.mem.cr3, f ∉ m.kernel.mem.available := by
  intro f member
  rw [← spaceAt_some serves.root] at member
  exact kept.separate.apart_available serves.inside member

theorem Serves.slots (serves : Serves m t i p) (kept : Kept cfg m) :
    Slots kernelLaw m.kernel.mem.ram 4 m.kernel.mem.cr3 :=
  kept.separate.slots i serves.inside _ serves.root

theorem Kept.setMem {mem' : MemState} (kept : Kept cfg m)
    (separate : Separate kernelLaw NPROCESS m.kernel.roots mem') :
    Kept cfg (m.setKernel (m.kernel.setMem mem')) :=
  kept.change (kept.coherent.congr rfl rfl) separate kept.returns rfl fun _ => .same rfl rfl

theorem freePid_inside {pid : Nat} (free : k.freePid = some pid) : pid < NPROCESS := by
  have bound := (freePid_spec free).1
  simp only [NPROCESS] at bound ⊢
  omega

section Kept

variable (kept : Kept cfg m)

include kept

theorem Kept.exit (status : Int) (killed : Bool) (serves : Serves m t i p) :
    Kept cfg ((m.setKernel (m.kernel.exited t i p status)).record (.exited i status killed)) := by
  refine Kept.record ?_ trivial
  refine kept.change (kept.coherent.exit serves.entry serves.live serves.owns status) ?_ kept.returns rfl
    fun u => ?_
  · have roots : (m.kernel.exited t i p status).roots = m.kernel.roots :=
      roots_kept serves.entry rfl
    exact roots.symm ▸ kept.separate
  · by_cases here : u = t
    · subst here
      refine .gone fun ready => ?_
      have state : ((m.kernel.exited u i p status).threadTable u).state = .zombie := by
        rw [Kernel.exited, Kernel.setThread_at]
      rcases ready with is | is <;> cases state.symm.trans is
    · exact .same (Kernel.setThread_ne _ here) rfl

theorem Kept.fork {pid tid : Nat} {root : PhysFrame} {mem' : MemState} (kstack parentTf : Nat)
    (serves : Serves m t i p) (free : m.kernel.freePid = some pid)
    (freeT : m.kernel.freeTid = some tid)
    (copied : copyUvm m.kernel.mem.cr3 m.kernel.mem = .ok root mem') :
    Kept cfg ((m.setKernel (m.kernel.forked kstack pid tid p parentTf root mem')).record
      (.forked i pid)) := by
  obtain ⟨boundPid, vacant⟩ := freePid_spec free
  obtain ⟨boundTid, unused⟩ := freeTid_spec freeT
  have built : Built kernelLaw root m.kernel.mem mem' := (copyUvm_spec kernelLaw_noHuge
    kept.separate.available_nodup (serves.slots kept).linked
      (serves.frames_apart kept)).of_ok copied |>.1
  generalize shape : m.kernel.forked kstack pid tid p parentTf root mem' = k'
  have processes : k'.processTable = Function.update m.kernel.processTable pid
      (some (childProcess pid tid root p)) := by rw [← shape]; rfl
  obtain ⟨thread, threads, rip, state, owner, tf⟩ : ∃ thread : Thread,
      k'.threadTable = Function.update m.kernel.threadTable tid thread ∧
        thread.context.rip = .forkReturnTrampoline ∧ thread.state = .runnable ∧
          thread.pid = some pid ∧ thread.tf ≠ none := by
    refine ⟨childThread kstack pid tid
      (((m.kernel.withEmbryo kstack pid tid).setMem mem').trapFrames parentTf) m.kernel.cpu.savedUserRsp,
      ?_, rfl, rfl, rfl, Option.some_ne_none _⟩
    rw [← shape]
    exact Function.update_idem ..
  have mem : k'.mem = mem' := by rw [← shape]; rfl
  have current : k'.cpu.currentTid = m.kernel.cpu.currentTid := by rw [← shape]; rfl
  have other : p.pid ≠ pid := by
    rintro same
    rw [serves.whole.pid] at same
    rw [← same, serves.entry] at vacant
    cases vacant
  suffices kept' : Kept cfg (m.setKernel k') from kept'.record trivial
  refine kept.change ?_ ?_ kept.returns current fun u => ?_
  · refine (kept.coherent.fork thread vacant unused boundPid boundTid
      (q := childProcess pid tid root p) rfl rfl
      (fun same => other (Option.some.inj same))
        (Option.some_ne_none _) serves.whole.heap rfl owner tf
      state).congr ?_ ?_
    · exact processes
    · exact threads
  · have roots : k'.roots = Function.update m.kernel.roots pid (some root) :=
      (roots_congr (k := m.kernel.setProcess pid
        (some (childProcess pid tid root p))) processes).trans
        (roots_setProcess ..)
    have separate := kept.separate.build (freePid_inside free) built
    rw [← roots, ← mem] at separate
    exact separate
  · by_cases here : u = tid
    · subst here
      have self : k'.threadTable u = thread := by rw [threads, Function.update_self]
      refine .fresh (fun running => ?_) ?_ ?_
      · rw [Machine.setKernel, self, state] at running
        cases running
      · rw [Machine.setKernel, self, owner]
        exact Option.some_ne_none _
      · rw [Machine.continuation, Machine.setKernel, self, rip]
    · refine .same ?_ rfl
      rw [Machine.setKernel, threads, Function.update_of_ne here]

theorem Kept.forkFails {tid : Nat} {message : String} {mem' : MemState} (kstack pid : Nat)
    (serves : Serves m t i p) (freeT : m.kernel.freeTid = some tid)
    (failed : copyUvm m.kernel.mem.cr3 m.kernel.mem = .err message mem') :
    Kept cfg (m.setKernel ((m.kernel.withEmbryo kstack pid tid).setMem mem')) := by
  obtain ⟨boundTid, unused⟩ := freeTid_spec freeT
  have lost : Abandoned m.kernel.mem mem' := (copyUvm_spec kernelLaw_noHuge
    kept.separate.available_nodup (serves.slots kept).linked
      (serves.frames_apart kept)).of_err failed |>.1
  refine kept.change ?_ (kept.separate.abandon lost) kept.returns rfl fun u => ?_
  · refine (kept.coherent.thread (embryo kstack pid tid) unused fun started => ?_).congr rfl rfl
    exact absurd rfl started.2
  · by_cases here : u = tid
    · subst here
      refine .gone fun ready => ?_
      have state : (((m.kernel.withEmbryo kstack pid u).setMem mem').threadTable u).state = .embryo :=
        congrArg Thread.state (Kernel.setThread_at ..)
      rcases ready with is | is <;> cases state.symm.trans is
    · exact .same (Kernel.setThread_ne _ here) rfl

theorem Kept.exec {path image : List UInt8} {argv : List (List UInt8)} {r : Exec} {mem' : MemState}
    (frame : Nat) (lower : cfg.LowerHalf) (serves : Serves m t i p) (idle : m.continuation t = .toUser)
    (found : cfg.lookup path = some image)
    (prepared : prepareExecImage cfg.mapper image argv m.kernel.mem = .ok r mem') :
    Kept cfg (m.setKernel ((m.kernel.setMem mem').committed t i p frame r)) := by
  obtain ⟨built, heap⟩ := (prepareExecImage_spec cfg.mapper argv (lower path image found).confined
    kept.separate.available_nodup).of_ok prepared
  generalize shape : (m.kernel.setMem mem').committed t i p frame r = k'
  have processes : k'.processTable = Function.update m.kernel.processTable i
      (some { p with pageTable := some r.pageTable, heapSize := r.heapSize }) := by rw [← shape]; rfl
  obtain ⟨thread, threads, rip, state, owner, tf⟩ : ∃ thread : Thread,
      k'.threadTable = Function.update m.kernel.threadTable t thread ∧
        thread.context.rip = (m.kernel.threadTable t).context.rip ∧
        thread.state = (m.kernel.threadTable t).state ∧ thread.pid = (m.kernel.threadTable t).pid ∧
          thread.tf = (m.kernel.threadTable t).tf :=
    ⟨{ m.kernel.threadTable t with context := startContext (m.kernel.threadTable t).context r },
      by rw [← shape]; rfl, rfl, rfl, rfl, rfl⟩
  have mem : k'.mem = { mem' with cr3 := r.pageTable } := by rw [← shape]; rfl
  have current : k'.cpu.currentTid = m.kernel.cpu.currentTid := by rw [← shape]; rfl
  change Kept cfg (m.setKernel k')
  refine kept.change ?_ ?_ kept.returns current fun u => ?_
  · refine kept.coherent.same (fun j => ?_) fun u => ?_
    · have same : SameProcess p { p with pageTable := some r.pageTable, heapSize := r.heapSize } :=
        ⟨rfl, rfl, rfl, rfl, by simp [serves.whole.table], fun _ => heap⟩
      rw [Machine.setKernel, processes]
      exact SameEntry.update serves.entry same j
    · rw [Machine.setKernel, threads]
      exact SameRole.update ⟨owner, fun some => tf ▸ some, .inl state⟩ u
  · have roots : k'.roots = Function.update m.kernel.roots i (some r.pageTable) :=
      (roots_congr (k := m.kernel.setProcess i (some { p with
        pageTable := some r.pageTable, heapSize := r.heapSize })) processes).trans
          (roots_setProcess ..)
    have separate := kept.separate.build serves.inside built
    rw [← roots] at separate
    rw [Machine.setKernel, mem]
    exact ⟨separate.distinct, separate.slots⟩
  · by_cases here : u = t
    · subst here
      have self : k'.threadTable u = thread := by rw [threads, Function.update_self]
      refine .fresh (fun _ => serves.tid) ?_ ?_
      · rw [Machine.setKernel, self, owner, serves.pid]
        exact Option.some_ne_none _
      · rw [Machine.continuation, Machine.setKernel, self, rip]
        exact idle
    · refine .same ?_ rfl
      rw [Machine.setKernel, threads, Function.update_of_ne here]

theorem Kept.execFails {path image : List UInt8} {argv : List (List UInt8)} {message : String}
    {mem' : MemState}
    (lower : cfg.LowerHalf) (found : cfg.lookup path = some image)
    (failed : prepareExecImage cfg.mapper image argv m.kernel.mem = .err message mem') :
    Kept cfg (m.setKernel (m.kernel.setMem mem')) :=
  kept.setMem (kept.separate.abandon
    ((prepareExecImage_spec cfg.mapper argv (lower path image found).confined
    kept.separate.available_nodup).of_err failed))

theorem Kept.kill (entry : m.kernel.processTable j = some q) :
    Kept cfg (m.setKernel (m.kernel.setProcess j (some { q with killed := true }))) := by
  refine kept.change ?_ ?_ kept.returns rfl fun _ => .same rfl rfl
  · exact kept.coherent.same (SameEntry.update entry ⟨rfl, rfl, rfl, rfl, Iff.rfl, id⟩) fun _ =>
      .refl
  · have roots := roots_kept entry (q := { q with killed := true }) rfl
    exact roots.symm ▸ kept.separate

/-- A child to be reaped is not the process that waits. -/
theorem Serves.child (serves : Serves m t i p) (found : zombieChild i m.kernel = some j) :
    ∃ c tid f, m.kernel.processTable j = some c ∧ c.state = .zombie ∧ c.ppid = some i ∧ c.pid = j ∧
      j < NPROCESS - 1 ∧ j ≠ i ∧ Owns m.kernel j c tid ∧ c.pageTable = some f ∧
        m.kernel.mem.cr3 ≠ f := by
  have hit := List.find?_some found
  cases entry : m.kernel.processTable j with
  | none => simp [entry, isChild] at hit
  | some c =>
      simp only [entry, isChild, isZombie, Option.any_some, Bool.and_eq_true, beq_iff_eq] at hit
      obtain ⟨parent, zombie⟩ := hit
      have whole := kept.coherent.live j c entry (Process.live_iff.mpr (.inr zombie))
      obtain ⟨tid, owns⟩ := whole.thread
      obtain ⟨f, table⟩ := Option.ne_none_iff_exists'.mp whole.table
      have other : j ≠ i := by
        rintro rfl
        exact whole.orphan parent
      have root : m.kernel.roots j = some f := by rw [Kernel.roots, entry, Option.bind_some, table]
      exact ⟨c, tid, f, rfl, zombie, parent, whole.pid, whole.bound, other, owns, table,
        (kept.separate.root_ne serves.inside whole.inside other serves.root root).symm⟩

theorem Kept.reap {tid : Nat} {f : PhysFrame} {mem' : MemState} (live : c.live = true)
    (entry : m.kernel.processTable j = some c) (owns : Owns m.kernel j c tid)
    (table : c.pageTable = some f) (freed : freeUvm f m.kernel.mem = .ok () mem') :
    Kept cfg ((m.setKernel (m.kernel.released c tid mem')).record
      (.reaped i c.pid c.exitStatus)) := by
  have whole := kept.coherent.live j c entry live
  have root : m.kernel.roots j = some f := by rw [Kernel.roots, entry, Option.bind_some, table]
  have owned := kept.separate.owned_nodup whole.inside root
  have released : Released f m.kernel.mem mem' := (freeUvm_spec kernelLaw_noHuge
    (by rwa [Memory.owned, add_zero] at owned)
    (kept.separate.slots j whole.inside f root)).of_ok freed
  refine Kept.record ?_ trivial
  refine kept.change ?_ ?_ kept.returns rfl fun u => ?_
  · refine (kept.coherent.release entry owns).congr ?_ ?_
    · rw [← whole.pid]
      rfl
    · rfl
  · have roots : (m.kernel.released c tid mem').roots = Function.update m.kernel.roots j none := by
      refine (roots_congr (k := m.kernel.setProcess j (some .new)) ?_).trans (roots_setProcess ..)
      rw [← whole.pid]
      rfl
    have separate := kept.separate.release whole.inside root released
    rw [← roots] at separate
    exact separate
  · by_cases here : u = tid
    · subst here
      refine .gone fun ready => ?_
      have state : ((m.kernel.released c u mem').threadTable u).state = .unused :=
        congrArg Thread.state (Kernel.setThread_at ..)
      rcases ready with is | is <;> cases state.symm.trans is
    · exact .same (Kernel.setThread_ne _ here) rfl

end Kept

end FerriOS.System
