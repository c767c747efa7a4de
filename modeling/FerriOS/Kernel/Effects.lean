import FerriOS.Kernel.Machine
import FerriOS.Exec.Loading

/-! # What the calls do

Each routine of the kernel, run on tables that are as they should be, ends in a
state that is written out here. The proofs about runs use these statements and
never look into a routine again.
-/

namespace FerriOS.System

open FerriOS.Lib FerriOS.Memory FerriOS.Loader

variable {k : Kernel} {t i : Nat} {p : Process}

section Tables

@[simp] theorem Kernel.setProcess_at (pid : Nat) (entry : Option Process) :
    (k.setProcess pid entry).processTable pid = entry := Function.update_self ..

theorem Kernel.setProcess_ne {pid j : Nat} (entry : Option Process) (other : j ≠ pid) :
    (k.setProcess pid entry).processTable j = k.processTable j := Function.update_of_ne other ..

@[simp] theorem Kernel.setThread_at (tid : Nat) (thread : Thread) :
    (k.setThread tid thread).threadTable tid = thread := Function.update_self ..

theorem Kernel.setThread_ne {tid j : Nat} (thread : Thread) (other : j ≠ tid) :
    (k.setThread tid thread).threadTable j = k.threadTable j := Function.update_of_ne other ..

theorem processAt_run (inside : i < NPROCESS) : processAt i k = .ok (k.processTable i) k := by
  simp [processAt, inside]

theorem putProcess_run (inside : i < NPROCESS) (entry : Option Process) :
    putProcess i entry k = .ok () (k.setProcess i entry) := by
  simp [putProcess, Prog.bind_ok (processAt_run inside)]

theorem threadAt_run (inside : t < NTHREAD) : threadAt t k = .ok (k.threadTable t) k := by
  simp [threadAt, inside]

theorem putThread_run (inside : t < NTHREAD) (thread : Thread) :
    putThread t thread k = .ok () (k.setThread t thread) := by
  simp [putThread, Prog.bind_ok (threadAt_run inside)]

end Tables

/-- Thread `t` of the process with pid `i` is on the CPU. -/
structure Current (k : Kernel) (t i : Nat) (p : Process) : Prop where
  tid : k.cpu.currentTid = some t
  bound : t < NTHREAD
  pid : (k.threadTable t).pid = some i
  inside : i < NPROCESS
  entry : k.processTable i = some p

namespace Current

variable (cur : Current k t i p)

include cur

theorem currentPid_eq : k.currentPid = some i := by
  rw [Kernel.currentPid, cur.tid, Option.bind_some, cur.pid]

theorem currentPid_run : currentPid k = .ok (some i) k := by
  simp [currentPid, currentThread, cur.tid, Prog.bind_ok (threadAt_run cur.bound), cur.pid,
    Prog.bind_run]

theorem currentProcess_run : currentProcess k = .ok (some p) k := by
  rw [currentProcess, Prog.bind_ok cur.currentPid_run, ← cur.entry]
  exact processAt_run cur.inside

theorem unlessKilled_run {m : Machine} (here : m.kernel = k) (rest : Machine → Machine) :
    m.unlessKilled rest = if p.killed then m.sysExit RET_ERROR true else rest m := by
  simp only [Machine.unlessKilled, here, cur.currentProcess_run]

theorem getpid_run : getpid k = .ok i k := by
  rw [getpid, Prog.bind_ok cur.currentPid_run]
  rfl

end Current

/-- `exit` makes the process and its thread zombies. -/
theorem exit_run (cur : Current k t i p) (notInit : i ≠ INIT_PID) (threads : p.threads = [t])
    (pid : p.pid = i) (status : Int) :
    exit status k = .ok () ((k.setProcess i
      (some { p with state := .zombie, exitStatus := status })).setThread t
      { k.threadTable t with state := .zombie }) := by
  have owner : (k.threadTable t).pid = some p.pid := by rw [pid, cur.pid]
  rw [exit, Prog.bind_ok cur.currentPid_run]
  simp only [Prog.okOr, Prog.pure_bind, notInit, if_false, Prog.bind_ok (processAt_run cur.inside),
    cur.entry, Prog.bind_ok (putProcess_run cur.inside _), threads, Prog.each, zombieThread]
  rw [Prog.bind_run, Prog.bind_ok (threadAt_run cur.bound)]
  simp only [Kernel.setProcess, owner, if_true, putThread_run cur.bound]
  rfl

theorem exit_init (cur : Current k t INIT_PID p) (status : Int) :
    exit status k = .err "init exiting" k := by
  rw [exit, Prog.bind_ok cur.currentPid_run]
  simp [Prog.okOr]

/-- `kill` marks one entry, or finds none. -/
theorem kill_spec (k : Kernel) (pid : Nat) :
    (kill pid k).Sat False
      (fun _ k' => ∃ j q, j < NPROCESS ∧ k.processTable j = some q ∧ q.pid = pid ∧
        k' = k.setProcess j (some { q with killed := true }))
      (fun _ k' => k' = k) := by
  rw [kill, Prog.get_bind]
  refine Outcome.Sat.bind (Outcome.Sat.okOr (Q := fun j k' => k' = k ∧ j < NPROCESS ∧
    (k.processTable j).any (·.pid == pid) = true) (fun j found => ?_) fun _ => rfl)
    fun j k' ⟨same, inside, hit⟩ => ?_
  · have member := List.mem_of_find?_eq_some found
    rw [List.mem_range] at member
    exact ⟨rfl, by simp only [NPROCESS] at member ⊢; omega, by simpa using List.find?_some found⟩
  · subst same
    rw [Prog.bind_ok (processAt_run inside)]
    cases entry : k'.processTable j with
    | none => simp [entry] at hit
    | some q =>
        simp only [Prog.expect, Prog.pure_bind, putProcess_run inside]
        exact ⟨j, q, inside, entry, by simpa [entry] using hit, rfl⟩

section Memory

variable {α : Type} {x : Prog MemState α} {mem' : MemState}

theorem onMem_ok {a : α} (run : x k.mem = .ok a mem') : onMem x k = .ok a (k.setMem mem') := by
  rw [onMem, Prog.zoom, run]

theorem onMem_err {message : String} (run : x k.mem = .err message mem') :
    onMem x k = .err message (k.setMem mem') := by
  rw [onMem, Prog.zoom, run]

theorem onMem_panic {message : String} (run : x k.mem = .panic message) :
    onMem x k = .panic message := by
  rw [onMem, Prog.zoom, run]

theorem onMem_spec {K : Prop} {Q : α → MemState → Prop} {E : String → MemState → Prop}
    (spec : (x k.mem).Sat K Q E) :
    (onMem x k).Sat K (fun a k' => ∃ mem', k' = k.setMem mem' ∧ Q a mem')
      (fun message k' => ∃ mem', k' = k.setMem mem' ∧ E message mem') :=
  Outcome.Sat.zoom (spec.mono id (fun _ mem' value => ⟨mem', rfl, value⟩) fun _ mem' error =>
    ⟨mem', rfl, error⟩)

end Memory

/-- `sbrk` returns the heap size, and changes the memory of the process at most. -/
theorem sbrk_spec (cfg : Config) {f : PhysFrame} (cur : Current k t i p)
    (table : p.pageTable = some f)
    (heap : p.heapSize ≤ 2 ^ 47) (distinct : (owned 4 f 0 k.mem).Nodup)
    (slots : Slots kernelLaw k.mem.ram 4 f) (n : Int) :
    (sbrk cfg n k).Sat True
      (fun r k' => r = p.heapSize ∧ ∃ mem', k' = k.setMem mem' ∧
        Conserves kernelLaw 4 f 0 0 k.mem mem')
      (fun _ k' => ∃ mem', k' = k.setMem mem' ∧ Conserves kernelLaw 4 f 0 0 k.mem mem') := by
  have add : ∀ a b, (usizeAdd cfg a b k).Sat True (fun _ k' => k' = k) (fun _ _ => False) := by
    intro a b
    rw [usizeAdd]
    split
    · rfl
    · split
      · trivial
      · rfl
  rw [sbrk, Prog.bind_ok cur.currentPid_run]
  simp only [Prog.expect, Prog.pure_bind, Prog.bind_ok (processAt_run cur.inside), cur.entry,
    Prog.okOr]
  refine Outcome.Sat.bind (Q := fun _ k' => ∃ mem', k' = k.setMem mem' ∧
    Conserves kernelLaw 4 f 0 0 k.mem mem') ?_ fun _ k' moved => ⟨rfl, moved⟩
  simp only [growProcessHeap, table, Prog.expect, Prog.pure_bind]
  split
  · refine Outcome.Sat.bind ((add _ _).mono id (fun _ _ same => same) fun _ _ impossible =>
      impossible.elim)
      fun newSize k' same => ?_
    subst same
    refine Outcome.Sat.bind (onMem_spec
      ((allocUvm_spec kernelLaw_noHuge kernelLaw_tableFlags distinct
      slots).mono False.elim (fun _ _ grown => grown.2.2.toConserves) fun _ _ fails => fails.1))
      fun _ k'' moved => moved
  · split
    · refine Outcome.Sat.bind ((add _ _).mono id (fun _ _ same => same) fun _ _ impossible =>
        impossible.elim)
        fun newSize k' same => ?_
      subst same
      refine Outcome.Sat.bind (onMem_spec
        ((deallocUvm_spec kernelLaw_noHuge heap distinct slots).mono
        False.elim (fun _ _ shrunk => shrunk.2) fun _ _ impossible => impossible.elim))
        fun _ k'' moved => moved
    · exact ⟨k.mem, rfl, .refl⟩

/-- The slot that the next process gets. -/
def Kernel.freePid (k : Kernel) : Option Nat :=
  (List.range (NPROCESS - 1)).find? fun i => (k.processTable i).isNone

/-- The slot that the next thread gets. -/
def Kernel.freeTid (k : Kernel) : Option Nat :=
  (List.range (NTHREAD - 1)).find? fun i => (k.threadTable i).state == .unused

theorem freePid_spec {pid : Nat} (free : k.freePid = some pid) :
    pid < NPROCESS - 1 ∧ k.processTable pid = none :=
  ⟨List.mem_range.mp (List.mem_of_find?_eq_some free), by simpa using List.find?_some free⟩

theorem freeTid_spec {tid : Nat} (free : k.freeTid = some tid) :
    tid < NTHREAD ∧ (k.threadTable tid).state = .unused := by
  have member := List.mem_range.mp (List.mem_of_find?_eq_some free)
  exact ⟨by simp only [NTHREAD] at member ⊢; omega, by simpa using List.find?_some free⟩

/-- The thread that `alloc_proc` makes, on the kernel stack at `kstack`. -/
def embryo (kstack pid tid : Nat) : Thread where
  tid := tid
  pid := some pid
  state := .embryo
  context := { Context.new with
    rsp := kstack + STACK_SIZE
    rip := .initProcessRing3EntryTrampoline
    rflags := 0x200
    cs := USER_CODE_SELECTOR
    ss := USER_DATA_SELECTOR
    rsp3 := USER_STACK_TOP
    userRip := USER_CODE_START }
  kstack := kstack + STACK_SIZE
  tf := some (kstack + STACK_SIZE - TRAP_FRAME_SIZE)

/-- The kernel with a new thread in its table, which does not run yet. -/
def Kernel.withEmbryo (k : Kernel) (kstack pid tid : Nat) : Kernel :=
  Kernel.setThread { k.setTrapFrame (kstack + STACK_SIZE - TRAP_FRAME_SIZE) .new with
    kernelStacks := kstack :: k.kernelStacks } tid (embryo kstack pid tid)

/-- The process that `alloc_proc` makes. -/
def newProcess (pid tid : Nat) : Process :=
  { Process.new with pid, state := .alive, threads := [tid] }

/-- `alloc_proc` fails before it takes anything, or takes a pid, a tid and a stack. -/
theorem allocProc_run {kstack : Nat} (stack : kstack ≠ 0) :
    allocProc kstack k = match k.freePid with
      | none => .err "Process table is full" k
      | some pid => match k.freeTid with
        | none => .err "Thread table is full" k
        | some tid => .ok (newProcess pid tid) (k.withEmbryo kstack pid tid) := by
  rw [allocProc, nextPid]
  cases pid : k.freePid with
  | none =>
      rw [Kernel.freePid] at pid
      simp [Prog.bind_run, pid, Prog.okOr]
  | some pid' =>
      have found := pid
      rw [Kernel.freePid] at found
      simp only [Prog.bind_run, Prog.get_run, found, Prog.okOr, Prog.pure_run, createUserThread,
        nextTid]
      cases tid : k.freeTid with
      | none =>
          rw [Kernel.freeTid] at tid
          simp [tid]
      | some tid' =>
          obtain ⟨inside, -⟩ := freeTid_spec tid
          rw [Kernel.freeTid] at tid
          simp [tid, setupKstack, stack, Prog.bind_run, Process.addThread, NTHREAD_PER_PROCESS,
            Process.new, putThread, threadAt, inside, Kernel.withEmbryo, newProcess, embryo,
              Thread.new]

/-- The entry of a forked child. -/
def childProcess (pid tid : Nat) (root : PhysFrame) (parent : Process) : Process :=
  { newProcess pid tid with
    pageTable := some root, ppid := some parent.pid, heapSize := parent.heapSize }

/-- The thread of a forked child. -/
def childThread (kstack pid tid : Nat) (parentTf : TrapFrame) (parentUserRsp : Nat) : Thread :=
  { embryo kstack pid tid with
    state := .runnable
    context := forkContext (embryo kstack pid tid) parentTf parentUserRsp }

/-- The kernel after a fork, with the copied address space at `root`. -/
def Kernel.forked (k : Kernel) (kstack pid tid : Nat) (parent : Process) (parentTf : Nat)
    (root : PhysFrame) (mem' : MemState) : Kernel :=
  let e := (k.withEmbryo kstack pid tid).setMem mem'
  (((e.setTrapFrame (kstack + STACK_SIZE - TRAP_FRAME_SIZE)
    { e.trapFrames parentTf with rax := 0, rsp := k.cpu.savedUserRsp }).setThread tid
      (childThread kstack pid tid (e.trapFrames parentTf) k.cpu.savedUserRsp)).setProcess pid
        (some (childProcess pid tid root parent)))

/-- `fork` fails before it takes anything; or its copy fails, and the new thread
    stays; or it makes a child. -/
theorem fork_run {kstack parentTf : Nat} {f : PhysFrame} (cur : Current k t i p)
    (table : p.pageTable = some f) (tf : (k.threadTable t).tf = some parentTf)
    (used : (k.threadTable t).state ≠ .unused) (stack : kstack ≠ 0) :
    fork kstack k = match k.freePid with
      | none => .err "Process table is full" k
      | some pid => match k.freeTid with
        | none => .err "Thread table is full" k
        | some tid => match copyUvm f k.mem with
          | .ok root mem' => .ok pid (k.forked kstack pid tid p parentTf root mem')
          | .err message mem' => .err message ((k.withEmbryo kstack pid tid).setMem mem')
          | .panic message => .panic message := by
  rw [fork, Prog.bind_ok cur.currentProcess_run]
  simp only [Prog.expect, Prog.pure_bind]
  rw [Prog.bind_run, allocProc_run stack]
  cases free : k.freePid with
  | none => rfl
  | some pid =>
      obtain ⟨insidePid, -⟩ := freePid_spec free
      cases freeT : k.freeTid with
      | none => rfl
      | some tid =>
          obtain ⟨insideTid, unused⟩ := freeTid_spec freeT
          have other : t ≠ tid := by
            rintro rfl
            exact used unused
          have sameMem : (k.withEmbryo kstack pid tid).mem = k.mem := rfl
          simp only [table]
          cases copied : copyUvm f k.mem with
          | err message mem' =>
              rw [Prog.pure_bind,
                Prog.bind_err (onMem_err (k := k.withEmbryo kstack pid tid) copied)]
          | panic message =>
              rw [Prog.pure_bind, Prog.bind_run,
                onMem_panic (k := k.withEmbryo kstack pid tid) copied]
          | ok root mem' =>
              rw [Prog.pure_bind,
                Prog.bind_ok (onMem_ok (k := k.withEmbryo kstack pid tid) copied)]
              have parent : ((k.withEmbryo kstack pid tid).setMem mem').threadTable t = k.threadTable t :=
                Kernel.setThread_ne _ other
              have child : ((k.withEmbryo kstack pid tid).setMem mem').threadTable tid =
                  embryo kstack pid tid := Kernel.setThread_at ..
              have current : ((k.withEmbryo kstack pid tid).setMem mem').cpu = k.cpu := rfl
              have boundPid : pid < NPROCESS := by simp only [NPROCESS] at insidePid ⊢; omega
              have boundTid : ¬ NTHREAD < tid := by omega
              simp only [Prog.get_bind, current, cur.tid, Prog.expect, Prog.pure_bind,
                Prog.bind_ok (threadAt_run cur.bound), parent, tf, firstThread, newProcess,
                List.head?_cons, Prog.bind_ok (threadAt_run insideTid), child, embryo,
                  Prog.modify_bind,
                Prog.bind_ok (putThread_run insideTid _), Prog.bind_ok (putProcess_run boundPid _),
                markThreadsAsRunnable, Prog.each]
              simp [Prog.bind_run, boundTid, threadAt, putThread, insideTid, Kernel.forked,
                Kernel.setThread, Kernel.setProcess, Kernel.setTrapFrame, Kernel.setMem,
                  childThread,
                childProcess, newProcess, embryo, Function.update_idem]

/-- The context that starts a prepared image. -/
def startContext (context : Context) (prepared : Exec) : Context :=
  { context with
    rsp3 := prepared.userSp
    userRip := prepared.entry
    userRdi := prepared.argc
    userRsi := prepared.argvUserPtr }

/-- The kernel after `commit_exec`. -/
def Kernel.committed (k : Kernel) (t i : Nat) (p : Process) (tf : Nat) (prepared : Exec) : Kernel :=
  let k₁ := k.setProcess i (some { p with
    pageTable := some prepared.pageTable, heapSize := prepared.heapSize })
  let k₂ := k₁.setThread t { k.threadTable t with
    context := startContext (k.threadTable t).context prepared }
  let k₃ := k₂.setTrapFrame tf { k.trapFrames tf with
    rax := 0, rdi := prepared.argc, rsi := prepared.argvUserPtr, rcx := prepared.entry }
  (k₃.setCpu { k.cpu with savedUserRsp := prepared.userSp }).setCr3 prepared.pageTable

theorem Kernel.committed_thread (k : Kernel) (t i : Nat) (p : Process) (tf : Nat)
    (prepared : Exec) :
    (k.committed t i p tf prepared).threadTable t = { k.threadTable t with
      context := startContext (k.threadTable t).context prepared } := Function.update_self ..

theorem Kernel.committed_ne {u : Nat} (k : Kernel) (i : Nat) (p : Process) (tf : Nat)
    (prepared : Exec) (other : u ≠ t) :
    (k.committed t i p tf prepared).threadTable u = k.threadTable u :=
    Function.update_of_ne other ..

/-- Once an image is prepared, the commit goes through. -/
theorem commitExec_run {tf : Nat} (cur : Current k t i p) (frame : (k.threadTable t).tf = some tf)
    (prepared : Exec) : commitExec prepared k = .ok () (k.committed t i p tf prepared) := by
  have process : k.process? i = some p := by rw [Kernel.process?, if_pos cur.inside, cur.entry]
  have thread : k.thread? t = some (k.threadTable t) := if_pos cur.bound
  have frame' : (.okOr "exec: no trapframe" (k.threadTable t).tf : Prog Kernel Nat) = pure tf := by
    rw [frame, Prog.okOr_some]
  have applied : applyExec i t prepared k = .ok () (k.committed t i p tf prepared) := by
    rw [applyExec, Prog.get_bind, process, thread]
    simp only [frame', Prog.okOr_some, Prog.pure_bind, Prog.bind_ok (putProcess_run cur.inside _),
      Prog.bind_ok (putThread_run cur.bound _), Prog.modify_bind]
    rfl
  simp only [commitExec, Prog.get_bind, cur.tid, Prog.okOr, Prog.pure_bind,
    Prog.bind_ok cur.currentPid_run, process, thread, frame]
  rw [Prog.bind_run, Prog.attempt, applied]
  rfl

/-- `exec` fails before it changes the caller, or puts a prepared image in place. -/
theorem exec_run {cfg : Config} {tf : Nat} (cur : Current k t i p)
    (frame : (k.threadTable t).tf = some tf)
    (path : List UInt8) (argv : List (List UInt8)) :
    exec cfg path argv k = match cfg.lookup path with
      | none => .err "exec: program not found" k
      | some image => match prepareExecImage cfg.mapper image argv k.mem with
        | .ok prepared mem' => .ok () ((k.setMem mem').committed t i p tf prepared)
        | .err message mem' => .err message (k.setMem mem')
        | .panic message => .panic message := by
  rw [exec]
  cases cfg.lookup path with
  | none => rfl
  | some image =>
      simp only [Prog.okOr, Prog.pure_bind]
      cases prepared : prepareExecImage cfg.mapper image argv k.mem with
      | err message mem' => exact Prog.bind_err (onMem_err prepared)
      | panic message => rw [Prog.bind_run, onMem_panic prepared]
      | ok r mem' =>
          rw [Prog.bind_ok (onMem_ok prepared)]
          exact commitExec_run (k := k.setMem mem')
            ⟨cur.tid, cur.bound, cur.pid, cur.inside, cur.entry⟩ frame r

/-- The kernel after the process `c` was released. -/
def Kernel.released (k : Kernel) (c : Process) (tid : Nat) (mem' : MemState) : Kernel :=
  let kernelStacks := if (k.threadTable tid).kstack ≠ 0
    then k.kernelStacks.erase ((k.threadTable tid).kstack - STACK_SIZE) else k.kernelStacks
  (((Kernel.setThread { k with kernelStacks } tid .new).setMem mem').setProcess c.pid (some .new))

theorem Kernel.released_at (k : Kernel) (c : Process) (tid : Nat) (mem' : MemState) :
    (k.released c tid mem').threadTable tid = .new := Function.update_self ..

theorem Kernel.released_ne {u tid : Nat} (k : Kernel) (c : Process) (mem' : MemState)
    (other : u ≠ tid) :
    (k.released c tid mem').threadTable u = k.threadTable u := Function.update_of_ne other ..

/-- Releasing a process whose thread and address space are its own. -/
theorem freeProcess_run {c : Process} {tid : Nat} {f : PhysFrame} {mem' : MemState}
    (threads : c.threads = [tid]) (bound : tid < NTHREAD)
    (owner : (k.threadTable tid).pid = some c.pid)
    (inside : c.pid < NPROCESS) (table : c.pageTable = some f) (inactive : k.mem.cr3 ≠ f)
    (freed : freeUvm f k.mem = .ok () mem') : freeProcess c k = .ok () (k.released c tid mem') := by
  have first : Prog.each c.threads (freeThread c) k = .ok () (Kernel.setThread { k with
      kernelStacks := if (k.threadTable tid).kstack ≠ 0
        then k.kernelStacks.erase
          ((k.threadTable tid).kstack - STACK_SIZE) else k.kernelStacks } tid .new) := by
    simp only [threads, Prog.each, freeThread, not_le.mpr bound, if_false]
    rw [Prog.bind_run, Prog.bind_ok (threadAt_run bound)]
    by_cases stack : (k.threadTable tid).kstack = 0
    · simp [owner, stack, Prog.bind_run, putThread, threadAt, bound]
    · simp [owner, stack, Prog.bind_run, putThread, threadAt, bound]
  rw [freeProcess, Prog.bind_ok first, table]
  generalize threadsFreed : Kernel.setThread { k with kernelStacks := _ } tid .new = k₁
  have sameMem : k₁.mem = k.mem := by
    rw [← threadsFreed]
    rfl
  rw [← sameMem] at inactive freed
  simp only [Prog.get_bind]
  rw [if_neg inactive, Prog.bind_ok (onMem_ok freed), putProcess_run inside, ← threadsFreed]
  rfl

/-- A round of `wait` reaps a zombie child. -/
theorem waitRound_reaps {caller c : Process} {j tid : Nat} {f : PhysFrame} {mem' : MemState}
    (found : zombieChild caller.pid k = some j) (entry : k.processTable j = some c)
    (place : c.pid = j)
    (threads : c.threads = [tid]) (bound : tid < NTHREAD)
    (owner : (k.threadTable tid).pid = some c.pid)
    (table : c.pageTable = some f) (inactive : k.mem.cr3 ≠ f)
    (freed : freeUvm f k.mem = .ok () mem') :
    waitRound caller k = .ok (some (c.pid, c.exitStatus)) (k.released c tid mem') := by
  have inside : j < NPROCESS := by
    have member := List.mem_range.mp (List.mem_of_find?_eq_some found)
    simp only [NPROCESS] at member ⊢
    omega
  have run : freeProcess c (k.setProcess j none) = .ok ()
    ((k.setProcess j none).released c tid mem') :=
    freeProcess_run threads bound owner (place ▸ inside) table inactive freed
  have same : (k.setProcess j none).released c tid mem' = k.released c tid mem' := by
    simp only [Kernel.released, Kernel.setProcess, Kernel.setThread, Kernel.setMem, place,
      Function.update_idem]
    rfl
  rw [waitRound, Prog.get_bind, found]
  simp only [Prog.bind_ok (processAt_run inside), entry, Prog.expect, Prog.pure_bind,
    Prog.bind_ok (putProcess_run inside _), Prog.bind_ok run, Prog.pure_run, same]

/-- Without a zombie child, a round of `wait` changes nothing. -/
theorem waitRound_waits {caller : Process} (none_found : zombieChild caller.pid k = none) :
    waitRound caller k = if !havekids caller.pid k then .err "no child process" k
      else if caller.killed then .err "this process has killed" k else .ok none k := by
  rw [waitRound, Prog.get_bind, none_found]
  split
  · simp_all
  · split <;> simp_all

end FerriOS.System
