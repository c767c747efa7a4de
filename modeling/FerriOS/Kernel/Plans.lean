import FerriOS.Kernel.Runs
import FerriOS.Exec.Bare
import FerriOS.Memory.MapTo

/-! # Plans

An abstract system of processes that all run a program without segments. Thread
`t` belongs to process `t`, and a process is its state, its killed flag and its
parent. Every plan of moves of this system is taken by the machine, so a state
that a plan comes to shows what the machine can come to.
-/

namespace FerriOS.System

open FerriOS.Lib FerriOS.Memory FerriOS.Loader

/-- What a thread that was switched away from goes on with. -/
inductive Rest where
  | user
  | waits
  | exited
  deriving DecidableEq

/-- A process, as the plans see it. -/
structure Member where
  state : ProcessState
  killed : Bool
  ppid : Option Nat
  deriving DecidableEq

/-- A state of the system: process and thread `i` are the entries `i` of its lists. -/
structure Scene where
  pc : Pc
  current : Option Nat
  /-- The scheduler has switched to a thread before. -/
  started : Bool
  states : List ThreadState
  members : List Member
  rests : List Rest
  /-- The number of frames that are left. -/
  frames : Nat
  deriving DecidableEq

namespace Scene

/-- The next runnable thread after the current one. -/
def nextThread (v : Scene) : Option Nat :=
  ((List.range NTHREAD).map fun i => (v.current.getD (NTHREAD - 1) + (i + 1)) % NTHREAD).find?
    fun tid =>
    v.states.getD tid .unused == .runnable

/-- The states of the threads when the scheduler has chosen `next`. -/
def marked (v : Scene) (next : Nat) : List ThreadState :=
  let states := v.states.set next .running
  match v.current with
  | none => states
  | some current => if states.getD current .unused = .running then states.set current .runnable else states

/-- Thread `t` runs its program, and its process was not killed. -/
def acts (v : Scene) (t : Nat) : Bool :=
  v.started && v.states.getD t .unused == .running && v.rests[t]? == some .user &&
    v.members[t]?.any (!·.killed)

end Scene

inductive Move where
  | schedule
  | proceed
  | tick
  | fork
  | exit
  | kill (pid : Nat)
  | wait
  deriving DecidableEq

/-- The event of a move; a `fork` is given a block for the stack of the child. -/
def Move.event (kstack : Nat) : Move → Event
  | .schedule => .schedule
  | .proceed => .proceed
  | .tick => .tick
  | .fork => .call 0 .new (.fork kstack)
  | .exit => .call 0 .new (.exit 0)
  | .kill pid => .call 0 .new (.kill pid)
  | .wait => .call 0 .new .wait

namespace Scene

/-- A move of the thread `t` that runs its program. -/
def act (v : Scene) (t : Nat) : Move → Option Scene
  | .tick => some { v with pc := .scheduler, states := v.states.set t .runnable }
  | .fork =>
      if v.members.length < NPROCESS - 1 ∧ BARE_FRAMES ≤ v.frames then
        some { v with
          states := v.states ++ [.runnable]
          members := v.members ++ [⟨.alive, false, some t⟩]
          rests := v.rests ++ [.user]
          frames := v.frames - BARE_FRAMES }
      else none
  | .exit =>
      if t = INIT_PID then none
      else some { v with
        pc := .scheduler
        states := v.states.set t .zombie
        members := v.members.modify t fun p => { p with state := .zombie }
        rests := v.rests.set t .exited }
  | .kill pid =>
      if pid < v.members.length ∧ pid ≠ t then
        some { v with members := v.members.modify pid fun p => { p with killed := true } }
      else none
  | .wait =>
      if v.members.any (·.ppid == some t) && v.members.all fun p => p.ppid != some t || p.state != .zombie then
        some { v with pc := .scheduler, rests := v.rests.set t .waits }
      else none
  | _ => none

def next (v : Scene) (move : Move) : Option Scene :=
  match v.pc with
  | .scheduler =>
      if move = .schedule then
        v.nextThread.map fun t =>
          { v with pc := .kernel t, current := some t, started := true, states := v.marked t }
      else none
  | .kernel t => if move = .proceed ∧ v.rests[t]? = some .user then some { v with pc := .user t } else none
  | .user t => if v.acts t then v.act t move else none
  | .stopped _ => none

/-- The state after a plan, where every move of it can be made. -/
def follow : Scene → List Move → Option Scene
  | v, [] => some v
  | v, move :: plan => (v.next move).bind (follow · plan)

/-- The scenes of a plan, each with the move that is made there. -/
def visits : Scene → List Move → List (Scene × Move)
  | _, [] => []
  | v, move :: plan => (v, move) :: (v.next move).elim [] (visits · plan)

end Scene

variable {cfg : Config} {m m' : Machine} {v v' : Scene} {t i n : Nat} {p : Process}

def Process.member (p : Process) : Member := ⟨p.state, p.killed, p.ppid⟩

/-- The thread goes on as the plan says. -/
def GoesOn (m : Machine) (t : Nat) : Rest → Prop
  | .user => m.continuation t = .toUser
  | .waits => ∃ c r, m.continuation t = .wait c r
  | .exited => True

/-- A state of the machine that looks like the scene. -/
structure Shows (cfg : Config) (m : Machine) (v : Scene) : Prop where
  reached : Reachable cfg m
  pc : m.pc = v.pc
  current : m.kernel.cpu.currentTid = v.current
  started : v.started = true → m.kernel.cpu.scheduler.rip = .schedulerLoop
  states : ∀ t, (m.kernel.threadTable t).state = v.states.getD t .unused
  owner : ∀ t < v.states.length, (m.kernel.threadTable t).pid = some t
  members : ∀ i, (m.kernel.processTable i).map Process.member = v.members[i]?
  live : ∀ i p, m.kernel.processTable i = some p → p.live = true
  rests : ∀ t rest, v.rests[t]? = some rest → GoesOn m t rest
  length : v.states.length = v.members.length ∧ v.rests.length = v.members.length
  /-- Every process has the address space of a program without segments. -/
  space : ∀ i p f, m.kernel.processTable i = some p → p.pageTable = some f →
    treeRoutes m.kernel.mem.ram 4 f = bareRoutes
  frames : Multiset.card m.kernel.mem.available = v.frames

theorem Scene.next_user {move : Move} (here : v.pc = .user t) (taken : v.next move = some v') :
    v.acts t = true ∧ v.act t move = some v' := by
  simpa only [Scene.next, here, Option.ite_none_right_eq_some] using taken

theorem setState_states {k : Kernel} {states : List ThreadState} (state : ThreadState)
    (same : ∀ t, (k.threadTable t).state = states.getD t .unused) (inside : n < states.length)
    (t : Nat) :
    ((setState k n state).threadTable t).state = (states.set n state).getD t .unused := by
  rw [List.getD_eq_getElem?_getD, List.getElem?_set]
  by_cases here : t = n
  · subst here
    rw [setState, Kernel.setThread_at, if_pos rfl, if_pos inside, Option.getD_some]
  · rw [setState, Kernel.setThread_ne _ here, if_neg (Ne.symm here), same,
      List.getD_eq_getElem?_getD]

theorem inside_of_state {states : List ThreadState} {state : ThreadState}
    (is : states.getD t .unused = state)
    (used : state ≠ .unused) : t < states.length := by
  by_contra outside
  rw [List.getD_eq_default _ _ (not_lt.mp outside)] at is
  exact used is.symm

theorem set_same {states : List ThreadState} {state : ThreadState}
    (is : states.getD t .unused = state)
    (inside : t < states.length) : states.set t state = states := by
  have there : states[t] = state := by simpa [List.getD_eq_getElem?_getD, inside] using is
  rw [← there, List.set_getElem_self]

theorem set_rest {rests : List Rest} {rest : Rest} (is : rests[t]? = some rest) :
    rests.set t rest = rests := by
  obtain ⟨inside, there⟩ := List.getElem?_eq_some_iff.mp is
  rw [← there, List.set_getElem_self]

theorem calling_threads (m : Machine) (t rsp : Nat) (regs : TrapFrame) : ∃ thread,
    (m.calling t rsp regs).kernel.threadTable = Function.update m.kernel.threadTable t thread ∧
      thread.pid = (m.kernel.threadTable t).pid ∧ thread.state = (m.kernel.threadTable t).state :=
  ⟨_, rfl, rfl, rfl⟩

theorem calling_states (m : Machine) (t u rsp : Nat) (regs : TrapFrame) :
    ((m.calling t rsp regs).kernel.threadTable u).state = (m.kernel.threadTable u).state := by
  obtain ⟨thread, threads, -, same⟩ := calling_threads m t rsp regs
  rw [threads]
  by_cases here : u = t
  · subst here
    rw [Function.update_self, same]
  · rw [Function.update_of_ne here]

/-- What a yield of the thread `t` leaves, apart from its saved context. -/
structure Yielded (m m' : Machine) (t : Nat) (cont : Cont) (state : ThreadState) : Prop where
  pc : m'.pc = .scheduler
  cpu : m'.kernel.cpu = m.kernel.cpu
  processes : m'.kernel.processTable = m.kernel.processTable
  threads : ∃ context, m'.kernel.threadTable = Function.update m.kernel.threadTable t
    { m.kernel.threadTable t with state, context } ∧
    (context.rip = .onYield ∨ context.rip = .onSyscallYield)
  ram : m'.kernel.mem.ram = m.kernel.mem.ram
  allocator : m'.kernel.mem.frameAllocator = m.kernel.mem.frameAllocator
  stack : m'.stack = Function.update m.stack t cont

theorem Yielded.continuation {cont : Cont} {state : ThreadState}
    (yielded : Yielded m m' t cont state) :
    m'.continuation t = cont := by
  obtain ⟨context, threads, rip⟩ := yielded.threads
  rw [Machine.continuation, threads, Function.update_self, yielded.stack, Function.update_self]
  rcases rip with rip | rip <;> simp only [rip]

theorem toScheduler_run (loop : m.kernel.cpu.scheduler.rip = .schedulerLoop) :
    m.toScheduler = { m with pc := .scheduler } := if_pos loop

theorem onYield_yielded (cont : Cont) (current : m.kernel.cpu.currentTid = some t)
    (running : (m.kernel.threadTable t).state = .running)
    (loop : m.kernel.cpu.scheduler.rip = .schedulerLoop) :
    Yielded m (m.onYield cont) t cont .runnable := by
  have cpu : (m.setKernel (m.kernel.setCr3 m.kernel.kernelPageTableFrame)).kernel.cpu = m.kernel.cpu := rfl
  have table : (m.setKernel (m.kernel.setCr3 m.kernel.kernelPageTableFrame)).kernel.threadTable =
    m.kernel.threadTable := rfl
  rw [Machine.onYield]
  simp only [cpu, current, table, running, ne_eq, not_true_eq_false, if_false]
  rw [toScheduler_run (by exact loop)]
  refine ⟨rfl, rfl, rfl, ⟨{ (m.kernel.threadTable t).context with rip := .onYield }, ?_, .inl rfl⟩,
    rfl, rfl, rfl⟩
  simp only [Machine.save, Machine.setKernel, setState, Kernel.setThread, Kernel.setCr3,
    Kernel.setMem,
    Function.update_idem, Function.update_self]

theorem onSyscallYield_yielded (cont : Cont) (current : m.kernel.cpu.currentTid = some t)
    (loop : m.kernel.cpu.scheduler.rip = .schedulerLoop) :
    Yielded m (m.onSyscallYield cont) t cont (m.kernel.threadTable t).state := by
  have cpu : (m.setKernel (m.kernel.setCr3 m.kernel.kernelPageTableFrame)).kernel.cpu = m.kernel.cpu := rfl
  rw [Machine.onSyscallYield]
  simp only [cpu, current]
  rw [toScheduler_run (by exact loop)]
  refine ⟨rfl, rfl, rfl, ⟨{ (m.kernel.threadTable t).context with
    rip := .onSyscallYield, rsp3 := m.kernel.cpu.savedUserRsp }, ?_, .inr rfl⟩, rfl, rfl, rfl⟩
  simp only [Machine.save, Machine.swapgs, Machine.setKernel, Kernel.setThread, Kernel.setCr3,
    Kernel.setMem,
    Function.update_idem, Function.update_self]

theorem finish_run (what : Call) (r : Nat) (reply : Reply) (cur : Current m.kernel t i p)
    (spared : p.killed = false) :
    (m.finish t what r reply).kernel = m.kernel ∧ (m.finish t what r reply).pc = .user t ∧
      (m.finish t what r reply).stack = Function.update m.stack t .toUser ∧
      ∃ new, (m.finish t what r reply).history = new ++ m.history := by
  rw [Machine.finish, cur.unlessKilled_run rfl, if_neg (by simp [spared])]
  exact ⟨rfl, rfl, rfl, [_, _], rfl⟩

theorem InUser.call_step (user : InUser cfg m t) (serves : Serves m t i p)
    (spared : p.killed = false) (pc : m.pc = .user t) (what : Call) :
    step cfg m (.call 0 .new what) = some ((m.calling t 0 .new).dispatch cfg t 0 what) := by
  simp only [step, pc, Machine.syscall]
  rw [(user.serves_entered 0 .new serves).toCurrent.unlessKilled_run rfl, if_neg (by simp [spared])]
  rfl

namespace Shows

variable (shown : Shows cfg m v)

include shown

theorem size {f : PhysFrame} (entry : m.kernel.processTable i = some p)
    (table : p.pageTable = some f) :
    Multiset.card (userFrames m.kernel.mem.ram f) = BARE_FRAMES := by
  rw [← card_treeRoutes, shown.space i p f entry table, bareRoutes_card]

theorem nextThread : findNextRunnableThread m.kernel = v.nextThread := by
  simp only [findNextRunnableThread, Scene.nextThread, shown.current, shown.states]

theorem marked (runnable : v.states.getD n .unused = .runnable) (t : Nat) :
    ((markNext m.kernel n).threadTable t).state = (v.marked n).getD t .unused := by
  have chosen := setState_states .running shown.states
    (inside_of_state runnable fun is => by cases is)
  have cpu : (setState m.kernel n .running).cpu.currentTid = v.current := shown.current
  rw [markNext, Scene.marked, cpu]
  cases v.current with
  | none => exact chosen t
  | some current =>
      simp only [chosen]
      split
      case isTrue running =>
        exact setState_states _ chosen (inside_of_state running fun is => by cases is) t
      case isFalse => exact chosen t

/-- The scheduler switches to the thread that the plan names. -/
theorem schedule (lower : cfg.LowerHalf) (here : v.pc = .scheduler)
    (found : v.nextThread = some n) :
    ∃ m', step cfg m .schedule = some m' ∧ Shows cfg m' { v with pc := .kernel n, current := some n, started := true, states := v.marked n } := by
  obtain ⟨kept, -⟩ := shown.reached.inv lower
  have found' := shown.nextThread.trans found
  obtain ⟨bound, runnable⟩ := findNextRunnableThread_spec found'
  obtain ⟨pageTable, run, -⟩ := prepareSwitch_run runnable kept.alone kept.coherent
  have pc := shown.pc.trans here
  have taken : step cfg m .schedule = some ((m.setKernel
    (m.kernel.switched n pageTable)).switchTo n) := by
    simp only [step, pc, if_true, Machine.schedule, found', run]
  have runnable' := (shown.states n).symm.trans runnable
  have length : (v.marked n).length = v.states.length := by
    rw [Scene.marked]
    cases v.current with
    | none => simp
    | some current =>
        dsimp only
        split <;> simp
  have thread : ∀ t, ∃ state, (markNext m.kernel n).threadTable t = { m.kernel.threadTable t with state } := fun t =>
    (markNext_threads runnable kept.alone t).imp fun _ same => same.1
  have rest : (m.kernel.switched n pageTable).processTable = m.kernel.processTable := by
    rw [Kernel.switched, markNext_rest]
    rfl
  have mem : (m.kernel.switched n pageTable).mem = { m.kernel.mem with cr3 := pageTable } := by
    rw [Kernel.switched, markNext_rest]
    rfl
  refine ⟨_, taken, shown.reached.step taken, rfl, rfl, fun _ => rfl, shown.marked runnable',
    fun t inside => ?_,
    fun i => ?_, fun i p entry => ?_, fun t r is => ?_, ?_, fun i p f entry table => ?_, ?_⟩
  · obtain ⟨state, same⟩ := thread t
    exact (congrArg Thread.pid same).trans (shown.owner t (length ▸ inside))
  · exact (congrArg (fun table => (table i).map Process.member) rest).trans (shown.members i)
  · exact shown.live i p ((congrFun rest i).symm.trans entry)
  · obtain ⟨state, same⟩ := thread t
    have goes := shown.rests t r is
    have continuation : ((m.setKernel
      (m.kernel.switched n pageTable)).switchTo n).continuation t = m.continuation t := by
      have rip : (((m.setKernel
        (m.kernel.switched n pageTable)).switchTo n).kernel.threadTable t).context.rip =
          (m.kernel.threadTable t).context.rip := congrArg (fun x => x.context.rip) same
      rw [Machine.continuation, Machine.continuation, rip]
      rfl
    cases r with
    | user => exact continuation.trans goes
    | waits => exact goes.imp fun c same => same.imp fun r same => continuation.trans same
    | exited => trivial
  · exact ⟨length.trans shown.length.1, shown.length.2⟩
  · have ram := congrArg MemState.ram mem
    exact (congrArg (fun ram => treeRoutes ram 4 f) ram).trans
      (shown.space i p f ((congrFun rest i).symm.trans entry) table)
  · exact (congrArg (fun mem => Multiset.card mem.available) mem).trans shown.frames

theorem proceed (here : v.pc = .kernel n) (rest : v.rests[n]? = some .user) :
    ∃ m', step cfg m .proceed = some m' ∧ Shows cfg m' { v with pc := .user n } := by
  have back : m.continuation n = .toUser := shown.rests n .user rest
  have taken : step cfg m .proceed = some { m with pc := .user n } := by
    simp only [step, shown.pc.trans here, Machine.proceed, back]
  exact ⟨_, taken, shown.reached.step taken, rfl, shown.current, shown.started, shown.states,
    shown.owner,
    shown.members, shown.live, shown.rests, shown.length, shown.space, shown.frames⟩

/-- A change of the current thread, its process, and what it goes on with. -/
theorem change {pc : Pc} {thread : Thread} {members : List Member} {cont : Cont} (rest : Rest)
    (reached : Reachable cfg m') (pc' : m'.pc = pc)
    (current : m'.kernel.cpu.currentTid = m.kernel.cpu.currentTid)
    (loop : m'.kernel.cpu.scheduler = m.kernel.cpu.scheduler)
    (threads : m'.kernel.threadTable = Function.update m.kernel.threadTable t thread)
    (pid : thread.pid = some t)
    (inside : t < v.states.length)
    (entries : ∀ i, (m'.kernel.processTable i).map Process.member = members[i]?)
    (tables : ∀ i p, m'.kernel.processTable i = some p → p.live = true ∧
      ∃ q, m.kernel.processTable i = some q ∧ q.pageTable = p.pageTable)
    (ram : m'.kernel.mem.ram = m.kernel.mem.ram)
    (allocator : m'.kernel.mem.frameAllocator = m.kernel.mem.frameAllocator)
    (stack : m'.stack = Function.update m.stack t cont) (goes : GoesOn m' t rest)
    (length : members.length = v.members.length) :
    Shows cfg m' { v with pc, states := v.states.set t thread.state, members, rests := v.rests.set t rest } where
  reached := reached
  pc := pc'
  current := current.trans shown.current
  started was := (congrArg Context.rip loop).trans (shown.started was)
  states u := by
    rw [threads, List.getD_eq_getElem?_getD, List.getElem?_set]
    by_cases here : u = t
    · subst here
      rw [Function.update_self, if_pos rfl, if_pos inside, Option.getD_some]
    · rw [Function.update_of_ne here, if_neg (Ne.symm here), shown.states,
        List.getD_eq_getElem?_getD]
  owner u bound := by
    rw [threads]
    by_cases here : u = t
    · subst here
      rw [Function.update_self, pid]
    · rw [Function.update_of_ne here]
      exact shown.owner u (by simpa using bound)
  members := entries
  live i p entry := (tables i p entry).1
  rests u r is := by
    rw [List.getElem?_set] at is
    by_cases here : u = t
    · subst here
      rw [if_pos rfl] at is
      split at is
      · exact Option.some.inj is ▸ goes
      · cases is
    · rw [if_neg (Ne.symm here)] at is
      have same : m'.continuation u = m.continuation u :=
        continuation_congr (by rw [threads, Function.update_of_ne here])
          (by rw [stack, Function.update_of_ne here])
      have goes := shown.rests u r is
      cases r with
      | user => exact same.trans goes
      | waits => exact goes.imp fun c goes => goes.imp fun r goes => same.trans goes
      | exited => trivial
  length := by simp only [List.length_set, length, shown.length, and_self]
  space i p f entry table := by
    obtain ⟨-, q, old, same⟩ := tables i p entry
    rw [ram]
    exact shown.space i q f old (same.trans table)
  frames := by
    rw [MemState.available, allocator]
    exact shown.frames

/-- What is known of a thread that runs its program. -/
theorem running (lower : cfg.LowerHalf) (here : v.pc = .user t) (acts : v.acts t = true) :
    InUser cfg m t ∧ m.kernel.cpu.scheduler.rip = .schedulerLoop ∧
      (m.kernel.threadTable t).state = .running ∧
      t < v.states.length ∧ v.states.getD t .unused = .running ∧ v.rests[t]? = some .user ∧
      ∃ p, Serves m t t p ∧ p.killed = false ∧ v.members[t]? = some p.member := by
  simp only [Scene.acts, Bool.and_eq_true, beq_iff_eq, Option.any_eq_true] at acts
  obtain ⟨⟨⟨started, state⟩, rest⟩, member, entry, spared⟩ := acts
  have user := (shown.reached.inv lower).user (shown.pc.trans here)
  have inside := inside_of_state state (fun is => nomatch is)
  obtain ⟨i, p, serves⟩ := user.serves
  obtain rfl : t = i := Option.some.inj ((shown.owner t inside).symm.trans serves.pid)
  have same : some p.member = some member := by
    rw [← entry, ← shown.members, serves.entry, Option.map_some]
  refine ⟨user, shown.started started, (shown.states t).trans state, inside, state, rest, p,
    serves, ?_, ?_⟩
  · have killed := congrArg Member.killed (Option.some.inj same)
    simpa [← killed, Process.member] using spared
  · rw [entry, same]

/-- A tick takes the thread off the CPU. -/
theorem tick (lower : cfg.LowerHalf) (here : v.pc = .user t) (acts : v.acts t = true) :
    ∃ m', step cfg m .tick = some m' ∧
    Shows cfg m' { v with pc := .scheduler, states := v.states.set t .runnable } := by
  obtain ⟨user, loop, running, inside, -, rest, p, serves, spared, -⟩ :=
    shown.running lower here acts
  have taken : step cfg m .tick = some (m.onYield .toUser) := by
    simp only [step, shown.pc.trans here, Machine.userTick]
    rw [serves.toCurrent.unlessKilled_run rfl, if_neg (by simp [spared])]
  have yielded := onYield_yielded .toUser serves.tid running loop
  obtain ⟨context, threads, -⟩ := yielded.threads
  have after := shown.change .user (shown.reached.step taken) yielded.pc (by rw [yielded.cpu])
    (by rw [yielded.cpu]) threads serves.pid inside (fun i => by rw [yielded.processes]; exact shown.members i)
    (fun i p entry => ?_) yielded.ram yielded.allocator yielded.stack yielded.continuation rfl
  · rw [set_rest rest] at after
    exact ⟨_, taken, after⟩
  · rw [yielded.processes] at entry
    exact ⟨shown.live i p entry, p, entry, rfl⟩

theorem call_step (lower : cfg.LowerHalf) (here : v.pc = .user t) (acts : v.acts t = true)
    (what : Call) :
    step cfg m (.call 0 .new what) = some ((m.calling t 0 .new).dispatch cfg t 0 what) := by
  obtain ⟨user, -, -, -, -, -, p, serves, spared, -⟩ := shown.running lower here acts
  exact user.call_step serves spared (shown.pc.trans here) what

theorem call (lower : cfg.LowerHalf) (here : v.pc = .user t) (acts : v.acts t = true)
    (what : Call) :
    Reachable cfg ((m.calling t 0 .new).dispatch cfg t 0 what) :=
  shown.reached.step (shown.call_step lower here acts what)

/-- A yield inside a call, after the call has changed the current process. -/
theorem yields {m₁ : Machine} {thread : Thread} {members : List Member} {cont : Cont}
    {state : ThreadState} (rest : Rest) (reached : Reachable cfg m')
    (yielded : Yielded m₁ m' t cont state)
    (threads : m₁.kernel.threadTable = Function.update m.kernel.threadTable t thread)
    (pid : thread.pid = some t)
    (inside : t < v.states.length) (current : m₁.kernel.cpu.currentTid = m.kernel.cpu.currentTid)
    (loop : m₁.kernel.cpu.scheduler = m.kernel.cpu.scheduler)
    (entries : ∀ i, (m₁.kernel.processTable i).map Process.member = members[i]?)
    (tables : ∀ i p, m₁.kernel.processTable i = some p → p.live = true ∧
      ∃ q, m.kernel.processTable i = some q ∧ q.pageTable = p.pageTable)
    (mem : m₁.kernel.mem = m.kernel.mem) (stack : m₁.stack = m.stack)
    (goes : m'.continuation t = cont → GoesOn m' t rest)
    (length : members.length = v.members.length) :
    Shows cfg m' { v with pc := .scheduler, states := v.states.set t state, members, rests := v.rests.set t rest } := by
  obtain ⟨context, saved, -⟩ := yielded.threads
  have table : m'.kernel.threadTable = Function.update m.kernel.threadTable t
    { thread with state, context } := by
    rw [saved, threads, Function.update_self, Function.update_idem]
  exact shown.change rest reached yielded.pc (by rw [yielded.cpu, current])
    (by rw [yielded.cpu, loop]) table pid inside
    (fun i => by rw [yielded.processes]; exact entries i)
    (fun i p entry => tables i p (by rw [← entry, yielded.processes]))
    (by rw [yielded.ram, mem]) (by rw [yielded.allocator, mem]) (by rw [yielded.stack, stack])
    (goes yielded.continuation) length

theorem modified {f : Member → Member} {q p : Process} (old : m.kernel.processTable i = some q)
    (same : p.member = f q.member) (j : Nat) :
    (Function.update m.kernel.processTable i
    (some p) j).map Process.member = (v.members.modify i f)[j]? := by
  rw [List.getElem?_modify, ← shown.members]
  by_cases here : j = i
  · subst here
    simp [old, same]
  · simp [Function.update_of_ne here, Ne.symm here]

theorem modified_tables {q p : Process} (old : m.kernel.processTable i = some q)
    (live : p.live = true)
    (table : q.pageTable = p.pageTable) (j : Nat) (c : Process)
    (entry : Function.update m.kernel.processTable i (some p) j = some c) :
    c.live = true ∧ ∃ q, m.kernel.processTable j = some q ∧ q.pageTable = c.pageTable := by
  by_cases here : j = i
  · subst here
    rw [Function.update_self, Option.some.injEq] at entry
    subst entry
    exact ⟨live, q, old, table⟩
  · rw [Function.update_of_ne here] at entry
    exact ⟨shown.live j c entry, c, entry, rfl⟩

/-- The thread exits. -/
theorem exit (lower : cfg.LowerHalf) (here : v.pc = .user t) (acts : v.acts t = true)
    (notInit : t ≠ INIT_PID) :
    ∃ m', step cfg m (.call 0 .new (.exit 0)) = some m' ∧ Shows cfg m' { v with
      pc := .scheduler
      states := v.states.set t .zombie
      members := v.members.modify t fun p => { p with state := .zombie }
      rests := v.rests.set t .exited } := by
  obtain ⟨user, loop, running, inside, -, rest, p, serves, spared, entry⟩ :=
    shown.running lower here acts
  have taken := shown.call_step lower here acts (.exit 0)
  have serves' := user.serves_calling 0 .new serves
  obtain ⟨m₁, shape⟩ : ∃ m₁, m₁ = ((m.calling t 0 .new).setKernel
      (((m.calling t 0 .new).kernel.setProcess t
        (some { p with state := .zombie, exitStatus := 0 })).setThread t
        { (m.calling t 0 .new).kernel.threadTable t with state := .zombie })).record
          (.exited (m.calling t 0 .new).pid 0 false) := ⟨_, rfl⟩
  have run : (m.calling t 0 .new).dispatch cfg t 0 (.exit 0) = m₁.onSyscallYield .exited := by
    rw [Machine.dispatch, Machine.sysExit, exit_run serves'.toCurrent notInit serves'.owns.threads
      serves'.whole.pid, shape]
  obtain ⟨thread, threads, pid, state⟩ :
    ∃ thread, m₁.kernel.threadTable = Function.update m.kernel.threadTable t thread ∧
      thread.pid = some t ∧ thread.state = .zombie := by
    refine ⟨{ (m.calling t 0 .new).kernel.threadTable t with state := .zombie }, ?_, serves'.pid,
      rfl⟩
    rw [shape]
    exact Function.update_idem ..
  have yielded := onSyscallYield_yielded (m := m₁) (t := t) .exited
    (by rw [shape]; exact serves.tid)
    (by rw [shape]; exact loop)
  rw [threads, Function.update_self, state] at yielded
  rw [run] at taken
  have reached := shown.reached.step taken
  refine ⟨_, taken, shown.yields .exited reached yielded threads pid inside (by rw [shape]; rfl)
    (by rw [shape]; rfl)
    (fun j => ?_) (fun j c entry' => ?_) (by rw [shape]; rfl) (by rw [shape]; rfl) (fun _ => trivial) (by simp)⟩
  · rw [shape]
    exact shown.modified serves.entry rfl j
  · rw [shape] at entry'
    exact shown.modified_tables
      (p := { p with state := .zombie, exitStatus := 0 }) serves.entry rfl rfl j c entry'

theorem entry_of (inside : i < v.members.length) : ∃ q, m.kernel.processTable i = some q := by
  have there := shown.members i
  rw [List.getElem?_eq_getElem inside] at there
  exact (Option.map_eq_some_iff.mp there).imp fun _ is => is.1

theorem member_of {q : Process} (entry : m.kernel.processTable i = some q) :
    q.member ∈ v.members := by
  have there := shown.members i
  rw [entry, Option.map_some] at there
  exact List.mem_of_getElem? there.symm

theorem zombieChild (idle : v.members.all
    (fun p => p.ppid != some t || p.state != .zombie) = true) :
    zombieChild t m.kernel = none := by
  refine List.find?_range_eq_none.mpr fun i _ => ?_
  cases entry : m.kernel.processTable i with
  | none => rfl
  | some q =>
      have here := List.all_eq_true.mp idle q.member (shown.member_of entry)
      simp only [Process.member] at here
      simp only [isChild, isZombie, Option.any_some]
      grind

theorem zombieChild_eq (first : (List.range (NPROCESS - 1)).find?
    (fun i => v.members[i]?.any fun p =>
    p.ppid == some t && p.state == .zombie) = some i) : System.zombieChild t m.kernel = some i := by
  rw [← first, System.zombieChild]
  refine congrArg (List.find? · _) (funext fun j => ?_)
  rw [← shown.members, isChild, isZombie]
  cases m.kernel.processTable j <;> rfl

theorem havekids (lower : cfg.LowerHalf) (kids : v.members.any (·.ppid == some t) = true) :
    havekids t m.kernel = true := by
  obtain ⟨member, inside, parent⟩ := List.any_eq_true.mp kids
  obtain ⟨j, there⟩ := List.getElem?_of_mem inside
  rw [← shown.members] at there
  obtain ⟨q, entry, rfl⟩ := Option.map_eq_some_iff.mp there
  have whole := (shown.reached.inv lower).1.coherent.live j q entry (shown.live j q entry)
  refine List.any_eq_true.mpr ⟨j, List.mem_range.mpr whole.bound, ?_⟩
  rw [isChild, entry, Option.any_some]
  exact parent

/-- The thread waits for a child. -/
theorem wait (lower : cfg.LowerHalf) (here : v.pc = .user t) (acts : v.acts t = true)
    (kids : v.members.any (·.ppid == some t) = true)
    (idle : v.members.all (fun p => p.ppid != some t || p.state != .zombie) = true) :
    ∃ m', step cfg m (.call 0 .new .wait) = some m' ∧
      Shows cfg m' { v with pc := .scheduler, rests := v.rests.set t .waits } := by
  obtain ⟨user, loop, running, inside, state, rest, p, serves, spared, entry⟩ :=
    shown.running lower here acts
  have taken := shown.call_step lower here acts .wait
  have serves' := user.serves_calling 0 .new serves
  have run : (m.calling t 0 .new).dispatch cfg t 0 .wait = (m.calling t 0 .new).onSyscallYield
    (.wait p 0) := by
    have none' : System.zombieChild p.pid (m.calling t 0 .new).kernel = none := by
      rw [serves'.whole.pid]
      exact shown.zombieChild idle
    have some' : System.havekids p.pid (m.calling t 0 .new).kernel = true := by
      rw [serves'.whole.pid]
      exact shown.havekids lower kids
    rw [Machine.dispatch, serves'.toCurrent.currentProcess_run]
    simp only [Machine.waitLoop, waitRound_waits none', some', spared, Bool.not_true,
      Bool.false_eq_true, if_false]
    rfl
  have yielded := onSyscallYield_yielded (m := m.calling t 0 .new) (.wait p 0) serves'.tid loop
  rw [run] at taken
  have reached := shown.reached.step taken
  obtain ⟨thread, threads, pid, same⟩ := calling_threads m t 0 .new
  rw [threads, Function.update_self, same, running] at yielded
  have after := shown.yields .waits reached yielded threads (pid.trans serves.pid) inside rfl rfl
    shown.members (fun j c entry => ⟨shown.live j c entry, c, entry, rfl⟩) rfl rfl (fun goes => ⟨p, 0, goes⟩) rfl
  rw [set_same state inside] at after
  exact ⟨_, taken, after⟩

/-- The thread marks a process. -/
theorem kill (lower : cfg.LowerHalf) (here : v.pc = .user t) (acts : v.acts t = true)
    (target : i < v.members.length) (other : i ≠ t) :
    ∃ m', step cfg m (.call 0 .new (.kill i)) = some m' ∧
      Shows cfg m' { v with members := v.members.modify i fun p => { p with killed := true } } := by
  obtain ⟨user, loop, running, inside, state, rest, p, serves, spared, entry⟩ :=
    shown.running lower here acts
  have taken := shown.call_step lower here acts (.kill i)
  have calling := user.calling 0 .new
  have serves' := user.serves_calling 0 .new serves
  obtain ⟨q, old⟩ := shown.entry_of target
  have body := kill_run calling.kept.coherent (i := i) old (shown.live i q old)
  obtain ⟨m₁, shape⟩ : ∃ m₁, m₁ = (m.calling t 0 .new).setKernel
    ((m.calling t 0 .new).kernel.setProcess i
      (some { q with killed := true })) := ⟨_, rfl⟩
  have run : (m.calling t 0 .new).dispatch cfg t 0 (.kill i) = m₁.finish t (.kill i) 0
    (.value 0) := by
    rw [Machine.dispatch, Prog.bind_ok body, shape]
    rfl
  have cur : Current m₁.kernel t t p := by
    rw [shape]
    exact ⟨serves'.tid, serves'.bound, serves'.pid, serves'.inside,
      (Kernel.setProcess_ne _ other.symm).trans serves'.entry⟩
  obtain ⟨kernel, pc, stack, -⟩ := finish_run (.kill i) 0 (.value 0) cur spared
  rw [run] at taken
  have reached := shown.reached.step taken
  obtain ⟨thread, threads, pid, same⟩ := calling_threads m t 0 .new
  have processes : m₁.kernel.processTable = Function.update m.kernel.processTable i
    (some { q with killed := true }) := by
    rw [shape]
    rfl
  have idle := ((reached.inv lower).user pc).idle
  have after := shown.change .user reached pc (by rw [kernel, shape]; rfl)
    (by rw [kernel, shape]; rfl) (by rw [kernel, shape]; exact threads)
    (pid.trans serves.pid) inside
    (fun j => by rw [kernel, processes]; exact shown.modified (f := fun p => { p with killed := true }) old rfl j)
    (fun j c entry => shown.modified_tables (p := { q with killed := true }) old
    (shown.live i q old) rfl j c
      (by rw [← processes, ← kernel]; exact entry))
    (by rw [kernel, shape]; rfl) (by rw [kernel, shape]; rfl) (by rw [stack, shape]; rfl) idle (by simp)
  rw [same, running, set_same state inside, set_rest rest, ← here] at after
  exact ⟨_, taken, after⟩

/-- A call of `wait` reaps the first zombie child. -/
theorem reaps (lower : cfg.LowerHalf) (here : v.pc = .user t) (acts : v.acts t = true)
    (first : (List.range (NPROCESS - 1)).find? (fun i => v.members[i]?.any fun p =>
      p.ppid == some t && p.state == .zombie) = some i) :
    ∃ status, .reaped t i status ∈ ((m.calling t 0 .new).dispatch cfg t 0 .wait).history := by
  obtain ⟨user, -, -, -, -, -, p, serves, spared, -⟩ := shown.running lower here acts
  have serves' := user.serves_calling 0 .new serves
  have found : System.zombieChild t (m.calling t 0 .new).kernel = some i :=
    shown.zombieChild_eq first
  rw [Machine.dispatch, serves'.toCurrent.currentProcess_run]
  rcases (user.calling 0 .new).inCall.waitLoop_cases (r := 0) serves' serves'.whole.pid spared with
    ⟨none', -⟩ | ⟨none', -⟩ | ⟨j, z, tid, f, mem', child, entry, live, -, -, -, -, serves₂, ends⟩
  · cases none'.symm.trans found
  · cases none'.symm.trans found
  · obtain rfl := Option.some.inj (child.symm.trans found)
    have pid : z.pid = j := (user.kept.coherent.live j z entry live).pid
    obtain ⟨-, -, -, new, history⟩ := finish_run .wait 0 (.reaped z.pid z.exitStatus)
      serves₂.toCurrent spared
    refine ⟨z.exitStatus, ?_⟩
    rw [← pid]
    simp only [ends]
    rw [history]
    exact List.mem_append_right _ List.mem_cons_self

theorem used (lower : cfg.LowerHalf) (inside : i < v.members.length) :
    (m.kernel.threadTable i).state ≠ .unused := by
  obtain ⟨p, entry⟩ := shown.entry_of inside
  obtain ⟨t, owns⟩ := ((shown.reached.inv lower).1.coherent.live i p entry
    (shown.live i p entry)).thread
  have bound : t < v.states.length := by
    by_contra outside
    refine owns.used ?_
    rw [shown.states, List.getD_eq_default _ _ (not_lt.mp outside)]
  obtain rfl : i = t := Option.some.inj (owns.pid.symm.trans (shown.owner t bound))
  exact owns.used

theorem freePid (room : v.members.length < NPROCESS - 1) :
    m.kernel.freePid = some v.members.length := by
  refine List.find?_range_eq_some.mpr ⟨?_, List.mem_range.mpr room, fun j below => ?_⟩
  · have absent := shown.members v.members.length
    rw [List.getElem?_eq_none le_rfl, Option.map_eq_none_iff] at absent
    rw [absent]
    rfl
  · obtain ⟨p, entry⟩ := shown.entry_of below
    rw [entry]
    rfl

theorem freeTid (lower : cfg.LowerHalf) (room : v.members.length < NPROCESS - 1) :
    m.kernel.freeTid = some v.members.length := by
  refine List.find?_range_eq_some.mpr
    ⟨?_, List.mem_range.mpr (by simp only [NPROCESS, NTHREAD] at *; omega),
    fun j below => ?_⟩
  · rw [shown.states, List.getD_eq_default _ _ shown.length.1.le]
    rfl
  · simpa using shown.used lower below

theorem freeTid_calling (lower : cfg.LowerHalf) (room : v.members.length < NPROCESS - 1) :
    (m.calling t 0 .new).kernel.freeTid = some v.members.length := by
  rw [Kernel.freeTid]
  simp only [calling_states]
  exact shown.freeTid lower room

/-- The copy of the address space of the current process has frames enough. -/
theorem copies (serves : Serves m t i p) (kept : Kept cfg m) (enough : BARE_FRAMES ≤ v.frames) :
    ∃ root mem', copyUvm m.kernel.mem.cr3 m.kernel.mem = .ok root mem' ∧
    Built kernelLaw root m.kernel.mem mem' ∧
      treeRoutes mem'.ram 4 root = bareRoutes ∧
      Multiset.card mem'.available = v.frames - BARE_FRAMES := by
  have size := shown.size serves.entry serves.table
  obtain ⟨root, mem', run, built, mirrors⟩ :=
    ((copyUvm_spec kernelLaw_noHuge kept.separate.available_nodup
    (serves.slots kept).linked (serves.frames_apart kept)).mono id (fun _ _ copied => copied)
    fun _ s' fails => by
      have short := fails.2
      rw [size, shown.frames] at short
      omega).total
  have card : Multiset.card (userFrames mem'.ram root) = BARE_FRAMES := mirrors.card.trans size
  have ledger := congrArg Multiset.card built.ledger
  rw [Multiset.card_add, card, shown.frames] at ledger
  exact ⟨root, mem', run, built,
    mirrors.routes.trans (shown.space i p _ serves.entry serves.table), by omega⟩

/-- The call of the thread that makes a child. -/
theorem fork_ok {kstack : Nat} {root : PhysFrame} {mem' : MemState} (lower : cfg.LowerHalf)
    (user : InUser cfg m t) (serves : Serves m t i p) (room : v.members.length < NPROCESS - 1)
    (stack : kstack ≠ 0) (copied : copyUvm m.kernel.mem.cr3 m.kernel.mem = .ok root mem') :
    ∃ parentTf, System.fork kstack (m.calling t 0 .new).kernel = .ok v.members.length
      ((m.calling t 0 .new).kernel.forked kstack v.members.length v.members.length p parentTf root
        mem') := by
  have serves' := user.serves_calling 0 .new serves
  obtain ⟨parentTf, tf⟩ := Option.ne_none_iff_exists'.mp serves'.owns.tf
  have free : (m.calling t 0 .new).kernel.freePid = some v.members.length := shown.freePid room
  have freeT := shown.freeTid_calling (t := t) lower room
  have run := fork_run serves'.toCurrent serves'.table tf serves'.owns.used stack
  have copied' : copyUvm (m.calling t 0 .new).kernel.mem.cr3 (m.calling t 0 .new).kernel.mem =
    .ok root mem' := copied
  simp only [free, freeT, copied'] at run
  exact ⟨parentTf, run⟩

/-- The thread makes a child. -/
theorem fork {kstack : Nat} (lower : cfg.LowerHalf) (here : v.pc = .user t) (acts : v.acts t = true)
    (room : v.members.length < NPROCESS - 1) (enough : BARE_FRAMES ≤ v.frames)
    (stack : kstack ≠ 0) :
    ∃ m', step cfg m (.call 0 .new (.fork kstack)) = some m' ∧ Shows cfg m' { v with
      states := v.states ++ [.runnable]
      members := v.members ++ [⟨.alive, false, some t⟩]
      rests := v.rests ++ [.user]
      frames := v.frames - BARE_FRAMES } := by
  obtain ⟨user, loop, running, inside, state, rest, p, serves, spared, entry⟩ :=
    shown.running lower here acts
  have taken := shown.call_step lower here acts (.fork kstack)
  have calling := user.calling 0 .new
  have serves' := user.serves_calling 0 .new serves
  obtain ⟨root, mem', copied, built, space, frames⟩ := shown.copies serves user.kept enough
  obtain ⟨parentTf, run⟩ := shown.fork_ok lower user serves room stack copied
  obtain ⟨thread, threads, pid, same⟩ := calling_threads m t 0 .new
  obtain ⟨m₁, shape⟩ : ∃ m₁, m₁ = ((m.calling t 0 .new).setKernel
    ((m.calling t 0 .new).kernel.forked kstack
      v.members.length v.members.length p parentTf root mem')).record
        (.forked (m.calling t 0 .new).pid v.members.length) := ⟨_, rfl⟩
  have body : (m.calling t 0 .new).dispatch cfg t 0 (.fork kstack) = m₁.finish t (.fork kstack) 0
    (.value v.members.length) := by
    rw [Machine.dispatch, Machine.forkCall, run, shape]
  have other : t ≠ v.members.length := by
    have := shown.length.1
    omega
  obtain ⟨child, table, ready, owner, rip⟩ : ∃ child : Thread, m₁.kernel.threadTable =
      Function.update (Function.update m.kernel.threadTable t thread) v.members.length child ∧
        child.state = .runnable ∧ child.pid = some v.members.length ∧
          child.context.rip = .forkReturnTrampoline := by
    refine ⟨childThread kstack v.members.length v.members.length
      ((((m.calling t 0 .new).kernel.withEmbryo kstack v.members.length v.members.length).setMem mem').trapFrames parentTf)
      (m.calling t 0 .new).kernel.cpu.savedUserRsp, ?_, rfl, rfl, rfl⟩
    rw [shape, ← threads]
    exact Function.update_idem ..
  have processes : m₁.kernel.processTable = Function.update m.kernel.processTable v.members.length
      (some (childProcess v.members.length v.members.length root p)) := by
    rw [shape]
    rfl
  have mem : m₁.kernel.mem = mem' := by
    rw [shape]
    rfl
  have thread' : m₁.kernel.threadTable t = thread := by
    rw [table, Function.update_of_ne other, Function.update_self]
  have cur : Current m₁.kernel t t p := by
    refine ⟨by rw [shape]; exact serves'.tid, serves.bound, by rw [thread', pid]; exact serves.pid,
      serves.inside, ?_⟩
    rw [processes, Function.update_of_ne other]
    exact serves.entry
  obtain ⟨kernel, pc, conts, -⟩ := finish_run (.fork kstack) 0 (.value v.members.length) cur spared
  rw [body] at taken
  have reached := shown.reached.step taken
  have idle := ((reached.inv lower).user pc).idle
  have whole := shown.length.1
  refine ⟨_, taken, reached, pc.trans here.symm, by rw [kernel, shape]; exact shown.current,
    fun _ => by rw [kernel, shape]; exact loop, fun u => ?_, fun u bound => ?_, fun j => ?_,
      fun j c entry' => ?_,
    fun u r is => ?_, by simp [shown.length], fun j c f entry' tableC =>
      ?_, by rw [kernel, mem, frames]⟩
  · rw [kernel, table, List.getD_eq_getElem?_getD, List.getElem?_append, whole]
    by_cases new : u = v.members.length
    · subst new
      rw [Function.update_self, if_neg (lt_irrefl _), Nat.sub_self, ready]
      rfl
    · rw [Function.update_of_ne new]
      have old : (Function.update m.kernel.threadTable t thread u).state = v.states.getD u .unused := by
        by_cases current : u = t
        · subst current
          rw [Function.update_self, same, shown.states]
        · rw [Function.update_of_ne current, shown.states]
      rw [old, List.getD_eq_getElem?_getD]
      split
      · rfl
      · rw [List.getElem?_eq_none (by omega), List.getElem?_eq_none (by simp; omega)]
  · rw [kernel, table]
    by_cases new : u = v.members.length
    · subst new
      rw [Function.update_self, owner]
    · have below : u < v.states.length := by
        simp only [List.length_append, List.length_singleton] at bound
        omega
      rw [Function.update_of_ne new]
      by_cases current : u = t
      · subst current
        rw [Function.update_self, pid, serves.pid]
      · rw [Function.update_of_ne current]
        exact shown.owner u below
  · rw [kernel, processes, List.getElem?_append]
    by_cases new : j = v.members.length
    · subst new
      rw [Function.update_self, if_neg (lt_irrefl _), Nat.sub_self]
      simp [childProcess, newProcess, Process.member, Process.new, serves.whole.pid]
    · rw [Function.update_of_ne new, shown.members]
      split
      · rfl
      · rw [List.getElem?_eq_none (by omega), List.getElem?_eq_none (by simp; omega)]
  · rw [kernel, processes] at entry'
    by_cases new : j = v.members.length
    · subst new
      rw [Function.update_self, Option.some.injEq] at entry'
      subst entry'
      rfl
    · rw [Function.update_of_ne new] at entry'
      exact shown.live j c entry'
  · rw [List.getElem?_append, shown.length.2] at is
    split at is
    case isTrue old =>
      by_cases current : u = t
      · subst current
        obtain rfl := Option.some.inj (rest.symm.trans is)
        exact idle
      · have goes := shown.rests u r is
        have back : (m₁.finish t (.fork kstack) 0
          (.value v.members.length)).continuation u = m.continuation u := by
          refine continuation_congr ?_ ?_
          · rw [kernel, table, Function.update_of_ne (by omega), Function.update_of_ne current]
          · rw [conts, Function.update_of_ne current, shape]
            rfl
        cases r with
        | user => exact back.trans goes
        | waits => exact goes.imp fun c goes => goes.imp fun r goes => back.trans goes
        | exited => trivial
    case isFalse old =>
      obtain rfl : u = v.members.length := by
        by_contra different
        rw [List.getElem?_eq_none (by simp; omega)] at is
        cases is
      rw [Nat.sub_self] at is
      obtain rfl := Option.some.inj is
      have childRip : ((m₁.finish t (.fork kstack) 0 (.value v.members.length)).kernel.threadTable
          v.members.length).context.rip = .forkReturnTrampoline := by
        rw [kernel, table, Function.update_self, rip]
      rw [GoesOn, Machine.continuation, childRip]
  · rw [kernel, processes] at entry'
    rw [kernel, mem]
    by_cases new : j = v.members.length
    · subst new
      rw [Function.update_self, Option.some.injEq] at entry'
      subst entry'
      obtain rfl := Option.some.inj tableC
      exact space
    · rw [Function.update_of_ne new] at entry'
      have place : m.kernel.roots j = some f := by rw
        [Kernel.roots, entry', Option.bind_some, tableC]
      have whole := user.kept.coherent.live j c entry' (shown.live j c entry')
      have kept : treeRoutes mem'.ram 4 f = treeRoutes m.kernel.mem.ram 4 f := by
        refine treeRoutes_congr fun g inTree => PhysMem.child_congr (built.outside g ?_)
        refine user.kept.separate.apart_available whole.inside ?_
        rw [spaceAt_some place]
        exact Multiset.mem_of_le (treeTables_le _ _ _) inTree
      rw [kept]
      exact shown.space j c f entry' tableC

/-- Every move of a plan is taken by the machine. -/
theorem next {kstack : Nat} (lower : cfg.LowerHalf) {move : Move} (taken : v.next move = some v') (stack : kstack ≠ 0) :
    ∃ m', step cfg m (move.event kstack) = some m' ∧ Shows cfg m' v' := by
  rw [Scene.next] at taken
  cases here : v.pc with
  | stopped message => simp [here] at taken
  | scheduler =>
      simp only [here, Option.ite_none_right_eq_some] at taken
      obtain ⟨n, found, rfl⟩ := Option.map_eq_some_iff.mp taken.2
      exact taken.1 ▸ shown.schedule lower here found
  | kernel t =>
      simp only [here, Option.ite_none_right_eq_some, Option.some.injEq] at taken
      obtain ⟨⟨rfl, rest⟩, rfl⟩ := taken
      exact shown.proceed here rest
  | user t =>
      simp only [here, Option.ite_none_right_eq_some] at taken
      obtain ⟨acts, taken⟩ := taken
      cases move with
      | schedule => cases taken
      | proceed => cases taken
      | tick => exact Option.some.inj taken ▸ shown.tick lower here acts
      | fork =>
          simp only [Scene.act, Option.ite_none_right_eq_some, Option.some.injEq] at taken
          exact taken.2 ▸ shown.fork lower here acts taken.1.1 taken.1.2 stack
      | exit =>
          simp only [Scene.act, Option.ite_none_left_eq_some, Option.some.injEq] at taken
          exact taken.2 ▸ shown.exit lower here acts taken.1
      | kill pid =>
          simp only [Scene.act, Option.ite_none_right_eq_some, Option.some.injEq] at taken
          exact taken.2 ▸ shown.kill lower here acts taken.1.1 taken.1.2
      | wait =>
          simp only [Scene.act, Option.ite_none_right_eq_some, Option.some.injEq,
            Bool.and_eq_true] at taken
          exact taken.2 ▸ shown.wait lower here acts taken.1.1 taken.1.2

omit shown in
theorem follow_keeps {R : Machine → Prop} (lower : cfg.LowerHalf)
    (keeps : ∀ {m v v' move}, Shows cfg m v → R m → v.next move = some v' →
      ∃ kstack ≠ 0, ∀ m', step cfg m (move.event kstack) = some m' → R m')
    {plan : List Move} (shown : Shows cfg m v) (start : R m) (followed : v.follow plan = some v') :
    ∃ m', Shows cfg m' v' ∧ R m' := by
  induction plan generalizing m v with
  | nil => exact ⟨m, Option.some.inj followed ▸ shown, start⟩
  | cons move plan ih =>
      obtain ⟨v₁, next, followed⟩ := Option.bind_eq_some_iff.mp followed
      obtain ⟨kstack, stack, kept⟩ := keeps shown start next
      obtain ⟨m₁, taken, shown₁⟩ := shown.next lower next stack
      exact ih shown₁ (kept m₁ taken) followed

omit shown in
/-- The run of a plan, where every scene of it allows its move. -/
theorem follow_runs {good : Machine → Event → Prop} (lower : cfg.LowerHalf) {plan : List Move}
    (shown : Shows cfg m v) (followed : v.follow plan = some v')
    (allows : ∀ w w' move m, (w, move) ∈ v.visits plan → w.next move = some w' → Shows cfg m w →
      good m (move.event 1)) :
    ∃ m', Shows cfg m' v' ∧ Relation.ReflTransGen
      (fun m m' => ∃ event, good m event ∧ step cfg m event = some m') m m' := by
  induction plan generalizing m v with
  | nil => exact ⟨m, Option.some.inj followed ▸ shown, .refl⟩
  | cons move plan ih =>
      obtain ⟨v₁, next, followed⟩ := Option.bind_eq_some_iff.mp followed
      obtain ⟨m₁, taken, shown₁⟩ := shown.next lower next Nat.one_ne_zero
      have visits : v.visits (move :: plan) = (v, move) :: v₁.visits plan := by
        rw [Scene.visits, next, Option.elim_some]
      rw [visits] at allows
      obtain ⟨m', shown', run⟩ := ih shown₁ followed fun w w' move m inside =>
        allows w w' move m (List.mem_cons_of_mem _ inside)
      exact ⟨m', shown', .head ⟨_, allows _ _ _ _ List.mem_cons_self next shown, taken⟩ run⟩

omit shown in
theorem follow (lower : cfg.LowerHalf) {plan : List Move} (shown : Shows cfg m v)
    (followed : v.follow plan = some v') : ∃ m', Shows cfg m' v' :=
  (follow_keeps (R := fun _ => True) lower
    (fun _ _ _ => ⟨1, Nat.one_ne_zero, fun _ _ => trivial⟩) shown trivial
    followed).imp fun _ => And.left

end Shows

/-- The scene after the boot: one process, and the frames that its program left. -/
def Scene.booted (frames : Nat) : Scene where
  pc := .scheduler
  current := none
  started := false
  states := [.runnable]
  members := [⟨.alive, false, none⟩]
  rests := [.user]
  frames := frames

/-- The machine boots with one process, where a program without segments and frames
    for it are there. -/
theorem boots_shows {mem : MemState} {path image : List UInt8} (memory : BootMemory mem)
    (found : cfg.lookup path = some image) (bare : Bare image)
    (enough : BARE_FRAMES ≤ Multiset.card mem.available) :
    ∃ k, Prog.each [.userProcess 1 path] (create cfg) (.initial mem 0) = .ok () k ∧
      Shows cfg (.start k) (.booted (Multiset.card mem.available - BARE_FRAMES)) := by
  have booted : Booted (.initial mem 0) := .initial memory
  obtain ⟨prepared, mem', built, count, space⟩ :=
    prepareExecImage_bare bare cfg.mapper booted.separate.available_nodup enough
  obtain ⟨k, created, processes, threads, memory', cpu, -⟩ :=
    createUserProcessFromPath_run found built
    Nat.one_ne_zero (show (Kernel.initial mem 0).freePid = some 0 from rfl)
    (show (Kernel.initial mem 0).freeTid = some 0 from rfl)
  have whole : Prog.each [.userProcess 1 path] (create cfg) (.initial mem 0) = .ok () k := by
    rw [Prog.each, Prog.bind_run, create, created]
    rfl
  have only : ∀ i p, (Machine.start k).kernel.processTable i = some p → i = 0 ∧
    startProcess 0 0 prepared = p := by
    intro i p entry
    rw [Machine.start, processes] at entry
    by_cases here : i = 0
    · subst here
      rw [Function.update_self, Option.some.injEq] at entry
      exact ⟨rfl, entry⟩
    · rw [Function.update_of_ne here] at entry
      cases entry
  refine ⟨k, whole, ⟨_, .intro memory whole, .refl⟩, rfl, ?_, (fun is => by cases is), fun t => ?_,
    fun t inside => ?_, fun i => ?_,
    fun i p entry => ?_, fun t r is => ?_, ⟨rfl, rfl⟩, fun i p f entry table => ?_, ?_⟩
  · rw [Machine.start, cpu]
    rfl
  · rw [Machine.start, threads]
    by_cases here : t = 0
    · subst here
      rfl
    · rw [Function.update_of_ne here,
        List.getD_eq_default _ _ (by simp only [Scene.booted, List.length_singleton]; omega)]
      rfl
  · obtain rfl : t = 0 := Nat.lt_one_iff.mp inside
    rw [Machine.start, threads, Function.update_self]
    rfl
  · rw [Machine.start, processes]
    by_cases here : i = 0
    · subst here
      rfl
    · rw [Function.update_of_ne here,
        List.getElem?_eq_none (by simp only [Scene.booted, List.length_singleton]; omega)]
      rfl
  · obtain ⟨-, rfl⟩ := only i p entry
    rfl
  · obtain rfl : t = 0 := by
      by_contra here
      rw [List.getElem?_eq_none (by simp only [Scene.booted, List.length_singleton]; omega)] at is
      cases is
    obtain rfl := Option.some.inj is
    rw [GoesOn, Machine.continuation, Machine.start, threads, Function.update_self]
    rfl
  · obtain ⟨-, rfl⟩ := only i p entry
    obtain rfl := Option.some.inj table
    rw [Machine.start, memory']
    exact space
  · rw [Machine.start, memory']
    have whole : Multiset.card mem.available = Multiset.card mem'.available + BARE_FRAMES := count
    rw [whole, Scene.booted, Nat.add_sub_cancel]

def barePath : List UInt8 := [0x2F]

/-- A machine with one program, which has no segments. -/
def bareConfig : Config where
  overflowChecks := true
  mapper := offsetPageTable
  lookup path := if path = barePath then some bareImage else none

theorem bareConfig_lower : bareConfig.LowerHalf := by
  intro path image found
  simp only [bareConfig, Option.ite_none_right_eq_some, Option.some.injEq] at found
  exact found.2 ▸ bareImage_bare.lowerHalf

theorem bareRegion_physical {n : Nat} (fits : n ≤ 2 ^ 30) : 0x10_0000 + PAGE_SIZE * n ≤ 2 ^ 52 := by
  simp only [PAGE_SIZE]
  omega

/-- Zeroed memory with one usable region of `n` frames. -/
def bareMemory (n : Nat) (fits : n ≤ 2 ^ 30) : MemState where
  ram _ _ := 0
  frameAllocator := ⟨[⟨0x10_0000, 0x10_0000 + PAGE_SIZE * n, .usable, fun _ =>
    bareRegion_physical fits⟩], 0, []⟩
  cr3 := 1

theorem bareMemory_boot {n : Nat} (fits : n ≤ 2 ^ 30) : BootMemory (bareMemory n fits) where
  map := by
    refine ⟨fun r member _ => ?_, by simp [bareMemory]⟩
    obtain rfl := List.mem_singleton.mp member
    have start : PAGE_SIZE ∣ 0x10_0000 := by decide
    exact ⟨start, (Nat.dvd_add_right start).mpr (Nat.dvd_mul_right _ _)⟩
  recycled := rfl

theorem bareMemory_card {n : Nat} (fits : n ≤ 2 ^ 30) :
    Multiset.card (bareMemory n fits).available = n := by
  have length : (PAGE_SIZE * n + (PAGE_SIZE - 1)) / PAGE_SIZE = n := by
    simp only [PAGE_SIZE]
    omega
  simp [MemState.available, BootInfoFrameAllocator.available, BootInfoFrameAllocator.untouched,
    bareMemory,
    BootInfoFrameAllocator.usableFrames, BootInfoFrameAllocator.usableOf, MemoryRegion.addresses,
      length]

theorem boots_bare (frames : Nat) (fits : frames + BARE_FRAMES ≤ 2 ^ 30) :
    ∃ k, Prog.each [.userProcess 1 barePath] (create bareConfig)
    (.initial (bareMemory (frames + BARE_FRAMES) fits) 0) =
      .ok () k ∧ Boots bareConfig (.start k) ∧ Shows bareConfig (.start k) (.booted frames) := by
  have card := bareMemory_card fits
  obtain ⟨k, created, shown⟩ := boots_shows (bareMemory_boot fits)
    (rfl : bareConfig.lookup barePath = some bareImage) bareImage_bare
    (by rw [card]; exact Nat.le_add_left _ _)
  rw [card, Nat.add_sub_cancel] at shown
  exact ⟨k, created, .intro (bareMemory_boot fits) created, shown⟩

theorem plan_reaches (frames : Nat) (plan : List Move) (fits : frames + BARE_FRAMES ≤ 2 ^ 30)
    (followed : (Scene.booted frames).follow plan = some v) : ∃ m, Shows bareConfig m v := by
  obtain ⟨k, -, -, shown⟩ := boots_bare frames fits
  exact shown.follow bareConfig_lower followed

/-- The first process runs. -/
def Scene.running : Scene where
  pc := .user 0
  current := some 0
  started := true
  states := [.running]
  members := [⟨.alive, false, none⟩]
  rests := [.user]
  frames := 40

theorem running_reached : ∃ m, Shows bareConfig m .running :=
  plan_reaches 40 [.schedule, .proceed] (by decide) (by decide)

/-- The first process has made a child, and runs on. -/
def Scene.forked : Scene where
  pc := .user 0
  current := some 0
  started := true
  states := [.running, .runnable]
  members := [⟨.alive, false, none⟩, ⟨.alive, false, some 0⟩]
  rests := [.user, .user]
  frames := 27

theorem forked_reached : ∃ m, Shows bareConfig m .forked :=
  plan_reaches 40 [.schedule, .proceed, .fork] (by decide) (by decide)

/-- The first process was preempted, and its child runs. -/
def Scene.child : Scene where
  pc := .user 1
  current := some 1
  started := true
  states := [.runnable, .running]
  members := [⟨.alive, false, none⟩, ⟨.alive, false, some 0⟩]
  rests := [.user, .user]
  frames := 27

def childPlan : List Move := [.schedule, .proceed, .fork, .tick, .schedule, .proceed]

theorem childPlan_follow : (Scene.booted 40).follow childPlan = some .child := by decide

/-- The child has exited, and the first process runs again. -/
def Scene.bereft : Scene where
  pc := .user 0
  current := some 0
  started := true
  states := [.running, .zombie]
  members := [⟨.alive, false, none⟩, ⟨.zombie, false, some 0⟩]
  rests := [.user, .exited]
  frames := 27

theorem bereft_reached : ∃ m, Shows bareConfig m .bereft :=
  plan_reaches 40 [.schedule, .proceed, .fork, .tick, .schedule, .proceed, .exit, .schedule,
    .proceed]
    (by decide) (by decide)

end FerriOS.System
