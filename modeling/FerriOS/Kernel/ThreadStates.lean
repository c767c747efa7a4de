import FerriOS.Kernel.Footprint
import FerriOS.Kernel.RoundRobin
import FerriOS.Kernel.Plans

/-! # Thread states and execution

The thread on the CPU is the current one and the only one that is running, as long
as the scheduler has somebody else to choose: the bookkeeping for a thread that is
chosen again ends with a thread that is runnable while it runs.
-/

namespace FerriOS.System

open FerriOS.Lib FerriOS.Memory FerriOS.Loader

variable {cfg : Config} {m m' m₁ : Machine} {k k' : Kernel} {t u i : Nat} {p : Process}

/-- The table says what the CPU does. -/
def StatesAgree (m : Machine) : Prop :=
  ∀ t, m.pc = .kernel t ∨ m.pc = .user t →
    m.kernel.cpu.currentTid = some t ∧ (m.kernel.threadTable t).state = .running ∧
      ∀ u ≠ t, (m.kernel.threadTable u).state ≠ .running

/-- When the scheduler decides and the current thread is runnable, another one is as well. -/
def Contended (m : Machine) : Event → Prop
  | .schedule => ∀ t, m.kernel.cpu.currentTid = some t →
      (m.kernel.threadTable t).state = .runnable →
      ∃ u < NTHREAD, u ≠ t ∧ (m.kernel.threadTable u).state = .runnable
  | _ => True

theorem findNext_other (contended : Contended ⟨k, pc, interrupts, gs, stack, history⟩ .schedule)
    (found : findNextRunnableThread k = some t) : k.cpu.currentTid ≠ some t := by
  intro current
  obtain ⟨u, bound, other, runnable⟩ := contended t current (findNextRunnableThread_spec found).2
  obtain ⟨c, chosen, nearer⟩ := findNext_nearer bound runnable
    (fun same => other (Option.some.inj (same.symm.trans found)))
  obtain rfl := Option.some.inj (found.symm.trans chosen)
  rw [searchStart, current, Option.getD_some] at nearer
  exact lt_irrefl _ nearer

theorem used_ne {tid : Nat} (used : (k.threadTable t).state ≠ .unused)
    (free : k.freeTid = some tid) : t ≠ tid := by
  rintro rfl
  exact used (freeTid_spec free).2

/-- The body of a call leaves the state of its thread alone. -/
theorem Body.state {what : Call} (body : Body cfg t what k k') :
    (k'.threadTable t).state = (k.threadTable t).state := by
  cases body with
  | same => rfl
  | mem => rfl
  | fork stack used free freeT tf copied =>
      have other := used_ne used freeT
      exact congrArg Thread.state
        ((Kernel.setThread_ne _ other).trans (Kernel.setThread_ne _ other))
  | forkFails stack used freeT =>
      exact congrArg Thread.state (Kernel.setThread_ne _ (used_ne used freeT))
  | exec tf => rw [Kernel.committed_thread]; rfl
  | kill => rfl
  | reap caller found owns zombie other => rw [Kernel.released_ne _ _ _ other.symm]

theorem Away.no_thread (away : Away m) (t : Nat) : ¬ (m.pc = .kernel t ∨ m.pc = .user t) := by
  rcases away with pc | ⟨message, pc⟩ <;> simp [pc]

theorem EndsFrom.running (ends : EndsFrom t m₁ m')
    (state : (m₁.kernel.threadTable t).state = .running)
    (here : m'.pc = .kernel u ∨ m'.pc = .user u) :
    u = t ∧ (m'.kernel.threadTable u).state = .running := by
  rcases ends with ⟨-, away⟩ | ⟨kernel, pc⟩
  · exact absurd here (away.no_thread u)
  · obtain rfl : t = u := by simpa [pc] using here
    exact ⟨rfl, kernel ▸ state⟩

/-- A step ends with the thread on the CPU running, when it started so and the scheduler
    had a choice. -/
theorem Shape.running {event : Event} (shape : Shape cfg m m' event) (contended : Contended m event)
    (before : ∀ t, m.pc = .kernel t ∨ m.pc = .user t → (m.kernel.threadTable t).state = .running)
    (u : Nat)
    (here : m'.pc = .kernel u ∨ m'.pc = .user u) : (m'.kernel.threadTable u).state = .running := by
  cases shape with
  | idle kernel pc pc' => simp [pc'] at here
  | switch _ found switched pc =>
      obtain rfl : _ = u := by simpa [pc] using here
      exact switched.chosen (findNext_other contended found)
  | late _ _ _ _ away => exact absurd here (away.no_thread u)
  | tick _ away => exact absurd here (away.no_thread u)
  | killed _ _ _ _ away => exact absurd here (away.no_thread u)
  | proceed pc body ends => exact (ends.running (body.state.trans (before _ (.inl pc))) here).2
  | call pc serves spared body ends =>
      refine (ends.running (body.state.trans ?_) here).2
      exact (congrArg Thread.state (Kernel.setThread_at ..)).trans (before _ (.inr pc))

theorem Machine.Inv.onCpu (inv : m.Inv cfg) (here : m.pc = .kernel t ∨ m.pc = .user t) :
    OnCpu m t := by
  obtain ⟨-, pc⟩ := inv
  rcases here with here | here <;> rw [here] at pc <;> exact pc.1

/-- The assertion of `on_yield`. -/
def NOT_RUNNING : String := "CPU has current_tid but the thread is not Running"

theorem toScheduler_asserts (m : Machine) : m.toScheduler.pc ≠ .stopped NOT_RUNNING := by
  rw [Machine.toScheduler]
  split
  · exact fun is => by cases is
  · exact fun is => absurd (Pc.stopped.inj is) (by decide)

theorem onYield_asserts (cont : Cont) (current : m.kernel.cpu.currentTid = some t)
    (running : (m.kernel.threadTable t).state = .running) :
    (m.onYield cont).pc ≠ .stopped NOT_RUNNING := by
  have here : (m.setKernel (m.kernel.setCr3 m.kernel.kernelPageTableFrame)).kernel.cpu.currentTid = some t := current
  have state : ((m.setKernel (m.kernel.setCr3 m.kernel.kernelPageTableFrame)).kernel.threadTable t).state = .running :=
    running
  rw [Machine.onYield]
  simp only [here, state, ne_eq, not_true_eq_false, if_false]
  exact toScheduler_asserts _

theorem onSyscallYield_asserts (cont : Cont) (current : m.kernel.cpu.currentTid = some t) :
    (m.onSyscallYield cont).pc ≠ .stopped NOT_RUNNING := by
  have here : (m.setKernel (m.kernel.setCr3 m.kernel.kernelPageTableFrame)).kernel.cpu.currentTid = some t := current
  rw [Machine.onSyscallYield]
  simp only [here]
  exact toScheduler_asserts _

theorem sysExit_asserts (serves : Serves m t i p) (status : Int) (killed : Bool) :
    (m.sysExit status killed).pc ≠ .stopped NOT_RUNNING := by
  rw [Machine.sysExit]
  by_cases init : i = INIT_PID
  · subst init
    rw [exit_init serves.toCurrent]
    exact fun is => absurd (Pc.stopped.inj is) (by decide)
  · rw [exit_run serves.toCurrent init serves.owns.threads serves.whole.pid]
    exact onSyscallYield_asserts
      (m := (m.setKernel (m.kernel.exited t i p status)).record (.exited m.pid status killed))
      .exited serves.tid

/-- A tick that finds its thread running does not panic. -/
theorem tick_asserts (inv : m.Inv cfg) (here : m.pc = .kernel t ∨ m.pc = .user t)
    (running : (m.kernel.threadTable t).state = .running) (taken : step cfg m .tick = some m') :
    m'.pc ≠ .stopped NOT_RUNNING := by
  have current := (inv.onCpu here).tid
  rcases here with here | here
  · simp only [step, here] at taken
    cases cont : m.continuation t with
    | toUser =>
        simp only [cont, Option.some.injEq] at taken
        exact taken ▸ onYield_asserts _ current running
    | kthread =>
        simp only [cont, Option.some.injEq] at taken
        exact taken ▸ onYield_asserts _ current running
    | _ => simp [cont] at taken
  · simp only [step, here, Option.some.injEq] at taken
    obtain ⟨i, p, serves⟩ := (inv.user here).serves
    rw [← taken, Machine.userTick, serves.toCurrent.unlessKilled_run rfl]
    split
    · exact sysExit_asserts serves _ _
    · exact onYield_asserts _ current running

/-- As long as the scheduler has a choice, the thread states agree with what the CPU
    does, and no tick panics. -/
theorem thread_states_agree (lower : cfg.LowerHalf) (run : RunsWhen cfg Contended m) :
    StatesAgree m ∧ ∀ t m', (m.pc = .kernel t ∨ m.pc = .user t) → step cfg m .tick = some m' →
      m'.pc ≠ .stopped NOT_RUNNING := by
  have inv := run.reachable.inv lower
  have running : ∀ t, m.pc = .kernel t ∨ m.pc = .user t →
    (m.kernel.threadTable t).state = .running := by
    refine run.always (I := fun m => ∀ t, m.pc = .kernel t ∨ m.pc = .user t →
      (m.kernel.threadTable t).state = .running)
      lower (fun m boots t here => ?_) fun m m' event inv contended taken before u here =>
        (step_shape lower inv taken).running contended before u here
    obtain ⟨k, rfl, -⟩ := boots.booted lower
    simp [Machine.start] at here
  refine ⟨fun t here => ⟨(inv.onCpu here).tid, running t here, fun u other is => ?_⟩,
    fun t m' here taken =>
    tick_asserts inv here (running t here) taken⟩
  exact other (Option.some.inj ((inv.1.alone u is).symm.trans (inv.onCpu here).tid))

/-- Behind a tick, where the scheduler had the child to choose. -/
theorem thread_states_agree_child :
    ∃ m, RunsWhen bareConfig Contended m ∧ m.pc = .user 1 ∧ StatesAgree m := by
  have choices : ∀ visit ∈ (Scene.booted 40).visits childPlan, visit.2 = .schedule →
      visit.1.current = none ∨
        visit.1.current = some 0 ∧ visit.1.states.getD 1 .unused = .runnable := by decide
  obtain ⟨k, -, boots, shown⟩ := boots_bare 40 (by decide)
  obtain ⟨m, shown', steps⟩ : ∃ m, Shows bareConfig m .child ∧ Relation.ReflTransGen
      (fun m m' => ∃ event, Contended m event ∧ step bareConfig m event = some m')
        (.start k) m := by
    refine shown.follow_runs bareConfig_lower childPlan_follow fun w w' move m inside _ here => ?_
    cases move with
    | schedule =>
        intro t current _
        obtain first | ⟨first, second⟩ := choices _ inside rfl
        · cases current.symm.trans (here.current.trans first)
        · obtain rfl : t = 0 := Option.some.inj (current.symm.trans (here.current.trans first))
          exact ⟨1, by decide, Nat.one_ne_zero, (here.states 1).trans second⟩
    | proceed => trivial
    | tick => trivial
    | fork => trivial
    | exit => trivial
    | kill pid => trivial
    | wait => trivial
  have run : RunsWhen bareConfig Contended m := ⟨_, boots, steps⟩
  exact ⟨m, run, shown'.pc, (thread_states_agree bareConfig_lower run).1⟩

/-- A lone process is chosen again after its tick: it runs while it is runnable, and
    its next tick panics. -/
theorem lone_process_panics : ∃ m m', Reachable bareConfig m ∧ m.pc = .user 0 ∧
    (m.kernel.threadTable 0).state = .runnable ∧ step bareConfig m .tick = some m' ∧
    m'.pc = .stopped NOT_RUNNING := by
  obtain ⟨m, shown⟩ := plan_reaches 40 [.schedule, .proceed, .tick, .schedule, .proceed]
    (v := { Scene.running with
    states := [.runnable] }) (by decide) (by decide)
  have pc : m.pc = .user 0 := shown.pc
  have state : (m.kernel.threadTable 0).state = .runnable := shown.states 0
  obtain ⟨i, p, serves⟩ := ((shown.reached.inv bareConfig_lower).user pc).serves
  obtain rfl : 0 = i := Option.some.inj ((shown.owner 0 (by decide)).symm.trans serves.pid)
  have spared : p.killed = false := by
    have member := shown.members 0
    rw [serves.entry] at member
    exact congrArg Member.killed (Option.some.inj member)
  have taken : step bareConfig m .tick = some (m.onYield .toUser) := by
    simp only [step, pc, Machine.userTick]
    rw [serves.toCurrent.unlessKilled_run rfl, if_neg (by simp [spared])]
  refine ⟨m, _, shown.reached, pc, state, taken, ?_⟩
  have here : (m.setKernel (m.kernel.setCr3 m.kernel.kernelPageTableFrame)).kernel.cpu.currentTid = some 0 := serves.tid
  have runnable : ((m.setKernel
    (m.kernel.setCr3 m.kernel.kernelPageTableFrame)).kernel.threadTable 0).state = .runnable :=
    state
  rw [Machine.onYield]
  simp only [here, runnable]
  rfl

end FerriOS.System
