import FerriOS.Kernel.ThreadStates
import FerriOS.Kernel.Lifetimes

/-! # Nobody starves

The fair search is only one part of a run: between two decisions threads fork, exit, wait and
reap, and programs write. None of that takes a runnable thread out of the queue, and none
moves the place where the next search starts.
-/

namespace FerriOS.System

open FerriOS.Lib FerriOS.Memory FerriOS.Loader

/-- The thread that the scheduler loop chooses in a step. -/
def chosenBy (m : Machine) : Event → Option Nat
  | .schedule => findNextRunnableThread m.kernel
  | .lateTick => findNextRunnableThread m.kernel
  | _ => none

/-- Runs in which the scheduler chooses these threads, the last one first. -/
inductive Chosen (cfg : Config) (m : Machine) : List Nat → Machine → Prop where
  | start : Chosen cfg m [] m
  | step {chosen : List Nat} {m' m'' : Machine} (before : Chosen cfg m chosen m') (event : Event)
      (taken : step cfg m' event = some m'') :
      Chosen cfg m ((chosenBy m' event).toList ++ chosen) m''
  | store {chosen : List Nat} {m' : Machine} {u va : Nat} (before : Chosen cfg m chosen m')
      (pc : m'.pc = .user u)
      (lower : va < 2 ^ 47)
      (allowed : UserWritable m'.kernel.mem.ram m'.kernel.mem.cr3 va) (byte : UInt8) :
        Chosen cfg m chosen (m'.store va byte)

/-- The thread is runnable and not on the CPU. -/
structure Queued (m : Machine) (t : Nat) : Prop where
  runnable : (m.kernel.threadTable t).state = .runnable
  kernel : m.pc ≠ .kernel t
  user : m.pc ≠ .user t

variable {cfg : Config} {m m' m₁ : Machine} {k k' : Kernel} {t u next : Nat} {chosen : List Nat}
  {event : Event}

/-! ## One step -/

theorem Queued.away (runnable : (m.kernel.threadTable t).state = .runnable) (away : Away m) :
    Queued m t :=
  ⟨runnable, fun pc => away.no_thread t (.inl pc), fun pc => away.no_thread t (.inr pc)⟩

theorem Switched.queue (switched : Switched next k k') (other : t ≠ next)
    (runnable : (k.threadTable t).state = .runnable) :
    k'.threadTable t = k.threadTable t := by
  obtain ⟨state, thread, which, running⟩ := switched.threads t
  have same : state = (k.threadTable t).state := by
    rcases which with same | ⟨-, is | is⟩
    · exact same
    · exact is.trans runnable.symm
    · exact absurd (running is) other
  rw [thread, same]

/-- A call for another thread finds no use for a thread that is runnable: the child of a fork
    gets an unused one, and those that are reaped are zombies. -/
theorem Body.queue {what : Call} (body : Body cfg u what k k') (other : t ≠ u)
    (runnable : (k.threadTable t).state = .runnable) :
    k'.threadTable t = k.threadTable t ∧ k'.cpu.currentTid = k.cpu.currentTid := by
  have used : (k.threadTable t).state ≠ .unused := by
    rw [runnable]
    decide
  cases body with
  | same => exact ⟨rfl, rfl⟩
  | mem => exact ⟨rfl, rfl⟩
  | fork stack _ free freeT tf copied =>
      have apart := used_ne used freeT
      exact ⟨(Kernel.setThread_ne _ apart).trans (Kernel.setThread_ne _ apart), rfl⟩
  | forkFails stack _ freeT => exact ⟨Kernel.setThread_ne _ (used_ne used freeT), rfl⟩
  | exec owner tf => exact ⟨Kernel.committed_ne _ _ _ _ _ other, rfl⟩
  | kill => exact ⟨rfl, rfl⟩
  | @reap _ _ _ _ tid _ _ caller found owns zombie =>
      have apart : t ≠ tid := by
        rintro rfl
        rcases owns.plays with ⟨alive, -⟩ | ⟨-, is⟩
        · exact absurd (zombie.symm.trans alive) (by decide)
        · exact absurd (is.symm.trans runnable) (by decide)
      exact ⟨Kernel.released_ne _ _ _ apart, rfl⟩

/-- The thread waits in the queue as it did before. -/
structure Waits (m m' : Machine) (t : Nat) : Prop where
  queued : Queued m' t
  thread : m'.kernel.threadTable t = m.kernel.threadTable t

theorem Waits.away (queued : Queued m t) (thread : m'.kernel.threadTable t = m.kernel.threadTable t)
    (away : Away m') : Waits m m' t :=
  ⟨.away (thread ▸ queued.runnable) away, thread⟩

theorem EndsFrom.queue (ends : EndsFrom u m₁ m') (other : t ≠ u) (queued : Queued m t)
    (thread : m₁.kernel.threadTable t = m.kernel.threadTable t) :
    Waits m m' t ∧ m'.kernel.cpu.currentTid = m₁.kernel.cpu.currentTid := by
  rcases ends with ⟨touches, away⟩ | ⟨same, pc⟩
  · exact ⟨.away queued ((touches.others t other).trans thread) away, touches.current⟩
  · have thread' : m'.kernel.threadTable t = m.kernel.threadTable t := same ▸ thread
    refine ⟨⟨⟨thread' ▸ queued.runnable, ?_, ?_⟩, thread'⟩, by rw [same]⟩
    · rw [pc]
      exact Pc.noConfusion
    · rw [pc]
      exact fun is => other (Pc.user.inj is).symm

theorem onYield_without (cont : Cont) (current : m.kernel.cpu.currentTid = none) :
    m.onYield cont = m.setKernel (m.kernel.setCr3 m.kernel.kernelPageTableFrame) := by
  have here : (m.setKernel (m.kernel.setCr3 m.kernel.kernelPageTableFrame)).kernel.cpu.currentTid = none := current
  rw [Machine.onYield]
  simp only [here]

theorem onYield_stops (cont : Cont) (current : m.kernel.cpu.currentTid = some t)
    (waits : (m.kernel.threadTable t).state ≠ .running) :
    m.onYield cont = (m.setKernel (m.kernel.setCr3 m.kernel.kernelPageTableFrame)).stop
      "CPU has current_tid but the thread is not Running" := by
  have here : (m.setKernel (m.kernel.setCr3 m.kernel.kernelPageTableFrame)).kernel.cpu.currentTid = some t :=
    current
  rw [Machine.onYield]
  simp only [here]
  exact if_pos waits

theorem onYield_current_tid (m : Machine) (cont : Cont) :
    (m.onYield cont).kernel.cpu.currentTid = m.kernel.cpu.currentTid := by
  cases current : m.kernel.cpu.currentTid with
  | none =>
      rw [onYield_without cont current]
      exact current
  | some v => exact (onYield_touches cont current).1.current.trans current

theorem onYield_queue (cont : Cont) (runnable : (m.kernel.threadTable t).state = .runnable) :
    (m.onYield cont).kernel.threadTable t = m.kernel.threadTable t ∧
      (m.onYield cont).kernel.cpu.currentTid = m.kernel.cpu.currentTid := by
  refine ⟨?_, onYield_current_tid m cont⟩
  cases current : m.kernel.cpu.currentTid with
  | none =>
      rw [onYield_without cont current]
      rfl
  | some u =>
      obtain rfl | other := eq_or_ne t u
      · rw [onYield_stops cont current (by rw [runnable]; decide)]
        rfl
      · exact (onYield_touches cont current).1.others t other

theorem tick_queue (inv : m.Inv cfg) (taken : step cfg m .tick = some m') (queued : Queued m t) :
    m'.kernel.threadTable t = m.kernel.threadTable t ∧
      m'.kernel.cpu.currentTid = m.kernel.cpu.currentTid := by
  cases pc : m.pc with
  | scheduler =>
      simp only [step, pc] at taken
      split at taken
      · obtain rfl := Option.some.inj taken
        exact onYield_queue _ queued.runnable
      · cases taken
  | stopped message => simp [step, pc] at taken
  | kernel u =>
      simp only [step, pc] at taken
      split at taken
      · obtain rfl := Option.some.inj taken
        exact onYield_queue _ queued.runnable
      · obtain rfl := Option.some.inj taken
        exact onYield_queue _ queued.runnable
      · cases taken
  | user u =>
      simp only [step, pc, Option.some.injEq] at taken
      obtain ⟨i, p, serves⟩ := (inv.user pc).serves
      have other : t ≠ u := by
        rintro rfl
        exact queued.user pc
      rw [← taken, Machine.userTick, serves.toCurrent.unlessKilled_run rfl]
      split
      · have touches := (sysExit_touches serves RET_ERROR true).1
        exact ⟨touches.others t other, touches.current⟩
      · exact onYield_queue _ queued.runnable

/-- The loop goes on with itself only where it finds nobody. -/
theorem schedule_idle (taken : step cfg m .schedule = some m') (loops : m'.pc = .scheduler) :
    findNextRunnableThread m.kernel = none := by
  cases found : findNextRunnableThread m.kernel with
  | none => rfl
  | some next =>
      simp only [step] at taken
      split at taken
      case isFalse => cases taken
      case isTrue =>
        obtain rfl := Option.some.inj taken
        revert loops
        rw [Machine.schedule]
        simp only [found]
        cases prepareSwitch next m.kernel with
        | ok value k => exact Pc.noConfusion
        | err message k => exact Pc.noConfusion
        | panic message => exact Pc.noConfusion

/-- A thread stays in the queue until it is chosen, and only a choice moves the search. -/
theorem step_queue (lower : cfg.LowerHalf) (inv : m.Inv cfg) (taken : step cfg m event = some m')
    (queued : Queued m t)
    (passed : chosenBy m event ≠ some t) :
    Waits m m' t ∧ m'.kernel.cpu.currentTid = (chosenBy m event).or m.kernel.cpu.currentTid := by
  have shape := step_shape lower inv taken
  cases shape with
  | idle kernel pc pc' =>
      rw [chosenBy, schedule_idle taken pc', Option.none_or, kernel]
      exact ⟨.away queued (by rw [kernel]) (.inl pc'), rfl⟩
  | @switch next here found switched pc =>
      rw [chosenBy, found] at passed ⊢
      have other : t ≠ next := fun is => passed (congrArg some is.symm)
      have thread := switched.queue other queued.runnable
      refine ⟨⟨⟨thread ▸ queued.runnable, ?_, ?_⟩, thread⟩, switched.current⟩
      · rw [pc]
        exact fun is => other (Pc.kernel.inj is).symm
      · rw [pc]
        exact Pc.noConfusion
  | @late next _ here found switched touches away =>
      rw [chosenBy, found] at passed ⊢
      have other : t ≠ next := fun is => passed (congrArg some is.symm)
      have thread := (touches.others t other).trans (switched.queue other queued.runnable)
      exact ⟨.away queued thread away, touches.current.trans switched.current⟩
  | tick touches away =>
      obtain ⟨thread, current⟩ := tick_queue inv taken queued
      exact ⟨.away queued thread away, current⟩
  | @proceed u m₁ here body ends =>
      have other : t ≠ u := by
        rintro rfl
        exact queued.kernel here
      obtain ⟨thread, current⟩ := body.queue other queued.runnable
      obtain ⟨waits, current'⟩ := ends.queue other queued thread
      exact ⟨waits, current'.trans current⟩
  | @killed u _ _ _ _ _ here serves killed touches away =>
      have other : t ≠ u := by
        rintro rfl
        exact queued.user here
      exact ⟨.away queued (touches.others t other) away, touches.current⟩
  | @call u _ _ _ _ _ m₁ here serves spared body ends =>
      have other : t ≠ u := by
        rintro rfl
        exact queued.user here
      obtain ⟨thread, current⟩ :=
        body.queue other (by rw [calling_ne m _ _ other]; exact queued.runnable)
      obtain ⟨waits, current'⟩ := ends.queue other queued (thread.trans (calling_ne m _ _ other))
      exact ⟨waits, current'.trans current⟩

/-! ## Runs -/

/-- How far the search has come to `t` when it has chosen these threads. -/
structure Nearing (k : Kernel) (t : Nat) (chosen : List Nat) : Prop where
  order : chosen.Pairwise fun later earlier => slotsBefore later t < slotsBefore earlier t
  passed : ∀ c ∈ chosen, slotsBefore (searchStart k) t ≤ slotsBefore c t
  few : slotsBefore (searchStart k) t + chosen.length < NTHREAD

theorem chosenBy_some {c : Nat} (chosen : chosenBy m event = some c) :
    findNextRunnableThread m.kernel = some c := by
  cases event with
  | schedule => exact chosen
  | lateTick => exact chosen
  | tick => cases chosen
  | proceed => cases chosen
  | call => cases chosen

theorem Nearing.step (nearing : Nearing m.kernel t chosen) (bound : t < NTHREAD)
    (queued : Queued m t)
    (passed : chosenBy m event ≠ some t)
    (current : m'.kernel.cpu.currentTid = (chosenBy m event).or m.kernel.cpu.currentTid) :
    Nearing m'.kernel t ((chosenBy m event).toList ++ chosen) := by
  cases chosen' : chosenBy m event with
  | none =>
      rw [chosen', Option.none_or] at current
      have start : searchStart m'.kernel = searchStart m.kernel := by rw
        [searchStart, current, searchStart]
      exact ⟨nearing.order, start ▸ nearing.passed, start ▸ nearing.few⟩
  | some c =>
      have found := chosenBy_some chosen'
      rw [chosen'] at passed current
      obtain ⟨c', found', nearer⟩ :=
        findNext_nearer bound queued.runnable (by rw [found]; exact passed)
      obtain rfl : c = c' := Option.some.inj (found.symm.trans found')
      have start : searchStart m'.kernel = c := by rw [searchStart, current]; rfl
      have few := nearing.few
      refine ⟨?_, ?_, ?_⟩
      · refine List.pairwise_cons.mpr ⟨fun d member => ?_, nearing.order⟩
        exact lt_of_lt_of_le nearer (nearing.passed d member)
      · intro d member
        rw [start]
        rcases List.mem_cons.mp member with rfl | member
        · exact le_rfl
        · exact nearer.le.trans (nearing.passed d member)
      · rw [start, Option.toList_some, List.singleton_append, List.length_cons]
        omega

theorem Chosen.queue (lower : cfg.LowerHalf) (lives : Lives cfg m) (bound : t < NTHREAD)
    (queued : Queued m t)
    (run : Chosen cfg m chosen m') (passed : t ∉ chosen) :
    Lives cfg m' ∧ Waits m m' t ∧ Nearing m'.kernel t chosen := by
  induction run with
  | start =>
      exact ⟨lives, ⟨queued, rfl⟩, .nil, (fun _ member => absurd member List.not_mem_nil),
        slotsBefore_lt _ _⟩
  | @step chosen m₁ m₂ before event taken ih =>
      rw [List.mem_append, not_or] at passed
      obtain ⟨lives₁, ⟨queued₁, same⟩, nearing⟩ := ih passed.2
      have other : chosenBy m₁ event ≠ some t :=
        fun is => passed.1 (by rw [is]; exact List.mem_singleton_self t)
      obtain ⟨waits, current⟩ := step_queue lower (lives₁.inv lower) taken queued₁ other
      exact ⟨lives₁.turn (.step event taken), ⟨waits.queued, waits.thread.trans same⟩,
        nearing.step bound queued₁ other current⟩
  | store before pc inside allowed byte ih =>
      obtain ⟨lives₁, ⟨queued₁, same⟩, nearing⟩ := ih passed
      refine ⟨lives₁.turn (.store pc inside allowed byte),
        ⟨⟨queued₁.runnable, queued₁.kernel, queued₁.user⟩, same⟩, ?_⟩
      exact ⟨nearing.order, nearing.passed, nearing.few⟩

theorem Chosen.few (lower : cfg.LowerHalf) (lives : Lives cfg m) (bound : t < NTHREAD)
    (queued : Queued m t)
    (run : Chosen cfg m chosen m') (passed : t ∉ chosen) :
    chosen.Nodup ∧ chosen.length < NTHREAD := by
  obtain ⟨-, -, nearing⟩ := run.queue lower lives bound queued passed
  refine ⟨nearing.order.imp fun less same => ?_, ?_⟩
  · rw [same] at less
    exact lt_irrefl _ less
  · have few := nearing.few
    omega

/-- In every run, a thread that is runnable stays so, and as it is, until it is chosen. Before
    that, no other thread is chosen twice, and the loop never finds nobody. -/
theorem runnable_chosen (lower : cfg.LowerHalf) (lives : Lives cfg m) (bound : t < NTHREAD)
    (queued : Queued m t)
    (run : Chosen cfg m chosen m') (passed : t ∉ chosen) :
    (m'.kernel.threadTable t).state = .runnable ∧ m'.kernel.threadTable t = m.kernel.threadTable t ∧
    chosen.Nodup ∧ chosen.length < NTHREAD ∧ findNextRunnableThread m'.kernel ≠ none := by
  obtain ⟨-, ⟨queued', same⟩, -⟩ := run.queue lower lives bound queued passed
  obtain ⟨distinct, few⟩ := run.few lower lives bound queued passed
  exact ⟨queued'.runnable, same, distinct, few, fun none =>
    findNext_none none bound queued'.runnable⟩

/-- The first process has made two children, and its time is over. -/
def Scene.queue : Scene where
  pc := .scheduler
  current := some 0
  started := true
  states := [.runnable, .runnable, .runnable]
  members := [⟨.alive, false, none⟩, ⟨.alive, false, some 0⟩, ⟨.alive, false, some 0⟩]
  rests := [.user, .user, .user]
  frames := 14

/-- The second child waits for the first one. -/
theorem runnable_chosen_second : ∃ m m', Shows bareConfig m .queue ∧ Chosen bareConfig m [1] m' ∧
    (m'.kernel.threadTable 2).state = .runnable ∧ m'.kernel.threadTable 2 = m.kernel.threadTable 2 ∧
    [1].Nodup ∧ [1].length < NTHREAD ∧ findNextRunnableThread m'.kernel ≠ none := by
  obtain ⟨m, shown⟩ := plan_reaches 40 [.schedule, .proceed, .fork, .fork, .tick] (v := .queue)
    (by decide)
    (by decide)
  have next : Scene.queue.nextThread = some 1 := by decide
  obtain ⟨m', taken, -⟩ := shown.schedule bareConfig_lower rfl next
  have run : Chosen bareConfig m [1] m' := by
    have run' := Chosen.start.step .schedule taken
    rw [chosenBy, shown.nextThread, next] at run'
    exact run'
  have queued : Queued m 2 := .away (shown.states 2) (.inl shown.pc)
  exact ⟨m, m', shown, run, runnable_chosen bareConfig_lower shown.reached.lives
    (by decide) queued run (by decide)⟩

end FerriOS.System
