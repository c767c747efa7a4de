import FerriOS.Kernel.ThreadStates
import FerriOS.Kernel.Waiting

/-! # The lifetime of kernel stacks

Every thread has a kernel stack of its own from its creation until its slot is
cleared. Stacks are given back by `wait` only, for a zombie that is not on the CPU.
The kernel heap is trusted to return blocks that overlap no allocated one.
-/

namespace FerriOS.System

open FerriOS.Lib FerriOS.Memory FerriOS.Loader

/-- Two kernel stacks do not overlap. -/
def Apart (a b : Nat) : Prop := a + STACK_SIZE ≤ b ∨ b + STACK_SIZE ≤ a

instance : Std.Symm Apart := ⟨fun _ _ apart => apart.symm⟩

/-- What the heap promises of the block that it returns: it is null, or overlaps no
    allocated stack. -/
def Fresh (k : Kernel) (kstack : Nat) : Prop :=
  kstack = 0 ∨ ∀ base ∈ k.kernelStacks, Apart kstack base

/-- The heap keeps its promise in a step. -/
def HeapFits (m : Machine) : Event → Prop
  | .call _ _ (.fork kstack) => Fresh m.kernel kstack
  | _ => True

/-- The heap keeps its promise while the boot code runs. -/
def HeapFitsBoot (cfg : Config) : List Creation → Kernel → Prop
  | [], _ => True
  | creation :: rest, k =>
      Fresh k (match creation with | .kernelThread kstack => kstack | .userProcess kstack _ => kstack) ∧
        ∀ k', create cfg creation k = .ok () k' → HeapFitsBoot cfg rest k'

/-- A run on a heap that keeps its promise. -/
inductive HeapRuns (cfg : Config) : Machine → Prop where
  | boot (memory : BootMemory mem)
      (created : (Prog.each creations (create cfg)) (.initial mem rsp0) = .ok () k)
      (fits : HeapFitsBoot cfg creations (.initial mem rsp0)) : HeapRuns cfg (.start k)
  | step (run : HeapRuns cfg m) (fits : HeapFits m event) (taken : step cfg m event = some m') :
      HeapRuns cfg m'

variable {cfg : Config} {m m' m₁ : Machine} {k k' : Kernel} {t u i j : Nat} {p c z : Process}
  {what : Call}

/-- The base of the stack of a thread, which is allocated. -/
def HasStack (k : Kernel) (t base : Nat) : Prop :=
  base ∈ k.kernelStacks ∧ (k.threadTable t).kstack = base + STACK_SIZE

/-- Every thread has an allocated stack of its own. -/
structure Stacked (k : Kernel) : Prop where
  apart : k.kernelStacks.Pairwise Apart
  owned : ∀ t, (k.threadTable t).state ≠ .unused → ∃ base, HasStack k t base
  alone : ∀ t u, t ≠ u → (k.threadTable t).state ≠ .unused → (k.threadTable u).state ≠ .unused →
    (k.threadTable t).kstack ≠ (k.threadTable u).kstack

namespace Stacked

theorem congr (stacked : Stacked k) (same : k'.kernelStacks = k.kernelStacks)
    (keeps : ∀ t, (k'.threadTable t).kstack = (k.threadTable t).kstack ∧
      ((k'.threadTable t).state = .unused ↔ (k.threadTable t).state = .unused)) : Stacked k' where
  apart := same ▸ stacked.apart
  owned t used := by
    rw [ne_eq, (keeps t).2] at used
    obtain ⟨base, member, top⟩ := stacked.owned t used
    exact ⟨base, same ▸ member, (keeps t).1.trans top⟩
  alone t u other usedT usedU := by
    rw [ne_eq, (keeps _).2] at usedT usedU
    rw [(keeps t).1, (keeps u).1]
    exact stacked.alone t u other usedT usedU

theorem keeps (stacked : Stacked k) (same : k'.kernelStacks = k.kernelStacks)
    (keeps : ∀ t, (k.threadTable t).Keeps (k'.threadTable t)) : Stacked k' :=
  stacked.congr same fun t => ⟨(keeps t).kstack, (keeps t).used⟩

/-- A new thread on a fresh stack. -/
theorem add {kstack : Nat} {thread : Thread} (stacked : Stacked k) (fresh : Fresh k kstack)
    (stack : kstack ≠ 0)
    (top : thread.kstack = kstack + STACK_SIZE)
    (threads : k'.threadTable = Function.update k.threadTable t thread)
    (kernelStacks : k'.kernelStacks = kstack :: k.kernelStacks) : Stacked k' := by
  have fresh := fresh.resolve_left stack
  have here : k'.threadTable t = thread := by rw [threads, Function.update_self]
  have others : ∀ {u}, u ≠ t → k'.threadTable u = k.threadTable u := fun other => by
    rw [threads, Function.update_of_ne other]
  have elsewhere : ∀ u, (k.threadTable u).state ≠ .unused →
    (k.threadTable u).kstack ≠ kstack + STACK_SIZE := by
    intro u used same
    obtain ⟨base, member, top⟩ := stacked.owned u used
    have apart := fresh base member
    simp only [Apart, STACK_SIZE, STACK_PAGES, PAGE_SIZE] at apart same top
    omega
  refine ⟨?_, fun u used => ?_, fun u v other usedU usedV => ?_⟩
  · rw [kernelStacks]
    exact List.pairwise_cons.mpr ⟨fresh, stacked.apart⟩
  · by_cases same : u = t
    · subst same
      exact ⟨kstack, by rw [kernelStacks]; exact List.mem_cons_self, by rw [here, top]⟩
    · rw [others same] at used
      obtain ⟨base, member, top⟩ := stacked.owned u used
      exact ⟨base, by rw [kernelStacks]; exact List.mem_cons_of_mem _ member, by rw
        [others same, top]⟩
  · by_cases sameU : u = t
    · subst sameU
      rw [others other.symm] at usedV ⊢
      rw [here, top]
      exact (elsewhere v usedV).symm
    · rw [others sameU] at usedU ⊢
      by_cases sameV : v = t
      · subst sameV
        rw [here, top]
        exact elsewhere u usedU
      · rw [others sameV] at usedV ⊢
        exact stacked.alone u v other usedU usedV

/-- A thread gives its stack back with its slot. -/
theorem free {base : Nat} (stacked : Stacked k) (used : (k.threadTable t).state ≠ .unused)
    (stack : HasStack k t base)
    (threads : k'.threadTable = Function.update k.threadTable t .new)
    (kernelStacks : k'.kernelStacks = k.kernelStacks.erase base) : Stacked k' := by
  have others : ∀ {u}, u ≠ t → k'.threadTable u = k.threadTable u := fun other => by
    rw [threads, Function.update_of_ne other]
  have stays : ∀ {u}, (k'.threadTable u).state ≠ .unused → u ≠ t := by
    intro u usedU same
    rw [same, threads, Function.update_self] at usedU
    exact usedU rfl
  refine ⟨?_, fun u used' => ?_, fun u v other usedU usedV => ?_⟩
  · rw [kernelStacks]
    exact stacked.apart.sublist List.erase_sublist
  · have other := stays used'
    rw [others other] at used'
    obtain ⟨base', member, top⟩ := stacked.owned u used'
    have different : base' ≠ base := by
      rintro rfl
      exact stacked.alone u t other used' used (top.trans stack.2.symm)
    exact ⟨base', by rw [kernelStacks]; exact (List.mem_erase_of_ne different).mpr member, by rw
      [others other, top]⟩
  · have stayU := stays usedU
    have stayV := stays usedV
    rw [others stayU] at usedU ⊢
    rw [others stayV] at usedV ⊢
    exact stacked.alone u v other usedU usedV

theorem nodup (stacked : Stacked k) : k.kernelStacks.Nodup :=
  stacked.apart.imp fun apart same => by
    subst same
    simp only [Apart, STACK_SIZE, STACK_PAGES, PAGE_SIZE] at apart
    omega

theorem apart_of {a b : Nat} (stacked : Stacked k) (other : t ≠ u)
    (usedT : (k.threadTable t).state ≠ .unused)
    (usedU : (k.threadTable u).state ≠ .unused) (stackT : HasStack k t a)
    (stackU : HasStack k u b) : Apart a b := by
  refine stacked.apart.forall stackT.1 stackU.1 fun same => ?_
  subst same
  exact stacked.alone t u other usedT usedU (stackT.2.trans stackU.2.symm)

end Stacked

theorem HasStack.released {tid base : Nat} {mem' : MemState} (stack : HasStack k tid base) :
    (k.released c tid mem').kernelStacks = k.kernelStacks.erase base := by
  have top : (k.threadTable tid).kstack ≠ 0 := by
    rw [stack.2]
    simp only [STACK_SIZE, STACK_PAGES, PAGE_SIZE]
    omega
  have shape : (k.released c tid mem').kernelStacks = if (k.threadTable tid).kstack ≠ 0
      then k.kernelStacks.erase ((k.threadTable tid).kstack - STACK_SIZE) else k.kernelStacks := rfl
  rw [shape, if_pos top, stack.2, Nat.add_sub_cancel]

/-- The body of a call keeps the stacks in order. -/
theorem Body.stacked (body : Body cfg t what k k')
    (fits : ∀ kstack, what = .fork kstack → Fresh k kstack)
    (stacked : Stacked k) : Stacked k' := by
  cases body with
  | same => exact stacked
  | mem => exact stacked.congr rfl fun _ => ⟨rfl, Iff.rfl⟩
  | kill => exact stacked.congr rfl fun _ => ⟨rfl, Iff.rfl⟩
  | fork stack used free freeT tf copied =>
      exact stacked.add (fits _ rfl) stack rfl (Function.update_idem ..) rfl
  | forkFails stack used freeT => exact stacked.add (fits _ rfl) stack rfl rfl rfl
  | exec tf =>
      refine stacked.congr rfl fun u => ?_
      by_cases here : u = t
      · subst here
        rw [Kernel.committed_thread]
        exact ⟨rfl, Iff.rfl⟩
      · rw [Kernel.committed_ne _ _ _ _ _ here]
        exact ⟨rfl, Iff.rfl⟩
  | reap caller found owns zombie other =>
      obtain ⟨base, stack⟩ := stacked.owned _ owns.used
      exact stacked.free owns.used stack rfl stack.released

theorem EndsFrom.stacked (ends : EndsFrom t m₁ m') (stacked : Stacked m₁.kernel) :
    Stacked m'.kernel := by
  rcases ends with ⟨touches, -⟩ | ⟨same, -⟩
  · exact stacked.keeps touches.kernelStacks touches.keeps
  · rwa [same]

theorem Stacked.calling {rsp : Nat} {regs : TrapFrame} (stacked : Stacked m.kernel) :
    Stacked (m.calling t rsp regs).kernel := by
  refine stacked.congr rfl fun u => ?_
  by_cases here : u = t
  · subst here
    rw [calling_thread]
    exact ⟨rfl, Iff.rfl⟩
  · rw [calling_ne _ _ _ here]
    exact ⟨rfl, Iff.rfl⟩

/-- A step keeps the stacks in order. -/
theorem Shape.stacked {event : Event} (shape : Shape cfg m m' event) (fits : HeapFits m event)
    (stacked : Stacked m.kernel) : Stacked m'.kernel := by
  cases shape with
  | idle kernel pc pc' => rwa [kernel]
  | switch here found switched pc => exact stacked.keeps switched.kernelStacks switched.keeps
  | late here found switched touches away =>
      exact (stacked.keeps switched.kernelStacks switched.keeps).keeps touches.kernelStacks touches.keeps
  | tick touches away => exact stacked.keeps touches.kernelStacks touches.keeps
  | killed here serves killed touches away => exact stacked.keeps touches.kernelStacks touches.keeps
  | proceed here body ends => exact ends.stacked (body.stacked (fun _ is => nomatch is) stacked)
  | call here serves spared body ends =>
      refine ends.stacked (body.stacked (fun kstack is => ?_) stacked.calling)
      subst is
      exact fits

theorem Stacked.create {creation : Creation} (stacked : Stacked k)
    (fits : Fresh k (match creation with | .kernelThread kstack => kstack | .userProcess kstack _ => kstack))
    (created : create cfg creation k = .ok () k') : Stacked k' := by
  cases creation with
  | kernelThread kstack =>
      obtain ⟨tid, -, -, threads, -, -, kernelStacks, stack⟩ := createKernelThread_ok created
      exact stacked.add fits stack rfl threads kernelStacks
  | userProcess kstack path =>
      obtain ⟨-, prepared, -, pid, tid, -, -, -, -, -, threads, -, -, kernelStacks, stack⟩ :=
        createUserProcessFromPath_ok created
      exact stacked.add fits stack rfl threads kernelStacks

theorem Stacked.boot {creations : List Creation} (stacked : Stacked k)
    (fits : HeapFitsBoot cfg creations k)
    (created : (Prog.each creations (System.create cfg)) k = .ok () k') : Stacked k' := by
  induction creations generalizing k with
  | nil =>
      obtain ⟨-, rfl⟩ := Outcome.ok.inj created
      exact stacked
  | cons creation rest ih =>
      rw [Prog.each] at created
      obtain ⟨_, k₁, first, created⟩ := Prog.bind_eq_ok.mp created
      exact ih (stacked.create fits.1 first) (fits.2 k₁ first) created

theorem HeapRuns.reachable (run : HeapRuns cfg m) : Reachable cfg m := by
  induction run with
  | boot memory created fits => exact ⟨_, .intro memory created, .refl⟩
  | step run fits taken ih => exact ih.step taken

theorem HeapRuns.stacked (lower : cfg.LowerHalf) (run : HeapRuns cfg m) : Stacked m.kernel := by
  induction run with
  | boot memory created fits =>
      refine Stacked.boot ⟨.nil, fun t used => absurd rfl used, fun t u other used =>
        absurd rfl used⟩ fits created
  | step run fits taken ih => exact
      (step_shape lower (run.reachable.inv lower) taken).stacked fits ih

/-- What `free_thread` finds when `wait` gives the stack of a child back. -/
structure GivesBack (k : Kernel) (caller z : Process) (tid base : Nat) : Prop where
  child : z.ppid = some caller.pid
  zombie : z.state = .zombie
  threads : z.threads = [tid]
  thread : (k.threadTable tid).state = .zombie
  stack : HasStack k tid base
  idle : k.cpu.currentTid ≠ some tid
  elsewhere : ∃ t own, k.cpu.currentTid = some t ∧ (k.threadTable t).pid = some caller.pid ∧
    HasStack k t own ∧
    k.cpu.kernelSyscallRsp = own + STACK_SIZE ∧ Apart own base
  once : base ∉ k.kernelStacks.erase base

/-- How a step changes which stacks are allocated. One is given back in a round of `wait` of
    the parent only. -/
inductive StackStep (m m' : Machine) : Prop where
  | same (kernelStacks : m'.kernel.kernelStacks = m.kernel.kernelStacks)
  | taken (kstack : Nat) (fresh : ∀ base ∈ m.kernel.kernelStacks, Apart kstack base)
      (kernelStacks : m'.kernel.kernelStacks = kstack :: m.kernel.kernelStacks)
  | given (k : Kernel) (caller z : Process) (j tid base : Nat) (waits : WaitRuns m k caller)
      (found : zombieChild caller.pid k = some j) (entry : k.processTable j = some z)
      (gives : GivesBack k caller z tid base)
      (zombie : (m.kernel.threadTable tid).state = .zombie) (stack : HasStack m.kernel tid base)
      (idle : m.kernel.cpu.currentTid ≠ some tid) (slot : m'.kernel.threadTable tid = .new)
      (kernelStacks : m'.kernel.kernelStacks = m.kernel.kernelStacks.erase base)

theorem Owns.zombie (owns : Owns k j z t) (zombie : z.state = .zombie) :
    (k.threadTable t).state = .zombie := by
  rcases owns.plays with ⟨alive, -⟩ | ⟨-, is⟩
  · cases alive.symm.trans zombie
  · exact is

theorem WaitRuns.onCpu (inv : m.Inv cfg) (waits : WaitRuns m k c) :
    ∃ t, k.cpu.currentTid = some t ∧ k.cpu.kernelSyscallRsp = (k.threadTable t).kstack := by
  cases waits with
  | @called t i rsp p regs pc serves _ =>
      have cpu := ((inv.user pc).calling rsp regs).cpu
      exact ⟨_, cpu.tid, cpu.syscallStack⟩
  | resumed pc cont =>
      have cpu := inv.onCpu (.inl pc)
      exact ⟨_, cpu.tid, cpu.syscallStack⟩

/-- A round of `wait` gives back the stack of a zombie, from the stack of another thread. -/
theorem WaitRuns.givesBack (inv : m.Inv cfg) (stacked : Stacked m.kernel) (waits : WaitRuns m k c)
    (found : zombieChild c.pid k = some j) (entry : k.processTable j = some z) :
    ∃ tid base, GivesBack k c z tid base := by
  have stacked : Stacked k := by
    cases waits with
    | called => exact stacked.calling
    | resumed => exact stacked
  obtain ⟨t, current, top⟩ := waits.onCpu inv
  obtain ⟨m', t', i, p, rfl, kept, serves, copy⟩ := waits.serves inv
  subst copy
  obtain rfl := Option.some.inj (current.symm.trans serves.tid)
  obtain ⟨z', tid, f, entry', zombie, parent, -, -, other, owns, -, -⟩ := serves.child kept found
  obtain rfl := Option.some.inj (entry'.symm.trans entry)
  have different : t ≠ tid := by
    rintro rfl
    exact other (Option.some.inj (owns.pid.symm.trans serves.pid))
  obtain ⟨base, stack⟩ := stacked.owned tid owns.used
  obtain ⟨own, stackT⟩ := stacked.owned t serves.owns.used
  exact ⟨tid, base, parent, zombie, owns.threads, owns.zombie zombie, stack,
    fun is => different (Option.some.inj (current.symm.trans is)),
    ⟨t, own, current, serves.pid, stackT, top.trans stackT.2,
      stacked.apart_of different serves.owns.used owns.used stackT stack⟩,
        stacked.nodup.not_mem_erase⟩

/-- The stack of the child that the body of `wait` reaps. -/
structure Reaped (t : Nat) (k k' : Kernel) (i j : Nat) (z : Process) (tid base : Nat) : Prop where
  caller : (k.threadTable t).pid = some i
  found : zombieChild i k = some j
  entry : k.processTable j = some z
  threads : z.threads = [tid]
  stack : HasStack k tid base
  other : tid ≠ t
  slot : k'.threadTable tid = .new
  kernelStacks : k'.kernelStacks = k.kernelStacks.erase base

/-- What the body of a call does to the stacks. -/
theorem Body.stackStep (body : Body cfg t what k k')
    (fits : ∀ kstack, what = .fork kstack → Fresh k kstack)
    (stacked : Stacked k) :
    k'.kernelStacks = k.kernelStacks ∨
    (∃ kstack, (∀ base ∈ k.kernelStacks, Apart kstack base) ∧
    k'.kernelStacks = kstack :: k.kernelStacks) ∨
    ∃ i j z tid base, Reaped t k k' i j z tid base := by
  cases body with
  | same => exact .inl rfl
  | mem => exact .inl rfl
  | kill => exact .inl rfl
  | exec tf => exact .inl rfl
  | fork stack used free freeT tf copied =>
      exact .inr (.inl ⟨_, (fits _ rfl).resolve_left stack, rfl⟩)
  | forkFails stack used freeT => exact .inr (.inl ⟨_, (fits _ rfl).resolve_left stack, rfl⟩)
  | @reap i _ j z tid _ _ caller found owns zombie other entry =>
      obtain ⟨base, stack⟩ := stacked.owned _ owns.used
      exact .inr (.inr ⟨i, j, z, tid, base, caller, found, entry, owns.threads, stack, other,
        Kernel.released_at ..,
        stack.released⟩)

/-- A zombie stays one until its slot is cleared. -/
theorem Body.zombie (body : Body cfg t what k k') (zombie : (k.threadTable u).state = .zombie) :
    (k'.threadTable u).state = .zombie ∨ (u ≠ t ∧ k'.threadTable u = .new) := by
  by_cases here : u = t
  · subst here
    exact .inl (body.state.trans zombie)
  · have used : (k.threadTable u).state ≠ .unused := fun is => nomatch is.symm.trans zombie
    cases body with
    | same => exact .inl zombie
    | mem => exact .inl zombie
    | kill => exact .inl zombie
    | exec tf => exact .inl (by rw [Kernel.committed_ne _ _ _ _ _ here]; exact zombie)
    | fork stack _ free freeT tf copied =>
        have other := used_ne used freeT
        exact .inl ((congrArg Thread.state
          ((Kernel.setThread_ne _ other).trans (Kernel.setThread_ne _ other))).trans zombie)
    | forkFails stack _ freeT =>
        exact .inl ((congrArg Thread.state
          (Kernel.setThread_ne _ (used_ne used freeT))).trans zombie)
    | @reap _ i j z tid mem' caller found owns is other =>
        by_cases freed : u = tid
        · subst freed
          exact .inr ⟨here, Kernel.released_at ..⟩
        · rw [Kernel.released_ne _ _ _ freed]
          exact .inl zombie

theorem Body.ends_zombie (body : Body cfg t what k m₁.kernel) (ends : EndsFrom t m₁ m')
    (zombie : (k.threadTable u).state = .zombie) :
    (m'.kernel.threadTable u).state = .zombie ∨ m'.kernel.threadTable u = .new := by
  rcases body.zombie zombie with stays | ⟨other, gone⟩
  · exact .inl ((ends.keeps u).zombie stays)
  · exact .inr ((ends.others other).trans gone)

/-- A zombie stays one in every step, until its slot is cleared. -/
theorem Shape.zombie {event : Event} (shape : Shape cfg m m' event)
    (zombie : (m.kernel.threadTable u).state = .zombie) :
    (m'.kernel.threadTable u).state = .zombie ∨ m'.kernel.threadTable u = .new := by
  cases shape with
  | idle kernel pc pc' => exact .inl (by rwa [kernel])
  | switch here found switched pc => exact .inl ((switched.keeps u).zombie zombie)
  | late here found switched touches away =>
      exact .inl (((switched.keeps u).trans (touches.keeps u)).zombie zombie)
  | tick touches away => exact .inl ((touches.keeps u).zombie zombie)
  | killed here serves killed touches away => exact .inl ((touches.keeps u).zombie zombie)
  | proceed here body ends => exact body.ends_zombie ends zombie
  | @call t _ _ _ rsp regs _ here serves spared body ends =>
      refine body.ends_zombie ends ?_
      by_cases own : u = t
      · subst own
        rw [calling_thread]
        exact zombie
      · rwa [calling_ne _ _ _ own]

/-- Threads are dispatched that were runnable. -/
theorem Shape.dispatched {event : Event} (shape : Shape cfg m m' event) (pc : m'.pc = .kernel u) :
    (m.kernel.threadTable u).state = .runnable := by
  have gone : ∀ {t m₁}, EndsFrom t m₁ m' → False := by
    rintro t m₁ (⟨-, away⟩ | ⟨-, pc'⟩)
    · exact away.no_thread u (.inl pc)
    · cases pc.symm.trans pc'
  cases shape with
  | idle kernel _ pc' => cases pc.symm.trans pc'
  | switch here found switched pc' =>
      obtain rfl := Pc.kernel.inj (pc.symm.trans pc')
      exact switched.runnable
  | late here found switched touches away => exact (away.no_thread u (.inl pc)).elim
  | tick touches away => exact (away.no_thread u (.inl pc)).elim
  | killed here serves killed touches away => exact (away.no_thread u (.inl pc)).elim
  | proceed here body ends => exact (gone ends).elim
  | call here serves spared body ends => exact (gone ends).elim

/-- A round of `wait` that reaps a child gives back its stack. -/
theorem Reaped.stackStep {tid base : Nat} (reaped : Reaped t k m₁.kernel i j z tid base)
    (inv : m.Inv cfg)
    (stacked : Stacked m.kernel) (waits : WaitRuns m k c) (current : k.cpu.currentTid = some t)
    (cpu : m.kernel.cpu.currentTid = some t)
    (same : ∀ u ≠ t, k.threadTable u = m.kernel.threadTable u)
    (allocated : k.kernelStacks = m.kernel.kernelStacks) (ends : EndsFrom t m₁ m') :
    StackStep m m' := by
  obtain ⟨m₂, t', i', p, kernel, -, serves, copy⟩ := waits.serves inv
  subst kernel
  obtain rfl := Option.some.inj (current.symm.trans serves.tid)
  obtain rfl : i = i' := Option.some.inj (reaped.caller.symm.trans serves.pid)
  subst copy
  obtain ⟨tid', base', gives⟩ := waits.givesBack inv stacked reaped.found reaped.entry
  obtain rfl := (List.cons.inj (reaped.threads.symm.trans gives.threads)).1
  obtain rfl : base = base' := Nat.add_right_cancel (reaped.stack.2.symm.trans gives.stack.2)
  have there := same _ reaped.other
  have zombie := gives.thread
  have stack := gives.stack
  rw [there] at zombie
  rw [HasStack, there, allocated] at stack
  refine .given _ c z j _ base waits reaped.found reaped.entry gives zombie stack (fun is => ?_)
    ((ends.others reaped.other).trans reaped.slot) ?_
  · exact reaped.other (Option.some.inj (is.symm.trans cpu))
  · rw [ends.kernelStacks, reaped.kernelStacks, allocated]

/-- A thread that goes on elsewhere than in `wait` leaves the stacks as they are. -/
theorem proceed_stacks (taken : m.proceed t = some m')
    (other : ∀ c r, m.continuation t ≠ .wait c r) :
    m'.kernel.kernelStacks = m.kernel.kernelStacks := by
  rw [Machine.proceed] at taken
  cases cont : m.continuation t with
  | kthread => simp [cont] at taken
  | wait c r => exact absurd cont (other c r)
  | _ =>
      simp only [cont, Option.some.injEq] at taken
      exact taken ▸ rfl

/-- Stacks are allocated by `fork`, and given back by the `wait` of the parent of a zombie. -/
theorem Shape.stackStep {event : Event} (shape : Shape cfg m m' event)
    (taken : step cfg m event = some m')
    (inv : m.Inv cfg) (fits : HeapFits m event) (stacked : Stacked m.kernel) : StackStep m m' := by
  cases shape with
  | idle kernel pc pc' => exact .same (by rw [kernel])
  | switch here found switched pc => exact .same switched.kernelStacks
  | late here found switched touches away =>
      exact .same (touches.kernelStacks.trans switched.kernelStacks)
  | tick touches away => exact .same touches.kernelStacks
  | killed here serves killed touches away => exact .same touches.kernelStacks
  | @proceed t m₁ here body ends =>
      have current := (inv.onCpu (.inl here)).tid
      simp only [step, here] at taken
      by_cases waits : ∃ c r, m.continuation t = .wait c r
      · obtain ⟨c, r, cont⟩ := waits
        rcases body.stackStep (fun _ is => by cases is) stacked with same | ⟨kstack, fresh, taken⟩ |
          ⟨i, j, z, tid, base, reaped⟩
        · exact .same (ends.kernelStacks.trans same)
        · exact .taken kstack fresh (ends.kernelStacks.trans taken)
        · exact reaped.stackStep inv stacked (.resumed here cont) current current
            (fun _ _ => rfl) rfl ends
      · exact .same (proceed_stacks taken fun c r is => waits ⟨c, r, is⟩)
  | @call t _ _ _ rsp regs _ here serves spared body ends =>
      have current := (inv.onCpu (.inr here)).tid
      rcases body.stackStep (fun kstack is => by subst is; exact fits) stacked.calling with
        same | ⟨kstack, fresh, taken⟩ | ⟨i, j, z, tid, base, reaped⟩
      · exact .same (ends.kernelStacks.trans same)
      · exact .taken kstack fresh (ends.kernelStacks.trans taken)
      · exact reaped.stackStep inv stacked (.called here serves spared) current current
          (fun u other => calling_ne m _ _ other) rfl ends

/-- Kernel stacks are given back once, by the `wait` of the parent of a zombie that is
    not on the CPU; zombies are not dispatched, and a thread that is has an allocated
    stack of its own. -/
theorem kernel_stack_lifetime (lower : cfg.LowerHalf) (run : HeapRuns cfg m) :
    (∀ k c j z, WaitRuns m k c → zombieChild c.pid k = some j → k.processTable j = some z →
      ∃ tid base, GivesBack k c z tid base) ∧
    ∀ event m', HeapFits m event → step cfg m event = some m' →
      StackStep m m' ∧
      (∀ t, (m.kernel.threadTable t).state = .zombie →
        m'.pc ≠ .kernel t ∧ ((m'.kernel.threadTable t).state = .zombie ∨
          m'.kernel.threadTable t = .new)) ∧
      ∀ t, m'.pc = .kernel t → ∃ base, HasStack m'.kernel t base ∧
        ∀ u ≠ t, (m'.kernel.threadTable u).state ≠ .unused → ∃ other, HasStack m'.kernel u other ∧
          Apart base other := by
  have inv := run.reachable.inv lower
  have stacked := run.stacked lower
  refine ⟨fun k c j z waits found entry => waits.givesBack inv stacked found entry,
    fun event m' fits taken => ?_⟩
  have shape := step_shape lower inv taken
  have stacked' := shape.stacked fits stacked
  refine ⟨shape.stackStep taken inv fits stacked, fun t zombie =>
    ⟨fun pc => ?_, shape.zombie zombie⟩, fun t pc => ?_⟩
  · cases (shape.dispatched pc).symm.trans zombie
  · have used : (m'.kernel.threadTable t).state ≠ .unused :=
      (((run.step fits taken).reachable.inv lower).onCpu (.inl pc)).ready.started.1
    obtain ⟨base, stack⟩ := stacked'.owned t used
    refine ⟨base, stack, fun u other usedU => ?_⟩
    obtain ⟨base', stackU⟩ := stacked'.owned u usedU
    exact ⟨base', stackU, stacked'.apart_of other.symm used usedU stack stackU⟩

theorem exists_fresh (k : Kernel) : ∃ kstack ≠ 0, Fresh k kstack := by
  refine ⟨k.kernelStacks.sum + STACK_SIZE, (Nat.add_pos_right _ (by decide)).ne',
    .inr fun base member => .inr ?_⟩
  have below := List.le_sum_of_mem member
  omega

/-- A plan is followed on a heap that keeps its promise. -/
theorem plan_heapRuns {v : Scene} (frames : Nat) (plan : List Move)
    (fits : frames + BARE_FRAMES ≤ 2 ^ 30)
    (followed : (Scene.booted frames).follow plan = some v) :
    ∃ m, Shows bareConfig m v ∧ HeapRuns bareConfig m := by
  obtain ⟨k, created, -, shown⟩ := boots_bare frames fits
  have start : HeapFitsBoot bareConfig [.userProcess 1 barePath]
    (.initial (bareMemory (frames + BARE_FRAMES) fits) 0) :=
    ⟨.inr fun _ member => absurd member List.not_mem_nil, fun _ _ => trivial⟩
  refine Shows.follow_keeps (R := HeapRuns bareConfig) bareConfig_lower
    (fun {m v v' move} _ run _ => ?_) shown
    (.boot (bareMemory_boot fits) created start) followed
  obtain ⟨kstack, nonnull, fresh⟩ := exists_fresh m.kernel
  refine ⟨kstack, nonnull, fun m' taken => run.step ?_ taken⟩
  cases move with
  | fork => exact fresh
  | schedule => trivial
  | proceed => trivial
  | tick => trivial
  | exit => trivial
  | kill pid => trivial
  | wait => trivial

/-- The first process gives back the stack of its child. -/
theorem kernel_stack_lifetime_bereft : ∃ m c z tid base m' status, HeapRuns bareConfig m ∧
    WaitRuns m (m.calling 0 0 .new).kernel c ∧
      zombieChild c.pid (m.calling 0 0 .new).kernel = some 1 ∧
      GivesBack (m.calling 0 0 .new).kernel c z tid base ∧
      step bareConfig m (.call 0 .new .wait) = some m' ∧ StackStep m m' ∧
        .reaped 0 1 status ∈ m'.history := by
  obtain ⟨m, shown, run⟩ := plan_heapRuns (v := .bereft) 40
    [.schedule, .proceed, .fork, .tick, .schedule, .proceed, .exit, .schedule, .proceed]
    (by decide) (by decide)
  obtain ⟨-, -, -, -, -, -, p, serves, spared, -⟩ := shown.running bareConfig_lower rfl (by decide)
  have waits : WaitRuns m (m.calling 0 0 .new).kernel p :=
    .called (shown.pc.trans rfl) serves spared
  have found : zombieChild p.pid (m.calling 0 0 .new).kernel = some 1 := by
    rw [serves.whole.pid]
    exact shown.zombieChild_eq (by decide)
  obtain ⟨z, entry⟩ := shown.entry_of (i := 1) (by decide)
  have taken := shown.call_step bareConfig_lower rfl (by decide) .wait
  obtain ⟨gives, steps⟩ := kernel_stack_lifetime bareConfig_lower run
  obtain ⟨tid, base, given⟩ := gives _ p 1 z waits found entry
  obtain ⟨status, reaped⟩ := shown.reaps (i := 1) bareConfig_lower rfl (by decide) (by decide)
  exact ⟨m, p, z, tid, base, _, status, run, waits, found, given, taken,
    (steps (.call 0 .new .wait) _ trivial taken).1, reaped⟩

end FerriOS.System
