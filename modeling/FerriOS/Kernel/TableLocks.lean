import Mathlib.Logic.Relation
import Mathlib.Logic.Function.Basic
import Mathlib.Data.List.Basic

/-! # The table locks and the timer

What the routines around the scheduler do to `THREAD_TABLE`, `CPU` and the interrupt
flag of the single CPU, one instruction after the other. A timer tick comes between
any two of them while the flag is set.
-/

namespace FerriOS.Locks

inductive Lock where
  | threadTable | cpu
  deriving DecidableEq

open Lock

inductive Op where
  | disable
  | enable
  /-- `hlt`, which the next interrupt ends. -/
  | halt
  | lock (l : Lock)
  | unlock (l : Lock)
  /-- `find_next_runnable_thread` and the `match` on its result. -/
  | choose
  /-- `if current_tid.is_none()`, in `on_yield` or in `on_syscall_yield`. -/
  | branch (onYield : Bool)
  /-- `switch_context` from the current thread to the scheduler. -/
  | toScheduler
  /-- `switch_context` from the scheduler to a thread. -/
  | toThread (t : Nat)
  /-- A program, or the body of a kernel thread. -/
  | work
  /-- `iretq` or `sysretq` to a program. -/
  | toUser
  /-- `iretq` to the code that was interrupted. -/
  | iretq

open Op

inductive Routine where
  | scheduler | kthreadEntry | trampoline
  /-- The rest of a routine behind the early return of its yield. -/
  | lateReturn
  | syscall | timerHandler | user
  deriving DecidableEq

/-- A routine with what is left of it. -/
structure Activation where
  routine : Routine
  ops : List Op

/-- What a `Context` and the stack it points to hold. -/
structure Saved where
  interrupts : Bool
  stack : List Activation

structure Cpu where
  /-- The interrupt flag. -/
  interrupts : Bool
  held : Lock → Bool
  /-- The routine that runs, and below it those that were interrupted. -/
  stack : List Activation
  /-- `current_tid`. -/
  current : Option Nat
  threads : Nat → Option Saved
  scheduler : Option Saved

/-- One round of the loop in `scheduler`. -/
def round : List Op := [lock threadTable, lock cpu, choose]

/-- `on_yield`, and `on_syscall_yield`, which does not enable interrupts behind the
    switch. -/
def yieldOps (onYield : Bool) : List Op := [disable, lock threadTable, lock cpu, branch onYield]

/-- What a system call does in one go: use the tables, or yield. -/
inductive Piece where
  /-- Guards are taken in this order and dropped in reverse. -/
  | guards (ls : List Lock) (once : ls.Nodup)
  | yields

def Piece.ops : Piece → List Op
  | guards ls _ => ls.map lock ++ ls.reverse.map unlock
  | yields => yieldOps false

def bodyOps (pieces : List Piece) : List Op := pieces.flatMap Piece.ops

def kthreadEntry : Activation :=
  ⟨.kthreadEntry, [enable, lock threadTable, lock cpu, unlock cpu, unlock threadTable, work]⟩

/-- `init_process_ring3_entry_trampoline` and `fork_return_trampoline`. -/
def trampoline : Activation :=
  ⟨.trampoline, [lock threadTable, lock cpu, unlock cpu, unlock threadTable, toUser]⟩

/-- A thread that has not run so far: its flags are 0x200. -/
def fresh (entry : Activation) : Saved := ⟨true, [entry]⟩

/-- `timer_interrupt_handler`; from user mode it looks whether the process was killed,
    and maybe ends it. -/
def timerHandler (fromUser : Bool) (pieces : List Piece) : Activation :=
  ⟨.timerHandler, (if fromUser then bodyOps pieces else []) ++ (yieldOps true ++ [iretq])⟩

namespace Cpu

def goto (s : Cpu) (routine : Routine) (ops : List Op) (below : List Activation) : Cpu :=
  { s with stack := ⟨routine, ops⟩ :: below }

/-- The next instruction, where there is only one. Locking a lock that is held spins. -/
def run (s : Cpu) : Option Cpu :=
  match s.stack with
  | ⟨r, disable :: ops⟩ :: below => some { s.goto r ops below with interrupts := false }
  | ⟨r, enable :: ops⟩ :: below => some { s.goto r ops below with interrupts := true }
  | ⟨r, halt :: ops⟩ :: below => some (s.goto r ops below)
  | ⟨r, lock l :: ops⟩ :: below =>
      if s.held l then none else some { s.goto r ops below with held := Function.update s.held l true }
  | ⟨r, unlock l :: ops⟩ :: below =>
      some { s.goto r ops below with held := Function.update s.held l false }
  | ⟨r, branch onYield :: ops⟩ :: below =>
      if s.current = none then some (s.goto .lateReturn (enable :: unlock cpu :: unlock threadTable :: ops) below)
      else some (s.goto r (unlock cpu :: unlock threadTable :: toScheduler :: if onYield then enable :: ops else ops) below)
  | ⟨r, toScheduler :: ops⟩ :: below =>
      match s.current, s.scheduler with
      | some t, some saved => some { s with
          threads := Function.update s.threads t (some ⟨s.interrupts, ⟨r, ops⟩ :: below⟩)
          stack := saved.stack
          interrupts := saved.interrupts }
      | _, _ => none
  | ⟨r, toThread t :: ops⟩ :: below =>
      (s.threads t).map fun saved => { s with
        scheduler := some ⟨s.interrupts, ⟨r, ops⟩ :: below⟩
        stack := saved.stack
        interrupts := saved.interrupts }
  | ⟨_, toUser :: _⟩ :: below => some { s.goto .user [work] below with interrupts := true }
  | ⟨_, iretq :: _⟩ :: below => some { s with stack := below, interrupts := true }
  | _ => none

/-- The decision of the scheduler. -/
def decideNext (s : Cpu) (next : Option Nat) : Option Cpu :=
  match s.stack with
  | ⟨r, choose :: _⟩ :: below =>
      match next with
      | none => some (s.goto r (unlock cpu :: unlock threadTable :: enable :: halt :: round) below)
      | some t => some { s.goto r
          (unlock cpu :: unlock threadTable :: toThread t :: round) below with current := some t }
  | _ => none

end Cpu

inductive Event where
  | run
  | choose (next : Option Nat)
  | tick (pieces : List Piece)
  /-- A program calls the kernel. -/
  | call (pieces : List Piece)
  /-- A `fork` makes the thread `t`. -/
  | spawn (t : Nat)

def step (s : Cpu) : Event → Option Cpu
  | .run => s.run
  | .choose next => s.decideNext next
  | .tick pieces =>
      match s.interrupts, s.stack with
      | true, a :: below => some { s with
          interrupts := false
          stack := timerHandler (a.routine = .user) pieces :: a :: below }
      | _, _ => none
  | .call pieces =>
      match s.stack with
      | ⟨.user, work :: _⟩ :: below =>
          some { s.goto .syscall (bodyOps pieces ++ [toUser]) below with interrupts := false }
      | _ => none
  | .spawn t => some { s with threads := Function.update s.threads t (some (fresh trampoline)) }

/-- The scheduler starts, with interrupts disabled, and the threads of the boot. -/
structure Starts (s : Cpu) : Prop where
  interrupts : s.interrupts = false
  held : ∀ l, s.held l = false
  stack : s.stack = [⟨.scheduler, round⟩]
  current : s.current = none
  threads : ∀ t saved, s.threads t = some saved → saved = fresh kthreadEntry ∨
    saved = fresh trampoline
  scheduler : s.scheduler = none
/-- Whether a routine holds the lock, by what is left of it. -/
def heldBy (l : Lock) : List Op → Bool
  | lock l' :: ops => if l' = l then false else heldBy l ops
  | unlock l' :: ops => if l' = l then true else heldBy l ops
  | disable :: ops => heldBy l ops
  | enable :: ops => heldBy l ops
  | halt :: ops => heldBy l ops
  | choose :: _ => true
  | branch _ :: _ => true
  | _ => false

def Free (ops : List Op) : Prop := ∀ l, heldBy l ops = false

/-- The routines that use the tables while interrupts are enabled: the entries of
    threads, the rounds of the scheduler after it was idle, and a yield that returns
    early. -/
def Routine.exposed : Routine → Bool
  | .scheduler | .kthreadEntry | .trampoline | .lateReturn => true
  | _ => false

/-- One of these routines has a table. -/
def Cpu.Exposed (s : Cpu) : Prop :=
  ∃ a below, s.stack = a :: below ∧ a.routine.exposed = true ∧ ¬ Free a.ops

/-- Code that takes a lock only while it is free, and with interrupts disabled unless
    it is exposed. -/
def Well (exposed : Bool) : Bool → List Op → Prop
  | _, disable :: ops => Well exposed false ops
  | _, enable :: ops => (exposed = false → Free ops) ∧ Well exposed true ops
  | b, halt :: ops => Well exposed b ops
  | b, lock l :: ops => (exposed = false → b = false) ∧ heldBy l ops = true ∧ Well exposed b ops
  | b, unlock l :: ops => heldBy l ops = false ∧ Well exposed b ops
  | _, choose :: _ => exposed = true
  | b, branch onYield :: ops => (exposed = false → b = false) ∧ Free ops ∧
      Well exposed (onYield || b) ops
  | b, toScheduler :: ops => Free ops ∧ Well exposed b ops
  | b, toThread _ :: ops => Free ops ∧ Well exposed b ops
  | _, _ => True

/-- A routine that was left, and goes on with the flag `interrupts`. -/
structure Rests (interrupts : Bool) (a : Activation) : Prop where
  free : Free a.ops
  well : Well a.routine.exposed interrupts a.ops

def Saved.Ok (saved : Saved) : Prop :=
  ∀ a below, saved.stack = a :: below → Rests saved.interrupts a ∧ ∀ b ∈ below, Rests true b

/-- The routine that runs. -/
structure Runs (interrupts : Bool) (held : Lock → Bool) (a : Activation) : Prop where
  held : ∀ l, held l = heldBy l a.ops
  flag : a.routine.exposed = false → interrupts = true → Free a.ops
  well : Well a.routine.exposed interrupts a.ops

structure Cpu.Inv (s : Cpu) : Prop where
  top : ∀ a below, s.stack = a :: below → Runs s.interrupts s.held a
  below : ∀ a below, s.stack = a :: below → ∀ b ∈ below, Rests true b
  threads : ∀ t saved, s.threads t = some saved → saved.Ok
  scheduler : ∀ saved, s.scheduler = some saved → saved.Ok

variable {s s' : Cpu} {r r' : Routine} {ops ops' rest : List Op} {below : List Activation}
  {a : Activation}
  {b exposed : Bool} {held : Lock → Bool} {l : Lock}

/-- What is well for hidden code is well for exposed code. -/
theorem Well.expose (well : Well exposed b ops) (b' : Bool) : Well true b' ops := by
  induction ops generalizing b b' with
  | nil => trivial
  | cons op ops ih =>
      cases op with
      | disable => exact ih well false
      | enable => exact ⟨(fun is => by cases is), ih well.2 true⟩
      | halt => exact ih well b'
      | lock l => exact ⟨(fun is => by cases is), well.2.1, ih well.2.2 b'⟩
      | unlock l => exact ⟨well.1, ih well.2 b'⟩
      | choose => rfl
      | branch onYield => exact ⟨(fun is => by cases is), well.2.1, ih well.2.2 _⟩
      | toScheduler => exact ⟨well.1, ih well.2 b'⟩
      | toThread t => exact ⟨well.1, ih well.2 b'⟩
      | work | toUser | iretq => trivial

/-- Guards are taken and dropped in front of other code. -/
theorem guards_well {ls : List Lock} (once : ls.Nodup) (free : ∀ l ∈ ls, heldBy l rest = false)
    (well : Well exposed false rest) :
    (∀ l, heldBy l (ls.map lock ++
    (ls.reverse.map unlock ++ rest)) = if l ∈ ls then false else heldBy l rest) ∧
      Well exposed false (ls.map lock ++ (ls.reverse.map unlock ++ rest)) := by
  induction ls generalizing rest with
  | nil => exact ⟨fun l => by simp, well⟩
  | cons l ls ih =>
      obtain ⟨fresh, once⟩ := List.nodup_cons.mp once
      have inner : ∀ x ∈ ls, heldBy x (unlock l :: rest) = false := fun x member => by
        have other : l ≠ x := by
          rintro rfl
          exact fresh member
        rw [heldBy, if_neg other]
        exact free x (List.mem_cons_of_mem _ member)
      obtain ⟨holds, wellInner⟩ := ih once inner ⟨free l List.mem_cons_self, well⟩
      have shape : (l :: ls).map lock ++ ((l :: ls).reverse.map unlock ++ rest) =
          lock l :: (ls.map lock ++ (ls.reverse.map unlock ++ (unlock l :: rest))) := by simp
      rw [shape]
      refine ⟨fun x => ?_, fun _ => rfl, ?_, wellInner⟩
      · rw [heldBy]
        by_cases here : l = x
        · subst here
          simp
        · rw [if_neg here, holds x, heldBy, if_neg here]
          simp [Ne.symm here]
      · rw [holds l, if_neg fresh, heldBy, if_pos rfl]

theorem yieldOps_well (onYield : Bool) (free : Free rest) (well : Well exposed onYield rest) :
    Free (yieldOps onYield ++ rest) ∧ Well exposed b (yieldOps onYield ++ rest) := by
  refine ⟨fun l => by cases l <;> rfl, fun _ => rfl, rfl, fun _ => rfl, rfl, fun _ => rfl, free, ?_⟩
  rwa [Bool.or_false]

/-- The body of a system call in front of other code. -/
theorem bodyOps_well (pieces : List Piece) (free : Free rest) (well : Well exposed false rest) :
    Free (bodyOps pieces ++ rest) ∧ Well exposed false (bodyOps pieces ++ rest) := by
  induction pieces with
  | nil => exact ⟨free, well⟩
  | cons piece pieces ih =>
      have shape : bodyOps (piece :: pieces) ++ rest = piece.ops ++ (bodyOps pieces ++ rest) := by
        simp [bodyOps]
      rw [shape]
      cases piece with
      | yields => exact yieldOps_well false ih.1 ih.2
      | guards ls once =>
          obtain ⟨holds, well⟩ := guards_well once (fun l _ => ih.1 l) ih.2
          rw [Piece.ops, List.append_assoc]
          refine ⟨fun l => ?_, well⟩
          rw [holds l]
          split
          · rfl
          · exact ih.1 l

theorem timerHandler_rests (fromUser : Bool) (pieces : List Piece) :
    Rests false (timerHandler fromUser pieces) := by
  have back : Free [iretq] ∧ Well false true [iretq] := ⟨fun l => by cases l <;> rfl, trivial⟩
  obtain ⟨free, well⟩ := yieldOps_well (b := false) true back.1 back.2
  cases fromUser with
  | false => exact ⟨free, well⟩
  | true =>
      obtain ⟨free, well⟩ := bodyOps_well pieces free well
      exact ⟨free, well⟩

theorem fresh_ok {entry : Activation} (entry' : entry = kthreadEntry ∨ entry = trampoline) :
    (fresh entry).Ok := by
  intro a below is
  obtain ⟨rfl, rfl⟩ := List.cons.inj is
  refine ⟨?_, fun b member => by cases member⟩
  rcases entry' with rfl | rfl
  · exact ⟨fun l => by cases l <;> rfl, by simp [kthreadEntry, Routine.exposed, Well, heldBy]⟩
  · exact ⟨fun l => by cases l <;> rfl, by simp [trampoline, Routine.exposed, Well, heldBy]⟩

theorem Rests.runs (rests : Rests b a) (free : ∀ l, held l = false) : Runs b held a :=
  ⟨fun l => (free l).trans (rests.free l).symm, fun _ _ => rests.free, rests.well⟩

namespace Cpu.Inv

variable (inv : s.Inv)

include inv

theorem goto (here : s.stack = a :: below) (runs : Runs b held ⟨r, ops⟩) :
    Cpu.Inv { s.goto r ops below with interrupts := b, held := held } := by
  refine ⟨fun a' below' is => ?_, fun a' below' is => ?_, inv.threads, inv.scheduler⟩
  · obtain ⟨rfl, rfl⟩ := List.cons.inj is
    exact runs
  · obtain ⟨rfl, rfl⟩ := List.cons.inj is
    exact inv.below a _ here

theorem leaves (here : s.stack = a :: below) (free : Free ops)
    (well : Well r.exposed s.interrupts ops) :
    Saved.Ok ⟨s.interrupts, ⟨r, ops⟩ :: below⟩ := by
  intro a' below' is
  obtain ⟨rfl, rfl⟩ := List.cons.inj is
  exact ⟨⟨free, well⟩, inv.below _ _ here⟩

end Cpu.Inv

theorem Saved.Ok.resume {saved : Saved} (ok : saved.Ok) (stack : s.stack = saved.stack)
    (interrupts : s.interrupts = saved.interrupts) (free : ∀ l, s.held l = false)
    (threads : ∀ t saved, s.threads t = some saved → saved.Ok)
    (scheduler : ∀ saved, s.scheduler = some saved → saved.Ok) :
    s.Inv :=
  ⟨fun a below is => interrupts ▸ (ok a below (stack ▸ is)).1.runs free, fun a below is =>
    (ok a below (stack ▸ is)).2,
    threads, scheduler⟩

theorem threads_update {threads : Nat → Option Saved} {t u : Nat} {saved new : Saved}
    (old : ∀ t saved, threads t = some saved → saved.Ok) (ok : new.Ok)
    (is : Function.update threads t (some new) u = some saved) : saved.Ok := by
  by_cases same : u = t
  · subst same
    rw [Function.update_self, Option.some.injEq] at is
    exact is ▸ ok
  · rw [Function.update_of_ne same] at is
    exact old u saved is

/-- One instruction of a routine that takes no lock that is held. -/
theorem Cpu.Inv.run (inv : s.Inv) (taken : s.run = some s') : s'.Inv := by
  rcases here : s.stack with _ | ⟨⟨r, _ | ⟨op, ops⟩⟩, below⟩
  · simp [Cpu.run, here] at taken
  · simp [Cpu.run, here] at taken
  · obtain ⟨held, flag, well⟩ := inv.top _ _ here
    cases op with
    | disable =>
        simp only [Cpu.run, here, Option.some.injEq] at taken
        exact taken ▸ inv.goto here ⟨held, (fun _ is => by cases is), well⟩
    | enable =>
        simp only [Cpu.run, here, Option.some.injEq] at taken
        exact taken ▸ inv.goto here ⟨held, fun hidden _ => well.1 hidden, well.2⟩
    | halt =>
        simp only [Cpu.run, here, Option.some.injEq] at taken
        exact taken ▸ inv.goto here ⟨held, flag, well⟩
    | lock l =>
        simp only [Cpu.run, here, Option.ite_none_left_eq_some, Option.some.injEq] at taken
        obtain ⟨-, rfl⟩ := taken
        refine inv.goto here ⟨fun x => ?_, fun hidden is => ?_, well.2.2⟩
        · by_cases same : x = l
          · subst same
            rw [Function.update_self]
            exact well.2.1.symm
          · have rest := held x
            rw [heldBy, if_neg (Ne.symm same)] at rest
            rw [Function.update_of_ne same]
            exact rest
        · cases (well.1 hidden).symm.trans is
    | unlock l =>
        simp only [Cpu.run, here, Option.some.injEq] at taken
        subst taken
        refine inv.goto here ⟨fun x => ?_, fun hidden is => ?_, well.2⟩
        · by_cases same : x = l
          · subst same
            rw [Function.update_self]
            exact well.1.symm
          · have rest := held x
            rw [heldBy, if_neg (Ne.symm same)] at rest
            rw [Function.update_of_ne same]
            exact rest
        · have free := flag hidden is l
          simp [heldBy] at free
    | choose => simp [Cpu.run, here] at taken
    | branch onYield =>
        obtain ⟨masked, free, rest⟩ := well
        have both : ∀ l, s.held l = true := fun l => by
          rw [held]
          rfl
        simp only [Cpu.run, here] at taken
        split at taken
        case isTrue =>
          obtain rfl := Option.some.inj taken
          refine inv.goto here ⟨fun l => ?_, (fun is => by cases is), ?_⟩
          · rw [both]
            cases l <;> rfl
          · refine ⟨(fun is => by cases is), ?_, free threadTable, rest.expose true⟩
            rw [heldBy, if_neg (by decide)]
            exact free cpu
        case isFalse =>
          obtain rfl := Option.some.inj taken
          refine inv.goto here ⟨fun l => ?_, fun hidden is => ?_, ?_⟩
          · rw [both]
            cases l <;> rfl
          · cases (masked hidden).symm.trans is
          · refine ⟨rfl, rfl, ?_⟩
            cases onYield with
            | false => exact ⟨free, rest⟩
            | true => exact ⟨free, fun _ => free, rest⟩
    | toScheduler =>
        simp only [Cpu.run, here] at taken
        split at taken
        case h_1 t saved current scheduler =>
          obtain rfl := Option.some.inj taken
          exact (inv.scheduler saved scheduler).resume rfl rfl held
            (fun u other => threads_update inv.threads
              (inv.leaves here well.1 well.2)) inv.scheduler
        case h_2 => cases taken
    | toThread t =>
        simp only [Cpu.run, here] at taken
        obtain ⟨saved, thread, rfl⟩ := Option.map_eq_some_iff.mp taken
        refine (inv.threads t saved thread).resume rfl rfl held inv.threads fun other is => ?_
        exact Option.some.inj is ▸ inv.leaves here well.1 well.2
    | work => simp [Cpu.run, here] at taken
    | toUser =>
        simp only [Cpu.run, here, Option.some.injEq] at taken
        exact taken ▸ inv.goto here ⟨held, fun _ _ l => rfl, trivial⟩
    | iretq =>
        simp only [Cpu.run, here, Option.some.injEq] at taken
        subst taken
        have rests := inv.below _ _ here
        refine ⟨fun a rest is => ?_, fun a rest is b member => ?_, inv.threads, inv.scheduler⟩
        · have same : below = a :: rest := is
          exact (rests a (same ▸ List.mem_cons_self)).runs held
        · have same : below = a :: rest := is
          exact rests b (same ▸ List.mem_cons_of_mem _ member)

/-- Ticks that find no exposed routine with a table. -/
def Spared (s : Cpu) : Event → Prop
  | .tick _ => ¬ s.Exposed
  | _ => True

theorem Cpu.Inv.step {event : Event} (inv : s.Inv) (spared : Spared s event)
    (taken : step s event = some s') : s'.Inv := by
  cases event with
  | run => exact inv.run taken
  | choose next =>
      simp only [Locks.step, Cpu.decideNext] at taken
      split at taken
      case h_1 r ops below here =>
        obtain ⟨held, -, exposed⟩ := inv.top _ _ here
        have exposed : r.exposed = true := exposed
        have both : ∀ l, s.held l = true := fun l => by
          rw [held]
          rfl
        cases next with
        | none =>
            obtain rfl := Option.some.inj taken
            refine inv.goto here ⟨fun l => ?_, fun hidden => ?_, ?_⟩
            · rw [both]
              cases l <;> rfl
            · cases exposed.symm.trans hidden
            · rw [exposed]
              exact ⟨rfl, rfl, (fun is => by cases is), (fun is => by cases is), rfl,
                (fun is => by cases is), rfl, rfl⟩
        | some t =>
            obtain rfl := Option.some.inj taken
            have inv' : Cpu.Inv { s with current := some t } :=
              ⟨inv.top, inv.below, inv.threads, inv.scheduler⟩
            refine inv'.goto here ⟨fun l => ?_, fun hidden => ?_, ?_⟩
            · refine (both l).trans ?_
              cases l <;> rfl
            · cases exposed.symm.trans hidden
            · rw [exposed]
              exact ⟨rfl, rfl, fun l => by cases l <;> rfl, (fun is => by cases is), rfl,
                (fun is => by cases is), rfl, rfl⟩
      case h_2 => cases taken
  | tick pieces =>
      simp only [Locks.step] at taken
      split at taken
      case h_1 a below on here =>
        obtain rfl := Option.some.inj taken
        obtain ⟨held, flag, well⟩ := inv.top _ _ here
        have free : Free a.ops := by
          cases exposed : a.routine.exposed with
          | true => exact not_not.mp fun holds => spared ⟨a, below, here, exposed, holds⟩
          | false => exact flag exposed on
        have handler := timerHandler_rests (a.routine = .user) pieces
        refine ⟨fun a' below' is => ?_, fun a' below' is b member => ?_, inv.threads, inv.scheduler⟩
        · obtain ⟨rfl, rfl⟩ := List.cons.inj is
          exact handler.runs fun l => (held l).trans (free l)
        · obtain ⟨rfl, rfl⟩ := List.cons.inj is
          rcases List.mem_cons.mp member with rfl | member
          · exact ⟨free, on ▸ well⟩
          · exact inv.below _ _ here b member
      case h_2 => cases taken
  | call pieces =>
      simp only [Locks.step] at taken
      split at taken
      case h_1 ops below here =>
        obtain rfl := Option.some.inj taken
        have back : Free [toUser] ∧ Well false false [toUser] :=
          ⟨fun l => by cases l <;> rfl, trivial⟩
        obtain ⟨free, well⟩ := bodyOps_well pieces back.1 back.2
        have held := (inv.top _ _ here).held
        exact inv.goto here ⟨fun l => (held l).trans (free l).symm, (fun _ is => by cases is), well⟩
      case h_2 => cases taken
  | spawn t =>
      obtain rfl := Option.some.inj taken
      exact ⟨inv.top, inv.below, fun u saved => threads_update inv.threads (fresh_ok (.inr rfl)),
        inv.scheduler⟩

theorem Starts.inv (starts : Starts s) : s.Inv := by
  refine ⟨fun a below is => ?_, fun a below is b member => ?_, fun t saved is => ?_,
    fun saved is => ?_⟩
  · rw [starts.stack] at is
    obtain ⟨rfl, rfl⟩ := List.cons.inj is
    refine ⟨fun l => ?_, (fun is => by cases is), ?_⟩
    · rw [starts.held]
      cases l <;> rfl
    · exact ⟨(fun is => by cases is), rfl, (fun is => by cases is), rfl, rfl⟩
  · rw [starts.stack] at is
    obtain ⟨rfl, rfl⟩ := List.cons.inj is
    cases member
  · rcases starts.threads t saved is with rfl | rfl
    · exact fresh_ok (.inl rfl)
    · exact fresh_ok (.inr rfl)
  · cases starts.scheduler.symm.trans is

/-- The timer handler is about to take a lock that is held. -/
def Cpu.Spins (s : Cpu) : Prop :=
  ∃ l ops below, s.stack = ⟨.timerHandler, lock l :: ops⟩ :: below ∧ s.held l = true

/-- In every run whose ticks spare the exposed routines, the timer handler never spins. -/
theorem handler_never_spins {s₀ : Cpu} (starts : Starts s₀)
    (run : Relation.ReflTransGen
    (fun s s' => ∃ event, Spared s event ∧ step s event = some s') s₀ s) : ¬ s.Spins := by
  have inv : s.Inv := by
    induction run with
    | refl => exact starts.inv
    | tail _ taken ih =>
        obtain ⟨event, spared, taken⟩ := taken
        exact ih.step spared taken
  rintro ⟨l, ops, below, here, held⟩
  have free := (inv.top _ _ here).held l
  rw [held, heldBy, if_pos rfl] at free
  cases free

theorem not_exposed (here : s.stack = a :: below) (free : Free a.ops) : ¬ s.Exposed := by
  rintro ⟨a', below', is, -, holds⟩
  obtain ⟨rfl, rfl⟩ := List.cons.inj (here.symm.trans is)
  exact holds free

/-- One thread, which has not run so far. -/
def boot (entry : Activation) : Cpu where
  interrupts := false
  held _ := false
  stack := [⟨.scheduler, round⟩]
  current := none
  threads t := if t = 0 then some (fresh entry) else none
  scheduler := none

theorem boot_starts : Starts (boot kthreadEntry) := by
  refine ⟨rfl, fun _ => rfl, rfl, rfl, fun t saved is => ?_, rfl⟩
  simp only [boot, Option.ite_none_right_eq_some, Option.some.injEq] at is
  exact .inl is.2.symm

/-- A kernel thread runs, and the timer ticks. -/
theorem handler_never_spins_kthread : ∃ s,
    Relation.ReflTransGen (fun s s' => ∃ event, Spared s event ∧ step s event = some s')
      (boot kthreadEntry) s ∧
      s.stack.head?.map Activation.routine = some .timerHandler ∧ ¬ s.Spins := by
  have chain : ∃ s, Relation.ReflTransGen
    (fun s s' => ∃ event, Spared s event ∧ step s event = some s') (boot kthreadEntry) s ∧
      s.stack.head?.map Activation.routine = some .timerHandler := by
    -- The scheduler switches to the thread, which enters its body.
    refine ⟨_, .head ⟨.run, trivial, rfl⟩ <| .head ⟨.run, trivial, rfl⟩ <|
      .head ⟨.choose (some 0), trivial, rfl⟩ <|
      .head ⟨.run, trivial, rfl⟩ <| .head ⟨.run, trivial, rfl⟩ <| .head ⟨.run, trivial, rfl⟩ <|
      .head ⟨.run, trivial, rfl⟩ <| .head ⟨.run, trivial, rfl⟩ <| .head ⟨.run, trivial, rfl⟩ <|
      .head ⟨.run, trivial, rfl⟩ <| .head ⟨.run, trivial, rfl⟩ <|
      .head ⟨.tick [], not_exposed rfl fun l => by cases l <;> rfl, rfl⟩ <|
        .head ⟨.run, trivial, rfl⟩ .refl, rfl⟩
  obtain ⟨s, run, handler⟩ := chain
  exact ⟨s, run, handler, handler_never_spins boot_starts run⟩

/-- The timer ticks while `kthread_entry` has the thread table. -/
theorem kthread_entry_deadlocks : ∃ s, Starts (boot kthreadEntry) ∧
    Relation.ReflTransGen (fun s s' => ∃ event, step s event = some s') (boot kthreadEntry) s ∧
      s.Spins := by
  refine ⟨_, boot_starts, .head ⟨.run, rfl⟩ <| .head ⟨.run, rfl⟩ <| .head ⟨.choose (some 0), rfl⟩ <|
    .head ⟨.run, rfl⟩ <| .head ⟨.run, rfl⟩ <| .head ⟨.run, rfl⟩ <| .head ⟨.run, rfl⟩ <|
      .head ⟨.run, rfl⟩ <|
    .head ⟨.tick [], rfl⟩ <| .head ⟨.run, rfl⟩ .refl, threadTable, _, _, rfl, rfl⟩

end FerriOS.Locks
