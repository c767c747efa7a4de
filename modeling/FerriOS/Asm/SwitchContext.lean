import FerriOS.Asm.SyscallStub

/-! # The context switch

`switch_context` restores RFLAGS before it has read the address to go on at. A timer
tick that is taken in between saves the thread over the context that the switch is
reading from.
-/

namespace FerriOS.Asm

open Reg

/-- The fields of a context that `switch_context` uses. -/
inductive Slot where
  | r15 | r14 | r13 | r12 | rbx | rbp | rsp | rip | rflags
  deriving DecidableEq, Repr

abbrev Context := Slot → Word

/-- The CPU in `switch_context`, with the two contexts and the memory of the stacks. -/
structure SwitchState where
  regs : Regs
  rflags : Word
  rip : Word
  stack : Word → Word
  old : Context
  new : Context

namespace SwitchState

def set (s : SwitchState) (r : Reg) (value : Word) : SwitchState :=
  { s with regs := Function.update s.regs r value }

def push (s : SwitchState) (value : Word) : SwitchState :=
  { s with stack := Function.update s.stack (s.regs rsp - 8) value }.set rsp (s.regs rsp - 8)

/-- The word on top of the stack. -/
def top (s : SwitchState) : Word := s.stack (s.regs rsp)

def drop (s : SwitchState) : SwitchState := s.set rsp (s.regs rsp + 8)

/-- The interrupt flag. -/
def interrupts (s : SwitchState) : Bool := s.rflags.getLsbD 9

end SwitchState

inductive SwitchInstr where
  /-- `mov [rdi + slot], r`. -/
  | save (slot : Slot) (r : Reg)
  /-- `mov r, [rsi + slot]`. -/
  | restore (r : Reg) (slot : Slot)
  /-- `lea rax, [rsp + 8]`. -/
  | returnRsp
  /-- `mov rax, [rsp]`. -/
  | returnRip
  | pushfq
  | popfq
  | push (r : Reg)
  | pop (r : Reg)
  /-- `push qword ptr [rsi + slot]`. -/
  | pushSlot (slot : Slot)
  | ret

def SwitchInstr.exec : SwitchInstr → SwitchState → SwitchState
  | .save slot r, s => { s with old := Function.update s.old slot (s.regs r) }
  | .restore r slot, s => s.set r (s.new slot)
  | .returnRsp, s => s.set rax (s.regs rsp + 8)
  | .returnRip, s => s.set rax s.top
  | .pushfq, s => s.push s.rflags
  | .popfq, s => { s.drop with rflags := s.top }
  | .push r, s => s.push (s.regs r)
  | .pop r, s => s.drop.set r s.top
  | .pushSlot slot, s => s.push (s.new slot)
  | .ret, s => { s.drop with rip := s.top }

/-- Everything up to the `popfq`. -/
def switchRestore : List SwitchInstr :=
  [.save .r15 r15, .save .r14 r14, .save .r13 r13, .save .r12 r12, .save .rbx rbx, .save .rbp rbp,
    .returnRsp, .save .rsp rax, .returnRip, .save .rip rax, .pushfq, .pop rax, .save .rflags rax,
    .restore r15 .r15, .restore r14 .r14, .restore r13 .r13, .restore r12 .r12, .restore rbx .rbx,
    .restore rbp .rbp, .restore rsp .rsp, .restore rax .rflags, .push rax]

/-- From the `popfq` on. -/
def switchJump : List SwitchInstr := [.popfq, .pushSlot .rip, .ret]

def switchContext : List SwitchInstr := switchRestore ++ switchJump

/-- What `on_yield` leaves in the context of the current thread, where its own call of
    `switch_context` returns to `onYieldReturn`. -/
structure SavedContext (onYieldReturn : Word) where
  context : Context
  rip : context .rip = onYieldReturn

variable {onYieldReturn : Word}

/-- A timer tick, or none, between two instructions. The tick is taken when interrupts
    are on; the scheduler has made the thread the current one, so `on_yield` saves into
    the context that the switch reads. When the thread is resumed, its registers are
    back, and what the interrupt pushed lies below its stack pointer. -/
def SwitchState.boundary (s : SwitchState) : Option (SavedContext onYieldReturn) → SwitchState
  | none => s
  | some saved => if s.interrupts then { s with new := saved.context } else s

/-- Run the code, with the ticks that come after each instruction. -/
def runSwitch : List SwitchInstr → List (Option (SavedContext onYieldReturn)) → SwitchState →
    SwitchState
  | [], _, s => s
  | i :: code, [], s => runSwitch code [] (i.exec s)
  | i :: code, tick :: ticks, s => runSwitch code ticks ((i.exec s).boundary tick)

/-- The registers that a context restores. -/
def calleeSaved : List (Reg × Slot) :=
  [(r15, .r15), (r14, .r14), (r13, .r13), (r12, .r12), (rbx, .rbx), (rbp, .rbp)]

/-- The thread goes on where the context says. -/
structure Continues (new : Context) (s : SwitchState) : Prop where
  rip : s.rip = new .rip
  rsp : s.regs rsp = new .rsp
  regs : ∀ pair ∈ calleeSaved, s.regs pair.1 = new pair.2

/-- The switch works whichever ticks come in between. -/
def SwitchAtomic (onYieldReturn : Word) (s : SwitchState) : Prop :=
  ∀ ticks : List (Option (SavedContext onYieldReturn)),
    Continues s.new (runSwitch switchContext ticks s)

theorem SwitchState.boundary_off {s : SwitchState} (off : s.interrupts = false)
    (tick : Option (SavedContext onYieldReturn)) :
    s.boundary tick = s := by
  cases tick with
  | none => rfl
  | some saved => rw [boundary, if_neg (by simp [off])]

/-- As long as no instruction touches RFLAGS and interrupts are off, ticks are ignored. -/
theorem runSwitch_off {code : List SwitchInstr}
    {ticks : List (Option (SavedContext onYieldReturn))} {s : SwitchState}
    (rest : List SwitchInstr) (flags : ∀ i ∈ code, ∀ s, (i.exec s).rflags = s.rflags)
    (off : s.interrupts = false) :
    runSwitch (code ++ rest) ticks s =
      runSwitch rest (ticks.drop code.length) (code.foldl (fun s i => i.exec s) s) := by
  induction code generalizing ticks s with
  | nil => rfl
  | cons i code ih =>
      have off' : (i.exec s).interrupts = false := by
        rw [SwitchState.interrupts, flags i List.mem_cons_self s]
        exact off
      have later := fun j member => flags j (List.mem_cons_of_mem i member)
      cases ticks with
      | nil =>
          rw [List.cons_append, runSwitch, ih later off', List.drop_nil, List.drop_nil]
          rfl
      | cons tick ticks =>
          rw [List.cons_append, runSwitch, SwitchState.boundary_off off', ih later off']
          rfl

theorem switchRestore_flags : ∀ i ∈ switchRestore, ∀ s, (i.exec s).rflags = s.rflags := by
  intro i member s
  simp only [switchRestore, List.mem_cons, List.not_mem_nil, or_false] at member
  rcases member with rfl | rfl | rfl | rfl | rfl | rfl | rfl | rfl | rfl | rfl | rfl | rfl | rfl | rfl | rfl | rfl |
    rfl | rfl | rfl | rfl | rfl | rfl <;> rfl

/-- The state before the `popfq`. -/
def SwitchState.restored (s : SwitchState) : SwitchState :=
  switchRestore.foldl (fun s i => i.exec s) s

theorem restored_top (s : SwitchState) : s.restored.top = s.new .rflags := by
  simp [SwitchState.restored, switchRestore, SwitchInstr.exec, SwitchState.top, SwitchState.drop,
    SwitchState.push,
    SwitchState.set]

theorem restored_rsp (s : SwitchState) : s.restored.regs rsp = s.new .rsp - 8 := by
  simp [SwitchState.restored, switchRestore, SwitchInstr.exec, SwitchState.drop, SwitchState.push,
    SwitchState.set]

theorem restored_regs (s : SwitchState) :
    ∀ pair ∈ calleeSaved, s.restored.regs pair.1 = s.new pair.2 := by
  intro pair member
  simp only [calleeSaved, List.mem_cons, List.not_mem_nil, or_false] at member
  rcases member with rfl | rfl | rfl | rfl | rfl | rfl <;>
    simp [SwitchState.restored, switchRestore, SwitchInstr.exec, SwitchState.drop,
      SwitchState.push, SwitchState.set]

theorem runSwitch_cons (i : SwitchInstr) (code : List SwitchInstr)
    (ticks : List (Option (SavedContext onYieldReturn)))
    (s : SwitchState) :
    runSwitch (i :: code) ticks s = runSwitch code ticks.tail
      ((i.exec s).boundary (ticks.headD none)) := by
  cases ticks <;> rfl

/-- A tick changes nothing, or puts a context that `on_yield` saved in place of the new one. -/
theorem SwitchState.boundary_cases (s : SwitchState) (tick : Option (SavedContext onYieldReturn)) :
    s.boundary tick = s ∨ ∃ saved : SavedContext onYieldReturn, s.interrupts = true ∧
      s.boundary tick = { s with new := saved.context } := by
  cases tick with
  | none => exact .inl rfl
  | some saved =>
      rw [boundary]
      cases flag : s.interrupts with
      | false => exact .inl rfl
      | true => exact .inr ⟨saved, rfl, rfl⟩

theorem SwitchState.boundary_rest (s : SwitchState) (tick : Option (SavedContext onYieldReturn)) :
    ∃ new, s.boundary tick = { s with new } := by
  rcases s.boundary_cases tick with same | ⟨saved, -, changed⟩
  · exact ⟨s.new, same⟩
  · exact ⟨saved.context, changed⟩

/-- The end of the switch, where a tick after the `popfq` finds interrupts off, or the
    address that it would write. -/
theorem runSwitch_jump (s : SwitchState) (ticks : List (Option (SavedContext onYieldReturn)))
    (quiet : s.top.getLsbD 9 = false ∨ s.new .rip = onYieldReturn) :
    (runSwitch switchJump ticks s).rip = s.new .rip ∧
      (runSwitch switchJump ticks s).regs rsp = s.regs rsp + 8 ∧
        ∀ r ≠ rsp, (runSwitch switchJump ticks s).regs r = s.regs r := by
  rw [switchJump, runSwitch_cons, runSwitch_cons, runSwitch_cons, runSwitch]
  obtain ⟨new, popped, rip⟩ : ∃ new, (SwitchInstr.popfq.exec s).boundary (ticks.headD none) =
      { SwitchInstr.popfq.exec s with new } ∧ new .rip = s.new .rip := by
    rcases (SwitchInstr.popfq.exec s).boundary_cases (ticks.headD none) with same |
      ⟨saved, on, changed⟩
    · exact ⟨_, same, rfl⟩
    · refine ⟨_, changed, saved.rip.trans (quiet.resolve_left fun off => ?_).symm⟩
      cases off.symm.trans on
  obtain ⟨new₂, pushed⟩ := ((SwitchInstr.pushSlot .rip).exec
    { SwitchInstr.popfq.exec s with new }).boundary_rest
    (ticks.tail.headD none)
  rw [popped, pushed]
  obtain ⟨new₃, returned⟩ := (SwitchInstr.ret.exec { (SwitchInstr.pushSlot .rip).exec
    { SwitchInstr.popfq.exec s with new } with new := new₂ }).boundary_rest
    (ticks.tail.tail.headD none)
  rw [returned]
  refine ⟨?_, ?_, fun r other => ?_⟩
  · simp [SwitchInstr.exec, SwitchState.top, SwitchState.drop, SwitchState.push, SwitchState.set,
      rip]
  · simp [SwitchInstr.exec, SwitchState.drop, SwitchState.push, SwitchState.set]
  · simp [SwitchInstr.exec, SwitchState.drop, SwitchState.push, SwitchState.set, other]

/-- A context that `on_yield` may leave, apart from its stack pointer. -/
def savedAt (onYieldReturn sp : Word) : SavedContext onYieldReturn where
  context
    | .rip => onYieldReturn
    | .rsp => sp
    | _ => 0
  rip := rfl

theorem early_tick (s : SwitchState) (on : s.interrupts = true) (sp : Word) :
    (runSwitch switchContext [some (savedAt onYieldReturn sp)] s).regs rsp = sp := by
  have on' : (SwitchInstr.exec (.save .r15 r15) s).interrupts = true := on
  rw [switchContext, switchRestore, List.cons_append, runSwitch, SwitchState.boundary, if_pos on']
  simp [runSwitch, switchJump, SwitchInstr.exec, SwitchState.top, SwitchState.drop,
    SwitchState.push, SwitchState.set, savedAt]

/-- A tick behind the `popfq`. -/
theorem late_tick (s : SwitchState) (on : (s.new .rflags).getLsbD 9 = true) :
    (runSwitch switchContext (List.replicate 22 none ++
    [some (savedAt onYieldReturn 0)]) s).rip = onYieldReturn := by
  have prefix' : ∀ (code rest : List SwitchInstr)
    (ticks : List (Option (SavedContext onYieldReturn))) (s : SwitchState),
      runSwitch (code ++ rest) (List.replicate code.length none ++ ticks) s =
        runSwitch rest ticks (code.foldl (fun s i => i.exec s) s) := by
    intro code
    induction code with
    | nil => exact fun _ _ _ => rfl
    | cons i code ih =>
        intro rest ticks s
        rw [List.cons_append, List.length_cons, List.replicate_succ, List.cons_append, runSwitch,
          ih]
        rfl
  have flags : (SwitchInstr.popfq.exec s.restored).interrupts = true := by
    rw [← on, ← restored_top]
    rfl
  have length : switchRestore.length = 22 := rfl
  rw [switchContext, ← length, prefix', switchJump, runSwitch]
  change (runSwitch _ _ ((SwitchInstr.popfq.exec s.restored).boundary _)).rip = _
  rw [SwitchState.boundary, if_pos flags]
  simp [runSwitch, SwitchInstr.exec, SwitchState.top, SwitchState.drop, SwitchState.push,
    SwitchState.set, savedAt]

/-- The switch cannot be disturbed by ticks exactly if interrupts are off at its start,
    and the new context does not turn them on, unless it is one that `on_yield` saved. -/
theorem switch_atomic_iff (s : SwitchState) : SwitchAtomic onYieldReturn s ↔
    s.interrupts = false ∧ ((s.new .rflags).getLsbD 9 = false ∨ s.new .rip = onYieldReturn) := by
  constructor
  · intro atomic
    refine ⟨Bool.eq_false_iff.mpr fun on => ?_, ?_⟩
    · have moved := (early_tick s on (s.new .rsp + 1)).symm.trans
        (atomic [some (savedAt onYieldReturn (s.new .rsp + 1))]).rsp
      exact absurd moved (by bv_omega)
    · by_contra both
      obtain ⟨on, other⟩ := not_or.mp both
      exact other ((atomic _).rip.symm.trans (late_tick s (by simpa using on)))
  · rintro ⟨off, quiet⟩ ticks
    rw [switchContext, runSwitch_off _ switchRestore_flags off]
    obtain ⟨rip, sp, regs⟩ := runSwitch_jump s.restored (ticks.drop switchRestore.length)
      (by rw [restored_top]; exact quiet)
    refine ⟨rip, ?_, fun pair member => ?_⟩
    · exact sp.trans (by rw [restored_rsp, BitVec.sub_add_cancel])
    · refine (regs pair.1 ?_).trans (restored_regs s pair member)
      rintro same
      simp only [calleeSaved, List.mem_cons, List.not_mem_nil, or_false] at member
      rcases member with rfl | rfl | rfl | rfl | rfl | rfl <;> cases same

/-- The first switch to a thread, whose context turns interrupts on. -/
def firstSwitch : SwitchState where
  regs _ := 0
  rflags := 0
  rip := 0
  stack _ := 0
  old _ := 0
  new
    | .rip => 0x1000
    | .rsp => 0x8000
    | .rflags => 0x200
    | _ => 0

/-- Interrupts are off when the switch starts, and a tick still sends the new thread
    elsewhere. -/
theorem firstSwitch_disturbed :
    firstSwitch.interrupts = false ∧ ¬ SwitchAtomic 0x2000 firstSwitch := by
  refine ⟨rfl, fun atomic => ?_⟩
  have tick : (runSwitch switchContext
    (List.replicate 22 none ++ [some (savedAt 0x2000 0)]) firstSwitch).rip = 0x2000 :=
    late_tick firstSwitch rfl
  exact absurd (tick.symm.trans (atomic _).rip) (by decide)

end FerriOS.Asm
