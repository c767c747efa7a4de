import FerriOS.Asm.SyscallStub

/-! # The first way to user mode

`init_process_ring3_entry_trampoline` pushes the frame of its `iretq`, clears the
registers, and moves the arguments of the program into place last. The compiler keeps
the arguments in registers that have been cleared by then.
-/

namespace FerriOS.Asm

open Reg

/-- The fields of the saved context that the trampoline reads. -/
structure UserContext where
  cs : Word
  ss : Word
  rsp3 : Word
  userRip : Word
  userRdi : Word
  userRsi : Word

/-- The `in(reg)` operands of the asm block. -/
inductive Operand where
  | cs | rsp3 | rflags | rip | userRdi | userRsi
  deriving DecidableEq, Repr

def UserContext.operand (context : UserContext) : Operand → Word
  | .cs => context.cs
  | .rsp3 => context.rsp3
  | .rflags => 0x202
  | .rip => context.userRip
  | .userRdi => context.userRdi
  | .userRsi => context.userRsi

/-- A choice of registers for the operands. `rax` is taken by `ss`; `rbx`, `rbp` and
    `rsp` are not in the class `reg`. -/
structure Allocation where
  reg : Operand → Reg
  distinct : Function.Injective reg
  allowed : ∀ operand, reg operand ∉ [rax, rbx, rbp, rsp]

/-- The CPU in the trampoline, with the kernel stack from `rsp` on. -/
structure EntryState where
  regs : Regs
  rip : Word
  rflags : Word
  cs : BitVec 16
  ss : BitVec 16
  ds : BitVec 16
  es : BitVec 16
  stack : List Word

namespace EntryState

def set (s : EntryState) (r : Reg) (value : Word) : EntryState :=
  { s with regs := Function.update s.regs r value }

def push (s : EntryState) (value : Word) : EntryState :=
  { s with stack := value :: s.stack }.set rsp (s.regs rsp - 8)

/-- `iretq`, with the frame that it finds on the stack. -/
def iretq (s : EntryState) : EntryState :=
  { s with
    rip := s.stack.getD 0 0
    cs := (s.stack.getD 1 0).setWidth 16
    rflags := s.stack.getD 2 0
    ss := (s.stack.getD 4 0).setWidth 16
    stack := s.stack.drop 5 }.set rsp (s.stack.getD 3 0)

end EntryState

inductive EntryInstr where
  /-- `mov ds, ax`. -/
  | loadDs
  /-- `mov es, ax`. -/
  | loadEs
  | pushRax
  | push (operand : Operand)
  /-- `xor r, r`. -/
  | clear (r : Reg)
  | mov (dst : Reg) (operand : Operand)
  | iretq

def EntryInstr.exec (allocation : Allocation) : EntryInstr → EntryState → EntryState
  | .loadDs, s => { s with ds := (s.regs rax).setWidth 16 }
  | .loadEs, s => { s with es := (s.regs rax).setWidth 16 }
  | .pushRax, s => s.push (s.regs rax)
  | .push operand, s => s.push (s.regs (allocation.reg operand))
  | .clear r, s => s.set r (s.regs r ^^^ s.regs r)
  | .mov dst operand, s => s.set dst (s.regs (allocation.reg operand))
  | .iretq, s => s.iretq

def runEntry (allocation : Allocation) (code : List EntryInstr) (s : EntryState) : EntryState :=
  code.foldl (fun s i => i.exec allocation s) s

/-- The frame of the `iretq`. -/
def entryFrame : List EntryInstr :=
  [.loadDs, .loadEs, .pushRax, .push .rsp3, .push .rflags, .push .cs, .push .rip]

/-- The registers that the block clears, in its order. -/
def cleared : List Reg := [rax, rbx, rcx, rdx, rdi, rsi, r8, r9, r10, r11, r12, r13, r14, r15]

def initProcessRing3Entry : List EntryInstr :=
  entryFrame ++ cleared.map .clear ++ [.mov rdi .userRdi, .mov rsi .userRsi, .iretq]

/-- The compiler has put the operands in their registers. -/
structure Loaded (allocation : Allocation) (context : UserContext) (s : EntryState) : Prop where
  ss : s.regs rax = context.ss
  operands : ∀ operand, s.regs (allocation.reg operand) = context.operand operand

/-- User mode is entered as the context says, with the arguments of the program. -/
structure EntersUser (context : UserContext) (s : EntryState) : Prop where
  rip : s.rip = context.userRip
  rsp : s.regs rsp = context.rsp3
  cs : s.cs = context.cs.setWidth 16
  ss : s.ss = context.ss.setWidth 16
  rdi : s.regs rdi = context.userRdi
  rsi : s.regs rsi = context.userRsi

variable {allocation : Allocation} {context : UserContext} {s : EntryState}

theorem runEntry_append (front back : List EntryInstr) :
    runEntry allocation (front ++ back) s = runEntry allocation back
      (runEntry allocation front s) :=
  List.foldl_append

theorem Allocation.reg_ne_rsp (allocation : Allocation) (operand : Operand) :
    allocation.reg operand ≠ rsp := by
  intro same
  exact allocation.allowed operand (by simp [same])

theorem Allocation.reg_cleared (allocation : Allocation) (operand : Operand) :
    allocation.reg operand ∈ cleared := by
  have allowed := allocation.allowed operand
  generalize allocation.reg operand = r at allowed
  cases r <;> first | decide | exact absurd (by decide) allowed

theorem runEntry_frame (loaded : Loaded allocation context s) :
    (runEntry allocation entryFrame s).stack =
      [context.userRip, context.cs, 0x202, context.rsp3, context.ss] ++ s.stack := by
  have operand : ∀ o value, (Function.update s.regs rsp value)
    (allocation.reg o) = context.operand o :=
    fun o value => (Function.update_of_ne (allocation.reg_ne_rsp o) _ _).trans (loaded.operands o)
  simp [runEntry, entryFrame, EntryInstr.exec, EntryState.push, EntryState.set, loaded.ss, operand,
    UserContext.operand]

/-- Clearing registers leaves zeros in them, and nothing else is touched. -/
theorem runEntry_clear (rs : List Reg) (s : EntryState) :
    (runEntry allocation (rs.map .clear) s).stack = s.stack ∧
      ∀ r, (runEntry allocation (rs.map .clear) s).regs r = if r ∈ rs then 0 else s.regs r := by
  induction rs generalizing s with
  | nil => exact ⟨rfl, fun r => (if_neg List.not_mem_nil).symm⟩
  | cons first rs ih =>
      obtain ⟨stack, regs⟩ := ih ((EntryInstr.clear first).exec allocation s)
      refine ⟨stack, fun r => (regs r).trans ?_⟩
      by_cases later : r ∈ rs
      · rw [if_pos later, if_pos (List.mem_cons_of_mem first later)]
      · by_cases here : r = first
        · subst here
          rw [if_neg later, if_pos List.mem_cons_self]
          simp [EntryInstr.exec, EntryState.set]
        · rw [if_neg later, if_neg (by simp [here, later])]
          exact Function.update_of_ne here _ _

/-- The end of the block, where the operands are in cleared registers: both arguments
    are zero. -/
theorem runEntry_end {t : EntryState} {rip cs rflags sp ss : Word} {rest : List Word}
    (zero : ∀ operand, t.regs (allocation.reg operand) = 0)
    (stack : t.stack = [rip, cs, rflags, sp, ss] ++ rest) :
    runEntry allocation [.mov rdi .userRdi, .mov rsi .userRsi, .iretq] t =
      { t with
        rip, rflags
        cs := cs.setWidth 16
        ss := ss.setWidth 16
        stack := rest
        regs := Function.update
          (Function.update (Function.update t.regs rdi 0) rsi 0) rsp sp } := by
  have second : (Function.update t.regs rdi 0) (allocation.reg .userRsi) = 0 := by
    by_cases same : allocation.reg .userRsi = rdi
    · rw [same, Function.update_self]
    · rw [Function.update_of_ne same, zero]
  simp only [runEntry, List.foldl_cons, List.foldl_nil, EntryInstr.exec, EntryState.set, zero,
    second,
    EntryState.iretq, stack]
  rfl

/-- The program is entered as its context says exactly if both of its arguments are zero. -/
theorem entersUser_iff (allocation : Allocation) (context : UserContext) (s : EntryState)
    (loaded : Loaded allocation context s) :
    EntersUser context (runEntry allocation initProcessRing3Entry s) ↔ context.userRdi = 0 ∧
      context.userRsi = 0 := by
  obtain ⟨stack, regs⟩ := @runEntry_clear allocation cleared (runEntry allocation entryFrame s)
  have zero : ∀ operand, (runEntry allocation (cleared.map .clear)
    (runEntry allocation entryFrame s)).regs
      (allocation.reg operand) = 0 := by
    intro operand
    rw [regs, if_pos (allocation.reg_cleared operand)]
  rw [initProcessRing3Entry, runEntry_append, runEntry_append,
    runEntry_end zero (stack.trans (runEntry_frame loaded))]
  constructor
  · intro enters
    exact ⟨enters.rdi.symm, enters.rsi.symm⟩
  · rintro ⟨argc, argv⟩
    exact ⟨rfl, rfl, rfl, rfl, argc.symm, argv.symm⟩

/-- One choice of registers. -/
def someAllocation : Allocation where
  reg
    | .cs => rcx
    | .rsp3 => rdx
    | .rflags => rsi
    | .rip => rdi
    | .userRdi => r8
    | .userRsi => r9
  distinct a b same := by cases a <;> cases b <;> first | rfl | cases same
  allowed operand := by cases operand <;> decide

/-- What `create_user_process_from_path` stores for a program without arguments: the
    pointer array is a null pointer below the top of the stack. -/
def initContext : UserContext where
  cs := 0x23
  ss := 0x1b
  rsp3 := 0x1fffffffffd8
  userRip := 0x100000000000
  userRdi := 0
  userRsi := 0x1ffffffffff0

/-- The state before the asm block. -/
def initEntry (context : UserContext) : EntryState where
  regs
    | rax => context.ss
    | rcx => context.cs
    | rdx => context.rsp3
    | rsi => 0x202
    | rdi => context.userRip
    | r8 => context.userRdi
    | r9 => context.userRsi
    | _ => 0
  rip := 0
  rflags := 0x202
  cs := 0x08
  ss := 0x10
  ds := 0x10
  es := 0x10
  stack := []

theorem initEntry_loaded (context : UserContext) :
    Loaded someAllocation context (initEntry context) :=
  ⟨rfl, fun operand => by cases operand <;> rfl⟩

/-- Without arguments at all, the program is entered as it should be. -/
theorem entersUser_zero : EntersUser { initContext with userRsi := 0 }
    (runEntry someAllocation initProcessRing3Entry (initEntry { initContext with userRsi := 0 })) :=
  (entersUser_iff someAllocation _ _ (initEntry_loaded _)).mpr ⟨rfl, rfl⟩

/-- The first process does not get the address of its arguments. -/
theorem initContext_lost : Loaded someAllocation initContext (initEntry initContext) ∧
    ¬ EntersUser initContext (runEntry someAllocation initProcessRing3Entry
    (initEntry initContext)) :=
  ⟨initEntry_loaded _, fun enters => absurd enters.rsi (by decide)⟩

end FerriOS.Asm
