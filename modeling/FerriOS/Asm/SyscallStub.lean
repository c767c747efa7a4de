import Mathlib

/-! # The syscall stubs

The assembly on both sides of a system call: the block of userlib that executes
`syscall`, and the entry code of the kernel around `syscall_dispatch`. The
dispatcher is any function that keeps to the System V calling convention.
-/

namespace FerriOS.Asm

abbrev Word := BitVec 64

inductive Reg where
  | rax | rbx | rcx | rdx | rsi | rdi | rbp | rsp
  | r8 | r9 | r10 | r11 | r12 | r13 | r14 | r15
  deriving DecidableEq, Repr

open Reg

abbrev Regs := Reg → Word

/-- The CPU while it runs the stubs: the registers, the words on the kernel stack from
    `rsp` on, and the two fields of the CPU record that the entry code uses. -/
structure State where
  regs : Regs
  /-- The address behind the `syscall` instruction. -/
  rip : Word
  rflags : Word
  stack : List Word
  savedUserRsp : Word
  kernelSyscallRsp : Word

def State.set (s : State) (r : Reg) (value : Word) : State :=
  { s with regs := Function.update s.regs r value }

/-- The registers that a called function may change. -/
def callerSaved : Reg → Bool
  | rax | rcx | rdx | rsi | rdi | r8 | r9 | r10 | r11 => true
  | _ => false

/-- A function that keeps to the calling convention. It leaves the stack of its caller
    as it is. -/
structure Callee where
  result : Regs → Regs
  preserves : ∀ regs r, callerSaved r = false → result regs r = regs r

inductive Instr where
  | mov (dst src : Reg)
  | push (r : Reg)
  | pop (r : Reg)
  /-- `mov [rsp + 8 * slot], src`. -/
  | storeStack (slot : Nat) (src : Reg)
  /-- `mov gs:[saved_user_rsp], rsp`. -/
  | saveUserRsp
  /-- `mov rsp, gs:[kernel_syscall_rsp]`: an empty kernel stack. -/
  | loadKernelRsp
  /-- `mov rsp, gs:[saved_user_rsp]`. -/
  | loadUserRsp
  | call
  | sysretq

def Instr.exec (dispatch : Callee) : Instr → State → State
  | .mov dst src, s => s.set dst (s.regs src)
  | .push r, s => { s with stack := s.regs r :: s.stack }.set rsp (s.regs rsp - 8)
  | .pop r, s => { s with stack := s.stack.tail }.set rsp (s.regs rsp + 8) |>.set r
      (s.stack.headD 0)
  | .storeStack slot src, s => { s with stack := s.stack.set slot (s.regs src) }
  | .saveUserRsp, s => { s with savedUserRsp := s.regs rsp }
  | .loadKernelRsp, s => { s with stack := [] }.set rsp s.kernelSyscallRsp
  | .loadUserRsp, s => s.set rsp s.savedUserRsp
  | .call, s => { s with regs := dispatch.result s.regs }
  | .sysretq, s => { s with rip := s.regs rcx, rflags := s.regs r11 }

def run (dispatch : Callee) (code : List Instr) (s : State) : State :=
  code.foldl (fun s i => i.exec dispatch s) s

/-- `syscall_entry` up to the call; `r15` comes to lie at the lowest address. -/
def syscallEntry : List Instr :=
  [.saveUserRsp, .loadKernelRsp,
    .push rcx, .push r11, .push rax, .push rdi, .push rsi, .push rdx,
    .push rbx, .push rbp, .push r12, .push r13, .push r14, .push r15,
    .mov r10 rax, .mov r8 rsp, .mov rcx rdx, .mov rdx rsi, .mov rsi rdi, .mov rdi r10]

/-- The offset of `rax` in the saved registers. -/
def OFFSET_SAVED_RAX : Nat := 72

/-- `syscall_entry` from the return of the dispatcher on. -/
def syscallReturn : List Instr :=
  [.storeStack (OFFSET_SAVED_RAX / 8) rax,
    .pop r15, .pop r14, .pop r13, .pop r12, .pop rbp, .pop rbx,
    .pop rdx, .pop rsi, .pop rdi, .pop rax, .pop r11, .pop rcx,
    .loadUserRsp, .sysretq]

/-- What the `syscall` instruction leaves for the entry code. -/
def State.trap (s : State) : State := (s.set rcx s.rip).set r11 s.rflags

/-- The asm block of userlib up to its `syscall`. -/
def syscallArguments : List Instr := [.mov rax rdi, .mov rdi rsi, .mov rsi rdx, .mov rdx rcx]

/-- The state in which the dispatcher is called. -/
def atDispatch (dispatch : Callee) (s : State) : State :=
  run dispatch syscallEntry (run dispatch syscallArguments s).trap

/-- The asm block of userlib, with the kernel between its `syscall` and its end. -/
def syscall (dispatch : Callee) (s : State) : State :=
  run dispatch (.call :: syscallReturn) (atDispatch dispatch s)

/-- The registers that the asm block declares as outputs. -/
def declared : Reg → Bool
  | rax | rdi | rsi | rdx | rcx | r11 => true
  | _ => false

/-- No other register changes over the asm block. -/
def HonoursClobbers (dispatch : Callee) (s : State) : Prop :=
  ∀ r, declared r = false → (syscall dispatch s).regs r = s.regs r

/-- What the entry code saves comes back, where the dispatcher keeps its caller's
    registers. -/
theorem syscall_calleeSaved (dispatch : Callee) (s : State) (r : Reg)
    (saved : callerSaved r = false) :
    (syscall dispatch s).regs r = s.regs r := by
  cases r <;> first | rfl | cases saved

/-- The scratch registers that the asm block does not declare. -/
def undeclared : List Reg := [r8, r9, r10]

theorem syscall_undeclared (dispatch : Callee) (s : State) (r : Reg) (scratch : r ∈ undeclared) :
    (syscall dispatch s).regs r = dispatch.result (atDispatch dispatch s).regs r := by
  simp only [undeclared, List.mem_cons, List.not_mem_nil, or_false] at scratch
  obtain rfl | rfl | rfl := scratch <;> rfl

/-- The caller's registers survive a system call exactly when the dispatcher happens to
    return with the caller's values in `r8`, `r9` and `r10`. -/
theorem syscall_honours (dispatch : Callee) (s : State) : HonoursClobbers dispatch s ↔
    ∀ r ∈ undeclared, dispatch.result (atDispatch dispatch s).regs r = s.regs r := by
  constructor
  · intro honours r scratch
    rw [← syscall_undeclared dispatch s r scratch]
    refine honours r ?_
    simp only [undeclared, List.mem_cons, List.not_mem_nil, or_false] at scratch
    obtain rfl | rfl | rfl := scratch <;> rfl
  · intro kept r outside
    by_cases scratch : r ∈ undeclared
    · rw [syscall_undeclared dispatch s r scratch, kept r scratch]
    · refine syscall_calleeSaved dispatch s r ?_
      cases r <;> first | rfl | exact absurd (by decide) scratch | cases outside

/-- A dispatcher that uses `r9`, as it may. -/
def usesR9 : Callee where
  result regs := Function.update regs r9 0
  preserves regs r saved := Function.update_of_ne (by rintro rfl; cases saved) _ _

theorem syscall_clobbers_r9 : ∃ s, ¬ HonoursClobbers usesR9 s := by
  refine ⟨⟨fun _ => 1, 0, 0, [], 0, 0⟩, fun honours => ?_⟩
  have changed := honours r9 rfl
  exact absurd changed (by decide)

end FerriOS.Asm
