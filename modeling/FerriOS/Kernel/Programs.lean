import FerriOS.Kernel.Runs
import FerriOS.Memory.Flags

/-! # Runs with programs that write

Between its system calls a program stores to its memory. The CPU lets it, where the flags at
all four levels do. Stores go through the page table that is loaded; an entry that the TLB
still has after its page was taken away is not part of this model.
-/

namespace FerriOS.System

open FerriOS.Lib FerriOS.Memory FerriOS.Loader

/-- The program of the current thread writes a byte. -/
def Machine.store (m : Machine) (va : Nat) (byte : UInt8) : Machine :=
  m.setKernel (m.kernel.setMem (userStore m.kernel.mem.cr3 m.kernel.mem (va, byte)))

/-- A step of the machine, or a store in user mode. -/
inductive Turn (cfg : Config) : Machine → Machine → Prop where
  | step (event : Event) (taken : step cfg m event = some m') : Turn cfg m m'
  | store {t va : Nat} (pc : m.pc = .user t) (lower : va < 2 ^ 47)
      (allowed : UserWritable m.kernel.mem.ram m.kernel.mem.cr3 va)
      (byte : UInt8) : Turn cfg m (m.store va byte)

/-- The states of runs in which programs write to their memory. -/
def Lives (cfg : Config) (m : Machine) : Prop :=
  ∃ m₀, Boots cfg m₀ ∧ Relation.ReflTransGen (Turn cfg) m₀ m

variable {cfg : Config} {m m' m₀ : Machine} {t i va : Nat} {p : Process} {byte : UInt8}

theorem Serves.store_extends {P : SlotLaw} (serves : Serves m t i p) (kept : Kept cfg m)
    (lower : va < 2 ^ 47)
    (byte : UInt8) :
    Extends P 4 m.kernel.mem.cr3 0 0 m.kernel.mem (m.store va byte).kernel.mem :=
  userStore_extends lower (kept.separate.owned_nodup serves.inside serves.root)

theorem InUser.store (user : InUser cfg m t) (lower : va < 2 ^ 47) (byte : UInt8) :
    InUser cfg (m.store va byte) t := by
  obtain ⟨i, p, serves⟩ := user.serves
  have extends' : Extends kernelLaw 4 m.kernel.mem.cr3 0 0 m.kernel.mem
    (m.store va byte).kernel.mem :=
    serves.store_extends user.kept lower byte
  have cr3 : (m.store va byte).kernel.mem.cr3 = m.kernel.mem.cr3 := extends'.cr3
  refine ⟨user.kept.setMem (user.kept.separate.conserve serves.inside serves.root extends'.toConserves), ?_,
    user.user, user.idle⟩
  have cpu := user.cpu
  exact ⟨cpu.tid, cpu.ready, cpu.syscallStack, cpu.rsp0, fun j q pid entry =>
    cr3 ▸ cpu.cr3 j q pid entry⟩

theorem Turn.inv (lower : cfg.LowerHalf) (inv : m.Inv cfg) (turn : Turn cfg m m') : m'.Inv cfg := by
  cases turn with
  | step event taken => exact (step_leads lower inv taken).inv
  | @store t va pc inside allowed byte =>
      have user := (inv.user pc).store inside byte
      have pc' : (m.store va byte).pc = .user t := pc
      refine ⟨user.kept, ?_⟩
      rw [pc']
      exact ⟨user.cpu, user.user, user.idle⟩

theorem Lives.inv (lower : cfg.LowerHalf) (lives : Lives cfg m) : m.Inv cfg := by
  obtain ⟨m₀, boots, turns⟩ := lives
  induction turns with
  | refl => exact boots.inv lower
  | tail _ turn ih => exact turn.inv lower ih

/-- The induction rule for properties of these runs. -/
theorem Lives.always {I : Machine → Prop} (lower : cfg.LowerHalf) (boots : ∀ m, Boots cfg m → I m)
    (acts : ∀ m m', Acts cfg m m' → I m → I m') (store : ∀ m va byte, I m → I (m.store va byte))
    (lives : Lives cfg m) : I m := by
  obtain ⟨m₀, boot, turns⟩ := lives
  have both : m.Inv cfg ∧ I m := by
    induction turns with
    | refl => exact ⟨boot.inv lower, boots _ boot⟩
    | tail _ turn ih =>
        obtain ⟨inv, holds⟩ := ih
        refine ⟨turn.inv lower inv, ?_⟩
        cases turn with
        | step event taken => exact (step_leads lower inv taken).run.keeps acts holds
        | store => exact store _ _ _ holds
  exact both.2

theorem Lives.turn (lives : Lives cfg m) (turn : Turn cfg m m') : Lives cfg m' := by
  obtain ⟨m₀, boots, turns⟩ := lives
  exact ⟨m₀, boots, turns.tail turn⟩

theorem Reachable.lives (reached : Reachable cfg m) : Lives cfg m := by
  obtain ⟨m₀, boots, steps⟩ := reached
  exact ⟨m₀, boots, Relation.ReflTransGen.mono
    (fun _ _ ⟨event, taken⟩ => .step event taken) _ _ steps⟩

end FerriOS.System
