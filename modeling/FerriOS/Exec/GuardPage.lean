import FerriOS.Exec.Bare
import FerriOS.Memory.MapTo

/-! # Arguments and the guard page

The guard page keeps a program from growing its stack into what lies below. The kernel
does not stop there when it writes the arguments: the page is present, and that is all
that it looks at.
-/

namespace FerriOS.Loader

open FerriOS.Lib FerriOS.Memory

variable {s s' : MemState} {argv : List (List UInt8)}

/-- The arguments and the stack pointer lie in the stack pages, above the guard page. -/
structure StackInside (argv : List (List UInt8)) (r : Exec) : Prop where
  written : ∀ write ∈ stackWrites USER_STACK_TOP argv, ∀ a, write.1 ≤ a →
    a < write.1 + write.2.length →
    stackStart ≤ a ∧ a < USER_STACK_TOP
  low : stackStart ≤ r.userSp
  high : r.userSp < USER_STACK_TOP

/-- The last steps of a load that succeeds. -/
theorem prepareExecImage_arguments {mapper : Mapper} {image : List UInt8} {r : Exec}
    (prepared : prepareExecImage mapper image argv s = .ok r s') :
    ∃ t, setupUserStack r.pageTable argv USER_STACK_TOP t = .ok (r.userSp, r.argc,
    r.argvUserPtr) s' := by
  rw [prepareExecImage] at prepared
  split at prepared
  · cases prepared
  obtain ⟨elf, s₀, -, run₀⟩ := Prog.bind_eq_ok.mp prepared
  obtain ⟨root, s₁, -, run₁⟩ := Prog.bind_eq_ok.mp run₀
  obtain ⟨heapSize, s₂, -, run₂⟩ := Prog.bind_eq_ok.mp run₁
  obtain ⟨_, s₃, -, run₃⟩ := Prog.bind_eq_ok.mp run₂
  obtain ⟨_, s₄, -, run₄⟩ := Prog.bind_eq_ok.mp run₃
  obtain ⟨top, s₅, arguments, last⟩ := Prog.bind_eq_ok.mp run₄
  obtain ⟨rfl, rfl⟩ := Outcome.ok.inj last
  exact ⟨s₄, arguments⟩

/-- A load that succeeds has made the writes of the layout, and these stay in the stack
    pages exactly if the stack that they take is no larger. -/
theorem prepareExecImage_stack (mapper : Mapper) (image : List UInt8) (argv : List (List UInt8))
    {s s' : MemState}
    {r : Exec} (prepared : prepareExecImage mapper image argv s = .ok r s') :
    (∃ t, setupUserStack r.pageTable argv USER_STACK_TOP t = .ok (r.userSp, r.argc,
    r.argvUserPtr) s' ∧
      Prog.each (stackWrites USER_STACK_TOP argv)
        (fun write => copyToUserPagetable r.pageTable write.1 write.2) t =
        .ok () s') ∧
      (StackInside argv r ↔ stackUse argv ≤ STACK_PAGES * PAGE_SIZE) := by
  obtain ⟨t, arguments⟩ := prepareExecImage_arguments prepared
  have aligned : 16 ∣ USER_STACK_TOP := by decide
  obtain ⟨room, places, writes⟩ := setupUserStack_run aligned arguments
  refine ⟨⟨t, arguments, writes⟩, ?_⟩
  have sp : r.userSp = framePlace USER_STACK_TOP argv := congrArg Prod.fst places
  have frame := framePlace_eq aligned room
  have pages : stackStart + STACK_PAGES * PAGE_SIZE = USER_STACK_TOP := by decide
  constructor
  · intro inside
    have low := inside.low
    omega
  · intro small
    refine ⟨fun write member a low high => ?_, by omega, ?_⟩
    · have bounds := stackWrites_within aligned room write member
      omega
    · rw [sp]
      have used : 24 ≤ stackUse argv := Nat.le_add_left _ _
      omega

/-- An argument that fills the stack pages. -/
def longArgument : List UInt8 := List.replicate 32760 0x61

theorem stackUse_long : stackUse [longArgument] = 32808 := by
  have length : longArgument.length = 32760 := by rw [longArgument, List.length_replicate]
  rw [stackUse, stringsSize, stringsSize, length, List.length_singleton]

/-- Frames enough for an image without segments. -/
def bareMemory : MemState := ⟨fun _ _ => 0,
    ⟨[], 0, (List.range BARE_FRAMES).map (BitVec.ofNat 40)⟩, 100⟩

/-- The image without segments loads with any arguments that reach no further than the
    guard page. -/
theorem bareImage_loads (room : stackUse argv ≤ (STACK_PAGES + 1) * PAGE_SIZE) :
    ∃ r s', prepareExecImage offsetPageTable bareImage argv bareMemory = .ok r s' := by
  have distinct : bareMemory.available.Nodup := by decide
  obtain ⟨root, t, run, distinct₁, mapped, -⟩ :=
    bareImage_bare.mapped offsetPageTable distinct (by decide)
  have aligned : 16 ∣ USER_STACK_TOP := by decide
  have pages : guardPage + (STACK_PAGES + 1) * PAGE_SIZE = USER_STACK_TOP := by decide
  have fits : stackUse argv ≤ USER_STACK_TOP := by omega
  have frame := framePlace_eq aligned fits
  obtain ⟨ram, arguments⟩ := setupUserStack_mapped aligned (by decide) fits
    (fun a low high => mapped a (by omega) high) distinct₁
  exact ⟨_, _, (run argv).trans (Prog.bind_ok arguments)⟩

theorem prepareExecImage_stack_bare :
    ∃ r s', prepareExecImage offsetPageTable bareImage [[0x61]] bareMemory = .ok r s' ∧
    StackInside [[0x61]] r := by
  obtain ⟨r, s', prepared⟩ := @bareImage_loads [[0x61]] (by decide)
  exact ⟨r, s', prepared, (prepareExecImage_stack _ _ _ prepared).2.mpr (by decide)⟩

/-- With that argument, the pointers and the frame lie in the guard page. -/
theorem longArgument_spills : ∃ r s',
    prepareExecImage offsetPageTable bareImage [longArgument] bareMemory = .ok r s' ∧
    r.userSp < stackStart := by
  obtain ⟨r, s', prepared⟩ := @bareImage_loads [longArgument] (by rw [stackUse_long]; decide)
  refine ⟨r, s', prepared, ?_⟩
  obtain ⟨t, arguments⟩ := prepareExecImage_arguments prepared
  obtain ⟨room, places, -⟩ := setupUserStack_run (by decide) arguments
  have frame := framePlace_eq (by decide) room
  rw [stackUse_long] at frame
  have sp : r.userSp = framePlace USER_STACK_TOP [longArgument] := congrArg Prod.fst places
  have pages : stackStart + 32768 = USER_STACK_TOP := by decide
  omega

end FerriOS.Loader
