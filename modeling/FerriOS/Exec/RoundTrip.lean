import FerriOS.Exec.Args
import FerriOS.Exec.Arguments

/-! # Arguments from one program to the next

What a program hands to `exec` passes through three layouts: the buffers of the library, the
strings that the kernel copies, and the initial stack. The iterator of the new program finds
the strings at the end.
-/

namespace FerriOS.Loader

open FerriOS.Lib FerriOS.Memory

/-- `as_bytes`. -/
def utf8 (text : String) : List UInt8 := text.toByteArray.data.toList

variable {text : String} {texts : List String} {argv argv' : List (List UInt8)}
  {path path' : List UInt8}
  {mem mem' : Bytes}
  {l : ExecLocals} {ptr n : Nat} {image : List UInt8} {mapper : Mapper} {r : Exec}
    {root : PhysFrame}
    {s s' t : MemState}

theorem toStr_utf8 (text : String) : toStr (utf8 text) = text := by
  have bytes : (⟨(utf8 text).toArray⟩ : ByteArray) = text.toByteArray := by
    rw [utf8, Array.toArray_toList]
  refine String.toByteArray_inj.mp ?_
  rw [toStr_valid (bytes ▸ text.isValidUTF8), bytes]

theorem cstr_ok_eq (pos : 0 < ptr) (holds : HoldsCstr mem ptr path) (noNul : 0 ∉ path)
    (read : copyCstrFromUser mem ptr n = .ok path') : path' = path := by
  rw [copyCstrFromUser, if_neg pos.ne', cstrLoop_holds holds noNul] at read
  split at read
  case isTrue => exact (Except.ok.inj read).symm
  case isFalse => cases read

theorem argvLoop_ok_eq (holds : HoldsArgv mem ptr argv) (noNul : ∀ arg ∈ argv, 0 ∉ arg)
    (read : argvLoop mem ptr n = .ok argv') : argv' = argv := by
  induction argv generalizing ptr n argv' with
  | nil =>
      have stop : mem.loadWord ptr = 0 := by simpa using holds.2
      cases n with
      | zero => cases read
      | succ n =>
          rw [argvLoop, if_pos stop] at read
          exact (Except.ok.inj read).symm
  | cons arg argv ih =>
      obtain ⟨pos, cstr⟩ := holds.1 0 arg rfl
      rw [Nat.zero_mul, Nat.add_zero] at pos cstr
      cases n with
      | zero => cases read
      | succ n =>
          rw [argvLoop, if_neg pos] at read
          cases first : copyCstrFromUser mem (mem.loadWord ptr) MAX_ARG_LEN with
          | error e => simp [first, bind, Except.bind] at read
          | ok arg' =>
              cases others : argvLoop mem (ptr + 8) n with
              | error e => simp [first, others, bind, Except.bind] at read
              | ok rest =>
                  simp only [first, others, bind, Except.bind, Except.ok.injEq] at read
                  rw [← read, cstr_ok_eq (Nat.pos_of_ne_zero pos) cstr
                    (noNul arg List.mem_cons_self) first,
                    ih holds.tail (fun a member => noNul a (List.mem_cons_of_mem _ member)) others]

/-- What the kernel has copied is small. -/
theorem stackUse_small (few : argv.length < MAX_ARGC)
    (short : ∀ arg ∈ argv, arg.length < MAX_ARG_LEN) :
    stackUse argv < USER_STACK_TOP := by
  have strings : ∀ {argv : List (List UInt8)}, (∀ arg ∈ argv, arg.length < MAX_ARG_LEN) →
      stringsSize argv ≤ argv.length * MAX_ARG_LEN := by
    intro argv short
    induction argv with
    | nil => exact Nat.zero_le _
    | cons arg argv ih =>
        have rest := ih fun a member => short a (List.mem_cons_of_mem _ member)
        have here := short arg List.mem_cons_self
        rw [stringsSize, List.length_cons]
        simp only [MAX_ARG_LEN] at here rest ⊢
        omega
  have size := strings short
  have top : 0x1_0000 < USER_STACK_TOP := by decide
  simp only [stackUse, MAX_ARGC, MAX_ARG_LEN] at *
  omega

/-- The address space when the loader comes to the initial stack. -/
theorem prepareExecImage_setup (lower : LowerHalf image) (distinct : s.available.Nodup)
    (prepared : prepareExecImage mapper image argv s = .ok r s') :
    ∃ t, (owned 4 r.pageTable 0 t).Nodup ∧
      setupUserStack r.pageTable argv USER_STACK_TOP t = .ok (r.userSp, r.argc,
        r.argvUserPtr) s' := by
  rw [prepareExecImage] at prepared
  split at prepared
  · cases prepared
  obtain ⟨elf, s₀, header, run₀⟩ := Prog.bind_eq_ok.mp prepared
  obtain ⟨rfl, rfl⟩ := (readElfHeader_spec image s).of_ok header
  obtain ⟨root, t, made, run₁⟩ := Prog.bind_eq_ok.mp run₀
  obtain ⟨heapSize, s₁, loaded, run₂⟩ := Prog.bind_eq_ok.mp run₁
  obtain ⟨_, s₂, guard, run₃⟩ := Prog.bind_eq_ok.mp run₂
  obtain ⟨_, s₃, stack, run₄⟩ := Prog.bind_eq_ok.mp run₃
  obtain ⟨top, s₄, arguments, last⟩ := Prog.bind_eq_ok.mp run₄
  obtain ⟨rfl, rfl⟩ := Outcome.ok.inj last
  have new := (newUvm_spec s₀).of_ok made
  have distinct₀ : (owned 4 root 0 t).Nodup := by rwa [new.owned_eq, add_zero]
  have step₁ := ((loadElfSegments_spec mapper lower.segmentsOk le_rfl distinct₀ new.slots).of_ok loaded).2
  have distinct₁ := step₁.nodup distinct₀
  have slots₁ := (step₁.slots new.slots).mono guardLaw_of_kernelLaw
  have step₂ := ((mapPage_spec mapper guard_mapOk
    (by decide) distinct₁ slots₁).of_ok guard).1.toExtends
  have distinct₂ := step₂.nodup distinct₁
  have grown := ((mapStack_spec mapper distinct₂ (step₂.slots slots₁)).of_ok stack).1
  exact ⟨s₃, grown.toExtends.nodup distinct₂, arguments⟩

/-- The iterator finds the arguments of a stack that holds them. -/
theorem setupUserStack_yields {userSp argc argvUserPtr : Nat} (apart : LeavesApart t.ram root)
    (noNul : ∀ arg ∈ argv, 0 ∉ arg)
    (small : stackUse argv < USER_STACK_TOP)
    (built : setupUserStack root argv USER_STACK_TOP t = .ok (userSp, argc, argvUserPtr) s') :
    Args.Yields (userLoad root s') ⟨argc, argvUserPtr, 0⟩ (argv.map toStr) := by
  have aligned : 16 ∣ USER_STACK_TOP := by decide
  have lower : USER_STACK_TOP < 2 ^ 47 := by decide
  obtain ⟨room, places, writes⟩ := setupUserStack_run aligned built
  obtain ⟨-, rfl, rfl⟩ : _ ∧ argc = argv.length ∧ argvUserPtr = argvPlace USER_STACK_TOP argv := by
    simpa only [Prod.mk.injEq] using places
  have use : stackUse argv = (stringsSize argv + (argv.length + 1) * 8 + 15) / 16 * 16 + 24 := rfl
  have whole : argvPlace USER_STACK_TOP argv +
    (stringsSize argv + (argv.length + 1) * 8 + 15) / 16 * 16 = USER_STACK_TOP :=
    argvPlace_eq aligned (by omega)
  have within := stackWrites_within aligned room
  obtain ⟨held, -⟩ := writes_hold (fun write member => (within write member).2.trans lower.le)
    (stackWrites_apart aligned room) apart writes
  have frame := framePlace_eq aligned room
  have words := held _ (List.mem_append_right _ List.mem_cons_self)
  refine yields_from (by omega) (fun i arg here => ?_) noNul (List.drop_zero)
  obtain ⟨place, position, string, nul⟩ := @stringWrites_argument USER_STACK_TOP argv i arg here
  have low := (within _ (List.mem_append_left _ string)).1
  have high := (within _ (List.mem_append_left _ nul)).2
  simp only [List.length_singleton] at low high
  refine ⟨place, by omega, by omega, holdsBytes_append.mpr
    ⟨held _ (List.mem_append_left _ string), held _ (List.mem_append_left _ nul)⟩,
      loadLe_words words ?_ (by omega)⟩
  rw [argvWords, List.getElem?_append_left (List.getElem?_eq_some_iff.mp position).1, position]

/-- Where the library accepts the arguments, the kernel decodes them and the image loads,
    the new program finds its path and arguments as the old one gave them. -/
theorem exec_arguments_roundtrip {path : String} (noNulPath : 0 ∉ utf8 path)
    (noNul : ∀ text ∈ texts, 0 ∉ utf8 text)
    (accepted : userExec l (utf8 path) (texts.map utf8) mem = some mem')
    (readPath : copyCstrFromUser mem' l.pathBuf MAX_ARG_LEN = .ok path')
    (readArgv : copyArgv mem' l.argvPtrs = .ok argv')
    (lower : LowerHalf image) (distinct : s.available.Nodup)
    (prepared : prepareExecImage mapper image argv' s = .ok r s') :
    path' = utf8 path ∧ Args.Yields (userLoad r.pageTable s') ⟨r.argc, r.argvUserPtr, 0⟩ texts := by
  obtain ⟨holdsPath, holdsArgv⟩ := userExec_spec accepted
  have noNul' : ∀ arg ∈ texts.map utf8, 0 ∉ arg := by
    intro arg member
    obtain ⟨text, inTexts, rfl⟩ := List.mem_map.mp member
    exact noNul text inTexts
  rw [copyArgv, if_neg l.argvPtrs_pos.ne'] at readArgv
  obtain rfl := argvLoop_ok_eq holdsArgv noNul' readArgv
  obtain ⟨few, short⟩ := (argvLoop_ok_iff holdsArgv noNul').mp readArgv
  obtain ⟨t, distinct', arguments⟩ := prepareExecImage_setup lower distinct prepared
  refine ⟨cstr_ok_eq l.pathBuf_pos holdsPath noNulPath readPath, ?_⟩
  have yields := setupUserStack_yields (leavesApart distinct') noNul'
    (stackUse_small few short) arguments
  have same : toStr ∘ utf8 = id := funext toStr_utf8
  rwa [List.map_map, same, List.map_id] at yields

/-- A program runs another one with the argument `a`. -/
theorem exec_arguments_roundtrip_echo :
    ∃ mem' r s', userExec someLocals (utf8 "/") (["a"].map utf8) (fun _ => 0) = some mem' ∧
    prepareExecImage offsetPageTable bareImage [[0x61]] bareMemory = .ok r s' ∧
      Args.Yields (userLoad r.pageTable s') ⟨r.argc, r.argvUserPtr, 0⟩ ["a"] := by
  obtain ⟨r, s', prepared⟩ := @bareImage_loads [[0x61]] (by decide)
  obtain ⟨mem', accepted⟩ : ∃ mem',
    userExec someLocals (utf8 "/") (["a"].map utf8) (fun _ => 0) = some mem' :=
    ⟨_, rfl⟩
  obtain ⟨holdsPath, holdsArgv⟩ := userExec_spec accepted
  have readPath : copyCstrFromUser mem' someLocals.pathBuf MAX_ARG_LEN = .ok (utf8 "/") :=
    (cstr_ok_iff someLocals.pathBuf_pos holdsPath (by decide)).mpr (by decide)
  have readArgv : copyArgv mem' someLocals.argvPtrs = .ok [[0x61]] :=
    (if_neg someLocals.argvPtrs_pos.ne').trans
    ((argvLoop_ok_iff holdsArgv (by decide)).mpr (by decide))
  exact ⟨mem', r, s', accepted, prepared,
    (exec_arguments_roundtrip (by decide) (by decide) accepted readPath readArgv
    bareImage_bare.lowerHalf (by decide) prepared).2⟩

end FerriOS.Loader
