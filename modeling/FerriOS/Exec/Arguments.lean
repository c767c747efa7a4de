import FerriOS.Exec.Contents

/-! # The arguments of exec

The user library copies the path and the arguments into buffers on its stack, and the
kernel reads them back byte by byte. The library accepts strings of the maximal
length and the maximal number of them; the kernel wants to see what ends them within
the same limits.
-/

namespace FerriOS.Loader

open FerriOS.Memory

def EXEC_MAX_ARGC : Nat := 16
def EXEC_MAX_ARG_LEN : Nat := 256

/-- The memory of the process, by virtual address. -/
abbrev Bytes := Nat → UInt8

def Bytes.store (mem : Bytes) (addr : Nat) (bytes : List UInt8) : Bytes :=
  fun a => if addr ≤ a ∧ a < addr + bytes.length then bytes.getD (a - addr) 0 else mem a

def Bytes.storeWord (mem : Bytes) (addr value : Nat) : Bytes :=
  fun a => if addr ≤ a ∧ a < addr + 8 then leByte (BitVec.ofNat 64 value) (a - addr) else mem a

def Bytes.loadWord (mem : Bytes) (addr : Nat) : Nat := (leWord fun k => mem (addr + k)).toNat

/-- The size of one buffer of the library. -/
def BUF_LEN : Nat := EXEC_MAX_ARG_LEN + 1

/-- Where the compiler puts the locals of the library's `exec`: in the lower half, and
    apart from each other. -/
structure ExecLocals where
  pathBuf : Nat
  argBufs : Nat
  argvPtrs : Nat
  pathBuf_pos : 0 < pathBuf
  argBufs_pos : 0 < argBufs
  argvPtrs_pos : 0 < argvPtrs
  lower : argBufs + EXEC_MAX_ARGC * BUF_LEN ≤ 2 ^ 47
  path_args : pathBuf + BUF_LEN ≤ argBufs ∨ argBufs + EXEC_MAX_ARGC * BUF_LEN ≤ pathBuf
  path_ptrs : pathBuf + BUF_LEN ≤ argvPtrs ∨ argvPtrs + (EXEC_MAX_ARGC + 1) * 8 ≤ pathBuf
  args_ptrs : argBufs + EXEC_MAX_ARGC * BUF_LEN ≤ argvPtrs ∨
    argvPtrs + (EXEC_MAX_ARGC + 1) * 8 ≤ argBufs

/-- The buffer of one argument. -/
def ExecLocals.argBuf (l : ExecLocals) (i : Nat) : Nat := l.argBufs + i * BUF_LEN

/-- `copy_c_string`, into a buffer of zeros. -/
def copyCString (src : List UInt8) : Option (List UInt8) :=
  if EXEC_MAX_ARG_LEN < src.length then none
  else some ((src ++ (List.replicate BUF_LEN 0).drop src.length).set src.length 0)

/-- The loop over the arguments, from the `i`-th on. -/
def copyArgs (l : ExecLocals) : List (List UInt8) → Nat → Bytes → Option Bytes
  | [], _, mem => some mem
  | arg :: rest, i, mem => do
      let buf ← copyCString arg
      copyArgs l rest (i + 1) ((mem.store (l.argBuf i) buf).storeWord (l.argvPtrs + i * 8)
        (l.argBuf i))

/-- `exec` of the library up to its system call, which gets the addresses of `path_buf`
    and `argv_ptrs`; `none` is `RET_ERROR`. -/
def userExec (l : ExecLocals) (path : List UInt8) (argv : List (List UInt8)) (mem : Bytes) :
    Option Bytes :=
  if EXEC_MAX_ARGC < argv.length then none
  else do
    let buf ← copyCString path
    let mem := mem.store l.pathBuf buf
    let mem := mem.store l.argBufs (List.replicate (EXEC_MAX_ARGC * BUF_LEN) 0)
    let mem := mem.store l.argvPtrs (List.replicate ((EXEC_MAX_ARGC + 1) * 8) 0)
    copyArgs l argv 0 mem

/-- The loop of `copy_cstr_from_user`, with `n` bytes left to look at. -/
def cstrLoop (mem : Bytes) (ptr : Nat) : Nat → Except String (List UInt8)
  | 0 => .error "exec: argument is too long"
  | n + 1 =>
      if mem ptr = 0 then .ok []
      else do
        let rest ← cstrLoop mem (ptr + 1) n
        .ok (mem ptr :: rest)

def copyCstrFromUser (mem : Bytes) (ptr maxLen : Nat) : Except String (List UInt8) :=
  if ptr = 0 then .error "exec: null argument pointer" else cstrLoop mem ptr maxLen

/-- The loop of `copy_argv`, with `n` pointers left to look at. -/
def argvLoop (mem : Bytes) (argvPtr : Nat) : Nat → Except String (List (List UInt8))
  | 0 => .error "exec: too many arguments"
  | n + 1 =>
      if mem.loadWord argvPtr = 0 then .ok []
      else do
        let arg ← copyCstrFromUser mem (mem.loadWord argvPtr) MAX_ARG_LEN
        let rest ← argvLoop mem (argvPtr + 8) n
        .ok (arg :: rest)

def copyArgv (mem : Bytes) (argvPtr : Nat) : Except String (List (List UInt8)) :=
  if argvPtr = 0 then .ok [] else argvLoop mem argvPtr MAX_ARGC

variable {mem mem' : Bytes} {l : ExecLocals} {a addr ptr n i : Nat} {s bytes buf : List UInt8}
  {argv : List (List UInt8)}

/-- A string with the NUL that ends it. -/
def HoldsCstr (mem : Bytes) (ptr : Nat) (s : List UInt8) : Prop :=
  (∀ i b, s[i]? = some b → mem (ptr + i) = b) ∧ mem (ptr + s.length) = 0

theorem HoldsCstr.tail {b : UInt8} (holds : HoldsCstr mem ptr (b :: s)) :
    HoldsCstr mem (ptr + 1) s := by
  refine ⟨fun i c is => ?_, ?_⟩
  · rw [show ptr + 1 + i = ptr + (i + 1) by omega]
    exact holds.1 (i + 1) c is
  · rw [show ptr + 1 + s.length = ptr + (b :: s).length by rw [List.length_cons]; omega]
    exact holds.2

/-- The kernel reads a string that ends within its limit. -/
theorem cstrLoop_holds (holds : HoldsCstr mem ptr s) (noNul : 0 ∉ s) :
    cstrLoop mem ptr n = if s.length < n then .ok s else .error "exec: argument is too long" := by
  induction s generalizing ptr n with
  | nil =>
      have stop : mem ptr = 0 := holds.2
      cases n with
      | zero => rfl
      | succ n => simp [cstrLoop, stop]
  | cons b s ih =>
      have first : mem ptr = b := holds.1 0 b rfl
      have some' : b ≠ 0 := by
        rintro rfl
        exact noNul List.mem_cons_self
      cases n with
      | zero => simp [cstrLoop]
      | succ n =>
          rw [cstrLoop, first, if_neg some', ih holds.tail fun member =>
            noNul (List.mem_cons_of_mem _ member)]
          by_cases short : s.length < n
          · rw [if_pos short, if_pos (by rw [List.length_cons]; omega)]
            rfl
          · rw [if_neg short, if_neg (by rw [List.length_cons]; omega)]
            rfl

theorem cstr_ok_iff (pos : 0 < ptr) (holds : HoldsCstr mem ptr s) (noNul : 0 ∉ s) :
    copyCstrFromUser mem ptr n = .ok s ↔ s.length < n := by
  rw [copyCstrFromUser, if_neg pos.ne', cstrLoop_holds holds noNul]
  split <;> simp_all

/-- The pointers of the arguments, with the null pointer that ends them. -/
def HoldsArgv (mem : Bytes) (argvPtr : Nat) (argv : List (List UInt8)) : Prop :=
  (∀ i arg, argv[i]? = some arg → mem.loadWord (argvPtr + i * 8) ≠ 0 ∧
    HoldsCstr mem (mem.loadWord (argvPtr + i * 8)) arg) ∧
      mem.loadWord (argvPtr + argv.length * 8) = 0

theorem HoldsArgv.tail {arg : List UInt8} (holds : HoldsArgv mem ptr (arg :: argv)) :
    HoldsArgv mem (ptr + 8) argv := by
  refine ⟨fun i c is => ?_, ?_⟩
  · rw [show ptr + 8 + i * 8 = ptr + (i + 1) * 8 by omega]
    exact holds.1 (i + 1) c is
  · rw [show ptr + 8 + argv.length * 8 = ptr + (arg :: argv).length * 8 by rw [List.length_cons]; omega]
    exact holds.2

/-- The kernel reads the arguments exactly if it sees what ends them within its limits. -/
theorem argvLoop_ok_iff (holds : HoldsArgv mem ptr argv) (noNul : ∀ arg ∈ argv, 0 ∉ arg) :
    argvLoop mem ptr n = .ok argv ↔ argv.length < n ∧ ∀ arg ∈ argv, arg.length < MAX_ARG_LEN := by
  induction argv generalizing ptr n with
  | nil =>
      have stop : mem.loadWord ptr = 0 := by simpa using holds.2
      cases n with
      | zero => simp [argvLoop]
      | succ n => simp [argvLoop, stop]
  | cons arg argv ih =>
      obtain ⟨pos, cstr⟩ := holds.1 0 arg rfl
      rw [Nat.zero_mul, Nat.add_zero] at pos cstr
      cases n with
      | zero => simp [argvLoop]
      | succ n =>
          have first := cstr_ok_iff (n := MAX_ARG_LEN) (Nat.pos_of_ne_zero pos) cstr
            (noNul arg List.mem_cons_self)
          have rest := ih (n := n) holds.tail fun a member =>
            noNul a (List.mem_cons_of_mem _ member)
          rw [argvLoop, if_neg pos]
          simp only [List.length_cons, Nat.add_lt_add_iff_right, List.forall_mem_cons]
          rw [← first, ← and_assoc, and_comm (a := argv.length < n), and_assoc, ← rest]
          constructor
          · intro run
            cases read : copyCstrFromUser mem (mem.loadWord ptr) MAX_ARG_LEN with
            | error e => simp [read, bind, Except.bind] at run
            | ok arg' =>
              cases others : argvLoop mem (ptr + 8) n with
              | error e => simp [read, others, bind, Except.bind] at run
              | ok argv' =>
                simp only [read, others, bind, Except.bind, Except.ok.injEq, List.cons.injEq] at run
                exact ⟨congrArg _ run.1, congrArg _ run.2⟩
          · rintro ⟨read, others⟩
            rw [read, others]
            rfl

section Store

theorem Bytes.store_inside (inside : i < bytes.length) :
    mem.store addr bytes (addr + i) = bytes[i] := by
  rw [store, if_pos ⟨by omega, by omega⟩, Nat.add_sub_cancel_left, List.getD_eq_getElem _ _ inside]

theorem Bytes.store_outside (outside : a < addr ∨ addr + bytes.length ≤ a) :
    mem.store addr bytes a = mem a :=
  if_neg (by omega)

theorem Bytes.storeWord_outside {value : Nat} (outside : a < addr ∨ addr + 8 ≤ a) :
    mem.storeWord addr value a = mem a :=
  if_neg (by omega)

theorem Bytes.loadWord_storeWord {value : Nat} (fits : value < 2 ^ 64) :
    (mem.storeWord addr value).loadWord addr = value := by
  have word : (leWord fun k => mem.storeWord addr value (addr + k)) = leWord
    (leByte (BitVec.ofNat 64 value)) :=
    leWord_congr fun k inside => by rw
      [storeWord, if_pos ⟨by omega, by omega⟩, Nat.add_sub_cancel_left]
  rw [loadWord, word, leWord_leByte, BitVec.toNat_ofNat, Nat.mod_eq_of_lt fits]

theorem Bytes.loadWord_congr (same : ∀ k < 8, mem' (addr + k) = mem (addr + k)) :
    mem'.loadWord addr = mem.loadWord addr := by
  rw [loadWord, loadWord, leWord_congr same]

theorem HoldsCstr.congr (holds : HoldsCstr mem ptr s)
    (same : ∀ i ≤ s.length, mem' (ptr + i) = mem (ptr + i)) :
    HoldsCstr mem' ptr s := by
  refine ⟨fun i b is => ?_, (same _ le_rfl).trans holds.2⟩
  rw [same i (List.getElem?_eq_some_iff.mp is).1.le]
  exact holds.1 i b is

/-- The buffer of a string holds it, with its NUL. -/
theorem copyCString_spec (copied : copyCString s = some buf) :
    s.length ≤ EXEC_MAX_ARG_LEN ∧ buf.length = BUF_LEN ∧
    ∀ (mem : Bytes) addr, HoldsCstr (mem.store addr buf) addr s := by
  simp only [copyCString, Option.ite_none_left_eq_some, Option.some.injEq, not_lt] at copied
  obtain ⟨short, rfl⟩ := copied
  have length : ((s ++ (List.replicate BUF_LEN 0).drop s.length).set s.length 0).length = BUF_LEN := by
    simp only [List.length_set, List.length_append, List.length_drop, List.length_replicate,
      BUF_LEN]
    omega
  refine ⟨short, length, fun mem addr => ⟨fun i b is => ?_, ?_⟩⟩
  · obtain ⟨inside, rfl⟩ := List.getElem?_eq_some_iff.mp is
    rw [Bytes.store_inside (by rw [length, BUF_LEN]; omega), List.getElem_set_ne (by omega),
      List.getElem_append_left inside]
  · rw [Bytes.store_inside (by rw [length, BUF_LEN]; omega), List.getElem_set_self]

end Store

theorem ExecLocals.argBuf_lt (l : ExecLocals) (inside : i < EXEC_MAX_ARGC) :
    l.argBufs ≤ l.argBuf i ∧ l.argBuf i + BUF_LEN ≤ l.argBufs + EXEC_MAX_ARGC * BUF_LEN := by
  simp only [argBuf, EXEC_MAX_ARGC, BUF_LEN, EXEC_MAX_ARG_LEN] at inside ⊢
  omega

/-- What the loop over the arguments has done: every argument lies in its buffer, its
    pointer points there, and nothing else has changed. -/
theorem copyArgs_spec (copied : copyArgs l argv i mem = some mem')
    (room : i + argv.length ≤ EXEC_MAX_ARGC) :
    (∀ j arg, argv[j]? = some arg → mem'.loadWord (l.argvPtrs + (i + j) * 8) = l.argBuf (i + j) ∧
      HoldsCstr mem' (l.argBuf (i + j)) arg) ∧
    ∀ a, (a < l.argBuf i ∨ l.argBufs + EXEC_MAX_ARGC * BUF_LEN ≤ a) →
      (a < l.argvPtrs + i * 8 ∨ l.argvPtrs + (i + argv.length) * 8 ≤ a) → mem' a = mem a := by
  induction argv generalizing i mem with
  | nil =>
      obtain rfl := Option.some.inj copied
      exact ⟨fun j arg is => (nomatch is), fun _ _ _ => rfl⟩
  | cons arg argv ih =>
      rw [List.length_cons] at room
      obtain ⟨buf, first, copied⟩ := Option.bind_eq_some_iff.mp copied
      obtain ⟨short, length, holds⟩ := copyCString_spec first
      obtain ⟨later, others⟩ := ih copied (by omega)
      obtain ⟨low, high⟩ := l.argBuf_lt (i := i) (by omega)
      have next : l.argBuf (i + 1) = l.argBuf i + BUF_LEN := by
        simp only [ExecLocals.argBuf, BUF_LEN, EXEC_MAX_ARG_LEN]
        omega
      have apart := l.args_ptrs
      have buffer : BUF_LEN = 257 := rfl
      have max : EXEC_MAX_ARG_LEN = 256 := rfl
      have count : EXEC_MAX_ARGC = 16 := rfl
      refine ⟨fun j arg' is => ?_, fun a outsideBufs outsidePtrs => ?_⟩
      · cases j with
        | succ j =>
            have spec := later j arg' is
            rwa [show i + 1 + j = i + (j + 1) by omega] at spec
        | zero =>
            obtain rfl := Option.some.inj is
            rw [Nat.add_zero]
            constructor
            · have lower := l.lower
              refine (Bytes.loadWord_congr fun k inside => others _ (by omega) (by omega)).trans ?_
              exact Bytes.loadWord_storeWord (by omega)
            · refine (holds mem (l.argBuf i)).congr fun k inside => ?_
              rw [others _ (by omega) (by omega), Bytes.storeWord_outside (by omega)]
      · rw [others a (by omega) (by rw [List.length_cons] at outsidePtrs; omega),
          Bytes.storeWord_outside (by
          rw [List.length_cons] at outsidePtrs; omega), Bytes.store_outside (by omega)]

/-- What the kernel finds at the pointers it gets. -/
theorem userExec_spec {path : List UInt8} (accepted : userExec l path argv mem = some mem') :
    HoldsCstr mem' l.pathBuf path ∧ HoldsArgv mem' l.argvPtrs argv := by
  simp only [userExec, Option.ite_none_left_eq_some, not_lt] at accepted
  obtain ⟨few, accepted⟩ := accepted
  obtain ⟨buf, copied, accepted⟩ := Option.bind_eq_some_iff.mp accepted
  obtain ⟨short, length, holds⟩ := copyCString_spec copied
  obtain ⟨args, others⟩ := copyArgs_spec accepted (by omega)
  have first : l.argBuf 0 = l.argBufs := by simp [ExecLocals.argBuf]
  have pathArgs := l.path_args
  have pathPtrs := l.path_ptrs
  have argsPtrs := l.args_ptrs
  have buffer : BUF_LEN = 257 := rfl
  have max : EXEC_MAX_ARG_LEN = 256 := rfl
  have count : EXEC_MAX_ARGC = 16 := rfl
  refine ⟨(holds mem l.pathBuf).congr fun k inside => ?_, fun i arg is => ?_, ?_⟩
  · rw [others _ (by omega) (by omega), Bytes.store_outside (by rw [List.length_replicate]; omega),
      Bytes.store_outside (by rw [List.length_replicate]; omega)]
  · obtain ⟨pointer, cstr⟩ := args i arg is
    rw [Nat.zero_add] at pointer cstr
    rw [pointer]
    have low := (l.argBuf_lt (i := i) (by have := (List.getElem?_eq_some_iff.mp is).1; omega)).1
    exact ⟨by have := l.argBufs_pos; omega, cstr⟩
  · have zeros : ∀ k < 8, mem' (l.argvPtrs + argv.length * 8 + k) = 0 := by
      intro k inside
      rw [others _ (by omega) (by omega),
        show l.argvPtrs + argv.length * 8 + k = l.argvPtrs + (argv.length * 8 + k) by omega,
        Bytes.store_inside (by rw [List.length_replicate]; omega), List.getElem_replicate]
    rw [Bytes.loadWord, leWord_congr (c := fun _ => 0) zeros]
    rfl

/-- The kernel decodes what the library has encoded exactly if every string is shorter
    than the limit, and there are fewer arguments than the limit. -/
theorem exec_arguments_survive {path : List UInt8} (noNulPath : 0 ∉ path)
    (noNul : ∀ arg ∈ argv, 0 ∉ arg)
    (accepted : userExec l path argv mem = some mem') :
    (copyCstrFromUser mem' l.pathBuf MAX_ARG_LEN = .ok path ∧ copyArgv mem' l.argvPtrs = .ok argv) ↔
      path.length < MAX_ARG_LEN ∧ argv.length < MAX_ARGC ∧ ∀ arg ∈ argv,
        arg.length < MAX_ARG_LEN := by
  obtain ⟨holdsPath, holdsArgv⟩ := userExec_spec accepted
  rw [cstr_ok_iff l.pathBuf_pos holdsPath noNulPath, copyArgv, if_neg l.argvPtrs_pos.ne',
    argvLoop_ok_iff holdsArgv noNul]

/-- A stack frame of the library's `exec`. -/
def someLocals : ExecLocals where
  pathBuf := 0x10000
  argBufs := 0x11000
  argvPtrs := 0x13000
  pathBuf_pos := by decide
  argBufs_pos := by decide
  argvPtrs_pos := by decide
  lower := by decide
  path_args := by decide
  path_ptrs := by decide
  args_ptrs := by decide

theorem exec_arguments_survive_echo :
    ∃ mem', userExec someLocals [0x2F] [[0x61]] (fun _ => 0) = some mem' ∧
    copyCstrFromUser mem' someLocals.pathBuf MAX_ARG_LEN = .ok [0x2F] ∧
      copyArgv mem' someLocals.argvPtrs = .ok [[0x61]] := by
  refine ⟨_, rfl, ?_⟩
  exact (exec_arguments_survive (l := someLocals) (by decide) (by decide) rfl).mpr (by decide)

/-- The library accepts a path of the maximal length, and the kernel refuses it. -/
theorem long_path_refused : ∃ mem',
    userExec someLocals (List.replicate 256 0x61) [] (fun _ => 0) = some mem' ∧
    (0 : UInt8) ∉ List.replicate 256 0x61 ∧
    copyCstrFromUser mem' someLocals.pathBuf MAX_ARG_LEN = .error "exec: argument is too long" := by
  have noNul : (0 : UInt8) ∉ List.replicate 256 0x61 := by
    rw [List.mem_replicate]
    decide
  obtain ⟨mem', accepted⟩ : ∃ mem',
    userExec someLocals (List.replicate 256 0x61) [] (fun _ => 0) = some mem' := by
    rw [userExec, if_neg (by decide), copyCString, if_neg (by rw [List.length_replicate]; decide)]
    exact ⟨_, rfl⟩
  refine ⟨mem', accepted, noNul, ?_⟩
  have holds := (userExec_spec accepted).1
  rw [copyCstrFromUser, if_neg (by decide), cstrLoop_holds holds noNul,
    if_neg (by rw [List.length_replicate]; decide)]

end FerriOS.Loader
