import FerriOS.Exec.Loading

/-! # The layout of the initial stack

The strings go below the top of the stack one after the other, each from an address that
is a multiple of eight, then the pointers to them and the frame. `setup_user_stack` makes
these writes in this order; its result only depends on the lengths of the arguments.
-/

namespace FerriOS.Loader

open FerriOS.Lib FerriOS.Memory

/-- Where the string of an argument starts, below `sp`. -/
def stringAt (sp : Nat) (arg : List UInt8) : Nat := (sp - (arg.length + 1)) / 8 * 8

/-- The places of the strings. -/
def stringPlaces : Nat → List (List UInt8) → List Nat
  | _, [] => []
  | sp, arg :: argv => stringAt sp arg :: stringPlaces (stringAt sp arg) argv

/-- The strings and their NULs, with the addresses that they are written to. -/
def stringWrites : Nat → List (List UInt8) → List (Nat × List UInt8)
  | _, [] => []
  | sp, arg :: argv =>
      (stringAt sp arg, arg) :: (stringAt sp arg + arg.length, [0]) :: stringWrites
        (stringAt sp arg) argv

/-- What the strings take of the stack. -/
def stringsSize : List (List UInt8) → Nat
  | [] => 0
  | arg :: argv => (arg.length / 8 + 1) * 8 + stringsSize argv

def argvPlace (top : Nat) (argv : List (List UInt8)) : Nat :=
  (top - stringsSize argv - (argv.length + 1) * 8) / 16 * 16

/-- The pointers to the strings, with the null pointer that ends them. -/
def argvWords (top : Nat) (argv : List (List UInt8)) : List Nat := stringPlaces top argv ++ [0]

def framePlace (top : Nat) (argv : List (List UInt8)) : Nat := argvPlace top argv - 24

/-- The return address, which nothing uses, and the arguments of the entry point. -/
def frameWords (top : Nat) (argv : List (List UInt8)) : List Nat :=
  [0xFFFF_FFFF_FFFF_FFFF, argv.length, argvPlace top argv]

/-- Everything that is written to the initial stack. -/
def stackWrites (top : Nat) (argv : List (List UInt8)) : List (Nat × List UInt8) :=
  stringWrites top argv ++ [(argvPlace top argv, (argvWords top argv).flatMap (leBytes · 8)),
    (framePlace top argv, (frameWords top argv).flatMap (leBytes · 8))]

/-- The stack above the frame of the entry point, the frame included. -/
def stackUse (argv : List (List UInt8)) : Nat :=
  (stringsSize argv + (argv.length + 1) * 8 + 15) / 16 * 16 + 24

variable {root : PhysFrame} {s s' : MemState} {addr sp top : Nat} {arg : List UInt8}
  {argv : List (List UInt8)}

theorem stringAt_eq (aligned : 8 ∣ sp) (room : arg.length + 1 ≤ sp) :
    stringAt sp arg + (arg.length / 8 + 1) * 8 = sp := by
  rw [stringAt]
  omega

theorem length_stringPlaces (sp : Nat) (argv : List (List UInt8)) :
    (stringPlaces sp argv).length = argv.length := by
  induction argv generalizing sp with
  | nil => rfl
  | cons arg argv ih => rw [stringPlaces, List.length_cons, List.length_cons, ih]

theorem checkedSub_ok {message : String} {a b c : Nat} {s s' : MemState}
    (run : (Prog.okOr message (checkedSub a b) : Prog MemState Nat) s = .ok c s') :
    b ≤ a ∧ c = a - b ∧ s' = s := by
  rw [checkedSub] at run
  split at run
  case isTrue enough =>
    obtain ⟨rfl, rfl⟩ := Outcome.ok.inj run
    exact ⟨enough, rfl, rfl⟩
  case isFalse => cases run

theorem each_append {σ ι : Type} {body : ι → Prog σ Unit} {xs ys : List ι} {s s₁ s' : σ}
    (first : Prog.each xs body s = .ok () s₁) (second : Prog.each ys body s₁ = .ok () s') :
    Prog.each (xs ++ ys) body s = .ok () s' := by
  induction xs generalizing s with
  | nil =>
      obtain ⟨-, rfl⟩ := Outcome.ok.inj first
      exact second
  | cons x xs ih =>
      obtain ⟨_, s₂, here, rest⟩ := Prog.bind_eq_ok.mp first
      exact (Prog.bind_ok here).trans (ih rest)

/-- The loop over the arguments writes their strings. -/
theorem pushArguments_run {ptrs : List Nat} {stack : Nat × List Nat} (aligned : 8 ∣ sp)
    (run : argv.foldlM (pushArgument root) (sp, ptrs) s = .ok stack s') :
    stringsSize argv ≤ sp ∧ stack = (sp - stringsSize argv, ptrs ++ stringPlaces sp argv) ∧
      Prog.each (stringWrites sp argv)
        (fun write => copyToUserPagetable root write.1 write.2) s = .ok () s' := by
  induction argv generalizing sp ptrs s with
  | nil =>
      obtain ⟨rfl, rfl⟩ := Outcome.ok.inj run
      exact ⟨Nat.zero_le _, by rw [stringPlaces, List.append_nil]; rfl, rfl⟩
  | cons arg argv ih =>
      rw [List.foldlM_cons] at run
      obtain ⟨next, s₁, push, rest⟩ := Prog.bind_eq_ok.mp run
      obtain ⟨c, s₂, sub, push₁⟩ := Prog.bind_eq_ok.mp push
      obtain ⟨room, rfl, rfl⟩ := checkedSub_ok sub
      obtain ⟨_, s₃, string, push₂⟩ := Prog.bind_eq_ok.mp push₁
      obtain ⟨_, s₄, nul, last⟩ := Prog.bind_eq_ok.mp push₂
      obtain ⟨rfl, rfl⟩ := Outcome.ok.inj last
      have place : stringAt sp arg + (arg.length / 8 + 1) * 8 = sp := stringAt_eq aligned room
      obtain ⟨size, stackEq, writes⟩ := ih (Nat.dvd_mul_left 8 _) rest
      rw [show (sp - (arg.length + 1)) / 8 * 8 = stringAt sp arg
        from rfl] at size stackEq writes string nul
      rw [stringsSize]
      refine ⟨by omega, ?_, ?_⟩
      · rw [stackEq, List.append_assoc, List.singleton_append, stringPlaces]
        congr 1
        omega
      · exact (Prog.bind_ok string).trans ((Prog.bind_ok nul).trans writes)

theorem argvPlace_eq (aligned : 16 ∣ top) (room : stringsSize argv + (argv.length + 1) * 8 ≤ top) :
    argvPlace top argv + (stringsSize argv + (argv.length + 1) * 8 + 15) / 16 * 16 = top := by
  rw [argvPlace]
  omega

/-- `setup_user_stack` makes the writes of the layout, and returns its places. -/
theorem setupUserStack_run {r : Nat × Nat × Nat} (aligned : 16 ∣ top)
    (built : setupUserStack root argv top s = .ok r s') :
    stackUse argv ≤ top ∧ r = (framePlace top argv, argv.length, argvPlace top argv) ∧
      Prog.each (stackWrites top argv)
        (fun write => copyToUserPagetable root write.1 write.2) s = .ok () s' := by
  rw [setupUserStack] at built
  obtain ⟨stack, s₁, strings, built₁⟩ := Prog.bind_eq_ok.mp built
  obtain ⟨size, rfl, writes⟩ := pushArguments_run ((by decide : 8 ∣ 16).trans aligned) strings
  obtain ⟨bytes, s₂, words, built₂⟩ := Prog.bind_eq_ok.mp built₁
  obtain ⟨rfl, rfl⟩ : bytes = (argv.length + 1) * 8 ∧ s₂ = s₁ := by
    rw [checkedMul, List.nil_append, List.length_append, List.length_singleton,
      length_stringPlaces] at words
    split at words
    · obtain ⟨rfl, rfl⟩ := Outcome.ok.inj words
      exact ⟨rfl, rfl⟩
    · cases words
  obtain ⟨below, s₃, sub, built₃⟩ := Prog.bind_eq_ok.mp built₂
  obtain ⟨room, rfl, rfl⟩ := checkedSub_ok sub
  obtain ⟨_, s₄, pointers, built₄⟩ := Prog.bind_eq_ok.mp built₃
  obtain ⟨frame, s₅, sub', built₅⟩ := Prog.bind_eq_ok.mp built₄
  obtain ⟨room', rfl, rfl⟩ := checkedSub_ok sub'
  obtain ⟨_, s₆, ustack, last⟩ := Prog.bind_eq_ok.mp built₅
  obtain ⟨rfl, rfl⟩ := Outcome.ok.inj last
  have place : (top - stringsSize argv - (argv.length + 1) * 8) / 16 * 16 = argvPlace top argv :=
    rfl
  have whole : argvPlace top argv +
    (stringsSize argv + (argv.length + 1) * 8 + 15) / 16 * 16 = top :=
    argvPlace_eq aligned (by omega)
  rw [place] at room' pointers ustack ⊢
  simp only [List.length_cons, List.length_nil] at room'
  refine ⟨by rw [stackUse]; omega, rfl, each_append writes ?_⟩
  exact (Prog.bind_ok pointers).trans ((Prog.bind_ok ustack).trans rfl)

/-- The strings stay within what they take of the stack. -/
theorem stringWrites_within (aligned : 8 ∣ sp) (room : stringsSize argv ≤ sp) :
    ∀ write ∈ stringWrites sp argv, sp ≤ write.1 + stringsSize argv ∧
    write.1 + write.2.length ≤ sp := by
  induction argv generalizing sp with
  | nil => exact fun write member => absurd member List.not_mem_nil
  | cons arg argv ih =>
      rw [stringsSize] at room
      have place : stringAt sp arg + (arg.length / 8 + 1) * 8 = sp := stringAt_eq aligned (by omega)
      have later := @ih (stringAt sp arg) (Nat.dvd_mul_left 8 _) (by omega)
      rw [stringWrites, stringsSize]
      refine List.forall_mem_cons.mpr ⟨?_, List.forall_mem_cons.mpr ⟨?_, fun write member => ?_⟩⟩
      · simp only
        omega
      · simp only [List.length_singleton]
        omega
      · have bounds := later write member
        omega

theorem framePlace_eq (aligned : 16 ∣ top) (room : stackUse argv ≤ top) :
    framePlace top argv + stackUse argv = top := by
  rw [stackUse] at room ⊢
  have whole : argvPlace top argv +
    (stringsSize argv + (argv.length + 1) * 8 + 15) / 16 * 16 = top :=
    argvPlace_eq aligned (by omega)
  rw [framePlace]
  omega

/-- Everything is written between the frame and the top of the stack. -/
theorem stackWrites_within (aligned : 16 ∣ top) (room : stackUse argv ≤ top) :
    ∀ write ∈ stackWrites top argv, framePlace top argv ≤ write.1 ∧
    write.1 + write.2.length ≤ top := by
  have frame := framePlace_eq aligned room
  rw [stackUse] at room frame
  have whole : argvPlace top argv +
    (stringsSize argv + (argv.length + 1) * 8 + 15) / 16 * 16 = top :=
    argvPlace_eq aligned (by omega)
  intro write member
  rcases List.mem_append.mp member with string | word
  · have bounds := stringWrites_within ((by decide : 8 ∣ 16).trans aligned) (by omega) write string
    omega
  · rcases List.mem_cons.mp word with rfl | last
    · simp only [length_words, argvWords, List.length_append, List.length_singleton,
        length_stringPlaces]
      omega
    · obtain rfl := List.mem_singleton.mp last
      simp only [length_words, frameWords, List.length_cons, List.length_nil]
      omega

theorem checkedSub_run {message : String} {a b : Nat} (room : b ≤ a) (s : MemState) :
    (Prog.okOr message (checkedSub a b) : Prog MemState Nat) s = .ok (a - b) s := by
  rw [checkedSub, if_pos room]
  rfl

/-- Writes to pages that are mapped succeed, one after the other. -/
theorem writes_mapped {writes : List (Nat × List UInt8)} {lo hi : Nat}
    (within : ∀ write ∈ writes, lo ≤ write.1 ∧ write.1 + write.2.length ≤ hi) (lower : hi ≤ 2 ^ 47)
    (mapped : RangeMapped root lo hi s) (distinct : (owned 4 root 0 s).Nodup) :
    ∃ ram, Prog.each writes (fun write => copyToUserPagetable root write.1 write.2) s = .ok ()
    (s.setRam ram) := by
  induction writes generalizing s with
  | nil => exact ⟨s.ram, rfl⟩
  | cons write writes ih =>
      obtain ⟨⟨low, high⟩, later⟩ := List.forall_mem_cons.mp within
      obtain ⟨ram, run⟩ := copyToUserPagetable_mapped low high lower mapped distinct
      have step := (copyToUserPagetable_spec (P := Lawless) (high.trans lower) distinct).of_ok run
      obtain ⟨ram', rest⟩ := ih later
        (fun a inside below => step.pageMapped (mapped a inside below)) (step.nodup distinct)
      exact ⟨ram', (Prog.bind_ok run).trans rest⟩

theorem each_append_ok {σ ι : Type} {body : ι → Prog σ Unit} {xs ys : List ι} {s s' : σ}
    (run : Prog.each (xs ++ ys) body s = .ok () s') :
    ∃ s₁, Prog.each xs body s = .ok () s₁ ∧ Prog.each ys body s₁ = .ok () s' := by
  induction xs generalizing s with
  | nil => exact ⟨s, rfl, run⟩
  | cons x xs ih =>
      obtain ⟨_, s₁, here, rest⟩ := Prog.bind_eq_ok.mp run
      obtain ⟨s₂, first, second⟩ := ih rest
      exact ⟨s₂, (Prog.bind_ok here).trans first, second⟩

/-- The strings can be written when their writes can. -/
theorem pushArguments_ok {ptrs : List Nat} (aligned : 8 ∣ sp) (room : stringsSize argv ≤ sp)
    (writes : Prog.each (stringWrites sp argv)
    (fun write => copyToUserPagetable root write.1 write.2) s = .ok () s') :
    argv.foldlM (pushArgument root)
      (sp, ptrs) s = .ok (sp - stringsSize argv, ptrs ++ stringPlaces sp argv) s' := by
  induction argv generalizing sp ptrs s with
  | nil =>
      obtain ⟨-, rfl⟩ := Outcome.ok.inj writes
      rw [stringPlaces, List.append_nil]
      rfl
  | cons arg argv ih =>
      rw [stringsSize] at room ⊢
      have place : stringAt sp arg + (arg.length / 8 + 1) * 8 = sp := stringAt_eq aligned (by omega)
      obtain ⟨_, s₁, string, writes₁⟩ := Prog.bind_eq_ok.mp writes
      obtain ⟨_, s₂, nul, writes₂⟩ := Prog.bind_eq_ok.mp writes₁
      have push : pushArgument root
        (sp, ptrs) arg s = .ok (stringAt sp arg, ptrs ++ [stringAt sp arg]) s₂ :=
        (Prog.bind_ok (checkedSub_run (show arg.length + 1 ≤ sp by omega) s)).trans
          ((Prog.bind_ok string).trans (Prog.bind_ok nul))
      rw [List.foldlM_cons, Prog.bind_ok push,
        @ih _ (stringAt sp arg) _ (Nat.dvd_mul_left 8 _) (by omega) writes₂, stringPlaces,
        List.append_assoc, List.singleton_append]
      congr 2
      omega

/-- The initial stack is built where its pages are mapped. -/
theorem setupUserStack_mapped (aligned : 16 ∣ top) (lower : top ≤ 2 ^ 47)
    (room : stackUse argv ≤ top)
    (mapped : RangeMapped root (framePlace top argv) top s) (distinct : (owned 4 root 0 s).Nodup) :
    ∃ ram, setupUserStack root argv top s = .ok (framePlace top argv, argv.length,
    argvPlace top argv) (s.setRam ram) := by
  obtain ⟨ram, writes⟩ := writes_mapped (stackWrites_within aligned room) lower mapped distinct
  obtain ⟨s₁, strings, words⟩ := each_append_ok writes
  obtain ⟨⟨⟩, s₂, pointers, words₁⟩ := Prog.bind_eq_ok.mp words
  obtain ⟨⟨⟩, s₃, frame, last⟩ := Prog.bind_eq_ok.mp words₁
  obtain ⟨-, rfl⟩ := Outcome.ok.inj last
  have use : stackUse argv = (stringsSize argv + (argv.length + 1) * 8 + 15) / 16 * 16 + 24 := rfl
  have whole : argvPlace top argv +
    (stringsSize argv + (argv.length + 1) * 8 + 15) / 16 * 16 = top :=
    argvPlace_eq aligned (by omega)
  have bytes : checkedMul (stringPlaces top argv ++
    [0]).length 8 = some ((argv.length + 1) * 8) := by
    rw [checkedMul, List.length_append, List.length_singleton, length_stringPlaces,
      if_pos (by omega)]
  refine ⟨ram, ?_⟩
  rw [setupUserStack, Prog.bind_ok
    (pushArguments_ok ((by decide : 8 ∣ 16).trans aligned) (by omega) strings)]
  simp only [List.nil_append, bytes, Prog.okOr_some, Prog.pure_bind]
  rw [Prog.bind_ok (checkedSub_run (by omega) _)]
  have pointers' : copyU64SliceToUser root (argvPlace top argv)
    (argvWords top argv) s₁ = .ok () s₂ := pointers
  have frame' : copyU64SliceToUser root (framePlace top argv) (frameWords top argv) s₂ = .ok ()
    (s.setRam ram) := frame
  exact (Prog.bind_ok pointers').trans
    ((Prog.bind_ok (checkedSub_run (show 24 ≤ argvPlace top argv by omega) _)).trans
    (Prog.bind_ok frame'))

end FerriOS.Loader
