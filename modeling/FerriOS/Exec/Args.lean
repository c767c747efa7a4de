import FerriOS.Exec.GuardPage
import FerriOS.Exec.Contents

/-! # Reading the arguments back

The `Args` iterator of the user library, over the memory that the kernel leaves for a new
program. The blocks of the initial stack do not overlap, so each is there when the
program starts, and the iterator finds every string again.
-/

namespace FerriOS.Loader

open FerriOS.Lib FerriOS.Memory

/-- What a program reads; `none` is a page fault. -/
abbrev UserMemory := Nat → Option UInt8

/-- Load the little-endian number in `n` bytes. -/
def loadLe (mem : UserMemory) (addr : Nat) : Nat → Option Nat
  | 0 => some 0
  | n + 1 => do
      let byte ← mem addr
      let rest ← loadLe mem (addr + 1) n
      some (byte.toNat + 256 * rest)

/-- `CStr::from_ptr`: the bytes before the next NUL, with `n` bytes left to look at. -/
def cstrFromPtr (mem : UserMemory) (ptr : Nat) : Nat → Option (List UInt8)
  | 0 => none
  | n + 1 => do
      let byte ← mem ptr
      if byte = 0 then some []
      else do
        let rest ← cstrFromPtr mem (ptr + 1) n
        some (byte :: rest)

/-- `to_str().unwrap_or("")`. -/
def toStr (bytes : List UInt8) : String := (String.fromUTF8? ⟨bytes.toArray⟩).getD ""

structure Args where
  argc : Nat
  argv : Nat
  index : Nat

def Args.next (mem : UserMemory) (args : Args) : Option (Option String × Args) :=
  if args.argc ≤ args.index ∨ args.argv = 0 then some (none, args)
  else do
    let argPtr ← loadLe mem (args.argv + 8 * args.index) 8
    let args := { args with index := args.index + 1 }
    if argPtr = 0 then some (none, args)
    else do
      let arg ← cstrFromPtr mem argPtr (2 ^ 64 - argPtr)
      some (some (toStr arg), args)

/-- The iterator yields the strings in their order, and then nothing more. -/
def Args.Yields (mem : UserMemory) : Args → List String → Prop
  | args, [] => ∃ args', args.next mem = some (none, args')
  | args, text :: texts => ∃ args', args.next mem = some (some text, args') ∧ Yields mem args' texts

variable {mem : UserMemory} {addr ptr n sp top : Nat} {bytes front back : List UInt8}
  {argv : List (List UInt8)}
  {root : PhysFrame} {s s' : MemState}

theorem toStr_valid (valid : ByteArray.IsValidUTF8 ⟨bytes.toArray⟩) :
    (toStr bytes).toByteArray = ⟨bytes.toArray⟩ := by
  rw [toStr, String.fromUTF8?, dif_pos valid]
  rfl

/-- The bytes lie in memory. -/
def HoldsBytes (mem : UserMemory) (addr : Nat) (bytes : List UInt8) : Prop :=
  ∀ i < bytes.length, mem (addr + i) = bytes[i]?

theorem holdsBytes_cons {byte : UInt8} : HoldsBytes mem addr (byte :: bytes) ↔
    mem addr = some byte ∧ HoldsBytes mem (addr + 1) bytes := by
  constructor
  · intro holds
    refine ⟨holds 0 (Nat.succ_pos _), fun i inside => ?_⟩
    rw [show addr + 1 + i = addr + (i + 1) by omega]
    exact holds (i + 1) (Nat.succ_lt_succ inside)
  · rintro ⟨first, rest⟩ i inside
    cases i with
    | zero => exact first
    | succ i =>
        rw [show addr + (i + 1) = addr + 1 + i by omega]
        exact rest i (Nat.lt_of_succ_lt_succ inside)

theorem holdsBytes_append : HoldsBytes mem addr (front ++ back) ↔
    HoldsBytes mem addr front ∧ HoldsBytes mem (addr + front.length) back := by
  induction front generalizing addr with
  | nil =>
      refine ⟨fun holds => ⟨fun i inside => absurd inside (Nat.not_lt_zero i), holds⟩, fun holds =>
        holds.2⟩
  | cons byte front ih =>
      rw [List.cons_append, holdsBytes_cons, holdsBytes_cons, ih, and_assoc, List.length_cons,
        show addr + (front.length + 1) = addr + 1 + front.length by omega]

theorem loadLe_holds (value : Nat) (holds : HoldsBytes mem addr (leBytes value n)) :
    loadLe mem addr n = some (value % 256 ^ n) := by
  induction n generalizing addr value with
  | zero => rw [loadLe, Nat.pow_zero, Nat.mod_one]
  | succ n ih =>
      obtain ⟨first, rest⟩ := holdsBytes_cons.mp holds
      simp only [loadLe, first, ih _ rest, Option.bind_eq_bind, Option.bind_some]
      rw [Nat.pow_succ', Nat.mod_mul]
      rfl

/-- A word of an array of words. -/
theorem loadLe_words {words : List Nat} {i value : Nat}
    (holds : HoldsBytes mem addr (words.flatMap (leBytes · 8)))
    (here : words[i]? = some value) (fits : value < 2 ^ 64) :
    loadLe mem (addr + 8 * i) 8 = some value := by
  induction words generalizing addr i with
  | nil => cases here
  | cons word words ih =>
      rw [List.flatMap_cons, holdsBytes_append] at holds
      have length : (leBytes word 8).length = 8 := rfl
      cases i with
      | zero =>
          obtain rfl := Option.some.inj here
          rw [Nat.mul_zero, Nat.add_zero, loadLe_holds word holds.1,
            Nat.mod_eq_of_lt (fits.trans_eq (by decide))]
      | succ i =>
          rw [length] at holds
          rw [show addr + 8 * (i + 1) = addr + 8 + 8 * i by omega]
          exact ih holds.2 here

theorem cstrFromPtr_holds (holds : HoldsBytes mem ptr (bytes ++ [0])) (noNul : 0 ∉ bytes)
    (room : bytes.length < n) :
    cstrFromPtr mem ptr n = some bytes := by
  induction bytes generalizing ptr n with
  | nil =>
      obtain ⟨first, -⟩ := holdsBytes_cons.mp holds
      cases n with
      | zero => cases room
      | succ n => simp [cstrFromPtr, first]
  | cons byte bytes ih =>
      obtain ⟨first, rest⟩ := holdsBytes_cons.mp holds
      have some' : byte ≠ 0 := by
        rintro rfl
        exact noNul List.mem_cons_self
      cases n with
      | zero => cases room
      | succ n =>
          have later := ih (n := n) rest (fun member => noNul (List.mem_cons_of_mem _ member))
            (Nat.lt_of_succ_lt_succ room)
          simp [cstrFromPtr, first, some', later]

/-- Two writes to different addresses. -/
def WritesApart (w v : Nat × List UInt8) : Prop := w.1 + w.2.length ≤ v.1 ∨ v.1 + v.2.length ≤ w.1

/-- After writes to different addresses, the bytes of each are in memory. -/
theorem writes_hold {writes : List (Nat × List UInt8)}
    (lower : ∀ write ∈ writes, write.1 + write.2.length ≤ 2 ^ 47)
    (different : writes.Pairwise WritesApart) (apart : LeavesApart s.ram root)
    (run : Prog.each writes (fun write => copyToUserPagetable root write.1 write.2) s = .ok () s') :
    (∀ write ∈ writes, HoldsBytes (userLoad root s') write.1 write.2) ∧
      ∀ a < 2 ^ 47, (∀ write ∈ writes, a < write.1 ∨ write.1 + write.2.length ≤ a) →
        userLoad root s' a = userLoad root s a := by
  induction writes generalizing s with
  | nil =>
      obtain ⟨-, rfl⟩ := Outcome.ok.inj run
      exact ⟨fun write member => absurd member List.not_mem_nil, fun a _ _ => rfl⟩
  | cons write writes ih =>
      obtain ⟨_, s₁, first, rest⟩ := Prog.bind_eq_ok.mp run
      obtain ⟨lowerHere, lowerLater⟩ := List.forall_mem_cons.mp lower
      obtain ⟨here, later⟩ := List.pairwise_cons.mp different
      obtain ⟨apart₁, view⟩ := copyToUserPagetable_apart lowerHere apart first
      obtain ⟨held, kept⟩ := ih lowerLater later apart₁ rest
      refine ⟨List.forall_mem_cons.mpr ⟨fun i inside => ?_, held⟩, fun a lowerA outside => ?_⟩
      · have others : ∀ next ∈ writes, write.1 + i < next.1 ∨
          next.1 + next.2.length ≤ write.1 + i := by
          intro next member
          rcases here next member with below | above
          · exact .inl (by omega)
          · exact .inr (by omega)
        rw [kept _ (by omega) others, view _ (by omega), if_pos (by omega), Nat.add_sub_cancel_left]
      · obtain ⟨outsideHere, outsideLater⟩ := List.forall_mem_cons.mp outside
        rw [kept a lowerA outsideLater, view a lowerA, if_neg (by omega)]

theorem stringWrites_apart (aligned : 8 ∣ sp) (room : stringsSize argv ≤ sp) :
    (stringWrites sp argv).Pairwise WritesApart := by
  induction argv generalizing sp with
  | nil => exact .nil
  | cons arg argv ih =>
      rw [stringsSize] at room
      have place : stringAt sp arg + (arg.length / 8 + 1) * 8 = sp := stringAt_eq aligned (by omega)
      have below := @stringWrites_within (stringAt sp arg) argv (Nat.dvd_mul_left 8 _) (by omega)
      refine List.pairwise_cons.mpr ⟨List.forall_mem_cons.mpr ⟨.inl le_rfl, fun write member => ?_⟩,
        List.pairwise_cons.mpr ⟨fun write member => ?_, ih (Nat.dvd_mul_left 8 _) (by omega)⟩⟩
      · exact .inr (below write member).2
      · exact .inr ((below write member).2.trans (Nat.le_add_right _ _))

theorem stackWrites_apart (aligned : 16 ∣ top) (room : stackUse argv ≤ top) :
    (stackWrites top argv).Pairwise WritesApart := by
  have frame := framePlace_eq aligned room
  rw [stackUse] at room frame
  have whole : argvPlace top argv +
    (stringsSize argv + (argv.length + 1) * 8 + 15) / 16 * 16 = top :=
    argvPlace_eq aligned (by omega)
  have aligned' : 8 ∣ top := (by decide : 8 ∣ 16).trans aligned
  have strings := @stringWrites_within top argv aligned' (by omega)
  have words : ((argvWords top argv).flatMap (leBytes · 8)).length = (argv.length + 1) * 8 := by
    rw [length_words, argvWords, List.length_append, List.length_singleton, length_stringPlaces]
  have three : ((frameWords top argv).flatMap (leBytes · 8)).length = 24 := by
    rw [length_words]
    rfl
  refine List.pairwise_append.mpr
    ⟨stringWrites_apart aligned' (by omega), ?_, fun write member word last => ?_⟩
  · refine List.pairwise_cons.mpr ⟨fun word last => ?_, List.pairwise_singleton _ _⟩
    obtain rfl := List.mem_singleton.mp last
    refine .inr ?_
    simp only [three]
    omega
  · have bounds := strings write member
    refine .inr ?_
    rcases List.mem_cons.mp last with rfl | last
    · simp only [words]
      omega
    · obtain rfl := List.mem_singleton.mp last
      simp only [three]
      omega

/-- The string of an argument, its NUL, and its place. -/
theorem stringWrites_argument {i : Nat} {arg : List UInt8} (here : argv[i]? = some arg) :
    ∃ place, (stringPlaces sp argv)[i]? = some place ∧ (place, arg) ∈ stringWrites sp argv ∧
      (place + arg.length, [0]) ∈ stringWrites sp argv := by
  induction argv generalizing sp i with
  | nil => cases here
  | cons first argv ih =>
      cases i with
      | zero =>
          obtain rfl := Option.some.inj here
          exact ⟨stringAt sp first, rfl, List.mem_cons_self,
            List.mem_cons_of_mem _ List.mem_cons_self⟩
      | succ i =>
          obtain ⟨place, position, string, nul⟩ := @ih (stringAt sp first) _ here
          exact ⟨place, position, List.mem_cons_of_mem _ (List.mem_cons_of_mem _ string),
            List.mem_cons_of_mem _ (List.mem_cons_of_mem _ nul)⟩

/-- The blocks of the initial stack, with their sizes: the strings with their NULs, the
    pointers, and the frame. -/
def stackBlocks (argv : List (List UInt8)) (userSp argvUserPtr : Nat) : List (Nat × Nat) :=
  List.zipWith (fun place arg => (place, arg.length + 1)) (stringPlaces USER_STACK_TOP argv) argv ++
    [(argvUserPtr, (argv.length + 1) * 8), (userSp, 3 * 8)]

/-- The blocks of the strings lie below each other. -/
theorem stringBlocks_descend (aligned : 8 ∣ sp) (room : stringsSize argv ≤ sp) :
    (List.zipWith (fun place (arg : List UInt8) => (place, arg.length + 1))
    (stringPlaces sp argv) argv).Pairwise
        (fun high low => low.1 + low.2 ≤ high.1) ∧
      ∀ block ∈ List.zipWith (fun place (arg : List UInt8) => (place, arg.length + 1))
        (stringPlaces sp argv) argv,
        sp ≤ block.1 + stringsSize argv ∧ block.1 + block.2 ≤ sp := by
  induction argv generalizing sp with
  | nil => exact ⟨.nil, fun block member => absurd member List.not_mem_nil⟩
  | cons arg argv ih =>
      rw [stringsSize] at room ⊢
      have place : stringAt sp arg + (arg.length / 8 + 1) * 8 = sp := stringAt_eq aligned (by omega)
      obtain ⟨descend, below⟩ := @ih (stringAt sp arg) (Nat.dvd_mul_left 8 _) (by omega)
      rw [stringPlaces, List.zipWith_cons_cons]
      refine ⟨List.pairwise_cons.mpr ⟨fun block member => (below block member).2, descend⟩,
        List.forall_mem_cons.mpr ⟨?_, fun block member => ?_⟩⟩
      · simp only
        omega
      · have bounds := below block member
        omega

/-- What a program finds at its start. -/
structure DecodesArguments (argv : List (List UInt8)) (userSp argc argvUserPtr : Nat)
    (mem : UserMemory) : Prop where
  /-- The blocks do not overlap, and end below the top of the stack. -/
  descend : (stackBlocks argv userSp argvUserPtr).Pairwise fun high low => low.1 + low.2 ≤ high.1
  below : ∀ block ∈ stackBlocks argv userSp argvUserPtr, block.1 + block.2 ≤ USER_STACK_TOP
  /-- The strings with their NULs, at the places of the layout. -/
  strings : ∀ i place arg, (stringPlaces USER_STACK_TOP argv)[i]? = some place →
    argv[i]? = some arg →
    HoldsBytes mem place (arg ++ [0]) ∧ loadLe mem (argvUserPtr + 8 * i) 8 = some place
  null : loadLe mem (argvUserPtr + 8 * argv.length) 8 = some 0
  pointersAligned : argvUserPtr % 16 = 0
  spAligned : userSp % 16 = 8
  count : argc = argv.length
  countWord : loadLe mem (userSp + 8) 8 = some argc
  argvWord : loadLe mem (userSp + 16) 8 = some argvUserPtr
  yields : Args.Yields mem ⟨argc, argvUserPtr, 0⟩ (argv.map toStr)

/-- The iterator, from the `i`-th argument on. -/
theorem yields_from {argvUserPtr : Nat} (nonnull : argvUserPtr ≠ 0)
    (strings : ∀ i arg, argv[i]? = some arg → ∃ place, place ≠ 0 ∧ place + arg.length < 2 ^ 64 ∧
      HoldsBytes mem place (arg ++ [0]) ∧ loadLe mem (argvUserPtr + 8 * i) 8 = some place)
    (noNul : ∀ arg ∈ argv, 0 ∉ arg) {rest : List (List UInt8)} {i : Nat}
    (split : argv.drop i = rest) :
    Args.Yields mem ⟨argv.length, argvUserPtr, i⟩ (rest.map toStr) := by
  induction rest generalizing i with
  | nil =>
      have ends : argv.length ≤ i := List.drop_eq_nil_iff.mp split
      exact ⟨_, by rw [Args.next, if_pos (.inl ends)]⟩
  | cons arg rest ih =>
      have inside : i < argv.length := by
        by_contra past
        rw [List.drop_of_length_le (not_lt.mp past)] at split
        cases split
      rw [List.drop_eq_getElem_cons inside] at split
      obtain ⟨here, later⟩ := List.cons.inj split
      obtain ⟨place, some', lower, holds, pointer⟩ :=
        strings i arg (by rw [List.getElem?_eq_getElem inside, here])
      have text := cstrFromPtr_holds (n := 2 ^ 64 - place) holds
        (noNul arg (here ▸ List.getElem_mem inside)) (by omega)
      refine ⟨⟨argv.length, argvUserPtr, i + 1⟩, ?_, ih later⟩
      rw [Args.next, if_neg (not_or.mpr ⟨not_le.mpr inside, nonnull⟩)]
      simp only [pointer, Option.bind_eq_bind, Option.bind_some, some', if_false, text]

/-- The initial stack decodes to the arguments it was built from. -/
theorem setupUserStack_decodes {root : PhysFrame} {argv : List (List UInt8)} {r : Nat × Nat × Nat}
    {s s' : MemState}
    (apart : LeavesApart s.ram root) (noNul : ∀ arg ∈ argv, 0 ∉ arg)
    (built : setupUserStack root argv USER_STACK_TOP s = .ok r s') (inside : stackStart ≤ r.1) :
    DecodesArguments argv r.1 r.2.1 r.2.2 (userLoad root s') := by
  have aligned : 16 ∣ USER_STACK_TOP := by decide
  have aligned' : 8 ∣ USER_STACK_TOP := by decide
  have lower : USER_STACK_TOP < 2 ^ 47 := by decide
  have positive : 0 < stackStart := by decide
  obtain ⟨room, rfl, writes⟩ := setupUserStack_run aligned built
  have frame := framePlace_eq aligned room
  have use : stackUse argv = (stringsSize argv + (argv.length + 1) * 8 + 15) / 16 * 16 + 24 := rfl
  have whole : argvPlace USER_STACK_TOP argv +
    (stringsSize argv + (argv.length + 1) * 8 + 15) / 16 * 16 = USER_STACK_TOP :=
    argvPlace_eq aligned (by omega)
  have within := stackWrites_within aligned room
  simp only at inside
  obtain ⟨held, -⟩ := writes_hold (fun write member => (within write member).2.trans lower.le)
    (stackWrites_apart aligned room) apart writes
  have words : HoldsBytes (userLoad root s') (argvPlace USER_STACK_TOP argv)
      ((argvWords USER_STACK_TOP argv).flatMap (leBytes · 8)) :=
        held _ (List.mem_append_right _ List.mem_cons_self)
  have three : HoldsBytes (userLoad root s') (framePlace USER_STACK_TOP argv)
      ((frameWords USER_STACK_TOP argv).flatMap (leBytes · 8)) :=
    held _ (List.mem_append_right _ (List.mem_cons_of_mem _ List.mem_cons_self))
  have count := length_stringPlaces USER_STACK_TOP argv
  have strings : ∀ i place arg, (stringPlaces USER_STACK_TOP argv)[i]? = some place →
    argv[i]? = some arg →
      (stackStart ≤ place ∧ place + arg.length < USER_STACK_TOP) ∧
        HoldsBytes (userLoad root s') place (arg ++ [0]) ∧
        loadLe (userLoad root s') (argvPlace USER_STACK_TOP argv + 8 * i) 8 = some place := by
    intro i place arg position here
    obtain ⟨place', position', string, nul⟩ := @stringWrites_argument USER_STACK_TOP argv i arg here
    obtain rfl := Option.some.inj (position.symm.trans position')
    have low := (within _ (List.mem_append_left _ string)).1
    have high := (within _ (List.mem_append_left _ nul)).2
    simp only [List.length_singleton] at low high
    refine ⟨⟨by omega, by omega⟩, holdsBytes_append.mpr
      ⟨held _ (List.mem_append_left _ string), held _ (List.mem_append_left _ nul)⟩, ?_⟩
    refine loadLe_words words ?_ (by omega)
    rw [argvWords, List.getElem?_append_left (List.getElem?_eq_some_iff.mp position).1, position]
  have argvAligned : argvPlace USER_STACK_TOP argv % 16 = 0 := Nat.mul_mod_left _ _
  obtain ⟨descend, below⟩ := @stringBlocks_descend USER_STACK_TOP argv aligned' (by omega)
  refine ⟨?_, fun block member => ?_, fun i place arg position here =>
    (strings i place arg position here).2, ?_, argvAligned,
    ?_, rfl, ?_, ?_, ?_⟩
  · refine List.pairwise_append.mpr ⟨descend, ?_, fun block member last inLast => ?_⟩
    · refine List.pairwise_cons.mpr ⟨fun last inLast => ?_, List.pairwise_singleton _ _⟩
      obtain rfl := List.mem_singleton.mp inLast
      simp only
      omega
    · have bounds := below block member
      rcases List.mem_cons.mp inLast with rfl | inLast
      · simp only
        omega
      · obtain rfl := List.mem_singleton.mp inLast
        simp only
        omega
  · rcases List.mem_append.mp member with string | last
    · exact (below block string).2
    · rcases List.mem_cons.mp last with rfl | last
      · simp only
        omega
      · obtain rfl := List.mem_singleton.mp last
        simp only
        omega
  · refine loadLe_words words ?_ (by decide)
    rw [argvWords, List.getElem?_append_right count.le, count, Nat.sub_self]
    rfl
  · simp only
    omega
  · exact loadLe_words (i := 1) three rfl (by simp only; omega)
  · exact loadLe_words (i := 2) three rfl (by simp only; omega)
  · have nonnull : argvPlace USER_STACK_TOP argv ≠ 0 := by omega
    refine yields_from nonnull (fun i arg here => ?_) noNul (List.drop_zero)
    have inRange := (List.getElem?_eq_some_iff.mp here).1
    obtain ⟨place, position⟩ : ∃ place, (stringPlaces USER_STACK_TOP argv)[i]? = some place :=
      ⟨_, List.getElem?_eq_getElem (by omega)⟩
    obtain ⟨bounds, holds, pointer⟩ := strings i place arg position here
    exact ⟨place, by omega, by omega, holds, pointer⟩

/-- The arguments of a program without segments. -/
theorem setupUserStack_decodes_bare :
    ∃ root t r s', setupUserStack root [[0x61], [0x62, 0x63]] USER_STACK_TOP t = .ok r s' ∧
    DecodesArguments [[0x61], [0x62, 0x63]] r.1 r.2.1 r.2.2 (userLoad root s') := by
  have distinct : bareMemory.available.Nodup := by decide
  obtain ⟨root, t, -, distinct₁, mapped, -⟩ :=
    bareImage_bare.mapped offsetPageTable distinct (by decide)
  obtain ⟨ram, built⟩ := @setupUserStack_mapped root t USER_STACK_TOP [[0x61], [0x62, 0x63]]
    (by decide) (by decide) (by decide)
    (fun a low high => mapped a (le_trans (by decide) low) high) distinct₁
  exact ⟨root, t, _, _, built,
    setupUserStack_decodes (leavesApart distinct₁) (by decide) built (by decide)⟩

end FerriOS.Loader
