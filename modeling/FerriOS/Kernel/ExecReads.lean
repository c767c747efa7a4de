import FerriOS.Exec.RoundTrip
import FerriOS.Kernel.RawReads

/-! # The arguments of exec, page by page

The library writes its buffers into a flat memory, and the kernel reads them through the page
table of the caller. Where the CPU finds what the flat memory holds, both end alike.
-/

namespace FerriOS.System

open FerriOS.Lib FerriOS.Memory FerriOS.Loader

variable {s : MemState} {mem mem' : Bytes} {l : ExecLocals} {va ptr argvPtr i left : Nat}
  {bytes path : List UInt8}
  {argv : List (List UInt8)}

/-! ## The kernel sees what the program sees -/

/-- In a page table without huge pages the CPU finds a byte of the lower half for the kernel
    where the program finds it. -/
theorem cpuByte_userLoad (slots : Slots kernelLaw s.ram 4 s.cr3) (lower : va < 2 ^ 47) :
    cpuByte s va = userLoad s.cr3 s va := by
  obtain ⟨fits₁, fits₂, fits₃, fits₄, -⟩ := pageIndices_fits lower
  have canonical : ¬ VirtAddr.new va ≠ some va := not_not.mpr (VirtAddr.new_lower lower)
  have small : ∀ {is d t i}, TreePath s.ram 4 s.cr3 is (d + 1) t → i ∈ userFan (d + 1) →
      (s.ram.entry t i).present = true → (s.ram.entry t i).huge = false := fun path fits linked =>
    ((slots _ _ _ path _ fits).small (fun f law => kernelLaw_noHuge _ f law) linked).2
  rw [cpuByte, cpuTranslate, if_neg canonical, userLoad, pageOf, pageIndices, tableIndices]
  simp only [List.cons_append, List.nil_append, follow, PhysMem.child, PageTableEntry.child]
  cases linked₁ : (s.ram.entry s.cr3 (pml4Index va)).present with
  | false => simp
  | true =>
    have path₁ : TreePath s.ram 4 s.cr3 [pml4Index va] 3 (s.ram.entry s.cr3 (pml4Index va)).addr :=
      Radix.Path.nil.snoc fits₁ (PageTableEntry.child_eq_some.mpr ⟨linked₁, rfl⟩)
    have small₁ := small .nil fits₁ linked₁
    cases linked₂ : (s.ram.entry (s.ram.entry s.cr3 (pml4Index va)).addr
      (pdptIndex va)).present with
    | false => simp [linked₂, small₁]
    | true =>
      have path₂ := path₁.snoc fits₂ (PageTableEntry.child_eq_some.mpr ⟨linked₂, rfl⟩)
      have small₂ := small path₁ fits₂ linked₂
      cases linked₃ : (s.ram.entry
        (s.ram.entry (s.ram.entry s.cr3 (pml4Index va)).addr (pdptIndex va)).addr
        (pdIndex va)).present with
      | false => simp [linked₂, linked₃, small₁, small₂]
      | true =>
        have small₃ := small path₂ fits₃ linked₃
        cases linked₄ : (s.ram.entry
          (s.ram.entry (s.ram.entry (s.ram.entry s.cr3 (pml4Index va)).addr
          (pdptIndex va)).addr (pdIndex va)).addr (ptIndex va)).present with
        | false => simp [linked₂, linked₃, linked₄, small₁, small₂, small₃]
        | true => simp [linked₂, linked₃, linked₄, small₁, small₂, small₃]

/-! ## The loops -/

/-- The CPU finds the bytes of a flat memory, up to the end of the string. -/
def FlatString (s : MemState) (mem : Bytes) (ptr i left : Nat) : Prop :=
  UpTo (fun i => mem (ptr + i) ≠ 0)
    (fun i => cpuByte s (ptrAdd ptr i) = some (mem (ptr + i))) i left

theorem copyCstrLoop_flat (flat : FlatString s mem ptr i left) :
    (copyCstrLoop s ptr left i bytes).ending = .ofExcept
    ((cstrLoop mem (ptr + i) left).map (bytes ++ ·)) := by
  induction left generalizing i bytes with
  | zero => rfl
  | succ left ih =>
      obtain ⟨here, rest⟩ := upTo_succ.mp flat
      have read : (Reads.read (cpuByte s) (ptrAdd ptr i)).ending = .ok (mem (ptr + i)) :=
        Reads.read_ending_ok.mpr here
      rw [copyCstrLoop, cstrLoop, Reads.bind_ending read]
      by_cases zero : mem (ptr + i) = 0
      · rw [if_pos zero, if_pos zero]
        exact congrArg Ending.ok (List.append_nil bytes).symm
      · rw [if_neg zero, if_neg zero, ih (rest zero), Nat.add_assoc]
        cases cstrLoop mem (ptr + (i + 1)) left with
        | error message => rfl
        | ok string => exact congrArg Ending.ok (List.append_assoc bytes [mem (ptr + i)] string)

theorem copyCstrFromUser_flat (flat : FlatString s mem ptr 0 left) :
    (copyCstrFromUser s ptr left).ending = .ofExcept (Loader.copyCstrFromUser mem ptr left) := by
  rw [copyCstrFromUser, Loader.copyCstrFromUser]
  split
  · rfl
  · rw [copyCstrLoop_flat flat]
    cases cstrLoop mem ptr left <;> rfl

/-- The CPU finds the pointers of a flat memory and their strings, up to the null pointer. -/
def FlatVector (s : MemState) (mem : Bytes) (argvPtr i left : Nat) : Prop :=
  UpTo (fun i => mem.loadWord (argvPtr + 8 * i) ≠ 0)
    (fun i => (∀ j < 8, cpuByte s
    (ptrAdd (ptrAdd argvPtr (8 * i)) j) = some (mem (argvPtr + 8 * i + j))) ∧
      (mem.loadWord (argvPtr + 8 * i) ≠ 0 →
        FlatString s mem (mem.loadWord (argvPtr + 8 * i)) 0 MAX_ARG_LEN)) i left

theorem copyArgvLoop_flat (flat : FlatVector s mem argvPtr i left) :
    (copyArgvLoop s argvPtr left i argv).ending =
      .ofExcept ((argvLoop mem (argvPtr + 8 * i) left).map (argv ++ ·)) := by
  induction left generalizing i argv with
  | zero => rfl
  | succ left ih =>
      obtain ⟨⟨bytes, string⟩, rest⟩ := upTo_succ.mp flat
      have word : (readWord s (ptrAdd argvPtr (8 * i))).ending = .ok (mem.loadWord
        (argvPtr + 8 * i)) :=
        readWord_ending.mpr ⟨fun j => mem (argvPtr + 8 * i + j), bytes, rfl⟩
      rw [copyArgvLoop, argvLoop, Reads.bind_ending word]
      by_cases null : mem.loadWord (argvPtr + 8 * i) = 0
      · rw [if_pos null, if_pos null]
        exact congrArg Ending.ok (List.append_nil argv).symm
      · rw [if_neg null, if_neg null]
        have read := copyCstrFromUser_flat (string null)
        change _ = Ending.ofExcept (Loader.copyCstrFromUser mem _ Loader.MAX_ARG_LEN) at read
        cases first : Loader.copyCstrFromUser mem
          (mem.loadWord (argvPtr + 8 * i)) Loader.MAX_ARG_LEN with
        | error message =>
            rw [first] at read
            exact Reads.bind_ending_err read
        | ok arg =>
            rw [first] at read
            rw [Reads.bind_ending read, ih (rest null),
              show argvPtr + 8 * (i + 1) = argvPtr + 8 * i + 8 by omega]
            cases argvLoop mem (argvPtr + 8 * i + 8) left with
            | error message => rfl
            | ok args => exact congrArg Ending.ok (List.append_assoc argv [arg] args)

theorem copyArgv_flat (flat : FlatVector s mem argvPtr 0 MAX_ARGC) :
    (copyArgv s argvPtr).ending = .ofExcept (Loader.copyArgv mem argvPtr) := by
  rw [copyArgv, Loader.copyArgv]
  split
  · rfl
  · rw [copyArgvLoop_flat flat]
    change Ending.ofExcept ((argvLoop mem argvPtr Loader.MAX_ARGC).map _) = _
    cases argvLoop mem argvPtr Loader.MAX_ARGC <;> rfl

/-! ## The buffers of the library -/

/-- The bytes of the locals that matter for `n` arguments. -/
def Used (l : ExecLocals) (n a : Nat) : Prop :=
  (l.pathBuf ≤ a ∧ a < l.pathBuf + BUF_LEN) ∨ (l.argvPtrs ≤ a ∧ a < l.argvPtrs + (n + 1) * 8) ∨
    ∃ i < n, l.argBuf i ≤ a ∧ a < l.argBuf i + BUF_LEN

theorem userExec_pointers (accepted : userExec l path argv mem = some mem')
    (inside : i < argv.length) :
    mem'.loadWord (l.argvPtrs + i * 8) = l.argBuf i := by
  simp only [userExec, Option.ite_none_left_eq_some, not_lt] at accepted
  obtain ⟨few, accepted⟩ := accepted
  obtain ⟨buf, -, copied⟩ := Option.bind_eq_some_iff.mp accepted
  have pointer := ((copyArgs_spec copied (by omega)).1 i _ (List.getElem?_eq_getElem inside)).1
  rwa [Nat.zero_add] at pointer

theorem ptrAdd_lower (lower : ptr + i < 2 ^ 47) : ptrAdd ptr i = ptr + i :=
  Nat.mod_eq_of_lt (lower.trans (by decide))

theorem flatString_of (seen : ∀ j < left, ptr + j < 2 ^ 47 ∧
    cpuByte s (ptr + j) = some (mem (ptr + j))) :
    FlatString s mem ptr 0 left := by
  intro j _ inside _
  obtain ⟨lower, found⟩ := seen j (by omega)
  rwa [ptrAdd_lower lower]

/-- What the library has encoded is a flat vector for the kernel, where the CPU finds it. -/
theorem userExec_flat (accepted : userExec l path argv mem = some mem')
    (seen : ∀ a, Used l argv.length a → a < 2 ^ 47 ∧ cpuByte s a = some (mem' a)) :
    FlatString s mem' l.pathBuf 0 MAX_ARG_LEN ∧ FlatVector s mem' l.argvPtrs 0 MAX_ARGC := by
  have ends := (userExec_spec accepted).2.2
  refine ⟨flatString_of fun j inside => seen _ (.inl ?_), fun k _ _ before => ?_⟩
  · simp only [MAX_ARG_LEN, BUF_LEN, EXEC_MAX_ARG_LEN] at inside ⊢
    omega
  · have reached : k ≤ argv.length := by
      by_contra beyond
      exact before argv.length (Nat.zero_le _) (by omega) (by rwa [Nat.mul_comm])
    have byte : ∀ j < 8, l.argvPtrs + 8 * k + j < 2 ^ 47 ∧
        cpuByte s (l.argvPtrs + 8 * k + j) = some (mem' (l.argvPtrs + 8 * k + j)) :=
      fun j inside => seen _ (.inr (.inl (by omega)))
    refine ⟨fun j inside => ?_, fun nonnull => ?_⟩
    · obtain ⟨lower, found⟩ := byte j inside
      have base : ptrAdd l.argvPtrs (8 * k) = l.argvPtrs + 8 * k := ptrAdd_lower (by omega)
      rwa [base, ptrAdd_lower lower]
    · have argument : k < argv.length := by
        refine lt_of_le_of_ne reached ?_
        rintro rfl
        exact nonnull (by rwa [Nat.mul_comm])
      rw [Nat.mul_comm, userExec_pointers accepted argument]
      refine flatString_of fun j inside => seen _ (.inr (.inr ⟨k, argument, ?_⟩))
      simp only [MAX_ARG_LEN, BUF_LEN, EXEC_MAX_ARG_LEN] at inside ⊢
      omega

/-- The kernel reads the buffers of the library through the page table as it would read the
    flat memory, without a fault, and finds the path and the arguments within the limits. -/
theorem exec_reads_flat (slots : Slots kernelLaw s.ram 4 s.cr3) (noNulPath : 0 ∉ path)
    (noNul : ∀ arg ∈ argv, 0 ∉ arg)
    (accepted : userExec l path argv mem = some mem')
    (written : ∀ a, Used l argv.length a → a < 2 ^ 47 ∧ userLoad s.cr3 s a = some (mem' a)) :
    (copyCstrFromUser s l.pathBuf MAX_ARG_LEN).ending =
        .ofExcept (Loader.copyCstrFromUser mem' l.pathBuf MAX_ARG_LEN) ∧
      (copyArgv s l.argvPtrs).ending = .ofExcept (Loader.copyArgv mem' l.argvPtrs) ∧
      ((copyCstrFromUser s l.pathBuf MAX_ARG_LEN).ending = .ok path ∧
        (copyArgv s l.argvPtrs).ending = .ok argv ↔
        path.length < MAX_ARG_LEN ∧ argv.length < MAX_ARGC ∧ ∀ arg ∈ argv,
          arg.length < MAX_ARG_LEN) := by
  obtain ⟨string, vector⟩ := userExec_flat accepted fun a used => by
    obtain ⟨lower, view⟩ := written a used
    exact ⟨lower, (cpuByte_userLoad slots lower).trans view⟩
  obtain ⟨holdsPath, holdsArgv⟩ := userExec_spec accepted
  have decodedPath := copyCstrFromUser_flat string
  have decodedArgv := copyArgv_flat vector
  refine ⟨decodedPath, decodedArgv, ?_⟩
  rw [decodedPath, decodedArgv, Ending.ofExcept_ok, Ending.ofExcept_ok, Loader.copyArgv,
    if_neg l.argvPtrs_pos.ne']
  exact and_congr (cstr_ok_iff l.pathBuf_pos holdsPath noNulPath) (argvLoop_ok_iff holdsArgv noNul)

theorem firstPage_slots : Slots kernelLaw firstPage 4 1 := by
  intro is d t path i _
  rw [firstPage_entry]
  split
  · refine .inr ⟨?_, kernelLaw_tableFlags _⟩
    change tableFlags.contains .PRESENT = true
    decide
  · exact .inl rfl

/-- Locals on the first page, but for the buffers of further arguments. -/
def pageLocals : ExecLocals where
  pathBuf := 8
  argBufs := 1024
  argvPtrs := 512
  pathBuf_pos := by decide
  argBufs_pos := by decide
  argvPtrs_pos := by decide
  lower := by decide
  path_args := by decide
  path_ptrs := by decide
  args_ptrs := by decide

/-- The path and one argument, on the first page. -/
theorem exec_reads_flat_page :
    ∃ mem', userExec pageLocals [0x2F] [[0x61]] (fun _ => 0) = some mem' ∧
    (copyCstrFromUser (pageKernel mem').mem pageLocals.pathBuf MAX_ARG_LEN).ending = .ok [0x2F] ∧
      (copyArgv (pageKernel mem').mem pageLocals.argvPtrs).ending = .ok [[0x61]] := by
  obtain ⟨mem', accepted⟩ : ∃ mem', userExec pageLocals [0x2F] [[0x61]] (fun _ => 0) = some mem' :=
    ⟨_, rfl⟩
  have slots : Slots kernelLaw (pageKernel mem').mem.ram 4 1 :=
    slots_congr pageHolding_table firstPage_slots
  refine ⟨mem', accepted, (exec_reads_flat slots (by decide) (by decide) accepted fun a used =>
    ?_).2.2.mpr (by decide)⟩
  have inside : a < PAGE_SIZE := by
    rcases used with used | used | ⟨i, few, used⟩
    · exact used.2.trans (by decide)
    · exact used.2.trans (by decide)
    · obtain rfl : i = 0 := Nat.lt_one_iff.mp few
      exact used.2.trans (by decide)
  exact ⟨inside.trans (by decide), pageKernel_load inside⟩

end FerriOS.System
