import FerriOS.Kernel.UserCopies
import FerriOS.Exec.UserHalf
import FerriOS.Lib.Reads

/-! # Reading through the pointers of a program

`exec` takes the strings of its caller through raw pointers. The CPU translates them with
the rights of the kernel, so nothing asks whether the program may read there.
-/

namespace FerriOS.System

open FerriOS.Lib FerriOS.Memory FerriOS.Loader

/-- The frame of an address in a page of `2 ^ bits` frames. -/
def hugeFrame (bits : Nat) (base : PhysFrame) (va : Nat) : PhysFrame :=
  BitVec.ofNat 40 (base.toNat / 2 ^ bits * 2 ^ bits + va / PAGE_SIZE % 2 ^ bits)

/-- Where the CPU finds a byte for the kernel, which may read pages of either kind; `none`
    is a page fault, or the fault of an address that is not canonical. -/
def cpuTranslate (ram : PhysMem) (cr3 : PhysFrame) (va : Nat) : Option (PhysFrame × Nat) :=
  let pml4e := ram.entry cr3 (pml4Index va)
  let pdpte := ram.entry pml4e.addr (pdptIndex va)
  let pde := ram.entry pdpte.addr (pdIndex va)
  let pte := ram.entry pde.addr (ptIndex va)
  if VirtAddr.new va ≠ some va then none
  else if !pml4e.present || pml4e.huge then none
  else if !pdpte.present then none
  else if pdpte.huge then some (hugeFrame 18 pdpte.addr va, pageOffset va)
  else if !pde.present then none
  else if pde.huge then some (hugeFrame 9 pde.addr va, pageOffset va)
  else if !pte.present then none
  else some (pte.addr, pageOffset va)

def cpuByte (s : MemState) (va : Nat) : Option UInt8 :=
  (cpuTranslate s.ram s.cr3 va).map fun place => s.ram place.1 place.2

/-- `ptr.add(i)`. -/
def ptrAdd (ptr i : Nat) : Nat := (ptr + i) % 2 ^ 64

/-- Bytes one after the other; a word may lie in two pages. -/
def readBytes (s : MemState) (ptr : Nat) : Nat → Nat → Reads Nat (List UInt8)
  | 0, _ => pure []
  | left + 1, i => do
      let byte ← Reads.read (cpuByte s) (ptrAdd ptr i)
      let bytes ← readBytes s ptr left (i + 1)
      pure (byte :: bytes)

def readWord (s : MemState) (ptr : Nat) : Reads Nat Nat := do
  let bytes ← readBytes s ptr 8 0
  pure (leWord fun j => bytes.getD j 0).toNat

def copyCstrLoop (s : MemState) (ptr : Nat) : Nat → Nat → List UInt8 → Reads Nat (List UInt8)
  | 0, _, _ => .fail "exec: argument is too long"
  | left + 1, i, bytes => do
      let byte ← Reads.read (cpuByte s) (ptrAdd ptr i)
      if byte = 0 then pure bytes else copyCstrLoop s ptr left (i + 1) (bytes ++ [byte])

def copyCstrFromUser (s : MemState) (ptr maxLen : Nat) : Reads Nat (List UInt8) :=
  if ptr = 0 then .fail "exec: null argument pointer" else copyCstrLoop s ptr maxLen 0 []

def copyArgvLoop (s : MemState) (argvPtr : Nat) :
    Nat → Nat → List (List UInt8) → Reads Nat (List (List UInt8))
  | 0, _, _ => .fail "exec: too many arguments"
  | left + 1, i, argv => do
      let userArgPtr ← readWord s (ptrAdd argvPtr (8 * i))
      if userArgPtr = 0 then pure argv
      else do
        let arg ← copyCstrFromUser s userArgPtr MAX_ARG_LEN
        copyArgvLoop s argvPtr left (i + 1) (argv ++ [arg])

def copyArgv (s : MemState) (argvPtr : Nat) : Reads Nat (List (List UInt8)) :=
  if argvPtr = 0 then pure [] else copyArgvLoop s argvPtr MAX_ARGC 0 []

/-- `copy_bytes_from_user` accepts an address of the lower half. -/
def Accepts (cfg : Config) (k : Kernel) (va : Nat) : Prop :=
  va < 2 ^ 47 ∧ ∃ bytes, copyBytesFromUser cfg va 1 k = .ok bytes k

/-- The page of an address is there for user mode, and for the CPU. -/
structure UserByte (k : Kernel) (root : PhysFrame) (va : Nat) : Prop where
  positive : 0 < va
  lower : va < 2 ^ 47
  readable : Readable k.mem.ram root va
  mapped : (cpuByte k.mem va).isSome = true

/-- The bytes of a string from `i` on, up to the first that is zero, or `left` of them. -/
def StringReadable (k : Kernel) (root : PhysFrame) (ptr i left : Nat) : Prop :=
  UpTo (fun i => cpuByte k.mem (ptrAdd ptr i) ≠ some 0)
    (fun i => UserByte k root (ptrAdd ptr i)) i left

def StringEnds (s : MemState) (ptr i left : Nat) : Prop :=
  ∃ j, i ≤ j ∧ j < i + left ∧ cpuByte s (ptrAdd ptr j) = some 0

/-- A word in memory. -/
def WordAt (s : MemState) (ptr value : Nat) : Prop :=
  ∃ bytes : Nat → UInt8, (∀ j < 8, cpuByte s (ptrAdd ptr j) = some (bytes j)) ∧
    (leWord bytes).toNat = value

/-- The elements of a vector from `i` on and their strings, up to the first that is null or
    too long, or `left` of them. -/
def VectorReadable (k : Kernel) (root : PhysFrame) (argvPtr i left : Nat) : Prop :=
  UpTo (fun i => ∃ p, WordAt k.mem (ptrAdd argvPtr (8 * i)) p ∧ p ≠ 0 ∧
    StringEnds k.mem p 0 MAX_ARG_LEN)
    (fun i => (∀ j < 8, UserByte k root (ptrAdd (ptrAdd argvPtr (8 * i)) j)) ∧
      ∀ p, WordAt k.mem (ptrAdd argvPtr (8 * i)) p → p ≠ 0 →
        StringReadable k root p 0 MAX_ARG_LEN) i left

variable {cfg : Config} {k : Kernel} {t q : Nat} {p : Process} {root : PhysFrame}
  {va ptr i left : Nat} {s : MemState}
  {bytes : List UInt8}

theorem accepts_iff (cur : Current k t q p) (table : p.pageTable = some root) :
    Accepts cfg k va ↔ 0 < va ∧ va < 2 ^ 47 ∧ Readable k.mem.ram root va := by
  rw [Accepts, and_left_comm]
  refine and_congr_right fun lower => ?_
  by_cases null : va = 0
  · subst null
    refine ⟨fun accepted => ?_, fun accepted => absurd accepted.1 (lt_irrefl 0)⟩
    obtain ⟨bytes, run⟩ := accepted
    rw [copyBytesFromUser, if_pos rfl] at run
    cases run
  · have one : pieces va 1 = [(0, 1)] := by
      obtain ⟨size, positive, inside, -, split⟩ := @piecesFrom_succ 1 va 0 0 Nat.zero_lt_one
      obtain rfl : size = 1 := by omega
      exact split
    rw [copyBytesFromUser, if_neg null, Prog.bind_ok (currentPageTable_run cur table), one,
      List.foldlM_cons]
    constructor
    · rintro ⟨bytes, run⟩
      obtain ⟨_, k₁, piece, -⟩ := Prog.bind_eq_ok.mp run
      obtain ⟨_, k₂, page, -⟩ := Prog.bind_eq_ok.mp piece
      obtain ⟨-, flags, -⟩ := (userPage_ok lower List.mem_cons_self).mp page
      exact ⟨Nat.pos_of_ne_zero null, by simpa [Readable] using flags⟩
    · rintro ⟨-, readable⟩
      have page : userPage cfg root va 0
          [(.PRESENT, "syscall: address is not present"),
           (.USER_ACCESSIBLE, "syscall: address is not user-accessible")] k = .ok _ k :=
        (userPage_ok lower List.mem_cons_self).mpr ⟨rfl, by simpa [Readable] using readable, rfl⟩
      exact ⟨_, Prog.bind_ok (Prog.bind_ok page)⟩

theorem userByte_iff (cur : Current k t q p) (table : p.pageTable = some root) :
    (Reads.read (cpuByte k.mem) va).Within (Accepts cfg k) ↔ UserByte k root va := by
  rw [Reads.within_read, accepts_iff cur table]
  exact ⟨fun ⟨⟨positive, lower, readable⟩, mapped⟩ => ⟨positive, lower, readable, mapped⟩,
    fun byte => ⟨⟨byte.positive, byte.lower, byte.readable⟩, byte.mapped⟩⟩

/-- A string is read up to its end. -/
theorem copyCstrLoop_within (cur : Current k t q p) (table : p.pageTable = some root) :
    (copyCstrLoop k.mem ptr left i bytes).Within (Accepts cfg k) ↔
    StringReadable k root ptr i left := by
  induction left generalizing i bytes with
  | zero => exact ⟨fun _ => upTo_zero i, fun _ => Reads.within_fail _⟩
  | succ left ih =>
      rw [copyCstrLoop, Reads.within_bind, userByte_iff cur table, StringReadable, upTo_succ]
      refine and_congr_right fun here => ?_
      obtain ⟨byte, found⟩ := Option.isSome_iff_exists.mp here.mapped
      have read : ∀ b, (Reads.read (cpuByte k.mem) (ptrAdd ptr i)).ending = .ok b ↔ byte = b :=
        fun b => by
        rw [Reads.read_ending_ok, found, Option.some.injEq]
      simp only [read, forall_eq', found, ne_eq, Option.some.injEq]
      split
      case isTrue zero => exact ⟨fun _ more => absurd zero more, fun _ => Reads.within_pure _⟩
      case isFalse more => exact ih.trans ⟨fun rest _ => rest, fun rest => rest more⟩

/-- It has an end, when it is copied. -/
theorem copyCstrLoop_ends (readable : StringReadable k root ptr i left) :
    (∃ string, (copyCstrLoop k.mem ptr left i bytes).ending = .ok string) ↔
    StringEnds k.mem ptr i left := by
  induction left generalizing i bytes with
  | zero =>
      constructor
      · rintro ⟨string, ended⟩
        cases ended
      · rintro ⟨j, low, high, -⟩
        omega
  | succ left ih =>
      obtain ⟨here, rest⟩ := upTo_succ.mp readable
      obtain ⟨byte, found⟩ := Option.isSome_iff_exists.mp here.mapped
      simp only [copyCstrLoop, Reads.bind_ending_ok, Reads.read_ending_ok, found,
        Option.some.injEq, exists_eq_left']
      split
      case isTrue zero => exact
        ⟨fun _ => ⟨i, le_rfl, by omega, by rw [found, zero]⟩, fun _ => ⟨bytes, rfl⟩⟩
      case isFalse more =>
        rw [ih (rest (by rw [found]; simpa using more))]
        constructor
        · rintro ⟨j, low, high, zero⟩
          exact ⟨j, by omega, by omega, zero⟩
        · rintro ⟨j, low, high, zero⟩
          refine ⟨j, lt_of_le_of_ne low ?_, by omega, zero⟩
          rintro rfl
          rw [found] at zero
          exact more (Option.some.inj zero)

theorem readBytes_within (cur : Current k t q p) (table : p.pageTable = some root) :
    (readBytes k.mem ptr left i).Within (Accepts cfg k) ↔ ∀ j, i ≤ j → j < i + left →
    UserByte k root (ptrAdd ptr j) := by
  induction left generalizing i with
  | zero => exact ⟨fun _ j low high => by omega, fun _ => Reads.within_pure _⟩
  | succ left ih =>
      simp only [readBytes, Reads.within_bind, userByte_iff cur table, Reads.within_pure,
        implies_true, and_true, ih]
      constructor
      · rintro ⟨here, rest⟩ j low high
        rcases low.eq_or_lt with rfl | after
        · exact here
        · obtain ⟨byte, found⟩ := Option.isSome_iff_exists.mp here.mapped
          exact rest byte (Reads.read_ending_ok.mpr found) j after (by omega)
      · intro all
        exact ⟨all i le_rfl (by omega), fun _ _ j low high => all j (by omega) (by omega)⟩

theorem readBytes_ending : (readBytes s ptr left i).ending = .ok bytes ↔
    bytes.length = left ∧ ∀ j < left, cpuByte s (ptrAdd ptr (i + j)) = some (bytes.getD j 0) := by
  induction left generalizing i bytes with
  | zero =>
      constructor
      · intro run
        cases run
        exact ⟨rfl, fun j small => absurd small (Nat.not_lt_zero j)⟩
      · rintro ⟨empty, -⟩
        rw [List.length_eq_zero_iff.mp empty]
        rfl
  | succ left ih =>
      simp only [readBytes, Reads.bind_ending_ok, Reads.read_ending_ok, ih]
      constructor
      · rintro ⟨byte, found, rest, ⟨length, all⟩, run⟩
        cases run
        refine ⟨by rw [List.length_cons, length], fun j small => ?_⟩
        cases j with
        | zero => exact found
        | succ j => rw [List.getD_cons_succ, ← all j (by omega), Nat.add_right_comm, Nat.add_assoc]
      · rintro ⟨length, all⟩
        cases bytes with
        | nil => cases length
        | cons byte rest =>
            refine ⟨byte, all 0 (by omega), rest, ⟨by simpa using length, fun j small => ?_⟩, rfl⟩
            have next := all (j + 1) (by omega)
            rwa [List.getD_cons_succ, ← Nat.add_assoc, Nat.add_right_comm] at next

theorem readWord_within (cur : Current k t q p) (table : p.pageTable = some root) :
    (readWord k.mem ptr).Within (Accepts cfg k) ↔ ∀ j < 8, UserByte k root (ptrAdd ptr j) := by
  simp only [readWord, Reads.within_bind, readBytes_within cur table, Reads.within_pure,
    implies_true, and_true, Nat.zero_add,
    Nat.zero_le, true_implies]

theorem readWord_ending {value : Nat} :
    (readWord s ptr).ending = .ok value ↔ WordAt s ptr value := by
  simp only [readWord, Reads.bind_ending_ok, readBytes_ending, Nat.zero_add]
  constructor
  · rintro ⟨bytes, ⟨-, all⟩, run⟩
    cases run
    exact ⟨fun j => bytes.getD j 0, all, rfl⟩
  · rintro ⟨bytes, all, rfl⟩
    have listed : ∀ j < 8, ((List.range 8).map bytes).getD j 0 = bytes j := fun j small => by
      rw [List.getD_eq_getElem?_getD, List.getElem?_map, List.getElem?_range small,
        Option.map_some, Option.getD_some]
    refine ⟨(List.range 8).map bytes,
      ⟨by simp, fun j small => by rw [listed j small, all j small]⟩, ?_⟩
    rw [leWord_congr listed]
    rfl

/-- A vector is read element by element, each with its string. -/
theorem copyArgvLoop_within (cur : Current k t q p) (table : p.pageTable = some root)
    {argvPtr : Nat}
    {argv : List (List UInt8)} : (copyArgvLoop k.mem argvPtr left i argv).Within (Accepts cfg k) ↔
      VectorReadable k root argvPtr i left := by
  induction left generalizing i argv with
  | zero => exact ⟨fun _ => upTo_zero i, fun _ => Reads.within_fail _⟩
  | succ left ih =>
      have string : ∀ p, p ≠ 0 →
        copyCstrFromUser k.mem p MAX_ARG_LEN = copyCstrLoop k.mem p MAX_ARG_LEN 0 [] :=
        fun p positive => if_neg positive
      rw [copyArgvLoop, Reads.within_bind, readWord_within cur table, VectorReadable, upTo_succ]
      simp only [readWord_ending]
      constructor
      · rintro ⟨word, next⟩
        refine ⟨⟨word, fun p here positive => ?_⟩, ?_⟩
        · have within := next p here
          rw [if_neg positive, Reads.within_bind, string p positive,
            copyCstrLoop_within cur table] at within
          exact within.1
        · rintro ⟨p, here, positive, ends⟩
          have within := next p here
          rw [if_neg positive, Reads.within_bind, string p positive,
            copyCstrLoop_within cur table] at within
          obtain ⟨arg, copied⟩ := (copyCstrLoop_ends within.1).mpr ends
          exact ih.mp (within.2 arg copied)
      · rintro ⟨⟨word, strings⟩, rest⟩
        refine ⟨word, fun p here => ?_⟩
        split
        case isTrue => exact Reads.within_pure _
        case isFalse positive =>
          have readable := strings p here positive
          rw [Reads.within_bind, string p positive, copyCstrLoop_within cur table]
          refine ⟨readable, fun arg copied => ih.mpr (rest ⟨p, here, positive, ?_⟩)⟩
          exact (copyCstrLoop_ends readable).mp ⟨arg, copied⟩

/-- A string and a vector are read within what `copy_bytes_from_user` accepts, and without
    a page fault, when their bytes lie in pages for user mode, and only then. -/
theorem rawReads_within (cfg : Config) {k : Kernel} {t q : Nat} {p : Process} {root : PhysFrame}
    (cur : Current k t q p)
    (table : p.pageTable = some root) :
    (∀ ptr maxLen, (copyCstrFromUser k.mem ptr maxLen).Within (Accepts cfg k) ↔
    (ptr ≠ 0 → StringReadable k root ptr 0 maxLen)) ∧
    ∀ argvPtr, (copyArgv k.mem argvPtr).Within (Accepts cfg k) ↔ (argvPtr ≠ 0 → VectorReadable k root argvPtr 0 MAX_ARGC) := by
  refine ⟨fun ptr maxLen => ?_, fun argvPtr => ?_⟩
  · rw [copyCstrFromUser]
    split
    case isTrue null => exact ⟨fun _ positive => absurd null positive, fun _ => Reads.within_fail _⟩
    case isFalse positive => exact (copyCstrLoop_within cur table).trans ⟨fun all _ => all, fun all => all positive⟩
  · rw [copyArgv]
    split
    case isTrue null => exact ⟨fun _ positive => absurd null positive, fun _ => Reads.within_pure _⟩
    case isFalse positive => exact (copyArgvLoop_within cur table).trans ⟨fun all _ => all, fun all => all positive⟩

/-- A page with the string "AB" at address 8, and at address 64 a vector with that string. -/
def vectorPage (a : Nat) : UInt8 :=
  if a = 8 then 65 else if a = 9 then 66 else if a = 64 then 8 else 0

theorem vectorPage_byte {a : Nat} (inside : a ∈ List.range' 8 3 ∨ a ∈ List.range' 64 16) :
    UserByte (pageKernel vectorPage) 1 a ∧
      cpuByte (pageKernel vectorPage).mem a = some (vectorPage a) := by
  have mapped : ∀ a ∈ List.range' 8 3 ++ List.range' 64 16,
    cpuByte (pageKernel vectorPage).mem a = some (vectorPage a) := by decide +kernel
  have byte := mapped a (List.mem_append.mpr inside)
  simp only [List.mem_range'_1] at inside
  exact ⟨⟨by omega, by omega, pageHolding_readable (by rw [PAGE_SIZE]; omega),
    by rw [byte]; rfl⟩, byte⟩

theorem vectorPage_string (left : Nat) : StringReadable (pageKernel vectorPage) 1 8 0 left := by
  intro i _ _ more
  have inside : i < 3 := by
    by_contra far
    exact more 2 (Nat.zero_le _) (by omega) (vectorPage_byte (.inl (by decide))).2
  have place : ptrAdd 8 i = 8 + i := Nat.mod_eq_of_lt (by omega)
  simp only [place]
  exact (vectorPage_byte (.inl (List.mem_range'_1.mpr (by omega)))).1

theorem vectorPage_place {i j : Nat} (inside : i < 2) (small : j < 8) :
    ptrAdd (ptrAdd 64 (8 * i)) j = 64 + 8 * i + j ∧ 64 + 8 * i + j ∈ List.range' 64 16 := by
  refine ⟨?_, List.mem_range'_1.mpr (by omega)⟩
  simp only [ptrAdd]
  omega

theorem vectorPage_word {i p : Nat} (inside : i < 2)
    (word : WordAt (pageKernel vectorPage).mem (ptrAdd 64 (8 * i)) p) :
    p = if i = 0 then 8 else 0 := by
  obtain ⟨bytes, there, value⟩ := word
  have same : leWord bytes = leWord fun j => vectorPage (64 + 8 * i + j) := by
    refine leWord_congr fun j small => ?_
    obtain ⟨place, member⟩ := vectorPage_place inside small
    have byte := there j small
    rw [place, (vectorPage_byte (.inr member)).2] at byte
    exact (Option.some.inj byte).symm
  rw [← value, same]
  obtain rfl | rfl : i = 0 ∨ i = 1 := by omega
  all_goals decide

/-- A string and a vector of one string, on a page of the program. -/
theorem rawReads_within_page :
    (copyCstrFromUser (pageKernel vectorPage).mem 8 MAX_ARG_LEN).Within
      (Accepts ⟨true, offsetPageTable, fun _ => none⟩ (pageKernel vectorPage)) ∧
    (copyArgv (pageKernel vectorPage).mem 64).Within
      (Accepts ⟨true, offsetPageTable, fun _ => none⟩ (pageKernel vectorPage)) := by
  obtain ⟨string, vector⟩ := rawReads_within ⟨true, offsetPageTable, fun _ => none⟩
    (pageKernel_current vectorPage) rfl
  refine ⟨(string 8 MAX_ARG_LEN).mpr fun _ => vectorPage_string _, (vector 64).mpr fun _ => ?_⟩
  intro i _ _ more
  have inside : i < 2 := by
    by_contra far
    obtain ⟨p, word, nonnull, -⟩ := more 1 (Nat.zero_le _) (by omega)
    exact nonnull (vectorPage_word (by decide) word)
  refine ⟨fun j small => ?_, fun p word nonnull => ?_⟩
  · obtain ⟨place, member⟩ := vectorPage_place inside small
    rw [place]
    exact (vectorPage_byte (.inr member)).1
  · have value := vectorPage_word inside word
    split at value
    case isTrue => exact value ▸ vectorPage_string _
    case isFalse => exact absurd value nonnull

/-- The string "A" on a page of the kernel. -/
def kernelString : PhysMem := kernelPage.writeBytes 33 0 [65, 0]

/-- A process whose page table has that page in its upper half, and no page in its lower
    half. -/
def kernelStringKernel : Kernel :=
  { firstPageKernel with mem := ⟨kernelString, ⟨[], 0, []⟩, 1⟩ }

/-- A page fault, and a string of the kernel that is read as if it were the caller's. -/
theorem rawReads_escape : (copyCstrFromUser kernelStringKernel.mem 0x1000 MAX_ARG_LEN).ending = .fault 0x1000 ∧
    (copyBytesFromUser ⟨true, offsetPageTable, fun _ => none⟩ 0x1000 1 kernelStringKernel =
      .err "syscall: address is not mapped" kernelStringKernel) ∧
    (copyCstrFromUser kernelStringKernel.mem 0xFFFF800000000000 MAX_ARG_LEN).ending = .ok [65] :=
  ⟨by decide +kernel, rfl, by decide +kernel⟩

end FerriOS.System
