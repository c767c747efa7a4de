import FerriOS.Kernel.UserCopies
import FerriOS.Kernel.Lifetimes
import FerriOS.Exec.RoundTrip

/-! # Printing

A program formats its text into a buffer on its stack, and the kernel copies it from there to
the console. The two limits agree. A negative length slips past the limit of the kernel.
-/

namespace FerriOS.System

open FerriOS.Lib FerriOS.Memory FerriOS.Loader

/-! ## The user library -/

def PRINT_FMT_BUF_LEN : Nat := 256

structure StackBuf where
  bytes : List UInt8
  len : Nat

namespace StackBuf

def new : StackBuf := ⟨List.replicate PRINT_FMT_BUF_LEN 0, 0⟩

def asStr (b : StackBuf) : String := toStr (b.bytes.take b.len)

/-- `none` is `fmt::Error`. -/
def writeStr (b : StackBuf) (s : List UInt8) : Option StackBuf :=
  let newLen := b.len + s.length
  if 2 ^ 64 ≤ newLen then none
  else if b.bytes.length < newLen then none
  else some ⟨b.bytes.take b.len ++ s ++ b.bytes.drop newLen, newLen⟩

/-- `write_fmt`, over the pieces that the formatting makes. -/
def writeFmt : List String → StackBuf → Option StackBuf
  | [], b => some b
  | piece :: pieces, b => do
      let b ← b.writeStr (utf8 piece)
      writeFmt pieces b

end StackBuf

/-- `print_fmt` up to its system call, which gets the bytes of the string; `none` is
    `RET_ERROR`. -/
def printFmt (pieces : List String) : Option (StackBuf × String) := do
  let buf ← StackBuf.writeFmt pieces .new
  some (buf, buf.asStr)

/-! ## The kernel -/

/-- `Vec::with_capacity`, of bytes. -/
def vecWithCapacity (len : Nat) : Prog Kernel Unit :=
  if len < 2 ^ 63 then pure () else .crash "capacity overflow"

/-- `copy_bytes_from_user` with the vector that it makes. -/
def copyBytesToVec (cfg : Config) (ptr len : Nat) : Prog Kernel (List UInt8) :=
  if ptr = 0 then .fail "syscall: null pointer"
  else do
    let pageTable ← currentPageTable
    vecWithCapacity len
    (pieces ptr len).foldlM (readPiece cfg pageTable ptr) []

/-- The value of the system call, and the lines that go to the console. -/
def sysPrintStr (cfg : Config) (ptr : Nat) (len : Int) : Prog Kernel (Int × List String) :=
  if 256 < len then pure (SYS_RET_MAX, [])
  else do
    match ← (copyBytesToVec cfg ptr (asUsize len)).attempt with
    | .error e => pure (SYS_RET_MAX, ["print_str copy error: " ++ e])
    | .ok bytes =>
        match String.fromUTF8? ⟨bytes.toArray⟩ with
        | some s => pure (RET_SUCCESS, [s])
        | none => pure (SYS_RET_MAX, [])

variable {cfg : Config} {k : Kernel} {t i ptr : Nat} {p : Process} {root : PhysFrame} {len : Int}
  {b b' : StackBuf}
  {texts : List String} {bytes : List UInt8}

/-! ## The buffer -/

/-- The buffer holds these bytes. -/
structure StackBuf.Holds (b : StackBuf) (bytes : List UInt8) : Prop where
  capacity : b.bytes.length = PRINT_FMT_BUF_LEN
  len : b.len = bytes.length
  taken : b.bytes.take b.len = bytes

theorem StackBuf.Holds.writeStr (holds : b.Holds bytes) (s : List UInt8) :
    (PRINT_FMT_BUF_LEN < (bytes ++ s).length ∧ b.writeStr s = none) ∨
      ∃ b', b.writeStr s = some b' ∧ b'.Holds (bytes ++ s) := by
  have capacity := holds.capacity
  have len := holds.len
  have full : PRINT_FMT_BUF_LEN = 256 := rfl
  unfold StackBuf.writeStr
  dsimp only
  by_cases fits : b.len + s.length ≤ PRINT_FMT_BUF_LEN
  · refine .inr ⟨_, by rw [if_neg (by omega), if_neg (by omega)], ?_, ?_, ?_⟩
    · simp only [List.length_append, List.length_take, List.length_drop]
      omega
    · rw [List.length_append, len]
    · rw [holds.taken, List.take_left' (by rw [List.length_append, len])]
  · refine .inl ⟨by rw [List.length_append]; omega, ?_⟩
    split
    case isTrue => rfl
    case isFalse => exact if_pos (by omega)

theorem StackBuf.Holds.writeFmt (holds : b.Holds bytes) (texts : List String) :
    (PRINT_FMT_BUF_LEN < (bytes ++ texts.flatMap utf8).length ∧ StackBuf.writeFmt texts b = none) ∨
      ∃ b', StackBuf.writeFmt texts b = some b' ∧ b'.Holds (bytes ++ texts.flatMap utf8) := by
  induction texts generalizing b bytes with
  | nil => exact .inr ⟨b, rfl, by simpa using holds⟩
  | cons text texts ih =>
      unfold StackBuf.writeFmt
      rw [List.flatMap_cons, ← List.append_assoc]
      rcases holds.writeStr (utf8 text) with ⟨long, stops⟩ | ⟨b₁, written, holds₁⟩
      · refine .inl ⟨?_, by rw [stops]; rfl⟩
        rw [List.length_append]
        omega
      · rw [written, Option.bind_eq_bind, Option.bind_some]
        exact ih holds₁

theorem StackBuf.new_holds : StackBuf.new.Holds [] := ⟨by simp [StackBuf.new], rfl, rfl⟩

theorem utf8_append (first second : String) :
    utf8 (first ++ second) = utf8 first ++ utf8 second := by
  simp [utf8]

theorem utf8_join (texts : List String) : utf8 (String.join texts) = texts.flatMap utf8 := by
  induction texts with
  | nil => simp [utf8]
  | cons text texts ih => rw [String.join_cons, utf8_append, ih, List.flatMap_cons]

/-! ## The copy -/

theorem asUsize_len (nonneg : 0 ≤ len) (small : len ≤ 256) : asUsize len = len.toNat := by
  unfold asUsize
  omega

theorem asUsize_negative (negative : len < 0) (long : -2 ^ 63 ≤ len) : 2 ^ 63 ≤ asUsize len := by
  unfold asUsize
  omega

theorem copyBytesToVec_safe {n : Nat} (cur : Current k t i p) (table : p.pageTable = some root)
    (lower : ptr + n ≤ 2 ^ 47) :
    (copyBytesToVec cfg ptr n k).Sat False (fun _ k' => k' = k) (fun _ k' => k' = k) := by
  unfold copyBytesToVec
  split
  case isTrue => rfl
  case isFalse =>
    have room : vecWithCapacity n k = .ok () k := by
      rw [vecWithCapacity, if_pos (by omega)]
      rfl
    rw [Prog.bind_ok (currentPageTable_run cur table), Prog.bind_ok room]
    refine Outcome.Sat.foldlM (fun _ _ k' => k' = k) _
      (fun done piece rest bytes k' split same => ?_) rfl
    subst same
    have member : piece ∈ pieces ptr n := by
      rw [split]
      exact List.mem_append_right _ List.mem_cons_self
    obtain ⟨positive, inside, -⟩ := mem_pieces piece.1 piece.2 member
    rw [readPiece]
    refine Outcome.Sat.bind (userPage_safe (by omega)) fun page k' same => ?_
    subst same
    rfl

/-- What a program sees in pages that it can read is copied. -/
theorem copyBytesToVec_copies (cur : Current k t i p) (table : p.pageTable = some root)
    (nonnull : ptr ≠ 0)
    (lower : ptr + bytes.length ≤ 2 ^ 47)
    (readable : ∀ a, ptr ≤ a → a < ptr + bytes.length → Readable k.mem.ram root a)
    (holds : ∀ a, ptr ≤ a → a < ptr + bytes.length → userLoad root k.mem a = bytes[a - ptr]?) :
    copyBytesToVec cfg ptr bytes.length k = .ok bytes k := by
  have room : vecWithCapacity bytes.length k = .ok () k := by
    rw [vecWithCapacity, if_pos (by omega)]
    rfl
  rw [copyBytesToVec, if_neg nonnull, Prog.bind_ok (currentPageTable_run cur table),
    Prog.bind_ok room]
  refine @copyBytesFromUser_loop cfg _ root ptr bytes lower
    (fun a _ low high => holds a low high) bytes.length 0
    (Nat.le_add_left _ _) fun piece member => ?_
  obtain ⟨positive, inside, -⟩ := mem_pieces piece.1 piece.2 member
  exact readable _ (by omega) (by omega)

theorem fromUTF8_utf8 (text : String) : String.fromUTF8? ⟨(utf8 text).toArray⟩ = some text := by
  have bytes : (⟨(utf8 text).toArray⟩ : ByteArray) = text.toByteArray := by
    rw [utf8, Array.toArray_toList]
  rw [String.fromUTF8?, bytes, dif_pos text.isValidUTF8]
  rfl

theorem length_utf8 (text : String) : (utf8 text).length = text.utf8ByteSize := by
  simp [utf8]

theorem printFmt_cases (texts : List String) :
    (PRINT_FMT_BUF_LEN < (String.join texts).utf8ByteSize ∧ printFmt texts = none) ∨
      ∃ buf, printFmt texts = some (buf, String.join texts) ∧
        buf.Holds (utf8 (String.join texts)) := by
  have cases' := StackBuf.new_holds.writeFmt texts
  rw [List.nil_append, ← utf8_join, length_utf8] at cases'
  unfold printFmt
  rcases cases' with ⟨long, stops⟩ | ⟨buf, written, holds⟩
  · exact .inl ⟨long, by rw [stops]; rfl⟩
  · refine .inr ⟨buf, ?_, holds⟩
    rw [written, Option.bind_eq_bind, Option.bind_some, StackBuf.asStr, holds.taken, toStr_utf8]

/-- What a program formats is printed as a whole, or nothing is: exactly the texts that do not
    fit into the buffer never get to the kernel, and the kernel refuses none of the others. -/
theorem printFmt_prints (cur : Current k t i p) (table : p.pageTable = some root)
    (nonnull : ptr ≠ 0)
    (lower : ptr + PRINT_FMT_BUF_LEN ≤ 2 ^ 47)
    (readable : ∀ a, ptr ≤ a → a < ptr + PRINT_FMT_BUF_LEN → Readable k.mem.ram root a)
    (holds : ∀ buf text, printFmt texts = some (buf, text) → ∀ n < buf.len,
    userLoad root k.mem (ptr + n) = buf.bytes[n]?) :
    ((String.join texts).utf8ByteSize ≤ PRINT_FMT_BUF_LEN ∧ ∃ buf,
    printFmt texts = some (buf, String.join texts) ∧
        sysPrintStr cfg ptr buf.len k = .ok (RET_SUCCESS, [String.join texts]) k) ∨
      (PRINT_FMT_BUF_LEN < (String.join texts).utf8ByteSize ∧ printFmt texts = none) := by
  have full : PRINT_FMT_BUF_LEN = 256 := rfl
  rcases printFmt_cases texts with long | ⟨buf, formatted, held⟩
  · exact .inr long
  have capacity := held.capacity
  have len := held.len
  have size := congrArg List.length held.taken
  rw [List.length_take] at size
  have fits : (utf8 (String.join texts)).length ≤ 256 := by omega
  refine .inl ⟨by rw [← length_utf8]; omega, buf, formatted, ?_⟩
  have copied : copyBytesToVec cfg ptr
    (utf8 (String.join texts)).length k = .ok (utf8 (String.join texts)) k := by
    apply copyBytesToVec_copies cur table nonnull (by omega)
    · intro a low high
      exact readable a low (by omega)
    · intro a low high
      have byte := holds buf _ formatted (a - ptr) (by omega)
      have shown : (buf.bytes.take buf.len)[a - ptr]? = buf.bytes[a - ptr]? :=
        List.getElem?_take_of_lt (by omega)
      rw [held.taken] at shown
      rw [shown, ← byte]
      congr 1
      omega
  have request : asUsize (buf.len : Int) = (utf8 (String.join texts)).length := by
    rw [asUsize_len (by omega) (by omega), Int.toNat_natCast, len]
  rw [sysPrintStr, if_neg (by omega), request, Prog.bind_run, Prog.attempt, copied]
  simp only [fromUTF8_utf8]
  rfl

def greeting : List String := ["pid ", "7"]

/-- A page with that text at address 8. -/
def greetingPage (a : Nat) : UInt8 := ((utf8 (String.join greeting))[a - 8]?).getD 0

/-- Two pieces of one line, in a buffer on the first page. -/
theorem printFmt_prints_greeting : ∃ buf, printFmt greeting = some (buf, String.join greeting) ∧
    sysPrintStr ⟨true, offsetPageTable, fun _ => none⟩ 8 buf.len (pageKernel greetingPage) =
      .ok (RET_SUCCESS, [String.join greeting]) (pageKernel greetingPage) := by
  have length : (utf8 (String.join greeting)).length = 5 := by decide +kernel
  have onPage : ∀ buf text, printFmt greeting = some (buf, text) → ∀ n < buf.len,
      userLoad 1 (pageKernel greetingPage).mem (8 + n) = buf.bytes[n]? := by
    intro buf text formatted n inside
    obtain ⟨long, -⟩ | ⟨buf', formatted', held⟩ := printFmt_cases greeting
    · rw [← length_utf8, length] at long
      exact absurd long (by decide)
    · rw [formatted'] at formatted
      obtain ⟨rfl, -⟩ := Prod.mk.inj (Option.some.inj formatted)
      have len := held.len
      rw [length] at len
      have byte : (buf'.bytes.take buf'.len)[n]? = buf'.bytes[n]? := List.getElem?_take_of_lt inside
      rw [held.taken] at byte
      rw [pageKernel_load (by rw [PAGE_SIZE]; omega), greetingPage, Nat.add_sub_cancel_left, ← byte,
        List.getElem?_eq_getElem (by omega), Option.getD_some]
  obtain ⟨-, fits⟩ | ⟨long, -⟩ := @printFmt_prints ⟨true, offsetPageTable, fun _ => none⟩
    (pageKernel greetingPage) 0 0 8 _ 1 greeting (pageKernel_current _) rfl (by decide) (by decide)
    (fun a _ high => pageHolding_readable (high.trans (by decide))) onPage
  · exact fits
  · rw [← length_utf8, length] at long
    exact absurd long (by decide)

/-- In every state of every run, a program that prints stops the kernel exactly if its pointer
    is not null and its length is negative. -/
theorem sysPrintStr_panics_iff {cfg : Config} {m : Machine} {t ptr rsp : Nat} {len : Int}
    {regs : TrapFrame}
    (lower : cfg.LowerHalf)
    (lives : Lives cfg m) (pc : m.pc = .user t) (long : -2 ^ 63 ≤ len)
    (range : ptr + 256 ≤ 2 ^ 47) :
    (∃ message, sysPrintStr cfg ptr len (m.calling t rsp regs).kernel = .panic message) ↔ ptr ≠ 0 ∧
    len < 0 := by
  have user := (lives.inv lower).user pc
  obtain ⟨i, p, serves⟩ := user.serves
  have calling := user.serves_calling rsp regs serves
  generalize (m.calling t rsp regs) = m' at calling
  unfold sysPrintStr
  constructor
  · rintro ⟨message, panics⟩
    by_contra fine
    split at panics
    case isTrue => cases panics
    case isFalse short =>
      rcases Decidable.em (ptr = 0) with null | nonnull
      · subst null
        cases panics
      · have nonneg : 0 ≤ len := by
          by_contra negative
          exact fine ⟨nonnull, by omega⟩
        have safe : (copyBytesToVec cfg ptr (asUsize len) m'.kernel).Sat False
          (fun _ k' => k' = m'.kernel)
          (fun _ k' => k' = m'.kernel) := by
          rw [asUsize_len nonneg (by omega)]
          exact copyBytesToVec_safe calling.toCurrent calling.table (by omega)
        rw [Prog.bind_run, Prog.attempt] at panics
        revert safe panics
        cases copyBytesToVec cfg ptr (asUsize len) m'.kernel with
        | panic message => exact fun _ impossible => impossible.elim
        | err message k' =>
            intro panics
            cases panics
        | ok bytes k' =>
            simp only
            cases String.fromUTF8? ⟨bytes.toArray⟩ with
            | none =>
                intro panics
                cases panics
            | some s =>
                intro panics
                cases panics
  · rintro ⟨nonnull, negative⟩
    have overflows : vecWithCapacity (asUsize len) m'.kernel = .panic "capacity overflow" := by
      rw [vecWithCapacity, if_neg (not_lt.mpr (asUsize_negative negative long))]
      rfl
    refine ⟨"capacity overflow", ?_⟩
    rw [if_neg (by omega), Prog.bind_run, Prog.attempt, copyBytesToVec, if_neg nonnull,
      Prog.bind_ok (currentPageTable_run calling.toCurrent calling.table), Prog.bind_run, overflows]

/-- The first process asks for a length of -1. -/
theorem sysPrintStr_panics_running : ∃ m message, Shows bareConfig m .running ∧
    sysPrintStr bareConfig 1 (-1) (m.calling 0 0 .new).kernel = .panic message := by
  obtain ⟨m, shown⟩ := running_reached
  obtain ⟨message, panics⟩ := (@sysPrintStr_panics_iff bareConfig m 0 1 0
    (-1) .new bareConfig_lower shown.reached.lives shown.pc
    (by decide) (by decide)).mpr (by decide)
  exact ⟨m, message, shown, panics⟩

end FerriOS.System
