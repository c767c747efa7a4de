import FerriOS.Kernel.UserAccess
import FerriOS.Exec.Contents
import FerriOS.Memory.Leaves
import FerriOS.Memory.Releasing

/-! # Copying in and out

What the kernel copies to a user address it copies back from there, whatever frames
the pages of the range lie in. The pages only have to be different frames, and none a
table of the page table they are reached through.
-/

namespace FerriOS.System

open FerriOS.Lib FerriOS.Memory FerriOS.Loader

variable {cfg : Config} {k k' : Kernel} {root : PhysFrame} {ptr len : Nat} {ram : PhysMem}

theorem currentPageTable_run {t i : Nat} {p : Process} (cur : Current k t i p)
    (table : p.pageTable = some root) :
    currentPageTable k = .ok root k := by
  rw [currentPageTable, Prog.bind_ok cur.currentProcess_run]
  simp only [Prog.okOr_some, Prog.pure_bind, table, Prog.pure_run]

/-- The checks of a page succeed when its flags are all there. -/
theorem checks_ok {flags : PageTableFlags} {checks : List (PageTableFlags × String)} :
    Prog.each checks (fun check =>
      if flags.contains check.1 then pure () else .fail check.2) k = .ok () k' ↔
      k' = k ∧ ∀ check ∈ checks, flags.contains check.1 = true := by
  induction checks with
  | nil =>
      rw [Prog.each, Prog.pure_run]
      constructor
      · intro same
        exact ⟨(Outcome.ok.inj same).2.symm, by simp⟩
      · rintro ⟨same, -⟩
        rw [same]
  | cons check checks ih =>
      rw [Prog.each, List.forall_mem_cons]
      by_cases here : flags.contains check.1 = true
      · rw [if_pos here, Prog.pure_bind, ih]
        simp only [here, true_and]
      · rw [if_neg here, Prog.fail_bind]
        simp [here]

/-- The page of a user address is the one in its leaf, when the leaf has the flags. -/
theorem userPage_ok {copied : Nat} {checks : List (PageTableFlags × String)} {r : PhysFrame × Nat}
    {message : String}
    (lower : ptr + copied < 2 ^ 47) (checked : (.PRESENT, message) ∈ checks) :
    userPage cfg root ptr copied checks k = .ok r k' ↔
      k' = k ∧ (∀ check ∈ checks,
        (leafEntry k.mem.ram root (ptr + copied)).flags.contains check.1 = true) ∧
        r = ((leafEntry k.mem.ram root (ptr + copied)).addr, pageOffset (ptr + copied)) := by
  have sum : usizeAdd cfg ptr copied k = .ok (ptr + copied) k := by
    rw [usizeAdd, if_pos (lower.trans (by decide))]
    rfl
  rw [userPage, Prog.bind_ok sum, virtAddr, VirtAddr.new_lower lower, Prog.expect_some,
    Prog.pure_bind,
    Prog.bind_ok (onMem_ok (walkPagetable_lookup root (ptr + copied) k.mem)), leafEntry]
  cases lookup k.mem.ram root (ptr + copied) with
  | none =>
      constructor
      · intro run
        cases run
      · rintro ⟨-, flags, -⟩
        have present : PageTableEntry.unused.flags.contains .PRESENT = true := flags _ checked
        exact absurd present (by decide)
  | some slot =>
      simp only [Prog.get_bind, Option.elim_some]
      rw [Prog.bind_eq_ok]
      constructor
      · rintro ⟨_, k₁, run, last⟩
        obtain ⟨rfl, flags⟩ := checks_ok.mp run
        obtain ⟨rfl, rfl⟩ := Outcome.ok.inj last
        exact ⟨rfl, flags, rfl⟩
      · rintro ⟨rfl, flags, rfl⟩
        exact ⟨(), k', checks_ok.mpr ⟨rfl, flags⟩, rfl⟩

/-- A page of the lower half is found, or the copy fails. -/
theorem userPage_safe {copied : Nat} {checks : List (PageTableFlags × String)}
    (lower : ptr + copied < 2 ^ 47) :
    (userPage cfg root ptr copied checks k).Sat False (fun _ k' => k' = k)
    (fun _ k' => k' = k) := by
  have sum : usizeAdd cfg ptr copied k = .ok (ptr + copied) k := by
    rw [usizeAdd, if_pos (lower.trans (by decide))]
    rfl
  rw [userPage, Prog.bind_ok sum, virtAddr, VirtAddr.new_lower lower, Prog.expect_some,
    Prog.pure_bind,
    Prog.bind_ok (onMem_ok (walkPagetable_lookup root (ptr + copied) k.mem))]
  cases lookup k.mem.ram root (ptr + copied) with
  | none => rfl
  | some slot =>
      simp only [Prog.get_bind]
      refine Outcome.Sat.bind (Q := fun _ k' => k' = k) ?_ fun _ _ same => same
      refine Outcome.Sat.each_keep (fun k' => k' = k) _ (fun check _ k' same => ?_) rfl
      split
      · exact same
      · exact same

/-- The pages of a range can be read: their leaves are present and for user mode. -/
def Readable (ram : PhysMem) (root : PhysFrame) (va : Nat) : Prop :=
  (leafEntry ram root va).flags.contains .PRESENT = true ∧
    (leafEntry ram root va).flags.contains .USER_ACCESSIBLE = true

theorem Readable.page {va : Nat} (readable : Readable ram root va) :
    pageOf ram root va = some (leafEntry ram root va).addr := by
  rw [pageOf_leafEntry]
  exact PageTableEntry.child_eq_some.mpr ⟨readable.1, rfl⟩

theorem piecesFrom_succ {start fuel done : Nat} (more : done < len) :
    ∃ size, 0 < size ∧ done + size ≤ len ∧ (start + done) % PAGE_SIZE + size ≤ PAGE_SIZE ∧
      piecesFrom start len (fuel + 1) done = (done, size) :: piecesFrom start len fuel
        (done + size) := by
  refine ⟨min (PAGE_SIZE - (start + done) % PAGE_SIZE) (len - done), ?_, ?_, ?_, ?_⟩
  · simp only [PAGE_SIZE]
    omega
  · omega
  · simp only [PAGE_SIZE]
    omega
  · rw [piecesFrom, if_pos more]

theorem piecesFrom_done {start fuel done : Nat} (all : len ≤ done) :
    piecesFrom start len fuel done = [] := by
  cases fuel with
  | zero => rfl
  | succ fuel => rw [piecesFrom, if_neg (not_lt.mpr all)]

/-- What the pieces of a copy from `done` on leave behind. -/
structure CopiedOut (root : PhysFrame) (ptr : Nat) (bytes : List UInt8) (done : Nat)
    (pieces : List (Nat × Nat))
    (k k' : Kernel) : Prop where
  rest : ∃ mem, k' = k.setMem mem
  tables : ∀ f ∈ treeTables k.mem.ram 4 root, k'.mem.ram f = k.mem.ram f
  readable : ∀ piece ∈ pieces, piece.1 < bytes.length ∧ Readable k.mem.ram root (ptr + piece.1)
  view : ∀ a < 2 ^ 47, userLoad root k'.mem a =
    if ptr + done ≤ a ∧ a < ptr + bytes.length then bytes[a - ptr]? else userLoad root k.mem a

/-- The loop of `copy_to_user`. -/
theorem copyToUser_loop {bytes : List UInt8} (lower : ptr + bytes.length ≤ 2 ^ 47) (fuel : Nat) :
    ∀ {done : Nat} {k : Kernel}, bytes.length ≤ done + fuel → LeavesApart k.mem.ram root →
      Prog.each (piecesFrom ptr bytes.length fuel done) (fun piece => do
        let page ← userPage cfg root ptr piece.1
          [(.PRESENT, "syscall: address is not present"),
           (.USER_ACCESSIBLE, "syscall: address is not user-accessible"),
           (.WRITABLE, "syscall: address is not writable")]
        onMem (writeRam (·.writeBytes page.1 page.2
          ((bytes.drop piece.1).take piece.2)))) k = .ok () k' →
      CopiedOut root ptr bytes done (piecesFrom ptr bytes.length fuel done) k k' := by
  induction fuel with
  | zero =>
      intro done k enough _ run
      obtain ⟨-, rfl⟩ := Outcome.ok.inj run
      refine ⟨⟨k.mem, rfl⟩, fun _ _ => rfl, fun piece member => absurd member List.not_mem_nil,
        fun a _ => ?_⟩
      rw [if_neg (by omega)]
  | succ fuel ih =>
      intro done k enough apart run
      by_cases more : done < bytes.length
      · obtain ⟨size, positive, inside, fits, split⟩ :=
          @piecesFrom_succ bytes.length ptr fuel done more
        rw [split, Prog.each] at run
        obtain ⟨_, k₁, first, rest⟩ := Prog.bind_eq_ok.mp run
        obtain ⟨page, k₂, found, stored⟩ := Prog.bind_eq_ok.mp first
        obtain ⟨rfl, flags, rfl⟩ := (userPage_ok (by omega) List.mem_cons_self).mp found
        obtain ⟨-, rfl⟩ := Outcome.ok.inj stored
        have readable : Readable k₂.mem.ram root (ptr + done) :=
          ⟨flags (.PRESENT, _) List.mem_cons_self,
            flags (.USER_ACCESSIBLE, _) (List.mem_cons_of_mem _ List.mem_cons_self)⟩
        have length : ((bytes.drop done).take size).length = size := by
          rw [List.length_take, List.length_drop]
          omega
        have kept : ∀ f ∈ treeTables k₂.mem.ram 4 root,
          k₂.mem.ram.writeBytes (leafEntry k₂.mem.ram root (ptr + done)).addr
            (pageOffset (ptr + done)) ((bytes.drop done).take size) f = k₂.mem.ram f :=
          apart.tables_kept (by omega) readable.page
        obtain ⟨⟨mem, whole⟩, tables, later, view⟩ := ih (by omega) (apart.congr kept) rest
        have same : treeTables (k₂.mem.ram.writeBytes (leafEntry k₂.mem.ram root (ptr + done)).addr
            (pageOffset (ptr + done))
              ((bytes.drop done).take size)) 4 root = treeTables k₂.mem.ram 4 root :=
          Radix.tables_congr 4 root fun f member => PhysMem.child_congr (kept f member)
        rw [split]
        refine ⟨⟨mem, whole⟩, fun f member => ?_, ?_, fun a lowerA => ?_⟩
        · have there := Multiset.mem_of_le same.ge member
          exact (tables f there).trans (kept f member)
        · refine List.forall_mem_cons.mpr ⟨⟨more, readable⟩, fun piece member => ?_⟩
          obtain ⟨bound, there⟩ := later piece member
          have leaf : leafEntry _ root (ptr + piece.1) = _ := leafEntry_congr (by omega) kept
          refine ⟨bound, ?_⟩
          rw [Readable, ← leaf]
          exact there
        · have here := apart.store_view (s := k₂.mem) (by omega) readable.page
            (by rwa [length]) lowerA
          rw [view a lowerA]
          refine (congrArg _ here).trans ?_
          rw [length, stored_piece inside]
      · rw [piecesFrom_done (by omega)] at run ⊢
        obtain ⟨-, rfl⟩ := Outcome.ok.inj run
        refine ⟨⟨k.mem, rfl⟩, fun _ _ => rfl, fun piece member => absurd member List.not_mem_nil,
          fun a _ => ?_⟩
        rw [if_neg (by omega)]

theorem Readable.load {s : MemState} {va i : Nat} (readable : Readable s.ram root va)
    (fits : va % PAGE_SIZE + i < PAGE_SIZE) :
    userLoad root s (va + i) = some (s.ram (leafEntry s.ram root va).addr (pageOffset va + i)) := by
  have page : (va + i) / PAGE_SIZE = va / PAGE_SIZE := by
    simp only [PAGE_SIZE] at fits ⊢
    omega
  have offset : pageOffset (va + i) = pageOffset va + i := by
    simp only [pageOffset, PAGE_SIZE] at fits ⊢
    omega
  rw [userLoad, pageOf, pageIndices_congr page, ← pageOf, readable.page, Option.map_some, offset]

/-- The loop of `copy_bytes_from_user`, where the memory of the program holds the bytes. -/
theorem copyBytesFromUser_loop {bytes : List UInt8} (lower : ptr + bytes.length ≤ 2 ^ 47)
    (holds : ∀ a < 2 ^ 47, ptr ≤ a → a < ptr + bytes.length →
    userLoad root k.mem a = bytes[a - ptr]?) (fuel : Nat) :
    ∀ {done : Nat}, bytes.length ≤ done + fuel →
      (∀ piece ∈ piecesFrom ptr bytes.length fuel done, Readable k.mem.ram root (ptr + piece.1)) →
      (piecesFrom ptr bytes.length fuel done).foldlM (readPiece cfg root ptr) (bytes.take done) k =
      .ok bytes k := by
  induction fuel with
  | zero =>
      intro done enough _
      rw [piecesFrom, List.foldlM_nil, Prog.pure_run, List.take_of_length_le (by omega)]
  | succ fuel ih =>
      intro done enough readable
      by_cases more : done < bytes.length
      · obtain ⟨size, positive, inside, fits, split⟩ :=
          @piecesFrom_succ bytes.length ptr fuel done more
        rw [split] at readable
        obtain ⟨(here : Readable k.mem.ram root (ptr + done)), later⟩ :=
          List.forall_mem_cons.mp readable
        have found : userPage cfg root ptr done
            [(.PRESENT, "syscall: address is not present"),
             (.USER_ACCESSIBLE, "syscall: address is not user-accessible")] k = .ok _ k :=
          (userPage_ok (by omega) List.mem_cons_self).mpr
            ⟨rfl, by simpa using (show _ ∧ _ from here), rfl⟩
        have piece : ((List.range size).map fun i =>
            k.mem.ram (leafEntry k.mem.ram root (ptr + done)).addr (pageOffset (ptr + done) + i)) =
              (bytes.drop done).take size := by
          refine List.ext_getElem ?_ fun i first second => ?_
          · rw [List.length_map, List.length_range, List.length_take, List.length_drop]
            omega
          · have small : i < size := by rwa [List.length_map, List.length_range] at first
            have byte := here.load (s := k.mem) (i := i) (by omega)
            rw [holds (ptr + done + i) (by omega) (by omega) (by omega),
              List.getElem?_eq_getElem (by omega)] at byte
            rw [List.getElem_map, List.getElem_range, List.getElem_take, List.getElem_drop,
              ← Option.some.inj byte]
            congr 1
            omega
        have read : readPiece cfg root ptr (bytes.take done)
          (done, size) k = .ok (bytes.take (done + size)) k := by
          rw [readPiece, Prog.bind_ok found]
          simp only [Prog.get_bind, Prog.pure_run, piece, List.take_add]
        rw [split, List.foldlM_cons, Prog.bind_ok read]
        exact ih (by omega) later
      · rw [piecesFrom_done (by omega), List.foldlM_nil, Prog.pure_run,
          List.take_of_length_le (by omega)]

/-- What was copied to a user address is copied back from there, and no other byte of
    the program has changed. -/
theorem copyToUser_inverts (cfg : Config) {k k' : Kernel} {t i : Nat} {p : Process}
    {root : PhysFrame} {ptr : Nat}
    {bytes : List UInt8} (cur : Current k t i p) (table : p.pageTable = some root)
    (apart : LeavesApart k.mem.ram root)
    (nonnull : ptr ≠ 0) (lower : ptr + bytes.length ≤ 2 ^ 47)
    (copied : copyToUser cfg ptr bytes k = .ok () k') :
    copyBytesFromUser cfg ptr bytes.length k' = .ok bytes k' ∧
      ∀ a < 2 ^ 47, ¬ (ptr ≤ a ∧ a < ptr + bytes.length) →
        userLoad root k'.mem a = userLoad root k.mem a := by
  have out : CopiedOut root ptr bytes 0 (pieces ptr bytes.length) k k' := by
    by_cases empty : bytes = []
    · subst empty
      obtain ⟨-, rfl⟩ := Outcome.ok.inj copied
      refine ⟨⟨k.mem, rfl⟩, fun _ _ => rfl, fun piece member => absurd member List.not_mem_nil,
        fun a _ => ?_⟩
      rw [if_neg (by rw [List.length_nil]; omega)]
    · rw [copyToUser, if_neg empty, if_neg nonnull,
        Prog.bind_ok (currentPageTable_run cur table)] at copied
      exact copyToUser_loop lower bytes.length (Nat.le_add_left _ _) apart copied
  obtain ⟨⟨mem, rfl⟩, tables, readable, view⟩ := out
  refine ⟨?_, fun a lowerA outside => by rw [view a lowerA, if_neg (by simpa using outside)]⟩
  have cur' : Current (k.setMem mem) t i p := ⟨cur.tid, cur.bound, cur.pid, cur.inside, cur.entry⟩
  rw [copyBytesFromUser, if_neg nonnull, Prog.bind_ok (currentPageTable_run cur' table)]
  refine @copyBytesFromUser_loop cfg _ root ptr bytes lower
    (fun a lowerA low high => ?_) bytes.length 0
    (Nat.le_add_left _ _) fun piece member => ?_
  · rw [view a lowerA, if_pos ⟨low, high⟩]
  · obtain ⟨bound, there⟩ := readable piece member
    have leaf : leafEntry (k.setMem mem).mem.ram root (ptr + piece.1) = leafEntry k.mem.ram root
      (ptr + piece.1) :=
      leafEntry_congr (by omega) tables
    rw [Readable, leaf]
    exact there

/-- The tables in the frames 1 to 4 map the first page to frame 5. -/
def firstPage : PhysMem := fun f off =>
  if f.toNat = 0 ∨ 4 < f.toNat then 0
  else if off = 0 then 7
  else if off = 1 then UInt8.ofNat (16 * (f.toNat + 1))
  else 0

theorem firstPage_entry (f : PhysFrame) (i : Nat) :
    firstPage.entry f i = if (0 < f.toNat ∧ f.toNat ≤ 4) ∧ i = 0 then ⟨f + 1, tableFlags⟩ else .unused := by
  split
  case isTrue here =>
    obtain ⟨⟨positive, small⟩, rfl⟩ := here
    obtain rfl | rfl | rfl | rfl : f = 1 ∨ f = 2 ∨ f = 3 ∨ f = 4 := by bv_omega
    all_goals decide
  case isFalse other =>
    have zero : leWord (fun k => firstPage f (8 * i + k)) = leWord fun _ => 0 := by
      refine leWord_congr fun k small => ?_
      by_cases outside : f.toNat = 0 ∨ 4 < f.toNat
      · exact if_pos outside
      · rw [firstPage, if_neg outside, if_neg (by omega), if_neg (by omega)]
    rw [PhysMem.entry, zero]
    decide

/-- Every path follows the first slots. -/
theorem firstPage_path {d e : Nat} {t x : PhysFrame} {is : List Nat}
    (p : TreePath firstPage d t is e x)
    (place : t.toNat + d = 5) : is = List.replicate is.length 0 ∧ x.toNat + e = 5 := by
  induction p with
  | nil => exact ⟨rfl, place⟩
  | @cons i d t c is e x _ link _ ih =>
      rw [PhysMem.child, firstPage_entry] at link
      split at link
      case isTrue here =>
        obtain ⟨⟨-, small⟩, rfl⟩ := here
        obtain ⟨-, rfl⟩ := PageTableEntry.child_eq_some.mp link
        obtain ⟨zeros, last⟩ := ih (by bv_omega)
        exact ⟨by rw [List.length_cons, List.replicate_succ, ← zeros], last⟩
      case isFalse => cases link

/-- A kernel whose current process has that page. -/
def firstPageKernel : Kernel where
  mem := ⟨firstPage, ⟨[], 0, []⟩, 1⟩
  kernelPageTableFrame := 1
  processTable _ := some { Process.new with pageTable := some 1 }
  threadTable _ := { Thread.new with pid := some 0 }
  cpu := ⟨.new, some 0, 0, 0⟩
  privilegeStack0 := 0
  trapFrames _ := .new
  kernelStacks := []

theorem firstPage_leaf {a : Nat} (inside : a < PAGE_SIZE) :
    leafEntry firstPage 1 a = ⟨5, tableFlags⟩ := by
  have page : a / PAGE_SIZE = 8 / PAGE_SIZE := by
    simp only [PAGE_SIZE] at inside ⊢
    omega
  have first : leafEntry firstPage 1 8 = ⟨5, tableFlags⟩ := by decide
  rw [← first]
  exact leafEntry_page page

/-- The page of that kernel holds the bytes. -/
def pageHolding (bytes : Nat → UInt8) : PhysMem := fun f => if f = 5 then bytes else firstPage f

def pageKernel (bytes : Nat → UInt8) : Kernel :=
  { firstPageKernel with mem := ⟨pageHolding bytes, ⟨[], 0, []⟩, 1⟩ }

theorem pageKernel_current (bytes : Nat → UInt8) :
    Current (pageKernel bytes) 0 0 { Process.new with pageTable := some 1 } :=
  ⟨rfl, by decide, rfl, by decide, rfl⟩

theorem pageHolding_table {bytes : Nat → UInt8} (f : PhysFrame)
    (member : f ∈ treeTables firstPage 4 1) :
    pageHolding bytes f = firstPage f := by
  obtain ⟨is, e, path⟩ := Radix.mem_tables.mp member
  have place := (firstPage_path path rfl).2
  refine if_neg ?_
  rintro rfl
  have table : (5 : PhysFrame).toNat = 5 := rfl
  omega

theorem pageHolding_leaf {bytes : Nat → UInt8} {a : Nat} (inside : a < PAGE_SIZE) :
    leafEntry (pageHolding bytes) 1 a = ⟨5, tableFlags⟩ := by
  rw [leafEntry_congr (inside.trans (by decide)) pageHolding_table, firstPage_leaf inside]

theorem pageHolding_readable {bytes : Nat → UInt8} {a : Nat} (inside : a < PAGE_SIZE) :
    Readable (pageHolding bytes) 1 a := by
  rw [Readable, pageHolding_leaf inside]
  decide

theorem pageKernel_load {bytes : Nat → UInt8} {a : Nat} (inside : a < PAGE_SIZE) :
    userLoad 1 (pageKernel bytes).mem a = some (bytes a) := by
  have page : pageOf (pageHolding bytes) 1 a = some 5 := by
    rw [pageOf_leafEntry, pageHolding_leaf inside]
    decide
  have offset : pageOffset a = a := Nat.mod_eq_of_lt inside
  rw [userLoad]
  refine (congrArg _ page).trans ?_
  rw [Option.map_some, offset]
  rfl

def twoPagesKernel : Kernel := { firstPageKernel with mem := ⟨twoPages, ⟨[], 0, []⟩, 1⟩ }

theorem twoPages_apart : LeavesApart twoPages 1 := by
  have distinct : (owned 4 1 0 twoPagesKernel.mem).Nodup := by
    have none : twoPagesKernel.mem.available = 0 := rfl
    rw [owned, none, add_zero]
    exact (congrArg Multiset.Nodup (add_zero (userFrames twoPages 1))).mpr twoPages_distinct
  exact leavesApart distinct

/-- Two bytes that go into two pages and back. -/
theorem copyToUser_twoPages : ∃ k',
    copyToUser ⟨true, offsetPageTable, fun _ => none⟩ 4095 [65, 66] twoPagesKernel = .ok () k' ∧
    copyBytesFromUser ⟨true, offsetPageTable, fun _ => none⟩ 4095 2 k' = .ok [65, 66] k' := by
  have current : Current twoPagesKernel 0 0 { Process.new with pageTable := some 1 } :=
    ⟨rfl, by decide, rfl, by decide, rfl⟩
  have piece : ∀ {k : Kernel} {copied : Nat} {page : PhysFrame}, copied < 2 →
      leafEntry k.mem.ram 1 (4095 + copied) = ⟨page, tableFlags⟩ →
      (do
        let page ← userPage ⟨true, offsetPageTable, fun _ => none⟩ 1 4095 copied
          [(.PRESENT, "syscall: address is not present"),
           (.USER_ACCESSIBLE, "syscall: address is not user-accessible"),
           (.WRITABLE, "syscall: address is not writable")]
        onMem (writeRam (·.writeBytes page.1 page.2
          ((([65, 66] : List UInt8).drop copied).take 1)))) k =
        .ok () (k.setMem { k.mem with
          ram := k.mem.ram.writeBytes page (pageOffset (4095 + copied))
            ((([65, 66] : List UInt8).drop copied).take 1) }) := by
    intro k copied page small leaf
    have lower : 4095 + copied < 2 ^ 47 := by omega
    refine Prog.bind_ok ((userPage_ok lower List.mem_cons_self).mpr ⟨rfl, ?_, by rw [leaf]⟩)
    simp only [leaf]
    decide
  have first : leafEntry twoPages 1 4095 = ⟨5, tableFlags⟩ := by decide
  have second : leafEntry twoPages 1 4096 = ⟨6, tableFlags⟩ := by decide
  -- the first byte leaves the tables as they are
  have page : pageOf twoPages 1 4095 = some 5 := by
    rw [pageOf_leafEntry, first]
    decide
  have kept := leafEntry_congr (by decide : 4095 + 1 < 2 ^ 47)
    (twoPages_apart.tables_kept (by decide) page : ∀ f ∈ treeTables twoPages 4 1,
      twoPages.writeBytes 5 (pageOffset (4095 + 0)) ((([65, 66] : List UInt8).drop 0).take 1) f =
        twoPages f)
  have copied : ∃ k', copyToUser ⟨true, offsetPageTable, fun _ => none⟩ 4095 [65, 66]
      twoPagesKernel = .ok () k' := by
    have split : pieces 4095 2 = [(0, 1), (1, 1)] := by decide
    have length : ([65, 66] : List UInt8).length = 2 := rfl
    have one := @piece twoPagesKernel 0 5 (by decide) first
    have two := @piece (twoPagesKernel.setMem { twoPagesKernel.mem with
      ram := twoPages.writeBytes 5 (pageOffset (4095 + 0))
        ((([65, 66] : List UInt8).drop 0).take 1) }) 1 6 (by decide) (kept.trans second)
    rw [copyToUser, if_neg (by decide), if_neg (by decide),
      Prog.bind_ok (currentPageTable_run current rfl), length, split, Prog.each, Prog.each,
      Prog.each]
    exact ⟨_, (Prog.bind_ok one).trans (Prog.bind_ok two)⟩
  obtain ⟨k', run⟩ := copied
  exact ⟨k', run, (copyToUser_inverts _ current rfl twoPages_apart (by decide)
    (by decide) run).1⟩

end FerriOS.System
