import FerriOS.Memory.Walk

/-! # What a program sees of its memory

Loads and stores of a program, through the tree of its page table. A store writes a
page of the tree, so a program changes nothing that another address space reads,
where the two have no frame in common.
-/

namespace FerriOS.Memory

open FerriOS.Lib

variable {P : SlotLaw} {root : PhysFrame} {s s' : MemState} {ram ram' : PhysMem} {is : List Nat}
  {d va : Nat} {t x : PhysFrame}

/-- The table or page that the slots `is` lead to. -/
def follow (ram : PhysMem) : PhysFrame → List Nat → Option PhysFrame
  | t, [] => some t
  | t, i :: is => (ram.child t i).bind fun c => follow ram c is

/-- The flags of the slots `is`, down to the first that is not present. -/
def flagsAlong (ram : PhysMem) : PhysFrame → List Nat → List PageTableFlags
  | _, [] => []
  | t, i :: is =>
      if (ram.entry t i).present then (ram.entry t i).flags :: flagsAlong ram
        (ram.entry t i).addr is else []

/-- The page of a user address. -/
def pageOf (ram : PhysMem) (root : PhysFrame) (va : Nat) : Option PhysFrame :=
  follow ram root (pageIndices va)

/-- The flags at each level of a user address, as far as it is mapped. -/
def flagsOf (ram : PhysMem) (root : PhysFrame) (va : Nat) : List PageTableFlags :=
  flagsAlong ram root (pageIndices va)

/-- The byte that a program reads at an address. -/
def userLoad (root : PhysFrame) (s : MemState) (va : Nat) : Option UInt8 :=
  (pageOf s.ram root va).map fun page => s.ram page (pageOffset va)

/-- A program writes a byte. Where the address is not mapped, nothing happens. -/
def userStore (root : PhysFrame) (s : MemState) (write : Nat × UInt8) : MemState :=
  match pageOf s.ram root write.1 with
  | none => s
  | some page => s.setRam (s.ram.writeBytes page (pageOffset write.1) [write.2])

def userStores (root : PhysFrame) (writes : List (Nat × UInt8)) (s : MemState) : MemState :=
  writes.foldl (userStore root) s

/-- The slots `is` are slots of the user half when they start at height `d`. -/
def FitsFrom : Nat → List Nat → Prop
  | _, [] => True
  | 0, _ :: _ => False
  | d + 1, i :: is => i ∈ userFan (d + 1) ∧ FitsFrom d is

theorem pageIndices_fits (lower : va < 2 ^ 47) : FitsFrom 4 (pageIndices va) := by
  obtain ⟨pml4, pdpt, pd, -⟩ := fits_tableIndices lower
  exact ⟨pml4, pdpt, pd, ptIndex_fits va, trivial⟩

theorem follow_path (fits : FitsFrom d is) :
    follow ram t is = some x ↔ ∃ e, TreePath ram d t is e x := by
  induction is generalizing d t with
  | nil =>
      refine ⟨fun found => ⟨d, Option.some.inj found ▸ .nil⟩, fun ⟨e, p⟩ => ?_⟩
      cases p
      rfl
  | cons i is ih =>
      cases d with
      | zero => exact fits.elim
      | succ d =>
          rw [follow, Option.bind_eq_some_iff]
          constructor
          · rintro ⟨c, link, found⟩
            obtain ⟨e, p⟩ := (ih fits.2).mp found
            exact ⟨e, .cons fits.1 link p⟩
          · rintro ⟨e, p⟩
            cases p with
            | cons inside link p => exact ⟨_, link, (ih fits.2).mpr ⟨e, p⟩⟩

theorem follow_append (js : List Nat) :
    follow ram t (is ++ js) = (follow ram t is).bind fun x => follow ram x js := by
  induction is generalizing t with
  | nil => rfl
  | cons i is ih =>
      rw [List.cons_append, follow, follow, Option.bind_assoc]
      simp only [ih]

/-- Where slots lead is decided by the tables above the last of them. -/
theorem follow_congr (fits : FitsFrom d is)
    (same : ∀ js e x, TreePath ram d t js (e + 1) x → js.length < is.length →
    ram'.child x = ram.child x) :
    follow ram' t is = follow ram t is := by
  induction is generalizing d t with
  | nil => rfl
  | cons i is ih =>
      cases d with
      | zero => exact fits.elim
      | succ d =>
          rw [follow, follow, same [] _ t .nil (Nat.succ_pos _)]
          cases link : ram.child t i with
          | none => rw [Option.bind_none, Option.bind_none]
          | some c =>
              rw [Option.bind_some, Option.bind_some]
              exact ih fits.2 fun js e x p shorter =>
                same (i :: js) e x (.cons fits.1 link p) (Nat.succ_lt_succ shorter)

theorem flagsAlong_cons (ram : PhysMem) (t : PhysFrame) (i : Nat) (is : List Nat) :
    flagsAlong ram t (i :: is) =
    if (ram.entry t i).present then (ram.entry t i).flags :: flagsAlong ram
      (ram.entry t i).addr is else [] := rfl

/-- So are their flags. -/
theorem flagsAlong_congr (fits : FitsFrom d is)
    (same : ∀ js e x, TreePath ram d t js (e + 1) x → js.length < is.length →
    ram'.entry x = ram.entry x) :
    flagsAlong ram' t is = flagsAlong ram t is := by
  induction is generalizing d t with
  | nil => rfl
  | cons i is ih =>
      cases d with
      | zero => exact fits.elim
      | succ d =>
          rw [flagsAlong_cons, flagsAlong_cons, same [] _ t .nil (Nat.succ_pos _)]
          split
          case isTrue present =>
            have link := PageTableEntry.child_eq_some.mpr ⟨present, rfl⟩
            rw [ih fits.2 fun js e x p shorter =>
              same (i :: js) e x (.cons fits.1 link p) (Nat.succ_lt_succ shorter)]
          case isFalse => rfl

theorem pageOf_path (lower : va < 2 ^ 47) :
    pageOf ram root va = some x ↔ TreePath ram 4 root (pageIndices va) 0 x := by
  rw [pageOf, follow_path (pageIndices_fits lower)]
  refine ⟨fun ⟨e, p⟩ => ?_, fun p => ⟨0, p⟩⟩
  obtain rfl : e = 0 := by simpa [pageIndices, tableIndices] using p.length
  exact p

/-- The slot of the page table that maps `va`; the slots of a table that is not there
    are zero. -/
def leafEntry (ram : PhysMem) (root : PhysFrame) (va : Nat) : PageTableEntry :=
  (lookup ram root va).elim .unused fun slot => ram.entry slot.1 slot.2

theorem lookup_follow (ram : PhysMem) (root : PhysFrame) (va : Nat) :
    lookup ram root va = (follow ram root (tableIndices va)).map (·, ptIndex va) := by
  simp only [lookup, tableIndices, follow, Option.bind_eq_bind, Option.pure_def,
    Option.map_eq_bind, Option.bind_assoc,
    Option.bind_some, Function.comp_def]

theorem pageOf_leafEntry (ram : PhysMem) (root : PhysFrame) (va : Nat) :
    pageOf ram root va = (leafEntry ram root va).child := by
  rw [pageOf, pageIndices, follow_append, leafEntry, lookup_follow]
  cases follow ram root (tableIndices va) with
  | none => rw [Option.bind_none, Option.map_none, Option.elim_none, PageTableEntry.unused_child]
  | some pt => simp only [follow, Option.bind_fun_some, Option.bind_some, Option.map_some,
      Option.elim_some, PhysMem.child]

theorem tableIndices_fits (lower : va < 2 ^ 47) : FitsFrom 4 (tableIndices va) := by
  obtain ⟨pml4, pdpt, pd, -⟩ := fits_tableIndices lower
  exact ⟨pml4, pdpt, pd, trivial⟩

theorem lookup_upper (lower : va < 2 ^ 47)
    (same : ∀ is d t, TreePath ram 4 root is (d + 2) t → ram'.child t = ram.child t) :
    lookup ram' root va = lookup ram root va := by
  rw [lookup_follow, lookup_follow, follow_congr (tableIndices_fits lower)]
  intro js e x p shorter
  have height := p.length
  simp only [tableIndices, List.length_cons, List.length_nil] at shorter
  obtain ⟨d, rfl⟩ : ∃ d, e = d + 1 := ⟨e - 1, by omega⟩
  exact same js d x p

theorem lookup_congr (lower : va < 2 ^ 47) (same : ∀ f ∈ treeTables ram 4 root, ram' f = ram f) :
    lookup ram' root va = lookup ram root va :=
  lookup_upper lower fun _ _ _ p => PhysMem.child_congr (same _ (Radix.mem_tables.mpr ⟨_, _, p⟩))

theorem leafEntry_congr (lower : va < 2 ^ 47) (same : ∀ f ∈ treeTables ram 4 root, ram' f = ram f) :
    leafEntry ram' root va = leafEntry ram root va := by
  rw [leafEntry, leafEntry, lookup_congr lower same]
  cases found : lookup ram root va with
  | none => rw [Option.elim_none, Option.elim_none]
  | some slot =>
      obtain ⟨p, -⟩ := lookup_path (s := ⟨ram, ⟨[], 0, []⟩, 0⟩) lower found
      rw [Option.elim_some, Option.elim_some,
        PhysMem.entry_congr (same _ (Radix.mem_tables.mpr ⟨_, _, p⟩))]

theorem userLoad_congr (lower : va < 2 ^ 47)
    (same : ∀ f ∈ userFrames s.ram root, s'.ram f = s.ram f) :
    userLoad root s' va = userLoad root s va := by
  have tables : ∀ f ∈ treeTables s.ram 4 root, s'.ram f = s.ram f :=
    fun f member => same f (Multiset.mem_of_le (treeTables_le _ _ _) member)
  have page : pageOf s'.ram root va = pageOf s.ram root va :=
    Option.ext fun x => by rw [pageOf_path lower, pageOf_path lower, path_congr_iff tables]
  rw [userLoad, userLoad, page]
  cases found : pageOf s.ram root va with
  | none => rfl
  | some f => rw [Option.map_some, Option.map_some, same f ((pageOf_path lower).mp found).mem]

theorem userStore_extends {write : Nat × UInt8} (lower : write.1 < 2 ^ 47)
    (distinct : (owned 4 root 0 s).Nodup) :
    Extends P 4 root 0 0 s (userStore root s write) := by
  rw [userStore]
  cases found : pageOf s.ram root write.1 with
  | none => exact .refl
  | some page => exact leaf_write_extends distinct ((pageOf_path lower).mp found) fun f other =>
      PhysMem.writeBytes_frame other

theorem userStores_extends {writes : List (Nat × UInt8)} (lower : ∀ w ∈ writes, w.1 < 2 ^ 47)
    (distinct : (owned 4 root 0 s).Nodup) : Extends P 4 root 0 0 s (userStores root writes s) := by
  induction writes generalizing s with
  | nil => exact .refl
  | cons w writes ih =>
      have first : Extends P 4 root 0 0 s (userStore root s w) :=
        userStore_extends (lower w (by simp)) distinct
      exact first.trans (ih (fun w' member => lower w' (by simp [member])) (first.nodup distinct))

theorem userStores_unseen {writes : List (Nat × UInt8)} {other : PhysFrame}
    (lowers : ∀ w ∈ writes, w.1 < 2 ^ 47)
    (distinct : (owned 4 root 0 s).Nodup)
    (apart : ∀ f ∈ userFrames s.ram other, f ∉ owned 4 root 0 s)
    (lower : va < 2 ^ 47) : userLoad other (userStores root writes s) va = userLoad other s va :=
  userLoad_congr lower fun f member =>
    (userStores_extends (P := Lawless) lowers distinct).outside f (apart f member)

end FerriOS.Memory
