import FerriOS.Memory.Va

/-! # A page mapper

`map_to` as the x86_64 crate runs it for a 4 KiB page. It keeps the promise that
the rest of the development asks of a mapper.
-/

namespace FerriOS.Memory

open FerriOS.Lib

/-- `create_next_table` for every slot on the way to a page table. A slot that is
    neither present nor zero is no slot of this kernel. -/
def createNextTables (insert : PageTableFlags) : List Nat → PhysFrame → Prog MemState PhysFrame
  | [], table => pure table
  | i :: is, table => do
      let s ← .get
      let entry := s.ram.entry table i
      if entry.isUnused then do
        let frame ← .okOr "FrameAllocationFailed" (← allocateFrame)
        writeRam fun ram => (ram.zeroFrame frame).setEntry table i ⟨frame, insert⟩
        createNextTables insert is frame
      else if !entry.present then .crash "entry should be mapped at this point"
      else do
        if !entry.flags.contains insert then
          writeRam (·.setEntry table i ⟨entry.addr, entry.flags ||| insert⟩)
        if entry.huge then .fail "ParentEntryHugePage"
        else createNextTables insert is entry.addr

def mapTo (pml4 : PhysFrame) (page : Nat) (frame : PhysFrame) (flags : PageTableFlags) :
    Prog MemState Unit := do
  let pt ← createNextTables (flags &&& tableFlags) (tableIndices page) pml4
  let s ← .get
  if (s.ram.entry pt (ptIndex page)).isUnused then writeRam (·.setEntry pt (ptIndex page)
    ⟨frame, flags⟩)
  else .fail "PageAlreadyMapped"

/-- The way down is a descent; it ends at a table, without a frame, at a huge page,
    or at a slot that should be mapped. -/
theorem createNextTables_descent (insert : PageTableFlags) (is : List Nat) (table : PhysFrame)
    (s : MemState) :
    match createNextTables insert is table s with
    | .ok pt s' => Descent insert insert is table s (some pt) s'
    | .err _ s' => Descent insert insert is table s none s'
    | .panic _ => ∃ js i rest t s', is = js ++ i :: rest ∧
        Descent insert insert js table s (some t) s' ∧
        (s'.ram.entry t i).present = false ∧ (s'.ram.entry t i).isUnused = false := by
  induction is generalizing table s with
  | nil => exact .arrived
  | cons i is ih =>
      rw [createNextTables]
      simp only [Prog.get_bind]
      by_cases zero : (s.ram.entry table i).isUnused = true
      · have absent := PageTableEntry.present_of_isUnused zero
        simp only [zero, if_true]
        obtain ⟨s₁, r, taken, -⟩ := allocateFrame_spec s
        rw [Prog.bind_ok taken]
        cases r with
        | none => exact .exhausted absent taken
        | some frame =>
            simp only [Prog.okOr_some, Prog.pure_bind, Prog.bind_ok (writeRam_run _ _)]
            have below := ih frame
              (s₁.setRam ((s₁.ram.zeroFrame frame).setEntry table i ⟨frame, insert⟩))
            split at below
            · exact .created absent taken below
            · exact .created absent taken below
            · obtain ⟨js, j, rest, t, s', split, walk, slot⟩ := below
              exact ⟨i :: js, j, rest, t, s', by rw [split, List.cons_append],
                .created absent taken walk, slot⟩
      · simp only [zero, Bool.false_eq_true, if_false]
        by_cases present : (s.ram.entry table i).present = true
        · simp only [present, Bool.not_true, Bool.false_eq_true, if_false]
          -- the flags are added first, then a huge page stops the descent
          by_cases lacks : (s.ram.entry table i).flags.contains insert = true
          · simp only [lacks, Bool.not_true, Bool.false_eq_true, if_false]
            by_cases huge : (s.ram.entry table i).huge = true
            · simp only [huge, if_true]
              exact .huge present huge
            · simp only [huge, Bool.false_eq_true, if_false]
              have below := ih (s.ram.entry table i).addr s
              split at below
              · exact .kept present lacks below
              · exact .kept present lacks below
              · obtain ⟨js, j, rest, t, s', split, walk, slot⟩ := below
                exact ⟨i :: js, j, rest, t, s', by rw [split, List.cons_append],
                  .kept present lacks walk, slot⟩
          · have lacks' : (s.ram.entry table i).flags.contains insert = false :=
              Bool.eq_false_iff.mpr lacks
            simp only [lacks', Bool.not_false, if_true, Prog.bind_ok (writeRam_run _ _)]
            by_cases huge : (s.ram.entry table i).huge = true
            · simp only [huge, if_true]
              exact .hugeWidened present huge
            · simp only [huge, Bool.false_eq_true, if_false]
              have below := ih (s.ram.entry table i).addr (s.setRam (s.ram.setEntry table i
                ⟨(s.ram.entry table i).addr, (s.ram.entry table i).flags ||| insert⟩))
              split at below
              · exact .widened present lacks' below
              · exact .widened present lacks' below
              · obtain ⟨js, j, rest, t, s', split, walk, slot⟩ := below
                exact ⟨i :: js, j, rest, t, s', by rw [split, List.cons_append],
                  .widened present lacks' walk, slot⟩
        · simp only [present, Bool.not_false, if_true]
          exact ⟨[], i, is, table, s, rfl, .arrived, Bool.eq_false_iff.mpr present,
            Bool.eq_false_iff.mpr zero⟩

/-- The mapper of the crate. -/
def offsetPageTable : Mapper where
  mapTo := mapTo
  mapTo_spec pml4 page frame flags s _ _ := by
    have walk := createNextTables_descent (flags &&& tableFlags) (tableIndices page) pml4 s
    rw [mapTo, Prog.bind_run]
    cases run : createNextTables (flags &&& tableFlags) (tableIndices page) pml4 s with
    | err message s' =>
        rw [run] at walk
        exact .inl walk
    | panic message =>
        rw [run] at walk
        exact walk
    | ok pt s' =>
        rw [run] at walk
        simp only [Prog.get_bind]
        by_cases zero : (s'.ram.entry pt (ptIndex page)).isUnused = true
        · simp only [zero, if_true]
          exact ⟨pt, s', walk, zero, rfl⟩
        · simp only [zero, Bool.false_eq_true, if_false]
          exact .inr ⟨pt, walk, Bool.eq_false_iff.mpr zero⟩

end FerriOS.Memory
