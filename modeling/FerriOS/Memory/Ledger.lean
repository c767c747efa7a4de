import FerriOS.Memory.Walk
import FerriOS.Memory.Umem

/-! # The address-space routines keep the ledger

Growing, shrinking, rolling back, copying and releasing a user address space
neither lose nor duplicate a frame, on the success path and on every error path.
-/

namespace FerriOS.Memory

open FerriOS.Lib

variable {P : SlotLaw} {root pt : PhysFrame} {h : Multiset PhysFrame} {s s' : MemState}
  {va addr i : Nat}

/-- The law of the user half of a process: no huge pages, and every table can be
    reached from user mode. The flags of a page have four slots on their way. -/
def kernelLaw : SlotLaw := fun is f =>
  f.contains .HUGE_PAGE = false ∧ (is.length < 4 → f.contains .USER_ACCESSIBLE = true)

theorem kernelLaw_noHuge : NoHuge kernelLaw := fun _ _ law => law.1

theorem kernelLaw_tableFlags (is : List Nat) : kernelLaw is tableFlags :=
  ⟨tableFlags_small, fun _ => by decide⟩

theorem mem_pageSteps {start stop a : Nat} (member : a ∈ pageSteps start stop) :
    start ≤ a ∧ a < stop := by
  obtain ⟨k, hk, rfl⟩ := List.mem_map.mp member
  rw [List.mem_range] at hk
  simp only [PAGE_SIZE] at hk ⊢
  omega

theorem frameFromEntry_run {e : PageTableEntry} (linked : e.present = true) (small : e.huge = false)
    (s : MemState) : frameFromEntry e s = .ok e.addr s := by
  simp [frameFromEntry, linked, small]

private theorem next_address (lower : addr < 2 ^ 47) :
    checkedAdd addr PAGE_SIZE = some (addr + PAGE_SIZE) := by
  rw [checkedAdd, if_pos]
  simp only [PAGE_SIZE]
  omega

/-- Unmapping a page gives its frame back. -/
theorem releasePage_spec (noHuge : NoHuge P) (overflow : String) (lower : addr < 2 ^ 47)
    (distinct : (owned 4 root h s).Nodup) (slots : Slots P s.ram 4 root) :
    (releasePage root overflow addr s).Sat False (fun _ s' => Conserves P 4 root h h s s')
      (fun _ _ => False) := by
  simp only [releasePage, virtAddr, VirtAddr.new_lower lower, Prog.expect, Prog.pure_bind,
    Prog.bind_ok (walkPagetable_lookup _ _ _), next_address lower, Prog.okOr]
  cases found : lookup s.ram root addr with
  | none => exact Conserves.refl
  | some slot =>
      obtain ⟨pt, i⟩ := slot
      obtain ⟨p, rfl⟩ := lookup_path lower found
      simp only [Prog.get_bind]
      by_cases linked : (s.ram.entry pt (ptIndex addr)).present = true
      · have lawful := slots _ _ _ p _ (ptIndex_fits addr)
        have small := (lawful.small (noHuge _) linked).2
        simp only [linked, if_true, Prog.bind_ok (frameFromEntry_run linked small _)]
        have unlinked := unlink_conserves (P := P) distinct p (ptIndex_fits addr) linked rfl
        exact unlinked.trans (deallocateFrame_conserves rfl)
      · simp only [linked, Bool.false_eq_true, if_false]
        exact Conserves.refl

theorem releasePages_spec (noHuge : NoHuge P) (overflow : String) {start stop : Nat}
    (lower : stop ≤ 2 ^ 47) (distinct : (owned 4 root h s).Nodup) (slots : Slots P s.ram 4 root) :
    (Prog.each (pageSteps start stop) (releasePage root overflow) s).Sat False
      (fun _ s' => Conserves P 4 root h h s s') (fun _ _ => False) := by
  refine Outcome.Sat.each_keep (fun s' => Conserves P 4 root h h s s') _
    (fun a ha s₁ done => ?_) .refl
  have inside : a < 2 ^ 47 := (mem_pageSteps ha).2.trans_le lower
  exact (releasePage_spec noHuge overflow inside (done.nodup distinct) (done.slots slots)).mono id
    (fun _ _ step => done.trans step) fun _ _ impossible => impossible

/-- One page of a growth is mapped, or everything mapped so far is taken back. -/
theorem allocUvmPage_spec (noHuge : NoHuge P) (law : ∀ is, P is tableFlags) (start : Nat)
    (lower : addr < 2 ^ 47) (distinct : (owned 4 root h s).Nodup) (slots : Slots P s.ram 4 root) :
    (allocUvmPage root start addr s).Sat False
      (fun _ s' => Mapped P root h addr s s')
      (fun _ s' => Conserves P 4 root h h s s' ∧
        (PageMapped s.ram root addr ∨ FramesShort root [addr] s)) := by
  -- the rollback before an error return, from any state that still conserves
  have rollback : ∀ {t : MemState} {reason : Prop} (message : String), reason →
      Conserves P 4 root h h s t →
      ((rollbackAllocUvm root start addr >>= fun _ =>
        (Prog.fail message : Prog MemState Unit)) t).Sat
        False (fun _ s' => Mapped P root h addr s s')
        (fun _ s' => Conserves P 4 root h h s s' ∧ reason) := by
    intro t reason message because kept
    refine Outcome.Sat.bind (Q := fun _ s' => Conserves P 4 root h h t s')
      ((releasePages_spec noHuge _ lower.le (kept.nodup distinct) (kept.slots slots)).mono id
        (fun _ _ step => step) fun _ _ impossible => impossible.elim) fun _ s' step => ?_
    exact ⟨kept.trans step, because⟩
  obtain ⟨s₁, r, run, -, -, -, -, available⟩ := allocateFrame_spec s
  rw [allocUvmPage, Prog.bind_ok run]
  cases r with
  | none =>
      have kept : Extends P 4 root h h s s₁ := allocateFrame_none run
      exact rollback _ (or_iff_not_imp_left.mpr (framesShort_of_none available.1)) kept.toConserves
  | some c =>
      have first : Extends P 4 root h (c ::ₘ h) s s₁ := allocateFrame_extends run
      obtain ⟨clear, cleared⟩ := hand_extends (P := P) (s₁.ram.zeroFrame c)
        (first.nodup distinct) fun f hf => PhysMem.zeroFrame_frame hf
      have second := first.trans clear
      obtain ⟨r, s₂, walked, third, arrived, new, stops⟩ :=
        walkPagetable_extends law lower (second.nodup distinct)
      have held := second.trans third
      have fromStart := (cleared _).trans new
      rw [allocateFrame_ram run] at fromStart
      simp only [Prog.bind_ok (writeRam_run _ _), virtAddr, VirtAddr.new_lower lower, Prog.expect,
        Prog.pure_bind, Prog.bind_ok walked]
      cases r with
      | none =>
          have kept := held.toConserves.trans (deallocateFrame_conserves rfl)
          obtain ⟨out, blocked⟩ := stops noHuge (second.slots slots) rfl
          exact rollback _ (.inr (framesShort_of_walk held fromStart out blocked)) kept
      | some pt =>
          have p := arrived pt rfl
          simp only [Option.map_some, Prog.get_bind]
          by_cases linked : (s₂.ram.entry pt (ptIndex addr)).present = true
          · simp only [linked, if_true]
            have kept := held.toConserves.trans (deallocateFrame_conserves rfl)
            exact rollback _ (.inl (fromStart.pageMapped ((pageMapped_iff p).mpr linked))) kept
          · have absent : (s₂.ram.entry pt (ptIndex addr)).present = false := by simpa using linked
            obtain ⟨fourth, page, leaf⟩ :=
              page_extends (third.nodup (second.nodup distinct)) p absent tableFlags_present (law _)
            have leafSmall : (PageTableFlags.PRESENT ||| .WRITABLE ||| .USER_ACCESSIBLE).contains
                .HUGE_PAGE = false := tableFlags_small
            simp only [absent, Bool.false_eq_true, if_false,
              Prog.bind_ok (setFrame_run leafSmall _),
              next_address lower, Prog.okOr]
            refine ⟨held.trans fourth, fun old => ?_, ⟨c, page⟩, fromStart.longer.trans leaf⟩
            exact linked ((pageMapped_iff p).mp (held.pageMapped old))

theorem pageSteps_distinct {start stop a b : Nat} (memberA : a ∈ pageSteps start stop)
    (memberB : b ∈ pageSteps start stop) (same : a / PAGE_SIZE = b / PAGE_SIZE) : a = b := by
  obtain ⟨j, -, rfl⟩ := List.mem_map.mp memberA
  obtain ⟨k, -, rfl⟩ := List.mem_map.mp memberB
  simp only [PAGE_SIZE] at same ⊢
  omega

theorem pageSteps_nodup (start stop : Nat) : (pageSteps start stop).Nodup := by
  refine List.nodup_range.map fun j k same => ?_
  simp only [PAGE_SIZE] at same
  omega

/-- The pages a growth has to map. -/
def growthPages (oldsz newsz : Nat) : List Nat :=
  (pageRoundUp oldsz).elim [] (pageSteps · newsz)

theorem pageRoundUp_of_lower {size : Nat} (lower : size ≤ 2 ^ 47) :
    pageRoundUp size = some ((size + (PAGE_SIZE - 1)) / PAGE_SIZE * PAGE_SIZE) := by
  rw [pageRoundUp, checkedAdd, if_pos]
  · rfl
  · simp only [PAGE_SIZE]
    omega

theorem growthPages_of_lower {oldsz newsz : Nat} (lower : oldsz ≤ 2 ^ 47) :
    growthPages oldsz newsz =
    pageSteps ((oldsz + (PAGE_SIZE - 1)) / PAGE_SIZE * PAGE_SIZE) newsz := by
  rw [growthPages, pageRoundUp_of_lower lower, Option.elim_some]

theorem growthPages_of_le {oldsz newsz : Nat} (shrinks : newsz ≤ oldsz) :
    growthPages oldsz newsz = [] := by
  rw [growthPages]
  cases rounded : pageRoundUp oldsz with
  | none => rfl
  | some start =>
      simp only [pageRoundUp, checkedAdd, Option.map_eq_some_iff] at rounded
      obtain ⟨sum, found, rfl⟩ := rounded
      split at found
      · obtain rfl := Option.some.inj found
        refine List.eq_nil_iff_forall_not_mem.mpr fun a ha => ?_
        have bounds := mem_pageSteps ha
        simp only [PAGE_SIZE] at bounds
        omega
      · cases found

/-- What a growth can fail for. -/
def GrowthFails (root : PhysFrame) (oldsz newsz : Nat) (s : MemState) : Prop :=
  userSpaceTop ≤ newsz ∨ RangeFails root (growthPages oldsz newsz) s

/-- A growth that fails maps nothing for good; a growth that succeeds maps its pages. -/
theorem Grown.not_fails {addrs : List Nat} (grown : Grown P root h addrs s s') :
    ¬ RangeFails root addrs s := by
  rintro (⟨a, member, mapped⟩ | short)
  · exact grown.fresh a member mapped
  · have spent := grown.spent
    rw [FramesShort] at short
    omega

/-- Growing maps every page of the growth; failing takes back what was mapped,
    and says why. -/
theorem allocUvm_spec (noHuge : NoHuge P) (law : ∀ is, P is tableFlags) {oldsz newsz : Nat}
    (distinct : (owned 4 root h s).Nodup) (slots : Slots P s.ram 4 root) :
    (allocUvm root oldsz newsz s).Sat False
      (fun r s' => newsz < userSpaceTop ∧ r = max oldsz newsz ∧
        Grown P root h (growthPages oldsz newsz) s s')
      (fun _ s' => Conserves P 4 root h h s s' ∧ GrowthFails root oldsz newsz s) := by
  rw [allocUvm]
  split
  · exact ⟨.refl, .inl ‹_›⟩
  · rename_i below
    have lower : newsz < 2 ^ 47 := by
      simpa [userSpaceTop, PAGETABLE_USER_SPACE_END, PTE_BASE_ADDRESS] using below
    split
    · rename_i shrinks
      rw [growthPages_of_le shrinks.le]
      exact ⟨not_le.mp below, (max_eq_left shrinks.le).symm, .refl⟩
    · rename_i ordered
      have lowerOld : oldsz ≤ 2 ^ 47 := by omega
      rw [GrowthFails, growthPages_of_lower lowerOld]
      simp only [pageRoundUp_of_lower lowerOld, Prog.okOr, Prog.pure_bind]
      generalize (oldsz + (PAGE_SIZE - 1)) / PAGE_SIZE * PAGE_SIZE = start
      refine Outcome.Sat.bind (Q := fun _ s' => Grown P root h (pageSteps start newsz) s s')
        (Outcome.Sat.each (fun done s' => Grown P root h done s s') _
          (fun done a rest s₁ split grown => ?_) .refl) fun _ s' grown => ?_
      · have inside : a ∈ pageSteps start newsz := by simp [split]
        have lowerA : a < 2 ^ 47 := (mem_pageSteps inside).2.trans lower
        refine (allocUvmPage_spec noHuge law start lowerA (grown.toConserves.nodup distinct)
          (grown.slots slots)).mono id (fun _ s' page => grown.snoc page) fun _ s' fails => ?_
        refine ⟨grown.toConserves.trans fails.1, .inr ?_⟩
        rcases fails.2 with mapped | short
        · refine .inl ⟨a, inside, (grown.only mapped).resolve_right ?_⟩
          rintro ⟨b, member, same⟩
          have insideB : b ∈ pageSteps start newsz := by
            rw [split]
            exact List.mem_append_left _ member
          have equal := pageSteps_distinct inside insideB
            (pageIndices_injective lowerA ((mem_pageSteps insideB).2.trans lower) same)
          have once := pageSteps_nodup start newsz
          rw [split] at once
          exact (List.disjoint_of_nodup_append once) member (equal ▸ List.mem_cons_self)
        · refine .inr (grown.short short fun b member => ?_)
          rw [split]
          simpa using (List.mem_append.mp member).imp id fun here =>
            .inl (List.mem_singleton.mp here)
      · exact ⟨not_le.mp below, (max_eq_right (not_lt.mp ordered)).symm, grown⟩

theorem deallocUvm_spec (noHuge : NoHuge P) {oldsz newsz : Nat} (lower : oldsz ≤ 2 ^ 47)
    (distinct : (owned 4 root h s).Nodup) (slots : Slots P s.ram 4 root) :
    (deallocUvm root oldsz newsz s).Sat False
      (fun r s' => r = min oldsz newsz ∧ Conserves P 4 root h h s s') (fun _ _ => False) := by
  rw [deallocUvm]
  split
  · rename_i grows
    exact ⟨(min_eq_left grows).symm, .refl⟩
  · rename_i shrinks
    simp only [pageRoundUp_of_lower (show newsz ≤ 2 ^ 47 by omega), Prog.okOr, Prog.pure_bind]
    refine Outcome.Sat.bind (releasePages_spec noHuge _ lower distinct slots) fun _ s' step => ?_
    exact ⟨(min_eq_right (by omega)).symm, step⟩

end FerriOS.Memory
