import FerriOS.Memory.Growth

/-! # Shrinking back

A growth and the shrink that takes it back start at the same page, so they touch the
same pages. Only page tables stay behind, linked in the tree.
-/

namespace FerriOS.Memory

open FerriOS.Lib

variable {root : PhysFrame} {s s₁ : MemState} {oldsz newsz r : Nat}

/-- A shrink that follows a growth releases the pages of the growth. -/
theorem deallocUvm_grown {start : Nat} (ordered : oldsz ≤ newsz) (below : newsz < 2 ^ 47)
    (rounded : pageRoundUp oldsz = some start) (distinct : (owned 4 root 0 s₁).Nodup)
    (small : ∀ b ∈ pageSteps start newsz, (leafEntry s₁.ram root b).huge = false) :
    (deallocUvm root newsz oldsz s₁).Sat False
      (fun r s' => r = oldsz ∧ PagesReleased root 0 (pageSteps start newsz) s₁ s')
        (fun _ _ => False) := by
  rcases ordered.lt_or_eq with grows | rfl
  · have inside : ∀ b ∈ pageSteps start newsz, b < 2 ^ 47 :=
      fun b member => (mem_pageSteps member).2.trans below
    rw [deallocUvm, if_neg (not_le.mpr grows), rounded]
    simp only [Prog.okOr, Prog.pure_bind]
    exact Outcome.Sat.bind (releasePages_leaves _ inside distinct fun b member _ => small b member)
      fun _ s' done => ⟨rfl, done⟩
  · have none : pageSteps start oldsz = [] := by
      rw [pageRoundUp_of_lower below.le] at rounded
      obtain rfl := Option.some.inj rounded
      have count : (oldsz - (oldsz + (PAGE_SIZE - 1)) / PAGE_SIZE * PAGE_SIZE +
        (PAGE_SIZE - 1)) / PAGE_SIZE = 0 := by
        simp only [PAGE_SIZE]
        omega
      rw [pageSteps, count, List.range_zero, List.map_nil]
    rw [deallocUvm, if_pos le_rfl, none]
    exact ⟨rfl, .nil⟩

/-- Shrinking undoes growing: the leaves are as before the growth, save that a slot of one
    of its pages that was not present may be zero now, the frames of the pages are free
    again, and the other frames that the growth took are tables of the tree. -/
theorem deallocUvm_undoes_allocUvm (ordered : oldsz ≤ newsz) (below : newsz < 2 ^ 47)
    (distinct : (owned 4 root 0 s).Nodup)
    (apart : ∀ f ∈ upperTables s.ram root, f ∉ owned 4 root 0 s)
    (grown : allocUvm root oldsz newsz s = .ok r s₁) :
    ∃ start stop, pageRoundUp oldsz = some start ∧ pageRoundUp newsz = some stop ∧
      ∃ s', deallocUvm root newsz oldsz s₁ = .ok oldsz s' ∧ RolledBack root start stop s s' ∧
        ∀ a < 2 ^ 47, (leafEntry s.ram root a).present = false →
          (leafEntry s₁.ram root a).present = true →
          (leafEntry s₁.ram root a).addr ∈ s'.available := by
  have rounded := pageRoundUp_of_lower (ordered.trans below.le)
  obtain ⟨-, step, set, -⟩ := (allocUvm_leaves ordered below rounded distinct).of_ok grown
  have small : ∀ b ∈ pageSteps ((oldsz + (PAGE_SIZE - 1)) / PAGE_SIZE * PAGE_SIZE) newsz,
      (leafEntry s₁.ram root b).huge = false := by
    intro b member
    obtain ⟨c, -, leaf, -⟩ := set.backed b member
    rw [leaf]
    exact tableFlags_small
  obtain ⟨size, s', shrunk, returned, done⟩ :=
    (deallocUvm_grown ordered below rounded (step.nodup distinct) small).total
  rw [returned] at shrunk
  have back : LeavesBack root _ s s' := set.taken_back (fun _ _ => rfl) done
  refine ⟨_, _, rounded, pageRoundUp_of_lower below.le, s', shrunk,
    .of_leaves (Nat.dvd_mul_left _ _) (step.toConserves.trans done.toConserves) distinct apart back,
    fun a lowerA absent present => ?_⟩
  -- a leaf that has become present is one of the growth
  have page : ∃ b ∈ pageSteps ((oldsz + (PAGE_SIZE - 1)) / PAGE_SIZE * PAGE_SIZE) newsz,
    a / PAGE_SIZE = b / PAGE_SIZE := by
    by_contra other
    rw [set.others a lowerA fun b member same => other ⟨b, member, same⟩, absent] at present
    cases present
  obtain ⟨b, member, same⟩ := page
  rw [leafEntry_page same] at present ⊢
  exact done.freed b member present

/-- The first page is mapped and released, and its frame is free again. -/
theorem deallocUvm_undoes_allocUvm_page : ∃ s₁ s', allocUvm 1 0 4096 staleMemory = .ok 4096 s₁ ∧
    deallocUvm 1 4096 0 s₁ = .ok 0 s' ∧ RolledBack 1 0 4096 staleMemory s' := by
  have grown : ∃ s₁, allocUvm 1 0 4096 staleMemory = .ok 4096 s₁ := ⟨_, rfl⟩
  obtain ⟨s₁, grown⟩ := grown
  obtain ⟨start, stop, first, last, s', shrunk, back, -⟩ :=
    deallocUvm_undoes_allocUvm (by decide) (by decide) staleMemory_distinct staleMemory_apart grown
  obtain rfl : 0 = start := Option.some.inj first
  obtain rfl : 4096 = stop := Option.some.inj last
  exact ⟨s₁, s', grown, shrunk, back⟩

/-- The slot of the page, which was not present and not zero, is zero after the shrink. -/
theorem staleSlot_lost : (owned 4 1 0 staleMemory).Nodup ∧
    (∀ f ∈ upperTables staleMemory.ram 1, f ∉ owned 4 1 0 staleMemory) ∧
    (∀ f i, (staleMemory.ram.entry f i).huge = false) ∧
    ∃ s₁ s', allocUvm 1 0 4096 staleMemory = .ok 4096 s₁ ∧ deallocUvm 1 4096 0 s₁ = .ok 0 s' ∧
      leafEntry s'.ram 1 0 ≠ leafEntry staleMemory.ram 1 0 :=
  ⟨staleMemory_distinct, staleMemory_apart, staleMemory_small, _, _, rfl, rfl, by decide +kernel⟩

end FerriOS.Memory
