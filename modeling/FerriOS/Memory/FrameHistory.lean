import FerriOS.Memory.FrameAllocator

/-! # The frame allocator over a history of calls

A frame is outstanding from the call that hands it out to the call that gives it back.
Over every history the outstanding frames and the ones that can still be handed out are
together the frames of the usable regions, each of them once.
-/

namespace FerriOS.Memory

open FerriOS.Lib

/-- The frame lies entirely in a usable region. -/
def InUsable (map : List MemoryRegion) (f : PhysFrame) : Prop :=
  ∃ r ∈ map, r.kind = .usable ∧ r.start ≤ f.toNat * PAGE_SIZE ∧
    f.toNat * PAGE_SIZE + PAGE_SIZE ≤ r.stop

/-- The calls made since `init`, in any order; a frame is given back only while it is
    outstanding. -/
inductive FrameHistory (map : List MemoryRegion) : Nat → Multiset PhysFrame → MemState → Prop where
  | init : s.frameAllocator = ⟨map, 0, []⟩ → FrameHistory map 0 0 s
  | allocated : FrameHistory map n outstanding s → allocateFrame s = .ok (some f) s' →
      FrameHistory map (n + 1) (f ::ₘ outstanding) s'
  | exhausted : FrameHistory map n outstanding s → allocateFrame s = .ok none s' →
      FrameHistory map (n + 1) outstanding s'
  | deallocated : FrameHistory map n (f ::ₘ outstanding) s → deallocateFrame f s = .ok () s' →
      FrameHistory map (n + 1) outstanding s'

variable {map : List MemoryRegion} {n : Nat} {outstanding : Multiset PhysFrame} {s s' : MemState}
  {f : PhysFrame}

/-- An address of a region, with the whole page that starts there. -/
theorem MemoryRegion.mem_addresses_iff {r : MemoryRegion} (start : PAGE_SIZE ∣ r.start)
    (stop : PAGE_SIZE ∣ r.stop) {k : Nat} :
    k * PAGE_SIZE ∈ r.addresses ↔ r.start ≤ k * PAGE_SIZE ∧ k * PAGE_SIZE + PAGE_SIZE ≤ r.stop := by
  obtain ⟨low, lowEq⟩ := start
  obtain ⟨high, highEq⟩ := stop
  constructor
  · intro inside
    obtain ⟨above, below, -⟩ := MemoryRegion.mem_addresses inside
    refine ⟨above, ?_⟩
    simp only [highEq, PAGE_SIZE] at below ⊢
    omega
  · rintro ⟨above, below⟩
    refine List.mem_map.mpr ⟨k - low, List.mem_range.mpr ?_, ?_⟩
    all_goals
      simp only [lowEq, highEq, PAGE_SIZE] at above below ⊢
      omega

/-- The frames that the allocator can ever hand out are those of the usable regions. -/
theorem mem_usableOf (aligned : MapAligned map) :
    f ∈ BootInfoFrameAllocator.usableOf map ↔ InUsable map f := by
  constructor
  · intro member
    obtain ⟨addr, inside, rfl⟩ := List.mem_map.mp member
    obtain ⟨r, usable, here⟩ := List.mem_flatMap.mp inside
    obtain ⟨inMap, kind⟩ := List.mem_filter.mp usable
    have kind : r.kind = .usable := by simpa using kind
    obtain ⟨start, stop⟩ := aligned.aligned r inMap kind
    obtain ⟨-, below, page⟩ := MemoryRegion.mem_addresses here
    obtain ⟨k, rfl⟩ := page start
    have number : (PhysFrame.containingAddress (PAGE_SIZE * k)).toNat = k := by
      have physical := r.physical kind
      simp only [PhysFrame.containingAddress, PAGE_SIZE, BitVec.toNat_ofNat] at below ⊢
      omega
    rw [Nat.mul_comm] at here
    rw [InUsable, number]
    exact ⟨r, inMap, kind, (MemoryRegion.mem_addresses_iff start stop).mp here⟩
  · rintro ⟨r, inMap, kind, whole⟩
    obtain ⟨start, stop⟩ := aligned.aligned r inMap kind
    refine List.mem_map.mpr ⟨f.toNat * PAGE_SIZE, List.mem_flatMap.mpr
      ⟨r, List.mem_filter.mpr ⟨inMap, by simpa using kind⟩,
        (MemoryRegion.mem_addresses_iff start stop).mpr whole⟩, ?_⟩
    rw [PhysFrame.containingAddress, Nat.mul_div_cancel _ (by decide), BitVec.ofNat_toNat,
      BitVec.setWidth_eq]

theorem allocateFrame_next {r : Option PhysFrame} (taken : allocateFrame s = .ok r s') :
    s'.frameAllocator.next ≤ s.frameAllocator.next + 1 := by
  rw [allocateFrame.eq_def] at taken
  split at taken
  all_goals
    obtain ⟨-, rfl⟩ := Outcome.ok.inj taken
    simp

/-- What a history keeps: every usable frame is outstanding or left, and the counter has
    not run ahead of the calls. -/
structure Accounted (map : List MemoryRegion) (n : Nat) (outstanding : Multiset PhysFrame)
    (s : MemState) : Prop where
  frames : outstanding + s.available = BootInfoFrameAllocator.usableOf map
  memoryMap : s.frameAllocator.memoryMap = map
  next : s.frameAllocator.next ≤ n

theorem FrameHistory.accounted (history : FrameHistory map n outstanding s) :
    Accounted map n outstanding s := by
  induction history with
  | init fresh =>
      refine ⟨?_, by rw [fresh], by rw [fresh]⟩
      rw [zero_add, MemState.available, fresh]
      rfl
  | @allocated n outstanding s f s' _ taken ih =>
      obtain ⟨-, -, memoryMap, frames, -⟩ := allocateFrame_taken taken
      refine ⟨?_, memoryMap.trans ih.memoryMap,
        (allocateFrame_next taken).trans (Nat.succ_le_succ ih.next)⟩
      rw [← ih.frames, frames f rfl, Multiset.cons_add, Multiset.add_cons]
  | @exhausted n outstanding s s' _ taken ih =>
      obtain ⟨-, -, memoryMap, -, none⟩ := allocateFrame_taken taken
      refine ⟨?_, memoryMap.trans ih.memoryMap,
        (allocateFrame_next taken).trans (Nat.succ_le_succ ih.next)⟩
      rw [← ih.frames, (none rfl).1, (none rfl).2]
  | @deallocated n f outstanding s s' _ given ih =>
      obtain ⟨s₁, run, -, -, memoryMap, next, available⟩ := deallocateFrame_available f s
      obtain ⟨-, rfl⟩ := Outcome.ok.inj (run.symm.trans given)
      refine ⟨?_, memoryMap.trans ih.memoryMap, next ▸ ih.next.trans (Nat.le_succ n)⟩
      rw [← ih.frames, available, Multiset.add_cons, Multiset.cons_add]

/-- Whatever the calls before, the next allocation hands out a frame that is not
    outstanding and lies in a usable region, or none when all of them are outstanding. -/
theorem allocateFrame_correct (aligned : MapAligned map)
    (history : FrameHistory map n outstanding s)
    (short : n + 1 < 2 ^ 64) : s.frameAllocator.next + 1 < 2 ^ 64 ∧ outstanding.Nodup ∧
    (∀ f s', allocateFrame s = .ok (some f) s' → f ∉ outstanding ∧ InUsable map f) ∧
    ((∃ s', allocateFrame s = .ok none s') ↔ ∀ f, InUsable map f → f ∈ outstanding) := by
  obtain ⟨frames, -, next⟩ := history.accounted
  have once : (outstanding + s.available).Nodup := by
    rw [frames]
    exact Multiset.coe_nodup.mpr (usableOf_nodup aligned)
  obtain ⟨distinct, -, disjoint⟩ := Multiset.nodup_add.mp once
  have usable : ∀ f, InUsable map f ↔ f ∈ outstanding ∨ f ∈ s.available := fun f => by
    rw [← mem_usableOf aligned, ← Multiset.mem_add, frames, Multiset.mem_coe]
  refine ⟨(Nat.succ_le_succ next).trans_lt short, distinct, fun f s' taken => ?_, ?_⟩
  · have free := allocateFrame_free taken
    exact ⟨fun out => Multiset.disjoint_left.mp disjoint out free, (usable f).mpr (.inr free)⟩
  · obtain ⟨s₁, r, run, -, -, -, -, available⟩ := allocateFrame_spec s
    constructor
    · rintro ⟨s', none⟩ f inside
      obtain ⟨rfl, -⟩ := Outcome.ok.inj (run.symm.trans none)
      refine ((usable f).mp inside).resolve_right fun free => ?_
      rw [available.1] at free
      exact Multiset.notMem_zero f free
    · intro all
      cases r with
      | none => exact ⟨s₁, run⟩
      | some f =>
          have free := allocateFrame_free run
          exact absurd free (Multiset.disjoint_left.mp disjoint
            (all f ((usable f).mpr (.inr free))))

/-- A map with one usable frame, behind a region of the bootloader. -/
def twoRegions : List MemoryRegion :=
  [⟨0, 0x1234, .bootloader, nofun⟩, ⟨0x2000, 0x3000, .usable, fun _ => by decide⟩]

theorem twoRegions_aligned : MapAligned twoRegions where
  aligned r member kind := by
    simp only [twoRegions, List.mem_cons, List.not_mem_nil, or_false] at member
    rcases member with rfl | rfl
    · cases kind
    · exact ⟨by decide, by decide⟩
  disjoint := List.pairwise_singleton _ _

/-- The frame is handed out, asked for once more in vain, given back and handed out again. -/
theorem allocateFrame_correct_reused :
    ∃ s, FrameHistory twoRegions 4 {2} s ∧ s.frameAllocator.next + 1 < 2 ^ 64 ∧
    (∃ s', allocateFrame s = .ok none s') := by
  let fresh : MemState := ⟨fun _ _ => 0, ⟨twoRegions, 0, []⟩, 0⟩
  have start : FrameHistory twoRegions 0 0 fresh := .init rfl
  have history : FrameHistory twoRegions 4 {2} _ :=
    ((((start.allocated (f := 2) rfl).exhausted rfl).deallocated rfl).allocated (f := 2) rfl)
  obtain ⟨next, -, -, exhausted⟩ := allocateFrame_correct twoRegions_aligned history (by decide)
  refine ⟨_, history, next, exhausted.mpr fun f ⟨r, member, kind, above, below⟩ => ?_⟩
  simp only [twoRegions, List.mem_cons, List.not_mem_nil, or_false] at member
  rcases member with rfl | rfl
  · cases kind
  · rw [Multiset.mem_singleton]
    simp only [PAGE_SIZE] at above below
    bv_omega

end FerriOS.Memory
