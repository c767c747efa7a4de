import FerriOS.Memory.Ram
import FerriOS.Lib.Outcome

/-! # The boot-info frame allocator

Frames come from the recycled list first and from the usable regions of the boot
memory map after that. `next` counts the frames taken from the map; it also
advances on a failing call, and never comes back.
-/

namespace FerriOS.Memory

open FerriOS.Lib

/-- Kinds of the bootloader's memory regions. -/
inductive MemoryRegionKind where
  | usable
  | bootloader
  | unknownUefi (code : Nat)
  | unknownBios (code : Nat)
  deriving DecidableEq, Repr

/-- A region of the boot memory map. Usable regions are memory, and physical addresses
    have 52 bits. -/
structure MemoryRegion where
  start : Nat
  stop : Nat
  kind : MemoryRegionKind
  physical : kind = .usable → stop ≤ 2 ^ 52

/-- `PhysFrame::containing_address`. -/
def PhysFrame.containingAddress (addr : Nat) : PhysFrame := BitVec.ofNat 40 (addr / PAGE_SIZE)

/-- `(start..stop).step_by(PAGE_SIZE)`. -/
def MemoryRegion.addresses (r : MemoryRegion) : List Nat :=
  (List.range ((r.stop - r.start + (PAGE_SIZE - 1)) / PAGE_SIZE)).map (r.start + PAGE_SIZE * ·)

structure BootInfoFrameAllocator where
  memoryMap : List MemoryRegion
  next : Nat
  /-- The frames given back, the last one pushed first. -/
  recycledFrames : List PhysFrame

namespace BootInfoFrameAllocator

/-- The frames of a memory map, in the order the allocator hands them out. -/
def usableOf (map : List MemoryRegion) : List PhysFrame :=
  ((map.filter (·.kind == .usable)).flatMap MemoryRegion.addresses).map
    PhysFrame.containingAddress

def usableFrames (a : BootInfoFrameAllocator) : List PhysFrame := usableOf a.memoryMap

/-- The usable frames never handed out so far. -/
def untouched (a : BootInfoFrameAllocator) : List PhysFrame := a.usableFrames.drop a.next

/-- Every frame the allocator can still hand out. -/
def available (a : BootInfoFrameAllocator) : Multiset PhysFrame :=
  (a.recycledFrames ++ a.untouched : List PhysFrame)

end BootInfoFrameAllocator

/-- What the memory routines work on: physical memory, the frame allocator, and
    the page table the CPU uses. -/
structure MemState where
  ram : PhysMem
  frameAllocator : BootInfoFrameAllocator
  cr3 : PhysFrame

namespace MemState

def available (s : MemState) : Multiset PhysFrame := s.frameAllocator.available

def setRam (s : MemState) (ram : PhysMem) : MemState := { s with ram }

@[simp] theorem setRam_ram (s : MemState) (ram : PhysMem) : (s.setRam ram).ram = ram := rfl

@[simp] theorem setRam_setRam (s : MemState) (ram ram' : PhysMem) :
    (s.setRam ram).setRam ram' = s.setRam ram' := rfl

@[simp] theorem setRam_frameAllocator (s : MemState) (ram : PhysMem) :
    (s.setRam ram).frameAllocator = s.frameAllocator := rfl

@[simp] theorem setRam_available (s : MemState) (ram : PhysMem) :
    (s.setRam ram).available = s.available := rfl

@[simp] theorem setRam_cr3 (s : MemState) (ram : PhysMem) : (s.setRam ram).cr3 = s.cr3 := rfl

end MemState

/-- Change physical memory. -/
def writeRam (f : PhysMem → PhysMem) : Prog MemState Unit :=
  .modify fun s => s.setRam (f s.ram)

def allocateFrame : Prog MemState (Option PhysFrame) := fun s =>
  match s.frameAllocator.recycledFrames with
  | frame :: rest =>
      .ok (some frame) { s with frameAllocator := { s.frameAllocator with recycledFrames := rest } }
  | [] =>
      .ok (s.frameAllocator.usableFrames[s.frameAllocator.next]?)
        { s with frameAllocator := { s.frameAllocator with next := s.frameAllocator.next + 1 } }

def deallocateFrame (frame : PhysFrame) : Prog MemState Unit := .modify fun s =>
  { s with frameAllocator := { s.frameAllocator with
      recycledFrames := frame :: s.frameAllocator.recycledFrames } }

@[simp] theorem writeRam_run (f : PhysMem → PhysMem) (s : MemState) :
    writeRam f s = .ok () (s.setRam (f s.ram)) := rfl

/-- An allocation takes one available frame, or finds none left. Nothing else of
    the state changes. -/
theorem allocateFrame_spec (s : MemState) : ∃ s' r, allocateFrame s = .ok r s' ∧
    s'.ram = s.ram ∧ s'.cr3 = s.cr3 ∧
    s'.frameAllocator.memoryMap = s.frameAllocator.memoryMap ∧
    s.frameAllocator.next ≤ s'.frameAllocator.next ∧
    (match r with
      | some c => s.available = c ::ₘ s'.available
      | none => s.available = 0 ∧ s'.available = 0) := by
  unfold allocateFrame
  cases recycled : s.frameAllocator.recycledFrames with
  | cons frame rest =>
      refine ⟨_, _, rfl, rfl, rfl, rfl, le_rfl, ?_⟩
      simp only [MemState.available, BootInfoFrameAllocator.available, recycled]
      rfl
  | nil =>
      refine ⟨_, _, rfl, rfl, rfl, rfl, Nat.le_succ _, ?_⟩
      cases taken : s.frameAllocator.usableFrames[s.frameAllocator.next]? with
      | some c =>
          obtain ⟨inside, rfl⟩ := List.getElem?_eq_some_iff.mp taken
          simp only [MemState.available, BootInfoFrameAllocator.available, recycled,
            BootInfoFrameAllocator.untouched, List.nil_append, List.drop_eq_getElem_cons inside]
          rfl
      | none =>
          have beyond := List.getElem?_eq_none_iff.mp taken
          have none_left : ∀ n ≥ s.frameAllocator.next,
              s.frameAllocator.usableFrames.drop n = [] :=
            fun n hn => List.drop_eq_nil_of_le (beyond.trans hn)
          constructor
          · simp only [MemState.available, BootInfoFrameAllocator.available, recycled,
              BootInfoFrameAllocator.untouched, none_left _ le_rfl, List.nil_append]
            rfl
          · simp only [MemState.available, BootInfoFrameAllocator.available, recycled,
              BootInfoFrameAllocator.untouched, List.nil_append]
            exact congrArg _ (none_left _ (Nat.le_succ _))

/-- What is known after an allocation. -/
structure FrameTaken (s : MemState) (r : Option PhysFrame) (s' : MemState) : Prop where
  ram : s'.ram = s.ram
  cr3 : s'.cr3 = s.cr3
  memoryMap : s'.frameAllocator.memoryMap = s.frameAllocator.memoryMap
  frames : ∀ c, r = some c → s.available = c ::ₘ s'.available
  none : r = none → s.available = 0 ∧ s'.available = 0

theorem allocateFrame_taken {s s' : MemState} {r : Option PhysFrame}
    (taken : allocateFrame s = .ok r s') : FrameTaken s r s' := by
  obtain ⟨s₁, r₁, run, ram, cr3, memoryMap, -, available⟩ := allocateFrame_spec s
  obtain ⟨rfl, rfl⟩ := Outcome.ok.inj (run.symm.trans taken)
  refine ⟨ram, cr3, memoryMap, fun c some => ?_, fun none => ?_⟩
  · subst some
    exact available
  · subst none
    exact available

theorem allocateFrame_ram {s s' : MemState} {r : Option PhysFrame}
    (taken : allocateFrame s = .ok r s') : s'.ram = s.ram := (allocateFrame_taken taken).ram

theorem allocateFrame_free {s s' : MemState} {c : PhysFrame}
    (taken : allocateFrame s = .ok (some c) s') : c ∈ s.available := by
  rw [(allocateFrame_taken taken).frames c rfl]
  exact Multiset.mem_cons_self c _

theorem deallocateFrame_available (frame : PhysFrame) (s : MemState) :
    ∃ s', deallocateFrame frame s = .ok () s' ∧ s'.ram = s.ram ∧ s'.cr3 = s.cr3 ∧
      s'.frameAllocator.memoryMap = s.frameAllocator.memoryMap ∧
      s'.frameAllocator.next = s.frameAllocator.next ∧
      s'.available = frame ::ₘ s.available :=
  ⟨_, rfl, rfl, rfl, rfl, rfl, rfl⟩

/-- The boot map's promise: usable regions are page-aligned and pairwise disjoint. -/
structure MapAligned (map : List MemoryRegion) : Prop where
  aligned : ∀ r ∈ map, r.kind = .usable → PAGE_SIZE ∣ r.start ∧ PAGE_SIZE ∣ r.stop
  disjoint : (map.filter (·.kind == .usable)).Pairwise fun a b => a.stop ≤ b.start ∨
    b.stop ≤ a.start

theorem MemoryRegion.mem_addresses {r : MemoryRegion} {a : Nat} (h : a ∈ r.addresses) :
    r.start ≤ a ∧ a < r.stop ∧ (PAGE_SIZE ∣ r.start → PAGE_SIZE ∣ a) := by
  obtain ⟨k, hk, rfl⟩ := List.mem_map.mp h
  rw [List.mem_range] at hk
  refine ⟨Nat.le_add_right _ _, ?_, fun h => (Nat.dvd_add_right h).mpr (Nat.dvd_mul_right _ _)⟩
  simp only [PAGE_SIZE] at hk ⊢
  omega

/-- Distinct frames are handed out at distinct positions of the map. -/
theorem usableOf_nodup {map : List MemoryRegion} (h : MapAligned map) :
    (BootInfoFrameAllocator.usableOf map).Nodup := by
  have usable : ∀ r ∈ map.filter (·.kind == .usable), PAGE_SIZE ∣ r.start ∧ r.stop ≤ 2 ^ 52 := by
    intro r hr
    obtain ⟨inMap, kind⟩ := List.mem_filter.mp hr
    have kind : r.kind = .usable := by simpa using kind
    exact ⟨(h.aligned r inMap kind).1, r.physical kind⟩
  have numbered : ∀ a ∈ (map.filter (·.kind == .usable)).flatMap MemoryRegion.addresses,
      a < 2 ^ 52 ∧ PAGE_SIZE ∣ a := by
    intro a ha
    obtain ⟨r, hr, inside⟩ := List.mem_flatMap.mp ha
    have ⟨_, below, aligned⟩ := MemoryRegion.mem_addresses inside
    exact ⟨below.trans_le (usable r hr).2, aligned (usable r hr).1⟩
  have distinct : ((map.filter (·.kind == .usable)).flatMap MemoryRegion.addresses).Nodup := by
    refine List.nodup_flatMap.mpr ⟨fun r _ => ?_, h.disjoint.imp ?_⟩
    · refine List.nodup_range.map fun i j same => ?_
      simp only [PAGE_SIZE] at same
      omega
    · intro r q apart a ha hb
      have ⟨lowA, highA, _⟩ := MemoryRegion.mem_addresses ha
      have ⟨lowB, highB, _⟩ := MemoryRegion.mem_addresses hb
      omega
  refine List.Nodup.map_on (fun a ha b hb same => ?_) distinct
  obtain ⟨boundA, k, rfl⟩ := numbered a ha
  obtain ⟨boundB, m, rfl⟩ := numbered b hb
  have equal := congrArg BitVec.toNat same
  simp only [PhysFrame.containingAddress, PAGE_SIZE, BitVec.toNat_ofNat] at *
  omega

end FerriOS.Memory
