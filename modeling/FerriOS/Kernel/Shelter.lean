import FerriOS.Kernel.Lifetimes
import FerriOS.Kernel.Conservation

/-! # The kernel's own memory

Frames that are not usable at the boot belong to the kernel: its code and data, the page
table of the boot loader and the devices. Page tables of processes share its half.
-/

namespace FerriOS.System

open FerriOS.Lib FerriOS.Memory FerriOS.Loader

/-- Frames of processes were usable at the boot, the others are as they were, and the
    kernel half of every page table is that of the boot loader. -/
structure Sheltered (boot : MemState) (k : Kernel) : Prop where
  spaces : ∀ i, ∀ f ∈ spaceAt k.roots k.mem.ram i, f ∈ boot.available
  available : ∀ f ∈ k.mem.available, f ∈ boot.available
  ram : ∀ f ∉ boot.available, k.mem.ram f = boot.ram f
  kernelHalf : ∀ i root, k.roots i = some root → ∀ e, 256 ≤ e → e < 512 →
    k.mem.ram.entry root e = boot.ram.entry boot.cr3 e

variable {cfg : Config} {m m' : Machine} {k k' : Kernel} {boot mem mem' : MemState} {rsp0 : Nat}
  {creations : List Creation}
  {i j t : Nat} {p : Process} {root : PhysFrame}

namespace Sheltered

variable (sheltered : Sheltered boot k)

include sheltered

theorem congr (roots : k'.roots = k.roots) (ram : k'.mem.ram = k.mem.ram)
    (available : k'.mem.available = k.mem.available) : Sheltered boot k' where
  spaces := by
    rw [roots, ram]
    exact sheltered.spaces
  available := by
    rw [available]
    exact sheltered.available
  ram := by
    rw [ram]
    exact sheltered.ram
  kernelHalf := by
    rw [roots, ram]
    exact sheltered.kernelHalf

variable (separate : Separate kernelLaw NPROCESS k.roots k.mem)
  (inside : ∀ j root, k.roots j = some root → j < NPROCESS)

include separate inside

/-- A routine that writes the frames of `i` and of the allocator. -/
theorem change (here : i < NPROCESS) (entries : ∀ j ≠ i, k'.roots j = k.roots j)
    (outside : ∀ f ∉ spaceAt k.roots k.mem.ram i + k.mem.available, k'.mem.ram f = k.mem.ram f)
    (ledger : ∀ f ∈ spaceAt k'.roots k'.mem.ram i + k'.mem.available,
    f ∈ spaceAt k.roots k.mem.ram i + k.mem.available)
    (upper : ∀ root, k'.roots i = some root → ∀ e, 256 ≤ e → e < 512 →
    k'.mem.ram.entry root e = boot.ram.entry boot.cr3 e) :
    Sheltered boot k' := by
  have known : ∀ f ∈ spaceAt k.roots k.mem.ram i + k.mem.available, f ∈ boot.available :=
    fun f member =>
    (Multiset.mem_add.mp member).elim (sheltered.spaces i f) (sheltered.available f)
  have apart : ∀ j ≠ i, ∀ f ∈ spaceAt k.roots k.mem.ram j, k'.mem.ram f = k.mem.ram f := by
    intro j other f member
    have insideJ : j < NPROCESS := by
      cases is : k.roots j with
      | none =>
          rw [spaceAt_none is] at member
          cases member
      | some root => exact inside j root is
    exact outside f (separate.apart here insideJ other member)
  constructor
  case spaces =>
    intro j f member
    by_cases other : j = i
    · subst other
      exact known f (ledger f (Multiset.mem_add.mpr (.inl member)))
    · rw [spaceAt_congr (entries j other) (apart j other)] at member
      exact sheltered.spaces j f member
  case available => exact fun f member => known f (ledger f (Multiset.mem_add.mpr (.inr member)))
  case ram => exact fun f absent =>
    (outside f fun member => absent (known f member)).trans (sheltered.ram f absent)
  case kernelHalf =>
    intro j root is e lower upper'
    by_cases other : j = i
    · subst other
      exact upper root is e lower upper'
    · rw [entries j other] at is
      rw [PhysMem.entry_congr (apart j other root (Separate.root_mem is))]
      exact sheltered.kernelHalf j root is e lower upper'

theorem conserve (here : k.roots i = some root) (step : Conserves kernelLaw 4 root 0 0 k.mem mem') :
    Sheltered boot (k.setMem mem') := by
  have shape : ∀ s : MemState, owned 4 root 0 s = spaceAt k.roots s.ram i + s.available :=
    fun s => by
    rw [owned, add_zero, spaceAt_some here]
  refine sheltered.change separate inside (inside i root here) (fun _ _ => rfl)
    (fun f absent => step.outside f (shape k.mem ▸ absent))
    (fun f member => shape k.mem ▸ step.ledger ▸ shape mem' ▸ member)
    fun root' here' e lower upper => ?_
  obtain rfl := Option.some.inj (here.symm.trans here')
  rw [← sheltered.kernelHalf i root here e lower upper]
  exact step.upper (by decide) e (by rw [mem_userFan, if_pos rfl]; omega)

theorem abandon (lost : Abandoned k.mem mem') (roots : k'.roots = k.roots)
    (memory : k'.mem = mem') :
    Sheltered boot k' := by
  subst memory
  have kept : ∀ j, ∀ f ∈ spaceAt k.roots k.mem.ram j, k'.mem.ram f = k.mem.ram f := by
    intro j f member
    cases is : k.roots j with
    | none =>
        rw [spaceAt_none is] at member
        cases member
    | some root => exact lost.outside f (separate.apart_available (inside j root is) member)
  constructor
  case spaces =>
    intro j f member
    rw [spaceAt_congr (congrFun roots j) (kept j)] at member
    exact sheltered.spaces j f member
  case available => exact fun f member =>
    sheltered.available f (Multiset.mem_of_le lost.available member)
  case ram =>
    exact fun f absent => (lost.outside f fun member => absent (sheltered.available f member)).trans
      (sheltered.ram f absent)
  case kernelHalf =>
    intro j root is e lower upper
    rw [roots] at is
    rw [PhysMem.entry_congr (kept j root (Separate.root_mem is))]
    exact sheltered.kernelHalf j root is e lower upper

/-- A new space shares the kernel half of the one that is loaded. -/
theorem build (here : i < NPROCESS) (built : Built kernelLaw root k.mem mem')
    (other : root ≠ k.mem.cr3)
    (loaded : ∀ e, 256 ≤ e → e < 512 → k.mem.ram.entry k.mem.cr3 e = boot.ram.entry boot.cr3 e)
    (roots : k'.roots = Function.update k.roots i (some root)) (ram : k'.mem.ram = mem'.ram)
    (available : k'.mem.available = mem'.available) : Sheltered boot k' := by
  have is : k'.roots i = some root := by rw [roots, Function.update_self]
  refine sheltered.change separate inside here
    (fun j apart => by rw [roots, Function.update_of_ne apart])
    (fun f absent => ?_)
    (fun f member => ?_) fun root' here' e lower upper => ?_
  · rw [ram]
    exact built.outside f (notMem_right absent)
  · rw [spaceAt_some is, ram, available, built.ledger] at member
    exact Multiset.mem_add.mpr (.inr member)
  · obtain rfl := Option.some.inj (is.symm.trans here')
    rw [ram]
    exact (built.kernel other e lower upper).trans (loaded e lower upper)

theorem release (here : k.roots i = some root) (freed : Released root k.mem mem')
    (roots : k'.roots = Function.update k.roots i none) (memory : k'.mem = mem') :
    Sheltered boot k' := by
  subst memory
  have gone : k'.roots i = none := by rw [roots, Function.update_self]
  refine sheltered.change separate inside (inside i root here)
    (fun j apart => by rw [roots, Function.update_of_ne apart])
    (fun f absent => freed.outside f (spaceAt_some here ▸ absent)) (fun f member => ?_)
    fun root' here' => ?_
  · rw [spaceAt_none gone, zero_add, freed.available] at member
    rwa [spaceAt_some here]
  · cases gone.symm.trans here'

end Sheltered

theorem built_root (built : Built kernelLaw root mem mem') : root ∈ mem.available := by
  rw [← built.ledger]
  exact Multiset.mem_add.mpr (.inl (Radix.root_mem 4 root))

theorem Action.sheltered (lower : cfg.LowerHalf) (kept : Kept cfg m) (action : Action cfg m m')
    (sheltered : Sheltered boot m.kernel) : Sheltered boot m'.kernel := by
  have inside : ∀ j root, m.kernel.roots j = some root → j < NPROCESS :=
    fun j root here => kept.coherent.inside here
  -- A table that is new is not the one that is loaded.
  have fresh : ∀ {t i p root mem'}, Serves m t i p → Built kernelLaw root m.kernel.mem mem' →
    root ≠ m.kernel.mem.cr3 := by
    rintro t i p root mem' serves built rfl
    exact kept.separate.apart_available serves.inside (Separate.root_mem serves.root)
      (built_root built)
  cases action with
  | quiet quiet =>
      have available : m'.kernel.mem.available = m.kernel.mem.available := by
        rw [MemState.available, MemState.available, quiet.allocator]
      exact sheltered.congr (roots_congr quiet.processes) quiet.ram available
  | returned => exact sheltered
  | @exit t i p status serves =>
      refine sheltered.congr ((roots_write
        { p with state := .zombie, exitStatus := status } rfl).trans ?_) rfl rfl
      exact Function.update_eq_self_iff.mpr (serves.table.trans serves.root.symm)
  | @fork t i p pid tid parentTf root mem' kstack serves spared free freeT tf copied =>
      obtain ⟨built, -⟩ := (copyUvm_spec kernelLaw_noHuge kept.separate.available_nodup
        (serves.slots kept).linked
        (serves.frames_apart kept)).of_ok copied
      exact sheltered.build kept.separate inside (freePid_inside free) built (fresh serves built)
        (sheltered.kernelHalf i m.kernel.mem.cr3 serves.root)
          (roots_write (childProcess pid tid root p) rfl) rfl rfl
  | forkFails serves _ _ _ failed =>
      exact sheltered.abandon kept.separate inside
        ((copyUvm_spec kernelLaw_noHuge kept.separate.available_nodup
        (serves.slots kept).linked (serves.frames_apart kept)).of_err failed).1 rfl rfl
  | @exec t i p frame path image argv r mem' serves _ _ tf found prepared =>
      obtain ⟨built, -⟩ := (prepareExecImage_spec cfg.mapper argv (lower path image found).confined
        kept.separate.available_nodup).of_ok prepared
      exact sheltered.build kept.separate inside serves.inside built (fresh serves built)
        (sheltered.kernelHalf i m.kernel.mem.cr3 serves.root)
        (roots_write { p with pageTable := some r.pageTable, heapSize := r.heapSize } rfl) rfl rfl
  | @execFails _ _ _ path image argv message mem' serves _ found failed =>
      exact sheltered.abandon kept.separate inside
        ((prepareExecImage_spec cfg.mapper argv (lower path image found).confined
        kept.separate.available_nodup).of_err failed) rfl rfl
  | sbrk serves _ moved => exact sheltered.conserve kept.separate inside serves.root moved
  | @kill t i p j q serves _ _ entry =>
      refine sheltered.congr ((roots_setProcess ..).trans
        (Function.update_eq_self_iff.mpr ?_)) rfl rfl
      rw [Kernel.roots, entry]
      rfl
  | @reap t i p j c tid f mem' serves found entry owns table freed =>
      have root : m.kernel.roots j = some f := by rw [Kernel.roots, entry, Option.bind_some, table]
      obtain ⟨z, -, -, here, -, -, place, -, -, -⟩ := serves.child kept found
      obtain rfl := Option.some.inj (here.symm.trans entry)
      refine sheltered.release kept.separate inside root (kept.released root freed) ?_ rfl
      exact (roots_write .new (j := z.pid) rfl).trans (by rw [place]; rfl)

theorem Turn.sheltered (lower : cfg.LowerHalf) (inv : m.Inv cfg) (turn : Turn cfg m m')
    (sheltered : Sheltered boot m.kernel) : Sheltered boot m'.kernel := by
  cases turn with
  | step event taken =>
      have run := (step_leads lower inv taken).run
      clear taken
      induction run with
      | refl => exact sheltered
      | tail _ acts ih => exact acts.action.sheltered lower acts.before ih
  | @store t va pc here allowed byte =>
      have user := inv.user pc
      obtain ⟨i, p, serves⟩ := user.serves
      exact sheltered.conserve user.kept.separate
        (fun j root here => user.kept.coherent.inside here) serves.root
        (serves.store_extends user.kept here byte).toConserves

/-- The boot code gives every process the kernel half of the boot loader. -/
theorem create_sheltered (lower : cfg.LowerHalf) (memory : BootMemory boot)
    (apart : boot.cr3 ∉ boot.available)
    (created : Prog.each creations (create cfg) (.initial boot rsp0) = .ok () k) :
    Sheltered boot k := by
  have start : Sheltered boot (.initial boot rsp0) := by
    refine ⟨fun i f member => ?_, fun f member => member, fun f _ => rfl, fun i root here => ?_⟩
    · rw [spaceAt_none rfl] at member
      cases member
    · cases here
  refine (Outcome.Sat.of_ok (K := True)
    (Q := fun _ k => Booted k ∧ k.mem.cr3 = boot.cr3 ∧ Sheltered boot k)
    (E := fun _ _ => True) ?_ created).2.2
  refine Outcome.Sat.each_keep (fun k => Booted k ∧ k.mem.cr3 = boot.cr3 ∧ Sheltered boot k) _
    (fun creation _ k kept => ?_) ⟨.initial memory, rfl, start⟩
  obtain ⟨booted, cr3, sheltered⟩ := kept
  cases creation with
  | kernelThread kstack =>
      rw [create]
      cases made : createKernelThread kstack k with
      | ok _ k' =>
          obtain ⟨tid, -, processes, -, mem', -⟩ := createKernelThread_ok made
          exact ⟨booted.kernelThread made, by rw [mem', cr3],
            sheltered.congr (roots_congr processes) (by rw [mem']) (by rw [mem'])⟩
      | err message k' => trivial
      | panic message => trivial
  | userProcess kstack path =>
      rw [create]
      cases made : createUserProcessFromPath cfg kstack path k with
      | ok _ k' =>
          obtain ⟨image, prepared, mem', pid, tid, found, done, free, -, processes, -, memory',
            -⟩ :=
            createUserProcessFromPath_ok made
          have built := ((prepareExecImage_spec cfg.mapper [] (lower path image found).confined
            booted.separate.available_nodup).of_ok done).1
          refine ⟨booted.userProcess lower made, by rw [memory', built.cr3, cr3], ?_⟩
          refine sheltered.build booted.separate (fun j root here => booted.coherent.inside here)
            (freePid_inside free) built ?_ ?_
            (roots_write (startProcess pid tid prepared) processes) (by rw [memory'])
              (by rw [memory'])
          · rw [cr3]
            intro is
            exact apart (is ▸ sheltered.available _ (built_root built))
          · rw [cr3, PhysMem.entry_congr (sheltered.ram _ apart)]
            exact fun _ _ _ => rfl
      | err message k' => trivial
      | panic message => trivial

theorem turns_sheltered (lower : cfg.LowerHalf) (memory : BootMemory boot)
    (apart : boot.cr3 ∉ boot.available)
    (created : Prog.each creations (create cfg) (.initial boot rsp0) = .ok () k)
    (turns : Relation.ReflTransGen (Turn cfg) (.start k) m) :
    m.Inv cfg ∧ Sheltered boot m.kernel := by
  have boots : Boots cfg (.start k) := .intro memory created
  induction turns with
  | refl => exact ⟨boots.inv lower, create_sheltered lower memory apart created⟩
  | tail _ turn ih => exact ⟨turn.inv lower ih.1, turn.sheltered lower ih.1 ih.2⟩

theorem bareMemory_apart {n : Nat} (fits : n ≤ 2 ^ 30) :
    (bareMemory n fits).cr3 ∉ (bareMemory n fits).available := by
  intro member
  have length : (PAGE_SIZE * n + (PAGE_SIZE - 1)) / PAGE_SIZE = n := by
    simp only [PAGE_SIZE]
    omega
  obtain ⟨i, below, is⟩ : ∃ i, i < n ∧
    PhysFrame.containingAddress (0x10_0000 + PAGE_SIZE * i) = 1 := by
    simpa [MemState.available, BootInfoFrameAllocator.available, BootInfoFrameAllocator.untouched,
      bareMemory,
      BootInfoFrameAllocator.usableFrames, BootInfoFrameAllocator.usableOf, MemoryRegion.addresses,
        length] using member
  have frame : (PhysFrame.containingAddress (0x10_0000 + PAGE_SIZE * i)).toNat = 1 := by
    rw [is]
    rfl
  simp only [PhysFrame.containingAddress, PAGE_SIZE, BitVec.toNat_ofNat] at frame
  omega

/-- Whatever programs do, memory that was not usable at the boot is never written, and no
    program has such a frame in its address space. -/
theorem kernel_memory_untouched (lower : cfg.LowerHalf) (memory : BootMemory boot)
    (apart : boot.cr3 ∉ boot.available)
    (created : Prog.each creations (create cfg) (.initial boot rsp0) = .ok () k)
    (turns : Relation.ReflTransGen (Turn cfg) (.start k) m) :
    (∀ f ∉ boot.available, m.kernel.mem.ram f = boot.ram f) ∧
      ∀ i root va page, m.kernel.roots i = some root → va < 2 ^ 47 →
        pageOf m.kernel.mem.ram root va = some page →
        page ∈ boot.available := by
  obtain ⟨-, sheltered⟩ := turns_sheltered lower memory apart created turns
  refine ⟨sheltered.ram, fun i root va page here inside reached => sheltered.spaces i page ?_⟩
  rw [spaceAt_some here]
  exact ((pageOf_path inside).mp reached).mem

theorem childPlan_turns : ∃ boot k m, BootMemory boot ∧ boot.cr3 ∉ boot.available ∧
    Prog.each [.userProcess 1 barePath] (create bareConfig) (.initial boot 0) = .ok () k ∧
      Relation.ReflTransGen (Turn bareConfig) (.start k) m ∧ Shows bareConfig m .child := by
  have fits : 40 + BARE_FRAMES ≤ 2 ^ 30 := by decide
  obtain ⟨k, created, -, shown⟩ := boots_bare 40 fits
  obtain ⟨m, shown', turns⟩ := shown.turns childPlan_follow
  exact ⟨_, k, m, bareMemory_boot fits, bareMemory_apart fits, created, turns, shown'⟩

theorem kernel_memory_untouched_child : ∃ boot k m, BootMemory boot ∧ boot.cr3 ∉ boot.available ∧
    Prog.each [.userProcess 1 barePath] (create bareConfig) (.initial boot 0) = .ok () k ∧
      Relation.ReflTransGen (Turn bareConfig) (.start k) m ∧ m.pc = .user 1 ∧
      (∀ f ∉ boot.available, m.kernel.mem.ram f = boot.ram f) ∧
        ∀ i root va page, m.kernel.roots i = some root → va < 2 ^ 47 →
          pageOf m.kernel.mem.ram root va = some page →
          page ∈ boot.available := by
  obtain ⟨boot, k, m, memory, apart, created, turns, shown⟩ := childPlan_turns
  exact ⟨boot, k, m, memory, apart, created, turns, shown.pc,
    kernel_memory_untouched bareConfig_lower memory apart created turns⟩

/-- The kernel half of all page tables is the same, in every state of every run, and so is
    that of the table that is loaded when a program runs. -/
theorem kernel_half_shared (lower : cfg.LowerHalf) (memory : BootMemory boot)
    (apart : boot.cr3 ∉ boot.available)
    (created : Prog.each creations (create cfg) (.initial boot rsp0) = .ok () k)
    (turns : Relation.ReflTransGen (Turn cfg) (.start k) m) (e : Nat) (above : 256 ≤ e)
    (inside : e < 512) :
    (∀ i root, m.kernel.roots i = some root →
    m.kernel.mem.ram.entry root e = boot.ram.entry boot.cr3 e) ∧
      ∀ t, m.pc = .user t → m.kernel.mem.ram.entry m.kernel.mem.cr3 e = boot.ram.entry boot.cr3 e := by
  obtain ⟨inv, sheltered⟩ := turns_sheltered lower memory apart created turns
  refine ⟨fun i root here => sheltered.kernelHalf i root here e above inside, fun t pc => ?_⟩
  obtain ⟨i, p, serves⟩ := (inv.user pc).serves
  exact sheltered.kernelHalf i _ serves.root e above inside

theorem kernel_half_shared_child : ∃ boot k m, BootMemory boot ∧ boot.cr3 ∉ boot.available ∧
    Prog.each [.userProcess 1 barePath] (create bareConfig) (.initial boot 0) = .ok () k ∧
      Relation.ReflTransGen (Turn bareConfig) (.start k) m ∧ m.pc = .user 1 ∧
      (∀ i root, m.kernel.roots i = some root →
        m.kernel.mem.ram.entry root 511 = boot.ram.entry boot.cr3 511) ∧
          m.kernel.mem.ram.entry m.kernel.mem.cr3 511 = boot.ram.entry boot.cr3 511 := by
  obtain ⟨boot, k, m, memory, apart, created, turns, shown⟩ := childPlan_turns
  obtain ⟨tables, loaded⟩ :=
    kernel_half_shared bareConfig_lower memory apart created turns 511 (by decide) (by decide)
  exact ⟨boot, k, m, memory, apart, created, turns, shown.pc, tables, loaded 1 shown.pc⟩

end FerriOS.System
