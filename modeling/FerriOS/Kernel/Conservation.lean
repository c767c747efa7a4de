import FerriOS.Kernel.Footprint
import FerriOS.Kernel.Frames

/-! # Frames that are lost

Every step but one keeps the frames of the live processes and of the allocator
together. An `exec` that succeeds drops the page table that it replaces.
-/

namespace FerriOS.System

open FerriOS.Lib FerriOS.Memory FerriOS.Loader

variable {cfg : Config} {m m' m₁ : Machine} {k k' : Kernel} {mem : MemState}
  {creations : List Creation}
  {t i j rsp0 : Nat} {p : Process} {what : Call} {event : Event}

/-- Every frame that the kernel accounts for. -/
def Kernel.frames (k : Kernel) : Multiset PhysFrame := ledger NPROCESS k.roots k.mem

/-- Steps in which every `fork` succeeds and no `exec` is called. -/
def ForksOnly (m : Machine) : Event → Prop
  | .call rsp regs (.fork kstack) => ∃ t child k', m.pc = .user t ∧
      fork kstack (m.calling t rsp regs).kernel = .ok child k'
  | .call _ _ (.exec _ _) => False
  | _ => True

theorem SameSpaces.frames (same : SameSpaces k k') : k'.frames = k.frames := same.ledger_eq

theorem roots_write (q : Process)
    (processes : k'.processTable = Function.update k.processTable j (some q)) :
    k'.roots = Function.update k.roots j q.pageTable :=
  (roots_congr (k := k.setProcess j (some q)) processes).trans (roots_setProcess ..)

/-- The body of a call that is no `exec` and no `fork` that fails. -/
theorem frames_kept (kept : Kept cfg m) (body : Body cfg t what m.kernel k')
    (spared : ∀ path argv, what ≠ .exec path argv)
    (forks : ∀ kstack, what = .fork kstack → ∃ i p child k', Serves m t i p ∧
    fork kstack m.kernel = .ok child k') :
    k'.frames = m.kernel.frames := by
  cases body with
  | same => rfl
  | mem kept =>
      rcases kept with kept | ⟨path, argv, is⟩
      · exact kept
      · exact absurd is (spared path argv)
  | @fork kstack pid tid parentTf root mem' _ parent stack used free freeT tf copied =>
      obtain ⟨i, p, _, _, serves, -⟩ := forks kstack rfl
      have built := ((copyUvm_spec kernelLaw_noHuge kept.separate.available_nodup
        (serves.slots kept).linked (serves.frames_apart kept)).of_ok copied).1
      have vacant : m.kernel.roots pid = none := by rw
        [Kernel.roots, (freePid_spec free).2, Option.bind_none]
      have roots : (m.kernel.forked kstack pid tid parent parentTf root mem').roots =
          Function.update m.kernel.roots pid (some root) :=
            roots_write (childProcess pid tid root parent) rfl
      rw [Kernel.frames, roots]
      exact kept.separate.ledger_build (freePid_inside free) vacant built
  | forkFails stack used freeT failed =>
      obtain ⟨_, _, child, k', -, forked⟩ := forks _ rfl
      cases forked.symm.trans failed
  | exec => exact absurd rfl (spared _ _)
  | @kill pid _ j q entry =>
      have roots : (m.kernel.setProcess j
        (some { q with killed := true })).roots = m.kernel.roots := by
        refine (roots_setProcess ..).trans (Function.update_eq_self_iff.mpr ?_)
        rw [Kernel.roots, entry]
        rfl
      rw [Kernel.frames, roots]
      rfl
  | @reap i _ j z tid f mem' caller found owns zombie other entry table freed =>
      have live : z.live = true := Process.live_iff.mpr (.inr zombie)
      have whole := kept.coherent.live j z entry live
      have root : m.kernel.roots j = some f := by rw [Kernel.roots, entry, Option.bind_some, table]
      have owned := kept.separate.owned_nodup whole.inside root
      have released : Released f m.kernel.mem mem' := (freeUvm_spec kernelLaw_noHuge
        (by rwa [Memory.owned, add_zero] at owned)
          (kept.separate.slots j whole.inside f root)).of_ok freed
      have roots : (m.kernel.released z tid mem').roots = Function.update m.kernel.roots j none := by
        refine roots_write .new ?_
        rw [← whole.pid]
        rfl
      rw [Kernel.frames, roots]
      exact kept.separate.ledger_release whole.inside root released

/-- So does every step in which the forks succeed and nothing is executed. -/
theorem step_frames (lower : cfg.LowerHalf) (inv : m.Inv cfg) (good : ForksOnly m event)
    (taken : step cfg m event = some m') : m'.kernel.frames = m.kernel.frames := by
  have ended : ∀ {t m₁}, EndsFrom t m₁ m' → m'.kernel.frames = m₁.kernel.frames := fun ends => by
    rcases ends with ⟨touches, -⟩ | ⟨same, -⟩
    · exact touches.spaces.frames
    · rw [same]
  cases step_shape lower inv taken with
  | idle kernel => rw [kernel]
  | switch here found switched => exact switched.spaces.frames
  | late here found switched touches => exact touches.spaces.frames.trans switched.spaces.frames
  | tick touches => exact touches.spaces.frames
  | proceed here body ends =>
      refine (ended ends).trans
        (frames_kept inv.1 body (fun _ _ is => nomatch is) fun _ is => nomatch is)
  | @killed t i p rsp regs what here serves killed touches =>
      have entered : (m.syscallEntry rsp regs).kernel.frames = m.kernel.frames := rfl
      exact touches.spaces.frames.trans entered
  | @call t i p what rsp regs m₁ here serves spared body ends =>
      have user := inv.user here
      have calling := user.calling rsp regs
      have entered : (m.calling t rsp regs).kernel.frames = m.kernel.frames := rfl
      refine (ended ends).trans ((frames_kept calling.kept body ?_ ?_).trans entered)
      · rintro path argv rfl
        exact good
      · rintro kstack rfl
        obtain ⟨u, child, k', pc, forked⟩ := good
        obtain rfl : u = t := by
          have same := pc.symm.trans here
          injection same
        exact ⟨i, p, child, k', user.serves_calling rsp regs serves, forked⟩

/-- The boot moves frames from the allocator to address spaces. -/
theorem create_frames (lower : cfg.LowerHalf) (memory : BootMemory mem)
    (created : Prog.each creations (create cfg) (.initial mem rsp0) = .ok () k) :
    k.frames = mem.available := by
  have start : (Kernel.initial mem rsp0).frames = mem.available := by
    rw [Kernel.frames, ledger, spaces, Finset.sum_eq_zero fun i _ => spaceAt_none rfl, zero_add]
    rfl
  refine (Outcome.Sat.of_ok (K := True) (Q := fun _ k => Booted k ∧ k.frames = mem.available)
    (E := fun _ _ => True) ?_
    created).2
  refine Outcome.Sat.each_keep (fun k => Booted k ∧ Kernel.frames k = mem.available) _
    (fun creation _ k kept => ?_) ⟨.initial memory, start⟩
  obtain ⟨booted, same⟩ := kept
  cases creation with
  | kernelThread kstack =>
      rw [create]
      cases made : createKernelThread kstack k with
      | ok _ k' =>
          obtain ⟨tid, -, processes, -, mem', -⟩ := createKernelThread_ok made
          refine ⟨booted.kernelThread made, ?_⟩
          rw [Kernel.frames, roots_congr processes, mem']
          exact same
      | err message k' => trivial
      | panic message => trivial
  | userProcess kstack path =>
      rw [create]
      cases made : createUserProcessFromPath cfg kstack path k with
      | ok _ k' =>
          obtain ⟨image, prepared, mem', pid, tid, found, built, free, -, processes, -, memory',
            -⟩ :=
            createUserProcessFromPath_ok made
          have space := ((prepareExecImage_spec cfg.mapper [] (lower path image found).confined
            booted.separate.available_nodup).of_ok built).1
          have vacant : k.roots pid = none := by rw
            [Kernel.roots, (freePid_spec free).2, Option.bind_none]
          refine ⟨booted.userProcess lower made, ?_⟩
          rw [Kernel.frames, roots_write (startProcess pid tid prepared) processes, memory']
          exact (booted.separate.ledger_build (freePid_inside free) vacant space).trans same
      | err message k' => trivial
      | panic message => trivial

/-- A frame that a live process reaches from its page table, as a table or a page. -/
def Kernel.InUse (k : Kernel) (f : PhysFrame) : Prop :=
  ∃ i root is h, k.livePageTable i = some root ∧ TreePath k.mem.ram 4 root is h f

theorem inUse_iff (coherent : Coherent k) {f : PhysFrame} :
    k.InUse f ↔ f ∈ spaces NPROCESS k.roots k.mem.ram := by
  simp only [Kernel.InUse, ← coherent.roots_eq, spaces, Multiset.mem_sum, Finset.mem_range]
  constructor
  · rintro ⟨i, root, is, h, here, path⟩
    have inside : i < NPROCESS := coherent.root_inside (coherent.roots_eq ▸ here)
    exact ⟨i, inside, spaceAt_some here ▸ path.mem⟩
  · rintro ⟨i, inside, member⟩
    cases here : k.roots i with
    | none =>
        rw [spaceAt_none here] at member
        cases member
    | some root =>
        rw [spaceAt_some here] at member
        obtain ⟨is, h, path⟩ := Radix.mem_nodes.mp member
        exact ⟨i, root, is, h, here, path⟩

/-- In every run in which the forks succeed and nothing is executed, a frame that was
    handed out and is not recycled is in use. -/
theorem no_frame_lost {f : PhysFrame} (lower : cfg.LowerHalf) (memory : BootMemory mem)
    (created : Prog.each creations (create cfg) (.initial mem rsp0) = .ok () k)
    (run : Relation.ReflTransGen
    (fun m m' => ∃ event, ForksOnly m event ∧ step cfg m event = some m') (.start k) m)
    (known : f ∈ mem.available) (out : f ∉ m.kernel.mem.frameAllocator.untouched)
    (gone : f ∉ m.kernel.mem.frameAllocator.recycledFrames) : m.kernel.InUse f := by
  have boots : Boots cfg (.start k) := .intro memory created
  obtain ⟨inv, same⟩ := steps_always (I := fun m => m.kernel.frames = mem.available) lower
    (boots.inv lower)
    (create_frames lower memory created)
    (fun _ _ _ inv good taken same => (step_frames lower inv good taken).trans same) run
  have member : f ∈ m.kernel.frames := same ▸ known
  rw [inUse_iff inv.1.coherent]
  refine (Multiset.mem_add.mp member).resolve_right fun left => ?_
  rcases List.mem_append.mp (Multiset.mem_coe.mp left) with recycled | untouched
  · exact gone recycled
  · exact out untouched

theorem running_steps : ∃ mem k m₁ m, BootMemory mem ∧
    Prog.each [.userProcess 1 barePath] (create bareConfig) (.initial mem 0) = .ok () k ∧
      step bareConfig (.start k) .schedule = some m₁ ∧ step bareConfig m₁ .proceed = some m ∧
        Shows bareConfig m .running := by
  have fits : 40 + BARE_FRAMES ≤ 2 ^ 30 := by decide
  obtain ⟨k, created, boots, shown⟩ := boots_bare 40 fits
  obtain ⟨m₁, scheduled, shown₁⟩ := shown.schedule bareConfig_lower rfl (n := 0) (by decide)
  obtain ⟨m, proceeded, shown₂⟩ := shown₁.proceed rfl (by decide)
  exact ⟨_, k, m₁, m, bareMemory_boot fits, created, scheduled, proceeded, shown₂⟩

/-- The frame of the page table that is loaded was handed out, and is not recycled. -/
theorem running_root (memory : BootMemory mem)
    (created : Prog.each creations (create bareConfig) (.initial mem rsp0) = .ok () k)
    (run : Relation.ReflTransGen
      (fun m m' => ∃ event, ForksOnly m event ∧ step bareConfig m event = some m') (.start k) m)
    (pc : m.pc = .user t) :
    m.kernel.mem.cr3 ∈ mem.available ∧ m.kernel.mem.cr3 ∉ m.kernel.mem.available := by
  have boots : Boots bareConfig (.start k) := .intro memory created
  obtain ⟨inv, same⟩ := steps_always
    (I := fun m => m.kernel.frames = mem.available) bareConfig_lower
    (boots.inv bareConfig_lower) (create_frames bareConfig_lower memory created)
    (fun _ _ _ inv good taken same => (step_frames bareConfig_lower inv good taken).trans same) run
  obtain ⟨i, p, serves⟩ := (inv.user pc).serves
  refine ⟨?_, serves.frames_apart inv.1 _ (Radix.root_mem 4 _)⟩
  rw [← same]
  refine Multiset.mem_add.mpr (.inl (Multiset.mem_of_le (spaceAt_le serves.inside _) ?_))
  rw [spaceAt_some serves.root]
  exact Radix.root_mem 4 _

/-- The forks of a plan succeed, and it executes nothing. -/
theorem Shows.forksOnly {v v' : Scene} {move : Move} (shown : Shows cfg m v) (lower : cfg.LowerHalf)
    (next : v.next move = some v') : ForksOnly m (move.event 1) := by
  cases move with
  | fork =>
      obtain ⟨t, here⟩ : ∃ t, v.pc = .user t := by
        cases here : v.pc with
        | user t => exact ⟨t, rfl⟩
        | _ => simp [Scene.next, here] at next
      obtain ⟨acts, taken⟩ := Scene.next_user here next
      simp only [Scene.act, Option.ite_none_right_eq_some] at taken
      obtain ⟨user, -, -, -, -, -, p, serves, -⟩ := shown.running lower here acts
      obtain ⟨root, mem', copied, -⟩ := shown.copies serves user.kept taken.1.2
      obtain ⟨parentTf, run⟩ :=
        shown.fork_ok lower user serves taken.1.1 Nat.one_ne_zero copied
      exact ⟨t, _, _, shown.pc.trans here, run⟩
  | schedule => trivial
  | proceed => trivial
  | tick => trivial
  | exit => trivial
  | kill pid => trivial
  | wait => trivial

/-- Behind a fork and a tick, the root of the child is in use. -/
theorem no_frame_lost_child : ∃ mem k m, BootMemory mem ∧
    Prog.each [.userProcess 1 barePath] (create bareConfig) (.initial mem 0) = .ok () k ∧
      Relation.ReflTransGen (fun m m' => ∃ event, ForksOnly m event ∧
        step bareConfig m event = some m') (.start k) m ∧ m.pc = .user 1 ∧
        m.kernel.mem.cr3 ∈ mem.available ∧ m.kernel.InUse m.kernel.mem.cr3 := by
  have fits : 40 + BARE_FRAMES ≤ 2 ^ 30 := by decide
  obtain ⟨k, created, -, shown⟩ := boots_bare 40 fits
  obtain ⟨m, shown', run⟩ := shown.follow_runs bareConfig_lower childPlan_follow
    fun _ _ _ _ _ next here => here.forksOnly bareConfig_lower next
  obtain ⟨known, gone⟩ := running_root (bareMemory_boot fits) created run shown'.pc
  refine ⟨_, k, m, bareMemory_boot fits, created, run, shown'.pc, known,
    no_frame_lost bareConfig_lower (bareMemory_boot fits) created run known ?_ ?_⟩
  · exact fun member => gone (Multiset.mem_coe.mpr (List.mem_append_right _ member))
  · exact fun member => gone (Multiset.mem_coe.mpr (List.mem_append_left _ member))

/-- The page table of a process that executes a program is lost, and the frames below it. -/
theorem exec_loses_frames : ∃ mem k m₁ m₂ m k' f, BootMemory mem ∧
    Prog.each [.userProcess 1 barePath] (create bareConfig) (.initial mem 0) = .ok () k ∧
      step bareConfig (.start k) .schedule = some m₁ ∧ step bareConfig m₁ .proceed = some m₂ ∧
        step bareConfig m₂ (.call 0 .new (.exec barePath [])) = some m ∧
          exec bareConfig barePath [] (m₂.calling 0 0 .new).kernel = .ok () k' ∧ f ∈ mem.available ∧
            f ∉ m.kernel.mem.frameAllocator.untouched ∧
              f ∉ m.kernel.mem.frameAllocator.recycledFrames ∧
              ¬ m.kernel.InUse f := by
  obtain ⟨mem, k, m₁, m₂, memory, created, scheduled, proceeded, shown⟩ := running_steps
  obtain ⟨user, -, -, -, -, -, p, serves, spared, -⟩ :=
    shown.running bareConfig_lower rfl (by decide)
  have calling := user.calling 0 .new
  have serves' := user.serves_calling 0 .new serves
  obtain ⟨frame, tf⟩ := Option.ne_none_iff_exists'.mp serves'.owns.tf
  have enough : BARE_FRAMES ≤ Multiset.card (m₂.calling 0 0 .new).kernel.mem.available := by
    have frames : Multiset.card (m₂.calling 0 0 .new).kernel.mem.available = 40 := shown.frames
    rw [frames]
    decide
  obtain ⟨r, mem', prepared, -⟩ := prepareExecImage_bare bareImage_bare bareConfig.mapper
    calling.kept.separate.available_nodup enough
  have found : bareConfig.lookup barePath = some bareImage := rfl
  have built := ((prepareExecImage_spec bareConfig.mapper [] (bareConfig_lower _ _ found).confined
    calling.kept.separate.available_nodup).of_ok prepared).1
  have run : exec bareConfig barePath [] (m₂.calling 0 0 .new).kernel = _ :=
    exec_run serves'.toCurrent tf barePath []
  simp only [found, prepared] at run
  have called := shown.call_step bareConfig_lower rfl (by decide) (.exec barePath [])
  obtain ⟨m₃, shape⟩ : ∃ m₃, m₃ = (m₂.calling 0 0 .new).setKernel
    (((m₂.calling 0 0 .new).kernel.setMem mem').committed 0 0 p frame r) := ⟨_, rfl⟩
  have body : (m₂.calling 0 0 .new).dispatch bareConfig 0 0 (.exec barePath []) =
      m₃.finish 0 (.exec barePath []) 0 (.value 0) := by
    rw [Machine.dispatch, Prog.bind_run, run, shape]
    rfl
  have thread := Kernel.committed_thread ((m₂.calling 0 0 .new).kernel.setMem mem') 0 0 p frame r
  have table : m₃.kernel.processTable = Function.update m₂.kernel.processTable 0
      (some { p with pageTable := some r.pageTable, heapSize := r.heapSize }) := by
    rw [shape]
    rfl
  have cur : Current m₃.kernel 0 0
    { p with pageTable := some r.pageTable, heapSize := r.heapSize } := by
    refine ⟨shape ▸ serves'.tid, serves'.bound, ?_,
      serves'.inside, by rw [table, Function.update_self]⟩
    rw [shape]
    exact (congrArg Thread.pid thread).trans serves'.pid
  obtain ⟨kernel, -⟩ := finish_run (.exec barePath []) 0 (.value 0) cur spared
  rw [body] at called
  obtain ⟨known, apart⟩ := running_root memory created
    (.tail (.tail .refl ⟨.schedule, trivial, scheduled⟩) ⟨.proceed, trivial, proceeded⟩) shown.pc
  have taken : ∀ f ∈ userFrames mem'.ram r.pageTable + mem'.available,
    f ∈ m₂.kernel.mem.available := fun f member => by
    rw [built.ledger] at member
    exact member
  have left : (m₃.finish 0 (.exec barePath []) 0
    (.value 0)).kernel.mem.available = mem'.available := by
    rw [kernel, shape]
    rfl
  have gone : m₂.kernel.mem.cr3 ∉
    (m₃.finish 0 (.exec barePath []) 0 (.value 0)).kernel.mem.available := fun member =>
    apart (taken _ (Multiset.mem_add.mpr (.inr (left ▸ member))))
  refine ⟨mem, k, m₁, m₂, _, _, m₂.kernel.mem.cr3, memory, created, scheduled, proceeded, called,
    run, known, ?_, ?_, ?_⟩
  · exact fun member => gone (Multiset.mem_coe.mpr (List.mem_append_right _ member))
  · exact fun member => gone (Multiset.mem_coe.mpr (List.mem_append_left _ member))
  · rintro ⟨i, root, is, h, here, path⟩
    have only : i = 0 := by
      by_contra other
      have absent := shown.members i
      rw [List.getElem?_eq_none (by simp only [Scene.running, List.length_singleton]; omega),
        Option.map_eq_none_iff] at absent
      rw [Kernel.livePageTable, kernel, table, Function.update_of_ne other, absent] at here
      cases here
    subst only
    have live : ({ p with pageTable := some r.pageTable, heapSize := r.heapSize } : Process).live = true :=
      Process.live_iff.mpr (.inl serves.alive)
    rw [Kernel.livePageTable, kernel, table, Function.update_self, Option.bind_some,
      if_pos live] at here
    obtain rfl := Option.some.inj here
    have ram : (m₃.finish 0 (.exec barePath []) 0 (.value 0)).kernel.mem.ram = mem'.ram := by
      rw [kernel, shape]
      rfl
    rw [ram] at path
    exact apart (taken _ (Multiset.mem_add.mpr (.inl path.mem)))

end FerriOS.System
