import FerriOS.Kernel.Programs
import FerriOS.Kernel.Footprint
import FerriOS.Memory.FaithfulCopy
import FerriOS.Lib.Processes

/-! # The kernel is a system of processes

Read through the page tables, the tables of the kernel are a world of processes, each with a
space of its own. What the machine does is what processes do.
-/

namespace FerriOS.System

open FerriOS.Lib FerriOS.Memory FerriOS.Loader

/-- What a program finds at an address: the byte, and the flags at each level. -/
abbrev Cell := UInt8 × List PageTableFlags

structure UserSpace where
  cells : Nat → Option Cell
  heapSize : Nat

def cellsOf (ram : PhysMem) (root : PhysFrame) (va : Nat) : Option Cell :=
  if va < 2 ^ 47 then (pageOf ram root va).map fun page => (ram page (pageOffset va),
    flagsOf ram root va) else none

def Kernel.spaceOf (k : Kernel) (i : Nat) : Option UserSpace :=
  (k.roots i).bind fun root => (k.heaps i).map fun heapSize => ⟨cellsOf k.mem.ram root, heapSize⟩

def Process.summary (p : Process) (space : Option UserSpace) : Proc Nat (Option UserSpace) Int where
  parent := p.ppid
  exit := if p.state = .zombie then some p.exitStatus else none
  killed := p.killed
  space := space

def Kernel.slot (k : Kernel) (i : Nat) : Slot Nat (Option UserSpace) Int :=
  match k.processTable i with
  | none => .vacant
  | some p => if p.live then .occupied (p.summary (k.spaceOf i)) else .reaped

/-- The world that the machine keeps. -/
def Machine.world (m : Machine) : World Nat (Option UserSpace) Int :=
  ⟨m.kernel.currentPid, m.kernel.slot⟩

variable {cfg : Config} {m m' : Machine} {k k' : Kernel} {t i j : Nat} {p q c : Process}
  {ram ram' : PhysMem}
  {root parent child : PhysFrame}

/-! ## Reading a space -/

theorem cellsOf_congr (same : ∀ f ∈ userFrames ram root, ram' f = ram f) :
    cellsOf ram' root = cellsOf ram root := by
  have tables : ∀ f ∈ treeTables ram 4 root, ram' f = ram f := fun f member =>
    same f (Multiset.mem_of_le (treeTables_le _ _ _) member)
  funext va
  rw [cellsOf, cellsOf]
  split
  case isFalse => rfl
  case isTrue lower =>
    have flags : flagsOf ram' root va = flagsOf ram root va :=
      flagsAlong_congr (pageIndices_fits lower)
      fun _ _ _ p _ => PhysMem.entry_congr (tables _ (Radix.mem_tables.mpr ⟨_, _, p⟩))
    have page : pageOf ram' root va = pageOf ram root va :=
      Option.ext fun x => by rw [pageOf_path lower, pageOf_path lower, path_congr_iff tables]
    rw [flags, page]
    cases found : pageOf ram root va with
    | none => rw [Option.map_none, Option.map_none]
    | some x => rw [Option.map_some, Option.map_some, same x ((pageOf_path lower).mp found).mem]

/-- A copy reads like the original. -/
theorem cellsOf_mirrors (mirrors : Mirrors ram ram' 4 parent child) :
    cellsOf ram' child = cellsOf ram parent := by
  funext va
  rw [cellsOf, cellsOf]
  split
  case isFalse => rfl
  case isTrue lower =>
    have flags : flagsOf ram' child va = flagsOf ram parent va :=
      mirrors.flagsAlong (pageIndices_fits lower)
    have pages : (pageOf ram' child va).map ram' = (pageOf ram parent va).map ram :=
      mirrors.pages (pageIndices_fits lower) rfl
    have read : ∀ (ram : PhysMem) (page : Option PhysFrame),
      (page.map fun x => (ram x (pageOffset va), flagsOf ram' child va)) =
        (page.map ram).map fun bytes => (bytes (pageOffset va), flagsOf ram' child va) :=
          fun ram page => by
      rw [Option.map_map]
      rfl
    rw [← flags, read, read, pages]

theorem spaceOf_congr (roots : k'.roots i = k.roots i) (heaps : k'.heaps i = k.heaps i)
    (same : ∀ f ∈ spaceAt k.roots k.mem.ram i, k'.mem.ram f = k.mem.ram f) :
    k'.spaceOf i = k.spaceOf i := by
  rw [Kernel.spaceOf, Kernel.spaceOf, roots, heaps]
  cases here : k.roots i with
  | none => rw [Option.bind_none, Option.bind_none]
  | some root =>
      rw [spaceAt_some here] at same
      rw [Option.bind_some, Option.bind_some, cellsOf_congr same]

theorem SameSpaces.spaceOf (same : SameSpaces k k') (i : Nat) : k'.spaceOf i = k.spaceOf i :=
  spaceOf_congr (by rw [same.roots]) (by rw [same.heaps]) fun f _ => by rw [same.ram]

theorem spaceOf_some (entry : k.processTable i = some p) (table : p.pageTable = some root) :
    k.spaceOf i = some ⟨cellsOf k.mem.ram root, p.heapSize⟩ := by
  rw [Kernel.spaceOf, Kernel.roots, Kernel.heaps, entry, Option.bind_some, table, Option.bind_some,
    Option.map_some, Option.map_some]

theorem slot_vacant (vacant : k.processTable i = none) :
    k.slot i = .vacant := by rw [Kernel.slot, vacant]

theorem slot_live (entry : k.processTable i = some p) (live : p.live = true) :
    k.slot i = .occupied (p.summary (k.spaceOf i)) := by
  rw [Kernel.slot, entry]
  exact if_pos live

theorem slot_dead (entry : k.processTable i = some p) (dead : p.live = false) :
    k.slot i = .reaped := by
  rw [Kernel.slot, entry]
  exact if_neg (by rw [dead]; exact Bool.false_ne_true)

theorem slot_congr (entry : k'.processTable i = k.processTable i)
    (same : ∀ f ∈ spaceAt k.roots k.mem.ram i, k'.mem.ram f = k.mem.ram f) :
    k'.slot i = k.slot i := by
  have space : k'.spaceOf i = k.spaceOf i :=
    spaceOf_congr (by rw [Kernel.roots, Kernel.roots, entry])
      (by rw [Kernel.heaps, Kernel.heaps, entry]) same
  rw [Kernel.slot, Kernel.slot, entry, space]

/-! ## What stays -/

theorem Coherent.inside (coh : Coherent k) (here : k.roots j = some root) : j < NPROCESS := by
  rw [Kernel.roots] at here
  cases entry : k.processTable j with
  | none => simp [entry] at here
  | some p =>
      cases live : p.live with
      | true => exact (coh.live j p entry live).inside
      | false =>
          rw [entry, Option.bind_some, (coh.blank j p entry live).1] at here
          cases here

theorem Coherent.inside_of_mem {f : PhysFrame} (coh : Coherent k)
    (member : f ∈ spaceAt k.roots k.mem.ram j) :
    j < NPROCESS := by
  cases here : k.roots j with
  | none =>
      rw [spaceAt_none here] at member
      exact absurd member (Multiset.notMem_zero f)
  | some root => exact coh.inside here

theorem Kept.apart {f : PhysFrame} (kept : Kept cfg m)
    (member : f ∈ spaceAt m.kernel.roots m.kernel.mem.ram j) :
    f ∉ m.kernel.mem.available :=
      kept.separate.apart_available (kept.coherent.inside_of_mem member) member

theorem Kept.apart_other {f : PhysFrame} (kept : Kept cfg m) (here : m.kernel.roots i = some root)
    (other : j ≠ i)
    (member : f ∈ spaceAt m.kernel.roots m.kernel.mem.ram j) :
    f ∉ userFrames m.kernel.mem.ram root + m.kernel.mem.available := by
  have apart := kept.separate.apart (kept.coherent.inside here)
    (kept.coherent.inside_of_mem member) other member
  rwa [spaceAt_some here] at apart

theorem notMem_right {f : PhysFrame} {a b : Multiset PhysFrame} (absent : f ∉ a + b) : f ∉ b :=
  fun member => absent (Multiset.mem_add.mpr (.inr member))

theorem Kept.released {mem' : MemState} (kept : Kept cfg m) (here : m.kernel.roots j = some root)
    (freed : freeUvm root m.kernel.mem = .ok () mem') : Released root m.kernel.mem mem' := by
  have inside := kept.coherent.inside here
  have owned := kept.separate.owned_nodup inside here
  rw [Memory.owned, add_zero] at owned
  exact (freeUvm_spec kernelLaw_noHuge owned (kept.separate.slots j inside root here)).of_ok freed

theorem world_same (m m' : Machine) (current : m'.kernel.currentPid = m.kernel.currentPid)
    (slots : ∀ j, m'.kernel.slot j = m.kernel.slot j) :
    m'.world = m.world := by
  rw [Machine.world, Machine.world, current, funext slots]

theorem world_set (m m' : Machine) (i : Nat) (current : m'.kernel.currentPid = m.kernel.currentPid)
    (others : ∀ j ≠ i, m'.kernel.slot j = m.kernel.slot j) :
    m'.world = m.world.set i (m'.kernel.slot i) := by
  have slots : m'.kernel.slot = Function.update m.kernel.slot i (m'.kernel.slot i) := by
    funext j
    by_cases here : j = i
    · subst here
      rw [Function.update_self]
    · rw [Function.update_of_ne here, others j here]
  rw [World.set, Machine.world, Machine.world, current, ← slots]

theorem Serves.acts (serves : Serves m t i p) :
    m.world.Acts i (p.summary (m.kernel.spaceOf i)) where
  here := serves.toCurrent.currentPid_eq
  slot := slot_live serves.entry serves.live
  running := if_neg (by rw [serves.alive]; exact nofun)

theorem Serves.currentPid_same (serves : Serves m t i p)
    (tid : k'.cpu.currentTid = m.kernel.cpu.currentTid)
    (owner : (k'.threadTable t).pid = (m.kernel.threadTable t).pid) :
    k'.currentPid = m.kernel.currentPid := by
  rw [Kernel.currentPid, Kernel.currentPid, tid, serves.tid, Option.bind_some, Option.bind_some,
    owner]

/-! ## One action, one step -/

theorem exit_run_world (serves : Serves m t i p) (status : Int) (entry : Entry) :
    m.world.Run ((m.setKernel (m.kernel.exited t i p status)).record entry).world := by
  have thread : ((m.kernel.exited t i p status).threadTable t).pid = (m.kernel.threadTable t).pid := by
    rw [Kernel.exited, Kernel.setThread_at]
  have gone : (m.kernel.exited t i p status).processTable i =
      some { p with state := .zombie, exitStatus := status } :=
    Kernel.setProcess_at ..
  have space : (m.kernel.exited t i p status).spaceOf i = m.kernel.spaceOf i := by
    rw [spaceOf_some gone serves.table, spaceOf_some serves.entry serves.table]
    rfl
  have world := world_set m ((m.setKernel (m.kernel.exited t i p status)).record entry) i
    (serves.currentPid_same rfl thread) fun j other =>
    slot_congr (Kernel.setProcess_ne _ other) fun _ _ => rfl
  have here : ((m.setKernel (m.kernel.exited t i p status)).record entry).kernel.slot i =
      .occupied { p.summary (m.kernel.spaceOf i) with exit := some status } := by
    refine (slot_live gone rfl).trans ?_
    rw [space, Process.summary, Process.summary, if_pos rfl]
  rw [world, here]
  exact .single (.exit serves.acts status)

theorem kill_run_world (serves : Serves m t i p) (entry : m.kernel.processTable j = some q) :
    m.world.Run (m.setKernel (m.kernel.setProcess j (some { q with killed := true }))).world := by
  have after : (m.kernel.setProcess j (some { q with killed := true })).processTable j =
      some { q with killed := true } :=
    Kernel.setProcess_at ..
  have space : (m.kernel.setProcess j
    (some { q with killed := true })).spaceOf j = m.kernel.spaceOf j := by
    rw [Kernel.spaceOf, Kernel.spaceOf, Kernel.roots, Kernel.roots, Kernel.heaps, Kernel.heaps,
      after, entry]
    rfl
  have world := world_set m (m.setKernel
    (m.kernel.setProcess j (some { q with killed := true }))) j rfl
    fun u other => slot_congr (Kernel.setProcess_ne _ other) fun _ _ => rfl
  cases live : q.live with
  | true =>
      have marked : (m.setKernel
        (m.kernel.setProcess j (some { q with killed := true }))).kernel.slot j =
          .occupied { q.summary (m.kernel.spaceOf j) with killed := true } := by
        refine (slot_live after live).trans ?_
        rw [space]
        rfl
      rw [world, marked]
      exact .single (.kill serves.acts (slot_live entry live))
  | false =>
      have same : m.world.set j .reaped = m.world := by
        rw [World.set, ← slot_dead entry live]
        exact congrArg (World.mk _) (Function.update_eq_self ..)
      have stays : (m.setKernel
        (m.kernel.setProcess j (some { q with killed := true }))).kernel.slot j = .reaped :=
        slot_dead after live
      rw [world, stays, same]

section

variable (kept : Kept cfg m)

include kept

theorem slot_outside (entry : k'.processTable j = m.kernel.processTable j)
    (outside : ∀ f ∉ m.kernel.mem.available, k'.mem.ram f = m.kernel.mem.ram f) :
    k'.slot j = m.kernel.slot j :=
  slot_congr entry fun f member => outside f (kept.apart member)

theorem slot_other (here : m.kernel.roots i = some root) (other : j ≠ i)
    (entry : k'.processTable j = m.kernel.processTable j)
    (outside : ∀ f ∉ userFrames m.kernel.mem.ram root + m.kernel.mem.available,
    k'.mem.ram f = m.kernel.mem.ram f) :
    k'.slot j = m.kernel.slot j :=
  slot_congr entry fun f member => outside f (kept.apart_other here other member)

theorem moved_run (serves : Serves m t i p) {mem' : MemState}
    (moved : Conserves kernelLaw 4 m.kernel.mem.cr3 0 0 m.kernel.mem mem') :
    m.world.Run (m.setKernel (m.kernel.setMem mem')).world := by
  have whole : owned 4 m.kernel.mem.cr3 0 m.kernel.mem = userFrames m.kernel.mem.ram m.kernel.mem.cr3 + m.kernel.mem.available :=
    add_zero _
  have world := world_set m (m.setKernel (m.kernel.setMem mem')) i rfl fun j other =>
    slot_other kept serves.root other rfl fun f absent => moved.outside f (whole ▸ absent)
  have here : (m.setKernel (m.kernel.setMem mem')).kernel.slot i =
      .occupied (p.summary ((m.kernel.setMem mem').spaceOf i)) :=
    slot_live serves.entry serves.live
  rw [world, here]
  exact .single (.change serves.acts _)

theorem fork_run_world {pid tid : Nat} {mem' : MemState} (kstack parentTf : Nat) (entry : Entry)
    (serves : Serves m t i p)
    (free : m.kernel.freePid = some pid) (freeT : m.kernel.freeTid = some tid)
    (copied : copyUvm m.kernel.mem.cr3 m.kernel.mem = .ok root mem') :
    m.world.Run ((m.setKernel (m.kernel.forked kstack pid tid p parentTf root mem')).record entry).world := by
  obtain ⟨built, mirrors⟩ := (copyUvm_spec kernelLaw_noHuge kept.separate.available_nodup
    (serves.slots kept).linked
    (serves.frames_apart kept)).of_ok copied
  obtain ⟨-, vacant⟩ := freePid_spec free
  have apart : t ≠ tid := by
    rintro rfl
    exact serves.owns.used (freeTid_spec freeT).2
  generalize shape : m.kernel.forked kstack pid tid p parentTf root mem' = k'
  have processes : k'.processTable =
      Function.update m.kernel.processTable pid (some (childProcess pid tid root p)) := by
    rw [← shape]
    rfl
  have mem : k'.mem = mem' := by
    rw [← shape]
    rfl
  have thread : k'.threadTable t = m.kernel.threadTable t := by
    rw [← shape]
    exact (Function.update_of_ne apart ..).trans (Function.update_of_ne apart ..)
  have tidSame : k'.cpu.currentTid = m.kernel.cpu.currentTid := by
    rw [← shape]
    rfl
  have born : k'.processTable pid = some (childProcess pid tid root p) := by rw
    [processes, Function.update_self]
  have world := world_set m ((m.setKernel k').record entry) pid
    (serves.currentPid_same tidSame (congrArg Thread.pid thread)) fun j other =>
      slot_outside kept ((congrFun processes j).trans (Function.update_of_ne other ..))
        fun f absent =>
        (congrFun (congrArg MemState.ram mem) f).trans (built.outside f absent)
  have here : ((m.setKernel k').record entry).kernel.slot pid =
      .occupied ⟨some i, none, false, (p.summary (m.kernel.spaceOf i)).space⟩ := by
    refine (slot_live born rfl).trans ?_
    rw [spaceOf_some born rfl, mem, cellsOf_mirrors mirrors, Process.summary, Process.summary,
      spaceOf_some serves.entry serves.table, ← serves.whole.pid]
    rfl
  rw [world, here]
  exact .single (.fork serves.acts (slot_vacant vacant))

theorem exec_run_world {path image : List UInt8} {argv : List (List UInt8)} {r : Exec}
    {mem' : MemState}
    (frame : Nat)
    (lower : cfg.LowerHalf) (serves : Serves m t i p) (found : cfg.lookup path = some image)
    (prepared : prepareExecImage cfg.mapper image argv m.kernel.mem = .ok r mem') :
    m.world.Run (m.setKernel ((m.kernel.setMem mem').committed t i p frame r)).world := by
  obtain ⟨built, -⟩ := (prepareExecImage_spec cfg.mapper argv (lower path image found).confined
    kept.separate.available_nodup).of_ok prepared
  have thread : (((m.kernel.setMem mem').committed t i p frame r).threadTable t).pid = (m.kernel.threadTable t).pid := by
    rw [Kernel.committed_thread]
    rfl
  have entry : ((m.kernel.setMem mem').committed t i p frame r).processTable i =
      some { p with pageTable := some r.pageTable, heapSize := r.heapSize } :=
        Function.update_self ..
  have world := world_set m (m.setKernel ((m.kernel.setMem mem').committed t i p frame r)) i
    (serves.currentPid_same rfl thread) fun j other =>
      slot_outside kept (Function.update_of_ne other ..) built.outside
  have live : ({ p with pageTable := some r.pageTable, heapSize := r.heapSize } : Process).live = true :=
    serves.live
  have here : (m.setKernel ((m.kernel.setMem mem').committed t i p frame r)).kernel.slot i =
      .occupied (Process.summary _ (((m.kernel.setMem mem').committed t i p frame r).spaceOf i)) :=
        slot_live entry live
  rw [world, here]
  exact .single (.change serves.acts _)

theorem reap_run_world {tid : Nat} {f : PhysFrame} {mem' : MemState} (entry : Entry)
    (serves : Serves m t i p)
    (found : zombieChild i m.kernel = some j) (here : m.kernel.processTable j = some c)
    (owns : Owns m.kernel j c tid)
    (table : c.pageTable = some f) (freed : freeUvm f m.kernel.mem = .ok () mem') :
    m.world.Run ((m.setKernel (m.kernel.released c tid mem')).record entry).world := by
  obtain ⟨z, -, -, here', zombie, parent, place, -, other, -⟩ := serves.child kept found
  obtain rfl := Option.some.inj (here'.symm.trans here)
  have live : z.live = true := Process.live_iff.mpr (.inr zombie)
  have root : m.kernel.roots j = some f := by rw [Kernel.roots, here, Option.bind_some, table]
  have released := kept.released root freed
  have apart : t ≠ tid := by
    rintro rfl
    exact other (Option.some.inj (owns.pid.symm.trans serves.pid))
  have blank : (m.kernel.released z tid mem').processTable j = some .new := by
    rw [← place]
    exact Function.update_self ..
  have world := world_set m ((m.setKernel (m.kernel.released z tid mem')).record entry) j
    (serves.currentPid_same rfl (congrArg Thread.pid (m.kernel.released_ne z mem' apart)))
    fun u apart' =>
      slot_other kept root apart' (Function.update_of_ne (place ▸ apart') ..) released.outside
  have gone : ((m.setKernel (m.kernel.released z tid mem')).record entry).kernel.slot j = .reaped :=
    slot_dead blank rfl
  rw [world, gone]
  have ended : (z.summary (m.kernel.spaceOf j)).exit = some z.exitStatus := if_pos zombie
  exact .single (.reap serves.acts (slot_live here live) parent ended)

end

theorem Action.refines (lower : cfg.LowerHalf) (kept : Kept cfg m) (action : Action cfg m m') :
    m.world.Run m'.world := by
  cases action with
  | quiet quiet =>
      have slots : m'.kernel.slot = m.kernel.slot := funext fun j =>
        slot_congr (by rw [quiet.processes]) fun f _ => by rw [quiet.ram]
      have world : m'.world = { m.world with current := m'.kernel.currentPid } := by
        rw [Machine.world, slots, Machine.world]
      rw [world]
      exact .single (.switch _)
  | returned => exact .refl
  | exit serves => exact exit_run_world serves _ _
  | fork serves _ free freeT _ copied => exact fork_run_world kept _ _ _ serves free freeT copied
  | @forkFails t _ _ pid tid message mem' kstack serves _ _ freeT failed =>
      have lost : Abandoned m.kernel.mem mem' :=
        (copyUvm_spec kernelLaw_noHuge kept.separate.available_nodup
        (serves.slots kept).linked (serves.frames_apart kept)).of_err failed |>.1
      have apart : t ≠ tid := by
        rintro rfl
        exact serves.owns.used (freeTid_spec freeT).2
      rw [world_same m (m.setKernel ((m.kernel.withEmbryo kstack pid tid).setMem mem'))
        (serves.currentPid_same rfl (congrArg Thread.pid (Kernel.setThread_ne _ apart))) fun j =>
          slot_outside kept rfl lost.outside]
  | exec serves _ _ _ found prepared => exact exec_run_world kept _ lower serves found prepared
  | @execFails _ _ _ path image argv message mem' serves _ found failed =>
      have lost : Abandoned m.kernel.mem mem' :=
        (prepareExecImage_spec cfg.mapper argv (lower path image found).confined
        kept.separate.available_nodup).of_err failed
      rw [world_same m (m.setKernel (m.kernel.setMem mem')) rfl fun j =>
        slot_outside kept rfl lost.outside]
  | sbrk serves _ moved => exact moved_run kept serves moved
  | kill serves _ _ entry => exact kill_run_world serves entry
  | reap serves found entry owns table freed =>
      exact reap_run_world kept _ serves found entry owns table freed

theorem Run.refines (lower : cfg.LowerHalf) (run : Run cfg m m') : m.world.Run m'.world := by
  induction run with
  | refl => exact .refl
  | tail _ acts ih => exact ih.trans (acts.action.refines lower acts.before)

theorem Turn.refines (lower : cfg.LowerHalf) (inv : m.Inv cfg) (turn : Turn cfg m m') :
    m.world.Run m'.world := by
  cases turn with
  | step event taken => exact (step_leads lower inv taken).run.refines lower
  | @store t va pc inside allowed byte =>
      have user := inv.user pc
      obtain ⟨i, p, serves⟩ := user.serves
      exact moved_run user.kept serves (serves.store_extends user.kept inside byte).toConserves

end FerriOS.System
