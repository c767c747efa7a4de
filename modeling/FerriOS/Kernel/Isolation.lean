import FerriOS.Kernel.Refinement

/-! # Isolation

A process alone writes to its memory. In one step the kernel may serve a call, end the
process and leave the thread, and all the other spaces stay what they are.
-/

namespace FerriOS.System

open FerriOS.Lib FerriOS.Memory FerriOS.Loader

/-- `i` has the child `j`. -/
def Kernel.Parent (k : Kernel) (i j : Nat) : Prop :=
  ∃ z, k.processTable j = some z ∧ z.ppid = some i

/-- The spaces of the processes but `i` stay, but for those of its children that go away. -/
def Spares (i : Nat) (k k' : Kernel) : Prop :=
  ∀ j ≠ i, k.spaceOf j ≠ none → k'.spaceOf j = k.spaceOf j ∨ (k'.spaceOf j = none ∧ k.Parent i j)

variable {cfg : Config} {m m' m₁ : Machine} {k k' k'' : Kernel} {t i j : Nat} {p q c : Process}
  {root : PhysFrame}

namespace Spares

theorem refl : Spares i k k := fun _ _ _ => .inl rfl

theorem of_same (same : ∀ j ≠ i, k'.spaceOf j = k.spaceOf j) : Spares i k k' :=
    fun j other _ => .inl (same j other)

theorem after (spares : Spares i k k') (same : SameSpaces k' k'') : Spares i k k'' := by
  intro j other there
  rw [same.spaceOf]
  exact spares j other there

theorem before (same : SameSpaces k k') (entries : k'.processTable = k.processTable)
    (spares : Spares i k' k'') :
    Spares i k k'' := by
  intro j other there
  rw [← same.spaceOf] at there ⊢
  rw [Kernel.Parent, ← entries]
  exact spares j other there

end Spares

theorem SameSpaces.spares (same : SameSpaces k k') : Spares i k k' :=
    .of_same fun j _ => same.spaceOf j

theorem EndsFrom.same (ends : EndsFrom t m₁ m') : SameSpaces m₁.kernel m'.kernel := by
  rcases ends with ⟨touches, -⟩ | ⟨kernel, -⟩
  · exact touches.spaces
  · rw [kernel]
    exact .refl

/-- A routine that writes frames of the allocator, and of `i`. -/
theorem Kept.spares (kept : Kept cfg m) (here : m.kernel.roots i = some root)
    (entries : ∀ j ≠ i, m.kernel.spaceOf j ≠ none → k'.roots j = m.kernel.roots j ∧
    k'.heaps j = m.kernel.heaps j)
    (outside : ∀ f ∉ userFrames m.kernel.mem.ram root + m.kernel.mem.available,
    k'.mem.ram f = m.kernel.mem.ram f) :
    Spares i m.kernel k' := by
  intro j other there
  obtain ⟨roots, heaps⟩ := entries j other there
  exact .inl (spaceOf_congr roots heaps fun f member =>
    outside f (kept.apart_other here other member))

theorem roots_heaps_congr (k k' : Kernel) (entry : k'.processTable j = k.processTable j) :
    k'.roots j = k.roots j ∧ k'.heaps j = k.heaps j := by
  rw [Kernel.roots, Kernel.roots, Kernel.heaps, Kernel.heaps, entry]
  exact ⟨rfl, rfl⟩

namespace InCall

variable (call : InCall cfg m t)

include call

theorem finish_spares {what : Call} (entryRsp : Nat) (reply : Reply)
    (spares : Spares i k m.kernel) :
    Spares i k (m.finish t what entryRsp reply).kernel :=
  spares.after (EndsFrom.same (call.finish_cases what entryRsp reply))

theorem forkCall_spares {entryRsp kstack : Nat} (serves : Serves m t i p) :
    Spares i m.kernel (m.forkCall t entryRsp kstack).kernel := by
  rw [Machine.forkCall]
  by_cases null : kstack = 0
  · subst null
    have spec := fork_null serves.toCurrent
    revert spec
    cases fork 0 m.kernel with
    | ok child k => exact fun impossible => impossible.elim
    | panic message => exact fun _ => .refl
    | err message k =>
        rintro ⟨rfl, -⟩
        exact finish_spares (m := m) call _ _ .refl
  · obtain ⟨parentTf, tf⟩ := Option.ne_none_iff_exists'.mp serves.owns.tf
    rw [fork_run serves.toCurrent serves.table tf serves.owns.used null]
    have spec := copyUvm_spec kernelLaw_noHuge call.kept.separate.available_nodup
      (serves.slots call.kept).linked
      (serves.frames_apart call.kept)
    cases free : m.kernel.freePid with
    | none => exact finish_spares (m := m) call _ _ .refl
    | some pid =>
      cases freeT : m.kernel.freeTid with
      | none => exact finish_spares (m := m) call _ _ .refl
      | some tid =>
        cases copied : copyUvm m.kernel.mem.cr3 m.kernel.mem with
        | panic message => exact .refl
        | err message mem' =>
          refine (call.forkFailed kstack pid serves freeT copied).finish_spares _ _ ?_
          exact call.kept.spares serves.root (fun _ _ _ => ⟨rfl, rfl⟩) fun f absent =>
            (spec.of_err copied).1.outside f (notMem_right absent)
        | ok root mem' =>
          simp only [serves.pid_eq]
          refine (call.forked kstack parentTf serves free freeT copied).finish_spares _ _ ?_
          refine call.kept.spares serves.root (fun j _ there => roots_heaps_congr _ _ ?_)
            fun f absent =>
            (spec.of_ok copied).1.outside f (notMem_right absent)
          refine Function.update_of_ne ?_ ..
          rintro rfl
          refine there ?_
          rw [Kernel.spaceOf, Kernel.roots, (freePid_spec free).2]
          rfl

theorem execCall_spares {path : List UInt8} {argv : List (List UInt8)} {entryRsp : Nat}
    (lower : cfg.LowerHalf)
    (serves : Serves m t i p) (idle : m.continuation t = .toUser) : Spares i m.kernel
      (m.finishCall t (.exec path argv) entryRsp
        ((do exec cfg path argv; pure 0 : Prog Kernel Nat) m.kernel)).kernel := by
  obtain ⟨frame, tf⟩ := Option.ne_none_iff_exists'.mp serves.owns.tf
  rw [Prog.bind_run, exec_run serves.toCurrent tf]
  cases found : cfg.lookup path with
  | none => exact finish_spares (m := m) call _ _ .refl
  | some image =>
    have spec := prepareExecImage_spec cfg.mapper argv (lower path image found).confined
      call.kept.separate.available_nodup
    dsimp only
    cases prepared : prepareExecImage cfg.mapper image argv m.kernel.mem with
    | panic message => exact .refl
    | err message mem' =>
      have lost := spec.of_err prepared
      refine (call.setMem (call.kept.execFails lower found prepared) lost.cr3).finish_spares _ _ ?_
      exact call.kept.spares serves.root (fun _ _ _ => ⟨rfl, rfl⟩) fun f absent =>
        lost.outside f (notMem_right absent)
    | ok r mem' =>
      refine (call.committed frame lower serves idle found prepared).finish_spares _ _ ?_
      exact call.kept.spares serves.root
        (fun _ other _ => roots_heaps_congr _ _ (Function.update_of_ne other ..))
        fun f absent => (spec.of_ok prepared).1.outside f (notMem_right absent)

theorem killCall_spares {pid entryRsp : Nat} : Spares i m.kernel
    (m.finishCall t (.kill pid) entryRsp
    ((do kill pid; pure 0 : Prog Kernel Nat) m.kernel)).kernel := by
  have spec := kill_spec m.kernel pid
  rw [Prog.bind_run]
  revert spec
  cases kill pid m.kernel with
  | panic message => exact fun impossible => impossible.elim
  | err message k =>
    rintro rfl
    exact finish_spares (m := m) call _ _ .refl
  | ok _ k =>
    rintro ⟨j, q, -, entry, -, rfl⟩
    refine (call.mark entry).finish_spares _ _ (.of_same fun u _ => ?_)
    by_cases here : u = j
    · subst here
      have after : (m.kernel.setProcess u (some { q with killed := true })).processTable u =
          some { q with killed := true } := Kernel.setProcess_at ..
      refine spaceOf_congr ?_ ?_ fun _ _ => rfl
      · change (m.kernel.setProcess u (some { q with killed := true })).roots u = _
        rw [Kernel.roots, Kernel.roots, after, entry]
        rfl
      · change (m.kernel.setProcess u (some { q with killed := true })).heaps u = _
        rw [Kernel.heaps, Kernel.heaps, after, entry]
        rfl
    · obtain ⟨roots, heaps⟩ :=
        roots_heaps_congr m.kernel (m.kernel.setProcess j (some { q with killed := true }))
        (Kernel.setProcess_ne _ here)
      exact spaceOf_congr roots heaps fun _ _ => rfl

theorem sbrkCall_spares {n : Int} {entryRsp : Nat} (serves : Serves m t i p) :
    Spares i m.kernel (m.finishCall t (.sbrk n) entryRsp (sbrk cfg n m.kernel)).kernel := by
  have whole : owned 4 m.kernel.mem.cr3 0 m.kernel.mem = userFrames m.kernel.mem.ram m.kernel.mem.cr3 + m.kernel.mem.available :=
    add_zero _
  have moved : ∀ {mem' : MemState}, Conserves kernelLaw 4 m.kernel.mem.cr3 0 0 m.kernel.mem mem' →
      Spares i m.kernel (m.kernel.setMem mem') := fun moved =>
    call.kept.spares serves.root (fun _ _ _ => ⟨rfl, rfl⟩) fun f absent =>
      moved.outside f (whole ▸ absent)
  have spec := sbrk_spec cfg serves.toCurrent serves.table serves.whole.heap
    (call.kept.separate.owned_nodup serves.inside serves.root) (serves.slots call.kept) n
  revert spec
  cases sbrk cfg n m.kernel with
  | panic message => exact fun _ => .refl
  | err message k =>
    rintro ⟨mem', rfl, conserves⟩
    exact (call.moved serves conserves).finish_spares _ _ (moved conserves)
  | ok value k =>
    rintro ⟨-, mem', rfl, conserves⟩
    exact (call.moved serves conserves).finish_spares _ _ (moved conserves)

theorem waitLoop_spares {r : Nat} (serves : Serves m t i p) (copy : c.pid = i)
    (spared : c.killed = false) :
    Spares i m.kernel (m.waitLoop t c r).kernel := by
  rcases call.waitLoop_cases (r := r) serves copy spared with ⟨-, -, ends⟩ | ⟨-, -, yields⟩ |
    ⟨j, z, tid, f, mem', found, entry, -, owns, table, freed, reaped, -, ends⟩
  · rw [ends]
    exact finish_spares call _ _ .refl
  · rw [yields]
    exact (onSyscallYield_touches _ serves.tid).1.spaces.spares
  · obtain ⟨z', -, -, entry', -, parent, place, -, -, -⟩ := serves.child call.kept found
    obtain rfl := Option.some.inj (entry'.symm.trans entry)
    have root : m.kernel.roots j = some f := by rw [Kernel.roots, entry, Option.bind_some, table]
    have released := call.kept.released root freed
    rw [ends]
    refine reaped.finish_spares _ _ fun u _ _ => ?_
    by_cases here : u = j
    · subst here
      have blank : (m.kernel.released z' tid mem').processTable u = some .new := by
        rw [← place]
        exact Function.update_self ..
      refine .inr ⟨?_, z', entry, parent⟩
      change (m.kernel.released z' tid mem').spaceOf u = none
      rw [Kernel.spaceOf, Kernel.roots, blank]
      rfl
    · refine .inl ?_
      obtain ⟨roots, heaps⟩ :=
        roots_heaps_congr m.kernel (m.kernel.released z' tid mem')
          (Function.update_of_ne (place ▸ here) ..)
      exact spaceOf_congr roots heaps fun f' member =>
        released.outside f' (call.kept.apart_other root here member)

/-- A call writes to the space of its process alone. -/
theorem dispatch_spares {rsp : Nat} (what : Call) (lower : cfg.LowerHalf) (serves : Serves m t i p)
    (spared : p.killed = false) (idle : m.continuation t = .toUser) :
    Spares i m.kernel (m.dispatch cfg t rsp what).kernel := by
  cases what with
  | fork kstack => exact call.forkCall_spares serves
  | exec path argv => exact call.execCall_spares lower serves idle
  | getpid =>
    rw [Machine.dispatch, serves.toCurrent.getpid_run]
    exact finish_spares (m := m) call _ _ .refl
  | exit status => exact (sysExit_touches serves _ _).1.spaces.spares
  | wait =>
    rw [Machine.dispatch, serves.toCurrent.currentProcess_run]
    exact call.waitLoop_spares serves serves.whole.pid spared
  | kill pid => exact call.killCall_spares
  | sbrk n => exact call.sbrkCall_spares serves
  | other => exact finish_spares call _ _ .refl

end InCall

/-- A thread of the process is on the CPU. -/
def Here (m : Machine) (i : Nat) : Prop :=
  ∃ t, (m.pc = .kernel t ∨ m.pc = .user t) ∧ (m.kernel.threadTable t).pid = some i

/-- The space stays, or goes away with its process, whose parent is on the CPU then. -/
def Remains (j : Nat) (m m' : Machine) : Prop :=
  m'.kernel.spaceOf j = m.kernel.spaceOf j ∨
    (m'.kernel.spaceOf j = none ∧ ∃ i, Here m i ∧ m.kernel.Parent i j)

theorem Here.current (inv : m.Inv cfg) (here : Here m i) : m.kernel.currentPid = some i := by
  obtain ⟨t, pc, pid⟩ := here
  obtain ⟨-, cpu⟩ := inv
  have tid : m.kernel.cpu.currentTid = some t := by
    rcases pc with pc | pc <;> rw [pc] at cpu <;> exact cpu.1.tid
  rw [Kernel.currentPid, tid]
  exact pid

theorem Spares.remains (spares : Spares i m.kernel m'.kernel) (here : Here m i) (other : ¬ Here m j)
    (there : m.kernel.spaceOf j ≠ none) : Remains j m m' := by
  have apart : j ≠ i := by
    rintro rfl
    exact other here
  rcases spares j apart there with same | ⟨gone, parent⟩
  · exact .inl same
  · exact .inr ⟨gone, i, here, parent⟩

theorem proceed_remains (kept : Kept cfg m) (cpu : OnCpu m t) (pc : m.pc = .kernel t)
    (taken : m.proceed t = some m')
    (other : ¬ Here m j) (there : m.kernel.spaceOf j ≠ none) : Remains j m m' := by
  rw [Machine.proceed] at taken
  cases cont : m.continuation t with
  | kthread => simp [cont] at taken
  | wait c r =>
      simp only [cont, Option.some.injEq] at taken
      subst taken
      obtain ⟨pid, spared, -⟩ := kept.waits t c r cpu.ready cont
      have call : InCall cfg m t := ⟨kept, cpu, by simp [pid], UserCode.of_wait cont⟩
      obtain ⟨i, p, serves⟩ := call.serves
      have spares : Spares i m.kernel (m.swapgs.waitLoop t c r).kernel :=
        InCall.waitLoop_spares (m := m.swapgs) (r := r)
        (call.congr rfl kept.swapgs) (serves.congr rfl)
          (Option.some.inj (pid.symm.trans serves.pid)) spared
      exact spares.remains ⟨t, .inl pc, serves.pid⟩ other there
  | _ =>
      simp only [cont, Option.some.injEq] at taken
      exact taken ▸ .inl rfl

theorem InUser.call_spares {rsp : Nat} {regs : TrapFrame} (user : InUser cfg m t) (what : Call)
    (lower : cfg.LowerHalf)
    (serves : Serves m t i p) : Spares i m.kernel (m.syscall cfg t rsp regs what).kernel := by
  have entered := user.serves_entered rsp regs serves
  rw [Machine.syscall, entered.toCurrent.unlessKilled_run rfl]
  split
  case isTrue killed =>
    exact .before ⟨rfl, rfl, rfl, rfl⟩ rfl
      (sysExit_touches entered RET_ERROR true).1.spaces.spares
  case isFalse alive =>
    have calling := user.calling rsp regs
    exact .before ⟨rfl, rfl, rfl, rfl⟩ rfl
      (calling.inCall.dispatch_spares what lower (user.serves_calling rsp regs serves)
      (Bool.eq_false_iff.mpr alive) calling.idle)

/-- A step leaves the space of every process but the one on the CPU. -/
theorem step_remains {event : Event} (lower : cfg.LowerHalf) (inv : m.Inv cfg)
    (taken : step cfg m event = some m')
    (other : ¬ Here m j) (there : m.kernel.spaceOf j ≠ none) : Remains j m m' := by
  have shape := step_shape lower inv taken
  cases event with
  | schedule =>
      cases shape with
      | idle kernel => exact .inl (by rw [kernel])
      | switch _ found switched => exact .inl (switched.spaces.spaceOf j)
  | lateTick =>
      cases shape with
      | late _ found switched touches =>
          exact .inl ((touches.spaces.spaceOf j).trans (switched.spaces.spaceOf j))
  | tick =>
      cases shape with
      | tick touches => exact .inl (touches.spaces.spaceOf j)
  | proceed =>
      have ⟨kept, pc⟩ := inv
      simp only [step] at taken
      cases here : m.pc with
      | kernel u =>
          simp only [here] at taken pc
          exact proceed_remains kept pc.1 here taken other there
      | _ => simp [here] at taken
  | call rsp regs what =>
      simp only [step] at taken
      cases here : m.pc with
      | user u =>
          simp only [here, Option.some.injEq] at taken
          have user := inv.user here
          obtain ⟨i, p, serves⟩ := user.serves
          have spares : Spares i m.kernel (m.syscall cfg u rsp regs what).kernel :=
            user.call_spares what lower serves
          rw [taken] at spares
          exact spares.remains ⟨u, .inr here, serves.pid⟩ other there
      | _ => simp [here] at taken

/-- So does what programs do to their memory. -/
theorem Turn.remains (lower : cfg.LowerHalf) (inv : m.Inv cfg) (turn : Turn cfg m m')
    (other : ¬ Here m j) (there : m.kernel.spaceOf j ≠ none) : Remains j m m' := by
  cases turn with
  | step event taken => exact step_remains lower inv taken other there
  | @store t va pc inside allowed byte =>
      have user := inv.user pc
      obtain ⟨i, p, serves⟩ := user.serves
      have whole : owned 4 m.kernel.mem.cr3 0 m.kernel.mem =
          userFrames m.kernel.mem.ram m.kernel.mem.cr3 + m.kernel.mem.available := add_zero _
      have spares : Spares i m.kernel (m.store va byte).kernel :=
        user.kept.spares serves.root (fun _ _ _ => ⟨rfl, rfl⟩)
        fun f absent => (serves.store_extends (P := kernelLaw) user.kept inside byte).outside f
          (whole ▸ absent)
      exact spares.remains ⟨t, .inr pc, serves.pid⟩ other there

theorem slot_space {p : Proc Nat (Option UserSpace) Int} (slot : k.slot i = .occupied p) :
    p.space = k.spaceOf i := by
  rw [Kernel.slot] at slot
  split at slot
  case h_1 => cases slot
  case h_2 q entry =>
    split at slot
    case isTrue => cases slot; rfl
    case isFalse => cases slot

theorem slot_space_some {p : Proc Nat (Option UserSpace) Int} (coh : Coherent k)
    (slot : k.slot i = .occupied p) :
    k.spaceOf i ≠ none := by
  rw [Kernel.slot] at slot
  split at slot
  case h_1 => cases slot
  case h_2 q entry =>
    cases live : q.live with
    | false => simp [live] at slot
    | true =>
        obtain ⟨root, table⟩ := Option.ne_none_iff_exists'.mp (coh.live i q entry live).table
        rw [spaceOf_some entry table]
        exact Option.some_ne_none _

/-- The turns that a process does not make. -/
def Elsewhere (cfg : Config) (j : Nat) (m m' : Machine) : Prop :=
  Turn cfg m m' ∧ m.kernel.currentPid ≠ some j

theorem elsewhere_spaces {p : Proc Nat (Option UserSpace) Int} (lower : cfg.LowerHalf)
    (lives : Lives cfg m)
    (turns : Relation.ReflTransGen (Elsewhere cfg j) m m')
    (before : m.kernel.slot j = .occupied p) :
    Lives cfg m' ∧ m.world.Run m'.world ∧ ∀ q, m'.kernel.slot j = .occupied q →
      q.space = p.space := by
  induction turns with
  | refl =>
      refine ⟨lives, .refl, fun q slot => ?_⟩
      cases before.symm.trans slot
      rfl
  | @tail m₁ m₂ turns last ih =>
      obtain ⟨lives₁, run, spaces⟩ := ih
      obtain ⟨turn, other⟩ := last
      have inv := lives₁.inv lower
      have run₁ := turn.refines lower inv
      refine ⟨lives₁.turn turn, run.trans run₁, fun q slot => ?_⟩
      have first : Slot.Leads (.occupied p) (m₁.kernel.slot j) := before ▸ run.leads j
      have second : Slot.Leads (m₁.kernel.slot j) (.occupied q) := slot ▸ run₁.leads j
      cases middle : m₁.kernel.slot j with
      | vacant =>
          rw [middle] at first
          cases first
      | reaped =>
          rw [middle] at second
          cases second
      | occupied r =>
          have there := slot_space_some inv.1.coherent middle
          have inv₂ := turn.inv lower inv
          rw [slot_space slot, ← spaces r middle, slot_space middle]
          rcases turn.remains lower inv (fun here => other (here.current inv)) there with same |
            ⟨gone, -⟩
          · exact same
          · exact absurd gone (slot_space_some inv₂.1.coherent slot)

end FerriOS.System
