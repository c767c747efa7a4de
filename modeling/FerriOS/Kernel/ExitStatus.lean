import FerriOS.Exec.Args
import FerriOS.Kernel.Children
import FerriOS.Kernel.Lifetimes
import FerriOS.Kernel.UserCopies
import FerriOS.Kernel.Waiting

/-! # The exit status on its way

A parent reads at its status pointer what its child has passed to `exit`. A copy to user
memory arrives as a whole exactly if the program could have written the range itself.
-/

namespace FerriOS.System

open FerriOS.Lib FerriOS.Memory FerriOS.Loader

variable {cfg : Config} {m : Machine} {k k' : Kernel} {t i j ptr done statusPtr : Nat}
  {p c z : Process}
  {root : PhysFrame}
  {bytes : List UInt8} {ram : PhysMem}

/-! ## Copies to user memory -/

/-- The leaf of the page lets a program write it. -/
def Writable (ram : PhysMem) (root : PhysFrame) (va : Nat) : Prop :=
  Readable ram root va ∧ (leafEntry ram root va).flags.contains .WRITABLE = true

/-- The program can write the `n` bytes at `ptr`. -/
def WritableRange (ram : PhysMem) (root : PhysFrame) (ptr n : Nat) : Prop :=
  ∀ a, ptr ≤ a → a < ptr + n → Writable ram root a

/-- The checks that `copy_to_user` makes of a page. -/
def writeChecks : List (PageTableFlags × String) :=
  [(.PRESENT, "syscall: address is not present"),
   (.USER_ACCESSIBLE, "syscall: address is not user-accessible"),
   (.WRITABLE, "syscall: address is not writable")]

theorem writable_iff {va : Nat} :
    Writable ram root va ↔ ∀ check ∈ writeChecks,
      (leafEntry ram root va).flags.contains check.1 = true := by
  simp [Writable, Readable, writeChecks, and_assoc]

theorem writable_page {a b : Nat} (same : a / PAGE_SIZE = b / PAGE_SIZE) :
    Writable ram root a ↔ Writable ram root b := by
  rw [writable_iff, writable_iff, leafEntry_page same]

theorem writable_congr {ram' : PhysMem} {a : Nat} (lower : a < 2 ^ 47)
    (same : ∀ f ∈ treeTables ram 4 root, ram' f = ram f) :
    Writable ram' root a ↔ Writable ram root a := by
  rw [writable_iff, writable_iff, leafEntry_congr lower same]

theorem writableRange_congr {ram' : PhysMem} {n : Nat} (lower : ptr + n ≤ 2 ^ 47)
    (same : ∀ f ∈ treeTables ram 4 root, ram' f = ram f) :
    WritableRange ram' root ptr n ↔ WritableRange ram root ptr n := by
  refine forall_congr' fun a => forall_congr' fun _ => forall_congr' fun high => ?_
  exact writable_congr (by omega) same

/-- The page of a piece is found exactly if the program can write it. -/
theorem userPage_writable {copied : Nat} (lower : ptr + copied < 2 ^ 47) :
    (userPage cfg root ptr copied writeChecks k).Sat False
      (fun page k' => k' = k ∧ Writable k.mem.ram root (ptr + copied) ∧
        page = ((leafEntry k.mem.ram root (ptr + copied)).addr, pageOffset (ptr + copied)))
      (fun _ k' => k' = k ∧ ¬ Writable k.mem.ram root (ptr + copied)) := by
  have safe := @userPage_safe cfg k root ptr copied writeChecks lower
  have found := fun r k' => @userPage_ok cfg k k' root ptr copied writeChecks r _ lower List.mem_cons_self
  revert safe found
  cases userPage cfg root ptr copied writeChecks k with
  | panic message => exact fun impossible _ => impossible
  | ok page k' =>
      intro _ found
      obtain ⟨same, flags, page⟩ := (found page k').mp rfl
      exact ⟨same, writable_iff.mpr flags, page⟩
  | err message k' =>
      intro same found
      refine ⟨same, fun writable => ?_⟩
      cases (found _ k).mpr ⟨rfl, writable_iff.mp writable, rfl⟩

/-- Some of the range cannot be written, and nothing has changed outside of it. -/
structure CopyFails (root : PhysFrame) (ptr : Nat) (bytes : List UInt8) (done : Nat)
    (k k' : Kernel) : Prop where
  refused : ¬ WritableRange k.mem.ram root (ptr + done) (bytes.length - done)
  rest : ∃ mem, k' = k.setMem mem
  outside : ∀ a < 2 ^ 47, ¬ (ptr + done ≤ a ∧ a < ptr + bytes.length) →
    userLoad root k'.mem a = userLoad root k.mem a

/-- The loop of `copy_to_user` ends with all bytes copied, or at a page that cannot be written. -/
theorem copyToUser_ends (lower : ptr + bytes.length ≤ 2 ^ 47) (fuel : Nat) :
    ∀ {done : Nat} {k : Kernel}, bytes.length ≤ done + fuel → LeavesApart k.mem.ram root →
      (Prog.each (piecesFrom ptr bytes.length fuel done) (fun piece => do
        let page ← userPage cfg root ptr piece.1 writeChecks
        onMem (writeRam (·.writeBytes page.1 page.2
          ((bytes.drop piece.1).take piece.2)))) k).Sat False
      (fun _ _ => WritableRange k.mem.ram root (ptr + done) (bytes.length - done))
      (fun _ => CopyFails root ptr bytes done k) := by
  induction fuel with
  | zero =>
      intro done k enough _ a low high
      omega
  | succ fuel ih =>
      intro done k enough apart
      by_cases more : done < bytes.length
      · obtain ⟨size, positive, inside, fits, split⟩ :=
          @piecesFrom_succ bytes.length ptr fuel done more
        rw [split, Prog.each]
        have here : ∀ a, ptr + done ≤ a → a < ptr + (done + size) →
          a / PAGE_SIZE = (ptr + done) / PAGE_SIZE := by
          intro a low high
          simp only [PAGE_SIZE] at fits ⊢
          omega
        have length : ((bytes.drop done).take size).length = size := by
          rw [List.length_take, List.length_drop]
          omega
        have first := @userPage_writable cfg k ptr root done (by omega)
        revert first
        rw [Prog.bind_run, Prog.bind_run]
        cases userPage cfg root ptr done writeChecks k with
        | panic message => exact fun impossible => impossible
        | err message k' =>
            rintro ⟨rfl, refused⟩
            exact ⟨fun writable => refused (writable _ le_rfl (by omega)), ⟨k'.mem, rfl⟩,
              fun _ _ _ => rfl⟩
        | ok page k' =>
            rintro ⟨rfl, writable, rfl⟩
            have kept : ∀ f ∈ treeTables k'.mem.ram 4 root,
              k'.mem.ram.writeBytes (leafEntry k'.mem.ram root (ptr + done)).addr
                (pageOffset (ptr + done)) ((bytes.drop done).take size) f = k'.mem.ram f :=
              apart.tables_kept (by omega) writable.1.page
            have view : ∀ a < 2 ^ 47, _ := fun a (lowerA : a < 2 ^ 47) =>
              apart.store_view (s := k'.mem) (by omega) writable.1.page (by rwa [length]) lowerA
            refine (ih (by omega) (apart.congr kept)).mono id (fun _ _ later a low high => ?_)
              fun _ k'' fails => ?_
            · by_cases page : a < ptr + (done + size)
              · exact (writable_page (here a low page)).mpr writable
              · exact (writable_congr (by omega) kept).mp (later a (by omega) (by omega))
            · obtain ⟨refused, ⟨mem, rfl⟩, outside⟩ := fails
              refine ⟨fun whole => refused fun a low high => ?_, ⟨mem, rfl⟩, ?_⟩
              · exact (writable_congr (by omega) kept).mpr (whole a (by omega) (by omega))
              intro b lowerB away
              rw [outside b lowerB (by omega)]
              refine (view b lowerB).trans (if_neg ?_)
              rw [length]
              omega
      · rw [piecesFrom_done (by omega)]
        intro a low high
        omega

/-- A copy to user memory arrives as a whole exactly if the program can write the range. -/
theorem copyToUser_writable (cur : Current k t i p) (table : p.pageTable = some root)
    (apart : LeavesApart k.mem.ram root)
    (nonnull : ptr ≠ 0) (nonempty : bytes ≠ []) (lower : ptr + bytes.length ≤ 2 ^ 47) :
    (copyToUser cfg ptr bytes k).Sat False
      (fun _ k' => WritableRange k.mem.ram root ptr bytes.length ∧
        CopiedOut root ptr bytes 0 (pieces ptr bytes.length) k k')
      (fun _ => CopyFails root ptr bytes 0 k) := by
  rw [copyToUser, if_neg nonempty, if_neg nonnull, Prog.bind_ok (currentPageTable_run cur table)]
  have copied := fun k' => @copyToUser_loop cfg k' root ptr bytes lower bytes.length 0 k
    (Nat.le_add_left _ _) apart
  have ends := @copyToUser_ends cfg ptr root bytes lower bytes.length 0 k
    (Nat.le_add_left _ _) apart
  revert copied ends
  change (∀ k', Prog.each (pieces ptr bytes.length) _ k = .ok () k' → _) →
    Outcome.Sat _ _ _ (Prog.each (pieces ptr bytes.length) _ k) → _
  cases run : Prog.each (pieces ptr bytes.length) (fun piece => do
      let page ← userPage cfg root ptr piece.1 writeChecks
      onMem (writeRam (·.writeBytes page.1 page.2 ((bytes.drop piece.1).take piece.2)))) k with
  | panic message => exact fun _ impossible => impossible.elim
  | err message k' =>
      intro _ fails
      exact run ▸ fails
  | ok done k' =>
      intro copied writable
      exact run ▸ ⟨writable, copied k' run⟩

/-! ## A round of `sys_wait` -/

/-- What a program reads through a pointer to an `i64`. -/
def readI64 (mem : UserMemory) (addr : Nat) : Option Int :=
  (loadLe mem addr 8).map fun word : Nat => Int.bmod word (2 ^ 64)

theorem readI64_holds {mem : UserMemory} {n : Int}
    (holds : HoldsBytes mem ptr (leBytes (asUsize n) 8))
    (low : -2 ^ 63 ≤ n)
    (high : n < 2 ^ 63) : readI64 mem ptr = some n := by
  have fits : asUsize n < 256 ^ 8 := by
    unfold asUsize
    omega
  have word : Int.bmod (asUsize n) (2 ^ 64) = n := by
    rw [asUsize, Int.toNat_of_nonneg (by omega)]
    exact (Int.emod_bmod ..).trans (Int.bmod_eq_of_le (by norm_num; omega) (by norm_num; omega))
  rw [readI64, loadLe_holds _ holds, Nat.mod_eq_of_lt fits, Option.map_some, word]

/-- The child of the parent has exited with the status, once, and nobody has heard of it. -/
structure ExitedWith (m : Machine) (parent child : Nat) (status : Int) : Prop where
  forked : .forked parent child ∈ m.history
  exited : ∃ killed, .exited child status killed ∈ m.history ∧ (killed = true → status = RET_ERROR)
  once : ∀ status' killed, .exited child status' killed ∈ m.history → status' = status
  unheard : ∀ other status', .reaped other child status' ∉ m.history

theorem Lives.custody (lower : cfg.LowerHalf) (lives : Lives cfg m) :
    Custody m.kernel.processTable m.history := by
  refine lives.always lower (I := fun m => Custody m.kernel.processTable m.history)
    (fun m boots => ?_)
    (fun _ _ acts => Custody.acts acts) fun _ _ _ custody => custody
  obtain ⟨k, rfl, booted⟩ := boots.booted lower
  exact booted.custody

theorem Custody.exitedWith (custody : Custody k.processTable m.history)
    (entry : k.processTable j = some z)
    (zombie : z.state = .zombie) (ppid : z.ppid = some i) : ExitedWith m i j z.exitStatus := by
  have live : z.live = true := Process.live_iff.mpr (.inr zombie)
  obtain ⟨killed, exited⟩ := custody.status j z entry zombie
  refine ⟨custody.parent j z i entry live ppid, ⟨killed, exited, ?_⟩, ?_, ?_⟩
  · rintro rfl
    exact custody.killed j z.exitStatus exited
  · intro status' killed' again
    have same := filterMap_once custody.leftOnce again exited rfl rfl
    injection same
  · intro other status' heard
    exact custody.live j z entry live (List.mem_filterMap.mpr ⟨_, heard, rfl⟩)

theorem WaitRuns.entries (waits : WaitRuns m k c) : k.processTable = m.kernel.processTable := by
  cases waits with
  | called => rfl
  | resumed => rfl

theorem Serves.view_kept {f : PhysFrame} {mem' : MemState} (serves : Serves m t i p)
    (kept : Kept cfg m)
    (other : j ≠ i)
    (root : m.kernel.roots j = some f) (released : Released f m.kernel.mem mem') :
    ∀ g ∈ userFrames m.kernel.mem.ram m.kernel.mem.cr3, mem'.ram g = m.kernel.mem.ram g := by
  intro g member
  refine released.outside g (kept.apart_other root other.symm ?_)
  rwa [spaceAt_some serves.root]

theorem Serves.current_released {tid : Nat} {mem' : MemState} (serves : Serves m t i p)
    (other : z.pid ≠ i)
    (owns : Owns m.kernel z.pid z tid) : Current (m.kernel.released z tid mem') t i p := by
  have thread : t ≠ tid := by
    rintro rfl
    exact other (Option.some.inj (owns.pid.symm.trans serves.pid))
  refine ⟨serves.tid, serves.bound, ?_, serves.inside, ?_⟩
  · exact (congrArg Thread.pid (Kernel.setThread_ne _ thread)).trans serves.pid
  · exact (Kernel.setProcess_ne _ other.symm).trans serves.entry

/-- A round has reaped the child `z`, and its exit status is to be delivered from `k₁` on. -/
structure Reaping (k k₁ : Kernel) (t : Nat) (c p z : Process) : Prop where
  entry : k.processTable z.pid = some z
  zombie : z.state = .zombie
  ppid : z.ppid = some c.pid
  gone : k₁.processTable z.pid = some .new
  small : ¬ SYS_RET_MAX < z.pid
  current : Current k₁ t c.pid p
  table : p.pageTable = some k.mem.cr3
  apart : LeavesApart k.mem.ram k.mem.cr3
  frames : ∀ g ∈ userFrames k.mem.ram k.mem.cr3, k₁.mem.ram g = k.mem.ram g

theorem WaitRuns.reaping (inv : m.Inv cfg) (waits : WaitRuns m k c)
    (found : zombieChild c.pid k = some j) :
    ∃ t p z k₁, z.pid = j ∧ Reaping k k₁ t c p z ∧ ∀ statusPtr, sysWaitRound cfg statusPtr c k =
      (do let ret ← deliverStatus cfg statusPtr z.pid z.exitStatus; pure (some ret) : Prog Kernel
        (Option Int)) k₁ := by
  obtain ⟨m', t, i, p, rfl, kept, serves, copy⟩ := waits.serves inv
  subst copy
  obtain ⟨z, tid, f, mem', entry, zombie, rfl, other, owns, table, -, released, run⟩ :=
    serves.waitRound kept rfl found
  obtain ⟨z', -, -, entry', -, ppid, -⟩ := serves.child kept found
  obtain rfl := Option.some.inj (entry.symm.trans entry')
  have root : m'.kernel.roots z.pid = some f := by rw [Kernel.roots, entry, Option.bind_some, table]
  have small : ¬ SYS_RET_MAX < z.pid := by
    have inside := kept.coherent.inside root
    simp only [SYS_RET_MAX, NPROCESS] at inside ⊢
    omega
  refine ⟨t, p, z, _, rfl, ⟨entry, zombie, ppid, Function.update_self .., small,
    serves.current_released other owns,
    serves.table, leavesApart (kept.separate.owned_nodup serves.inside serves.root),
    serves.view_kept kept other root released⟩, fun statusPtr => ?_⟩
  rw [sysWaitRound, Prog.bind_run, Prog.attempt, run]

theorem WaitRuns.idle (inv : m.Inv cfg) (waits : WaitRuns m k c)
    (none' : zombieChild c.pid k = none) :
    sysWaitRound cfg statusPtr c k = .ok (if havekids c.pid k then none else some RET_ERROR) k := by
  rw [sysWaitRound, Prog.bind_run, Prog.attempt, waitRound_waits none', waits.spared inv]
  cases havekids c.pid k <;> rfl

/-- A round of `sys_wait` finds no zombie child and changes nothing, or reaps one. -/
theorem WaitRuns.answers (inv : m.Inv cfg) (waits : WaitRuns m k c)
    (range : statusPtr + 8 ≤ 2 ^ 47) :
    ∃ answer k', sysWaitRound cfg statusPtr c k = .ok answer k' ∧
      ((zombieChild c.pid k = none ∧ k' = k ∧
        answer = if havekids c.pid k then none else some RET_ERROR) ∨
      ∃ z, zombieChild c.pid k = some z.pid ∧ k.processTable z.pid = some z ∧ z.state = .zombie ∧
        z.ppid = some c.pid ∧ k'.processTable z.pid = some .new ∧
        (∀ a < 2 ^ 47, statusPtr = 0 ∨ ¬ (statusPtr ≤ a ∧ a < statusPtr + 8) →
          userLoad k.mem.cr3 k'.mem a = userLoad k.mem.cr3 k.mem a) ∧
        (((statusPtr = 0 ∨ WritableRange k.mem.ram k.mem.cr3 statusPtr 8) ∧
          answer = some (z.pid : Int) ∧
            (statusPtr ≠ 0 → -2 ^ 63 ≤ z.exitStatus → z.exitStatus < 2 ^ 63 →
              readI64 (userLoad k.mem.cr3 k'.mem) statusPtr = some z.exitStatus)) ∨
          (¬ (statusPtr = 0 ∨ WritableRange k.mem.ram k.mem.cr3 statusPtr 8) ∧
            answer = some RET_ERROR))) := by
  cases found : zombieChild c.pid k with
  | none => exact ⟨_, k, waits.idle inv found, .inl ⟨rfl, rfl, rfl⟩⟩
  | some j =>
      obtain ⟨t, p, z, k₁, rfl, reaping, run⟩ := @WaitRuns.reaping cfg m k j c inv waits found
      have ⟨entry, zombie, ppid, gone, small, current, table, _, same⟩ := reaping
      have tables : ∀ g ∈ treeTables k.mem.ram 4 k.mem.cr3, k₁.mem.ram g = k.mem.ram g :=
        fun g member => same g (Multiset.mem_of_le (treeTables_le _ _ _) member)
      have view : ∀ a < 2 ^ 47, userLoad k.mem.cr3 k₁.mem a = userLoad k.mem.cr3 k.mem a :=
        fun a lowerA => userLoad_congr lowerA same
      rw [run]
      simp only [deliverStatus, if_neg small]
      by_cases null : statusPtr = 0
      · rw [if_neg (not_not.mpr null)]
        exact ⟨_, _, rfl, .inr ⟨z, rfl, entry, zombie, ppid, gone, fun a lowerA _ => view a lowerA,
          .inl ⟨.inl null, rfl, fun nonnull => absurd null nonnull⟩⟩⟩
      · have copy := @copyToUser_writable cfg k₁ t c.pid statusPtr p k.mem.cr3
          (leBytes (asUsize z.exitStatus) 8)
          current table (reaping.apart.congr tables) null (by simp [leBytes]) range
        rw [if_pos null, Prog.bind_run, Prog.bind_run, Prog.attempt]
        have length : (leBytes (asUsize z.exitStatus) 8).length = 8 := rfl
        revert copy
        cases copyToUser cfg statusPtr (leBytes (asUsize z.exitStatus) 8) k₁ with
        | panic message => exact fun impossible => impossible.elim
        | ok _ k' =>
            rintro ⟨writable, ⟨⟨mem, rfl⟩, -, -, after⟩⟩
            refine ⟨_, _, rfl,
              .inr ⟨z, rfl, entry, zombie, ppid, gone, ?_, .inl ⟨.inr ?_, rfl, fun _ => ?_⟩⟩⟩
            · intro a lowerA outside
              exact (after a lowerA).trans
                ((if_neg (outside.resolve_left null)).trans (view a lowerA))
            · exact (writableRange_congr range tables).mp writable
            · refine readI64_holds fun n inside => ?_
              rw [after (statusPtr + n) (by omega), if_pos (by omega), Nat.add_sub_cancel_left]
        | err message k' =>
            rintro ⟨refused, ⟨mem, rfl⟩, outside⟩
            refine ⟨_, _, rfl, .inr ⟨z, rfl, entry, zombie, ppid, gone, ?_, .inr ⟨?_, rfl⟩⟩⟩
            · intro b lowerB away
              exact (outside b lowerB (away.resolve_left null)).trans (view b lowerB)
            · exact fun allowed =>
                refused ((writableRange_congr range tables).mpr (allowed.resolve_left null))

/-- A round of `sys_wait` in any run. Without a zombie child it changes nothing. With one it
    reaps the child, whose status the caller then reads at the pointer, or the call fails,
    which it does exactly if some of the eight bytes cannot be written. Nothing else of the
    memory of the caller changes. -/
theorem exit_status_arrives (lower : cfg.LowerHalf) (lives : Lives cfg m) (waits : WaitRuns m k c)
    (range : statusPtr + 8 ≤ 2 ^ 47) :
    ∃ answer k', sysWaitRound cfg statusPtr c k = .ok answer k' ∧
      ((zombieChild c.pid k = none ∧ k' = k ∧
        answer = if havekids c.pid k then none else some RET_ERROR) ∨
      ∃ child status, zombieChild c.pid k = some child ∧ ExitedWith m c.pid child status ∧
        k'.processTable child = some .new ∧
        (∀ a < 2 ^ 47, statusPtr = 0 ∨ ¬ (statusPtr ≤ a ∧ a < statusPtr + 8) →
          userLoad k.mem.cr3 k'.mem a = userLoad k.mem.cr3 k.mem a) ∧
        (((statusPtr = 0 ∨ WritableRange k.mem.ram k.mem.cr3 statusPtr 8) ∧
          answer = some (child : Int) ∧
            (statusPtr ≠ 0 → -2 ^ 63 ≤ status → status < 2 ^ 63 →
              readI64 (userLoad k.mem.cr3 k'.mem) statusPtr = some status)) ∨
          (¬ (statusPtr = 0 ∨ WritableRange k.mem.ram k.mem.cr3 statusPtr 8) ∧
            answer = some RET_ERROR))) := by
  obtain ⟨answer, k', run, idle | ⟨z, found, entry, zombie, ppid, gone, rest⟩⟩ :=
    @WaitRuns.answers cfg m k statusPtr c (lives.inv lower) waits range
  · exact ⟨answer, k', run, .inl idle⟩
  · have custody := lives.custody lower
    rw [← waits.entries] at custody
    exact ⟨answer, k', run, .inr
      ⟨z.pid, z.exitStatus, found, custody.exitedWith entry zombie ppid, gone, rest⟩⟩

/-- The first process has a zombie child. With a null pointer it gets its pid, and with an
    address that is not mapped an error. -/
theorem exit_status_arrives_bereft :
    ∃ m p status k' k'', Shows bareConfig m .bereft ∧ p.pid = 0 ∧ ExitedWith m 0 1 status ∧
    sysWaitRound bareConfig 0 p (m.calling 0 0 .new).kernel = .ok (some 1) k' ∧
    sysWaitRound bareConfig UNMAPPED_PTR p (m.calling 0 0 .new).kernel =
      .ok (some RET_ERROR) k'' ∧ k''.processTable 1 = some .new ∧
    ¬ WritableRange (m.calling 0 0 .new).kernel.mem.ram (m.calling 0 0 .new).kernel.mem.cr3
      UNMAPPED_PTR 8 := by
  obtain ⟨m, shown⟩ := bereft_reached
  obtain ⟨p, k'', waits, pid, found, failed, -⟩ :=
    shown.wait_unmapped bareConfig_lower rfl (by decide) (i := 1) (by decide)
  rw [← pid] at found
  obtain ⟨answer, k', run, ⟨none', -⟩ |
    ⟨child, status, here, exited, -, -, ⟨-, rfl, -⟩ | ⟨refused, -⟩⟩⟩ :=
    @exit_status_arrives bareConfig m _ 0 p bareConfig_lower shown.reached.lives waits (by decide)
  · cases none'.symm.trans found
  · obtain rfl : child = 1 := Option.some.inj (here.symm.trans found)
    obtain ⟨answer, k₂, run₂, ⟨none', -⟩ | ⟨child, _, here, -, gone, -, ⟨-, rfl, -⟩ | ⟨refused, rfl⟩⟩⟩ :=
      @exit_status_arrives bareConfig m _ UNMAPPED_PTR p bareConfig_lower shown.reached.lives waits
        (by decide)
    · cases none'.symm.trans found
    · have same := Option.some.inj (Outcome.ok.inj (run₂.symm.trans failed)).1
      simp only [RET_ERROR] at same
      omega
    · obtain rfl : child = 1 := Option.some.inj (here.symm.trans found)
      exact ⟨m, p, status, k', k₂, shown, pid, pid ▸ exited, run, run₂, gone,
        fun writable => refused (.inr writable)⟩
  · exact absurd (.inl rfl) refused

/-! ## A child that is lost -/

/-- A `sys_wait` that fails has reaped nobody. -/
def LosesNobody (cfg : Config) (statusPtr : Nat) (c : Process) (k : Kernel) : Prop :=
  ∀ k', sysWaitRound cfg statusPtr c k = .ok (some RET_ERROR) k' → SameTables k k'

/-- An address that `VirtAddr::new` refuses stops the copy before its first page. -/
theorem copyToUser_noncanonical (cur : Current k t i p) (table : p.pageTable = some root)
    (nonnull : ptr ≠ 0)
    (nonempty : bytes ≠ []) (word : ptr < 2 ^ 64) (noncanonical : VirtAddr.new ptr = none) :
    ∃ message, copyToUser cfg ptr bytes k = .panic message := by
  obtain ⟨b, rest, rfl⟩ := List.exists_cons_of_ne_nil nonempty
  obtain ⟨size, -, -, -, split⟩ :=
    @piecesFrom_succ (rest.length + 1) ptr rest.length 0 (Nat.succ_pos _)
  have sum : usizeAdd cfg ptr 0 k = .ok ptr k := by
    rw [usizeAdd, if_pos (by exact word)]
    rfl
  have page : ∀ checks, ∃ message, userPage cfg root ptr 0 checks k = .panic message :=
    fun checks => by
    rw [userPage, Prog.bind_ok sum, virtAddr, noncanonical]
    exact ⟨_, rfl⟩
  obtain ⟨message, stops⟩ := page [(.PRESENT, "syscall: address is not present"),
    (.USER_ACCESSIBLE, "syscall: address is not user-accessible"),
    (.WRITABLE, "syscall: address is not writable")]
  refine ⟨message, ?_⟩
  rw [copyToUser, if_neg nonempty, if_neg nonnull, Prog.bind_ok (currentPageTable_run cur table),
    pieces,
    List.length_cons, split, Prog.each, Prog.bind_run]
  simp only [Prog.bind_run, stops]

/-- A `sys_wait` that fails has left the tables as they were where its last round found no
    zombie child, where the status pointer is null, or where it makes the copy panic. With a
    range of the lower half, that is so exactly if there is no zombie child, the pointer is
    null, or the program can write the eight bytes. The rounds before the last change nothing. -/
theorem failing_wait (lower : cfg.LowerHalf) (reached : Reachable cfg m) (waits : WaitRuns m k c)
    (statusPtr : Nat) :
    (∀ k', sysWaitRound cfg statusPtr c k = .ok none k' → k' = k) ∧
    (zombieChild c.pid k = none ∨ statusPtr = 0 ∨
    (statusPtr < 2 ^ 64 ∧ VirtAddr.new statusPtr = none) →
      LosesNobody cfg statusPtr c k) ∧
    (statusPtr + 8 ≤ 2 ^ 47 → (LosesNobody cfg statusPtr c k ↔
      zombieChild c.pid k = none ∨ statusPtr = 0 ∨
        WritableRange k.mem.ram k.mem.cr3 statusPtr 8)) := by
  have inv := reached.inv lower
  have pid_answer : ∀ pid : Nat, some (pid : Int) ≠ some RET_ERROR := fun pid same => by
    have value := Option.some.inj same
    simp only [RET_ERROR] at value
    omega
  have idle : zombieChild c.pid k = none → LosesNobody cfg statusPtr c k := by
    intro none' k' failed
    rw [waits.idle inv none'] at failed
    exact (Outcome.ok.inj failed).2 ▸ .refl
  refine ⟨fun k' yields => ?_, ?_, fun range => ?_⟩
  · cases found : zombieChild c.pid k with
    | none =>
        rw [waits.idle inv found] at yields
        exact (Outcome.ok.inj yields).2.symm
    | some j =>
        obtain ⟨t, p, z, k₁, -, -, run⟩ := @WaitRuns.reaping cfg m k j c inv waits found
        rw [run] at yields
        obtain ⟨ret, k₂, -, value⟩ := Prog.bind_eq_ok.mp yields
        cases value
  · rintro (none' | null | ⟨word, noncanonical⟩)
    · exact idle none'
    · subst null
      obtain ⟨answer, k₁, run, ⟨none', -⟩ | ⟨z, -, -, -, -, -, -, ⟨-, rfl, -⟩ | ⟨refused, -⟩⟩⟩ :=
        @WaitRuns.answers cfg m k 0 c inv waits (by decide)
      · exact idle none'
      · intro k' failed
        rw [run] at failed
        exact absurd (Outcome.ok.inj failed).1 (pid_answer _)
      · exact absurd (.inl rfl) refused
    · cases found : zombieChild c.pid k with
      | none => exact idle found
      | some j =>
          obtain ⟨t, p, z, k₁, -, reaping, run⟩ := @WaitRuns.reaping cfg m k j c inv waits found
          have nonnull : statusPtr ≠ 0 := by
            rintro rfl
            cases noncanonical
          obtain ⟨message, stops⟩ := @copyToUser_noncanonical cfg k₁ t c.pid statusPtr p k.mem.cr3
            (leBytes (asUsize z.exitStatus) 8) reaping.current reaping.table nonnull
              (by simp [leBytes]) word noncanonical
          intro k' failed
          rw [run, deliverStatus, if_neg reaping.small, if_pos nonnull, Prog.bind_run,
            Prog.bind_run, Prog.attempt,
            stops] at failed
          cases failed
  · obtain ⟨answer, k₁, run, ⟨none', -⟩ |
      ⟨z, found, entry, zombie, -, gone, -, ⟨writes, rfl, -⟩ | ⟨refused, rfl⟩⟩⟩ :=
      @WaitRuns.answers cfg m k statusPtr c inv waits range
    · exact iff_of_true (idle none') (.inl none')
    · refine iff_of_true (fun k' failed => ?_) (.inr writes)
      rw [run] at failed
      exact absurd (Outcome.ok.inj failed).1 (pid_answer _)
    · refine iff_of_false (fun nobody => ?_) fun holds => ?_
      · have slot := congrFun (nobody k₁ run).processes z.pid
        rw [gone, entry, Option.some.injEq] at slot
        rw [← slot] at zombie
        cases zombie
      · rcases holds with none' | holds
        · cases none'.symm.trans found
        · exact refused holds

/-- The zombie child is lost: the pointer is not mapped. -/
theorem failing_wait_bereft : ∃ m p, Shows bareConfig m .bereft ∧
    (LosesNobody bareConfig UNMAPPED_PTR p (m.calling 0 0 .new).kernel ↔
      zombieChild p.pid (m.calling 0 0 .new).kernel = none ∨ UNMAPPED_PTR = 0 ∨
        WritableRange (m.calling 0 0 .new).kernel.mem.ram
          (m.calling 0 0 .new).kernel.mem.cr3 UNMAPPED_PTR 8) := by
  obtain ⟨m, shown⟩ := bereft_reached
  obtain ⟨p, -, waits, -⟩ := shown.wait_unmapped bareConfig_lower rfl (by decide) (i := 1)
    (by decide)
  exact ⟨m, p, shown, (failing_wait bareConfig_lower shown.reached waits UNMAPPED_PTR).2.2
    (by decide)⟩

/-- The call returns an error, and the child is gone. -/
theorem failing_wait_loses_child :
    ∃ m p k', Reachable bareConfig m ∧ WaitRuns m (m.calling 0 0 .new).kernel p ∧
    sysWaitRound bareConfig UNMAPPED_PTR p (m.calling 0 0 .new).kernel = .ok (some RET_ERROR) k' ∧
      zombieChild 0 (m.calling 0 0 .new).kernel = some 1 ∧ k'.processTable 1 = some .new := by
  obtain ⟨m, shown⟩ := bereft_reached
  obtain ⟨p, k', waits, -, found, failed, slot⟩ :=
    shown.wait_unmapped bareConfig_lower rfl (by decide) (i := 1) (by decide)
  exact ⟨m, p, k', shown.reached, waits, failed, found, slot⟩

end FerriOS.System
