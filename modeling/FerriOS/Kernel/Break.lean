import FerriOS.Kernel.Conservation

/-! # The break

`sbrk` returns the heap size of its caller. The size that it grows is that of a copy
of the caller's entry, and the table keeps the old one.
-/

namespace FerriOS.System

open FerriOS.Lib FerriOS.Memory FerriOS.Loader

/-- The call of `sbrk` that the process `i` makes in a step, with what it returns. -/
inductive CallsSbrk (cfg : Config) (i : Nat) (m : Machine) : Event → Int → Option Nat → Prop where
  | returns {rsp v : Nat} {regs : TrapFrame} (pc : m.pc = .user t) (serves : Serves m t i p)
      (spared : p.killed = false)
      (run : sbrk cfg n (m.calling t rsp regs).kernel = .ok v k') :
        CallsSbrk cfg i m (.call rsp regs (.sbrk n)) n (some v)
  | fails {rsp : Nat} {regs : TrapFrame} {message : String} (pc : m.pc = .user t)
      (serves : Serves m t i p)
      (spared : p.killed = false)
        (run : sbrk cfg n (m.calling t rsp regs).kernel = .err message k') :
      CallsSbrk cfg i m (.call rsp regs (.sbrk n)) n none

/-- The process `i` calls `exec`. -/
def Executes (i : Nat) (m : Machine) : Event → Prop
  | .call _ _ (.exec _ _) => ∃ t, m.pc = .user t ∧ (m.kernel.threadTable t).pid = some i
  | _ => False

/-- The process `i` is alive or a zombie. -/
def Stays (i : Nat) (m : Machine) : Prop := ∃ p, m.kernel.processTable i = some p ∧ p.live = true

/-- A run from `m₀` in which the process `i` executes nothing, and its calls of `sbrk`. -/
inductive Calls (cfg : Config) (i : Nat) (good : Machine → Int → Prop) (m₀ : Machine) :
    List (Int × Option Nat) → Machine → Prop where
  | start : Calls cfg i good m₀ [] m₀
  | call (before : Calls cfg i good m₀ calls m) (called : CallsSbrk cfg i m event n value)
      (meets : good m n)
      (taken : step cfg m event = some m') (stays : Stays i m') :
        Calls cfg i good m₀ (calls ++ [(n, value)]) m'
  | other (before : Calls cfg i good m₀ calls m)
      (silent : ∀ n value, ¬ CallsSbrk cfg i m event n value)
      (keeps : ¬ Executes i m event) (taken : step cfg m event = some m') (stays : Stays i m') :
      Calls cfg i good m₀ calls m'

/-- Each call that succeeds returns the break, and moves it. -/
def Advances : Int → List (Int × Option Nat) → Int → Prop
  | b, [], b' => b = b'
  | b, (n, some v) :: calls, b' => v = b ∧ Advances (b + n) calls b'
  | b, (_, none) :: calls, b' => Advances b calls b'

variable {cfg : Config} {m m' m₀ : Machine} {k k' : Kernel} {t i j : Nat} {n : Int}
  {p q p₀ : Process} {what : Call}
  {event : Event} {value : Option Nat} {b'' : Int} {calls : List (Int × Option Nat)}
    {good : Machine → Int → Prop}

theorem Advances.append {b b' : Int} (advances : Advances b calls b')
    (next : Advances b' [(n, value)] b'') :
    Advances b (calls ++ [(n, value)]) b'' := by
  induction calls generalizing b with
  | nil =>
      obtain rfl : b = b' := advances
      exact next
  | cons call calls ih =>
      obtain ⟨x, _ | v⟩ := call
      · exact ih advances
      · exact ⟨advances.1, ih advances.2⟩

/-- Nothing is asked for, or more than there can be: the new break is beyond the user
    space, a page of the growth is mapped already, or the frames are too few. -/
def Modest (i : Nat) (m : Machine) (n : Int) : Prop :=
  ∃ p, m.kernel.processTable i = some p ∧ (n = 0 ∨ 0 < n ∧ n < 2 ^ 63 ∧
    GrowthFails m.kernel.mem.cr3 p.heapSize (p.heapSize + n.toNat) m.kernel.mem)

theorem sbrk_zero (cur : Current k t i p) (table : p.pageTable ≠ none) :
    sbrk cfg 0 k = .ok p.heapSize k := by
  obtain ⟨f, table⟩ := Option.ne_none_iff_exists'.mp table
  rw [sbrk, Prog.bind_ok cur.currentPid_run]
  simp only [Prog.expect, Prog.pure_bind, Prog.bind_ok (processAt_run cur.inside), cur.entry,
    Prog.okOr]
  simp [growProcessHeap, table, Prog.bind_run, Prog.expect]

/-- A growth that cannot be does not return. -/
theorem sbrk_fails {f : PhysFrame} {v : Nat} (cur : Current k t i p) (table : p.pageTable = some f)
    (heap : p.heapSize ≤ 2 ^ 47) (distinct : (owned 4 f 0 k.mem).Nodup)
    (slots : Slots kernelLaw k.mem.ram 4 f)
    (positive : 0 < n) (small : n < 2 ^ 63)
    (fails : GrowthFails f p.heapSize (p.heapSize + n.toNat) k.mem) :
    sbrk cfg n k ≠ .ok v k' := by
  intro run
  have size : asUsize n = n.toNat := by
    rw [asUsize, Int.emod_eq_of_lt positive.le (by omega)]
  have sum : usizeAdd cfg p.heapSize (asUsize n) k = .ok (p.heapSize + n.toNat) k := by
    rw [usizeAdd, size, if_pos (by omega)]
    rfl
  rw [sbrk, Prog.bind_ok cur.currentPid_run] at run
  simp only [Prog.expect, Prog.pure_bind, Prog.bind_ok (processAt_run cur.inside), cur.entry,
    Prog.okOr] at run
  obtain ⟨grown, k₁, run, -⟩ := Prog.bind_eq_ok.mp run
  simp only [growProcessHeap, table, Prog.expect, Prog.pure_bind, if_pos positive] at run
  rw [Prog.bind_ok sum] at run
  obtain ⟨newSize, k₂, run, -⟩ := Prog.bind_eq_ok.mp run
  obtain ⟨mem', -, below, -, grown⟩ :=
    (onMem_spec (allocUvm_spec kernelLaw_noHuge kernelLaw_tableFlags distinct slots)).of_ok run
  rcases fails with above | fails
  · omega
  · exact grown.not_fails fails

/-- A growth that can be returns the heap size. -/
theorem sbrk_grows {f : PhysFrame} (cur : Current k t i p) (table : p.pageTable = some f)
    (heap : p.heapSize ≤ 2 ^ 47) (distinct : (owned 4 f 0 k.mem).Nodup)
    (slots : Slots kernelLaw k.mem.ram 4 f)
    (positive : 0 < n) (small : n < 2 ^ 63)
    (can : ¬ GrowthFails f p.heapSize (p.heapSize + n.toNat) k.mem) :
    ∃ mem', sbrk cfg n k = .ok p.heapSize (k.setMem mem') := by
  have size : asUsize n = n.toNat := by
    rw [asUsize, Int.emod_eq_of_lt positive.le (by omega)]
  have sum : usizeAdd cfg p.heapSize (asUsize n) k = .ok (p.heapSize + n.toNat) k := by
    rw [usizeAdd, size, if_pos (by omega)]
    rfl
  obtain ⟨newSize, mem', grown, -⟩ :=
    ((allocUvm_spec kernelLaw_noHuge kernelLaw_tableFlags distinct slots).mono id
    (fun _ _ grown => grown) fun _ _ fails => can fails.2).total
  obtain ⟨q, run⟩ : ∃ q, growProcessHeap cfg n p k = .ok q (k.setMem mem') := by
    simp only [growProcessHeap, table, Prog.expect, Prog.pure_bind, if_pos positive]
    rw [Prog.bind_ok sum, Prog.bind_ok (onMem_ok grown)]
    exact ⟨_, rfl⟩
  refine ⟨mem', ?_⟩
  rw [sbrk, Prog.bind_ok cur.currentPid_run]
  simp only [Prog.expect, Prog.pure_bind, Prog.bind_ok (processAt_run cur.inside), cur.entry,
    Prog.okOr]
  rw [Prog.bind_ok run]
  rfl

/-- The body of a call keeps the heap size of a process that stays, unless it is an
    `exec` of its own. -/
theorem Body.heap (body : Body cfg t what k k') (entry : k.processTable i ≠ none)
    (stays : k'.roots i ≠ none)
    (keeps : ∀ path argv, what = .exec path argv → (k.threadTable t).pid ≠ some i) :
    k'.heaps i = k.heaps i := by
  have write : ∀ {j : Nat} {q : Process} {k' : Kernel},
    k'.processTable = Function.update k.processTable j (some q) → i ≠ j →
      k'.heaps i = k.heaps i := fun processes other => by
    rw [Kernel.heaps, Kernel.heaps, processes, Function.update_of_ne other]
  cases body with
  | same => rfl
  | mem => rfl
  | fork stack used free =>
      refine write rfl ?_
      rintro rfl
      exact entry (freePid_spec free).2
  | forkFails => rfl
  | exec owner =>
      refine write rfl ?_
      rintro rfl
      exact keeps _ _ rfl owner
  | @kill pid _ j q old =>
      by_cases here : i = j
      · subst here
        have slot : (k.setProcess i
          (some { q with killed := true })).processTable i = some { q with killed := true } :=
          Function.update_self ..
        rw [Kernel.heaps, Kernel.heaps, old, slot]
        rfl
      · exact write rfl here
  | @reap _ _ j z tid f mem' caller found owns zombie other =>
      refine write rfl ?_
      rintro rfl
      refine stays ?_
      have slot : (k.released z tid mem').processTable z.pid = some .new := Function.update_self ..
      rw [Kernel.roots, slot]
      rfl

/-- So does every step. -/
theorem step_heap (lower : cfg.LowerHalf) (inv : m.Inv cfg) (entry : m.kernel.processTable i ≠ none)
    (keeps : ¬ Executes i m event) (taken : step cfg m event = some m') (stays : Stays i m') :
    m'.kernel.heaps i = m.kernel.heaps i := by
  obtain ⟨p', entry', live⟩ := stays
  have root : m'.kernel.roots i ≠ none := by
    rw [Kernel.roots, entry']
    exact ((step_leads lower inv taken).inv.1.coherent.live i p' entry' live).table
  have ended : ∀ {t m₁}, EndsFrom t m₁ m' → m'.kernel.heaps = m₁.kernel.heaps ∧
    m'.kernel.roots = m₁.kernel.roots := fun ends => by
    rcases ends with ⟨touches, -⟩ | ⟨same, -⟩
    · exact ⟨touches.spaces.heaps, touches.spaces.roots⟩
    · rw [same]
      exact ⟨rfl, rfl⟩
  cases step_shape lower inv taken with
  | idle kernel => rw [kernel]
  | switch here found switched => exact congrFun switched.spaces.heaps i
  | late here found switched touches =>
      exact congrFun (touches.spaces.heaps.trans switched.spaces.heaps) i
  | tick touches => exact congrFun touches.spaces.heaps i
  | proceed here body ends =>
      obtain ⟨heaps, roots⟩ := ended ends
      exact (congrFun heaps i).trans (body.heap entry (roots ▸ root) fun _ _ is => by cases is)
  | @killed t _ _ rsp regs what here serves killed touches =>
      have entered : (m.syscallEntry rsp regs).kernel.heaps = m.kernel.heaps := rfl
      exact congrFun (touches.spaces.heaps.trans entered) i
  | @call t _ _ what rsp regs m₁ here serves spared body ends =>
      obtain ⟨heaps, roots⟩ := ended ends
      have entered : (m.calling t rsp regs).kernel.heaps = m.kernel.heaps := rfl
      refine (congrFun heaps i).trans
        ((body.heap entry (roots ▸ root) ?_).trans (congrFun entered i))
      rintro path argv rfl owner
      rw [calling_thread] at owner
      exact keeps ⟨t, here, owner⟩

/-- A call of `sbrk` that asks for nothing, or for more than there can be. -/
theorem CallsSbrk.modest (inv : m.Inv cfg) (called : CallsSbrk cfg i m event n value)
    (modest : Modest i m n) :
    ∃ p, m.kernel.processTable i = some p ∧
    ((n = 0 ∧ value = some p.heapSize) ∨ (0 < n ∧ value = none)) := by
  obtain ⟨q, entry, modest⟩ := modest
  have run : ∀ {t p rsp regs}, m.pc = .user t → Serves m t i p → p = q ∧
      (n = 0 → sbrk cfg n (m.calling t rsp regs).kernel = .ok p.heapSize
        (m.calling t rsp regs).kernel) ∧
        (0 < n → ∀ v k', sbrk cfg n (m.calling t rsp regs).kernel ≠ .ok v k') := by
    intro t p rsp regs pc serves
    obtain rfl := Option.some.inj (serves.entry.symm.trans entry)
    have user := inv.user pc
    have calling := user.calling rsp regs
    have serves' := user.serves_calling rsp regs serves
    refine ⟨rfl, ?_, fun positive v k' => ?_⟩
    · rintro rfl
      exact sbrk_zero serves'.toCurrent (by simp [serves'.table])
    · obtain zero | ⟨-, small, fails⟩ := modest
      · omega
      · exact sbrk_fails serves'.toCurrent serves'.table serves'.whole.heap
          (calling.kept.separate.owned_nodup serves'.inside serves'.root)
            (serves'.slots calling.kept) positive small fails
  have sign : n = 0 ∨ 0 < n := modest.imp id And.left
  refine ⟨q, entry, ?_⟩
  cases called with
  | returns pc serves spared ran =>
      obtain ⟨rfl, zero, positive⟩ := run pc serves
      rcases sign with none' | some'
      · obtain ⟨rfl, -⟩ := Outcome.ok.inj ((zero none').symm.trans ran)
        exact .inl ⟨none', rfl⟩
      · exact absurd ran (positive some' _ _)
  | fails pc serves spared ran =>
      obtain ⟨-, zero, -⟩ := run pc serves
      rcases sign with none' | some'
      · cases (zero none').symm.trans ran
      · exact .inr ⟨some', rfl⟩

/-- In every run in which a process only asks for nothing, or for more than there can
    be, the heap size in the table is the break that its calls return. -/
theorem break_advances (lower : cfg.LowerHalf) (reachable : Reachable cfg m₀)
    (entry : m₀.kernel.processTable i = some p₀)
    (live : p₀.live = true) (run : Calls cfg i (Modest i) m₀ calls m) :
    ∃ p b, m.kernel.processTable i = some p ∧ Advances p₀.heapSize calls b ∧
    (p.heapSize : Int) = b ∧
      ∀ n, (n, none) ∈ calls → n ≠ 0 := by
  have kept : m.Inv cfg ∧ Stays i m ∧ m.kernel.heaps i = some p₀.heapSize ∧
    Advances p₀.heapSize calls p₀.heapSize ∧
      ∀ n, (n, none) ∈ calls → n ≠ 0 := by
    induction run with
    | start =>
        refine ⟨reachable.inv lower, ⟨p₀, entry, live⟩, ?_, rfl, fun n member => by cases member⟩
        rw [Kernel.heaps, entry]
        rfl
    | @call calls m event n value m' before called modest taken stays ih =>
        obtain ⟨inv, ⟨p, here, -⟩, heaps, advances, failed⟩ := ih
        have keeps : ¬ Executes i m event := by
          cases called <;> exact id
        have there : m.kernel.processTable i ≠ none := by simp [here]
        refine ⟨(step_leads lower inv taken).inv, stays,
          (step_heap lower inv there keeps taken stays).trans heaps, ?_⟩
        obtain ⟨q, found, new⟩ := called.modest inv modest
        rw [Kernel.heaps, found, Option.map_some, Option.some.injEq] at heaps
        rcases new with ⟨rfl, rfl⟩ | ⟨positive, rfl⟩
        · refine ⟨advances.append ⟨by rw [heaps], Int.add_zero _⟩, fun n member => ?_⟩
          rcases List.mem_append.mp member with old | new
          · exact failed n old
          · simp at new
        · refine ⟨advances.append rfl, fun n member => ?_⟩
          rcases List.mem_append.mp member with old | new
          · exact failed n old
          · obtain ⟨rfl, -⟩ := Prod.mk.inj (List.mem_singleton.mp new)
            exact positive.ne'
    | other before silent keeps taken stays ih =>
        obtain ⟨inv, ⟨p, here, -⟩, heaps, rest⟩ := ih
        have there : _ ≠ none := here ▸ Option.some_ne_none p
        exact ⟨(step_leads lower inv taken).inv, stays,
          (step_heap lower inv there keeps taken stays).trans heaps, rest⟩
  obtain ⟨-, ⟨p, here, -⟩, heaps, advances, failed⟩ := kept
  rw [Kernel.heaps, here, Option.map_some, Option.some.injEq] at heaps
  exact ⟨p, _, here, advances, by rw [heaps], failed⟩

theorem heapSize_bare {image : List UInt8} {mapper : Mapper} {argv : List (List UInt8)} {r : Exec}
    {s s' : MemState}
    (bare : Bare image) (built : prepareExecImage mapper image argv s = .ok r s') :
    r.heapSize = 0 := by
  rw [prepareExecImage, if_neg (not_lt.mpr bare.length), Prog.bind_ok (bare.header s)] at built
  obtain ⟨root, s₁, -, built⟩ := Prog.bind_eq_ok.mp built
  rw [Prog.bind_ok (bare.load mapper s₁)] at built
  obtain ⟨_, s₂, -, built⟩ := Prog.bind_eq_ok.mp built
  obtain ⟨_, s₃, -, built⟩ := Prog.bind_eq_ok.mp built
  obtain ⟨stack, s₄, -, built⟩ := Prog.bind_eq_ok.mp built
  obtain ⟨rfl, -⟩ := Outcome.ok.inj built
  rfl

/-- The first process has an empty heap when it runs. -/
theorem running_heap : ∃ m p, Shows bareConfig m .running ∧ m.kernel.processTable 0 = some p ∧
    p.heapSize = 0 := by
  obtain ⟨k, created, boots, shown⟩ := boots_bare 40 (by decide)
  obtain ⟨m₁, scheduled, shown₁⟩ := shown.schedule bareConfig_lower rfl (n := 0) (by decide)
  obtain ⟨m, proceeded, shown₂⟩ := shown₁.proceed rfl (by decide)
  have start : k.heaps 0 = some 0 := by
    obtain ⟨_, k', made, rest⟩ := Prog.bind_eq_ok.mp created
    obtain ⟨-, rfl⟩ := Outcome.ok.inj rest
    obtain ⟨image, prepared, mem', pid, tid, found, built, free, -, processes, -⟩ :=
      createUserProcessFromPath_ok made
    obtain rfl : bareImage = image :=
      Option.some.inj ((show bareConfig.lookup barePath = some bareImage from rfl).symm.trans found)
    obtain rfl : 0 = pid := Option.some.inj
      ((show (Kernel.initial (bareMemory (40 + BARE_FRAMES) (by decide)) 0).freePid =
      some 0 from rfl).symm.trans free)
    rw [Kernel.heaps, processes, Function.update_self]
    exact congrArg some (heapSize_bare bareImage_bare built)
  have here : ∀ {m v}, Shows bareConfig m v → v.members[0]? = some ⟨.alive, false, none⟩ →
      ∃ p, m.kernel.processTable 0 = some p := fun shown member => by
    obtain ⟨p, entry, -⟩ := Option.map_eq_some_iff.mp ((shown.members 0).trans member)
    exact ⟨p, entry⟩
  obtain ⟨p, entry⟩ := here shown rfl
  obtain ⟨p₁, entry₁⟩ := here shown₁ rfl
  obtain ⟨p₂, entry₂⟩ := here shown₂ rfl
  have first := step_heap bareConfig_lower (boots.inv bareConfig_lower)
    (by simp [entry]) id scheduled
    ⟨p₁, entry₁, shown₁.live 0 p₁ entry₁⟩
  have second := step_heap bareConfig_lower (shown₁.reached.inv bareConfig_lower)
    (by simp [entry₁]) id proceeded
    ⟨p₂, entry₂, shown₂.live 0 p₂ entry₂⟩
  have heap := second.trans (first.trans start)
  rw [Kernel.heaps, entry₂, Option.map_some, Option.some.injEq] at heap
  exact ⟨m, p₂, shown₂, entry₂, heap⟩

/-- One more call of `sbrk` in a run. -/
theorem Calls.sbrk (before : Calls bareConfig 0 good m₀ calls m) (reached : Reachable bareConfig m)
    (pc : m.pc = .user 0) (serves : Serves m 0 0 p) (spared : p.killed = false)
    (live : p.live = true) (meets : good m n)
    (result : ∃ mem', (System.sbrk bareConfig n (m.calling 0 0 .new).kernel =
        .ok p.heapSize ((m.calling 0 0 .new).kernel.setMem mem') ∧ value = some p.heapSize) ∨
      ∃ message, System.sbrk bareConfig n (m.calling 0 0 .new).kernel =
        .err message ((m.calling 0 0 .new).kernel.setMem mem') ∧ value = none) :
    ∃ m', Calls bareConfig 0 good m₀ (calls ++ [(n, value)]) m' ∧ Reachable bareConfig m' ∧
      m'.pc = .user 0 ∧ Serves m' 0 0 p := by
  have user := (reached.inv bareConfig_lower).user pc
  have cur := (user.serves_calling 0 .new serves).toCurrent
  have taken := user.call_step serves spared pc (.sbrk n)
  obtain ⟨mem', result⟩ := result
  have cur' : Current ((m.calling 0 0 .new).setKernel
    ((m.calling 0 0 .new).kernel.setMem mem')).kernel 0 0 p :=
    ⟨cur.tid, cur.bound, cur.pid, cur.inside, cur.entry⟩
  obtain ⟨reply, called, body⟩ : ∃ reply,
      CallsSbrk bareConfig 0 m (.call 0 .new (.sbrk n)) n value ∧
      (m.calling 0 0 .new).dispatch bareConfig 0 0 (.sbrk n) = ((m.calling 0 0 .new).setKernel
        ((m.calling 0 0 .new).kernel.setMem mem')).finish 0 (.sbrk n) 0 reply := by
    obtain ⟨run, rfl⟩ | ⟨message, run, rfl⟩ := result
    · exact ⟨.value p.heapSize, .returns pc serves spared run, by rw [Machine.dispatch, run]; rfl⟩
    · exact ⟨.failed message, .fails pc serves spared run, by rw [Machine.dispatch, run]; rfl⟩
  obtain ⟨kernel, pc', -⟩ := finish_run (.sbrk n) 0 reply cur' spared
  rw [body] at taken
  have reached' := reached.step taken
  have owner := (congrArg (fun k => (k.threadTable 0).pid) kernel).trans cur'.pid
  have entry := (congrArg (fun k => k.processTable 0) kernel).trans cur'.entry
  obtain ⟨i, q, serves'⟩ := ((reached'.inv bareConfig_lower).user pc').serves
  obtain rfl : 0 = i := Option.some.inj (owner.symm.trans serves'.pid)
  obtain rfl : p = q := Option.some.inj (entry.symm.trans serves'.entry)
  exact ⟨_, before.call called meets taken ⟨p, entry, live⟩, reached', pc', serves'⟩

theorem userSpaceTop_eq : userSpaceTop = 2 ^ 47 := by decide

/-- A growth beyond the user space is refused. -/
theorem sbrk_beyond (cur : Current k t i p) (table : p.pageTable ≠ none)
    (heap : p.heapSize ≤ 2 ^ 47) (positive : 0 < n) (small : n < 2 ^ 63)
    (above : userSpaceTop ≤ p.heapSize + n.toNat) :
    sbrk cfg n k = .err "alloc_uvm: newsz is outside user space" k := by
  obtain ⟨f, table⟩ := Option.ne_none_iff_exists'.mp table
  have size : asUsize n = n.toNat := by
    rw [asUsize, Int.emod_eq_of_lt positive.le (by omega)]
  have sum : usizeAdd cfg p.heapSize (asUsize n) k = .ok (p.heapSize + n.toNat) k := by
    rw [usizeAdd, size, if_pos (by omega)]
    rfl
  have refused : onMem (allocUvm f p.heapSize (p.heapSize + n.toNat)) k =
      .err "alloc_uvm: newsz is outside user space" k := by
    rw [allocUvm, if_pos above]
    rfl
  have fails : growProcessHeap cfg n p k =
      .err "alloc_uvm: newsz is outside user space" k := by
    simp only [growProcessHeap, table, Prog.expect, Prog.pure_bind, if_pos positive]
    rw [Prog.bind_ok sum]
    exact Prog.bind_err refused
  rw [sbrk, Prog.bind_ok cur.currentPid_run]
  simp only [Prog.expect, Prog.pure_bind, Prog.bind_ok (processAt_run cur.inside), cur.entry,
    Prog.okOr]
  exact Prog.bind_err fails

/-- A growth that is refused, and a call that asks for the break. -/
theorem break_advances_refused : ∃ m₀ p₀ m p b, m₀.kernel.processTable 0 = some p₀ ∧
    Calls bareConfig 0 (Modest 0) m₀ [(0x800000000000, none), (0, some p₀.heapSize)] m ∧
      m.kernel.processTable 0 = some p ∧
      Advances p₀.heapSize [(0x800000000000, none), (0, some p₀.heapSize)] b ∧
        (p.heapSize : Int) = b := by
  obtain ⟨m₀, p₀, shown, entry, -⟩ := running_heap
  have live := shown.live 0 p₀ entry
  have whole := (shown.reached.inv bareConfig_lower).1.coherent.live 0 p₀ entry live
  obtain ⟨user, -, -, -, -, -, q, serves, spared, -⟩ :=
    shown.running bareConfig_lower rfl (by decide)
  obtain rfl := Option.some.inj (entry.symm.trans serves.entry)
  have cur := (user.serves_calling 0 .new serves).toCurrent
  have above : userSpaceTop ≤ p₀.heapSize + (0x800000000000 : Int).toNat := by
    rw [userSpaceTop_eq]
    omega
  obtain ⟨m₁, first, reached₁, pc₁, serves₁⟩ :=
    (.start : Calls bareConfig 0 (Modest 0) m₀ [] m₀).sbrk shown.reached
    shown.pc serves spared live ⟨p₀, entry, .inr ⟨by decide, by decide, .inl above⟩⟩
    ⟨_, .inr ⟨_, sbrk_beyond cur whole.table whole.heap (by decide)
      (by decide) above, rfl⟩⟩
  have cur₁ := (((reached₁.inv bareConfig_lower).user pc₁).serves_calling 0 .new serves₁).toCurrent
  obtain ⟨m, run, -⟩ := first.sbrk reached₁ pc₁ serves₁ spared live
    ⟨p₀, serves₁.entry, .inl rfl⟩ ⟨_, .inl ⟨sbrk_zero cur₁ whole.table, rfl⟩⟩
  obtain ⟨p, b, here, advances, same, -⟩ :=
    break_advances bareConfig_lower shown.reached entry live run
  exact ⟨m₀, p₀, m, p, b, entry, run, here, advances, same⟩

theorem first_growth : (∀ a ∈ growthPages 0 4096, pageIndices a ∉ bareRoutes) ∧
    (wanted (growthPages 0 4096) \ bareRoutes).card ≤ 40 := by decide +kernel

/-- A heap grows by a page, and the table does not know. -/
theorem sbrk_forgets : ∃ m₀ p₀ m, Reachable bareConfig m₀ ∧ m₀.kernel.processTable 0 = some p₀ ∧
    p₀.live = true ∧
    Calls bareConfig 0 (fun _ n => 0 ≤ n) m₀ [(4096, some p₀.heapSize)] m ∧
      ∀ p b, m.kernel.processTable 0 = some p → Advances p₀.heapSize [(4096, some p₀.heapSize)] b →
        (p.heapSize : Int) ≠ b := by
  obtain ⟨m₀, p₀, shown, entry, empty⟩ := running_heap
  obtain ⟨user, -, -, -, -, -, q, serves, spared, -⟩ :=
    shown.running bareConfig_lower rfl (by decide)
  obtain rfl := Option.some.inj (entry.symm.trans serves.entry)
  have calling := user.calling 0 .new
  have serves' := user.serves_calling 0 .new serves
  have space : treeRoutes (m₀.calling 0 0 .new).kernel.mem.ram 4
    (m₀.calling 0 0 .new).kernel.mem.cr3 = bareRoutes :=
    shown.space 0 p₀ _ entry serves'.table
  have frames : Multiset.card (m₀.calling 0 0 .new).kernel.mem.available = 40 := shown.frames
  have can : ¬ GrowthFails (m₀.calling 0 0 .new).kernel.mem.cr3 p₀.heapSize
    (p₀.heapSize + (4096 : Int).toNat)
      (m₀.calling 0 0 .new).kernel.mem := by
    rw [empty]
    rintro (above | ⟨a, member, mapped⟩ | short)
    · exact absurd above (by decide)
    · rw [pageMapped_routes, space] at mapped
      exact first_growth.1 a member mapped
    · rw [FramesShort, missing, space, frames] at short
      exact absurd first_growth.2 (not_le.mpr short)
  obtain ⟨mem', grown⟩ : ∃ mem', sbrk bareConfig 4096 (m₀.calling 0 0 .new).kernel =
      .ok p₀.heapSize ((m₀.calling 0 0 .new).kernel.setMem mem') :=
        sbrk_grows serves'.toCurrent serves'.table serves'.whole.heap
    (calling.kept.separate.owned_nodup serves'.inside serves'.root) (serves'.slots calling.kept)
    (by decide) (by decide) can
  obtain ⟨m, run, -, -, after⟩ : ∃ m,
    Calls bareConfig 0 (fun _ n => 0 ≤ n) m₀ [(4096, some p₀.heapSize)] m ∧ _ :=
    Calls.start.sbrk shown.reached shown.pc serves spared (shown.live 0 p₀ entry) (by decide)
      ⟨mem', .inl ⟨grown, rfl⟩⟩
  refine ⟨m₀, p₀, m, shown.reached, entry, shown.live 0 p₀ entry, run, fun p b here advances => ?_⟩
  rw [after.entry] at here
  obtain rfl := Option.some.inj here
  have moved : (p₀.heapSize : Int) + 4096 = b := advances.2
  omega

end FerriOS.System
