import FerriOS.Kernel.Effects
import FerriOS.Memory.AddressSpaces

/-! # The tables agree

Processes and threads point at each other: a live process has one thread, which
names the process, and is a zombie when the process is. A slot of the process
table that is not live holds no address space.
-/

namespace FerriOS.System

open FerriOS.Lib FerriOS.Memory FerriOS.Loader

variable {k k' : Kernel} {t i j : Nat} {p q : Process}

/-- The thread has been released to the scheduler. -/
def Thread.Started (thread : Thread) : Prop := thread.state ≠ .unused ∧ thread.state ≠ .embryo

/-- The scheduler may run the thread, or runs it. -/
def Thread.Ready (thread : Thread) : Prop := thread.state = .runnable ∨ thread.state = .running

theorem Thread.Ready.started {thread : Thread} (ready : thread.Ready) : thread.Started := by
  rcases ready with state | state <;> simp [Thread.Started, state]

/-- The thread of a process in the given state. -/
def Plays (process : ProcessState) (thread : Thread) : Prop :=
  (process = .alive ∧ thread.Ready) ∨ (process = .zombie ∧ thread.state = .zombie)

/-- Thread `t` belongs to the process `p` with pid `i`. -/
structure Owns (k : Kernel) (i : Nat) (p : Process) (t : Nat) : Prop where
  threads : p.threads = [t]
  bound : t < NTHREAD
  pid : (k.threadTable t).pid = some i
  tf : (k.threadTable t).tf ≠ none
  plays : Plays p.state (k.threadTable t)

/-- What holds of a live entry. -/
structure LiveEntry (k : Kernel) (i : Nat) (p : Process) : Prop where
  pid : p.pid = i
  bound : i < NPROCESS - 1
  orphan : p.ppid ≠ some i
  table : p.pageTable ≠ none
  heap : p.heapSize ≤ 2 ^ 47
  thread : ∃ t, Owns k i p t

structure Coherent (k : Kernel) : Prop where
  live : ∀ i p, k.processTable i = some p → p.live = true → LiveEntry k i p
  blank : ∀ i p, k.processTable i = some p → p.live = false →
    p.pageTable = none ∧ p.ppid = none ∧ p.pid = 0
  owner : ∀ t i, (k.threadTable t).pid = some i → (k.threadTable t).Started →
    ∃ p, k.processTable i = some p ∧ p.live = true ∧ p.threads = [t]

theorem Process.live_iff : p.live = true ↔ p.state = .alive ∨ p.state = .zombie := by
  simp [Process.live]

theorem LiveEntry.inside (entry : LiveEntry k i p) : i < NPROCESS := by
  have bound := entry.bound
  simp only [NPROCESS] at bound ⊢
  omega

theorem LiveEntry.owns (entry : LiveEntry k i p) (threads : p.threads = [t]) : Owns k i p t := by
  obtain ⟨t', owns⟩ := entry.thread
  have same := owns.threads
  rw [threads] at same
  obtain rfl := (List.cons.inj same).1
  exact owns

theorem Coherent.ready_alive (coh : Coherent k) (pid : (k.threadTable t).pid = some i)
    (ready : (k.threadTable t).Ready) :
    ∃ p, k.processTable i = some p ∧ p.state = .alive ∧ LiveEntry k i p ∧ Owns k i p t := by
  obtain ⟨p, entry, live, threads⟩ := coh.owner t i pid ready.started
  have whole := coh.live i p entry live
  have owns := whole.owns threads
  rcases owns.plays with ⟨alive, -⟩ | ⟨-, zombie⟩
  · exact ⟨p, entry, alive, whole, owns⟩
  · rcases ready with state | state <;> rw [zombie] at state <;> cases state

/-- A thread that changed, but plays the same part. -/
structure SameRole (a b : Thread) : Prop where
  pid : b.pid = a.pid
  tf : a.tf ≠ none → b.tf ≠ none
  state : b.state = a.state ∨ (a.Ready ∧ b.Ready)

theorem SameRole.refl {a : Thread} : SameRole a a := ⟨rfl, id, .inl rfl⟩

theorem SameRole.trans {a b c : Thread} (first : SameRole a b) (second : SameRole b c) :
    SameRole a c where
  pid := second.pid.trans first.pid
  tf := second.tf ∘ first.tf
  state := by
    rcases first.state with same | ⟨readyA, readyB⟩
    · rcases second.state with same' | ⟨readyB, readyC⟩
      · exact .inl (same'.trans same)
      · refine .inr ⟨?_, readyC⟩
        rwa [Thread.Ready, same] at readyB
    · rcases second.state with same' | ⟨-, readyC⟩
      · refine .inr ⟨readyA, ?_⟩
        rwa [Thread.Ready, same']
      · exact .inr ⟨readyA, readyC⟩

theorem SameRole.plays {a b : Thread} {s : ProcessState} (same : SameRole a b)
    (plays : Plays s a) : Plays s b := by
  rcases same.state with state | ⟨readyA, readyB⟩
  · exact plays.imp (fun ⟨alive, ready⟩ => ⟨alive, by rwa [Thread.Ready, state]⟩)
      fun ⟨zombie, is⟩ => ⟨zombie, state.trans is⟩
  · refine plays.imp (fun ⟨alive, _⟩ => ⟨alive, readyB⟩) fun ⟨_, is⟩ => ?_
    rcases readyA with state | state <;> rw [is] at state <;> cases state

theorem SameRole.started {a b : Thread} (same : SameRole a b) (started : b.Started) :
    a.Started := by
  rcases same.state with state | ⟨readyA, -⟩
  · rwa [Thread.Started, ← state]
  · exact readyA.started

/-- The process entry changed, but stays the same process. -/
structure SameProcess (p q : Process) : Prop where
  pid : q.pid = p.pid
  ppid : q.ppid = p.ppid
  state : q.state = p.state
  threads : q.threads = p.threads
  table : q.pageTable = none ↔ p.pageTable = none
  heap : p.heapSize ≤ 2 ^ 47 → q.heapSize ≤ 2 ^ 47

theorem SameProcess.refl : SameProcess p p := ⟨rfl, rfl, rfl, rfl, Iff.rfl, id⟩

theorem SameProcess.live (same : SameProcess p q) : q.live = p.live := by
  simp only [Process.live, same.state]

/-- Two entries of a table: both empty, or the same process. -/
def SameEntry (a b : Option Process) : Prop :=
  (a = none ∧ b = none) ∨ ∃ p q, a = some p ∧ b = some q ∧ SameProcess p q

theorem SameEntry.refl {a : Option Process} : SameEntry a a := by
  cases a with
  | none => exact .inl ⟨rfl, rfl⟩
  | some p => exact .inr ⟨p, p, rfl, rfl, .refl⟩

theorem Owns.same (owns : Owns k i p t) (same : SameProcess p q)
    (role : SameRole (k.threadTable t) (k'.threadTable t)) : Owns k' i q t where
  threads := same.threads.trans owns.threads
  bound := owns.bound
  pid := role.pid.trans owns.pid
  tf := role.tf owns.tf
  plays := same.state ▸ role.plays owns.plays

/-- Steps that change neither who is there nor which part they play. -/
theorem Coherent.same (coh : Coherent k)
    (entries : ∀ i, SameEntry (k.processTable i) (k'.processTable i))
    (roles : ∀ t, SameRole (k.threadTable t) (k'.threadTable t)) : Coherent k' where
  live i q entry live := by
    rcases entries i with ⟨-, absent⟩ | ⟨p, q', old, new, same⟩
    · simp [absent] at entry
    · obtain rfl := Option.some.inj (new.symm.trans entry)
      have whole := coh.live i p old (same.live ▸ live)
      obtain ⟨t, owns⟩ := whole.thread
      exact ⟨same.pid.trans whole.pid, whole.bound, same.ppid ▸ whole.orphan,
        fun gone => whole.table (same.table.mp gone), same.heap whole.heap, t,
          owns.same same (roles t)⟩
  blank i q entry dead := by
    rcases entries i with ⟨-, absent⟩ | ⟨p, q', old, new, same⟩
    · simp [absent] at entry
    · obtain rfl := Option.some.inj (new.symm.trans entry)
      have blank := coh.blank i p old (same.live ▸ dead)
      exact ⟨same.table.mpr blank.1, same.ppid ▸ blank.2.1, same.pid ▸ blank.2.2⟩
  owner t i pid started := by
    obtain ⟨p, old, live, threads⟩ :=
      coh.owner t i ((roles t).pid ▸ pid) ((roles t).started started)
    rcases entries i with ⟨absent, -⟩ | ⟨p', q, old', new, same⟩
    · simp [absent] at old
    · obtain rfl := Option.some.inj (old'.symm.trans old)
      exact ⟨q, new, same.live.trans live, same.threads.trans threads⟩

theorem SameEntry.update {pid : Nat} (old : k.processTable pid = some p) (same : SameProcess p q)
    (i : Nat) :
    SameEntry (k.processTable i) ((k.setProcess pid (some q)).processTable i) := by
  by_cases here : i = pid
  · subst here
    exact .inr ⟨p, q, old, Kernel.setProcess_at .., same⟩
  · rw [Kernel.setProcess_ne _ here]
    exact .refl

theorem SameRole.update {thread : Thread} (same : SameRole (k.threadTable t) thread) (u : Nat) :
    SameRole (k.threadTable u) ((k.setThread t thread).threadTable u) := by
  by_cases here : u = t
  · subst here
    rwa [Kernel.setThread_at]
  · rw [Kernel.setThread_ne _ here]
    exact .refl

theorem Plays.started {s : ProcessState} {thread : Thread} (plays : Plays s thread) :
    thread.Started := by
  rcases plays with ⟨-, ready⟩ | ⟨-, zombie⟩
  · exact ready.started
  · simp [Thread.Started, zombie]

/-- A process slot and a thread slot changed together. No other process has had
    that thread, and no other thread that process. -/
theorem Coherent.slot {thread : Thread} (coh : Coherent k)
    (strangers : ∀ i c, i ≠ j → ¬ Owns k i c t)
    (strays : ∀ u, u ≠ t → (k.threadTable u).pid = some j → ¬ (k.threadTable u).Started)
    (fresh : q.live = true → LiveEntry ((k.setProcess j (some q)).setThread t thread) j q)
    (dead : q.live = false → q.pageTable = none ∧ q.ppid = none ∧ q.pid = 0)
    (mine : ∀ i, thread.pid = some i → thread.Started → i = j ∧ q.live = true ∧ q.threads = [t]) :
    Coherent ((k.setProcess j (some q)).setThread t thread) := by
  have self : ((k.setProcess j (some q)).setThread t thread).threadTable t = thread :=
    Kernel.setThread_at ..
  have here : ((k.setProcess j (some q)).setThread t thread).processTable j = some q :=
    Kernel.setProcess_at ..
  have threads : ∀ {u}, u ≠ t → ((k.setProcess j (some q)).setThread t thread).threadTable u =
      k.threadTable u := fun other => Kernel.setThread_ne _ other
  have processes : ∀ {i}, i ≠ j → ((k.setProcess j (some q)).setThread t thread).processTable i =
      k.processTable i := fun other => Kernel.setProcess_ne _ other
  refine ⟨fun i c found live => ?_, fun i c found dead' => ?_, fun u i pid started => ?_⟩
  · by_cases same : i = j
    · subst same
      obtain rfl := Option.some.inj (here.symm.trans found)
      exact fresh live
    · rw [processes same] at found
      have old := coh.live i c found live
      obtain ⟨u, owns⟩ := old.thread
      have other : u ≠ t := by
        rintro rfl
        exact strangers i c same owns
      refine ⟨old.pid, old.bound, old.orphan, old.table, old.heap, u, owns.same .refl ?_⟩
      rw [threads other]
      exact .refl
  · by_cases same : i = j
    · subst same
      obtain rfl := Option.some.inj (here.symm.trans found)
      exact dead dead'
    · rw [processes same] at found
      exact coh.blank i c found dead'
  · by_cases same : u = t
    · subst same
      rw [self] at pid started
      obtain ⟨rfl, live, single⟩ := mine i pid started
      exact ⟨q, here, live, single⟩
    · rw [threads same] at pid started
      obtain ⟨c, found, live, single⟩ := coh.owner u i pid started
      have other : i ≠ j := by
        rintro rfl
        exact strays u same pid started
      exact ⟨c, by rw [processes other, found], live, single⟩

theorem Owns.stranger {c : Process} (owns : Owns k i p t) (other : j ≠ i) : ¬ Owns k j c t :=
  fun ownsC => other (Option.some.inj (ownsC.pid.symm.trans owns.pid))

theorem Coherent.strays (coh : Coherent k) (entry : k.processTable i = some p)
    (owns : Owns k i p t) (u : Nat)
    (other : u ≠ t) (pid : (k.threadTable u).pid = some i) : ¬ (k.threadTable u).Started := by
  intro started
  obtain ⟨c, found, -, single⟩ := coh.owner u i pid started
  obtain rfl := Option.some.inj (entry.symm.trans found)
  rw [owns.threads] at single
  exact other (List.cons.inj single).1.symm

/-- The process that exits becomes a zombie together with its thread. -/
theorem Coherent.exit (coh : Coherent k) (entry : k.processTable i = some p) (alive : p.live = true)
    (owns : Owns k i p t) (status : Int) :
    Coherent ((k.setProcess i (some { p with state := .zombie, exitStatus := status })).setThread t
      { k.threadTable t with state := .zombie }) := by
  have whole := coh.live i p entry alive
  refine coh.slot (fun j c other => owns.stranger other) (coh.strays entry owns) (fun _ => ?_)
    (fun dead => by simp [Process.live] at dead) fun j pid _ => ?_
  · refine ⟨whole.pid, whole.bound, whole.orphan, whole.table, whole.heap, t, owns.threads,
      owns.bound, ?_, ?_, ?_⟩
    · rw [Kernel.setThread_at]
      exact owns.pid
    · rw [Kernel.setThread_at]
      exact owns.tf
    · rw [Kernel.setThread_at]
      exact .inr ⟨rfl, rfl⟩
  · exact ⟨Option.some.inj (pid.symm.trans owns.pid), rfl, owns.threads⟩

theorem Owns.used (owns : Owns k i p t) : (k.threadTable t).state ≠ .unused := owns.plays.started.1

theorem Coherent.vacant (coh : Coherent k) (entry : k.processTable i = none) (u : Nat)
    (pid : (k.threadTable u).pid = some i) : ¬ (k.threadTable u).Started := by
  intro started
  obtain ⟨c, found, -⟩ := coh.owner u i pid started
  simp [entry] at found

/-- A process with a thread of its own comes into slots that were free. -/
theorem Coherent.fork (thread : Thread) (coh : Coherent k) (free : k.processTable j = none)
    (unused : (k.threadTable t).state = .unused) (bound : j < NPROCESS - 1) (boundT : t < NTHREAD)
    (pid : q.pid = j) (alive : q.state = .alive) (orphan : q.ppid ≠ some j)
    (table : q.pageTable ≠ none)
    (heap : q.heapSize ≤ 2 ^ 47) (threads : q.threads = [t]) (owner : thread.pid = some j)
    (tf : thread.tf ≠ none) (ready : thread.state = .runnable) :
    Coherent ((k.setProcess j (some q)).setThread t thread) := by
  have live : q.live = true := Process.live_iff.mpr (.inl alive)
  refine coh.slot (fun i c _ owns => owns.used unused) (fun u _ => coh.vacant free u) (fun _ => ?_)
    (fun dead => by simp [live] at dead) fun i pid' _ => ?_
  · refine ⟨pid, bound, orphan, table, heap, t, threads, boundT, ?_, ?_, ?_⟩
    · rw [Kernel.setThread_at]
      exact owner
    · rw [Kernel.setThread_at]
      exact tf
    · rw [Kernel.setThread_at]
      exact .inl ⟨alive, .inl ready⟩
  · exact ⟨Option.some.inj (pid'.symm.trans owner), live, threads⟩

theorem Coherent.release (coh : Coherent k) (entry : k.processTable i = some p)
    (owns : Owns k i p t) :
    Coherent ((k.setProcess i (some .new)).setThread t .new) :=
  coh.slot (fun j c other => owns.stranger other) (coh.strays entry owns)
    (fun live => by simp [Process.live, Process.new] at live) (fun _ => ⟨rfl, rfl, rfl⟩)
    fun j pid _ => by simp [Thread.new] at pid

/-- A thread that is not started, or belongs to no process, comes into a slot that
    was unused. -/
theorem Coherent.thread (thread : Thread) (coh : Coherent k)
    (unused : (k.threadTable t).state = .unused)
    (quiet : thread.Started → thread.pid = none) : Coherent (k.setThread t thread) where
  live i c found live := by
    have old := coh.live i c found live
    obtain ⟨u, owns⟩ := old.thread
    have other : u ≠ t := by
      rintro rfl
      exact owns.used unused
    refine ⟨old.pid, old.bound, old.orphan, old.table, old.heap, u, owns.same .refl ?_⟩
    rw [Kernel.setThread_ne _ other]
    exact .refl
  blank := coh.blank
  owner u i pid started := by
    by_cases same : u = t
    · subst same
      rw [Kernel.setThread_at] at pid started
      simp [quiet started] at pid
    · rw [Kernel.setThread_ne _ same] at pid started
      exact coh.owner u i pid started

/-- `kill` finds a live process by its pid: a blank entry has pid 0, but the process
    with pid 0 comes first. -/
theorem kill_run (coherent : Coherent k) (target : k.processTable i = some p)
    (live : p.live = true) :
    kill i k = .ok () (k.setProcess i (some { p with killed := true })) := by
  have whole := coherent.live i p target live
  have found : (List.range (NPROCESS - 1)).find?
    (fun j => (k.processTable j).any (·.pid == i)) = some i := by
    refine List.find?_range_eq_some.mpr
      ⟨by simp [target, whole.pid], List.mem_range.mpr whole.bound,
      fun j below => ?_⟩
    cases entry : k.processTable j with
    | none => rfl
    | some q =>
        have different : q.pid ≠ i := fun pid => by
          cases dead : q.live with
          | true =>
              have place := (coherent.live j q entry dead).pid
              omega
          | false =>
              have blank := (coherent.blank j q entry dead).2.2
              omega
        simp [different]
  rw [kill, Prog.get_bind, found]
  simp only [Prog.okOr_some, Prog.pure_bind, Prog.bind_ok (processAt_run whole.inside), target,
    Prog.expect_some, putProcess_run whole.inside]

end FerriOS.System
