import FerriOS.Kernel.Plans

/-! # Children and their exit statuses

The history of a run says who forked whom, who exited with which status, and who
reaped whom. A slot of the process table is filled once in a run, so a pid stands
for one child.
-/

namespace FerriOS.System

open FerriOS.Lib FerriOS.Memory FerriOS.Loader

variable {cfg : Config} {m m' : Machine} {k k' : Kernel} {t i j : Nat} {p q : Process} {e : Entry}

/-- The child that an entry tells the birth of. -/
def Entry.born : Entry → Option Nat
  | .forked _ child => some child
  | _ => none

/-- The process that an entry tells the exit of. -/
def Entry.left : Entry → Option Nat
  | .exited pid _ _ => some pid
  | _ => none

/-- The child that an entry tells the reaping of. -/
def Entry.buried : Entry → Option Nat
  | .reaped _ child _ => some child
  | _ => none

/-- An entry that tells nothing of this. -/
def Entry.plain (e : Entry) : Prop := e.born = none ∧ e.left = none ∧ e.buried = none

/-- Every child of the history, live or not, is accounted for. -/
structure Custody (processes : Nat → Option Process) (history : List Entry) : Prop where
  parent : ∀ i p parent, processes i = some p → p.live = true → p.ppid = some parent →
    .forked parent i ∈ history
  status : ∀ i p, processes i = some p → p.state = .zombie → ∃ killed,
    .exited i p.exitStatus killed ∈ history
  vacant : ∀ i, processes i = none → i ∉ history.filterMap Entry.born ∧
    i ∉ history.filterMap Entry.left
  alive : ∀ i p, processes i = some p → p.state = .alive → i ∉ history.filterMap Entry.left
  live : ∀ i p, processes i = some p → p.live = true → i ∉ history.filterMap Entry.buried
  reaped : ∀ parent child status, .reaped parent child status ∈ history →
    .forked parent child ∈ history ∧ ∃ killed, .exited child status killed ∈ history
  killed : ∀ i status, .exited i status true ∈ history → status = RET_ERROR
  bornOnce : (history.filterMap Entry.born).Nodup
  leftOnce : (history.filterMap Entry.left).Nodup
  buriedOnce : (history.filterMap Entry.buried).Nodup

/-- Two entries of a table that agree in what the history tells. -/
def SameKin (a b : Option Process) : Prop :=
  (a = none ∧ b = none) ∨ ∃ p q, a = some p ∧ b = some q ∧ q.state = p.state ∧ q.ppid = p.ppid ∧
    q.exitStatus = p.exitStatus

theorem SameKin.refl {a : Option Process} : SameKin a a := by
  cases a with
  | none => exact .inl ⟨rfl, rfl⟩
  | some p => exact .inr ⟨p, p, rfl, rfl, rfl, rfl, rfl⟩

/-- Two tables that agree but for the slot `j`. -/
theorem SameKin.update (old : k.processTable j = some p) (state : q.state = p.state)
    (ppid : q.ppid = p.ppid)
    (status : q.exitStatus = p.exitStatus) (i : Nat) :
    SameKin (k.processTable i) (Function.update k.processTable j (some q) i) := by
  by_cases here : i = j
  · subst here
    exact .inr ⟨p, q, old, Function.update_self .., state, ppid, status⟩
  · rw [Function.update_of_ne here]
    exact .refl

variable {processes processes' : Nat → Option Process} {history new : List Entry}

theorem plain_filterMap {f : Entry → Option Nat} (none : ∀ e ∈ new, f e = none) :
    (new ++ history).filterMap f = history.filterMap f := by
  rw [List.filterMap_append, List.filterMap_eq_nil_iff.mpr none, List.nil_append]

/-- Steps that change nothing of this. -/
theorem Custody.same (new : List Entry) (custody : Custody processes history)
    (entries : ∀ i, SameKin (processes i) (processes' i))
    (plain : ∀ e ∈ new, e.plain) : Custody processes' (new ++ history) := by
  have old : ∀ {e}, e ∈ new ++ history → ¬ e.plain → e ∈ history := fun {e} member not =>
    (List.mem_append.mp member).resolve_left fun is => not (plain e is)
  have born : (new ++ history).filterMap Entry.born = history.filterMap Entry.born :=
    plain_filterMap fun e is => (plain e is).1
  have left : (new ++ history).filterMap Entry.left = history.filterMap Entry.left :=
    plain_filterMap fun e is => (plain e is).2.1
  have buried : (new ++ history).filterMap Entry.buried = history.filterMap Entry.buried :=
    plain_filterMap fun e is => (plain e is).2.2
  have back : ∀ {i q}, processes' i = some q → ∃ p, processes i = some p ∧ q.state = p.state ∧
    q.ppid = p.ppid ∧
      q.exitStatus = p.exitStatus := fun {i q} entry => by
    rcases entries i with ⟨-, absent⟩ | ⟨p, q', here, there, state, ppid, status⟩
    · cases absent.symm.trans entry
    · obtain rfl := Option.some.inj (there.symm.trans entry)
      exact ⟨p, here, state, ppid, status⟩
  have liveIff : ∀ {p q : Process}, q.state = p.state → q.live = p.live := fun state => by
    simp only [Process.live, state]
  refine ⟨fun i q parent entry live ppid => ?_, fun i q entry zombie => ?_, fun i entry => ?_,
    fun i q entry alive => ?_, fun i q entry live => ?_, fun parent child status member => ?_,
    fun i status member => ?_, born ▸ custody.bornOnce, left ▸ custody.leftOnce,
      buried ▸ custody.buriedOnce⟩
  · obtain ⟨p, here, state, same, -⟩ := back entry
    exact List.mem_append_right _
      (custody.parent i p parent here (liveIff state ▸ live) (same ▸ ppid))
  · obtain ⟨p, here, state, -, same⟩ := back entry
    obtain ⟨killed, member⟩ := custody.status i p here (state ▸ zombie)
    exact ⟨killed, List.mem_append_right _ (same ▸ member)⟩
  · rw [born, left]
    refine custody.vacant i ?_
    rcases entries i with ⟨absent, -⟩ | ⟨p, q', -, there, -⟩
    · exact absent
    · cases there.symm.trans entry
  · obtain ⟨p, here, state, -⟩ := back entry
    exact left ▸ custody.alive i p here (state ▸ alive)
  · obtain ⟨p, here, state, -⟩ := back entry
    exact buried ▸ custody.live i p here (liveIff state ▸ live)
  · obtain ⟨forked, killed, exited⟩ := custody.reaped parent child status
      (old member fun is => by cases is.2.2)
    exact ⟨List.mem_append_right _ forked, killed, List.mem_append_right _ exited⟩
  · exact custody.killed i status (old member fun is => by cases is.2.1)

theorem mem_born : i ∈ history.filterMap Entry.born ↔ ∃ parent, .forked parent i ∈ history := by
  rw [List.mem_filterMap]
  constructor
  · rintro ⟨e, member, is⟩
    cases e <;> simp [Entry.born] at is
    subst is
    exact ⟨_, member⟩
  · rintro ⟨parent, member⟩
    exact ⟨_, member, rfl⟩

theorem mem_buried : i ∈ history.filterMap Entry.buried ↔ ∃ parent status,
    .reaped parent i status ∈ history := by
  rw [List.mem_filterMap]
  constructor
  · rintro ⟨e, member, is⟩
    cases e <;> simp [Entry.buried] at is
    subst is
    exact ⟨_, _, member⟩
  · rintro ⟨parent, status, member⟩
    exact ⟨_, member, rfl⟩

/-- A child comes into a slot that was never used. -/
theorem Custody.fork (custody : Custody processes history) (free : processes j = none)
    (alive : q.state = .alive)
    (ppid : q.ppid = some i) :
    Custody (Function.update processes j (some q)) (.forked i j :: history) := by
  obtain ⟨unborn, unleft⟩ := custody.vacant j free
  have unburied : j ∉ history.filterMap Entry.buried := fun member => by
    obtain ⟨parent, status, member⟩ := mem_buried.mp member
    exact unborn (mem_born.mpr ⟨parent, (custody.reaped parent j status member).1⟩)
  refine ⟨fun k p parent entry live is => ?_, fun k p entry zombie => ?_, fun k entry => ?_,
    fun k p entry is => ?_, fun k p entry live => ?_, fun parent child status member => ?_,
    fun k status member => ?_, List.nodup_cons.mpr ⟨unborn, custody.bornOnce⟩, custody.leftOnce,
      custody.buriedOnce⟩
  · by_cases here : k = j
    · subst here
      rw [Function.update_self, Option.some.injEq] at entry
      subst entry
      rw [Option.some.inj (is.symm.trans ppid)]
      exact List.mem_cons_self
    · rw [Function.update_of_ne here] at entry
      exact List.mem_cons_of_mem _ (custody.parent k p parent entry live is)
  · by_cases here : k = j
    · subst here
      rw [Function.update_self, Option.some.injEq] at entry
      subst entry
      cases alive.symm.trans zombie
    · rw [Function.update_of_ne here] at entry
      obtain ⟨killed, member⟩ := custody.status k p entry zombie
      exact ⟨killed, List.mem_cons_of_mem _ member⟩
  · have here : k ≠ j := by
      rintro rfl
      simp at entry
    rw [Function.update_of_ne here] at entry
    exact ⟨fun member => (List.mem_cons.mp member).elim here (custody.vacant k entry).1,
      (custody.vacant k entry).2⟩
  · by_cases here : k = j
    · subst here
      exact unleft
    · rw [Function.update_of_ne here] at entry
      exact custody.alive k p entry is
  · by_cases here : k = j
    · subst here
      exact unburied
    · rw [Function.update_of_ne here] at entry
      exact custody.live k p entry live
  · obtain ⟨forked, killed, exited⟩ := custody.reaped parent child status
      ((List.mem_cons.mp member).resolve_left fun is => nomatch is)
    exact ⟨List.mem_cons_of_mem _ forked, killed, List.mem_cons_of_mem _ exited⟩
  · exact custody.killed k status ((List.mem_cons.mp member).resolve_left fun is => nomatch is)

/-- A process exits. -/
theorem Custody.exit {status : Int} {killed : Bool} (custody : Custody processes history)
    (entry : processes i = some p) (alive : p.state = .alive)
    (cause : killed = true → status = RET_ERROR) :
    Custody (Function.update processes i (some { p with state := .zombie, exitStatus := status }))
      (.exited i status killed :: history) := by
  have live : p.live = true := Process.live_iff.mpr (.inl alive)
  refine ⟨fun k q parent entry' live' is => ?_, fun k q entry' zombie => ?_, fun k entry' => ?_,
    fun k q entry' is => ?_, fun k q entry' live' => ?_, fun parent child status' member => ?_,
    fun k status' member => ?_, custody.bornOnce,
    List.nodup_cons.mpr ⟨custody.alive i p entry alive, custody.leftOnce⟩, custody.buriedOnce⟩
  · refine List.mem_cons_of_mem _ ?_
    by_cases here : k = i
    · subst here
      rw [Function.update_self, Option.some.injEq] at entry'
      subst entry'
      exact custody.parent k p parent entry live is
    · rw [Function.update_of_ne here] at entry'
      exact custody.parent k q parent entry' live' is
  · by_cases here : k = i
    · subst here
      rw [Function.update_self, Option.some.injEq] at entry'
      subst entry'
      exact ⟨killed, List.mem_cons_self⟩
    · rw [Function.update_of_ne here] at entry'
      obtain ⟨killed', member⟩ := custody.status k q entry' zombie
      exact ⟨killed', List.mem_cons_of_mem _ member⟩
  · have here : k ≠ i := by
      rintro rfl
      simp at entry'
    rw [Function.update_of_ne here] at entry'
    exact ⟨(custody.vacant k entry').1, fun member =>
      (List.mem_cons.mp member).elim here (custody.vacant k entry').2⟩
  · have here : k ≠ i := by
      rintro rfl
      rw [Function.update_self, Option.some.injEq] at entry'
      subst entry'
      cases is
    rw [Function.update_of_ne here] at entry'
    exact fun member => (List.mem_cons.mp member).elim here (custody.alive k q entry' is)
  · by_cases here : k = i
    · subst here
      exact custody.live k p entry live
    · rw [Function.update_of_ne here] at entry'
      exact custody.live k q entry' live'
  · obtain ⟨forked, killed', exited⟩ := custody.reaped parent child status'
      ((List.mem_cons.mp member).resolve_left fun is => nomatch is)
    exact ⟨List.mem_cons_of_mem _ forked, killed', List.mem_cons_of_mem _ exited⟩
  · rcases List.mem_cons.mp member with is | before
    · injection is with pid same mark
      subst pid same mark
      exact cause rfl
    · exact custody.killed k status' before

/-- A parent reaps its child. -/
theorem Custody.reap (custody : Custody processes history) (entry : processes j = some p)
    (zombie : p.state = .zombie)
    (ppid : p.ppid = some i) :
    Custody (Function.update processes j (some .new)) (.reaped i j p.exitStatus :: history) := by
  have live : p.live = true := Process.live_iff.mpr (.inr zombie)
  have blank : Process.new.live = false := rfl
  have elsewhere : ∀ {k q}, Function.update processes j (some Process.new) k = some q →
    q.live = true → k ≠ j := by
    rintro k q entry' live' rfl
    rw [Function.update_self, Option.some.injEq] at entry'
    subst entry'
    cases blank.symm.trans live'
  refine ⟨fun k q parent entry' live' is => ?_, fun k q entry' zombie' => ?_, fun k entry' => ?_,
    fun k q entry' is => ?_, fun k q entry' live' => ?_, fun parent child status' member => ?_,
    fun k status' member => ?_, custody.bornOnce, custody.leftOnce,
    List.nodup_cons.mpr ⟨custody.live j p entry live, custody.buriedOnce⟩⟩
  · rw [Function.update_of_ne (elsewhere entry' live')] at entry'
    exact List.mem_cons_of_mem _ (custody.parent k q parent entry' live' is)
  · rw [Function.update_of_ne (elsewhere entry' (Process.live_iff.mpr (.inr zombie')))] at entry'
    obtain ⟨killed, member⟩ := custody.status k q entry' zombie'
    exact ⟨killed, List.mem_cons_of_mem _ member⟩
  · have here : k ≠ j := by
      rintro rfl
      simp at entry'
    rw [Function.update_of_ne here] at entry'
    exact custody.vacant k entry'
  · rw [Function.update_of_ne (elsewhere entry' (Process.live_iff.mpr (.inl is)))] at entry'
    exact custody.alive k q entry' is
  · have here := elsewhere entry' live'
    rw [Function.update_of_ne here] at entry'
    exact fun member => (List.mem_cons.mp member).elim here (custody.live k q entry' live')
  · rcases List.mem_cons.mp member with is | before
    · injection is with parent' child' same
      subst parent' child' same
      obtain ⟨killed, exited⟩ := custody.status child p entry zombie
      exact ⟨List.mem_cons_of_mem _ (custody.parent child p parent entry live ppid), killed,
        List.mem_cons_of_mem _ exited⟩
    · obtain ⟨forked, killed, exited⟩ := custody.reaped parent child status' before
      exact ⟨List.mem_cons_of_mem _ forked, killed, List.mem_cons_of_mem _ exited⟩
  · exact custody.killed k status' ((List.mem_cons.mp member).resolve_left fun is => nomatch is)

/-- Every action keeps the account. -/
theorem Custody.acts (acts : Acts cfg m m') (custody : Custody m.kernel.processTable m.history) :
    Custody m'.kernel.processTable m'.history := by
  obtain ⟨kept, action, -⟩ := acts
  cases action with
  | quiet quiet =>
      obtain ⟨new, shape, only⟩ := quiet.history
      rw [quiet.processes, shape]
      refine custody.same _ (fun _ => .refl) fun e member => ?_
      obtain ⟨base, rfl⟩ := only e member
      exact ⟨rfl, rfl, rfl⟩
  | returned =>
      refine custody.same [_] (fun _ => .refl) fun e member => ?_
      obtain rfl := List.mem_singleton.mp member
      exact ⟨rfl, rfl, rfl⟩
  | exit serves notInit killed cause =>
      refine custody.exit serves.entry serves.alive fun is => ?_
      subst is
      exact cause.2
  | fork serves spared free freeT tf copied =>
      exact custody.fork (freePid_spec free).2 rfl (congrArg some serves.whole.pid)
  | forkFails => exact custody
  | exec serves _ _ _ _ _ =>
      exact custody.same [] (SameKin.update serves.entry rfl rfl rfl) (by simp)
  | execFails => exact custody
  | sbrk => exact custody
  | kill _ _ _ entry => exact custody.same [] (SameKin.update entry rfl rfl rfl) (by simp)
  | reap serves found entry owns table freed =>
      obtain ⟨c, -, -, entry', zombie, ppid, place, -⟩ := serves.child kept found
      obtain rfl := Option.some.inj (entry.symm.trans entry')
      subst place
      exact custody.reap entry zombie ppid

theorem Booted.custody (booted : Booted k) : Custody k.processTable [] := by
  refine ⟨fun i p parent entry _ ppid => ?_, fun i p entry zombie =>
    ?_, by simp, by simp, by simp, by simp, by simp,
    by simp, by simp, by simp⟩
  · cases (booted.first i p entry).2.symm.trans ppid
  · cases (booted.first i p entry).1.symm.trans zombie

theorem Reachable.custody (lower : cfg.LowerHalf) (reached : Reachable cfg m) :
    Custody m.kernel.processTable m.history :=
  reached.always lower (I := fun m => Custody m.kernel.processTable m.history)
    (fun _ booted => booted.custody)
    fun _ _ acts => Custody.acts acts

/-- Two entries that a map to keys tells apart at most once are the same. -/
theorem filterMap_once {f : Entry → Option Nat} {a b : Entry} (once : (history.filterMap f).Nodup)
    (memberA : a ∈ history) (memberB : b ∈ history) (keyA : f a = some i) (keyB : f b = some i) :
    a = b := by
  induction history with
  | nil => cases memberA
  | cons e history ih =>
      have later : ∀ {c}, c ∈ history → f c = some i → f e ≠ some i := fun {c} member key here => by
        rw [List.filterMap_cons_some here] at once
        exact (List.nodup_cons.mp once).1 (List.mem_filterMap.mpr ⟨c, member, key⟩)
      have rest : (history.filterMap f).Nodup := by
        cases key : f e with
        | none => rwa [List.filterMap_cons_none key] at once
        | some j =>
            rw [List.filterMap_cons_some key] at once
            exact (List.nodup_cons.mp once).2
      rcases List.mem_cons.mp memberA with rfl | restA
      · rcases List.mem_cons.mp memberB with rfl | restB
        · rfl
        · exact absurd keyA (later restB keyB)
      · rcases List.mem_cons.mp memberB with rfl | restB
        · exact absurd keyB (later restA keyA)
        · exact ih rest restA restB

/-- In every run a `wait` that returns names a child that the caller forked and that
    has exited, with the status of its exit; no child is reaped twice, and none by a
    stranger. -/
theorem wait_delivers (lower : cfg.LowerHalf) (reached : Reachable cfg m) :
    (∀ parent child status, .reaped parent child status ∈ m.history →
      .forked parent child ∈ m.history ∧
      (∀ other, .forked other child ∈ m.history → other = parent) ∧
      ∃ killed, .exited child status killed ∈ m.history ∧ (killed = true → status = RET_ERROR) ∧
        ∀ status' killed', .exited child status' killed' ∈ m.history → status' = status) ∧
    (m.history.filterMap Entry.buried).Nodup := by
  have custody := reached.custody lower
  refine ⟨fun parent child status member => ?_, custody.buriedOnce⟩
  obtain ⟨forked, killed, exited⟩ := custody.reaped parent child status member
  refine ⟨forked, fun other again => ?_, killed, exited, fun is => ?_, fun status' killed' again =>
    ?_⟩
  · have same := filterMap_once custody.bornOnce again forked rfl rfl
    injection same
  · exact custody.killed child status (is ▸ exited)
  · have same := filterMap_once custody.leftOnce again exited rfl rfl
    injection same

/-- A parent reaps its child. -/
theorem wait_delivers_child : ∃ m status, Reachable bareConfig m ∧ .reaped 0 1 status ∈ m.history ∧
    .forked 0 1 ∈ m.history ∧ ∃ killed, .exited 1 status killed ∈ m.history := by
  obtain ⟨m, shown⟩ := bereft_reached
  have reached := shown.call bareConfig_lower rfl (by decide) .wait
  obtain ⟨status, reaped⟩ := shown.reaps bareConfig_lower rfl (by decide) (i := 1) (by decide)
  obtain ⟨forked, -, killed, exited, -⟩ :=
    (wait_delivers bareConfig_lower reached).1 0 1 status reaped
  exact ⟨_, status, reached, reaped, forked, killed, exited⟩

end FerriOS.System
