import FerriOS.Kernel.Machine

/-! # The round robin is fair

The search starts behind the current thread and goes once around the table. What a
runnable thread waits for is the number of slots before it, and every decision for
another thread passes at least one of them.
-/

namespace FerriOS.System

open FerriOS.Lib FerriOS.Memory

variable {k : Kernel} {t c : Nat}

/-- Where a search starts: behind the current thread, or at the first slot. -/
def searchStart (k : Kernel) : Nat := k.cpu.currentTid.getD (NTHREAD - 1)

/-- How many slots a search that starts behind `current` passes before it comes to `t`. -/
def slotsBefore (current t : Nat) : Nat := (t + (NTHREAD - 1) - current % NTHREAD) % NTHREAD

theorem slotsBefore_lt (current t : Nat) : slotsBefore current t < NTHREAD :=
    Nat.mod_lt _ (by decide)

theorem slotsBefore_spec {current : Nat} (bound : t < NTHREAD) :
    (current + (slotsBefore current t + 1)) % NTHREAD = t := by
  simp only [slotsBefore, NTHREAD] at bound ⊢
  omega

theorem slotsBefore_step {current j : Nat} (inside : j < slotsBefore current t) :
    slotsBefore ((current + (j + 1)) % NTHREAD) t + (j + 1) = slotsBefore current t := by
  simp only [slotsBefore, NTHREAD] at inside ⊢
  omega

theorem findNext_some (found : findNextRunnableThread k = some c) : ∃ j < NTHREAD,
    (searchStart k + (j + 1)) % NTHREAD = c ∧ (k.threadTable c).state = .runnable ∧
      ∀ i < j, (k.threadTable ((searchStart k + (i + 1)) % NTHREAD)).state ≠ .runnable := by
  rw [findNextRunnableThread, List.find?_eq_some_iff_getElem] at found
  obtain ⟨runnable, j, inside, place, before⟩ := found
  simp only [List.length_map, List.length_range] at inside
  simp only [List.getElem_map, List.getElem_range] at place before
  refine ⟨j, inside, place, by simpa using runnable, fun i earlier => ?_⟩
  simpa [searchStart] using before i earlier

theorem findNext_none (none : findNextRunnableThread k = none) (bound : t < NTHREAD) :
    (k.threadTable t).state ≠ .runnable := by
  rw [findNextRunnableThread, List.find?_eq_none] at none
  have member : t ∈ (List.range NTHREAD).map fun i => (searchStart k + (i + 1)) % NTHREAD :=
    List.mem_map.mpr ⟨_, List.mem_range.mpr (slotsBefore_lt _ _), slotsBefore_spec bound⟩
  simpa using none t member

/-- A decision for another thread brings the search nearer to a runnable thread. -/
theorem findNext_nearer (bound : t < NTHREAD) (runnable : (k.threadTable t).state = .runnable)
    (other : findNextRunnableThread k ≠ some t) : ∃ c, findNextRunnableThread k = some c ∧
      slotsBefore c t < slotsBefore (searchStart k) t := by
  cases found : findNextRunnableThread k with
  | none => exact absurd runnable (findNext_none found bound)
  | some c =>
      obtain ⟨j, inside, place, -, before⟩ := findNext_some found
      have target : (searchStart k + (slotsBefore (searchStart k) t + 1)) % NTHREAD = t :=
        slotsBefore_spec bound
      have nearer : j < slotsBefore (searchStart k) t := by
        rcases lt_trichotomy j (slotsBefore (searchStart k) t) with less | same | more
        · exact less
        · rw [same, target] at place
          exact absurd (place ▸ found) other
        · exact absurd (target.symm ▸ runnable) (before _ more)
      have step := slotsBefore_step nearer
      rw [place] at step
      exact ⟨c, rfl, by omega⟩

/-- Decisions that follow each other, with threads that change in between. -/
def Consecutive (k : Nat → Kernel) : Prop :=
  ∀ n, n + 1 < NTHREAD → (k (n + 1)).cpu.currentTid = findNextRunnableThread (k n)

/-- A thread that is runnable at `NTHREAD` consecutive decisions is chosen by one of them,
    and a decision is missing only where no thread is runnable. -/
theorem round_robin_fair :
    (∀ (k : Nat → Kernel) (t : Nat), t < NTHREAD → Consecutive k →
      (∀ n < NTHREAD, ((k n).threadTable t).state = .runnable) → ∃ n < NTHREAD,
        findNextRunnableThread (k n) = some t) ∧
    ∀ k : Kernel, findNextRunnableThread k = none → ∀ t < NTHREAD,
    (k.threadTable t).state ≠ .runnable := by
  refine ⟨fun k t bound follows runnable => ?_, fun k none t bound => findNext_none none bound⟩
  by_contra never
  push Not at never
  -- as long as other threads are chosen, the way to `t` gets shorter
  have way : ∀ n < NTHREAD, slotsBefore (searchStart (k n)) t + n < NTHREAD := by
    intro n
    induction n with
    | zero => exact fun _ => slotsBefore_lt _ _
    | succ n ih =>
        intro inside
        obtain ⟨c, found, nearer⟩ :=
          findNext_nearer bound (runnable n (by omega)) (never n (by omega))
        have start : searchStart (k (n + 1)) = c := by rw
          [searchStart, follows n inside, found, Option.getD_some]
        have before := ih (by omega)
        rw [start]
        omega
  have last : NTHREAD - 1 < NTHREAD := by decide
  obtain ⟨c, -, nearer⟩ := findNext_nearer bound (runnable _ last) (never _ last)
  have shortest := way _ last
  omega

/-- Two threads are runnable, and take turns. -/
def contest (turn : Nat) : Kernel where
  mem := ⟨fun _ _ => 0, ⟨[], 0, []⟩, 0⟩
  kernelPageTableFrame := 0
  processTable _ := none
  threadTable t := if t = 5 ∨ t = 7 then { Thread.new with state := .runnable } else .new
  cpu := ⟨.new, some (if turn % 2 = 0 then 5 else 7), 0, 0⟩
  privilegeStack0 := 0
  trapFrames _ := .new
  kernelStacks := []

theorem contest_turns (turn : Nat) : findNextRunnableThread (contest turn) =
    some (if turn % 2 = 0 then 7 else 5) := by
  rcases Nat.mod_two_eq_zero_or_one turn with even | odd
  · have same : contest turn = contest 0 := by simp only [contest, even]
    rw [same, even]
    decide
  · have same : contest turn = contest 1 := by simp only [contest, odd]
    rw [same, odd]
    decide

theorem round_robin_fair_contest :
    ∃ n < NTHREAD, findNextRunnableThread (contest n) = some 7 := by
  refine round_robin_fair.1 contest 7 (by decide) (fun n _ => ?_) fun _ _ => rfl
  rw [contest_turns]
  rcases Nat.mod_two_eq_zero_or_one n with even | odd
  · have next : (n + 1) % 2 = 1 := by omega
    simp only [contest, even, next, if_true, Nat.one_ne_zero, if_false]
  · have next : (n + 1) % 2 = 0 := by omega
    simp only [contest, odd, next, if_true, Nat.one_ne_zero, if_false]

end FerriOS.System
