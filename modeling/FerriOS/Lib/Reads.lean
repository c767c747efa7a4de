import Mathlib

/-! # Routines that read a memory

A routine that only reads is described by the places that it goes to, in order, and by
how it ends. A place that cannot be read ends it with a fault.
-/

namespace FerriOS.Lib

variable {Loc α β : Type}

inductive Ending (Loc α : Type) where
  | ok (value : α)
  | err (message : String)
  | fault (place : Loc)
  deriving DecidableEq

/-- How a routine over a memory without faults ends. -/
def Ending.ofExcept : Except String α → Ending Loc α
  | .ok value => .ok value
  | .error message => .err message

theorem Ending.ofExcept_ok {result : Except String α} {a : α} :
    (Ending.ofExcept result : Ending Loc α) = .ok a ↔ result = .ok a := by
  cases result <;> simp [Ending.ofExcept]

structure Reads (Loc α : Type) where
  places : List Loc
  ending : Ending Loc α

namespace Reads

protected def pure (a : α) : Reads Loc α := ⟨[], .ok a⟩

protected def bind (x : Reads Loc α) (f : α → Reads Loc β) : Reads Loc β :=
  match x.ending with
  | .ok a => ⟨x.places ++ (f a).places, (f a).ending⟩
  | .err message => ⟨x.places, .err message⟩
  | .fault place => ⟨x.places, .fault place⟩

instance : Monad (Reads Loc) where
  pure := Reads.pure
  bind := Reads.bind

def fail (message : String) : Reads Loc α := ⟨[], .err message⟩

def read (memory : Loc → Option α) (place : Loc) : Reads Loc α :=
  ⟨[place], (memory place).elim (.fault place) .ok⟩

/-- Only allowed places are read, and all of them can be read. -/
structure Within (allowed : Loc → Prop) (x : Reads Loc α) : Prop where
  places : ∀ l ∈ x.places, allowed l
  total : ∀ l, x.ending ≠ .fault l

variable {allowed : Loc → Prop} {x : Reads Loc α} {f : α → Reads Loc β} {a : α} {b : β}
  {memory : Loc → Option α}

theorem within_pure (a : α) : Within allowed (pure a : Reads Loc α) :=
    ⟨by rintro l ⟨⟩, by rintro l ⟨⟩⟩

theorem within_fail (message : String) : Within allowed (fail message : Reads Loc α) :=
    ⟨by rintro l ⟨⟩, by rintro l ⟨⟩⟩

theorem within_read (place : Loc) :
    Within allowed (read memory place) ↔ allowed place ∧ (memory place).isSome = true := by
  constructor
  · intro within
    refine ⟨within.places place (List.mem_singleton_self place), ?_⟩
    cases found : memory place with
    | some a => rfl
    | none => exact absurd (by rw [read, found, Option.elim_none]) (within.total place)
  · rintro ⟨here, found⟩
    obtain ⟨a, found⟩ := Option.isSome_iff_exists.mp found
    refine ⟨fun l member => ?_, fun l => ?_⟩
    · rw [List.mem_singleton.mp member]
      exact here
    · rw [read, found, Option.elim_some]
      simp

theorem bind_ending_ok : (x >>= f).ending = .ok b ↔ ∃ a, x.ending = .ok a ∧
    (f a).ending = .ok b := by
  change (Reads.bind x f).ending = _ ↔ _
  rw [Reads.bind]
  cases ending : x.ending <;> simp

theorem bind_ending (first : x.ending = .ok a) : (x >>= f).ending = (f a).ending := by
  change (Reads.bind x f).ending = _
  rw [Reads.bind, first]

theorem bind_ending_err {message : String} (first : x.ending = .err message) :
    (x >>= f).ending = .err message := by
  change (Reads.bind x f).ending = _
  rw [Reads.bind, first]

theorem read_ending_ok {place : Loc} :
    (read memory place).ending = .ok a ↔ memory place = some a := by
  rw [read]
  cases found : memory place <;> simp

theorem within_bind : Within allowed (x >>= f) ↔ Within allowed x ∧ ∀ a, x.ending = .ok a →
    Within allowed (f a) := by
  change Within allowed (Reads.bind x f) ↔ _
  rw [Reads.bind]
  cases ending : x.ending with
  | ok a =>
      constructor
      · rintro ⟨places, total⟩
        refine ⟨⟨fun l member => places l (List.mem_append_left _ member), by simp [ending]⟩,
          fun b same => ?_⟩
        obtain rfl : a = b := by simpa using same
        exact ⟨fun l member => places l (List.mem_append_right _ member), total⟩
      · rintro ⟨first, second⟩
        have second := second a rfl
        refine ⟨fun l member => ?_, second.total⟩
        exact (List.mem_append.mp member).elim (first.places l) (second.places l)
  | err message =>
      exact ⟨fun within => ⟨⟨within.places, by simp [ending]⟩, by simp⟩, fun within =>
        ⟨within.1.places, by simp⟩⟩
  | fault place =>
      exact ⟨fun within => absurd rfl (within.total place), fun within =>
        absurd ending (within.1.total place)⟩

end Reads

/-- `R` holds from `i` on for `n` places, up to the first one where `C` fails. -/
def UpTo (C R : Nat → Prop) (i n : Nat) : Prop :=
  ∀ k, i ≤ k → k < i + n → (∀ m, i ≤ m → m < k → C m) → R k

theorem upTo_zero {C R : Nat → Prop} (i : Nat) : UpTo C R i 0 := fun k low high => by omega

theorem upTo_succ {C R : Nat → Prop} {i n : Nat} :
    UpTo C R i (n + 1) ↔ R i ∧ (C i → UpTo C R (i + 1) n) := by
  constructor
  · intro all
    refine ⟨all i le_rfl (by omega) fun m low high => by omega, fun passed k low high between => ?_⟩
    refine all k (by omega) (by omega) fun m lowM highM => ?_
    rcases lowM.eq_or_lt with rfl | later
    · exact passed
    · exact between m later highM
  · rintro ⟨here, later⟩ k low high between
    rcases low.eq_or_lt with rfl | after
    · exact here
    · exact later (between i le_rfl after) k after (by omega) fun m lowM highM =>
        between m (by omega) highM

end FerriOS.Lib
