import Mathlib

/-! # Programs with state, errors and panics

A routine either returns a value, returns an error message, or panics. An error
keeps the state it was raised in, as an early return of a `Result` does: nothing
is rolled back. A panic ends the run, so no state is kept.

`Outcome.Sat` is the postcondition of an outcome. Its panic clause is a
parameter, so one specification serves for total routines (`False`) and for
routines that may stop the machine (`True`).
-/

namespace FerriOS.Lib

variable {σ τ ι α β : Type}

/-- What a routine started in some state ends with. -/
inductive Outcome (σ α : Type) where
  | ok (value : α) (state : σ)
  | err (message : String) (state : σ)
  | panic (message : String)

/-- A routine over the state `σ` that returns an `α`. -/
def Prog (σ α : Type) := σ → Outcome σ α

namespace Prog

protected def pure (a : α) : Prog σ α := fun s => .ok a s

protected def bind (x : Prog σ α) (f : α → Prog σ β) : Prog σ β := fun s =>
  match x s with
  | .ok a s' => f a s'
  | .err e s' => .err e s'
  | .panic m => .panic m

instance : Monad (Prog σ) where
  pure := Prog.pure
  bind := Prog.bind

/-- Return an error message, the `Err` of a `Result`. -/
def fail (message : String) : Prog σ α := fun s => .err message s

def crash (message : String) : Prog σ α := fun _ => .panic message

def get : Prog σ σ := fun s => .ok s s

def modify (f : σ → σ) : Prog σ Unit := fun s => .ok () (f s)

/-- `expect` on an option: a missing value is a panic. -/
def expect (message : String) : Option α → Prog σ α
  | some a => pure a
  | none => crash message

/-- `ok_or` followed by `?`: a missing value is an early error return. -/
def okOr (message : String) : Option α → Prog σ α
  | some a => pure a
  | none => fail message

/-- Run a routine and hand its result to the caller, so that the caller can look
    at the error instead of returning it. -/
def attempt (x : Prog σ α) : Prog σ (Except String α) := fun s =>
  match x s with
  | .ok a s' => .ok (.ok a) s'
  | .err e s' => .ok (.error e) s'
  | .panic m => .panic m

/-- Run a routine of a component inside the whole state. -/
def zoom (view : τ → σ) (put : σ → τ → τ) (x : Prog σ α) : Prog τ α := fun t =>
  match x (view t) with
  | .ok a s' => .ok a (put s' t)
  | .err e s' => .err e (put s' t)
  | .panic m => .panic m

/-- A `for` loop over the given indices; an error leaves the loop. -/
def each : List ι → (ι → Prog σ Unit) → Prog σ Unit
  | [], _ => pure ()
  | i :: is, body => body i >>= fun _ => each is body

@[simp] theorem pure_run (a : α) (s : σ) : (pure a : Prog σ α) s = .ok a s := rfl

@[simp] theorem fail_run (e : String) (s : σ) : (fail e : Prog σ α) s = .err e s := rfl

@[simp] theorem crash_run (m : String) (s : σ) : (crash m : Prog σ α) s = .panic m := rfl

@[simp] theorem get_run (s : σ) : (get : Prog σ σ) s = .ok s s := rfl

@[simp] theorem modify_run (f : σ → σ) (s : σ) : modify f s = .ok () (f s) := rfl

@[simp] theorem okOr_some (e : String) (a : α) : (okOr e (some a) : Prog σ α) = pure a := rfl

@[simp] theorem expect_some (m : String) (a : α) : (expect m (some a) : Prog σ α) = pure a := rfl

theorem bind_run (x : Prog σ α) (f : α → Prog σ β) (s : σ) :
    (x >>= f) s = match x s with
      | .ok a s' => f a s'
      | .err e s' => .err e s'
      | .panic m => .panic m := rfl

theorem bind_ok {x : Prog σ α} {f : α → Prog σ β} {s s' : σ} {a : α} (h : x s = .ok a s') :
    (x >>= f) s = f a s' := by
  rw [bind_run, h]

theorem bind_err {x : Prog σ α} {f : α → Prog σ β} {s s' : σ} {e : String}
    (h : x s = .err e s') : (x >>= f) s = .err e s' := by
  rw [bind_run, h]

@[simp] theorem get_bind (f : σ → Prog σ β) (s : σ) : (get >>= f) s = f s s := rfl

@[simp] theorem modify_bind (g : σ → σ) (f : Unit → Prog σ β) (s : σ) :
    (modify g >>= f) s = f () (g s) := rfl

@[simp] theorem pure_bind (a : α) (f : α → Prog σ β) (s : σ) :
    ((pure a : Prog σ α) >>= f) s = f a s := rfl

@[simp] theorem fail_bind (e : String) (f : α → Prog σ β) (s : σ) :
    ((fail e : Prog σ α) >>= f) s = .err e s := rfl

@[simp] theorem crash_bind (m : String) (f : α → Prog σ β) (s : σ) :
    ((crash m : Prog σ α) >>= f) s = .panic m := rfl

theorem bind_assoc (x : Prog σ α) (f : α → Prog σ β) {γ : Type} (g : β → Prog σ γ) :
    (x >>= f) >>= g = x >>= fun a => f a >>= g := by
  funext s
  simp only [bind_run]
  cases x s <;> rfl

/-- A loop goes on with the rest from where its first part has come. -/
theorem foldlM_append_ok {ι : Type} {body : α → ι → Prog σ α} {xs ys : List ι} {a b : α} {s t : σ}
    (first : xs.foldlM body a s = .ok b t) : (xs ++ ys).foldlM body a s = ys.foldlM body b t := by
  induction xs generalizing a s with
  | nil =>
      obtain ⟨rfl, rfl⟩ := Outcome.ok.inj first
      rfl
  | cons x xs ih =>
      rw [List.foldlM_cons, bind_run] at first
      rw [List.cons_append, List.foldlM_cons, bind_run]
      cases run : body a x s with
      | ok c s₁ =>
          rw [run] at first
          exact ih first
      | err e s₁ =>
          rw [run] at first
          cases first
      | panic m =>
          rw [run] at first
          cases first

/-- A bind returns only through a value of its first part. -/
theorem bind_eq_ok {x : Prog σ α} {f : α → Prog σ β} {s t : σ} {b : β} :
    (x >>= f) s = .ok b t ↔ ∃ a s', x s = .ok a s' ∧ f a s' = .ok b t := by
  rw [bind_run]
  constructor
  · intro h
    cases hx : x s with
    | ok a s' => exact ⟨a, s', rfl, by simpa only [hx] using h⟩
    | err e s' => simp [hx] at h
    | panic m => simp [hx] at h
  · rintro ⟨a, s', hx, hf⟩
    simpa only [hx] using hf

end Prog

namespace Outcome

/-- The outcome meets `Q` when it is a value, `E` when it is an error, and `K`
    when it is a panic. -/
def Sat (K : Prop) (Q : α → σ → Prop) (E : String → σ → Prop) : Outcome σ α → Prop
  | .ok a s => Q a s
  | .err e s => E e s
  | .panic _ => K

/-- The state a routine leaves behind, on its value and on its error exit. -/
def final : Outcome σ α → Option σ
  | .ok _ s => some s
  | .err _ s => some s
  | .panic _ => none

variable {K K' : Prop} {Q Q' : α → σ → Prop} {E E' : String → σ → Prop}

@[simp] theorem sat_ok (a : α) (s : σ) : (Outcome.ok a s).Sat K Q E ↔ Q a s := Iff.rfl

@[simp] theorem sat_err (e : String) (s : σ) :
    (Outcome.err e s : Outcome σ α).Sat K Q E ↔ E e s := Iff.rfl

@[simp] theorem sat_panic (m : String) :
    (Outcome.panic m : Outcome σ α).Sat K Q E ↔ K := Iff.rfl

namespace Sat

theorem mono {o : Outcome σ α} (h : o.Sat K Q E) (hk : K → K') (hq : ∀ a s, Q a s → Q' a s)
    (he : ∀ e s, E e s → E' e s) : o.Sat K' Q' E' := by
  cases o with
  | ok a s => exact hq a s h
  | err e s => exact he e s h
  | panic m => exact hk h

/-- An outcome that can only be a value is one. -/
theorem total {o : Outcome σ α} (h : o.Sat False Q fun _ _ => False) :
    ∃ a s, o = .ok a s ∧ Q a s := by
  cases o with
  | ok a s => exact ⟨a, s, rfl, h⟩
  | err e s => exact h.elim
  | panic m => exact h.elim

theorem of_ok {o : Outcome σ α} {a : α} {s : σ} (h : o.Sat K Q E) (value : o = .ok a s) :
    Q a s := by
  subst value
  exact h

theorem of_err {o : Outcome σ α} {e : String} {s : σ} (h : o.Sat K Q E) (error : o = .err e s) :
    E e s := by
  subst error
  exact h

/-- Sequencing: the error and panic clauses are those of the whole. -/
theorem bind {x : Prog σ α} {f : α → Prog σ β} {s : σ} {R : β → σ → Prop}
    (h : (x s).Sat K Q E) (hf : ∀ a s', Q a s' → (f a s').Sat K R E) :
    ((x >>= f) s).Sat K R E := by
  rw [Prog.bind_run]
  cases hx : x s with
  | ok a s' => rw [hx] at h; exact hf a s' h
  | err e s' => rw [hx] at h; exact h
  | panic m => rw [hx] at h; exact h

theorem okOr {o : Option α} {e : String} {s : σ} (hs : ∀ a, o = some a → Q a s)
    (hn : o = none → E e s) : ((Prog.okOr e o : Prog σ α) s).Sat K Q E := by
  cases o with
  | some a => exact hs a rfl
  | none => exact hn rfl

theorem expect {o : Option α} {e : String} {s : σ} (hs : ∀ a, o = some a → Q a s)
    (hn : o = none → K) : ((Prog.expect e o : Prog σ α) s).Sat K Q E := by
  cases o with
  | some a => exact hs a rfl
  | none => exact hn rfl

theorem attempt {x : Prog σ α} {s : σ} {R : Except String α → σ → Prop} {E' : String → σ → Prop}
    (h : (x s).Sat K (fun a s' => R (.ok a) s') (fun e s' => R (.error e) s')) :
    ((x.attempt) s).Sat K R E' := by
  simp only [Prog.attempt]
  cases hx : x s <;> simpa only [hx, sat_ok, sat_err, sat_panic] using h

theorem zoom {view : τ → σ} {put : σ → τ → τ} {x : Prog σ α} {t : τ} {R : α → τ → Prop}
    {E' : String → τ → Prop}
    (h : (x (view t)).Sat K (fun a s => R a (put s t)) (fun e s => E' e (put s t))) :
    ((x.zoom view put) t).Sat K R E' := by
  simp only [Prog.zoom]
  cases hx : x (view t) <;> simpa only [hx, sat_ok, sat_err, sat_panic] using h

/-- The loop rule: the invariant speaks of the indices already done. -/
theorem each {body : ι → Prog σ Unit} (Inv : List ι → σ → Prop) (is : List ι)
    (step : ∀ done i rest s, is = done ++ i :: rest → Inv done s →
      (body i s).Sat K (fun _ => Inv (done ++ [i])) E) {s : σ} (start : Inv [] s) :
    ((Prog.each is body) s).Sat K (fun _ => Inv is) E := by
  suffices run : ∀ rest done s, is = done ++ rest → Inv done s →
      ((Prog.each rest body) s).Sat K (fun _ => Inv is) E from run is [] s rfl start
  intro rest
  induction rest with
  | nil =>
      intro done s split inv
      simpa only [Prog.each, Prog.pure_run, sat_ok, split, List.append_nil] using inv
  | cons i rest ih =>
      intro done s split inv
      exact bind (step done i rest s split inv)
        fun _ s' inv' => ih (done ++ [i]) s' (by simpa using split) inv'

/-- A loop whose body keeps a property of the state keeps it. -/
theorem each_keep {body : ι → Prog σ Unit} (Inv : σ → Prop) (is : List ι)
    (step : ∀ i ∈ is, ∀ s, Inv s → (body i s).Sat K (fun _ => Inv) E) {s : σ} (start : Inv s) :
    ((Prog.each is body) s).Sat K (fun _ => Inv) E :=
  each (fun _ => Inv) is (fun done i rest s split inv => step i (by simp [split]) s inv) start

/-- The loop rule with an accumulator. -/
theorem foldlM {body : α → ι → Prog σ α} (Inv : List ι → α → σ → Prop) (is : List ι)
    (step : ∀ done i rest a s, is = done ++ i :: rest → Inv done a s →
      (body a i s).Sat K (Inv (done ++ [i])) E) {a : α} {s : σ} (start : Inv [] a s) :
    ((is.foldlM body a) s).Sat K (Inv is) E := by
  suffices run : ∀ rest done a s, is = done ++ rest → Inv done a s →
      ((rest.foldlM body a) s).Sat K (Inv is) E from run is [] a s rfl start
  intro rest
  induction rest with
  | nil =>
      intro done a s split inv
      simpa only [List.foldlM_nil, Prog.pure_run, sat_ok, split, List.append_nil] using inv
  | cons i rest ih =>
      intro done a s split inv
      rw [List.foldlM_cons]
      exact bind (step done i rest a s split inv)
        fun a' s' inv' => ih (done ++ [i]) a' s' (by simpa using split) inv'

end Sat

end Outcome

end FerriOS.Lib
