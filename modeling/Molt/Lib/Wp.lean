/-
Weakest preconditions for stateful code that can stop early.

# The programs

A `Prog σ ε α` runs on a state `σ` and ends in one of three ways: with a
value, with an error of type `ε`, or out of fuel. The state survives an
error, as the fields behind a `&mut` do, so what a failed call leaves
behind is part of its meaning. Running out of fuel stands for a loop
that is still going; it is kept apart from the errors because no caller
can see it, let alone handle it (`attempt` lets it through).

# The rules

`Wp x s Q E` says that `x` started in `s` ends in `Q` when it returns
and in `E` when it stops. The lemmas named `wp_*` push it through the
ways programs are put together; a proof unfolds one function, rewrites
with them, and meets its callees through `Wp.mono` and their own specs.
`Keeps` is the case where both ends promise the same thing of the state,
`Returns` the case where only the value matters.
-/
import Mathlib

namespace Molt.Lib

-- == the programs

inductive Halt (ε : Type) where
  | error (e : ε)
  | fuel
  deriving DecidableEq

/-- A stateful program that may fail or run out of fuel. -/
abbrev Prog (σ ε α : Type) := EStateM (Halt ε) σ α

section Programs

variable {σ τ ε α β : Type}

def fail (e : ε) : Prog σ ε α := throw (Halt.error e)

/-- Stop because the fuel of a loop is spent. -/
def spent : Prog σ ε α := throw Halt.fuel

/-- Stop with an error unless `c` holds. -/
def ensure (c : Prop) [Decidable c] (e : ε) : Prog σ ε PUnit :=
  if c then pure ⟨⟩ else fail e

/-- A value, or the error its absence stands for (`Option::ok_or`). -/
def okOr (o : Option α) (e : ε) : Prog σ ε α :=
  match o with
  | some a => pure a
  | none => fail e

/-- A computed result, raised into a program (the `?` operator). -/
def lift (r : Except ε α) : Prog σ ε α :=
  match r with
  | .ok a => pure a
  | .error e => fail e

/-- Run `x` and hand back how it ended instead of failing. Fuel is not
an outcome a caller can see, so it passes through. -/
def attempt (x : Prog σ ε α) : Prog σ ε (Except ε α) := fun s =>
  match x s with
  | .ok a s' => .ok (.ok a) s'
  | .error (.error e) s' => .ok (.error e) s'
  | .error .fuel s' => .error .fuel s'

def zoom (part : τ → σ) (put : σ → τ → τ) (x : Prog σ ε α) : Prog τ ε α := fun t =>
  match x (part t) with
  | .ok a s => .ok a (put s t)
  | .error e s => .error e (put s t)

end Programs

-- == the rules

section Rules

variable {σ τ ε α β : Type}

def Wp (x : Prog σ ε α) (s : σ) (Q : α → σ → Prop) (E : Halt ε → σ → Prop) : Prop :=
  match x s with
  | .ok a s' => Q a s'
  | .error e s' => E e s'

/-- However `x` ends, the state it leaves satisfies `R`. -/
def Keeps (x : Prog σ ε α) (s : σ) (R : σ → Prop) : Prop :=
  Wp x s (fun _ s' => R s') (fun _ s' => R s')

abbrev Returns (x : Prog σ ε α) (s : σ) (Q : α → σ → Prop) : Prop := Wp x s Q fun _ _ => True

variable {x : Prog σ ε α} {s : σ} {Q Q' : α → σ → Prop}
  {E E' : Halt ε → σ → Prop}

theorem Wp.mono (h : Wp x s Q E) (hQ : ∀ a s', Q a s' → Q' a s')
    (hE : ∀ e s', E e s' → E' e s') : Wp x s Q' E' := by
  unfold Wp at *
  split <;> simp_all

theorem Wp.ok (h : Wp x s Q E) {a : α} {s' : σ} (hx : x s = .ok a s') : Q a s' := by
  unfold Wp at h
  rwa [hx] at h

theorem Wp.err (h : Wp x s Q E) {e : Halt ε} {s' : σ} (hx : x s = .error e s') : E e s' := by
  unfold Wp at h
  rwa [hx] at h

theorem Wp.returns (h : Wp x s Q E) (hQ : ∀ a s', Q a s' → Q' a s') : Returns x s Q' :=
  h.mono hQ fun _ _ _ => trivial

/-- A specification that rules out every stop produces a value. -/
theorem Wp.total (h : Wp x s Q (fun _ _ => False)) : ∃ a s', x s = .ok a s' ∧ Q a s' := by
  unfold Wp at h
  split at h
  next a s' hx => exact ⟨a, s', hx, h⟩
  next => exact h.elim

theorem wp_iff : Wp x s Q E ↔
    (∀ a s', x s = .ok a s' → Q a s') ∧ ∀ e s', x s = .error e s' → E e s' := by
  unfold Wp
  split <;> simp_all

@[simp] theorem wp_pure (a : α) : Wp (pure a : Prog σ ε α) s Q E ↔ Q a s := Iff.rfl

@[simp] theorem wp_fail (e : ε) : Wp (fail e : Prog σ ε α) s Q E ↔ E (.error e) s := Iff.rfl

@[simp] theorem wp_get {Q : σ → σ → Prop} : Wp (get : Prog σ ε σ) s Q E ↔ Q s s := Iff.rfl

@[simp] theorem wp_set (s' : σ) {Q : PUnit → σ → Prop} :
    Wp (set s' : Prog σ ε PUnit) s Q E ↔ Q ⟨⟩ s' := Iff.rfl

@[simp] theorem wp_modify (f : σ → σ) {Q : PUnit → σ → Prop} :
    Wp (modify f : Prog σ ε PUnit) s Q E ↔ Q ⟨⟩ (f s) := Iff.rfl

variable {y : Prog σ ε β} {f : β → Prog σ ε α}

@[simp] theorem wp_bind :
    Wp (y >>= f) s Q E ↔ Wp y s (fun b s' => Wp (f b) s' Q E) E := by
  unfold Wp
  show (match EStateM.bind y f s with
    | .ok a s' => Q a s' | .error e s' => E e s') ↔ _
  unfold EStateM.bind
  cases y s <;> rfl

@[simp] theorem wp_map {f : β → α} :
    Wp (f <$> y) s Q E ↔ Wp y s (fun b s' => Q (f b) s') E := by
  unfold Wp
  show (match EStateM.map f y s with
    | .ok a s' => Q a s' | .error e s' => E e s') ↔ _
  unfold EStateM.map
  cases y s <;> rfl

@[simp] theorem wp_ensure (c : Prop) [Decidable c] (e : ε)
    {Q : PUnit → σ → Prop} :
    Wp (ensure c e : Prog σ ε PUnit) s Q E ↔ (c → Q ⟨⟩ s) ∧ (¬ c → E (.error e) s) := by
  unfold ensure
  split <;> simp_all

@[simp] theorem wp_okOr (o : Option α) (e : ε) :
    Wp (okOr o e : Prog σ ε α) s Q E
      ↔ (∀ a, o = some a → Q a s) ∧ (o = none → E (.error e) s) := by
  cases o <;> simp [okOr]

@[simp] theorem wp_lift (r : Except ε α) :
    Wp (lift r : Prog σ ε α) s Q E
      ↔ (∀ a, r = .ok a → Q a s) ∧ (∀ e, r = .error e → E (.error e) s) := by
  cases r <;> simp [lift]

@[simp] theorem wp_zoom {part : τ → σ} {put : σ → τ → τ} {t : τ}
    {Q : α → τ → Prop} {E : Halt ε → τ → Prop} :
    Wp (zoom part put x) t Q E
      ↔ Wp x (part t) (fun a s => Q a (put s t)) (fun e s => E e (put s t)) := by
  unfold Wp zoom
  cases x (part t) <;> rfl

@[simp] theorem wp_attempt {Q : Except ε α → σ → Prop} :
    Wp (attempt x) s Q E ↔ Wp x s (fun a s' => Q (.ok a) s') (fun e s' => match e with
            | .error e => Q (.error e) s'
            | .fuel => E .fuel s') := by
  unfold Wp attempt
  match x s with
  | .ok a s' => rfl
  | .error (.error e) s' => rfl
  | .error .fuel s' => rfl

theorem Keeps.mono {R R' : σ → Prop} (h : Keeps x s R) (hR : ∀ s', R s' → R' s') : Keeps x s R' :=
  Wp.mono h (fun _ s' => hR s') (fun _ s' => hR s')

theorem Keeps.bind
    {R R' : σ → Prop} (hy : Keeps y s R)
    (hf : ∀ b s', R s' → Keeps (f b) s' R') (hR : ∀ s', R s' → R' s') :
    Keeps (y >>= f) s R' := by
  unfold Keeps
  rw [wp_bind]
  exact Wp.mono hy (fun b s' h => hf b s' h) (fun _ s' h => hR s' h)

-- -- evaluation

theorem bind_ok {s s' : σ} {b : β} (h : y s = .ok b s') : (y >>= f) s = f b s' := by
  show EStateM.bind y f s = _
  unfold EStateM.bind
  rw [h]

theorem bind_error {s s' : σ} {e : Halt ε} (h : y s = .error e s') : (y >>= f) s = .error e s' := by
  show EStateM.bind y f s = _
  unfold EStateM.bind
  rw [h]

theorem map_error {f : β → α} {s s' : σ} {e : Halt ε}
    (h : y s = .error e s') : (f <$> y) s = .error e s' := by
  show EStateM.map f y s = _
  unfold EStateM.map
  rw [h]

end Rules

end Molt.Lib
