/-
Histories of a bounded queue: what its two ends are told, event by event.

# Events

A producer's call either puts a value in or is refused; a consumer's call
either takes a value out or finds nothing. A history lists these answers
in the order they took effect. `accepted` and `taken` are the values that
went in and came out, and `queued` counts the difference.

# The law

`Fifo n log` is the whole specification of a queue of `n` places: what was
taken is a prefix of what was accepted, a push is refused exactly when `n`
values are queued and a pop finds nothing exactly when none is. A history
is built one event at a time, so the law comes with one rule per event.
-/
import Mathlib

namespace Molt.Lib.Queue

variable {α : Type}

/-- One answer a queue gave to one of its two ends. -/
inductive Event (α : Type) where
  | pushed (v : α)
  | refused (v : α)
  | popped (v : α)
  | empty
deriving DecidableEq

def accepted : List (Event α) → List α
  | [] => []
  | .pushed v :: log => v :: accepted log
  | _ :: log => accepted log

/-- The values a history took out, oldest first. -/
def taken : List (Event α) → List α
  | [] => []
  | .popped v :: log => v :: taken log
  | _ :: log => taken log

/-- How many values are in the queue after a history. -/
def queued (log : List (Event α)) : Nat := (accepted log).length - (taken log).length

/-- Whether an event answers a push, and whether that push failed. -/
def Event.push? : Event α → Option Bool
  | .pushed _ => some false
  | .refused _ => some true
  | _ => none

/-- Whether an event answers a pop, and whether that pop failed. -/
def Event.pop? : Event α → Option Bool
  | .popped _ => some false
  | .empty => some true
  | _ => none

attribute [simp] accepted taken

@[simp] theorem accepted_append (l m : List (Event α)) :
    accepted (l ++ m) = accepted l ++ accepted m := by
  induction l with
  | nil => rfl
  | cons e l ih => cases e <;> simp [ih]

@[simp] theorem taken_append (l m : List (Event α)) : taken (l ++ m) = taken l ++ taken m := by
  induction l with
  | nil => rfl
  | cons e l ih => cases e <;> simp [ih]

/-- The law of a queue of `n` places, over a whole history. -/
structure Fifo (n : Nat) (log : List (Event α)) : Prop where
  /-- Values come out in the order they went in, none twice. -/
  order : taken log <+: accepted log
  /-- A push fails exactly when every place is taken. -/
  push : ∀ l e failed, l ++ [e] <+: log → e.push? = some failed → (failed = true ↔ queued l = n)
  /-- A pop fails exactly when nothing is queued. -/
  pop : ∀ l e failed, l ++ [e] <+: log → e.pop? = some failed → (failed = true ↔ queued l = 0)

theorem Fifo.nil (n : Nat) : Fifo n ([] : List (Event α)) where
  order := List.prefix_refl _
  push l e _ h := by simp at h
  pop l e _ h := by simp at h

/-- One more event keeps the law when it keeps the order and answers its
own end truthfully. -/
theorem Fifo.snoc {n : Nat} {log : List (Event α)} {e : Event α}
    (h : Fifo n log) (horder : taken (log ++ [e]) <+: accepted (log ++ [e]))
    (hpush : ∀ failed, e.push? = some failed → (failed = true ↔ queued log = n))
    (hpop : ∀ failed, e.pop? = some failed → (failed = true ↔ queued log = 0)) :
    Fifo n (log ++ [e]) := by
  -- a history that ends inside `log ++ [e]` ends inside `log`, or is all of it
  have hcut : ∀ {l : List (Event α)} {x : Event α}, l ++ [x] <+: log ++ [e] →
      l ++ [x] <+: log ∨ (l = log ∧ x = e) := by
    intro l x hl
    rcases List.prefix_concat_iff.mp hl with heq | hin
    · obtain ⟨hlog, he⟩ := List.append_inj' heq rfl
      exact .inr ⟨hlog, by simpa using he⟩
    · exact .inl hin
  refine ⟨horder, fun l x failed hl hx => ?_, fun l x failed hl hx => ?_⟩
  · rcases hcut hl with hin | ⟨rfl, rfl⟩
    · exact h.push l x failed hin hx
    · exact hpush failed hx
  · rcases hcut hl with hin | ⟨rfl, rfl⟩
    · exact h.pop l x failed hin hx
    · exact hpop failed hx

end Molt.Lib.Queue
