/-
The service end of a ring over any client (`IoDriver` of `sys/core/src/ring.rs`).

A service sees its ring through two calls: what `try_next` finds, and whether
`try_complete` has room. Both depend on what the client does meanwhile, so
here both are given: a turn is handed the submissions it would find, and
`room` holds the answers the completions will meet. Every interleaving with
a client is one choice of them. The driver keeps what was taken and what was
completed, in order.
-/
import Molt.Core.Ring

namespace Molt.Core

structure Driver (σ κ : Type) where
  room : List Bool
  taken : List (Submission σ)
  done : List (Completion κ)

namespace Driver

variable {σ κ : Type}

def new : Driver σ κ := ⟨[], [], []⟩

/-- A submission `try_next` found. -/
def take (d : Driver σ κ) (s : Submission σ) : Driver σ κ := { d with taken := d.taken ++ [s] }

/-- Publishes a completion, or hands it back when the queue is full. -/
def tryComplete (d : Driver σ κ) (c : Completion κ) : Option (Completion κ) × Driver σ κ :=
  match d.room with
  | true :: room => (none, { d with room, done := d.done ++ [c] })
  | false :: room => (some c, { d with room })
  | [] => (some c, d)

def takenIds (d : Driver σ κ) : Multiset Nat := (d.taken.map Submission.id : List Nat)

/-- The ids completed, with the one a service holds back. -/
def doneIds (d : Driver σ κ) (pending : Option (Completion κ)) : Multiset Nat :=
  ((d.done ++ pending.toList).map Completion.id : List Nat)

section

variable (d : Driver σ κ)

@[simp] theorem takenIds_take (s : Submission σ) :
    (d.take s).takenIds = d.takenIds + {s.id} := by
  simp [take, takenIds, ← Multiset.coe_add]

@[simp] theorem doneIds_take (s : Submission σ) (p : Option (Completion κ)) :
    (d.take s).doneIds p = d.doneIds p := rfl

variable (c : Completion κ)

theorem tryComplete_cases :
    (∃ room, d.tryComplete c = (none, { d with room, done := d.done ++ [c] }))
      ∨ ∃ room, d.tryComplete c = (some c, { d with room }) := by
  unfold tryComplete
  split
  · exact .inl ⟨_, rfl⟩
  · exact .inr ⟨_, rfl⟩
  · exact .inr ⟨[], by rename_i h; rw [← h]⟩

@[simp] theorem takenIds_tryComplete : (d.tryComplete c).2.takenIds = d.takenIds := by
  rcases d.tryComplete_cases c with ⟨room, h⟩ | ⟨room, h⟩ <;> rw [h] <;> rfl

/-- A completion is pushed or handed back. -/
theorem tryComplete_answers :
    (d.tryComplete c).2.done ++ (d.tryComplete c).1.toList = d.done ++ [c] := by
  rcases d.tryComplete_cases c with ⟨room, h⟩ | ⟨room, h⟩
  · rw [h]
    exact List.append_nil _
  · rw [h]
    rfl

theorem doneIds_tryComplete :
    (d.tryComplete c).2.doneIds (d.tryComplete c).1 = d.doneIds none + {c.id} := by
  rw [doneIds, tryComplete_answers]
  simp [doneIds, ← Multiset.coe_add]

theorem doneIds_some : d.doneIds (some c) = d.doneIds none + {c.id} := by
  simp [doneIds, ← Multiset.coe_add]

theorem tryComplete_keeps {pending : Option (Completion κ)}
    (hnone : pending = none) :
    ((d.tryComplete c).1.orElse fun _ => pending) = (d.tryComplete c).1 := by
  subst hnone
  cases (d.tryComplete c).1 <;> rfl

/-- Publishing keeps the account of the operations taken. -/
theorem publish_account (rest : Multiset Nat)
    {pending : Option (Completion κ)} {hand : Multiset Nat} (hnone : pending = none)
    (h : d.takenIds = d.doneIds pending + rest + (c.id ::ₘ hand)) :
    (d.tryComplete c).2.takenIds
      = (d.tryComplete c).2.doneIds ((d.tryComplete c).1.orElse fun _ => pending)
        + rest + hand := by
  rw [takenIds_tryComplete, tryComplete_keeps d c hnone, doneIds_tryComplete, h, hnone,
    ← Multiset.singleton_add]
  ac_rfl

end

end Driver

end Molt.Core
