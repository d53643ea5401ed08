/-
The ready queues of a core (`sys/rt/src/exec.rs`, `sys/rt/src/task.rs`).

# The rotation

A level has a queue and a slice of polls. `take` serves the level it is at
until the slice or the queue runs out, and goes on to the next level with a
fresh slice. A task is in the queue of its own level, and what is left of a
slice is no more than the slice: both are part of the state.

# A run

`collect` puts what the inboxes hold into the queues. A run here is any
sequence of such pushes and of takes; what it gives out is kept in order.
-/
import Mathlib

namespace Molt.Rt

open List Function

/-- How soon a core gets to a task, and nothing more. -/
inductive Priority where
  | high
  | normal
  | low
  deriving DecidableEq

abbrev Priority.LEVELS : Nat := 3

abbrev Level := Fin Priority.LEVELS

def Priority.level : Priority → Level
  | high => 0
  | normal => 1
  | low => 2

/-- Polls a level is given before the next one gets its turn. -/
def SLICE : Level → Nat := ![32, 8, 2]

structure Task where
  id : Nat
  priority : Priority
  deriving DecidableEq

/-- The ready queues, which only the owner ever looks at. -/
structure Local where
  ready : Level → List Task
  level : Level
  credit : Nat
  placed : ∀ l, ∀ t ∈ ready l, t.priority.level = l
  credit_le : credit ≤ SLICE level

namespace Local

def new : Local where
  ready := fun _ => []
  level := 0
  credit := SLICE 0
  placed := fun _ _ ht => absurd ht not_mem_nil
  credit_le := le_rfl

/-- A queue is given other tasks of its level. -/
def refill (s : Local) (l : Level) (tasks : List Task)
    (h : ∀ t ∈ tasks, t.priority.level = l) : Local :=
  { s with
    ready := update s.ready l tasks
    placed := by
      intro m t ht
      rcases eq_or_ne m l with rfl | hne
      · exact h t (by simpa using ht)
      · exact s.placed m t (by simpa [hne] using ht) }

/-- `ready[level].push_back(task)`. -/
def push (s : Local) (t : Task) : Local :=
  s.refill t.priority.level (s.ready t.priority.level ++ [t]) (by
    intro u hu
    rcases mem_append.mp hu with hu | hu
    · exact s.placed _ u hu
    · rw [mem_singleton.mp hu])

def rotate (s : Local) : Local :=
  { s with level := s.level + 1, credit := SLICE (s.level + 1), credit_le := le_rfl }

/-- Serves the level it is at. -/
def serve (s : Local) : Option Task × Local :=
  let spent := { s with
    credit := s.credit - 1, credit_le := (Nat.sub_le _ _).trans s.credit_le }
  ((s.ready s.level).head?, spent.refill s.level (s.ready s.level).tail
    fun t ht => s.placed s.level t (mem_of_mem_tail ht))

/-- The loop of `take`, `n` times around. -/
def takeIn : Nat → Local → Option Task × Local
  | 0, s => (none, s)
  | n + 1, s => if s.credit = 0 ∨ s.ready s.level = [] then takeIn n s.rotate else s.serve

def take (s : Local) : Option Task × Local := takeIn (2 * Priority.LEVELS) s

inductive Call where
  | push (t : Task)
  | take
  deriving DecidableEq

/-- The task a call pushes. -/
def Call.pushed : Call → Option Task
  | push t => some t
  | take => none

/-- What the takes of a run gave out, and the state after it. -/
def run (s : Local) : List Call → List Task × Local
  | [] => ([], s)
  | .push t :: calls => (s.push t).run calls
  | .take :: calls => (s.take.1.toList ++ (s.take.2.run calls).1, (s.take.2.run calls).2)

/-- A level has a task to give at every take of a run. -/
def Busy (l : Level) (s : Local) : List Call → Prop
  | [] => True
  | .push t :: calls => Busy l (s.push t) calls
  | .take :: calls => s.ready l ≠ [] ∧ Busy l s.take.2 calls

/-- Polls that other levels can have from leaving `m` until `l` is come to. -/
def between (m l : Level) : Nat :=
  if m + 1 = l then 0 else SLICE (m + 1) + if m + 2 = l then 0 else SLICE (m + 2)

end Local

end Molt.Rt
