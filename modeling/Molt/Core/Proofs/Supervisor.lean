/-
What the log of a supervisor looks like, and when it restarts its cell.

The log is an epoch after the other: its hooks, the attempts that failed, and
the one that did not. `Kept` says so of every state, and that a heartbeat that
was brought up to date is the latest tick.
-/
import Molt.Core.Supervisor

namespace Molt.Core

open List

namespace Supervisor

/-- An epoch that ended: its hooks, the attempts that failed, and the one that did not. -/
def ended (failures : Nat) : List Deed :=
  HOOKS ++ replicate failures (.restart false) ++ [.restart true]

/-- The epoch that has not ended, if it has stopped. -/
def current : Health → Nat → List Deed
  | .running, _ => []
  | .failed, failures => HOOKS ++ replicate (failures + 1) (.restart false)

structure Kept (s : Supervisor) (epochs : List Nat) (failures : Nat) : Prop where
  log : s.log = epochs.flatMap ended ++ current s.health failures
  generation : s.generation = epochs.length % 2 ^ 64
  heartbeat : s.reported = true → s.heartbeat = s.last

variable {s : Supervisor} {epochs : List Nat} {failures : Nat}

theorem Kept.recordHeartbeat (h : Kept s epochs failures) (tick : Nat) :
    Kept (s.recordHeartbeat tick) epochs failures :=
  ⟨h.log, h.generation, fun _ => rfl⟩

/-- A restart that succeeds ends the epoch; one that fails is counted in it. -/
theorem Kept.restart (h : Kept s epochs failures) (tick : Nat) (ok : Bool) :
    ∃ epochs failures, Kept (s.restart tick ok) epochs failures := by
  obtain ⟨hlog, hgen, -⟩ := h
  -- the failures of this epoch so far
  let past := if s.health = .running then 0 else failures + 1
  have hpast : s.log ++ (if s.health = .running then HOOKS else [])
      = epochs.flatMap ended ++ (HOOKS ++ replicate past (.restart false)) := by
    rw [hlog, append_assoc]
    cases hhealth : s.health <;> simp [current, past, hhealth]
  cases ok with
  | true =>
    refine ⟨epochs ++ [past], 0, ?_, ?_, nofun⟩
    · show s.log ++ _ ++ [.restart true] = _ ++ []
      rw [hpast, flatMap_append, append_nil, append_assoc]
      simp [ended]
    · show (s.generation + 1) % 2 ^ 64 = _
      rw [hgen, length_append, length_singleton, Nat.mod_add_mod]
  | false =>
    refine ⟨epochs, past, ?_, hgen, nofun⟩
    show s.log ++ _ ++ [.restart false] = _ ++ (HOOKS ++ replicate (past + 1) _)
    rw [hpast, replicate_succ', append_assoc, append_assoc]

theorem Kept.step (h : Kept s epochs failures) (call : Nat × Call) :
    ∃ epochs failures, Kept (s.step call) epochs failures := by
  obtain ⟨tick, call⟩ := call
  cases call with
  | recordHeartbeat => exact ⟨_, _, h.recordHeartbeat tick⟩
  | restart ok => exact h.restart tick ok
  | watch deadline ok =>
    unfold Supervisor.step watch
    dsimp only
    split
    · obtain ⟨epochs, failures, h⟩ := h.restart tick ok
      exact ⟨_, _, h.recordHeartbeat tick⟩
    · exact ⟨_, _, h⟩

theorem Kept.run (calls : List (Nat × Call)) (h : Kept s epochs failures) :
    ∃ epochs failures, Kept (s.run calls) epochs failures := by
  induction calls generalizing s epochs failures with
  | nil => exact ⟨_, _, h⟩
  | cons call calls ih =>
    obtain ⟨_, _, h⟩ := h.step call
    exact ih h

/-- Once the heartbeat is up to date, `watch` restarts the cell only after its
deadline; the log is an epoch after the other, each with its hooks once and
first; and the generation is the number of epochs that ended. -/
theorem restarted_cell_gets_its_deadline (start : Nat) (calls : List (Nat × Call)) :
    let s := (withArena start).run calls
    (∀ tick deadline ok, s.reported = true → (s.watch tick deadline ok).1 = true →
      tick - s.last > deadline)
      ∧ ∃ (epochs : List Nat) (failures : Nat),
        s.log = epochs.flatMap ended ++ current s.health failures
        ∧ s.generation = epochs.length % 2 ^ 64 := by
  have hnew : Kept (withArena start) [] 0 := ⟨rfl, rfl, nofun⟩
  obtain ⟨epochs, failures, h⟩ := hnew.run calls
  refine ⟨?_, epochs, failures, h.log, h.generation⟩
  intro tick deadline ok hreported hwatch
  unfold watch at hwatch
  split at hwatch
  · rw [← h.heartbeat hreported]
    assumption
  · cases hwatch

/-- A cell that reported at tick 100 is restarted when ten ticks have passed,
not before. -/
theorem restarted_cell_gets_its_deadline_ten :
    let s := (withArena 100).run [(100, .recordHeartbeat)]
    (s.watch 110 10 true).1 = false ∧ (s.watch 111 10 true).1 = true ∧ 111 - s.last > 10 :=
  ⟨by decide, by decide,
    (restarted_cell_gets_its_deadline 100 _).1 111 10 true (by decide) (by decide)⟩

/-- A cell that starts at tick 100 and one that is restarted then have missed a
deadline of ten ticks at the next. -/
theorem restarted_cell_is_overdue_at_once :
    ((withArena 100).watch 101 10 true).1 = true
      ∧ (((withArena 100).run [(100, .restart true)]).watch 101 10 true).1 = true := by
  decide

end Supervisor

end Molt.Core
