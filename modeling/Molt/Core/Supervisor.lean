/-
A supervisor and the deadline of its cell (`sys/core/src/cell.rs`).

A restart of the cell succeeds or fails at will, so each call brings its
outcome. Kept beside the code are the hooks and attempts in the order they
were made, the tick of the latest start, attempt or heartbeat, and whether
`heartbeat` is that tick: a start and a direct restart set it to zero or leave
it, and only `watch` and `record_heartbeat` bring it up to date.
-/
import Mathlib

namespace Molt.Core

inductive Health where
  | running
  | failed
  deriving DecidableEq

/-- What a supervisor does to its cell. -/
inductive Deed where
  | stopSubmissions
  | cancelRequests
  | revokeCapabilities
  | restart (ok : Bool)
  deriving DecidableEq

structure Supervisor where
  generation : Nat
  heartbeat : Nat
  health : Health
  log : List Deed
  last : Nat
  reported : Bool

/-- A call; the cell's answer to a restart comes with it. -/
inductive Supervisor.Call where
  | recordHeartbeat
  | restart (ok : Bool)
  | watch (deadline : Nat) (ok : Bool)

namespace Supervisor

def HOOKS : List Deed := [.stopSubmissions, .cancelRequests, .revokeCapabilities]

/-- `with_arena`, of a cell that starts at `tick`. -/
def withArena (tick : Nat) : Supervisor := ⟨0, 0, .running, [], tick, false⟩

def recordHeartbeat (s : Supervisor) (tick : Nat) : Supervisor :=
  { s with heartbeat := tick, last := tick, reported := true }

def Overdue (s : Supervisor) (tick deadline : Nat) : Prop := tick - s.heartbeat > deadline

instance (s : Supervisor) (tick deadline : Nat) : Decidable (s.Overdue tick deadline) :=
  inferInstanceAs (Decidable (_ > _))

/-- `restart_with_arena`. -/
def restart (s : Supervisor) (tick : Nat) (ok : Bool) : Supervisor :=
  let hooks := if s.health = .running then HOOKS else []
  let s := { s with
    log := s.log ++ hooks ++ [Deed.restart ok], last := tick, reported := false }
  if ok then
    { s with generation := (s.generation + 1) % 2 ^ 64, heartbeat := 0, health := .running }
  else { s with health := .failed }

/-- Whether the cell was restarted, and the supervisor afterwards. -/
def watch (s : Supervisor) (tick deadline : Nat) (ok : Bool) : Bool × Supervisor :=
  if s.Overdue tick deadline then (true, (s.restart tick ok).recordHeartbeat tick) else (false, s)

def step (s : Supervisor) : Nat × Call → Supervisor
  | (tick, .recordHeartbeat) => s.recordHeartbeat tick
  | (tick, .restart ok) => s.restart tick ok
  | (tick, .watch deadline ok) => (s.watch tick deadline ok).2

def run (s : Supervisor) (calls : List (Nat × Call)) : Supervisor := calls.foldl step s

end Supervisor

end Molt.Core
