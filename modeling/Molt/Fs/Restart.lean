/-
The filesystem ring, served and restarted (`Fs::serve` in `service.rs`,
`restart.rs`, `cell.rs`, and `Supervisor::restart_with_arena` of the core
crate).

# The server

The service runs on one core. It is serving the ring, or its supervisor is
restarting it, or neither; `Where` says how far it is. Each of its accesses
to the ring is a step of its own, since the client on the other end may go
on between any two of them.

- `serve` first pushes a completion held back earlier, then takes one
  submission after another, applies it and pushes the completion. If the
  completion queue is full it holds the completion back and returns.
- a restart takes everything off the submission queue (`Stopped::stop`),
  answers each of those `Cancelled` (`Stopped::cancel`), withdraws the
  publication and remounts the volume. `Teardown` is what the first three
  steps work on; a restart is given one of its own.

# Records

Beside the state, a desk keeps what went over the ring: the submissions
that were accepted and those taken off again, the operations applied, the
completions pushed and those read, and what `unanswered()` came to at the
end of each restart's hooks.
-/
import Molt.Fs.Service

namespace Molt.Fs

open Lib Molt.Core

-- == the hooks

/-- What an ending epoch left on the ring. -/
structure Stopped where
  ids : List (Option Nat)
  taken : Nat
  unanswered : Nat
  deriving DecidableEq

namespace Stopped

def new (r : Nat) : Stopped := ⟨List.replicate r none, 0, 0⟩

/-- What `stop` does with a submission it took. -/
def record (st : Stopped) (id : Nat) : Stopped :=
  if st.taken < st.ids.length then
    { st with ids := st.ids.set st.taken (some id), taken := st.taken + 1 }
  else { st with unanswered := st.unanswered + 1 }

/-- The requests `cancel` goes through. -/
def owed (st : Stopped) : List Nat := (st.ids.take st.taken).reduceOption

end Stopped

-- == the cell

inductive Health where
  | running
  | failed
  deriving DecidableEq

/-- A mounted filesystem with a restart of its own, and its supervisor's
record of it. -/
structure FsCell where
  fs : Service
  health : Health
  supervised : Health
  generation : Nat

/-- The cell once it was restarted, or `none` while the remount goes on. -/
def FsCell.restart (cell : FsCell) : Option FsCell :=
  match cell.health with
  | .failed => some { cell with supervised := .failed }
  | .running =>
    match Service.restart cell.fs with
    | .ok _ fs =>
      some { cell with fs, supervised := .running,
                       generation := wrappingAdd cell.generation 1 }
    | .error (.error _) fs => some { cell with fs, health := .failed, supervised := .failed }
    | .error .fuel _ => none

-- == the server

inductive Where where
  | idle
  /-- `serve` was called. -/
  | entering
  /-- At the head of the loop of `serve`. -/
  | serving
  /-- A submission was taken and is being applied. -/
  | working (s : Submission FsOp)
  /-- It was applied and its completion is about to be pushed. -/
  | answering (c : Completion FsResult)
  /-- In the loop of `stop`. -/
  | stopping (st : Stopped)
  /-- In the loop of `cancel`, with these left. -/
  | cancelling (st : Stopped) (owed : List Nat)
  /-- The hooks have run. -/
  | restarting
  deriving DecidableEq

/-- The ring, the server on one end of it, and what went over it. -/
structure Desk where
  ring : IoRing FsOp FsResult
  cell : FsCell
  names : Registry Mount
  owner : CellId
  provider : CellId
  buffers : BufferRegistry
  place : Where
  served : Nat
  submitted : List (Submission FsOp)
  taken : List (Submission FsOp)
  applied : List (Completion FsResult)
  pushed : List (Completion FsResult)
  read : List (Completion FsResult)
  reports : List Nat

inductive DeskAct where
  | submit (s : Submission FsOp)
  | read
  | serve (owner : CellId) (buffers : BufferRegistry)
  | restart (provider : CellId)
  /-- The server's next step, wherever it is. -/
  | go

namespace Desk

/-- A ring of `r` places before a service just mounted. -/
def new (r : Nat) (fs : Service) (names : Registry Mount) : Desk where
  ring := .new r
  cell := ⟨fs, .running, .running, 0⟩
  names := names
  owner := 0
  provider := 0
  buffers := .new 0
  place := .idle
  served := 0
  submitted := []
  taken := []
  applied := []
  pushed := []
  read := []
  reports := []

def fs (d : Desk) : Service := d.cell.fs

def setFs (d : Desk) (fs : Service) : Desk := { d with cell := { d.cell with fs } }

def hold (d : Desk) (pending : Option (Completion FsResult)) : Desk :=
  d.setFs { d.fs with pending }

def goTo (d : Desk) (place : Where) : Desk := { d with place }

-- -- the client

def submitGives (d : Desk) (s : Submission FsOp) :
    Except (Submission FsOp) (IoRing FsOp FsResult) → Desk
  | .ok ring => { d with ring, submitted := d.submitted ++ [s] }
  | .error _ => d

def readGives (d : Desk) : Option (Completion FsResult × IoRing FsOp FsResult) → Desk
  | some (c, ring) => { d with ring, read := d.read ++ [c] }
  | none => d

-- -- the server

/-- A completion that went through: counted, and on the ring. -/
def push (d : Desk) (c : Completion FsResult) (ring : IoRing FsOp FsResult) : Desk :=
  { d with ring, pushed := d.pushed ++ [c] }

/-- What `serve` does with the answer to the completion it held. -/
def heldGives (d : Desk) (c : Completion FsResult) :
    Except (Completion FsResult) (IoRing FsOp FsResult) → Desk
  | .ok ring => ({ d.push c ring with served := d.served + 1 }.hold none).goTo .serving
  | .error refused => (d.hold (some refused)).goTo .idle

/-- What `serve` does with what came off the submission queue. -/
def nextGives (d : Desk) : Option (Submission FsOp × IoRing FsOp FsResult) → Desk
  | some (s, ring) => { d with ring, taken := d.taken ++ [s] }.goTo (.working s)
  | none => d.goTo .idle

/-- The operation of `s` ended in `result`. -/
def returned (d : Desk) (s : Submission FsOp) (result : FsResult) (lent : Lent) : Desk :=
  { d.setFs lent.fs with
    buffers := lent.buffers
    applied := d.applied ++ [⟨s.id, result⟩]
    place := .answering ⟨s.id, result⟩ }

/-- What `serve` does once the operation returned, if it does. -/
def applyGives (d : Desk) (s : Submission FsOp) :
    EStateM.Result (Halt FsError) Lent FsDone → Desk
  | .ok done lent => d.returned s (.ok done) lent
  | .error (.error e) lent => d.returned s (.error e) lent
  | .error .fuel _ => d

/-- What `serve` does with the answer to a completion just made. -/
def answerGives (d : Desk) (c : Completion FsResult) :
    Except (Completion FsResult) (IoRing FsOp FsResult) → Desk
  | .ok ring => { d.push c ring with served := d.served + 1 }.goTo .serving
  | .error refused => (d.hold (some refused)).goTo .idle

/-- What `stop` does with what came off the submission queue. -/
def stopGives (d : Desk) (st : Stopped) :
    Option (Submission FsOp × IoRing FsOp FsResult) → Desk
  | some (s, ring) =>
    { d with ring, taken := d.taken ++ [s] }.goTo (.stopping (st.record s.id))
  | none => d.goTo (.cancelling st st.owed)

/-- What `cancel` does with the answer to one cancellation. -/
def cancelGives (d : Desk) (st : Stopped) (c : Completion FsResult) (rest : List Nat) :
    Except (Completion FsResult) (IoRing FsOp FsResult) → Desk
  | .ok ring => (d.push c ring).goTo (.cancelling st rest)
  | .error _ => d.goTo (.cancelling { st with unanswered := st.unanswered + 1 } rest)

/-- A request that was never run. -/
def cancelled (id : Nat) : Completion FsResult := ⟨id, .error .cancelled⟩

/-- The last hook: the publication goes. -/
def revoke (d : Desk) (st : Stopped) : Desk :=
  { d with
      names := (d.names.withdraw d.provider).2
      reports := d.reports ++ [st.unanswered] }.goTo .restarting

def restartGives (d : Desk) : Option FsCell → Desk
  | some cell => { d with cell }.goTo .idle
  | none => d

def go (d : Desk) : Desk :=
  match d.place with
  | .idle => d
  | .entering =>
    match d.fs.pending with
    | some c => d.heldGives c (d.ring.tryComplete c)
    | none => d.goTo .serving
  | .serving => d.nextGives d.ring.tryNext
  | .working s => d.applyGives s (Service.apply d.owner s.op ⟨d.fs, d.buffers⟩)
  | .answering c => d.answerGives c (d.ring.tryComplete c)
  | .stopping st => d.stopGives st d.ring.tryNext
  | .cancelling st owed =>
    match owed with
    | id :: rest => d.cancelGives st (cancelled id) rest (d.ring.tryComplete (cancelled id))
    | [] => d.revoke st
  | .restarting => d.restartGives d.cell.restart

def places (d : Desk) : Nat := d.ring.submissions.capacity

/-- A call of `serve`. A server that is busy does not hear it, and a cell
that failed answers with an error. -/
def serve (d : Desk) (owner : CellId) (buffers : BufferRegistry) : Desk :=
  if d.place = .idle ∧ d.cell.health = .running then
    { d with owner, buffers, served := 0 }.goTo .entering
  else d

/-- The supervisor begins a restart. It runs no hooks for a cell that
failed. -/
def restart (d : Desk) (provider : CellId) : Desk :=
  if d.place = .idle then
    match d.cell.supervised with
    | .running => { d with provider }.goTo (.stopping (.new d.places))
    | .failed => d.goTo .restarting
  else d

def step (d : Desk) : DeskAct → Desk
  | .submit s => d.submitGives s (d.ring.trySubmit s)
  | .read => d.readGives d.ring.tryCompletion
  | .serve owner buffers => d.serve owner buffers
  | .restart provider => d.restart provider
  | .go => d.go

def run (d : Desk) (acts : List DeskAct) : Desk := acts.foldl step d

end Desk

/-- How many submissions an interleaving makes. -/
def deskSubmits (acts : List DeskAct) : Nat :=
  acts.countP fun
    | .submit _ => true
    | _ => false

end Molt.Fs
