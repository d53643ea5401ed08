/-
Giving addresses back while cores are still reporting in (`smp.rs` and
`space.rs` of the kernel, `shootdown.rs` of the arch crate).

# The steps

`recycle` reads the table of handles twice: `attending()` names the cores the
round is opened over, and `flush` asks the cores that `peers()` finds. Both
look at one slot after another, and a core may publish its handle between any
two looks. What the recycling core does up to its next look is one step with
the last one. A core that was asked flushes and posts its answer, in one step.

`Recycle` also remembers which cores `flush` found, and who has flushed since
the release. Of the address space it has only the epoch that `sweep` closed.
-/
import Mathlib

namespace Molt.Kernel

-- == the shootdown

inductive ShootdownError where
  | width
  | empty
  | opened
  | closed
  | stale
  | foreign
  deriving DecidableEq

/-- The cores a freed range is still waiting on. The two sets are masks. -/
structure Shootdown where
  asked : Nat
  flushed : Nat
  epoch : Option Nat
  retired : Nat
  rounds : Nat
  deriving DecidableEq

namespace Shootdown

def LIMIT : Nat := 64

def new : Shootdown := ⟨0, 0, none, 0, 0⟩

/-- The mask of a list of cores, over the one so far. -/
def mask : Nat → List Nat → Except ShootdownError Nat
  | asked, [] => .ok asked
  | asked, cpu :: cores => if cpu < LIMIT then mask (asked ||| 2 ^ cpu) cores else .error .width

/-- Opens a round: `epoch` stays unretired until every core in `cores` has
flushed. -/
def begin (s : Shootdown) (epoch : Nat) (cores : List Nat) : Except ShootdownError Shootdown :=
  if s.epoch.isSome then .error .opened
  else if epoch ≤ s.retired then .error .stale
  else do
    let asked ← mask 0 cores
    if asked = 0 then .error .empty
    else .ok { s with asked, flushed := 0, epoch := some epoch }

def inRound (s : Shootdown) (cpu : Nat) : Bool := decide (cpu < LIMIT) && s.asked.testBit cpu

def hasFlushed (s : Shootdown) (cpu : Nat) : Bool := decide (cpu < LIMIT) && s.flushed.testBit cpu

/-- Whether `cpu` still owes the open round a flush. -/
def pending (s : Shootdown) (cpu : Nat) : Bool :=
  s.epoch.isSome && s.inRound cpu && !s.hasFlushed cpu

/-- Records that `cpu` has flushed, and answers with the epoch on the
acknowledgement that leaves nobody owing. -/
def acknowledge (s : Shootdown) (cpu : Nat) : Except ShootdownError (Option Nat × Shootdown) :=
  match s.epoch with
  | none => .error .closed
  | some epoch =>
    if s.inRound cpu then
      let flushed := s.flushed ||| 2 ^ cpu
      if flushed ≠ s.asked then .ok (none, { s with flushed })
      else .ok (some epoch,
        { s with flushed, epoch := none, retired := epoch, rounds := s.rounds + 1 })
    else .error .foreign

end Shootdown

-- == one recycle

/-- What `recycle` and `close` assert or expect. -/
inductive Panic where
  /-- A core to flush. -/
  | begin (e : ShootdownError)
  /-- The core that did the unmapping was trusted. -/
  | trusted
  /-- A core took the flush and never answered. -/
  | unanswered
  /-- The round closed with cores still owing a flush. -/
  | closedEarly
  /-- A core this round asked. -/
  | acknowledge (e : ShootdownError)
  /-- The epoch every core has now flushed. -/
  | unclosed
  /-- A round retired an epoch it was not opened for. -/
  | otherEpoch
  deriving DecidableEq

inductive Place where
  | attending (index : Nat) (cores : List Nat)
  | asking (index : Nat)
  | waiting
  | closing (flushed : List Nat) (retirable : Option Nat)
  | retired (epoch : Nat)
  | panicked (why : Panic)
  deriving DecidableEq

/-- One `recycle` and what it touches. -/
structure Recycle where
  slots : List Bool
  here : Nat
  epoch : Nat
  place : Place
  round : Shootdown
  found : List Nat
  asked : List Nat
  answers : List Nat
  flushed : List Nat
  deriving DecidableEq

namespace Recycle

/-- The extent is released and the epoch swept. -/
def start (slots : List Bool) (here epoch : Nat) : Recycle :=
  ⟨slots, here, epoch, .attending 0 [here], .new, [], [], [], []⟩

/-- Whether a core has left its handle. -/
def ready (m : Recycle) (cpu : Nat) : Bool := m.slots.getD cpu false

/-- The two looks pass over this core and over slots without a handle. -/
def peer (m : Recycle) (index : Nat) : Bool := decide (index ≠ m.here) && m.ready index

/-- `close`, once `flush` has come back. -/
def close (m : Recycle) : Recycle :=
  if m.answers.length + 1 = m.asked.length + 1 then
    { m with place := .closing (m.here :: m.answers) none }
  else { m with place := .panicked .unanswered }

/-- The next step of the recycling core. A look of `flush` that finds a
handle spawns a task on it, which may be refused. -/
def own (m : Recycle) (accepted : Bool) : Recycle :=
  match m.place with
  | .attending index cores =>
    if index < m.slots.length then
      let cores := if m.peer index then cores ++ [index] else cores
      { m with place := .attending (index + 1) cores }
    else
      match m.round.begin m.epoch cores with
      | .error e => { m with place := .panicked (.begin e) }
      | .ok round =>
        if round.pending m.here then
          { m with round, flushed := [m.here], place := .asking 0 }
        else { m with round, place := .panicked .trusted }
  | .asking index =>
    if index < m.slots.length then
      if m.peer index then
        { m with
            place := .asking (index + 1)
            found := m.found ++ [index]
            asked := if accepted then m.asked ++ [index] else m.asked }
      else { m with place := .asking (index + 1) }
    else { m with place := .waiting }
  | .waiting => if m.asked.length ≤ m.answers.length then m.close else m
  | .closing (cpu :: flushed) retirable =>
    if retirable.isSome then { m with place := .panicked .closedEarly }
    else
      match m.round.acknowledge cpu with
      | .error e => { m with place := .panicked (.acknowledge e) }
      | .ok (retirable, round) => { m with round, place := .closing flushed retirable }
  | .closing [] none => { m with place := .panicked .unclosed }
  | .closing [] (some e) =>
    { m with place := if e = m.epoch then .retired e else .panicked .otherEpoch }
  | .retired _ | .panicked _ => m

/-- What can happen next: a step of the recycling core, a core reporting
in, an asked core answering, or the ask running out of ticks. -/
inductive Event where
  | own (accepted : Bool)
  | attach (cpu : Nat)
  | answer (cpu : Nat)
  | timeout
  deriving DecidableEq

def step (m : Recycle) : Event → Recycle
  | .own accepted => m.own accepted
  | .attach cpu => { m with slots := m.slots.set cpu true }
  | .answer cpu =>
    if cpu ∈ m.asked ∧ cpu ∉ m.answers then
      { m with answers := m.answers ++ [cpu], flushed := m.flushed ++ [cpu] }
    else m
  | .timeout => if m.place = .waiting then m.close else m

def run (m : Recycle) (events : List Event) : Recycle := events.foldl step m

end Recycle

end Molt.Kernel
