/-
Interrupt lines a task can await, one atomic access a step
(`sys/core/src/interrupt.rs`, `sys/core/src/waker.rs`).

# Steps

A slab is an array of lines and no call touches two of them, so this is one.
Any number of cores raise a line at once; each has its place in `raise`. One
owner at a time binds, reads, polls and releases it, so the owner has one
place, and between calls it may name any token that `bind` has given out. An
access to the waker cell that its state makes exclusive is one step as well.

# What is kept beside the code

`bindings` is the account of each binding, the latest first: where its
baseline was, the count at its last report, and the sum of its reports.
`armed` is the last poll that registered a waker, with the count it then
read, whether it returned `Pending`, and whether its waker has been woken
since. `answers` is what each call returned, with the generation its token
was checked against.
-/
import Mathlib

namespace Molt.Core

-- == the waker cell

/-- An `AtomicWaker`: the two bits of its state and the waker it holds. -/
structure WakerCell where
  registering : Bool
  waking : Bool
  stored : Option Nat
  deriving DecidableEq

namespace WakerCell

def new : WakerCell := ⟨false, false, none⟩

/-- The state is `WAITING`. -/
def Waiting (c : WakerCell) : Prop := c.registering = false ∧ c.waking = false

instance (c : WakerCell) : Decidable c.Waiting := inferInstanceAs (Decidable (_ ∧ _))

end WakerCell

namespace Interrupt

-- == the line

inductive Result where
  | stale
  | pending
  | count (n : Nat)
  | bound
  | done
  deriving DecidableEq

/-- What `take` is for. -/
inductive After where
  | arrivals
  | first (waker : Nat)
  | second (waker : Nat)
  deriving DecidableEq

/-- Where the owner is: which access comes next. -/
inductive Owner where
  | idle
  | bindGeneration
  | bindExchange (free : Nat)
  | bindLoad (generation : Nat)
  | bindStore (generation base : Nat)
  | takeGeneration (token : Nat) (after : After)
  | takeArrivals (token : Nat) (after : After)
  | takeAcknowledged (token : Nat) (after : After) (arrivals : Nat)
  | takeStore (token : Nat) (after : After) (arrivals acknowledged : Nat)
  | registerExchange (token waker : Nat)
  | registerWrite (token waker : Nat)
  | registerFinish (token waker : Nat)
  | registerTake (token waker : Nat)
  | registerSwap (token waker : Nat) (taken : Option Nat)
  | registerWake (token waker : Nat) (taken : Option Nat)
  | releaseExchange (token : Nat)
  | releaseOr (token : Nat)
  | releaseTake (token : Nat)
  | releaseAnd (token : Nat)
  deriving DecidableEq

/-- Where a core is in `raise`. -/
inductive Raiser where
  | idle
  | counted
  | taking
  | took (waker : Option Nat)
  | waking (waker : Option Nat)
  deriving DecidableEq

structure Binding where
  generation : Nat
  base : Nat
  upto : Nat
  sum : Nat
  deriving DecidableEq

structure Armed where
  token : Nat
  waker : Nat
  woken : Bool
  seen : Option Nat
  returned : Bool
  deriving DecidableEq

structure Answer where
  token : Nat
  generation : Nat
  result : Result
  deriving DecidableEq

structure Line where
  arrivals : Nat
  acknowledged : Nat
  generation : Nat
  cell : WakerCell
  owner : Owner
  raisers : Nat → Raiser
  bindings : List Binding
  armed : Option Armed
  answers : List Answer

inductive Call where
  | bind
  | arrivals (token : Nat)
  | poll (token waker : Nat)
  | release (token : Nat)
  deriving DecidableEq

/-- A core takes its next access in `raise`, or the owner calls or goes on. -/
inductive Event where
  | raise (core : Nat)
  | call (call : Call)
  | own
  deriving DecidableEq

namespace Line

def new : Line := ⟨0, 0, 0, .new, .idle, fun _ => .idle, [], none, []⟩

def setRaiser (l : Line) (core : Nat) (r : Raiser) : Line :=
  { l with raisers := fun k => if k = core then r else l.raisers k }

/-- A waker is woken, which the last poll may have been waiting for. -/
def wake (l : Line) : Option Nat → Line
  | none => l
  | some waker => { l with armed := l.armed.map fun a =>
    if a.waker = waker then { a with woken := true } else a }

/-- `raise`. -/
def raise (l : Line) (core : Nat) : Line :=
  match l.raisers core with
  | .idle => setRaiser { l with arrivals := (l.arrivals + 1) % 2 ^ 64 } core .counted
  | .counted =>
    setRaiser { l with cell := { l.cell with waking := true } } core
      (if l.cell.Waiting then .taking else .idle)
  | .taking =>
    setRaiser { l with cell := { l.cell with stored := none } } core (.took l.cell.stored)
  | .took waker =>
    setRaiser { l with cell := { l.cell with waking := false } } core (.waking waker)
  | .waking waker => (l.wake waker).setRaiser core .idle

/-- A call returns, having checked its token against `generation`. -/
def answer (l : Line) (token generation : Nat) (result : Result) : Line :=
  { l with owner := .idle, answers := ⟨token, generation, result⟩ :: l.answers }

/-- The last poll returned `Pending`. -/
def waits (l : Line) : Line := { l with armed := l.armed.map fun a => { a with returned := true } }

/-- `take` has an answer: a poll that was not satisfied registers, or returns. -/
def finish (l : Line) (token : Nat) (result : Result) : After → Line
  | .arrivals => l.answer token l.generation (if result = .pending then .count 0 else result)
  | .first waker =>
    if result = .pending then { l with owner := .registerExchange token waker }
    else l.answer token l.generation result
  | .second _ =>
    if result = .pending then l.waits.answer token l.generation result
    else Line.answer { l with armed := none } token l.generation result

/-- The count `take` read, if it is the poll's second. -/
def seen (l : Line) (arrivals : Nat) : After → Line
  | .second _ => { l with armed := l.armed.map fun a => { a with seen := some arrivals } }
  | _ => l

/-- The account of the binding that is told of `arrivals`. -/
def report (l : Line) (arrivals acknowledged : Nat) : Line :=
  { l with bindings :=
      match l.bindings with
      | [] => []
      | b :: rest =>
        { b with upto := arrivals, sum := b.sum + (arrivals - acknowledged) } :: rest }

/-- The registration is over; the poll goes on to its second look. -/
def arm (l : Line) (token waker : Nat) (woken : Bool) : Line :=
  { l with
    owner := .takeGeneration token (.second waker)
    armed := some ⟨token, waker, woken, none, false⟩ }

/-- The owner's next access. -/
def own (l : Line) : Line :=
  match l.owner with
  | .idle => l
  | .bindGeneration =>
    if l.generation % 2 = 1 then l.answer l.generation l.generation .bound
    else { l with owner := .bindExchange l.generation }
  | .bindExchange free =>
    if l.generation = free then
      { l with generation := (free + 1) % 2 ^ 64, owner := .bindLoad ((free + 1) % 2 ^ 64) }
    else l.answer l.generation l.generation .bound
  | .bindLoad generation => { l with owner := .bindStore generation l.arrivals }
  | .bindStore generation base =>
    answer { l with
      acknowledged := base
      bindings := ⟨generation, base, base, 0⟩ :: l.bindings } generation generation .done
  | .takeGeneration token after =>
    if l.generation ≠ token then l.finish token .stale after
    else { l with owner := .takeArrivals token after }
  | .takeArrivals token after =>
    seen { l with owner := .takeAcknowledged token after l.arrivals } l.arrivals after
  | .takeAcknowledged token after arrivals =>
    if arrivals = l.acknowledged then l.finish token .pending after
    else { l with owner := .takeStore token after arrivals l.acknowledged }
  | .takeStore token after arrivals acknowledged =>
    finish (report { l with acknowledged := arrivals, owner := .idle } arrivals acknowledged) token
      (.count (arrivals - acknowledged)) after
  | .registerExchange token waker =>
    if l.cell.Waiting then
      { l with cell := { l.cell with registering := true }
               owner := .registerWrite token waker }
    else l.arm token waker true
  | .registerWrite token waker =>
    { l with cell := { l.cell with stored := some waker }
             owner := .registerFinish token waker }
  | .registerFinish token waker =>
    if l.cell.waking then { l with owner := .registerTake token waker }
    else arm { l with cell := { l.cell with registering := false } } token waker false
  | .registerTake token waker =>
    { l with cell := { l.cell with stored := none }
             owner := .registerSwap token waker l.cell.stored }
  | .registerSwap token waker taken =>
    { l with cell := { l.cell with registering := false, waking := false }
             owner := .registerWake token waker taken }
  | .registerWake token waker taken => l.arm token waker (taken = some waker)
  | .releaseExchange token =>
    if l.generation = token then
      { l with generation := (token + 1) % 2 ^ 64, owner := .releaseOr token }
    else l.answer token l.generation .stale
  | .releaseOr token =>
    if l.cell.Waiting then
      { l with cell := { l.cell with waking := true }, owner := .releaseTake token }
    else answer { l with cell := { l.cell with waking := true } } token token .done
  | .releaseTake token =>
    { l with cell := { l.cell with stored := none }, owner := .releaseAnd token }
  | .releaseAnd token =>
    answer { l with cell := { l.cell with waking := false } } token token .done

/-- The owner begins a call, with a token that was given out. A poll takes the
place of the one before it. -/
def call (l : Line) : Call → Line
  | .bind => { l with owner := .bindGeneration }
  | .arrivals token =>
    if l.bindings.any (·.generation = token) then
      { l with owner := .takeGeneration token .arrivals }
    else l
  | .poll token waker =>
    if l.bindings.any (·.generation = token) then
      { l with owner := .takeGeneration token (.first waker), armed := none }
    else l
  | .release token =>
    if l.bindings.any (·.generation = token) then { l with owner := .releaseExchange token }
    else l

def step (l : Line) : Event → Line
  | .raise core => l.raise core
  | .call c => if l.owner = .idle then l.call c else l
  | .own => l.own

def run (l : Line) (events : List Event) : Line := events.foldl step l

end Line

end Interrupt

end Molt.Core
