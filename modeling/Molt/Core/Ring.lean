/-
Bounded single-producer/single-consumer rings (`sys/core/src/ring.rs`).

# The ring

`SpscRing` is an array of slots and two counters. The counters are `usize`
and wrap at `2^64`; a counter names the slot at its remainder by the
capacity, which is the length of the array. A slot nobody has written is
`none` (`MaybeUninit::uninit`). Popping copies the value out and leaves
the slot as it was, as `assume_init_read` does.

# Two threads

`tryPush` and `tryPop` are the calls taken whole. `Duo` is the ring with
its two endpoints in the middle of their calls: the producer loads `tail`,
then `head`, writes the slot and stores `tail`; the consumer loads `head`,
then `tail`, reads the slot and stores `head`. One `Act` moves one thread
by one of these accesses, so a list of acts is an interleaving. The log
records each answer at the access that settled it.

# Paired queues

`IoRing` is the submission queue and the completion queue of a service,
with the calls its client and driver ends make.
-/
import Molt.Lib.Queue

namespace Molt.Core

open Molt.Lib.Queue (Event)

variable {α : Type}

-- == counters

/-- `usize::wrapping_add`. -/
def wrappingAdd (a b : Nat) : Nat := (a + b) % 2 ^ 64

/-- `usize::wrapping_sub`. -/
def wrappingSub (a b : Nat) : Nat := (a + 2 ^ 64 - b) % 2 ^ 64

-- == the ring

/-- A fixed-capacity single-producer/single-consumer queue. -/
structure SpscRing (α : Type) where
  slots : List (Option α)
  head : Nat
  tail : Nat
  deriving DecidableEq

namespace SpscRing

/-- An empty queue of `n` slots. -/
def new (n : Nat) : SpscRing α := { slots := List.replicate n none, head := 0, tail := 0 }

/-- The number of entries the queue can hold. -/
def capacity (r : SpscRing α) : Nat := r.slots.length

/-- The value in the slot a counter names; `none` if it was never written. -/
def slot (r : SpscRing α) (counter : Nat) : Option α := (r.slots[counter % r.capacity]?).join

/-- `(*slot).write(value)` at the slot a counter names. -/
def write (r : SpscRing α) (counter : Nat) (value : α) : SpscRing α :=
  { r with slots := r.slots.set (counter % r.capacity) (some value) }

/-- `self.tail.store(tail.wrapping_add(1))`. -/
def storeTail (r : SpscRing α) (tail : Nat) : SpscRing α := { r with tail := wrappingAdd tail 1 }

/-- `self.head.store(head.wrapping_add(1))`. -/
def storeHead (r : SpscRing α) (head : Nat) : SpscRing α := { r with head := wrappingAdd head 1 }

/-- Whether a producer that loaded these counters finds the queue full. -/
def isFull (r : SpscRing α) (tail head : Nat) : Bool := wrappingSub tail head == r.capacity

/-- Enqueues `value`, returning it unchanged when the queue is full. -/
def tryPush (r : SpscRing α) (value : α) : Except α (SpscRing α) :=
  if r.isFull r.tail r.head then .error value
  else .ok ((r.write r.tail value).storeTail r.tail)

/-- Removes the oldest value, or returns `none` when the queue is empty.
Reading a slot nobody wrote is undefined; here it gives `none` too, and
`Carries.pop` shows that no ring in use reaches it. -/
def tryPop (r : SpscRing α) : Option (α × SpscRing α) :=
  if r.head = r.tail then none
  else (r.slot r.head).map fun value => (value, r.storeHead r.head)

end SpscRing

-- == two threads

/-- Where the producer is in a call of `try_push`. -/
inductive Producer (α : Type) where
  | idle
  /-- `tail` is loaded. -/
  | loaded (value : α) (tail : Nat)
  /-- `head` is loaded too and the queue was not full. -/
  | room (value : α) (tail : Nat)
  /-- The slot is written and `tail` is not stored yet. -/
  | wrote (value : α) (tail : Nat)
  deriving DecidableEq

/-- Where the consumer is in a call of `try_pop`. -/
inductive Consumer (α : Type) where
  | idle
  /-- `head` is loaded. -/
  | loaded (head : Nat)
  /-- `tail` is loaded too and the queue was not empty. -/
  | ready (head : Nat)
  /-- The slot is read and `head` is not stored yet. -/
  | read (value : α) (head : Nat)
  /-- The slot read was never written. -/
  | undefined
  deriving DecidableEq

/-- A ring, its two endpoints, and what the calls so far answered. -/
structure Duo (α : Type) where
  ring : SpscRing α
  producer : Producer α
  consumer : Consumer α
  log : List (Event α)
  deriving DecidableEq

/-- One access by one thread. `push` and `pop` enter a call with its first
load; `produce` and `consume` go on with the call entered. -/
inductive Act (α : Type) where
  | push (value : α)
  | produce
  | pop
  | consume
  deriving DecidableEq

namespace Duo

def new (n : Nat) : Duo α := { ring := .new n, producer := .idle, consumer := .idle, log := [] }

def produce (d : Duo α) : Duo α :=
  match d.producer with
  | .idle => d
  | .loaded value tail =>
    if d.ring.isFull tail d.ring.head then
      { d with producer := .idle, log := d.log ++ [.refused value] }
    else { d with producer := .room value tail }
  | .room value tail =>
    { d with ring := d.ring.write tail value, producer := .wrote value tail }
  | .wrote value tail =>
    { d with ring := d.ring.storeTail tail, producer := .idle,
             log := d.log ++ [.pushed value] }

def consume (d : Duo α) : Duo α :=
  match d.consumer with
  | .idle => d
  | .loaded head =>
    if head = d.ring.tail then
      { d with consumer := .idle, log := d.log ++ [.empty] }
    else { d with consumer := .ready head }
  | .ready head =>
    match d.ring.slot head with
    | some value => { d with consumer := .read value head }
    | none => { d with consumer := .undefined }
  | .read value head =>
    { d with ring := d.ring.storeHead head, consumer := .idle,
             log := d.log ++ [.popped value] }
  | .undefined => d

/-- A thread in the middle of a call does not enter another. -/
def step (d : Duo α) : Act α → Duo α
  | .push value =>
    match d.producer with
    | .idle => { d with producer := .loaded value d.ring.tail }
    | _ => d
  | .produce => d.produce
  | .pop =>
    match d.consumer with
    | .idle => { d with consumer := .loaded d.ring.head }
    | _ => d
  | .consume => d.consume

/-- A whole interleaving, from the state it starts in. -/
def run (d : Duo α) (acts : List (Act α)) : Duo α := acts.foldl step d

end Duo

/-- How many calls of `try_push` an interleaving enters at most. -/
def pushes (acts : List (Act α)) : Nat :=
  acts.countP fun
    | .push _ => true
    | _ => false

-- == paired queues

structure Submission (σ : Type) where
  id : Nat
  op : σ
  deriving DecidableEq

/-- One result placed on a completion queue. -/
structure Completion (κ : Type) where
  id : Nat
  result : κ
  deriving DecidableEq

structure IoRing (σ κ : Type) where
  submissions : SpscRing (Submission σ)
  completions : SpscRing (Completion κ)
  deriving DecidableEq

namespace IoRing

variable {σ κ : Type}

def new (n : Nat) : IoRing σ κ := { submissions := .new n, completions := .new n }

def trySubmit (ring : IoRing σ κ) (submission : Submission σ) :
    Except (Submission σ) (IoRing σ κ) :=
  (ring.submissions.tryPush submission).map fun r => { ring with submissions := r }

def tryCompletion (ring : IoRing σ κ) : Option (Completion κ × IoRing σ κ) :=
  ring.completions.tryPop.map fun (c, r) => (c, { ring with completions := r })

def tryNext (ring : IoRing σ κ) : Option (Submission σ × IoRing σ κ) :=
  ring.submissions.tryPop.map fun (s, r) => (s, { ring with submissions := r })

def tryComplete (ring : IoRing σ κ) (completion : Completion κ) :
    Except (Completion κ) (IoRing σ κ) :=
  (ring.completions.tryPush completion).map fun r => { ring with completions := r }

end IoRing

end Molt.Core
