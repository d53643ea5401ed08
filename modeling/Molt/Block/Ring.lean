/-
A ring between whoever wants blocks and whoever holds the device (`ring.rs`
of the block crate).

# The two ends

`BlockClient` submits operations under ids of its own and takes answers by
id, parking the ones it passes. `BlockDriver` keeps the device as full as it
goes: `drain` hands finished requests back, `feed` starts new ones, and a
flush is started only on a device with nothing on it and shuts the device
until it is reaped. Both ends are held by one thread, so calls of the two
interleave as wholes.

# The loops

Every round of `drain` past the first reaps a request that was outstanding,
every round of `feed` takes a submission off the ring, every round of `pump`
that goes on does one or the other, and every round of `take` takes an
answer. The bounds the loops are given follow from that.

# Calls

`Bench` puts the two ends and the device together and keeps a log of what
happened to every request. A `take` that finds no slot to park an answer in
panics, and nothing happens after that.
-/
import Molt.Block.Queue
import Molt.Core.Ring
import Molt.Lib.Barrier

namespace Molt.Block

open Molt.Core
open Molt.Lib.Barrier (Event)

abbrev Request := Submission BlockOp

/-- An answer as it is handed back. -/
abbrev Answer := Completion BlockDone

/-- The submitting end of a block ring, without the ring. -/
structure BlockClient where
  parked : List (Option Answer)
  next : Nat

/-- The serving end of a block ring, without the ring. -/
structure BlockDriver where
  pending : Option Answer
  held : Option Request
  outstanding : Nat
  barrier : Bool

structure Bench (Q : Type) where
  ring : IoRing BlockOp BlockDone
  client : BlockClient
  driver : BlockDriver
  device : Q
  log : List (Event Request Answer)
  panicked : Bool

namespace Bench

variable {Q : Type}

/-- `channel::<N>()`, with the device it is pumped into. -/
def channel (n : Nat) (device : Q) : Bench Q where
  ring := .new n
  client := ⟨List.replicate n none, 0⟩
  driver := ⟨none, none, 0, false⟩
  device := device
  log := []
  panicked := false

def note (b : Bench Q) (e : Event Request Answer) : Bench Q := { b with log := b.log ++ [e] }

-- == the client

/-- What `submit` does with the ring's answer to `request`. -/
def enqueued (b : Bench Q) (request : Request) :
    Except Request (IoRing BlockOp BlockDone) → Bench Q
  | .ok ring =>
    { b with ring, client := { b.client with next := wrappingAdd b.client.next 1 } }.note
      (.submitted request)
  | .error _ => b

/-- Queues `op`, or leaves everything as it was when the ring is full. -/
def submit (b : Bench Q) (op : BlockOp) : Bench Q :=
  b.enqueued ⟨b.client.next, op⟩ (b.ring.trySubmit ⟨b.client.next, op⟩)

/-- One round of `take`, on what came off the completion queue. -/
def takeRound (id : Nat) (again : Bench Q → Bench Q) (b : Bench Q) :
    Option (Answer × IoRing BlockOp BlockDone) → Bench Q
  | none => b
  | some (completion, ring) =>
    if completion.id = id then { b with ring }.note (.taken completion)
    else
      match b.client.parked.findIdx? Option.isNone with
      | none => { b with ring, panicked := true }
      | some free =>
        again { b with
          ring
          client := { b.client with
            parked := b.client.parked.set free (some completion) } }

/-- The loop of `take` over the completion queue. -/
def takeFrom (id : Nat) : Nat → Bench Q → Bench Q
  | 0, b => b
  | rounds + 1, b => takeRound id (takeFrom id rounds) b b.ring.tryCompletion

/-- The place of the answer to `id` among the parked ones. -/
def parkedAt (b : Bench Q) (id : Nat) : Option (Nat × Answer) :=
  b.client.parked.zipIdx.findSome? fun (slot, i) =>
    (slot.filter fun completion => completion.id == id).map fun completion => (i, completion)

/-- Takes `id`'s answer if it has landed, keeping the ones it passes. -/
def take (b : Bench Q) (id : Nat) : Bench Q :=
  match b.parkedAt id with
  | some (i, completion) =>
    { b with client := { b.client with parked := b.client.parked.set i none } }.note
      (.taken completion)
  | none =>
    takeFrom id (wrappingSub b.ring.completions.tail b.ring.completions.head + 1) b

-- == the driver

def handedOver (b : Bench Q) (completion : Answer) :
    Except Answer (IoRing BlockOp BlockDone) → Option (Bool × Bench Q)
  | .error _ => none
  | .ok ring =>
    some (true, { b with ring, driver := { b.driver with pending := none } }.note
      (.answered completion))

/-- Pushes the pending answer, if there is one. `none` if the ring had no
room for it, and else whether there was one. -/
def handOver (b : Bench Q) : Option (Bool × Bench Q) :=
  match b.driver.pending with
  | none => some (false, b)
  | some completion => b.handedOver completion (b.ring.tryComplete completion)

/-- What `drain` does with a request it reaped. -/
def landed (b : Bench Q) (device : Q) (completion : Answer) : Bench Q :=
  let outstanding := b.driver.outstanding - 1
  { b with
      device
      driver := { b.driver with
        outstanding
        barrier := if outstanding = 0 then false else b.driver.barrier
        pending := some completion } }.note (.reaped completion)

/-- One round of `drain`, on what became of the pending answer. -/
def drainRound (q : Queue Q) (again : Bool → Bench Q → Bool × Bench Q) (moved : Bool)
    (b : Bench Q) : Option (Bool × Bench Q) → Bool × Bench Q
  | none => (moved, b)
  | some (pushed, b) =>
    match q.reap b.device with
    | (none, device) => (moved || pushed, { b with device })
    | (some (id, done), device) => again (moved || pushed) (b.landed device ⟨id, done⟩)

/-- The loop of `drain`; the flag says whether it handed anything back. -/
def drainFrom (q : Queue Q) : Nat → Bool → Bench Q → Bool × Bench Q
  | 0, moved, b => (moved, b)
  | rounds + 1, moved, b => drainRound q (drainFrom q rounds) moved b b.handOver

/-- Hands finished requests back to the client; false if it moved none. -/
def drain (q : Queue Q) (b : Bench Q) : Bool × Bench Q :=
  drainFrom q (b.driver.outstanding + 2) false b

/-- `held.take().or_else(|| ring.try_next())`. -/
def next (b : Bench Q) : Option (Request × Bench Q) :=
  match b.driver.held with
  | some request => some (request, { b with driver := { b.driver with held := none } })
  | none => b.ring.tryNext.map fun (request, ring) => (request, { b with ring })

def hold (b : Bench Q) (request : Request) : Bench Q :=
  { b with driver := { b.driver with held := some request } }

/-- What `feed` does with a request the device took. -/
def took (b : Bench Q) (device : Q) (request : Request) : Bench Q :=
  { b with
      device
      driver := { b.driver with
        outstanding := b.driver.outstanding + 1
        barrier := decide (request.op = BlockOp.flush) } }.note (.started request)

/-- One round of `feed`, on the request it is about. -/
def feedRound (q : Queue Q) (again : Bool → Bench Q → Bool × Bench Q) (moved : Bool)
    (b : Bench Q) : Option (Request × Bench Q) → Bool × Bench Q
  | none => (moved, b)
  | some (request, b) =>
    if request.op = .flush ∧ b.driver.outstanding > 0 then (moved, b.hold request)
    else
      match q.start request.id request.op b.device with
      | (.error refused, device) => (moved, { b with device }.hold ⟨request.id, refused⟩)
      | (.ok _, device) => again true (b.took device request)

/-- The loop of `feed`; the flag says whether it started anything. -/
def feedFrom (q : Queue Q) : Nat → Bool → Bench Q → Bool × Bench Q
  | 0, moved, b => (moved, b)
  | rounds + 1, moved, b =>
    if b.driver.barrier = false ∧ b.driver.outstanding < q.depth b.device then
      feedRound q (feedFrom q rounds) moved b b.next
    else (moved, b)

/-- The requests on the ring not taken off it yet. -/
def backlog (b : Bench Q) : Nat := wrappingSub b.ring.submissions.tail b.ring.submissions.head

/-- Starts what the device has room for; false if it started none. -/
def feed (q : Queue Q) (b : Bench Q) : Bool × Bench Q := feedFrom q (b.backlog + 2) false b

/-- The loop of `pump`. -/
def pumpFrom (q : Queue Q) : Nat → Bench Q → Bench Q
  | 0, b => b
  | rounds + 1, b =>
    let drained := b.drain q
    let fed := drained.2.feed q
    if !fed.1 && !drained.1 then fed.2 else pumpFrom q rounds fed.2

/-- Keeps the device as full as its depth allows. -/
def pump (q : Queue Q) (b : Bench Q) : Bench Q :=
  pumpFrom q (2 * b.backlog + b.driver.outstanding + 5) b

-- == calls

/-- One call of either end. -/
inductive Act where
  | submit (op : BlockOp)
  | take (id : Nat)
  | pump
  deriving DecidableEq

def call (q : Queue Q) (b : Bench Q) (act : Act) : Bench Q :=
  if b.panicked then b
  else match act with
    | .submit op => b.submit op
    | .take id => b.take id
    | .pump => b.pump q

def run (q : Queue Q) (b : Bench Q) (acts : List Act) : Bench Q := acts.foldl (call q) b

end Bench

/-- How many calls of `submit` an interleaving makes. -/
def submits (acts : List Bench.Act) : Nat :=
  acts.countP fun
    | .submit _ => true
    | _ => false

end Molt.Block
