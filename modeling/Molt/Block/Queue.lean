/-
The device as something more than one request can be at (`queue.rs` of the
block crate, with the traits of `device.rs`).

A trait is a structure of its methods over the implementor's state, which
every method returns, since all of them take `&mut self`. What an
implementor of `Queue` promises is `Queue.Lawful`: it owns a request from
`start` until it hands it back through `reap`, under the id it started with
and with the buffer it came with. `Queued` is the implementation over a
blocking disk.

A buffer is a box. Its `cell` says which box it is and stays with it
whatever the device puts in it.
-/
import Mathlib

namespace Molt.Block

inductive BlockError where
  | range
  | unaligned
  | device
  | timeout
  | readOnly
  | powerLoss
  deriving DecidableEq

/-- The memory an operation carries down to the device and back. -/
structure Buffer where
  cell : Nat
  bytes : List UInt8
  deriving DecidableEq

/-- One request on a block ring. -/
inductive BlockOp where
  | read (sector bytes : Nat) (buffer : Buffer)
  | write (sector bytes : Nat) (buffer : Buffer)
  | flush
  deriving DecidableEq

def BlockOp.cell : BlockOp → Option Nat
  | .read _ _ buffer => some buffer.cell
  | .write _ _ buffer => some buffer.cell
  | .flush => none

/-- What the device made of an operation, with the buffer handed back. -/
structure BlockDone where
  result : Except BlockError Unit
  buffer : Option Buffer

def BlockDone.cell (done : BlockDone) : Option Nat := done.buffer.map Buffer.cell

-- == the traits

/-- Storage that answers one call before it hears the next (`Disk`). -/
structure Disk (D : Type) where
  read : (sector bytes : Nat) → D → Except BlockError (List UInt8) × D
  write : (sector : Nat) → List UInt8 → D → Except BlockError Unit × D
  flush : D → Except BlockError Unit × D

/-- A device that holds several requests at once. -/
structure Queue (Q : Type) where
  depth : Q → Nat
  start : (id : Nat) → BlockOp → Q → Except BlockOp Unit × Q
  reap : Q → Option (Nat × BlockDone) × Q

/-- Which request an operation or an answer belongs to: its id and its
box. -/
abbrev Ticket := Nat × Option Nat

/-- The contract of a queue, `waiting` being the requests it owns. -/
structure Queue.Lawful {Q : Type} (q : Queue Q) (waiting : Q → Multiset Ticket) : Prop where
  started : ∀ {id op d d'}, q.start id op d = (.ok (), d') →
    waiting d' = (id, op.cell) ::ₘ waiting d
  refused : ∀ {id op op' d d'}, q.start id op d = (.error op', d') →
    op' = op ∧ waiting d' = waiting d
  reaped : ∀ {id done d d'}, q.reap d = (some (id, done), d') →
    waiting d = (id, done.cell) ::ₘ waiting d'
  idle : ∀ {d d'}, q.reap d = (none, d') → waiting d' = waiting d

-- == queued

/-- A blocking disk given a queue: the disk does the work when a request is
reaped. -/
structure Queued (D : Type) where
  disk : D
  waiting : List (Option (Nat × BlockOp))

/-- Has the disk do one operation. -/
def act {D : Type} (disk : Disk D) (d : D) : BlockOp → BlockDone × D
  | .read sector bytes buffer =>
    if bytes ≤ buffer.bytes.length then
      match disk.read sector bytes d with
      | (.ok data, d) =>
        (⟨.ok (), some { buffer with bytes := data ++ buffer.bytes.drop bytes }⟩, d)
      | (.error e, d) => (⟨.error e, some buffer⟩, d)
    else (⟨.error .range, some buffer⟩, d)
  | .write sector bytes buffer =>
    if bytes ≤ buffer.bytes.length then
      let (result, d) := disk.write sector (buffer.bytes.take bytes) d
      (⟨result, some buffer⟩, d)
    else (⟨.error .range, some buffer⟩, d)
  | .flush =>
    let (result, d) := disk.flush d
    (⟨result, none⟩, d)

namespace Queued

variable {D : Type}

def new (depth : Nat) (disk : D) : Queued D := ⟨disk, List.replicate depth none⟩

def start (id : Nat) (op : BlockOp) (q : Queued D) : Except BlockOp Unit × Queued D :=
  match q.waiting.findIdx? Option.isNone with
  | some free => (.ok (), { q with waiting := q.waiting.set free (some (id, op)) })
  | none => (.error op, q)

/-- `iter_mut().rev().find_map(Option::take)`: the last slot in use. -/
def newest (waiting : List (Option (Nat × BlockOp))) : Option (Nat × Nat × BlockOp) :=
  waiting.zipIdx.reverse.findSome? fun (slot, i) => slot.map fun (id, op) => (i, id, op)

def reap (disk : Disk D) (q : Queued D) : Option (Nat × BlockDone) × Queued D :=
  match newest q.waiting with
  | none => (none, q)
  | some (i, id, op) =>
    let (done, d) := act disk q.disk op
    (some (id, done), { disk := d, waiting := q.waiting.set i none })

/-- The disk as a queue `depth` requests deep. -/
def queue (disk : Disk D) : Queue (Queued D) where
  depth q := q.waiting.length
  start := start
  reap := reap disk

end Queued

end Molt.Block
