/-
The VirtIO block queue (`block.rs` of the virtio crate, with the request table
of its `request.rs`), and a device behind it.

# The engine

A request takes a slot, which owns a control record and one bounce buffer, and
a chain of descriptors, which the device knows by its head. Both stay taken
until the device returns the head. `pass` is one turn of the loop in `reap`;
the source turns again after a completion that answers nothing and after a
wait, which says whether the deadline passed. Accesses inside a mapping do not
fail. A notification that leaves its window does: `start` is told.

# Memory

`mem` is what the device addresses, and the two mappings are ranges of it that
do not meet.

# The device

The device takes chains from the available ring in order and returns those it
took in any order. In between it may write to the writable parts of a chain at
will, the status byte included, as the descriptor table describes them at that
time.

# The bus

`Bus` joins the two and keeps what happened: beside the ledger of the requests,
`out` says which chains were pushed and not returned.
-/
import Molt.Block.Desk
import Molt.Lib.Bytes
import Molt.Virtio.Queue

namespace Molt.Virtio.Block

open Molt.Block Molt.Lib

def T_IN : Nat := 0
def T_OUT : Nat := 1
def T_FLUSH : Nat := 4

def S_OK : UInt8 := 0

def HEADER_LEN : Nat := 16
def CONTROL_STRIDE : Nat := 32
def STATUS_OFFSET : Nat := HEADER_LEN

/-- The maximum number of block requests this driver owns at once. -/
def REQUESTS : Nat := 8

-- == the request table

inductive State where
  | free
  | pending
  | cancelled
  deriving DecidableEq

structure Slot where
  state : State
  generation : Nat
  deriving DecidableEq

/-- A submitted request, matched against its slot on completion. -/
structure Token where
  head : Nat
  generation : Nat
  deriving DecidableEq

inductive Completion where
  | delivered
  | stale
  deriving DecidableEq

/-- One slot per possible descriptor head. -/
abbrev Requests := Nat → Slot

namespace Requests

def new : Requests := fun _ => ⟨.free, 0⟩

/-- Marks `head` pending and returns a token stamped with its generation. -/
def issue (r : Requests) (head : Nat) : Token × Requests :=
  (⟨head, (r head).generation⟩, Function.update r head { r head with state := .pending })

/-- Gives up on `token`'s request, leaving its head reserved. -/
def cancel (r : Requests) (token : Token) : Requests :=
  if (r token.head).state = .pending ∧ (r token.head).generation = token.generation then
    Function.update r token.head { r token.head with state := .cancelled }
  else r

/-- Resolves a completion for `head`, freeing its slot. -/
def complete (r : Requests) (head : Nat) : Completion × Requests :=
  (match (r head).state with
    | .pending => .delivered
    | .free => .stale
    | .cancelled => .stale,
    Function.update r head ⟨.free, ((r head).generation + 1) % 2 ^ 32⟩)

end Requests

-- == the engine

/-- A queue size, a capacity and two mappings that `start_mapped` accepts. -/
structure Config where
  size : Nat
  capacity : Nat
  control : Nat
  data : Nat
  power : ∃ k < 6, size = 2 ^ k
  deep : 2 ≤ size / 3
  apart : control + CONTROL_STRIDE * REQUESTS ≤ data ∨ data + BLOCK * REQUESTS ≤ control

/-- The smallest queue the driver runs on. -/
example : Config := ⟨8, 1024, 0x1000, 0x2000, ⟨3, by decide, rfl⟩, by decide, .inl (by decide)⟩

namespace Config

def depth (c : Config) : Nat := min (c.size / 3) REQUESTS

/-- The control record of a slot. -/
def controlAt (c : Config) (slot : Nat) : Nat := c.control + slot * CONTROL_STRIDE

def statusAt (c : Config) (slot : Nat) : Nat := c.controlAt slot + STATUS_OFFSET

/-- The bounce buffer of a slot. -/
def dataAt (c : Config) (slot : Nat) : Nat := c.data + slot * BLOCK

/-- The new queue, which `Queue::new` lays out for these sizes. -/
def queue (c : Config) : Queue :=
  ⟨c.size, fun _ => ⟨0, 0, 0, 0⟩, fun _ => 0, List.range c.size, 0, 0⟩

end Config

structure Flight where
  id : Nat
  head : Nat
  token : Token
  op : Option BlockOp
  deriving DecidableEq

def Flight.live (f : Flight) : Option (Nat × BlockOp) := f.op.map fun op => (f.id, op)

structure Engine where
  config : Config
  queue : Queue
  requests : Requests
  mem : Image
  flights : List (Option Flight)
  ready : List (Option (Nat × BlockDone))

def validateIo (capacity sector bytes : Nat) (buffer : Buffer) : Except BlockError Unit :=
  if bytes = 0 ∨ BLOCK < bytes ∨ buffer.bytes.length < bytes then .error .range
  else (bounds capacity sector bytes).map fun _ => ()

def validate (capacity : Nat) : BlockOp → Except BlockError Unit
  | .read sector bytes buffer => validateIo capacity sector bytes buffer
  | .write sector bytes buffer => validateIo capacity sector bytes buffer
  | .flush => .ok ()

def kind : BlockOp → Nat × Nat
  | .read sector _ _ => (T_IN, sector)
  | .write sector _ _ => (T_OUT, sector)
  | .flush => (T_FLUSH, 0)

/-- The bytes of a request header, with its status preset. -/
def headerBytes (op : BlockOp) : List UInt8 :=
  leBytes 4 (kind op).1 ++ leBytes 4 0 ++ leBytes 8 (kind op).2 ++ [0xff]

/-- What `start` writes into the records of `slot`. -/
def stage (c : Config) (mem : Image) (slot : Nat) (op : BlockOp) : Image :=
  let mem :=
    match op with
    | .write _ bytes buffer => put mem (c.dataAt slot) (buffer.bytes.take bytes)
    | _ => mem
  put mem (c.controlAt slot) (headerBytes op)

def segments (c : Config) (slot : Nat) : BlockOp → List Segment
  | .read _ bytes _ =>
    [⟨c.controlAt slot, HEADER_LEN, false⟩, ⟨c.dataAt slot, bytes, true⟩,
      ⟨c.statusAt slot, 1, true⟩]
  | .write _ bytes _ =>
    [⟨c.controlAt slot, HEADER_LEN, false⟩, ⟨c.dataAt slot, bytes, false⟩,
      ⟨c.statusAt slot, 1, true⟩]
  | .flush => [⟨c.controlAt slot, HEADER_LEN, false⟩, ⟨c.statusAt slot, 1, true⟩]

namespace Engine

def new (c : Config) (mem : Image) : Engine where
  config := c
  queue := c.queue
  requests := .new
  mem := mem
  flights := List.replicate REQUESTS none
  ready := List.replicate REQUESTS none

def freeSlot (e : Engine) : Option Nat :=
  (List.range e.config.depth).find? fun slot =>
    (slotAt e.flights slot).isNone && (slotAt e.ready slot).isNone

/-- Puts a pushed chain in flight; `signalled` is whether the device could be
notified. -/
def launch (e : Engine) (slot id : Nat) (op : BlockOp) (head : Nat) (signalled : Bool) : Engine :=
  let (token, requests) := e.requests.issue head
  if signalled then
    { e with requests, flights := e.flights.set slot (some ⟨id, head, token, some op⟩) }
  else
    { e with
      requests := requests.cancel token
      flights := e.flights.set slot (some ⟨id, head, token, none⟩)
      ready := e.ready.set slot (some (id, finish op (.error .device))) }

/-- A queue that is full refuses the request, as does one without a slot. A
chain of three never makes `push` panic. -/
def start (e : Engine) (id : Nat) (op : BlockOp) (signalled : Bool) :
    Except BlockOp Unit × Engine :=
  match e.freeSlot with
  | none => (.error op, e)
  | some slot =>
    match validate e.config.capacity op with
    | .error error =>
      (.ok (), { e with ready := e.ready.set slot (some (id, finish op (.error error))) })
    | .ok () =>
      let e := { e with mem := stage e.config e.mem slot op }
      match e.queue.push (segments e.config slot op) with
      | none => (.error op, e)
      | some (.error .full, queue) => (.error op, { e with queue })
      | some (.error .device, queue) =>
        (.ok (), { e with
          queue
          ready := e.ready.set slot (some (id, finish op (.error .device))) })
      | some (.ok head, queue) =>
        (.ok (), launch { e with queue } slot id op head signalled)

def hasLiveRequest (e : Engine) : Bool := e.flights.any fun f => (f.bind Flight.live).isSome

def failOne (e : Engine) (error : BlockError) : Pass × Engine :=
  match pick (fun f : Flight => f.op.map fun op => (f, op)) e.flights with
  | none => (.idle, e)
  | some (slot, f, op) =>
    (.answer slot f.id (finish op (.error error)), { e with
        requests := e.requests.cancel f.token
        flights := e.flights.set slot (some { f with op := none }) })

def timeoutOne (e : Engine) : Pass × Engine := e.failOne .timeout

def complete (e : Engine) (slot : Nat) (op : BlockOp) : Except BlockError Unit :=
  if e.mem (e.config.statusAt slot) ≠ S_OK then .error .device
  else
    match op with
    | .read _ bytes _ => if BLOCK < bytes then .error .range else .ok ()
    | _ => .ok ()

def copyRead (e : Engine) (slot : Nat) : BlockOp → BlockOp
  | .read sector bytes buffer =>
    landed (slice e.mem (e.config.dataAt slot) bytes) (.read sector bytes buffer)
  | op => op

def completeWithCopy (e : Engine) (slot : Nat) (op : BlockOp) : BlockDone :=
  match e.complete slot op with
  | .error error => finish op (.error error)
  | .ok () => finish (e.copyRead slot op) (.ok ())

/-- What `reap` makes of a chain the device returned. -/
def consume (e : Engine) (used : Used) : Pass × Engine :=
  match pick (fun f : Flight => if f.head = used.head then some f else none) e.flights with
  | none => e.failOne .device
  | some (slot, flight) =>
    let (completion, requests) := e.requests.complete used.head
    let e := { e with requests, flights := e.flights.set slot none }
    match completion with
    | .stale => (.again, e)
    | .delivered =>
      match flight.op with
      | none => (.again, e)
      | some op => (.answer slot flight.id (e.completeWithCopy slot op), e)

/-- One turn of the loop in `reap`, with what the device has written to the
used ring. -/
def pass (e : Engine) (device : UsedRing) (expired : Bool) : Pass × Engine :=
  match pick some e.ready with
  | some (slot, id, done) => (.answer slot id done, { e with ready := e.ready.set slot none })
  | none =>
    match e.queue.pop device with
    | (.ok (some used), queue) => consume { e with queue } used
    | (.ok none, queue) =>
      let e := { e with queue }
      if expired then e.timeoutOne
      else if e.hasLiveRequest then (.wait, e)
      else (.idle, e)
    | (.error _, queue) => failOne { e with queue } .device

/-- Whether a turn takes a chain back. -/
def reads (e : Engine) (device : UsedRing) : Bool :=
  (pick some e.ready).isNone && device.idx != e.queue.usedSeen

end Engine

-- == device and bus

/-- A chain as the device reads it from the table. -/
def gather (table : Nat → Descriptor) : Nat → Nat → List Segment
  | 0, _ => []
  | turns + 1, i =>
    ⟨(table i).addr, (table i).len, (table i).flags &&& WRITE ≠ 0⟩ ::
      if (table i).flags &&& NEXT = 0 then [] else gather table turns (table i).next

/-- A chain as it was returned: of which request, and what its status and its
data were then. -/
structure Post where
  request : Nat
  head : Nat
  len : Nat
  status : UInt8
  bytes : List UInt8

structure Bus extends Ledger where
  engine : Engine
  /-- The chains the device holds, each with its request. -/
  work : List (Nat × Nat)
  used : Nat → Nat × Nat
  /-- The heads published, each with its request. -/
  submitted : List (Nat × Nat)
  taken : Nat
  posted : List Post
  reaped : Nat
  out : List (List Nat)

/-- A call of the driver's owner or a move of the device. -/
inductive Event where
  | start (id : Nat) (op : BlockOp) (signalled : Bool)
  | reap (expired : Bool)
  | take
  | transfer (k part offset : Nat) (bytes : List UInt8)
  | complete (k len : Nat)

namespace Bus

def new (c : Config) (mem : Image) : Bus where
  toLedger := .new REQUESTS
  engine := .new c mem
  work := []
  used := fun _ => (0, 0)
  submitted := []
  taken := 0
  posted := []
  reaped := 0
  out := []

def ring (b : Bus) : UsedRing := ⟨b.posted.length % 2 ^ 16, b.used⟩

/-- A chain as the device sees it. -/
def chain (b : Bus) (head : Nat) : List Segment :=
  gather b.engine.queue.table b.engine.queue.size head

/-- The driver takes a request, unless it is full. -/
def start (b : Bus) (id : Nat) (op : BlockOp) (signalled : Bool) : Bus :=
  match b.engine.freeSlot, b.engine.start id op signalled with
  | some slot, (.ok (), engine) =>
    let b' := { b with engine, toLedger := b.enter slot id op }
    match validate b.engine.config.capacity op,
        b.engine.queue.push (segments b.engine.config slot op) with
    | .ok (), some (.ok head, _) =>
      { b' with
        submitted := b.submitted ++ [(b.requests.length, head)]
        out := b.engine.queue.free.take (segments b.engine.config slot op).length :: b.out }
    | _, _ => b'
  | _, (_, engine) => { b with engine }

def reap (b : Bus) (expired : Bool) : Bus :=
  let b' :=
    if b.engine.reads b.ring then
      { b with
        reaped := b.reaped + 1
        out := b.out.eraseP fun c =>
          c.head? = some (b.used (b.engine.queue.usedSeen % b.engine.queue.size)).1 }
    else b
  let (pass, engine) := b.engine.pass b.ring expired
  { b' with engine, toLedger := b.settle pass }

/-- The device takes the next chain, if the index says there is one. -/
def take (b : Bus) : Bus :=
  if b.taken % 2 ^ 16 = b.engine.queue.availIdx then b
  else
    match b.submitted[b.taken]? with
    | none => b
    | some (n, _) =>
      { b with
        work := b.work ++ [(n, b.engine.queue.ring (b.taken % b.engine.queue.size))]
        taken := b.taken + 1 }

/-- The device writes to a part of a chain it holds. -/
def transfer (b : Bus) (k part offset : Nat) (bytes : List UInt8) : Bus :=
  match b.work[k]? with
  | none => b
  | some (_, head) =>
    match (b.chain head)[part]? with
    | none => b
    | some s =>
      if s.writable ∧ offset + bytes.length ≤ s.len then
        { b with engine := { b.engine with mem := put b.engine.mem (s.iova + offset) bytes } }
      else b

def left (mem : Image) : List Segment → UInt8 × List UInt8
  | [_, data, status] => (mem status.iova, slice mem data.iova data.len)
  | [_, status] => (mem status.iova, [])
  | _ => (0, [])

/-- The device returns a chain it holds. -/
def complete (b : Bus) (k len : Nat) : Bus :=
  match b.work[k]? with
  | none => b
  | some (n, head) =>
    let (status, bytes) := left b.engine.mem (b.chain head)
    { b with
      work := b.work.eraseIdx k
      used := Function.update b.used (b.posted.length % b.engine.queue.size) (head, len)
      posted := b.posted ++ [⟨n, head, len, status, bytes⟩] }

def step (b : Bus) : Event → Bus
  | .start id op signalled => b.start id op signalled
  | .reap expired => b.reap expired
  | .take => b.take
  | .transfer k part offset bytes => b.transfer k part offset bytes
  | .complete k len => b.complete k len

def run (b : Bus) (events : List Event) : Bus := events.foldl step b

end Bus

end Molt.Virtio.Block
