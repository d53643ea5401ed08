/-
The I/O queue of the NVMe driver (`queue.rs` of the nvme crate, with the
`Namespace` and `Command` of its `lib.rs`), and a controller behind it.

# The engine

A request takes one of eight slots. Its slot is the command identifier and the
page of the data mapping it may use, and stays taken until the controller has
completed the command, even if the request is answered earlier. `pass` is one
turn of the loop in `reap`; the source turns again after a completion that
answers nothing and after a wait, which says whether the deadline passed.
Accesses inside a mapping do not fail. A write to a doorbell does if the
register window ends before it. Nothing checks that at the start, so
`Registers` says which windows the results are about.

# The controller

The controller fetches commands in order and completes those it fetched in any
order and with any status, moving data for a read at any time in between. It
posts with the phase protocol and only into a free slot of the completion
ring. Nothing it does between two reads of one `pass` concerns the entry being
read or its page, so a `pass` is one step.

# The bus

`Bus` joins the two and keeps what happened: the requests accepted, the
commands submitted, the completions posted and read, and the answers.
-/
import Molt.Block.Desk
import Molt.Lib.Bytes

namespace Molt.Nvme

open Molt.Block Molt.Lib

/-- The number of independent operations accepted by the I/O queue. -/
def QUEUE_DEPTH : Nat := 8

/-- Entries of either ring. -/
def IO_ENTRIES : Nat := QUEUE_DEPTH + 1

def FLUSH : Nat := 0
def WRITE : Nat := 1
def READ : Nat := 2

-- == the namespace

/-- The namespace as `identify` reported it; other formats are refused. -/
structure Namespace where
  blocks : Nat
  shift : Nat
  shift_low : 9 ≤ shift
  shift_high : shift ≤ 12
  deriving DecidableEq

namespace Namespace

/-- `checked_shl` refuses a shift of 64 and loses what it shifts out. -/
def sectors (n : Namespace) : Nat := n.blocks * 2 ^ (n.shift - 9) % 2 ^ 64

def bytes (n : Namespace) : Nat := 2 ^ n.shift

def sectorsPerBlock (n : Namespace) : Nat := 2 ^ (n.shift - 9)

end Namespace

inductive NvmeError where
  | unsupported
  deriving DecidableEq

/-- The namespace an identify page describes (`namespace`). -/
def namespaceOf (identify : Image) : Except NvmeError Namespace :=
  let blocks := atLe identify 0 8
  let flbas := atLe identify 26 1
  if blocks = 0 ∨ flbas &&& 0x60 ≠ 0 ∨ atLe identify 29 1 ≠ 0 then .error .unsupported
  else
    let format := 128 + (flbas &&& 0x0f) * 4
    let metadata := atLe identify format 2
    let shift := atLe identify (format + 2) 1
    if h : metadata = 0 ∧ 9 ≤ shift ∧ shift ≤ 12 then
      let space : Namespace := ⟨blocks, shift, h.2.1, h.2.2⟩
      if space.sectors = 0 then .error .unsupported else .ok space
    else .error .unsupported

def validateIo (n : Namespace) (sector bytes : Nat) (buffer : Buffer) : Except BlockError Unit :=
  if bytes = 0 ∨ BLOCK < bytes ∨ buffer.bytes.length < bytes then .error .range
  else if sector % n.sectorsPerBlock ≠ 0 ∨ bytes % n.bytes ≠ 0 then .error .unaligned
  else (bounds n.sectors sector bytes).map fun _ => ()

def validate (n : Namespace) : BlockOp → Except BlockError Unit
  | .read sector bytes buffer => validateIo n sector bytes buffer
  | .write sector bytes buffer => validateIo n sector bytes buffer
  | .flush => .ok ()

-- == the commands

structure Command where
  opcode : Nat
  cid : Nat
  nsid : Nat
  prp1 : Nat
  cdw10 : Nat
  cdw11 : Nat
  cdw12 : Nat
  deriving DecidableEq, Inhabited

namespace Command

def io (opcode cid lba blocks prp1 : Nat) : Command where
  opcode := opcode
  cid := cid
  nsid := 1
  prp1 := prp1
  cdw10 := lba % 2 ^ 32
  cdw11 := lba / 2 ^ 32 % 2 ^ 32
  cdw12 := blocks - 1

/-- The starting block, as the controller reads it. -/
def lba (c : Command) : Nat := c.cdw11 * 2 ^ 32 + c.cdw10

/-- The number of blocks, which the entry holds less one. -/
def blocks (c : Command) : Nat := c.cdw12 + 1

end Command

/-- The last words of a completion queue entry. -/
structure Entry where
  cid : Nat
  status : Nat
  deriving DecidableEq, Inhabited

namespace Entry

def phase (x : Entry) : Bool := x.status % 2 == 1

def code (x : Entry) : Nat := x.status / 2

end Entry

-- == the engine

/-- A command the controller has, and the operation it still owes an answer
to. -/
structure Flight where
  id : Nat
  op : Option BlockOp
  deriving DecidableEq

/-- The request a flight still owes. -/
def Flight.live (f : Flight) : Option (Nat × BlockOp) := f.op.map fun op => (f.id, op)

/-- Where the doorbells begin. -/
def DOORBELL : Nat := 0x1000

/-- A register window that has the doorbells of both rings of the I/O queue;
the capabilities give the distance of two doorbells as a shift. -/
structure Registers where
  window : Nat
  shift : Nat
  bells : DOORBELL + 3 * (4 * 2 ^ shift) + 4 ≤ window

namespace Registers

def stride (r : Registers) : Nat := 4 * 2 ^ r.shift

/-- Whether a word can be written there (`Mmio::access`). -/
def access (r : Registers) (offset : Nat) : Bool := offset % 4 == 0 && offset + 4 ≤ r.window

end Registers

structure Engine where
  registers : Registers
  space : Namespace
  /-- Where the controller sees the data mapping. -/
  iova : Nat
  sq : Nat → Command
  cq : Nat → Entry
  data : Image
  flights : List (Option Flight)
  ready : List (Option (Nat × BlockDone))
  tail : Nat
  head : Nat
  phase : Bool

namespace Engine

/-- An engine over zeroed rings and a data mapping of any content. -/
def new (registers : Registers) (space : Namespace) (iova : Nat) (data : Image) : Engine where
  registers := registers
  space := space
  iova := iova
  sq := fun _ => default
  cq := fun _ => ⟨0, 0⟩
  data := data
  flights := List.replicate QUEUE_DEPTH none
  ready := List.replicate QUEUE_DEPTH none
  tail := 0
  head := 0
  phase := true

def freeSlot (e : Engine) : Option Nat :=
  (List.range QUEUE_DEPTH).find? fun slot =>
    (slotAt e.flights slot).isNone && (slotAt e.ready slot).isNone

def ioCommand (e : Engine) (opcode slot sector bytes data : Nat) : Command :=
  Command.io opcode slot (sector / e.space.sectorsPerBlock) (bytes / e.space.bytes % 2 ^ 16) data

/-- The command `start` writes for an operation in `slot`. -/
def commandFor (e : Engine) (slot : Nat) : BlockOp → Command
  | .read sector bytes _ => e.ioCommand READ slot sector bytes (e.iova + slot * BLOCK)
  | .write sector bytes _ => e.ioCommand WRITE slot sector bytes (e.iova + slot * BLOCK)
  | .flush => ⟨FLUSH, slot, 1, 0, 0, 0, 0⟩

/-- What `start` copies into the page of `slot`. -/
def stage (data : Image) (slot : Nat) : BlockOp → Image
  | .write _ bytes buffer => put data (slot * BLOCK) (buffer.bytes.take bytes)
  | _ => data

def start (e : Engine) (id : Nat) (op : BlockOp) : Except BlockOp Unit × Engine :=
  match e.freeSlot with
  | none => (.error op, e)
  | some slot =>
    match validate e.space op with
    | .error error =>
      (.ok (), { e with ready := e.ready.set slot (some (id, finish op (.error error))) })
    | .ok () =>
      let e := { e with
        data := stage e.data slot op
        sq := Function.update e.sq e.tail (e.commandFor slot op)
        tail := (e.tail + 1) % IO_ENTRIES }
      if e.registers.access (DOORBELL + 2 * e.registers.stride) then
        (.ok (), { e with flights := e.flights.set slot (some ⟨id, some op⟩) })
      else
        (.ok (), { e with ready := e.ready.set slot (some (id, finish op (.error .device))) })

/-- Steps past a completion and says so; the doorbell may be out of reach. -/
def advance (e : Engine) : Bool × Engine :=
  (e.registers.access (DOORBELL + 3 * e.registers.stride),
    if e.head + 1 = IO_ENTRIES then { e with head := 0, phase := !e.phase }
    else { e with head := e.head + 1 })

/-- Copies the page of `slot` into the buffer of a read. -/
def copyRead (data : Image) (slot : Nat) : BlockOp → BlockOp
  | .read sector bytes buffer =>
    landed (slice data (slot * BLOCK) bytes) (.read sector bytes buffer)
  | op => op

def hasLiveRequest (e : Engine) : Bool := e.flights.any fun f => (f.bind Flight.live).isSome

/-- Fails the first request whose command is still out. -/
def failOne (e : Engine) (error : BlockError) : Pass × Engine :=
  match pick Flight.live e.flights with
  | none => (.idle, e)
  | some (slot, id, op) =>
    (.answer slot id (finish op (.error error)),
      { e with flights := e.flights.set slot (some ⟨id, none⟩) })

def timeoutOne (e : Engine) : Pass × Engine := e.failOne .timeout

def front (e : Engine) : Entry := e.cq e.head

/-- What `reap` makes of a completion. -/
def consume (e : Engine) (x : Entry) : Pass × Engine :=
  let (rung, e) := e.advance
  if !rung then e.failOne .device
  else
    match slotAt e.flights x.cid with
    | none => e.failOne .device
    | some flight =>
      let e := { e with flights := e.flights.set x.cid none }
      match flight.op with
      | none => (.again, e)
      | some op =>
        if x.code ≠ 0 then (.answer x.cid flight.id (finish op (.error .device)), e)
        else (.answer x.cid flight.id (finish (copyRead e.data x.cid op) (.ok ())), e)

/-- One turn of the loop in `reap`. -/
def pass (e : Engine) (expired : Bool) : Pass × Engine :=
  match pick some e.ready with
  | some (slot, id, done) => (.answer slot id done, { e with ready := e.ready.set slot none })
  | none =>
    if e.front.phase = e.phase then e.consume e.front
    else if expired then e.timeoutOne
    else if !e.hasLiveRequest then (.idle, e)
    else (.wait, e)

/-- Whether a turn reads a completion. -/
def reads (e : Engine) : Bool := (pick some e.ready).isNone && e.front.phase == e.phase

end Engine

-- == controller and bus

structure Controller where
  /-- The next command to fetch. -/
  head : Nat
  /-- The commands fetched and not completed, each with its request. -/
  work : List (Nat × Command)
  /-- The next completion slot. -/
  tail : Nat
  phase : Bool

/-- A completion as it was posted: of which request, with what status, and
what its page held then. -/
structure Post where
  request : Nat
  cid : Nat
  code : Nat
  bytes : List UInt8

def entryOf (phase : Bool) (p : Post) : Entry := ⟨p.cid, 2 * p.code + phase.toNat⟩

structure Bus extends Ledger where
  engine : Engine
  controller : Controller
  submitted : List (Nat × Command)
  fetched : Nat
  posted : List Post
  reaped : List Entry

/-- A call of the driver's owner or a move of the controller. -/
inductive Event where
  | start (id : Nat) (op : BlockOp)
  | reap (expired : Bool)
  | fetch
  | transfer (k offset : Nat) (bytes : List UInt8)
  | complete (k code : Nat)

namespace Bus

def new (registers : Registers) (space : Namespace) (iova : Nat) (data : Image) : Bus where
  toLedger := .new QUEUE_DEPTH
  engine := .new registers space iova data
  controller := ⟨0, [], 0, true⟩
  submitted := []
  fetched := 0
  posted := []
  reaped := []

def extent (b : Bus) (c : Command) : Nat := c.blocks * b.engine.space.bytes

/-- The driver takes a request, unless every slot is in use. -/
def start (b : Bus) (id : Nat) (op : BlockOp) : Bus :=
  match b.engine.freeSlot, b.engine.start id op with
  | some slot, (.ok (), engine) =>
    { b with
      engine
      toLedger := b.enter slot id op
      submitted :=
        match validate b.engine.space op with
        | .ok () => b.submitted ++ [(b.requests.length, b.engine.commandFor slot op)]
        | .error _ => b.submitted }
  | _, (_, engine) => { b with engine }

def reap (b : Bus) (expired : Bool) : Bus :=
  let reaped := if b.engine.reads then b.reaped ++ [b.engine.front] else b.reaped
  let (pass, engine) := b.engine.pass expired
  { b with engine, reaped, toLedger := b.settle pass }

/-- The controller fetches the next command, if the doorbell says there is
one. -/
def fetch (b : Bus) : Bus :=
  if b.controller.head = b.engine.tail then b
  else
    match b.submitted[b.fetched]? with
    | none => b
    | some (n, _) =>
      { b with
        controller := { b.controller with
          head := (b.controller.head + 1) % IO_ENTRIES
          work := b.controller.work ++ [(n, b.engine.sq b.controller.head)] }
        fetched := b.fetched + 1 }

def transfer (b : Bus) (k offset : Nat) (bytes : List UInt8) : Bus :=
  match b.controller.work[k]? with
  | none => b
  | some (_, c) =>
    if c.opcode = READ ∧ offset + bytes.length ≤ b.extent c then
      { b with engine := { b.engine with
          data := put b.engine.data (c.prp1 - b.engine.iova + offset) bytes } }
    else b

/-- The controller completes a command it is working on, if the completion
ring has room. -/
def complete (b : Bus) (k code : Nat) : Bus :=
  match b.controller.work[k]? with
  | none => b
  | some (n, c) =>
    if (b.controller.tail + 1) % IO_ENTRIES = b.engine.head then b
    else
      let p : Post := ⟨n, c.cid, code, slice b.engine.data (c.prp1 - b.engine.iova) (b.extent c)⟩
      { b with
        engine := { b.engine with
          cq := Function.update b.engine.cq b.controller.tail (entryOf b.controller.phase p) }
        controller :=
          { b.controller with
            work := b.controller.work.eraseIdx k
            tail := (b.controller.tail + 1) % IO_ENTRIES
            phase :=
              if (b.controller.tail + 1) % IO_ENTRIES = 0 then !b.controller.phase
              else b.controller.phase }
        posted := b.posted ++ [p] }

def step (b : Bus) : Event → Bus
  | .start id op => b.start id op
  | .reap expired => b.reap expired
  | .fetch => b.fetch
  | .transfer k offset bytes => b.transfer k offset bytes
  | .complete k code => b.complete k code

def run (b : Bus) (events : List Event) : Bus := events.foldl step b

end Bus

end Molt.Nvme
