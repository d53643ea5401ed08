/-
A capability-addressed TCP service (`stack/tcp/src/service.rs`).

# Streams

The streams are smoltcp's: a `Stack` is any state machine with the calls the
service makes, and `iface.poll` any change of all streams at once. The
handle of stream `i` is `i`.

# The desk

`TcpDesk` is the service with the driver of its ring and the registry of its
clients' buffers, and it keeps the ids of the requests that a revocation or
a reset gave up. A turn is one call of the service; `serve` polls twice, and
what the network did is given for both.
-/
import Molt.Net.Service

namespace Molt.Net

open Molt.Core Molt.Lib

/-- The first port a connect takes for itself. -/
def EPHEMERAL : Nat := 49152

/-- The rights of `Socket`. -/
def SOCKET : Rights := .READ_WRITE

-- == streams

inductive TcpState where
  | closed
  | listen
  | synSent
  | synReceived
  | established
  | finWait1
  | finWait2
  | closeWait
  | closing
  | lastAck
  | timeWait
  deriving DecidableEq

/-- What the service asks of a stream. -/
structure Stack (σ : Type) where
  state : σ → TcpState
  maySend : σ → Bool
  canSend : σ → Bool
  mayRecv : σ → Bool
  canRecv : σ → Bool
  listen : σ → Nat → Bool × σ
  connect : σ → Endpoint → Nat → Bool × σ
  sendSlice : σ → Bytes → Option Nat × σ
  /-- The bytes taken, at most as many as the target has room for. -/
  recvSlice : σ → Nat → Option Bytes × σ
  close : σ → σ
  abort : σ → σ

-- == operations

inductive TcpOp where
  | listen (port : Nat)
  | connect (dest : Endpoint)
  | send (socket : UInt64) (payload : Payload)
  | recv (socket : UInt64) (payload : Payload)
  | close (socket : UInt64)
  deriving DecidableEq

inductive TcpDone where
  /-- A socket that is listening, or one whose handshake finished. -/
  | opened (socket : UInt64)
  | sent (len : Nat)
  /-- Bytes taken from the stream; zero once the peer is done sending. -/
  | received (len : Nat)
  | closed
  deriving DecidableEq

inductive TcpError where
  | capability (e : CapabilityError)
  | registeredBuffer (e : BufferError)
  | reset
  | busy
  | full
  | unaddressable
  deriving DecidableEq

/-- What a parked request is waiting for. -/
inductive Work where
  | connect
  | send (payload : Payload)
  | recv (payload : Payload)
  deriving DecidableEq

structure Parked where
  id : Nat
  socket : UInt64
  work : Work
  deriving DecidableEq

abbrev TcpAnswer := Completion (Except TcpError TcpDone)

-- == the service

structure Tcp (σ : Type) where
  streams : Nat → σ
  held : List (Option UInt64)
  sockets : CapabilityTable Nat
  parked : List (Option Parked)
  port : Nat
  completion : Option TcpAnswer

/-- The service, the driver of its ring, its clients' buffers, and the ids of
the requests given up. -/
structure TcpDesk (σ : Type) where
  tcp : Tcp σ
  driver : Driver TcpOp (Except TcpError TcpDone)
  buffers : BufferRegistry
  dropped : Multiset Nat

namespace Tcp

variable {σ : Type} (stack : Stack σ)

def new (streams : Nat → σ) (n : Nat) : Tcp σ where
  streams := streams
  held := List.replicate n none
  sockets := .new n
  parked := List.replicate n none
  port := EPHEMERAL
  completion := none

def stream (t : Tcp σ) (socket : UInt64) : Except CapabilityError Nat :=
  t.sockets.get SOCKET ⟨socket.toNat⟩

def setStream (t : Tcp σ) (i : Nat) (s : σ) : Tcp σ :=
  { t with streams := fun j => if j = i then s else t.streams j }

/-- A stream nobody holds, whose last connection has finished closing. -/
def free (t : Tcp σ) : Except TcpError Nat :=
  match (List.range t.held.length).find? fun i =>
    (t.held.getD i none).isNone && stack.state (t.streams i) == .closed with
  | some i => .ok i
  | none => .error .full

/-- Publishes one stream to its owner, undoing the open if nothing can hold it. -/
def hold (t : Tcp σ) (owner : CellId) (i : Nat) : Except TcpError UInt64 × Tcp σ :=
  match t.sockets.insert SOCKET owner i with
  | (.ok socket, sockets) =>
    let socket := UInt64.ofNat socket.raw
    (.ok socket, { t with sockets, held := t.held.set i (some socket) })
  | (.error _, sockets) =>
    (.error .full, { t with sockets }.setStream i (stack.abort (t.streams i)))

def listen (t : Tcp σ) (owner : CellId) (port : Nat) : Except TcpError UInt64 × Tcp σ :=
  if port = 0 then (.error .unaddressable, t)
  else
    match t.free stack with
    | .error e => (.error e, t)
    | .ok i =>
      let (ok, s) := stack.listen (t.streams i) port
      if ok then (t.setStream i s).hold stack owner i else (.error .busy, t.setStream i s)

def connect (t : Tcp σ) (id : Nat) (owner : CellId) (dest : Endpoint) :
    Except TcpError (Option TcpDone) × Tcp σ :=
  match t.free stack with
  | .error e => (.error e, t)
  | .ok i =>
    let (ok, s) := stack.connect (t.streams i) dest t.port
    let t := { t with port := if t.port + 1 < 2 ^ 16 then t.port + 1 else EPHEMERAL }
    if ok then
      match (t.setStream i s).hold stack owner i with
      | (.error e, t) => (.error e, t)
      | (.ok socket, t) =>
        (.ok none, { t with parked := t.parked.set i (some ⟨id, socket, .connect⟩) })
    else (.error .unaddressable, t.setStream i s)

def park (t : Tcp σ) (id : Nat) (socket : UInt64) (work : Work) :
    Except TcpError (Option TcpDone) × Tcp σ :=
  match t.stream socket with
  | .error e => (.error (.capability e), t)
  | .ok i =>
    if (t.parked.getD i none).isSome then (.error .busy, t)
    else (.ok none, { t with parked := t.parked.set i (some ⟨id, socket, work⟩) })

/-- Hands the capability back and starts the shutdown, which outlives it. -/
def close (t : Tcp σ) (socket : UInt64) : Except TcpError Unit × Tcp σ :=
  match t.stream socket with
  | .error e => (.error (.capability e), t)
  | .ok i =>
    if (t.parked.getD i none).isSome then (.error .busy, t)
    else
      let t := t.setStream i (stack.close (t.streams i))
      match t.sockets.revoke SOCKET ⟨socket.toNat⟩ with
      | (.error e, sockets) => (.error (.capability e), { t with sockets })
      | (.ok _, sockets) => (.ok (), { t with sockets, held := t.held.set i none })

def lost (sockets : CapabilityTable Nat) (socket : Option UInt64) : Bool :=
  socket.any fun s => (sockets.get SOCKET ⟨s.toNat⟩).toOption.isNone

end Tcp

-- == the desk

namespace TcpDesk

variable {σ : Type} (stack : Stack σ)

def new (streams : Nat → σ) (n : Nat) (buffers : BufferRegistry) : TcpDesk σ :=
  ⟨.new streams n, .new, buffers, 0⟩

def publish (d : TcpDesk σ) (c : TcpAnswer) : TcpDesk σ :=
  let (refused, driver) := d.driver.tryComplete c
  { d with tcp := { d.tcp with completion := refused.orElse fun _ => d.tcp.completion }, driver }

def flush (d : TcpDesk σ) : TcpDesk σ :=
  match d.tcp.completion with
  | none => d
  | some c => { d with tcp := { d.tcp with completion := none } }.publish c

/-- `iface.poll`: what the network did to the streams. -/
def poll (d : TcpDesk σ) (network : (Nat → σ) → Nat → σ) : TcpDesk σ :=
  { d with tcp := { d.tcp with streams := network d.tcp.streams } }

/-- Answers a parked request, or nothing while the stream cannot serve it. -/
def progress (d : TcpDesk σ) (i : Nat) (p : Parked) :
    Option (Except TcpError TcpDone) × TcpDesk σ :=
  let s := d.tcp.streams i
  match p.work with
  | .connect =>
    if stack.state s = .closed then (some (.error .reset), d)
    else if stack.maySend s then (some (.ok (.opened p.socket)), d)
    else (none, d)
  | .send payload =>
    if !stack.maySend s then (some (.error .reset), d)
    else if !stack.canSend s then (none, d)
    else
      match d.buffers.resolveRead payload.operation with
      | .error e => (some (.error (.registeredBuffer e)), d)
      | .ok bytes =>
        let (sent, s) := stack.sendSlice s bytes
        (some (match sent with | some len => .ok (.sent len) | none => .error .reset),
          { d with tcp := d.tcp.setStream i s })
  | .recv payload =>
    if !stack.canRecv s then
      match stack.state s with
      | .closed => (some (.error .reset), d)
      | .listen => (none, d)
      | .synSent => (none, d)
      | .synReceived => (none, d)
      | _ => if stack.mayRecv s then (none, d) else (some (.ok (.received 0)), d)
    else
      match d.buffers.resolveWrite payload.operation with
      | .error e => (some (.error (.registeredBuffer e)), d)
      | .ok target =>
        let (got, s) := stack.recvSlice s target.length
        match got with
        | none => (some (.error .reset), { d with tcp := d.tcp.setStream i s })
        | some bytes =>
          (some (.ok (.received bytes.length)), { d with
            tcp := d.tcp.setStream i s
            buffers := d.buffers.fill payload.operation bytes })

/-- `for index in 0..N`, from an index on. -/
def resumeFrom : List Nat → TcpDesk σ → TcpDesk σ
  | [], d => d
  | i :: rest, d =>
    match d.tcp.parked.getD i none with
    | none => resumeFrom rest d
    | some p =>
      match d.progress stack i p with
      | (none, d) => resumeFrom rest d
      | (some done, d) =>
        let d := { d with tcp := { d.tcp with parked := d.tcp.parked.set i none } }.publish
          ⟨p.id, done⟩
        if d.tcp.completion.isSome then d else resumeFrom rest d

def resume (d : TcpDesk σ) : TcpDesk σ := resumeFrom stack (List.range d.tcp.parked.length) d

/-- One operation off the ring: its answer, unless it is parked. -/
def apply (d : TcpDesk σ) (owner : CellId) (s : Submission TcpOp) :
    Except TcpError (Option TcpDone) × Tcp σ :=
  match s.op with
  | .listen port =>
    let (answer, tcp) := d.tcp.listen stack owner port
    (answer.map fun socket => some (.opened socket), tcp)
  | .connect dest => d.tcp.connect stack s.id owner dest
  | .send socket payload => d.tcp.park s.id socket (.send payload)
  | .recv socket payload => d.tcp.park s.id socket (.recv payload)
  | .close socket =>
    let (answer, tcp) := d.tcp.close stack socket
    (answer.map fun () => some .closed, tcp)

def handle (d : TcpDesk σ) (owner : CellId) (s : Submission TcpOp) : TcpDesk σ :=
  match d.apply stack owner s with
  | (.ok none, tcp) => { d with tcp }
  | (.ok (some done), tcp) => { d with tcp }.publish ⟨s.id, .ok done⟩
  | (.error e, tcp) => { d with tcp }.publish ⟨s.id, .error e⟩

/-- `while let Some(submission) = driver.try_next()`. -/
def drain (owner : CellId) : List (Submission TcpOp) → TcpDesk σ → TcpDesk σ
  | [], d => d
  | s :: next, d =>
    let d := { d with driver := d.driver.take s }.handle stack owner s
    if d.tcp.completion.isSome then d else drain owner next d

/-- `serve` up to the end of its loop: flush, the first poll with what it
lets finish, and the client's work. -/
def work (d : TcpDesk σ) (owner : CellId) (next : List (Submission TcpOp))
    (first : (Nat → σ) → Nat → σ) : TcpDesk σ :=
  let d := d.flush
  if d.tcp.completion.isSome then d
  else
    let d := (d.poll first).resume stack
    if d.tcp.completion.isSome then d else drain stack owner next d

/-- Drives the stack, drains client work, and drives it once more. -/
def serve (d : TcpDesk σ) (owner : CellId) (next : List (Submission TcpOp))
    (first second : (Nat → σ) → Nat → σ) : TcpDesk σ :=
  let d := d.work stack owner next first
  if d.tcp.completion.isSome then d else (d.poll second).resume stack

/-- Revokes every stream owned by one restarted client cell. -/
def revoke (d : TcpDesk σ) (owner : CellId) : TcpDesk σ :=
  let sockets := (d.tcp.sockets.revokeOwner owner).2
  let lost := Tcp.lost sockets
  { d with
    tcp := { d.tcp with
      sockets
      held := d.tcp.held.map fun s => if lost s then none else s
      parked := List.zipWith (fun s p => if lost s then none else p) d.tcp.held d.tcp.parked
      streams := fun i =>
        if lost (d.tcp.held.getD i none) then stack.abort (d.tcp.streams i) else d.tcp.streams i }
    dropped := d.dropped + (entries (List.zipWith (fun s p => if lost s then p else none)
      d.tcp.held d.tcp.parked)).map Parked.id }

def reset (d : TcpDesk σ) : TcpDesk σ :=
  { d with
    tcp := { d.tcp with
      sockets := d.tcp.sockets.revokeAll.2
      held := List.replicate d.tcp.held.length none
      parked := List.replicate d.tcp.parked.length none
      completion := none
      streams := fun i =>
        if i < d.tcp.held.length then stack.abort (d.tcp.streams i) else d.tcp.streams i }
    dropped := d.dropped + (entries d.tcp.parked).map Parked.id
      + (d.tcp.completion.toList.map Completion.id : List Nat) }

end TcpDesk

/-- One call of the service, with the answers its ring will give and what the
network does; or a change the owners make to their buffers. -/
inductive TcpTurn (σ : Type) where
  | serve (owner : CellId) (next : List (Submission TcpOp)) (room : List Bool)
      (first second : (Nat → σ) → Nat → σ)
  | revoke (owner : CellId)
  | reset
  | buffers (registry : BufferRegistry)

namespace TcpDesk

variable {σ : Type} (stack : Stack σ)

def facing (d : TcpDesk σ) (room : List Bool) : TcpDesk σ :=
  { d with driver := { d.driver with room } }

def turn (d : TcpDesk σ) : TcpTurn σ → TcpDesk σ
  | .serve owner next room first second =>
    (d.facing room).serve stack owner next first second
  | .revoke owner => d.revoke stack owner
  | .reset => d.reset stack
  | .buffers registry => { d with buffers := registry }

def run (d : TcpDesk σ) (turns : List (TcpTurn σ)) : TcpDesk σ := turns.foldl (turn stack) d

end TcpDesk

end Molt.Net
