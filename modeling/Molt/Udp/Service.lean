/-
What the UDP service does with a packet from below (`stack/udp/src/`:
`service.rs` and `wire.rs`).

The service is a client of the IP service's ring. A receive request it made
there is answered with where a packet came from and how long it is; the packet
itself is in the buffer the service registered for it.
-/
import Molt.Net.Service

namespace Molt.Net

open Molt.Core Molt.Lib

-- == datagrams

namespace Udp

def PROTOCOL : UInt8 := 17

def MAX_PAYLOAD : Nat := 1472

def MAX_SEGMENT : Nat := 1480

/-- The rights of `Socket`. -/
def SOCKET : Rights := .READ_WRITE

inductive Error where
  | buffer
  | malformed
  | checksum
  | wire (e : NetError)
  | ip (e : IpError)
  | capability (e : CapabilityError)
  | registeredBuffer (e : BufferError)
  | bound
  | busy
  | full
  | tooLarge
  deriving DecidableEq

structure Datagram where
  src : Endpoint
  dst : Endpoint
  payload : Bytes
  deriving DecidableEq

namespace Datagram

def HEADER : Nat := 8

def checksum (src dst : IpAddr) (bytes : Bytes) : Except Error Nat :=
  match src, dst with
  | .v4 src, .v4 dst => .ok (Checksum.overIpv4 src dst PROTOCOL bytes)
  | .v6 src, .v6 dst => .ok (Checksum.overIpv6 src dst PROTOCOL bytes)
  | _, _ => .error .malformed

def isV6 : IpAddr → Bool
  | .v6 _ => true
  | .v4 _ => false

def parse (src dst : IpAddr) (bytes : Bytes) : Except Error Datagram :=
  if bytes.length < HEADER then .error .malformed
  else
    let len := be16At bytes 4
    let transmitted := be16At bytes 6
    if len < HEADER ∨ bytes.length < len then .error .malformed
    else
      let datagram := ⟨⟨src, be16At bytes 0⟩, ⟨dst, be16At bytes 2⟩, (bytes.take len).drop HEADER⟩
      if transmitted = 0 then if isV6 src then .error .checksum else .ok datagram
      else do if (← checksum src dst (bytes.take len)) ≠ 0 then .error .checksum else .ok datagram

def emit (d : Datagram) (room : Nat) : Except Error Bytes :=
  let len := HEADER + d.payload.length
  if len ≥ 2 ^ 16 ∨ room < len then .error .buffer
  else do
    let ports := be16 d.src.port ++ be16 d.dst.port ++ be16 len
    let sum ← checksum d.src.addr d.dst.addr (ports ++ [0, 0] ++ d.payload)
    .ok (ports ++ be16 (if sum = 0 then 0xffff else sum) ++ d.payload)

end Datagram

-- == operations

inductive Done where
  | bound (socket : UInt64)
  | sent (len : Nat)
  | received (source : Endpoint) (len : Nat)
  | closed
  deriving DecidableEq

structure Bound where
  port : UInt16
  socket : UInt64
  deriving DecidableEq

structure Receive where
  id : Nat
  socket : UInt64
  payload : Payload
  deriving DecidableEq

structure Stored where
  socket : UInt64
  source : Endpoint
  bytes : Bytes
  deriving DecidableEq

-- == the service

/-- `rx` is the read view of the buffer that packets are received into. -/
structure Service where
  addr : IpAddr
  rx : Payload
  sockets : CapabilityTable UInt16
  bound : List (Option Bound)
  receives : List (Option Receive)
  inbox : List (Option Stored)

namespace Service

def new (addr : IpAddr) (rx : Payload) (n q : Nat) : Service where
  addr := addr
  rx := rx
  sockets := .new n
  bound := List.replicate n none
  receives := List.replicate n none
  inbox := List.replicate q none

def bind (u : Service) (owner : CellId) (port : UInt16) : Except Error UInt64 × Service :=
  if port = 0 ∨ (u.bound.any fun slot => slot.any fun b => b.port == port) then
    (.error .bound, u)
  else
    match u.sockets.insert SOCKET owner port with
    | (.error _, sockets) => (.error .full, { u with sockets })
    | (.ok socket, sockets) =>
      let socket := UInt64.ofNat socket.raw
      match vacancy u.bound with
      | none => (.error .full, { u with sockets })
      | some slot =>
        (.ok socket, { u with sockets, bound := u.bound.set slot (some ⟨port, socket⟩) })

end Service

-- == the desk

/-- The service and the buffers registered with it. -/
structure Desk where
  udp : Service
  buffers : BufferRegistry

namespace Desk

def new (addr : IpAddr) (rx : Payload) (n q : Nat) (buffers : BufferRegistry) : Desk where
  udp := .new addr rx n q
  buffers := buffers

/-- Puts a datagram where a receive asked for it. -/
def deliver (d : Desk) (stored : Stored) (payload : Payload) : Except Error Done × Desk :=
  if stored.bytes.length > payload.len then (.error .tooLarge, d)
  else
    match d.buffers.resolveWrite payload.operation with
    | .error e => (.error (.registeredBuffer e), d)
    | .ok _ =>
      (.ok (.received stored.source stored.bytes.length),
        { d with buffers := d.buffers.fill payload.operation stored.bytes })

/-- A datagram from below: the receive it completes, if one waits for it. -/
def receive (d : Desk) (source : IpAddr) (len : Nat) : Option (Nat × Except Error Done) × Desk :=
  if len > d.udp.rx.len ∨ len > MAX_SEGMENT then (none, d)
  else
    match d.buffers.resolveRead { d.udp.rx with offset := 0, len }.operation with
    | .error _ => (none, d)
    | .ok bytes =>
      match Datagram.parse source d.udp.addr bytes with
      | .error _ => (none, d)
      | .ok datagram =>
        match (d.udp.bound.filterMap id).find? fun b => b.port.toNat = datagram.dst.port with
        | none => (none, d)
        | some bound =>
          if datagram.payload.length > MAX_PAYLOAD then (none, d)
          else
            let stored : Stored := ⟨bound.socket, datagram.src, datagram.payload⟩
            match d.udp.receives.findIdx? fun slot =>
              slot.any fun r => r.socket == bound.socket with
            | some index =>
              match d.udp.receives.getD index none with
              | none => (none, d)
              | some r =>
                let d := { d with udp := { d.udp with
                  receives := d.udp.receives.set index none } }
                let (answer, d) := d.deliver stored r.payload
                (some (r.id, answer), d)
            | none =>
              match vacancy d.udp.inbox with
              | none => (none, d)
              | some slot => (none, { d with udp := { d.udp with
                  inbox := d.udp.inbox.set slot (some stored) } })

end Desk

end Udp

end Molt.Net
