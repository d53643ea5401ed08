/-
Ethernet and IP wire primitives (`stack/net/src/`: `addr`, `checksum`, `eth`,
`arp`, `ipv4`, `ipv6`, `icmpv6`).

A parser takes the bytes of a slice and answers what they say or why not; it
indexes only what it has checked to be there, so a byte is read with a
default that is never seen. An emitter is given the length of the slice it
may write and answers the bytes it writes from the slice's start.
-/
import Mathlib

namespace Molt.Net

abbrev Bytes := List UInt8

/-- Why a network frame could not be read or written. -/
inductive NetError where
  | buffer
  | malformed
  | checksum
  | fragmented
  | unsupported
  deriving DecidableEq

-- == bytes

def byteAt (bytes : Bytes) (i : Nat) : UInt8 := bytes.getD i 0

/-- `bytes[start..start + n]` as an array. -/
def octetsAt (bytes : Bytes) (start n : Nat) : Vector UInt8 n :=
  Vector.ofFn fun i => byteAt bytes (start + i)

/-- `u16::from_be_bytes`. -/
def be16At (bytes : Bytes) (i : Nat) : Nat :=
  (byteAt bytes i).toNat * 256 + (byteAt bytes (i + 1)).toNat

/-- `u16::to_be_bytes`. -/
def be16 (v : Nat) : Bytes := [UInt8.ofNat (v / 256), UInt8.ofNat v]

/-- `u32::to_be_bytes`. -/
def be32 (v : Nat) : Bytes := be16 (v / 2 ^ 16) ++ be16 v

-- == addresses

abbrev MacAddr := Vector UInt8 6

abbrev Ipv4Addr := Vector UInt8 4

abbrev Ipv6Addr := Vector UInt8 16

inductive IpAddr where
  | v4 (addr : Ipv4Addr)
  | v6 (addr : Ipv6Addr)
  deriving DecidableEq

structure Endpoint where
  addr : IpAddr
  port : Nat
  deriving DecidableEq

namespace MacAddr

def BROADCAST : MacAddr := Vector.replicate 6 255

def multicast (group : Ipv6Addr) : MacAddr :=
  (#v[0x33, 0x33, group[12], group[13], group[14], group[15]])

/-- Whether the address is a group rather than one station. -/
def isMulticast (mac : MacAddr) : Bool := mac[0] &&& 1 != 0

end MacAddr

namespace Ipv6Addr

/-- `Ipv6Addr::is_multicast`. -/
def isMulticast (addr : Ipv6Addr) : Bool := addr[0] == 0xff

/-- `Ipv6Addr::is_unspecified`. -/
def isUnspecified (addr : Ipv6Addr) : Bool := addr == Vector.replicate 16 0

/-- The address a host answers discovery for `addr` on. -/
def solicitedNode (addr : Ipv6Addr) : Ipv6Addr :=
  (#v[0xff, 0x02, 0, 0, 0, 0, 0, 0, 0, 0, 0, 1, 0xff, addr[13], addr[14], addr[15]])

def linkLocal (mac : MacAddr) : Ipv6Addr :=
  (#v[0xfe, 0x80, 0, 0, 0, 0, 0, 0, mac[0] ^^^ 0x02, mac[1], mac[2], 0xff, 0xfe, mac[3],
    mac[4], mac[5]])

/-- Every host on the link. -/
def ALL_NODES : Ipv6Addr := #v[0xff, 0x02, 0, 0, 0, 0, 0, 0, 0, 0, 0, 0, 0, 0, 0, 1]

end Ipv6Addr

/-- Whether an address never leaves the link it was formed on. -/
def linkScoped (addr : Ipv6Addr) : Bool := addr[0] == 0xfe && addr[1] &&& 0xc0 == 0x80

-- == checksum

namespace Checksum

def words : Bytes → Nat
  | [] => 0
  | [byte] => byte.toNat * 256
  | first :: byte :: rest => first.toNat * 256 + byte.toNat + words rest

/-- `while sum > u16::MAX`; each round makes the sum smaller. -/
def fold : Nat → Nat → Nat
  | 0, sum => sum
  | fuel + 1, sum => if sum > 0xffff then fold fuel (sum % 2 ^ 16 + sum / 2 ^ 16) else sum

/-- An Internet checksum without joining adjacent headers: a word may reach
from one part into the next. -/
def computeParts (parts : List Bytes) : Nat :=
  let sum := words parts.flatten
  0xffff - fold sum sum

def compute (bytes : Bytes) : Nat := computeParts [bytes]

def overIpv4 (src dst : Ipv4Addr) (protocol : UInt8) (bytes : Bytes) : Nat :=
  computeParts [src.toList ++ dst.toList ++ [0, protocol] ++ be16 bytes.length, bytes]

/-- A transport checksum over the IPv6 pseudo-header. -/
def overIpv6 (src dst : Ipv6Addr) (nextHeader : UInt8) (bytes : Bytes) : Nat :=
  computeParts [src.toList ++ dst.toList ++ be32 bytes.length ++ [0, 0, 0, nextHeader], bytes]

/-- Checks a packet that includes its transmitted checksum. -/
def valid (bytes : Bytes) : Bool := compute bytes == 0

end Checksum

-- == Ethernet

inductive EtherType where
  | ipv4
  | ipv6
  | arp
  deriving DecidableEq

namespace EtherType

def value : EtherType → Nat
  | ipv4 => 0x0800
  | ipv6 => 0x86dd
  | arp => 0x0806

def parse (value : Nat) : Except NetError EtherType :=
  if value = 0x0800 then .ok .ipv4
  else if value = 0x86dd then .ok .ipv6
  else if value = 0x0806 then .ok .arp
  else .error .unsupported

end EtherType

structure Frame where
  dst : MacAddr
  src : MacAddr
  etherType : EtherType
  payload : Bytes
  deriving DecidableEq

namespace Frame

def HEADER : Nat := 14

def parse (bytes : Bytes) : Except NetError Frame :=
  if bytes.length < HEADER then .error .malformed
  else do
    let etherType ← EtherType.parse (be16At bytes 12)
    .ok ⟨octetsAt bytes 0 6, octetsAt bytes 6 6, etherType, bytes.drop HEADER⟩

def emit (frame : Frame) (room : Nat) : Except NetError Bytes :=
  if room < HEADER + frame.payload.length then .error .buffer
  else .ok (frame.dst.toList ++ frame.src.toList ++ be16 frame.etherType.value ++ frame.payload)

end Frame

-- == ARP

namespace Arp

inductive Operation where
  | request
  | reply
  deriving DecidableEq

def Operation.value : Operation → Nat
  | request => 1
  | reply => 2

def Operation.parse (value : Nat) : Except NetError Operation :=
  if value = 1 then .ok .request
  else if value = 2 then .ok .reply
  else .error .unsupported

structure Packet where
  operation : Operation
  txHardware : MacAddr
  txProtocol : Ipv4Addr
  rxHardware : MacAddr
  rxProtocol : Ipv4Addr
  deriving DecidableEq

def LEN : Nat := 28

def Packet.parse (bytes : Bytes) : Except NetError Packet :=
  if bytes.length < LEN then .error .malformed
  else if be16At bytes 0 ≠ 1 ∨ be16At bytes 2 ≠ 0x0800 ∨ byteAt bytes 4 ≠ 6
      ∨ byteAt bytes 5 ≠ 4 then .error .unsupported
  else do
    let operation ← Operation.parse (be16At bytes 6)
    .ok ⟨operation, octetsAt bytes 8 6, octetsAt bytes 14 4, octetsAt bytes 18 6,
      octetsAt bytes 24 4⟩

def Packet.emit (p : Packet) (room : Nat) : Except NetError Bytes :=
  if room < LEN then .error .buffer
  else .ok (be16 1 ++ be16 0x0800 ++ [6, 4] ++ be16 p.operation.value ++ p.txHardware.toList
    ++ p.txProtocol.toList ++ p.rxHardware.toList ++ p.rxProtocol.toList)

end Arp

-- == IPv4

namespace Ipv4

structure Packet where
  src : Ipv4Addr
  dst : Ipv4Addr
  protocol : UInt8
  payload : Bytes
  deriving DecidableEq

def HEADER : Nat := 20

def Packet.parse (bytes : Bytes) : Except NetError Packet :=
  if bytes.length < HEADER ∨ byteAt bytes 0 >>> 4 ≠ 4 then .error .malformed
  else
    let header := (byteAt bytes 0 &&& 0x0f).toNat * 4
    let total := be16At bytes 2
    if header < HEADER ∨ bytes.length < header then .error .malformed
    else if total < header ∨ bytes.length < total then .error .malformed
    else if !Checksum.valid (bytes.take header) then .error .checksum
    else if be16At bytes 6 % 0x4000 ≠ 0 then .error .fragmented
    else .ok ⟨octetsAt bytes 12 4, octetsAt bytes 16 4, byteAt bytes 9,
      (bytes.take total).drop header⟩

def Packet.emit (p : Packet) (room : Nat) : Except NetError Bytes :=
  let total := HEADER + p.payload.length
  if total ≥ 2 ^ 16 then .error .buffer
  else if room < total then .error .buffer
  else
    let front : Bytes := [0x45, 0] ++ be16 total ++ [0, 0] ++ be16 0x4000 ++ [64, p.protocol]
    let back : Bytes := p.src.toList ++ p.dst.toList
    -- `checksum::set` over the header with the field zeroed
    .ok (front ++ be16 (Checksum.compute (front ++ [0, 0] ++ back)) ++ back ++ p.payload)

end Ipv4

-- == IPv6

namespace Ipv6

structure Packet where
  src : Ipv6Addr
  dst : Ipv6Addr
  nextHeader : UInt8
  hopLimit : UInt8
  payload : Bytes
  deriving DecidableEq

def HEADER : Nat := 40

def Packet.new (src dst : Ipv6Addr) (nextHeader : UInt8) (payload : Bytes) : Packet :=
  ⟨src, dst, nextHeader, 64, payload⟩

def Packet.hops (p : Packet) (hopLimit : UInt8) : Packet := { p with hopLimit }

def Packet.parse (bytes : Bytes) : Except NetError Packet :=
  if bytes.length < HEADER ∨ byteAt bytes 0 >>> 4 ≠ 6 then .error .malformed
  else
    let total := HEADER + be16At bytes 4
    let nextHeader := byteAt bytes 6
    if bytes.length < total then .error .malformed
    else if nextHeader = 44 then .error .fragmented
    else if nextHeader = 0 ∨ nextHeader = 43 ∨ nextHeader = 51 ∨ nextHeader = 60 then
      .error .unsupported
    else .ok ⟨octetsAt bytes 8 16, octetsAt bytes 24 16, nextHeader, byteAt bytes 7,
      (bytes.take total).drop HEADER⟩

def Packet.emit (p : Packet) (room : Nat) : Except NetError Bytes :=
  if p.payload.length ≥ 2 ^ 16 then .error .buffer
  else if room < HEADER + p.payload.length then .error .buffer
  else .ok ([0x60, 0, 0, 0] ++ be16 p.payload.length ++ [p.nextHeader, p.hopLimit]
    ++ p.src.toList ++ p.dst.toList ++ p.payload)

end Ipv6

-- == ICMPv6

namespace Icmpv6

/-- The next-header value carrying these messages. -/
def PROTOCOL : UInt8 := 58

/-- The hop limit discovery is sent with and accepted at. -/
def HOPS : UInt8 := 255

def ECHO_REQUEST : UInt8 := 128
def ECHO_REPLY : UInt8 := 129
def SOLICITATION : UInt8 := 135
def ADVERTISEMENT : UInt8 := 136

def SOURCE_LINK : UInt8 := 1
def TARGET_LINK : UInt8 := 2

def SOLICITED : UInt8 := 0x40
def OVERRIDE : UInt8 := 0x20

/-- One ICMPv6 message this stack speaks. -/
inductive Message where
  | echoRequest (id seq : Nat) (data : Bytes)
  | echoReply (id seq : Nat) (data : Bytes)
  | solicitation (target : Ipv6Addr) (source : Option MacAddr)
  | advertisement (target : Ipv6Addr) (hardware : Option MacAddr) (solicited : Bool)
  deriving DecidableEq

/-- Finds one link-layer address option, refusing a truncated chain. Each
round drops at least eight bytes, so the length bounds the rounds. -/
def optionFrom (want : UInt8) : Nat → Bytes → Option MacAddr → Except NetError (Option MacAddr)
  | 0, _, found => .ok found
  | fuel + 1, bytes, found =>
    if bytes.isEmpty then .ok found
    else if bytes.length < 2 ∨ byteAt bytes 1 = 0 then .error .malformed
    else
      let len := (byteAt bytes 1).toNat * 8
      if bytes.length < len then .error .malformed
      else optionFrom want fuel (bytes.drop len)
        (if byteAt bytes 0 = want ∧ len = 8 ∧ found.isNone then some (octetsAt bytes 2 6)
          else found)

def option (bytes : Bytes) (want : UInt8) : Except NetError (Option MacAddr) :=
  optionFrom want (bytes.length + 1) bytes none

/-- Reads a message whose checksum covers the addresses it arrived between. -/
def Message.parse (src dst : Ipv6Addr) (bytes : Bytes) : Except NetError Message :=
  if bytes.length < 8 then .error .malformed
  else if Checksum.overIpv6 src dst PROTOCOL bytes ≠ 0 then .error .checksum
  else if byteAt bytes 1 ≠ 0 then .error .unsupported
  else if byteAt bytes 0 = ECHO_REQUEST then
    .ok (.echoRequest (be16At bytes 4) (be16At bytes 6) (bytes.drop 8))
  else if byteAt bytes 0 = ECHO_REPLY then
    .ok (.echoReply (be16At bytes 4) (be16At bytes 6) (bytes.drop 8))
  else if byteAt bytes 0 = SOLICITATION then
    if bytes.length < 24 then .error .malformed
    else do
      let source ← option (bytes.drop 24) SOURCE_LINK
      .ok (.solicitation (octetsAt bytes 8 16) source)
  else if byteAt bytes 0 = ADVERTISEMENT then
    if bytes.length < 24 then .error .malformed
    else do
      let hardware ← option (bytes.drop 24) TARGET_LINK
      .ok (.advertisement (octetsAt bytes 8 16) hardware (byteAt bytes 4 &&& SOLICITED != 0))
  else .error .unsupported

def emitOption (kind : UInt8) : Option MacAddr → Bytes
  | none => []
  | some link => [kind, 1] ++ link.toList

/-- The message's type, and what follows its checksum. -/
def Message.body : Message → UInt8 × Bytes
  | .echoRequest id seq data => (ECHO_REQUEST, be16 id ++ be16 seq ++ data)
  | .echoReply id seq data => (ECHO_REPLY, be16 id ++ be16 seq ++ data)
  | .solicitation target source =>
    (SOLICITATION, [0, 0, 0, 0] ++ target.toList ++ emitOption SOURCE_LINK source)
  | .advertisement target hardware solicited =>
    (ADVERTISEMENT, [OVERRIDE ||| if solicited then SOLICITED else 0, 0, 0, 0]
      ++ target.toList ++ emitOption TARGET_LINK hardware)

/-- Writes the message and the checksum binding it to `src` and `dst`. -/
def Message.emit (m : Message) (src dst : Ipv6Addr) (room : Nat) : Except NetError Bytes :=
  let (kind, rest) := m.body
  let sum := Checksum.overIpv6 src dst PROTOCOL ([kind, 0, 0, 0] ++ rest)
  if room < 4 + rest.length then .error .buffer
  else .ok ([kind, 0] ++ be16 sum ++ rest)

end Icmpv6

end Molt.Net
