/-
A capability-addressed IP service over an Ethernet link
(`stack/net/src/service.rs`, with `neighbor.rs`, `op.rs` and `link.rs`).

# The service

`Ip` is an endpoint table, the protocols bound, a neighbour cache, the
receives that wait, the one send that is parked and the one completion that
found no room. A capability is the word a client holds it as.

# The desk

`Desk` is the service with what its calls are handed: the driver of its ring
and the registry of its clients' buffers. `Turn` is one call, by the cell or
by an interrupt, or whatever the owners do to their buffers between two of
them. The link is any device: `transmit` is its answer to a frame.
-/
import Molt.Core.Buffer
import Molt.Core.Driver
import Molt.Lib.Slots
import Molt.Net.Wire

namespace Molt.Net

open Molt.Core Molt.Lib

def MTU : Nat := 1500

def FRAME : Nat := Frame.HEADER + MTU

-- == link

/-- Why a link did not accept a frame. -/
inductive LinkError where
  | busy
  | device
  deriving DecidableEq

/-- A device that carries complete Ethernet frames. -/
structure Link (Λ : Type) where
  transmit : Λ → Bytes → Except LinkError Unit × Λ

-- == neighbours

structure Neighbor where
  address : IpAddr
  hardware : MacAddr
  deriving DecidableEq

/-- Fixed-capacity IP-to-link-address cache. -/
structure Cache where
  entries : List (Option Neighbor)
  deriving DecidableEq

namespace Cache

def new (n : Nat) : Cache := ⟨List.replicate n none⟩

def resolve (c : Cache) (address : IpAddr) : Option MacAddr :=
  ((c.entries.filterMap id).find? fun n => n.address = address).map Neighbor.hardware

/-- Refreshes an entry, or fills an empty slot, or overwrites the first. -/
def learn (c : Cache) (address : IpAddr) (hardware : MacAddr) : Cache :=
  let entry := some ⟨address, hardware⟩
  match c.entries.findIdx? fun n => n.any fun n => n.address = address with
  | some i => ⟨c.entries.set i entry⟩
  | none =>
    match vacancy c.entries with
    | some i => ⟨c.entries.set i entry⟩
    | none => ⟨c.entries.set 0 entry⟩

end Cache

-- == operations

/-- A buffer range as a client names it, the capability a word. -/
structure Payload where
  buffer : UInt64
  offset : Nat
  len : Nat
  deriving DecidableEq

def Payload.operation (p : Payload) : BufferOperation := ⟨⟨p.buffer.toNat⟩, p.offset, p.len⟩

/-- One operation submitted by a transport cell. -/
inductive IpOp where
  | bind (protocol : UInt8)
  | send (endpoint : UInt64) (dest : IpAddr) (payload : Payload)
  | recv (endpoint : UInt64) (payload : Payload)
  | close (endpoint : UInt64)
  deriving DecidableEq

inductive IpDone where
  | bound (endpoint : UInt64)
  | sent (len : Nat)
  | received (source : IpAddr) (len : Nat)
  | closed
  deriving DecidableEq

/-- Why the IP service refused an operation. -/
inductive IpError where
  | wire (e : NetError)
  | capability (e : CapabilityError)
  | buffer (e : BufferError)
  | bound
  | busy
  | full
  | link
  | tooLarge
  | unsupported
  deriving DecidableEq

/-- The rights of `Protocol`. -/
def PROTOCOL : Rights := .READ_WRITE

/-- A receive that waits. -/
structure Receive where
  id : Nat
  endpoint : UInt64
  payload : Payload
  deriving DecidableEq

/-- The send that is parked: on an unknown neighbour, or on a busy link. -/
structure PendingSend where
  submission : Submission IpOp
  waiting : Bool
  deriving DecidableEq

inductive SendState where
  | sent (len : Nat)
  | waiting
  | retry
  deriving DecidableEq

/-- Static addressing for one IP link. -/
structure Config where
  mac : MacAddr
  addr : IpAddr
  bits : Nat
  gateway : IpAddr
  deriving DecidableEq

/-- The address this host answers on before anything configures it. -/
def Config.linkLocal (c : Config) : Ipv6Addr := Ipv6Addr.linkLocal c.mac

-- == the service

/-- The answer an operation is completed with. -/
abbrev IpAnswer := Completion (Except IpError IpDone)

/-- An IP endpoint table and frame path owned by one network cell. -/
structure Ip (Λ : Type) where
  link : Λ
  config : Config
  protocols : CapabilityTable UInt8
  bound : List (Option UInt8)
  neighbors : Cache
  receives : List (Option Receive)
  send : Option PendingSend
  completion : Option IpAnswer

/-- Whether two addresses of one family agree on their first bits. -/
def agree (left right : Bytes) (bits : Nat) : Bool :=
  let whole := bits / 8
  let rest := bits % 8
  if left.take whole ≠ right.take whole then false
  else if rest = 0 then true
  else
    let mask : UInt8 := 0xff <<< UInt8.ofNat (8 - rest)
    byteAt left whole &&& mask == byteAt right whole &&& mask

namespace Ip

variable {Λ : Type}

def new (link : Λ) (config : Config) (n : Nat) : Ip Λ where
  link := link
  config := config
  protocols := .new n
  bound := List.replicate n none
  neighbors := .new n
  receives := List.replicate n none
  send := none
  completion := none

def protocol (ip : Ip Λ) (endpoint : UInt64) : Except CapabilityError UInt8 :=
  ip.protocols.get PROTOCOL ⟨endpoint.toNat⟩

def bind (ip : Ip Λ) (owner : CellId) (protocol : UInt8) : Except IpError UInt64 × Ip Λ :=
  if some protocol ∈ ip.bound then (.error .bound, ip)
  else
    match ip.protocols.insert PROTOCOL owner protocol with
    | (.error _, protocols) => (.error .full, { ip with protocols })
    | (.ok endpoint, protocols) =>
      match vacancy ip.bound with
      | none => (.error .full, { ip with protocols })
      | some slot =>
        (.ok (UInt64.ofNat endpoint.raw),
          { ip with protocols, bound := ip.bound.set slot (some protocol) })

def wait (ip : Ip Λ) (id : Nat) (endpoint : UInt64) (payload : Payload) :
    Except IpError Unit × Ip Λ :=
  match ip.protocol endpoint with
  | .error e => (.error (.capability e), ip)
  | .ok protocol =>
    if ip.receives.any fun slot => slot.any fun w =>
        (ip.protocol w.endpoint).toOption == some protocol
    then (.error .busy, ip)
    else
      match vacancy ip.receives with
      | none => (.error .full, ip)
      | some slot =>
        (.ok (), { ip with receives := ip.receives.set slot (some ⟨id, endpoint, payload⟩) })

def close (ip : Ip Λ) (endpoint : UInt64) : Except IpError Unit × Ip Λ :=
  if ip.receives.any fun slot => slot.any fun w => w.endpoint == endpoint then
    (.error .busy, ip)
  else
    match ip.protocols.revoke PROTOCOL ⟨endpoint.toNat⟩ with
    | (.error e, protocols) => (.error (.capability e), { ip with protocols })
    | (.ok protocol, protocols) =>
      match ip.bound.findIdx? fun slot => slot == some protocol with
      | some i => (.ok (), { ip with protocols, bound := ip.bound.set i none })
      | none => (.ok (), { ip with protocols })

-- -- frames

section Frames

variable (device : Link Λ) (ip : Ip Λ)

def transmit (dst : MacAddr) (etherType : EtherType) (payload : Bytes) :
    Except LinkError Unit × Ip Λ :=
  match (Frame.mk dst ip.config.mac etherType payload).emit FRAME with
  | .error _ => (.error .device, ip)
  | .ok frame =>
    let (answer, link) := device.transmit ip.link frame
    (answer, { ip with link })

def ipv4Addr : Except IpError Ipv4Addr :=
  match ip.config.addr with
  | .v4 addr => .ok addr
  | .v6 _ => .error .unsupported

/-- The address v6 traffic leaves this host under. -/
def ipv6Addr : Ipv6Addr :=
  match ip.config.addr with
  | .v6 addr => addr
  | .v4 _ => ip.config.linkLocal

def arp (dst : MacAddr) (packet : Arp.Packet) : Except LinkError Unit × Ip Λ :=
  match packet.emit Arp.LEN with
  | .error _ => (.error .device, ip)
  | .ok bytes => ip.transmit device dst .arp bytes

def arpRequest (target : Ipv4Addr) : Except LinkError Unit × Ip Λ :=
  match ip.ipv4Addr with
  | .error _ => (.error .device, ip)
  | .ok source =>
    ip.arp device MacAddr.BROADCAST ⟨.request, ip.config.mac, source, Vector.replicate 6 0, target⟩

def arpReply (hardware : MacAddr) (target : Ipv4Addr) : Except LinkError Unit × Ip Λ :=
  match ip.ipv4Addr with
  | .error _ => (.error .device, ip)
  | .ok source => ip.arp device hardware ⟨.reply, ip.config.mac, source, hardware, target⟩

/-- Discovery goes out at the hop limit it is only trusted at. -/
def hopsOf (packet : Ipv6.Packet) : Icmpv6.Message → Ipv6.Packet
  | .solicitation .. => packet.hops Icmpv6.HOPS
  | .advertisement .. => packet.hops Icmpv6.HOPS
  | _ => packet

def icmpv6 (dst : MacAddr) (src dest : Ipv6Addr) (message : Icmpv6.Message) :
    Except LinkError Unit × Ip Λ :=
  match message.emit src dest (MTU - Ipv6.HEADER) with
  | .error _ => (.error .device, ip)
  | .ok payload =>
    match (hopsOf (.new src dest Icmpv6.PROTOCOL payload) message).emit MTU with
    | .error _ => (.error .device, ip)
    | .ok bytes => ip.transmit device dst .ipv6 bytes

/-- Asks the link which station answers for `target`. -/
def solicit (target : Ipv6Addr) : Except LinkError Unit × Ip Λ :=
  let group := Ipv6Addr.solicitedNode target
  ip.icmpv6 device (MacAddr.multicast group) ip.ipv6Addr group
    (.solicitation target (some ip.config.mac))

/-- Answers that this host owns `target`. -/
def advertise (dst : MacAddr) (target dest : Ipv6Addr) : Except LinkError Unit × Ip Λ :=
  ip.icmpv6 device dst target dest
    (.advertisement target (some ip.config.mac) (dest != Ipv6Addr.ALL_NODES))

/-- Sends whatever discovery the next hop's family calls for. -/
def discover : IpAddr → Except LinkError Unit × Ip Λ
  | .v4 next => ip.arpRequest device next
  | .v6 next => ip.solicit device next

/-- The link address of a next hop, which a group already answers for. -/
def resolve : IpAddr → Option MacAddr
  | .v6 group =>
    if group.isMulticast then some (MacAddr.multicast group)
    else ip.neighbors.resolve (.v6 group)
  | .v4 next => ip.neighbors.resolve (.v4 next)

/-- Whether this host answers discovery for `addr` as one of its own. -/
def owns (addr : Ipv6Addr) : Bool := ip.config.addr == .v6 addr || ip.config.linkLocal == addr

/-- Whether a packet addressed to `dst` is this host's to receive. -/
def accepts (dst : Ipv6Addr) : Bool :=
  ip.owns dst || dst == Ipv6Addr.ALL_NODES
    || dst == Ipv6Addr.solicitedNode ip.config.linkLocal
    || match ip.config.addr with
      | .v6 addr => dst == Ipv6Addr.solicitedNode addr
      | .v4 _ => false

def onLink (dst : IpAddr) : Except IpError Bool :=
  match ip.config.addr, dst with
  | .v4 src, .v4 dst => .ok (agree src.toList dst.toList (min ip.config.bits 32))
  | .v6 src, .v6 dst => .ok (dst.isMulticast || linkScoped dst
      || agree src.toList dst.toList (min ip.config.bits 128))
  | _, _ => .error .unsupported

def nextHop (dst : IpAddr) : Except IpError IpAddr := do
  if ← ip.onLink dst then .ok dst
  else
    match ip.config.addr, ip.config.gateway with
    | .v4 _, .v4 gateway => .ok (.v4 gateway)
    | .v6 _, .v6 gateway => .ok (.v6 gateway)
    | _, _ => .error .unsupported

def packetTo (dest : IpAddr) (protocol : UInt8) (payload : Bytes) :
    Except IpError (EtherType × Bytes) :=
  match ip.config.addr, dest with
  | .v4 src, .v4 dst =>
    if payload.length > MTU - Ipv4.HEADER then .error .tooLarge
    else
      match (Ipv4.Packet.mk src dst protocol payload).emit MTU with
      | .error e => .error (.wire e)
      | .ok packet => .ok (.ipv4, packet)
  | .v6 src, .v6 dst =>
    if payload.length > MTU - Ipv6.HEADER then .error .tooLarge
    else
      match (Ipv6.Packet.new src dst protocol payload).emit MTU with
      | .error e => .error (.wire e)
      | .ok packet => .ok (.ipv6, packet)
  | _, _ => .error .unsupported

/-- What a send is told once the link has answered. -/
def stateOf (sent : SendState) : Except LinkError Unit → Except IpError SendState
  | .ok () => .ok sent
  | .error .busy => .ok .retry
  | .error .device => .error .link

/-- What an operation asks to have sent: the payload, from whom and to which
next hop. -/
def sendOf (buffers : BufferRegistry) : IpOp → Except IpError (UInt8 × Bytes × IpAddr × IpAddr)
  | .send endpoint dest payload =>
    match ip.protocol endpoint with
    | .error e => .error (.capability e)
    | .ok protocol =>
      match buffers.resolveRead payload.operation with
      | .error e => .error (.buffer e)
      | .ok payload => do
          let next ← ip.nextHop dest
          .ok (protocol, payload, dest, next)
  | _ => .error .busy

def trySend (buffers : BufferRegistry) (op : IpOp) : Except IpError SendState × Ip Λ :=
  match ip.sendOf buffers op with
  | .error e => (.error e, ip)
  | .ok (protocol, payload, dest, next) =>
    match ip.resolve next with
    | none =>
      let (answer, ip) := ip.discover device next
      (stateOf .waiting answer, ip)
    | some hardware =>
      match ip.packetTo dest protocol payload with
      | .error e => (.error e, ip)
      | .ok (etherType, packet) =>
        let (answer, ip) := ip.transmit device hardware etherType packet
        (stateOf (.sent payload.length) answer, ip)

end Frames

end Ip

-- == the desk

/-- The service, the driver of its ring and its clients' buffers. -/
structure Desk (Λ : Type) where
  ip : Ip Λ
  driver : Driver IpOp (Except IpError IpDone)
  buffers : BufferRegistry

namespace Desk

variable {Λ : Type}

def new (link : Λ) (config : Config) (n : Nat) (buffers : BufferRegistry) : Desk Λ :=
  ⟨.new link config n, .new, buffers⟩

/-- Completes an operation, or keeps its completion until there is room. -/
def publish (d : Desk Λ) (c : IpAnswer) : Desk Λ :=
  let (refused, driver) := d.driver.tryComplete c
  { d with ip := { d.ip with completion := refused.orElse fun _ => d.ip.completion }, driver }

def flush (d : Desk Λ) : Desk Λ :=
  match d.ip.completion with
  | none => d
  | some c => { d with ip := { d.ip with completion := none } }.publish c

section Turns

variable (device : Link Λ)

def retry (d : Desk Λ) : Desk Λ :=
  match d.ip.send with
  | none => d
  | some pending =>
    if pending.waiting then d
    else
      let (answer, ip) := d.ip.trySend device d.buffers pending.submission.op
      match answer with
      | .ok (.sent len) =>
        { d with ip := { ip with send := none } }.publish ⟨pending.submission.id, .ok (.sent len)⟩
      | .ok .waiting => { d with ip := { ip with send := some { pending with waiting := true } } }
      | .ok .retry => { d with ip }
      | .error e =>
        { d with ip := { ip with send := none } }.publish ⟨pending.submission.id, .error e⟩

/-- Restarts a send that was parked on a neighbour now in the cache. -/
def resume (d : Desk Λ) : Desk Λ :=
  match d.ip.send with
  | none => d
  | some pending =>
    match pending.submission.op with
    | .send _ dest _ =>
      if ((d.ip.nextHop dest).toOption.bind d.ip.resolve).isSome then
        { d with ip := { d.ip with send := some { pending with waiting := false } } }.retry device
      else d
    | _ => d

def handle (d : Desk Λ) (owner : CellId) (s : Submission IpOp) : Desk Λ :=
  match s.op with
  | .bind protocol =>
    let (answer, ip) := d.ip.bind owner protocol
    { d with ip }.publish ⟨s.id, answer.map .bound⟩
  | .send .. =>
    let (answer, ip) := d.ip.trySend device d.buffers s.op
    match answer with
    | .ok (.sent len) => { d with ip }.publish ⟨s.id, .ok (.sent len)⟩
    | .ok .waiting => { d with ip := { ip with send := some ⟨s, true⟩ } }
    | .ok .retry => { d with ip := { ip with send := some ⟨s, false⟩ } }
    | .error e => { d with ip }.publish ⟨s.id, .error e⟩
  | .recv endpoint payload =>
    let (answer, ip) := d.ip.wait s.id endpoint payload
    match answer with
    | .ok () => { d with ip }
    | .error e => { d with ip }.publish ⟨s.id, .error e⟩
  | .close endpoint =>
    let (answer, ip) := d.ip.close endpoint
    { d with ip }.publish ⟨s.id, answer.map fun () => .closed⟩

/-- Whether a turn has to stop: hardware or completion backpressure. -/
def stalled (d : Desk Λ) : Bool := d.ip.send.isSome || d.ip.completion.isSome

/-- `while let Some(submission) = driver.try_next()`. -/
def drain (owner : CellId) : List (Submission IpOp) → Desk Λ → Desk Λ
  | [], d => d
  | s :: next, d =>
    let d := { d with driver := d.driver.take s }.handle device owner s
    if d.stalled then d else drain owner next d

/-- Drains transport-cell requests until backpressure stops it; `next` is
what the ring holds. -/
def serve (d : Desk Λ) (owner : CellId) (next : List (Submission IpOp)) : Desk Λ :=
  let d := d.flush
  if d.ip.completion.isSome then d
  else
    let d := d.retry device
    if d.stalled then d else drain device owner next d

-- -- ingest

def waiter (d : Desk Λ) (protocol : UInt8) : Option Nat :=
  d.ip.receives.findIdx? fun slot =>
    slot.any fun w => (d.ip.protocol w.endpoint).toOption == some protocol

/-- Hands a protocol payload to whichever receive is waiting for it. -/
def deliver (d : Desk Λ) (source : IpAddr) (protocol : UInt8) (payload : Bytes) :
    Except IpError Bool × Desk Λ :=
  match d.waiter protocol with
  | none => (.ok false, d)
  | some index =>
    match d.ip.receives.getD index none with
    | none => (.ok false, d)
    | some wait =>
      let d := { d with ip := { d.ip with receives := d.ip.receives.set index none } }
      if payload.length > wait.payload.len then
        (.ok true, d.publish ⟨wait.id, .error .tooLarge⟩)
      else
        match d.buffers.resolveWrite wait.payload.operation with
        -- the `?` of the source: the receive is out of its slot already
        | .error e => (.error (.buffer e), d)
        | .ok _ =>
          (.ok true, { d with buffers := d.buffers.fill wait.payload.operation payload }.publish
              ⟨wait.id, .ok (.received source payload.length)⟩)

def learn (d : Desk Λ) (address : IpAddr) (hardware : MacAddr) : Desk Λ :=
  { d with ip := { d.ip with neighbors := d.ip.neighbors.learn address hardware } }

/-- Goes on to the parked send if the reply left this host. -/
def afterReply (d : Desk Λ) (answer : Except LinkError Unit × Ip Λ) :
    Except IpError Bool × Desk Λ :=
  match answer with
  | (.error _, ip) => (.error .link, { d with ip })
  | (.ok (), ip) => (.ok true, { d with ip }.resume device)

def ingestArp (d : Desk Λ) (bytes : Bytes) : Except IpError Bool × Desk Λ :=
  match Arp.Packet.parse bytes with
  | .error e => (.error (.wire e), d)
  | .ok packet =>
    let d := d.learn (.v4 packet.txProtocol) packet.txHardware
    if packet.operation = .request ∧ IpAddr.v4 packet.rxProtocol = d.ip.config.addr then
      d.afterReply device (d.ip.arpReply device packet.txHardware packet.txProtocol)
    else (.ok true, d.resume device)

def ingestIpv4 (d : Desk Λ) (bytes : Bytes) : Except IpError Bool × Desk Λ :=
  match Ipv4.Packet.parse bytes with
  | .error e => (.error (.wire e), d)
  | .ok packet =>
    if IpAddr.v4 packet.dst ≠ d.ip.config.addr then (.ok false, d)
    else d.deliver (.v4 packet.src) packet.protocol packet.payload

/-- Discovery is only believed at full hop limit. -/
def ingestMessage (d : Desk Λ) (hardware : MacAddr) (packet : Ipv6.Packet) :
    Icmpv6.Message → Except IpError Bool × Desk Λ
  | .solicitation target source =>
    if packet.hopLimit ≠ Icmpv6.HOPS then (.ok false, d)
    else if !d.ip.owns target then (.ok false, d)
    else if packet.src.isUnspecified then
      d.afterReply device (d.ip.advertise device (MacAddr.multicast Ipv6Addr.ALL_NODES) target
        Ipv6Addr.ALL_NODES)
    else
      let link := source.getD hardware
      let d := d.learn (.v6 packet.src) link
      d.afterReply device (d.ip.advertise device link target packet.src)
  | .advertisement target link _ =>
    if packet.hopLimit ≠ Icmpv6.HOPS then (.ok false, d)
    else (.ok true, (d.learn (.v6 target) (link.getD hardware)).resume device)
  | .echoRequest id seq data =>
    if d.ip.accepts packet.dst then
      match d.ip.icmpv6 device hardware d.ip.ipv6Addr packet.src (.echoReply id seq data) with
      | (.error _, ip) => (.error .link, { d with ip })
      | (.ok (), ip) => (.ok true, { d with ip })
    else (.ok false, d)
  | .echoReply .. => (.ok false, d)

def ingestIcmpv6 (d : Desk Λ) (hardware : MacAddr) (packet : Ipv6.Packet) :
    Except IpError Bool × Desk Λ :=
  match Icmpv6.Message.parse packet.src packet.dst packet.payload with
  | .error e => (.error (.wire e), d)
  | .ok message => d.ingestMessage device hardware packet message

def ingestIpv6 (d : Desk Λ) (hardware : MacAddr) (bytes : Bytes) : Except IpError Bool × Desk Λ :=
  match Ipv6.Packet.parse bytes with
  | .error e => (.error (.wire e), d)
  | .ok packet =>
    if packet.nextHeader = Icmpv6.PROTOCOL then d.ingestIcmpv6 device hardware packet
    else if !d.ip.accepts packet.dst then (.ok false, d)
    else d.deliver (.v6 packet.src) packet.nextHeader packet.payload

/-- Routes one interrupt-delivered Ethernet frame. -/
def ingest (d : Desk Λ) (bytes : Bytes) : Except IpError Bool × Desk Λ :=
  if d.ip.completion.isSome then (.error .busy, d)
  else
    match Frame.parse bytes with
    | .error e => (.error (.wire e), d)
    | .ok frame =>
      if frame.dst ≠ d.ip.config.mac ∧ !frame.dst.isMulticast then (.ok false, d)
      else
        match frame.etherType with
        | .arp => d.ingestArp device frame.payload
        | .ipv4 => d.ingestIpv4 frame.payload
        | .ipv6 => d.ingestIpv6 device frame.src frame.payload

end Turns

end Desk

/-- One call of the service with the answers its ring will give, or a change
the owners make to their buffers. -/
inductive Turn where
  | serve (owner : CellId) (next : List (Submission IpOp)) (room : List Bool)
  | ingest (bytes : Bytes) (room : List Bool)
  | buffers (registry : BufferRegistry)

namespace Desk

variable {Λ : Type} (device : Link Λ)

/-- The answers the completion queue gives in the coming call. -/
def facing (d : Desk Λ) (room : List Bool) : Desk Λ := { d with driver := { d.driver with room } }

def turn (d : Desk Λ) : Turn → Desk Λ
  | .serve owner next room => (d.facing room).serve device owner next
  | .ingest bytes room => ((d.facing room).ingest device bytes).2
  | .buffers registry => { d with buffers := registry }

def run (d : Desk Λ) (turns : List Turn) : Desk Λ := turns.foldl (turn device) d

end Desk

end Molt.Net
