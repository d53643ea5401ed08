/-
Which datagrams reach a socket (`Udp::receive`, `Ip::accepts`).

The IP service takes packets for the configured address and, over IPv6, for
the link-local address and for three groups. The UDP service is told where a
packet came from and nothing else, and checks the checksum as if every packet
had gone to the configured address.
-/
import Molt.Udp.Service

namespace Molt.Net.Udp

open Molt.Core Molt.Lib List Udp.Desk Datagram

/-- A packet that `ingestIpv4` or `ingestIpv6` passes on to `deliver` for UDP:
the addresses it travelled between, and its payload. -/
inductive Handed {Λ : Type} (ip : Ip Λ) : IpAddr → IpAddr → Bytes → Prop where
  | v4 (bytes : Bytes) (p : Ipv4.Packet) : Ipv4.Packet.parse bytes = .ok p →
      .v4 p.dst = ip.config.addr → p.protocol = PROTOCOL →
      Handed ip (.v4 p.src) (.v4 p.dst) p.payload
  | v6 (bytes : Bytes) (p : Ipv6.Packet) : Ipv6.Packet.parse bytes = .ok p →
      ip.accepts p.dst → p.nextHeader = PROTOCOL →
      Handed ip (.v6 p.src) (.v6 p.dst) p.payload

/-- The length fits, and the checksum is right or, over IPv4, absent. -/
def Valid (src dst : IpAddr) (bytes : Bytes) : Prop :=
  HEADER ≤ bytes.length ∧ HEADER ≤ be16At bytes 4 ∧ be16At bytes 4 ≤ bytes.length
    ∧ if be16At bytes 6 = 0 then isV6 src = false
      else checksum src dst (bytes.take (be16At bytes 4)) = .ok 0

/-- The packet is in the receive buffer. No frame has room for a longer one. -/
def Desk.Got (d : Desk) (bytes : Bytes) : Prop :=
  ¬ (bytes.length > d.udp.rx.len ∨ bytes.length > MAX_SEGMENT)
    ∧ d.buffers.resolveRead { d.udp.rx with offset := 0, len := bytes.length }.operation
      = .ok bytes

def payloadOf (bytes : Bytes) : Bytes := (bytes.take (be16At bytes 4)).drop HEADER

/-- The datagram completes a receive that waits on the socket, or goes into the inbox. -/
def Desk.Reaches (d : Desk) (src : IpAddr) (bytes : Bytes) (socket : UInt64) : Prop :=
  match d.receive src bytes.length with
  | (some (id, _), _) => ∃ r ∈ entries d.udp.receives, r.id = id ∧ r.socket = socket
  | (none, d') => entries d'.udp.inbox
      = ⟨socket, ⟨src, be16At bytes 0⟩, payloadOf bytes⟩ ::ₘ entries d.udp.inbox

theorem parse_ok_iff {src dst : IpAddr} {bytes : Bytes} {datagram : Datagram} :
    Datagram.parse src dst bytes = .ok datagram ↔ Valid src dst bytes
      ∧ datagram = ⟨⟨src, be16At bytes 0⟩, ⟨dst, be16At bytes 2⟩, payloadOf bytes⟩ := by
  unfold Datagram.parse Valid payloadOf
  dsimp only [bind, Except.bind]
  cases checksum src dst (bytes.take (be16At bytes 4)) <;> grind

section

variable {d : Desk} {src : IpAddr} {bytes : Bytes} {b : Bound} (hgot : d.Got bytes)
  (hbound : ((d.udp.bound.filterMap id).find? fun b => b.port.toNat = be16At bytes 2) = some b)
  (hpayload : (payloadOf bytes).length ≤ MAX_PAYLOAD)
  (hroom : (∃ r ∈ entries d.udp.receives, r.socket = b.socket) ∨ vacancy d.udp.inbox ≠ none)
include hgot hbound hpayload hroom

/-- What the service goes by is whether the datagram is valid to its own address. -/
theorem reaches_iff : d.Reaches src bytes b.socket ↔ Valid src d.udp.addr bytes := by
  unfold Desk.Reaches receive
  rw [if_neg hgot.1, hgot.2]
  dsimp only
  cases hparse : Datagram.parse src d.udp.addr bytes with
  | error e =>
    refine iff_of_false (Multiset.lt_cons_self _ _).ne fun hvalid => ?_
    cases hparse.symm.trans (parse_ok_iff.mpr ⟨hvalid, rfl⟩)
  | ok datagram =>
    obtain ⟨hvalid, rfl⟩ := parse_ok_iff.mp hparse
    refine iff_of_true ?_ hvalid
    dsimp only
    rw [hbound]
    dsimp only
    rw [if_neg (Nat.not_lt.mpr hpayload)]
    cases hfind : d.udp.receives.findIdx? fun slot => slot.any fun r => r.socket == b.socket with
    | some i =>
      obtain ⟨r, hr, hsocket⟩ := found_entry hfind
      dsimp only
      rw [getD_eq_getElem?_getD, hr]
      exact ⟨r, mem_entries.mpr (mem_of_getElem? hr), rfl, eq_of_beq hsocket⟩
    | none =>
      have hnone : ¬ ∃ r ∈ entries d.udp.receives, r.socket = b.socket := by
        rintro ⟨r, hr, heq⟩
        have := findIdx?_eq_none_iff.mp hfind _ (mem_entries.mp hr)
        simp [heq] at this
      obtain ⟨i, hi⟩ := Option.ne_none_iff_exists'.mp (hroom.resolve_left hnone)
      dsimp only
      rw [hi]
      exact entries_put (vacancy_some hi) _

/-- A datagram reaches the socket its port is bound to exactly if it is valid
between where it came from and where it went; that is so exactly if it would be
as valid to the configured address, which is where it went over IPv4, and over
IPv6 need not be. -/
theorem udp_delivers_valid_datagrams {Λ : Type} {ip : Ip Λ} {dst : IpAddr}
    (hand : Handed ip src dst bytes) (haddr : d.udp.addr = ip.config.addr) :
    ((d.Reaches src bytes b.socket ↔ Valid src dst bytes) ↔
        (Valid src dst bytes ↔ Valid src ip.config.addr bytes))
      ∧ ((isV6 dst → dst = ip.config.addr) → (d.Reaches src bytes b.socket ↔ Valid src dst bytes))
      := by
  have hreaches : d.Reaches src bytes b.socket ↔ _ := reaches_iff hgot hbound hpayload hroom
  rw [haddr] at hreaches
  refine ⟨by rw [hreaches]; exact iff_comm, fun hdst => ?_⟩
  have heq : dst = ip.config.addr := by
    cases hand with
    | v4 _ p _ heq => exact heq
    | v6 => exact hdst rfl
  rw [hreaches, heq]

end

def station (n : UInt8) : Ipv6Addr := Vector.replicate 16 n

def host : Ip Unit := .new () ⟨Vector.replicate 6 2, .v6 (station 1), 64, .v6 (station 3)⟩ 1

def packetTo (dst : Ipv6Addr) : Ipv6.Packet := .new (station 2) dst PROTOCOL
  ((Datagram.emit ⟨⟨.v6 (station 2), 5⟩, ⟨.v6 dst, 7⟩, [1]⟩ 9).toOption.getD [])

/-- Port 7 is bound, and the packet has come. -/
def listener (p : Ipv6.Packet) : Desk :=
  let d := Desk.new (.v6 (station 1)) ⟨2 ^ 32, 0, 9⟩ 1 1
    ((BufferRegistry.new 1).register .READ_WRITE 7 p.payload).2
  { d with udp := (d.udp.bind 1 7).2 }

theorem udp_delivers_valid_datagrams_own :
    let p := packetTo (station 1)
    (listener p).Reaches (.v6 p.src) p.payload (2 ^ 32) := by
  intro p
  have hand : Handed host (.v6 p.src) (.v6 p.dst) p.payload :=
    .v6 ((p.emit 49).toOption.getD []) p (by decide +kernel) (by decide +kernel) rfl
  exact ((udp_delivers_valid_datagrams (b := ⟨7, 2 ^ 32⟩) (by unfold Desk.Got; decide +kernel)
    (by decide +kernel) (by decide +kernel) (.inr (by decide +kernel)) hand rfl).2
    fun _ => rfl).mpr (by unfold Valid; decide +kernel)

/-- A datagram to all nodes of the link is accepted, is valid, and is dropped. -/
theorem datagram_to_all_nodes_is_lost :
    let p := packetTo Ipv6Addr.ALL_NODES
    Handed host (.v6 p.src) (.v6 p.dst) p.payload ∧ (listener p).Got p.payload
      ∧ (listener p).udp.bound = [some ⟨7, 2 ^ 32⟩] ∧ Valid (.v6 p.src) (.v6 p.dst) p.payload
      ∧ ((listener p).receive (.v6 p.src) p.payload.length).1 = none
      ∧ ((listener p).receive (.v6 p.src) p.payload.length).2.udp.inbox = [none] :=
  ⟨.v6 (((packetTo Ipv6Addr.ALL_NODES).emit 49).toOption.getD []) _ (by decide +kernel)
      (by decide +kernel) rfl, by unfold Desk.Got; decide +kernel, by decide +kernel,
    by unfold Valid; decide +kernel, by decide +kernel, by decide +kernel⟩

end Molt.Net.Udp
