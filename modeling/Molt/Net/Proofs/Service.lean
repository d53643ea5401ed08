/-
Where an operation of the IP service is.

`Settled` is an account of the ring: every operation taken is completed, in
the pending completion, parked as a send, waiting in a receive slot, or in
the hand of the call under way. A call takes what it handles out of one
place and puts it into another, so each function of the service is one
entry in the account: it leaves the hand empty.

The account does not balance where `deliver` gives up on a buffer that is no
longer registered: it has emptied the receive's slot and completes nothing.
`Backed` says that no waiting receive has lost its buffer.
-/
import Molt.Core.Proofs.Live
import Molt.Net.Service

namespace Molt.Net

open Molt.Core Molt.Lib List Multiset

variable {Λ : Type} {n : Nat}

-- == endpoints

/-- The endpoint table, the protocols bound and the receives agree. -/
structure Kept (n : Nat) (ip : Ip Λ) : Prop where
  sound : ip.protocols.Sound PROTOCOL
  slots : ip.protocols.slots.length = n
  places : ip.bound.length = n
  bound : entries ip.bound = ip.protocols.live
  once : ip.protocols.live.Nodup
  waits : ∀ r ∈ entries ip.receives, (ip.protocols.held r.endpoint).isSome
  apart : ((entries ip.receives).map fun r => ip.protocols.held r.endpoint).Nodup

theorem Kept.new (link : Λ) (config : Config) (n : Nat) : Kept n (Ip.new link config n) where
  sound := .new n PROTOCOL
  slots := CapabilityTable.length_new n
  places := length_replicate
  bound := by simp [Ip.new]
  once := by simp [Ip.new]
  waits := by simp [Ip.new]
  apart := by simp [Ip.new]

section Kept

variable {ip : Ip Λ}

theorem Kept.protocol (h : Kept n ip) (endpoint : UInt64) :
    (ip.protocol endpoint).toOption = ip.protocols.held endpoint := h.sound.get endpoint

theorem Kept.table (h : Kept n ip) {protocols : CapabilityTable UInt8}
    {bound : List (Option UInt8)} (hsound : protocols.Sound PROTOCOL)
    (hslots : protocols.slots.length = n) (hplaces : bound.length = n)
    (hbound : entries bound = protocols.live) (honce : protocols.live.Nodup)
    (hheld : ∀ r ∈ entries ip.receives, protocols.held r.endpoint = ip.protocols.held r.endpoint) :
    Kept n { ip with protocols, bound } where
  sound := hsound
  slots := hslots
  places := hplaces
  bound := hbound
  once := honce
  waits := by
    intro r hr
    rw [hheld r hr]
    exact h.waits r hr
  apart := by
    rw [map_congr rfl hheld]
    exact h.apart

theorem Kept.bind (h : Kept n ip) (owner : CellId) (protocol : UInt8) :
    Kept n (ip.bind owner protocol).2 := by
  unfold Ip.bind
  split
  · exact h
  rename_i hfresh
  cases hins : ip.protocols.insert PROTOCOL owner protocol with
  | mk answer protocols =>
    cases answer with
    | error x =>
      obtain ⟨rfl, -⟩ := CapabilityTable.insert_error hins
      exact { h with }
    | ok endpoint =>
      obtain ⟨hsound, hlen, hlive, hmono, -⟩ := CapabilityTable.insert_ok hins h.sound
      have hnew : protocol ∉ ip.protocols.live := by
        rw [← h.bound, mem_entries]
        exact hfresh
      -- one more endpoint is live now, so one fewer was before
      have hroom : (entries ip.bound).card < ip.bound.length := by
        have hcard := card_entries_le (protocols.slots.map Slot.resource)
        rw [length_map, hlen, h.slots] at hcard
        have : protocols.live.card = ip.protocols.live.card + 1 := by
          rw [hlive, card_cons]
        rw [h.bound, h.places]
        unfold CapabilityTable.live at this ⊢
        omega
      obtain ⟨slot, hslot⟩ := exists_vacancy hroom
      rw [hslot]
      refine h.table hsound (hlen.trans h.slots) (length_set.trans h.places) ?_ ?_ ?_
      · rw [entries_put (vacancy_some hslot), h.bound, hlive]
      · rw [hlive]
        exact Multiset.nodup_cons.mpr ⟨hnew, h.once⟩
      · intro r hr
        obtain ⟨p, hp⟩ := Option.isSome_iff_exists.mp (h.waits r hr)
        rw [hp, hmono _ _ hp]

theorem Kept.wait (h : Kept n ip) (id : Nat) (endpoint : UInt64) (payload : Payload) :
    ∃ receives, (ip.wait id endpoint payload).2 = { ip with receives }
      ∧ Kept n (ip.wait id endpoint payload).2
      ∧ entries receives = match (ip.wait id endpoint payload).1 with
        | .ok () => ⟨id, endpoint, payload⟩ ::ₘ entries ip.receives
        | .error _ => entries ip.receives := by
  unfold Ip.wait
  cases hget : ip.protocol endpoint with
  | error e => exact ⟨ip.receives, rfl, h, rfl⟩
  | ok protocol =>
    have hheld : ip.protocols.held endpoint = some protocol := by
      rw [← h.protocol, hget]
      rfl
    dsimp only
    split
    · exact ⟨ip.receives, rfl, h, rfl⟩
    rename_i hfree
    rw [any_entries] at hfree
    cases hslot : vacancy ip.receives with
    | none => exact ⟨ip.receives, rfl, h, rfl⟩
    | some slot =>
      have hput := entries_put (vacancy_some hslot) ⟨id, endpoint, payload⟩
      refine ⟨_, rfl, { h with waits := ?_, apart := ?_ }, hput⟩
      · intro r hr
        rw [hput, Multiset.mem_cons] at hr
        rcases hr with rfl | hr
        · rw [hheld]
          rfl
        · exact h.waits r hr
      · rw [hput, Multiset.map_cons]
        refine Multiset.nodup_cons.mpr ⟨?_, h.apart⟩
        intro hmem
        obtain ⟨r, hr, hsame⟩ := Multiset.mem_map.mp hmem
        refine hfree ⟨r, hr, ?_⟩
        rw [h.protocol]
        simpa [hheld] using hsame

theorem Kept.close (h : Kept n ip) (endpoint : UInt64) : Kept n (ip.close endpoint).2 := by
  unfold Ip.close
  split
  · exact h
  rename_i hfree
  rw [any_entries] at hfree
  cases hrev : ip.protocols.revoke PROTOCOL ⟨endpoint.toNat⟩ with
  | mk answer protocols =>
    cases answer with
    | error e =>
      obtain rfl := CapabilityTable.revoke_error hrev
      exact { h with }
    | ok protocol =>
      obtain ⟨hsound, hlen, hlive, hheld, hmap⟩ := CapabilityTable.revoke_ok hrev h.sound
      have hmem : some protocol ∈ ip.bound := by
        rw [← mem_entries, h.bound, hlive]
        exact mem_cons_self _ _
      have hfind : ∃ i, ip.bound.findIdx? (fun slot => slot == some protocol) = some i := by
        cases hf : ip.bound.findIdx? fun slot => slot == some protocol with
        | some i => exact ⟨i, rfl⟩
        | none =>
          have := List.findIdx?_eq_none_iff.mp hf _ hmem
          simp at this
      obtain ⟨i, hi⟩ := hfind
      obtain ⟨hlt, heq, -⟩ := List.findIdx?_eq_some_iff_getElem.mp hi
      have hat : ip.bound[i]? = some (some protocol) := by
        rw [getElem?_eq_getElem hlt, eq_of_beq heq]
      dsimp only
      rw [hi]
      refine h.table hsound (hlen.trans h.slots) (length_set.trans h.places) ?_ ?_ ?_
      · have hclear := entries_clear hat
        rw [h.bound, hlive] at hclear
        exact (Multiset.cons_inj_right _).mp hclear
      · have := h.once
        rw [hlive] at this
        exact (Multiset.nodup_cons.mp this).2
      · intro r hr
        rw [hmap, if_neg]
        intro hsame
        exact hfree ⟨r, hr, by simpa using hsame⟩

end Kept

-- == frames

section Frames

variable (device : Link Λ) (ip : Ip Λ)

theorem transmit_link (dst : MacAddr) (etherType : EtherType) (payload : Bytes) :
    ∃ link, (ip.transmit device dst etherType payload).2 = { ip with link } := by
  unfold Ip.transmit
  split
  · exact ⟨ip.link, rfl⟩
  · exact ⟨_, rfl⟩

theorem arp_link (dst : MacAddr) (packet : Arp.Packet) :
    ∃ link, (ip.arp device dst packet).2 = { ip with link } := by
  unfold Ip.arp
  split
  · exact ⟨ip.link, rfl⟩
  · exact transmit_link device ip ..

theorem arpReply_link (hardware : MacAddr) (target : Ipv4Addr) :
    ∃ link, (ip.arpReply device hardware target).2 = { ip with link } := by
  unfold Ip.arpReply
  split
  · exact ⟨ip.link, rfl⟩
  · exact arp_link device ip ..

theorem icmpv6_link (dst : MacAddr) (src dest : Ipv6Addr) (message : Icmpv6.Message) :
    ∃ link, (ip.icmpv6 device dst src dest message).2 = { ip with link } := by
  unfold Ip.icmpv6
  split
  · exact ⟨ip.link, rfl⟩
  · split
    · exact ⟨ip.link, rfl⟩
    · exact transmit_link device ip ..

theorem discover_link (next : IpAddr) : ∃ link, (ip.discover device next).2 = { ip with link } := by
  cases next with
  | v6 next => exact icmpv6_link device ip ..
  | v4 next =>
    show ∃ link, (ip.arpRequest device next).2 = _
    unfold Ip.arpRequest
    split
    · exact ⟨ip.link, rfl⟩
    · exact arp_link device ip ..

theorem trySend_link (buffers : BufferRegistry) (op : IpOp) :
    ∃ link, (ip.trySend device buffers op).2 = { ip with link } := by
  unfold Ip.trySend
  split
  · exact ⟨ip.link, rfl⟩
  split
  · exact discover_link device ip _
  · split
    · exact ⟨ip.link, rfl⟩
    · exact transmit_link device ip ..

end Frames

/-- What a frame can do: at most the link changes; an address is learnt and the
reply does not leave; or one may be learnt and the parked send is gone on with;
or a receive is completed. -/
inductive Ingested (device : Link Λ) (d : Desk Λ) : Except IpError Bool × Desk Λ → Prop
  | quiet (answer : Except IpError Bool) (link : Λ) :
    Ingested device d (answer, { d with ip := { d.ip with link } })
  | refused (link : Λ) (neighbors : Cache) :
    Ingested device d (.error .link, { d with ip := { d.ip with link, neighbors } })
  | resumed (link : Λ) (neighbors : Cache) : d.ip.completion = none →
    Ingested device d (.ok true, { d with ip := { d.ip with link, neighbors } }.resume device)
  | delivered (source : IpAddr) (protocol : UInt8) (payload : Bytes) : d.ip.completion = none →
    Ingested device d (d.deliver source protocol payload)

section Ingested

variable (device : Link Λ) {d : Desk Λ}

theorem Ingested.afterReply (hnone : d.ip.completion = none) {neighbors : Cache}
    {answer : Except LinkError Unit × Ip Λ}
    (hlink : ∃ link, answer.2 = { d.ip with link, neighbors }) :
    Ingested device d (Desk.afterReply device { d with ip := { d.ip with neighbors } } answer) := by
  obtain ⟨link, hlink⟩ := hlink
  obtain ⟨result, ip⟩ := answer
  obtain rfl : ip = { d.ip with link, neighbors } := hlink
  cases result with
  | error e => exact .refused link neighbors
  | ok u => exact .resumed link neighbors hnone

theorem Ingested.message (hnone : d.ip.completion = none) (hardware : MacAddr)
    (packet : Ipv6.Packet) (message : Icmpv6.Message) :
    Ingested device d (d.ingestMessage device hardware packet message) := by
  unfold Desk.ingestMessage
  cases message with
  | echoReply id seq data => exact .quiet _ d.ip.link
  | advertisement target link solicited =>
    dsimp only
    split
    · exact .quiet _ d.ip.link
    · exact .resumed d.ip.link _ hnone
  | solicitation target source =>
    dsimp only
    split
    · exact .quiet _ d.ip.link
    split
    · exact .quiet _ d.ip.link
    · split
      · exact .afterReply device hnone (icmpv6_link device _ ..)
      · exact .afterReply device hnone (icmpv6_link device _ ..)
  | echoRequest id seq data =>
    dsimp only
    split
    · obtain ⟨link, hlink⟩ := icmpv6_link device d.ip hardware d.ip.ipv6Addr packet.src
        (.echoReply id seq data)
      generalize d.ip.icmpv6 device hardware d.ip.ipv6Addr packet.src
        (.echoReply id seq data) = answer at hlink ⊢
      obtain ⟨result, ip⟩ := answer
      obtain rfl : ip = { d.ip with link } := hlink
      cases result <;> exact .quiet _ link
    · exact .quiet _ d.ip.link

theorem ingested (d : Desk Λ) (bytes : Bytes) : Ingested device d (d.ingest device bytes) := by
  unfold Desk.ingest
  split
  · exact .quiet _ d.ip.link
  rename_i hc
  have hnone : d.ip.completion = none := by simpa using hc
  split
  · exact .quiet _ d.ip.link
  split
  · exact .quiet _ d.ip.link
  split
  · unfold Desk.ingestArp
    split
    · exact .quiet _ d.ip.link
    · dsimp only
      split
      · exact .afterReply device hnone (arpReply_link device _ ..)
      · exact .resumed d.ip.link _ hnone
  · unfold Desk.ingestIpv4
    split
    · exact .quiet _ d.ip.link
    · split
      · exact .quiet _ d.ip.link
      · exact .delivered _ _ _ hnone
  · unfold Desk.ingestIpv6
    split
    · exact .quiet _ d.ip.link
    split
    · unfold Desk.ingestIcmpv6
      split
      · exact .quiet _ d.ip.link
      · exact .message device hnone ..
    · split
      · exact .quiet _ d.ip.link
      · exact .delivered _ _ _ hnone

end Ingested

-- == the account

def parkedId : Option PendingSend → Multiset Nat
  | none => 0
  | some pending => {pending.submission.id}

/-- The ids of the operations that wait inside the service. -/
def inside (ip : Ip Λ) : Multiset Nat := parkedId ip.send + (entries ip.receives).map Receive.id

/-- Every operation taken is completed, pending, parked, waiting or in hand;
`since` is a beginning of what was completed. -/
structure Settled (n : Nat) (since : List IpAnswer) (d : Desk Λ) (hand : Multiset Nat) :
    Prop where
  kept : Kept n d.ip
  account : d.driver.takenIds = d.driver.doneIds d.ip.completion + inside d.ip + hand
  grows : since <+: d.driver.done

section Settled

variable {since : List IpAnswer} {d : Desk Λ} {hand : Multiset Nat}

theorem Settled.again (h : Settled n since d hand) {pending : PendingSend}
    (hsend : d.ip.send = some pending) (link : Λ) (waiting : Bool) :
    Settled n since { d with ip :=
      { d.ip with link, send := some ⟨pending.submission, waiting⟩ } } hand where
  kept := { h.kept with }
  account := by
    have hacc := h.account
    unfold inside at hacc
    rw [hsend] at hacc
    exact hacc
  grows := h.grows

theorem Settled.publish {id : Nat} (h : Settled n since d (id ::ₘ hand))
    (hnone : d.ip.completion = none) (result : Except IpError IpDone) :
    Settled n since (d.publish ⟨id, result⟩) hand := by
  have hgrows : d.driver.done <+: (d.driver.tryComplete ⟨id, result⟩).2.done := by
    rcases d.driver.tryComplete_cases ⟨id, result⟩ with ⟨room, heq⟩ | ⟨room, heq⟩
    · rw [heq]
      exact prefix_append _ _
    · rw [heq]
  exact ⟨{ h.kept with }, d.driver.publish_account ⟨id, result⟩ _ hnone h.account,
    h.grows.trans hgrows⟩

theorem Settled.take (h : Settled n since d 0) (s : Submission IpOp) :
    Settled n since { d with driver := d.driver.take s } {s.id} where
  kept := h.kept
  account := by
    rw [Driver.takenIds_take, Driver.doneIds_take, h.account, add_zero]
  grows := h.grows

theorem Settled.flush (h : Settled n since d 0) : Settled n since d.flush 0 := by
  unfold Desk.flush
  cases hc : d.ip.completion with
  | none => exact h
  | some c =>
    have hacc := h.account
    rw [hc, Driver.doneIds_some] at hacc
    have hhand : Settled n since { d with ip := { d.ip with completion := none } }
        (c.id ::ₘ 0) := by
      refine ⟨{ h.kept with }, ?_, h.grows⟩
      rw [hacc, ← singleton_add]
      abel
    exact hhand.publish rfl c.result

theorem Settled.unpark (h : Settled n since d hand) {pending : PendingSend}
    (hsend : d.ip.send = some pending) (link : Λ) :
    Settled n since { d with ip := { d.ip with link, send := none } }
      (pending.submission.id ::ₘ hand) where
  kept := { h.kept with }
  account := by
    have hacc := h.account
    unfold inside at hacc ⊢
    rw [hsend] at hacc
    dsimp only
    rw [hacc, ← singleton_add, parkedId, parkedId]
    abel
  grows := h.grows

theorem Settled.park {s : Submission IpOp} (h : Settled n since d {s.id})
    (hsend : d.ip.send = none) (link : Λ) (waiting : Bool) :
    Settled n since { d with ip := { d.ip with link, send := some ⟨s, waiting⟩ } } 0 where
  kept := { h.kept with }
  account := by
    have hacc := h.account
    unfold inside at hacc ⊢
    rw [hsend] at hacc
    dsimp only
    rw [hacc, parkedId]
    abel
  grows := h.grows

variable (device : Link Λ)

theorem Settled.retry (h : Settled n since d 0) (hnone : d.ip.completion = none) :
    Settled n since (d.retry device) 0 := by
  unfold Desk.retry
  cases hsend : d.ip.send with
  | none => exact h
  | some pending =>
    dsimp only
    split
    · exact h
    obtain ⟨link, hlink⟩ := trySend_link device d.ip d.buffers pending.submission.op
    rw [hlink]
    split
    · exact (h.unpark hsend link).publish hnone _
    · exact h.again hsend link _
    · exact { h with kept := { h.kept with } }
    · exact (h.unpark hsend link).publish hnone _

theorem Settled.resume (h : Settled n since d 0) (hnone : d.ip.completion = none) :
    Settled n since (d.resume device) 0 := by
  unfold Desk.resume
  cases hsend : d.ip.send with
  | none => exact h
  | some pending =>
    dsimp only
    split
    · split
      · exact Settled.retry device (h.again hsend d.ip.link _) hnone
      · exact h
    · exact h

theorem Settled.waiting {id : Nat} (h : Settled n since d {id}) {receives : List (Option Receive)}
    {r : Receive} (hid : r.id = id) (hkept : Kept n { d.ip with receives })
    (hput : entries receives = r ::ₘ entries d.ip.receives) :
    Settled n since { d with ip := { d.ip with receives } } 0 where
  kept := hkept
  account := by
    have hacc := h.account
    unfold inside at hacc ⊢
    dsimp only
    rw [hacc, hput, Multiset.map_cons, hid, ← Multiset.singleton_add]
    abel
  grows := h.grows

theorem bind_keeps (ip : Ip Λ) (owner : CellId) (protocol : UInt8) :
    ∃ protocols bound, (ip.bind owner protocol).2 = { ip with protocols, bound } := by
  unfold Ip.bind
  split
  · exact ⟨_, _, rfl⟩
  split
  · exact ⟨_, _, rfl⟩
  · split
    · exact ⟨_, _, rfl⟩
    · exact ⟨_, _, rfl⟩

theorem close_keeps (ip : Ip Λ) (endpoint : UInt64) :
    ∃ protocols bound, (ip.close endpoint).2 = { ip with protocols, bound } := by
  unfold Ip.close
  split
  · exact ⟨_, _, rfl⟩
  split
  · exact ⟨_, _, rfl⟩
  · split
    · exact ⟨_, _, rfl⟩
    · exact ⟨_, _, rfl⟩

theorem Settled.table (h : Settled n since d hand) {protocols : CapabilityTable UInt8}
    {bound : List (Option UInt8)} (hkept : Kept n { d.ip with protocols, bound }) :
    Settled n since { d with ip := { d.ip with protocols, bound } } hand :=
  ⟨hkept, h.account, h.grows⟩

theorem Settled.handle {s : Submission IpOp} (h : Settled n since d {s.id})
    (hsend : d.ip.send = none) (hnone : d.ip.completion = none) (owner : CellId) :
    Settled n since (d.handle device owner s) 0 := by
  unfold Desk.handle
  split
  · rename_i protocol _
    obtain ⟨protocols, bound, hip⟩ := bind_keeps d.ip owner protocol
    have hkept := h.kept.bind owner protocol
    dsimp only
    rw [hip] at hkept ⊢
    exact (h.table hkept).publish hnone _
  · obtain ⟨link, hlink⟩ := trySend_link device d.ip d.buffers s.op
    dsimp only
    rw [hlink]
    have hquiet : Settled n since { d with ip := { d.ip with link } } {s.id} :=
      { h with kept := { h.kept with } }
    split
    · exact hquiet.publish hnone _
    · exact h.park hsend link true
    · exact h.park hsend link false
    · exact hquiet.publish hnone _
  · rename_i endpoint payload _
    obtain ⟨receives, hip, hkept, hentries⟩ := h.kept.wait s.id endpoint payload
    dsimp only
    rw [hip] at hkept ⊢
    cases hanswer : (d.ip.wait s.id endpoint payload).1 with
    | ok u =>
      rw [hanswer] at hentries
      exact h.waiting rfl hkept hentries
    | error e =>
      rw [hanswer] at hentries
      have hsame : Settled n since { d with ip := { d.ip with receives } } {s.id} := by
        refine ⟨hkept, ?_, h.grows⟩
        show d.driver.takenIds = d.driver.doneIds d.ip.completion
          + (parkedId d.ip.send + (entries receives).map Receive.id) + {s.id}
        rw [hentries]
        exact h.account
      exact hsame.publish hnone _
  · rename_i endpoint _
    obtain ⟨protocols, bound, hip⟩ := close_keeps d.ip endpoint
    have hkept := h.kept.close endpoint
    dsimp only
    rw [hip] at hkept ⊢
    exact (h.table hkept).publish hnone _

theorem Desk.not_stalled (h : d.stalled = false) : d.ip.send = none ∧ d.ip.completion = none := by
  simpa [Desk.stalled] using h

theorem Settled.drain (h : Settled n since d 0) (hfree : d.stalled = false) (owner : CellId)
    (next : List (Submission IpOp)) : Settled n since (Desk.drain device owner next d) 0 := by
  induction next generalizing d with
  | nil => exact h
  | cons s next ih =>
    obtain ⟨hsend, hnone⟩ := Desk.not_stalled hfree
    have hstep := (h.take s).handle device hsend hnone owner
    unfold Desk.drain
    dsimp only
    split
    · exact hstep
    · rename_i hgo
      exact ih hstep (by simpa using hgo)

theorem Settled.serve (h : Settled n since d 0) (owner : CellId)
    (next : List (Submission IpOp)) : Settled n since (d.serve device owner next) 0 := by
  unfold Desk.serve
  dsimp only
  split
  · exact h.flush
  rename_i hc
  have hnone : d.flush.ip.completion = none := by simpa using hc
  have hretry := h.flush.retry device hnone
  split
  · exact hretry
  · rename_i hgo
    exact hretry.drain device (by simpa using hgo) owner next

-- == frames

/-- Every receive that waits still names a range of a registered buffer. -/
def Desk.Backed (d : Desk Λ) : Prop :=
  ∀ r ∈ d.ip.receives.filterMap id, (d.buffers.resolveWrite r.payload.operation).toOption.isSome

theorem Settled.buffers (h : Settled n since d hand) (buffers : BufferRegistry) :
    Settled n since { d with buffers } hand := ⟨h.kept, h.account, h.grows⟩

theorem Settled.unwait (h : Settled n since d 0) {i : Nat} {r : Receive}
    (hat : d.ip.receives[i]? = some (some r)) :
    Settled n since { d with ip := { d.ip with receives := d.ip.receives.set i none } }
      (r.id ::ₘ 0) := by
  have hclear := entries_clear hat
  refine ⟨?_, ?_, h.grows⟩
  · have hsub : ∀ x, x ∈ entries (d.ip.receives.set i none) → x ∈ entries d.ip.receives := by
      intro x hx
      rw [← hclear]
      exact mem_cons_of_mem hx
    refine { h.kept with waits := ?_, apart := ?_ }
    · exact fun x hx => h.kept.waits x (hsub x hx)
    · have := h.kept.apart
      rw [← hclear, Multiset.map_cons] at this
      exact (Multiset.nodup_cons.mp this).2
  · have hacc := h.account
    unfold inside at hacc ⊢
    dsimp only
    rw [hacc, ← hclear, Multiset.map_cons, ← Multiset.singleton_add, ← Multiset.singleton_add]
    abel

theorem Settled.deliver (h : Settled n since d 0) (hnone : d.ip.completion = none)
    (hbacked : d.Backed) (source : IpAddr) (protocol : UInt8) (payload : Bytes) :
    Settled n since (d.deliver source protocol payload).2 0 := by
  unfold Desk.deliver
  split
  · exact h
  rename_i i hwaiter
  cases hat : d.ip.receives.getD i none with
  | none => exact h
  | some r =>
    have hat' : d.ip.receives[i]? = some (some r) := by
      cases hi : d.ip.receives[i]? with
      | none => simp [getD, hi] at hat
      | some slot =>
        rw [getD_eq_getElem?_getD, hi] at hat
        exact congrArg some hat
    have hhand := h.unwait hat'
    have hmem : r ∈ d.ip.receives.filterMap id :=
      mem_filterMap.mpr ⟨some r, mem_of_getElem? hat', rfl⟩
    dsimp only
    split
    · exact hhand.publish hnone _
    cases hres : d.buffers.resolveWrite r.payload.operation with
    | error e =>
      have := hbacked r hmem
      rw [hres] at this
      cases this
    | ok bytes => exact (hhand.buffers _).publish hnone _

theorem Settled.ingest (h : Settled n since d 0) (hbacked : d.Backed) (bytes : Bytes) :
    Settled n since (d.ingest device bytes).2 0 := by
  have hcases := ingested device d bytes
  generalize d.ingest device bytes = r at hcases ⊢
  cases hcases with
  | quiet | refused => exact { h with kept := { h.kept with } }
  | resumed link neighbors hnone =>
    exact Settled.resume device { h with kept := { h.kept with } } hnone
  | delivered source protocol payload hnone => exact h.deliver hnone hbacked ..

end Settled

-- == runs

namespace Desk

/-- A frame is ingested only while every waiting receive has its buffer. -/
def Meets (d : Desk Λ) : Turn → Prop
  | .ingest _ _ => d.Backed
  | _ => True

/-- Every turn of a run meets the condition. -/
def MeetsAll (device : Link Λ) (d : Desk Λ) : List Turn → Prop
  | [] => True
  | t :: turns => d.Meets t ∧ MeetsAll device (d.turn device t) turns

end Desk

section Runs

variable {since : List IpAnswer} {d : Desk Λ} (device : Link Λ)

section

variable (h : Settled n since d 0)
include h

theorem Settled.facing (room : List Bool) :
    Settled n since (d.facing room) 0 := ⟨h.kept, h.account, h.grows⟩

theorem Settled.turn {t : Turn} (hmeets : d.Meets t) : Settled n since (d.turn device t) 0 := by
  cases t with
  | serve owner next room => exact (h.facing room).serve device owner next
  | ingest bytes room => exact (h.facing room).ingest device hmeets bytes
  | buffers registry => exact h.buffers registry

theorem Settled.run {turns : List Turn}
    (hmeets : d.MeetsAll device turns) : Settled n since (d.run device turns) 0 := by
  induction turns generalizing d with
  | nil => exact h
  | cons t turns ih => exact ih (h.turn device hmeets.1) hmeets.2

theorem Settled.pending_first {c : IpAnswer}
    (hc : d.ip.completion = some c) (t : Turn) :
    (d.turn device t).ip.completion = some c
      ∨ d.driver.done ++ [c] <+: (d.turn device t).driver.done := by
  cases t with
  | buffers registry => exact .inl hc
  | ingest bytes room =>
    left
    show ((d.facing room).ingest device bytes).2.ip.completion = some c
    have hbusy : (d.facing room).ip.completion.isSome = true := by
      show d.ip.completion.isSome = true
      rw [hc]
      rfl
    unfold Desk.ingest
    rw [if_pos hbusy]
    exact hc
  | serve owner next room =>
    show ((d.facing room).serve device owner next).ip.completion = some c
      ∨ d.driver.done ++ [c] <+: ((d.facing room).serve device owner next).driver.done
    have hflush : (d.facing room).flush
        = { d.facing room with ip := { d.ip with completion := none } }.publish c := by
      unfold Desk.flush
      have : (d.facing room).ip.completion = some c := hc
      rw [this]
      rfl
    have hsettled := (h.facing room).flush
    unfold Desk.serve
    dsimp only
    rcases Driver.tryComplete_cases { d.driver with room } c with
      ⟨room', heq⟩ | ⟨room', heq⟩
    · right
      have hdone : (d.facing room).flush.driver.done = d.driver.done ++ [c] := by
        rw [hflush]
        show (Driver.tryComplete { d.driver with room } c).2.done = _
        rw [heq]
      have hsince : Settled n (d.driver.done ++ [c]) (d.facing room).flush 0 :=
        ⟨hsettled.kept, hsettled.account, by rw [hdone]⟩
      split
      · exact hsince.grows
      rename_i hn
      have hnone : (d.facing room).flush.ip.completion = none := by simpa using hn
      have hretry := hsince.retry device hnone
      split
      · exact hretry.grows
      · rename_i hgo
        exact (hretry.drain device (by simpa using hgo) owner next).grows
    · left
      have hpend : (d.facing room).flush.ip.completion = some c := by
        rw [hflush]
        show ((Driver.tryComplete { d.driver with room } c).1.orElse fun _ => none) = some c
        rw [heq]
        rfl
      rw [if_pos (by rw [hpend]; rfl)]
      exact hpend

end

end Runs

/-- Each operation taken is in one place, a pending completion is never
overwritten, at most one receive waits for a protocol, and `bound` lists the
protocols of the live endpoints once each. -/
structure Orderly (device : Link Λ) (d : Desk Λ) : Prop where
  account : (d.driver.taken.map Submission.id : Multiset Nat)
    = (d.driver.done.map Completion.id : List Nat)
      + (d.ip.completion.toList.map Completion.id : List Nat) + parkedId d.ip.send
      + (entries d.ip.receives).map Receive.id
  pending : ∀ c, d.ip.completion = some c → ∀ t, (d.turn device t).ip.completion = some c
    ∨ d.driver.done ++ [c] <+: (d.turn device t).driver.done
  receives : ((entries d.ip.receives).map fun r => (d.ip.protocol r.endpoint).toOption).Nodup
  bound : entries d.ip.bound = d.ip.protocols.live ∧ d.ip.protocols.live.Nodup

theorem Settled.orderly {since : List IpAnswer} {d : Desk Λ} (h : Settled n since d 0)
    (device : Link Λ) : Orderly device d where
  account := by
    have hacc := h.account
    unfold inside Driver.takenIds Driver.doneIds at hacc
    rw [hacc, map_append, ← coe_add]
    abel
  pending := fun c hc t => h.pending_first device hc t
  receives := by
    rw [map_congr rfl fun r _ => h.kept.protocol r.endpoint]
    exact h.kept.apart
  bound := ⟨h.kept.bound, h.kept.once⟩

theorem Settled.new (link : Λ) (config : Config) (n : Nat) (buffers : BufferRegistry) :
    Settled n [] (Desk.new link config n buffers) 0 where
  kept := .new link config n
  account := by
    simp [Desk.new, Driver.new, Driver.takenIds, Driver.doneIds, inside, parkedId, Ip.new]
  grows := nil_prefix

/-- In every run that ingests frames only while the waiting receives have
their buffers, every operation is where it should be. -/
theorem ip_operations_are_accounted_for (device : Link Λ) (link : Λ) (config : Config) (n : Nat)
    (buffers : BufferRegistry) (turns : List Turn)
    (hmeets : (Desk.new link config n buffers).MeetsAll device turns) :
    Orderly device ((Desk.new link config n buffers).run device turns) :=
  ((Settled.new link config n buffers).run device hmeets).orderly device

def quietLink : Link Unit := ⟨fun l _ => (.ok (), l)⟩

def hostConfig : Config where
  mac := (#v[2, 0, 0, 0, 0, 1])
  addr := .v4 (#v[10, 0, 0, 2])
  bits := 24
  gateway := .v4 (#v[10, 0, 0, 1])

/-- One buffer of eight bytes, registered by cell 7. -/
def oneBuffer : BufferRegistry :=
  ((BufferRegistry.new 1).register .READ_WRITE 7 (List.replicate 8 0)).2

/-- Protocol 17 is bound and a receive waits on it. Both capabilities are
slot zero of generation one. -/
def waitingTurns : List Turn :=
  [.serve 1 [⟨1, .bind 17⟩] [true], .serve 1 [⟨2, .recv (2 ^ 32) ⟨2 ^ 32, 0, 8⟩⟩] [true]]

/-- An IPv4 packet of protocol 17 with four bytes of payload. -/
def udpFrame : Bytes :=
  [2, 0, 0, 0, 0, 1, 2, 0, 0, 0, 0, 9, 8, 0,
    0x45, 0, 0, 24, 0, 0, 0x40, 0, 64, 17, 0x26, 0xd3, 10, 0, 0, 1, 10, 0, 0, 2, 1, 2, 3, 4]

instance (d : Desk Λ) : Decidable d.Backed :=
  inferInstanceAs (Decidable (∀ r ∈ d.ip.receives.filterMap id, _))

/-- With its buffer, the receive is completed. -/
theorem ip_operations_are_accounted_for_udp :
    let d := (Desk.new () hostConfig 1 oneBuffer).run quietLink
      (waitingTurns ++ [.ingest udpFrame [true]])
    d.driver.done.map Completion.id = [1, 2] ∧ Orderly quietLink d :=
  ⟨by decide +kernel, ip_operations_are_accounted_for quietLink () hostConfig 1 oneBuffer _
    ⟨trivial, trivial, (by decide +kernel : Desk.Backed _), trivial⟩⟩

/-- The owner unregisters its buffer, and the receive is in no place. -/
theorem unregistered_buffer_loses_the_receive :
    let d := (Desk.new () hostConfig 1 oneBuffer).run quietLink
      (waitingTurns ++ [.buffers (oneBuffer.revokeOwner 7).2, .ingest udpFrame [true]])
    d.driver.taken.map Submission.id = [1, 2] ∧ d.driver.done.map Completion.id = [1]
      ∧ d.ip.completion = none ∧ d.ip.send = none ∧ d.ip.receives = [none] := by
  decide +kernel

-- == the parked send

def Unreached (ip : Ip Λ) (op : IpOp) : Prop :=
  ∃ endpoint dest payload next, op = .send endpoint dest payload
    ∧ ip.nextHop dest = .ok next ∧ ip.resolve next = none

/-- A send that is parked as waiting has no neighbour to go to. -/
def Awaiting (ip : Ip Λ) : Prop :=
  ∀ pending, ip.send = some pending → pending.waiting = true → Unreached ip pending.submission.op

section Awaiting

variable {d : Desk Λ} {ip : Ip Λ} {buffers : BufferRegistry} {op : IpOp} (device : Link Λ)

theorem sendOf_ok {protocol : UInt8} {bytes : Bytes} {dest next : IpAddr}
    (h : ip.sendOf buffers op = .ok (protocol, bytes, dest, next)) :
    ∃ endpoint payload, op = .send endpoint dest payload ∧ ip.nextHop dest = .ok next := by
  unfold Ip.sendOf at h
  split at h
  · rename_i endpoint dst payload
    split at h
    · cases h
    split at h
    · cases h
    cases hnext : ip.nextHop dst with
    | error e =>
      rw [hnext] at h
      cases h
    | ok hop =>
      rw [hnext] at h
      cases h
      exact ⟨endpoint, payload, rfl, hnext⟩
  · cases h

theorem trySend_waiting (h : (ip.trySend device buffers op).1 = .ok .waiting) :
    Unreached ip op := by
  unfold Ip.trySend at h
  split at h
  · cases h
  rename_i dest next hof
  obtain ⟨endpoint, payload, hop, hnext⟩ := sendOf_ok hof
  split at h
  · rename_i hres
    exact ⟨endpoint, dest, payload, next, hop, hnext, hres⟩
  split at h
  · cases h
  · dsimp only at h
    unfold Ip.stateOf at h
    split at h <;> cases h

theorem Awaiting.idle (h : ip.send = none) : Awaiting ip := by
  intro pending hsend
  rw [h] at hsend
  cases hsend

theorem Awaiting.park (ip : Ip Λ) (s : Submission IpOp) (waiting : Bool) (link : Λ)
    (h : waiting = true → Unreached ip s.op) :
    Awaiting { ip with link, send := some ⟨s, waiting⟩ } := by
  intro p hp hwaiting
  cases hp
  exact h hwaiting

theorem Awaiting.retry (h : Awaiting d.ip) : Awaiting (d.retry device).ip := by
  unfold Desk.retry
  split
  · exact h
  rename_i pending hsend
  split
  · exact h
  obtain ⟨link, hlink⟩ := trySend_link device d.ip d.buffers pending.submission.op
  dsimp only
  rw [hlink]
  split
  · exact .idle rfl
  · rename_i hanswer
    exact .park d.ip pending.submission true link fun _ => trySend_waiting device hanswer
  · exact h
  · exact .idle rfl

/-- Whatever was learnt, the send waits on only if its neighbour is still unknown. -/
theorem Awaiting.resume (h : Awaiting d.ip) (link : Λ) (neighbors : Cache) :
    Awaiting ({ d with ip := { d.ip with link, neighbors } }.resume device).ip := by
  unfold Desk.resume
  split
  · rename_i hsend
    exact .idle hsend
  rename_i pending hsend
  split
  · rename_i endpoint dest payload hop
    split
    · exact Awaiting.retry device
        (.park { d.ip with neighbors } pending.submission false link nofun)
    rename_i hres
    intro p hp hw
    obtain rfl : pending = p := Option.some.inj (hsend.symm.trans hp)
    obtain ⟨_, _, _, next, hop', hnext, -⟩ := h pending hsend hw
    cases hop.symm.trans hop'
    have hnext' : Ip.nextHop { d.ip with link, neighbors } dest = .ok next := hnext
    rw [hnext'] at hres
    exact ⟨endpoint, dest, payload, next, hop, hnext', by simpa [Except.toOption] using hres⟩
  · rename_i hother
    intro p hp hw
    obtain rfl : pending = p := Option.some.inj (hsend.symm.trans hp)
    obtain ⟨endpoint, dest, payload, -, hop, -⟩ := h pending hsend hw
    exact absurd hop (hother endpoint dest payload)

theorem Awaiting.handle (hsend : d.ip.send = none) (owner : CellId) (s : Submission IpOp) :
    Awaiting (d.handle device owner s).ip := by
  unfold Desk.handle
  split
  · rename_i protocol _
    obtain ⟨protocols, bound, hip⟩ := bind_keeps d.ip owner protocol
    dsimp only
    rw [hip]
    exact .idle hsend
  · obtain ⟨link, hlink⟩ := trySend_link device d.ip d.buffers s.op
    dsimp only
    rw [hlink]
    split
    · exact .idle hsend
    · rename_i hanswer
      exact .park d.ip s true link fun _ => trySend_waiting device hanswer
    · exact .park d.ip s false link nofun
    · exact .idle hsend
  · rename_i endpoint payload _
    have hkeep : (d.ip.wait s.id endpoint payload).2.send = none := by
      unfold Ip.wait
      split
      · exact hsend
      · split
        · exact hsend
        · split <;> exact hsend
    dsimp only
    split <;> exact .idle hkeep
  · rename_i endpoint _
    obtain ⟨protocols, bound, hip⟩ := close_keeps d.ip endpoint
    dsimp only
    rw [hip]
    exact .idle hsend

theorem Awaiting.drain (h : Awaiting d.ip) (hfree : d.stalled = false) (owner : CellId)
    (next : List (Submission IpOp)) : Awaiting (Desk.drain device owner next d).ip := by
  induction next generalizing d with
  | nil => exact h
  | cons s next ih =>
    have hstep := Awaiting.handle (d := { d with driver := d.driver.take s }) device
      (Desk.not_stalled hfree).1 owner s
    unfold Desk.drain
    dsimp only
    split
    · exact hstep
    · rename_i hgo
      exact ih hstep (by simpa using hgo)

theorem Awaiting.serve (h : Awaiting d.ip) (owner : CellId) (next : List (Submission IpOp)) :
    Awaiting (d.serve device owner next).ip := by
  have hflush : Awaiting d.flush.ip := by
    unfold Desk.flush
    split <;> exact h
  unfold Desk.serve
  dsimp only
  split
  · exact hflush
  · split
    · exact hflush.retry device
    · rename_i hgo
      exact (hflush.retry device).drain device (by simpa using hgo) owner next

theorem deliver_neighbors (d : Desk Λ) (source : IpAddr) (protocol : UInt8) (payload : Bytes) :
    (d.deliver source protocol payload).2.ip.neighbors = d.ip.neighbors := by
  unfold Desk.deliver
  split
  · rfl
  split
  · rfl
  dsimp only
  split
  · rfl
  · split <;> rfl

/-- A station that asks for the address of this host, and how the reply to it
fares. -/
structure Request (Λ : Type) where
  address : IpAddr
  hardware : MacAddr
  answer : Except LinkError Unit × Ip Λ

def Desk.requestArp (d : Desk Λ) (bytes : Bytes) : Option (Request Λ) :=
  match Arp.Packet.parse bytes with
  | .error _ => none
  | .ok packet =>
    if packet.operation = .request ∧ IpAddr.v4 packet.rxProtocol = d.ip.config.addr then
      some ⟨.v4 packet.txProtocol, packet.txHardware,
        (d.learn (.v4 packet.txProtocol) packet.txHardware).ip.arpReply device
          packet.txHardware packet.txProtocol⟩
    else none

/-- A solicitation asks if it names its sender. -/
def Desk.requestMessage (d : Desk Λ) (hardware : MacAddr) (packet : Ipv6.Packet) :
    Icmpv6.Message → Option (Request Λ)
  | .solicitation target source =>
    if packet.hopLimit ≠ Icmpv6.HOPS then none
    else if !d.ip.owns target then none
    else if packet.src.isUnspecified then none
    else some ⟨.v6 packet.src, source.getD hardware,
      (d.learn (.v6 packet.src) (source.getD hardware)).ip.advertise device
        (source.getD hardware) target packet.src⟩
  | _ => none

def Desk.requestIpv6 (d : Desk Λ) (hardware : MacAddr) (bytes : Bytes) : Option (Request Λ) :=
  match Ipv6.Packet.parse bytes with
  | .error _ => none
  | .ok packet =>
    if packet.nextHeader = Icmpv6.PROTOCOL then
      match Icmpv6.Message.parse packet.src packet.dst packet.payload with
      | .error _ => none
      | .ok message => d.requestMessage device hardware packet message
    else none

/-- The request a frame is, if the service looks at it and it is one. -/
def Desk.request (d : Desk Λ) (bytes : Bytes) : Option (Request Λ) :=
  if d.ip.completion.isSome then none
  else
    match Frame.parse bytes with
    | .error _ => none
    | .ok frame =>
      if frame.dst ≠ d.ip.config.mac ∧ !frame.dst.isMulticast then none
      else
        match frame.etherType with
        | .arp => d.requestArp device frame.payload
        | .ipv4 => none
        | .ipv6 => d.requestIpv6 device frame.src frame.payload

/-- What a frame teaches: a request who asks, before the reply to it is known;
anything else nothing, if it leaves with `Link`. -/
def Heard (d : Desk Λ) (result : Except IpError Bool × Desk Λ) : Option (Request Λ) → Prop
  | none => result.1 = .error .link → result.2.ip.neighbors = d.ip.neighbors
  | some r => result = (d.learn r.address r.hardware).afterReply device r.answer
      ∧ ∃ link, r.answer.2 = { (d.learn r.address r.hardware).ip with link }

theorem refused_neighbors {answer : Except LinkError Unit × Ip Λ}
    (hlink : ∃ link, answer.2 = { d.ip with link }) :
    (d.afterReply device answer).1 = .error .link →
      (d.afterReply device answer).2.ip.neighbors = d.ip.neighbors := by
  obtain ⟨link, hlink⟩ := hlink
  obtain ⟨result, ip⟩ := answer
  obtain rfl : ip = { d.ip with link } := hlink
  cases result with
  | error e => exact fun _ => rfl
  | ok u => exact fun h => by cases h

theorem heard_arp (d : Desk Λ) (bytes : Bytes) :
    Heard device d (d.ingestArp device bytes) (d.requestArp device bytes) := by
  unfold Desk.ingestArp Desk.requestArp
  cases Arp.Packet.parse bytes with
  | error e => exact fun _ => rfl
  | ok packet =>
    dsimp only
    by_cases hasks : packet.operation = .request ∧ IpAddr.v4 packet.rxProtocol = d.ip.config.addr
    · rw [if_pos hasks, if_pos (by exact hasks)]
      exact ⟨rfl, arpReply_link device _ ..⟩
    · rw [if_neg hasks, if_neg (by exact hasks)]
      exact fun h => by cases h

theorem heard_message (d : Desk Λ) (hardware : MacAddr) (packet : Ipv6.Packet)
    (message : Icmpv6.Message) : Heard device d (d.ingestMessage device hardware packet message)
      (d.requestMessage device hardware packet message) := by
  cases message with
  | echoReply id seq data => exact fun _ => rfl
  | advertisement target link solicited =>
    intro h
    unfold Desk.ingestMessage at h
    dsimp only at h
    split at h <;> cases h
  | echoRequest id seq data =>
    intro _
    unfold Desk.ingestMessage
    dsimp only
    split
    · obtain ⟨link, hlink⟩ := icmpv6_link device d.ip hardware d.ip.ipv6Addr packet.src
        (.echoReply id seq data)
      generalize d.ip.icmpv6 device hardware d.ip.ipv6Addr packet.src
        (.echoReply id seq data) = answer at hlink ⊢
      obtain ⟨result, ip⟩ := answer
      obtain rfl : ip = { d.ip with link } := hlink
      cases result <;> rfl
    · rfl
  | solicitation target source =>
    unfold Desk.ingestMessage Desk.requestMessage
    dsimp only
    by_cases hhops : packet.hopLimit ≠ Icmpv6.HOPS
    · rw [if_pos hhops, if_pos hhops]
      exact fun _ => rfl
    rw [if_neg hhops, if_neg hhops]
    by_cases howns : (!d.ip.owns target) = true
    · rw [if_pos howns, if_pos howns]
      exact fun _ => rfl
    rw [if_neg howns, if_neg howns]
    by_cases hsrc : packet.src.isUnspecified = true
    · rw [if_pos hsrc, if_pos hsrc]
      exact refused_neighbors device (icmpv6_link device d.ip ..)
    · rw [if_neg hsrc, if_neg hsrc]
      exact ⟨rfl, icmpv6_link device _ ..⟩

theorem heard_ipv6 (d : Desk Λ) (hardware : MacAddr) (bytes : Bytes) :
    Heard device d (d.ingestIpv6 device hardware bytes) (d.requestIpv6 device hardware bytes) := by
  unfold Desk.ingestIpv6 Desk.requestIpv6
  cases Ipv6.Packet.parse bytes with
  | error e => exact fun _ => rfl
  | ok packet =>
    dsimp only
    by_cases hicmp : packet.nextHeader = Icmpv6.PROTOCOL
    · rw [if_pos hicmp, if_pos hicmp]
      unfold Desk.ingestIcmpv6
      cases Icmpv6.Message.parse packet.src packet.dst packet.payload with
      | error e => exact fun _ => rfl
      | ok message => exact heard_message device d hardware packet message
    · rw [if_neg hicmp, if_neg hicmp]
      split
      · exact fun _ => rfl
      · exact fun _ => deliver_neighbors d ..

theorem heard (d : Desk Λ) (bytes : Bytes) :
    Heard device d (d.ingest device bytes) (d.request device bytes) := by
  unfold Desk.ingest Desk.request
  by_cases hbusy : d.ip.completion.isSome
  · rw [if_pos hbusy, if_pos hbusy]
    exact fun _ => rfl
  rw [if_neg hbusy, if_neg hbusy]
  cases Frame.parse bytes with
  | error e => exact fun _ => rfl
  | ok frame =>
    dsimp only
    by_cases hdst : frame.dst ≠ d.ip.config.mac ∧ (!frame.dst.isMulticast) = true
    · rw [if_pos hdst, if_pos hdst]
      exact fun _ => rfl
    rw [if_neg hdst, if_neg hdst]
    cases frame.etherType with
    | arp => exact heard_arp device d frame.payload
    | ipv6 => exact heard_ipv6 device d frame.src frame.payload
    | ipv4 =>
      unfold Desk.ingestIpv4
      dsimp only
      split
      · exact fun _ => rfl
      split
      · exact fun _ => rfl
      · exact fun _ => deliver_neighbors d ..

/-- A request of the waiting send's next hop, whose reply the link refuses. -/
def Stranded (d : Desk Λ) (bytes : Bytes) : Prop :=
  ∃ r pending endpoint dest payload next, d.request device bytes = some r
    ∧ (∃ e, r.answer.1 = .error e)
    ∧ d.ip.send = some pending ∧ pending.waiting = true
    ∧ pending.submission.op = .send endpoint dest payload ∧ d.ip.nextHop dest = .ok next
    ∧ (d.learn r.address r.hardware).ip.resolve next ≠ none

theorem Awaiting.deliver (h : Awaiting d.ip) (source : IpAddr) (protocol : UInt8)
    (payload : Bytes) :
    Awaiting (d.deliver source protocol payload).2.ip := by
  unfold Desk.deliver
  split
  · exact h
  split
  · exact h
  dsimp only
  split
  · exact h
  · split <;> exact h

theorem Awaiting.taught_iff {r : Request Λ} (h : Awaiting d.ip)
    (hreq : d.request device bytes = some r) (hrefused : ∃ e, r.answer.1 = .error e) (link : Λ) :
    Awaiting { (d.learn r.address r.hardware).ip with link } ↔ ¬ Stranded device d bytes := by
  constructor
  · rintro hwait ⟨r', pending, endpoint, dest, payload, next, hreq', -, hsend, hw, hop, hnext, hres⟩
    cases hreq.symm.trans hreq'
    obtain ⟨_, _, _, next', hop', hnext', hres'⟩ := hwait pending hsend hw
    cases hop.symm.trans hop'
    cases hnext.symm.trans hnext'
    exact hres hres'
  · intro hno pending hsend hw
    obtain ⟨endpoint, dest, payload, next, hop, hnext, -⟩ := h pending hsend hw
    refine ⟨endpoint, dest, payload, next, hop, hnext, by_contra fun hres => hno ?_⟩
    exact ⟨r, pending, endpoint, dest, payload, next, hreq, hrefused, hsend, hw, hop, hnext, hres⟩

theorem Awaiting.ingest_iff (h : Awaiting d.ip) (bytes : Bytes) :
    Awaiting (d.ingest device bytes).2.ip ↔ ¬ Stranded device d bytes := by
  have hheard := heard device d bytes
  cases hreq : d.request device bytes with
  | none =>
    rw [hreq] at hheard
    refine iff_of_true ?_ ?_
    · have hcases := ingested device d bytes
      generalize d.ingest device bytes = result at hcases hheard ⊢
      cases hcases with
      | quiet answer link => exact h
      | refused link neighbors =>
        obtain rfl : neighbors = d.ip.neighbors := hheard rfl
        exact h
      | resumed link neighbors => exact h.resume device link neighbors
      | delivered source protocol payload => exact h.deliver source protocol payload
    · rintro ⟨r, _, _, _, _, _, hsome, -⟩
      cases hreq.symm.trans hsome
  | some r =>
    rw [hreq] at hheard
    obtain ⟨hresult, link, hlink⟩ := hheard
    rw [hresult]
    cases hanswer : r.answer with
    | mk result ip =>
      obtain rfl : ip = { (d.learn r.address r.hardware).ip with link } := by rw [← hlink, hanswer]
      cases result with
      | error e => exact h.taught_iff device hreq ⟨e, by rw [hanswer]⟩ link
      | ok u =>
        refine iff_of_true (h.resume device link _) ?_
        rintro ⟨r', _, _, _, _, _, hsome, ⟨e, he⟩, -⟩
        cases hreq.symm.trans hsome
        rw [hanswer] at he
        cases he

/-- No frame of the run is a request of the waiting send's next hop that the link
refuses to answer. -/
def NoneStranded (d : Desk Λ) : List Turn → Prop
  | [] => True
  | t :: turns =>
    (∀ bytes room, t = .ingest bytes room → ¬ Stranded device (d.facing room) bytes)
    ∧ NoneStranded (d.turn device t) turns

theorem Awaiting.turn_iff (h : Awaiting d.ip) (t : Turn) : Awaiting (d.turn device t).ip
    ↔ ∀ bytes room, t = .ingest bytes room → ¬ Stranded device (d.facing room) bytes := by
  cases t with
  | serve owner next room =>
    exact iff_of_true (Awaiting.serve (d := d.facing room) device h owner next)
      (fun _ _ ht => by cases ht)
  | buffers registry => exact iff_of_true h fun _ _ ht => by cases ht
  | ingest bytes room =>
    refine (Awaiting.ingest_iff (d := d.facing room) device h bytes).trans ⟨?_, ?_⟩
    · rintro hno _ _ ⟨⟩
      exact hno
    · exact fun hall => hall bytes room rfl

theorem Awaiting.run_iff (h : Awaiting d.ip) (turns : List Turn) :
    (∀ k, Awaiting (d.run device (turns.take k)).ip) ↔ NoneStranded device d turns := by
  induction turns generalizing d with
  | nil => exact iff_of_true (fun k => by rwa [List.take_nil]) trivial
  | cons t turns ih =>
    constructor
    · intro hall
      have hfirst : Awaiting (d.turn device t).ip := hall 1
      exact ⟨(h.turn_iff device t).mp hfirst, (ih hfirst).mp fun k => hall (k + 1)⟩
    · rintro ⟨hturn, hrest⟩ k
      cases k with
      | zero => exact h
      | succ k => exact (ih ((h.turn_iff device t).mpr hturn)).mpr hrest k

end Awaiting

/-- After every call of a run a send waits only for a next hop that does not
resolve, exactly if no station on which it waits asks for the address of this
host and gets no reply out of the link. -/
theorem parked_send_has_no_neighbour (device : Link Λ) (link : Λ) (config : Config) (n : Nat)
    (buffers : BufferRegistry) (turns : List Turn) :
    (∀ k, Awaiting ((Desk.new link config n buffers).run device (turns.take k)).ip)
      ↔ NoneStranded device (.new link config n buffers) turns :=
  Awaiting.run_iff (d := .new link config n buffers) device (.idle rfl) turns

/-- A send to a station on the link whose address nobody has told. -/
def sendTurns : List Turn :=
  [.serve 1 [⟨1, .bind 17⟩] [true],
    .serve 1 [⟨2, .send (2 ^ 32) (.v4 (#v[10, 0, 0, 9])) ⟨2 ^ 32, 0, 8⟩⟩] [true]]

/-- That station asks for the address of this host. -/
def askFrame : Bytes :=
  [2, 0, 0, 0, 0, 1, 2, 0, 0, 0, 0, 9, 8, 6, 0, 1, 8, 0, 6, 4, 0, 1,
    2, 0, 0, 0, 0, 9, 10, 0, 0, 9, 0, 0, 0, 0, 0, 0, 10, 0, 0, 2]

/-- The reply leaves, and so does the send. -/
theorem parked_send_has_no_neighbour_send :
    let turns := sendTurns ++ [.ingest askFrame [true]]
    let d := (Desk.new () hostConfig 1 oneBuffer).run quietLink
    (d (turns.take 2)).ip.send.map PendingSend.waiting = some true
    ∧ (d turns).ip.send = none ∧ ∀ k, Awaiting (d (turns.take k)).ip := by
  refine ⟨by decide +kernel, by decide +kernel,
    (parked_send_has_no_neighbour quietLink () hostConfig 1 oneBuffer _).mpr
      ⟨(fun _ _ h => by cases h), (fun _ _ h => by cases h), ?_, trivial⟩⟩
  rintro _ _ ⟨⟩ ⟨r, _, _, _, _, _, hreq, ⟨e, he⟩, -⟩
  have hok : (((Desk.new () hostConfig 1 oneBuffer).run quietLink sendTurns).facing [true]
      |>.request quietLink askFrame).map (fun r => r.answer.1.isOk) = some true := by decide +kernel
  have hsome := congrArg (Option.map fun r => r.answer.1.isOk) hreq
  rw [Option.map_some, he] at hsome
  cases hok.symm.trans hsome

/-- A link that is busy when the second frame comes. -/
def busyLink : Link Nat := ⟨fun k _ => (if k = 1 then .error .busy else .ok (), k + 1)⟩

/-- The link refuses the reply, and the send waits for a station in the cache. -/
theorem refused_reply_leaves_the_send_waiting :
    let d := (Desk.new 0 hostConfig 1 oneBuffer).run busyLink (sendTurns ++ [.ingest askFrame []])
    d.ip.send = some ⟨⟨2, .send (2 ^ 32) (.v4 (#v[10, 0, 0, 9])) ⟨2 ^ 32, 0, 8⟩⟩, true⟩
      ∧ (d.ip.nextHop (.v4 (#v[10, 0, 0, 9]))).toOption = some (.v4 (#v[10, 0, 0, 9]))
      ∧ d.ip.resolve (.v4 (#v[10, 0, 0, 9])) = some (#v[2, 0, 0, 0, 0, 9]) := by
  decide +kernel

end Molt.Net
