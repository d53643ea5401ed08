/-
The IOMMU driver mirrors its controller
(`device/virtio/src/iommu.rs`, `attach`, `detach`, `map`, `unmap`).

# The argument

Between two calls no request is outstanding (`Idle`): the request queue has
all of its descriptors and the controller nothing to answer. A command then
pushes one request and leaves its loop only with the answer to it, so its
result says what the controller did (`Idle.command`). What a call does to the
driver's tables on either result is what the controller did to its own
(`Mirror`).

# The exit that breaks it

The loop of `command` polls the fault queue with `?`. A fault record that is
too short makes it return while its request is with the controller: the
driver drops what it had reserved, the controller executes the request, and
the next command is written over the one still waiting. So the fault records
must be whole (`Whole`).
-/
import Molt.Lib.Span
import Molt.Virtio.Iommu
import Molt.Virtio.Proofs.Queue

namespace Molt.Virtio.Translation

open Molt.Lib List

-- == domains

namespace Domains

variable {d d' : Domains} {device : DeviceId} {domain : Nat}

theorem find_some {slot : Nat} (h : d.find device = some (slot, domain)) :
    slotAt d.entries slot = some ⟨device, domain⟩ := by
  obtain ⟨entry, hslot, hentry⟩ := pick_some h
  split at hentry
  case isTrue heq =>
    obtain rfl : entry.domain = domain := Option.some.inj hentry
    rw [hslot, ← heq]
  case isFalse => cases hentry

theorem find_none (h : d.find device = none) {a : Attachment} (ha : a ∈ Lib.entries d.entries) :
    a.device ≠ device := by
  intro heq
  obtain ⟨i, hi⟩ := List.getElem?_of_mem (mem_entries.mp ha)
  have := pick_none h (slotAt_some.mpr hi)
  rw [if_pos heq] at this
  cases this

theorem domain_some (h : d.domain device = some domain) :
    ⟨device, domain⟩ ∈ Lib.entries d.entries := by
  obtain ⟨⟨slot, domain'⟩, hfind, rfl⟩ := Option.map_eq_some_iff.mp h
  have hslot := slotAt_some.mp (find_some hfind)
  exact mem_entries.mpr (mem_of_getElem? hslot)

theorem domain_none (h : d.domain device = none) {a : Attachment}
    (ha : a ∈ Lib.entries d.entries) : a.device ≠ device :=
  find_none (Option.map_eq_none_iff.mp h) ha

theorem lowest_ok {turns first : Nat} (h : d.lowest turns first = .ok domain) :
    first ≤ domain ∧ domain ≤ d.stop ∧ ∀ a ∈ Lib.entries d.entries, a.domain ≠ domain := by
  induction turns generalizing first with
  | zero => cases h
  | succ turns ih =>
    rw [lowest] at h
    split at h
    case isFalse => cases h
    case isTrue hle =>
      split at h
      case isTrue hfree =>
        cases h
        refine ⟨le_rfl, hle, ?_⟩
        intro a ha heq
        apply hfree
        rw [any_entries]
        exact ⟨a, ha, decide_eq_true heq⟩
      case isFalse =>
        split at h
        · obtain ⟨hfirst, hrest⟩ := ih h
          exact ⟨by omega, hrest⟩
        · cases h

theorem reserve_ok (h : d.reserve device = .ok (domain, d')) :
    Lib.entries d'.entries = ⟨device, domain⟩ ::ₘ Lib.entries d.entries
      ∧ d.start ≤ domain ∧ domain < 2 ^ 32 ∧ d'.start = d.start
      ∧ ∀ a ∈ Lib.entries d.entries, a.domain ≠ domain ∧ a.device ≠ device := by
  unfold reserve at h
  split at h
  · cases h
  rename_i hnew
  split at h
  · cases h
  rename_i slot hslot
  split at h
  · cases h
  rename_i lowest hlowest
  cases h
  obtain ⟨hstart, hstop, hfree⟩ := lowest_ok hlowest
  have hnone : d.domain device = none := by
    cases hdom : d.domain device with
    | none => rfl
    | some _ => simp [hdom] at hnew
  refine ⟨entries_put (vacancy_some hslot) _, hstart, ?_, rfl, ?_⟩
  · exact hstop.trans_lt d.stop_lt
  · exact fun a ha => ⟨hfree a ha, domain_none hnone ha⟩

theorem release_ok (h : d.release device = .ok (domain, d')) :
    ⟨device, domain⟩ ::ₘ Lib.entries d'.entries = Lib.entries d.entries ∧ d'.start = d.start := by
  unfold release at h
  split at h
  case h_1 => cases h
  case h_2 slot domain' hfind =>
    cases h
    exact ⟨entries_clear (slotAt_some.mp (find_some hfind)), rfl⟩

theorem release_of_mem (h : ⟨device, domain⟩ ∈ Lib.entries d.entries) :
    ∃ domain' d', d.release device = .ok (domain', d') := by
  unfold release
  cases hfind : d.find device with
  | none => exact absurd rfl (find_none hfind h)
  | some found => exact ⟨_, _, rfl⟩

end Domains

-- == IOVA space

namespace IovaSpace

variable {s s' : IovaSpace} {start len align iova : Nat}

/-- What a reservation says: the range is new, whole, and apart from every
range that was there. -/
structure Reserved (s : IovaSpace) (len iova : Nat) (s' : IovaSpace) : Prop where
  ranges : entries s'.ranges = ⟨iova, len⟩ ::ₘ entries s.ranges
  positive : 0 < len
  fits : iova + len < 2 ^ 64
  apart : ∀ r ∈ entries s.ranges, r.start + r.len ≤ iova ∨ iova + len ≤ r.start

theorem reserveAt_ok (h : s.reserveAt start len = .ok (iova, s')) : Reserved s len iova s' := by
  unfold reserveAt at h
  split at h
  · cases h
  rename_i hlen
  split at h
  · cases h
  rename_i hfits
  split at h
  · cases h
  split at h
  · cases h
  rename_i hclear
  split at h
  · cases h
  rename_i free hfree
  cases h
  refine ⟨entries_put (vacancy_some hfree) _, by omega, by omega, ?_⟩
  intro r hr
  by_contra hmeets
  apply hclear
  rw [any_entries]
  refine ⟨r, hr, ?_⟩
  unfold Range.finish
  split
  case h_1 stop hstop =>
    split at hstop
    · cases hstop
      apply decide_eq_true
      omega
    · cases hstop
  case h_2 => rfl

theorem firstFit_ok {turns candidate : Nat}
    (h : s.firstFit len align turns candidate = .ok (iova, s')) : Reserved s len iova s' := by
  induction turns generalizing candidate with
  | zero => cases h
  | succ turns ih =>
    rw [firstFit] at h
    split at h
    · cases h
    split at h
    · cases h
    split at h
    case h_1 => cases h
    case h_2 => exact reserveAt_ok h
    case h_3 =>
      split at h
      · cases h
      · exact ih h

theorem reserve_ok (h : s.reserve len align = .ok (iova, s')) : Reserved s len iova s' := by
  unfold reserve at h
  split at h
  case isTrue => cases h
  case isFalse =>
    split at h
    · cases h
    · exact firstFit_ok h

theorem release_ok (h : s.release start len = .ok s') :
    ⟨start, len⟩ ::ₘ entries s'.ranges = entries s.ranges := by
  unfold release at h
  split at h
  · cases h
  rename_i slot u hpick
  cases h
  obtain ⟨range, hslot, htest⟩ := pick_some hpick
  split at htest
  case isTrue heq =>
    rw [heq] at hslot
    exact entries_clear (slotAt_some.mp hslot)
  case isFalse => cases htest

theorem release_of_mem (h : (⟨start, len⟩ : Range) ∈ entries s.ranges) :
    ∃ s', s.release start len = .ok s' := by
  unfold release
  split
  case h_1 hpick =>
    obtain ⟨i, hi⟩ := List.getElem?_of_mem (mem_entries.mp h)
    have := pick_none hpick (slotAt_some.mpr hi)
    rw [if_pos rfl] at this
    cases this
  case h_2 => exact ⟨_, rfl⟩

end IovaSpace

-- == requests

variable {m : Image} {domain iova last physical len : Nat} {endpoint : DeviceId}
  {perm : DmaPerm}

theorem decode_put_tail {n : Nat} {bs : List UInt8} (hn : 20 ≤ n) :
    decode (put m n bs) n = decode m n := by
  have hread : ∀ off w, off + w ≤ n → atLe (put m n bs) off w = atLe m off w :=
    fun off w h => atLe_put_of_disjoint (.inl h)
  unfold decode
  rw [hread 0 1 (by omega), hread 4 4 (by omega), hread 8 4 (by omega)]
  by_cases hmap : n = STATUS_AT_MAP
  · unfold STATUS_AT_MAP at hmap
    rw [hread 8 8 (by omega), hread 16 8 (by omega), hread 24 8 (by omega), hread 32 4 (by omega)]
  by_cases hunmap : n = STATUS_AT_UNMAP
  · unfold STATUS_AT_UNMAP at hunmap
    rw [hread 8 8 (by omega), hread 16 8 (by omega)]
    simp only [hmap, and_false, if_false]
  · simp only [hmap, hunmap, and_false, if_false]

theorem mapFlags_lt : mapFlags perm < 256 ^ 4 := by
  cases perm <;> decide

theorem atLe_leBytes {off w v : Nat} (hv : v < 256 ^ w) :
    atLe (put m off (leBytes w v)) off w = v := by
  rw [atLe_put_same, Nat.mod_eq_of_lt hv]

theorem atLe_leBytes_ne {off off' w w' v : Nat} (h : off + w ≤ off' ∨ off' + w' ≤ off) :
    atLe (put m off' (leBytes w' v)) off w = atLe m off w := by
  rw [atLe_put_of_disjoint]
  rwa [length_leBytes]

section

variable (hdomain : domain < 2 ^ 32)
include hdomain

theorem decode_encodeAttach :
    decode (encodeAttach domain endpoint) STATUS_AT_ATTACH
      = some (.attach domain endpoint.id) := by
  have hcode : atLe (encodeAttach domain endpoint) 0 1 = ATTACH := by
    unfold encodeAttach putU32 putU8
    rw [atLe_leBytes_ne (by omega), atLe_leBytes_ne (by omega), atLe_leBytes (by decide)]
  unfold decode
  rw [hcode, if_pos ⟨rfl, rfl⟩]
  unfold encodeAttach putU32
  rw [atLe_leBytes_ne (by omega), atLe_leBytes (by omega), atLe_leBytes endpoint.lt]

theorem decode_encodeDetach :
    decode (encodeDetach domain endpoint) STATUS_AT_ATTACH
      = some (.detach domain endpoint.id) := by
  have hcode : atLe (encodeDetach domain endpoint) 0 1 = DETACH := by
    unfold encodeDetach putU32 putU8
    rw [atLe_leBytes_ne (by omega), atLe_leBytes_ne (by omega), atLe_leBytes (by decide)]
  unfold decode
  rw [hcode, if_neg (by decide), if_pos ⟨rfl, rfl⟩]
  unfold encodeDetach putU32
  rw [atLe_leBytes_ne (by omega), atLe_leBytes (by omega), atLe_leBytes endpoint.lt]

theorem decode_encodeMap (hphysical : physical < 2 ^ 64)
    (hfits : iova + (len - 1) < 2 ^ 64) (h : encodeMap domain iova physical len perm = some m) :
    decode m STATUS_AT_MAP
      = some (.map domain iova (iova + (len - 1)) physical (mapFlags perm)) := by
  unfold encodeMap at h
  rw [if_pos hfits] at h
  cases h
  unfold decode putU64 putU32 putU8
  have hcode : ∀ m : Image, atLe (put m 0 (leBytes 1 MAP)) 0 1 = MAP :=
    fun m => atLe_leBytes (by decide)
  simp (disch := omega) only [atLe_leBytes_ne, hcode]
  rw [if_neg (by decide), if_neg (by decide), if_pos ⟨trivial, trivial⟩,
    atLe_leBytes (by omega), atLe_leBytes (by omega), atLe_leBytes (by omega),
    atLe_leBytes (by omega), atLe_leBytes mapFlags_lt]

theorem decode_encodeUnmap
    (hfits : iova + (len - 1) < 2 ^ 64) (h : encodeUnmap domain iova len = some m) :
    decode m STATUS_AT_UNMAP = some (.unmap domain iova (iova + (len - 1))) := by
  unfold encodeUnmap at h
  rw [if_pos hfits] at h
  cases h
  unfold decode putU64 putU32 putU8
  have hcode : ∀ m : Image, atLe (put m 0 (leBytes 1 UNMAP)) 0 1 = UNMAP :=
    fun m => atLe_leBytes (by decide)
  simp (disch := omega) only [atLe_leBytes_ne, hcode]
  rw [if_neg (by decide), if_neg (by decide), if_neg (by decide), if_pos ⟨trivial, trivial⟩,
    atLe_leBytes (by omega), atLe_leBytes (by omega), atLe_leBytes (by omega)]

end

-- == the queues

theorem publish_single {q : Queue} {h : Nat} {rest : List Nat} (hfree : q.free = h :: rest)
    (segment : Segment) :
    ∃ q', publish q [segment] = .ok (h, q') ∧ q'.size = q.size ∧ q'.usedSeen = q.usedSeen
      ∧ q'.free = rest ∧ (q'.table h).flags &&& NEXT = 0
      ∧ ∀ i ≠ h, q'.table i = q.table i := by
  unfold publish Queue.push Queue.available
  rw [hfree]
  dsimp only [length_cons, length_nil]
  rw [if_neg (by omega), if_neg (by omega)]
  refine ⟨_, rfl, rfl, rfl, rfl, ?_, ?_⟩
  · show (Queue.writeChain q.table [h] [segment] h).flags &&& NEXT = 0
    simp only [Queue.writeChain, Queue.writeDescriptor, if_pos]
    exact and_next_last _
  · intro i hi
    exact writeChain_ne (by simpa using hi)

theorem publish_pair {q : Queue} (hq : Sound ⟨q, []⟩) (htwo : 2 ≤ q.size) (a b : Segment) :
    ∃ head c q', publish q [a, b] = .ok (head, q') ∧ Sound ⟨q', [c]⟩ ∧ c.head? = some head
      ∧ q'.size = q.size ∧ q'.usedSeen = q.usedSeen := by
  have hlen : q.available = q.size := by
    have hperm := hq.parts.length_eq
    rw [length_append, length_range] at hperm
    exact hperm
  obtain ⟨q', hpush, hsize, hseen⟩ : ∃ q', q.push [a, b]
      = some (.ok ((q.free.take 2).headD 0), q') ∧ q'.size = q.size
        ∧ q'.usedSeen = q.usedSeen := by
    unfold Queue.push
    dsimp only [length_cons, length_nil]
    rw [if_neg (by omega), if_neg (by omega)]
    exact ⟨_, rfl, rfl, rfl⟩
  have hstep : (⟨q, []⟩ : Driver).step (.push [a, b]) = some ⟨q', [q.free.take 2]⟩ := by
    rw [Driver.step, hpush]
    rfl
  refine ⟨(q.free.take 2).headD 0, q.free.take 2, q', ?_, hq.push hstep, ?_, hsize, hseen⟩
  · unfold publish
    rw [hpush]
  obtain ⟨x, rest, hx⟩ : ∃ x rest, q.free = x :: rest := by
    cases hf : q.free with
    | nil =>
      rw [Queue.available, hf, length_nil] at hlen
      omega
    | cons x rest => exact ⟨x, rest, rfl⟩
  rw [hx]
  rfl

/-- Every event buffer is with the controller. -/
structure Supplied (d : Iommu) : Prop where
  pos : 0 < d.eventQueue.size
  small : d.eventQueue.size ≤ MAX_SIZE
  empty : d.eventQueue.free = []
  single : ∀ h < d.eventQueue.size, (d.eventQueue.table h).flags &&& NEXT = 0
  slots : ∀ h < d.eventQueue.size, ∃ slot, d.eventSlots h = some slot

theorem fill_ok {slots : List Nat} (hnd : slots.Nodup) :
    ∀ (q : Queue) (held : Nat → Option Nat), q.free = slots →
      ∃ q' at', fill q held slots = .ok (q', at') ∧ q'.size = q.size ∧ q'.free = []
        ∧ (∀ h ∈ slots, (q'.table h).flags &&& NEXT = 0 ∧ ∃ slot, at' h = some slot)
        ∧ ∀ h ∉ slots, q'.table h = q.table h ∧ at' h = held h := by
  induction slots with
  | nil =>
    intro q held hfree
    refine ⟨q, held, rfl, rfl, hfree, ?_, fun _ _ => ⟨rfl, rfl⟩⟩
    intro h hh
    cases hh
  | cons slot rest ih =>
    intro q held hfree
    obtain ⟨hslot, hrest⟩ := nodup_cons.mp hnd
    obtain ⟨q1, hpub, hsize, -, hfree1, hflag, htable⟩ := publish_single hfree (eventBuffer slot)
    obtain ⟨q', at', hfill, hsize', hempty, hin, hout⟩ :=
      ih hrest q1 (Function.update held slot (some slot)) hfree1
    refine ⟨q', at', ?_, hsize'.trans hsize, hempty, ?_, ?_⟩
    · rw [fill, hpub]
      exact hfill
    · intro h hh
      rcases mem_cons.mp hh with rfl | hh
      · obtain ⟨ht, hat⟩ := hout h hslot
        rw [ht, hat, Function.update_self]
        exact ⟨hflag, _, rfl⟩
      · exact hin h hh
    · intro h hh
      rw [mem_cons, not_or] at hh
      obtain ⟨hne, hh⟩ := hh
      obtain ⟨ht, hat⟩ := hout h hh
      rw [ht, hat, Function.update_of_ne hne]
      exact ⟨htable h hne, rfl⟩

-- == the faults

/-- What is asked of the controller: each record the driver finds new in the
event queue names one of the queue's buffers and fills it. -/
def Whole (size : Nat) : Nat → List Look → Prop
  | _, [] => True
  | seen, look :: looks =>
    look.ring.idx = seen ∨
      ((look.ring.entries (seen % size)).1 < size
        ∧ EVENT_BYTES ≤ (look.ring.entries (seen % size)).2)
      ∧ Whole size ((seen + 1) % 2 ^ 16) looks

/-- How far the event queue has been read after these looks. -/
def seenAfter : Nat → List Look → Nat
  | seen, [] => seen
  | seen, look :: looks =>
    if look.ring.idx = seen then seen else seenAfter ((seen + 1) % 2 ^ 16) looks

def WholeAll (size : Nat) : Nat → List (List Look) → Prop
  | _, [] => True
  | seen, looks :: rest => Whole size seen looks ∧ WholeAll size (seenAfter seen looks) rest

instance decidableWhole (size : Nat) : ∀ seen looks, Decidable (Whole size seen looks)
  | _, [] => .isTrue trivial
  | _, _ :: looks =>
    @instDecidableOr _ _ _ (@instDecidableAnd _ _ _ (decidableWhole size _ looks))

instance decidableWholeAll (size : Nat) : ∀ seen looks, Decidable (WholeAll size seen looks)
  | _, [] => .isTrue trivial
  | seen, looks :: rest =>
    letI := decidableWholeAll size (seenAfter seen looks) rest
    inferInstanceAs (Decidable (_ ∧ _))

def Polled (d d' : Iommu) : Prop :=
  d' = { d with
    eventQueue := d'.eventQueue, eventSlots := d'.eventSlots, lastFault := d'.lastFault }
  ∧ d'.eventQueue.size = d.eventQueue.size

theorem Polled.trans {d d' d'' : Iommu} (h : Polled d d') (h' : Polled d' d'') : Polled d d'' := by
  obtain ⟨h1, h2⟩ := h
  obtain ⟨h3, h4⟩ := h'
  refine ⟨?_, h4.trans h2⟩
  rw [h3, h1]

theorem Supplied.pop {d : Iommu} (h : Supplied d) {ring : UsedRing}
    (hnew : ring.idx ≠ d.eventQueue.usedSeen) {entry : Nat × Nat}
    (hentry : ring.entries (d.eventQueue.usedSeen % d.eventQueue.size) = entry)
    (hlt : entry.1 < d.eventQueue.size) :
    d.eventQueue.pop ring = (.ok (some ⟨entry.1, entry.2⟩), { d.eventQueue with
      free := [entry.1], usedSeen := (d.eventQueue.usedSeen + 1) % 2 ^ 16 }) := by
  have hsmall := h.small
  have hpos := h.pos
  unfold MAX_SIZE at hsmall
  have hmod : entry.1 % 2 ^ 16 = entry.1 := Nat.mod_eq_of_lt (by omega)
  have hwalk : d.eventQueue.walk d.eventQueue.size entry.1 [] = some [entry.1] := by
    obtain ⟨n, hn⟩ := Nat.exists_eq_add_one_of_ne_zero (Nat.pos_iff_ne_zero.mp hpos)
    rw [hn, Queue.walk, if_neg (by omega), if_neg (by simp), if_pos (h.single _ hlt), if_neg]
    rw [Queue.available, h.empty]
    simp only [length_nil, length_cons]
    omega
  unfold Queue.pop Queue.freeChain
  rw [if_neg hnew, hentry]
  dsimp only
  rw [hmod, hwalk, h.empty]
  rfl

/-- Polling returns every buffer of a whole fault to the queue. -/
theorem Supplied.pollFaults {looks : List Look} : ∀ {d : Iommu} (newest : Option Fault),
    Supplied d → Whole d.eventQueue.size d.eventQueue.usedSeen looks →
      ∃ fault d', d.pollFaults newest looks = (.ok fault, d') ∧ Supplied d' ∧ Polled d d'
        ∧ d'.eventQueue.usedSeen = seenAfter d.eventQueue.usedSeen looks := by
  induction looks with
  | nil => exact fun newest hd _ => ⟨newest, _, rfl, hd, ⟨rfl, rfl⟩, rfl⟩
  | cons look looks ih =>
    intro d newest hd hwhole
    rw [Iommu.pollFaults]
    by_cases hnew : look.ring.idx = d.eventQueue.usedSeen
    · have hpop : d.eventQueue.pop look.ring = (.ok none, d.eventQueue) := by
        rw [Queue.pop, if_pos hnew]
      rw [hpop, seenAfter, if_pos hnew]
      exact ⟨newest, d, rfl, hd, ⟨rfl, rfl⟩, rfl⟩
    obtain ⟨⟨hlt, hlen⟩, hrest⟩ := hwhole.resolve_left hnew
    rw [hd.pop hnew rfl hlt, seenAfter, if_neg hnew]
    generalize look.ring.entries (d.eventQueue.usedSeen % d.eventQueue.size) = entry at *
    obtain ⟨slot, hslot⟩ := hd.slots entry.1 hlt
    obtain ⟨q, hpub, hsize, hseen, hfree, hflag, htable⟩ := publish_single
      (q := { d.eventQueue with
        free := [entry.1], usedSeen := (d.eventQueue.usedSeen + 1) % 2 ^ 16 })
      rfl (eventBuffer slot)
    dsimp only
    rw [hslot]
    dsimp only
    rw [if_neg (by omega), hpub]
    -- the buffer is back, and the rest is as it was
    obtain ⟨fault, d', hpoll, hd', hsame, hafter⟩ := ih (d := { d with
        lastFault := some (look.record slot)
        eventQueue := q
        eventSlots := Function.update (Function.update d.eventSlots entry.1 none) entry.1
          (some slot) })
      (some (look.record slot))
      { pos := by show 0 < q.size; rw [hsize]; exact hd.pos
        small := by show q.size ≤ _; rw [hsize]; exact hd.small
        empty := hfree
        single := by
          intro h hh
          by_cases heq : h = entry.1
          · rw [heq]
            exact hflag
          · show (q.table h).flags &&& NEXT = 0
            rw [htable h heq]
            exact hd.single h (hsize ▸ hh)
        slots := by
          intro h hh
          by_cases heq : h = entry.1
          · exact ⟨slot, by rw [heq]; exact Function.update_self ..⟩
          · obtain ⟨slot', hslot'⟩ := hd.slots h (hsize ▸ hh)
            refine ⟨slot', ?_⟩
            show Function.update _ entry.1 _ h = _
            rw [Function.update_of_ne heq, Function.update_of_ne heq, hslot'] }
      (by
        show Whole q.size q.usedSeen looks
        rw [hsize, hseen]
        exact hrest)
    refine ⟨fault, d', hpoll, hd', Polled.trans ⟨rfl, hsize⟩ hsame, ?_⟩
    rw [hafter]
    show seenAfter q.usedSeen looks = _
    rw [hseen]

-- == the command

structure Idle (s : System) : Prop where
  supplied : Supplied s.driver
  queue : Sound ⟨s.driver.requestQueue, []⟩
  two : 2 ≤ s.driver.requestQueue.size
  divides : s.driver.requestQueue.size ∣ 2 ^ 16
  seen : s.driver.requestQueue.usedSeen = s.controller.posted % 2 ^ 16
  quiet : s.controller.waiting = []

/-- One request is outstanding: its chain, and where its status goes. -/
structure Pending (s : System) (head statusAt : Nat) (request : Request) (c : List Nat) :
    Prop where
  supplied : Supplied s.driver
  queue : Sound ⟨s.driver.requestQueue, [c]⟩
  first : c.head? = some head
  two : 2 ≤ s.driver.requestQueue.size
  divides : s.driver.requestQueue.size ∣ 2 ^ 16
  seen : s.driver.requestQueue.usedSeen = s.controller.posted % 2 ^ 16
  waiting : s.controller.waiting = [(head, statusAt)]
  told : decode s.driver.request statusAt = some request

structure Kept (s s' : System) : Prop where
  space : s'.driver.space = s.driver.space
  active : s'.driver.active = s.driver.active
  page : s'.driver.page = s.driver.page
  domains : s'.driver.domains = s.driver.domains
  held : s'.held = s.held
  torn : s'.torn = s.torn

theorem Kept.trans {s s' s'' : System} (h : Kept s s') (h' : Kept s' s'') : Kept s s'' :=
  ⟨h'.space.trans h.space, h'.active.trans h.active, h'.page.trans h.page,
    h'.domains.trans h.domains, h'.held.trans h.held, h'.torn.trans h.torn⟩

theorem Kept.eq {s s' : System} (h : Kept s s') : ∃ (d : Iommu) (c : Controller), s' = { s with
    driver := { d with
      space := s.driver.space, active := s.driver.active
      page := s.driver.page, domains := s.driver.domains }
    controller := c } := by
  refine ⟨s'.driver, s'.controller, ?_⟩
  rw [← h.space, ← h.active, ← h.page, ← h.domains, ← h.held, ← h.torn]

theorem Polled.kept {s : System} {d : Iommu} (h : Polled s.driver d) :
    Kept s { s with driver := d } := by
  obtain ⟨h, -⟩ := h
  refine ⟨?_, ?_, ?_, ?_, ?_, ?_⟩
  all_goals first | rfl | (show _ = _; rw [h])

def Settled (t t' : Tables) (request : Request) (r : Except CommandError Unit) : Prop :=
  match r with
  | .ok () => t' = t.accept request
  | .error _ => t' = t

theorem foldl_serve_quiet (answers : List UInt8) {s : System} (h : s.controller.waiting = []) :
    answers.foldl System.serve s = s := by
  induction answers with
  | nil => rfl
  | cons status answers ih =>
    have hserve : s.serve status = s := by
      rw [System.serve]
      split
      case h_1 => rfl
      case h_2 heq => rw [h] at heq; cases heq
    rw [foldl_cons, hserve]
    exact ih

theorem atLe_status {n : Nat} {status : UInt8} :
    atLe (put m n [status, 0, 0, 0]) n 1 = status.toNat := by
  rw [atLe, slice_put_of_subset (Nat.le_refl n) (by simp)]
  simp [leNat]

section Command

variable {s s' : System} {head statusAt : Nat} {request : Request} {c : List Nat}
  {rounds : List Round} {r : Except CommandError Unit}

section

variable (h : Pending s head statusAt request c)
include h

theorem Pending.serve (status : UInt8) :
    s.serve status = { s with
      driver := { s.driver with request := put s.driver.request statusAt [status, 0, 0, 0] }
      controller := {
        tables := if status.toNat = STATUS_OK then s.controller.tables.accept request
          else s.controller.tables
        waiting := []
        used := Function.update s.controller.used
          (s.controller.posted % s.driver.requestQueue.size) (head, 4)
        posted := s.controller.posted + 1 } } := by
  unfold System.serve
  rw [h.waiting]
  dsimp only
  rw [h.told]

theorem Pending.pop (status : UInt8)
    {d : Iommu} (hd : Polled (s.serve status).driver d) (hsupplied : Supplied d) :
    ∃ q, d.requestQueue.pop (s.serve status).controller.ring = (.ok (some ⟨head, 4⟩), q)
      ∧ Idle { s.serve status with driver := { d with requestQueue := q } } := by
  have hqueue : d.requestQueue = s.driver.requestQueue := by
    rw [hd.1, h.serve]
  rw [h.serve]
  let ring : UsedRing := ⟨(s.controller.posted + 1) % 2 ^ 16, Function.update s.controller.used
    (s.controller.posted % s.driver.requestQueue.size) (head, 4)⟩
  have hnew : ring.idx ≠ s.driver.requestQueue.usedSeen := by
    show (s.controller.posted + 1) % 2 ^ 16 ≠ _
    rw [h.seen]
    omega
  have hentry : ring.entries
      (s.driver.requestQueue.usedSeen % s.driver.requestQueue.size) = (head, 4) := by
    rw [h.seen, Nat.mod_mod_of_dvd _ h.divides]
    exact Function.update_self ..
  have hpop := h.queue.pop_eq hnew mem_cons_self hentry h.first
  have hhead : c.head? = some (ring.entries
      (s.driver.requestQueue.usedSeen % s.driver.requestQueue.size)).1 := by
    rw [hentry]
    exact h.first
  obtain ⟨used, -, -, hsound⟩ := h.queue.pop_head hnew mem_cons_self hhead
  rw [hpop] at hsound
  have hgone : [c].eraseP (fun c => decide (c.head? = some head)) = [] := by
    rw [eraseP_cons_of_pos (by rw [h.first]; exact decide_eq_true rfl)]
  rw [hqueue]
  refine ⟨_, hpop, ?_⟩
  refine ⟨?_, ?_, h.two, h.divides, ?_, rfl⟩
  · exact { hsupplied with }
  · rw [← hgone]
    exact hsound
  · rw [h.seen, Nat.mod_add_mod]

theorem Pending.poll {d : Iommu}
    (hd : Polled s.driver d) (hsupplied : Supplied d) :
    d.requestQueue.pop s.controller.ring = (.ok none, d.requestQueue)
      ∧ Pending { s with driver := d } head statusAt request c := by
  have hqueue : d.requestQueue = s.driver.requestQueue := by rw [hd.1]
  have hrequest : d.request = s.driver.request := by rw [hd.1]
  refine ⟨?_, hsupplied, ?_, h.first, ?_, ?_, ?_, h.waiting, ?_⟩
  · have hidx : s.controller.ring.idx = s.driver.requestQueue.usedSeen := h.seen.symm
    rw [hqueue, Queue.pop, if_pos hidx]
  · rw [hqueue]
    exact h.queue
  · rw [hqueue]
    exact h.two
  · rw [hqueue]
    exact h.divides
  · rw [hqueue]
    exact h.seen
  · rw [hrequest]
    exact h.told

end

/-- A request awaited is settled by its own status. -/
theorem Pending.await : ∀ {s : System}, Pending s head statusAt request c →
    WholeAll s.driver.eventQueue.size s.driver.eventQueue.usedSeen (rounds.map Round.looks) →
    s.await head statusAt rounds = some (r, s') →
    Idle s' ∧ Kept s s' ∧ Settled s.controller.tables s'.controller.tables request r := by
  induction rounds with
  | nil =>
    intro s _ _ hawait
    cases hawait
  | cons round rounds ih =>
    intro s h hwhole hawait
    obtain ⟨hlooks, hrest⟩ := hwhole
    rw [System.await] at hawait
    cases hanswers : round.answers with
    | nil =>
      rw [hanswers, foldl_nil] at hawait
      obtain ⟨fault, d, hpoll, hsupplied, hd, hseen⟩ := h.supplied.pollFaults none hlooks
      obtain ⟨hpop, hpending⟩ := h.poll hd hsupplied
      rw [hpoll] at hawait
      dsimp only at hawait
      rw [hpop] at hawait
      have hnext := ih hpending (by
          rw [hd.2, hseen]
          exact hrest)
        hawait
      exact ⟨hnext.1, hd.kept.trans hnext.2.1, hnext.2.2⟩
    | cons status answers =>
      have hquiet : (s.serve status).controller.waiting = [] := by rw [h.serve]
      have hevents : (s.serve status).driver.eventQueue = s.driver.eventQueue := by
        rw [h.serve]
      have hsupplied : Supplied (s.serve status).driver := by
        rw [h.serve]
        exact { h.supplied with }
      rw [hanswers, foldl_cons, foldl_serve_quiet answers hquiet] at hawait
      obtain ⟨fault, d, hpoll, hsupplied', hd, -⟩ :=
        hsupplied.pollFaults none (by rw [hevents]; exact hlooks)
      obtain ⟨q, hpop, hidle⟩ := h.pop status hd hsupplied'
      rw [hpoll] at hawait
      dsimp only at hawait
      rw [hpop] at hawait
      dsimp only at hawait
      have hstatus : atLe d.request statusAt 1 = status.toNat := by
        rw [hd.1, h.serve]
        exact atLe_status
      have hkept : Kept s { s.serve status with driver := { d with requestQueue := q } } := by
        rw [hd.1, h.serve]
        exact ⟨rfl, rfl, rfl, rfl, rfl, rfl⟩
      rw [if_neg (by omega), hstatus] at hawait
      split at hawait
      case isTrue hok =>
        cases hawait
        refine ⟨hidle, hkept, ?_⟩
        show (s.serve status).controller.tables = _
        rw [h.serve]
        exact if_pos hok
      case isFalse hbad =>
        cases hawait
        refine ⟨hidle, hkept, ?_⟩
        show (s.serve status).controller.tables = _
        rw [h.serve]
        exact if_neg hbad

theorem Idle.command (h : Idle s) (htold : decode s.driver.request statusAt = some request)
    (hat : 20 ≤ statusAt)
    (hwhole : WholeAll s.driver.eventQueue.size s.driver.eventQueue.usedSeen
      (rounds.map Round.looks))
    (hcommand : s.command statusAt rounds = some (r, s')) :
    Idle s' ∧ Kept s s' ∧ Settled s.controller.tables s'.controller.tables request r := by
  unfold System.command at hcommand
  obtain ⟨head, c, q, hpub, hsound, hfirst, hsize, hseen⟩ :=
    publish_pair h.queue h.two ⟨0, statusAt, false⟩ ⟨statusAt, 4, true⟩
  dsimp only [System.write] at hcommand
  rw [hpub] at hcommand
  rw [h.quiet] at hcommand
  have hpending : Pending { s with
      driver := { s.driver with
        request := putU8 s.driver.request statusAt 0xff, requestQueue := q }
      controller := { s.controller with waiting := [] ++ [(head, statusAt)] }
      torn := s.torn || !([] : List (Nat × Nat)).isEmpty } head statusAt request c := by
    refine ⟨?_, hsound, hfirst, ?_, ?_, ?_, rfl, ?_⟩
    · exact { h.supplied with }
    · rw [hsize]
      exact h.two
    · rw [hsize]
      exact h.divides
    · rw [hseen]
      exact h.seen
    · rw [putU8, decode_put_tail hat]
      exact htold
  obtain ⟨hidle, hkept, hsettled⟩ := hpending.await hwhole hcommand
  refine ⟨hidle, { hkept with torn := ?_ }, hsettled⟩
  rw [hkept.torn]
  exact Bool.or_false _

end Command

-- == the mirror

/-- The translation of a mapping that is handed out. -/
def Held.entry (h : Held) : Entry :=
  ⟨h.domain, h.mapping.iova, h.mapping.iova + (h.mapping.region.len - 1),
    h.mapping.region.physical, mapFlags h.mapping.perm⟩

def Held.range (h : Held) : Range := ⟨h.mapping.iova, h.mapping.region.len⟩

def Held.active (h : Held) : Active :=
  ⟨h.mapping.device, h.domain, h.mapping.iova, h.mapping.region.len, h.mapping.perm⟩

def Region.span (r : Region) : Span := ⟨r.physical, r.physical + r.len⟩

/-- The device-visible addresses of a mapping. -/
def Held.iovas (h : Held) : Span := ⟨h.mapping.iova, h.mapping.iova + h.mapping.region.len⟩

/-- The memory a translation leads to. -/
def Entry.span (e : Entry) : Span := ⟨e.physical, e.physical + (e.last - e.iova + 1)⟩

/-- What the controller holds is what the driver has on record. -/
structure Mirror (s : System) : Prop where
  attachments : (s.controller.tables.attached : Multiset (Nat × Nat))
    = (entries s.driver.domains.entries).map fun a => (a.device.id, a.domain)
  mappings : s.controller.tables.mappings.Perm (s.held.map Held.entry)
  reserved : entries s.driver.space.ranges = (s.held.map Held.range : List Range)
  active : entries s.driver.active = (s.held.map Held.active : List Active)
  devices : ((entries s.driver.domains.entries).map Attachment.device).Nodup
  domains : ((entries s.driver.domains.entries).map Attachment.domain).Nodup
  nonzero : ∀ a ∈ entries s.driver.domains.entries, a.domain ≠ 0
  home : ∀ h ∈ s.held, ⟨h.mapping.device, h.domain⟩ ∈ entries s.driver.domains.entries
  disjoint : s.held.Pairwise fun a b => a.iovas.Apart b.iovas
  settled : s.controller.waiting = []
  untorn : s.torn = false

/-- The mirror between calls, with what keeps it. -/
structure Inv (s : System) : Prop extends Mirror s, Idle s where
  first : 1 ≤ s.driver.domains.start
  bounded : ∀ a ∈ entries s.driver.domains.entries, a.domain < 2 ^ 32
  whole : ∀ h ∈ s.held, 0 < h.mapping.region.len ∧ h.mapping.iova + h.mapping.region.len < 2 ^ 64

/-- The region given back is one that nothing translates to, as far as it
shares no memory with a mapping that is still held. -/
def Untranslated (s : System) (region : Region) : Prop :=
  (∀ h ∈ s.held, h.mapping.region.span.Apart region.span) →
    ∀ e ∈ s.controller.tables.mappings, e.span.Apart region.span

def Told (s : System) (call : Call) (answer : Answer) (s' : System) : Prop :=
  match call, answer with
  | .attach endpoint _, .told (.ok ()) => ∃ domain,
      (s'.controller.tables.attached : Multiset (Nat × Nat))
        = (endpoint.id, domain) ::ₘ (s.controller.tables.attached : Multiset (Nat × Nat))
      ∧ s'.controller.tables.mappings = s.controller.tables.mappings
  | .detach endpoint _, .told (.ok ()) => ∃ domain,
      (s.controller.tables.attached : Multiset (Nat × Nat))
        = (endpoint.id, domain) ::ₘ (s'.controller.tables.attached : Multiset (Nat × Nat))
      ∧ s'.controller.tables.mappings = s.controller.tables.mappings
  | .map device region perm _, .mapped (.ok mapping) => ∃ domain,
      mapping.device = device ∧ mapping.region = region ∧ mapping.perm = perm
      ∧ (device.id, domain) ∈ s.controller.tables.attached
      ∧ s'.controller.tables.mappings
        = Held.entry ⟨mapping, domain⟩ :: s.controller.tables.mappings
      ∧ s'.controller.tables.attached = s.controller.tables.attached
  | .map _ region _ _, .mapped (.error (_, back)) =>
    back = region ∧ s'.controller.tables = s.controller.tables ∧ Untranslated s' back
  | .unmap k _, .unmapped (.ok back) => ∃ h, s.held[k]? = some h ∧ back = h.mapping.region
      ∧ s.controller.tables.mappings.Perm (h.entry :: s'.controller.tables.mappings)
      ∧ s'.controller.tables.attached = s.controller.tables.attached ∧ Untranslated s' back
  | _, _ => s'.controller.tables = s.controller.tables

/-- What the looks of a call at the event queue find. -/
def Call.looks : Call → List (List Look)
  | .attach _ rounds | .detach _ rounds | .map _ _ _ rounds | .unmap _ rounds =>
    rounds.map Round.looks
  | .pollFaults looks => [looks]
  | .serve _ => []

/-- What is asked of the controller during a call. -/
def Meets (s : System) (call : Call) : Prop :=
  WholeAll s.driver.eventQueue.size s.driver.eventQueue.usedSeen call.looks

instance (s : System) (call : Call) : Decidable (Meets s call) :=
  inferInstanceAs (Decidable (WholeAll _ _ _))

section Calls

variable {s s' : System} {rounds : List Round} {endpoint device : DeviceId}

theorem Entry.span_of_held {h : Held} (hlen : 0 < h.mapping.region.len) :
    h.entry.span = h.mapping.region.span := by
  unfold Entry.span Region.span Held.entry
  congr 1
  dsimp only
  omega

theorem Inv.untranslated (h : Inv s) (region : Region) : Untranslated s region := by
  intro hapart e he
  obtain ⟨held, hheld, rfl⟩ := mem_map.mp (h.mappings.mem_iff.mp he)
  rw [Entry.span_of_held (h.whole held hheld).1]
  exact hapart held hheld

section

variable {a b : Attachment} (h : Inv s) (ha : a ∈ entries s.driver.domains.entries)
  (hb : b ∈ entries s.driver.domains.entries)
include h ha hb

theorem Inv.device_inj (heq : a.device = b.device) : a = b :=
  Multiset.inj_on_of_nodup_map h.devices a ha b hb heq

theorem Inv.domain_inj (heq : a.domain = b.domain) : a = b :=
  Multiset.inj_on_of_nodup_map h.domains a ha b hb heq

end

instance : Std.Symm fun a b : Held => a.iovas.Apart b.iovas := ⟨fun _ _ h => h.symm⟩

theorem Inv.held_inj (h : Inv s) {a b : Held} (ha : a ∈ s.held) (hb : b ∈ s.held)
    (heq : a.range = b.range) : a = b := by
  by_contra hne
  have hlen := (h.whole a ha).1
  have hiova : a.mapping.iova = b.mapping.iova := congrArg Range.start heq
  have hsame : a.mapping.region.len = b.mapping.region.len := congrArg Range.len heq
  have hapart : a.iovas.Apart b.iovas := h.disjoint.forall ha hb hne
  unfold Span.Apart Held.iovas at hapart
  dsimp only at hapart
  omega

-- -- attach

theorem Idle.write (h : Idle s) (request : Image) :
    Idle (s.write request) ∧ Kept s (s.write request) := by
  refine ⟨{ h with supplied := ?_ }, rfl, rfl, rfl, rfl, rfl, ?_⟩
  · exact { h.supplied with }
  · show (s.torn || !s.controller.waiting.isEmpty) = s.torn
    rw [h.quiet]
    exact Bool.or_false _

theorem Idle.send (h : Idle s) {m : Image} {statusAt : Nat} {request : Request}
    {r : Except CommandError Unit} (htold : decode m statusAt = some request)
    (hat : 20 ≤ statusAt)
    (hwhole : WholeAll s.driver.eventQueue.size s.driver.eventQueue.usedSeen
      (rounds.map Round.looks))
    (hsend : (s.write m).command statusAt rounds = some (r, s')) :
    Idle s' ∧ Kept s s' ∧ Settled s.controller.tables s'.controller.tables request r := by
  obtain ⟨hidle, hkept⟩ := h.write m
  obtain ⟨hidle', hkept', hsettled⟩ := hidle.command htold hat hwhole hsend
  exact ⟨hidle', hkept.trans hkept', hsettled⟩

theorem Idle.setDomains (h : Idle s) (domains : Domains) : Idle (s.setDomains domains) :=
  { h with supplied := { h.supplied with } }

theorem Idle.setSpace (h : Idle s) (space : IovaSpace) : Idle (s.setSpace space) :=
  { h with supplied := { h.supplied with } }

theorem Inv.kept (h : Inv s) (hidle : Idle s') (hkept : Kept s s')
    (htables : s'.controller.tables = s.controller.tables) : Inv s' := by
  obtain ⟨d, c, rfl⟩ := hkept.eq
  exact { h with
    toIdle := hidle
    attachments := htables ▸ h.attachments
    mappings := htables ▸ h.mappings
    settled := hidle.quiet }

theorem Inv.attach (h : Inv s) (hmeets : Meets s (.attach endpoint rounds))
    {r : Except CommandError Unit} (hcall : s.attach endpoint rounds = some (r, s')) :
    Inv s' ∧ Told s (.attach endpoint rounds) (.told r) s' := by
  unfold System.attach at hcall
  split at hcall
  · cases hcall
    exact ⟨h, rfl⟩
  rename_i domain domains hreserve
  obtain ⟨hentries, hstart, hlt, hfirst, hfresh⟩ := Domains.reserve_ok hreserve
  split at hcall
  case h_1 => cases hcall
  case h_2 s1 hcommand =>
    cases hcall
    obtain ⟨hidle, hkept, hsettled⟩ := (h.toIdle.setDomains domains).send
      (decode_encodeAttach hlt) (by decide) hmeets hcommand
    obtain ⟨d, c, rfl⟩ := hkept.eq
    have hnew : s.controller.tables.attached.filter (fun a => a.1 ≠ endpoint.id)
        = s.controller.tables.attached := by
      rw [filter_eq_self]
      intro a ha
      have ha : a ∈ (entries s.driver.domains.entries).map fun a => (a.device.id, a.domain) :=
        h.attachments ▸ Multiset.mem_coe.mpr ha
      obtain ⟨b, hb, rfl⟩ := Multiset.mem_map.mp ha
      refine decide_eq_true ?_
      intro heq
      apply (hfresh b hb).2
      cases hd : b.device
      cases endpoint
      rw [hd] at heq
      congr
    have htables : c.tables = { s.controller.tables with
        attached := (endpoint.id, domain) :: s.controller.tables.attached } := by
      rw [show c.tables = _ from hsettled]
      show Tables.accept s.controller.tables _ = _
      unfold Tables.accept
      dsimp only
      rw [hnew]
    have hkeep (P : Nat → Prop) (hp : P domain) (hps : ∀ a ∈ entries s.driver.domains.entries,
        P a.domain) : ∀ a ∈ entries domains.entries, P a.domain := by
      rw [hentries]
      intro a ha
      rcases Multiset.mem_cons.mp ha with rfl | ha
      · exact hp
      · exact hps a ha
    refine ⟨?_, domain, ?_, ?_⟩
    · exact { h with
        toIdle := hidle
        attachments := by
          show (c.tables.attached : Multiset (Nat × Nat)) = (entries domains.entries).map _
          rw [htables, hentries, Multiset.map_cons, ← h.attachments]
          rfl
        mappings := htables ▸ h.mappings
        devices := by
          show ((entries domains.entries).map _).Nodup
          rw [hentries, Multiset.map_cons, Multiset.nodup_cons]
          refine ⟨?_, h.devices⟩
          intro hmem
          obtain ⟨a, ha, heq⟩ := Multiset.mem_map.mp hmem
          exact (hfresh a ha).2 heq
        domains := by
          show ((entries domains.entries).map _).Nodup
          rw [hentries, Multiset.map_cons, Multiset.nodup_cons]
          refine ⟨?_, h.domains⟩
          intro hmem
          obtain ⟨a, ha, heq⟩ := Multiset.mem_map.mp hmem
          exact (hfresh a ha).1 heq
        nonzero := hkeep (· ≠ 0) (by have := h.first; omega) h.nonzero
        home := fun held hheld => hentries ▸ Multiset.mem_cons_of_mem (h.home held hheld)
        settled := hidle.quiet
        first := hfirst ▸ h.first
        bounded := hkeep (· < 2 ^ 32) hlt h.bounded }
    · exact congrArg (fun t : Tables => (t.attached : Multiset (Nat × Nat))) htables
    · show c.tables.mappings = _
      rw [htables]
  case h_3 e s1 hcommand =>
    cases hcall
    obtain ⟨hidle, hkept, hsettled⟩ := (h.toIdle.setDomains domains).send
      (decode_encodeAttach hlt) (by decide) hmeets hcommand
    have hdomains : s1.driver.domains = domains := hkept.domains
    -- the reservation is taken back
    have hin : (⟨endpoint, domain⟩ : Attachment) ∈ entries domains.entries := by
      rw [hentries]
      exact Multiset.mem_cons_self _ _
    obtain ⟨domain', back, hrelease⟩ := Domains.release_of_mem hin
    obtain ⟨hback, hstart'⟩ := Domains.release_ok hrelease
    have hforget : s1.forget endpoint = s1.setDomains back := by
      rw [System.forget, hdomains, hrelease]
    rw [hforget]
    have hsame : entries back.entries = entries s.driver.domains.entries := by
      have hmem : (⟨endpoint, domain'⟩ : Attachment) ∈ entries domains.entries := by
        rw [← hback]
        exact Multiset.mem_cons_self _ _
      rw [hentries] at hmem hback
      rcases Multiset.mem_cons.mp hmem with heq | hmem
      · obtain rfl : domain' = domain := congrArg Attachment.domain heq
        exact (Multiset.cons_inj_right _).mp hback
      · exact absurd rfl (hfresh _ hmem).2
    obtain ⟨d, c, rfl⟩ := hkept.eq
    have htables : c.tables = s.controller.tables := hsettled
    refine ⟨?_, htables⟩
    exact { h with
      toIdle := hidle.setDomains back
      attachments := htables ▸ hsame ▸ h.attachments
      mappings := htables ▸ h.mappings
      devices := hsame ▸ h.devices
      domains := hsame ▸ h.domains
      nonzero := hsame ▸ h.nonzero
      home := hsame ▸ h.home
      settled := hidle.quiet
      first := (hstart'.trans hfirst).symm ▸ h.first
      bounded := hsame ▸ h.bounded }

-- -- detach

theorem Inv.domain_empty (h : Inv s) {domain : Nat}
    (hactive : ¬ s.driver.active.any fun slot => slot.any fun entry => entry.device = endpoint)
    (hmem : ⟨endpoint, domain⟩ ∈ entries s.driver.domains.entries) :
    ∀ held ∈ s.held, held.domain ≠ domain := by
  intro held hheld hdomain
  apply hactive
  rw [any_entries, h.active]
  refine ⟨held.active, Multiset.mem_coe.mpr (mem_map_of_mem hheld), ?_⟩
  have heq := h.domain_inj (h.home held hheld) hmem hdomain
  exact decide_eq_true (congrArg Attachment.device heq)

theorem Inv.accept_detach (h : Inv s) {domain : Nat}
    (hempty : ∀ held ∈ s.held, held.domain ≠ domain) {rest : Multiset Attachment}
    (hrest : ⟨endpoint, domain⟩ ::ₘ rest = entries s.driver.domains.entries) :
    ((s.controller.tables.accept (.detach domain endpoint.id)).attached : Multiset (Nat × Nat))
        = rest.map (fun a => (a.device.id, a.domain))
      ∧ (s.controller.tables.accept (.detach domain endpoint.id)).mappings
        = s.controller.tables.mappings := by
  have hgone : ∀ a ∈ rest, a.domain ≠ domain := by
    intro a ha hdomain
    have hnd := h.domains
    rw [← hrest, Multiset.map_cons, Multiset.nodup_cons] at hnd
    exact hnd.1 (Multiset.mem_map.mpr ⟨a, ha, hdomain⟩)
  have hattached : ((s.controller.tables.attached.filter fun a => a ≠ (endpoint.id, domain) :
      List (Nat × Nat)) : Multiset (Nat × Nat)) = rest.map fun a => (a.device.id, a.domain) := by
    rw [← Multiset.filter_coe, h.attachments, ← hrest, Multiset.map_cons,
      Multiset.filter_cons_of_neg _ (by simp), Multiset.filter_eq_self]
    intro a ha
    obtain ⟨b, hb, rfl⟩ := Multiset.mem_map.mp ha
    intro heq
    exact hgone b hb (congrArg Prod.snd heq)
  have hmappings : s.controller.tables.mappings.filter (fun e => e.domain ≠ domain)
      = s.controller.tables.mappings := by
    rw [filter_eq_self]
    intro e he
    obtain ⟨held, hheld, rfl⟩ := mem_map.mp (h.mappings.mem_iff.mp he)
    exact decide_eq_true (hempty held hheld)
  unfold Tables.accept
  dsimp only
  split
  · exact ⟨hattached, rfl⟩
  · exact ⟨hattached, hmappings⟩

theorem Inv.detach (h : Inv s) (hmeets : Meets s (.detach endpoint rounds))
    {r : Except CommandError Unit} (hcall : s.detach endpoint rounds = some (r, s')) :
    Inv s' ∧ Told s (.detach endpoint rounds) (.told r) s' := by
  unfold System.detach at hcall
  split at hcall
  · cases hcall
    exact ⟨h, rfl⟩
  rename_i hactive
  split at hcall
  · cases hcall
    exact ⟨h, rfl⟩
  rename_i domain hdomain
  have hmem := Domains.domain_some hdomain
  have htold : decode (encodeDetach domain endpoint) STATUS_AT_ATTACH = _ :=
    decode_encodeDetach (h.bounded _ hmem)
  split at hcall
  · cases hcall
  · rename_i e s1 hcommand
    cases hcall
    obtain ⟨hidle, hkept, hsettled⟩ := h.toIdle.send htold (by decide) hmeets hcommand
    exact ⟨h.kept hidle hkept hsettled, hsettled⟩
  rename_i s1 hcommand
  obtain ⟨hidle, hkept, hsettled⟩ := h.toIdle.send htold (by decide) hmeets hcommand
  obtain ⟨d, c, rfl⟩ := hkept.eq
  dsimp only at hcall
  obtain ⟨domain', domains, hrelease⟩ := Domains.release_of_mem hmem
  rw [hrelease] at hcall
  cases hcall
  obtain ⟨hback, hstart⟩ := Domains.release_ok hrelease
  obtain rfl : domain' = domain := by
    have hmem' : (⟨endpoint, domain'⟩ : Attachment) ∈ entries s.driver.domains.entries := by
      rw [← hback]
      exact Multiset.mem_cons_self _ _
    exact congrArg Attachment.domain (h.device_inj hmem' hmem rfl)
  obtain ⟨hattached, hmappings⟩ := h.accept_detach (h.domain_empty hactive hmem) hback
  rw [← show c.tables = _ from hsettled] at hattached hmappings
  have hsub : entries domains.entries ≤ entries s.driver.domains.entries := by
    rw [← hback]
    exact Multiset.le_cons_self _ _
  refine ⟨?_, domain', ?_, hmappings⟩
  · exact { h with
      toIdle := hidle.setDomains domains
      attachments := hattached
      mappings := hmappings ▸ h.mappings
      devices := Multiset.nodup_of_le (Multiset.map_le_map hsub) h.devices
      domains := Multiset.nodup_of_le (Multiset.map_le_map hsub) h.domains
      nonzero := fun a ha => h.nonzero a (Multiset.mem_of_le hsub ha)
      home := by
        intro held hheld
        have hin := h.home held hheld
        rw [← hback] at hin
        rcases Multiset.mem_cons.mp hin with heq | hin
        · exact absurd (congrArg Attachment.domain heq) (h.domain_empty hactive hmem held hheld)
        · exact hin
      settled := hidle.quiet
      first := hstart ▸ h.first
      bounded := fun a ha => h.bounded a (Multiset.mem_of_le hsub ha) }
  · show _ = _ ::ₘ (c.tables.attached : Multiset (Nat × Nat))
    rw [h.attachments, hattached, ← hback, Multiset.map_cons]

-- -- map

theorem Inv.map (h : Inv s) {region : Region} {perm : DmaPerm}
    (hmeets : Meets s (.map device region perm rounds))
    {r : Except (DmaError × Region) Mapping}
    (hcall : s.map device region perm rounds = some (r, s')) :
    Inv s' ∧ Told s (.map device region perm rounds) (.mapped r) s' := by
  unfold System.map at hcall
  split at hcall
  · cases hcall
    exact ⟨h, rfl, rfl, h.untranslated region⟩
  rename_i domain hdomain
  split at hcall
  · cases hcall
    exact ⟨h, rfl, rfl, h.untranslated region⟩
  split at hcall
  · cases hcall
    exact ⟨h, rfl, rfl, h.untranslated region⟩
  rename_i slot hslot
  split at hcall
  · cases hcall
    exact ⟨h, rfl, rfl, h.untranslated region⟩
  rename_i iova space hreserve
  have hres := IovaSpace.reserve_ok hreserve
  have hmem := Domains.domain_some hdomain
  have hlt := h.bounded _ hmem
  have hfits : iova + (region.len - 1) < 2 ^ 64 := by
    have := hres.fits
    omega
  obtain ⟨m, hm⟩ : ∃ m, encodeMap domain iova region.physical region.len perm
      = some m := by
    rw [encodeMap, if_pos hfits]
    exact ⟨_, rfl⟩
  have htold := decode_encodeMap hlt region.physical_lt hfits hm
  rw [hm] at hcall
  split at hcall
  case h_1 => cases hcall
  case h_2 e s1 hsend =>
    obtain ⟨hidle, hkept, hsettled⟩ :=
      (h.toIdle.setSpace space).send htold (by decide) hmeets hsend
    have hspace : s1.driver.space = space := hkept.space
    -- the reservation is taken back
    have hin : (⟨iova, region.len⟩ : Range) ∈ entries space.ranges := by
      rw [hres.ranges]
      exact Multiset.mem_cons_self _ _
    obtain ⟨back, hback⟩ := IovaSpace.release_of_mem hin
    rw [hspace, hback] at hcall
    cases hcall
    have hranges : entries back.ranges = entries s.driver.space.ranges := by
      have := IovaSpace.release_ok hback
      rw [hres.ranges] at this
      exact (Multiset.cons_inj_right _).mp this
    obtain ⟨d, c, rfl⟩ := hkept.eq
    have htables : c.tables = s.controller.tables := hsettled
    refine ⟨?inv, rfl, htables, Inv.untranslated ?inv region⟩
    exact { h with
      toIdle := hidle.setSpace back
      attachments := htables ▸ h.attachments
      mappings := htables ▸ h.mappings
      reserved := hranges ▸ h.reserved
      settled := hidle.quiet }
  case h_3 s1 hsend =>
    obtain ⟨hidle, hkept, hsettled⟩ :=
      (h.toIdle.setSpace space).send htold (by decide) hmeets hsend
    obtain ⟨d, c, rfl⟩ := hkept.eq
    cases hcall
    have htables : c.tables = s.controller.tables.accept
        (.map domain iova (iova + (region.len - 1)) region.physical (mapFlags perm)) :=
      hsettled
    have hattached : c.tables.attached = s.controller.tables.attached := by
      rw [htables]
      rfl
    refine ⟨?_, domain, rfl, rfl, rfl, ?_, ?_, hattached⟩
    · exact { h with
        toIdle := { hidle with supplied := { hidle.supplied with } }
        attachments := hattached ▸ h.attachments
        mappings := by
          show c.tables.mappings.Perm _
          rw [htables]
          exact h.mappings.cons _
        reserved := by
          show entries space.ranges = _
          rw [hres.ranges, h.reserved]
          rfl
        active := by
          show entries (s.driver.active.set slot _) = _
          rw [entries_put (vacancy_some hslot), h.active]
          rfl
        home := forall_mem_cons.mpr ⟨hmem, h.home⟩
        disjoint := by
          refine pairwise_cons.mpr ⟨?_, h.disjoint⟩
          intro held hmem'
          have hrange : held.range ∈ entries s.driver.space.ranges := by
            rw [h.reserved]
            exact Multiset.mem_coe.mpr (mem_map_of_mem hmem')
          have := hres.apart _ hrange
          unfold Span.Apart Held.iovas
          unfold Held.range at this
          dsimp only at this ⊢
          omega
        settled := hidle.quiet
        whole := forall_mem_cons.mpr ⟨⟨hres.positive, hres.fits⟩, h.whole⟩ }
    · have hin : (device.id, domain) ∈ (s.controller.tables.attached : Multiset (Nat × Nat)) := by
        rw [h.attachments]
        exact Multiset.mem_map.mpr ⟨_, hmem, rfl⟩
      exact Multiset.mem_coe.mp hin
    · show c.tables.mappings = _
      rw [htables]
      rfl

-- -- unmap

theorem apart_of_eraseIdx {l : List Held} {k : Nat} {a : Held}
    (hl : l.Pairwise fun a b => a.iovas.Apart b.iovas) (hk : l[k]? = some a) :
    ∀ b ∈ l.eraseIdx k, a.iovas.Apart b.iovas := by
  induction l generalizing k with
  | nil => cases hk
  | cons x l ih =>
    obtain ⟨hx, hl⟩ := pairwise_cons.mp hl
    cases k with
    | zero =>
      obtain rfl : x = a := by simpa using hk
      exact hx
    | succ k =>
      have hk : l[k]? = some a := by simpa using hk
      intro b hb
      rcases mem_cons.mp hb with rfl | hb
      · exact (hx a (mem_of_getElem? hk)).symm
      · exact ih hl hk b hb

theorem perm_eraseIdx {α : Type} {l : List α} {k : Nat} {a : α} (hk : l[k]? = some a) :
    l.Perm (a :: l.eraseIdx k) := by
  obtain ⟨hlt, rfl⟩ := List.getElem?_eq_some_iff.mp hk
  exact (getElem_cons_eraseIdx_perm hlt).symm

theorem Inv.accept_unmap (h : Inv s) {k : Nat} {held : Held} (hk : s.held[k]? = some held) :
    (s.controller.tables.accept (.unmap held.domain held.mapping.iova
      (held.mapping.iova + (held.mapping.region.len - 1)))).mappings.Perm
      ((s.held.eraseIdx k).map Held.entry) := by
  have hperm := h.mappings.trans ((perm_eraseIdx hk).map Held.entry)
  refine (hperm.filter _).trans ?_
  rw [map_cons, filter_cons_of_neg, filter_eq_self.mpr]
  · intro e he
    obtain ⟨other, hother, rfl⟩ := mem_map.mp he
    have hapart := apart_of_eraseIdx h.disjoint hk other hother
    have hlen := (h.whole other (mem_of_mem_eraseIdx hother)).1
    have hlen' := (h.whole held (mem_of_getElem? hk)).1
    unfold Span.Apart Held.iovas at hapart
    dsimp only at hapart
    apply decide_eq_true
    rintro ⟨-, hlow, hhigh⟩
    unfold Held.entry at hlow hhigh
    dsimp only at hlow hhigh
    omega
  · simp [Held.entry]

theorem Inv.owned (h : Inv s) {k slot domain : Nat} {held : Held}
    (hk : s.held[k]? = some held)
    (hpick : pick (System.owns held.mapping) s.driver.active = some (slot, domain)) :
    s.driver.active[slot]? = some (some held.active) ∧ domain = held.domain := by
  obtain ⟨entry, hslot, htest⟩ := pick_some hpick
  unfold System.owns at htest
  split at htest
  case isFalse => cases htest
  case isTrue hmatch =>
    obtain ⟨-, hiova, hlen, -⟩ := hmatch
    have hmem : entry ∈ entries s.driver.active :=
      mem_entries.mpr (mem_of_getElem? (slotAt_some.mp hslot))
    rw [h.active] at hmem
    obtain ⟨other, hother, rfl⟩ := mem_map.mp (Multiset.mem_coe.mp hmem)
    have hrange : other.range = held.range := by
      unfold Held.range
      rw [show other.mapping.iova = _ from hiova, show other.mapping.region.len = _ from hlen]
    obtain rfl := h.held_inj hother (mem_of_getElem? hk) hrange
    exact ⟨slotAt_some.mp hslot, (Option.some.inj htest).symm⟩

theorem Inv.unmap (h : Inv s) {k : Nat} {held : Held} (hk : s.held[k]? = some held)
    (hmeets : Meets s (.unmap k rounds)) {r : Except DmaError Region}
    (hcall : s.unmap k held.mapping rounds = some (r, s')) :
    Inv s' ∧ Told s (.unmap k rounds) (.unmapped r) s' := by
  unfold System.unmap at hcall
  split at hcall
  · cases hcall
    exact ⟨h, rfl⟩
  rename_i slot domain hpick
  obtain ⟨hslot, rfl⟩ := h.owned hk hpick
  have hheld := mem_of_getElem? hk
  have hlt := h.bounded _ (h.home held hheld)
  have hwhole := h.whole held hheld
  have hfits : held.mapping.iova + (held.mapping.region.len - 1) < 2 ^ 64 := by omega
  obtain ⟨m, hm⟩ : ∃ m, encodeUnmap held.domain held.mapping.iova held.mapping.region.len
      = some m := by
    rw [encodeUnmap, if_pos hfits]
    exact ⟨_, rfl⟩
  have htold := decode_encodeUnmap hlt hfits hm
  rw [hm] at hcall
  split at hcall
  · cases hcall
  · rename_i e s1 hsend
    cases hcall
    obtain ⟨hidle, hkept, hsettled⟩ := h.toIdle.send htold (by decide) hmeets hsend
    exact ⟨h.kept hidle hkept hsettled, hsettled⟩
  rename_i s1 hsend
  obtain ⟨hidle, hkept, hsettled⟩ := h.toIdle.send htold (by decide) hmeets hsend
  have hperm := perm_eraseIdx hk
  have hin : (⟨held.mapping.iova, held.mapping.region.len⟩ : Range)
      ∈ entries s.driver.space.ranges := by
    rw [h.reserved]
    exact Multiset.mem_coe.mpr (mem_map_of_mem hheld)
  obtain ⟨space, hrelease⟩ := IovaSpace.release_of_mem hin
  obtain ⟨d, c, rfl⟩ := hkept.eq
  dsimp only at hcall
  rw [hrelease] at hcall
  cases hcall
  have htables : c.tables = s.controller.tables.accept _ := hsettled
  have hattached : c.tables.attached = s.controller.tables.attached := by
    rw [htables]
    rfl
  have hmappings := h.accept_unmap hk
  rw [← htables] at hmappings
  refine ⟨?inv, held, hk, rfl, ?perm, hattached, Inv.untranslated ?inv _⟩
  case perm => exact (h.mappings.trans (hperm.map Held.entry)).trans (hmappings.symm.cons _)
  case inv =>
    exact { h with
      toIdle := { hidle with supplied := { hidle.supplied with } }
      attachments := hattached ▸ h.attachments
      mappings := hmappings
      reserved := by
        have hback := IovaSpace.release_ok hrelease
        rw [h.reserved, Multiset.coe_eq_coe.mpr (hperm.map Held.range)] at hback
        exact (Multiset.cons_inj_right _).mp hback
      active := by
        have hclear := entries_clear hslot
        rw [h.active, Multiset.coe_eq_coe.mpr (hperm.map Held.active)] at hclear
        exact (Multiset.cons_inj_right _).mp hclear
      home := fun other hother => h.home other (mem_of_mem_eraseIdx hother)
      disjoint := h.disjoint.sublist (eraseIdx_sublist _ _)
      settled := hidle.quiet
      whole := fun other hother => h.whole other (mem_of_mem_eraseIdx hother) }

-- -- any call

/-- Every call keeps the invariant and tells the caller the truth. -/
theorem Inv.call (h : Inv s) {call : Call} {answer : Answer} (hmeets : Meets s call)
    (hcall : s.call call = some (answer, s')) : Inv s' ∧ Told s call answer s' := by
  cases call with
  | attach endpoint rounds =>
    obtain ⟨⟨r, s1⟩, hattach, heq⟩ := Option.map_eq_some_iff.mp hcall
    cases heq
    exact h.attach hmeets hattach
  | detach endpoint rounds =>
    obtain ⟨⟨r, s1⟩, hdetach, heq⟩ := Option.map_eq_some_iff.mp hcall
    cases heq
    exact h.detach hmeets hdetach
  | map device region perm rounds =>
    obtain ⟨⟨r, s1⟩, hmap, heq⟩ := Option.map_eq_some_iff.mp hcall
    cases heq
    exact h.map hmeets hmap
  | unmap k rounds =>
    rw [System.call] at hcall
    split at hcall
    case h_1 =>
      cases hcall
      exact ⟨h, rfl⟩
    case h_2 held hk =>
      obtain ⟨⟨r, s1⟩, hunmap, heq⟩ := Option.map_eq_some_iff.mp hcall
      cases heq
      exact h.unmap hk hmeets hunmap
  | pollFaults looks =>
    obtain ⟨fault, d, hpoll, hsupplied, hd, -⟩ := h.supplied.pollFaults none hmeets.1
    rw [System.call, hpoll] at hcall
    cases hcall
    have hqueue : d.requestQueue = s.driver.requestQueue := by rw [hd.1]
    refine ⟨h.kept ⟨hsupplied, ?_, ?_, ?_, ?_, h.quiet⟩ hd.kept rfl, rfl⟩
    · rw [hqueue]
      exact h.queue
    · rw [hqueue]
      exact h.two
    · rw [hqueue]
      exact h.divides
    · rw [hqueue]
      exact h.seen
  | serve status =>
    have hserve : s.serve status = s := foldl_serve_quiet [status] h.quiet
    rw [System.call, hserve] at hcall
    cases hcall
    exact ⟨h, rfl⟩

end Calls

-- == the start

theorem new_eq {size : Nat} {q : Queue} (h : Queue.new size = .ok q) :
    0 < size ∧ size ≤ MAX_SIZE ∧ size ∣ 2 ^ 16
      ∧ q = ⟨size, fun _ => ⟨0, 0, 0, 0⟩, fun _ => 0, List.range size, 0, 0⟩ := by
  unfold Queue.new at h
  split at h
  · cases h
  rename_i hok
  cases h
  rw [not_or, not_or, not_not] at hok
  obtain ⟨hpos, hsmall, k, hk, rfl⟩ := hok
  exact ⟨Nat.two_pow_pos k, Nat.not_lt.mp hsmall, pow_dvd_pow 2 (by omega), rfl⟩

theorem queueSize_le {offered minimum size : Nat} (hmin : minimum ≤ 2)
    (h : queueSize offered minimum = .ok size) : minimum ≤ size := by
  unfold queueSize at h
  dsimp only at h
  split at h
  · cases h
  rename_i hle
  cases h
  generalize min offered MAX_SIZE = capped at hle
  by_cases htwo : 2 ≤ capped
  · have hlog : 1 ≤ capped.log2 := (Nat.le_log2 (by omega)).mpr (by omega)
    have hpow := Nat.pow_le_pow_right (n := 2) (by omega) hlog
    omega
  · have hpos := Nat.two_pow_pos capped.log2
    omega

theorem one_le_firstDomain (reported : Nat) : 1 ≤ firstDomain reported := by
  unfold firstDomain
  split
  · exact Nat.le_refl 1
  · omega

theorem Inv.fresh {config : Config} {requests events : Nat} {driver : Iommu}
    (h : start config requests events = .ok driver) : Inv (System.fresh driver) := by
  unfold start at h
  dsimp only at h
  split at h
  · cases h
  rename_i low high haperture
  split at h
  · cases h
  rename_i hdomain
  simp only [bind, Except.bind] at h
  split at h
  · cases h
  rename_i size hsize
  split at h
  · cases h
  rename_i q hq
  split at h
  · cases h
  rename_i size' hsize'
  split at h
  · cases h
  rename_i q' hq'
  obtain ⟨hpos, hsmall, hdvd, rfl⟩ := new_eq hq
  obtain ⟨hpos', hsmall', -, rfl⟩ := new_eq hq'
  obtain ⟨events', slots, hfill, hkeep, hempty, hin, -⟩ :=
    fill_ok (nodup_range (n := size'))
      ⟨size', fun _ => ⟨0, 0, 0, 0⟩, fun _ => 0, List.range size', 0, 0⟩
      (fun _ => none) rfl
  rw [hfill] at h
  cases h
  have hkeep : events'.size = size' := hkeep
  have hsupplied : ∀ i < events'.size, (events'.table i).flags &&& NEXT = 0
      ∧ ∃ slot, slots i = some slot := fun i hi =>
    hin i (mem_range.mpr (hkeep ▸ hi))
  have hnone : entries (List.replicate ENDPOINTS (none : Option Attachment)) = 0 :=
    entries_replicate ENDPOINTS
  have hno : ∀ a, a ∉ entries (List.replicate ENDPOINTS (none : Option Attachment)) := by
    simp [hnone]
  have hnodup {α : Type} (f : Attachment → α) :
      ((entries (List.replicate ENDPOINTS none)).map f).Nodup := by simp [hnone]
  exact {
    supplied := {
      pos := by show 0 < events'.size; rw [hkeep]; exact hpos'
      small := by show events'.size ≤ _; rw [hkeep]; exact hsmall'
      empty := hempty
      single := fun i hi => (hsupplied i hi).1
      slots := fun i hi => (hsupplied i hi).2 }
    queue := Sound.new hq
    two := queueSize_le (Nat.le_refl 2) hsize
    divides := hdvd
    seen := rfl
    quiet := rfl
    attachments := by
      show 0 = (entries (List.replicate ENDPOINTS none)).map _
      rw [hnone]
      rfl
    mappings := List.Perm.nil
    reserved := entries_replicate ACTIVE
    active := entries_replicate ACTIVE
    devices := hnodup _
    domains := hnodup _
    nonzero := fun a ha => absurd ha (hno a)
    home := fun held hheld => absurd hheld not_mem_nil
    disjoint := List.Pairwise.nil
    settled := rfl
    untorn := rfl
    first := one_le_firstDomain _
    bounded := fun a ha => absurd ha (hno a)
    whole := fun held hheld => absurd hheld not_mem_nil }

-- == every run

/-- In a run before a controller whose fault records are whole, every call
keeps the mirror and its answer says what it did. -/
theorem Inv.trace {calls : List Call} : ∀ {s : System}, Inv s →
    (∀ step ∈ s.trace calls, Meets step.before step.call) →
    ∀ step ∈ s.trace calls,
      Mirror step.after ∧ Told step.before step.call step.answer step.after := by
  induction calls with
  | nil =>
    intro s _ _ step hstep
    cases hstep
  | cons call calls ih =>
    intro s h hmeets
    rw [System.trace] at hmeets ⊢
    cases hcall : s.call call with
    | none =>
      intro step hstep
      cases hstep
    | some result =>
      obtain ⟨answer, after⟩ := result
      rw [hcall] at hmeets
      obtain ⟨hinv, htold⟩ := h.call (hmeets _ mem_cons_self) hcall
      intro step hstep
      rcases mem_cons.mp hstep with rfl | hstep
      · exact ⟨hinv.toMirror, htold⟩
      · exact ih hinv (fun step hstep => hmeets step (mem_cons_of_mem _ hstep)) step hstep

theorem driver_mirrors_controller_of_whole_faults (config : Config) (requests events : Nat)
    (driver : Iommu) (hstart : start config requests events = .ok driver) (calls : List Call)
    (hmeets : ∀ step ∈ (System.fresh driver).trace calls, Meets step.before step.call) :
    Mirror (System.fresh driver) ∧ ∀ step ∈ (System.fresh driver).trace calls,
      Mirror step.after ∧ Told step.before step.call step.answer step.after := by
  have hinv := Inv.fresh hstart
  exact ⟨hinv.toMirror, hinv.trace hmeets⟩

/-- A controller with pages of 4 KiB and sixteen domains. -/
def plainConfig : Config where
  pageShift := 12
  inputStart := 0
  inputEnd := 2 ^ 40
  domainStart := 0
  domainEnd := 15
  shift_lt := by decide
  start_lt := by decide
  end_lt := by decide
  domain_start_lt := by decide
  domain_end_lt := by decide

def plainDriver : Iommu := (start plainConfig 4 2).toOption.get (by rfl)

def plainDevice : DeviceId := ⟨7, by decide⟩

/-- The event queue with one new record of this many bytes in the first
buffer. -/
def oneRecord (bytes : Nat) : Look := ⟨⟨1, fun _ => (0, bytes)⟩, fun _ => ⟨1, 0, 7, 0⟩⟩

def plainCalls : List Call :=
  [.attach plainDevice [⟨[], [oneRecord 24]⟩, ⟨[0], []⟩],
   .map plainDevice ⟨0x8000, 0x1000, by decide, by decide⟩ .write [⟨[0], []⟩],
   .unmap 0 [⟨[0], []⟩]]

theorem driver_mirrors_controller_of_whole_faults_plain :
    ((System.fresh plainDriver).trace plainCalls).length = 3
    ∧ ∀ step ∈ (System.fresh plainDriver).trace plainCalls,
      Mirror step.after ∧ Told step.before step.call step.answer step.after := by
  refine ⟨by decide +kernel, ?_⟩
  exact (driver_mirrors_controller_of_whole_faults plainConfig 4 2 plainDriver rfl plainCalls
    (by decide +kernel)).2

def Answer.refused : Answer → Bool
  | .told (.error _) | .mapped (.error _) | .unmapped (.error _) | .polled (.error _) => true
  | _ => false

/-- A fault record that is too short ends a command whose request is
outstanding: the endpoint is attached at the controller and not on record. If
the controller is slower, the next command is written over the request. -/
theorem short_fault_breaks_the_mirror :
    (((System.fresh plainDriver).trace [.attach plainDevice [⟨[0], [oneRecord 8]⟩]]).map
      fun step => (step.answer.refused, step.after.controller.tables.attached,
        step.after.driver.domains.domain plainDevice)) = [(true, [(7, 1)], none)]
    ∧ (((System.fresh plainDriver).trace
        [.attach plainDevice [⟨[], [oneRecord 8]⟩],
         .attach plainDevice [⟨[], []⟩, ⟨[0, 0], []⟩]]).map
      fun step => step.after.torn) = [false, true] := by
  decide +kernel

end Molt.Virtio.Translation
