/-
Every request answered once, with its own data.

# What is out

`away` lists the chains the device may still touch: published and not taken,
held, or returned and not read, each as its request and its head. The engine's
steps are moves of the desk (`Molt.Block.Desk`), with the head of its chain as
the key of a flight, and the device's steps leave the desk alone.

# Three names of one request

A chain has a head, a request has an id and a record has a slot. `Holds` ties
them: the flight with this head is in this slot, and along the chain the table
says what `start` wrote for this request into the records of this slot. It
survives because a pushed chain is made of free descriptors and a free slot's
records meet no other slot's.
-/
import Molt.Lib.Lap
import Molt.Virtio.Block
import Molt.Virtio.Proofs.Queue

namespace Molt.Virtio.Block

open Molt.Block Molt.Lib List Multiset Function Engine Bus

-- == chains in the table

def flagsOf (writable last : Bool) : Nat :=
  (if writable then WRITE else 0) ||| (if last then 0 else NEXT)

@[simp] theorem flagsOf_next (w last : Bool) : flagsOf w last &&& NEXT = 0 ↔ last = true := by
  cases w <;> cases last <;> decide

@[simp] theorem flagsOf_write (w last : Bool) : flagsOf w last &&& WRITE ≠ 0 ↔ w = true := by
  cases w <;> cases last <;> decide

def Written (table : Nat → Descriptor) : List Nat → List Segment → Prop
  | [i], [s] => table i = ⟨s.iova, s.len, flagsOf s.writable true, 0⟩
  | i :: j :: c, s :: t :: parts =>
    table i = ⟨s.iova, s.len, flagsOf s.writable false, j⟩ ∧ Written table (j :: c) (t :: parts)
  | _, _ => False

variable {b : Bus} {op : BlockOp} {c : List Nat} {slot : Nat} {parts : List Segment} {p : Post}

theorem Written.congr {table table' : Nat → Descriptor}
    (h : Written table c parts) (hsame : ∀ i ∈ c, table' i = table i) :
    Written table' c parts := by
  fun_induction Written table c parts with
  | case1 i s => exact (hsame i mem_cons_self).trans h
  | case2 i j c s t parts ih =>
    refine ⟨(hsame i mem_cons_self).trans h.1, ih h.2 fun k hk => ?_⟩
    exact hsame k (mem_cons_of_mem _ hk)
  | case3 => exact h.elim

theorem written_writeChain (hlen : c.length = parts.length)
    (hne : c ≠ []) (hnd : c.Nodup) (table : Nat → Descriptor) :
    Written (Queue.writeChain table c parts) c parts := by
  induction c generalizing parts table with
  | nil => exact absurd rfl hne
  | cons i c ih =>
    obtain ⟨hi, hc⟩ := nodup_cons.mp hnd
    cases parts with
    | nil => cases hlen
    | cons s parts =>
      have hlen : c.length = parts.length := Nat.succ.inj hlen
      rw [Queue.writeChain]
      cases c with
      | nil =>
        obtain rfl : parts = [] := length_eq_zero_iff.mp hlen.symm
        show Queue.writeChain _ [] [] i = _
        simp [Queue.writeChain, Queue.writeDescriptor, flagsOf]
      | cons j c =>
        cases parts with
        | nil => cases hlen
        | cons t parts =>
          refine ⟨?_, ih hlen (cons_ne_nil _ _) hc _⟩
          rw [writeChain_ne hi]
          simp [Queue.writeDescriptor, flagsOf]

theorem gather_written {table : Nat → Descriptor}
    (h : Written table c parts) {i turns : Nat} (hi : c.head? = some i)
    (hturns : c.length ≤ turns) : gather table turns i = parts := by
  fun_induction Written table c parts generalizing i turns with
  | case1 j s =>
    obtain rfl : j = i := Option.some.inj hi
    obtain ⟨turns, rfl⟩ : ∃ t, turns = t + 1 := ⟨turns - 1, by simp at hturns; omega⟩
    simp [gather, h]
  | case2 j k c s t parts ih =>
    obtain rfl : j = i := Option.some.inj hi
    obtain ⟨turns, rfl⟩ : ∃ t, turns = t + 1 := ⟨turns - 1, by simp at hturns; omega⟩
    have hrest := ih h.2 rfl (by simpa using hturns)
    simp [gather, h.1, hrest]
  | case3 => exact h.elim

-- == records in memory

def Own (c : Config) (slot a n : Nat) : Prop :=
  (c.controlAt slot ≤ a ∧ a + n ≤ c.controlAt slot + CONTROL_STRIDE) ∨
    (c.dataAt slot ≤ a ∧ a + n ≤ c.dataAt slot + BLOCK)

/-- Records of different slots do not meet. -/
theorem own_apart {c : Config} {s t a m x n : Nat} (hs : s < REQUESTS) (ht : t < REQUESTS)
    (hne : s ≠ t) (ha : Own c s a m) (hx : Own c t x n) : x + n ≤ a ∨ a + m ≤ x := by
  have hapart := c.apart
  unfold Own Config.controlAt Config.dataAt at ha hx
  simp only [REQUESTS, BLOCK, CONTROL_STRIDE] at *
  omega

theorem own_status (c : Config) (slot : Nat) : Own c slot (c.statusAt slot) 1 := by
  refine .inl ⟨Nat.le_add_right _ _, ?_⟩
  simp only [Config.statusAt, STATUS_OFFSET, HEADER_LEN, CONTROL_STRIDE]
  omega

theorem own_data (c : Config) (slot : Nat) {n : Nat} (hn : n ≤ BLOCK) :
    Own c slot (c.dataAt slot) n := .inr ⟨le_rfl, by omega⟩

theorem length_headerBytes (op : BlockOp) : (headerBytes op).length = 17 := by
  simp [headerBytes]

theorem validateIo_ok {capacity sector bytes : Nat} {buffer : Buffer}
    (h : validateIo capacity sector bytes buffer = .ok ()) :
    bytes ≤ BLOCK ∧ bytes ≤ buffer.bytes.length := by
  unfold validateIo at h
  split at h
  case isTrue => cases h
  case isFalse hrange =>
    simp only [not_or, Nat.not_lt] at hrange
    exact hrange.2

theorem own_segment {c : Config} (hvalid : validate c.capacity op = .ok ())
    {s : Segment} (hs : s ∈ segments c slot op) (hw : s.writable = true) :
    Own c slot s.iova s.len := by
  cases op with
  | read sector bytes buffer =>
    obtain ⟨hbytes, -⟩ := validateIo_ok hvalid
    simp only [segments, List.mem_cons, List.not_mem_nil, or_false] at hs
    rcases hs with rfl | rfl | rfl
    · cases hw
    · exact own_data c slot hbytes
    · exact own_status c slot
  | write sector bytes buffer =>
    simp only [segments, List.mem_cons, List.not_mem_nil, or_false] at hs
    rcases hs with rfl | rfl | rfl
    · cases hw
    · cases hw
    · exact own_status c slot
  | flush =>
    simp only [segments, List.mem_cons, List.not_mem_nil, or_false] at hs
    rcases hs with rfl | rfl
    · cases hw
    · exact own_status c slot

theorem slice_stage {c : Config} (hvalid : validate c.capacity op = .ok ())
    (mem : Image) {slot t x n : Nat} (hslot : slot < REQUESTS) (ht : t < REQUESTS)
    (hne : slot ≠ t) (hx : Own c t x n) : slice (stage c mem slot op) x n = slice mem x n := by
  have hheader : Own c slot (c.controlAt slot) (headerBytes op).length := by
    refine .inl ⟨le_rfl, ?_⟩
    rw [length_headerBytes]
    simp only [CONTROL_STRIDE]
    omega
  cases op with
  | read | flush => exact slice_put_of_disjoint (own_apart hslot ht hne hheader hx)
  | write sector bytes buffer =>
    obtain ⟨hbytes, hlen⟩ := validateIo_ok hvalid
    refine (slice_put_of_disjoint (own_apart hslot ht hne hheader hx)).trans
      (slice_put_of_disjoint (own_apart hslot ht hne (own_data c slot ?_) hx))
    rw [length_take_of_le hlen]
    exact hbytes

-- == the invariant

namespace Bus

def away (b : Bus) : Multiset (Nat × Nat) :=
  ((b.submitted.drop b.taken : List (Nat × Nat)) : Multiset _)
    + ((b.work : List (Nat × Nat)) : Multiset _)
    + (((b.posted.drop b.reaped).map fun p => (p.request, p.head) : List (Nat × Nat)) : Multiset _)

/-- The bus as a desk. -/
def desk (b : Bus) : Desk Flight where
  flights := b.engine.flights
  ready := b.engine.ready
  owed := b.owed
  requests := b.requests
  answers := b.answers
  away := b.away

/-- The answer to a request the device has done, with the bytes its buffer
held then. -/
def Done (b : Bus) : Nat → BlockOp → BlockDone → Prop :=
  Desk.Given Post.request (·.status = S_OK) Post.bytes b.posted

end Bus

/-- A flight is known by the head of its chain. -/
def headOf (_ : Nat) (f : Flight) : Nat := f.head

/-- Both rings show their logs, and the cursors count them. -/
structure Rings (b : Bus) : Prop where
  size : b.engine.queue.size = b.engine.config.size
  avail : Laid b.engine.queue.size (fun _ s => s.2) 0 b.engine.queue.ring b.submitted
  availIdx : b.engine.queue.availIdx = b.submitted.length % 2 ^ 16
  taken_le : b.taken ≤ b.submitted.length
  used : Laid b.engine.queue.size (fun _ p => (p.head, p.len)) (0, 0) b.used b.posted
  reaped_le : b.reaped ≤ b.posted.length
  usedSeen : b.engine.queue.usedSeen = b.reaped % 2 ^ 16

structure Holds (b : Bus) (n h slot : Nat) (op : BlockOp) (c : List Nat) : Prop where
  flight : ∃ f, slotAt b.engine.flights slot = some f ∧ f.head = h
  request : ∃ id, b.requests[n]? = some (id, op)
  valid : validate b.engine.config.capacity op = .ok ()
  out : c ∈ b.out
  head : c.head? = some h
  written : Written b.engine.queue.table c (segments b.engine.config slot op)

/-- The chains out are as they were pushed, and the records of a returned one
as they were when the device returned it. -/
structure Chains (b : Bus) : Prop where
  queue : Virtio.Sound ⟨b.engine.queue, b.out⟩
  holds : ∀ n h, (n, h) ∈ b.away → ∃ slot op c, Holds b n h slot op c
  page : ∀ p ∈ b.posted.drop b.reaped, ∃ slot op c, Holds b p.request p.head slot op c ∧
    Bus.left b.engine.mem (segments b.engine.config slot op) = (p.status, p.bytes)

def Tokens (b : Bus) : Prop :=
  ∀ slot f, slotAt b.engine.flights slot = some f →
    f.token = ⟨f.head, (b.engine.requests f.head).generation⟩ ∧
      (b.engine.requests f.head).state = if f.op.isSome then .pending else .cancelled

structure Sound (b : Bus) : Prop extends Rings b, Chains b where
  tokens : Tokens b
  depth : b.engine.flights.length = REQUESTS
  desk : Desk.Sound headOf Flight.live b.Done b.desk

-- -- its bounds

theorem Config.sizes (c : Config) : 8 ≤ c.size ∧ c.size ≤ MAX_SIZE ∧ c.size ∣ 2 ^ 16 := by
  obtain ⟨k, hk, hsize⟩ := c.power
  have hdeep := c.deep
  rw [hsize] at hdeep ⊢
  refine ⟨?_, ?_, Nat.pow_dvd_pow 2 (by omega)⟩
  · have : 3 ≤ k := by
      by_contra hsmall
      have : 2 ^ k ≤ 2 ^ 2 := Nat.pow_le_pow_right (by decide) (by omega)
      omega
    exact Nat.pow_le_pow_right (by decide : 0 < 2) this
  · exact Nat.pow_le_pow_right (by decide : 0 < 2) (show k ≤ 5 by omega)

theorem Sound.room (h : Sound b) :
    b.submitted.length ≤ b.taken + 8 ∧ b.posted.length ≤ b.reaped + 8 := by
  have hcard : b.away.card ≤ b.engine.flights.length := h.desk.card_away
  rw [h.depth] at hcard
  simp only [away, card_add, coe_card, length_map, length_drop, REQUESTS] at hcard
  omega

theorem Rings.sizes (h : Rings b) :
    8 ≤ b.engine.queue.size ∧ ∀ k, k % 2 ^ 16 % b.engine.queue.size = k % b.engine.queue.size := by
  obtain ⟨hlow, -, hdvd⟩ := b.engine.config.sizes
  rw [h.size]
  exact ⟨hlow, fun k => Nat.mod_mod_of_dvd k hdvd⟩

-- -- its frame

theorem Holds.transport {b b' : Bus} {n hd slot : Nat}
    (h : Holds b n hd slot op c)
    (hflight : ∀ f, slotAt b.engine.flights slot = some f →
      ∃ f', slotAt b'.engine.flights slot = some f' ∧ f'.head = f.head)
    (hrequests : ∀ (n : Nat) r, b.requests[n]? = some r → b'.requests[n]? = some r)
    (hconfig : b'.engine.config = b.engine.config) (hout : c ∈ b'.out)
    (htable : ∀ i ∈ c, b'.engine.queue.table i = b.engine.queue.table i) :
    Holds b' n hd slot op c := by
  refine ⟨?_, ?_, hconfig ▸ h.valid, hout, h.head, ?_⟩
  · obtain ⟨f, hf, hhead⟩ := h.flight
    obtain ⟨f', hf', hsame⟩ := hflight f hf
    exact ⟨f', hf', hsame.trans hhead⟩
  · obtain ⟨id, hid⟩ := h.request
    exact ⟨id, hrequests _ _ hid⟩
  · rw [hconfig]
    exact h.written.congr htable

theorem Sound.slot_unique (h : Sound b) {n hd slot slot' : Nat}
    {f : Flight} (hholds : Holds b n hd slot op c)
    (hf : slotAt b.engine.flights slot' = some f) (hhead : f.head = hd) : slot' = slot := by
  obtain ⟨g, hg, hsame⟩ := hholds.flight
  exact h.desk.keys slot' slot f g hf hg (hhead.trans hsame.symm)

theorem Holds.slot_lt {n hd slot : Nat} (h : Sound b)
    (hholds : Holds b n hd slot op c) : slot < REQUESTS := by
  obtain ⟨f, hf, -⟩ := hholds.flight
  exact h.depth ▸ slotAt_lt hf

theorem left_congr {c : Config} {mem mem' : Image}
    (hvalid : validate c.capacity op = .ok ())
    (hsame : ∀ x n, Own c slot x n → slice mem' x n = slice mem x n) :
    left mem' (segments c slot op) = left mem (segments c slot op) := by
  have hstatus : mem' (c.statusAt slot) = mem (c.statusAt slot) := by
    have := hsame _ 1 (own_status c slot)
    simpa [slice] using this
  cases op with
  | read sector bytes buffer | write sector bytes buffer =>
    have hdata := hsame _ bytes (own_data c slot (validateIo_ok hvalid).1)
    simp only [segments, left, hstatus, hdata]
  | flush => simp only [segments, left, hstatus]

theorem post_out (hp : p ∈ b.posted.drop b.reaped) : (p.request, p.head) ∈ b.away := by
  refine mem_add.mpr (.inr (mem_coe.mpr ?_))
  exact mem_map.mpr ⟨p, hp, rfl⟩

-- == start

theorem freeSlot_some {e : Engine} (h : e.freeSlot = some slot) :
    slot < REQUESTS ∧ slotAt e.flights slot = none ∧ slotAt e.ready slot = none := by
  have hmem := List.mem_range.mp (List.mem_of_find?_eq_some h)
  have hfree := List.find?_some h
  simp only [Bool.and_eq_true, Option.isNone_iff_eq_none] at hfree
  exact ⟨hmem.trans_le (Nat.min_le_right _ _), hfree⟩

/-- A push either is refused and changes nothing, or takes a chain off the
free list. -/
theorem push_cases {q : Queue} (hne : parts ≠ [])
    (hlen : parts.length < 2 ^ 16) :
    (q.push parts = some (.error .full, q)) ∨
      parts.length ≤ q.available ∧ q.push parts = some (.ok ((q.free.take parts.length).headD 0),
        { q with
          table := Queue.writeChain q.table (q.free.take parts.length) parts
          free := q.free.drop parts.length
          ring := fun slot => if slot = q.availIdx % q.size
            then (q.free.take parts.length).headD 0 else q.ring slot
          availIdx := (q.availIdx + 1) % 2 ^ 16 }) := by
  have hpos : 0 < parts.length := length_pos_iff.mpr hne
  unfold Queue.push
  rw [Nat.mod_eq_of_lt hlen]
  by_cases hfull : parts.length = 0 ∨ parts.length > q.available
  · exact .inl (if_pos hfull)
  · refine .inr ⟨by omega, ?_⟩
    rw [if_neg hfull, if_neg (not_not.mpr rfl)]

theorem length_segments (c : Config) (slot : Nat) (op : BlockOp) :
    segments c slot op ≠ [] ∧ (segments c slot op).length < 2 ^ 16 := by
  cases op <;> exact ⟨cons_ne_nil _ _, by simp [segments]⟩

namespace Bus

/-- The bus after `start` wrote the records of a slot. -/
def staged (b : Bus) (slot : Nat) (op : BlockOp) : Bus :=
  { b with engine := { b.engine with mem := stage b.engine.config b.engine.mem slot op } }

/-- The bus after the chain of a staged request was pushed. -/
def launched (b : Bus) (slot id : Nat) (op : BlockOp) (signalled : Bool) (c : List Nat)
    (q : Queue) : Bus :=
  { b with
    engine := launch { b.engine with queue := q } slot id op (c.headD 0) signalled
    toLedger := b.enter slot id op
    submitted := b.submitted ++ [(b.requests.length, c.headD 0)]
    out := c :: b.out }

theorem start_none {b : Bus} (h : b.engine.freeSlot = none) (id : Nat) (op : BlockOp)
    (signalled : Bool) : b.start id op signalled = b := by
  simp only [start, Engine.start, h]

section

variable {b : Bus} {slot : Nat} (h : b.engine.freeSlot = some slot) (id : Nat)

include h id

theorem start_ready {op : BlockOp} {error : BlockError}
    (hop : validate b.engine.config.capacity op = .error error) (signalled : Bool) :
    b.start id op signalled = { b with
      engine := { b.engine with
        ready := b.engine.ready.set slot (some (id, finish op (.error error))) }
      toLedger := b.enter slot id op } := by
  simp only [start, Engine.start, h, hop]

theorem start_full {op : BlockOp} (hop : validate b.engine.config.capacity op = .ok ())
    (hpush : b.engine.queue.push (segments b.engine.config slot op)
      = some (.error .full, b.engine.queue)) (signalled : Bool) :
    b.start id op signalled = b.staged slot op := by
  simp only [start, Engine.start, h, hop, hpush, staged]

theorem start_launched {op : BlockOp} (hop : validate b.engine.config.capacity op = .ok ())
    {c : List Nat} {q : Queue}
    (hc : c = b.engine.queue.free.take (segments b.engine.config slot op).length)
    (hpush : b.engine.queue.push (segments b.engine.config slot op) = some (.ok (c.headD 0), q))
    (signalled : Bool) :
    b.start id op signalled = (b.staged slot op).launched slot id op signalled c q := by
  simp only [start, Engine.start, h, hop, hpush, staged, launched, ← hc]

end

end Bus

theorem start_ready_sound (h : Sound b)
    (hfree : b.engine.freeSlot = some slot) (id : Nat) {error : BlockError}
    (hop : validate b.engine.config.capacity op = .error error) (signalled : Bool) :
    Sound (b.start id op signalled) := by
  obtain ⟨hlt, hflight, hready⟩ := freeSlot_some hfree
  have hsame : b.engine.flights = b.engine.flights.set slot none := by rw [← hflight, set_slotAt]
  have hkeep : ∀ {n hd slot' op' c}, Holds b n hd slot' op' c →
      Holds (b.start id op signalled) n hd slot' op' c := by
    intro n hd slot' op' c hholds
    rw [start_ready hfree id hop]
    exact hholds.transport (fun f hf => ⟨f, hf, rfl⟩) (fun _ _ => Desk.getElem?_snoc) rfl
      hholds.out fun _ _ => rfl
  rw [start_ready hfree id hop] at hkeep ⊢
  refine ⟨{ h with }, ⟨h.queue, fun n hd hn => ?_, fun p hp => ?_⟩, h.tokens, h.depth,
    h.desk.moved (.refuse error (h.depth.symm ▸ hlt) hflight hready)
      (Desk.ext hsame rfl rfl rfl rfl (zero_add _).symm)⟩
  · obtain ⟨slot', op', c, hholds⟩ := h.holds n hd hn
    exact ⟨slot', op', c, hkeep hholds⟩
  · obtain ⟨slot', op', c, hholds, hleft⟩ := h.page p hp
    exact ⟨slot', op', c, hkeep hholds, hleft⟩

theorem staged_sound (h : Sound b)
    (hfree : b.engine.freeSlot = some slot)
    (hop : validate b.engine.config.capacity op = .ok ()) : Sound (b.staged slot op) := by
  obtain ⟨hlt, hflight, -⟩ := freeSlot_some hfree
  have hkeep : ∀ {n hd slot' op' c}, Holds b n hd slot' op' c →
      Holds (b.staged slot op) n hd slot' op' c := fun hholds =>
    { hholds with }
  refine ⟨{ h with }, ⟨h.queue, fun n hd hn => ?_, fun p hp => ?_⟩, h.tokens, h.depth, h.desk⟩
  · obtain ⟨slot', op', c, hholds⟩ := h.holds n hd hn
    exact ⟨slot', op', c, hkeep hholds⟩
  obtain ⟨slot', op', c, hholds, hleft⟩ := h.page p hp
  refine ⟨slot', op', c, hkeep hholds, (left_congr hholds.valid fun x n hx => ?_).trans hleft⟩
  have hne : slot ≠ slot' := by
    rintro rfl
    obtain ⟨f, hf, -⟩ := hholds.flight
    rw [hflight] at hf
    cases hf
  exact slice_stage hop _ hlt (hholds.slot_lt h) hne hx

theorem Sound.out_not_free (h : Sound b) (hc : c ∈ b.out) {i : Nat}
    (hi : i ∈ c) : i ∉ b.engine.queue.free := h.queue.parted.outside c hc i hi

/-- A chain was pushed for a request that found a slot. -/
structure Pushed (b : Bus) (slot : Nat) (op : BlockOp) (c : List Nat) (q : Queue) : Prop where
  free : b.engine.freeSlot = some slot
  valid : validate b.engine.config.capacity op = .ok ()
  chain : c = b.engine.queue.free.take (segments b.engine.config slot op).length
  fit : (segments b.engine.config slot op).length ≤ b.engine.queue.available
  push : b.engine.queue.push (segments b.engine.config slot op) = some (.ok (c.headD 0), q)
  queue : q = { b.engine.queue with
    table := Queue.writeChain b.engine.queue.table c (segments b.engine.config slot op)
    free := b.engine.queue.free.drop (segments b.engine.config slot op).length
    ring := fun slot => if slot = b.engine.queue.availIdx % b.engine.queue.size
      then c.headD 0 else b.engine.queue.ring slot
    availIdx := (b.engine.queue.availIdx + 1) % 2 ^ 16 }

section Launch

variable {q : Queue} {id : Nat} {signalled : Bool}

theorem away_launched (h : b.taken ≤ b.submitted.length) :
    (b.launched slot id op signalled c q).away = (b.requests.length, c.headD 0) ::ₘ b.away := by
  simp only [away, launched, drop_append_of_le_length h, ← coe_add, coe_singleton]
  rw [← singleton_add]
  abel

variable (b op c slot q id signalled) in
theorem launched_fields :
    (b.launched slot id op signalled c q).engine.config = b.engine.config ∧
      (b.launched slot id op signalled c q).engine.queue = q ∧
      (b.launched slot id op signalled c q).engine.mem = b.engine.mem ∧
      (b.launched slot id op signalled c q).engine.flights.length = b.engine.flights.length := by
  cases signalled <;> exact ⟨rfl, rfl, rfl, length_set⟩

theorem launched_here (hslot : slot < b.engine.flights.length) :
    slotAt (b.launched slot id op signalled c q).engine.flights slot = some ⟨id, c.headD 0,
      ⟨c.headD 0, (b.engine.requests (c.headD 0)).generation⟩,
      if signalled then some op else none⟩ := by
  cases signalled <;> exact slotAt_set hslot _

theorem launched_there {t : Nat} (hne : slot ≠ t) :
    slotAt (b.launched slot id op signalled c q).engine.flights t = slotAt b.engine.flights t := by
  cases signalled <;> exact slotAt_set_ne hne _

variable (b op c slot q id signalled) in
theorem launched_requests :
    (b.launched slot id op signalled c q).engine.requests (c.headD 0) =
        ⟨if signalled then .pending else .cancelled, (b.engine.requests (c.headD 0)).generation⟩ ∧
      ∀ k, k ≠ c.headD 0 →
        (b.launched slot id op signalled c q).engine.requests k = b.engine.requests k := by
  cases signalled with
  | true =>
    refine ⟨update_self _ _ _, fun k hk => update_of_ne hk _ _⟩
  | false =>
    have hcancel : (b.launched slot id op false c q).engine.requests =
        Function.update (Function.update b.engine.requests (c.headD 0)
          { b.engine.requests (c.headD 0) with state := .pending }) (c.headD 0)
          ⟨.cancelled, (b.engine.requests (c.headD 0)).generation⟩ := by
      simp [launched, launch, Requests.issue, Requests.cancel]
    rw [hcancel]
    refine ⟨update_self _ _ _, fun k hk => ?_⟩
    rw [update_of_ne hk, update_of_ne hk]

section

variable (hc : Pushed b slot op c q)

include hc

theorem Pushed.length : c.length = (segments b.engine.config slot op).length := by
  rw [hc.chain, length_take]
  exact Nat.min_eq_left hc.fit

theorem Pushed.ne_nil : c ≠ [] := by
  intro hnil
  have hlen := hc.length
  rw [hnil] at hlen
  exact (length_segments b.engine.config slot op).1 (length_eq_zero_iff.mp hlen.symm)

theorem Pushed.head : c.head? = some (c.headD 0) := by
  have hne := hc.ne_nil
  cases c with
  | nil => exact absurd rfl hne
  | cons i c => rfl

theorem Pushed.mem_free {i : Nat} (hi : i ∈ c) :
    i ∈ b.engine.queue.free := mem_of_mem_take (hc.chain ▸ hi)

section

variable (h : Sound b)
include h

theorem Pushed.fresh (n : Nat) : (n, c.headD 0) ∉ b.away := by
  intro hn
  obtain ⟨slot', op', c', hholds⟩ := h.holds n _ hn
  refine h.out_not_free hholds.out (mem_of_mem_head? hholds.head) (hc.mem_free ?_)
  exact mem_of_mem_head? hc.head

theorem Pushed.other {t : Nat} {f : Flight}
    (hf : slotAt b.engine.flights t = some f) : slot ≠ t ∧ f.head ≠ c.headD 0 := by
  refine ⟨?_, fun heq => ?_⟩
  · rintro rfl
    rw [(freeSlot_some hc.free).2.1] at hf
    cases hf
  have hfits := h.desk.fits t
  have hf' : slotAt b.desk.flights t = some f := hf
  rw [hf'] at hfits
  generalize slotAt b.desk.ready t = y at hfits
  generalize slotAt b.desk.owed t = z at hfits
  have hkey : headOf t f = c.headD 0 := heq
  cases hfits with
  | flying _ _ out => exact hc.fresh h _ (hkey ▸ out)
  | late _ out | fumbled _ out => exact hc.fresh h _ (hkey ▸ out)

theorem Pushed.rings : Rings (b.launched slot id op signalled c q) := by
  obtain ⟨hconfig, hqueue, -, -⟩ := launched_fields b op c slot q id signalled
  have hring : q.ring = Function.update b.engine.queue.ring
      (b.submitted.length % b.engine.queue.size) (c.headD 0) := by
    rw [hc.queue]
    funext k
    rw [update_apply, h.availIdx, h.toRings.sizes.2]
  have hsize : q.size = b.engine.queue.size := by rw [hc.queue]
  refine ⟨?_, ?_, ?_, ?_, ?_, h.reaped_le, ?_⟩
  · rw [hconfig, hqueue, hsize]
    exact h.size
  · rw [hqueue, hsize, hring]
    exact h.avail.push (b.requests.length, c.headD 0)
  · show _ = (b.submitted ++ _).length % 2 ^ 16
    rw [hqueue, hc.queue, length_append, length_singleton]
    rw [h.availIdx, Nat.mod_add_mod]
  · show b.taken ≤ (b.submitted ++ _).length
    have := h.taken_le
    rw [length_append]
    omega
  · rw [hqueue, hsize]
    exact h.used
  · rw [hqueue, hc.queue]
    exact h.usedSeen

theorem Pushed.keeps {n hd slot' : Nat} {op' : BlockOp}
    {c' : List Nat} (hholds : Holds b n hd slot' op' c') :
    Holds (b.launched slot id op signalled c q) n hd slot' op' c' := by
  obtain ⟨hconfig, hqueue, -, -⟩ := launched_fields b op c slot q id signalled
  obtain ⟨g, hg, -⟩ := hholds.flight
  refine hholds.transport (fun f hf => ⟨f, ?_, rfl⟩) (fun _ _ => Desk.getElem?_snoc) hconfig
    (mem_cons_of_mem _ hholds.out) fun i hi => ?_
  · exact (launched_there (hc.other h hg).1).trans hf
  · rw [hqueue, hc.queue]
    exact writeChain_ne fun hmem => h.out_not_free hholds.out hi (hc.mem_free hmem)

theorem Pushed.chains : Chains (b.launched slot id op signalled c q) := by
  obtain ⟨hconfig, hqueue, hmem, -⟩ := launched_fields b op c slot q id signalled
  refine ⟨?_, fun n hd hn => ?_, fun p hp => ?_⟩
  · rw [hqueue]
    have hstep : Driver.step ⟨b.engine.queue, b.out⟩ (.push (segments b.engine.config slot op)) =
        some ⟨q, c :: b.out⟩ := by
      rw [Driver.step, hc.push]
      simp [Driver.pushed, hc.chain]
    exact h.queue.push hstep
  · rw [away_launched h.taken_le, Multiset.mem_cons] at hn
    rcases hn with heq | hn
    · cases heq
      have hslot : slot < b.engine.flights.length := h.depth.symm ▸ (freeSlot_some hc.free).1
      refine ⟨slot, op, c, ⟨_, launched_here hslot, rfl⟩, ⟨id, getElem?_concat_length⟩, ?_,
        mem_cons_self, hc.head, ?_⟩
      · rw [hconfig]
        exact hc.valid
      have hnd : c.Nodup := by
        rw [hc.chain]
        exact h.queue.parted.free.1.sublist (take_sublist _ _)
      rw [hconfig, hqueue, hc.queue]
      exact written_writeChain hc.length hc.ne_nil hnd _
    · obtain ⟨slot', op', c', hholds⟩ := h.holds n hd hn
      exact ⟨slot', op', c', hc.keeps h hholds⟩
  · obtain ⟨slot', op', c', hholds, hleft⟩ := h.page p hp
    refine ⟨slot', op', c', hc.keeps h hholds, ?_⟩
    rw [hconfig, hmem]
    exact hleft

theorem Pushed.tokens : Tokens (b.launched slot id op signalled c q) := by
  obtain ⟨hnew, hold⟩ := launched_requests b op c slot q id signalled
  intro t f hf
  by_cases ht : slot = t
  · subst ht
    have hslot : slot < b.engine.flights.length := h.depth.symm ▸ (freeSlot_some hc.free).1
    cases (launched_here hslot).symm.trans hf
    rw [hnew]
    cases signalled <;> exact ⟨rfl, rfl⟩
  · have hf : slotAt b.engine.flights t = some f := (launched_there ht).symm.trans hf
    rw [hold _ (hc.other h hf).2]
    exact h.tokens t f hf

theorem Pushed.desk :
    Desk.Sound headOf Flight.live (b.launched slot id op signalled c q).Done
      (b.launched slot id op signalled c q).desk := by
  obtain ⟨hlt, hflight, hready⟩ := freeSlot_some hc.free
  have hslot : slot < b.engine.flights.length := h.depth.symm ▸ hlt
  have haway : (b.launched slot id op signalled c q).away = _ := away_launched h.taken_le
  have hnot : ∀ f : Flight, f.head = c.headD 0 → headOf slot f ∉ b.desk.away.map Prod.snd := by
    intro f hf hmem
    obtain ⟨⟨n, k⟩, hn, hk⟩ := Multiset.mem_map.mp hmem
    obtain rfl : k = c.headD 0 := hk.trans hf
    exact hc.fresh h n hn
  cases signalled with
  | true =>
    refine h.desk.moved (.fly hslot hflight hready (f := ⟨id, c.headD 0, ⟨c.headD 0,
      (b.engine.requests (c.headD 0)).generation⟩, some op⟩) rfl (hnot _ rfl))
      (Desk.ext rfl ?_ rfl rfl rfl (haway.trans (singleton_add _ _).symm))
    show b.engine.ready = b.engine.ready.set slot none
    rw [← hready, set_slotAt]
  | false =>
    exact h.desk.moved (.fumble .device hslot hflight hready (f := ⟨id, c.headD 0, ⟨c.headD 0,
      (b.engine.requests (c.headD 0)).generation⟩, none⟩) rfl (hnot _ rfl))
      (Desk.ext rfl rfl rfl rfl rfl (haway.trans (singleton_add _ _).symm))

end

end

theorem launched_sound (h : Sound b) (hc : Pushed b slot op c q) :
    Sound (b.launched slot id op signalled c q) where
  toRings := hc.rings h
  toChains := hc.chains h
  tokens := hc.tokens h
  depth := (launched_fields b op c slot q id signalled).2.2.2.trans h.depth
  desk := hc.desk h

end Launch

theorem start_sound (h : Sound b) (id : Nat) (op : BlockOp) (signalled : Bool) :
    Sound (b.start id op signalled) := by
  cases hfree : b.engine.freeSlot with
  | none =>
    rw [start_none hfree]
    exact h
  | some slot =>
    cases hop : validate b.engine.config.capacity op with
    | error error => exact start_ready_sound h hfree id hop signalled
    | ok =>
      have hstaged := staged_sound h hfree hop
      obtain ⟨hne, hlen⟩ := length_segments b.engine.config slot op
      rcases push_cases (q := b.engine.queue) hne hlen with hfull | ⟨hfit, hpush⟩
      · rw [start_full hfree id hop hfull]
        exact hstaged
      · rw [start_launched hfree id hop rfl hpush]
        exact launched_sound hstaged ⟨hfree, hop, rfl, hfit, hpush, rfl⟩

-- == the device

theorem take_sound (h : Sound b) : Sound b.take := by
  unfold Bus.take
  split
  · exact h
  split
  · exact h
  rename_i n hd hget
  obtain ⟨hlt, hat⟩ := List.getElem?_eq_some_iff.mp hget
  have hroom := h.room.1
  have hsize := h.toRings.sizes.1
  have hread : b.engine.queue.ring (b.taken % b.engine.queue.size) = hd :=
    h.avail.shows b.taken (n, hd) hget (by omega)
  rw [hread]
  have haway : away { b with work := b.work ++ [(n, hd)], taken := b.taken + 1 } = b.away := by
    simp only [away]
    rw [drop_eq_getElem_cons hlt, hat, ← coe_add, coe_singleton, ← cons_coe, ← singleton_add]
    abel
  have hkeep : ∀ {m k slot op c}, Holds b m k slot op c →
      Holds { b with work := b.work ++ [(n, hd)], taken := b.taken + 1 } m k slot op c :=
    fun hholds => { hholds with }
  refine ⟨{ h with taken_le := hlt },
    ⟨h.queue, fun m k hk => ?_, fun p hp => ?_⟩, h.tokens, h.depth,
    h.desk.aside (Desk.ext rfl rfl rfl rfl rfl haway) fun _ hp => hp⟩
  · rw [haway] at hk
    obtain ⟨slot, op, c, hholds⟩ := h.holds m k hk
    exact ⟨slot, op, c, hkeep hholds⟩
  · obtain ⟨slot, op, c, hholds, hleft⟩ := h.page p hp
    exact ⟨slot, op, c, hkeep hholds, hleft⟩

theorem Sound.chain (h : Sound b) {n hd slot : Nat}
    (hholds : Holds b n hd slot op c) : b.chain hd = segments b.engine.config slot op := by
  obtain ⟨i, hi⟩ := h.queue.linked c hholds.out
  exact gather_written hholds.written hholds.head hi.length_le

theorem work_out {x : Nat × Nat} (hx : x ∈ b.work) : x ∈ b.away :=
  mem_add.mpr (.inl (mem_add.mpr (.inr (mem_coe.mpr hx))))

section

variable (h : Sound b)
include h

theorem Sound.work_ne_post {x : Nat × Nat} (hx : x ∈ b.work)
    (hp : p ∈ b.posted.drop b.reaped) : x.2 ≠ p.head := by
  have honce : (b.away.map Prod.snd).Nodup := h.desk.once
  rw [away, map_add, map_add] at honce
  have hdisjoint := (nodup_add.mp honce).2.2
  intro heq
  refine disjoint_left.mp hdisjoint (?_ : x.2 ∈ _) ?_
  · exact Multiset.mem_add.mpr (.inr (Multiset.mem_map.mpr ⟨x, hx, rfl⟩))
  · rw [heq]
    exact Multiset.mem_map.mpr ⟨(p.request, p.head), List.mem_map.mpr ⟨p, hp, rfl⟩, rfl⟩

theorem transfer_sound (k part offset : Nat) (bytes : List UInt8) :
    Sound (b.transfer k part offset bytes) := by
  unfold transfer
  split
  case h_1 => exact h
  case h_2 n hd hk =>
    split
    case h_1 => exact h
    case h_2 s hs =>
      split
      case isFalse => exact h
      case isTrue hwrite =>
        have hwork := mem_of_getElem? hk
        obtain ⟨slot, op, c, hholds⟩ := h.holds n hd (work_out hwork)
        rw [h.chain hholds] at hs
        have hown := own_segment hholds.valid (mem_of_getElem? hs) hwrite.1
        have hpart : Own b.engine.config slot (s.iova + offset) bytes.length := by
          have := hwrite.2
          rcases hown with hin | hin
          · exact .inl ⟨by omega, by omega⟩
          · exact .inr ⟨by omega, by omega⟩
        have hkeep : ∀ {m k slot op c}, Holds b m k slot op c →
            Holds { b with engine := { b.engine with
              mem := put b.engine.mem (s.iova + offset) bytes } } m k slot op c :=
          fun hholds => { hholds with }
        refine ⟨{ h with }, ⟨h.queue, fun m j hj => ?_, fun p hp => ?_⟩, h.tokens, h.depth,
          h.desk.aside (Desk.ext rfl rfl rfl rfl rfl rfl) fun _ hp => hp⟩
        · obtain ⟨slot', op', c', hholds'⟩ := h.holds m j hj
          exact ⟨slot', op', c', hkeep hholds'⟩
        · obtain ⟨slot', op', c', hholds', hleft⟩ := h.page p hp
          refine ⟨slot', op', c', hkeep hholds',
            (left_congr hholds'.valid fun x m hx => ?_).trans hleft⟩
          have hne : slot ≠ slot' := by
            rintro rfl
            obtain ⟨f, hf, hhead⟩ := hholds.flight
            obtain ⟨g, hg, hhead'⟩ := hholds'.flight
            cases hf.symm.trans hg
            exact h.work_ne_post hwork hp (hhead.symm.trans hhead')
          exact slice_put_of_disjoint
            (own_apart (hholds.slot_lt h) (hholds'.slot_lt h) hne hpart hx)

theorem complete_sound (k len : Nat) : Sound (b.complete k len) := by
  unfold Bus.complete
  split
  · exact h
  rename_i n hd hk
  have hwork := mem_of_getElem? hk
  obtain ⟨slot, op, c, hholds⟩ := h.holds n hd (work_out hwork)
  rw [h.chain hholds]
  generalize hleft : left b.engine.mem (segments b.engine.config slot op) = record
  obtain ⟨status, bytes⟩ := record
  dsimp only
  generalize hp : (⟨n, hd, len, status, bytes⟩ : Post) = p
  have hreq : p.request = n := by rw [← hp]
  have hhead : p.head = hd := by rw [← hp]
  have hle := h.reaped_le
  have hperm : b.work.Perm ((n, hd) :: b.work.eraseIdx k) := by
    obtain ⟨hi, hget⟩ := List.getElem?_eq_some_iff.mp hk
    rw [← hget]
    exact (getElem_cons_eraseIdx_perm hi).symm
  generalize hb' : ({ b with
    work := b.work.eraseIdx k
    used := Function.update b.used (b.posted.length % b.engine.queue.size) (hd, len)
    posted := b.posted ++ [p] } : Bus) = b'
  have haway : b'.away = b.away := by
    simp only [← hb', away]
    rw [drop_append_of_le_length hle, map_append, ← coe_add,
      Multiset.coe_eq_coe.mpr hperm, ← Multiset.cons_coe, ← Multiset.singleton_add, List.map_cons,
      map_nil, hreq, hhead, coe_singleton]
    abel
  subst hb'
  have hkeep : ∀ {m j slot op c}, Holds b m j slot op c → Holds { b with
      work := b.work.eraseIdx k
      used := Function.update b.used (b.posted.length % b.engine.queue.size) (hd, len)
      posted := b.posted ++ [p] } m j slot op c :=
    fun hholds => { hholds with }
  refine ⟨{ h with used := ?_, reaped_le := ?_ },
    ⟨h.queue, fun m j hj => ?_, fun q hq => ?_⟩, h.tokens, h.depth,
    h.desk.aside (Desk.ext rfl rfl rfl rfl rfl haway) fun q hq => mem_append_left _ hq⟩
  · have hpush := h.used.push p
    rw [← hp] at hpush ⊢
    exact hpush
  · show b.reaped ≤ (b.posted ++ [p]).length
    rw [length_append]
    omega
  · rw [haway] at hj
    obtain ⟨slot', op', c', hholds'⟩ := h.holds m j hj
    exact ⟨slot', op', c', hkeep hholds'⟩
  rw [drop_append_of_le_length hle] at hq
  rcases mem_append.mp hq with hold | hnew
  · obtain ⟨slot', op', c', hholds', hleft'⟩ := h.page q hold
    exact ⟨slot', op', c', hkeep hholds', hleft'⟩
  obtain rfl : q = p := List.mem_singleton.mp hnew
  rw [hreq, hhead]
  refine ⟨slot, op, c, hkeep hholds, ?_⟩
  rw [← hp]
  exact hleft

-- == reap

theorem Sound.fresh : b.ring.idx ≠ b.engine.queue.usedSeen ↔ b.reaped < b.posted.length := by
  have hroom := h.room.2
  have hle := h.reaped_le
  show b.posted.length % 2 ^ 16 ≠ _ ↔ _
  rw [h.usedSeen]
  omega

theorem Sound.stale (hread : b.posted.length = b.reaped) :
    b.ring.idx = b.engine.queue.usedSeen := by
  by_contra hnew
  have := h.fresh.mp hnew
  omega

theorem Sound.entry (hp : b.posted[b.reaped]? = some p) :
    b.ring.entries (b.engine.queue.usedSeen % b.engine.queue.size) = (p.head, p.len) := by
  have hroom := h.room.2
  obtain ⟨hsize, hwrap⟩ := h.toRings.sizes
  rw [h.usedSeen, hwrap]
  exact h.used.shows b.reaped p hp (by omega)

end

theorem mem_unread (hp : b.posted[b.reaped]? = some p) : p ∈ b.posted.drop b.reaped := by
  rw [mem_iff_getElem?]
  exact ⟨0, by rw [getElem?_drop, Nat.add_zero, hp]⟩

theorem live_some {f : Flight} {id : Nat} (h : f.live = some (id, op)) :
    f.id = id ∧ f.op = some op := by
  obtain ⟨op', hop, heq⟩ := Option.map_eq_some_iff.mp h
  cases heq
  exact ⟨rfl, hop⟩

theorem pick_fail {l : List (Option Flight)} {f : Flight}
    (h : pick (fun f : Flight => f.op.map fun op => (f, op)) l = some (slot, f, op)) :
    slotAt l slot = some f ∧ f.live = some (f.id, op) := by
  obtain ⟨g, hg, hsome⟩ := pick_some h
  obtain ⟨op', hop, heq⟩ := Option.map_eq_some_iff.mp hsome
  cases heq
  exact ⟨hg, by rw [Flight.live, hop]; rfl⟩

theorem pick_fail_none {l : List (Option Flight)}
    (h : pick (fun f : Flight => f.op.map fun op => (f, op)) l = none) :
    pick Flight.live l = none := by
  refine pick_eq_none fun o ho => ?_
  cases o with
  | none => rfl
  | some f =>
    obtain ⟨i, hi⟩ := mem_iff_getElem?.mp ho
    have := Option.map_eq_none_iff.mp (pick_none h (slotAt_some.mpr hi))
    show f.live = none
    rw [Flight.live, this]
    rfl

namespace Bus

/-- The bus after a returned chain was taken off the used ring. -/
def popped (b : Bus) (p : Post) (c : List Nat) (slot : Nat) : Bus :=
  { b with
    engine := { b.engine with
      queue := { b.engine.queue with
        free := c.reverse ++ b.engine.queue.free
        usedSeen := (b.engine.queue.usedSeen + 1) % 2 ^ 16 }
      requests := (b.engine.requests.complete p.head).2
      flights := b.engine.flights.set slot none }
    reaped := b.reaped + 1
    out := b.out.eraseP fun c => c.head? = some p.head }

theorem reap_ready {b : Bus} {slot id : Nat} {done : BlockDone}
    (h : pick some b.engine.ready = some (slot, id, done)) {n : Nat}
    (howed : slotAt b.owed slot = some n) (expired : Bool) :
    b.reap expired = { b with
      engine := { b.engine with ready := b.engine.ready.set slot none }
      owed := b.owed.set slot none
      answers := b.answers ++ [(n, id, done)] } := by
  simp [reap, Engine.pass, Engine.reads, h, Ledger.settle, howed]

section

variable {b : Bus} (hready : pick some b.engine.ready = none)

include hready

theorem reap_popped {p : Post}
    {c : List Nat} {slot : Nat} {f : Flight} (hfresh : b.ring.idx ≠ b.engine.queue.usedSeen)
    (hentry : b.ring.entries (b.engine.queue.usedSeen % b.engine.queue.size) = (p.head, p.len))
    (hpop : b.engine.queue.pop b.ring = (.ok (some ⟨p.head, p.len⟩), { b.engine.queue with
        free := c.reverse ++ b.engine.queue.free
        usedSeen := (b.engine.queue.usedSeen + 1) % 2 ^ 16 }))
    (hpick : pick (fun f : Flight => if f.head = p.head then some f else none) b.engine.flights
      = some (slot, f))
    (hstate : (b.engine.requests p.head).state = if f.op.isSome then .pending else .cancelled)
    (expired : Bool) :
    b.reap expired =
      match f.op with
      | none => b.popped p c slot
      | some op => { b.popped p c slot with
          owed := b.owed.set slot none
          answers := b.answers ++ ((slotAt b.owed slot).map fun n =>
            (n, f.id, b.engine.completeWithCopy slot op)).toList } := by
  have hreads : b.engine.reads b.ring = true := by simp [reads, hready, hfresh]
  have hused : (b.used (b.engine.queue.usedSeen % b.engine.queue.size)).1 = p.head :=
    congrArg Prod.fst hentry
  cases hop : f.op with
  | none =>
    rw [hop] at hstate
    simp only [reap, hreads, if_true, Engine.pass, hready, hpop, Engine.consume, hpick,
      Requests.complete, hstate, hused, popped]
    rfl
  | some op =>
    rw [hop] at hstate
    simp only [reap, hreads, if_true, Engine.pass, hready, hpop, Engine.consume, hpick,
      Requests.complete, hstate, hused, popped, hop]
    rfl

theorem reap_timeout (hstale : b.ring.idx = b.engine.queue.usedSeen) {slot n : Nat}
    {f : Flight} {op : BlockOp}
    (hpick : pick (fun f : Flight => f.op.map fun op => (f, op)) b.engine.flights
      = some (slot, f, op)) (howed : slotAt b.owed slot = some n) :
    b.reap true = { b with
      engine := { b.engine with
        requests := b.engine.requests.cancel f.token
        flights := b.engine.flights.set slot (some { f with op := none }) }
      owed := b.owed.set slot none
      answers := b.answers ++ [(n, f.id, finish op (.error .timeout))] } := by
  have hreads : b.engine.reads b.ring = false := by simp [reads, hstale]
  have hpop : b.engine.queue.pop b.ring = (.ok none, b.engine.queue) := by
    rw [Queue.pop, if_pos hstale]
  simp [reap, hreads, Engine.pass, hready, hpop, Engine.timeoutOne, Engine.failOne, hpick,
    Ledger.settle, howed]

theorem reap_rest (hstale : b.ring.idx = b.engine.queue.usedSeen) {expired : Bool}
    (h : expired = true →
      pick (fun f : Flight => f.op.map fun op => (f, op)) b.engine.flights = none) :
    b.reap expired = b := by
  have hreads : b.engine.reads b.ring = false := by simp [reads, hstale]
  have hpop : b.engine.queue.pop b.ring = (.ok none, b.engine.queue) := by
    rw [Queue.pop, if_pos hstale]
  cases expired with
  | true =>
    simp [reap, hreads, Engine.pass, hready, hpop, Engine.timeoutOne, Engine.failOne, h rfl,
      Ledger.settle]
  | false =>
    cases hlive : b.engine.hasLiveRequest
    all_goals simp only [reap, hreads, Engine.pass, hready, hpop, Bool.false_eq_true, if_false]
    · rw [show Engine.hasLiveRequest b.engine = false from hlive]
      rfl
    · rw [show Engine.hasLiveRequest b.engine = true from hlive]
      rfl

end

end Bus

-- -- the cases of one turn

inductive Turn (b : Bus) (expired : Bool) : Prop where
  | ready (slot id n : Nat) (done : BlockDone)
      (pick : pick some b.engine.ready = some (slot, id, done))
      (ready : slotAt b.engine.ready slot = some (id, done)) (owed : slotAt b.owed slot = some n)
  | back (p : Post) (slot : Nat) (f : Flight) (op : BlockOp) (c : List Nat)
      (pick : Lib.pick some b.engine.ready = none) (unread : b.posted[b.reaped]? = some p)
      (flight : slotAt b.engine.flights slot = some f)
      (holds : Holds b p.request p.head slot op c)
      (left : Bus.left b.engine.mem (segments b.engine.config slot op) = (p.status, p.bytes))
      (reap : b.reap expired =
        match f.op with
        | none => b.popped p c slot
        | some op => { b.popped p c slot with
            owed := b.owed.set slot none
            answers := b.answers ++ [(p.request, f.id, b.engine.completeWithCopy slot op)] })
      (live : ∀ op', f.op = some op' → slotAt b.engine.ready slot = none ∧
        slotAt b.owed slot = some p.request ∧ b.requests[p.request]? = some (f.id, op'))
      (late : f.op = none → p.request ∉ entries b.owed)
  | timeout (slot n : Nat) (f : Flight) (op : BlockOp)
      (pick : Lib.pick some b.engine.ready = none) (read : b.posted.length = b.reaped)
      (expired : expired = true)
      (live : Lib.pick (fun f : Flight => f.op.map fun op => (f, op)) b.engine.flights
        = some (slot, f, op))
      (flight : slotAt b.engine.flights slot = some f) (lives : f.live = some (f.id, op))
      (ready : slotAt b.engine.ready slot = none) (owed : slotAt b.owed slot = some n)
  | rest (pick : Lib.pick some b.engine.ready = none) (read : b.posted.length = b.reaped)
      (live : expired = true →
        Lib.pick (fun f : Flight => f.op.map fun op => (f, op)) b.engine.flights = none)

theorem Sound.turn (h : Sound b) (expired : Bool) : Turn b expired := by
  cases hready : pick some b.engine.ready with
  | some found =>
    obtain ⟨slot, id, done⟩ := found
    obtain ⟨hslot, n, howed⟩ := h.desk.handed hready
    exact .ready slot id n done hready hslot howed
  | none =>
    by_cases hread : b.reaped < b.posted.length
    · -- the entry is of a chain that is out, so one flight has its head
      have hp : b.posted[b.reaped]? = some b.posted[b.reaped] := getElem?_eq_getElem hread
      generalize b.posted[b.reaped] = p at hp
      obtain ⟨slot, op, c, hholds, hleft⟩ := h.page p (mem_unread hp)
      obtain ⟨f, hf, hhead⟩ := hholds.flight
      have hpick : pick (fun f : Flight => if f.head = p.head then some f else none)
          b.engine.flights = some (slot, f) := by
        cases hfind : pick (fun f : Flight => if f.head = p.head then some f else none)
            b.engine.flights with
        | none =>
          have := pick_none hfind hf
          rw [if_pos hhead] at this
          cases this
        | some found =>
          obtain ⟨slot', g⟩ := found
          obtain ⟨g', hg', hsome⟩ := pick_some hfind
          split at hsome
          case isTrue heq =>
            cases hsome
            obtain rfl := h.slot_unique hholds hg' heq
            cases hf.symm.trans hg'
            rfl
          case isFalse => cases hsome
      have hstate := (h.tokens slot f hf).2
      rw [hhead] at hstate
      have hfresh := h.fresh.mpr hread
      have hentry := h.entry hp
      have hpop := h.queue.pop_eq hfresh hholds.out hentry hholds.head
      have hreap := reap_popped hready hfresh hentry hpop hpick hstate expired
      obtain ⟨slot', f', hf', hkey, hcases⟩ := h.desk.landing (post_out (mem_unread hp))
      obtain rfl := h.slot_unique hholds hf' hkey
      cases hf.symm.trans hf'
      have hlive : ∀ op', f.op = some op' → slotAt b.engine.ready slot' = none ∧
          slotAt b.owed slot' = some p.request ∧ b.requests[p.request]? = some (f.id, op') := by
        intro op' hop
        rcases hcases with ⟨id, op'', hlives, hfree, howed, hrequest⟩ | ⟨hdead, -⟩
        · obtain ⟨rfl, hop'⟩ := live_some hlives
          cases hop.symm.trans hop'
          exact ⟨hfree, howed, hrequest⟩
        · rw [Flight.live, hop] at hdead
          cases hdead
      have hlate : f.op = none → p.request ∉ entries b.owed := by
        intro hop
        rcases hcases with ⟨id, op'', hlives, -⟩ | ⟨-, hlate⟩
        · cases hop.symm.trans (live_some hlives).2
        · refine hlate ?_
          cases hslot : slotAt b.engine.ready slot' with
          | none => exact hslot
          | some a => cases pick_none hready hslot
      refine .back p slot' f op c hready hp hf hholds hleft ?_ hlive hlate
      rw [hreap]
      cases hop : f.op with
      | none => rfl
      | some op' =>
        rw [(hlive op' hop).2.1]
        rfl
    · have hread : b.posted.length = b.reaped := by
        have := h.reaped_le
        omega
      by_cases hlive : expired = true →
          pick (fun f : Flight => f.op.map fun op => (f, op)) b.engine.flights = none
      · exact .rest hready hread hlive
      obtain ⟨hexpired, hpick⟩ := Classical.not_imp.mp hlive
      obtain ⟨⟨slot, f, op⟩, hpick⟩ := Option.ne_none_iff_exists'.mp hpick
      obtain ⟨hf, hlives⟩ := pick_fail hpick
      have hfits := h.desk.fits slot
      have hf' : slotAt b.desk.flights slot = some f := hf
      rw [hf'] at hfits
      generalize hy : slotAt b.desk.ready slot = y at hfits
      generalize hz : slotAt b.desk.owed slot = z at hfits
      cases hfits with
      | flying => exact .timeout slot _ f op hready hread hexpired hpick hf hlives hy hz
      | late dead | fumbled dead => rw [hlives] at dead; cases dead

theorem away_popped (hp : b.posted[b.reaped]? = some p) (c : List Nat)
    (slot : Nat) (owed : List (Option Nat)) (answers : List (Nat × Nat × BlockDone)) :
    b.away = (p.request, p.head) ::ₘ
      away { b.popped p c slot with owed := owed, answers := answers } := by
  obtain ⟨hi, hget⟩ := List.getElem?_eq_some_iff.mp hp
  simp only [away, popped]
  rw [List.drop_eq_getElem_cons hi, hget, List.map_cons, ← Multiset.cons_coe,
    ← Multiset.singleton_add, ← Multiset.singleton_add]
  abel

theorem popped_keeps (h : Sound b)
    (hp : b.posted[b.reaped]? = some p) (hholds : Holds b p.request p.head slot op c)
    (owed : List (Option Nat)) (answers : List (Nat × Nat × BlockDone)) :
    Rings { b.popped p c slot with owed := owed, answers := answers } ∧
      Chains { b.popped p c slot with owed := owed, answers := answers } ∧
      Tokens { b.popped p c slot with owed := owed, answers := answers } := by
  have hlt := (List.getElem?_eq_some_iff.mp hp).1
  have haway := away_popped hp c slot owed answers
  have honce : (b.away.map Prod.snd).Nodup := h.desk.once
  rw [haway, Multiset.map_cons, Multiset.nodup_cons] at honce
  -- the other chains have other heads, and so other slots
  have hkeep : ∀ {n hd slot' op' c'}, hd ≠ p.head → Holds b n hd slot' op' c' →
      Holds { b.popped p c slot with owed := owed, answers := answers } n hd slot' op' c' := by
    intro n hd slot' op' c' hne hother
    refine hother.transport (fun f hf => ⟨f, ?_, rfl⟩) (fun _ _ hr => hr) rfl ?_ fun _ _ => rfl
    · refine (slotAt_set_ne ?_ _).trans hf
      rintro rfl
      obtain ⟨g, hg, hhead⟩ := hother.flight
      obtain ⟨g', hg', hhead'⟩ := hholds.flight
      cases hg.symm.trans hg'
      exact hne (hhead.symm.trans hhead')
    · refine (mem_eraseP_of_neg ?_).mpr hother.out
      rw [hother.head]
      simpa using hne
  refine ⟨{ h with reaped_le := hlt, usedSeen := ?_ },
    ⟨?_, fun n hd hn => ?_, fun q hq => ?_⟩, fun t f hf => ?_⟩
  · show (b.engine.queue.usedSeen + 1) % 2 ^ 16 = (b.reaped + 1) % 2 ^ 16
    rw [h.usedSeen, Nat.mod_add_mod]
  · have hfresh := h.fresh.mpr hlt
    have hentry := h.entry hp
    obtain ⟨-, -, -, hsound⟩ := h.queue.pop_head hfresh hholds.out
      (by rw [hentry]; exact hholds.head)
    rw [h.queue.pop_eq hfresh hholds.out hentry hholds.head] at hsound
    exact hsound
  · have hne : hd ≠ p.head := by
      rintro rfl
      exact honce.1 (Multiset.mem_map.mpr ⟨_, hn, rfl⟩)
    obtain ⟨slot', op', c', hother⟩ := h.holds n hd (by
      rw [haway]
      exact Multiset.mem_cons_of_mem hn)
    exact ⟨slot', op', c', hkeep hne hother⟩
  · have hq : q ∈ b.posted.drop (b.reaped + 1) := hq
    have hout : (q.request, q.head) ∈
        away { b.popped p c slot with owed := owed, answers := answers } := post_out hq
    have hne : q.head ≠ p.head := by
      intro heq
      exact honce.1 (Multiset.mem_map.mpr ⟨_, hout, heq⟩)
    rw [← List.drop_drop] at hq
    obtain ⟨slot', op', c', hother, hleft⟩ := h.page q (List.mem_of_mem_drop hq)
    exact ⟨slot', op', c', hkeep hne hother, hleft⟩
  · have hf : slotAt (b.engine.flights.set slot none) t = some f := hf
    obtain ⟨g, hg, hhead⟩ := hholds.flight
    by_cases ht : slot = t
    · subst ht
      rw [slotAt_set (slotAt_lt hg)] at hf
      cases hf
    · rw [slotAt_set_ne ht] at hf
      have hne : f.head ≠ p.head := fun heq => ht (h.slot_unique hholds hf heq).symm
      have hsame : (b.engine.requests.complete p.head).2 f.head = b.engine.requests f.head :=
        update_of_ne hne _ _
      show _ = (⟨_, ((b.engine.requests.complete p.head).2 f.head).generation⟩ : Token) ∧
        ((b.engine.requests.complete p.head).2 f.head).state = _
      rw [hsame]
      exact h.tokens t f hf

/-- The answer to an operation whose chain was returned so. -/
def verdict (p : Post) (op : BlockOp) : BlockDone :=
  if p.status = S_OK then finish (landed p.bytes op) (.ok ()) else finish op (.error .device)

theorem completeWithCopy_eq (hvalid : validate b.engine.config.capacity op = .ok ())
    (hleft : Bus.left b.engine.mem (segments b.engine.config slot op) = (p.status, p.bytes)) :
    b.engine.completeWithCopy slot op = verdict p op := by
  have hstatus : b.engine.mem (b.engine.config.statusAt slot) = p.status := by
    cases op <;> exact congrArg Prod.fst hleft
  unfold completeWithCopy Engine.complete verdict
  rw [hstatus]
  by_cases hok : p.status = S_OK
  · rw [if_neg (not_not.mpr hok), if_pos hok]
    cases op with
    | read sector bytes buffer =>
      have hbytes : slice b.engine.mem (b.engine.config.dataAt slot) bytes = p.bytes :=
        congrArg Prod.snd hleft
      dsimp only
      rw [if_neg (Nat.not_lt.mpr (validateIo_ok hvalid).1), copyRead, hbytes]
    | write | flush => rfl
  · rw [if_pos hok, if_neg hok]

theorem verdict_right (hp : p ∈ b.posted) (op : BlockOp) :
    (∃ error, verdict p op = finish op (.error error)) ∨ b.Done p.request op (verdict p op) := by
  unfold verdict
  by_cases hok : p.status = S_OK
  · rw [if_pos hok]
    exact .inr ⟨p, hp, rfl, hok, rfl⟩
  · rw [if_neg hok]
    exact .inl ⟨_, rfl⟩

theorem reap_sound (h : Sound b) (expired : Bool) : Sound (b.reap expired) := by
  cases h.turn expired with
  | ready slot id n done hpick hready howed =>
    rw [reap_ready hpick howed]
    have hkeep : ∀ {n' hd slot' op' c'}, Holds b n' hd slot' op' c' → Holds { b with
        engine := { b.engine with ready := b.engine.ready.set slot none }
        owed := b.owed.set slot none
        answers := b.answers ++ [(n, id, done)] } n' hd slot' op' c' := fun hholds =>
      { hholds with }
    refine ⟨{ h with }, ⟨h.queue, fun n hd hn => ?_, fun p hp => ?_⟩, h.tokens, h.depth,
      h.desk.moved (.hand hready howed) (Desk.ext (set_slotAt _ _).symm rfl rfl rfl rfl rfl)⟩
    · obtain ⟨slot', op', c', hholds⟩ := h.holds n hd hn
      exact ⟨slot', op', c', hkeep hholds⟩
    · obtain ⟨slot', op', c', hholds, hleft⟩ := h.page p hp
      exact ⟨slot', op', c', hkeep hholds, hleft⟩
  | back p slot f op c hpick hunread hflight hholds hleft hreap hlive hlate =>
    rw [hreap]
    have hhead : headOf slot f = p.head := by
      obtain ⟨g, hg, hg'⟩ := hholds.flight
      cases hflight.symm.trans hg
      exact hg'
    cases hop : f.op with
    | none =>
      obtain ⟨hrings, hchains, htokens⟩ := popped_keeps h hunread hholds b.owed b.answers
      have haway := away_popped hunread c slot b.owed b.answers
      rw [← hhead] at haway
      refine ⟨hrings, hchains, htokens, (length_set).trans h.depth,
        h.desk.moved (.late haway hflight ?_) (Desk.ext rfl rfl rfl rfl rfl rfl)⟩
      rw [Flight.live, hop]
      rfl
    | some op' =>
      obtain ⟨hready, howed, hrequest⟩ := hlive op' hop
      obtain ⟨id, hrequest'⟩ := hholds.request
      cases hrequest'.symm.trans hrequest
      obtain ⟨hrings, hchains, htokens⟩ := popped_keeps h hunread hholds
        (b.owed.set slot none)
        (b.answers ++ [(p.request, f.id, b.engine.completeWithCopy slot op)])
      have haway := away_popped hunread c slot (b.owed.set slot none)
        (b.answers ++ [(p.request, f.id, b.engine.completeWithCopy slot op)])
      rw [← hhead] at haway
      have hlives : f.live = some (f.id, op) := by
        rw [Flight.live, hop]
        rfl
      have hsame : b.engine.ready = b.engine.ready.set slot none := by
        rw [← hready, set_slotAt]
      exact ⟨hrings, hchains, htokens, (length_set).trans h.depth,
        h.desk.moved (.land haway hflight hlives howed
          (completeWithCopy_eq hholds.valid hleft ▸ verdict_right (mem_of_getElem? hunread) op))
          (Desk.ext rfl hsame rfl rfl rfl rfl)⟩
  | timeout slot n f op hpick hread hexpired hlive hflight hlives hready howed =>
    subst hexpired
    rw [reap_timeout hpick (h.stale hread) hlive howed]
    obtain ⟨htoken, hstate⟩ := h.tokens slot f hflight
    rw [(live_some hlives).2] at hstate
    have hcancel : b.engine.requests.cancel f.token = Function.update b.engine.requests f.head
        { b.engine.requests f.head with state := .cancelled } := by
      rw [Requests.cancel, htoken]
      exact if_pos ⟨hstate, rfl⟩
    have hlt : slot < b.engine.flights.length := slotAt_lt hflight
    have hsame : b.engine.ready = b.engine.ready.set slot none := by rw [← hready, set_slotAt]
    have hkeep : ∀ {n' hd slot' op' c'}, Holds b n' hd slot' op' c' → Holds { b with
        engine := { b.engine with
          requests := b.engine.requests.cancel f.token
          flights := b.engine.flights.set slot (some { f with op := none }) }
        owed := b.owed.set slot none
        answers := b.answers ++ [(n, f.id, finish op (.error .timeout))] } n' hd slot' op' c' := by
      intro n' hd slot' op' c' hholds
      refine hholds.transport (fun g hg => ?_) (fun _ _ hr => hr) rfl hholds.out fun _ _ => rfl
      by_cases hs : slot = slot'
      · subst hs
        cases hflight.symm.trans hg
        exact ⟨_, slotAt_set hlt _, rfl⟩
      · exact ⟨g, (slotAt_set_ne hs _).trans hg, rfl⟩
    refine ⟨{ h with }, ⟨h.queue, fun n hd hn => ?_, fun p hp => ?_⟩, fun t g hg => ?_,
      (length_set).trans h.depth,
      h.desk.moved (.expire .timeout hflight hlives
        (rfl : Flight.live { f with op := none } = none) rfl howed)
        (Desk.ext rfl hsame rfl rfl rfl rfl)⟩
    · obtain ⟨slot', op', c', hholds⟩ := h.holds n hd hn
      exact ⟨slot', op', c', hkeep hholds⟩
    · obtain ⟨slot', op', c', hholds, hleft⟩ := h.page p hp
      exact ⟨slot', op', c', hkeep hholds, hleft⟩
    have hg : slotAt (b.engine.flights.set slot (some { f with op := none })) t = some g := hg
    show _ = (⟨_, (b.engine.requests.cancel f.token g.head).generation⟩ : Token) ∧
      (b.engine.requests.cancel f.token g.head).state = _
    rw [hcancel]
    by_cases ht : slot = t
    · subst ht
      rw [slotAt_set hlt] at hg
      cases hg
      rw [update_self]
      exact ⟨htoken, rfl⟩
    · rw [slotAt_set_ne ht] at hg
      have hne : g.head ≠ f.head := fun heq =>
        ht (h.desk.keys t slot g f hg hflight heq).symm
      rw [update_of_ne hne]
      exact h.tokens t g hg
  | rest hpick hread hlive =>
    rw [reap_rest hpick (h.stale hread) hlive]
    exact h

-- == whole runs

theorem step_sound (h : Sound b) (event : Event) : Sound (b.step event) := by
  cases event with
  | start id op signalled => exact start_sound h id op signalled
  | reap expired => exact reap_sound h expired
  | take => exact take_sound h
  | transfer k part offset bytes => exact transfer_sound h k part offset bytes
  | complete k len => exact complete_sound h k len

theorem run_sound (h : Sound b) (events : List Event) : Sound (b.run events) := by
  induction events generalizing b with
  | nil => exact h
  | cons event events ih => exact ih (step_sound h event)

theorem Config.new_queue (c : Config) : Queue.new c.size = .ok c.queue := by
  obtain ⟨hlow, hhigh, -⟩ := c.sizes
  rw [Queue.new, if_neg]
  · rfl
  · rintro (hzero | hbig | hpower)
    · omega
    · omega
    · exact hpower c.power

theorem new_sound (c : Config) (mem : Image) : Sound (new c mem) where
  size := rfl
  avail := .nil
  availIdx := rfl
  taken_le := Nat.le_refl 0
  used := .nil
  reaped_le := Nat.le_refl 0
  usedSeen := rfl
  queue := Virtio.Sound.new c.new_queue
  holds n hd hn := by simp [Bus.away, Bus.new] at hn
  page p hp := by simp [Bus.new] at hp
  tokens slot f hf := by simp [Bus.new, Engine.new] at hf
  depth := rfl
  desk := Desk.new_sound REQUESTS

-- -- what was read is answered

/-- The requests whose chains were read back have had their answers. -/
def Spent (b : Bus) : Prop := ∀ p ∈ b.posted.take b.reaped, b.Closed p.request

theorem start_ledger (b : Bus) (id : Nat) (op : BlockOp) (signalled : Bool) :
    ((b.start id op signalled).toLedger = b.toLedger ∨
        ∃ slot, (b.start id op signalled).toLedger = b.enter slot id op) ∧
      (b.start id op signalled).posted = b.posted ∧
      (b.start id op signalled).reaped = b.reaped := by
  unfold Bus.start
  split
  · dsimp only
    split <;> exact ⟨.inr ⟨_, rfl⟩, rfl, rfl⟩
  · exact ⟨.inl rfl, rfl, rfl⟩

/-- A turn takes off the used ring at most the first entry not read. -/
theorem reap_aside (expired : Bool) :
    (b.reap expired).toLedger = b.settle (b.engine.pass b.ring expired).1 ∧
      (b.reap expired).submitted = b.submitted ∧ (b.reap expired).taken = b.taken ∧
      (b.reap expired).work = b.work ∧ (b.reap expired).posted = b.posted := by
  refine ⟨rfl, ?_⟩
  cases hreads : b.engine.reads b.ring <;>
    simp only [reap, hreads, Bool.false_eq_true, if_true, if_false, and_self]

theorem reap_spent (h : Sound b) (hspent : Spent b) (expired : Bool) :
    Spent (b.reap expired) := by
  obtain ⟨hledger, -, -, -, hposted⟩ := reap_aside (b := b) expired
  have hold : ∀ q ∈ b.posted.take b.reaped, (b.reap expired).Closed q.request := by
    intro q hq
    rw [hledger]
    exact (hspent q hq).settle _
  unfold Spent
  rw [hposted]
  cases h.turn expired with
  | ready slot id n done hpick hready howed =>
    rw [reap_ready hpick howed] at hold ⊢
    exact hold
  | back p slot f op c hpick hunread hflight hholds hleft hreap hlive hlate =>
    have hknown : p.request < b.requests.length :=
      h.desk.known _ _ (post_out (mem_unread hunread))
    have hread : (b.reap expired).reaped = b.reaped + 1 := by
      rw [hreap]
      cases f.op <;> rfl
    rw [hread, take_add_one, hunread]
    intro q hq
    rcases mem_append.mp hq with hin | hnew
    · exact hold q hin
    obtain rfl : q = p := List.mem_singleton.mp hnew
    rw [hreap]
    cases hop : f.op with
    | none => exact ⟨hknown, hlate hop⟩
    | some op' => exact ⟨hknown, h.desk.owed_once (hlive op' hop).2.1⟩
  | timeout slot n f op hpick hread hexpired hlive hflight hlives hready howed =>
    subst hexpired
    rw [reap_timeout hpick (h.stale hread) hlive howed] at hold ⊢
    exact hold
  | rest hpick hread hlive =>
    rw [reap_rest hpick (h.stale hread) hlive]
    exact hspent

theorem step_spent (h : Sound b) (hspent : Spent b) (event : Event) : Spent (b.step event) := by
  cases event with
  | start id op signalled =>
    obtain ⟨hledger, hposted, hreaped⟩ := start_ledger b id op signalled
    intro p hp
    have hp : p ∈ (b.start id op signalled).posted.take (b.start id op signalled).reaped := hp
    rw [hposted, hreaped] at hp
    show (b.start id op signalled).Closed p.request
    rcases hledger with hsame | ⟨slot, hsame⟩
    · rw [hsame]
      exact hspent p hp
    · rw [hsame]
      exact (hspent p hp).enter slot id op
  | reap expired => exact reap_spent h hspent expired
  | take =>
    show Spent b.take
    unfold Bus.take
    split
    · exact hspent
    split <;> exact hspent
  | transfer k part offset bytes =>
    show Spent (b.transfer k part offset bytes)
    unfold transfer
    split
    · exact hspent
    split
    · exact hspent
    split <;> exact hspent
  | complete k len =>
    show Spent (b.complete k len)
    unfold Bus.complete
    split
    · exact hspent
    · intro p hp
      have hp : p ∈ (b.posted ++ [_]).take b.reaped := hp
      rw [take_append_of_le_length h.reaped_le] at hp
      exact hspent p hp

theorem run_spent (h : Sound b) (hspent : Spent b) (events : List Event) :
    Spent (b.run events) := by
  induction events generalizing b with
  | nil => exact hspent
  | cons event events ih => exact ih (step_sound h event) (step_spent h hspent event)

-- -- every request answered

/-- The device has returned everything it was given. -/
def Settled (b : Bus) : Prop := b.taken = b.submitted.length ∧ b.work = []

theorem Sound.grounded (h : Sound b) (hsettled : Settled b)
    (hread : b.posted.length = b.reaped) : pick Flight.live b.engine.flights = none := by
  refine h.desk.grounded ?_
  show b.away = 0
  simp [away, hsettled.1, hsettled.2, ← hread]

def pending (b : Bus) : Nat := (entries b.owed).card + (b.posted.length - b.reaped)

/-- A turn does something, unless all that was returned is read and no deadline
has passed. -/
theorem reap_pending (h : Sound b) (expired : Bool) :
    pending (b.reap expired) < pending b ∨
      b.reap expired = b ∧ b.posted.length = b.reaped ∧
        (expired = true ∨ Settled b → entries b.owed = 0) := by
  cases h.turn expired with
  | ready slot id n done hpick hready howed =>
    rw [reap_ready hpick howed]
    have := Desk.card_answered howed
    refine .inl ?_
    unfold pending
    dsimp only
    omega
  | back p slot f op c hpick hunread hflight hholds hleft hreap hlive hlate =>
    have hlt := (List.getElem?_eq_some_iff.mp hunread).1
    refine .inl ?_
    rw [hreap]
    cases hop : f.op with
    | none =>
      unfold pending popped
      dsimp only
      omega
    | some op' =>
      have := Desk.card_answered (hlive op' hop).2.1
      unfold pending popped
      dsimp only
      omega
  | timeout slot n f op hpick hread hexpired hlive hflight hlives hready howed =>
    subst hexpired
    rw [reap_timeout hpick (h.stale hread) hlive howed]
    have := Desk.card_answered howed
    refine .inl ?_
    unfold pending
    dsimp only
    omega
  | rest hpick hread hlive =>
    refine .inr ⟨reap_rest hpick (h.stale hread) hlive, hread, fun hdue => ?_⟩
    refine h.desk.owed_none hpick ?_
    rcases hdue with hexpired | hsettled
    · exact pick_fail_none (hlive hexpired)
    · exact h.grounded hsettled hread

theorem reap_owed (b : Bus) (expired : Bool) :
    entries (b.reap expired).owed ≤ entries b.owed := b.settle_owed _

theorem owed_of_pending (h : pending b = 0) : entries b.owed = 0 := by
  unfold pending at h
  exact card_eq_zero.mp (by omega)

theorem run_reap (b : Bus) (turns : List Bool) :
    b.run (turns.map .reap) = turns.foldl Bus.reap b := foldl_map

section

variable (h : Sound b) {turns : List Bool}
include h

theorem timeouts_answer (hturns : pending b ≤ turns.count true) :
    entries (b.run (turns.map .reap)).owed = 0 := by
  rw [run_reap]
  refine foldl_drains Sound (fun b => entries b.owed = 0) pending (· == true)
    (fun b e hdone => ?_) (fun b _ => owed_of_pending) (fun b e h => ?_) h hturns
  · exact le_zero.mp (hdone ▸ reap_owed b e)
  · rcases reap_pending h e with hless | ⟨hsame, -, hdue⟩
    · refine .inr ⟨reap_sound h e, ?_⟩
      have := Bool.toNat_le (e == true)
      omega
    · rw [hsame]
      cases e with
      | true => exact .inl (hdue (.inl rfl))
      | false => exact .inr ⟨h, le_rfl⟩

theorem reaps_answer (hsettled : Settled b) (hturns : pending b ≤ turns.length) :
    entries (b.run (turns.map .reap)).owed = 0 := by
  rw [run_reap]
  refine foldl_drains (fun b => Sound b ∧ Settled b) (fun b => entries b.owed = 0) pending
    (fun _ => true) (fun b e hdone => ?_) (fun b _ => owed_of_pending)
    (fun b e h => ?_) ⟨h, hsettled⟩ (by rwa [countP_true])
  · exact le_zero.mp (hdone ▸ reap_owed b e)
  · obtain ⟨h, hsettled⟩ := h
    rcases reap_pending h e with hless | ⟨hsame, -, hdue⟩
    · obtain ⟨-, hsubmitted, htaken, hwork, -⟩ := reap_aside (b := b) e
      refine .inr ⟨⟨reap_sound h e, ?_⟩, hless⟩
      rw [Settled, hsubmitted, htaken, hwork]
      exact hsettled
    · rw [hsame]
      exact .inl (hdue (.inr hsettled))

theorem returned_answer (hspent : Spent b) (hp : p ∈ b.posted)
    (hturns : pending b ≤ turns.length) :
    p.request ∉ entries (b.run (turns.map .reap)).owed := by
  rw [run_reap]
  refine foldl_drains (fun b => Sound b ∧ Spent b ∧ p ∈ b.posted)
    (fun b => p.request ∉ entries b.owed) pending (fun _ => true)
    (fun b e hdone hn => hdone (mem_of_le (reap_owed b e) hn)) (fun b _ hzero hn => ?_)
    (fun b e h => ?_) ⟨h, hspent, hp⟩ (by rwa [countP_true])
  · rw [owed_of_pending hzero] at hn
    exact notMem_zero _ hn
  · obtain ⟨h, hspent, hp⟩ := h
    rcases reap_pending h e with hless | ⟨hsame, hread, -⟩
    · refine .inr ⟨⟨reap_sound h e, reap_spent h hspent e, ?_⟩, hless⟩
      rw [(reap_aside e).2.2.2.2]
      exact hp
    · -- everything returned is read, this chain too
      rw [hsame]
      refine .inl (hspent p ?_).2
      rwa [← hread, take_length]

end

/-- What a turn makes of the first chain returned and not read. -/
theorem reap_returned (h : Sound b) (hpick : pick some b.engine.ready = none)
    (hp : b.posted[b.reaped]? = some p) (expired : Bool) :
    (b.reap expired).reaped = b.reaped + 1 ∧ ∃ id op, b.requests[p.request]? = some (id, op) ∧
      (b.reap expired).answers = b.answers ++
        if p.request ∈ entries b.owed then [(p.request, id, verdict p op)] else [] := by
  have hlt := (List.getElem?_eq_some_iff.mp hp).1
  cases h.turn expired with
  | ready slot id n done hsome =>
    rw [hpick] at hsome
    cases hsome
  | back q slot f op c _ hunread hflight hholds hleft hreap hlive hlate =>
    cases hp.symm.trans hunread
    rw [hreap]
    cases hop : f.op with
    | none =>
      obtain ⟨id, hid⟩ := hholds.request
      refine ⟨rfl, id, op, hid, ?_⟩
      rw [if_neg (hlate hop), append_nil]
      rfl
    | some op' =>
      obtain ⟨-, howed, hrequest⟩ := hlive op' hop
      obtain ⟨id, hid⟩ := hholds.request
      cases hid.symm.trans hrequest
      refine ⟨rfl, f.id, op, hid, ?_⟩
      rw [if_pos (mem_entries.mpr (mem_of_getElem? (slotAt_some.mp howed))),
        ← completeWithCopy_eq hholds.valid hleft]
  | timeout _ _ _ _ _ hread => omega
  | rest _ hread => omega

-- == the engine is faithful

/-- The device's view of a request: its chain and its slot's records are its
own until the chain is read back. -/
structure Owned (b : Bus) (n hd : Nat) : Prop where
  /-- The chain is still the one pushed for this request, for a slot that no
  other flight has. -/
  chain : ∃ slot f id op, slotAt b.engine.flights slot = some f ∧ f.head = hd ∧
    b.requests[n]? = some (id, op) ∧ b.chain hd = segments b.engine.config slot op ∧
    (∀ t g, slotAt b.engine.flights t = some g → g.head = hd → t = slot) ∧
    -- nothing the driver does next writes to the records of that slot
    ∀ event, (∃ id op signalled, event = .start id op signalled) ∨
      (∃ expired, event = .reap expired) → ∀ x m, Own b.engine.config slot x m →
        slice (b.step event).engine.mem x m = slice b.engine.mem x m

structure Faithful (b : Bus) : Prop where
  /-- Each request has had one answer or is owed one. -/
  account : ((b.answers.map Prod.fst : List Nat) : Multiset Nat) + entries b.owed =
    Multiset.range b.requests.length
  /-- Under its own id, and with the bytes the device left in its buffer. -/
  answers : ∀ n id done, (n, id, done) ∈ b.answers → Desk.Answers b.Done b.requests n id done
  /-- A chain read back answers its request with the status and the bytes the
  device left, if an answer is still owed; after a timeout it answers nothing. -/
  returned : ∀ p expired, pick some b.engine.ready = none → b.posted[b.reaped]? = some p →
    (b.reap expired).reaped = b.reaped + 1 ∧ ∃ id op, b.requests[p.request]? = some (id, op) ∧
      (b.reap expired).answers = b.answers ++
        if p.request ∈ entries b.owed then [(p.request, id, verdict p op)] else []
  /-- A request that the device has done is answered, whatever else is out. -/
  completed : ∀ p ∈ b.posted, ∀ turns : List Bool, pending b ≤ turns.length →
    p.request ∉ entries (b.run (turns.map .reap)).owed
  /-- When the device is done or enough deadlines pass, nothing stays owed. -/
  served : ∀ turns : List Bool, Settled b ∧ pending b ≤ turns.length ∨
    pending b ≤ turns.count true → entries (b.run (turns.map .reap)).owed = 0
  /-- The driver sees an entry exactly when a returned chain is unread. -/
  fresh : b.ring.idx ≠ b.engine.queue.usedSeen ↔ b.reaped < b.posted.length
  /-- And it is the first unread one. -/
  entry : ∀ p, b.posted[b.reaped]? = some p →
    b.ring.entries (b.engine.queue.usedSeen % b.engine.queue.size) = (p.head, p.len)
  /-- No head is given out twice, and no descriptor of a chain that is out is
  free or in another. -/
  once : (b.away.map Prod.snd).Nodup ∧ Parted ⟨b.engine.queue, b.out⟩
  /-- A chain and its records are not reused while the device has them. -/
  owned : ∀ n hd, (n, hd) ∈ b.away → Owned b n hd

theorem reap_mem (h : Sound b) (expired : Bool) : (b.reap expired).engine.mem = b.engine.mem := by
  cases h.turn expired with
  | ready slot id n done hpick hready howed => rw [reap_ready hpick howed]
  | back p slot f op c hpick hunread hflight hholds hleft hreap hlive hlate =>
    rw [hreap]
    cases f.op <;> rfl
  | timeout slot n f op hpick hread hexpired hlive hflight hlives hready howed =>
    subst hexpired
    rw [reap_timeout hpick (h.stale hread) hlive howed]
  | rest hpick hread hlive =>
    rw [reap_rest hpick (h.stale hread) hlive]

theorem start_mem (h : Sound b) {f : Flight}
    (hf : slotAt b.engine.flights slot = some f) (id : Nat) (op : BlockOp) (signalled : Bool)
    {x m : Nat} (hx : Own b.engine.config slot x m) :
    slice (b.start id op signalled).engine.mem x m = slice b.engine.mem x m := by
  cases hfree : b.engine.freeSlot with
  | none => rw [start_none hfree]
  | some slot' =>
    obtain ⟨hlt, hnone, -⟩ := freeSlot_some hfree
    have hne : slot' ≠ slot := by
      rintro rfl
      rw [hnone] at hf
      cases hf
    cases hop : validate b.engine.config.capacity op with
    | error error => rw [start_ready hfree id hop]
    | ok =>
      have hstage : slice (b.staged slot' op).engine.mem x m = slice b.engine.mem x m :=
        slice_stage hop _ hlt (h.depth ▸ slotAt_lt hf) hne hx
      obtain ⟨hparts, hlen⟩ := length_segments b.engine.config slot' op
      rcases push_cases (q := b.engine.queue) hparts hlen with hfull | ⟨-, hpush⟩
      · rw [start_full hfree id hop hfull]
        exact hstage
      · rw [start_launched hfree id hop rfl hpush]
        refine Eq.trans ?_ hstage
        rw [(launched_fields _ _ _ _ _ _ _).2.2.1]

theorem Sound.owned (h : Sound b) {n hd : Nat} (hn : (n, hd) ∈ b.away) : Owned b n hd := by
  obtain ⟨slot, op, c, hholds⟩ := h.holds n hd hn
  obtain ⟨f, hf, hhead⟩ := hholds.flight
  obtain ⟨id, hrequest⟩ := hholds.request
  refine ⟨slot, f, id, op, hf, hhead, hrequest, h.chain hholds,
    fun t g hg heq => h.slot_unique hholds hg heq, ?_⟩
  rintro event (⟨id', op', signalled, rfl⟩ | ⟨expired, rfl⟩) x m hx
  · exact start_mem h hf id' op' signalled hx
  · show slice (b.reap expired).engine.mem x m = _
    rw [reap_mem h]

/-- In every state of every run the engine answers each request once, with its
own data. -/
theorem block_engine_answers_each_request_once (c : Config) (mem : Image) (events : List Event) :
    Faithful ((Bus.new c mem).run events) := by
  have h := run_sound (new_sound c mem) events
  have hspent := run_spent (new_sound c mem) (fun p hp => by simp [Bus.new] at hp) events
  exact {
    account := h.desk.account
    answers := h.desk.answers
    returned := fun p expired hpick hp => reap_returned h hpick hp expired
    completed := fun p hp turns hturns => returned_answer h hspent hp hturns
    served := fun turns hdue => hdue.elim (fun hdone => reaps_answer h hdone.1 hdone.2)
      (timeouts_answer h)
    fresh := h.fresh
    entry := fun _ => h.entry
    once := ⟨h.desk.once, h.queue.parted⟩
    owned := fun _ _ => h.owned }

end Molt.Virtio.Block
