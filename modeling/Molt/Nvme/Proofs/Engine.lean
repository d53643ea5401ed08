/-
Every command answered once, over any number of laps of the two rings.

# What is out

`away` lists the commands the engine must not touch: submitted and not
fetched, being worked on, or completed and not read. Each is named by its
request and its command identifier. A fetch and a completion move a command
within `away`, `start` adds one and `reap` removes the one it reads, so the
engine's steps are moves of the desk (`Molt.Block.Desk`) and the controller's
leave it alone. At most eight commands are out, which is fewer than either
ring has entries.

# Invariant

`Rings` says that both rings show their logs and that the four cursors count
them, `Pages` that the commands are those of the requests and that the page of
a completed read still holds what the controller left there.
-/
import Molt.Nvme.Engine
import Molt.Lib.Lap

namespace Molt.Nvme

open Molt.Block Molt.Lib List Multiset Engine

namespace Bus

/-- The commands out, as request and identifier. -/
def away (b : Bus) : Multiset (Nat × Nat) :=
  (((b.submitted.drop b.fetched).map fun (n, c) => (n, c.cid) : List (Nat × Nat)) : Multiset _)
    + ((b.controller.work.map fun (n, c) => (n, c.cid) : List (Nat × Nat)) : Multiset _)
    + (((b.posted.drop b.reaped.length).map fun p => (p.request, p.cid) : List (Nat × Nat)) :
        Multiset _)

def desk (b : Bus) : Desk Flight where
  flights := b.engine.flights
  ready := b.engine.ready
  owed := b.owed
  requests := b.requests
  answers := b.answers
  away := b.away

/-- The answer to a request the controller has done, with the bytes its page
held then. -/
def Done (b : Bus) : Nat → BlockOp → BlockDone → Prop :=
  Desk.Given Post.request (·.code = 0) Post.bytes b.posted

end Bus

/-- A flight is known by its slot. -/
def cidOf (slot : Nat) (_ : Flight) : Nat := slot

-- == the invariant

/-- Both rings show their logs, and the cursors count them. -/
structure Rings (b : Bus) : Prop where
  sq : Laid IO_ENTRIES (fun _ s => s.2) default b.engine.sq b.submitted
  tail : b.engine.tail = b.submitted.length % IO_ENTRIES
  fetched_le : b.fetched ≤ b.submitted.length
  fetch_head : b.controller.head = b.fetched % IO_ENTRIES
  cq : Laid IO_ENTRIES (fun k p => entryOf (lap IO_ENTRIES k) p) ⟨0, 0⟩ b.engine.cq b.posted
  post_tail : b.controller.tail = b.posted.length % IO_ENTRIES
  post_phase : b.controller.phase = lap IO_ENTRIES b.posted.length
  reaped_le : b.reaped.length ≤ b.posted.length
  head : b.engine.head = b.reaped.length % IO_ENTRIES
  phase : b.engine.phase = lap IO_ENTRIES b.reaped.length
  reaped : ∀ k x, b.reaped[k]? = some x →
    ∃ p, b.posted[k]? = some p ∧ x = entryOf (lap IO_ENTRIES k) p

/-- A command is the one `start` writes for its request, which passed its
checks. -/
def Sent (b : Bus) (n : Nat) (c : Command) : Prop :=
  ∃ id op, b.requests[n]? = some (id, op) ∧ validate b.engine.space op = .ok () ∧
    c = b.engine.commandFor c.cid op

/-- The commands are those of the requests, and the page of a completed read
is as it was when the completion was posted. -/
structure Pages (b : Bus) : Prop where
  sent : ∀ n c, (n, c) ∈ b.submitted → Sent b n c
  work : ∀ x ∈ b.controller.work, x ∈ b.submitted
  post : ∀ p ∈ b.posted, ∃ c, (p.request, c) ∈ b.submitted ∧ c.cid = p.cid
  page : ∀ p ∈ b.posted.drop b.reaped.length, ∀ id sector bytes buffer,
    b.requests[p.request]? = some (id, .read sector bytes buffer) →
    slice b.engine.data (p.cid * BLOCK) bytes = p.bytes

structure Sound (b : Bus) : Prop extends Rings b, Pages b where
  depth : b.engine.flights.length = QUEUE_DEPTH
  desk : Desk.Sound cidOf Flight.live b.Done b.desk

variable {b : Bus} {buffer : Buffer} {op : BlockOp} {p : Post}

theorem Sound.room (h : Sound b) :
    b.submitted.length ≤ b.fetched + QUEUE_DEPTH ∧
      b.posted.length ≤ b.reaped.length + QUEUE_DEPTH := by
  have hcard : b.away.card ≤ b.engine.flights.length := h.desk.card_away
  rw [h.depth] at hcard
  simp only [Bus.away, card_add, coe_card, length_map, length_drop] at hcard
  omega

theorem Sound.in_flight (h : Sound b) {n slot : Nat} (hn : (n, slot) ∈ b.away) :
    ∃ f, slotAt b.engine.flights slot = some f := by
  obtain ⟨_, f, hf, rfl⟩ := h.desk.out n slot hn
  exact ⟨f, hf⟩

-- == the commands

theorem validateIo_ok {s : Namespace} {sector bytes : Nat}
    (h : validateIo s sector bytes buffer = .ok ()) :
    0 < bytes ∧ bytes ≤ BLOCK ∧ bytes ≤ buffer.bytes.length ∧ sector % s.sectorsPerBlock = 0 ∧
      bytes % s.bytes = 0 ∧ sector + bytes / SECTOR < 2 ^ 64
      ∧ sector + bytes / SECTOR ≤ s.sectors := by
  unfold validateIo at h
  split at h
  · cases h
  rename_i hrange
  split at h
  · cases h
  rename_i haligned
  simp only [not_or, Nat.not_lt, not_not] at hrange haligned
  have hend : sector + bytes / SECTOR < 2 ^ 64 ∧ sector + bytes / SECTOR ≤ s.sectors := by
    unfold bounds at h
    split_ifs at h
    · cases h
    · cases h
    · cases h
    · omega
  exact ⟨by omega, hrange.2.1, hrange.2.2, haligned.1, haligned.2, hend⟩

namespace Namespace

theorem bytes_eq (s : Namespace) : s.bytes = SECTOR * s.sectorsPerBlock := by
  rw [bytes, sectorsPerBlock, show SECTOR = 2 ^ 9 from rfl, ← Nat.pow_add]
  congr 1
  have := s.shift_low
  omega

theorem sectorsPerBlock_pos (s : Namespace) : 0 < s.sectorsPerBlock := Nat.two_pow_pos _

end Namespace

/-- A namespace has the blocks the page says. Its sectors are all of theirs
exactly if 64 bits can count them; else they are fewer, and no request goes
past the last block either way. -/
theorem accepted_namespace_has_its_size {identify : Image} {n : Namespace}
    (h : namespaceOf identify = .ok n) :
    (n.blocks = atLe identify 0 8
        ∧ n.shift = atLe identify (128 + (atLe identify 26 1 &&& 0x0f) * 4 + 2) 1)
      ∧ (n.sectors * SECTOR = n.blocks * n.bytes ↔ n.blocks * n.sectorsPerBlock < 2 ^ 64)
      ∧ ∀ sector bytes buffer, validate n (.read sector bytes buffer) = .ok ()
          ∨ validate n (.write sector bytes buffer) = .ok () →
        ∀ k < bytes / SECTOR, (sector + k) / n.sectorsPerBlock < n.blocks := by
  have hsectors : n.sectors = n.blocks * n.sectorsPerBlock % 2 ^ 64 := rfl
  refine ⟨?_, ?_, ?_⟩
  · unfold namespaceOf at h
    dsimp only at h
    split_ifs at h
    cases h
    exact ⟨rfl, rfl⟩
  · rw [hsectors, n.bytes_eq, Nat.mul_left_comm, Nat.mul_comm SECTOR,
      Nat.mul_left_inj (by decide), Nat.mod_eq_iff_lt (by decide)]
  · intro sector bytes buffer hvalid k hk
    have hvalid : validateIo n sector bytes buffer = .ok () := hvalid.elim id id
    have hend := (validateIo_ok hvalid).2.2.2.2.2.2
    apply Nat.div_lt_of_lt_mul
    have hle := Nat.mod_le (n.blocks * n.sectorsPerBlock) (2 ^ 64)
    rw [Nat.mul_comm]
    omega

def page (blocks shift : Nat) : Image := put (put blank 0 (leBytes 8 blocks)) 130 (leBytes 1 shift)

theorem accepted_namespace_has_its_size_eight :
    ∃ n, namespaceOf (page 8 9) = .ok n ∧ n.sectors * SECTOR = n.blocks * n.bytes := by
  have h : namespaceOf (page 8 9) = .ok ⟨8, 9, by decide, by decide⟩ := by decide +kernel
  exact ⟨_, h, (accepted_namespace_has_its_size h).2.1.mpr (by decide)⟩

/-- The count of sectors loses its top bit. -/
theorem vast_namespace_counts_two_sectors : ∃ n, namespaceOf (page (2 ^ 63 + 1) 10) = .ok n
    ∧ n.sectors = 2 ∧ n.sectors * SECTOR ≠ n.blocks * n.bytes :=
  ⟨⟨2 ^ 63 + 1, 10, by decide, by decide⟩, by decide +kernel, by decide +kernel, by decide +kernel⟩

/-- The sectors a command denotes, as the first and their number. -/
def Denotes (s : Namespace) (c : Command) (sector count : Nat) : Prop :=
  c.lba * s.sectorsPerBlock = sector ∧ c.blocks * s.sectorsPerBlock = count

theorem io_denotes {s : Namespace} {sector bytes : Nat}
    (h : validateIo s sector bytes buffer = .ok ()) (opcode slot data : Nat) :
    Denotes s (Command.io opcode slot (sector / s.sectorsPerBlock)
        (bytes / s.bytes % 2 ^ 16) data) sector (bytes / SECTOR) ∧
      SECTOR * (bytes / SECTOR) = bytes := by
  obtain ⟨hpos, hblock, -, hsector, hbytes, hend, -⟩ := validateIo_ok h
  have hper := s.sectorsPerBlock_pos
  have hsize := s.bytes_eq
  obtain ⟨k, rfl⟩ : s.bytes ∣ bytes := Nat.dvd_of_mod_eq_zero hbytes
  obtain ⟨lba, rfl⟩ : s.sectorsPerBlock ∣ sector := Nat.dvd_of_mod_eq_zero hsector
  rw [Denotes]
  rw [hsize] at hpos hblock hend ⊢
  generalize s.sectorsPerBlock = per at hper hpos hblock hend ⊢
  have hdiv : SECTOR * per * k / SECTOR = per * k := by
    rw [Nat.mul_assoc, Nat.mul_div_cancel_left _ (by decide)]
  have hcount : SECTOR * per * k / (SECTOR * per) = k :=
    Nat.mul_div_cancel_left _ (Nat.mul_pos (by decide) hper)
  have hfirst : per * lba / per = lba := Nat.mul_div_cancel_left _ hper
  have hB : BLOCK = 4096 := rfl
  have hkpos : 0 < k := Nat.pos_of_mul_pos_left hpos
  have hkle : k ≤ BLOCK :=
    Nat.le_trans (Nat.le_mul_of_pos_left k (Nat.mul_pos (by decide) hper)) hblock
  have hlba : lba < 2 ^ 64 := by
    have : lba ≤ per * lba := Nat.le_mul_of_pos_left lba hper
    omega
  have hlow : lba / 2 ^ 32 % 2 ^ 32 * 2 ^ 32 + lba % 2 ^ 32 = lba := by omega
  have hwide : k % 2 ^ 16 - 1 + 1 = k := by omega
  rw [hcount, hdiv, hfirst]
  refine ⟨⟨?_, ?_⟩, (Nat.mul_assoc _ _ _).symm⟩
  · rw [Nat.mul_comm per lba]
    exact congrArg (· * per) hlow
  · rw [Nat.mul_comm per k]
    exact congrArg (· * per) hwide

theorem extent_commandFor {slot sector bytes : Nat}
    (h : validate b.engine.space (.read sector bytes buffer) = .ok ()) :
    b.extent (b.engine.commandFor slot (.read sector bytes buffer)) = bytes := by
  obtain ⟨⟨-, hcount⟩, hbytes⟩ := io_denotes h READ slot (b.engine.iova + slot * BLOCK)
  rw [Bus.extent, Namespace.bytes_eq, Nat.mul_left_comm]
  show SECTOR * ((Command.io READ slot (sector / b.engine.space.sectorsPerBlock)
    (bytes / b.engine.space.bytes % 2 ^ 16) (b.engine.iova + slot * BLOCK)).blocks
      * b.engine.space.sectorsPerBlock) = bytes
  rw [hcount, hbytes]

-- == start

namespace Registers

@[simp] theorem access_submission (r : Registers) : r.access (DOORBELL + 2 * r.stride) = true := by
  have hbells := r.bells
  unfold DOORBELL at hbells
  rw [access, Bool.and_eq_true, beq_iff_eq, decide_eq_true_eq, stride, DOORBELL]
  omega

@[simp] theorem access_completion (r : Registers) : r.access (DOORBELL + 3 * r.stride) = true := by
  have hbells := r.bells
  unfold DOORBELL at hbells
  rw [access, Bool.and_eq_true, beq_iff_eq, decide_eq_true_eq, stride, DOORBELL]
  omega

end Registers

theorem freeSlot_some {e : Engine} {slot : Nat} (h : e.freeSlot = some slot) :
    slot < QUEUE_DEPTH ∧ slotAt e.flights slot = none ∧ slotAt e.ready slot = none := by
  have hmem := mem_of_find?_eq_some h
  have hfree := List.find?_some h
  simp only [Bool.and_eq_true, Option.isNone_iff_eq_none] at hfree
  exact ⟨List.mem_range.mp hmem, hfree⟩

namespace Bus

theorem start_refused {b : Bus} (h : b.engine.freeSlot = none) (id : Nat) (op : BlockOp) :
    b.start id op = b := by
  simp only [start, Engine.start, h]

theorem start_ready {b : Bus} {slot : Nat} (h : b.engine.freeSlot = some slot) (id : Nat)
    {op : BlockOp} {error : BlockError} (hop : validate b.engine.space op = .error error) :
    b.start id op = { b with
      engine := { b.engine with
        ready := b.engine.ready.set slot (some (id, finish op (.error error))) }
      toLedger := b.enter slot id op } := by
  simp only [start, Engine.start, h, hop]

theorem start_flying {b : Bus} {slot : Nat} (h : b.engine.freeSlot = some slot) (id : Nat)
    {op : BlockOp} (hop : validate b.engine.space op = .ok ()) :
    b.start id op = { b with
      engine := { b.engine with
        data := stage b.engine.data slot op
        sq := Function.update b.engine.sq b.engine.tail (b.engine.commandFor slot op)
        flights := b.engine.flights.set slot (some ⟨id, some op⟩)
        tail := (b.engine.tail + 1) % IO_ENTRIES }
      toLedger := b.enter slot id op
      submitted := b.submitted ++ [(b.requests.length, b.engine.commandFor slot op)] } := by
  simp only [start, Engine.start, h, hop, Registers.access_submission, if_true]

end Bus

@[simp] theorem cid_commandFor (e : Engine) (slot : Nat) (op : BlockOp) :
    (e.commandFor slot op).cid = slot := by
  cases op <;> rfl

theorem Sent.mono {b b' : Bus} {n : Nat} {c : Command} (h : Sent b n c)
    (hrequests : ∀ (n : Nat) r, b.requests[n]? = some r → b'.requests[n]? = some r)
    (hspace : b'.engine.space = b.engine.space) (hiova : b'.engine.iova = b.engine.iova) :
    Sent b' n c := by
  obtain ⟨id, op, hop, hvalid, hc⟩ := h
  refine ⟨id, op, hrequests _ _ hop, hspace ▸ hvalid, ?_⟩
  rw [hc, cid_commandFor]
  cases op <;> simp only [commandFor, ioCommand, hspace, hiova]

theorem Pages.post_out (hp : p ∈ b.posted.drop b.reaped.length) : (p.request, p.cid) ∈ b.away := by
  refine mem_add.mpr (.inr (mem_coe.mpr ?_))
  exact mem_map.mpr ⟨p, hp, rfl⟩

/-- The request of a completion, and that its bytes fit a page. -/
theorem Pages.post_request (h : Pages b) (hp : p ∈ b.posted) :
    ∃ id op, b.requests[p.request]? = some (id, op) ∧ validate b.engine.space op = .ok () := by
  obtain ⟨c, hc, -⟩ := h.post p hp
  obtain ⟨id, op, hop, hvalid, -⟩ := h.sent _ _ hc
  exact ⟨id, op, hop, hvalid⟩

theorem validate_read {s : Namespace} {sector bytes : Nat}
    (h : validate s (.read sector bytes buffer) = .ok ()) : bytes ≤ BLOCK :=
  (validateIo_ok h).2.1

theorem page_disjoint {slot cid m n offset : Nat} (h : slot ≠ cid) (hm : offset + m ≤ BLOCK)
    (hn : n ≤ BLOCK) :
    cid * BLOCK + n ≤ slot * BLOCK + offset ∨ slot * BLOCK + offset + m ≤ cid * BLOCK := by
  rcases Nat.lt_or_gt_of_ne h with hlt | hgt
  · have := Nat.mul_le_mul_right BLOCK (Nat.succ_le_of_lt hlt)
    rw [Nat.succ_mul] at this
    omega
  · have := Nat.mul_le_mul_right BLOCK (Nat.succ_le_of_lt hgt)
    rw [Nat.succ_mul] at this
    omega

theorem slice_stage {s : Namespace} (hvalid : validate s op = .ok ())
    (data : Image) {slot cid n : Nat} (h : slot ≠ cid) (hn : n ≤ BLOCK) :
    slice (stage data slot op) (cid * BLOCK) n = slice data (cid * BLOCK) n := by
  cases op with
  | read => rfl
  | flush => rfl
  | write sector bytes buffer =>
    obtain ⟨-, hblock, hlen, -⟩ := validateIo_ok hvalid
    refine slice_put_of_disjoint ?_
    rw [length_take_of_le hlen, ← Nat.add_zero (slot * BLOCK)]
    exact page_disjoint h ((Nat.zero_add bytes).symm ▸ hblock) hn

theorem start_ready_sound (h : Sound b) {slot : Nat}
    (hfree : b.engine.freeSlot = some slot) (id : Nat) {error : BlockError}
    (hop : validate b.engine.space op = .error error) : Sound (b.start id op) := by
  obtain ⟨hlt, hflight, hready⟩ := freeSlot_some hfree
  have hsame : b.engine.flights = b.engine.flights.set slot none := by rw [← hflight, set_slotAt]
  rw [Bus.start_ready hfree id hop]
  refine ⟨{ h with }, ?_, h.depth, h.desk.moved (.refuse error (h.depth.symm ▸ hlt) hflight hready)
      (Desk.ext hsame rfl rfl rfl rfl (zero_add _).symm)⟩
  refine ⟨fun n c hc => (h.sent n c hc).mono (fun _ _ => Desk.getElem?_snoc) rfl rfl, h.work,
    h.post, ?_⟩
  intro p hp id' sector bytes buffer hr
  obtain ⟨id0, op0, hop0, -⟩ := h.toPages.post_request (mem_of_mem_drop hp)
  have hsame := hr.symm.trans (Desk.getElem?_snoc (x := (id, op)) hop0)
  exact h.page p hp id' sector bytes buffer (by rw [hop0, hsame])

theorem away_start_flying (b : Bus) (h : b.fetched ≤ b.submitted.length) {slot : Nat}
    (hfree : b.engine.freeSlot = some slot) (id : Nat)
    (hop : validate b.engine.space op = .ok ()) :
    (b.start id op).away = (b.requests.length, slot) ::ₘ b.away := by
  rw [Bus.start_flying hfree id hop]
  simp only [Bus.away, List.drop_append_of_le_length h, List.map_append, List.map_cons,
    map_nil, cid_commandFor, ← coe_add, coe_singleton]
  rw [← singleton_add]
  abel

theorem start_flying_sound (h : Sound b) {slot : Nat}
    (hfree : b.engine.freeSlot = some slot) (id : Nat)
    (hop : validate b.engine.space op = .ok ()) : Sound (b.start id op) := by
  obtain ⟨hlt, hflight, hready⟩ := freeSlot_some hfree
  have haway := away_start_flying b h.fetched_le hfree id hop
  have hout : ∀ n, (n, slot) ∉ b.away := by
    intro n hn
    obtain ⟨f, hf⟩ := h.in_flight hn
    rw [hflight] at hf
    cases hf
  have hfresh : cidOf slot ⟨id, some op⟩ ∉ b.away.map Prod.snd := by
    intro hmem
    obtain ⟨⟨n, k⟩, hn, hk⟩ := Multiset.mem_map.mp hmem
    cases hk
    exact hout n hn
  have hsame : b.engine.ready = b.engine.ready.set slot none := by rw [← hready, set_slotAt]
  rw [Bus.start_flying hfree id hop] at haway ⊢
  have hnew : (b.requests ++ [(id, op)])[b.requests.length]? = some (id, op) :=
    getElem?_concat_length
  refine ⟨?_, ?_, ?_, h.desk.moved (.fly (h.depth.symm ▸ hlt) hflight hready (rfl :
    Flight.live ⟨id, some op⟩ = some (id, op)) hfresh)
    (Desk.ext rfl hsame rfl rfl rfl haway)⟩
  · refine { h with sq := ?_, tail := ?_, fetched_le := ?_ }
    · rw [h.tail]
      exact h.sq.push (b.requests.length, b.engine.commandFor slot op)
    · rw [h.tail, Nat.mod_add_mod, length_append, length_singleton]
    · show b.fetched ≤ (b.submitted ++ _).length
      have := h.fetched_le
      rw [length_append]
      omega
  · refine ⟨fun n c hc => ?_, fun x hx => mem_append_left _ (h.work x hx), fun p hp => ?_, ?_⟩
    · rcases mem_append.mp hc with hold | hlast
      · exact (h.sent n c hold).mono (fun _ _ => Desk.getElem?_snoc) rfl rfl
      · cases List.mem_singleton.mp hlast
        refine ⟨id, op, hnew, hop, ?_⟩
        rw [cid_commandFor]
        cases op <;> rfl
    · obtain ⟨c, hc, hcid⟩ := h.post p hp
      exact ⟨c, mem_append_left _ hc, hcid⟩
    intro p hp id' sector bytes buffer hr
    obtain ⟨id0, op0, hop0, hvalid⟩ := h.toPages.post_request (mem_of_mem_drop hp)
    cases hr.symm.trans (Desk.getElem?_snoc (x := (id, op)) hop0)
    have hne : slot ≠ p.cid := by
      rintro rfl
      exact hout _ (Pages.post_out hp)
    rw [slice_stage hop _ hne (validate_read hvalid)]
    exact h.page p hp id' sector bytes buffer hop0
  · rw [length_set, h.depth]

theorem start_sound (h : Sound b) (id : Nat) (op : BlockOp) : Sound (b.start id op) := by
  cases hfree : b.engine.freeSlot with
  | none =>
    rw [Bus.start_refused hfree]
    exact h
  | some slot =>
    cases hop : validate b.engine.space op with
    | error error => exact start_ready_sound h hfree id hop
    | ok => exact start_flying_sound h hfree id hop

-- == the controller

theorem fetch_sound (h : Sound b) : Sound b.fetch := by
  unfold Bus.fetch
  split
  · exact h
  rename_i hbell
  split
  · exact h
  rename_i n c hc
  -- the doorbell is ahead, so the ring still shows the next command
  have hlt : b.fetched < b.submitted.length := (List.getElem?_eq_some_iff.mp hc).1
  have hroom := h.room.1
  have hE : IO_ENTRIES = QUEUE_DEPTH + 1 := rfl
  have hread : b.engine.sq b.controller.head = c := by
    rw [h.fetch_head]
    exact h.sq.shows b.fetched (n, c) hc (by omega)
  rw [hread]
  refine ⟨{ h with fetched_le := hlt, fetch_head := ?_ }, ?_, h.depth,
    h.desk.aside (Desk.ext rfl rfl rfl rfl rfl ?_) fun _ hp => hp⟩
  · rw [h.fetch_head, Nat.mod_add_mod]
  · refine ⟨h.sent, fun x hx => ?_, h.post, h.page⟩
    rcases mem_append.mp hx with hold | hnew
    · exact h.work x hold
    · rw [List.mem_singleton.mp hnew]
      exact mem_of_getElem? hc
  · obtain ⟨hi, hget⟩ := List.getElem?_eq_some_iff.mp hc
    simp only [Bus.desk, Bus.away]
    rw [List.drop_eq_getElem_cons hi, hget]
    simp only [List.map_append, List.map_cons, List.map_nil, ← Multiset.coe_add,
      ← Multiset.cons_coe, Multiset.coe_nil]
    simp only [← Multiset.singleton_add, Multiset.add_zero]
    abel

theorem Pages.read_page (h : Pages b) {n : Nat} {c : Command}
    (hc : (n, c) ∈ b.submitted) {id sector bytes : Nat}
    (hr : b.requests[n]? = some (id, .read sector bytes buffer)) :
    c.prp1 - b.engine.iova = c.cid * BLOCK ∧ b.extent c = bytes ∧ bytes ≤ BLOCK := by
  obtain ⟨id', op, hop, hvalid, heq⟩ := h.sent n c hc
  rw [hr] at hop
  cases hop
  refine ⟨?_, ?_, validate_read hvalid⟩
  · rw [heq, cid_commandFor]
    exact Nat.add_sub_cancel_left _ _
  · rw [heq]
    exact extent_commandFor hvalid

theorem Pages.opcode_read (h : Pages b) {n : Nat} {c : Command}
    (hc : (n, c) ∈ b.submitted) (hread : c.opcode = READ) :
    ∃ id sector bytes buffer, b.requests[n]? = some (id, .read sector bytes buffer) := by
  obtain ⟨id, op, hop, -, heq⟩ := h.sent n c hc
  cases op with
  | read sector bytes buffer => exact ⟨id, sector, bytes, buffer, hop⟩
  | write | flush =>
    rw [heq] at hread
    cases hread

/-- A command being worked on and a completion not read have different
identifiers. -/
theorem Sound.work_ne_post (h : Sound b) {x : Nat × Command}
    (hx : x ∈ b.controller.work) (hp : p ∈ b.posted.drop b.reaped.length) : x.2.cid ≠ p.cid := by
  have hcids : (b.away.map Prod.snd).Nodup := h.desk.once
  rw [Bus.away, map_add, map_add] at hcids
  have hdisjoint := (nodup_add.mp hcids).2.2
  intro heq
  refine disjoint_left.mp hdisjoint (?_ : x.2.cid ∈ _) ?_
  · refine mem_add.mpr (.inr ?_)
    exact Multiset.mem_map.mpr ⟨(x.1, x.2.cid), List.mem_map.mpr ⟨x, hx, rfl⟩, rfl⟩
  · rw [heq]
    exact Multiset.mem_map.mpr ⟨(p.request, p.cid), List.mem_map.mpr ⟨p, hp, rfl⟩, rfl⟩

theorem transfer_sound (h : Sound b) (k offset : Nat) (bytes : List UInt8) :
    Sound (b.transfer k offset bytes) := by
  unfold Bus.transfer
  split
  case h_1 => exact h
  case h_2 n c hk =>
    split
    case isFalse => exact h
    case isTrue hmove =>
      refine ⟨{ h with }, ?_, h.depth,
        h.desk.aside (Desk.ext rfl rfl rfl rfl rfl rfl) fun _ hp => hp⟩
      have hwork := mem_of_getElem? hk
      have hc := h.work _ hwork
      refine ⟨h.sent, h.work, h.post, fun p hp id sector m buffer hr => ?_⟩
      obtain ⟨id1, sector1, m1, buffer1, hr1⟩ := h.toPages.opcode_read hc hmove.1
      obtain ⟨hbase, hextent, hfit⟩ := h.toPages.read_page hc hr1
      obtain ⟨c2, hc2, -⟩ := h.post p (mem_of_mem_drop hp)
      obtain ⟨-, -, hm⟩ := h.toPages.read_page hc2 hr
      have hne := h.work_ne_post hwork hp
      rw [hbase, slice_put_of_disjoint (page_disjoint hne (by omega) hm)]
      exact h.page p hp id sector m buffer hr

theorem complete_sound (h : Sound b) (k code : Nat) : Sound (b.complete k code) := by
  unfold Bus.complete
  split
  · exact h
  rename_i n c hk
  split
  · exact h
  have hwork := mem_of_getElem? hk
  have hc := h.work _ hwork
  have hle := h.reaped_le
  generalize hp : (⟨n, c.cid, code, slice b.engine.data (c.prp1 - b.engine.iova)
    (b.extent c)⟩ : Post) = p
  have hreq : p.request = n := by rw [← hp]
  have hcid : p.cid = c.cid := by rw [← hp]
  refine ⟨⟨h.sq, h.tail, h.fetched_le, h.fetch_head, ?_, ?_, ?_, ?_, h.head, h.phase, ?_⟩,
    ⟨h.sent, ?_, ?_, ?_⟩, h.depth,
    h.desk.aside (Desk.ext rfl rfl rfl rfl rfl ?_) fun q hq => mem_append_left _ hq⟩
  · rw [h.post_tail, h.post_phase]
    exact h.cq.push p
  · show (b.controller.tail + 1) % IO_ENTRIES = (b.posted ++ [p]).length % IO_ENTRIES
    rw [h.post_tail, Nat.mod_add_mod, length_append, length_singleton]
  · show (if (b.controller.tail + 1) % IO_ENTRIES = 0 then !b.controller.phase
      else b.controller.phase) = lap IO_ENTRIES (b.posted ++ [p]).length
    rw [h.post_tail, h.post_phase, Nat.mod_add_mod, length_append, length_singleton, lap_succ]
  · show b.reaped.length ≤ (b.posted ++ [p]).length
    rw [length_append]
    omega
  · intro j x hx
    obtain ⟨q, hq, heq⟩ := h.reaped j x hx
    exact ⟨q, Desk.getElem?_snoc hq, heq⟩
  · exact fun x hx => h.work x (mem_of_mem_eraseIdx hx)
  · intro q hq
    rcases mem_append.mp hq with hold | hnew
    · exact h.post q hold
    · rw [List.mem_singleton.mp hnew, hreq, hcid]
      exact ⟨c, hc, rfl⟩
  · intro q hq id sector m buffer hr
    rw [drop_append_of_le_length hle] at hq
    rcases mem_append.mp hq with hold | hnew
    · exact h.page q hold id sector m buffer hr
    · obtain rfl : q = p := List.mem_singleton.mp hnew
      rw [hreq] at hr
      obtain ⟨hbase, hextent, -⟩ := h.toPages.read_page hc hr
      rw [← hp, hbase, hextent]
  · -- the command moves from the controller's hands to the ring
    have hperm : b.controller.work.Perm ((n, c) :: b.controller.work.eraseIdx k) := by
      obtain ⟨hi, hget⟩ := List.getElem?_eq_some_iff.mp hk
      rw [← hget]
      exact (getElem_cons_eraseIdx_perm hi).symm
    have hmoved := coe_eq_coe.mpr (hperm.map fun (n, c) => (n, c.cid))
    simp only [Bus.desk, Bus.away]
    rw [drop_append_of_le_length hle, map_append, ← coe_add, hmoved]
    simp only [List.map_cons, List.map_nil, hreq, hcid, ← Multiset.cons_coe,
      ← singleton_add, coe_nil, add_zero]
    abel

-- == reap

@[simp] theorem phase_entryOf (phase : Bool) (p : Post) : (entryOf phase p).phase = phase := by
  cases phase <;> simp [entryOf, Entry.phase, Nat.add_mod]

@[simp] theorem code_entryOf (phase : Bool) (p : Post) : (entryOf phase p).code = p.code := by
  cases phase
  · exact Nat.mul_div_cancel_left p.code (by decide)
  · show (2 * p.code + 1) / 2 = p.code
    omega

theorem Sound.fresh (h : Sound b) :
    b.engine.front.phase = b.engine.phase ↔ b.reaped.length < b.posted.length := by
  have hroom := h.room.2
  have hE : IO_ENTRIES = QUEUE_DEPTH + 1 := rfl
  rw [h.phase, front, h.head]
  exact h.cq.marked (by decide) Entry.phase (fun k p => phase_entryOf _ p) rfl h.reaped_le
    (by omega)

theorem Sound.stale (h : Sound b) (hread : b.posted.length = b.reaped.length) :
    b.engine.front.phase ≠ b.engine.phase := by
  rw [Ne, h.fresh]
  omega

theorem Sound.front (h : Sound b)
    (hp : b.posted[b.reaped.length]? = some p) :
    b.engine.front = entryOf (lap IO_ENTRIES b.reaped.length) p := by
  have hroom := h.room.2
  have hE : IO_ENTRIES = QUEUE_DEPTH + 1 := rfl
  rw [Engine.front, h.head]
  exact h.cq.shows _ p hp (by omega)

theorem Sound.front_cid (h : Sound b) (hp : b.posted[b.reaped.length]? = some p) :
    b.engine.front.cid = p.cid := by
  rw [h.front hp]
  rfl

theorem advance_eq {e : Engine} {r : Nat} (hhead : e.head = r % IO_ENTRIES)
    (hphase : e.phase = lap IO_ENTRIES r) :
    e.advance =
      (true, { e with head := (r + 1) % IO_ENTRIES, phase := lap IO_ENTRIES (r + 1) }) := by
  have hnext := succ_mod (n := IO_ENTRIES) (k := r) (by decide)
  rw [advance, Registers.access_completion, lap_succ, hhead, hphase, hnext]
  split
  case isTrue => rw [if_pos rfl]
  case isFalse => rw [if_neg (Nat.succ_ne_zero _)]

/-- A step along the ring touches neither the slots nor the pages. -/
theorem advance_keeps (e : Engine) : e.advance.1 = true ∧ e.advance.2.flights = e.flights ∧
    e.advance.2.data = e.data ∧ e.advance.2.ready = e.ready := by
  refine ⟨e.registers.access_completion, ?_⟩
  unfold advance
  dsimp only
  split <;> exact ⟨rfl, rfl, rfl⟩

namespace Bus

theorem reap_ready {b : Bus} {slot id : Nat} {done : BlockDone}
    (h : pick some b.engine.ready = some (slot, id, done)) {n : Nat}
    (howed : slotAt b.owed slot = some n) (expired : Bool) :
    b.reap expired = { b with
      engine := { b.engine with ready := b.engine.ready.set slot none }
      owed := b.owed.set slot none
      answers := b.answers ++ [(n, id, done)] } := by
  simp [reap, Engine.pass, Engine.reads, h, Ledger.settle, howed]

section

variable {b : Bus} (hready : pick some b.engine.ready = none)

include hready

theorem reads_fresh (hfresh : b.engine.front.phase = b.engine.phase) : b.engine.reads = true := by
  simp [reads, hready, hfresh]

theorem reads_stale (hstale : b.engine.front.phase ≠ b.engine.phase) : b.engine.reads = false := by
  simp [reads, hready, hstale]

theorem reap_done (hfresh : b.engine.front.phase = b.engine.phase)
    {cid code id n : Nat} {op : BlockOp}
    (hcid : b.engine.front.cid = cid) (hcode : b.engine.front.code = code)
    (hflight : slotAt b.engine.flights cid = some ⟨id, some op⟩)
    (howed : slotAt b.owed cid = some n) (expired : Bool) :
    b.reap expired = { b with
      engine := { b.engine.advance.2 with flights := b.engine.flights.set cid none }
      reaped := b.reaped ++ [b.engine.front]
      owed := b.owed.set cid none
      answers := b.answers ++ [(n, id,
        if code ≠ 0 then finish op (.error .device)
        else finish (Engine.copyRead b.engine.data cid op) (.ok ()))] } := by
  subst hcid hcode
  obtain ⟨hrung, hflights, hdata, -⟩ := advance_keeps b.engine
  simp only [reap, reads_fresh hready hfresh, if_true, Engine.pass, hready, if_pos hfresh,
    Engine.consume, hrung, hflights, hdata, hflight, Bool.not_true, Bool.false_eq_true, if_false]
  by_cases hzero : b.engine.front.code = 0 <;> simp [hzero, Ledger.settle, howed]

theorem reap_late (hfresh : b.engine.front.phase = b.engine.phase) {cid id : Nat}
    (hcid : b.engine.front.cid = cid)
    (hflight : slotAt b.engine.flights cid = some ⟨id, none⟩) (expired : Bool) :
    b.reap expired = { b with
      engine := { b.engine.advance.2 with flights := b.engine.flights.set cid none }
      reaped := b.reaped ++ [b.engine.front] } := by
  subst hcid
  obtain ⟨hrung, hflights, -⟩ := advance_keeps b.engine
  simp only [reap, reads_fresh hready hfresh, if_true, Engine.pass, hready, if_pos hfresh,
    Engine.consume, hrung, hflights, hflight, Bool.not_true, Bool.false_eq_true, if_false,
    Ledger.settle]

theorem reap_timeout (hstale : b.engine.front.phase ≠ b.engine.phase)
    {slot id n : Nat} {op : BlockOp}
    (hpick : pick Flight.live b.engine.flights = some (slot, id, op))
    (howed : slotAt b.owed slot = some n) :
    b.reap true = { b with
      engine := { b.engine with flights := b.engine.flights.set slot (some ⟨id, none⟩) }
      owed := b.owed.set slot none
      answers := b.answers ++ [(n, id, finish op (.error .timeout))] } := by
  simp [reap, reads_stale hready hstale, Engine.pass, hready, hstale, Engine.timeoutOne,
    Engine.failOne, hpick, Ledger.settle, howed]

theorem reap_rest (hstale : b.engine.front.phase ≠ b.engine.phase) {expired : Bool}
    (h : expired = true → pick Flight.live b.engine.flights = none) : b.reap expired = b := by
  cases expired with
  | true =>
    simp [reap, reads_stale hready hstale, Engine.pass, hready, hstale, Engine.timeoutOne,
      Engine.failOne, h rfl, Ledger.settle]
  | false =>
    cases hlive : b.engine.hasLiveRequest <;>
      simp [reap, reads_stale hready hstale, Engine.pass, hready, hstale, hlive, Ledger.settle]

end

end Bus

-- -- the cases of one turn

inductive Turn (b : Bus) (expired : Bool) : Prop where
  | ready (slot id n : Nat) (done : BlockDone)
      (pick : pick some b.engine.ready = some (slot, id, done))
      (ready : slotAt b.engine.ready slot = some (id, done)) (owed : slotAt b.owed slot = some n)
  | done (p : Post) (id : Nat) (op : BlockOp) (pick : pick some b.engine.ready = none)
      (unread : b.posted[b.reaped.length]? = some p)
      (flight : slotAt b.engine.flights p.cid = some ⟨id, some op⟩)
      (ready : slotAt b.engine.ready p.cid = none)
      (owed : slotAt b.owed p.cid = some p.request)
      (request : b.requests[p.request]? = some (id, op))
  | late (p : Post) (id : Nat) (pick : pick some b.engine.ready = none)
      (unread : b.posted[b.reaped.length]? = some p)
      (flight : slotAt b.engine.flights p.cid = some ⟨id, none⟩)
  | timeout (slot id n : Nat) (op : BlockOp) (pick : Lib.pick some b.engine.ready = none)
      (read : b.posted.length = b.reaped.length) (expired : expired = true)
      (live : Lib.pick Flight.live b.engine.flights = some (slot, id, op))
      (flight : slotAt b.engine.flights slot = some ⟨id, some op⟩)
      (ready : slotAt b.engine.ready slot = none) (owed : slotAt b.owed slot = some n)
  | rest (pick : Lib.pick some b.engine.ready = none) (read : b.posted.length = b.reaped.length)
      (live : expired = true → Lib.pick Flight.live b.engine.flights = none)

theorem live_some {f : Flight} {id : Nat} (h : f.live = some (id, op)) : f = ⟨id, some op⟩ := by
  obtain ⟨id', op'⟩ := f
  obtain ⟨_, rfl, heq⟩ := Option.map_eq_some_iff.mp h
  cases heq
  rfl

theorem mem_unread (hp : b.posted[b.reaped.length]? = some p) :
    p ∈ b.posted.drop b.reaped.length := by
  rw [mem_iff_getElem?]
  exact ⟨0, by rw [getElem?_drop, Nat.add_zero, hp]⟩

theorem Sound.turn (h : Sound b) (expired : Bool) : Turn b expired := by
  cases hready : pick some b.engine.ready with
  | some found =>
    obtain ⟨slot, id, done⟩ := found
    obtain ⟨hslot, n, howed⟩ := h.desk.handed hready
    exact .ready slot id n done hready hslot howed
  | none =>
    by_cases hread : b.reaped.length < b.posted.length
    · -- the completion in front is of a command that is out
      have hp : b.posted[b.reaped.length]? = some b.posted[b.reaped.length] :=
        getElem?_eq_getElem hread
      generalize b.posted[b.reaped.length] = p at hp
      obtain ⟨_, f, hf, rfl, hcases⟩ := h.desk.landing (Pages.post_out (mem_unread hp))
      rcases hcases with ⟨id, op, hlive, hfree, howed, hrequest⟩ | ⟨hdead, -⟩
      · cases live_some hlive
        exact .done p id op hready hp hf hfree howed hrequest
      · obtain ⟨id, op⟩ := f
        obtain rfl : op = none := Option.map_eq_none_iff.mp hdead
        exact .late p id hready hp hf
    · have hread : b.posted.length = b.reaped.length := by
        have := h.reaped_le
        omega
      by_cases hlive : expired = true → pick Flight.live b.engine.flights = none
      · exact .rest hready hread hlive
      obtain ⟨hexpired, hpick⟩ := Classical.not_imp.mp hlive
      obtain ⟨⟨slot, id, op⟩, hpick⟩ := Option.ne_none_iff_exists'.mp hpick
      obtain ⟨f, n, hf, hlives, hfree, howed⟩ := h.desk.expiring hpick
      cases live_some hlives
      exact .timeout slot id n op hready hread hexpired hpick hf hfree howed

theorem away_reaped (b' : Bus) (hp : b.posted[b.reaped.length]? = some p) {x : Entry}
    (hsubmitted : b'.submitted = b.submitted) (hfetched : b'.fetched = b.fetched)
    (hwork : b'.controller = b.controller) (hposted : b'.posted = b.posted)
    (hreaped : b'.reaped = b.reaped ++ [x]) : b.away = (p.request, p.cid) ::ₘ b'.away := by
  obtain ⟨hi, hget⟩ := List.getElem?_eq_some_iff.mp hp
  simp only [Bus.away, hsubmitted, hfetched, hwork, hposted, hreaped, length_append,
    List.length_singleton]
  rw [List.drop_eq_getElem_cons hi, hget, List.map_cons, ← Multiset.cons_coe,
    ← Multiset.singleton_add, ← Multiset.singleton_add]
  abel

theorem reaped_rings (b' : Bus) (h : Sound b)
    (hp : b.posted[b.reaped.length]? = some p)
    (heq : b' = { b with
      engine := { b.engine.advance.2 with flights := b'.engine.flights }
      reaped := b.reaped ++ [b.engine.front]
      owed := b'.owed
      answers := b'.answers }) : Rings b' ∧ Pages b' := by
  have hlt := (List.getElem?_eq_some_iff.mp hp).1
  rw [advance_eq h.head h.phase] at heq
  rw [heq]
  refine ⟨{ h with reaped_le := ?_, head := ?_, phase := ?_, reaped := fun k x hx => ?_ }, h.sent,
    h.work, h.post, fun q hq => ?_⟩
  · rw [length_append, length_singleton]
    exact hlt
  · rw [length_append, length_singleton]
  · rw [length_append, length_singleton]
  · by_cases hk : k < b.reaped.length
    · rw [getElem?_append_left hk] at hx
      exact h.reaped k x hx
    rw [getElem?_append_right (Nat.le_of_not_lt hk), getElem?_singleton] at hx
    split at hx
    case isTrue hzero =>
      cases hx
      obtain rfl : k = b.reaped.length := by omega
      exact ⟨p, hp, h.front hp⟩
    case isFalse => cases hx
  · refine h.page q ?_
    have hq : q ∈ b.posted.drop (b.reaped ++ [b.engine.front]).length := hq
    rw [length_append, length_singleton, ← drop_drop] at hq
    exact mem_of_mem_drop hq

theorem reap_sound (h : Sound b) (expired : Bool) : Sound (b.reap expired) := by
  cases h.turn expired with
  | ready slot id n done hpick hready howed =>
    rw [Bus.reap_ready hpick howed]
    refine ⟨{ h with }, { h with }, h.depth,
      h.desk.moved (.hand hready howed) (Desk.ext ?_ rfl rfl rfl rfl rfl)⟩
    exact (set_slotAt _ _).symm
  | done p id op hpick hunread hflight hready howed hrequest =>
    have hfresh := h.fresh.mpr (List.getElem?_eq_some_iff.mp hunread).1
    have hcode : b.engine.front.code = p.code := by rw [h.front hunread, code_entryOf]
    have heq := Bus.reap_done hpick hfresh (h.front_cid hunread) hcode hflight howed expired
    rw [advance_eq h.head h.phase] at heq
    generalize b.reap expired = b' at heq ⊢
    have haway := away_reaped b' hunread (by rw [heq]) (by rw [heq]) (by rw [heq])
      (by rw [heq]) (by rw [heq])
    obtain ⟨hrings, hpages⟩ := reaped_rings b' h hunread (by rw [heq, advance_eq h.head h.phase])
    have hsame : b.engine.ready = b.engine.ready.set p.cid none := by rw [← hready, set_slotAt]
    have hright : (∃ error, (if p.code ≠ 0 then finish op (.error .device)
          else finish (copyRead b.engine.data p.cid op) (.ok ())) = finish op (.error error))
        ∨ b.Done p.request op (if p.code ≠ 0 then finish op (.error .device)
          else finish (copyRead b.engine.data p.cid op) (.ok ())) := by
      by_cases hzero : p.code = 0
      · rw [if_neg (not_not.mpr hzero)]
        refine .inr ⟨p, mem_of_getElem? hunread, rfl, hzero, congrArg (finish · _) ?_⟩
        cases op with
        | write => rfl
        | flush => rfl
        | read sector bytes buffer =>
          rw [copyRead, h.page p (mem_unread hunread) id sector bytes buffer hrequest]
      · rw [if_pos hzero]
        exact .inl ⟨_, rfl⟩
    refine ⟨hrings, hpages, by rw [heq]; exact (length_set).trans h.depth,
      (h.desk.moved (.land haway hflight rfl howed hright) rfl).aside
        (Desk.ext ?_ ?_ ?_ ?_ ?_ rfl) ?_⟩
    all_goals rw [heq]
    all_goals first | rfl | exact hsame | exact fun _ hq => hq
  | late p id hpick hunread hflight =>
    have hfresh := h.fresh.mpr (List.getElem?_eq_some_iff.mp hunread).1
    have heq := Bus.reap_late hpick hfresh (h.front_cid hunread) hflight expired
    generalize b.reap expired = b' at heq ⊢
    have haway := away_reaped b' hunread (by rw [heq]) (by rw [heq]) (by rw [heq])
      (by rw [heq]) (by rw [heq])
    obtain ⟨hrings, hpages⟩ := reaped_rings b' h hunread (by rw [heq])
    rw [advance_eq h.head h.phase] at heq
    refine ⟨hrings, hpages, by rw [heq]; exact (length_set).trans h.depth,
      (h.desk.moved (.late haway hflight rfl) rfl).aside (Desk.ext ?_ ?_ ?_ ?_ ?_ rfl) ?_⟩
    all_goals rw [heq]
    all_goals first | rfl | exact fun _ hq => hq
  | timeout slot id n op hpick hread hexpired hlive hflight hready howed =>
    subst hexpired
    rw [Bus.reap_timeout hpick (h.stale hread) hlive howed]
    have hsame : b.engine.ready = b.engine.ready.set slot none := by rw [← hready, set_slotAt]
    refine ⟨{ h with }, { h with }, (length_set).trans h.depth,
      h.desk.moved (.expire .timeout hflight (rfl : Flight.live ⟨id, some op⟩ = some (id, op))
        (rfl : Flight.live ⟨id, none⟩ = none) rfl howed) (Desk.ext rfl hsame rfl rfl rfl rfl)⟩
  | rest hpick hread hlive =>
    rw [Bus.reap_rest hpick (h.stale hread) hlive]
    exact h

-- == whole runs

theorem step_sound (h : Sound b) (event : Event) : Sound (b.step event) := by
  cases event with
  | start id op => exact start_sound h id op
  | reap expired => exact reap_sound h expired
  | fetch => exact fetch_sound h
  | transfer k offset bytes => exact transfer_sound h k offset bytes
  | complete k code => exact complete_sound h k code

theorem run_sound (h : Sound b) (events : List Event) : Sound (b.run events) := by
  induction events generalizing b with
  | nil => exact h
  | cons event events ih => exact ih (step_sound h event)

theorem new_sound (registers : Registers) (space : Namespace) (iova : Nat) (data : Image) :
    Sound (Bus.new registers space iova data) where
  sq := .nil
  tail := rfl
  fetched_le := Nat.le_refl 0
  fetch_head := rfl
  cq := .nil
  post_tail := rfl
  post_phase := (lap_of_lt (show 0 < IO_ENTRIES by decide)).symm
  reaped_le := Nat.le_refl 0
  head := rfl
  phase := (lap_of_lt (show 0 < IO_ENTRIES by decide)).symm
  reaped k x hx := by simp [Bus.new] at hx
  sent n c hc := by simp [Bus.new] at hc
  work x hx := by simp [Bus.new] at hx
  post p hp := by simp [Bus.new] at hp
  page p hp := by simp [Bus.new] at hp
  depth := rfl
  desk := Desk.new_sound QUEUE_DEPTH

-- -- every request answered

/-- The controller has completed everything it was given. -/
def Settled (b : Bus) : Prop := b.fetched = b.submitted.length ∧ b.controller.work = []

/-- A turn does not move the controller. -/
theorem reap_aside (expired : Bool) :
    (b.reap expired).submitted = b.submitted ∧ (b.reap expired).fetched = b.fetched ∧
      (b.reap expired).controller = b.controller := ⟨rfl, rfl, rfl⟩

theorem Sound.grounded (h : Sound b) (hsettled : Settled b)
    (hread : b.posted.length = b.reaped.length) : pick Flight.live b.engine.flights = none := by
  refine h.desk.grounded ?_
  show b.away = 0
  simp [Bus.away, hsettled.1, hsettled.2, ← hread]

def pending (b : Bus) : Nat := (entries b.owed).card + (b.posted.length - b.reaped.length)

/-- Once the controller is done, a turn does something until nothing is owed. -/
theorem reap_pending (h : Sound b) (hsettled : Settled b) (expired : Bool) :
    pending (b.reap expired) < pending b ∨ entries (b.reap expired).owed = 0 := by
  cases h.turn expired with
  | ready slot id n done hpick hready howed =>
    rw [Bus.reap_ready hpick howed]
    have := Desk.card_answered howed
    refine .inl ?_
    unfold pending
    dsimp only
    omega
  | done p id op hpick hunread hflight hready howed hrequest =>
    have hfront := h.front hunread
    have hlt := (List.getElem?_eq_some_iff.mp hunread).1
    rw [Bus.reap_done hpick (h.fresh.mpr hlt) (by rw [hfront]; rfl) rfl hflight howed]
    have := Desk.card_answered howed
    refine .inl ?_
    unfold pending
    dsimp only
    rw [length_append, length_singleton]
    omega
  | late p id hpick hunread hflight =>
    have hfront := h.front hunread
    have hlt := (List.getElem?_eq_some_iff.mp hunread).1
    rw [Bus.reap_late hpick (h.fresh.mpr hlt) (by rw [hfront]; rfl) hflight]
    refine .inl ?_
    unfold pending
    dsimp only
    rw [length_append, length_singleton]
    omega
  | timeout slot id n op hpick hread hexpired hlive =>
    rw [h.grounded hsettled hread] at hlive
    cases hlive
  | rest hpick hread hlive =>
    rw [Bus.reap_rest hpick (h.stale hread) hlive]
    exact .inr (h.desk.owed_none hpick (h.grounded hsettled hread))

theorem reaps_answer (h : Sound b) (hsettled : Settled b) {turns : List Bool}
    (hturns : pending b ≤ turns.length) : entries (b.run (turns.map .reap)).owed = 0 := by
  rw [show b.run (turns.map .reap) = turns.foldl Bus.reap b from foldl_map]
  refine foldl_drains (fun b => Sound b ∧ Settled b) (fun b => entries b.owed = 0) pending
    (fun _ => true) (fun b e hdone => ?_) (fun b _ hzero => ?_)
    (fun b e h => ?_) ⟨h, hsettled⟩ (by rwa [countP_true])
  · exact le_zero.mp (hdone ▸ b.settle_owed _)
  · unfold pending at hzero
    exact card_eq_zero.mp (by omega)
  · obtain ⟨h, hsettled⟩ := h
    obtain ⟨hsubmitted, hfetched, hcontroller⟩ := reap_aside (b := b) e
    refine (reap_pending h hsettled e).symm.imp_right fun hless => ⟨⟨reap_sound h e, ?_⟩, hless⟩
    rw [Settled, hsubmitted, hfetched, hcontroller]
    exact hsettled

-- == the engine is faithful

def asks : BlockOp → Option (Nat × Nat)
  | .read sector bytes _ => some (sector, bytes)
  | .write sector bytes _ => some (sector, bytes)
  | .flush => none

/-- What the engine owes its owner and the controller. -/
structure Faithful (b : Bus) : Prop where
  /-- No identifier is used twice among the commands out. -/
  cids : (b.away.map Prod.snd).Nodup
  /-- The tail stays behind the entries the controller has not fetched, and
  the ring still shows all of those. -/
  tail : b.submitted.length - b.fetched < IO_ENTRIES ∧
    ∀ (k : Nat) s, b.fetched ≤ k → b.submitted[k]? = some s → b.engine.sq (k % IO_ENTRIES) = s.2
  /-- The completions read are those posted, in order, each once. -/
  reaped : b.reaped.map (fun x => (x.cid, x.code)) <+: b.posted.map fun p => (p.cid, p.code)
  /-- The entry in front looks new exactly when one is unread. -/
  fresh : b.engine.front.phase = b.engine.phase ↔ b.reaped.length < b.posted.length
  /-- Each request has had one answer or is owed one. -/
  account : ((b.answers.map Prod.fst : List Nat) : Multiset Nat) + entries b.owed =
    Multiset.range b.requests.length
  /-- Under its own id, and with the bytes of its own page. -/
  answers : ∀ n id done, (n, id, done) ∈ b.answers → Desk.Answers b.Done b.requests n id done
  /-- `reap` has nothing to say only when nothing is owed. -/
  idle : ∀ expired, (b.engine.pass expired).1 = .idle → entries b.owed = 0
  /-- When the controller is done, reaping leaves nothing owed. -/
  served : Settled b → ∀ turns : List Bool, pending b ≤ turns.length →
    entries (b.run (turns.map .reap)).owed = 0
  /-- A command denotes the sectors its request asked for. -/
  sectors : ∀ n c, (n, c) ∈ b.submitted → ∃ id op, b.requests[n]? = some (id, op) ∧
    ∀ sector bytes, asks op = some (sector, bytes) →
      Denotes b.engine.space c sector (bytes / SECTOR) ∧ SECTOR * (bytes / SECTOR) = bytes

theorem Sound.reaped_prefix (h : Sound b) :
    b.reaped.map (fun x => (x.cid, x.code)) <+: b.posted.map fun p => (p.cid, p.code) := by
  rw [prefix_iff_getElem?]
  intro k hk
  rw [length_map] at hk
  obtain ⟨p, hp, heq⟩ := h.reaped k _ (getElem?_eq_getElem hk)
  rw [getElem?_map, hp, getElem_map, heq, code_entryOf]
  rfl

theorem Sound.idle (h : Sound b) {expired : Bool}
    (hidle : (b.engine.pass expired).1 = .idle) : entries b.owed = 0 := by
  unfold Engine.pass at hidle
  cases h.turn expired with
  | ready _ _ _ _ hpick =>
    rw [hpick] at hidle
    cases hidle
  | done p id op hpick hunread hflight =>
    have hcid := h.front_cid hunread
    rw [hpick] at hidle
    simp only [if_pos (h.fresh.mpr (List.getElem?_eq_some_iff.mp hunread).1), consume,
      advance_eq h.head h.phase, hcid, hflight, Bool.not_true, Bool.false_eq_true,
      if_false] at hidle
    split at hidle <;> cases hidle
  | late p id hpick hunread hflight =>
    have hcid := h.front_cid hunread
    rw [hpick] at hidle
    simp only [if_pos (h.fresh.mpr (List.getElem?_eq_some_iff.mp hunread).1), consume,
      advance_eq h.head h.phase, hcid, hflight, Bool.not_true, Bool.false_eq_true,
      if_false] at hidle
    cases hidle
  | timeout slot id n op hpick hread hexpired hlive =>
    have hstale := h.stale hread
    rw [hpick] at hidle
    simp only [if_neg hstale, hexpired, if_true, timeoutOne, failOne, hlive] at hidle
    cases hidle
  | rest hpick hread hlive =>
    have hstale := h.stale hread
    refine h.desk.owed_none hpick ?_
    cases expired with
    | true => exact hlive rfl
    | false =>
      rw [hpick] at hidle
      simp only [if_neg hstale, Bool.false_eq_true, if_false] at hidle
      cases hany : b.engine.hasLiveRequest with
      | true =>
        rw [hany] at hidle
        cases hidle
      | false => exact pick_eq_none (l := b.engine.flights) (by simpa [hasLiveRequest] using hany)

theorem Sound.sectors (h : Sound b) {n : Nat} {c : Command}
    (hc : (n, c) ∈ b.submitted) : ∃ id op, b.requests[n]? = some (id, op) ∧
      ∀ sector bytes, asks op = some (sector, bytes) →
        Denotes b.engine.space c sector (bytes / SECTOR) ∧ SECTOR * (bytes / SECTOR) = bytes := by
  obtain ⟨id, op, hop, hvalid, heq⟩ := h.sent n c hc
  refine ⟨id, op, hop, fun sector bytes hasks => ?_⟩
  rw [heq]
  cases op with
  | flush => cases hasks
  | read =>
    cases hasks
    exact io_denotes hvalid READ _ _
  | write =>
    cases hasks
    exact io_denotes hvalid WRITE _ _

/-- In every state of every run the engine answers each request once and
overruns neither ring. -/
theorem engine_answers_each_command_once (registers : Registers) (space : Namespace) (iova : Nat)
    (data : Image) (events : List Event) :
    Faithful ((Bus.new registers space iova data).run events) := by
  have h := run_sound (new_sound registers space iova data) events
  generalize (Bus.new registers space iova data).run events = b at h ⊢
  have hroom := h.room
  have hE : IO_ENTRIES = QUEUE_DEPTH + 1 := rfl
  exact {
    cids := h.desk.once
    tail := ⟨by omega, fun k s hk hs => h.sq.shows k s hs (by omega)⟩
    reaped := h.reaped_prefix
    fresh := h.fresh
    account := h.desk.account
    answers := h.desk.answers
    idle := fun _ => h.idle
    served := fun hsettled _ hturns => reaps_answer h hsettled hturns
    sectors := fun _ _ => h.sectors }

end Molt.Nvme
