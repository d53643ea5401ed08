/-
What the checksums of a volume are checksums of
(`crc.rs`; `node_crc` in `btree.rs`, `region_checksum` in `journal.rs`,
`log_checksum` in `volume.rs`).

# Pieces

Bytes are hashed as they are read: a node around its own checksum field, a
payload a block at a time, the headers of a log one by one. `bitwise` is the
definition of the checksum, and hashing in pieces is hashing the whole, so each
of the three is the checksum of bytes that know nothing of blocks: those of
`Volume.bytes`, which are the device's from end to end.

# Ends

A checksum of a region returns on a device that refuses nothing and holds the
region (`Readable`); of a log, if its records also end where the log does, and
the walk may take as many rounds as the log has bytes.
-/
import Molt.Fs.Journal
import Molt.Fs.Proofs.Store

namespace Molt.Fs

open Lib Journal

-- == definition

/-- Bit by bit. -/
def bitwise (crc : BitVec 32) (bytes : List UInt8) : BitVec 32 :=
  bytes.foldl (fun crc byte => residue 8 (crc ^^^ word byte)) crc

theorem fold_eq_bitwise (present : Bool) (crc : BitVec 32) (bytes : List UInt8) :
    fold present crc bytes = bitwise crc bytes := by
  rw [fold_eq_foldl, bitwise]
  congr 1
  funext crc byte
  exact foldByte_eq crc byte

/-- Each piece may take its own path. -/
theorem Crc.foldl_update (crc : Crc) (present : Bool) (pieces : List (List UInt8 × Bool)) :
    pieces.foldl (fun crc piece => crc.update piece.1 piece.2) crc
      = crc.update (pieces.map Prod.fst).flatten present := by
  rw [Crc.update_eq]
  induction pieces generalizing crc with
  | nil => rfl
  | cons piece pieces ih =>
    rw [List.foldl_cons, ih, Crc.update_eq, List.map_cons, List.flatten_cons, List.foldl_append]

-- == block reads

/-- The device refuses nothing from here on and holds the blocks of the region. -/
structure Readable (s : Store) (region : Region) : Prop where
  calm : ∀ k, s.env.clock ≤ k → s.env.refuse k = none
  narrow : region.bytes < 2 ^ 64
  inside : ∀ i, i * BLOCK < region.bytes → region.addr + i < s.volume.superblock.blocks
    ∧ (region.addr + i) * SECTORS < 2 ^ 64
    ∧ (region.addr + i) * SECTORS + SECTORS ≤ s.volume.sectors

section Reads

variable {s : Store} {region : Region}

/-- What reading a region leaves of the store: all of it but the clock. -/
def Store.Read (region : Region) (s s' : Store) : Prop :=
  s'.volume = s.volume ∧ (Readable s region → Readable s' region)

theorem Readable.tick (h : Readable s region) : Readable s.tick region :=
  ⟨fun k hk => h.calm k (Nat.le_of_succ_le hk), h.narrow, h.inside⟩

theorem block_bytes {cursor : Nat} (hcursor : cursor < region.bytes) :
    Wp (block (region.addr + cursor / BLOCK)) s
      (fun b s' => b = s.volume.blockAt (region.addr + cursor / BLOCK) ∧ s' = s.tick)
      (fun _ _ => ¬ Readable s region) := by
  have hinside : ∀ h : Readable s region, _ := fun h =>
    h.inside (cursor / BLOCK) (Nat.lt_of_le_of_lt (Nat.div_mul_le_self ..) hcursor)
  unfold block raw
  simp only [wp_bind, wp_get, wp_ensure]
  refine ⟨fun _ => ⟨fun _ => ⟨fun _ => ?_, fun hno h => hno (hinside h).2.2⟩,
    fun hno h => hno (hinside h).2.1⟩, fun hno h => hno (hinside h).1⟩
  unfold gate
  apply wp_iff.mpr
  cases hrefuse : s.env.refuse s.env.clock with
  | none =>
    refine ⟨fun a s' hx => ?_, fun e s' hx => ?_⟩
    · cases hx
      exact ⟨rfl, rfl⟩
    · cases hx
  | some e =>
    refine ⟨fun a s' hx => ?_, fun e' s' hx h => ?_⟩
    · cases hx
    · cases hrefuse.symm.trans (h.calm _ le_rfl)

theorem at_block (addr at_ : Nat) :
    (addr + at_ / BLOCK) * 4096 + at_ % BLOCK = addr * 4096 + at_ := by
  show (addr + at_ / 4096) * 4096 + at_ % 4096 = addr * 4096 + at_
  rw [Nat.add_mul, Nat.add_assoc, Nat.div_add_mod']

/-- A fold over a region by blocks is one over its bytes. -/
theorem foldBlocks_bytes {β : Type} {f : β → List UInt8 → β}
    (happend : ∀ acc a b, f (f acc a) b = f acc (a ++ b)) (hnil : ∀ acc, f acc [] = acc) :
    ∀ (fuel : Nat) (acc : β) (source left : Nat) (s : Store), left ≤ fuel →
    source + left ≤ region.bytes → Wp (foldBlocks region.addr f fuel acc source left) s
      (fun r s' => r = f acc (slice s.volume.bytes (region.addr * 4096 + source) left)
        ∧ s.Read region s')
      (fun _ _ => ¬ Readable s region) := by
  intro fuel
  induction fuel with
  | zero =>
    intro acc source left s hle _
    obtain rfl : left = 0 := Nat.le_zero.mp hle
    exact ⟨(hnil acc).symm, rfl, id⟩
  | succ fuel ih =>
    intro acc source left s hle hin
    rw [foldBlocks]
    split
    case isTrue hzero =>
      subst hzero
      exact ⟨(hnil acc).symm, rfl, id⟩
    case isFalse hpos =>
      simp only [wp_bind]
      refine (block_bytes (by omega)).mono ?_ fun _ _ h => h
      rintro b s1 ⟨rfl, rfl⟩
      generalize htake : min left (BLOCK - source % BLOCK) = take
      have hblock : 0 < BLOCK - source % BLOCK := Nat.sub_pos_of_lt (Nat.mod_lt _ (by decide))
      refine (ih _ _ _ s.tick (by omega) (by omega)).mono ?_ fun _ _ h hs => h hs.tick
      rintro r s2 ⟨rfl, hvolume, hread⟩
      refine ⟨?_, hvolume, fun h => hread h.tick⟩
      -- the piece and the rest are the bytes from here on
      rw [happend, s.volume.slice_blockAt]
      have hsplit : left = take + (left - take) := by omega
      conv_rhs => rw [hsplit, slice_append]
      rw [at_block, Nat.add_assoc]
      rfl

/-- The same behind the bounds check every reader of a region starts with. -/
theorem readRegion_bytes {β : Type} {f : β → List UInt8 → β}
    (happend : ∀ acc a b, f (f acc a) b = f acc (a ++ b)) (hnil : ∀ acc, f acc [] = acc)
    (region : Region) (acc : β) (source len : Nat) :
    Wp (do
        let fin ← okOr (checkedAdd source len) .corrupt
        ensure (fin ≤ region.bytes) .corrupt
        foldBlocks region.addr f len acc source len) s
      (fun r s' => r = f acc (slice s.volume.bytes (region.addr * 4096 + source) len)
        ∧ s.Read region s')
      (fun _ _ => ¬ (Readable s region ∧ source + len ≤ region.bytes)) := by
  simp only [wp_bind, wp_okOr, wp_ensure]
  refine ⟨fun fin hfin => ⟨fun hin => ?_, fun hout h => ?_⟩, fun hover h => ?_⟩
  · obtain ⟨-, rfl⟩ := checkedAdd_eq_some.mp hfin
    exact (foldBlocks_bytes happend hnil _ _ _ _ s le_rfl hin).mono (fun _ _ h => h)
      fun _ _ hno h => hno h.1
  · obtain ⟨-, rfl⟩ := checkedAdd_eq_some.mp hfin
    exact hout h.2
  · have hsum := checkedAdd_eq_some.mpr ⟨Nat.lt_of_le_of_lt h.2 h.1.narrow, rfl⟩
    cases hover.symm.trans hsum

theorem regionChecksum_bytes (region : Region) (source bytes : Nat) (present : Bool) :
    Wp (regionChecksum region source bytes present) s
      (fun c _ => c = crc32c (slice s.volume.bytes (region.addr * 4096 + source) bytes) present)
      (fun _ _ => ¬ (Readable s region ∧ source + bytes ≤ region.bytes)) := by
  unfold regionChecksum
  simp only [bind_pure_comp, ← map_bind, wp_map]
  refine (readRegion_bytes (Crc.update_append · · · present) (Crc.update_nil · present) region
    Crc.new source bytes).mono ?_ fun _ _ h => h
  rintro crc s' ⟨rfl, -⟩
  rfl

-- -- headers

/-- The headers of a log that fills the first `limit` bytes from `base` on, one
after the other; nothing if its records do not end there. -/
def headersFrom (m : Image) (base limit : Nat) : Nat → Nat → Option (List UInt8)
  | 0, _ => none
  | fuel + 1, cursor =>
    if cursor < limit then
      let header := slice m (base + cursor) LOG_HEADER
      match Record.parse header with
      | .error _ => none
      | .ok record =>
        if cursor % BLOCK + LOG_HEADER ≤ BLOCK then
          (headersFrom m base limit fuel (cursor + record.span)).map (header ++ ·)
        else none
    else if cursor = limit then some [] else none

theorem Record.span_pos (r : Record) : 0 < r.span := by
  unfold Record.span Record.payloadAt LOG_HEADER ALIGN
  omega

theorem headersFrom_past {m : Image} {base limit fuel cursor : Nat} (h : limit < cursor) :
    headersFrom m base limit fuel cursor = none := by
  cases fuel with
  | zero => rfl
  | succ fuel => rw [headersFrom, if_neg (by omega), if_neg (by omega)]

/-- As many rounds as bytes are enough: every record has some. -/
theorem headersFrom_enough {m : Image} {base limit : Nat} : ∀ {fuel fuel' cursor : Nat},
    limit < cursor + fuel → limit < cursor + fuel' →
    headersFrom m base limit fuel cursor = headersFrom m base limit fuel' cursor := by
  intro fuel
  induction fuel with
  | zero =>
    intro fuel' cursor hfuel hfuel'
    rw [headersFrom_past (by omega), headersFrom_past (by omega)]
  | succ fuel ih =>
    intro fuel' cursor hfuel hfuel'
    cases fuel' with
    | zero => rw [headersFrom_past (by omega), headersFrom_past (by omega)]
    | succ fuel' =>
      rw [headersFrom, headersFrom]
      dsimp only
      cases Record.parse (slice m (base + cursor) LOG_HEADER) with
      | error e => rfl
      | ok record =>
        have hpos := record.span_pos
        dsimp only
        rw [ih (by omega : limit < cursor + record.span + fuel) (by omega : limit < _ + fuel')]

theorem logChecksumFrom_bytes (present : Bool) : ∀ (fuel : Nat) (crc : Crc) (cursor : Nat)
    (s : Store), Wp (logChecksumFrom region present fuel crc cursor) s
      (fun c _ => ∃ headers, headersFrom s.volume.bytes (region.addr * 4096) region.bytes fuel
        cursor = some headers ∧ c = (crc.update headers present).finish)
      (fun _ _ => ¬ (Readable s region ∧ (headersFrom s.volume.bytes (region.addr * 4096)
        region.bytes fuel cursor).isSome)) := by
  intro fuel
  induction fuel with
  | zero =>
    intro crc cursor s
    exact fun h => absurd h.2 (by simp [headersFrom])
  | succ fuel ih =>
    intro crc cursor s
    rw [logChecksumFrom, headersFrom]
    split
    case isFalse =>
      simp only [wp_bind, wp_ensure, wp_pure]
      refine ⟨fun hend => ⟨[], if_pos hend, ?_⟩, fun hend h => ?_⟩
      · rw [Crc.update_nil]
      · rw [if_neg hend] at h
        cases h.2
    case isTrue hlt =>
      simp only [wp_bind, wp_ensure]
      refine ⟨fun hfits => ?_, fun hcross h => ?_⟩
      · refine (block_bytes hlt).mono ?_ fun _ _ hno h => hno h.1
        rintro b s1 ⟨rfl, rfl⟩
        have hat : slice (s.volume.blockAt (region.addr + cursor / BLOCK)).byte (cursor % BLOCK)
            LOG_HEADER = slice s.volume.bytes (region.addr * 4096 + cursor) LOG_HEADER := by
          rw [s.volume.slice_blockAt, at_block]
        rw [hat]
        simp only [wp_lift, wp_okOr]
        refine ⟨fun record hparse => ⟨fun next hnext => ?_, fun hover h => ?_⟩,
          fun e hparse h => ?_⟩
        · obtain ⟨-, rfl⟩ := checkedAdd_eq_some.mp hnext
          rw [hparse]
          dsimp only
          rw [if_pos hfits]
          refine (ih _ _ s.tick).mono ?_ fun _ _ hno h => hno ⟨h.1.tick, ?_⟩
          · rintro c s2 ⟨headers, hheaders, rfl⟩
            refine ⟨_, congrArg _ hheaders, ?_⟩
            rw [Crc.update_append]
          · have hsome := h.2
            rwa [Option.isSome_map] at hsome
        · -- past the end of the numbers is past the end of the log
          have hpast : region.bytes < cursor + record.span := by
            by_contra hle
            have hnarrow := h.1.narrow
            cases hover.symm.trans (checkedAdd_eq_some.mpr ⟨by omega, rfl⟩)
          have hsome := h.2
          rw [hparse] at hsome
          dsimp only at hsome
          rw [if_pos hfits, headersFrom_past hpast] at hsome
          cases hsome
        · rw [hparse] at h
          cases h.2
      · have hsome := h.2
        split at hsome
        · cases hsome
        · rw [if_neg hcross] at hsome
          cases hsome

end Reads

/-- On either path the checksum is the bitwise one, a checksum taken in pieces is
that of the whole, and so the checksums of nodes, payloads and logs do not depend
on where blocks end. They are taken if the device has the bytes, refuses nothing
and, for a log, has whole records; with rounds enough for a log's walk. -/
theorem checksums_ignore_boundaries (present : Bool) :
    (∀ crc bytes, sliced crc bytes = bitwise crc bytes)
    ∧ (∀ crc bytes, fold present crc bytes = bitwise crc bytes)
    ∧ (∀ (crc : Crc) (pieces : List (List UInt8 × Bool)),
      pieces.foldl (fun crc piece => crc.update piece.1 piece.2) crc
        = crc.update (pieces.map Prod.fst).flatten present)
    ∧ (∀ pieces : List (List UInt8 × Bool),
      (pieces.foldl (fun crc piece => crc.update piece.1 piece.2) Crc.new).finish
        = crc32c (pieces.map Prod.fst).flatten present)
    ∧ (∀ m, Node.nodeCrc m present
      = crc32c (slice m 0 32 ++ [0, 0, 0, 0] ++ slice m 36 4060) present)
    ∧ (∀ (s : Store) region source bytes, Wp (regionChecksum region source bytes present) s
      (fun c _ => c = crc32c (slice s.volume.bytes (region.addr * 4096 + source) bytes) present)
      (fun _ _ => ¬ (Readable s region ∧ source + bytes ≤ region.bytes)))
    ∧ ∀ (s : Store) (region : Region), region.bytes < s.env.fuel →
      let headers := headersFrom s.volume.bytes (region.addr * 4096) region.bytes
        (region.bytes + 1) 0
      Wp (logChecksum region present) s
        (fun c _ => ∃ bytes, headers = some bytes ∧ c = crc32c bytes present)
        (fun _ _ => ¬ (Readable s region ∧ headers.isSome)) := by
  refine ⟨fun crc bytes => fold_eq_bitwise false crc bytes, fold_eq_bitwise present,
    fun crc => Crc.foldl_update crc present, ?_, ?_, ?_, ?_⟩
  · intro pieces
    rw [Crc.foldl_update]
    rfl
  · intro m
    unfold Node.nodeCrc
    rw [Crc.update_append, Crc.update_append]
    rfl
  · exact fun s region source bytes => regionChecksum_bytes region source bytes present
  · intro s region hfuel headers
    have henough : headersFrom s.volume.bytes (region.addr * 4096) region.bytes s.env.fuel 0
        = headers := headersFrom_enough (by omega) (by omega)
    unfold logChecksum
    simp only [wp_bind, wp_get]
    rw [← henough]
    exact logChecksumFrom_bytes present _ _ _ s

end Molt.Fs
