/-
What a checksum catches.

The register of crc32c is never confused by what it is fed: a bit step is
invertible, since the polynomial has its top bit set and a shifted register has
not, so two registers that differ still differ after any further bytes. Four
bytes at a time go into the register whole (`foldByte_four`), so two messages
that differ in at most four consecutive bytes have different checksums, and a
block with such damage does not parse. A log record that is whole has the
checksums its reader computes.
-/
import Molt.Fs.Proofs.Checksum

namespace Molt.Fs

open Lib BitVec Journal

-- == the register

theorem residueBit_eq_zero {x : BitVec 32} (h : residueBit x = 0#32) : x = 0#32 := by
  rw [residueBit_eq] at h
  cases hbit : x.getLsbD 0 with
  | true =>
    rw [hbit, if_pos rfl, xor_eq_zero_iff] at h
    have htop := congrArg (·.getLsbD 31) h
    simp [POLY] at htop
  | false =>
    rw [hbit, if_neg Bool.false_ne_true, xor_zero] at h
    apply eq_of_getLsbD_eq
    intro i hi
    cases i with
    | zero => simpa using hbit
    | succ i => simpa [Nat.add_comm] using congrArg (·.getLsbD i) h

theorem residue_injective (n : Nat) : Function.Injective (residue n) := by
  intro x y h
  induction n generalizing x y with
  | zero => exact h
  | succ n ih =>
    have hbit := ih h
    rw [← xor_eq_zero_iff] at hbit ⊢
    exact residueBit_eq_zero (by rw [residueBit_xor, hbit])

theorem push_injective (n : Nat) : Function.Injective (push n) := by
  induction n with
  | zero => exact fun _ _ h => h
  | succ n ih => exact fun _ _ h => ih (residue_injective 8 h)

/-- Registers that differ stay different. -/
theorem foldl_injective (bytes : List UInt8) : Function.Injective (bytes.foldl foldByte ·) := by
  induction bytes with
  | nil => exact fun _ _ h => h
  | cons b bytes ih =>
    intro x y h
    have hstep := ih h
    rw [foldByte_eq, foldByte_eq] at hstep
    simpa [xor_assoc] using congrArg (· ^^^ word b) (residue_injective 8 hstep)

theorem getLsbD_word (b : UInt8) (i : Nat) : (word b).getLsbD i = b.toBitVec.getLsbD i := by
  simp only [word, getLsbD_ofNat]
  by_cases hi : i < 32
  · simp [hi, BitVec.getLsbD, UInt8.toNat_toBitVec]
  · simp [hi, getLsbD_of_ge b.toBitVec i (by omega)]

/-- A word has its bytes' bits, eight by eight. -/
theorem getLsbD_word4 (b0 b1 b2 b3 : UInt8) {k i : Nat} (hk : k < 4) (hi : i < 8) :
    (word4 b0 b1 b2 b3).getLsbD (8 * k + i) = ([b0, b1, b2, b3].getD k 0).toBitVec.getLsbD i := by
  have hge (b : UInt8) {n : Nat} (hn : 8 ≤ n) : b.toBitVec.getLsbD n = false :=
    getLsbD_of_ge b.toBitVec n hn
  simp only [word4, getLsbD_xor, getLsbD_shiftLeft, getLsbD_word]
  interval_cases k
  · simp [hi, show i < 16 by omega, show i < 24 by omega]
  · simp [show 8 + i < 32 by omega, show 8 + i < 16 by omega, show 8 + i < 24 by omega]
  · simp [show 16 + i < 32 by omega, show 16 + i < 24 by omega, show ¬ 16 + i < 8 by omega,
      show 16 + i - 8 = 8 + i by omega, hge b0 (show 8 ≤ 16 + i by omega)]
  · simp [show 24 + i < 32 by omega, show ¬ 24 + i < 8 by omega, show ¬ 24 + i < 16 by omega,
      show 24 + i - 8 = 16 + i by omega, show 24 + i - 16 = 8 + i by omega,
      hge b0 (show 8 ≤ 24 + i by omega), hge b1 (show 8 ≤ 16 + i by omega)]

theorem word4_injective {b0 b1 b2 b3 c0 c1 c2 c3 : UInt8}
    (h : word4 b0 b1 b2 b3 = word4 c0 c1 c2 c3) : [b0, b1, b2, b3] = [c0, c1, c2, c3] := by
  have hbyte : ∀ k < 4, [b0, b1, b2, b3].getD k 0 = [c0, c1, c2, c3].getD k 0 := by
    intro k hk
    apply UInt8.eq_of_toBitVec_eq
    apply eq_of_getLsbD_eq
    intro i hi
    rw [← getLsbD_word4 b0 b1 b2 b3 hk hi, h, getLsbD_word4 c0 c1 c2 c3 hk hi]
  simpa using ⟨hbyte 0 (by decide), hbyte 1 (by decide), hbyte 2 (by decide), hbyte 3 (by decide)⟩

-- == damage

theorem length_four {w : List UInt8} (hw : w.length = 4) :
    ∃ b0 b1 b2 b3, w = [b0, b1, b2, b3] := by
  rcases w with _ | ⟨b0, _ | ⟨b1, _ | ⟨b2, _ | ⟨b3, _ | _⟩⟩⟩⟩ <;> simp at hw
  exact ⟨b0, b1, b2, b3, rfl⟩

theorem foldl_four {x : BitVec 32} {w w' : List UInt8} (hw : w.length = 4) (hw' : w'.length = 4)
    (h : w.foldl foldByte x = w'.foldl foldByte x) : w = w' := by
  obtain ⟨b0, b1, b2, b3, rfl⟩ := length_four hw
  obtain ⟨c0, c1, c2, c3, rfl⟩ := length_four hw'
  simp only [List.foldl_cons, List.foldl_nil, foldByte_four] at h
  apply word4_injective
  simpa [xor_assoc] using congrArg (· ^^^ x) (push_injective 4 h)

theorem foldl_window {x : BitVec 32} {w w' : List UInt8} (hw : w.length ≤ 4)
    (hw' : w'.length = w.length) (h : w.foldl foldByte x = w'.foldl foldByte x) : w = w' := by
  -- a shorter window is one of four bytes that end alike
  obtain ⟨pad, hpad⟩ : ∃ pad : List UInt8, w.length + pad.length = 4 :=
    ⟨List.replicate (4 - w.length) 0, by simp; omega⟩
  have hlong : (w ++ pad).foldl foldByte x = (w' ++ pad).foldl foldByte x := by
    rw [List.foldl_append, List.foldl_append, h]
  exact List.append_cancel_right (foldl_four (by simp [hpad]) (by simp [hw', hpad]) hlong)

/-- Messages that differ in up to four consecutive bytes have different
checksums. -/
theorem crc32c_window {a b w w' : List UInt8} (hw : w.length ≤ 4) (hw' : w'.length = w.length)
    (h : crc32c (a ++ w ++ b) = crc32c (a ++ w' ++ b)) : w = w' := by
  simp only [crc32c, Crc.update_eq, Crc.finish, List.foldl_append] at h
  have hreg := foldl_injective b (by simpa using congrArg (~~~ ·) (eq_of_toNat_eq h))
  exact foldl_window hw hw' hreg

/-- A checksum over bytes that hold the window tells what is written there. -/
theorem crc32c_put {m : Image} {i : Nat} {w : List UInt8} (hw : w.length ≤ 4)
    (a b : List UInt8) (off n : Nat) (hlow : off ≤ i) (hhigh : i + w.length ≤ off + n)
    (h : crc32c (a ++ slice (put m i w) off n ++ b) = crc32c (a ++ slice m off n ++ b)) :
    w = slice m i w.length := by
  obtain ⟨x, rfl⟩ := Nat.exists_eq_add_of_le hlow
  obtain ⟨y, rfl⟩ : ∃ y, n = x + (w.length + y) := ⟨n - x - w.length, by omega⟩
  rw [slice_append, slice_append, slice_append m, slice_append m, slice_put_same,
    slice_put_of_disjoint (by omega), slice_put_of_disjoint (by omega), ← List.append_assoc,
    ← List.append_assoc, List.append_assoc _ _ b, ← List.append_assoc a,
    ← List.append_assoc _ _ (slice m _ y), List.append_assoc _ _ b] at h
  exact crc32c_window hw (length_slice ..) h

/-- So does the checksum that is stored. -/
theorem atLe_put_eq {m : Image} {i : Nat} {w : List UInt8} (hw : w.length = 4)
    (h : atLe m i 4 = atLe (put m i w) i 4) : w = slice m i 4 := by
  have hmid : slice (put m i w) i 4 = w := hw ▸ slice_put_same ..
  rw [atLe, atLe, hmid] at h
  have hback := leBytes_leNat (slice m i 4)
  rwa [length_slice, h, ← hw, leBytes_leNat, hw] at hback

theorem Node.parse_crc {m : Image} {n : Node} (h : Node.parse m = .ok n) :
    crc32c (slice m 0 32 ++ ([0, 0, 0, 0] ++ slice m 36 4060)) = atLe m 32 4 := by
  unfold Node.parse at h
  split_ifs at h with hmagic hcrc
  rw [← not_not.mp hcrc, Node.nodeCrc, Crc.update_append, Crc.update_append, crc32c]

theorem Super.parse_crc {m : Image} {s : Super} (h : Super.parse m = .ok s) :
    crc32c (slice m 0 216) = atLe m 216 4 := by
  unfold Super.parse at h
  split_ifs at h with hmagic hcrc
  exact not_not.mp hcrc

/-- A node or superblock with up to four consecutive bytes changed is refused:
anywhere in the block, or in what the superblock's checksum covers, short of a
change across the checksum's border. -/
theorem damage_is_caught {m : Image} {i : Nat} {w : List UInt8} (hw : w.length = 4)
    (hne : w ≠ slice m i 4) :
    (∀ n, Node.parse m = .ok n → (i + 4 ≤ 32 ∨ i = 32 ∨ 36 ≤ i ∧ i + 4 ≤ 4096) →
      ∃ e, Node.parse (put m i w) = .error e)
    ∧ ∀ s, Super.parse m = .ok s → (i + 4 ≤ 216 ∨ i = 216) →
      ∃ e, Super.parse (put m i w) = .error e := by
  constructor
  · intro n hparse hi
    cases hparse' : Node.parse (put m i w) with
    | error e => exact ⟨e, rfl⟩
    | ok n' =>
      refine absurd ?_ hne
      have hcrc := Node.parse_crc hparse
      have hcrc' := Node.parse_crc hparse'
      rcases hi with hi | rfl | ⟨hi, hend⟩
      · have hrest : slice (put m i w) 36 4060 = slice m 36 4060 :=
          slice_put_of_disjoint (by omega)
        rw [atLe_put_of_disjoint (by omega), ← hcrc, hrest] at hcrc'
        exact hw ▸ crc32c_put hw.le [] _ 0 32 (Nat.zero_le i) (by omega) hcrc'
      · have hlow : slice (put m 32 w) 0 32 = slice m 0 32 := slice_put_of_disjoint (by omega)
        have hrest : slice (put m 32 w) 36 4060 = slice m 36 4060 :=
          slice_put_of_disjoint (by omega)
        rw [hlow, hrest, hcrc] at hcrc'
        exact atLe_put_eq hw hcrc'
      · have hlow : slice (put m i w) 0 32 = slice m 0 32 := slice_put_of_disjoint (by omega)
        rw [atLe_put_of_disjoint (by omega), ← hcrc, hlow] at hcrc'
        refine hw ▸ crc32c_put hw.le (slice m 0 32 ++ [0, 0, 0, 0]) [] 36 4060 hi (by omega) ?_
        rwa [List.append_nil, List.append_nil, List.append_assoc, List.append_assoc]
  · intro s hparse hi
    cases hparse' : Super.parse (put m i w) with
    | error e => exact ⟨e, rfl⟩
    | ok s' =>
      refine absurd ?_ hne
      have hcrc := Super.parse_crc hparse
      have hcrc' := Super.parse_crc hparse'
      rcases hi with hi | rfl
      · rw [atLe_put_of_disjoint (by omega), ← hcrc] at hcrc'
        refine hw ▸ crc32c_put hw.le [] [] 0 216 (Nat.zero_le i) (by omega) ?_
        rwa [List.append_nil, List.append_nil]
      · have hlow : slice (put m 216 w) 0 216 = slice m 0 216 := slice_put_of_disjoint (by omega)
        rw [hlow, hcrc] at hcrc'
        exact atLe_put_eq hw hcrc'

/-- A leaf with one of its bytes changed. -/
theorem damage_is_caught_leaf :
    let m := Node.encode ⟨0, 1, [.object 1], [.whiteout], []⟩
    ∃ e, Node.parse (put m 40 [m 40 + 1, m 41, m 42, m 43]) = .error e := by
  intro m
  have hne : [m 40 + 1, m 41, m 42, m 43] ≠ slice m 40 4 := by
    simp [slice, List.range_succ]
  exact (damage_is_caught rfl hne).1 _ (Node.parse_encode (by decide))
    (.inr (.inr ⟨by decide, by decide⟩))

-- == the payload log

namespace Record

theorem length_table (r : Record) (payload : List UInt8) :
    (r.table payload).length = r.chunks * 4 := by
  simp [table, List.length_flatMap, length_leBytes]

/-- The checksums stand four bytes apart. -/
theorem take_table {r : Record} {c : Nat} (hc : c < r.chunks) (payload rest : List UInt8) :
    ((r.table payload ++ rest).drop (c * 4)).take 4
      = leBytes 4 (crc32c (chunkOf payload c)) := by
  obtain ⟨d, hd⟩ := Nat.exists_eq_add_of_lt hc
  have hsplit : List.range r.chunks = List.range c ++ c :: (List.range d).map (c + 1 + ·) := by
    rw [hd, Nat.add_assoc, List.range_add, List.range_succ_eq_map]
    simp [Function.comp_def, Nat.add_assoc, Nat.add_comm 1]
  have hfront : ((List.range c).flatMap fun c =>
      leBytes 4 (crc32c (chunkOf payload c))).length = c * 4 := by
    simp [List.length_flatMap, length_leBytes]
  rw [table, hsplit, List.flatMap_append, List.flatMap_cons, List.append_assoc, ← hfront,
    List.drop_left, List.append_assoc, List.take_left' (length_leBytes ..)]

theorem bytes_le (r : Record) {c : Nat} (hc : c < r.chunks) : c * BLOCK ≤ r.bytes := by
  unfold chunks BLOCK at *
  omega

theorem checksum_lay {r : Record} {c : Nat} (hc : c < r.chunks) (payload : List UInt8) :
    leNat (((r.lay payload).drop (LOG_HEADER + c * 4)).take 4) = crc32c (chunkOf payload c) := by
  rw [lay, List.append_assoc, List.append_assoc, ← List.drop_drop,
    List.drop_left' (length_encode r), take_table hc payload, leNat_leBytes]
  exact Nat.mod_eq_of_lt (BitVec.isLt _)

theorem length_head (r : Record) (payload : List UInt8) :
    (r.encode ++ r.table payload).length = r.payloadAt := by
  rw [List.length_append, length_encode, length_table]
  rfl

theorem le_span (r : Record) : r.payloadAt + r.bytes ≤ r.span := by
  unfold span ALIGN
  omega

section Laid

variable {r : Record} {payload : List UInt8} (hlen : payload.length = r.bytes)

include hlen

theorem drop_lay {k : Nat} (hk : k ≤ r.bytes) : (r.lay payload).drop (r.payloadAt + k)
    = payload.drop k ++ List.replicate (r.span - (r.payloadAt + r.bytes)) 0 := by
  rw [lay, List.append_assoc, ← List.drop_drop, ← r.length_head payload, List.drop_left,
    List.drop_append_of_le_length (hlen ▸ hk)]

theorem chunk_lay {c : Nat} (hc : c < r.chunks) :
    ((r.lay payload).drop (r.payloadAt + c * BLOCK)).take (min (r.bytes - c * BLOCK) BLOCK)
      = chunkOf payload c := by
  rw [drop_lay hlen (r.bytes_le hc), List.take_append_of_le_length (by simp [hlen]), chunkOf,
    ← hlen, ← List.length_drop, Nat.min_comm, ← List.take_eq_take_min]

end Laid

/-- A record that was laid out is read back: its header, its payload, and for
every chunk the checksum that `verify_chunk` compares with the chunk's own. -/
theorem record_reads_back {r : Record} {payload : List UInt8} (h : r.Fits)
    (hlen : payload.length = r.bytes) :
    parse ((r.lay payload).take LOG_HEADER) = .ok r
    ∧ ((r.lay payload).drop r.payloadAt).take r.bytes = payload
    ∧ (r.lay payload).length = r.span ∧ ALIGN ∣ r.span
    ∧ ∀ c < r.chunks, ∃ sum start len, r.checksumAt c = .ok sum ∧ r.chunk c = .ok (start, len) ∧
        leNat (((r.lay payload).drop sum).take 4)
          = crc32c (((r.lay payload).drop (r.payloadAt + start)).take len) := by
  refine ⟨?_, ?_, ?_, ⟨_, Nat.mul_comm ..⟩, fun c hc => ?_⟩
  · rw [lay, List.append_assoc, List.append_assoc, List.take_left' (length_encode r)]
    exact parse_encode h
  · rw [← Nat.add_zero r.payloadAt, drop_lay hlen (Nat.zero_le _), List.drop_zero,
      List.take_left' hlen]
  · have hspan := r.le_span
    rw [lay, List.length_append, List.length_append, length_head, hlen, List.length_replicate]
    omega
  · refine ⟨_, _, _, if_neg (Nat.not_le.mpr hc), if_neg (Nat.not_le.mpr hc), ?_⟩
    rw [chunk_lay hlen hc]
    exact checksum_lay hc payload

/-- The second chunk of a record of two, the last byte of its payload. -/
theorem record_reads_back_two_chunks :
    let r : Record := ⟨7, 0, 4097⟩
    let payload := List.replicate 4097 1
    parse ((r.lay payload).take LOG_HEADER) = .ok r
    ∧ ((r.lay payload).drop r.payloadAt).take r.bytes = payload
    ∧ ∃ sum start len, r.checksumAt 1 = .ok sum ∧ r.chunk 1 = .ok (start, len) ∧
        leNat (((r.lay payload).drop sum).take 4)
          = crc32c (((r.lay payload).drop (r.payloadAt + start)).take len) := by
  intro r payload
  have hfits : r.Fits := ⟨by decide, by decide, by decide, by decide⟩
  obtain ⟨hhead, hpayload, -, -, hchunks⟩ :=
    record_reads_back hfits (List.length_replicate : payload.length = 4097)
  exact ⟨hhead, hpayload, hchunks 1 (by decide)⟩

section Damaged

variable {r : Record} {payload w : List UInt8} {m m' : Image} {base c i : Nat}

end Damaged

/-- A device of one block, unmounted. -/
def held (m : Image) : Journal :=
  ⟨⟨⟨⟨fun i => .raw fun k => m (i * 512 + k), [], []⟩, 8, ⟨0, 1, 0, 0, 0, 0, 0, ⟨0, 0, 0⟩⟩, 0, none,
    none⟩, Sieve.new, ⟨fun _ => none, 0, 0⟩⟩, none, 0, [], 0, none⟩

end Record

end Molt.Fs
