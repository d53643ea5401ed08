/-
Write records of the payload log (`log.rs`).

A record is a header of 32 bytes, a table with one checksum for each
4 KiB chunk of its payload, the payload, and zeros up to a sector
boundary, so that a sector never holds bytes of two records. `Record.lay`
is the whole of it. The lengths a record's own fields can produce stay
far below `2 ^ 64`, so the source's overflow checks on them never fire
and the model has none.
-/
import Molt.Fs.Layout

namespace Molt.Fs

open Lib

abbrev ALIGN : Nat := 512

/-- Bytes in the fixed record header. -/
abbrev LOG_HEADER : Nat := 32

/-- One file payload header: the file, where in it the bytes go, and how
many there are. -/
structure Record where
  object : Nat
  offset : Nat
  bytes : Nat
  deriving DecidableEq

namespace Record

/-- The signature a record opens with, `MLOG`. -/
def MAGIC : List UInt8 := [0x4d, 0x4c, 0x4f, 0x47]

/-- `Record::write`: the payload must be nonempty and fit 32 bits. -/
def write (object offset bytes : Nat) : Except FsError Record :=
  if bytes ≥ 2 ^ 32 then .error .range
  else if bytes = 0 then .error .range
  else .ok ⟨object, offset, bytes⟩

/-- `Record::checked`. -/
def checked (object offset bytes : Nat) : Except FsError Record :=
  if bytes = 0 then .error .range else .ok ⟨object, offset, bytes⟩

/-- Chunks of payload, each with its own checksum. -/
def chunks (r : Record) : Nat := (r.bytes + (BLOCK - 1)) / BLOCK

def payloadAt (r : Record) : Nat := LOG_HEADER + r.chunks * 4

/-- Bytes the record occupies, padding included. -/
def span (r : Record) : Nat := (r.payloadAt + r.bytes + (ALIGN - 1)) / ALIGN * ALIGN

/-- Where the checksum of chunk `chunk` is in the record. -/
def checksumAt (r : Record) (chunk : Nat) : Except FsError Nat :=
  if chunk ≥ r.chunks then .error .range else .ok (LOG_HEADER + chunk * 4)

/-- Where chunk `chunk` is in the payload, and how long. -/
def chunk (r : Record) (chunk : Nat) : Except FsError (Nat × Nat) :=
  if chunk ≥ r.chunks then .error .range
  else .ok (chunk * BLOCK, min (r.bytes - chunk * BLOCK) BLOCK)

/-- The record's header bytes. -/
def encode (r : Record) : List UInt8 :=
  MAGIC ++ [2, 0, 0, 0] ++ leBytes 4 r.bytes ++ leBytes 4 r.object
    ++ [0, 0, 0, 0] ++ leBytes 8 r.offset ++ [0, 0, 0, 0]

def parse (h : List UInt8) : Except FsError Record :=
  if h.length < LOG_HEADER then .error .corrupt
  else if h.take 4 ≠ MAGIC then .error .corrupt
  else
    let payload := leNat ((h.drop 8).take 4)
    if h.getD 4 0 ≠ 2 ∨ ((h.drop 5).take 3).any (· != 0)
        ∨ ((h.drop 16).take 4).any (· != 0)
        ∨ ((h.drop 28).take 4).any (· != 0) ∨ payload = 0 then .error .corrupt
    else .ok ⟨leNat ((h.drop 12).take 4), leNat ((h.drop 20).take 8), payload⟩

/-- The bytes of chunk `chunk` of a payload. -/
def chunkOf (payload : List UInt8) (chunk : Nat) : List UInt8 :=
  (payload.drop (chunk * BLOCK)).take BLOCK

/-- The checksum table of a payload. -/
def table (r : Record) (payload : List UInt8) : List UInt8 :=
  (List.range r.chunks).flatMap fun c => leBytes 4 (crc32c (chunkOf payload c))

def lay (r : Record) (payload : List UInt8) : List UInt8 :=
  r.encode ++ r.table payload ++ payload ++ List.replicate (r.span - (r.payloadAt + r.bytes)) 0

-- == the codec

/-- A record's fields fit the widths the format stores them in. -/
structure Fits (r : Record) : Prop where
  object : r.object < 2 ^ 32
  offset : r.offset < 2 ^ 64
  bytes_pos : 0 < r.bytes
  bytes : r.bytes < 2 ^ 32

theorem length_encode (r : Record) : r.encode.length = 32 := by
  simp [encode, MAGIC]

theorem parse_encode {r : Record} (h : r.Fits) : parse r.encode = .ok r := by
  have hb : leNat ((r.encode.drop 8).take 4) = r.bytes := by
    have hs : (r.encode.drop 8).take 4 = leBytes 4 r.bytes := by
      simp [encode, MAGIC]
    rw [hs, leNat_leBytes, Nat.mod_eq_of_lt (by have := h.bytes; omega)]
  have ho : leNat ((r.encode.drop 12).take 4) = r.object := by
    have hs : (r.encode.drop 12).take 4 = leBytes 4 r.object := by
      simp [encode, MAGIC]
    rw [hs, leNat_leBytes, Nat.mod_eq_of_lt (by have := h.object; omega)]
  have hf : leNat ((r.encode.drop 20).take 8) = r.offset := by
    have hs : (r.encode.drop 20).take 8 = leBytes 8 r.offset := by
      simp [encode, MAGIC, List.drop_append, List.drop_of_length_le]
    rw [hs, leNat_leBytes, Nat.mod_eq_of_lt (by have := h.offset; omega)]
  have h16 : (r.encode.drop 16).take 4 = [0, 0, 0, 0] := by
    simp [encode, MAGIC, List.drop_append, List.drop_of_length_le]
  have h28 : (r.encode.drop 28).take 4 = [0, 0, 0, 0] := by
    simp [encode, MAGIC, List.drop_append, List.drop_of_length_le]
  have hpos := h.bytes_pos
  unfold parse
  rw [if_neg (by simp [length_encode]), if_neg (by simp [encode, MAGIC])]
  simp only [hb, ho, hf, h16, h28]
  rw [if_neg]
  rintro (h1 | h1 | h1 | h1 | h1)
  · simp [encode, MAGIC] at h1
  · simp [encode, MAGIC] at h1
  · simp at h1
  · simp at h1
  · omega

end Record

end Molt.Fs
