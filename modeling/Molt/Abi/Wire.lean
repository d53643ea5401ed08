/-
What a submission is on the wire, and what it parses into (`wire.rs`, with
the masks of `nospec.rs`).

A slot is eight 64-bit words with no invalid bit pattern. `Call.parse` is
the one reading of it, by value: no word is fetched twice.
-/
import Mathlib

namespace Molt.Abi

def SLOT_WORDS : Nat := 8

abbrev Words := List UInt64

/-- Word `i` of a slot. -/
def word (words : Words) (i : Nat) : UInt64 := words.getD i 0

/-- The tier-1 aperture every offset in a submission is measured inside. -/
def APERTURE : Nat := 2 ^ 32

inductive Reject where
  | tag
  | reserved
  | region
  deriving DecidableEq

/-- A comparison widened to every bit of a word. -/
structure Mask where
  bits : UInt64

namespace Mask

def of (held : Bool) : Mask := ⟨0 - held.toUInt64⟩

/-- Whether the comparison held. -/
def passed (m : Mask) : Bool := m.bits != 0

def apply (m : Mask) (value : UInt64) : UInt64 := value &&& m.bits

end Mask

/-- A buffer, as an offset and a length from the domain's base. -/
structure Region where
  offset : UInt32
  len : UInt32
  deriving DecidableEq

namespace Region

def inside (r : Region) (bytes : Nat) : Mask := .of (r.offset.toNat + r.len.toNat ≤ bytes)

/-- Whether this region lies inside `bytes`. -/
def fits (r : Region) (bytes : Nat) : Bool := (r.inside bytes).passed

/-- This region masked against `bytes`. -/
def within (r : Region) (bytes : Nat) : Region where
  offset := ((r.inside bytes).apply r.offset.toUInt64).toUInt32
  len := ((r.inside bytes).apply r.len.toUInt64).toUInt32

/-- Reads a region out of one wire word. -/
def decode (w : UInt64) : Except Reject Region :=
  let region : Region := ⟨w.toUInt32, (w >>> 32).toUInt32⟩
  let masked := region.within APERTURE
  if region.fits APERTURE then .ok masked else .error .region

def encode (r : Region) : UInt64 := r.offset.toUInt64 ||| (r.len.toUInt64 <<< 32)

end Region

/-- A capability named by a submission. -/
abbrev Handle := UInt64

inductive Op where
  | read (cap : Handle) (offset : UInt64) (buf : Region)
  | write (cap : Handle) (offset : UInt64) (buf : Region)
  | flush (cap : Handle)
  | openAt (dir : Handle) (name : Region)
  | close (cap : Handle)
  | send (cap : Handle) (buf : Region)
  | recv (cap : Handle) (buf : Region)
  | timer (ticks : UInt64)
  | message (channel : Handle) (buf : Region)
  | grant (channel cap : Handle) (rights : UInt32)
  deriving DecidableEq

namespace Op

/-- The tag this operation is written as. -/
def tag : Op → UInt32
  | read .. => 1
  | write .. => 2
  | flush .. => 3
  | openAt .. => 4
  | close .. => 5
  | send .. => 6
  | recv .. => 7
  | timer .. => 8
  | message .. => 9
  | grant .. => 10

def region : Op → Option Region
  | read _ _ buf => some buf
  | write _ _ buf => some buf
  | send _ buf => some buf
  | recv _ buf => some buf
  | openAt _ name => some name
  | message _ buf => some buf
  | flush _ => none
  | close _ => none
  | timer _ => none
  | grant .. => none

def words : Op → UInt64 × UInt64 × UInt64
  | read cap offset buf => (cap, offset, buf.encode)
  | write cap offset buf => (cap, offset, buf.encode)
  | flush cap => (cap, 0, 0)
  | close cap => (cap, 0, 0)
  | openAt dir name => (dir, name.encode, 0)
  | send cap buf => (cap, buf.encode, 0)
  | recv cap buf => (cap, buf.encode, 0)
  | message channel buf => (channel, buf.encode, 0)
  | timer ticks => (ticks, 0, 0)
  | grant channel cap rights => (channel, cap, rights.toUInt64)

end Op

/-- `value` if the words the operation does not use are zero. -/
def zeroed {α : Type} (unused : List UInt64) (value : α) : Except Reject α :=
  if ∀ w ∈ unused, w = 0 then .ok value else .error .reserved

def payload (buf unused : UInt64) : Except Reject Region :=
  if unused ≠ 0 then .error .reserved else Region.decode buf

structure Call where
  id : UInt64
  op : Op
  deriving DecidableEq

namespace Call

/-- Parses a slot the kernel has already copied out of shared memory. -/
def parse (words : Words) : Except Reject Call := do
  let id := word words 0
  let tag := (word words 1).toUInt32
  if word words 1 >>> 32 ≠ 0 ∨ word words 5 ≠ 0 ∨ word words 6 ≠ 0 ∨ word words 7 ≠ 0 then
    .error .reserved
  else
    let first := word words 2
    let second := word words 3
    let third := word words 4
    let op ← match tag with
      | 1 => Op.read first second <$> Region.decode third
      | 2 => Op.write first second <$> Region.decode third
      | 3 => zeroed [second, third] (Op.flush first)
      | 4 => Op.openAt first <$> payload second third
      | 5 => zeroed [second, third] (Op.close first)
      | 6 => Op.send first <$> payload second third
      | 7 => Op.recv first <$> payload second third
      | 8 => zeroed [second, third] (Op.timer first)
      | 9 => Op.message first <$> payload second third
      | 10 => zeroed [third >>> 32] (Op.grant first second third.toUInt32)
      | _ => .error .tag
    pure ⟨id, op⟩

def encode (c : Call) : Words :=
  let (first, second, third) := c.op.words
  [c.id, c.op.tag.toUInt64, first, second, third, 0, 0, 0]

end Call

structure Reply where
  id : UInt64
  result : Int64
  deriving DecidableEq

namespace Reply

def encode (r : Reply) : Words := [r.id, r.result.toUInt64, 0, 0, 0, 0, 0, 0]

def decode (words : Words) : Reply := ⟨word words 0, (word words 1).toInt64⟩

@[simp] theorem length_encode (r : Reply) : r.encode.length = SLOT_WORDS := rfl

end Reply

end Molt.Abi
