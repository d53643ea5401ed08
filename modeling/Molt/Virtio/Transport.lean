/-
Where a device keeps its structures (`Transport::probe`, `Capabilities`).

The device lists its capabilities as it likes: in a cycle, or a kind twice.
The walk gives up after 48. Of each kind `probe` keeps the first location, but
the multiplier of notifications is read again at every `Notify`.
-/
import Molt.Lib.Bytes

namespace Molt.Virtio

open Molt.Lib

def VENDOR : Nat := 0x09
def CAPABILITY_FLOOR : Nat := 0x40
def CAPABILITY_LIMIT : Nat := 48

inductive Structure where
  | common
  | notify
  | device
  deriving DecidableEq

def Structure.of : Nat → Option Structure
  | 1 => some .common
  | 2 => some .notify
  | 4 => some .device
  | _ => none

structure Location where
  bar : Nat
  offset : Nat
  length : Nat

structure Transport where
  common : Location
  notify : Location
  device : Location
  notifyMultiplier : Nat

inductive Refusal where
  | capability
  | missing
  deriving DecidableEq

/-- The offsets the iterator yields before it ends, and whether an error does
so. No read fails: a function's window has 4 KiB. -/
def walk (m : Image) : Nat → Nat → List Nat × Bool
  | left, next =>
    let offset := next / 4 * 4
    if offset = 0 then ([], true)
    else
      match left with
      | 0 => ([], false)
      | left + 1 =>
        if offset < CAPABILITY_FLOOR then ([], false)
        else
          let rest := walk m left (m (offset + 1)).toNat
          (offset :: rest.1, rest.2)

def capabilities (m : Image) : List Nat × Bool :=
  walk m CAPABILITY_LIMIT (if atLe m 0x06 2 &&& 2 ^ 4 = 0 then 0 else (m 0x34).toNat)

def kindAt (m : Image) (offset : Nat) : Option Structure :=
  if atLe m offset 1 ≠ VENDOR then none else Structure.of (atLe m (offset + 3) 1)

def locationAt (m : Image) (offset : Nat) : Location :=
  ⟨atLe m (offset + 4) 1, atLe m (offset + 8) 4, atLe m (offset + 12) 4⟩

def multiplierAt (m : Image) (offset : Nat) : Nat := atLe m (offset + 16) 4

/-- What `probe` has found so far. -/
structure Found where
  common : Option Location := none
  notify : Option Location := none
  device : Option Location := none
  multiplier : Nat := 0

/-- `get_or_insert` keeps what is there. -/
def Found.see (m : Image) (f : Found) (offset : Nat) : Found :=
  match kindAt m offset with
  | none => f
  | some .common => { f with common := f.common.or (some (locationAt m offset)) }
  | some .notify => { f with
      multiplier := multiplierAt m offset
      notify := f.notify.or (some (locationAt m offset)) }
  | some .device => { f with device := f.device.or (some (locationAt m offset)) }

def Transport.probe (m : Image) : Except Refusal Transport :=
  let (offsets, ended) := capabilities m
  if ended = false then .error .capability
  else
    match offsets.foldl (Found.see m) {} with
    | ⟨some common, some notify, some device, multiplier⟩ =>
      .ok ⟨common, notify, device, multiplier⟩
    | _ => .error .missing

end Molt.Virtio
