/-
Generation-checked, typed authority handles (`sys/core/src/capability.rs`).

# Names

A capability is a table index and a generation in one 64-bit word. The
index is cut to 32 bits when the word is built. Its type parameter is only
a rights mask, which every call that takes a typed name passes along; safe
code cannot make a name, so names come from `insert`, `attenuate` and
`delegate` alone.

# The table

A slot keeps its generation across the resources it holds: emptying it
advances the generation, which skips zero when it wraps. `revoke`,
`revokeOwner` and `revokeAll` are the three ways to empty one.

# Calls

`Call` is one call by somebody who holds the names handed out so far, each
under the number it was handed out with. `Holding` runs calls against a
table and keeps two records of its own beside it: the ledger says of every
resource ever inserted with what it was inserted and whether it has been
revoked since, and `emptied` counts how often each slot was emptied.
-/
import Mathlib

namespace Molt.Core

-- == rights

/-- Runtime rights stored beside a resource. -/
structure Rights where
  bits : BitVec 8
  deriving DecidableEq

namespace Rights

def READ : Rights := ⟨1#8 <<< 0⟩
def WRITE : Rights := ⟨1#8 <<< 1⟩
def READ_WRITE : Rights := ⟨READ.bits ||| WRITE.bits⟩
def NONE : Rights := ⟨0#8⟩

def contains (self requested : Rights) : Bool := self.bits &&& requested.bits == requested.bits

end Rights

/-- Stable identity assigned by the supervisor. -/
abbrev CellId := Nat

-- == names

/-- A table index and generation pair. -/
structure Capability where
  raw : Nat
  deriving DecidableEq

namespace Capability

/-- `index as u64 | ((generation as u64) << 32)`, the index a `u32`. -/
def new (index generation : Nat) : Capability := ⟨(generation <<< 32) ||| index % 2 ^ 32⟩

def index (c : Capability) : Nat := c.raw % 2 ^ 32

def generation (c : Capability) : Nat := c.raw / 2 ^ 32 % 2 ^ 32

end Capability

inductive CapabilityError where
  | invalid
  | stale
  | insufficientRights
  deriving DecidableEq

-- == the table

structure Slot (τ : Type) where
  generation : Nat
  owner : CellId
  rights : Rights
  resource : Option τ
  deriving DecidableEq

namespace Slot

variable {τ : Type}

def empty : Slot τ := { generation := 1, owner := 0, rights := .NONE, resource := none }

/-- `wrapping_add(1)` on a `u32`, and past zero. -/
def advanceGeneration (s : Slot τ) : Slot τ :=
  let generation := (s.generation + 1) % 2 ^ 32
  { s with generation := if generation = 0 then 1 else generation }

/-- What the three revocations do to a slot they empty. -/
def clear (s : Slot τ) : Slot τ :=
  ({ s with resource := none, rights := .NONE } : Slot τ).advanceGeneration

end Slot

/-- A fixed-size, supervisor-owned resource table. -/
structure CapabilityTable (τ : Type) where
  slots : List (Slot τ)
  deriving DecidableEq

/-- The record of a name handed on, as the audit log takes it. -/
structure Delegation where
  actor : CellId
  holder : CellId
  resource : Nat
  rights : Rights
  deriving DecidableEq

namespace CapabilityTable

variable {τ : Type}

def new (n : Nat) : CapabilityTable τ := ⟨List.replicate n .empty⟩

/-- Puts `resource` into the first empty slot, or hands it back. -/
def insert (t : CapabilityTable τ) (mask : Rights) (owner : CellId) (resource : τ) :
    Except τ Capability × CapabilityTable τ :=
  match t.slots.findIdx? fun slot => slot.resource.isNone with
  | none => (.error resource, t)
  | some index =>
    let generation := (t.slots.getD index .empty).generation
    (.ok (.new index generation),
      ⟨t.slots.set index { generation, owner, rights := mask, resource := some resource }⟩)

def validate (t : CapabilityTable τ) (mask : Rights) (c : Capability) :
    Except CapabilityError (Slot τ) :=
  match t.slots[c.index]? with
  | none => .error .invalid
  | some slot =>
    if slot.generation ≠ c.generation ∨ slot.resource.isNone then .error .stale
    else if !slot.rights.contains mask then .error .insufficientRights
    else .ok slot

def attenuate (t : CapabilityTable τ) (source target : Rights) (c : Capability) :
    Except CapabilityError Capability := do
  let slot ← t.validate source c
  if !source.contains target || !slot.rights.contains target then
    .error .insufficientRights
  else .ok ⟨c.raw⟩

/-- Hands a name on with `target` rights, and the record of the transfer. -/
def delegate (t : CapabilityTable τ) (source target : Rights) (c : Capability)
    (giver taker : CellId) : Except CapabilityError (Capability × Delegation) := do
  let delegated ← t.attenuate source target c
  .ok (delegated, { actor := giver, holder := taker, resource := c.index, rights := target })

def get (t : CapabilityTable τ) (mask : Rights) (c : Capability) : Except CapabilityError τ := do
  let slot ← t.validate mask c
  match slot.resource with
  | some resource => .ok resource
  | none => .error .stale

/-- The resource, and the table once the holder of `&mut T` has made it
`f` of what it was. -/
def getMut (t : CapabilityTable τ) (mask : Rights) (c : Capability) (f : τ → τ) :
    Except CapabilityError τ × CapabilityTable τ :=
  match t.slots[c.index]? with
  | none => (.error .invalid, t)
  | some slot =>
    if slot.generation ≠ c.generation ∨ slot.resource.isNone then (.error .stale, t)
    else if !slot.rights.contains mask then (.error .insufficientRights, t)
    else
      match slot.resource with
      | some resource =>
        (.ok resource, ⟨t.slots.set c.index { slot with resource := some (f resource) }⟩)
      | none => (.error .stale, t)

/-- Drops one resource, leaving every capability naming it stale. The
resource is taken before it is looked at, so the last error comes after a
write to the slot. -/
def revoke (t : CapabilityTable τ) (mask : Rights) (c : Capability) :
    Except CapabilityError τ × CapabilityTable τ :=
  match t.slots[c.index]? with
  | none => (.error .invalid, t)
  | some slot =>
    if slot.generation ≠ c.generation then (.error .stale, t)
    else if !slot.rights.contains mask then (.error .insufficientRights, t)
    else
      let taken := { slot with resource := none }
      match slot.resource with
      | none => (.error .stale, ⟨t.slots.set c.index taken⟩)
      | some resource => (.ok resource, ⟨t.slots.set c.index taken.clear⟩)

/-- Empties every slot that holds a resource `drop` selects. -/
def revokeWhere (t : CapabilityTable τ) (drop : Slot τ → Bool) : Nat × CapabilityTable τ :=
  let gone := fun slot : Slot τ => slot.resource.isSome && drop slot
  (t.slots.countP gone, ⟨t.slots.map fun slot => if gone slot then slot.clear else slot⟩)

def revokeOwner (t : CapabilityTable τ) (owner : CellId) : Nat × CapabilityTable τ :=
  t.revokeWhere fun slot => slot.owner == owner

/-- Drops every live resource while preserving each slot's generation. -/
def revokeAll (t : CapabilityTable τ) : Nat × CapabilityTable τ := t.revokeWhere fun _ => true

end CapabilityTable

-- == calls

/-- One call by the holder of every name handed out so far. -/
inductive Call (τ : Type) where
  | insert (mask : Rights) (owner : CellId) (resource : τ)
  | attenuate (name : Nat) (target : Rights)
  | delegate (name : Nat) (target : Rights) (giver taker : CellId)
  | get (name : Nat)
  | getMut (name : Nat) (f : τ → τ)
  | revoke (name : Nat)
  | revokeOwner (owner : CellId)
  | revokeAll

/-- A name as handed out: the word, the rights in its type, and the
resource it was handed out for. -/
structure Issued where
  cap : Capability
  mask : Rights
  resource : Nat
  deriving DecidableEq

/-- A resource as it was inserted, and what became of it. -/
structure Entry (τ : Type) where
  owner : CellId
  rights : Rights
  value : τ
  revoked : Bool
  deriving DecidableEq

/-- A table, the names handed out from it, and the record of both. -/
structure Holding (τ : Type) where
  table : CapabilityTable τ
  names : List Issued
  ledger : List (Entry τ)
  /-- How often each slot was emptied. -/
  emptied : Nat → Nat

namespace Holding

variable {τ : Type}

def new (n : Nat) : Holding τ :=
  { table := .new n, names := [], ledger := [], emptied := fun _ => 0 }

/-- Whether a slot held a resource in `t` and holds none in `t'`. -/
def emptiedIn (t t' : CapabilityTable τ) (j : Nat) : Bool :=
  (t.slots[j]?.bind Slot.resource).isSome && (t'.slots[j]?.bind Slot.resource).isNone

/-- The state after a call that left table `t'`, names and ledger. -/
def become (s : Holding τ) (t' : CapabilityTable τ) (names : List Issued)
    (ledger : List (Entry τ)) : Holding τ :=
  { table := t', names, ledger
    emptied := fun j => s.emptied j + (emptiedIn s.table t' j).toNat }

/-- Marks the resources a revocation was asked to drop. -/
def drop (ledger : List (Entry τ)) (gone : Entry τ → Bool) : List (Entry τ) :=
  ledger.map fun e => if gone e then { e with revoked := true } else e

/-- One call and whether it succeeded. Only a call that did is recorded. -/
def call (s : Holding τ) : Call τ → Bool × Holding τ
  | .insert mask owner resource =>
    match s.table.insert mask owner resource with
    | (.error _, t') => (false, s.become t' s.names s.ledger)
    | (.ok cap, t') =>
      (true, s.become t' (s.names ++ [⟨cap, mask, s.ledger.length⟩])
        (s.ledger ++ [{ owner, rights := mask, value := resource, revoked := false }]))
  | .attenuate name target =>
    match s.names[name]? with
    | none => (false, s)
    | some h =>
      match s.table.attenuate h.mask target h.cap with
      | .error _ => (false, s)
      | .ok cap => (true, { s with names := s.names ++ [⟨cap, target, h.resource⟩] })
  | .delegate name target giver taker =>
    match s.names[name]? with
    | none => (false, s)
    | some h =>
      match s.table.delegate h.mask target h.cap giver taker with
      | .error _ => (false, s)
      | .ok (cap, _) => (true, { s with names := s.names ++ [⟨cap, target, h.resource⟩] })
  | .get name =>
    match s.names[name]? with
    | none => (false, s)
    | some h =>
      match s.table.get h.mask h.cap with
      | .error _ => (false, s)
      | .ok _ => (true, s)
  | .getMut name f =>
    match s.names[name]? with
    | none => (false, s)
    | some h =>
      match s.table.getMut h.mask h.cap f with
      | (.error _, t') => (false, s.become t' s.names s.ledger)
      | (.ok _, t') =>
        (true, s.become t' s.names
          (s.ledger.modify h.resource fun e => { e with value := f e.value }))
  | .revoke name =>
    match s.names[name]? with
    | none => (false, s)
    | some h =>
      match s.table.revoke h.mask h.cap with
      | (.error _, t') => (false, s.become t' s.names s.ledger)
      | (.ok _, t') =>
        (true, s.become t' s.names
          (s.ledger.modify h.resource fun e => { e with revoked := true }))
  | .revokeOwner owner =>
    (true, s.become (s.table.revokeOwner owner).2 s.names
      (drop s.ledger fun e => e.owner == owner))
  | .revokeAll =>
    (true, s.become s.table.revokeAll.2 s.names (drop s.ledger fun _ => true))

def run (s : Holding τ) (calls : List (Call τ)) : Holding τ :=
  calls.foldl (fun s c => (s.call c).2) s

end Holding

end Molt.Core
