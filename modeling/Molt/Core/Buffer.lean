/-
Registered buffers used by capability-based I/O operations
(`sys/core/src/buffer.rs`).

An operation names memory by capability and bounds, never by address. The
registry is a capability table over byte ranges, and the two resolvers turn
an operation into the bytes it names or say why it names none.
-/
import Molt.Core.Capability

namespace Molt.Core

/-- An I/O buffer range: a typed capability and bounds. -/
structure BufferOperation where
  buffer : Capability
  offset : Nat
  len : Nat
  deriving DecidableEq

inductive BufferError where
  | capability (e : CapabilityError)
  | outOfBounds
  deriving DecidableEq

/-- Supervisor-owned registry for memory that drivers may use for I/O. -/
structure BufferRegistry where
  table : CapabilityTable (List UInt8)
  deriving DecidableEq

namespace BufferRegistry

def new (n : Nat) : BufferRegistry := ⟨.new n⟩

def register (r : BufferRegistry) (mask : Rights) (owner : CellId) (bytes : List UInt8) :
    Except (List UInt8) Capability × BufferRegistry :=
  let (answer, table) := r.table.insert mask owner bytes
  (answer, ⟨table⟩)

def revokeOwner (r : BufferRegistry) (owner : CellId) : Nat × BufferRegistry :=
  let (revoked, table) := r.table.revokeOwner owner
  (revoked, ⟨table⟩)

/-- `bytes.get(offset..offset + len)`. -/
def range (bytes : List UInt8) (offset len : Nat) : Except BufferError (List UInt8) :=
  if offset + len < 2 ^ 64 ∧ offset + len ≤ bytes.length then
    .ok ((bytes.drop offset).take len)
  else .error .outOfBounds

def resolveRead (r : BufferRegistry) (op : BufferOperation) : Except BufferError (List UInt8) :=
  match r.table.get .READ op.buffer with
  | .error e => .error (.capability e)
  | .ok bytes => range bytes op.offset op.len

/-- The bytes a write operation names. What the holder of the range then
puts there is `fill`. -/
def resolveWrite (r : BufferRegistry) (op : BufferOperation) : Except BufferError (List UInt8) :=
  match r.table.getMut .WRITE op.buffer id with
  | (.error e, _) => .error (.capability e)
  | (.ok bytes, _) => range bytes op.offset op.len

/-- Puts `data` at the start of the range a write operation names. -/
def fill (r : BufferRegistry) (op : BufferOperation) (data : List UInt8) :
    BufferRegistry :=
  ⟨(r.table.getMut .WRITE op.buffer fun bytes =>
    bytes.take op.offset ++ data ++ bytes.drop (op.offset + data.length)).2⟩

end BufferRegistry

end Molt.Core
