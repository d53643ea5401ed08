/-
What boot memory is, and where a device window may lie
(`sys/arch/src/memory.rs`, `Bar::span` of `device/pci/src/bar.rs`).

A window is classified by the first byte of each of its frames, and a byte by
the first region of the map that holds it.
-/
import Molt.Lib.Span

namespace Molt.Arch

def FRAME_SIZE : Nat := 4096

def frame (address : Nat) : Nat := address - address % FRAME_SIZE

inductive Error where
  | misaligned
  | range
  | mixed
  | kind
  deriving DecidableEq

/-- A frame-aligned range of physical memory that is not empty. -/
structure Span extends Lib.Span where
  nonempty : start < stop
  aligned : start % FRAME_SIZE = 0 ∧ stop % FRAME_SIZE = 0
  stop_lt : stop < 2 ^ 64
  deriving DecidableEq

def Span.new (start stop : Nat) : Except Error Span :=
  if h : start < stop ∧ (start % FRAME_SIZE = 0 ∧ stop % FRAME_SIZE = 0) ∧ stop < 2 ^ 64 then
    .ok ⟨⟨start, stop⟩, h.1, h.2.1, h.2.2⟩
  else .error .misaligned

inductive MemoryRegionKind where
  | usable
  | reserved
  | bootloader
  | firmware (code : Nat)
  deriving DecidableEq

structure MemoryRegion extends Lib.Span where
  kind : MemoryRegionKind
  deriving DecidableEq

inductive Kind where
  | ram
  | image
  | reserved
  | device
  deriving DecidableEq

structure Inventory where
  map : List (Option MemoryRegion)
  image : Option Span

namespace Inventory

def regions (m : Inventory) : List MemoryRegion := m.map.reduceOption

def kind (m : Inventory) (address : Nat) : Kind :=
  if m.image.any fun image => address ∈ image.toSpan then .image
  else
    match m.regions.find? fun r => address ∈ r.toSpan with
    | some region => if region.kind = .usable then .ram else .reserved
    | none => .device

/-- The first byte of each frame is looked at. -/
def classify (m : Inventory) (span : Span) : Except Error Kind :=
  let kind := m.kind span.start
  if ∀ i < span.bytes / FRAME_SIZE, m.kind (span.start + FRAME_SIZE * i) = kind then .ok kind
  else .error .mixed

def device (m : Inventory) (span : Span) : Except Error Span :=
  match m.classify span with
  | .ok .device => .ok span
  | .ok .reserved => .ok span
  | .ok .ram => .error .kind
  | .ok .image => .error .kind
  | .error e => .error e

end Inventory

/-- A base address register: `memory` or ports, and where. -/
structure Bar where
  memory : Bool
  base : Nat
  len : Nat

/-- The frames the window occupies, rounded out. -/
def Bar.span (b : Bar) : Except Error Span :=
  if b.memory = false then .error .kind
  else if b.base + b.len < 2 ^ 64 then
    Span.new (frame b.base)
      ((b.base + b.len + (FRAME_SIZE - 1)) / FRAME_SIZE * FRAME_SIZE % 2 ^ 64)
  else .error .range

end Molt.Arch
