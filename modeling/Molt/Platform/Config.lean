/-
The PCI configuration window (`acpi::mcfg`, `ConfigSpace::span`, `bus_span`,
`Address::offset`).

The base is what firmware wrote. That the bus range is not backwards is
checked where a window is read; that the buses fit above the base is not, in
either port, and `span` adds them up.
-/
import Molt.Arch.Memory
import Molt.Platform.Fdt

namespace Molt.Platform.Pci

open Molt.Domain Fdt Arch
open Lib (leNat leBytes)

inductive AcpiError where
  | checksum
  | signature
  | truncated
  | missing
  | range
  deriving DecidableEq

def HEADER : Nat := 36
def MAX_TABLE : Nat := 64 * 1024

/-- The `length` field of a table header, refused when it cannot be one. -/
def length (bytes : List UInt8) : Except AcpiError Nat :=
  let length := leNat ((bytes.drop 4).take 4)
  if bytes.length < HEADER ∨ ¬ (HEADER ≤ length ∧ length ≤ MAX_TABLE) then .error .truncated
  else .ok length

def table (bytes signature : List UInt8) : Except AcpiError (List UInt8) := do
  let length ← length bytes
  if bytes.take 4 ≠ signature then .error .signature
  else if bytes.length < length then .error .truncated
  else if (bytes.take length).sum ≠ 0 then .error .checksum
  else .ok (bytes.take length)

def mcfg (bytes : List UInt8) : Except AcpiError ConfigSpace := do
  let body ← table bytes (ascii "MCFG")
  if body.length < 60 then .error .missing
  else
    let field at_ n := leNat ((body.drop (44 + at_)).take n)
    if field 10 1 > field 11 1 then .error .range
    else .ok ⟨field 0 8, field 8 2, field 10 1, field 11 1⟩

inductive PciError where
  | address
  deriving DecidableEq

/-- The physical range the whole bus number range occupies. -/
def span (c : ConfigSpace) : Checked Error Span := do
  let buses := (← minus c.lastBus c.firstBus) + 1
  (Span.new c.base (← plus c.base (buses * BUS_STRIDE))).mapError .error

def busSpan (c : ConfigSpace) (bus : Nat) : Checked PciError Span :=
  if bus < c.firstBus ∨ bus > c.lastBus then fail .address
  else
    match span c with
    | .error .panic => .error .panic
    | .error (.error _) => fail .address
    | .ok span => do
      let start ← plus span.start ((bus - c.firstBus) * BUS_STRIDE)
      (Span.new start (← plus start BUS_STRIDE)).mapError fun _ => .error .address

@[ext] structure Address where
  device : Nat
  function : Nat
  device_lt : device < 32
  function_lt : function < 8

def Address.offset (a : Address) : Nat := a.device <<< 15 ||| a.function <<< 12

/-- Where a function's registers are in the window of its bus. -/
def Address.window (a : Address) (bus : Span) : Lib.Span :=
  ⟨bus.start + a.offset, bus.start + a.offset + 4096⟩

/-- Firmware describes this window. -/
def Described (c : ConfigSpace) : Prop :=
  (∃ tree : DeviceTree, tree.configSpace = .ok c) ∨ ∃ bytes, mcfg bytes = .ok c

/-- Where the window ends, in numbers without a bound. -/
def top (c : ConfigSpace) : Nat := c.base + (c.lastBus - c.firstBus + 1) * BUS_STRIDE

end Molt.Platform.Pci
