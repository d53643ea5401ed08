/-
Admission and loading of hardware-domain images (`molt-domain`).

# Panics

A slice index out of range and a sum that leaves its type would stop the
kernel. Every such operation of the source is written here with `Checked`
arithmetic that says so (`Stop.panic`), apart from the errors the source
returns; that no image makes one panic is then a theorem and not a reading.
Offsets and lengths are 64-bit, as `usize` is on both architectures.

# The loop

`Image::parse` walks the program headers with three accumulators: the
segments admitted so far, the page-rounded end of the last one, and whether
an executable one holds the entry point. `Walk` is those three.
-/
import Molt.Lib.Bytes

namespace Molt.Domain

open Lib

def ELF_HEADER : Nat := 64
def PROGRAM_HEADER : Nat := 56
def LOAD : Nat := 1
def DYNAMIC : Nat := 2
def INTERP : Nat := 3
def READ : Nat := 0b100
def WRITE : Nat := 0b010
def EXECUTE : Nat := 0b001
def PAGE : Nat := 4096
def SEGMENTS : Nat := 8

/-- An instruction set named by the ELF `e_machine` field. -/
inductive Architecture where
  | x86_64
  | riscV
  deriving DecidableEq

def Architecture.machine : Architecture → Nat
  | x86_64 => 62
  | riscV => 243

/-- Why an image was refused before any mapping was made. -/
inductive ImageError where
  | truncated
  | format
  | architecture
  | unsupported
  | tooManySegments
  | segment
  | overlap
  | writeExecute
  | entry
  deriving DecidableEq

-- == checked operations

/-- Why a computation ended without a value. -/
inductive Stop (ε : Type) where
  | error (e : ε)
  | panic
  deriving DecidableEq

/-- Code that returns, fails, or panics. -/
abbrev Checked (ε α : Type) := Except (Stop ε) α

section Checked

variable {ε : Type}

def fail {α : Type} (e : ε) : Checked ε α := .error (.error e)

/-- `checked_add(..).ok_or(e)`. -/
def checkedAdd (a b : Nat) (e : ε) : Checked ε Nat :=
  if a + b < 2 ^ 64 then .ok (a + b) else fail e

/-- `checked_mul(..).ok_or(e)`. -/
def checkedMul (a b : Nat) (e : ε) : Checked ε Nat :=
  if a * b < 2 ^ 64 then .ok (a * b) else fail e

/-- `usize::try_from(..).map_err(e)`. -/
def usizeOf (a : Nat) (e : ε) : Checked ε Nat :=
  if a < 2 ^ 64 then .ok a else fail e

/-- A plain `a + b`. -/
def plus (a b : Nat) : Checked ε Nat :=
  if a + b < 2 ^ 64 then .ok (a + b) else .error .panic

/-- A plain `a - b`. -/
def minus (a b : Nat) : Checked ε Nat :=
  if b ≤ a then .ok (a - b) else .error .panic

/-- `&xs[start..stop]`. -/
def subslice {α : Type} (xs : List α) (start stop : Nat) : Checked ε (List α) :=
  if start ≤ stop ∧ stop ≤ xs.length then .ok ((xs.drop start).take (stop - start))
  else .error .panic

/-- `xs[i] = x`. -/
def assign {α : Type} (xs : List α) (i : Nat) (x : α) : Checked ε (List α) :=
  if i < xs.length then .ok (xs.set i x) else .error .panic

end Checked

/-- The `w`-byte integer at `off` of a window. -/
def leAt (window : List UInt8) (off w : Nat) : Nat := leNat ((window.drop off).take w)

/-- The windows of `n` bytes a table is made of. -/
def records (n : Nat) (bytes : List UInt8) : Nat → List (List UInt8)
  | 0 => []
  | fuel + 1 =>
    if n ≤ bytes.length then bytes.take n :: records n (bytes.drop n) fuel else []

-- == segments

/-- One page-aligned range admitted from a `PT_LOAD` header. -/
structure Segment where
  virtualAddress : Nat
  memorySize : Nat
  mappedSize : Nat
  fileOffset : Nat
  fileSize : Nat
  protection : Nat
  deriving DecidableEq

namespace Segment

def isRead (s : Segment) : Bool := s.protection &&& READ ≠ 0

def isWrite (s : Segment) : Bool := s.protection &&& WRITE ≠ 0

def isExecute (s : Segment) : Bool := s.protection &&& EXECUTE ≠ 0

/-- The saturating sum is the source's. -/
def contains (s : Segment) (address : Nat) : Bool :=
  s.virtualAddress ≤ address ∧ address < min (s.virtualAddress + s.memorySize) (2 ^ 64 - 1)

end Segment

structure Image where
  segments : List (Option Segment)
  count : Nat
  entry : Nat
  deriving DecidableEq

/-- The accumulators of the loop over the program headers. -/
structure Walk where
  image : Image
  priorEnd : Nat
  executableEntry : Bool
  deriving DecidableEq

namespace Image

def admitOne (bytes : List UInt8) (w : Walk) (header : List UInt8) : Checked ImageError Walk := do
  let kind := leAt header 0 4
  if kind = DYNAMIC ∨ kind = INTERP then fail .unsupported
  else if kind ≠ LOAD then pure w
  else if w.image.count = SEGMENTS then fail .tooManySegments
  else
    let flags := leAt header 4 4
    let fileOffset := leAt header 8 8
    let virtualAddress := leAt header 16 8
    let fileSize := leAt header 32 8
    let memorySize := leAt header 40 8
    let alignment := leAt header 48 8
    let fileEnd ← checkedAdd fileOffset fileSize .segment
    let memoryEnd ← checkedAdd virtualAddress memorySize .segment
    let rounded ← checkedAdd memoryEnd (PAGE - 1) .segment
    let mappedEnd := rounded / PAGE * PAGE
    if memorySize = 0 ∨ fileSize > memorySize ∨ fileEnd > bytes.length
        ∨ virtualAddress % PAGE ≠ 0 ∨ fileOffset % PAGE ≠ 0 ∨ alignment ≠ PAGE
        ∨ flags / 8 ≠ 0 ∨ flags &&& READ = 0 then
      fail .segment
    else if flags &&& (WRITE ||| EXECUTE) = WRITE ||| EXECUTE then fail .writeExecute
    else if w.image.count ≠ 0 ∧ virtualAddress < w.priorEnd then fail .overlap
    else
      let mappedSize ← minus mappedEnd virtualAddress
      let segment : Segment :=
        { virtualAddress, memorySize, mappedSize, fileOffset, fileSize, protection := flags }
      let segments ← assign w.image.segments w.image.count (some segment)
      let count ← plus w.image.count 1
      pure {
        image := { w.image with segments, count }
        priorEnd := mappedEnd
        executableEntry :=
          w.executableEntry || (segment.isExecute && segment.contains w.image.entry) }

def admitAll (bytes : List UInt8) : Walk → List (List UInt8) → Checked ImageError Walk
  | w, [] => .ok w
  | w, header :: rest => do
      let w ← admitOne bytes w header
      admitAll bytes w rest

def parse (bytes : List UInt8) (architecture : Architecture) : Checked ImageError Image := do
  if bytes.length < ELF_HEADER then fail .truncated
  else
    let header := bytes.take ELF_HEADER
    if header.take 7 ≠ [0x7f, 0x45, 0x4c, 0x46, 2, 1, 1] ∨ leAt header 16 2 ≠ 2
        ∨ leAt header 20 4 ≠ 1 ∨ leAt header 52 2 ≠ ELF_HEADER then
      fail .format
    else if leAt header 18 2 ≠ architecture.machine then fail .architecture
    else
      let entry := leAt header 24 8
      let offset ← usizeOf (leAt header 32 8) .truncated
      let size := leAt header 54 2
      let count := leAt header 56 2
      if size ≠ PROGRAM_HEADER ∨ count = 0 then fail .format
      else
        let span ← checkedMul count size .truncated
        let stop ← checkedAdd offset span .truncated
        if stop > bytes.length then fail .truncated
        else
          let table ← subslice bytes offset stop
          let start : Walk := ⟨⟨List.replicate SEGMENTS none, 0, entry⟩, 0, false⟩
          let w ← admitAll bytes start (records PROGRAM_HEADER table table.length)
          if w.image.count = 0 ∨ w.executableEntry = false then fail .entry
          else pure w.image

def admitted (image : Image) : Checked ImageError (List Segment) := do
  let used ← subslice image.segments 0 image.count
  pure used.reduceOption

end Image

-- == load

/-- A target that receives only fully admitted segments. -/
structure Mapper (σ ε : Type) where
  map : Segment → List UInt8 → σ → Except ε Unit × σ

/-- A load failure, separated into admission and mapping halves. -/
inductive LoadError (ε : Type) where
  | image (e : ImageError)
  | map (e : ε)
  deriving DecidableEq

section Load

variable {σ ε : Type}

/-- An admission step, as `load` sees it (`map_err(LoadError::Image)`). -/
def asLoad {α : Type} : Checked ImageError α → Checked (LoadError ε) α
  | .ok a => .ok a
  | .error (.error e) => .error (.error (.image e))
  | .error .panic => .error .panic

/-- The bytes of the image a segment is filled from. -/
def fileOf (bytes : List UInt8) (s : Segment) : Checked ImageError (List UInt8) := do
  let start ← usizeOf s.fileOffset .segment
  let len ← usizeOf s.fileSize .segment
  let stop ← plus start len
  subslice bytes start stop

def mapAll (m : Mapper σ ε) (bytes : List UInt8) :
    List Segment → σ → Checked (LoadError ε) Unit × σ
  | [], s => (.ok (), s)
  | segment :: rest, s =>
    match asLoad (fileOf bytes segment) with
    | .error e => (.error e, s)
    | .ok file =>
      match m.map segment file s with
      | (.ok _, s) => mapAll m bytes rest s
      | (.error e, s) => (.error (.error (.map e)), s)

/-- Validates all bytes, then maps the segments in virtual-address order. -/
def load (m : Mapper σ ε) (bytes : List UInt8) (architecture : Architecture) (s : σ) :
    Checked (LoadError ε) Nat × σ :=
  match asLoad (Image.parse bytes architecture) with
  | .error e => (.error e, s)
  | .ok image =>
    match asLoad image.admitted with
    | .error e => (.error e, s)
    | .ok segments =>
      match mapAll m bytes segments s with
      | (.ok _, s) => (.ok image.entry, s)
      | (.error e, s) => (.error e, s)

end Load

end Molt.Domain
