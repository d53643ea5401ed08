/-
A free-list heap over spans of donated bytes (`base/alloc/src/heap.rs`).

# Memory

Headers live in the memory they describe. A header is two words at a
`UNIT`-aligned address, so the memory here maps such an address to a pair of
words; a free chunk's header is its size and the next chunk, a live one's its
size and the way back to the chunk start. Address zero is the null pointer.
`usize` is 64 bits wide.

# Loops

A loop along the free list is given as many turns as bytes were donated,
which is more than there are chunks.

# The arena

`Arena` is a heap, the memory behind it, the spans donated and the
allocations handed out. Their owners may write to their payloads at will.
-/
import Molt.Lib.Span

namespace Molt.Alloc

open Molt.Lib

def UNIT : Nat := 16

/-- Smallest chunk worth keeping: a header plus one unit of payload. -/
def MIN : Nat := 2 * UNIT

abbrev Memory := Nat → Nat × Nat

/-- A write of a header, or of one of its words. -/
def Memory.set (m : Memory) (a : Nat) (v : Nat × Nat) : Memory := fun x => if x = a then v else m x

def saturatingAdd (a b : Nat) : Nat := min (a + b) (2 ^ 64 - 1)

/-- `& !(align - 1)` for an alignment, which is a power of two. -/
def alignDown (value align : Nat) : Nat := value / align * align

def alignUp (value align : Nat) : Nat := alignDown (saturatingAdd value (align - 1)) align

/-- A first-fit heap over the spans it was given. -/
structure Heap where
  free : Nat
  size : Nat
  used : Nat
  owner : Nat
  deriving DecidableEq

namespace Heap

def new : Heap := ⟨0, 0, 0, 0⟩

def own (h : Heap) (owner : Nat) : Heap := { h with owner := owner % UNIT }

/-- Points the list past `previous`, which is null at its head. -/
def relink (h : Heap) (m : Memory) (previous rest : Nat) : Heap × Memory :=
  if previous = 0 then ({ h with free := rest }, m)
  else (h, m.set previous ((m previous).1, rest))

/-- `while !next.is_null() && next.addr() < block.addr()`. -/
def seek (m : Memory) (block : Nat) : Nat → Nat → Nat → Nat × Nat
  | 0, previous, next => (previous, next)
  | turns + 1, previous, next =>
    if next ≠ 0 ∧ next < block then seek m block turns next (m next).2 else (previous, next)

/-- Takes the chunk at `next` into the one before it, if they touch. -/
def join (m : Memory) (block next : Nat) : Memory :=
  if next ≠ 0 ∧ block + (m block).1 = next then
    m.set block ((m block).1 + (m next).1, (m next).2)
  else m

/-- Links `block` back in address order, merging it with either neighbour it
touches. -/
def insert (h : Heap) (m : Memory) (block : Nat) : Heap × Memory :=
  let (previous, next) := seek m block h.size 0 h.free
  let m := m.set block ((m block).1, next)
  let (h, m) := h.relink m previous block
  let m := join m block next
  (h, if previous ≠ 0 then join m previous block else m)

/-- Donates the `len` bytes at `start`, rounded inward to whole chunks. -/
def extend (h : Heap) (m : Memory) (start len : Nat) : Heap × Memory :=
  let first := alignUp start UNIT
  let last := alignDown (saturatingAdd start len) UNIT
  if last - first < MIN then (h, m)
  else insert { h with size := h.size + (last - first) } (m.set first (last - first, 0)) first

/-- Splits `chunk` at `finish`, unlinks what is taken, and stamps its header. -/
def carve (h : Heap) (m : Memory) (previous chunk payload finish : Nat) : Heap × Memory :=
  let last := chunk + (m chunk).1
  let next := (m chunk).2
  let split := last - finish ≥ MIN
  let taken := if split then finish - chunk else last - chunk
  let rest := if split then finish else next
  let m := if split then m.set finish (last - finish, next) else m
  let (h, m) := h.relink m previous rest
  ({ h with used := h.used + taken },
    m.set (payload - UNIT) (taken, (payload - chunk) ||| h.owner))

/-- The first chunk that `need` bytes at `align` fit in: the one before it,
the chunk, and where its payload begins and ends. -/
def search (m : Memory) (align need : Nat) : Nat → Nat → Nat → Option (Nat × Nat × Nat × Nat)
  | 0, _, _ => none
  | turns + 1, previous, chunk =>
    if chunk = 0 then none
    else
      let payload := alignUp (saturatingAdd chunk UNIT) align
      let finish := saturatingAdd payload need
      if finish ≤ chunk + (m chunk).1 then some (previous, chunk, payload, finish)
      else search m align need turns chunk (m chunk).2

def needOf (size : Nat) : Nat := alignUp (max size 1) UNIT

/-- Carves a layout out of the first chunk it fits in. -/
def allocate (h : Heap) (m : Memory) (size align : Nat) : Option Nat × Heap × Memory :=
  match search m (max align UNIT) (needOf size) h.size 0 h.free with
  | none => (none, h, m)
  | some (previous, chunk, payload, finish) =>
    (some payload, h.carve m previous chunk payload finish)

/-- The chunk a live payload is in, as the header below it says. -/
def chunkOf (m : Memory) (payload : Nat) : Span :=
  let (size, back) := m (payload - UNIT)
  let start := payload - back / UNIT * UNIT
  ⟨start, start + size⟩

/-- Returns an allocation to the heap. -/
def deallocate (h : Heap) (m : Memory) (payload : Nat) : Heap × Memory :=
  let size := (m (payload - UNIT)).1
  let block := payload - (m (payload - UNIT)).2 / UNIT * UNIT
  insert { h with used := h.used - size } (m.set block (size, 0)) block

def chunksFrom (m : Memory) : Nat → Nat → List Span
  | 0, _ => []
  | turns + 1, chunk =>
    if chunk = 0 then [] else ⟨chunk, chunk + (m chunk).1⟩ :: chunksFrom m turns (m chunk).2

def chunks (h : Heap) (m : Memory) : List Span := chunksFrom m h.size h.free

end Heap

-- == the arena

/-- An allocation: its payload and the layout asked for. -/
structure Block where
  payload : Nat
  size : Nat
  align : Nat
  deriving DecidableEq

structure Arena where
  heap : Heap
  mem : Memory
  spans : List Span
  live : List Block

/-- A call of the heap, or a write of an owner to its payload. -/
inductive Call where
  | extend (start len : Nat)
  | allocate (size align : Nat)
  | deallocate (k : Nat)
  | write (k unit : Nat) (value : Nat × Nat)

namespace Arena

def new (owner : Nat) (mem : Memory) : Arena := ⟨Heap.new.own owner, mem, [], []⟩

def call (a : Arena) : Call → Arena
  | .extend start len =>
    let (heap, mem) := a.heap.extend a.mem start len
    { a with heap, mem, spans := ⟨start, start + len⟩ :: a.spans }
  | .allocate size align =>
    match a.heap.allocate a.mem size align with
    | (none, heap, mem) => { a with heap, mem }
    | (some payload, heap, mem) =>
      { a with heap, mem, live := ⟨payload, size, align⟩ :: a.live }
  | .deallocate k =>
    match a.live[k]? with
    | none => a
    | some block =>
      let (heap, mem) := a.heap.deallocate a.mem block.payload
      { a with heap, mem, live := a.live.eraseIdx k }
  | .write k unit value =>
    match a.live[k]? with
    | none => a
    | some block =>
      if UNIT * unit < block.size then
        { a with mem := a.mem.set (block.payload + UNIT * unit) value }
      else a

def run (a : Arena) (calls : List Call) : Arena := calls.foldl call a

def whole (s : Span) : Option Span :=
  let first := alignUp s.start UNIT
  let last := alignDown (min s.stop (2 ^ 64 - 1)) UNIT
  if last - first < MIN then none else some ⟨first, last⟩

/-- The bytes donated, as whole chunks. -/
def donated (a : Arena) : List Span := a.spans.filterMap whole

def chunks (a : Arena) : List Span := a.heap.chunks a.mem

def chunkOf (a : Arena) (b : Block) : Span := Heap.chunkOf a.mem b.payload

end Arena

end Molt.Alloc
