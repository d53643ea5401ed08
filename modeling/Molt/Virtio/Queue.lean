/-
One split virtqueue (`device/virtio/src/queue.rs`).

# Memory

The descriptor table is written by the driver alone and read back when a
chain is freed. The used ring belongs to the device: a `pop` is given the
index and the entries it reads there, which may be anything. The three
regions are as long as `new` demands, so no access of theirs is refused.

# The free list

The source keeps a stack in an array, `free[..available]`, with its top at
the end. Here it is a list with its top at the front, so `available` is its
length and the entries above the top, which nothing reads, are left out. The
bits of `seen` in `free_chain` are those of the indices in `chain`.
-/
import Mathlib

namespace Molt.Virtio

/-- The largest queue this driver builds. -/
def MAX_SIZE : Nat := 32

def NEXT : Nat := 1
def WRITE : Nat := 2

inductive VirtioError where
  | full
  | device
  deriving DecidableEq

/-- A checked slice of a mapping that a descriptor points at. -/
structure Segment where
  iova : Nat
  len : Nat
  writable : Bool
  deriving DecidableEq

structure Descriptor where
  addr : Nat
  len : Nat
  flags : Nat
  next : Nat
  deriving DecidableEq

/-- A completed chain: its head and how many bytes the device wrote. -/
structure Used where
  head : Nat
  len : Nat
  deriving DecidableEq

/-- What the driver finds in the used ring. -/
structure UsedRing where
  idx : Nat
  entries : Nat → Nat × Nat

structure Queue where
  size : Nat
  table : Nat → Descriptor
  ring : Nat → Nat
  free : List Nat
  availIdx : Nat
  usedSeen : Nat

namespace Queue

/-- A queue of `size` descriptors, all free, zero on top. -/
def new (size : Nat) : Except VirtioError Queue :=
  if size = 0 ∨ size > MAX_SIZE ∨ ¬ ∃ k < 6, size = 2 ^ k then .error .device
  else .ok ⟨size, fun _ => ⟨0, 0, 0, 0⟩, fun _ => 0, List.range size, 0, 0⟩

/-- How many descriptors are free to be pushed. -/
def available (q : Queue) : Nat := q.free.length

def writeDescriptor (table : Nat → Descriptor) (index : Nat) (d : Descriptor) : Nat → Descriptor :=
  fun i => if i = index then d else table i

/-- Writes the segments into the descriptors, each linked to the next. -/
def writeChain (table : Nat → Descriptor) : List Nat → List Segment → Nat → Descriptor
  | index :: rest, segment :: segments =>
    let last := segments.isEmpty
    let next := if last then 0 else rest.headD 0
    let flags := (if segment.writable then WRITE else 0) ||| (if last then 0 else NEXT)
    writeChain (writeDescriptor table index ⟨segment.iova, segment.len, flags, next⟩) rest segments
  | _, _ => table

/-- Publishes `segments` as one chain and returns its head. The count is cast
to sixteen bits; if that loses some, the loop runs off the free list and the
kernel panics, which is `none`. -/
def push (q : Queue) (segments : List Segment) : Option (Except VirtioError Nat × Queue) :=
  let count := segments.length % 2 ^ 16
  if count = 0 ∨ count > q.available then some (.error .full, q)
  else if segments.length ≠ count then none
  else
    let chain := q.free.take count
    let head := chain.headD 0
    some (.ok head, { q with
      table := writeChain q.table chain segments
      free := q.free.drop count
      ring := fun slot => if slot = q.availIdx % q.size then head else q.ring slot
      availIdx := (q.availIdx + 1) % 2 ^ 16 })

/-- The loop of `free_chain`, with the indices met so far, the last first. -/
def walk (q : Queue) : Nat → Nat → List Nat → Option (List Nat)
  | 0, _, _ => none
  | turns + 1, index, chain =>
    if index ≥ q.size then none
    else if index ∈ chain then none
    else if (q.table index).flags &&& NEXT = 0 then
      if q.available + (index :: chain).length > q.size then none else some (index :: chain)
    else walk q turns (q.table index).next (index :: chain)

/-- Returns a chain's descriptors to the free list, following `NEXT` links. -/
def freeChain (q : Queue) (head : Nat) : Except VirtioError Queue :=
  match q.walk q.size head [] with
  | none => .error .device
  | some chain => .ok { q with free := chain ++ q.free }

/-- Reclaims one completed chain, if the device has returned anything new. -/
def pop (q : Queue) (device : UsedRing) : Except VirtioError (Option Used) × Queue :=
  if device.idx = q.usedSeen then (.ok none, q)
  else
    let (id, len) := device.entries (q.usedSeen % q.size)
    let head := id % 2 ^ 16
    match q.freeChain head with
    | .error e => (.error e, q)
    | .ok q => (.ok (some ⟨head, len⟩), { q with usedSeen := (q.usedSeen + 1) % 2 ^ 16 })

end Queue

-- == the history

/-- A queue and the chains that were pushed and not returned by `pop`. -/
structure Driver where
  queue : Queue
  out : List (List Nat)

/-- A call of the driver. A pop meets whatever the device has written. -/
inductive Op where
  | push (segments : List Segment)
  | pop (device : UsedRing)

namespace Driver

def pushed (d : Driver) (segments : List Segment) : Except VirtioError Nat × Queue → Driver
  | (.ok _, q) => ⟨q, d.queue.free.take segments.length :: d.out⟩
  | (.error _, q) => ⟨q, d.out⟩

def popped (d : Driver) : Except VirtioError (Option Used) × Queue → Driver
  | (.ok (some used), q) => ⟨q, d.out.eraseP fun c => c.head? = some used.head⟩
  | (_, q) => ⟨q, d.out⟩

def step (d : Driver) : Op → Option Driver
  | .push segments => (d.queue.push segments).map (d.pushed segments)
  | .pop device => some (d.popped (d.queue.pop device))

def run (d : Driver) : List Op → Option Driver
  | [] => some d
  | op :: ops => (d.step op).bind fun d => d.run ops

end Driver

end Molt.Virtio
