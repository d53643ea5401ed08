/-
Deadlines in a hierarchical wheel (`sys/rt/src/timer.rs`).

# The wheel

Four levels of sixty-four buckets. A timer is filed by how far off it is,
and a level hands what it holds to the ones below when they wrap. Timers
live in a slab and are linked through it by index; indices and links are
`u32`s, ticks are `u64`s, and both wrap where the source's do.

# Loops along a chain

A loop that follows `next` is given as many turns as the slab has slots. The
chains are shown to be shorter, so a loop always comes to the end of its
chain.

# The sleepers

`Sleeps` is the wheel with the `Sleep`s that are alive: one is made by
`until`, polled, and dropped once. A `Sleep` here remembers the tick it was
armed at and the deadline asked for, which nothing reads.

# The clock

`Timers` is the sleeps with the machine's clock, which goes on by itself and
which the wheel only trails: `after` counts from the clock, and `advance`
walks the wheel to it.
-/
import Mathlib

namespace Molt.Rt

def BITS : Nat := 6

def SLOTS : Nat := 2 ^ BITS

def LEVELS : Nat := 4

def BUCKETS : Nat := SLOTS * LEVELS

/-- No slot: an empty bucket, the end of a chain, a timer in neither. -/
def NONE : Nat := 2 ^ 32 - 1

/-- How far ahead a deadline is kept exactly. -/
def HORIZON : Nat := 2 ^ (BITS * LEVELS)

/-- A deadline, linked into a bucket or into the free chain. -/
structure Node (ω : Type) where
  deadline : Nat
  waker : Option ω
  prev : Nat
  next : Nat
  bucket : Nat
  deriving DecidableEq

namespace Node

variable {ω : Type}

def fresh (deadline : Nat) : Node ω := ⟨deadline, none, NONE, NONE, NONE⟩

def fired (n : Node ω) : Bool := n.bucket == NONE

end Node

structure Wheel (ω : Type) where
  now : Nat
  nodes : List (Node ω)
  free : Nat
  heads : List Nat
  deriving DecidableEq

namespace Wheel

variable {ω : Type}

def new : Wheel ω := ⟨0, [], NONE, List.replicate BUCKETS NONE⟩

/-- `self.nodes[slot]`. -/
def node (w : Wheel ω) (slot : Nat) : Node ω := w.nodes.getD slot (.fresh 0)

/-- An assignment to fields of `self.nodes[slot]`. -/
def edit (w : Wheel ω) (slot : Nat) (f : Node ω → Node ω) : Wheel ω :=
  { w with nodes := w.nodes.modify slot f }

/-- `self.heads[bucket]`. -/
def head (w : Wheel ω) (bucket : Nat) : Nat := w.heads.getD bucket NONE

def link (w : Wheel ω) (slot bucket : Nat) : Wheel ω :=
  let head := w.head bucket
  let w := w.edit slot fun n => { n with bucket, prev := NONE, next := head }
  let w := if head ≠ NONE then w.edit head fun n => { n with prev := slot } else w
  { w with heads := w.heads.set bucket slot }

/-- Clears one node's links, reporting what followed it. -/
def cut (w : Wheel ω) (slot : Nat) : Nat × Wheel ω :=
  ((w.node slot).next, w.edit slot fun n => { n with bucket := NONE, prev := NONE, next := NONE })

def unlink (w : Wheel ω) (slot : Nat) : Wheel ω :=
  let node := w.node slot
  let w := if node.prev = NONE then { w with heads := w.heads.set node.bucket node.next }
    else w.edit node.prev fun n => { n with next := node.next }
  let w := if node.next ≠ NONE then w.edit node.next fun n => { n with prev := node.prev } else w
  (w.cut slot).2

def levelOf (delta : Nat) : Nat :=
  ((List.range LEVELS).find? fun level => delta < 2 ^ (BITS * (level + 1))).getD (LEVELS - 1)

/-- The bucket of a level that covers a tick. -/
def bucketAt (level tick : Nat) : Nat := level * SLOTS + tick / 2 ^ (BITS * level) % SLOTS

/-- Files a timer by how far off it is: the coarser the wheel, the further. -/
def place (w : Wheel ω) (slot : Nat) : Wheel ω :=
  let deadline := (w.node slot).deadline
  w.link slot (bucketAt (levelOf (deadline - w.now)) deadline)

/-- A slot off the free chain, or a fresh one when it is empty. -/
def take (w : Wheel ω) (deadline : Nat) : Nat × Wheel ω :=
  if w.free = NONE then
    (w.nodes.length % 2 ^ 32, { w with nodes := w.nodes ++ [.fresh deadline] })
  else
    (w.free, { w with
      free := (w.node w.free).next, nodes := w.nodes.set w.free (.fresh deadline) })

/-- The last tick that is kept exactly, as `u64` arithmetic has it. -/
def lastTick (w : Wheel ω) : Nat := (w.now + HORIZON - 1) % 2 ^ 64

def arm (w : Wheel ω) (deadline : Nat) : Nat × Wheel ω :=
  let deadline := min deadline w.lastTick
  let (slot, w) := w.take deadline
  (slot, if deadline > w.now then w.place slot else w)

/-- Gives a slot back, whether it fired or was cancelled. -/
def release (w : Wheel ω) (slot : Nat) : Wheel ω :=
  let w := if (w.node slot).fired then w else w.unlink slot
  { w.edit slot fun n => { n with waker := none, next := w.free } with free := slot }

/-- `while slot != NONE`: each timer of a chain is filed again. -/
def refile : Nat → Nat → Wheel ω → Wheel ω
  | 0, _, w => w
  | turns + 1, slot, w =>
    if slot = NONE then w
    else
      let (next, w) := w.cut slot
      refile turns next (w.place slot)

/-- `mem::replace(&mut self.heads[bucket], NONE)`. -/
def empty (w : Wheel ω) (bucket : Nat) : Nat × Wheel ω :=
  (w.head bucket, { w with heads := w.heads.set bucket NONE })

/-- A wrapped level owes the one below it whatever it was holding. -/
def cascade : List Nat → Wheel ω → Wheel ω
  | [], w => w
  | level :: levels, w =>
    if w.now / 2 ^ (BITS * (level - 1)) % SLOTS ≠ 0 then w
    else
      let (slot, w) := w.empty (bucketAt level w.now)
      cascade levels (refile w.nodes.length slot w)

/-- `while slot != NONE`: each timer of a chain fires. -/
def fire : Nat → Nat → Wheel ω → List ω → Wheel ω × List ω
  | 0, _, w, expired => (w, expired)
  | turns + 1, slot, w, expired =>
    if slot = NONE then (w, expired)
    else
      let (next, w) := w.cut slot
      let waker := (w.node slot).waker
      fire turns next (w.edit slot fun n => { n with waker := none }) (expired ++ waker.toList)

/-- Empties a bucket, taking the wakers of everything that was in it. -/
def expire (w : Wheel ω) (bucket : Nat) (expired : List ω) : Wheel ω × List ω :=
  let (slot, w) := w.empty bucket
  fire w.nodes.length slot w expired

def step (w : Wheel ω) (expired : List ω) : Wheel ω × List ω :=
  let w := cascade [1, 2, 3] { w with now := w.now + 1 }
  w.expire (w.now % SLOTS) expired

/-- The buckets are emptied one after another. -/
def flush : List Nat → Wheel ω → List ω → Wheel ω × List ω
  | [], w, expired => (w, expired)
  | bucket :: buckets, w, expired =>
    let (w, expired) := w.expire bucket expired
    flush buckets w expired

/-- `while self.now < ticks`, so many steps. -/
def walk : Nat → Wheel ω → List ω → Wheel ω × List ω
  | 0, w, expired => (w, expired)
  | steps + 1, w, expired =>
    let (w, expired) := w.step expired
    walk steps w expired

def upto (w : Wheel ω) (ticks : Nat) (expired : List ω) : Wheel ω × List ω :=
  if ticks - w.now ≥ HORIZON then
    let (w, expired) := flush (List.range BUCKETS) w expired
    ({ w with now := ticks }, expired)
  else walk (ticks - w.now) w expired

end Wheel

-- == the sleepers

structure Sleep where
  slot : Nat
  armed : Nat
  deadline : Nat
  deriving DecidableEq

structure Sleeps (ω : Type) where
  wheel : Wheel ω
  held : List Sleep
  deriving DecidableEq

/-- What a core does with its timers. A sleep is named by its place among
those alive. -/
inductive Call (ω : Type) where
  | sleepUntil (deadline : Nat)
  | poll (k : Nat) (waker : ω)
  | drop (k : Nat)
  | advance (ticks : Nat)

namespace Sleeps

variable {ω : Type}

def new : Sleeps ω := ⟨.new, []⟩

def sleepUntil (s : Sleeps ω) (deadline : Nat) : Sleeps ω :=
  let (slot, wheel) := s.wheel.arm deadline
  ⟨wheel, s.held ++ [⟨slot, s.wheel.now, deadline⟩]⟩

def poll (s : Sleeps ω) (k : Nat) (waker : ω) : Sleeps ω :=
  match s.held[k]? with
  | none => s
  | some sleep =>
    if (s.wheel.node sleep.slot).fired then s
    else { s with wheel := s.wheel.edit sleep.slot fun n => { n with waker := some waker } }

def drop (s : Sleeps ω) (k : Nat) : Sleeps ω :=
  match s.held[k]? with
  | none => s
  | some sleep => ⟨s.wheel.release sleep.slot, s.held.eraseIdx k⟩

/-- The wakers `advance` wakes. -/
def expired (s : Sleeps ω) (ticks : Nat) : List ω := (s.wheel.upto ticks []).2

def advance (s : Sleeps ω) (ticks : Nat) : Sleeps ω :=
  { s with wheel := (s.wheel.upto ticks []).1 }

def call (s : Sleeps ω) : Call ω → Sleeps ω
  | .sleepUntil deadline => s.sleepUntil deadline
  | .poll k waker => s.poll k waker
  | .drop k => s.drop k
  | .advance ticks => s.advance ticks

def run (s : Sleeps ω) (calls : List (Call ω)) : Sleeps ω := calls.foldl call s

end Sleeps

-- == the clock

/-- One core's deadlines and the machine's clock. -/
structure Timers (ω : Type) where
  sleeps : Sleeps ω
  clock : Nat
  deriving DecidableEq

inductive Turn (ω : Type) where
  | tick (ticks : Nat)
  | after (delay : Nat)
  | sleepUntil (deadline : Nat)
  | poll (k : Nat) (waker : ω)
  | drop (k : Nat)
  | advance

namespace Timers

variable {ω : Type}

def new : Timers ω := ⟨.new, 0⟩

/-- Sleeps `delay` ticks from now; the sum saturates, what is remembered of
it does not. -/
def after (t : Timers ω) (delay : Nat) : Timers ω :=
  let (slot, wheel) := t.sleeps.wheel.arm (min (t.clock + delay) (2 ^ 64 - 1))
  { t with sleeps := ⟨wheel, t.sleeps.held ++ [⟨slot, t.sleeps.wheel.now, t.clock + delay⟩]⟩ }

def turn (t : Timers ω) : Turn ω → Timers ω
  | .tick ticks => { t with clock := t.clock + ticks }
  | .after delay => t.after delay
  | .sleepUntil deadline => { t with sleeps := t.sleeps.sleepUntil deadline }
  | .poll k waker => { t with sleeps := t.sleeps.poll k waker }
  | .drop k => { t with sleeps := t.sleeps.drop k }
  | .advance => { t with sleeps := t.sleeps.advance t.clock }

def run (t : Timers ω) (turns : List (Turn ω)) : Timers ω := turns.foldl turn t

end Timers

end Molt.Rt
