/-
The cache of file windows, and where the extents given to it are
(`sys/arch/src/cache.rs`).

`windows` is the part of the slots that is in use. Kept beside the code are
the holds and releases of each window that succeeded, and what was given to
`insert`, what `evict` handed back and what `insert` refused: it takes the
extent by value and answers with an error alone, so that extent is dropped.
-/
import Molt.Arch.Memory

namespace Molt.Arch.Cache

inductive Error where
  | storage
  | misaligned
  | backing
  | present
  | unknown
  | held
  | unreferenced
  | saturated
  deriving DecidableEq

inductive Class where
  | page
  | mega
  | giga
  deriving DecidableEq

def Class.granule : Class → Nat
  | .page => FRAME_SIZE
  | .mega => FRAME_SIZE * 2 ^ 9
  | .giga => FRAME_SIZE * 2 ^ 18

structure Extent where
  region : Lib.Span
  leaf : Class
  deriving DecidableEq

/-- What `insert` is given. -/
structure Deposit where
  file : Nat
  offset : Nat
  extent : Extent
  frames : Span
  deriving DecidableEq

def Deposit.key (d : Deposit) : Nat × Nat := (d.file, d.offset)

structure Window extends Deposit where
  holders : Nat
  holds : Nat
  releases : Nat
  deriving DecidableEq

structure Windows where
  slots : Nat
  windows : List Window
  given : List Deposit
  back : List Deposit
  dropped : List Deposit

inductive Call where
  | insert (deposit : Deposit)
  | hold (key : Nat × Nat)
  | lookup (key : Nat × Nat)
  | release (key : Nat × Nat)
  | evict (key : Nat × Nat)

def Call.key : Call → Nat × Nat
  | .insert deposit => deposit.key
  | .hold key | .lookup key | .release key | .evict key => key

namespace Windows

/-- `over`. -/
def overSlots (slots : Nat) : Windows := ⟨slots, [], [], [], []⟩

/-- Where the window is, and the window. -/
def find (c : Windows) (key : Nat × Nat) : Option (Nat × Window) :=
  (c.windows.findIdx? fun w => w.key = key).bind fun i => c.windows[i]?.map fun w => (i, w)

/-- Why `insert` refuses. -/
def refusal (c : Windows) (d : Deposit) : Option Error :=
  if d.offset % d.extent.leaf.granule ≠ 0 then some .misaligned
  else if d.frames.bytes < d.extent.region.bytes ∨ d.frames.start % d.extent.leaf.granule ≠ 0 then
    some .backing
  else if (c.find d.key).isSome then some .present
  else if c.windows.length = c.slots then some .storage
  else none

def insert (c : Windows) (d : Deposit) : Except Error Window × Windows :=
  let c' := { c with given := c.given ++ [d] }
  match c.refusal d with
  | some e => (.error e, { c' with dropped := c.dropped ++ [d] })
  | none => (.ok ⟨d, 1, 0, 0⟩, { c' with windows := c.windows ++ [⟨d, 1, 0, 0⟩] })

def hold (c : Windows) (key : Nat × Nat) : Except Error Window × Windows :=
  match c.find key with
  | none => (.error .unknown, c)
  | some (i, w) =>
    if w.holders + 1 < 2 ^ 32 then
      let w := { w with holders := w.holders + 1, holds := w.holds + 1 }
      (.ok w, { c with windows := c.windows.set i w })
    else (.error .saturated, c)

def lookup (c : Windows) (key : Nat × Nat) : Option Window := (c.find key).map Prod.snd

def release (c : Windows) (key : Nat × Nat) : Except Error Nat × Windows :=
  match c.find key with
  | none => (.error .unknown, c)
  | some (i, w) =>
    if w.holders = 0 then (.error .unreferenced, c)
    else
      let w := { w with holders := w.holders - 1, releases := w.releases + 1 }
      (.ok w.holders, { c with windows := c.windows.set i w })

def swapRemove (windows : List Window) (i : Nat) : List Window :=
  match windows.getLast? with
  | none => windows
  | some last => (windows.set i last).dropLast

def evict (c : Windows) (key : Nat × Nat) : Except Error (Extent × Span) × Windows :=
  match c.find key with
  | none => (.error .unknown, c)
  | some (i, w) =>
    if w.holders ≠ 0 then (.error .held, c)
    else (.ok (w.extent, w.frames), { c with
      windows := swapRemove c.windows i, back := c.back ++ [w.toDeposit] })

def step (c : Windows) : Call → Windows
  | .insert deposit => (c.insert deposit).2
  | .hold key => (c.hold key).2
  | .lookup _ => c
  | .release key => (c.release key).2
  | .evict key => (c.evict key).2

def run (c : Windows) (calls : List Call) : Windows := calls.foldl step c

/-- The extents in the cache, with what they are for. -/
def cached (c : Windows) : List Deposit := c.windows.map Window.toDeposit

end Windows

end Molt.Arch.Cache
