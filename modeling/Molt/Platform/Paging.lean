/-
The views of the one address space and their translation tables
(`sys/arch/src/view.rs`, `platform/riscv/src/paging.rs`,
`platform/x86_64/src/memory.rs`).

# The two ports

Both ports walk tables of 512 words and do the same at each level; what they
differ in is how a word is read and written. A `Port` is that difference: the
depth of the tables, the reading of a word and the words the code builds, with
the laws the walks rest on. The two ports themselves are in `Ports.lean`.

# Memory

The tables are a memory of words, by the address of a frame and an index. A
frame is taken from the pool, which hands each out once, and no frame goes
back. An operation that is refused leaves behind what it wrote until then.

# The history

`World` is the tables and what has been granted: the newest grant of each
extent into each view, until it is revoked from there. Only operations that
succeed are steps.
-/
import Molt.Lib.Slots

namespace Molt.Platform.Paging

open Molt.Lib

-- == extents

def FRAME_SIZE : Nat := 4096

def VIEWS : Nat := 8

/-- Entries of a table. -/
def FANOUT : Nat := 512

/-- The bytes an entry of a level covers. -/
def granule (level : Nat) : Nat := 2 ^ (12 + 9 * level)

inductive Class where
  | page
  | mega
  | giga
  deriving DecidableEq

namespace Class

def level : Class → Nat
  | .page => 0
  | .mega => 1
  | .giga => 2

def smaller : Class → Option Class
  | .page => none
  | .mega => some .page
  | .giga => some .mega

def ofLevel : Nat → Option Class
  | 0 => some .page
  | 1 => some .mega
  | 2 => some .giga
  | _ => none

end Class

structure Extent where
  start : Nat
  leaves : Nat
  cls : Class
  aligned : start % granule cls.level = 0
  nonempty : 0 < leaves
  deriving DecidableEq

namespace Extent

def bytes (e : Extent) : Nat := e.leaves * granule e.cls.level
def stop (e : Extent) : Nat := e.start + e.bytes

def leaf (e : Extent) (k : Nat) : Nat := e.start + k * granule e.cls.level

end Extent

/-- Access to memory. Neither port has any that cannot be read. -/
structure Rights where
  write : Bool
  execute : Bool
  exclusive : ¬ (write = true ∧ execute = true)
  deriving DecidableEq

/-- A range of physical memory, in whole frames. -/
structure Span where
  start : Nat
  stop : Nat
  deriving DecidableEq

def Span.bytes (s : Span) : Nat := s.stop - s.start

inductive Error where
  | capacity
  | unknown
  | backing
  | absent
  | granule
  | outOfFrames
  | backend
  deriving DecidableEq

-- == ports

inductive Kind where
  | absent
  | table
  | leaf
  deriving DecidableEq

/-- The words of a port: how they are read, and those the code writes. -/
structure Port where
  /-- The level of a root. -/
  top : Nat
  /-- Physical addresses lie below. -/
  limit : Nat
  kind : Nat → Nat → Kind
  /-- The address in a word. -/
  base : Nat → Nat
  rights : Nat → Bool × Bool × Bool
  /-- The flags of a granted leaf. -/
  flags : Rights → Nat
  leafWord : Nat → Nat → Nat → Nat
  /-- The pointer to a table, on the way to a leaf with these flags. -/
  pointer : Nat → Nat → Nat
  /-- What is done to a pointer on the way to a leaf. -/
  widen : Nat → Nat → Nat
  /-- A piece of a leaf, at the level below. -/
  piece : Nat → Nat → Nat → Nat
  /-- The pointer that takes the place of a leaf. -/
  cover : Nat → Nat → Nat
  top_ge : 2 ≤ top
  kind_zero : ∀ level, kind level 0 = .absent
  pointer_table : ∀ {level f a : Nat}, 0 < level → a % FRAME_SIZE = 0 → a < limit →
    kind level (pointer f a) = .table ∧ base (pointer f a) = a
  widen_table : ∀ {level f w : Nat}, 0 < level → kind level w = .table →
    kind level (widen f w) = .table ∧ base (widen f w) = base w
  leaf_leaf : ∀ (level : Nat) {a : Nat} (r : Rights), a % FRAME_SIZE = 0 → a < limit →
    kind level (leafWord level a (flags r)) = .leaf
      ∧ base (leafWord level a (flags r)) = a
      ∧ rights (leafWord level a (flags r)) = (true, r.write, r.execute)
  piece_leaf : ∀ {level w k : Nat}, kind (level + 1) w = .leaf →
    (base w + k * granule level) % FRAME_SIZE = 0 → base w + k * granule level < limit →
    kind level (piece level w k) = .leaf
      ∧ base (piece level w k) = base w + k * granule level
      ∧ rights (piece level w k) = rights w
  cover_table : ∀ {level w a : Nat}, 0 < level → a % FRAME_SIZE = 0 → a < limit →
    kind level (cover w a) = .table ∧ base (cover w a) = a

def Port.width (p : Port) : Nat := granule (p.top + 1)

/-- Which entry of a table of this level covers an address. -/
def index (va level : Nat) : Nat := va / granule level % FANOUT

-- == tables

structure Tables where
  heap : Nat → Nat → Nat
  pool : List Nat
  roots : List (Option Nat)

namespace Tables

variable (p : Port) (s : Tables)

def root (view : Nat) : Option Nat := slotAt s.roots view

def write (table i w : Nat) : Tables :=
  { s with heap := Function.update s.heap table (Function.update (s.heap table) i w) }

def alloc (content : Nat → Nat) : Option (Nat × Tables) :=
  match s.pool with
  | [] => none
  | frame :: pool => some (frame, { s with heap := Function.update s.heap frame content, pool })

/-- Opens an empty view. -/
def openView : Except Error Nat × Tables :=
  match vacancy s.roots with
  | none => (.error .capacity, s)
  | some view =>
    match s.alloc fun _ => 0 with
    | none => (.error .outOfFrames, s)
    | some (frame, s) => (.ok view, { s with roots := s.roots.set view (some frame) })

/-- The loop of `map_leaf`: down to the table of `level` that covers `va`,
with the tables that are missing. -/
def reach (flags va level : Nat) : Nat → Tables → Nat → Except Error Nat × Tables
  | 0, s, table => (.ok table, s)
  | n + 1, s, table =>
    let above := level + n + 1
    let i := index va above
    match p.kind above (s.heap table i) with
    | .absent =>
      match s.alloc fun _ => 0 with
      | none => (.error .outOfFrames, s)
      | some (next, s) =>
        let entry := p.widen flags (p.pointer flags next)
        reach flags va level n (s.write table i entry) (p.base entry)
    | .leaf => (.error .backend, s)
    | .table =>
      let entry := p.widen flags (s.heap table i)
      reach flags va level n (s.write table i entry) (p.base entry)

def mapLeaf (root va pa flags level : Nat) : Except Error Unit × Tables :=
  match reach p flags va level (p.top - level) s root with
  | (.error e, s) => (.error e, s)
  | (.ok table, s) => (.ok (), s.write table (index va level) (p.leafWord level pa flags))

/-- The leaves of an extent one by one, until one is refused. -/
def each (one : Nat → Tables → Except Error Unit × Tables) :
    List Nat → Tables → Except Error Unit × Tables
  | [], s => (.ok (), s)
  | k :: ks, s =>
    match one k s with
    | (.error err, s) => (.error err, s)
    | (.ok (), s) => each one ks s

/-- The body of the loop of `grant`. -/
def mapOne (root : Nat) (e : Extent) (start flags k : Nat) (s : Tables) :
    Except Error Unit × Tables :=
  mapLeaf p s root (e.leaf k) (start + k * granule e.cls.level) flags e.cls.level

/-- `view::backing`: whether the span can stand behind the extent. -/
def Backs (e : Extent) (span : Span) : Prop :=
  ¬ (span.bytes < e.bytes ∨ span.start % granule e.cls.level ≠ 0
    ∨ e.start % granule e.cls.level ≠ 0)

instance (e : Extent) (span : Span) : Decidable (Backs e span) := inferInstanceAs (Decidable (¬ _))

def grant (view : Nat) (e : Extent) (span : Span) (rights : Rights) : Except Error Unit × Tables :=
  if ¬ Backs e span then (.error .backing, s)
  else
    match s.root view with
    | none => (.error .unknown, s)
    | some root => each (mapOne p root e span.start (p.flags rights)) (List.range e.leaves) s

/-- Down to the table of `level` that covers `va`, through pointers only. -/
def tableAt (va level : Nat) : Nat → Nat → Option Nat
  | 0, table => some table
  | n + 1, table =>
    let entry := s.heap table (index va (level + n + 1))
    match p.kind (level + n + 1) entry with
    | .table => tableAt va level n (p.base entry)
    | _ => none

/-- Clears the leaf of this level that covers `va`. -/
def unmapLeaf (root va level : Nat) : Except Error Unit × Tables :=
  match tableAt p s va level (p.top - level) root with
  | none => (.error .absent, s)
  | some table =>
    if p.kind level (s.heap table (index va level)) = .absent then (.error .absent, s)
    else (.ok (), s.write table (index va level) 0)

/-- The body of the loop of `revoke`. -/
def unmapOne (root : Nat) (e : Extent) (k : Nat) (s : Tables) : Except Error Unit × Tables :=
  unmapLeaf p s root (e.leaf k) e.cls.level

/-- Clears an extent out of a view, and says how many leaves went. -/
def revoke (view : Nat) (e : Extent) : Except Error Nat × Tables :=
  match s.root view with
  | none => (.error .unknown, s)
  | some root =>
    match each (unmapOne p root e) (List.range e.leaves) s with
    | (.error err, s) => (.error err, s)
    | (.ok (), s) => (.ok e.leaves, s)

/-- The loop of `split_leaf`. -/
def cut (va : Nat) : Nat → Nat → Except Error Class × Tables
  | level, table =>
    let entry := s.heap table (index va level)
    match p.kind level entry with
    | .absent => (.error .absent, s)
    | .table =>
      match level with
      | 0 => (.error .absent, s)
      | level + 1 => cut va level (p.base entry)
    | .leaf =>
      match (Class.ofLevel level).bind Class.smaller with
      | none => (.error .granule, s)
      | some child =>
        match s.alloc fun k => p.piece child.level entry k with
        | none => (.error .outOfFrames, s)
        | some (next, s) => (.ok child, s.write table (index va level) (p.cover entry next))

def splitLeaf (view va : Nat) : Except Error Class × Tables :=
  match s.root view with
  | none => (.error .unknown, s)
  | some root => cut p s va p.top root

/-- The word that translates an address, and its level. -/
def descend (va : Nat) : Nat → Nat → Option (Nat × Nat)
  | level, table =>
    let entry := s.heap table (index va level)
    match p.kind level entry with
    | .absent => none
    | .leaf => some (entry, level)
    | .table =>
      match level with
      | 0 => none
      | level + 1 => descend va level (p.base entry)

end Tables

structure Leaf where
  start : Nat
  size : Nat
  base : Nat
  rights : Bool × Bool × Bool
  deriving DecidableEq

/-- The leaf a word of this level is, cut back to the level's size. -/
def Leaf.ofWord (p : Port) (level va w : Nat) : Leaf :=
  ⟨va / granule level * granule level, granule level,
    p.base w / granule level * granule level, p.rights w⟩

/-- What a view translates an address through. -/
def Tables.resident (p : Port) (s : Tables) (view va : Nat) : Option Leaf :=
  (s.root view).bind fun root =>
    (s.descend p va p.top root).map fun (w, level) => Leaf.ofWord p level va w

/-- Where an address leads, and with which rights. -/
def Tables.translate (p : Port) (s : Tables) (view va : Nat) : Option (Nat × Bool × Bool × Bool) :=
  (s.resident p view va).map fun leaf => (leaf.base + (va - leaf.start), leaf.rights)

-- == history

/-- A grant that has not been revoked. -/
structure Grant where
  view : Nat
  extent : Extent
  span : Span
  rights : Rights
  deriving DecidableEq

def Grant.target (g : Grant) (va : Nat) : Nat × Bool × Bool × Bool :=
  (g.span.start + (va - g.extent.start), true, g.rights.write, g.rights.execute)

structure World where
  tables : Tables
  granted : List Grant

inductive Op where
  | openView
  | grant (g : Grant)
  | revoke (view : Nat) (e : Extent)
  | splitLeaf (view va : Nat)

namespace World

def without (w : World) (view : Nat) (e : Extent) : List Grant :=
  w.granted.filter fun g => ¬ (g.view = view ∧ g.extent = e)

/-- An operation that succeeds. -/
def step (p : Port) (w : World) : Op → Option World
  | .openView =>
    match w.tables.openView with
    | (.ok _, tables) => some { w with tables }
    | (.error _, _) => none
  | .grant g =>
    match w.tables.grant p g.view g.extent g.span g.rights with
    | (.ok (), tables) => some ⟨tables, g :: w.without g.view g.extent⟩
    | (.error _, _) => none
  | .revoke view e =>
    match w.tables.revoke p view e with
    | (.ok _, tables) => some ⟨tables, w.without view e⟩
    | (.error _, _) => none
  | .splitLeaf view va =>
    match w.tables.splitLeaf p view va with
    | (.ok _, tables) => some { w with tables }
    | (.error _, _) => none

end World

/-- Before any view is open. The memory may hold anything. -/
def Tables.boot (heap : Nat → Nat → Nat) (pool : List Nat) : Tables :=
  ⟨heap, pool, List.replicate VIEWS none⟩

end Molt.Platform.Paging
