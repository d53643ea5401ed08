/-
The device under a volume, and block I/O on it (`volume.rs`, and the
`Fault` device of the block crate).

# Sectors

A sector is bytes, or a superblock, or the `i`-th sector of the block a
node encodes to. The last two are the same bytes said shorter: `load`
recognises a block whose eight sectors are one node's, and is
`Node::parse` on the bytes whatever the block holds (`load_eq_parse`), and
`loadSuper` is `Super::parse` likewise (`loadSuper_eq_parse`).

# The environment

Every primitive that can be refused, an allocation as much as a device
request, asks `gate`, which consults an oracle by the number of requests
made so far. A refused request has no effect. A device that loses power
is an oracle that refuses everything from some request on. The oracle is
arbitrary, so a theorem for every environment covers every pattern of
`FsError::Memory` and device errors. The loops of the source that have no
bound of their own take `fuel` rounds at most; a run that ends out of
fuel stands for a loop still going.

The volume's slots, read-ahead and scratch buffer are not modelled: a
block read here is a read of the device, which is what the slots return
as long as every write drops the slots it covers.
-/
import Molt.Fs.Node
import Molt.Fs.Log
import Molt.Lib.Disk
import Molt.Lib.Sieve
import Molt.Lib.Wp

namespace Molt.Fs

open Lib

-- == sectors

inductive Sector where
  | raw (m : Image)
  | super (sb : Super)
  | node (n : Node) (i : Nat)

/-- Byte `j` of a sector. -/
def Sector.byte : Sector → Nat → UInt8
  | .raw m, j => m j
  | .super sb, j => sb.encode j
  | .node n i, j => n.encode (i * SECTOR + j)

/-- Whether the sector is the `i`-th of node `n`'s block. -/
def Sector.isNode (n : Node) (i : Nat) : Sector → Bool
  | .raw _ => false
  | .super _ => false
  | .node m j => j == i && decide (m = n)

/-- A block, by its eight sectors. -/
abbrev Block := Nat → Sector

namespace Block

/-- Byte `j` of a block. -/
def byte (b : Block) : Image := fun j => (b (j / SECTOR)).byte (j % SECTOR)

/-- The well-formed node all eight sectors belong to, if there is one. -/
def whole (b : Block) : Option Node :=
  match b 0 with
  | .node n _ =>
    if n.wf && (List.range SECTORS).all (fun i => (b i).isNode n i) then some n
    else none
  | _ => none

def load (b : Block) : Except FsError Node :=
  match b.whole with
  | some n => .ok n
  | none => Node.parse b.byte

def refused (b : Block) : Option FsError :=
  match b.whole with
  | some _ => none
  | none => Node.refused b.byte

theorem load_of_refused {b : Block} {e : FsError} (h : b.refused = some e) :
    b.load = .error e := by
  unfold refused at h
  unfold load
  split at h
  · cases h
  · exact Node.parse_of_refused h

/-- The superblock a block holds. -/
def loadSuper (b : Block) : Except FsError Super :=
  match b 0 with
  | .super sb =>
    if sb.Fits ∧ sb.check = .ok () then .ok sb else Super.parse b.byte
  | _ => Super.parse b.byte

theorem isNode_iff {n : Node} {i : Nat} {s : Sector} : s.isNode n i = true ↔ s = .node n i := by
  cases s with
  | raw | super => simp [Sector.isNode]
  | node m j => simp [Sector.isNode, and_comm]

theorem byte_of_nodes {b : Block} {n : Node}
    (h : ∀ i < 8, b i = .node n i) {j : Nat} (hj : j < 4096) :
    b.byte j = n.encode j := by
  have hi : j / 512 < 8 := by omega
  show (b (j / 512)).byte (j % 512) = _
  rw [h _ hi]
  show n.encode (j / 512 * 512 + j % 512) = _
  rw [Nat.div_add_mod']

theorem load_eq_parse (b : Block) : b.load = Node.parse b.byte := by
  unfold load
  split
  case h_2 => rfl
  case h_1 n hn =>
    unfold whole at hn
    split at hn
    case h_2 => cases hn
    case h_1 =>
      split at hn
      case isFalse => cases hn
      case isTrue hc =>
        cases hn
        simp only [Bool.and_eq_true, List.all_eq_true, List.mem_range] at hc
        have hb : ∀ i < 8, b i = .node n i := fun i hi =>
          isNode_iff.mp (hc.2 i hi)
        rw [Node.parse_congr fun j hj => byte_of_nodes hb hj,
          Node.parse_encode ((Node.wf_iff n).mp hc.1)]

theorem load_of_nodes {b : Block} {n : Node} (hn : n.WF)
    (h : ∀ i < 8, b i = .node n i) : b.load = .ok n := by
  rw [load_eq_parse, Node.parse_congr fun j hj => byte_of_nodes h hj, Node.parse_encode hn]

theorem loadSuper_eq_parse (b : Block) : b.loadSuper = Super.parse b.byte := by
  unfold loadSuper
  split
  case h_2 => rfl
  case h_1 sb hsb =>
    split
    case isFalse => rfl
    case isTrue hc =>
      have hbyte : ∀ j < 220, b.byte j = sb.encode j := fun j hj => by
        show (b (j / 512)).byte (j % 512) = _
        rw [Nat.div_eq_of_lt (by omega), Nat.mod_eq_of_lt (by omega), hsb]
        rfl
      rw [Super.parse_congr hbyte, Super.parse_encode hc.1, hc.2]

theorem wf_of_load {b : Block} {n : Node} (h : b.load = .ok n) : n.WF := by
  rw [load_eq_parse] at h
  exact Node.wf_of_parse h

end Block

-- == the environment

/-- What the world answers: which requests it refuses, how many were
made, and how long a loop may run. -/
structure Env where
  refuse : Nat → Option FsError
  clock : Nat
  fuel : Nat

/-- A mounted volume. -/
structure Volume where
  disk : Disk Sector
  sectors : Nat
  superblock : Super
  activeCopy : Nat
  previousLog : Option Nat
  previousTree : Option Nat

abbrev CACHE_SLOTS : Nat := 16

/-- What tree code works on: the volume, the parsed nodes, the world. -/
structure Store where
  volume : Volume
  cache : Sieve Nat Node
  env : Env

abbrev TreeM (α : Type) := Prog Store FsError α

/-- The store one request later. -/
def Store.tick (s : Store) : Store := { s with env := { s.env with clock := s.env.clock + 1 } }

/-- One request to the world, granted or refused. -/
def gate : TreeM Unit := fun s =>
  match s.env.refuse s.env.clock with
  | some e => .error (.error e) s.tick
  | none => .ok () s.tick

-- == block I/O

namespace Volume

/-- The sectors of block `index`. -/
def blockAt (v : Volume) (index : Nat) : Block := fun i =>
  v.disk.read (index * SECTORS + i)

end Volume

/-- Reads a block without keeping it. -/
def raw (index : Nat) : TreeM Block := do
  let s ← get
  ensure (index * SECTORS < 2 ^ 64) .corrupt
  ensure (index * SECTORS + SECTORS ≤ s.volume.sectors) (.device .range)
  gate
  pure (s.volume.blockAt index)

def block (index : Nat) : TreeM Block := do
  let s ← get
  ensure (index < s.volume.superblock.blocks) .corrupt
  raw index

/-- Writes consecutive sectors. -/
def writeSectors (start : Nat) (data : List Sector) : TreeM Unit := do
  let s ← get
  ensure (start + data.length ≤ s.volume.sectors) (.device .range)
  gate
  modify fun s =>
    { s with volume := { s.volume with disk := s.volume.disk.write ⟨start, data⟩ } }

/-- Writes one sector at byte `offset` past the start of `block`. -/
def writeAligned (block offset : Nat) (m : Image) : TreeM Unit := do
  ensure (offset % SECTOR = 0) .corrupt
  ensure (block * SECTORS + offset / SECTOR < 2 ^ 64) .corrupt
  writeSectors (block * SECTORS + offset / SECTOR) [.raw m]

/-- Writes a node to a block of the tree arena. -/
def writeTreeBlock (addr : Nat) (n : Node) : TreeM Unit := do
  let s ← get
  let sb := s.volume.superblock
  let fin ← okOr (checkedAdd sb.treeAt sb.treeBlocks) .corrupt
  ensure (sb.treeAt ≤ addr ∧ addr < fin) .corrupt
  ensure (addr * SECTORS < 2 ^ 64) .corrupt
  writeSectors (addr * SECTORS) ((List.range SECTORS).map (Sector.node n))

/-- Writes superblock copy `copy`. -/
def writeCheckpoint (copy : Nat) (value : Super) : TreeM Unit := do
  ensure (copy < SUPERS) .corrupt
  writeSectors (copy * SECTORS) [.super value]

/-- Makes every earlier write stable. -/
def flush : TreeM Unit := do
  gate
  modify fun s => { s with volume := { s.volume with disk := s.volume.disk.flush } }

/-- Takes a published checkpoint as the mounted one. -/
def commit (copy : Nat) (checkpoint : Super) : TreeM Unit :=
  modify fun s =>
    { s with volume := { s.volume with
        previousLog := some s.volume.superblock.log.addr
        previousTree :=
          if s.volume.superblock.treeRoot = 0 then none
          else some s.volume.superblock.treeRoot
        superblock := checkpoint
        activeCopy := copy } }

/-- The walk of `logChecksum`: parse a header, hash it, step over its
record. -/
def logChecksumFrom (region : Region) (present : Bool) : Nat → Crc → Nat → TreeM Nat
  | 0, _, _ => spent
  | fuel + 1, crc, cursor =>
    if cursor < region.bytes then do
      ensure (cursor % BLOCK + LOG_HEADER ≤ BLOCK) .corrupt
      let b ← block (region.addr + cursor / BLOCK)
      let header := slice b.byte (cursor % BLOCK) LOG_HEADER
      let record ← lift (Record.parse header)
      let next ← okOr (checkedAdd cursor record.span) .corrupt
      logChecksumFrom region present fuel (crc.update header present) next
    else do
      ensure (cursor = region.bytes) .corrupt
      pure crc.finish

/-- Hashes only the headers of a payload-log region. -/
def logChecksum (region : Region) (present : Bool := false) : TreeM Nat := do
  let s ← get
  logChecksumFrom region present s.env.fuel Crc.new 0

end Molt.Fs
