/-
Building an image (`format.rs`, and `format` in `btree.rs`).

A directory tree is laid out depth first, children in name order: every
object gets the next id, every run of nonzero blocks of a file one log
record and one extent. The pairs are then sorted and packed into nodes
bottom up, each node in the next block of the arena.

A child is visited in an order that only exists once its siblings are
sorted, so `layOut` first turns every child into the step that lays it
out, and sorts the steps.
-/
import Molt.Fs.Volume

namespace Molt.Fs

open Lib

-- == the source tree

/-- The contents of a file, no longer than a vector can be. -/
abbrev Bytes := { bytes : List UInt8 // bytes.length < 2 ^ 63 }

/-- One node of the tree an image is built from. -/
inductive Source where
  | file (bytes : Bytes)
  | dir (nodes : List (Name × Source))

abbrev SourceTree := List (Name × Source)

/-- An image being laid out. -/
structure Img where
  entries : List (Key × Value)
  log : List UInt8
  nextObject : Nat

abbrev ImgM (α : Type) := Prog Img FsError α

namespace Img

/-- Takes the next object id. -/
def reserve : ImgM Nat := do
  let img ← get
  ensure (img.nextObject + 1 < 2 ^ 32) .range
  set { img with nextObject := img.nextObject + 1 }
  pure img.nextObject

def push (key : Key) (value : Value) : ImgM Unit :=
  modify fun img => { img with entries := img.entries ++ [(key, value)] }

/-- Adds a record to the log, returning its cursor. -/
def append (record : Record) (payload : List UInt8) : ImgM Nat := do
  let img ← get
  set { img with log := img.log ++ record.lay payload }
  pure img.log.length

/-- Whether `[start, fin)` of a file is all zero. -/
def isHole (bytes : List UInt8) (start fin : Nat) : Bool :=
  ((bytes.drop start).take (fin - start)).all (· == 0)

/-- The end of the run of nonzero blocks that reaches `start`. -/
def runEnd (bytes : List UInt8) : Nat → Nat → Nat
  | 0, start => start
  | fuel + 1, start =>
    if start < bytes.length then
      let next := min (start + BLOCK) bytes.length
      if isHole bytes start next then start else runEnd bytes fuel next
    else start

/-- Lays out the runs of file `id` from `start` on. Every round moves
forward, so `fuel` past the length is enough. -/
def fileFrom (id : Nat) (bytes : List UInt8) : Nat → Nat → ImgM Unit
  | 0, _ => pure ()
  | fuel + 1, start =>
    if start < bytes.length then do
      let blockEnd := min (start + BLOCK) bytes.length
      if isHole bytes start blockEnd then fileFrom id bytes fuel blockEnd
      else do
        let fin := runEnd bytes bytes.length blockEnd
        let payload := (bytes.drop start).take (fin - start)
        let record ← lift (Record.write id start payload.length)
        let cursor ← append record payload
        let fin ← okOr (checkedAdd start payload.length) .range
        push (.extent id fin) (.extent cursor 0 payload.length)
        fileFrom id bytes fuel fin
    else pure ()

def file (bytes : Bytes) : ImgM Nat := do
  let id ← reserve
  fileFrom id bytes.val (bytes.val.length + 1) 0
  push (.object id) (.object ⟨.file, 0, bytes.val.length⟩)
  pure id

/-- Whether a name sorts no later than another, bytewise. -/
def nameLe {α : Type} (a b : Name × α) : Prop := Key.cmpBytes a.1.bytes b.1.bytes ≠ .gt

instance {α : Type} : DecidableRel (nameLe (α := α)) := fun a b =>
  inferInstanceAs (Decidable (Key.cmpBytes a.1.bytes b.1.bytes ≠ .gt))

/-- The children of directory `id`, in the order given. -/
def children (id : Nat) : List (Name × ImgM Nat) → ImgM Unit
  | [] => pure ()
  | (name, step) :: rest => do
      let object ← step
      push (.dirent id name.bytes) (.dirent object)
      children id rest

/-- Lays out a directory whose children are laid out by `steps`. -/
def dir (steps : List (Name × ImgM Nat)) : ImgM Nat := do
  let id ← reserve
  children id (steps.insertionSort nameLe)
  ensure (steps.length < 2 ^ 32) .range
  push (.object id) (.object ⟨.dir, steps.length, 0⟩)
  pure id

end Img

mutual

/-- Lays out one node of the tree and everything under it. -/
def Source.layOut : Source → ImgM Nat
  | .file bytes => Img.file bytes
  | .dir nodes => Img.dir (Source.steps nodes)

/-- The steps that lay out a directory's children. -/
def Source.steps : List (Name × Source) → List (Name × ImgM Nat)
  | [] => []
  | (name, node) :: rest => (name, node.layOut) :: Source.steps rest

end

-- == the nodes

/-- Writes a node to the next block of an arena of `treeBlocks`. -/
def writeFormatted (treeBlocks treeAt : Nat) (arena : List Node) (n : Node) :
    Except FsError (List Node × Nat) :=
  if arena.length + 1 > treeBlocks then .error .full
  else .ok (arena ++ [n], treeAt + arena.length)

/-- Packs the sorted pairs into leaves. -/
def formatLeaves (treeBlocks treeAt generation : Nat) :
    Nat → List Node → List (Key × Value) → Except FsError (List Node × List (Key × Nat))
  | 0, arena, _ => .ok (arena, [])
  | fuel + 1, arena, entries =>
    match entries with
    | [] => .ok (arena, [])
    | (key, _) :: _ =>
      let chunk := entries.take CAPACITY
      match writeFormatted treeBlocks treeAt arena
          ⟨0, generation, chunk.map Prod.fst, chunk.map Prod.snd, []⟩ with
      | .error e => .error e
      | .ok (arena, addr) =>
        match formatLeaves treeBlocks treeAt generation fuel arena (entries.drop CAPACITY) with
        | .error e => .error e
        | .ok (arena, rest) => .ok (arena, (key, addr) :: rest)

/-- How many children the next node takes: as many as fit, but never so
many that one would be left over. -/
def groupCount (remaining : Nat) : Nat :=
  let count := min remaining (CAPACITY + 1)
  if remaining - count = 1 then count - 1 else count

/-- Packs one level's nodes under the nodes of the next. -/
def formatLevel (treeBlocks treeAt generation level : Nat) :
    Nat → List Node → List (Key × Nat) → Except FsError (List Node × List (Key × Nat))
  | 0, arena, _ => .ok (arena, [])
  | fuel + 1, arena, nodes =>
    match nodes with
    | [] => .ok (arena, [])
    | (key, _) :: _ =>
      let group := nodes.take (groupCount nodes.length)
      match writeFormatted treeBlocks treeAt arena
          ⟨level, generation, group.tail.map Prod.fst, [], group.map Prod.snd⟩ with
      | .error e => .error e
      | .ok (arena, addr) =>
        match formatLevel treeBlocks treeAt generation level fuel arena
            (nodes.drop (groupCount nodes.length)) with
        | .error e => .error e
        | .ok (arena, rest) => .ok (arena, (key, addr) :: rest)

/-- Adds levels until one node is left, so many at most. -/
def formatLevels (treeBlocks treeAt generation : Nat) :
    Nat → Nat → List Node → List (Key × Nat) → Except FsError (List Node × Nat)
  | _, _, _, [] => .error .corrupt
  | _, _, arena, [(_, addr)] => .ok (arena, addr)
  | 0, _, _, _ :: _ :: _ => .error .full
  | room + 1, level, arena, first :: second :: rest =>
    let nodes := first :: second :: rest
    match formatLevel treeBlocks treeAt generation (level + 1) nodes.length arena nodes with
    | .error e => .error e
    | .ok (arena, nodes) =>
      formatLevels treeBlocks treeAt generation room (level + 1) arena nodes

/-- Lays a sorted index out in the arena, returning its root. -/
def formatTree (entries : List (Key × Value)) (generation treeBlocks treeAt : Nat) :
    Except FsError (List Node × Nat) :=
  let sorted := entries.insertionSort (fun a b => a.1 ≤ b.1)
  if ¬ (sorted.map Prod.fst).IsChain (· ≠ ·) then .error .corrupt
  else if sorted.isEmpty then .ok ([], 0)
  else match formatLeaves treeBlocks treeAt generation sorted.length [] sorted with
    | .error e => .error e
    | .ok (arena, nodes) =>
      formatLevels treeBlocks treeAt generation (MAX_HEIGHT - 1) 0 arena nodes

def headersCrc : Nat → Crc → List UInt8 → Except FsError Nat
  | 0, crc, log => if log.isEmpty then .ok crc.finish else .error .corrupt
  | fuel + 1, crc, log =>
    if log.isEmpty then .ok crc.finish
    else if log.length < LOG_HEADER then .error .corrupt
    else match Record.parse (log.take LOG_HEADER) with
      | .error e => .error e
      | .ok record =>
        if record.span > log.length then .error .corrupt
        else headersCrc fuel (crc.update (log.take LOG_HEADER)) (log.drop record.span)

-- == the image

structure Built where
  superblock : Super
  sectors : Nat
  content : Nat → Sector

/-- The sectors of an image: two superblock copies, the arena, the log. -/
def imageContent (sb : Super) (arena : List Node) (log : List UInt8) : Nat → Sector := fun s =>
  if s = 0 ∨ s = SECTORS then .super sb
  else
    let block := s / SECTORS
    if block < sb.treeAt then .raw blank
    else match arena[block - sb.treeAt]? with
      | some n => .node n (s % SECTORS)
      | none =>
        if block < sb.log.addr then .raw blank
        else .raw fun j => log.getD ((s - sb.log.addr * SECTORS) * SECTOR + j) 0

/-- Places the regions, checksums them, and writes both superblock
copies. -/
def finish (img : Img) (root generation logBlocks treeBlocks : Nat) : Except FsError Built :=
  if img.log.length > logBlocks * BLOCK then .error .full
  else
    let logAt := SUPERS + treeBlocks
    let blocks := logAt + logBlocks * LOG_BANKS
    match headersCrc img.log.length Crc.new img.log with
    | .error e => .error e
    | .ok crc =>
      match formatTree img.entries generation treeBlocks SUPERS with
      | .error e => .error e
      | .ok (arena, treeRoot) =>
        let sb : Super :=
          { generation := generation, blocks := blocks, root := root,
            logBlocks := logBlocks, treeAt := SUPERS,
            treeBlocks := treeBlocks, treeRoot := treeRoot,
            log := ⟨logAt, img.log.length, crc⟩ }
        .ok ⟨sb, blocks * SECTORS, imageContent sb arena img.log⟩

/-- Lays `tree` out with explicit log and metadata capacity. -/
def buildWithCapacity (tree : SourceTree) (generation logBlocks treeBlocks : Nat) :
    Except FsError Built :=
  if logBlocks = 0 ∨ treeBlocks = 0 ∨ treeBlocks > MAX_TREE_BLOCKS then
    .error .range
  else match (Source.dir tree).layOut ⟨[], [], 0⟩ with
    | .error (.error e) _ => .error e
    | .error .fuel _ => .error .corrupt
    | .ok root img => finish img root generation logBlocks treeBlocks

end Molt.Fs
