/-
The writable view of a checkpoint (`Journal` in `journal.rs`).

A transaction appends payload records to a log bank and rewrites tree
paths; `sync` publishes both under the other superblock copy. When a bank
fills, the live slices of it are copied to a bank neither durable
checkpoint holds.

The two ways to append a record differ in where a chunk's checksum and
the payload's bytes come from, so the layout of a record's sectors is one
definition with those two as parameters (`recordSector`). Likewise a walk
over the bytes of a region is one definition (`foldBlocks`), used to copy
them and to hash them. The buffer `read` fills is returned as the list of
the bytes it put there. Read-ahead has no effect on what is read and is
left out.
-/
import Molt.Fs.Tree

namespace Molt.Fs

open Lib

/-- The unpublished half of a checkpoint: the log bank, how far it is
filled, and the tree generation indexing it. -/
structure Transaction where
  addr : Nat
  bytes : Nat
  tree : TreeTransaction
  deriving DecidableEq

/-- A payload chunk whose checksum was compared already. -/
structure VerifiedRecord where
  bank : Nat
  cursor : Nat
  chunk : Nat
  crc : Nat
  deriving DecidableEq

structure ExtentHint where
  file : Nat
  start : Nat
  fin : Nat
  addr : Nat
  skip : Nat
  len : Nat
  deriving DecidableEq

abbrev VERIFIED : Nat := 8

/-- A mounted writable filesystem. -/
structure Journal where
  store : Store
  transaction : Option Transaction
  nextObject : Nat
  verified : List (Option VerifiedRecord)
  verifyHand : Nat
  extentHint : Option ExtentHint

abbrev FsM (α : Type) := Prog Journal FsError α

/-- Tree and volume code, on the journal's store. -/
def onStore {α : Type} (x : TreeM α) : FsM α :=
  zoom Journal.store (fun s j => { j with store := s }) x

namespace Journal

def checkpoint (j : Journal) : Super := j.store.volume.superblock

/-- The root of the pending tree, or of the durable one. -/
def treeRoot (j : Journal) : Nat :=
  match j.transaction with
  | some tx => tx.tree.root
  | none => j.checkpoint.treeRoot

def logRegion (j : Journal) : Region :=
  match j.transaction with
  | some tx => ⟨tx.addr, tx.bytes, 0⟩
  | none => j.checkpoint.log

/-- The object id of the root directory. -/
def root (j : Journal) : Nat := j.checkpoint.root

def generation (j : Journal) : Nat := j.checkpoint.generation

/-- Bytes a log bank holds. -/
def capacity (j : Journal) : Nat := j.checkpoint.logBlocks * BLOCK

-- -- the verified chunks

def isVerified (j : Journal) (v : VerifiedRecord) : Bool := j.verified.any (· == some v)

/-- Remembers a compared chunk, unless it is remembered already. -/
def markVerified (j : Journal) (v : VerifiedRecord) : Journal :=
  if j.isVerified v then j
  else { j with
    verified := j.verified.set j.verifyHand (some v)
    verifyHand := (j.verifyHand + 1) % VERIFIED }

def forgetRecord (j : Journal) (bank cursor : Nat) : Journal :=
  { j with verified := j.verified.map fun v =>
      if v.any (fun r => r.bank == bank && r.cursor == cursor) then none else v }

def forgetBank (j : Journal) (bank : Nat) : Journal :=
  { j with verified := j.verified.map fun v =>
      if v.any (fun r => r.bank == bank) then none else v }

/-- Chooses the one bank that no durable root and no compaction source
uses. -/
def freeBank (j : Journal) (source : Nat) : Except FsError Nat :=
  let banks := (List.range LOG_BANKS).filterMap fun bank =>
    (j.checkpoint.logBank bank).toOption
  match banks.find? (fun addr => addr != source && addr != j.checkpoint.log.addr
      && some addr != j.store.volume.previousLog) with
  | some addr => .ok addr
  | none => .error .full

-- == objects and names

def object (id : Nat) : FsM Object := do
  let j ← get
  ensure (id < j.nextObject) .missing
  let value ← onStore (Tree.get j.treeRoot (.object id))
  let value ← okOr value .corrupt
  lift value.asObject

/-- Finds `name` in a directory. -/
def lookup (dir : Nat) (name : Name) : FsM Nat := do
  let held ← object dir
  ensure (held.kind = .dir) .kind
  let j ← get
  let value ← onStore (Tree.get j.treeRoot (.dirent dir name.bytes))
  let value ← okOr value .missing
  pure value.asDirent

/-- One step of `entry`: the entry of `dir` past `key`. -/
def entryStep (dir : Nat) (key : Key) (inclusive : Bool) : FsM (Key × Value) := do
  let j ← get
  let found ← onStore (Tree.next j.treeRoot key inclusive)
  let (next, value) ← okOr found .corrupt
  ensure (next.isDirent dir = true) .corrupt
  ensure (inclusive = true ∨ key < next) .corrupt
  pure (next, value)

/-- The walk of `entry`, over so many entries past the next one. -/
def entryFrom (dir : Nat) : Nat → Key → Bool → FsM (Name × Nat)
  | 0, key, inclusive => do
      let (next, value) ← entryStep dir key inclusive
      let name ← lift next.name
      pure (name, value.asDirent)
  | left + 1, key, inclusive => do
      let (next, _) ← entryStep dir key inclusive
      entryFrom dir left next false

/-- Reads `index` in bytewise name order. -/
def entry (dir index : Nat) : FsM (Name × Nat) := do
  let held ← object dir
  ensure (held.kind = .dir) .kind
  ensure (index < held.count) .missing
  entryFrom dir index (.direntStart dir) true

-- == walking bytes

/-- Feeds the bytes `[source, source + left)` of the blocks from `addr`
on to `f`, a block at a time. Every round takes at least a byte, so
`left` rounds are enough. -/
def foldBlocks {β : Type} (addr : Nat) (f : β → List UInt8 → β) :
    Nat → β → Nat → Nat → TreeM β
  | 0, acc, _, _ => pure acc
  | fuel + 1, acc, source, left =>
    if left = 0 then pure acc
    else do
      let take := min left (BLOCK - source % BLOCK)
      let b ← block (addr + source / BLOCK)
      foldBlocks addr f fuel (f acc (slice b.byte (source % BLOCK) take))
        (source + take) (left - take)

def copyRegion (region : Region) (source len : Nat) : TreeM (List UInt8) := do
  let fin ← okOr (checkedAdd source len) .corrupt
  ensure (fin ≤ region.bytes) .corrupt
  foldBlocks region.addr (· ++ ·) len [] source len

/-- Hashes bytes of a log region. -/
def regionChecksum (region : Region) (source bytes : Nat) (present : Bool := false) :
    TreeM Nat := do
  let fin ← okOr (checkedAdd source bytes) .corrupt
  ensure (fin ≤ region.bytes) .corrupt
  let crc ← foldBlocks region.addr (Crc.update · · present) bytes Crc.new source bytes
  pure crc.finish

/-- The record at `cursor` of a log region. -/
def recordIn (log : Region) (cursor : Nat) : TreeM Record := do
  ensure (cursor % ALIGN = 0) .corrupt
  let headerEnd ← okOr (checkedAdd cursor LOG_HEADER) .corrupt
  ensure (headerEnd ≤ log.bytes) .corrupt
  let b ← block (log.addr + cursor / BLOCK)
  let record ← lift (Record.parse (slice b.byte (cursor % BLOCK) LOG_HEADER))
  let fin ← okOr (checkedAdd cursor record.span) .corrupt
  ensure (fin ≤ log.bytes) .corrupt
  pure record

/-- A failure of the record's own arithmetic is a corrupt log. -/
def orCorrupt {α : Type} : Except FsError α → Except FsError α
  | .ok a => .ok a
  | .error _ => .error .corrupt

/-- Compares one chunk of a record with its checksum, unless it was
compared before. -/
def verifyChunk (log : Region) (cursor : Nat) (record : Record) (chunk : Nat) : FsM Unit := do
  let within ← lift (orCorrupt (record.checksumAt chunk))
  let checksum ← okOr (checkedAdd cursor within) .corrupt
  let encoded ← onStore (copyRegion log checksum 4)
  let crc := leNat encoded
  let j ← get
  if j.isVerified ⟨log.addr, cursor, chunk, crc⟩ then pure ()
  else do
    let (offset, bytes) ← lift (orCorrupt (record.chunk chunk))
    let payload ← okOr (checkedAdd cursor record.payloadAt) .corrupt
    let payload ← okOr (checkedAdd payload offset) .corrupt
    let actual ← onStore (regionChecksum log payload bytes)
    ensure (actual = crc) .checksum
    modify fun j => j.markVerified ⟨log.addr, cursor, chunk, crc⟩

/-- The chunks of `verifyRange`, `n` of them from `chunk` on. -/
def verifyChunks (log : Region) (cursor : Nat) (record : Record) :
    Nat → Nat → FsM Unit
  | 0, _ => pure ()
  | n + 1, chunk => do
      verifyChunk log cursor record chunk
      verifyChunks log cursor record n (chunk + 1)

/-- Compares every chunk a payload range touches. -/
def verifyRange (log : Region) (cursor offset bytes : Nat) : FsM Unit := do
  let record ← onStore (recordIn log cursor)
  let fin ← okOr (checkedAdd offset bytes) .corrupt
  ensure (bytes ≠ 0 ∧ fin ≤ record.bytes) .corrupt
  let first := offset / BLOCK
  let last := (fin - 1) / BLOCK
  verifyChunks log cursor record (last + 1 - first) first

/-- The bytes `[payloadOffset, payloadOffset + len)` of the payload of the
record at `cursor`, of which the caller may see those below
`payloadEnd`. -/
def copyPayload (cursor payloadOffset payloadEnd len : Nat) : FsM (List UInt8) := do
  let j ← get
  let log := j.logRegion
  let record ← onStore (recordIn log cursor)
  let readEnd ← okOr (checkedAdd payloadOffset len) .corrupt
  ensure (readEnd ≤ payloadEnd ∧ payloadEnd ≤ record.bytes) .corrupt
  let payload ← okOr (checkedAdd cursor record.payloadAt) .corrupt
  let source ← okOr (checkedAdd payload payloadOffset) .corrupt
  let fin ← okOr (checkedAdd source len) .corrupt
  let aheadEnd ← okOr (checkedAdd payload payloadEnd) .corrupt
  ensure (fin ≤ aheadEnd ∧ aheadEnd ≤ log.bytes) .corrupt
  verifyRange log cursor payloadOffset len
  onStore (foldBlocks log.addr (· ++ ·) len [] source len)

-- == reads

/-- `buf` with `bytes` copied over it at `at`. -/
def overwrite (buf : List UInt8) (target : Nat) (bytes : List UInt8) : List UInt8 :=
  buf.take target ++ bytes ++ buf.drop (target + bytes.length)

/-- The extent walk of `read`, from `key` on. -/
def readFrom (file offset readEnd root : Nat) :
    Nat → Key → Bool → List UInt8 → FsM (List UInt8)
  | 0, _, _, _ => spent
  | fuel + 1, key, inclusive, buf => do
      match ← onStore (Tree.next root key inclusive) with
      | none => pure buf
      | some (found, value) =>
        if found.isExtent file = false then pure buf
        else
          let (addr, skip, len) := value.asExtent
          if len = 0 then readFrom file offset readEnd root fuel found false buf
          else do
            let held ← okOr (checkedSub found.fin len) .corrupt
            modify fun j =>
              { j with extentHint := some ⟨file, held, found.fin, addr, skip, len⟩ }
            if held ≥ readEnd then pure buf
            else
              let start := max offset held
              let fin := min readEnd found.fin
              if start < fin then do
                let bytes ← copyPayload addr (skip + (start - held)) (skip + len) (fin - start)
                readFrom file offset readEnd root fuel found false
                  (overwrite buf (start - offset) bytes)
              else readFrom file offset readEnd root fuel found false buf

/-- The hint of the last read, if `offset` of `file` lies in it. -/
def hintAt (j : Journal) (file offset : Nat) : Option ExtentHint :=
  j.extentHint.filter fun hint =>
    hint.file == file && decide (hint.start ≤ offset) && decide (offset < hint.fin)

/-- Reads up to `len` bytes of a file. -/
def read (file offset len : Nat) : FsM (List UInt8) := do
  let held ← object file
  ensure (held.kind = .file) .kind
  ensure (offset ≤ held.size) .range
  let want := min (held.size - offset) len
  let buf := List.replicate want 0
  let readEnd ← okOr (checkedAdd offset want) .corrupt
  let j ← get
  match j.hintAt file offset with
  | some hint => do
      let fin := min readEnd hint.fin
      let bytes ← copyPayload hint.addr (hint.skip + (offset - hint.start))
        (hint.skip + hint.len) (fin - offset)
      let buf := overwrite buf 0 bytes
      if fin = readEnd then pure buf
      else
        readFrom file offset readEnd j.treeRoot j.store.env.fuel (.extent file hint.fin) false buf
  | none => do
      let past ← okOr (checkedAdd offset 1) .corrupt
      readFrom file offset readEnd j.treeRoot j.store.env.fuel (.extent file past) true buf

-- == appending

def openTx : FsM Transaction := do
  let j ← get
  okOr j.transaction .corrupt

/-- The sector of a record that starts `written` bytes into it. -/
def recordSector (record : Record) (crcOf : Nat → FsM Nat)
    (copy : Nat → Nat → FsM (List UInt8)) (written : Nat) : FsM Image := do
  let payloadStart := record.payloadAt
  let m := if written = 0 then put blank 0 record.encode else blank
  let checksumsStart := max written LOG_HEADER
  let checksumsEnd := min (written + SECTOR) payloadStart
  let m ← if checksumsStart < checksumsEnd then do
      let first := (checksumsStart - LOG_HEADER) / 4
      let last := (checksumsEnd - LOG_HEADER) / 4
      let cells ← (List.range' first (last - first)).mapM crcOf
      pure (put m (LOG_HEADER + first * 4 - written) (cells.flatMap (leBytes 4)))
    else pure m
  let start := max written payloadStart
  let finish := min (written + SECTOR) (payloadStart + record.bytes)
  if start < finish then do
    let bytes ← copy (start - payloadStart) (finish - start)
    pure (put m (start - written) bytes)
  else pure m

/-- Writes `n` sectors of a record, from byte `written` of it on. -/
def writeRecord (addr cursor : Nat) (sector : Nat → FsM Image) :
    Nat → Nat → FsM Unit
  | 0, _ => pure ()
  | n + 1, written => do
      let m ← sector written
      onStore (writeAligned addr (cursor + written) m)
      writeRecord addr cursor sector n (written + ALIGN)

def append (record : Record) (payload : List UInt8) : FsM Nat := do
  ensure (payload.length = record.bytes) .corrupt
  let tx ← openTx
  modify fun j => j.forgetRecord tx.addr tx.bytes
  let fin ← okOr (checkedAdd tx.bytes record.span) .full
  let j ← get
  ensure (fin ≤ j.capacity) .full
  writeRecord tx.addr tx.bytes
    (recordSector record
      (fun chunk => pure (crc32c (Record.chunkOf payload chunk)))
      (fun source n => pure ((payload.drop source).take n)))
    (record.span / ALIGN) 0
  modify fun j => { j with transaction := some { tx with bytes := fin } }
  modify fun j => (List.range record.chunks).foldl (fun j chunk =>
    j.markVerified ⟨tx.addr, tx.bytes, chunk, crc32c (Record.chunkOf payload chunk)⟩) j
  pure tx.bytes

/-- Appends one record while streaming its payload from another bank. -/
def appendFrom (source : Region) (sourceAt : Nat) (record : Record) : FsM Nat := do
  let tx ← openTx
  modify fun j => j.forgetRecord tx.addr tx.bytes
  let fin ← okOr (checkedAdd tx.bytes record.span) .full
  let j ← get
  let sourceEnd ← okOr (checkedAdd sourceAt record.bytes) .corrupt
  ensure (fin ≤ j.capacity) .full
  ensure (sourceEnd ≤ source.bytes) .corrupt
  writeRecord tx.addr tx.bytes (recordSector record (fun chunk => do
        let (offset, bytes) ← lift (record.chunk chunk)
        let from_ ← okOr (checkedAdd sourceAt offset) .corrupt
        onStore (regionChecksum source from_ bytes))
      (fun from_ n => onStore (copyRegion source (sourceAt + from_) n)))
    (record.span / ALIGN) 0
  modify fun j => { j with transaction := some { tx with bytes := fin } }
  pure tx.bytes

def index (key : Key) (value : Value) : FsM Unit := do
  let tx ← openTx
  let tree ← onStore (Tree.insert tx.tree key value)
  modify fun j => { j with transaction := some { tx with tree := tree } }

-- == compaction

/-- Copies the live slice of one extent to the pending bank and retargets
its key. -/
def compactExtent (source : Region) (found : Key) (object cursor skip len : Nat) : FsM Unit := do
  let start ← okOr (checkedSub found.fin len) .corrupt
  let held ← onStore (recordIn source cursor)
  ensure (held.object = object
    ∧ checkedAdd held.offset skip = some start
    ∧ skip + len ≤ held.bytes) .corrupt
  verifyRange source cursor skip len
  let payload ← okOr (checkedAdd cursor held.payloadAt) .corrupt
  let payload ← okOr (checkedAdd payload skip) .corrupt
  let record ← lift (Record.checked object start len)
  let addr ← appendFrom source payload record
  index found (.extent addr 0 len)

/-- The extent walk of `compact`, from `key` on. -/
def compactFrom (source : Region) (root : Nat) : Nat → Key → Bool → FsM Unit
  | 0, _, _ => spent
  | fuel + 1, key, inclusive => do
      match ← onStore (Tree.next root key inclusive) with
      | none => pure ()
      | some (found, value) =>
        match found.extentObject with
        | none => pure ()
        | some object =>
          let (cursor, skip, len) := value.asExtent
          if len = 0 then compactFrom source root fuel found false
          else do
            compactExtent source found object cursor skip len
            compactFrom source root fuel found false

/-- Copies only live extent slices into a fresh bank and retargets their
keys. -/
def compact (source : Region) (root : Nat) : FsM Unit := do
  let j ← get
  compactFrom source root j.store.env.fuel (.extent 0 0) true

/-- Whether the open transaction has room for `reserve` more bytes. -/
def hasRoom (j : Journal) (reserve : Nat) : Bool :=
  match j.transaction with
  | none => false
  | some tx => match checkedAdd tx.bytes reserve with
    | none => false
    | some fin => decide (fin ≤ j.capacity)

/-- Opens a transaction with room for `reserve`, reclaiming only when
full. -/
def begin (reserve : Nat) : FsM Unit := do
  let j ← get
  ensure (reserve ≤ j.capacity) .full
  match j.transaction with
  | some tx =>
    if j.hasRoom reserve then pure ()
    else do
      let _ ← onStore (Tree.tryClone tx.tree)
      let target ← lift (j.freeBank tx.addr)
      modify fun j => { j.forgetBank target with
        transaction := some { tx with addr := target, bytes := 0 } }
      match ← attempt (compact ⟨tx.addr, tx.bytes, 0⟩ tx.tree.root) with
      | .error e => do
          modify fun j => { j with transaction := some tx }
          fail e
      | .ok () => do
          let j ← get
          if j.hasRoom reserve then pure ()
          else do
            modify fun j => { j with transaction := some tx }
            fail .full
  | none => do
      let active := j.checkpoint.log
      let tree ← onStore Tree.begin
      if (checkedAdd active.bytes reserve).any (fun fin => decide (fin ≤ j.capacity))
      then modify fun j =>
        { j with transaction := some ⟨active.addr, active.bytes, tree⟩ }
      else do
        let target ← lift (j.freeBank active.addr)
        modify fun j => { j.forgetBank target with
          transaction := some ⟨target, 0, tree⟩ }
        match ← attempt (compact active j.checkpoint.treeRoot) with
        | .error e => do
            modify fun j => { j with transaction := none }
            fail e
        | .ok () => do
            let j ← get
            if j.hasRoom reserve then pure ()
            else do
              modify fun j => { j with transaction := none }
              fail .full

/-- Opens a transaction and copies it aside for rollback. -/
def snapshot (reserve : Nat) : FsM Transaction := do
  begin reserve
  let tx ← openTx
  let _ ← onStore (Tree.tryClone tx.tree)
  pure tx

/-- Runs a mutation's second half; an error puts the copy back. -/
def orRollback {α : Type} (before : Transaction) (x : FsM α) : FsM α := do
  match ← attempt x with
  | .ok a => pure a
  | .error e => do
      modify fun j => { j with transaction := some before }
      fail e

-- == mutations

/-- Creates one empty object below `parent`. -/
def create (parent : Nat) (name : Name) (kind : Kind) : FsM Nat := do
  let held ← object parent
  ensure (held.kind = .dir) .kind
  match ← attempt (lookup parent name) with
  | .ok _ => fail .alreadyExists
  | .error e =>
    ensure (e = .missing) e
    let j ← get
    let object := j.nextObject
    ensure (object + 1 < 2 ^ 32) .full
    ensure (held.count + 1 < 2 ^ 32) .full
    let before ← snapshot 0
    orRollback before do
      index (.object parent) (.object { held with count := held.count + 1 })
      index (.object object) (.object ⟨kind, 0, 0⟩)
      index (.dirent parent name.bytes) (.dirent object)
    modify fun j => { j with nextObject := object + 1 }
    pure object

/-- Cuts `[offset, fin)` out of one extent that starts before `fin`: the
part before the range moves under the key `offset`, the part past it stays
under its own key, and an extent ending inside the range leaves a
whiteout. -/
def trimExtent (file offset fin : Nat) (found : Key) (held addr skip len : Nat) : FsM Unit := do
  if held < offset then
    index (.extent file offset) (.extent addr skip (offset - held))
  if found.fin > fin then do
    let cut := fin - held
    ensure (skip + cut < 2 ^ 32) .corrupt
    index found (.extent addr (skip + cut) (len - cut))
  else if found.fin ≠ fin then
    index found .whiteout

/-- The walk of `trim`, from `key` on. -/
def trimFrom (file offset fin : Nat) : Nat → Key → Bool → FsM Unit
  | 0, _, _ => spent
  | fuel + 1, key, inclusive => do
      let j ← get
      match ← onStore (Tree.next j.treeRoot key inclusive) with
      | none => pure ()
      | some (found, value) =>
        if found.isExtent file = false then pure ()
        else
          let (addr, skip, len) := value.asExtent
          if len = 0 then trimFrom file offset fin fuel found false
          else do
            let held ← okOr (checkedSub found.fin len) .corrupt
            if held ≥ fin then pure ()
            else do
              trimExtent file offset fin found held addr skip len
              trimFrom file offset fin fuel found false

/-- Cuts `[offset, fin)` out of the extents already covering it. -/
def trim (file offset fin : Nat) : FsM Unit := do
  let past ← okOr (checkedAdd offset 1) .range
  let j ← get
  trimFrom file offset fin j.store.env.fuel (.extent file past) true

/-- Appends a file write and returns the number of accepted bytes. -/
def write (file offset : Nat) (bytes : List UInt8) : FsM Nat := do
  let held ← object file
  ensure (held.kind = .file) .kind
  let fin ← okOr (checkedAdd offset bytes.length) .range
  if bytes.isEmpty then pure 0
  else do
    modify fun j => { j with extentHint := none }
    let record ← lift (Record.write file offset bytes.length)
    let before ← snapshot record.span
    let cursor ← orRollback before (append record bytes)
    orRollback before do
      index (.object file) (.object { held with size := max held.size fin })
      trim file offset fin
      index (.extent file fin) (.extent cursor 0 bytes.length)
    pure bytes.length

/-- Makes every pending record durable and publishes a new generation. -/
def sync : FsM Nat := do
  let j ← get
  match j.transaction with
  | none => do
      onStore flush
      pure j.generation
  | some tx => do
      let crc ← onStore (logChecksum ⟨tx.addr, tx.bytes, 0⟩)
      let generation ← okOr (checkedAdd j.generation 1) .full
      let next := { j.checkpoint with
        generation := generation
        treeRoot := tx.tree.root
        log := ⟨tx.addr, tx.bytes, crc⟩ }
      let copy := 1 - j.store.volume.activeCopy
      -- the log must survive before any durable superblock may name it;
      -- the second flush is the commit point
      onStore flush
      onStore (writeCheckpoint copy next)
      onStore flush
      onStore (commit copy next)
      modify fun j => { j with transaction := none }
      pure generation

end Journal

end Molt.Fs
