/-
Mounting: which checkpoint a volume comes up at (`Volume::survey`), and
the validation of its index (`Journal::replay`).

The survey parses both superblock copies and takes the newest whose log
headers and tree nodes check out; the other copy, if it checks out too,
is the previous checkpoint. Replay counts the objects and then walks
every directory, every log record and every extent.
-/
import Molt.Fs.Journal

namespace Molt.Fs

open Lib

-- == the survey

/-- Which checkpoint a mount settled on, and what the one before it
held. -/
structure Checkpoint where
  superblock : Super
  activeCopy : Nat
  previousLog : Option Nat
  previousTree : Option Nat

/-- What is known of a volume before a survey: how far the device
goes. -/
def unmounted (sectors : Nat) : Super :=
  { generation := 0, blocks := sectors / SECTORS, root := 0, logBlocks := 0,
    treeAt := 0, treeBlocks := 0, treeRoot := 0, log := ⟨0, 0, 0⟩ }

/-- The copy holding the newest generation, ties going to the lower
copy. -/
def newest (copies : List (Option Super)) (rejected : List Bool) : Option Nat :=
  ((copies.zipIdx).foldl (fun best x =>
    match x.1 with
    | none => best
    | some parsed =>
      if rejected.getD x.2 false then best
      else match best with
        | none => some (x.2, parsed.generation)
        | some (_, generation) =>
          if parsed.generation > generation then some (x.2, parsed.generation)
          else best) (none : Option (Nat × Nat))).map Prod.fst

/-- Checks a candidate's log headers and every node of its tree. -/
def verifyCheckpoint (sb : Super) : TreeM Unit := do
  let crc ← logChecksum sb.log
  ensure (crc = sb.log.crc) .checksum
  Tree.verify sb

/-- The other copy, if it verifies too. -/
def previousOf (copies : List (Option Super)) (activeCopy : Nat) :
    Nat → TreeM (Option Super)
  | 0 => pure none
  | n + 1 => do
      let copy := copies.length - (n + 1)
      let s ← get
      match copies.getD copy none with
      | none => previousOf copies activeCopy n
      | some parsed =>
        if copy = activeCopy ∨ ¬ parsed.blocks * SECTORS ≤ s.volume.sectors then
          previousOf copies activeCopy n
        else do
          match ← attempt (verifyCheckpoint parsed) with
          | .ok () => pure (some parsed)
          | .error _ => previousOf copies activeCopy n

def surveyFrom (copies : List (Option Super)) :
    Nat → List Bool → FsError → TreeM Checkpoint
  | 0, _, lastError => fail lastError
  | n + 1, rejected, lastError => do
      match newest copies rejected with
      | none => fail lastError
      | some activeCopy =>
        let rejected := rejected.set activeCopy true
        match copies.getD activeCopy none with
        | none => fail lastError
        | some sb =>
          let s ← get
          if sb.blocks * SECTORS > s.volume.sectors then
            surveyFrom copies n rejected .corrupt
          else do
            match ← attempt (verifyCheckpoint sb) with
            | .error e => surveyFrom copies n rejected e
            | .ok () => do
                let previous ← previousOf copies activeCopy copies.length
                pure {
                  superblock := sb
                  activeCopy := activeCopy
                  previousLog := previous.map fun p => p.log.addr
                  previousTree := (previous.map fun p => p.treeRoot).filter (· != 0) }

/-- What superblock copy `copy` parses to, or the error so far. -/
def readCopy (copy : Nat) (lastError : FsError) : TreeM (Option Super × FsError) := do
  let b ← raw copy
  match b.loadSuper with
  | .ok parsed => pure (some parsed, lastError)
  | .error e => pure (none, e)

/-- Takes the newest superblock copy that verifies. -/
def survey : TreeM Checkpoint := do
  let (first, lastError) ← readCopy 0 .magic
  let (second, lastError) ← readCopy 1 lastError
  surveyFrom [first, second] SUPERS [false, false] lastError

/-- `Volume::mount` and `Volume::remount`: survey the device, take what
it settles on. -/
def mountVolume : TreeM Unit := do
  modify fun s => { s with volume := { s.volume with
    superblock := unmounted s.volume.sectors } }
  let c ← survey
  modify fun s => { s with volume := { s.volume with
    superblock := c.superblock
    activeCopy := c.activeCopy
    previousLog := c.previousLog
    previousTree := c.previousTree } }

namespace Journal

-- == replay

/-- Counts the objects, whose ids must be dense from `next` on. -/
def countObjects (root : Nat) : Nat → Nat → FsM Nat
  | 0, _ => spent
  | fuel + 1, next => do
      match ← onStore (Tree.next root (.object next) true) with
      | none => pure next
      | some (key, value) =>
        match key.asObject with
        | none => pure next
        | some object => do
            ensure (object = next) .corrupt
            let _ ← lift value.asObject
            ensure (next + 1 < 2 ^ 32) .corrupt
            countObjects root fuel (next + 1)

/-- The entries of directory `id` past `key`, added to `count`. -/
def countEntries (id : Nat) : Nat → Key → Bool → Nat → FsM Nat
  | 0, _, _, _ => spent
  | fuel + 1, key, inclusive, count => do
      let j ← get
      match ← onStore (Tree.next j.treeRoot key inclusive) with
      | none => pure count
      | some (next, value) =>
        if next.direntParent ≠ some id then pure count
        else do
          ensure (value.asDirent < j.nextObject) .corrupt
          let _ ← lift next.name
          ensure (count + 1 < 2 ^ 32) .corrupt
          countEntries id fuel next false (count + 1)

/-- Checks objects `[id, id + n)`. -/
def validateObjectsFrom : Nat → Nat → FsM Unit
  | 0, _ => pure ()
  | n + 1, id => do
      let held ← object id
      if held.kind = .file then
        ensure (held.count = 0) .corrupt
      else do
        ensure (held.size = 0) .corrupt
        let j ← get
        let count ← countEntries id j.store.env.fuel (.direntStart id) true 0
        ensure (count = held.count) .corrupt
      validateObjectsFrom n (id + 1)

/-- Checks that a file has no entries and a directory no bytes and as
many entries as it says. -/
def validateObjects : FsM Unit := do
  let j ← get
  validateObjectsFrom j.nextObject 0

/-- The extent walk of `validateExtents`; `last` is the file and the end
of the extent before. -/
def validateExtentsFrom (root : Nat) :
    Nat → Key → Bool → Option (Nat × Nat) → FsM Unit
  | 0, _, _, _ => spent
  | fuel + 1, key, inclusive, last => do
      match ← onStore (Tree.next root key inclusive) with
      | none => pure ()
      | some (found, value) =>
        match found.extentObject with
        | none => pure ()
        | some object =>
          let (addr, skip, len) := value.asExtent
          if len = 0 then validateExtentsFrom root fuel found false last
          else do
            let start ← okOr (checkedSub found.fin len) .corrupt
            ensure (last.all fun held =>
              !(held.1 == object && decide (held.2 > start))) .corrupt
            let j ← get
            let record ← onStore (recordIn j.logRegion addr)
            ensure (record.object = object
              ∧ checkedAdd record.offset skip = some start
              ∧ skip + len ≤ record.bytes) .corrupt
            validateExtentsFrom root fuel found false (some (object, found.fin))

/-- Checks that extents of each file are in order, disjoint and inside
records of that file. -/
def validateExtents : FsM Unit := do
  let j ← get
  validateExtentsFrom j.treeRoot j.store.env.fuel (.extent 0 0) true none

/-- `validateIndex`: a log without a tree has nothing to index it. -/
def validateIndex : FsM Unit := do
  let j ← get
  ensure (j.logRegion.bytes = 0 ∨ j.treeRoot ≠ 0) .corrupt
  validateExtents

/-- The record walk of `validateLog`. -/
def validateLogFrom : Nat → Nat → FsM Unit
  | 0, _ => spent
  | fuel + 1, cursor => do
      let j ← get
      if cursor < j.logRegion.bytes then do
        let record ← onStore (recordIn j.logRegion cursor)
        ensure (record.object < j.nextObject) .corrupt
        let held ← object record.object
        ensure (held.kind = .file) .corrupt
        let _ ← okOr (checkedAdd record.offset record.bytes) .corrupt
        let next ← okOr (checkedAdd cursor record.span) .corrupt
        validateLogFrom fuel next
      else
        ensure (cursor = j.logRegion.bytes) .corrupt

/-- Checks that the log is a run of records of existing files, then the
index into it. -/
def validateLog : FsM Unit := do
  let j ← get
  validateLogFrom j.store.env.fuel 0
  validateIndex

/-- Sizes object space from the mounted checkpoint. -/
def replayObjects : FsM Unit := do
  let j ← get
  ensure (j.treeRoot ≠ 0) .corrupt
  let next ← countObjects j.treeRoot j.store.env.fuel 0
  ensure (next ≠ 0 ∧ j.root < next) .corrupt
  modify fun j => { j with nextObject := next }
  let held ← object j.root
  ensure (held.kind = .dir) .corrupt

def replay : FsM Unit := do
  replayObjects
  validateObjects
  validateLog

-- == mounts

/-- A journal with nothing mounted yet. -/
def unmountedOn (disk : Disk Sector) (sectors : Nat) (env : Env) : Journal where
  store :=
    { volume :=
        { disk := disk, sectors := sectors, superblock := unmounted sectors,
          activeCopy := 0, previousLog := none, previousTree := none }
      cache := Sieve.new
      env := env }
  transaction := none
  nextObject := 0
  verified := List.replicate VERIFIED none
  verifyHand := 0
  extentHint := none

/-- Two allocations for the node cache and its pool. -/
def newTree : FsM Unit := do
  onStore gate
  onStore gate
  modify fun j => { j with store := { j.store with cache := Sieve.new } }

/-- Mounts the newest valid checkpoint and validates its typed index.
Run on `unmountedOn`. -/
def mount : FsM Unit := do
  onStore gate
  onStore mountVolume
  newTree
  replay

/-- Remounts the volume, dropping every uncommitted change. -/
def remount : FsM Unit := do
  onStore mountVolume
  modify fun j => { j with transaction := none }
  newTree
  modify fun j => { j with
    verified := List.replicate VERIFIED none, verifyHand := 0, extentHint := none }
  replay

end Journal

end Molt.Fs
