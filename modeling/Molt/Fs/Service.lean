/-
The filesystem as something other cells can talk to (`service.rs`, with
the operations of `op.rs` and the mount of `storage.rs`).

`Service` is the `Fs` of the source, the only holder of the mounted volume.
Everybody else names an object through the capability table it owns, which
keeps an object's id and kind; sizes and counts are read when asked. A `Capability<Dir>` and a
`Capability<File>` are the same word with the same rights, so the two types
are told apart by `Handle` alone.

An operation runs on the service and on the registered buffers, which it is
lent. `on` is `Fs::on`: the block ring under the journal is served until the
journal has its answer, so journal code runs as it stands. A read that fails
leaves its buffer alone here; what it leaves there in the source is
unspecified bytes of the same buffer.
-/
import Molt.Fs.Mount
import Molt.Core.Ring

namespace Molt.Fs

open Lib Molt.Core

-- == the operations

inductive Handle where
  | dir (c : Capability)
  | file (c : Capability)
  deriving DecidableEq

abbrev DIR : Rights := .READ_WRITE

/-- The rights an open file carries. -/
abbrev FILE : Rights := .READ_WRITE

inductive FsOp where
  | openAt (dir : Capability) (name : Name)
  | entry (dir : Capability) (index : Nat)
  | read (file : Capability) (buffer : BufferOperation) (offset : Nat)
  | create (dir : Capability) (name : Name) (kind : Kind)
  | write (file : Capability) (buffer : BufferOperation) (offset : Nat)
  | sync
  | stat (handle : Handle)
  | close (handle : Handle)
  deriving DecidableEq

/-- What an object is: a file's length, or a directory's entry count. -/
structure Stat where
  kind : Kind
  size : Nat
  entries : Nat
  deriving DecidableEq

inductive FsDone where
  | opened (handle : Handle)
  | entry (name : Name) (stat : Stat)
  | read (bytes : Nat)
  | written (bytes : Nat)
  | synced (generation : Nat)
  | stat (stat : Stat)
  | closed
  deriving DecidableEq

/-- The handle an open produced, if this is what an open produced. -/
def FsDone.handle : FsDone → Option Handle
  | .opened handle => some handle
  | _ => none

/-- The handle an operation acts on. -/
def FsOp.target : FsOp → Option Handle
  | .openAt dir _ => some (.dir dir)
  | .entry dir _ => some (.dir dir)
  | .read file _ _ => some (.file file)
  | .create dir _ _ => some (.dir dir)
  | .write file _ _ => some (.file file)
  | .sync => none
  | .stat handle => some handle
  | .close handle => some handle

/-- A directory counts entries and has no length; a file is the reverse. -/
def stat (object : Object) : Stat :=
  match object.kind with
  | .dir => ⟨.dir, 0, object.count⟩
  | .file => ⟨.file, object.size, 0⟩

-- == the service

structure OpenObject where
  id : Nat
  kind : Kind
  deriving DecidableEq

/-- The answer an operation gets. -/
abbrev FsResult := Except FsError FsDone

/-- A mounted volume behind a capability table. -/
structure Service where
  journal : Journal
  opened : CapabilityTable OpenObject
  pending : Option (Completion FsResult)
  sealed : Bool

/-- What acquiring storage hands a client. -/
structure Mount where
  root : Capability
  checkpoint : Nat
  deriving DecidableEq

/-- Code that works on the service. -/
abbrev ServiceM (α : Type) := Prog Service FsError α

structure Lent where
  fs : Service
  buffers : BufferRegistry

/-- Code that works on the service and the buffers. -/
abbrev LentM (α : Type) := Prog Lent FsError α

/-- Service code, with the buffers at hand. -/
def onFs {α : Type} (x : ServiceM α) : LentM α := zoom Lent.fs (fun fs s => { s with fs }) x

namespace Service

/-- Runs `work` against the journal. -/
def on {α : Type} (work : FsM α) : ServiceM α :=
  zoom Service.journal (fun journal fs => { fs with journal }) work

/-- A volume mounted behind a table of `n` slots. -/
def mounted (n : Nat) (journal : Journal) : Service :=
  { journal, opened := .new n, pending := none, sealed := false }

/-- Puts an object into the table, on `owner`'s behalf. -/
def insert (mask : Rights) (owner : CellId) (object : OpenObject) :
    ServiceM Capability := fun fs =>
  match fs.opened.insert mask owner object with
  | (.ok c, opened) => .ok c { fs with opened }
  | (.error _, opened) => .error (.error .handles) { fs with opened }

def get (mask : Rights) (c : Capability) : ServiceM OpenObject := fun fs =>
  match fs.opened.get mask c with
  | .ok object => .ok object fs
  | .error e => .error (.error (.handle e)) fs

/-- Takes a name's object out of the table. -/
def drop (mask : Rights) (c : Capability) : ServiceM Unit := fun fs =>
  match fs.opened.revoke mask c with
  | (.ok _, opened) => .ok () { fs with opened }
  | (.error e, opened) => .error (.error (.handle e)) { fs with opened }

/-- Hands `owner` a handle to the root directory. -/
def root (owner : CellId) : ServiceM Capability := do
  let fs ← MonadState.get
  ensure (fs.sealed = false) .sealed
  let object ← on (Journal.object fs.journal.root)
  ensure (object.kind = .dir) .kind
  insert DIR owner ⟨fs.journal.root, object.kind⟩

def sealRoot : ServiceM Unit := modify fun fs => { fs with sealed := true }

/-- Hands `owner` a handle of the kind the object has. -/
def hold (owner : CellId) (id : Nat) (kind : Kind) : ServiceM Handle :=
  match kind with
  | .dir => Handle.dir <$> insert DIR owner ⟨id, kind⟩
  | .file => Handle.file <$> insert FILE owner ⟨id, kind⟩

/-- The object a handle of either kind stands for. -/
def named : Handle → ServiceM OpenObject
  | .dir c => get DIR c
  | .file c => get FILE c

def object (handle : Handle) : ServiceM Object := do
  let object ← named handle
  let current ← on (Journal.object object.id)
  ensure (object.kind = current.kind) .corrupt
  pure current

/-- Drops every handle `owner` holds, as restarting that cell must. -/
def revoke (owner : CellId) : ServiceM Nat := fun fs =>
  let (revoked, opened) := fs.opened.revokeOwner owner
  .ok revoked { fs with opened }

/-- Comes back at the last durable checkpoint, holding nothing. -/
def restart : ServiceM Unit := do
  on Journal.remount
  modify fun fs =>
    { fs with opened := .new fs.opened.slots.length, pending := none, sealed := false }

-- -- the operations

def openAt (owner : CellId) (dir : Capability) (name : Name) : ServiceM FsDone := do
  let parent ← get DIR dir
  let (id, kind) ← on do
    let id ← Journal.lookup parent.id name
    let held ← Journal.object id
    pure (id, held.kind)
  FsDone.opened <$> hold owner id kind

def entry (dir : Capability) (index : Nat) : ServiceM FsDone := do
  let parent ← get DIR dir
  on do
    let (name, object) ← Journal.entry parent.id index
    let held ← Journal.object object
    pure (.entry name (stat held))

def create (owner : CellId) (dir : Capability) (name : Name) (kind : Kind) : ServiceM FsDone := do
  let parent ← get DIR dir
  let object ← on (Journal.create parent.id name kind)
  FsDone.opened <$> hold owner object kind

def close : Handle → ServiceM FsDone
  | .dir c => do
      drop DIR c
      pure .closed
  | .file c => do
      drop FILE c
      pure .closed

/-- Reads `file` into the range `buffer` names. -/
def read (file : Capability) (buffer : BufferOperation) (offset : Nat) : LentM FsDone := do
  let object ← onFs (get FILE file)
  let s ← MonadState.get
  let target ← lift ((s.buffers.resolveWrite buffer).mapError .buffer)
  let bytes ← onFs (on (Journal.read object.id offset target.length))
  modify fun s => { s with buffers := s.buffers.fill buffer bytes }
  pure (.read bytes.length)

/-- Writes the range `buffer` names into `file`. -/
def write (file : Capability) (buffer : BufferOperation) (offset : Nat) : LentM FsDone := do
  let object ← onFs (get FILE file)
  let s ← MonadState.get
  let source ← lift ((s.buffers.resolveRead buffer).mapError .buffer)
  FsDone.written <$> onFs (on (Journal.write object.id offset source))

/-- Performs one operation, handing any new handle to `owner`. -/
def apply (owner : CellId) : FsOp → LentM FsDone
  | .openAt dir name => onFs (openAt owner dir name)
  | .entry dir index => onFs (entry dir index)
  | .read file buffer offset => read file buffer offset
  | .create dir name kind => onFs (create owner dir name kind)
  | .write file buffer offset => write file buffer offset
  | .sync => onFs (FsDone.synced <$> on Journal.sync)
  | .stat handle => onFs ((fun held => FsDone.stat (Molt.Fs.stat held)) <$> object handle)
  | .close handle => onFs (close handle)

end Service

end Molt.Fs
