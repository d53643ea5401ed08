/-
On-disk shape of a volume checkpoint (`layout.rs`), and the errors every
layer of the filesystem answers with (`lib.rs`).

A superblock is 220 bytes at constant offsets, stamped with the crc32c
of what precedes the stamp. `Super.parse` trusts nothing before the
stamp matches and admits only superblocks whose regions fit the volume
(`Super.check`); `Geometry` says the same as a structure of facts, which
is what every later argument about disjoint regions starts from.
-/
import Molt.Block.Queue
import Molt.Core.Buffer
import Molt.Core.Registry
import Molt.Fs.Crc

namespace Molt.Fs

open Lib

-- == the errors

inductive FsError where
  | magic
  | version (v : Nat)
  | checksum
  | corrupt
  | missing
  | alreadyExists
  | name
  | kind
  | range
  | device (e : Block.BlockError)
  | sealed
  | cancelled
  | nameSpace (e : Core.RegistryError)
  | handle (e : Core.CapabilityError)
  | buffer (e : Core.BufferError)
  | handles
  | full
  | failed
  | memory
  deriving DecidableEq

-- == the constants

/-- A sector is 512 bytes, the unit every device address is counted in. -/
abbrev SECTOR : Nat := 512

/-- The unit everything on a volume is addressed in. -/
abbrev BLOCK : Nat := 4096

/-- Sectors per block. -/
abbrev SECTORS : Nat := 8

/-- Superblock copies at the start of the volume. -/
abbrev SUPERS : Nat := 2

/-- Log banks: two for the checkpoints kept, one for the next. -/
abbrev LOG_BANKS : Nat := 3

/-- Largest tree arena a superblock may claim. -/
abbrev MAX_TREE_BLOCKS : Nat := 2 ^ 16

/-- The longest name a directory entry may carry. -/
abbrev MAX_NAME : Nat := 255

/-- The format this filesystem reads. -/
abbrev VERSION : Nat := 5

/-- `u64` addition that notices overflow. -/
def checkedAdd (a b : Nat) : Option Nat :=
  if a + b < 2 ^ 64 then some (a + b) else none

/-- `u64` subtraction that notices underflow. -/
def checkedSub (a b : Nat) : Option Nat := if b ≤ a then some (a - b) else none

@[simp] theorem checkedAdd_eq_some {a b c : Nat} :
    checkedAdd a b = some c ↔ a + b < 2 ^ 64 ∧ a + b = c := by
  simp [checkedAdd]

@[simp] theorem checkedSub_eq_some {a b c : Nat} :
    checkedSub a b = some c ↔ b ≤ a ∧ a - b = c := by
  simp [checkedSub]

@[simp] theorem checkedSub_eq_none {a b : Nat} : checkedSub a b = none ↔ a < b := by
  simp [checkedSub]

-- == the superblock

/-- Where a region lives and what its contents hash to. -/
structure Region where
  addr : Nat
  bytes : Nat
  crc : Nat
  deriving DecidableEq

/-- How many blocks the region occupies, its tail padded out. -/
def Region.blocks (r : Region) : Nat := (r.bytes + (BLOCK - 1)) / BLOCK

/-- What a volume is: a generation, a root, and where everything sits.
`log` is the one region the format has. -/
structure Super where
  generation : Nat
  blocks : Nat
  root : Nat
  logBlocks : Nat
  treeAt : Nat
  treeBlocks : Nat
  treeRoot : Nat
  log : Region
  deriving DecidableEq

/-- The signature a volume opens with, `MOLTFS05`. -/
def Super.MAGIC : List UInt8 := [0x4d, 0x4f, 0x4c, 0x54, 0x46, 0x53, 0x30, 0x35]

namespace Super

/-- Rejects a superblock whose regions do not fit the volume it
describes. -/
def check (s : Super) : Except FsError Unit :=
  match checkedSub s.blocks (s.logBlocks * LOG_BANKS) with
  | none => .error .corrupt
  | some logStart =>
  match checkedAdd s.treeAt s.treeBlocks with
  | none => .error .corrupt
  | some treeEnd =>
  if s.logBlocks = 0 ∨ s.treeBlocks = 0 ∨ s.treeBlocks > MAX_TREE_BLOCKS
      ∨ s.treeAt < SUPERS ∨ treeEnd > logStart
      ∨ (s.treeRoot ≠ 0 ∧ (s.treeRoot < s.treeAt ∨ s.treeRoot ≥ treeEnd)) then
    .error .corrupt
  else
  match checkedAdd s.log.addr s.log.blocks with
  | none => .error .corrupt
  | some fin =>
  if s.log.addr < SUPERS ∨ fin > s.blocks then .error .corrupt
  else if ¬ ((List.range LOG_BANKS).any fun bank =>
        s.log.addr == logStart + bank * s.logBlocks)
      ∨ s.log.bytes > s.logBlocks * BLOCK then .error .corrupt
  else .ok ()

/-- First block of log bank `bank`. -/
def logBank (s : Super) (bank : Nat) : Except FsError Nat :=
  if bank ≥ LOG_BANKS then .error .corrupt
  else match checkedSub s.blocks (s.logBlocks * LOG_BANKS) with
    | none => .error .corrupt
    | some start => .ok (start + bank * s.logBlocks)

/-- The superblock's fields at their offsets, the stamp still zero. -/
def encodeFields (s : Super) : Image :=
  let m := put blank 0 MAGIC
  let m := put m 8 (leBytes 4 VERSION)
  let m := put m 12 (leBytes 4 BLOCK)
  let m := put m 16 (leBytes 8 s.generation)
  let m := put m 24 (leBytes 8 s.blocks)
  let m := put m 32 (leBytes 4 s.root)
  let m := put m 184 (leBytes 4 s.logBlocks)
  let m := put m 192 (leBytes 8 s.treeAt)
  let m := put m 200 (leBytes 4 s.treeBlocks)
  let m := put m 208 (leBytes 8 s.treeRoot)
  let m := put m 64 (leBytes 8 s.log.addr)
  let m := put m 72 (leBytes 8 s.log.bytes)
  put m 80 (leBytes 4 s.log.crc)

/-- Writes the superblock, stamping its checksum last. -/
def encode (s : Super) : Image :=
  put s.encodeFields 216 (leBytes 4 (crc32c (slice s.encodeFields 0 216)))

/-- The fields a superblock block names, whatever they are. -/
def readFields (m : Image) : Super where
  generation := atLe m 16 8
  blocks := atLe m 24 8
  root := atLe m 32 4
  logBlocks := atLe m 184 4
  treeAt := atLe m 192 8
  treeBlocks := atLe m 200 4
  treeRoot := atLe m 208 8
  log := { addr := atLe m 64 8, bytes := atLe m 72 8, crc := atLe m 80 4 }

/-- Reads a superblock out of block zero of a copy. The checksum is
checked before any field is trusted. -/
def parse (m : Image) : Except FsError Super :=
  if slice m 0 8 ≠ MAGIC then .error .magic
  else if crc32c (slice m 0 216) ≠ atLe m 216 4 then .error .checksum
  else if atLe m 8 4 ≠ VERSION then .error (.version (atLe m 8 4))
  else if atLe m 12 4 ≠ BLOCK then .error .corrupt
  else match (readFields m).check with
    | .error e => .error e
    | .ok () => .ok (readFields m)

-- == the codec

/-- Every field fits the width the format stores it in. -/
structure Fits (s : Super) : Prop where
  generation : s.generation < 2 ^ 64
  blocks : s.blocks < 2 ^ 64
  root : s.root < 2 ^ 32
  logBlocks : s.logBlocks < 2 ^ 32
  treeAt : s.treeAt < 2 ^ 64
  treeBlocks : s.treeBlocks < 2 ^ 32
  treeRoot : s.treeRoot < 2 ^ 64
  logAddr : s.log.addr < 2 ^ 64
  logBytes : s.log.bytes < 2 ^ 64
  logCrc : s.log.crc < 2 ^ 32

instance (s : Super) : Decidable s.Fits :=
  decidable_of_iff (s.generation < 2 ^ 64 ∧ s.blocks < 2 ^ 64 ∧ s.root < 2 ^ 32
      ∧ s.logBlocks < 2 ^ 32 ∧ s.treeAt < 2 ^ 64 ∧ s.treeBlocks < 2 ^ 32
      ∧ s.treeRoot < 2 ^ 64 ∧ s.log.addr < 2 ^ 64 ∧ s.log.bytes < 2 ^ 64
      ∧ s.log.crc < 2 ^ 32)
    ⟨fun ⟨h1, h2, h3, h4, h5, h6, h7, h8, h9, h10⟩ =>
        ⟨h1, h2, h3, h4, h5, h6, h7, h8, h9, h10⟩,
      fun ⟨h1, h2, h3, h4, h5, h6, h7, h8, h9, h10⟩ =>
        ⟨h1, h2, h3, h4, h5, h6, h7, h8, h9, h10⟩⟩

theorem slice_encode {s : Super} {off n : Nat} (h : off + n ≤ 216) :
    slice s.encode off n = slice s.encodeFields off n :=
  slice_put_of_disjoint (Or.inl h)

theorem readFields_encode {s : Super} (hs : s.Fits) : readFields s.encode = s := by
  have h8 : ∀ {v : Nat}, v < 2 ^ 64 → v % 256 ^ 8 = v := fun hv =>
    Nat.mod_eq_of_lt (by omega)
  have h4 : ∀ {v : Nat}, v < 2 ^ 32 → v % 256 ^ 4 = v := fun hv =>
    Nat.mod_eq_of_lt (by omega)
  have ha : ∀ off w, off + w ≤ 216 → atLe s.encode off w = atLe s.encodeFields off w := by
    intro off w hw
    rw [atLe, slice_encode hw, atLe]
  obtain ⟨g, b, r, lb, ta, tb, tr, ⟨la, ly, lc⟩⟩ := s
  simp only [readFields, ha 16 8 (by decide), ha 24 8 (by decide),
    ha 32 4 (by decide), ha 184 4 (by decide), ha 192 8 (by decide),
    ha 200 4 (by decide), ha 208 8 (by decide), ha 64 8 (by decide),
    ha 72 8 (by decide), ha 80 4 (by decide)]
  unfold encodeFields
  simp (disch := (simp only [length_leBytes]; omega)) only
    [atLe_put_same, atLe_put_of_disjoint, h8 hs.generation, h8 hs.blocks,
      h4 hs.root, h4 hs.logBlocks, h8 hs.treeAt, h4 hs.treeBlocks,
      h8 hs.treeRoot, h8 hs.logAddr, h8 hs.logBytes, h4 hs.logCrc]

/-- `parse` reads the first 220 bytes. -/
theorem parse_congr {m m' : Image} (h : ∀ j < 220, m j = m' j) : parse m = parse m' := by
  have hslice : ∀ off n, off + n ≤ 220 → slice m off n = slice m' off n := fun off n hle =>
    slice_congr fun k hk => h (off + k) (by omega)
  have hat : ∀ off n, off + n ≤ 220 → atLe m off n = atLe m' off n := fun off n hle =>
    congrArg leNat (hslice off n hle)
  have hfields : readFields m = readFields m' := by
    simp only [readFields, hat 16 8 (by decide), hat 24 8 (by decide), hat 32 4 (by decide),
      hat 184 4 (by decide), hat 192 8 (by decide), hat 200 4 (by decide), hat 208 8 (by decide),
      hat 64 8 (by decide), hat 72 8 (by decide), hat 80 4 (by decide)]
  unfold parse
  rw [hslice 0 8 (by decide), hslice 0 216 (by decide), hat 216 4 (by decide),
    hat 8 4 (by decide), hat 12 4 (by decide), hfields]

theorem parse_encode {s : Super} (hs : s.Fits) : parse s.encode = match s.check with
      | .error e => .error e
      | .ok () => .ok s := by
  have hmagic : slice s.encode 0 8 = MAGIC := by
    rw [slice_encode (by decide)]
    unfold encodeFields
    simp (disch := (simp only [length_leBytes]; omega)) only [slice_put_of_disjoint]
    exact slice_put_same blank 0 MAGIC
  have hcrc : crc32c (slice s.encode 0 216) = atLe s.encode 216 4 := by
    rw [slice_encode (by decide), encode, atLe_put_same,
      Nat.mod_eq_of_lt (Nat.lt_of_lt_of_le (crc32c_lt _) (by decide))]
  have hver : atLe s.encode 8 4 = VERSION := by
    rw [atLe, slice_encode (by decide), ← atLe]
    unfold encodeFields
    simp (disch := (simp only [length_leBytes]; omega)) only [atLe_put_same, atLe_put_of_disjoint]
    rfl
  have hblk : atLe s.encode 12 4 = BLOCK := by
    rw [atLe, slice_encode (by decide), ← atLe]
    unfold encodeFields
    simp (disch := (simp only [length_leBytes]; omega)) only [atLe_put_same, atLe_put_of_disjoint]
    rfl
  unfold parse
  simp [hmagic, hcrc, hver, hblk, readFields_encode hs]

-- == the geometry

/-- What `check` promises: the arena and the three banks are where they
should be, and the log region is a bank. -/
structure Geometry (s : Super) : Prop where
  banks_fit : s.logBlocks * 3 ≤ s.blocks
  arena_fits : s.treeAt + s.treeBlocks ≤ s.blocks - s.logBlocks * 3
  arena_u64 : s.treeAt + s.treeBlocks < 2 ^ 64
  logBlocks_pos : 0 < s.logBlocks
  treeBlocks_pos : 0 < s.treeBlocks
  treeBlocks_le : s.treeBlocks ≤ 2 ^ 16
  treeAt_ge : 2 ≤ s.treeAt
  root_mem : s.treeRoot = 0 ∨ (s.treeAt ≤ s.treeRoot ∧ s.treeRoot < s.treeAt + s.treeBlocks)
  log_bank : ∃ bank < 3, s.log.addr = s.blocks - s.logBlocks * 3 + bank * s.logBlocks
  log_bytes : s.log.bytes ≤ s.logBlocks * 4096

theorem check_ok {s : Super} (h : s.check = .ok ()) : s.Geometry := by
  unfold check at h
  split at h
  · cases h
  rename_i logStart hsub
  split at h
  · cases h
  rename_i treeEnd hadd
  rw [checkedSub_eq_some] at hsub
  rw [checkedAdd_eq_some] at hadd
  obtain ⟨hsub, rfl⟩ := hsub
  obtain ⟨hadd, rfl⟩ := hadd
  split at h
  · cases h
  rename_i h1
  split at h
  · cases h
  rename_i fin hfin
  split at h
  · cases h
  rename_i h2
  split at h
  · cases h
  rename_i h3
  push Not at h1 h3
  obtain ⟨hlb, htb, hmax, hta, hte, hroot⟩ := h1
  obtain ⟨hbank, hbytes⟩ := h3
  simp only [List.any_eq_true, List.mem_range, beq_iff_eq] at hbank
  refine ⟨hsub, hte, hadd, by omega, by omega, hmax, hta, ?_, hbank, hbytes⟩
  by_cases hr : s.treeRoot = 0
  · exact Or.inl hr
  · exact Or.inr (hroot hr)

end Super

-- == objects

inductive Kind where
  | dir
  | file
  deriving DecidableEq

/-- `Kind::byte`. -/
def Kind.byte : Kind → UInt8
  | .dir => 0
  | .file => 1

/-- One object indexed by the metadata tree: `count` is its directory
entries, zero for a file; `size` its bytes, zero for a directory. -/
structure Object where
  kind : Kind
  count : Nat
  size : Nat
  deriving DecidableEq

end Molt.Fs
