/-
The copy-on-write metadata tree (`MetadataTree` in `btree.rs`, with
`bitmap.rs`).

A mutation reads a path from the root to a leaf, writes the changed copy
of the leaf to a block the arena has free, then the changed copy of each
node above it, and releases every block it replaced; a split hands two
blocks and a separator up instead of one block. The functions below take
and return the `TreeTransaction` the source mutates in place: on an error
the source's callers put an earlier copy of it back, so what a failed
call leaves in it is never read. What a failed call leaves on the device
and in the cache stays.

Loops that keep a path do so in a list, the innermost level first.
-/
import Molt.Fs.Volume

namespace Molt.Fs

open Lib

-- == bitmaps

/-- Bits addressed by index. Indices past the end read false and write
nowhere. -/
structure Bitmap where
  bits : List Bool
  deriving DecidableEq

namespace Bitmap

/-- Zeroed map with room for `bits` indices. -/
def new (bits : Nat) : Bitmap := ⟨List.replicate bits false⟩

def get (b : Bitmap) (i : Nat) : Bool := b.bits.getD i false

def set (b : Bitmap) (i : Nat) : Bitmap := ⟨b.bits.set i true⟩

def clear (b : Bitmap) (i : Nat) : Bitmap := ⟨b.bits.set i false⟩

def firstClear (b : Bitmap) : Option Nat := b.bits.findIdx? (fun x => !x)

end Bitmap

-- == transactions

/-- The mutable state of one unpublished tree generation: `guarded` are
the arena blocks the newest and previous checkpoints still reach (the
source's `protected`), `used` those plus the blocks this generation has
written. -/
structure TreeTransaction where
  root : Nat
  generation : Nat
  treeAt : Nat
  guarded : Bitmap
  used : Bitmap
  deriving DecidableEq

/-- What a rewritten level hands its parent: one new node, or two and the
separator between them. -/
inductive Branch where
  | one (addr : Nat)
  | split (left : Nat) (separator : Key) (right : Nat)
  deriving DecidableEq

/-- The index of block `addr` in the tree arena. -/
def treeOffset (sb : Super) (addr : Nat) : Except FsError Nat :=
  match checkedSub addr sb.treeAt with
  | none => .error .corrupt
  | some offset => if offset ≥ sb.treeBlocks then .error .corrupt else .ok offset

namespace Tree

-- == reading nodes

/-- Caches `node`. -/
def keep (addr : Nat) (n : Node) : TreeM Unit :=
  modify fun s => { s with cache := s.cache.put CACHE_SLOTS addr n }

/-- `Node::parse`: the header is checked, then a node is taken from the pool or
the heap, then it is filled. -/
def parse (b : Block) : TreeM Node := do
  match b.refused with
  | some e => fail e
  | none =>
    gate
    lift b.load

/-- The node in block `addr`, out of the cache or off the device. -/
def read (addr : Nat) : TreeM Node := do
  let s ← get
  let _ ← lift (treeOffset s.volume.superblock addr)
  match s.cache.get addr with
  | (some n, cache) =>
    set { s with cache := cache }
    pure n
  | (none, _) =>
    let b ← block addr
    let n ← parse b
    keep addr n
    pure n

-- == lookups

/-- The descent of `get`, `n` levels at most. -/
def getFrom (key : Key) : Nat → Nat → TreeM (Option Value)
  | 0, _ => fail .corrupt
  | n + 1, addr => do
      let node ← read addr
      if node.level = 0 then
        match node.entry? (node.lower key) with
        | some (held, value) => pure (if held = key then some value else none)
        | none => pure none
      else getFrom key n (node.child (node.upper key))

/-- The value stored under `key`. -/
def get (root : Nat) (key : Key) : TreeM (Option Value) :=
  if root = 0 then pure none else getFrom key MAX_HEIGHT root

/-- The first pair of the leftmost leaf under `addr`. -/
def leftmost : Nat → Nat → TreeM (Option (Key × Value))
  | 0, _ => spent
  | fuel + 1, addr => do
      let node ← read addr
      if node.level = 0 then pure (node.entry? 0)
      else leftmost fuel (node.child 0)

/-- What a leaf at the end of `path` answers: the pair looked for, or the
path when the leaf holds nothing past it. -/
def nextHit (key : Key) (inclusive : Bool) (leaf : Node) (path : List (Nat × Nat)) :
    (Key × Value) ⊕ List (Nat × Nat) :=
  match leaf.entry? (if inclusive then leaf.lower key else leaf.upper key) with
  | some e => .inl e
  | none => .inr path

/-- The way down to the leaf that could hold `key`, with room for that
many more levels on the path. -/
def nextDescend (key : Key) (inclusive : Bool) :
    Nat → List (Nat × Nat) → Nat → TreeM ((Key × Value) ⊕ List (Nat × Nat))
  | 0, path, addr => do
      let node ← read addr
      if node.level = 0 then pure (nextHit key inclusive node path)
      else fail .corrupt
  | room + 1, path, addr => do
      let node ← read addr
      if node.level = 0 then pure (nextHit key inclusive node path)
      else
        nextDescend key inclusive room ((addr, node.upper key) :: path)
          (node.child (node.upper key))

/-- Up the path to the first node with a link right of the one taken,
and down that link's left edge. -/
def nextClimb : List (Nat × Nat) → TreeM (Option (Key × Value))
  | [] => pure none
  | (parentAt, child) :: path => do
      let parent ← read parentAt
      if child ≥ parent.len then nextClimb path
      else
        let s ← MonadState.get
        leftmost s.env.fuel (parent.child (child + 1))

/-- The first pair at `key` or past it. -/
def next (root : Nat) (key : Key) (inclusive : Bool) : TreeM (Option (Key × Value)) :=
  if root = 0 then pure none
  else do
    match ← nextDescend key inclusive MAX_HEIGHT [] root with
    | .inl e => pure (some e)
    | .inr path => nextClimb path

-- == the arena

/-- Writes `node` to the lowest free block of the arena. -/
def writeNew (tx : TreeTransaction) (node : Node) : TreeM (TreeTransaction × Nat) := do
  let s ← MonadState.get
  let offset ← okOr tx.used.firstClear .full
  let addr := s.volume.superblock.treeAt + offset
  writeTreeBlock addr node
  keep addr node
  pure ({ tx with used := tx.used.set offset }, addr)

/-- Returns a node this generation wrote to the arena, unless an older
checkpoint still reaches it. -/
def release (tx : TreeTransaction) (addr : Nat) : TreeM TreeTransaction :=
  match checkedSub addr tx.treeAt with
  | none => pure tx
  | some offset =>
    if offset < 2 ^ 32 ∧ tx.guarded.get offset = false ∧ tx.used.get offset = true then do
      modify fun s => { s with cache := s.cache.forget addr }
      pure { tx with used := tx.used.clear offset }
    else pure tx

/-- The walk of `mark`, over a stack of blocks still to visit. -/
def markFrom : Nat → List Nat → Bitmap → TreeM Bitmap
  | 0, _, _ => spent
  | _ + 1, [], bits => pure bits
  | fuel + 1, addr :: pending, bits => do
      let s ← MonadState.get
      let offset ← lift (treeOffset s.volume.superblock addr)
      if bits.get offset then markFrom fuel pending bits
      else
        let node ← read addr
        if node.level = 0 then markFrom fuel pending (bits.set offset)
        else do
          ensure (pending.length + node.len + 1 ≤ s.volume.superblock.treeBlocks) .corrupt
          gate
          markFrom fuel (node.links.reverse ++ pending) (bits.set offset)

/-- Sets the bit of every block reachable from `root`. -/
def mark (root : Nat) (bits : Bitmap) : TreeM Bitmap :=
  if root = 0 then pure bits
  else do
    gate
    let s ← MonadState.get
    markFrom s.env.fuel [root] bits

def markPrevious (previous : Option Nat) (bits : Bitmap) : TreeM Bitmap :=
  match previous with
  | some root => mark root bits
  | none => pure bits

/-- Opens a generation on top of the mounted checkpoint. -/
def begin : TreeM TreeTransaction := do
  let s ← MonadState.get
  let sb := s.volume.superblock
  let generation ← okOr (checkedAdd sb.generation 1) .full
  gate
  gate
  let bits ← mark sb.treeRoot (Bitmap.new sb.treeBlocks)
  let bits ← markPrevious s.volume.previousTree bits
  gate
  pure ⟨sb.treeRoot, generation, sb.treeAt, bits, bits⟩

-- == inserts

/-- A list with `v` put at index `i`, as an array of zeros `d` takes it. -/
def setAt {α : Type} (d : α) (xs : List α) (i : Nat) (v : α) : List α :=
  if i < xs.length then xs.set i v
  else xs ++ List.replicate (i - xs.length) d ++ [v]

/-- The leaf with a pair spliced in at `index`, read by position. -/
def splicedItem (leaf : Node) (index : Nat) (key : Key) (value : Value)
    (slot : Nat) : Key × Value :=
  if slot < index then (leaf.key slot, leaf.value slot)
  else if slot = index then (key, value)
  else (leaf.key (slot - 1), leaf.value (slot - 1))

/-- A leaf of this generation holding positions `[low, high)` of a
sequence of pairs. -/
def fillLeaf (tx : TreeTransaction) (item : Nat → Key × Value) (low high : Nat) :
    Node :=
  let items := (List.range' low (high - low)).map item
  ⟨0, tx.generation, items.map Prod.fst, items.map Prod.snd, []⟩

/-- Rewrites a leaf with `key` bound to `value`. -/
def insertLeaf (tx : TreeTransaction) (leaf : Node) (key : Key) (value : Value) :
    TreeM (TreeTransaction × Branch) := do
  let index := leaf.lower key
  if leaf.keys[index]? = some key then
    gate
    let (tx, addr) ← writeNew tx { leaf with
      generation := tx.generation
      values := setAt .whiteout leaf.values index value }
    pure (tx, .one addr)
  else
    let total := leaf.len + 1
    let item := splicedItem leaf index key value
    if total ≤ CAPACITY then
      gate
      let (tx, addr) ← writeNew tx (fillLeaf tx item 0 total)
      pure (tx, .one addr)
    else
      let middle := total / 2
      gate
      gate
      gate
      let separator := (fillLeaf tx item middle total).key 0
      let (tx, left) ← writeNew tx (fillLeaf tx item 0 middle)
      let (tx, right) ← writeNew tx (fillLeaf tx item middle total)
      pure (tx, .split left separator right)

def splicedKey (parent : Node) (child : Nat) (separator : Key) (slot : Nat) : Key :=
  if slot < child then parent.key slot
  else if slot = child then separator
  else parent.key (slot - 1)

/-- The parent's links with a split child's halves in its place. -/
def splicedChild (parent : Node) (child left right slot : Nat) : Nat :=
  if slot < child then parent.child slot
  else if slot = child then left
  else if slot = child + 1 then right
  else parent.child (slot - 1)

/-- An inner node of this generation holding keys `[low, high)` of a
sequence and the links around them. -/
def fillInner (tx : TreeTransaction) (level : Nat) (keyAt : Nat → Key)
    (childAt : Nat → Nat) (low high : Nat) : Node :=
  ⟨level, tx.generation, (List.range' low (high - low)).map keyAt, [],
    (List.range' low (high - low + 1)).map childAt⟩

/-- Rewrites an inner node for the new form of its child number `child`. -/
def rewriteParent (tx : TreeTransaction) (parent : Node) (child : Nat)
    (branch : Branch) : TreeM (TreeTransaction × Branch) :=
  match branch with
  | .one addr => do
      gate
      let (tx, addr) ← writeNew tx { parent with
        generation := tx.generation
        children := setAt 0 parent.children child addr }
      pure (tx, .one addr)
  | .split left separator right => do
      let total := parent.len + 1
      let keyAt := splicedKey parent child separator
      let childAt := splicedChild parent child left right
      if total ≤ CAPACITY then
        gate
        let (tx, addr) ← writeNew tx (fillInner tx parent.level keyAt childAt 0 total)
        pure (tx, .one addr)
      else
        -- the middle key rises instead of staying in either half
        let middle := total / 2
        gate
        gate
        gate
        let (tx, leftAt) ← writeNew tx (fillInner tx parent.level keyAt childAt 0 middle)
        let (tx, rightAt) ← writeNew tx
          (fillInner tx parent.level keyAt childAt (middle + 1) total)
        pure (tx, .split leftAt (keyAt middle) rightAt)

/-- The way down to the leaf `key` belongs in. A split may add a level,
so the path stops one short of the limit. -/
def insertDescend (key : Key) :
    Nat → List (Nat × Nat) → Nat → TreeM (List (Nat × Nat) × Nat × Node)
  | 0, path, addr => do
      let node ← read addr
      if node.level = 0 then pure (path, addr, node) else fail .full
  | room + 1, path, addr => do
      let node ← read addr
      if node.level = 0 then pure (path, addr, node)
      else
        insertDescend key room ((addr, node.upper key) :: path) (node.child (node.upper key))

/-- Back up the path, rewriting and releasing each node on it. -/
def insertClimb : TreeTransaction → List (Nat × Nat) → Branch →
    TreeM (TreeTransaction × Branch)
  | tx, [], branch => pure (tx, branch)
  | tx, (parentAt, child) :: path, branch => do
      let parent ← read parentAt
      let (tx, branch) ← rewriteParent tx parent child branch
      let tx ← release tx parentAt
      insertClimb tx path branch

/-- Rewrites the leaf a descent found, and the path above it. -/
def insertUp (tx : TreeTransaction) (key : Key) (value : Value) :
    List (Nat × Nat) × Nat × Node → TreeM (TreeTransaction × Branch)
  | (path, leafAt, leaf) => do
      let (tx, branch) ← insertLeaf tx leaf key value
      let tx ← release tx leafAt
      insertClimb tx path branch

def raiseRoot (tx : TreeTransaction) : Branch → TreeM TreeTransaction
  | .one addr => pure { tx with root := addr }
  | .split left separator right => do
      let node ← read left
      gate
      let (tx, addr) ← writeNew tx ⟨(node.level + 1) % 2 ^ 8, tx.generation,
        [separator], [], [left, right]⟩
      pure { tx with root := addr }

/-- Binds `key` to `value` in the transaction's tree. -/
def insert (tx : TreeTransaction) (key : Key) (value : Value) : TreeM TreeTransaction :=
  if tx.root = 0 then do
    gate
    let (tx, addr) ← writeNew tx ⟨0, tx.generation, [key], [value], []⟩
    pure { tx with root := addr }
  else do
    let found ← insertDescend key (MAX_HEIGHT - 1) [] tx.root
    let (tx, branch) ← insertUp tx key value found
    raiseRoot tx branch

/-- `TreeTransaction::try_clone`: two maps' worth of heap. -/
def tryClone (tx : TreeTransaction) : TreeM TreeTransaction := do
  gate
  gate
  pure tx

-- == verification

/-- The walk of `verify`, over a stack of blocks and the level expected
of each. -/
def verifyFrom (sb : Super) : Nat → List (Nat × Option Nat) → Bitmap → TreeM Unit
  | 0, _, _ => spent
  | _ + 1, [], _ => pure ()
  | fuel + 1, (addr, expected) :: pending, used => do
      let offset ← lift (treeOffset sb addr)
      ensure (used.get offset = false) .corrupt
      let b ← raw addr
      let node ← parse b
      ensure (node.generation ≤ sb.generation
        ∧ (addr = sb.treeRoot → node.generation = sb.generation)) .corrupt
      ensure (expected.all (fun level => level == node.level)) .corrupt
      if node.level = 0 then verifyFrom sb fuel pending (used.set offset)
      else do
        ensure (pending.length + node.len + 1 ≤ sb.treeBlocks) .corrupt
        gate
        verifyFrom sb fuel
          ((node.links.map fun c => (c, some (node.level - 1))).reverse ++ pending)
          (used.set offset)

/-- Checks every reachable node before a superblock can become the
mounted one. -/
def verify (sb : Super) : TreeM Unit :=
  if sb.treeRoot = 0 then pure ()
  else do
    gate
    gate
    let s ← MonadState.get
    verifyFrom sb s.env.fuel [(sb.treeRoot, none)] (Bitmap.new sb.treeBlocks)

end Tree

end Molt.Fs
