/-
The flattened device tree reader (`fdt.rs` of the RISC-V port).

Every sum, difference, product and index of the source that would panic in a
build that checks them is one of the `Checked` operations here, so that a
panic is an outcome like any other (`Stop.panic`). `walk` drives the structure
block for any of the three visitors; its loop is the source's, bounded by
`MAX_TOKENS`. The visitor for `config_space` ends the walk with the node that
matched, and the window is read out of that node on the way out.
-/
import Molt.Domain.Image

namespace Molt.Platform.Fdt

open Molt.Domain

/-- Everything a blob can be wrong about. -/
inductive FdtError where
  | magic
  | version
  | truncated
  | missing
  | malformed
  | range
  deriving DecidableEq

abbrev M := Checked FdtError

def ascii (s : String) : List UInt8 := s.toList.map fun c => UInt8.ofNat c.toNat

def HEADER : Nat := 40
def MAGIC : Nat := 0xd00dfeed
def COMPATIBLE_VERSION : Nat := 16
def BEGIN_NODE : Nat := 1
def END_NODE : Nat := 2
def PROP : Nat := 3
def NOP : Nat := 4
def END : Nat := 9
def MAX_TOKENS : Nat := 2 ^ 16
def MAX_DEPTH : Nat := 32
def BUS_STRIDE : Nat := 32 * 8 * 4096

-- == reading

/-- A plain `a * b`. -/
def times (a b : Nat) : M Nat := if a * b < 2 ^ 64 then .ok (a * b) else .error .panic

/-- `xs[i]`. -/
def index {α : Type} (xs : List α) (i : Nat) : M α :=
  match xs[i]? with
  | some x => .ok x
  | none => .error .panic

/-- `xs.get(start..stop).ok_or(e)`. -/
def window (xs : List UInt8) (start stop : Nat) (e : FdtError) : M (List UInt8) :=
  if start ≤ stop ∧ stop ≤ xs.length then .ok ((xs.drop start).take (stop - start)) else fail e

/-- `ok_or(e)`. -/
def okOr {α : Type} (e : FdtError) : Option α → M α
  | some x => .ok x
  | none => fail e

def cellsOf (bytes : List UInt8) : Nat :=
  bytes.foldl (fun value byte => (value <<< 8) % 2 ^ 64 ||| byte.toNat) 0

/-- The first four bytes as a big-endian number. -/
def cell : List UInt8 → Option Nat
  | a :: b :: c :: d :: _ => some (((a.toNat * 256 + b.toNat) * 256 + c.toNat) * 256 + d.toNat)
  | _ => none

def be32 (bytes : List UInt8) (offset : Nat) : M Nat := do
  let stop ← checkedAdd offset 4 FdtError.truncated
  okOr .truncated (cell (← window bytes offset stop .truncated))

def align (offset : Nat) : M Nat := do
  let sum ← checkedAdd offset 3 FdtError.truncated
  .ok (sum / 4 * 4)

/-- The offset just past a node's NUL-terminated, 4-byte-padded name. -/
def skipName (structs : List UInt8) (cursor : Nat) : M Nat := do
  let rest ← window structs cursor structs.length .truncated
  let nul ← okOr .truncated (rest.findIdx? (· == 0))
  align (← plus (← plus cursor nul) 1)

/-- A property name, from the strings block the header locates. -/
def nameAt (strings : List UInt8) (offset : Nat) : M (List UInt8) := do
  let rest ← window strings offset strings.length .truncated
  let nul ← okOr .truncated (rest.findIdx? (· == 0))
  subslice rest 0 nul

/-- Whether a NUL-separated list of strings contains `wanted`. -/
def lists (value wanted : List UInt8) : Bool := (value.splitOn 0).any (· == wanted)

-- == the walk

/-- The cell widths a node imposes on its children's `reg` properties. -/
structure Cells where
  address : Nat
  size : Nat
  deriving DecidableEq

def Cells.DEFAULT : Cells := ⟨2, 2⟩

/-- What one walk of the structure block is looking for. -/
structure Visit (V F : Type) where
  opens : Cells → V → V
  property : (name value : List UInt8) → V → V
  close : V → M (Option F × V)

/-- What `walk` keeps between tokens. -/
structure Walk (V : Type) where
  cursor : Nat
  cells : List Cells
  depth : Nat
  visitor : V

/-- What a token does to a walk: it ends, or goes on. -/
inductive Next (V F : Type) where
  | done (found : Option F) (visitor : V)
  | more (w : Walk V)

section Walk

variable {V F : Type} (visit : Visit V F) (structs strings : List UInt8)

/-- What the parent of a node about to open declared. -/
def parent (w : Walk V) : M Cells :=
  if w.depth = 0 then .ok Cells.DEFAULT else do index w.cells (← minus w.depth 1)

def beginNode (cursor : Nat) (w : Walk V) : M (Next V F) := do
  let (found, visitor) ← visit.close w.visitor
  if found.isSome then .ok (.done found visitor)
  else
    let cursor ← skipName structs cursor
    if MAX_DEPTH ≤ w.depth then fail .malformed
    else
      let parent ← parent w
      let cells ← assign w.cells w.depth Cells.DEFAULT
      .ok (.more ⟨cursor, cells, ← plus w.depth 1, visit.opens parent visitor⟩)

/-- The property `name` of the open node, whose own cells `declared` are. -/
def declare (w : Walk V) (cursor last : Nat) (declared : Cells) (name value : List UInt8) :
    Walk V :=
  if name = ascii "#address-cells" then
    ⟨cursor, w.cells.set last ⟨(cell value).getD declared.address, declared.size⟩, w.depth,
      w.visitor⟩
  else if name = ascii "#size-cells" then
    ⟨cursor, w.cells.set last ⟨declared.address, (cell value).getD declared.size⟩, w.depth,
      w.visitor⟩
  else ⟨cursor, w.cells, w.depth, visit.property name value w.visitor⟩

def prop (cursor : Nat) (w : Walk V) : M (Next V F) := do
  let len ← be32 structs cursor
  let nameoff ← be32 structs (← plus cursor 4)
  let start ← plus cursor 8
  let stop ← checkedAdd start len FdtError.truncated
  let value ← window structs start stop .truncated
  let cursor ← align stop
  if w.depth = 0 then fail .malformed
  else
    let name ← nameAt strings nameoff
    let last ← minus w.depth 1
    .ok (.more (declare visit w cursor last (← index w.cells last) name value))

def endNode (cursor : Nat) (w : Walk V) : M (Next V F) := do
  let (found, visitor) ← visit.close w.visitor
  if found.isSome then .ok (.done found visitor)
  else if w.depth = 0 then fail .malformed
  else .ok (.more ⟨cursor, w.cells, w.depth - 1, visit.opens Cells.DEFAULT visitor⟩)

def token (w : Walk V) : M (Next V F) := do
  let token ← be32 structs w.cursor
  let cursor ← plus w.cursor 4
  if token = BEGIN_NODE then beginNode visit structs cursor w
  else if token = PROP then prop visit structs strings cursor w
  else if token = END_NODE then endNode visit cursor w
  else if token = NOP then .ok (.more { w with cursor })
  else if token = END then .ok (.done none w.visitor)
  else fail .malformed

/-- The loop of `walk` over the tokens it may still read. -/
def tokens : Nat → Walk V → M (Option F × V)
  | 0, _ => fail .malformed
  | steps + 1, w => do
    match ← token visit structs strings w with
    | .done found visitor => .ok (found, visitor)
    | .more w => tokens steps w

end Walk

/-- A borrowed, validated flattened device tree. -/
structure DeviceTree where
  bytes : List UInt8
  size : Nat

namespace DeviceTree

/-- The `totalsize` of a blob whose magic and version we accept. -/
def sizeOf (bytes : List UInt8) : M Nat := do
  if (← be32 bytes 0) ≠ MAGIC then fail .magic
  else if (← be32 bytes 24) > COMPATIBLE_VERSION then fail .version
  else
    let size ← be32 bytes 4
    if size < HEADER then fail .truncated else .ok size

def new (bytes : List UInt8) : M DeviceTree := do
  let size ← sizeOf bytes
  if bytes.length < size then fail .truncated else .ok ⟨bytes, size⟩

def block (t : DeviceTree) (offsetAt sizeAt : Nat) : M (List UInt8) := do
  let offset ← be32 t.bytes offsetAt
  let len ← be32 t.bytes sizeAt
  let stop ← checkedAdd offset len FdtError.truncated
  if stop > t.size then fail .truncated else window t.bytes offset stop .truncated

/-- Drives the structure block once, handing every node to the visitor. -/
def walk {V F : Type} (t : DeviceTree) (visit : Visit V F) (visitor : V) : M (Option F × V) := do
  let structs ← t.block 8 36
  let strings ← t.block 12 32
  tokens visit structs strings MAX_TOKENS ⟨0, List.replicate MAX_DEPTH Cells.DEFAULT, 0, visitor⟩

end DeviceTree

-- == the ECAM window

/-- `(1..=2).contains(&cells)`. -/
def oneOrTwo (cells : Nat) : Bool := 1 ≤ cells ∧ cells ≤ 2

structure ConfigSpace where
  base : Nat
  segment : Nat
  firstBus : Nat
  lastBus : Nat
  deriving DecidableEq

/-- The properties of the node currently open. -/
structure Node where
  matched : Bool
  cells : Cells
  reg : Option (List UInt8)
  busRange : Option (List UInt8)
  domain : Option (List UInt8)

namespace Node

def new (cells : Cells) : Node := ⟨false, cells, none, none, none⟩

/-- The bus range, defaulting to every bus when firmware omits it. -/
def buses (n : Node) : M (Nat × Nat) :=
  match n.busRange with
  | none => .ok (0, 255)
  | some value => do
    let value ← window value 0 8 .malformed
    let first := cellsOf (← subslice value 0 4)
    if first > 255 then fail .range
    else
      let last := cellsOf (← subslice value 4 value.length)
      if last > 255 then fail .range else .ok (first, last)

def segment (n : Node) : M Nat :=
  match n.domain with
  | none => .ok 0
  | some value => do
    let segment ← okOr .malformed (cell value)
    if segment < 2 ^ 16 then .ok segment else fail .range

def configSpace (n : Node) : M ConfigSpace := do
  if ¬ (oneOrTwo n.cells.address ∧ oneOrTwo n.cells.size) then fail .malformed
  else
    let reg ← okOr .malformed n.reg
    let split ← times n.cells.address 4
    let base := cellsOf (← window reg 0 split .malformed)
    let size := cellsOf (← window reg split (← plus split (← times n.cells.size 4)) .malformed)
    let (first, last) ← n.buses
    let claimed ← times (← plus (← minus last first) 1) BUS_STRIDE
    if size < claimed then fail .range
    else
      let segment ← n.segment
      if first > last then fail .range else .ok ⟨base, segment, first, last⟩

def visit : Visit Node Node where
  opens cells _ := new cells
  property name value n :=
    if name = ascii "compatible" then
      { n with matched := n.matched || lists value (ascii "pci-host-ecam-generic") }
    else if name = ascii "reg" then { n with reg := some value }
    else if name = ascii "bus-range" then { n with busRange := some value }
    else if name = ascii "linux,pci-domain" then { n with domain := some value }
    else n
  close n := .ok (if n.matched then some n else none, n)

end Node

/-- The ECAM window of the first `pci-host-ecam-generic` node. -/
def DeviceTree.configSpace (t : DeviceTree) : M ConfigSpace := do
  match ← t.walk Node.visit (Node.new Cells.DEFAULT) with
  | (some node, _) => node.configSpace
  | (none, _) => fail .missing

-- == harts

/-- A `cpu` node, kept only until it closes. -/
structure Cpu where
  matched : Bool
  disabled : Bool
  cells : Cells
  reg : Option (List UInt8)

/-- A slice, whose length is a `usize`. -/
abbrev Room := { into : List Nat // into.length < 2 ^ 64 }

/-- Every startable hart in the tree, in the caller's slice. -/
structure Harts where
  node : Cpu
  into : Room
  count : Nat

namespace Harts

/-- `*slot = id; *count += 1`. -/
def write (h : Harts) (id : Nat) : M Harts := do
  let count ← plus h.count 1
  .ok ⟨h.node, ⟨h.into.1.set h.count id, by rw [List.length_set]; exact h.into.2⟩, count⟩

/-- Writes the node's hart identifier, if it named one molt can start. -/
def take (h : Harts) : M Harts :=
  if h.node.matched = false ∨ h.node.disabled ∨ ¬ oneOrTwo h.node.cells.address then .ok h
  else do
    let width ← times h.node.cells.address 4
    match h.node.reg with
    | some reg =>
      if h.count < h.into.1.length ∧ width ≤ reg.length then h.write (cellsOf (reg.take width))
      else .ok h
    | none => .ok h

def visit : Visit Harts Empty where
  opens cells h := { h with node := ⟨false, false, cells, none⟩ }
  property name value h :=
    let node := h.node
    if name = ascii "device_type" then
      { h with node := { node with matched := node.matched || lists value (ascii "cpu") } }
    else if name = ascii "status" then
      { h with node := { node with disabled := node.disabled || lists value (ascii "disabled") } }
    else if name = ascii "reg" then { h with node := { node with reg := some value } }
    else h
  close h := do .ok (none, ← h.take)

end Harts

/-- The hart identifiers of the `cpu` nodes firmware says can run. -/
def DeviceTree.harts (t : DeviceTree) (into : Room) : M (Nat × List Nat) := do
  let (_, harts) ← t.walk Harts.visit ⟨⟨false, false, Cells.DEFAULT, none⟩, into, 0⟩
  .ok (harts.count, harts.into.1)

-- == ram

structure MemoryRegion where
  start : Nat
  stop : Nat
  deriving DecidableEq

/-- A `memory` node, and the address its bank has to hold. -/
structure Banks where
  matched : Bool
  cells : Cells
  reg : Option (List UInt8)
  address : Nat

namespace Banks

/-- One bank of a `reg` property. The sum saturates in the source. -/
def region (addressWidth : Nat) (bank : List UInt8) : M MemoryRegion := do
  let base := cellsOf (← subslice bank 0 addressWidth)
  let len := cellsOf (← subslice bank addressWidth bank.length)
  .ok ⟨base, min (base + len) (2 ^ 64 - 1)⟩

/-- The first bank that holds the address. -/
def find (addressWidth address : Nat) : List (List UInt8) → M (Option MemoryRegion)
  | [] => .ok none
  | bank :: banks => do
    let region ← region addressWidth bank
    if region.start ≤ address ∧ address < region.stop then .ok (some region)
    else find addressWidth address banks

/-- The bank this node described that holds the address, if it described
one. Chunks of no bytes would panic. -/
def bank (b : Banks) : M (Option MemoryRegion) :=
  if b.matched = false ∨ ¬ oneOrTwo b.cells.address ∨ ¬ oneOrTwo b.cells.size then .ok none
  else do
    let addressWidth ← times b.cells.address 4
    let sizeWidth ← times b.cells.size 4
    match b.reg with
    | none => .ok none
    | some reg =>
      let width ← plus addressWidth sizeWidth
      if width = 0 then .error .panic
      else find addressWidth b.address (records width reg reg.length)

def visit : Visit Banks MemoryRegion where
  opens cells b := ⟨false, cells, none, b.address⟩
  property name value b :=
    if name = ascii "device_type" then
      { b with matched := b.matched || lists value (ascii "memory") }
    else if name = ascii "reg" then { b with reg := some value }
    else b
  close b := do .ok (← b.bank, b)

end Banks

/-- The RAM bank that contains `address`, as firmware described it. -/
def DeviceTree.ram (t : DeviceTree) (address : Nat) : M MemoryRegion := do
  let (found, _) ← t.walk Banks.visit ⟨false, Cells.DEFAULT, none, address⟩
  okOr .missing found

end Molt.Platform.Fdt
