/-
The nodes of the metadata tree and their block on disk (`Node` in
`btree.rs`).

The source keeps a node's keys, values and links in arrays of fixed size
with a length beside them; the model keeps the lists of what was put in
them, the keys' length being the node's, and reads past the end of a list
as the zero the array has there.

# The codec

`encode` lays a node out in a block and `parse` is what a read accepts.
Both directions are connected: a well-formed node survives the disk
(`parse_encode`), and what parses is well formed (`wf_of_parse`), so that
every node a tree walk ever holds is.
-/
import Molt.Fs.Key
import Molt.Lib.Sorted

namespace Molt.Fs

open Lib List

abbrev KEY_BYTES : Nat := 272

/-- Bytes of a value in a leaf. -/
abbrev VALUE_BYTES : Nat := 32

/-- Keys a node holds at most. -/
abbrev CAPACITY : Nat := 12

abbrev MAX_HEIGHT : Nat := 8

/-- Where a node's keys start. -/
abbrev HEADER : Nat := 64

/-- Where a node's values or links start: `HEADER + CAPACITY * KEY_BYTES`. -/
abbrev VALUES : Nat := 3328

structure Node where
  level : Nat
  generation : Nat
  keys : List Key
  values : List Value
  children : List Nat
  deriving DecidableEq

namespace Node

/-- The signature a node opens with, `MOLTBT05`. -/
def MAGIC : List UInt8 := [0x4d, 0x4f, 0x4c, 0x54, 0x42, 0x54, 0x30, 0x35]

/-- Keys in use. -/
def len (n : Node) : Nat := n.keys.length

/-- The key, value and link at an index, zero where nothing was put. -/
def key (n : Node) (i : Nat) : Key := n.keys.getD i .zero

@[inherit_doc key]
def value (n : Node) (i : Nat) : Value := n.values.getD i .whiteout

@[inherit_doc key]
def child (n : Node) (i : Nat) : Nat := n.children.getD i 0

def cells (n : Node) : List Value := (List.range n.len).map n.value

/-- The links an inner node has in use. -/
def links (n : Node) : List Nat := (List.range (n.len + 1)).map n.child

/-- A leaf's pairs. -/
def entries (n : Node) : List (Key × Value) := n.keys.zip n.cells

/-- The pair at `i` of a leaf, if it is in use. -/
def entry? (n : Node) (i : Nat) : Option (Key × Value) :=
  if i < n.len then some (n.key i, n.value i) else none

-- == search

/-- First index whose key fails `before`, by binary search. -/
def search (n : Node) (before : Key → Bool) : Nat :=
  bsearch (fun i => (n.keys[i]?).any before) n.len 0 n.len

/-- First index whose key is not below `key`. -/
def lower (n : Node) (key : Key) : Nat := n.search (fun held => decide (held < key))

/-- First index whose key is above `key`. -/
def upper (n : Node) (key : Key) : Nat := n.search (fun held => decide (held ≤ key))

-- == the codec

/-- The node checksum: the block with its own checksum field read as
zero. -/
def nodeCrc (block : Image) (present : Bool := false) : Nat :=
  (((Crc.new.update (slice block 0 32) present).update [0, 0, 0, 0] present).update
    (slice block 36 4060) present).finish

/-- A node's block with its checksum still zero. -/
def encodeBody (n : Node) : Image :=
  let m := put blank 0 MAGIC
  let m := put m 8 (leBytes 4 5)
  let m := put m 12 [UInt8.ofNat n.level]
  let m := put m 13 [UInt8.ofNat n.len]
  let m := put m 16 (leBytes 8 n.generation)
  let m := put m HEADER (n.keys.flatMap Key.encode)
  if n.level = 0 then put m VALUES (n.cells.flatMap Value.bytes)
  else put m VALUES (n.links.flatMap (leBytes 8))

def encode (n : Node) : Image := put n.encodeBody 32 (leBytes 4 (nodeCrc n.encodeBody))

/-- The keys of a block, each checked and above the one before it. -/
def parseKeys (block : Image) : Option Key → (start n : Nat) →
    Except FsError (List Key)
  | _, _, 0 => .ok []
  | before, start, n + 1 =>
    match Key.parse (slice block start KEY_BYTES) with
    | .error e => .error e
    | .ok key =>
      if before.any (fun held => decide (key ≤ held)) then .error .corrupt
      else match parseKeys block (some key) (start + KEY_BYTES) n with
        | .error e => .error e
        | .ok keys => .ok (key :: keys)

/-- What `parse` refuses before it takes a node to fill. -/
def refused (block : Image) : Option FsError :=
  if slice block 0 8 ≠ MAGIC ∨ atLe block 8 4 ≠ 5 then some .corrupt
  else if nodeCrc block ≠ atLe block 32 4 then some .checksum
  else if (block 12).toNat ≥ MAX_HEIGHT ∨ (block 13).toNat = 0 ∨ (block 13).toNat > CAPACITY then
    some .corrupt
  else none

def parse (block : Image) : Except FsError Node :=
  if slice block 0 8 ≠ MAGIC ∨ atLe block 8 4 ≠ 5 then .error .corrupt
  else if nodeCrc block ≠ atLe block 32 4 then .error .checksum
  else
    let level := (block 12).toNat
    let len := (block 13).toNat
    if level ≥ MAX_HEIGHT ∨ len = 0 ∨ len > CAPACITY then .error .corrupt
    else match parseKeys block none HEADER len with
      | .error e => .error e
      | .ok keys =>
        if level = 0 then
          .ok ⟨level, atLe block 16 8, keys, (List.range len).map fun i =>
            ⟨slice block (VALUES + i * VALUE_BYTES) VALUE_BYTES⟩, []⟩
        else
          let children := (List.range (len + 1)).map fun i =>
            atLe block (VALUES + i * 8) 8
          if children.any (· == 0) then .error .corrupt
          else .ok ⟨level, atLe block 16 8, keys, [], children⟩

theorem parse_of_refused {block : Image} {e : FsError} (h : refused block = some e) :
    parse block = .error e := by
  unfold refused at h
  unfold parse
  split_ifs at h ⊢ with h1 h2 h3 <;> simp_all

structure WF (n : Node) : Prop where
  level : n.level < 8
  generation : n.generation < 2 ^ 64
  len_pos : 0 < n.keys.length
  len_le : n.keys.length ≤ 12
  keys : ∀ k ∈ n.keys, k.Valid
  sorted : n.keys.Pairwise (· < ·)
  leaf : n.level = 0 → n.values.length = n.keys.length
    ∧ (∀ v ∈ n.values, v.Valid) ∧ n.children = []
  inner : n.level ≠ 0 → n.children.length = n.keys.length + 1
    ∧ (∀ c ∈ n.children, 0 < c ∧ c < 2 ^ 64) ∧ n.values = []

/-- `WF`, as a test. -/
def wf (n : Node) : Bool :=
  decide (n.level < 8) && decide (n.generation < 2 ^ 64)
    && decide (0 < n.keys.length) && decide (n.keys.length ≤ 12)
    && n.keys.all (fun k => decide k.Valid)
    && decide (n.keys.Pairwise (· < ·))
    && (if n.level = 0 then
          decide (n.values.length = n.keys.length)
            && n.values.all (fun v => decide v.Valid) && n.children.isEmpty
        else
          decide (n.children.length = n.keys.length + 1)
            && n.children.all (fun c => decide (0 < c ∧ c < 2 ^ 64))
            && n.values.isEmpty)

theorem wf_iff (n : Node) : n.wf = true ↔ n.WF := by
  constructor
  · intro h
    simp only [wf, Bool.and_eq_true, decide_eq_true_eq, all_eq_true] at h
    obtain ⟨⟨⟨⟨⟨⟨h1, h2⟩, h3⟩, h4⟩, h5⟩, h6⟩, h7⟩ := h
    refine ⟨h1, h2, h3, h4, h5, h6, fun h0 => ?_, fun h0 => ?_⟩
    · rw [if_pos h0] at h7
      simpa [and_assoc] using h7
    · rw [if_neg h0] at h7
      simpa [and_assoc] using h7
  · intro h
    simp only [wf, Bool.and_eq_true, decide_eq_true_eq, all_eq_true]
    refine ⟨⟨⟨⟨⟨⟨h.level, h.generation⟩, h.len_pos⟩, h.len_le⟩, h.keys⟩, h.sorted⟩, ?_⟩
    split
    case isTrue h0 => simpa [and_assoc] using h.leaf h0
    case isFalse h0 => simpa [and_assoc] using h.inner h0

instance (n : Node) : Decidable n.WF := decidable_of_iff _ n.wf_iff

theorem map_getD_range {α : Type} (xs : List α) (d : α) :
    (List.range xs.length).map (fun i => xs.getD i d) = xs := by
  refine ext_getElem (by simp) fun i h1 h2 => ?_
  simp [h2]

variable {n : Node} {keys : List Key}

theorem cells_eq (h : n.values.length = n.keys.length) : n.cells = n.values := by
  unfold cells len value
  rw [← h]
  exact map_getD_range _ _

theorem links_eq (h : n.children.length = n.keys.length + 1) : n.links = n.children := by
  unfold links len child
  rw [← h]
  exact map_getD_range _ _

-- -- search, settled

theorem split_at (h : keys.Pairwise (· < ·)) (p : Key → Prop) [DecidablePred p]
    (hp : ∀ {a b}, a < b → p b → p a) :
    ∃ as bs, keys = as ++ bs ∧ (∀ k ∈ as, p k) ∧ ∀ k ∈ bs, ¬ p k := by
  induction keys with
  | nil => exact ⟨[], [], rfl, by simp, by simp⟩
  | cons k ks ih =>
    obtain ⟨hk, hks⟩ := pairwise_cons.mp h
    by_cases hpk : p k
    · obtain ⟨as, bs, rfl, has, hbs⟩ := ih hks
      exact ⟨k :: as, bs, rfl, by simpa [hpk] using has, hbs⟩
    refine ⟨[], k :: ks, rfl, by simp, ?_⟩
    intro x hx
    rcases mem_cons.mp hx with rfl | hx
    · exact hpk
    · exact fun hpx => hpk (hp (hk x hx) hpx)

theorem split_lower (h : keys.Pairwise (· < ·)) (key : Key) :
    ∃ as bs, keys = as ++ bs ∧ (∀ k ∈ as, k < key) ∧ ∀ k ∈ bs, key ≤ k := by
  simpa only [not_lt] using split_at h (· < key) fun hab hb => hab.trans hb

/-- Ascending keys split at any key: those not above it, then the rest. -/
theorem split_upper (h : keys.Pairwise (· < ·)) (key : Key) :
    ∃ as bs, keys = as ++ bs ∧ (∀ k ∈ as, k ≤ key) ∧ ∀ k ∈ bs, key < k := by
  simpa only [not_le] using split_at h (· ≤ key) fun hab hb => hab.le.trans hb

theorem lower_eq {key : Key} {as bs : List Key}
    (hn : n.keys = as ++ bs) (has : ∀ k ∈ as, k < key)
    (hbs : ∀ k ∈ bs, key ≤ k) : n.lower key = as.length := by
  unfold lower search len
  rw [hn]
  exact bsearch_append (fun k hk => by simpa using has k hk) (fun k hk => by simpa using hbs k hk)

theorem upper_eq {key : Key} {as bs : List Key}
    (hn : n.keys = as ++ bs) (has : ∀ k ∈ as, k ≤ key)
    (hbs : ∀ k ∈ bs, key < k) : n.upper key = as.length := by
  unfold upper search len
  rw [hn]
  exact bsearch_append (fun k hk => by simpa using has k hk) (fun k hk => by simpa using hbs k hk)

-- -- the codec, settled

theorem slice_flatMap {α : Type} {f : α → List UInt8} {w : Nat}
    {m : Image} {off : Nat} (xs : List α) (hf : ∀ x ∈ xs, (f x).length = w)
    {i : Nat} (hi : i < xs.length) :
    slice (put m off (xs.flatMap f)) (off + i * w) w = f xs[i] := by
  induction xs generalizing i m off with
  | nil => simp at hi
  | cons x xs ih =>
    have hx : (f x).length = w := hf x mem_cons_self
    have hxs : ∀ y ∈ xs, (f y).length = w := fun y hy => hf y (mem_cons_of_mem _ hy)
    -- the table is the first record and, right after it, the rest
    have hput : put m off ((x :: xs).flatMap f)
        = put (put m off (f x)) (off + w) (xs.flatMap f) := by
      funext j
      simp only [flatMap_cons]
      unfold put
      by_cases h1 : off ≤ j ∧ j < off + (f x ++ xs.flatMap f).length
      · rw [if_pos h1]
        simp only [length_append] at h1
        by_cases h2 : j < off + w
        · rw [if_neg (by omega), if_pos (by omega), getD_append _ _ _ _ (by omega)]
        · rw [if_pos (by omega), getD_append_right _ _ _ _ (by omega)]
          congr 1
          omega
      · rw [if_neg h1]
        simp only [length_append] at h1
        rw [if_neg (by omega), if_neg (by omega)]
    rw [hput]
    cases i with
    | zero =>
      rw [Nat.zero_mul, Nat.add_zero, slice_put_of_disjoint (Or.inl le_rfl)]
      have := slice_put_same m off (f x)
      rw [hx] at this
      exact this
    | succ i =>
      rw [Nat.succ_mul, Nat.add_comm (i * w) w, ← Nat.add_assoc]
      exact ih hxs (by simpa using hi)

theorem parseKeys_eq {block : Image} {before : Option Key}
    {start : Nat} (hk : ∀ k ∈ keys, k.Valid) (hs : keys.Pairwise (· < ·))
    (hb : ∀ b, before = some b → ∀ k ∈ keys, b < k)
    (hread : ∀ i (hi : i < keys.length),
      slice block (start + i * KEY_BYTES) KEY_BYTES = keys[i].encode) :
    parseKeys block before start keys.length = .ok keys := by
  induction keys generalizing before start with
  | nil => rfl
  | cons k ks ih =>
    obtain ⟨hlt, hs'⟩ := pairwise_cons.mp hs
    have h0 := hread 0 (by simp)
    simp only [Nat.zero_mul, Nat.add_zero, getElem_cons_zero] at h0
    have hnb : ¬ (before.any fun held => decide (k ≤ held)) = true := by
      cases before with
      | none => simp
      | some b => simpa using hb b rfl k mem_cons_self
    have hrest : parseKeys block (some k) (start + KEY_BYTES) ks.length = .ok ks := by
      refine ih (fun x hx => hk x (mem_cons_of_mem _ hx)) hs' ?_ ?_
      · rintro b ⟨⟩ x hx
        exact hlt x hx
      · intro i hi
        have := hread (i + 1) (by simpa using hi)
        simpa [Nat.succ_mul, Nat.add_assoc, Nat.add_comm KEY_BYTES] using this
    rw [length_cons, parseKeys, h0, Key.parse_encode (hk k mem_cons_self)]
    simp only [hnb, if_false, hrest, Bool.false_eq_true]

theorem slice_encode {off w : Nat} (h : off + w ≤ 32 ∨ 36 ≤ off) :
    slice n.encode off w = slice n.encodeBody off w :=
  slice_put_of_disjoint (by simpa using h)

theorem slice_encodeBody {off w : Nat} (h : off + w ≤ VALUES) :
    slice n.encodeBody off w = slice (put (put (put (put (put (put blank 0 MAGIC)
      8 (leBytes 4 5)) 12 [UInt8.ofNat n.level]) 13 [UInt8.ofNat n.len])
      16 (leBytes 8 n.generation)) HEADER (n.keys.flatMap Key.encode)) off w := by
  simp only [encodeBody]
  split
  · exact slice_put_of_disjoint (Or.inl h)
  · exact slice_put_of_disjoint (Or.inl h)

theorem slice_header {off w : Nat} (h : off + w ≤ HEADER) :
    slice n.encodeBody off w = slice (put (put (put (put (put blank 0 MAGIC)
      8 (leBytes 4 5)) 12 [UInt8.ofNat n.level]) 13 [UInt8.ofNat n.len])
      16 (leBytes 8 n.generation)) off w := by
  rw [slice_encodeBody (by simp only [HEADER, VALUES] at *; omega)]
  exact slice_put_of_disjoint (Or.inl h)

theorem byte_eq_slice (m : Image) (i : Nat) : m i = (slice m i 1).getD 0 0 := by
  simp [slice]

theorem encode_level (h : n.level < 256) : (n.encode 12).toNat = n.level := by
  rw [byte_eq_slice n.encode 12, slice_encode (by decide), slice_header (by decide)]
  simp (disch := simp) only [slice_put_of_disjoint]
  have hp := slice_put_same (put (put blank 0 MAGIC) 8 (leBytes 4 5)) 12 [UInt8.ofNat n.level]
  simp only [length_singleton] at hp
  rw [hp]
  simp [UInt8.toNat_ofNat']
  omega

theorem encode_len (h : n.len < 256) : (n.encode 13).toNat = n.len := by
  rw [byte_eq_slice n.encode 13, slice_encode (by decide), slice_header (by decide)]
  simp (disch := simp) only [slice_put_of_disjoint]
  have hp := slice_put_same (put (put (put blank 0 MAGIC) 8 (leBytes 4 5)) 12
    [UInt8.ofNat n.level]) 13 [UInt8.ofNat n.len]
  simp only [length_singleton] at hp
  rw [hp]
  simp [UInt8.toNat_ofNat']
  omega

theorem encode_links (h0 : n.level ≠ 0) (h : ∀ c ∈ n.links, c < 2 ^ 64) :
    ((List.range (n.len + 1)).map fun i => atLe n.encode (VALUES + i * 8) 8) = n.links := by
  refine ext_getElem (by simp [links]) fun i h1 h2 => ?_
  rw [getElem_map, getElem_range, atLe, slice_encode (Or.inr (by simp only [VALUES]; omega))]
  simp only [encodeBody, if_neg h0]
  rw [slice_flatMap n.links (fun c _ => length_leBytes 8 c) h2, leNat_leBytes]
  exact Nat.mod_eq_of_lt (by have := h _ (getElem_mem h2); omega)

theorem parse_encode (hn : n.WF) : parse n.encode = .ok n := by
  have hkl : ∀ k ∈ n.keys, (Key.encode k).length = 272 :=
    fun k hk => Key.length_encode (hn.keys k hk)
  have hlen := hn.len_le
  have hmagic : slice n.encode 0 8 = MAGIC := by
    rw [slice_encode (by decide), slice_header (by decide)]
    simp (disch := simp) only [slice_put_of_disjoint]
    exact slice_put_same blank 0 MAGIC
  have hver : atLe n.encode 8 4 = 5 := by
    rw [atLe, slice_encode (by decide), slice_header (by decide), ← atLe]
    simp (disch := simp) only [atLe_put_same, atLe_put_of_disjoint]
    rfl
  have hcrc : nodeCrc n.encode = atLe n.encode 32 4 := by
    have h0 : nodeCrc n.encode = nodeCrc n.encodeBody := by
      unfold nodeCrc
      rw [slice_encode (by decide), slice_encode (by decide)]
    rw [h0, encode, atLe_put_same]
    exact (Nat.mod_eq_of_lt (Nat.lt_of_lt_of_le (Crc.finish_lt _) (by decide))).symm
  have hlevel : (n.encode 12).toNat = n.level :=
    encode_level (Nat.lt_of_lt_of_le hn.level (by decide))
  have hlen' : (n.encode 13).toNat = n.keys.length :=
    encode_len (hlen.trans_lt (by decide))
  have hgen : atLe n.encode 16 8 = n.generation := by
    rw [atLe, slice_encode (by decide), slice_header (by decide), ← atLe, atLe_put_same]
    exact Nat.mod_eq_of_lt (by have := hn.generation; omega)
  have hkeys : parseKeys n.encode none HEADER n.keys.length = .ok n.keys := by
    refine parseKeys_eq hn.keys hn.sorted (by simp) ?_
    intro i hi
    rw [slice_encode (Or.inr (by simp only [HEADER]; omega)),
      slice_encodeBody (by simp only [HEADER, KEY_BYTES, VALUES]; omega)]
    exact slice_flatMap n.keys hkl hi
  unfold parse
  rw [if_neg (by simp [hmagic, hver]), if_neg (by simp [hcrc])]
  have hlv := hn.level
  have hpos := hn.len_pos
  simp only [hlevel, hlen', hkeys, hgen]
  rw [if_neg (by simp only [MAX_HEIGHT, CAPACITY]; omega)]
  by_cases h0 : n.level = 0
  · obtain ⟨hvl, hvv, hch⟩ := hn.leaf h0
    rw [if_pos h0]
    have hvals : ((List.range n.keys.length).map fun i =>
        (⟨slice n.encode (VALUES + i * VALUE_BYTES) VALUE_BYTES⟩ : Value))
        = n.values := by
      refine ext_getElem (by simp [hvl]) ?_
      intro i h1 h2
      rw [getElem_map, getElem_range, slice_encode (Or.inr (by simp only [VALUES]; omega))]
      simp only [encodeBody, if_pos h0]
      rw [cells_eq hvl, slice_flatMap n.values (fun v hv => hvv v hv) h2]
    rw [hvals]
    obtain ⟨l, g, ks, vs, cs⟩ := n
    simp_all
  · obtain ⟨hcl, hcv, hva⟩ := hn.inner h0
    have hlinks := links_eq hcl
    have hkids : ((List.range (n.keys.length + 1)).map fun i =>
        atLe n.encode (VALUES + i * 8) 8) = n.children := by
      rw [← hlinks]
      refine encode_links h0 fun c hc => ?_
      rw [hlinks] at hc
      exact (hcv c hc).2
    rw [if_neg h0, hkids, if_neg]
    · obtain ⟨l, g, ks, vs, cs⟩ := n
      simp_all
    · simp only [any_eq_true, beq_iff_eq, not_exists, not_and]
      intro c hc
      exact Nat.ne_of_gt (hcv c hc).1

theorem parseKeys_ok {block : Image} {before : Option Key} {start n : Nat}
    (h : parseKeys block before start n = .ok keys) :
    keys.length = n ∧ (∀ k ∈ keys, k.Valid) ∧ keys.Pairwise (· < ·)
      ∧ ∀ b, before = some b → ∀ k ∈ keys, b < k := by
  induction n generalizing before start keys with
  | zero =>
    cases h
    simp
  | succ n ih =>
    rw [parseKeys] at h
    split at h
    · cases h
    rename_i key hkey
    split at h
    · cases h
    rename_i hbefore
    split at h
    · cases h
    rename_i rest hrest
    cases h
    obtain ⟨hl, hv, hs, hb⟩ := ih hrest
    refine ⟨by simp [hl], ?_, ?_, ?_⟩
    · intro k hk
      rcases mem_cons.mp hk with rfl | hk
      · exact Key.valid_of_parse hkey
      · exact hv k hk
    · exact pairwise_cons.mpr ⟨hb key rfl, hs⟩
    · rintro b rfl k hk
      have hbk : b < key := by simpa using hbefore
      rcases mem_cons.mp hk with rfl | hk
      · exact hbk
      · exact lt_trans hbk (hb key rfl k hk)

theorem wf_of_parse {block : Image} (h : parse block = .ok n) : n.WF := by
  have hgen : atLe block 16 8 < 2 ^ 64 := Nat.lt_of_lt_of_le (atLe_lt _ _ _) (by decide)
  simp only [parse] at h
  split at h
  case isTrue => cases h
  split at h
  case isTrue => cases h
  split at h
  · cases h
  rename_i hdim
  simp only [MAX_HEIGHT, CAPACITY] at hdim
  split at h
  · cases h
  rename_i keys hkeys
  obtain ⟨hl, hv, hs, _⟩ := parseKeys_ok hkeys
  have hlv : (block 12).toNat < 8 := by omega
  have hpos : 0 < keys.length := by omega
  have hle : keys.length ≤ 12 := by omega
  split at h
  case isTrue h0 =>
    cases h
    refine ⟨hlv, hgen, hpos, hle, hv, hs, ?_, fun h => absurd h0 h⟩
    intro _
    refine ⟨by simp [hl], ?_, rfl⟩
    intro v hvm
    obtain ⟨i, _, rfl⟩ := mem_map.mp hvm
    simp [Value.Valid]
  case isFalse h0 =>
    split at h
    · cases h
    rename_i hz
    cases h
    refine ⟨hlv, hgen, hpos, hle, hv, hs, fun h => absurd h h0, ?_⟩
    intro _
    refine ⟨by simp [hl], ?_, rfl⟩
    intro c hc
    refine ⟨Nat.pos_of_ne_zero fun hc0 => hz ?_, ?_⟩
    · exact any_eq_true.mpr ⟨c, hc, by simp [hc0]⟩
    · obtain ⟨i, _, rfl⟩ := mem_map.mp hc
      exact Nat.lt_of_lt_of_le (atLe_lt _ _ _) (by decide)

theorem parse_congr {m m' : Image} (h : ∀ i < 4096, m i = m' i) : parse m = parse m' := by
  have hs : ∀ off n, off + n ≤ 4096 → slice m off n = slice m' off n := by
    intro off n hn
    exact slice_congr fun i hi => h _ (by omega)
  have ha : ∀ off w, off + w ≤ 4096 → atLe m off w = atLe m' off w := by
    intro off w hn
    rw [atLe, hs off w hn, atLe]
  have hc : nodeCrc m = nodeCrc m' := by
    unfold nodeCrc
    rw [hs 0 32 (by omega), hs 36 4060 (by omega)]
  have hk : ∀ (n : Nat) (before : Option Key) (start : Nat), start + n * 272 ≤ 4096 →
      parseKeys m before start n = parseKeys m' before start n := by
    intro n
    induction n with
    | zero => intros; rfl
    | succ n ih =>
      intro before start hn
      have hfst : start + 272 ≤ 4096 := by omega
      have hrest : start + 272 + n * 272 ≤ 4096 := by omega
      rw [parseKeys, parseKeys, hs start KEY_BYTES hfst]
      cases Key.parse (slice m' start KEY_BYTES) with
      | error e => rfl
      | ok key =>
        simp only
        rw [ih (some key) (start + KEY_BYTES) hrest]
  simp only [parse, hs 0 8 (by omega), ha 8 4 (by omega), hc,
    ha 32 4 (by omega), h 12 (by omega), h 13 (by omega),
    ha 16 8 (by omega)]
  split
  · rfl
  split
  · rfl
  split
  · rfl
  rename_i hdim
  simp only [MAX_HEIGHT, CAPACITY] at hdim
  rw [hk _ none HEADER (by simp only [HEADER]; omega)]
  have hv : ((List.range (m' 13).toNat).map fun i =>
      (⟨slice m (VALUES + i * VALUE_BYTES) VALUE_BYTES⟩ : Value))
      = (List.range (m' 13).toNat).map fun i =>
        ⟨slice m' (VALUES + i * VALUE_BYTES) VALUE_BYTES⟩ := by
    refine map_congr_left fun i hi => ?_
    have := mem_range.mp hi
    rw [hs _ _ (by simp only [VALUES, VALUE_BYTES]; omega)]
  have hch : ((List.range ((m' 13).toNat + 1)).map fun i =>
      atLe m (VALUES + i * 8) 8)
      = (List.range ((m' 13).toNat + 1)).map fun i =>
        atLe m' (VALUES + i * 8) 8 := by
    refine map_congr_left fun i hi => ?_
    have := mem_range.mp hi
    rw [ha _ _ (by simp only [VALUES]; omega)]
  rw [hv, hch]

end Node

end Molt.Fs
