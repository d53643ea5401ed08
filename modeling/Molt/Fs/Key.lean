/-
Names, tree keys and tree values (`name.rs`, and the `Key` and `Value` of
`btree.rs`).

A key on disk is 272 bytes, of which `Key::check` accepts exactly the
three shapes the filesystem writes; the model's `Key` is those shapes and
the all-zero key the unused slots of a node hold. The start key of a
directory, which is searched for but never stored, is the entry with the
empty name.

# The order

Keys compare by tag, then by object, then by name bytes or by extent
end, whatever their byte layout would say (`Key.cmp`). That is the
lexicographic order of `Key.rank`, which is where the linear order comes
from; `<` on keys is `cmp` and nothing else (`Key.lt_iff`).
-/
import Molt.Fs.Layout

namespace Molt.Fs

open Lib List

-- == names

/-- What `Name::new` asks of the bytes of a name. -/
def nameOk (bytes : List UInt8) : Bool :=
  !bytes.isEmpty && decide (bytes.length ≤ MAX_NAME) && bytes.all fun b => b != 0x2f && b != 0

/-- A directory entry's name: between one and 255 bytes, none of them a
separator or a null. -/
structure Name where
  bytes : List UInt8
  valid : nameOk bytes = true
  deriving DecidableEq

/-- `Name::new`. -/
def Name.new (bytes : List UInt8) : Except FsError Name :=
  if h : nameOk bytes = true then .ok ⟨bytes, h⟩ else .error .name

theorem Name.new_bytes (name : Name) : Name.new name.bytes = .ok name := by
  simp [Name.new, name.valid]

theorem nameOk_length {bytes : List UInt8} (h : nameOk bytes = true) :
    0 < bytes.length ∧ bytes.length ≤ 255 := by
  simp only [nameOk, Bool.and_eq_true, Bool.not_eq_true',
    isEmpty_eq_false_iff, decide_eq_true_eq] at h
  exact ⟨length_pos_iff.mpr h.1.1, h.1.2⟩

-- == keys

/-- A typed key of the metadata tree. An extent is keyed on the byte past
its last. -/
inductive Key where
  | zero
  | object (id : Nat)
  | dirent (parent : Nat) (name : List UInt8)
  | extent (obj : Nat) (fin : Nat)
  deriving DecidableEq

namespace Key

/-- `Key::dirent_start`: below every entry of the directory. -/
def direntStart (parent : Nat) : Key := .dirent parent []

/-- `Key::tag`. -/
def tag : Key → Nat
  | .zero => 0
  | .object _ => 1
  | .dirent .. => 2
  | .extent .. => 3

/-- `Key::as_object`. -/
def asObject : Key → Option Nat
  | .object id => some id
  | _ => none

/-- `Key::is_dirent`. -/
def isDirent (parent : Nat) : Key → Bool
  | .dirent p _ => p == parent
  | _ => false

/-- `Key::dirent_parent`. -/
def direntParent : Key → Option Nat
  | .dirent parent _ => some parent
  | _ => none

/-- `Key::extent_object`. -/
def extentObject : Key → Option Nat
  | .extent obj _ => some obj
  | _ => none

/-- `Key::is_extent`. -/
def isExtent (obj : Nat) (k : Key) : Bool := k.extentObject == some obj

/-- `Key::end`: one past the last byte an extent key covers. -/
def fin : Key → Nat
  | .extent _ fin => fin
  | _ => 0

/-- `Key::name`. -/
def name : Key → Except FsError Name
  | .dirent _ bytes =>
    match Name.new bytes with
    | .ok name => .ok name
    | .error _ => .error .corrupt
  | _ => .error .corrupt

/-- What a stored key satisfies: its numbers fit their fields, and an
entry has a name. -/
def Valid : Key → Prop
  | .zero => False
  | .object id => id < 2 ^ 32
  | .dirent parent bytes => parent < 2 ^ 32 ∧ nameOk bytes = true
  | .extent obj fin => obj < 2 ^ 32 ∧ fin < 2 ^ 64

instance : DecidablePred Valid := fun k =>
  match k with
  | .zero => inferInstanceAs (Decidable False)
  | .object id => inferInstanceAs (Decidable (id < 2 ^ 32))
  | .dirent parent bytes =>
    inferInstanceAs (Decidable (parent < 2 ^ 32 ∧ nameOk bytes = true))
  | .extent obj fin =>
    inferInstanceAs (Decidable (obj < 2 ^ 32 ∧ fin < 2 ^ 64))

-- == the order

/-- Slice comparison: bytewise, a proper prefix first. -/
def cmpBytes : List UInt8 → List UInt8 → Ordering
  | [], [] => .eq
  | [], _ :: _ => .lt
  | _ :: _, [] => .gt
  | a :: as, b :: bs => (compare a.toNat b.toNat).then (cmpBytes as bs)

/-- `Key::cmp`. -/
def cmp (a b : Key) : Ordering :=
  (compare a.tag b.tag).then (match a, b with
      | .object x, .object y => compare x y
      | .dirent p n, .dirent q m => (compare p q).then (cmpBytes n m)
      | .extent o e, .extent p f => (compare o p).then (compare e f)
      | _, _ => .eq)

/-- The numbers a key is compared by, first to last. -/
def rank : Key → List Nat
  | .zero => [0]
  | .object id => [1, id]
  | .dirent parent bytes => 2 :: parent :: bytes.map UInt8.toNat
  | .extent obj fin => [3, obj, fin]

theorem map_toNat_inj {as bs : List UInt8}
    (h : as.map UInt8.toNat = bs.map UInt8.toNat) : as = bs :=
  map_injective_iff.mpr (fun _ _ hab => UInt8.toNat_inj.mp hab) h

/-- Keys differ in their ranks. -/
theorem rank_injective : Function.Injective rank := by
  intro a b h
  cases a <;> cases b <;> simp [rank] at h ⊢
  · exact h
  · exact ⟨h.1, map_toNat_inj h.2⟩
  · exact h

/-- The lexicographic comparison of two lists of numbers. -/
def cmpRank : List Nat → List Nat → Ordering
  | [], [] => .eq
  | [], _ :: _ => .lt
  | _ :: _, [] => .gt
  | a :: as, b :: bs => (compare a b).then (cmpRank as bs)

theorem cmpRank_lt (l m : List Nat) : cmpRank l m = .lt ↔ l < m := by
  induction l generalizing m with
  | nil => cases m <;> simp [cmpRank]
  | cons a as ih =>
    cases m with
    | nil => simp [cmpRank]
    | cons b bs =>
      rw [cmpRank, cons_lt_cons_iff, ← ih, Ordering.then_eq_lt,
        compare_lt_iff_lt, compare_eq_iff_eq]

theorem cmpRank_swap (l m : List Nat) : (cmpRank l m).swap = cmpRank m l := by
  induction l generalizing m with
  | nil => cases m <;> rfl
  | cons a as ih =>
    cases m with
    | nil => rfl
    | cons b bs =>
      rw [cmpRank, cmpRank, Ordering.swap_then, ih]
      congr 1
      exact Nat.compare_swap a b

theorem cmpRank_le (l m : List Nat) : cmpRank l m ≠ .gt ↔ l ≤ m := by
  rw [← not_lt, ← cmpRank_lt, ← cmpRank_swap l m]
  cases cmpRank l m <;> decide

theorem cmpBytes_eq (as bs : List UInt8) :
    cmpBytes as bs = cmpRank (as.map UInt8.toNat) (bs.map UInt8.toNat) := by
  induction as generalizing bs with
  | nil => cases bs <;> rfl
  | cons a as ih =>
    cases bs with
    | nil => rfl
    | cons b bs => rw [cmpBytes, ih, map_cons, map_cons, cmpRank]

/-- The order of keys is that of their ranks. -/
theorem cmp_eq_rank (a b : Key) : a.cmp b = cmpRank a.rank b.rank := by
  cases a <;> cases b <;>
    simp [cmp, tag, rank, cmpBytes_eq, cmpRank, Ordering.then_eq] <;> rfl

instance : LT Key := ⟨fun a b => a.cmp b = .lt⟩
instance : LE Key := ⟨fun a b => a.cmp b ≠ .gt⟩

theorem lt_iff {a b : Key} : a < b ↔ a.cmp b = .lt := Iff.rfl
theorem le_iff {a b : Key} : a ≤ b ↔ a.cmp b ≠ .gt := Iff.rfl

instance (a b : Key) : Decidable (a < b) := inferInstanceAs (Decidable (a.cmp b = .lt))
instance (a b : Key) : Decidable (a ≤ b) := inferInstanceAs (Decidable (a.cmp b ≠ .gt))

theorem lt_iff_rank {a b : Key} : a < b ↔ a.rank < b.rank := by
  rw [lt_iff, cmp_eq_rank, cmpRank_lt]

theorem le_iff_rank {a b : Key} : a ≤ b ↔ a.rank ≤ b.rank := by
  rw [le_iff, cmp_eq_rank, cmpRank_le]

instance : LinearOrder Key where
  le_refl a := le_iff_rank.mpr le_rfl
  le_trans a b c hab hbc := le_iff_rank.mpr (le_trans (le_iff_rank.mp hab) (le_iff_rank.mp hbc))
  lt_iff_le_not_ge a b := by
    rw [lt_iff_rank, le_iff_rank, le_iff_rank, lt_iff_le_not_ge]
  le_antisymm a b hab hba := rank_injective (le_antisymm (le_iff_rank.mp hab) (le_iff_rank.mp hba))
  le_total a b := by
    rw [le_iff_rank, le_iff_rank]
    exact le_total _ _
  toDecidableLE := inferInstance
  toDecidableEq := inferInstance
  toDecidableLT := inferInstance

-- == the codec

def encode : Key → List UInt8
  | .zero => List.replicate 272 0
  | .object id => 1 :: leBytes 4 id ++ List.replicate 267 0
  | .dirent parent bytes =>
    2 :: leBytes 4 parent ++ [UInt8.ofNat bytes.length] ++ bytes
      ++ List.replicate (266 - bytes.length) 0
  | .extent obj fin =>
    3 :: leBytes 4 obj ++ List.replicate 3 0 ++ leBytes 8 fin ++ List.replicate 256 0

/-- The key a window of 272 bytes holds, if `Key::check` accepts it. -/
def parse (w : List UInt8) : Except FsError Key :=
  let id := leNat ((w.drop 1).take 4)
  match (w.getD 0 0).toNat with
  | 1 => if (w.drop 5).all (· == 0) then .ok (.object id) else .error .corrupt
  | 2 =>
    let len := (w.getD 5 0).toNat
    if len = 0 ∨ len > MAX_NAME ∨ (w.drop (6 + len)).any (· != 0) then
      .error .corrupt
    else match Name.new ((w.drop 6).take len) with
      | .ok name => .ok (.dirent id name.bytes)
      | .error _ => .error .corrupt
  | 3 =>
    if ((w.drop 5).take 3).all (· == 0) && (w.drop 16).all (· == 0) then
      .ok (.extent id (leNat ((w.drop 8).take 8)))
    else .error .corrupt
  | _ => .error .corrupt

theorem length_encode {k : Key} (hk : k.Valid) : k.encode.length = 272 := by
  cases k with
  | zero => cases hk
  | object | extent => simp [-reduceReplicate, encode]
  | dirent parent bytes =>
    have hlen := nameOk_length hk.2
    simp only [encode, cons_append, length_cons, length_append, length_leBytes, length_replicate,
      length_nil]
    omega

theorem parse_encode {k : Key} (hk : k.Valid) : parse k.encode = .ok k := by
  have hid : ∀ {v : Nat}, v < 2 ^ 32 → leNat (leBytes 4 v) = v := fun hv => by
    rw [leNat_leBytes]
    exact Nat.mod_eq_of_lt (by omega)
  cases k with
  | zero => cases hk
  | object id =>
    have h1 : ((encode (.object id)).drop 1).take 4 = leBytes 4 id := by
      simp [-reduceReplicate, encode]
    have h2 : (encode (.object id)).drop 5 = List.replicate 267 0 := by
      simp [-reduceReplicate, encode]
    unfold parse
    rw [h1, h2, hid hk]
    simp [-reduceReplicate, encode]
  | extent obj fin =>
    have hfin : leNat (leBytes 8 fin) = fin := by
      rw [leNat_leBytes]
      exact Nat.mod_eq_of_lt hk.2
    have h1 : ((encode (.extent obj fin)).drop 1).take 4 = leBytes 4 obj := by
      simp [-reduceReplicate, encode]
    have h2 : ((encode (.extent obj fin)).drop 5).take 3 = List.replicate 3 0 := by
      simp [-reduceReplicate, encode]
    have h3 : ((encode (.extent obj fin)).drop 8).take 8 = leBytes 8 fin := by
      simp [-reduceReplicate, encode, drop_append, drop_of_length_le]
    have h4 : (encode (.extent obj fin)).drop 16 = List.replicate 256 0 := by
      simp [-reduceReplicate, encode, drop_append, drop_of_length_le]
    unfold parse
    rw [h1, h2, h3, h4, hid hk.1, hfin]
    simp [-reduceReplicate, encode]
  | dirent parent bytes =>
    have hlen := nameOk_length hk.2
    have h1 : ((encode (.dirent parent bytes)).drop 1).take 4 = leBytes 4 parent := by
      simp [-reduceReplicate, encode]
    have h2 : (encode (.dirent parent bytes)).getD 5 0 = UInt8.ofNat bytes.length := by
      simp [-reduceReplicate, encode]
    have h3 : (UInt8.ofNat bytes.length).toNat = bytes.length := by
      rw [UInt8.toNat_ofNat']
      exact Nat.mod_eq_of_lt (by omega)
    have h4 : ((encode (.dirent parent bytes)).drop 6).take bytes.length = bytes := by
      simp [-reduceReplicate, encode, drop_append, drop_of_length_le]
    have h5 : (encode (.dirent parent bytes)).drop (6 + bytes.length)
        = List.replicate (266 - bytes.length) 0 := by
      rw [← drop_drop]
      simp [-reduceReplicate, encode, drop_append, drop_of_length_le]
    have h6 : Name.new bytes = .ok ⟨bytes, hk.2⟩ := Name.new_bytes ⟨bytes, hk.2⟩
    have h7 : ¬ (bytes.length = 0 ∨ bytes.length > MAX_NAME
        ∨ (List.replicate (266 - bytes.length) (0 : UInt8)).any (· != 0)) := by
      rintro (h | h | h)
      · omega
      · exact absurd h (by simp only [MAX_NAME]; omega)
      · simp at h
    unfold parse
    simp only [h1, h2, h3, h4, h5, h6, hid hk.1, if_neg h7]
    simp [-reduceReplicate, encode]

theorem valid_of_parse {w : List UInt8} {k : Key} (h : parse w = .ok k) : k.Valid := by
  have hid : leNat ((w.drop 1).take 4) < 2 ^ 32 := by
    have h4 := leNat_lt ((w.drop 1).take 4)
    have hl : ((w.drop 1).take 4).length ≤ 4 := by simp
    calc leNat ((w.drop 1).take 4) < 256 ^ ((w.drop 1).take 4).length := h4
      _ ≤ 256 ^ 4 := Nat.pow_le_pow_right (by decide) hl
      _ = 2 ^ 32 := by decide
  simp only [parse] at h
  split at h
  · split at h
    · cases h
      exact hid
    · cases h
  · split at h
    · cases h
    · split at h
      next name _ =>
        cases h
        exact ⟨hid, name.valid⟩
      next => cases h
  · split at h
    · cases h
      refine ⟨hid, ?_⟩
      have h8 := leNat_lt ((w.drop 8).take 8)
      have hl : ((w.drop 8).take 8).length ≤ 8 := by simp
      calc leNat ((w.drop 8).take 8) < 256 ^ ((w.drop 8).take 8).length := h8
        _ ≤ 256 ^ 8 := Nat.pow_le_pow_right (by decide) hl
        _ = 2 ^ 64 := by decide
    · cases h
  · cases h

end Key

-- == values

/-- The 32 bytes stored under a key; the key says how to read them. -/
structure Value where
  bytes : List UInt8
  deriving DecidableEq

namespace Value

/-- `Value::object`. -/
def object (o : Object) : Value :=
  ⟨o.kind.byte :: List.replicate 3 0 ++ leBytes 4 o.count ++ leBytes 8 o.size
    ++ List.replicate 16 0⟩

/-- `Value::dirent`. -/
def dirent (object : Nat) : Value := ⟨leBytes 4 object ++ List.replicate 28 0⟩

/-- `Value::extent`: a slice of one checksummed write record's payload. -/
def extent (cursor skip len : Nat) : Value :=
  ⟨leBytes 8 cursor ++ leBytes 4 skip ++ leBytes 4 len ++ List.replicate 16 0⟩

/-- `Value::whiteout`: an extent covering nothing. -/
def whiteout : Value := ⟨List.replicate 32 0⟩

/-- `Value::as_object`. -/
def asObject (v : Value) : Except FsError Object :=
  match (v.bytes.getD 0 0).toNat with
  | 0 => .ok ⟨.dir, leNat ((v.bytes.drop 4).take 4), leNat ((v.bytes.drop 8).take 8)⟩
  | 1 => .ok ⟨.file, leNat ((v.bytes.drop 4).take 4), leNat ((v.bytes.drop 8).take 8)⟩
  | _ => .error .corrupt

/-- `Value::as_dirent`. -/
def asDirent (v : Value) : Nat := leNat (v.bytes.take 4)

/-- `Value::as_extent`: cursor, skip and length. -/
def asExtent (v : Value) : Nat × Nat × Nat :=
  (leNat (v.bytes.take 8), leNat ((v.bytes.drop 8).take 4), leNat ((v.bytes.drop 12).take 4))

def Valid (v : Value) : Prop := v.bytes.length = 32

instance : DecidablePred Valid := fun v =>
  inferInstanceAs (Decidable (v.bytes.length = 32))

end Value

end Molt.Fs
