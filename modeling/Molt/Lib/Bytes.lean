/-
Bytes behind an address, and the integers laid out in them.

An `Image` gives every address a byte, so a block, a log bank and a
whole disk are all images and a read is never out of range; how far an
image means something is the business of whoever reads it. A codec is a
sequence of `put`s at constant offsets, and its parser a sequence of
`slice`s at the same ones: `slice_put_same` and `slice_put_of_disjoint`
are the two facts a round trip needs. Integers are little-endian.
-/
import Mathlib

namespace Molt.Lib

-- == images

abbrev Image := Nat → UInt8

/-- The image of zeroed memory. -/
def blank : Image := fun _ => 0

/-- The `n` bytes from `off` on. -/
def slice (m : Image) (off n : Nat) : List UInt8 := (List.range n).map fun i => m (off + i)

def put (m : Image) (off : Nat) (bs : List UInt8) : Image := fun i =>
  if off ≤ i ∧ i < off + bs.length then bs.getD (i - off) 0 else m i

variable {m m' : Image} {off off' n w : Nat} {bs : List UInt8}

@[simp] theorem length_slice (m : Image) (off n : Nat) : (slice m off n).length = n := by
  simp [slice]

theorem getElem_slice (i : Nat) (h : i < (slice m off n).length) :
    (slice m off n)[i] = m (off + i) := by
  simp [slice]

theorem put_of_mem {i : Nat} (h₁ : off ≤ i) (h₂ : i < off + bs.length) :
    put m off bs i = bs.getD (i - off) 0 := by
  simp [put, h₁, h₂]

theorem put_of_not_mem {i : Nat} (h : i < off ∨ off + bs.length ≤ i) : put m off bs i = m i := by
  unfold put
  rw [if_neg]
  omega

theorem slice_congr (h : ∀ i < n, m (off + i) = m' (off' + i)) :
    slice m off n = slice m' off' n := by
  unfold slice
  refine List.map_congr_left fun i hi => h i ?_
  simpa using hi

theorem slice_put_same (m : Image) (off : Nat) (bs : List UInt8) :
    slice (put m off bs) off bs.length = bs := by
  refine List.ext_getElem (by simp) fun i h₁ h₂ => ?_
  rw [getElem_slice, put_of_mem (by omega) (by omega), List.getD_eq_getElem _ _ (by omega)]
  congr 1
  omega

theorem slice_put_of_disjoint
    (h : off + n ≤ off' ∨ off' + bs.length ≤ off) :
    slice (put m off' bs) off n = slice m off n := by
  refine slice_congr fun i hi => put_of_not_mem ?_
  omega

theorem slice_put_of_subset (h₁ : off' ≤ off)
    (h₂ : off + n ≤ off' + bs.length) :
    slice (put m off' bs) off n = (bs.drop (off - off')).take n := by
  refine List.ext_getElem ?_ fun i h₃ h₄ => ?_
  · simp only [length_slice, List.length_take, List.length_drop]
    omega
  · rw [length_slice] at h₃
    rw [getElem_slice, put_of_mem (by omega) (by omega),
      List.getD_eq_getElem _ _ (by omega), List.getElem_take,
      List.getElem_drop]
    congr 1
    omega

theorem slice_append (m : Image) (off a b : Nat) :
    slice m off (a + b) = slice m off a ++ slice m (off + a) b := by
  simp [slice, List.range_add, Nat.add_assoc]

def leBytes : Nat → Nat → List UInt8
  | 0, _ => []
  | w + 1, v => UInt8.ofNat v :: leBytes w (v / 256)

/-- The integer little-endian bytes stand for. -/
def leNat : List UInt8 → Nat
  | [] => 0
  | b :: bs => b.toNat + 256 * leNat bs

@[simp] theorem length_leBytes (w v : Nat) : (leBytes w v).length = w := by
  induction w generalizing v with
  | zero => rfl
  | succ w ih => simp [leBytes, ih]

theorem leNat_leBytes (w v : Nat) : leNat (leBytes w v) = v % 256 ^ w := by
  induction w generalizing v with
  | zero => simp [leBytes, leNat, Nat.mod_one]
  | succ w ih =>
    have hsplit : v % 256 ^ (w + 1) = v % 256 + 256 * (v / 256 % 256 ^ w) := by
      rw [Nat.pow_succ', Nat.mod_mul]
    rw [leBytes, leNat, ih, UInt8.toNat_ofNat', hsplit]

theorem leNat_lt (bs : List UInt8) : leNat bs < 256 ^ bs.length := by
  induction bs with
  | nil => simp [leNat]
  | cons b bs ih =>
    have hb := b.toNat_lt
    rw [leNat, List.length_cons, Nat.pow_succ']
    omega

theorem leBytes_leNat (bs : List UInt8) : leBytes bs.length (leNat bs) = bs := by
  induction bs with
  | nil => rfl
  | cons b bs ih =>
    have hb := b.toNat_lt
    have hhead : UInt8.ofNat (b.toNat + 256 * leNat bs) = b := by
      apply UInt8.toNat_inj.mp
      rw [UInt8.toNat_ofNat']
      omega
    have htail : (b.toNat + 256 * leNat bs) / 256 = leNat bs := by omega
    rw [List.length_cons, leBytes, leNat, hhead, htail, ih]

def atLe (m : Image) (off w : Nat) : Nat := leNat (slice m off w)

theorem atLe_lt (m : Image) (off w : Nat) : atLe m off w < 256 ^ w := by
  have h := leNat_lt (slice m off w)
  rwa [length_slice] at h

theorem atLe_put_same (m : Image) (off w v : Nat) :
    atLe (put m off (leBytes w v)) off w = v % 256 ^ w := by
  have h := slice_put_same m off (leBytes w v)
  rw [length_leBytes] at h
  rw [atLe, h, leNat_leBytes]

theorem atLe_put_of_disjoint (h : off + w ≤ off' ∨ off' + bs.length ≤ off) :
    atLe (put m off' bs) off w = atLe m off w := by
  rw [atLe, slice_put_of_disjoint h, atLe]

end Molt.Lib
