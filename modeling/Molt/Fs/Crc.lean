/-
crc32c, the checksum every block on a volume carries (`crc.rs`).

There are two paths. The portable one takes eight bytes a round through
the eight tables, the tail a byte at a time; a table entry is computed
where the source looks it up, from the same two recurrences that fill
the table (`table`). On x86_64 with SSE4.2 the `crc32` instruction takes
the rounds and the tail (`intrinsic`). Which one runs is `present`; the
portable one, which every port has, where it is not given.

# Why rounds do not show

A checksum over a payload is taken in one piece when the payload is
written and in pieces cut at block boundaries when it is read back, so
the two only agree if the fold does not remember where its rounds
began. `sliced_eq_foldl` says it does not: a round is eight byte steps.
The reason is linearity. Pushing one byte's worth of zero bits through
the register (`residue 8`) commutes with xor, a byte step is that push
applied to the register xored with the byte, and `table n` is the push
iterated `n + 1` times; a round then is the sum of what each of its
eight bytes contributes. The instruction divides the same polynomial
from the other end (`mod2_mirror`).
-/
import Molt.Lib.Bytes

namespace Molt.Fs

open Lib BitVec

-- == the definitions

/-- The reflected Castagnoli polynomial. -/
def POLY : BitVec 32 := 0x82f63b78#32

/-- One bit of a residue: `(residue >> 1) ^ (POLY & -(residue & 1))`. -/
def residueBit (residue : BitVec 32) : BitVec 32 :=
  (residue >>> 1) ^^^ (POLY &&& -(residue &&& 1#32))

/-- `bits` bits of a residue. -/
def residue : (bits : Nat) → BitVec 32 → BitVec 32
  | 0, r => r
  | bits + 1, r => residue bits (residueBit r)

/-- `TABLE[slice][byte]`: the residue of `byte` shifted `slice` places. -/
def table : (slice : Nat) → (byte : BitVec 32) → BitVec 32
  | 0, byte => residue 8 byte
  | slice + 1, byte =>
    let shorter := table slice byte
    (shorter >>> 8) ^^^ residue 8 (shorter &&& 0xff#32)

def word (byte : UInt8) : BitVec 32 := BitVec.ofNat 32 byte.toNat

/-- The four bytes of a little-endian word. -/
def word4 (b₀ b₁ b₂ b₃ : UInt8) : BitVec 32 :=
  word b₀ ^^^ (word b₁ <<< 8) ^^^ (word b₂ <<< 16) ^^^ (word b₃ <<< 24)

def foldByte (crc : BitVec 32) (byte : UInt8) : BitVec 32 :=
  (crc >>> 8) ^^^ table 0 ((crc ^^^ word byte) &&& 0xff#32)

/-- One round of eight bytes. -/
def foldRound (crc : BitVec 32) (b₀ b₁ b₂ b₃ b₄ b₅ b₆ b₇ : UInt8) : BitVec 32 :=
  let low := word4 b₀ b₁ b₂ b₃ ^^^ crc
  let high := word4 b₄ b₅ b₆ b₇
  table 7 (low &&& 0xff#32) ^^^ table 6 (low >>> 8 &&& 0xff#32)
    ^^^ table 5 (low >>> 16 &&& 0xff#32) ^^^ table 4 (low >>> 24)
    ^^^ table 3 (high &&& 0xff#32) ^^^ table 2 (high >>> 8 &&& 0xff#32)
    ^^^ table 1 (high >>> 16 &&& 0xff#32) ^^^ table 0 (high >>> 24)

/-- Folds eight bytes a round through the table, then the tail a byte at
a time. -/
def sliced : BitVec 32 → List UInt8 → BitVec 32
  | crc, b₀ :: b₁ :: b₂ :: b₃ :: b₄ :: b₅ :: b₆ :: b₇ :: rest =>
    sliced (foldRound crc b₀ b₁ b₂ b₃ b₄ b₅ b₆ b₇) rest
  | crc, tail => tail.foldl foldByte crc

/-- The generator the instruction divides by. -/
def CASTAGNOLI : Nat := 0x11edc6f41

/-- `MOD2`: what is left of the low `n + 32` bits, the highest bits taken first. -/
def mod2 {w : Nat} : Nat → BitVec w → BitVec w
  | 0, t => t
  | n + 1, t => mod2 n (if t.getLsbD (n + 32) then t ^^^ (BitVec.ofNat w CASTAGNOLI <<< n) else t)

/-- The `crc32` instruction, as its manual has it: the operands are reflected,
moved past each other and divided, and what is left is reflected again. -/
def crc32 {w : Nat} (dest : BitVec 32) (src : BitVec w) : BitVec 32 :=
  let temp := (src.reverse.setWidth (w + 32) <<< 32) ^^^ (dest.reverse.setWidth (w + 32) <<< w)
  ((mod2 w temp).setWidth 32).reverse

/-- `_mm_crc32_u8`. -/
def crcU8 (crc : BitVec 32) (byte : UInt8) : BitVec 32 := crc32 crc byte.toBitVec

/-- `_mm_crc32_u64`: the high half of the register is ignored, and cleared. -/
def crcU64 (wide word : BitVec 64) : BitVec 64 := (crc32 (wide.setWidth 32) word).setWidth 64

/-- `intrinsic::fold`. -/
def intrinsic : BitVec 64 → List UInt8 → BitVec 32
  | wide, b₀ :: b₁ :: b₂ :: b₃ :: b₄ :: b₅ :: b₆ :: b₇ :: rest =>
    intrinsic (crcU64 wide (BitVec.ofNat 64 (leNat [b₀, b₁, b₂, b₃, b₄, b₅, b₆, b₇]))) rest
  | wide, tail => tail.foldl crcU8 (wide.setWidth 32)

/-- Which path is taken depends on what `cpuid` reports, and on the build. -/
def fold (present : Bool) (crc : BitVec 32) (bytes : List UInt8) : BitVec 32 :=
  if present then intrinsic (crc.setWidth 64) bytes else sliced crc bytes

/-- A crc32c accumulated over any number of pieces. -/
structure Crc where
  state : BitVec 32
  deriving DecidableEq

namespace Crc

/-- `Crc::new`. -/
def new : Crc := ⟨0xffffffff#32⟩

/-- `Crc::update`. -/
def update (crc : Crc) (bytes : List UInt8) (present : Bool := false) : Crc :=
  ⟨fold present crc.state bytes⟩

/-- `Crc::finish`. -/
def finish (crc : Crc) : Nat := (~~~ crc.state).toNat

end Crc

def crc32c (bytes : List UInt8) (present : Bool := false) : Nat :=
  (Crc.new.update bytes present).finish

-- == linearity

theorem residueBit_eq (x : BitVec 32) :
    residueBit x = (x >>> 1) ^^^ (if x.getLsbD 0 then POLY else 0#32) := by
  unfold residueBit
  rw [and_one_eq_setWidth_ofBool_getLsbD]
  cases x.getLsbD 0 <;> rfl

theorem residueBit_xor (x y : BitVec 32) :
    residueBit (x ^^^ y) = residueBit x ^^^ residueBit y := by
  rw [residueBit_eq, residueBit_eq, residueBit_eq, ushiftRight_xor_distrib, getLsbD_xor]
  generalize x >>> 1 = x'
  generalize y >>> 1 = y'
  cases x.getLsbD 0 <;> cases y.getLsbD 0
  · simp
  · simp [BitVec.xor_assoc]
  · simp only [Bool.xor_false, if_true, BitVec.xor_zero, Bool.false_eq_true, if_false]
    rw [BitVec.xor_assoc, BitVec.xor_comm y', BitVec.xor_assoc]
  · simp only [Bool.xor_self, Bool.false_eq_true, if_false, if_true, BitVec.xor_zero]
    rw [BitVec.xor_assoc, BitVec.xor_comm y', ← BitVec.xor_assoc POLY POLY,
      BitVec.xor_self, BitVec.zero_xor]

theorem residue_xor (n : Nat) (x y : BitVec 32) :
    residue n (x ^^^ y) = residue n x ^^^ residue n y := by
  induction n generalizing x y with
  | zero => rfl
  | succ n ih => rw [residue, residue, residue, residueBit_xor, ih]

theorem residue_shiftLeft {y : BitVec 32} (hy : y.toNat < 2 ^ 24) {n : Nat}
    (hn : n ≤ 8) : residue n (y <<< n) = y := by
  induction n with
  | zero => simp [residue]
  | succ n ih =>
    have hbit : (y <<< (n + 1)).getLsbD 0 = false := by simp
    have hdown : residueBit (y <<< (n + 1)) = y <<< n := by
      rw [residueBit_eq, hbit]
      simp only [Bool.false_eq_true, if_false, xor_zero]
      apply eq_of_toNat_eq
      simp only [toNat_ushiftRight, toNat_shiftLeft, Nat.shiftLeft_eq, Nat.shiftRight_eq_div_pow]
      have hn' : n < 8 := by omega
      interval_cases n <;> omega
    rw [residue, hdown, ih (by omega)]

theorem split_low (x : BitVec 32) : x = ((x >>> 8) <<< 8) ^^^ (x &&& 0xff#32) := by
  apply eq_of_getLsbD_eq
  intro i hi
  have hmask : (0xff#32).getLsbD i = decide (i < 8) := by
    interval_cases i <;> rfl
  rw [getLsbD_xor, getLsbD_shiftLeft, getLsbD_ushiftRight, getLsbD_and, hmask]
  by_cases h : i < 8
  · simp [h]
  · have h8 : 8 + (i - 8) = i := by omega
    simp [h, hi, h8]

/-- Eight bits of any register: the high bytes shift down, the low byte
is looked up. -/
theorem residue_eight (x : BitVec 32) : residue 8 x = (x >>> 8) ^^^ residue 8 (x &&& 0xff#32) := by
  have hhigh : (x >>> 8).toNat < 2 ^ 24 := by
    have hx := x.isLt
    rw [toNat_ushiftRight, Nat.shiftRight_eq_div_pow]
    omega
  conv_lhs => rw [split_low x]
  rw [residue_xor, residue_shiftLeft hhigh (Nat.le_refl 8)]

theorem foldByte_eq (crc : BitVec 32) (byte : UInt8) :
    foldByte crc byte = residue 8 (crc ^^^ word byte) := by
  have hbyte : (crc ^^^ word byte) >>> 8 = crc >>> 8 := by
    have hz : word byte >>> 8 = 0#32 := by
      have hb := byte.toNat_lt
      apply eq_of_toNat_eq
      simp only [word, toNat_ushiftRight, toNat_ofNat, Nat.shiftRight_eq_div_pow]
      omega
    rw [ushiftRight_xor_distrib, hz, xor_zero]
  rw [residue_eight, hbyte]
  rfl

-- == a round is eight steps

/-- `n` bytes' worth of zero bits. -/
def push : Nat → BitVec 32 → BitVec 32
  | 0, x => x
  | n + 1, x => residue 8 (push n x)

theorem push_xor (n : Nat) (x y : BitVec 32) : push n (x ^^^ y) = push n x ^^^ push n y := by
  induction n with
  | zero => rfl
  | succ n ih => rw [push, push, push, ih, residue_xor]

theorem push_comm (n : Nat) (x : BitVec 32) : push n (residue 8 x) = push (n + 1) x := by
  induction n with
  | zero => rfl
  | succ n ih =>
    rw [push, ih]
    rfl

theorem table_eq_push (n : Nat) (x : BitVec 32) : table n x = push (n + 1) x := by
  induction n with
  | zero => rfl
  | succ n ih =>
    rw [table, ih, ← residue_eight]
    rfl

theorem push_shiftLeft {y : BitVec 32} (hy : y.toNat < 2 ^ 8) (n : Nat)
    {k : Nat} (hk : k ≤ 3) :
    push (n + k) (y <<< (8 * k)) = push n y := by
  induction k with
  | zero => simp
  | succ k ih =>
    have hsmall : (y <<< (8 * k)).toNat < 2 ^ 24 := by
      rw [toNat_shiftLeft, Nat.shiftLeft_eq]
      have hk' : k < 3 := by omega
      interval_cases k <;> omega
    have hshift : y <<< (8 * (k + 1)) = (y <<< (8 * k)) <<< 8 := by
      rw [Nat.mul_add, shiftLeft_add]
    rw [← Nat.add_assoc, ← push_comm, hshift,
      residue_shiftLeft hsmall (Nat.le_refl 8), ih (by omega)]

theorem word_lt (b : UInt8) : (word b).toNat < 2 ^ 8 := by
  have hb := b.toNat_lt
  rw [word, toNat_ofNat]
  omega

theorem push_word4 (n : Nat) (b0 b1 b2 b3 : UInt8) :
    push (n + 4) (word4 b0 b1 b2 b3)
      = push (n + 4) (word b0) ^^^ push (n + 3) (word b1)
        ^^^ push (n + 2) (word b2) ^^^ push (n + 1) (word b3) := by
  rw [word4, push_xor, push_xor, push_xor]
  rw [show n + 4 = (n + 3) + 1 from rfl, push_shiftLeft (word_lt b1) (n + 3)
      (k := 1) (by omega), show n + 3 + 1 = (n + 2) + 2 from rfl,
    push_shiftLeft (word_lt b2) (n + 2) (k := 2) (by omega),
    show n + 2 + 2 = (n + 1) + 3 from rfl,
    push_shiftLeft (word_lt b3) (n + 1) (k := 3) (by omega)]

theorem push_bytes (n : Nat) (x : BitVec 32) :
    push (n + 4) x
      = push (n + 4) (x &&& 0xff#32) ^^^ push (n + 3) (x >>> 8 &&& 0xff#32)
        ^^^ push (n + 2) (x >>> 16 &&& 0xff#32) ^^^ push (n + 1) (x >>> 24) := by
  -- each round of the split peels the low byte off what is left
  have step : ∀ (k : Nat) (y : BitVec 32),
      push (k + 1) y = push (k + 1) (y &&& 0xff#32) ^^^ push k (y >>> 8) := by
    intro k y
    have hhigh : (y >>> 8).toNat < 2 ^ 24 := by
      have hy := y.isLt
      rw [toNat_ushiftRight, Nat.shiftRight_eq_div_pow]
      omega
    conv_lhs => rw [split_low y, push_xor, ← push_comm, residue_shiftLeft hhigh (Nat.le_refl 8)]
    rw [BitVec.xor_comm]
  rw [step (n + 3) x, step (n + 2) (x >>> 8), step (n + 1) (x >>> 8 >>> 8),
    ← BitVec.shiftRight_add, ← BitVec.shiftRight_add]
  simp only [BitVec.xor_assoc, Nat.reduceAdd]

theorem foldByte_four (crc : BitVec 32) (b0 b1 b2 b3 : UInt8) :
    foldByte (foldByte (foldByte (foldByte crc b0) b1) b2) b3
      = push 4 (word4 b0 b1 b2 b3 ^^^ crc) := by
  rw [push_xor, push_word4 0]
  simp only [foldByte_eq, residue_xor, push, xor_assoc]
  ac_rfl

theorem foldRound_eq (crc : BitVec 32) (b0 b1 b2 b3 b4 b5 b6 b7 : UInt8) :
    foldRound crc b0 b1 b2 b3 b4 b5 b6 b7
      = [b0, b1, b2, b3, b4, b5, b6, b7].foldl foldByte crc := by
  simp only [List.foldl_cons, List.foldl_nil]
  rw [foldByte_four crc, foldByte_four, push_xor]
  have hcomm : push 4 (push 4 (word4 b0 b1 b2 b3 ^^^ crc))
      = push 8 (word4 b0 b1 b2 b3 ^^^ crc) := rfl
  rw [hcomm, push_bytes 4, push_bytes 0 (word4 b4 b5 b6 b7)]
  simp only [foldRound, table_eq_push, xor_assoc]
  ac_rfl

theorem sliced_eq_foldl (crc : BitVec 32) (bytes : List UInt8) :
    sliced crc bytes = bytes.foldl foldByte crc := by
  fun_induction sliced crc bytes with
  | case1 crc b0 b1 b2 b3 b4 b5 b6 b7 rest ih =>
    rw [ih, foldRound_eq, ← List.foldl_append]
    rfl
  | case2 crc tail h => rfl

-- == the instruction is byte steps

/-- A register without an end, by its bits, and `n` steps of the division on it. -/
def steps : Nat → (Nat → Bool) → Nat → Bool
  | 0, f => f
  | n + 1, f => steps n fun j => f (j + 1) ^^ (f 0 && POLY.getLsbD j)

theorem steps_add (m n : Nat) (f : Nat → Bool) : steps (m + n) f = steps n (steps m f) := by
  induction m generalizing f with
  | zero => rw [Nat.zero_add, steps]
  | succ m ih => rw [Nat.succ_add, steps, ih, steps]

theorem steps_xor (n : Nat) (f g : Nat → Bool) :
    steps n (fun j => f j ^^ g j) = fun j => steps n f j ^^ steps n g j := by
  induction n generalizing f g with
  | zero => rfl
  | succ n ih =>
    rw [steps, steps, steps, ← ih]
    congr 1
    funext j
    cases f (j + 1) <;> cases g (j + 1) <;> cases f 0 <;> cases g 0 <;> simp

theorem steps_shifted (n : Nat) (f : Nat → Bool) :
    steps n (fun j => decide (n ≤ j) && f (j - n)) = f := by
  induction n generalizing f with
  | zero => simp [steps]
  | succ n ih =>
    rw [steps]
    refine Eq.trans ?_ (ih f)
    simp

theorem steps_residue (n : Nat) (x : BitVec 32) : steps n x.getLsbD = (residue n x).getLsbD := by
  induction n generalizing x with
  | zero => rfl
  | succ n ih =>
    rw [steps, residue, ← ih, residueBit_eq]
    congr 1
    funext j
    rw [getLsbD_xor, getLsbD_ushiftRight, Nat.add_comm 1 j]
    cases x.getLsbD 0 <;> simp

theorem castagnoli_getLsbD {w j : Nat} (hw : 33 ≤ w) (hj : j < 32) :
    (BitVec.ofNat w CASTAGNOLI).getLsbD (31 - j) = POLY.getLsbD j := by
  have h : ∀ j < 32, CASTAGNOLI.testBit (31 - j) = POLY.getLsbD j := by decide
  rw [getLsbD_ofNat, h j hj, decide_eq_true (by omega), Bool.true_and]

/-- The division seen from its other end: what is above bit `n + 31` is done
with, and bit `n + 31` is the first of the mirror. -/
theorem mod2_mirror {w n : Nat} {t : BitVec w} {f : Nat → Bool} (hw : n + 32 ≤ w) (hpos : 33 ≤ w)
    (hf : ∀ j, f j = (decide (j < n + 32) && t.getLsbD (n + 31 - j))) {j : Nat} (hj : j < 32) :
    (mod2 n t).getLsbD (31 - j) = steps n f j := by
  induction n generalizing t f with
  | zero =>
    rw [mod2, steps, hf, decide_eq_true (by omega), Bool.true_and, Nat.zero_add]
  | succ n ih =>
    rw [mod2, steps]
    refine ih (by omega) fun j => ?_
    have htop : f 0 = t.getLsbD (n + 32) := by
      rw [hf, decide_eq_true (by omega), Bool.true_and]
      rfl
    rw [hf (j + 1), htop, show n + 1 + 31 - (j + 1) = n + 31 - j by omega]
    by_cases hj : j < n + 32
    case neg =>
      rw [decide_eq_false hj, decide_eq_false (by omega), getLsbD_of_ge POLY j (by omega)]
      simp
    case pos =>
      rw [decide_eq_true hj, decide_eq_true (by omega), Bool.true_and, Bool.true_and]
      have hgen : (BitVec.ofNat w CASTAGNOLI <<< n).getLsbD (n + 31 - j) = POLY.getLsbD j := by
        rw [getLsbD_shiftLeft, decide_eq_true (by omega), Bool.true_and]
        by_cases hlow : j < 32
        · rw [decide_eq_false (by omega), show n + 31 - j - n = 31 - j by omega,
            castagnoli_getLsbD hpos hlow]
          rfl
        · rw [decide_eq_true (by omega), getLsbD_of_ge POLY j (by omega)]
          rfl
      cases t.getLsbD (n + 32)
      · simp
      · rw [if_pos rfl, getLsbD_xor, hgen, Bool.true_and]

theorem crc32_getLsbD {w j : Nat} (hw : 0 < w) (hj : j < 32) (dest : BitVec 32) (src : BitVec w) :
    (crc32 dest src).getLsbD j = steps w (fun j => dest.getLsbD j ^^ src.getLsbD j) j := by
  rw [crc32, getLsbD_reverse, getMsbD_eq_getLsbD, decide_eq_true hj, Bool.true_and,
    getLsbD_setWidth, decide_eq_true (by omega), Bool.true_and]
  refine mod2_mirror le_rfl (by omega) (fun j => ?_) hj
  rw [getLsbD_xor, getLsbD_shiftLeft, getLsbD_shiftLeft, getLsbD_setWidth, getLsbD_setWidth,
    getLsbD_reverse, getLsbD_reverse, getMsbD_eq_getLsbD, getMsbD_eq_getLsbD]
  have hsrc : j < w ∨ src.getLsbD j = false := (Nat.lt_or_ge j w).imp_right (getLsbD_of_ge src j)
  have hdest : j < 32 ∨ dest.getLsbD j = false :=
    (Nat.lt_or_ge j 32).imp_right (getLsbD_of_ge dest j)
  grind

theorem steps_bytes (crc : BitVec 32) (bytes : List UInt8) :
    steps (8 * bytes.length) (fun j => crc.getLsbD j ^^ (leNat bytes).testBit j)
      = (bytes.foldl foldByte crc).getLsbD := by
  induction bytes generalizing crc with
  | nil => simp [steps, leNat]
  | cons b bytes ih =>
    rw [List.foldl_cons, ← ih, List.length_cons, Nat.mul_succ, Nat.add_comm, steps_add]
    congr 1
    have hsplit : (fun j => crc.getLsbD j ^^ (leNat (b :: bytes)).testBit j) = fun j =>
        (crc ^^^ word b).getLsbD j ^^ (decide (8 ≤ j) && (leNat bytes).testBit (j - 8)) := by
      funext j
      rw [leNat, Nat.add_comm, show (256 : Nat) = 2 ^ 8 from rfl,
        Nat.testBit_two_pow_mul_add _ b.toNat_lt, getLsbD_xor, word, getLsbD_ofNat]
      have hbyte : 8 ≤ j → b.toNat.testBit j = false := fun h =>
        Nat.testBit_lt_two_pow (Nat.lt_of_lt_of_le b.toNat_lt (Nat.pow_le_pow_right (by decide) h))
      grind
    rw [hsplit, steps_xor, steps_shifted, steps_residue, foldByte_eq]

theorem crc32_bytes (crc : BitVec 32) {w : Nat} (bytes : List UInt8) (hw : 8 * bytes.length = w)
    (hpos : 0 < w) {src : BitVec w} (hsrc : src.toNat = leNat bytes) :
    crc32 crc src = bytes.foldl foldByte crc := by
  apply eq_of_getLsbD_eq
  intro j hj
  rw [crc32_getLsbD hpos hj, ← steps_bytes, hw]
  congr 1
  funext j
  rw [← hsrc]
  rfl

theorem intrinsic_eq_foldl (crc : BitVec 32) (bytes : List UInt8) :
    intrinsic (crc.setWidth 64) bytes = bytes.foldl foldByte crc := by
  have hlow : ∀ x : BitVec 32, (x.setWidth 64).setWidth 32 = x := fun x => by simp
  generalize hwide : crc.setWidth 64 = wide
  fun_induction intrinsic wide bytes generalizing crc with
  | case1 wide b0 b1 b2 b3 b4 b5 b6 b7 rest ih =>
    subst hwide
    refine (ih _ ?_).trans (List.foldl_append (l := [b0, b1, b2, b3, b4, b5, b6, b7])).symm
    rw [crcU64, hlow, crc32_bytes crc [b0, b1, b2, b3, b4, b5, b6, b7] rfl (by simp)]
    have hlt := leNat_lt [b0, b1, b2, b3, b4, b5, b6, b7]
    exact (toNat_ofNat _ 64).trans (Nat.mod_eq_of_lt (hlt.trans_eq (by simp)))
  | case2 wide tail h =>
    rw [← hwide, hlow]
    congr 1
    funext crc byte
    refine crc32_bytes crc [byte] rfl (by simp) ?_
    simp [leNat]

theorem fold_eq_foldl (present : Bool) (crc : BitVec 32) (bytes : List UInt8) :
    fold present crc bytes = bytes.foldl foldByte crc := by
  cases present
  · exact sliced_eq_foldl crc bytes
  · exact intrinsic_eq_foldl crc bytes
theorem Crc.update_eq (crc : Crc) (bytes : List UInt8) (present : Bool) :
    crc.update bytes present = ⟨bytes.foldl foldByte crc.state⟩ := by
  rw [Crc.update, fold_eq_foldl]

theorem Crc.update_append (crc : Crc) (a b : List UInt8) (present : Bool) :
    (crc.update a present).update b present = crc.update (a ++ b) present := by
  simp only [Crc.update_eq, List.foldl_append]

theorem Crc.update_nil (crc : Crc) (present : Bool) : crc.update [] present = crc :=
  Crc.update_eq crc [] present

theorem Crc.finish_lt (crc : Crc) : crc.finish < 2 ^ 32 := (~~~ crc.state).isLt

theorem crc32c_lt (bytes : List UInt8) : crc32c bytes < 2 ^ 32 := Crc.finish_lt _

end Molt.Fs
