/-
The wire format of calls, both ways.

A word is two halves. A region is written as them and read from them, and a
tag or a set of rights is a word whose upper half is zero; the rest of a slot
is compared with zero or copied. So a slot is accepted only if it is what its
call encodes to.
-/
import Molt.Abi.Wire

namespace Molt.Abi

-- == halves

theorem low_join (a b : UInt32) : (a.toUInt64 ||| b.toUInt64 <<< 32).toUInt32 = a := by
  apply UInt32.eq_of_toBitVec_eq
  ext i hi
  simp

theorem high_join (a b : UInt32) : ((a.toUInt64 ||| b.toUInt64 <<< 32) >>> 32).toUInt32 = b := by
  apply UInt32.eq_of_toBitVec_eq
  ext i hi
  simp
  grind

theorem join_halves (w : UInt64) :
    w.toUInt32.toUInt64 ||| (w >>> 32).toUInt32.toUInt64 <<< 32 = w := by
  apply UInt64.eq_of_toBitVec_eq
  ext i hi
  simp [-UInt64.toUInt64_toUInt32, -BitVec.setWidth_setWidth]
  grind

theorem high_small (a : UInt32) : a.toUInt64 >>> 32 = 0 := by
  apply UInt64.eq_of_toBitVec_eq
  ext i hi
  simp

theorem low_of_high_zero {w : UInt64} (h : w >>> 32 = 0) : w.toUInt32.toUInt64 = w := by
  have hjoin := join_halves w
  rw [h] at hjoin
  simpa using hjoin

-- == regions

theorem Mask.passed_of (held : Bool) : (of held).passed = held := by
  cases held <;> rfl

theorem Mask.apply_of {held : Bool} (h : (of held).passed = true) (value : UInt64) :
    (of held).apply value = value := by
  rw [passed_of] at h
  rw [h]
  exact UInt64.and_neg_one

/-- The mask changes nothing of a region that fits. -/
theorem Region.within_eq {r : Region} {bytes : Nat} (h : r.fits bytes = true) :
    r.within bytes = r := by
  simp only [within, inside, Mask.apply_of h, UInt32.toUInt32_toUInt64]

theorem Region.decode_encode (r : Region) :
    decode r.encode = if r.fits APERTURE then .ok r else .error .region := by
  simp only [decode, encode, low_join, high_join]
  by_cases hfits : r.fits APERTURE = true
  · rw [if_pos hfits, if_pos hfits, within_eq hfits]
  · rw [if_neg hfits, if_neg hfits]

theorem Region.encode_decode {w : UInt64} {r : Region} (h : decode w = .ok r) : r.encode = w := by
  unfold decode at h
  dsimp only at h
  split at h
  case isTrue hfits =>
    rw [within_eq hfits] at h
    cases h
    exact join_halves w
  case isFalse => cases h

-- == calls

variable {id w first second : UInt64} {c : Call} {f : Region → Op} {op : Op}

theorem buffer_encode (f : Region → Op) (r : Region) :
    (do let op ← f <$> Region.decode r.encode; pure (⟨id, op⟩ : Call))
      = if r.fits APERTURE then .ok ⟨id, f r⟩ else .error .region := by
  rw [Region.decode_encode]
  by_cases hfits : r.fits APERTURE = true
  · rw [if_pos hfits, if_pos hfits]
    rfl
  · rw [if_neg hfits, if_neg hfits]
    rfl

theorem Call.parse_encode (c : Call) :
    parse c.encode = if c.op.region.all fun r => r.fits APERTURE then .ok c
      else .error .region := by
  obtain ⟨id, op⟩ := c
  have hlow : op.tag.toUInt64.toUInt32 = op.tag := by simp
  simp only [parse, encode, word, List.getD_cons_zero, List.getD_cons_succ, high_small, hlow,
    ne_eq, not_true_eq_false, or_self, if_false]
  cases op with
  | flush cap | close cap | timer ticks =>
    simp [Op.tag, Op.words, Op.region, zeroed]
  | grant channel cap rights =>
    simp [Op.tag, Op.words, Op.region, zeroed, high_small]
  | read cap offset buf => exact buffer_encode (Op.read cap offset) buf
  | write cap offset buf => exact buffer_encode (Op.write cap offset) buf
  | openAt dir name => exact buffer_encode (Op.openAt dir) name
  | send cap buf => exact buffer_encode (Op.send cap) buf
  | recv cap buf => exact buffer_encode (Op.recv cap) buf
  | message channel buf => exact buffer_encode (Op.message channel) buf

theorem buffer_ok (h : (do let op ← f <$> Region.decode w; pure (⟨id, op⟩ : Call)) = .ok c) :
    ∃ r : Region, c = ⟨id, f r⟩ ∧ r.encode = w := by
  cases hr : Region.decode w with
  | error e =>
    rw [hr] at h
    cases h
  | ok r =>
    rw [hr] at h
    cases h
    exact ⟨r, rfl, Region.encode_decode hr⟩

theorem payload_ok
    (h : (do let op ← f <$> payload first second; pure (⟨id, op⟩ : Call)) = .ok c) :
    ∃ r : Region, c = ⟨id, f r⟩ ∧ r.encode = first ∧ second = 0 := by
  unfold payload at h
  by_cases hzero : second = 0
  · rw [if_neg (not_not.mpr hzero)] at h
    obtain ⟨r, rfl, hr⟩ := buffer_ok h
    exact ⟨r, rfl, hr, hzero⟩
  · rw [if_pos hzero] at h
    cases h

theorem zeroed_ok {unused : List UInt64}
    (h : (do let op ← zeroed unused op; pure (⟨id, op⟩ : Call)) = .ok c) :
    c = ⟨id, op⟩ ∧ ∀ w ∈ unused, w = 0 := by
  unfold zeroed at h
  by_cases hzero : ∀ w ∈ unused, w = 0
  · rw [if_pos hzero] at h
    cases h
    exact ⟨rfl, hzero⟩
  · rw [if_neg hzero] at h
    cases h

theorem Call.encode_of_parse {words : Words} (hlen : words.length = SLOT_WORDS)
    (h : parse words = .ok c) : c.encode = words := by
  match words, hlen with
  | [id, tag, first, second, third, w5, w6, w7], _ =>
    simp only [parse, word, List.getD_cons_zero, List.getD_cons_succ] at h
    split at h
    case isTrue => cases h
    case isFalse hreserved =>
      push Not at hreserved
      obtain ⟨htag, rfl, rfl, rfl⟩ := hreserved
      have htag := low_of_high_zero htag
      generalize tag.toUInt32 = low at h htag
      subst htag
      split at h
      case h_1 | h_2 =>
        obtain ⟨r, rfl, rfl⟩ := buffer_ok h
        rfl
      case h_3 | h_5 | h_8 =>
        obtain ⟨rfl, hzero⟩ := zeroed_ok h
        obtain ⟨rfl, rfl⟩ : second = 0 ∧ third = 0 := by simpa using hzero
        rfl
      case h_4 | h_6 | h_7 | h_9 =>
        obtain ⟨r, rfl, rfl, rfl⟩ := payload_ok h
        rfl
      case h_10 =>
        obtain ⟨rfl, hzero⟩ := zeroed_ok h
        have hthird := low_of_high_zero (hzero _ List.mem_cons_self)
        simp only [encode, Op.words, hthird]
        rfl
      case h_11 => cases h

/-- A call is read back from its own slot unless its region leaves the
aperture, and a slot that is accepted is the one its call is written as. -/
theorem calls_and_accepted_slots_correspond :
    (∀ c : Call, Call.parse c.encode
        = if ∀ r ∈ c.op.region, r.offset.toNat + r.len.toNat ≤ 2 ^ 32 then .ok c
          else .error .region)
      ∧ ∀ (words : Words) (c : Call), words.length = SLOT_WORDS → Call.parse words = .ok c →
        c.encode = words := by
  refine ⟨fun c => ?_, fun words c hlen h => Call.encode_of_parse hlen h⟩
  rw [Call.parse_encode]
  have hfits : (c.op.region.all fun r => r.fits APERTURE) = true
      ↔ ∀ r ∈ c.op.region, r.offset.toNat + r.len.toNat ≤ 2 ^ 32 := by
    cases c.op.region with
    | none => simp
    | some r =>
      simp only [Option.all_some, Option.mem_some_iff, forall_eq', Region.fits, Region.inside,
        Mask.passed_of]
      exact decide_eq_true_iff
  simp only [hfits]

theorem calls_and_accepted_slots_correspond_read :
    Call.parse [7, 1, 3, 512, 0x20000001000, 0, 0, 0] = .ok ⟨7, .read 3 512 ⟨4096, 512⟩⟩
      ∧ Call.encode ⟨7, .read 3 512 ⟨4096, 512⟩⟩ = [7, 1, 3, 512, 0x20000001000, 0, 0, 0] := by
  have hparse : Call.parse [7, 1, 3, 512, 0x20000001000, 0, 0, 0]
      = .ok ⟨7, .read 3 512 ⟨4096, 512⟩⟩ := by decide +kernel
  exact ⟨hparse, calls_and_accepted_slots_correspond.2 _ _ rfl hparse⟩

end Molt.Abi
