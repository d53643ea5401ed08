/-
Configuration windows that do not wrap.

`span` adds the buses up above the base, so it panics exactly when they do not
fit (`span_panics_iff`); a bus and a function lie inside, each at its own
stride.
-/
import Molt.Platform.Config
import Molt.Platform.Proofs.Fdt

namespace Molt.Platform.Pci

open Molt.Domain Fdt Arch
open Lib (leNat leBytes)

variable {c : ConfigSpace} {bus start stop : Nat} {ε : Type} {e : Error → ε}

theorem Described.ordered (h : Described c) : c.firstBus ≤ c.lastBus := by
  rcases h with ⟨tree, h⟩ | ⟨bytes, h⟩
  · unfold DeviceTree.configSpace at h
    generalize tree.walk Node.visit (Node.new Cells.DEFAULT) = r at h
    obtain e | ⟨_ | node, v⟩ := r
    · cases h
    · cases h
    · have h : node.configSpace = .ok c := h
      have hcalm := Node.configSpace_calm (n := node) fun hback => by
        cases h.symm.trans (Node.configSpace_panics_iff.mpr hback)
      rwa [h] at hcalm
  · unfold mcfg at h
    generalize table bytes (ascii "MCFG") = r at h
    cases r with
    | error e => cases h
    | ok body =>
      simp only [bind, Except.bind] at h
      grind

theorem offset_eq (a : Address) : a.offset = a.device * 2 ^ 15 + a.function * 2 ^ 12 := by
  have hlt : a.function <<< 12 < 2 ^ 15 := by
    have := a.function_lt
    rw [Nat.shiftLeft_eq]
    omega
  rw [Address.offset, ← Nat.shiftLeft_add_eq_or_of_lt hlt, Nat.shiftLeft_eq, Nat.shiftLeft_eq]

theorem new_ok {s : Span} (h : (Span.new start stop).mapError e = .ok s) :
    s.start = start ∧ s.stop = stop := by
  unfold Span.new at h
  split at h <;> cases h
  exact ⟨rfl, rfl⟩

theorem new_quiet : (Span.new start stop).mapError (Stop.error ∘ e) ≠ .error .panic := by
  unfold Span.new
  split <;> simp [Except.mapError]

theorem ite_bind {ε α : Type} {p : Prop} [Decidable p] {n : Nat} {e : ε} {f : Nat → Except ε α} :
    (if p then .ok n else .error e) >>= f = if p then f n else .error e := by
  split <;> rfl

theorem span_eq (h : c.firstBus ≤ c.lastBus) : span c =
    if top c < 2 ^ 64 then (Span.new c.base (top c)).mapError .error else .error .panic := by
  rw [span, minus, ite_bind, if_pos h, top]
  simp only [plus, ite_bind]

theorem span_ok (h : c.firstBus ≤ c.lastBus) {w : Span} (hw : span c = .ok w) :
    w.start = c.base ∧ w.stop = top c := by
  rw [span_eq h] at hw
  split at hw
  · exact new_ok hw
  · cases hw

theorem busSpan_ok {s : Span} (hs : busSpan c bus = .ok s) :
    (c.firstBus ≤ bus ∧ bus ≤ c.lastBus) ∧ ∃ w, span c = .ok w
      ∧ s.start = w.start + (bus - c.firstBus) * BUS_STRIDE ∧ s.stop = s.start + BUS_STRIDE := by
  unfold busSpan at hs
  simp only [plus, ite_bind] at hs
  split at hs
  · cases hs
  split at hs
  · cases hs
  · cases hs
  rename_i w hw
  split_ifs at hs
  obtain ⟨hstart, hstop⟩ := new_ok hs
  exact ⟨by omega, w, hw, hstart, by rw [hstart, hstop]⟩

theorem span_panics_iff (h : c.firstBus ≤ c.lastBus) :
    span c = .error .panic ↔ 2 ^ 64 ≤ top c := by
  rw [span_eq h]
  split
  case isTrue hfits => exact iff_of_false new_quiet (Nat.not_le.mpr hfits)
  case isFalse hwraps => exact iff_of_true rfl (Nat.not_lt.mp hwraps)

/-- Past the range check the sums of `bus_span` are below the end of the window. -/
theorem busSpan_panics_iff (h : c.firstBus ≤ c.lastBus) : busSpan c bus = .error .panic ↔
    (c.firstBus ≤ bus ∧ bus ≤ c.lastBus) ∧ 2 ^ 64 ≤ top c := by
  unfold busSpan
  simp only [plus, ite_bind]
  split
  case isTrue hout => exact iff_of_false (by simp [fail]) (by omega)
  case isFalse hin =>
    have hin : c.firstBus ≤ bus ∧ bus ≤ c.lastBus := by omega
    rw [and_iff_right hin, ← span_panics_iff h]
    split
    case h_1 hspan => exact iff_of_true rfl hspan
    case h_2 e hspan => exact iff_of_false (by simp [fail]) (by rw [hspan]; simp)
    case h_3 w hspan =>
      have hfits : ¬ 2 ^ 64 ≤ top c := by
        rw [← span_panics_iff h, hspan]
        simp
      obtain ⟨hstart, -⟩ := span_ok h hspan
      unfold top BUS_STRIDE at *
      rw [if_pos (by omega), if_pos (by omega), hspan]
      exact iff_of_false new_quiet (by simp)

/-- Of a window that firmware describes, `span` panics exactly if its buses do
not fit above its base, and `bus_span` for the buses of such a window; and buses
and functions have windows of their own. -/
theorem configuration_windows_do_not_wrap (h : Described c) (bus : Nat) :
    (span c = .error .panic ↔ 2 ^ 64 ≤ top c)
      ∧ (busSpan c bus = .error .panic ↔
        (c.firstBus ≤ bus ∧ bus ≤ c.lastBus) ∧ 2 ^ 64 ≤ top c)
      ∧ ∀ s, busSpan c bus = .ok s → (∃ w, span c = .ok w ∧ w.toSpan.Covers s.toSpan)
        ∧ (∀ bus' s', busSpan c bus' = .ok s' → bus' ≠ bus → s'.toSpan.Apart s.toSpan)
        ∧ ∀ a : Address, s.toSpan.Covers (a.window s)
          ∧ ∀ a' : Address, a' ≠ a → (a'.window s).Apart (a.window s) := by
  refine ⟨span_panics_iff h.ordered, busSpan_panics_iff h.ordered, fun s hs => ?_⟩
  obtain ⟨hin, w, hw, hstart, hstop⟩ := busSpan_ok hs
  have hends := span_ok h.ordered hw
  unfold Lib.Span.Covers Lib.Span.Apart Address.window
  refine ⟨⟨w, hw, ?_⟩, fun bus' s' hs' hne => ?_, fun a => ?_⟩
  · unfold top BUS_STRIDE at *
    omega
  · obtain ⟨hin', w', hw', hstart', hstop'⟩ := busSpan_ok hs'
    cases hw.symm.trans hw'
    unfold BUS_STRIDE at *
    omega
  · have := a.device_lt
    have := a.function_lt
    simp only [offset_eq]
    refine ⟨by unfold BUS_STRIDE at *; omega, fun a' hne => ?_⟩
    have hne : ¬ (a'.device = a.device ∧ a'.function = a.function) := fun heq =>
      hne (Address.ext heq.1 heq.2)
    have := a'.function_lt
    omega

/-- A table that describes the buses from 0 to `last` above `base`. -/
def firmware (base : Nat) (last : UInt8) : List UInt8 :=
  let bytes := ascii "MCFG" ++ leBytes 4 60 ++ List.replicate 36 0 ++ leBytes 8 base
    ++ List.replicate 3 0 ++ [last] ++ List.replicate 4 0
  bytes.set 9 (0 - bytes.sum)

/-- Of four buses the last has its window, apart from that of the first. -/
theorem configuration_windows_do_not_wrap_four : ∃ c s s',
    mcfg (firmware (2 ^ 28) 3) = .ok c ∧ span c ≠ .error .panic
      ∧ busSpan c 0 = .ok s ∧ busSpan c 3 = .ok s' ∧ s'.toSpan.Apart s.toSpan := by
  have hmcfg : mcfg (firmware (2 ^ 28) 3) = .ok ⟨2 ^ 28, 0, 0, 3⟩ := by decide +kernel
  obtain ⟨hspan, -, hbuses⟩ := configuration_windows_do_not_wrap (.inr ⟨_, hmcfg⟩) 0
  refine ⟨_, ⟨⟨2 ^ 28, 2 ^ 28 + 2 ^ 20⟩, by decide, by decide, by decide⟩,
    ⟨⟨2 ^ 28 + 3 * 2 ^ 20, 2 ^ 28 + 4 * 2 ^ 20⟩, by decide, by decide, by decide⟩, hmcfg,
    fun hpanic => absurd (hspan.mp hpanic) (by decide), by decide +kernel, by decide +kernel, ?_⟩
  exact (hbuses _ (by decide +kernel)).2.1 3 _ (by decide +kernel) (by decide)

/-- The last megabyte is accepted as a window, and cannot be mapped. -/
theorem window_at_the_top_panics : ∃ c, mcfg (firmware (2 ^ 64 - BUS_STRIDE) 0) = .ok c
    ∧ span c = .error .panic ∧ busSpan c 0 = .error .panic :=
  ⟨⟨2 ^ 64 - BUS_STRIDE, 0, 0, 0⟩, by decide +kernel, by decide +kernel, by decide +kernel⟩

end Molt.Platform.Pci
