/-
Which capability `probe` goes by.

The fold keeps the first location of each kind and the last multiplier
(`foldl_see`), so the multiplier is the first `Notify`'s exactly if the last one
agrees with it.
-/
import Molt.Virtio.Transport

namespace Molt.Virtio

open Molt.Lib List

variable {m : Image}

theorem length_walk (left next : Nat) : (walk m left next).1.length ≤ left := by
  fun_induction walk m left next with
  | case4 => simpa
  | _ => simp

def listed (m : Image) (kind : Structure) (offsets : List Nat) : List Nat :=
  offsets.filter fun offset => kindAt m offset = some kind

/-- The first of each kind stays, and the last multiplier. -/
theorem foldl_see (offsets : List Nat) (f : Found) : offsets.foldl (Found.see m) f =
    ⟨f.common.or ((listed m .common offsets).head?.map (locationAt m)),
      f.notify.or ((listed m .notify offsets).head?.map (locationAt m)),
      f.device.or ((listed m .device offsets).head?.map (locationAt m)),
      ((listed m .notify offsets).getLast?.map (multiplierAt m)).getD f.multiplier⟩ := by
  induction offsets generalizing f with
  | nil => simp [listed]
  | cons offset offsets ih =>
    rw [foldl_cons, ih]
    unfold listed Found.see
    cases hkind : kindAt m offset with
    | none => simp [hkind]
    | some kind => cases kind <;> simp [hkind, getLast?_cons]

/-- The walk is short, and the first capability of each kind wins; with its
multiplier exactly if the last `Notify` listed has the same. -/
theorem first_capability_wins (m : Image) : (capabilities m).1.length ≤ 48
    ∧ ∀ t, Transport.probe m = .ok t →
      let notifies := listed m .notify (capabilities m).1
      let first kind := (listed m kind (capabilities m).1).head?
      (first .common).map (locationAt m) = some t.common
      ∧ (first .notify).map (locationAt m) = some t.notify
      ∧ (first .device).map (locationAt m) = some t.device
      ∧ ((first .notify).map (multiplierAt m) = some t.notifyMultiplier ↔
        notifies.head?.map (multiplierAt m) = notifies.getLast?.map (multiplierAt m)) := by
  refine ⟨length_walk .., fun t h => ?_⟩
  unfold Transport.probe at h
  dsimp only at h
  split at h
  · cases h
  rw [foldl_see] at h
  split at h
  case h_2 => cases h
  rename_i hfound
  cases h
  simp only [Option.none_or, Found.mk.injEq] at hfound
  obtain ⟨hcommon, hnotify, hdevice, rfl⟩ := hfound
  refine ⟨hcommon, hnotify, hdevice, ?_⟩
  -- a `Notify` is listed, so there is a last one
  obtain ⟨offset, hfirst, -⟩ := Option.map_eq_some_iff.mp hnotify
  obtain ⟨last, hlast⟩ : ∃ last, (listed m .notify (capabilities m).1).getLast? = some last :=
    Option.isSome_iff_exists.mp (by rw [getLast?_isSome]; intro hnil; simp [hnil] at hfirst)
  dsimp only
  rw [hlast, Option.map_some, Option.getD_some]

/-- Four capabilities of 32 bytes, one for notifications before a last one. -/
def device (type multiplier : UInt8) : Image :=
  let capability next type multiplier : List UInt8 :=
    [9, next, 20, type] ++ replicate 12 0 ++ [multiplier] ++ replicate 15 0
  let bytes := replicate 6 0 ++ [16] ++ replicate 45 0 ++ [0x40] ++ replicate 11 0
    ++ capability 0x60 1 0 ++ capability 0x80 2 4 ++ capability 0xa0 4 0
    ++ capability 0 type multiplier
  fun i => bytes.getD i 0

/-- Two `Notify` capabilities that agree: the multiplier is the first one's. -/
theorem first_capability_wins_twice : ∃ t, Transport.probe (device 2 4) = .ok t
    ∧ listed (device 2 4) .notify (capabilities (device 2 4)).1 = [0x60, 0xa0]
    ∧ some (multiplierAt (device 2 4) 0x60) = some t.notifyMultiplier := by
  have hlisted : listed (device 2 4) .notify (capabilities (device 2 4)).1 = [0x60, 0xa0] := by
    decide +kernel
  cases hprobe : Transport.probe (device 2 4) with
  | error e =>
    have hok : (Transport.probe (device 2 4)).toBool = true := by decide +kernel
    rw [hprobe] at hok
    cases hok
  | ok t =>
    have hwins := ((first_capability_wins (device 2 4)).2 t hprobe).2.2.2
    dsimp only at hwins
    rw [hlisted] at hwins
    exact ⟨t, rfl, hlisted, hwins.mpr (by decide +kernel)⟩

/-- The location is that of the first `Notify`, and the multiplier that of the second. -/
theorem second_notify_gives_the_multiplier :
    (Transport.probe (device 2 8)).map (·.notifyMultiplier) = .ok 8
      ∧ listed (device 2 8) .notify (capabilities (device 2 8)).1 = [0x60, 0xa0]
      ∧ multiplierAt (device 2 8) 0x60 = 4 := by
  decide +kernel

end Molt.Virtio
