/-
A disk with a volatile write cache, over any type of sector.

# The device

A write lands in the cache and is what later reads see; a flush makes
every earlier write stable. `issued` remembers all writes ever made, for
statements about what a run touched and nothing else.

# What a run wrote

`Wrote P d d'` says that `d'` is `d` after some writes, without a flush,
all of them to sectors in `P`. It is the frame every specification of
code above the disk carries.
-/
import Mathlib

namespace Molt.Lib

structure Write (α : Type) where
  start : Nat
  data : List α
  deriving DecidableEq

/-- A device: what is stable, and the writes since, newest first. -/
structure Disk (α : Type) where
  stable : Nat → α
  cache : List (Write α)
  issued : List (Write α)

variable {α : Type}

namespace Write

def Covers (w : Write α) (s : Nat) : Prop := w.start ≤ s ∧ s < w.start + w.data.length

instance (w : Write α) (s : Nat) : Decidable (w.Covers s) := inferInstanceAs (Decidable (_ ∧ _))

/-- The content with the write in place. -/
def apply (w : Write α) (f : Nat → α) : Nat → α := fun s =>
  if w.Covers s then w.data.getD (s - w.start) (f s) else f s

theorem apply_of_not_covers {w : Write α} {f : Nat → α} {s : Nat}
    (h : ¬ w.Covers s) : w.apply f s = f s := if_neg h

theorem apply_of_covers {w : Write α} {f : Nat → α} {i : Nat}
    (h : i < w.data.length) : w.apply f (w.start + i) = w.data[i] := by
  rw [apply, if_pos ⟨by omega, by omega⟩, Nat.add_sub_cancel_left]
  simp [h]

end Write

namespace Disk

def holding (f : Nat → α) : Disk α := ⟨f, [], []⟩

/-- What a read of each sector returns. -/
def read (d : Disk α) : Nat → α := d.cache.foldr Write.apply d.stable

/-- A write goes to the cache. -/
def write (d : Disk α) (w : Write α) : Disk α := ⟨d.stable, w :: d.cache, w :: d.issued⟩

def flush (d : Disk α) : Disk α := ⟨d.read, [], d.issued⟩

-- == what a run wrote

/-- `d'` is `d` after writes to sectors in `P`, none of them flushed. -/
def Wrote (P : Nat → Prop) (d d' : Disk α) : Prop :=
  ∃ ws, d'.stable = d.stable ∧ d'.cache = ws ++ d.cache
    ∧ d'.issued = ws ++ d.issued ∧ ∀ w ∈ ws, ∀ s, w.Covers s → P s

theorem Wrote.refl (P : Nat → Prop) (d : Disk α) : Wrote P d d := ⟨[], rfl, rfl, rfl, by simp⟩

theorem Wrote.trans {P : Nat → Prop} {d d' d'' : Disk α}
    (h : Wrote P d d') (h' : Wrote P d' d'') : Wrote P d d'' := by
  obtain ⟨ws, hs, hc, hi, hw⟩ := h
  obtain ⟨vs, hs', hc', hi', hv⟩ := h'
  refine ⟨vs ++ ws, by rw [hs', hs], by rw [hc', hc, List.append_assoc],
    by rw [hi', hi, List.append_assoc], ?_⟩
  intro w hmem
  rcases List.mem_append.mp hmem with h | h
  · exact hv w h
  · exact hw w h

theorem Wrote.mono {P P' : Nat → Prop} {d d' : Disk α} (h : Wrote P d d')
    (hP : ∀ s, P s → P' s) : Wrote P' d d' := by
  obtain ⟨ws, hs, hc, hi, hw⟩ := h
  exact ⟨ws, hs, hc, hi, fun w hm s hcov => hP s (hw w hm s hcov)⟩

theorem Wrote.write {P : Nat → Prop} (d : Disk α) {w : Write α}
    (h : ∀ s, w.Covers s → P s) : Wrote P d (d.write w) :=
  ⟨[w], rfl, rfl, rfl, by simpa using h⟩

theorem Wrote.read_eq {P : Nat → Prop} {d d' : Disk α} (h : Wrote P d d')
    {s : Nat} (hs : ¬ P s) : d'.read s = d.read s := by
  obtain ⟨ws, hst, hc, hi, hw⟩ := h
  unfold read
  rw [hst, hc, List.foldr_append]
  clear hc hi
  induction ws with
  | nil => rfl
  | cons w ws ih =>
    rw [List.foldr_cons, Write.apply_of_not_covers fun hcov =>
      hs (hw w List.mem_cons_self s hcov)]
    exact ih fun v hv => hw v (List.mem_cons_of_mem _ hv)

end Disk

end Molt.Lib
