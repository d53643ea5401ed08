/-
Rings that one side fills and the other reads, lap by lap.

The writer puts its `k`-th entry into cell `k % n`, so a ring of `n` cells
shows the last `n` entries written and nothing of the earlier ones. A phase
ring marks every entry with the parity of its lap: the reader, who knows how
many entries it has read, then knows from the mark alone whether the cell in
front of it was written since it last passed.
-/
import Mathlib

namespace Molt.Lib

variable {α β : Type}

def lap (n k : Nat) : Bool := k / n % 2 == 0

/-- One entry further, the mark turns at the end of the ring. -/
theorem lap_succ {n k : Nat} : lap n (k + 1) = if (k + 1) % n = 0 then !lap n k else lap n k := by
  rw [lap, lap, Nat.succ_div]
  by_cases hend : (k + 1) % n = 0
  · rw [if_pos hend, if_pos (Nat.dvd_of_mod_eq_zero hend)]
    rcases Nat.mod_two_eq_zero_or_one (k / n) with h | h <;> simp [Nat.add_mod, h]
  · rw [if_neg hend, if_neg fun hdvd => hend (Nat.mod_eq_zero_of_dvd hdvd), Nat.add_zero]

theorem lap_add {n k : Nat} (hn : 0 < n) : lap n (k + n) = !lap n k := by
  rw [lap, lap, Nat.add_div_right k hn]
  rcases Nat.mod_two_eq_zero_or_one (k / n) with h | h <;> simp [Nat.add_mod, h]

theorem lap_of_lt {n k : Nat} (h : k < n) : lap n k = true := by
  rw [lap, Nat.div_eq_of_lt h]
  rfl

theorem succ_mod {n k : Nat} (hn : 0 < n) :
    (k + 1) % n = if k % n + 1 = n then 0 else k % n + 1 := by
  have hlt := Nat.mod_lt k hn
  rw [← Nat.mod_add_mod]
  by_cases hend : k % n + 1 = n
  · rw [if_pos hend, hend, Nat.mod_self]
  · rw [if_neg hend, Nat.mod_eq_of_lt (by omega)]

theorem mod_ne_of_lt {n i k : Nat} (hik : i < k) (hkn : k < i + n) : i % n ≠ k % n := by
  intro heq
  have hdvd : n ∣ k - i := (Nat.modEq_iff_dvd' (Nat.le_of_lt hik)).mp heq
  have := Nat.le_of_dvd (by omega) hdvd
  omega

/-- A ring shows a log: cell `k % n` holds what `g` makes of the `k`-th entry,
for the last `n` entries, and what it was given where none was written. -/
structure Laid (n : Nat) (g : Nat → β → α) (blank : α) (cells : Nat → α) (log : List β) :
    Prop where
  shows : ∀ k b, log[k]? = some b → log.length ≤ k + n → cells (k % n) = g k b
  unused : ∀ j, log.length ≤ j → j < n → cells j = blank

namespace Laid

variable {n : Nat} {g : Nat → β → α} {blank : α} {cells : Nat → α} {log : List β}

theorem nil : Laid n g blank (fun _ => blank) ([] : List β) where
  shows k b h := by simp at h
  unused _ _ _ := rfl

theorem push (h : Laid n g blank cells log) (b : β) :
    Laid n g blank (Function.update cells (log.length % n) (g log.length b)) (log ++ [b]) where
  shows k c hk hlen := by
    rw [List.length_append, List.length_singleton] at hlen
    rcases Nat.lt_trichotomy k log.length with hlt | rfl | hgt
    · rw [List.getElem?_append_left hlt] at hk
      rw [Function.update_of_ne (mod_ne_of_lt hlt (by omega))]
      exact h.shows k c hk (by omega)
    · have hc : b = c := by simpa using hk
      rw [Function.update_self, hc]
    · rw [List.getElem?_eq_none (by simpa using Nat.succ_le_of_lt hgt)] at hk
      cases hk
  unused j hlen hj := by
    rw [List.length_append, List.length_singleton] at hlen
    rw [Function.update_of_ne (by rw [Nat.mod_eq_of_lt (by omega)]; omega)]
    exact h.unused j (by omega) hj

/-- Reading a phase ring at entry `c`: the cell is marked for this lap exactly
when the entry has been written. -/
theorem marked (h : Laid n g blank cells log) (hn : 0 < n) (mark : α → Bool)
    (hmark : ∀ k b, mark (g k b) = lap n k) (hblank : mark blank = false) {c : Nat}
    (hlow : c ≤ log.length) (hhigh : log.length ≤ c + n) :
    mark (cells (c % n)) = lap n c ↔ c < log.length := by
  by_cases hwritten : c < log.length
  · rw [h.shows c _ (List.getElem?_eq_getElem hwritten) hhigh]
    exact iff_of_true (hmark c _) hwritten
  · -- the cell still shows the entry of the lap before, or none at all
    obtain rfl : c = log.length := by omega
    by_cases hfirst : log.length < n
    · rw [Nat.mod_eq_of_lt hfirst, h.unused _ le_rfl hfirst, hblank, lap_of_lt hfirst]
      simp
    · obtain ⟨k, hk⟩ : ∃ k, log.length = k + n := ⟨log.length - n, by omega⟩
      have hlt : k < log.length := by omega
      have hcell := h.shows k _ (List.getElem?_eq_getElem hlt) (by omega)
      rw [hk, Nat.add_mod_right, hcell, hmark, lap_add hn]
      simp

end Laid

end Molt.Lib
