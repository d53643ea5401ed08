/-
Fixed arrays of optional entries, by what they hold.

A slot array is a list of options; `entries` forgets where an entry is and
keeps how often it is there. An entry is put into a slot that is empty and
taken out of the slot it is in, and each law says what that does to
`entries` and to what a position holds. `foldl_drains` is about loops that
take them out until none is left.
-/
import Mathlib

namespace Molt.Lib

open List Multiset

variable {α β : Type}

def entries (l : List (Option α)) : Multiset α := (l.filterMap id : List α)

/-- The first empty slot. -/
def vacancy (l : List (Option α)) : Option Nat := l.findIdx? Option.isNone

@[simp] theorem entries_replicate (n : Nat) : entries (List.replicate n (none : Option α)) = 0 := by
  simp [entries]

variable {l : List (Option α)} {i : Nat}

theorem mem_entries {a : α} : a ∈ entries l ↔ some a ∈ l := by
  simp [entries]

theorem any_entries {p : α → Bool} :
    (l.any fun slot => slot.any p) = true ↔ ∃ a ∈ entries l, p a = true := by
  simp only [any_eq_true, Option.any_eq_true]
  constructor
  · rintro ⟨_, hmem, a, rfl, ha⟩
    exact ⟨a, mem_entries.mpr hmem, ha⟩
  · rintro ⟨a, hmem, ha⟩
    exact ⟨some a, mem_entries.mp hmem, a, rfl, ha⟩

theorem entries_cons_none (l : List (Option α)) : entries (none :: l) = entries l := by
  simp [entries]

theorem entries_cons_some (a : α) (l : List (Option α)) :
    entries (some a :: l) = a ::ₘ entries l := by
  simp [entries]

theorem entries_put (h : l[i]? = some none) (a : α) :
    entries (l.set i (some a)) = a ::ₘ entries l := by
  induction l generalizing i with
  | nil => simp at h
  | cons o l ih =>
    cases i with
    | zero =>
      obtain rfl : o = none := by simpa using h
      rw [set_cons_zero, entries_cons_some, entries_cons_none]
    | succ i =>
      have ih := ih (by simpa using h)
      rw [set_cons_succ]
      cases o with
      | none => rw [entries_cons_none, entries_cons_none, ih]
      | some b =>
        rw [entries_cons_some, entries_cons_some, ih, cons_swap]

theorem entries_clear {a : α} (h : l[i]? = some (some a)) :
    a ::ₘ entries (l.set i none) = entries l := by
  have hput : (l.set i none)[i]? = some none := by
    rw [List.getElem?_set_self (List.getElem?_eq_some_iff.mp h).1]
  have hback : (l.set i none).set i (some a) = l := by
    rw [set_set]
    obtain ⟨hi, heq⟩ := List.getElem?_eq_some_iff.mp h
    rw [← heq, set_getElem_self]
  rw [← entries_put hput a, hback]

theorem vacancy_some (h : vacancy l = some i) : l[i]? = some none := by
  obtain ⟨hi, hnone, -⟩ := List.findIdx?_eq_some_iff_getElem.mp h
  rw [getElem?_eq_getElem hi, Option.isNone_iff_eq_none.mp hnone]

theorem card_entries_le (l : List (Option α)) : (entries l).card ≤ l.length := by
  rw [entries, coe_card]
  exact length_filterMap_le _ _

theorem vacancy_none (h : vacancy l = none) : (entries l).card = l.length := by
  rw [vacancy, List.findIdx?_eq_none_iff] at h
  induction l with
  | nil => rfl
  | cons o l ih =>
    cases o with
    | none => simp at h
    | some a =>
      rw [entries_cons_some, card_cons, length_cons, ih fun x hx => h x (mem_cons_of_mem _ hx)]

theorem exists_vacancy (h : (entries l).card < l.length) : ∃ i, vacancy l = some i := by
  cases hv : vacancy l with
  | some i => exact ⟨i, rfl⟩
  | none =>
    have := vacancy_none hv
    omega

theorem vacancy_le (h : vacancy l = some i) : i ≤ (entries l).card := by
  induction l generalizing i with
  | nil => simp [vacancy] at h
  | cons o l ih =>
    cases o with
    | none =>
      have : i = 0 := by simpa [vacancy, List.findIdx?_cons] using h.symm
      omega
    | some a =>
      rw [vacancy, List.findIdx?_cons] at h
      obtain ⟨j, hj, rfl⟩ := Option.map_eq_some_iff.mp (by simpa using h)
      have := ih hj
      rw [entries_cons_some, card_cons]
      omega

theorem found_entry {p : α → Bool} (h : (l.findIdx? fun slot => slot.any p) = some i) :
    ∃ a, l[i]? = some (some a) ∧ p a = true := by
  obtain ⟨hlt, hany, -⟩ := List.findIdx?_eq_some_iff_getElem.mp h
  obtain ⟨a, ha, hp⟩ := (Option.any_eq_true _ _).mp hany
  refine ⟨a, ?_, hp⟩
  rw [getElem?_eq_getElem hlt, ha]

-- == by place

/-- What a slot holds; nothing is held outside the array. -/
def slotAt (l : List (Option α)) (i : Nat) : Option α := l[i]?.join

/-- The first slot whose entry passes a test, with what the test found. -/
def pick (f : α → Option β) : List (Option α) → Option (Nat × β)
  | [] => none
  | o :: l =>
    match o.bind f with
    | some b => some (0, b)
    | none => (pick f l).map fun (i, b) => (i + 1, b)

@[simp] theorem slotAt_cons_zero (o : Option α) (l : List (Option α)) : slotAt (o :: l) 0 = o := by
  cases o <;> rfl

@[simp] theorem slotAt_replicate (n i : Nat) :
    slotAt (List.replicate n (none : Option α)) i = none := by
  rw [slotAt, getElem?_replicate]
  split <;> rfl

theorem slotAt_some {a : α} : slotAt l i = some a ↔ l[i]? = some (some a) := by
  rw [slotAt]
  cases h : l[i]? with
  | none => simp
  | some o => simp

theorem slotAt_lt {a : α} (h : slotAt l i = some a) : i < l.length :=
  (List.getElem?_eq_some_iff.mp (slotAt_some.mp h)).1

theorem slotAt_none (hi : i < l.length) : slotAt l i = none ↔ l[i]? = some none := by
  rw [slotAt, getElem?_eq_getElem hi]
  simp

theorem slotAt_set (hi : i < l.length) (o : Option α) : slotAt (l.set i o) i = o := by
  rw [slotAt, getElem?_set_self hi]
  rfl

theorem slotAt_set_ne {i j : Nat} (h : i ≠ j) (o : Option α) :
    slotAt (l.set i o) j = slotAt l j := by
  rw [slotAt, slotAt, getElem?_set_ne h]

theorem set_slotAt (l : List (Option α)) (i : Nat) : l.set i (slotAt l i) = l := by
  by_cases hi : i < l.length
  · rw [slotAt, getElem?_eq_getElem hi, Option.join_some, set_getElem_self]
  · exact set_eq_of_length_le (Nat.le_of_not_lt hi)

theorem entries_clear_le (l : List (Option α)) (i : Nat) : entries (l.set i none) ≤ entries l := by
  cases hslot : slotAt l i with
  | none => rw [← hslot, set_slotAt]
  | some a =>
    rw [← entries_clear (slotAt_some.mp hslot)]
    exact le_cons_self _ _

theorem pick_some {f : α → Option β} {b : β}
    (h : pick f l = some (i, b)) : ∃ a, slotAt l i = some a ∧ f a = some b := by
  induction l generalizing i with
  | nil => simp [pick] at h
  | cons o l ih =>
    rw [pick] at h
    split at h
    case h_1 c hc =>
      obtain ⟨rfl, rfl⟩ : 0 = i ∧ c = b := by simpa using h
      obtain ⟨a, rfl, ha⟩ := Option.bind_eq_some_iff.mp hc
      exact ⟨a, slotAt_cons_zero _ _, ha⟩
    case h_2 =>
      obtain ⟨⟨j, c⟩, hj, heq⟩ := Option.map_eq_some_iff.mp h
      obtain ⟨rfl, rfl⟩ : j + 1 = i ∧ c = b := by simpa using heq
      exact ih hj

theorem pick_none {f : α → Option β} (h : pick f l = none) {a : α}
    (ha : slotAt l i = some a) : f a = none := by
  induction l generalizing i with
  | nil => simp [slotAt] at ha
  | cons o l ih =>
    rw [pick] at h
    split at h
    case h_1 => cases h
    case h_2 ho =>
      cases i with
      | zero =>
        obtain rfl : o = some a := by simpa using ha
        exact ho
      | succ i => exact ih (Option.map_eq_none_iff.mp h) ha

theorem pick_eq_none {f : α → Option β} (h : ∀ o ∈ l, o.bind f = none) : pick f l = none := by
  induction l with
  | nil => rfl
  | cons o l ih =>
    rw [pick, h o mem_cons_self, ih fun o ho => h o (mem_cons_of_mem _ ho)]
    rfl

-- == loops that empty an array

/-- A run is done if some steps are due, each of them leaves less to do, the
others leave no more, and what is done stays done. -/
theorem foldl_drains {σ ε : Type} {step : σ → ε → σ} (inv done : σ → Prop) (left : σ → Nat)
    (due : ε → Bool) (hkeep : ∀ s e, done s → done (step s e))
    (hzero : ∀ s, inv s → left s = 0 → done s)
    (hstep : ∀ s e, inv s → done (step s e) ∨
      inv (step s e) ∧ left (step s e) + (due e).toNat ≤ left s)
    {s : σ} (h : inv s) {events : List ε} (hleft : left s ≤ events.countP due) :
    done (events.foldl step s) := by
  induction events generalizing s with
  | nil => exact hzero s h (Nat.le_zero.mp hleft)
  | cons e events ih =>
    rcases hstep s e h with hdone | ⟨hinv, hless⟩
    · exact List.foldlRecOn events step hdone fun s hs e _ => hkeep s e hs
    · refine ih hinv ?_
      rw [List.countP_cons] at hleft
      cases hdue : due e <;> simp [hdue] at hless hleft <;> omega

end Molt.Lib
