/-
Binary search, and association lists in key order.

# Binary search

`bsearch p fuel low high` is the loop that halves `[low, high)` by a
predicate on positions. Where the positions below `c` satisfy `p` and
those from `c` on do not, it finds `c` (`bsearch_eq`); the fuel is the
width of the interval, which every round shrinks.

# Ordered association lists

A map is a list of pairs in strictly ascending key order. `upsert` and
`after` are written with filters instead of splices, so that they
distribute over `++`: a list cut into pieces by key ranges is updated and
searched in the one piece whose range holds the key
(`upsert_append_left`, `upsert_append_right`).
-/
import Mathlib

namespace Molt.Lib

open List

-- == binary search

/-- The first position of `[low, high)` that fails `p`, by halving. -/
def bsearch (p : Nat → Bool) : Nat → Nat → Nat → Nat
  | 0, low, _ => low
  | fuel + 1, low, high =>
    if low < high then
      let middle := low + (high - low) / 2
      if p middle then bsearch p fuel (middle + 1) high
      else bsearch p fuel low middle
    else low

theorem bsearch_eq {p : Nat → Bool} {c fuel low high : Nat}
    (hlow : low ≤ c) (hhigh : c ≤ high) (hfuel : high - low ≤ fuel)
    (hyes : ∀ i, low ≤ i → i < c → p i = true)
    (hno : ∀ i, c ≤ i → i < high → p i = false) :
    bsearch p fuel low high = c := by
  induction fuel generalizing low high with
  | zero =>
    rw [bsearch]
    omega
  | succ fuel ih =>
    rw [bsearch]
    split
    case isFalse h => omega
    case isTrue h =>
        -- the middle falls on one side of `c`, and `p` says on which
        by_cases hc : low + (high - low) / 2 < c
        · rw [if_pos (hyes _ (by omega) hc)]
          exact ih (by omega) hhigh (by omega) (fun i h1 h2 => hyes i (by omega) h2) hno
        · have hp := hno (low + (high - low) / 2) (by omega) (by omega)
          rw [if_neg (by simp [hp])]
          exact ih hlow (by omega) (by omega) hyes (fun i h1 h2 => hno i h1 (by omega))

/-- Over a list whose positions are a run that satisfies `p` and then one
that does not, the search finds the boundary. -/
theorem bsearch_append {α : Type*} {p : α → Bool} {as bs : List α}
    (has : ∀ x ∈ as, p x = true) (hbs : ∀ x ∈ bs, p x = false) :
    bsearch (fun i => ((as ++ bs)[i]?).any p) (as ++ bs).length 0
      (as ++ bs).length = as.length := by
  refine bsearch_eq (Nat.zero_le _) (by simp) (by omega) ?_ ?_
  · intro i _ hi
    rw [getElem?_append_left hi, getElem?_eq_getElem hi]
    exact has _ (getElem_mem hi)
  · intro i hi hlt
    rw [getElem?_append_right hi]
    cases h : bs[i - as.length]? with
    | none => rfl
    | some x => exact hbs x (mem_of_getElem? h)

-- == ordered association lists

variable {κ ν : Type*} [LinearOrder κ]

def Sorted (l : List (κ × ν)) : Prop := l.Pairwise fun a b => a.1 < b.1

/-- The value bound to `k`. -/
def find (k : κ) (l : List (κ × ν)) : Option ν := (l.find? fun e => e.1 = k).map Prod.snd

/-- Binds `k` to `v`, in key order. -/
def upsert (k : κ) (v : ν) (l : List (κ × ν)) : List (κ × ν) :=
  l.filter (fun e => e.1 < k) ++ (k, v) :: l.filter (fun e => k < e.1)

/-- The first pair at `k` or above it, or strictly above. -/
def after (k : κ) (inclusive : Bool) (l : List (κ × ν)) : Option (κ × ν) :=
  l.find? fun e => if inclusive then decide (k ≤ e.1) else decide (k < e.1)

theorem Sorted.nil : Sorted ([] : List (κ × ν)) := List.Pairwise.nil

variable {l : List (κ × ν)} {inclusive : Bool} {k : κ}

theorem sorted_cons {e : κ × ν} : Sorted (e :: l) ↔ (∀ x ∈ l, e.1 < x.1) ∧ Sorted l := pairwise_cons

variable {l m : List (κ × ν)}

theorem sorted_append : Sorted (l ++ m) ↔ Sorted l ∧ Sorted m ∧ ∀ a ∈ l, ∀ b ∈ m, a.1 < b.1 :=
  pairwise_append

theorem sorted_upsert {v : ν} (h : Sorted l) : Sorted (upsert k v l) := by
  rw [upsert, sorted_append, sorted_cons]
  refine ⟨h.filter _, ⟨?_, h.filter _⟩, ?_⟩
  · intro x hx
    exact of_decide_eq_true (mem_filter.mp hx).2
  · intro a ha b hb
    have hak : a.1 < k := of_decide_eq_true (mem_filter.mp ha).2
    rcases mem_cons.mp hb with rfl | hb
    · exact hak
    · exact lt_trans hak (of_decide_eq_true (mem_filter.mp hb).2)

theorem mem_upsert {v : ν} {e : κ × ν} : e ∈ upsert k v l ↔ e = (k, v) ∨ (e ∈ l ∧ e.1 ≠ k) := by
  rw [upsert, mem_append, mem_cons, mem_filter, mem_filter, decide_eq_true_eq, decide_eq_true_eq]
  constructor
  · rintro (⟨hl, hlt⟩ | rfl | ⟨hl, hlt⟩)
    · exact Or.inr ⟨hl, ne_of_lt hlt⟩
    · exact Or.inl rfl
    · exact Or.inr ⟨hl, ne_of_gt hlt⟩
  · rintro (rfl | ⟨hl, hne⟩)
    · exact Or.inr (Or.inl rfl)
    · rcases lt_or_gt_of_ne hne with h | h
      · exact Or.inl ⟨hl, h⟩
      · exact Or.inr (Or.inr ⟨hl, h⟩)

theorem upsert_append_right {v : ν}
    (h : ∀ e ∈ l, e.1 < k) : upsert k v (l ++ m) = l ++ upsert k v m := by
  have h1 : l.filter (fun e => decide (e.1 < k)) = l :=
    filter_eq_self.mpr fun e he => decide_eq_true (h e he)
  have h2 : l.filter (fun e => decide (k < e.1)) = [] :=
    filter_eq_nil_iff.mpr fun e he => by
      simpa using le_of_lt (h e he)
  simp only [upsert, filter_append, h1, h2, nil_append, append_assoc]

theorem upsert_append_left {v : ν}
    (h : ∀ e ∈ m, k < e.1) : upsert k v (l ++ m) = upsert k v l ++ m := by
  have h1 : m.filter (fun e => decide (k < e.1)) = m :=
    filter_eq_self.mpr fun e he => decide_eq_true (h e he)
  have h2 : m.filter (fun e => decide (e.1 < k)) = [] :=
    filter_eq_nil_iff.mpr fun e he => by
      simpa using le_of_lt (h e he)
  simp only [upsert, filter_append, h1, h2, append_nil, append_assoc, cons_append]

theorem find_eq_some_iff {v : ν} (h : Sorted l) : find k l = some v ↔ (k, v) ∈ l := by
  induction l with
  | nil => simp [find]
  | cons e l ih =>
    obtain ⟨hlt, hs⟩ := sorted_cons.mp h
    by_cases he : e.1 = k
    · have hf : find k (e :: l) = some e.2 := by simp [find, he]
      rw [hf, mem_cons]
      constructor
      · intro heq
        exact Or.inl (Prod.ext he.symm (Option.some.inj heq).symm)
      · rintro (heq | hm)
        · rw [← heq]
        · exact absurd he.symm (ne_of_gt (hlt _ hm))
    · have hf : find k (e :: l) = find k l := by simp [find, he]
      rw [hf, ih hs, mem_cons]
      refine ⟨Or.inr, ?_⟩
      rintro (heq | hm)
      · exact absurd (congrArg Prod.fst heq).symm he
      · exact hm

theorem find_eq_none_iff : find k l = none ↔ ∀ e ∈ l, e.1 ≠ k := by
  simp [find, List.find?_eq_none]

theorem find_upsert {v : ν} (h : Sorted l)
    (k' : κ) : find k' (upsert k v l) = if k' = k then some v else find k' l := by
  split
  case isTrue heq =>
    rw [find_eq_some_iff (sorted_upsert h), mem_upsert]
    exact Or.inl (by rw [heq])
  case isFalse hne =>
    cases hf : find k' l with
    | some w =>
      rw [find_eq_some_iff (sorted_upsert h), mem_upsert]
      exact Or.inr ⟨(find_eq_some_iff h).mp hf, hne⟩
    | none =>
      rw [find_eq_none_iff] at hf ⊢
      intro e he
      rcases mem_upsert.mp he with rfl | ⟨he, _⟩
      · exact fun h => hne h.symm
      · exact hf e he

theorem find_append_of_lt (h : ∀ e ∈ l, e.1 < k) : find k (l ++ m) = find k m := by
  have hnone : l.find? (fun e => decide (e.1 = k)) = none :=
    List.find?_eq_none.mpr fun e he => by simpa using ne_of_lt (h e he)
  simp [find, List.find?_append, hnone]

theorem find_append_of_gt (h : ∀ e ∈ m, k < e.1) : find k (l ++ m) = find k l := by
  have hnone : m.find? (fun e => decide (e.1 = k)) = none :=
    List.find?_eq_none.mpr fun e he => by simpa using ne_of_gt (h e he)
  simp [find, List.find?_append, hnone]

-- -- successors

theorem after_append_of_lt
    (h : ∀ e ∈ l, e.1 < k) : after k inclusive (l ++ m) = after k inclusive m := by
  have hnone : l.find? (fun e =>
      if inclusive then decide (k ≤ e.1) else decide (k < e.1)) = none := by
    refine List.find?_eq_none.mpr fun e he => ?_
    cases inclusive
    · simpa using le_of_lt (h e he)
    · simpa using h e he
  rw [after, List.find?_append, hnone, Option.none_or, after]

theorem after_append :
    after k inclusive (l ++ m) = (after k inclusive l).or (after k inclusive m) := by
  simp [after, List.find?_append]

def Past (inclusive : Bool) (k k' : κ) : Prop := if inclusive then k ≤ k' else k < k'

theorem past_iff {k k' : κ} :
    (if inclusive then decide (k ≤ k') else decide (k < k')) = true ↔ Past inclusive k k' := by
  cases inclusive <;> simp [Past]

theorem after_eq_none_iff : after k inclusive l = none ↔ ∀ e ∈ l, ¬ Past inclusive k e.1 := by
  simp only [after, List.find?_eq_none, past_iff]

theorem after_eq_some_iff {e : κ × ν}
    (h : Sorted l) : after k inclusive l = some e
      ↔ e ∈ l ∧ Past inclusive k e.1 ∧ ∀ x ∈ l, Past inclusive k x.1 → e.1 ≤ x.1 := by
  induction l with
  | nil => simp [after]
  | cons a l ih =>
    obtain ⟨hlt, hs⟩ := sorted_cons.mp h
    by_cases ha : Past inclusive k a.1
    · have hhead : after k inclusive (a :: l) = some a := List.find?_cons_of_pos (past_iff.mpr ha)
      rw [hhead]
      constructor
      · rintro ⟨⟩
        refine ⟨mem_cons_self, ha, fun x hx _ => ?_⟩
        rcases mem_cons.mp hx with rfl | hx
        · exact le_refl _
        · exact le_of_lt (hlt x hx)
      · rintro ⟨he, _, hmin⟩
        rcases mem_cons.mp he with rfl | he
        · rfl
        · exact absurd (hlt e he) (not_lt.mpr (hmin a mem_cons_self ha))
    · have hskip : after k inclusive (a :: l) = after k inclusive l :=
        List.find?_cons_of_neg (fun hc => ha (past_iff.mp hc))
      rw [hskip, ih hs]
      constructor
      · rintro ⟨he, hp, hmin⟩
        refine ⟨mem_cons_of_mem _ he, hp, fun x hx hpx => ?_⟩
        rcases mem_cons.mp hx with rfl | hx
        · exact absurd hpx ha
        · exact hmin x hx hpx
      · rintro ⟨he, hp, hmin⟩
        rcases mem_cons.mp he with rfl | he
        · exact absurd hp ha
        · exact ⟨he, hp, fun x hx => hmin x (mem_cons_of_mem _ hx)⟩

theorem after_of_gt (h : ∀ e ∈ l, k < e.1) : after k inclusive l = l.head? := by
  cases l with
  | nil => rfl
  | cons e l =>
    have he := h e mem_cons_self
    cases inclusive
    · simp [after, he]
    · simp [after, le_of_lt he]

end Molt.Lib
