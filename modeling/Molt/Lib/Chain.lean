/-
Lists threaded through a slab by index.

`next` and `prev` say what follows a slot and what precedes it, and `nil` is
the index of no slot. `Path next s l` says that following `next` from `s`
meets the slots of `l`, in order, and then `nil`; `Back prev p l` says that
`prev` leads back from each slot of `l` to the one before it, and from the
first to `p`. A doubly linked list is both.
-/
import Mathlib

namespace Molt.Lib

open List

variable {nil : Nat} {next next' prev prev' : Nat → Nat}

/-- Following `next` from a slot meets these slots and then `nil`. -/
def Path (nil : Nat) (next : Nat → Nat) : Nat → List Nat → Prop
  | s, [] => s = nil
  | s, a :: l => s = a ∧ a ≠ nil ∧ Path nil next (next a) l

/-- Each slot leads back to the one before it, the first to the one given. -/
def Back (prev : Nat → Nat) : Nat → List Nat → Prop
  | _, [] => True
  | p, a :: l => prev a = p ∧ Back prev a l

-- == paths

variable {l : List Nat}

theorem Path.congr {s : Nat} (h : Path nil next s l)
    (hn : ∀ i ∈ l, next' i = next i) : Path nil next' s l := by
  induction l generalizing s with
  | nil => exact h
  | cons a l ih =>
    obtain ⟨hs, ha, htail⟩ := h
    refine ⟨hs, ha, ?_⟩
    rw [hn a mem_cons_self]
    exact ih htail fun i hi => hn i (mem_cons_of_mem a hi)

theorem Path.push {s a : Nat} (h : Path nil next s l) (ha : a ≠ nil)
    (hs : next' a = s) (hn : ∀ i ∈ l, next' i = next i) : Path nil next' a (a :: l) := by
  refine ⟨rfl, ha, ?_⟩
  rw [hs]
  exact h.congr hn

theorem Path.next_mem {s : Nat} (h : Path nil next s l) {i : Nat} (hi : i ∈ l) :
    next i = nil ∨ next i ∈ l.tail := by
  induction l generalizing s with
  | nil => cases hi
  | cons a l ih =>
    obtain ⟨-, -, htail⟩ := h
    rcases mem_cons.mp hi with rfl | hi
    · cases l with
      | nil => exact .inl htail
      | cons b l => exact .inr (by rw [htail.1]; exact mem_cons_self)
    · rcases ih htail hi with hnil | hmem
      · exact .inl hnil
      · exact .inr (mem_of_mem_tail hmem)

theorem Path.next_ne {s : Nat} (h : Path nil next s l) (hnd : l.Nodup) {i : Nat}
    (hi : i ∈ l) : next i ≠ i := by
  induction l generalizing s with
  | nil => cases hi
  | cons a l ih =>
    obtain ⟨-, ha, htail⟩ := h
    obtain ⟨hnotin, hnd'⟩ := nodup_cons.mp hnd
    rcases mem_cons.mp hi with rfl | hi
    · cases l with
      | nil => exact fun heq => ha (heq.symm.trans htail)
      | cons b l =>
        intro heq
        rw [htail.1] at heq
        exact hnotin (heq ▸ mem_cons_self)
    · exact ih htail hnd' hi

/-- Going round a node takes it out of the list. -/
theorem Path.remove {s a : Nat} {l₁ l₂ : List Nat} (h : Path nil next s (l₁ ++ a :: l₂))
    (hnd : (l₁ ++ a :: l₂).Nodup)
    (hn : ∀ i ∈ l₁ ++ l₂, next' i = if next i = a then next a else next i) :
    Path nil next' (if s = a then next a else s) (l₁ ++ l₂) := by
  induction l₁ generalizing s with
  | nil =>
    obtain ⟨rfl, ha, htail⟩ := h
    rw [if_pos rfl]
    refine htail.congr ?_
    intro i hi
    rw [hn i hi, if_neg]
    intro heq
    rcases htail.next_mem hi with hnil | hmem
    · exact ha (heq.symm.trans hnil)
    · rw [heq] at hmem
      exact (nodup_cons.mp hnd).1 (mem_of_mem_tail hmem)
  | cons b l₁ ih =>
    obtain ⟨rfl, hb, htail⟩ := h
    obtain ⟨hnotin, hnd'⟩ := nodup_cons.mp hnd
    have hne : s ≠ a := by
      rintro rfl
      exact hnotin (mem_append_right _ mem_cons_self)
    rw [if_neg hne]
    refine ⟨rfl, hb, ?_⟩
    rw [hn s mem_cons_self]
    exact ih htail hnd' fun i hi => hn i (mem_cons_of_mem s hi)

-- == and back

theorem Back.congr {p : Nat} (h : Back prev p l)
    (hp : ∀ i ∈ l, prev' i = prev i) : Back prev' p l := by
  induction l generalizing p with
  | nil => trivial
  | cons a l ih =>
    refine ⟨(hp a mem_cons_self).trans h.1, ?_⟩
    exact ih h.2 fun i hi => hp i (mem_cons_of_mem a hi)

theorem Back.prev_mem {p : Nat} (h : Back prev p l) {i : Nat} (hi : i ∈ l) :
    prev i = p ∨ prev i ∈ l := by
  induction l generalizing p with
  | nil => cases hi
  | cons a l ih =>
    rcases mem_cons.mp hi with rfl | hi
    · exact .inl h.1
    · rcases ih h.2 hi with heq | hmem
      · exact .inr (heq ▸ mem_cons_self)
      · exact .inr (mem_cons_of_mem a hmem)

theorem Back.push {p q a : Nat} (h : Back prev p l) (ha : prev' a = q)
    (hfirst : ∀ i, l.head? = some i → prev' i = a) (hrest : ∀ i ∈ l.tail, prev' i = prev i) :
    Back prev' q (a :: l) := by
  refine ⟨ha, ?_⟩
  cases l with
  | nil => trivial
  | cons b l => exact ⟨hfirst b rfl, h.2.congr hrest⟩

theorem Back.remove {p a : Nat} {l₁ l₂ : List Nat} (h : Back prev p (l₁ ++ a :: l₂))
    (hpa : p ≠ a) (hnd : (l₁ ++ a :: l₂).Nodup)
    (hp : ∀ i ∈ l₁ ++ l₂, prev' i = if prev i = a then prev a else prev i) :
    Back prev' p (l₁ ++ l₂) := by
  induction l₁ generalizing p with
  | nil =>
    obtain ⟨hfirst, htail⟩ := h
    cases l₂ with
    | nil => trivial
    | cons c l₂ =>
      obtain ⟨hnotin, -⟩ := nodup_cons.mp hnd
      refine ⟨?_, ?_⟩
      · rw [hp c mem_cons_self, if_pos htail.1, hfirst]
      · refine htail.2.congr ?_
        intro i hi
        rw [hp i (mem_cons_of_mem c hi), if_neg]
        intro heq
        apply hnotin
        rcases htail.2.prev_mem hi with hc | hmem
        · rw [← heq, hc]
          exact mem_cons_self
        · rw [← heq]
          exact mem_cons_of_mem c hmem
  | cons b l₁ ih =>
    obtain ⟨hnotin, hnd'⟩ := nodup_cons.mp hnd
    have hne : b ≠ a := by
      rintro rfl
      exact hnotin (mem_append_right _ mem_cons_self)
    refine ⟨?_, ih h.2 hne hnd' fun i hi => hp i (mem_cons_of_mem b hi)⟩
    rw [hp b mem_cons_self, h.1, if_neg hpa]

-- == both ways

/-- The links back are those forward, turned round. -/
theorem Path.prev_next {s p : Nat} (h : Path nil next s l) (hb : Back prev p l)
    {i : Nat} (hi : i ∈ l) : next i = nil ∨ next i ∈ l ∧ prev (next i) = i := by
  induction l generalizing s p with
  | nil => cases hi
  | cons a l ih =>
    obtain ⟨-, -, htail⟩ := h
    rcases mem_cons.mp hi with rfl | hi
    · cases l with
      | nil => exact .inl htail
      | cons b l =>
        refine .inr ?_
        rw [htail.1]
        exact ⟨mem_cons_of_mem _ mem_cons_self, hb.2.1⟩
    · rcases ih htail hb.2 hi with hnil | ⟨hmem, heq⟩
      · exact .inl hnil
      · exact .inr ⟨mem_cons_of_mem a hmem, heq⟩

theorem Path.next_prev {s p : Nat} (h : Path nil next s l) (hb : Back prev p l)
    {i : Nat} (hi : i ∈ l) :
    (s = i ∧ prev i = p) ∨ (prev i ∈ l ∧ next (prev i) = i) := by
  induction l generalizing s p with
  | nil => cases hi
  | cons a l ih =>
    obtain ⟨hs, -, htail⟩ := h
    rcases mem_cons.mp hi with rfl | hi
    · exact .inl ⟨hs, hb.1⟩
    · rcases ih htail hb.2 hi with ⟨hnext, hprev⟩ | ⟨hmem, heq⟩
      · rw [hprev]
        exact .inr ⟨mem_cons_self, hnext⟩
      · exact .inr ⟨mem_cons_of_mem a hmem, heq⟩

end Molt.Lib
