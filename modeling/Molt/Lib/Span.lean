/-
Half-open ranges of numbers, and lists of ranges with gaps between them.

A list of ranges is `Gapped` if each is nonempty and lies below the next
with a gap. Such a list is determined by the numbers it covers
(`Gapped.ext`), so it is the way to write a set of numbers as few ranges.
`insert` adds a range to one, joining it to what it touches, and `coalesce`
writes any ranges that lie apart as one.
-/
import Mathlib

namespace Molt.Lib

open List

structure Span where
  start : Nat
  stop : Nat
  deriving DecidableEq

namespace Span

instance : Membership Nat Span := ⟨fun s x => s.start ≤ x ∧ x < s.stop⟩

instance (s : Span) (x : Nat) : Decidable (x ∈ s) := inferInstanceAs (Decidable (_ ∧ _))

theorem mem_iff {s : Span} {x : Nat} : x ∈ s ↔ s.start ≤ x ∧ x < s.stop := Iff.rfl

def bytes (s : Span) : Nat := s.stop - s.start

def Covers (s t : Span) : Prop := s.start ≤ t.start ∧ t.stop ≤ s.stop

/-- One of the two lies below the other. -/
def Apart (s t : Span) : Prop := s.stop ≤ t.start ∨ t.stop ≤ s.start

instance (s t : Span) : Decidable (Covers s t) := inferInstanceAs (Decidable (_ ∧ _))

variable {s t u : Span} {x : Nat}

theorem Apart.symm (h : s.Apart t) : t.Apart s := Or.symm h

theorem Apart.of_covers (h : s.Apart t) (hu : s.Covers u) : u.Apart t := by
  unfold Apart Covers at *
  omega

theorem Apart.not_mem (h : s.Apart t) (hs : x ∈ s) : x ∉ t := by
  rw [mem_iff] at *
  unfold Apart at h
  omega

theorem apart_of_disjoint (hs : s.start < s.stop) (ht : t.start < t.stop)
    (h : ∀ x ∈ s, x ∉ t) : s.Apart t := by
  have h1 := h s.start
  have h2 := h t.start
  simp only [mem_iff] at h1 h2
  unfold Apart
  omega

-- == lists

def Within (l : List Span) (x : Nat) : Prop := ∃ s ∈ l, x ∈ s

/-- Nonempty ranges in order, with a gap after each. -/
structure Gapped (l : List Span) : Prop where
  nonempty : ∀ s ∈ l, s.start < s.stop
  gaps : l.Pairwise fun s t => s.stop < t.start

variable {l l' : List Span}

theorem within_nil : ¬ Within [] x := by
  rintro ⟨s, hs, -⟩
  cases hs

theorem within_cons : Within (s :: l) x ↔ x ∈ s ∨ Within l x := by
  unfold Within
  simp

theorem within_append : Within (l ++ l') x ↔ Within l x ∨ Within l' x := by
  unfold Within
  simp [or_and_right, exists_or]

theorem Gapped.nil : Gapped [] := ⟨by simp, List.Pairwise.nil⟩

theorem gapped_cons : Gapped (s :: l)
    ↔ s.start < s.stop ∧ (∀ t ∈ l, s.stop < t.start) ∧ Gapped l := by
  constructor
  · intro h
    obtain ⟨hfirst, hrest⟩ := pairwise_cons.mp h.gaps
    exact ⟨h.nonempty s mem_cons_self, hfirst,
      fun t ht => h.nonempty t (mem_cons_of_mem s ht), hrest⟩
  · rintro ⟨hs, hfirst, hl⟩
    refine ⟨?_, pairwise_cons.mpr ⟨hfirst, hl.gaps⟩⟩
    intro t ht
    rcases mem_cons.mp ht with rfl | ht
    · exact hs
    · exact hl.nonempty t ht

/-- Nothing a gapped list covers is below its first range, or just above it. -/
theorem Gapped.first (h : Gapped (s :: l)) (hx : Within (s :: l) x) :
    s.start ≤ x ∧ (x ≤ s.stop → x < s.stop) := by
  obtain ⟨hs, hfirst, hl⟩ := gapped_cons.mp h
  rcases within_cons.mp hx with hx | ⟨t, ht, hx⟩
  · rw [mem_iff] at hx
    omega
  · have := hfirst t ht
    rw [mem_iff] at hx
    omega

theorem Gapped.ext (h : Gapped l) (h' : Gapped l') (hcover : ∀ x, Within l x ↔ Within l' x) :
    l = l' := by
  induction l generalizing l' with
  | nil =>
    cases l' with
    | nil => rfl
    | cons t l' =>
      have ht := h'.nonempty t mem_cons_self
      have : Within (t :: l') t.start := within_cons.mpr (.inl ⟨le_rfl, ht⟩)
      exact absurd ((hcover _).mpr this) within_nil
  | cons s l ih =>
    cases l' with
    | nil =>
      have hs := h.nonempty s mem_cons_self
      have : Within (s :: l) s.start := within_cons.mpr (.inl ⟨le_rfl, hs⟩)
      exact absurd ((hcover _).mp this) within_nil
    | cons t l' =>
      obtain ⟨hs, hfirst, hl⟩ := gapped_cons.mp h
      obtain ⟨ht, hfirst', hl'⟩ := gapped_cons.mp h'
      -- both begin at the least number covered
      have hstart : s.start = t.start := by
        have h1 := (h'.first ((hcover s.start).mp (within_cons.mpr (.inl ⟨le_rfl, hs⟩)))).1
        have h2 := (h.first ((hcover t.start).mpr (within_cons.mpr (.inl ⟨le_rfl, ht⟩)))).1
        omega
      -- and end where the next number is not covered
      have hstop : s.stop = t.stop := by
        rcases Nat.lt_trichotomy s.stop t.stop with hlt | heq | hlt
        · have hmem : Within (t :: l') s.stop := within_cons.mpr (.inl ⟨by omega, hlt⟩)
          have := (h.first ((hcover _).mpr hmem)).2 le_rfl
          omega
        · exact heq
        · have hmem : Within (s :: l) t.stop := within_cons.mpr (.inl ⟨by omega, hlt⟩)
          have := (h'.first ((hcover _).mp hmem)).2 le_rfl
          omega
      have hst : s = t := by
        cases s
        cases t
        simp_all
      subst hst
      have hrest : ∀ x, Within l x ↔ Within l' x := by
        intro x
        have hout : ∀ {m : List Span}, (∀ u ∈ m, s.stop < u.start) → Within m x → x ∉ s := by
          rintro m hm ⟨u, hu, hx⟩ hxs
          have := hm u hu
          rw [mem_iff] at hx hxs
          omega
        have := hcover x
        rw [within_cons, within_cons] at this
        constructor
        · intro hx
          exact (this.mp (.inr hx)).resolve_left (hout hfirst hx)
        · intro hx
          exact (this.mpr (.inr hx)).resolve_left (hout hfirst' hx)
      rw [ih hl hl' hrest]

theorem Gapped.covers (h : Gapped l) (hs : s.start < s.stop) (hcover : ∀ x ∈ s, Within l x) :
    ∃ t ∈ l, t.Covers s := by
  obtain ⟨t, ht, hmem⟩ := hcover s.start ⟨le_rfl, hs⟩
  refine ⟨t, ht, ?_⟩
  rw [mem_iff] at hmem
  unfold Covers
  by_cases hle : s.stop ≤ t.stop
  · exact ⟨hmem.1, hle⟩
  -- the number just above `t` would be in another range
  obtain ⟨u, hu, hmemu⟩ := hcover t.stop ⟨by omega, by omega⟩
  rw [mem_iff] at hmemu
  have htu : t ≠ u := by
    rintro rfl
    omega
  have hpair : t.stop < u.start ∨ u.stop < t.start := by
    obtain ⟨l1, l2, rfl⟩ := append_of_mem ht
    obtain ⟨-, hright, hleft⟩ := pairwise_append.mp h.gaps
    rcases mem_append.mp hu with hu | hu
    · exact .inr (hleft u hu t mem_cons_self)
    · rcases mem_cons.mp hu with heq | hu
      · exact absurd heq.symm htu
      · exact .inl ((pairwise_cons.mp hright).1 u hu)
  omega

-- -- insertion

/-- Puts a range before a list, joined to the first range if they touch. -/
def glue (s : Span) : List Span → List Span
  | [] => [s]
  | t :: l => if s.stop = t.start then ⟨s.start, t.stop⟩ :: l else s :: t :: l

/-- Adds a range to a gapped list. -/
def insert (s : Span) : List Span → List Span
  | [] => [s]
  | t :: l => if t.start < s.start then glue t (insert s l) else glue s (t :: l)

def coalesce (l : List Span) : List Span := l.foldr insert []

def total (l : List Span) : Nat := (l.map bytes).sum

theorem glue_touch (h : s.stop = t.start) : glue s (t :: l) = ⟨s.start, t.stop⟩ :: l := if_pos h

theorem glue_gap (h : s.stop ≠ t.start) : glue s (t :: l) = s :: t :: l := if_neg h

theorem insert_past (h : t.start < s.start) : insert s (t :: l) = glue t (insert s l) := if_pos h

theorem insert_here (h : ¬ t.start < s.start) : insert s (t :: l) = glue s (t :: l) := if_neg h

theorem total_cons : total (s :: l) = s.bytes + total l := by
  simp [total]

theorem total_append : total (l ++ l') = total l + total l' := by
  simp [total]

theorem within_glue (hs : s.start < s.stop) (hl : ∀ t ∈ l, t.start < t.stop) :
    Within (glue s l) x ↔ x ∈ s ∨ Within l x := by
  cases l with
  | nil => rw [glue, within_cons]
  | cons t l =>
    have ht := hl t mem_cons_self
    by_cases heq : s.stop = t.start
    · rw [glue_touch heq, within_cons, within_cons, ← or_assoc]
      apply or_congr_left
      rw [mem_iff, mem_iff, mem_iff]
      dsimp only
      omega
    · rw [glue_gap heq, within_cons]

theorem total_glue (hs : s.start < s.stop) (hl : ∀ t ∈ l, t.start < t.stop) :
    total (glue s l) = s.bytes + total l := by
  cases l with
  | nil => rfl
  | cons t l =>
    have ht := hl t mem_cons_self
    by_cases heq : s.stop = t.start
    · rw [glue_touch heq, total_cons, total_cons]
      unfold bytes
      dsimp only
      omega
    · rw [glue_gap heq, total_cons]

theorem mem_glue (h : t ∈ glue s l) : t.start = s.start ∨ t ∈ l := by
  cases l with
  | nil => exact .inl (congrArg Span.start (mem_singleton.mp h))
  | cons u l =>
    by_cases heq : s.stop = u.start
    · rw [glue_touch heq] at h
      rcases mem_cons.mp h with rfl | h
      · exact .inl rfl
      · exact .inr (mem_cons_of_mem u h)
    · rw [glue_gap heq] at h
      rcases mem_cons.mp h with rfl | h
      · exact .inl rfl
      · exact .inr h

theorem Gapped.glue (hs : s.start < s.stop) (h : Gapped l) (hle : ∀ t ∈ l, s.stop ≤ t.start) :
    Gapped (glue s l) := by
  cases l with
  | nil => exact gapped_cons.mpr ⟨hs, by simp, .nil⟩
  | cons t l =>
    obtain ⟨ht, hfirst, hl⟩ := gapped_cons.mp h
    have hst := hle t mem_cons_self
    by_cases heq : s.stop = t.start
    · rw [glue_touch heq]
      refine gapped_cons.mpr ⟨?_, hfirst, hl⟩
      show s.start < t.stop
      omega
    · rw [glue_gap heq]
      refine gapped_cons.mpr ⟨hs, ?_, h⟩
      intro u hu
      rcases mem_cons.mp hu with rfl | hu
      · omega
      · have := hfirst u hu
        omega

theorem Gapped.insert (h : Gapped l) (hs : s.start < s.stop) (hapart : ∀ t ∈ l, s.Apart t) :
    Gapped (insert s l) ∧ (∀ x, Within (insert s l) x ↔ x ∈ s ∨ Within l x)
      ∧ total (insert s l) = s.bytes + total l
      ∧ ∀ t ∈ insert s l, s.start ≤ t.start ∨ ∃ u ∈ l, u.start ≤ t.start := by
  induction l with
  | nil =>
    refine ⟨gapped_cons.mpr ⟨hs, by simp, .nil⟩, fun x => within_cons, rfl, ?_⟩
    intro t ht
    rw [mem_singleton.mp ht]
    exact .inl le_rfl
  | cons t l ih =>
    obtain ⟨ht, hfirst, hl⟩ := gapped_cons.mp h
    have hst := hapart t mem_cons_self
    by_cases hlt : t.start < s.start
    · obtain ⟨hg, hw, htot, hlow⟩ := ih hl fun u hu => hapart u (mem_cons_of_mem t hu)
      rw [insert_past hlt]
      have hle : ∀ u ∈ Span.insert s l, t.stop ≤ u.start := by
        intro u hu
        rcases hlow u hu with hsu | ⟨v, hv, hvu⟩
        · unfold Apart at hst
          omega
        · have := hfirst v hv
          omega
      refine ⟨hg.glue ht hle, ?_, ?_, ?_⟩
      · intro x
        rw [within_glue ht hg.nonempty, hw, within_cons]
        exact or_left_comm
      · rw [total_glue ht hg.nonempty, htot, total_cons]
        omega
      · intro u hu
        refine .inr ⟨t, mem_cons_self, ?_⟩
        have hx : Within (Span.glue t (Span.insert s l)) u.start :=
          ⟨u, hu, le_rfl, (hg.glue ht hle).nonempty u hu⟩
        rw [within_glue ht hg.nonempty] at hx
        rcases hx with hx | ⟨v, hv, hx⟩
        · exact hx.1
        · have := hle v hv
          rw [mem_iff] at hx
          omega
    · rw [insert_here hlt]
      have hle : ∀ u ∈ t :: l, s.stop ≤ u.start := by
        have hstop : s.stop ≤ t.start := by
          unfold Apart at hst
          omega
        intro u hu
        rcases mem_cons.mp hu with rfl | hu
        · exact hstop
        · have := hfirst u hu
          omega
      refine ⟨h.glue hs hle, fun x => within_glue hs h.nonempty, total_glue hs h.nonempty, ?_⟩
      intro u hu
      refine .inl ?_
      have hx : Within (Span.glue s (t :: l)) u.start :=
        ⟨u, hu, le_rfl, (h.glue hs hle).nonempty u hu⟩
      rw [within_glue hs h.nonempty] at hx
      rcases hx with hx | ⟨v, hv, hx⟩
      · exact hx.1
      · have := hle v hv
        rw [mem_iff] at hx
        omega

section

variable {P : Span → Prop} (hjoin : ∀ s t, P s → P t → s.stop = t.start → P ⟨s.start, t.stop⟩)
  (hs : P s) (hl : ∀ t ∈ l, P t)
include hjoin hs hl

theorem forall_glue : ∀ t ∈ glue s l, P t := by
  cases l with
  | nil =>
    intro t ht
    rw [mem_singleton.mp ht]
    exact hs
  | cons u l =>
    intro t ht
    by_cases heq : s.stop = u.start
    · rw [glue_touch heq] at ht
      rcases mem_cons.mp ht with rfl | ht
      · exact hjoin s u hs (hl u mem_cons_self) heq
      · exact hl t (mem_cons_of_mem u ht)
    · rw [glue_gap heq] at ht
      rcases mem_cons.mp ht with rfl | ht
      · exact hs
      · exact hl t ht

theorem forall_insert : ∀ t ∈ insert s l, P t := by
  induction l with
  | nil =>
    intro t ht
    rw [mem_singleton.mp ht]
    exact hs
  | cons u l ih =>
    have hrest : ∀ t ∈ l, P t := fun t ht => hl t (mem_cons_of_mem u ht)
    by_cases hlt : u.start < s.start
    · rw [insert_past hlt]
      exact forall_glue hjoin (hl u mem_cons_self) (ih hrest)
    · rw [insert_here hlt]
      exact forall_glue hjoin hs hl

end

/-- Where the range goes in, the list before it is left alone but for its last. -/
theorem insert_append {l1 l2 : List Span} (h : Gapped (l1 ++ t :: l2)) (hlt : t.start < s.start)
    (hle : ∀ u, l2.head? = some u → ¬ u.start < s.start) :
    insert s (l1 ++ t :: l2) = l1 ++ glue t (glue s l2) := by
  induction l1 with
  | nil =>
    have hin : insert s l2 = glue s l2 := by
      cases l2 with
      | nil => rfl
      | cons u l2 => exact insert_here (hle u rfl)
    show insert s (t :: l2) = glue t (glue s l2)
    rw [insert_past hlt, hin]
  | cons a l1 ih =>
    obtain ⟨ha, hfirst, hl⟩ := gapped_cons.mp h
    have hat := hfirst t (mem_append_right _ mem_cons_self)
    show insert s (a :: (l1 ++ t :: l2)) = a :: (l1 ++ glue t (glue s l2))
    rw [insert_past (by omega), ih hl]
    -- what follows `a` begins where it did, or where `t` does
    have hgap : ∀ u, (l1 ++ glue t (glue s l2)).head? = some u → a.stop < u.start := by
      intro u hu
      cases l1 with
      | cons b l1 =>
        have hu : b = u := Option.some.inj hu
        rw [← hu]
        exact hfirst b (mem_append_left _ mem_cons_self)
      | nil =>
        have : u.start = t.start := by
          have hu : (glue t (glue s l2)).head? = some u := hu
          unfold glue at hu
          split at hu
          · cases hu
            rfl
          · split at hu <;> cases hu <;> rfl
        omega
    cases hm : l1 ++ glue t (glue s l2) with
    | nil => rfl
    | cons u m =>
      rw [hm] at hgap
      have := hgap u rfl
      exact glue_gap (by omega)

theorem Gapped.replace {l1 l2 r : List Span} (h : Gapped (l1 ++ s :: l2)) (hr : Gapped r)
    (hin : ∀ u ∈ r, s.Covers u) : Gapped (l1 ++ r ++ l2) := by
  obtain ⟨hleft, hright, hcross⟩ := pairwise_append.mp h.gaps
  obtain ⟨hfirst, hright⟩ := pairwise_cons.mp hright
  have hlow : ∀ t ∈ l1, ∀ u ∈ r, t.stop < u.start := by
    intro t ht u hu
    have := hcross t ht s mem_cons_self
    have := (hin u hu).1
    omega
  have hhigh : ∀ u ∈ r, ∀ t ∈ l2, u.stop < t.start := by
    intro u hu t ht
    have := hfirst t ht
    have := (hin u hu).2
    omega
  refine ⟨?_, pairwise_append.mpr ⟨pairwise_append.mpr ⟨hleft, hr.gaps, hlow⟩, hright, ?_⟩⟩
  · intro t ht
    rcases mem_append.mp ht with ht | ht
    · rcases mem_append.mp ht with ht | ht
      · exact h.nonempty t (mem_append_left _ ht)
      · exact hr.nonempty t ht
    · exact h.nonempty t (mem_append_right _ (mem_cons_of_mem s ht))
  · intro t ht u hu
    rcases mem_append.mp ht with ht | ht
    · exact hcross t ht u (mem_cons_of_mem s hu)
    · exact hhigh t ht u hu

theorem gapped_coalesce (hne : ∀ s ∈ l, s.start < s.stop) (hapart : l.Pairwise Apart) :
    Gapped (coalesce l) ∧ (∀ x, Within (coalesce l) x ↔ Within l x)
      ∧ total (coalesce l) = total l := by
  induction l with
  | nil => exact ⟨.nil, fun x => Iff.rfl, rfl⟩
  | cons s l ih =>
    obtain ⟨hfirst, hrest⟩ := pairwise_cons.mp hapart
    obtain ⟨hg, hw, ht⟩ := ih (fun t ht => hne t (mem_cons_of_mem s ht)) hrest
    have hs := hne s mem_cons_self
    -- the range meets no range of the coalesced rest
    have hapart' : ∀ t ∈ coalesce l, s.Apart t := by
      intro t ht
      refine apart_of_disjoint hs (hg.nonempty t ht) ?_
      intro x hxs hxt
      obtain ⟨u, hu, hxu⟩ := (hw _).mp ⟨t, ht, hxt⟩
      exact (hfirst u hu).not_mem hxs hxu
    obtain ⟨hg', hw', ht', -⟩ := hg.insert hs hapart'
    refine ⟨hg', ?_, ?_⟩
    · intro x
      rw [within_cons, ← hw]
      exact hw' x
    · rw [total_cons, ← ht]
      exact ht'

end Span

end Molt.Lib
