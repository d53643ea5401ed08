/-
The kernel heap keeps its bytes.

# The list in memory

`Listed m p l q` says that the headers in memory spell the chunks `l`, from
the chunk at `p` to the pointer `q`. Linking and merging write to the headers
of the chunks they join, and every other address keeps what it holds, so a
live header inside a live chunk is safe from them.

# The partition

`Sound` says that free chunks and live chunks are apart, that together they
cover what was donated, and that the free ones are a gapped list. Such a list
is determined by what it covers, so with nothing live it is the donated
bytes, coalesced.
-/
import Molt.Alloc.Heap

namespace Molt.Alloc

open Molt.Lib List Span Heap

-- == memory

theorem Memory.set_self (m : Memory) (a : Nat) (v : Nat × Nat) : m.set a v a = v := if_pos rfl

theorem Memory.set_ne (m : Memory) {a x : Nat} (v : Nat × Nat) (h : x ≠ a) : m.set a v x = m x :=
  if_neg h

/-- The headers in memory spell these chunks, from one pointer to another. -/
def Listed (m : Memory) : Nat → List Span → Nat → Prop
  | p, [], q => p = q
  | p, s :: l, q => p = s.start ∧ (m s.start).1 = s.bytes ∧ Listed m (m s.start).2 l q

section Listed

variable {m m' : Memory} {p q r : Nat} {s t : Span} {l l1 l2 : List Span}

theorem Listed.congr (h : Listed m p l q) (hm : ∀ c ∈ l, m' c.start = m c.start) :
    Listed m' p l q := by
  induction l generalizing p with
  | nil => exact h
  | cons s l ih =>
    obtain ⟨hp, hsize, hrest⟩ := h
    have hs := hm s mem_cons_self
    refine ⟨hp, ?_, ?_⟩
    · rw [hs]
      exact hsize
    · rw [hs]
      exact ih hrest fun c hc => hm c (mem_cons_of_mem s hc)

theorem listed_append : Listed m p (l1 ++ l2) q ↔ ∃ r, Listed m p l1 r ∧ Listed m r l2 q := by
  induction l1 generalizing p with
  | nil =>
    constructor
    · intro h
      exact ⟨p, rfl, h⟩
    · rintro ⟨r, rfl, h⟩
      exact h
  | cons s l ih =>
    constructor
    · rintro ⟨hp, hsize, h⟩
      obtain ⟨r, h1, h2⟩ := ih.mp h
      exact ⟨r, ⟨hp, hsize, h1⟩, h2⟩
    · rintro ⟨r, ⟨hp, hsize, h1⟩, h2⟩
      exact ⟨hp, hsize, ih.mpr ⟨r, h1, h2⟩⟩

def lastStart (l : List Span) : Nat := (l.getLast?.map start).getD 0

theorem lastStart_concat : lastStart (l ++ [t]) = t.start := by
  simp [lastStart]

/-- What `relink` does to the chunks before: they lead to `r`. -/
theorem Listed.relink {h : Heap} (hl : Listed m h.free l q) (hpos : ∀ c ∈ l, c.start ≠ 0)
    (hnd : (l.map start).Nodup) (r : Nat) :
    ∃ p m', h.relink m (lastStart l) r = ({ h with free := p }, m') ∧ Listed m' p l r
      ∧ ∀ a, (∀ c ∈ l, a ≠ c.start) → m' a = m a := by
  rcases eq_nil_or_concat l with rfl | ⟨l0, t, rfl⟩
  · exact ⟨r, m, if_pos rfl, rfl, fun _ _ => rfl⟩
  rw [concat_eq_append] at hl hpos hnd ⊢
  rw [lastStart_concat]
  have ht : t.start ≠ 0 := hpos t (mem_append_right _ (mem_singleton.mpr rfl))
  refine ⟨h.free, m.set t.start ((m t.start).1, r), if_neg ht, ?_,
    fun a ha => m.set_ne _ (ha t (mem_append_right _ (mem_singleton.mpr rfl)))⟩
  obtain ⟨q', h0, h1⟩ := listed_append.mp hl
  obtain ⟨hq, hsize, -⟩ := h1
  refine listed_append.mpr ⟨q', ?_, hq, ?_, ?_⟩
  · refine h0.congr ?_
    intro c hc
    apply m.set_ne
    intro heq
    rw [map_append, nodup_append] at hnd
    exact hnd.2.2 _ (mem_map_of_mem hc) _ (mem_singleton.mpr rfl) heq
  · rw [m.set_self]
    exact hsize
  · rw [m.set_self]
    rfl

/-- What `join` does: a chunk before a list, merged with its first if they
touch. -/
theorem Listed.join (hl : Listed m p l 0) (hs : m s.start = (s.bytes, p)) (hle : s.start ≤ s.stop)
    (hpos : ∀ c ∈ l, c.start ≠ 0 ∧ c.start ≤ c.stop) (hne : ∀ c ∈ l, c.start ≠ s.start) :
    Listed (join m s.start p) s.start (glue s l) 0
      ∧ ∀ a, a ≠ s.start → join m s.start p a = m a := by
  have hstop : s.start + s.bytes = s.stop := by
    unfold bytes
    omega
  unfold Heap.join
  cases l with
  | nil =>
    have hp : p = 0 := hl
    rw [if_neg fun h => h.1 hp]
    refine ⟨⟨rfl, ?_, ?_⟩, fun _ _ => rfl⟩
    · rw [hs]
    · rw [hs]
      exact hp
  | cons u l =>
    obtain ⟨hp, hsize, hrest⟩ := hl
    obtain ⟨hu0, hule⟩ := hpos u mem_cons_self
    by_cases heq : s.stop = u.start
    · have hcond : p ≠ 0 ∧ s.start + (m s.start).1 = p := by
        rw [hs, hp]
        exact ⟨hu0, hstop.trans heq⟩
      rw [if_pos hcond, glue_touch heq]
      refine ⟨⟨rfl, ?_, ?_⟩, fun a ha => m.set_ne _ ha⟩
      · rw [m.set_self, hs, hp, hsize]
        unfold bytes
        dsimp only
        omega
      · rw [m.set_self, hp]
        refine hrest.congr ?_
        intro c hc
        exact m.set_ne _ (hne c (mem_cons_of_mem u hc))
    · have hcond : ¬ (p ≠ 0 ∧ s.start + (m s.start).1 = p) := by
        rintro ⟨-, h⟩
        rw [hs, hp, hstop] at h
        exact heq h
      rw [if_neg hcond, glue_gap heq]
      refine ⟨⟨rfl, ?_, ?_⟩, fun _ _ => rfl⟩
      · rw [hs]
      · rw [hs]
        exact ⟨hp, hsize, hrest⟩

/-- The loop of `insert` stops between the chunks below the block and those
above it. -/
theorem seek_spec (block : Nat) {turns : Nat} (hl : Listed m p l 0) (hpos : ∀ c ∈ l, c.start ≠ 0)
    (hturns : l.length ≤ turns) (previous : Nat) :
    ∃ l1 l2 next, l = l1 ++ l2
      ∧ seek m block turns previous p = (if l1 = [] then previous else lastStart l1, next)
      ∧ Listed m p l1 next ∧ Listed m next l2 0 ∧ (∀ c ∈ l1, c.start < block)
      ∧ ∀ u, l2.head? = some u → ¬ u.start < block := by
  induction l generalizing p turns previous with
  | nil =>
    have hp : p = 0 := hl
    refine ⟨[], [], p, rfl, ?_, rfl, hl, by simp, by simp⟩
    cases turns with
    | zero => rfl
    | succ turns =>
      rw [seek, if_neg fun h => h.1 hp]
      rfl
  | cons s l ih =>
    obtain ⟨hp, hsize, hrest⟩ := hl
    cases turns with
    | zero => exact absurd hturns (Nat.not_succ_le_zero _)
    | succ turns =>
      rw [seek]
      by_cases hlt : s.start < block
      · have hcond : p ≠ 0 ∧ p < block := by
          rw [hp]
          exact ⟨hpos s mem_cons_self, hlt⟩
        rw [if_pos hcond, hp]
        obtain ⟨l1, l2, next, hsplit, hseek, h1, h2, hbelow, habove⟩ :=
          ih hrest (fun c hc => hpos c (mem_cons_of_mem s hc))
            (Nat.le_of_succ_le_succ hturns) s.start
        refine ⟨s :: l1, l2, next, by rw [hsplit]; rfl, ?_, ⟨rfl, hsize, h1⟩, h2, ?_, habove⟩
        · rw [hseek, if_neg (cons_ne_nil _ _)]
          congr 1
          cases l1 with
          | nil => rfl
          | cons c l1 =>
            rw [if_neg (cons_ne_nil _ _)]
            rfl
        · intro c hc
          rcases mem_cons.mp hc with rfl | hc
          · exact hlt
          · exact hbelow c hc
      · have hcond : ¬ (p ≠ 0 ∧ p < block) := by
          rintro ⟨-, h⟩
          rw [hp] at h
          exact hlt h
        rw [if_neg hcond]
        refine ⟨[], s :: l, p, rfl, rfl, rfl, ⟨hp, hsize, hrest⟩, by simp, ?_⟩
        intro u hu
        cases hu
        exact hlt

theorem gapped_starts (h : Gapped l) : (l.map start).Nodup := by
  have hlt : (l.map start).Pairwise (· < ·) := by
    rw [pairwise_map]
    refine h.gaps.imp_of_mem ?_
    intro s t hs _ hst
    have := h.nonempty s hs
    omega
  exact hlt.imp Nat.ne_of_lt

/-- Linking a block in: the list has its span, and memory changes in the
headers of the list and of the block alone. -/
theorem insert_spec {h : Heap} (hl : Listed m h.free l 0) (hg : Gapped l)
    (hpos : ∀ c ∈ l, c.start ≠ 0) (hs : s.start < s.stop) (hs0 : s.start ≠ 0)
    (hapart : ∀ c ∈ l, s.Apart c) (hsize : (m s.start).1 = s.bytes)
    (hturns : l.length ≤ h.size) :
    ∃ p m', h.insert m s.start = ({ h with free := p }, m')
      ∧ Listed m' p (Span.insert s l) 0
      ∧ ∀ a, a ≠ s.start → (∀ c ∈ l, a ≠ c.start) → m' a = m a := by
  obtain ⟨l1, l2, next, rfl, hseek, h1, h2, hbelow, habove⟩ := seek_spec s.start hl hpos hturns 0
  have hnd := gapped_starts hg
  have hne : ∀ c ∈ l1 ++ l2, c.start ≠ s.start := by
    intro c hc heq
    have := hapart c hc
    have := hg.nonempty c hc
    unfold Apart at *
    omega
  have hprev : (if l1 = [] then 0 else lastStart l1) = lastStart l1 := by
    split
    · rename_i hnil
      rw [hnil]
      rfl
    · rfl
  rw [hprev] at hseek
  unfold Heap.insert
  rw [hseek]
  dsimp only
  -- the block is linked between the two parts
  have hl1 : Listed (m.set s.start ((m s.start).1, next)) h.free l1 next := by
    refine h1.congr ?_
    intro c hc
    exact m.set_ne _ (hne c (mem_append_left _ hc))
  obtain ⟨p, m2, hrelink, hlist1, hframe1⟩ := hl1.relink
    (fun c hc => hpos c (mem_append_left _ hc))
    (by rw [map_append, nodup_append] at hnd; exact hnd.1) s.start
  rw [hrelink]
  have hdisj : ∀ c ∈ l2, ∀ t ∈ l1, c.start ≠ t.start := by
    intro c hc t ht heq
    rw [map_append, nodup_append] at hnd
    exact hnd.2.2 _ (mem_map_of_mem ht) _ (mem_map_of_mem hc) heq.symm
  have hblock : m2 s.start = (s.bytes, next) := by
    rw [hframe1 _ fun c hc => (hne c (mem_append_left _ hc)).symm, m.set_self, hsize]
  have hl2 : Listed m2 next l2 0 := by
    refine h2.congr ?_
    intro c hc
    rw [hframe1 _ (hdisj c hc)]
    exact m.set_ne _ (hne c (mem_append_right _ hc))
  obtain ⟨hlist2, hframe2⟩ := hl2.join hblock hs.le
    (fun c hc => ⟨hpos c (mem_append_right _ hc),
      Nat.le_of_lt (hg.nonempty c (mem_append_right _ hc))⟩)
    (fun c hc => hne c (mem_append_right _ hc))
  have hframe : ∀ a, a ≠ s.start → (∀ c ∈ l1, a ≠ c.start) → join m2 s.start next a = m a := by
    intro a has hal
    rw [hframe2 a has, hframe1 a hal, m.set_ne _ has]
  rcases eq_nil_or_concat l1 with rfl | ⟨l0, t, rfl⟩
  · -- nothing precedes the block
    have hins : Span.insert s ([] ++ l2) = Span.glue s l2 := by
      cases l2 with
      | nil => rfl
      | cons u l2 => exact insert_here (habove u rfl)
    have hp : p = s.start := hlist1
    refine ⟨p, _, rfl, ?_, ?_⟩
    · rw [hins, if_neg fun h => h rfl, hp]
      exact hlist2
    · intro a has _
      rw [if_neg fun h => h rfl]
      exact hframe a has (by simp)
  · -- `t` does, and may take the block in
    rw [concat_eq_append] at *
    have htmem : t ∈ l0 ++ [t] := mem_append_right _ (mem_singleton.mpr rfl)
    have ht0 := hpos t (mem_append_left _ htmem)
    have htne := hg.nonempty t (mem_append_left _ htmem)
    have hg2 : Gapped l2 :=
      ⟨fun c hc => hg.nonempty c (mem_append_right _ hc), (pairwise_append.mp hg.gaps).2.1⟩
    have habove2 : ∀ c ∈ l2, s.stop ≤ c.start := by
      intro c hc
      have hca := hapart c (mem_append_right _ hc)
      have hcn := hg2.nonempty c hc
      have hge : s.start ≤ c.start := by
        cases l2 with
        | nil => cases hc
        | cons u l2 =>
          have hu := habove u rfl
          rcases mem_cons.mp hc with rfl | hc
          · omega
          · have := (pairwise_cons.mp hg2.gaps).1 c hc
            have := hg2.nonempty u mem_cons_self
            omega
      unfold Apart at hca
      omega
    have hgl := hg2.glue hs habove2
    obtain ⟨q, hlist0, htq, htsize, htnext⟩ := listed_append.mp hlist1
    have hst : t.start ≠ s.start := hne t (mem_append_left _ htmem)
    have htm : join m2 s.start next t.start = (t.bytes, s.start) := by
      rw [hframe2 _ hst]
      exact Prod.ext htsize htnext
    obtain ⟨hlist3, hframe3⟩ := hlist2.join htm htne.le (by
        intro c hc
        refine ⟨?_, Nat.le_of_lt (hgl.nonempty c hc)⟩
        rcases mem_glue hc with heq | hc
        · rw [heq]
          exact hs0
        · exact hpos c (mem_append_right _ hc))
      (by
        intro c hc
        rcases mem_glue hc with heq | hc
        · rw [heq]
          exact hst.symm
        · exact hdisj c hc t htmem)
    rw [lastStart_concat]
    refine ⟨p, _, rfl, ?_, ?_⟩
    · rw [append_assoc, singleton_append] at hg ⊢
      rw [if_pos ht0, insert_append hg (hbelow t htmem) habove]
      rw [htq] at hlist0
      refine listed_append.mpr ⟨t.start, hlist0.congr ?_, hlist3⟩
      intro c hc
      have hct : c.start ≠ t.start := by
        intro heq
        rw [map_append, map_append, nodup_append, nodup_append] at hnd
        exact hnd.1.2.2 _ (mem_map_of_mem hc) _ (mem_singleton.mpr rfl) heq
      rw [hframe3 _ hct, hframe2 _ (hne c (mem_append_left _ (mem_append_left _ hc)))]
    · intro a has hal
      rw [if_pos ht0, hframe3 _ (hal t (mem_append_left _ htmem))]
      exact hframe a has fun c hc => hal c (mem_append_left _ hc)

-- -- carving

/-- A chunk a payload is carved out of leaves its rest, if that is worth
keeping. -/
def restOf (c : Span) (finish : Nat) : List Span :=
  if c.stop - finish ≥ MIN then [⟨finish, c.stop⟩] else []

/-- What a payload takes of the chunk it is carved out of. -/
def takenOf (c : Span) (finish : Nat) : Span :=
  ⟨c.start, if c.stop - finish ≥ MIN then finish else c.stop⟩

theorem carve_spec {h : Heap} {payload finish : Nat} (hl : Listed m h.free (l1 ++ s :: l2) 0)
    (hg : Gapped (l1 ++ s :: l2)) (hpos : ∀ c ∈ l1 ++ s :: l2, c.start ≠ 0)
    (hpay : s.start + UNIT ≤ payload) (hfin : payload < finish) (hend : finish ≤ s.stop) :
    ∃ p m', h.carve m (lastStart l1) s.start payload finish
        = ({ h with free := p, used := h.used + (takenOf s finish).bytes }, m')
      ∧ Listed m' p (l1 ++ restOf s finish ++ l2) 0
      ∧ m' (payload - UNIT) = ((takenOf s finish).bytes, (payload - s.start) ||| h.owner)
      ∧ ∀ a, a ≠ payload - UNIT → (a ∉ s) → (∀ c ∈ l1, a ≠ c.start) → m' a = m a := by
  have hM : MIN = 32 := rfl
  obtain ⟨q, h₁, hq, hsize, h₂⟩ := listed_append.mp hl
  have hnd := gapped_starts hg
  have hlast : s.start + (m s.start).1 = s.stop := by
    rw [hsize]
    unfold bytes
    omega
  -- the other chunks lie outside this one
  have hout : ∀ c ∈ l1 ++ l2, c.start ∉ s := by
    intro c hc hmem
    rw [mem_iff] at hmem
    obtain ⟨-, hright, hleft⟩ := pairwise_append.mp hg.gaps
    rcases mem_append.mp hc with hc | hc
    · have := hleft c hc s mem_cons_self
      have := hg.nonempty c (mem_append_left _ hc)
      omega
    · have := (pairwise_cons.mp hright).1 c hc
      omega
  have hinside : ∀ a, s.start ≤ a → a < s.stop → ∀ c ∈ l1 ++ l2, c.start ≠ a := by
    rintro a h1 h2 c hc rfl
    exact hout c hc ⟨h1, h2⟩
  have hcross : ∀ c ∈ l2, ∀ t ∈ l1, c.start ≠ t.start := by
    intro c hc t ht heq
    rw [map_append, map_cons, nodup_append] at hnd
    exact hnd.2.2 _ (mem_map_of_mem ht) _ (mem_cons_of_mem _ (mem_map_of_mem hc)) heq.symm
  have hnd1 : (l1.map start).Nodup := by
    rw [map_append, nodup_append] at hnd
    exact hnd.1
  have hpos1 : ∀ c ∈ l1, c.start ≠ 0 := fun c hc => hpos c (mem_append_left _ hc)
  unfold carve
  rw [hlast]
  by_cases hsplit : s.stop - finish ≥ MIN
  · have hrest : restOf s finish = [⟨finish, s.stop⟩] := if_pos hsplit
    have htaken : takenOf s finish = ⟨s.start, finish⟩ := by
      unfold takenOf
      rw [if_pos hsplit]
    simp only [if_pos hsplit]
    rw [hrest, htaken]
    have hl1 : Listed (m.set finish (s.stop - finish, (m s.start).2)) h.free l1 q := by
      refine h₁.congr ?_
      intro c hc
      exact m.set_ne _ (hinside finish (by omega) (by omega) c (mem_append_left _ hc))
    obtain ⟨p, m2, hrelink, hlist, hframe⟩ := hl1.relink hpos1 hnd1 finish
    rw [hrelink]
    dsimp only
    refine ⟨p, _, rfl, ?_, ?_, ?_⟩
    · refine Listed.congr (m := m2) ?_ ?_
      · rw [append_assoc]
        refine listed_append.mpr ⟨finish, hlist, rfl, ?_, ?_⟩
        · rw [hframe _ fun c hc => (hinside finish (by omega) (by omega) c
            (mem_append_left _ hc)).symm, m.set_self]
          rfl
        · rw [hframe _ fun c hc => (hinside finish (by omega) (by omega) c
            (mem_append_left _ hc)).symm, m.set_self]
          refine h₂.congr ?_
          intro c hc
          rw [hframe _ (hcross c hc)]
          exact m.set_ne _ (hinside finish (by omega) (by omega) c (mem_append_right _ hc))
      · intro c hc
        apply Memory.set_ne
        rw [append_assoc] at hc
        rcases mem_append.mp hc with hc | hc
        · exact hinside _ (by omega) (by omega) c (mem_append_left _ hc)
        · rcases mem_cons.mp hc with rfl | hc
          · show finish ≠ payload - UNIT
            omega
          · exact hinside _ (by omega) (by omega) c (mem_append_right _ hc)
    · exact Memory.set_self ..
    · intro a ha has hal
      rw [Memory.set_ne _ _ ha, hframe a hal, Memory.set_ne]
      rintro rfl
      exact has ⟨by omega, by omega⟩
  · have hrest : restOf s finish = [] := if_neg hsplit
    have htaken : takenOf s finish = s := by
      unfold takenOf
      rw [if_neg hsplit]
    simp only [if_neg hsplit]
    rw [hrest, htaken, append_nil]
    obtain ⟨p, m2, hrelink, hlist, hframe⟩ := h₁.relink hpos1 hnd1 (m s.start).2
    rw [hrelink]
    dsimp only
    refine ⟨p, _, rfl, ?_, ?_, ?_⟩
    · refine Listed.congr (m := m2) ?_ ?_
      · refine listed_append.mpr ⟨(m s.start).2, hlist, h₂.congr ?_⟩
        intro c hc
        exact hframe _ (hcross c hc)
      · intro c hc
        exact Memory.set_ne _ _ (hinside _ (by omega) (by omega) c hc)
    · exact Memory.set_self ..
    · intro a ha has hal
      rw [Memory.set_ne _ _ ha, hframe a hal]

theorem search_spec (align need : Nat) {turns : Nat} (hl : Listed m p l 0)
    (hpos : ∀ c ∈ l, c.start ≠ 0 ∧ c.start ≤ c.stop) (hturns : l.length ≤ turns) (l0 : List Span)
    (previous : Nat) (hprev : previous = lastStart l0) :
    (search m align need turns previous p = none
      ∧ ∀ c ∈ l, ¬ saturatingAdd (alignUp (saturatingAdd c.start UNIT) align) need ≤ c.stop)
    ∨ ∃ l1 c l2, l = l1 ++ c :: l2
      ∧ search m align need turns previous p = some (lastStart (l0 ++ l1), c.start,
        alignUp (saturatingAdd c.start UNIT) align,
        saturatingAdd (alignUp (saturatingAdd c.start UNIT) align) need)
      ∧ saturatingAdd (alignUp (saturatingAdd c.start UNIT) align) need ≤ c.stop
      ∧ ∀ c ∈ l1, ¬ saturatingAdd (alignUp (saturatingAdd c.start UNIT) align) need ≤ c.stop := by
  induction l generalizing p turns previous l0 with
  | nil =>
    have hp : p = 0 := hl
    refine .inl ⟨?_, by simp⟩
    cases turns with
    | zero => rfl
    | succ turns => rw [search, if_pos hp]
  | cons s l ih =>
    obtain ⟨hp, hsize, hrest⟩ := hl
    obtain ⟨hs0, hle⟩ := hpos s mem_cons_self
    have hlast : s.start + (m s.start).1 = s.stop := by
      rw [hsize]
      unfold bytes
      omega
    cases turns with
    | zero => exact absurd hturns (Nat.not_succ_le_zero _)
    | succ turns =>
      rw [search, hp, if_neg hs0, hlast]
      by_cases hfit : saturatingAdd (alignUp (saturatingAdd s.start UNIT) align) need ≤ s.stop
      · rw [if_pos hfit]
        refine .inr ⟨[], s, l, rfl, ?_, hfit, fun c hc => (by cases hc)⟩
        rw [append_nil, hprev]
      · rw [if_neg hfit]
        rcases ih hrest (fun c hc => hpos c (mem_cons_of_mem s hc))
          (Nat.le_of_succ_le_succ hturns) (l0 ++ [s]) s.start lastStart_concat.symm with
          ⟨hnone, hall⟩ | ⟨l1, c, l2, hsplit, hsome, hc, hbefore⟩
        · refine .inl ⟨hnone, ?_⟩
          intro c hc
          rcases mem_cons.mp hc with rfl | hc
          · exact hfit
          · exact hall c hc
        · refine .inr ⟨s :: l1, c, l2, by rw [hsplit]; rfl, ?_, hc,
            forall_mem_cons.mpr ⟨hfit, hbefore⟩⟩
          rw [hsome, append_assoc]
          rfl

theorem chunksFrom_eq {turns : Nat} (hl : Listed m p l 0)
    (hpos : ∀ c ∈ l, c.start ≠ 0 ∧ c.start ≤ c.stop) (hturns : l.length ≤ turns) :
    chunksFrom m turns p = l := by
  induction l generalizing p turns with
  | nil =>
    have hp : p = 0 := hl
    cases turns with
    | zero => rfl
    | succ turns => rw [chunksFrom, if_pos hp]
  | cons s l ih =>
    obtain ⟨hp, hsize, hrest⟩ := hl
    obtain ⟨hs0, hle⟩ := hpos s mem_cons_self
    cases turns with
    | zero => exact absurd hturns (Nat.not_succ_le_zero _)
    | succ turns =>
      rw [chunksFrom, hp, if_neg hs0, hsize,
        ih hrest (fun c hc => hpos c (mem_cons_of_mem s hc)) (Nat.le_of_succ_le_succ hturns)]
      congr 1
      cases s
      simp only [Span.bytes, Span.mk.injEq, true_and]
      exact Nat.add_sub_cancel' hle

end Listed

-- == alignment

theorem alignUp_spec (v : Nat) {align : Nat} (hpos : 0 < align) (hfit : v + (align - 1) < 2 ^ 64) :
    v ≤ alignUp v align ∧ alignUp v align % align = 0 ∧ alignUp v align < v + align
      ∧ ∀ p, p % align = 0 → v ≤ p → alignUp v align ≤ p := by
  have hsat : saturatingAdd v (align - 1) = v + (align - 1) := by
    unfold saturatingAdd
    omega
  unfold alignUp alignDown
  rw [hsat]
  have hdiv := Nat.div_add_mod (v + (align - 1)) align
  have hmod := Nat.mod_lt (v + (align - 1)) hpos
  rw [Nat.mul_comm] at hdiv
  refine ⟨by omega, Nat.mul_mod_left _ _, by omega, ?_⟩
  intro p hp hle
  obtain ⟨k, rfl⟩ := Nat.dvd_of_mod_eq_zero hp
  rw [Nat.mul_comm align k]
  apply Nat.mul_le_mul_right
  by_contra hlt
  have hle' : (k + 1) * align ≤ (v + (align - 1)) / align * align :=
    Nat.mul_le_mul_right _ (by omega)
  rw [Nat.add_mul, Nat.mul_comm k align] at hle'
  omega

theorem back_or {x owner : Nat} (hx : x % UNIT = 0) (ho : owner < UNIT) :
    (x ||| owner) / UNIT * UNIT = x := by
  obtain ⟨k, rfl⟩ := Nat.dvd_of_mod_eq_zero hx
  have hor : UNIT * k ||| owner = UNIT * k + owner :=
    (Nat.two_pow_add_eq_or_of_lt (i := 4) ho k).symm
  have hU : UNIT = 16 := rfl
  rw [hor, hU]
  rw [hU] at ho
  omega

-- == partition

/-- A chunk: whole units, room for a header and a payload, and an address. -/
structure Whole (s : Span) : Prop where
  start : s.start % UNIT = 0
  stop : s.stop % UNIT = 0
  room : s.start + MIN ≤ s.stop
  low : 0 < s.start
  high : s.stop < 2 ^ 64

theorem Whole.nonempty {s : Span} (h : Whole s) : s.start < s.stop := by
  have hM : MIN = 32 := rfl
  have := h.room
  omega

theorem Whole.join {s t : Span} (hs : Whole s) (ht : Whole t) (heq : s.stop = t.start) :
    Whole ⟨s.start, t.stop⟩ := by
  have h1 := hs.room
  have h2 := ht.room
  refine ⟨hs.start, ht.stop, ?_, hs.low, ht.high⟩
  show s.start + MIN ≤ t.stop
  omega

structure Placed (m : Memory) (b : Block) : Prop where
  whole : Whole (chunkOf m b.payload)
  header : (chunkOf m b.payload).start + UNIT ≤ b.payload
  room : b.payload + max b.size 1 ≤ (chunkOf m b.payload).stop
  aligned : b.payload % b.align = 0

/-- Free chunks and live chunks make up what was donated, with the chunks in
hand that a call is about to link in. -/
structure Sound (a : Arena) (hand free : List Span) : Prop where
  listed : Listed a.mem a.heap.free free 0
  gapped : Gapped free
  loose : ∀ s ∈ hand, ∀ c ∈ free, s.Apart c
  whole : ∀ c ∈ hand ++ free, Whole c
  placed : ∀ b ∈ a.live, Placed a.mem b
  apart : a.live.Pairwise fun b b' => (a.chunkOf b).Apart (a.chunkOf b')
  outside : ∀ b ∈ a.live, ∀ c ∈ hand ++ free, (a.chunkOf b).Apart c
  cover : ∀ x, Within a.donated x
    ↔ Within (hand ++ free) x ∨ Within (a.live.map a.chunkOf) x
  used : a.heap.used = total (a.live.map a.chunkOf)
  size : a.heap.size = total (hand ++ free) + a.heap.used
  low : ∀ s ∈ a.spans, 0 < s.start
  spans : a.donated.Pairwise Apart
  owner : a.heap.owner < UNIT

section Sound

variable {a : Arena} {hand free : List Span}

theorem chunkOf_congr {m m' : Memory} {p : Nat} (h : m' (p - UNIT) = m (p - UNIT)) :
    chunkOf m' p = chunkOf m p := by
  unfold chunkOf
  rw [h]

theorem Placed.congr {m m' : Memory} {b : Block} (h : Placed m b)
    (hm : m' (b.payload - UNIT) = m (b.payload - UNIT)) : Placed m' b := by
  have hc := chunkOf_congr hm
  exact ⟨hc ▸ h.whole, hc ▸ h.header, hc ▸ h.room, h.aligned⟩

theorem Placed.header_mem {m : Memory} {b : Block} (h : Placed m b) :
    b.payload - UNIT ∈ chunkOf m b.payload := by
  have h1 := h.header
  have h2 := h.room
  rw [mem_iff]
  omega

theorem Whole.start_mem {s : Span} (h : Whole s) : s.start ∈ s := ⟨le_rfl, h.nonempty⟩

theorem length_le_total {l : List Span} (h : ∀ c ∈ l, Whole c) : l.length ≤ total l := by
  induction l with
  | nil => exact Nat.zero_le _
  | cons s l ih =>
    have hs := (h s mem_cons_self).nonempty
    have hl := ih fun c hc => h c (mem_cons_of_mem s hc)
    rw [total_cons, length_cons]
    unfold bytes
    omega

section

variable (h : Sound a hand free)
include h

theorem Sound.free_whole {c : Span} (hc : c ∈ free) : Whole c :=
  h.whole c (mem_append_right _ hc)

theorem Sound.turns : free.length ≤ a.heap.size := by
  have hlen := length_le_total fun c hc => h.free_whole hc
  have hsize := h.size
  rw [total_append] at hsize
  omega

theorem Sound.nonnull : ∀ c ∈ free, c.start ≠ 0 ∧ c.start ≤ c.stop := by
  intro c hc
  have hw := h.free_whole hc
  exact ⟨Nat.ne_of_gt hw.low, Nat.le_of_lt hw.nonempty⟩

theorem Sound.chunks : a.chunks = free :=
  chunksFrom_eq h.listed h.nonnull h.turns

theorem Sound.header_ne {b : Block} (hb : b ∈ a.live) {c : Span}
    (hc : c ∈ hand ++ free) : b.payload - UNIT ∉ c :=
  (h.outside b hb c hc).not_mem (h.placed b hb).header_mem

end

theorem Sound.new (owner : Nat) (mem : Memory) : Sound (.new owner mem) [] [] where
  listed := rfl
  gapped := .nil
  loose := fun s hs => by cases hs
  whole := fun s hs => by cases hs
  placed := fun b hb => by cases hb
  apart := List.Pairwise.nil
  outside := fun b hb => by cases hb
  cover := fun _ => (or_self_iff).symm
  used := rfl
  size := rfl
  low := fun s hs => by cases hs
  spans := List.Pairwise.nil
  owner := Nat.mod_lt _ (by decide)

theorem Sound.chunks_stay (h : Sound a hand free) {m : Memory}
    (hlive : ∀ b ∈ a.live, m (b.payload - UNIT) = a.mem (b.payload - UNIT)) :
    (∀ b ∈ a.live, chunkOf m b.payload = a.chunkOf b)
      ∧ a.live.map (fun b => chunkOf m b.payload) = a.live.map a.chunkOf
      ∧ a.live.Pairwise fun b b' =>
        (chunkOf m b.payload).Apart (chunkOf m b'.payload) := by
  have hchunk : ∀ b ∈ a.live, chunkOf m b.payload = a.chunkOf b :=
    fun b hb => chunkOf_congr (hlive b hb)
  refine ⟨hchunk, map_congr_left hchunk, h.apart.imp_of_mem ?_⟩
  intro b b' hb hb' hap
  rw [hchunk b hb, hchunk b' hb']
  exact hap

theorem Sound.frame (h : Sound a hand free) {m : Memory}
    (hfree : ∀ c ∈ free, m c.start = a.mem c.start)
    (hlive : ∀ b ∈ a.live, m (b.payload - UNIT) = a.mem (b.payload - UNIT)) :
    Sound { a with mem := m } hand free := by
  obtain ⟨hchunk, hmap, hapart⟩ := h.chunks_stay hlive
  refine ⟨h.listed.congr hfree, h.gapped, h.loose, h.whole,
    fun b hb => (h.placed b hb).congr (hlive b hb), hapart, ?_, ?_, ?_, h.size, h.low, h.spans,
    h.owner⟩
  · intro b hb c hc
    show (chunkOf m b.payload).Apart c
    rw [hchunk b hb]
    exact h.outside b hb c hc
  · intro x
    show Within a.donated x ↔ Within (hand ++ free) x
      ∨ Within (a.live.map fun b => chunkOf m b.payload) x
    rw [hmap]
    exact h.cover x
  · show a.heap.used = total (a.live.map fun b => chunkOf m b.payload)
    rw [hmap]
    exact h.used

-- -- linking

theorem Sound.link {s : Span} (h : Sound a [s] free) (hsize : (a.mem s.start).1 = s.bytes) :
    ∃ heap mem, a.heap.insert a.mem s.start = (heap, mem)
      ∧ Sound { a with heap, mem } [] (Span.insert s free) := by
  have hs : Whole s := h.whole s mem_cons_self
  have hfree : ∀ c ∈ free, s.Apart c := h.loose s (mem_singleton.mpr rfl)
  obtain ⟨p, m, heq, hlist, hframe⟩ := insert_spec h.listed h.gapped
    (fun c hc => Nat.ne_of_gt (h.free_whole hc).low) hs.nonempty (Nat.ne_of_gt hs.low) hfree
    hsize h.turns
  obtain ⟨hgap, hwithin, htotal, -⟩ := h.gapped.insert hs.nonempty hfree
  have hlive : ∀ b ∈ a.live, m (b.payload - UNIT) = a.mem (b.payload - UNIT) := by
    intro b hb
    apply hframe
    · intro hbs
      exact h.header_ne hb mem_cons_self (hbs ▸ hs.start_mem)
    · intro c hc hbc
      exact h.header_ne hb (mem_append_right _ hc) (hbc ▸ (h.free_whole hc).start_mem)
  obtain ⟨hchunk, hmap, hapart⟩ := h.chunks_stay hlive
  have hwhole : ∀ c ∈ Span.insert s free, Whole c :=
    forall_insert (fun s t hs ht => hs.join ht) hs fun c hc => h.free_whole hc
  refine ⟨_, _, heq, hlist, hgap, by simp, hwhole,
    fun b hb => (h.placed b hb).congr (hlive b hb), hapart, ?_, ?_, ?_, ?_, h.low, h.spans,
    h.owner⟩
  · -- a free chunk covers nothing but what was free or in hand
    intro b hb c hc
    show (chunkOf m b.payload).Apart c
    rw [hchunk b hb]
    refine apart_of_disjoint (h.placed b hb).whole.nonempty (hgap.nonempty c hc) ?_
    intro x hxb hxc
    rcases (hwithin x).mp ⟨c, hc, hxc⟩ with hx | ⟨u, hu, hx⟩
    · exact (h.outside b hb s mem_cons_self).not_mem hxb hx
    · exact (h.outside b hb u (mem_append_right _ hu)).not_mem hxb hx
  · intro x
    show Span.Within a.donated x ↔ Span.Within (Span.insert s free) x
      ∨ Within (a.live.map fun b => chunkOf m b.payload) x
    rw [hmap, hwithin, ← within_cons]
    exact h.cover x
  · show a.heap.used = total (a.live.map fun b => chunkOf m b.payload)
    rw [hmap]
    exact h.used
  · show a.heap.size = Span.total (Span.insert s free) + a.heap.used
    rw [htotal, ← total_cons]
    exact h.size

theorem Sound.stamp {s : Span} (h : Sound a [s] free) (v : Nat × Nat) :
    Sound { a with mem := a.mem.set s.start v } [s] free := by
  have hs : Whole s := h.whole s mem_cons_self
  apply h.frame
  · intro c hc
    apply a.mem.set_ne
    intro heq
    have hmem : c.start ∈ s := heq ▸ hs.start_mem
    exact (h.loose s (mem_singleton.mpr rfl) c hc).not_mem hmem (h.free_whole hc).start_mem
  · intro b hb
    apply a.mem.set_ne
    intro heq
    exact h.header_ne hb mem_cons_self (heq ▸ hs.start_mem)

-- -- donation

theorem whole_spec {s c : Span} (h0 : 0 < s.start) (h : Arena.whole s = some c) :
    Whole c ∧ s.Covers c := by
  unfold Arena.whole at h
  by_cases hroom : alignDown (min s.stop (2 ^ 64 - 1)) UNIT - alignUp s.start UNIT < MIN
  · rw [if_pos hroom] at h
    cases h
  rw [if_neg hroom] at h
  cases h
  unfold alignUp alignDown saturatingAdd MIN UNIT at hroom
  refine ⟨⟨Nat.mul_mod_left _ _, Nat.mul_mod_left _ _, ?_, ?_, ?_⟩, ?_, ?_⟩
  all_goals
    simp only [alignUp, alignDown, saturatingAdd, MIN, UNIT]
    omega

theorem Sound.donated_whole (h : Sound a hand free) {c : Span} (hc : c ∈ a.donated) : Whole c := by
  obtain ⟨s, hs, hwhole⟩ := mem_filterMap.mp hc
  exact (whole_spec (h.low s hs) hwhole).1

theorem Sound.within_spans (h : Sound a hand free) {x : Nat} (hx : Within a.donated x) :
    Within a.spans x := by
  obtain ⟨c, hc, hx⟩ := hx
  obtain ⟨s, hs, hwhole⟩ := mem_filterMap.mp hc
  obtain ⟨hlow, hhigh⟩ := (whole_spec (h.low s hs) hwhole).2
  rw [mem_iff] at hx
  exact ⟨s, hs, by omega, by omega⟩

theorem donated_none {heap : Heap} {mem : Memory} {spans : List Span} {live : List Block}
    {s : Span} (hw : Arena.whole s = none) :
    Arena.donated ⟨heap, mem, s :: spans, live⟩ = Arena.donated ⟨heap, mem, spans, live⟩ :=
  filterMap_cons_none hw

theorem donated_some {heap : Heap} {mem : Memory} {spans : List Span} {live : List Block}
    {s c : Span} (hw : Arena.whole s = some c) :
    Arena.donated ⟨heap, mem, s :: spans, live⟩ = c :: Arena.donated ⟨heap, mem, spans, live⟩ :=
  filterMap_cons_some hw

theorem call_extend (a : Arena) (start len : Nat) :
    a.call (.extend start len) = ⟨(a.heap.extend a.mem start len).1,
      (a.heap.extend a.mem start len).2, ⟨start, start + len⟩ :: a.spans, a.live⟩ := rfl

theorem extend_spec (h : Heap) (m : Memory) (start len : Nat) :
    (Arena.whole ⟨start, start + len⟩ = none ∧ h.extend m start len = (h, m))
    ∨ ∃ s, Arena.whole ⟨start, start + len⟩ = some s
      ∧ h.extend m start len = insert ⟨h.free, h.size + s.bytes, h.used, h.owner⟩
        (m.set s.start (s.bytes, 0)) s.start := by
  unfold Arena.whole extend saturatingAdd
  by_cases hroom : alignDown (min (start + len) (2 ^ 64 - 1)) UNIT - alignUp start UNIT < MIN
  · rw [if_pos hroom, if_pos hroom]
    exact .inl ⟨rfl, rfl⟩
  · rw [if_neg hroom, if_neg hroom]
    exact .inr ⟨_, rfl, rfl⟩

theorem Sound.extend (h : Sound a [] free) {start len : Nat} (h0 : 0 < start)
    (hdisjoint : ∀ x ∈ Span.mk start (start + len), ¬ Span.Within a.spans x) :
    ∃ free', Sound (a.call (.extend start len)) [] free' := by
  have hlow : ∀ s ∈ (⟨start, start + len⟩ :: a.spans : List Span), 0 < s.start := by
    intro s hs
    rcases mem_cons.mp hs with rfl | hs
    · exact h0
    · exact h.low s hs
  rcases extend_spec a.heap a.mem start len with ⟨hw, hext⟩ | ⟨s, hw, hext⟩
  · -- no room for a chunk
    refine ⟨free, ?_⟩
    rw [call_extend, hext]
    refine { h with cover := ?_, low := hlow, spans := ?_ }
    · intro x
      rw [donated_none hw]
      exact h.cover x
    · rw [donated_none hw]
      exact h.spans
  · obtain ⟨hs, hcovers⟩ := whole_spec h0 hw
    -- what is free or live was donated before, so it is apart from the new span
    have hnew : ∀ x ∈ s, ¬ Within a.donated x := by
      intro x hx hdonated
      rw [mem_iff] at hx
      obtain ⟨hl, hr⟩ := hcovers
      exact hdisjoint x ⟨by omega, by omega⟩ (h.within_spans hdonated)
    have hin : Sound ⟨⟨a.heap.free, a.heap.size + s.bytes, a.heap.used, a.heap.owner⟩, a.mem,
        ⟨start, start + len⟩ :: a.spans, a.live⟩ [s] free := by
      refine ⟨h.listed, h.gapped, ?_, ?_, h.placed, h.apart, ?_, ?_, h.used, ?_, hlow, ?_, h.owner⟩
      · intro u hu c hc
        rw [mem_singleton.mp hu]
        refine apart_of_disjoint hs.nonempty (h.free_whole hc).nonempty ?_
        intro x hxs hxc
        exact hnew x hxs ((h.cover x).mpr (.inl ⟨c, hc, hxc⟩))
      · intro c hc
        rcases mem_cons.mp hc with rfl | hc
        · exact hs
        · exact h.free_whole hc
      · intro b hb c hc
        rcases mem_cons.mp hc with rfl | hc
        · refine apart_of_disjoint (h.placed b hb).whole.nonempty hs.nonempty ?_
          intro x hxb hxs
          exact hnew x hxs ((h.cover x).mpr (.inr ⟨_, mem_map_of_mem hb, hxb⟩))
        · exact h.outside b hb c hc
      · intro x
        have hcover : Within a.donated x ↔ _ := h.cover x
        rw [donated_some hw, within_cons, cons_append, within_cons, or_assoc]
        exact or_congr_right hcover
      · have hsize := h.size
        rw [nil_append] at hsize
        show a.heap.size + s.bytes = total (s :: free) + a.heap.used
        rw [total_cons]
        omega
      · rw [donated_some hw]
        refine pairwise_cons.mpr ⟨?_, h.spans⟩
        intro c hc
        refine apart_of_disjoint hs.nonempty (h.donated_whole hc).nonempty ?_
        intro x hxs hxc
        exact hnew x hxs ⟨c, hc, hxc⟩
    obtain ⟨heap, mem, heq, hsound⟩ := (hin.stamp (s.bytes, 0)).link
      (congrArg Prod.fst (a.mem.set_self _ _))
    refine ⟨Span.insert s free, ?_⟩
    rw [call_extend, hext.trans heq]
    exact hsound

-- -- release

theorem Sound.deallocate (h : Sound a [] free) (k : Nat) :
    ∃ free', Sound (a.call (.deallocate k)) [] free' := by
  unfold Arena.call
  dsimp only
  cases hk : a.live[k]? with
  | none => exact ⟨free, h⟩
  | some b =>
    have hlt : k < a.live.length := (List.getElem?_eq_some_iff.mp hk).1
    have hget : a.live[k] = b := (List.getElem?_eq_some_iff.mp hk).2
    have hb : b ∈ a.live := hget ▸ getElem_mem hlt
    have hperm : (b :: a.live.eraseIdx k).Perm a.live := by
      rw [← hget]
      exact getElem_cons_eraseIdx_perm hlt
    have hsub : ∀ b' ∈ a.live.eraseIdx k, b' ∈ a.live := fun b' hb' =>
      hperm.subset (mem_cons_of_mem b hb')
    obtain ⟨hfirst, hrest⟩ := pairwise_cons.mp
      ((hperm.pairwise_iff fun hap => Apart.symm hap).mpr h.apart)
    have hused : a.heap.used
        = (a.chunkOf b).bytes + total ((a.live.eraseIdx k).map a.chunkOf) := by
      rw [h.used, ← total_cons, ← map_cons]
      exact ((hperm.map a.chunkOf).map bytes).sum_eq.symm
    have hin : Sound ⟨⟨a.heap.free, a.heap.size, a.heap.used - (a.chunkOf b).bytes,
        a.heap.owner⟩, a.mem, a.spans, a.live.eraseIdx k⟩ [a.chunkOf b] free := by
      refine ⟨h.listed, h.gapped, ?_, ?_, fun b' hb' => h.placed b' (hsub b' hb'), hrest, ?_, ?_,
        ?_, ?_, h.low, h.spans, h.owner⟩
      · intro u hu c hc
        rw [mem_singleton.mp hu]
        exact h.outside b hb c hc
      · intro c hc
        rcases mem_cons.mp hc with rfl | hc
        · exact (h.placed b hb).whole
        · exact h.free_whole hc
      · intro b' hb' c hc
        rcases mem_cons.mp hc with rfl | hc
        · exact (hfirst b' hb').symm
        · exact h.outside b' (hsub b' hb') c hc
      · intro x
        have hlive : Within (a.live.map a.chunkOf) x
            ↔ x ∈ a.chunkOf b ∨ Within ((a.live.eraseIdx k).map a.chunkOf) x := by
          rw [← within_cons, ← map_cons]
          unfold Within
          simp only [(hperm.map a.chunkOf).mem_iff]
        show Within a.donated x ↔ Within (a.chunkOf b :: free) x ∨ _
        rw [h.cover x, hlive, within_cons]
        exact or_left_comm.trans or_assoc.symm
      · show a.heap.used - (a.chunkOf b).bytes = _
        rw [hused, Nat.add_sub_cancel_left]
        rfl
      · have hsize := h.size
        rw [nil_append] at hsize
        show a.heap.size = total (a.chunkOf b :: free) + (a.heap.used - (a.chunkOf b).bytes)
        rw [total_cons]
        omega
    have hbytes : (a.mem (b.payload - UNIT)).1 = (a.chunkOf b).bytes := by
      simp [Arena.chunkOf, chunkOf, bytes]
    obtain ⟨heap, mem, heq, hsound⟩ := (hin.stamp ((a.chunkOf b).bytes, 0)).link
      (congrArg Prod.fst (a.mem.set_self _ _))
    have hdealloc : a.heap.deallocate a.mem b.payload = (heap, mem) := by
      unfold Heap.deallocate
      rw [hbytes]
      exact heq
    refine ⟨Span.insert (a.chunkOf b) free, ?_⟩
    dsimp only
    rw [hdealloc]
    exact hsound

theorem Sound.write (h : Sound a [] free) (k unit : Nat) (value : Nat × Nat) :
    Sound (a.call (.write k unit value)) [] free := by
  have hU : UNIT = 16 := rfl
  unfold Arena.call
  dsimp only
  cases hk : a.live[k]? with
  | none => exact h
  | some b =>
    dsimp only
    split
    · have hlt : k < a.live.length := (List.getElem?_eq_some_iff.mp hk).1
      have hget : a.live[k] = b := (List.getElem?_eq_some_iff.mp hk).2
      have hb : b ∈ a.live := hget ▸ getElem_mem hlt
      have hplace := h.placed b hb
      have hmem : b.payload + UNIT * unit ∈ a.chunkOf b := by
        have := hplace.header
        have := hplace.room
        constructor
        · show (chunkOf a.mem b.payload).start ≤ _
          omega
        · show _ < (chunkOf a.mem b.payload).stop
          omega
      apply h.frame
      · intro c hc
        apply a.mem.set_ne
        intro heq
        exact (h.outside b hb c hc).not_mem hmem (heq ▸ (h.free_whole hc).start_mem)
      · intro b' hb'
        apply a.mem.set_ne
        intro heq
        by_cases hbb : b' = b
        · have := hplace.header
          rw [hbb] at heq
          omega
        · have : Std.Symm fun b b' => (a.chunkOf b).Apart (a.chunkOf b') :=
            ⟨fun _ _ hap => Apart.symm hap⟩
          have hap : (a.chunkOf b).Apart (a.chunkOf b') := h.apart.forall hb hb' (Ne.symm hbb)
          exact hap.not_mem hmem (heq ▸ (h.placed b' hb').header_mem)
    · exact h

-- -- allocation

/-- What `Layout` promises: a power of two, and a size that rounds up to at
most `isize::MAX`. -/
def IsLayout (size align : Nat) : Prop := (∃ k, align = 2 ^ k) ∧ size + (align - 1) < 2 ^ 63

/-- What is taken of a chunk and what is left make it up. -/
structure Parts (c t : Span) (l : List Span) : Prop where
  taken : Whole t
  rest : ∀ u ∈ l, Whole u ∧ c.Covers u ∧ t.Apart u
  gapped : Gapped l
  cover : ∀ x, x ∈ c ↔ x ∈ t ∨ Within l x
  bytes : c.bytes = t.bytes + total l

theorem carve_parts {c : Span} {finish : Nat} (hw : Whole c) (hfin : finish % UNIT = 0)
    (hlow : c.start + MIN ≤ finish) (hend : finish ≤ c.stop) :
    Parts c (takenOf c finish) (restOf c finish) ∧ finish ≤ (takenOf c finish).stop := by
  have hhigh := hw.high
  by_cases hsplit : c.stop - finish ≥ MIN
  · have hrest : restOf c finish = [⟨finish, c.stop⟩] := if_pos hsplit
    have htaken : takenOf c finish = ⟨c.start, finish⟩ := by
      unfold takenOf
      rw [if_pos hsplit]
    have hM : MIN = 32 := rfl
    rw [hrest, htaken]
    refine ⟨⟨⟨hw.start, hfin, hlow, hw.low, ?_⟩, ?_, ?_, ?_, ?_⟩, le_rfl⟩
    · show finish < 2 ^ 64
      omega
    · intro u hu
      rw [mem_singleton.mp hu]
      refine ⟨⟨hfin, hw.stop, ?_, ?_, hhigh⟩, ⟨?_, le_rfl⟩, .inl le_rfl⟩
      · show finish + MIN ≤ c.stop
        omega
      · show 0 < finish
        omega
      · show c.start ≤ finish
        omega
    · refine gapped_cons.mpr ⟨?_, by simp, .nil⟩
      show finish < c.stop
      omega
    · intro x
      rw [within_cons, mem_iff, mem_iff, mem_iff]
      dsimp only
      constructor
      · intro hx
        by_cases hlt : x < finish
        · exact .inl ⟨hx.1, hlt⟩
        · exact .inr (.inl ⟨by omega, hx.2⟩)
      · rintro (hx | hx | hx)
        · omega
        · omega
        · exact absurd hx within_nil
    · rw [total_cons]
      unfold bytes
      show c.stop - c.start = finish - c.start + (c.stop - finish + 0)
      omega
  · have hrest : restOf c finish = [] := if_neg hsplit
    have htaken : takenOf c finish = c := by
      unfold takenOf
      rw [if_neg hsplit]
    rw [hrest, htaken]
    refine ⟨⟨hw, by simp, .nil, ?_, rfl⟩, hend⟩
    intro x
    constructor
    · exact .inl
    · rintro (hx | hx)
      · exact hx
      · exact absurd hx within_nil

/-- The alignment used is a multiple of the one asked for and of `UNIT`. -/
theorem IsLayout.dvd {size align : Nat} (h : IsLayout size align) :
    align ∣ max align UNIT ∧ UNIT ∣ max align UNIT := by
  obtain ⟨⟨k, rfl⟩, -⟩ := h
  rcases Nat.le_total 4 k with hk | hk
  · have hle : UNIT ∣ 2 ^ k := Nat.pow_dvd_pow 2 hk
    rw [Nat.max_eq_left (Nat.le_of_dvd (Nat.two_pow_pos k) hle)]
    exact ⟨dvd_rfl, hle⟩
  · have hle : 2 ^ k ∣ UNIT := Nat.pow_dvd_pow 2 hk
    rw [Nat.max_eq_right (Nat.le_of_dvd (by decide) hle)]
    exact ⟨hle, dvd_rfl⟩

theorem IsLayout.dvd_top {size align : Nat} (h : IsLayout size align) :
    max align UNIT ∣ 2 ^ 64 := by
  obtain ⟨⟨k, rfl⟩, hsize⟩ := h
  have hk : k < 64 := by
    by_contra hge
    have := Nat.pow_le_pow_right (show 0 < 2 by decide) (Nat.not_lt.mp hge)
    omega
  rcases Nat.le_total (2 ^ k) UNIT with hle | hle
  · rw [Nat.max_eq_right hle]
    decide
  · rw [Nat.max_eq_left hle]
    exact Nat.pow_dvd_pow 2 hk.le

/-- Where the rounding saturates, the payload is below the chunk's own. -/
theorem saturated_spec {c : Span} {size align : Nat} (hw : Whole c) (hlay : IsLayout size align)
    (hhigh : 2 ^ 64 < c.start + UNIT + align) :
    let p := alignUp (saturatingAdd c.start UNIT) (max align UNIT)
    p % align = 0 ∧ p + max align UNIT ≤ 2 ^ 64 ∧ p < c.start + UNIT := by
  have hU : UNIT = 16 := rfl
  have hM : MIN = 32 := rfl
  obtain ⟨m, hm⟩ := hlay.dvd_top
  obtain ⟨-, -, hlen, -, htop⟩ := hw
  intro p
  have hsat : saturatingAdd (saturatingAdd c.start UNIT) (max align UNIT - 1) = 2 ^ 64 - 1 := by
    unfold saturatingAdd
    omega
  have hp : p = (2 ^ 64 - 1) / max align UNIT * max align UNIT := by
    show alignDown (saturatingAdd _ _) _ = _
    rw [hsat]
    rfl
  have hle := Nat.div_mul_le_self (2 ^ 64 - 1) (max align UNIT)
  have hlt : (2 ^ 64 - 1) / max align UNIT < m :=
    Nat.lt_of_mul_lt_mul_right (a := max align UNIT) (by rw [Nat.mul_comm m, ← hm]; omega)
  have hnext : ((2 ^ 64 - 1) / max align UNIT + 1) * max align UNIT ≤ 2 ^ 64 :=
    (Nat.mul_le_mul_right _ hlt).trans (Nat.le_of_eq (by rw [Nat.mul_comm m, ← hm]))
  rw [Nat.add_mul, Nat.one_mul, ← hp] at hnext
  refine ⟨?_, hnext, by omega⟩
  rw [hp]
  exact Nat.mod_eq_zero_of_dvd (hlay.dvd.1.trans (Nat.dvd_mul_left ..))

theorem fit_spec {c : Span} {size align : Nat} (hw : Whole c) (hlay : IsLayout size align)
    (hroom : c.start + UNIT + align ≤ 2 ^ 64) :
    let p := alignUp (saturatingAdd c.start UNIT) (max align UNIT)
    let f := saturatingAdd p (needOf size)
    c.start + UNIT ≤ p ∧ p % align = 0 ∧ p % UNIT = 0
      ∧ (f ≤ c.stop → f % UNIT = 0 ∧ p + max size 1 ≤ f)
      ∧ (¬ f ≤ c.stop → ∀ q, q % align = 0 → c.start + UNIT ≤ q → ¬ q + max size 1 ≤ c.stop) := by
  have hU : UNIT = 16 := rfl
  have hM : MIN = 32 := rfl
  obtain ⟨⟨k, hk⟩, hsize⟩ := id hlay
  obtain ⟨hstart, hstop, hlen, -, hhigh⟩ := hw
  intro p f
  have hpos : 0 < align := hk ▸ Nat.two_pow_pos k
  have hsat : saturatingAdd c.start UNIT = c.start + UNIT := by
    exact Nat.min_eq_left (by omega)
  have hdvd := hlay.dvd
  obtain ⟨hge, hmod, -, hleast⟩ :=
    alignUp_spec (c.start + UNIT) (show 0 < max align UNIT by omega) (by omega)
  have hp : p = alignUp (c.start + UNIT) (max align UNIT) := by
    show alignUp (saturatingAdd c.start UNIT) (max align UNIT) = _
    rw [hsat]
  rw [← hp] at hge hmod hleast
  have hpU : p % UNIT = 0 := Nat.mod_eq_zero_of_dvd (hdvd.2.trans (Nat.dvd_of_mod_eq_zero hmod))
  obtain ⟨hneed, hneedU, -, hneedLeast⟩ :=
    alignUp_spec (max size 1) (show 0 < UNIT by decide) (by omega)
  rw [hU] at hpU hstop hstart
  have hf : f = min (p + needOf size) (2 ^ 64 - 1) := by
    rfl
  have hneedEq : alignUp (max size 1) UNIT = needOf size := rfl
  rw [hneedEq] at hneed hneedU hneedLeast
  rw [hU] at hneedU
  refine ⟨hge, ?_, hpU, ?_, ?_⟩
  · exact Nat.mod_eq_zero_of_dvd (hdvd.1.trans (Nat.dvd_of_mod_eq_zero hmod))
  · intro hfit
    rw [hU]
    omega
  · intro hfit q hq hle hend
    have hpq : p ≤ q := by
      by_cases h16 : UNIT ≤ align
      · rw [Nat.max_eq_left h16] at hleast
        exact hleast q hq hle
      · rw [Nat.max_eq_right (by omega)] at hleast
        refine (hleast (c.start + UNIT) ?_ le_rfl).trans hle
        rw [hU]
        omega
    have hleast := hneedLeast (c.stop - p) (by rw [hU]; omega) (by omega)
    omega

section Carve

variable {c t : Span} {rest l1 l2 : List Span}

theorem Parts.apart (hp : Parts c t rest) {s : Span} (hs : s.start < s.stop)
    (hap : c.Apart s) : t.Apart s :=
  apart_of_disjoint hp.taken.nonempty hs fun _ hx => hap.not_mem ((hp.cover _).mpr (.inl hx))

theorem Sound.carve (h : Sound a [] (l1 ++ c :: l2)) (hp : Parts c t rest) {m : Memory} {q : Nat}
    (hlist : Listed m q (l1 ++ rest ++ l2) 0)
    (hlive : ∀ b ∈ a.live, m (b.payload - UNIT) = a.mem (b.payload - UNIT)) :
    Sound ⟨{ a.heap with free := q }, m, a.spans, a.live⟩ [t] (l1 ++ rest ++ l2) := by
  obtain ⟨hchunk, hmap, hapart⟩ := h.chunks_stay hlive
  have hc : c ∈ l1 ++ c :: l2 := mem_append_right _ mem_cons_self
  have hmem : ∀ u ∈ l1 ++ rest ++ l2, u ∈ rest ∨ u ∈ l1 ++ c :: l2 ∧ c.Apart u := by
    intro u hu
    obtain ⟨-, hright, hleft⟩ := pairwise_append.mp h.gapped.gaps
    rcases mem_append.mp hu with hu | hu
    · rcases mem_append.mp hu with hu | hu
      · exact .inr ⟨mem_append_left _ hu, .inr (Nat.le_of_lt (hleft u hu c mem_cons_self))⟩
      · exact .inl hu
    · exact .inr ⟨mem_append_right _ (mem_cons_of_mem c hu),
        .inl (Nat.le_of_lt ((pairwise_cons.mp hright).1 u hu))⟩
  refine ⟨hlist, h.gapped.replace hp.gapped fun u hu => (hp.rest u hu).2.1, ?_, ?_,
    fun b hb => (h.placed b hb).congr (hlive b hb), hapart, ?_, ?_, ?_, ?_, h.low, h.spans,
    h.owner⟩
  · intro s hs u hu
    rw [mem_singleton.mp hs]
    rcases hmem u hu with hu | ⟨hu, hap⟩
    · exact (hp.rest u hu).2.2
    · exact hp.apart (h.free_whole hu).nonempty hap
  · intro u hu
    rcases mem_cons.mp hu with rfl | hu
    · exact hp.taken
    · rcases hmem u hu with hu | ⟨hu, -⟩
      · exact (hp.rest u hu).1
      · exact h.free_whole hu
  · intro b hb u hu
    have hout := h.outside b hb c hc
    show (chunkOf m b.payload).Apart u
    rw [hchunk b hb]
    rcases mem_cons.mp hu with rfl | hu
    · exact (hp.apart (h.placed b hb).whole.nonempty hout.symm).symm
    · rcases hmem u hu with hu | ⟨hu, -⟩
      · exact (hout.symm.of_covers (hp.rest u hu).2.1).symm
      · exact h.outside b hb u hu
  · intro x
    have hcover : Within a.donated x ↔ _ := h.cover x
    show Within a.donated x ↔ Within (t :: (l1 ++ rest ++ l2)) x
      ∨ Within (a.live.map fun b => chunkOf m b.payload) x
    rw [hcover, hmap, nil_append, within_append, within_cons, within_cons,
      within_append, within_append, hp.cover x]
    tauto
  · exact h.used.trans (congrArg total hmap.symm)
  · have hsize := h.size
    have hbytes := hp.bytes
    rw [nil_append, total_append, total_cons] at hsize
    show a.heap.size = total (t :: (l1 ++ rest ++ l2)) + a.heap.used
    rw [total_cons, total_append, total_append]
    omega

theorem Sound.settle (h : Sound a [t] free) {b : Block} (hb : Placed a.mem b)
    (hchunk : a.chunkOf b = t) :
    Sound ⟨{ a.heap with used := a.heap.used + t.bytes }, a.mem, a.spans, b :: a.live⟩ [] free := by
  have hin : t ∈ [t] ++ free := mem_cons_self
  refine ⟨h.listed, h.gapped, by simp, fun u hu => h.free_whole hu, ?_, ?_, ?_, ?_, ?_, ?_,
    h.low, h.spans, h.owner⟩
  · exact forall_mem_cons.mpr ⟨hb, h.placed⟩
  · refine pairwise_cons.mpr ⟨fun b' hb' => ?_, h.apart⟩
    show (a.chunkOf b).Apart (a.chunkOf b')
    rw [hchunk]
    exact (h.outside b' hb' t hin).symm
  · refine forall_mem_cons.mpr ⟨fun u hu => ?_, fun b' hb' u hu =>
      h.outside b' hb' u (mem_cons_of_mem t hu)⟩
    show (a.chunkOf b).Apart u
    rw [hchunk]
    exact h.loose t mem_cons_self u hu
  · intro x
    have hcover : Within a.donated x ↔ _ := h.cover x
    show Within a.donated x ↔ Within free x
      ∨ Within (a.chunkOf b :: a.live.map a.chunkOf) x
    rw [hcover, hchunk, singleton_append, within_cons, within_cons]
    tauto
  · show a.heap.used + t.bytes = total (a.chunkOf b :: a.live.map a.chunkOf)
    rw [total_cons, hchunk, h.used]
    exact Nat.add_comm _ _
  · have hsize := h.size
    rw [singleton_append, total_cons] at hsize
    show a.heap.size = total free + (a.heap.used + t.bytes)
    omega

end Carve

theorem chunkOf_carved {m : Memory} {c t : Span} {p owner : Nat} (hw : Whole c)
    (hstart : t.start = c.start) (hlen : t.start ≤ t.stop) (hp : p % UNIT = 0)
    (hge : c.start + UNIT ≤ p) (howner : owner < UNIT)
    (hhead : m (p - UNIT) = (t.bytes, p - c.start ||| owner)) : chunkOf m p = t := by
  have hU : UNIT = 16 := rfl
  have hback : (p - c.start ||| owner) / UNIT * UNIT = p - c.start := by
    refine back_or ?_ howner
    have := hw.start
    rw [hU] at hp hge this ⊢
    omega
  unfold chunkOf
  rw [hhead]
  dsimp only
  rw [hback, Nat.sub_sub_self (by omega), ← hstart]
  unfold bytes
  rw [Nat.add_sub_cancel' hlen]

/-- The chunk that first fit takes. -/
def firstFit (a : Arena) (size align : Nat) : Option Span :=
  a.chunks.find? fun c =>
    saturatingAdd (alignUp (saturatingAdd c.start UNIT) (max align UNIT)) (needOf size) ≤ c.stop

theorem firstFit_eq {l1 l2 : List Span} {c : Span} {size align : Nat}
    (hchunks : a.chunks = l1 ++ c :: l2)
    (hfit : saturatingAdd (alignUp (saturatingAdd c.start UNIT) (max align UNIT)) (needOf size)
      ≤ c.stop)
    (hbefore : ∀ u ∈ l1, ¬ saturatingAdd (alignUp (saturatingAdd u.start UNIT) (max align UNIT))
      (needOf size) ≤ u.stop) : firstFit a size align = some c := by
  unfold firstFit
  rw [hchunks, find?_append, find?_eq_none.mpr (by simpa using hbefore), Option.none_or,
    find?_cons_of_pos (by simpa using hfit)]

/-- It does not start so high that aligning past its header saturates. -/
def Fitted (a : Arena) (size align : Nat) : Prop :=
  ∀ c, firstFit a size align = some c → c.start + UNIT + align ≤ 2 ^ 64

theorem Sound.allocate (h : Sound a [] free) {size align : Nat} (hlay : IsLayout size align)
    (hroom : Fitted a size align) :
    ∃ free', Sound (a.call (.allocate size align)) [] free' := by
  have hU : UNIT = 16 := rfl
  have hM : MIN = 32 := rfl
  unfold Arena.call Heap.allocate
  dsimp only
  rcases search_spec (max align UNIT) (needOf size) h.listed h.nonnull h.turns [] 0 rfl with
    ⟨hnone, -⟩ | ⟨l1, c, l2, rfl, hsome, hfit, hbefore⟩
  · rw [hnone]
    exact ⟨free, h⟩
  rw [hsome]
  dsimp only
  have hcmem : c ∈ l1 ++ c :: l2 := mem_append_right _ mem_cons_self
  have hwc := h.free_whole hcmem
  obtain ⟨hge, hal, hpU, hyes, -⟩ :=
    fit_spec hwc hlay (hroom c (firstFit_eq h.chunks hfit hbefore))
  obtain ⟨hfU, hfin⟩ := hyes hfit
  generalize alignUp (saturatingAdd c.start UNIT) (max align UNIT) = p at *
  generalize saturatingAdd p (needOf size) = f at *
  obtain ⟨hparts, hft⟩ := carve_parts hwc hfU (by rw [hU] at *; omega) hfit
  obtain ⟨q, m, hcarve, hlist, hhead, hframe⟩ := carve_spec h.listed h.gapped
    (fun u hu => (h.nonnull u hu).1) hge (by omega) hfit
  rw [nil_append, hcarve]
  -- the headers of the live stay, as they are outside the chunk
  have hlive : ∀ b ∈ a.live, m (b.payload - UNIT) = a.mem (b.payload - UNIT) := by
    intro b hb
    apply hframe
    · intro heq
      exact h.header_ne hb hcmem (heq ▸ ⟨by omega, by omega⟩)
    · exact h.header_ne hb hcmem
    · intro u hu heq
      have hu : u ∈ l1 ++ c :: l2 := mem_append_left _ hu
      exact h.header_ne hb hu (heq ▸ (h.free_whole hu).start_mem)
  have hnew : chunkOf m p = takenOf c f :=
    chunkOf_carved hwc rfl (Nat.le_of_lt hparts.taken.nonempty) hpU hge h.owner hhead
  refine ⟨_, (h.carve hparts hlist hlive).settle (b := ⟨p, size, align⟩) ⟨?_, ?_, ?_, hal⟩ hnew⟩
  · rw [hnew]
    exact hparts.taken
  · rw [hnew]
    exact hge
  · rw [hnew]
    exact hfin.trans hft

end Sound

-- == any run

/-- What is asked of a call: a span is memory not donated before, a layout is
one, and no free chunk starts so high that aligning past its header wraps. -/
def Meets (a : Arena) : Call → Prop
  | .extend start len => 0 < start ∧ ∀ x ∈ Span.mk start (start + len), ¬ Span.Within a.spans x
  | .allocate size align => IsLayout size align ∧ ∀ c ∈ a.chunks, c.start + UNIT + align ≤ 2 ^ 64
  | .deallocate _ => True
  | .write .. => True

def MeetsAll (a : Arena) : List Call → Prop
  | [] => True
  | call :: calls => Meets a call ∧ MeetsAll (a.call call) calls

/-- The same, but of the chunks only the one that is taken is asked. -/
def Tame (a : Arena) : Call → Prop
  | .allocate size align => IsLayout size align ∧ Fitted a size align
  | call => Meets a call

def TameAll (a : Arena) : List Call → Prop
  | [] => True
  | call :: calls => Tame a call ∧ TameAll (a.call call) calls

theorem Meets.tame {a : Arena} {c : Call} (h : Meets a c) : Tame a c := by
  cases c with
  | allocate size align => exact ⟨h.1, fun c hc => h.2 c (mem_of_find?_eq_some hc)⟩
  | extend start len => exact h
  | deallocate k => exact h
  | write k unit value => exact h

theorem MeetsAll.tame {a : Arena} {calls : List Call} (h : MeetsAll a calls) : TameAll a calls := by
  induction calls generalizing a with
  | nil => trivial
  | cons c calls ih => exact ⟨h.1.tame, ih h.2⟩

variable {free : List Span}

theorem Sound.call {a : Arena} (h : Sound a [] free) {c : Call}
    (hc : Tame a c) : ∃ free', Sound (a.call c) [] free' := by
  cases c with
  | extend start len => exact h.extend hc.1 hc.2
  | allocate size align => exact h.allocate hc.1 hc.2
  | deallocate k => exact h.deallocate k
  | write k unit value => exact ⟨free, h.write k unit value⟩

theorem Sound.run {a : Arena} (h : Sound a [] free) {calls : List Call}
    (hcalls : TameAll a calls) : ∃ free', Sound (a.run calls) [] free' := by
  induction calls generalizing a free with
  | nil => exact ⟨free, h⟩
  | cons c calls ih =>
    obtain ⟨free', h'⟩ := h.call hcalls.1
    exact ih h' hcalls.2

structure Kept (a : Arena) : Prop where
  /-- A payload is aligned and its header and bytes lie in its chunk, which
  lies inside one of the donated spans as they coalesce. -/
  placed : ∀ b ∈ a.live, b.payload % b.align = 0 ∧ UNIT ≤ b.payload
    ∧ (a.chunkOf b).Covers ⟨b.payload - UNIT, b.payload + max b.size 1⟩
    ∧ ∃ s ∈ coalesce a.donated, s.Covers (a.chunkOf b)
  /-- Live chunks are apart from each other and from the free ones. -/
  apart : a.live.Pairwise (fun b b' => (a.chunkOf b).Apart (a.chunkOf b'))
    ∧ ∀ b ∈ a.live, ∀ c ∈ a.chunks, (a.chunkOf b).Apart c
  /-- The free list is in address order and no two of its chunks touch. -/
  ordered : Gapped a.chunks
  /-- Together they are the bytes donated. -/
  partition : ∀ x, Within a.donated x
    ↔ Within a.chunks x ∨ Within (a.live.map a.chunkOf) x
  used : a.heap.used = total (a.live.map a.chunkOf)
  /-- What is refused fits in no free chunk. -/
  refused : ∀ size align, Meets a (.allocate size align) →
    (a.heap.allocate a.mem size align).1 = none →
    ∀ c ∈ a.chunks, ∀ p, p % align = 0 → c.start + UNIT ≤ p → ¬ p + max size 1 ≤ c.stop
  /-- With nothing live, the free list is the donated spans, coalesced. -/
  emptied : a.live = [] → a.chunks = coalesce a.donated

theorem Sound.refused {a : Arena} (h : Sound a [] free) {size align : Nat}
    (hmeets : Meets a (.allocate size align))
    (hnone : (a.heap.allocate a.mem size align).1 = none) :
    ∀ c ∈ free, ∀ p, p % align = 0 → c.start + UNIT ≤ p → ¬ p + max size 1 ≤ c.stop := by
  obtain ⟨hlay, hroom⟩ := hmeets
  rw [h.chunks] at hroom
  rcases search_spec (max align UNIT) (needOf size) h.listed h.nonnull h.turns [] 0 rfl with
    ⟨-, hall⟩ | ⟨l1, c, l2, -, hsome, -⟩
  · intro c hc
    obtain ⟨-, -, -, -, hno⟩ := fit_spec (h.free_whole hc) hlay (hroom c hc)
    exact hno (hall c hc)
  · unfold Heap.allocate at hnone
    rw [hsome] at hnone
    cases hnone

/-- The payload is in a chunk that was free. -/
def Owned (a : Arena) (size align : Nat) : Prop :=
  ∀ p, (a.heap.allocate a.mem size align).1 = some p →
    ∃ c ∈ a.chunks, c.start + UNIT ≤ p ∧ p + max size 1 ≤ c.stop

theorem Sound.owned_iff {a : Arena} (h : Sound a [] free) {size align : Nat}
    (hlay : IsLayout size align) : Owned a size align ↔ Fitted a size align := by
  unfold Owned Fitted Heap.allocate
  rcases search_spec (max align UNIT) (needOf size) h.listed h.nonnull h.turns [] 0 rfl with
    ⟨hnone, hall⟩ | ⟨l1, c, l2, rfl, hfound, hfit, hbefore⟩
  · rw [hnone]
    refine iff_of_true (fun p hp => by cases hp) fun c hc => ?_
    have hin : c ∈ free := h.chunks ▸ mem_of_find?_eq_some hc
    exact absurd (by simpa using find?_some hc) (hall c hin)
  rw [hfound, firstFit_eq h.chunks hfit hbefore, h.chunks]
  have hc : c ∈ l1 ++ c :: l2 := mem_append_right _ mem_cons_self
  constructor
  · rintro howned _ ⟨⟩
    by_contra hhigh
    obtain ⟨hmod, htop, hbelow⟩ := saturated_spec (h.free_whole hc) hlay (Nat.not_le.mp hhigh)
    obtain ⟨u, hu, hlow, hend⟩ := howned _ rfl
    -- the chunks before did not fit, and this one and those after start too high
    rcases mem_append.mp hu with hu1 | hu2
    · obtain ⟨-, -, -, -, hno⟩ := fit_spec (h.free_whole hu) hlay (by omega)
      exact hno (hbefore u hu1) _ hmod hlow hend
    · rcases mem_cons.mp hu2 with rfl | hu2
      · omega
      · have hgap := (pairwise_cons.mp (pairwise_append.mp h.gapped.gaps).2.1).1 u hu2
        have hpos := (h.free_whole hc).nonempty
        omega
  · rintro hroom p ⟨⟩
    obtain ⟨hge, -, -, hyes, -⟩ := fit_spec (h.free_whole hc) hlay (hroom c rfl)
    exact ⟨c, hc, hge, (hyes hfit).2.trans hfit⟩

theorem Sound.kept {a : Arena} (h : Sound a [] free) : Kept a := by
  obtain ⟨hgapped, hwithin, -⟩ :=
    gapped_coalesce (fun s hs => (h.donated_whole hs).nonempty) h.spans
  have hcover : ∀ x, Within a.donated x
      ↔ Within free x ∨ Within (a.live.map a.chunkOf) x := h.cover
  have hchunks := h.chunks
  refine ⟨?_, ⟨h.apart, ?_⟩, ?_, ?_, h.used, ?_, ?_⟩
  · intro b hb
    have hplace := h.placed b hb
    have hheader := hplace.header
    have hroom := hplace.room
    refine ⟨hplace.aligned, by omega, ⟨?_, hroom⟩, ?_⟩
    · show (chunkOf a.mem b.payload).start ≤ b.payload - UNIT
      omega
    · apply hgapped.covers hplace.whole.nonempty
      intro x hx
      rw [hwithin, hcover]
      exact .inr ⟨_, mem_map_of_mem hb, hx⟩
  · rw [hchunks]
    exact h.outside
  · rw [hchunks]
    exact h.gapped
  · rw [hchunks]
    exact hcover
  · intro size align hmeets hnone
    rw [hchunks]
    exact h.refused hmeets hnone
  · intro hlive
    rw [hchunks]
    refine h.gapped.ext hgapped ?_
    intro x
    rw [hwithin, hcover, hlive]
    constructor
    · exact .inl
    · intro hx
      exact hx.resolve_right within_nil

/-- No calls make the heap overlap, leak or stay fragmented. -/
theorem heap_keeps_its_bytes (owner : Nat) (mem : Memory) (calls : List Call)
    (hmeets : MeetsAll (.new owner mem) calls) : Kept ((Arena.new owner mem).run calls) := by
  obtain ⟨free, h⟩ := (Sound.new owner mem).run hmeets.tame
  exact h.kept

/-- Two spans that touch, and an allocation across the place where they do. -/
def touching : List Call := [.extend 4096 32, .extend 4128 32, .allocate 32 8]

theorem touching_meets : MeetsAll (.new 0 fun _ => (0, 0)) touching := by
  refine ⟨⟨by decide, ?_⟩, ⟨by decide, ?_⟩, ⟨⟨⟨3, rfl⟩, by decide⟩, ?_⟩, trivial⟩
  · intro x _
    exact within_nil
  · rintro x hx ⟨s, hs, hxs⟩
    have hs : s = ⟨4096, 4128⟩ := mem_singleton.mp hs
    rw [hs] at hxs
    rw [mem_iff] at hx hxs
    dsimp only at hx hxs
    omega
  · decide +kernel

theorem heap_keeps_its_bytes_touching : Kept ((Arena.new 0 fun _ => (0, 0)).run touching) :=
  heap_keeps_its_bytes 0 _ touching touching_meets

/-- The header and payload lie in neither span, only in the two coalesced. -/
theorem payload_across_touching_spans :
    MeetsAll (.new 0 fun _ => (0, 0)) touching
      ∧ ((Arena.new 0 fun _ => (0, 0)).run touching).live = [⟨4112, 32, 8⟩]
      ∧ ∀ s ∈ ((Arena.new 0 fun _ => (0, 0)).run touching).spans,
        ¬ s.Covers ⟨4112 - UNIT, 4112 + 32⟩ := by
  refine ⟨touching_meets, by decide +kernel, by decide +kernel⟩

/-- What the heap hands out lies in a chunk that was free, exactly if aligning past
the header of the chunk it is taken from does not saturate. -/
theorem payload_in_a_free_chunk (owner : Nat) (mem : Memory) (calls : List Call)
    (htame : TameAll (.new owner mem) calls) {size align : Nat} (hlay : IsLayout size align) :
    Owned ((Arena.new owner mem).run calls) size align
      ↔ Fitted ((Arena.new owner mem).run calls) size align := by
  obtain ⟨free, h⟩ := (Sound.new owner mem).run htame
  exact h.owned_iff hlay

/-- A span at the bottom and one so close to the top that no address in it is
aligned. -/
def ends : List Call := [.extend 4096 4096, .extend (2 ^ 64 - 1024) 512]

/-- The chunk that saturates is not reached. -/
theorem payload_in_a_free_chunk_ends :
    let a := (Arena.new 0 fun _ => (0, 0)).run ends
    (a.heap.allocate a.mem 8 1024).1 = some 5120 ∧ Owned a 8 1024 := by
  refine ⟨by decide +kernel, (payload_in_a_free_chunk 0 _ ends ?_ ⟨⟨10, rfl⟩, by decide⟩).mpr ?_⟩
  · refine ⟨⟨by decide, fun _ _ => within_nil⟩, ⟨by decide, ?_⟩, trivial⟩
    rintro x hx ⟨s, hs, hxs⟩
    obtain rfl : s = ⟨4096, 8192⟩ := mem_singleton.mp hs
    rw [mem_iff] at hx hxs
    dsimp only at hx hxs
    omega
  · intro c hc
    have hfirst : firstFit ((Arena.new 0 fun _ => (0, 0)).run ends) 8 1024 = some ⟨4096, 8192⟩ := by
      decide +kernel
    cases hfirst.symm.trans hc
    decide

/-- A span in the upper half, where the kernel's are. -/
def upper : Arena := (Arena.new 0 fun _ => (0, 0)).run [.extend 0xffff800000000000 4096]

/-- At a large alignment the rounding saturates, and the payload is below
every chunk. -/
theorem large_alignment_leaves_the_heap :
    IsLayout 8 (2 ^ 62) ∧ (upper.heap.allocate upper.mem 8 (2 ^ 62)).1 = some 0xc000000000000000
      ∧ ∀ c ∈ upper.chunks, ¬ c.start + UNIT ≤ 0xc000000000000000 :=
  ⟨⟨⟨62, rfl⟩, by decide⟩, by decide +kernel, by decide +kernel⟩

/-- The free bytes are the donated ones that are not live. -/
theorem Kept.within_chunks {a : Arena} (h : Kept a) (x : Nat) :
    Within a.chunks x ↔ Within a.donated x ∧ ¬ Within (a.live.map a.chunkOf) x := by
  rw [h.partition]
  constructor
  · rintro ⟨c, hc, hx⟩
    refine ⟨.inl ⟨c, hc, hx⟩, ?_⟩
    rintro ⟨s, hs, hxs⟩
    obtain ⟨b, hb, rfl⟩ := mem_map.mp hs
    have hapart := h.apart.2 b hb c hc
    rw [mem_iff] at hx hxs
    rcases hapart with hlt | hlt <;> omega
  · rintro ⟨hx | hx, hno⟩
    · exact hx
    · exact absurd hx hno

/-- The free list is a function of the bytes donated and live: whatever was
allocated and freed on the way, in whatever order, two heaps that agree on
those have the same chunks. -/
theorem free_list_forgets_its_history {owner owner' : Nat} {mem mem' : Memory}
    {calls calls' : List Call} (hmeets : MeetsAll (.new owner mem) calls)
    (hmeets' : MeetsAll (.new owner' mem') calls')
    (hdonated : ∀ x, Within ((Arena.new owner mem).run calls).donated x
      ↔ Within ((Arena.new owner' mem').run calls').donated x)
    (hlive : ∀ x, Within (((Arena.new owner mem).run calls).live.map
        ((Arena.new owner mem).run calls).chunkOf) x
      ↔ Within (((Arena.new owner' mem').run calls').live.map
        ((Arena.new owner' mem').run calls').chunkOf) x) :
    ((Arena.new owner mem).run calls).chunks = ((Arena.new owner' mem').run calls').chunks := by
  obtain ⟨free, h⟩ := (Sound.new owner mem).run hmeets.tame
  obtain ⟨free', h'⟩ := (Sound.new owner' mem').run hmeets'.tame
  refine h.kept.ordered.ext h'.kept.ordered fun x => ?_
  rw [h.kept.within_chunks, h'.kept.within_chunks, hdonated, hlive]

def page : Arena := (Arena.new 0 fun _ => (0, 0)).run [.extend 4096 4096]

/-- The page with an allocation that was freed again. -/
def returned : Arena :=
  (Arena.new 0 fun _ => (0, 0)).run [.extend 4096 4096, .allocate 32 8, .deallocate 0]

theorem free_list_forgets_its_history_page : returned.chunks = page.chunks := by
  have hdonated : returned.donated = page.donated := by decide +kernel
  have hlive : returned.live.map returned.chunkOf = page.live.map page.chunkOf := by
    decide +kernel
  refine free_list_forgets_its_history
    ⟨⟨by decide, fun _ _ => within_nil⟩, ⟨⟨⟨3, rfl⟩, by decide⟩, by decide +kernel⟩, trivial,
      trivial⟩
    ⟨⟨by decide, fun _ _ => within_nil⟩, trivial⟩ (fun x => ?_) fun x => ?_
  · exact iff_of_eq (congrArg (Within · x) hdonated)
  · exact iff_of_eq (congrArg (Within · x) hlive)

end Molt.Alloc
