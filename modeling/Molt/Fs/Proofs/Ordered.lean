/-
Ordered trees: what a well-formed metadata tree is, and that lookups in
one are lookups in a map.

# The invariant

`Sub V g min l tail b lo hi es bs` says that block `b` roots a subtree of
level `l` whose pairs, left to right, are `es` and whose blocks, parent
before children, are `bs`. Its keys, separators included, lie in
`[lo, hi)`; its nodes are no newer than generation `g`; and its nodes
hold at least `min` keys each, except along the right edge of the whole
tree, which is where `tail` is true.

The children of one node and the separators between them are a `Chain`,
over any notion `S` of subtree. `Sub` is then a recursion on the level
alone, and what is true of chains is proved once, by induction on them
(`Chain.append`, `Chain.cut`, `Chain.focus`).
-/
import Molt.Fs.Proofs.Search

namespace Molt.Fs

open Lib Node
open List hiding after

-- == the ranges

/-- `k` lies in `[lo, hi)`; a missing bound is no bound. -/
def Within (lo hi : Option Key) (k : Key) : Prop :=
  (∀ l, lo = some l → l ≤ k) ∧ ∀ h, hi = some h → k < h

theorem Within.none (k : Key) : Within none none k := by
  constructor <;> rintro _ ⟨⟩

theorem Within.hi_le {lo hi : Option Key} {k k' : Key} (h : Within lo hi k)
    (hk' : Within lo (some k) k') : Within lo hi k' :=
  ⟨hk'.1, fun u hu => lt_trans (hk'.2 k rfl) (h.2 u hu)⟩

theorem Within.lo_le {lo hi : Option Key} {k k' : Key} (h : Within lo hi k)
    (hk' : Within (some k) hi k') : Within lo hi k' :=
  ⟨fun l hl => le_trans (h.1 l hl) (hk'.1 k rfl), hk'.2⟩

-- == the chains

/-- A notion of subtree: whether it is on the right edge, its block, its
range, its pairs and its blocks. -/
abbrev Subtree := Bool → Nat → Option Key → Option Key → List (Key × Value) → List Nat → Prop

/-- The children of one node, each with the range its separators carve
out. -/
inductive Chain (S : Subtree) (tail : Bool) :
    Option Key → Option Key → List Key → List Nat → List (Key × Value) → List Nat → Prop where
  | last {c : Nat} {lo hi : Option Key} {es : List (Key × Value)} {bs : List Nat} :
      S tail c lo hi es bs → Chain S tail lo hi [] [c] es bs
  | cons {k : Key} {c : Nat} {lo hi : Option Key} {ks : List Key} {cs : List Nat}
      {es es' : List (Key × Value)} {bs bs' : List Nat} :
      S false c lo (some k) es bs → Within lo hi k →
      Chain S tail (some k) hi ks cs es' bs' →
      Chain S tail lo hi (k :: ks) (c :: cs) (es ++ es') (bs ++ bs')

/-- What every notion of subtree used here promises. -/
structure Subtree.Good (S : Subtree) : Prop where
  range : ∀ {t b lo hi es bs}, S t b lo hi es bs → ∀ e ∈ es, Within lo hi e.1
  nonempty : ∀ {t b lo hi es bs}, S t b lo hi es bs → es ≠ []
  sorted : ∀ {t b lo hi es bs}, S t b lo hi es bs → Sorted es
  block : ∀ {t b lo hi es bs}, S t b lo hi es bs → b ∈ bs

namespace Chain

variable {S S' : Subtree} {tail : Bool} {lo hi : Option Key} {ks : List Key}
  {cs : List Nat} {es : List (Key × Value)} {bs : List Nat}

section

variable (h : Chain S tail lo hi ks cs es bs)
include h

theorem length : cs.length = ks.length + 1 := by
  induction h with
  | last => rfl
  | cons _ _ _ ih => simp [ih]

theorem member {x : Nat} (hx : x ∈ bs) :
    ∃ t c lo' hi' es' bs', S t c lo' hi' es' bs' ∧ c ∈ cs ∧ x ∈ bs' ∧ ∀ y ∈ bs', y ∈ bs := by
  induction h with
  | last hs => exact ⟨_, _, _, _, _, _, hs, mem_cons_self, hx, fun _ hy => hy⟩
  | cons hs _ _ ih =>
    rcases mem_append.mp hx with hx | hx
    · exact ⟨_, _, _, _, _, _, hs, mem_cons_self, hx, fun _ hy => mem_append_left _ hy⟩
    · obtain ⟨t, c, lo', hi', es', bs', hs', hc, hx, hsub⟩ := ih hx
      exact ⟨t, c, lo', hi', es', bs', hs', mem_cons_of_mem _ hc, hx,
        fun y hy => mem_append_right _ (hsub y hy)⟩

theorem keys : ∀ k ∈ ks, Within lo hi k := by
  induction h with
  | last => simp
  | cons _ hk _ ih =>
    intro x hx
    rcases mem_cons.mp hx with rfl | hx
    · exact hk
    · exact hk.lo_le (ih x hx)

end

section

variable (hS : S.Good) (h : Chain S tail lo hi ks cs es bs)

include hS h

theorem range : ∀ e ∈ es, Within lo hi e.1 := by
  induction h with
  | last hs => exact hS.range hs
  | cons hs hk _ ih =>
    intro e he
    rcases mem_append.mp he with he | he
    · exact hk.hi_le (hS.range hs e he)
    · exact hk.lo_le (ih e he)

theorem nonempty : es ≠ [] := by
  cases h with
  | last hs => exact hS.nonempty hs
  | cons hs => exact fun he => hS.nonempty hs (append_eq_nil_iff.mp he).1

theorem sorted : Sorted es := by
  induction h with
  | last hs => exact hS.sorted hs
  | @cons k _ _ _ _ _ _ _ _ _ hs hk hrest ih =>
    refine sorted_append.mpr ⟨hS.sorted hs, ih, fun a ha b hb => ?_⟩
    have h1 := (hS.range hs a ha).2 k rfl
    have h2 := (hrest.range hS b hb).1 k rfl
    exact lt_of_lt_of_le h1 h2

theorem children : ∀ c ∈ cs, c ∈ bs := by
  induction h with
  | last hs =>
    intro c hc
    rw [mem_singleton.mp hc]
    exact hS.block hs
  | cons hs _ _ ih =>
    intro c hc
    rcases mem_cons.mp hc with rfl | hc
    · exact mem_append_left _ (hS.block hs)
    · exact mem_append_right _ (ih c hc)

theorem lo_lt {l : Key} (hl : lo = some l) : ∀ k ∈ ks, l < k := by
  cases h with
  | last => simp
  | @cons k c _ _ ks cs es es' bs bs' hs hk hrest =>
    have hlk : l < k := by
      obtain ⟨e, he⟩ := exists_mem_of_ne_nil _ (hS.nonempty hs)
      have h1 := hS.range hs e he
      exact lt_of_le_of_lt (h1.1 l hl) (h1.2 k rfl)
    intro x hx
    rcases mem_cons.mp hx with rfl | hx
    · exact hlk
    · exact lt_of_lt_of_le hlk ((hrest.keys x hx).1 k rfl)

theorem keys_sorted : ks.Pairwise (· < ·) := by
  induction h with
  | last => exact List.Pairwise.nil
  | cons _ _ hrest ih =>
    exact pairwise_cons.mpr ⟨hrest.lo_lt hS rfl, ih⟩

end

/-- A chain over one notion of subtree is a chain over another that holds
wherever the first does. -/
theorem imp (h : Chain S tail lo hi ks cs es bs)
    (hSS : ∀ t b lo hi es' bs', (∀ x ∈ bs', x ∈ bs) → S t b lo hi es' bs' →
      S' t b lo hi es' bs') : Chain S' tail lo hi ks cs es bs := by
  induction h with
  | last hs => exact .last (hSS _ _ _ _ _ _ (fun _ h => h) hs)
  | cons hs hk _ ih =>
    refine .cons (hSS _ _ _ _ _ _ (fun x hx => mem_append_left _ hx) hs) hk
      (ih fun t b lo hi es' bs' hsub => hSS t b lo hi es' bs' fun x hx => ?_)
    exact mem_append_right _ (hsub x hx)

theorem append {k : Key} {ks' : List Key} {cs' : List Nat}
    {es' : List (Key × Value)} {bs' : List Nat}
    (h : Chain S false lo (some k) ks cs es bs) (hk : Within lo hi k)
    (h' : Chain S tail (some k) hi ks' cs' es' bs') :
    Chain S tail lo hi (ks ++ k :: ks') (cs ++ cs') (es ++ es') (bs ++ bs') := by
  generalize hu : some k = u at h
  induction h with
  | last hs =>
    cases hu
    exact .cons hs hk h'
  | cons hs hk0 hrest ih =>
    cases hu
    have hk' : Within (some _) hi k :=
      ⟨fun l hl => by cases hl; exact le_of_lt (hk0.2 k rfl), hk.2⟩
    have := Chain.cons hs (hk.hi_le hk0) (ih hk' rfl)
    rwa [← append_assoc, ← append_assoc] at this

theorem cut (hS : S.Good) {k : Key} {ks1 ks2 : List Key}
    (h : Chain S tail lo hi (ks1 ++ k :: ks2) cs es bs) :
    ∃ cs1 cs2 es1 es2 bs1 bs2, cs = cs1 ++ cs2 ∧ es = es1 ++ es2
      ∧ bs = bs1 ++ bs2 ∧ Chain S false lo (some k) ks1 cs1 es1 bs1
      ∧ Within lo hi k ∧ Chain S tail (some k) hi ks2 cs2 es2 bs2 := by
  induction ks1 generalizing lo cs es bs with
  | nil =>
    cases h with
    | @cons _ c _ _ _ cs es es' bs bs' hs hk hrest =>
      exact ⟨[c], cs, es, es', bs, bs', rfl, rfl, rfl, .last hs, hk, hrest⟩
  | cons a ks1 ih =>
    cases h with
    | @cons _ c _ _ _ cs es es' bs bs' hs ha hrest =>
      obtain ⟨cs1, cs2, es1, es2, bs1, bs2, rfl, rfl, rfl, h1, hk, h2⟩ := ih hrest
      have hak : a < k := hrest.lo_lt hS rfl k (by simp)
      refine ⟨c :: cs1, cs2, es ++ es1, es2, bs ++ bs1, bs2, rfl,
        (append_assoc ..).symm, (append_assoc ..).symm,
        .cons hs ⟨ha.1, fun u hu => by cases hu; exact hak⟩ h1,
        ha.lo_le hk, h2⟩

/-- The child between two runs of separators, and what replacing it by a
chain of its own range gives. The siblings may change their notion of
subtree on the way. -/
theorem focus (hS : S.Good) {ks1 ks2 : List Key}
    (h : Chain S tail lo hi (ks1 ++ ks2) cs es bs) :
    ∃ cs1 c cs2 t lo' hi' es1 ec es2 bs1 bc bs2, cs = cs1 ++ c :: cs2 ∧ cs1.length = ks1.length
      ∧ es = es1 ++ ec ++ es2 ∧ bs = bs1 ++ bc ++ bs2
      ∧ S t c lo' hi' ec bc ∧ (tail = false → t = false)
      ∧ (∀ e ∈ es1, ∃ k ∈ ks1, e.1 < k) ∧ (∀ e ∈ es2, ∃ k ∈ ks2, k ≤ e.1)
      ∧ (∀ k, Within lo hi k → (∀ x ∈ ks1, x ≤ k) → (∀ x ∈ ks2, k < x) → Within lo' hi' k)
      ∧ ∀ (S' : Subtree) {ks' cs' es' bs'}, (∀ t b lo hi es' bs', (∀ x ∈ bs', x ∈ bs1 ∨ x ∈ bs2) →
            S t b lo hi es' bs' → S' t b lo hi es' bs') →
          Chain S' t lo' hi' ks' cs' es' bs' →
          Chain S' tail lo hi (ks1 ++ ks' ++ ks2) (cs1 ++ cs' ++ cs2)
            (es1 ++ es' ++ es2) (bs1 ++ bs' ++ bs2) := by
  induction ks1 generalizing lo cs es bs with
  | nil =>
    cases h with
    | @last c lo hi es bs hs =>
      refine ⟨[], c, [], tail, lo, hi, [], es, [], [], bs, [], rfl, rfl,
        by simp, by simp, hs, id, by simp, by simp, fun k hk _ _ => hk, ?_⟩
      intro S' ks' cs' es' bs' _ h'
      simpa using h'
    | @cons k c lo hi ks cs es es' bs bs' hs hk hrest =>
      refine ⟨[], c, cs, false, lo, some k, [], es, es', [], bs, bs', rfl, rfl,
        rfl, rfl, hs, fun _ => rfl, by simp, ?_, ?_, ?_⟩
      · intro e he
        exact ⟨k, mem_cons_self, (hrest.range hS e he).1 k rfl⟩
      · intro x hx _ hgt
        refine ⟨hx.1, fun u hu => ?_⟩
        cases hu
        exact hgt k mem_cons_self
      · intro S' ks' cs' es'' bs'' himp h'
        have hrest' : Chain S' tail (some k) hi ks cs es' bs' :=
          hrest.imp fun t b lo hi e2 b2 hsub =>
            himp t b lo hi e2 b2 fun x hx => Or.inr (hsub x hx)
        exact h'.append hk hrest'
  | cons a ks1 ih =>
    cases h with
    | @cons _ c0 _ _ _ cs es0 es' bs0 bs' hs ha hrest =>
      obtain ⟨cs1, c, cs2, t, lo', hi', es1, ec, es2, bs1, bc, bs2, rfl, hlen,
        rfl, rfl, hc, ht, hleft, hright, hin, hre⟩ := ih hrest
      refine ⟨c0 :: cs1, c, cs2, t, lo', hi', es0 ++ es1, ec, es2,
        bs0 ++ bs1, bc, bs2, rfl, by simp [hlen], by simp, by simp, hc, ht,
        ?_, hright, ?_, ?_⟩
      · intro e he
        rcases mem_append.mp he with he | he
        · exact ⟨a, mem_cons_self, (hS.range hs e he).2 a rfl⟩
        · obtain ⟨k, hk, hlt⟩ := hleft e he
          exact ⟨k, mem_cons_of_mem _ hk, hlt⟩
      · intro k hk hle hgt
        refine hin k ⟨fun l hl => ?_, hk.2⟩ (fun x hx => hle x (mem_cons_of_mem _ hx)) hgt
        cases hl
        exact hle a mem_cons_self
      · intro S' ks' cs' es'' bs'' himp h'
        have hc0 : S' false c0 lo (some a) es0 bs0 :=
          himp _ _ _ _ _ _ (fun x hx => Or.inl (mem_append_left _ hx)) hs
        have hrest' := hre S' (fun t b lo hi e2 b2 hsub =>
          himp t b lo hi e2 b2 fun x hx => (hsub x hx).imp (mem_append_right _) id) h'
        have := Chain.cons hc0 ha hrest'
        simpa only [cons_append, append_assoc] using this

end Chain

-- == the trees

structure Held (V : Nat → Option Node) (g min : Nat) (tail : Bool) (l b : Nat)
    (n : Node) : Prop where
  view : V b = some n
  wf : n.WF
  level : n.level = l
  generation : n.generation ≤ g
  fill : tail = false → min ≤ n.len

def Sub (V : Nat → Option Node) (g min : Nat) : Nat → Subtree
  | 0, tail, b, lo, hi, es, bs => ∃ n, Held V g min tail 0 b n
      ∧ (∀ k ∈ n.keys, Within lo hi k) ∧ es = n.entries ∧ bs = [b]
  | l + 1, tail, b, lo, hi, es, bs => ∃ n bs', Held V g min tail (l + 1) b n
      ∧ Chain (Sub V g min l) tail lo hi n.keys n.children es bs' ∧ bs = b :: bs'

section Trees

variable {V V' : Nat → Option Node} {g g' min l : Nat} {tail : Bool} {b : Nat}
  {lo hi : Option Key} {es : List (Key × Value)} {bs : List Nat}

variable {n : Node}

theorem Node.WF.entries_eq (h : n.WF) (h0 : n.level = 0) : n.entries = n.keys.zip n.values := by
  rw [entries, cells_eq (h.leaf h0).1]

theorem Node.map_fst_entries : n.entries.map Prod.fst = n.keys := by
  rw [entries, map_fst_zip]
  simp [cells, len]

theorem Node.length_entries : n.entries.length = n.keys.length := by
  rw [← map_fst_entries, length_map]

theorem Node.WF.entries_sorted (h : n.WF) : Sorted n.entries := by
  have := h.sorted
  rw [← map_fst_entries, pairwise_map] at this
  exact this

theorem Node.entry?_eq (n : Node) (i : Nat) : n.entry? i = n.entries[i]? := by
  unfold entry?
  split
  case isTrue h =>
    have hi : i < n.entries.length := by
      rw [length_entries]
      exact h
    rw [List.getElem?_eq_getElem hi]
    have hk : n.key i = n.keys.get ⟨i, h⟩ := by
      simp [key, show i < n.keys.length from h]
    simp only [entries, getElem_zip, cells, getElem_map, getElem_range, hk]
    rfl
  case isFalse h =>
    rw [List.getElem?_eq_none]
    rw [length_entries]
    exact not_lt.mp h

theorem Sub.good (V : Nat → Option Node) (g min l : Nat) : Subtree.Good (Sub V g min l) := by
  induction l with
  | zero =>
    constructor
    · rintro t b lo hi es bs ⟨n, hn, hk, rfl, rfl⟩ e he
      refine hk e.1 ?_
      rw [← map_fst_entries]
      exact mem_map_of_mem he
    · rintro t b lo hi es bs ⟨n, hn, hk, rfl, rfl⟩ he
      have := hn.wf.len_pos
      rw [← length_entries, he] at this
      simp at this
    · rintro t b lo hi es bs ⟨n, hn, hk, rfl, rfl⟩
      exact hn.wf.entries_sorted
    · rintro t b lo hi es bs ⟨n, hn, hk, rfl, rfl⟩
      simp
  | succ l ih =>
    constructor
    · rintro t b lo hi es bs ⟨n, bs', hn, hch, rfl⟩
      exact hch.range ih
    · rintro t b lo hi es bs ⟨n, bs', hn, hch, rfl⟩
      exact hch.nonempty ih
    · rintro t b lo hi es bs ⟨n, bs', hn, hch, rfl⟩
      exact hch.sorted ih
    · rintro t b lo hi es bs ⟨n, bs', hn, hch, rfl⟩
      exact mem_cons_self

section

variable (h : Sub V g min l tail b lo hi es bs)

include h

theorem Sub.congr (hV : ∀ c ∈ bs, V' c = V c) (hg : g ≤ g') :
    Sub V' g' min l tail b lo hi es bs := by
  induction l generalizing tail b lo hi es bs with
  | zero =>
    obtain ⟨n, hn, hk, rfl, rfl⟩ := h
    refine ⟨n, ⟨?_, hn.wf, hn.level, hn.generation.trans hg, hn.fill⟩, hk, rfl, rfl⟩
    rw [hV b (by simp)]
    exact hn.view
  | succ l ih =>
    obtain ⟨n, bs', hn, hch, rfl⟩ := h
    refine ⟨n, bs', ⟨?_, hn.wf, hn.level, hn.generation.trans hg, hn.fill⟩, ?_, rfl⟩
    · rw [hV b (by simp)]
      exact hn.view
    · refine hch.imp fun t c lo hi es' bs'' hsub hs => ih hs fun x hx => ?_
      exact hV x (mem_cons_of_mem _ (hsub x hx))

theorem Sub.view_ne_none : ∀ c ∈ bs, V c ≠ none := by
  induction l generalizing tail b lo hi es bs with
  | zero =>
    obtain ⟨n, hn, hk, rfl, rfl⟩ := h
    intro c hc
    rw [mem_singleton.mp hc, hn.view]
    simp
  | succ l ih =>
    obtain ⟨n, bs', hn, hch, rfl⟩ := h
    intro c hc
    rcases mem_cons.mp hc with rfl | hc
    · rw [hn.view]
      simp
    obtain ⟨_, _, _, _, _, _, hs, -, hc, -⟩ := hch.member hc
    exact ih hs c hc

theorem Sub.shaped : Shaped V l b := by
  induction l generalizing tail b lo hi es bs with
  | zero =>
    obtain ⟨n, hn, _⟩ := h
    exact ⟨n, hn.view, hn.level⟩
  | succ l ih =>
    obtain ⟨n, bs', hn, hch, rfl⟩ := h
    refine ⟨n, hn.view, hn.level, fun i hi' => ?_⟩
    have hlen := hch.length
    have hi2 : i < n.children.length := by
      rw [hlen]
      exact Nat.lt_succ_of_le hi'
    have hmem : n.child i ∈ n.children := by
      simp [child, hi2]
    generalize n.child i = c at hmem
    clear hi2 hlen hi' hn
    generalize n.keys = ks at hch
    generalize n.children = cs at hch hmem
    induction hch with
    | last hs =>
      rw [mem_singleton.mp hmem]
      exact ih hs
    | cons hs _ _ ihc =>
      rcases mem_cons.mp hmem with rfl | hmem
      · exact ih hs
      · exact ihc hmem

end

-- == the lookups

theorem Node.child_of_append {cs1 cs2 : List Nat} {c i : Nat}
    (h : n.children = cs1 ++ c :: cs2) (hi : i = cs1.length) : n.child i = c := by
  simp [child, h, hi]

theorem Chain.head {S : Subtree} {ks : List Key} {cs : List Nat}
    (h : Chain S tail lo hi ks cs es bs) :
    ∃ c cs' t hi' es1 es2 bs1, cs = c :: cs' ∧ S t c lo hi' es1 bs1 ∧ es = es1 ++ es2 := by
  cases h with
  | @last c _ _ _ _ hs =>
    exact ⟨c, [], tail, hi, es, [], bs, rfl, hs, (append_nil _).symm⟩
  | @cons k c _ _ ks cs es es' bs bs' hs hk hrest =>
    exact ⟨c, cs, false, some k, es, es', bs, rfl, hs, rfl⟩

theorem Sub.firstIn_eq (h : Sub V g min l tail b lo hi es bs) : firstIn V l b = es.head? := by
  induction l generalizing tail b lo hi es bs with
  | zero =>
    obtain ⟨n, hn, hk, rfl, rfl⟩ := h
    simp [firstIn, hn.view, entry?_eq, List.head?_eq_getElem?]
  | succ l ih =>
    obtain ⟨n, bs', hn, hch, rfl⟩ := h
    obtain ⟨c, cs', t, hi', es1, es2, bs1, hcs, hs, rfl⟩ := hch.head
    have hc : n.child 0 = c := child_of_append (show n.children = [] ++ c :: cs' from hcs) rfl
    rw [firstIn, hn.view, Option.bind_some, hc, ih hs,
      List.head?_append_of_ne_nil _ ((Sub.good V g min l).nonempty hs)]

/-- The child a key belongs in, what is left of it and what is right of
it: everything a lookup at that key needs to know of an inner node. -/
theorem Chain.at_key {S : Subtree} (hS : S.Good)
    (h : Chain S tail lo hi n.keys n.children es bs) (key : Key) :
    ∃ t lo' hi' es1 ec es2 bc, es = es1 ++ ec ++ es2
      ∧ S t (n.child (n.upper key)) lo' hi' ec bc
      ∧ (∀ e ∈ es1, e.1 < key) ∧ (∀ e ∈ es2, key < e.1)
      ∧ if n.upper key < n.len then
          ∃ t lo hi er es3 br, es2 = er ++ es3 ∧ S t (n.child (n.upper key + 1)) lo hi er br
        else es2 = [] := by
  obtain ⟨as, ks, hkeys, has, hks⟩ := split_upper (h.keys_sorted hS) key
  have hup : n.upper key = as.length := upper_eq hkeys has hks
  have hlen : n.len = as.length + ks.length := by
    rw [len, hkeys, length_append]
  rw [hup, hlen]
  rw [hkeys] at h
  generalize hcs : n.children = cs at h
  cases ks with
  | nil =>
    obtain ⟨cs1, c, cs2, t, lo', hi', es1, ec, es2, bs1, bc, bs2, rfl, hl, rfl, rfl,
      hc, _, hleft, hright, _⟩ := h.focus hS
    have hnil : es2 = [] := eq_nil_iff_forall_not_mem.mpr fun e he => by
      obtain ⟨k, hk, _⟩ := hright e he
      simp at hk
    refine ⟨t, lo', hi', es1, ec, es2, bc, rfl, ?_, ?_, by simp [hnil], by simp [hnil]⟩
    · rw [child_of_append hcs hl.symm]
      exact hc
    · intro e he
      obtain ⟨k, hk, hlt⟩ := hleft e he
      exact lt_of_lt_of_le hlt (has k hk)
  | cons k ks =>
    -- cut behind the child, so that what is right of it is a chain
    obtain ⟨csl, csr, esl, esr, bsl, bsr, rfl, rfl, rfl, hl, hk, hr⟩ := h.cut hS
    rw [← append_nil as] at hl
    obtain ⟨cs1, c, cs2, t, lo', hi', es1, ec, es2, bs1, bc, bs2, rfl, hcl, rfl, rfl,
      hc, _, hleft, hright, _⟩ := hl.focus hS
    have hnil : es2 = [] := eq_nil_iff_forall_not_mem.mpr fun e he => by
      obtain ⟨k, hk, _⟩ := hright e he
      simp at hk
    have hcs2 : cs2 = [] := by
      have := hl.length
      simp only [length_append, length_cons, append_nil] at this
      exact eq_nil_iff_length_eq_zero.mpr (by omega)
    obtain ⟨d, csr', t', hi'', er, es3, br, rfl, hd, rfl⟩ := hr.head
    refine ⟨t, lo', hi', es1, ec, er ++ es3, bc, by simp [hnil], ?_, ?_, ?_, ?_⟩
    · rw [child_of_append (show n.children = cs1 ++ c :: (cs2 ++ d :: csr') by
        rw [hcs]
        simp) hcl.symm]
      exact hc
    · intro e he
      obtain ⟨k, hk, hlt⟩ := hleft e he
      exact lt_of_lt_of_le hlt (has k hk)
    · intro e he
      exact lt_of_lt_of_le (hks k mem_cons_self) ((hr.range hS e he).1 k rfl)
    · rw [if_pos (by simp)]
      refine ⟨t', some k, hi'', er, es3, br, rfl, ?_⟩
      rw [child_of_append (show n.children = cs1 ++ [c] ++ d :: csr' by
        rw [hcs, hcs2]) (by simp [hcl])]
      exact hd

theorem Node.getD_lower (hn : n.WF) (key : Key) : (match n.entry? (n.lower key) with
      | some (held, value) => if held = key then some value else none
      | none => none) = find key n.entries := by
  obtain ⟨as, ks, hkeys, has, hks⟩ := split_lower hn.sorted key
  have hfst : n.entries.map Prod.fst = as ++ ks := by rw [map_fst_entries, hkeys]
  obtain ⟨ea, ek, he, rfl, rfl⟩ := map_eq_append_iff.mp hfst
  rw [entry?_eq, he, lower_eq hkeys has hks, length_map,
    List.getElem?_append_right le_rfl, Nat.sub_self,
    find_append_of_lt fun e he => has _ (mem_map_of_mem he)]
  have hsorted : Sorted ek := (sorted_append.mp (he ▸ hn.entries_sorted)).2.1
  cases ek with
  | nil => rfl
  | cons e ek =>
    obtain ⟨k, v⟩ := e
    show (if k = key then some v else none) = _
    by_cases hk : k = key
    · rw [if_pos hk, (find_eq_some_iff hsorted).mpr]
      rw [hk]
      exact mem_cons_self
    · rw [if_neg hk, find_eq_none_iff.mpr]
      intro e he
      have hle : key ≤ k := hks k (by simp)
      rcases mem_cons.mp he with rfl | he
      · exact hk
      · have := (sorted_cons.mp hsorted).1 e he
        exact ne_of_gt (lt_of_le_of_lt hle this)

theorem Sub.getIn_eq (h : Sub V g min l tail b lo hi es bs) (key : Key) :
    getIn V key l b = find key es := by
  induction l generalizing tail b lo hi es bs with
  | zero =>
    obtain ⟨n, hn, hk, rfl, rfl⟩ := h
    rw [getIn, hn.view, Option.bind_some]
    exact getD_lower hn.wf key
  | succ l ih =>
    obtain ⟨n, bs', hn, hch, rfl⟩ := h
    obtain ⟨t, lo', hi', es1, ec, es2, bc, rfl, hc, hleft, hright, _⟩ :=
      hch.at_key (Sub.good V g min l) key
    rw [getIn, hn.view, Option.bind_some, ih hc, find_append_of_gt hright, find_append_of_lt hleft]

theorem Node.entry?_next (hn : n.WF) (key : Key) (inclusive : Bool) :
    n.entry? (if inclusive then n.lower key else n.upper key) = after key inclusive n.entries := by
  have hboth : ∃ as ks : List Key, n.keys = as ++ ks
      ∧ (if inclusive then n.lower key else n.upper key) = as.length
      ∧ (∀ k ∈ as, (if inclusive then decide (key ≤ k) else decide (key < k)) = false)
      ∧ ∀ k ∈ ks, (if inclusive then decide (key ≤ k) else decide (key < k)) = true := by
    cases inclusive with
    | true =>
      obtain ⟨as, ks, hkeys, has, hks⟩ := split_lower hn.sorted key
      exact ⟨as, ks, hkeys, lower_eq hkeys has hks,
        fun k hk => by simpa using has k hk, fun k hk => by simpa using hks k hk⟩
    | false =>
      obtain ⟨as, ks, hkeys, has, hks⟩ := split_upper hn.sorted key
      exact ⟨as, ks, hkeys, upper_eq hkeys has hks,
        fun k hk => by simpa using has k hk, fun k hk => by simpa using hks k hk⟩
  obtain ⟨as, ks, hkeys, hidx, has, hks⟩ := hboth
  have hfst : n.entries.map Prod.fst = as ++ ks := by rw [map_fst_entries, hkeys]
  obtain ⟨ea, ek, he, rfl, rfl⟩ := map_eq_append_iff.mp hfst
  rw [entry?_eq, he, hidx, length_map,
    List.getElem?_append_right le_rfl, Nat.sub_self, after, List.find?_append,
    List.find?_eq_none.mpr fun e he => by simp [has _ (mem_map_of_mem he)],
    Option.none_or]
  cases ek with
  | nil => rfl
  | cons e ek => rw [List.find?_cons_of_pos (by simpa using hks e.1 (by simp))]; rfl

theorem Sub.nextIn_eq (h : Sub V g min l tail b lo hi es bs) (key : Key)
    (inclusive : Bool) : nextIn V key inclusive l b = after key inclusive es := by
  induction l generalizing tail b lo hi es bs with
  | zero =>
    obtain ⟨n, hn, hk, rfl, rfl⟩ := h
    rw [nextIn, hn.view, Option.bind_some, entry?_next hn.wf]
  | succ l ih =>
    obtain ⟨n, bs', hn, hch, rfl⟩ := h
    have hS := Sub.good V g min l
    obtain ⟨t, lo', hi', es1, ec, es2, bc, rfl, hc, hleft, hright, hnext⟩ := hch.at_key hS key
    rw [nextIn, hn.view, Option.bind_some, ih hc, after_append,
      after_append_of_lt hleft, after_of_gt hright]
    congr 1
    split
    case isTrue hlt =>
      rw [if_pos hlt] at hnext
      obtain ⟨t', lo'', hi'', er, es3, br, rfl, hr⟩ := hnext
      rw [Sub.firstIn_eq hr, List.head?_append_of_ne_nil _ (hS.nonempty hr)]
    case isFalse hge =>
      rw [if_neg hge] at hnext
      rw [hnext]
      rfl

end Trees

-- == the height

section Height

variable {V : Nat → Option Node} {g min l N : Nat} {tail : Bool} {b : Nat}
  {lo hi : Option Key} {es : List (Key × Value)} {bs : List Nat}

theorem Chain.count {S : Subtree} {ks : List Key} {cs : List Nat}
    (hS : ∀ {b lo hi es bs}, S false b lo hi es bs → N ≤ bs.length)
    (h : Chain S tail lo hi ks cs es bs) :
    ks.length * N + (if tail then 0 else N) ≤ bs.length := by
  induction h with
  | last hs =>
    cases tail with
    | true => simp
    | false => simpa using hS hs
  | cons hs _ _ ih =>
    have := hS hs
    rw [length_append, length_cons, Nat.succ_mul]
    omega

theorem Sub.pow_le (h : Sub V g 6 l false b lo hi es bs) : 7 ^ l ≤ bs.length := by
  induction l generalizing b lo hi es bs with
  | zero =>
    obtain ⟨n, _, _, _, rfl⟩ := h
    simp
  | succ l ih =>
    obtain ⟨n, bs', hn, hch, rfl⟩ := h
    have hcount := hch.count ih
    have hfill : 6 ≤ n.keys.length := hn.fill rfl
    have hmul : 6 * 7 ^ l ≤ n.keys.length * 7 ^ l := Nat.mul_le_mul_right _ hfill
    simp only [Bool.false_eq_true, if_false] at hcount
    rw [length_cons, Nat.pow_succ]
    omega

theorem length_le_of_range {bs : List Nat} {low n : Nat} (hnodup : bs.Nodup)
    (h : ∀ c ∈ bs, low ≤ c ∧ c < low + n) : bs.length ≤ n := by
  have hsub : bs ⊆ List.range' low n := fun c hc =>
    mem_range'_1.mpr (h c hc)
  simpa using (subperm_of_subset hnodup hsub).length_le

/-- A tree in an arena stays below the height limit, and has a level to
spare. -/
theorem Sub.height {s : Store} (hs : s.volume.Sound)
    (h : Sub s.view g 6 l true b lo hi es bs) (hnodup : bs.Nodup) : l + 1 < 8 := by
  have hall := h.view_ne_none
  have harena : ∀ c ∈ bs, s.volume.superblock.InArena c := by
    intro c hc
    obtain ⟨n, hn⟩ := Option.ne_none_iff_exists'.mp (hall c hc)
    exact Volume.view_inArena (show s.volume.view c = some n from hn)
  have hlen : bs.length ≤ 2 ^ 16 :=
    le_trans (length_le_of_range hnodup harena) hs.geometry.treeBlocks_le
  cases l with
  | zero => decide
  | succ l =>
    obtain ⟨n, bs', hn, hch, rfl⟩ := h
    have hcount := hch.count (fun hs => hs.pow_le)
    have hpos := hn.wf.len_pos
    have hmul : 1 * 7 ^ l ≤ n.keys.length * 7 ^ l := Nat.mul_le_mul_right _ hpos
    rw [length_cons] at hlen
    by_contra hl
    have h6 : 7 ^ 6 ≤ 7 ^ l := Nat.pow_le_pow_right (by decide) (by omega)
    simp only [if_true] at hcount
    omega

end Height

end Molt.Fs
