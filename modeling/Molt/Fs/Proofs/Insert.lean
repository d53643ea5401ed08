/-
What an insert does to a well-formed tree.

# One level

A level of the path is rewritten in three moves: the new nodes are
placed in free blocks (`Placed`), they take the old node's place in the
chain of their parent, and the old block is returned. `Moved` is the
account a rewrite leaves: the blocks `ps` of the path gave way to `ns`,
every other used block and every guarded one is as it was, and what is
in use now is `ns` and those.

# The path

The loop of `insert` goes down and comes back up through an explicit
path. `insertDown` is the induction over it: whatever the rest of the
way up does with a rewritten subtree of level `l`, the descent from its
root followed by that rest does. Nothing is said of an insert that
fails.
-/
import Molt.Fs.Proofs.Arena
import Molt.Fs.Proofs.Splice

namespace Molt.Fs

open Lib List Molt.Fs.Tree

def Branch.keys : Branch → List Key
  | .one _ => []
  | .split _ separator _ => [separator]

/-- The blocks a rewritten level hands its parent. -/
def Branch.addrs : Branch → List Nat
  | .one addr => [addr]
  | .split left _ right => [left, right]

-- == placing nodes

structure Placed (tx : TreeTransaction) (s : Store) (as : List Nat)
    (ns : List Node) (tx' : TreeTransaction) (s' : Store) : Prop where
  same : tx' = { tx with used := tx'.used }
  fits : tx'.Fits s'.volume.superblock
  used : ∀ c, tx'.Used c ↔ c ∈ as ∨ tx.Used c
  free : ∀ a ∈ as, ¬ tx.Used a
  nodup : as.Nodup
  arena : ∀ a ∈ as, s.volume.superblock.InArena a
  evolves : Evolves Exact (fun x => x / 8 ∈ as) s s'
  views : List.Forall₂ (fun a n => s'.view a = some n) as ns
  other : ∀ c, c ∉ as → s'.view c = s.view c

section Placing

variable {tx tx' : TreeTransaction} {s s' s'' : Store} {a b : Nat} {n m : Node}

theorem Placed.one (hfit : tx.Fits s.volume.superblock) (hn : n.WF)
    (h : Took Exact tx n s a s') : Placed tx s [a] [n] (tx.taken a) s' where
  same := rfl
  fits := by
    rw [h.evolves.superblock]
    exact hfit.taken h.arena
  used c := by
    rw [TreeTransaction.used_taken hfit h.arena, mem_singleton]
  free c hc := by
    rw [mem_singleton.mp hc]
    exact h.free
  nodup := nodup_singleton a
  arena c hc := by
    rw [mem_singleton.mp hc]
    exact h.arena
  evolves := h.evolves.mono fun x hx => by simp [hx]
  views := .cons (h.view_self hn) .nil
  other c hc := h.view_other (by simpa using hc)

theorem Placed.two (hfit : tx.Fits s.volume.superblock) (hn : n.WF) (hm : m.WF)
    (h : Took Exact tx n s a s') (h' : Took Exact (tx.taken a) m s' b s'') :
    Placed tx s [a, b] [n, m] ((tx.taken a).taken b) s'' := by
  have hfit' : (tx.taken a).Fits s'.volume.superblock := (Placed.one hfit hn h).fits
  have hba : b ≠ a := fun hb =>
    h'.free ((TreeTransaction.used_taken hfit h.arena).mpr (Or.inl hb))
  have hbu : ¬ tx.Used b := fun hb =>
    h'.free ((TreeTransaction.used_taken hfit h.arena).mpr (Or.inr hb))
  have harena : s.volume.superblock.InArena b := by
    rw [← h.evolves.superblock]
    exact h'.arena
  refine ⟨rfl, (Placed.one hfit' hm h').fits, fun c => ?_, ?_, ?_, ?_, ?_, ?_, ?_⟩
  · rw [TreeTransaction.used_taken hfit' h'.arena, TreeTransaction.used_taken hfit h.arena]
    simp only [mem_cons, not_mem_nil, or_false]
    tauto
  · simp only [mem_cons, not_mem_nil, or_false]
    rintro c (rfl | rfl)
    · exact h.free
    · exact hbu
  · simpa using Ne.symm hba
  · simp only [mem_cons, not_mem_nil, or_false]
    rintro c (rfl | rfl)
    · exact h.arena
    · exact harena
  · exact (h.evolves.mono fun x hx => by simp [hx]).trans (h'.evolves.mono fun x hx => by simp [hx])
  · refine .cons ?_ (.cons (h'.view_self hm) .nil)
    rw [h'.view_other (Ne.symm hba)]
    exact h.view_self hn
  · intro c hc
    simp only [mem_cons, not_mem_nil, or_false, not_or] at hc
    rw [h'.view_other hc.2, h.view_other hc.1]

theorem Placed.after {as : List Nat} {ns : List Node} (h0 : Still Exact s s')
    (h : Placed tx s' as ns tx' s'') : Placed tx s as ns tx' s'' := by
  refine { h with arena := ?_, evolves := h0.evolves.trans h.evolves, other := ?_ }
  · rw [← h0.volume]
    exact h.arena
  · intro c hc
    rw [h.other c hc, h0.view]

theorem gate_returns {Q : Unit → Store → Prop} (hc : Coherent Exact s)
    (h : ∀ s', Still Exact s s' → Q () s') : Returns gate s Q :=
  (gate_spec hc).returns fun _ s' h' => h s' h'

theorem place_one {Q : TreeTransaction × Nat → Store → Prop} (hc : Coherent Exact s)
    (hfit : tx.Fits s.volume.superblock) (hn : n.WF)
    (h : ∀ a s', Placed tx s [a] [n] (tx.taken a) s' → Q (tx.taken a, a) s') :
    Returns (writeNew tx n) s Q := by
  refine (writeNew_spec hc hfit (Exact.kept hn)).returns ?_
  rintro _ s' ⟨a, rfl, ht⟩
  exact h a s' (.one hfit hn ht)

theorem place_whole {Q : TreeTransaction × Branch → Store → Prop} (hc : Coherent Exact s)
    (hfit : tx.Fits s.volume.superblock) (hn : n.WF)
    (h : ∀ a s', Placed tx s [a] [n] (tx.taken a) s' → Q (tx.taken a, .one a) s') :
    Returns (do
      gate
      let x ← writeNew tx n
      pure (x.1, Branch.one x.2)) s Q := by
  rw [Returns, wp_bind]
  refine gate_returns hc fun s1 h1 => ?_
  rw [wp_bind]
  refine place_one h1.cache (by rw [h1.volume]; exact hfit) hn fun a s2 h2 => ?_
  exact h a s2 (h2.after h1)

/-- Two nodes in the place of one; the second is built from the transaction
the first leaves. -/
theorem place_halves {k : Key} {M : TreeTransaction → Node}
    {Q : TreeTransaction × Branch → Store → Prop} (hc : Coherent Exact s)
    (hfit : tx.Fits s.volume.superblock) (hn : n.WF) (hm : m.WF)
    (hM : ∀ a, M (tx.taken a) = m)
    (h : ∀ a b s', Placed tx s [a, b] [n, m] ((tx.taken a).taken b) s' →
      Q ((tx.taken a).taken b, .split a k b) s') :
    Returns (do
      gate
      gate
      gate
      let x ← writeNew tx n
      let y ← writeNew x.1 (M x.1)
      pure (y.1, Branch.split x.2 k y.2)) s Q := by
  rw [Returns, wp_bind]
  refine gate_returns hc fun s1 h1 => ?_
  rw [wp_bind]
  refine gate_returns h1.cache fun s2 h2 => ?_
  rw [wp_bind]
  refine gate_returns h2.cache fun s3 h3 => ?_
  have h13 := (h1.trans h2).trans h3
  have hfit3 : tx.Fits s3.volume.superblock := by rw [h13.volume]; exact hfit
  rw [wp_bind]
  refine (writeNew_spec h3.cache hfit3 (Exact.kept hn)).returns ?_
  rintro _ s4 ⟨a, rfl, ht⟩
  have h4 := Placed.one hfit3 hn ht
  rw [wp_bind]
  simp only [hM]
  refine (writeNew_spec ht.evolves.cache h4.fits (Exact.kept hm)).returns ?_
  rintro _ s5 ⟨b, rfl, ht'⟩
  exact h a b s5 ((Placed.two hfit3 hn hm ht ht').after h13)

end Placing

-- == the leaves

section Leaves

variable {tx : TreeTransaction} {s : Store} {min : Nat} {tail : Bool}
  {lo hi : Option Key} {leaf : Node} {key : Key} {value : Value}

/-- New nodes in the place of an old one: the level above it will see the
chain of them. -/
structure Replaced (min l : Nat) (tail : Bool) (lo hi : Option Key)
    (es : List (Key × Value)) (bs : List Nat) (tx : TreeTransaction) (s : Store)
    (tx' : TreeTransaction) (br : Branch) (s' : Store) (bs' : List Nat) : Prop where
  placed : ∃ ns, Placed tx s br.addrs ns tx' s' ∧ ∀ n ∈ ns, n.generation = tx.generation
  chain : Chain (Sub s'.view tx.generation min l) tail lo hi br.keys br.addrs es bs'
  keys : ∀ k ∈ br.keys, k.Valid
  nodup : bs'.Nodup
  blocks : ∀ c, c ∈ bs' ↔ c ∈ br.addrs ∨ c ∈ bs

theorem leaf_one {items : List (Key × Value)} {a : Nat} {tx' : TreeTransaction}
    {s' : Store} (hwf : (leafOf tx.generation items).WF)
    (hr : ∀ e ∈ items, Within lo hi e.1) (hmin : tail = false → min ≤ items.length)
    (h : Placed tx s [a] [leafOf tx.generation items] tx' s') :
    Replaced min 0 tail lo hi items [] tx s tx' (.one a) s' [a] := by
  refine ⟨⟨_, h, by simp [leafOf]⟩, .last ?_, by simp [Branch.keys], by simp,
    by simp [Branch.addrs]⟩
  obtain ⟨hv, -⟩ := forall₂_cons.mp h.views
  exact .leafOf hv hwf le_rfl hr hmin

/-- A leaf's new pairs in two nodes, the separator being the first key of
the second. -/
theorem leaf_two {items : List (Key × Value)} {a b : Nat} {e : Key × Value}
    {es : List (Key × Value)} {tx' : TreeTransaction} {s' : Store}
    (hs : Sorted (items ++ e :: es)) (hwf : (leafOf tx.generation items).WF)
    (hwf' : (leafOf tx.generation (e :: es)).WF)
    (hr : ∀ x ∈ items ++ e :: es, Within lo hi x.1) (hmin : min ≤ items.length)
    (hmin' : min ≤ (e :: es).length)
    (h : Placed tx s [a, b] [leafOf tx.generation items, leafOf tx.generation (e :: es)] tx' s') :
    Replaced min 0 tail lo hi (items ++ e :: es) [] tx s tx' (.split a e.1 b) s' ([a] ++ [b]) := by
  obtain ⟨hva, hv⟩ := forall₂_cons.mp h.views
  obtain ⟨hvb, -⟩ := forall₂_cons.mp hv
  obtain ⟨-, htail, hcross⟩ := sorted_append.mp hs
  have he : Within lo hi e.1 := hr e (by simp)
  have hab := h.nodup
  refine ⟨⟨_, h, by simp [leafOf]⟩, .cons ?_ he (.last ?_), ?_, by simpa using hab,
    by simp [Branch.addrs]⟩
  · refine .leafOf hva hwf le_rfl (fun x hx => ⟨?_, ?_⟩) fun _ => hmin
    · exact (hr x (mem_append_left _ hx)).1
    · rintro u ⟨⟩
      exact hcross x hx e mem_cons_self
  · refine .leafOf hvb hwf' le_rfl (fun x hx => ⟨?_, ?_⟩) fun _ => hmin'
    · rintro u ⟨⟩
      rcases mem_cons.mp hx with rfl | hx
      · exact le_refl _
      · exact le_of_lt ((sorted_cons.mp htail).1 x hx)
    · exact (hr x (mem_append_right _ hx)).2
  · intro k hk
    rw [mem_singleton.mp hk]
    exact hwf'.keys _ (by simp [leafOf])

section Items

variable {items : List (Key × Value)} (hc : Coherent Exact s)
  (hfit : tx.Fits s.volume.superblock) (hgen : tx.generation < 2 ^ 64) (hs : Sorted items)
  (hvalid : ∀ e ∈ items, e.1.Valid ∧ e.2.Valid) (hr : ∀ e ∈ items, Within lo hi e.1)
include hc hfit hgen hs hvalid hr

theorem leaf_whole (hpos : 0 < items.length) (hle : items.length ≤ 12)
    (hmin : tail = false → min ≤ items.length) :
    Returns (do
      gate
      let x ← writeNew tx (leafOf tx.generation items)
      pure (x.1, Branch.one x.2)) s fun r s' =>
    ∃ bs', Replaced min 0 tail lo hi items [] tx s r.1 r.2 s' bs' := by
  have hwf := wf_leafOf hgen hpos hle hs hvalid
  exact place_whole hc hfit hwf fun a s2 h2 => ⟨[a], leaf_one hwf hr hmin h2⟩

theorem leaf_halves (hmin : min ≤ 6) (hlen : items.length = 13) {M : TreeTransaction → Node}
    (hM : ∀ a, M (tx.taken a) = leafOf tx.generation (items.drop 6)) :
    Returns (do
      gate
      gate
      gate
      let x ← writeNew tx (leafOf tx.generation (items.take 6))
      let y ← writeNew x.1 (M x.1)
      pure (y.1, Branch.split x.2 ((leafOf tx.generation (items.drop 6)).key 0) y.2)) s
    fun r s' => ∃ bs', Replaced min 0 tail lo hi items [] tx s r.1 r.2 s' bs' := by
  have hl1 : (items.take 6).length = 6 := by
    rw [length_take]
    omega
  have hl2 : (items.drop 6).length = 7 := by
    rw [length_drop]
    omega
  have hsplit := take_append_drop 6 items
  rw [← hsplit] at hs hvalid hr
  obtain ⟨hs1, hs2, -⟩ := sorted_append.mp hs
  have hwf1 : (leafOf tx.generation (items.take 6)).WF := wf_leafOf hgen (by omega) (by omega)
    hs1 fun x hx => hvalid x (mem_append_left _ hx)
  have hwf2 : (leafOf tx.generation (items.drop 6)).WF := wf_leafOf hgen (by omega) (by omega)
    hs2 fun x hx => hvalid x (mem_append_right _ hx)
  refine place_halves hc hfit hwf1 hwf2 hM fun a b s' h => ⟨[a] ++ [b], ?_⟩
  generalize items.take 6 = left, items.drop 6 = right at *
  rw [← hsplit]
  cases right with
  | nil => cases hl2
  | cons e es => exact leaf_two hs hwf1 hwf2 hr (hl1 ▸ hmin) (hl2 ▸ Nat.le_succ_of_le hmin) h

end Items

theorem insertLeaf_spec (hc : Coherent Exact s) (hfit : tx.Fits s.volume.superblock)
    (hgen : tx.generation < 2 ^ 64) (hmin : min ≤ 6) (hleaf : leaf.WF)
    (h0 : leaf.level = 0) (hkey : key.Valid) (hvalue : value.Valid)
    (hin : Within lo hi key) (hr : ∀ k ∈ leaf.keys, Within lo hi k)
    (hfill : tail = false → min ≤ leaf.len) :
    Returns (insertLeaf tx leaf key value) s fun r s' =>
      ∃ bs', Replaced min 0 tail lo hi (upsert key value leaf.entries) [] tx s r.1 r.2 s' bs' := by
  obtain ⟨items, hitems⟩ : ∃ items, items = upsert key value leaf.entries := ⟨_, rfl⟩
  have hsorted : Sorted items := hitems ▸ sorted_upsert hleaf.entries_sorted
  have hvalid : ∀ e ∈ items, e.1.Valid ∧ e.2.Valid := by
    intro e he
    rw [hitems] at he
    rcases mem_upsert.mp he with rfl | ⟨he, _⟩
    · exact ⟨hkey, hvalue⟩
    · exact hleaf.entries_valid h0 e he
  have hrange : ∀ e ∈ items, Within lo hi e.1 := by
    intro e he
    rw [hitems] at he
    rcases mem_upsert.mp he with rfl | ⟨he, _⟩
    · exact hin
    · refine hr e.1 ?_
      rw [← Node.map_fst_entries]
      exact mem_map_of_mem he
  have hpos : 0 < leaf.len := hleaf.len_pos
  have hle : leaf.len ≤ 12 := hleaf.len_le
  rw [← hitems]
  unfold insertLeaf
  simp only
  split
  case isTrue hit =>
    obtain ⟨hnode, hlen⟩ := leaf_hit hleaf h0 tx.generation hit value
    rw [← hitems] at hnode hlen
    rw [hnode]
    refine leaf_whole hc hfit hgen hsorted hvalid hrange (by omega) (by omega) fun ht => ?_
    rw [hlen]
    exact hfill ht
  case isFalse miss =>
    obtain ⟨hlen, hwin⟩ := leaf_miss hleaf key value miss tx
    rw [← hitems] at hlen hwin
    split
    case isTrue hcap =>
      simp only [CAPACITY] at hcap
      have hnode := hwin 0 _ (Nat.zero_le _) le_rfl
      rw [drop_zero, ← hlen, Nat.sub_zero, take_length, hlen] at hnode
      rw [hnode]
      refine leaf_whole hc hfit hgen hsorted hvalid hrange (by omega) (by omega) fun ht => ?_
      have := hfill ht
      omega
    case isFalse hcap =>
      simp only [CAPACITY] at hcap
      have hfull : leaf.len = 12 := by omega
      rw [hfull] at hlen hwin ⊢
      have hleft : fillLeaf tx (splicedItem leaf (leaf.lower key) key value)
          0 6 = leafOf tx.generation (items.take 6) := hwin 0 6 (by decide) (by decide)
      have hright : fillLeaf tx (splicedItem leaf (leaf.lower key) key value)
          6 13 = leafOf tx.generation (items.drop 6) := by
        rw [hwin 6 13 (by decide) (by decide), take_of_length_le]
        rw [length_drop]
        omega
      show Returns (do
        gate
        gate
        gate
        let x ← writeNew tx (fillLeaf tx _ 0 6)
        let y ← writeNew x.1 (fillLeaf x.1 _ 6 13)
        pure (y.1, Branch.split x.2 ((fillLeaf tx _ 6 13).key 0) y.2)) s _
      rw [hleft, hright]
      exact leaf_halves hc hfit hgen hsorted hvalid hrange hmin hlen
        (M := fun tx => fillLeaf tx _ 6 13) fun _ => hright

end Leaves

-- == the inner nodes

section Inner

variable {tx : TreeTransaction} {s : Store} {min l : Nat} {tail : Bool}
  {lo hi : Option Key} {es : List (Key × Value)} {bs : List Nat}

theorem Chain.view_ne_none {V : Nat → Option Node} {g : Nat} {ks : List Key}
    {cs : List Nat} (h : Chain (Sub V g min l) tail lo hi ks cs es bs) :
    ∀ c ∈ bs, V c ≠ none := by
  intro c hc
  obtain ⟨_, _, _, _, _, _, hs, -, hc, -⟩ := h.member hc
  exact hs.view_ne_none c hc

theorem Chain.wf_innerOf {ks : List Key} {cs : List Nat} {g : Nat}
    (hs : s.volume.Sound) (h : Chain (Sub s.view g min l) tail lo hi ks cs es bs)
    (hl : l + 1 < 8) {g' : Nat} (hg : g' < 2 ^ 64) (hpos : 0 < ks.length)
    (hle : ks.length ≤ 12) (hk : ∀ k ∈ ks, k.Valid) :
    (innerOf (l + 1) g' ks cs).WF := by
  have hgood := Sub.good s.view g min l
  refine Molt.Fs.wf_innerOf (Nat.succ_ne_zero l) hl hg hpos hle hk
    (h.keys_sorted hgood) h.length fun c hc => ?_
  obtain ⟨n, hn⟩ := Option.ne_none_iff_exists'.mp (h.view_ne_none c (h.children hgood c hc))
  have harena := Volume.view_inArena (show s.volume.view c = some n from hn)
  have h1 := harena.1
  have h2 := harena.2
  have h3 := hs.geometry.treeAt_ge
  have h4 := hs.geometry.arena_u64
  omega

variable {tx' : TreeTransaction}

theorem Placed.chain {s' : Store} {as : List Nat}
    {ns : List Node} {ks : List Key} {cs : List Nat} {g : Nat}
    (h : Placed tx s as ns tx' s') (hused : ∀ c ∈ bs, tx.Used c)
    (hch : Chain (Sub s.view g min l) tail lo hi ks cs es bs) :
    Chain (Sub s'.view g min l) tail lo hi ks cs es bs :=
  hch.imp fun _ _ _ _ _ _ hsub hs => hs.congr
    (fun c hc => h.other c fun hmem => h.free c hmem (hused c (hsub c hc)))
    le_rfl

theorem Placed.not_mem {s' : Store} {as : List Nat}
    {ns : List Node} (h : Placed tx s as ns tx' s') (hused : ∀ c ∈ bs, tx.Used c)
    {a : Nat} (ha : a ∈ as) : a ∉ bs := fun hmem => h.free a ha (hused a hmem)

theorem inner_replaced_one {s' : Store} {a : Nat}
    {ks : List Key} {cs : List Nat} (hused : ∀ c ∈ bs, tx.Used c) (hnodup : bs.Nodup)
    (hch : Chain (Sub s.view tx.generation min l) tail lo hi ks cs es bs)
    (hwf : (innerOf (l + 1) tx.generation ks cs).WF)
    (hmin : tail = false → min ≤ ks.length)
    (h : Placed tx s [a] [innerOf (l + 1) tx.generation ks cs] tx' s') :
    Replaced min (l + 1) tail lo hi es bs tx s tx' (.one a) s' (a :: bs) := by
  obtain ⟨hv, -⟩ := forall₂_cons.mp h.views
  refine ⟨⟨_, h, by simp [innerOf]⟩, .last ⟨_, bs, ⟨hv, hwf, rfl, le_rfl, hmin⟩,
    h.chain hused hch, rfl⟩, by simp [Branch.keys], ?_, by simp [Branch.addrs]⟩
  exact nodup_cons.mpr ⟨h.not_mem hused mem_cons_self, hnodup⟩

/-- Two new inner nodes over the halves of a chain, the separator between
the halves going up. -/
theorem inner_replaced_two {s' : Store} {a b : Nat}
    {ks₁ ks₂ : List Key} {sep : Key} {cs₁ cs₂ : List Nat} {es₁ es₂ : List (Key × Value)}
    {bs₁ bs₂ : List Nat} (hused : ∀ c ∈ bs₁ ++ bs₂, tx.Used c)
    (hnodup : (bs₁ ++ bs₂).Nodup)
    (hl : Chain (Sub s.view tx.generation min l) false lo (some sep) ks₁ cs₁ es₁ bs₁)
    (hsep : Within lo hi sep) (hv : sep.Valid)
    (hr : Chain (Sub s.view tx.generation min l) tail (some sep) hi ks₂ cs₂ es₂ bs₂)
    (hwf : (innerOf (l + 1) tx.generation ks₁ cs₁).WF)
    (hwf' : (innerOf (l + 1) tx.generation ks₂ cs₂).WF)
    (hmin : min ≤ ks₁.length) (hmin' : min ≤ ks₂.length)
    (h : Placed tx s [a, b] [innerOf (l + 1) tx.generation ks₁ cs₁,
      innerOf (l + 1) tx.generation ks₂ cs₂] tx' s') :
    Replaced min (l + 1) tail lo hi (es₁ ++ es₂) (bs₁ ++ bs₂) tx s tx'
      (.split a sep b) s' (a :: bs₁ ++ b :: bs₂) := by
  obtain ⟨hva, hvs⟩ := forall₂_cons.mp h.views
  obtain ⟨hvb, -⟩ := forall₂_cons.mp hvs
  have hu1 : ∀ c ∈ bs₁, tx.Used c := fun c hc => hused c (mem_append_left _ hc)
  have hu2 : ∀ c ∈ bs₂, tx.Used c := fun c hc => hused c (mem_append_right _ hc)
  refine ⟨⟨_, h, by simp [innerOf]⟩, .cons ?_ hsep (.last ?_), by simpa [Branch.keys], ?_, ?_⟩
  · exact ⟨_, bs₁, ⟨hva, hwf, rfl, le_rfl, fun _ => hmin⟩, h.chain hu1 hl, rfl⟩
  · exact ⟨_, bs₂, ⟨hvb, hwf', rfl, le_rfl, fun _ => hmin'⟩, h.chain hu2 hr, rfl⟩
  · have hab : a ≠ b := by simpa using h.nodup
    have ha := h.not_mem (a := a) hused (by simp)
    have hb := h.not_mem (a := b) hused (by simp)
    rw [mem_append, not_or] at ha hb
    rw [nodup_append] at hnodup ⊢
    obtain ⟨h1, h2, h12⟩ := hnodup
    refine ⟨nodup_cons.mpr ⟨ha.1, h1⟩, nodup_cons.mpr ⟨hb.2, h2⟩, ?_⟩
    intro x hx y hy
    rcases mem_cons.mp hx with rfl | hx <;> rcases mem_cons.mp hy with rfl | hy
    · exact hab
    · exact fun he => ha.2 (he ▸ hy)
    · exact fun he => hb.1 (he ▸ hx)
    · exact h12 x hx y hy
  · intro c
    simp only [Branch.addrs, mem_append, mem_cons, not_mem_nil, or_false]
    tauto

section Chains

variable {ks : List Key} {cs : List Nat} (hs : s.volume.Sound) (hc : Coherent Exact s)
  (hfit : tx.Fits s.volume.superblock) (hgen : tx.generation < 2 ^ 64) (hl : l + 1 < 8)
  (hused : ∀ x ∈ bs, tx.Used x) (hnodup : bs.Nodup) (hvalid : ∀ k ∈ ks, k.Valid)
  (hch : Chain (Sub s.view tx.generation min l) tail lo hi ks cs es bs)
include hs hc hfit hgen hl hused hnodup hvalid hch

theorem inner_whole (hpos : 0 < ks.length) (hle : ks.length ≤ 12)
    (hmin : tail = false → min ≤ ks.length) :
    Returns (do
      gate
      let x ← writeNew tx (innerOf (l + 1) tx.generation ks cs)
      pure (x.1, Branch.one x.2)) s fun r s' =>
    ∃ bs', Replaced min (l + 1) tail lo hi es bs tx s r.1 r.2 s' bs' := by
  have hwf := hch.wf_innerOf hs hl hgen hpos hle hvalid
  exact place_whole hc hfit hwf fun a s2 h2 =>
    ⟨a :: bs, inner_replaced_one hused hnodup hch hwf hmin h2⟩

theorem inner_halves (hmin : min ≤ 6) (hlen : ks.length = 13) {k : Key}
    (hk : ks.drop 6 = k :: ks.drop 7) {M : TreeTransaction → Node}
    (hM : ∀ a, M (tx.taken a) = innerOf (l + 1) tx.generation (ks.drop 7) (cs.drop 7)) :
    Returns (do
      gate
      gate
      gate
      let x ← writeNew tx (innerOf (l + 1) tx.generation (ks.take 6) (cs.take 7))
      let y ← writeNew x.1 (M x.1)
      pure (y.1, Branch.split x.2 k y.2)) s
    fun r s' => ∃ bs', Replaced min (l + 1) tail lo hi es bs tx s r.1 r.2 s' bs' := by
  have hlen1 : (ks.take 6).length = 6 := by
    rw [length_take]
    omega
  have hlen2 : (ks.drop 7).length = 6 := by
    rw [length_drop]
    omega
  have hsplit : ks = ks.take 6 ++ k :: ks.drop 7 := by
    rw [← hk, take_append_drop]
  rw [hsplit] at hch hvalid
  obtain ⟨cs1, cs2, es1, es2, bs1, bs2, rfl, rfl, rfl, hl1, hsep, hr2⟩ :=
    hch.cut (Sub.good s.view tx.generation min l)
  have hseven : cs1.length = 7 := by rw [hl1.length, hlen1]
  have htake : (cs1 ++ cs2).take 7 = cs1 := by rw [← hseven, take_left]
  have hdrop : (cs1 ++ cs2).drop 7 = cs2 := by rw [← hseven, drop_left]
  rw [htake]
  rw [hdrop] at hM
  have hwf1 := hl1.wf_innerOf hs hl hgen (by omega) (by omega)
    fun x hx => hvalid x (mem_append_left _ hx)
  have hwf2 := hr2.wf_innerOf hs hl hgen (by omega) (by omega)
    fun x hx => hvalid x (mem_append_right _ (mem_cons_of_mem _ hx))
  refine place_halves hc hfit hwf1 hwf2 hM fun a b s' h => ?_
  exact ⟨_, inner_replaced_two hused hnodup hl1 hsep (hvalid k (by simp)) hr2 hwf1 hwf2
    (by omega) (by omega) h⟩

end Chains

theorem rewriteParent_spec {parent : Node} {br : Branch} {ka kb : List Key}
    {ca cb : List Nat} {c : Nat} (hs : s.volume.Sound) (hc : Coherent Exact s)
    (hfit : tx.Fits s.volume.superblock) (hgen : tx.generation < 2 ^ 64)
    (hmin : min ≤ 6) (hp : parent.WF) (hlevel : parent.level = l + 1) (hl : l + 1 < 8)
    (hks : parent.keys = ka ++ kb) (hcs : parent.children = ca ++ c :: cb)
    (hlen : ca.length = ka.length) (hfill : tail = false → min ≤ parent.len)
    (hused : ∀ x ∈ bs, tx.Used x) (hnodup : bs.Nodup) (hkeys : ∀ k ∈ br.keys, k.Valid)
    (hch : Chain (Sub s.view tx.generation min l) tail lo hi
      (ka ++ br.keys ++ kb) (ca ++ br.addrs ++ cb) es bs) :
    Returns (rewriteParent tx parent ka.length br) s fun r s' =>
      ∃ bs', Replaced min (l + 1) tail lo hi es bs tx s r.1 r.2 s' bs' := by
  have hne : parent.level ≠ 0 := by omega
  have hpos : 0 < parent.len := hp.len_pos
  have hle : parent.len ≤ 12 := hp.len_le
  have hlenk : parent.len = ka.length + kb.length := by
    rw [Node.len, hks, length_append]
  have hvalid : ∀ k ∈ ka ++ br.keys ++ kb, k.Valid := by
    intro k hk
    have hpk := hp.keys k
    rw [hks] at hpk
    simp only [mem_append] at hk hpk
    rcases hk with (hk | hk) | hk
    · exact hpk (Or.inl hk)
    · exact hkeys k hk
    · exact hpk (Or.inr hk)
  cases br with
  | one addr =>
    simp only [Branch.keys, Branch.addrs, append_nil, append_assoc, singleton_append] at hch hvalid
    have hone := inner_one hp hne tx.generation hcs addr
    rw [hlen] at hone
    rw [← hks] at hch hvalid
    unfold rewriteParent
    simp only
    rw [hone, hlevel]
    exact inner_whole hs hc hfit hgen hl hused hnodup hvalid hch hpos hle hfill
  | split left sep right =>
    simp only [Branch.keys, Branch.addrs, append_assoc, cons_append, nil_append] at hch hvalid
    have hlenc : cb.length = kb.length := by
      have := (hp.inner hne).1
      rw [hcs, hks] at this
      simp only [length_append, length_cons] at this
      omega
    have hwin := inner_split hks hcs hlen hlenc left sep right tx
    have hmid (hi : 6 < (ka ++ sep :: kb).length) := splicedKey_eq hks 6 hi
    have hK : (ka ++ sep :: kb).length = parent.len + 1 := by
      simp only [length_append, length_cons]
      omega
    have hC : (ca ++ left :: right :: cb).length = parent.len + 2 := by
      simp only [length_append, length_cons]
      omega
    generalize ka ++ sep :: kb = K at *
    generalize ca ++ left :: right :: cb = C at *
    unfold rewriteParent
    simp only
    split
    case isTrue hcap =>
      simp only [CAPACITY] at hcap
      have hnode := hwin 0 _ (Nat.zero_le _) le_rfl
      rw [hlevel, drop_zero, drop_zero, take_of_length_le (by omega),
        take_of_length_le (by omega)] at hnode
      rw [hlevel, hnode]
      refine inner_whole hs hc hfit hgen hl hused hnodup hvalid hch (by omega) (by omega)
        fun ht => ?_
      have := hfill ht
      omega
    case isFalse hcap =>
      simp only [CAPACITY] at hcap
      have hfull : parent.len = 12 := by omega
      rw [hfull] at hwin hK hC ⊢
      have hleft := hwin 0 6 (by decide) (by decide)
      have hright := hwin 7 13 (by decide) (by decide)
      rw [hlevel, take_of_length_le (by rw [length_drop]; omega),
        take_of_length_le (by rw [length_drop]; omega)] at hright
      show Returns (do
        gate
        gate
        gate
        let x ← writeNew tx (fillInner tx _ _ _ 0 6)
        let y ← writeNew x.1 (fillInner x.1 _ _ _ 7 13)
        pure (y.1, Branch.split x.2 (splicedKey parent ka.length sep 6) y.2)) s _
      rw [hleft, hmid (by omega), hlevel]
      exact inner_halves hs hc hfit hgen hl hused hnodup hvalid hch hmin hK
        (drop_eq_getElem_cons (by omega))
        (M := fun tx => fillInner tx _ _ _ 7 13) fun _ => hright

end Inner

-- == the path

/-- The blocks from `b` down to the leaf `key` belongs in. -/
def spine (V : Nat → Option Node) (key : Key) : Nat → Nat → List Nat
  | 0, b => [b]
  | l + 1, b => b :: match V b with
      | some n => spine V key l (n.child (n.upper key))
      | none => []

/-- The sectors a rewrite of the blocks `ps` may write: those of blocks
that were free or are in `ps`, and that no checkpoint holds. -/
def TreeTransaction.Within (tx : TreeTransaction) (sb : Super) (ps : List Nat) (x : Nat) : Prop :=
  tx.MayWrite sb x ∧ (x / 8 ∈ ps ∨ ¬ tx.Used (x / 8))

/-- The account of a rewrite: the blocks `ps` gave way to `ns`. -/
structure Moved (tx : TreeTransaction) (s : Store) (ps : List Nat)
    (tx' : TreeTransaction) (s' : Store) (ns : List Nat) : Prop where
  same : tx' = { tx with root := tx'.root, used := tx'.used }
  fits : tx'.Fits s'.volume.superblock
  used : ∀ c, tx'.Used c ↔ c ∈ ns ∨ (tx.Used c ∧ (c ∉ ps ∨ tx.Guarded c))
  fresh : ∀ c ∈ ns, c ∈ ps ∨ ¬ tx.Used c
  evolves : Evolves Exact (tx.Within s.volume.superblock ps) s s'

section Account

variable {tx tx' tx₁ tx₂ : TreeTransaction} {s s' s₁ s₂ s₃ : Store} {ps ns : List Nat}

theorem Moved.refl (hfit : tx.Fits s.volume.superblock) (hc : Coherent Exact s) :
    Moved tx s [] tx s [] :=
  ⟨rfl, hfit, by simp, by simp, .refl hc⟩

section

variable (h : Moved tx s ps tx' s' ns)
include h

theorem Moved.generation : tx'.generation = tx.generation := by
  rw [h.same]

theorem Moved.guarded (c : Nat) : tx'.Guarded c ↔ tx.Guarded c := by
  rw [h.same]
  exact Iff.rfl

theorem Moved.kept {c : Nat} (hc : (tx.Used c ∧ c ∉ ps) ∨ tx.Guarded c) : tx'.Used c := by
  rcases hc with ⟨hu, hn⟩ | hg
  · exact (h.used c).mpr (Or.inr ⟨hu, Or.inl hn⟩)
  · exact h.fits.guarded_used c ((h.guarded c).mpr hg)

/-- A used block off the path, or a guarded one, holds what it did. -/
theorem Moved.frame {c : Nat}
    (hc : (tx.Used c ∧ c ∉ ps) ∨ tx.Guarded c) : s'.view c = s.view c := by
  refine h.evolves.view fun i hi hw => ?_
  have hdiv : (c * 8 + i) / 8 = c := by omega
  obtain ⟨⟨-, hg⟩, hor⟩ := hw
  rw [hdiv] at hg hor
  tauto

end

theorem Moved.before (h1 : Still Exact s s1) (h : Moved tx s1 ps tx' s' ns) :
    Moved tx s ps tx' s' ns := by
  refine { h with evolves := ?_ }
  have := h.evolves
  rw [h1.volume] at this
  exact h1.evolves.trans this

theorem Moved.after (h : Moved tx s ps tx' s1 ns) (h1 : Still Exact s1 s') :
    Moved tx s ps tx' s' ns := by
  refine ⟨h.same, ?_, h.used, h.fresh, h.evolves.trans h1.evolves⟩
  rw [h1.volume]
  exact h.fits

theorem Moved.place {as : List Nat} {nodes : List Node} (h : Moved tx s ps tx1 s1 ns)
    (hp : Placed tx1 s1 as nodes tx2 s2) : Moved tx s ps tx2 s2 (as ++ ns) := by
  have hfree : ∀ c ∈ as, ¬ ((tx.Used c ∧ c ∉ ps) ∨ tx.Guarded c) :=
    fun c ha hc => hp.free c ha (h.kept hc)
  refine ⟨?_, hp.fits, fun c => ?_, fun c hc => ?_, ?_⟩
  · have h1 := h.same
    have h2 := hp.same
    rw [h2, h1]
  · rw [hp.used, h.used, mem_append, or_assoc]
  · rcases mem_append.mp hc with ha | hc
    · have := hfree c ha
      tauto
    · exact h.fresh c hc
  · refine h.evolves.trans (hp.evolves.mono fun x hx => ?_)
    have ha := hp.arena _ hx
    rw [h.evolves.superblock] at ha
    have := hfree _ hx
    exact ⟨⟨ha, by tauto⟩, by tauto⟩

theorem Moved.release {b : Nat} (h : Moved tx s ps tx1 s1 ns) (hb : b ∉ ps)
    (hu : tx.Used b) (h2 : Still Exact s1 s2) :
    Moved tx s (b :: ps) (tx1.released b) s2 ns := by
  have hbn : b ∉ ns := fun hmem => by
    have := h.fresh b hmem
    tauto
  refine ⟨?_, ?_, fun c => ?_, fun c hc => ?_, ?_⟩
  · have h1 := h.same
    unfold TreeTransaction.released
    split <;> rw [h1]
  · rw [h2.volume]
    exact h.fits.released
  · rw [TreeTransaction.used_released, h.used, h.guarded, mem_cons]
    by_cases hcb : c = b
    · subst hcb
      tauto
    · tauto
  · have := h.fresh c hc
    rw [mem_cons]
    tauto
  · refine (h.evolves.trans h2.evolves).mono fun x hx => ⟨hx.1, ?_⟩
    have := hx.2
    rw [mem_cons]
    tauto

theorem Moved.setRoot (h : Moved tx s ps tx' s' ns) (root : Nat) :
    Moved tx s ps { tx' with root := root } s' ns := by
  refine ⟨?_, { h.fits with }, h.used, h.fresh, h.evolves⟩
  have h1 := h.same
  rw [h1]

theorem Placed.stamp {as : List Nat} {nodes : List Node}
    (h : Placed tx s as nodes tx1 s1) {g : Nat} (hg : ∀ n ∈ nodes, n.generation = g) :
    ∀ a ∈ as, ∃ n, s1.view a = some n ∧ n.generation = g := by
  have hv := h.views
  clear h
  induction hv with
  | nil => simp
  | cons hn _ ih =>
    intro a ha
    rcases mem_cons.mp ha with rfl | ha
    · exact ⟨_, hn, hg _ mem_cons_self⟩
    · exact ih (fun n hn => hg n (mem_cons_of_mem _ hn)) a ha

end Account

/-- A subtree of level `l` rewritten so that it holds `es`: of its blocks
`bs` the path `ps` gave way to `ns`, which leaves `bs'`. -/
structure Grew (min l : Nat) (tail : Bool) (lo hi : Option Key)
    (es : List (Key × Value)) (ps bs : List Nat) (tx : TreeTransaction) (s : Store)
    (tx' : TreeTransaction) (br : Branch) (s' : Store) (ns bs' : List Nat) : Prop where
  moved : Moved tx s ps tx' s' ns
  blocks : ∀ c, c ∈ bs' ↔ c ∈ ns ∨ (c ∈ bs ∧ c ∉ ps)
  nodup : bs'.Nodup
  chain : Chain (Sub s'.view tx.generation min l) tail lo hi br.keys br.addrs es bs'
  keys : ∀ k ∈ br.keys, k.Valid
  stamp : ∀ a ∈ br.addrs, ∃ n, s'.view a = some n ∧ n.generation = tx.generation

section Path

variable {tx tx₁ tx₂ : TreeTransaction} {s s₁ s₂ s₃ : Store} {min l : Nat} {tail : Bool}
  {lo hi : Option Key} {es : List (Key × Value)} {bs : List Nat}

theorem Sub.spine_subset {V : Nat → Option Node} {g b : Nat} (key : Key)
    (h : Sub V g min l tail b lo hi es bs) : ∀ c ∈ spine V key l b, c ∈ bs := by
  induction l generalizing tail b lo hi es bs with
  | zero =>
    obtain ⟨n, hn, hk, rfl, rfl⟩ := h
    exact fun c hc => hc
  | succ l ih =>
    obtain ⟨n, bs', hn, hch, rfl⟩ := h
    have hgood := Sub.good V g min l
    obtain ⟨ka, kb, hkeys, hka, hkb⟩ := Node.split_upper hn.wf.sorted key
    have hup : n.upper key = ka.length := Node.upper_eq hkeys hka hkb
    rw [hkeys] at hch
    obtain ⟨ca, c, cb, t, lo', hi', es1, ec, es2, bs1, bc, bs2, hcs, hlen, rfl, rfl, hsub,
      -⟩ := hch.focus hgood
    intro x hx
    simp only [spine, hn.view, hup, Node.child_of_append hcs hlen.symm, mem_cons] at hx
    rcases hx with rfl | hx
    · exact mem_cons_self
    · have := ih hsub x hx
      simp [this]

/-- One level up: a child's rewrite, the new nodes over it, and the return
of the old node's block. -/
theorem Grew.up {b : Nat} {ps ns bs0 bs1 bs' : List Nat} {br : Branch}
    (hm : Moved tx s ps tx1 s1 ns) (hb : tx.Used b) (hps : b ∉ ps) (hb0 : b ∉ bs0)
    (hbs : ∀ c, c ∈ bs1 ↔ c ∈ ns ∨ (c ∈ bs0 ∧ c ∉ ps))
    (hrep : Replaced min l tail lo hi es bs1 tx1 s1 tx2 br s2 bs')
    (h3 : Still Exact s2 s3) :
    Grew min l tail lo hi es (b :: ps) (b :: bs0) tx s (tx2.released b) br s3
      (br.addrs ++ ns) bs' := by
  obtain ⟨nodes, hp, hstamp⟩ := hrep.placed
  have hchain := hrep.chain
  rw [hm.generation] at hstamp hchain
  refine ⟨(hm.place hp).release hps hb h3, fun c => ?_, hrep.nodup, ?_, hrep.keys, ?_⟩
  · rw [hrep.blocks, hbs, mem_append, mem_cons, mem_cons]
    by_cases hcb : c = b
    · subst hcb
      tauto
    · tauto
  · rw [h3.view]
    exact hchain
  · rw [h3.view]
    exact hp.stamp hstamp

theorem Grew.siblings {br : Branch} {ps bs1 bc bs2 ns bc' : List Nat}
    (h : Grew min l tail lo hi es ps bc tx s tx1 br s1 ns bc')
    (hps : ∀ c ∈ ps, c ∈ bc) (hnodup : (bs1 ++ bc ++ bs2).Nodup)
    (hused : ∀ c ∈ bs1 ++ bc ++ bs2, tx.Used c) :
    (bs1 ++ bc' ++ bs2).Nodup ∧ (∀ c ∈ bs1 ++ bc' ++ bs2, tx1.Used c)
      ∧ ∀ c, c ∈ bs1 ++ bc' ++ bs2 ↔ c ∈ ns ∨ (c ∈ bs1 ++ bc ++ bs2 ∧ c ∉ ps) := by
  simp only [mem_append] at *
  obtain ⟨hn, hny, hxy⟩ := nodup_append.mp hnodup
  obtain ⟨hnx, -, hxc⟩ := nodup_append.mp hn
  have hdisj : ∀ c, c ∈ bs1 ∨ c ∈ bs2 → c ∉ bc := by
    rintro c (hc | hc) hcc
    · exact hxc c hc c hcc rfl
    · exact hxy c (mem_append_right _ hcc) c hc rfl
  have hns : ∀ c ∈ ns, c ∉ bs1 ∧ c ∉ bs2 := by
    intro c hc
    have h1 := h.moved.fresh c hc
    have h2 := hdisj c
    have h3 := hused c
    have h4 := hps c
    tauto
  have hdisj' : ∀ c ∈ bc', c ∉ bs1 ∧ c ∉ bs2 := by
    intro c hc
    have h1 := hns c
    have h2 := hdisj c
    rw [h.blocks] at hc
    tauto
  refine ⟨?_, fun c hc => ?_, fun c => ?_⟩
  · rw [nodup_append, nodup_append]
    refine ⟨⟨hnx, h.nodup, ?_⟩, hny, ?_⟩
    · rintro c hx d hc rfl
      exact (hdisj' c hc).1 hx
    · rintro c hc d hy rfl
      rcases mem_append.mp hc with hx | hc
      · exact hxy c (mem_append_left _ hx) c hy rfl
      · exact (hdisj' c hc).2 hy
  · rw [h.blocks] at hc
    by_cases hcn : c ∈ ns
    · exact (h.moved.used c).mpr (Or.inl hcn)
    · have h1 := hdisj c
      have h2 := hps c
      exact h.moved.kept (Or.inl ⟨hused c (by tauto), by tauto⟩)
  · rw [h.blocks]
    have h1 := hdisj c
    have h2 := hps c
    tauto

/-- The descent from a subtree's root, with whatever the way up from it
does. -/
theorem insertDown {key : Key} {value : Value} (hgen : tx.generation < 2 ^ 64)
    (hmin : min ≤ 6) (hkey : key.Valid) (hvalue : value.Valid)
    {Q : TreeTransaction × Branch → Store → Prop} (hs : s.volume.Sound)
    (hc : Coherent Exact s) (hfit : tx.Fits s.volume.superblock) {b room : Nat}
    (hl : l < 8) (hroom : l ≤ room)
    (hsub : Sub s.view tx.generation min l tail b lo hi es bs) (hnodup : bs.Nodup)
    (hused : ∀ c ∈ bs, tx.Used c) (hin : Within lo hi key) {path : List (Nat × Nat)}
    (hk : ∀ tx' br s' ns bs', Grew min l tail lo hi (upsert key value es)
      (spine s.view key l b) bs tx s tx' br s' ns bs' →
      Returns (insertClimb tx' path br) s' Q) :
    Returns (insertDescend key room path b >>= insertUp tx key value) s Q := by
  induction l generalizing s tail b room lo hi es bs path with
  | zero =>
    obtain ⟨n, hn, hr, rfl, rfl⟩ := hsub
    have hleaf : ∀ s1, Still Exact s s1 → Returns (insertUp tx key value (path, b, n)) s1 Q := by
      intro s1 h1
      unfold insertUp
      rw [Returns, wp_bind]
      refine (insertLeaf_spec h1.cache (by rw [h1.volume]; exact hfit) hgen hmin hn.wf
        hn.level hkey hvalue hin hr hn.fill).returns ?_
      rintro ⟨tx2, br⟩ s2 ⟨bs', hrep⟩
      obtain ⟨nodes, hp, _⟩ := hrep.placed
      have hs2 : s2.volume.Sound := hp.evolves.sound (h1.sound hs)
      show Returns (release tx2 b >>= fun tx => insertClimb tx path br) s2 Q
      rw [Returns, wp_bind]
      refine (release_spec hs2 hp.evolves.cache hp.fits b).returns ?_
      rintro _ s3 ⟨rfl, h3⟩
      exact hk _ br s3 _ bs' (Grew.up ((Moved.refl hfit hc).after h1)
        (hused b mem_cons_self) (by simp) (by simp) (by simp) hrep h3)
    cases room <;>
      (rw [Returns, wp_bind, insertDescend, wp_bind]
       refine (read_exact hs hc hn.view).returns ?_
       rintro m s1 ⟨rfl, h1⟩
       rw [if_pos hn.level]
       exact hleaf s1 h1)
  | succ l ih =>
    obtain ⟨room, rfl⟩ : ∃ k, room = k + 1 := ⟨room - 1, by omega⟩
    obtain ⟨n, bs0, hn, hch, rfl⟩ := hsub
    have hgood := Sub.good s.view tx.generation min l
    obtain ⟨ka, kb, hkeys, hka, hkb⟩ := Node.split_upper hn.wf.sorted key
    have hup : n.upper key = ka.length := Node.upper_eq hkeys hka hkb
    have hch' := hch
    rw [hkeys] at hch'
    obtain ⟨ca, c, cb, t, lo', hi', es1, ec, es2, bs1, bc, bs2, hcs, hlen, rfl, rfl, hsubc,
      -, hleft, hright, hinc, hre⟩ := hch'.focus hgood
    have hspine : spine s.view key (l + 1) b = b :: spine s.view key l c := by
      simp only [spine, hn.view, hup, Node.child_of_append hcs hlen.symm]
    have hpsc := hsubc.spine_subset key
    rw [insertDescend, Returns, wp_bind, wp_bind]
    refine (read_exact hs hc hn.view).returns ?_
    rintro m s1 ⟨rfl, h1⟩
    have hlevel := hn.level
    rw [if_neg (by omega), hup, Node.child_of_append hcs hlen.symm, ← wp_bind]
    have hvn := hn.view
    rw [← h1.view] at hsubc hre hvn hpsc hspine
    obtain ⟨hbn, hrestn⟩ := nodup_cons.mp hnodup
    have hbc : bc.Nodup := (nodup_append.mp (nodup_append.mp hrestn).1).2.1
    have hused0 : ∀ x ∈ bs1 ++ bc ++ bs2, tx.Used x := fun x hx => hused x (mem_cons_of_mem _ hx)
    refine ih (h1.sound hs) h1.cache (by rw [h1.volume]; exact hfit) (by omega)
      (by omega) hsubc hbc (fun x hx => hused0 x (by simp [hx])) (hinc key hin hka hkb) ?_
    intro tx2 br s2 ns bc' hgrew
    have hm := hgrew.moved
    have hs2 : s2.volume.Sound := hm.evolves.sound (h1.sound hs)
    obtain ⟨hnodup2, hused2, hblocks2⟩ := hgrew.siblings hpsc hrestn hused0
    have hoff : ∀ x, x = b ∨ x ∈ bs1 ∨ x ∈ bs2 → x ∉ spine s1.view key l c := by
      rintro x hx hxs
      have hxc := hpsc x hxs
      rcases hx with rfl | hx | hx
      · exact hbn (by simp [hxc])
      · exact (nodup_append.mp (nodup_append.mp hrestn).1).2.2 x hx x hxc rfl
      · exact (nodup_append.mp hrestn).2.2 x (mem_append_right _ hxc) x hx rfl
    -- the parent's block and the siblings are where they were
    have hview2 : s2.view b = some m := by
      rw [hm.frame (Or.inl ⟨hused b mem_cons_self, hoff b (Or.inl rfl)⟩)]
      exact hvn
    have hchain := hre (Sub s2.view tx.generation min l)
      (fun _ _ _ _ _ _ hin' hsub' => hsub'.congr (fun x hx => hm.frame (Or.inl
        ⟨hused0 x (by have := hin' x hx; simp; tauto), hoff x (Or.inr (hin' x hx))⟩))
        le_rfl) hgrew.chain
    have hes : upsert key value (es1 ++ ec ++ es2) = es1 ++ upsert key value ec ++ es2 := by
      rw [upsert_append_left, upsert_append_right]
      · intro e he
        obtain ⟨k, hk, hlt⟩ := hleft e he
        exact lt_of_lt_of_le hlt (hka k hk)
      · intro e he
        obtain ⟨k, hk, hle⟩ := hright e he
        exact lt_of_lt_of_le (hkb k hk) hle
    rw [insertClimb, Returns, wp_bind]
    refine (read_exact hs2 hm.evolves.cache hview2).returns ?_
    rintro m s3 ⟨rfl, h3⟩
    rw [wp_bind]
    have hgen2 : tx2.generation = tx.generation := hm.generation
    refine (rewriteParent_spec (h3.sound hs2) h3.cache (by rw [h3.volume]; exact hm.fits)
      (by rw [hgen2]; exact hgen) hmin hn.wf hn.level hl hkeys hcs hlen hn.fill hused2
      hnodup2 hgrew.keys (by rw [h3.view, hgen2]; exact hchain)).returns ?_
    rintro ⟨tx4, br4⟩ s4 ⟨bs', hrep⟩
    obtain ⟨nodes, hp, _⟩ := hrep.placed
    have hs4 : s4.volume.Sound := hp.evolves.sound (h3.sound hs2)
    show Returns (release tx4 b >>= fun tx => insertClimb tx path br4) s4 Q
    rw [Returns, wp_bind]
    refine (release_spec hs4 hp.evolves.cache hp.fits b).returns ?_
    rintro _ s5 ⟨rfl, h5⟩
    rw [← hes] at hrep
    rw [← h1.view, hspine] at hk
    exact hk _ br4 s5 _ bs' (Grew.up ((hm.before h1).after h3)
      (hused b mem_cons_self) (hoff b (Or.inl rfl)) hbn hblocks2 hrep h5)

end Path

-- == the root

def Rooted (V : Nat → Option Node) (g min root : Nat) (es : List (Key × Value))
    (bs : List Nat) : Prop :=
  if root = 0 then es = [] ∧ bs = [] else ∃ l, Sub V g min l true root none none es bs

/-- The blocks an insert of `key` replaces: the path to its leaf. -/
def rootSpine (V : Nat → Option Node) (key : Key) (root : Nat) : List Nat :=
  match V root with
  | some n => if root = 0 then [] else spine V key n.level root
  | none => []

/-- A transaction's tree, rewritten so that it holds `es`: of its blocks
`bs` the path `ps` gave way to `ns`, which leaves `bs'`. -/
structure Inserted (min : Nat) (es : List (Key × Value)) (ps bs : List Nat)
    (tx : TreeTransaction) (s : Store) (tx' : TreeTransaction) (s' : Store)
    (ns bs' : List Nat) : Prop where
  moved : Moved tx s ps tx' s' ns
  blocks : ∀ c, c ∈ bs' ↔ c ∈ ns ∨ (c ∈ bs ∧ c ∉ ps)
  nodup : bs'.Nodup
  tree : Rooted s'.view tx.generation min tx'.root es bs'
  root : tx'.root ≠ 0
  stamp : ∃ n, s'.view tx'.root = some n ∧ n.generation = tx.generation

section Root

variable {tx : TreeTransaction} {s : Store} {min l : Nat} {es : List (Key × Value)}
  {bs : List Nat}

theorem Rooted.congr {V V' : Nat → Option Node} {g g' root : Nat}
    (h : Rooted V g min root es bs) (hV : ∀ c ∈ bs, V' c = V c) (hg : g ≤ g') :
    Rooted V' g' min root es bs := by
  unfold Rooted at *
  split
  case isTrue h0 => rwa [if_pos h0] at h
  case isFalse h0 =>
    rw [if_neg h0] at h
    obtain ⟨l, hl⟩ := h
    exact ⟨l, hl.congr hV hg⟩

theorem Sub.root_level {V : Nat → Option Node} {g b : Nat} {tail : Bool}
    {lo hi : Option Key} (h : Sub V g min l tail b lo hi es bs) :
    ∃ n, V b = some n ∧ n.level = l := by
  cases l with
  | zero =>
    obtain ⟨n, hn, _⟩ := h
    exact ⟨n, hn.view, hn.level⟩
  | succ l =>
    obtain ⟨n, _, hn, _⟩ := h
    exact ⟨n, hn.view, hn.level⟩

theorem Volume.Sound.inArena_ne_zero {v : Volume} (hs : v.Sound) {a : Nat}
    (h : v.superblock.InArena a) : a ≠ 0 := by
  have h1 := h.1
  have h2 := hs.geometry.treeAt_ge
  omega

theorem Grew.root_one {tx' : TreeTransaction} {s' : Store} {a : Nat}
    {ps ns bs' : List Nat} (hs : s'.volume.Sound)
    (h : Grew min l true none none es ps bs tx s tx' (.one a) s' ns bs') :
    Inserted min es ps bs tx s { tx' with root := a } s' ns bs' := by
  obtain ⟨n, hn, hg⟩ := h.stamp a (by simp [Branch.addrs])
  have ha : a ≠ 0 := hs.inArena_ne_zero (Volume.view_inArena hn)
  refine ⟨h.moved.setRoot a, h.blocks, h.nodup, ?_, ha, n, hn, hg⟩
  rw [Rooted, if_neg ha]
  have hch := h.chain
  cases hch with
  | last hsub => exact ⟨l, hsub⟩

theorem raiseRoot_spec {tx' : TreeTransaction} {s' : Store} {br : Branch}
    {ps ns bs' : List Nat} (hs : s'.volume.Sound) (hgen : tx.generation < 2 ^ 64)
    (hl : l + 1 < 8) (hps : ∀ c ∈ bs, tx.Used c)
    (h : Grew min l true none none es ps bs tx s tx' br s' ns bs') :
    Returns (raiseRoot tx' br) s' fun tx'' s'' =>
      ∃ ns' bs'', Inserted min es ps bs tx s tx'' s'' ns' bs'' := by
  have hm := h.moved
  cases br with
  | one a => exact ⟨ns, bs', h.root_one hs⟩
  | split left sep right =>
    have hch := h.chain
    obtain ⟨n, hn, hlevel⟩ : ∃ n, s'.view left = some n ∧ n.level = l := by
      cases hch with
      | cons hsub _ _ => exact hsub.root_level
    rw [raiseRoot, Returns, wp_bind]
    refine (read_exact hs hm.evolves.cache hn).returns ?_
    rintro n s1 ⟨rfl, h1⟩
    rw [wp_bind]
    refine gate_returns h1.cache fun s2 h2 => ?_
    have h12 := h1.trans h2
    have hgen' := hm.generation
    have hnode : (⟨(n.level + 1) % 2 ^ 8, tx'.generation, [sep], [], [left, right]⟩ : Node)
        = innerOf (l + 1) tx.generation [sep] [left, right] := by
      rw [hlevel, Nat.mod_eq_of_lt (by omega), hgen']
      rfl
    have hch2 : Chain (Sub s2.view tx.generation min l) true none none [sep]
        [left, right] es bs' := by
      rw [h12.view]
      exact hch
    have hwf := hch2.wf_innerOf (h12.sound hs) hl hgen (by simp) (by simp) h.keys
    have hm2 := hm.after h12
    rw [wp_bind, hnode]
    refine place_one h12.cache hm2.fits hwf fun a s3 h3 => ?_
    obtain ⟨hv, -⟩ := forall₂_cons.mp h3.views
    have hs3 := h3.evolves.sound (h12.sound hs)
    have ha : a ≠ 0 := hs3.inArena_ne_zero (Volume.view_inArena hv)
    have hused : ∀ c ∈ bs', tx'.Used c := by
      intro c hc
      rcases (h.blocks c).mp hc with hn | ⟨hb, hn⟩
      · exact (hm.used c).mpr (Or.inl hn)
      · exact hm.kept (Or.inl ⟨hps c hb, hn⟩)
    refine ⟨[a] ++ ns, a :: bs', (hm2.place h3).setRoot a, fun c => ?_, ?_, ?_, ha, _, hv, rfl⟩
    · rw [mem_cons, mem_append, mem_singleton, h.blocks, or_assoc]
    · exact nodup_cons.mpr ⟨h3.not_mem hused mem_cons_self, h.nodup⟩
    · rw [Rooted, if_neg ha]
      exact ⟨l + 1, _, bs', ⟨hv, hwf, rfl, le_rfl, by simp⟩, h3.chain hused hch2, rfl⟩

/-- `insert` binds the key in the transaction's tree and accounts for
every block. -/
theorem insert_spec {key : Key} {value : Value} (hs : s.volume.Sound)
    (hc : Coherent Exact s) (hfit : tx.Fits s.volume.superblock)
    (hgen : tx.generation < 2 ^ 64) (hmin : min ≤ 6) (hkey : key.Valid)
    (hvalue : value.Valid) (htree : Rooted s.view tx.generation min tx.root es bs)
    (hnodup : bs.Nodup) (hused : ∀ c ∈ bs, tx.Used c)
    (hheight : ∀ l, Sub s.view tx.generation min l true tx.root none none es bs → l + 1 < 8) :
    Returns (insert tx key value) s fun tx' s' =>
      ∃ ns bs', Inserted min (upsert key value es) (rootSpine s.view key tx.root) bs
        tx s tx' s' ns bs' := by
  unfold Tree.insert
  split
  case isTrue h0 =>
    rw [Rooted, if_pos h0] at htree
    obtain ⟨rfl, rfl⟩ := htree
    have hsp : rootSpine s.view key tx.root = [] := by
      unfold rootSpine
      split <;> simp [h0]
    have hnode : (⟨0, tx.generation, [key], [value], []⟩ : Node)
        = leafOf tx.generation [(key, value)] := rfl
    have hwf : (leafOf tx.generation [(key, value)]).WF :=
      wf_leafOf hgen (by simp) (by simp) (pairwise_singleton _ _) (by simpa using ⟨hkey, hvalue⟩)
    rw [hsp, Returns, wp_bind]
    refine gate_returns hc fun s1 h1 => ?_
    rw [wp_bind, hnode]
    have hm := (Moved.refl hfit hc).after h1
    refine place_one h1.cache hm.fits hwf fun a s2 h2 => ?_
    have hrep : Replaced min 0 true none none [(key, value)] [] tx s1 (tx.taken a)
        (.one a) s2 [a] := leaf_one hwf (fun _ _ => .none _) (by simp) h2
    have hs2 : s2.volume.Sound := h2.evolves.sound (h1.sound hs)
    exact ⟨[a] ++ [], [a], Grew.root_one hs2 ⟨hm.place h2, by simp, hrep.nodup, hrep.chain,
      hrep.keys, h2.stamp (by simp [leafOf])⟩⟩
  case isFalse h0 =>
    rw [Rooted, if_neg h0] at htree
    obtain ⟨l, hsub⟩ := htree
    have hl := hheight l hsub
    have hsp : rootSpine s.view key tx.root = spine s.view key l tx.root := by
      obtain ⟨n, hn, hlev⟩ := hsub.root_level
      simp only [rootSpine, hn, h0, if_false, hlev]
    simp only [Returns, wp_bind]
    rw [← wp_bind, hsp]
    refine insertDown hgen hmin hkey hvalue hs hc hfit (by omega)
      (by simp only [MAX_HEIGHT]; omega) hsub hnodup hused (.none key) ?_
    intro tx' br s' ns bs' hgrew
    exact raiseRoot_spec (hgrew.moved.evolves.sound hs) hgen hl hused hgrew

end Root

end Molt.Fs
