/-
What the nodes of a rewritten path hold.

An insert builds the new nodes by position: the leaf with the pair
spliced in, or the inner node with a separator and a link spliced in, is
read as a function of the slot, and a split reads two windows of it. Here
those functions are lists again. A rewritten leaf is `leafOf` all of the
pairs with the new one bound, or of their two halves; a rewritten inner
node is `innerOf` the separators and links with the child's replaced, or
of what lies left and right of the middle separator.
-/
import Molt.Fs.Proofs.Ordered

namespace Molt.Fs

open Lib List

-- == windows

theorem map_range'_eq {α : Type} {f : Nat → α} {l : List α}
    (h : ∀ i (hi : i < l.length), f i = l[i]) {low n : Nat}
    (hle : low + n ≤ l.length) :
    (List.range' low n).map f = (l.drop low).take n := by
  refine ext_getElem ?_ fun i h1 h2 => ?_
  · simp only [length_map, length_range', length_take, length_drop]
    omega
  · simp only [length_map, length_range'] at h1
    rw [getElem_map, getElem_range', getElem_take, getElem_drop, Nat.one_mul]
    exact h _ (by omega)

theorem setAt_append {α : Type} (d : α) (as bs : List α) (x v : α) :
    Tree.setAt d (as ++ x :: bs) as.length v = as ++ v :: bs := by
  simp [Tree.setAt]

-- == leaves

def leafOf (generation : Nat) (items : List (Key × Value)) : Node :=
  ⟨0, generation, items.map Prod.fst, items.map Prod.snd, []⟩

theorem entries_leafOf (g : Nat) (items : List (Key × Value)) :
    (leafOf g items).entries = items := by
  have hcells : (leafOf g items).cells = items.map Prod.snd := Node.cells_eq (by simp [leafOf])
  rw [Node.entries, hcells]
  show (items.map Prod.fst).zip (items.map Prod.snd) = items
  rw [zip_map', map_id'' fun _ => rfl]

theorem wf_leafOf {g : Nat} {items : List (Key × Value)} (hg : g < 2 ^ 64)
    (hpos : 0 < items.length) (hle : items.length ≤ 12) (hs : Sorted items)
    (hv : ∀ e ∈ items, e.1.Valid ∧ e.2.Valid) : (leafOf g items).WF := by
  refine ⟨by simp [leafOf], hg, by simpa [leafOf] using hpos,
    by simpa [leafOf] using hle, ?_, ?_, fun _ => ⟨by simp [leafOf], ?_, rfl⟩, ?_⟩
  · intro k hk
    obtain ⟨e, he, rfl⟩ := mem_map.mp hk
    exact (hv e he).1
  · exact pairwise_map.mpr hs
  · intro v hv'
    obtain ⟨e, he, rfl⟩ := mem_map.mp hv'
    exact (hv e he).2
  · intro h
    exact absurd rfl h

theorem Node.WF.entries_valid {n : Node} (h : n.WF) (h0 : n.level = 0) :
    ∀ e ∈ n.entries, e.1.Valid ∧ e.2.Valid := by
  intro e he
  have hzip := h.entries_eq h0
  rw [hzip] at he
  have hm := of_mem_zip he
  exact ⟨h.keys _ hm.1, (h.leaf h0).2.1 _ hm.2⟩

theorem Node.WF.eq_leafOf {n : Node} (h : n.WF) (h0 : n.level = 0) :
    n = leafOf n.generation n.entries := by
  obtain ⟨hlen, _, hch⟩ := h.leaf h0
  rw [h.entries_eq h0, leafOf, map_fst_zip (Nat.le_of_eq hlen.symm),
    map_snd_zip hlen.le, ← h0, ← hch]

theorem Sub.leafOf {V : Nat → Option Node} {g g' min b : Nat} {tail : Bool}
    {lo hi : Option Key} {items : List (Key × Value)}
    (hb : V b = some (leafOf g' items)) (hwf : (leafOf g' items).WF) (hg : g' ≤ g)
    (hr : ∀ e ∈ items, Within lo hi e.1) (hmin : tail = false → min ≤ items.length) :
    Sub V g min 0 tail b lo hi items [b] := by
  refine ⟨Molt.Fs.leafOf g' items, ⟨hb, hwf, rfl, hg, fun ht => ?_⟩, ?_,
    (entries_leafOf g' items).symm, rfl⟩
  · simpa [Molt.Fs.leafOf, Node.len] using hmin ht
  · intro k hk
    obtain ⟨e, he, rfl⟩ := mem_map.mp hk
    exact hr e he

theorem getElem_spliced {α : Type} {a b : List α} {x : α} (f : Nat → α)
    (hf : ∀ j (hj : j < (a ++ b).length), f j = (a ++ b)[j]) (i : Nat)
    (hi : i < (a ++ x :: b).length) :
    (if i < a.length then f i else if i = a.length then x else f (i - 1))
      = (a ++ x :: b).get ⟨i, hi⟩ := by
  simp only [length_append, length_cons] at hi
  simp only [List.get_eq_getElem]
  split
  · rename_i hlt
    rw [hf i (by simp; omega), getElem_append_left hlt, getElem_append_left hlt]
  rename_i hge
  rw [getElem_append_right (not_lt.mp hge)]
  split
  case isTrue heq => simp [heq]
  case isFalse hne =>
    obtain ⟨j, rfl⟩ : ∃ j, i = a.length + (j + 1) := ⟨i - a.length - 1, by omega⟩
    have h1 : a.length + (j + 1) - 1 = a.length + j := by omega
    have h2 : a.length + (j + 1) - a.length = j + 1 := by omega
    rw [h1, hf (a.length + j) (by simp; omega), getElem_append_right (Nat.le_add_right _ _)]
    simp [h2]

section Leaf

variable {leaf : Node} {key : Key} {value : Value}

theorem splicedItem_eq {ea ek : List (Key × Value)} (he : leaf.entries = ea ++ ek)
    (i : Nat) (hi : i < (ea ++ (key, value) :: ek).length) :
    Tree.splicedItem leaf ea.length key value i = (ea ++ (key, value) :: ek).get ⟨i, hi⟩ := by
  refine getElem_spliced (fun j => (leaf.key j, leaf.value j)) (fun j hj => ?_) i hi
  have hlen : j < leaf.len := by
    rw [← he, Node.length_entries] at hj
    exact hj
  have := leaf.entry?_eq j
  rw [Node.entry?, if_pos hlen, he, getElem?_eq_getElem hj] at this
  exact Option.some.inj this

/-- A leaf's pairs split at a key; past the ones below it there is the
pair of that very key, or none. -/
theorem Node.WF.at_lower (h : leaf.WF) (key : Key) :
    ∃ ea ek, leaf.entries = ea ++ ek ∧ leaf.lower key = ea.length
      ∧ (∀ e ∈ ea, e.1 < key) ∧ ∀ e ∈ ek, key ≤ e.1 := by
  obtain ⟨as, ks, hkeys, has, hks⟩ := Node.split_lower h.sorted key
  have hfst : leaf.entries.map Prod.fst = as ++ ks := by
    rw [Node.map_fst_entries, hkeys]
  obtain ⟨ea, ek, he, rfl, rfl⟩ := map_eq_append_iff.mp hfst
  refine ⟨ea, ek, he, ?_, fun e hm => has _ (mem_map_of_mem hm),
    fun e hm => hks _ (mem_map_of_mem hm)⟩
  rw [Node.lower_eq hkeys has hks, length_map]

theorem upsert_above {ek : List (Key × Value)} (hgt : ∀ e ∈ ek, key < e.1) :
    ek.filter (fun e => decide (e.1 < key)) = []
      ∧ ek.filter (fun e => decide (key < e.1)) = ek :=
  ⟨filter_eq_nil_iff.mpr fun e he => by simpa using le_of_lt (hgt e he),
    filter_eq_self.mpr fun e he => decide_eq_true (hgt e he)⟩

theorem upsert_hit {ea ek : List (Key × Value)} {v : Value}
    (hs : Sorted (ea ++ (key, v) :: ek)) :
    upsert key value (ea ++ (key, v) :: ek) = ea ++ (key, value) :: ek := by
  obtain ⟨_, htail, hcross⟩ := sorted_append.mp hs
  have hlt : ∀ e ∈ ea, e.1 < key := fun e he => hcross e he _ mem_cons_self
  have habove := upsert_above (sorted_cons.mp htail).1
  rw [upsert_append_right hlt]
  simp [upsert, habove]

theorem upsert_miss {ea ek : List (Key × Value)} (hlt : ∀ e ∈ ea, e.1 < key)
    (hgt : ∀ e ∈ ek, key < e.1) :
    upsert key value (ea ++ ek) = ea ++ (key, value) :: ek := by
  have habove := upsert_above hgt
  rw [upsert_append_right hlt]
  simp [upsert, habove]

theorem leaf_hit (h : leaf.WF) (h0 : leaf.level = 0) (g : Nat)
    (hit : leaf.keys[leaf.lower key]? = some key) (value : Value) :
    ({ leaf with
        generation := g
        values := Tree.setAt .whiteout leaf.values (leaf.lower key) value } : Node)
      = leafOf g (upsert key value leaf.entries)
    ∧ (upsert key value leaf.entries).length = leaf.len := by
  obtain ⟨ea, ek, he, hlow, _, _⟩ := h.at_lower key
  have hsorted := h.entries_sorted
  rw [← Node.map_fst_entries, he, hlow, getElem?_map,
    getElem?_append_right le_rfl, Nat.sub_self] at hit
  cases ek with
  | nil => simp at hit
  | cons e ek =>
    obtain ⟨k, v⟩ := e
    simp only [getElem?_cons_zero, Option.map_some, Option.some.injEq] at hit
    subst hit
    rw [he] at hsorted
    have hlen : leaf.len = (ea ++ (k, v) :: ek).length := by
      rw [← he, Node.length_entries]
      rfl
    have hleaf := h.eq_leafOf h0
    rw [he] at hleaf
    rw [he, upsert_hit hsorted, hlow, hlen]
    refine ⟨?_, by simp⟩
    rw [hleaf]
    have hl : ea.length = (ea.map Prod.snd).length := (length_map ..).symm
    simp only [leafOf, map_append, map_cons]
    rw [hl, setAt_append]

theorem leaf_miss (h : leaf.WF) (key : Key) (value : Value)
    (miss : leaf.keys[leaf.lower key]? ≠ some key) (tx : TreeTransaction) :
    (upsert key value leaf.entries).length = leaf.len + 1
    ∧ ∀ low high, low ≤ high → high ≤ leaf.len + 1 →
      Tree.fillLeaf tx (Tree.splicedItem leaf (leaf.lower key) key value) low high
        = leafOf tx.generation (((upsert key value leaf.entries).drop low).take (high - low)) := by
  obtain ⟨ea, ek, he, hlow, hlt, hge⟩ := h.at_lower key
  have hsorted := h.entries_sorted
  have hgt : ∀ e ∈ ek, key < e.1 := by
    -- the first pair past the split is not the key's, the rest lie above it
    rw [← Node.map_fst_entries, he, hlow, getElem?_map,
      getElem?_append_right le_rfl, Nat.sub_self] at miss
    cases ek with
    | nil => simp
    | cons e ek =>
      have hne : e.1 ≠ key := by simpa using miss
      have hek : key < e.1 := lt_of_le_of_ne (hge e mem_cons_self) (Ne.symm hne)
      rw [he] at hsorted
      have htail := (sorted_cons.mp (sorted_append.mp hsorted).2.1).1
      intro x hx
      rcases mem_cons.mp hx with rfl | hx
      · exact hek
      · exact lt_trans hek (htail x hx)
  have hlen : leaf.len = (ea ++ ek).length := by
    rw [← he, Node.length_entries]
    rfl
  rw [he, upsert_miss hlt hgt, hlow, hlen]
  refine ⟨by simp; omega, fun low high h1 h2 => ?_⟩
  simp only [Tree.fillLeaf, leafOf]
  rw [map_range'_eq (l := ea ++ (key, value) :: ek)
    (fun i hi => splicedItem_eq he i hi) (by simp at h2 ⊢; omega)]

end Leaf

-- == inner nodes

def innerOf (level generation : Nat) (keys : List Key) (children : List Nat) : Node :=
  ⟨level, generation, keys, [], children⟩

theorem wf_innerOf {level g : Nat} {keys : List Key} {children : List Nat}
    (h0 : level ≠ 0) (h8 : level < 8) (hg : g < 2 ^ 64) (hpos : 0 < keys.length)
    (hle : keys.length ≤ 12) (hk : ∀ k ∈ keys, k.Valid)
    (hs : keys.Pairwise (· < ·)) (hlen : children.length = keys.length + 1)
    (hc : ∀ c ∈ children, 0 < c ∧ c < 2 ^ 64) :
    (innerOf level g keys children).WF :=
  ⟨h8, hg, hpos, hle, hk, hs, fun h => absurd h h0, fun _ => ⟨hlen, hc, rfl⟩⟩

section Inner

variable {parent : Node}

theorem inner_one (h : parent.WF) (h0 : parent.level ≠ 0) (g : Nat)
    {ca cb : List Nat} {c : Nat} (hcs : parent.children = ca ++ c :: cb)
    (addr : Nat) :
    ({ parent with
        generation := g
        children := Tree.setAt 0 parent.children ca.length addr } : Node)
      = innerOf parent.level g parent.keys (ca ++ addr :: cb) := by
  have hv := (h.inner h0).2.2
  rw [hcs, setAt_append]
  obtain ⟨l, g', ks, vs, cs⟩ := parent
  simp only at hv
  simp only [innerOf, hv]

theorem splicedKey_eq {ka kb : List Key} {sep : Key} (hk : parent.keys = ka ++ kb)
    (i : Nat) (hi : i < (ka ++ sep :: kb).length) :
    Tree.splicedKey parent ka.length sep i = (ka ++ sep :: kb).get ⟨i, hi⟩ := by
  refine getElem_spliced parent.key (fun j hj => ?_) i hi
  rw [Node.key, hk, getD_eq_getElem?_getD, getElem?_eq_getElem hj]
  rfl

theorem splicedChild_eq {ca cb : List Nat} {c left right : Nat}
    (hc : parent.children = ca ++ c :: cb) (i : Nat)
    (hi : i < (ca ++ left :: right :: cb).length) :
    Tree.splicedChild parent ca.length left right i = (ca ++ left :: right :: cb).get ⟨i, hi⟩ := by
  simp only [length_append, length_cons] at hi
  unfold Tree.splicedChild Node.child
  simp only [hc, List.get_eq_getElem]
  split
  · rename_i hlt
    rw [getElem_append_left hlt, getD_eq_getElem?_getD,
      getElem?_append_left hlt, getElem?_eq_getElem hlt]
    rfl
  rename_i hge
  rw [getElem_append_right (not_lt.mp hge)]
  split
  case isTrue heq => simp [heq]
  case isFalse hne =>
    split
    case isTrue heq => simp [heq]
    case isFalse hne' =>
      obtain ⟨j, rfl⟩ : ∃ j, i = ca.length + (j + 2) := ⟨i - ca.length - 2, by omega⟩
      have h1 : ca.length + (j + 2) - 1 = ca.length + (j + 1) := by omega
      have h2 : ca.length + (j + 2) - ca.length = j + 2 := by omega
      have h3 : j < cb.length := by omega
      simp only [h1, h2, getElem_cons_succ, getD_eq_getElem?_getD]
      rw [getElem?_append_right (by omega)]
      simp [h3]

theorem inner_split {ka kb : List Key} {ca cb : List Nat} {c : Nat}
    (hk : parent.keys = ka ++ kb) (hc : parent.children = ca ++ c :: cb)
    (hlen : ca.length = ka.length) (hlen' : cb.length = kb.length)
    (left : Nat) (sep : Key) (right : Nat) (tx : TreeTransaction) (low high : Nat)
    (h1 : low ≤ high) (h2 : high ≤ parent.len + 1) :
    Tree.fillInner tx parent.level (Tree.splicedKey parent ka.length sep)
        (Tree.splicedChild parent ka.length left right) low high
      = innerOf parent.level tx.generation
          (((ka ++ sep :: kb).drop low).take (high - low))
          (((ca ++ left :: right :: cb).drop low).take (high - low + 1)) := by
  have hl : parent.len = ka.length + kb.length := by rw [Node.len, hk, length_append]
  simp only [Tree.fillInner, innerOf]
  rw [map_range'_eq (l := ka ++ sep :: kb) (fun i hi => splicedKey_eq hk i hi) (by simp; omega)]
  rw [map_range'_eq (l := ca ++ left :: right :: cb)
    (fun i hi => by rw [← hlen]; exact splicedChild_eq hc i hi) (by simp; omega)]

end Inner

end Molt.Fs
