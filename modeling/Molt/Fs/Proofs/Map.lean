/-
The metadata tree is an ordered map, and the arena an exact account of
it.

`TxTree tx s es bs` is what an open transaction's tree satisfies: it is
well formed, holds `es` in the distinct blocks `bs`, and the blocks in
use are those of `bs` and the guarded ones, no more and no fewer. It
holds after `begin` on a well-formed checkpoint (`TxTree.of_began`) and
every insert keeps it (`TxTree.insert`), so it holds along every run.

Half full off the right edge (the `6` below) is what `format` and
`insert` make of a tree; with an arena of at most `2 ^ 16` blocks it
bounds the height, so that no run reaches the limit of eight levels.
-/
import Molt.Fs.Proofs.Insert

namespace Molt.Fs

open Lib

-- == lookups

section Lookups

variable {s : Store} {g min root : Nat} {es : List (Key × Value)} {bs : List Nat}

theorem Rooted.sorted {V : Nat → Option Node} (h : Rooted V g min root es bs) : Sorted es := by
  unfold Rooted at h
  split at h
  · rw [h.1]
    exact .nil
  · obtain ⟨l, hl⟩ := h
    exact (Sub.good V g min l).sorted hl

section

variable (hs : s.volume.Sound) (hc : Coherent Exact s) (h : Rooted s.view g min root es bs)
  (key : Key)
include hs hc h

theorem get_rooted :
    Wp (Tree.get root key) s (fun v s' => v = find key es ∧ Still Exact s s')
      (fun _ s' => Still Exact s s' ∧ ¬ Calm s) := by
  unfold Rooted at h
  split at h
  case isTrue h0 =>
    rw [Tree.get, if_pos h0, h.1]
    exact ⟨rfl, .refl hc⟩
  case isFalse h0 =>
    obtain ⟨l, hl⟩ := h
    rw [← hl.getIn_eq key]
    exact get_spec hs hc hl.shaped h0

theorem next_rooted (inclusive : Bool) :
    Wp (Tree.next root key inclusive) s
      (fun e s' => e = after key inclusive es ∧ Still Exact s s')
      (fun _ s' => Still Exact s s' ∧ ¬ Calm s) := by
  unfold Rooted at h
  split at h
  case isTrue h0 =>
    rw [Tree.next, if_pos h0, h.1]
    exact ⟨rfl, .refl hc⟩
  case isFalse h0 =>
    obtain ⟨l, hl⟩ := h
    rw [← hl.nextIn_eq key inclusive]
    exact next_spec hs hc hl.shaped h0

end

end Lookups

-- == the ordered map

section OrderedMap

variable {s : Store} {tx : TreeTransaction} {es : List (Key × Value)} {bs : List Nat}

theorem find_ne_none_iff {k : Key} {es : List (Key × Value)} :
    find k es ≠ none ↔ ∃ e ∈ es, e.1 = k := by
  rw [ne_eq, find_eq_none_iff]
  push Not
  rfl

/-- Insert, get and next on a well-formed tree below the height limit: an
insert that succeeds leaves a well-formed tree that differs from the old
map at the key alone, whatever it had to split; `get` returns the map's
value and `next` its least key past the one asked for. -/
theorem tree_is_an_ordered_map (hs : s.volume.Sound) (hc : Coherent Exact s)
    (hfit : tx.Fits s.volume.superblock) (hgen : tx.generation < 2 ^ 64)
    (htree : Rooted s.view tx.generation 0 tx.root es bs) (hnodup : bs.Nodup)
    (hused : ∀ c ∈ bs, tx.Used c)
    (hheight : ∀ n, s.view tx.root = some n → n.level + 1 < MAX_HEIGHT) :
    (∀ key value, key.Valid → value.Valid → ∀ tx' s',
      Tree.insert tx key value s = .ok tx' s' → ∃ es' bs',
        Rooted s'.view tx.generation 0 tx'.root es' bs' ∧ bs'.Nodup
        ∧ ∀ k, find k es' = if k = key then some value else find k es)
    ∧ (∀ key, Calm s → ∃ s', Tree.get tx.root key s = .ok (find key es) s')
    ∧ ∀ key inclusive, Calm s → ∃ r s', Tree.next tx.root key inclusive s = .ok r s' ∧ match r with
        | some (k, v) => find k es = some v ∧ Past inclusive key k
            ∧ ∀ k', Past inclusive key k' → find k' es ≠ none → k ≤ k'
        | none => ∀ k', Past inclusive key k' → find k' es = none := by
  have hsorted := htree.sorted
  refine ⟨fun key value hk hv tx' s' hrun => ?_, fun key hcalm => ?_,
    fun key inclusive hcalm => ?_⟩
  · obtain ⟨ns, bs', hins⟩ := (insert_spec hs hc hfit hgen (by decide) hk hv htree hnodup
      hused fun l hl => by
        obtain ⟨n, hn, hlev⟩ := hl.root_level
        rw [← hlev]
        exact hheight n hn).ok hrun
    exact ⟨_, bs', hins.tree, hins.nodup, find_upsert hsorted⟩
  · obtain ⟨v, s', hrun, rfl, _⟩ := ((get_rooted hs hc htree key).mono (fun _ _ h => h)
      fun _ _ h => h.2 hcalm).total
    exact ⟨s', hrun⟩
  · obtain ⟨r, s', hrun, hr, _⟩ := ((next_rooted hs hc htree key inclusive).mono
      (fun _ _ h => h) fun _ _ h => h.2 hcalm).total
    refine ⟨r, s', hrun, ?_⟩
    cases r with
    | some e =>
      obtain ⟨he, hp, hmin⟩ := (after_eq_some_iff hsorted).mp hr.symm
      refine ⟨(find_eq_some_iff hsorted).mpr he, hp, fun k' hk' hf => ?_⟩
      obtain ⟨x, hx, rfl⟩ := find_ne_none_iff.mp hf
      exact hmin x hx hk'
    | none =>
      intro k' hk'
      refine find_eq_none_iff.mpr fun x hx hxk => ?_
      exact after_eq_none_iff.mp hr.symm x hx (hxk ▸ hk')

end OrderedMap

/-- A store just opened on `content`, in a world that refuses nothing. -/
def Store.opened (content : Nat → Sector) (sectors : Nat) (sb : Super) : Store where
  volume :=
    { disk := .holding content, sectors := sectors, superblock := sb, activeCopy := 0,
      previousLog := none, previousTree := none }
  cache := Sieve.new
  env := ⟨fun _ => none, 0, FUEL⟩

/-- A volume of eight arena blocks whose tree is the one leaf in block 2, full. -/
def leafSuper : Super :=
  { generation := 1, blocks := 13, root := 0, logBlocks := 1, treeAt := 2,
    treeBlocks := 8, treeRoot := 2, log := ⟨10, 0, 0⟩ }

def leafPairs : List (Key × Value) :=
  (List.range 12).map fun i => (.object (2 * i), .object ⟨.dir, 0, 0⟩)

@[inherit_doc leafSuper]
def leafStore : Store :=
  .opened (fun x => if x / 8 = 2 then
      .node (leafOf 1 leafPairs) (x % 8)
    else .raw blank) 104 leafSuper

theorem leafStore_sound : leafStore.volume.Sound :=
  ⟨Super.check_ok (by decide), by decide, by decide⟩

theorem leafStore_coherent : Coherent Exact leafStore := Sieve.Holds.new

theorem leafStore_view : leafStore.view 2 = some (leafOf 1 leafPairs) := by decide +kernel

theorem leafStore_rooted {g min : Nat} (hg : 1 ≤ g) :
    Rooted leafStore.view g min 2 leafPairs [2] := by
  refine ⟨0, Sub.leafOf leafStore_view ?_ hg (fun e _ => .none e.1) (by simp)⟩
  exact Store.view_wf 2 _ leafStore_view

def leafTx : TreeTransaction :=
  ⟨2, 2, 2, ⟨true :: List.replicate 7 false⟩, ⟨true :: List.replicate 7 false⟩⟩

theorem leafTx_fits : leafTx.Fits leafStore.volume.superblock := ⟨rfl, rfl, rfl, fun _ h => h⟩

/-- An insert that splits the leaf, and lookups in it. -/
theorem tree_is_an_ordered_map_leaf :
    (∃ tx' s' es' bs', Tree.insert leafTx (.object 1) (.object ⟨.file, 0, 0⟩) leafStore
        = .ok tx' s'
      ∧ (s'.view tx'.root).map Node.level = some 1
      ∧ Rooted s'.view 2 0 tx'.root es' bs'
      ∧ find (.object 1) es' = some (.object ⟨.file, 0, 0⟩)
      ∧ find (.object 8) es' = some (.object ⟨.dir, 0, 0⟩))
    ∧ (∃ s', Tree.get 2 (.object 8) leafStore = .ok (some (.object ⟨.dir, 0, 0⟩)) s')
    ∧ ∃ s', Tree.next 2 (.object 22) false leafStore = .ok none s' := by
  have hcalm : Calm leafStore := ⟨fun _ _ => rfl, le_rfl⟩
  obtain ⟨hins, hget, hnext⟩ := tree_is_an_ordered_map leafStore_sound leafStore_coherent
    leafTx_fits (by decide) (leafStore_rooted (by decide)) (by decide) (by decide)
    (fun n hn => by
      rw [show leafTx.root = 2 from rfl, leafStore_view] at hn
      cases hn
      decide)
  refine ⟨?_, hget (.object 8) hcalm, ?_⟩
  · have hok : (match Tree.insert leafTx (.object 1) (.object ⟨.file, 0, 0⟩) leafStore with
        | .ok tx' s' => decide ((s'.view tx'.root).map Node.level = some 1)
        | .error .. => false) = true := by decide +kernel
    cases hrun : Tree.insert leafTx (.object 1) (.object ⟨.file, 0, 0⟩) leafStore with
    | error e s' =>
      rw [hrun] at hok
      cases hok
    | ok tx' s' =>
      obtain ⟨es', bs', hroot, _, hfind⟩ := hins (.object 1) (.object ⟨.file, 0, 0⟩)
        (by decide) (by decide) tx' s' hrun
      rw [hrun] at hok
      exact ⟨tx', s', es', bs', rfl, of_decide_eq_true hok, hroot, hfind (.object 1),
        hfind (.object 8)⟩
  · obtain ⟨r, s', hrun, hr⟩ := hnext (.object 22) false hcalm
    cases r with
    | none => exact ⟨s', hrun⟩
    | some e =>
      -- no key of the leaf is past its last
      obtain ⟨hf, hp, _⟩ := hr
      have hlast : ∀ e ∈ leafPairs, e.1 ≤ .object 22 := by decide
      have hmem := (find_eq_some_iff (@leafStore_rooted 1 0 le_rfl).sorted).mp hf
      exact absurd hp (not_lt.mpr (hlast _ hmem))

-- == transactions

/-- An open transaction's tree: well formed, and accounted for to the
block. -/
structure TxTree (tx : TreeTransaction) (s : Store) (es : List (Key × Value))
    (bs : List Nat) : Prop where
  fits : tx.Fits s.volume.superblock
  generation : tx.generation < 2 ^ 64
  tree : Rooted s.view tx.generation 6 tx.root es bs
  nodup : bs.Nodup
  used : ∀ c, tx.Used c ↔ tx.Guarded c ∨ c ∈ bs

section Transactions

variable {s : Store} {tx : TreeTransaction} {es : List (Key × Value)} {bs : List Nat}

theorem TxTree.insert (hs : s.volume.Sound) (hc : Coherent Exact s)
    (h : TxTree tx s es bs) {key : Key} {value : Value} (hkey : key.Valid)
    (hvalue : value.Valid) :
    Returns (Tree.insert tx key value) s fun tx' s' =>
      ∃ ns bs', Inserted 6 (upsert key value es) (rootSpine s.view key tx.root) bs
          tx s tx' s' ns bs'
        ∧ TxTree tx' s' (upsert key value es) bs' := by
  refine (insert_spec hs hc h.fits h.generation (by decide) hkey hvalue h.tree h.nodup
    (fun c hc => (h.used c).mpr (Or.inr hc)) fun l hl => hl.height hs h.nodup).returns ?_
  rintro tx' s' ⟨ns, bs', hins⟩
  have hm := hins.moved
  refine ⟨ns, bs', hins, hm.fits, ?_, ?_, hins.nodup, fun c => ?_⟩
  · rw [hm.generation]
    exact h.generation
  · rw [hm.generation]
    exact hins.tree
  · rw [hm.used, hm.guarded, h.used, hins.blocks]
    tauto

theorem Sub.links_mem {V : Nat → Option Node} {g min l b : Nat} {tail : Bool}
    {lo hi : Option Key} (h : Sub V g min l tail b lo hi es bs) :
    ∀ c ∈ bs, ∀ n, V c = some n → n.level ≠ 0 → ∀ d ∈ n.links, d ∈ bs := by
  induction l generalizing tail b lo hi es bs with
  | zero =>
    obtain ⟨n, hn, hk, rfl, rfl⟩ := h
    intro c hc m hm hl
    rw [List.mem_singleton.mp hc, hn.view] at hm
    cases hm
    exact absurd hn.level hl
  | succ l ih =>
    obtain ⟨n, bs', hn, hch, rfl⟩ := h
    intro c hc m hm hl d hd
    rcases List.mem_cons.mp hc with rfl | hc
    · rw [hn.view] at hm
      cases hm
      rw [Node.links_eq (hn.wf.inner hl).1] at hd
      exact List.mem_cons_of_mem _ (hch.children (Sub.good V g min l) d hd)
    · obtain ⟨_, _, _, _, _, _, hs, -, hc, hsub⟩ := hch.member hc
      exact List.mem_cons_of_mem _ (hsub d (ih hs c hc m hm hl d hd))

theorem Sub.reach_of_mem {V : Nat → Option Node} {g min l b : Nat} {tail : Bool}
    {lo hi : Option Key} (h : Sub V g min l tail b lo hi es bs) :
    ∀ c ∈ bs, Reach V b c := by
  induction l generalizing tail b lo hi es bs with
  | zero =>
    obtain ⟨n, hn, hk, rfl, rfl⟩ := h
    intro c hc
    rw [List.mem_singleton.mp hc]
    exact .root
  | succ l ih =>
    obtain ⟨n, bs', hn, hch, rfl⟩ := h
    have hl : n.level ≠ 0 := by
      rw [hn.level]
      exact Nat.succ_ne_zero l
    have hlinks : ∀ d ∈ n.children, d ∈ n.links := fun d hd => by
      rwa [Node.links_eq (hn.wf.inner hl).1]
    intro c hc
    rcases List.mem_cons.mp hc with rfl | hc
    · exact .root
    -- below the child whose subtree has the block
    obtain ⟨_, d, _, _, _, _, hs, hd, hc, -⟩ := hch.member hc
    exact .head hn.view hl (hlinks d hd) (ih hs c hc)

theorem Rooted.reach_iff {V : Nat → Option Node} {g min root : Nat}
    (h : Rooted V g min root es bs) (c : Nat) :
    (root ≠ 0 ∧ Reach V root c) ↔ c ∈ bs := by
  unfold Rooted at h
  split at h
  case isTrue h0 => simp [h0, h.2]
  case isFalse h0 =>
    obtain ⟨l, hl⟩ := h
    constructor
    · rintro ⟨_, hr⟩
      induction hr with
      | root => exact (Sub.good V g min l).block hl
      | link _ hn hlev hd ih => exact hl.links_mem _ ih _ hn hlev _ hd
    · exact fun hc => ⟨h0, hl.reach_of_mem c hc⟩

theorem TxTree.of_began (h : Began Exact s.volume tx)
    (htree : Rooted s.view s.volume.superblock.generation 6 s.volume.superblock.treeRoot
      es bs) (hnodup : bs.Nodup) : TxTree tx s es bs := by
  refine ⟨h.fits, h.generation_lt, ?_, hnodup, fun c => ?_⟩
  · rw [h.root, h.generation]
    exact htree.congr (fun _ _ => rfl) (Nat.le_succ _)
  have hbs : c ∈ bs → tx.Guarded c := fun hc =>
    h.guards c (Or.inl ((htree.reach_iff c).mpr hc))
  have hu : tx.Used c ↔ tx.Guarded c := by
    rw [TreeTransaction.Used, h.fresh]
    exact Iff.rfl
  rw [hu]
  tauto

end Transactions

-- == runs

def Tree.run (pairs : List (Key × Value)) : TreeM TreeTransaction := do
  let tx ← Tree.begin
  pairs.foldlM (fun tx e => Tree.insert tx e.1 e.2) tx

/-- What a run keeps, from the store it began on. -/
structure Running (s₀ : Store) (tx : TreeTransaction) (s : Store) : Prop where
  tree : ∃ es bs, TxTree tx s es bs
  evolves : Evolves Exact (tx.MayWrite s₀.volume.superblock) s₀ s
  guarded : ∀ c, tx.Guarded c ↔ s₀.volume.Durable c

section Runs

variable {s₀ s : Store} {tx : TreeTransaction}

theorem Running.durable (h : Running s0 tx s) (c : Nat) :
    s.volume.Durable c ↔ s0.volume.Durable c := by
  have hview : ∀ b, s0.volume.Durable b → s.volume.view b = s0.volume.view b := by
    intro b hb
    refine h.evolves.view fun i hi hw => hw.2 ?_
    rw [show (b * 8 + i) / 8 = b by omega]
    exact (h.guarded b).mpr hb
  have hsb := h.evolves.superblock
  have hprev : s.volume.previousTree = s0.volume.previousTree := by rw [h.evolves.rest]
  unfold Volume.Durable
  rw [hsb, hprev]
  refine or_congr (and_congr_right fun hr => ?_)
    (exists_congr fun root => and_congr_right fun hp => and_congr_right fun hr => ?_)
  · exact Reach.congr fun b hb => hview b (Or.inl ⟨hr, hb⟩)
  · exact Reach.congr fun b hb => hview b (Or.inr ⟨root, hp, hr, hb⟩)

theorem Running.insert (hs : s0.volume.Sound) (h : Running s0 tx s) {e : Key × Value}
    (he : e.1.Valid ∧ e.2.Valid) :
    Returns (Tree.insert tx e.1 e.2) s fun tx' s' => Running s0 tx' s' := by
  obtain ⟨es, bs, ht⟩ := h.tree
  refine (ht.insert (h.evolves.sound hs) h.evolves.cache he.1 he.2).returns ?_
  rintro tx' s' ⟨ns, bs', hins, ht'⟩
  have hg := hins.moved.guarded
  refine ⟨⟨_, bs', ht'⟩, ?_, fun c => (hg c).trans (h.guarded c)⟩
  have hev := hins.moved.evolves
  rw [h.evolves.superblock] at hev
  refine (h.evolves.mono fun x hx => ?_).trans (hev.mono fun x hx => ?_)
  · exact ⟨hx.1, fun hx' => hx.2 ((hg _).mp hx')⟩
  · exact ⟨hx.1.1, fun hx' => hx.1.2 ((hg _).mp hx')⟩

theorem Running.inserts (hs : s0.volume.Sound) {pairs : List (Key × Value)}
    (hpairs : ∀ e ∈ pairs, e.1.Valid ∧ e.2.Valid) (h : Running s0 tx s) :
    Returns (pairs.foldlM (fun tx e => Tree.insert tx e.1 e.2) tx) s
      fun tx' s' => Running s0 tx' s' := by
  induction pairs generalizing tx s with
  | nil => exact h
  | cons e pairs ih =>
    rw [List.foldlM_cons, Returns, wp_bind]
    refine (h.insert hs (hpairs e List.mem_cons_self)).returns fun tx' s' h' => ?_
    exact ih (fun x hx => hpairs x (List.mem_cons_of_mem _ hx)) h'

theorem run_spec (hs : s.volume.Sound) (hc : Coherent Exact s)
    {es : List (Key × Value)} {bs : List Nat}
    (htree : Rooted s.view s.volume.superblock.generation 6 s.volume.superblock.treeRoot
      es bs) (hnodup : bs.Nodup) {pairs : List (Key × Value)}
    (hpairs : ∀ e ∈ pairs, e.1.Valid ∧ e.2.Valid) :
    Returns (Tree.run pairs) s fun tx s' => Running s tx s' := by
  unfold Tree.run
  rw [Returns, wp_bind]
  refine (begin_spec Exact.parsed Exact.links hs hc).returns ?_
  rintro tx s1 ⟨h1, hb⟩
  refine Running.inserts hs hpairs ⟨⟨es, bs, ?_⟩, h1.evolves, fun c => ?_⟩
  · have hb1 : Began Exact s1.volume tx := by
      rw [h1.volume]
      exact hb
    refine TxTree.of_began hb1 ?_ hnodup
    rw [h1.view, h1.volume]
    exact htree
  · exact ⟨hb.exactly (fun _ _ h => h) c, hb.guards c⟩

/-- In every state a run reaches: the bits of `used` are exactly the
blocks reachable from the active, the previous or the transaction's root;
every cached node is what its block parses to; and every block a further
insert writes is reachable from neither checkpoint, nor from the
transaction's root unless it lies on the path to the key's leaf, which
that insert replaces. -/
theorem run_accounts_for_the_arena (hs : s.volume.Sound) (hc : Coherent Exact s)
    {es : List (Key × Value)} {bs : List Nat}
    (htree : Rooted s.view s.volume.superblock.generation 6 s.volume.superblock.treeRoot
      es bs) (hnodup : bs.Nodup) {pairs : List (Key × Value)}
    (hpairs : ∀ e ∈ pairs, e.1.Valid ∧ e.2.Valid) {s' : Store}
    (hrun : Tree.run pairs s = .ok tx s') :
    (∀ c, tx.Used c ↔ s'.volume.Durable c ∨ (tx.root ≠ 0 ∧ Reach s'.view tx.root c))
    ∧ (∀ e ∈ s'.cache.entries, s'.view e.key = some e.val)
    ∧ ∀ key value tx'' s'', key.Valid → value.Valid →
      Tree.insert tx key value s' = .ok tx'' s'' →
      ∃ ws, s''.volume.disk.issued = ws ++ s'.volume.disk.issued
        ∧ ∀ w ∈ ws, ∀ x, w.Covers x → ¬ s'.volume.Durable (x / 8)
          ∧ (¬ (tx.root ≠ 0 ∧ Reach s'.view tx.root (x / 8))
            ∨ x / 8 ∈ rootSpine s'.view key tx.root) := by
  have h := (run_spec hs hc htree hnodup hpairs).ok hrun
  obtain ⟨es', bs', ht⟩ := h.tree
  have hused : ∀ c, tx.Used c ↔ s'.volume.Durable c ∨ (tx.root ≠ 0 ∧ Reach s'.view tx.root c) := by
    intro c
    rw [ht.used, h.guarded, h.durable, ht.tree.reach_iff]
  refine ⟨hused, h.evolves.cache.right, fun key value tx'' s'' hk hv hins => ?_⟩
  obtain ⟨ns, bs'', hgrown, -⟩ := (ht.insert (h.evolves.sound hs) h.evolves.cache hk hv).ok hins
  obtain ⟨ws, -, -, hissued, hws⟩ := hgrown.moved.evolves.disk
  refine ⟨ws, hissued, fun w hw x hx => ?_⟩
  obtain ⟨⟨-, hg⟩, hor⟩ := hws w hw x hx
  rw [h.guarded, ← h.durable] at hg
  refine ⟨hg, ?_⟩
  rcases hor with hp | hu
  · exact Or.inr hp
  · exact Or.inl fun hr => hu ((hused _).mpr (Or.inr hr))

end Runs

theorem run_accounts_for_the_arena_leaf :
    ∃ tx s', Tree.run [(.object 1, .object ⟨.file, 0, 0⟩)] leafStore = .ok tx s'
      ∧ (∀ c, tx.Used c ↔ s'.volume.Durable c ∨ (tx.root ≠ 0 ∧ Reach s'.view tx.root c)) := by
  have hok : (match Tree.run [(.object 1, .object ⟨.file, 0, 0⟩)] leafStore with
      | .ok .. => true
      | .error .. => false) = true := by decide +kernel
  cases hrun : Tree.run [(.object 1, .object ⟨.file, 0, 0⟩)] leafStore with
  | error e s' =>
    rw [hrun] at hok
    cases hok
  | ok tx s' =>
    exact ⟨tx, s', rfl, (run_accounts_for_the_arena leafStore_sound leafStore_coherent
      (leafStore_rooted le_rfl) (by decide) (by decide) hrun).1⟩

/-- `leafStore`'s volume before anything was stored in it. -/
def bareStore : Store := .opened (fun _ => .raw blank) 64 { leafSuper with treeRoot := 0 }

/-- The steps of `insert` up to the write of a node above a split root. -/
def Tree.insertToRaise (tx : TreeTransaction) (key : Key) (value : Value) :
    TreeM (TreeTransaction × Node) := do
  let found ← Tree.insertDescend key (MAX_HEIGHT - 1) [] tx.root
  let (tx, branch) ← Tree.insertUp tx key value found
  match branch with
  | .one _ => fail .missing
  | .split left separator right => do
      let node ← Tree.read left
      gate
      pure (tx, ⟨(node.level + 1) % 2 ^ 8, tx.generation, [separator], [], [left, right]⟩)

/-- A full leaf that is the root splits, and the block handed out for the
node above its halves is the root's own: `transaction.root` still names
it. -/
theorem write_new_hands_out_the_open_root : ∃ tx s, (do
        let tx ← Tree.run ((List.range 12).map fun i => (.object i, .whiteout))
        Tree.insertToRaise tx (.object 12) .whiteout) bareStore = .ok tx s
      ∧ ∃ tx' a s', Tree.writeNew tx.1 tx.2 s = .ok (tx', a) s'
        ∧ tx.1.root ≠ 0 ∧ Reach s.view tx.1.root a := by
  have hok : (match (do
        let tx ← Tree.run ((List.range 12).map fun i => (.object i, .whiteout))
        Tree.insertToRaise tx (.object 12) .whiteout) bareStore with
      | .ok tx s => (match Tree.writeNew tx.1 tx.2 s with
        | .ok x _ => decide (x.2 = tx.1.root ∧ tx.1.root ≠ 0)
        | .error .. => false)
      | .error .. => false) = true := by decide +kernel
  split at hok
  case h_2 => cases hok
  case h_1 tx s hrun =>
    refine ⟨tx, s, hrun, ?_⟩
    split at hok
    case h_2 => cases hok
    case h_1 x s' hw =>
      obtain ⟨ha, h0⟩ := of_decide_eq_true hok
      refine ⟨x.1, x.2, s', hw, h0, ?_⟩
      rw [ha]
      exact .root

end Molt.Fs
