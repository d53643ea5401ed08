/-
What is read of a tree while a transaction changes it.

A run of inserts writes only blocks that neither checkpoint reaches, so the
trees of both stay what they were (`run_keeps_the_checkpoints`), while the
transaction's own root leads to the map with every insert made
(`run_reads_its_writes`).
-/
import Molt.Fs.Proofs.Map

namespace Molt.Fs

open Lib

section Runs

variable {s s' : Store} {tx : TreeTransaction} {es pairs : List (Key × Value)} {bs : List Nat}

/-- The map after a run of inserts. -/
def updated (es pairs : List (Key × Value)) : List (Key × Value) :=
  pairs.foldl (fun es e => upsert e.1 e.2 es) es

/-- The last value bound is the one found. -/
theorem find_updated (h : Sorted es) (key : Key) :
    find key (updated es pairs) = (find key pairs.reverse).or (find key es) := by
  induction pairs generalizing es with
  | nil => rfl
  | cons e pairs ih =>
    rw [updated, List.foldl_cons, ← updated, ih (sorted_upsert h), find_upsert h]
    unfold find
    rw [List.reverse_cons, List.find?_append]
    cases List.find? (fun x => decide (x.1 = key)) pairs.reverse with
    | some x => rfl
    | none =>
      by_cases hk : key = e.1
      · simp [hk]
      · simp [hk, Ne.symm hk]

theorem TxTree.inserts (hpairs : ∀ e ∈ pairs, e.1.Valid ∧ e.2.Valid) (hs : s.volume.Sound)
    (hc : Coherent Exact s) (h : TxTree tx s es bs) :
    Returns (pairs.foldlM (fun tx e => Tree.insert tx e.1 e.2) tx) s fun tx' s' =>
      ∃ bs', TxTree tx' s' (updated es pairs) bs' := by
  induction pairs generalizing tx s es bs with
  | nil => exact ⟨bs, h⟩
  | cons e pairs ih =>
    obtain ⟨he, hrest⟩ := List.forall_mem_cons.mp hpairs
    rw [List.foldlM_cons, Returns, wp_bind]
    refine (h.insert hs hc he.1 he.2).returns ?_
    rintro tx' s' ⟨ns, bs', hins, ht⟩
    have hev := hins.moved.evolves
    exact ih hrest (hev.sound hs) hev.cache ht

/-- What the tree under `root` answers about a key. -/
def Tree.Reads (root : Nat) (s : Store) (key : Key) (value : Option Value)
    (next : Bool → Option (Key × Value)) : Prop :=
  (∃ t, Tree.get root key s = .ok value t)
    ∧ ∀ inclusive, ∃ t, Tree.next root key inclusive s = .ok (next inclusive) t

/-- Where nothing is refused, a well-formed tree answers from its map. -/
theorem Rooted.reads {g min root : Nat} (h : Rooted s.view g min root es bs)
    (hs : s.volume.Sound) (hc : Coherent Exact s) (hcalm : Calm s) (key : Key) :
    Tree.Reads root s key (find key es) fun inclusive => after key inclusive es := by
  constructor
  · obtain ⟨_, t, hrun, rfl, -⟩ :=
      ((get_rooted hs hc h key).mono (fun _ _ h => h) fun _ _ h => h.2 hcalm).total
    exact ⟨t, hrun⟩
  · intro inclusive
    obtain ⟨_, t, hrun, rfl, -⟩ :=
      ((next_rooted hs hc h key inclusive).mono (fun _ _ h => h) fun _ _ h => h.2 hcalm).total
    exact ⟨t, hrun⟩

section

variable (hs : s.volume.Sound) (hc : Coherent Exact s)
  (htree : Rooted s.view s.volume.superblock.generation 6 s.volume.superblock.treeRoot es bs)
  (hnodup : bs.Nodup) (hpairs : ∀ e ∈ pairs, e.1.Valid ∧ e.2.Valid)
include hs hc htree hnodup hpairs

theorem run_map :
    Returns (Tree.run pairs) s fun tx s' => ∃ bs', TxTree tx s' (updated es pairs) bs' := by
  unfold Tree.run
  rw [Returns, wp_bind]
  refine (begin_spec Exact.parsed Exact.links hs hc).returns ?_
  rintro tx s1 ⟨h1, hb⟩
  rw [← h1.volume] at hb
  refine (TxTree.of_began hb ?_ hnodup).inserts hpairs (h1.sound hs) h1.cache
  rw [h1.view, h1.volume]
  exact htree

variable (hrun : Tree.run pairs s = .ok tx s')
include hrun

theorem run_tree : s'.volume.Sound ∧ Coherent Exact s'
    ∧ ∃ bs', TxTree tx s' (updated es pairs) bs' := by
  have h := ((run_spec hs hc htree hnodup hpairs).ok hrun).evolves
  exact ⟨h.sound hs, h.cache, (run_map hs hc htree hnodup hpairs).ok hrun⟩

/-- A transaction never outgrows the height limit: seven to the level of the
root's children is no more than the blocks of the arena. -/
theorem run_stays_below_the_height_limit (hroot : tx.root ≠ 0) {n : Node}
    (hn : s'.view tx.root = some n) : n.level + 1 < MAX_HEIGHT := by
  obtain ⟨hs', -, bs', ht⟩ := run_tree hs hc htree hnodup hpairs hrun
  have htree' := ht.tree
  rw [Rooted, if_neg hroot] at htree'
  obtain ⟨l, hl⟩ := htree'
  obtain ⟨m, hm, hlevel⟩ := hl.root_level
  cases hn.symm.trans hm
  rw [hlevel]
  exact hl.height hs' ht.nodup

variable (hcalm : Calm s)
include hcalm

/-- A transaction sees its own writes: the last value the run gave a key, and
the checkpoint's where it gave none. -/
theorem run_reads_its_writes (key : Key) :
    Tree.Reads tx.root s' key ((find key pairs.reverse).or (find key es))
      fun inclusive => after key inclusive (updated es pairs) := by
  have h := (run_spec hs hc htree hnodup hpairs).ok hrun
  obtain ⟨hs', hc', bs', ht⟩ := run_tree hs hc htree hnodup hpairs hrun
  rw [← find_updated htree.sorted]
  exact ht.tree.reads hs' hc' (hcalm.later h.evolves.env) key

/-- A run changes nothing of the trees of the two checkpoints: their blocks hold
the nodes they held, and a key is answered as it was. -/
theorem run_keeps_the_checkpoints {g min root : Nat} {es' : List (Key × Value)} {bs' : List Nat}
    (hroot : root = s.volume.superblock.treeRoot ∨ s.volume.previousTree = some root)
    (hold : Rooted s.view g min root es' bs') :
    (∀ c ∈ bs', s'.view c = s.view c) ∧ Rooted s'.view g min root es' bs' ∧ ∀ key,
      Tree.Reads root s' key (find key es') fun inclusive => after key inclusive es' := by
  have h := (run_spec hs hc htree hnodup hpairs).ok hrun
  have hview : ∀ c ∈ bs', s'.view c = s.view c := by
    intro c hc
    have hreach := (hold.reach_iff c).mpr hc
    refine h.evolves.view fun i hi hw => hw.2 ?_
    rw [show (c * 8 + i) / 8 = c by omega, h.guarded]
    rcases hroot with rfl | hprev
    · exact .inl hreach
    · exact .inr ⟨root, hprev, hreach⟩
  have hnew := hold.congr hview (le_refl g)
  exact ⟨hview, hnew, hnew.reads (h.evolves.sound hs) h.evolves.cache (hcalm.later h.evolves.env)⟩

end

end Runs

/-- Two more objects in `leafStore`, whose leaf splits. -/
theorem leaf_run : ∃ tx s',
    Tree.run [(.object 1, .whiteout), (.object 3, .whiteout)] leafStore = .ok tx s'
    ∧ tx.root ≠ 0 ∧ (s'.view tx.root).map Node.level = some 1 := by
  have hok : (match Tree.run [(.object 1, .whiteout), (.object 3, .whiteout)] leafStore with
      | .ok tx s' => decide (tx.root ≠ 0 ∧ (s'.view tx.root).map Node.level = some 1)
      | .error .. => false) = true := by decide +kernel
  generalize Tree.run [(.object 1, .whiteout), (.object 3, .whiteout)] leafStore = result at hok ⊢
  cases result with
  | ok tx s' => exact ⟨tx, s', rfl, of_decide_eq_true hok⟩
  | error e s' => cases hok

theorem run_stays_below_the_height_limit_leaf : ∃ (s : Store) (root : Nat) (n : Node),
    s.view root = some n ∧ n.level = 1 ∧ n.level + 1 < MAX_HEIGHT := by
  obtain ⟨tx, s', hrun, hroot, hview⟩ := leaf_run
  obtain ⟨n, hn, hlevel⟩ := Option.map_eq_some_iff.mp hview
  exact ⟨s', tx.root, n, hn, hlevel, run_stays_below_the_height_limit leafStore_sound
    leafStore_coherent (leafStore_rooted le_rfl) (by decide) (by decide) hrun hroot hn⟩

theorem run_reads_its_writes_leaf : ∃ root s, Tree.Reads root s (.object 1) (some .whiteout)
    fun inclusive => after (.object 1) inclusive
      (updated leafPairs [(.object 1, .whiteout), (.object 3, .whiteout)]) := by
  obtain ⟨tx, s', hrun, -⟩ := leaf_run
  exact ⟨tx.root, s', run_reads_its_writes leafStore_sound leafStore_coherent
    (leafStore_rooted le_rfl) (by decide) (by decide) hrun ⟨fun _ _ => rfl, le_rfl⟩ (.object 1)⟩

theorem run_keeps_the_checkpoints_leaf : ∃ tx s',
    Tree.run [(.object 1, .whiteout), (.object 3, .whiteout)] leafStore = .ok tx s'
      ∧ s'.view 2 = leafStore.view 2 ∧ Rooted s'.view 1 6 2 leafPairs [2] := by
  obtain ⟨tx, s', hrun, -⟩ := leaf_run
  obtain ⟨hview, hrooted, -⟩ := run_keeps_the_checkpoints leafStore_sound leafStore_coherent
    (leafStore_rooted le_rfl) (by decide) (by decide) hrun ⟨fun _ _ => rfl, le_rfl⟩ (.inl rfl)
    (leafStore_rooted le_rfl)
  exact ⟨tx, s', hrun, hview 2 (List.mem_singleton_self 2), hrooted⟩

end Molt.Fs
