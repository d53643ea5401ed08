/-
The arena: which blocks a transaction may take, and what taking,
returning and marking them does.

A transaction sees the arena through two bitmaps. `Used` and `Guarded`
are what they say of a block; `guarded ⊆ used` is the one relation
between them that everything rests on (`TreeTransaction.Fits`), since
`writeNew` takes a block that is not used and `release` returns one that
is not guarded.

# Marking

`mark` walks the tree under a root and sets the bit of every block it
meets. `Reach V root` is the set it is after. What a walk over parsed
nodes can promise depends on how far the cache is to be trusted: as long
as a cached node names the children its block does (`Links`), no
reachable block is missed; if it is the block's own node, none is added
either.
-/
import Molt.Fs.Proofs.Store

namespace Molt.Fs

open Lib

-- == bitmaps

namespace Bitmap

variable {b : Bitmap} {i j : Nat}

@[simp] theorem length_set : (b.set i).bits.length = b.bits.length := by
  simp [set]

@[simp] theorem length_clear : (b.clear i).bits.length = b.bits.length := by
  simp [clear]

theorem get_set (hi : i < b.bits.length) : (b.set i).get j = true ↔ j = i ∨ b.get j = true := by
  unfold get set
  by_cases h : j = i
  · simp [h, hi]
  · simp [List.getElem?_set_ne (Ne.symm h), h]

theorem get_clear : (b.clear i).get j = true ↔ j ≠ i ∧ b.get j = true := by
  unfold get clear
  by_cases h : j = i
  · subst h
    by_cases hj : j < b.bits.length <;> simp [hj]
  · simp [List.getElem?_set_ne (Ne.symm h), h]

theorem lt_of_get (h : b.get i = true) : i < b.bits.length := by
  by_contra hi
  simp [get, List.getElem?_eq_none (not_lt.mp hi)] at h

theorem firstClear_some (h : b.firstClear = some i) : i < b.bits.length ∧ b.get i = false := by
  obtain ⟨hi, hb, _⟩ := List.findIdx?_eq_some_iff_getElem.mp h
  refine ⟨hi, ?_⟩
  simpa [get, hi] using hb

theorem get_new (n : Nat) : (new n).get i = false := by
  simp only [get, new, List.getD_eq_getElem?_getD, List.getElem?_replicate]
  split <;> rfl

theorem length_new (n : Nat) : (new n).bits.length = n := by simp [new]

end Bitmap

-- == transactions

namespace TreeTransaction

def Used (tx : TreeTransaction) (c : Nat) : Prop :=
  tx.treeAt ≤ c ∧ tx.used.get (c - tx.treeAt) = true

/-- A durable checkpoint reaches block `c`. -/
def Guarded (tx : TreeTransaction) (c : Nat) : Prop :=
  tx.treeAt ≤ c ∧ tx.guarded.get (c - tx.treeAt) = true

instance (tx : TreeTransaction) (c : Nat) : Decidable (tx.Used c) :=
  inferInstanceAs (Decidable (_ ∧ _))

instance (tx : TreeTransaction) (c : Nat) : Decidable (tx.Guarded c) :=
  inferInstanceAs (Decidable (_ ∧ _))

structure Fits (tx : TreeTransaction) (sb : Super) : Prop where
  treeAt : tx.treeAt = sb.treeAt
  used_length : tx.used.bits.length = sb.treeBlocks
  guarded_length : tx.guarded.bits.length = sb.treeBlocks
  guarded_used : ∀ c, tx.Guarded c → tx.Used c

/-- The sectors a transaction may write: those of arena blocks no
durable checkpoint reaches. -/
def MayWrite (tx : TreeTransaction) (sb : Super) (x : Nat) : Prop :=
  sb.InArena (x / 8) ∧ ¬ tx.Guarded (x / 8)

/-- The transaction with block `a` taken. -/
def taken (tx : TreeTransaction) (a : Nat) : TreeTransaction :=
  { tx with used := tx.used.set (a - tx.treeAt) }

/-- The transaction with block `a` returned, if it may be. -/
def released (tx : TreeTransaction) (a : Nat) : TreeTransaction :=
  if tx.Used a ∧ ¬ tx.Guarded a then
    { tx with used := tx.used.clear (a - tx.treeAt) }
  else tx

variable {tx : TreeTransaction} {sb : Super} {a c : Nat}

/-- Taking a block marks it and no other. -/
theorem used_taken (h : tx.Fits sb) (ha : sb.InArena a) :
    (tx.taken a).Used c ↔ c = a ∨ tx.Used c := by
  have h1 := ha.1
  have h2 := ha.2
  rw [← h.treeAt] at h1 h2
  have hlt : a - tx.treeAt < tx.used.bits.length := by
    rw [h.used_length]
    omega
  unfold Used taken
  simp only [Bitmap.get_set hlt]
  constructor
  · rintro ⟨hle, heq | hu⟩
    · exact Or.inl (by omega)
    · exact Or.inr ⟨hle, hu⟩
  · rintro (rfl | ⟨hle, hu⟩)
    · exact ⟨h1, Or.inl rfl⟩
    · exact ⟨hle, Or.inr hu⟩

/-- Releasing a block frees it, unless a checkpoint guards it. -/
theorem used_released : (tx.released a).Used c ↔ tx.Used c ∧ (c ≠ a ∨ tx.Guarded c) := by
  unfold released
  split
  case isFalse h =>
    constructor
    · intro hu
      refine ⟨hu, ?_⟩
      by_cases hc : c = a
      · subst hc
        exact Or.inr (by_contra fun hg => h ⟨hu, hg⟩)
      · exact Or.inl hc
    · exact fun h => h.1
  case isTrue h =>
    unfold Used at *
    simp only [Bitmap.get_clear]
    constructor
    · rintro ⟨hle, hne, hu⟩
      exact ⟨⟨hle, hu⟩, Or.inl fun hc => hne (by rw [hc])⟩
    · rintro ⟨⟨hle, hu⟩, hor⟩
      refine ⟨hle, fun heq => ?_, hu⟩
      have hc : c = a := by
        have := h.1.1
        omega
      rcases hor with hne | hg
      · exact hne hc
      · exact h.2 (hc ▸ hg)

theorem Fits.taken (h : tx.Fits sb) (ha : sb.InArena a) : (tx.taken a).Fits sb :=
  ⟨h.treeAt, by simp [TreeTransaction.taken, h.used_length], h.guarded_length,
    fun _ hc => (used_taken h ha).mpr (Or.inr (h.guarded_used _ hc))⟩

@[simp] theorem guarded_released : (tx.released a).Guarded c ↔ tx.Guarded c := by
  unfold released
  split <;> exact Iff.rfl

theorem Fits.released (h : tx.Fits sb) : (tx.released a).Fits sb := by
  refine ⟨?_, ?_, ?_, fun c hc => ?_⟩
  · unfold TreeTransaction.released
    split <;> exact h.treeAt
  · unfold TreeTransaction.released
    split
    · simp [h.used_length]
    · exact h.used_length
  · unfold TreeTransaction.released
    split <;> exact h.guarded_length
  · rw [guarded_released] at hc
    exact used_released.mpr ⟨h.guarded_used c hc, Or.inr hc⟩

end TreeTransaction

-- == taking and returning

section Blocks

variable {T : Option Node → Node → Prop} {s : Store} {tx : TreeTransaction}

/-- The relation a cache is kept in holds of a node just written. -/
def Kept (T : Option Node → Node → Prop) (n : Node) : Prop :=
  ∀ b : Block, (∀ i < 8, b i = .node n i) → T b.load.toOption n

theorem Exact.kept {n : Node} (hn : n.WF) : Kept Exact n := by
  intro b hb
  rw [Block.load_of_nodes hn hb]
  rfl

structure Took (T : Option Node → Node → Prop) (tx : TreeTransaction) (n : Node)
    (s : Store) (a : Nat) (s' : Store) : Prop where
  arena : s.volume.superblock.InArena a
  free : ¬ tx.Used a
  evolves : Evolves T (fun x => x / 8 = a) s s'
  blocks : ∀ i < 8, s'.volume.blockAt a i = .node n i

theorem Took.view_other {n : Node} {a c : Nat} {s' : Store}
    (h : Took T tx n s a s') (hc : c ≠ a) : s'.view c = s.view c := by
  refine h.evolves.view fun i hi => ?_
  omega

theorem Took.view_self {n : Node} {a : Nat} {s' : Store}
    (h : Took T tx n s a s') (hn : n.WF) : s'.view a = some n := by
  unfold Store.view Volume.view
  rw [if_pos (by rw [h.evolves.superblock]; exact h.arena), Block.load_of_nodes hn h.blocks]
  rfl

theorem apply_nodes (n : Node) (f : Nat → Sector) (a : Nat) {i : Nat} (hi : i < 8) :
    Write.apply ⟨a * 8, (List.range 8).map (Sector.node n)⟩ f (a * 8 + i) = .node n i := by
  rw [Write.apply_of_covers (w := ⟨a * 8, (List.range 8).map (Sector.node n)⟩) (by simpa using hi)]
  simp

/-- `write_new` takes a free block and writes the node there. -/
theorem writeNew_spec (hc : Coherent T s)
    (hfit : tx.Fits s.volume.superblock) {n : Node} (hT : Kept T n) :
    Wp (Tree.writeNew tx n) s
      (fun r s' => ∃ a, r = (tx.taken a, a) ∧ Took T tx n s a s')
      (fun _ s' => Still T s s') := by
  unfold Tree.writeNew
  simp only [wp_bind, wp_get, wp_okOr]
  refine ⟨fun off hoff => ?_, fun _ => .refl hc⟩
  obtain ⟨hlt, hclear⟩ := Bitmap.firstClear_some hoff
  rw [hfit.used_length] at hlt
  generalize hsb : s.volume.superblock = sb at *
  obtain ⟨a, ha⟩ : ∃ a, a = sb.treeAt + off := ⟨_, rfl⟩
  have harena : sb.InArena a := by
    subst ha
    exact ⟨Nat.le_add_right _ _, by omega⟩
  have hoffa : a - tx.treeAt = off := by
    rw [hfit.treeAt]
    omega
  have hfree : ¬ tx.Used a := by
    rintro ⟨_, hu⟩
    rw [hoffa, hclear] at hu
    cases hu
  unfold writeTreeBlock
  simp only [wp_bind, wp_get, wp_okOr, wp_ensure, ← ha, hsb]
  refine ⟨fun fin _ => ⟨fun _ => ⟨fun _ => ?_, fun _ => .refl hc⟩,
    fun _ => .refl hc⟩, fun _ => .refl hc⟩
  refine (writeSectors_spec hc _ _).mono ?_ fun _ _ h => h.1
  rintro _ s1 rfl
  simp only [Tree.keep, wp_modify, wp_pure]
  refine ⟨a, ?_, ⟨hsb ▸ harena, hfree, ?_, ?_⟩⟩
  · simp only [TreeTransaction.taken, hoffa]
  · -- only the block's own sectors changed, and the cache has the new node
    have hcov : ∀ x, (Write.Covers ⟨a * 8, (List.range 8).map (Sector.node n)⟩ x) → x / 8 = a := by
      rintro x ⟨h1, h2⟩
      simp only [List.length_map, List.length_range] at h1 h2
      omega
    have hblocks : ∀ i < 8, (s.tick.wrote ⟨a * 8, (List.range 8).map
        (Sector.node n)⟩).volume.blockAt a i = .node n i := by
      intro i hi
      exact apply_nodes n s.volume.disk.read a hi
    have hev : Disk.Wrote (fun x => x / 8 = a) s.volume.disk
        (s.tick.wrote ⟨a * 8, (List.range 8).map (Sector.node n)⟩).volume.disk :=
      Disk.Wrote.write _ hcov
    refine ⟨hev, rfl, ⟨rfl, rfl, Nat.le_succ _⟩, ?_⟩
    refine Sieve.Holds.put (R := fun b n => T (s.view b) n) hc ?_ ?_
    · show T (Volume.view _ a) n
      unfold Volume.view
      rw [if_pos (by show s.volume.superblock.InArena a; rw [hsb]; exact harena)]
      exact hT _ hblocks
    · intro c m hne hm
      have hview : Volume.view (s.tick.wrote ⟨a * 8, (List.range 8).map
          (Sector.node n)⟩).volume c = s.view c := by
        unfold Store.view Volume.view
        refine if_congr Iff.rfl (congrArg _ (Block.load_congr fun i hi => ?_)) rfl
        exact hev.read_eq (show ¬ (c * 8 + i) / 8 = a by omega)
      show T (Volume.view _ c) m
      exact hview ▸ hm
  · intro i hi
    exact apply_nodes n s.volume.disk.read a hi

theorem release_spec (hs : s.volume.Sound) (hc : Coherent T s)
    (hfit : tx.Fits s.volume.superblock) (a : Nat) :
    Wp (Tree.release tx a) s
      (fun tx' s' => tx' = tx.released a ∧ Still T s s') (fun _ _ => False) := by
  have hmax := hs.geometry.treeBlocks_le
  unfold Tree.release
  cases hsub : checkedSub a tx.treeAt with
  | none =>
    rw [checkedSub_eq_none] at hsub
    refine ⟨?_, .refl hc⟩
    rw [TreeTransaction.released, if_neg]
    exact fun h => absurd h.1.1 (not_le.mpr hsub)
  | some off =>
    obtain ⟨hle, rfl⟩ := checkedSub_eq_some.mp hsub
    simp only
    split
    case isTrue h =>
      obtain ⟨_, hg, hu⟩ := h
      simp only [wp_bind, wp_modify, wp_pure]
      refine ⟨?_, rfl, .refl _, Sieve.Holds.forget hc fun _ _ _ h => h⟩
      rw [TreeTransaction.released, if_pos]
      refine ⟨⟨hle, hu⟩, fun hg' => ?_⟩
      rw [hg'.2] at hg
      cases hg
    case isFalse h =>
      refine ⟨?_, .refl hc⟩
      rw [TreeTransaction.released, if_neg]
      rintro ⟨hu, hg⟩
      refine h ⟨?_, ?_, hu.2⟩
      · have := Bitmap.lt_of_get hu.2
        rw [hfit.used_length] at this
        omega
      · exact Bool.not_eq_true _ ▸ fun hgt => hg ⟨hle, hgt⟩

end Blocks

-- == marking

/-- The blocks reached from `root` through the links of inner nodes. -/
inductive Reach (V : Nat → Option Node) (root : Nat) : Nat → Prop where
  | root : Reach V root root
  | link {b c : Nat} {n : Node} : Reach V root b → V b = some n → n.level ≠ 0 →
      c ∈ n.links → Reach V root c

/-- A cached node names the children its block does. -/
def Links (T : Option Node → Node → Prop) : Prop :=
  ∀ n m : Node, T (some m) n → m.level = n.level ∧ (n.level ≠ 0 → m.links = n.links)

theorem Exact.links : Links Exact := by
  rintro n m h
  cases h
  exact ⟨rfl, fun _ => rfl⟩

section Marking

variable {T : Option Node → Node → Prop} {s : Store}

def Marked (sb : Super) (bits : Bitmap) (c : Nat) : Prop :=
  sb.treeAt ≤ c ∧ bits.get (c - sb.treeAt) = true

/-- What a marking walk keeps: every child of a marked block is marked or
still to be visited. -/
def Walked (V : Nat → Option Node) (sb : Super) (bits : Bitmap) (pending : List Nat) : Prop :=
  ∀ c n, Marked sb bits c → V c = some n → n.level ≠ 0 →
    ∀ d ∈ n.links, Marked sb bits d ∨ d ∈ pending

theorem Walked.reach {V : Nat → Option Node} {sb : Super} {bits : Bitmap}
    (h : Walked V sb bits []) {root c : Nat} (hr : Marked sb bits root)
    (hc : Reach V root c) : Marked sb bits c := by
  induction hc with
  | root => exact hr
  | link _ hn hl hd ih =>
    rcases h _ _ ih hn hl _ hd with h | h
    · exact h
    · cases h

theorem marked_set {sb : Super} {bits : Bitmap} {b c : Nat} (hb : sb.InArena b)
    (hlen : bits.bits.length = sb.treeBlocks) :
    Marked sb (bits.set (b - sb.treeAt)) c ↔ c = b ∨ Marked sb bits c := by
  have h1 := hb.1
  have h2 := hb.2
  unfold Marked
  rw [Bitmap.get_set (by omega)]
  constructor
  · rintro ⟨hle, heq | hu⟩
    · exact Or.inl (by omega)
    · exact Or.inr ⟨hle, hu⟩
  · rintro (rfl | ⟨hle, hu⟩)
    · exact ⟨h1, Or.inl rfl⟩
    · exact ⟨hle, Or.inr hu⟩

structure MarkedFrom (T : Option Node → Node → Prop) (V : Nat → Option Node)
    (sb : Super) (pending : List Nat) (bits bits' : Bitmap) : Prop where
  length : bits'.bits.length = sb.treeBlocks
  old : ∀ c, Marked sb bits c → Marked sb bits' c
  roots : ∀ p ∈ pending, Marked sb bits' p
  closed : Walked V sb bits' []
  exactly : (∀ o n, T o n → o = some n) → ∀ c, Marked sb bits' c →
    Marked sb bits c ∨ ∃ p ∈ pending, Reach V p c

theorem Reach.head {V : Nat → Option Node} {b c d : Nat} {n : Node}
    (hn : V b = some n) (hl : n.level ≠ 0) (hd : d ∈ n.links) (hc : Reach V d c) :
    Reach V b c := by
  induction hc with
  | root => exact .link .root hn hl hd
  | link _ hn' hl' hd' ih => exact .link ih hn' hl' hd'

/-- The walk marks what is reachable from the blocks pending. -/
theorem markFrom_spec (hT : Parsed T) (hL : Links T) (fuel : Nat)
    {s : Store} (hs : s.volume.Sound) (hc : Coherent T s) {pending : List Nat}
    {bits : Bitmap} (hlen : bits.bits.length = s.volume.superblock.treeBlocks)
    (hw : Walked s.view s.volume.superblock bits pending) :
    Wp (Tree.markFrom fuel pending bits) s
      (fun bits' s' => Still T s s' ∧ MarkedFrom T s.view s.volume.superblock pending bits bits')
      (fun _ s' => Still T s s') := by
  induction fuel generalizing s pending bits with
  | zero => exact .refl hc
  | succ fuel ih =>
    cases pending with
    | nil =>
      exact ⟨.refl hc, hlen, fun _ h => h, by simp, hw, fun _ _ h => Or.inl h⟩
    | cons addr pending =>
      rw [Tree.markFrom, wp_bind, wp_get, wp_bind, wp_lift]
      refine ⟨fun off hoff => ?_, fun _ _ => .refl hc⟩
      obtain ⟨ha, heq⟩ := treeOffset_ok.mp hoff
      have hoff' : addr - s.volume.superblock.treeAt = off := by omega
      split
      case isTrue hset =>
        have hm : Marked s.volume.superblock bits addr := ⟨ha.1, by rw [hoff']; exact hset⟩
        have hw' : Walked s.view s.volume.superblock bits pending := by
          intro c n h1 h2 h3 d hd
          rcases hw c n h1 h2 h3 d hd with h | h
          · exact Or.inl h
          · rcases List.mem_cons.mp h with rfl | h
            · exact Or.inl hm
            · exact Or.inr h
        refine (ih hs hc hlen hw').mono ?_ fun _ _ h => h
        rintro bits' s1 ⟨h1, hbits⟩
        refine ⟨h1, hbits.length, hbits.old, ?_, hbits.closed, ?_⟩
        · intro p hp
          rcases List.mem_cons.mp hp with rfl | hp
          · exact hbits.old _ hm
          · exact hbits.roots p hp
        · intro hx c hc'
          rcases hbits.exactly hx c hc' with h | ⟨p, hp, h⟩
          · exact Or.inl h
          · exact Or.inr ⟨p, List.mem_cons_of_mem _ hp, h⟩
      case isFalse hclear =>
        rw [wp_bind]
        refine (read_spec hT hs hc addr).mono ?_ fun _ _ h => h.1
        rintro n s1 ⟨hTn, _, h1⟩
        have hset : ∀ c, Marked s.volume.superblock (bits.set off) c
            ↔ c = addr ∨ Marked s.volume.superblock bits c := by
          intro c
          rw [← hoff']
          exact marked_set ha hlen
        -- whichever way the walk goes on, from the children of `addr`
        -- that are links `ds`, the marks after it are these
        have hfinish : ∀ {s2 : Store} {ds : List Nat} {bits' : Bitmap},
            (∀ m, s.view addr = some m → m.level ≠ 0 → ∀ d ∈ m.links, d ∈ ds) →
            ((∀ o n, T o n → o = some n) → ∀ d ∈ ds, n.level ≠ 0 ∧ d ∈ n.links) →
            Still T s s2 →
            MarkedFrom T s.view s.volume.superblock (ds ++ pending) (bits.set off) bits' →
            Still T s s2 ∧ MarkedFrom T s.view s.volume.superblock
              (addr :: pending) bits bits' := by
          intro s2 ds bits' _ hsub h2 hbits
          have hold : Marked s.volume.superblock bits' addr :=
            hbits.old _ ((hset addr).mpr (Or.inl rfl))
          refine ⟨h2, hbits.length, fun c h => hbits.old c ((hset c).mpr (Or.inr h)),
            ?_, hbits.closed, ?_⟩
          · intro p hp
            rcases List.mem_cons.mp hp with rfl | hp
            · exact hold
            · exact hbits.roots p (List.mem_append_right _ hp)
          · intro hx c hc'
            have hv : s.view addr = some n := hx _ _ hTn
            rcases hbits.exactly hx c hc' with h | ⟨p, hp, h⟩
            · rcases (hset c).mp h with rfl | h
              · exact Or.inr ⟨c, List.mem_cons_self, .root⟩
              · exact Or.inl h
            · rcases List.mem_append.mp hp with hp | hp
              · obtain ⟨hl, hd⟩ := hsub hx p hp
                exact Or.inr ⟨addr, List.mem_cons_self, .head hv hl hd h⟩
              · exact Or.inr ⟨p, List.mem_cons_of_mem _ hp, h⟩
        have hstep : ∀ {ds : List Nat},
            (∀ m, s.view addr = some m → m.level ≠ 0 → ∀ d ∈ m.links, d ∈ ds) →
            Walked s.view s.volume.superblock (bits.set off) (ds ++ pending) := by
          intro ds hds c m h1 h2 h3 d hd
          rcases (hset c).mp h1 with rfl | h1
          · exact Or.inr (List.mem_append_left _ (hds m h2 h3 d hd))
          · rcases hw c m h1 h2 h3 d hd with h | h
            · exact Or.inl ((hset d).mpr (Or.inr h))
            · rcases List.mem_cons.mp h with rfl | h
              · exact Or.inl ((hset d).mpr (Or.inl rfl))
              · exact Or.inr (List.mem_append_right _ h)
        split
        case isTrue hleaf =>
          have hds : ∀ m, s.view addr = some m → m.level ≠ 0 →
              ∀ d ∈ m.links, d ∈ ([] : List Nat) := by
            intro m hm hl
            rw [hm] at hTn
            exact absurd ((hL n m hTn).1.trans hleaf) hl
          have hw1 := hstep hds
          rw [← h1.view, ← h1.volume] at hw1
          refine (ih (h1.sound hs) h1.cache ?_ hw1).mono ?_ fun _ _ h => h1.trans h
          · rw [Bitmap.length_set, hlen, h1.volume]
          · rintro bits' s2 ⟨h2, hbits⟩
            rw [h1.view, h1.volume] at hbits
            exact hfinish hds (by simp) (h1.trans h2) hbits
        case isFalse hinner =>
          have hds : ∀ m, s.view addr = some m → m.level ≠ 0 →
              ∀ d ∈ m.links, d ∈ n.links.reverse := by
            intro m hm hl d hd
            rw [hm] at hTn
            rw [List.mem_reverse, ← (hL n m hTn).2 hinner]
            exact hd
          simp only [wp_bind, wp_ensure]
          refine ⟨fun _ => ?_, fun _ => h1⟩
          refine (gate_spec h1.cache).mono ?_ fun _ _ h => h1.trans h.1
          intro _ s2 h2
          have h12 := h1.trans h2
          have hw1 := hstep hds
          rw [← h12.view, ← h12.volume] at hw1
          refine (ih (h12.sound hs) h12.cache ?_ hw1).mono ?_ fun _ _ h => h12.trans h
          · rw [Bitmap.length_set, hlen, h12.volume]
          · rintro bits' s3 ⟨h3, hbits⟩
            rw [h12.view, h12.volume] at hbits
            exact hfinish hds (fun _ d hd => ⟨hinner, List.mem_reverse.mp hd⟩) (h12.trans h3) hbits

theorem mark_spec (hT : Parsed T) (hL : Links T) {s : Store} (hs : s.volume.Sound)
    (hc : Coherent T s) (root : Nat) {bits : Bitmap}
    (hlen : bits.bits.length = s.volume.superblock.treeBlocks)
    (hw : Walked s.view s.volume.superblock bits []) :
    Wp (Tree.mark root bits) s
      (fun bits' s' => Still T s s' ∧ MarkedFrom T s.view s.volume.superblock
        (if root = 0 then [] else [root]) bits bits')
      (fun _ s' => Still T s s') := by
  unfold Tree.mark
  split
  case isTrue h0 =>
    exact ⟨.refl hc, hlen, fun _ h => h, by simp, hw, fun _ _ h => Or.inl h⟩
  case isFalse h0 =>
    simp only [wp_bind]
    refine (gate_spec hc).mono ?_ fun _ _ h => h.1
    intro _ s1 h1
    rw [wp_get]
    have hw1 : Walked s1.view s1.volume.superblock bits [root] := by
      rw [h1.view, h1.volume]
      intro c n a1 a2 a3 d hd
      rcases hw c n a1 a2 a3 d hd with h | h
      · exact Or.inl h
      · cases h
    refine (markFrom_spec hT hL _ (h1.sound hs) h1.cache
      (by rw [hlen, h1.volume]) hw1).mono ?_ fun _ _ h => h1.trans h
    rintro bits' s2 ⟨h2, hbits⟩
    rw [h1.view, h1.volume] at hbits
    exact ⟨h1.trans h2, hbits⟩

end Marking

theorem Reach.congr {V V' : Nat → Option Node} {root c : Nat}
    (hV : ∀ b, Reach V root b → V' b = V b) : Reach V' root c ↔ Reach V root c := by
  constructor
  · intro h
    induction h with
    | root => exact .root
    | link _ hn hl hd ih => exact .link ih (hV _ ih ▸ hn) hl hd
  · intro h
    induction h with
    | root => exact .root
    | link hb hn hl hd ih => exact .link ih ((hV _ hb).trans hn) hl hd

-- == beginning

section Beginning

variable {T : Option Node → Node → Prop} {s : Store}

/-- The blocks the durable checkpoints of a volume hold on to. -/
def Volume.Durable (v : Volume) (c : Nat) : Prop :=
  (v.superblock.treeRoot ≠ 0 ∧ Reach v.view v.superblock.treeRoot c)
    ∨ ∃ root, v.previousTree = some root ∧ root ≠ 0 ∧ Reach v.view root c

/-- A transaction just opened on `v`. -/
structure Began (T : Option Node → Node → Prop) (v : Volume)
    (tx : TreeTransaction) : Prop where
  fits : tx.Fits v.superblock
  root : tx.root = v.superblock.treeRoot
  generation : tx.generation = v.superblock.generation + 1
  generation_lt : tx.generation < 2 ^ 64
  fresh : tx.used = tx.guarded
  guards : ∀ c, v.Durable c → tx.Guarded c
  exactly : (∀ o n, T o n → o = some n) → ∀ c, tx.Guarded c → v.Durable c

theorem walked_new (V : Nat → Option Node) (sb : Super) :
    Walked V sb (Bitmap.new sb.treeBlocks) [] := by
  intro c n h
  rw [Marked, Bitmap.get_new] at h
  cases h.2

/-- `begin` counts in the blocks of both checkpoints. -/
theorem begin_spec (hT : Parsed T) (hL : Links T) (hs : s.volume.Sound)
    (hc : Coherent T s) :
    Wp Tree.begin s (fun tx s' => Still T s s' ∧ Began T s.volume tx)
      (fun _ s' => Still T s s') := by
  unfold Tree.begin
  simp only [wp_bind, wp_get, wp_okOr]
  refine ⟨fun gen hgen => ?_, fun _ => .refl hc⟩
  obtain ⟨hlt, rfl⟩ := checkedAdd_eq_some.mp hgen
  refine (gate_spec hc).mono ?_ fun _ _ h => h.1
  intro _ s1 h1
  refine (gate_spec h1.cache).mono ?_ fun _ _ h => h1.trans h.1
  intro _ s2 h2
  have h12 := h1.trans h2
  have hw2 := walked_new s2.view s.volume.superblock
  refine (mark_spec hT hL (h12.sound hs) h12.cache _
    (by rw [Bitmap.length_new, h12.volume]) (by rw [h12.volume]; exact hw2)).mono ?_
    fun _ _ h => h12.trans h
  rintro bits s3 ⟨h3, hb1⟩
  rw [h12.view, h12.volume] at hb1
  have h13 := h12.trans h3
  have hnone : ∀ c, ¬ Marked s.volume.superblock (Bitmap.new s.volume.superblock.treeBlocks) c := by
    rintro c ⟨_, h⟩
    rw [Bitmap.get_new] at h
    cases h
  -- the second walk, over the previous checkpoint's tree if it has one
  have hsecond : Wp (Tree.markPrevious s.volume.previousTree bits) s3
      (fun bits' s' => Still T s s' ∧ MarkedFrom T s.view s.volume.superblock
        ((s.volume.previousTree.filter (· != 0)).toList) bits bits')
      (fun _ s' => Still T s s') := by
    cases s.volume.previousTree with
    | none =>
      exact ⟨h13, hb1.length, fun _ h => h, by simp, hb1.closed, fun _ _ h => Or.inl h⟩
    | some root =>
      have hw3 := hb1.closed
      rw [← h13.view] at hw3
      refine (mark_spec hT hL (h13.sound hs) h13.cache root
        (by rw [hb1.length, h13.volume]) (by rw [h13.volume]; exact hw3)).mono ?_
        fun _ _ h => h13.trans h
      rintro bits' s4 ⟨h4, hb2⟩
      rw [h13.view, h13.volume] at hb2
      refine ⟨h13.trans h4, ?_⟩
      by_cases h0 : root = 0
      · simpa [h0, Option.filter] using hb2
      · simpa [h0, Option.filter] using hb2
  refine Wp.mono hsecond ?_ fun _ _ h => h
  rintro bits' s4 ⟨h4, hb2⟩
  refine (gate_spec h4.cache).mono ?_ fun _ _ h => h4.trans h.1
  intro _ s5 h5
  refine ⟨h4.trans h5, ⟨rfl, hb2.length, hb2.length, fun _ h => h⟩, rfl, rfl, hlt, rfl, ?_, ?_⟩
  · rintro c (⟨hr, hc'⟩ | ⟨root, hp, hr, hc'⟩)
    · have hroot := hb1.roots s.volume.superblock.treeRoot (by simp [hr])
      exact hb2.old _ (hb1.closed.reach hroot hc')
    · have hroot := hb2.roots root (by simp [hp, hr, Option.filter])
      exact hb2.closed.reach hroot hc'
  · intro hx c hc'
    rcases hb2.exactly hx c hc' with h | ⟨p, hp, h⟩
    · rcases hb1.exactly hx c h with h | ⟨p, hp, h⟩
      · exact absurd h (hnone c)
      · by_cases hr : s.volume.superblock.treeRoot = 0
        · simp [hr] at hp
        · simp only [hr, if_false, List.mem_singleton] at hp
          exact Or.inl ⟨hr, hp ▸ h⟩
    · cases hpt : s.volume.previousTree with
      | none => simp [hpt] at hp
      | some root =>
        by_cases hr : root = 0
        · simp [hpt, hr, Option.filter] at hp
        · simp only [hpt, Option.filter, bne_iff_ne, ne_eq, hr, not_false_eq_true,
            if_true, Option.toList_some, List.mem_singleton] at hp
          exact Or.inr ⟨root, hpt, hr, hp ▸ h⟩

end Beginning

end Molt.Fs
