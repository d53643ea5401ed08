/-
What a refused grant or revoke leaves behind
(`platform/riscv/src/paging.rs`, `platform/x86_64/src/memory.rs`: `grant`,
`revoke`, `map_leaf`).

# Where a call is refused

The leaves are written one by one and nothing is taken back, so a refused call
has written the leaves before the one it was refused at. Which one that is can
be told from the tables before the call: a leaf of a grant is refused if a
larger leaf covers it, or if the tables missing for it and for the leaves
before it are more than the pool has (`Refused`); a leaf of a revoke is
refused if it is not there.

# Counting tables

`Reaches` says that a table of a level is there for an address. Mapping a leaf
adds exactly the tables on its way that were missing (`Owned.reach_count`), so
the tables that all leaves up to one need are a set of places, and its size is
what the pool has to have.
-/
import Molt.Platform.Proofs.Paging

namespace Molt.Platform.Paging

open Molt.Lib Tables Finset List

variable {p : Port}

-- == paths

section Paths

variable {own own' : Nat → Option Place} {s s' : Tables} {v va va' root level l : Nat}

def Reaches (p : Port) (s : Tables) (root va l : Nat) : Prop := ∃ t, Path p s va p.top root l t

/-- A leaf above the level covers the address. -/
def Covered (p : Port) (s : Tables) (root va level : Nat) : Prop :=
  ∃ l t, level < l ∧ Path p s va p.top root l t ∧ p.kind l (s.heap t (index va l)) = .leaf

theorem Path.unique {n f t t' : Nat} (h : Path p s va n f l t) (h' : Path p s va n f l t') :
    t = t' := by
  induction h with
  | here => exact h'.eq_of_level rfl
  | down _ hpath ih =>
    have hle := hpath.le
    exact ih (h'.down_of_lt (by omega)).2

theorem Path.through {n f t : Nat} (h : Path p s va n f l t) {m : Nat} (hl : l ≤ m)
    (hm : m ≤ n) : ∃ u, Path p s va n f m u ∧ Path p s va m u l t := by
  induction h with
  | here l t =>
    obtain rfl : m = l := by omega
    exact ⟨t, .here _ _, .here _ _⟩
  | @down n f l t hk hpath ih =>
    by_cases heq : m = n + 1
    · subst heq
      exact ⟨f, .here _ _, .down hk hpath⟩
    · obtain ⟨u, hu, hrest⟩ := ih hl (by omega)
      exact ⟨u, .down hk hu, hrest⟩

theorem Reaches.mono (h : Reaches p s root va l) {m : Nat} (hl : l ≤ m) (hm : m ≤ p.top) :
    Reaches p s root va m := by
  obtain ⟨t, ht⟩ := h
  obtain ⟨u, hu, -⟩ := ht.through hl hm
  exact ⟨u, hu⟩

theorem Reaches.of_slot (h : Reaches p s root va l)
    (hslot : slot p va' (l + 1) = slot p va (l + 1)) : Reaches p s root va' l := by
  obtain ⟨t, ht⟩ := h
  exact ⟨t, ht.of_slot le_rfl hslot⟩

theorem Reaches.table (h : Reaches p s root va l) {t : Nat}
    (ht : Path p s va p.top root (l + 1) t) :
    p.kind (l + 1) (s.heap t (index va (l + 1))) = .table := by
  obtain ⟨u, hu⟩ := h
  obtain ⟨t', ht', hrest⟩ := hu.through (Nat.le_succ l) ht.le
  obtain rfl := ht.unique ht'
  exact (hrest.down_of_lt (by omega)).1

theorem reaches_iff (h : l ≤ p.top) :
    Reaches p s root va l ↔ s.tableAt p va l (p.top - l) root ≠ none := by
  have hn : l + (p.top - l) = p.top := by omega
  constructor
  · rintro ⟨t, ht⟩
    rw [Path.tableAt (by rw [hn]; exact ht)]
    exact nofun
  · intro hne
    cases ht : s.tableAt p va l (p.top - l) root with
    | none => exact absurd ht hne
    | some t =>
      have := tableAt_path ht
      rw [hn] at this
      exact ⟨t, this⟩

-- -- one step down

/-- The paths after a step that changes one entry: those through the entry
are new, the others are as they were. -/
theorem Path.of_entry {n f t table i : Nat} (h : Path p s' va' n f l t) (hs : Owned p own s)
    (hf : own f = some ⟨v, n, slot p va' (n + 1)⟩)
    (hsame : ∀ {g place j}, own g = some place → ¬ (g = table ∧ j = i) → s'.heap g j = s.heap g j) :
    Path p s va' n f l t ∨ ∃ m, index va' (m + 1) = i ∧ m < n
      ∧ own table = some ⟨v, m + 1, slot p va' (m + 2)⟩
      ∧ p.kind (m + 1) (s'.heap table i) = .table
      ∧ Path p s' va' m (p.base (s'.heap table i)) l t := by
  induction h with
  | here l t => exact .inl (.here l t)
  | @down n f l t hk hpath ih =>
    by_cases hhere : f = table ∧ index va' (n + 1) = i
    · obtain ⟨rfl, rfl⟩ := hhere
      exact .inr ⟨n, rfl, Nat.lt_succ_self n, hf, hk, hpath⟩
    have hword := hsame hf hhere
    rw [hword] at hk hpath ih
    obtain ⟨l', hl', hnext⟩ := hs.next hf hk
    obtain rfl : n = l' := Nat.succ.inj hl'
    rcases ih hnext with hold | ⟨m, hi, hm, hrest⟩
    · exact .inl (.down hk hold)
    · exact .inr ⟨m, hi, by omega, hrest⟩

theorem Path.keep {n f t table i : Nat} (h : Path p s va' n f l t) (hs : Owned p own s)
    (hf : own f = some ⟨v, n, slot p va' (n + 1)⟩)
    (hsame : ∀ {g place j}, own g = some place → ¬ (g = table ∧ j = i) → s'.heap g j = s.heap g j)
    (hunused : ∀ m, own table = some ⟨v, m + 1, slot p va' (m + 2)⟩ →
      p.kind (m + 1) (s.heap table i) ≠ .table) : Path p s' va' n f l t := by
  induction h with
  | here l t => exact .here l t
  | @down n f l t hk hpath ih =>
    have hword := hsame (j := index va' (n + 1)) hf (by
      rintro ⟨rfl, rfl⟩
      exact hunused n hf hk)
    obtain ⟨l', hl', hnext⟩ := hs.next hf hk
    obtain rfl : n = l' := Nat.succ.inj hl'
    apply Path.down
    · rw [hword]
      exact hk
    · rw [hword]
      exact ih hnext

/-- What the tables say of every address is the same but for one table. -/
structure Grown (p : Port) (s s' : Tables) (root : Nat) (new : Nat → Nat → Prop) : Prop where
  reaches : ∀ va l, Reaches p s' root va l ↔ Reaches p s root va l ∨ new va l
  covered : ∀ va level, Covered p s' root va level ↔ Covered p s root va level

/-- An empty table where there was nothing is one table more. -/
theorem Owned.grown_absent (h : Owned p own s) (hroot : s.root v = some root)
    {table i : Nat} (hpath : Path p s va p.top root (l + 1) table)
    (hi : index va (l + 1) = i)
    (hold : p.kind (l + 1) (s.heap table i) = .absent)
    (hsame : ∀ {g place j}, own g = some place → ¬ (g = table ∧ j = i) → s'.heap g j = s.heap g j)
    (hnew : p.kind (l + 1) (s'.heap table i) = .table)
    (hempty : ∀ j, p.kind l (s'.heap (p.base (s'.heap table i)) j) = .absent) :
    Grown p s s' root fun va' m => m = l ∧ slot p va' (l + 1) = slot p va (l + 1) := by
  have htable := hpath.place h (h.top hroot va)
  have hle := h.level htable
  dsimp only at hle
  -- a path through the entry is one to the new table
  have hthrough : ∀ {va' m t n}, Path p s' va' n (p.base (s'.heap table i)) m t → n = l →
      m = l ∧ t = p.base (s'.heap table i) := by
    intro va' m t n hp hn
    subst hn
    by_cases hm : m = n
    · exact ⟨hm, (hp.eq_of_level hm.symm).symm⟩
    have hle' := hp.le
    obtain ⟨k, rfl⟩ : ∃ k, n = k + 1 := ⟨n - 1, by omega⟩
    have hk := (hp.down_of_lt (by omega)).1
    rw [hempty] at hk
    cases hk
  have hplace : ∀ {va' m}, own table = some ⟨v, m + 1, slot p va' (m + 2)⟩ →
      index va' (m + 1) = i → m = l ∧ slot p va' (l + 1) = slot p va (l + 1) := by
    intro va' m hown hidx
    have heq := Option.some.inj (htable.symm.trans hown)
    simp only [Place.mk.injEq, Nat.add_right_cancel_iff, true_and] at heq
    obtain ⟨rfl, hslot⟩ := heq
    refine ⟨rfl, ?_⟩
    rw [← slot_eq hle, ← slot_eq hle va, hidx, hi]
    exact congrArg (fun x => FANOUT * x + i) hslot.symm
  have hkeep : ∀ {va' m t}, Path p s va' p.top root m t → Path p s' va' p.top root m t := by
    intro va' m t hp
    refine hp.keep h (h.top hroot va') hsame ?_
    intro m' hm' hk
    have heq := Option.some.inj (htable.symm.trans hm')
    simp only [Place.mk.injEq, Nat.add_right_cancel_iff, true_and] at heq
    obtain ⟨rfl, -⟩ := heq
    rw [hold] at hk
    cases hk
  constructor
  · intro va' m
    constructor
    · rintro ⟨t, ht⟩
      rcases ht.of_entry h (h.top hroot va') hsame with hp | ⟨m', hidx, -, hown, -, hp⟩
      · exact .inl ⟨t, hp⟩
      · obtain ⟨rfl, hslot⟩ := hplace hown hidx
        exact .inr ⟨(hthrough hp rfl).1, hslot⟩
    · rintro (⟨t, ht⟩ | ⟨rfl, hslot⟩)
      · exact ⟨t, hkeep ht⟩
      have hidx : index va' (m + 1) = i := by
        rw [← hi]
        exact index_of_slot hle hslot
      have hp := hkeep (hpath.of_slot le_rfl (slot_mono 1 hslot))
      exact ⟨_, hp.trans (by rw [hidx]; exact hnew)⟩
  · intro va' level
    constructor
    · rintro ⟨m, t, hm, ht, hleaf⟩
      rcases ht.of_entry h (h.top hroot va') hsame with hp | ⟨m', hidx, -, hown, -, hp⟩
      · have ht' := hp.place h (h.top hroot va')
        refine ⟨m, t, hm, hp, ?_⟩
        rw [← hsame ht']
        · exact hleaf
        rintro ⟨rfl, hidx⟩
        have heq := Option.some.inj (htable.symm.trans ht')
        simp only [Place.mk.injEq, true_and] at heq
        obtain ⟨rfl, -⟩ := heq
        rw [hidx, hnew] at hleaf
        cases hleaf
      · obtain ⟨rfl, -⟩ := hplace hown hidx
        obtain ⟨rfl, rfl⟩ := hthrough hp rfl
        rw [hempty] at hleaf
        cases hleaf
    · rintro ⟨m, t, hm, ht, hleaf⟩
      have ht' := ht.place h (h.top hroot va')
      refine ⟨m, t, hm, hkeep ht, ?_⟩
      rw [hsame ht']
      · exact hleaf
      rintro ⟨rfl, hidx⟩
      have heq := Option.some.inj (htable.symm.trans ht')
      simp only [Place.mk.injEq, true_and] at heq
      obtain ⟨rfl, -⟩ := heq
      rw [hidx, hold] at hleaf
      cases hleaf

variable (halike : ∀ {g place j}, own g = some place →
  p.kind place.level (s'.heap g j) = p.kind place.level (s.heap g j)
    ∧ (p.kind place.level (s.heap g j) = .table → p.base (s'.heap g j) = p.base (s.heap g j)))

include halike

theorem Path.alike {n f t : Nat} (h : Path p s va n f l t) (hs : Owned p own s)
    (hf : own f = some ⟨v, n, slot p va (n + 1)⟩) :
    Path p s' va n f l t := by
  induction h with
  | here l t => exact .here l t
  | @down n f l t hk hpath ih =>
    obtain ⟨hkind, hbase⟩ := halike (j := index va (n + 1)) hf
    obtain ⟨l', hl', hnext⟩ := hs.next hf hk
    obtain rfl : n = l' := Nat.succ.inj hl'
    apply Path.down
    · exact hkind.trans hk
    · rw [hbase hk]
      exact ih hnext

theorem Owned.grown_alike (h : Owned p own s) (h' : Owned p own s')
    (hroot : s.root v = some root) (hroot' : s'.root v = some root) :
    Grown p s s' root fun _ _ => False := by
  have hforth : ∀ {va m t}, Path p s va p.top root m t → Path p s' va p.top root m t :=
    fun hp => hp.alike halike h (h.top hroot _)
  have hback : ∀ {va m t}, Path p s' va p.top root m t → Path p s va p.top root m t := by
    intro va m t hp
    refine hp.alike ?_ h' (h'.top hroot' va)
    intro g place j hg
    obtain ⟨hkind, hbase⟩ := halike (j := j) hg
    exact ⟨hkind.symm, fun hk => (hbase (hkind.symm.trans hk)).symm⟩
  constructor
  · intro va m
    constructor
    · rintro ⟨t, ht⟩
      exact .inl ⟨t, hback ht⟩
    · rintro (⟨t, ht⟩ | hfalse)
      · exact ⟨t, hforth ht⟩
      · exact hfalse.elim
  · intro va level
    constructor
    · rintro ⟨m, t, hm, ht, hleaf⟩
      have hp := hback ht
      exact ⟨m, t, hm, hp, (halike (hp.place h (h.top hroot va))).1.symm.trans hleaf⟩
    · rintro ⟨m, t, hm, ht, hleaf⟩
      exact ⟨m, t, hm, hforth ht, (halike (ht.place h (h.top hroot va))).1.trans hleaf⟩

end Paths

-- == counting

section Counting

variable {own : Nat → Option Place} {s s' : Tables} {v va root level : Nat}

/-- The levels, from `level` up, whose table for the address is missing. -/
def gaps (p : Port) (s : Tables) (root va level n : Nat) : Finset Nat :=
  (Finset.range n).filter fun d => s.tableAt p va (level + d) (p.top - (level + d)) root = none

theorem mem_gaps {n d : Nat} (hn : level + n ≤ p.top + 1) :
    d ∈ gaps p s root va level n ↔ d < n ∧ ¬ Reaches p s root va (level + d) := by
  unfold gaps
  rw [Finset.mem_filter, Finset.mem_range]
  constructor
  · rintro ⟨hd, hnone⟩
    refine ⟨hd, ?_⟩
    rw [reaches_iff (by omega)]
    exact not_not.mpr hnone
  · rintro ⟨hd, hnot⟩
    rw [reaches_iff (by omega)] at hnot
    exact ⟨hd, not_not.mp hnot⟩

theorem gaps_congr {n : Nat} (hn : level + n ≤ p.top + 1)
    (h : ∀ d < n, Reaches p s' root va (level + d) ↔ Reaches p s root va (level + d)) :
    gaps p s' root va level n = gaps p s root va level n := by
  ext d
  rw [mem_gaps hn, mem_gaps hn]
  constructor
  · rintro ⟨hd, hnot⟩
    exact ⟨hd, fun hr => hnot ((h d hd).mpr hr)⟩
  · rintro ⟨hd, hnot⟩
    exact ⟨hd, fun hr => hnot ((h d hd).mp hr)⟩

theorem gaps_all {n table : Nat} (hpath : Path p s va p.top root (level + n + 1) table)
    (hk : p.kind (level + n + 1) (s.heap table (index va (level + n + 1))) ≠ .table) :
    gaps p s root va level (n + 1) = Finset.range (n + 1) := by
  have hle := hpath.le
  ext d
  rw [mem_gaps (by omega), Finset.mem_range]
  refine ⟨And.left, fun hd => ⟨hd, ?_⟩⟩
  intro hr
  have hup : Reaches p s root va (level + n) := hr.mono (by omega) (by omega)
  exact hk (hup.table hpath)

theorem gaps_succ {n table : Nat} (hpath : Path p s va p.top root (level + n + 1) table)
    (hk : p.kind (level + n + 1) (s.heap table (index va (level + n + 1))) = .table) :
    gaps p s root va level (n + 1) = gaps p s root va level n := by
  have hle := hpath.le
  ext d
  rw [mem_gaps (by omega), mem_gaps (by omega)]
  constructor
  · rintro ⟨hd, hnot⟩
    refine ⟨?_, hnot⟩
    by_contra hge
    obtain rfl : d = n := by omega
    exact hnot ⟨_, hpath.trans hk⟩
  · rintro ⟨hd, hnot⟩
    exact ⟨by omega, hnot⟩

/-- What the way down to a leaf's table costs, and what it adds. -/
structure Counted (p : Port) (s : Tables) (root va level n : Nat) (r : Except Error Nat)
    (s' : Tables) : Prop where
  ok : (∃ t, r = .ok t) ↔ (gaps p s root va level n).card ≤ s.pool.length
  pool : ∀ t, r = .ok t → s'.pool.length + (gaps p s root va level n).card = s.pool.length
  grown : ∀ t, r = .ok t → Grown p s s' root fun va' l => level ≤ l ∧ l < level + n
    ∧ slot p va' (l + 1) = slot p va (l + 1)

/-- What `reach` counts from the `n`-th table above a leaf's, wherever it starts. -/
def CountsDown (p : Port) (flags va level v root n : Nat) : Prop :=
  ∀ {own : Nat → Option Place} {s : Tables} {table : Nat}, Owned p own s →
    s.root v = some root → Path p s va p.top root (level + n) table →
    ¬ Covered p s root va level →
    Counted p s root va level n (Tables.reach p flags va level n s table).1
      (Tables.reach p flags va level n s table).2

theorem Grown.trans {s1 : Tables} {new new' : Nat → Nat → Prop} (h : Grown p s s1 root new)
    (h' : Grown p s1 s' root new') : Grown p s s' root fun va l => new va l ∨ new' va l := by
  refine ⟨fun va l => ?_, fun va level => (h'.covered va level).trans (h.covered va level)⟩
  rw [h'.reaches, h.reaches, or_assoc]

theorem Grown.congr {new new' : Nat → Nat → Prop} (h : Grown p s s' root new)
    (heq : ∀ va l, Reaches p s root va l ∨ new va l ↔ Reaches p s root va l ∨ new' va l) :
    Grown p s s' root new' :=
  ⟨fun va l => (h.reaches va l).trans (heq va l), h.covered⟩

theorem Owned.count_absent (h : Owned p own s) (hroot : s.root v = some root)
    {n table next flags : Nat} (hpath : Path p s va p.top root (level + n + 1) table)
    (hfree : ¬ Covered p s root va level)
    (hk : p.kind (level + n + 1) (s.heap table (index va (level + n + 1))) = .absent)
    {s1 : Tables} (halloc : s.alloc (fun _ => 0) = some (next, s1))
    (ih : CountsDown p flags va level v root n) :
    Counted p s root va level (n + 1)
      (Tables.reach p flags va level n (s1.write table (index va (level + n + 1))
        (p.widen flags (p.pointer flags next))) (p.base (p.widen flags (p.pointer flags next)))).1
      (Tables.reach p flags va level n (s1.write table (index va (level + n + 1))
        (p.widen flags (p.pointer flags next)))
        (p.base (p.widen flags (p.pointer flags next)))).2 := by
  have hle := hpath.le
  have hf := hpath.place h (h.top hroot va)
  have hall := gaps_all hpath (by rw [hk]; exact nofun)
  have hl := h.link_absent flags hf hk halloc
  have hplace : (⟨v, level + n, slot p va (level + n + 1)⟩ : Place).level ≤ p.top := by
    dsimp only
    omega
  obtain ⟨-, hunowned, haligned, hlt, -, hpool, hzero, hsame⟩ := h.alloc halloc hplace
    (fun i _ => by rw [p.kind_zero]; exact ⟨nofun, nofun⟩)
  have hne : ∀ {g place}, own g = some place → g ≠ next := by
    rintro g place hg rfl
    rw [hunowned] at hg
    cases hg
  obtain ⟨hpk, hpb⟩ := p.pointer_table (f := flags) (Nat.succ_pos (level + n)) haligned hlt
  have hwb := (p.widen_table (f := flags) (Nat.succ_pos (level + n)) hpk).2.trans hpb
  have hwk := hl.kind
  generalize p.widen flags (p.pointer flags next) = entry at *
  have hsame2 : ∀ {g place j}, own g = some place →
      ¬ (g = table ∧ j = index va (level + n + 1)) →
      (s1.write table (index va (level + n + 1)) entry).heap g j = s.heap g j := by
    intro g place j hg hother
    rw [write_ne _ _ hother, hsame g (hne hg)]
  have hgrown := h.grown_absent hroot hpath rfl hk hsame2 (by rw [write_same]; exact hwk) (by
      intro j
      rw [write_same, hwb, write_heap_ne _ _ (hne hf).symm, hzero]
      exact p.kind_zero _)
  have hroot2 : (s1.write table (index va (level + n + 1)) entry).root v = some root := by
    rw [hl.roots]
    exact hroot
  have hpath2 : Path p (s1.write table (index va (level + n + 1)) entry) va p.top root
      (level + n) (p.base entry) := by
    have hkeep := hpath.keep h (h.top hroot va) hsame2 (by
      intro m hm
      have heq := Option.some.inj (hf.symm.trans hm)
      simp only [Place.mk.injEq, Nat.add_right_cancel_iff, true_and] at heq
      obtain ⟨rfl, -⟩ := heq
      rw [hk]
      exact nofun)
    have hstep := hkeep.trans (by rw [write_same]; exact hwk)
    rw [write_same] at hstep
    exact hstep
  have hc := ih hl.owned hroot2 hpath2 (fun hcov => hfree ((hgrown.covered _ _).mp hcov))
  have hgaps : gaps p (s1.write table (index va (level + n + 1)) entry) root va level n
      = Finset.range n := by
    ext d
    rw [mem_gaps (by omega), Finset.mem_range]
    refine ⟨And.left, fun hd => ⟨hd, ?_⟩⟩
    intro hr
    rcases (hgrown.reaches _ _).mp hr with hr | ⟨heq, -⟩
    · have hmem : d ∈ gaps p s root va level (n + 1) := by
        rw [hall, Finset.mem_range]
        omega
      exact ((mem_gaps (by omega)).mp hmem).2 hr
    · omega
  obtain ⟨hok, hpool', hgrown'⟩ := hc
  rw [hgaps, card_range, write_pool] at hok
  refine ⟨?_, ?_, ?_⟩
  · rw [hok, hall, card_range, hpool, length_cons]
    exact Nat.succ_le_succ_iff.symm
  · intro t ht
    have := hpool' t ht
    rw [hgaps, card_range, write_pool] at this
    rw [hall, card_range, hpool, length_cons]
    omega
  intro t ht
  refine (hgrown.trans (hgrown' t ht)).congr ?_
  intro va' l
  apply or_congr_right
  constructor
  · rintro (⟨rfl, hslot⟩ | ⟨h1, h2, hslot⟩)
    · exact ⟨by omega, by omega, hslot⟩
    · exact ⟨h1, by omega, hslot⟩
  · rintro ⟨h1, h2, hslot⟩
    by_cases heq : l = level + n
    · subst heq
      exact .inl ⟨rfl, hslot⟩
    · exact .inr ⟨h1, by omega, hslot⟩

theorem Owned.pass_table (h : Owned p own s) (flags : Nat) (hroot : s.root v = some root)
    {n table : Nat} (hpath : Path p s va p.top root (level + n + 1) table)
    (hk : p.kind (level + n + 1) (s.heap table (index va (level + n + 1))) = .table) :
    ∃ s2 entry, (s.write table (index va (level + n + 1))
        (p.widen flags (s.heap table (index va (level + n + 1)))) = s2
        ∧ p.widen flags (s.heap table (index va (level + n + 1))) = entry)
      ∧ Owned p own s2 ∧ s2.root v = some root
      ∧ Grown p s s2 root (fun _ _ => False)
      ∧ Path p s2 va p.top root (level + n) (p.base entry) := by
  have hf := hpath.place h (h.top hroot va)
  have hl := h.link_table flags hf hk
  have hwb := (p.widen_table (f := flags) (Nat.succ_pos (level + n)) hk).2
  have hwk := hl.kind
  refine ⟨_, _, ⟨rfl, rfl⟩, hl.owned, hroot, ?_⟩
  generalize p.widen flags (s.heap table (index va (level + n + 1))) = entry at *
  have halike : ∀ {g place j}, own g = some place →
      p.kind place.level ((s.write table (index va (level + n + 1)) entry).heap g j)
          = p.kind place.level (s.heap g j)
        ∧ (p.kind place.level (s.heap g j) = .table →
          p.base ((s.write table (index va (level + n + 1)) entry).heap g j)
            = p.base (s.heap g j)) := by
    intro g place j hg
    by_cases heq : g = table ∧ j = index va (level + n + 1)
    · obtain ⟨rfl, rfl⟩ := heq
      obtain rfl := Option.some.inj (hf.symm.trans hg)
      rw [write_same]
      exact ⟨hwk.trans hk.symm, fun _ => hwb⟩
    · rw [write_ne _ _ heq]
      exact ⟨rfl, fun _ => rfl⟩
  have hroot2 : (s.write table (index va (level + n + 1)) entry).root v = some root := hroot
  refine ⟨h.grown_alike halike hl.owned hroot hroot2, ?_⟩
  have hkeep := hpath.alike halike h (h.top hroot va)
  have hstep := hkeep.trans (by rw [write_same]; exact hwk)
  rw [write_same] at hstep
  exact hstep

theorem Owned.count_table (h : Owned p own s) (hroot : s.root v = some root)
    {n table flags : Nat} (hpath : Path p s va p.top root (level + n + 1) table)
    (hfree : ¬ Covered p s root va level)
    (hk : p.kind (level + n + 1) (s.heap table (index va (level + n + 1))) = .table)
    (ih : CountsDown p flags va level v root n) :
    Counted p s root va level (n + 1)
      (Tables.reach p flags va level n (s.write table (index va (level + n + 1))
        (p.widen flags (s.heap table (index va (level + n + 1)))))
        (p.base (p.widen flags (s.heap table (index va (level + n + 1)))))).1
      (Tables.reach p flags va level n (s.write table (index va (level + n + 1))
        (p.widen flags (s.heap table (index va (level + n + 1)))))
        (p.base (p.widen flags (s.heap table (index va (level + n + 1)))))).2 := by
  have hle := hpath.le
  have hgaps := gaps_succ hpath hk
  obtain ⟨s2, entry, ⟨rfl, rfl⟩, howned, hroot2, hgrown, hpath2⟩ :=
    h.pass_table flags hroot hpath hk
  obtain ⟨hok, hpool, hgrown'⟩ := ih howned hroot2 hpath2
    (fun hcov => hfree ((hgrown.covered _ _).mp hcov))
  have hsame : gaps p (s.write table (index va (level + n + 1))
      (p.widen flags (s.heap table (index va (level + n + 1))))) root va level n
      = gaps p s root va level n := by
    apply gaps_congr (by omega)
    intro d _
    rw [hgrown.reaches]
    exact ⟨fun hr => hr.resolve_right id, .inl⟩
  rw [hsame, write_pool] at hok
  refine ⟨?_, ?_, ?_⟩
  · rw [hgaps]
    exact hok
  · intro t ht
    have := hpool t ht
    rw [hsame, write_pool] at this
    rw [hgaps]
    exact this
  intro t ht
  refine (hgrown.trans (hgrown' t ht)).congr ?_
  intro va' l
  constructor
  · rintro (hr | hfalse | ⟨h1, h2, hslot⟩)
    · exact .inl hr
    · exact hfalse.elim
    · exact .inr ⟨h1, by omega, hslot⟩
  · rintro (hr | ⟨h1, h2, hslot⟩)
    · exact .inl hr
    by_cases heq : l = level + n
    · subst heq
      -- the table was there already
      have hr : Reaches p s root va (level + n) := ⟨_, hpath.trans hk⟩
      exact .inl (hr.of_slot hslot)
    · exact .inr (.inr ⟨h1, by omega, hslot⟩)

theorem Owned.reach_count (flags va level v root n : Nat) :
    CountsDown p flags va level v root n := by
  induction n with
  | zero =>
    intro own s table h hroot hpath _
    have hnone : gaps p s root va level 0 = ∅ := rfl
    refine ⟨?_, ?_, ?_⟩
    · rw [hnone]
      exact ⟨fun _ => Nat.zero_le _, fun _ => ⟨table, rfl⟩⟩
    · intro t _
      rw [hnone]
      rfl
    · intro t _
      refine ⟨?_, fun _ _ => Iff.rfl⟩
      intro va' l
      constructor
      · exact .inl
      · rintro (hr | ⟨h1, h2, -⟩)
        · exact hr
        · omega
  | succ n ih =>
    intro own s table h hroot hpath hfree
    have hpath : Path p s va p.top root (level + n + 1) table := hpath
    have hle := hpath.le
    rw [Tables.reach]
    dsimp only
    cases hk : p.kind (level + n + 1) (s.heap table (index va (level + n + 1))) with
    | absent =>
      have hall := gaps_all hpath (by rw [hk]; decide)
      dsimp only
      cases halloc : s.alloc fun _ => 0 with
      | none =>
        have hempty : s.pool = [] := by
          unfold Tables.alloc at halloc
          split at halloc
          · assumption
          · cases halloc
        refine ⟨?_, ?_, ?_⟩
        · rw [hall, hempty, card_range]
          constructor
          · rintro ⟨_, hok⟩
            cases hok
          · intro hle
            cases hle
        all_goals
          intro t hok
          cases hok
      | some result =>
        obtain ⟨next, s1⟩ := result
        exact h.count_absent hroot hpath hfree hk halloc fun h' => ih h'
    | leaf => exact absurd ⟨_, _, by omega, hpath, hk⟩ hfree
    | table => exact h.count_table hroot hpath hfree hk fun h' => ih h'

theorem Covered.below {n table : Nat} (hcov : Covered p s root va level)
    (hpath : Path p s va p.top root (level + n) table) : ∃ m, n = m + 1
      ∧ p.kind (level + n) (s.heap table (index va (level + n))) ≠ .absent := by
  obtain ⟨l, t, hl, ht, hleaf⟩ := hcov
  have hle : l ≤ level + n := by
    by_contra hlt
    obtain ⟨u, hu, hrest⟩ := hpath.through (Nat.le_of_lt (Nat.not_le.mp hlt)) ht.le
    obtain rfl := ht.unique hu
    obtain ⟨l', rfl⟩ : ∃ l', l = l' + 1 := ⟨l - 1, by omega⟩
    rw [(hrest.down_of_lt (by omega)).1] at hleaf
    cases hleaf
  obtain ⟨m, rfl⟩ : ∃ m, n = m + 1 := ⟨n - 1, by omega⟩
  refine ⟨m, rfl, ?_⟩
  by_cases heq : l = level + (m + 1)
  · subst heq
    rw [hpath.unique ht, hleaf]
    exact nofun
  · have hat : Reaches p s root va l := ⟨t, ht⟩
    have hreach : Reaches p s root va (level + m) := hat.mono (by omega) (by
      have := hpath.le
      omega)
    have hkind : p.kind (level + (m + 1)) (s.heap table (index va (level + (m + 1)))) = .table :=
      hreach.table hpath
    rw [hkind]
    exact nofun

theorem Owned.reach_covered (flags va level v root : Nat) : ∀ (n : Nat)
    {own : Nat → Option Place} {s : Tables} {table : Nat}, Owned p own s →
    s.root v = some root → Path p s va p.top root (level + n) table →
    Covered p s root va level → ∃ e, (Tables.reach p flags va level n s table).1 = .error e := by
  intro n
  induction n with
  | zero =>
    intro own s table _ _ hpath hcov
    obtain ⟨m, hm, -⟩ := hcov.below hpath
    omega
  | succ n ih =>
    intro own s table h hroot hpath hcov
    have hpath : Path p s va p.top root (level + n + 1) table := hpath
    obtain ⟨-, -, hkind⟩ := hcov.below (n := n + 1) hpath
    have hkind : p.kind (level + n + 1) (s.heap table (index va (level + n + 1))) ≠ .absent :=
      hkind
    rw [Tables.reach]
    dsimp only
    cases hk : p.kind (level + n + 1) (s.heap table (index va (level + n + 1))) with
    | absent => exact absurd hk hkind
    | leaf => exact ⟨_, rfl⟩
    | table =>
      obtain ⟨s2, entry, hs2, howned, hroot2, hgrown, hpath2⟩ := h.pass_table flags hroot hpath hk
      dsimp only
      rw [hs2.1, hs2.2]
      exact ih howned hroot2 hpath2 ((hgrown.covered _ _).mpr hcov)

end Counting

-- == one leaf

section Leaves

variable {own : Nat → Option Place} {s s' : Tables} {v va root level : Nat}

section

variable (h : Owned p own s) {t i w x : Nat} (h' : Owned p own (s.write t i w))
  (ht : own t = some ⟨v, level, x⟩) (hroot : s.root v = some root)

include h h' ht hroot

theorem Owned.path_write {l u : Nat} (hl : level ≤ l) :
    Path p (s.write t i w) va p.top root l u ↔ Path p s va p.top root l u := by
  have hsame : ∀ g place, own g = some place → l < place.level →
      (s.write t i w).heap g = s.heap g := by
    intro g place hg hlt
    apply write_heap_ne
    rintro rfl
    obtain rfl := Option.some.inj (ht.symm.trans hg)
    exact absurd hlt (Nat.not_lt.mpr hl)
  constructor
  · intro hpath
    exact hpath.congr h' (h'.top hroot va) fun g place hg hlt => (hsame g place hg hlt).symm
  · intro hpath
    exact hpath.congr h (h.top hroot va) hsame

theorem Owned.reaches_write {l : Nat} (hl : level ≤ l) :
    Reaches p (s.write t i w) root va l ↔ Reaches p s root va l :=
  exists_congr fun _ => h.path_write h' ht hroot hl

theorem Owned.covered_write :
    Covered p (s.write t i w) root va level ↔ Covered p s root va level := by
  have hword : ∀ {l u}, level < l → Path p s va p.top root l u →
      (s.write t i w).heap u = s.heap u := by
    intro l u hl hpath
    apply write_heap_ne
    rintro rfl
    have hplace := hpath.place h (h.top hroot va)
    rw [ht] at hplace
    cases hplace
    exact absurd hl (Nat.lt_irrefl _)
  constructor
  · rintro ⟨l, u, hl, hpath, hk⟩
    have hpath := (h.path_write h' ht hroot hl.le).mp hpath
    rw [hword hl hpath] at hk
    exact ⟨l, u, hl, hpath, hk⟩
  · rintro ⟨l, u, hl, hpath, hk⟩
    refine ⟨l, u, hl, (h.path_write h' ht hroot hl.le).mpr hpath, ?_⟩
    rw [hword hl hpath]
    exact hk

end

/-- What mapping a leaf takes, and which tables there are then. -/
structure Charged (p : Port) (s : Tables) (root va level : Nat) (r : Except Error Unit)
    (s' : Tables) : Prop where
  ok : r = .ok () ↔ ¬ Covered p s root va level
    ∧ (gaps p s root va level (p.top - level)).card ≤ s.pool.length
  pool : r = .ok () →
    s'.pool.length + (gaps p s root va level (p.top - level)).card = s.pool.length
  reaches : r = .ok () → ∀ va' l, level ≤ l → l < p.top →
    (Reaches p s' root va' l ↔ Reaches p s root va' l ∨ slot p va' (l + 1) = slot p va (l + 1))
  covered : r = .ok () → ∀ va', Covered p s' root va' level ↔ Covered p s root va' level

theorem Sound.mapLeaf_charged (h : Sound p s) (hroot : s.root v = some root) {pa : Nat}
    (hfit : Fit p level pa) (rights : Rights) :
    Charged p s root va level (s.mapLeaf p root va pa (p.flags rights) level).1
      (s.mapLeaf p root va pa (p.flags rights) level).2 := by
  obtain ⟨own, h⟩ := h
  have hle : level ≤ p.top := Nat.le_trans hfit.1 p.top_ge
  have hn : level + (p.top - level) = p.top := by omega
  have hstart : Path p s va p.top root (level + (p.top - level)) root := by
    rw [hn]
    exact .here _ _
  obtain ⟨own', hr⟩ := h.reach (p.flags rights) va level v (p.top - level)
    (by rw [hn]; exact h.top hroot va)
  unfold Tables.mapLeaf
  by_cases hcov : Covered p s root va level
  · obtain ⟨e, he⟩ := h.reach_covered (p.flags rights) va level v root _ hroot hstart hcov
    rcases hreach : reach p (p.flags rights) va level (p.top - level) s root with ⟨r, s1⟩
    rw [hreach] at he
    obtain rfl : r = .error e := he
    exact ⟨⟨nofun, fun hok => absurd hcov hok.1⟩, nofun, nofun, nofun⟩
  have hc := h.reach_count (p.flags rights) va level v root _ hroot hstart hcov
  rcases hreach : reach p (p.flags rights) va level (p.top - level) s root with ⟨r, s1⟩
  rw [hreach] at hr hc
  cases r with
  | error e =>
    refine ⟨⟨nofun, fun hok => ?_⟩, nofun, nofun, nofun⟩
    obtain ⟨t, ht⟩ := hc.ok.mpr hok.2
    cases ht
  | ok t =>
    obtain ⟨ht, -⟩ := hr.leads t rfl
    have hroot1 : s1.root v = some root := by
      rw [hr.roots]
      exact hroot
    have hgrown := hc.grown t rfl
    dsimp only
    have howned := hr.owned.write_leaf ht hfit rights (index va level)
    refine ⟨⟨fun _ => ⟨hcov, hc.ok.mp ⟨t, rfl⟩⟩, fun _ => rfl⟩, fun _ => hc.pool t rfl, ?_, ?_⟩
    · intro _ va' l hl htop
      rw [hr.owned.reaches_write howned ht hroot1 hl, hgrown.reaches]
      refine or_congr_right ⟨fun hnew => hnew.2.2, fun hslot => ⟨hl, by omega, hslot⟩⟩
    · intro _ va'
      exact (hr.owned.covered_write howned ht hroot1).trans (hgrown.covered va' level)

/-- There is an entry of this level for the address. -/
def Present (p : Port) (s : Tables) (root va level : Nat) : Prop :=
  ∃ t, Path p s va p.top root level t ∧ p.kind level (s.heap t (index va level)) ≠ .absent

/-- Clearing a leaf takes that it is there, and leaves the others. -/
theorem Sound.unmapLeaf_present (h : Sound p s) (hroot : s.root v = some root) (hle : level ≤ 2) :
    ((s.unmapLeaf p root va level).1 = .ok () ↔ Present p s root va level)
      ∧ ∀ va', slot p va' level ≠ slot p va level →
        (Present p (s.unmapLeaf p root va level).2 root va' level
          ↔ Present p s root va' level) := by
  obtain ⟨own, h⟩ := h
  have hle : level ≤ p.top := hle.trans p.top_ge
  have hn : level + (p.top - level) = p.top := by omega
  unfold Tables.unmapLeaf
  cases htable : s.tableAt p va level (p.top - level) root with
  | none =>
    refine ⟨⟨nofun, ?_⟩, fun _ _ => Iff.rfl⟩
    rintro ⟨t, hpath, -⟩
    rw [Path.tableAt (by rw [hn]; exact hpath)] at htable
    cases htable
  | some t =>
    have hpath := tableAt_path htable
    rw [hn] at hpath
    have ht := hpath.place h (h.top hroot va)
    dsimp only
    split
    · rename_i habsent
      refine ⟨⟨nofun, ?_⟩, fun _ _ => Iff.rfl⟩
      rintro ⟨u, hu, hk⟩
      rw [hu.unique hpath] at hk
      exact absurd habsent hk
    rename_i hk
    refine ⟨⟨fun _ => ⟨t, hpath, hk⟩, fun _ => rfl⟩, ?_⟩
    intro va' hother
    have howned : Owned p own (s.write t (index va level) 0) := by
      refine h.write ht ⟨?_, ?_⟩ <;> intro hk <;> rw [p.kind_zero] at hk <;> cases hk
    refine exists_congr fun u => ?_
    rw [h.path_write howned ht hroot le_rfl]
    refine and_congr_right fun hu => ?_
    rw [write_ne]
    rintro ⟨rfl, hidx⟩
    have hplace := hu.place h (h.top hroot va')
    rw [ht] at hplace
    have hslot : slot p va (level + 1) = slot p va' (level + 1) :=
      congrArg Place.slot (Option.some.inj hplace)
    exact hother (by rw [← slot_eq hle, ← slot_eq hle, hslot, hidx])

end Leaves

-- == the loops

section Loops

variable {s : Tables} {v root : Nat} {e : Extent}

section

variable (one : Nat → Tables → Except Error Unit × Tables) (k : Nat) (ks : List Nat)

theorem each_concat :
    ∀ s, (each one ks s).1 = .ok () → each one (ks ++ [k]) s = one k (each one ks s).2 := by
  induction ks with
  | nil =>
    intro s _
    show each one [k] s = one k s
    rw [each]
    rcases one k s with ⟨_ | _, _⟩ <;> rfl
  | cons k' ks ih =>
    intro s hok
    rw [cons_append, each]
    rw [each] at hok ⊢
    rcases hone : one k' s with ⟨r, s1⟩
    rw [hone] at hok
    cases r with
    | error err => cases hok
    | ok u => exact ih s1 hok

theorem each_concat_ok : ∀ s, (each one (ks ++ [k]) s).1 = .ok () → (each one ks s).1 = .ok () := by
  induction ks with
  | nil => exact fun s _ => rfl
  | cons k' ks ih =>
    intro s hok
    rw [cons_append, each] at hok
    rw [each]
    rcases hone : one k' s with ⟨r, s1⟩
    rw [hone] at hok
    cases r with
    | error err => cases hok
    | ok u => exact ih s1 hok

end

/-- The leaves a loop is not refused at, told by an invariant of the tables
as they are when it comes to a leaf. -/
structure Foreseen (one : Nat → Tables → Except Error Unit × Tables) (s : Tables) (m : Nat)
    (fine : Nat → Prop) (inv : Nat → Tables → Prop) : Prop where
  start : inv 0 s
  step : ∀ k < m, ∀ t, inv k t →
    ((one k t).1 = .ok () ↔ fine k) ∧ ((one k t).1 = .ok () → inv (k + 1) (one k t).2)

theorem Foreseen.run {one : Nat → Tables → Except Error Unit × Tables} {m : Nat}
    {fine : Nat → Prop} {inv : Nat → Tables → Prop} (h : Foreseen one s m fine inv) :
    ∀ n ≤ m, ((each one (List.range n) s).1 = .ok () ↔ ∀ i < n, fine i)
      ∧ ((each one (List.range n) s).1 = .ok () → inv n (each one (List.range n) s).2) := by
  intro n
  induction n with
  | zero => exact fun _ => ⟨⟨fun _ _ hi => absurd hi (Nat.not_lt_zero _), fun _ => rfl⟩,
      fun _ => h.start⟩
  | succ n ih =>
    intro hn
    obtain ⟨hiff, hinv⟩ := ih (by omega)
    rw [range_succ]
    have hone : (each one (List.range n) s).1 = .ok () →
        ((each one (List.range n ++ [n]) s).1 = .ok () ↔ fine n)
          ∧ ((each one (List.range n ++ [n]) s).1 = .ok () →
            inv (n + 1) (each one (List.range n ++ [n]) s).2) := by
      intro hok
      rw [each_concat one n _ s hok]
      exact h.step n (by omega) _ (hinv hok)
    refine ⟨⟨?_, ?_⟩, ?_⟩
    · intro hok i hi
      have hbefore := each_concat_ok one n _ s hok
      by_cases heq : i = n
      · subst heq
        exact (hone hbefore).1.mp hok
      · exact hiff.mp hbefore i (by omega)
    · intro hfine
      have hbefore := hiff.mpr fun i hi => hfine i (by omega)
      exact (hone hbefore).1.mpr (hfine n (by omega))
    · intro hok
      exact (hone (each_concat_ok one n _ s hok)).2 hok

theorem Foreseen.refused {one : Nat → Tables → Except Error Unit × Tables} {m : Nat}
    {fine : Nat → Prop} {inv : Nat → Tables → Prop} (h : Foreseen one s m fine inv) {err : Error}
    (hr : (each one (List.range m) s).1 = .error err) :
    ∃ j < m, ¬ fine j ∧ (∀ i < j, fine i)
      ∧ (each one (List.range j) s).1 = .ok ()
      ∧ (one j (each one (List.range j) s).2).1 = .error err
      ∧ (each one (List.range m) s).2 = (one j (each one (List.range j) s).2).2 := by
  obtain ⟨n, hok, hend | ⟨k, err', hk, herr, heq⟩⟩ := each_split one (List.range m) s
  · rw [hend.2, hok] at hr
    cases hr
  obtain ⟨hn, hk⟩ := List.getElem?_eq_some_iff.mp hk
  rw [length_range] at hn
  obtain rfl : n = k := by
    rw [← hk, getElem_range]
  rw [take_range, Nat.min_eq_left hn.le] at hok herr heq
  obtain rfl : err' = err := by
    rw [heq] at hr
    exact Except.error.inj hr
  obtain ⟨hiff, hinv⟩ := h.run n hn.le
  refine ⟨n, hn, ?_, hiff.mp hok, hok, herr, by rw [heq]⟩
  intro hfine
  rw [(h.step n hn _ (hinv hok)).1.mpr hfine] at herr
  cases herr

theorem Wrote.unchanged_iff {leaf : Nat → Option (Nat × Nat)} {j : Nat} {s1 : Tables}
    (h : Wrote p s v e leaf (List.range j) s1) :
    (∀ va, s1.translate p v va = s.translate p v va) ↔
      ∀ i < j, ∀ va, InLeaf p e i va → s.translate p v va = (leaf i).map (landing p va) := by
  constructor
  · intro hsame i hi va hva
    rw [← hsame, translate_eq, h.hit i (List.mem_range.mpr hi) va hva]
  intro hleaf va
  by_cases hin : ∃ i ∈ List.range j, InLeaf p e i va
  · obtain ⟨i, hi, hva⟩ := hin
    rw [hleaf i (List.mem_range.mp hi) va hva, translate_eq, h.hit i hi va hva]
  · exact translate_congr (h.miss v va fun hmiss => hin hmiss.2)

/-- A refused loop changes nothing if and only if the leaves before the one it
is refused at were already as it leaves them. -/
theorem Foreseen.unchanged_iff {one : Nat → Tables → Except Error Unit × Tables}
    {fine : Nat → Prop} {inv : Nat → Tables → Prop} {leaf : Nat → Option (Nat × Nat)}
    (h : Foreseen one s e.leaves fine inv) (hinside : e.Inside p) (hs : Sound p s)
    (hroot : s.root v = some root)
    (hone : ∀ k < e.leaves, ∀ s, Sound p s → s.root v = some root →
      Mapped p s v (e.leaf k) e.cls.level (one k s).1 (leaf k) (one k s).2) :
    ((∃ err, (each one (List.range e.leaves) s).1 = .error err) →
      ∀ va, (each one (List.range e.leaves) s).2.translate p v va = s.translate p v va) ↔
    ∀ j < e.leaves, ¬ fine j → (∀ i < j, fine i) →
      ∀ i < j, ∀ va, InLeaf p e i va → s.translate p v va = (leaf i).map (landing p va) := by
  -- what a loop refused at leaf `j` leaves is what the leaves before wrote
  have hafter : ∀ {err : Error}, (each one (List.range e.leaves) s).1 = .error err →
      ∃ j < e.leaves, ¬ fine j ∧ (∀ i < j, fine i)
        ∧ ((∀ va, (each one (List.range e.leaves) s).2.translate p v va
            = s.translate p v va) ↔
          ∀ i < j, ∀ va, InLeaf p e i va → s.translate p v va = (leaf i).map (landing p va)) := by
    intro err hr
    obtain ⟨j, hj, hnot, hfine, hok, herr, hlast⟩ := h.refused hr
    obtain ⟨hsound, hroots, hwrote⟩ := each_ok hinside
      (fun k hk => Nat.lt_trans (List.mem_range.mp hk) hj)
      (fun k hk => hone k (Nat.lt_trans (List.mem_range.mp hk) hj)) s hs hroot hok
    have hmapped := hone j hj _ hsound (by rw [hroots]; exact hroot)
    refine ⟨j, hj, hnot, hfine, Iff.trans ?_ hwrote.unchanged_iff⟩
    rw [hlast]
    exact forall_congr' fun va => by rw [translate_congr (hmapped.refused err herr v va)]
  constructor
  · intro hsame j hj hnot hfine
    have hnok : (each one (List.range e.leaves) s).1 ≠ .ok () := by
      intro hok
      exact hnot ((h.run _ le_rfl).1.mp hok j hj)
    cases hr : (each one (List.range e.leaves) s).1 with
    | ok u => exact absurd hr hnok
    | error err =>
      obtain ⟨j', hj', hnot', hfine', hiff⟩ := hafter hr
      obtain rfl : j' = j := by
        rcases Nat.lt_trichotomy j' j with hlt | heq | hlt
        · exact absurd (hfine j' hlt) hnot'
        · exact heq
        · exact absurd (hfine' j hlt) hnot
      exact hiff.mp (hsame ⟨err, hr⟩)
  · rintro hleaf ⟨err, hr⟩
    obtain ⟨j, hj, hnot, hfine, hiff⟩ := hafter hr
    exact hiff.mpr (hleaf j hj hnot hfine)

-- -- a grant

/-- The tables that are missing for the first `n` leaves, by level and place. -/
def lacking (p : Port) (s : Tables) (root : Nat) (e : Extent) (n : Nat) : Finset (Nat × Nat) :=
  (Finset.range n).biUnion fun k =>
    (gaps p s root (e.leaf k) e.cls.level (p.top - e.cls.level)).image fun d =>
      (d, slot p (e.leaf k) (e.cls.level + d + 1))

/-- A leaf of a grant is refused if a larger one covers it, or if the tables
missing until then are more than the pool has. -/
def Refused (p : Port) (s : Tables) (root : Nat) (e : Extent) (k : Nat) : Prop :=
  Covered p s root (e.leaf k) e.cls.level ∨ s.pool.length < (lacking p s root e (k + 1)).card

structure Spent (p : Port) (s : Tables) (root : Nat) (e : Extent) (n : Nat) (t : Tables) :
    Prop where
  pool : t.pool.length + (lacking p s root e n).card = s.pool.length
  reaches : ∀ va l, e.cls.level ≤ l → l < p.top → (Reaches p t root va l ↔
    Reaches p s root va l ∨ ∃ k < n, slot p va (l + 1) = slot p (e.leaf k) (l + 1))
  covered : ∀ va, Covered p t root va e.cls.level ↔ Covered p s root va e.cls.level

theorem mem_lacking {n d x : Nat} : (d, x) ∈ lacking p s root e n ↔
    ∃ k < n, (d < p.top - e.cls.level ∧ ¬ Reaches p s root (e.leaf k) (e.cls.level + d))
      ∧ slot p (e.leaf k) (e.cls.level + d + 1) = x := by
  have htop : e.cls.level ≤ p.top := Nat.le_trans (level_le e) p.top_ge
  unfold lacking
  rw [mem_biUnion]
  refine exists_congr fun k => ?_
  rw [Finset.mem_range, Finset.mem_image]
  refine and_congr_right fun _ => ?_
  constructor
  · rintro ⟨d', hd, heq⟩
    cases heq
    exact ⟨(mem_gaps (by omega)).mp hd, rfl⟩
  · rintro ⟨hd, rfl⟩
    exact ⟨d, (mem_gaps (by omega)).mpr hd, rfl⟩

theorem Spent.lacking_succ {n : Nat} {t : Tables} (h : Spent p s root e n t) :
    (lacking p s root e (n + 1)).card = (lacking p s root e n).card
      + (gaps p t root (e.leaf n) e.cls.level (p.top - e.cls.level)).card := by
  have htop : e.cls.level ≤ p.top := Nat.le_trans (level_le e) p.top_ge
  let place : Nat → Nat × Nat := fun d => (d, slot p (e.leaf n) (e.cls.level + d + 1))
  have hinj : Function.Injective place := fun d d' heq => congrArg Prod.fst heq
  have hunion : lacking p s root e (n + 1) = lacking p s root e n
      ∪ (gaps p t root (e.leaf n) e.cls.level (p.top - e.cls.level)).image place := by
    ext ⟨d, x⟩
    rw [mem_union, mem_lacking, mem_lacking, mem_image]
    constructor
    · rintro ⟨k, hk, ⟨hd, hnot⟩, hx⟩
      by_cases hearlier : ∃ i < n, slot p (e.leaf k) (e.cls.level + d + 1)
          = slot p (e.leaf i) (e.cls.level + d + 1)
      · obtain ⟨i, hi, hslot⟩ := hearlier
        refine .inl ⟨i, hi, ⟨hd, fun hr => hnot (hr.of_slot hslot)⟩, hslot.symm.trans hx⟩
      obtain rfl : k = n := by
        by_contra hne
        exact hearlier ⟨k, by omega, rfl⟩
      refine .inr ⟨d, (mem_gaps (by omega)).mpr ⟨hd, ?_⟩, by rw [← hx]⟩
      rw [h.reaches _ _ (by omega) (by omega)]
      rintro (hr | hr)
      · exact hnot hr
      · exact hearlier hr
    · rintro (⟨k, hk, hrest⟩ | ⟨d', hd, heq⟩)
      · exact ⟨k, by omega, hrest⟩
      · cases heq
        obtain ⟨hd, hnot⟩ := (mem_gaps (by omega)).mp hd
        rw [h.reaches _ _ (by omega) (by omega)] at hnot
        exact ⟨n, by omega, ⟨hd, fun hr => hnot (.inl hr)⟩, rfl⟩
  rw [hunion, card_union_of_disjoint, card_image_of_injective _ hinj]
  rw [Finset.disjoint_left]
  rintro ⟨d, x⟩ hold hnew
  obtain ⟨k, hk, ⟨hd, hnot⟩, hx⟩ := mem_lacking.mp hold
  obtain ⟨d', hd', heq⟩ := mem_image.mp hnew
  cases heq
  obtain ⟨-, hmissing⟩ := (mem_gaps (by omega)).mp hd'
  apply hmissing
  rw [h.reaches _ _ (by omega) (by omega)]
  exact .inr ⟨k, hk, hx.symm⟩

theorem Spent.step {n : Nat} {t t' : Tables} {r : Except Error Unit}
    (h : Spent p s root e n t) (hc : Charged p t root (e.leaf n) e.cls.level r t') :
    (r = .ok () ↔ ¬ Refused p s root e n) ∧ (r = .ok () → Spent p s root e (n + 1) t') := by
  have hcard := h.lacking_succ
  have hpool := h.pool
  constructor
  · rw [hc.ok, h.covered]
    unfold Refused
    rw [not_or]
    refine and_congr_right fun _ => ?_
    omega
  intro hok
  have hleft := hc.pool hok
  refine ⟨by omega, ?_, ?_⟩
  · intro va l hl htop
    rw [hc.reaches hok va l hl htop, h.reaches va l hl htop, or_assoc]
    refine or_congr_right ⟨?_, ?_⟩
    · rintro (⟨k, hk, hslot⟩ | hslot)
      · exact ⟨k, by omega, hslot⟩
      · exact ⟨n, by omega, hslot⟩
    · rintro ⟨k, hk, hslot⟩
      by_cases heq : k = n
      · subst heq
        exact .inr hslot
      · exact .inl ⟨k, by omega, hslot⟩
  · exact fun va => (hc.covered hok va).trans (h.covered va)

theorem grant_foreseen {span : Span} (hbacks : Backs e span)
    (hlimit : span.stop ≤ p.limit) (rights : Rights) (hs : Sound p s)
    (hroot : s.root v = some root) :
    Foreseen (mapOne p root e span.start (p.flags rights)) s e.leaves
      (fun k => ¬ Refused p s root e k)
      (fun n t => Sound p t ∧ t.root v = some root ∧ Spent p s root e n t) := by
  refine ⟨⟨hs, hroot, ?_⟩, ?_⟩
  · refine ⟨rfl, ?_, fun _ => Iff.rfl⟩
    intro va l _ _
    refine ⟨.inl, ?_⟩
    rintro (hr | ⟨k, hk, -⟩)
    · exact hr
    · exact absurd hk (Nat.not_lt_zero k)
  · rintro k hk t ⟨ht, hroot', hspent⟩
    have hmapped := mapOne_spec hbacks hlimit rights hk t ht hroot'
    obtain ⟨hiff, hnext⟩ := hspent.step
      (ht.mapLeaf_charged hroot' (fit_of_backs hbacks hlimit hk) rights)
    exact ⟨hiff, fun hok => ⟨hmapped.sound, by rw [hmapped.roots]; exact hroot', hnext hok⟩⟩

-- -- a revoke

theorem revoke_foreseen (hinside : e.Inside p) (hs : Sound p s) (hroot : s.root v = some root) :
    Foreseen (unmapOne p root e) s e.leaves
      (fun k => Present p s root (e.leaf k) e.cls.level)
      (fun n t => Sound p t ∧ t.root v = some root ∧ ∀ k, n ≤ k → k < e.leaves →
        (Present p t root (e.leaf k) e.cls.level ↔ Present p s root (e.leaf k) e.cls.level)) := by
  refine ⟨⟨hs, hroot, fun _ _ _ => Iff.rfl⟩, ?_⟩
  rintro k hk t ⟨ht, hroot', hpresent⟩
  have hmapped := unmapOne_spec (e := e) k t ht hroot'
  obtain ⟨hok, hother⟩ : _ ∧ ∀ va', slot p va' e.cls.level ≠ slot p (e.leaf k) e.cls.level → _ :=
    ht.unmapLeaf_present hroot' (level_le e)
  refine ⟨hok.trans (hpresent k (Nat.le_refl k) hk), ?_⟩
  intro _
  refine ⟨hmapped.sound, by rw [hmapped.roots]; exact hroot', ?_⟩
  intro k' hk' hlt
  refine (hother _ ?_).trans (hpresent k' (by omega) hlt)
  rw [slot_leaf hinside hlt, slot_leaf hinside hk]
  omega

end Loops

-- == the calls

/-- The tables that calls of any outcome lead to. -/
inductive Reachable (p : Port) : Tables → Prop where
  | boot (heap : Nat → Nat → Nat) {pool : List Nat} : pool.Nodup →
      (∀ f ∈ pool, f % FRAME_SIZE = 0 ∧ f < p.limit) → Reachable p (boot heap pool)
  | openView {s : Tables} : Reachable p s → Reachable p s.openView.2
  | grant {s : Tables} (v : Nat) (e : Extent) {span : Span} (rights : Rights) :
      Reachable p s → span.stop ≤ p.limit → Reachable p (s.grant p v e span rights).2
  | revoke {s : Tables} (v : Nat) (e : Extent) :
      Reachable p s → Reachable p (s.revoke p v e).2
  | splitLeaf {s : Tables} (v va : Nat) : Reachable p s → Reachable p (s.splitLeaf p v va).2

section Calls

variable {s : Tables} {v : Nat} {e : Extent}

theorem Sound.each {one : Nat → Tables → Except Error Unit × Tables} {root : Nat}
    {ks : List Nat} (hone : ∀ k ∈ ks, ∀ s, Sound p s → s.root v = some root →
      Sound p (one k s).2 ∧ (one k s).2.root = s.root) :
    ∀ {s}, Sound p s → s.root v = some root → Sound p (each one ks s).2 := by
  induction ks with
  | nil => exact fun h _ => h
  | cons k ks ih =>
    intro s h hroot
    obtain ⟨hsound, hroots⟩ := hone k mem_cons_self s h hroot
    rw [Tables.each]
    rcases hstep : one k s with ⟨r, s1⟩
    rw [hstep] at hsound hroots
    cases r with
    | error err => exact hsound
    | ok u =>
      exact ih (fun k hk => hone k (mem_cons_of_mem _ hk)) hsound (by rw [hroots]; exact hroot)

theorem Sound.grant (h : Sound p s) {span : Span} {rights : Rights}
    (hlimit : span.stop ≤ p.limit) : Sound p (s.grant p v e span rights).2 := by
  unfold Tables.grant
  split
  · exact h
  rename_i hbacks
  split
  · exact h
  rename_i root hroot
  refine Sound.each ?_ h hroot
  intro k hk s hs hr
  have hmapped := mapOne_spec (not_not.mp hbacks) hlimit rights (List.mem_range.mp hk) s hs hr
  exact ⟨hmapped.sound, hmapped.roots⟩

theorem revoke_tables {root : Nat} (hroot : s.root v = some root) :
    (s.revoke p v e).2 = (each (unmapOne p root e) (List.range e.leaves) s).2 := by
  unfold revoke
  rw [hroot]
  dsimp only
  rcases each (unmapOne p root e) (List.range e.leaves) s with ⟨_ | _, _⟩ <;> rfl

theorem Sound.revoke (h : Sound p s) : Sound p (s.revoke p v e).2 := by
  cases hroot : s.root v with
  | none =>
    unfold Tables.revoke
    rw [hroot]
    exact h
  | some root =>
    rw [revoke_tables hroot]
    refine Sound.each ?_ h hroot
    intro k _ s hs hr
    have hmapped := unmapOne_spec (e := e) k s hs hr
    exact ⟨hmapped.sound, hmapped.roots⟩

theorem Reachable.sound (h : Reachable p s) : Sound p s := by
  induction h with
  | boot heap hnodup hpool => exact (Exact.boot heap hnodup hpool).sound
  | @openView s _ ih =>
    rcases hopen : s.openView with ⟨r, s'⟩
    cases r with
    | ok view => exact (ih.openView hopen).1
    | error err =>
      have hsame : s' = s := by
        unfold Tables.openView at hopen
        split at hopen
        · cases hopen
          rfl
        · split at hopen
          · cases hopen
            rfl
          · cases hopen
      rw [hsame]
      exact ih
  | grant v e rights _ hlimit ih => exact ih.grant hlimit
  | revoke v e _ ih => exact ih.revoke
  | splitLeaf v va _ ih => exact ih.splitLeaf.sound

/-- The leaves before the first one that a grant is refused at are mapped
already, to the memory and with the rights of the grant. -/
def GrantSafe (p : Port) (s : Tables) (v : Nat) (e : Extent) (span : Span) (rights : Rights) :
    Prop :=
  Backs e span → ∀ root, s.root v = some root →
    ∀ j < e.leaves, Refused p s root e j → (∀ i < j, ¬ Refused p s root e i) →
      ∀ i < j, ∀ va, InLeaf p e i va → s.translate p v va
        = some (span.start + i * granule e.cls.level + va % granule e.cls.level,
            true, rights.write, rights.execute)

/-- The leaves before the first one that is not there translate nothing. -/
def RevokeSafe (p : Port) (s : Tables) (v : Nat) (e : Extent) : Prop :=
  ∀ root, s.root v = some root →
    ∀ j < e.leaves, ¬ Present p s root (e.leaf j) e.cls.level →
      (∀ i < j, Present p s root (e.leaf i) e.cls.level) →
      ∀ i < j, ∀ va, InLeaf p e i va → s.translate p v va = none

theorem grantWord_landing {span : Span} (hbacks : Backs e span)
    (hlimit : span.stop ≤ p.limit) (rights : Rights) {k : Nat} (hk : k < e.leaves) (va : Nat) :
    (grantWord p e span rights k).map (landing p va)
      = some (span.start + k * granule e.cls.level + va % granule e.cls.level,
          true, rights.write, rights.execute) := by
  have hfit := fit_of_backs hbacks hlimit hk
  obtain ⟨-, hbase, hrights⟩ := p.leaf_leaf e.cls.level rights hfit.frame hfit.lt
  unfold grantWord
  rw [Option.map_some, landing_fit (by rw [hbase]; exact hfit), hbase, hrights]

theorem grant_unchanged_iff {span : Span} {rights : Rights} (hs : Sound p s)
    (hinside : e.Inside p) (hlimit : span.stop ≤ p.limit) :
    ((∃ err, (s.grant p v e span rights).1 = .error err) →
      ∀ va, (s.grant p v e span rights).2.translate p v va = s.translate p v va) ↔
    GrantSafe p s v e span rights := by
  unfold grant GrantSafe
  by_cases hbacks : Backs e span
  · rw [if_neg (not_not.mpr hbacks)]
    cases hroot : s.root v with
    | none => exact ⟨fun _ _ _ => nofun, fun _ _ _ => rfl⟩
    | some root =>
      refine ((grant_foreseen hbacks hlimit rights hs hroot).unchanged_iff hinside hs hroot
        fun k hk => mapOne_spec hbacks hlimit rights hk).trans ?_
      constructor
      · intro h _ root' hroot' j hj hrefused hfine i hi va hva
        cases hroot'
        rw [h j hj (not_not.mpr hrefused) hfine i hi va hva,
          grantWord_landing hbacks hlimit rights (by omega)]
      · intro h j hj hrefused hfine i hi va hva
        rw [h hbacks root rfl j hj (not_not.mp hrefused) hfine i hi va hva,
          grantWord_landing hbacks hlimit rights (by omega)]
  · rw [if_pos hbacks]
    exact ⟨fun _ hb => absurd hb hbacks, fun _ _ _ => rfl⟩

theorem revoke_unchanged_iff (hs : Sound p s) (hinside : e.Inside p) :
    ((∃ err, (s.revoke p v e).1 = .error err) →
      ∀ va, (s.revoke p v e).2.translate p v va = s.translate p v va) ↔
    RevokeSafe p s v e := by
  cases hroot : s.root v with
  | none =>
    unfold revoke RevokeSafe
    rw [hroot]
    exact ⟨fun _ _ => nofun, fun _ _ _ => rfl⟩
  | some root =>
    have herr : (∃ err, (s.revoke p v e).1 = .error err) ↔
        ∃ err, (each (unmapOne p root e) (List.range e.leaves) s).1
          = .error err := by
      unfold revoke
      rw [hroot]
      dsimp only
      rcases each (unmapOne p root e) (List.range e.leaves) s with ⟨_ | _, _⟩
      · exact ⟨fun _ => ⟨_, rfl⟩, fun _ => ⟨_, rfl⟩⟩
      · exact ⟨nofun, nofun⟩
    rw [herr, revoke_tables hroot]
    refine ((revoke_foreseen hinside hs hroot).unchanged_iff hinside hs hroot
      fun k _ => unmapOne_spec k).trans ?_
    unfold RevokeSafe
    constructor
    · intro h root' hroot' j hj hnot hpresent
      rw [hroot] at hroot'
      cases hroot'
      exact h j hj hnot hpresent
    · exact fun h => h root hroot

end Calls

/-- A refused grant or revoke changes no translation if and only if the leaves
before the one it is refused at were already as it leaves them. -/
theorem refused_call_changes_nothing_iff (mode : Mode) (s : Tables)
    (hs : Reachable mode.port s) (v : Nat) (e : Extent) (hinside : e.Inside mode.port) :
    (∀ (span : Span) (rights : Rights), span.stop ≤ mode.port.limit →
      (((∃ err, (s.grant mode.port v e span rights).1 = .error err) →
        ∀ va, (s.grant mode.port v e span rights).2.translate mode.port v va
          = s.translate mode.port v va) ↔ GrantSafe mode.port s v e span rights))
    ∧ (((∃ err, (s.revoke mode.port v e).1 = .error err) →
        ∀ va, (s.revoke mode.port v e).2.translate mode.port v va
          = s.translate mode.port v va) ↔ RevokeSafe mode.port s v e) :=
  ⟨fun _ _ hlimit => grant_unchanged_iff hs.sound hinside hlimit,
    revoke_unchanged_iff hs.sound hinside⟩

/-- A view of Sv39, and one frame for the two tables a page needs. -/
def bareTables : Tables := (boot (fun _ _ => 0) [0x1000, 0x2000]).openView.2

theorem bareTables_reachable : Reachable Mode.sv39.port bareTables :=
  .openView (.boot _ (by decide) (by decide))

/-- A page has no leaf before it, so a grant of one leaves nothing behind. -/
theorem refused_call_changes_nothing_iff_page :
    (bareTables.grant Mode.sv39.port 0 pageGrant.extent pageGrant.span pageGrant.rights).1
      = .error .outOfFrames
    ∧ ∀ va, (bareTables.grant Mode.sv39.port 0 pageGrant.extent pageGrant.span
        pageGrant.rights).2.translate Mode.sv39.port 0 va
      = bareTables.translate Mode.sv39.port 0 va := by
  have hrefused : (bareTables.grant Mode.sv39.port 0 pageGrant.extent pageGrant.span
      pageGrant.rights).1 = .error .outOfFrames := by
    decide +kernel
  have hsafe : GrantSafe Mode.sv39.port bareTables 0 pageGrant.extent pageGrant.span
      pageGrant.rights := by
    intro _ root _ j hj _ _ i hi
    have hone : pageGrant.extent.leaves = 1 := rfl
    omega
  refine ⟨hrefused, ?_⟩
  exact ((refused_call_changes_nothing_iff .sv39 bareTables bareTables_reachable 0
    pageGrant.extent (by decide)).1 pageGrant.span pageGrant.rights (by decide)).mpr hsafe
    ⟨_, hrefused⟩

/-- Two pages on both sides of a table's end, and memory for them. -/
def twoPages : Extent := ⟨3 * 2 ^ 36 + 0x1ff000, 2, .page, by decide, by decide⟩

def twoFrames : Span := ⟨0x80000000, 0x80002000⟩

/-- A view of Sv39 whose tables the pool has too few frames for. -/
def shortTables : Tables := (boot (fun _ _ => 0) [0x1000, 0x2000, 0x3000]).openView.2

theorem shortTables_reachable : Reachable Mode.sv39.port shortTables :=
  .openView (.boot _ (by decide) (by decide))

/-- The second page needs one table more than there is. -/
def shortGrant : Except Error Unit × Tables :=
  shortTables.grant Mode.sv39.port 0 twoPages twoFrames pageGrant.rights

/-- The second page is not there. -/
def shortRevoke : Except Error Nat × Tables := shortGrant.2.revoke Mode.sv39.port 0 twoPages

/-- A grant refused for want of a table leaves its first page mapped, and a
revoke refused for want of a page takes the first away. -/
theorem refused_calls_leave_their_mark :
    Reachable Mode.sv39.port shortTables ∧ twoPages.Inside Mode.sv39.port
    ∧ twoFrames.stop ≤ Mode.sv39.port.limit
    ∧ shortGrant.1 = .error .outOfFrames
    ∧ shortTables.translate Mode.sv39.port 0 (3 * 2 ^ 36 + 0x1ff000) = none
    ∧ shortGrant.2.translate Mode.sv39.port 0 (3 * 2 ^ 36 + 0x1ff000)
      = some (0x80000000, true, true, false)
    ∧ shortRevoke.1 = .error .absent
    ∧ shortRevoke.2.translate Mode.sv39.port 0 (3 * 2 ^ 36 + 0x1ff000) = none := by
  refine ⟨shortTables_reachable, ?_⟩
  decide +kernel

end Molt.Platform.Paging
