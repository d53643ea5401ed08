/-
A view translates what was granted into it
(`platform/riscv/src/paging.rs`, `platform/x86_64/src/memory.rs`: `grant`,
`revoke`, `split_leaf`).

# Places

Every frame of a table has a place: a view, a level, and the addresses it
covers, as their slot at the level above (`Owned`). A pointer leads from a
place to the one below it, so a walk to an address meets only frames whose
place covers it. A write to a table then changes only walks through its
place, and of those only the ones through the entry that was written
(`Owned.descend_congr`). A place may have several frames, all but one of them
cut off by a revoke.

# What an operation does

A table that is added is empty where there was nothing, and so changes no
walk. What is left of a `map_leaf` or an `unmap_leaf` is one write at the
leaf's level, and of a `split_leaf` a write of a pointer to the pieces.
-/
import Molt.Platform.Ports

namespace Molt.Platform.Paging

open Molt.Lib List Function Tables

variable {p : Port}

-- == addresses

theorem granule_pos (level : Nat) : 0 < granule level := Nat.two_pow_pos _

theorem granule_succ (level : Nat) : granule (level + 1) = granule level * FANOUT := by
  unfold granule FANOUT
  rw [show 12 + 9 * (level + 1) = 12 + 9 * level + 9 by omega, Nat.pow_add]

theorem frame_dvd_granule (level : Nat) : FRAME_SIZE ∣ granule level := by
  exact pow_dvd_pow 2 (show 12 ≤ 12 + 9 * level by omega)

/-- Which entry of its level an address is in, over all tables of the level. -/
def slot (p : Port) (va level : Nat) : Nat := va % p.width / granule level

theorem slot_succ (va level : Nat) : slot p va (level + 1) = slot p va level / FANOUT := by
  unfold slot
  rw [granule_succ, Nat.div_div_eq_div_mul]

theorem slot_top (va : Nat) : slot p va (p.top + 1) = 0 :=
  Nat.div_eq_of_lt (Nat.mod_lt _ (granule_pos _))

theorem index_lt (va level : Nat) : index va level < FANOUT := Nat.mod_lt _ (by decide)

theorem index_eq {level : Nat} (h : level ≤ p.top) (va : Nat) :
    index va level = slot p va level % FANOUT := by
  unfold index slot Port.width
  obtain ⟨k, hk⟩ := Nat.exists_eq_add_of_le h
  have hsplit : granule (p.top + 1) = granule level * (FANOUT * 2 ^ (9 * k)) := by
    unfold granule FANOUT
    rw [hk, show 12 + 9 * (level + k + 1) = 12 + 9 * level + (9 + 9 * k) by omega,
      Nat.pow_add 2 (12 + 9 * level), Nat.pow_add 2 9]
  rw [hsplit, Nat.mod_mul_right_div_self, Nat.mod_mod_of_dvd _ (Nat.dvd_mul_right _ _)]

theorem slot_eq {level : Nat} (h : level ≤ p.top) (va : Nat) :
    FANOUT * slot p va (level + 1) + index va level = slot p va level := by
  rw [index_eq h, slot_succ, Nat.div_add_mod]

theorem slot_of_lt {va : Nat} (h : va < p.width) (level : Nat) :
    slot p va level = va / granule level := by
  rw [slot, Nat.mod_eq_of_lt h]

-- == places

/-- A view, a level, and the slot of the level above that leads here. -/
structure Place where
  view : Nat
  level : Nat
  slot : Nat

/-- A leaf is aligned memory of its level's size. -/
def Fit (p : Port) (level a : Nat) : Prop :=
  level ≤ 2 ∧ a % granule level = 0 ∧ a + granule level ≤ p.limit

theorem Fit.frame {level a : Nat} (h : Fit p level a) : a % FRAME_SIZE = 0 := by
  have := Nat.mod_mod_of_dvd a (frame_dvd_granule level)
  rw [h.2.1] at this
  simpa using this.symm

theorem Fit.lt {level a : Nat} (h : Fit p level a) : a < p.limit := by
  have := granule_pos level
  have := h.2.2
  omega

/-- A word of a table at a place: a pointer leads to the place below. -/
structure Word (p : Port) (own : Nat → Option Place) (place : Place) (i w : Nat) : Prop where
  table : p.kind place.level w = .table → ∃ level, place.level = level + 1
    ∧ own (p.base w) = some ⟨place.view, level, FANOUT * place.slot + i⟩
  leaf : p.kind place.level w = .leaf → Fit p place.level (p.base w)

/-- Every table has a place, and the pool is none of them. -/
structure Owned (p : Port) (own : Nat → Option Place) (s : Tables) : Prop where
  level : ∀ {f place}, own f = some place → place.level ≤ p.top
  pool : ∀ f ∈ s.pool, own f = none ∧ f % FRAME_SIZE = 0 ∧ f < p.limit
  nodup : s.pool.Nodup
  root : ∀ {v r}, s.root v = some r → own r = some ⟨v, p.top, 0⟩
  word : ∀ {f place i}, own f = some place → i < FANOUT → Word p own place i (s.heap f i)

def Alike (p : Port) (level w w' : Nat) : Prop :=
  p.kind level w' = p.kind level w
    ∧ (p.kind level w = .table → p.base w' = p.base w)
    ∧ (p.kind level w = .leaf → w' = w)

theorem Alike.of_eq {level w w' : Nat} (h : w' = w) : Alike p level w w' := by
  subst h
  exact ⟨rfl, fun _ => rfl, fun _ => rfl⟩

section Walk

variable {own own' : Nat → Option Place} {s s' : Tables} {v level x f va : Nat}

theorem descend_eq (s : Tables) (va level f : Nat) : s.descend p va level f =
    match p.kind level (s.heap f (index va level)), level with
    | .absent, _ => none
    | .leaf, _ => some (s.heap f (index va level), level)
    | .table, 0 => none
    | .table, level + 1 => s.descend p va level (p.base (s.heap f (index va (level + 1)))) := by
  cases level with
  | zero | succ =>
    rw [descend]
    split <;> simp_all

theorem descend_absent (h : p.kind level (s.heap f (index va level)) = .absent) :
    s.descend p va level f = none := by
  rw [descend_eq, h]

theorem descend_leaf (h : p.kind level (s.heap f (index va level)) = .leaf) :
    s.descend p va level f = some (s.heap f (index va level), level) := by
  rw [descend_eq, h]

theorem descend_table (h : p.kind (level + 1) (s.heap f (index va (level + 1))) = .table) :
    s.descend p va (level + 1) f
      = s.descend p va level (p.base (s.heap f (index va (level + 1)))) := by
  rw [descend_eq, h]

theorem Owned.next (h : Owned p own s) (hf : own f = some ⟨v, level, slot p va (level + 1)⟩)
    (hkind : p.kind level (s.heap f (index va level)) = .table) :
    ∃ l, level = l + 1
      ∧ own (p.base (s.heap f (index va level))) = some ⟨v, l, slot p va (l + 1)⟩ := by
  obtain ⟨l, hl, hown⟩ := (h.word hf (index_lt va level)).table hkind
  refine ⟨l, hl, ?_⟩
  rw [hown, slot_eq (h.level hf), hl]

theorem Owned.descend_congr (h : Owned p own s) {va : Nat} :
    ∀ {level f : Nat}, own f = some ⟨v, level, slot p va (level + 1)⟩ →
      (∀ l g, l ≤ level → own g = some ⟨v, l, slot p va (l + 1)⟩ →
        Alike p l (s.heap g (index va l)) (s'.heap g (index va l))) →
      s'.descend p va level f = s.descend p va level f := by
  intro level
  induction level with
  | zero =>
    intro f hf halike
    obtain ⟨hkind, -, hleaf⟩ := halike 0 f (Nat.le_refl 0) hf
    cases hk : p.kind 0 (s.heap f (index va 0)) with
    | absent => rw [descend_absent hk, descend_absent (hkind.trans hk)]
    | leaf => rw [descend_leaf hk, descend_leaf (hkind.trans hk), hleaf hk]
    | table =>
      obtain ⟨l, hl, -⟩ := h.next hf hk
      omega
  | succ level ih =>
    intro f hf halike
    obtain ⟨hkind, hbase, hleaf⟩ := halike (level + 1) f le_rfl hf
    cases hk : p.kind (level + 1) (s.heap f (index va (level + 1))) with
    | absent => rw [descend_absent hk, descend_absent (hkind.trans hk)]
    | leaf => rw [descend_leaf hk, descend_leaf (hkind.trans hk), hleaf hk]
    | table =>
      obtain ⟨l, hl, hnext⟩ := h.next hf hk
      obtain rfl : level = l := by omega
      rw [descend_table hk, descend_table (hkind.trans hk), hbase hk]
      exact ih hnext fun l g hle hg => halike l g (by omega) hg

/-- The pointers from a table of one level to a table of a lower one, on the
way to an address. -/
inductive Path (p : Port) (s : Tables) (va : Nat) : Nat → Nat → Nat → Nat → Prop where
  | here (l t : Nat) : Path p s va l t l t
  | down {n f l t : Nat} : p.kind (n + 1) (s.heap f (index va (n + 1))) = .table →
      Path p s va n (p.base (s.heap f (index va (n + 1)))) l t → Path p s va (n + 1) f l t

variable {n f l t : Nat}

theorem Path.le (h : Path p s va n f l t) : l ≤ n := by
  induction h with
  | here l t => exact Nat.le_refl l
  | down _ _ ih => omega

theorem Path.eq_of_level (h : Path p s va n f l t) (hn : n = l) : f = t := by
  cases h with
  | here => rfl
  | down _ hpath =>
    have := hpath.le
    omega

theorem Path.down_of_lt (h : Path p s va (n + 1) f l t) (hn : l < n + 1) :
    p.kind (n + 1) (s.heap f (index va (n + 1))) = .table
      ∧ Path p s va n (p.base (s.heap f (index va (n + 1)))) l t := by
  cases h with
  | here => exact absurd hn (Nat.lt_irrefl _)
  | down hk hpath => exact ⟨hk, hpath⟩

theorem Path.descend (h : Path p s va n f l t) : s.descend p va n f = s.descend p va l t := by
  induction h with
  | here l t => rfl
  | down hk _ ih => rw [descend_table hk, ih]

theorem Path.trans (h : Path p s va n f (l + 1) t)
    (hk : p.kind (l + 1) (s.heap t (index va (l + 1))) = .table) :
    Path p s va n f l (p.base (s.heap t (index va (l + 1)))) := by
  generalize hl : l + 1 = l' at h
  induction h with
  | here =>
    subst hl
    exact .down hk (.here _ _)
  | down hk' _ ih => exact .down hk' (ih hk hl)

theorem Path.congr {n l t : Nat} (h : Path p s va n f l t) (hs : Owned p own s)
    (hf : own f = some ⟨v, n, slot p va (n + 1)⟩)
    (hsame : ∀ g place, own g = some place → l < place.level → s'.heap g = s.heap g) :
    Path p s' va n f l t := by
  induction h with
  | here l t => exact .here l t
  | down hk hpath ih =>
    have hle := hpath.le
    have hheap := hsame _ _ hf (by dsimp only; omega)
    obtain ⟨l', hl', hnext⟩ := hs.next hf hk
    obtain rfl : _ = l' := Nat.succ.inj hl'
    apply Path.down
    · rw [hheap]
      exact hk
    · rw [hheap]
      exact ih hnext hsame

-- -- writes

@[simp] theorem write_same (s : Tables) (f i w : Nat) : (s.write f i w).heap f i = w := by
  simp [write]

theorem write_ne (s : Tables) {f i g j : Nat} (w : Nat) (h : ¬ (g = f ∧ j = i)) :
    (s.write f i w).heap g j = s.heap g j := by
  unfold write
  dsimp only
  by_cases hg : g = f
  · subst hg
    have hj : j ≠ i := fun hj => h ⟨rfl, hj⟩
    rw [update_self, update_of_ne hj]
  · rw [update_of_ne hg]

theorem write_heap_ne (s : Tables) {f i g : Nat} (w : Nat) (h : g ≠ f) :
    (s.write f i w).heap g = s.heap g := by
  exact update_of_ne h _ _

@[simp] theorem write_root (s : Tables) (f i w v : Nat) : (s.write f i w).root v = s.root v := rfl

@[simp] theorem write_pool (s : Tables) (f i w : Nat) : (s.write f i w).pool = s.pool := rfl

theorem Owned.write (h : Owned p own s) {place : Place} (hf : own f = some place) {i w : Nat}
    (hw : Word p own place i w) : Owned p own (s.write f i w) :=
  { h with
    word := by
      intro g place' j hg hj
      by_cases heq : g = f ∧ j = i
      · obtain ⟨rfl, rfl⟩ := heq
        obtain rfl : place = place' := Option.some.inj (hf.symm.trans hg)
        rw [write_same]
        exact hw
      · rw [write_ne s w heq]
        exact h.word hg hj }

theorem Owned.descend_write (h : Owned p own s) {v0 l0 x0 i w : Nat}
    (hf : own f = some ⟨v0, l0, x0⟩) {g : Nat}
    (hg : own g = some ⟨v, level, slot p va (level + 1)⟩)
    (hother : ¬ (v = v0 ∧ slot p va l0 = FANOUT * x0 + i)) :
    (s.write f i w).descend p va level g = s.descend p va level g := by
  apply h.descend_congr hg
  intro l g' _ hg'
  apply Alike.of_eq
  apply write_ne
  rintro ⟨rfl, rfl⟩
  apply hother
  have hplace := Option.some.inj (hf.symm.trans hg')
  simp only [Place.mk.injEq] at hplace
  obtain ⟨rfl, rfl, rfl⟩ := hplace
  exact ⟨rfl, (slot_eq (h.level hf) va).symm⟩

-- -- allocation

/-- A frame allocated had no place, and gets one. -/
theorem Owned.alloc (h : Owned p own s) {content : Nat → Nat} {frame : Nat}
    (halloc : s.alloc content = some (frame, s')) {place : Place} (hlevel : place.level ≤ p.top)
    (hcontent : ∀ i < FANOUT, p.kind place.level (content i) ≠ .table
      ∧ (p.kind place.level (content i) = .leaf → Fit p place.level (p.base (content i)))) :
    Owned p (Function.update own frame (some place)) s' ∧ own frame = none
      ∧ frame % FRAME_SIZE = 0 ∧ frame < p.limit ∧ s'.root = s.root
      ∧ s.pool = frame :: s'.pool ∧ s'.heap frame = content
      ∧ ∀ g ≠ frame, s'.heap g = s.heap g := by
  unfold Tables.alloc at halloc
  cases hpool : s.pool with
  | nil =>
    rw [hpool] at halloc
    cases halloc
  | cons frame' pool =>
    rw [hpool] at halloc
    cases halloc
    have hmem : frame ∈ s.pool := by
      rw [hpool]
      exact mem_cons_self
    obtain ⟨hfree, haligned, hlt⟩ := h.pool frame hmem
    have hnodup := h.nodup
    rw [hpool, nodup_cons] at hnodup
    have hne : ∀ {g place'}, own g = some place' → g ≠ frame := by
      rintro g place' hg rfl
      rw [hfree] at hg
      cases hg
    refine ⟨?_, hfree, haligned, hlt, rfl, rfl, update_self .., ?_⟩
    · refine ⟨?_, ?_, hnodup.2, ?_, ?_⟩
      · intro g place' hg
        by_cases heq : g = frame
        · rw [heq, update_self] at hg
          cases hg
          exact hlevel
        · rw [update_of_ne heq] at hg
          exact h.level hg
      · intro g hg
        have hgne : g ≠ frame := by
          rintro rfl
          exact hnodup.1 hg
        rw [update_of_ne hgne]
        exact h.pool g (by rw [hpool]; exact mem_cons_of_mem _ hg)
      · intro v' r hr
        have hroot := h.root hr
        rw [update_of_ne (hne hroot)]
        exact hroot
      · intro g place' i hg hi
        by_cases heq : g = frame
        · rw [heq, update_self] at hg
          cases hg
          rw [heq]
          show Word p _ _ i (Function.update s.heap frame content frame i)
          rw [update_self]
          exact ⟨fun ht => absurd ht (hcontent i hi).1, (hcontent i hi).2⟩
        · rw [update_of_ne heq] at hg
          show Word p _ _ i (Function.update s.heap frame content g i)
          rw [update_of_ne heq]
          have hword := h.word hg hi
          refine ⟨?_, hword.leaf⟩
          intro ht
          obtain ⟨l, hl, hown⟩ := hword.table ht
          exact ⟨l, hl, by rw [update_of_ne (hne hown)]; exact hown⟩
    · intro g hg
      exact update_of_ne hg _ _

theorem alloc_roots {content : Nat → Nat} {frame : Nat}
    (h : s.alloc content = some (frame, s')) : s'.roots = s.roots := by
  unfold alloc at h
  split at h
  · cases h
  · cases h
    rfl

theorem Owned.descend_alloc (h : Owned p own s) {frame : Nat} (hfree : own frame = none)
    (hsame : ∀ g ≠ frame, s'.heap g = s.heap g) {g : Nat}
    (hg : own g = some ⟨v, level, slot p va (level + 1)⟩) :
    s'.descend p va level g = s.descend p va level g := by
  apply h.descend_congr hg
  intro l g' _ hg'
  apply Alike.of_eq
  rw [hsame]
  rintro rfl
  rw [hfree] at hg'
  cases hg'

-- -- new tables

def SameWalks (p : Port) (own : Nat → Option Place) (s s' : Tables) : Prop :=
  ∀ {v level va g}, own g = some ⟨v, level, slot p va (level + 1)⟩ →
    s'.descend p va level g = s.descend p va level g

/-- More frames have a place, and those that had one keep it. -/
def Extends (own own' : Nat → Option Place) : Prop :=
  ∀ {f place}, own f = some place → own' f = some place

/-- What one step down on the way to a leaf leaves behind: a pointer to the
next table, and the walks as they were. -/
structure Linked (p : Port) (own : Nat → Option Place) (s : Tables) (table va : Nat)
    (place : Place) (own' : Nat → Option Place) (s' : Tables) (entry : Nat) : Prop where
  owned : Owned p own' s'
  ext : Extends own own'
  walks : SameWalks p own s s'
  roots : s'.root = s.root
  written : s'.heap table (index va (place.level + 1)) = entry
  kind : p.kind (place.level + 1) entry = .table
  base : own' (p.base entry) = some place
  above : ∀ g place', own g = some place' → place.level + 1 < place'.level → s'.heap g = s.heap g

theorem Owned.descend_hollow (h : Owned p own s) {table i x : Nat}
    (hf : own table = some ⟨v, level + 1, x⟩)
    (hsame : ∀ {g place j}, own g = some place → ¬ (g = table ∧ j = i) → s'.heap g j = s.heap g j)
    (hold : p.kind (level + 1) (s.heap table i) = .absent)
    (hnew : p.kind (level + 1) (s'.heap table i) = .table)
    (hempty : ∀ j, p.kind level (s'.heap (p.base (s'.heap table i)) j) = .absent) :
    SameWalks p own s s' := by
  intro v' level' va' g hg
  induction level' generalizing g with
  | zero =>
    have hne : ¬ (g = table ∧ index va' 0 = i) := by
      rintro ⟨rfl, -⟩
      rw [hf] at hg
      cases hg
    apply h.descend_congr hg
    intro l g' hl hg'
    obtain rfl : l = 0 := by omega
    apply Alike.of_eq
    apply hsame hg'
    rintro ⟨rfl, -⟩
    rw [hf] at hg'
    cases hg'
  | succ level' ih =>
    by_cases hhere : g = table ∧ index va' (level' + 1) = i
    · obtain ⟨rfl, rfl⟩ := hhere
      have hlevel : level' = level := by
        have := Option.some.inj (hf.symm.trans hg)
        simp only [Place.mk.injEq] at this
        omega
      subst hlevel
      rw [descend_absent hold, descend_table hnew]
      exact descend_absent (hempty _)
    · have hword := hsame hg hhere
      cases hk : p.kind (level' + 1) (s.heap g (index va' (level' + 1))) with
      | absent => rw [descend_absent hk, descend_absent (by rw [hword]; exact hk)]
      | leaf => rw [descend_leaf hk, descend_leaf (by rw [hword]; exact hk), hword]
      | table =>
        obtain ⟨l, hl, hnext⟩ := h.next hg hk
        obtain rfl : level' = l := by omega
        rw [descend_table hk, descend_table (by rw [hword]; exact hk), hword]
        exact ih hnext

/-- A new table under an absent entry changes no walk. -/
theorem Owned.link_absent (h : Owned p own s) (flags : Nat) {table next : Nat}
    (hf : own table = some ⟨v, level + 1, slot p va (level + 2)⟩)
    (hkind : p.kind (level + 1) (s.heap table (index va (level + 1))) = .absent)
    {s1 : Tables} (halloc : s.alloc (fun _ => 0) = some (next, s1)) :
    Linked p own s table va ⟨v, level, slot p va (level + 1)⟩
      (Function.update own next (some ⟨v, level, slot p va (level + 1)⟩))
      (s1.write table (index va (level + 1)) (p.widen flags (p.pointer flags next)))
      (p.widen flags (p.pointer flags next)) := by
  have hle := h.level hf
  have hplace : (⟨v, level, slot p va (level + 1)⟩ : Place).level ≤ p.top := by
    dsimp only at hle ⊢
    omega
  obtain ⟨howned, hfree, haligned, hlt, hroots, -, hzero, hsame⟩ := h.alloc halloc hplace
    (fun i _ => by rw [p.kind_zero]; exact ⟨nofun, nofun⟩)
  have hne : ∀ {g place}, own g = some place → g ≠ next := by
    rintro g place hg rfl
    rw [hfree] at hg
    cases hg
  have hext : Extends own (Function.update own next (some ⟨v, level, slot p va (level + 1)⟩)) := by
    intro g place hg
    rw [update_of_ne (hne hg)]
    exact hg
  obtain ⟨hpk, hpb⟩ := p.pointer_table (f := flags) (Nat.succ_pos level) haligned hlt
  obtain ⟨hwk, hwb⟩ := p.widen_table (f := flags) (Nat.succ_pos level) hpk
  rw [hpb] at hwb
  generalize p.widen flags (p.pointer flags next) = entry at hwk hwb
  have hbase : (Function.update own next (some ⟨v, level, slot p va (level + 1)⟩))
      (p.base entry) = some ⟨v, level, slot p va (level + 1)⟩ := by
    rw [hwb, update_self]
  refine ⟨?_, hext, ?_, hroots, write_same _ _ _ _, hwk, hbase, ?_⟩
  · apply howned.write (hext hf)
    refine ⟨fun _ => ⟨level, rfl, ?_⟩, ?_⟩
    · rw [hbase, slot_eq hle]
    · intro hleaf
      rw [show p.kind (level + 1) entry = .leaf from hleaf] at hwk
      cases hwk
  · -- where there was nothing there is now an empty table
    refine h.descend_hollow hf ?_ hkind ?_ ?_
    · intro g place j hg hne'
      rw [write_ne _ _ hne', hsame g (hne hg)]
    · rw [write_same]
      exact hwk
    · intro j
      rw [write_same, hwb, write_heap_ne _ _ (hne hf).symm, hzero]
      exact p.kind_zero level
  · intro g place' hg hlt'
    have hgt : g ≠ table := by
      rintro rfl
      rw [hf] at hg
      cases hg
      dsimp only at hlt'
      omega
    rw [write_heap_ne _ _ hgt, hsame g (hne hg)]

theorem Owned.link_table (h : Owned p own s) (flags : Nat) {table : Nat}
    (hf : own table = some ⟨v, level + 1, slot p va (level + 2)⟩)
    (hkind : p.kind (level + 1) (s.heap table (index va (level + 1))) = .table) :
    Linked p own s table va ⟨v, level, slot p va (level + 1)⟩ own
      (s.write table (index va (level + 1)) (p.widen flags (s.heap table (index va (level + 1)))))
      (p.widen flags (s.heap table (index va (level + 1)))) := by
  obtain ⟨hwk, hwb⟩ := p.widen_table (f := flags) (Nat.succ_pos level) hkind
  obtain ⟨l, hl, hnext⟩ := h.next hf hkind
  obtain rfl : level = l := by omega
  generalize hentry : p.widen flags (s.heap table (index va (level + 1))) = entry at hwk hwb
  have hbase : own (p.base entry) = some ⟨v, level, slot p va (level + 1)⟩ := by
    rw [hwb]
    exact hnext
  refine ⟨?_, id, ?_, rfl, write_same _ _ _ _, hwk, hbase, ?_⟩
  · apply h.write hf
    refine ⟨fun _ => ⟨level, rfl, ?_⟩, ?_⟩
    · rw [hbase, slot_eq (h.level hf)]
    · intro hleaf
      rw [show p.kind (level + 1) entry = .leaf from hleaf] at hwk
      cases hwk
  · intro v' level' va' g hg
    apply h.descend_congr hg
    intro l g' _ hg'
    by_cases heq : g' = table ∧ index va' l = index va (level + 1)
    · obtain ⟨rfl, hi⟩ := heq
      have hplace := Option.some.inj (hf.symm.trans hg')
      simp only [Place.mk.injEq] at hplace
      obtain ⟨-, rfl, -⟩ := hplace
      rw [hi, write_same]
      refine ⟨hwk.trans hkind.symm, fun _ => hwb, ?_⟩
      intro hleaf
      rw [hkind] at hleaf
      cases hleaf
    · exact Alike.of_eq (write_ne _ _ heq)
  · intro g place' hg hlt
    apply write_heap_ne
    rintro rfl
    rw [hf] at hg
    cases hg
    dsimp only at hlt
    omega

/-- What the way down to a leaf's table does, and where it leads. -/
structure Reached (p : Port) (own : Nat → Option Place) (s : Tables) (table va level n : Nat)
    (v : Nat) (r : Except Error Nat) (own' : Nat → Option Place) (s' : Tables) : Prop where
  owned : Owned p own' s'
  ext : Extends own own'
  walks : SameWalks p own s s'
  roots : s'.root = s.root
  above : ∀ g place, own g = some place → level + n < place.level → s'.heap g = s.heap g
  leads : ∀ t, r = .ok t → own' t = some ⟨v, level, slot p va (level + 1)⟩
    ∧ ∀ va', slot p va' (level + 1) = slot p va (level + 1) →
      Path p s' va' (level + n) table level t

theorem slot_mono {va va' : Nat} {l : Nat} (n : Nat) (h : slot p va' l = slot p va l) :
    slot p va' (l + n) = slot p va (l + n) := by
  induction n with
  | zero => exact h
  | succ n ih => rw [← Nat.add_assoc, slot_succ, slot_succ, ih]

/-- `reach` goes down to the level, adding the tables on the way. -/
theorem Owned.reach (flags va level v : Nat) : ∀ (n : Nat) {own : Nat → Option Place}
    {s : Tables} {table : Nat}, Owned p own s →
    own table = some ⟨v, level + n, slot p va (level + n + 1)⟩ →
    ∃ own', Reached p own s table va level n v
      (reach p flags va level n s table).1 own'
      (reach p flags va level n s table).2 := by
  intro n
  induction n with
  | zero =>
    intro own s table h hf
    refine ⟨own, h, id, fun _ => rfl, rfl, fun _ _ _ _ => rfl, ?_⟩
    intro t ht
    cases ht
    exact ⟨hf, fun _ _ => .here level table⟩
  | succ n ih =>
    intro own s table h hf
    have hf : own table = some ⟨v, level + n + 1, slot p va (level + n + 2)⟩ := hf
    -- after a step down, the rest of the way starts at the next place
    have hnext : ∀ {own1 s1 entry}, Linked p own s table va
        ⟨v, level + n, slot p va (level + n + 1)⟩ own1 s1 entry →
        ∃ own', Reached p own s table va level (n + 1) v
          (Tables.reach p flags va level n s1 (p.base entry)).1 own'
          (Tables.reach p flags va level n s1 (p.base entry)).2 := by
      intro own1 s1 entry hl
      obtain ⟨own', hr⟩ := ih hl.owned hl.base
      refine ⟨own', hr.owned, fun hg => hr.ext (hl.ext hg), ?_, hr.roots.trans hl.roots, ?_, ?_⟩
      · intro v' l' va' g hg
        rw [hr.walks (hl.ext hg), hl.walks hg]
      · intro g place hg hlt
        rw [hr.above g place (hl.ext hg) (by omega), hl.above g place hg (by dsimp only; omega)]
      intro t ht
      obtain ⟨hown, hleads⟩ := hr.leads t ht
      refine ⟨hown, ?_⟩
      intro va' hva'
      have hidx : index va' (level + n + 1) = index va (level + n + 1) := by
        have hle : level + n + 1 ≤ p.top := h.level hf
        rw [index_eq hle, index_eq hle,
          show level + n + 1 = level + 1 + n by omega, slot_mono n hva']
      have hheap := hr.above table _ (hl.ext hf) (by dsimp only; omega)
      have hentry : (Tables.reach p flags va level n s1 (p.base entry)).2.heap table
          (index va' (level + n + 1)) = entry := by
        rw [hidx, hheap]
        exact hl.written
      show Path p _ va' (level + n + 1) table level t
      refine Path.down (by rw [hentry]; exact hl.kind) ?_
      rw [hentry]
      exact hleads va' hva'
    rw [Tables.reach]
    cases hk : p.kind (level + n + 1) (s.heap table (index va (level + n + 1))) with
    | absent =>
      cases halloc : s.alloc fun _ => 0 with
      | none =>
        exact ⟨own, h, id, fun _ => rfl, rfl, fun _ _ _ _ => rfl, nofun⟩
      | some result =>
        obtain ⟨next, s1⟩ := result
        exact hnext (h.link_absent flags hf hk halloc)
    | leaf =>
      exact ⟨own, h, id, fun _ => rfl, rfl, fun _ _ _ _ => rfl, nofun⟩
    | table =>
      exact hnext (h.link_table flags hf hk)

end Walk

-- == operations

/-- The word a view translates an address by, and its level. -/
def walk (p : Port) (s : Tables) (v va : Nat) : Option (Nat × Nat) :=
  (s.root v).bind fun root => s.descend p va p.top root

/-- The tables are places, whatever they are. -/
def Sound (p : Port) (s : Tables) : Prop := ∃ own, Owned p own s

section Operations

variable {own own' : Nat → Option Place} {s s' : Tables} {v va root level : Nat}

theorem walk_root (h : s.root v = some root) : walk p s v va = s.descend p va p.top root := by
  rw [walk, h]
  rfl

theorem walk_none (h : s.root v = none) : walk p s v va = none := by
  rw [walk, h]
  rfl

theorem Owned.top (h : Owned p own s) (hroot : s.root v = some root) (va : Nat) :
    own root = some ⟨v, p.top, slot p va (p.top + 1)⟩ := by
  rw [slot_top]
  exact h.root hroot

theorem Owned.walk_congr (h : Owned p own s) (hroots : s'.root = s.root)
    (hwalks : SameWalks p own s s') : walk p s' v va = walk p s v va := by
  cases hroot : s.root v with
  | none => rw [walk_none hroot, walk_none (by rw [hroots]; exact hroot)]
  | some root =>
    rw [walk_root hroot, walk_root (by rw [hroots]; exact hroot)]
    exact hwalks (h.top hroot va)

/-- Writing an entry changes the walks through it and no others. -/
theorem Owned.walk_write (h : Owned p own s) {t w : Nat}
    (ht : own t = some ⟨v, level, slot p va (level + 1)⟩)
    (hroot : s.root v = some root)
    (hpath : ∀ va', slot p va' (level + 1) = slot p va (level + 1) →
      Path p s va' p.top root level t)
    (v' va' : Nat) :
    walk p (s.write t (index va level) w) v' va'
      = if v' = v ∧ slot p va' level = slot p va level then
          (s.write t (index va level) w).descend p va' level t
        else walk p s v' va' := by
  have hle := h.level ht
  split
  case isTrue hhere =>
    obtain ⟨rfl, hslot⟩ := hhere
    rw [walk_root (show (s.write t (index va level) w).root v' = some root from hroot)]
    apply Path.descend
    refine (hpath va' (slot_mono 1 hslot)).congr h (h.top hroot va') ?_
    intro g place hg hlt
    apply write_heap_ne
    rintro rfl
    rw [ht] at hg
    cases hg
    exact absurd hlt (Nat.lt_irrefl _)
  case isFalse helse =>
    cases hroot' : s.root v' with
    | none => rw [walk_none hroot', walk_none (by rw [write_root]; exact hroot')]
    | some root' =>
      rw [walk_root hroot', walk_root (by rw [write_root]; exact hroot')]
      apply h.descend_write ht (h.top hroot' va')
      rintro ⟨rfl, hslot⟩
      apply helse
      rw [slot_eq hle] at hslot
      exact ⟨rfl, hslot⟩

theorem index_of_slot {va' : Nat} (hle : level ≤ p.top)
    (h : slot p va' level = slot p va level) : index va' level = index va level := by
  rw [index_eq hle, index_eq hle, h]

-- -- map_leaf

/-- What is left of an operation that wrote one leaf, or none. -/
structure Mapped (p : Port) (s : Tables) (v va level : Nat) (r : Except Error Unit)
    (leaf : Option (Nat × Nat)) (s' : Tables) : Prop where
  sound : Sound p s'
  roots : s'.root = s.root
  done : r = .ok () → ∀ v' va', walk p s' v' va'
    = if v' = v ∧ slot p va' level = slot p va level then leaf else walk p s v' va'
  refused : ∀ e, r = .error e → ∀ v' va', walk p s' v' va' = walk p s v' va'

/-- A leaf that fits may be written into any entry of its level. -/
theorem Owned.write_leaf (h : Owned p own s) {t pa x : Nat} (ht : own t = some ⟨v, level, x⟩)
    (hfit : Fit p level pa) (rights : Rights) (i : Nat) :
    Owned p own (s.write t i (p.leafWord level pa (p.flags rights))) := by
  obtain ⟨hkind, hbase, -⟩ := p.leaf_leaf level rights hfit.frame hfit.lt
  refine h.write ht ⟨?_, ?_⟩
  · intro htable
    rw [show p.kind level _ = .table from htable] at hkind
    cases hkind
  · intro _
    rw [hbase]
    exact hfit

/-- Mapping a leaf changes what its own pages translate to. -/
theorem Sound.mapLeaf (h : Sound p s) (hroot : s.root v = some root) {pa : Nat}
    (hfit : Fit p level pa) (rights : Rights) :
    Mapped p s v va level (s.mapLeaf p root va pa (p.flags rights) level).1
      (some (p.leafWord level pa (p.flags rights), level))
      (s.mapLeaf p root va pa (p.flags rights) level).2 := by
  obtain ⟨own, h⟩ := h
  have hle : level ≤ p.top := Nat.le_trans hfit.1 p.top_ge
  have hn : level + (p.top - level) = p.top := by omega
  obtain ⟨own', hr⟩ := h.reach (p.flags rights) va level v (p.top - level)
    (by rw [hn]; exact h.top hroot va)
  unfold Tables.mapLeaf
  rcases hreach : reach p (p.flags rights) va level (p.top - level) s root with ⟨r, s1⟩
  rw [hreach] at hr
  cases r with
  | error e =>
    exact ⟨⟨own', hr.owned⟩, hr.roots, nofun, fun _ _ v' va' => h.walk_congr hr.roots hr.walks⟩
  | ok t =>
    obtain ⟨ht, hpath⟩ := hr.leads t rfl
    have hroot1 : s1.root v = some root := by
      rw [hr.roots]
      exact hroot
    rw [hn] at hpath
    refine ⟨⟨own', hr.owned.write_leaf ht hfit rights _⟩, hr.roots, ?_, nofun⟩
    intro _ v' va'
    rw [hr.owned.walk_write ht hroot1 hpath]
    split
    case isTrue hhere =>
      rw [descend_leaf, index_of_slot hle hhere.2, write_same]
      rw [index_of_slot hle hhere.2, write_same]
      exact (p.leaf_leaf level rights hfit.frame hfit.lt).1
    case isFalse => exact h.walk_congr hr.roots hr.walks

-- -- unmap_leaf

theorem tableAt_path {n table t : Nat} (h : s.tableAt p va level n table = some t) :
    Path p s va (level + n) table level t := by
  induction n generalizing table with
  | zero =>
    cases h
    exact .here _ _
  | succ n ih =>
    rw [tableAt] at h
    split at h
    case h_1 hk => exact .down hk (ih h)
    case h_2 => cases h

theorem Path.tableAt {n table t : Nat} (h : Path p s va (level + n) table level t) :
    s.tableAt p va level n table = some t := by
  induction n generalizing table with
  | zero => rw [Tables.tableAt, h.eq_of_level rfl]
  | succ n ih =>
    have h : Path p s va (level + n + 1) table level t := h
    obtain ⟨hk, hpath⟩ := h.down_of_lt (by omega)
    rw [Tables.tableAt, hk]
    exact ih hpath

theorem Path.place {n f l t : Nat} (h : Path p s va n f l t) (hs : Owned p own s)
    (hf : own f = some ⟨v, n, slot p va (n + 1)⟩) : own t = some ⟨v, l, slot p va (l + 1)⟩ := by
  induction h with
  | here l t => exact hf
  | down hk _ ih =>
    obtain ⟨l', hl', hnext⟩ := hs.next hf hk
    obtain rfl : _ = l' := Nat.succ.inj hl'
    exact ih hnext

theorem Path.of_slot {n f l t va' : Nat} (h : Path p s va n f l t) (hle : n ≤ p.top)
    (hslot : slot p va' (l + 1) = slot p va (l + 1)) : Path p s va' n f l t := by
  induction h with
  | here l t => exact .here l t
  | @down n f l t hk hpath ih =>
    obtain ⟨k, hk'⟩ := Nat.exists_eq_add_of_le hpath.le
    have hidx : index va' (n + 1) = index va (n + 1) := by
      rw [index_eq hle, index_eq hle, hk', show l + k + 1 = l + 1 + k by omega, slot_mono k hslot]
    apply Path.down
    · rw [hidx]
      exact hk
    · rw [hidx]
      exact ih (by omega) hslot

theorem Sound.unmapLeaf (h : Sound p s) (hroot : s.root v = some root) (hle : level ≤ 2) :
    Mapped p s v va level (s.unmapLeaf p root va level).1 none (s.unmapLeaf p root va level).2 := by
  obtain ⟨own, h⟩ := h
  have hle : level ≤ p.top := hle.trans p.top_ge
  have hn : level + (p.top - level) = p.top := by omega
  have hsame : ∀ e : Error, Mapped p s v va level (.error e) none s := fun e =>
    ⟨⟨own, h⟩, rfl, nofun, fun _ _ _ _ => rfl⟩
  unfold Tables.unmapLeaf
  cases htable : s.tableAt p va level (p.top - level) root with
  | none => exact hsame .absent
  | some t =>
    have hpath := tableAt_path htable
    rw [hn] at hpath
    have ht := hpath.place h (h.top hroot va)
    dsimp only
    split
    · exact hsame .absent
    refine ⟨⟨own, h.write ht ⟨?_, ?_⟩⟩, rfl, ?_, nofun⟩
    · intro hk
      rw [p.kind_zero] at hk
      cases hk
    · intro hk
      rw [p.kind_zero] at hk
      cases hk
    · intro _ v' va'
      rw [h.walk_write ht hroot fun va' hva' => hpath.of_slot le_rfl hva']
      split
      case isTrue hhere =>
        apply descend_absent
        rw [index_of_slot hle hhere.2, write_same]
        exact p.kind_zero level
      case isFalse => rfl

-- -- split_leaf

def landing (p : Port) (va : Nat) (e : Nat × Nat) : Nat × Bool × Bool × Bool :=
  (p.base e.1 / granule e.2 * granule e.2 + (va - va / granule e.2 * granule e.2), p.rights e.1)

theorem translate_eq : s.translate p v va = (walk p s v va).map (landing p va) := by
  unfold Tables.translate resident walk
  cases s.root v with
  | none => rfl
  | some root =>
    show Option.map _ (Option.map _ (s.descend p va p.top root)) = Option.map _ _
    rw [Option.map_map]
    rfl

theorem landing_fit {w : Nat} (h : Fit p level (p.base w)) :
    landing p va (w, level) = (p.base w + va % granule level, p.rights w) := by
  have hbase : p.base w / granule level * granule level = p.base w :=
    Nat.div_mul_cancel (Nat.dvd_of_mod_eq_zero h.2.1)
  have hoff : va - va / granule level * granule level = va % granule level := by
    have := Nat.div_add_mod' va (granule level)
    omega
  unfold landing
  rw [hbase, hoff]

theorem fit_piece {a k : Nat} (h : Fit p (level + 1) a) (hk : k < FANOUT) :
    Fit p level (a + k * granule level) := by
  obtain ⟨hle, haligned, hlimit⟩ := h
  rw [granule_succ] at haligned hlimit
  have hdvd : granule level ∣ a :=
    Nat.dvd_trans (Nat.dvd_mul_right _ _) (Nat.dvd_of_mod_eq_zero haligned)
  refine ⟨by omega, ?_, ?_⟩
  · exact Nat.mod_eq_zero_of_dvd (Nat.dvd_add hdvd (Nat.dvd_mul_left _ _))
  have : (k + 1) * granule level ≤ granule level * FANOUT := by
    rw [Nat.mul_comm (granule level)]
    exact Nat.mul_le_mul_right _ hk
  rw [Nat.succ_mul] at this
  omega

theorem landing_piece {w : Nat} (hk : p.kind (level + 1) w = .leaf)
    (hfit : Fit p (level + 1) (p.base w)) :
    landing p va (p.piece level w (index va level), level) = landing p va (w, level + 1) := by
  have hpiece := fit_piece hfit (index_lt va level)
  obtain ⟨-, hbase, hrights⟩ := p.piece_leaf hk hpiece.frame hpiece.lt
  rw [landing_fit hfit, landing_fit (by rw [hbase]; exact hpiece), hbase, hrights]
  have hmod : va % granule (level + 1) = va % granule level + granule level * index va level := by
    rw [granule_succ, Nat.mod_mul]
    rfl
  rw [hmod, Nat.mul_comm]
  congr 1
  omega

/-- What is left of an operation that keeps every translation. -/
structure Preserved (p : Port) (s s' : Tables) : Prop where
  sound : Sound p s'
  roots : s'.root = s.root
  same : ∀ v va, s'.translate p v va = s.translate p v va

theorem Preserved.refl (h : Sound p s) : Preserved p s s := ⟨h, rfl, fun _ _ => rfl⟩

theorem smaller_level {l : Nat} {child : Class}
    (h : (Class.ofLevel l).bind Class.smaller = some child) : l = child.level + 1 := by
  match l with
  | 0 => cases h
  | 1 => cases h; rfl
  | 2 => cases h; rfl
  | _ + 3 => cases h

/-- A leaf cut into pieces translates as before. -/
theorem Owned.cut_leaf (h : Owned p own s) (hroot : s.root v = some root) {table next : Nat}
    (hpath : Path p s va p.top root (level + 1) table)
    (hk : p.kind (level + 1) (s.heap table (index va (level + 1))) = .leaf) {s1 : Tables}
    (halloc : s.alloc (fun k => p.piece level (s.heap table (index va (level + 1))) k)
      = some (next, s1)) :
    Preserved p s (s1.write table (index va (level + 1))
      (p.cover (s.heap table (index va (level + 1))) next)) := by
  have ht := hpath.place h (h.top hroot va)
  have hle := h.level ht
  have hfit := (h.word ht (index_lt va (level + 1))).leaf hk
  dsimp only at hle hfit
  generalize hw : s.heap table (index va (level + 1)) = w at *
  have hpieces : ∀ i < FANOUT, p.kind level (p.piece level w i) = .leaf
      ∧ Fit p level (p.base (p.piece level w i)) := by
    intro i hi
    have hpiece := fit_piece hfit hi
    obtain ⟨hkind, hbase, -⟩ := p.piece_leaf hk hpiece.frame hpiece.lt
    rw [hbase]
    exact ⟨hkind, hpiece⟩
  have hplace : (⟨v, level, slot p va (level + 1)⟩ : Place).level ≤ p.top := by
    dsimp only
    omega
  obtain ⟨howned, hfree, haligned, hlt, hroots, -, hcontent, hsame⟩ := h.alloc halloc hplace
    (fun i hi => ⟨by rw [(hpieces i hi).1]; exact nofun, fun _ => (hpieces i hi).2⟩)
  have hne : ∀ {g place}, own g = some place → g ≠ next := by
    rintro g place hg rfl
    rw [hfree] at hg
    cases hg
  have hext : ∀ {g place}, own g = some place → Function.update own next
      (some ⟨v, level, slot p va (level + 1)⟩) g = some place := by
    intro g place hg
    rw [update_of_ne (hne hg)]
    exact hg
  obtain ⟨hck, hcb⟩ := p.cover_table (w := w) (Nat.succ_pos level) haligned hlt
  have hpath1 : ∀ va', slot p va' (level + 2) = slot p va (level + 2) →
      Path p s1 va' p.top root (level + 1) table := by
    intro va' hva'
    refine (hpath.of_slot le_rfl hva').congr h (h.top hroot va') ?_
    exact fun g place hg _ => hsame g (hne hg)
  have hroot1 : s1.root v = some root := by
    rw [hroots]
    exact hroot
  refine ⟨⟨_, howned.write (hext ht) ⟨fun _ => ⟨level, rfl, ?_⟩, ?_⟩⟩, hroots, ?_⟩
  · rw [hcb, update_self, slot_eq hle]
  · intro hleaf
    rw [show p.kind (level + 1) _ = .leaf from hleaf] at hck
    cases hck
  intro v' va'
  rw [translate_eq, translate_eq, howned.walk_write (hext ht) hroot1 hpath1]
  split
  case isTrue hhere =>
    -- the pointer leads to the piece of the address
    obtain ⟨rfl, hslot⟩ := hhere
    have hidx := index_of_slot hle hslot
    have hold : walk p s v' va' = some (w, level + 1) := by
      rw [walk_root hroot, (hpath.of_slot le_rfl (slot_mono 1 hslot)).descend,
        descend_leaf (by rw [hidx, hw]; exact hk), hidx, hw]
    have hpiece : p.kind level (p.piece level w (index va' level)) = .leaf :=
      (hpieces _ (index_lt va' level)).1
    have hnew : (s1.write table (index va (level + 1)) (p.cover w next)).descend p va'
        (level + 1) table = some (p.piece level w (index va' level), level) := by
      have hentry : (s1.write table (index va (level + 1)) (p.cover w next)).heap table
          (index va' (level + 1)) = p.cover w next := by
        rw [hidx, write_same]
      have hnext : (s1.write table (index va (level + 1)) (p.cover w next)).heap next
          (index va' level) = p.piece level w (index va' level) := by
        rw [write_heap_ne _ _ (hne ht).symm, hcontent]
      rw [descend_table (by rw [hentry]; exact hck), hentry, hcb,
        descend_leaf (by rw [hnext]; exact hpiece), hnext]
    rw [hnew, hold]
    exact congrArg some (landing_piece hk hfit)
  case isFalse =>
    rw [h.walk_congr hroots fun hg => h.descend_alloc hfree hsame hg]

theorem Owned.cut (h : Owned p own s) (hroot : s.root v = some root) :
    ∀ (level : Nat) {table : Nat}, Path p s va p.top root level table →
      Preserved p s (s.cut p va level table).2 := by
  have hsame := Preserved.refl ⟨own, h⟩
  intro level
  induction level with
  | zero =>
    intro table _
    rw [Tables.cut]
    split
    · exact hsame
    · exact hsame
    · exact hsame
  | succ level ih =>
    intro table hpath
    rw [Tables.cut]
    split
    case h_1 => exact hsame
    case h_2 hk => exact ih (hpath.trans hk)
    case h_3 hk =>
      split
      · exact hsame
      rename_i child hchild
      obtain rfl : level = child.level := Nat.succ.inj (smaller_level hchild)
      split
      case h_1 => exact hsame
      case h_2 halloc => exact h.cut_leaf hroot hpath hk halloc

theorem Sound.splitLeaf (h : Sound p s) : Preserved p s (s.splitLeaf p v va).2 := by
  obtain ⟨own, h⟩ := h
  unfold Tables.splitLeaf
  split
  case h_1 => exact Preserved.refl ⟨own, h⟩
  case h_2 root hroot => exact h.cut hroot p.top (.here _ _)

-- -- open_view

theorem Sound.openView (h : Sound p s) {view : Nat} (hopen : s.openView = (.ok view, s')) :
    Sound p s' ∧ s.root view = none
      ∧ (∀ v, s.root v ≠ none → s'.root v = s.root v)
      ∧ ∀ v va, walk p s' v va = walk p s v va := by
  obtain ⟨own, h⟩ := h
  unfold Tables.openView at hopen
  split at hopen
  · cases hopen
  rename_i view' hvacant
  split at hopen
  · cases hopen
  rename_i frame s1 halloc
  cases hopen
  have hslot := vacancy_some hvacant
  have hlt : view < s.roots.length := (List.getElem?_eq_some_iff.mp hslot).1
  have hnone : s.root view = none := (slotAt_none hlt).mpr hslot
  have hplace : (⟨view, p.top, 0⟩ : Place).level ≤ p.top := le_rfl
  obtain ⟨howned, hfree, -, -, -, -, hcontent, hsame⟩ := h.alloc halloc hplace
    (fun i _ => by rw [p.kind_zero]; exact ⟨nofun, nofun⟩)
  have hroots := alloc_roots halloc
  have hself : ({ s1 with roots := s1.roots.set view (some frame) } : Tables).root view
      = some frame := by
    rw [root, hroots]
    exact slotAt_set hlt _
  have hother : ∀ v, v ≠ view →
      ({ s1 with roots := s1.roots.set view (some frame) } : Tables).root v = s.root v := by
    intro v hv
    rw [root, hroots]
    exact slotAt_set_ne hv.symm _
  refine ⟨⟨_, { howned with root := ?_ }⟩, hnone, ?_, ?_⟩
  · intro v r hr
    by_cases hv : v = view
    · subst hv
      obtain rfl : frame = r := Option.some.inj (hself.symm.trans hr)
      exact update_self ..
    · have hr : s.root v = some r := (hother v hv).symm.trans hr
      have hown := h.root hr
      rw [update_of_ne]
      · exact hown
      · rintro rfl
        rw [hfree] at hown
        cases hown
  · intro v hv
    apply hother
    rintro rfl
    exact hv hnone
  · intro v va
    by_cases hv : v = view
    · subst hv
      rw [walk_none hnone, walk_root hself]
      apply descend_absent
      rw [hcontent]
      exact p.kind_zero _
    · cases hroot : s.root v with
      | none => rw [walk_none hroot, walk_none ((hother v hv).trans hroot)]
      | some root =>
        rw [walk_root hroot, walk_root ((hother v hv).trans hroot)]
        refine h.descend_alloc hfree ?_ (h.top hroot va)
        exact hsame

end Operations

-- == extents

section Extents

variable {s s' : Tables} {v va root : Nat} {e : Extent}

def Extent.Has (e : Extent) (va : Nat) : Prop := e.start ≤ va ∧ va < e.stop

instance (e : Extent) (va : Nat) : Decidable (e.Has va) := inferInstanceAs (Decidable (_ ∧ _))

/-- The tables of the port reach the extent. -/
def Extent.Inside (p : Port) (e : Extent) : Prop := e.stop ≤ p.width

instance (e : Extent) : Decidable (e.Inside p) := inferInstanceAs (Decidable (_ ≤ _))

def InLeaf (p : Port) (e : Extent) (k va : Nat) : Prop :=
  slot p va e.cls.level = slot p (e.leaf k) e.cls.level

theorem leaf_div (k : Nat) :
    e.leaf k / granule e.cls.level = e.start / granule e.cls.level + k := by
  unfold Extent.leaf
  rw [Nat.add_mul_div_right _ _ (granule_pos _)]

theorem leaf_lt_width (h : e.Inside p) {k : Nat} (hk : k < e.leaves) : e.leaf k < p.width := by
  refine Nat.lt_of_lt_of_le ?_ h
  unfold Extent.leaf Extent.stop Extent.bytes
  have := Nat.mul_lt_mul_of_pos_right hk (granule_pos e.cls.level)
  omega

theorem slot_leaf (h : e.Inside p) {k : Nat} (hk : k < e.leaves) :
    slot p (e.leaf k) e.cls.level = e.start / granule e.cls.level + k := by
  rw [slot_of_lt (leaf_lt_width h hk), leaf_div]

theorem InLeaf.unique (h : e.Inside p) {k k' : Nat} (hk : k < e.leaves) (hk' : k' < e.leaves)
    (hin : InLeaf p e k va) (hin' : InLeaf p e k' va) : k = k' := by
  unfold InLeaf at hin hin'
  rw [slot_leaf h hk] at hin
  rw [slot_leaf h hk'] at hin'
  omega

theorem has_iff (h : e.Inside p) (hva : va < p.width) :
    e.Has va ↔ ∃ k < e.leaves, InLeaf p e k va := by
  have hstart : e.start = e.start / granule e.cls.level * granule e.cls.level :=
    (Nat.div_mul_cancel (Nat.dvd_of_mod_eq_zero e.aligned)).symm
  have hpos := granule_pos e.cls.level
  constructor
  · rintro ⟨hlow, hhigh⟩
    refine ⟨va / granule e.cls.level - e.start / granule e.cls.level, ?_, ?_⟩
    · have hlt : va / granule e.cls.level < e.start / granule e.cls.level + e.leaves := by
        rw [Nat.div_lt_iff_lt_mul hpos, Nat.add_mul, ← hstart]
        exact hhigh
      have hle := Nat.div_le_div_right (c := granule e.cls.level) hlow
      have := e.nonempty
      omega
    · have hle := Nat.div_le_div_right (c := granule e.cls.level) hlow
      have hlt : va / granule e.cls.level < e.start / granule e.cls.level + e.leaves := by
        rw [Nat.div_lt_iff_lt_mul hpos, Nat.add_mul, ← hstart]
        exact hhigh
      unfold InLeaf
      rw [slot_leaf h (by omega), slot_of_lt hva]
      omega
  · rintro ⟨k, hk, hin⟩
    unfold InLeaf at hin
    rw [slot_leaf h hk, slot_of_lt hva] at hin
    constructor
    · rw [hstart, ← Nat.le_div_iff_mul_le hpos, hin]
      omega
    · unfold Extent.stop Extent.bytes
      rw [hstart, ← Nat.add_mul, ← Nat.div_lt_iff_lt_mul hpos, hin]
      omega

/-- What became of the leaves `ks` of an extent, and of everything else. -/
structure Wrote (p : Port) (s : Tables) (v : Nat) (e : Extent) (leaf : Nat → Option (Nat × Nat))
    (ks : List Nat) (s' : Tables) : Prop where
  hit : ∀ k ∈ ks, ∀ va, InLeaf p e k va → walk p s' v va = leaf k
  miss : ∀ v' va, ¬ (v' = v ∧ ∃ k ∈ ks, InLeaf p e k va) → walk p s' v' va = walk p s v' va

/-- A loop runs to its end, or to the first leaf that is refused. -/
theorem each_split (one : Nat → Tables → Except Error Unit × Tables) (ks : List Nat) :
    ∀ s, ∃ n, (each one (ks.take n) s).1 = .ok ()
      ∧ ((ks.length ≤ n ∧ each one ks s = each one (ks.take n) s)
        ∨ ∃ k err, ks[n]? = some k
          ∧ (one k (each one (ks.take n) s).2).1 = .error err
          ∧ each one ks s = (.error err, (one k (each one (ks.take n) s).2).2)) := by
  induction ks with
  | nil => exact fun s => ⟨0, rfl, .inl ⟨Nat.le_refl 0, rfl⟩⟩
  | cons k ks ih =>
    intro s
    rcases hone : one k s with ⟨r, s1⟩
    cases r with
    | error err =>
      refine ⟨0, rfl, .inr ⟨k, err, rfl, ?_, ?_⟩⟩
      · show (one k s).1 = _
        rw [hone]
      · show each one (k :: ks) s = (.error err, (one k s).2)
        rw [each, hone]
    | ok u =>
      obtain ⟨n, hok, hrest⟩ := ih s1
      have htake : each one ((k :: ks).take (n + 1)) s
          = each one (ks.take n) s1 := by
        rw [take_succ_cons, each, hone]
      have hall : each one (k :: ks) s = each one ks s1 := by
        rw [each, hone]
      refine ⟨n + 1, by rw [htake]; exact hok, ?_⟩
      rw [htake, hall]
      rcases hrest with ⟨hle, heq⟩ | ⟨k', err, hk', herr, heq⟩
      · exact .inl ⟨by rw [length_cons]; omega, heq⟩
      · exact .inr ⟨k', err, hk', herr, heq⟩

/-- A loop over leaves that succeeds wrote every one of them. -/
theorem each_ok {one : Nat → Tables → Except Error Unit × Tables}
    {leaf : Nat → Option (Nat × Nat)} (hinside : e.Inside p)
    {ks : List Nat} (hks : ∀ k ∈ ks, k < e.leaves)
    (hone : ∀ k ∈ ks, ∀ s, Sound p s → s.root v = some root →
      Mapped p s v (e.leaf k) e.cls.level (one k s).1 (leaf k) (one k s).2) :
    ∀ s, Sound p s → s.root v = some root → (each one ks s).1 = .ok () →
      Sound p (each one ks s).2 ∧ (each one ks s).2.root = s.root
        ∧ Wrote p s v e leaf ks (each one ks s).2 := by
  induction ks with
  | nil =>
    intro s h _ _
    exact ⟨h, rfl, nofun, fun _ _ _ => rfl⟩
  | cons k ks ih =>
    intro s h hroot hok
    have hmapped := hone k mem_cons_self s h hroot
    rw [each] at hok ⊢
    rcases hstep : one k s with ⟨r, s1⟩
    rw [hstep] at hok hmapped
    cases r with
    | error err => cases hok
    | ok u =>
      have hdone := hmapped.done rfl
      obtain ⟨hsound, hroots, hwrote⟩ := ih
        (fun k hk => hks k (mem_cons_of_mem _ hk))
        (fun k hk => hone k (mem_cons_of_mem _ hk)) s1 hmapped.sound
        (by rw [hmapped.roots]; exact hroot) hok
      refine ⟨hsound, hroots.trans hmapped.roots, ?_, ?_⟩
      · intro k' hk' va hva
        by_cases hlater : k' ∈ ks
        · exact hwrote.hit k' hlater va hva
        obtain rfl : k' = k := by
          rcases mem_cons.mp hk' with heq | hmem
          · exact heq
          · exact absurd hmem hlater
        rw [hwrote.miss v va, hdone v va, if_pos ⟨rfl, hva⟩]
        rintro ⟨-, k'', hk'', hva''⟩
        have := InLeaf.unique hinside (hks _ (mem_cons_of_mem _ hk''))
          (hks _ mem_cons_self) hva'' hva
        exact hlater (this ▸ hk'')
      · intro v' va hmiss
        rw [hwrote.miss v' va, hdone v' va, if_neg]
        · rintro ⟨rfl, hva⟩
          exact hmiss ⟨rfl, k, mem_cons_self, hva⟩
        · rintro ⟨rfl, k', hk', hva⟩
          exact hmiss ⟨rfl, k', mem_cons_of_mem _ hk', hva⟩

theorem fit_of_backs {span : Span} (hbacks : Backs e span) (hlimit : span.stop ≤ p.limit)
    {k : Nat} (hk : k < e.leaves) :
    Fit p e.cls.level (span.start + k * granule e.cls.level) := by
  unfold Backs Span.bytes Extent.bytes at hbacks
  rw [not_or, not_or, not_not, not_not] at hbacks
  obtain ⟨hbytes, haligned, -⟩ := hbacks
  have hlast : (k + 1) * granule e.cls.level ≤ e.leaves * granule e.cls.level :=
    Nat.mul_le_mul_right _ hk
  rw [Nat.succ_mul] at hlast
  have hpos := granule_pos e.cls.level
  refine ⟨?_, ?_, by omega⟩
  · cases e.cls <;> decide
  · rw [Nat.add_mul_mod_self_right]
    exact haligned

theorem level_le (e : Extent) : e.cls.level ≤ 2 := by
  cases e.cls <;> decide

def grantWord (p : Port) (e : Extent) (span : Span) (rights : Rights) (k : Nat) :
    Option (Nat × Nat) :=
  some (p.leafWord e.cls.level (span.start + k * granule e.cls.level) (p.flags rights),
    e.cls.level)

theorem mapOne_spec {span : Span} (hbacks : Backs e span) (hlimit : span.stop ≤ p.limit)
    (rights : Rights) {k : Nat} (hk : k < e.leaves) (s : Tables) (h : Sound p s)
    (hroot : s.root v = some root) :
    Mapped p s v (e.leaf k) e.cls.level
      (mapOne p root e span.start (p.flags rights) k s).1 (grantWord p e span rights k)
      (mapOne p root e span.start (p.flags rights) k s).2 :=
  h.mapLeaf hroot (fit_of_backs hbacks hlimit hk) rights

theorem unmapOne_spec (k : Nat) (s : Tables) (h : Sound p s) (hroot : s.root v = some root) :
    Mapped p s v (e.leaf k) e.cls.level (unmapOne p root e k s).1 none (unmapOne p root e k s).2 :=
  h.unmapLeaf hroot (level_le e)

theorem landing_grant {span : Span} {rights : Rights} {k : Nat} (hinside : e.Inside p)
    (hbacks : Backs e span) (hlimit : span.stop ≤ p.limit) (hk : k < e.leaves)
    (hva : va < p.width) (hin : InLeaf p e k va) :
    (grantWord p e span rights k).map (landing p va)
      = some (Grant.target ⟨v, e, span, rights⟩ va) := by
  have hfit := fit_of_backs hbacks hlimit hk
  obtain ⟨-, hbase, hrights⟩ := p.leaf_leaf e.cls.level rights hfit.frame hfit.lt
  unfold grantWord Grant.target
  rw [Option.map_some, landing_fit (by rw [hbase]; exact hfit), hbase, hrights]
  unfold InLeaf at hin
  rw [slot_leaf hinside hk, slot_of_lt hva] at hin
  have hstart : e.start = e.start / granule e.cls.level * granule e.cls.level :=
    (Nat.div_mul_cancel (Nat.dvd_of_mod_eq_zero e.aligned)).symm
  have hdiv := Nat.div_add_mod' va (granule e.cls.level)
  rw [hin, Nat.add_mul, ← hstart] at hdiv
  congr 2
  dsimp only
  omega

end Extents

-- == the world

def Extent.Apart (e e' : Extent) : Prop := e.stop ≤ e'.start ∨ e'.stop ≤ e.start

/-- The extents in use are extents of one space: they are inside it, and each
is the same as another or apart from it. -/
def Live (p : Port) (w : World) (e : Extent) : Prop :=
  e.Inside p ∧ ∀ g ∈ w.granted, g.extent = e ∨ g.extent.Apart e

/-- What is asked of an operation: its extent is live, and its memory memory. -/
def Meets (p : Port) (w : World) : Op → Prop
  | .openView => True
  | .grant g => Live p w g.extent ∧ g.span.stop ≤ p.limit
  | .revoke _ e => Live p w e
  | .splitLeaf _ _ => True

/-- A run of operations that succeed, each on live extents. -/
inductive Run (p : Port) : World → World → Prop where
  | refl (w : World) : Run p w w
  | step {w w' w'' : World} {op : Op} : Run p w w' → Meets p w' op →
      w'.step p op = some w'' → Run p w w''

/-- Each view translates what is granted into it and nothing else. -/
structure Exact (p : Port) (w : World) : Prop where
  sound : Sound p w.tables
  inside : ∀ g ∈ w.granted, g.extent.Inside p
  granted : ∀ g ∈ w.granted, ∀ va, g.extent.Has va →
    w.tables.translate p g.view va = some (g.target va)
  absent : ∀ v va, va < p.width → (∀ g ∈ w.granted, g.view = v → ¬ g.extent.Has va) →
    w.tables.translate p v va = none

section World

variable {w w' : World}

theorem translate_congr {s s' : Tables} {v va : Nat} (h : walk p s' v va = walk p s v va) :
    s'.translate p v va = s.translate p v va := by
  rw [translate_eq, translate_eq, h]

variable {e : Extent}

theorem has_lt (h : e.Inside p) {va : Nat} (hva : e.Has va) : va < p.width :=
  Nat.lt_of_lt_of_le hva.2 h

theorem Exact.of_preserved (h : Exact p w) (hs : Preserved p w.tables w'.tables)
    (hgranted : w'.granted = w.granted) : Exact p w' where
  sound := hs.sound
  inside := by rw [hgranted]; exact h.inside
  granted := by
    rw [hgranted]
    intro g hg va hva
    rw [hs.same]
    exact h.granted g hg va hva
  absent := by
    rw [hgranted]
    intro v va hva hnone
    rw [hs.same]
    exact h.absent v va hva hnone

theorem grant_ok {s s' : Tables} {v : Nat} {span : Span} {rights : Rights}
    (hs : Sound p s) (hinside : e.Inside p) (hlimit : span.stop ≤ p.limit)
    (h : s.grant p v e span rights = (.ok (), s')) :
    Backs e span ∧ Sound p s'
      ∧ Wrote p s v e (grantWord p e span rights) (List.range e.leaves) s' := by
  unfold grant at h
  split at h
  · cases h
  rename_i hbacks
  have hbacks := not_not.mp hbacks
  split at h
  · cases h
  rename_i root hroot
  have hok := congrArg Prod.fst h
  obtain ⟨hsound, -, hwrote⟩ := each_ok hinside (fun k hk => mem_range.mp hk)
    (fun k hk => mapOne_spec hbacks hlimit rights (mem_range.mp hk)) s hs hroot hok
  rw [h] at hsound hwrote
  exact ⟨hbacks, hsound, hwrote⟩

theorem revoke_ok {s s' : Tables} {v n : Nat} (hs : Sound p s)
    (hinside : e.Inside p) (h : s.revoke p v e = (.ok n, s')) :
    Sound p s' ∧ Wrote p s v e (fun _ => none) (List.range e.leaves) s' := by
  unfold revoke at h
  split at h
  · cases h
  rename_i root hroot
  split at h
  · cases h
  rename_i s1 heach
  cases h
  obtain ⟨hsound, -, hwrote⟩ := each_ok hinside (fun k hk => mem_range.mp hk)
    (fun k _ => unmapOne_spec k) s hs hroot (by rw [heach])
  rw [heach] at hsound hwrote
  exact ⟨hsound, hwrote⟩

theorem Wrote.other {s s' : Tables} {v : Nat} {leaf : Nat → Option (Nat × Nat)}
    (h : Wrote p s v e leaf (List.range e.leaves) s') (hinside : e.Inside p) {v' va : Nat}
    (hva : va < p.width) (hother : ¬ (v' = v ∧ e.Has va)) :
    s'.translate p v' va = s.translate p v' va := by
  apply translate_congr
  apply h.miss
  rintro ⟨rfl, k, hk, hin⟩
  exact hother ⟨rfl, (has_iff hinside hva).mpr ⟨k, mem_range.mp hk, hin⟩⟩

theorem Exact.without (h : Exact p w) {v : Nat} (hlive : Live p w e) {g : Grant}
    (hg : g ∈ w.without v e) {va : Nat} (hva : g.extent.Has va) :
    g ∈ w.granted ∧ va < p.width ∧ ¬ (g.view = v ∧ e.Has va) := by
  obtain ⟨hmem, hne⟩ := mem_filter.mp hg
  refine ⟨hmem, has_lt (h.inside g hmem) hva, ?_⟩
  rintro ⟨hv, he⟩
  have hne := of_decide_eq_true hne
  rcases hlive.2 g hmem with heq | hapart
  · exact hne ⟨hv, heq⟩
  · unfold Extent.Apart at hapart
    unfold Extent.Has at hva he
    omega

theorem Exact.grant (h : Exact p w) {g : Grant} (hmeets : Meets p w (.grant g))
    (hstep : w.step p (.grant g) = some w') : Exact p w' := by
  obtain ⟨hlive, hlimit⟩ := hmeets
  have hinside := hlive.1
  rw [World.step] at hstep
  split at hstep
  case h_2 => cases hstep
  case h_1 tables hgrant =>
    cases hstep
    obtain ⟨hbacks, hsound, hwrote⟩ := grant_ok h.sound hinside hlimit hgrant
    refine ⟨hsound, ?_, ?_, ?_⟩
    · intro g' hg'
      rcases mem_cons.mp hg' with rfl | hg'
      · exact hinside
      · exact h.inside g' (mem_of_mem_filter hg')
    · intro g' hg' va hva
      rcases mem_cons.mp hg' with rfl | hg'
      · have hlt := has_lt hinside hva
        obtain ⟨k, hk, hin⟩ := (has_iff hinside hlt).mp hva
        rw [translate_eq, hwrote.hit k (mem_range.mpr hk) va hin]
        exact landing_grant hinside hbacks hlimit hk hlt hin
      · obtain ⟨hmem, hlt, hother⟩ := h.without hlive hg' hva
        rw [hwrote.other hinside hlt hother]
        exact h.granted g' hmem va hva
    · intro v va hlt hnone
      have hother : ¬ (v = g.view ∧ g.extent.Has va) := by
        rintro ⟨rfl, hva⟩
        exact hnone g mem_cons_self rfl hva
      rw [hwrote.other hinside hlt hother]
      apply h.absent v va hlt
      intro g' hg' hv hva
      by_cases hsame : g'.view = g.view ∧ g'.extent = g.extent
      · exact hother ⟨hv.symm.trans hsame.1, hsame.2 ▸ hva⟩
      · refine hnone g' (mem_cons_of_mem _ ?_) hv hva
        exact mem_filter.mpr ⟨hg', decide_eq_true hsame⟩

theorem Exact.revoke (h : Exact p w) {v : Nat} (hlive : Meets p w (.revoke v e))
    (hstep : w.step p (.revoke v e) = some w') : Exact p w' := by
  have hinside := hlive.1
  rw [World.step] at hstep
  split at hstep
  case h_2 => cases hstep
  case h_1 n tables hrevoke =>
    cases hstep
    obtain ⟨hsound, hwrote⟩ := revoke_ok h.sound hinside hrevoke
    refine ⟨hsound, ?_, ?_, ?_⟩
    · exact fun g hg => h.inside g (mem_of_mem_filter hg)
    · intro g hg va hva
      obtain ⟨hmem, hlt, hother⟩ := h.without hlive hg hva
      rw [hwrote.other hinside hlt hother]
      exact h.granted g hmem va hva
    · intro v' va hlt hnone
      by_cases hhere : v' = v ∧ e.Has va
      · obtain ⟨rfl, hva⟩ := hhere
        obtain ⟨k, hk, hin⟩ := (has_iff hinside hlt).mp hva
        rw [translate_eq, hwrote.hit k (mem_range.mpr hk) va hin]
        rfl
      · rw [hwrote.other hinside hlt hhere]
        apply h.absent v' va hlt
        intro g hg hv hva
        by_cases hsame : g.view = v ∧ g.extent = e
        · exact hhere ⟨hv.symm.trans hsame.1, hsame.2 ▸ hva⟩
        · refine hnone g ?_ hv hva
          exact mem_filter.mpr ⟨hg, decide_eq_true hsame⟩

theorem Exact.step (h : Exact p w) {op : Op} (hmeets : Meets p w op)
    (hstep : w.step p op = some w') : Exact p w' := by
  cases op with
  | openView =>
    rw [World.step] at hstep
    split at hstep
    case h_2 => cases hstep
    case h_1 view tables hopen =>
      cases hstep
      obtain ⟨hsound, -, -, hwalk⟩ := h.sound.openView hopen
      exact ⟨hsound, h.inside,
        fun g hg va hva => (translate_congr (hwalk g.view va)).trans (h.granted g hg va hva),
        fun v va hva hnone => (translate_congr (hwalk v va)).trans (h.absent v va hva hnone)⟩
  | grant g => exact h.grant hmeets hstep
  | revoke v e => exact h.revoke hmeets hstep
  | splitLeaf v va =>
    rw [World.step] at hstep
    split at hstep
    case h_2 => cases hstep
    case h_1 child tables hsplit =>
      cases hstep
      have hpreserved : Preserved p w.tables (w.tables.splitLeaf p v va).2 := h.sound.splitLeaf
      rw [hsplit] at hpreserved
      exact h.of_preserved hpreserved rfl

theorem Exact.boot (heap : Nat → Nat → Nat) {pool : List Nat} (hnodup : pool.Nodup)
    (hpool : ∀ f ∈ pool, f % FRAME_SIZE = 0 ∧ f < p.limit) :
    Exact p ⟨Tables.boot heap pool, []⟩ := by
  have hroot : ∀ v, (Tables.boot heap pool).root v = none := fun v => slotAt_replicate VIEWS v
  refine ⟨⟨fun _ => none, nofun, fun f hf => ⟨rfl, hpool f hf⟩, hnodup, ?_, nofun⟩, nofun,
    nofun, ?_⟩
  · intro v r hr
    rw [hroot v] at hr
    cases hr
  · intro v va _ _
    rw [translate_eq, walk_none (hroot v)]
    rfl

theorem Exact.run (h : Exact p w) (hrun : Run p w w') : Exact p w' := by
  induction hrun with
  | refl => exact h
  | step _ hmeets hstep ih => exact ih.step hmeets hstep

def Op.view : Op → Option Nat
  | .openView => none
  | .grant g => some g.view
  | .revoke v _ => some v
  | .splitLeaf v _ => some v

/-- A step leaves the other views alone. -/
theorem Exact.elsewhere (h : Exact p w) {op : Op} (hmeets : Meets p w op)
    (hstep : w.step p op = some w') {v va : Nat} (hva : va < p.width)
    (hop : op.view ≠ some v ∨ ∃ va', op = .splitLeaf v va') :
    w'.tables.translate p v va = w.tables.translate p v va := by
  cases op with
  | openView =>
    rw [World.step] at hstep
    split at hstep
    case h_2 => cases hstep
    case h_1 view tables hopen =>
      cases hstep
      obtain ⟨-, -, -, hwalk⟩ := h.sound.openView hopen
      exact translate_congr (hwalk v va)
  | grant g =>
    rw [World.step] at hstep
    split at hstep
    case h_2 => cases hstep
    case h_1 tables hgrant =>
      cases hstep
      obtain ⟨-, -, hwrote⟩ := grant_ok h.sound hmeets.1.1 hmeets.2 hgrant
      apply hwrote.other hmeets.1.1 hva
      rintro ⟨rfl, -⟩
      rcases hop with hne | ⟨_, heq⟩
      · exact hne rfl
      · cases heq
  | revoke v' e =>
    rw [World.step] at hstep
    split at hstep
    case h_2 => cases hstep
    case h_1 n tables hrevoke =>
      cases hstep
      obtain ⟨-, hwrote⟩ := revoke_ok h.sound hmeets.1 hrevoke
      apply hwrote.other hmeets.1 hva
      rintro ⟨rfl, -⟩
      rcases hop with hne | ⟨_, heq⟩
      · exact hne rfl
      · cases heq
  | splitLeaf v' va' =>
    rw [World.step] at hstep
    split at hstep
    case h_2 => cases hstep
    case h_1 child tables hsplit =>
      cases hstep
      have hpreserved : Preserved p w.tables (w.tables.splitLeaf p v' va').2 := h.sound.splitLeaf
      rw [hsplit] at hpreserved
      exact hpreserved.same v va

end World

/-- A view translates exactly what was granted into it: an address below the
width of the tables translates if and only if it is in an extent that was
granted and not revoked, and then to its frame with the rights granted. A
split changes no translation, and an operation on one view none of another. -/
theorem view_translates_what_was_granted (mode : Mode) (heap : Nat → Nat → Nat)
    (pool : List Nat) (hnodup : pool.Nodup)
    (hpool : ∀ f ∈ pool, f % FRAME_SIZE = 0 ∧ f < mode.port.limit)
    (w : World) (hrun : Run mode.port ⟨Tables.boot heap pool, []⟩ w) :
    (∀ v va, va < mode.port.width → ∀ t, w.tables.translate mode.port v va = some t ↔
      ∃ g ∈ w.granted, g.view = v ∧ g.extent.Has va ∧ t = g.target va)
    ∧ ∀ op w', Meets mode.port w op → w.step mode.port op = some w' →
      ∀ v va, va < mode.port.width →
        (op.view ≠ some v ∨ ∃ va', op = .splitLeaf v va') →
        w'.tables.translate mode.port v va = w.tables.translate mode.port v va := by
  have hexact := (Exact.boot heap hnodup hpool).run hrun
  have hiff : ∀ {w : World}, Exact mode.port w → ∀ v va, va < mode.port.width → ∀ t,
      w.tables.translate mode.port v va = some t ↔
        ∃ g ∈ w.granted, g.view = v ∧ g.extent.Has va ∧ t = g.target va := by
    intro w hexact v va hva t
    constructor
    · intro ht
      by_cases hsome : ∃ g ∈ w.granted, g.view = v ∧ g.extent.Has va
      · obtain ⟨g, hg, rfl, hhas⟩ := hsome
        refine ⟨g, hg, rfl, hhas, ?_⟩
        rw [hexact.granted g hg va hhas] at ht
        exact (Option.some.inj ht).symm
      · have hnone := hexact.absent v va hva fun g hg hv hhas => hsome ⟨g, hg, hv, hhas⟩
        rw [hnone] at ht
        cases ht
    · rintro ⟨g, hg, rfl, hhas, rfl⟩
      exact hexact.granted g hg va hhas
  refine ⟨hiff hexact, ?_⟩
  exact fun op w' hmeets hstep v va hva hop => hexact.elsewhere hmeets hstep hva hop

/-- A page at the start of the Sv39 allocation range, and memory for it. -/
def pageGrant : Grant :=
  ⟨0, ⟨3 * 2 ^ 36, 1, .page, by decide, by decide⟩, ⟨0x80000000, 0x80001000⟩,
    ⟨true, false, by decide⟩⟩

def pageWorld : Option World :=
  ((⟨boot (fun _ _ => 0) [0x1000, 0x2000, 0x3000], []⟩ : World).step Mode.sv39.port
    .openView).bind fun w => w.step Mode.sv39.port (.grant pageGrant)

theorem pageWorld_run {w : World} (h : pageWorld = some w) :
    Run Mode.sv39.port ⟨boot (fun _ _ => 0) [0x1000, 0x2000, 0x3000], []⟩ w := by
  obtain ⟨w1, hopen, hgrant⟩ := Option.bind_eq_some_iff.mp h
  have hnone : w1.granted = [] := by
    rw [World.step] at hopen
    split at hopen
    · cases hopen
      rfl
    · cases hopen
  have hmeets : Meets Mode.sv39.port w1 (.grant pageGrant) := by
    refine ⟨⟨by decide, ?_⟩, by decide⟩
    rw [hnone]
    exact nofun
  have hfirst : Meets Mode.sv39.port
      ⟨boot (fun _ _ => 0) [0x1000, 0x2000, 0x3000], []⟩ .openView := trivial
  exact .step (.step (.refl _) hfirst hopen) hmeets hgrant

theorem view_translates_what_was_granted_page : ∃ w, pageWorld = some w
    ∧ w.granted = [pageGrant]
    ∧ w.tables.translate Mode.sv39.port 0 (3 * 2 ^ 36 + 5)
      = some (0x80000005, true, true, false) := by
  obtain ⟨w, hw⟩ : ∃ w, pageWorld = some w := Option.isSome_iff_exists.mp (by decide +kernel)
  have hgranted : w.granted = [pageGrant] := by
    have : pageWorld.map World.granted = some [pageGrant] := by decide +kernel
    rw [hw] at this
    exact Option.some.inj this
  refine ⟨w, hw, hgranted, ?_⟩
  refine ((view_translates_what_was_granted .sv39 (fun _ _ => 0) [0x1000, 0x2000, 0x3000]
    (by decide) (by decide) w (pageWorld_run hw)).1 0 _ (by decide) _).mpr ?_
  exact ⟨pageGrant, by rw [hgranted]; exact mem_cons_self, rfl, by decide, by decide⟩

/-- A walk does not look at the bits of an address above the tables' width:
an address beyond it, in no extent, translates like the one below. -/
theorem address_beyond_width_translates : ∃ w, pageWorld = some w
    ∧ Run Mode.sv39.port ⟨Tables.boot (fun _ _ => 0) [0x1000, 0x2000, 0x3000], []⟩ w
    ∧ w.tables.translate Mode.sv39.port 0 (2 ^ 39 + 3 * 2 ^ 36)
      = some (0x80000000, true, true, false)
    ∧ ∀ g ∈ w.granted, ¬ g.extent.Has (2 ^ 39 + 3 * 2 ^ 36) := by
  obtain ⟨w, hw⟩ : ∃ w, pageWorld = some w := Option.isSome_iff_exists.mp (by decide +kernel)
  have hfacts : pageWorld.map (fun w => (w.tables.translate Mode.sv39.port 0
      (2 ^ 39 + 3 * 2 ^ 36), w.granted.all fun g => ¬ g.extent.Has (2 ^ 39 + 3 * 2 ^ 36)))
      = some (some (0x80000000, true, true, false), true) := by
    decide +kernel
  rw [hw] at hfacts
  obtain ⟨htranslate, hgranted⟩ := Prod.mk.inj (Option.some.inj hfacts)
  refine ⟨w, hw, pageWorld_run hw, htranslate, ?_⟩
  intro g hg
  exact of_decide_eq_true (all_eq_true.mp hgranted g hg)

end Molt.Platform.Paging
