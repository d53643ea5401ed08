/-
A bounded cache with SIEVE eviction, over any keys and values.

A hit sets the entry's visited bit and nothing else. When the cache is
full, a hand goes round: a visited entry is cleared and passed over, the
first unvisited one is replaced. Removing an entry moves the last one
into its place.

What a user of the cache relies on is one thing: every value it hands
out is still right for its key. `Holds R c` says so of the whole cache,
for whatever relation `R` makes a value right, together with the fact
that no key is held twice, without which removing a key could leave a
second value of it behind. The three operations keep it (`Holds.get`,
`Holds.put`, `Holds.forget`).
-/
import Mathlib

namespace Molt.Lib

open List

structure Slot (κ ν : Type) where
  visited : Bool
  key : κ
  val : ν
  deriving DecidableEq

structure Sieve (κ ν : Type) where
  entries : List (Slot κ ν)
  hand : Nat
  deriving DecidableEq

namespace Sieve

variable {κ ν : Type}

def new : Sieve κ ν := ⟨[], 0⟩

/-- The hand goes round until it finds an unvisited entry to replace.
Every round clears a bit, so two turns are enough. -/
def evict (slots : Nat) : Nat → Sieve κ ν → Slot κ ν → Sieve κ ν
  | 0, c, _ => c
  | fuel + 1, c, e =>
    match c.entries[c.hand]? with
    | none => c
    | some held =>
      if held.visited then
        evict slots fuel
          ⟨c.entries.set c.hand { held with visited := false }, (c.hand + 1) % slots⟩ e
      else ⟨c.entries.set c.hand e, (c.hand + 1) % slots⟩

-- == what stays right

/-- Every cached value is right for its key, and no key is cached
twice. -/
structure Holds (R : κ → ν → Prop) (c : Sieve κ ν) : Prop where
  nodup : (c.entries.map Slot.key).Nodup
  right : ∀ e ∈ c.entries, R e.key e.val

variable {R R' : κ → ν → Prop} {c : Sieve κ ν} {k : κ} {v : ν}

theorem Holds.new : Holds R (Sieve.new : Sieve κ ν) := ⟨nodup_nil, by simp [Sieve.new]⟩

/-- Replacing an entry by one of the same key keeps the keys; replacing
it by a new key keeps them distinct. -/
theorem nodup_set {es : List (Slot κ ν)} {i : Nat} {e : Slot κ ν}
    (hn : (es.map Slot.key).Nodup) (he : ∀ x ∈ es, x.key = e.key → es[i]? = some x) :
    ((es.set i e).map Slot.key).Nodup := by
  induction es generalizing i with
  | nil => simp
  | cons y ys ih =>
    rw [map_cons, nodup_cons] at hn
    cases i with
    | zero =>
      rw [set_cons_zero, map_cons, nodup_cons]
      refine ⟨fun hmem => ?_, hn.2⟩
      obtain ⟨x, hx, hxe⟩ := mem_map.mp hmem
      have := he x (mem_cons_of_mem _ hx) hxe
      simp only [getElem?_cons_zero, Option.some.injEq] at this
      rw [this] at hn
      exact hn.1 (mem_map_of_mem hx)
    | succ i =>
      rw [set_cons_succ, map_cons, nodup_cons]
      refine ⟨fun hmem => ?_, ih hn.2 fun x hx hxe => ?_⟩
      · obtain ⟨x, hx, hxy⟩ := mem_map.mp hmem
        rcases mem_or_eq_of_mem_set hx with hx | rfl
        · exact hn.1 (by rw [← hxy]; exact mem_map_of_mem hx)
        · have := he y mem_cons_self hxy.symm
          rw [getElem?_cons_succ] at this
          exact hn.1 (mem_map_of_mem (mem_of_getElem? this))
      · have := he x (mem_cons_of_mem _ hx) hxe
        rwa [getElem?_cons_succ] at this

theorem Holds.evict {slots fuel : Nat} (h : Holds R c)
    (hk : ∀ x ∈ c.entries, x.key ≠ k) (hv : R' k v)
    (hR : ∀ k' v', k' ≠ k → R k' v' → R' k' v') :
    Holds R' (c.evict slots fuel ⟨false, k, v⟩) := by
  induction fuel generalizing c with
  | zero => exact ⟨h.nodup, fun x hx => hR _ _ (hk x hx) (h.right x hx)⟩
  | succ fuel ih =>
    unfold Sieve.evict
    split
    · exact ⟨h.nodup, fun x hx => hR _ _ (hk x hx) (h.right x hx)⟩
    rename_i held hheld
    have hmem : held ∈ c.entries := mem_of_getElem? hheld
    split
    · -- passed over: only the bit changes
      refine ih ⟨nodup_set h.nodup fun x hx hxe => ?_, ?_⟩ ?_
      · rw [hheld, inj_on_of_nodup_map h.nodup hx hmem hxe]
      · intro x hx
        rcases mem_or_eq_of_mem_set hx with hx | rfl
        · exact h.right x hx
        · exact h.right held hmem
      · intro x hx
        rcases mem_or_eq_of_mem_set hx with hx | rfl
        · exact hk x hx
        · exact hk held hmem
    · refine ⟨nodup_set h.nodup fun x hx hxe => absurd hxe (hk x hx), ?_⟩
      intro x hx
      rcases mem_or_eq_of_mem_set hx with hx | rfl
      · exact hR _ _ (hk x hx) (h.right x hx)
      · exact hv

-- == the operations

variable [DecidableEq κ]

def touch (k : κ) (f : Slot κ ν → Slot κ ν) : List (Slot κ ν) → List (Slot κ ν)
  | [] => []
  | e :: es => if e.key = k then f e :: es else e :: touch k f es

/-- The value cached under `k`, and the cache with its bit set. -/
def get (c : Sieve κ ν) (k : κ) : Option ν × Sieve κ ν :=
  match c.entries.find? (fun e => e.key = k) with
  | none => (none, c)
  | some e => (some e.val, { c with entries := touch k ({ · with visited := true }) c.entries })

def put (slots : Nat) (c : Sieve κ ν) (k : κ) (v : ν) : Sieve κ ν :=
  if c.entries.any (fun e => e.key = k) then
    { c with entries := touch k (fun e => { e with visited := true, val := v }) c.entries }
  else if c.entries.length < slots then
    { c with entries := c.entries ++ [⟨false, k, v⟩] }
  else evict slots (2 * slots + 1) c ⟨false, k, v⟩

/-- Drops what is cached under `k`: the last entry takes its place. -/
def forget (c : Sieve κ ν) (k : κ) : Sieve κ ν :=
  match c.entries.findIdx? (fun e => e.key = k), c.entries.getLast? with
  | some i, some last => { c with entries := (c.entries.set i last).dropLast }
  | _, _ => c

theorem map_key_touch {f : Slot κ ν → Slot κ ν} (hf : ∀ e, (f e).key = e.key)
    (es : List (Slot κ ν)) : (touch k f es).map Slot.key = es.map Slot.key := by
  induction es with
  | nil => rfl
  | cons e es ih =>
    rw [touch]
    split
    · simp [hf]
    · simp [ih]

theorem mem_touch {f : Slot κ ν → Slot κ ν} {es : List (Slot κ ν)}
    (hn : (es.map Slot.key).Nodup) {x : Slot κ ν} (hx : x ∈ touch k f es) :
    (x ∈ es ∧ x.key ≠ k) ∨ ∃ e ∈ es, e.key = k ∧ x = f e := by
  induction es with
  | nil => simp [touch] at hx
  | cons e es ih =>
    rw [map_cons, nodup_cons] at hn
    rw [touch] at hx
    split at hx
    case isTrue hk =>
      rcases mem_cons.mp hx with rfl | hx
      · exact Or.inr ⟨e, mem_cons_self, hk, rfl⟩
      · refine Or.inl ⟨mem_cons_of_mem _ hx, fun hkx => hn.1 ?_⟩
        rw [hk, ← hkx]
        exact mem_map_of_mem hx
    case isFalse hk =>
      rcases mem_cons.mp hx with rfl | hx
      · exact Or.inl ⟨mem_cons_self, hk⟩
      · rcases ih hn.2 hx with ⟨hm, hne⟩ | ⟨y, hy, hyk, rfl⟩
        · exact Or.inl ⟨mem_cons_of_mem _ hm, hne⟩
        · exact Or.inr ⟨y, mem_cons_of_mem _ hy, hyk, rfl⟩

theorem Holds.get (h : Holds R c) : Holds R (c.get k).2 ∧ ∀ v, (c.get k).1 = some v → R k v := by
  unfold Sieve.get
  cases hf : c.entries.find? (fun e => decide (e.key = k)) with
  | none => exact ⟨h, by simp⟩
  | some e =>
    have hk : e.key = k := of_decide_eq_true (List.find?_some hf :)
    have hm : e ∈ c.entries := mem_of_find?_eq_some hf
    refine ⟨⟨?_, ?_⟩, ?_⟩
    · show (List.map Slot.key (touch k _ c.entries)).Nodup
      rw [map_key_touch]
      · exact h.nodup
      · exact fun _ => rfl
    · intro x hx
      rcases mem_touch h.nodup hx with ⟨hx, _⟩ | ⟨y, hy, _, rfl⟩
      · exact h.right x hx
      · exact h.right y hy
    · rintro v ⟨⟩
      rw [← hk]
      exact h.right e hm

/-- Caching a right value keeps the cache right, whatever was cached
under the key before. -/
theorem Holds.put {slots : Nat} (h : Holds R c) (hv : R' k v)
    (hR : ∀ k' v', k' ≠ k → R k' v' → R' k' v') :
    Holds R' (c.put slots k v) := by
  unfold Sieve.put
  split
  case isTrue =>
    constructor
    · show (List.map Slot.key (touch k _ c.entries)).Nodup
      rw [map_key_touch]
      · exact h.nodup
      · exact fun _ => rfl
    · intro x hx
      rcases mem_touch h.nodup hx with ⟨hx, hne⟩ | ⟨y, _, hyk, rfl⟩
      · exact hR _ _ hne (h.right x hx)
      · show R' y.key v
        rw [hyk]
        exact hv
  case isFalse hany =>
    have hk : ∀ x ∈ c.entries, x.key ≠ k := by
      intro x hx hxk
      exact hany (any_eq_true.mpr ⟨x, hx, by simpa using hxk⟩)
    split
    · constructor
      · rw [map_append, nodup_append]
        refine ⟨h.nodup, by simp, ?_⟩
        intro a ha b hb
        obtain ⟨x, hx, rfl⟩ := mem_map.mp ha
        rw [map_singleton, mem_singleton] at hb
        rw [hb]
        exact hk x hx
      · intro x hx
        rcases mem_append.mp hx with hx | hx
        · exact hR _ _ (hk x hx) (h.right x hx)
        · rw [mem_singleton.mp hx]
          exact hv
    · exact h.evict hk hv hR

theorem Holds.forget (h : Holds R c)
    (hR : ∀ k' v', k' ≠ k → R k' v' → R' k' v') : Holds R' (c.forget k) := by
  unfold Sieve.forget
  cases hi : c.entries.findIdx? (fun e => decide (e.key = k)) with
  | none =>
    refine ⟨h.nodup, fun x hx => hR _ _ ?_ (h.right x hx)⟩
    have := List.findIdx?_eq_none_iff.mp hi x hx
    simpa using this
  | some i =>
    obtain ⟨hlt, hki, _⟩ := List.findIdx?_eq_some_iff_getElem.mp hi
    have hki : c.entries[i].key = k := by simpa using hki
    -- cut the last entry off: it either is the one to go or replaces it
    obtain ⟨es, last, hes⟩ : ∃ es last, c.entries = es ++ [last] :=
      ⟨c.entries.dropLast, c.entries.getLast (ne_nil_of_length_pos (by omega)),
        (dropLast_append_getLast _).symm⟩
    have hother : ∀ x ∈ c.entries, x ≠ c.entries[i] → x.key ≠ k := by
      intro x hx hne hxk
      exact hne (inj_on_of_nodup_map h.nodup hx (getElem_mem hlt) (by rw [hxk, hki]))
    rw [hes] at hlt
    simp only [hes, List.getLast?_append, List.getLast?_singleton, Option.some_or]
    have hn : ((es ++ [last]).map Slot.key).Nodup := hes ▸ h.nodup
    have hr : ∀ x ∈ es ++ [last], R x.key x.val := hes ▸ h.right
    rw [length_append, length_singleton] at hlt
    rw [map_append, nodup_append] at hn
    by_cases hil : i < es.length
    · rw [set_append_left _ _ hil, dropLast_concat]
      have hget : c.entries[i] = es[i] := by
        simp only [hes, getElem_append_left hil]
      have hne : ∀ x ∈ es, x ≠ es[i] → x.key ≠ k := by
        intro x hx
        rw [← hget]
        exact hother x (by rw [hes]; exact mem_append_left _ hx)
      refine ⟨nodup_set hn.1 ?_, ?_⟩
      · intro x hx hxl
        exact absurd hxl (hn.2.2 _ (mem_map_of_mem hx) _ (by simp))
      intro x hx
      rcases mem_iff_getElem.mp hx with ⟨j, hj, rfl⟩
      rw [getElem_set]
      split
      case isTrue =>
        refine hR _ _ ?_ (hr last (by simp))
        rw [← hki, hget]
        exact (hn.2.2 _ (mem_map_of_mem (getElem_mem hil)) _ (by simp)).symm
      case isFalse hij =>
        rw [length_set] at hj
        refine hR _ _ (hne _ (getElem_mem hj) ?_) (hr _ (by simp))
        intro heq
        have hinj := nodup_iff_injective_getElem.mp (List.Nodup.of_map _ hn.1)
        exact hij (Fin.mk.inj (@hinj ⟨j, hj⟩ ⟨i, hil⟩ heq)).symm
    · have hie : i = es.length := by omega
      rw [hie, set_append_right _ _ le_rfl]
      simp only [Nat.sub_self, set_cons_zero, dropLast_concat]
      refine ⟨hn.1, fun x hx => hR _ _ ?_ (hr x (by simp [hx]))⟩
      have hlast : last.key = k := by
        rw [← hki]
        simp [hes, hie]
      rw [← hlast]
      exact hn.2.2 _ (mem_map_of_mem hx) _ (by simp)

end Sieve

end Molt.Lib
