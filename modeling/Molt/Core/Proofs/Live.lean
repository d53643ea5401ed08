/-
A capability table as a partial map from names to resources.

A name is a 64-bit word: the slot in its low half, the generation in its
high half. `held` is what a table has under a word. A table that only ever
inserts with one rights mask answers `get` from `held` alone (`Sound.get`),
an insert adds one word to the map, a revocation takes one away, and a
revocation by owner takes away some. `live` forgets the names and counts the
resources.
-/
import Molt.Core.Proofs.Capability
import Molt.Lib.Slots

namespace Molt.Core

open Molt.Lib List

variable {τ : Type}

-- == words

def slotOf (w : UInt64) : Nat := w.toNat % 2 ^ 32

def generationOf (w : UInt64) : Nat := w.toNat / 2 ^ 32

/-- The word of a name. -/
def wordOf (c : Capability) : UInt64 := UInt64.ofNat c.raw

theorem word_ext {w w' : UInt64} (hs : slotOf w = slotOf w')
    (hg : generationOf w = generationOf w') : w = w' := by
  unfold slotOf at hs
  unfold generationOf at hg
  apply UInt64.toNat_inj.mp
  omega

section

variable {j g : Nat} (hj : j < 2 ^ 32) (hg : g < 2 ^ 32)
include hj hg

theorem toNat_wordOf : (wordOf (.new j g)).toNat = g * 2 ^ 32 + j := by
  rw [wordOf, Capability.new_raw hj, UInt64.toNat_ofNat']
  omega

theorem slotOf_wordOf : slotOf (wordOf (.new j g)) = j := by
  rw [slotOf, toNat_wordOf hj hg]
  omega

theorem generationOf_wordOf : generationOf (wordOf (.new j g)) = g := by
  rw [generationOf, toNat_wordOf hj hg]
  omega

end

-- == the map

namespace CapabilityTable

def held (t : CapabilityTable τ) (w : UInt64) : Option τ :=
  t.slots[slotOf w]?.bind fun slot =>
    if slot.generation = generationOf w then slot.resource else none

/-- The resources of a table. -/
def live (t : CapabilityTable τ) : Multiset τ := entries (t.slots.map Slot.resource)

/-- Every resource was inserted with `mask`, and generations are `u32`s. -/
structure Sound (t : CapabilityTable τ) (mask : Rights) : Prop where
  rights : ∀ slot ∈ t.slots, slot.resource.isSome → slot.rights = mask
  generation : ∀ slot ∈ t.slots, slot.generation < 2 ^ 32

section Map

variable {t : CapabilityTable τ} {mask : Rights}

theorem Sound.new (n : Nat) (mask : Rights) : Sound (new n : CapabilityTable τ) mask where
  rights := by
    intro slot hslot
    rw [eq_of_mem_replicate hslot]
    simp [Slot.empty]
  generation := by
    intro slot hslot
    rw [eq_of_mem_replicate hslot]
    exact Nat.one_lt_two_pow (by omega)

@[simp] theorem live_new (n : Nat) : (new n : CapabilityTable τ).live = 0 := by
  simp [live, new, Slot.empty]

variable {t' : CapabilityTable τ} {w : UInt64} {owner : CellId} {v : τ}

@[simp] theorem length_new (n : Nat) : (new n : CapabilityTable τ).slots.length = n :=
  length_replicate

theorem held_eq {slot : Slot τ} (h : t.slots[slotOf w]? = some slot) :
    t.held w = if slot.generation = generationOf w then slot.resource else none := by
  simp [held, h]

theorem index_word (w : UInt64) : (Capability.mk w.toNat).index = slotOf w := rfl

theorem generation_word (w : UInt64) : (Capability.mk w.toNat).generation = generationOf w := by
  have := w.toNat_lt
  simp only [Capability.generation, generationOf]
  omega

theorem Sound.get (h : t.Sound mask) (w : UInt64) : (t.get mask ⟨w.toNat⟩).toOption = t.held w := by
  unfold CapabilityTable.get validate
  rw [index_word, generation_word]
  cases hslot : t.slots[slotOf w]? with
  | none => simp [held, hslot, bind, Except.bind, Except.toOption]
  | some slot =>
    rw [held_eq hslot]
    by_cases hgen : slot.generation = generationOf w
    · cases hres : slot.resource with
      | none => simp [hgen, hres, bind, Except.bind, Except.toOption]
      | some v =>
        have hr := h.rights slot (mem_of_getElem? hslot) (by simp [hres])
        simp [hgen, hres, hr, Rights.contains_self, bind, Except.bind, Except.toOption]
    · simp [hgen, bind, Except.bind, Except.toOption]

theorem Sound.get_ok (h : t.Sound mask) : t.get mask ⟨w.toNat⟩ = .ok v ↔ t.held w = some v := by
  rw [← h.get w]
  cases t.get mask ⟨w.toNat⟩ <;> simp [Except.toOption]

theorem slot_of_held (h : t.held w = some v) :
    ∃ slot, t.slots[slotOf w]? = some slot ∧ slot.generation = generationOf w
      ∧ slot.resource = some v := by
  cases hslot : t.slots[slotOf w]? with
  | none => simp [held, hslot] at h
  | some slot =>
    rw [held_eq hslot] at h
    by_cases hgen : slot.generation = generationOf w
    · exact ⟨slot, rfl, hgen, by simpa [hgen] using h⟩
    · simp [hgen] at h

theorem mem_live_of_held (h : t.held w = some v) : v ∈ t.live := by
  obtain ⟨slot, hslot, -, hres⟩ := slot_of_held h
  rw [live, mem_entries, mem_map]
  exact ⟨slot, mem_of_getElem? hslot, hres⟩

-- -- insert

theorem resource_getElem? {j : Nat} {slot : Slot τ} (h : t.slots[j]? = some slot) :
    (t.slots.map Slot.resource)[j]? = some slot.resource := by
  simp [h]

theorem insert_slot {c : Capability}
    (h : t.insert mask owner v = (.ok c, t')) :
    ∃ j slot, t.slots[j]? = some slot ∧ slot.resource = none ∧ j ≤ t.live.card
      ∧ c = .new j slot.generation
      ∧ t' = ⟨t.slots.set j ⟨slot.generation, owner, mask, some v⟩⟩ := by
  unfold insert at h
  cases hfind : t.slots.findIdx? fun slot => slot.resource.isNone with
  | none =>
    rw [hfind] at h
    cases h
  | some j =>
    rw [hfind] at h
    cases h
    obtain ⟨hj, hempty, -⟩ := List.findIdx?_eq_some_iff_getElem.mp hfind
    have hvac : vacancy (t.slots.map Slot.resource) = some j := by
      rw [vacancy, List.findIdx?_map]
      exact hfind
    refine ⟨j, t.slots[j], getElem?_eq_getElem hj, by simpa using hempty, vacancy_le hvac, ?_, ?_⟩
    · simp [hj]
    · simp [hj]

/-- An insert that succeeds: one more resource, under a word of its own if
its slot's number fits one. -/
theorem insert_ok {c : Capability}
    (h : t.insert mask owner v = (.ok c, t')) (hs : t.Sound mask) :
    t'.Sound mask ∧ t'.slots.length = t.slots.length ∧ t'.live = v ::ₘ t.live
      ∧ (∀ w x, t.held w = some x → t'.held w = some x)
      ∧ (t.live.card < 2 ^ 32 → t.held (wordOf c) = none
        ∧ ∀ w, t'.held w = if w = wordOf c then some v else t.held w) := by
  obtain ⟨j, slot, hslot, hnone, hcard, rfl, rfl⟩ := insert_slot h
  have hj : j < t.slots.length := (List.getElem?_eq_some_iff.mp hslot).1
  have hgen := hs.generation slot (mem_of_getElem? hslot)
  have hat : ∀ i, (t.slots.set j ⟨slot.generation, owner, mask, some v⟩)[i]?
      = if j = i then some ⟨slot.generation, owner, mask, some v⟩ else t.slots[i]? :=
    fun i => Holding.getElem?_set_of_some hslot
  refine ⟨⟨?_, ?_⟩, ?_, ?_, ?_, ?_⟩
  · intro s hmem hsome
    rcases mem_or_eq_of_mem_set hmem with hmem | rfl
    · exact hs.rights s hmem hsome
    · rfl
  · intro s hmem
    rcases mem_or_eq_of_mem_set hmem with hmem | rfl
    · exact hs.generation s hmem
    · exact hgen
  · exact length_set
  · show entries ((t.slots.set j _).map Slot.resource) = _
    rw [map_set, entries_put (by rw [resource_getElem? hslot, hnone])]
    rfl
  · intro w x hw
    obtain ⟨s, hs', hg, hr⟩ := slot_of_held hw
    have hne : j ≠ slotOf w := by
      rintro rfl
      rw [hslot] at hs'
      cases hs'
      rw [hnone] at hr
      cases hr
    rw [held, hat, if_neg hne]
    exact hw
  · intro hlow
    have hj' : j < 2 ^ 32 := by omega
    constructor
    · rw [held, slotOf_wordOf hj' hgen, hslot]
      simp [hnone]
    intro w
    by_cases hw : w = wordOf (.new j slot.generation)
    · rw [if_pos hw, hw, held, hat, slotOf_wordOf hj' hgen, if_pos rfl,
        generationOf_wordOf hj' hgen]
      simp
    rw [if_neg hw, held, hat]
    by_cases hslotw : j = slotOf w
    · have hne : slot.generation ≠ generationOf w := by
        intro hg
        apply hw
        apply word_ext
        · rw [slotOf_wordOf hj' hgen, hslotw]
        · rw [generationOf_wordOf hj' hgen, hg]
      rw [if_pos hslotw, held, ← hslotw, hslot]
      simp [hne]
    · rw [if_neg hslotw]
      rfl

theorem insert_error {v x : τ}
    (h : t.insert mask owner v = (.error x, t')) :
    t' = t ∧ t.live.card = t.slots.length := by
  have hfind : t.slots.findIdx? (fun slot => slot.resource.isNone) = none ∧ t' = t := by
    unfold insert at h
    cases hf : t.slots.findIdx? fun slot => slot.resource.isNone with
    | none =>
      rw [hf] at h
      exact ⟨rfl, (Prod.mk.inj h).2.symm⟩
    | some j =>
      rw [hf] at h
      cases h
  refine ⟨hfind.2, ?_⟩
  have hvac : vacancy (t.slots.map Slot.resource) = none := by
    rw [vacancy, List.findIdx?_map]
    exact hfind.1
  rw [live, vacancy_none hvac, length_map]

-- -- revoke

theorem clear_generation_lt (slot : Slot τ) : slot.clear.generation < 2 ^ 32 := by
  simp only [Slot.clear, Slot.advanceGeneration]
  split
  · exact Nat.one_lt_two_pow (by omega)
  · exact Nat.mod_lt _ (Nat.two_pow_pos 32)

theorem revoke_ok
    (h : t.revoke mask ⟨w.toNat⟩ = (.ok v, t')) (hs : t.Sound mask) :
    t'.Sound mask ∧ t'.slots.length = t.slots.length ∧ t.live = v ::ₘ t'.live
      ∧ t.held w = some v ∧ ∀ w', t'.held w' = if w' = w then none else t.held w' := by
  unfold revoke at h
  rw [index_word, generation_word] at h
  cases hslot : t.slots[slotOf w]? with
  | none => simp [hslot] at h
  | some slot =>
    simp only [hslot] at h
    split at h
    · cases h
    rename_i hgen
    split at h
    · cases h
    cases hres : slot.resource with
    | none => simp [hres] at h
    | some x =>
      simp only [hres] at h
      cases h
      have hgen : slot.generation = generationOf w := not_not.mp hgen
      have hat : ∀ i, (t.slots.set (slotOf w) ({ slot with resource := none } : Slot τ).clear)[i]?
          = if slotOf w = i then some ({ slot with resource := none } : Slot τ).clear
            else t.slots[i]? :=
        fun i => Holding.getElem?_set_of_some hslot
      refine ⟨⟨?_, ?_⟩, length_set, ?_, ?_, ?_⟩
      · intro s hmem hsome
        rcases mem_or_eq_of_mem_set hmem with hmem | rfl
        · exact hs.rights s hmem hsome
        · simp at hsome
      · intro s hmem
        rcases mem_or_eq_of_mem_set hmem with hmem | rfl
        · exact hs.generation s hmem
        · exact clear_generation_lt _
      · show t.live = _ ::ₘ entries ((t.slots.set (slotOf w) _).map Slot.resource)
        rw [map_set]
        exact (entries_clear (by rw [resource_getElem? hslot, hres])).symm
      · rw [held_eq hslot, if_pos hgen, hres]
      intro w'
      rw [held, hat]
      split
      · rename_i hslotw
        split
        · simp
        · rename_i hw
          have hne : slot.generation ≠ generationOf w' := by
            intro hg
            exact hw (word_ext hslotw.symm (hg.symm.trans hgen))
          rw [held, ← hslotw, hslot]
          simp [hne]
      · rename_i hslotw
        rw [if_neg (by rintro rfl; exact hslotw rfl)]
        rfl

theorem revoke_error {e : CapabilityError}
    (h : t.revoke mask ⟨w.toNat⟩ = (.error e, t')) : t' = t := by
  have := Holding.revoke_failed t mask ⟨w.toNat⟩ e (by rw [h])
  rw [h] at this
  exact this

theorem revokeWhere_held (t : CapabilityTable τ) (drop : Slot τ → Bool) (w : UInt64) :
    (t.revokeWhere drop).2.held w = t.held w ∨ (t.revokeWhere drop).2.held w = none := by
  unfold revokeWhere held
  dsimp only
  rw [getElem?_map]
  cases hslot : t.slots[slotOf w]? with
  | none => exact .inl rfl
  | some slot =>
    dsimp only [Option.map, Option.bind]
    split
    · right
      simp
    · exact .inl rfl

theorem Sound.revokeWhere (h : t.Sound mask) (drop : Slot τ → Bool) :
    (t.revokeWhere drop).2.Sound mask where
  rights := by
    intro slot hmem hsome
    obtain ⟨old, hold, rfl⟩ := mem_map.mp hmem
    by_cases hgone : (old.resource.isSome && drop old) = true
    · rw [if_pos hgone] at hsome
      simp at hsome
    · rw [if_neg hgone] at hsome ⊢
      exact h.rights old hold hsome
  generation := by
    intro slot hmem
    obtain ⟨old, hold, rfl⟩ := mem_map.mp hmem
    split
    · exact clear_generation_lt old
    · exact h.generation old hold

theorem length_revokeWhere (t : CapabilityTable τ) (drop : Slot τ → Bool) :
    (t.revokeWhere drop).2.slots.length = t.slots.length := length_map _

theorem revokeAll_held (t : CapabilityTable τ) (w : UInt64) : t.revokeAll.2.held w = none := by
  unfold revokeAll revokeWhere held
  dsimp only
  rw [getElem?_map]
  cases hslot : t.slots[slotOf w]? with
  | none => rfl
  | some slot =>
    dsimp only [Option.map, Option.bind]
    split
    · simp
    · rename_i hres
      have : slot.resource = none := by simpa using hres
      simp [this]

end Map

end CapabilityTable

end Molt.Core
