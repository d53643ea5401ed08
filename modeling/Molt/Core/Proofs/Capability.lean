/-
What a capability table promises over any run of calls.

# Places

Every resource ever inserted has a place: the slot it went into and the
generation that slot had. While the slots are emptied fewer than `2^32 - 1`
times each, a slot's generation is one more than that count, so it only
grows and no two resources share a place. `Holding.Kept` says that a
resource not revoked sits at its place, that a revoked one's slot has moved
to a later generation, and that every name spells its resource's place.

# What follows

A name then resolves to its own resource or finds a later generation
(`Kept.resolve`), and each call's answer is read off from that. Two kinds
of step keep the invariant up: filling an empty slot, and emptying some of
the slots in use (`Kept.cleared`), which is all that the three revocations
do.

# The width of an index

A name holds 32 bits of its slot's number. A table of more than `2^32`
slots hands out names that spell another slot.
-/
import Molt.Core.Capability

namespace Molt.Core

open List Holding CapabilityTable

variable {τ : Type}

-- == rights

theorem Rights.contains_self (r : Rights) : r.contains r = true := by
  simp [Rights.contains]

theorem Rights.contains_trans {a b c : Rights} (hab : a.contains b = true)
    (hbc : b.contains c = true) : a.contains c = true := by
  simp only [Rights.contains, beq_iff_eq] at *
  rw [← hbc, ← BitVec.and_assoc, hab]

-- == names

namespace Capability

variable {j g : Nat}

theorem new_raw (hj : j < 2 ^ 32) : (new j g).raw = g * 2 ^ 32 + j := by
  rw [new, Nat.mod_eq_of_lt hj, ← Nat.shiftLeft_add_eq_or_of_lt hj, Nat.shiftLeft_eq]

theorem index_new (hj : j < 2 ^ 32) : (new j g).index = j := by
  rw [index, new_raw hj]
  omega

theorem generation_new (hj : j < 2 ^ 32) (hg : g < 2 ^ 32) : (new j g).generation = g := by
  rw [generation, new_raw hj]
  omega

end Capability

-- == slots

theorem Slot.clear_generation (slot : Slot τ) (h : slot.generation + 1 < 2 ^ 32) :
    slot.clear.generation = slot.generation + 1 := by
  simp only [Slot.clear, Slot.advanceGeneration]
  rw [Nat.mod_eq_of_lt h, if_neg (by omega)]

@[simp] theorem Slot.clear_resource (slot : Slot τ) : slot.clear.resource = none := rfl

namespace Holding

variable {s : Holding τ} {n : Nat} {places : List (Nat × Nat)}

/-- Every resource at its place, and every name spelling one. -/
structure Kept (n : Nat) (s : Holding τ) (places : List (Nat × Nat)) : Prop where
  width : s.table.slots.length = n
  /-- A slot's generation counts how often it was emptied. -/
  counted : ∀ j slot, s.table.slots[j]? = some slot → slot.generation = s.emptied j + 1
  placed : places.length = s.ledger.length
  apart : ∀ (k k' : Nat) (p : Nat × Nat), places[k]? = some p → places[k']? = some p → k = k'
  live : ∀ (k : Nat) p e, places[k]? = some p → s.ledger[k]? = some e → e.revoked = false →
    s.table.slots[p.1]? = some ⟨p.2, e.owner, e.rights, some e.value⟩
  dead : ∀ (k : Nat) p e, places[k]? = some p → s.ledger[k]? = some e → e.revoked = true →
    ∃ slot, s.table.slots[p.1]? = some slot ∧ p.2 < slot.generation
  names : ∀ h ∈ s.names, ∃ p e, places[h.resource]? = some p
    ∧ s.ledger[h.resource]? = some e ∧ h.cap = .new p.1 p.2
    ∧ e.rights.contains h.mask = true

theorem Kept.new (n : Nat) : Kept n (new n : Holding τ) [] where
  width := length_replicate ..
  counted j slot h := by
    have hmem := mem_of_getElem? h
    rw [eq_of_mem_replicate hmem]
    rfl
  placed := rfl
  apart k k' p h := by simp at h
  live k p e h := by simp at h
  dead k p e h := by simp at h
  names h hin := by simp [Holding.new] at hin

/-- How often a slot may have been emptied for its generations to be new. -/
def Fresh (s : Holding τ) : Prop := ∀ j, s.emptied j < 2 ^ 32 - 1

variable {p : Nat × Nat} {e : Entry τ}

/-- The slot at a place exists, at the place's generation or a later one. -/
theorem Kept.slot_at (h : Kept n s places) {k : Nat}
    (hp : places[k]? = some p) (he : s.ledger[k]? = some e) :
    ∃ slot, s.table.slots[p.1]? = some slot ∧ p.2 ≤ slot.generation := by
  cases hr : e.revoked with
  | false => exact ⟨_, h.live k p e hp he hr, le_rfl⟩
  | true =>
    obtain ⟨slot, hslot, hlt⟩ := h.dead k p e hp he hr
    exact ⟨slot, hslot, hlt.le⟩

theorem Kept.place_lt (h : Kept n s places) (hn : n ≤ 2 ^ 32) (hf : s.Fresh) {k : Nat}
    (hp : places[k]? = some p) (he : s.ledger[k]? = some e) :
    p.1 < 2 ^ 32 ∧ p.2 < 2 ^ 32 := by
  obtain ⟨slot, hslot, hle⟩ := h.slot_at hp he
  have hj : p.1 < s.table.slots.length := (List.getElem?_eq_some_iff.mp hslot).1
  have hg := h.counted p.1 slot hslot
  have hb := hf p.1
  rw [h.width] at hj
  omega

theorem Kept.resolve (h : Kept n s places) (hn : n ≤ 2 ^ 32) (hf : s.Fresh) {i : Issued}
    (hi : i ∈ s.names) :
    ∃ p e, places[i.resource]? = some p ∧ s.ledger[i.resource]? = some e
      ∧ (p.1 = i.cap.index ∧ p.2 = i.cap.generation)
      ∧ e.rights.contains i.mask = true
      ∧ (e.revoked = false → s.table.slots[i.cap.index]?
          = some ⟨i.cap.generation, e.owner, e.rights, some e.value⟩)
      ∧ (e.revoked = true → ∃ slot, s.table.slots[i.cap.index]? = some slot
          ∧ slot.generation ≠ i.cap.generation) := by
  obtain ⟨p, e, hp, he, hcap, hmask⟩ := h.names i hi
  obtain ⟨hj, hg⟩ := h.place_lt hn hf hp he
  rw [hcap, Capability.index_new hj, Capability.generation_new hj hg]
  refine ⟨p, e, hp, he, ⟨rfl, rfl⟩, hmask, h.live _ p e hp he, fun hr => ?_⟩
  obtain ⟨slot, hslot, hlt⟩ := h.dead _ p e hp he hr
  exact ⟨slot, hslot, by omega⟩

-- == what calls answer

section Answers

variable {t : CapabilityTable τ} {c : Capability} {mask target : Rights}

variable {rights : Rights} {owner : CellId}

theorem validate_live {v : τ}
    (h : t.slots[c.index]? = some ⟨c.generation, owner, rights, some v⟩)
    (hm : rights.contains mask = true) :
    t.validate mask c = .ok ⟨c.generation, owner, rights, some v⟩ := by
  simp [validate, h, hm]

theorem validate_stale {slot : Slot τ} (h : t.slots[c.index]? = some slot)
    (hne : slot.generation ≠ c.generation) : t.validate mask c = .error .stale := by
  simp [validate, h, hne]

theorem validate_empty {slot : Slot τ} (h : t.slots[c.index]? = some slot)
    (hr : slot.resource = none) : t.validate mask c = .error .stale := by
  simp [validate, h, hr]

section

variable {v : τ} (h : t.slots[c.index]? = some ⟨c.generation, owner, rights, some v⟩)
  (hm : rights.contains mask = true)
include h hm

theorem get_live : t.get mask c = .ok v := by
  simp [CapabilityTable.get, validate_live h hm, bind, Except.bind]

theorem getMut_live (f : τ → τ) :
    t.getMut mask c f
      = (.ok v, ⟨t.slots.set c.index ⟨c.generation, owner, rights, some (f v)⟩⟩) := by
  simp [getMut, h, hm]

end

theorem getMut_stale {slot : Slot τ} (h : t.slots[c.index]? = some slot)
    (hne : slot.generation ≠ c.generation) (f : τ → τ) :
    t.getMut mask c f = (.error .stale, t) := by
  simp [getMut, h, hne]

theorem revoke_live {v : τ}
    (h : t.slots[c.index]? = some ⟨c.generation, owner, rights, some v⟩)
    (hm : rights.contains mask = true) :
    t.revoke mask c = (.ok v, ⟨t.slots.set c.index
      (⟨c.generation, owner, rights, some v⟩ : Slot τ).clear⟩) := by
  simp [revoke, h, hm, Slot.clear]

theorem revoke_stale {slot : Slot τ} (h : t.slots[c.index]? = some slot)
    (hne : slot.generation ≠ c.generation) : t.revoke mask c = (.error .stale, t) := by
  simp [revoke, h, hne]

theorem getMut_failed (t : CapabilityTable τ) (mask : Rights) (c : Capability) (f : τ → τ)
    (e : CapabilityError) (h : (t.getMut mask c f).1 = .error e) :
    (t.getMut mask c f).2 = t := by
  unfold getMut at h ⊢
  cases hs : t.slots[c.index]? with
  | none => rfl
  | some slot =>
    simp only [hs] at h ⊢
    split
    · rfl
    split
    · rfl
    · cases hr : slot.resource with
      | none => rfl
      | some v => simp_all

/-- A refused revocation leaves the table as it was: what it took from the
slot was nothing. -/
theorem revoke_failed (t : CapabilityTable τ) (mask : Rights) (c : Capability)
    (e : CapabilityError) (h : (t.revoke mask c).1 = .error e) :
    (t.revoke mask c).2 = t := by
  unfold revoke at h ⊢
  cases hs : t.slots[c.index]? with
  | none => rfl
  | some slot =>
    simp only [hs] at h ⊢
    split
    · rfl
    split
    · rfl
    cases hr : slot.resource with
    | some v => simp_all
    | none =>
      obtain ⟨hlt, hget⟩ := List.getElem?_eq_some_iff.mp hs
      have hsame : ({ slot with resource := none } : Slot τ) = t.slots[c.index] := by
        rw [hget, ← hr]
      simp only [hsame, set_getElem_self]

theorem attenuate_ok {c' : Capability} (h : t.attenuate mask target c = .ok c') :
    c' = c ∧ mask.contains target = true := by
  unfold attenuate at h
  cases hv : t.validate mask c with
  | error => simp [hv, bind, Except.bind] at h
  | ok slot =>
    simp only [hv, bind, Except.bind] at h
    split at h
    · cases h
    rename_i hok
    refine ⟨(Except.ok.inj h).symm, ?_⟩
    cases hm : mask.contains target with
    | true => rfl
    | false => simp [hm] at hok

theorem delegate_ok {c' : Capability} {giver taker : CellId} {d : Delegation}
    (h : t.delegate mask target c giver taker = .ok (c', d)) :
    c' = c ∧ mask.contains target = true := by
  unfold delegate at h
  cases ha : t.attenuate mask target c with
  | error => simp [ha, bind, Except.bind] at h
  | ok c'' =>
    simp only [ha, bind, Except.bind, Except.ok.injEq, Prod.mk.injEq] at h
    rw [← h.1]
    exact attenuate_ok ha

theorem insert_cases (t : CapabilityTable τ) (mask : Rights) (owner : CellId) (v : τ) :
    t.insert mask owner v = (.error v, t) ∨
      ∃ j slot, t.slots[j]? = some slot ∧ slot.resource = none ∧
        t.insert mask owner v = (.ok (.new j slot.generation),
          ⟨t.slots.set j ⟨slot.generation, owner, mask, some v⟩⟩) := by
  unfold CapabilityTable.insert
  cases hfind : t.slots.findIdx? fun slot => slot.resource.isNone with
  | none => exact .inl rfl
  | some j =>
    obtain ⟨hj, hempty, -⟩ := List.findIdx?_eq_some_iff_getElem.mp hfind
    refine .inr ⟨j, t.slots[j], getElem?_eq_getElem hj, by simpa using hempty, ?_⟩
    simp [hj]

end Answers

-- == one call, one step

theorem become_emptied {t' : CapabilityTable τ} {names : List Issued}
    {ledger : List (Entry τ)}
    (h : ∀ (j : Nat) (slot : Slot τ), s.table.slots[j]? = some slot →
      slot.resource.isSome = true →
      ∃ slot', t'.slots[j]? = some slot' ∧ slot'.resource.isSome = true) :
    (s.become t' names ledger).emptied = s.emptied := by
  funext j
  simp only [become, emptiedIn]
  cases hs : s.table.slots[j]? with
  | none => simp
  | some slot =>
    cases hr : slot.resource with
    | none => simp [hr]
    | some v =>
      obtain ⟨slot', hs', hr'⟩ := h j slot hs (by simp [hr])
      simp [hs', Option.isNone_eq_false_iff.mpr hr']

theorem getElem?_set_of_some {β : Type} {l : List β} {i j : Nat} {a b : β}
    (hi : l[i]? = some a) :
    (l.set i b)[j]? = if i = j then some b else l[j]? := by
  have hlt : i < l.length := (List.getElem?_eq_some_iff.mp hi).1
  rw [getElem?_set]
  simp [hlt]

theorem getElem?_append_of_some {β : Type} {l m : List β} {i : Nat} {a : β}
    (hi : l[i]? = some a) : (l ++ m)[i]? = some a := by
  rw [List.getElem?_append_left (List.getElem?_eq_some_iff.mp hi).1, hi]

section

variable (h : Kept n s places)

include h

theorem Kept.vacant {k j : Nat} {slot : Slot τ}
    (hslot : s.table.slots[j]? = some slot) (hempty : slot.resource = none)
    (hp : places[k]? = some p) (he : s.ledger[k]? = some e) (hpj : p.1 = j) :
    e.revoked = true ∧ p.2 < slot.generation := by
  cases hr : e.revoked with
  | false =>
    have hlive := h.live k p e hp he hr
    rw [hpj, hslot] at hlive
    rw [Option.some.inj hlive] at hempty
    cases hempty
  | true =>
    obtain ⟨slot', hslot', hlt⟩ := h.dead k p e hp he hr
    rw [hpj, hslot] at hslot'
    rw [Option.some.inj hslot']
    exact ⟨rfl, hlt⟩

theorem Kept.filled {j : Nat} {slot : Slot τ} (mask : Rights)
    (owner : CellId) (v : τ) (hslot : s.table.slots[j]? = some slot)
    (hempty : slot.resource = none) :
    Kept n (s.become ⟨s.table.slots.set j ⟨slot.generation, owner, mask, some v⟩⟩
      (s.names ++ [⟨.new j slot.generation, mask, s.ledger.length⟩])
      (s.ledger ++ [⟨owner, mask, v, false⟩])) (places ++ [(j, slot.generation)]) := by
  have hget : ∀ i : Nat, (s.table.slots.set j ⟨slot.generation, owner, mask, some v⟩)[i]?
      = if j = i then some ⟨slot.generation, owner, mask, some v⟩
        else s.table.slots[i]? := fun i => getElem?_set_of_some hslot
  -- a position of the longer lists is an old one, or the last of both
  have hlast : ∀ {k : Nat} {p : Nat × Nat}, (places ++ [(j, slot.generation)])[k]? = some p →
      places[k]? = some p ∨ (k = s.ledger.length ∧ p = (j, slot.generation)) := by
    intro k p hp
    rw [getElem?_append] at hp
    split at hp
    · exact .inl hp
    rename_i hge
    have hk := (List.getElem?_eq_some_iff.mp hp).1
    rw [length_singleton] at hk
    have hk0 : k = places.length := by omega
    rw [hk0, Nat.sub_self] at hp
    exact .inr ⟨by rw [hk0, h.placed], by simpa using hp.symm⟩
  have hold : ∀ {k : Nat} {p : Nat × Nat} {e : Entry τ}, places[k]? = some p →
      (s.ledger ++ [⟨owner, mask, v, false⟩])[k]? = some e → s.ledger[k]? = some e := by
    intro k p e hp he
    have hk := (List.getElem?_eq_some_iff.mp hp).1
    rwa [getElem?_append_left (by rw [← h.placed]; exact hk)] at he
  have hend : (s.ledger ++ [(⟨owner, mask, v, false⟩ : Entry τ)])[s.ledger.length]?
      = some ⟨owner, mask, v, false⟩ := by simp
  refine ⟨?_, fun i slot' hi => ?_, ?_, fun k k' p hp hp' => ?_, fun k p e hp he hr => ?_,
    fun k p e hp he hr => ?_, fun i hi => ?_⟩
  · rw [← h.width]
    exact length_set ..
  · rw [become_emptied fun i slot' hi hr => ?_]
    · rw [show (s.become _ _ _).table.slots[i]? = _ from hget i] at hi
      split at hi
      case isTrue hij =>
        rw [← Option.some.inj hi, ← hij]
        exact h.counted j slot hslot
      case isFalse => exact h.counted i slot' hi
    · rw [hget]
      split
      · exact ⟨_, rfl, rfl⟩
      · exact ⟨slot', hi, hr⟩
  · show (places ++ _).length = (s.ledger ++ _).length
    simp [h.placed]
  · -- the new place is none of the old ones: the slot was empty
    have hnew : ∀ i : Nat, places[i]? ≠ some (j, slot.generation) := by
      intro i hi
      have hlt := (List.getElem?_eq_some_iff.mp hi).1
      rw [h.placed] at hlt
      exact Nat.lt_irrefl _ (h.vacant hslot hempty hi (getElem?_eq_getElem hlt) rfl).2
    rcases hlast hp with hp1 | ⟨hk, hpe⟩ <;> rcases hlast hp' with hp1' | ⟨hk', hpe'⟩
    · exact h.apart k k' p hp1 hp1'
    · exact absurd (hpe' ▸ hp1) (hnew k)
    · exact absurd (hpe ▸ hp1') (hnew k')
    · rw [hk, hk']
  · show (s.table.slots.set _ _)[p.1]? = _
    rw [hget]
    rcases hlast hp with hp1 | ⟨hk, hpe⟩
    · have he1 := hold hp1 he
      rw [if_neg fun hj => ?_]
      · exact h.live k p e hp1 he1 hr
      · rw [(h.vacant hslot hempty hp1 he1 hj.symm).1] at hr
        cases hr
    · subst hk
      obtain rfl := Option.some.inj (hend.symm.trans he)
      rw [hpe, if_pos rfl]
  · show ∃ slot', (s.table.slots.set _ _)[p.1]? = _ ∧ _
    rw [hget]
    rcases hlast hp with hp1 | ⟨hk, hpe⟩
    · have he1 := hold hp1 he
      split
      case isTrue hj =>
        exact ⟨_, rfl, (h.vacant hslot hempty hp1 he1 hj.symm).2⟩
      case isFalse => exact h.dead k p e hp1 he1 hr
    · subst hk
      obtain rfl := Option.some.inj (hend.symm.trans he)
      cases hr
  · rcases mem_append.mp hi with hi1 | hi1
    · obtain ⟨p, e, hp, he, hcap, hmask⟩ := h.names i hi1
      exact ⟨p, e, getElem?_append_of_some hp, getElem?_append_of_some he, hcap, hmask⟩
    obtain rfl := mem_singleton.mp hi1
    refine ⟨(j, slot.generation), _, ?_, hend, rfl, Rights.contains_self mask⟩
    show (places ++ _)[s.ledger.length]? = _
    rw [← h.placed]
    simp

theorem Kept.narrowed {i : Issued} (hi : i ∈ s.names)
    {mask : Rights} (hle : i.mask.contains mask = true) :
    Kept n { s with names := s.names ++ [⟨i.cap, mask, i.resource⟩] } places := by
  refine { h with names := fun x hx => ?_ }
  rcases mem_append.mp hx with hx1 | hx1
  · exact h.names x hx1
  · obtain rfl := mem_singleton.mp hx1
    obtain ⟨p, e, hp, he, hcap, hmask⟩ := h.names i hi
    exact ⟨p, e, hp, he, hcap, Rights.contains_trans hmask hle⟩

theorem Kept.one_tenant {k k' : Nat} {p p' : Nat × Nat}
    {e e' : Entry τ} (hp : places[k]? = some p) (he : s.ledger[k]? = some e)
    (hr : e.revoked = false) (hp' : places[k']? = some p') (he' : s.ledger[k']? = some e')
    (hr' : e'.revoked = false) (hj : p.1 = p'.1) : k = k' := by
  have hlive := h.live k p e hp he hr
  have hlive' := h.live k' p' e' hp' he' hr'
  rw [← hj, hlive] at hlive'
  have hgen : p.2 = p'.2 := by injection Option.some.inj hlive'
  exact h.apart k k' p hp (by rw [hp', Prod.ext hj hgen])

theorem Kept.mutated {k : Nat}
    (f : τ → τ) (hp : places[k]? = some p) (he : s.ledger[k]? = some e)
    (hr : e.revoked = false) :
    Kept n (s.become ⟨s.table.slots.set p.1 ⟨p.2, e.owner, e.rights, some (f e.value)⟩⟩
      s.names (s.ledger.modify k fun e => { e with value := f e.value })) places := by
  have hslot := h.live k p e hp he hr
  have hget : ∀ i : Nat, (s.table.slots.set p.1 ⟨p.2, e.owner, e.rights, some (f e.value)⟩)[i]?
        = if p.1 = i then some ⟨p.2, e.owner, e.rights, some (f e.value)⟩
          else s.table.slots[i]? := fun i => getElem?_set_of_some hslot
  -- an entry of the changed ledger is the old one, `k`'s with its new value
  have hback : ∀ {k' : Nat} {e' : Entry τ},
      (s.ledger.modify k fun e => { e with value := f e.value })[k']? = some e' →
      ∃ e0, s.ledger[k']? = some e0
        ∧ e' = if k = k' then { e0 with value := f e0.value } else e0 := by
    intro k' e' h'
    rw [getElem?_modify] at h'
    obtain ⟨e0, he0, rfl⟩ := Option.map_eq_some_iff.mp h'
    exact ⟨e0, he0, by split <;> rfl⟩
  refine ⟨?_, fun i slot hi => ?_, ?_, h.apart, fun k' p' e' hp' he' hr' => ?_,
    fun k' p' e' hp' he' hr' => ?_, fun i hi => ?_⟩
  · rw [← h.width]
    exact length_set ..
  · rw [become_emptied fun i slot hi hsome => ?_]
    · rw [show (s.become _ _ _).table.slots[i]? = _ from hget i] at hi
      split at hi
      case isTrue hij =>
        have hcount : p.2 = _ := h.counted p.1 _ hslot
        rw [← Option.some.inj hi, ← hij, ← hcount]
      case isFalse => exact h.counted i slot hi
    · rw [hget]
      split
      · exact ⟨_, rfl, rfl⟩
      · exact ⟨slot, hi, hsome⟩
  · rw [h.placed]
    exact (length_modify ..).symm
  · obtain ⟨e0, he0, rfl⟩ := hback he'
    show (s.table.slots.set _ _)[p'.1]? = _
    rw [hget]
    by_cases hk : k = k'
    · subst hk
      obtain rfl := Option.some.inj (hp.symm.trans hp')
      obtain rfl := Option.some.inj (he.symm.trans he0)
      simp
    · rw [if_neg hk] at hr' ⊢
      have hlive := h.live k' p' e0 hp' he0 hr'
      rw [if_neg fun hj => hk (h.one_tenant hp he hr hp' he0 hr' hj)]
      exact hlive
  · obtain ⟨e0, he0, rfl⟩ := hback he'
    have hr0 : e0.revoked = true := by
      split at hr' <;> exact hr'
    obtain ⟨slot, hslot', hlt⟩ := h.dead k' p' e0 hp' he0 hr0
    show ∃ slot', (s.table.slots.set _ _)[p'.1]? = _ ∧ _
    rw [hget]
    split
    case isTrue hj =>
      rw [← hj, hslot] at hslot'
      rw [← Option.some.inj hslot'] at hlt
      exact ⟨_, rfl, hlt⟩
    case isFalse => exact ⟨slot, hslot', hlt⟩
  · obtain ⟨p', e', hp', he', hcap, hmask⟩ := h.names i hi
    refine ⟨p', if k = i.resource then { e' with value := f e'.value } else e', hp', ?_, hcap, ?_⟩
    · show (s.ledger.modify k _)[i.resource]? = _
      rw [getElem?_modify, he']
      split <;> rfl
    · split <;> exact hmask

/-- Emptying slots in use, and marking exactly the resources that sat in
them. -/
theorem Kept.cleared (gone : Nat → Slot τ → Bool)
    {t' : CapabilityTable τ} {ledger : List (Entry τ)}
    (hused : ∀ j slot, gone j slot = true → slot.resource.isSome = true)
    (hwidth : t'.slots.length = s.table.slots.length)
    (hslots : ∀ j : Nat, t'.slots[j]? = (s.table.slots[j]?).map fun slot =>
      if gone j slot then slot.clear else slot)
    (hlen : ledger.length = s.ledger.length)
    (hmark : ∀ (k : Nat) p e, places[k]? = some p → s.ledger[k]? = some e →
      ledger[k]? = some (if e.revoked = false ∧
          gone p.1 ⟨p.2, e.owner, e.rights, some e.value⟩ = true
        then { e with revoked := true } else e))
    (hf : (s.become t' s.names ledger).Fresh) :
    Kept n (s.become t' s.names ledger) places := by
  -- a slot emptied is counted, and its generation does not wrap
  have hclear : ∀ {j : Nat} {slot : Slot τ}, s.table.slots[j]? = some slot →
      gone j slot = true → (s.become t' s.names ledger).emptied j = s.emptied j + 1
        ∧ slot.clear.generation = slot.generation + 1 := by
    intro j slot hj hg
    have hone : (s.become t' s.names ledger).emptied j = s.emptied j + 1 := by
      simp [become, emptiedIn, hj, hslots j, hg, hused j slot hg]
    have hb := hf j
    have hc := h.counted j slot hj
    exact ⟨hone, slot.clear_generation (by omega)⟩
  have hkeep : ∀ {j : Nat} {slot : Slot τ}, s.table.slots[j]? = some slot →
      gone j slot = false → (s.become t' s.names ledger).emptied j = s.emptied j := by
    intro j slot hj hg
    cases hr : slot.resource <;> simp [become, emptiedIn, hj, hslots j, hg, hr]
  have hentry : ∀ {k : Nat} {p : Nat × Nat}, places[k]? = some p → ∃ e, s.ledger[k]? = some e := by
    intro k p hp
    have hk := (List.getElem?_eq_some_iff.mp hp).1
    rw [h.placed] at hk
    exact ⟨_, getElem?_eq_getElem hk⟩
  refine ⟨hwidth.trans h.width, fun j slot' hj => ?_, h.placed.trans hlen.symm, h.apart,
    fun k p e' hp he' hr' => ?_, fun k p e' hp he' hr' => ?_, fun i hi => ?_⟩
  · rw [show (s.become t' s.names ledger).table.slots[j]? = _ from hslots j] at hj
    obtain ⟨slot, hslot, rfl⟩ := Option.map_eq_some_iff.mp hj
    cases hg : gone j slot with
    | true =>
      obtain ⟨hone, hgen⟩ := hclear hslot hg
      rw [if_pos rfl, hone, hgen, h.counted j slot hslot]
    | false =>
      rw [hkeep hslot hg]
      exact h.counted j slot hslot
  · obtain ⟨e, he⟩ := hentry hp
    have hm := (hmark k p e hp he).symm.trans he'
    split at hm
    · rw [← Option.some.inj hm] at hr'; cases hr'
    rename_i hnot
    obtain rfl := Option.some.inj hm
    show t'.slots[p.1]? = _
    rw [hslots, h.live k p e hp he hr']
    have hg : gone p.1 ⟨p.2, e.owner, e.rights, some e.value⟩ = false := by
      simpa [hr'] using hnot
    simp [hg]
  · obtain ⟨e, he⟩ := hentry hp
    have hm := (hmark k p e hp he).symm.trans he'
    show ∃ slot, t'.slots[p.1]? = some slot ∧ _
    rw [hslots]
    split at hm
    · rename_i hgone
      have hslot := h.live k p e hp he hgone.1
      refine ⟨_, by rw [hslot, Option.map_some, if_pos hgone.2], ?_⟩
      rw [(hclear hslot hgone.2).2]
      exact Nat.lt_succ_self _
    obtain rfl := Option.some.inj hm
    obtain ⟨slot, hslot, hlt⟩ := h.dead k p e hp he hr'
    refine ⟨_, by rw [hslot, Option.map_some], ?_⟩
    split
    case isTrue hg =>
      rw [(hclear hslot hg).2]
      exact Nat.lt_succ_of_lt hlt
    case isFalse => exact hlt
  · obtain ⟨p, e, hp, he, hcap, hmask⟩ := h.names i hi
    refine ⟨p, _, hp, hmark _ p e hp he, hcap, ?_⟩
    split <;> exact hmask

theorem Kept.evicted {k : Nat}
    (hp : places[k]? = some p) (he : s.ledger[k]? = some e) (hr : e.revoked = false)
    (hf : (s.become ⟨s.table.slots.set p.1
        (⟨p.2, e.owner, e.rights, some e.value⟩ : Slot τ).clear⟩ s.names
      (s.ledger.modify k fun e => { e with revoked := true })).Fresh) :
    Kept n (s.become ⟨s.table.slots.set p.1
        (⟨p.2, e.owner, e.rights, some e.value⟩ : Slot τ).clear⟩ s.names
      (s.ledger.modify k fun e => { e with revoked := true })) places := by
  have hslot := h.live k p e hp he hr
  refine h.cleared (fun j slot => decide (j = p.1) && slot.resource.isSome) ?_
    (length_set ..) ?_ (length_modify ..) ?_ hf
  · intro j slot hg
    simp only [Bool.and_eq_true] at hg
    exact hg.2
  · intro j
    rw [getElem?_set_of_some hslot]
    by_cases hj : p.1 = j
    · subst hj
      simp [hslot]
    · simp [hj, Ne.symm hj]
  intro k' p' e' hp' he'
  rw [getElem?_modify, he']
  by_cases hk : k = k'
  · subst hk
    obtain rfl := Option.some.inj (hp.symm.trans hp')
    obtain rfl := Option.some.inj (he.symm.trans he')
    simp [hr]
  · -- another resource live in that slot would be this one
    have hother : ¬(e'.revoked = false ∧ p'.1 = p.1) := fun ⟨hr', hj⟩ =>
      hk (h.one_tenant hp he hr hp' he' hr' hj.symm)
    simp [hk]
    intro hr' hj
    exact absurd ⟨hr', hj⟩ hother

theorem Kept.dropped (sel : CellId → Bool)
    (hf : (s.become (s.table.revokeWhere fun slot => sel slot.owner).2 s.names
      (drop s.ledger fun e => sel e.owner)).Fresh) :
    Kept n (s.become (s.table.revokeWhere fun slot => sel slot.owner).2 s.names
      (drop s.ledger fun e => sel e.owner)) places := by
  refine h.cleared (fun _ slot => slot.resource.isSome && sel slot.owner) ?_
    (length_map ..) (fun j => getElem?_map ..) (length_map ..) ?_ hf
  · intro j slot hg
    simp only [Bool.and_eq_true] at hg
    exact hg.1
  · intro k p e hp he
    rw [drop, getElem?_map, he]
    obtain ⟨owner, rights, value, revoked⟩ := e
    cases revoked <;> simp

end

-- == one call

theorem emptied_le_call (s : Holding τ) (c : Call τ) (j : Nat) :
    s.emptied j ≤ (s.call c).2.emptied j := by
  cases c with
  | insert => simp only [call]; split <;> exact Nat.le_add_right ..
  | attenuate | delegate | get =>
    simp only [call]
    split
    · exact le_rfl
    · split <;> exact le_rfl
  | getMut | revoke =>
    simp only [call]
    split
    · exact le_rfl
    · split <;> exact Nat.le_add_right ..
  | revokeOwner | revokeAll => exact Nat.le_add_right ..

theorem become_self (s : Holding τ) : s.become s.table s.names s.ledger = s := by
  have h : (s.become s.table s.names s.ledger).emptied = s.emptied :=
    become_emptied fun j slot hj hr => ⟨slot, hj, hr⟩
  obtain ⟨table, names, ledger, emptied⟩ := s
  simpa [become] using h

theorem call_failed (s : Holding τ) (c : Call τ) (h : (s.call c).1 = false) : (s.call c).2 = s := by
  cases c with
  | insert mask owner v =>
    rcases insert_cases s.table mask owner v with heq | ⟨j, slot, -, -, heq⟩
    · simp only [call, heq]
      exact s.become_self
    · simp [call, heq] at h
  | attenuate | delegate | get =>
    simp only [call] at h ⊢
    split at h
    · rfl
    · split at h <;> simp_all
  | getMut name f =>
    simp only [call] at h ⊢
    cases hi : s.names[name]? with
    | none => rfl
    | some i =>
      simp only [hi] at h ⊢
      have hsame := getMut_failed s.table i.mask i.cap f
      cases hres : s.table.getMut i.mask i.cap f with
      | mk res t' =>
        cases res with
        | ok => simp [hres] at h
        | error e =>
          rw [hres] at hsame
          rw [show t' = s.table from hsame e rfl]
          exact s.become_self
  | revoke name =>
    simp only [call] at h ⊢
    cases hi : s.names[name]? with
    | none => rfl
    | some i =>
      simp only [hi] at h ⊢
      have hsame := revoke_failed s.table i.mask i.cap
      cases hres : s.table.revoke i.mask i.cap with
      | mk res t' =>
        cases res with
        | ok => simp [hres] at h
        | error e =>
          rw [hres] at hsame
          rw [show t' = s.table from hsame e rfl]
          exact s.become_self
  | revokeOwner | revokeAll => cases h

theorem Kept.call (h : Kept n s places) (hn : n ≤ 2 ^ 32) (c : Call τ)
    (hf : (s.call c).2.Fresh) : ∃ places', Kept n (s.call c).2 places' := by
  have hfresh : s.Fresh := fun j => Nat.lt_of_le_of_lt (s.emptied_le_call c j) (hf j)
  cases hc : (s.call c).1 with
  | false => exact ⟨places, by rwa [s.call_failed c hc]⟩
  | true =>
  cases c with
  | insert mask owner v =>
    rcases insert_cases s.table mask owner v with heq | ⟨j, slot, hslot, hempty, heq⟩
    · simp [Holding.call, heq] at hc
    · simp only [Holding.call, heq]
      exact ⟨_, h.filled mask owner v hslot hempty⟩
  | attenuate name target =>
    cases hi : s.names[name]? with
    | none => simp [Holding.call, hi] at hc
    | some i =>
      cases ha : s.table.attenuate i.mask target i.cap with
      | error => simp [Holding.call, hi, ha] at hc
      | ok cap =>
        obtain ⟨rfl, hle⟩ := attenuate_ok ha
        simp only [Holding.call, hi, ha]
        exact ⟨places, h.narrowed (mem_of_getElem? hi) hle⟩
  | delegate name target giver taker =>
    cases hi : s.names[name]? with
    | none => simp [Holding.call, hi] at hc
    | some i =>
      cases ha : s.table.delegate i.mask target i.cap giver taker with
      | error => simp [Holding.call, hi, ha] at hc
      | ok r =>
        obtain ⟨cap, d⟩ := r
        obtain ⟨rfl, hle⟩ := delegate_ok ha
        simp only [Holding.call, hi, ha]
        exact ⟨places, h.narrowed (mem_of_getElem? hi) hle⟩
  | get name =>
    cases hi : s.names[name]? with
    | none => simp [Holding.call, hi] at hc
    | some i =>
      cases hg : s.table.get i.mask i.cap with
      | error => simp [Holding.call, hi, hg] at hc
      | ok v =>
        simp only [Holding.call, hi, hg]
        exact ⟨places, h⟩
  | getMut name f =>
    cases hi : s.names[name]? with
    | none => simp [Holding.call, hi] at hc
    | some i =>
      obtain ⟨p, e, hp, he, hcap, hmask, hlive, hdead⟩ := h.resolve hn hfresh (mem_of_getElem? hi)
      cases hr : e.revoked with
      | true =>
        obtain ⟨slot, hslot, hne⟩ := hdead hr
        simp [Holding.call, hi, getMut_stale hslot hne] at hc
      | false =>
        simp only [Holding.call, hi, getMut_live (hlive hr) hmask]
        rw [← hcap.1, ← hcap.2]
        exact ⟨places, h.mutated f hp he hr⟩
  | revoke name =>
    cases hi : s.names[name]? with
    | none => simp [Holding.call, hi] at hc
    | some i =>
      obtain ⟨p, e, hp, he, hcap, hmask, hlive, hdead⟩ := h.resolve hn hfresh (mem_of_getElem? hi)
      cases hr : e.revoked with
      | true =>
        obtain ⟨slot, hslot, hne⟩ := hdead hr
        simp [Holding.call, hi, revoke_stale hslot hne] at hc
      | false =>
        simp only [Holding.call, hi, revoke_live (hlive hr) hmask] at hf ⊢
        rw [← hcap.1, ← hcap.2] at hf ⊢
        exact ⟨places, h.evicted hp he hr hf⟩
  | revokeOwner owner => exact ⟨places, h.dropped (· == owner) hf⟩
  | revokeAll => exact ⟨places, h.dropped (fun _ => true) hf⟩

theorem run_snoc (s : Holding τ) (calls : List (Call τ)) (c : Call τ) :
    s.run (calls ++ [c]) = ((s.run calls).call c).2 := by
  rw [run, foldl_append]
  rfl

theorem Kept.run (hn : n ≤ 2 ^ 32) (calls : List (Call τ))
    (hf : ((Holding.new n).run calls).Fresh) :
    ∃ places, Kept n ((Holding.new n).run calls) places := by
  induction calls using reverseRecOn with
  | nil => exact ⟨[], .new n⟩
  | append_singleton calls c ih =>
    rw [run_snoc] at hf ⊢
    obtain ⟨places, h⟩ := ih fun j =>
      Nat.lt_of_le_of_lt (emptied_le_call _ c j) (hf j)
    exact h.call hn c hf

/-- Over any run of calls on a table of at most `2^32` slots, none of them
emptied `2^32 - 1` times or more: a name validates exactly while the
resource it was handed out for is not revoked, it then reaches that
resource, and its rights are within those the resource came with;
revoking an owner ends exactly that owner's resources; and a call that
fails changes nothing. -/
theorem names_hold_until_revoked (n : Nat) (hn : n ≤ 2 ^ 32) (calls : List (Call τ))
    (hf : ∀ j, ((Holding.new n).run calls).emptied j < 2 ^ 32 - 1) :
    (∀ i ∈ ((Holding.new n).run calls).names,
      ∃ e, ((Holding.new n).run calls).ledger[i.resource]? = some e
        ∧ (((Holding.new n).run calls).table.validate i.mask i.cap).isOk = !e.revoked
        ∧ (e.revoked = false → ((Holding.new n).run calls).table.get i.mask i.cap = .ok e.value)
        ∧ e.rights.contains i.mask = true
        ∧ ∀ owner, ((((Holding.new n).run calls).table.revokeOwner owner).2.validate
            i.mask i.cap).isOk = (!e.revoked && e.owner != owner))
      ∧ ∀ c, (((Holding.new n).run calls).call c).1 = false →
        (((Holding.new n).run calls).call c).2 = (Holding.new n).run calls := by
  generalize hs : (Holding.new n).run calls = s at hf ⊢
  refine ⟨fun i hi => ?_, fun c hc => s.call_failed c hc⟩
  obtain ⟨places, h⟩ := Kept.run hn calls (hs ▸ hf)
  rw [hs] at h
  obtain ⟨p, e, -, he, -, hmask, hlive, hdead⟩ := h.resolve hn hf hi
  refine ⟨e, he, ?_, fun hr => get_live (hlive hr) hmask, hmask, fun owner => ?_⟩
  · cases hr : e.revoked with
    | false => rw [validate_live (hlive hr) hmask]; rfl
    | true =>
      obtain ⟨slot, hslot, hne⟩ := hdead hr
      rw [validate_stale hslot hne]
      rfl
  have hget : (s.table.revokeOwner owner).2.slots[i.cap.index]?
      = (s.table.slots[i.cap.index]?).map fun slot =>
        if slot.resource.isSome && slot.owner == owner then slot.clear else slot :=
    getElem?_map ..
  cases hr : e.revoked with
  | false =>
    rw [hlive hr, Option.map_some] at hget
    split at hget
    case isTrue ho =>
      rw [validate_empty hget rfl]
      simp only [Option.isSome_some, Bool.true_and] at ho
      simp [bne, ho, Except.isOk, Except.toBool]
    case isFalse ho =>
      rw [validate_live hget hmask]
      simp only [Option.isSome_some, Bool.true_and] at ho
      simp [bne, ho, Except.isOk, Except.toBool]
  | true =>
    obtain ⟨slot, hslot, hne⟩ := hdead hr
    rw [hslot, Option.map_some] at hget
    split at hget
    · rw [validate_empty hget rfl]
      rfl
    · rw [validate_stale hget hne]
      rfl

/-- One slot, its resource revoked and the slot used again: the first name
stays dead and the second is live. -/
theorem names_hold_until_revoked_reused :
    (∀ j, ((Holding.new 1).run
        [.insert .READ 0 'a', .revoke 0, .insert .READ 0 'b']).emptied j < 2 ^ 32 - 1)
      ∧ ∀ i ∈ ((Holding.new 1).run
          [.insert .READ 0 'a', .revoke 0, .insert .READ 0 'b']).names,
        ∃ e, ((Holding.new 1).run
            [.insert .READ 0 'a', .revoke 0, .insert .READ 0 'b']).ledger[i.resource]? = some e
          ∧ (((Holding.new 1).run [.insert .READ 0 'a', .revoke 0, .insert .READ 0 'b']
              ).table.validate i.mask i.cap).isOk = !e.revoked := by
  have hf : ∀ j, ((Holding.new 1).run
      [.insert .READ 0 'a', .revoke 0, .insert .READ 0 'b']).emptied j < 2 ^ 32 - 1 := by
    intro j
    cases j with
    | zero => decide
    | succ j => exact le_rfl.trans_lt (by decide : 0 < 2 ^ 32 - 1)
  refine ⟨hf, fun i hi => ?_⟩
  obtain ⟨e, he, hok, -⟩ := (names_hold_until_revoked 1 (by decide) _ hf).1 i hi
  exact ⟨e, he, hok⟩

theorem run_inserts (n : Nat) (k : Nat) (hk : k ≤ n) :
    ((new n).run ((List.range k).map (.insert .READ 0))).table.slots
        = (List.range k).map (fun v => ⟨1, 0, .READ, some v⟩) ++ List.replicate (n - k) .empty
      ∧ ((new n).run ((List.range k).map (.insert .READ 0))).names
        = (List.range k).map (fun v => ⟨.new v 1, .READ, v⟩)
      ∧ ((new n).run ((List.range k).map (.insert .READ 0))).ledger
        = (List.range k).map (fun v => ⟨0, .READ, v, false⟩) := by
  induction k with
  | zero => simp [Holding.run, Holding.new, CapabilityTable.new]
  | succ k ih =>
    obtain ⟨hslots, hnames, hledger⟩ := ih (by omega)
    rw [show (List.range (k + 1)).map (Call.insert .READ 0)
      = (List.range k).map (.insert .READ 0) ++ [.insert .READ 0 k] by
        rw [range_succ, map_append]; rfl, run_snoc]
    generalize (new n).run ((List.range k).map (.insert .READ 0)) = s at *
    -- the first empty slot is the one after the `k` filled
    have hinsert : s.table.insert .READ 0 k = (.ok (.new k 1),
        ⟨(List.range (k + 1)).map (fun v => ⟨1, 0, .READ, some v⟩)
          ++ List.replicate (n - (k + 1)) .empty⟩) := by
      have hrest : n - k = n - (k + 1) + 1 := by omega
      have hfull : List.findIdx? (fun slot : Slot Nat => slot.resource.isNone)
          ((List.range k).map fun v => ⟨1, 0, .READ, some v⟩) = none := by
        rw [List.findIdx?_eq_none_iff]
        intro slot hslot
        obtain ⟨v, -, rfl⟩ := mem_map.mp hslot
        rfl
      rw [CapabilityTable.insert, hslots, hrest, replicate_succ, List.findIdx?_append, hfull]
      simp [List.findIdx?_cons, Slot.empty, range_succ]
    simp [call, hinsert, become, hnames, hledger, range_succ]

/-- A table of `2^32 + 1` slots with all of them filled: the last name
reaches the first resource. -/
theorem wide_table_names_another_resource :
    ∃ i e, ((Holding.new (2 ^ 32 + 1)).run
        ((List.range (2 ^ 32 + 1)).map (.insert .READ 0))).names[2 ^ 32]? = some i
      ∧ ((Holding.new (2 ^ 32 + 1)).run
        ((List.range (2 ^ 32 + 1)).map (.insert .READ 0))).ledger[i.resource]? = some e
      ∧ e.value = 2 ^ 32 ∧ e.revoked = false
      ∧ ((Holding.new (2 ^ 32 + 1)).run
        ((List.range (2 ^ 32 + 1)).map (.insert .READ 0))).table.get i.mask i.cap = .ok 0 := by
  obtain ⟨hslots, hnames, hledger⟩ := run_inserts (2 ^ 32 + 1) (2 ^ 32 + 1) le_rfl
  generalize (Holding.new (2 ^ 32 + 1)).run
    ((List.range (2 ^ 32 + 1)).map (.insert .READ 0)) = s at *
  refine ⟨⟨.new (2 ^ 32) 1, .READ, 2 ^ 32⟩, ⟨0, .READ, 2 ^ 32, false⟩, ?_, ?_, rfl, rfl, ?_⟩
  · rw [hnames, getElem?_map, getElem?_range (by decide)]
    rfl
  · rw [hledger, getElem?_map, getElem?_range (by decide)]
    rfl
  have hindex : (Capability.new (2 ^ 32) 1).index = 0 := by decide
  have hslot : s.table.slots[(Capability.new (2 ^ 32) 1).index]?
      = some ⟨(Capability.new (2 ^ 32) 1).generation, 0, .READ, some 0⟩ := by
    rw [hindex, hslots, getElem?_append_left (by simp), getElem?_map, getElem?_range (by decide)]
    rfl
  exact get_live hslot (by decide)

end Holding

end Molt.Core
