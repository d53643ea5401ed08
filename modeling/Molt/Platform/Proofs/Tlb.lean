/-
Whose entries a domain translates through.

With tag bits, an entry's tag says which root it was loaded from as long as
no tag is given out twice; `Tagged` is that invariant, and `Meets` what keeps
it: the tags come from one allocator that has not wrapped. Without tag bits
the fence of the gateway does it, as long as the `satp` it writes is that of
the domain entered.
-/
import Molt.Platform.Tlb

namespace Molt.Platform

open Hart

/-- A domain that runs finds only its own entries under its tag, and a tag is
shared only on a hart that has none. -/
structure Clean (h : Hart) : Prop where
  entries : ∀ (d : Nat) tag, h.phase = .running d → h.views[d]? = some tag →
    ∀ e ∈ h.tlb, e.tag = tag → e.source = .view d
  reuse : ∀ (d d' : Nat) tag, h.views[d]? = some tag → h.views[d']? = some tag →
    d = d' ∨ h.width = 0

/-- What is asked of a step: a tag is not taken from a new allocator once one
was taken, nor from one that has handed them all out; without tag bits, a
domain that has started is entered only while `satp` is still its own. -/
def Meets (h : Hart) : Step → Prop
  | .create fresh _ =>
    h.width = 0 ∨ (fresh = true → h.asids = .new h.width) ∧ h.asids.next ≤ h.asids.capacity
  | .enter d _ _ => h.width = 0 → h.started d = true → h.domainSatp.root = .view d
  | _ => True

def MeetsAll (h : Hart) : List Step → Prop
  | [] => True
  | s :: steps => Meets h s ∧ MeetsAll (h.step s) steps

-- == with tags

def tagOf (views : List Nat) : Root → Option Nat
  | .kernel => some 0
  | .view d => views[d]?

structure Tagged (h : Hart) : Prop where
  width : h.asids.width = (Asids.new h.width).width
  next : 1 ≤ h.asids.next
  given : ∀ (d : Nat) tag, h.views[d]? = some tag → 1 ≤ tag ∧ tag < h.asids.next
  once : ∀ (d d' : Nat) tag, h.views[d]? = some tag → h.views[d']? = some tag → d = d'
  gateway : tagOf h.views h.domainSatp.root = some h.domainSatp.tag
  active : tagOf h.views h.satp.root = some h.satp.tag
  cached : ∀ e ∈ h.tlb, tagOf h.views e.source = some e.tag

section Tagged

variable {h : Hart}

theorem tagOf_append {views : List Nat} {root : Root} {tag : Nat} (new : Nat)
    (h : tagOf views root = some tag) : tagOf (views ++ [new]) root = some tag := by
  cases root with
  | kernel => exact h
  | view d =>
    have hlt : d < views.length := (List.getElem?_eq_some_iff.mp h).1
    show (views ++ [new])[d]? = some tag
    rw [List.getElem?_append_left hlt]
    exact h

theorem Tagged.source (h' : Tagged h) {d tag : Nat} (hd : h.views[d]? = some tag) {e : Cached}
    (he : e ∈ h.tlb) (htag : e.tag = tag) : e.source = .view d := by
  have hsource := h'.cached e he
  rw [htag] at hsource
  cases hroot : e.source with
  | kernel =>
    rw [hroot] at hsource
    have hzero : 0 = tag := Option.some.inj hsource
    have hpos := (h'.given d tag hd).1
    omega
  | view k =>
    rw [hroot] at hsource
    rw [h'.once k d tag hsource hd]

theorem Tagged.create (h' : Tagged h) (hwidth : h.width ≠ 0) {fresh frame : Bool}
    (hmeets : Meets h (.create fresh frame)) : Tagged (h.create fresh frame) := by
  obtain ⟨hfresh, hroom⟩ := hmeets.resolve_left hwidth
  have hallocator : (if fresh then Asids.new h.width else h.asids) = h.asids := by
    cases fresh with
    | false => rfl
    | true => exact (hfresh rfl).symm
  have hassign : h.asids.assign
      = (⟨⟨h.asids.next, h.asids.generation⟩, .nothing⟩,
        { h.asids with next := h.asids.next + 1 }) := if_neg (Nat.not_lt.mpr hroom)
  unfold Hart.create
  rw [hallocator, hassign]
  dsimp only
  have hnext := h'.next
  split
  · -- the views are those there were and the new one
    have hview : ∀ (d : Nat) tag, (h.views ++ [h.asids.next])[d]? = some tag →
        h.views[d]? = some tag ∨ d = h.views.length ∧ tag = h.asids.next := by
      intro d tag hd
      by_cases hlt : d < h.views.length
      · rw [List.getElem?_append_left hlt] at hd
        exact .inl hd
      · have hlt' := (List.getElem?_eq_some_iff.mp hd).1
        rw [List.length_append, List.length_singleton] at hlt'
        have heq : d = h.views.length := by omega
        rw [heq, List.getElem?_concat_length] at hd
        exact .inr ⟨heq, (Option.some.inj hd).symm⟩
    refine ⟨h'.width, ?_, ?_, ?_, tagOf_append _ h'.gateway, tagOf_append _ h'.active,
      fun e he => tagOf_append _ (h'.cached e he)⟩
    · show 1 ≤ h.asids.next + 1
      omega
    · intro d tag hd
      show 1 ≤ tag ∧ tag < h.asids.next + 1
      rcases hview d tag hd with hd | ⟨-, rfl⟩
      · have := h'.given d tag hd
        omega
      · omega
    · intro d d' tag hd hd'
      rcases hview d tag hd with hd | ⟨hlen, htag⟩
      · rcases hview d' tag hd' with hd' | ⟨-, htag⟩
        · exact h'.once d d' tag hd hd'
        · have := (h'.given d tag hd).2
          omega
      · rcases hview d' tag hd' with hd' | ⟨hlen', -⟩
        · have := (h'.given d' tag hd').2
          omega
        · rw [hlen, hlen']
  · refine { h' with next := ?_, given := ?_ }
    · show 1 ≤ h.asids.next + 1
      omega
    · intro d tag hd
      have := h'.given d tag hd
      show 1 ≤ tag ∧ tag < h.asids.next + 1
      omega

theorem Tagged.fenced (h' : Tagged h) (phase : Phase) : Tagged (h.fenced phase) := by
  refine { h' with cached := ?_ }
  intro e he
  have he : e ∈ if h.flush = true then [] else h.tlb := he
  split at he
  · cases he
  · exact h'.cached e he

theorem Tagged.step (h' : Tagged h) (hwidth : h.width ≠ 0) {s : Step} (hmeets : Meets h s) :
    Tagged (h.step s) := by
  cases s with
  | create fresh frame =>
    rw [Hart.step]
    split
    · exact h'.create hwidth hmeets
    · exact h'
  | grant view address =>
    rw [Hart.step]
    split
    · exact { h' with }
    · exact h'
  | enter d gateway refused =>
    rw [Hart.step]
    split
    · rename_i tag _ hview
      unfold enter
      split
      · exact { h' with active := h'.gateway }
      · split
        · exact { h' with }
        · exact { h' with gateway := hview, active := hview }
    · exact h'
  | fence =>
    rw [Hart.step]
    split
    · exact h'.fenced _
    · exact h'.fenced _
    · exact h'
  | leave =>
    rw [Hart.step]
    split
    · exact { h' with active := rfl }
    · exact h'
  | load a =>
    rw [Hart.step]
    split
    · refine { h' with cached := ?_ }
      intro e he
      rcases List.mem_cons.mp he with rfl | he
      · exact h'.active
      · exact h'.cached e he
    · exact h'

end Tagged

-- == without tags

/-- Between the switch to a domain and the switch back, `satp` is its own, and
past the fence so are all entries. -/
structure Flushed (h : Hart) : Prop where
  tagless : h.asids.width = 0
  flush : ∀ d, h.started d = true → h.flush = true
  entering : ∀ d, h.phase = .entering d → h.satp.root = .view d ∧ h.started d = true
  running : ∀ d, h.phase = .running d → h.satp.root = .view d ∧ ∀ e ∈ h.tlb, e.source = .view d

section Flushed

variable {h : Hart}

theorem Flushed.kernel {k : Hart} (htagless : k.asids.width = 0)
    (hflush : ∀ d, k.started d = true → k.flush = true)
    (hphase : ∀ d, k.phase ≠ .entering d ∧ k.phase ≠ .running d) : Flushed k :=
  ⟨htagless, hflush, fun d hd => absurd hd (hphase d).1, fun d hd => absurd hd (hphase d).2⟩

theorem assign_width (a : Asids) : a.assign.2.width = a.width := by
  unfold Asids.assign
  split <;> rfl

section

variable (h' : Flushed h) (hwidth : h.width = 0)
include h' hwidth

theorem Flushed.create (hphase : h.phase = .kernel)
    (fresh frame : Bool) : Flushed (h.create fresh frame) := by
  have htagless : (if fresh then Asids.new h.width else h.asids).assign.2.width = 0 := by
    rw [assign_width]
    cases fresh with
    | false => exact h'.tagless
    | true =>
      rw [hwidth]
      rfl
  have hk : ∀ d, h.phase ≠ .entering d ∧ h.phase ≠ .running d := by
    intro d
    rw [hphase]
    exact ⟨nofun, nofun⟩
  unfold Hart.create
  dsimp only
  split
  · exact .kernel htagless h'.flush hk
  · exact .kernel htagless h'.flush hk

theorem Flushed.enter {d tag : Nat} {gateway : List Nat}
    {refused : Bool} (hmeets : Meets h (.enter d gateway refused)) :
    Flushed (h.enter d tag gateway refused) := by
  unfold Hart.enter
  split
  · rename_i hon
    refine ⟨h'.tagless, h'.flush, ?_, ?_⟩
    · intro k hk
      cases hk
      exact ⟨hmeets hwidth hon, hon⟩
    · intro k hk
      cases hk
  · split
    · exact { h' with }
    · refine ⟨h'.tagless, fun _ _ => decide_eq_true hwidth, ?_, ?_⟩
      · intro k hk
        cases hk
        exact ⟨rfl, if_pos rfl⟩
      · intro k hk
        cases hk

theorem Flushed.step {s : Step} (hmeets : Meets h s) : Flushed (h.step s) := by
  cases s with
  | create fresh frame =>
    by_cases hphase : h.phase = .kernel
    · rw [Hart.step, if_pos hphase]
      exact h'.create hwidth hphase fresh frame
    · rw [Hart.step, if_neg hphase]
      exact h'
  | grant view address =>
    rw [Hart.step]
    split
    · exact { h' with }
    · exact h'
  | enter d gateway refused =>
    rw [Hart.step]
    split
    · exact h'.enter hwidth hmeets
    · exact h'
  | fence =>
    rw [Hart.step]
    split
    · rename_i d hphase
      obtain ⟨hroot, hon⟩ := h'.entering d hphase
      refine ⟨h'.tagless, h'.flush, ?_, ?_⟩
      · intro k hk
        cases hk
      · intro k hk
        cases hk
        refine ⟨hroot, ?_⟩
        intro e he
        have he : e ∈ if h.flush = true then [] else h.tlb := he
        rw [if_pos (h'.flush d hon)] at he
        cases he
    · exact .kernel h'.tagless h'.flush fun d => ⟨nofun, nofun⟩
    · exact h'
  | leave =>
    rw [Hart.step]
    split
    · exact .kernel h'.tagless h'.flush fun d => ⟨nofun, nofun⟩
    · exact h'
  | load a =>
    by_cases hmap : h.maps h.satp.root a = true
    · rw [Hart.step, if_pos hmap]
      refine ⟨h'.tagless, h'.flush, h'.entering, ?_⟩
      intro d hd
      obtain ⟨hroot, hall⟩ := h'.running d hd
      refine ⟨hroot, ?_⟩
      intro e he
      rcases List.mem_cons.mp he with rfl | he
      · exact hroot
      · exact hall e he
    · rw [Hart.step, if_neg hmap]
      exact h'

end

end Flushed

-- == any history

theorem step_width (h : Hart) (s : Step) : (h.step s).width = h.width := by
  cases s with
  | create fresh frame =>
    unfold step create
    dsimp only
    split
    · split <;> rfl
    · rfl
  | grant | fence =>
    unfold step
    dsimp only
    split <;> rfl
  | enter d gateway refused =>
    unfold step enter
    dsimp only
    split
    · split
      · rfl
      · split <;> rfl
    · rfl
  | leave | load =>
    unfold step
    dsimp only
    split <;> rfl

theorem run_keeps {P : Hart → Prop} (width : Nat)
    (hstep : ∀ h s, h.width = width → P h → Meets h s → P (h.step s)) {h : Hart}
    (hw : h.width = width) (hp : P h) {steps : List Step} (hmeets : MeetsAll h steps) :
    P (h.run steps) ∧ (h.run steps).width = width := by
  induction steps generalizing h with
  | nil => exact ⟨hp, hw⟩
  | cons s steps ih =>
    exact ih ((step_width h s).trans hw) (hstep h s hw hp hmeets.1) hmeets.2

/-- No domain translates through another view's entry, as long as no tag is
given out twice, or on a hart without tags the gateway holds the right root. -/
theorem domain_sees_its_own_entries (width : Nat) (maps : Nat → Bool) (steps : List Step)
    (hmeets : MeetsAll (.new width maps) steps) : Clean ((Hart.new width maps).run steps) := by
  by_cases hwidth : width = 0
  · have hinit : Flushed (Hart.new width maps) := by
      refine .kernel ?_ (fun d hd => by cases hd) fun d => ⟨nofun, nofun⟩
      rw [hwidth]
      rfl
    obtain ⟨h, hw⟩ := run_keeps (P := Flushed) width
      (fun h s hw hp hm => hp.step (hw.trans hwidth) hm) rfl hinit hmeets
    refine ⟨?_, fun d d' tag _ _ => .inr (hw.trans hwidth)⟩
    intro d tag hphase _ e he _
    exact (h.running d hphase).2 e he
  · have hinit : Tagged (Hart.new width maps) :=
      ⟨rfl, (Nat.le_refl _), nofun, nofun, rfl, rfl, nofun⟩
    obtain ⟨h, -⟩ := run_keeps (P := Tagged) width
      (fun h s hw hp hm => hp.step (fun h0 => hwidth (hw.symm.trans h0)) hm) rfl hinit hmeets
    refine ⟨?_, fun d d' tag hd hd' => .inl (h.once d d' tag hd hd')⟩
    intro d tag _ hd e he htag
    exact h.source hd he htag

/-- One domain runs and loads an entry, then another is created and runs. -/
def twoDomains (fresh : Bool) : List Step :=
  [.create false true, .grant 0 7, .enter 0 [] false, .fence, .load 7, .leave, .fence,
    .create fresh true, .enter 1 [] false, .fence]

theorem domain_sees_its_own_entries_two :
    MeetsAll (.new 2 fun _ => true) (twoDomains false)
      ∧ Clean ((Hart.new 2 fun _ => true).run (twoDomains false)) := by
  have hmeets : MeetsAll (.new 2 fun _ => true) (twoDomains false) := by
    refine ⟨.inr ⟨nofun, by decide⟩, trivial, ?_, trivial, trivial, trivial, trivial,
      .inr ⟨nofun, by decide⟩, ?_, trivial, trivial⟩
    · intro h
      cases h
    · intro h
      cases h
  exact ⟨hmeets, domain_sees_its_own_entries 2 _ _ hmeets⟩

/-- With one tag bit the second domain gets the first one's tag, and nobody
flushes: it runs with the first one's entry. -/
theorem wrapped_tag_finds_anothers_entry :
    ¬ Clean ((Hart.new 1 fun _ => true).run (twoDomains false)) := by
  intro h
  have hbad := h.entries 1 1 (by decide) (by decide) ⟨1, 7, .view 0⟩ (by decide) rfl
  exact absurd hbad (by decide)

end Molt.Platform
