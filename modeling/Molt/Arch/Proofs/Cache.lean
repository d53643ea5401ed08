/-
Where the extents given to the window cache are.

One inversion of a call (`Stepped`) gives the counts, the keys and the ledger:
every extent given is cached, handed back or dropped by a refused insert. A run
drops nothing exactly if all of its inserts pass the four tests (`run_dropped`).
-/
import Molt.Arch.Cache

namespace Molt.Arch.Cache

open List

open Windows

section

variable {c : Windows} {key : Nat × Nat} {w : Window}

theorem find_cases (c : Windows) (key : Nat × Nat) :
    (c.find key = none ∧ ∀ w ∈ c.windows, w.key ≠ key)
      ∨ ∃ before w after, c.windows = before ++ w :: after ∧ w.key = key
        ∧ c.find key = some (before.length, w) := by
  unfold find
  cases hfind : c.windows.findIdx? fun w => w.key = key with
  | none =>
    refine .inl ⟨rfl, fun w hw => ?_⟩
    simpa using findIdx?_eq_none_iff.mp hfind w hw
  | some i =>
    obtain ⟨hlt, hkey, -⟩ := findIdx?_eq_some_iff_getElem.mp hfind
    refine .inr ⟨c.windows.take i, c.windows[i], c.windows.drop (i + 1), ?_, ?_, ?_⟩
    · rw [getElem_cons_drop, take_append_drop]
    · simpa using hkey
    · rw [Option.bind_some, getElem?_eq_getElem hlt, length_take, Nat.min_eq_left hlt.le]
      rfl

theorem swapRemove_perm (before after : List Window) (w : Window) :
    swapRemove (before ++ w :: after) before.length ~ before ++ after := by
  unfold swapRemove
  rcases eq_nil_or_concat after with rfl | ⟨rest, last, rfl⟩
  · simp
  · rw [concat_eq_append, ← cons_append, ← append_assoc, getLast?_concat]
    dsimp only
    rw [append_assoc, cons_append, set_append_right _ _ le_rfl, Nat.sub_self, set_cons_zero,
      ← cons_append, ← append_assoc, dropLast_concat]
    exact .append_left _ (perm_append_singleton last rest).symm

inductive Stepped (c : Windows) (key : Nat × Nat) : Windows → Prop where
  | same : Stepped c key c
  | refuse (d : Deposit) : Stepped c key
      { c with given := c.given ++ [d], dropped := c.dropped ++ [d] }
  | insert (d : Deposit) : d.key = key → (∀ w ∈ c.windows, w.key ≠ key) → Stepped c key
      { c with given := c.given ++ [d], windows := c.windows ++ [⟨d, 1, 0, 0⟩] }
  | count (before after : List Window) (w : Window) (holders holds releases : Nat) :
      c.windows = before ++ w :: after → w.key = key → holders < 2 ^ 32 →
      holders + releases + w.holds = w.holders + w.releases + holds → Stepped c key
        { c with windows := before ++ ⟨w.toDeposit, holders, holds, releases⟩ :: after }
  | evict (before after windows : List Window) (w : Window) :
      c.windows = before ++ w :: after → w.key = key → windows ~ before ++ after →
      Stepped c key { c with windows, back := c.back ++ [w.toDeposit] }

theorem stepped (c : Windows) (hbound : ∀ w ∈ c.windows, w.holders < 2 ^ 32) (call : Call) :
    Stepped c call.key (c.step call) := by
  rcases find_cases c call.key with ⟨hfind, habsent⟩ | ⟨before, w, after, heq, hkey, hfind⟩
  · cases call with
    | insert d =>
      unfold Windows.step Windows.insert
      dsimp only
      cases c.refusal d with
      | some e => exact .refuse d
      | none => exact .insert d rfl habsent
    | lookup key => exact .same
    | hold key | release key | evict key =>
      simp only [Windows.step, hold, release, evict, show c.find key = none from hfind]
      exact .same
  · have hlt := hbound w (heq ▸ mem_append_right _ mem_cons_self)
    have hset : ∀ x, c.windows.set before.length x = before ++ x :: after := by
      intro x
      rw [heq, set_append_right _ _ le_rfl, Nat.sub_self, set_cons_zero]
    cases call with
    | insert d =>
      have hrefusal : c.refusal d ≠ none := by
        unfold refusal
        rw [show c.find d.key = _ from hfind]
        split_ifs <;> simp_all
      obtain ⟨e, he⟩ := Option.ne_none_iff_exists'.mp hrefusal
      simp only [Windows.step, Windows.insert, he]
      exact .refuse d
    | lookup key => exact .same
    | hold key =>
      simp only [Windows.step, hold, show c.find key = _ from hfind, hset]
      split
      · exact .count before after w _ _ _ heq hkey ‹_› (by omega)
      · exact .same
    | release key =>
      simp only [Windows.step, release, show c.find key = _ from hfind, hset]
      split
      · exact .same
      · exact .count before after w _ _ _ heq hkey (by omega) (by omega)
    | evict key =>
      simp only [Windows.step, evict, show c.find key = _ from hfind]
      split
      · exact .same
      · exact .evict before after _ w heq hkey (heq ▸ swapRemove_perm before after w)

/-- One window a key, whose holders are its holds less its releases; and every
extent given is cached, handed back or dropped. -/
structure Kept (c : Windows) : Prop where
  keys : (c.windows.map fun w => w.key).Nodup
  counts : ∀ w ∈ c.windows, w.holders < 2 ^ 32 ∧ w.holders + w.releases = 1 + w.holds
  ledger : c.given ~ c.cached ++ c.back ++ c.dropped

theorem Kept.step (h : Kept c) (call : Call) : Kept (c.step call) := by
  have hstep := stepped c (fun w hw => (h.counts w hw).1) call
  generalize c.step call = c', call.key = key at hstep
  obtain ⟨hkeys, hcounts, hledger⟩ := h
  cases hstep with
  | same => exact ⟨hkeys, hcounts, hledger⟩
  | refuse d =>
    refine ⟨hkeys, hcounts, ?_⟩
    show c.given ++ [d] ~ c.cached ++ c.back ++ (c.dropped ++ [d])
    rw [← append_assoc]
    exact hledger.append_right [d]
  | insert d hkey habsent =>
    refine ⟨?_, ?_, ?_⟩
    · rw [map_append, nodup_append]
      refine ⟨hkeys, nodup_singleton _, ?_⟩
      simpa [hkey] using habsent
    · intro w hw
      rcases mem_append.mp hw with hw | hw
      · exact hcounts w hw
      · cases mem_singleton.mp hw
        exact ⟨Nat.one_lt_two_pow (by decide), rfl⟩
    · refine (hledger.append_right [d]).trans ?_
      show _ ~ (c.windows ++ [_]).map Window.toDeposit ++ c.back ++ c.dropped
      simp only [map_append, append_assoc]
      exact .append_left _ (by rw [← append_assoc]; exact perm_append_comm)
  | count before after w holders holds releases heq hkey hlt hsum =>
    refine ⟨?_, ?_, ?_⟩
    · simpa [heq] using hkeys
    · intro x hx
      have hw := (hcounts w (heq ▸ mem_append_right _ mem_cons_self)).2
      rcases mem_append.mp hx with hx | hx
      · exact hcounts x (heq ▸ mem_append_left _ hx)
      rcases mem_cons.mp hx with rfl | hx
      · exact ⟨hlt, by dsimp only; omega⟩
      · exact hcounts x (heq ▸ mem_append_right _ (mem_cons_of_mem _ hx))
    · simpa [cached, heq] using hledger
  | evict before after windows w heq hkey hperm =>
    have hall : c.windows ~ w :: windows := by
      rw [heq]
      exact perm_middle.trans (hperm.symm.cons w)
    refine ⟨?_, ?_, ?_⟩
    · exact (nodup_cons.mp ((hall.map _).nodup_iff.mp hkeys)).2
    · exact fun x hx => hcounts x (hall.mem_iff.mpr (mem_cons_of_mem _ hx))
    · refine hledger.trans (.append_right _ ?_)
      refine ((hall.map Window.toDeposit).append_right _).trans ?_
      show w.toDeposit :: _ ~ windows.map Window.toDeposit ++ (c.back ++ [w.toDeposit])
      rw [← append_assoc]
      exact (perm_append_singleton _ _).symm

theorem Kept.run (h : Kept c) (calls : List Call) : Kept (c.run calls) := by
  induction calls generalizing c with
  | nil => exact h
  | cons call calls ih => exact ih (h.step call)

theorem Stepped.others {c' : Windows} (h : Stepped c key c') (hne : w.key ≠ key) :
    w ∈ c'.windows ↔ w ∈ c.windows := by
  have hself : ∀ x : Window, x.key = key → w ≠ x := fun x hx heq => hne (heq ▸ hx)
  cases h with
  | same | refuse => rfl
  | insert d hkey => simp [hself ⟨d, 1, 0, 0⟩ hkey]
  | count before after x holders holds releases heq hkey =>
    simp [heq, hself x hkey, hself ⟨x.toDeposit, holders, holds, releases⟩ hkey]
  | evict before after windows x heq hkey hperm => simp [heq, hself x hkey, hperm.mem_iff]

theorem Kept.evict (h : Kept c) (extent : Extent) (frames : Span) :
    (c.evict key).1 = .ok (extent, frames) ↔ ∃ w ∈ c.windows, w.key = key ∧ w.holders = 0
      ∧ w.extent = extent ∧ w.frames = frames := by
  unfold Windows.evict
  rcases find_cases c key with ⟨hfind, habsent⟩ | ⟨before, w, after, heq, hkey, hfind⟩
  · rw [hfind]
    constructor
    · intro hok
      cases hok
    · rintro ⟨w, hw, hkey, -⟩
      exact absurd hkey (habsent w hw)
  · have hmem : w ∈ c.windows := heq ▸ mem_append_right _ mem_cons_self
    rw [hfind]
    constructor
    · intro hok
      dsimp only at hok
      split at hok
      · cases hok
      · cases hok
        exact ⟨w, hmem, hkey, not_not.mp ‹_›, rfl, rfl⟩
    · rintro ⟨x, hx, hkey', hzero, rfl, rfl⟩
      obtain rfl := inj_on_of_nodup_map h.keys hx hmem (hkey'.trans hkey.symm)
      simp [hzero]

end

-- == what `insert` asks

/-- The four tests of `insert`: the offset and the backing fit the extent, the
key is new, and a slot is left. -/
structure Takes (c : Windows) (d : Deposit) : Prop where
  offset : d.offset % d.extent.leaf.granule = 0
  backing : d.extent.region.bytes ≤ d.frames.bytes ∧ d.frames.start % d.extent.leaf.granule = 0
  absent : ∀ w ∈ c.windows, w.key ≠ d.key
  room : c.windows.length ≠ c.slots

/-- Every insert of a run passes the tests where it is made. -/
def Meets (c : Windows) : List Call → Prop
  | [] => True
  | call :: calls => (∀ d, call = .insert d → Takes c d) ∧ Meets (c.step call) calls

theorem refusal_eq_none_iff (c : Windows) (d : Deposit) : c.refusal d = none ↔ Takes c d := by
  have habsent : (c.find d.key).isSome = false ↔ ∀ w ∈ c.windows, w.key ≠ d.key := by
    rcases find_cases c d.key with ⟨hfind, hno⟩ | ⟨before, w, after, heq, hkey, hfind⟩
    · exact iff_of_true (by rw [hfind]; rfl) hno
    · refine iff_of_false (by rw [hfind]; simp) fun hno => ?_
      exact hno w (heq ▸ mem_append_right _ mem_cons_self) hkey
  unfold refusal
  constructor
  · intro h
    split_ifs at h with hoffset hbacking hpresent hfull
    exact ⟨not_not.mp hoffset, by omega, habsent.mp (by simpa using hpresent), hfull⟩
  · rintro ⟨hoffset, hbacking, hno, hroom⟩
    rw [if_neg (not_not.mpr hoffset), if_neg (by omega), if_neg (by simp [habsent.mpr hno]),
      if_neg hroom]

/-- A call drops an extent exactly if it is an insert that fails a test. -/
theorem step_dropped (c : Windows) (call : Call) :
    (∀ d, call = .insert d → Takes c d) ∧ (c.step call).dropped = c.dropped
      ∨ ∃ d, call = .insert d ∧ ¬ Takes c d ∧ (c.step call).dropped = c.dropped ++ [d] := by
  cases call with
  | insert d =>
    have hiff := refusal_eq_none_iff c d
    unfold Windows.step Windows.insert
    dsimp only
    cases hrefusal : c.refusal d with
    | none =>
      refine .inl ⟨fun d' hd => ?_, rfl⟩
      cases hd
      exact hiff.mp hrefusal
    | some e => exact .inr ⟨d, rfl, fun htakes => by simp [hiff.mpr htakes] at hrefusal, rfl⟩
  | lookup key => exact .inl ⟨fun d hd => (by cases hd), rfl⟩
  | hold key | release key | evict key =>
    refine .inl ⟨fun d hd => (by cases hd), ?_⟩
    simp only [Windows.step, hold, release, evict]
    repeat' split
    all_goals rfl

theorem run_dropped (c : Windows) (calls : List Call) :
    (c.run calls).dropped = [] ↔ c.dropped = [] ∧ Meets c calls := by
  induction calls generalizing c with
  | nil => simp [run, Meets]
  | cons call calls ih =>
    refine (ih (c.step call)).trans ?_
    rcases step_dropped c call with ⟨htakes, heq⟩ | ⟨d, rfl, hfails, heq⟩
    · simp only [Meets, heq]
      exact and_congr_right fun _ => (and_iff_right htakes).symm
    · refine iff_of_false (by simp [heq]) ?_
      rintro ⟨-, htakes, -⟩
      exact hfails (htakes d rfl)

/-- Every extent given is cached or handed back, once, exactly if every insert
passes the tests. Keys are not shared, holders do not wrap, `evict` succeeds on
the windows without holders and returns what they were inserted with, and a call
leaves the windows of other keys alone. -/
theorem cache_keeps_the_extents_it_accepts (slots : Nat) (calls : List Call) :
    let c := (overSlots slots).run calls
    (c.given ~ c.cached ++ c.back ↔ Meets (overSlots slots) calls)
      ∧ (c.windows.map fun w => w.key).Nodup
      ∧ (∀ w ∈ c.windows, w.holders < 2 ^ 32 ∧ w.holders + w.releases = 1 + w.holds)
      ∧ (∀ key extent frames, (c.evict key).1 = .ok (extent, frames) ↔ ∃ w ∈ c.windows,
        w.key = key ∧ w.holders = 0 ∧ w.extent = extent ∧ w.frames = frames)
      ∧ ∀ call w, w.key ≠ call.key → (w ∈ (c.step call).windows ↔ w ∈ c.windows) := by
  have hover : Kept (overSlots slots) := ⟨nodup_nil, fun w hw => (by cases hw), .nil⟩
  intro c
  have h : Kept c := hover.run calls
  have hdropped : c.dropped = [] ↔ Meets (overSlots slots) calls :=
    (run_dropped _ calls).trans (and_iff_right rfl)
  refine ⟨hdropped.symm.trans ⟨?_, ?_⟩ |>.symm, h.keys, h.counts, fun _ => h.evict, ?_⟩
  · intro hnone
    have hledger := h.ledger
    rwa [hnone, append_nil] at hledger
  · intro hall
    simpa using (hall.symm.trans h.ledger).length_eq
  · intro call w hne
    exact (stepped c (fun w hw => (h.counts w hw).1) call).others hne

def oddPage : Deposit :=
  ⟨0, 1, ⟨⟨0x1000, 0x2000⟩, .page⟩, ⟨⟨0x1000, 0x2000⟩, by decide, by decide, by decide⟩⟩

/-- It is refused, and neither cached nor handed back. -/
theorem refused_extent_is_lost : ((overSlots 1).insert oddPage).1 = .error .misaligned
    ∧ ((overSlots 1).run [.insert oddPage]).given = [oddPage]
    ∧ ((overSlots 1).run [.insert oddPage]).cached = []
    ∧ ((overSlots 1).run [.insert oddPage]).back = [] := by
  decide

end Molt.Arch.Cache
