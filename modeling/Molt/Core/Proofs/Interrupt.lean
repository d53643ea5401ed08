/-
What an interrupt line reports, and whom it wakes.

# Three layers

`Account` is about the counters: what was reported to each binding is what
lies between its baseline and its last report, and the bindings follow each
other. `Exclusive` is about the waker cell: its state says who may touch the
waker. `Waiting` is about the last poll, on the two below: until its waker is
woken, the waker is in the cell or in the hands of a core that will wake it,
and if the count has moved since the poll looked, such a core is under way.

# Release

A release takes the waker and drops it, so a poll that still waits then is
never woken. `Meets` asks that none does. It also keeps the two counters from
wrapping.
-/
import Molt.Core.Interrupt

namespace Molt.Core.Interrupt

open Line

-- == the counters

def Knows (l : Line) : Owner → Prop
  | .idle => True
  | .bindGeneration => True
  | .bindExchange free => free % 2 = 0 ∧ l.generation = free
  | .bindLoad g => l.generation = g ∧ g % 2 = 1 ∧ ∀ b ∈ l.bindings, b.generation < g
  | .bindStore g base => (l.generation = g ∧ g % 2 = 1 ∧ ∀ b ∈ l.bindings, b.generation < g)
      ∧ l.acknowledged ≤ base ∧ base ≤ l.arrivals
  | .takeGeneration token _ => token % 2 = 1
  | .takeArrivals token _ => l.generation = token ∧ token % 2 = 1
  | .takeAcknowledged token _ v => (l.generation = token ∧ token % 2 = 1)
      ∧ l.acknowledged ≤ v ∧ v ≤ l.arrivals
  | .takeStore token _ v a => (l.generation = token ∧ token % 2 = 1)
      ∧ a = l.acknowledged ∧ l.acknowledged ≤ v ∧ v ≤ l.arrivals
  | .registerExchange token _ => l.generation = token ∧ token % 2 = 1
  | .registerWrite token _ => l.generation = token ∧ token % 2 = 1
  | .registerFinish token _ => l.generation = token ∧ token % 2 = 1
  | .registerTake token _ => l.generation = token ∧ token % 2 = 1
  | .registerSwap token _ _ => l.generation = token ∧ token % 2 = 1
  | .registerWake token _ _ => l.generation = token ∧ token % 2 = 1
  | .releaseExchange token => token % 2 = 1
  | .releaseOr token => l.generation = token + 1 ∧ token % 2 = 1
  | .releaseTake token => l.generation = token + 1 ∧ token % 2 = 1
  | .releaseAnd token => l.generation = token + 1 ∧ token % 2 = 1

/-- The owner has bound the line and not yet set its baseline. -/
def Binds : Owner → Prop
  | .bindLoad _ => True
  | .bindStore .. => True
  | _ => False

/-- Each binding was told of the raises between its baseline and its last
report, and they follow each other. -/
structure Account (l : Line) : Prop where
  ordered : l.acknowledged ≤ l.arrivals
  sums : ∀ b ∈ l.bindings, b.base ≤ b.upto ∧ b.sum = b.upto - b.base ∧ b.upto ≤ l.acknowledged
    ∧ b.generation ≤ l.generation ∧ b.generation % 2 = 1
  apart : l.bindings.Pairwise fun b older =>
    older.upto ≤ b.base ∧ older.generation < b.generation
  bound : l.generation % 2 = 1 → ¬ Binds l.owner →
    ∃ b rest, l.bindings = b :: rest ∧ b.generation = l.generation ∧ b.upto = l.acknowledged
  knows : Knows l l.owner
  answers : ∀ a ∈ l.answers, a.token ≠ a.generation → a.result = .stale

/-- What is asked of a step: the counters do not wrap, and the line is not
released while a poll waits that has not been woken. -/
def Meets (l : Line) : Event → Prop
  | .raise core => l.raisers core = .idle → l.arrivals + 1 < 2 ^ 64
  | .call _ => True
  | .own =>
    match l.owner with
    | .bindExchange free => free + 1 < 2 ^ 64
    | .releaseExchange token => l.generation = token →
        token + 1 < 2 ^ 64 ∧ ∀ a, l.armed = some a → a.woken = true
    | _ => True

section Account

variable {l k : Line}

def Line.tally (l : Line) : (Nat × Nat × Nat) × List Binding × List Answer :=
  ((l.arrivals, l.acknowledged, l.generation), l.bindings, l.answers)

section

variable (h : Account l)

include h

theorem Account.congr (htally : k.tally = l.tally)
    (hbinds : Binds l.owner → Binds k.owner) (hknows : Knows l k.owner) : Account k := by
  simp only [tally, Prod.mk.injEq] at htally
  obtain ⟨⟨harr, hack, hgen⟩, hbind, hans⟩ := htally
  refine ⟨by rw [hack, harr]; exact h.ordered, by rw [hbind, hack, hgen]; exact h.sums,
    by rw [hbind]; exact h.apart, ?_, ?_, by rw [hans]; exact h.answers⟩
  · rw [hgen, hbind, hack]
    intro hodd hnot
    exact h.bound hodd fun hb => hnot (hbinds hb)
  · cases hk : k.owner <;> rw [hk] at hknows <;> unfold Knows at hknows ⊢ <;>
      simp only [harr, hack, hgen, hbind] <;> exact hknows

theorem Account.goto (hbinds : ¬ Binds l.owner) (htally : k.tally = l.tally)
    (hknows : Knows l k.owner) : Account k :=
  h.congr htally (fun hb => absurd hb hbinds) hknows

theorem Account.answer (hbinds : ¬ Binds l.owner) {token generation : Nat}
    {result : Result} (hstale : token ≠ generation → result = .stale) :
    Account (l.answer token generation result) := by
  refine ⟨h.ordered, h.sums, h.apart, fun hodd _ => h.bound hodd hbinds, trivial, ?_⟩
  intro a ha
  rcases List.mem_cons.mp ha with rfl | ha
  · exact hstale
  · exact h.answers a ha

theorem Account.armed (armed : Option Armed) : Account { l with armed } :=
  h.congr rfl id h.knows

theorem Account.finish (hbinds : ¬ Binds l.owner) {token : Nat} {result : Result}
    (hodd : token % 2 = 1) (hstale : token ≠ l.generation → result = .stale) (after : After) :
    Account (l.finish token result after) := by
  cases after with
  | arrivals =>
    refine h.answer hbinds ?_
    intro hne
    rw [hstale hne]
    rfl
  | first waker =>
    unfold Line.finish
    dsimp only
    split
    · rename_i hp
      have hgen : l.generation = token := by
        by_contra hne
        rw [hstale fun heq => hne heq.symm] at hp
        cases hp
      exact h.goto hbinds rfl ⟨hgen, hodd⟩
    · exact h.answer hbinds hstale
  | second waker =>
    unfold Line.finish
    dsimp only
    split
    · have hwaits : Account l.waits := h.armed _
      exact hwaits.answer hbinds hstale
    · exact (h.armed none).answer hbinds hstale

theorem Account.report (hodd : l.generation % 2 = 1) (hbinds : ¬ Binds l.owner)
    {v : Nat} (hlow : l.acknowledged ≤ v) (hhigh : v ≤ l.arrivals) :
    Account (report { l with acknowledged := v, owner := .idle } v l.acknowledged) := by
  obtain ⟨b, rest, hb, hgen, hupto⟩ := h.bound hodd hbinds
  obtain ⟨hbase, hsum, -, hle, hbodd⟩ := h.sums b (hb ▸ List.mem_cons_self)
  have hap := h.apart
  rw [hb] at hap
  obtain ⟨hfirst, hrest⟩ := List.pairwise_cons.mp hap
  unfold Line.report
  rw [hb]
  refine ⟨hhigh, ?_, List.pairwise_cons.mpr ⟨hfirst, hrest⟩, ?_, trivial, h.answers⟩
  · intro c hc
    rcases List.mem_cons.mp hc with rfl | hc
    · refine ⟨?_, ?_, le_rfl, hle, hbodd⟩
      · show b.base ≤ v
        omega
      · show b.sum + (v - l.acknowledged) = v - b.base
        omega
    · obtain ⟨h1, h2, h3, h4⟩ := h.sums c (hb ▸ List.mem_cons_of_mem b hc)
      exact ⟨h1, h2, h3.trans hlow, h4⟩
  · intro _ _
    exact ⟨_, rest, rfl, hgen, rfl⟩

theorem Account.next {o : Owner} (hbinds : (l.generation + 1) % 2 = 1 → Binds o)
    (hknows : Knows { l with generation := l.generation + 1 } o) :
    Account { l with generation := l.generation + 1, owner := o } := by
  refine ⟨h.ordered, ?_, h.apart, fun hodd hnot => absurd (hbinds hodd) hnot, ?_, h.answers⟩
  · intro b hb
    obtain ⟨h1, h2, h3, h4, h5⟩ := h.sums b hb
    exact ⟨h1, h2, h3, Nat.le_succ_of_le h4, h5⟩
  · cases o <;> exact hknows

theorem Account.own (hmeets : Meets l .own) : Account l.own := by
  have hknows := h.knows
  unfold Meets at hmeets
  unfold Line.own
  generalize howner : l.owner = o at hknows hmeets
  cases o with
  | idle => exact h
  | bindGeneration =>
    dsimp only
    split
    · exact h.answer (howner ▸ id) fun hne => absurd rfl hne
    · exact h.goto (howner ▸ id) rfl ⟨by omega, rfl⟩
  | bindExchange free =>
    obtain ⟨heven, rfl⟩ := hknows
    dsimp only
    rw [if_pos rfl, Nat.mod_eq_of_lt hmeets]
    refine h.next (fun _ => trivial) ⟨rfl, by omega, ?_⟩
    exact fun b hb => Nat.lt_succ_of_le (h.sums b hb).2.2.2.1
  | bindLoad g =>
    exact h.congr rfl (fun _ => trivial) ⟨hknows, h.ordered, le_rfl⟩
  | bindStore g base =>
    obtain ⟨⟨hgen, hodd, hnew⟩, hlow, hhigh⟩ := hknows
    refine ⟨hhigh, ?_, ?_, ?_, trivial, ?_⟩
    · intro b hb
      rcases List.mem_cons.mp hb with rfl | hb
      · exact ⟨le_rfl, (Nat.sub_self _).symm, le_rfl, Nat.le_of_eq hgen.symm, hodd⟩
      · obtain ⟨h1, h2, h3, h4⟩ := h.sums b hb
        exact ⟨h1, h2, h3.trans hlow, h4⟩
    · refine List.pairwise_cons.mpr ⟨?_, h.apart⟩
      intro b hb
      exact ⟨Nat.le_trans (h.sums b hb).2.2.1 hlow, hnew b hb⟩
    · intro _ _
      exact ⟨_, l.bindings, rfl, hgen.symm, rfl⟩
    · intro a ha
      rcases List.mem_cons.mp ha with rfl | ha
      · intro hne
        exact absurd rfl hne
      · exact h.answers a ha
  | takeGeneration token after =>
    dsimp only
    split
    · exact h.finish (howner ▸ id) hknows (fun _ => rfl) after
    · exact h.goto (howner ▸ id) rfl ⟨not_not.mp ‹_›, hknows⟩
  | takeArrivals token after =>
    have hstep : Account { l with owner := .takeAcknowledged token after l.arrivals } :=
      h.goto (howner ▸ id) rfl ⟨hknows, h.ordered, le_rfl⟩
    cases after with
    | arrivals | first => exact hstep
    | second waker => exact hstep.armed _
  | takeAcknowledged token after v =>
    obtain ⟨⟨hgen, hodd⟩, hlow, hhigh⟩ := hknows
    dsimp only
    split
    · exact h.finish (howner ▸ id) hodd (fun hne => absurd hgen.symm hne) after
    · exact h.goto (howner ▸ id) rfl ⟨⟨hgen, hodd⟩, rfl, hlow, hhigh⟩
  | takeStore token after v a =>
    obtain ⟨⟨hgen, hodd⟩, rfl, hlow, hhigh⟩ := hknows
    have hrep := h.report (hgen ▸ hodd) (howner ▸ id) hlow hhigh
    exact hrep.finish id hodd (fun hne => absurd hgen.symm hne) after
  | registerExchange | registerFinish =>
    dsimp only
    split
    · exact h.goto (howner ▸ id) rfl hknows
    · exact h.goto (howner ▸ id) rfl hknows.2
  | registerWrite | registerTake | registerSwap | releaseTake =>
    exact h.goto (howner ▸ id) rfl hknows
  | registerWake => exact h.goto (howner ▸ id) rfl hknows.2
  | releaseExchange token =>
    dsimp only
    by_cases hgen : l.generation = token
    · subst hgen
      have hodd : l.generation % 2 = 1 := hknows
      rw [if_pos rfl, Nat.mod_eq_of_lt (hmeets rfl).1]
      exact h.next (by omega) ⟨rfl, hodd⟩
    · rw [if_neg hgen]
      exact h.answer (howner ▸ id) fun _ => rfl
  | releaseOr token =>
    dsimp only
    split
    · exact h.goto (howner ▸ id) rfl hknows
    · have hcell : Account { l with cell := { l.cell with waking := true } } :=
        h.congr rfl id h.knows
      exact hcell.answer (howner ▸ id) fun hne => absurd rfl hne
  | releaseAnd token =>
    have hcell : Account { l with cell := { l.cell with waking := false } } :=
      h.congr rfl id h.knows
    exact hcell.answer (howner ▸ id) fun hne => absurd rfl hne

theorem Account.raise {core : Nat} (hmeets : Meets l (.raise core)) : Account (l.raise core) := by
  unfold Line.raise
  cases hr : l.raisers core with
  | idle =>
    have hcount : (l.arrivals + 1) % 2 ^ 64 = l.arrivals + 1 := Nat.mod_eq_of_lt (hmeets hr)
    have hord := h.ordered
    have hknows := h.knows
    rw [hcount]
    refine ⟨Nat.le_succ_of_le hord, h.sums, h.apart, h.bound, ?_, h.answers⟩
    show Knows _ l.owner
    cases howner : l.owner <;> rw [howner] at hknows <;> try exact hknows
    · exact ⟨hknows.1, hknows.2.1, Nat.le_succ_of_le hknows.2.2⟩
    · exact ⟨hknows.1, hknows.2.1, Nat.le_succ_of_le hknows.2.2⟩
    · exact ⟨hknows.1, hknows.2.1, hknows.2.2.1, Nat.le_succ_of_le hknows.2.2.2⟩
  | counted | taking | took => exact h.congr rfl id h.knows
  | waking waker => cases waker <;> exact h.congr rfl id h.knows

theorem Account.token_odd {token : Nat}
    (hany : l.bindings.any (·.generation = token) = true) : token % 2 = 1 := by
  obtain ⟨b, hb, heq⟩ := List.any_eq_true.mp hany
  have hodd := (h.sums b hb).2.2.2.2
  rw [of_decide_eq_true heq] at hodd
  exact hodd

theorem Account.call (hidle : l.owner = .idle) (c : Call) : Account (l.call c) := by
  have hbinds : ¬ Binds l.owner := by
    rw [hidle]
    exact id
  cases c with
  | bind => exact h.goto hbinds rfl trivial
  | arrivals | poll | release =>
    unfold Line.call
    dsimp only
    split
    · exact h.goto hbinds rfl (h.token_odd ‹_›)
    · exact h

end

end Account

-- == the waker cell

def Registers : Owner → Prop
  | .registerWrite .. => True
  | .registerFinish .. => True
  | .registerTake .. => True
  | .registerSwap .. => True
  | _ => False

def Drops : Owner → Prop
  | .releaseTake _ => True
  | .releaseAnd _ => True
  | _ => False

/-- A core has the cell. -/
def Holds : Raiser → Prop
  | .taking => True
  | .took _ => True
  | _ => False

structure Exclusive (l : Line) : Prop where
  registering : l.cell.registering = true ↔ Registers l.owner
  holder : ∀ core, Holds (l.raisers core) →
    l.cell.waking = true ∧ ¬ Registers l.owner ∧ ¬ Drops l.owner
      ∧ ∀ core', Holds (l.raisers core') → core' = core
  dropping : Drops l.owner → l.cell.waking = true
  waking : l.cell.waking = true →
    Registers l.owner ∨ Drops l.owner ∨ ∃ core, Holds (l.raisers core)
  emptied : ∀ core w, l.raisers core = .took w → l.cell.stored = none

section Exclusive

variable {l k : Line}

theorem setRaiser_self (l : Line) (core : Nat) (r : Raiser) :
    (l.setRaiser core r).raisers core = r := if_pos rfl

theorem setRaiser_ne (l : Line) {core core' : Nat} (r : Raiser) (h : core' ≠ core) :
    (l.setRaiser core r).raisers core' = l.raisers core' := if_neg h

theorem holds_of_took {r : Raiser} {w : Option Nat} (h : r = .took w) : Holds r := h ▸ trivial

theorem Exclusive.owned (hnone : ∀ c, ¬ Holds (l.raisers c))
    (hreg : l.cell.registering = true ↔ Registers l.owner)
    (hdrop : Drops l.owner → l.cell.waking = true)
    (hwak : l.cell.waking = true → Registers l.owner ∨ Drops l.owner) : Exclusive l := by
  refine ⟨hreg, fun c hc => absurd hc (hnone c), hdrop, fun hw => (hwak hw).imp_right .inl, ?_⟩
  exact fun c w hc => absurd (holds_of_took hc) (hnone c)

theorem Exclusive.held (core : Nat) (r : Raiser) (hr : Holds r)
    (hothers : ∀ c ≠ core, ¬ Holds (l.raisers c))
    (hraisers : k.raisers = (l.setRaiser core r).raisers)
    (hreg : k.cell.registering = true ↔ Registers k.owner) (hnot : ¬ Registers k.owner)
    (hdrop : ¬ Drops k.owner) (hwak : k.cell.waking = true)
    (hempty : ∀ w, r = .took w → k.cell.stored = none) : Exclusive k := by
  have hself : k.raisers core = r := hraisers ▸ setRaiser_self l core r
  have hthis : ∀ c, Holds (k.raisers c) → c = core := by
    intro c hc
    by_contra hne
    rw [hraisers, setRaiser_ne l r hne] at hc
    exact hothers c hne hc
  refine ⟨hreg, ?_, fun hd => absurd hd hdrop, fun _ => .inr (.inr ⟨core, hself ▸ hr⟩), ?_⟩
  · intro c hc
    exact ⟨hwak, hnot, hdrop, fun c' hc' => (hthis c' hc').trans (hthis c hc).symm⟩
  · intro c w hc
    obtain rfl := hthis c (holds_of_took hc)
    exact hempty w (hself.symm.trans hc)

section

variable (h : Exclusive l)

include h

theorem Exclusive.congr (hcell : k.cell = l.cell)
    (hraisers : k.raisers = l.raisers) (hreg : Registers k.owner ↔ Registers l.owner)
    (hdrop : Drops k.owner ↔ Drops l.owner) : Exclusive k := by
  refine ⟨?_, ?_, ?_, ?_, ?_⟩
  · rw [hcell, hreg]
    exact h.registering
  · rw [hcell, hraisers, hreg, hdrop]
    exact h.holder
  · rw [hcell, hdrop]
    exact h.dropping
  · rw [hcell, hraisers, hreg, hdrop]
    exact h.waking
  · rw [hcell, hraisers]
    exact h.emptied

theorem Exclusive.free (hw : l.cell.Waiting) :
    ¬ Registers l.owner ∧ ¬ Drops l.owner ∧ ∀ core, ¬ Holds (l.raisers core) := by
  refine ⟨?_, ?_, ?_⟩
  · intro hr
    rw [← h.registering, hw.1] at hr
    cases hr
  · intro hd
    have := h.dropping hd
    rw [hw.2] at this
    cases this
  · intro core hc
    have := (h.holder core hc).1
    rw [hw.2] at this
    cases this

theorem Exclusive.pass (core : Nat) (r : Raiser)
    (hold : ¬ Holds (l.raisers core)) (hnew : ¬ Holds r) (howner : k.owner = l.owner)
    (hraisers : k.raisers = (l.setRaiser core r).raisers)
    (hreg : k.cell.registering = l.cell.registering) (hstored : k.cell.stored = l.cell.stored)
    (hup : l.cell.waking = true → k.cell.waking = true)
    (hwhy : k.cell.waking = true →
      Registers l.owner ∨ Drops l.owner ∨ ∃ core, Holds (l.raisers core)) : Exclusive k := by
  have hsame : ∀ c, Holds (k.raisers c) ↔ Holds (l.raisers c) := by
    intro c
    rw [hraisers]
    by_cases hc : c = core
    · rw [hc, setRaiser_self]
      exact ⟨fun hr => absurd hr hnew, fun hr => absurd hr hold⟩
    · rw [setRaiser_ne l r hc]
  refine ⟨?_, ?_, ?_, ?_, ?_⟩
  · rw [hreg, howner]
    exact h.registering
  · intro c hc
    obtain ⟨h1, h2, h3, h4⟩ := h.holder c ((hsame c).mp hc)
    rw [howner]
    exact ⟨hup h1, h2, h3, fun c' hc' => h4 c' ((hsame c').mp hc')⟩
  · rw [howner]
    exact fun hd => hup (h.dropping hd)
  · intro hw
    rw [howner]
    rcases hwhy hw with h1 | h1 | ⟨c, hc⟩
    · exact .inl h1
    · exact .inr (.inl h1)
    · exact .inr (.inr ⟨c, (hsame c).mpr hc⟩)
  intro c w hc
  rw [hstored]
  rw [hraisers] at hc
  by_cases hcc : c = core
  · rw [hcc, setRaiser_self] at hc
    rw [hc] at hnew
    exact absurd trivial hnew
  · rw [setRaiser_ne l r hcc] at hc
    exact h.emptied c w hc

theorem Exclusive.taken (hw : ¬ l.cell.Waiting) :
    Registers l.owner ∨ Drops l.owner ∨ ∃ core, Holds (l.raisers core) := by
  by_cases hreg : l.cell.registering = true
  · exact .inl (h.registering.mp hreg)
  · by_cases hwak : l.cell.waking = true
    · exact h.waking hwak
    · exact absurd ⟨Bool.eq_false_iff.mpr hreg, Bool.eq_false_iff.mpr hwak⟩ hw

theorem Exclusive.alone (hown : Registers l.owner ∨ Drops l.owner) (c : Nat) :
    ¬ Holds (l.raisers c) := fun hc =>
  hown.elim (h.holder c hc).2.1 (h.holder c hc).2.2.1

theorem Exclusive.unregistered (hnot : ¬ Registers l.owner) :
    l.cell.registering = true ↔ False := h.registering.trans (iff_false_intro hnot)

theorem Exclusive.raise (core : Nat) : Exclusive (l.raise core) := by
  unfold Line.raise
  cases hr : l.raisers core with
  | idle => exact h.pass core .counted (hr ▸ id) id rfl rfl rfl rfl id h.waking
  | counted =>
    by_cases hw : l.cell.Waiting
    · -- the cell is this core's
      obtain ⟨hreg, hdrop, hnone⟩ := h.free hw
      rw [if_pos hw]
      exact .held core .taking trivial (fun c _ => hnone c) rfl h.registering hreg hdrop rfl nofun
    · rw [if_neg hw]
      exact h.pass core .idle (hr ▸ id) id rfl rfl rfl rfl (fun _ => rfl) fun _ => h.taken hw
  | taking =>
    obtain ⟨hwak, hreg, hdrop, honly⟩ := h.holder core (hr ▸ trivial)
    exact .held core (.took l.cell.stored) trivial (fun c hne hc => hne (honly c hc)) rfl
      h.registering hreg hdrop hwak fun _ _ => rfl
  | took waker =>
    obtain ⟨-, hreg, hdrop, honly⟩ := h.holder core (hr ▸ trivial)
    refine .owned ?_ h.registering (fun hd => absurd hd hdrop) nofun
    intro c hc
    have hc : Holds ((l.setRaiser core (.waking waker)).raisers c) := hc
    by_cases hcc : c = core
    · rw [hcc, setRaiser_self] at hc
      exact hc
    · rw [setRaiser_ne l _ hcc] at hc
      exact hcc (honly c hc)
  | waking waker =>
    cases waker <;> exact h.pass core .idle (hr ▸ id) id rfl rfl rfl rfl id h.waking

theorem Exclusive.aside (hcell : k.cell = l.cell)
    (hraisers : k.raisers = l.raisers) (hreg : ¬ Registers l.owner) (hdrop : ¬ Drops l.owner)
    (hreg' : ¬ Registers k.owner) (hdrop' : ¬ Drops k.owner) : Exclusive k :=
  h.congr hcell hraisers ⟨fun hk => absurd hk hreg', fun hk => absurd hk hreg⟩
    ⟨fun hk => absurd hk hdrop', fun hk => absurd hk hdrop⟩

theorem Exclusive.finish (hreg : ¬ Registers l.owner) (hdrop : ¬ Drops l.owner)
    (token : Nat) (result : Result) (after : After) :
    Exclusive (l.finish token result after) := by
  cases after with
  | arrivals => exact h.aside rfl rfl hreg hdrop id id
  | first | second =>
    unfold Line.finish
    dsimp only
    split <;> exact h.aside rfl rfl hreg hdrop id id

theorem Exclusive.own : Exclusive l.own := by
  unfold Line.own
  cases howner : l.owner with
  | idle => exact h
  | bindGeneration | bindExchange | releaseExchange =>
    dsimp only
    split <;> exact h.aside rfl rfl (howner ▸ id) (howner ▸ id) id id
  | bindLoad | bindStore | registerWake =>
    exact h.aside rfl rfl (howner ▸ id) (howner ▸ id) id id
  | takeGeneration | takeAcknowledged =>
    dsimp only
    split
    · exact h.finish (howner ▸ id) (howner ▸ id) ..
    · exact h.aside rfl rfl (howner ▸ id) (howner ▸ id) id id
  | takeArrivals token after =>
    cases after <;> exact h.aside rfl rfl (howner ▸ id) (howner ▸ id) id id
  | takeStore token after v a =>
    have hmid : Exclusive (report { l with acknowledged := v, owner := .idle } v a) :=
      h.aside rfl rfl (howner ▸ id) (howner ▸ id) id id
    exact hmid.finish id id ..
  | registerExchange token waker =>
    dsimp only
    split
    · rename_i hw
      exact .owned (h.free hw).2.2 ⟨fun _ => trivial, fun _ => rfl⟩ nofun fun _ => .inl trivial
    · exact h.aside rfl rfl (howner ▸ id) (howner ▸ id) id id
  | registerWrite | registerTake =>
    have hreg : Registers l.owner := howner ▸ trivial
    exact .owned (h.alone (.inl hreg)) ⟨fun _ => trivial, fun _ => h.registering.mpr hreg⟩ nofun
      fun _ => .inl trivial
  | registerFinish token waker =>
    have hreg : Registers l.owner := howner ▸ trivial
    dsimp only
    split
    · exact .owned (h.alone (.inl hreg)) ⟨fun _ => trivial, fun _ => h.registering.mpr hreg⟩
        nofun fun _ => .inl trivial
    · rename_i hw
      exact .owned (h.alone (.inl hreg)) ⟨nofun, nofun⟩ nofun fun hk => absurd hk hw
  | registerSwap token waker taken =>
    exact .owned (h.alone (.inl (howner ▸ trivial))) ⟨nofun, nofun⟩ nofun nofun
  | releaseOr token =>
    have hnot := h.unregistered (howner ▸ id)
    dsimp only
    split
    · rename_i hw
      exact .owned (h.free hw).2.2 hnot (fun _ => rfl) fun _ => .inr trivial
    rename_i hw
    refine ⟨hnot, fun c hc => ⟨rfl, id, id, (h.holder c hc).2.2.2⟩, nofun, ?_, h.emptied⟩
    have htaken := h.taken hw
    rw [howner] at htaken
    exact fun _ => htaken
  | releaseTake token =>
    have hdrop : Drops l.owner := howner ▸ trivial
    exact .owned (h.alone (.inr hdrop)) (h.unregistered (howner ▸ id))
      (fun _ => h.dropping hdrop) fun _ => .inr trivial
  | releaseAnd token =>
    exact .owned (h.alone (.inr (howner ▸ trivial))) (h.unregistered (howner ▸ id)) nofun nofun

theorem Exclusive.call (hidle : l.owner = .idle) (c : Call) : Exclusive (l.call c) := by
  cases c with
  | bind => exact h.aside rfl rfl (hidle ▸ id) (hidle ▸ id) id id
  | arrivals | poll | release =>
    unfold Line.call
    dsimp only
    split
    · exact h.aside rfl rfl (hidle ▸ id) (hidle ▸ id) id id
    · exact h

end

end Exclusive

-- == the last poll

def Polling : Owner → Prop
  | .takeGeneration _ (.first _) => True
  | .takeArrivals _ (.first _) => True
  | .takeAcknowledged _ (.first _) _ => True
  | .takeStore _ (.first _) _ _ => True
  | .registerExchange .. => True
  | .registerWrite .. => True
  | .registerFinish .. => True
  | .registerTake .. => True
  | .registerSwap .. => True
  | .registerWake .. => True
  | _ => False

/-- The owner is in a poll that has registered its waker. -/
def Rechecks : Owner → Prop
  | .takeGeneration _ (.second _) => True
  | .takeArrivals _ (.second _) => True
  | .takeAcknowledged _ (.second _) _ => True
  | .takeStore _ (.second _) _ _ => True
  | _ => False

def Releasing : Owner → Prop
  | .releaseOr _ => True
  | .releaseTake _ => True
  | .releaseAnd _ => True
  | _ => False

def Written (l : Line) : Owner → Prop
  | .registerFinish _ waker => l.cell.stored = some waker
  | .registerTake _ waker => l.cell.stored = some waker
  | .registerSwap _ waker taken => taken = some waker
  | .registerWake _ waker taken => taken = some waker
  | _ => True

def Looked (a : Armed) : Owner → Prop
  | .takeAcknowledged _ (.second _) v => a.seen = some v
  | _ => True

/-- A core has taken the waker and will wake it. -/
def Brings (l : Line) (waker : Nat) : Prop :=
  ∃ core, l.raisers core = .took (some waker) ∨ l.raisers core = .waking (some waker)

def Comes (l : Line) : Prop := ∃ core, l.raisers core = .counted ∨ l.raisers core = .taking

/-- Until its waker is woken, the last poll's token is good, its waker is in
the cell or with a core that will wake it, and if the count has moved since
it looked then a core is under way. -/
structure Unwoken (l : Line) (a : Armed) : Prop where
  token : a.token = l.generation ∧ a.token % 2 = 1
  held : ¬ Releasing l.owner
  placed : l.cell.stored = some a.waker ∨ Brings l a.waker
  moved : ∀ v, a.seen = some v → l.arrivals = v ∨ Comes l ∨ Brings l a.waker

structure Awaited (l : Line) : Prop where
  polling : Polling l.owner → l.armed = none
  unwoken : ∀ a, l.armed = some a → a.woken = false → Unwoken l a
  written : Written l l.owner
  looked : ∀ a, l.armed = some a → Looked a l.owner
  fresh : ∀ a, l.armed = some a → Rechecks l.owner → a.returned = false
  returned : ∀ a, l.armed = some a → a.returned = true → ∃ v, a.seen = some v ∧ v ≤ l.acknowledged

section Awaited

variable {l k : Line}

theorem registers_polling {o : Owner} (h : Registers o) : Polling o := by
  cases o <;> first | exact trivial | exact absurd h id

theorem drops_releasing {o : Owner} (h : Drops o) : Releasing o := by
  cases o <;> first | exact trivial | exact absurd h id

theorem Unwoken.congr {a : Armed} (h : Unwoken l a) (hgen : k.generation = l.generation)
    (harr : k.arrivals = l.arrivals) (hstored : k.cell.stored = l.cell.stored)
    (hraisers : k.raisers = l.raisers) (hrel : ¬ Releasing k.owner) : Unwoken k a := by
  refine ⟨by rw [hgen]; exact h.token, hrel, ?_, ?_⟩
  · unfold Brings
    rw [hstored, hraisers]
    exact h.placed
  · unfold Comes Brings
    rw [harr, hraisers]
    exact h.moved

def Line.wait (l : Line) : (Option Armed × Option Nat) × (Nat × Nat) × (Nat → Raiser) :=
  ((l.armed, l.cell.stored), (l.generation, l.arrivals), l.raisers)

/-- The owner goes on elsewhere, and the poll is not touched. -/
theorem Awaited.aside (h : Awaited l) (hwait : k.wait = l.wait)
    (hack : l.acknowledged ≤ k.acknowledged) (hpoll : Polling k.owner → l.armed = none)
    (hrel : Releasing k.owner → Releasing l.owner) (hwritten : Written k k.owner)
    (hlooked : ∀ a, l.armed = some a → Looked a k.owner)
    (hfresh : Rechecks k.owner → Rechecks l.owner) : Awaited k := by
  simp only [wait, Prod.mk.injEq] at hwait
  obtain ⟨⟨harmed, hstored⟩, ⟨hgen, harr⟩, hraisers⟩ := hwait
  refine ⟨by rw [harmed]; exact hpoll, ?_, hwritten, by rw [harmed]; exact hlooked, ?_, ?_⟩
  · rw [harmed]
    intro a ha hw
    have hun := h.unwoken a ha hw
    exact hun.congr hgen harr hstored hraisers fun hk => hun.held (hrel hk)
  · rw [harmed]
    intro a ha hk
    exact h.fresh a ha (hfresh hk)
  · rw [harmed]
    intro a ha hr
    obtain ⟨v, hv, hle⟩ := h.returned a ha hr
    exact ⟨v, hv, hle.trans hack⟩

/-- The places at which nothing is asked of the last poll. -/
structure Quiet (o : Owner) : Prop where
  polling : ¬ Polling o
  releasing : ¬ Releasing o
  rechecks : ¬ Rechecks o
  written : ∀ l, Written l o
  looked : ∀ a, Looked a o

theorem Quiet.idle : Quiet .idle := ⟨id, id, id, fun _ => trivial, fun _ => trivial⟩

theorem Awaited.rest (h : Awaited l) (hwait : k.wait = l.wait)
    (hack : l.acknowledged ≤ k.acknowledged) (hq : Quiet k.owner) : Awaited k :=
  h.aside hwait hack (fun hk => absurd hk hq.polling) (fun hk => absurd hk hq.releasing)
    (hq.written k) (fun a _ => hq.looked a) fun hk => absurd hk hq.rechecks

/-- No poll waits. -/
theorem Awaited.nobody (hnone : l.armed = none) (hwritten : Written l l.owner) : Awaited l := by
  refine ⟨fun _ => hnone, ?_, hwritten, ?_, ?_, ?_⟩ <;>
  · rw [hnone]
    exact nofun

theorem Awaited.arm {token waker : Nat} {woken : Bool} (hgen : l.generation = token)
    (hodd : token % 2 = 1) (hplaced : woken = false → l.cell.stored = some waker) :
    Awaited (l.arm token waker woken) := by
  refine ⟨fun hk => absurd hk id, ?_, trivial, ?_, ?_, ?_⟩
  · intro a ha hw
    cases ha
    exact ⟨⟨hgen.symm, hodd⟩, id, .inl (hplaced hw), nofun⟩
  · intro a _
    trivial
  · intro a ha _
    cases ha
    rfl
  · intro a ha hr
    cases ha
    cases hr

-- -- the cores

section

variable {core w : Nat} {r was : Raiser}

theorem Brings.other (h : Brings l w) (hcore : l.raisers core = was)
    (htook : was ≠ .took (some w)) (hwaking : was ≠ .waking (some w)) :
    Brings (l.setRaiser core r) w := by
  obtain ⟨c, hc⟩ := h
  refine ⟨c, ?_⟩
  by_cases hcc : c = core
  · rw [hcc, hcore] at hc
    exact absurd hc (not_or.mpr ⟨htook, hwaking⟩)
  · rw [setRaiser_ne l r hcc]
    exact hc

theorem brings_self (l : Line) (core w : Nat)
    (hr : r = .took (some w) ∨ r = .waking (some w)) : Brings (l.setRaiser core r) w := by
  refine ⟨core, ?_⟩
  rw [setRaiser_self]
  exact hr

theorem Comes.other (h : Comes l) (hcore : l.raisers core = was)
    (hcounted : was ≠ .counted) (htaking : was ≠ .taking) : Comes (l.setRaiser core r) := by
  obtain ⟨c, hc⟩ := h
  refine ⟨c, ?_⟩
  by_cases hcc : c = core
  · rw [hcc, hcore] at hc
    exact absurd hc (not_or.mpr ⟨hcounted, htaking⟩)
  · rw [setRaiser_ne l r hcc]
    exact hc

theorem comes_self (l : Line) (core : Nat) (hr : r = .counted ∨ r = .taking) :
    Comes (l.setRaiser core r) := by
  refine ⟨core, ?_⟩
  rw [setRaiser_self]
  exact hr

end

theorem Unwoken.raise {a : Armed} (h : Unwoken l a) (he : Exclusive l) (hpoll : ¬ Polling l.owner)
    {core : Nat} (hnot : l.raisers core ≠ .waking (some a.waker)) : Unwoken (l.raise core) a := by
  have hplaced := h.placed
  unfold Line.raise
  cases hr : l.raisers core with
  | idle =>
    refine ⟨h.token, h.held, hplaced.imp id (·.other hr nofun nofun), ?_⟩
    exact fun v _ => .inr (.inl (comes_self l core (.inl rfl)))
  | counted =>
    have hbr : ∀ {r}, Brings l a.waker → Brings (l.setRaiser core r) a.waker :=
      (·.other hr nofun nofun)
    by_cases hw : l.cell.Waiting
    · rw [if_pos hw]
      refine ⟨h.token, h.held, hplaced.imp id hbr, ?_⟩
      exact fun v _ => .inr (.inl (comes_self l core (.inr rfl)))
    rw [if_neg hw]
    refine ⟨h.token, h.held, hplaced.imp id hbr, ?_⟩
    intro v hv
    -- somebody has the cell, and it is a core
    rcases he.taken hw with hreg | hdrop | ⟨c, hc⟩
    · exact absurd (registers_polling hreg) hpoll
    · exact absurd (drops_releasing hdrop) h.held
    cases hrc : l.raisers c with
    | taking =>
      have hcc : c ≠ core := by
        rintro rfl
        cases hr.symm.trans hrc
      exact .inr (.inl ⟨c, .inr ((setRaiser_ne l _ hcc).trans hrc)⟩)
    | took w =>
      have hempty := he.emptied c w hrc
      rcases hplaced with hst | hbrings
      · rw [hempty] at hst
        cases hst
      · exact .inr (.inr (hbr hbrings))
    | idle | counted | waking =>
      rw [hrc] at hc
      exact absurd hc id
  | taking =>
    have hnew : Brings (l.setRaiser core (.took l.cell.stored)) a.waker := by
      rcases hplaced with hst | hbrings
      · rw [hst]
        exact brings_self l core _ (.inl rfl)
      · exact hbrings.other hr nofun nofun
    exact ⟨h.token, h.held, .inr hnew, fun v _ => .inr (.inr hnew)⟩
  | took w =>
    have hbr : Brings l a.waker → Brings (l.setRaiser core (.waking w)) a.waker := by
      intro hb
      by_cases hw : w = some a.waker
      · exact brings_self l core _ (.inr (congrArg _ hw))
      · exact hb.other hr (fun heq => hw (Raiser.took.inj heq)) nofun
    refine ⟨h.token, h.held, hplaced.imp id hbr, fun v hv => ?_⟩
    exact (h.moved v hv).imp id (Or.imp (·.other hr nofun nofun) hbr)
  | waking w =>
    have hbr : Brings l a.waker → Brings (l.setRaiser core .idle) a.waker :=
      (·.other hr nofun (hr ▸ hnot))
    have hidle : Unwoken (l.setRaiser core .idle) a := by
      refine ⟨h.token, h.held, hplaced.imp id hbr, fun v hv => ?_⟩
      exact (h.moved v hv).imp id (Or.imp (·.other hr nofun nofun) hbr)
    cases w <;> exact { hidle with }

/-- A core changes nothing of the owner, and of the poll at most that it is
woken. -/
theorem raise_frame (l : Line) (core : Nat) :
    (l.raise core).owner = l.owner ∧ (l.raise core).acknowledged = l.acknowledged
      ∧ (((l.raise core).armed = l.armed ∧ ∀ w, l.raisers core ≠ .waking (some w))
        ∨ ∃ w, l.raisers core = .waking (some w) ∧ (l.raise core).armed
          = l.armed.map fun a => if a.waker = w then { a with woken := true } else a) := by
  unfold raise
  cases hr : l.raisers core with
  | idle | counted | taking | took => exact ⟨rfl, rfl, .inl ⟨rfl, nofun⟩⟩
  | waking w =>
    cases w with
    | none => exact ⟨rfl, rfl, .inl ⟨rfl, nofun⟩⟩
    | some w => exact ⟨rfl, rfl, .inr ⟨w, rfl, rfl⟩⟩

theorem raise_armed {core : Nat} {a : Armed} (h : (l.raise core).armed = some a) :
    ∃ a0, l.armed = some a0 ∧ a.seen = a0.seen ∧ a.returned = a0.returned
      ∧ (a.woken = false → a = a0 ∧ l.raisers core ≠ .waking (some a0.waker)) := by
  obtain ⟨-, -, ⟨hsame, hnot⟩ | ⟨w, hw, hmap⟩⟩ := raise_frame l core
  · rw [hsame] at h
    exact ⟨a, h, rfl, rfl, fun _ => ⟨rfl, hnot a.waker⟩⟩
  rw [hmap] at h
  obtain ⟨a0, ha0, heq⟩ := Option.map_eq_some_iff.mp h
  refine ⟨a0, ha0, ?_, ?_, ?_⟩
  · rw [← heq]
    split <;> rfl
  · rw [← heq]
    split <;> rfl
  intro hwoken
  by_cases hww : a0.waker = w
  · rw [if_pos hww] at heq
    rw [← heq] at hwoken
    cases hwoken
  · rw [if_neg hww] at heq
    refine ⟨heq.symm, ?_⟩
    rw [hw]
    intro hc
    cases hc
    exact hww rfl

theorem Written.raise (h : Written l l.owner) (he : Exclusive l) (core : Nat) :
    Written (l.raise core) l.owner := by
  have hstored : Registers l.owner → (l.raise core).cell.stored = l.cell.stored := by
    intro hreg
    unfold Line.raise
    cases hr : l.raisers core with
    | taking => exact absurd hreg (he.holder core (hr ▸ trivial)).2.1
    | waking w => cases w <;> rfl
    | _ => rfl
  cases howner : l.owner with
  | registerFinish | registerTake =>
    rw [howner] at h hstored
    exact (hstored trivial).trans h
  | registerSwap | registerWake =>
    rw [howner] at h
    exact h
  | _ => trivial

theorem Awaited.raise (h : Awaited l) (he : Exclusive l) (core : Nat) : Awaited (l.raise core) := by
  obtain ⟨howner, hack, -⟩ := raise_frame l core
  refine ⟨?_, ?_, ?_, ?_, ?_, ?_⟩
  · rw [howner]
    intro hp
    cases ha : (l.raise core).armed with
    | none => rfl
    | some a =>
      obtain ⟨a0, ha0, -⟩ := raise_armed ha
      rw [h.polling hp] at ha0
      cases ha0
  · intro a ha hw
    obtain ⟨a0, ha0, -, -, hsame⟩ := raise_armed ha
    obtain ⟨rfl, hnot⟩ := hsame hw
    have hpoll : ¬ Polling l.owner := by
      intro hp
      rw [h.polling hp] at ha0
      cases ha0
    exact (h.unwoken a ha0 hw).raise he hpoll hnot
  · rw [howner]
    exact h.written.raise he core
  · rw [howner]
    intro a ha
    obtain ⟨a0, ha0, hseen, -⟩ := raise_armed ha
    have hlook := h.looked a0 ha0
    unfold Looked at hlook ⊢
    rw [hseen]
    exact hlook
  · rw [howner]
    intro a ha hr
    obtain ⟨a0, ha0, -, hret, -⟩ := raise_armed ha
    rw [hret]
    exact h.fresh a0 ha0 hr
  · intro a ha hr
    obtain ⟨a0, ha0, hseen, hret, -⟩ := raise_armed ha
    rw [hseen, hack]
    exact h.returned a0 ha0 (hret ▸ hr)

-- -- the owner

theorem Awaited.finish (h : Awaited l) (token : Nat) (result : Result) (after : After)
    (hfirst : ∀ w, after = .first w → l.armed = none)
    (hpending : result = .pending → ∀ w, after = .second w → ∀ a, l.armed = some a →
      ∃ v, a.seen = some v ∧ v ≤ l.acknowledged) :
    Awaited (l.finish token result after) := by
  have hanswer : ∀ r, Awaited (l.answer token l.generation r) := fun r =>
    h.rest rfl le_rfl .idle
  cases after with
  | arrivals => exact hanswer _
  | first waker =>
    unfold Line.finish
    dsimp only
    split
    · exact .nobody (hfirst waker rfl) trivial
    · exact hanswer _
  | second waker =>
    unfold Line.finish
    dsimp only
    split
    · rename_i hp
      refine ⟨fun hk => absurd hk id, ?_, trivial, fun _ _ => trivial, fun _ _ hk => absurd hk id,
        ?_⟩
      · intro a ha hw
        obtain ⟨a0, ha0, rfl⟩ := Option.map_eq_some_iff.mp ha
        have hun := h.unwoken a0 ha0 hw
        exact ⟨hun.token, id, hun.placed, hun.moved⟩
      · intro a ha _
        obtain ⟨a0, ha0, rfl⟩ := Option.map_eq_some_iff.mp ha
        exact hpending hp waker rfl a0 ha0
    · exact .nobody rfl trivial

theorem Awaited.own (h : Awaited l) (ha : Account l) (hmeets : Meets l .own) : Awaited l.own := by
  have hknows := ha.knows
  have hpoll := h.polling
  have hlook := h.looked
  have hwritten := h.written
  unfold Meets at hmeets
  unfold Line.own
  generalize howner : l.owner = o at hknows hpoll hlook hwritten hmeets
  cases o with
  | idle => exact h
  | bindGeneration =>
    dsimp only
    split
    · exact h.rest rfl le_rfl .idle
    · exact h.rest rfl le_rfl ⟨id, id, id, fun _ => trivial, fun _ => trivial⟩
  | bindExchange free =>
    obtain ⟨heven, hgen⟩ := hknows
    dsimp only
    rw [if_pos hgen]
    refine ⟨fun hk => absurd hk id, ?_, trivial, fun _ _ => trivial, fun _ _ hk => absurd hk id,
      h.returned⟩
    intro a harm hw
    -- a token that is good is odd
    obtain ⟨htok, hodd⟩ := (h.unwoken a harm hw).token
    omega
  | bindLoad g =>
    exact h.rest rfl le_rfl ⟨id, id, id, fun _ => trivial, fun _ => trivial⟩
  | bindStore g base =>
    exact h.rest rfl hknows.2.1 .idle
  | takeGeneration token after =>
    dsimp only
    split
    · refine h.finish token .stale after ?_ nofun
      rintro w rfl
      exact hpoll trivial
    · refine h.aside rfl le_rfl ?_ (fun hk => absurd hk id) trivial (fun _ _ => trivial) ?_
      · intro hk
        exact hpoll (by cases after <;> exact hk)
      · intro hk
        rw [howner]
        cases after <;> exact hk
  | takeArrivals token after =>
    cases after with
    | arrivals =>
      exact h.rest rfl le_rfl ⟨id, id, id, fun _ => trivial, fun _ => trivial⟩
    | first w =>
      exact h.aside rfl le_rfl (fun _ => hpoll trivial)
        (fun hk => absurd hk id) trivial (fun _ _ => trivial) fun hk => absurd hk id
    | second w =>
      have hrecheck : Rechecks l.owner := howner ▸ trivial
      refine ⟨fun hk => absurd hk id, ?_, trivial, ?_, ?_, ?_⟩
      · intro a harm hw
        obtain ⟨a0, ha0, rfl⟩ := Option.map_eq_some_iff.mp harm
        have hun := h.unwoken a0 ha0 hw
        exact ⟨hun.token, id, hun.placed, fun v hv => .inl (Option.some.inj hv)⟩
      · intro a harm
        obtain ⟨a0, ha0, rfl⟩ := Option.map_eq_some_iff.mp harm
        rfl
      · intro a harm _
        obtain ⟨a0, ha0, rfl⟩ := Option.map_eq_some_iff.mp harm
        exact h.fresh a0 ha0 hrecheck
      · intro a harm hret
        obtain ⟨a0, ha0, rfl⟩ := Option.map_eq_some_iff.mp harm
        have hret : a0.returned = true := hret
        rw [h.fresh a0 ha0 hrecheck] at hret
        cases hret
  | takeAcknowledged token after v =>
    dsimp only
    split
    · rename_i heq
      refine h.finish token .pending after ?_ ?_
      · rintro w rfl
        exact hpoll trivial
      · rintro _ w rfl a harm
        exact ⟨v, hlook a harm, Nat.le_of_eq heq⟩
    · refine h.aside rfl le_rfl ?_ (fun hk => absurd hk id) trivial (fun _ _ => trivial) ?_
      · intro hk
        exact hpoll (by cases after <;> exact hk)
      · intro hk
        rw [howner]
        cases after <;> exact hk
  | takeStore token after v a =>
    have hmid : Awaited (report { l with acknowledged := v, owner := .idle } v a) :=
      h.rest rfl hknows.2.2.1 .idle
    refine hmid.finish token _ after ?_ nofun
    rintro w rfl
    exact hpoll trivial
  | registerExchange token waker =>
    dsimp only
    split
    · exact .nobody (hpoll trivial) trivial
    · exact .arm hknows.1 hknows.2 nofun
  | registerWrite token waker =>
    exact .nobody (hpoll trivial) rfl
  | registerFinish token waker =>
    dsimp only
    split
    · exact .nobody (hpoll trivial) hwritten
    · exact Awaited.arm hknows.1 hknows.2 fun _ => hwritten
  | registerTake | registerSwap =>
    exact .nobody (hpoll trivial) hwritten
  | registerWake token waker taken =>
    have hwritten : taken = some waker := hwritten
    have htrue : decide (taken = some waker) = true := decide_eq_true hwritten
    dsimp only
    rw [htrue]
    exact .arm hknows.1 hknows.2 nofun
  | releaseExchange token =>
    dsimp only
    split
    · rename_i hgen
      refine ⟨fun hk => absurd hk id, ?_, trivial, fun _ _ => trivial,
        fun _ _ hk => absurd hk id, h.returned⟩
      intro a harm hw
      have hwoken := (hmeets hgen).2 a harm
      rw [hw] at hwoken
      cases hwoken
    · exact h.rest rfl le_rfl .idle
  | releaseOr token =>
    dsimp only
    split
    · exact h.aside rfl le_rfl (fun hk => absurd hk id)
        (fun _ => howner ▸ trivial) trivial (fun _ _ => trivial) fun hk => absurd hk id
    · exact h.rest rfl le_rfl .idle
  | releaseTake token =>
    have hrel : Releasing l.owner := howner ▸ trivial
    refine ⟨fun hk => absurd hk id, ?_, trivial, fun _ _ => trivial, fun _ _ hk => absurd hk id,
      h.returned⟩
    intro a harm hw
    exact absurd hrel (h.unwoken a harm hw).held
  | releaseAnd token => exact h.rest rfl le_rfl .idle

theorem Awaited.call (h : Awaited l) (c : Call) : Awaited (l.call c) := by
  cases c with
  | bind => exact h.rest rfl le_rfl ⟨id, id, id, fun _ => trivial, fun _ => trivial⟩
  | arrivals | release =>
    unfold Line.call
    dsimp only
    split
    · exact h.rest rfl le_rfl ⟨id, id, id, fun _ => trivial, fun _ => trivial⟩
    · exact h
  | poll token waker =>
    unfold Line.call
    dsimp only
    split
    · exact .nobody rfl trivial
    · exact h

end Awaited

-- == any run

structure Sound (l : Line) : Prop where
  account : Account l
  exclusive : Exclusive l
  awaited : Awaited l

def MeetsAll (l : Line) : List Event → Prop
  | [] => True
  | e :: events => Meets l e ∧ MeetsAll (l.step e) events

theorem Sound.new : Sound .new := by
  refine ⟨⟨le_rfl, nofun, List.Pairwise.nil, nofun, trivial, nofun⟩, ?_, .nobody rfl trivial⟩
  exact ⟨⟨nofun, fun hk => absurd hk id⟩, fun c hc => absurd hc id, fun hd => absurd hd id, nofun,
    nofun⟩

theorem Sound.step {l : Line} (h : Sound l) {e : Event} (hmeets : Meets l e) :
    Sound (l.step e) := by
  cases e with
  | raise core =>
    exact ⟨h.account.raise hmeets, h.exclusive.raise core, h.awaited.raise h.exclusive core⟩
  | call c =>
    unfold Line.step
    dsimp only
    split
    · rename_i hidle
      exact ⟨h.account.call hidle c, h.exclusive.call hidle c, h.awaited.call c⟩
    · exact h
  | own => exact ⟨h.account.own hmeets, h.exclusive.own, h.awaited.own h.account hmeets⟩

theorem Sound.run {l : Line} (h : Sound l) {events : List Event} (hmeets : MeetsAll l events) :
    Sound (l.run events) := by
  induction events generalizing l with
  | nil => exact h
  | cons e events ih => exact ih (h.step hmeets.1) hmeets.2

structure Faithful (l : Line) : Prop where
  /-- A binding was told of the raises after its baseline, up to its last report. -/
  sums : ∀ b ∈ l.bindings, b.base ≤ b.upto ∧ b.upto ≤ l.arrivals ∧ b.sum = b.upto - b.base
  /-- No raise was reported to two bindings. -/
  once : l.bindings.Pairwise fun b older => older.upto ≤ b.base
  /-- A token of another binding gets `Stale`. -/
  stale : ∀ a ∈ l.answers, a.token ≠ a.generation → a.result = .stale
  /-- A poll that returned `Pending` has been woken, once the raises under way
  have returned, if there is an arrival to report or its token is stale. -/
  woken : ∀ a, l.armed = some a → a.returned = true → (∀ core, l.raisers core = .idle) →
    l.arrivals ≠ l.acknowledged ∨ a.token ≠ l.generation → a.woken = true

/-- A poll of the first token that registers the waker 7 and returns `Pending`. -/
def waiting : List Event :=
  [.call (.poll 1 7), .own, .own, .own, .own, .own, .own, .own, .own, .own]

end Molt.Core.Interrupt
