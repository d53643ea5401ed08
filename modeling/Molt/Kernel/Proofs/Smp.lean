/-
A core that reports late is one more core to ask, and the round does not know
it if it reports between the two looks at its slot.

`Meets` keeps the two looks alike: no core publishes its handle between them,
and every task sent is taken. Then the cores asked are those the round was
opened over (`Knows`), each acknowledgement is one the round waits for, and
the last of them closes it.
-/
import Molt.Kernel.Smp

namespace Molt.Kernel

open List

namespace Shootdown

theorem testBit_flushed {flushed cpu i : Nat} : (flushed ||| 2 ^ cpu).testBit i = true ↔
    flushed.testBit i = true ∨ i = cpu := by
  rw [Nat.testBit_or, Bool.or_eq_true, Nat.testBit_two_pow, decide_eq_true_iff, eq_comm (a := cpu)]

/-- The mask names the cores on the list. -/
theorem mask_spec (asked : Nat) {cores : List Nat} (h : ∀ cpu ∈ cores, cpu < LIMIT) :
    ∃ asked', mask asked cores = .ok asked'
      ∧ ∀ i, asked'.testBit i = true ↔ asked.testBit i = true ∨ i ∈ cores := by
  induction cores generalizing asked with
  | nil => exact ⟨asked, rfl, fun i => by simp⟩
  | cons cpu cores ih =>
    obtain ⟨asked', hmask, hbits⟩ := ih (asked ||| 2 ^ cpu) fun c hc =>
      h c (mem_cons_of_mem _ hc)
    refine ⟨asked', by rw [mask, if_pos (h cpu mem_cons_self), hmask], fun i => ?_⟩
    rw [hbits, testBit_flushed, mem_cons, or_assoc]

theorem begin_new {epoch : Nat} {cores : List Nat} (h : ∀ cpu ∈ cores, cpu < LIMIT)
    (hepoch : 0 < epoch) (hne : cores ≠ []) :
    ∃ s, new.begin epoch cores = .ok s ∧ s.epoch = some epoch ∧ s.flushed = 0
      ∧ ∀ i, s.asked.testBit i = true ↔ i ∈ cores := by
  obtain ⟨asked, hmask, hbits⟩ := mask_spec 0 h
  simp only [Nat.zero_testBit, Bool.false_eq_true, false_or] at hbits
  obtain ⟨cpu, hcpu⟩ := exists_mem_of_ne_nil _ hne
  have hasked : asked ≠ 0 := by
    rintro rfl
    simpa using (hbits cpu).mpr hcpu
  refine ⟨⟨asked, 0, some epoch, 0, 0⟩, ?_, rfl, rfl, hbits⟩
  rw [begin, if_neg (by simp [new]), if_neg (by simp [new]; omega), hmask]
  exact if_neg hasked

theorem acknowledge_spec {s : Shootdown} {epoch cpu : Nat} {left : List Nat}
    (hepoch : s.epoch = some epoch) (hcpu : cpu < LIMIT) (hfresh : cpu ∉ left)
    (howed : ∀ i ∈ left, ¬ s.flushed.testBit i = true)
    (hbits : ∀ i, s.asked.testBit i = true ↔ s.flushed.testBit i = true ∨ i ∈ cpu :: left) :
    ∃ r s', s.acknowledge cpu = .ok (r, s') ∧ s'.asked = s.asked
      ∧ s'.flushed = s.flushed ||| 2 ^ cpu
      ∧ ((r = none ∧ s'.epoch = some epoch ∧ left ≠ []) ∨ (r = some epoch ∧ left = [])) := by
  have hin : s.inRound cpu = true := by
    simp [inRound, hcpu, (hbits cpu).mpr (.inr mem_cons_self)]
  have hiff : s.flushed ||| 2 ^ cpu = s.asked ↔ left = [] := by
    constructor
    · intro heq
      by_contra hne
      obtain ⟨i, hi⟩ := exists_mem_of_ne_nil _ hne
      have hbit := (hbits i).mpr (.inr (mem_cons_of_mem _ hi))
      rw [← heq, testBit_flushed] at hbit
      rcases hbit with hbit | rfl
      · exact howed i hi hbit
      · exact hfresh hi
    · rintro rfl
      refine Nat.eq_of_testBit_eq fun i => Bool.eq_iff_iff.mpr ?_
      rw [hbits, testBit_flushed, mem_singleton]
  rw [acknowledge, hepoch]
  dsimp only
  rw [if_pos hin]
  by_cases hlast : s.flushed ||| 2 ^ cpu = s.asked
  · rw [if_neg (not_not.mpr hlast)]
    exact ⟨_, _, rfl, rfl, rfl, .inr ⟨rfl, hiff.mp hlast⟩⟩
  · rw [if_pos hlast]
    exact ⟨_, _, rfl, rfl, rfl, .inl ⟨rfl, rfl, fun h => hlast (hiff.mpr h)⟩⟩

end Shootdown

namespace Recycle

-- == the condition

/-- No core reports between the two looks at its slot, every task sent is
taken, and the ask does not run out of ticks while a core owes its answer. -/
def Meets (m : Recycle) : Event → Prop
  | .own accepted =>
    match m.place with
    | .asking index => m.peer index = true → accepted = true
    | _ => True
  | .attach cpu =>
    match m.place with
    | .attending index _ => cpu < index → m.ready cpu = true
    | .asking index => index ≤ cpu → m.ready cpu = true
    | _ => True
  | .answer _ => True
  | .timeout => m.asked.length ≤ m.answers.length

def MeetsAll (m : Recycle) : List Event → Prop
  | [] => True
  | e :: events => m.Meets e ∧ (m.step e).MeetsAll events

-- == the property

/-- A bound on the steps the recycling core has left. -/
def left (m : Recycle) : Nat :=
  let n := m.slots.length
  match m.place with
  | .attending index _ => (n - index) + 2 * n + 6
  | .asking index => (n - index) + n + 5
  | .waiting => n + 4
  | .closing flushed _ => flushed.length + 1
  | .retired _ | .panicked _ => 0

/-- Nothing has panicked, the epoch is retired only when every core that
`flush` found has flushed, and until then the recycling core goes on or waits
for a core that has not answered. -/
structure Sure (m : Recycle) : Prop where
  fine : ∀ why, m.place ≠ .panicked why
  safe : ∀ e, m.place = .retired e →
    e = m.epoch ∧ m.here ∈ m.flushed ∧ ∀ cpu ∈ m.found, cpu ∈ m.flushed
  goes : (∃ e, m.place = .retired e)
    ∨ (m.place = .waiting ∧ ∃ cpu ∈ m.asked, cpu ∉ m.answers)
    ∨ ∀ accepted, (m.own accepted).left < m.left

-- == the invariant

section Invariant

variable {m : Recycle}

def Answered (m : Recycle) : Prop := ∀ cpu ∈ m.asked, cpu ∈ m.answers

/-- What the recycling core knows at each place. -/
def Knows (m : Recycle) : Place → Prop
  | .attending index cores => m.round = .new ∧ m.asked = [] ∧ index ≤ m.slots.length
      ∧ ∀ i, i ∈ cores ↔ i = m.here ∨ (i < index ∧ m.peer i = true)
  | .asking index => (m.round.epoch = some m.epoch ∧ m.round.flushed = 0)
      ∧ (m.round.asked.testBit m.here = true ∧ m.here ∈ m.flushed)
      ∧ (∀ i, i ∈ m.asked ↔ i < index ∧ i ≠ m.here ∧ m.round.asked.testBit i = true)
      ∧ ∀ i, index ≤ i → (m.peer i = true ↔ i ≠ m.here ∧ m.round.asked.testBit i = true)
  | .waiting => (m.round.epoch = some m.epoch ∧ m.round.flushed = 0)
      ∧ (m.round.asked.testBit m.here = true ∧ m.here ∈ m.flushed)
      ∧ ∀ i, i ∈ m.asked ↔ i ≠ m.here ∧ m.round.asked.testBit i = true
  | .closing flushed retirable => (m.Answered ∧ m.here ∈ m.flushed)
      ∧ flushed.Nodup ∧ (∀ i ∈ flushed, i < m.slots.length ∧ ¬ m.round.flushed.testBit i = true)
      ∧ (∀ i, m.round.asked.testBit i = true ↔ m.round.flushed.testBit i = true ∨ i ∈ flushed)
      ∧ ((retirable = none ∧ m.round.epoch = some m.epoch ∧ flushed ≠ [])
        ∨ (retirable = some m.epoch ∧ flushed = []))
  | .retired e => e = m.epoch ∧ m.Answered ∧ m.here ∈ m.flushed
  | .panicked _ => False

structure Asks (cores here : Nat) (asked answers flushed : List Nat) : Prop where
  once : asked.Nodup
  peers : ∀ cpu ∈ asked, cpu < cores ∧ cpu ≠ here
  answered : answers.Nodup
  among : answers ⊆ asked
  swept : answers ⊆ flushed

structure Inv (m : Recycle) : Prop where
  wide : m.slots.length ≤ Shootdown.LIMIT
  here : m.here < m.slots.length
  epoch : 0 < m.epoch
  found : m.found = m.asked
  asks : Asks m.slots.length m.here m.asked m.answers m.flushed
  knows : m.Knows m.place

theorem peer_iff {i : Nat} : m.peer i = true ↔ i ≠ m.here ∧ m.ready i = true := by
  simp [peer]

theorem lt_of_peer {i : Nat} (h : m.peer i = true) : i < m.slots.length := by
  by_contra hge
  simp [peer, ready, getElem?_eq_none (Nat.le_of_not_lt hge)] at h

theorem nodup_snoc {l : List Nat} {i : Nat} (h : l.Nodup) (hi : i ∉ l) : (l ++ [i]).Nodup := by
  rw [nodup_append]
  refine ⟨h, by simp, fun a ha b hb heq => hi ?_⟩
  rwa [← mem_singleton.mp hb, ← heq]

theorem Inv.start {slots : List Bool} {here epoch : Nat} (hwide : slots.length ≤ 64)
    (hhere : here < slots.length) (hepoch : 0 < epoch) : Inv (start slots here epoch) :=
  ⟨hwide, hhere, hepoch, rfl, ⟨by simp [Recycle.start], by simp [Recycle.start],
    by simp [Recycle.start], by simp [Recycle.start], by simp [Recycle.start]⟩, rfl, rfl,
    Nat.zero_le _, by simp [Recycle.start]⟩

-- -- the recycling core

theorem Inv.close (h : Inv m) (hwait : m.place = .waiting)
    (hlen : m.asked.length ≤ m.answers.length) : Inv m.close := by
  have hsub := h.asks.answered.subperm h.asks.among
  have hall : m.Answered := fun i => (hsub.perm_of_length_le hlen).mem_iff.mpr
  have hknows := h.knows
  rw [hwait] at hknows
  obtain ⟨⟨hopen, hzero⟩, ⟨hhere, hself⟩, hasked⟩ := hknows
  rw [Recycle.close, if_pos (by rw [Nat.le_antisymm hsub.length_le hlen])]
  refine { h with
    knows := ⟨⟨hall, hself⟩, ?_, ?_, ?_, .inl ⟨rfl, hopen, cons_ne_nil _ _⟩⟩ }
  · exact nodup_cons.mpr ⟨fun hmem => (h.asks.peers _ (h.asks.among hmem)).2 rfl, h.asks.answered⟩
  · intro i hi
    refine ⟨?_, by simp [show m.round.flushed = 0 from hzero]⟩
    rcases mem_cons.mp hi with rfl | hi
    · exact h.here
    · exact (h.asks.peers i (h.asks.among hi)).1
  · intro i
    have hin : i ∈ m.answers ↔ i ∈ m.asked := ⟨fun hi => h.asks.among hi, hall i⟩
    simp only [show m.round.flushed = 0 from hzero, Nat.zero_testBit, mem_cons, hin, hasked]
    grind

theorem Inv.attending (h : Inv m) {index : Nat} {cores : List Nat}
    (hplace : m.place = .attending index cores) (accepted : Bool) : Inv (m.own accepted) := by
  have hknows := h.knows
  rw [hplace] at hknows
  obtain ⟨hround, hnone, hle, hcores⟩ := hknows
  rw [own, hplace]
  dsimp only
  split
  · rename_i hlt
    refine { h with knows := ⟨hround, hnone, hlt, fun i => ?_⟩ }
    show _ ↔ i = m.here ∨ (i < index + 1 ∧ m.peer i = true)
    have hi := hcores i
    split
    · rw [mem_append, mem_singleton]
      grind
    · grind
  · rw [hround]
    have hwide : ∀ cpu ∈ cores, cpu < Shootdown.LIMIT := by
      intro cpu hcpu
      have := h.wide
      have := h.here
      rcases (hcores cpu).mp hcpu with rfl | ⟨hi, -⟩ <;> omega
    have hself : m.here ∈ cores := (hcores _).mpr (.inl rfl)
    obtain ⟨s, hbegin, hepoch, hzero, hbits⟩ := Shootdown.begin_new hwide h.epoch
      (ne_nil_of_mem hself)
    rw [hbegin]
    have hpending : s.pending m.here = true := by
      simp [Shootdown.pending, Shootdown.inRound, Shootdown.hasFlushed, hepoch, hzero,
        (hbits _).mpr hself, hwide _ hself]
    dsimp only
    rw [if_pos hpending]
    have hempty : m.answers = [] := subset_nil.mp (hnone ▸ h.asks.among)
    refine { h with
      asks := { h.asks with swept := by simp [hempty] }
      knows := ⟨⟨hepoch, hzero⟩, ⟨(hbits _).mpr hself, mem_singleton.mpr rfl⟩,
        by simp [hnone], fun i _ => ?_⟩ }
    show m.peer i = true ↔ i ≠ m.here ∧ s.asked.testBit i = true
    have hi := hcores i
    have hlt' : m.peer i = true → i < m.slots.length := lt_of_peer
    have hp := peer_iff (m := m) (i := i)
    rw [hbits]
    grind

theorem Inv.asking (h : Inv m) {index : Nat} (hplace : m.place = .asking index)
    {accepted : Bool} (hmeets : m.Meets (.own accepted)) : Inv (m.own accepted) := by
  have hknows := h.knows
  rw [hplace] at hknows
  obtain ⟨hopen, hself, hasked, hahead⟩ := hknows
  simp only [Meets, hplace] at hmeets
  rw [own, hplace]
  dsimp only
  split
  · rename_i hlt
    have hnow := hahead index (Nat.le_refl _)
    split
    · rename_i hp
      rw [hmeets hp]
      have hnew : index ∉ m.asked := fun hi => Nat.lt_irrefl _ ((hasked _).mp hi).1
      refine { h with
        found := by simp [h.found]
        asks := { h.asks with
          once := nodup_snoc h.asks.once hnew
          peers := fun cpu hcpu => ?_
          among := fun i hi => mem_append_left _ (h.asks.among hi) }
        knows := ⟨hopen, hself, fun i => ?_, fun i hi => hahead i (by omega)⟩ }
      · rcases mem_append.mp hcpu with hcpu | hcpu
        · exact h.asks.peers cpu hcpu
        · rw [mem_singleton.mp hcpu]
          exact ⟨hlt, (hnow.mp hp).1⟩
      · show i ∈ m.asked ++ [index] ↔ _
        rw [mem_append, hasked, mem_singleton]
        grind
    · refine { h with knows := ⟨hopen, hself, fun i => ?_, fun i hi => hahead i (by omega)⟩ }
      show i ∈ m.asked ↔ _
      rw [hasked]
      grind
  · refine { h with knows := ⟨hopen, hself, fun i => ?_⟩ }
    show i ∈ m.asked ↔ _
    have hlt' : m.peer i = true → i < m.slots.length := lt_of_peer
    have hi := hahead i
    rw [hasked]
    grind

theorem Inv.closing (h : Inv m) {flushed : List Nat} {retirable : Option Nat}
    (hplace : m.place = .closing flushed retirable) (accepted : Bool) :
    Inv (m.own accepted) := by
  have hknows := h.knows
  rw [hplace] at hknows
  obtain ⟨hall, hnodup, howed, hbits, hend⟩ := hknows
  rw [own, hplace]
  rcases hend with ⟨rfl, hepoch, hne⟩ | ⟨rfl, rfl⟩
  · cases flushed with
    | nil => exact absurd rfl hne
    | cons cpu rest =>
      obtain ⟨hfresh, hrest⟩ := nodup_cons.mp hnodup
      obtain ⟨hcpu, -⟩ := howed cpu mem_cons_self
      obtain ⟨r, s, hack, hasked, hflushed, hr⟩ := Shootdown.acknowledge_spec hepoch
        (Nat.lt_of_lt_of_le hcpu h.wide) hfresh
        (fun i hi => (howed i (mem_cons_of_mem _ hi)).2) hbits
      dsimp only
      rw [if_neg (by simp), hack]
      refine { h with knows := ⟨hall, hrest, fun i hi => ?_, fun i => ?_, hr⟩ }
      · obtain ⟨hlt, hbit⟩ := howed i (mem_cons_of_mem _ hi)
        refine ⟨hlt, ?_⟩
        show ¬ s.flushed.testBit i = true
        rw [hflushed, Shootdown.testBit_flushed]
        grind
      · show s.asked.testBit i = true ↔ s.flushed.testBit i = true ∨ i ∈ rest
        rw [hasked, hbits, hflushed, Shootdown.testBit_flushed, mem_cons, or_assoc]
  · dsimp only
    rw [if_pos rfl]
    exact { h with knows := ⟨rfl, hall⟩ }

theorem Inv.own (h : Inv m) {accepted : Bool} (hmeets : m.Meets (.own accepted)) :
    Inv (m.own accepted) := by
  cases hplace : m.place with
  | attending index cores => exact h.attending hplace accepted
  | asking index => exact h.asking hplace hmeets
  | waiting =>
    rw [Recycle.own, hplace]
    dsimp only
    split
    · exact h.close hplace ‹_›
    · exact h
  | closing flushed retirable => exact h.closing hplace accepted
  | retired | panicked =>
    rw [Recycle.own, hplace]
    exact h

-- -- the other cores

theorem peer_attach {cpu i : Nat} (h : i = cpu → m.ready i = true) :
    (m.step (.attach cpu)).peer i = true ↔ m.peer i = true := by
  rw [peer_iff, peer_iff]
  refine and_congr_right fun _ => ?_
  show (m.slots.set cpu true).getD i false = true ↔ m.slots.getD i false = true
  simp only [ready, getD_eq_getElem?_getD, getElem?_set] at h ⊢
  grind

theorem Inv.attach (h : Inv m) {cpu : Nat} (hmeets : m.Meets (.attach cpu)) :
    Inv (m.step (.attach cpu)) := by
  have hlen : (m.step (.attach cpu)).slots.length = m.slots.length := length_set ..
  refine ⟨hlen ▸ h.wide, hlen ▸ h.here, h.epoch, h.found, hlen ▸ h.asks, ?_⟩
  have hknows := h.knows
  show Knows (m.step (.attach cpu)) m.place
  unfold Meets at hmeets
  generalize m.place = place at hknows hmeets ⊢
  cases place with
  | attending index cores =>
    obtain ⟨hround, hnone, hle, hcores⟩ := hknows
    refine ⟨hround, hnone, hlen ▸ hle, fun i => (hcores i).trans (or_congr_right ?_)⟩
    exact and_congr_right fun hi => (peer_attach fun heq => heq ▸ hmeets (heq ▸ hi)).symm
  | asking index =>
    obtain ⟨hopen, hself, hasked, hahead⟩ := hknows
    exact ⟨hopen, hself, hasked, fun i hi =>
      (peer_attach fun heq => heq ▸ hmeets (heq ▸ hi)).trans (hahead i hi)⟩
  | closing flushed retirable =>
    obtain ⟨hall, hnodup, howed, hrest⟩ := hknows
    exact ⟨hall, hnodup, hlen ▸ howed, hrest⟩
  | _ =>
    exact hknows

theorem Inv.answer (h : Inv m) (cpu : Nat) : Inv (m.step (.answer cpu)) := by
  rw [step]
  split
  · rename_i hcpu
    refine { h with
      asks := { h.asks with
        answered := nodup_snoc h.asks.answered hcpu.2
        among := append_subset.mpr ⟨h.asks.among, by simpa using hcpu.1⟩
        swept := append_subset.mpr ⟨fun i hi => mem_append_left _ (h.asks.swept hi), by simp⟩ }
      knows := ?_ }
    have hknows := h.knows
    show Knows _ m.place
    generalize m.place = place at hknows ⊢
    cases place with
    | attending index cores =>
      exact absurd hcpu.1 (by simp [hknows.2.1])
    | closing flushed retirable =>
      exact absurd (hknows.1.1 cpu hcpu.1) hcpu.2
    | retired e =>
      exact absurd (hknows.2.1 cpu hcpu.1) hcpu.2
    | panicked why =>
      exact hknows
    | _ =>
      obtain ⟨hopen, ⟨hbit, hself⟩, hrest⟩ := hknows
      exact ⟨hopen, ⟨hbit, mem_append_left _ hself⟩, hrest⟩
  · exact h

theorem Inv.run (h : Inv m) (events : List Event) (hmeets : m.MeetsAll events) :
    Inv (m.run events) := by
  induction events generalizing m with
  | nil => exact h
  | cons e events ih =>
    refine ih ?_ hmeets.2
    cases e with
    | own accepted => exact h.own hmeets.1
    | attach cpu => exact h.attach hmeets.1
    | answer cpu => exact h.answer cpu
    | timeout =>
      rw [step]
      split
      · exact h.close ‹_› hmeets.1
      · exact h

-- == progress

theorem Inv.answers_lt (h : Inv m) : m.answers.length < m.slots.length := by
  have hnodup : (m.here :: m.answers).Nodup := nodup_cons.mpr
    ⟨fun hi => (h.asks.peers _ (h.asks.among hi)).2 rfl, h.asks.answered⟩
  have hsub : m.here :: m.answers ⊆ List.range m.slots.length := by
    intro i hi
    rw [mem_range]
    rcases mem_cons.mp hi with rfl | hi
    · exact h.here
    · exact (h.asks.peers i (h.asks.among hi)).1
  have := (hnodup.subperm hsub).length_le
  rwa [length_range] at this

theorem Inv.goes (h : Inv m) (hgoes : ∀ e, m.place ≠ .retired e)
    (hdue : m.place = .waiting → m.asked.length ≤ m.answers.length) (accepted : Bool) :
    (m.own accepted).left < m.left := by
  have hlt := h.answers_lt
  have hknows := h.knows
  rw [Recycle.own]
  cases hplace : m.place with
  | waiting =>
    dsimp only
    rw [if_pos (hdue hplace), Recycle.close]
    split
    all_goals simp only [left, hplace, length_cons]; omega
  | closing flushed retirable =>
    rw [hplace] at hknows
    rcases hknows.2.2.2.2 with ⟨rfl, -, hne⟩ | ⟨rfl, rfl⟩
    · cases flushed with
      | nil => exact absurd rfl hne
      | cons cpu rest =>
        dsimp only
        repeat' split
        all_goals simp [left, hplace]
    · simp [left, hplace]
  | retired e => exact absurd hplace (hgoes e)
  | panicked why =>
    rw [hplace] at hknows
    exact hknows.elim
  | _ =>
    dsimp only
    repeat' split
    all_goals simp only [left, hplace]; omega

theorem Inv.sure (h : Inv m) : Sure m := by
  have hknows := h.knows
  refine ⟨fun why hplace => by rwa [hplace] at hknows, fun e hplace => ?_, ?_⟩
  · rw [hplace] at hknows
    refine ⟨hknows.1, hknows.2.2, fun cpu hcpu => h.asks.swept (hknows.2.1 cpu ?_)⟩
    rwa [← h.found]
  · by_cases hret : ∃ e, m.place = .retired e
    · exact .inl hret
    · by_cases hdue : m.place = .waiting ∧ ∃ cpu ∈ m.asked, cpu ∉ m.answers
      · exact .inr (.inl hdue)
      · refine .inr (.inr (h.goes (fun e he => hret ⟨e, he⟩) fun hwait => ?_))
        refine (h.asks.once.subperm fun cpu hcpu => ?_).length_le
        by_contra hnot
        exact hdue ⟨hwait, cpu, hcpu, hnot⟩

end Invariant

/-- Whatever the table, the recycling core and the epoch are, and whenever
the others report and answer: as long as no core reports between the two
looks at its slot and every task sent is taken, `recycle` does not panic,
retires only what every core found by `flush` has flushed, and finishes once
the cores it asked have answered. -/
theorem late_core_joins_the_next_round (slots : List Bool) (here epoch : Nat)
    (hwide : slots.length ≤ 64) (hhere : here < slots.length) (hepoch : 0 < epoch)
    (events : List Event) (hmeets : (start slots here epoch).MeetsAll events) :
    Sure ((start slots here epoch).run events) :=
  ((Inv.start hwide hhere hepoch).run events hmeets).sure

/-- The second core reports just before the first look, and is flushed. -/
theorem late_core_joins_the_next_round_two :
    let m := (start [true, false] 0 1).run [.own true, .attach 1, .own true, .own true, .own true,
      .own true, .answer 1, .own true, .own true, .own true, .own true, .own true]
    m.place = .retired 1 ∧ ∀ cpu ∈ m.found, cpu ∈ m.flushed :=
  ⟨by decide, ((late_core_joins_the_next_round [true, false] 0 1 (by decide) (by decide) (by decide)
    [.own true, .attach 1, .own true, .own true, .own true, .own true, .answer 1, .own true,
      .own true, .own true, .own true, .own true]
    ⟨trivial, fun h => absurd h (by decide), trivial, trivial, fun _ => rfl, fun _ => rfl, trivial,
      fun _ => rfl, trivial, trivial, trivial, trivial, trivial⟩).safe 1 (by decide)).2.2⟩

/-- The second core reports between the two looks: it is asked, flushes and
answers, and the round it was not opened over has closed before its turn. -/
theorem late_core_panics_the_kernel :
    let m := (start [true, false] 0 1).run [.own true, .own true, .own true, .attach 1, .own true,
      .own true, .own true, .answer 1, .own true, .own true, .own true]
    m.Answered ∧ m.place = .panicked .closedEarly :=
  ⟨by unfold Answered; decide, by decide⟩

end Recycle

end Molt.Kernel
