/-
Deadlines fire on time.

# Where a timer sits

`Fits now d b` says when bucket `b` may hold a timer due at `d`: the bucket
is the one of its level that covers `d`, and `d` is in a later block of that
level, at most one turn of it ahead. `Due` adds that the deadline is still to
come. A step moves `now` by one: where a level wraps, the bucket it comes to
holds exactly the timers of the block that begins (`Mid`), and they fit below.

# What is handed out

`pending` is what the filed timers would wake, with their deadlines. Firing
takes from it, refiling does not touch it.
-/
import Molt.Lib.Slots
import Molt.Rt.Proofs.Wheel

namespace Molt.Rt

open Molt.Lib List Multiset Wheel

variable {ω : Type}

-- == places

def block (level t : Nat) : Nat := t / 2 ^ (BITS * level)

theorem block_zero (t : Nat) : block 0 t = t := Nat.div_one t

theorem block_one (t : Nat) : block 1 t = t / 64 := rfl

theorem block_two (t : Nat) : block 2 t = t / 4096 := rfl

theorem block_three (t : Nat) : block 3 t = t / 262144 := rfl

theorem bucketAt_eq (level t : Nat) : bucketAt level t = level * 64 + block level t % 64 := rfl

theorem bucketAt_level (level t : Nat) : bucketAt level t / SLOTS = level := by
  rw [bucketAt_eq]
  show (level * 64 + block level t % 64) / 64 = level
  omega

structure Fits (now b d : Nat) : Prop where
  level : b / SLOTS < LEVELS
  bucket : b = bucketAt (b / SLOTS) d
  reached : now ≤ d
  near : d < now + HORIZON
  soon : b / SLOTS = 0 → d < now + SLOTS
  ahead : 0 < b / SLOTS → block (b / SLOTS) now < block (b / SLOTS) d
  within : block (b / SLOTS) d ≤ block (b / SLOTS) now + SLOTS

/-- The bucket may hold it, and it is still to come. -/
def Due (now b d : Nat) : Prop := Fits now b d ∧ now < d

theorem levelOf_cases (delta : Nat) (h : delta < HORIZON) :
    (levelOf delta = 0 ∧ delta < 64)
      ∨ (levelOf delta = 1 ∧ 64 ≤ delta ∧ delta < 4096)
      ∨ (levelOf delta = 2 ∧ 4096 ≤ delta ∧ delta < 262144)
      ∨ (levelOf delta = 3 ∧ 262144 ≤ delta) := by
  have hrange : List.range LEVELS = [0, 1, 2, 3] := by decide
  unfold levelOf
  rw [hrange]
  simp only [BITS, List.find?]
  by_cases h0 : delta < 64
  · exact .inl ⟨by simp [h0], h0⟩
  by_cases h1 : delta < 4096
  · exact .inr (.inl ⟨by simp [h0, h1], by omega, h1⟩)
  by_cases h2 : delta < 262144
  · exact .inr (.inr (.inl ⟨by simp [h0, h1, h2], by omega, h2⟩))
  · have h3 : delta < 16777216 := h
    exact .inr (.inr (.inr ⟨by simp [h0, h1, h2, h3], by omega⟩))

theorem place_fits {now d : Nat} (hle : now ≤ d) (hnear : d < now + HORIZON) :
    Fits now (bucketAt (levelOf (d - now)) d) d := by
  have hH : HORIZON = 16777216 := by decide
  have hlevel := bucketAt_level (levelOf (d - now)) d
  have hcases := levelOf_cases (d - now) (by omega)
  generalize hk : levelOf (d - now) = k at hlevel hcases ⊢
  refine ⟨?_, ?_, hle, hnear, ?_, ?_, ?_⟩
  · rw [hlevel]
    show k < 4
    omega
  · rw [hlevel]
  · rw [hlevel]
    show k = 0 → d < now + 64
    omega
  · rw [hlevel]
    rcases hcases with ⟨rfl, h⟩ | ⟨rfl, h, h'⟩ | ⟨rfl, h, h'⟩ | ⟨rfl, h⟩
    · intro h0
      omega
    · rw [block_one, block_one]
      omega
    · rw [block_two, block_two]
      omega
    · rw [block_three, block_three]
      omega
  · rw [hlevel]
    show block k d ≤ block k now + 64
    rcases hcases with ⟨rfl, h⟩ | ⟨rfl, h, h'⟩ | ⟨rfl, h, h'⟩ | ⟨rfl, h⟩
    · rw [block_zero, block_zero]
      omega
    · rw [block_one, block_one]
      omega
    · rw [block_two, block_two]
      omega
    · rw [block_three, block_three]
      omega

theorem Fits.lt_buckets {now b d : Nat} (h : Fits now b d) : b < BUCKETS := by
  have hlevel : b / 64 < 4 := h.level
  show b < 256
  omega

-- -- one tick

/-- Inside a step to `now + 1`: the levels below `k` fit the new tick. -/
def Mid (now k b d : Nat) : Prop :=
  (b / SLOTS < k → Fits (now + 1) b d) ∧ (k ≤ b / SLOTS → Due now b d)

/-- The lowest level has no blocks to wait for. -/
theorem Due.mid {now b d : Nat} (h : Due now b d) : Mid now 1 b d := by
  obtain ⟨hfits, hlt⟩ := h
  refine ⟨?_, fun _ => ⟨hfits, hlt⟩⟩
  intro hlevel
  have h0 : b / SLOTS = 0 := Nat.lt_one_iff.mp hlevel
  refine ⟨hfits.level, hfits.bucket, hlt, ?_, ?_, ?_, ?_⟩
  · have := hfits.near
    omega
  · intro _
    have := hfits.soon h0
    omega
  · omega
  · have := hfits.within
    rw [h0, block_zero, block_zero] at this ⊢
    omega

/-- The tick begins a block of each of the levels up to `k`. -/
def Begins (k now : Nat) : Prop := now % 2 ^ (BITS * k) = 0

theorem begins_succ {k now : Nat} : Begins (k + 1) now
    ↔ Begins k now ∧ now / 2 ^ (BITS * k) % SLOTS = 0 := by
  have hpow : 2 ^ (BITS * (k + 1)) = 2 ^ (BITS * k) * SLOTS := by
    rw [Nat.mul_succ, Nat.pow_add]
    rfl
  unfold Begins
  rw [hpow, Nat.mod_mul]
  constructor
  · intro h
    obtain ⟨hlow, hhigh⟩ := Nat.add_eq_zero_iff.mp h
    refine ⟨hlow, ?_⟩
    rcases Nat.mul_eq_zero.mp hhigh with hzero | hzero
    · omega
    · exact hzero
  · rintro ⟨hlow, hhigh⟩
    rw [hlow, hhigh]
    rfl

theorem block_same {k now : Nat} (hk : k < LEVELS) (hb : ¬ Begins k (now + 1)) {level : Nat}
    (hlevel : k ≤ level) (hlt : level < LEVELS) : block level (now + 1) = block level now := by
  have hL : LEVELS = 4 := rfl
  unfold Begins at hb
  have hcases : level = 0 ∨ level = 1 ∨ level = 2 ∨ level = 3 := by omega
  have hkcases : k = 0 ∨ k = 1 ∨ k = 2 ∨ k = 3 := by omega
  rcases hcases with rfl | rfl | rfl | rfl <;> rcases hkcases with rfl | rfl | rfl | rfl <;>
    simp only [BITS, block_zero, block_one, block_two, block_three] at hb ⊢ <;> omega

/-- A level that does not wrap fits the new tick as it is, with those above. -/
theorem Mid.still {now k b d : Nat} (h : Mid now k b d) (hb : ¬ Begins k (now + 1))
    (hlt : b / SLOTS < LEVELS) (hk : 0 < k) : Fits (now + 1) b d := by
  by_cases hlevel : b / SLOTS < k
  · exact h.1 hlevel
  obtain ⟨hfits, hd⟩ := h.2 (by omega)
  have hsame := block_same (Nat.lt_of_le_of_lt (by omega) hlt) hb (by omega) hlt
  refine ⟨hfits.level, hfits.bucket, hd, ?_, ?_, ?_, ?_⟩
  · have := hfits.near
    omega
  · omega
  · rw [hsame]
    exact hfits.ahead
  · rw [hsame]
    exact hfits.within

theorem block_begins {k now : Nat} (hk : k < LEVELS) (hb : Begins k (now + 1)) :
    block k (now + 1) = block k now + 1 := by
  have hL : LEVELS = 4 := rfl
  unfold Begins at hb
  have hcases : k = 0 ∨ k = 1 ∨ k = 2 ∨ k = 3 := by omega
  rcases hcases with rfl | rfl | rfl | rfl <;>
    simp only [BITS, block_zero, block_one, block_two, block_three] at hb ⊢ <;> omega

/-- Where a level wraps, the timers of the bucket it comes to are those of the
block that begins. -/
theorem Mid.wraps {now k d : Nat} (hk : 0 < k) (hlt : k < LEVELS)
    (hb : Begins k (now + 1)) (h : Mid now k (bucketAt k (now + 1)) d) :
    block k d = block k (now + 1) ∧ now + 1 ≤ d ∧ d < now + 1 + HORIZON := by
  have hlevel := bucketAt_level k (now + 1)
  obtain ⟨hfits, hd⟩ := h.2 (Nat.le_of_eq hlevel.symm)
  have hsame := hfits.bucket
  have hahead := hfits.ahead
  have hwithin := hfits.within
  have hnear := hfits.near
  have hnext := block_begins hlt hb
  rw [hlevel] at hsame hahead hwithin
  rw [bucketAt_eq, bucketAt_eq] at hsame
  have hS : SLOTS = 64 := rfl
  refine ⟨?_, hd, ?_⟩
  · omega
  · omega

theorem Mid.passed {now k b d : Nat} (hk : 0 < k) (hlt : k < LEVELS)
    (hb : Begins k (now + 1)) (hne : b ≠ bucketAt k (now + 1)) (h : Mid now k b d) :
    Mid now (k + 1) b d := by
  refine ⟨?_, fun hlevel => h.2 (by omega)⟩
  intro hlevel
  by_cases hbelow : b / SLOTS < k
  · exact h.1 hbelow
  have hbk : b / SLOTS = k := by omega
  obtain ⟨hfits, hd⟩ := h.2 (by omega)
  have hsame := hfits.bucket
  have hahead := hfits.ahead
  have hwithin := hfits.within
  have hnext := block_begins hlt hb
  rw [hbk] at hsame hahead hwithin
  rw [hsame, bucketAt_eq, bucketAt_eq] at hne
  refine ⟨hfits.level, hfits.bucket, hd, ?_, ?_, ?_, ?_⟩
  · have := hfits.near
    omega
  · omega
  · rw [hbk]
    intro _
    by_cases heq : block k d = block k (now + 1)
    · rw [heq] at hne
      exact absurd rfl hne
    · omega
  · rw [hbk]
    omega

theorem block_place {now k d : Nat} (hk : 0 < k) (hlt : k < LEVELS) (hb : Begins k now)
    (heq : block k d = block k now) (hle : now ≤ d) (hnear : d < now + HORIZON) :
    levelOf (d - now) < k := by
  have hL : LEVELS = 4 := rfl
  have hcases := levelOf_cases (d - now) (by omega)
  unfold Begins at hb
  have hkcases : k = 1 ∨ k = 2 ∨ k = 3 := by omega
  rcases hkcases with rfl | rfl | rfl <;>
    simp only [BITS, block_one, block_two, block_three] at hb heq <;> omega

-- == the wheel

/-- What a node tells its sleeper: when it is due, whom it wakes, and whether
it has fired. -/
def Node.core (n : Node ω) : Nat × Option ω × Bool := (n.deadline, n.waker, n.fired)

/-- Whom a filed timer will wake, and when. -/
def Node.pending (n : Node ω) : Option (Nat × ω) :=
  if n.fired then none else n.waker.map fun waker => (n.deadline, waker)

namespace Wheel

def deadline (w : Wheel ω) (i : Nat) : Nat := (w.node i).deadline

/-- Whom the filed timers will wake, and when. -/
def pending (w : Wheel ω) : Multiset (Nat × ω) := entries (w.nodes.map Node.pending)

/-- Every filed timer is where `P` allows. -/
def All (w : Wheel ω) (P : Nat → Nat → Prop) : Prop :=
  ∀ i < w.nodes.length, w.bucket i ≠ NONE → P (w.bucket i) (w.deadline i)

structure Same (w w' : Wheel ω) : Prop where
  now : w'.now = w.now
  length : w'.nodes.length = w.nodes.length
  core : ∀ i, (w'.node i).core = (w.node i).core

variable {w w' w'' : Wheel ω}

theorem Same.refl (w : Wheel ω) : w.Same w := ⟨rfl, rfl, fun _ => rfl⟩

theorem Same.trans (h : w.Same w') (h' : w'.Same w'') : w.Same w'' :=
  ⟨h'.now.trans h.now, h'.length.trans h.length, fun i => (h'.core i).trans (h.core i)⟩

theorem Same.deadline (h : w.Same w') (i : Nat) : w'.deadline i = w.deadline i :=
  congrArg Prod.fst (h.core i)

theorem Same.fired (h : w.Same w') (i : Nat) : (w'.node i).fired = (w.node i).fired :=
  congrArg (fun x => x.2.2) (h.core i)

theorem fired_iff (w : Wheel ω) (i : Nat) : (w.node i).fired = true ↔ w.bucket i = NONE := by
  exact beq_iff_eq

theorem node_getElem? {i : Nat} (hi : i < w.nodes.length) : w.nodes[i]? = some (w.node i) := by
  rw [node, getD_eq_getElem?_getD, getElem?_eq_getElem hi]
  rfl

theorem Same.pending (h : w.Same w') : w'.pending = w.pending := by
  unfold Wheel.pending
  congr 1
  apply ext_getElem?
  intro i
  rw [getElem?_map, getElem?_map]
  by_cases hi : i < w.nodes.length
  · rw [node_getElem? hi, node_getElem? (h.length ▸ hi)]
    have hc := h.core i
    obtain ⟨hd, hw, hf⟩ := Prod.mk.inj hc |>.imp_right Prod.mk.inj
    simp only [Option.map_some, Node.pending, hd, hw, hf]
  · have hout : w'.nodes.length ≤ i := by
      rw [h.length]
      omega
    rw [getElem?_eq_none hout, getElem?_eq_none (by omega)]

/-- What is no longer to be woken has been, and was due when `Q` allows. -/
def Handed (w w' : Wheel ω) (out out' : List ω) (Q : Nat → Prop) : Prop :=
  ∃ gone : Multiset (Nat × ω), (out' : Multiset ω) = out + gone.map Prod.snd
    ∧ w.pending = gone + w'.pending ∧ ∀ x ∈ gone, Q x.1

/-- Timers fire, and nothing else that a sleeper knows changes. -/
structure Fired (w w' : Wheel ω) (out out' : List ω) (Q : Nat → Prop) : Prop where
  now : w'.now = w.now
  length : w'.nodes.length = w.nodes.length
  deadline : ∀ i, w'.deadline i = w.deadline i
  handed : w.Handed w' out out' Q

section Handed

variable {out out' out'' : List ω} {Q Q' : Nat → Prop}

theorem Handed.imp (h : w.Handed w' out out' Q) (hQ : ∀ d, Q d → Q' d) :
    w.Handed w' out out' Q' := by
  obtain ⟨gone, hout, hpend, hgone⟩ := h
  exact ⟨gone, hout, hpend, fun x hx => hQ _ (hgone x hx)⟩

theorem Handed.trans (h : w.Handed w' out out' Q) (h' : w'.Handed w'' out' out'' Q) :
    w.Handed w'' out out'' Q := by
  obtain ⟨gone, hout, hpend, hgone⟩ := h
  obtain ⟨gone', hout', hpend', hgone'⟩ := h'
  refine ⟨gone + gone', ?_, ?_, fun x hx => (mem_add.mp hx).elim (hgone x) (hgone' x)⟩
  · rw [hout', hout, map_add, add_assoc]
  · rw [hpend, hpend', add_assoc]

theorem Fired.refl (w : Wheel ω) (out : List ω) (Q : Nat → Prop) : w.Fired w out out Q :=
  ⟨rfl, rfl, fun _ => rfl, 0, by simp, by simp, by simp⟩

theorem Fired.imp (h : w.Fired w' out out' Q) (hQ : ∀ d, Q d → Q' d) : w.Fired w' out out' Q' :=
  { h with handed := h.handed.imp hQ }

theorem Fired.trans (h : w.Fired w' out out' Q) (h' : w'.Fired w'' out' out'' Q) :
    w.Fired w'' out out'' Q :=
  ⟨h'.now.trans h.now, h'.length.trans h.length, fun i => (h'.deadline i).trans (h.deadline i),
    h.handed.trans h'.handed⟩

end Handed

end Wheel

-- -- loops

section Loops

variable {w : Wheel ω} {chains : Nat → List Nat} {pool limbo : List Nat} {b cursor : Nat}
  {P : Nat → Nat → Prop}

theorem node_cut {a : Nat} (ha : a < w.nodes.length) (i : Nat) : (w.cut a).2.node i
    = if i = a then { w.node a with bucket := NONE, prev := NONE, next := NONE }
      else w.node i := node_edit ha _ i

theorem core_link {a c : Nat} (ha : a < w.nodes.length)
    (hs : w.head c ≠ NONE → w.head c < w.nodes.length ∧ w.head c ≠ a) (i : Nat) :
    (w.link a c).bucket i = (if i = a then c else w.bucket i)
      ∧ (w.link a c).deadline i = w.deadline i
      ∧ ((w.link a c).node i).waker = (w.node i).waker := by
  unfold bucket deadline
  rw [node_link ha hs]
  by_cases hi : i = a
  · rw [if_pos hi, if_pos hi, hi]
    exact ⟨rfl, rfl, rfl⟩
  · rw [if_neg hi, if_neg hi]
    split
    · exact ⟨rfl, rfl, rfl⟩
    · exact ⟨rfl, rfl, rfl⟩

theorem now_link (w : Wheel ω) (a c : Nat) : (w.link a c).now = w.now := by
  unfold link
  dsimp only
  split
  · rfl
  · rfl

theorem Linked.move {a c : Nat} (h : Linked w chains pool b cursor (a :: limbo))
    (hempty : chains b = [])
    (hc : c = bucketAt (levelOf (w.deadline a - w.now)) (w.deadline a))
    (hlt : c < BUCKETS) (hne : c ≠ b) :
    ∃ chains', Linked ((w.cut a).2.place a) chains' pool b (w.cut a).1 limbo ∧ chains' b = []
      ∧ w.Same ((w.cut a).2.place a)
      ∧ ∀ i, ((w.cut a).2.place a).bucket i = if i = a then c else w.bucket i := by
  obtain ⟨ha, hba⟩ := h.adrift.filed a mem_cons_self
  have hcut := h.cut
  have hlen : (w.cut a).2.nodes.length = w.nodes.length := w.length_edit a _
  have hac : a < (w.cut a).2.nodes.length := by
    rw [hlen]
    exact ha
  have hidle : (w.cut a).2.bucket a = NONE := by
    rw [bucket, node_cut ha, if_pos rfl]
  have hpool : a ∉ pool := by
    intro hmem
    exact bucket_ne_none h.below (hba.symm.trans (h.pooled.idle a hmem).2)
  have hdl : ((w.cut a).2.node a).deadline = w.deadline a := by
    rw [node_cut ha, if_pos rfl]
    rfl
  have hplace : (w.cut a).2.place a = (w.cut a).2.link a c := by
    unfold place
    rw [hdl, hc]
    rfl
  have hs := hcut.head_apart hlt hidle
  have hcore := core_link hac hs
  have hbucket : ∀ i, ((w.cut a).2.link a c).bucket i = if i = a then c else w.bucket i := by
    intro i
    rw [(hcore i).1]
    by_cases hi : i = a
    · rw [if_pos hi, if_pos hi]
    · rw [if_neg hi, if_neg hi, bucket, node_cut ha, if_neg hi]
      rfl
  rw [hplace]
  refine ⟨_, hcut.link hac hidle hpool hlt fun _ => hne, ?_, ⟨?_, ?_, ?_⟩, hbucket⟩
  · rw [Function.update_of_ne hne.symm]
    exact hempty
  · exact now_link _ a c
  · exact (length_link _ a c).trans hlen
  intro i
  obtain ⟨-, hd, hw⟩ := hcore i
  have hf : (((w.cut a).2.link a c).node i).fired = (w.node i).fired := by
    rw [Bool.eq_iff_iff, fired_iff, fired_iff, hbucket]
    by_cases hi : i = a
    · rw [if_pos hi, hi, hba]
      exact iff_of_false (bucket_ne_none hlt) (bucket_ne_none h.below)
    · rw [if_neg hi]
  have hd' : ((w.cut a).2.link a c).deadline i = w.deadline i := by
    rw [hd, deadline, node_cut ha]
    split
    · rename_i hi
      rw [hi]
      rfl
    · rfl
  have hw' : (((w.cut a).2.link a c).node i).waker = (w.node i).waker := by
    rw [hw, node_cut ha]
    split
    · rename_i hi
      rw [hi]
    · rfl
  exact Prod.ext hd' (Prod.ext hw' hf)

theorem Linked.refile (hP : ∀ d, P b d → P (bucketAt (levelOf (d - w.now)) d) d
      ∧ bucketAt (levelOf (d - w.now)) d < BUCKETS
      ∧ bucketAt (levelOf (d - w.now)) d ≠ b)
    (h : Linked w chains pool b cursor limbo) (hempty : chains b = []) (hall : w.All P)
    {turns : Nat} (hturns : limbo.length ≤ turns) :
    ∃ chains', Linked (refile turns cursor w) chains' pool b NONE [] ∧ chains' b = []
      ∧ w.Same (refile turns cursor w) ∧ (refile turns cursor w).All P := by
  induction limbo generalizing w chains cursor turns with
  | nil =>
    have hcursor : cursor = NONE := h.adrift.ahead
    have hdone : refile turns cursor w = w := by
      cases turns with
      | zero => rfl
      | succ turns => rw [refile, if_pos hcursor]
    rw [hdone]
    exact ⟨chains, h.rest h.below, hempty, .refl w, hall⟩
  | cons a limbo ih =>
    obtain ⟨hcursor, hane, -⟩ := h.adrift.ahead
    obtain ⟨ha, hba⟩ := h.adrift.filed a mem_cons_self
    have hpa : P b (w.deadline a) := by
      have := hall a ha (hba ▸ bucket_ne_none h.below)
      rw [hba] at this
      exact this
    obtain ⟨hgood, hlt, hne⟩ := hP _ hpa
    obtain ⟨chains1, h1, hempty1, hsame, hbucket⟩ := h.move hempty rfl hlt hne
    have hall1 : ((w.cut a).2.place a).All P := by
      intro i hi hnone
      rw [hsame.length] at hi
      rw [hsame.deadline]
      rw [hbucket] at hnone ⊢
      by_cases hia : i = a
      · rw [if_pos hia, hia]
        exact hgood
      · rw [if_neg hia] at hnone ⊢
        exact hall i hi hnone
    cases turns with
    | zero => exact absurd hturns (Nat.not_succ_le_zero _)
    | succ turns =>
      have hnow := hsame.now
      obtain ⟨chains', hl, he, hs, ha'⟩ := ih (by rw [hnow]; exact hP) h1 hempty1 hall1
        (Nat.le_of_succ_le_succ hturns)
      rw [refile, hcursor, if_neg hane]
      exact ⟨chains', hl, he, hsame.trans hs, ha'⟩

theorem pending_edit {a : Nat} (ha : a < w.nodes.length) (f : Node ω → Node ω)
    (hf : (f (w.node a)).pending = none) :
    w.pending = ((w.node a).pending.toList : Multiset (Nat × ω)) + (w.edit a f).pending := by
  have hat : (w.nodes.map Node.pending)[a]? = some (w.node a).pending := by
    rw [getElem?_map, node_getElem? ha]
    rfl
  have hset : (w.edit a f).nodes.map Node.pending = (w.nodes.map Node.pending).set a none := by
    apply ext_getElem?
    intro i
    have hlen : (w.edit a f).nodes.length = w.nodes.length := w.length_edit a f
    by_cases hi : i < w.nodes.length
    · rw [getElem?_map, node_getElem? (hlen.symm ▸ hi), node_edit ha]
      by_cases hia : i = a
      · subst hia
        rw [if_pos rfl, getElem?_set_self (by simpa using hi)]
        exact congrArg some hf
      · rw [if_neg hia, getElem?_set_ne (Ne.symm hia), getElem?_map, node_getElem? hi]
    · rw [getElem?_eq_none (by simp [hlen]; omega), getElem?_eq_none (by simp; omega)]
  unfold pending
  rw [hset]
  cases hp : (w.node a).pending with
  | none =>
    rw [hp] at hat
    obtain ⟨hlt, heq⟩ := List.getElem?_eq_some_iff.mp hat
    have hself : (w.nodes.map Node.pending).set a none = w.nodes.map Node.pending := by
      rw [← heq, set_getElem_self]
    rw [hself]
    exact (zero_add _).symm
  | some x =>
    rw [hp] at hat
    rw [← entries_clear hat]
    rfl

theorem Linked.fire (h : Linked w chains pool b cursor limbo) (hall : w.All P)
    {turns : Nat} (hturns : limbo.length ≤ turns) (out : List ω) :
    Linked (fire turns cursor w out).1 chains pool b NONE []
      ∧ w.Fired (fire turns cursor w out).1 out (fire turns cursor w out).2 (P b)
      ∧ (∀ i, i ∉ limbo → (fire turns cursor w out).1.node i = w.node i)
      ∧ ∀ i ∈ limbo, (fire turns cursor w out).1.bucket i = NONE
        ∧ ((fire turns cursor w out).1.node i).waker = none := by
  induction limbo generalizing w cursor turns out with
  | nil =>
    have hcursor : cursor = NONE := h.adrift.ahead
    have hdone : fire turns cursor w out = (w, out) := by
      cases turns with
      | zero => rfl
      | succ turns => rw [fire, if_pos hcursor]
    rw [hdone]
    exact ⟨h.rest h.below, .refl w out _, fun _ _ => rfl, by simp⟩
  | cons a limbo ih =>
    obtain ⟨hcursor, hane, -⟩ := h.adrift.ahead
    obtain ⟨hnotin, -⟩ := nodup_cons.mp h.adrift.once
    obtain ⟨ha, hba⟩ := h.adrift.filed a mem_cons_self
    have hpa : P b (w.deadline a) := by
      have := hall a ha (hba ▸ bucket_ne_none h.below)
      rw [hba] at this
      exact this
    obtain ⟨w1, hw1⟩ : ∃ w1, (w.cut a).2.edit a (fun n => { n with waker := none }) = w1 :=
      ⟨_, rfl⟩
    -- the two writes to the slot are one
    have hone : w1 = w.edit a fun n =>
        { n with bucket := NONE, prev := NONE, next := NONE, waker := none } := by
      rw [← hw1]
      simp [Wheel.cut, Wheel.edit, modify_modify_eq, Function.comp_def]
    have hedit : ∀ i, w1.node i
        = if i = a then ⟨w.deadline a, none, NONE, NONE, NONE⟩ else w.node i := by
      intro i
      rw [hone, node_edit ha]
      rfl
    have hlen : w1.nodes.length = w.nodes.length := hone ▸ w.length_edit a _
    have h1 : Linked w1 chains pool b (w.cut a).1 limbo := by
      refine h.cut.congr (hlen.trans (w.length_edit a _).symm) ?_ ?_ ?_
      · rw [hone]
        rfl
      · rw [hone]
        rfl
      intro i
      rw [hedit, node_cut ha]
      split <;> rfl
    have hall1 : w1.All P := by
      intro i hi hnone
      rw [hlen] at hi
      rw [bucket, hedit] at hnone
      rw [bucket, deadline, hedit]
      by_cases hia : i = a
      · rw [if_pos hia] at hnone
        exact absurd rfl hnone
      · rw [if_neg hia] at hnone ⊢
        exact hall i hi hnone
    have hfired : w.Fired w1 out (out ++ ((w.cut a).2.node a).waker.toList) (P b) := by
      refine ⟨hone ▸ rfl, hlen, ?_, (w.node a).pending.toList, ?_, ?_, ?_⟩
      · intro i
        rw [deadline, hedit]
        split
        · rename_i hi
          rw [hi]
        · rfl
      · have hnf : (w.node a).fired = false := by
          rw [Bool.eq_false_iff, ne_eq, fired_iff, hba]
          exact bucket_ne_none h.below
        rw [node_cut ha, if_pos rfl, ← coe_add]
        unfold Node.pending
        rw [hnf]
        cases (w.node a).waker <;> rfl
      · rw [hone]
        exact pending_edit ha _ rfl
      · intro x hx
        have hx : x ∈ (w.node a).pending := by simpa using hx
        unfold Node.pending at hx
        split at hx
        · cases hx
        · obtain ⟨waker, -, rfl⟩ := Option.map_eq_some_iff.mp hx
          exact hpa
    cases turns with
    | zero => exact absurd hturns (Nat.not_succ_le_zero _)
    | succ turns =>
      obtain ⟨hl, hrest, hother, hgone⟩ := ih h1 hall1 (Nat.le_of_succ_le_succ hturns)
        (out ++ ((w.cut a).2.node a).waker.toList)
      subst hw1
      rw [fire, hcursor, if_neg hane]
      refine ⟨hl, hfired.trans hrest, ?_, ?_⟩
      · intro i hi
        rw [hother i fun hm => hi (mem_cons_of_mem a hm), hedit, if_neg]
        rintro rfl
        exact hi mem_cons_self
      · intro i hi
        rcases mem_cons.mp hi with rfl | hi
        · rw [bucket, hother i hnotin, hedit, if_pos rfl]
          exact ⟨rfl, rfl⟩
        · exact hgone i hi

theorem Chained.length_le {l : List Nat} (h : Chained w b l) : l.length ≤ w.nodes.length := by
  have hsub : l ⊆ List.range w.nodes.length := by
    intro i hi
    exact List.mem_range.mpr (h.filed i hi).1
  have hle := (h.once.subperm hsub).length_le
  rwa [length_range] at hle

section

variable (h : Linked w chains pool b cursor [])
include h

theorem Linked.mem_chain {i : Nat}
    (hi : i < w.nodes.length) (hne : w.bucket i ≠ NONE) :
    w.bucket i < BUCKETS ∧ i ∈ chains (w.bucket i) := by
  rcases h.cover i hi with hnone | ⟨hlt, hmem | hmem⟩
  · exact absurd hnone hne
  · exact ⟨hlt, hmem⟩
  · cases hmem

theorem Linked.expire (hall : w.All P) {c : Nat}
    (hc : c < BUCKETS) (out : List ω) :
    Linked (w.expire c out).1 (Function.update chains c []) pool c NONE []
      ∧ w.Fired (w.expire c out).1 out (w.expire c out).2 (P c)
      ∧ (w.expire c out).1.All (fun b d => b ≠ c ∧ P b d)
      ∧ ∀ i < w.nodes.length, (w.expire c out).1.bucket i = NONE →
        (w.bucket i = NONE ∧ (w.expire c out).1.node i = w.node i)
          ∨ P c (w.deadline i) ∧ ((w.expire c out).1.node i).waker = none := by
  have hall' : (w.empty c).2.All P := hall
  obtain ⟨hl, hrest, hother, hgone⟩ :=
    (h.empty hc).fire hall' (h.chained c hc).length_le out
  have hfired : w.Fired (w.expire c out).1 out (w.expire c out).2 (P c) := { hrest with }
  have hkeep : ∀ i < w.nodes.length, w.bucket i ≠ c → (w.expire c out).1.node i = w.node i := by
    intro i hi hne
    refine hother i ?_
    intro hmem
    exact hne (h.bucket_of_mem hc hmem)
  have hgo : ∀ i < w.nodes.length, w.bucket i = c → i ∈ chains c := by
    intro i hi heq
    have hmem := (h.mem_chain hi (heq ▸ bucket_ne_none hc)).2
    rwa [heq] at hmem
  refine ⟨hl, hfired, ?_, ?_⟩
  · intro i hi hne
    have hi : i < w.nodes.length := hfired.length ▸ hi
    by_cases heq : w.bucket i = c
    · exact absurd (hgone i (hgo i hi heq)).1 hne
    · have hnode := hkeep i hi heq
      rw [bucket, hnode] at hne
      rw [bucket, deadline, hnode]
      exact ⟨heq, hall i hi hne⟩
  · intro i hi hnone
    by_cases heq : w.bucket i = c
    · refine .inr ⟨?_, (hgone i (hgo i hi heq)).2⟩
      have := hall i hi (heq ▸ bucket_ne_none hc)
      rwa [heq] at this
    · have hnode := hkeep i hi heq
      refine .inl ⟨?_, hnode⟩
      rw [bucket, hnode] at hnone
      exact hnone

theorem Linked.level_lt {i : Nat}
    (hi : i < w.nodes.length) (hne : w.bucket i ≠ NONE) : w.bucket i / SLOTS < LEVELS := by
  have hlt : w.bucket i < 256 := (h.mem_chain hi hne).1
  show w.bucket i / 64 < 4
  omega

end

/-- What the bucket a level comes to holds, beside the rest of the wheel. -/
def Handing (now k c b d : Nat) : Prop :=
  (b = c → block k d = block k (now + 1) ∧ now + 1 ≤ d ∧ d < now + 1 + HORIZON)
    ∧ (b ≠ c → Mid now (k + 1) b d)

/-- What a bucket hands down fits in a level below. -/
theorem Handing.place {now k d t : Nat} (hk : 0 < k) (hlt : k < LEVELS)
    (hb : Begins k (now + 1)) (ht : t = now + 1)
    (h : Handing now k (bucketAt k t) (bucketAt k t) d) :
    Handing now k (bucketAt k t) (bucketAt (levelOf (d - t)) d) d
      ∧ bucketAt (levelOf (d - t)) d < BUCKETS
      ∧ bucketAt (levelOf (d - t)) d ≠ bucketAt k t := by
  subst ht
  obtain ⟨hblock, hle, hnear⟩ := h.1 rfl
  have hfits := place_fits hle hnear
  have hless := block_place hk hlt hb hblock hle hnear
  have hlevel := bucketAt_level (levelOf (d - (now + 1))) d
  have hne : bucketAt (levelOf (d - (now + 1))) d ≠ bucketAt k (now + 1) := by
    intro heq
    rw [heq, bucketAt_level] at hlevel
    omega
  refine ⟨⟨fun heq => absurd heq hne, fun _ => ⟨fun _ => hfits, ?_⟩⟩, hfits.lt_buckets, hne⟩
  intro hge
  rw [hlevel] at hge
  omega

theorem Linked.handDown {now k : Nat} (hk : 0 < k) (hlt : k < LEVELS)
    (h : Linked w chains pool b cursor []) (hnow : w.now = now + 1) (hall : w.All (Mid now k))
    (hb : Begins k (now + 1)) {w' : Wheel ω}
    (hw' : w' = Wheel.refile w.nodes.length (w.empty (Wheel.bucketAt k w.now)).1
      (w.empty (bucketAt k w.now)).2) :
    ∃ chains', Linked w' chains' pool (bucketAt k w.now) NONE [] ∧ w.Same w'
      ∧ w'.All (Mid now (k + 1)) := by
  have hc : bucketAt k w.now < BUCKETS := by
    rw [bucketAt_eq]
    have hL : LEVELS = 4 := rfl
    show k * 64 + _ < 256
    omega
  have hall' : (w.empty (bucketAt k w.now)).2.All (Handing now k (bucketAt k w.now)) := by
    intro i hi hne
    have hmid := hall i hi hne
    rw [hnow]
    refine ⟨?_, fun hother => hmid.passed hk hlt hb hother⟩
    intro heq
    have heq : w.bucket i = bucketAt k (now + 1) := heq
    rw [heq] at hmid
    exact hmid.wraps hk hlt hb
  obtain ⟨chains', hl, hempty, hsame, hall1⟩ := (h.empty hc).refile
    (fun d hd => hd.place hk hlt hb hnow) (Function.update_self ..) hall' (h.chained _ hc).length_le
  have hfirst : w.Same (w.empty (bucketAt k w.now)).2 := ⟨rfl, rfl, fun _ => rfl⟩
  subst hw'
  refine ⟨chains', hl, hfirst.trans hsame, ?_⟩
  intro i hi hne
  refine (hall1 i hi hne).2 ?_
  intro heq
  have hmem := (hl.mem_chain hi hne).2
  rw [heq, hempty] at hmem
  cases hmem

theorem Linked.cascade {now : Nat} (m : Nat) {k : Nat} (hm : k + 1 + m = LEVELS)
    (h : Linked w chains pool b NONE []) (hnow : w.now = now + 1)
    (hall : w.All (Mid now (k + 1))) (hbegins : Begins k (now + 1)) :
    ∃ chains', Linked (cascade (List.range' (k + 1) m) w) chains' pool 0 NONE []
      ∧ w.Same (cascade (List.range' (k + 1) m) w)
      ∧ (cascade (List.range' (k + 1) m) w).All (Fits (now + 1)) := by
  have hzero : 0 < BUCKETS := by decide
  induction m generalizing w chains k b with
  | zero =>
    refine ⟨chains, h.rest hzero, .refl w, ?_⟩
    intro i hi hne
    refine (hall i hi hne).1 ?_
    have := h.level_lt hi hne
    omega
  | succ m ih =>
    have hlt : k + 1 < LEVELS := by omega
    rw [List.range'_succ, cascade, Nat.add_sub_cancel]
    split
    · rename_i hwrap
      refine ⟨chains, h.rest hzero, .refl w, ?_⟩
      intro i hi hne
      refine (hall i hi hne).still ?_ (h.level_lt hi hne) (Nat.succ_pos k)
      intro hb
      rw [hnow] at hwrap
      exact hwrap (begins_succ.mp hb).2
    · rename_i hwrap
      rw [hnow, ne_eq, not_not] at hwrap
      have hb : Begins (k + 1) (now + 1) := begins_succ.mpr ⟨hbegins, hwrap⟩
      obtain ⟨chains1, h1, hsame1, hall1⟩ := h.handDown (Nat.succ_pos k) hlt hnow hall hb rfl
      obtain ⟨chains2, h2, hsame2, hfits⟩ := ih (by omega) h1 (hsame1.now.trans hnow) hall1 hb
      exact ⟨chains2, h2, hsame1.trans hsame2, hfits⟩

end Loops

-- -- the clock

/-- Between calls: every filed timer is still to come and where it fits, and
every other one in use has come and woken its sleeper. -/
structure Timely (w : Wheel ω) (chains : Nat → List Nat) (pool : List Nat) : Prop where
  linked : Linked w chains pool 0 NONE []
  due : w.All (Due w.now)
  past : ∀ i < w.nodes.length, i ∉ pool → w.bucket i = NONE → w.deadline i ≤ w.now
  spent : ∀ i < w.nodes.length, i ∉ pool → w.bucket i = NONE → (w.node i).waker = none

theorem Timely.of {w : Wheel ω} {chains : Nat → List Nat} {pool : List Nat}
    (hlinked : Linked w chains pool 0 NONE []) (hdue : w.All (Due w.now))
    (hidle : ∀ i < w.nodes.length, i ∉ pool → w.bucket i = NONE →
      w.deadline i ≤ w.now ∧ (w.node i).waker = none) : Timely w chains pool :=
  ⟨hlinked, hdue, fun i hi hp hn => (hidle i hi hp hn).1, fun i hi hp hn => (hidle i hi hp hn).2⟩

/-- The clock moves: the timers that come wake their sleepers, and no others. -/
structure Moved (w w' : Wheel ω) (out out' : List ω) : Prop where
  later : w.now ≤ w'.now
  length : w'.nodes.length = w.nodes.length
  deadline : ∀ i, w'.deadline i = w.deadline i
  handed : ∃ gone : Multiset (Nat × ω), (out' : Multiset ω) = out + gone.map Prod.snd
    ∧ w.pending = gone + w'.pending ∧ ∀ x ∈ gone, w.now < x.1 ∧ x.1 ≤ w'.now

section Clock

variable {w w' w'' : Wheel ω} {chains : Nat → List Nat} {pool : List Nat}

theorem Moved.refl (w : Wheel ω) (out : List ω) : Moved w w out out :=
  ⟨le_rfl, rfl, fun _ => rfl, 0, by simp, by simp, by simp⟩

theorem Moved.trans {out out' out'' : List ω} (h : Moved w w' out out')
    (h' : Moved w' w'' out' out'') : Moved w w'' out out'' := by
  have hle := h.later
  have hle' := h'.later
  have hfirst : w.Handed w' out out' fun d => w.now < d ∧ d ≤ w'.now := h.handed
  have hsecond : w'.Handed w'' out' out'' fun d => w'.now < d ∧ d ≤ w''.now := h'.handed
  have hboth : w.Handed w'' out out'' fun d => w.now < d ∧ d ≤ w''.now :=
    (hfirst.imp fun d hd => ⟨hd.1, hd.2.trans hle'⟩).trans
      (hsecond.imp fun d hd => ⟨hle.trans_lt hd.1, hd.2⟩)
  exact ⟨hle.trans hle', h'.length.trans h.length,
    fun i => (h'.deadline i).trans (h.deadline i), hboth⟩

theorem Fits.now_of_bucket {now d : Nat} (h : Fits now (now % SLOTS) d) : d = now := by
  have hlevel : now % SLOTS / SLOTS = 0 := Nat.div_eq_of_lt (Nat.mod_lt _ (by decide))
  have hbucket := h.bucket
  have hsoon : d < now + 64 := h.soon hlevel
  have hle := h.reached
  rw [hlevel, bucketAt_eq, block_zero] at hbucket
  have hbucket : now % 64 = 0 * 64 + d % 64 := hbucket
  omega

theorem Fits.due {now b d : Nat} (h : Fits now b d) (hne : b ≠ now % SLOTS) : Due now b d := by
  refine ⟨h, Nat.lt_of_le_of_ne h.reached ?_⟩
  rintro rfl
  by_cases hlevel : b / SLOTS = 0
  · have hbucket := h.bucket
    rw [hlevel, bucketAt_eq, block_zero, Nat.zero_mul, Nat.zero_add] at hbucket
    exact hne hbucket
  · exact absurd (h.ahead (Nat.pos_of_ne_zero hlevel)) (Nat.lt_irrefl _)

theorem Timely.step (h : Timely w chains pool) (out : List ω) :
    ∃ chains', Timely (w.step out).1 chains' pool ∧ (w.step out).1.now = w.now + 1
      ∧ Moved w (w.step out).1 out (w.step out).2 := by
  have htick : Linked { w with now := w.now + 1 } chains pool 0 NONE [] :=
    h.linked.congr rfl rfl rfl fun _ => rfl
  have hmid : ({ w with now := w.now + 1 } : Wheel ω).All (Mid w.now 1) := by
    intro i hi hne
    exact (h.due i hi hne).mid
  have hbegins : Begins 0 (w.now + 1) := Nat.mod_one _
  obtain ⟨chains1, h1, hsame, hfits⟩ := htick.cascade 3 rfl rfl hmid hbegins
  have hstep : w.step out = (cascade (List.range' (0 + 1) 3)
      { w with now := w.now + 1 }).expire ((cascade (List.range' (0 + 1) 3)
      { w with now := w.now + 1 }).now % SLOTS) out := rfl
  rw [hstep]
  generalize hw1 : cascade (List.range' (0 + 1) 3) { w with now := w.now + 1 } = w1
    at h1 hsame hfits
  have hnow : w1.now = w.now + 1 := hsame.now
  have hc : w1.now % SLOTS < BUCKETS := Nat.lt_trans (Nat.mod_lt _ (by decide)) (by decide)
  rw [← hnow] at hfits
  obtain ⟨hl, ⟨hnow', hlen, hd, gone, hout, hpend, hgone⟩, hall, hidle⟩ := h1.expire hfits hc out
  refine ⟨_, .of (hl.rest (by decide)) ?_ ?_, hnow'.trans hnow, ?_, ?_, ?_, gone, hout, ?_, ?_⟩
  · intro i hi hne
    rw [hnow']
    obtain ⟨hb, hf⟩ := hall i hi hne
    exact hf.due hb
  · intro i hi hpool hnone
    rw [hlen] at hi
    rw [hd, hnow']
    rcases hidle i hi hnone with ⟨hold, hnode⟩ | ⟨hf, hw⟩
    · have hbefore : w.bucket i = NONE := by
        rw [← fired_iff] at hold ⊢
        rw [← hold]
        exact (hsame.fired i).symm
      have hi' : i < w.nodes.length := hsame.length ▸ hi
      rw [hnode, hsame.deadline, hnow]
      refine ⟨Nat.le_succ_of_le (h.past i hi' hpool hbefore), ?_⟩
      exact (congrArg (fun x => x.2.1) (hsame.core i)).trans (h.spent i hi' hpool hbefore)
    · exact ⟨Nat.le_of_eq hf.now_of_bucket, hw⟩
  · rw [hnow', hnow]
    exact Nat.le_succ _
  · exact hlen.trans hsame.length
  · intro i
    rw [hd, hsame.deadline]
    rfl
  · rw [← hpend, hsame.pending]
    rfl
  · intro x hx
    have := (hgone x hx).now_of_bucket
    rw [hnow']
    omega

theorem Timely.walk (h : Timely w chains pool) (steps : Nat) (out : List ω) :
    ∃ chains', Timely (walk steps w out).1 chains' pool
      ∧ (walk steps w out).1.now = w.now + steps
      ∧ Moved w (walk steps w out).1 out (walk steps w out).2 := by
  induction steps generalizing w chains out with
  | zero => exact ⟨chains, h, rfl, .refl w out⟩
  | succ steps ih =>
    obtain ⟨chains1, h1, hnow1, hmoved1⟩ := h.step out
    obtain ⟨chains2, h2, hnow2, hmoved2⟩ := ih h1 (w.step out).2
    refine ⟨chains2, h2, ?_, hmoved1.trans hmoved2⟩
    show (walk steps (w.step out).1 (w.step out).2).1.now = w.now + (steps + 1)
    rw [hnow2, hnow1]
    omega

theorem Linked.flush {b : Nat} (h : Linked w chains pool b NONE []) {P : Nat → Nat → Prop}
    (hall : w.All P) (buckets : List Nat) (hbuckets : ∀ c ∈ buckets, c < BUCKETS)
    (out : List ω) :
    ∃ chains', Linked (flush buckets w out).1 chains' pool 0 NONE []
      ∧ w.Fired (flush buckets w out).1 out (flush buckets w out).2 (fun d => ∃ c, P c d)
      ∧ (flush buckets w out).1.All (fun b d => b ∉ buckets ∧ P b d)
      ∧ ∀ i < w.nodes.length, (flush buckets w out).1.bucket i = NONE →
        (w.bucket i = NONE ∧ (flush buckets w out).1.node i = w.node i)
          ∨ (∃ c, P c (w.deadline i)) ∧ ((flush buckets w out).1.node i).waker = none := by
  induction buckets generalizing w chains b out P with
  | nil =>
    refine ⟨chains, h.rest (by decide), .refl w out _, ?_, ?_⟩
    · intro i hi hne
      exact ⟨not_mem_nil, hall i hi hne⟩
    · intro i _ hnone
      exact .inl ⟨hnone, rfl⟩
  | cons c buckets ih =>
    obtain ⟨h1, hfired1, hall1, hidle1⟩ := h.expire hall (hbuckets c mem_cons_self) out
    obtain ⟨chains2, h2, hfired2, hall2, hidle2⟩ :=
      ih h1 hall1 (fun d hd => hbuckets d (mem_cons_of_mem c hd)) (w.expire c out).2
    refine ⟨chains2, h2, (hfired1.imp fun d hd => ⟨c, hd⟩).trans
      (hfired2.imp fun d ⟨c, hd⟩ => ⟨c, hd.2⟩), ?_, ?_⟩
    · intro i hi hne
      obtain ⟨hnot, hb, hp⟩ := hall2 i hi hne
      refine ⟨?_, hp⟩
      intro hmem
      rcases mem_cons.mp hmem with heq | hmem
      · exact hb heq
      · exact hnot hmem
    · intro i hi hnone
      rcases hidle2 i (hfired1.length.symm ▸ hi) hnone with ⟨hold, hnode⟩ | ⟨⟨d, -, hp⟩, hw⟩
      · rcases hidle1 i hi hold with ⟨hold', hnode'⟩ | ⟨hp, hw⟩
        · exact .inl ⟨hold', hnode.trans hnode'⟩
        · refine .inr ⟨⟨c, hp⟩, ?_⟩
          show ((flush buckets (w.expire c out).1 (w.expire c out).2).1.node i).waker = none
          rw [hnode]
          exact hw
      · rw [hfired1.deadline] at hp
        exact .inr ⟨⟨d, hp⟩, hw⟩

theorem Timely.upto (h : Timely w chains pool) (ticks : Nat) (out : List ω) :
    ∃ chains', Timely (w.upto ticks out).1 chains' pool
      ∧ (w.upto ticks out).1.now = max w.now ticks
      ∧ Moved w (w.upto ticks out).1 out (w.upto ticks out).2 := by
  unfold Wheel.upto
  split
  · have hH : HORIZON = 16777216 := by decide
    obtain ⟨chains', hl, ⟨hnow, hlen, hd, hhanded⟩, hall, hidle⟩ :=
      h.linked.flush h.due (List.range BUCKETS) (fun c hc => List.mem_range.mp hc) out
    have hbucket : ∀ c, c ∉ List.range BUCKETS ↔ BUCKETS ≤ c := by
      intro c
      rw [List.mem_range, Nat.not_lt]
    generalize List.range BUCKETS = buckets at *
    generalize flush buckets w out = r at *
    dsimp only
    -- past the horizon nothing is still to come
    have hpast : ∀ c d, Due w.now c d → w.now < d ∧ d ≤ ticks := by
      intro c d hdue
      have hnear := hdue.1.near
      exact ⟨hdue.2, by omega⟩
    have hnone : ∀ i < r.1.nodes.length, r.1.bucket i = NONE := by
      intro i hi
      by_cases hne : r.1.bucket i = NONE
      · exact hne
      · have hge := (hbucket _).mp (hall i hi hne).1
        exact absurd (hl.mem_chain hi hne).1 (Nat.not_lt.mpr hge)
    refine ⟨chains', .of (hl.congr rfl rfl rfl fun _ => rfl) ?_ ?_, ?_, ?_, hlen, hd, ?_⟩
    · intro i hi hne
      exact absurd (hnone i hi) hne
    · intro i hi hpool hn
      have hi' : i < w.nodes.length := hlen ▸ hi
      show r.1.deadline i ≤ ticks ∧ (r.1.node i).waker = none
      rw [hd]
      rcases hidle i hi' hn with ⟨hold, hnode⟩ | ⟨⟨c, hdue⟩, hw⟩
      · have := h.past i hi' hpool hold
        rw [hnode]
        exact ⟨by omega, h.spent i hi' hpool hold⟩
      · exact ⟨(hpast c _ hdue).2, hw⟩
    · show ticks = max w.now ticks
      omega
    · show w.now ≤ ticks
      omega
    · exact hhanded.imp fun d ⟨c, hdue⟩ => hpast c d hdue
  · obtain ⟨chains', hl, hnow, hmoved⟩ := h.walk (ticks - w.now) out
    refine ⟨chains', hl, ?_, hmoved⟩
    rw [hnow]
    omega

end Clock

-- == the sleepers

section Sleepers

variable {w : Wheel ω} {chains : Nat → List Nat} {pool : List Nat}

/-- A timer is armed in a slot of its own, and filed if it is still to come. -/
theorem Timely.arm (h : Timely w chains pool) (hclock : w.now + HORIZON ≤ 2 ^ 64)
    (hroom : pool = [] → w.nodes.length < NONE) (deadline : Nat) :
    ∃ chains' pool' slot, (w.arm deadline).1 = slot
      ∧ Timely (w.arm deadline).2 chains' pool' ∧ (w.arm deadline).2.now = w.now
      ∧ slot < (w.arm deadline).2.nodes.length ∧ slot ∉ pool'
      ∧ (w.arm deadline).2.deadline slot = min deadline (w.now + HORIZON - 1)
      ∧ (∀ i, i ≠ slot → (w.arm deadline).2.deadline i = w.deadline i)
      ∧ (∀ i, i < (w.arm deadline).2.nodes.length ↔ i < w.nodes.length ∨ i = slot)
      ∧ (∀ i, i ∈ pool' ↔ i ∈ pool ∧ i ≠ slot)
      ∧ (slot < w.nodes.length → slot ∈ pool) := by
  have hlast : w.lastTick = w.now + HORIZON - 1 := Nat.mod_eq_of_lt (by omega)
  unfold Wheel.arm
  rw [hlast]
  generalize hd : min deadline (w.now + HORIZON - 1) = d
  obtain ⟨pool', hl, ⟨-, hself, hother, hlen⟩, hmem, hold⟩ := h.linked.take hroom d
  have hnow : (w.take d).2.now = w.now := by
    unfold Wheel.take
    split
    · rfl
    · rfl
  dsimp only
  generalize (w.take d).1 = slot at hself hother hlen hmem hold ⊢
  generalize (w.take d).2 = w1 at hl hself hother hlen hnow ⊢
  have hlt : slot < w1.nodes.length := (hlen slot).mpr (.inr rfl)
  have hpool' : slot ∉ pool' := fun hm => ((hmem slot).mp hm).2 rfl
  have hidle : w1.bucket slot = NONE := by
    rw [bucket, hself]
    rfl
  have hdl : w1.deadline slot = d := by
    rw [Wheel.deadline, hself]
    rfl
  have hdue : ∀ i < w1.nodes.length, w1.bucket i ≠ NONE →
      Due w.now (w1.bucket i) (w1.deadline i) := by
    intro i hi hne
    have his : i ≠ slot := by
      rintro rfl
      exact hne hidle
    rw [Wheel.bucket, hother i his] at hne
    rw [Wheel.bucket, Wheel.deadline, hother i his]
    rcases (hlen i).mp hi with hi | hi
    · exact h.due i hi hne
    · exact absurd hi his
  -- the slots that were in use are as they were
  have hrest : ∀ i < w1.nodes.length, i ∉ pool' → i ≠ slot → w1.bucket i = NONE →
      w1.deadline i ≤ w.now ∧ (w1.node i).waker = none := by
    intro i hi hp his hnone
    have hi' : i < w.nodes.length := by
      rcases (hlen i).mp hi with hi | hi
      · exact hi
      · exact absurd hi his
    have hp' : i ∉ pool := fun hm => hp ((hmem i).mpr ⟨hm, his⟩)
    rw [Wheel.bucket, hother i his] at hnone
    rw [Wheel.deadline, hother i his]
    exact ⟨h.past i hi' hp' hnone, h.spent i hi' hp' hnone⟩
  split
  · rename_i hgt
    rw [hnow] at hgt
    have hfits := place_fits hgt.le (show d < w.now + HORIZON by omega)
    generalize hc : bucketAt (levelOf (d - w.now)) d = c at hfits
    have hplace : w1.place slot = w1.link slot c := by
      have hnode : (w1.node slot).deadline = d := hdl
      show w1.link slot (bucketAt (levelOf ((w1.node slot).deadline - w1.now))
        (w1.node slot).deadline) = _
      rw [hnode, hnow, hc]
    rw [hplace]
    have hcore := core_link hlt (hl.head_apart hfits.lt_buckets hidle)
    have hlen' := length_link w1 slot c
    have hnow' := (now_link w1 slot c).trans hnow
    refine ⟨_, pool', slot, rfl,
      .of (hl.link hlt hidle hpool' hfits.lt_buckets fun hne => absurd rfl hne) ?_ ?_, hnow',
      hlen'.symm ▸ hlt, hpool', ?_, ?_, ?_, hmem, hold⟩
    · intro i hi hne
      rw [hlen'] at hi
      rw [hnow', (hcore i).2.1]
      rw [(hcore i).1] at hne ⊢
      by_cases his : i = slot
      · rw [if_pos his, his, hdl]
        exact ⟨hfits, hgt⟩
      · rw [if_neg his] at hne ⊢
        exact hdue i hi hne
    · intro i hi hp hnone
      rw [hlen'] at hi
      rw [(hcore i).1] at hnone
      rw [hnow', (hcore i).2.1, (hcore i).2.2]
      by_cases his : i = slot
      · rw [if_pos his] at hnone
        exact absurd hnone (bucket_ne_none hfits.lt_buckets)
      · rw [if_neg his] at hnone
        exact hrest i hi hp his hnone
    · rw [(hcore slot).2.1]
      exact hdl
    · intro i his
      rw [(hcore i).2.1, Wheel.deadline, hother i his]
      rfl
    · intro i
      rw [hlen']
      exact hlen i
  · rename_i hgt
    rw [hnow] at hgt
    refine ⟨chains, pool', slot, rfl, .of (hl.rest (by decide)) ?_ ?_, hnow, hlt, hpool', hdl, ?_,
      hlen, hmem, hold⟩
    · rw [hnow]
      exact hdue
    · intro i hi hp hnone
      rw [hnow]
      by_cases his : i = slot
      · rw [his, hdl, hself]
        exact ⟨by omega, rfl⟩
      · exact hrest i hi hp his hnone
    · intro i his
      rw [Wheel.deadline, hother i his]
      rfl

theorem Timely.release (h : Timely w chains pool) {slot : Nat} (hs : slot < w.nodes.length)
    (hpool : slot ∉ pool) :
    ∃ chains', Timely (w.release slot) chains' (slot :: pool)
      ∧ (w.release slot).now = w.now
      ∧ (w.release slot).nodes.length = w.nodes.length
      ∧ ∀ i, i ≠ slot → (w.release slot).deadline i = w.deadline i := by
  -- the wheel without the slot in any bucket
  have hout : ∃ chains' w1, w.release slot
        = { w1.edit slot fun n => { n with waker := none, next := w1.free } with free := slot }
      ∧ Linked w1 chains' pool 0 NONE [] ∧ w1.now = w.now
      ∧ w1.nodes.length = w.nodes.length ∧ w1.bucket slot = NONE
      ∧ ∀ i, i ≠ slot → w1.bucket i = w.bucket i ∧ w1.deadline i = w.deadline i
        ∧ (w1.node i).waker = (w.node i).waker := by
    unfold Wheel.release
    split
    · rename_i hf
      exact ⟨chains, w, rfl, h.linked, rfl, rfl, (w.fired_iff slot).mp hf,
        fun _ _ => ⟨rfl, rfl, rfl⟩⟩
    · rename_i hf
      have hne : w.bucket slot ≠ NONE := fun heq => hf ((w.fired_iff slot).mpr heq)
      obtain ⟨⟨l, hl⟩, hnone, hkeep⟩ := h.linked.unlink hs hne
      have hnow : (w.unlink slot).now = w.now := by
        unfold unlink cut
        dsimp only
        split <;> split <;> rfl
      exact ⟨_, w.unlink slot, rfl, hl, hnow, length_unlink w slot, hnone, hkeep⟩
  obtain ⟨chains', w1, heq, hl, hnow, hlen, hidle, hkeep⟩ := hout
  have hs1 : slot < w1.nodes.length := hlen ▸ hs
  have hnode : ∀ i, i ≠ slot → (w.release slot).node i = w1.node i := by
    intro i hi
    rw [heq]
    exact node_edit_ne hi _
  have hlen' : (w.release slot).nodes.length = w.nodes.length := by
    rw [heq, ← hlen]
    exact w1.length_edit slot _
  have hself : (w.release slot).bucket slot = NONE := by
    rw [heq]
    exact (congrArg Node.bucket (node_edit_self hs1 _)).trans hidle
  have hnow' : (w.release slot).now = w.now := by
    rw [heq]
    exact hnow
  refine ⟨chains', .of ?_ ?_ ?_, hnow', hlen', ?_⟩
  · rw [heq]
    exact hl.give hs1 hidle hpool
  · intro i hi hne
    have his : i ≠ slot := by
      rintro rfl
      exact hne hself
    obtain ⟨hb, hd, -⟩ := hkeep i his
    rw [bucket, hnode i his] at hne
    rw [hnow', bucket, deadline, hnode i his]
    show Due w.now (w1.bucket i) (w1.deadline i)
    rw [hb, hd]
    exact h.due i (hlen' ▸ hi) (hb ▸ hne)
  · intro i hi hp hnone
    obtain ⟨his, hp'⟩ := not_or.mp fun hm => hp (mem_cons.mpr hm)
    obtain ⟨hb, hd, hw⟩ := hkeep i his
    rw [bucket, hnode i his] at hnone
    rw [hnow', deadline, hnode i his, hw]
    show w1.deadline i ≤ w.now ∧ _
    rw [hd]
    exact ⟨h.past i (hlen' ▸ hi) hp' (hb ▸ hnone), h.spent i (hlen' ▸ hi) hp' (hb ▸ hnone)⟩
  · intro i his
    rw [deadline, hnode i his]
    exact (hkeep i his).2.1

theorem Timely.wait (h : Timely w chains pool) {slot : Nat} (hs : slot < w.nodes.length)
    (hfiled : w.bucket slot ≠ NONE) (waker : ω) :
    Timely (w.edit slot fun n => { n with waker := some waker }) chains pool
      ∧ ∀ i, (w.edit slot fun n => { n with waker := some waker }).deadline i = w.deadline i := by
  have hnode := fun i => node_edit hs (fun n => { n with waker := some waker }) i
  have hlen := w.length_edit slot fun n => { n with waker := some waker }
  have hlinks : ∀ i, ((w.edit slot fun n => { n with waker := some waker }).node i).links
      = (w.node i).links := by
    intro i
    rw [hnode]
    split
    · rename_i hi
      rw [hi]
      rfl
    · rfl
  have hbucket := fun i => (links_ext (hlinks i)).2.2
  have hd : ∀ i, (w.edit slot fun n => { n with waker := some waker }).deadline i
      = w.deadline i := by
    intro i
    rw [deadline, hnode]
    split
    · rename_i hi
      rw [hi]
      rfl
    · rfl
  refine ⟨.of (h.linked.congr hlen rfl rfl hlinks) ?_ ?_, hd⟩
  · intro i hi hne
    rw [hlen] at hi
    rw [hbucket] at hne ⊢
    rw [hd]
    exact h.due i hi hne
  · intro i hi hp hnone
    rw [hlen] at hi
    rw [hbucket] at hnone
    have his : i ≠ slot := by
      rintro rfl
      exact hfiled hnone
    rw [hd, hnode, if_neg his]
    exact ⟨h.past i hi hp hnone, h.spent i hi hp hnone⟩

end Sleepers

def Sleep.tick (s : Sleep) : Nat := min s.deadline (s.armed + HORIZON - 1)

/-- Every slot is free or belongs to one sleep. -/
structure Kept (s : Sleeps ω) (chains : Nat → List Nat) (pool : List Nat) : Prop where
  timely : Timely s.wheel chains pool
  once : (s.held.map Sleep.slot).Nodup
  held : ∀ h ∈ s.held, h.slot < s.wheel.nodes.length ∧ h.slot ∉ pool
    ∧ s.wheel.deadline h.slot = h.tick
  cover : ∀ i < s.wheel.nodes.length, i ∈ pool ∨ i ∈ s.held.map Sleep.slot

section Kept

variable {s : Sleeps ω} {chains : Nat → List Nat} {pool : List Nat}

theorem Kept.new : Kept (.new : Sleeps ω) (fun _ => []) [] where
  timely :=
    { linked := .new
      due := fun i hi => by cases hi
      past := fun i hi => by cases hi
      spent := fun i hi => by cases hi }
  once := nodup_nil
  held := fun h hh => by cases hh
  cover := fun i hi => by cases hi

theorem Kept.few (h : Kept s chains []) : s.wheel.nodes.length ≤ s.held.length := by
  have hsub : List.range s.wheel.nodes.length ⊆ s.held.map Sleep.slot := by
    intro i hi
    rcases h.cover i (List.mem_range.mp hi) with hp | hm
    · cases hp
    · exact hm
  have hle := (nodup_range.subperm hsub).length_le
  simpa using hle

section

variable (h : Kept s chains pool)
include h

theorem Kept.sleepUntil (hclock : s.wheel.now + HORIZON ≤ 2 ^ 64)
    (hfew : s.held.length < NONE) (deadline : Nat) :
    ∃ chains' pool', Kept (s.sleepUntil deadline) chains' pool' := by
  have hroom : pool = [] → s.wheel.nodes.length < NONE := by
    rintro rfl
    exact Nat.lt_of_le_of_lt h.few hfew
  obtain ⟨chains', pool', slot, hslot, ht, hnow, hlt, hpool, hd, hother, hlen, hmem, hold⟩ :=
    h.timely.arm hclock hroom deadline
  have hrun : s.sleepUntil deadline = ⟨(s.wheel.arm deadline).2,
      s.held ++ [⟨slot, s.wheel.now, deadline⟩]⟩ := by
    rw [← hslot]
    rfl
  rw [hrun]
  -- the slot was free or is new, so it is no other sleep's
  have hfresh : ∀ x ∈ s.held, x.slot ≠ slot := by
    intro x hx heq
    obtain ⟨hxl, hxp, -⟩ := h.held x hx
    rw [heq] at hxl hxp
    exact hxp (hold hxl)
  refine ⟨chains', pool', ht, ?_, ?_, ?_⟩
  · rw [map_append]
    refine List.nodup_append.mpr ⟨h.once, List.nodup_singleton _, ?_⟩
    intro a ha c hc
    obtain ⟨x, hx, rfl⟩ := mem_map.mp ha
    have hc : c = slot := List.mem_singleton.mp hc
    rw [hc]
    exact hfresh x hx
  · intro x hx
    rcases mem_append.mp hx with hx | hx
    · obtain ⟨hxl, hxp, hxd⟩ := h.held x hx
      refine ⟨(hlen _).mpr (.inl hxl), fun hm => hxp ((hmem _).mp hm).1, ?_⟩
      rw [← hxd]
      exact hother _ (hfresh x hx)
    · cases List.mem_singleton.mp hx
      exact ⟨hlt, hpool, hd⟩
  · intro i hi
    rw [map_append, mem_append]
    rcases (hlen i).mp hi with hi | hi
    · by_cases his : i = slot
      · exact .inr (.inr (List.mem_singleton.mpr his))
      · rcases h.cover i hi with hp | hm
        · exact .inl ((hmem i).mpr ⟨hp, his⟩)
        · exact .inr (.inl hm)
    · exact .inr (.inr (List.mem_singleton.mpr hi))

theorem Kept.poll (k : Nat) (waker : ω) : Kept (s.poll k waker) chains pool := by
  unfold Sleeps.poll
  cases hk : s.held[k]? with
  | none => exact h
  | some sleep =>
    obtain ⟨hlt, -, -⟩ := h.held sleep (mem_of_getElem? hk)
    dsimp only
    split
    · exact h
    rename_i hf
    have hfiled : s.wheel.bucket sleep.slot ≠ NONE :=
      fun heq => hf ((s.wheel.fired_iff _).mpr heq)
    obtain ⟨ht, hd⟩ := h.timely.wait hlt hfiled waker
    have hlen := s.wheel.length_edit sleep.slot fun n => { n with waker := some waker }
    refine ⟨ht, h.once, ?_, ?_⟩
    · intro x hx
      obtain ⟨hxl, hxp, hxd⟩ := h.held x hx
      exact ⟨hlen.symm ▸ hxl, hxp, (hd _).trans hxd⟩
    · intro i hi
      exact h.cover i (hlen ▸ hi)

theorem Kept.drop (k : Nat) : ∃ chains' pool', Kept (s.drop k) chains' pool' := by
  unfold Sleeps.drop
  cases hk : s.held[k]? with
  | none => exact ⟨chains, pool, h⟩
  | some sleep =>
    obtain ⟨hlt, hp, -⟩ := h.held sleep (mem_of_getElem? hk)
    obtain ⟨chains', ht, -, hlen, hd⟩ := h.timely.release hlt hp
    obtain ⟨hkl, hkeq⟩ := List.getElem?_eq_some_iff.mp hk
    -- the sleeps left have other slots
    have hperm : (s.held.map Sleep.slot).Perm
        (sleep.slot :: (s.held.eraseIdx k).map Sleep.slot) := by
      have := (getElem_cons_eraseIdx_perm hkl).symm.map Sleep.slot
      rw [hkeq] at this
      exact this
    have hnd := hperm.nodup_iff.mp h.once
    obtain ⟨hnotin, hrest⟩ := nodup_cons.mp hnd
    have hother : ∀ x ∈ s.held.eraseIdx k, x.slot ≠ sleep.slot := by
      intro x hx heq
      exact hnotin (heq ▸ mem_map_of_mem hx)
    refine ⟨chains', sleep.slot :: pool, ht, hrest, ?_, ?_⟩
    · intro x hx
      obtain ⟨hxl, hxp, hxd⟩ := h.held x (mem_of_mem_eraseIdx hx)
      refine ⟨hlen.symm ▸ hxl, ?_, ?_⟩
      · exact fun hm => (mem_cons.mp hm).elim (hother x hx) hxp
      · exact (hd _ (hother x hx)).trans hxd
    · intro i hi
      rcases h.cover i (hlen ▸ hi) with hm | hm
      · exact .inl (mem_cons_of_mem _ hm)
      · rcases mem_cons.mp (hperm.mem_iff.mp hm) with heq | hm
        · exact .inl (heq ▸ mem_cons_self)
        · exact .inr hm

theorem Kept.advance (ticks : Nat) : ∃ chains', Kept (s.advance ticks) chains' pool := by
  obtain ⟨chains', ht, -, hmoved⟩ := h.timely.upto ticks []
  refine ⟨chains', ht, h.once, ?_, ?_⟩
  · intro x hx
    obtain ⟨hxl, hxp, hxd⟩ := h.held x hx
    exact ⟨hmoved.length.symm ▸ hxl, hxp, (hmoved.deadline _).trans hxd⟩
  · intro i hi
    exact h.cover i (hmoved.length ▸ hi)

end

end Kept

-- == the result

namespace Sleeps

/-- A timer is armed while the clock and a horizon fit a word, so that a build
that checks for overflow does not panic, and while there is an index for it. -/
def Meets (s : Sleeps ω) : Call ω → Prop
  | .sleepUntil _ => s.wheel.now + HORIZON < 2 ^ 64 ∧ s.held.length < NONE
  | _ => True

def MeetsAll : Sleeps ω → List (Call ω) → Prop
  | _, [] => True
  | s, c :: calls => s.Meets c ∧ (s.call c).MeetsAll calls

end Sleeps

section Calls

variable {s : Sleeps ω} {chains : Nat → List Nat} {pool : List Nat}

theorem Kept.call (h : Kept s chains pool) {c : Call ω} (hc : s.Meets c) :
    ∃ chains' pool', Kept (s.call c) chains' pool' := by
  cases c with
  | sleepUntil deadline => exact h.sleepUntil hc.1.le hc.2 deadline
  | poll k waker => exact ⟨chains, pool, h.poll k waker⟩
  | drop k => exact h.drop k
  | advance ticks =>
    obtain ⟨chains', h'⟩ := h.advance ticks
    exact ⟨chains', pool, h'⟩

theorem Kept.run (h : Kept s chains pool) {calls : List (Call ω)} (hmeets : s.MeetsAll calls) :
    ∃ chains' pool', Kept (s.run calls) chains' pool' := by
  induction calls generalizing s chains pool with
  | nil => exact ⟨chains, pool, h⟩
  | cons c calls ih =>
    obtain ⟨chains', pool', h'⟩ := h.call hmeets.1
    exact ih h' hmeets.2

/-- Only `advance` moves the wheel's time, and not past the ticks it is given. -/
theorem Kept.now_le (h : Kept s chains pool) {c : Call ω} (hc : s.Meets c) {clock : Nat}
    (hnow : s.wheel.now ≤ clock) (hticks : ∀ ticks, c = .advance ticks → ticks ≤ clock) :
    (s.call c).wheel.now ≤ clock := by
  cases c with
  | sleepUntil deadline =>
    have hroom : pool = [] → s.wheel.nodes.length < NONE := by
      rintro rfl
      exact Nat.lt_of_le_of_lt h.few hc.2
    obtain ⟨-, -, -, -, -, harm, -⟩ := h.timely.arm hc.1.le hroom deadline
    exact harm.trans_le hnow
  | poll k waker =>
    show (s.poll k waker).wheel.now ≤ clock
    unfold Sleeps.poll
    split
    · exact hnow
    · split <;> exact hnow
  | drop k =>
    show (s.drop k).wheel.now ≤ clock
    unfold Sleeps.drop
    cases hk : s.held[k]? with
    | none => exact hnow
    | some sleep =>
      obtain ⟨hlt, hp, -⟩ := h.held sleep (mem_of_getElem? hk)
      obtain ⟨-, -, hrelease, -⟩ := h.timely.release hlt hp
      exact hrelease.trans_le hnow
  | advance ticks =>
    obtain ⟨-, -, hupto, -⟩ := h.timely.upto ticks []
    exact hupto.trans_le (Nat.max_le.mpr ⟨hnow, hticks ticks rfl⟩)

end Calls

inductive Place where
  | bucket (b : Nat)
  | fired
  | free
  deriving DecidableEq

def Sits (s : Sleeps ω) (chains : Nat → List Nat) (pool : List Nat) (i : Nat) : Place → Prop
  | .bucket b => b < BUCKETS ∧ i ∈ chains b
  | .fired => (s.wheel.node i).fired = true ∧ i ∈ s.held.map Sleep.slot
  | .free => i ∈ pool

/-- What a run of the timers keeps.

* `lists`: the chains of the buckets are doubly linked lists, the free chain
  is a list, and every slot sits in exactly one place.
* `fired`: a timer armed within the horizon has fired exactly if its deadline
  has come.
* `handed`: an `advance` hands out the wakers of the timers that come, once
  each, and leaves those of the others. -/
structure OnTime (s : Sleeps ω) : Prop where
  lists : ∃ chains pool, (∀ b < BUCKETS, Chained s.wheel b (chains b)) ∧ Pooled s.wheel pool
    ∧ ∀ i < s.wheel.nodes.length, ∃! p, Sits s chains pool i p
  once : (s.held.map Sleep.slot).Nodup
  fired : ∀ h ∈ s.held, h.armed < h.deadline → h.deadline < h.armed + HORIZON →
    ((s.wheel.node h.slot).fired = true ↔ h.deadline ≤ s.wheel.now)
  spent : ∀ h ∈ s.held, (s.wheel.node h.slot).fired = true → (s.wheel.node h.slot).waker = none
  clock : ∀ ticks, (s.advance ticks).wheel.now = max s.wheel.now ticks
  handed : ∀ ticks, (s.expired ticks : Multiset ω)
      = (s.wheel.pending.filter fun x => x.1 ≤ ticks).map Prod.snd
    ∧ (s.advance ticks).wheel.pending = s.wheel.pending.filter fun x => ¬ x.1 ≤ ticks

section OnTime

variable {s : Sleeps ω} {chains : Nat → List Nat} {pool : List Nat}

theorem Timely.pending_gt {w : Wheel ω} (h : Timely w chains pool) {x : Nat × ω}
    (hx : x ∈ w.pending) : w.now < x.1 := by
  obtain ⟨i, hi⟩ := mem_iff_getElem?.mp (mem_entries.mp hx)
  rw [getElem?_map] at hi
  obtain ⟨n, hn, hp⟩ := Option.map_eq_some_iff.mp hi
  have hlt := (List.getElem?_eq_some_iff.mp hn).1
  rw [node_getElem? hlt] at hn
  cases hn
  unfold Node.pending at hp
  split at hp
  · cases hp
  · rename_i hf
    obtain ⟨waker, -, rfl⟩ := Option.map_eq_some_iff.mp hp
    exact (h.due i hlt fun heq => hf ((w.fired_iff i).mpr heq)).2

theorem Kept.sits (h : Kept s chains pool) {i : Nat} (hi : i < s.wheel.nodes.length) :
    ∃! p, Sits s chains pool i p := by
  have hl := h.timely.linked
  by_cases hb : s.wheel.bucket i = NONE
  · have hf := (s.wheel.fired_iff i).mpr hb
    by_cases hp : i ∈ pool
    · refine ⟨.free, hp, ?_⟩
      intro p hsits
      cases p with
      | bucket b => exact absurd hsits.2 (hl.not_mem_of_idle hsits.1 hb)
      | fired =>
        obtain ⟨x, hx, rfl⟩ := mem_map.mp hsits.2
        exact absurd hp (h.held x hx).2.1
      | free => rfl
    · have hm : i ∈ s.held.map Sleep.slot := by
        rcases h.cover i hi with hm | hm
        · exact absurd hm hp
        · exact hm
      refine ⟨.fired, ⟨hf, hm⟩, ?_⟩
      intro p hsits
      cases p with
      | bucket b => exact absurd hsits.2 (hl.not_mem_of_idle hsits.1 hb)
      | fired => rfl
      | free => exact absurd hsits hp
  · refine ⟨.bucket (s.wheel.bucket i), hl.mem_chain hi hb, ?_⟩
    intro p hsits
    cases p with
    | bucket b => rw [hl.bucket_of_mem hsits.1 hsits.2]
    | fired => exact absurd ((s.wheel.fired_iff i).mp hsits.1) hb
    | free => exact absurd (hl.pooled.idle i hsits).2 hb

theorem Kept.onTime (h : Kept s chains pool) : OnTime s where
  lists := ⟨chains, pool, h.timely.linked.chained, h.timely.linked.pooled, fun i hi => h.sits hi⟩
  once := h.once
  fired := by
    intro x hx hlo hhi
    obtain ⟨hxl, hxp, hxd⟩ := h.held x hx
    have htick : x.tick = x.deadline := by
      unfold Sleep.tick
      omega
    rw [htick] at hxd
    rw [fired_iff]
    constructor
    · intro hnone
      rw [← hxd]
      exact h.timely.past _ hxl hxp hnone
    · intro hle
      by_cases hne : s.wheel.bucket x.slot = NONE
      · exact hne
      · have := (h.timely.due _ hxl hne).2
        omega
  spent := by
    intro x hx hf
    obtain ⟨hxl, hxp, -⟩ := h.held x hx
    exact h.timely.spent _ hxl hxp ((s.wheel.fired_iff _).mp hf)
  clock := by
    intro ticks
    obtain ⟨chains', -, hnow, -⟩ := h.timely.upto ticks []
    exact hnow
  handed := by
    intro ticks
    obtain ⟨chains', ht, hnow, hmoved⟩ := h.timely.upto ticks []
    obtain ⟨gone, hout, hpend, hgone⟩ := hmoved.handed
    rw [hnow] at hgone
    have hcome : gone.filter (fun x => x.1 ≤ ticks) = gone := by
      refine filter_eq_self.mpr ?_
      intro x hx
      have := hgone x hx
      omega
    have hgoneNot : gone.filter (fun x => ¬ x.1 ≤ ticks) = 0 := by
      refine filter_eq_nil.mpr ?_
      intro x hx
      have := hgone x hx
      omega
    have hlater : ∀ x ∈ (s.wheel.upto ticks []).1.pending, ¬ x.1 ≤ ticks := by
      intro x hx
      have := ht.pending_gt hx
      rw [hnow] at this
      omega
    have hstayNot : (s.wheel.upto ticks []).1.pending.filter (fun x => x.1 ≤ ticks) = 0 :=
      filter_eq_nil.mpr hlater
    have hstay : (s.wheel.upto ticks []).1.pending.filter (fun x => ¬ x.1 ≤ ticks)
        = (s.wheel.upto ticks []).1.pending := filter_eq_self.mpr hlater
    constructor
    · show ((s.wheel.upto ticks []).2 : Multiset ω) = _
      rw [hpend, filter_add, hcome, hstayNot, add_zero, hout]
      exact zero_add _
    · show (s.wheel.upto ticks []).1.pending = _
      rw [hpend, filter_add, hgoneNot, hstay, zero_add]

end OnTime

/-- After any calls, each timer armed while the clock has a horizon left and
an index is free: the timers that have come have fired, those still to come
have not, and an `advance` wakes the sleepers of the former. -/
theorem timers_fire_on_time (calls : List (Call ω))
    (hmeets : (Sleeps.new : Sleeps ω).MeetsAll calls) :
    OnTime ((Sleeps.new : Sleeps ω).run calls) := by
  obtain ⟨chains, pool, h⟩ := Kept.new.run hmeets
  exact h.onTime

/-- A sleeper that waits two ticks. -/
theorem timers_fire_on_time_two :
    let s := (Sleeps.new : Sleeps Nat).run [.sleepUntil 2, .poll 0 7, .advance 1]
    s.expired 2 = [7] ∧ OnTime s := by
  refine ⟨by decide +kernel, timers_fire_on_time _ ⟨⟨?_, ?_⟩, trivial, trivial, trivial⟩⟩
  · decide
  · decide

/-- Near the end of the clock the horizon wraps: a timer set five ticks ahead
has fired at once. -/
theorem timer_near_the_end_fires_at_once :
    let s := (Sleeps.new : Sleeps Nat).run [.advance (2 ^ 64 - 10), .sleepUntil (2 ^ 64 - 5)]
    s.wheel.now = 2 ^ 64 - 10 ∧ s.held = [⟨0, 2 ^ 64 - 10, 2 ^ 64 - 5⟩]
      ∧ (s.wheel.node 0).fired = true := by
  decide +kernel

-- == the clock

theorem Wheel.arm_saturated (w : Wheel ω) (deadline : Nat) :
    w.arm (min deadline (2 ^ 64 - 1)) = w.arm deadline := by
  have hlast : w.lastTick < 2 ^ 64 := Nat.mod_lt _ (by decide)
  have hmin : min (min deadline (2 ^ 64 - 1)) w.lastTick = min deadline w.lastTick := by omega
  unfold arm
  rw [hmin]

namespace Timers

def callOf (t : Timers ω) : Turn ω → Option (Call ω)
  | .tick _ => none
  | .after delay => some (.sleepUntil (t.clock + delay))
  | .sleepUntil deadline => some (.sleepUntil deadline)
  | .poll k waker => some (.poll k waker)
  | .drop k => some (.drop k)
  | .advance => some (.advance t.clock)

theorem turn_of_call {t : Timers ω} {a : Turn ω} {c : Call ω} (hc : t.callOf a = some c) :
    t.turn a = { t with sleeps := t.sleeps.call c } := by
  cases a with
  | tick ticks => cases hc
  | after delay =>
    cases hc
    simp only [turn, after, arm_saturated]
    rfl
  | sleepUntil _ | poll _ _ | drop _ | advance =>
    cases hc
    rfl

def MeetsAll : Timers ω → List (Turn ω) → Prop
  | _, [] => True
  | t, a :: turns => (∀ c ∈ t.callOf a, t.sleeps.Meets c) ∧ (t.turn a).MeetsAll turns

end Timers

def Trailing (t : Timers ω) : Prop :=
  ∃ chains pool, Kept t.sleeps chains pool ∧ t.sleeps.wheel.now ≤ t.clock

theorem Trailing.turn {t : Timers ω} (h : Trailing t) {a : Turn ω}
    (hmeets : ∀ c ∈ t.callOf a, t.sleeps.Meets c) : Trailing (t.turn a) := by
  obtain ⟨chains, pool, hkept, hnow⟩ := h
  cases hc : t.callOf a with
  | none =>
    cases a with
    | tick ticks => exact ⟨chains, pool, hkept, Nat.le_add_right_of_le hnow⟩
    | _ => cases hc
  | some c =>
    rw [Timers.turn_of_call hc]
    obtain ⟨chains', pool', hkept'⟩ := hkept.call (hmeets c hc)
    refine ⟨chains', pool', hkept', hkept.now_le (hmeets c hc) hnow ?_⟩
    rintro ticks rfl
    cases a <;> cases hc
    exact le_rfl

theorem Trailing.run {t : Timers ω} (h : Trailing t) {turns : List (Turn ω)}
    (hmeets : t.MeetsAll turns) : Trailing (t.run turns) := by
  induction turns generalizing t with
  | nil => exact h
  | cons a turns ih => exact ih (h.turn hmeets.1) hmeets.2

/-- After any turns, a sleep armed less than a horizon ahead of the wheel is
not ready before the clock has reached its deadline. -/
theorem sleeps_do_not_end_early (turns : List (Turn ω))
    (hmeets : (Timers.new : Timers ω).MeetsAll turns) :
    ∀ x ∈ ((Timers.new : Timers ω).run turns).sleeps.held, x.deadline < x.armed + HORIZON →
      (((Timers.new : Timers ω).run turns).sleeps.wheel.node x.slot).fired = true →
      x.deadline ≤ ((Timers.new : Timers ω).run turns).clock := by
  obtain ⟨chains, pool, h, hnow⟩ :=
    Trailing.run (t := (Timers.new : Timers ω)) ⟨_, _, .new, Nat.le_refl 0⟩ hmeets
  intro x hx hnear hfired
  obtain ⟨hlt, hpool, hdeadline⟩ := h.held x hx
  have hpast := h.timely.past _ hlt hpool ((Wheel.fired_iff _ _).mp hfired)
  rw [hdeadline] at hpast
  unfold Sleep.tick at hpast
  omega

theorem sleeps_do_not_end_early_two :
    let t := (Timers.new : Timers Nat).run [.tick 5, .after 2, .tick 2, .advance]
    t.sleeps.held = [⟨0, 0, 7⟩] ∧ (t.sleeps.wheel.node 0).fired = true ∧ 7 ≤ t.clock := by
  have hheld : ((Timers.new : Timers Nat).run [.tick 5, .after 2, .tick 2, .advance]).sleeps.held
      = [⟨0, 0, 7⟩] := by decide +kernel
  have hfired : (((Timers.new : Timers Nat).run [.tick 5, .after 2, .tick 2,
      .advance]).sleeps.wheel.node 0).fired = true := by decide +kernel
  refine ⟨hheld, hfired, sleeps_do_not_end_early _ ?_ ⟨0, 0, 7⟩ ?_ (by decide) hfired⟩
  · refine ⟨by simp [Timers.callOf], ?_, by simp [Timers.callOf], ?_, trivial⟩
    · rintro c ⟨⟩
      exact ⟨by decide, by decide⟩
    · rintro c ⟨⟩
      trivial
  · rw [hheld]
    exact mem_cons_self

/-- A wheel a hundred ticks behind clamps the deadline, and the sleep is over
ninety-nine ticks early. -/
theorem lagging_wheel_ends_a_sleep_early :
    let t := (Timers.new : Timers Nat).run
      [.tick 100, .after (HORIZON - 1), .tick (HORIZON - 100), .advance]
    t.clock = HORIZON ∧ t.sleeps.held = [⟨0, 0, 100 + (HORIZON - 1)⟩]
      ∧ (t.sleeps.wheel.node 0).fired = true := by
  decide +kernel

end Molt.Rt
