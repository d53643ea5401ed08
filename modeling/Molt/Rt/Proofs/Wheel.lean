/-
The chains of the wheel.

`Linked` says what the links of a wheel spell: the chain of every bucket, a
doubly linked list of slots that know their bucket; the free chain; and,
inside a loop, the rest of a chain that was taken off its bucket whole
(`Adrift`). A slot's bucket says where it is, so chains cannot share one,
and a slot that is filed is in the chain of its bucket (`cover`).

Each primitive of the wheel moves one slot from one of these places to
another.
-/
import Molt.Lib.Chain
import Molt.Rt.Timer

namespace Molt.Rt

open Molt.Lib List Function Wheel

variable {ω : Type}

-- == nodes

/-- Where a node is: what follows it, what precedes it, and its bucket. -/
def Node.links (n : Node ω) : Nat × Nat × Nat := (n.next, n.prev, n.bucket)

namespace Wheel

variable {w w' : Wheel ω}

def next (w : Wheel ω) (i : Nat) : Nat := (w.node i).next

def prev (w : Wheel ω) (i : Nat) : Nat := (w.node i).prev

def bucket (w : Wheel ω) (i : Nat) : Nat := (w.node i).bucket

@[simp] theorem length_edit (w : Wheel ω) (i : Nat) (f : Node ω → Node ω) :
    (w.edit i f).nodes.length = w.nodes.length := length_modify ..

theorem node_edit_self {i : Nat} (hi : i < w.nodes.length) (f : Node ω → Node ω) :
    (w.edit i f).node i = f (w.node i) := by
  simp [node, edit, getD_eq_getElem?_getD, hi]

theorem node_edit_ne {i j : Nat} (hne : j ≠ i) (f : Node ω → Node ω) :
    (w.edit i f).node j = w.node j := by
  simp [node, edit, getD_eq_getElem?_getD, hne.symm]

theorem node_edit {i : Nat} (hi : i < w.nodes.length) (f : Node ω → Node ω) (j : Nat) :
    (w.edit i f).node j = if j = i then f (w.node i) else w.node j := by
  by_cases hj : j = i
  · rw [if_pos hj, hj]
    exact node_edit_self hi f
  · rw [if_neg hj]
    exact node_edit_ne hj f

theorem head_set (w : Wheel ω) {b : Nat} (hb : b < w.heads.length) (s b' : Nat) :
    ({ w with heads := w.heads.set b s } : Wheel ω).head b' = if b' = b then s else w.head b' := by
  unfold head
  by_cases hbb : b' = b
  · subst hbb
    simp [getD_eq_getElem?_getD, hb]
  · simp [getD_eq_getElem?_getD, getElem?_set_ne (Ne.symm hbb), hbb]

end Wheel

-- == chains

structure Chained (w : Wheel ω) (b : Nat) (l : List Nat) : Prop where
  ahead : Path NONE w.next (w.head b) l
  behind : Back w.prev NONE l
  once : l.Nodup
  filed : ∀ i ∈ l, i < w.nodes.length ∧ w.bucket i = b

structure Pooled (w : Wheel ω) (pool : List Nat) : Prop where
  ahead : Path NONE w.next w.free pool
  once : pool.Nodup
  idle : ∀ i ∈ pool, i < w.nodes.length ∧ w.bucket i = NONE

/-- The rest of a chain that was taken off its bucket. -/
structure Adrift (w : Wheel ω) (b cursor : Nat) (limbo : List Nat) : Prop where
  ahead : Path NONE w.next cursor limbo
  once : limbo.Nodup
  filed : ∀ i ∈ limbo, i < w.nodes.length ∧ w.bucket i = b

structure Linked (w : Wheel ω) (chains : Nat → List Nat) (pool : List Nat)
    (b cursor : Nat) (limbo : List Nat) : Prop where
  heads : w.heads.length = BUCKETS
  few : w.nodes.length ≤ NONE
  chained : ∀ b' < BUCKETS, Chained w b' (chains b')
  pooled : Pooled w pool
  adrift : Adrift w b cursor limbo
  below : b < BUCKETS
  apart : limbo ≠ [] → chains b = []
  cover : ∀ i < w.nodes.length, w.bucket i = NONE
    ∨ w.bucket i < BUCKETS ∧ (i ∈ chains (w.bucket i) ∨ i ∈ limbo)

section Chains

variable {w w' : Wheel ω} {l pool limbo : List Nat} {b cursor : Nat}

theorem BUCKETS_lt_NONE : BUCKETS < NONE := by decide

theorem bucket_ne_none {b : Nat} (hb : b < BUCKETS) : b ≠ NONE :=
  Nat.ne_of_lt (Nat.lt_trans hb BUCKETS_lt_NONE)

theorem links_ext {i : Nat} (h : (w'.node i).links = (w.node i).links) :
    w'.next i = w.next i ∧ w'.prev i = w.prev i ∧ w'.bucket i = w.bucket i := by
  obtain ⟨hn, hp, hb⟩ := Prod.mk.inj h |>.imp_right Prod.mk.inj
  exact ⟨hn, hp, hb⟩

theorem Chained.congr (h : Chained w b l) (hlen : w.nodes.length ≤ w'.nodes.length)
    (hhead : w'.head b = w.head b) (hl : ∀ i ∈ l, (w'.node i).links = (w.node i).links) :
    Chained w' b l where
  ahead := by
    rw [hhead]
    exact h.ahead.congr fun i hi => (links_ext (hl i hi)).1
  behind := h.behind.congr fun i hi => (links_ext (hl i hi)).2.1
  once := h.once
  filed := fun i hi => by
    obtain ⟨hlt, hb⟩ := h.filed i hi
    exact ⟨hlt.trans_le hlen, (links_ext (hl i hi)).2.2.trans hb⟩

theorem Pooled.congr (h : Pooled w pool) (hlen : w.nodes.length ≤ w'.nodes.length)
    (hfree : w'.free = w.free) (hl : ∀ i ∈ pool, (w'.node i).links = (w.node i).links) :
    Pooled w' pool where
  ahead := by
    rw [hfree]
    exact h.ahead.congr fun i hi => (links_ext (hl i hi)).1
  once := h.once
  idle := fun i hi => by
    obtain ⟨hlt, hb⟩ := h.idle i hi
    exact ⟨hlt.trans_le hlen, (links_ext (hl i hi)).2.2.trans hb⟩

theorem Adrift.congr (h : Adrift w b cursor limbo) (hlen : w.nodes.length ≤ w'.nodes.length)
    (hl : ∀ i ∈ limbo, (w'.node i).links = (w.node i).links) : Adrift w' b cursor limbo where
  ahead := h.ahead.congr fun i hi => (links_ext (hl i hi)).1
  once := h.once
  filed := fun i hi => by
    obtain ⟨hlt, hb⟩ := h.filed i hi
    exact ⟨hlt.trans_le hlen, (links_ext (hl i hi)).2.2.trans hb⟩

theorem Adrift.none (w : Wheel ω) (b : Nat) : Adrift w b NONE [] where
  ahead := rfl
  once := nodup_nil
  filed := fun i hi => by cases hi

end Chains

section Linked

variable {w w' : Wheel ω} {chains : Nat → List Nat} {pool limbo : List Nat} {b cursor : Nat}

theorem Linked.new : Linked (.new : Wheel ω) (fun _ => []) [] 0 NONE [] where
  heads := length_replicate
  few := Nat.zero_le _
  chained := fun b hb => by
    refine ⟨?_, trivial, nodup_nil, fun i hi => by cases hi⟩
    simp [Molt.Lib.Path, Wheel.head, Wheel.new, getD_eq_getElem?_getD, hb]
  pooled := ⟨rfl, nodup_nil, fun i hi => by cases hi⟩
  adrift := .none _ _
  below := by decide
  apart := fun _ => rfl
  cover := fun i hi => by cases hi

theorem Linked.rest (h : Linked w chains pool b cursor []) {b' : Nat} (hb : b' < BUCKETS) :
    Linked w chains pool b' NONE [] :=
  { h with
    adrift := .none _ _
    below := hb
    apart := fun hne => absurd rfl hne }

section

variable (h : Linked w chains pool b cursor limbo)

include h

theorem Linked.congr (hlen : w'.nodes.length = w.nodes.length) (hheads : w'.heads = w.heads)
    (hfree : w'.free = w.free) (hl : ∀ i, (w'.node i).links = (w.node i).links) :
    Linked w' chains pool b cursor limbo where
  heads := by rw [hheads, h.heads]
  few := by rw [hlen]; exact h.few
  chained := fun b' hb => by
    refine (h.chained b' hb).congr (Nat.le_of_eq hlen.symm) ?_ fun i _ => hl i
    rw [Wheel.head, hheads]
    rfl
  pooled := h.pooled.congr (Nat.le_of_eq hlen.symm) hfree fun i _ => hl i
  adrift := h.adrift.congr (Nat.le_of_eq hlen.symm) fun i _ => hl i
  below := h.below
  apart := h.apart
  cover := fun i hi => by
    rw [hlen] at hi
    rw [(links_ext (hl i)).2.2]
    exact h.cover i hi

theorem Linked.ne_none {i : Nat}
    (hi : i < w.nodes.length) : i ≠ NONE := Nat.ne_of_lt (Nat.lt_of_lt_of_le hi h.few)

theorem Linked.bucket_of_mem {b' i : Nat}
    (hb : b' < BUCKETS) (hi : i ∈ chains b') : w.bucket i = b' := ((h.chained b' hb).filed i hi).2

theorem Linked.not_mem_of_idle {b' i : Nat}
    (hb : b' < BUCKETS) (hidle : w.bucket i = NONE) : i ∉ chains b' := by
  intro hi
  exact bucket_ne_none hb ((h.bucket_of_mem hb hi).symm.trans hidle)

end

-- -- off its bucket

/-- Emptying a bucket leaves its chain in hand. -/
theorem Linked.empty (h : Linked w chains pool b cursor []) {b' : Nat} (hb : b' < BUCKETS) :
    Linked (w.empty b').2 (Function.update chains b' []) pool b' (w.empty b').1 (chains b') := by
  have hlt : b' < w.heads.length := by
    rw [h.heads]
    exact hb
  have hhead : ∀ c, (w.empty b').2.head c = if c = b' then NONE else w.head c :=
    fun c => w.head_set hlt NONE c
  refine ⟨?_, h.few, ?_, ?_, ?_, hb, ?_, ?_⟩
  · exact length_set.trans h.heads
  · intro c hc
    by_cases hcb : c = b'
    · subst hcb
      rw [update_self]
      refine ⟨?_, trivial, nodup_nil, fun i hi => by cases hi⟩
      rw [hhead, if_pos rfl]
      rfl
    · rw [update_of_ne hcb]
      refine (h.chained c hc).congr le_rfl ?_ fun i _ => rfl
      rw [hhead, if_neg hcb]
  · exact h.pooled.congr le_rfl rfl fun i _ => rfl
  · have hchain := h.chained b' hb
    exact ⟨hchain.ahead, hchain.once, hchain.filed⟩
  · intro _
    exact update_self ..
  · intro i hi
    rcases h.cover i hi with hnone | ⟨hlt, hmem | hmem⟩
    · exact .inl hnone
    · refine .inr ⟨hlt, ?_⟩
      by_cases hbi : w.bucket i = b'
      · rw [hbi] at hmem
        exact .inr hmem
      · refine .inl ?_
        show i ∈ Function.update chains b' [] (w.bucket i)
        rw [update_of_ne hbi]
        exact hmem
    · cases hmem

/-- Cutting takes the first node of the chain in hand. -/
theorem Linked.cut {a : Nat} (h : Linked w chains pool b cursor (a :: limbo)) :
    Linked (w.cut a).2 chains pool b (w.cut a).1 limbo := by
  obtain ⟨-, hane, hpath⟩ := h.adrift.ahead
  obtain ⟨hnotin, honce⟩ := nodup_cons.mp h.adrift.once
  obtain ⟨ha, hba⟩ := h.adrift.filed a mem_cons_self
  have hempty := h.apart (cons_ne_nil _ _)
  have hlen : (w.cut a).2.nodes.length = w.nodes.length := w.length_edit a _
  have hsame : ∀ i, i ≠ a → ((w.cut a).2.node i).links = (w.node i).links := by
    intro i hi
    rw [Wheel.cut, Wheel.node_edit_ne hi]
  refine ⟨h.heads, ?_, ?_, ?_, ?_, h.below, ?_, ?_⟩
  · rw [hlen]
    exact h.few
  · intro c hc
    refine (h.chained c hc).congr (Nat.le_of_eq hlen.symm) rfl ?_
    intro i hi
    apply hsame
    rintro rfl
    have hcb : c = b := (h.bucket_of_mem hc hi).symm.trans hba
    rw [hcb, hempty] at hi
    cases hi
  · refine h.pooled.congr (Nat.le_of_eq hlen.symm) rfl ?_
    intro i hi
    apply hsame
    rintro rfl
    exact bucket_ne_none h.below (hba.symm.trans (h.pooled.idle i hi).2)
  · have hrest : Adrift w b (w.next a) limbo :=
      ⟨hpath, honce, fun i hi => h.adrift.filed i (mem_cons_of_mem a hi)⟩
    refine hrest.congr (Nat.le_of_eq hlen.symm) ?_
    intro i hi
    apply hsame
    rintro rfl
    exact hnotin hi
  · intro _
    exact hempty
  · intro i hi
    rw [hlen] at hi
    by_cases hia : i = a
    · refine .inl ?_
      rw [hia, Wheel.bucket, Wheel.cut, Wheel.node_edit_self ha]
    rw [(links_ext (hsame i hia)).2.2]
    rcases h.cover i hi with hnone | ⟨hlt, hmem | hmem⟩
    · exact .inl hnone
    · exact .inr ⟨hlt, .inl hmem⟩
    · rcases mem_cons.mp hmem with heq | hmem
      · exact absurd heq hia
      · exact .inr ⟨hlt, .inr hmem⟩

-- -- into a bucket

theorem node_link {a c : Nat} (ha : a < w.nodes.length)
    (hs : w.head c ≠ NONE → w.head c < w.nodes.length ∧ w.head c ≠ a) (i : Nat) :
    (w.link a c).node i = if i = a then { w.node a with
        bucket := c, prev := NONE, next := w.head c }
      else if w.head c ≠ NONE ∧ i = w.head c then { w.node i with prev := a }
      else w.node i := by
  unfold link
  by_cases hnone : w.head c = NONE
  · simp only [hnone, ne_eq, not_true_eq_false, if_false, false_and]
    exact w.node_edit ha _ i
  obtain ⟨hlt, hne⟩ := hs hnone
  simp only [hnone, ne_eq, not_false_eq_true, if_true, true_and]
  show ((w.edit a _).edit (w.head c) _).node i = _
  rw [node_edit (by rw [length_edit]; exact hlt), node_edit_ne hne]
  by_cases hi : i = w.head c
  · rw [if_pos hi, if_neg (hi ▸ hne), if_pos hi, hi]
  · rw [if_neg hi, node_edit ha]
    by_cases hia : i = a
    · rw [if_pos hia, if_pos hia]
    · rw [if_neg hia, if_neg hia, if_neg hi]

theorem length_link (w : Wheel ω) (a c : Nat) : (w.link a c).nodes.length = w.nodes.length := by
  unfold link
  dsimp only
  split
  · simp
  · simp

theorem heads_link (w : Wheel ω) (a c : Nat) : (w.link a c).heads = w.heads.set c a := by
  unfold link
  dsimp only
  split <;> rfl

theorem free_link (w : Wheel ω) (a c : Nat) : (w.link a c).free = w.free := by
  unfold link
  dsimp only
  split <;> rfl

theorem head_link {a c : Nat} (hc : c < w.heads.length) (d : Nat) :
    (w.link a c).head d = if d = c then a else w.head d := by
  rw [Wheel.head, heads_link]
  exact w.head_set hc a d

section Link

variable {l : List Nat} {a c i : Nat}

theorem Chained.head_mem (h : Chained w c l) (hne : w.head c ≠ NONE) : w.head c ∈ l := by
  have hpath := h.ahead
  cases l with
  | nil => exact absurd hpath hne
  | cons x l =>
    rw [hpath.1]
    exact mem_cons_self

theorem Chained.head_apart (h : Chained w c l) (hal : a ∉ l) (hne : w.head c ≠ NONE) :
    w.head c < w.nodes.length ∧ w.head c ≠ a :=
  ⟨(h.filed _ (h.head_mem hne)).1, fun heq => hal (heq ▸ h.head_mem hne)⟩

section Off

variable (ha : a < w.nodes.length) (hal : a ∉ l)
include ha hal

section

variable (h : Chained w c l) (hia : i ≠ a)

include h hia

theorem Chained.bucket_link : (w.link a c).bucket i = w.bucket i := by
  unfold bucket
  rw [node_link ha (h.head_apart hal), if_neg hia]
  split <;> rfl

theorem Chained.next_link : (w.link a c).next i = w.next i := by
  unfold Wheel.next
  rw [node_link ha (h.head_apart hal), if_neg hia]
  split <;> rfl

theorem Chained.links_link (hih : ¬ (w.head c ≠ NONE ∧ i = w.head c)) :
    ((w.link a c).node i).links = (w.node i).links := by
  rw [node_link ha (h.head_apart hal), if_neg hia, if_neg hih]

theorem Chained.links_link_of_ne (hib : w.bucket i ≠ c) :
    ((w.link a c).node i).links = (w.node i).links := by
  refine h.links_link ha hal hia ?_
  rintro ⟨hne, rfl⟩
  exact hib (h.filed _ (h.head_mem hne)).2

end

/-- Linking puts a node at the head of the chain. -/
theorem Chained.link (h : Chained w c l) (hfew : w.nodes.length ≤ NONE)
    (hc : c < w.heads.length) : Chained (w.link a c) c (a :: l) := by
  have hself : (w.link a c).node a
      = { w.node a with bucket := c, prev := NONE, next := w.head c } := by
    rw [node_link ha (h.head_apart hal), if_pos rfl]
  have hneq : ∀ i ∈ l, i ≠ a := fun i hi heq => hal (heq ▸ hi)
  refine ⟨?_, ?_, nodup_cons.mpr ⟨hal, h.once⟩, fun i hi => ?_⟩
  · rw [head_link hc, if_pos rfl]
    refine h.ahead.push (Nat.ne_of_lt (ha.trans_le hfew)) ?_ fun i hi =>
      h.next_link ha hal (hneq i hi)
    rw [Wheel.next, hself]
  · refine h.behind.push ?_ (fun i hi => ?_) fun i hi => ?_
    · rw [Wheel.prev, hself]
    · have hmem : i ∈ l := mem_of_mem_head? hi
      have hhd : w.head c = i := by
        have hpath := h.ahead
        cases l with
        | nil => cases hmem
        | cons x l => exact hpath.1.trans (Option.some.inj hi)
      rw [Wheel.prev, node_link ha (h.head_apart hal), if_neg (hneq i hmem), if_pos]
      exact ⟨hhd ▸ Nat.ne_of_lt (Nat.lt_of_lt_of_le (h.filed i hmem).1 hfew), hhd.symm⟩
    · refine (links_ext (h.links_link ha hal (hneq i (mem_of_mem_tail hi)) ?_)).2.1
      rintro ⟨-, rfl⟩
      have hpath := h.ahead
      have hnd := h.once
      cases l with
      | nil => cases hi
      | cons x l =>
        rw [hpath.1] at hi
        exact (nodup_cons.mp hnd).1 hi
  · rw [length_link]
    rcases mem_cons.mp hi with rfl | hi
    · refine ⟨ha, ?_⟩
      rw [bucket, hself]
    · obtain ⟨hlt, hb⟩ := h.filed i hi
      exact ⟨hlt, (h.bucket_link ha hal (hneq i hi)).trans hb⟩

end Off

theorem Linked.head_apart (h : Linked w chains pool b cursor limbo) (hc : c < BUCKETS)
    (hidle : w.bucket a = NONE) (hne : w.head c ≠ NONE) :
    w.head c < w.nodes.length ∧ w.head c ≠ a :=
  (h.chained c hc).head_apart (h.not_mem_of_idle hc hidle) hne

/-- A slot that is neither filed nor free is filed. -/
theorem Linked.link (h : Linked w chains pool b cursor limbo)
    (ha : a < w.nodes.length) (hidle : w.bucket a = NONE) (hpool : a ∉ pool) (hc : c < BUCKETS)
    (hsep : limbo ≠ [] → c ≠ b) :
    Linked (w.link a c) (Function.update chains c (a :: chains c)) pool b cursor limbo := by
  have hchain := h.chained c hc
  have hal := h.not_mem_of_idle hc hidle
  have hlt : c < w.heads.length := h.heads ▸ hc
  have hlen := length_link w a c
  have hlinked := hchain.link ha hal h.few hlt
  refine ⟨?_, ?_, ?_, ?_, ?_, h.below, ?_, ?_⟩
  · rw [heads_link]
    exact length_set.trans h.heads
  · rw [hlen]
    exact h.few
  · intro d hd
    by_cases hdc : d = c
    · subst hdc
      rw [update_self]
      exact hlinked
    · rw [update_of_ne hdc]
      refine (h.chained d hd).congr (Nat.le_of_eq hlen.symm) ?_ fun i hi => ?_
      · rw [head_link hlt, if_neg hdc]
      refine hchain.links_link_of_ne ha hal ?_ ?_
      · rintro rfl
        exact h.not_mem_of_idle hd hidle hi
      · rw [h.bucket_of_mem hd hi]
        exact hdc
  · refine h.pooled.congr (Nat.le_of_eq hlen.symm) (free_link w a c) fun i hi => ?_
    refine hchain.links_link_of_ne ha hal ?_ ?_
    · rintro rfl
      exact hpool hi
    · rw [(h.pooled.idle i hi).2]
      exact (bucket_ne_none hc).symm
  · refine h.adrift.congr (Nat.le_of_eq hlen.symm) fun i hi => ?_
    have hbi := (h.adrift.filed i hi).2
    refine hchain.links_link_of_ne ha hal ?_ ?_
    · rintro rfl
      exact bucket_ne_none h.below (hbi.symm.trans hidle)
    · rw [hbi]
      exact (hsep (ne_nil_of_mem hi)).symm
  · intro hne
    rw [update_of_ne (hsep hne).symm]
    exact h.apart hne
  · intro i hi
    rw [hlen] at hi
    by_cases hia : i = a
    · refine .inr ?_
      rw [hia, (hlinked.filed a mem_cons_self).2, update_self]
      exact ⟨hc, .inl mem_cons_self⟩
    · rw [hchain.bucket_link ha hal hia]
      rcases h.cover i hi with hnone | ⟨hlt, hmem | hmem⟩
      · exact .inl hnone
      · refine .inr ⟨hlt, .inl ?_⟩
        by_cases hbc : w.bucket i = c
        · rw [hbc, update_self]
          rw [hbc] at hmem
          exact mem_cons_of_mem a hmem
        · rw [update_of_ne hbc]
          exact hmem
      · exact .inr ⟨hlt, .inr hmem⟩

end Link

-- -- out of a bucket

section Unlink

variable {l : List Nat} {a c i : Nat}

theorem Chained.prev_mem (h : Chained w c l) (ha : a ∈ l) (hne : w.prev a ≠ NONE) :
    w.prev a ∈ l ∧ w.next (w.prev a) = a := by
  rcases h.ahead.next_prev h.behind ha with ⟨-, hnone⟩ | hpair
  · exact absurd hnone hne
  · exact hpair

theorem Chained.next_mem (h : Chained w c l) (ha : a ∈ l) (hne : w.next a ≠ NONE) :
    w.next a ∈ l ∧ w.prev (w.next a) = a := by
  rcases h.ahead.prev_next h.behind ha with hnone | hpair
  · exact absurd hnone hne
  · exact hpair

/-- Unlinking joins the neighbours and touches no other node. -/
theorem Chained.node_unlink (h : Chained w c l) (hal : a ∈ l) (i : Nat) :
    (w.unlink a).node i
      = if i = a then { w.node a with bucket := NONE, prev := NONE, next := NONE }
        else { w.node i with
          next := if w.prev a ≠ NONE ∧ i = w.prev a then w.next a else w.next i
          prev := if w.next a ≠ NONE ∧ i = w.next a then w.prev a else w.prev i } := by
  have ha := (h.filed a hal).1
  -- the neighbours are other slots of the chain
  have hn : w.next a ≠ NONE → w.next a < w.nodes.length ∧ w.next a ≠ a := fun hne =>
    ⟨(h.filed _ (h.next_mem hal hne).1).1, h.ahead.next_ne h.once hal⟩
  have hp : w.prev a ≠ NONE → w.prev a < w.nodes.length ∧ w.prev a ≠ a := by
    intro hne
    obtain ⟨hmem, hnext⟩ := h.prev_mem hal hne
    refine ⟨(h.filed _ hmem).1, fun heq => ?_⟩
    rw [heq] at hnext
    exact h.ahead.next_ne h.once hal hnext
  -- the two writes to the neighbours, one after the other
  have hfirst : ∀ j, ((if w.prev a = NONE then
        { w with heads := w.heads.set (w.bucket a) (w.next a) }
      else w.edit (w.prev a) fun n => { n with next := w.next a }).node j)
      = { w.node j with
          next := if w.prev a ≠ NONE ∧ j = w.prev a then w.next a else w.next j } := by
    intro j
    by_cases hnone : w.prev a = NONE
    · rw [if_pos hnone, if_neg (fun h => h.1 hnone)]
      rfl
    rw [if_neg hnone, node_edit (hp hnone).1]
    by_cases hj : j = w.prev a
    · rw [if_pos hj, if_pos ⟨hnone, hj⟩, hj]
    · rw [if_neg hj, if_neg fun h => hj h.2]
      rfl
  have hlen : ∀ v : Wheel ω, v = (if w.prev a = NONE then
        { w with heads := w.heads.set (w.bucket a) (w.next a) }
      else w.edit (w.prev a) fun n => { n with next := w.next a }) →
      v.nodes.length = w.nodes.length := by
    intro v hv
    rw [hv]
    split
    · rfl
    · simp
  unfold unlink cut
  generalize hv : (if w.prev a = NONE then
        { w with heads := w.heads.set (w.bucket a) (w.next a) }
      else w.edit (w.prev a) fun n => { n with next := w.next a }) = v at hfirst
  have hv' := hlen v hv.symm
  show (((if w.next a ≠ NONE then
      (if w.prev a = NONE then { w with heads := w.heads.set (w.bucket a) (w.next a) }
        else w.edit (w.prev a) fun n => { n with next := w.next a }).edit (w.next a)
          fun n => { n with prev := w.prev a }
      else if w.prev a = NONE then { w with heads := w.heads.set (w.bucket a) (w.next a) }
        else w.edit (w.prev a) fun n => { n with next := w.next a }).edit a _).node i) = _
  rw [hv]
  have hself : v.node a = w.node a := by
    rw [hfirst]
    have : ¬ (w.prev a ≠ NONE ∧ a = w.prev a) := fun h => (hp h.1).2 h.2.symm
    rw [if_neg this]
    rfl
  by_cases hnone : w.next a = NONE
  · rw [if_neg (fun h => h hnone), node_edit (hv' ▸ ha)]
    by_cases hi : i = a
    · rw [if_pos hi, if_pos hi, hself]
    · have hprev : (if w.next a ≠ NONE ∧ i = w.next a then w.prev a else w.prev i) = w.prev i :=
        if_neg fun h => h.1 hnone
      rw [if_neg hi, if_neg hi, hfirst, hprev]
      rfl
  · obtain ⟨hlt, hne⟩ := hn hnone
    rw [if_pos hnone, node_edit (by rw [length_edit, hv']; exact ha), node_edit_ne hne.symm, hself]
    by_cases hi : i = a
    · rw [if_pos hi, if_pos hi]
    rw [if_neg hi, if_neg hi, node_edit (hv' ▸ hlt)]
    by_cases hin : i = w.next a
    · have hprev : (if w.next a ≠ NONE ∧ i = w.next a then w.prev a else w.prev i) = w.prev a :=
        if_pos ⟨hnone, hin⟩
      have hat : v.node (w.next a) = v.node i := by rw [hin]
      rw [if_pos hin, hprev, hat, hfirst]
    · have hprev : (if w.next a ≠ NONE ∧ i = w.next a then w.prev a else w.prev i) = w.prev i :=
        if_neg fun h => hin h.2
      rw [if_neg hin, hfirst, hprev]
      rfl

theorem length_unlink (w : Wheel ω) (a : Nat) : (w.unlink a).nodes.length = w.nodes.length := by
  unfold unlink cut
  dsimp only
  split <;> split <;> simp

theorem free_unlink (w : Wheel ω) (a : Nat) : (w.unlink a).free = w.free := by
  unfold unlink cut
  dsimp only
  split <;> split <;> rfl

theorem heads_unlink (w : Wheel ω) (a : Nat) : (w.unlink a).heads
    = if w.prev a = NONE then w.heads.set (w.bucket a) (w.next a) else w.heads := by
  unfold unlink cut
  dsimp only
  show (edit _ a _).heads = if (w.node a).prev = NONE then _ else _
  split <;> split <;> rfl

theorem Chained.bucket_unlink (h : Chained w c l) (ha : a ∈ l) (hia : i ≠ a) :
    (w.unlink a).bucket i = w.bucket i := by
  rw [bucket, h.node_unlink ha, if_neg hia]
  rfl

theorem Chained.links_unlink (h : Chained w c l) (ha : a ∈ l) (hi : w.bucket i ≠ c) :
    ((w.unlink a).node i).links = (w.node i).links := by
  have hout : i ∉ l := fun hmem => hi (h.filed i hmem).2
  have hia : i ≠ a := fun heq => hout (heq ▸ ha)
  have hip : ¬ (w.prev a ≠ NONE ∧ i = w.prev a) := fun hp =>
    hout (hp.2 ▸ (h.prev_mem ha hp.1).1)
  have hin : ¬ (w.next a ≠ NONE ∧ i = w.next a) := fun hn =>
    hout (hn.2 ▸ (h.next_mem ha hn.1).1)
  rw [h.node_unlink ha, if_neg hia, if_neg hip, if_neg hin]
  rfl

section Few

variable (hfew : w.nodes.length ≤ NONE)
include hfew

section

variable (h : Chained w c l)

include h

theorem Chained.ne_none (hi : i ∈ l) : i ≠ NONE :=
  Nat.ne_of_lt (Nat.lt_of_lt_of_le (h.filed i hi).1 hfew)

theorem Chained.head_eq_iff (ha : a ∈ l) : w.head c = a ↔ w.prev a = NONE := by
  constructor
  · intro hhead
    have hpath := h.ahead
    have hbk := h.behind
    cases l with
    | nil => cases ha
    | cons x l =>
      rw [← hhead, hpath.1]
      exact hbk.1
  · intro hnone
    rcases h.ahead.next_prev h.behind ha with ⟨hs, -⟩ | ⟨hmem, -⟩
    · exact hs
    · exact absurd hnone (h.ne_none hfew hmem)

theorem Chained.head_unlink (hc : c < w.heads.length) (ha : a ∈ l) (d : Nat) :
    (w.unlink a).head d = if d = c ∧ w.head c = a then w.next a else w.head d := by
  rw [Wheel.head, heads_unlink, (h.filed a ha).2]
  by_cases hs : w.head c = a
  · rw [if_pos ((h.head_eq_iff hfew ha).mp hs)]
    refine (w.head_set hc (w.next a) d).trans ?_
    simp only [hs, and_true]
  · rw [if_neg (mt (h.head_eq_iff hfew ha).mpr hs), if_neg fun h => hs h.2]
    rfl

theorem Chained.next_unlink (ha : a ∈ l) (hi : i ∈ l) (hia : i ≠ a) :
    (w.unlink a).next i = if w.next i = a then w.next a else w.next i := by
  rw [Wheel.next, h.node_unlink ha, if_neg hia]
  show (if w.prev a ≠ NONE ∧ i = w.prev a then w.next a else w.next i) = _
  by_cases hnext : w.next i = a
  · obtain ⟨-, hprev⟩ := h.next_mem hi (hnext ▸ h.ne_none hfew ha)
    rw [hnext] at hprev
    rw [if_pos hnext, if_pos ⟨hprev ▸ h.ne_none hfew hi, hprev.symm⟩]
  · rw [if_neg hnext, if_neg]
    rintro ⟨hne, rfl⟩
    exact hnext (h.prev_mem ha hne).2

theorem Chained.prev_unlink (ha : a ∈ l) (hi : i ∈ l) (hia : i ≠ a) :
    (w.unlink a).prev i = if w.prev i = a then w.prev a else w.prev i := by
  rw [Wheel.prev, h.node_unlink ha, if_neg hia]
  show (if w.next a ≠ NONE ∧ i = w.next a then w.prev a else w.prev i) = _
  by_cases hprev : w.prev i = a
  · obtain ⟨-, hnext⟩ := h.prev_mem hi (hprev ▸ h.ne_none hfew ha)
    rw [hprev] at hnext
    rw [if_pos hprev, if_pos ⟨hnext ▸ h.ne_none hfew hi, hnext.symm⟩]
  · rw [if_neg hprev, if_neg]
    rintro ⟨hne, rfl⟩
    exact hprev (h.next_mem ha hne).2

theorem Chained.unlink (hc : c < w.heads.length) (ha : a ∈ l) :
    Chained (w.unlink a) c (l.erase a) := by
  have hmem : ∀ i ∈ l.erase a, i ≠ a ∧ i ∈ l := fun i => h.once.mem_erase_iff.mp
  obtain ⟨l1, l2, -, hl, herase⟩ := exists_erase_eq ha
  have hpath := hl ▸ h.ahead
  have hback := hl ▸ h.behind
  have honce := hl ▸ h.once
  refine ⟨?_, ?_, h.once.erase a, fun i hi => ?_⟩
  · rw [h.head_unlink hfew hc ha]
    simp only [true_and, herase]
    refine hpath.remove honce fun i hi => ?_
    obtain ⟨hia, hi⟩ := hmem i (herase ▸ hi)
    exact h.next_unlink hfew ha hi hia
  · rw [herase]
    refine hback.remove (h.ne_none hfew ha).symm honce fun i hi => ?_
    obtain ⟨hia, hi⟩ := hmem i (herase ▸ hi)
    exact h.prev_unlink hfew ha hi hia
  · obtain ⟨hia, hi⟩ := hmem i hi
    rw [length_unlink, h.bucket_unlink ha hia]
    exact h.filed i hi

end

end Few

theorem Linked.unlink (h : Linked w chains pool b cursor []) {a : Nat}
    (ha : a < w.nodes.length) (hfiled : w.bucket a ≠ NONE) :
    (∃ l, Linked (w.unlink a) (Function.update chains (w.bucket a) l) pool b NONE [])
      ∧ (w.unlink a).bucket a = NONE
      ∧ ∀ i, i ≠ a → (w.unlink a).bucket i = w.bucket i
        ∧ ((w.unlink a).node i).deadline = (w.node i).deadline
        ∧ ((w.unlink a).node i).waker = (w.node i).waker := by
  obtain ⟨hc, hmem⟩ : w.bucket a < BUCKETS ∧ a ∈ chains (w.bucket a) := by
    rcases h.cover a ha with hnone | ⟨hc, hmem | hmem⟩
    · exact absurd hnone hfiled
    · exact ⟨hc, hmem⟩
    · cases hmem
  generalize w.bucket a = c at hc hmem ⊢
  have hchain := h.chained c hc
  have hlen := length_unlink w a
  have hself : (w.unlink a).bucket a = NONE := by
    rw [bucket, hchain.node_unlink hmem, if_pos rfl]
  refine ⟨⟨(chains c).erase a, ?_, ?_, ?_, ?_, .none _ _, h.below, fun hne => absurd rfl hne, ?_⟩,
    hself, fun i hi => ⟨hchain.bucket_unlink hmem hi, ?_, ?_⟩⟩
  · rw [heads_unlink]
    split
    · exact length_set.trans h.heads
    · exact h.heads
  · rw [hlen]
    exact h.few
  · intro d hd
    by_cases hdc : d = c
    · subst hdc
      rw [update_self]
      exact hchain.unlink h.few (h.heads ▸ hc) hmem
    · rw [update_of_ne hdc]
      refine (h.chained d hd).congr (Nat.le_of_eq hlen.symm) ?_ fun i hi => ?_
      · rw [hchain.head_unlink h.few (h.heads ▸ hc) hmem, if_neg fun h => hdc h.1]
      · refine hchain.links_unlink hmem ?_
        rw [h.bucket_of_mem hd hi]
        exact hdc
  · refine h.pooled.congr (Nat.le_of_eq hlen.symm) (free_unlink w a) fun i hi => ?_
    refine hchain.links_unlink hmem ?_
    rw [(h.pooled.idle i hi).2]
    exact (bucket_ne_none hc).symm
  · intro i hi
    rw [hlen] at hi
    by_cases hia : i = a
    · exact .inl (hia ▸ hself)
    rw [hchain.bucket_unlink hmem hia]
    rcases h.cover i hi with hnone | ⟨hlt, hm | hm⟩
    · exact .inl hnone
    · refine .inr ⟨hlt, .inl ?_⟩
      by_cases hbi : w.bucket i = c
      · rw [hbi, update_self]
        exact hchain.once.mem_erase_iff.mpr ⟨hia, hbi ▸ hm⟩
      · rw [update_of_ne hbi]
        exact hm
    · cases hm
  · rw [hchain.node_unlink hmem, if_neg hi]
  · rw [hchain.node_unlink hmem, if_neg hi]

end Unlink

-- -- the free chain

structure Freshened (w w' : Wheel ω) (a deadline : Nat) : Prop where
  heads : w'.heads = w.heads
  self : w'.node a = .fresh deadline
  same : ∀ i, i ≠ a → w'.node i = w.node i
  slots : ∀ i, i < w'.nodes.length ↔ i < w.nodes.length ∨ i = a

section

variable (h : Linked w chains pool b cursor [])

include h

theorem Linked.freshened {a deadline : Nat}
    {pool' : List Nat} (hf : Freshened w w' a deadline)
    (hidle : a < w.nodes.length → w.bucket a = NONE) (hfew : w'.nodes.length ≤ NONE)
    (hpool : Pooled w' pool') : Linked w' chains pool' b NONE [] := by
  refine ⟨hf.heads ▸ h.heads, hfew, fun d hd => ?_, hpool, .none _ _, h.below,
    fun hne => absurd rfl hne, fun i hi => ?_⟩
  · have hlen : w.nodes.length ≤ w'.nodes.length :=
      Nat.not_lt.mp fun hlt => Nat.lt_irrefl _ ((hf.slots _).mpr (.inl hlt))
    refine (h.chained d hd).congr hlen (by rw [Wheel.head, hf.heads]; rfl) fun i hi => ?_
    rw [hf.same]
    rintro rfl
    exact h.not_mem_of_idle hd (hidle ((h.chained d hd).filed i hi).1) hi
  · by_cases hia : i = a
    · refine .inl ?_
      rw [hia, bucket, hf.self]
      rfl
    · rw [bucket, hf.same i hia]
      exact h.cover i (((hf.slots i).mp hi).resolve_right hia)

/-- `take` reuses a pooled node or adds one. -/
theorem Linked.take (hroom : pool = [] → w.nodes.length < NONE) (deadline : Nat) :
    ∃ pool', Linked (w.take deadline).2 chains pool' b NONE []
      ∧ Freshened w (w.take deadline).2 (w.take deadline).1 deadline
      ∧ (∀ i, i ∈ pool' ↔ i ∈ pool ∧ i ≠ (w.take deadline).1)
      ∧ ((w.take deadline).1 < w.nodes.length → (w.take deadline).1 ∈ pool) := by
  cases pool with
  | nil =>
    have hfree : w.free = NONE := h.pooled.ahead
    have hlt := hroom rfl
    have hslot : w.nodes.length % 2 ^ 32 = w.nodes.length := by
      apply Nat.mod_eq_of_lt
      exact Nat.lt_trans hlt (by decide)
    have htake : w.take deadline
        = (w.nodes.length, { w with nodes := w.nodes ++ [.fresh deadline] }) := by
      rw [Wheel.take, if_pos hfree, hslot]
    rw [htake]
    have hfresh : Freshened w { w with nodes := w.nodes ++ [.fresh deadline] }
        w.nodes.length deadline := by
      refine ⟨rfl, by simp [node, getD_eq_getElem?_getD], fun i hi => ?_, fun i => ?_⟩
      · unfold node
        rw [getD_eq_getElem?_getD, getD_eq_getElem?_getD]
        rcases Nat.lt_or_gt_of_ne hi with hi | hi
        · rw [getElem?_append_left hi]
        · rw [getElem?_eq_none (by simp; omega), getElem?_eq_none (by omega)]
      · simp only [length_append, length_singleton]
        omega
    refine ⟨[], h.freshened hfresh (fun hlt => absurd hlt (Nat.lt_irrefl _)) ?_
      ⟨hfree, nodup_nil, fun i hi => by cases hi⟩, hfresh, by simp,
      fun hlt => absurd hlt (Nat.lt_irrefl _)⟩
    show (w.nodes ++ [_]).length ≤ NONE
    rw [length_append]
    exact hlt
  | cons a pool' =>
    obtain ⟨hfree, hane, hpath⟩ := h.pooled.ahead
    obtain ⟨hnotin, honce⟩ := nodup_cons.mp h.pooled.once
    obtain ⟨ha, hidle⟩ := h.pooled.idle a mem_cons_self
    have htake : w.take deadline
        = (a, { w with free := w.next a, nodes := w.nodes.set a (.fresh deadline) }) := by
      rw [Wheel.take, hfree, if_neg hane]
      rfl
    rw [htake]
    have hlen : (w.nodes.set a (.fresh deadline)).length = w.nodes.length := length_set
    have hfresh : Freshened w
        { w with free := w.next a, nodes := w.nodes.set a (.fresh deadline) } a deadline := by
      refine ⟨rfl, by simp [node, getD_eq_getElem?_getD, ha], fun i hi => ?_, fun i => ?_⟩
      · simp [node, getD_eq_getElem?_getD, getElem?_set_ne (Ne.symm hi)]
      · rw [hlen]
        exact ⟨.inl, fun hi => hi.elim id fun heq => heq ▸ ha⟩
    have hne : ∀ i ∈ pool', i ≠ a := fun i hi heq => hnotin (heq ▸ hi)
    refine ⟨pool', h.freshened hfresh (fun _ => hidle) (hlen ▸ h.few) ⟨?_, honce, fun i hi => ?_⟩,
      hfresh, fun i => ?_, fun _ => mem_cons_self⟩
    · refine hpath.congr fun i hi => ?_
      rw [Wheel.next, hfresh.same i (hne i hi)]
      rfl
    · obtain ⟨hlt, hbi⟩ := h.pooled.idle i (mem_cons_of_mem a hi)
      refine ⟨hlen.symm ▸ hlt, ?_⟩
      rw [bucket, hfresh.same i (hne i hi)]
      exact hbi
    · rw [mem_cons]
      constructor
      · exact fun hi => ⟨.inr hi, hne i hi⟩
      · rintro ⟨rfl | hi, hia⟩
        · exact absurd rfl hia
        · exact hi

theorem Linked.give {a : Nat} (ha : a < w.nodes.length)
    (hidle : w.bucket a = NONE) (hpool : a ∉ pool) :
    Linked { w.edit a fun n => { n with waker := none, next := w.free } with free := a }
      chains (a :: pool) b NONE [] := by
  have hlen : (w.edit a fun n => { n with waker := none, next := w.free }).nodes.length
      = w.nodes.length := w.length_edit a _
  have hself : (w.edit a fun n => { n with waker := none, next := w.free }).node a
      = { w.node a with waker := none, next := w.free } := node_edit_self ha _
  have hsame : ∀ i, i ≠ a →
      (w.edit a fun n => { n with waker := none, next := w.free }).node i = w.node i :=
    fun i hi => node_edit_ne hi _
  have hbucket : ∀ i, (w.edit a fun n => { n with waker := none, next := w.free }).bucket i
      = w.bucket i := by
    intro i
    by_cases hi : i = a
    · rw [hi, bucket, hself]
      rfl
    · rw [bucket, hsame i hi]
      rfl
  refine ⟨h.heads, ?_, ?_, ?_, .none _ _, h.below, fun hne => absurd rfl hne, ?_⟩
  · exact hlen ▸ h.few
  · intro d hd
    refine (h.chained d hd).congr (Nat.le_of_eq hlen.symm) rfl ?_
    intro i hi
    have hia : i ≠ a := by
      rintro rfl
      exact h.not_mem_of_idle hd hidle hi
    exact congrArg Node.links (hsame i hia)
  · refine ⟨?_, nodup_cons.mpr ⟨hpool, h.pooled.once⟩, ?_⟩
    · refine h.pooled.ahead.push (h.ne_none ha) ?_ ?_
      · exact congrArg Node.next hself
      intro i hi
      have hia : i ≠ a := by
        rintro rfl
        exact hpool hi
      exact congrArg Node.next (hsame i hia)
    · intro i hi
      rcases mem_cons.mp hi with rfl | hi
      · exact ⟨hlen.symm ▸ ha, (hbucket i).trans hidle⟩
      · obtain ⟨hlt, hbi⟩ := h.pooled.idle i hi
        exact ⟨hlen.symm ▸ hlt, (hbucket i).trans hbi⟩
  · intro i hi
    have hi : i < w.nodes.length := hlen ▸ hi
    have hb := hbucket i
    rcases h.cover i hi with hnone | hrest
    · exact .inl (hb.trans hnone)
    · refine .inr ?_
      rw [← hb] at hrest
      exact hrest

end

end Linked

end Molt.Rt
