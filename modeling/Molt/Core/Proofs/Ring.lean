/-
The ring against the law of a bounded queue.

# Counters and slots

A ring that has handed out `k` values and holds `m` more has counters
`k % 2^64` and `(k + m) % 2^64`, whatever the capacity (`Counted`). The
fullness and emptiness tests compare counters alone, so they are right for
every ring. What the capacity decides is whether two values of one window
can fall into one slot: `Apart n m` says that the first `m` values do not,
which is the case when `n` divides `2^64` or the counters have not wrapped
yet. Under it the slots hold the queue in order (`Carries`), and pushing
and popping are the two list operations.

# Interleavings

`Duo.Exact` extends this to a ring with both calls half done, and every
access by either thread keeps it. So every interleaving of a ring whose
capacity divides `2^64` obeys the law, and so does every interleaving with
at most `2^64` pushes.

# The wrap

For any other capacity the slot sequence jumps when the counter wraps: the
slot of counter `2^64` is that of counter `2^64 - r`, with `r` the
remainder of `2^64`. `wrapRun` walks a ring there, queues `r` values and
pushes one more, which lands on the oldest.
-/
import Molt.Core.Ring

namespace Molt.Core

open Molt.Lib.Queue List

variable {α : Type} {n m k : Nat} {r : SpscRing α}

-- == counters

theorem wrappingAdd_mod (a : Nat) : wrappingAdd (a % 2 ^ 64) 1 = (a + 1) % 2 ^ 64 := by
  unfold wrappingAdd
  omega

theorem wrappingSub_mod (hm : m < 2 ^ 64) : wrappingSub ((k + m) % 2 ^ 64) (k % 2 ^ 64) = m := by
  unfold wrappingSub
  omega

/-- Among the first `m` values, two in one window never share a slot. -/
def Apart (n m : Nat) : Prop := n ∣ 2 ^ 64 ∨ m ≤ 2 ^ 64

theorem Apart.mono {m' : Nat} (h : Apart n m) (hle : m' ≤ m) : Apart n m' :=
  h.imp id fun hm => Nat.le_trans hle hm

theorem Apart.slot_eq {i : Nat} (h : Apart n m) (hi : i < m) : i % 2 ^ 64 % n = i % n := by
  rcases h with hdvd | hle
  · exact Nat.mod_mod_of_dvd i hdvd
  · rw [Nat.mod_eq_of_lt (Nat.lt_of_lt_of_le hi hle)]

theorem Apart.inj {i j : Nat} (h : Apart n m) (hj : j < m) (hij : i < j)
    (hwin : j < i + n) : i % 2 ^ 64 % n ≠ j % 2 ^ 64 % n := by
  rw [h.slot_eq (Nat.lt_trans hij hj), h.slot_eq hj]
  intro heq
  have hdvd : n ∣ j - i := (Nat.modEq_iff_dvd' (Nat.le_of_lt hij)).mp heq
  have := Nat.le_of_dvd (by omega) hdvd
  omega

-- == the ring

/-- `k` values were handed out and `m` are queued, by the counters. -/
structure Counted (n : Nat) (r : SpscRing α) (k m : Nat) : Prop where
  length : r.slots.length = n
  head : r.head = k % 2 ^ 64
  tail : r.tail = (k + m) % 2 ^ 64
  bound : m ≤ n

/-- The slots hold the queue, oldest value at the head counter. -/
structure Carries (n : Nat) (r : SpscRing α) (k : Nat) (q : List α) : Prop
    extends Counted n r k q.length where
  held : ∀ i v, q[i]? = some v → r.slot ((k + i) % 2 ^ 64) = some v

theorem Counted.new (n : Nat) : Counted n (SpscRing.new n : SpscRing α) 0 0 :=
  ⟨length_replicate .., rfl, rfl, Nat.zero_le n⟩

theorem Carries.new (n : Nat) : Carries n (SpscRing.new n : SpscRing α) 0 [] :=
  ⟨.new n, fun i v h => by simp at h⟩

theorem Counted.isFull (h : Counted n r k m) (hn : n < 2 ^ 64) :
    r.isFull r.tail r.head = decide (m = n) := by
  have hm := h.bound
  rw [SpscRing.isFull, SpscRing.capacity, h.length, h.head, h.tail, wrappingSub_mod (by omega)]
  rfl

theorem Counted.head_eq_tail (h : Counted n r k m) (hn : n < 2 ^ 64) : r.head = r.tail ↔ m = 0 := by
  have hm := h.bound
  rw [h.head, h.tail]
  omega

/-- Storing `tail` counts one more. -/
theorem Counted.publish (h : Counted n r k m) (hm : m < n) :
    Counted n (r.storeTail r.tail) k (m + 1) where
  length := h.length
  head := h.head
  tail := by
    show wrappingAdd r.tail 1 = _
    rw [h.tail, wrappingAdd_mod]
    rfl
  bound := hm

theorem Counted.advance (h : Counted n r k (m + 1)) : Counted n (r.storeHead r.head) (k + 1) m where
  length := h.length
  head := by
    show wrappingAdd r.head 1 = _
    rw [h.head, wrappingAdd_mod]
  tail := by
    show r.tail = _
    rw [h.tail]
    congr 1
    omega
  bound := Nat.le_of_succ_le h.bound

theorem Counted.write (h : Counted n r k m) (c : Nat) (v : α) : Counted n (r.write c v) k m :=
  { h with
    length := by
      rw [← h.length]
      exact length_set .. }

theorem Counted.push (h : Counted n r k m) (hm : m < n) (v : α) :
    Counted n ((r.write r.tail v).storeTail r.tail) k (m + 1) :=
  (h.write r.tail v).publish hm

theorem slot_write_same (hn : 0 < r.capacity) (c : Nat) (v : α) :
    (r.write c v).slot c = some v := by
  have hc : c % r.slots.length < r.slots.length := Nat.mod_lt c hn
  simp [SpscRing.slot, SpscRing.write, SpscRing.capacity, hc]

theorem slot_write_other {c d : Nat} (v : α) (hne : c % r.capacity ≠ d % r.capacity) :
    (r.write c v).slot d = r.slot d := by
  simp only [SpscRing.capacity] at hne
  simp [SpscRing.slot, SpscRing.write, SpscRing.capacity, hne]

variable {q : List α} {v : α}

theorem Carries.write (h : Carries n r k q) (hroom : q.length < n)
    (hapart : Apart n (k + q.length + 1)) : Carries n (r.write r.tail v) k q := by
  refine ⟨h.toCounted.write _ _, fun i w hi => ?_⟩
  have hlt : i < q.length := (List.getElem?_eq_some_iff.mp hi).1
  rw [slot_write_other, h.held i w hi]
  rw [SpscRing.capacity, h.length, h.tail]
  exact (hapart.inj (by omega) (by omega) (by omega)).symm

theorem Carries.publish (h : Carries n r k q) (hroom : q.length < n)
    (hv : r.slot r.tail = some v) :
    Carries n (r.storeTail r.tail) k (q ++ [v]) := by
  refine ⟨?_, fun i w hi => ?_⟩
  · rw [length_append]
    exact h.toCounted.publish hroom
  · show r.slot _ = some w
    by_cases hlt : i < q.length
    · rw [getElem?_append_left hlt] at hi
      exact h.held i w hi
    · rw [getElem?_append_right (by omega)] at hi
      have hi0 : i - q.length = 0 := by
        have := (List.getElem?_eq_some_iff.mp hi).1
        simpa using this
      have hw : v = w := by simpa [hi0] using hi
      rw [← hw, ← hv, h.tail]
      congr 2
      omega

theorem Carries.advance (h : Carries n r k (v :: q)) :
    Carries n (r.storeHead r.head) (k + 1) q := by
  refine ⟨h.toCounted.advance, fun i w hi => ?_⟩
  have := h.held (i + 1) w (by simpa using hi)
  rw [show k + 1 + i = k + (i + 1) by omega]
  exact this

theorem Carries.slot_head (h : Carries n r k (v :: q)) : r.slot r.head = some v := by
  rw [h.head]
  exact h.held 0 v rfl

/-- A push of a ring in order: refused exactly when it is full, and else
appended. -/
theorem Carries.push (h : Carries n r k q) (hn : n < 2 ^ 64)
    (hapart : Apart n (k + q.length + 1)) (v : α) :
    (q.length = n ∧ r.tryPush v = .error v) ∨
      (q.length < n ∧ ∃ r', r.tryPush v = .ok r' ∧ Carries n r' k (q ++ [v])) := by
  have hb := h.bound
  rw [SpscRing.tryPush, h.toCounted.isFull hn]
  by_cases hfull : q.length = n
  · exact .inl ⟨hfull, by simp [hfull]⟩
  · refine .inr ⟨by omega, (r.write r.tail v).storeTail r.tail, by simp [hfull], ?_⟩
    have hcap : 0 < r.capacity := by
      rw [SpscRing.capacity, h.length]
      omega
    exact (h.write (by omega) hapart).publish (by omega) (slot_write_same hcap _ _)

/-- A pop of a ring in order takes the oldest value, and never reads a slot
nobody wrote. -/
theorem Carries.pop (h : Carries n r k q) (hn : n < 2 ^ 64) :
    (q = [] ∧ r.tryPop = none) ∨
      ∃ v q' r', q = v :: q' ∧ r.tryPop = some (v, r') ∧ Carries n r' (k + 1) q' := by
  have htail := h.toCounted.head_eq_tail hn
  rw [SpscRing.tryPop]
  cases q with
  | nil =>
    refine .inl ⟨rfl, if_pos (htail.mpr rfl)⟩
  | cons v q =>
    refine .inr ⟨v, q, r.storeHead r.head, rfl, ?_, h.advance⟩
    rw [if_neg (by simp [htail]), h.slot_head]
    rfl

-- -- paired queues

section Paired

variable {σ κ : Type}

section Unpaired

variable (ring : IoRing σ κ)

theorem IoRing.trySubmit_ok {x : Submission σ} {r : SpscRing (Submission σ)}
    (h : ring.submissions.tryPush x = .ok r) :
    ring.trySubmit x = .ok ⟨r, ring.completions⟩ := by
  rw [IoRing.trySubmit, h]
  rfl

theorem IoRing.tryComplete_ok {x : Completion κ} {r : SpscRing (Completion κ)}
    (h : ring.completions.tryPush x = .ok r) :
    ring.tryComplete x = .ok ⟨ring.submissions, r⟩ := by
  rw [IoRing.tryComplete, h]
  rfl

theorem IoRing.tryNext_some {x : Submission σ} {r : SpscRing (Submission σ)}
    (h : ring.submissions.tryPop = some (x, r)) :
    ring.tryNext = some (x, ⟨r, ring.completions⟩) := by
  rw [IoRing.tryNext, h]
  rfl

theorem IoRing.tryNext_none (h : ring.submissions.tryPop = none) : ring.tryNext = none := by
  rw [IoRing.tryNext, h]
  rfl

theorem IoRing.tryCompletion_some {x : Completion κ} {r : SpscRing (Completion κ)}
    (h : ring.completions.tryPop = some (x, r)) :
    ring.tryCompletion = some (x, ⟨ring.submissions, r⟩) := by
  rw [IoRing.tryCompletion, h]
  rfl

end Unpaired

variable {ring : IoRing σ κ}

theorem Carries.trySubmit {q : List (Submission σ)} (h : Carries n ring.submissions k q)
    (hn : n < 2 ^ 64) (hapart : Apart n (k + q.length + 1)) (x : Submission σ) :
    (q.length = n ∧ ring.trySubmit x = .error x) ∨
      (q.length < n ∧ ∃ r, ring.trySubmit x = .ok ⟨r, ring.completions⟩
        ∧ Carries n r k (q ++ [x])) := by
  rcases h.push hn hapart x with ⟨hlen, hp⟩ | ⟨hlen, r, hp, hc⟩
  · exact .inl ⟨hlen, by rw [IoRing.trySubmit, hp]; rfl⟩
  · exact .inr ⟨hlen, r, IoRing.trySubmit_ok ring hp, hc⟩

theorem Carries.tryComplete {q : List (Completion κ)} (h : Carries n ring.completions k q)
    (hn : n < 2 ^ 64) (hapart : Apart n (k + q.length + 1)) (x : Completion κ) :
    (q.length = n ∧ ring.tryComplete x = .error x) ∨
      (q.length < n ∧ ∃ r, ring.tryComplete x = .ok ⟨ring.submissions, r⟩
        ∧ Carries n r k (q ++ [x])) := by
  rcases h.push hn hapart x with ⟨hlen, hp⟩ | ⟨hlen, r, hp, hc⟩
  · exact .inl ⟨hlen, by rw [IoRing.tryComplete, hp]; rfl⟩
  · exact .inr ⟨hlen, r, IoRing.tryComplete_ok ring hp, hc⟩

theorem Carries.tryNext {q : List (Submission σ)} (h : Carries n ring.submissions k q)
    (hn : n < 2 ^ 64) :
    (q = [] ∧ ring.tryNext = none) ∨
      ∃ x q' r, q = x :: q' ∧ ring.tryNext = some (x, ⟨r, ring.completions⟩)
        ∧ Carries n r (k + 1) q' := by
  rcases h.pop hn with ⟨hq, hp⟩ | ⟨x, q', r, hq, hp, hc⟩
  · exact .inl ⟨hq, IoRing.tryNext_none ring hp⟩
  · exact .inr ⟨x, q', r, hq, IoRing.tryNext_some ring hp, hc⟩

theorem Carries.tryCompletion {q : List (Completion κ)} (h : Carries n ring.completions k q)
    (hn : n < 2 ^ 64) :
    (q = [] ∧ ring.tryCompletion = none) ∨
      ∃ x q' r, q = x :: q' ∧ ring.tryCompletion = some (x, ⟨ring.submissions, r⟩)
        ∧ Carries n r (k + 1) q' := by
  rcases h.pop hn with ⟨hq, hp⟩ | ⟨x, q', r, hq, hp, hc⟩
  · exact .inl ⟨hq, by rw [IoRing.tryCompletion, hp]; rfl⟩
  · exact .inr ⟨x, q', r, hq, IoRing.tryCompletion_some ring hp, hc⟩

end Paired

-- == interleavings

def Duo.ProducerOk (n : Nat) (d : Duo α) (q : List α) : Prop :=
  match d.producer with
  | .idle => True
  | .loaded _ tail => tail = d.ring.tail
  | .room _ tail => tail = d.ring.tail ∧ q.length < n
  | .wrote v tail => tail = d.ring.tail ∧ q.length < n ∧ d.ring.slot tail = some v

def Duo.ConsumerOk (d : Duo α) (q : List α) : Prop :=
  match d.consumer with
  | .idle => True
  | .loaded head => head = d.ring.head
  | .ready head => head = d.ring.head ∧ q ≠ []
  | .read v head => head = d.ring.head ∧ q.head? = some v
  | .undefined => False

/-- A ring between two threads, with `q` queued and its history lawful. -/
structure Duo.Exact (n : Nat) (d : Duo α) (q : List α) : Prop where
  carries : Carries n d.ring (taken d.log).length q
  history : accepted d.log = taken d.log ++ q
  fifo : Fifo n d.log
  producer : d.ProducerOk n q
  consumer : d.ConsumerOk q

variable {d : Duo α}

theorem Duo.Exact.new (n : Nat) : Duo.Exact n (Duo.new n : Duo α) [] :=
  ⟨.new n, rfl, .nil n, trivial, trivial⟩

theorem Duo.Exact.queued_eq (h : d.Exact n q) : queued d.log = q.length := by
  rw [queued, h.history, length_append]
  omega

theorem Duo.Exact.produce (h : d.Exact n q) (hn : n < 2 ^ 64)
    (hapart : Apart n ((accepted d.log).length + 1)) :
    ∃ q', d.produce.Exact n q' := by
  obtain ⟨ring, producer, consumer, log⟩ := d
  have hprod := h.producer
  have hcons := h.consumer
  have hcarry := h.carries
  have hcount := hcarry.toCounted
  have hqueued := h.queued_eq
  have hacc := h.history
  rw [hacc, length_append] at hapart
  cases producer with
  | idle => exact ⟨q, h⟩
  | loaded v tail =>
    have htail : tail = ring.tail := hprod
    rw [Duo.produce, htail]
    simp only [hcount.isFull hn, decide_eq_true_eq]
    split
    case isTrue hfull =>
      -- the refusal is settled by the load of `head`
      refine ⟨q, by simpa using hcarry, by simpa using hacc, ?_, trivial, hcons⟩
      refine h.fifo.snoc (by simpa using h.fifo.order) ?_ ?_
      · intro failed hf
        have : failed = true := by simpa [Event.push?] using hf.symm
        simpa [this, hqueued] using hfull
      · intro failed hf
        simp [Event.pop?] at hf
    case isFalse hfull =>
      have hb := hcarry.bound
      exact ⟨q, hcarry, hacc, h.fifo, ⟨rfl, by omega⟩, hcons⟩
  | room v tail =>
    obtain ⟨htail, hroom⟩ : tail = ring.tail ∧ q.length < n := hprod
    subst htail
    have hcap : 0 < ring.capacity := by
      rw [SpscRing.capacity, hcount.length]
      omega
    exact ⟨q, hcarry.write hroom hapart, hacc, h.fifo,
      ⟨rfl, hroom, slot_write_same hcap _ _⟩, hcons⟩
  | wrote v tail =>
    obtain ⟨htail, hroom, hv⟩ : tail = ring.tail ∧ q.length < n ∧ ring.slot tail = some v := hprod
    subst htail
    refine ⟨q ++ [v], by simpa [Duo.produce] using hcarry.publish hroom hv, ?_, ?_, trivial, ?_⟩
    · simp [Duo.produce, hacc]
    · -- the push takes effect at the store of `tail`
      refine h.fifo.snoc ?_ ?_ ?_
      · simp [hacc]
      · intro failed hf
        have hfalse : failed = false := by simpa [Event.push?] using hf.symm
        simp only [hfalse, Bool.false_eq_true, false_iff, hqueued]
        omega
      · intro failed hf
        simp [Event.pop?] at hf
    · -- what the consumer saw at the front is still there
      revert hcons
      cases consumer with
      | idle => exact fun _ => trivial
      | loaded | undefined => exact fun hc => hc
      | ready head => exact fun hc => ⟨hc.1, by simp⟩
      | read w head =>
        intro hc
        refine ⟨hc.1, ?_⟩
        have hw : q.head? = some w := hc.2
        simp [List.head?_append, hw]

theorem Duo.Exact.consume (h : d.Exact n q) (hn : n < 2 ^ 64) : ∃ q', d.consume.Exact n q' := by
  obtain ⟨ring, producer, consumer, log⟩ := d
  have hprod := h.producer
  have hcons := h.consumer
  have hcarry := h.carries
  have hqueued := h.queued_eq
  have hacc := h.history
  cases consumer with
  | idle => exact ⟨q, h⟩
  | loaded head =>
    have hhead : head = ring.head := hcons
    rw [Duo.consume, hhead]
    simp only [hcarry.toCounted.head_eq_tail hn]
    split
    case isTrue hnone =>
      refine ⟨q, by simpa using hcarry, by simpa using hacc, ?_, hprod, trivial⟩
      refine h.fifo.snoc (by simpa using h.fifo.order) ?_ ?_
      · intro failed hf
        simp [Event.push?] at hf
      · intro failed hf
        have : failed = true := by simpa [Event.pop?] using hf.symm
        simpa [this, hqueued] using hnone
    case isFalse hsome =>
      exact ⟨q, hcarry, hacc, h.fifo, hprod, rfl, fun hq => hsome (by simp [hq])⟩
  | ready head =>
    obtain ⟨hhead, hne⟩ : head = ring.head ∧ q ≠ [] := hcons
    subst hhead
    cases q with
    | nil => exact absurd rfl hne
    | cons v q =>
      refine ⟨v :: q, ?_⟩
      simp only [Duo.consume, hcarry.slot_head]
      exact ⟨hcarry, hacc, h.fifo, hprod, rfl, rfl⟩
  | read v head =>
    obtain ⟨hhead, hv⟩ : head = ring.head ∧ q.head? = some v := hcons
    subst hhead
    cases q with
    | nil => simp at hv
    | cons w q =>
      obtain rfl : w = v := by simpa using hv
      have hcarry' := hcarry.advance
      have hacc' : accepted log = taken log ++ w :: q := hacc
      refine ⟨q, by simpa [Duo.consume] using hcarry', ?_, ?_, ?_, trivial⟩
      · simp [Duo.consume, hacc']
      · -- the pop takes effect at the store of `head`
        refine h.fifo.snoc ?_ ?_ ?_
        · simp [hacc']
        · intro failed hf
          simp [Event.push?] at hf
        · intro failed hf
          have hfalse : failed = false := by simpa [Event.pop?] using hf.symm
          simp [hfalse, hqueued]
      · -- room for a push only grows
        revert hprod
        cases producer with
        | idle => exact fun _ => trivial
        | loaded x tail => exact fun hp => hp
        | room x tail =>
          exact fun hp => ⟨hp.1, Nat.lt_of_succ_lt hp.2⟩
        | wrote x tail =>
          exact fun hp => ⟨hp.1, Nat.lt_of_succ_lt hp.2.1, hp.2.2⟩
  | undefined => exact absurd hcons id

theorem Duo.Exact.enter (h : d.Exact n q) :
    (∀ v, (d.step (.push v)).Exact n q) ∧ (d.step .pop).Exact n q := by
  obtain ⟨ring, producer, consumer, log⟩ := d
  obtain ⟨hcarry, hacc, hfifo, hprod, hcons⟩ := h
  refine ⟨fun v => ?_, ?_⟩
  · cases producer with
    | idle => exact ⟨hcarry, hacc, hfifo, rfl, hcons⟩
    | loaded | room | wrote => exact ⟨hcarry, hacc, hfifo, hprod, hcons⟩
  · cases consumer with
    | idle => exact ⟨hcarry, hacc, hfifo, hprod, rfl⟩
    | loaded | ready | read | undefined => exact ⟨hcarry, hacc, hfifo, hprod, hcons⟩

def Duo.pushing (d : Duo α) : Nat :=
  match d.producer with
  | .idle => 0
  | _ => 1

/-- An access accepts at most the push under way, and only `push` enters one. -/
theorem Duo.entered_step (d : Duo α) (act : Act α) :
    (accepted (d.step act).log).length + (d.step act).pushing
      ≤ (accepted d.log).length + d.pushing + pushes [act] := by
  obtain ⟨ring, producer, consumer, log⟩ := d
  cases act with
  | push v => cases producer <;> simp [Duo.step, Duo.pushing, pushes]
  | produce =>
    cases producer with
    | idle | room => simp [Duo.step, Duo.produce, Duo.pushing, pushes]
    | loaded v tail =>
      simp only [Duo.step, Duo.produce]
      split <;> simp [Duo.pushing, pushes]
    | wrote v tail => simp [Duo.step, Duo.produce, Duo.pushing, pushes]
  | pop => cases consumer <;> simp [Duo.step, Duo.pushing, pushes]
  | consume =>
    cases consumer with
    | idle | read | undefined => simp [Duo.step, Duo.consume, Duo.pushing, pushes]
    | loaded | ready =>
      simp only [Duo.step, Duo.consume]
      split <;> simp [Duo.pushing, pushes]

theorem Duo.Exact.step (h : d.Exact n q) (hn : n < 2 ^ 64)
    (hapart : Apart n ((accepted d.log).length + d.pushing)) (act : Act α) :
    ∃ q', (d.step act).Exact n q' := by
  cases act with
  | push v => exact ⟨q, h.enter.1 v⟩
  | produce =>
    by_cases hidle : d.producer = .idle
    · refine ⟨q, ?_⟩
      simp only [Duo.step, Duo.produce, hidle]
      exact h
    · refine h.produce hn ?_
      have : d.pushing = 1 := by
        unfold Duo.pushing
        split <;> simp_all
      rwa [this] at hapart
  | pop => exact ⟨q, h.enter.2⟩
  | consume => exact h.consume hn

theorem Duo.Exact.run (h : d.Exact n q) (hn : n < 2 ^ 64) (acts : List (Act α))
    (hapart : Apart n ((accepted d.log).length + d.pushing + pushes acts)) :
    ∃ q', (d.run acts).Exact n q' := by
  induction acts generalizing d q with
  | nil => exact ⟨q, h⟩
  | cons act acts ih =>
    have hsplit : pushes (act :: acts) = pushes [act] + pushes acts := by
      unfold pushes
      rw [← singleton_append, countP_append]
    have hle := d.entered_step act
    obtain ⟨q', h'⟩ := h.step hn (hapart.mono (by omega)) act
    exact ih h' (hapart.mono (by omega))

theorem fifo_of_apart (hn : n < 2 ^ 64) (acts : List (Act α))
    (hapart : Apart n (pushes acts)) : Fifo n ((Duo.new n).run acts).log := by
  obtain ⟨q, h⟩ := (Duo.Exact.new n).run hn acts (by simpa [Duo.new, Duo.pushing] using hapart)
  exact h.fifo

-- == the wrap

-- The counters alone decide whether a call succeeds, in order or not.

theorem Counted.tryPush_ok (h : Counted n r k m) (hn : n < 2 ^ 64) (hm : m < n) (v : α) :
    r.tryPush v = .ok ((r.write r.tail v).storeTail r.tail) := by
  have hfull := h.isFull hn
  rw [decide_eq_false (by omega)] at hfull
  rw [SpscRing.tryPush, hfull]
  rfl

theorem Counted.tryPop_none (h : Counted n r k 0) (hn : n < 2 ^ 64) : r.tryPop = none :=
  if_pos ((h.head_eq_tail hn).mpr rfl)

theorem Counted.tryPop_some (h : Counted n r k (m + 1)) (hn : n < 2 ^ 64) {v : α}
    (hv : r.slot r.head = some v) : r.tryPop = some (v, r.storeHead r.head) := by
  rw [SpscRing.tryPop, if_neg (by simp [h.head_eq_tail hn]), hv]
  rfl

theorem Counted.through (h : Counted n r k 0) (hn : n < 2 ^ 64) (h0 : 0 < n) (v : α) :
    ∃ r₁ r₂, r.tryPush v = .ok r₁ ∧ r₁.tryPop = some (v, r₂) ∧ Counted n r₂ (k + 1) 0 := by
  have hpush := h.push h0 v
  have hslot : (r.write r.tail v).slot r.head = some v := by
    rw [(h.head_eq_tail hn).mpr rfl]
    exact slot_write_same (by rwa [SpscRing.capacity, h.length]) r.tail v
  exact ⟨_, _, h.tryPush_ok hn h0 v, hpush.tryPop_some hn hslot, hpush.advance⟩

def pushCall (v : α) : List (Act α) := [.push v, .produce, .produce, .produce]

def popCall : List (Act α) := [.pop, .consume, .consume, .consume]

/-- Neither thread is in a call. -/
def Duo.rest (ring : SpscRing α) (log : List (Event α)) : Duo α :=
  { ring, producer := .idle, consumer := .idle, log }

theorem run_append (d : Duo α) (l l' : List (Act α)) :
    d.run (l ++ l') = (d.run l).run l' := foldl_append ..

variable {log : List (Event α)}

theorem run_pushCall (h : Counted n r k m) (hn : n < 2 ^ 64) (hm : m < n) (v : α) :
    (Duo.rest r log).run (pushCall v) =
      .rest ((r.write r.tail v).storeTail r.tail) (log ++ [.pushed v]) := by
  have hfull := h.isFull hn
  rw [decide_eq_false (by omega)] at hfull
  simp [Duo.run, pushCall, Duo.rest, Duo.step, Duo.produce, hfull]

theorem run_popCall (h : Counted n r k (m + 1)) (hn : n < 2 ^ 64)
    (hv : r.slot r.head = some v) :
    (Duo.rest r log).run popCall = .rest (r.storeHead r.head) (log ++ [.popped v]) := by
  have hne : ¬r.head = r.tail := by simp [h.head_eq_tail hn]
  simp [Duo.run, popCall, Duo.rest, Duo.step, Duo.consume, hne, hv]

/-- A value put into an empty ring and taken out again moves both counters
and leaves the ring empty, for every capacity. -/
theorem run_cycle (log : List (Event α)) (h : Counted n r k 0) (hn : n < 2 ^ 64)
    (h0 : 0 < n) (a : α) :
    ∃ r', (Duo.rest r log).run (pushCall a ++ popCall) =
        .rest r' (log ++ [.pushed a] ++ [.popped a]) ∧ Counted n r' (k + 1) 0 := by
  have hpush := h.push h0 a
  have hcap : 0 < r.capacity := by rwa [SpscRing.capacity, h.length]
  have hslot : (r.write r.tail a).slot r.head = some a := by
    rw [(h.head_eq_tail hn).mpr rfl]
    exact slot_write_same hcap r.tail a
  exact ⟨_, by rw [run_append, run_pushCall h hn h0, run_popCall hpush hn hslot], hpush.advance⟩

/-- `k` values put in and taken out, one at a time. -/
def cycles (a : α) (k : Nat) : List (Act α) := (List.replicate k (pushCall a ++ popCall)).flatten

theorem run_cycles (hn : n < 2 ^ 64) (h0 : 0 < n) (a : α) (k : Nat) :
    ∃ r log, (Duo.new n).run (cycles a k) = .rest r log ∧ Counted n r k 0
      ∧ accepted log = List.replicate k a ∧ taken log = List.replicate k a := by
  induction k with
  | zero => exact ⟨.new n, [], rfl, .new n, rfl, rfl⟩
  | succ k ih =>
    obtain ⟨r, log, hrun, hcount, hin, hout⟩ := ih
    obtain ⟨r', hcycle, hcount'⟩ := run_cycle log hcount hn h0 a
    refine ⟨r', log ++ [.pushed a] ++ [.popped a], ?_, hcount', ?_, ?_⟩
    · rw [cycles, replicate_succ', flatten_append, run_append, ← cycles,
        hrun, flatten_singleton, hcycle]
    · simp [hin, replicate_succ']
    · simp [hout, replicate_succ']

/-- `c` values put in, with nothing taken out. -/
def fill (a : α) (c : Nat) : List (Act α) := (List.replicate c (pushCall a)).flatten

theorem run_fill (log : List (Event α)) (h : Counted n r k m) (hn : n < 2 ^ 64) (a : α)
    (c : Nat) (hc : m + c ≤ n) :
    ∃ r' log', (Duo.rest r log).run (fill a c) = .rest r' log' ∧ Counted n r' k (m + c)
      ∧ accepted log' = accepted log ++ List.replicate c a ∧ taken log' = taken log := by
  induction c with
  | zero => exact ⟨r, log, rfl, h, by simp, rfl⟩
  | succ c ih =>
    obtain ⟨r1, log1, hrun, hcount, hin, hout⟩ := ih (by omega)
    refine ⟨(r1.write r1.tail a).storeTail r1.tail, log1 ++ [.pushed a], ?_,
      hcount.push (by omega) a, ?_, ?_⟩
    · rw [fill, replicate_succ', flatten_append, run_append, ← fill,
        hrun, flatten_singleton, run_pushCall hcount hn (by omega)]
    · simp [hin, replicate_succ']
    · simp [hout]

/-- Walks the counters to the last multiple of the capacity below `2^64`,
queues values up to the wrap and pushes one more before it pops. -/
def wrapRun (n : Nat) (a b : α) : List (Act α) :=
  cycles a (2 ^ 64 - 2 ^ 64 % n) ++ fill a (2 ^ 64 % n) ++ pushCall b ++ popCall

/-- At the wrap the tail and the head of a ring queued up to it name one
slot. -/
theorem slot_at_wrap (h0 : 0 < n) (hdvd : ¬n ∣ 2 ^ 64)
    (h : Counted n r (2 ^ 64 - 2 ^ 64 % n) (2 ^ 64 % n)) (b : α) :
    (r.write r.tail b).slot r.head = some b := by
  have hle : 2 ^ 64 % n ≤ 2 ^ 64 := Nat.mod_le _ _
  have hpos : 0 < 2 ^ 64 % n := Nat.pos_of_ne_zero fun h => hdvd (Nat.dvd_of_mod_eq_zero h)
  have hcap : 0 < r.capacity := by rwa [SpscRing.capacity, h.length]
  have htail : r.tail % n = 0 := by
    rw [h.tail, Nat.sub_add_cancel hle, Nat.mod_self, Nat.zero_mod]
  have hhead : r.head % n = 0 := by
    rw [h.head, Nat.mod_eq_of_lt (Nat.sub_lt (by decide) hpos)]
    exact Nat.sub_mod_eq_zero_of_mod_eq (Nat.mod_mod _ _).symm
  have hsame := slot_write_same hcap r.tail b
  unfold SpscRing.slot at hsame ⊢
  rw [show (r.write r.tail b).capacity = n from (h.write _ _).length] at hsame ⊢
  rwa [hhead, ← htail]

theorem run_wrapRun (h0 : 0 < n) (hn : n < 2 ^ 64) (hdvd : ¬n ∣ 2 ^ 64) (a b : α) :
    accepted ((Duo.new n).run (wrapRun n a b)).log
        = List.replicate (2 ^ 64 - 2 ^ 64 % n) a ++ (List.replicate (2 ^ 64 % n) a ++ [b])
      ∧ taken ((Duo.new n).run (wrapRun n a b)).log
        = List.replicate (2 ^ 64 - 2 ^ 64 % n) a ++ [b] := by
  have hrem : 2 ^ 64 % n < n := Nat.mod_lt _ h0
  obtain ⟨r1, log1, hrun1, hcount1, hin1, hout1⟩ := run_cycles hn h0 a (2 ^ 64 - 2 ^ 64 % n)
  obtain ⟨r2, log2, hrun2, hcount2, hin2, hout2⟩ :=
    run_fill log1 hcount1 hn a (2 ^ 64 % n) (by omega)
  rw [Nat.zero_add] at hcount2
  rw [wrapRun, run_append, run_append, run_append, hrun1, hrun2, run_pushCall hcount2 hn hrem,
    run_popCall (hcount2.push hrem b) hn (slot_at_wrap h0 hdvd hcount2 b)]
  refine ⟨?_, ?_⟩
  · simp only [Duo.rest, accepted_append, accepted, hin2, hin1, append_nil, append_assoc]
  · simp only [Duo.rest, taken_append, taken, hout2, hout1, append_nil]

theorem not_fifo_wrapRun (h0 : 0 < n) (hn : n < 2 ^ 64) (hdvd : ¬n ∣ 2 ^ 64) {a b : α}
    (hab : a ≠ b) : ¬Fifo n ((Duo.new n).run (wrapRun n a b)).log := by
  intro hfifo
  have hpos : 0 < 2 ^ 64 % n := Nat.pos_of_ne_zero fun h => hdvd (Nat.dvd_of_mod_eq_zero h)
  obtain ⟨hin, hout⟩ := run_wrapRun h0 hn hdvd a b
  obtain ⟨rest, hrest⟩ := hfifo.order
  rw [hin, hout, append_assoc] at hrest
  -- both lists begin alike, and then one has `b` where the other has `a`
  have hnext := append_cancel_left hrest
  rw [show 2 ^ 64 % n = (2 ^ 64 % n - 1) + 1 by omega, replicate_succ] at hnext
  have hhead := congrArg List.head? hnext
  exact hab (by simpa using hhead.symm)

-- == the law

/-- A ring of `n` slots is a bounded queue over every interleaving exactly
when `n` divides `2^64`; over an interleaving of at most `2^64` pushes it
is one whatever `n` is. -/
theorem ring_is_a_bounded_queue [Nontrivial α] (n : Nat) (h0 : 0 < n) (hn : n < 2 ^ 64) :
    ((∀ acts : List (Act α), Fifo n ((Duo.new n).run acts).log) ↔ n ∣ 2 ^ 64)
      ∧ ∀ acts : List (Act α), pushes acts ≤ 2 ^ 64 → Fifo n ((Duo.new n).run acts).log := by
  refine ⟨⟨fun hall => ?_, fun hdvd acts => fifo_of_apart hn acts (.inl hdvd)⟩,
    fun acts hle => fifo_of_apart hn acts (.inr hle)⟩
  by_contra hdvd
  obtain ⟨a, b, hab⟩ := exists_pair_ne α
  exact not_fifo_wrapRun h0 hn hdvd hab (hall _)

theorem ring_is_a_bounded_queue_four :
    ((∀ acts : List (Act Nat), Fifo 4 ((Duo.new 4).run acts).log) ↔ 4 ∣ 2 ^ 64)
      ∧ ∀ acts : List (Act Nat), pushes acts ≤ 2 ^ 64 → Fifo 4 ((Duo.new 4).run acts).log :=
  ring_is_a_bounded_queue 4 (by decide) (by decide)

/-- Three slots: the counters are walked to `2^64 - 1`, then `0` and `1` are
pushed, and the pop that owes `0` gives `1`. -/
theorem three_slots_lose_a_value_at_the_wrap :
    accepted ((Duo.new 3).run (wrapRun 3 0 1)).log
        = List.replicate (2 ^ 64 - 1) 0 ++ [0, 1]
      ∧ taken ((Duo.new 3).run (wrapRun 3 0 1)).log = List.replicate (2 ^ 64 - 1) 0 ++ [1]
      ∧ ¬Fifo 3 ((Duo.new 3).run (wrapRun 3 0 1)).log := by
  have hdvd : ¬3 ∣ 2 ^ 64 := by decide
  obtain ⟨hin, hout⟩ := run_wrapRun (by decide) (by decide) hdvd 0 1
  exact ⟨hin, hout, not_fifo_wrapRun (by decide) (by decide) hdvd (by decide)⟩

end Molt.Core
