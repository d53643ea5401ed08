/-
Answers that are passed find a place, as long as no more requests are out
than the ring is deep.

`take` parks what it passes in `n` slots. What has left the completion queue
has been taken or is parked, so the head of that queue counts both (`Kept`).
If at most `n` requests are submitted and not taken, then `n` parked answers
leave none on the queue that a further slot would be needed for. The ring
itself bounds only what is submitted and not started: a client that keeps
submitting and takes the newest answer first fills the slots.
-/
import Molt.Block.Proofs.Ring

namespace Molt.Block.Bench

open Molt.Core Molt.Lib.Barrier List Multiset

-- == runs

section Runs

variable {Q : Type}

/-- Each call of a run meets `P` where it is made. -/
def Along (P : Bench Q → Act → Prop) (q : Queue Q) : Bench Q → List Act → Prop
  | _, [] => True
  | b, act :: rest => P b act ∧ Along P q (b.call q act) rest

/-- An answer is asked for that was submitted for and has not been taken. -/
def Asked (b : Bench Q) : Act → Prop
  | .take id => id ∈ (submitted b.log).map Submission.id ∧ id ∉ (taken b.log).map Completion.id
  | .submit _ | .pump => True

/-- A request is submitted while fewer than `n` are out. -/
def Within (n : Nat) (b : Bench Q) : Act → Prop
  | .submit _ => (submitted b.log).length < (taken b.log).length + n
  | .take _ | .pump => True

end Runs

-- == the driver

section Parking

variable {Q : Type} {n : Nat} {q : Queue Q} {waiting : Q → Multiset Ticket} {b b' : Bench Q}
  {subs : List Request} {comps : List Answer}

structure Aside (b b' : Bench Q) : Prop where
  client : b'.client = b.client
  panicked : b'.panicked = b.panicked
  taken : taken b'.log = taken b.log
  head : b'.ring.completions.head = b.ring.completions.head

theorem Aside.refl (b : Bench Q) : Aside b b := ⟨rfl, rfl, rfl, rfl⟩

theorem Aside.trans {b'' : Bench Q} (h : Aside b b') (h' : Aside b' b'') : Aside b b'' :=
  ⟨h'.client.trans h.client, h'.panicked.trans h.panicked, h'.taken.trans h.taken,
    h'.head.trans h.head⟩

theorem Aside.handOver {pushed : Bool} (h : b.handOver = some (pushed, b')) : Aside b b' := by
  rw [Bench.handOver] at h
  split at h
  · cases h
    exact .refl b
  rw [IoRing.tryComplete, SpscRing.tryPush] at h
  split at h
  · cases h
  · cases h
    exact ⟨rfl, rfl, by simp [note, Lib.Barrier.taken], rfl⟩

theorem Aside.landed (b : Bench Q) (device : Q) (c : Answer) : Aside b (b.landed device c) :=
  ⟨rfl, rfl, by simp [Bench.landed, note, Lib.Barrier.taken], rfl⟩

theorem Aside.took (b : Bench Q) (device : Q) (r : Request) : Aside b (b.took device r) :=
  ⟨rfl, rfl, by simp [Bench.took, note, Lib.Barrier.taken], rfl⟩

theorem Aside.next {r : Request} (h : b.next = some (r, b')) : Aside b b' := by
  rw [Bench.next] at h
  split at h
  · cases h
    exact ⟨rfl, rfl, rfl, rfl⟩
  · rw [IoRing.tryNext, Option.map_map, Option.map_eq_some_iff] at h
    obtain ⟨x, -, hx⟩ := h
    cases hx
    exact ⟨rfl, rfl, rfl, rfl⟩

theorem Aside.drainFrom (q : Queue Q) (rounds : Nat) (moved : Bool) (b : Bench Q) :
    Aside b (drainFrom q rounds moved b).2 := by
  induction rounds generalizing b moved with
  | zero => exact .refl b
  | succ rounds ih =>
    rw [Bench.drainFrom]
    cases hover : b.handOver with
    | none => exact .refl b
    | some x =>
      obtain ⟨pushed, b'⟩ := x
      refine (Aside.handOver hover).trans ?_
      rw [drainRound]
      split
      · exact ⟨rfl, rfl, rfl, rfl⟩
      · exact (Aside.landed b' _ _).trans (ih _ _)

theorem Aside.feedFrom (q : Queue Q) (rounds : Nat) (moved : Bool) (b : Bench Q) :
    Aside b (feedFrom q rounds moved b).2 := by
  induction rounds generalizing b moved with
  | zero => exact .refl b
  | succ rounds ih =>
    rw [Bench.feedFrom]
    split
    · cases hnext : b.next with
      | none => exact .refl b
      | some x =>
        obtain ⟨request, b'⟩ := x
        refine (Aside.next hnext).trans ?_
        rw [feedRound]
        split
        · exact ⟨rfl, rfl, rfl, rfl⟩
        · split
          · exact ⟨rfl, rfl, rfl, rfl⟩
          · exact (Aside.took b' _ _).trans (ih _ _)
    · exact .refl b

theorem Aside.pumpFrom (q : Queue Q) (rounds : Nat) (b : Bench Q) :
    Aside b (pumpFrom q rounds b) := by
  induction rounds generalizing b with
  | zero => exact .refl b
  | succ rounds ih =>
    have hround : Aside b ((b.drain q).2.feed q).2 :=
      (Aside.drainFrom q _ _ b).trans (Aside.feedFrom q _ _ _)
    rw [pumpFrom_succ]
    split
    · exact hround
    · exact hround.trans (ih _)

-- == the invariant

/-- Nothing is lost on the client's side, and at most `n` requests are out. -/
structure Kept (n : Nat) (b : Bench Q) : Prop where
  fine : b.panicked = false
  slots : b.client.parked.length = n
  head : b.ring.completions.head
    = ((taken b.log).length + (slotKeys answerTicket b.client.parked).card) % 2 ^ 64
  out : (submitted b.log).length ≤ (taken b.log).length + n

theorem Kept.channel (device : Q) : Kept n (channel n device) where
  fine := rfl
  slots := length_replicate ..
  head := by simp [Bench.channel, slotKeys_replicate, IoRing.new, SpscRing.new, taken]
  out := by simp [Bench.channel, submitted]

theorem Kept.aside (h : Kept n b) (ha : Aside b b') (hs : submitted b'.log = submitted b.log) :
    Kept n b' := by
  obtain ⟨hfine, hslots, hhead, hout⟩ := h
  rw [← ha.head, ← ha.client, ← ha.taken] at hhead
  rw [← hs, ← ha.taken] at hout
  exact ⟨ha.panicked.trans hfine, ha.client ▸ hslots, hhead, hout⟩

/-- What is not taken was handed over, and what was handed over was
submitted. -/
theorem Sound.cards (h : Sound n waiting b subs comps) :
    (taken b.log).length + (comps.length + (slotKeys answerTicket b.client.parked).card)
        ≤ (answered b.log).length
      ∧ (answered b.log).length ≤ (submitted b.log).length := by
  have h1 := congrArg Multiset.card h.tracks.balance
  have h2 := congrArg Multiset.card h.tracks.owing
  have h3 := congrArg List.length h.tracks.order
  have h4 := card_le_card h.tracks.claims
  simp only [Lib.Barrier.keys, card_add, coe_card, length_map, length_append] at h1 h2 h3 h4
  omega

theorem Kept.accounted (hk : Kept n b) (h : Sound n waiting b subs comps) (hn : n < 2 ^ 64) :
    keys answerTicket (answered b.log) = keys answerTicket (taken b.log)
      + (keys answerTicket comps + slotKeys answerTicket b.client.parked) := by
  obtain ⟨hle, hsub⟩ := h.cards
  obtain ⟨k, hlen, hcarry⟩ := h.completions
  have hout := hk.out
  have hhead := hcarry.head.symm.trans hk.head
  refine (eq_of_le_of_card_le h.tracks.claims ?_).symm
  simp only [Lib.Barrier.keys, card_add, coe_card, length_map]
  omega

theorem card_slotKeys_full {l : List (Option Answer)}
    (h : l.findIdx? Option.isNone = none) : (slotKeys answerTicket l).card = l.length := by
  induction l with
  | nil => rfl
  | cons slot l ih =>
    rw [List.findIdx?_eq_none_iff] at h
    have hrest := ih (List.findIdx?_eq_none_iff.mpr fun x hx => h x (mem_cons_of_mem _ hx))
    cases slot with
    | none => simpa using h none (mem_cons_self ..)
    | some c =>
      rw [slotKeys_cons, card_add, hrest, length_cons, Nat.add_comm]
      rfl

theorem Kept.takeFrom (hk : Kept n b) (h : Sound n waiting b subs comps) (hn : n < 2 ^ 64)
    (id rounds : Nat) : Kept n (takeFrom id rounds b) := by
  induction rounds generalizing b comps with
  | zero => exact hk
  | succ rounds ih =>
    obtain ⟨k0, hlen0, hcarry0⟩ := h.completions
    have hhead := hcarry0.head.symm.trans hk.head
    rw [Bench.takeFrom]
    rcases h.popped hn with ⟨-, hp⟩ | ⟨c, comps', r, rfl, hp, hcomps⟩
    · rw [hp]
      exact hk
    rw [hp, takeRound]
    have hcarries := hcomps
    obtain ⟨k, hlen, hcarry⟩ := hcarries
    rw [length_cons] at hlen0
    by_cases hid : c.id = id
    · rw [if_pos hid]
      refine ⟨hk.fine, hk.slots, ?_, ?_⟩
      · show r.head = _
        rw [hcarry.head]
        simp only [note, taken_append, taken, length_append, length_singleton]
        omega
      · have := hk.out
        simp only [note, taken_append, taken, submitted_append, submitted,
          length_append, length_singleton, length_nil]
        omega
    · rw [if_neg hid]
      cases hfree : b.client.parked.findIdx? Option.isNone with
      | none =>
        -- `n` parked answers and one more are out
        have hfull := card_slotKeys_full hfree
        obtain ⟨hle, hsub⟩ := h.cards
        have hout := hk.out
        rw [hfull, hk.slots, length_cons] at hle
        omega
      | some free =>
        refine ih ⟨hk.fine, ?_, ?_, hk.out⟩ (h.park (by rfl) hcomps hfree)
        · rw [length_set]
          exact hk.slots
        · show r.head = ((taken b.log).length + (slotKeys answerTicket
            (b.client.parked.set free (some c))).card) % 2 ^ 64
          rw [hcarry.head, slotKeys_fill _ (free_slot hfree), card_cons]
          omega

theorem Kept.take (hk : Kept n b) (h : Sound n waiting b subs comps) (hn : n < 2 ^ 64)
    (id : Nat) : Kept n (b.take id) := by
  rw [Bench.take]
  cases hat : b.parkedAt id with
  | none => exact hk.takeFrom h hn id _
  | some x =>
    obtain ⟨i, c⟩ := x
    have hset := congrArg Multiset.card (slotKeys_clear answerTicket (parkedAt_spec hat))
    rw [card_cons] at hset
    have hhead := hk.head
    have hout := hk.out
    refine ⟨hk.fine, ?_, ?_, ?_⟩
    · show (b.client.parked.set i none).length = n
      rw [length_set]
      exact hk.slots
    · show b.ring.completions.head = _
      rw [hhead, ← hset]
      simp only [note, taken_append, taken, length_append, length_singleton]
      congr 1
      omega
    · simp [note, taken, submitted]
      omega

theorem Kept.submit (hk : Kept n b) (op : BlockOp)
    (hroom : (submitted b.log).length < (taken b.log).length + n) : Kept n (b.submit op) := by
  rw [Bench.submit, IoRing.trySubmit, SpscRing.tryPush]
  split
  · exact hk
  refine ⟨hk.fine, hk.slots, ?_, ?_⟩
  · show b.ring.completions.head = _
    rw [hk.head]
    simp [note, taken, enqueued, Except.map]
  · simp [enqueued, Except.map, note, taken, submitted]
    omega

theorem Kept.call (hk : Kept n b) (hq : q.Lawful waiting) (h : Sound n waiting b subs comps)
    (hn : n < 2 ^ 64) (act : Act)
    (hapart : Apart n ((submitted b.log).length + submits [act])) (hw : Within n b act) :
    Kept n (b.call q act) := by
  unfold Bench.call
  rw [if_neg (by simp [hk.fine])]
  cases act with
  | submit op => exact hk.submit op hw
  | take id => exact hk.take h hn id
  | pump =>
    obtain ⟨hlog, -⟩ := h.pumpFrom hq hn hapart (2 * b.backlog + b.driver.outstanding + 5)
    exact hk.aside (Aside.pumpFrom q _ b) hlog

theorem Kept.run (hq : q.Lawful waiting) (hn : n < 2 ^ 64) (acts : List Act) (hk : Kept n b)
    (h : Sound n waiting b subs comps)
    (hapart : Apart n ((submitted b.log).length + submits acts))
    (hw : Along (Within n) q b acts) :
    Kept n (b.run q acts) ∧ ∃ subs' comps', Sound n waiting (b.run q acts) subs' comps' := by
  induction acts generalizing b subs comps with
  | nil => exact ⟨hk, subs, comps, h⟩
  | cons act rest ih =>
    have hsum : submits (act :: rest) = submits [act] + submits rest := by
      simp only [submits, List.countP_cons, List.countP_nil]
      omega
    rw [hsum] at hapart
    have hnow : Apart n ((submitted b.log).length + submits [act]) := hapart.mono (by omega)
    obtain ⟨hle, subs', comps', h'⟩ := h.call hq hn act hnow
    exact ih (hk.call hq h hn act hnow hw.1) h' (hapart.mono (by omega)) hw.2

/-- Over any lawful device and any interleaving of calls that submits only
while fewer than `n` requests are out, `take` always finds a slot, and every
answer handed over is taken, on the ring or parked. -/
theorem answers_find_room {Q : Type} (q : Queue Q) (waiting : Q → Multiset Ticket)
    (hq : q.Lawful waiting) (device : Q) (hd : waiting device = 0) (n : Nat) (hn : n < 2 ^ 64)
    (acts : List Act) (hapart : Apart n (submits acts))
    (hw : Along (Within n) q (channel n device) acts) :
    ((channel n device).run q acts).panicked = false
    ∧ ∃ k comps, Carries n ((channel n device).run q acts).ring.completions k comps
      ∧ keys answerTicket (answered ((channel n device).run q acts).log)
        = keys answerTicket (taken ((channel n device).run q acts).log)
          + (keys answerTicket comps
            + slotKeys answerTicket ((channel n device).run q acts).client.parked) := by
  obtain ⟨hk, subs, comps, h⟩ := Kept.run hq hn acts (Kept.channel device)
    (Sound.channel (n := n) hd) (by simpa [Bench.channel, submitted] using hapart) hw
  obtain ⟨k, -, hcarry⟩ := h.completions
  exact ⟨hk.fine, k, comps, hcarry, hk.accounted h hn⟩

end Parking

/-- Two requests are out, and the second answer is taken first. -/
theorem answers_find_room_serial :
    ((channel 2 (.new 1 ())).run serial
      [.submit .flush, .submit .flush, .pump, .take 1, .take 0]).panicked = false :=
  (answers_find_room serial Queued.owned (Queued.lawful nullDisk) (.new 1 ()) rfl 2 (by decide)
    [.submit .flush, .submit .flush, .pump, .take 1, .take 0] (.inl (by decide))
    ⟨(by decide : 0 < 0 + 2), (by decide : 1 < 0 + 2), trivial, trivial, trivial, trivial⟩).1

/-- Two more requests submitted before the older answer is taken, twice. -/
def newestFirst : List Act :=
  [.submit .flush, .submit .flush, .pump, .take 1, .submit .flush, .submit .flush, .pump, .take 3,
    .submit .flush, .submit .flush, .pump, .take 5]

/-- A ring of two places runs out of slots, though every answer asked for is
one that is due. -/
theorem newest_first_fills_the_slots :
    serial.Lawful Queued.owned ∧ Queued.owned (.new 1 ()) = 0
      ∧ Along Asked serial (channel 2 (.new 1 ())) newestFirst
      ∧ ((channel 2 (.new 1 ())).run serial newestFirst).panicked = true :=
  ⟨Queued.lawful nullDisk, rfl, ⟨trivial, trivial, trivial, ⟨by decide, by decide⟩, trivial,
    trivial, trivial, ⟨by decide, by decide⟩, trivial, trivial, trivial, ⟨by decide, by decide⟩,
    trivial⟩, rfl⟩

end Molt.Block.Bench
