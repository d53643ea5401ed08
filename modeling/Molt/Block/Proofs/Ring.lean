/-
The block ring keeps its promises: requests are started in order and once,
answers come back once under their own id and with their own buffer, and a
flush is a barrier.

# The invariant

`Sound` says that both queues of the ring carry lists, that the log is
tracked by what the driver and the client hold (`Barrier.Tracks`), and that
`outstanding` counts the requests at the device. The requests not started
are the held one and those on the ring; the answers on their way are the
pending one, then those on the ring and those parked.

The ring's queues keep their order as long as `Apart` holds of the number of
submissions, which is the case for every number if the depth divides `2^64`.
-/
import Molt.Block.Ring
import Molt.Core.Proofs.Ring

namespace Molt.Block

open Molt.Core Molt.Lib.Barrier List Multiset Bench

def requestTicket (r : Request) : Ticket := (r.id, r.op.cell)

/-- Which request an answer belongs to. -/
def answerTicket (a : Answer) : Ticket := (a.id, a.result.cell)

/-- The requests that must run alone. -/
def isFlush (r : Request) : Prop := r.op = .flush

-- == queued

namespace Queued

variable {D : Type}

def owned (q : Queued D) : Multiset Ticket :=
  slotKeys (fun x : Nat × BlockOp => ((x.1, x.2.cell) : Ticket)) q.waiting

theorem act_cell (disk : Disk D) (d : D) (op : BlockOp) : (act disk d op).1.cell = op.cell := by
  cases op with
  | read sector bytes buffer =>
    simp only [act]
    split
    · split <;> rfl
    · rfl
  | write sector bytes buffer =>
    simp only [act]
    split <;> rfl
  | flush => rfl

theorem newest_spec {waiting : List (Option (Nat × BlockOp))} {i id : Nat} {op : BlockOp}
    (h : newest waiting = some (i, id, op)) : waiting[i]? = some (some (id, op)) := by
  obtain ⟨⟨slot, j⟩, hmem, hslot⟩ := exists_of_findSome?_eq_some h
  rw [mem_reverse] at hmem
  have hat := mem_zipIdx_iff_getElem?.mp hmem
  cases slot with
  | none => cases hslot
  | some x =>
    simp only [Option.map_some, Option.some.injEq, Prod.mk.injEq] at hslot
    obtain ⟨rfl, rfl, rfl⟩ := hslot
    exact hat

theorem lawful (disk : Disk D) : (queue disk).Lawful owned where
  started := by
    intro id op d d' h
    simp only [queue, start] at h
    split at h
    · rename_i free hfree
      cases h
      obtain ⟨hlt, hnone, -⟩ := List.findIdx?_eq_some_iff_getElem.mp hfree
      have hat : d.waiting[free]? = some none := by
        rw [getElem?_eq_getElem hlt]
        simpa using hnone
      exact slotKeys_fill _ hat (id, op)
    · cases h
  refused := by
    intro id op op' d d' h
    simp only [queue, start] at h
    split at h
    · cases h
    · cases h
      exact ⟨rfl, rfl⟩
  reaped := by
    intro id done d d' h
    simp only [queue, reap] at h
    split at h
    · cases h
    · rename_i i id' op hnew
      cases h
      rw [owned, ← slotKeys_clear _ (newest_spec hnew), act_cell]
      rfl
  idle := by
    intro d d' h
    simp only [queue, reap] at h
    split at h
    · cases h
      rfl
    · cases h

end Queued

-- == the invariant

namespace Bench

def nullDisk : Disk Unit where
  read := fun _ _ d => (.error .device, d)
  write := fun _ _ d => (.error .readOnly, d)
  flush := fun d => (.ok (), d)

/-- The disk behind a queue of one place. -/
abbrev serial : Queue (Queued Unit) := Queued.queue nullDisk

section Invariant

variable {Q : Type} {n m : Nat} {q : Queue Q} {waiting : Q → Multiset Ticket} {b : Bench Q}
  {subs : List Request} {comps : List Answer}

/-- The ring carries `subs` and `comps`, and the two ends know the rest. -/
structure Sound (n : Nat) (waiting : Q → Multiset Ticket) (b : Bench Q) (subs : List Request)
    (comps : List Answer) : Prop where
  submissions : ∃ k, k + subs.length = (submitted b.log).length
    ∧ Carries n b.ring.submissions k subs
  completions : ∃ k, k + comps.length = (answered b.log).length
    ∧ Carries n b.ring.completions k comps
  tracks : Tracks requestTicket answerTicket isFlush b.log (b.driver.held.toList ++ subs)
    (waiting b.device) (keys answerTicket b.driver.pending.toList)
    (keys answerTicket comps + slotKeys answerTicket b.client.parked) b.driver.barrier
  outstanding : b.driver.outstanding = (waiting b.device).card

theorem Sound.channel {device : Q} (hd : waiting device = 0) :
    Sound n waiting (channel n device) [] [] where
  submissions := ⟨0, rfl, .new n⟩
  completions := ⟨0, rfl, .new n⟩
  tracks := by
    simp only [Bench.channel, hd, slotKeys_replicate, Option.toList, Lib.Barrier.keys_nil,
      nil_append]
    exact .nil
  outstanding := by
    simp [Bench.channel, hd]

section

variable (h : Sound n waiting b subs comps)
include h

theorem Sound.answered_lt {a : Answer}
    (ha : b.driver.pending = some a) :
    (answered b.log).length < (submitted b.log).length := by
  have h1 := congrArg Multiset.card h.tracks.balance
  have h2 := congrArg Multiset.card h.tracks.owing
  have h3 := congrArg List.length h.tracks.order
  simp [Lib.Barrier.keys, ha] at h1 h2 h3
  omega

-- -- the client

theorem Sound.submit (hn : n < 2 ^ 64)
    (hapart : Apart n ((submitted b.log).length + 1)) (op : BlockOp) :
    (submitted (b.submit op).log).length ≤ (submitted b.log).length + 1
    ∧ ∃ subs', Sound n waiting (b.submit op) subs' comps := by
  obtain ⟨k, hk, hcarry⟩ := h.submissions
  rw [← hk] at hapart
  rw [Bench.submit]
  rcases hcarry.trySubmit hn hapart ⟨b.client.next, op⟩ with ⟨-, hp⟩ | ⟨-, r, hp, hc⟩
  · rw [hp, enqueued]
    exact ⟨Nat.le_succ _, subs, h⟩
  rw [hp, enqueued]
  refine ⟨?_, subs ++ [(⟨b.client.next, op⟩ : Request)], ⟨k, ?_, hc⟩, ?_, ?_, h.outstanding⟩
  · simp [note, submitted]
  · simp [note, submitted]
    omega
  · simpa [note, answered] using h.completions
  · have := h.tracks.submit ⟨b.client.next, op⟩
    rwa [append_assoc] at this

theorem Sound.popped (hn : n < 2 ^ 64) :
    (comps = [] ∧ b.ring.tryCompletion = none) ∨
      ∃ c comps' r, comps = c :: comps'
        ∧ b.ring.tryCompletion = some (c, ⟨b.ring.submissions, r⟩)
        ∧ ∃ k, k + comps'.length = (answered b.log).length ∧ Carries n r k comps' := by
  obtain ⟨k, hk, hcarry⟩ := h.completions
  rcases hcarry.tryCompletion hn with ⟨hnil, hp⟩ | ⟨c, comps', r, rfl, hp, hc⟩
  · exact .inl ⟨hnil, hp⟩
  · refine .inr ⟨c, comps', r, rfl, hp, k + 1, ?_, hc⟩
    rw [← hk, length_cons]
    omega

end

theorem free_slot {β : Type} {l : List (Option β)} {i : Nat}
    (h : l.findIdx? Option.isNone = some i) : l[i]? = some none := by
  obtain ⟨hlt, hnone, -⟩ := List.findIdx?_eq_some_iff_getElem.mp h
  rw [getElem?_eq_getElem hlt]
  simpa using hnone

section

variable {c : Answer} {ring : IoRing BlockOp BlockDone} (h : Sound n waiting b subs (c :: comps))
  (hring : ring.submissions = b.ring.submissions)
  (hcomps : ∃ k, k + comps.length = (answered b.log).length ∧ Carries n ring.completions k comps)
include h hring hcomps

theorem Sound.claim : Sound n waiting ({ b with ring }.note (.taken c)) subs comps where
  submissions := by simpa [note, submitted, hring] using h.submissions
  completions := by simpa [note, answered] using hcomps
  tracks := by
    have htracks := h.tracks
    rw [Lib.Barrier.keys_cons, cons_add] at htracks
    exact htracks.take (le_refl _)
  outstanding := h.outstanding

theorem Sound.park {free : Nat}
    (hfree : b.client.parked.findIdx? Option.isNone = some free) :
    Sound n waiting { b with
      ring, client := { b.client with parked := b.client.parked.set free (some c) } }
      subs comps where
  submissions := by simpa [hring] using h.submissions
  completions := hcomps
  tracks := by
    have htracks := h.tracks
    rw [Lib.Barrier.keys_cons, cons_add] at htracks
    show Tracks _ _ _ _ _ _ _ (_ + slotKeys answerTicket (b.client.parked.set free (some c))) _
    rw [slotKeys_fill _ (free_slot hfree), add_cons]
    exact htracks
  outstanding := h.outstanding

end

theorem Sound.takeFrom (h : Sound n waiting b subs comps) (hn : n < 2 ^ 64) (id rounds : Nat) :
    submitted (takeFrom id rounds b).log = submitted b.log
    ∧ ∃ comps', Sound n waiting (takeFrom id rounds b) subs comps' := by
  induction rounds generalizing b comps with
  | zero => exact ⟨rfl, comps, h⟩
  | succ rounds ih =>
    rw [takeFrom]
    rcases h.popped hn with ⟨-, hp⟩ | ⟨c, comps', r, rfl, hp, hcomps⟩
    · rw [hp]
      exact ⟨rfl, comps, h⟩
    rw [hp, takeRound]
    split
    · exact ⟨by simp [note, submitted], comps', h.claim rfl hcomps⟩
    cases hfree : b.client.parked.findIdx? Option.isNone with
    | none =>
      have htracks := h.tracks
      rw [Lib.Barrier.keys_cons, cons_add] at htracks
      exact ⟨rfl, comps', h.submissions, hcomps, htracks.lose (le_cons_self _ _), h.outstanding⟩
    | some free => exact ih (h.park (by rfl) hcomps hfree)

theorem parkedAt_spec {id i : Nat} {c : Answer} (h : b.parkedAt id = some (i, c)) :
    b.client.parked[i]? = some (some c) := by
  obtain ⟨⟨slot, j⟩, hmem, hslot⟩ := exists_of_findSome?_eq_some h
  have hat := mem_zipIdx_iff_getElem?.mp hmem
  cases slot with
  | none => cases hslot
  | some x =>
    by_cases hx : x.id == id
    · simp only [Option.filter, hx, if_true, Option.map_some, Option.some.injEq,
        Prod.mk.injEq] at hslot
      obtain ⟨rfl, rfl⟩ := hslot
      exact hat
    · simp [Option.filter, hx] at hslot

theorem Sound.take (h : Sound n waiting b subs comps) (hn : n < 2 ^ 64) (id : Nat) :
    submitted (b.take id).log = submitted b.log
    ∧ ∃ comps', Sound n waiting (b.take id) subs comps' := by
  rw [Bench.take]
  cases hat : b.parkedAt id with
  | none => exact h.takeFrom hn id _
  | some x =>
    obtain ⟨i, c⟩ := x
    have htracks := h.tracks
    rw [← slotKeys_clear _ (parkedAt_spec hat), add_cons] at htracks
    refine ⟨by simp [note, submitted], comps, ?_, ?_, htracks.take (le_refl _), h.outstanding⟩
    · simpa [note, submitted] using h.submissions
    · simpa [note, answered] using h.completions

-- -- the driver

/-- What is left for the driver to do: a request not started counts twice,
one at the device or on its way back once. -/
def load (b : Bench Q) (subs : List Request) : Nat :=
  2 * (b.driver.held.toList ++ subs).length + b.driver.outstanding + b.driver.pending.toList.length

/-- A loop of the driver adds nothing to the load, and takes something off
it if it says it moved anything. -/
structure Eased (before : Nat) (moved : Bool) (r : Bool × Bench Q) (subs : List Request) :
    Prop where
  le : r.2.load subs ≤ before
  lt : r.1 = true → moved = true ∨ r.2.load subs < before

section

variable (h : Sound n waiting b subs comps)

include h

theorem Sound.handOver (hn : n < 2 ^ 64)
    (hapart : Apart n (submitted b.log).length) :
    b.handOver = none ∨ ∃ pushed b' comps', b.handOver = some (pushed, b')
      ∧ Sound n waiting b' subs comps' ∧ b'.driver.pending = none
      ∧ submitted b'.log = submitted b.log ∧ b'.load subs + pushed.toNat = b.load subs
      ∧ b'.driver.outstanding = b.driver.outstanding := by
  rw [Bench.handOver]
  cases hpending : b.driver.pending with
  | none => exact .inr ⟨false, b, comps, rfl, h, hpending, rfl, rfl, rfl⟩
  | some c =>
    obtain ⟨k, hk, hcarry⟩ := h.completions
    have hlt := h.answered_lt hpending
    rw [← hk] at hlt
    dsimp only
    rcases hcarry.tryComplete hn (hapart.mono hlt) c with ⟨-, hp⟩ | ⟨-, r, hp, hc⟩
    · rw [hp]
      exact .inl rfl
    rw [hp]
    refine .inr ⟨true, _, comps ++ [c], rfl, ⟨?_, ⟨k, ?_, hc⟩, ?_, h.outstanding⟩, rfl,
      by simp [note, submitted], by simp [load, note, hpending], rfl⟩
    · simpa [note, submitted] using h.submissions
    · simp [note, answered]
      omega
    have htracks := h.tracks
    rw [hpending] at htracks
    have howed : keys answerTicket (some c).toList = answerTicket c ::ₘ 0 := rfl
    have := htracks.answer howed
    rw [← singleton_add, ← add_assoc, add_comm {answerTicket c}] at this
    simpa [note, Option.toList] using this

theorem Sound.landed (hpending : b.driver.pending = none)
    (device : Q) (c : Answer) (hc : waiting b.device = answerTicket c ::ₘ waiting device) :
    Sound n waiting (b.landed device c) subs comps where
  submissions := by simpa [Bench.landed, note, submitted] using h.submissions
  completions := by simpa [Bench.landed, note, answered] using h.completions
  tracks := by
    have htracks := h.tracks
    rw [hpending] at htracks
    exact htracks.reap hc _
  outstanding := by
    have := h.outstanding
    rw [hc, card_cons] at this
    show b.driver.outstanding - 1 = (waiting device).card
    omega

theorem Sound.device {device : Q}
    (hd : waiting device = waiting b.device) : Sound n waiting { b with device } subs comps :=
  { h with
    tracks := by
      have htracks := h.tracks
      rwa [← hd] at htracks
    outstanding := h.outstanding.trans (by rw [hd]) }

theorem Sound.outstanding_pos {device : Q} {t : Ticket}
    (hd : waiting b.device = t ::ₘ waiting device) : 0 < b.driver.outstanding := by
  rw [h.outstanding, hd, card_cons]
  exact Nat.succ_pos _

end

/-- `drain` keeps the books; and more rounds than are outstanding change nothing. -/
theorem Sound.drainFrom (hq : q.Lawful waiting) (h : Sound n waiting b subs comps)
    (hn : n < 2 ^ 64) (hapart : Apart n (submitted b.log).length) (rounds : Nat)
    (moved : Bool) :
    submitted (drainFrom q rounds moved b).2.log = submitted b.log
    ∧ Eased (b.load subs) moved (drainFrom q rounds moved b) subs
    ∧ (∃ comps', Sound n waiting (drainFrom q rounds moved b).2 subs comps')
    ∧ (b.driver.outstanding < rounds →
      Bench.drainFrom q (rounds + 1) moved b = Bench.drainFrom q rounds moved b) := by
  induction rounds generalizing b comps moved with
  | zero => exact ⟨rfl, ⟨le_refl _, Or.inl⟩, ⟨comps, h⟩, fun hlt => absurd hlt (Nat.not_lt_zero _)⟩
  | succ rounds ih =>
    rw [Bench.drainFrom, Bench.drainFrom]
    rcases h.handOver hn hapart with hnone | ⟨pushed, b', comps', hsome, h', hpending, hlog,
      hload, hout⟩
    · rw [hnone]
      exact ⟨rfl, ⟨le_refl _, Or.inl⟩, ⟨comps, h⟩, fun _ => rfl⟩
    rw [hsome, drainRound, drainRound, ← hlog, ← hload]
    rw [← hlog] at hapart
    cases hreap : q.reap b'.device with
    | mk answer device =>
      cases answer with
      | none =>
        refine ⟨rfl, ⟨Nat.le_add_right _ _, fun hor => ?_⟩, ⟨comps', h'.device (hq.idle hreap)⟩,
          fun _ => rfl⟩
        cases pushed with
        | true => exact .inr (Nat.lt_succ_self _)
        | false => exact .inl (by simpa using hor)
      | some x =>
        have hpos := h'.outstanding_pos (hq.reaped hreap)
        have hsame : submitted (b'.landed device ⟨x.1, x.2⟩).log = submitted b'.log := by
          simp [Bench.landed, note, submitted]
        have hkeep : (b'.landed device ⟨x.1, x.2⟩).load subs = b'.load subs := by
          simp only [load, Bench.landed, note, hpending, Option.toList, length_cons, length_nil]
          omega
        obtain ⟨hsub, heased, hsound, henough⟩ := ih
          (h'.landed hpending device ⟨x.1, x.2⟩ (hq.reaped hreap)) (hsame ▸ hapart)
          (moved || pushed)
        rw [hsame] at hsub
        rw [hkeep] at heased
        refine ⟨hsub, ⟨Nat.le_trans heased.le (Nat.le_add_right _ _), fun hmoved => ?_⟩, hsound,
          fun hlt => henough ?_⟩
        · cases pushed with
          | true => exact .inr (Nat.lt_succ_of_le heased.le)
          | false => simpa using heased.lt hmoved
        · show b'.driver.outstanding - 1 < rounds
          omega

/-- Taking the next request and holding it again changes nothing that
counts: it was the first of those not started and still is. -/
theorem Sound.next (h : Sound n waiting b subs comps) (hn : n < 2 ^ 64) :
    b.next = none ∨ ∃ request b' subs', b.next = some (request, b')
      ∧ b'.driver.held = none ∧ b'.log = b.log ∧ b'.driver.barrier = b.driver.barrier
      ∧ (b'.hold request).load subs' = b.load subs
      ∧ (b.driver.held.toList ++ subs).length = subs'.length + 1
      ∧ Sound n waiting (b'.hold request) subs' comps := by
  rw [Bench.next]
  cases hheld : b.driver.held with
  | some request =>
    refine .inr ⟨request, _, subs, rfl, rfl, rfl, rfl, ?_, ?_, h.submissions, h.completions, ?_,
      h.outstanding⟩
    · simp [load, hold, hheld]
    · simp [Nat.add_comm]
    · have htracks := h.tracks
      rwa [hheld] at htracks
  | none =>
    obtain ⟨k, hk, hcarry⟩ := h.submissions
    dsimp only
    rcases hcarry.tryNext hn with ⟨-, hp⟩ | ⟨x, subs', r, rfl, hp, hc⟩
    · rw [hp]
      exact .inl rfl
    rw [hp]
    refine .inr ⟨x, _, subs', rfl, hheld, rfl, rfl, ?_, by simp, ⟨k + 1, ?_, hc⟩,
      h.completions, ?_, h.outstanding⟩
    · simp [load, hold, hheld, Nat.add_comm]
    · show k + 1 + subs'.length = (submitted b.log).length
      rw [← hk, length_cons]
      omega
    · have htracks := h.tracks
      rwa [hheld] at htracks

theorem Sound.took {request : Request} (h : Sound n waiting (b.hold request) subs comps)
    (hheld : b.driver.held = none) (hbarrier : b.driver.barrier = false)
    (halone : ¬ (request.op = .flush ∧ b.driver.outstanding > 0)) {device : Q}
    (hd : waiting device = requestTicket request ::ₘ waiting b.device) :
    Sound n waiting (b.took device request) subs comps where
  submissions := by simpa [Bench.took, hold, note, submitted] using h.submissions
  completions := by simpa [Bench.took, hold, note, answered] using h.completions
  tracks := by
    have htracks := h.tracks
    have hcount : b.driver.outstanding = (waiting b.device).card := h.outstanding
    simp only [hold, Option.toList, singleton_append, hbarrier] at htracks
    have hidle : isFlush request → waiting b.device = 0 := by
      intro hflush
      have : b.driver.outstanding = 0 := by
        by_contra hne
        exact halone ⟨hflush, Nat.pos_of_ne_zero hne⟩
      rw [this] at hcount
      exact card_eq_zero.mp hcount.symm
    have hshut : isFlush request → decide (request.op = BlockOp.flush) = true :=
      fun hflush => decide_eq_true hflush
    have hstart := htracks.start hidle hshut
    rw [← hd] at hstart
    simpa [Bench.took, note, hheld, Option.toList] using hstart
  outstanding := by
    show b.driver.outstanding + 1 = (waiting device).card
    rw [hd, card_cons]
    exact congrArg (· + 1) h.outstanding

theorem load_took (subs : List Request) (request : Request) (hheld : b.driver.held = none)
    (device : Q) :
    (b.took device request).load subs < (b.hold request).load subs := by
  simp only [load, took, hold, note, hheld, Option.toList, nil_append,
    singleton_append, length_cons]
  omega

/-- `feed` keeps the books; and more rounds than requests wait change nothing. -/
theorem Sound.feedFrom (hq : q.Lawful waiting) (h : Sound n waiting b subs comps)
    (hn : n < 2 ^ 64) (rounds : Nat) (moved : Bool) :
    submitted (feedFrom q rounds moved b).2.log = submitted b.log
    ∧ (∃ subs', Eased (b.load subs) moved (feedFrom q rounds moved b) subs'
      ∧ Sound n waiting (feedFrom q rounds moved b).2 subs' comps)
    ∧ ((b.driver.held.toList ++ subs).length < rounds →
      Bench.feedFrom q (rounds + 1) moved b = Bench.feedFrom q rounds moved b) := by
  induction rounds generalizing b subs moved with
  | zero => exact ⟨rfl, ⟨subs, ⟨le_refl _, Or.inl⟩, h⟩, fun hlt => absurd hlt (Nat.not_lt_zero _)⟩
  | succ rounds ih =>
    rw [Bench.feedFrom, Bench.feedFrom]
    by_cases hopen : b.driver.barrier = false ∧ b.driver.outstanding < q.depth b.device
    · rw [if_pos hopen, if_pos hopen]
      rcases h.next hn with hnone | ⟨request, b', subs', hsome, hheld, hlog, hbarrier, hload, hlen,
        h'⟩
      · rw [hnone]
        exact ⟨rfl, ⟨subs, ⟨le_refl _, Or.inl⟩, h⟩, fun _ => rfl⟩
      rw [hsome, feedRound, feedRound, ← hlog, ← hload]
      by_cases hwait : request.op = .flush ∧ b'.driver.outstanding > 0
      · rw [if_pos hwait, if_pos hwait]
        exact ⟨rfl, ⟨subs', ⟨le_refl _, Or.inl⟩, h'⟩, fun _ => rfl⟩
      rw [if_neg hwait, if_neg hwait]
      cases hstart : q.start request.id request.op b'.device with
      | mk answer device =>
        cases answer with
        | error refused =>
          obtain ⟨rfl, hd⟩ := hq.refused hstart
          exact ⟨rfl, ⟨subs', ⟨le_refl _, Or.inl⟩, h'.device hd⟩, fun _ => rfl⟩
        | ok _ =>
          have hless := load_took subs' request hheld device
          have hsame : submitted (b'.took device request).log = submitted b'.log := by
            simp [Bench.took, note, submitted]
          obtain ⟨hsub, ⟨subs'', heased, hsound⟩, henough⟩ := ih
            (h'.took hheld (hbarrier.trans hopen.1) hwait (hq.started hstart)) true
          rw [hsame] at hsub
          refine ⟨hsub, ⟨subs'', ⟨?_, fun _ => .inr ?_⟩, hsound⟩, fun hlt => henough ?_⟩
          · exact Nat.le_of_lt (Nat.lt_of_le_of_lt heased.le hless)
          · exact Nat.lt_of_le_of_lt heased.le hless
          · simp only [Bench.took, note, hheld, Option.toList, nil_append]
            omega
    · rw [if_neg hopen, if_neg hopen]
      exact ⟨rfl, ⟨subs, ⟨le_refl _, Or.inl⟩, h⟩, fun _ => rfl⟩

theorem pumpFrom_succ (q : Queue Q) (rounds : Nat) (b : Bench Q) :
    pumpFrom q (rounds + 1) b =
      if !((b.drain q).2.feed q).1 && !(b.drain q).1 then ((b.drain q).2.feed q).2
      else pumpFrom q rounds ((b.drain q).2.feed q).2 := rfl

section

variable (hq : q.Lawful waiting) (h : Sound n waiting b subs comps) (hn : n < 2 ^ 64)
  (hapart : Apart n (submitted b.log).length)

include hq h hn hapart

theorem Sound.pumpRound :
    submitted ((b.drain q).2.feed q).2.log = submitted b.log
    ∧ ∃ subs' comps', Sound n waiting ((b.drain q).2.feed q).2 subs' comps'
      ∧ ((!((b.drain q).2.feed q).1 && !(b.drain q).1) = false →
        ((b.drain q).2.feed q).2.load subs' < b.load subs) := by
  obtain ⟨hlog, hdrain, ⟨comps', hd⟩, -⟩ :=
    h.drainFrom hq hn hapart (b.driver.outstanding + 2) false
  obtain ⟨hlog', ⟨subs', hfeed, hf⟩, -⟩ := hd.feedFrom hq hn ((b.drain q).2.backlog + 2) false
  refine ⟨hlog'.trans hlog, subs', comps', hf, fun hmoved => ?_⟩
  rw [Bool.and_eq_false_iff, Bool.not_eq_false', Bool.not_eq_false'] at hmoved
  rcases hmoved with hfed | hdrained
  · exact Nat.lt_of_lt_of_le ((hfeed.lt hfed).resolve_left (by decide)) hdrain.le
  · exact Nat.lt_of_le_of_lt hfeed.le ((hdrain.lt hdrained).resolve_left (by decide))

/-- `pump` keeps the books; and more rounds than it is loaded with change nothing. -/
theorem Sound.pumpFrom (rounds : Nat) :
    submitted (pumpFrom q rounds b).log = submitted b.log
    ∧ (∃ subs' comps', Sound n waiting (pumpFrom q rounds b) subs' comps')
    ∧ (b.load subs < rounds → Bench.pumpFrom q (rounds + 1) b = Bench.pumpFrom q rounds b) := by
  induction rounds generalizing b subs comps with
  | zero => exact ⟨rfl, ⟨subs, comps, h⟩, fun hlt => absurd hlt (Nat.not_lt_zero _)⟩
  | succ rounds ih =>
    obtain ⟨hlog, subs', comps', hround, hless⟩ := h.pumpRound hq hn hapart
    rw [pumpFrom_succ q (rounds + 1) b, pumpFrom_succ q rounds b]
    by_cases hmoved : (!((b.drain q).2.feed q).1 && !(b.drain q).1) = true
    · rw [if_pos hmoved, if_pos hmoved]
      exact ⟨hlog, ⟨subs', comps', hround⟩, fun _ => rfl⟩
    · rw [if_neg hmoved, if_neg hmoved]
      have := hless (Bool.not_eq_true _ ▸ hmoved)
      rw [← hlog] at hapart ⊢
      obtain ⟨hsub, hsound, henough⟩ := ih hround hapart
      exact ⟨hsub, hsound, fun hlt => henough (by omega)⟩

/-- The bounds `drain`, `feed` and `pump` run under are wide enough for the
loops to end by themselves. -/
theorem Sound.loops_end (extra : Nat) :
    Bench.drainFrom q (b.driver.outstanding + 2 + extra) false b = b.drain q
    ∧ Bench.feedFrom q (b.backlog + 2 + extra) false b = b.feed q
    ∧ Bench.pumpFrom q (2 * b.backlog + b.driver.outstanding + 5 + extra) b = b.pump q := by
  have hbacklog : b.backlog = subs.length := by
    obtain ⟨k, -, hcarry⟩ := h.submissions
    have := hcarry.bound
    rw [backlog, hcarry.tail, hcarry.head, wrappingSub_mod (by omega)]
  have hheld : b.driver.held.toList.length ≤ 1 := by
    cases b.driver.held <;> simp
  have hpending : b.driver.pending.toList.length ≤ 1 := by
    cases b.driver.pending <;> simp
  induction extra with
  | zero => exact ⟨rfl, rfl, rfl⟩
  | succ extra ih =>
    obtain ⟨hd, hf, hp⟩ := ih
    refine ⟨?_, ?_, ?_⟩
    · have hlt : b.driver.outstanding < b.driver.outstanding + 2 + extra := by omega
      rw [← hd]
      exact (h.drainFrom hq hn hapart _ false).2.2.2 hlt
    · have hlt : (b.driver.held.toList ++ subs).length < b.backlog + 2 + extra := by
        rw [length_append]
        omega
      rw [← hf]
      exact (h.feedFrom hq hn _ false).2.2 hlt
    · have hlt : b.load subs < 2 * b.backlog + b.driver.outstanding + 5 + extra := by
        rw [load, length_append]
        omega
      rw [← hp]
      exact (h.pumpFrom hq hn hapart _).2.2 hlt

end

-- == all calls

theorem Sound.call (hq : q.Lawful waiting) (h : Sound n waiting b subs comps)
    (hn : n < 2 ^ 64) (act : Act)
    (hapart : Apart n ((submitted b.log).length + submits [act])) :
    (submitted (b.call q act).log).length ≤ (submitted b.log).length + submits [act]
    ∧ ∃ subs' comps', Sound n waiting (b.call q act) subs' comps' := by
  unfold Bench.call
  split
  · exact ⟨Nat.le_add_right _ _, subs, comps, h⟩
  cases act with
  | submit op =>
    obtain ⟨hle, subs', h'⟩ := h.submit hn hapart op
    exact ⟨hle, subs', comps, h'⟩
  | take id =>
    obtain ⟨hlog, comps', h'⟩ := h.take hn id
    exact ⟨by simp [hlog], subs, comps', h'⟩
  | pump =>
    obtain ⟨hlog, h', -⟩ := h.pumpFrom hq hn hapart (2 * b.backlog + b.driver.outstanding + 5)
    exact ⟨by simp [pump, hlog], h'⟩

theorem Sound.run (hq : q.Lawful waiting) (hn : n < 2 ^ 64) (acts : List Act)
    (h : Sound n waiting b subs comps)
    (hapart : Apart n ((submitted b.log).length + submits acts)) :
    ∃ subs' comps', Sound n waiting (b.run q acts) subs' comps' := by
  induction acts generalizing b subs comps with
  | nil => exact ⟨subs, comps, h⟩
  | cons act rest ih =>
    have hsum : submits (act :: rest) = submits [act] + submits rest := by
      simp only [submits, List.countP_cons, List.countP_nil]
      omega
    rw [hsum] at hapart
    obtain ⟨hle, subs', comps', h'⟩ := h.call hq hn act (hapart.mono (by omega))
    exact ih h' (hapart.mono (by omega))

/-- Over any lawful device and any interleaving of calls, as long as the
ring's depth divides `2^64` or no more than `2^64` requests are submitted:
requests are started in order, each once; answers are handed over and taken
at most once, under their own id and with their own buffer; a flush is
started when everything before it has been reaped, and nothing is started
after it until it has been. -/
theorem flush_is_a_barrier {Q : Type} (q : Queue Q) (waiting : Q → Multiset Ticket)
    (hq : q.Lawful waiting) (device : Q) (hd : waiting device = 0) (n : Nat) (hn : n < 2 ^ 64)
    (acts : List Act) (hapart : Apart n (submits acts)) :
    Orderly requestTicket answerTicket isFlush ((channel n device).run q acts).log := by
  obtain ⟨subs, comps, h⟩ := Sound.run hq hn acts (Sound.channel (n := n) hd)
    (by simpa [Bench.channel, submitted] using hapart)
  exact h.tracks.orderly

end Invariant

theorem flush_is_a_barrier_serial :
    started ((channel 4 (.new 1 ())).run serial
        [.submit .flush, .submit .flush, .pump, .take 1, .take 0]).log
      = [⟨0, .flush⟩, ⟨1, .flush⟩]
    ∧ Orderly requestTicket answerTicket isFlush ((channel 4 (.new 1 ())).run serial
        [.submit .flush, .submit .flush, .pump, .take 1, .take 0]).log :=
  ⟨rfl, flush_is_a_barrier serial Queued.owned (Queued.lawful nullDisk) (.new 1 ()) rfl 4
    (by decide) _ (.inl (by decide))⟩

-- == at the wrap of the counters

-- A ring of three places in front of a disk that takes one request at a time is
-- walked to the wrap one flush after another (`cycles`). There the second of two
-- submissions lands on the first.

def flushed (id : Nat) : Answer := ⟨id, ⟨.ok (), none⟩⟩

/-- A bench where nothing is under way but on the ring. -/
def idleOn (ring : IoRing BlockOp BlockDone) (client : BlockClient)
    (log : List (Event Request Answer)) : Bench (Queued Unit) :=
  { ring, client, driver := ⟨none, none, 0, false⟩, device := .new 1 (), log
    panicked := false }

def busyOn (id : Nat) (ring : IoRing BlockOp BlockDone) (client : BlockClient)
    (log : List (Event Request Answer)) : Bench (Queued Unit) :=
  { ring, client, driver := ⟨none, none, 1, true⟩, device := ⟨(), [some (id, .flush)]⟩, log
    panicked := false }

variable {ring ring' : IoRing BlockOp BlockDone} {client : BlockClient}
  {log : List (Event Request Answer)} {id : Nat}

theorem drain_idle : (idleOn ring client log).drain serial = (false, idleOn ring client log) := rfl

theorem feed_none (h : ring.tryNext = none) :
    (idleOn ring client log).feed serial = (false, idleOn ring client log) := by
  have hnext : (idleOn ring client log).next = none := by
    simp only [next, idleOn, h, Option.map_none]
  unfold feed
  generalize (idleOn ring client log).backlog = m
  rw [show m + 2 = m + 1 + 1 from rfl, feedFrom, hnext]
  rfl

theorem feed_flush (h : ring.tryNext = some (⟨id, .flush⟩, ring')) :
    (idleOn ring client log).feed serial
      = (true, busyOn id ring' client (log ++ [.started ⟨id, .flush⟩])) := by
  have hnext : (idleOn ring client log).next = some (⟨id, .flush⟩, idleOn ring' client log) := by
    simp only [next, idleOn, h, Option.map_some]
  have hstart : serial.start id .flush (Queued.new 1 ())
      = (.ok (), ⟨(), [some (id, .flush)]⟩) := rfl
  have hstarted : (idleOn ring' client log).took ⟨(), [some (id, .flush)]⟩ ⟨id, .flush⟩
      = busyOn id ring' client (log ++ [.started ⟨id, .flush⟩]) := rfl
  unfold feed
  generalize (idleOn ring client log).backlog = m
  rw [show m + 2 = m + 1 + 1 from rfl, feedFrom, if_pos ⟨rfl, Nat.one_pos⟩, hnext, feedRound,
    if_neg (by simp [idleOn])]
  rw [show serial.start (⟨id, .flush⟩ : Request).id (⟨id, .flush⟩ : Request).op
    (idleOn ring' client log).device = (.ok (), ⟨(), [some (id, .flush)]⟩) from rfl]
  show feedFrom serial (m + 1) true ((idleOn ring' client log).took _ _) = _
  rw [hstarted, feedFrom, if_neg (by simp [busyOn])]

theorem drain_busy (h : ring.tryComplete (flushed id) = .ok ring') :
    (busyOn id ring client log).drain serial
      = (true, idleOn ring' client
        (log ++ [.reaped (flushed id)] ++ [.answered (flushed id)])) := by
  have hbusy : (busyOn id ring client log).handOver
      = some (false, busyOn id ring client log) := rfl
  have hover : ((busyOn id ring client log).landed (.new 1 ()) (flushed id)).handOver
      = some (true, idleOn ring' client
        (log ++ [.reaped (flushed id)] ++ [.answered (flushed id)])) := by
    rw [handOver]
    show handedOver _ _ (ring.tryComplete (flushed id)) = _
    rw [h]
    rfl
  rw [drain, show (busyOn id ring client log).driver.outstanding + 2 = 2 + 1 from rfl,
    drainFrom, hbusy, drainRound,
    show serial.reap (busyOn id ring client log).device
      = (some (id, ⟨.ok (), none⟩), .new 1 ()) from rfl]
  show drainFrom serial (1 + 1) false ((busyOn id ring client log).landed _ (flushed id)) = _
  rw [drainFrom, hover, drainRound,
    show serial.reap (idleOn ring' client
      (log ++ [.reaped (flushed id)] ++ [.answered (flushed id)])).device
      = (none, .new 1 ()) from rfl]
  rfl

theorem pumpFrom_moved {Q : Type} {q : Queue Q} {b b1 b2 : Bench Q} {drained fed : Bool}
    (rounds : Nat) (hd : b.drain q = (drained, b1)) (hf : b1.feed q = (fed, b2))
    (hmoved : (!fed && !drained) = false) :
    pumpFrom q (rounds + 1) b = pumpFrom q rounds b2 := by
  simp only [pumpFrom, hd, hf, hmoved]
  rfl

theorem pumpFrom_settled {Q : Type} {q : Queue Q} {b b1 b2 : Bench Q} (rounds : Nat)
    (hd : b.drain q = (false, b1)) (hf : b1.feed q = (false, b2)) :
    pumpFrom q (rounds + 1) b = b2 := by
  simp only [pumpFrom, hd, hf]
  rfl

def flushLog (id : Nat) : List (Event Request Answer) :=
  [.started ⟨id, .flush⟩, .reaped (flushed id), .answered (flushed id)]

/-- A flush taken off the ring is started in one round and answered in the
next, which then looks for another. -/
theorem pumpFrom_flush {ring1 ring2 : IoRing BlockOp BlockDone} {b' : Bench (Queued Unit)}
    {fed : Bool} (rounds : Nat) (h1 : ring.tryNext = some (⟨id, .flush⟩, ring1))
    (h2 : ring1.tryComplete (flushed id) = .ok ring2)
    (h3 : (idleOn ring2 client (log ++ flushLog id)).feed serial = (fed, b')) :
    pumpFrom serial (rounds + 2) (idleOn ring client log) = pumpFrom serial rounds b' := by
  have hlog : log ++ flushLog id = log ++ [.started ⟨id, .flush⟩] ++ [.reaped (flushed id)]
      ++ [.answered (flushed id)] := by simp [flushLog]
  rw [hlog] at h3
  rw [show rounds + 2 = rounds + 1 + 1 from rfl, pumpFrom_moved _ drain_idle (feed_flush h1) rfl,
    pumpFrom_moved _ (drain_busy h2) h3 (by simp)]

section

variable {ring1 ring2 : IoRing BlockOp BlockDone} (client : BlockClient)
  (log : List (Event Request Answer))
  (h1 : ring.tryNext = some (⟨id, .flush⟩, ring1)) (h2 : ring1.tryComplete (flushed id) = .ok ring2)
include h1 h2

theorem pump_flush (h3 : ring2.tryNext = none) :
    (idleOn ring client log).pump serial = idleOn ring2 client (log ++ flushLog id) := by
  unfold pump
  generalize 2 * (idleOn ring client log).backlog + (idleOn ring client log).driver.outstanding = m
  rw [show m + 5 = m + 2 + 1 + 2 from rfl, pumpFrom_flush _ h1 h2 (feed_none h3),
    pumpFrom_settled _ drain_idle (feed_none h3)]

/-- Two flushes on the ring: the second is started in the round that
answers the first. -/
theorem pump_two {id' : Nat} {ring3 ring4 : IoRing BlockOp BlockDone}
    (h3 : ring2.tryNext = some (⟨id', .flush⟩, ring3))
    (h4 : ring3.tryComplete (flushed id') = .ok ring4) (h5 : ring4.tryNext = none) :
    (idleOn ring client log).pump serial
      = idleOn ring4 client (log ++ flushLog id ++ flushLog id') := by
  have hlog : log ++ flushLog id ++ flushLog id' = log ++ flushLog id
      ++ [.started ⟨id', .flush⟩] ++ [.reaped (flushed id')] ++ [.answered (flushed id')] := by
    simp [flushLog]
  unfold pump
  generalize 2 * (idleOn ring client log).backlog + (idleOn ring client log).driver.outstanding = m
  rw [show m + 5 = m + 1 + 1 + 1 + 2 from rfl, pumpFrom_flush _ h1 h2 (feed_flush h3),
    pumpFrom_moved _ (drain_busy h4) (feed_none h5) rfl,
    pumpFrom_settled _ drain_idle (feed_none h5), hlog]

end

theorem submit_flush (client : BlockClient) (log : List (Event Request Answer))
    (h : ring.trySubmit ⟨client.next, .flush⟩ = .ok ring') :
    (idleOn ring client log).submit .flush
      = idleOn ring' ⟨client.parked, wrappingAdd client.next 1⟩
        (log ++ [.submitted ⟨client.next, .flush⟩]) := by
  rw [Bench.submit]
  show enqueued _ ⟨client.next, .flush⟩ (ring.trySubmit ⟨client.next, .flush⟩) = _
  rw [h]
  rfl

theorem take_flush (client : BlockClient) (hparked : client.parked = [none, none, none])
    (h : ring.tryCompletion = some (flushed id, ring')) :
    (idleOn ring client log).take id = idleOn ring' client (log ++ [.taken (flushed id)]) := by
  have hnone : (idleOn ring client log).parkedAt id = none := by
    rw [parkedAt, show (idleOn ring client log).client.parked = [none, none, none] from hparked]
    rfl
  rw [Bench.take, hnone]
  generalize wrappingSub _ _ = m
  show takeFrom id (m + 1) (idleOn ring client log) = _
  rw [takeFrom, show (idleOn ring client log).ring.tryCompletion
    = some (flushed id, ring') from h, takeRound,
    if_pos (show (flushed id).id = id from rfl)]
  rfl

theorem run_idle (act : Act) (rest : List Act) :
    (idleOn ring client log).run serial (act :: rest)
      = ((idleOn ring client log).call serial act).run serial rest := rfl

theorem call_submit (op : BlockOp) :
    (idleOn ring client log).call serial (.submit op) = (idleOn ring client log).submit op := by
  unfold call
  rw [if_neg (by simp [idleOn])]

theorem call_pump :
    (idleOn ring client log).call serial .pump = (idleOn ring client log).pump serial := by
  unfold call
  rw [if_neg (by simp [idleOn])]

theorem call_take : (idleOn ring client log).call serial (.take id)
    = (idleOn ring client log).take id := by
  unfold call
  rw [if_neg (by simp [idleOn])]

theorem run_append {Q : Type} (q : Queue Q) (b : Bench Q) (l l' : List Act) :
    b.run q (l ++ l') = (b.run q l).run q l' := List.foldl_append ..

/-- An idle bench with nothing on a ring of three, `k` requests after the
start. -/
structure Rested (k : Nat) (b : Bench (Queued Unit)) (ring : IoRing BlockOp BlockDone)
    (log : List (Event Request Answer)) : Prop where
  eq : b = idleOn ring ⟨[none, none, none], k⟩ log
  subs : Counted 3 ring.submissions k 0
  comps : Counted 3 ring.completions k 0
  same : started log = submitted log

def cycle (k : Nat) : List Act := [.submit .flush, .pump, .take k]

theorem Rested.cycle {k : Nat} {b : Bench (Queued Unit)} (h : Rested k b ring log)
    (hk : k + 1 < 2 ^ 64) :
    ∃ ring' log', Rested (k + 1) (b.run serial (cycle k)) ring' log' := by
  have h3 : 3 < 2 ^ 64 := by decide
  obtain ⟨S1, S2, hpushS, hpopS, hS⟩ := h.subs.through h3 (by decide) ⟨k, .flush⟩
  obtain ⟨C1, C2, hpushC, hpopC, hC⟩ := h.comps.through h3 (by decide) (flushed k)
  have hsubmit := submit_flush ⟨[none, none, none], k⟩ log (IoRing.trySubmit_ok ring hpushS)
  rw [wrappingAdd, Nat.mod_eq_of_lt hk] at hsubmit
  have hpump := pump_flush ⟨[none, none, none], k + 1⟩ (log ++ [.submitted ⟨k, .flush⟩])
    (IoRing.tryNext_some ⟨S1, ring.completions⟩ hpopS)
    (IoRing.tryComplete_ok ⟨S2, ring.completions⟩ hpushC)
    (IoRing.tryNext_none ⟨S2, C1⟩ (hS.tryPop_none h3))
  refine ⟨⟨S2, C2⟩, log ++ [.submitted ⟨k, .flush⟩] ++ flushLog k ++ [.taken (flushed k)],
    ?_, hS, hC, ?_⟩
  · rw [h.eq, Bench.cycle, run_idle, call_submit, hsubmit, run_idle, call_pump, hpump, run_idle,
      call_take, take_flush ⟨[none, none, none], k + 1⟩ rfl
        (IoRing.tryCompletion_some ⟨S2, C1⟩ hpopC)]
    rfl
  · simp [flushLog, started, submitted, h.same]

def cycles (k : Nat) : List Act := (List.range k).flatMap cycle

theorem Rested.cycles {k : Nat} (hk : k < 2 ^ 64) :
    ∃ ring log, Rested k ((channel 3 (.new 1 ())).run serial (cycles k)) ring log := by
  induction k with
  | zero => exact ⟨.new 3, [], rfl, .new 3, .new 3, rfl⟩
  | succ k ih =>
    obtain ⟨ring, log, h⟩ := ih (by omega)
    obtain ⟨ring', log', h'⟩ := h.cycle hk
    refine ⟨ring', log', ?_⟩
    rw [Bench.cycles, List.range_succ, List.flatMap_append, run_append]
    simpa [Bench.cycles] using h'

def twoAfter (k : Nat) : List Act := cycles k ++ [.submit .flush, .submit .flush, .pump]

/-- On a ring of three places the second of two requests submitted at the
wrap is started twice and the first never. -/
theorem twoAfter_log {k : Nat} (hk : k + 1 = 2 ^ 64) : ∃ l : List Request,
    submitted ((channel 3 (.new 1 ())).run serial (twoAfter k)).log
        = l ++ [⟨k, .flush⟩, ⟨0, .flush⟩]
      ∧ started ((channel 3 (.new 1 ())).run serial (twoAfter k)).log
        = l ++ [⟨0, .flush⟩, ⟨0, .flush⟩] := by
  have h3 : 3 < 2 ^ 64 := by decide
  obtain ⟨⟨S, C⟩, log, h⟩ := Rested.cycles (k := k) (by omega)
  have hS : Counted 3 S k 0 := h.subs
  have hC : Counted 3 C k 0 := h.comps
  -- the two pushes; the second lands in the slot of the first
  have hS1 := hS.push (by decide) (⟨k, .flush⟩ : Request)
  have hp1 := hS.tryPush_ok h3 (by decide) (⟨k, .flush⟩ : Request)
  generalize (S.write S.tail ⟨k, .flush⟩).storeTail S.tail = S1 at hS1 hp1
  have hS2 := hS1.push (by decide) (⟨0, .flush⟩ : Request)
  have hp2 := hS1.tryPush_ok h3 (by decide) (⟨0, .flush⟩ : Request)
  have hold : (S1.write S1.tail (⟨0, .flush⟩ : Request)).slot S1.head = some ⟨0, .flush⟩ := by
    refine slot_at_wrap (n := 3) (by decide) (by decide) ?_ _
    rw [show 2 ^ 64 - 2 ^ 64 % 3 = k by omega]
    exact hS1
  have hnew : (S1.write S1.tail (⟨0, .flush⟩ : Request)).slot S1.tail = some ⟨0, .flush⟩ :=
    slot_write_same (by rw [SpscRing.capacity, hS1.length]; decide) _ _
  -- the two pops both read it
  have hq1 := hS2.tryPop_some h3 hold
  have hS3 := hS2.advance
  have hhead : (S1.write S1.tail (⟨0, .flush⟩ : Request)).slot (wrappingAdd S1.head 1)
      = some ⟨0, .flush⟩ := by
    rw [← hnew, wrappingAdd, hS1.head, hS1.tail]
    congr 1
    omega
  have hq2 := hS3.tryPop_some h3 hhead
  have hS4 := hS3.advance
  generalize (S1.write S1.tail ⟨0, .flush⟩).storeTail S1.tail = S2 at hp2 hq1 hq2 hS4
  -- the answers find room
  have hC1 := hC.push (by decide) (flushed 0)
  have hc1 := hC.tryPush_ok h3 (by decide) (flushed 0)
  have hc2 := hC1.tryPush_ok h3 (by decide) (flushed 0)
  have hsub1 := submit_flush ⟨[none, none, none], k⟩ log (IoRing.trySubmit_ok ⟨S, C⟩ hp1)
  have hsub2 := submit_flush ⟨[none, none, none], 0⟩ (log ++ [.submitted ⟨k, .flush⟩])
    (IoRing.trySubmit_ok ⟨S1, C⟩ hp2)
  have hpump := pump_two ⟨[none, none, none], 1⟩
    (log ++ [.submitted ⟨k, .flush⟩] ++ [.submitted ⟨0, .flush⟩])
    (IoRing.tryNext_some ⟨S2, C⟩ hq1) (IoRing.tryComplete_ok _ hc1)
    (IoRing.tryNext_some _ hq2) (IoRing.tryComplete_ok _ hc2)
    (IoRing.tryNext_none _ (hS4.tryPop_none h3))
  rw [wrappingAdd, hk, Nat.mod_self] at hsub1
  rw [show wrappingAdd 0 1 = 1 from rfl] at hsub2
  rw [twoAfter, run_append, h.eq, run_idle, call_submit, hsub1, run_idle, call_submit, hsub2,
    run_idle, call_pump, hpump]
  refine ⟨submitted log, ?_, ?_⟩
  · show submitted (log ++ _ ++ _ ++ _ ++ _) = _
    simp [flushLog, submitted]
  · show started (log ++ _ ++ _ ++ _ ++ _) = _
    simp [flushLog, started, h.same]

/-- The law fails on a ring of three places: after `2^64 - 1` requests, two
more are submitted, and the second is started twice. -/
theorem three_places_start_a_request_twice :
    serial.Lawful Queued.owned ∧ Queued.owned (.new 1 ()) = 0
      ∧ ∃ (acts : List Act) (l : List Request) (x y : Request), x ≠ y
        ∧ submitted ((channel 3 (.new 1 ())).run serial acts).log = l ++ [x, y]
        ∧ started ((channel 3 (.new 1 ())).run serial acts).log = l ++ [y, y] := by
  obtain ⟨k, hk⟩ : ∃ k, k + 1 = 2 ^ 64 := ⟨2 ^ 64 - 1, by decide⟩
  obtain ⟨l, hsubmitted, hstarted⟩ := twoAfter_log hk
  refine ⟨Queued.lawful nullDisk, rfl, twoAfter k, l, ⟨k, .flush⟩, ⟨0, .flush⟩, ?_,
    hsubmitted, hstarted⟩
  intro heq
  have : k = 0 := congrArg Submission.id heq
  omega

end Bench

end Molt.Block
