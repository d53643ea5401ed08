/-
A client whose polled requests are never dropped has one call under way, and
so each reply it takes is the reply to its own request.

`Correlated` ties the program to the rings: the ids published are the first
of the ids submitted, and the client is calm, writing its one submission or
waiting for the one answer (`Stage`). One call under way keeps both rings
within a window of one slot, whatever their length.
-/
import Molt.Abi.Client
import Molt.Abi.Proofs.Honest

namespace Molt.Abi

open List

variable {n : Nat}

-- == the kernel's moves

section Moves

variable (s : System)

theorem polledAt_cases (tail : Nat) : ∃ fault copying answer, s.polledAt n tail
    = { s with kernel := { s.kernel with fault, copying } }.note
      (.polled s.kernel.head tail answer) := by
  unfold System.polledAt
  generalize ahead tail s.kernel.head = ready
  dsimp only
  split
  · exact ⟨_, _, _, rfl⟩
  · split
    · exact ⟨_, _, _, rfl⟩
    · exact ⟨_, _, _, rfl⟩

theorem take_ledger : tooks (s.take n).log = tooks s.log
    ∧ publisheds (s.take n).log = publisheds s.log
    ∧ (s.take n).kernel.writing = s.kernel.writing := by
  unfold System.take
  split
  · exact ⟨rfl, rfl, rfl⟩
  · simp [System.note, tooks, publisheds]
  · obtain ⟨fault, copying, answer, heq⟩ := polledAt_cases (n := n) s s.channel.submissions.tail
    rw [heq]
    simp [System.note, tooks, publisheds]

theorem copy_ledger : (tooks s.log).length ≤ (tooks (s.copy n).log).length
    ∧ publisheds (s.copy n).log = publisheds s.log
    ∧ (s.copy n).kernel.writing = s.kernel.writing := by
  unfold System.copy
  split
  · exact ⟨le_rfl, rfl, rfl⟩
  · split <;> simp [System.note, tooks, publisheds]

theorem publish_ledger (reply : Reply) : tooks (s.publish n reply).log = tooks s.log
    ∧ publisheds (s.publish n reply).log = publisheds s.log
    ∧ ((s.publish n reply).kernel.writing = s.kernel.writing
      ∨ (s.publish n reply).kernel.writing = some (reply, 0)) := by
  unfold System.publish
  split
  · exact ⟨rfl, rfl, .inl rfl⟩
  · unfold System.askedAt
    generalize ahead s.kernel.tail s.channel.completions.head = taken
    split <;> simp [System.note, tooks, publisheds]

theorem write_ledger : tooks (s.write n).log = tooks s.log
    ∧ ((publisheds (s.write n).log = publisheds s.log
        ∧ (s.write n).kernel.writing.map Prod.fst = s.kernel.writing.map Prod.fst)
      ∨ ∃ reply k, s.kernel.writing = some (reply, k)
        ∧ publisheds (s.write n).log = publisheds s.log ++ [reply]
        ∧ (s.write n).kernel.writing = none) := by
  unfold System.write
  split
  · exact ⟨rfl, .inl ⟨rfl, rfl⟩⟩
  · rename_i reply k hwriting
    split
    · exact ⟨rfl, .inl ⟨rfl, by rw [hwriting]; rfl⟩⟩
    · refine ⟨by simp [System.note, tooks], .inr ⟨reply, k, hwriting, ?_, rfl⟩⟩
      simp [System.note, publisheds]

end Moves

-- == the ledger

def callId (words : Words) : UInt64 := word words 0

/-- The kernel answers the submissions it took, in their order: the ids it
published, and the one it is publishing, are the first of those sent. -/
structure Ledger (sent : List Words) (s : System) : Prop where
  ids : (publisheds s.log).map Reply.id <+: sent.map callId
  owes : (publisheds s.log).length ≤ (tooks s.log).length
  writing : ∀ reply k, s.kernel.writing = some (reply, k) →
    (publisheds s.log).length < (tooks s.log).length
      ∧ (sent.map callId)[(publisheds s.log).length]? = some reply.id

section Ledger

variable {sent : List Words} {s : System}

theorem Ledger.new : Ledger [] .new where
  ids := prefix_refl _
  owes := le_rfl
  writing := by
    intro reply k h
    cases h

section

variable (h : Ledger sent s)

include h

theorem Ledger.memory (c : Channel) : Ledger sent { s with channel := c } :=
  ⟨h.ids, h.owes, h.writing⟩

theorem Ledger.submit (words : Words) : Ledger (sent ++ [words]) s where
  ids := by
    rw [map_append]
    exact h.ids.trans (prefix_append _ _)
  owes := h.owes
  writing := by
    intro reply k hw
    obtain ⟨hlt, hid⟩ := h.writing reply k hw
    refine ⟨hlt, ?_⟩
    rw [List.map_append, List.getElem?_append_left (List.getElem?_eq_some_iff.mp hid).1]
    exact hid

theorem Ledger.take : Ledger sent (s.take n) := by
  obtain ⟨ht, hp, hw⟩ := take_ledger (n := n) s
  refine ⟨?_, ?_, ?_⟩
  · rw [hp]
    exact h.ids
  · rw [hp, ht]
    exact h.owes
  · rw [hp, ht, hw]
    exact h.writing

theorem Ledger.copy : Ledger sent (s.copy n) := by
  obtain ⟨ht, hp, hw⟩ := copy_ledger (n := n) s
  refine ⟨?_, ?_, ?_⟩
  · rw [hp]
    exact h.ids
  · rw [hp]
    exact Nat.le_trans h.owes ht
  · rw [hp, hw]
    intro reply k heq
    obtain ⟨hlt, hid⟩ := h.writing reply k heq
    exact ⟨Nat.lt_of_lt_of_le hlt ht, hid⟩

theorem Ledger.publish {reply : Reply}
    (howed : (publisheds s.log).length < (tooks s.log).length)
    (hid : (sent.map callId)[(publisheds s.log).length]? = some reply.id) :
    Ledger sent (s.publish n reply) := by
  obtain ⟨ht, hp, hw⟩ := publish_ledger (n := n) s reply
  refine ⟨?_, ?_, ?_⟩
  · rw [hp]
    exact h.ids
  · rw [hp, ht]
    exact h.owes
  · rw [hp, ht]
    intro reply' k heq
    rcases hw with hw | hw
    · rw [hw] at heq
      exact h.writing reply' k heq
    · rw [hw] at heq
      cases heq
      exact ⟨howed, hid⟩

theorem Ledger.write : Ledger sent (s.write n) := by
  obtain ⟨ht, ⟨hp, hw⟩ | ⟨reply, k, hwriting, hp, hw⟩⟩ := write_ledger (n := n) s
  · refine ⟨?_, ?_, ?_⟩
    · rw [hp]
      exact h.ids
    · rw [hp, ht]
      exact h.owes
    · rw [hp, ht]
      intro reply k heq
      rw [heq] at hw
      obtain ⟨⟨reply', k'⟩, hwriting, hsame⟩ := Option.map_eq_some_iff.mp hw.symm
      obtain rfl : reply' = reply := hsame
      exact h.writing reply' k' hwriting
  · obtain ⟨hlt, hid⟩ := h.writing reply k hwriting
    refine ⟨?_, ?_, ?_⟩
    · rw [hp, map_append]
      -- the next id of the submissions, after those answered
      obtain ⟨rest, hrest⟩ := h.ids
      rw [← hrest] at hid ⊢
      rw [getElem?_append_right (by simp)] at hid
      rw [prefix_append_right_inj]
      cases rest with
      | nil => simp at hid
      | cons id rest =>
        rw [length_map, Nat.sub_self] at hid
        cases hid
        exact ⟨rest, rfl⟩
    · rw [hp, ht, length_append]
      exact hlt
    · rw [hw]
      intro reply' k' heq
      cases heq

end

end Ledger

-- == the invariant

/-- What the program is doing: nothing that the rings know of, writing the
submission of its request, or waiting for the answer to it. -/
inductive Stage (c : Client) : Prop where
  | calm (live : ∀ r, c.live = some r → ∃ op, r.call = some ⟨r.id, op⟩)
      (idle : c.polling = false) (sending : c.ring.domain.sending = none)
      (fetching : c.ring.domain.fetching = none)
      (count : c.ring.sent.length = c.ring.got.length)
  | submitting (id : UInt64) (words : Words) (k : Nat) (live : c.live = some ⟨id, none⟩)
      (sending : c.ring.domain.sending = some (words, k)) (own : callId words = id)
      (fetching : c.ring.domain.fetching = none)
      (count : c.ring.sent.length = c.ring.got.length)
  | waiting (id : UInt64) (live : c.live = some ⟨id, none⟩)
      (sending : c.ring.domain.sending = none)
      (count : c.ring.sent.length = c.ring.got.length + 1)
      (own : (c.ring.sent.map callId)[c.ring.got.length]? = some id)

def Outcome.of (reply : Reply) : Outcome := ⟨reply.id, .ok reply.result⟩

/-- The requests resolved to the replies got, which answer the submissions in
their order. -/
structure Correlated (n : Nat) (c : Client) (qs : List Words) (qr : List Reply) : Prop where
  paired : Paired n 1 c.ring qs qr
  outcomes : c.outcomes = c.ring.got.map Outcome.of
  ledger : Ledger c.ring.sent c.ring.system
  stage : Stage c

theorem Correlated.new (n : Nat) : Correlated n .new [] [] where
  paired := .new n 1
  outcomes := rfl
  ledger := .new
  stage := .calm (by simp [Client.new]) rfl rfl rfl rfl

variable {c : Client} {qs : List Words} {qr : List Reply}

theorem Stage.count_le (h : Stage c) : c.ring.sent.length ≤ c.ring.got.length + 1 := by
  cases h with
  | calm _ _ _ _ count => omega
  | submitting _ _ _ _ _ _ _ count => omega
  | waiting _ _ _ count _ => omega

theorem Stage.moved (h : Stage c) (s : System) :
    Stage { c with ring := { c.ring with system := s } } := by
  cases h with
  | calm live idle sending fetching count => exact .calm live idle sending fetching count
  | submitting id words k live sending own fetching count =>
    exact .submitting id words k live sending own fetching count
  | waiting id live sending count own => exact .waiting id live sending count own

theorem Correlated.sent_length (h : Correlated n c qs qr) :
    c.ring.sent.length = (tooks c.ring.system.log).length + qs.length := by
  rw [h.paired.sent, length_append]

theorem Correlated.published_length (h : Correlated n c qs qr) :
    (publisheds c.ring.system.log).length = c.ring.got.length + qr.length := by
  rw [h.paired.published, length_append]

theorem window_one (hn : ∃ k, n = 2 ^ k) : Window n 1 := by
  refine ⟨hn, ?_, by omega⟩
  obtain ⟨k, rfl⟩ := hn
  exact Nat.two_pow_pos k

-- == the kernel

section

variable (h : Correlated n c qs qr)

include h

theorem Correlated.take (hn : ∃ k, n = 2 ^ k) : Correlated n (c.move n .take) qs qr :=
  ⟨h.paired.take (window_one hn), h.outcomes, h.ledger.take, h.stage.moved _⟩

theorem Correlated.copy : ∃ qs', Correlated n (c.move n .copy) qs' qr := by
  obtain ⟨qs', hp⟩ := h.paired.copy
  exact ⟨qs', hp, h.outcomes, h.ledger.copy, h.stage.moved _⟩

theorem Correlated.write (hn : ∃ k, n = 2 ^ k) : ∃ qr', Correlated n (c.move n .write) qs qr' := by
  obtain ⟨qr', hp⟩ := h.paired.write (window_one hn)
  exact ⟨qr', hp, h.outcomes, h.ledger.write, h.stage.moved _⟩

/-- An answer is owed to the one call under way, so no reply is in the ring. -/
theorem Correlated.answer (hn : ∃ k, n = 2 ^ k) (result : Int64) :
    Correlated n (c.answer n result) qs qr := by
  unfold Client.answer
  cases howed : c.owed with
  | none => exact h
  | some words =>
    unfold Client.owed at howed
    have hlt := (List.getElem?_eq_some_iff.mp howed).1
    have hcount := h.stage.count_le
    have hsent := h.sent_length
    have hpub := h.published_length
    have hid : (c.ring.sent.map callId)[(publisheds c.ring.system.log).length]?
        = some (callId words) := by
      rw [h.paired.sent, map_append, getElem?_append_left (by simpa using hlt), getElem?_map, howed]
      rfl
    exact ⟨h.paired.publish (window_one hn) (by omega) _, h.outcomes,
      h.ledger.publish hlt hid, h.stage.moved _⟩

end

-- == the program

theorem Correlated.request (h : Correlated n c qs qr) (op : Op) :
    Correlated n (c.request op) qs qr := by
  unfold Client.request
  cases hlive : c.live with
  | some r => exact h
  | none =>
    refine ⟨h.paired, h.outcomes, h.ledger, ?_⟩
    cases h.stage with
    | calm live idle sending fetching count =>
      refine .calm ?_ idle sending fetching count
      intro r hr
      cases hr
      exact ⟨op, rfl⟩
    | submitting id words k live => rw [hlive] at live; cases live
    | waiting id live => rw [hlive] at live; cases live

theorem Correlated.submit (h : Correlated n c qs qr) (hn : ∃ k, n = 2 ^ k) {id : UInt64} {op : Op}
    (hsending : c.ring.domain.sending = none) (hfetching : c.ring.domain.fetching = none)
    (hcount : c.ring.sent.length = c.ring.got.length) :
    Correlated n ({ c with live := some ⟨id, none⟩, polling := true }.submit ⟨id, op⟩) qs qr := by
  have hsent := h.sent_length
  have hpub := h.published_length
  have howes := h.ledger.owes
  have hpos : 1 ≤ n := (window_one hn).fits
  have hfree : (Call.encode ⟨id, op⟩).length = SLOT_WORDS ∧ c.ring.Free n := by
    refine ⟨rfl, ?_⟩
    unfold Honest.Free
    omega
  have hring : c.ring.send n (Call.encode ⟨id, op⟩) = { c.ring with
      domain := { c.ring.domain with sending := some (Call.encode ⟨id, op⟩, 0) } } := by
    unfold Honest.send
    rw [hsending]
    dsimp only
    rw [if_pos hfree]
  have hp := h.paired.send (by omega) (Call.encode ⟨id, op⟩)
  rw [hring] at hp
  exact ⟨hp, h.outcomes, h.ledger,
    .submitting id (Call.encode ⟨id, op⟩) 0 rfl rfl rfl hfetching hcount⟩

theorem Correlated.poll (h : Correlated n c qs qr) (hn : ∃ k, n = 2 ^ k) :
    Correlated n c.poll qs qr := by
  unfold Client.poll
  split
  · rename_i id call hlive hidle
    cases h.stage with
    | calm live idle sending fetching count =>
      obtain ⟨op, hop⟩ := live _ hlive
      obtain rfl : call = ⟨id, op⟩ := Option.some.inj hop
      exact h.submit hn sending fetching count
    | submitting id words k live => rw [hlive] at live; cases live
    | waiting id live => rw [hlive] at live; cases live
  · rename_i id hlive hidle
    refine ⟨h.paired, h.outcomes, h.ledger, ?_⟩
    cases h.stage with
    | calm live =>
      obtain ⟨op, hop⟩ := live _ hlive
      cases hop
    | submitting id words k live sending own fetching count =>
      exact .submitting id words k live sending own fetching count
    | waiting id live sending count own => exact .waiting id live sending count own
  · exact h

theorem sendOn_cases {h : Honest} {words : Words} {k : Nat}
    (hsending : h.domain.sending = some (words, k)) :
    (∃ channel, h.sendOn n = { h with
        system := { h.system with channel }
        domain := { h.domain with sending := some (words, k + 1) } })
      ∨ ∃ channel tail, h.sendOn n = { h with
        system := { h.system with channel }
        domain := { h.domain with tail, sending := none }
        sent := h.sent ++ [words] } := by
  unfold Honest.sendOn
  rw [hsending]
  dsimp only
  split
  · exact .inl ⟨_, rfl⟩
  · exact .inr ⟨_, _, rfl⟩

theorem Correlated.sendOn (h : Correlated n c qs qr) (hn : ∃ k, n = 2 ^ k) {id : UInt64}
    {words : Words} {k : Nat} (hlive : c.live = some ⟨id, none⟩)
    (hsending : c.ring.domain.sending = some (words, k)) (hown : callId words = id)
    (hfetching : c.ring.domain.fetching = none)
    (hcount : c.ring.sent.length = c.ring.got.length) :
    ∃ qs', Correlated n { c with ring := c.ring.sendOn n } qs' qr := by
  obtain ⟨qs', hp⟩ := h.paired.sendOn (window_one hn)
  refine ⟨qs', ?_⟩
  rcases sendOn_cases (n := n) hsending with ⟨channel, hring⟩ | ⟨channel, tail, hring⟩
  · rw [hring] at hp ⊢
    exact ⟨hp, h.outcomes, h.ledger.memory channel,
      .submitting id words (k + 1) hlive rfl hown hfetching hcount⟩
  · rw [hring] at hp ⊢
    refine ⟨hp, h.outcomes, (h.ledger.submit words).memory channel, .waiting id hlive rfl ?_ ?_⟩
    · show (c.ring.sent ++ [words]).length = _
      rw [length_append, hcount]
      rfl
    · show ((c.ring.sent ++ [words]).map callId)[c.ring.got.length]? = some id
      rw [map_append, getElem?_append_right (by simp [hcount])]
      simp [hcount, hown]

theorem fetchOn_cases {h : Honest} {words : Words} (hfetching : h.domain.fetching = some words) :
    (words.length < SLOT_WORDS ∧ ∃ words', h.fetchOn n
        = { h with domain := { h.domain with fetching := some words' } })
      ∨ (¬ words.length < SLOT_WORDS ∧ ∃ channel head, h.fetchOn n = { h with
        system := { h.system with channel }
        domain := { h.domain with head, fetching := none }
        got := h.got ++ [Reply.decode words] }) := by
  unfold Honest.fetchOn
  rw [hfetching]
  dsimp only
  split
  · exact .inl ⟨by assumption, _, rfl⟩
  · exact .inr ⟨by assumption, _, _, rfl⟩

section

variable (h : Correlated n c qs qr)

include h

theorem Correlated.replyOn (hn : ∃ k, n = 2 ^ k) {id : UInt64}
    (hlive : c.live = some ⟨id, none⟩) (hsending : c.ring.domain.sending = none)
    (hcount : c.ring.sent.length = c.ring.got.length + 1)
    (hown : (c.ring.sent.map callId)[c.ring.got.length]? = some id) :
    ∃ qr', Correlated n (c.replyOn n id) qs qr' := by
  unfold Client.replyOn
  cases hfetching : c.ring.domain.fetching with
  | none =>
    dsimp only
    refine ⟨qr, ?_⟩
    split
    · exact ⟨h.paired, h.outcomes, h.ledger, .waiting id hlive hsending hcount hown⟩
    · rename_i hne
      have hp := h.paired.fetch (window_one hn)
      unfold Honest.fetch at hp ⊢
      rw [hfetching] at hp ⊢
      dsimp only at hp ⊢
      rw [if_neg hne] at hp ⊢
      exact ⟨hp, h.outcomes, h.ledger, .waiting id hlive hsending hcount hown⟩
  | some words =>
    obtain ⟨qr', hp⟩ := h.paired.fetchOn
    refine ⟨qr', ?_⟩
    dsimp only
    rcases fetchOn_cases (n := n) hfetching with ⟨hlt, words', hring⟩ | ⟨hge, channel, head, hring⟩
    · rw [if_pos hlt]
      rw [hring] at hp ⊢
      exact ⟨hp, h.outcomes, h.ledger, .waiting id hlive hsending hcount hown⟩
    · rw [if_neg hge]
      rw [hring] at hp ⊢
      have hid : (Reply.decode words).id = id := by
        have hpub : publisheds c.ring.system.log
          = (c.ring.got ++ [Reply.decode words]) ++ qr' := hp.published
        obtain ⟨rest, hrest⟩ := h.ledger.ids
        rw [← hrest, hpub] at hown
        simpa using hown
      refine ⟨hp, ?_, h.ledger.memory channel, .calm (by simp [Client.resolve]) rfl hsending rfl ?_⟩
      · show c.outcomes ++ [_] = (c.ring.got ++ [Reply.decode words]).map Outcome.of
        rw [map_append, ← h.outcomes, if_pos hid, ← hid]
        rfl
      · show c.ring.sent.length = (c.ring.got ++ [Reply.decode words]).length
        rw [length_append, hcount]
        rfl

theorem Correlated.pollOn (hn : ∃ k, n = 2 ^ k) : ∃ qs' qr', Correlated n (c.pollOn n) qs' qr' := by
  unfold Client.pollOn
  split
  · rename_i r x hlive hpoll hsending
    cases h.stage with
    | calm live idle sending => rw [hsending] at sending; cases sending
    | waiting id live sending => rw [hsending] at sending; cases sending
    | submitting id words k live sending own fetching count =>
      obtain ⟨qs', h'⟩ := h.sendOn hn live sending own fetching count
      exact ⟨qs', qr, h'⟩
  · rename_i r hlive hpoll hsending
    cases h.stage with
    | calm live idle sending => rw [hpoll] at idle; cases idle
    | submitting id words k live sending => rw [hsending] at sending; cases sending
    | waiting id live sending count own =>
      rw [hlive] at live
      cases live
      obtain ⟨qr', h'⟩ := h.replyOn hn hlive sending count own
      exact ⟨qs, qr', h'⟩
  · exact ⟨qs, qr, h⟩

theorem Correlated.drop (hpatient : c.Patient .drop) : Correlated n c.drop qs qr := by
  unfold Client.drop
  split
  · exact h
  · refine ⟨h.paired, h.outcomes, h.ledger, ?_⟩
    cases h.stage with
    | calm live idle sending fetching count =>
      exact .calm (by simp) idle sending fetching count
    | submitting id words k live => exact absurd rfl (hpatient rfl _ live)
    | waiting id live => exact absurd rfl (hpatient rfl _ live)

theorem Correlated.step (hn : ∃ k, n = 2 ^ k) {act : ClientAct}
    (hpatient : c.Patient act) : ∃ qs' qr', Correlated n (c.step n act) qs' qr' := by
  cases act with
  | take => exact ⟨qs, qr, h.take hn⟩
  | copy =>
    obtain ⟨qs', h'⟩ := h.copy
    exact ⟨qs', qr, h'⟩
  | answer result => exact ⟨qs, qr, h.answer hn result⟩
  | write =>
    obtain ⟨qr', h'⟩ := h.write hn
    exact ⟨qs, qr', h'⟩
  | request op => exact ⟨qs, qr, h.request op⟩
  | poll => exact ⟨qs, qr, h.poll hn⟩
  | pollOn => exact h.pollOn hn
  | drop => exact ⟨qs, qr, h.drop hpatient⟩

theorem Correlated.run (hn : ∃ k, n = 2 ^ k) {acts : List ClientAct}
    (hpatient : c.PatientRun n acts) : ∃ qs' qr', Correlated n (c.run n acts) qs' qr' := by
  induction acts generalizing c qs qr with
  | nil => exact ⟨qs, qr, h⟩
  | cons act acts ih =>
    obtain ⟨qs', qr', h'⟩ := h.step hn hpatient.1
    exact ih h' hpatient.2

end

-- == correlation

/-- Every request that resolved did so to what the kernel published for it,
in the order of the submissions, and no `take` found the ring lying. -/
structure Answered (c : Client) : Prop where
  outcomes : c.outcomes <+: (publisheds c.ring.system.log).map Outcome.of
  own : c.outcomes.map Outcome.id <+: (tooks c.ring.system.log).map callId
  fault : c.ring.system.kernel.fault = none

theorem Correlated.answered (h : Correlated n c qs qr) : Answered c where
  outcomes := by
    rw [h.outcomes, h.paired.published, map_append]
    exact prefix_append _ _
  own := by
    have howes := h.ledger.owes
    have hids := h.ledger.ids
    rw [h.paired.sent, map_append] at hids
    have hpub := prefix_of_prefix_length_le hids (prefix_append _ _) (by simpa using howes)
    rw [h.paired.published, map_append] at hpub
    rw [h.outcomes, map_map]
    exact (prefix_append _ _).trans hpub
  fault := h.paired.fault

/-- In every run that drops no request between its first poll and its
completion, each request resolves to the kernel's answer to it. -/
theorem requests_are_correlated (hn : ∃ k, n = 2 ^ k) (acts : List ClientAct)
    (hpatient : Client.new.PatientRun n acts) : Answered (Client.new.run n acts) := by
  obtain ⟨qs, qr, h⟩ := (Correlated.new n).run hn hpatient
  exact h.answered

/-- A request is dropped unpolled, and another is answered. -/
def served : List ClientAct :=
  [.request (.timer 5), .drop, .request (.timer 6), .poll] ++ List.replicate 9 .pollOn
    ++ (.take :: List.replicate 9 .copy) ++ (.answer 7 :: List.replicate 9 .write)
    ++ List.replicate 10 .pollOn

theorem requests_are_correlated_timer : (Client.new.run 1 served).outcomes = [⟨2, .ok 7⟩]
    ∧ Answered (Client.new.run 1 served) :=
  ⟨by decide +kernel, requests_are_correlated ⟨0, rfl⟩ served (by decide +kernel)⟩

/-- A request is polled and dropped, and its answer meets the next one. -/
def abandoned : List ClientAct :=
  (.request (.timer 5) :: .poll :: List.replicate 10 .pollOn) ++ [.drop]
    ++ (.take :: List.replicate 9 .copy) ++ (.answer 7 :: List.replicate 9 .write)
    ++ (.request (.timer 6) :: .poll :: List.replicate 19 .pollOn)

/-- More requests are polled and dropped than there are slots. -/
def overrun : List ClientAct :=
  (.request (.timer 5) :: .poll :: List.replicate 10 .pollOn) ++ [.drop]
    ++ (.request (.timer 6) :: .poll :: List.replicate 10 .pollOn) ++ [.take]

theorem dropped_request_misleads_the_next :
    (Client.new.run 1 abandoned).outcomes = [⟨2, .error .wrongCompletion⟩]
      ∧ (Client.new.run 1 overrun).ring.system.kernel.fault = some .tail := by
  decide +kernel

end Molt.Abi
