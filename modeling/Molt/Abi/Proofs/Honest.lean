/-
Over an honest domain both rings are queues: the kernel takes each
submission once and in order, and the domain gets each reply once and in
order, across any number of wraps of the indices.

Both rings are one picture (`Flow`): a queue of slots between the consumer's
count and the producer's, the slot the producer is writing just past it, and
the words the consumer has copied of its first. Counts are unbounded numbers
here and the indices of the source are their remainders by `2^32`; since the
capacity divides `2^32` and is smaller, the slots of a queue are different
ones (`place_inj`) and a difference of indices is the length of the queue
(`ahead_count`).
-/
import Molt.Abi.Proofs.Hostile

namespace Molt.Abi

open List

-- == indices

/-- A window of `b` slots that a ring of `n` can hold and the indices can
count. -/
structure Window (n b : Nat) : Prop where
  power : ∃ k, n = 2 ^ k
  fits : b ≤ n
  small : b < 2 ^ 32

variable {n b : Nat}

theorem Window.whole (hn : ∃ k, n = 2 ^ k) (hsmall : n < 2 ^ 32) : Window n n :=
  ⟨hn, Nat.le_refl n, hsmall⟩

theorem place_count {k : Nat} (hk : k ≤ 32) (i : Nat) : place (2 ^ k) (i % 2 ^ 32) = i % 2 ^ k := by
  rw [place, Nat.and_two_pow_sub_one_eq_mod, Nat.mod_mod_of_dvd i (pow_dvd_pow 2 hk)]

/-- In a wider ring an index is its own slot. -/
theorem place_index {k : Nat} (hk : 32 ≤ k) (i : Nat) :
    place (2 ^ k) (i % 2 ^ 32) = i % 2 ^ 32 := by
  have hle : 2 ^ 32 ≤ 2 ^ k := Nat.pow_le_pow_right (by omega) hk
  rw [place, Nat.and_two_pow_sub_one_eq_mod, Nat.mod_eq_of_lt]
  exact Nat.lt_of_lt_of_le (Nat.mod_lt _ (Nat.two_pow_pos 32)) hle

theorem mod_ne {i j m : Nat} (hij : i < j) (hwin : j < i + m) : i % m ≠ j % m := by
  intro heq
  have hdvd : m ∣ j - i := (Nat.modEq_iff_dvd' hij.le).mp heq
  have := Nat.le_of_dvd (by omega) hdvd
  omega

theorem Window.place_inj (h : Window n b) {i j : Nat} (hij : i < j) (hwin : j < i + b) :
    place n (i % 2 ^ 32) ≠ place n (j % 2 ^ 32) := by
  obtain ⟨⟨k, rfl⟩, hfits, hsmall⟩ := h
  rcases Nat.le_total k 32 with hk | hk
  · rw [place_count hk, place_count hk]
    exact mod_ne hij (by omega)
  · rw [place_index hk, place_index hk]
    exact mod_ne hij (by omega)

theorem ahead_count {c m : Nat} (hm : m < 2 ^ 32) : ahead ((c + m) % 2 ^ 32) (c % 2 ^ 32) = m := by
  unfold ahead
  omega

theorem index_ne {c m : Nat} (hm : m < 2 ^ 32) (hpos : 0 < m) : (c + m) % 2 ^ 32 ≠ c % 2 ^ 32 := by
  omega

theorem bump_lt (i : Nat) : bump i < 2 ^ 32 := by
  unfold bump
  omega

-- == a flow

/-- The slots hold the queue `q` from count `c` on; `put` is the slot being
written past it and how many words of it are, `get` what is copied of its
first. -/
structure Flow (n b : Nat) (slots : Nat → Nat → UInt64) (c : Nat) (q : List Words)
    (put : Option (Words × Nat)) (get : Option Words) : Prop where
  bound : q.length ≤ b
  whole : ∀ v ∈ q, v.length = SLOT_WORDS
  held : ∀ i v, q[i]? = some v → ∀ w < SLOT_WORDS, slots (place n ((c + i) % 2 ^ 32)) w = word v w
  putting : ∀ v k, put = some (v, k) → q.length < b ∧ v.length = SLOT_WORDS ∧ k ≤ SLOT_WORDS
    ∧ ∀ w < k, slots (place n ((c + q.length) % 2 ^ 32)) w = word v w
  getting : ∀ ws, get = some ws → ∃ v q', q = v :: q' ∧ ws = v.take ws.length
    ∧ ws.length ≤ SLOT_WORDS

def setWord (slots : Nat → Nat → UInt64) (s w : Nat) (v : UInt64) : Nat → Nat → UInt64 :=
  fun s' w' => if s' = s ∧ w' = w then v else slots s' w'

section Flow

variable {slots : Nat → Nat → UInt64} {c : Nat} {q : List Words} {put : Option (Words × Nat)}
  {get : Option Words}

theorem Flow.nil (n b : Nat) (slots : Nat → Nat → UInt64) : Flow n b slots 0 [] none none where
  bound := Nat.zero_le b
  whole := by simp
  held := by simp
  putting := by simp
  getting := by simp

theorem Flow.beginPut (h : Flow n b slots c q none get) (hroom : q.length < b) {v : Words}
    (hv : v.length = SLOT_WORDS) : Flow n b slots c q (some (v, 0)) get :=
  { h with
    putting := by
      rintro v' k ⟨⟩
      exact ⟨hroom, hv, Nat.zero_le _, by simp⟩ }

theorem Flow.putWord {v : Words} {k : Nat} (h : Flow n b slots c q (some (v, k)) get)
    (hn : Window n b) (hk : k < SLOT_WORDS) :
    Flow n b (setWord slots (place n ((c + q.length) % 2 ^ 32)) k (word v k)) c q
      (some (v, k + 1)) get := by
  obtain ⟨hroom, hv, -, hput⟩ := h.putting v k rfl
  exact { h with
    held := by
      intro i v' hi w hw
      have hlt : i < q.length := (List.getElem?_eq_some_iff.mp hi).1
      unfold setWord
      rw [if_neg]
      · exact h.held i v' hi w hw
      · rintro ⟨hplace, -⟩
        exact hn.place_inj (by omega) (by omega) hplace
    putting := by
      rintro v' k' ⟨⟩
      refine ⟨hroom, hv, hk, fun w hw => ?_⟩
      unfold setWord
      by_cases hwk : w = k
      · rw [if_pos ⟨rfl, hwk⟩, hwk]
      · rw [if_neg (by simp [hwk])]
        exact hput w (by omega) }

theorem Flow.endPut {v : Words} {k : Nat} (h : Flow n b slots c q (some (v, k)) get)
    (hk : ¬ k < SLOT_WORDS) :
    Flow n b slots c (q ++ [v]) none get := by
  obtain ⟨hroom, hv, hle, hput⟩ := h.putting v k rfl
  exact {
    bound := by
      rw [length_append]
      exact hroom
    whole := by
      intro v' hv'
      rcases mem_append.mp hv' with hv' | hv'
      · exact h.whole v' hv'
      · rw [mem_singleton.mp hv']
        exact hv
    held := by
      intro i v' hi w hw
      by_cases hlt : i < q.length
      · rw [getElem?_append_left hlt] at hi
        exact h.held i v' hi w hw
      rw [getElem?_append_right (by omega)] at hi
      have hzero : i - q.length = 0 := by
        by_contra hne
        rw [getElem?_eq_none (by simp; omega)] at hi
        cases hi
      rw [hzero] at hi
      cases hi
      have hi' : i = q.length := by omega
      rw [hi']
      exact hput w (by omega)
    putting := by simp
    getting := by
      intro ws hws
      obtain ⟨v', q', rfl, htake, hlen⟩ := h.getting ws hws
      exact ⟨v', q' ++ [v], rfl, htake, hlen⟩ }

theorem Flow.beginGet (h : Flow n b slots c q put none) (hq : q ≠ []) :
    Flow n b slots c q put (some []) :=
  { h with
    getting := by
      rintro ws ⟨⟩
      obtain ⟨v, q', rfl⟩ := exists_cons_of_ne_nil hq
      exact ⟨v, q', rfl, by simp, Nat.zero_le _⟩ }

theorem Flow.getWord {ws : Words} (h : Flow n b slots c q put (some ws))
    (hlt : ws.length < SLOT_WORDS) :
    Flow n b slots c q put (some (ws ++ [slots (place n (c % 2 ^ 32)) ws.length])) := by
  obtain ⟨v, q', rfl, htake, -⟩ := h.getting ws rfl
  have hv := h.whole v mem_cons_self
  have hword : slots (place n (c % 2 ^ 32)) ws.length = word v ws.length :=
    h.held 0 v rfl ws.length hlt
  exact { h with
    getting := by
      rintro ws' ⟨⟩
      refine ⟨v, q', rfl, ?_, ?_⟩
      · rw [length_append, length_singleton, take_add_one, ← htake, hword]
        rw [word, getD_eq_getElem _ _ (by omega), getElem?_eq_getElem (by omega)]
        rfl
      · rw [length_append, length_singleton]
        exact hlt }

theorem Flow.endGet {ws : Words} (h : Flow n b slots c q put (some ws))
    (hge : ¬ ws.length < SLOT_WORDS) :
    ∃ q', q = ws :: q' ∧ Flow n b slots (c + 1) q' put none := by
  obtain ⟨v, q', rfl, htake, hle⟩ := h.getting ws rfl
  have hv := h.whole v mem_cons_self
  have hws : ws = v := by
    rw [htake, take_of_length_le (by omega)]
  subst hws
  refine ⟨q', rfl, ?_⟩
  have hbound := h.bound
  rw [length_cons] at hbound
  exact {
    bound := by omega
    whole := fun v' hv' => h.whole v' (mem_cons_of_mem _ hv')
    held := by
      intro i v' hi w hw
      have := h.held (i + 1) v' (by simpa using hi) w hw
      rwa [show c + (i + 1) = c + 1 + i by omega] at this
    putting := by
      intro v' k hput
      obtain ⟨hroom, h1, h2, h3⟩ := h.putting v' k hput
      rw [length_cons] at hroom h3
      refine ⟨by omega, h1, h2, fun w hw => ?_⟩
      have := h3 w hw
      rwa [show c + (q'.length + 1) = c + 1 + q'.length by omega] at this
    getting := by simp }

end Flow

-- == the pairing

/-- Both rings carry a queue, and both ends agree on where it is. -/
structure Paired (n b : Nat) (h : Honest) (qs : List Words) (qr : List Reply) : Prop where
  sent : h.sent = tooks h.system.log ++ qs
  published : publisheds h.system.log = h.got ++ qr
  fault : h.system.kernel.fault = none
  kernelHead : h.system.kernel.head = (tooks h.system.log).length % 2 ^ 32
  domainTail : h.domain.tail = ((tooks h.system.log).length + qs.length) % 2 ^ 32
  sharedTail : h.system.channel.submissions.tail
    = ((tooks h.system.log).length + qs.length) % 2 ^ 32
  up : Flow n b h.system.channel.submissions.slots (tooks h.system.log).length qs
    h.domain.sending h.system.kernel.copying
  domainHead : h.domain.head = h.got.length % 2 ^ 32
  sharedHead : h.system.channel.completions.head = h.got.length % 2 ^ 32
  kernelTail : h.system.kernel.tail = (h.got.length + qr.length) % 2 ^ 32
  sharedReplies : h.system.channel.completions.tail = (h.got.length + qr.length) % 2 ^ 32
  down : Flow n b h.system.channel.completions.slots h.got.length (qr.map Reply.encode)
    (h.system.kernel.writing.map fun (r, k) => (r.encode, k)) h.domain.fetching

theorem Paired.new (n b : Nat) : Paired n b .new [] [] where
  sent := rfl
  published := rfl
  fault := rfl
  kernelHead := rfl
  domainTail := rfl
  sharedTail := rfl
  up := .nil n b _
  domainHead := rfl
  sharedHead := rfl
  kernelTail := rfl
  sharedReplies := rfl
  down := .nil n b _

variable {h : Honest} {qs : List Words} {qr : List Reply}

section

variable (hp : Paired n b h qs qr)

include hp

/-- What a `take` finds: nothing exactly when the queue is empty, and never
a lie. -/
theorem Paired.polledAt (hn : Window n b) :
    (qs = [] ∧ h.system.polledAt n h.system.channel.submissions.tail
        = h.system.note (.polled h.system.kernel.head h.system.channel.submissions.tail .empty))
      ∨ (qs ≠ [] ∧ h.system.polledAt n h.system.channel.submissions.tail
        = { h.system with kernel := { h.system.kernel with copying := some [] } }.note
          (.polled h.system.kernel.head h.system.channel.submissions.tail .copy)) := by
  have hbound := hp.up.bound
  have hsmall := hn.small
  have hfits := hn.fits
  have hready : ahead h.system.channel.submissions.tail h.system.kernel.head = qs.length := by
    rw [hp.sharedTail, hp.kernelHead, ahead_count (by omega)]
  unfold System.polledAt
  rw [hready]
  by_cases hq : qs = []
  · refine .inl ⟨hq, ?_⟩
    rw [if_pos (by rw [hq]; rfl)]
  · have hpos : qs.length ≠ 0 := fun hzero => hq (length_eq_zero_iff.mp hzero)
    refine .inr ⟨hq, ?_⟩
    rw [if_neg hpos, if_neg (by omega)]

theorem Paired.note {e : Event} (ht : tooks [e] = [])
    (hr : publisheds [e] = []) : Paired n b { h with system := h.system.note e } qs qr :=
  { hp with
    sent := by simpa [System.note, ht] using hp.sent
    published := by simpa [System.note, hr] using hp.published
    kernelHead := by simpa [System.note, ht] using hp.kernelHead
    domainTail := by simpa [System.note, ht] using hp.domainTail
    sharedTail := by simpa [System.note, ht] using hp.sharedTail
    up := by simpa [System.note, ht] using hp.up }

theorem Paired.take (hn : Window n b) : Paired n b { h with system := h.system.take n } qs qr := by
  unfold System.take
  rw [hp.fault]
  cases hcopy : h.system.kernel.copying with
  | some words => exact hp
  | none =>
    have hup := hp.up
    rw [hcopy] at hup
    rcases hp.polledAt hn with ⟨-, heq⟩ | ⟨hq, heq⟩
    · rw [heq]
      exact hp.note rfl rfl
    · rw [heq]
      have hp' : Paired n b { h with system := { h.system with
          kernel := { h.system.kernel with copying := some [] } } } qs qr :=
        { hp with up := hup.beginGet hq }
      exact hp'.note rfl rfl

theorem Paired.copy : ∃ qs', Paired n b { h with system := h.system.copy n } qs' qr := by
  unfold System.copy
  cases hcopy : h.system.kernel.copying with
  | none => exact ⟨qs, hp⟩
  | some words =>
    have hup := hp.up
    rw [hcopy] at hup
    dsimp only
    split
    · rename_i hlt
      have hup' := hup.getWord hlt
      rw [← hp.kernelHead] at hup'
      have hp' : Paired n b { h with system := { h.system with
          kernel := { h.system.kernel with copying := some (words
            ++ [h.system.channel.submissions.slots (place n h.system.kernel.head)
              words.length]) } } } qs qr :=
        { hp with up := hup' }
      exact ⟨qs, hp'.note rfl rfl⟩
    · rename_i hge
      obtain ⟨q', rfl, hup'⟩ := hup.endGet hge
      refine ⟨q', ?_⟩
      have htooks : tooks (h.system.log ++ [.took words (.of words)])
          = tooks h.system.log ++ [words] := by simp [tooks]
      have hcount : (tooks h.system.log ++ [words]).length + q'.length
          = (tooks h.system.log).length + (words :: q').length := by
        simp
        omega
      exact { hp with
        sent := by
          show h.sent = tooks (h.system.log ++ _) ++ q'
          rw [htooks, hp.sent, append_assoc]
          rfl
        published := by simpa [System.note, publisheds] using hp.published
        kernelHead := by
          show bump h.system.kernel.head = (tooks (h.system.log ++ _)).length % 2 ^ 32
          rw [htooks, hp.kernelHead, bump_count, length_append]
          rfl
        domainTail := by
          show h.domain.tail = ((tooks (h.system.log ++ _)).length + _) % 2 ^ 32
          rw [htooks, hcount, hp.domainTail]
        sharedTail := by
          show h.system.channel.submissions.tail
            = ((tooks (h.system.log ++ _)).length + _) % 2 ^ 32
          rw [htooks, hcount, hp.sharedTail]
        up := by
          show Flow n b h.system.channel.submissions.slots (tooks (h.system.log ++ _)).length _
            _ none
          rw [htooks, length_append]
          exact hup' }

theorem Paired.publish (hn : Window n b)
    (hroom : qr.length < n → qr.length < b) (reply : Reply) :
    Paired n b { h with system := h.system.publish n reply } qs qr := by
  unfold System.publish
  cases hwriting : h.system.kernel.writing with
  | some x => exact hp
  | none =>
    have hdown := hp.down
    rw [hwriting] at hdown
    have hbound := hdown.bound
    have hsmall := hn.small
    rw [length_map] at hbound
    have htaken : ahead h.system.kernel.tail h.system.channel.completions.head = qr.length := by
      rw [hp.kernelTail, hp.sharedHead, ahead_count (by omega)]
    dsimp only
    unfold System.askedAt
    rw [htaken]
    split
    · exact hp.note rfl rfl
    · rename_i hlt
      have hfree : (qr.map Reply.encode).length < b := by
        rw [length_map]
        exact hroom (by omega)
      have hp' : Paired n b { h with system := { h.system with
          kernel := { h.system.kernel with writing := some (reply, 0) } } } qs qr :=
        { hp with down := hdown.beginPut hfree reply.length_encode }
      exact hp'.note rfl rfl

theorem Paired.write (hn : Window n b) :
    ∃ qr', Paired n b { h with system := h.system.write n } qs qr' := by
  unfold System.write
  cases hwriting : h.system.kernel.writing with
  | none => exact ⟨qr, hp⟩
  | some x =>
    obtain ⟨reply, w⟩ := x
    have hdown := hp.down
    rw [hwriting] at hdown
    dsimp only [Option.map] at hdown ⊢
    split
    · rename_i hw
      have hdown' := hdown.putWord hn hw
      rw [length_map, ← hp.kernelTail] at hdown'
      exact ⟨qr, { hp with down := hdown' }⟩
    rename_i hw
    have hdown' := hdown.endPut hw
    refine ⟨qr ++ [reply], ?_⟩
    have hcount : bump h.system.kernel.tail
        = (h.got.length + (qr ++ [reply]).length) % 2 ^ 32 := by
      rw [hp.kernelTail, bump_count, length_append]
      rfl
    exact { hp with
      sent := by simpa [System.note, tooks] using hp.sent
      published := by
        show publisheds (h.system.log ++ [.published reply]) = _
        rw [publisheds_append, hp.published, append_assoc]
        rfl
      kernelHead := by simpa [System.note, tooks] using hp.kernelHead
      domainTail := by simpa [System.note, tooks] using hp.domainTail
      sharedTail := by simpa [System.note, Channel.onRing, tooks] using hp.sharedTail
      up := by simpa [System.note, Channel.onRing, tooks] using hp.up
      kernelTail := hcount
      sharedReplies := hcount
      down := by
        rw [map_append]
        exact hdown' }

theorem Paired.send (hroom : qs.length < n → qs.length < b)
    (words : Words) : Paired n b (h.send n words) qs qr := by
  unfold Honest.send
  cases hsending : h.domain.sending with
  | some x => exact hp
  | none =>
    dsimp only
    split
    · rename_i hfree
      obtain ⟨hlen, hfree⟩ := hfree
      unfold Honest.Free at hfree
      rw [hp.sent, length_append] at hfree
      have hup := hp.up
      rw [hsending] at hup
      exact { hp with up := hup.beginPut (hroom (by omega)) hlen }
    · exact hp

end

theorem toNat_index {i : Nat} (h : i < 2 ^ 32) : (UInt64.ofNat i).toNat % 2 ^ 32 = i := by
  rw [UInt64.toNat_ofNat']
  omega

section

variable (hp : Paired n b h qs qr) (hn : Window n b)

include hp hn

theorem Paired.sendOn : ∃ qs', Paired n b (h.sendOn n) qs' qr := by
  unfold Honest.sendOn
  cases hsending : h.domain.sending with
  | none => exact ⟨qs, hp⟩
  | some x =>
    obtain ⟨words, w⟩ := x
    have hup := hp.up
    rw [hsending] at hup
    dsimp only
    split
    · rename_i hw
      have hup' := hup.putWord hn hw
      rw [← hp.domainTail] at hup'
      exact ⟨qs, { hp with up := hup' }⟩
    rename_i hw
    have hup' := hup.endPut hw
    have hcount : bump h.domain.tail
        = ((tooks h.system.log).length + (qs ++ [words]).length) % 2 ^ 32 := by
      rw [hp.domainTail, bump_count, length_append]
      rfl
    refine ⟨qs ++ [words],
      { hp with sent := ?_, domainTail := hcount, sharedTail := ?_, up := hup' }⟩
    · show h.sent ++ [words] = _
      rw [hp.sent, append_assoc]
      rfl
    · show (UInt64.ofNat (bump h.domain.tail)).toNat % 2 ^ 32 = _
      rw [toNat_index (bump_lt _)]
      exact hcount

theorem Paired.fetched_iff : h.system.channel.completions.tail = h.domain.head ↔ qr = [] := by
  have hbound := hp.down.bound
  have hsmall := hn.small
  rw [length_map] at hbound
  rw [hp.sharedReplies, hp.domainHead]
  constructor
  · intro heq
    by_contra hne
    exact index_ne (by omega) (length_pos_iff.mpr hne) heq
  · rintro rfl
    rfl

theorem Paired.fetch : Paired n b h.fetch qs qr := by
  unfold Honest.fetch
  cases hfetching : h.domain.fetching with
  | some x => exact hp
  | none =>
    dsimp only
    split
    · exact hp
    · rename_i hne
      have hdown := hp.down
      rw [hfetching] at hdown
      have hq : qr.map Reply.encode ≠ [] := by
        intro hnil
        exact hne ((hp.fetched_iff hn).mpr (map_eq_nil_iff.mp hnil))
      exact { hp with down := hdown.beginGet hq }

end

theorem Paired.fetchOn (hp : Paired n b h qs qr) : ∃ qr', Paired n b (h.fetchOn n) qs qr' := by
  unfold Honest.fetchOn
  cases hfetching : h.domain.fetching with
  | none => exact ⟨qr, hp⟩
  | some words =>
    have hdown := hp.down
    rw [hfetching] at hdown
    dsimp only
    split
    · rename_i hlt
      have hdown' := hdown.getWord hlt
      rw [← hp.domainHead] at hdown'
      exact ⟨qr, { hp with down := hdown' }⟩
    rename_i hge
    obtain ⟨q', hq, hdown'⟩ := hdown.endGet hge
    obtain ⟨reply, qr, rfl, rfl, rfl⟩ := map_eq_cons_iff.mp hq
    have hcount : bump h.domain.head = (h.got ++ [reply]).length % 2 ^ 32 := by
      rw [hp.domainHead, bump_count, length_append]
      rfl
    have htail : (h.got ++ [reply]).length + qr.length
        = h.got.length + (reply :: qr).length := by
      simp
      omega
    refine ⟨qr, hp.sent, ?_, hp.fault, hp.kernelHead, hp.domainTail, hp.sharedTail, hp.up,
      hcount, ?_, ?_, ?_, ?_⟩
    · show publisheds h.system.log = (h.got ++ [reply]) ++ qr
      rw [hp.published, append_assoc]
      rfl
    · show (UInt64.ofNat (bump h.domain.head)).toNat % 2 ^ 32 = _
      rw [toNat_index (bump_lt _)]
      exact hcount
    · show h.system.kernel.tail = ((h.got ++ [reply]).length + qr.length) % 2 ^ 32
      rw [htail, hp.kernelTail]
    · show h.system.channel.completions.tail = ((h.got ++ [reply]).length + qr.length) % 2 ^ 32
      rw [htail, hp.sharedReplies]
    · show Flow n b h.system.channel.completions.slots (h.got ++ [reply]).length _ _ none
      rw [length_append]
      exact hdown'

theorem Paired.step (hp : Paired n n h qs qr) (hn : Window n n) (act : HonestAct) :
    ∃ qs' qr', Paired n n (h.step n act) qs' qr' := by
  cases act with
  | move m =>
    cases m with
    | take => exact ⟨qs, qr, hp.take hn⟩
    | copy =>
      obtain ⟨qs', hp'⟩ := hp.copy
      exact ⟨qs', qr, hp'⟩
    | publish reply => exact ⟨qs, qr, hp.publish hn id reply⟩
    | write =>
      obtain ⟨qr', hp'⟩ := hp.write hn
      exact ⟨qs, qr', hp'⟩
  | send words => exact ⟨qs, qr, hp.send id words⟩
  | sendOn =>
    obtain ⟨qs', hp'⟩ := hp.sendOn hn
    exact ⟨qs', qr, hp'⟩
  | fetch => exact ⟨qs, qr, hp.fetch hn⟩
  | fetchOn =>
    obtain ⟨qr', hp'⟩ := hp.fetchOn
    exact ⟨qs, qr', hp'⟩

theorem Paired.run (hp : Paired n n h qs qr) (hn : Window n n) (acts : List HonestAct) :
    ∃ qs' qr', Paired n n (h.run n acts) qs' qr' := by
  induction acts generalizing h qs qr with
  | nil => exact ⟨qs, qr, hp⟩
  | cons act acts ih =>
    obtain ⟨qs', qr', hp'⟩ := hp.step hn act
    exact ih hp'

-- == one of the domains

theorem System.run_append (s : System) (as bs : List Act) :
    s.run n (as ++ bs) = (s.run n as).run n bs := foldl_append

theorem Honest.step_is_run (n : Nat) (h : Honest) (act : HonestAct) :
    ∃ acts, (h.step n act).system = h.system.run n acts := by
  cases act with
  | move m => exact ⟨[.move m], rfl⟩
  | send words =>
    refine ⟨[], ?_⟩
    show (h.send n words).system = h.system
    unfold Honest.send
    split
    · rfl
    · split <;> rfl
  | sendOn =>
    show ∃ acts, (h.sendOn n).system = _
    unfold Honest.sendOn
    split
    · exact ⟨[], rfl⟩
    · split
      · exact ⟨[.poke _ _], rfl⟩
      · exact ⟨[.poke _ _], rfl⟩
  | fetch =>
    refine ⟨[], ?_⟩
    show h.fetch.system = h.system
    unfold Honest.fetch
    split
    · rfl
    · split <;> rfl
  | fetchOn =>
    show ∃ acts, (h.fetchOn n).system = _
    unfold Honest.fetchOn
    split
    · exact ⟨[], rfl⟩
    · split
      · exact ⟨[], rfl⟩
      · exact ⟨[.poke _ _], rfl⟩

theorem Honest.run_is_run (n : Nat) (h : Honest) (acts : List HonestAct) :
    ∃ acts', (h.run n acts).system = h.system.run n acts' := by
  induction acts generalizing h with
  | nil => exact ⟨[], rfl⟩
  | cons act acts ih =>
    obtain ⟨as, has⟩ := h.step_is_run n act
    obtain ⟨bs, hbs⟩ := ih (h.step n act)
    refine ⟨as ++ bs, ?_⟩
    rw [System.run_append, ← has]
    exact hbs

-- == the answers

/-- Each side sees what the other wrote, once and in order: the slots taken
are the first of those published and the replies got are the first of those
published, and a call that finds nothing has nothing left to find. -/
structure Served (n : Nat) (h : Honest) : Prop where
  sober : Sober n h.system
  taken : tooks h.system.log <+: h.sent
  got : h.got <+: publisheds h.system.log
  fault : h.system.kernel.fault = none
  polls : h.system.kernel.copying = none → (h.system.take n).log = h.system.log
    ++ [.polled h.system.kernel.head h.system.channel.submissions.tail
      (if tooks h.system.log = h.sent then .empty else .copy)]
  fetches : h.domain.fetching = none → h.fetch.domain.fetching
    = if h.got = publisheds h.system.log then none else some []

theorem append_eq_left {α : Type} {l q : List α} : l = l ++ q ↔ q = [] := by
  simp

theorem Paired.served (hp : Paired n b h qs qr) (hn : Window n b) (hsober : Sober n h.system) :
    Served n h where
  sober := hsober
  taken := ⟨qs, hp.sent.symm⟩
  got := ⟨qr, hp.published.symm⟩
  fault := hp.fault
  polls := by
    intro hcopy
    unfold System.take
    rw [hcopy, hp.fault, hp.sent]
    rcases hp.polledAt hn with ⟨hq, heq⟩ | ⟨hq, heq⟩
    · rw [heq, if_pos (append_eq_left.mpr hq)]
      rfl
    · rw [heq, if_neg (mt append_eq_left.mp hq)]
      rfl
  fetches := by
    intro hfetch
    unfold Honest.fetch
    rw [hfetch, hp.published]
    by_cases hq : qr = []
    · rw [if_pos ((hp.fetched_iff hn).mpr hq), if_pos (append_eq_left.mpr hq)]
      exact hfetch
    · rw [if_neg (mt (hp.fetched_iff hn).mp hq), if_neg (mt append_eq_left.mp hq)]

/-- Whatever a domain stores and whenever, the kernel's log stays sober, a
ring that lied answers its fault without an access, and a `publish` stores
to completion slots and to their tail; and over an honest domain each side
sees what the other wrote, once and in order, if the indices can count the
slots. -/
theorem kernel_cannot_be_misled (hn : ∃ k, n = 2 ^ k) :
    (∀ acts, Sober n (System.new.run n acts))
      ∧ (∀ acts fault, (System.new.run n acts).kernel.fault = some fault →
        (System.new.run n acts).take n = (System.new.run n acts).note (.barred fault))
      ∧ (∀ acts reply, ((System.new.run n acts).publish n reply).channel
          = (System.new.run n acts).channel
        ∧ WritesReplies n (System.new.run n acts).channel
          ((System.new.run n acts).write n).channel)
      ∧ (n < 2 ^ 32 → ∀ acts, Served n (Honest.new.run n acts)) := by
  have hsober : ∀ acts, Sober n (System.new.run n acts) := (Sober.new n).run
  have hpos : 0 < n := by
    obtain ⟨k, rfl⟩ := hn
    exact Nat.two_pow_pos k
  refine ⟨hsober, ?_, ?_, ?_⟩
  · intro acts fault hfault
    have hcopy := ((hsober acts).lied (by rw [hfault]; simp)).1
    unfold System.take
    rw [hcopy, hfault]
  · intro acts reply
    exact ⟨publish_writes _ reply, write_writes hpos _⟩
  · intro hsmall acts
    have hwin : Window n n := .whole hn hsmall
    obtain ⟨qs, qr, hp⟩ := (Paired.new n n).run hwin acts
    obtain ⟨acts', hrun⟩ := Honest.run_is_run n .new acts
    refine hp.served hwin ?_
    rw [hrun]
    exact hsober acts'

def crossing : List HonestAct :=
  .send (replicate 8 1) :: replicate 9 .sendOn ++ .move .take :: replicate 9 (.move .copy)

theorem kernel_cannot_be_misled_two :
    tooks (Honest.new.run 2 crossing).system.log = [replicate 8 1]
      ∧ Served 2 (Honest.new.run 2 crossing) := by
  have hn : ∃ k, 2 = 2 ^ k := ⟨1, rfl⟩
  exact ⟨by decide +kernel, (kernel_cannot_be_misled hn).2.2.2 (by decide) crossing⟩

-- == the widest ring

/-- Only the domain has moved: it published `m` slots and is at word `w` of
another. -/
structure Unread (m : Nat) (sending : Option (Words × Nat)) (h : Honest) : Prop where
  sent : h.sent.length = m
  tail : h.domain.tail = m % 2 ^ 32
  shared : h.system.channel.submissions.tail = m % 2 ^ 32
  sending : h.domain.sending = sending
  kernel : h.system.kernel = System.new.kernel
  log : h.system.log = []

section Unread

variable {m w : Nat} {words : Words}

theorem Unread.send (hu : Unread m none h) (hm : m < n) (hwords : words.length = SLOT_WORDS) :
    Unread m (some (words, 0)) (h.send n words) := by
  have hfree : words.length = SLOT_WORDS ∧ h.Free n := by
    refine ⟨hwords, ?_⟩
    unfold Honest.Free
    rw [hu.sent, hu.log]
    exact Nat.lt_add_left _ hm
  unfold Honest.send
  rw [hu.sending]
  rw [if_pos hfree]
  exact { hu with sending := rfl }

theorem Unread.word (hu : Unread m (some (words, w)) h) (hw : w < SLOT_WORDS) :
    Unread m (some (words, w + 1)) (h.sendOn n) := by
  unfold Honest.sendOn
  rw [hu.sending]
  dsimp only
  rw [if_pos hw]
  exact { hu with sending := rfl }

theorem Unread.finish (hu : Unread m (some (words, SLOT_WORDS)) h) :
    Unread (m + 1) none (h.sendOn n) := by
  unfold Honest.sendOn
  rw [hu.sending]
  dsimp only
  rw [if_neg (Nat.lt_irrefl _)]
  have htail : bump h.domain.tail = (m + 1) % 2 ^ 32 := by
    rw [hu.tail, bump_count]
  refine ⟨?_, htail, ?_, rfl, hu.kernel, hu.log⟩
  · show (h.sent ++ [words]).length = m + 1
    rw [length_append, hu.sent]
    rfl
  · show (UInt64.ofNat (bump h.domain.tail)).toNat % 2 ^ 32 = _
    rw [toNat_index (bump_lt _)]
    exact htail

theorem Honest.run_append (h : Honest) (as bs : List HonestAct) :
    h.run n (as ++ bs) = (h.run n as).run n bs := foldl_append

theorem Unread.upTo (hu : Unread m none h) (hm : m < n) (hwords : words.length = SLOT_WORDS) :
    ∀ w ≤ SLOT_WORDS, ∃ acts, Unread m (some (words, w)) (h.run n acts) := by
  intro w
  induction w with
  | zero => exact fun _ => ⟨[.send words], hu.send hm hwords⟩
  | succ w ih =>
    intro hw
    obtain ⟨acts, hu'⟩ := ih (by omega)
    refine ⟨acts ++ [.sendOn], ?_⟩
    rw [Honest.run_append]
    exact hu'.word hw

theorem exists_unread (n : Nat) : ∀ m ≤ n, ∃ acts, Unread m none (Honest.new.run n acts) := by
  intro m
  induction m with
  | zero => exact fun _ => ⟨[], rfl, rfl, rfl, rfl, rfl, rfl⟩
  | succ m ih =>
    intro hm
    obtain ⟨as, hu⟩ := ih (by omega)
    have hzero : (List.replicate SLOT_WORDS (0 : UInt64)).length = SLOT_WORDS := length_replicate
    obtain ⟨bs, hu'⟩ := hu.upTo hm hzero SLOT_WORDS le_rfl
    refine ⟨as ++ bs ++ [.sendOn], ?_⟩
    rw [Honest.run_append, Honest.run_append]
    exact hu'.finish

theorem System.polledAt_empty {s : System} {tail : Nat} (hready : ahead tail s.kernel.head = 0) :
    s.polledAt n tail = s.note (.polled s.kernel.head tail .empty) := by
  unfold System.polledAt
  rw [if_pos hready]

theorem Unread.take_empty (hu : Unread m none h) (hm : m % 2 ^ 32 = 0) :
    (h.system.take n).log = h.system.log ++ [.polled 0 0 .empty] := by
  have hhead : h.system.kernel.head = 0 := by
    rw [hu.kernel]
    rfl
  have hready : ahead h.system.channel.submissions.tail h.system.kernel.head = 0 := by
    rw [hu.shared, hhead]
    unfold ahead
    omega
  unfold System.take
  rw [hu.kernel]
  rw [System.polledAt_empty hready, hhead, hu.shared, hm]
  rfl

theorem exists_hidden {n : Nat} (hn : n % 2 ^ 32 = 0) : ∃ acts,
    (Honest.new.run n acts).sent.length = n
      ∧ tooks (Honest.new.run n acts).system.log = []
      ∧ ((Honest.new.run n acts).system.take n).log
        = (Honest.new.run n acts).system.log ++ [.polled 0 0 .empty] := by
  obtain ⟨acts, hu⟩ := exists_unread n n le_rfl
  refine ⟨acts, hu.sent, ?_, hu.take_empty hn⟩
  rw [hu.log]
  rfl

end Unread

/-- An index cannot tell a full ring of `2^32` slots from an empty one: the
domain has written every slot and the kernel finds nothing. -/
theorem widest_ring_hides_its_submissions : ∃ acts,
    (Honest.new.run (2 ^ 32) acts).sent.length = 2 ^ 32
      ∧ tooks (Honest.new.run (2 ^ 32) acts).system.log = []
      ∧ ((Honest.new.run (2 ^ 32) acts).system.take (2 ^ 32)).log
        = (Honest.new.run (2 ^ 32) acts).system.log ++ [.polled 0 0 .empty] := by
  exact exists_hidden (Nat.mod_self _)

end Molt.Abi
