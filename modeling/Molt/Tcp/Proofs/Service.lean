/-
What the TCP service keeps of its streams.

`Held` ties the three tables together: a stream is held under a socket
exactly when the socket table has that socket for it, and what is parked on
a stream names the socket it is held under. `Tidy` adds the account of the
ring and says of each held stream that its socket was reported to a client
or that a connect is parked on it.

That last part is lost where a parked connect finds its stream closed: the
connect is answered with an error, and the stream stays held under a socket
nobody was told. `Refused` is that moment.
-/
import Molt.Core.Proofs.Live
import Molt.Tcp.Service

namespace Molt.Net

open Molt.Core Molt.Lib List Multiset TcpDesk CapabilityTable

variable {σ : Type} {n : Nat}

-- == the tables

/-- The socket table, the streams held and the requests parked agree. -/
structure Held (n : Nat) (t : Tcp σ) : Prop where
  sound : t.sockets.Sound SOCKET
  slots : t.sockets.slots.length = n
  places : t.held.length = n
  rooms : t.parked.length = n
  names : ∀ s i, t.sockets.held s = some i ↔ t.held[i]? = some (some s)
  parks : ∀ (i : Nat) (p : Parked), t.parked[i]? = some (some p) → t.held[i]? = some (some p.socket)

section Held

variable {t : Tcp σ}

theorem Held.new (streams : Nat → σ) (n : Nat) : Held n (Tcp.new streams n) where
  sound := .new n SOCKET
  slots := length_new n
  places := length_replicate
  rooms := length_replicate
  names := by
    intro s i
    constructor
    · intro h
      have := mem_live_of_held h
      simp [Tcp.new] at this
    · intro h
      have := mem_of_getElem? h
      simp [Tcp.new] at this
  parks := by
    intro i p h
    have := mem_of_getElem? h
    simp [Tcp.new] at this

theorem Held.stream_ok (h : Held n t) {s : UInt64} {i : Nat} :
    t.stream s = .ok i ↔ t.held[i]? = some (some s) := by
  rw [← h.names]
  exact h.sound.get_ok

theorem Held.insert (h : Held n t) (hn : n ≤ 2 ^ 32) {owner : CellId} {i : Nat} {c : Capability}
    {sockets : CapabilityTable Nat} (hins : t.sockets.insert SOCKET owner i = (.ok c, sockets))
    (hfree : t.held[i]? = some none) :
    Held n { t with sockets, held := t.held.set i (some (wordOf c)) } := by
  obtain ⟨hsound, hlen, hlive, -, hmap⟩ := insert_ok hins h.sound
  -- one more stream fits, so the table was not full
  have hroom : t.sockets.live.card < 2 ^ 32 := by
    have hcard := card_entries_le (sockets.slots.map Slot.resource)
    rw [length_map, hlen, h.slots] at hcard
    have hmore : sockets.live.card = t.sockets.live.card + 1 := by
      rw [hlive, card_cons]
    unfold live at hmore ⊢
    omega
  obtain ⟨hnew, hmap⟩ := hmap hroom
  have hat : ∀ j, (t.held.set i (some (wordOf c)))[j]?
      = if i = j then some (some (wordOf c)) else t.held[j]? :=
    fun j => Holding.getElem?_set_of_some hfree
  refine ⟨hsound, hlen.trans h.slots, length_set.trans h.places, h.rooms, ?_, ?_⟩
  · intro s j
    rw [hmap, hat]
    by_cases hs : s = wordOf c
    · subst hs
      rw [if_pos rfl]
      by_cases hij : i = j
      · simp [hij]
      rw [if_neg hij]
      constructor
      · intro heq
        exact absurd (Option.some.inj heq) hij
      · intro heq
        rw [(h.names _ j).mpr heq] at hnew
        cases hnew
    · rw [if_neg hs, h.names]
      by_cases hij : i = j
      · subst hij
        rw [if_pos rfl, hfree]
        simp [Ne.symm hs]
      · rw [if_neg hij]
  · intro j p hp
    have hj := h.parks j p hp
    rw [hat, if_neg]
    · exact hj
    · rintro rfl
      rw [hfree] at hj
      cases hj

theorem Held.park (h : Held n t) {i : Nat} {p : Parked}
    (hheld : t.held[i]? = some (some p.socket)) :
    Held n { t with parked := t.parked.set i (some p) } := by
  refine ⟨h.sound, h.slots, h.places, length_set.trans h.rooms, h.names, ?_⟩
  intro j q hq
  rw [getElem?_set] at hq
  split at hq
  · rename_i hij
    split at hq
    · cases hq
      rw [← hij]
      exact hheld
    · cases hq
  · exact h.parks j q hq

theorem Held.unpark (h : Held n t) (i : Nat) : Held n { t with parked := t.parked.set i none } := by
  refine ⟨h.sound, h.slots, h.places, length_set.trans h.rooms, h.names, ?_⟩
  intro j q hq
  rw [getElem?_set] at hq
  split at hq
  · split at hq <;> cases hq
  · exact h.parks j q hq

theorem Held.revoke (h : Held n t) {s : UInt64} {i j : Nat} {sockets : CapabilityTable Nat}
    (hrev : t.sockets.revoke SOCKET ⟨s.toNat⟩ = (.ok j, sockets))
    (hheld : t.held[i]? = some (some s)) (hidle : t.parked.getD i none = none) :
    Held n { t with sockets, held := t.held.set i none } := by
  obtain ⟨hsound, hlen, -, hs, hmap⟩ := revoke_ok hrev h.sound
  have hat : ∀ j, (t.held.set i none)[j]? = if i = j then some none else t.held[j]? :=
    fun j => Holding.getElem?_set_of_some hheld
  have hi := (h.names s i).mpr hheld
  refine ⟨hsound, hlen.trans h.slots, length_set.trans h.places, h.rooms, ?_, ?_⟩
  · intro w k
    rw [hmap, hat]
    by_cases hw : w = s
    · subst hw
      rw [if_pos rfl]
      by_cases hik : i = k
      · simp [hik]
      rw [if_neg hik]
      constructor
      · intro heq
        cases heq
      · intro heq
        rw [(h.names _ k).mpr heq] at hi
        exact absurd (Option.some.inj hi).symm hik
    · rw [if_neg hw, h.names]
      by_cases hik : i = k
      · subst hik
        rw [if_pos rfl, hheld]
        simp [Ne.symm hw]
      · rw [if_neg hik]
  · intro k p hp
    rw [hat, if_neg]
    · exact h.parks k p hp
    · rintro rfl
      rw [getD_eq_getElem?_getD, hp] at hidle
      cases hidle

theorem Held.lost_iff {sockets : CapabilityTable Nat} (h : sockets.Sound SOCKET) (s : UInt64) :
    Tcp.lost sockets (some s) = true ↔ sockets.held s = none := by
  simp [Tcp.lost, h.get]

theorem Held.revokeOwner (h : Held n t) (owner : CellId) (streams : Nat → σ) : Held n { t with
      sockets := (t.sockets.revokeOwner owner).2
      held := t.held.map fun s => if Tcp.lost (t.sockets.revokeOwner owner).2 s then none else s
      parked := zipWith
        (fun s p => if Tcp.lost (t.sockets.revokeOwner owner).2 s then none else p)
        t.held t.parked
      streams } := by
  have hsound : (t.sockets.revokeOwner owner).2.Sound SOCKET := h.sound.revokeWhere _
  have hmap : ∀ w, (t.sockets.revokeOwner owner).2.held w = t.sockets.held w
      ∨ (t.sockets.revokeOwner owner).2.held w = none :=
    fun w => revokeWhere_held t.sockets _ w
  have hlen : (t.sockets.revokeOwner owner).2.slots.length = n :=
    (length_revokeWhere _ _).trans h.slots
  generalize (t.sockets.revokeOwner owner).2 = sockets at hsound hmap hlen
  have hkeep : ∀ (i : Nat) (s : UInt64), t.held[i]? = some (some s) →
    Tcp.lost sockets (some s) = false →
      (t.held.map fun s => if Tcp.lost sockets s then none else s)[i]? = some (some s) := by
    intro i s hi hl
    rw [getElem?_map, hi]
    simp [hl]
  refine ⟨hsound, hlen, (length_map _).trans h.places, ?_, ?_, ?_⟩
  · rw [length_zipWith, h.places, h.rooms, Nat.min_self]
  · intro s i
    constructor
    · intro hs
      have hold : t.sockets.held s = some i := by
        rcases hmap s with heq | heq
        · rw [← heq]
          exact hs
        · rw [heq] at hs
          cases hs
      refine hkeep i s ((h.names s i).mp hold) ?_
      rw [← Bool.not_eq_true, Held.lost_iff hsound, hs]
      simp
    · intro hi
      have hi : (t.held.map fun s => if Tcp.lost sockets s then none else s)[i]?
        = some (some s) := hi
      rw [getElem?_map] at hi
      obtain ⟨old, hold, heq⟩ := Option.map_eq_some_iff.mp hi
      by_cases hl : Tcp.lost sockets old = true
      · rw [if_pos hl] at heq
        cases heq
      rw [if_neg hl] at heq
      subst heq
      rw [Held.lost_iff hsound] at hl
      rcases hmap s with heq | heq
      · rw [heq]
        exact (h.names s i).mpr hold
      · exact absurd heq hl
  · intro i p hp
    have hp : (zipWith (fun s p => if Tcp.lost sockets s then none else p)
      t.held t.parked)[i]? = some (some p) := hp
    rw [getElem?_zipWith_eq_some] at hp
    obtain ⟨old, q, hold, hq, heq⟩ := hp
    by_cases hl : Tcp.lost sockets old = true
    · rw [if_pos hl] at heq
      cases heq
    rw [if_neg hl] at heq
    subst heq
    have hi := h.parks i p hq
    rw [hold] at hi
    cases hi
    exact hkeep i p.socket hold (by simpa using hl)

end Held

-- == the desk

def TcpDesk.answers (d : TcpDesk σ) : List TcpAnswer := d.driver.done ++ d.tcp.completion.toList

/-- A client was told of the socket. -/
def TcpDesk.Reported (d : TcpDesk σ) (s : UInt64) : Prop :=
  ∃ c ∈ d.answers, c.result = .ok (.opened s)

def TcpDesk.Connecting (d : TcpDesk σ) (i : Nat) : Prop :=
  ∃ p, d.tcp.parked[i]? = some (some p) ∧ p.work = .connect

/-- The tables agree, every held stream but the one `owed` to its client was
reported or is connecting, and every operation taken is answered, parked,
given up or in hand. -/
structure Tidy (n : Nat) (d : TcpDesk σ) (owed : Option UInt64) (hand : Multiset Nat) :
    Prop where
  held : Held n d.tcp
  told : ∀ (i : Nat) (s : UInt64), d.tcp.held[i]? = some (some s) →
    owed = some s ∨ d.Reported s ∨ d.Connecting i
  account : d.driver.takenIds
    = d.driver.doneIds d.tcp.completion + (entries d.tcp.parked).map Parked.id + d.dropped + hand

section Tidy

variable {d : TcpDesk σ} {owed : Option UInt64} {hand : Multiset Nat}

theorem Tidy.new (streams : Nat → σ) (n : Nat) (buffers : BufferRegistry) :
    Tidy n (new streams n buffers) none 0 where
  held := .new streams n
  told := by
    intro i s h
    have := mem_of_getElem? h
    simp [TcpDesk.new, Tcp.new] at this
  account := by
    simp [TcpDesk.new, Tcp.new, Driver.new, Driver.takenIds, Driver.doneIds]

theorem Tidy.streams (h : Tidy n d owed hand) (streams : Nat → σ) (port : Nat)
    (buffers : BufferRegistry) :
    Tidy n { d with tcp := { d.tcp with streams, port }, buffers } owed hand :=
  ⟨{ h.held with }, h.told, h.account⟩

/-- The operation in hand is answered, and its client told what it is owed. -/
theorem Tidy.publish {id : Nat} (h : Tidy n d owed (id ::ₘ hand))
    (hnone : d.tcp.completion = none) {result : Except TcpError TcpDone}
    (howed : ∀ s, owed = some s → result = .ok (.opened s)) :
    Tidy n (d.publish ⟨id, result⟩) none hand := by
  have hanswers : (d.publish ⟨id, result⟩).answers = d.answers ++ [⟨id, result⟩] := by
    show (d.driver.tryComplete ⟨id, result⟩).2.done
      ++ ((d.driver.tryComplete ⟨id, result⟩).1.orElse fun _ => d.tcp.completion).toList = _
    rw [Driver.tryComplete_keeps _ _ hnone, Driver.tryComplete_answers, answers, hnone]
    simp
  have hmono : ∀ s, d.Reported s → (d.publish ⟨id, result⟩).Reported s := by
    rintro s ⟨c, hc, hres⟩
    refine ⟨c, ?_, hres⟩
    rw [hanswers]
    exact mem_append_left _ hc
  refine ⟨{ h.held with }, ?_, ?_⟩
  · intro i s hi
    rcases h.told i s hi with ho | hr | hc
    · refine .inr (.inl ⟨⟨id, result⟩, ?_, howed s ho⟩)
      rw [hanswers]
      simp
    · exact .inr (.inl (hmono s hr))
    · exact .inr (.inr hc)
  · have hpaid := d.driver.publish_account ⟨id, result⟩
      ((entries d.tcp.parked).map Parked.id + d.dropped) hnone
      (by rw [← add_assoc]; exact h.account)
    rw [← add_assoc] at hpaid
    exact hpaid

theorem Tidy.take (h : Tidy n d none 0) (s : Submission TcpOp) :
    Tidy n { d with driver := d.driver.take s } none {s.id} where
  held := h.held
  told := h.told
  account := by
    rw [Driver.takenIds_take, Driver.doneIds_take, h.account, add_zero]

theorem Tidy.flush (h : Tidy n d none 0) : Tidy n d.flush none 0 := by
  unfold TcpDesk.flush
  cases hc : d.tcp.completion with
  | none => exact h
  | some c =>
    -- the pending answer counts as in hand, and what it reports as owed
    have hacc := h.account
    rw [hc, Driver.doneIds_some] at hacc
    have hanswers : d.answers = d.driver.done ++ [c] := by
      rw [answers, hc]
      rfl
    have hsame : ({ d with tcp := { d.tcp with completion := none } }.publish c).answers
        = d.answers := by
      show (d.driver.tryComplete c).2.done
        ++ ((d.driver.tryComplete c).1.orElse fun _ => none).toList = _
      rw [hanswers, ← Driver.tryComplete_answers]
      cases (d.driver.tryComplete c).1 <;> rfl
    refine ⟨{ h.held with }, ?_, ?_⟩
    · intro i s hi
      rcases h.told i s hi with ho | ⟨c', hc', hres⟩ | hcon
      · exact .inl ho
      · exact .inr (.inl ⟨c', by rw [hsame]; exact hc', hres⟩)
      · exact .inr (.inr hcon)
    · show (d.driver.tryComplete c).2.takenIds
        = (d.driver.tryComplete c).2.doneIds ((d.driver.tryComplete c).1.orElse fun _ => none)
          + (entries d.tcp.parked).map Parked.id + d.dropped + 0
      rw [Driver.tryComplete_keeps _ _ rfl, Driver.doneIds_tryComplete,
        Driver.takenIds_tryComplete, hacc]

variable {i : Nat} {p : Parked}

theorem Tidy.unpark (h : Tidy n d none hand)
    (hp : d.tcp.parked[i]? = some (some p)) :
    Tidy n { d with tcp := { d.tcp with parked := d.tcp.parked.set i none } }
      (if p.work = .connect then some p.socket else none) (p.id ::ₘ hand) := by
  have hclear := entries_clear hp
  refine ⟨h.held.unpark i, ?_, ?_⟩
  · intro j s hj
    rcases h.told j s hj with ho | hr | ⟨q, hq, hwork⟩
    · cases ho
    · exact .inr (.inl hr)
    by_cases hij : i = j
    · subst hij
      rw [hp] at hq
      cases hq
      have := h.held.parks i p hp
      have hj : d.tcp.held[i]? = some (some s) := hj
      rw [hj] at this
      cases this
      exact .inl (if_pos hwork)
    · refine .inr (.inr ⟨q, ?_, hwork⟩)
      rw [getElem?_set_ne hij]
      exact hq
  · rw [h.account, ← hclear, Multiset.map_cons, ← Multiset.singleton_add, ← singleton_add]
    abel

-- -- resume

variable (stack : Stack σ)

def TcpDesk.Refused (d : TcpDesk σ) : Prop :=
  ∃ i, d.Connecting i ∧ stack.state (d.tcp.streams i) = .closed

/-- An answer comes with a change of its own stream at most. -/
theorem progress_some {done : Except TcpError TcpDone} {d' : TcpDesk σ}
    (h : d.progress stack i p = (some done, d')) :
    (∃ s buffers, d' = { d with tcp := d.tcp.setStream i s, buffers })
      ∧ (p.work = .connect → stack.state (d.tcp.streams i) ≠ .closed →
        done = .ok (.opened p.socket)) := by
  have hself : d.tcp.setStream i (d.tcp.streams i) = d.tcp := by
    unfold Tcp.setStream
    congr 1
    funext j
    split <;> simp_all
  have hquiet : ∃ s buffers, d = { d with tcp := d.tcp.setStream i s, buffers } :=
    ⟨d.tcp.streams i, d.buffers, by rw [hself]⟩
  revert h
  fun_cases progress stack d i p with
  | case1 _ _ hclosed =>
    rintro ⟨⟩
    exact ⟨hquiet, fun _ hopen => absurd hclosed hopen⟩
  | case2 =>
    rintro ⟨⟩
    exact ⟨hquiet, fun _ _ => rfl⟩
  | case4 _ _ hwork | case6 _ _ hwork | case8 _ _ hwork | case13 _ _ hwork | case14 _ _ hwork =>
    rintro ⟨⟩
    exact ⟨hquiet, fun hc => nomatch hwork.symm.trans hc⟩
  | case7 _ _ hwork | case15 _ _ hwork | case16 _ _ hwork =>
    rintro ⟨⟩
    exact ⟨⟨_, _, rfl⟩, fun hc => nomatch hwork.symm.trans hc⟩
  | _ => exact nofun

theorem progress_none {d' : TcpDesk σ} (h : d.progress stack i p = (none, d')) : d' = d := by
  revert h
  fun_cases progress stack d i p <;> rintro ⟨⟩ <;> rfl

theorem parked_of_getD {l : List (Option Parked)}
    (h : l.getD i none = some p) : l[i]? = some (some p) := by
  rw [getD_eq_getElem?_getD] at h
  cases hi : l[i]? with
  | none => rw [hi] at h; cases h
  | some slot =>
    rw [hi] at h
    exact congrArg some h

section

variable (h : Tidy n d none 0) (hnone : d.tcp.completion = none) (hopen : ¬ d.Refused stack)

include h hnone hopen

theorem Tidy.answered {done : Except TcpError TcpDone}
    {d' : TcpDesk σ} (hp : d.tcp.parked[i]? = some (some p))
    (hdone : d.progress stack i p = (some done, d')) :
    Tidy n ({ d' with tcp := { d'.tcp with parked := d'.tcp.parked.set i none } }.publish
        ⟨p.id, done⟩) none 0
      ∧ ¬ ({ d' with tcp := { d'.tcp with parked := d'.tcp.parked.set i none } }.publish
        ⟨p.id, done⟩).Refused stack := by
  obtain ⟨⟨s, buffers, rfl⟩, hconnect⟩ := progress_some stack hdone
  constructor
  · have hunpark := (h.unpark hp).streams (fun j => if j = i then s else d.tcp.streams j)
      d.tcp.port buffers
    refine hunpark.publish hnone ?_
    intro w hw
    by_cases hwork : p.work = .connect
    · rw [if_pos hwork] at hw
      cases hw
      apply hconnect hwork
      intro hclosed
      exact hopen ⟨i, ⟨p, hp, hwork⟩, hclosed⟩
    · rw [if_neg hwork] at hw
      cases hw
  · rintro ⟨j, ⟨q, hq, hwork⟩, hclosed⟩
    have hq : (d.tcp.parked.set i none)[j]? = some (some q) := hq
    have hclosed : stack.state (if j = i then s else d.tcp.streams j) = .closed := hclosed
    by_cases hij : j = i
    · subst hij
      rw [getElem?_set] at hq
      split at hq
      · split at hq <;> cases hq
      · rename_i hne
        exact hne rfl
    · rw [getElem?_set_ne (Ne.symm hij)] at hq
      rw [if_neg hij] at hclosed
      exact hopen ⟨j, ⟨q, hq, hwork⟩, hclosed⟩

theorem Tidy.resumeFrom (rest : List Nat) : Tidy n (resumeFrom stack rest d) none 0 := by
  induction rest generalizing d with
  | nil => exact h
  | cons i rest ih =>
    unfold resumeFrom
    cases hp : d.tcp.parked.getD i none with
    | none => exact ih h hnone hopen
    | some p =>
      dsimp only
      cases hprog : d.progress stack i p with
      | mk done d' =>
        cases done with
        | none =>
          obtain rfl := progress_none stack hprog
          exact ih h hnone hopen
        | some done =>
          obtain ⟨h', hopen'⟩ := h.answered stack hnone hopen (parked_of_getD hp) hprog
          dsimp only
          split
          · exact h'
          · rename_i hc
            exact ih h' (by simpa using hc) hopen'

theorem Tidy.resume : Tidy n (d.resume stack) none 0 :=
  h.resumeFrom stack hnone hopen _

end

-- -- handle

theorem free_ok {t : Tcp σ} (h : t.free stack = .ok i) : t.held[i]? = some none := by
  unfold Tcp.free at h
  cases hf : (List.range t.held.length).find? fun i =>
      (t.held.getD i none).isNone && stack.state (t.streams i) == .closed with
  | none => simp only [hf] at h; cases h
  | some j =>
    simp only [hf] at h
    cases h
    have hlt : i < t.held.length := List.mem_range.mp (mem_of_find?_eq_some hf)
    have hprop := List.find?_some hf
    rw [getElem?_eq_getElem hlt]
    have : t.held[i].isNone = true := by
      rw [getD_eq_getElem?_getD, getElem?_eq_getElem hlt] at hprop
      simp only [Bool.and_eq_true] at hprop
      exact hprop.1
    rw [Option.isNone_iff_eq_none.mp this]

theorem hold_cases (t : Tcp σ) (owner : CellId) (i : Nat) :
    (∃ c sockets, t.sockets.insert SOCKET owner i = (.ok c, sockets)
        ∧ t.hold stack owner i
          = (.ok (wordOf c), { t with sockets, held := t.held.set i (some (wordOf c)) }))
      ∨ t.hold stack owner i = (.error .full, t.setStream i (stack.abort (t.streams i))) := by
  unfold Tcp.hold
  cases hins : t.sockets.insert SOCKET owner i with
  | mk answer sockets =>
    cases answer with
    | ok c => exact .inl ⟨c, sockets, rfl, rfl⟩
    | error x =>
      obtain ⟨rfl, -⟩ := insert_error hins
      exact .inr rfl

theorem Held.room (h : Held n d.tcp) (hfree : d.tcp.held[i]? = some none) :
    d.tcp.parked[i]? = some none := by
  have hlt : i < d.tcp.parked.length := by
    have := (List.getElem?_eq_some_iff.mp hfree).1
    rw [h.places] at this
    rw [h.rooms]
    exact this
  cases hp : d.tcp.parked[i] with
  | none => rw [getElem?_eq_getElem hlt, hp]
  | some p =>
    have := h.parks i p (by rw [getElem?_eq_getElem hlt, hp])
    rw [hfree] at this
    cases this

theorem Tidy.hold (h : Tidy n d none hand) (hn : n ≤ 2 ^ 32)
    (hfree : d.tcp.held[i]? = some none) {owner : CellId} {c : Capability}
    {sockets : CapabilityTable Nat}
    (hins : d.tcp.sockets.insert SOCKET owner i = (.ok c, sockets)) :
    Tidy n { d with tcp := { d.tcp with
      sockets, held := d.tcp.held.set i (some (wordOf c)) } } (some (wordOf c)) hand := by
  refine ⟨h.held.insert hn hins hfree, ?_, h.account⟩
  intro j s hj
  have hj : (d.tcp.held.set i (some (wordOf c)))[j]? = some (some s) := hj
  rw [Holding.getElem?_set_of_some hfree] at hj
  split at hj
  · cases hj
    exact .inl rfl
  · rcases h.told j s hj with ho | hr | hc
    · cases ho
    · exact .inr (.inl hr)
    · exact .inr (.inr hc)

theorem Tidy.park (h : Tidy n d owed {p.id})
    (hroom : d.tcp.parked[i]? = some none) (hheld : d.tcp.held[i]? = some (some p.socket))
    (howed : ∀ s, owed = some s → p.work = .connect ∧ s = p.socket) :
    Tidy n { d with tcp := { d.tcp with parked := d.tcp.parked.set i (some p) } } none 0 := by
  have hat : ∀ j, (d.tcp.parked.set i (some p))[j]?
      = if i = j then some (some p) else d.tcp.parked[j]? :=
    fun j => Holding.getElem?_set_of_some hroom
  refine ⟨h.held.park hheld, ?_, ?_⟩
  · intro j s hj
    rcases h.told j s hj with ho | hr | ⟨q, hq, hwork⟩
    · obtain ⟨hwork, rfl⟩ := howed s ho
      have hsame : some i = some j := by
        rw [← (h.held.names p.socket i).mpr hheld, ← (h.held.names p.socket j).mpr hj]
      cases hsame
      refine .inr (.inr ⟨p, ?_, hwork⟩)
      rw [hat, if_pos rfl]
    · exact .inr (.inl hr)
    · refine .inr (.inr ⟨q, ?_, hwork⟩)
      rw [hat, if_neg]
      · exact hq
      · rintro rfl
        rw [hroom] at hq
        cases hq
  · rw [h.account, entries_put hroom, Multiset.map_cons, ← Multiset.singleton_add]
    abel

theorem getD_isSome {l : List (Option Parked)}
    (h : ¬ (l.getD i none).isSome = true) : l.getD i none = none := by
  simpa using h

theorem Held.stream (h : Held n d.tcp) {s : UInt64} (hs : d.tcp.stream s = .ok i)
    (hidle : d.tcp.parked.getD i none = none) :
    d.tcp.held[i]? = some (some s) ∧ d.tcp.parked[i]? = some none := by
  have hheld := h.stream_ok.mp hs
  refine ⟨hheld, ?_⟩
  have hlt : i < d.tcp.parked.length := by
    have := (List.getElem?_eq_some_iff.mp hheld).1
    rw [h.places] at this
    rw [h.rooms]
    exact this
  rw [getD_eq_getElem?_getD, getElem?_eq_getElem hlt] at hidle
  rw [getElem?_eq_getElem hlt]
  exact congrArg some hidle

section

variable {id : Nat} (h : Tidy n d none (id ::ₘ 0))

include h

theorem Tidy.listen (hn : n ≤ 2 ^ 32) (owner : CellId)
    (port : Nat) : ∃ owed, Tidy n { d with tcp := (d.tcp.listen stack owner port).2 }
    owed (id ::ₘ 0)
      ∧ ∀ s, owed = some s → (d.tcp.listen stack owner port).1 = .ok s := by
  have hquiet : ∀ streams, Tidy n { d with tcp := { d.tcp with streams } } none (id ::ₘ 0) :=
    fun streams => h.streams streams d.tcp.port d.buffers
  unfold Tcp.listen
  split
  · exact ⟨none, h, by simp⟩
  cases hfree : d.tcp.free stack with
  | error e => exact ⟨none, h, by simp⟩
  | ok i =>
    have hvac := free_ok stack hfree
    dsimp only
    split
    · have hset : Tidy n { d with tcp :=
          (d.tcp.setStream i (stack.listen (d.tcp.streams i) port).2) } none (id ::ₘ 0) :=
        hquiet _
      rcases hold_cases stack (d.tcp.setStream i (stack.listen (d.tcp.streams i) port).2) owner i
        with ⟨c, sockets, hins, heq⟩ | heq
      · rw [heq]
        exact ⟨some (wordOf c), hset.hold hn hvac hins, by simp⟩
      · rw [heq]
        exact ⟨none, hquiet _, by simp⟩
    · exact ⟨none, hquiet _, by simp⟩

theorem Tidy.connect (hn : n ≤ 2 ^ 32)
    (owner : CellId) (dest : Endpoint) :
    (∃ tcp, d.tcp.connect stack id owner dest = (.ok none, tcp) ∧ Tidy n { d with tcp } none 0)
      ∨ ∃ e tcp, d.tcp.connect stack id owner dest = (.error e, tcp)
        ∧ Tidy n { d with tcp } none (id ::ₘ 0) := by
  have hquiet : ∀ streams port,
      Tidy n { d with tcp := { d.tcp with streams, port } } none (id ::ₘ 0) :=
    fun streams port => h.streams streams port d.buffers
  unfold Tcp.connect
  cases hfree : d.tcp.free stack with
  | error e => exact .inr ⟨e, _, rfl, h⟩
  | ok i =>
    have hvac := free_ok stack hfree
    dsimp only
    split
    · generalize hport : (if d.tcp.port + 1 < 2 ^ 16 then d.tcp.port + 1 else EPHEMERAL) = port
      rcases hold_cases stack ({ d.tcp with port }.setStream i
        (stack.connect (d.tcp.streams i) dest d.tcp.port).2) owner i
        with ⟨c, sockets, hins, heq⟩ | heq
      · rw [heq]
        left
        have hheld := (hquiet (fun j => if j = i then
          (stack.connect (d.tcp.streams i) dest d.tcp.port).2 else d.tcp.streams j) port).hold
          hn hvac hins
        have hat : (d.tcp.held.set i (some (wordOf c)))[i]? = some (some (wordOf c)) := by
          rw [Holding.getElem?_set_of_some hvac, if_pos rfl]
        refine ⟨_, rfl, Tidy.park (p := ⟨id, wordOf c, .connect⟩) hheld (h.held.room hvac) hat ?_⟩
        rintro s ⟨⟩
        exact ⟨rfl, rfl⟩
      · rw [heq]
        exact .inr ⟨_, _, rfl, hquiet _ port⟩
    · exact .inr ⟨_, _, rfl, hquiet _ _⟩

theorem Tidy.parkOp (socket : UInt64) (work : Work) :
    (∃ tcp, d.tcp.park id socket work = (.ok none, tcp) ∧ Tidy n { d with tcp } none 0)
      ∨ ∃ e tcp, d.tcp.park id socket work = (.error e, tcp)
        ∧ Tidy n { d with tcp } none (id ::ₘ 0) := by
  unfold Tcp.park
  cases hs : d.tcp.stream socket with
  | error e => exact .inr ⟨_, _, rfl, h⟩
  | ok i =>
    dsimp only
    split
    · exact .inr ⟨_, _, rfl, h⟩
    · rename_i hidle
      obtain ⟨hheld, hroom⟩ := h.held.stream hs (getD_isSome hidle)
      exact .inl ⟨_, rfl, Tidy.park (p := ⟨id, socket, work⟩) h hroom hheld (by simp)⟩

end

theorem Tidy.close (h : Tidy n d none hand) (socket : UInt64) :
    Tidy n { d with tcp := (d.tcp.close stack socket).2 } none hand := by
  unfold Tcp.close
  cases hs : d.tcp.stream socket with
  | error e => exact h
  | ok i =>
    dsimp only
    split
    · exact h
    rename_i hidle
    have hidle := getD_isSome hidle
    obtain ⟨hheld, -⟩ := h.held.stream hs hidle
    have hquiet := h.streams (fun j => if j = i then stack.close (d.tcp.streams i)
      else d.tcp.streams j) d.tcp.port d.buffers
    cases hrev : (d.tcp.setStream i (stack.close (d.tcp.streams i))).sockets.revoke SOCKET
        ⟨socket.toNat⟩ with
    | mk answer sockets =>
      cases answer with
      | error e =>
        obtain rfl := revoke_error hrev
        exact hquiet
      | ok v =>
        refine ⟨hquiet.held.revoke hrev hheld hidle, ?_, h.account⟩
        intro j s hj
        have hj : (d.tcp.held.set i none)[j]? = some (some s) := hj
        rw [Holding.getElem?_set_of_some hheld] at hj
        split at hj
        · cases hj
        · exact h.told j s hj

theorem hold_completion (t : Tcp σ) (owner : CellId) (i : Nat) :
    (t.hold stack owner i).2.completion = t.completion := by
  rcases hold_cases stack t owner i with ⟨c, sockets, -, heq⟩ | heq
  · rw [heq]
  · rw [heq]
    rfl

theorem apply_completion (owner : CellId) (s : Submission TcpOp) :
    (d.apply stack owner s).2.completion = d.tcp.completion := by
  have hpark : ∀ socket work, (d.tcp.park s.id socket work).2.completion = d.tcp.completion := by
    intro socket work
    fun_cases Tcp.park d.tcp s.id socket work <;> rfl
  unfold apply
  split
  · rename_i port _
    show (d.tcp.listen stack owner port).2.completion = _
    fun_cases Tcp.listen stack d.tcp owner port with
    | case3 => exact hold_completion stack _ owner _
    | _ => rfl
  · rename_i dest _
    fun_cases Tcp.connect stack d.tcp s.id owner dest with
    | case2 i _ stream t _ _ heq | case3 i _ stream t _ _ heq =>
      have hhold := hold_completion stack (t.setStream i stream) owner i
      rw [heq] at hhold
      exact hhold
    | _ => rfl
  · exact hpark _ _
  · exact hpark _ _
  · rename_i socket _
    show (d.tcp.close stack socket).2.completion = _
    fun_cases Tcp.close stack d.tcp socket <;> rfl

theorem Tidy.handle {s : Submission TcpOp} (h : Tidy n d none {s.id}) (hn : n ≤ 2 ^ 32)
    (hnone : d.tcp.completion = none) (owner : CellId) :
    Tidy n (d.handle stack owner s) none 0 := by
  have h : Tidy n d none (s.id ::ₘ 0) := h
  have hkeep := (apply_completion stack owner s).trans hnone
  unfold TcpDesk.handle
  unfold apply at hkeep ⊢
  obtain ⟨id, op⟩ := s
  cases op with
  | listen port =>
    obtain ⟨owed, h', howed⟩ := h.listen stack hn owner port
    dsimp only at hkeep ⊢
    generalize d.tcp.listen stack owner port = result at h' howed hkeep
    obtain ⟨answer, tcp⟩ := result
    cases answer with
    | ok socket =>
      refine h'.publish hkeep ?_
      intro s hs
      rw [Except.ok.inj (howed s hs)]
    | error e =>
      refine h'.publish hkeep ?_
      intro s hs
      cases howed s hs
  | connect dest =>
    rcases h.connect stack hn owner dest with ⟨tcp, heq, h'⟩ | ⟨e, tcp, heq, h'⟩
    · dsimp only
      rw [heq]
      exact h'
    · dsimp only at hkeep ⊢
      rw [heq] at hkeep ⊢
      exact h'.publish hkeep (by simp)
  | send socket payload =>
    rcases h.parkOp socket (.send payload) with ⟨tcp, heq, h'⟩ | ⟨e, tcp, heq, h'⟩
    · dsimp only
      rw [heq]
      exact h'
    · dsimp only at hkeep ⊢
      rw [heq] at hkeep ⊢
      exact h'.publish hkeep (by simp)
  | recv socket payload =>
    rcases h.parkOp socket (.recv payload) with ⟨tcp, heq, h'⟩ | ⟨e, tcp, heq, h'⟩
    · dsimp only
      rw [heq]
      exact h'
    · dsimp only at hkeep ⊢
      rw [heq] at hkeep ⊢
      exact h'.publish hkeep (by simp)
  | close socket =>
    have h' := h.close stack socket
    dsimp only at hkeep ⊢
    generalize d.tcp.close stack socket = result at h' hkeep
    obtain ⟨answer, tcp⟩ := result
    cases answer with
    | ok | error => exact h'.publish hkeep (by simp)

theorem Tidy.drain (h : Tidy n d none 0) (hn : n ≤ 2 ^ 32) (hnone : d.tcp.completion = none)
    (owner : CellId) (next : List (Submission TcpOp)) :
    Tidy n (drain stack owner next d) none 0 := by
  induction next generalizing d with
  | nil => exact h
  | cons s next ih =>
    have hstep := (h.take s).handle stack hn hnone owner
    unfold drain
    dsimp only
    split
    · exact hstep
    · rename_i hc
      exact ih hstep (by simpa using hc)

theorem Tidy.poll (h : Tidy n d none hand) (network : (Nat → σ) → Nat → σ) :
    Tidy n (d.poll network) none hand := h.streams _ d.tcp.port d.buffers

section

variable (h : Tidy n d none 0) (hn : n ≤ 2 ^ 32) (owner : CellId) (next : List (Submission TcpOp))
include h hn

theorem Tidy.work (first : (Nat → σ) → Nat → σ)
    (hopen : ¬ (d.flush.poll first).Refused stack) :
    Tidy n (d.work stack owner next first) none 0 := by
  unfold TcpDesk.work
  dsimp only
  split
  · exact h.flush
  rename_i hc
  have hnone : d.flush.tcp.completion = none := by simpa using hc
  have hresume := (h.flush.poll first).resume stack hnone hopen
  split
  · exact hresume
  · rename_i hc'
    exact hresume.drain stack hn (by simpa using hc') owner next

theorem Tidy.serve (first second : (Nat → σ) → Nat → σ)
    (hopen : ¬ (d.flush.poll first).Refused stack)
    (hopen' : ¬ ((d.work stack owner next first).poll second).Refused stack) :
    Tidy n (d.serve stack owner next first second) none 0 := by
  have hwork := h.work stack hn owner next first hopen
  unfold TcpDesk.serve
  dsimp only
  split
  · exact hwork
  · rename_i hc
    have hnone : (d.work stack owner next first).tcp.completion = none := by simpa using hc
    exact (hwork.poll second).resume stack hnone hopen'

end

-- -- revocation and reset

theorem entries_split {α β : Type} (lost : α → Bool) (l : List α) (m : List (Option β))
    (hlen : l.length = m.length) :
    entries m = entries (zipWith (fun s p => if lost s then none else p) l m)
      + entries (zipWith (fun s p => if lost s then p else none) l m) := by
  induction l generalizing m with
  | nil =>
    obtain rfl := eq_nil_of_length_eq_zero hlen.symm
    rfl
  | cons a l ih =>
    cases m with
    | nil => cases hlen
    | cons o m =>
      have ih := ih m (Nat.succ.inj hlen)
      cases o with
      | none => simpa [entries_cons_none] using ih
      | some b =>
        rw [entries_cons_some, ih]
        cases hl : lost a with
        | true | false => simp [hl, entries_cons_none, entries_cons_some]

theorem Tidy.revoke (h : Tidy n d none 0) (owner : CellId) :
    Tidy n (d.revoke stack owner) none 0 := by
  refine ⟨h.held.revokeOwner owner _, ?_, ?_⟩
  · intro i s hi
    have hi : (d.tcp.held.map fun s =>
      if Tcp.lost (d.tcp.sockets.revokeOwner owner).2 s then none else s)[i]? = some (some s) := hi
    rw [getElem?_map] at hi
    obtain ⟨old, hold, heq⟩ := Option.map_eq_some_iff.mp hi
    by_cases hl : Tcp.lost (d.tcp.sockets.revokeOwner owner).2 old = true
    · rw [if_pos hl] at heq
      cases heq
    rw [if_neg hl] at heq
    subst heq
    rcases h.told i s hold with ho | hr | ⟨p, hp, hwork⟩
    · cases ho
    · exact .inr (.inl hr)
    refine .inr (.inr ⟨p, ?_, hwork⟩)
    dsimp only [TcpDesk.revoke]
    rw [getElem?_zipWith_eq_some]
    exact ⟨some s, some p, hold, hp, by rw [if_neg hl]⟩
  · have hacc := h.account
    rw [entries_split (Tcp.lost (d.tcp.sockets.revokeOwner owner).2) d.tcp.held d.tcp.parked
      (h.held.places.trans h.held.rooms.symm), map_add] at hacc
    dsimp only [TcpDesk.revoke]
    rw [hacc]
    abel

theorem Tidy.reset (h : Tidy n d none 0) : Tidy n (d.reset stack) none 0 := by
  have hnone : ∀ {α : Type} (k i : Nat) (x : α),
      (List.replicate k (none : Option α))[i]? ≠ some (some x) := by
    intro α k i x hx
    have := mem_of_getElem? hx
    simp at this
  refine ⟨⟨h.held.sound.revokeWhere _, ?_, ?_, ?_, ?_, ?_⟩, ?_, ?_⟩
  · exact (length_revokeWhere _ _).trans h.held.slots
  · exact length_replicate.trans h.held.places
  · exact length_replicate.trans h.held.rooms
  · intro s i
    constructor
    · intro hs
      have hs : d.tcp.sockets.revokeAll.2.held s = some i := hs
      rw [revokeAll_held] at hs
      cases hs
    · intro hi
      exact absurd hi (hnone _ _ _)
  · intro i p hp
    exact absurd hp (hnone _ _ _)
  · intro i s hi
    exact absurd hi (hnone _ _ _)
  · have hacc := h.account
    dsimp only [TcpDesk.reset]
    have hdone : d.driver.doneIds d.tcp.completion = d.driver.doneIds none
        + (d.tcp.completion.toList.map Completion.id : List Nat) := by
      unfold Driver.doneIds
      rw [map_append, ← coe_add]
      simp
    rw [hacc, hdone, entries_replicate, map_zero]
    abel

end Tidy

-- == runs

namespace TcpDesk

variable (stack : Stack σ)

/-- Neither poll of a turn leaves a stream closed that a connect is parked on. -/
def Meets (d : TcpDesk σ) : TcpTurn σ → Prop
  | .serve owner next room first second =>
    ¬ ((d.facing room).flush.poll first).Refused stack
      ∧ ¬ (((d.facing room).work stack owner next first).poll second).Refused stack
  | _ => True

def MeetsAll (d : TcpDesk σ) : List (TcpTurn σ) → Prop
  | [] => True
  | t :: turns => d.Meets stack t ∧ MeetsAll (d.turn stack t) turns

end TcpDesk

section Runs

variable {d : TcpDesk σ} (stack : Stack σ)

theorem Tidy.turn (h : Tidy n d none 0) (hn : n ≤ 2 ^ 32) {t : TcpTurn σ}
    (hmeets : d.Meets stack t) : Tidy n (d.turn stack t) none 0 := by
  cases t with
  | serve owner next room first second =>
    have hfacing : Tidy n (d.facing room) none 0 := ⟨h.held, h.told, h.account⟩
    exact hfacing.serve stack hn owner next first second hmeets.1 hmeets.2
  | revoke owner => exact h.revoke stack owner
  | reset => exact h.reset stack
  | buffers registry => exact h.streams d.tcp.streams d.tcp.port registry

theorem Tidy.run (h : Tidy n d none 0) (hn : n ≤ 2 ^ 32) {turns : List (TcpTurn σ)}
    (hmeets : d.MeetsAll stack turns) : Tidy n (d.run stack turns) none 0 := by
  induction turns generalizing d with
  | nil => exact h
  | cons t turns ih => exact ih (h.turn stack hn hmeets.1) hmeets.2

end Runs

/-- A stream is held exactly under its live socket, what is parked is parked
on a held stream, every operation taken is answered once, parked, or given
up by a revocation or a reset, and every held stream was reported to a
client or has a connect parked on it. -/
structure Streams (d : TcpDesk σ) : Prop where
  held : ∀ (s : UInt64) (i : Nat), d.tcp.stream s = .ok i ↔ d.tcp.held[i]? = some (some s)
  parked : ∀ (i : Nat) (p : Parked), d.tcp.parked[i]? = some (some p) →
    d.tcp.held[i]? = some (some p.socket)
  account : (d.driver.taken.map Submission.id : Multiset Nat)
    = (d.answers.map Completion.id : List Nat) + (entries d.tcp.parked).map Parked.id + d.dropped
  reported : ∀ (i : Nat) (s : UInt64), d.tcp.held[i]? = some (some s) →
    d.Reported s ∨ d.Connecting i

/-- In every run in which no poll closes a stream under a parked connect, the
service keeps its streams. -/
theorem tcp_keeps_its_streams (stack : Stack σ) (streams : Nat → σ) (n : Nat) (hn : n ≤ 2 ^ 32)
    (buffers : BufferRegistry) (turns : List (TcpTurn σ))
    (hmeets : (TcpDesk.new streams n buffers).MeetsAll stack turns) :
    Streams ((TcpDesk.new streams n buffers).run stack turns) := by
  have h := (Tidy.new streams n buffers).run stack hn hmeets
  refine ⟨fun s i => h.held.stream_ok, h.held.parks, ?_, ?_⟩
  · have hacc := h.account
    rw [add_zero] at hacc
    exact hacc
  · intro i s hi
    rcases h.told i s hi with ho | hr
    · cases ho
    · exact hr

-- -- a peer

/-- Streams that are their state and nothing else: a connect is under way
until the network says otherwise. -/
def plain : Stack TcpState where
  state := id
  maySend s := s == .established || s == .closeWait
  canSend s := s == .established || s == .closeWait
  mayRecv s := s == .established
  canRecv _ := false
  listen _ _ := (true, .listen)
  connect _ _ _ := (true, .synSent)
  sendSlice s bytes := (some bytes.length, s)
  recvSlice s _ := (some [], s)
  close _ := .closed
  abort _ := .closed

def dial (id : Nat) : Submission TcpOp := ⟨id, .connect ⟨.v4 (#v[10, 0, 0, 3]), 80⟩⟩

/-- `Refused` is about the streams with something parked on them. -/
theorem TcpDesk.not_refused {stack : Stack σ} {d : TcpDesk σ}
    (h : ((List.range d.tcp.parked.length).all fun i => (d.tcp.parked.getD i none).all fun p =>
      p.work != .connect || stack.state (d.tcp.streams i) != .closed) = true) :
    ¬ d.Refused stack := by
  rintro ⟨i, ⟨p, hp, hwork⟩, hclosed⟩
  have hlt := (List.getElem?_eq_some_iff.mp hp).1
  have := all_eq_true.mp h i (List.mem_range.mpr hlt)
  rw [getD_eq_getElem?_getD, hp] at this
  simp [hwork, hclosed] at this

/-- The peer accepts, and the client is told its socket. -/
theorem tcp_keeps_its_streams_established :
    let turns := [.serve 1 [dial 1] [true] id id, .serve 1 [] [true] (fun _ _ => .established) id]
    let d := (TcpDesk.new (fun _ => .closed) 1 (BufferRegistry.new 0)).run plain turns
    d.driver.done.map Completion.id = [1] ∧ Streams d := by
  refine ⟨by decide +kernel, tcp_keeps_its_streams plain _ 1 (by decide) _ _ ?_⟩
  refine ⟨⟨TcpDesk.not_refused ?_, TcpDesk.not_refused ?_⟩,
    ⟨TcpDesk.not_refused ?_, TcpDesk.not_refused ?_⟩, trivial⟩
  all_goals decide +kernel

/-- The peer refuses: the connect is answered with an error, and its stream
is held under a socket that no client was told. -/
theorem refused_connect_keeps_its_stream :
    let turns := [.serve 1 [dial 1] [true] id id,
      .serve 1 [] [true] (fun _ _ => .closed) id, .serve 1 [dial 2] [true] id id]
    let d := (TcpDesk.new (fun _ => .closed) 1 (BufferRegistry.new 0)).run plain turns
    d.tcp.held = [some (2 ^ 32)] ∧ d.tcp.parked = [none] ∧ d.tcp.completion = none
      ∧ d.driver.done = [⟨1, .error .reset⟩, ⟨2, .error .full⟩]
      ∧ plain.state (d.tcp.streams 0) = .closed := by
  decide +kernel

end Molt.Net
