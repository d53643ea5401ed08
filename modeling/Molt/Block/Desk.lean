/-
What a block driver keeps of its requests, whatever device is behind it.

# The desk

A request takes a slot. Either its checks fail and its answer is ready, or the
device is given work under a key (a command identifier, the head of a
descriptor chain) and the slot has a flight. A flight stays until the device
is done with it; its request may have been answered before, and the flight is
then no longer live. `owed` says which request a slot still owes an answer to
and `away` which keys the device has, each with its request.

# The ledger

`Ledger` is what a model of a driver with its device keeps of the requests,
and `Pass` how a turn of the driver's loop in `reap` ends. A turn that answers
settles what its slot owes.

# Moves

`Move` lists what a driver may do to a desk. `Sound` holds of an empty desk
and every move keeps it: no key is given out twice, every request is answered
once and under its own id. A driver is right about its requests if each of its
steps is a move, or changes nothing here.
-/
import Molt.Block.Queue
import Molt.Lib.Slots

namespace Molt.Block

open Molt.Lib List Multiset

def SECTOR : Nat := 512

/-- Bytes of a block, the most one request moves. -/
def BLOCK : Nat := 4096

/-- Checks `len` bytes against the device geometry, returning the sectors they
span. -/
def bounds (sectors sector len : Nat) : Except BlockError Nat :=
  if len % SECTOR ≠ 0 then .error .unaligned
  else if 2 ^ 64 ≤ sector + len / SECTOR then .error .range
  else if sectors < sector + len / SECTOR then .error .range
  else .ok (len / SECTOR)

/-- The answer to an operation, with its buffer. -/
def finish (op : BlockOp) (result : Except BlockError Unit) : BlockDone :=
  match op with
  | .read _ _ buffer => ⟨result, some buffer⟩
  | .write _ _ buffer => ⟨result, some buffer⟩
  | .flush => ⟨result, none⟩

/-- An operation whose buffer, if it is a read, begins with these bytes. -/
def landed (bytes : List UInt8) : BlockOp → BlockOp
  | .read sector n buffer =>
    .read sector n { buffer with bytes := bytes ++ buffer.bytes.drop n }
  | op => op

-- == the ledger

/-- How one turn of the loop in `reap` ends. -/
inductive Pass where
  | answer (slot id : Nat) (done : BlockDone)
  | again
  | wait
  | idle

/-- The requests a driver took, which of them a slot still owes an answer to,
and the answers, each with its request. -/
structure Ledger where
  requests : List (Nat × BlockOp)
  owed : List (Option Nat)
  answers : List (Nat × Nat × BlockDone)

namespace Ledger

def new (depth : Nat) : Ledger := ⟨[], List.replicate depth none, []⟩

/-- Enters a request that took `slot`. -/
def enter (l : Ledger) (slot id : Nat) (op : BlockOp) : Ledger :=
  { l with
    requests := l.requests ++ [(id, op)]
    owed := l.owed.set slot (some l.requests.length) }

/-- Enters what a turn answered. -/
def settle (l : Ledger) : Pass → Ledger
  | .answer slot id done =>
    { l with
      owed := l.owed.set slot none
      answers := l.answers ++ ((slotAt l.owed slot).map fun n => (n, id, done)).toList }
  | _ => l

theorem settle_answer {l : Ledger} {slot n : Nat} (h : slotAt l.owed slot = some n) (id : Nat)
    (done : BlockDone) : l.settle (.answer slot id done) =
      ⟨l.requests, l.owed.set slot none, l.answers ++ [(n, id, done)]⟩ := by
  rw [settle, h]
  rfl

/-- A turn leaves nothing owed that was not. -/
theorem settle_owed (l : Ledger) (pass : Pass) :
    entries (l.settle pass).owed ≤ entries l.owed := by
  cases pass with
  | answer slot id done => exact entries_clear_le _ _
  | again | wait | idle => exact le_rfl

/-- The request `n` was taken and is no longer owed an answer. -/
def Closed (l : Ledger) (n : Nat) : Prop := n < l.requests.length ∧ n ∉ entries l.owed

theorem Closed.enter {l : Ledger} {n : Nat} (h : l.Closed n) (slot id : Nat) (op : BlockOp) :
    (l.enter slot id op).Closed n := by
  refine ⟨?_, fun hn => ?_⟩
  · show n < (l.requests ++ [(id, op)]).length
    rw [length_append]
    exact Nat.lt_add_right _ h.1
  · rcases mem_or_eq_of_mem_set (mem_entries.mp hn) with hold | hnew
    · exact h.2 (mem_entries.mpr hold)
    · cases hnew
      exact lt_irrefl _ h.1

theorem Closed.settle {l : Ledger} {n : Nat} (h : l.Closed n) (pass : Pass) :
    (l.settle pass).Closed n := by
  refine ⟨?_, fun hn => h.2 (Multiset.mem_of_le (l.settle_owed pass) hn)⟩
  cases pass <;> exact h.1

end Ledger

-- == the desk

@[ext] structure Desk (F : Type) where
  flights : List (Option F)
  ready : List (Option (Nat × BlockDone))
  owed : List (Option Nat)
  requests : List (Nat × BlockOp)
  answers : List (Nat × Nat × BlockDone)
  away : Multiset (Nat × Nat)

namespace Desk

variable {F : Type} {key : Nat → F → Nat} {live : F → Option (Nat × BlockOp)}
  {ok : Nat → BlockOp → BlockDone → Prop} {d d' : Desk F}

/-- Takes a request into `slot`, with a flight, an answer or both. -/
def accept (d : Desk F) (slot id : Nat) (op : BlockOp) (flight : Option F)
    (answer : Option BlockDone) (keys : Multiset (Nat × Nat)) : Desk F where
  flights := d.flights.set slot flight
  ready := d.ready.set slot (answer.map fun done => (id, done))
  owed := d.owed.set slot (some d.requests.length)
  requests := d.requests ++ [(id, op)]
  answers := d.answers
  away := keys + d.away

/-- Answers the request `n` of `slot`. -/
def answer (d : Desk F) (slot n id : Nat) (done : BlockDone) (flight : Option F) : Desk F where
  flights := d.flights.set slot flight
  ready := d.ready.set slot none
  owed := d.owed.set slot none
  requests := d.requests
  answers := d.answers ++ [(n, id, done)]
  away := d.away

/-- What a driver may do: `key` is what the device knows a flight by, `live`
the request it still owes, and `ok` says which answers other than a failure are
right for a request that the device has done. -/
inductive Move (key : Nat → F → Nat) (live : F → Option (Nat × BlockOp))
    (ok : Nat → BlockOp → BlockDone → Prop) : Desk F → Desk F → Prop where
  | refuse {d : Desk F} {slot id : Nat} {op : BlockOp} (error : BlockError)
      (room : slot < d.flights.length) (flight : slotAt d.flights slot = none)
      (ready : slotAt d.ready slot = none) :
      Move key live ok d (d.accept slot id op none (some (finish op (.error error))) 0)
  | fly {d : Desk F} {slot id : Nat} {op : BlockOp} {f : F}
      (room : slot < d.flights.length) (flight : slotAt d.flights slot = none)
      (ready : slotAt d.ready slot = none) (lives : live f = some (id, op))
      (fresh : key slot f ∉ d.away.map Prod.snd) :
      Move key live ok d (d.accept slot id op (some f) none {(d.requests.length, key slot f)})
  | fumble {d : Desk F} {slot id : Nat} {op : BlockOp} {f : F} (error : BlockError)
      (room : slot < d.flights.length) (flight : slotAt d.flights slot = none)
      (ready : slotAt d.ready slot = none) (dead : live f = none)
      (fresh : key slot f ∉ d.away.map Prod.snd) :
      Move key live ok d (d.accept slot id op (some f) (some (finish op (.error error)))
        {(d.requests.length, key slot f)})
  | hand {d : Desk F} {slot n id : Nat} {done : BlockDone}
      (ready : slotAt d.ready slot = some (id, done)) (owed : slotAt d.owed slot = some n) :
      Move key live ok d (d.answer slot n id done (slotAt d.flights slot))
  | expire {d : Desk F} {slot n id : Nat} {op : BlockOp} {f f' : F} (error : BlockError)
      (flight : slotAt d.flights slot = some f) (lives : live f = some (id, op))
      (dead : live f' = none) (same : key slot f' = key slot f)
      (owed : slotAt d.owed slot = some n) :
      Move key live ok d (d.answer slot n id (finish op (.error error)) (some f'))
  | land {d : Desk F} {slot n id : Nat} {op : BlockOp} {f : F} {done : BlockDone}
      {rest : Multiset (Nat × Nat)} (out : d.away = (n, key slot f) ::ₘ rest)
      (flight : slotAt d.flights slot = some f) (lives : live f = some (id, op))
      (owed : slotAt d.owed slot = some n)
      (right : (∃ error, done = finish op (.error error)) ∨ ok n op done) :
      Move key live ok d { d.answer slot n id done none with away := rest }
  | late {d : Desk F} {slot n : Nat} {f : F} {rest : Multiset (Nat × Nat)}
      (out : d.away = (n, key slot f) ::ₘ rest) (flight : slotAt d.flights slot = some f)
      (dead : live f = none) :
      Move key live ok d { d with flights := d.flights.set slot none, away := rest }

-- == the invariant

/-- What one slot may hold: its flight, its ready answer and what it owes. -/
inductive Fits (key : Nat → F → Nat) (live : F → Option (Nat × BlockOp))
    (requests : List (Nat × BlockOp)) (away : Multiset (Nat × Nat)) (slot : Nat) :
    Option F → Option (Nat × BlockDone) → Option Nat → Prop where
  | free : Fits key live requests away slot none none none
  | ready {n id op error} (request : requests[n]? = some (id, op)) :
      Fits key live requests away slot none (some (id, finish op (.error error))) (some n)
  | flying {n id op f} (lives : live f = some (id, op)) (request : requests[n]? = some (id, op))
      (out : (n, key slot f) ∈ away) : Fits key live requests away slot (some f) none (some n)
  | late {n f} (dead : live f = none) (out : (n, key slot f) ∈ away) :
      Fits key live requests away slot (some f) none none
  | fumbled {m n id op error f} (dead : live f = none) (out : (m, key slot f) ∈ away)
      (request : requests[n]? = some (id, op)) :
      Fits key live requests away slot (some f) (some (id, finish op (.error error))) (some n)

variable {x : Option F}

theorem Fits.mono {requests requests' : List (Nat × BlockOp)} {away away' : Multiset (Nat × Nat)}
    {slot : Nat} {y : Option (Nat × BlockDone)} {z : Option Nat}
    (h : Fits key live requests away slot x y z)
    (hrequests : ∀ (n : Nat) r, requests[n]? = some r → requests'[n]? = some r)
    (haway : ∀ n f, x = some f → (n, key slot f) ∈ away → (n, key slot f) ∈ away') :
    Fits key live requests' away' slot x y z := by
  cases h with
  | free => exact .free
  | ready request => exact .ready (hrequests _ _ request)
  | flying lives request out => exact .flying lives (hrequests _ _ request) (haway _ _ rfl out)
  | late dead out => exact .late dead (haway _ _ rfl out)
  | fumbled dead out request => exact .fumbled dead (haway _ _ rfl out) (hrequests _ _ request)

/-- An answer to request `n`: a failure, or one that is right. -/
def Answers (ok : Nat → BlockOp → BlockDone → Prop) (requests : List (Nat × BlockOp)) (n id : Nat)
    (done : BlockDone) : Prop :=
  ∃ op, requests[n]? = some (id, op) ∧ ((∃ error, done = finish op (.error error)) ∨ ok n op done)

/-- The arrays agree, the keys out are those of the flights, a request whose key
is out is owed by the slot of that flight or by none, and every request is owed
an answer or has had its own. -/
structure Sound (key : Nat → F → Nat) (live : F → Option (Nat × BlockOp))
    (ok : Nat → BlockOp → BlockDone → Prop) (d : Desk F) : Prop where
  ready : d.ready.length = d.flights.length
  owed : d.owed.length = d.flights.length
  fits : ∀ slot, Fits key live d.requests d.away slot (slotAt d.flights slot)
    (slotAt d.ready slot) (slotAt d.owed slot)
  keys : ∀ s t f g, slotAt d.flights s = some f → slotAt d.flights t = some g →
    key s f = key t g → s = t
  out : ∀ n k, (n, k) ∈ d.away → ∃ slot f, slotAt d.flights slot = some f ∧ key slot f = k
  once : (d.away.map Prod.snd).Nodup
  known : ∀ n k, (n, k) ∈ d.away → n < d.requests.length
  home : ∀ slot f n t, slotAt d.flights slot = some f → (n, key slot f) ∈ d.away →
    slotAt d.owed t = some n → t = slot
  account : ((d.answers.map Prod.fst : List Nat) : Multiset Nat) + entries d.owed =
    Multiset.range d.requests.length
  answers : ∀ n id done, (n, id, done) ∈ d.answers → Answers ok d.requests n id done

def new (depth : Nat) : Desk F where
  flights := List.replicate depth none
  ready := List.replicate depth none
  owed := List.replicate depth none
  requests := []
  answers := []
  away := 0

theorem new_sound (depth : Nat) : Sound key live ok (new depth : Desk F) where
  ready := by simp [new]
  owed := by simp [new]
  fits slot := by
    simp only [new, slotAt_replicate]
    exact .free
  keys s t f g hf := by simp [new] at hf
  out n k hk := by simp [new] at hk
  once := by simp [new]
  known n k hk := by simp [new] at hk
  home s f n t hf := by simp [new] at hf
  account := by simp [new]
  answers n id done hm := by simp [new] at hm

theorem Sound.imp {ok' : Nat → BlockOp → BlockDone → Prop} (h : Sound key live ok d)
    (himp : ∀ n op done, ok n op done → ok' n op done) : Sound key live ok' d :=
  { h with
    answers n id done hm := by
      obtain ⟨op, hop, hdone⟩ := h.answers n id done hm
      exact ⟨op, hop, hdone.imp_right (himp _ _ _)⟩ }

/-- What a device has posted is right: the answer to a request whose post says
it went well, with the bytes it left. -/
def Given {P : Type} (request : P → Nat) (well : P → Prop) (bytes : P → List UInt8)
    (posted : List P) (n : Nat) (op : BlockOp) (done : BlockDone) : Prop :=
  ∃ p ∈ posted, request p = n ∧ well p ∧ done = finish (landed (bytes p) op) (.ok ())

section Given

variable {P : Type} {request : P → Nat} {well : P → Prop} {bytes : P → List UInt8}
  {posted posted' : List P}

/-- A step of the device leaves the desk alone and posts at most more. -/
theorem Sound.aside (h : Sound key live (Given request well bytes posted) d) (hdesk : d' = d)
    (hposted : ∀ p ∈ posted, p ∈ posted') :
    Sound key live (Given request well bytes posted') d' := by
  rw [hdesk]
  refine h.imp fun n op done hdone => ?_
  obtain ⟨p, hp, hrest⟩ := hdone
  exact ⟨p, hposted p hp, hrest⟩

end Given

theorem Sound.card_away (h : Sound key live ok d) : d.away.card ≤ d.flights.length := by
  let used := (List.range d.flights.length).filterMap fun s => (slotAt d.flights s).map (key s)
  have hsub : d.away.map Prod.snd ≤ (used : Multiset Nat) := by
    rw [le_iff_subset h.once]
    intro k hk
    obtain ⟨⟨n, _⟩, hmem, rfl⟩ := mem_map.mp hk
    obtain ⟨slot, f, hf, hkey⟩ := h.out n _ hmem
    refine mem_coe.mpr (mem_filterMap.mpr ⟨slot, ?_, ?_⟩)
    · exact List.mem_range.mpr (slotAt_lt hf)
    · rw [hf, Option.map_some, hkey]
  have hcard := card_le_card hsub
  rw [card_map, coe_card] at hcard
  refine Nat.le_trans hcard (Nat.le_trans (length_filterMap_le _ _) ?_)
  rw [length_range]

theorem Sound.unique (h : Sound key live ok d) {m n k : Nat} (hm : (m, k) ∈ d.away)
    (hn : (n, k) ∈ d.away) : m = n :=
  congrArg Prod.fst (inj_on_of_nodup_map h.once _ hm _ hn rfl)

theorem Sound.owed_le (h : Sound key live ok d) :
    entries d.owed ≤ Multiset.range d.requests.length := h.account ▸ Multiset.le_add_left _ _

theorem Sound.owed_lt (h : Sound key live ok d) {slot n : Nat}
    (howed : slotAt d.owed slot = some n) : n < d.requests.length :=
  Multiset.mem_range.mp (Multiset.mem_of_le h.owed_le
    (mem_entries.mpr (mem_of_getElem? (slotAt_some.mp howed))))

/-- A request is owed by one slot. -/
theorem Sound.owed_once (h : Sound key live ok d) {slot n : Nat}
    (howed : slotAt d.owed slot = some n) : n ∉ entries (d.owed.set slot none) := by
  have hnodup := Multiset.nodup_of_le h.owed_le (Multiset.nodup_range _)
  rw [← entries_clear (slotAt_some.mp howed)] at hnodup
  exact (Multiset.nodup_cons.mp hnodup).1

/-- The key of a flight is out. -/
theorem Sound.key_out (h : Sound key live ok d) {slot : Nat} {f : F}
    (hf : slotAt d.flights slot = some f) : key slot f ∈ d.away.map Prod.snd := by
  have hfits := h.fits slot
  rw [hf] at hfits
  generalize slotAt d.ready slot = y at hfits
  generalize slotAt d.owed slot = z at hfits
  cases hfits with
  | flying _ _ out => exact mem_map.mpr ⟨_, out, rfl⟩
  | late _ out | fumbled _ out => exact mem_map.mpr ⟨_, out, rfl⟩

-- == the moves

theorem getElem?_snoc {α : Type} {l : List α} {n : Nat} {a x : α} (h : l[n]? = some a) :
    (l ++ [x])[n]? = some a := by
  rw [List.getElem?_append_left (List.getElem?_eq_some_iff.mp h).1, h]

/-- A slot without a flight or an answer owes nothing. -/
theorem Sound.free (h : Sound key live ok d) {slot : Nat}
    (hflight : slotAt d.flights slot = none) (hready : slotAt d.ready slot = none) :
    slotAt d.owed slot = none := by
  have hfits := h.fits slot
  rw [hflight, hready] at hfits
  generalize slotAt d.owed slot = z at hfits
  cases hfits
  rfl

/-- The arrays after a step that changes one slot: `fits`, `keys` and `out`
are about that slot alone. -/
theorem Sound.fits_update (h : Sound key live ok d) {slot : Nat} (hslot : slot < d.flights.length)
    {y : Option (Nat × BlockDone)} {z : Option Nat}
    {requests : List (Nat × BlockOp)} {away : Multiset (Nat × Nat)}
    (hrequests : ∀ (n : Nat) r, d.requests[n]? = some r → requests[n]? = some r)
    (haway : ∀ c n f, c ≠ slot → slotAt d.flights c = some f → (n, key c f) ∈ d.away →
      (n, key c f) ∈ away)
    (hfits : Fits key live requests away slot x y z) (c : Nat) :
    Fits key live requests away c (slotAt (d.flights.set slot x) c)
      (slotAt (d.ready.set slot y) c) (slotAt (d.owed.set slot z) c) := by
  by_cases hc : slot = c
  · subst hc
    rw [slotAt_set hslot, slotAt_set (h.ready ▸ hslot), slotAt_set (h.owed ▸ hslot)]
    exact hfits
  · rw [slotAt_set_ne hc, slotAt_set_ne hc, slotAt_set_ne hc]
    exact (h.fits c).mono hrequests fun n f hf => haway c n f (Ne.symm hc) hf

theorem Sound.keys_update (h : Sound key live ok d) {slot : Nat} (hslot : slot < d.flights.length)
   
    (hx : ∀ f t g, x = some f → t ≠ slot → slotAt d.flights t = some g → key slot f ≠ key t g)
    (s t : Nat) (f g : F) (hf : slotAt (d.flights.set slot x) s = some f)
    (hg : slotAt (d.flights.set slot x) t = some g) (heq : key s f = key t g) : s = t := by
  by_cases hs : slot = s
  · subst hs
    rw [slotAt_set hslot] at hf
    by_contra ht
    rw [slotAt_set_ne ht] at hg
    exact hx f t g hf (Ne.symm ht) hg heq
  · rw [slotAt_set_ne hs] at hf
    by_cases ht : slot = t
    · subst ht
      rw [slotAt_set hslot] at hg
      exact absurd heq.symm (hx g s f hg (Ne.symm hs) hf)
    · rw [slotAt_set_ne ht] at hg
      exact h.keys s t f g hf hg heq

theorem out_update {slot c : Nat} {f : F} (hc : c ≠ slot)
    (hf : slotAt d.flights c = some f) : slotAt (d.flights.set slot x) c = some f := by
  rw [slotAt_set_ne (Ne.symm hc)]
  exact hf

/-- Accepting a request, with what its slot holds afterwards. -/
theorem Sound.accept (h : Sound key live ok d) {slot id : Nat} {op : BlockOp}
    {y : Option BlockDone} {keys : Multiset (Nat × Nat)} (hslot : slot < d.flights.length)
    (hflight : slotAt d.flights slot = none) (hready : slotAt d.ready slot = none)
    (hfits : Fits key live (d.requests ++ [(id, op)]) (keys + d.away) slot x
      (y.map fun done => (id, done)) (some d.requests.length))
    (hkeys : ∀ n k, (n, k) ∈ keys → n = d.requests.length ∧ ∃ f, x = some f ∧ key slot f = k)
    (hfresh : ∀ f, x = some f → key slot f ∉ d.away.map Prod.snd)
    (honce : ((keys + d.away).map Prod.snd).Nodup) :
    Sound key live ok (d.accept slot id op x y keys) where
  ready := by simp only [Desk.accept, length_set, h.ready]
  owed := by simp only [Desk.accept, length_set, h.owed]
  fits := h.fits_update hslot (fun _ _ => getElem?_snoc)
    (fun _ _ _ _ _ hn => mem_add.mpr (.inr hn)) hfits
  keys := h.keys_update hslot fun f t g hx ht hg heq =>
    -- the other flight's key is out, and the new one is not
    hfresh f hx (heq ▸ h.key_out hg)
  out n k hk := by
    rcases mem_add.mp hk with hnew | hold
    · obtain ⟨-, f, hx, hkey⟩ := hkeys n k hnew
      refine ⟨slot, f, ?_, hkey⟩
      show slotAt (d.flights.set slot x) slot = some f
      rw [slotAt_set hslot, hx]
    · obtain ⟨c, f, hf, hkey⟩ := h.out n k hold
      refine ⟨c, f, out_update ?_ hf, hkey⟩
      rintro rfl
      rw [hflight] at hf
      cases hf
  once := honce
  known n k hk := by
    show n < (d.requests ++ [(id, op)]).length
    rw [length_append, length_singleton]
    rcases mem_add.mp hk with hnew | hold
    · obtain ⟨rfl, -⟩ := hkeys n k hnew
      omega
    · have := h.known n k hold
      omega
  home c f n t hf hn ht := by
    have hf : slotAt (d.flights.set slot x) c = some f := hf
    have ht : slotAt (d.owed.set slot (some d.requests.length)) t = some n := ht
    by_cases hc : slot = c
    · -- the key of the new flight is out for the new request, which no other slot owes
      subst hc
      rw [slotAt_set hslot] at hf
      rcases mem_add.mp hn with hnew | hold
      · obtain ⟨rfl, -⟩ := hkeys n _ hnew
        by_contra hne
        rw [slotAt_set_ne (Ne.symm hne)] at ht
        exact lt_irrefl _ (h.owed_lt ht)
      · exact absurd (mem_map.mpr ⟨_, hold, rfl⟩) (hfresh f hf)
    · rw [slotAt_set_ne hc] at hf
      have hold : (n, key c f) ∈ d.away := by
        rcases mem_add.mp hn with hnew | hold
        · obtain ⟨-, g, hx, hkey⟩ := hkeys n _ hnew
          exact absurd (hkey ▸ h.key_out hf) (hfresh g hx)
        · exact hold
      by_cases hslots : slot = t
      · subst hslots
        rw [slotAt_set (h.owed ▸ hslot)] at ht
        cases ht
        exact absurd (h.known _ _ hold) (lt_irrefl _)
      · rw [slotAt_set_ne hslots] at ht
        exact h.home c f n t hf hold ht
  account := by
    have howed := (slotAt_none (h.owed ▸ hslot)).mp (h.free hflight hready)
    show _ + entries (d.owed.set slot (some d.requests.length))
      = Multiset.range (d.requests ++ [(id, op)]).length
    rw [entries_put howed, add_cons, length_append, length_singleton,
      Multiset.range_succ, ← h.account]
    rfl
  answers n id' done hm := by
    obtain ⟨op', hop, hdone⟩ := h.answers n id' done hm
    exact ⟨op', getElem?_snoc hop, hdone⟩

/-- Answering a request, with what its slot holds afterwards and what is still
out. -/
theorem Sound.answer (h : Sound key live ok d) {slot n id : Nat} {done : BlockDone}
    (away : Multiset (Nat × Nat)) (howed : slotAt d.owed slot = some n)
    (hfits : Fits key live d.requests away slot x none none)
    (haway : ∀ c n f, c ≠ slot → slotAt d.flights c = some f → (n, key c f) ∈ d.away →
      (n, key c f) ∈ away)
    (hkeys : ∀ f, x = some f → ∃ g, slotAt d.flights slot = some g ∧ key slot f = key slot g)
    (hout : ∀ n k, (n, k) ∈ away → (n, k) ∈ d.away ∧
      ((∃ g, slotAt d.flights slot = some g ∧ key slot g = k) → ∃ f, x = some f ∧ key slot f = k))
    (honce : (away.map Prod.snd).Nodup) (hdone : Answers ok d.requests n id done) :
    Sound key live ok { d.answer slot n id done x with away := away } := by
  have hslot : slot < d.flights.length := h.owed ▸ slotAt_lt howed
  refine ⟨?_, ?_, ?_, ?_, ?_, honce, ?_, ?_, ?_, ?_⟩
  · simp only [Desk.answer, length_set, h.ready]
  · simp only [Desk.answer, length_set, h.owed]
  · exact h.fits_update hslot (fun _ _ hr => hr) haway hfits
  · refine h.keys_update hslot fun f t g hx ht hg heq => ?_
    obtain ⟨g', hg', hsame⟩ := hkeys f hx
    exact ht (h.keys slot t g' g hg' hg (hsame ▸ heq)).symm
  · intro m k hk
    obtain ⟨hold, hhere⟩ := hout m k hk
    obtain ⟨c, f, hf, hkey⟩ := h.out m k hold
    by_cases hc : c = slot
    · subst hc
      obtain ⟨f', hx, hkey'⟩ := hhere ⟨f, hf, hkey⟩
      refine ⟨c, f', ?_, hkey'⟩
      show slotAt (d.flights.set c x) c = some f'
      rw [slotAt_set hslot, hx]
    · exact ⟨c, f, out_update hc hf, hkey⟩
  · exact fun m k hk => h.known m k (hout m k hk).1
  · intro c f m t hf hm ht
    have hf : slotAt (d.flights.set slot x) c = some f := hf
    have ht : slotAt (d.owed.set slot none) t = some m := ht
    have hold := (hout m _ hm).1
    have hne : slot ≠ t := by
      rintro rfl
      rw [slotAt_set (h.owed ▸ hslot)] at ht
      cases ht
    rw [slotAt_set_ne hne] at ht
    by_cases hc : slot = c
    · subst hc
      rw [slotAt_set hslot] at hf
      obtain ⟨g, hg, hsame⟩ := hkeys f hf
      exact h.home slot g m t hg (hsame ▸ hold) ht
    · rw [slotAt_set_ne hc] at hf
      exact h.home c f m t hf hold ht
  · show ((d.answers ++ [(n, id, done)]).map Prod.fst : Multiset Nat)
      + entries (d.owed.set slot none) = Multiset.range d.requests.length
    rw [← h.account, ← entries_clear (slotAt_some.mp howed), map_append, ← coe_add, ← singleton_add]
    exact add_assoc _ _ _
  · intro m id' done' hm
    rcases mem_append.mp hm with hold | hnew
    · exact h.answers m id' done' hold
    · cases List.mem_singleton.mp hnew
      exact hdone

theorem Sound.rest (h : Sound key live ok d) {slot n : Nat} {f : F} {rest : Multiset (Nat × Nat)}
    (hout : d.away = (n, key slot f) ::ₘ rest) (hf : slotAt d.flights slot = some f) :
    (∀ c m g, c ≠ slot → slotAt d.flights c = some g → (m, key c g) ∈ d.away →
        (m, key c g) ∈ rest) ∧
      (∀ m, (m, key slot f) ∉ rest) ∧ (rest.map Prod.snd).Nodup := by
  have honce := h.once
  rw [hout, Multiset.map_cons, Multiset.nodup_cons] at honce
  refine ⟨fun c m g hc hg hm => ?_, fun m hm => ?_, honce.2⟩
  · rw [hout, Multiset.mem_cons] at hm
    refine hm.resolve_left fun heq => hc ?_
    exact h.keys c slot g f hg hf (congrArg Prod.snd heq)
  · exact honce.1 (mem_map.mpr ⟨_, hm, rfl⟩)

theorem Move.sound (hmove : Move key live ok d d') (h : Sound key live ok d) :
    Sound key live ok d' := by
  cases hmove with
  | @refuse slot id op error room flight ready =>
    refine h.accept room flight ready (.ready getElem?_concat_length) ?_ ?_ ?_
    · exact fun n k hk => absurd hk (notMem_zero _)
    · exact fun f hf => by cases hf
    · rw [zero_add]
      exact h.once
  | @fly slot id op f room flight ready lives fresh =>
    refine h.accept room flight ready (.flying lives getElem?_concat_length ?_) ?_ ?_ ?_
    · exact Multiset.mem_add.mpr (.inl (Multiset.mem_singleton_self _))
    · intro n k hk
      cases Multiset.mem_singleton.mp hk
      exact ⟨rfl, f, rfl, rfl⟩
    · intro g hg
      cases hg
      exact fresh
    · rw [Multiset.singleton_add, Multiset.map_cons, Multiset.nodup_cons]
      exact ⟨fresh, h.once⟩
  | @fumble slot id op f error room flight ready dead fresh =>
    refine h.accept room flight ready (.fumbled (m := d.requests.length) dead ?_
      getElem?_concat_length) ?_ ?_ ?_
    · exact Multiset.mem_add.mpr (.inl (Multiset.mem_singleton_self _))
    · intro n k hk
      cases Multiset.mem_singleton.mp hk
      exact ⟨rfl, f, rfl, rfl⟩
    · intro g hg
      cases hg
      exact fresh
    · rw [Multiset.singleton_add, Multiset.map_cons, Multiset.nodup_cons]
      exact ⟨fresh, h.once⟩
  | @hand slot n id done ready owed =>
    have hfits := h.fits slot
    rw [ready, owed] at hfits
    generalize hx : slotAt d.flights slot = x at hfits ⊢
    refine h.answer d.away owed ?_ (fun _ _ _ _ _ hn => hn) ?_ ?_ h.once ?_
    · cases hfits with
      | ready => exact .free
      | fumbled dead out => exact .late dead out
    · exact fun f hf => ⟨f, hf ▸ hx, rfl⟩
    · rw [hx]
      exact fun m k hk => ⟨hk, fun hg => hg⟩
    · cases hfits with
      | ready request => exact ⟨_, request, .inl ⟨_, rfl⟩⟩
      | fumbled _ _ request => exact ⟨_, request, .inl ⟨_, rfl⟩⟩
  | @expire slot n id op f f' error flight lives dead same owed =>
    have hfits := h.fits slot
    rw [flight, owed] at hfits
    generalize slotAt d.ready slot = y at hfits
    cases hfits with
    | fumbled dead' => rw [lives] at dead'; cases dead'
    | flying lives' request out =>
      cases lives.symm.trans lives'
      refine h.answer d.away owed (.late dead (same ▸ out))
        (fun _ _ _ _ _ hn => hn) ?_ ?_ h.once ⟨op, request, .inl ⟨error, rfl⟩⟩
      · intro g hg
        cases hg
        exact ⟨f, flight, same⟩
      · rintro m k hk
        refine ⟨hk, ?_⟩
        rintro ⟨g, hg, hkey⟩
        cases flight.symm.trans hg
        exact ⟨f', rfl, same.trans hkey⟩
  | @land slot n id op f done rest out flight lives owed right =>
    obtain ⟨hkeep, hgone, honce⟩ := h.rest out flight
    have hfits := h.fits slot
    rw [flight, owed] at hfits
    generalize slotAt d.ready slot = y at hfits
    cases hfits with
    | fumbled dead' => rw [lives] at dead'; cases dead'
    | flying lives' request out' =>
      cases lives.symm.trans lives'
      refine h.answer _ owed .free hkeep (fun g hg => by cases hg) ?_ honce ⟨op, request, right⟩
      intro m k hk
      refine ⟨by rw [out]; exact mem_cons_of_mem hk, ?_⟩
      rintro ⟨g, hg, hkey⟩
      cases flight.symm.trans hg
      exact absurd (hkey ▸ hk) (hgone m)
  | @late slot n f rest out flight dead =>
    obtain ⟨hkeep, hgone, honce⟩ := h.rest out flight
    have hslot := slotAt_lt flight
    have hfits := h.fits slot
    rw [flight] at hfits
    refine ⟨by simp only [length_set, h.ready], by simp only [length_set, h.owed],
      ?_, ?_, ?_, honce, ?_, ?_, h.account, h.answers⟩
    · have hhere : Fits key live d.requests rest slot none (slotAt d.ready slot)
          (slotAt d.owed slot) := by
        generalize slotAt d.ready slot = y at hfits
        generalize slotAt d.owed slot = z at hfits
        cases hfits with
        | flying lives => rw [dead] at lives; cases lives
        | late => exact .free
        | fumbled _ _ request => exact .ready request
      have hall := h.fits_update hslot (fun _ _ hr => hr) hkeep hhere
      rw [set_slotAt, set_slotAt] at hall
      exact hall
    · exact h.keys_update hslot fun f t g hx => by cases hx
    · intro m k hk
      obtain ⟨c, g, hg, hkey⟩ := h.out m k (by rw [out]; exact mem_cons_of_mem hk)
      refine ⟨c, g, out_update ?_ hg, hkey⟩
      rintro rfl
      cases flight.symm.trans hg
      exact absurd (hkey ▸ hk) (hgone m)
    · exact fun m k hk => h.known m k (by rw [out]; exact mem_cons_of_mem hk)
    · intro c g m t hg hm ht
      have hg : slotAt (d.flights.set slot none) c = some g := hg
      have hc : slot ≠ c := by
        rintro rfl
        rw [slotAt_set hslot] at hg
        cases hg
      rw [slotAt_set_ne hc] at hg
      exact h.home c g m t hg (by rw [out]; exact mem_cons_of_mem hm) ht

/-- A driver whose step is a move keeps its desk sound. -/
theorem Sound.moved {e : Desk F} (h : Sound key live ok d) (hmove : Move key live ok d e)
    (hdesk : d' = e) : Sound key live ok d' := hdesk ▸ hmove.sound h

-- == what a driver finds on a desk

section

variable (h : Sound key live ok d)
include h

theorem Sound.handed {slot id : Nat} {done : BlockDone}
    (hpick : pick some d.ready = some (slot, id, done)) :
    slotAt d.ready slot = some (id, done) ∧ ∃ n, slotAt d.owed slot = some n := by
  obtain ⟨a, ha, hsome⟩ := pick_some hpick
  cases hsome
  refine ⟨ha, ?_⟩
  have hfits := h.fits slot
  rw [ha] at hfits
  generalize slotAt d.flights slot = x at hfits
  generalize slotAt d.owed slot = z at hfits
  cases hfits with
  | ready | fumbled => exact ⟨_, rfl⟩

theorem Sound.landing {n k : Nat} (hk : (n, k) ∈ d.away) :
    ∃ slot f, slotAt d.flights slot = some f ∧ key slot f = k ∧
      ((∃ id op, live f = some (id, op) ∧ slotAt d.ready slot = none ∧
          slotAt d.owed slot = some n ∧ d.requests[n]? = some (id, op)) ∨
        live f = none ∧ (slotAt d.ready slot = none → n ∉ entries d.owed)) := by
  obtain ⟨slot, f, hf, rfl⟩ := h.out n k hk
  refine ⟨slot, f, hf, rfl, ?_⟩
  have hfits := h.fits slot
  rw [hf] at hfits
  generalize slotAt d.ready slot = y at hfits
  generalize hz : slotAt d.owed slot = z at hfits
  cases hfits with
  | flying lives request out =>
    cases h.unique hk out
    exact .inl ⟨_, _, lives, rfl, rfl, request⟩
  | late dead =>
    refine .inr ⟨dead, fun _ hn => ?_⟩
    obtain ⟨t, ht⟩ := mem_iff_getElem?.mp (mem_entries.mp hn)
    rw [h.home slot f n t hf hk (slotAt_some.mpr ht), ← slotAt_some, hz] at ht
    cases ht
  | fumbled dead => exact .inr ⟨dead, fun hnone => by cases hnone⟩

theorem Sound.expiring {slot id : Nat} {op : BlockOp}
    (hpick : pick live d.flights = some (slot, id, op)) :
    ∃ f n, slotAt d.flights slot = some f ∧ live f = some (id, op) ∧
      slotAt d.ready slot = none ∧ slotAt d.owed slot = some n := by
  obtain ⟨f, hf, hlive⟩ := pick_some hpick
  have hfits := h.fits slot
  rw [hf] at hfits
  generalize slotAt d.ready slot = y at hfits
  generalize slotAt d.owed slot = z at hfits
  cases hfits with
  | flying => exact ⟨f, _, hf, hlive, rfl, rfl⟩
  | late dead | fumbled dead => rw [hlive] at dead; cases dead

theorem Sound.owed_none (hready : pick some d.ready = none)
    (hlive : pick live d.flights = none) : entries d.owed = 0 := by
  rw [eq_zero_iff_forall_notMem]
  intro n hn
  obtain ⟨slot, hslot⟩ := mem_iff_getElem?.mp (mem_entries.mp hn)
  have hfits := h.fits slot
  rw [slotAt_some.mpr hslot] at hfits
  generalize hx : slotAt d.flights slot = x at hfits
  generalize hy : slotAt d.ready slot = y at hfits
  cases hfits with
  | ready | fumbled => cases pick_none hready hy
  | flying lives =>
    rw [pick_none hlive hx] at lives
    cases lives

theorem Sound.grounded (haway : d.away = 0) : pick live d.flights = none := by
  cases hpick : pick live d.flights with
  | none => rfl
  | some found =>
    obtain ⟨slot, id, op⟩ := found
    obtain ⟨f, hf, -⟩ := pick_some hpick
    have hfits := h.fits slot
    rw [hf, haway] at hfits
    generalize slotAt d.ready slot = y at hfits
    generalize slotAt d.owed slot = z at hfits
    cases hfits with
    | flying _ _ out => exact absurd out (notMem_zero _)
    | late _ out | fumbled _ out => exact absurd out (notMem_zero _)

end

theorem card_answered {l : List (Option Nat)} {slot n : Nat} (h : slotAt l slot = some n) :
    (entries (l.set slot none)).card + 1 = (entries l).card := by
  rw [← entries_clear (slotAt_some.mp h), card_cons]

end Desk

end Molt.Block
