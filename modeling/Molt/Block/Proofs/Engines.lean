/-
The virtio and the NVMe engine under the block ring: both are queues as the
ring's driver expects them, and so a flush is a barrier on a real device.

`Plant` is what the two models of a driver with its device have in common,
and `Plant.queue` makes a `Queue` of one. What the device does before a call
and between the turns of `reap`, whether a notification goes through and
whether a wait runs out is a schedule that every call takes its part of. The
requests a plant owns are those its ledger has as asked and not as told.
-/
import Molt.Block.Proofs.Ring
import Molt.Nvme.Proofs.Engine
import Molt.Virtio.Proofs.Block

namespace Molt.Block

open Molt.Lib Molt.Lib.Barrier Bench

/-- What a turn answers. -/
def Pass.told : Pass → Option (Nat × BlockDone)
  | .answer _ id done => some (id, done)
  | _ => none

namespace Ledger

def asked (l : Ledger) : Multiset Ticket := l.requests.map fun (id, op) => (id, op.cell)

def told (l : Ledger) : Multiset Ticket := l.answers.map fun (_, id, done) => (id, done.cell)

/-- The ledger after a request, taken or refused. -/
def Took (l l' : Ledger) (id : Nat) (op : BlockOp) : Except BlockOp Unit → Prop
  | .ok () => ∃ slot, l' = l.enter slot id op
  | .error op' => op' = op ∧ l' = l

/-- The ledger after an answer, if there is one. -/
def Told (l l' : Ledger) : Option (Nat × BlockDone) → Prop
  | none => l' = l
  | some (id, done) => ∃ slot n, slotAt l.owed slot = some n ∧
    l' = l.settle (.answer slot id done)

variable {k k' : Ledger} {id : Nat} {op op' : BlockOp} {done : BlockDone}

theorem Took.owes (h : Took k k' id op (.ok ())) (hle : k.told ≤ k.asked) :
    k'.asked - k'.told = (id, op.cell) ::ₘ (k.asked - k.told) := by
  obtain ⟨slot, rfl⟩ := h
  have hasked : (k.enter slot id op).asked = (id, op.cell) ::ₘ k.asked := by
    rw [asked, enter, List.map_append, ← Multiset.coe_add, add_comm]
    rfl
  rw [hasked, show (k.enter slot id op).told = k.told from rfl, Multiset.cons_sub_of_le _ hle]

theorem Told.owes (h : Told k k' (some (id, done))) (hle : k'.told ≤ k'.asked) :
    k.asked - k.told = (id, done.cell) ::ₘ (k'.asked - k'.told) := by
  obtain ⟨slot, n, howed, rfl⟩ := h
  rw [settle_answer howed] at hle ⊢
  generalize hk : (⟨k.requests, k.owed.set slot none, k.answers ++ [(n, id, done)]⟩ : Ledger) = l
    at hle ⊢
  have hasked : l.asked = k.asked := by rw [← hk, asked, asked]
  have htold : l.told = (id, done.cell) ::ₘ k.told := by
    rw [← hk, told, List.map_append, ← Multiset.coe_add, add_comm]
    rfl
  rw [hasked, htold] at hle ⊢
  have hle' := (Multiset.le_cons_self _ _).trans hle
  refine add_left_cancel (a := k.told) ?_
  rw [add_tsub_cancel_of_le hle', Multiset.add_cons, ← Multiset.cons_add,
    add_tsub_cancel_of_le hle]

end Ledger

/-- A driver `B` with its device, whose moves are `E`. -/
structure Plant (B E : Type) where
  depth : B → Nat
  start : (id : Nat) → BlockOp → (signalled : Bool) → B → Except BlockOp Unit × B
  turn : (expired : Bool) → B → Pass × B
  device : B → E → B
  ledger : B → Ledger

/-- What the device does before a turn, and whether the wait after it runs out. -/
structure Round (E : Type) where
  moves : List E
  expired : Bool

/-- What a call meets. -/
structure Visit (E : Type) where
  moves : List E
  signalled : Bool
  rounds : List (Round E)

namespace Plant

variable {B E : Type} (p : Plant B E)

/-- The loop in `reap`. A schedule that ends leaves the call without an
answer. -/
def reapFrom : List (Round E) → Bool → B → Option (Nat × BlockDone) × B
  | [], _, b => (none, b)
  | round :: rounds, expired, b =>
    match p.turn expired (round.moves.foldl p.device b) with
    | (.answer _ id done, b) => (some (id, done), b)
    | (.again, b) => reapFrom rounds expired b
    | (.wait, b) => reapFrom rounds round.expired b
    | (.idle, b) => (none, b)

/-- Nothing is told that was not asked, and each call enters what it did. -/
structure Kept (Sound : B → Prop) : Prop where
  balance : ∀ {b}, Sound b → (p.ledger b).told ≤ (p.ledger b).asked
  device : ∀ {b}, Sound b → ∀ e, Sound (p.device b e) ∧ p.ledger (p.device b e) = p.ledger b
  start : ∀ {b}, Sound b → ∀ id op signalled, Sound (p.start id op signalled b).2 ∧
    (p.ledger b).Took (p.ledger (p.start id op signalled b).2) id op (p.start id op signalled b).1
  turn : ∀ {b}, Sound b → ∀ expired, Sound (p.turn expired b).2 ∧
    (p.ledger b).Told (p.ledger (p.turn expired b).2) (p.turn expired b).1.told

variable {p} {Sound : B → Prop} (hp : p.Kept Sound)
include hp

theorem Kept.moves (moves : List E) {b : B} (h : Sound b) :
    Sound (moves.foldl p.device b) ∧ p.ledger (moves.foldl p.device b) = p.ledger b := by
  induction moves generalizing b with
  | nil => exact ⟨h, rfl⟩
  | cons e moves ih =>
    obtain ⟨h', hledger⟩ := hp.device h e
    rw [List.foldl_cons, ← hledger]
    exact ih h'

theorem Kept.reapFrom (rounds : List (Round E)) (expired : Bool) {b : B} (h : Sound b) :
    Sound (p.reapFrom rounds expired b).2 ∧
      (p.ledger b).Told (p.ledger (p.reapFrom rounds expired b).2)
        (p.reapFrom rounds expired b).1 := by
  induction rounds generalizing b expired with
  | nil => exact ⟨h, rfl⟩
  | cons round rounds ih =>
    obtain ⟨hmoved, hledger⟩ := hp.moves round.moves h
    have hturn := hp.turn hmoved expired
    rw [Plant.reapFrom, ← hledger]
    revert hturn
    rcases p.turn expired (round.moves.foldl p.device b) with ⟨turned, b'⟩
    rintro ⟨h', htold⟩
    cases turned with
    | answer | idle => exact ⟨h', htold⟩
    | again =>
      rw [← show p.ledger b' = _ from htold]
      exact ih expired h'
    | wait =>
      rw [← show p.ledger b' = _ from htold]
      exact ih round.expired h'

end Plant

/-- A plant in a sound state, with what its next calls meet. -/
structure Site {B : Type} (E : Type) (Sound : B → Prop) where
  bus : B
  sound : Sound bus
  visits : List (Visit E)

namespace Plant

variable {B E : Type} {p : Plant B E} {Sound : B → Prop}

/-- What the next call meets: nothing moves once the schedule has ended. -/
def next (s : Site E Sound) : Visit E := s.visits.headD ⟨[], true, []⟩

/-- The plant as the ring's driver uses it. -/
def queue (hp : p.Kept Sound) : Queue (Site E Sound) where
  depth s := p.depth s.bus
  start id op s :=
    let r := p.start id op (next s).signalled ((next s).moves.foldl p.device s.bus)
    (r.1, ⟨r.2, (hp.start (hp.moves _ s.sound).1 _ _ _).1, s.visits.tail⟩)
  reap s :=
    let r := p.reapFrom (next s).rounds false ((next s).moves.foldl p.device s.bus)
    (r.1, ⟨r.2, (hp.reapFrom _ _ (hp.moves _ s.sound).1).1, s.visits.tail⟩)

variable (p) in
/-- The requests a plant owns. -/
def waiting (s : Site E Sound) : Multiset Ticket := (p.ledger s.bus).asked - (p.ledger s.bus).told

section

variable (hp : p.Kept Sound) (s : Site E Sound)

theorem Kept.took (id : Nat) (op : BlockOp) : (p.ledger s.bus).Took
    (p.ledger ((queue hp).start id op s).2.bus) id op ((queue hp).start id op s).1 := by
  obtain ⟨hmoved, hledger⟩ := hp.moves (next s).moves s.sound
  rw [← hledger]
  exact (hp.start hmoved id op (next s).signalled).2

theorem Kept.told : (p.ledger s.bus).Told
    (p.ledger ((queue hp).reap s).2.bus) ((queue hp).reap s).1 := by
  obtain ⟨hmoved, hledger⟩ := hp.moves (next s).moves s.sound
  rw [← hledger]
  exact (hp.reapFrom (next s).rounds false hmoved).2

end

/-- The contract of `Queue` holds of a plant that keeps its books. -/
theorem Kept.lawful (hp : p.Kept Sound) : (queue hp).Lawful p.waiting where
  started {id op s s'} h := by
    have htook := hp.took s id op
    rw [h] at htook
    exact htook.owes (hp.balance s.sound)
  refused {id op op' s s'} h := by
    have htook := hp.took s id op
    rw [h] at htook
    exact ⟨htook.1, congrArg (fun k : Ledger => k.asked - k.told) htook.2⟩
  reaped {id done s s'} h := by
    have htold := hp.told s
    rw [h] at htold
    exact htold.owes (hp.balance s'.sound)
  idle {s s'} h := by
    have htold := hp.told s
    rw [h] at htold
    exact congrArg (fun k : Ledger => k.asked - k.told) htold

end Plant

-- == what a desk says of the ledger

namespace Desk

theorem finish_cell (op : BlockOp) (result : Except BlockError Unit) :
    (finish op result).cell = op.cell := by
  cases op <;> rfl

theorem landed_cell (bytes : List UInt8) (op : BlockOp) : (landed bytes op).cell = op.cell := by
  cases op <;> rfl

variable {F P : Type} {key : Nat → F → Nat} {live : F → Option (Nat × BlockOp)}
  {request : P → Nat} {well : P → Prop} {bytes : P → List UInt8} {posted : List P} {d : Desk F}

theorem Sound.told_le (h : Sound key live (Given request well bytes posted) d) :
    Ledger.told ⟨d.requests, d.owed, d.answers⟩ ≤ Ledger.asked ⟨d.requests, d.owed, d.answers⟩ := by
  let ticket (n : Nat) : Ticket :=
    ((d.requests[n]?).map fun (id, op) => (id, op.cell)).getD (0, none)
  have hasked : Ledger.asked ⟨d.requests, d.owed, d.answers⟩
      = (Multiset.range d.requests.length).map ticket := by
    refine congrArg Multiset.ofList (List.ext_getElem (by simp) fun n hn _ => ?_)
    have hn : n < d.requests.length := by simpa using hn
    simp [ticket, hn]
  have htold : Ledger.told ⟨d.requests, d.owed, d.answers⟩
      = Multiset.map ticket ((d.answers.map Prod.fst : List Nat) : Multiset Nat) := by
    rw [Ledger.told, Multiset.map_coe, List.map_map]
    refine congrArg Multiset.ofList (List.map_congr_left ?_)
    rintro ⟨n, id, done⟩ hmem
    obtain ⟨op, hop, hdone⟩ := h.answers n id done hmem
    have hcell : done.cell = op.cell := by
      rcases hdone with ⟨error, rfl⟩ | ⟨p, -, -, -, rfl⟩
      · exact finish_cell op _
      · rw [finish_cell, landed_cell]
    simp [ticket, hop, hcell]
  rw [hasked, htold]
  exact Multiset.map_le_map (h.account ▸ Multiset.le_add_right _ _)

/-- What a turn answers was ready, or is a request whose flight is live. -/
def Earned (live : F → Option (Nat × BlockOp)) (flights : List (Option F))
    (ready : List (Option (Nat × BlockDone))) : Pass → Prop
  | .answer slot _ _ =>
    slotAt ready slot ≠ none ∨ ∃ f, slotAt flights slot = some f ∧ live f ≠ none
  | _ => True

/-- A turn settles what its slot owed. -/
theorem Sound.told (h : Sound key live (Given request well bytes posted) d) {l : Ledger}
    (hl : l.owed = d.owed) {pass : Pass} (hpass : Earned live d.flights d.ready pass) :
    l.Told (l.settle pass) pass.told := by
  cases pass with
  | again | wait | idle => exact rfl
  | answer slot id done =>
    have hfits := h.fits slot
    have hslot : slotAt d.ready slot ≠ none ∨
        ∃ f, slotAt d.flights slot = some f ∧ live f ≠ none := hpass
    generalize slotAt d.flights slot = x, slotAt d.ready slot = y, hz : slotAt d.owed slot = z
      at hfits hslot
    rw [← hl] at hz
    cases hfits with
    | free => simp at hslot
    | late dead => simp [dead] at hslot
    | ready | flying | fumbled => exact ⟨slot, _, hz, rfl⟩

end Desk

end Molt.Block

-- == the virtio engine

namespace Molt.Virtio.Block

open Molt.Block Molt.Lib Engine Bus

/-- The moves of the device are the events that are no calls. -/
def plant : Plant Bus Event where
  depth b := b.engine.config.depth
  start id op signalled b := ((b.engine.start id op signalled).1, b.start id op signalled)
  turn expired b := ((b.engine.pass b.ring expired).1, b.reap expired)
  device b
    | .start _ _ _ => b
    | .reap _ => b
    | e => b.step e
  ledger := Bus.toLedger

theorem failOne_earned (e : Engine) (error : BlockError) :
    Desk.Earned Flight.live e.flights e.ready (e.failOne error).1 := by
  unfold failOne
  split
  · trivial
  case h_2 hpick =>
    obtain ⟨hf, hlive⟩ := pick_fail hpick
    exact .inr ⟨_, hf, by simp [hlive]⟩

theorem pass_earned (e : Engine) (device : UsedRing) (expired : Bool) :
    Desk.Earned Flight.live e.flights e.ready (e.pass device expired).1 := by
  unfold Engine.pass
  split
  case h_1 hpick =>
    obtain ⟨a, ha, -⟩ := pick_some hpick
    exact .inl (by simp [ha])
  split
  · unfold consume
    split
    · exact failOne_earned { e with queue := _ } _
    case h_2 hpick =>
      obtain ⟨f, hf, heq⟩ := pick_some hpick
      dsimp only
      split
      · trivial
      split
      · trivial
      case h_2 hop =>
        split at heq <;> cases heq
        exact .inr ⟨_, hf, by simp [Flight.live, hop]⟩
  · dsimp only
    split
    · exact failOne_earned { e with queue := _ } _
    split <;> trivial
  · exact failOne_earned { e with queue := _ } _

theorem device_ledger (b : Bus) (e : Event) : (plant.device b e).toLedger = b.toLedger := by
  cases e with
  | start | reap => rfl
  | take | transfer | complete =>
    dsimp only [plant, Bus.step]
    first | unfold Bus.take | unfold Bus.transfer | unfold Bus.complete
    repeat' split
    all_goals rfl

theorem kept : plant.Kept Sound where
  balance {b} h := h.desk.told_le
  device {b} h e := by
    refine ⟨?_, device_ledger b e⟩
    cases e with
    | start | reap => exact h
    | take => exact take_sound h
    | transfer => exact transfer_sound h _ _ _ _
    | complete => exact complete_sound h _ _
  start {b} h id op signalled := by
    refine ⟨start_sound h id op signalled, ?_⟩
    show b.toLedger.Took (b.start id op signalled).toLedger id op
      (b.engine.start id op signalled).1
    cases hfree : b.engine.freeSlot with
    | none =>
      rw [start_none hfree]
      simp [Engine.start, hfree, Ledger.Took]
    | some slot =>
      cases hop : validate b.engine.config.capacity op with
      | error error =>
        rw [start_ready hfree id hop]
        simp only [Engine.start, hfree, hop]
        exact ⟨slot, rfl⟩
      | ok =>
        obtain ⟨hne, hlen⟩ := length_segments b.engine.config slot op
        rcases push_cases (q := b.engine.queue) hne hlen with hfull | ⟨-, hpush⟩
        · rw [start_full hfree id hop hfull]
          simp [Engine.start, hfree, hop, hfull, Ledger.Took, staged]
        · rw [start_launched hfree id hop rfl hpush]
          simp only [Engine.start, hfree, hop, hpush]
          exact ⟨slot, rfl⟩
  turn {b} h expired := ⟨reap_sound h expired, h.desk.told rfl (pass_earned _ _ _)⟩

end Molt.Virtio.Block

-- == the NVMe engine

namespace Molt.Nvme

open Molt.Block Molt.Lib Engine Bus

/-- The doorbell is always in reach. -/
def plant : Plant Bus Event where
  depth _ := QUEUE_DEPTH
  start id op _ b := ((b.engine.start id op).1, b.start id op)
  turn expired b := ((b.engine.pass expired).1, b.reap expired)
  device b
    | .start _ _ => b
    | .reap _ => b
    | e => b.step e
  ledger := Bus.toLedger

theorem failOne_earned (e : Engine) (error : BlockError) :
    Desk.Earned Flight.live e.flights e.ready (e.failOne error).1 := by
  unfold failOne
  split
  · trivial
  case h_2 hpick =>
    obtain ⟨f, hf, hlive⟩ := pick_some hpick
    exact .inr ⟨f, hf, by simp [hlive]⟩

theorem pass_earned (e : Engine) (expired : Bool) :
    Desk.Earned Flight.live e.flights e.ready (e.pass expired).1 := by
  unfold Engine.pass
  split
  case h_1 hpick =>
    obtain ⟨a, ha, -⟩ := pick_some hpick
    exact .inl (by simp [ha])
  split
  · obtain ⟨hrung, hflights, -, hready⟩ := advance_keeps e
    unfold consume
    simp only [hrung, hflights, Bool.not_true, Bool.false_eq_true, if_false]
    split
    · have hfailed := failOne_earned e.advance.2 .device
      rwa [hflights, hready] at hfailed
    case h_2 f hf =>
      split
      · trivial
      case h_2 hop => split <;> exact .inr ⟨f, hf, by simp [Flight.live, hop]⟩
  split
  · exact failOne_earned e _
  split <;> trivial

theorem device_ledger (b : Bus) (e : Event) : (plant.device b e).toLedger = b.toLedger := by
  cases e with
  | start | reap => rfl
  | fetch | transfer | complete =>
    dsimp only [plant, Bus.step]
    first | unfold Bus.fetch | unfold Bus.transfer | unfold Bus.complete
    repeat' split
    all_goals rfl

theorem kept : plant.Kept Sound where
  balance {b} h := h.desk.told_le
  device {b} h e := by
    refine ⟨?_, device_ledger b e⟩
    cases e with
    | start | reap => exact h
    | fetch => exact fetch_sound h
    | transfer => exact transfer_sound h _ _ _
    | complete => exact complete_sound h _ _
  start {b} h id op _ := by
    refine ⟨start_sound h id op, ?_⟩
    show b.toLedger.Took (b.start id op).toLedger id op (b.engine.start id op).1
    cases hfree : b.engine.freeSlot with
    | none =>
      rw [start_refused hfree]
      simp [Engine.start, hfree, Ledger.Took]
    | some slot =>
      cases hop : validate b.engine.space op with
      | error error =>
        rw [start_ready hfree id hop]
        simp only [Engine.start, hfree, hop]
        exact ⟨slot, rfl⟩
      | ok =>
        rw [start_flying hfree id hop]
        simp only [Engine.start, hfree, hop, Registers.access_submission, if_true]
        exact ⟨slot, rfl⟩
  turn {b} h expired := ⟨reap_sound h expired, h.desk.told rfl (pass_earned _ _)⟩

end Molt.Nvme

namespace Molt.Block

open Molt.Core Molt.Lib.Barrier Bench

section

variable {Q : Type} {q : Queue Q} {waiting : Q → Multiset Ticket} {n : Nat}

/-- A run submits no more than it has calls of `submit`. -/
theorem Bench.Sound.run_submits (hq : q.Lawful waiting) (hn : n < 2 ^ 64) (acts : List Act)
    {b : Bench Q} {subs : List Request} {comps : List Answer}
    (h : Sound n waiting b subs comps)
    (hapart : Apart n ((submitted b.log).length + submits acts)) :
    (submitted (b.run q acts).log).length ≤ (submitted b.log).length + submits acts := by
  induction acts generalizing b subs comps with
  | nil => exact Nat.le_add_right _ _
  | cons act rest ih =>
    have hsum : submits (act :: rest) = submits [act] + submits rest := by
      simp only [submits, List.countP_cons, List.countP_nil]
      omega
    rw [hsum] at hapart ⊢
    obtain ⟨hle, subs', comps', h'⟩ := h.call hq hn act (hapart.mono (by omega))
    have hrest := ih h' (hapart.mono (by omega))
    show (submitted ((b.call q act).run q rest).log).length ≤ _
    omega

end

/-- The loops of the driver end by themselves: in every state of every run,
over any lawful device, rounds beyond those `drain`, `feed` and `pump` run
for change nothing. -/
theorem pump_ends_by_itself {Q : Type} (q : Queue Q) (waiting : Q → Multiset Ticket)
    (hq : q.Lawful waiting) (device : Q) (hd : waiting device = 0) (n : Nat) (hn : n < 2 ^ 64)
    (acts : List Act) (hapart : Apart n (submits acts)) (extra : Nat) :
    let b := (channel n device).run q acts
    b.drainFrom q (b.driver.outstanding + 2 + extra) false = b.drain q
    ∧ b.feedFrom q (b.backlog + 2 + extra) false = b.feed q
    ∧ b.pumpFrom q (2 * b.backlog + b.driver.outstanding + 5 + extra) = b.pump q := by
  intro b
  have hnew := Sound.channel (n := n) hd
  have hapart : Apart n ((submitted (channel n device).log).length + submits acts) := by
    simpa [Bench.channel, submitted] using hapart
  obtain ⟨subs, comps, h⟩ := Sound.run hq hn acts hnew hapart
  have hle := hnew.run_submits hq hn acts hapart
  exact h.loops_end hq hn (hapart.mono hle) extra

theorem pump_ends_by_itself_serial :
    let b := (channel 4 (.new 1 ())).run serial [.submit .flush, .submit .flush]
    b.backlog = 2 ∧ b.pumpFrom serial (2 * b.backlog + b.driver.outstanding + 5 + 1)
      = b.pump serial :=
  ⟨rfl, (pump_ends_by_itself serial Queued.owned (Queued.lawful nullDisk) (.new 1 ()) rfl 4
    (by decide) _ (.inl (by decide)) 1).2.2⟩

section

variable (n : Nat) (hn : n < 2 ^ 64) (acts : List Act) (hapart : Apart n (submits acts))
include hn hapart

theorem orderly_on {B E : Type} {p : Plant B E} {S : B → Prop} (hp : p.Kept S)
    (s : Site E S) (hs : p.waiting s = 0) :
    Orderly requestTicket answerTicket isFlush
      ((channel n s).run (Plant.queue hp) acts).log := by
  obtain ⟨subs, comps, h⟩ := Sound.run hp.lawful hn acts (Sound.channel (n := n) hs)
    (by simpa [Bench.channel, submitted] using hapart)
  exact h.tracks.orderly

/-- The ring over either engine, whatever its device does and whenever: requests
reach the device in order and once, answers come back once, and a flush runs
alone. A request that timed out is one that was answered. -/
theorem engines_keep_the_barrier :
    (∀ c mem visits, Orderly requestTicket answerTicket isFlush
      ((channel n ⟨.new c mem, Virtio.Block.new_sound c mem, visits⟩).run
        (Plant.queue Virtio.Block.kept) acts).log)
    ∧ ∀ registers space iova data visits, Orderly requestTicket answerTicket isFlush
      ((channel n ⟨.new registers space iova data, Nvme.new_sound registers space iova data,
        visits⟩).run (Plant.queue Nvme.kept) acts).log :=
  ⟨fun _ _ _ => orderly_on n hn acts hapart _ _ rfl,
    fun _ _ _ _ _ => orderly_on n hn acts hapart _ _ rfl⟩

end

theorem engines_keep_the_barrier_flush :
    (1 : Nat) < 2 ^ 64 ∧ ∀ c mem visits, Orderly requestTicket answerTicket isFlush
      ((channel 1 ⟨.new c mem, Virtio.Block.new_sound c mem, visits⟩).run
        (Plant.queue Virtio.Block.kept) [.submit .flush, .pump]).log :=
  ⟨by decide, (engines_keep_the_barrier 1 (by decide) _ (.inl (by decide))).1⟩

end Molt.Block
