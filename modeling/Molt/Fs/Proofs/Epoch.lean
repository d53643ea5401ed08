/-
Handles across a restart of the service.

# Histories

A history is the requests made of a mounted service and what came of each:
the answer and the state it left. A request that never returns ends it.
`Service::publish` is `root`, `seal` and a call on a registry the service
does not look at again, so it is not a request of its own.

# What a restart does to names

The table a restart puts in place has every slot at its first generation, as
the table of a mount has. An empty table of that kind stays as it is until a
root is handed out (`request_fresh`), and that root is always slot 0 at
generation 1 (`insert_new`). So the first handle of one epoch and the first
handle of the next are one word, and a restart leaves the old handles stale
exactly when one of the two epochs hands out nothing (`stale_after_restart_iff`).
-/
import Molt.Fs.Format
import Molt.Fs.Proofs.Store
import Molt.Fs.Service
import Molt.Core.Proofs.Capability

namespace Molt.Fs

open Lib Molt.Core CapabilityTable

-- == histories

inductive Request where
  | root (owner : CellId)
  | sealRoot
  | apply (owner : CellId) (op : FsOp) (buffers : BufferRegistry)
  | revoke (owner : CellId)
  | restart

inductive Reply where
  | root (c : Capability)
  | sealed
  | done (d : FsDone)
  | revoked (handles : Nat)
  | restarted
  deriving DecidableEq

def Reply.handle : Reply → Option Handle
  | .root c => some (.dir c)
  | .done d => d.handle
  | _ => none

/-- One request of a history, its answer, and the service after it. -/
structure Turn where
  request : Request
  answer : Except FsError Reply
  after : Service

def Turn.handle (t : Turn) : Option Handle :=
  match t.answer with
  | .ok reply => reply.handle
  | .error _ => none

namespace Service

/-- Service code on lent buffers, which go back to their owner. -/
def lend {α : Type} (buffers : BufferRegistry) (x : LentM α) : ServiceM α := fun fs =>
  match x ⟨fs, buffers⟩ with
  | .ok a s => .ok a s.fs
  | .error e s => .error e s.fs

def request : Request → ServiceM Reply
  | .root owner => Reply.root <$> root owner
  | .sealRoot => do
      sealRoot
      pure .sealed
  | .apply owner op buffers => Reply.done <$> lend buffers (apply owner op)
  | .revoke owner => Reply.revoked <$> revoke owner
  | .restart => do
      restart
      pure .restarted

def history : Service → List Request → List Turn
  | _, [] => []
  | fs, r :: rest =>
    match attempt (request r) fs with
    | .ok answer after => ⟨r, answer, after⟩ :: history after rest
    | .error _ _ => []

def final (fs : Service) (turns : List Turn) : Service := turns.foldl (fun _ t => t.after) fs

/-- The handles a history handed out. -/
def issued (turns : List Turn) : List Handle := turns.filterMap Turn.handle

/-- Every operation on `handle` is turned away at the table. -/
def Refuses (fs : Service) (handle : Handle) : Prop :=
  ∀ owner op buffers, op.target = some handle →
    ∃ e, apply owner op ⟨fs, buffers⟩ = .error (.error (.handle e)) ⟨fs, buffers⟩

-- == the fresh table

section Fresh

variable {n : Nat} {fs : Service}

theorem get_new (mask : Rights) (c : Capability) :
    ∃ e, (new n : CapabilityTable OpenObject).get mask c = .error e := by
  by_cases h : c.index < n
  · refine ⟨.stale, ?_⟩
    simp [CapabilityTable.get, CapabilityTable.validate, CapabilityTable.new, h,
      Slot.empty, bind, Except.bind]
  · refine ⟨.invalid, ?_⟩
    simp [CapabilityTable.get, CapabilityTable.validate, CapabilityTable.new, h, bind, Except.bind]

theorem revoke_new {mask : Rights} (hmask : mask = DIR) (c : Capability) :
    ∃ e, (new n : CapabilityTable OpenObject).revoke mask c
      = (.error e, .new n) := by
  subst hmask
  unfold CapabilityTable.revoke
  by_cases h : c.index < n
  · have hslot : (new n : CapabilityTable OpenObject).slots[c.index]?
        = some .empty := by simp [new, h]
    rw [hslot]
    dsimp only
    split
    · exact ⟨_, rfl⟩
    · exact ⟨.insufficientRights, by simp [Slot.empty, Rights.contains, Rights.NONE, DIR,
        Rights.READ_WRITE, Rights.READ, Rights.WRITE]⟩
  · refine ⟨.invalid, ?_⟩
    simp [new, h]

theorem revokeOwner_new (owner : CellId) :
    ((new n : CapabilityTable OpenObject).revokeOwner owner).2 = .new n := by
  simp [revokeOwner, revokeWhere, new, Slot.empty]

theorem insert_new {mask : Rights} {owner : CellId} {object : OpenObject}
    {c : Capability} {t : CapabilityTable OpenObject}
    (h : (new n).insert mask owner object = (.ok c, t)) :
    c = .new 0 1 ∧ t.slots[0]? = some ⟨1, owner, mask, some object⟩ := by
  cases n with
  | zero => simp [CapabilityTable.insert, CapabilityTable.new] at h
  | succ n =>
    simp [new, List.replicate_succ, Slot.empty] at h
    obtain ⟨rfl, rfl⟩ := h
    exact ⟨rfl, rfl⟩

-- -- service code on it

variable {α : Type} {x : FsM α} {Q : α → Service → Prop} {E : Halt FsError → Service → Prop}

theorem wp_on (hQ : ∀ a j, Q a { fs with journal := j })
    (hE : ∀ e j, E e { fs with journal := j }) : Wp (on x) fs Q E := by
  unfold on
  rw [wp_zoom]
  exact wp_iff.mpr ⟨fun a j _ => hQ a j, fun e j _ => hE e j⟩

theorem get_fresh (h : fs.opened = .new n) (mask : Rights) (c : Capability) :
    ∃ e, get mask c fs = .error (.error (.handle e)) fs := by
  obtain ⟨e, he⟩ := get_new (n := n) mask c
  refine ⟨e, ?_⟩
  unfold get
  rw [h, he]

theorem drop_fresh (h : fs.opened = .new n) {mask : Rights} (hmask : mask = DIR)
    (c : Capability) : ∃ e, drop mask c fs = .error (.error (.handle e)) fs := by
  obtain ⟨e, he⟩ := revoke_new (n := n) hmask c
  refine ⟨e, ?_⟩
  unfold drop
  rw [h, he, ← h]

theorem onFs_error {α : Type} {x : ServiceM α} {e : Halt FsError} {buffers : BufferRegistry}
    (h : x fs = .error e fs) : onFs x ⟨fs, buffers⟩ = .error e ⟨fs, buffers⟩ := by
  unfold onFs zoom
  simp only [h]

theorem lend_onFs {α : Type} (buffers : BufferRegistry) (x : ServiceM α) :
    lend buffers (onFs x) = x := by
  funext fs
  unfold lend onFs zoom
  cases x fs <;> rfl

theorem named_fresh (h : fs.opened = .new n) (handle : Handle) :
    ∃ e, named handle fs = .error (.error (.handle e)) fs := by
  cases handle with
  | dir c => exact get_fresh h DIR c
  | file c => exact get_fresh h FILE c

theorem refuses_fresh (h : fs.opened = .new n) (handle : Handle) : fs.Refuses handle := by
  intro owner op buffers htarget
  cases op with
  | openAt dir name =>
    obtain ⟨e, he⟩ := get_fresh h DIR dir
    exact ⟨e, onFs_error (bind_error he)⟩
  | entry dir index =>
    obtain ⟨e, he⟩ := get_fresh h DIR dir
    exact ⟨e, onFs_error (bind_error he)⟩
  | read file buffer offset | write file buffer offset =>
    obtain ⟨e, he⟩ := get_fresh h FILE file
    exact ⟨e, bind_error (onFs_error he)⟩
  | create dir name kind =>
    obtain ⟨e, he⟩ := get_fresh h DIR dir
    exact ⟨e, onFs_error (bind_error he)⟩
  | sync => cases htarget
  | stat target =>
    obtain ⟨e, he⟩ := named_fresh h target
    exact ⟨e, onFs_error (map_error (bind_error he))⟩
  | close target =>
    cases target with
    | dir c | file c =>
      obtain ⟨e, he⟩ := drop_fresh h rfl c
      exact ⟨e, onFs_error (bind_error he)⟩

theorem not_refuses_first {owner : CellId} {object : OpenObject}
    (h : fs.opened.slots[0]? = some ⟨1, owner, DIR, some object⟩) :
    ¬ fs.Refuses (.dir (.new 0 1)) := by
  intro hr
  obtain ⟨e, he⟩ := hr 0 (.close (.dir (.new 0 1))) (.new 0) rfl
  have hlive := Holding.revoke_live (c := .new 0 1) h (Rights.contains_self DIR)
  have hdrop : drop DIR (.new 0 1) fs
      = .ok () { fs with opened := (fs.opened.revoke DIR (.new 0 1)).2 } := by
    unfold drop
    rw [hlive]
  rw [apply, close] at he
  unfold onFs zoom at he
  dsimp only at he
  rw [bind_ok hdrop] at he
  cases he

-- -- one request

/-- The root was handed out under the first name. -/
structure First (answer : Option Handle) (after : Service) : Prop where
  handle : answer = some (.dir (.new 0 1))
  live : ∃ owner object, after.opened.slots[0]? = some ⟨1, owner, DIR, some object⟩

theorem root_fresh (h : fs.opened = .new n) (owner : CellId) :
    Wp (root owner) fs (fun c after => First (some (.dir c)) after)
      (fun _ after => after.opened = .new n) := by
  unfold root
  simp only [wp_bind, wp_get, wp_ensure]
  refine ⟨fun _ => wp_on (fun object j => ⟨fun _ => ?_, fun _ => h⟩) fun e j => h, fun _ => h⟩
  rw [Wp, insert, h]
  rcases Holding.insert_cases (new n) DIR owner
    (⟨fs.journal.root, object.kind⟩ : OpenObject) with hi | ⟨j, slot, -, -, hi⟩
  · rw [hi]
  · rw [hi]
    obtain ⟨hc, hlive⟩ := insert_new hi
    exact ⟨by rw [hc], _, _, hlive⟩

/-- What a request does to a fresh table: nothing, or it hands out the root
under the first name. -/
theorem request_fresh (h : fs.opened = .new n) (r : Request) :
    Wp (request r) fs (fun reply after =>
        (after.opened = .new n ∧ reply.handle = none) ∨ First reply.handle after)
      (fun _ after => after.opened = .new n) := by
  cases r with
  | root owner =>
    unfold request
    rw [wp_map]
    exact (root_fresh h owner).mono (fun _ _ hf => .inr hf) fun _ _ he => he
  | sealRoot =>
    simp only [request, sealRoot, wp_bind, wp_modify, wp_pure]
    exact .inl ⟨h, rfl⟩
  | apply owner op buffers =>
    unfold request
    rw [wp_map]
    cases htarget : op.target with
    | some handle =>
      obtain ⟨e, he⟩ := refuses_fresh h handle owner op buffers htarget
      rw [Wp, lend, he]
      exact h
    | none =>
      cases op with
      | sync =>
        rw [apply, lend_onFs, wp_map]
        exact wp_on (fun _ _ => .inl ⟨h, rfl⟩) fun _ _ => h
      | _ => cases htarget
  | revoke owner =>
    rw [request, wp_map]
    refine .inl ⟨?_, rfl⟩
    show (fs.opened.revokeOwner owner).2 = _
    rw [h]
    exact revokeOwner_new owner
  | restart =>
    simp only [request, restart, wp_bind, wp_modify, wp_pure]
    refine wp_on (fun _ _ => .inl ⟨?_, rfl⟩) fun _ _ => h
    simp [h, new]

end Fresh

-- == whole histories

section Histories

variable {n : Nat} {fs : Service}

def states (fs : Service) (turns : List Turn) : List Service := fs :: turns.map Turn.after

/-- A history on a fresh table either hands out nothing and leaves the table
as it is all along, or its first handle is the first name, and the state
that handed it out takes it. -/
theorem history_fresh (h : fs.opened = .new n) (requests : List Request) :
    (issued (fs.history requests) = [] ∧ ∀ u ∈ states fs (fs.history requests), u.opened = .new n)
    ∨ (.dir (.new 0 1) ∈ issued (fs.history requests)
      ∧ ∃ u ∈ states fs (fs.history requests), ¬ u.Refuses (.dir (.new 0 1))) := by
  induction requests generalizing fs with
  | nil => exact .inl ⟨rfl, by simpa [history, states] using h⟩
  | cons r rest ih =>
    have hr := request_fresh h r
    unfold history
    cases ha : attempt (request r) fs with
    | error e after => exact .inl ⟨rfl, by simpa [states] using h⟩
    | ok answer after =>
      have hturn : (after.opened = .new n ∧ (Turn.mk r answer after).handle = none)
          ∨ First (Turn.mk r answer after).handle after := by
        have hw : Wp (attempt (request r)) fs
            (fun answer after => (after.opened = .new n
                ∧ (Turn.mk r answer after).handle = none)
              ∨ First (Turn.mk r answer after).handle after) (fun _ _ => True) := by
          rw [wp_attempt]
          refine hr.mono (fun _ _ hq => hq) fun e s he => ?_
          cases e with
          | error e => exact .inl ⟨he, rfl⟩
          | fuel => trivial
        exact hw.ok ha
      dsimp only
      rcases hturn with ⟨hopened, hnone⟩ | hfirst
      · simp only [issued, List.filterMap_cons, hnone]
        rcases ih hopened with ⟨hi, hs⟩ | ⟨hi, u, hu, hru⟩
        · refine .inl ⟨hi, fun u hu => ?_⟩
          simp only [states, List.map_cons, List.mem_cons] at hu hs
          rcases hu with rfl | hu
          · exact h
          · exact hs u hu
        · exact .inr ⟨hi, u, List.mem_cons_of_mem _ hu, hru⟩
      · obtain ⟨owner, object, hlive⟩ := hfirst.live
        refine .inr ⟨?_, after, by simp [states], not_refuses_first hlive⟩
        simp [issued, hfirst.handle]

theorem restart_opened {fs' : Service} (h : restart fs = .ok () fs') :
    fs'.opened = .new fs.opened.slots.length := by
  have hw : Returns restart fs fun _ after => after.opened = .new fs.opened.slots.length := by
    unfold restart
    simp only [wp_bind, wp_modify]
    exact wp_on (fun _ _ => rfl) fun _ _ => trivial
  exact hw.ok h

/-- After a restart every handle of the epochs before it is turned away, in
every state of every later history, if and only if no handle was handed out
before or none is handed out after. -/
theorem stale_after_restart_iff (n : Nat) (journal : Journal)
    (before after : List Request) (fs : Service)
    (h : restart (final (mounted n journal) ((mounted n journal).history before)) = .ok () fs) :
    (∀ handle ∈ issued ((mounted n journal).history before),
        ∀ u ∈ states fs (fs.history after), u.Refuses handle)
      ↔ issued ((mounted n journal).history before) = [] ∨ issued (fs.history after) = [] := by
  have hlater := history_fresh (restart_opened h) after
  refine ⟨fun hall => ?_, fun hor handle hh u hu => ?_⟩
  · have hfresh : (mounted n journal).opened = .new n := rfl
    rcases history_fresh hfresh before with ⟨hnone, -⟩ | ⟨hfirst, -⟩
    · exact .inl hnone
    · rcases hlater with ⟨hnone, -⟩ | ⟨-, u, hu, hru⟩
      · exact .inr hnone
      · exact absurd (hall _ hfirst u hu) hru
  · rcases hor with hnone | hnone
    · rw [hnone] at hh
      cases hh
    · rcases hlater with ⟨-, hfresh⟩ | ⟨hfirst, -⟩
      · exact refuses_fresh (hfresh u hu) handle
      · rw [hnone] at hfirst
        cases hfirst

end Histories

/-- What mounting a device leaves, in a world that refuses nothing. -/
def booted (content : Nat → Sector) (sectors : Nat) : Journal :=
  match Journal.mount (.unmountedOn (.holding content) sectors ⟨fun _ => none, 0, FUEL⟩) with
  | .ok _ journal => journal
  | .error _ journal => journal

/-- A volume built with nothing in it, mounted. -/
def emptyVolume : Journal :=
  match buildWithCapacity [] 1 1 4 with
  | .ok built => booted built.content built.sectors
  | .error _ => booted (fun _ => .raw blank) 0

def rooted : List Turn := (mounted 4 emptyVolume).history [.root 3]

theorem stale_after_restart_iff_rooted :
    ∃ fs, restart (final (mounted 4 emptyVolume) rooted) = .ok () fs
      ∧ issued rooted = [.dir (.new 0 1)]
      ∧ ∀ u ∈ states fs (fs.history []), u.Refuses (.dir (.new 0 1)) := by
  have hissued : issued rooted = [.dir (.new 0 1)] := by decide +kernel
  have hok : (match restart (final (mounted 4 emptyVolume) rooted) with
      | .ok .. => true
      | .error .. => false) = true := by decide +kernel
  split at hok
  case h_1 fs hr =>
    refine ⟨fs, hr, hissued, ?_⟩
    have hstale := (stale_after_restart_iff 4 emptyVolume [.root 3] [] fs hr).mpr (.inr rfl)
    exact hstale _ (by
      show _ ∈ issued rooted
      rw [hissued]
      exact List.mem_singleton.mpr rfl)
  case h_2 => cases hok

/-- A root, a restart, another root: the name of the first root is answered
again, for the object now behind the slot. -/
theorem restarted_service_takes_the_old_root :
    ∃ fs d s, restart (final (mounted 4 emptyVolume) rooted) = .ok () fs
      ∧ .dir (.new 0 1) ∈ issued rooted
      ∧ apply 9 (.stat (.dir (.new 0 1))) ⟨final fs (fs.history [.root 5]), .new 0⟩ = .ok d s := by
  have hissued : .dir (.new 0 1) ∈ issued rooted := by decide +kernel
  have hok : (match restart (final (mounted 4 emptyVolume) rooted) with
      | .ok _ fs => (match apply 9 (.stat (.dir (.new 0 1)))
            ⟨final fs (fs.history [.root 5]), .new 0⟩ with
          | .ok .. => true
          | .error .. => false)
      | .error .. => false) = true := by decide +kernel
  split at hok
  case h_1 fs hr =>
    split at hok
    case h_1 d s ha => exact ⟨fs, d, s, hr, hissued, ha⟩
    case h_2 => cases hok
  case h_2 => cases hok

end Service

end Molt.Fs
