/-
Every request taken off the filesystem ring is answered once, restarts or
not, as long as no restart begins while a completion is held back.

# The account

An account lists the requests taken off the ring, oldest first, with what
became of each (`Fate`). The records of a desk are read off it: each request
stands in it once, so it is applied at most once and answered at most once,
and the answers are pushed in the order of the requests. A desk that is idle
has no request waiting, and only the completion it holds back is unsent.

# The invariant

`Sound` splits the account into requests that are settled and those still
open, and `Open` says of each place of the server which those are: the one
at hand while it serves, the recorded ones while it is stopped. The queues
of the ring carry what was submitted and not taken, and what was pushed and
not read.

# The restart

`Fs::restart` drops the completion that is held back, and no hook has looked
at it. So the condition is `Clear`: each restart finds nothing held back.
`restart_loses_a_held_completion` is a run where it does not.
-/
import Molt.Core.Proofs.Ring
import Molt.Fs.Proofs.Epoch
import Molt.Fs.Restart

namespace Molt.Fs

open Lib Molt.Core List

-- == what is held back

namespace Service

variable {α β : Type}

/-- Service code that leaves the completion held back alone. -/
def Steady (x : ServiceM α) : Prop := ∀ fs, Keeps x fs fun after => after.pending = fs.pending

theorem Steady.bind {x : ServiceM β} {f : β → ServiceM α} (hx : Steady x)
    (hf : ∀ b, Steady (f b)) : Steady (x >>= f) := by
  intro fs
  refine Keeps.bind (hx fs) (fun b after h => ?_) fun _ h => h
  exact (hf b after).mono fun _ h' => h'.trans h

theorem Steady.map {x : ServiceM β} (f : β → α) (hx : Steady x) : Steady (f <$> x) := by
  intro fs
  unfold Keeps
  rw [wp_map]
  exact hx fs

theorem steady_on (x : FsM α) : Steady (on x) := fun _ => wp_on (fun _ _ => rfl) fun _ _ => rfl

theorem steady_ensure (c : Prop) [Decidable c] (e : FsError) :
    Steady (ensure c e : ServiceM PUnit) := by
  intro fs
  unfold Keeps
  rw [wp_ensure]
  exact ⟨fun _ => rfl, fun _ => rfl⟩

theorem steady_pure (a : α) : Steady (pure a : ServiceM α) := fun _ => rfl

theorem steady_get (mask : Rights) (c : Capability) : Steady (get mask c) := by
  intro fs
  unfold Keeps Wp get
  cases fs.opened.get mask c <;> rfl

theorem steady_insert (mask : Rights) (owner : CellId) (object : OpenObject) :
    Steady (insert mask owner object) := by
  intro fs
  unfold Keeps Wp insert
  rcases fs.opened.insert mask owner object with ⟨_ | _, _⟩ <;> rfl

theorem steady_drop (mask : Rights) (c : Capability) : Steady (drop mask c) := by
  intro fs
  unfold Keeps Wp drop
  rcases fs.opened.revoke mask c with ⟨_ | _, _⟩ <;> rfl

theorem steady_hold (owner : CellId) (id : Nat) (kind : Kind) : Steady (hold owner id kind) := by
  cases kind with
  | dir | file => exact Steady.map _ (steady_insert _ _ _)

theorem steady_object (handle : Handle) : Steady (object handle) := by
  refine Steady.bind ?_ fun object => (steady_on _).bind fun current =>
    (steady_ensure _ _).bind fun _ => steady_pure _
  cases handle with
  | dir c => exact steady_get DIR c
  | file c => exact steady_get FILE c

theorem steady_close (handle : Handle) : Steady (close handle) := by
  cases handle with
  | dir c => exact (steady_drop DIR c).bind fun _ => steady_pure _
  | file c => exact (steady_drop FILE c).bind fun _ => steady_pure _

theorem Steady.onFs {x : ServiceM α} (hx : Steady x) (s : Lent) :
    Keeps (onFs x) s fun after => after.fs.pending = s.fs.pending := by
  unfold Keeps Fs.onFs
  rw [wp_zoom]
  exact hx s.fs

theorem apply_pending (owner : CellId) (op : FsOp) (s : Lent) :
    Keeps (apply owner op) s fun after => after.fs.pending = s.fs.pending := by
  cases op with
  | openAt dir name =>
    refine Steady.onFs ?_ s
    exact (steady_get DIR dir).bind fun _ => (steady_on _).bind fun (_, _) =>
      Steady.map _ (steady_hold _ _ _)
  | entry dir index =>
    refine Steady.onFs ?_ s
    exact (steady_get DIR dir).bind fun _ => steady_on _
  | read file buffer offset =>
    refine Keeps.bind ((steady_get FILE file).onFs s) (fun object s1 h1 => ?_) fun _ h => h
    unfold Keeps
    simp only [wp_bind, wp_get, wp_lift]
    refine ⟨fun target _ => ?_, fun _ _ => h1⟩
    refine Wp.mono ((steady_on _).onFs s1) (fun _ s2 h2 => ?_) fun _ _ h2 => h2.trans h1
    simp only [wp_modify, wp_pure]
    exact h2.trans h1
  | create dir name kind =>
    refine Steady.onFs ?_ s
    exact (steady_get DIR dir).bind fun _ => (steady_on _).bind fun _ =>
      Steady.map _ (steady_hold _ _ _)
  | write file buffer offset =>
    refine Keeps.bind ((steady_get FILE file).onFs s) (fun object s1 h1 => ?_) fun _ h => h
    unfold Keeps
    simp only [wp_bind, wp_get, wp_lift, wp_map]
    refine ⟨fun source _ => ?_, fun _ _ => h1⟩
    exact Wp.mono ((steady_on _).onFs s1) (fun _ _ h2 => h2.trans h1) fun _ _ h2 => h2.trans h1
  | sync => exact ((steady_on _).map _).onFs s
  | stat handle => exact ((steady_object handle).map _).onFs s
  | close handle => exact (steady_close handle).onFs s

theorem restart_pending (fs : Service) :
    Wp restart fs (fun _ after => after.pending = none)
      fun _ after => after.pending = fs.pending := by
  unfold restart
  rw [wp_bind]
  exact wp_on (fun _ _ => rfl) fun _ _ => rfl

end Service

-- == the account

/-- What became of a request that was taken off the ring. -/
inductive Fate where
  /-- Not run, and not answered. -/
  | waiting
  /-- Run, and its completion not pushed. -/
  | applied (result : FsResult)
  | answered (result : FsResult)
  | cancelled
  /-- Counted by `unanswered()`. -/
  | unanswered

structure Entry where
  request : Submission FsOp
  fate : Fate

namespace Entry

def ran (e : Entry) : Option (Completion FsResult) :=
  match e.fate with
  | .applied r => some ⟨e.request.id, r⟩
  | .answered r => some ⟨e.request.id, r⟩
  | _ => none

def answer (e : Entry) : Option (Completion FsResult) :=
  match e.fate with
  | .answered r => some ⟨e.request.id, r⟩
  | .cancelled => some (Desk.cancelled e.request.id)
  | _ => none

def unsent (e : Entry) : Option (Completion FsResult) :=
  match e.fate with
  | .applied r => some ⟨e.request.id, r⟩
  | _ => none

/-- Its client was answered, or `unanswered()` counts it. -/
def settled (e : Entry) : Bool :=
  match e.fate with
  | .waiting => false
  | .applied _ => false
  | _ => true

def missed (e : Entry) : Bool :=
  match e.fate with
  | .unanswered => true
  | _ => false

def wait (s : Submission FsOp) : Entry := ⟨s, .waiting⟩

def miss (s : Submission FsOp) : Entry := ⟨s, .unanswered⟩

theorem unsent_of_settled {e : Entry} (h : e.settled) : e.unsent = none := by
  obtain ⟨s, fate⟩ := e
  cases fate <;> first | rfl | cases h

/-- The requests a restart has to answer, and those it cannot. -/
def owing (ss ts : List (Submission FsOp)) : List Entry := ss.map wait ++ ts.map miss

section Owing

variable (ss ts : List (Submission FsOp))

@[simp] theorem request_owing : (owing ss ts).map request = ss ++ ts := by
  simp [owing, wait, miss, Function.comp_def]

@[simp] theorem ran_owing : (owing ss ts).filterMap ran = [] := by
  simp [owing, wait, miss, ran]

@[simp] theorem answer_owing : (owing ss ts).filterMap answer = [] := by
  simp [owing, wait, miss, answer]

@[simp] theorem missed_owing : (owing ss ts).countP missed = ts.length := by
  simp [owing, wait, miss, missed, countP_map, Function.comp_def]

theorem settled_owing : ∀ e ∈ owing [] ts, e.settled := by
  simp [owing, miss, settled]

end Owing

end Entry

namespace Desk

structure Accounted (d : Desk) (l : List Entry) : Prop where
  taken : d.taken = l.map Entry.request
  applied : d.applied = l.filterMap Entry.ran
  pushed : d.pushed = l.filterMap Entry.answer

variable {d d' : Desk} {past o o' : List Entry}

theorem Accounted.change (h : d.Accounted (past ++ o))
    {t : List (Submission FsOp)} {a p : List (Completion FsResult)}
    (ht : d'.taken = d.taken ++ t) (ha : d'.applied = d.applied ++ a)
    (hp : d'.pushed = d.pushed ++ p)
    (hreq : o'.map Entry.request = o.map Entry.request ++ t)
    (hran : o'.filterMap Entry.ran = o.filterMap Entry.ran ++ a)
    (hans : o'.filterMap Entry.answer = o.filterMap Entry.answer ++ p) :
    d'.Accounted (past ++ o') := by
  obtain ⟨h1, h2, h3⟩ := h
  refine ⟨?_, ?_, ?_⟩
  · rw [ht, h1, map_append, map_append, hreq, append_assoc]
  · rw [ha, h2, filterMap_append, filterMap_append, hran, append_assoc]
  · rw [hp, h3, filterMap_append, filterMap_append, hans, append_assoc]

theorem Accounted.pushed_lt {e : Entry} {l : List Entry} (h : d.Accounted l) (he : e ∈ l)
    (hnone : e.answer = none) : d.pushed.length < d.taken.length := by
  rw [h.taken, h.pushed, length_map]
  exact (length_filterMap_lt_length_iff_exists).mpr ⟨e, he, hnone⟩

-- == open requests

/-- The requests `stop` recorded, and those it had no room for. -/
structure Recorded (st : Stopped) (ss ts : List (Submission FsOp)) : Prop where
  owed : ss.map Submission.id = st.owed
  extra : ts.length = st.unanswered
  full : 0 < st.unanswered → st.ids.length ≤ st.taken

/-- The open request of a server that has this completion in its hands. -/
def Unsent : Option (Completion FsResult) → List Entry → Prop
  | none, o => o = []
  | some c, o => ∃ s : Submission FsOp, s.id = c.id ∧ o = [⟨s, .applied c.result⟩]

def Open (held : Option (Completion FsResult)) : Where → List Entry → Prop
  | .idle, o => Unsent held o
  | .entering, o => Unsent held o
  | .serving, o => held = none ∧ o = []
  | .working s, o => held = none ∧ o = [.wait s]
  | .answering c, o => held = none ∧ Unsent (some c) o
  | .stopping st, o => held = none ∧ ∃ ss ts, o = Entry.owing ss ts ∧ Recorded st ss ts
  | .cancelling _ owed, o => held = none ∧ ∃ ss ts, o = Entry.owing ss ts
      ∧ ss.map Submission.id = owed
  | .restarting, o => held = none ∧ o = []

/-- The requests that the restart under way could not answer. -/
def missing : Where → Nat
  | .stopping st => st.unanswered
  | .cancelling st _ => st.unanswered
  | _ => 0

/-- The account of `d` is `past`, which is settled, and then `o`. -/
structure Booked (d : Desk) (past o : List Entry) : Prop where
  account : d.Accounted (past ++ o)
  settled : ∀ e ∈ past, e.settled
  unsettled : Open d.fs.pending d.place o
  missed : (past ++ o).countP Entry.missed = d.reports.sum + missing d.place

/-- The ring carries what was submitted and not taken, and what was pushed
and not read. -/
structure Wired (n : Nat) (d : Desk) (subs : List (Submission FsOp))
    (comps : List (Completion FsResult)) : Prop where
  submitted : d.submitted = d.taken ++ subs
  pushed : d.pushed = d.read ++ comps
  incoming : Carries n d.ring.submissions d.taken.length subs
  outgoing : Carries n d.ring.completions d.read.length comps

variable {n : Nat} {subs : List (Submission FsOp)} {comps : List (Completion FsResult)}

-- -- the ring

theorem Wired.new (n : Nat) (fs : Service) (names : Registry Mount) :
    Wired n (Desk.new n fs names) [] [] :=
  ⟨rfl, rfl, .new n, .new n⟩

section

variable (h : Wired n d subs comps) (hn : n < 2 ^ 64)
include h hn

theorem Wired.submit (hapart : Apart n (d.submitted.length + 1)) (s : Submission FsOp) :
    ∃ subs', Wired n (d.submitGives s (d.ring.trySubmit s)) subs' comps := by
  rw [h.submitted, length_append] at hapart
  rcases h.incoming.trySubmit hn hapart s with ⟨-, hp⟩ | ⟨-, r, hp, hc⟩
  · rw [hp]
    exact ⟨subs, h⟩
  rw [hp]
  refine ⟨subs ++ [s], ?_, h.pushed, hc, h.outgoing⟩
  show d.submitted ++ [s] = _
  rw [h.submitted, append_assoc]
  rfl

theorem Wired.read :
    ∃ comps', Wired n (d.readGives d.ring.tryCompletion) subs comps' := by
  rcases h.outgoing.tryCompletion hn with ⟨-, hp⟩ | ⟨c, comps', r, rfl, hp, hc⟩
  · rw [hp]
    exact ⟨comps, h⟩
  rw [hp]
  refine ⟨comps', h.submitted, ?_, h.incoming, ?_⟩
  · show d.pushed = (d.read ++ [c]) ++ comps'
    rw [h.pushed, append_assoc]
    rfl
  · show Carries n r (d.read ++ [c]).length comps'
    rw [length_append]
    exact hc

theorem Wired.next :
    (subs = [] ∧ d.ring.tryNext = none) ∨
      ∃ s subs' ring, subs = s :: subs' ∧ d.ring.tryNext = some (s, ring)
        ∧ Wired n { d with ring, taken := d.taken ++ [s] } subs' comps := by
  rcases h.incoming.tryNext hn with ⟨hnil, hp⟩ | ⟨s, subs', r, rfl, hp, hc⟩
  · exact .inl ⟨hnil, hp⟩
  refine .inr ⟨s, subs', _, rfl, hp, ?_, h.pushed, ?_, h.outgoing⟩
  · rw [h.submitted, append_assoc]
    rfl
  · rw [length_append]
    exact hc

theorem Wired.complete (hapart : Apart n (d.pushed.length + 1)) (c : Completion FsResult) :
    d.ring.tryComplete c = .error c ∨
      ∃ ring, d.ring.tryComplete c = .ok ring ∧ Wired n (d.push c ring) subs (comps ++ [c]) := by
  rw [h.pushed, length_append] at hapart
  rcases h.outgoing.tryComplete hn hapart c with ⟨-, hp⟩ | ⟨-, r, hp, hc⟩
  · exact .inl hp
  · refine .inr ⟨_, hp, h.submitted, ?_, h.incoming, hc⟩
    show d.pushed ++ [c] = _
    rw [h.pushed, append_assoc]
    rfl

end

-- -- the account

theorem Booked.new {fs : Service} (h : fs.pending = none) (n : Nat) (names : Registry Mount) :
    Booked (Desk.new n fs names) [] [] where
  account := ⟨rfl, rfl, rfl⟩
  settled := by simp
  unsettled := by
    show Unsent fs.pending []
    rw [h]
    rfl
  missed := rfl

theorem Booked.move (h : Booked d past o) (ht : d'.taken = d.taken)
    (ha : d'.applied = d.applied) (hp : d'.pushed = d.pushed) (hr : d'.reports = d.reports)
    (hmissing : missing d'.place = missing d.place)
    (hopen : Open d'.fs.pending d'.place o) : Booked d' past o where
  account := ⟨ht ▸ h.account.taken, ha ▸ h.account.applied, hp ▸ h.account.pushed⟩
  settled := h.settled
  unsettled := hopen
  missed := by
    rw [hr, hmissing]
    exact h.missed

theorem Booked.take (h : Booked d past o) (hplace : d.place = .serving) (s : Submission FsOp)
    (ring : IoRing FsOp FsResult) :
    Booked ({ d with ring, taken := d.taken ++ [s] }.goTo (.working s)) past [.wait s] := by
  have hopen := h.unsettled
  rw [hplace] at hopen
  obtain ⟨hheld, rfl⟩ := hopen
  have hmissed := h.missed
  rw [hplace] at hmissed
  exact { h with
    account := h.account.change (t := [s]) (a := []) (p := []) rfl (by simp [goTo])
      (by simp [goTo]) rfl rfl rfl
    unsettled := ⟨hheld, rfl⟩
    missed := by
      rw [countP_append] at hmissed ⊢
      exact hmissed }

theorem Booked.ran (h : Booked d past o) {s : Submission FsOp} (hplace : d.place = .working s)
    (result : FsResult) {lent : Lent} (hheld : lent.fs.pending = d.fs.pending) :
    Booked (d.returned s result lent) past [⟨s, .applied result⟩] := by
  have hopen := h.unsettled
  rw [hplace] at hopen
  obtain ⟨hnone, rfl⟩ := hopen
  have hmissed := h.missed
  rw [hplace] at hmissed
  exact { h with
    account := h.account.change (t := []) (a := [⟨s.id, result⟩]) (p := [])
      (by simp [returned, setFs]) rfl (by simp [returned, setFs]) rfl rfl rfl
    unsettled := ⟨hheld.trans hnone, s, rfl, rfl⟩
    missed := by
      rw [countP_append] at hmissed ⊢
      exact hmissed }

theorem Booked.sent (d' : Desk) (h : Booked d past o) {c : Completion FsResult}
    (ho : Unsent (some c) o)
    (hmissing : missing d.place = 0) (ht : d'.taken = d.taken) (ha : d'.applied = d.applied)
    (hp : d'.pushed = d.pushed ++ [c]) (hr : d'.reports = d.reports)
    (hplace : d'.place = .serving) (hheld : d'.fs.pending = none) :
    ∃ e : Entry, Booked d' (past ++ [e]) [] := by
  obtain ⟨s, hid, rfl⟩ := ho
  have hmissed := h.missed
  rw [hmissing] at hmissed
  refine ⟨⟨s, .answered c.result⟩, ?_⟩
  exact {
    account := by
      rw [append_nil]
      refine h.account.change (t := []) (a := []) (p := [c]) (by simp [ht]) (by simp [ha]) hp
        rfl rfl ?_
      show [(⟨s.id, c.result⟩ : Completion FsResult)] = [c]
      rw [hid]
    settled := by
      intro e he
      rcases mem_append.mp he with he | he
      · exact h.settled e he
      · rw [mem_singleton.mp he]
        rfl
    unsettled := by
      rw [hplace]
      exact ⟨hheld, rfl⟩
    missed := by
      rw [hplace, hr, append_nil]
      rw [countP_append] at hmissed ⊢
      exact hmissed }

-- -- a restart

theorem owed_set {st : Stopped} (h : st.taken < st.ids.length) (id : Nat) :
    (st.record id).owed = st.owed ++ [id] := by
  unfold Stopped.record Stopped.owed
  rw [if_pos h]
  rw [take_add_one, take_set_of_le le_rfl, getElem?_set_self h, reduceOption_append]
  rfl

theorem Recorded.record {st : Stopped} {ss ts : List (Submission FsOp)}
    (h : Recorded st ss ts) (s : Submission FsOp) :
    ∃ ss' ts', Recorded (st.record s.id) ss' ts' ∧ ss' ++ ts' = ss ++ ts ++ [s] := by
  by_cases hroom : st.taken < st.ids.length
  · have hzero : st.unanswered = 0 := by
      have := h.full
      omega
    have hnil : ts = [] := length_eq_zero_iff.mp (h.extra.trans hzero)
    subst hnil
    refine ⟨ss ++ [s], [], ⟨?_, ?_, ?_⟩, by simp⟩
    · rw [owed_set hroom, map_append, h.owed]
      rfl
    · simp [Stopped.record, hroom, hzero]
    · simp [Stopped.record, hroom, hzero]
  · refine ⟨ss, ts ++ [s], ⟨?_, ?_, ?_⟩, by simp⟩
    · rw [h.owed]
      simp [Stopped.record, hroom, Stopped.owed]
    · simp [Stopped.record, hroom, h.extra]
    · intro _
      simp only [Stopped.record, if_neg hroom]
      omega

theorem Booked.stop (h : Booked d past o) {st : Stopped} (hplace : d.place = .stopping st)
    (s : Submission FsOp) (ring : IoRing FsOp FsResult) :
    ∃ o', Booked ({ d with ring, taken := d.taken ++ [s] }.goTo (.stopping (st.record s.id)))
      past o' := by
  have hopen := h.unsettled
  rw [hplace] at hopen
  obtain ⟨hheld, ss, ts, rfl, hrec⟩ := hopen
  have hmissed := h.missed
  rw [hplace] at hmissed
  obtain ⟨ss', ts', hrec', hsplit⟩ := hrec.record s
  refine ⟨Entry.owing ss' ts', ?_⟩
  exact { h with
    account := h.account.change (t := [s]) (a := []) (p := []) rfl (by simp [goTo])
      (by simp [goTo]) (by simpa using hsplit) (by simp) (by simp)
    unsettled := ⟨hheld, ss', ts', rfl, hrec'⟩
    missed := by
      rw [countP_append, Entry.missed_owing] at hmissed ⊢
      show _ = d.reports.sum + (st.record s.id).unanswered
      have hextra := hrec.extra
      have hextra' := hrec'.extra
      simp only [missing] at hmissed
      omega }

theorem Booked.settle (d' : Desk) (h : Booked d past o) {st st' : Stopped} {id : Nat}
    {rest : List Nat}
    (hplace : d.place = .cancelling st (id :: rest)) (fate : Submission FsOp → Entry)
    {p : List (Completion FsResult)} (hreq : ∀ s, (fate s).request = s)
    (hran : ∀ s, (fate s).ran = none) (hset : ∀ s, (fate s).settled)
    (hans : ∀ s, s.id = id → (fate s).answer.toList = p)
    (hmiss : ∀ s, [fate s].countP Entry.missed + st.unanswered = st'.unanswered)
    (ht : d'.taken = d.taken) (ha : d'.applied = d.applied) (hp : d'.pushed = d.pushed ++ p)
    (hr : d'.reports = d.reports) (hplace' : d'.place = .cancelling st' rest)
    (hfs : d'.fs = d.fs) :
    ∃ past' o', Booked d' past' o' := by
  have hopen := h.unsettled
  rw [hplace] at hopen
  obtain ⟨hheld, ss, ts, rfl, hids⟩ := hopen
  obtain ⟨s, ss, rfl, hid, hrest⟩ := map_eq_cons_iff.mp hids
  have hmissed := h.missed
  rw [hplace] at hmissed
  refine ⟨past ++ [fate s], Entry.owing ss ts, ?_⟩
  exact {
    account := by
      rw [append_assoc]
      refine h.account.change (t := []) (a := []) (p := p) (by simp [ht]) (by simp [ha]) hp ?_ ?_ ?_
      · simp [hreq]
      · simp [hran]
      · simp [← hans s hid, filterMap_cons]
        cases (fate s).answer <;> rfl
    settled := by
      intro e he
      rcases mem_append.mp he with he | he
      · exact h.settled e he
      · rw [mem_singleton.mp he]
        exact hset s
    unsettled := by
      rw [hplace', hfs]
      exact ⟨hheld, ss, ts, rfl, hrest⟩
    missed := by
      rw [hplace', hr]
      have := hmiss s
      simp only [countP_append, Entry.missed_owing, missing] at hmissed ⊢
      omega }

theorem Booked.revoke (h : Booked d past o) {st : Stopped}
    (hplace : d.place = .cancelling st []) : Booked (d.revoke st) (past ++ o) [] := by
  have hopen := h.unsettled
  rw [hplace] at hopen
  obtain ⟨hheld, ss, ts, rfl, hids⟩ := hopen
  obtain rfl := map_eq_nil_iff.mp hids
  have hmissed := h.missed
  rw [hplace] at hmissed
  exact {
    account := by
      rw [append_nil]
      exact ⟨h.account.taken, h.account.applied, h.account.pushed⟩
    settled := by
      intro e he
      rcases mem_append.mp he with he | he
      · exact h.settled e he
      · exact Entry.settled_owing ts e he
    unsettled := ⟨hheld, rfl⟩
    missed := by
      rw [append_nil, hmissed]
      show _ = (d.reports ++ [st.unanswered]).sum + 0
      simp [missing] }

-- == the steps

def Kept (n : Nat) (d : Desk) : Prop := ∃ past o subs comps, Booked d past o ∧ Wired n d subs comps

/-- A completion that was not pushed yet finds the ring in order. -/
theorem Booked.apart (h : Booked d past o) (hw : Wired n d subs comps)
    (hapart : Apart n d.submitted.length) {e : Entry} (he : e ∈ o) (hnone : e.answer = none) :
    Apart n (d.pushed.length + 1) := by
  have hlt := h.account.pushed_lt (mem_append_right past he) hnone
  have hle : d.taken.length ≤ d.submitted.length := by
    rw [hw.submitted, length_append]
    exact Nat.le_add_right _ _
  exact hapart.mono (Nat.le_trans hlt hle)

theorem heldGives_eq (d : Desk) (c : Completion FsResult)
    (x : Except (Completion FsResult) (IoRing FsOp FsResult)) :
    d.heldGives c x = ((d.hold none).goTo (.answering c)).answerGives c x := by
  cases x <;> rfl

section Steps

variable (hb : Booked d past o) (hw : Wired n d subs comps)
include hb hw

theorem kept_serving (hn : n < 2 ^ 64) (hplace : d.place = .serving) :
    Kept n (d.nextGives d.ring.tryNext) := by
  rcases hw.next hn with ⟨-, hp⟩ | ⟨s, subs', ring, -, hp, hw'⟩
  · rw [hp]
    have hopen := hb.unsettled
    rw [hplace] at hopen
    refine ⟨past, o, subs, comps, hb.move rfl rfl rfl rfl ?_ ?_, { hw with }⟩
    · rw [hplace]
      rfl
    · show Unsent d.fs.pending o
      rw [hopen.1]
      exact hopen.2
  · rw [hp]
    exact ⟨past, _, subs', comps, hb.take hplace s ring, { hw' with }⟩

theorem kept_working {s : Submission FsOp} (hplace : d.place = .working s) :
    Kept n (d.applyGives s (Service.apply d.owner s.op ⟨d.fs, d.buffers⟩)) := by
  have hkeep := Service.apply_pending d.owner s.op ⟨d.fs, d.buffers⟩
  cases hres : Service.apply d.owner s.op ⟨d.fs, d.buffers⟩ with
  | ok done lent =>
    exact ⟨past, _, subs, comps, hb.ran hplace (.ok done) (hkeep.ok hres), { hw with }⟩
  | error halt lent =>
    cases halt with
    | error e =>
      exact ⟨past, _, subs, comps, hb.ran hplace (.error e) (hkeep.err hres), { hw with }⟩
    | fuel => exact ⟨past, o, subs, comps, hb, hw⟩

theorem kept_answering (hn : n < 2 ^ 64) (hapart : Apart n d.submitted.length)
    {c : Completion FsResult} (hplace : d.place = .answering c) :
    Kept n (d.answerGives c (d.ring.tryComplete c)) := by
  have hopen := hb.unsettled
  rw [hplace] at hopen
  obtain ⟨hheld, hunsent⟩ := hopen
  have hmem : ∃ e ∈ o, e.answer = none := by
    obtain ⟨s, -, rfl⟩ := hunsent
    exact ⟨_, mem_singleton_self _, rfl⟩
  obtain ⟨e, he, hnone⟩ := hmem
  rcases hw.complete hn (hb.apart hw hapart he hnone) c with hc | ⟨ring, hc, hw'⟩
  · rw [hc]
    refine ⟨past, o, subs, comps, hb.move rfl rfl rfl rfl ?_ hunsent, { hw with }⟩
    rw [hplace]
    rfl
  · rw [hc]
    obtain ⟨e, hb'⟩ := hb.sent (d.answerGives c (.ok ring)) hunsent
      (by rw [hplace]; rfl) rfl rfl rfl rfl rfl hheld
    exact ⟨_, _, subs, comps ++ [c], hb', { hw' with }⟩

theorem kept_entering (hn : n < 2 ^ 64) (hapart : Apart n d.submitted.length)
    (hplace : d.place = .entering) : Kept n d.go := by
  have hopen := hb.unsettled
  rw [hplace] at hopen
  unfold Desk.go
  rw [hplace]
  cases hheld : d.fs.pending with
  | none =>
    rw [hheld] at hopen
    refine ⟨past, o, subs, comps, hb.move rfl rfl rfl rfl ?_ ⟨hheld, hopen⟩, { hw with }⟩
    rw [hplace]
    rfl
  | some c =>
    rw [hheld] at hopen
    have hb' : Booked ((d.hold none).goTo (.answering c)) past o := by
      refine hb.move rfl rfl rfl rfl ?_ ⟨rfl, hopen⟩
      rw [hplace]
      rfl
    show Kept n (d.heldGives c (d.ring.tryComplete c))
    rw [heldGives_eq]
    exact kept_answering hb' ({ hw with }) hn hapart rfl

theorem kept_stopping (hn : n < 2 ^ 64) {st : Stopped} (hplace : d.place = .stopping st) :
    Kept n (d.stopGives st d.ring.tryNext) := by
  rcases hw.next hn with ⟨-, hp⟩ | ⟨s, subs', ring, -, hp, hw'⟩
  · rw [hp]
    have hopen := hb.unsettled
    rw [hplace] at hopen
    obtain ⟨hheld, ss, ts, ho, hrec⟩ := hopen
    refine ⟨past, o, subs, comps, hb.move rfl rfl rfl rfl ?_ ⟨hheld, ss, ts, ho, hrec.owed⟩,
      { hw with }⟩
    rw [hplace]
    rfl
  · rw [hp]
    obtain ⟨o', hb'⟩ := hb.stop hplace s ring
    exact ⟨past, o', subs', comps, hb', { hw' with }⟩

theorem kept_cancelling (hn : n < 2 ^ 64) (hapart : Apart n d.submitted.length)
    {st : Stopped} {id : Nat} {rest : List Nat}
    (hplace : d.place = .cancelling st (id :: rest)) :
    Kept n (d.cancelGives st (cancelled id) rest (d.ring.tryComplete (cancelled id))) := by
  have hopen := hb.unsettled
  rw [hplace] at hopen
  obtain ⟨-, ss, ts, ho, hids⟩ := hopen
  obtain ⟨s, ss, rfl, -, -⟩ := map_eq_cons_iff.mp hids
  have he : Entry.wait s ∈ o := by simp [ho, Entry.owing]
  rcases hw.complete hn (hb.apart hw hapart he rfl) (cancelled id) with hc | ⟨ring, hc, hw'⟩
  · rw [hc]
    obtain ⟨past', o', hb'⟩ := hb.settle (p := [])
      (d.cancelGives st (cancelled id) rest (.error (cancelled id))) hplace Entry.miss
      (fun _ => rfl) (fun _ => rfl) (fun _ => rfl) (fun _ _ => rfl)
      (fun _ => Nat.add_comm _ _) rfl rfl (append_nil _).symm rfl rfl rfl
    exact ⟨past', o', subs, comps, hb', { hw with }⟩
  · rw [hc]
    obtain ⟨past', o', hb'⟩ := hb.settle (p := [cancelled id])
      (d.cancelGives st (cancelled id) rest (.ok ring)) hplace (⟨·, .cancelled⟩)
      (fun _ => rfl) (fun _ => rfl) (fun _ => rfl) (fun _ h => by rw [← h]; rfl)
      (fun _ => Nat.zero_add _) rfl rfl rfl rfl rfl rfl
    exact ⟨past', o', subs, _, hb', { hw' with }⟩

theorem kept_restarting (hplace : d.place = .restarting) :
    Kept n (d.restartGives d.cell.restart) := by
  have hopen := hb.unsettled
  rw [hplace] at hopen
  obtain ⟨hheld, ho⟩ := hopen
  have hend : ∀ cell : FsCell, cell.fs.pending = none → Kept n (d.restartGives (some cell)) := by
    intro cell hcell
    refine ⟨past, o, subs, comps, hb.move rfl rfl rfl rfl ?_ ?_, { hw with }⟩
    · rw [hplace]
      rfl
    · show Unsent cell.fs.pending o
      rw [hcell]
      exact ho
  have hkeep := Service.restart_pending d.cell.fs
  unfold FsCell.restart
  cases d.cell.health with
  | failed => exact hend _ hheld
  | running =>
    cases hres : Service.restart d.cell.fs with
    | ok done fs => exact hend _ (hkeep.ok hres)
    | error halt fs =>
      cases halt with
      | error e => exact hend _ ((hkeep.err hres).trans hheld)
      | fuel => exact ⟨past, o, subs, comps, hb, hw⟩

end Steps

theorem Kept.go (h : Kept n d) (hn : n < 2 ^ 64) (hapart : Apart n d.submitted.length) :
    Kept n d.go := by
  obtain ⟨past, o, subs, comps, hb, hw⟩ := h
  cases hplace : d.place with
  | idle =>
    unfold Desk.go
    rw [hplace]
    exact ⟨past, o, subs, comps, hb, hw⟩
  | entering => exact kept_entering hb hw hn hapart hplace
  | serving =>
    unfold Desk.go
    rw [hplace]
    exact kept_serving hb hw hn hplace
  | working s =>
    unfold Desk.go
    rw [hplace]
    exact kept_working hb hw hplace
  | answering c =>
    unfold Desk.go
    rw [hplace]
    exact kept_answering hb hw hn hapart hplace
  | stopping st =>
    unfold Desk.go
    rw [hplace]
    exact kept_stopping hb hw hn hplace
  | cancelling st owed =>
    unfold Desk.go
    rw [hplace]
    cases owed with
    | nil =>
      exact ⟨_, _, subs, comps, hb.revoke hplace, { hw with }⟩
    | cons id rest => exact kept_cancelling hb hw hn hapart hplace
  | restarting =>
    unfold Desk.go
    rw [hplace]
    exact kept_restarting hb hw hplace

-- == the runs

def Clear (d : Desk) : DeskAct → Prop
  | .restart _ => d.place = .idle → d.fs.pending = none
  | _ => True

/-- Every restart of a run finds no completion held back. -/
def ClearRun : Desk → List DeskAct → Prop
  | _, [] => True
  | d, act :: acts => d.Clear act ∧ ClearRun (d.step act) acts

instance decidableClear (d : Desk) : (act : DeskAct) → Decidable (d.Clear act)
  | .restart _ => inferInstanceAs (Decidable (d.place = .idle → d.fs.pending = none))
  | .submit _ => .isTrue trivial
  | .read => .isTrue trivial
  | .serve _ _ => .isTrue trivial
  | .go => .isTrue trivial

instance decidableClearRun : (d : Desk) → (acts : List DeskAct) → Decidable (ClearRun d acts)
  | _, [] => .isTrue trivial
  | d, act :: acts =>
    have := decidableClearRun (d.step act) acts
    inferInstanceAs (Decidable (d.Clear act ∧ ClearRun (d.step act) acts))

theorem Recorded.new (n : Nat) : Recorded (.new n) [] [] where
  owed := by simp [Stopped.new, Stopped.owed]
  extra := rfl
  full := by simp [Stopped.new]

theorem Kept.step (h : Kept n d) (hn : n < 2 ^ 64) {act : DeskAct} (hclear : d.Clear act)
    (hapart : Apart n (d.submitted.length + deskSubmits [act])) : Kept n (d.step act) := by
  cases act with
  | go => exact h.go hn hapart
  | submit s =>
    obtain ⟨past, o, subs, comps, hb, hw⟩ := h
    obtain ⟨subs', hw'⟩ := hw.submit hn hapart s
    refine ⟨past, o, subs', comps, ?_, hw'⟩
    show Booked (d.submitGives s (d.ring.trySubmit s)) past o
    cases d.ring.trySubmit s with
    | ok ring => exact hb.move rfl rfl rfl rfl rfl hb.unsettled
    | error _ => exact hb
  | read =>
    obtain ⟨past, o, subs, comps, hb, hw⟩ := h
    obtain ⟨comps', hw'⟩ := hw.read hn
    refine ⟨past, o, subs, comps', ?_, hw'⟩
    show Booked (d.readGives d.ring.tryCompletion) past o
    cases d.ring.tryCompletion with
    | some x => exact hb.move rfl rfl rfl rfl rfl hb.unsettled
    | none => exact hb
  | serve owner buffers =>
    show Kept n (d.serve owner buffers)
    unfold Desk.serve
    split
    · rename_i hidle
      obtain ⟨past, o, subs, comps, hb, hw⟩ := h
      have hopen := hb.unsettled
      rw [hidle.1] at hopen
      refine ⟨past, o, subs, comps, hb.move rfl rfl rfl rfl ?_ hopen, { hw with }⟩
      rw [hidle.1]
      rfl
    · exact h
  | restart provider =>
    show Kept n (d.restart provider)
    unfold Desk.restart
    split
    · rename_i hidle
      obtain ⟨past, o, subs, comps, hb, hw⟩ := h
      have hheld := hclear hidle
      have hopen := hb.unsettled
      rw [hidle, hheld] at hopen
      have hmissing : missing d.place = 0 := by
        rw [hidle]
        rfl
      cases d.cell.supervised with
      | running =>
        refine ⟨past, o, subs, comps, hb.move rfl rfl rfl rfl hmissing.symm ?_, { hw with }⟩
        exact ⟨hheld, [], [], hopen, .new _⟩
      | failed =>
        exact ⟨past, o, subs, comps, hb.move rfl rfl rfl rfl hmissing.symm ⟨hheld, hopen⟩,
          { hw with }⟩
    · exact h

theorem go_submitted (d : Desk) : d.go.submitted = d.submitted := by
  unfold Desk.go
  cases d.place with
  | idle => rfl
  | entering =>
    cases d.fs.pending with
    | none => rfl
    | some c =>
      dsimp only
      cases d.ring.tryComplete c <;> rfl
  | serving | stopping =>
    cases d.ring.tryNext <;> rfl
  | working s =>
    dsimp only
    rcases Service.apply d.owner s.op ⟨d.fs, d.buffers⟩ with _ | ⟨_ | _⟩ <;> rfl
  | answering c =>
    dsimp only
    cases d.ring.tryComplete c <;> rfl
  | cancelling st owed =>
    cases owed with
    | nil => rfl
    | cons id rest =>
      dsimp only
      cases d.ring.tryComplete (cancelled id) <;> rfl
  | restarting =>
    cases d.cell.restart <;> rfl

theorem submitted_step (d : Desk) (act : DeskAct) :
    (d.step act).submitted.length ≤ d.submitted.length + deskSubmits [act] := by
  cases act with
  | submit s =>
    show (d.submitGives s (d.ring.trySubmit s)).submitted.length ≤ _
    cases d.ring.trySubmit s with
    | ok ring => simp [submitGives, deskSubmits]
    | error _ => exact Nat.le_add_right _ _
  | read =>
    show (d.readGives d.ring.tryCompletion).submitted.length ≤ _
    cases d.ring.tryCompletion <;> exact le_rfl
  | serve owner buffers =>
    show (d.serve owner buffers).submitted.length ≤ _
    unfold Desk.serve
    split <;> exact le_rfl
  | restart provider =>
    show (d.restart provider).submitted.length ≤ _
    unfold Desk.restart
    split
    · cases d.cell.supervised <;> exact le_rfl
    · exact le_rfl
  | go =>
    show d.go.submitted.length ≤ _
    rw [go_submitted]
    exact Nat.le_add_right _ _

theorem deskSubmits_cons (act : DeskAct) (acts : List DeskAct) :
    deskSubmits (act :: acts) = deskSubmits [act] + deskSubmits acts := by
  unfold deskSubmits
  rw [← countP_append]
  rfl

theorem submitted_run (d : Desk) (acts : List DeskAct) :
    (d.run acts).submitted.length ≤ d.submitted.length + deskSubmits acts := by
  induction acts generalizing d with
  | nil => exact le_rfl
  | cons act acts ih =>
    have hstep := submitted_step d act
    have hrest := ih (d.step act)
    rw [deskSubmits_cons]
    show ((d.step act).run acts).submitted.length ≤ _
    omega

theorem Kept.run (h : Kept n d) (hn : n < 2 ^ 64) (acts : List DeskAct)
    (hclear : d.ClearRun acts) (hapart : Apart n (d.submitted.length + deskSubmits acts)) :
    Kept n (d.run acts) := by
  induction acts generalizing d with
  | nil => exact h
  | cons act acts ih =>
    rw [deskSubmits_cons] at hapart
    have hstep := submitted_step d act
    refine ih (h.step hn hclear.1 (hapart.mono ?_)) hclear.2 (hapart.mono ?_)
    · omega
    · omega

-- -- the server ends

/-- The operation or the remount under way does not return. -/
def Hangs (d : Desk) : Prop :=
  match d.place with
  | .working s => ∃ lent, Service.apply d.owner s.op ⟨d.fs, d.buffers⟩ = .error .fuel lent
  | .restarting => d.cell.restart = none
  | _ => False

def queued (d : Desk) : Nat := d.submitted.length - d.taken.length

/-- A bound on the steps before the server is idle, if no request comes in. -/
def work (d : Desk) : Nat :=
  match d.place with
  | .idle => 0
  | .entering => 3 * d.queued + 2
  | .serving => 3 * d.queued + 1
  | .working _ => 3 * d.queued + 3
  | .answering _ => 3 * d.queued + 2
  | .stopping st => d.queued + st.ids.length + 3
  | .cancelling _ owed => owed.length + 2
  | .restarting => 1

theorem owed_length_le (st : Stopped) : st.owed.length ≤ st.ids.length := by
  refine Nat.le_trans (reduceOption_length_le _) ?_
  rw [length_take]
  exact Nat.min_le_right _ _

theorem Wired.queued_eq (h : Wired n d subs comps) : d.queued = subs.length := by
  rw [queued, h.submitted, length_append]
  omega

theorem go_work (h : Kept n d) (hn : n < 2 ^ 64) (hidle : d.place ≠ .idle)
    (hang : ¬ d.Hangs) : d.go.work < d.work := by
  obtain ⟨past, o, subs, comps, -, hw⟩ := h
  have hq := hw.queued_eq
  unfold Hangs at hang
  unfold Desk.go
  cases hplace : d.place with
  | idle => exact absurd hplace hidle
  | entering =>
    have hd : d.work = 3 * d.queued + 2 := by rw [work, hplace]
    dsimp only
    cases d.fs.pending with
    | none =>
      have : (d.goTo .serving).work = 3 * d.queued + 1 := rfl
      dsimp only
      omega
    | some c =>
      dsimp only
      cases d.ring.tryComplete c with
      | ok ring =>
        have : (d.heldGives c (.ok ring)).work = 3 * d.queued + 1 := rfl
        omega
      | error c' =>
        have : (d.heldGives c (.error c')).work = 0 := rfl
        omega
  | serving =>
    have hd : d.work = 3 * d.queued + 1 := by rw [work, hplace]
    dsimp only
    rcases hw.next hn with ⟨-, hp⟩ | ⟨s, subs', ring, rfl, hp, hw'⟩
    · have : (d.nextGives none).work = 0 := rfl
      rw [hp]
      omega
    · have : (d.nextGives (some (s, ring))).work
          = 3 * (Desk.queued { d with ring, taken := d.taken ++ [s] }) + 3 := rfl
      rw [hp, this, hw'.queued_eq, hd, hq, length_cons]
      omega
  | working s =>
    have hd : d.work = 3 * d.queued + 3 := by rw [work, hplace]
    have hret : ∀ result lent, (d.returned s result lent).work = 3 * d.queued + 2 := fun _ _ => rfl
    rw [hplace] at hang
    dsimp only at hang ⊢
    cases hres : Service.apply d.owner s.op ⟨d.fs, d.buffers⟩ with
    | ok done lent =>
      rw [applyGives, hret]
      omega
    | error halt lent =>
      cases halt with
      | error e =>
        rw [applyGives, hret]
        omega
      | fuel => exact absurd ⟨lent, hres⟩ hang
  | answering c =>
    have hd : d.work = 3 * d.queued + 2 := by rw [work, hplace]
    dsimp only
    cases d.ring.tryComplete c with
    | ok ring =>
      have : (d.answerGives c (.ok ring)).work = 3 * d.queued + 1 := rfl
      omega
    | error c' =>
      have : (d.answerGives c (.error c')).work = 0 := rfl
      omega
  | stopping st =>
    have hd : d.work = d.queued + st.ids.length + 3 := by rw [work, hplace]
    dsimp only
    rcases hw.next hn with ⟨-, hp⟩ | ⟨s, subs', ring, rfl, hp, hw'⟩
    · have : (d.stopGives st none).work = st.owed.length + 2 := rfl
      have := owed_length_le st
      rw [hp]
      omega
    · have hids : (st.record s.id).ids.length = st.ids.length := by
        unfold Stopped.record
        split <;> simp
      have : (d.stopGives st (some (s, ring))).work
          = Desk.queued { d with ring, taken := d.taken ++ [s] }
            + (st.record s.id).ids.length + 3 := rfl
      rw [hp, this, hw'.queued_eq, hd, hq, hids, length_cons]
      omega
  | cancelling st owed =>
    have hd : d.work = owed.length + 2 := by rw [work, hplace]
    cases owed with
    | nil =>
      have : (d.revoke st).work = 1 := rfl
      dsimp only
      omega
    | cons id rest =>
      have hcan : ∀ x, (d.cancelGives st (cancelled id) rest x).work = rest.length + 2 := by
        intro x
        cases x <;> rfl
      dsimp only
      rw [hcan, hd, length_cons]
      omega
  | restarting =>
    have hd : d.work = 1 := by rw [work, hplace]
    rw [hplace] at hang
    dsimp only at hang ⊢
    cases hres : d.cell.restart with
    | some cell =>
      have : (d.restartGives (some cell)).work = 0 := rfl
      omega
    | none => exact absurd hres hang

/-- Left alone, the server comes to rest, unless the filesystem under it
does not return. -/
theorem Kept.comes_to_rest (h : Kept n d) (hn : n < 2 ^ 64)
    (hapart : Apart n d.submitted.length) :
    ∃ k, (d.run (List.replicate k .go)).place = .idle ∨ (d.run (List.replicate k .go)).Hangs := by
  induction hwork : d.work using Nat.strong_induction_on generalizing d with
  | _ w ih =>
    by_cases hidle : d.place = .idle
    · exact ⟨0, .inl hidle⟩
    by_cases hang : d.Hangs
    · exact ⟨0, .inr hang⟩
    · have hlt := go_work h hn hidle hang
      rw [hwork] at hlt
      obtain ⟨k, hk⟩ := ih d.go.work hlt (h.go hn hapart) (by rwa [go_submitted]) rfl
      exact ⟨k + 1, hk⟩

/-- What the account says of a desk that is idle: nothing waits, only the
completion held back is unsent, and `unanswered` counted the others. -/
theorem Booked.idle (h : Booked d past o) (hidle : d.place = .idle) :
    (past ++ o).filterMap Entry.unsent = d.fs.pending.toList
      ∧ (past ++ o).countP (fun e => !e.settled) = d.fs.pending.toList.length
      ∧ (past ++ o).countP Entry.missed = d.reports.sum := by
  have hopen := h.unsettled
  have hmissed := h.missed
  rw [hidle] at hopen hmissed
  have hpast : past.filterMap Entry.unsent = [] := by
    rw [filterMap_eq_nil_iff]
    exact fun e he => Entry.unsent_of_settled (h.settled e he)
  have hnone : past.countP (fun e => !e.settled) = 0 := by
    rw [countP_eq_zero]
    intro e he
    simp [h.settled e he]
  rw [filterMap_append, hpast, countP_append, hnone]
  refine ⟨?_, ?_, hmissed⟩
  · cases hheld : d.fs.pending with
    | none =>
      rw [hheld] at hopen
      obtain rfl : o = [] := hopen
      rfl
    | some c =>
      rw [hheld] at hopen
      obtain ⟨s, hid, rfl⟩ := hopen
      show [(⟨s.id, c.result⟩ : Completion FsResult)] = [c]
      rw [hid]
  · cases hheld : d.fs.pending with
    | none =>
      rw [hheld] at hopen
      obtain rfl : o = [] := hopen
      rfl
    | some c =>
      rw [hheld] at hopen
      obtain ⟨s, hid, rfl⟩ := hopen
      rfl

-- == results

/-- In every run whose restarts find no completion held back, the server
takes the requests in the order they were submitted, and there is an account
of those it took with one entry each: what was applied and what was pushed
is read off it in that order. A request is thus applied at most once and
answered at most once, under its own id. An idle server has settled all of
them but the one whose completion it holds back, and `unanswered()` counted
those without an answer. A server at work comes to rest if the filesystem
under it returns. -/
theorem every_request_is_answered_once {r : Nat} (hr : r < 2 ^ 64) (fs : Service)
    (hfs : fs.pending = none) (names : Registry Mount) (acts : List DeskAct)
    (hapart : Apart r (deskSubmits acts)) (hclear : ClearRun (.new r fs names) acts) :
    let d := (Desk.new r fs names).run acts
    d.taken <+: d.submitted ∧ d.read <+: d.pushed
      ∧ (∃ l, d.Accounted l ∧ (d.place = .idle →
          l.filterMap Entry.unsent = d.fs.pending.toList
            ∧ l.countP (fun e => !e.settled) = d.fs.pending.toList.length
            ∧ l.countP Entry.missed = d.reports.sum))
      ∧ ∃ k, (d.run (List.replicate k .go)).place = .idle
          ∨ (d.run (List.replicate k .go)).Hangs := by
  intro d
  have hstart : Kept r (Desk.new r fs names) := ⟨_, _, _, _, .new hfs r names, .new r fs names⟩
  have hzero : (Desk.new r fs names).submitted.length + deskSubmits acts
      = deskSubmits acts := Nat.zero_add _
  have hkept : Kept r d := hstart.run hr acts hclear (by rwa [hzero])
  have hcount : d.submitted.length ≤ deskSubmits acts := by
    rw [← hzero]
    exact submitted_run _ acts
  obtain ⟨past, o, subs, comps, hb, hw⟩ := id hkept
  refine ⟨?_, ?_, ⟨past ++ o, hb.account, hb.idle⟩, hkept.comes_to_rest hr (hapart.mono hcount)⟩
  · rw [hw.submitted]
    exact prefix_append _ _
  · rw [hw.pushed]
    exact prefix_append _ _

def opening (r : Nat) : Desk := .new r (.mounted 2 Service.emptyVolume) (.new .READ 1)

/-- A request for `sync`, and a call of `serve` that runs it and returns. -/
def syncServed (id : Nat) : List DeskAct :=
  [.submit ⟨id, .sync⟩, .serve 0 (.new 0), .go, .go, .go, .go, .go]

def answeredThenCancelled : List DeskAct :=
  syncServed 1 ++ [.read, .submit ⟨2, .sync⟩, .restart 0, .go, .go, .go, .go, .go]

theorem every_request_is_answered_once_cancelled :
    let d := (opening 1).run answeredThenCancelled
    d.place = .idle ∧ d.taken.map Submission.id = [1, 2]
      ∧ d.pushed.map Completion.id = [1, 2]
      ∧ ∃ l, d.Accounted l ∧ l.countP (fun e => !e.settled) = 0 := by
  intro d
  have hidle : d.place = .idle := by decide +kernel
  have hheld : d.fs.pending.toList.length = 0 := by decide +kernel
  obtain ⟨-, -, ⟨l, hl, hrest⟩, -⟩ := every_request_is_answered_once (r := 1) (by decide)
    (.mounted 2 Service.emptyVolume) rfl (.new .READ 1) answeredThenCancelled
    (.inl (one_dvd _)) (by decide +kernel)
  refine ⟨hidle, by decide +kernel, by decide +kernel, l, hl, ?_⟩
  exact (hrest hidle).2.1.trans hheld

/-- The second completion finds the queue full and is held back, and then
the cell is restarted. -/
def heldThenRestarted : List DeskAct := syncServed 1 ++ syncServed 2 ++ [.restart 0, .go, .go, .go]

/-- What the client tries to be answered. -/
def askAgain : List DeskAct := [.read, .read, .serve 0 (.new 0), .go, .go, .read]

/-- On a ring of one place: request 2 is taken and applied, the restart
comes back, and no completion for 2 is ever pushed, nor does `unanswered()`
count it. -/
theorem restart_loses_a_held_completion :
    let d := (opening 1).run (heldThenRestarted ++ askAgain)
    d.place = .idle ∧ d.cell.health = .running ∧ d.fs.pending = none
      ∧ d.taken.map Submission.id = [1, 2] ∧ d.applied.map Completion.id = [1, 2]
      ∧ d.pushed.map Completion.id = [1] ∧ d.read.map Completion.id = [1]
      ∧ d.reports = [0] ∧ d.cell.generation = 1 := by
  decide +kernel

end Desk

end Molt.Fs
