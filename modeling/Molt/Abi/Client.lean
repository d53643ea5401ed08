/-
The program's end of a channel (`user/runtime/src/lib.rs`).

# The client

`Client` numbers its requests and borrows the domain end of the rings; a
`Request` holds the client mutably, so one is live at a time. A poll submits
the call if no poll has, then takes a completion if there is one, and
compares its id. `Domain::submit` asks nobody whether the slot is free.

# The machine

A poll is the accesses of `Domain::write` and `Domain::reply` one by one,
with the kernel's accesses between them. The kernel is honest: what it
publishes is a reply to the first submission it has taken and not answered,
with whatever result it likes. `outcomes` is what the requests resolved to.
-/
import Molt.Abi.Ring

namespace Molt.Abi

/-- A protocol failure detected on the user side. -/
inductive ClientError where
  | wrongCompletion
  deriving DecidableEq

/-- One request; `call` is there until the first poll. -/
structure Request where
  id : UInt64
  call : Option Call
  deriving DecidableEq

structure Outcome where
  id : UInt64
  result : Except ClientError Int64
  deriving DecidableEq

/-- The memory, the kernel and the domain end, the client with the request
that borrows it, whether that one is being polled, and what the requests
resolved to. -/
structure Client where
  ring : Honest
  next : UInt64
  live : Option Request
  polling : Bool
  outcomes : List Outcome

inductive ClientAct where
  | take
  | copy
  /-- The kernel begins to publish its reply to the submission it owes one. -/
  | answer (result : Int64)
  | write
  /-- `Client::request`; the typed constructors choose the operation. -/
  | request (op : Op)
  | poll
  | pollOn
  /-- The live request is dropped. -/
  | drop
  deriving DecidableEq

namespace Client

def new : Client := ⟨.new, 1, none, false, []⟩

def move (n : Nat) (c : Client) (m : Move) : Client := { c with ring := c.ring.step n (.move m) }

/-- The first submission taken and not answered. -/
def owed (c : Client) : Option Words :=
  (tooks c.ring.system.log)[(publisheds c.ring.system.log).length]?

def answer (n : Nat) (c : Client) (result : Int64) : Client :=
  match c.owed with
  | some words => c.move n (.publish ⟨word words 0, result⟩)
  | none => c

def request (c : Client) (op : Op) : Client :=
  match c.live with
  | some _ => c
  | none => { c with live := some ⟨c.next, some ⟨c.next, op⟩⟩, next := c.next + 1 }

/-- `Domain::submit`, up to its first store. -/
def submit (c : Client) (call : Call) : Client :=
  { c with ring := { c.ring with
      domain := { c.ring.domain with sending := some (call.encode, 0) } } }

/-- `Request::poll`, up to the first access. -/
def poll (c : Client) : Client :=
  match c.live, c.polling with
  | some ⟨id, some call⟩, false =>
    { c with live := some ⟨id, none⟩, polling := true }.submit call
  | some ⟨_, none⟩, false => { c with polling := true }
  | _, _ => c

def resolve (c : Client) (id : UInt64) (reply : Reply) : Client :=
  { c with
    live := none
    polling := false
    outcomes := c.outcomes ++
      [⟨id, if reply.id = id then .ok reply.result else .error .wrongCompletion⟩] }

/-- The poll is to take a completion: the load of the tail, or one more word,
or the index and the answer. -/
def replyOn (n : Nat) (c : Client) (id : UInt64) : Client :=
  match c.ring.domain.fetching with
  | none =>
    if c.ring.system.channel.completions.tail = c.ring.domain.head then
      { c with polling := false }
    else { c with ring := c.ring.fetch }
  | some words =>
    let c' := { c with ring := c.ring.fetchOn n }
    if words.length < SLOT_WORDS then c' else c'.resolve id (Reply.decode words)

/-- `Request::poll` goes on by one access. -/
def pollOn (n : Nat) (c : Client) : Client :=
  match c.live, c.polling, c.ring.domain.sending with
  | some _, true, some _ => { c with ring := c.ring.sendOn n }
  | some request, true, none => c.replyOn n request.id
  | _, _, _ => c

def drop (c : Client) : Client :=
  if c.polling then c else { c with live := none }

def step (n : Nat) (c : Client) : ClientAct → Client
  | .take => c.move n .take
  | .copy => c.move n .copy
  | .answer result => c.answer n result
  | .write => c.move n .write
  | .request op => c.request op
  | .poll => c.poll
  | .pollOn => c.pollOn n
  | .drop => c.drop

/-- Any interleaving of a program with an honest kernel. -/
def run (n : Nat) (c : Client) (acts : List ClientAct) : Client := acts.foldl (step n) c

/-- The act drops no request that was polled. -/
def Patient (c : Client) (act : ClientAct) : Prop :=
  act = .drop → ∀ request ∈ c.live, request.call ≠ none

instance (c : Client) (act : ClientAct) : Decidable (c.Patient act) :=
  inferInstanceAs (Decidable (_ → ∀ request ∈ c.live, request.call ≠ none))

/-- No act of the run drops a request that was polled and is not complete. -/
def PatientRun (n : Nat) (c : Client) : List ClientAct → Prop
  | [] => True
  | act :: acts => c.Patient act ∧ PatientRun n (c.step n act) acts

instance decidablePatientRun (n : Nat) :
    (c : Client) → (acts : List ClientAct) → Decidable (c.PatientRun n acts)
  | _, [] => inferInstanceAs (Decidable True)
  | c, act :: acts =>
    have := decidablePatientRun n (c.step n act) acts
    inferInstanceAs (Decidable (c.Patient act ∧ (c.step n act).PatientRun n acts))

end Client

end Molt.Abi
