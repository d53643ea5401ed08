/-
The rings over memory an untrusted domain also writes (`abi/src/ring.rs`).

# The memory

A channel is two rings, each a producer index, a consumer index and slots of
eight words. Indices are `u32` and wrap; an index names the slot at its low
bits. Every load and every store of the source is one access to one word, and
the domain may write any word between any two of them.

# The kernel's end

`Submissions::take` loads the producer's index, copies the slot word by word
and publishes its own index; `Completions::publish` loads the consumer's
index, writes the slot word by word and publishes its own. `Kernel` is the
private halves of both ends with how far each is in a call, and a `Move` goes
on by one access. The log records each access and each answer.

# The honest domain

`Honest` adds a domain that keeps to the protocol of `Domain::write` and
`Domain::reply`: it writes a slot only while that slot is free, then its
tail, and takes the replies in order. Its accesses are among those any
domain may make.
-/
import Molt.Abi.Wire

namespace Molt.Abi

-- == indices

/-- `u32::wrapping_add(1)`. -/
@[irreducible] def bump (i : Nat) : Nat := (i + 1) % 2 ^ 32

/-- `u32::wrapping_sub`. -/
@[irreducible] def ahead (a b : Nat) : Nat := (a + 2 ^ 32 - b) % 2 ^ 32

/-- The slot an index names: `index as usize & (N - 1)`. -/
def place (n index : Nat) : Nat := index &&& (n - 1)

-- == memory

/-- The shared layout: two indices, then the slots. -/
structure Ring where
  tail : Nat
  head : Nat
  slots : Nat → Nat → UInt64

namespace Ring

def new : Ring := ⟨0, 0, fun _ _ => 0⟩

/-- Word `w` of slot `s` becomes `v`. -/
def store (r : Ring) (s w : Nat) (v : UInt64) : Ring :=
  { r with slots := fun s' w' => if s' = s ∧ w' = w then v else r.slots s' w' }

end Ring

/-- The submission and completion rings of one domain. -/
structure Channel where
  submissions : Ring
  completions : Ring

inductive Side where
  | submissions
  | completions
  deriving DecidableEq

/-- One word of the shared memory. -/
inductive Loc where
  | tail (side : Side)
  | head (side : Side)
  | slot (side : Side) (s w : Nat)
  deriving DecidableEq

namespace Channel

def new : Channel := ⟨.new, .new⟩

def onRing (c : Channel) (f : Ring → Ring) : Side → Channel
  | .submissions => { c with submissions := f c.submissions }
  | .completions => { c with completions := f c.completions }

/-- A store to one word; an index is 32 bits wide. -/
def poke (c : Channel) : Loc → UInt64 → Channel
  | .tail side, v => c.onRing (fun r => { r with tail := v.toNat % 2 ^ 32 }) side
  | .head side, v => c.onRing (fun r => { r with head := v.toNat % 2 ^ 32 }) side
  | .slot side s w, v => c.onRing (fun r => r.store s w v) side

end Channel

-- == the kernel

inductive Fault where
  /-- The producer claimed more slots than exist. -/
  | tail
  deriving DecidableEq

/-- Result of draining the submission ring. -/
inductive Next where
  | empty
  | ready (call : Call)
  | rejected (id : UInt64) (reject : Reject)
  deriving DecidableEq

def Next.of (words : Words) : Next :=
  match Call.parse words with
  | .ok call => .ready call
  | .error reject => .rejected (word words 0) reject

/-- The private halves of the kernel's two ends, and the calls under way: the
words a `take` has copied, and the reply and word a `publish` is at. -/
structure Kernel where
  head : Nat
  fault : Option Fault
  copying : Option Words
  tail : Nat
  writing : Option (Reply × Nat)

/-- What a `take` decides from the index it loaded. -/
inductive Polled where
  | empty
  | fault
  | copy
  deriving DecidableEq

/-- One access of the kernel, or one answer. -/
inductive Event where
  /-- A `take` loaded the tail, with this private head. -/
  | polled (head tail : Nat) (answer : Polled)
  /-- A `take` returned the old fault. -/
  | barred (fault : Fault)
  /-- A `take` loaded a word. -/
  | copied (s w : Nat) (v : UInt64)
  /-- A `take` stored its index and returned. -/
  | took (words : Words) (next : Next)
  /-- A `publish` loaded the head, and was refused or not. -/
  | asked (reply : Reply) (taken : Nat) (room : Bool)
  /-- A `publish` stored its index and returned. -/
  | published (reply : Reply)
  deriving DecidableEq

/-- The shared memory, the kernel, and what the kernel did. -/
structure System where
  channel : Channel
  kernel : Kernel
  log : List Event

/-- One access of the kernel, beginning a call or going on with one. -/
inductive Move where
  | take
  | copy
  | publish (reply : Reply)
  | write
  deriving DecidableEq

/-- One access of the kernel, or one store of a domain. -/
inductive Act where
  | move (m : Move)
  | poke (loc : Loc) (v : UInt64)
  deriving DecidableEq

namespace System

def new : System := ⟨.new, ⟨0, none, none, 0, none⟩, []⟩

def note (s : System) (e : Event) : System := { s with log := s.log ++ [e] }

/-- What a `take` makes of the tail it loaded. -/
def polledAt (n : Nat) (s : System) (published : Nat) : System :=
  let ready := ahead published s.kernel.head
  if ready = 0 then s.note (.polled s.kernel.head published .empty)
  else if ready > n then
    { s with kernel := { s.kernel with fault := some .tail } }.note
      (.polled s.kernel.head published .fault)
  else
    { s with kernel := { s.kernel with copying := some [] } }.note
      (.polled s.kernel.head published .copy)

/-- `Submissions::take`, up to the load of the tail. -/
def take (n : Nat) (s : System) : System :=
  match s.kernel.copying, s.kernel.fault with
  | some _, _ => s
  | none, some fault => s.note (.barred fault)
  | none, none => s.polledAt n s.channel.submissions.tail

/-- The rest of a `take`: one more word, or the index and the answer. -/
def copy (n : Nat) (s : System) : System :=
  match s.kernel.copying with
  | none => s
  | some words =>
    if words.length < SLOT_WORDS then
      let at_ := place n s.kernel.head
      let v := s.channel.submissions.slots at_ words.length
      { s with kernel := { s.kernel with copying := some (words ++ [v]) } }.note
        (.copied at_ words.length v)
    else
      let head := bump s.kernel.head
      { s with
        kernel := { s.kernel with head, copying := none }
        channel := s.channel.onRing (fun r => { r with head }) .submissions }.note
        (.took words (.of words))

/-- What a `publish` makes of the head it loaded. -/
def askedAt (n : Nat) (s : System) (reply : Reply) (taken : Nat) : System :=
  if ahead s.kernel.tail taken ≥ n then s.note (.asked reply taken false)
  else
    { s with kernel := { s.kernel with writing := some (reply, 0) } }.note
      (.asked reply taken true)

/-- `Completions::publish`, up to the load of the head. -/
def publish (n : Nat) (s : System) (reply : Reply) : System :=
  match s.kernel.writing with
  | some _ => s
  | none => s.askedAt n reply s.channel.completions.head

/-- The rest of a `publish`: one more word, or the index and the answer. -/
def write (n : Nat) (s : System) : System :=
  match s.kernel.writing with
  | none => s
  | some (reply, w) =>
    if w < SLOT_WORDS then
      let at_ := place n s.kernel.tail
      { s with
        kernel := { s.kernel with writing := some (reply, w + 1) }
        channel := s.channel.onRing (fun r => r.store at_ w (word reply.encode w)) .completions }
    else
      let tail := bump s.kernel.tail
      { s with
        kernel := { s.kernel with tail, writing := none }
        channel := s.channel.onRing (fun r => { r with tail }) .completions }.note
        (.published reply)

def move (n : Nat) (s : System) : Move → System
  | .take => s.take n
  | .copy => s.copy n
  | .publish reply => s.publish n reply
  | .write => s.write n

def step (n : Nat) (s : System) : Act → System
  | .move m => s.move n m
  | .poke loc v => { s with channel := s.channel.poke loc v }

/-- Any interleaving of the kernel with any domain. -/
def run (n : Nat) (s : System) (acts : List Act) : System := acts.foldl (step n) s

end System

-- == the honest domain

/-- The domain's private indices, and the calls under way: the words a
`write` is storing and how many it has stored, and the words a `reply` has
loaded. -/
structure Domain where
  tail : Nat
  head : Nat
  sending : Option (Words × Nat)
  fetching : Option Words

/-- The memory and the kernel with an honest domain; the slots it published
and the replies it got. -/
structure Honest where
  system : System
  domain : Domain
  sent : List Words
  got : List Reply

def tooks (log : List Event) : List Words :=
  log.filterMap fun
    | .took words _ => some words
    | _ => none

/-- The replies a log has published. -/
def publisheds (log : List Event) : List Reply :=
  log.filterMap fun
    | .published reply => some reply
    | _ => none

/-- One access of the kernel or of the honest domain. -/
inductive HonestAct where
  | move (m : Move)
  /-- Begin to write a submission. -/
  | send (words : Words)
  | sendOn
  /-- Begin to take a reply. -/
  | fetch
  | fetchOn
  deriving DecidableEq

namespace Honest

def new : Honest := ⟨.new, ⟨0, 0, none, none⟩, [], []⟩

def poke (h : Honest) (loc : Loc) (v : UInt64) : Honest :=
  { h with system := { h.system with channel := h.system.channel.poke loc v } }

/-- The slot after those the domain has published is not one the kernel has
yet to take. -/
def Free (n : Nat) (h : Honest) : Prop := h.sent.length < (tooks h.system.log).length + n

instance (n : Nat) (h : Honest) : Decidable (h.Free n) := inferInstanceAs (Decidable (_ < _))

/-- `Domain::write`, of a slot that is free. -/
def send (n : Nat) (h : Honest) (words : Words) : Honest :=
  match h.domain.sending with
  | some _ => h
  | none =>
    if words.length = SLOT_WORDS ∧ h.Free n then
      { h with domain := { h.domain with sending := some (words, 0) } }
    else h

/-- The rest of a `write`: one more word, or the index. -/
def sendOn (n : Nat) (h : Honest) : Honest :=
  match h.domain.sending with
  | none => h
  | some (words, w) =>
    if w < SLOT_WORDS then
      { h with domain := { h.domain with sending := some (words, w + 1) } }.poke
        (.slot .submissions (place n h.domain.tail) w) (word words w)
    else
      let tail := bump h.domain.tail
      { h with
        domain := { h.domain with tail, sending := none }
        sent := h.sent ++ [words] }.poke (.tail .submissions) (UInt64.ofNat tail)

/-- `Domain::reply`, up to the load of the tail. -/
def fetch (h : Honest) : Honest :=
  match h.domain.fetching with
  | some _ => h
  | none =>
    if h.system.channel.completions.tail = h.domain.head then h
    else { h with domain := { h.domain with fetching := some [] } }

/-- The rest of a `reply`: one more word, or the index and the answer. -/
def fetchOn (n : Nat) (h : Honest) : Honest :=
  match h.domain.fetching with
  | none => h
  | some words =>
    if words.length < SLOT_WORDS then
      let v := h.system.channel.completions.slots (place n h.domain.head) words.length
      { h with domain := { h.domain with fetching := some (words ++ [v]) } }
    else
      let head := bump h.domain.head
      { h with
        domain := { h.domain with head, fetching := none }
        got := h.got ++ [Reply.decode words] }.poke (.head .completions) (UInt64.ofNat head)

def step (n : Nat) (h : Honest) : HonestAct → Honest
  | .move m => { h with system := h.system.move n m }
  | .send words => h.send n words
  | .sendOn => h.sendOn n
  | .fetch => h.fetch
  | .fetchOn => h.fetchOn n

/-- Any interleaving of the kernel with an honest domain. -/
def run (n : Nat) (h : Honest) (acts : List HonestAct) : Honest := acts.foldl (step n) h

end Honest

end Molt.Abi
