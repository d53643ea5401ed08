/-
The virtio IOMMU driver (`device/virtio/src/iommu.rs`) and the IOVA space it
reserves from (`sys/arch/src/iommu.rs`), with the controller behind them.

# The controller

`Controller` is the other side: the attachments and translations it holds and
the requests it has not answered. It reads a request from the driver's one
command buffer when it executes it, executes requests in order and answers
with any status. What it puts into the event queue is not restricted: each
look of the driver at that queue is given what it finds there.

# Time

A command polls. Each turn of its loop is a `Round`: the answers the
controller gave since the last turn and what the looks at the event queue
find. A command whose rounds run out has not returned, which is `none`.

# Memory

The accesses to the mappings are in bounds and none is refused. A region and
a mapping are linear values: `held` is the mappings that `map` handed out and
`unmap` has not taken back, and `unmap` is given one of them. `torn` says that
the command buffer was written while a request was outstanding.
-/
import Molt.Lib.Bytes
import Molt.Lib.Slots
import Molt.Virtio.Queue

namespace Molt.Virtio.Translation

open Molt.Lib

def ATTACH : Nat := 1
def DETACH : Nat := 2
def MAP : Nat := 3
def UNMAP : Nat := 4
def STATUS_OK : Nat := 0
def STATUS_AT_ATTACH : Nat := 20
def STATUS_AT_MAP : Nat := 36
def STATUS_AT_UNMAP : Nat := 28
def MAP_READ : Nat := 1
def MAP_WRITE : Nat := 2

def EVENT_BYTES : Nat := 24
def ACTIVE : Nat := 32
def ENDPOINTS : Nat := 8
def PREFERRED_IOVA : Nat := 2 ^ 32

/-- A `VirtioError`: of a queue or the driver, or a status of the controller. -/
inductive CommandError where
  | virtio (e : VirtioError)
  | iommu (status : Nat)
  deriving DecidableEq

inductive DmaError where
  | range
  | alignment
  | empty
  | outOfSpace
  | address
  | overlap
  | notMapped
  | backend
  deriving DecidableEq

structure DeviceId where
  id : Nat
  lt : id < 2 ^ 32
  deriving DecidableEq

inductive DmaPerm where
  | read
  | write
  | readWrite
  deriving DecidableEq

def DmaPerm.canRead : DmaPerm → Bool
  | .read | .readWrite => true
  | .write => false

def DmaPerm.canWrite : DmaPerm → Bool
  | .write | .readWrite => true
  | .read => false

/-- A range of physical memory that one holder owns. -/
structure Region where
  physical : Nat
  len : Nat
  physical_lt : physical < 2 ^ 64
  len_lt : len < 2 ^ 64
  deriving DecidableEq

structure Mapping where
  region : Region
  device : DeviceId
  iova : Nat
  perm : DmaPerm
  deriving DecidableEq

-- == domains

structure Attachment where
  device : DeviceId
  domain : Nat
  deriving DecidableEq

structure Domains where
  start : Nat
  stop : Nat
  entries : List (Option Attachment)
  stop_lt : stop < 2 ^ 32

/-- The first domain handed out, never zero. -/
def firstDomain (reported : Nat) : Nat := if reported = 0 then 1 else reported

namespace Domains

def new (start stop : Nat) (h : stop < 2 ^ 32) : Domains :=
  ⟨firstDomain start, stop, List.replicate ENDPOINTS none, h⟩

def find (d : Domains) (device : DeviceId) : Option (Nat × Nat) :=
  pick (fun entry => if entry.device = device then some entry.domain else none) d.entries

def domain (d : Domains) (device : DeviceId) : Option Nat := (d.find device).map (·.2)

/-- `while domain <= self.end`, with a turn for each domain there is. -/
def lowest (d : Domains) : Nat → Nat → Except VirtioError Nat
  | 0, _ => .error .full
  | turns + 1, domain =>
    if domain ≤ d.stop then
      if ¬ d.entries.any fun slot => slot.any fun entry => entry.domain = domain then .ok domain
      else if domain + 1 < 2 ^ 32 then d.lowest turns (domain + 1)
      else .error .device
    else .error .full

/-- Gives `device` the lowest domain no live attachment holds. -/
def reserve (d : Domains) (device : DeviceId) : Except VirtioError (Nat × Domains) :=
  if (d.domain device).isSome then .error .device
  else
    match vacancy d.entries with
    | none => .error .full
    | some slot =>
      match d.lowest (d.stop + 1 - d.start) d.start with
      | .error e => .error e
      | .ok domain => .ok (domain, { d with entries := d.entries.set slot (some ⟨device, domain⟩) })

def release (d : Domains) (device : DeviceId) : Except VirtioError (Nat × Domains) :=
  match d.find device with
  | none => .error .device
  | some (slot, domain) => .ok (domain, { d with entries := d.entries.set slot none })

end Domains

-- == IOVA space

structure Range where
  start : Nat
  len : Nat
  deriving DecidableEq

def Range.finish (r : Range) : Except DmaError Nat :=
  if r.start + r.len < 2 ^ 64 then .ok (r.start + r.len) else .error .address

structure IovaSpace where
  start : Nat
  stop : Nat
  ranges : List (Option Range)

def alignUp (value align : Nat) : Option Nat :=
  if value + (align - 1) < 2 ^ 64 then some ((value + (align - 1)) / align * align) else none

namespace IovaSpace

def new (start stop : Nat) : IovaSpace := ⟨start, stop, List.replicate ACTIVE none⟩

def reserveAt (s : IovaSpace) (start len : Nat) : Except DmaError (Nat × IovaSpace) :=
  if len = 0 then .error .empty
  else if ¬ start + len < 2 ^ 64 then .error .address
  else if start < s.start ∨ start + len > s.stop then .error .range
  else if s.ranges.any fun slot => slot.any fun live =>
      match live.finish with
      | .ok finish => decide (start < finish ∧ live.start < start + len)
      | .error _ => true then .error .overlap
  else
    match vacancy s.ranges with
    | none => .error .outOfSpace
    | some free => .ok (start, { s with ranges := s.ranges.set free (some ⟨start, len⟩) })

/-- The end of the first range that meets `candidate .. finish`. -/
def occupied (candidate finish : Nat) : List Range → Except DmaError (Option Nat)
  | [] => .ok none
  | range :: ranges =>
    match range.finish with
    | .error e => .error e
    | .ok stop =>
      if candidate < stop ∧ range.start < finish then .ok (some stop)
      else occupied candidate finish ranges

/-- The loop of `reserve`. The candidate grows in each turn. -/
def firstFit (s : IovaSpace) (len align : Nat) : Nat → Nat → Except DmaError (Nat × IovaSpace)
  | 0, _ => .error .outOfSpace
  | turns + 1, candidate =>
    if ¬ candidate + len < 2 ^ 64 then .error .address
    else if candidate + len > s.stop then .error .outOfSpace
    else
      match occupied candidate (candidate + len) (s.ranges.filterMap id) with
      | .error e => .error e
      | .ok none => s.reserveAt candidate len
      | .ok (some stop) =>
        match alignUp stop align with
        | none => .error .address
        | some candidate => s.firstFit len align turns candidate

/-- Reserves the first room for `len` bytes at `align`. -/
def reserve (s : IovaSpace) (len align : Nat) : Except DmaError (Nat × IovaSpace) :=
  if len = 0 ∨ align = 0 ∨ ¬ ∃ k < 64, align = 2 ^ k then .error .alignment
  else
    match alignUp s.start align with
    | none => .error .address
    | some candidate => s.firstFit len align (s.stop + 1) candidate

def release (s : IovaSpace) (start len : Nat) : Except DmaError IovaSpace :=
  match pick (fun range : Range => if range = ⟨start, len⟩ then some () else none) s.ranges with
  | none => .error .notMapped
  | some (slot, _) => .ok { s with ranges := s.ranges.set slot none }

end IovaSpace

-- == requests

def putU8 (m : Image) (off v : Nat) : Image := put m off (leBytes 1 v)
def putU32 (m : Image) (off v : Nat) : Image := put m off (leBytes 4 v)
def putU64 (m : Image) (off v : Nat) : Image := put m off (leBytes 8 v)

def encodeAttach (domain : Nat) (endpoint : DeviceId) : Image :=
  putU32 (putU32 (putU8 blank 0 ATTACH) 4 domain) 8 endpoint.id

def encodeDetach (domain : Nat) (endpoint : DeviceId) : Image :=
  putU32 (putU32 (putU8 blank 0 DETACH) 4 domain) 8 endpoint.id

def mapFlags (perm : DmaPerm) : Nat :=
  (if perm.canRead then MAP_READ else 0) ||| (if perm.canWrite then MAP_WRITE else 0)

def encodeMap (domain iova physical len : Nat) (perm : DmaPerm) : Option Image :=
  if iova + (len - 1) < 2 ^ 64 then
    some (putU32 (putU64 (putU64 (putU64 (putU32 (putU8 blank 0 MAP) 4 domain) 8 iova)
      16 (iova + (len - 1))) 24 physical) 32 (mapFlags perm))
  else none

def encodeUnmap (domain iova len : Nat) : Option Image :=
  if iova + (len - 1) < 2 ^ 64 then
    some (putU64 (putU64 (putU32 (putU8 blank 0 UNMAP) 4 domain) 8 iova) 16 (iova + (len - 1)))
  else none

/-- A request as the controller reads it. The last address is inclusive. -/
inductive Request where
  | attach (domain endpoint : Nat)
  | detach (domain endpoint : Nat)
  | map (domain iova last physical flags : Nat)
  | unmap (domain iova last : Nat)
  deriving DecidableEq

/-- The request in the first `len` bytes of the buffer. -/
def decode (m : Image) (len : Nat) : Option Request :=
  if atLe m 0 1 = ATTACH ∧ len = STATUS_AT_ATTACH then some (.attach (atLe m 4 4) (atLe m 8 4))
  else if atLe m 0 1 = DETACH ∧ len = STATUS_AT_ATTACH then
    some (.detach (atLe m 4 4) (atLe m 8 4))
  else if atLe m 0 1 = MAP ∧ len = STATUS_AT_MAP then
    some (.map (atLe m 4 4) (atLe m 8 8) (atLe m 16 8) (atLe m 24 8) (atLe m 32 4))
  else if atLe m 0 1 = UNMAP ∧ len = STATUS_AT_UNMAP then
    some (.unmap (atLe m 4 4) (atLe m 8 8) (atLe m 16 8))
  else none

-- == controller

/-- One translation: the addresses `iova ..= last` of a domain. -/
structure Entry where
  domain : Nat
  iova : Nat
  last : Nat
  physical : Nat
  flags : Nat
  deriving DecidableEq

/-- What a controller has been told: endpoints with their domains, and the
translations of each domain. -/
structure Tables where
  attached : List (Nat × Nat)
  mappings : List Entry
  deriving DecidableEq

/-- What an accepted request does. A domain that no endpoint is left in loses
its translations, and an unmap takes those inside its range. -/
def Tables.accept (t : Tables) : Request → Tables
  | .attach domain endpoint =>
    { t with attached := (endpoint, domain) :: t.attached.filter fun a => a.1 ≠ endpoint }
  | .detach domain endpoint =>
    let attached := t.attached.filter fun a => a ≠ (endpoint, domain)
    if attached.any fun a => a.2 = domain then { t with attached }
    else ⟨attached, t.mappings.filter fun e => e.domain ≠ domain⟩
  | .map domain iova last physical flags =>
    { t with mappings := ⟨domain, iova, last, physical, flags⟩ :: t.mappings }
  | .unmap domain iova last =>
    { t with mappings := t.mappings.filter fun e =>
        ¬ (e.domain = domain ∧ iova ≤ e.iova ∧ e.last ≤ last) }

/-- The tables, the requests that were pushed and not answered, each the head
of its chain with the place of its status, and the used ring. -/
structure Controller where
  tables : Tables
  waiting : List (Nat × Nat)
  used : Nat → Nat × Nat
  posted : Nat

def Controller.ring (c : Controller) : UsedRing := ⟨c.posted % 2 ^ 16, c.used⟩

-- == driver

structure Fault where
  reason : Nat
  flags : Nat
  endpoint : Nat
  address : Nat
  deriving DecidableEq

structure Active where
  device : DeviceId
  domain : Nat
  iova : Nat
  len : Nat
  perm : DmaPerm
  deriving DecidableEq

/-- What one look at the event queue finds: its used ring, and the record in
each event buffer. -/
structure Look where
  ring : UsedRing
  record : Nat → Fault

/-- One turn of a command: the statuses the controller has answered with, and
the looks at the event queue. -/
structure Round where
  answers : List UInt8
  looks : List Look

structure Iommu where
  requestQueue : Queue
  eventQueue : Queue
  request : Image
  eventSlots : Nat → Option Nat
  space : IovaSpace
  active : List (Option Active)
  page : Nat
  domains : Domains
  lastFault : Option Fault

/-- `Queue::push` of the one or two segments this driver pushes. -/
def publish (q : Queue) (segments : List Segment) : Except VirtioError (Nat × Queue) :=
  match q.push segments with
  | some (.ok head, q) => .ok (head, q)
  | some (.error e, _) => .error e
  | none => .error .full

def eventBuffer (slot : Nat) : Segment := ⟨slot * EVENT_BYTES, EVENT_BYTES, true⟩

namespace Iommu

/-- Polls and replenishes the fault queue. -/
def pollFaults (d : Iommu) (newest : Option Fault) :
    List Look → Except VirtioError (Option Fault) × Iommu
  | [] => (.ok newest, d)
  | look :: looks =>
    match d.eventQueue.pop look.ring with
    | (.error e, q) => (.error e, { d with eventQueue := q })
    | (.ok none, q) => (.ok newest, { d with eventQueue := q })
    | (.ok (some used), q) =>
      match d.eventSlots used.head with
      | none => (.error .device, { d with eventQueue := q })
      | some slot =>
        let d := { d with
          eventQueue := q
          eventSlots := Function.update d.eventSlots used.head none }
        if used.len < EVENT_BYTES then (.error .device, d)
        else
          let fault := look.record slot
          match publish d.eventQueue [eventBuffer slot] with
          | .error e => (.error e, { d with lastFault := some fault })
          | .ok (head, q) =>
            pollFaults { d with
              lastFault := some fault
              eventQueue := q
              eventSlots := Function.update d.eventSlots head (some slot) }
              (some fault) looks

end Iommu

-- == start

/-- What the controller reports of itself. -/
structure Config where
  pageShift : Nat
  inputStart : Nat
  inputEnd : Nat
  domainStart : Nat
  domainEnd : Nat
  shift_lt : pageShift < 64
  start_lt : inputStart < 2 ^ 64
  end_lt : inputEnd < 2 ^ 64
  domain_start_lt : domainStart < 2 ^ 32
  domain_end_lt : domainEnd < 2 ^ 32

/-- The addresses to reserve from. The last address of all is not one. -/
def aperture (start inclusiveEnd page : Nat) : Option (Nat × Nat) :=
  match alignUp (max start 1) page with
  | none => none
  | some start =>
    match alignUp (max PREFERRED_IOVA start) page with
    | none => none
    | some preferred =>
      let stop := if inclusiveEnd + 1 < 2 ^ 64 then inclusiveEnd + 1
        else inclusiveEnd / page * page
      let start := if preferred < stop then preferred else start
      if start ≥ stop then none else some (start, stop)

/-- The largest power of two that is offered, up to `MAX_SIZE`. -/
def queueSize (offered minimum : Nat) : Except VirtioError Nat :=
  let capped := min offered MAX_SIZE
  if capped < minimum then .error .device else .ok (2 ^ Nat.log2 capped)

/-- Gives the controller the event buffers from `slot` on. -/
def fill (q : Queue) (slots : Nat → Option Nat) :
    List Nat → Except VirtioError (Queue × (Nat → Option Nat))
  | [] => .ok (q, slots)
  | slot :: rest =>
    match publish q [eventBuffer slot] with
    | .error e => .error e
    | .ok (head, q) => fill q (Function.update slots head (some slot)) rest

/-- Starts the control plane over queues of the offered sizes. -/
def start (config : Config) (requests events : Nat) : Except VirtioError Iommu :=
  let page := 2 ^ config.pageShift
  match aperture config.inputStart config.inputEnd page with
  | none => .error .device
  | some (low, high) =>
    if firstDomain config.domainStart > config.domainEnd then .error .device
    else do
      let requestQueue ← Queue.new (← queueSize requests 2)
      let eventQueue ← Queue.new (← queueSize events 1)
      let (eventQueue, eventSlots) ← fill eventQueue (fun _ => none) (List.range eventQueue.size)
      return {
        requestQueue, eventQueue, eventSlots, page
        request := blank
        space := IovaSpace.new low high
        active := List.replicate ACTIVE none
        domains := Domains.new (firstDomain config.domainStart) config.domainEnd
          config.domain_end_lt
        lastFault := none }

-- == whole system

structure Held where
  mapping : Mapping
  domain : Nat
  deriving DecidableEq

structure System where
  driver : Iommu
  controller : Controller
  held : List Held
  torn : Bool

namespace System

def write (s : System) (request : Image) : System :=
  { s with
    driver := { s.driver with request }
    torn := s.torn || !s.controller.waiting.isEmpty }

/-- The controller executes the request it got first, with this answer. -/
def serve (s : System) (status : UInt8) : System :=
  match s.controller.waiting with
  | [] => s
  | (head, statusAt) :: waiting =>
    let tables :=
      match decode s.driver.request statusAt with
      | some request =>
        if status.toNat = STATUS_OK then s.controller.tables.accept request
        else s.controller.tables
      | none => s.controller.tables
    { s with
      driver := { s.driver with request := put s.driver.request statusAt [status, 0, 0, 0] }
      controller := {
        tables, waiting
        used := Function.update s.controller.used
          (s.controller.posted % s.driver.requestQueue.size) (head, 4)
        posted := s.controller.posted + 1 } }

/-- The loop of `command`. -/
def await (s : System) (head statusAt : Nat) :
    List Round → Option (Except CommandError Unit × System)
  | [] => none
  | round :: rounds =>
    let s := round.answers.foldl serve s
    match s.driver.pollFaults none round.looks with
    | (.error e, driver) => some (.error (.virtio e), { s with driver })
    | (.ok _, driver) =>
      match driver.requestQueue.pop s.controller.ring with
      | (.error e, requestQueue) =>
        some (.error (.virtio e), { s with driver := { driver with requestQueue } })
      | (.ok none, requestQueue) =>
        await { s with driver := { driver with requestQueue } } head statusAt rounds
      | (.ok (some used), requestQueue) =>
        let s := { s with driver := { driver with requestQueue } }
        let status := atLe s.driver.request statusAt 1
        if used.head ≠ head ∨ used.len < 4 then some (.error (.virtio .device), s)
        else if status = STATUS_OK then some (.ok (), s)
        else some (.error (.iommu status), s)

/-- Pushes the request in the buffer and waits for its answer. -/
def command (s : System) (statusAt : Nat) (rounds : List Round) :
    Option (Except CommandError Unit × System) :=
  let s := s.write (putU8 s.driver.request statusAt 0xff)
  match publish s.driver.requestQueue [⟨0, statusAt, false⟩, ⟨statusAt, 4, true⟩] with
  | .error e => some (.error (.virtio e), s)
  | .ok (head, requestQueue) =>
    await { s with
      driver := { s.driver with requestQueue }
      controller := { s.controller with
        waiting := s.controller.waiting ++ [(head, statusAt)] } } head statusAt rounds

def setDomains (s : System) (domains : Domains) : System :=
  { s with driver := { s.driver with domains } }

def setSpace (s : System) (space : IovaSpace) : System :=
  { s with driver := { s.driver with space } }

def setActive (s : System) (active : List (Option Active)) : System :=
  { s with driver := { s.driver with active } }

/-- `domains.release(endpoint).ok()`. -/
def forget (s : System) (endpoint : DeviceId) : System :=
  match s.driver.domains.release endpoint with
  | .ok (_, domains) => s.setDomains domains
  | .error _ => s

/-- Attaches an endpoint to a domain of its own. -/
def attach (s : System) (endpoint : DeviceId) (rounds : List Round) :
    Option (Except CommandError Unit × System) :=
  match s.driver.domains.reserve endpoint with
  | .error e => some (.error (.virtio e), s)
  | .ok (domain, domains) =>
    match ((s.setDomains domains).write (encodeAttach domain endpoint)).command
        STATUS_AT_ATTACH rounds with
    | none => none
    | some (.ok (), s) => some (.ok (), s)
    | some (.error e, s) => some (.error e, s.forget endpoint)

/-- Detaches an endpoint once all of its mappings are gone. -/
def detach (s : System) (endpoint : DeviceId) (rounds : List Round) :
    Option (Except CommandError Unit × System) :=
  if s.driver.active.any fun slot => slot.any fun entry => entry.device = endpoint then
    some (.error (.virtio .device), s)
  else
    match s.driver.domains.domain endpoint with
    | none => some (.error (.virtio .device), s)
    | some domain =>
      match (s.write (encodeDetach domain endpoint)).command STATUS_AT_ATTACH rounds with
      | none => none
      | some (.error e, s) => some (.error e, s)
      | some (.ok (), s) =>
        match s.driver.domains.release endpoint with
        | .error e => some (.error (.virtio e), s)
        | .ok (_, domains) => some (.ok (), s.setDomains domains)

/-- `encode_*` followed by `command`. -/
def send (s : System) (request : Option Image) (statusAt : Nat) (rounds : List Round) :
    Option (Except CommandError Unit × System) :=
  match request with
  | none => some (.error (.virtio .device), s)
  | some request => (s.write request).command statusAt rounds

def map (s : System) (device : DeviceId) (region : Region) (perm : DmaPerm)
    (rounds : List Round) : Option (Except (DmaError × Region) Mapping × System) :=
  match s.driver.domains.domain device with
  | none => some (.error (.notMapped, region), s)
  | some domain =>
    if region.physical % s.driver.page ≠ 0 ∨ region.len = 0 ∨ region.len % s.driver.page ≠ 0
    then some (.error (.alignment, region), s)
    else
      match vacancy s.driver.active with
      | none => some (.error (.outOfSpace, region), s)
      | some slot =>
        match s.driver.space.reserve region.len s.driver.page with
        | .error e => some (.error (e, region), s)
        | .ok (iova, space) =>
          match (s.setSpace space).send
              (encodeMap domain iova region.physical region.len perm)
              STATUS_AT_MAP rounds with
          | none => none
          | some (.error _, s) =>
            match s.driver.space.release iova region.len with
            | .error _ => some (.error (.backend, region), s)
            | .ok space => some (.error (.backend, region), s.setSpace space)
          | some (.ok (), s) =>
            let mapping : Mapping := ⟨region, device, iova, perm⟩
            let s := s.setActive
              (s.driver.active.set slot (some ⟨device, domain, iova, region.len, perm⟩))
            some (.ok mapping, { s with held := ⟨mapping, domain⟩ :: s.held })

/-- The test of `unmap` for the entry of a mapping. -/
def owns (mapping : Mapping) (entry : Active) : Option Nat :=
  if entry.device = mapping.device ∧ entry.iova = mapping.iova
      ∧ entry.len = mapping.region.len ∧ entry.perm = mapping.perm then some entry.domain
  else none

/-- Takes the `k`th mapping back, and gives back its region. -/
def unmap (s : System) (k : Nat) (mapping : Mapping) (rounds : List Round) :
    Option (Except DmaError Region × System) :=
  match pick (owns mapping) s.driver.active with
  | none => some (.error .notMapped, s)
  | some (slot, domain) =>
    match s.send (encodeUnmap domain mapping.iova mapping.region.len) STATUS_AT_UNMAP rounds with
    | none => none
    | some (.error _, s) => some (.error .backend, s)
    | some (.ok (), s) =>
      match s.driver.space.release mapping.iova mapping.region.len with
      | .error e => some (.error e, s)
      | .ok space =>
        let s := (s.setSpace space).setActive (s.driver.active.set slot none)
        some (.ok mapping.region, { s with held := s.held.eraseIdx k })

end System

/-- A call of the driver, with what happens during it, or an answer of the
controller between two calls. -/
inductive Call where
  | attach (endpoint : DeviceId) (rounds : List Round)
  | detach (endpoint : DeviceId) (rounds : List Round)
  | map (device : DeviceId) (region : Region) (perm : DmaPerm) (rounds : List Round)
  | unmap (k : Nat) (rounds : List Round)
  | pollFaults (looks : List Look)
  | serve (status : UInt8)

inductive Answer where
  | told (r : Except CommandError Unit)
  | mapped (r : Except (DmaError × Region) Mapping)
  | unmapped (r : Except DmaError Region)
  | polled (r : Except VirtioError (Option Fault))
  | nothing

namespace System

/-- A driver that has just been started, before a controller without entries. -/
def fresh (driver : Iommu) : System := ⟨driver, ⟨⟨[], []⟩, [], fun _ => (0, 0), 0⟩, [], false⟩

/-- A call that returns gives its answer and the state it leaves. -/
def call (s : System) : Call → Option (Answer × System)
  | .attach endpoint rounds => (s.attach endpoint rounds).map fun (r, s) => (.told r, s)
  | .detach endpoint rounds => (s.detach endpoint rounds).map fun (r, s) => (.told r, s)
  | .map device region perm rounds =>
    (s.map device region perm rounds).map fun (r, s) => (.mapped r, s)
  | .unmap k rounds =>
    match s.held[k]? with
    | none => some (.nothing, s)
    | some held => (s.unmap k held.mapping rounds).map fun (r, s) => (.unmapped r, s)
  | .pollFaults looks =>
    let (r, driver) := s.driver.pollFaults none looks
    some (.polled r, { s with driver })
  | .serve status => some (.nothing, s.serve status)

end System

structure Step where
  before : System
  call : Call
  answer : Answer
  after : System

/-- The calls of a run, up to one that does not return. -/
def System.trace (s : System) : List Call → List Step
  | [] => []
  | call :: calls =>
    match s.call call with
    | none => []
    | some (answer, after) => ⟨s, call, answer, after⟩ :: after.trace calls

end Molt.Virtio.Translation
