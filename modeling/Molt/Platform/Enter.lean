/-
Entering a protected domain, on both ports (`platform/riscv/src/domain.rs`,
`platform/x86_64/src/domain.rs`, `sys/arch/src/domain.rs`).

# The gateway

The two ports have one page of data each, which every domain shares. `enter`
fills it in for a domain that has not started, and the gateway saves in it
what the domain was running when it trapped. A `DomainState` keeps no
registers, only whether it has started.

# Registers

RISC-V numbers its registers `x1` to `x31`. On x86 the file begins with `rax`
and has fifteen slots; `rsp` has a place of its own, which is slot 15 here.
The segment selectors, the same for every domain, are left out, and so are
the kernel's own registers, which the gateway saves and restores.

# User code

What runs between two traps is any function from the context it is given.
Preparing the view may fail, which is an input of the call.
-/
import Mathlib

namespace Molt.Platform

inductive Port where
  | riscv
  | x86
  deriving DecidableEq

/-- A resumable hardware-domain context, but for whether it has started. -/
structure DomainState where
  view : Nat
  entry : Nat
  stack : Nat
  arguments : Vector Nat 6
  deriving DecidableEq

/-- Why a protected domain returned to its supervisor. -/
inductive DomainExit where
  | ring
  | exited (value : Nat)
  | unknown (call : Nat)
  | fault (cause address : Nat)
  deriving DecidableEq

def KICK : Nat := 0
def EXIT : Nat := 1
def FROM_CALL : Nat := 0

/-- The `scause` of `ecall` from user mode, with which `stval` is zero. -/
def USER_ECALL : Nat := 8

/-- The page of data behind the gateway. -/
structure Gateway where
  root : Nat
  pc : Nat
  status : Nat
  registers : Nat → Nat
  reason : Nat
  value : Nat
  cause : Nat
  address : Nat
  call : Nat

structure Context where
  registers : Nat → Nat
  pc : Nat
  status : Nat
  root : Nat

inductive Kind where
  | call
  | fault (cause address : Nat)
  deriving DecidableEq

/-- How user code ended: the registers, where it was, and why it trapped. -/
structure Trap where
  registers : Nat → Nat
  pc : Nat
  status : Nat
  kind : Kind

namespace Port

/-- The register slots of the gateway. -/
def has : Port → Nat → Bool
  | .riscv, slot => 1 ≤ slot && slot ≤ 31
  | .x86, slot => slot ≤ 15

/-- `x2`, or the place of `rsp`. -/
def stackSlot : Port → Nat
  | .riscv => 2
  | .x86 => 15

/-- `a0` to `a5`, or `rdi, rsi, rdx, rcx, r8, r9`. -/
def argumentSlots : Port → List Nat
  | .riscv => [10, 11, 12, 13, 14, 15]
  | .x86 => [5, 4, 3, 2, 7, 8]

/-- `a7`, or `rax`. -/
def callSlot : Port → Nat
  | .riscv => 17
  | .x86 => 0

/-- `a0`, or `rdi`. -/
def valueSlot : Port → Nat
  | .riscv => 10
  | .x86 => 5

/-- The length of the call instruction: `ecall`, which the gateway steps over,
or `int`, which the processor does. -/
def callLength : Port → Nat
  | .riscv => 4
  | .x86 => 2

/-- The status a domain begins with: the kernel's without `SPP` and `SPIE`, or
the flags' reserved bit. -/
def firstStatus : Port → Nat → Nat
  | .riscv, kernel => kernel - kernel / 2 ^ 8 % 2 * 2 ^ 8 - kernel / 2 ^ 5 % 2 * 2 ^ 5
  | .x86, _ => 2

end Port

def writeAll (registers : Nat → Nat) : List (Nat × Nat) → Nat → Nat
  | [] => registers
  | (slot, value) :: rest => writeAll (fun n => if n = slot then value else registers n) rest

namespace Gateway

/-- `for slot in ..`: the register file and the reports are zero. On x86 the
place of `rsp` is not in the file. -/
def clear (g : Gateway) : Port → Gateway
  | .riscv => { g with
      registers := fun n => if 1 ≤ n ∧ n ≤ 31 then 0 else g.registers n
      reason := 0, value := 0, cause := 0, address := 0, call := 0 }
  | .x86 => { g with
      registers := fun n => if n < 15 then 0 else g.registers n
      reason := 0, value := 0, cause := 0, address := 0, call := 0 }

def begin (g : Gateway) (port : Port) (s : DomainState) (root kernel : Nat) : Gateway :=
  { g with
    root := root
    pc := s.entry
    status := port.firstStatus kernel
    registers := writeAll g.registers
      ((port.stackSlot, s.stack) :: port.argumentSlots.zip s.arguments.toList) }

/-- What `__molt_domain_enter` loads. -/
def context (g : Gateway) (port : Port) : Context :=
  ⟨fun n => if port.has n then g.registers n else 0, g.pc, g.status, g.root⟩

/-- What the trap path stores. -/
def trapped (g : Gateway) (port : Port) (t : Trap) : Gateway :=
  let g := { g with
    registers := fun n => if port.has n then t.registers n else g.registers n
    status := t.status }
  match t.kind with
  | .call =>
    -- RISC-V stores `scause` and `stval` before it looks at what the trap was
    let g := match port with
      | .riscv => { g with cause := USER_ECALL, address := 0 }
      | .x86 => g
    { g with
      pc := t.pc + port.callLength
      reason := FROM_CALL
      call := t.registers port.callSlot
      value := t.registers port.valueSlot }
  | .fault cause address => { g with pc := t.pc, reason := 1, cause, address }

/-- What `enter` makes of the reports. -/
def exit (g : Gateway) : DomainExit :=
  if g.reason = FROM_CALL then
    if g.call = KICK then .ring
    else if g.call = EXIT then .exited g.value
    else .unknown g.call
  else .fault g.cause g.address

end Gateway

-- == the machine

structure Machine where
  gateway : Gateway
  started : Nat → Bool

/-- A call of `enter`: which domain, whether its view could be prepared if it
has to be, the kernel's status then, and what the user code does. -/
structure Entry where
  domain : Nat
  refused : Bool
  kernel : Nat
  user : Context → Trap

/-- What happened in an entry that was not refused. -/
structure Ran where
  domain : Nat
  context : Context
  trap : Trap
  exit : DomainExit

namespace Machine

def resume (m : Machine) (port : Port) (e : Entry) : Machine × Option Ran :=
  let context := m.gateway.context port
  let gateway := m.gateway.trapped port (e.user context)
  ({ m with gateway }, some ⟨e.domain, context, e.user context, gateway.exit⟩)

/-- `enter`. The RISC-V port clears the register file before it prepares the
view, the x86 port after. -/
def enter (m : Machine) (port : Port) (domains : Nat → DomainState) (rootOf : Nat → Nat)
    (e : Entry) : Machine × Option Ran :=
  if m.started e.domain then m.resume port e
  else if e.refused then
    match port with
    | .riscv => ({ m with gateway := m.gateway.clear .riscv }, none)
    | .x86 => (m, none)
  else
    let s := domains e.domain
    let gateway := (m.gateway.clear port).begin port s (rootOf s.view) e.kernel
    resume ⟨gateway, fun d => if d = e.domain then true else m.started d⟩ port e

/-- The entries of a history, and what happened in each. -/
def run (m : Machine) (port : Port) (domains : Nat → DomainState) (rootOf : Nat → Nat) :
    List Entry → List (Option Ran)
  | [] => []
  | e :: es =>
    let (m, ran) := m.enter port domains rootOf e
    ran :: m.run port domains rootOf es

/-- A machine on which nothing has started. -/
def new (g : Gateway) : Machine := ⟨g, fun _ => false⟩

end Machine

end Molt.Platform
