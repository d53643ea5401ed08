/-
Address-space tags and the TLB of a RISC-V hart (`sys/arch/src/asid.rs`,
`sys/arch/src/view.rs`, `platform/riscv/src/domain.rs`, `kernel/src/domain.rs`).

# The hart

A TLB entry is a tag, an address and the root it was loaded from. Entries are
added from the active root at any step, and only `sfence.vma` removes them,
all at once.

# The kernel

A domain is created with a tag from an allocator. `user_smoke`, `smoke` and
the file map each make an allocator of their own, so a tag may come from a new
one. What the grant says about flushing is not looked at. The gateway keeps
the `satp` of the domain that started last, and flushes around the switch
only on a hart without tag bits.
-/
import Mathlib

namespace Molt.Platform

-- == tags

structure Asid where
  value : Nat
  generation : Nat
  deriving DecidableEq

inductive Flush where
  | nothing
  | everything
  deriving DecidableEq

structure Grant where
  asid : Asid
  flush : Flush
  deriving DecidableEq

structure Asids where
  width : Nat
  next : Nat
  generation : Nat
  rollovers : Nat
  deriving DecidableEq

namespace Asids

def new (width : Nat) : Asids := ⟨if width > 16 then 16 else width, 1, 1, 0⟩

/-- How many domains can hold a tag between two wraps. -/
def capacity (a : Asids) : Nat := 2 ^ a.width - 1

/-- Hands out the next tag, and says what using it costs. -/
def assign (a : Asids) : Grant × Asids :=
  if a.next > a.capacity then
    let value := if a.capacity = 0 then 0 else 1
    (⟨⟨value, a.generation + 1⟩, .everything⟩,
      ⟨a.width, value + 1, a.generation + 1, a.rollovers + 1⟩)
  else (⟨⟨a.next, a.generation⟩, .nothing⟩, { a with next := a.next + 1 })

end Asids

-- == the machine

inductive Root where
  | kernel
  | view (index : Nat)
  deriving DecidableEq

structure Satp where
  root : Root
  tag : Nat
  deriving DecidableEq

structure Cached where
  tag : Nat
  address : Nat
  source : Root
  deriving DecidableEq

/-- What the hart is doing. Around a switch `satp` is written before the TLB
may be flushed. -/
inductive Phase where
  | kernel
  | entering (domain : Nat)
  | running (domain : Nat)
  | leaving
  deriving DecidableEq

structure Hart where
  width : Nat
  asids : Asids
  views : List Nat
  maps : Root → Nat → Bool
  started : Nat → Bool
  domainSatp : Satp
  flush : Bool
  satp : Satp
  tlb : List Cached
  phase : Phase

def VIEWS : Nat := 8

/-- A step: the kernel creates a domain or grants an address to one, enters or
leaves one, the gateway gets past its fence, or the TLB loads an entry. -/
inductive Step where
  | create (fresh frame : Bool)
  | grant (view address : Nat)
  | enter (domain : Nat) (gateway : List Nat) (refused : Bool)
  | fence
  | leave
  | load (address : Nat)

namespace Hart

/-- A hart of `width` tag bits that runs the kernel. -/
def new (width : Nat) (maps : Nat → Bool) : Hart :=
  ⟨width, .new width, [], fun root a => root = .kernel && maps a, fun _ => false, ⟨.kernel, 0⟩,
    false, ⟨.kernel, 0⟩, [], .kernel⟩

/-- A tag is taken, then the view is opened if there is a slot and a frame. -/
def create (h : Hart) (fresh frame : Bool) : Hart :=
  let (grant, asids) := (if fresh then Asids.new h.width else h.asids).assign
  let h := { h with asids }
  if h.views.length < VIEWS ∧ frame then { h with views := h.views ++ [grant.asid.value] } else h

def mapped (h : Hart) (view : Nat) (addresses : List Nat) : Hart :=
  { h with maps := fun root a => h.maps root a || (root = .view view && a ∈ addresses) }

/-- `enter` up to the write of `satp`. The first entry prepares the view, which
maps the pages of the gateway into it and may be refused after some of them. -/
def enter (h : Hart) (d tag : Nat) (gateway : List Nat) (refused : Bool) : Hart :=
  if h.started d then { h with satp := h.domainSatp, phase := .entering d }
  else if refused then h.mapped d gateway
  else { h.mapped d gateway with
    started := fun k => if k = d then true else h.started k
    domainSatp := ⟨.view d, tag⟩
    flush := h.width = 0
    satp := ⟨.view d, tag⟩
    phase := .entering d }

/-- `beqz t2, 9f; sfence.vma`. -/
def fenced (h : Hart) (phase : Phase) : Hart :=
  { h with tlb := if h.flush then [] else h.tlb, phase }

def step (h : Hart) : Step → Hart
  | .create fresh frame => if h.phase = .kernel then h.create fresh frame else h
  | .grant view address => if h.phase = .kernel then h.mapped view [address] else h
  | .enter d gateway refused =>
    match h.phase, h.views[d]? with
    | .kernel, some tag => h.enter d tag gateway refused
    | _, _ => h
  | .fence =>
    match h.phase with
    | .entering d => h.fenced (.running d)
    | .leaving => h.fenced .kernel
    | _ => h
  | .leave =>
    match h.phase with
    | .running _ => { h with satp := ⟨.kernel, 0⟩, phase := .leaving }
    | _ => h
  | .load a =>
    if h.maps h.satp.root a then
      { h with tlb := ⟨h.satp.tag, a, h.satp.root⟩ :: h.tlb }
    else h

def run (h : Hart) (steps : List Step) : Hart := steps.foldl step h

end Hart

end Molt.Platform
