/-
Whose context a domain runs with.

The gateway holds one context, that of the domain entered last. So a domain
that is entered again right after its own exit resumes where it was, and one
that is entered again after another finds the other's context. `Tame` is the
histories of the first kind; in them no domain sees anything of another.
-/
import Molt.Platform.Enter

namespace Molt.Platform

-- == what it should be given

/-- Zero, but for the entry, the stack, the arguments and the view's root. -/
def fresh (port : Port) (s : DomainState) (root status : Nat) : Context :=
  ⟨fun n => if n = port.stackSlot then s.stack
    else ((port.argumentSlots.zip s.arguments.toList).lookup n).getD 0, s.entry, status, root⟩

/-- What a domain left, past the call if it made one. -/
def resumed (port : Port) (r : Ran) : Context :=
  ⟨fun n => if port.has n then r.trap.registers n else 0,
    match r.trap.kind with
    | .call => r.trap.pc + port.callLength
    | .fault .. => r.trap.pc,
    r.trap.status, r.context.root⟩

def exitOf (port : Port) (t : Trap) : DomainExit :=
  match t.kind with
  | .call =>
    if t.registers port.callSlot = KICK then .ring
    else if t.registers port.callSlot = EXIT then .exited (t.registers port.valueSlot)
    else .unknown (t.registers port.callSlot)
  | .fault cause address => .fault cause address

/-- A domain runs with its first context, or with that of its own last exit
(the past has the latest first), and what is reported is its own exit. -/
def Own (port : Port) (domains : Nat → DomainState) (rootOf : Nat → Nat) (past : List Ran)
    (r : Ran) : Prop :=
  (match past.find? (·.domain = r.domain) with
    | none => ∃ status, r.context
        = fresh port (domains r.domain) (rootOf (domains r.domain).view) status
    | some r' => r.context = resumed port r')
  ∧ r.exit = exitOf port r.trap

def Owned (port : Port) (domains : Nat → DomainState) (rootOf : Nat → Nat) :
    List Ran → List (Option Ran) → Prop
  | _, [] => True
  | past, none :: log => Owned port domains rootOf past log
  | past, some r :: log =>
    Own port domains rootOf past r ∧ Owned port domains rootOf (r :: past) log

/-- A domain that has started is entered only right after itself. -/
def Tame (started : Nat → Bool) (last : Option Nat) : List Entry → Prop
  | [] => True
  | e :: es => (started e.domain = true → last = some e.domain)
      ∧ Tame (fun d => started d || (decide (d = e.domain) && !e.refused)) (some e.domain) es

/-- Histories that differ at most in what other domains do. -/
def Agree (i : Nat) : List Entry → List Entry → Prop :=
  List.Forall₂ fun e e' => e.domain = e'.domain ∧ e.refused = e'.refused ∧ e.kernel = e'.kernel
    ∧ (e.domain = i → e.user = e'.user)

def runsOf (i : Nat) (log : List (Option Ran)) : List Ran := log.reduceOption.filter (·.domain = i)

-- == the gateway

section Gateway

variable {g g' : Gateway} {port : Port} {s : DomainState} {t : Trap}

theorem writeAll_lookup {registers : Nat → Nat} {l : List (Nat × Nat)}
    (hl : (l.map Prod.fst).Nodup) (n : Nat) :
    writeAll registers l n = (l.lookup n).getD (registers n) := by
  induction l generalizing registers with
  | nil => rfl
  | cons p l ih =>
    obtain ⟨slot, value⟩ := p
    obtain ⟨hnot, hrest⟩ := List.nodup_cons.mp hl
    rw [writeAll, ih hrest]
    by_cases hn : n = slot
    · have hnone : l.lookup n = none := by
        rw [List.lookup_eq_none_iff]
        intro p hp
        rw [hn]
        refine bne_iff_ne.mpr ?_
        intro heq
        have hmem : p.1 ∈ l.map Prod.fst := List.mem_map_of_mem hp
        exact hnot (heq ▸ hmem)
      rw [hnone, hn]
      simp
    · have hne : (n == slot) = false := beq_eq_false_iff_ne.mpr hn
      rw [List.lookup_cons, hne]
      dsimp only
      rw [if_neg hn]

theorem slots_nodup (port : Port) (arguments : Vector Nat 6) (stack : Nat) :
    (((port.stackSlot, stack) :: port.argumentSlots.zip arguments.toList).map Prod.fst).Nodup := by
  have hall : (port.stackSlot :: port.argumentSlots).Nodup := by
    cases port <;> decide
  have hlen : port.argumentSlots.length ≤ arguments.toList.length := by
    rw [Vector.length_toList]
    cases port <;> decide
  rw [List.map_cons, List.map_fst_zip hlen]
  exact hall

theorem begin_context (g : Gateway) (port : Port) (s : DomainState) (root kernel : Nat) :
    ((g.clear port).begin port s root kernel).context port
      = fresh port s root (port.firstStatus kernel) := by
  have hregs : (fun n => if port.has n then
        writeAll (g.clear port).registers
          ((port.stackSlot, s.stack) :: port.argumentSlots.zip s.arguments.toList) n else 0)
      = fun n => if n = port.stackSlot then s.stack
        else ((port.argumentSlots.zip s.arguments.toList).lookup n).getD 0 := by
    funext n
    rw [writeAll_lookup (slots_nodup port s.arguments s.stack)]
    by_cases hn : n = port.stackSlot
    · have hhas : port.has port.stackSlot = true := by cases port <;> rfl
      rw [if_pos hn, hn, if_pos hhas, List.lookup_cons]
      simp
    · have hne : (n == port.stackSlot) = false := beq_eq_false_iff_ne.mpr hn
      rw [if_neg hn, List.lookup_cons, hne]
      dsimp only
      by_cases hhas : port.has n = true
      · rw [if_pos hhas]
        congr 1
        cases port with
        | riscv =>
          have hin : 1 ≤ n ∧ n ≤ 31 := by
            unfold Port.has at hhas
            simpa using hhas
          exact if_pos hin
        | x86 =>
          have hin : n ≤ 15 := by
            unfold Port.has at hhas
            simpa using hhas
          have hn : n ≠ 15 := hn
          exact if_pos (by omega)
      · rw [if_neg hhas]
        -- no argument goes where there is no slot
        have hnone : (port.argumentSlots.zip s.arguments.toList).lookup n = none := by
          rw [List.lookup_eq_none_iff]
          intro p hp
          refine bne_iff_ne.mpr ?_
          intro heq
          have hmem : n ∈ port.argumentSlots := heq ▸ (List.of_mem_zip hp).1
          have hslots : ∀ k ∈ port.argumentSlots, port.has k = true := by
            cases port <;> decide
          exact hhas (hslots n hmem)
        rw [hnone]
        rfl
  unfold Gateway.context Gateway.begin fresh
  dsimp only
  rw [hregs]

theorem trapped_context (g : Gateway) (port : Port) (e : Entry) :
    (g.trapped port (e.user (g.context port))).context port
      = resumed port ⟨e.domain, g.context port, e.user (g.context port),
        (g.trapped port (e.user (g.context port))).exit⟩ := by
  generalize hu : e.user (g.context port) = t
  have hregs : (fun n => if port.has n = true then
        (if port.has n = true then t.registers n else g.registers n) else 0)
      = fun n => if port.has n = true then t.registers n else 0 := by
    funext n
    by_cases hn : port.has n = true
    · rw [if_pos hn, if_pos hn, if_pos hn]
    · rw [if_neg hn, if_neg hn]
  unfold Gateway.trapped Gateway.context resumed
  cases hk : t.kind with
  | call =>
    cases port <;> exact congrArg (Context.mk · _ _ _) hregs
  | fault =>
    dsimp only
    rw [hregs]

theorem trapped_exit (g : Gateway) (port : Port) (t : Trap) :
    (g.trapped port t).exit = exitOf port t := by
  unfold Gateway.trapped exitOf
  cases t.kind with
  | call => exact if_pos rfl
  | fault cause address => exact if_neg Nat.one_ne_zero

end Gateway

-- == the history

section History

variable {port : Port} {domains : Nat → DomainState} {rootOf : Nat → Nat}

theorem run_cons (m : Machine) (e : Entry) (es : List Entry) :
    m.run port domains rootOf (e :: es) = (m.enter port domains rootOf e).2
      :: (m.enter port domains rootOf e).1.run port domains rootOf es := rfl

variable {m : Machine}

theorem enter_started {e : Entry} (hon : m.started e.domain = true) :
    m.enter port domains rootOf e = m.resume port e := if_pos hon

theorem enter_refused (port : Port) (domains : Nat → DomainState)
    (rootOf : Nat → Nat) {e : Entry}
    (hon : ¬ m.started e.domain = true) (href : e.refused = true) :
    (m.enter port domains rootOf e).2 = none
      ∧ (m.enter port domains rootOf e).1.started = m.started := by
  unfold Machine.enter
  rw [if_neg hon, if_pos href]
  cases port <;> exact ⟨rfl, rfl⟩

theorem enter_begins {e : Entry} (hon : ¬ m.started e.domain = true)
    (href : ¬ e.refused = true) :
    m.enter port domains rootOf e
      = Machine.resume ⟨(m.gateway.clear port).begin port (domains e.domain)
          (rootOf (domains e.domain).view) e.kernel,
        fun d => if d = e.domain then true else m.started d⟩ port e := by
  unfold Machine.enter
  rw [if_neg hon, if_neg href]

theorem enter_started_after (port : Port) (domains : Nat → DomainState)
    (rootOf : Nat → Nat) (m : Machine) (e : Entry) :
    (m.enter port domains rootOf e).1.started
      = fun d => m.started d || (decide (d = e.domain) && !e.refused) := by
  funext d
  by_cases hon : m.started e.domain = true
  · rw [enter_started hon]
    show m.started d = _
    by_cases hd : d = e.domain
    · rw [hd, hon]
      rfl
    · rw [decide_eq_false hd]
      simp
  · by_cases href : e.refused = true
    · rw [(enter_refused port domains rootOf hon href).2, href]
      simp
    · rw [enter_begins hon href]
      show (if d = e.domain then true else m.started d) = _
      by_cases hd : d = e.domain
      · rw [if_pos hd, decide_eq_true hd, Bool.eq_false_iff.mpr href]
        simp
      · rw [if_neg hd, decide_eq_false hd]
        simp

/-- The domains that have started are those with a run, and the gateway holds
the context of the one entered last. -/
structure Held (port : Port) (m : Machine) (past : List Ran) (last : Option Nat) : Prop where
  started : ∀ d, m.started d = true ↔ ∃ r, past.find? (·.domain = d) = some r
  holds : ∀ d r, last = some d → past.find? (·.domain = d) = some r →
    m.gateway.context port = resumed port r

/-- After a run, the gateway holds what it left. -/
theorem Held.resume (port : Port) {past : List Ran} {e : Entry}
    (hstarted : ∀ d, m.started d = true ↔ d = e.domain ∨ ∃ r, past.find? (·.domain = d) = some r) :
    ∃ r, (m.resume port e).2 = some r ∧ r.domain = e.domain
      ∧ r.context = m.gateway.context port ∧ r.exit = exitOf port r.trap
      ∧ Held port (m.resume port e).1 (r :: past) (some e.domain) := by
  refine ⟨_, rfl, rfl, rfl, trapped_exit .., ?_, ?_⟩
  · intro d
    rw [List.find?_cons]
    by_cases hd : d = e.domain
    · have hdec : decide (e.domain = d) = true := decide_eq_true hd.symm
      rw [hdec]
      exact ⟨fun _ => ⟨_, rfl⟩, fun _ => (hstarted d).mpr (.inl hd)⟩
    · have hdec : decide (e.domain = d) = false := decide_eq_false fun h => hd h.symm
      rw [hdec]
      refine (hstarted d).trans ?_
      constructor
      · intro h
        exact h.resolve_left hd
      · exact .inr
  · intro d r hlast hfind
    cases hlast
    rw [List.find?_cons, decide_eq_true rfl] at hfind
    cases hfind
    exact trapped_context ..

theorem Held.enter {past : List Ran} {last : Option Nat}
    (h : Held port m past last) (domains : Nat → DomainState) (rootOf : Nat → Nat) {e : Entry}
    (htame : m.started e.domain = true → last = some e.domain) :
    ((m.enter port domains rootOf e).2 = none
      ∧ Held port (m.enter port domains rootOf e).1 past (some e.domain))
    ∨ ∃ r, (m.enter port domains rootOf e).2 = some r ∧ Own port domains rootOf past r
      ∧ Held port (m.enter port domains rootOf e).1 (r :: past) (some e.domain) := by
  by_cases hon : m.started e.domain = true
  · -- it resumes what it left
    obtain ⟨r, hfind⟩ := (h.started e.domain).mp hon
    have hall : ∀ d, m.started d = true
        ↔ d = e.domain ∨ ∃ r, past.find? (·.domain = d) = some r := by
      intro d
      refine (h.started d).trans ⟨.inr, ?_⟩
      rintro (rfl | hd)
      · exact ⟨r, hfind⟩
      · exact hd
    obtain ⟨r', hran, hdom, hctx, hexit, hheld⟩ := Held.resume port hall
    rw [enter_started hon]
    refine .inr ⟨r', hran, ⟨?_, hexit⟩, hheld⟩
    rw [hdom, hfind]
    exact hctx.trans (h.holds e.domain r (htame hon) hfind)
  · have hnone : past.find? (·.domain = e.domain) = none := by
      cases hfind : past.find? (·.domain = e.domain) with
      | none => rfl
      | some r => exact absurd ((h.started e.domain).mpr ⟨r, hfind⟩) hon
    by_cases href : e.refused = true
    · obtain ⟨hran, hsame⟩ := enter_refused port domains rootOf hon href
      refine .inl ⟨hran, ?_, ?_⟩
      · rw [hsame]
        exact h.started
      · intro d r hlast hfind
        cases hlast
        rw [hnone] at hfind
        cases hfind
    · -- it begins
      rw [enter_begins hon href]
      generalize hm : Machine.mk ((m.gateway.clear port).begin port (domains e.domain)
        (rootOf (domains e.domain).view) e.kernel)
        (fun d => if d = e.domain then true else m.started d) = m'
      have hall : ∀ d, m'.started d = true
          ↔ d = e.domain ∨ ∃ r, past.find? (·.domain = d) = some r := by
        intro d
        rw [← hm]
        dsimp only
        by_cases hd : d = e.domain
        · rw [if_pos hd]
          exact ⟨fun _ => .inl hd, fun _ => rfl⟩
        · rw [if_neg hd]
          refine (h.started d).trans ⟨.inr, ?_⟩
          intro hor
          exact hor.resolve_left hd
      obtain ⟨r', hran, hdom, hctx, hexit, hheld⟩ := Held.resume port hall
      refine .inr ⟨r', hran, ⟨?_, hexit⟩, hheld⟩
      rw [hdom, hnone]
      refine ⟨port.firstStatus e.kernel, hctx.trans ?_⟩
      rw [← hm]
      exact begin_context ..

theorem Held.owned {past : List Ran} {last : Option Nat}
    (h : Held port m past last) {es : List Entry} (htame : Tame m.started last es) :
    Owned port domains rootOf past (m.run port domains rootOf es) := by
  induction es generalizing m past last with
  | nil => trivial
  | cons e es ih =>
    obtain ⟨hfirst, hrest⟩ := htame
    rw [← enter_started_after port domains rootOf] at hrest
    rw [run_cons]
    rcases h.enter domains rootOf hfirst with
      ⟨hran, hheld⟩ | ⟨r, hran, hown, hheld⟩
    · rw [hran]
      exact ih hheld hrest
    · rw [hran]
      exact ⟨hown, ih hheld hrest⟩

-- -- noninterference

theorem runsOf_none (i : Nat) (log : List (Option Ran)) : runsOf i (none :: log) = runsOf i log :=
  rfl

theorem runsOf_some {i : Nat} {r : Ran} (log : List (Option Ran)) :
    runsOf i (some r :: log) = if r.domain = i then r :: runsOf i log else runsOf i log := by
  unfold runsOf
  rw [List.reduceOption_cons_of_some, List.filter_cons]
  by_cases hd : r.domain = i
  · rw [if_pos hd, if_pos (decide_eq_true hd)]
  · rw [if_neg hd, if_neg (by simpa using hd)]

structure Alike (port : Port) (i : Nat) (last : Option Nat) (m m' : Machine) : Prop where
  started : m.started = m'.started
  same : last = some i → m.started i = true → m.gateway.context port = m'.gateway.context port

section Resume

variable {i : Nat} {m m' : Machine} {e e' : Entry} (hdom : e.domain = e'.domain)
  (hi : e.domain = i → m.gateway.context port = m'.gateway.context port ∧ e.user = e'.user)

include hi

theorem Alike.resume (hstarted : m.started = m'.started) :
    Alike port i (some e.domain) (m.resume port e).1 (m'.resume port e').1 := by
  refine ⟨hstarted, ?_⟩
  intro hlast _
  obtain ⟨hctx, huser⟩ := hi (Option.some.inj hlast)
  have h1 := trapped_context m.gateway port e
  have h2 := trapped_context m'.gateway port e'
  unfold Machine.resume
  dsimp only
  rw [h1, h2, hctx, huser]
  rfl

include hdom

theorem runsOf_resume {log log' : List (Option Ran)} (hlog : runsOf i log = runsOf i log') :
    runsOf i ((m.resume port e).2 :: log) = runsOf i ((m'.resume port e').2 :: log') := by
  unfold Machine.resume
  dsimp only
  rw [runsOf_some, runsOf_some]
  by_cases hd : e.domain = i
  · obtain ⟨hctx, huser⟩ := hi hd
    rw [if_pos hd, if_pos (hdom ▸ hd), trapped_exit, trapped_exit, hctx, huser, hdom, hlog]
  · rw [if_neg hd, if_neg (hdom ▸ hd), hlog]

end Resume

theorem Alike.runs {i : Nat} {m m' : Machine} {last : Option Nat} (h : Alike port i last m m')
    {es es' : List Entry} (htame : Tame m.started last es) (hagree : Agree i es es') :
    runsOf i (m.run port domains rootOf es) = runsOf i (m'.run port domains rootOf es') := by
  induction hagree generalizing m m' last with
  | nil => rfl
  | @cons e e' es es' hee _ ih =>
    obtain ⟨hdom, hrefused, hkernel, huser⟩ := hee
    obtain ⟨hfirst, hrest⟩ := htame
    rw [← enter_started_after port domains rootOf] at hrest
    rw [run_cons, run_cons]
    by_cases hon : m.started e.domain = true
    · have hon' : m'.started e'.domain = true := by
        rw [← h.started, ← hdom]
        exact hon
      rw [enter_started hon] at hrest ⊢
      rw [enter_started hon']
      have hi : e.domain = i →
          m.gateway.context port = m'.gateway.context port ∧ e.user = e'.user := by
        intro hd
        exact ⟨h.same (hd ▸ hfirst hon) (hd ▸ hon), huser hd⟩
      exact runsOf_resume hdom hi (ih (Alike.resume hi h.started) hrest)
    · have hon' : ¬ m'.started e'.domain = true := by
        rw [← h.started, ← hdom]
        exact hon
      by_cases href : e.refused = true
      · obtain ⟨hran, hsame⟩ := enter_refused port domains rootOf hon href
        obtain ⟨hran', hsame'⟩ := enter_refused port domains rootOf hon' (hrefused ▸ href)
        rw [hran, hran', runsOf_none, runsOf_none]
        refine ih ⟨?_, ?_⟩ hrest
        · rw [hsame, hsame', h.started]
        · intro hlast honi
          rw [hsame] at honi
          cases hlast
          exact absurd honi hon
      · have href' : ¬ e'.refused = true := hrefused ▸ href
        rw [enter_begins hon href] at hrest ⊢
        rw [enter_begins hon' href']
        have hstarted : (fun d => if d = e.domain then true else m.started d)
            = fun d => if d = e'.domain then true else m'.started d := by
          rw [h.started, hdom]
        have hi : e.domain = i →
            ((m.gateway.clear port).begin port (domains e.domain)
              (rootOf (domains e.domain).view) e.kernel).context port
            = ((m'.gateway.clear port).begin port (domains e'.domain)
              (rootOf (domains e'.domain).view) e'.kernel).context port
            ∧ e.user = e'.user := by
          intro hd
          refine ⟨?_, huser hd⟩
          rw [begin_context, begin_context, hdom, hkernel]
        generalize hm : Machine.mk ((m.gateway.clear port).begin port (domains e.domain)
          (rootOf (domains e.domain).view) e.kernel)
          (fun d => if d = e.domain then true else m.started d) = m₁ at hrest ⊢
        generalize hm' : Machine.mk ((m'.gateway.clear port).begin port (domains e'.domain)
          (rootOf (domains e'.domain).view) e'.kernel)
          (fun d => if d = e'.domain then true else m'.started d) = m₂
        have hi : e.domain = i →
            m₁.gateway.context port = m₂.gateway.context port ∧ e.user = e'.user := by
          rw [← hm, ← hm']
          exact hi
        have hstarted : m₁.started = m₂.started := by
          rw [← hm, ← hm']
          exact hstarted
        exact runsOf_resume hdom hi (ih (Alike.resume hi hstarted) hrest)

end History

/-- If a domain that has started is entered only right after itself, each runs
with its own context and sees nothing of what the others do. -/
theorem domains_resume_their_own_context (port : Port) (domains : Nat → DomainState)
    (rootOf : Nat → Nat) (g : Gateway) (es : List Entry)
    (htame : Tame (fun _ => false) none es) :
    Owned port domains rootOf [] ((Machine.new g).run port domains rootOf es)
      ∧ ∀ i es', Agree i es es' →
        runsOf i ((Machine.new g).run port domains rootOf es)
          = runsOf i ((Machine.new g).run port domains rootOf es') := by
  constructor
  · refine Held.owned ⟨?_, ?_⟩ htame
    · intro d
      constructor
      · intro h
        cases h
      · rintro ⟨r, hr⟩
        cases hr
    · intro d r hlast
      cases hlast
  · intro i es' hagree
    refine Alike.runs (m := Machine.new g) ⟨rfl, ?_⟩ htame hagree
    intro hlast
    cases hlast

/-- Code that asks for its ring to be driven and leaves its registers zero. -/
def kicks (domain : Nat) : Entry := ⟨domain, false, 0, fun c => ⟨fun _ => 0, c.pc, 0, .call⟩⟩

def pair (d : Nat) : DomainState := ⟨d, 4096 * (d + 1), 0, .replicate 6 0⟩

def blank : Gateway := ⟨0, 0, 0, fun _ => 0, 0, 0, 0, 0, 0⟩

theorem domains_resume_their_own_context_twice :
    Tame (fun _ => false) none [kicks 0, kicks 0, kicks 1]
      ∧ Owned .riscv pair id [] ((Machine.new blank).run .riscv pair id
        [kicks 0, kicks 0, kicks 1]) := by
  have htame : Tame (fun _ => false) none [kicks 0, kicks 0, kicks 1] := by
    refine ⟨?_, ?_, ?_, trivial⟩
    · intro h
      cases h
    · intro _
      rfl
    · intro h
      exact absurd h (by decide)
  exact ⟨htame, (domains_resume_their_own_context .riscv pair id blank _ htame).1⟩

/-- Domain 0, entered again after domain 1, runs domain 1's code in its view. -/
theorem interleaved_domain_resumes_another :
    ¬ Owned .riscv pair id [] ((Machine.new blank).run .riscv pair id
      [kicks 0, kicks 1, kicks 0]) := by
  rintro ⟨-, -, ⟨hown, -⟩, -⟩
  have hpc := congrArg Context.pc hown
  have hbad : (8196 : Nat) = 4100 := hpc
  exact absurd hbad (by decide)

end Molt.Platform
