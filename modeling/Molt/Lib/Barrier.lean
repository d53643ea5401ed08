/-
Histories of a request queue in front of a device, with requests that must
run alone.

# Events

A request is submitted, started at the device, and reaped from it as an
answer, which is then handed over and in the end taken by who asked. The
device answers in any order. `key` and `done` say which answer belongs to
which request, `solo` which requests are barriers.

# The law

`Orderly` is what the queue promises: requests are started in the order
they came, each at most once; every answer handed over or taken is one of
a started request, each at most once (as multisets of keys); a solo request
is started when everything before it has been reaped, and nothing is started
after it until it has been reaped itself.

# The rules

`Tracks` ties a history to what an implementation knows of it: the requests
not started yet, the keys at the device, the answers on their way, and
whether the device is shut. There is one rule per event, and a tracked
history is orderly.
-/
import Mathlib

namespace Molt.Lib.Barrier

open List Multiset

variable {κ ρ ι : Type}

-- == events

inductive Event (κ ρ : Type) where
  | submitted (x : κ)
  | started (x : κ)
  | reaped (y : ρ)
  | answered (y : ρ)
  | taken (y : ρ)
  deriving DecidableEq

def submitted : List (Event κ ρ) → List κ
  | [] => []
  | .submitted x :: log => x :: submitted log
  | .started _ :: log | .reaped _ :: log | .answered _ :: log | .taken _ :: log =>
    submitted log

def started : List (Event κ ρ) → List κ
  | [] => []
  | .started x :: log => x :: started log
  | .submitted _ :: log | .reaped _ :: log | .answered _ :: log | .taken _ :: log =>
    started log

def reaped : List (Event κ ρ) → List ρ
  | [] => []
  | .reaped y :: log => y :: reaped log
  | .submitted _ :: log | .started _ :: log | .answered _ :: log | .taken _ :: log =>
    reaped log

def answered : List (Event κ ρ) → List ρ
  | [] => []
  | .answered y :: log => y :: answered log
  | .submitted _ :: log | .started _ :: log | .reaped _ :: log | .taken _ :: log =>
    answered log

def taken : List (Event κ ρ) → List ρ
  | [] => []
  | .taken y :: log => y :: taken log
  | .submitted _ :: log | .started _ :: log | .reaped _ :: log | .answered _ :: log =>
    taken log

section Append

variable (l m : List (Event κ ρ))

@[simp] theorem submitted_append : submitted (l ++ m) = submitted l ++ submitted m := by
  induction l with
  | nil => rfl
  | cons e l ih => cases e <;> simp [submitted, ih]

@[simp] theorem started_append : started (l ++ m) = started l ++ started m := by
  induction l with
  | nil => rfl
  | cons e l ih => cases e <;> simp [started, ih]

@[simp] theorem reaped_append : reaped (l ++ m) = reaped l ++ reaped m := by
  induction l with
  | nil => rfl
  | cons e l ih => cases e <;> simp [reaped, ih]

@[simp] theorem answered_append : answered (l ++ m) = answered l ++ answered m := by
  induction l with
  | nil => rfl
  | cons e l ih => cases e <;> simp [answered, ih]

@[simp] theorem taken_append : taken (l ++ m) = taken l ++ taken m := by
  induction l with
  | nil => rfl
  | cons e l ih => cases e <;> simp [taken, ih]

end Append

-- == the law

section Law

variable (key : κ → ι) (done : ρ → ι) (solo : κ → Prop)

def keys {β : Type} (f : β → ι) (l : List β) : Multiset ι := ↑(l.map f)

@[simp] theorem keys_nil {β : Type} (f : β → ι) : keys f [] = 0 := rfl

@[simp] theorem keys_append {β : Type} (f : β → ι) (l m : List β) :
    keys f (l ++ m) = keys f l + keys f m := by
  simp [keys]

@[simp] theorem keys_cons {β : Type} (f : β → ι) (x : β) (l : List β) :
    keys f (x :: l) = f x ::ₘ keys f l := rfl

def slotKeys {β : Type} (f : β → ι) (l : List (Option β)) : Multiset ι := keys f l.reduceOption

theorem slotKeys_cons {β : Type} (f : β → ι) (a : Option β) (l : List (Option β)) :
    slotKeys f (a :: l) = keys f a.toList + slotKeys f l := by
  cases a with
  | none => simp [slotKeys, reduceOption_cons_of_none]
  | some x => simp [slotKeys, reduceOption_cons_of_some]

theorem slotKeys_replicate {β : Type} (f : β → ι) (n : Nat) :
    slotKeys f (List.replicate n none) = 0 := by
  simp [slotKeys, reduceOption_replicate_none]

theorem slotKeys_set {β : Type} (f : β → ι) {l : List (Option β)} {i : Nat} {a : Option β}
    (h : l[i]? = some a) (b : Option β) :
    slotKeys f (l.set i b) + keys f a.toList = slotKeys f l + keys f b.toList := by
  induction l generalizing i with
  | nil => simp at h
  | cons c l ih =>
    cases i with
    | zero =>
      simp only [getElem?_cons_zero, Option.some.injEq] at h
      rw [set_cons_zero, slotKeys_cons, slotKeys_cons, h, add_right_comm,
        add_right_comm (keys f a.toList), add_comm (keys f b.toList)]
    | succ i =>
      rw [set_cons_succ, slotKeys_cons, slotKeys_cons, add_assoc, add_assoc, ih (by simpa using h)]

theorem slotKeys_fill {β : Type} (f : β → ι) {l : List (Option β)} {i : Nat}
    (h : l[i]? = some none) (x : β) : slotKeys f (l.set i (some x)) = f x ::ₘ slotKeys f l := by
  simpa [add_comm] using slotKeys_set f h (some x)

theorem slotKeys_clear {β : Type} (f : β → ι) {l : List (Option β)} {i : Nat} {x : β}
    (h : l[i]? = some (some x)) : f x ::ₘ slotKeys f (l.set i none) = slotKeys f l := by
  simpa [add_comm] using slotKeys_set f h none

structure Orderly (log : List (Event κ ρ)) : Prop where
  inOrder : started log <+: submitted log
  answeredOnce : keys done (answered log) ≤ keys key (started log)
  takenOnce : keys done (taken log) ≤ keys key (started log)
  /-- What was submitted before a solo request has been reaped when it is
  started, and so nothing else is at the device. -/
  alone : ∀ l₁ x l₂, log = l₁ ++ .started x :: l₂ → solo x →
    started l₁ ++ [x] <+: submitted l₁ ∧ keys done (reaped l₁) = keys key (started l₁)
  /-- Nothing is started after a solo request before it has been reaped. -/
  shut : ∀ l₁ x l₂ y l₃, log = l₁ ++ .started x :: (l₂ ++ .started y :: l₃) → solo x →
    key x ∈ keys done (reaped l₂)

/-- What an implementation knows of a history: the requests not started,
the keys at the device, the keys reaped and not handed over, the keys handed
over and not taken, and whether the device is shut. -/
structure Tracks (log : List (Event κ ρ)) (queue : List κ) (device owed unclaimed : Multiset ι)
    (shut : Bool) : Prop where
  order : submitted log = started log ++ queue
  balance : keys key (started log) = device + keys done (reaped log)
  owing : keys done (reaped log) = keys done (answered log) + owed
  claims : keys done (taken log) + unclaimed ≤ keys done (answered log)
  alone : ∀ l₁ x l₂, log = l₁ ++ .started x :: l₂ → solo x →
    started l₁ ++ [x] <+: submitted l₁ ∧ keys done (reaped l₁) = keys key (started l₁)
  gate : ∀ l₁ x l₂, log = l₁ ++ .started x :: l₂ → solo x →
    key x ∈ keys done (reaped l₂) ∨ (shut = true ∧ started l₂ = [] ∧ reaped l₂ = [])
  passed : ∀ l₁ x l₂ y l₃, log = l₁ ++ .started x :: (l₂ ++ .started y :: l₃) → solo x →
    key x ∈ keys done (reaped l₂)

namespace Tracks

variable {key done solo} {log : List (Event κ ρ)} {queue : List κ}
  {device owed unclaimed : Multiset ι} {shut : Bool}

theorem nil : Tracks key done solo [] [] 0 0 0 false where
  order := rfl
  balance := rfl
  owing := rfl
  claims := le_refl _
  alone := fun l1 x l2 h => by simp at h
  gate := fun l1 x l2 h => by simp at h
  passed := fun l1 x l2 y l3 h => by simp at h

theorem orderly (h : Tracks key done solo log queue device owed unclaimed shut) :
    Orderly key done solo log where
  inOrder := ⟨queue, h.order.symm⟩
  answeredOnce := by
    rw [h.balance, h.owing]
    exact le_trans (le_add_right _ _) (le_add_left _ _)
  takenOnce := by
    rw [h.balance, h.owing]
    refine le_trans (le_trans (le_add_right _ _) h.claims) ?_
    exact le_trans (le_add_right _ _) (le_add_left _ _)
  alone := h.alone
  shut := h.passed

end Tracks

/-- A last event that starts nothing leaves every earlier start where it
was. -/
theorem split_of_snoc {log l1 l2 : List (Event κ ρ)} {e f : Event κ ρ}
    (h : log ++ [e] = l1 ++ f :: l2) (hne : f ≠ e) :
    ∃ l2', l2 = l2' ++ [e] ∧ log = l1 ++ f :: l2' := by
  rcases eq_nil_or_concat l2 with rfl | ⟨l2', g, rfl⟩
  · obtain ⟨-, h2⟩ := append_inj' h rfl
    cases h2
    exact absurd rfl hne
  · refine ⟨l2', ?_⟩
    rw [concat_eq_append, show l1 ++ f :: (l2' ++ [g]) = (l1 ++ f :: l2') ++ [g] by simp] at h
    obtain ⟨h1, h2⟩ := append_inj' h rfl
    cases h2
    exact ⟨by simp, h1⟩

namespace Tracks

variable {key done solo} {log : List (Event κ ρ)} {queue : List κ}
  {device owed unclaimed : Multiset ι} {shut : Bool}

section

variable (h : Tracks key done solo log queue device owed unclaimed shut)

include h

theorem silent {e : Event κ ρ}
    (hs : started [e] = []) (hr : reaped [e] = []) {queue' : List κ} {owed' unclaimed' : Multiset ι}
    (horder : submitted (log ++ [e]) = started log ++ queue')
    (howing : keys done (reaped log) = keys done (answered (log ++ [e])) + owed')
    (hclaims : keys done (taken (log ++ [e])) + unclaimed' ≤ keys done (answered (log ++ [e]))) :
    Tracks key done solo (log ++ [e]) queue' device owed' unclaimed' shut := by
  have hne : ∀ x, Event.started x ≠ e := by
    rintro x rfl
    cases hs
  refine ⟨?_, ?_, ?_, hclaims, ?_, ?_, ?_⟩
  · rw [started_append, hs, append_nil]
    exact horder
  · rw [started_append, reaped_append, hs, hr, append_nil, append_nil]
    exact h.balance
  · rw [reaped_append, hr, append_nil]
    exact howing
  · intro l1 x l2 heq hx
    obtain ⟨l2', rfl, hlog⟩ := split_of_snoc heq (hne x)
    exact h.alone l1 x l2' hlog hx
  · intro l1 x l2 heq hx
    obtain ⟨l2', rfl, hlog⟩ := split_of_snoc heq (hne x)
    rw [reaped_append, started_append, hr, hs, append_nil, append_nil]
    exact h.gate l1 x l2' hlog hx
  · intro l1 x l2 y l3 heq hx
    rw [show l1 ++ Event.started x :: (l2 ++ .started y :: l3)
      = (l1 ++ .started x :: l2) ++ .started y :: l3 by simp] at heq
    obtain ⟨l3', rfl, hlog⟩ := split_of_snoc heq (hne y)
    exact h.passed l1 x l2 y l3' (by rw [hlog]; simp) hx

theorem submit (x : κ) :
    Tracks key done solo (log ++ [.submitted x]) (queue ++ [x]) device owed unclaimed shut := by
  apply h.silent rfl rfl
  · rw [submitted_append, h.order, append_assoc]
    rfl
  · simpa [answered] using h.owing
  · simpa [answered, taken] using h.claims

theorem answer {y : ρ}
    {owed' : Multiset ι} (hy : owed = done y ::ₘ owed') :
    Tracks key done solo (log ++ [.answered y]) queue device owed' (done y ::ₘ unclaimed) shut := by
  apply h.silent rfl rfl
  · simpa [submitted] using h.order
  · rw [h.owing, hy, answered_append, keys_append]
    simp only [answered, keys_cons, keys_nil, cons_zero]
    rw [add_assoc, singleton_add]
  · have := h.claims
    simp only [answered_append, answered, taken_append, taken, append_nil, keys_append,
      keys_cons, keys_nil]
    rw [add_cons, add_cons, add_zero]
    exact (cons_le_cons_iff _).mpr this

theorem take {y : ρ}
    {unclaimed' : Multiset ι} (hy : done y ::ₘ unclaimed' ≤ unclaimed) :
    Tracks key done solo (log ++ [.taken y]) queue device owed unclaimed' shut := by
  apply h.silent rfl rfl
  · simpa [submitted] using h.order
  · simpa [answered] using h.owing
  simp only [answered_append, answered, taken_append, taken, append_nil, keys_append,
    keys_cons, keys_nil]
  refine le_trans ?_ h.claims
  rw [cons_zero, add_assoc, singleton_add]
  exact add_le_add le_rfl hy

theorem lose {unclaimed' : Multiset ι} (hle : unclaimed' ≤ unclaimed) :
    Tracks key done solo log queue device owed unclaimed' shut :=
  { h with claims := le_trans (add_le_add le_rfl hle) h.claims }

end

/-- Starting the next request on a device that is not shut, a solo one on a
device with nothing on it, which it shuts. -/
theorem start {x : κ} (h : Tracks key done solo log (x :: queue) device owed unclaimed false)
    (hidle : solo x → device = 0) {shut' : Bool} (hshut : solo x → shut' = true) :
    Tracks key done solo (log ++ [.started x]) queue (key x ::ₘ device) owed unclaimed shut' := by
  have hpast : ∀ l1 x' l2, log = l1 ++ .started x' :: l2 → solo x' →
      key x' ∈ keys done (reaped l2) := by
    intro l1 x' l2 hlog hx'
    rcases h.gate l1 x' l2 hlog hx' with hmem | ⟨hfalse, -, -⟩
    · exact hmem
    · cases hfalse
  have hlast : ∀ {l1 : List (Event κ ρ)} {x' : κ} {l2 : List (Event κ ρ)},
      log ++ [Event.started x] = l1 ++ .started x' :: l2 →
        (x' = x ∧ l1 = log ∧ l2 = []) ∨ ∃ l2', l2 = l2' ++ [.started x]
          ∧ log = l1 ++ .started x' :: l2' := by
    intro l1 x' l2 heq
    rcases eq_nil_or_concat l2 with rfl | ⟨l2', g, rfl⟩
    · obtain ⟨h1, h2⟩ := append_inj' heq rfl
      cases h2
      exact .inl ⟨rfl, h1.symm, rfl⟩
    · rw [concat_eq_append, show l1 ++ Event.started x' :: (l2' ++ [g])
        = (l1 ++ .started x' :: l2') ++ [g] by simp] at heq
      obtain ⟨h1, h2⟩ := append_inj' heq rfl
      cases h2
      exact .inr ⟨l2', by simp, h1⟩
  refine ⟨?_, ?_, ?_, ?_, ?_, ?_, ?_⟩
  · rw [submitted_append, h.order, started_append]
    simp [submitted, started]
  · rw [started_append, reaped_append, keys_append, h.balance]
    simp only [started, reaped, keys_cons, keys_nil, append_nil]
    rw [cons_zero, cons_add, add_comm, singleton_add]
  · simpa [reaped, answered] using h.owing
  · simpa [answered, taken] using h.claims
  · intro l1 x' l2 heq hx'
    rcases hlast heq with ⟨rfl, rfl, rfl⟩ | ⟨l2', rfl, hlog⟩
    · refine ⟨⟨queue, by rw [h.order]; simp⟩, ?_⟩
      rw [h.balance, hidle hx', zero_add]
    · exact h.alone l1 x' l2' hlog hx'
  · intro l1 x' l2 heq hx'
    rcases hlast heq with ⟨rfl, rfl, rfl⟩ | ⟨l2', rfl, hlog⟩
    · exact .inr ⟨hshut hx', rfl, rfl⟩
    · rw [reaped_append, keys_append]
      exact .inl (mem_add.mpr (.inl (hpast l1 x' l2' hlog hx')))
  · intro l1 x' l2 y l3 heq hx'
    rw [show l1 ++ Event.started x' :: (l2 ++ .started y :: l3)
      = (l1 ++ .started x' :: l2) ++ .started y :: l3 by simp] at heq
    rcases hlast heq with ⟨rfl, hlog, rfl⟩ | ⟨l3', rfl, hlog⟩
    · exact hpast l1 x' l2 hlog.symm hx'
    · exact h.passed l1 x' l2 y l3' (by rw [hlog]; simp) hx'

/-- Reaping an answer. If a solo request was at the device, it was the only
one there, so the answer is its own and the device may be opened again. -/
theorem reap (h : Tracks key done solo log queue device owed unclaimed shut) {y : ρ}
    {device' : Multiset ι} (hy : device = done y ::ₘ device') (shut' : Bool) :
    Tracks key done solo (log ++ [.reaped y]) queue device' (done y ::ₘ owed) unclaimed shut' := by
  have hne : ∀ x, Event.started x ≠ (.reaped y : Event κ ρ) := by
    rintro x ⟨⟩
  have hreaped : ∀ l1 x l2, log = l1 ++ .started x :: l2 → solo x →
      key x ∈ keys done (reaped (l2 ++ [.reaped y])) := by
    intro l1 x l2 hlog hx
    rw [reaped_append, keys_append]
    rcases h.gate l1 x l2 hlog hx with hmem | ⟨-, hs, hr⟩
    · exact mem_add.mpr (.inl hmem)
    -- nothing was started or reaped since, so the device holds `x` alone
    have hbal := h.balance
    rw [hlog] at hbal
    simp only [started_append, started, hs, reaped_append, reaped, hr, keys_append, keys_cons,
      keys_nil, (h.alone l1 x l2 hlog hx).2, add_zero, hy] at hbal
    rw [add_comm, add_right_cancel_iff] at hbal
    have hcard := congrArg Multiset.card hbal
    simp at hcard
    rw [hcard, Multiset.cons_zero, Multiset.cons_zero, Multiset.singleton_inj] at hbal
    refine mem_add.mpr (.inr ?_)
    simp [reaped, hbal]
  refine ⟨?_, ?_, ?_, ?_, ?_, ?_, ?_⟩
  · simpa [submitted, started] using h.order
  · rw [started_append, reaped_append, keys_append, keys_append]
    simp only [started, reaped, keys_cons, keys_nil, cons_zero, add_zero]
    rw [h.balance, hy, ← add_assoc, cons_add, add_comm _ {done y}, singleton_add]
  · rw [reaped_append, answered_append, keys_append, h.owing]
    simp [reaped, answered, add_comm, singleton_add]
  · simpa [answered, taken] using h.claims
  · intro l1 x l2 heq hx
    obtain ⟨l2', rfl, hlog⟩ := split_of_snoc heq (hne x)
    exact h.alone l1 x l2' hlog hx
  · intro l1 x l2 heq hx
    obtain ⟨l2', rfl, hlog⟩ := split_of_snoc heq (hne x)
    exact .inl (hreaped l1 x l2' hlog hx)
  · intro l1 x l2 z l3 heq hx
    rw [show l1 ++ Event.started x :: (l2 ++ .started z :: l3)
      = (l1 ++ .started x :: l2) ++ .started z :: l3 by simp] at heq
    obtain ⟨l3', rfl, hlog⟩ := split_of_snoc heq (hne z)
    exact h.passed l1 x l2 z l3' (by rw [hlog]; simp) hx

end Tracks

end Law

end Molt.Lib.Barrier
