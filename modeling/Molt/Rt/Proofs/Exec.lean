/-
No level starves, and a level is first in, first out.

# What is due

While a level has tasks, the rotation comes to it after at most the slices of
the others. `due` counts from the level and the credit how many of the next
polls the level has at least; going around keeps it, and a poll takes one off
it only by giving the level a task.
-/
import Molt.Rt.Exec

namespace Molt.Rt.Local

open List Function

def only (l : Level) (tasks : List Task) : List Task := tasks.filter fun t => t.priority.level = l

theorem only_append (l : Level) (a b : List Task) : only l (a ++ b) = only l a ++ only l b :=
  filter_append ..

variable {s : Local} {l : Level} {n : Nat}

-- == one take

theorem push_ready (s : Local) (t : Task) (l : Level) :
    (s.push t).ready l = s.ready l ++ only l [t] := by
  rcases eq_or_ne l t.priority.level with rfl | hne
  · simp [push, refill, only]
  · simp [push, refill, only, hne, hne.symm]

theorem serve_ready (h : s.ready s.level ≠ []) (l : Level) :
    s.ready l = only l s.serve.1.toList ++ s.serve.2.ready l := by
  obtain ⟨t, rest, hq⟩ := exists_cons_of_ne_nil h
  have ht : t.priority.level = s.level := s.placed s.level t (by simp [hq])
  rcases eq_or_ne l s.level with rfl | hne
  · simp [serve, refill, only, hq, ht]
  · simp [serve, refill, only, hq, ht, hne, hne.symm]

/-- What going around keeps holds where `take` stops: after its last turn, or
at a level that has both a task and credit. -/
theorem takeIn_reaches {P : Local → Prop}
    (hstep : ∀ u, P u → u.credit = 0 ∨ u.ready u.level = [] → P u.rotate) (h : P s) :
    ∃ u, P u ∧ (takeIn n s = (none, u)
      ∨ u.credit ≠ 0 ∧ u.ready u.level ≠ [] ∧ takeIn n s = u.serve) := by
  induction n generalizing s with
  | zero => exact ⟨s, h, .inl rfl⟩
  | succ n ih =>
    unfold takeIn
    split
    · rename_i hpast
      exact ih (hstep s h hpast)
    · rename_i hstop
      obtain ⟨hcredit, hready⟩ := not_or.mp hstop
      exact ⟨s, h, .inr ⟨hcredit, hready, rfl⟩⟩

theorem takeIn_none (h : (takeIn (n + 1) s).1 = none) :
    (s.credit = 0 ∨ s.ready s.level = []) ∧ (takeIn n s.rotate).1 = none := by
  unfold takeIn at h
  split at h
  · rename_i hpast
    exact ⟨hpast, h⟩
  · rename_i hstop
    exact absurd (head?_eq_none_iff.mp h) (not_or.mp hstop).2

theorem takeIn_rotate_none (h : (takeIn (n + 1) s.rotate).1 = none) :
    s.ready (s.level + 1) = [] ∧ (takeIn n s.rotate.rotate).1 = none := by
  obtain ⟨hpast, hnext⟩ := takeIn_none h
  have hslice : ∀ m, SLICE m ≠ 0 := by decide
  exact ⟨hpast.resolve_left (hslice (s.level + 1)), hnext⟩

theorem take_none_iff (s : Local) : s.take.1 = none ↔ ∀ l, s.ready l = [] := by
  constructor
  · intro h l
    -- one turn to lose what is left of the credit, and one for each level
    obtain ⟨h₁, h⟩ := takeIn_rotate_none (takeIn_none h).2
    obtain ⟨h₂, h⟩ := takeIn_rotate_none h
    obtain ⟨h₃, -⟩ := takeIn_rotate_none h
    have hall : ∀ a b : Level, b = a + 1 ∨ b = a + 1 + 1 ∨ b = a + 1 + 1 + 1 := by decide
    rcases hall s.level l with rfl | rfl | rfl
    · exact h₁
    · exact h₂
    · exact h₃
  · intro h
    obtain ⟨u, hu, hend | ⟨-, hready, -⟩⟩ :=
      takeIn_reaches (s := s) (n := 6) (P := fun u => u.ready = s.ready) (fun _ hu _ => hu) rfl
    · exact congrArg Prod.fst hend
    · exact absurd ((congrFun hu _).trans (h _)) hready

theorem take_ready (s : Local) (l : Level) :
    s.ready l = only l s.take.1.toList ++ s.take.2.ready l := by
  obtain ⟨u, hu, hend | ⟨-, hready, hend⟩⟩ :=
    takeIn_reaches (s := s) (n := 6) (P := fun u => u.ready = s.ready) (fun _ hu _ => hu) rfl
  · simp [take, Priority.LEVELS, hend, only, hu]
  · rw [← hu]
    simpa [take, Priority.LEVELS, hend] using serve_ready hready l

theorem run_ready (s : Local) (calls : List Call) (l : Level) :
    s.ready l ++ only l (calls.filterMap Call.pushed)
      = only l (s.run calls).1 ++ (s.run calls).2.ready l := by
  induction calls generalizing s with
  | nil => simp [run, only]
  | cons call calls ih =>
    cases call with
    | push t =>
      rw [run, ← ih, push_ready]
      simp [only, Call.pushed, ← filter_append]
    | take =>
      rw [run, take_ready s l, append_assoc, only_append, append_assoc, ← ih s.take.2]
      simp only [filterMap_cons, Call.pushed]

-- == what is due

/-- Polls that `l` has at least among the next `n`, from level `m` with `credit`. -/
def due (l m : Level) (credit n : Nat) : Nat :=
  (if m = l then min credit n else 0) + min (SLICE l) (n - credit - between m l)

theorem between_next : ∀ m l : Level,
    between m l = if m + 1 = l then 0 else SLICE (m + 1) + between (m + 1) l := by
  decide

theorem due_rotate {m : Level} {credit : Nat} (h : m = l → credit = 0) :
    due l m credit n ≤ due l (m + 1) (SLICE (m + 1)) n := by
  unfold due
  rw [between_next m l]
  rcases eq_or_ne (m + 1) l with rfl | hne
  · have hm : ∀ m : Level, m ≠ m + 1 := by decide
    rw [if_neg (hm m), if_pos rfl, if_pos rfl]
    omega
  · rw [if_neg hne, if_neg hne]
    split
    · rename_i hm
      have hcredit := h hm
      omega
    · omega

theorem due_serve {m : Level} {credit : Nat} (h : credit ≠ 0) :
    due l m credit (n + 1) ≤ (if m = l then 1 else 0) + due l m (credit - 1) n := by
  unfold due
  split <;> omega

theorem due_all {m : Level} {credit : Nat} (h : credit ≤ SLICE m) :
    SLICE l ≤ due l m credit 42 := by
  have hall : ∀ m l : Level, (if m = l then 0 else SLICE m) + between m l + SLICE l ≤ 42 := by
    decide
  have hm := hall m l
  unfold due
  split at hm
  · subst m
    rw [if_pos rfl]
    omega
  · omega

theorem due_take (h : s.ready l ≠ []) :
    due l s.level s.credit (n + 1)
      ≤ (only l s.take.1.toList).length + due l s.take.2.level s.take.2.credit n := by
  obtain ⟨u, ⟨hu, hdue⟩, hend | ⟨hcredit, hready, hend⟩⟩ :=
    takeIn_reaches (s := s) (n := 6) (P := fun u => u.ready = s.ready
      ∧ due l s.level s.credit (n + 1) ≤ due l u.level u.credit (n + 1))
      (fun u hu hpast => ⟨hu.1, hu.2.trans (due_rotate fun hl =>
        hpast.resolve_right fun hnil => h (by rw [← hu.1, ← hl, hnil]))⟩) ⟨rfl, le_rfl⟩
  · exact absurd ((take_none_iff s).mp (congrArg Prod.fst hend) l) h
  · refine hdue.trans ((due_serve hcredit).trans ?_)
    obtain ⟨t, rest, hq⟩ := exists_cons_of_ne_nil hready
    have ht : t.priority.level = u.level := u.placed u.level t (by simp [hq])
    have htake : s.take = u.serve := hend
    rw [htake]
    refine Nat.add_le_add_right ?_ _
    split <;> simp_all [serve, only]

theorem due_run {calls : List Call} (h : s.Busy l calls) :
    due l s.level s.credit (calls.count .take) ≤ (only l (s.run calls).1).length := by
  induction calls generalizing s with
  | nil => simp [due]
  | cons call calls ih =>
    cases call with
    | push t => exact ih h
    | take =>
      rw [count_cons_self, run]
      refine (due_take h.1).trans ?_
      rw [only_append, length_append]
      exact Nat.add_le_add_left (ih h.2) _

/-- From every state and in every run: `take` finds a task if there is one,
each level comes out in the order it was pushed in, and of 42 takes with a
level ready at each the level has its slice. -/
theorem no_level_starves (s : Local) (calls : List Call) :
    (s.take.1 = none → ∀ l, s.ready l = [])
      ∧ (∀ l, s.ready l ++ only l (calls.filterMap Call.pushed)
        = only l (s.run calls).1 ++ (s.run calls).2.ready l)
      ∧ ∀ l, calls.count .take = 42 → s.Busy l calls →
        SLICE l ≤ (only l (s.run calls).1).length := by
  refine ⟨(take_none_iff s).mp, run_ready s calls, fun l htakes hbusy => ?_⟩
  have hrun := due_run hbusy
  rw [htakes] at hrun
  exact (due_all s.credit_le).trans hrun

instance decidableBusy (l : Level) : ∀ (calls : List Call) (s : Local), Decidable (s.Busy l calls)
  | [], _ => .isTrue trivial
  | .push t :: calls, s => decidableBusy l calls (s.push t)
  | .take :: calls, s => @instDecidableAnd _ _ _ (decidableBusy l calls s.take.2)

/-- Against a queue of high tasks that never runs out. -/
theorem no_level_starves_low :
    let calls := replicate 42 (Call.push ⟨0, .high⟩) ++ replicate 42 (Call.push ⟨1, .low⟩)
      ++ replicate 42 Call.take
    2 ≤ (only 2 (new.run calls).1).length :=
  (no_level_starves new _).2.2 2 (by decide +kernel) (by decide +kernel)

end Molt.Rt.Local
