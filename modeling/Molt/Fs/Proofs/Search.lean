/-
What tree lookups compute, on any tree whose levels count down.

`get` and `next` are loops with a path; `getIn` and `nextIn` say what
they return, by recursion on the level. No order between nodes is needed
for that, only that each child is one level below its parent (`Shaped`):
a mount walks trees of which that is all it knows.

# The path

`next` keeps the links it took, and resumes from the innermost one that
has a link to its right. `hitIn` is what the leaf at the end of the
descent answers, `pathIn` the path to it and `climbIn` what the way back
up answers; together they are `nextIn` (`nextIn_or_climbIn`), because the
leftmost leaf under a link is never empty.
-/
import Molt.Fs.Proofs.Store

namespace Molt.Fs

open Lib

-- == the answers

section Answers

variable (V : Nat → Option Node) (key : Key) (inclusive : Bool)

/-- Block `b` roots a tree of level `l`, each child one level below. -/
def Shaped : Nat → Nat → Prop
  | 0, b => ∃ n, V b = some n ∧ n.level = 0
  | l + 1, b => ∃ n, V b = some n ∧ n.level = l + 1 ∧ ∀ i ≤ n.len, Shaped l (n.child i)

/-- The value under `key`. -/
def getIn : Nat → Nat → Option Value
  | 0, b => (V b).bind fun n => match n.entry? (n.lower key) with
      | some (held, value) => if held = key then some value else none
      | none => none
  | l + 1, b => (V b).bind fun n => getIn l (n.child (n.upper key))

def firstIn : Nat → Nat → Option (Key × Value)
  | 0, b => (V b).bind fun n => n.entry? 0
  | l + 1, b => (V b).bind fun n => firstIn l (n.child 0)

/-- The first pair at `key` or past it. -/
def nextIn : Nat → Nat → Option (Key × Value)
  | 0, b => (V b).bind fun n =>
    n.entry? (if inclusive then n.lower key else n.upper key)
  | l + 1, b => (V b).bind fun n =>
    (nextIn l (n.child (n.upper key))).or
      (if n.upper key < n.len then firstIn V l (n.child (n.upper key + 1))
       else none)

/-- What the leaf at the end of the descent answers. -/
def hitIn : Nat → Nat → Option (Key × Value)
  | 0, b => (V b).bind fun n =>
    n.entry? (if inclusive then n.lower key else n.upper key)
  | l + 1, b => (V b).bind fun n => hitIn l (n.child (n.upper key))

/-- The path of the descent, on top of `path`. -/
def pathIn : Nat → Nat → List (Nat × Nat) → List (Nat × Nat)
  | 0, _, path => path
  | l + 1, b, path => match V b with
      | some n => pathIn l (n.child (n.upper key)) ((b, n.upper key) :: path)
      | none => path

/-- What the way back up a path answers, its innermost node being of
level `l + 1`. -/
def climbIn : Nat → List (Nat × Nat) → Option (Key × Value)
  | _, [] => none
  | l, (b, c) :: path => (V b).bind fun n =>
    if c < n.len then firstIn V l (n.child (c + 1)) else climbIn (l + 1) path

/-- The nodes of a path are there, and what is right of it is shaped. -/
def PathOk : Nat → List (Nat × Nat) → Prop
  | _, [] => True
  | l, (b, c) :: path => ∃ n, V b = some n
      ∧ (c < n.len → Shaped V l (n.child (c + 1))) ∧ PathOk (l + 1) path

end Answers

section Facts

variable {V : Nat → Option Node} {key : Key} {inclusive : Bool}

theorem Node.upper_le (n : Node) (hn : n.WF) (key : Key) : n.upper key ≤ n.len := by
  obtain ⟨as, bs, hkeys, has, hbs⟩ := Node.split_upper hn.sorted key
  rw [Node.upper_eq hkeys has hbs, Node.len, hkeys]
  simp

theorem firstIn_ne_none (hV : ∀ b n, V b = some n → n.WF) {l b : Nat}
    (h : Shaped V l b) : firstIn V l b ≠ none := by
  induction l generalizing b with
  | zero =>
    obtain ⟨n, hn, _⟩ := h
    have hpos := (hV b n hn).len_pos
    simp [firstIn, hn, Node.entry?, Node.len, hpos]
  | succ l ih =>
    obtain ⟨n, hn, _, hch⟩ := h
    simpa [firstIn, hn] using ih (hch 0 (Nat.zero_le _))

/-- The search answers from the leaf it comes down to, or else from the
way back up. -/
theorem nextIn_or_climbIn (key : Key) (inclusive : Bool)
    (hV : ∀ b n, V b = some n → n.WF) {l b : Nat} (h : Shaped V l b)
    (path : List (Nat × Nat)) :
    (nextIn V key inclusive l b).or (climbIn V l path)
      = (hitIn V key inclusive l b).or (climbIn V 0 (pathIn V key l b path)) := by
  induction l generalizing b path with
  | zero => rfl
  | succ l ih =>
    obtain ⟨n, hn, _, hch⟩ := h
    have hle := n.upper_le (hV b n hn) key
    have hstep := ih (hch _ hle) ((b, n.upper key) :: path)
    simp only [nextIn, hitIn, pathIn, hn, Option.bind_some]
    rw [← hstep, Option.or_assoc]
    congr 1
    simp only [climbIn, hn, Option.bind_some]
    split
    case isTrue hlt =>
      obtain ⟨e, he⟩ := Option.ne_none_iff_exists'.mp
        (firstIn_ne_none hV (hch (n.upper key + 1) hlt))
      rw [he]
      rfl
    case isFalse => rfl

theorem pathOk_pathIn (hV : ∀ b n, V b = some n → n.WF) {l b : Nat}
    (h : Shaped V l b) {path : List (Nat × Nat)} (hp : PathOk V l path) :
    PathOk V 0 (pathIn V key l b path) := by
  induction l generalizing b path with
  | zero => exact hp
  | succ l ih =>
    obtain ⟨n, hn, _, hch⟩ := h
    have hle := n.upper_le (hV b n hn) key
    simp only [pathIn, hn]
    exact ih (hch _ hle) ⟨n, hn, fun hlt => hch _ hlt, hp⟩

theorem length_pathIn {l b : Nat} (h : Shaped V l b)
    (hV : ∀ b n, V b = some n → n.WF) (path : List (Nat × Nat)) :
    (pathIn V key l b path).length = l + path.length := by
  induction l generalizing b path with
  | zero => simp [pathIn]
  | succ l ih =>
    obtain ⟨n, hn, _, hch⟩ := h
    simp only [pathIn, hn]
    rw [ih (hch _ (n.upper_le (hV b n hn) key)), List.length_cons]
    omega

end Facts

-- == the programs

section Programs

variable {s : Store} {key : Key} {inclusive : Bool}

theorem Store.view_wf (b : Nat) (n : Node) (h : s.view b = some n) : n.WF := Volume.view_wf h

theorem Shaped.level_lt {l b : Nat} (h : Shaped s.view l b) : l < 8 := by
  cases l with
  | zero => decide
  | succ l =>
    obtain ⟨n, hn, hl, _⟩ := h
    rw [← hl]
    exact (Store.view_wf b n hn).level

section

variable (hs : s.volume.Sound) (hc : Coherent Exact s)

include hs hc

theorem getFrom_spec {l b m : Nat}
    (h : Shaped s.view l b) (hm : l < m) :
    Wp (Tree.getFrom key m b) s
      (fun v s' => v = getIn s.view key l b ∧ Still Exact s s')
      (fun _ s' => Still Exact s s' ∧ ¬ Calm s) := by
  induction l generalizing s b m with
  | zero =>
    obtain ⟨m, rfl⟩ : ∃ k, m = k + 1 := ⟨m - 1, by omega⟩
    obtain ⟨n, hn, hl⟩ := h
    rw [Tree.getFrom, wp_bind]
    refine (read_exact hs hc hn).mono ?_ fun _ _ h => h
    rintro n s1 ⟨rfl, h1⟩
    rw [if_pos hl]
    cases he : n.entry? (n.lower key) with
    | none | some => simpa [getIn, hn, he] using h1
  | succ l ih =>
    obtain ⟨m, rfl⟩ : ∃ k, m = k + 1 := ⟨m - 1, by omega⟩
    obtain ⟨n, hn, hl, hch⟩ := h
    rw [Tree.getFrom, wp_bind]
    refine (read_exact hs hc hn).mono ?_ fun _ _ h => h
    rintro n s1 ⟨rfl, h1⟩
    rw [if_neg (by omega)]
    have hsub : Shaped s1.view l (n.child (n.upper key)) := by
      rw [h1.view]
      exact hch _ (n.upper_le (Store.view_wf b n hn) key)
    refine (ih (h1.sound hs) h1.cache hsub (by omega)).mono ?_ ?_
    · rintro v s2 ⟨rfl, h2⟩
      refine ⟨?_, h1.trans h2⟩
      simp [getIn, hn, h1.view]
    · rintro e s2 ⟨h2, hcalm⟩
      exact ⟨h1.trans h2, fun hcs => hcalm (h1.calm hcs)⟩

theorem leftmost_spec {l b : Nat}
    (h : Shaped s.view l b) (fuel : Nat) :
    Wp (Tree.leftmost fuel b) s
      (fun e s' => e = firstIn s.view l b ∧ Still Exact s s')
      (fun _ s' => Still Exact s s' ∧ (Calm s → fuel ≤ l)) := by
  induction l generalizing s b fuel with
  | zero =>
    cases fuel with
    | zero => exact ⟨.refl hc, fun _ => le_rfl⟩
    | succ fuel =>
      obtain ⟨n, hn, hl⟩ := h
      rw [Tree.leftmost, wp_bind]
      refine (read_exact hs hc hn).mono ?_ fun _ _ h => ⟨h.1, fun hcs => absurd hcs h.2⟩
      rintro n s1 ⟨rfl, h1⟩
      rw [if_pos hl]
      simpa [firstIn, hn] using h1
  | succ l ih =>
    cases fuel with
    | zero => exact ⟨.refl hc, fun _ => Nat.zero_le _⟩
    | succ fuel =>
      obtain ⟨n, hn, hl, hch⟩ := h
      rw [Tree.leftmost, wp_bind]
      refine (read_exact hs hc hn).mono ?_ fun _ _ h => ⟨h.1, fun hcs => absurd hcs h.2⟩
      rintro n s1 ⟨rfl, h1⟩
      rw [if_neg (by omega)]
      have hsub : Shaped s1.view l (n.child 0) := by
        rw [h1.view]
        exact hch 0 (Nat.zero_le _)
      refine (ih (h1.sound hs) h1.cache hsub fuel).mono ?_ ?_
      · rintro v s2 ⟨rfl, h2⟩
        refine ⟨?_, h1.trans h2⟩
        simp [firstIn, hn, h1.view]
      · rintro e s2 ⟨h2, hcalm⟩
        exact ⟨h1.trans h2, fun hcs => Nat.succ_le_succ (hcalm (h1.calm hcs))⟩

theorem nextDescend_spec {l b room : Nat} (h : Shaped s.view l b) (hroom : l ≤ room)
    (path : List (Nat × Nat)) :
    Wp (Tree.nextDescend key inclusive room path b) s (fun r s' => Still Exact s s' ∧ match r with
        | .inl e => hitIn s.view key inclusive l b = some e
        | .inr p => hitIn s.view key inclusive l b = none ∧ p = pathIn s.view key l b path)
      (fun _ s' => Still Exact s s' ∧ ¬ Calm s) := by
  induction l generalizing s b room path with
  | zero =>
    obtain ⟨n, hn, hl⟩ := h
    have hleaf : ∀ s1, Still Exact s s1 →
        Wp (if n.level = 0 then pure (Tree.nextHit key inclusive n path)
            else fail FsError.corrupt : TreeM _) s1
          (fun r s' => Still Exact s s' ∧ match r with
            | .inl e => hitIn s.view key inclusive 0 b = some e
            | .inr p => hitIn s.view key inclusive 0 b = none ∧ p = pathIn s.view key 0 b path)
          (fun _ s' => Still Exact s s' ∧ ¬ Calm s) := by
      intro s1 h1
      rw [if_pos hl, wp_pure]
      simp only [hitIn, hn, Option.bind_some, pathIn, Tree.nextHit]
      cases he : n.entry? (if inclusive then n.lower key else n.upper key) with
      | none => exact ⟨h1, rfl, rfl⟩
      | some e => exact ⟨h1, rfl⟩
    cases room <;>
      (rw [Tree.nextDescend, wp_bind]
       refine (read_exact hs hc hn).mono ?_ fun _ _ h => h
       rintro n s1 ⟨rfl, h1⟩
       simpa only [hl, if_true] using hleaf s1 h1)
  | succ l ih =>
    obtain ⟨room, rfl⟩ : ∃ k, room = k + 1 := ⟨room - 1, by omega⟩
    obtain ⟨n, hn, hl, hch⟩ := h
    rw [Tree.nextDescend, wp_bind]
    refine (read_exact hs hc hn).mono ?_ fun _ _ h => h
    rintro n s1 ⟨rfl, h1⟩
    rw [if_neg (by omega)]
    have hsub : Shaped s1.view l (n.child (n.upper key)) := by
      rw [h1.view]
      exact hch _ (n.upper_le (Store.view_wf b n hn) key)
    refine (ih (h1.sound hs) h1.cache hsub (by omega) _).mono ?_ ?_
    · rintro r s2 ⟨h2, hr⟩
      refine ⟨h1.trans h2, ?_⟩
      rw [h1.view] at hr
      simpa only [hitIn, hn, Option.bind_some, pathIn] using hr
    · rintro e s2 ⟨h2, hcalm⟩
      exact ⟨h1.trans h2, fun hcs => hcalm (h1.calm hcs)⟩

theorem nextClimb_spec {l : Nat}
    {path : List (Nat × Nat)} (h : PathOk s.view l path)
    (hlen : l + path.length ≤ 8) :
    Wp (Tree.nextClimb path) s
      (fun e s' => e = climbIn s.view l path ∧ Still Exact s s')
      (fun _ s' => Still Exact s s' ∧ ¬ Calm s) := by
  induction path generalizing s l with
  | nil => exact ⟨rfl, .refl hc⟩
  | cons p path ih =>
    obtain ⟨b, c⟩ := p
    obtain ⟨n, hn, hsub, hrest⟩ := h
    rw [List.length_cons] at hlen
    rw [Tree.nextClimb, wp_bind]
    refine (read_exact hs hc hn).mono ?_ fun _ _ h => h
    rintro n s1 ⟨rfl, h1⟩
    simp only [climbIn, hn, Option.bind_some]
    split
    case isTrue hge =>
      rw [if_neg (by omega)]
      rw [← h1.view] at hrest
      refine (ih (h1.sound hs) h1.cache hrest (by omega)).mono ?_ ?_
      · rintro e s2 ⟨rfl, h2⟩
        rw [h1.view]
        exact ⟨rfl, h1.trans h2⟩
      · rintro e s2 ⟨h2, hcalm⟩
        exact ⟨h1.trans h2, fun hcs => hcalm (h1.calm hcs)⟩
    case isFalse hlt =>
      rw [if_pos (by omega), wp_bind, wp_get]
      have hsub1 := hsub (by omega)
      rw [← h1.view] at hsub1
      refine (leftmost_spec (h1.sound hs) h1.cache hsub1 _).mono ?_ ?_
      · rintro e s2 ⟨rfl, h2⟩
        rw [h1.view]
        exact ⟨rfl, h1.trans h2⟩
      · rintro e s2 ⟨h2, hcalm⟩
        refine ⟨h1.trans h2, fun hcs => ?_⟩
        have hfuel := (h1.calm hcs).2
        have hle := hcalm (h1.calm hcs)
        simp only [FUEL] at hfuel
        omega

theorem get_spec {l root : Nat}
    (h : Shaped s.view l root) (hroot : root ≠ 0) :
    Wp (Tree.get root key) s
      (fun v s' => v = getIn s.view key l root ∧ Still Exact s s')
      (fun _ s' => Still Exact s s' ∧ ¬ Calm s) := by
  rw [Tree.get, if_neg hroot]
  exact getFrom_spec hs hc h h.level_lt

theorem next_spec {l root : Nat}
    (h : Shaped s.view l root) (hroot : root ≠ 0) :
    Wp (Tree.next root key inclusive) s
      (fun e s' => e = nextIn s.view key inclusive l root ∧ Still Exact s s')
      (fun _ s' => Still Exact s s' ∧ ¬ Calm s) := by
  have hwf := Store.view_wf (s := s)
  have hlt := h.level_lt
  have hall := nextIn_or_climbIn key inclusive hwf h []
  simp only [climbIn, Option.or_none] at hall
  rw [Tree.next, if_neg hroot, wp_bind]
  refine (nextDescend_spec hs hc h (Nat.le_of_lt hlt) []).mono ?_ fun _ _ h => h
  rintro (e | path) s1 ⟨h1, hr⟩
  · refine ⟨?_, h1⟩
    rw [hall, hr]
    rfl
  · obtain ⟨hnone, rfl⟩ := hr
    have hok : PathOk s1.view 0 (pathIn s.view key l root []) := by
      rw [h1.view]
      exact pathOk_pathIn hwf h trivial
    have hlen : 0 + (pathIn s.view key l root []).length ≤ 8 := by
      rw [length_pathIn h hwf]
      simp
      omega
    refine (nextClimb_spec (h1.sound hs) h1.cache hok hlen).mono ?_ ?_
    · rintro e s2 ⟨rfl, h2⟩
      refine ⟨?_, h1.trans h2⟩
      rw [hall, hnone, h1.view]
      rfl
    · rintro e s2 ⟨h2, hcalm⟩
      exact ⟨h1.trans h2, fun hcs => hcalm (h1.calm hcs)⟩

end

end Programs

end Molt.Fs
