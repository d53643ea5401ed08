/-
What a hostile domain cannot do to the kernel's end of its rings.

The domain may store anything anywhere between any two accesses of the
kernel, so nothing is known of a value when it is loaded. `Sober` is what
the kernel's log keeps all the same: the private head counts the slots
taken, each answer is what the copied words parse to, each word is copied
once and from the slot the head names, a tail is a lie exactly when it is
more than the capacity ahead, and a ring that lied is not read again.
-/
import Molt.Abi.Ring

namespace Molt.Abi

open List

-- == the logs

/-- The words loaded by the takes of a log, with where each was loaded. -/
def copies (log : List Event) : List (Nat × Nat × UInt64) :=
  log.filterMap fun
    | .copied s w v => some (s, w, v)
    | _ => none

/-- The loads that copy `words` out of the slot index `i` names. -/
def copiesOf (n i : Nat) (words : Words) : List (Nat × Nat × UInt64) :=
  words.zipIdx.map fun (v, w) => (place n (i % 2 ^ 32), w, v)

/-- The accesses of the takes: a load of the tail, a load of a word, or the
store of the head with the answer. -/
def Event.reads : Event → Bool
  | .polled _ _ _ => true
  | .copied _ _ _ => true
  | .took _ _ => true
  | _ => false

def Event.faults : Event → Bool
  | .polled _ _ .fault => true
  | .barred _ => true
  | _ => false

section Logs

variable (log : List Event)

@[simp] theorem tooks_append (log' : List Event) :
    tooks (log ++ log') = tooks log ++ tooks log' := filterMap_append

@[simp] theorem publisheds_append (log' : List Event) :
    publisheds (log ++ log') = publisheds log ++ publisheds log' := filterMap_append

@[simp] theorem copies_append (log' : List Event) :
    copies (log ++ log') = copies log ++ copies log' := filterMap_append

end Logs

theorem tooks_of_not_reads {e : Event} (h : e.reads = false) : tooks [e] = [] := by
  cases e <;> simp_all [Event.reads, tooks]

theorem copies_of_not_reads {e : Event} (h : e.reads = false) : copies [e] = [] := by
  cases e <;> simp_all [Event.reads, copies]

theorem copiesOf_append (n i : Nat) (words : Words) (v : UInt64) :
    copiesOf n i (words ++ [v])
      = copiesOf n i words ++ [(place n (i % 2 ^ 32), words.length, v)] := by
  simp [copiesOf, zipIdx_append]

theorem bump_count (k : Nat) : bump (k % 2 ^ 32) = (k + 1) % 2 ^ 32 := by
  unfold bump
  omega

-- == the invariant

/-- What the log of the kernel keeps, whatever the domain writes. -/
structure Sober (n : Nat) (s : System) : Prop where
  head : s.kernel.head = (tooks s.log).length % 2 ^ 32
  answers : ∀ words next, .took words next ∈ s.log → next = .of words
  loads : copies s.log
    = ((tooks s.log).zipIdx.flatMap fun (words, i) => copiesOf n i words)
      ++ copiesOf n (tooks s.log).length (s.kernel.copying.getD [])
  whole : ∀ words ∈ tooks s.log, words.length = SLOT_WORDS
  size : ∀ words, s.kernel.copying = some words → words.length ≤ SLOT_WORDS
  decides : ∀ pre post head tail answer, s.log = pre ++ .polled head tail answer :: post →
    head = (tooks pre).length % 2 ^ 32 ∧ (answer = .fault ↔ ahead tail head > n)
  honest : s.kernel.fault = none → ∀ e ∈ s.log, e.faults = false
  lied : s.kernel.fault ≠ none → s.kernel.copying = none
    ∧ ∃ pre head tail post, s.log = pre ++ .polled head tail .fault :: post
      ∧ (∀ e ∈ pre, e.faults = false) ∧ ∀ e ∈ post, e.reads = false

variable {n : Nat} {s : System}

theorem Sober.new (n : Nat) : Sober n .new where
  head := rfl
  answers := by simp [System.new]
  loads := rfl
  whole := by simp [System.new, tooks]
  size := by simp [System.new]
  decides := by simp [System.new]
  honest := by simp [System.new]
  lied := by simp [System.new]

theorem Sober.memory (h : Sober n s) (c : Channel) : Sober n { s with channel := c } := { h with }

/-- Where an event of a longer log was. -/
theorem split_last {α : Type} {l pre post : List α} {e x : α} (h : l ++ [e] = pre ++ x :: post) :
    (pre = l ∧ x = e ∧ post = []) ∨ ∃ post', post = post' ++ [e] ∧ l = pre ++ x :: post' := by
  rcases eq_nil_or_concat post with rfl | ⟨post', y, rfl⟩
  · obtain ⟨h1, h2⟩ := append_inj_left' h rfl, append_inj_right' h rfl
    exact .inl ⟨h1.symm, (singleton_inj.mp h2).symm, rfl⟩
  · rw [concat_eq_append, ← cons_append, ← append_assoc] at h
    obtain ⟨h1, h2⟩ := And.intro (append_inj_left' h rfl) (append_inj_right' h rfl)
    rw [singleton_inj] at h2
    exact .inr ⟨post', by rw [concat_eq_append, h2], h1⟩

section

variable (h : Sober n s)
include h

theorem Sober.note {s' : System} {e : Event} (hlog : s'.log = s.log ++ [e])
    (hhead : s'.kernel.head = (tooks (s.log ++ [e])).length % 2 ^ 32)
    (hanswer : ∀ words next, e = .took words next → next = .of words)
    (hcopies : copies (s.log ++ [e])
      = ((tooks (s.log ++ [e])).zipIdx.flatMap fun (words, i) => copiesOf n i words)
        ++ copiesOf n (tooks (s.log ++ [e])).length (s'.kernel.copying.getD []))
    (hwhole : ∀ words ∈ tooks [e], words.length = SLOT_WORDS)
    (hsize : ∀ words, s'.kernel.copying = some words → words.length ≤ SLOT_WORDS)
    (hdecides : ∀ head tail answer, e = .polled head tail answer →
      head = (tooks s.log).length % 2 ^ 32 ∧ (answer = .fault ↔ ahead tail head > n))
    (hhonest : s'.kernel.fault = none → s.kernel.fault = none ∧ e.faults = false)
    (hlied : s'.kernel.fault ≠ none → s'.kernel.copying = none
      ∧ ((s.kernel.fault ≠ none ∧ e.reads = false)
        ∨ (s.kernel.fault = none ∧ ∃ head tail, e = .polled head tail .fault))) :
    Sober n s' where
  head := hlog ▸ hhead
  answers := by
    intro words next hmem
    rw [hlog] at hmem
    rcases mem_append.mp hmem with hmem | hmem
    · exact h.answers words next hmem
    · exact hanswer words next (mem_singleton.mp hmem).symm
  loads := hlog ▸ hcopies
  whole := by
    intro words hmem
    rw [hlog, tooks_append] at hmem
    rcases mem_append.mp hmem with hmem | hmem
    · exact h.whole words hmem
    · exact hwhole words hmem
  size := hsize
  decides := by
    intro pre post head tail answer hsplit
    rw [hlog] at hsplit
    rcases split_last hsplit with ⟨rfl, hx, -⟩ | ⟨post', -, hl⟩
    · exact hdecides head tail answer hx.symm
    · exact h.decides pre post' head tail answer hl
  honest := by
    intro hnone e' hmem
    rw [hlog] at hmem
    obtain ⟨hbefore, he⟩ := hhonest hnone
    rcases mem_append.mp hmem with hmem | hmem
    · exact h.honest hbefore e' hmem
    · rw [mem_singleton.mp hmem]
      exact he
  lied := by
    intro hsome
    obtain ⟨hcopy, hcase⟩ := hlied hsome
    refine ⟨hcopy, ?_⟩
    rcases hcase with ⟨hbefore, hreads⟩ | ⟨hbefore, head, tail, rfl⟩
    · obtain ⟨-, pre, head, tail, post, hl, hpre, hpost⟩ := h.lied hbefore
      refine ⟨pre, head, tail, post ++ [e], by rw [hlog, hl]; simp, hpre, ?_⟩
      intro e' he'
      rcases mem_append.mp he' with he' | he'
      · exact hpost e' he'
      · rw [mem_singleton.mp he']
        exact hreads
    · exact ⟨s.log, head, tail, [], hlog, h.honest hbefore, by simp⟩

theorem Sober.other {s' : System} {e : Event} (hlog : s'.log = s.log ++ [e])
    (hhead : s'.kernel.head = s.kernel.head) (hcopy : s'.kernel.copying = s.kernel.copying)
    (hfault : s'.kernel.fault = s.kernel.fault) (hreads : e.reads = false)
    (hfaults : e.faults = true → s.kernel.fault ≠ none) : Sober n s' := by
  have htooks : tooks (s.log ++ [e]) = tooks s.log := by
    rw [tooks_append, tooks_of_not_reads hreads, append_nil]
  have hcop : copies (s.log ++ [e]) = copies s.log := by
    rw [copies_append, copies_of_not_reads hreads, append_nil]
  refine h.note hlog ?_ ?_ ?_ ?_ ?_ ?_ ?_ ?_
  · rw [hhead, htooks, h.head]
  · rintro words next rfl
    cases hreads
  · rw [hcop, htooks, hcopy, h.loads]
  · rw [tooks_of_not_reads hreads]
    simp
  · rw [hcopy]
    exact h.size
  · rintro head tail answer rfl
    cases hreads
  · intro hnone
    rw [hfault] at hnone
    refine ⟨hnone, ?_⟩
    by_contra hf
    exact hfaults (by simpa using hf) hnone
  · intro hsome
    rw [hfault] at hsome
    refine ⟨?_, .inl ⟨hsome, hreads⟩⟩
    rw [hcopy]
    exact (h.lied hsome).1

-- == the moves

theorem Sober.polledAt (hcopy : s.kernel.copying = none)
    (hfault : s.kernel.fault = none) (published : Nat) : Sober n (s.polledAt n published) := by
  have hcopies := h.loads
  rw [hcopy] at hcopies
  unfold System.polledAt
  generalize hready : ahead published s.kernel.head = ready
  dsimp only
  have htooks : ∀ answer, tooks (s.log ++ [.polled s.kernel.head published answer])
      = tooks s.log := by
    intro answer
    simp [tooks]
  have hcop : ∀ answer, copies (s.log ++ [.polled s.kernel.head published answer])
      = copies s.log := by
    intro answer
    simp [copies]
  have hdecides {answer} (hanswer : answer = .fault ↔ ready > n) head tail answer'
      (heq : Event.polled s.kernel.head published answer = .polled head tail answer') :
      head = (tooks s.log).length % 2 ^ 32 ∧ (answer' = .fault ↔ ahead tail head > n) := by
    cases heq
    rw [hready]
    exact ⟨h.head, hanswer⟩
  split
  · refine h.note rfl (htooks _ ▸ h.head) (by simp) ?_ (by simp [tooks]) h.size
      (hdecides (by simp; omega)) (fun _ => ⟨hfault, rfl⟩) (absurd hfault)
    rw [hcop, htooks, hcopies]
    exact congrArg _ (by rw [← hcopy]; rfl)
  · split
    · refine h.note rfl (htooks _ ▸ h.head) (by simp) ?_ (by simp [tooks]) h.size
        (hdecides (by simpa using by assumption)) (fun hnone => by cases hnone)
        (fun _ => ⟨hcopy, .inr ⟨hfault, _, _, rfl⟩⟩)
      rw [hcop, htooks, hcopies]
      exact congrArg _ (by rw [← hcopy]; rfl)
    · refine h.note rfl (htooks _ ▸ h.head) (by simp) ?_ (by simp [tooks]) ?_
        (hdecides (by simp; omega)) (fun _ => ⟨hfault, rfl⟩) (absurd hfault)
      · rw [hcop, htooks, hcopies]
        rfl
      · rintro words ⟨⟩
        exact Nat.zero_le _

theorem Sober.take : Sober n (s.take n) := by
  unfold System.take
  split
  · exact h
  · rename_i fault hcopy hfault
    refine h.other rfl rfl rfl rfl rfl fun _ => ?_
    rw [hfault]
    simp
  · rename_i hcopy hfault
    exact h.polledAt hcopy hfault _

theorem Sober.copy : Sober n (s.copy n) := by
  unfold System.copy
  split
  · exact h
  rename_i words hcopy
  have hfault : s.kernel.fault = none := by
    by_contra hsome
    rw [(h.lied hsome).1] at hcopy
    cases hcopy
  have hsize := h.size words hcopy
  have hcopies := h.loads
  rw [hcopy] at hcopies
  dsimp only [Option.getD] at hcopies
  split
  · rename_i hlt
    have htooks : ∀ v, tooks (s.log ++ [.copied (place n s.kernel.head) words.length v])
        = tooks s.log := by simp [tooks]
    refine h.note rfl ?_ (by simp) ?_ (by simp [tooks]) ?_ (by simp) ?_ ?_
    · rw [htooks]
      exact h.head
    · rw [copies_append, hcopies, htooks]
      show _ = _ ++ copiesOf n _ (words ++ [_])
      rw [copiesOf_append, ← h.head, append_assoc]
      rfl
    · rintro words' ⟨⟩
      rw [length_append, length_singleton]
      exact hlt
    · exact fun _ => ⟨hfault, rfl⟩
    · intro hsome
      exact absurd hfault hsome
  · rename_i hge
    have htooks : tooks (s.log ++ [.took words (.of words)]) = tooks s.log ++ [words] := by
      simp [tooks]
    refine h.note rfl ?_ ?_ ?_ ?_ (by rintro words' ⟨⟩) (by simp) ?_ ?_
    · show bump s.kernel.head = _
      rw [htooks, h.head, bump_count, length_append]
      rfl
    · rintro words' next ⟨⟩
      rfl
    · rw [copies_append, hcopies, htooks]
      show _ = _ ++ copiesOf n _ []
      simp [copies, zipIdx_append, copiesOf]
    · intro words' hmem
      simp [tooks] at hmem
      rw [hmem]
      omega
    · exact fun _ => ⟨hfault, rfl⟩
    · intro hsome
      exact absurd hfault hsome

theorem Sober.publish (reply : Reply) : Sober n (s.publish n reply) := by
  unfold System.publish
  split
  · exact h
  · unfold System.askedAt
    split
    · exact h.other rfl rfl rfl rfl rfl (by simp [Event.faults])
    · exact h.other rfl rfl rfl rfl rfl (by simp [Event.faults])

theorem Sober.write : Sober n (s.write n) := by
  unfold System.write
  split
  · exact h
  · split
    · exact { h with }
    · exact h.other rfl rfl rfl rfl rfl (by simp [Event.faults])

theorem Sober.step (act : Act) : Sober n (s.step n act) := by
  cases act with
  | poke loc v => exact h.memory _
  | move m =>
    cases m with
    | take => exact h.take
    | copy => exact h.copy
    | publish reply => exact h.publish reply
    | write => exact h.write

theorem Sober.run (acts : List Act) : Sober n (s.run n acts) := by
  induction acts generalizing s with
  | nil => exact h
  | cons act acts ih => exact ih (h.step act)

end

-- == publishing

/-- Between `c` and `c'` only completion slots of the ring, and its tail,
have changed. -/
structure WritesReplies (n : Nat) (c c' : Channel) : Prop where
  submissions : c'.submissions = c.submissions
  head : c'.completions.head = c.completions.head
  slots : ∀ j w, ¬ (j < n ∧ w < SLOT_WORDS) → c'.completions.slots j w = c.completions.slots j w

theorem place_lt {n : Nat} (hn : 0 < n) (i : Nat) : place n i < n := by
  have : place n i ≤ n - 1 := Nat.and_le_right
  omega

theorem publish_writes (s : System) (reply : Reply) : (s.publish n reply).channel = s.channel := by
  unfold System.publish
  split
  · rfl
  · unfold System.askedAt
    split <;> rfl

theorem write_writes (hn : 0 < n) (s : System) : WritesReplies n s.channel (s.write n).channel := by
  unfold System.write
  split
  · exact ⟨rfl, rfl, fun _ _ _ => rfl⟩
  · split
    · rename_i hw
      refine ⟨rfl, rfl, fun j w' hout => if_neg ?_⟩
      rintro ⟨rfl, rfl⟩
      exact hout ⟨place_lt hn _, hw⟩
    · exact ⟨rfl, rfl, fun _ _ _ => rfl⟩

end Molt.Abi
