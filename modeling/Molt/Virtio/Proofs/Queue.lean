/-
What a virtqueue keeps when its device lies.

# Links

`Links q i c` says that the descriptors from `i` on are `c`, as the table
links them, and that the last has no `NEXT`. Links are determined by where
they start, so they never meet an index twice, and the walk of `free_chain`
finds exactly them.

# What the device may say

A chain that was pushed keeps its links until it is popped. A descriptor that
was freed keeps its old ones as well, and every link ever written leads to an
end (`Sound.ends`). So an entry that names the middle of a chain is always
walked to its end and freed, and one that names a free descriptor is unless
there are more descriptors behind it than are not free. `Fair` is what is left
for the device to write: the head of an outstanding chain, an index out of
range, or a free descriptor that leads through too many others.
-/
import Molt.Virtio.Queue

namespace Molt.Virtio

open List

-- == links

/-- The descriptors from `i` on, to the last of the chain. -/
def Links (q : Queue) : Nat → List Nat → Prop
  | _, [] => False
  | i, j :: c => i = j ∧ i < q.size
      ∧ if (q.table i).flags &&& NEXT = 0 then c = [] else Links q (q.table i).next c

section Links

variable {q q' : Queue} {i j : Nat} {c c' : List Nat}

section

variable (h : Links q i c)
include h

theorem Links.unique (h' : Links q i c') : c = c' := by
  induction c generalizing i c' with
  | nil => exact absurd h id
  | cons j c ih =>
    cases c' with
    | nil => exact absurd h' id
    | cons j' c' =>
      obtain ⟨hj, -, hc⟩ := h
      obtain ⟨hj', -, hc'⟩ := h'
      by_cases hflag : (q.table i).flags &&& NEXT = 0
      · rw [if_pos hflag] at hc hc'
        rw [← hj, ← hj', hc, hc']
      · rw [if_neg hflag] at hc hc'
        rw [← hj, ← hj', ih hc hc']

theorem Links.lt : ∀ j ∈ c, j < q.size := by
  induction c generalizing i with
  | nil => exact absurd h id
  | cons k c ih =>
    obtain ⟨hk, hlt, hc⟩ := h
    intro j hj
    rcases mem_cons.mp hj with rfl | hj
    · exact hk ▸ hlt
    by_cases hflag : (q.table i).flags &&& NEXT = 0
    · rw [if_pos hflag] at hc
      rw [hc] at hj
      cases hj
    · rw [if_neg hflag] at hc
      exact ih hc j hj

theorem Links.head : c.head? = some i := by
  cases c with
  | nil => exact absurd h id
  | cons j c => exact congrArg some h.1.symm

theorem Links.of_mem (hj : j ∈ c) : ∃ c', Links q j c' ∧ c' <:+ c := by
  induction c generalizing i with
  | nil => exact absurd h id
  | cons k c ih =>
    obtain ⟨hk, hlt, hc⟩ := h
    by_cases hjk : j = k
    · exact ⟨k :: c, ⟨hjk, by rw [hjk, ← hk]; exact hlt, by rw [hjk, ← hk]; exact hc⟩, suffix_rfl⟩
    have hmem : j ∈ c := (mem_cons.mp hj).resolve_left hjk
    by_cases hflag : (q.table i).flags &&& NEXT = 0
    · rw [if_pos hflag] at hc
      rw [hc] at hmem
      cases hmem
    · rw [if_neg hflag] at hc
      obtain ⟨c', hc', hsuf⟩ := ih hc hmem
      exact ⟨c', hc', hsuf.trans (suffix_cons k c)⟩

theorem Links.nodup : c.Nodup := by
  induction c generalizing i with
  | nil => exact absurd h id
  | cons k c ih =>
    have hall := h
    obtain ⟨hk, hlt, hc⟩ := h
    by_cases hflag : (q.table i).flags &&& NEXT = 0
    · rw [if_pos hflag] at hc
      rw [hc]
      exact nodup_singleton k
    · rw [if_neg hflag] at hc
      refine nodup_cons.mpr ⟨?_, ih hc⟩
      intro hmem
      obtain ⟨c', hc', hsuf⟩ := hc.of_mem hmem
      have heq := hall.unique (hk ▸ hc')
      have hlen := hsuf.length_le
      rw [← heq, length_cons] at hlen
      omega

theorem Links.length_le : c.length ≤ q.size := by
  have hsub : c ⊆ List.range q.size := fun j hj => mem_range.mpr (h.lt j hj)
  have hle := (subperm_of_subset h.nodup hsub).length_le
  rw [length_range] at hle
  exact hle

theorem Links.congr (hsize : q'.size = q.size)
    (htable : ∀ j ∈ c, q'.table j = q.table j) : Links q' i c := by
  induction c generalizing i with
  | nil => exact h
  | cons j c ih =>
    obtain ⟨hj, hlt, hc⟩ := h
    have hi : q'.table i = q.table i := hj ▸ htable j mem_cons_self
    refine ⟨hj, hsize ▸ hlt, ?_⟩
    rw [hi]
    by_cases hflag : (q.table i).flags &&& NEXT = 0
    · rw [if_pos hflag] at hc ⊢
      exact hc
    · rw [if_neg hflag] at hc ⊢
      exact ih hc fun k hk => htable k (mem_cons_of_mem j hk)

end

/-- Links that are written anew lead to an end if those they lead to do. -/
theorem Links.redirect {chain : List Nat} (h : Links q i c) (hsize : q'.size = q.size)
    (htable : ∀ j ∉ chain, q'.table j = q.table j)
    (hchain : ∀ j ∈ chain, ∃ c', Links q' j c') : ∃ c', Links q' i c' := by
  induction c generalizing i with
  | nil => exact absurd h id
  | cons j c ih =>
    obtain ⟨hj, hlt, hc⟩ := h
    by_cases hi : i ∈ chain
    · exact hchain i hi
    by_cases hflag : (q.table i).flags &&& NEXT = 0
    · exact ⟨[i], rfl, hsize ▸ hlt, by rw [htable i hi, if_pos hflag]⟩
    · rw [if_neg hflag] at hc
      obtain ⟨c', hc'⟩ := ih hc
      exact ⟨i :: c', rfl, hsize ▸ hlt, by rwa [htable i hi, if_neg hflag]⟩

/-- The descriptors the table leads through from `i` on, `turns` at most. -/
def Queue.following (q : Queue) : Nat → Nat → List Nat
  | 0, _ => []
  | turns + 1, i =>
    if (q.table i).flags &&& NEXT = 0 then [i] else i :: q.following turns (q.table i).next

theorem Links.following_eq {turns : Nat} (h : Links q i c) (hturns : c.length ≤ turns) :
    q.following turns i = c := by
  induction c generalizing i turns with
  | nil => exact absurd h id
  | cons j c ih =>
    obtain ⟨rfl, -, hc⟩ := h
    cases turns with
    | zero => exact absurd hturns (Nat.not_succ_le_zero _)
    | succ turns =>
      rw [Queue.following]
      by_cases hflag : (q.table i).flags &&& NEXT = 0
      · rw [if_pos hflag] at hc ⊢
        rw [hc]
      · rw [if_neg hflag] at hc ⊢
        rw [ih hc (Nat.le_of_succ_le_succ hturns)]

-- -- the walk

theorem walk_of_links {turns : Nat} (acc : List Nat) (h : Links q i c)
    (hturns : c.length ≤ turns) (hnew : ∀ j ∈ c, j ∉ acc)
    (hfit : q.available + (acc.length + c.length) ≤ q.size) :
    q.walk turns i acc = some (c.reverse ++ acc) := by
  have hnd := h.nodup
  induction c generalizing i turns acc with
  | nil => exact absurd h id
  | cons j c ih =>
    obtain ⟨hj, hlt, hc⟩ := h
    cases turns with
    | zero => exact absurd hturns (Nat.not_succ_le_zero _)
    | succ turns =>
      rw [length_cons] at hfit hturns
      have hi : i ∉ acc := hj ▸ hnew j mem_cons_self
      obtain ⟨hjc, hndc⟩ := nodup_cons.mp hnd
      rw [Queue.walk, if_neg (Nat.not_le.mpr hlt), if_neg hi]
      by_cases hflag : (q.table i).flags &&& NEXT = 0
      · rw [if_pos hflag] at hc
        rw [hc, length_nil] at hfit
        rw [if_pos hflag, if_neg (by rw [length_cons]; omega), hc, hj]
        rfl
      rw [if_neg hflag] at hc
      rw [if_neg hflag, ih (i :: acc) hc (by omega) ?_ ?_ hndc, reverse_cons, append_assoc, hj]
      · rfl
      · intro k hk hmem
        rcases mem_cons.mp hmem with heq | hmem
        · rw [heq, hj] at hk
          exact hjc hk
        · exact hnew k (mem_cons_of_mem j hk) hmem
      · rw [length_cons]
        omega

theorem links_of_walk {turns : Nat} {acc r : List Nat} (h : q.walk turns i acc = some r) :
    ∃ c, Links q i c ∧ r = c.reverse ++ acc ∧ q.available + (acc.length + c.length) ≤ q.size := by
  induction turns generalizing i acc with
  | zero => cases h
  | succ turns ih =>
    rw [Queue.walk] at h
    by_cases hlt : i ≥ q.size
    · rw [if_pos hlt] at h
      cases h
    rw [if_neg hlt] at h
    by_cases hmem : i ∈ acc
    · rw [if_pos hmem] at h
      cases h
    rw [if_neg hmem] at h
    by_cases hflag : (q.table i).flags &&& NEXT = 0
    · rw [if_pos hflag] at h
      by_cases hfit : q.available + (i :: acc).length > q.size
      · rw [if_pos hfit] at h
        cases h
      rw [if_neg hfit] at h
      cases h
      refine ⟨[i], ⟨rfl, Nat.not_le.mp hlt, by rw [if_pos hflag]⟩, rfl, ?_⟩
      rw [length_cons] at hfit
      rw [length_singleton]
      omega
    · rw [if_neg hflag] at h
      obtain ⟨c, hc, hr, hfit⟩ := ih h
      refine ⟨i :: c, ⟨rfl, Nat.not_le.mp hlt, by rw [if_neg hflag]; exact hc⟩, ?_, ?_⟩
      · rw [hr, reverse_cons, append_assoc]
        rfl
      · rw [length_cons] at hfit ⊢
        omega

end Links

-- == the state

/-- Free list and outstanding chains are all the descriptors, each once, the
chains are linked as they were pushed, and what the table links anywhere comes
to an end. -/
structure Sound (d : Driver) : Prop where
  small : d.queue.size ≤ MAX_SIZE
  parts : (d.queue.free ++ d.out.flatten).Perm (List.range d.queue.size)
  linked : ∀ c ∈ d.out, ∃ i, Links d.queue i c
  ends : ∀ i < d.queue.size, ∃ c, Links d.queue i c

/-- What is asked of the entry a device puts next into the used ring: it names
the head of an outstanding chain, an index the queue does not have, or a free
descriptor from where the table leads through more than are not free. -/
def Fair (d : Driver) : Op → Prop
  | .push _ => True
  | .pop device => device.idx ≠ d.queue.usedSeen →
      let id := (device.entries (d.queue.usedSeen % d.queue.size)).1
      (∃ c ∈ d.out, c.head? = some id)
      ∨ d.queue.size ≤ id % 2 ^ 16
      ∨ id % 2 ^ 16 ∈ d.queue.free ∧ d.queue.size
          < d.queue.available + (d.queue.following d.queue.size (id % 2 ^ 16)).length

def FairAll (d : Driver) : List Op → Prop
  | [] => True
  | op :: ops => Fair d op ∧ ∀ d', d.step op = some d' → FairAll d' ops

section Sound

variable {d d' : Driver}

theorem Sound.nodup (h : Sound d) : (d.queue.free ++ d.out.flatten).Nodup :=
  h.parts.nodup_iff.mpr nodup_range

theorem Sound.lt (h : Sound d) {i : Nat} (hi : i ∈ d.queue.free ++ d.out.flatten) :
    i < d.queue.size := mem_range.mp (h.parts.mem_iff.mp hi)

theorem Sound.room (h : Sound d) {c : List Nat} (hc : c ∈ d.out) :
    d.queue.available + c.length ≤ d.queue.size := by
  have hlen := h.parts.length_eq
  have hle := (sublist_flatten_of_mem hc).length_le
  rw [length_append, length_range] at hlen
  unfold Queue.available
  omega

theorem Sound.new {size : Nat} {q : Queue} (hq : Queue.new size = .ok q) : Sound ⟨q, []⟩ := by
  unfold Queue.new at hq
  split at hq
  · cases hq
  rename_i hsize
  cases hq
  refine ⟨?_, ?_, fun c hc => (by cases hc), fun i hi => ⟨[i], rfl, hi, by simp⟩⟩
  · show size ≤ MAX_SIZE
    omega
  · show (List.range size ++ []).Perm (List.range size)
    rw [append_nil]

-- -- push

theorem writeChain_ne {table : Nat → Descriptor} {chain : List Nat} {segments : List Segment}
    {i : Nat} (hi : i ∉ chain) : Queue.writeChain table chain segments i = table i := by
  induction chain generalizing table segments with
  | nil => cases segments <;> rfl
  | cons j chain ih =>
    cases segments with
    | nil => rfl
    | cons s segments =>
      obtain ⟨hij, hrest⟩ := not_or.mp fun hmem => hi (mem_cons.mpr hmem)
      rw [Queue.writeChain, ih hrest]
      exact if_neg hij

theorem and_next_last (w : Bool) : ((if w then WRITE else 0) ||| 0) &&& NEXT = 0 := by
  cases w <;> rfl

theorem and_next_more (w : Bool) : ((if w then WRITE else 0) ||| NEXT) &&& NEXT ≠ 0 := by
  cases w <;> decide

theorem links_writeChain {q : Queue} {chain : List Nat} {segments : List Segment}
    (hlen : chain.length = segments.length) (hne : chain ≠ []) (hnd : chain.Nodup)
    (hlt : ∀ i ∈ chain, i < q.size) (table : Nat → Descriptor) :
    Links { q with table := Queue.writeChain table chain segments } (chain.headD 0) chain := by
  induction chain generalizing segments table with
  | nil => exact absurd rfl hne
  | cons i chain ih =>
    cases segments with
    | nil => cases hlen
    | cons s segments =>
      obtain ⟨hi, hnd⟩ := nodup_cons.mp hnd
      rw [length_cons, length_cons, Nat.succ_inj] at hlen
      rw [Queue.writeChain]
      generalize hd : Descriptor.mk s.iova s.len
        ((if s.writable then WRITE else 0) ||| (if segments.isEmpty then 0 else NEXT))
        (if segments.isEmpty then 0 else chain.headD 0) = desc
      have hat : Queue.writeChain (Queue.writeDescriptor table i desc) chain segments i
          = desc := by
        rw [writeChain_ne hi]
        exact if_pos rfl
      refine ⟨rfl, hlt i mem_cons_self, ?_⟩
      show if (Queue.writeChain (Queue.writeDescriptor table i desc) chain segments i).flags
        &&& NEXT = 0 then chain = [] else Links _
          (Queue.writeChain (Queue.writeDescriptor table i desc) chain segments i).next chain
      rw [hat]
      cases segments with
      | nil =>
        have hflag : desc.flags &&& NEXT = 0 := by
          rw [← hd]
          exact and_next_last s.writable
        rw [if_pos hflag]
        exact eq_nil_of_length_eq_zero hlen
      | cons s' segments =>
        have hflag : desc.flags &&& NEXT ≠ 0 := by
          rw [← hd]
          exact and_next_more s.writable
        have hnext : desc.next = chain.headD 0 := by
          rw [← hd]
          rfl
        rw [if_neg hflag, hnext]
        refine ih hlen ?_ hnd (fun j hj => hlt j (mem_cons_of_mem i hj)) _
        intro hnil
        rw [hnil] at hlen
        cases hlen

theorem Sound.push (h : Sound d) {segments : List Segment}
    (hstep : d.step (.push segments) = some d') : Sound d' := by
  unfold Driver.step Queue.push at hstep
  dsimp only at hstep
  by_cases hfull : segments.length % 2 ^ 16 = 0 ∨ segments.length % 2 ^ 16 > d.queue.available
  · rw [if_pos hfull] at hstep
    cases hstep
    exact h
  rw [if_neg hfull] at hstep
  by_cases hlong : segments.length ≠ segments.length % 2 ^ 16
  · rw [if_pos hlong] at hstep
    cases hstep
  rw [if_neg hlong] at hstep
  cases hstep
  have hcount : segments.length % 2 ^ 16 = segments.length := (not_not.mp hlong).symm
  rw [hcount] at hfull ⊢
  obtain ⟨hzero, hle⟩ := not_or.mp hfull
  have hlen : (d.queue.free.take segments.length).length = segments.length := by
    rw [length_take]
    exact Nat.min_eq_left (Nat.not_lt.mp hle)
  have hparts : (d.queue.free.take segments.length
      ++ (d.queue.free.drop segments.length ++ d.out.flatten)).Nodup := by
    rw [← append_assoc, take_append_drop]
    exact h.nodup
  obtain ⟨hnd, -, hdisj⟩ := nodup_append.mp hparts
  have hin : ∀ i ∈ d.queue.free.take segments.length, i < d.queue.size := fun i hi =>
    h.lt (mem_append_left _ (mem_of_mem_take hi))
  have hne : d.queue.free.take segments.length ≠ [] := by
    intro hnil
    rw [hnil] at hlen
    exact hzero hlen.symm
  have hnew := (links_writeChain hlen hne hnd hin d.queue.table)
  refine ⟨h.small, ?_, ?_, ?_⟩
  · show (d.queue.free.drop segments.length
      ++ (d.queue.free.take segments.length :: d.out).flatten).Perm _
    rw [flatten_cons, ← append_assoc]
    refine (perm_append_comm.append_right _).trans ?_
    rw [take_append_drop]
    exact h.parts
  · intro c hc
    rcases mem_cons.mp hc with rfl | hc
    · exact ⟨_, hnew.congr rfl fun _ _ => rfl⟩
    obtain ⟨i, hi⟩ := h.linked c hc
    refine ⟨i, hi.congr rfl ?_⟩
    intro j hj
    apply writeChain_ne
    intro hmem
    exact hdisj j hmem j (mem_append_right _ (mem_flatten.mpr ⟨c, hc, hj⟩)) rfl
  · intro i hi
    obtain ⟨c, hc⟩ := h.ends i hi
    refine hc.redirect rfl (fun j hj => writeChain_ne hj) fun j hj => ?_
    obtain ⟨c', hc', -⟩ := hnew.of_mem hj
    exact ⟨c', hc'.congr rfl fun _ _ => rfl⟩

-- -- pop

theorem Sound.pop_eq (h : Sound d) {device : UsedRing}
    (hnew : device.idx ≠ d.queue.usedSeen) {c : List Nat} (hc : c ∈ d.out) {entry : Nat × Nat}
    (hentry : device.entries (d.queue.usedSeen % d.queue.size) = entry)
    (hhead : c.head? = some entry.1) :
    d.queue.pop device = (.ok (some ⟨entry.1, entry.2⟩),
      { d.queue with free := c.reverse ++ d.queue.free
                     usedSeen := (d.queue.usedSeen + 1) % 2 ^ 16 }) := by
  obtain ⟨i, hi⟩ := h.linked c hc
  have hid : i = entry.1 := Option.some.inj (hi.head.symm.trans hhead)
  have himem : i ∈ c := mem_of_mem_head? (Option.mem_def.mpr hi.head)
  have hlt : i < 2 ^ 16 := by
    have h1 := hi.lt i himem
    have h2 := h.small
    unfold MAX_SIZE at h2
    omega
  have hmod : entry.1 % 2 ^ 16 = entry.1 := by
    rw [← hid]
    exact Nat.mod_eq_of_lt hlt
  have hwalk : d.queue.walk d.queue.size entry.1 [] = some c.reverse := by
    have hw := walk_of_links [] hi hi.length_le (by simp)
      (by have := h.room hc; rw [length_nil]; omega)
    rw [append_nil] at hw
    rw [← hid]
    exact hw
  unfold Queue.pop Queue.freeChain
  rw [if_neg hnew, hentry]
  dsimp only
  rw [hmod, hwalk]

theorem Sound.pop_head (h : Sound d) {device : UsedRing}
    (hnew : device.idx ≠ d.queue.usedSeen) {c : List Nat} (hc : c ∈ d.out)
    (hhead : c.head? = some (device.entries (d.queue.usedSeen % d.queue.size)).1) :
    ∃ used, (d.queue.pop device).1 = .ok (some used)
      ∧ c.head? = some used.head ∧ Sound (d.popped (d.queue.pop device)) := by
  obtain ⟨i, hi⟩ := h.linked c hc
  rw [h.pop_eq hnew hc rfl hhead]
  generalize device.entries (d.queue.usedSeen % d.queue.size) = entry at hhead
  refine ⟨⟨entry.1, entry.2⟩, rfl, hhead, ?_⟩
  obtain rfl : i = entry.1 := Option.some.inj (hi.head.symm.trans hhead)
  obtain ⟨c', l1, l2, -, hp, hsplit, herase⟩ :=
    exists_of_eraseP (p := fun c : List Nat => c.head? = some entry.1) hc (by simp [hi.head])
  have hc' : c' ∈ d.out := hsplit ▸ mem_append_right _ mem_cons_self
  -- a chain is determined by its head
  have heq : c' = c := by
    obtain ⟨i', hi'⟩ := h.linked c' hc'
    have hii : i' = entry.1 := Option.some.inj (hi'.head.symm.trans (of_decide_eq_true hp))
    rw [hii] at hi'
    exact hi'.unique hi
  subst heq
  show Sound ⟨_, d.out.eraseP fun c => c.head? = some entry.1⟩
  rw [herase]
  refine ⟨h.small, ?_, ?_, fun j hj => ?_⟩
  · refine List.Perm.trans ?_ h.parts
    show (c'.reverse ++ d.queue.free ++ (l1 ++ l2).flatten).Perm (d.queue.free ++ d.out.flatten)
    rw [hsplit, flatten_append, flatten_append, flatten_cons]
    calc c'.reverse ++ d.queue.free ++ (l1.flatten ++ l2.flatten)
        _ |>.Perm (d.queue.free ++ c' ++ (l1.flatten ++ l2.flatten)) :=
          ((reverse_perm c').append_right _ |>.trans perm_append_comm).append_right _
        _ |>.Perm (d.queue.free ++ (l1.flatten ++ (c' ++ l2.flatten))) := by
          rw [append_assoc]
          refine List.Perm.append_left _ ?_
          rw [← append_assoc, ← append_assoc]
          exact perm_append_comm.append_right _
  · intro u hu
    have hu : u ∈ d.out := by
      rw [hsplit]
      rcases mem_append.mp hu with hu | hu
      · exact mem_append_left _ hu
      · exact mem_append_right _ (mem_cons_of_mem _ hu)
    obtain ⟨j, hj⟩ := h.linked u hu
    exact ⟨j, hj.congr rfl fun _ _ => rfl⟩
  · obtain ⟨u, hu⟩ := h.ends j hj
    exact ⟨u, hu.congr rfl fun _ _ => rfl⟩

/-- The indices a walk refuses. -/
theorem Sound.freeChain_error (h : Sound d) (head : Nat) :
    (∃ e, d.queue.freeChain head = .error e)
      ↔ d.queue.size ≤ head ∨ head ∈ d.queue.free ∧ d.queue.size
          < d.queue.available + (d.queue.following d.queue.size head).length := by
  unfold Queue.freeChain
  by_cases hhead : d.queue.size ≤ head
  · refine ⟨fun _ => .inl hhead, fun _ => ?_⟩
    cases hw : d.queue.walk d.queue.size head [] with
    | none => exact ⟨.device, rfl⟩
    | some chain =>
      obtain ⟨c, hc, -⟩ := links_of_walk hw
      exact absurd (hc.lt head (mem_of_mem_head? (Option.mem_def.mpr hc.head))) hhead.not_gt
  obtain ⟨c, hc⟩ := h.ends head (Nat.not_le.mp hhead)
  rw [hc.following_eq hc.length_le]
  by_cases hfit : d.queue.available + c.length ≤ d.queue.size
  · rw [walk_of_links [] hc hc.length_le (by simp) (by rw [length_nil]; omega)]
    constructor
    · rintro ⟨e, he⟩
      cases he
    · rintro (hge | ⟨-, hlt⟩) <;> omega
  · -- a chain that is out has room beside the free list, and so have its ends
    have hfree : head ∈ d.queue.free := by
      have hmem := h.parts.mem_iff.mpr (mem_range.mpr (Nat.not_le.mp hhead))
      refine (mem_append.mp hmem).resolve_right fun hout => hfit ?_
      obtain ⟨u, hu, hin⟩ := mem_flatten.mp hout
      obtain ⟨i, hi⟩ := h.linked u hu
      obtain ⟨c', hc', hsuf⟩ := hi.of_mem hin
      have hroom := h.room hu
      have hle := hsuf.length_le
      rw [hc.unique hc']
      omega
    refine ⟨fun _ => .inr ⟨hfree, Nat.not_le.mp hfit⟩, fun _ => ?_⟩
    cases hw : d.queue.walk d.queue.size head [] with
    | none => exact ⟨.device, rfl⟩
    | some chain =>
      obtain ⟨c', hc', -, hfit'⟩ := links_of_walk hw
      rw [length_nil, Nat.zero_add, ← hc.unique hc'] at hfit'
      exact absurd hfit' hfit

theorem pop_error {device : UsedRing} (hnew : device.idx ≠ d.queue.usedSeen) :
    (∃ e, (d.queue.pop device).1 = .error e) ↔ ∃ e, d.queue.freeChain
      ((device.entries (d.queue.usedSeen % d.queue.size)).1 % 2 ^ 16) = .error e := by
  unfold Queue.pop
  rw [if_neg hnew]
  dsimp only
  cases d.queue.freeChain _ <;> simp

theorem pop_refused {device : UsedRing} {e : VirtioError}
    (h : (d.queue.pop device).1 = .error e) : d.queue.pop device = (.error e, d.queue) := by
  unfold Queue.pop at h ⊢
  split at h
  · cases h
  rename_i hnew
  rw [if_neg hnew]
  dsimp only at h ⊢
  cases hfree : d.queue.freeChain _ with
  | error e' =>
    rw [hfree] at h
    cases h
    rfl
  | ok q =>
    rw [hfree] at h
    cases h

theorem Sound.step (h : Sound d) {op : Op} (hfair : Fair d op) (hstep : d.step op = some d') :
    Sound d' := by
  cases op with
  | push segments => exact h.push hstep
  | pop device =>
    have hd : d.popped (d.queue.pop device) = d' := Option.some.inj hstep
    rw [← hd]
    by_cases hnew : device.idx = d.queue.usedSeen
    · unfold Queue.pop
      rw [if_pos hnew]
      exact h
    · rcases hfair hnew with ⟨c, hc, hhead⟩ | hno
      · obtain ⟨-, -, -, hsound⟩ := h.pop_head hnew hc hhead
        exact hsound
      · obtain ⟨e, he⟩ := (pop_error hnew).mpr ((h.freeChain_error _).mpr hno)
        rw [pop_refused he]
        exact h

theorem Sound.run (h : Sound d) {ops : List Op} (hfair : FairAll d ops)
    (hrun : d.run ops = some d') : Sound d' := by
  induction ops generalizing d with
  | nil =>
    cases hrun
    exact h
  | cons op ops ih =>
    obtain ⟨d1, hstep, hrest⟩ := Option.bind_eq_some_iff.mp hrun
    exact ih (h.step hfair.1 hstep) (hfair.2 d1 hstep) hrest

end Sound

-- == the result

/-- The descriptors of a queue, accounted for. -/
structure Parted (d : Driver) : Prop where
  free : d.queue.free.Nodup ∧ ∀ i ∈ d.queue.free, i < d.queue.size
  outside : ∀ c ∈ d.out, ∀ i ∈ c, i ∉ d.queue.free
  apart : d.out.Pairwise List.Disjoint ∧ ∀ c ∈ d.out, c.Nodup
  all : ∀ i, i < d.queue.size ↔ i ∈ d.queue.free ∨ ∃ c ∈ d.out, i ∈ c

/-- A pop of a used entry that is no outstanding head fails and frees nothing. -/
def Refuses (d : Driver) (device : UsedRing) : Prop :=
  device.idx ≠ d.queue.usedSeen →
  (¬ ∃ c ∈ d.out, c.head? = some (device.entries (d.queue.usedSeen % d.queue.size)).1) →
    (∃ e, (d.queue.pop device).1 = .error e) ∧ (d.queue.pop device).2.free = d.queue.free

theorem Sound.parted {d : Driver} (h : Sound d) : Parted d := by
  obtain ⟨hfree, hflat, hdisj⟩ := nodup_append.mp h.nodup
  obtain ⟨heach, hapart⟩ := nodup_flatten.mp hflat
  refine ⟨⟨hfree, fun i hi => h.lt (mem_append_left _ hi)⟩, ?_, ⟨hapart, heach⟩, ?_⟩
  · intro c hc i hi hmem
    exact hdisj i hmem i (mem_flatten.mpr ⟨c, hc, hi⟩) rfl
  · intro i
    rw [← mem_range, ← h.parts.mem_iff, mem_append, mem_flatten]

/-- As long as the device is fair the descriptors stay accounted for, and from
there a pop refuses every lie exactly if the device is fair in it. -/
theorem queue_survives_a_fair_device (size : Nat) (q : Queue) (hq : Queue.new size = .ok q)
    (ops : List Op) (d : Driver) (hfair : FairAll ⟨q, []⟩ ops)
    (hrun : Driver.run ⟨q, []⟩ ops = some d) :
    Parted d ∧ ∀ device, Refuses d device ↔ Fair d (.pop device) := by
  have h : Sound d := (Sound.new hq).run hfair hrun
  refine ⟨h.parted, ?_⟩
  intro device
  constructor
  · intro href hnew
    by_cases hhead : ∃ c ∈ d.out,
        c.head? = some (device.entries (d.queue.usedSeen % d.queue.size)).1
    · exact .inl hhead
    · exact .inr ((h.freeChain_error _).mp ((pop_error hnew).mp (href hnew hhead).1))
  · intro hf hnew hno
    obtain ⟨e, he⟩ := (pop_error hnew).mpr ((h.freeChain_error _).mpr ((hf hnew).resolve_left hno))
    exact ⟨⟨e, he⟩, by rw [pop_refused he]⟩

/-- A chain of two that is returned between two lies: an index out of range and
a free descriptor. -/
def fairRun : List Op :=
  [.push [⟨0, 16, false⟩, ⟨16, 1, true⟩], .pop ⟨1, fun _ => (5, 0)⟩, .pop ⟨1, fun _ => (0, 1)⟩,
    .pop ⟨2, fun _ => (1, 0)⟩]

theorem queue_survives_a_fair_device_two :
    ∃ q d, Queue.new 2 = .ok q ∧ Driver.run ⟨q, []⟩ fairRun = some d
      ∧ d.queue.free = [1, 0] ∧ Parted d := by
  refine ⟨_, _, rfl, rfl, by decide, ?_⟩
  refine (queue_survives_a_fair_device 2 _ rfl fairRun _ ?_ rfl).1
  refine ⟨trivial, ?_⟩
  intro d₁ h₁
  cases h₁
  refine ⟨fun _ => .inr (.inl (by decide)), ?_⟩
  intro d₂ h₂
  cases h₂
  refine ⟨fun _ => .inl ⟨[0, 1], mem_singleton.mpr rfl, rfl⟩, ?_⟩
  intro d₃ h₃
  cases h₃
  refine ⟨fun _ => .inr (.inr ⟨by decide, by decide⟩), ?_⟩
  intro d₄ _
  trivial

def lyingRun : List Op := [.push [⟨0, 16, false⟩], .pop ⟨1, fun _ => (1, 0)⟩]

theorem free_descriptor_is_freed_again :
    ∃ q d, Queue.new 2 = .ok q ∧ Driver.run ⟨q, []⟩ lyingRun = some d
      ∧ d.queue.free = [1, 1] ∧ ¬ Parted d := by
  refine ⟨_, _, rfl, rfl, by decide, ?_⟩
  intro h
  exact absurd h.free.1 (by decide)

end Molt.Virtio
