/-
What `load` hands to the mapper, and that no image makes it panic.

`Admitted` is what an image has to be for its segments to be mapped. The
loop over the program headers keeps `Admitting`: the segments so far are
admitted ones, in order, below the end it remembers. Nothing in the loop is
out of range, since the table has eight places and a ninth segment is
refused, and a page-rounded end is not below the address it was rounded up
from.
-/
import Molt.Domain.Image

namespace Molt.Domain

open Lib

-- == the admission

namespace Segment

def mappedEnd (s : Segment) : Nat := s.virtualAddress + s.mappedSize

/-- One segment the mapper may be given. -/
structure Admissible (bytes : List UInt8) (s : Segment) : Prop where
  address : PAGE ∣ s.virtualAddress
  pages : PAGE ∣ s.mappedSize
  nonempty : 0 < s.memorySize
  rounded : s.memorySize ≤ s.mappedSize ∧ s.mappedSize < s.memorySize + PAGE
  range : s.mappedEnd < 2 ^ 64
  file : s.fileOffset + s.fileSize ≤ bytes.length
  offset : s.fileOffset + s.fileSize < 2 ^ 64
  fits : s.fileSize ≤ s.memorySize
  readable : s.isRead
  exclusive : ¬ (s.isWrite ∧ s.isExecute)

end Segment

/-- The segments of an image that may be mapped, with its entry point. -/
structure Admitted (bytes : List UInt8) (segments : List Segment) (entry : Nat) : Prop where
  each : ∀ s ∈ segments, s.Admissible bytes
  sorted : segments.Pairwise fun s t => s.mappedEnd ≤ t.virtualAddress
  entry : ∃ s ∈ segments, s.isExecute ∧ s.virtualAddress ≤ entry
    ∧ entry < s.virtualAddress + s.memorySize

structure Admitting (bytes : List UInt8) (w : Walk) (segments : List Segment) : Prop where
  table : w.image.segments = segments.map some ++ List.replicate (SEGMENTS - segments.length) none
  count : w.image.count = segments.length
  room : segments.length ≤ SEGMENTS
  each : ∀ s ∈ segments, s.Admissible bytes
  sorted : segments.Pairwise fun s t => s.mappedEnd ≤ t.virtualAddress
  below : ∀ s ∈ segments, s.mappedEnd ≤ w.priorEnd
  entry : w.executableEntry = true →
    ∃ s ∈ segments, s.isExecute ∧ s.virtualAddress ≤ w.image.entry
      ∧ w.image.entry < s.virtualAddress + s.memorySize

theorem and_write_execute {flags : Nat} (hw : flags &&& WRITE ≠ 0) (hx : flags &&& EXECUTE ≠ 0) :
    flags &&& (WRITE ||| EXECUTE) = WRITE ||| EXECUTE := by
  have hmod : flags &&& 3 = flags % 4 := Nat.and_two_pow_sub_one_eq_mod flags 2
  have hlow : flags &&& 1 = flags % 2 := Nat.and_two_pow_sub_one_eq_mod flags 1
  have hhigh : flags &&& 2 = (flags.testBit 1).toNat * 2 := Nat.and_two_pow flags 1
  have hx' : flags &&& 1 ≠ 0 := hx
  have hw' : flags.testBit 1 = true := by
    by_contra hbit
    rw [Bool.not_eq_true] at hbit
    rw [hbit] at hhigh
    exact hw hhigh
  rw [Nat.testBit_eq_decide_div_mod_eq, decide_eq_true_eq] at hw'
  show flags &&& 3 = 3
  omega

theorem rounded_up (x : Nat) : PAGE ∣ (x + (PAGE - 1)) / PAGE * PAGE
    ∧ x ≤ (x + (PAGE - 1)) / PAGE * PAGE ∧ (x + (PAGE - 1)) / PAGE * PAGE < x + PAGE := by
  refine ⟨Nat.dvd_mul_left _ _, ?_⟩
  have hpage : PAGE = 4096 := rfl
  rw [hpage]
  omega

section Steps

variable {ε : Type}

theorem checkedAdd_cases (a b : Nat) (e : ε) :
    checkedAdd a b e = fail e ∨ (checkedAdd a b e = .ok (a + b) ∧ a + b < 2 ^ 64) := by
  unfold checkedAdd
  split
  · exact .inr ⟨rfl, by assumption⟩
  · exact .inl rfl

theorem checkedMul_cases (a b : Nat) (e : ε) :
    checkedMul a b e = fail e ∨ checkedMul a b e = .ok (a * b) := by
  unfold checkedMul
  split
  · exact .inr rfl
  · exact .inl rfl

theorem usizeOf_cases (a : Nat) (e : ε) : usizeOf a e = fail e ∨ usizeOf a e = .ok a := by
  unfold usizeOf
  split
  · exact .inr rfl
  · exact .inl rfl

end Steps

variable {bytes : List UInt8} {w : Walk} {segments : List Segment}

section

variable (h : Admitting bytes w segments)
include h

theorem Admitting.assign (hcount : w.image.count ≠ SEGMENTS)
    (s : Segment) : ∃ table, (Domain.assign w.image.segments w.image.count (some s)
        : Checked ImageError _) = .ok table
      ∧ table = (segments ++ [s]).map some
          ++ List.replicate (SEGMENTS - (segments ++ [s]).length) none := by
  have hroom := h.room
  have hlen := h.count
  refine ⟨_, if_pos ?_, ?_⟩
  · rw [h.table, h.count]
    simp
    omega
  · rw [h.table, h.count]
    obtain ⟨k, hk⟩ : ∃ k, SEGMENTS - segments.length = k + 1 :=
      ⟨SEGMENTS - segments.length - 1, by omega⟩
    have hk' : SEGMENTS - (segments.length + 1) = k := by omega
    simp [List.set_append_right, hk, hk', List.replicate_succ]

theorem Admitting.push (hcount : w.image.count ≠ SEGMENTS)
    {s : Segment} (hs : s.Admissible bytes)
    (hprior : w.image.count ≠ 0 → w.priorEnd ≤ s.virtualAddress) {w' : Walk}
    (htable : w'.image.segments = (segments ++ [s]).map some
      ++ List.replicate (SEGMENTS - (segments ++ [s]).length) none)
    (hnew : w'.image.count = w.image.count + 1) (hend : w'.priorEnd = s.mappedEnd)
    (hentry : w'.image.entry = w.image.entry)
    (hexec : w'.executableEntry = true → w.executableEntry = true
      ∨ (s.isExecute ∧ s.virtualAddress ≤ w.image.entry
        ∧ w.image.entry < s.virtualAddress + s.memorySize)) :
    Admitting bytes w' (segments ++ [s]) where
  table := htable
  count := by
    rw [hnew, h.count, List.length_append]
    rfl
  room := by
    have := h.room
    have := h.count
    rw [List.length_append, List.length_singleton]
    omega
  each := by
    intro t ht
    rcases List.mem_append.mp ht with ht | ht
    · exact h.each t ht
    · rw [List.mem_singleton.mp ht]
      exact hs
  sorted := by
    rw [List.pairwise_append]
    refine ⟨h.sorted, List.pairwise_singleton _ _, ?_⟩
    intro t ht u hu
    rw [List.mem_singleton.mp hu]
    have hne : w.image.count ≠ 0 := by
      rw [h.count]
      exact Nat.ne_of_gt (List.length_pos_of_mem ht)
    exact Nat.le_trans (h.below t ht) (hprior hne)
  below := by
    intro t ht
    rw [hend]
    rcases List.mem_append.mp ht with ht | ht
    · have hne : w.image.count ≠ 0 := by
        rw [h.count]
        exact Nat.ne_of_gt (List.length_pos_of_mem ht)
      have h1 := h.below t ht
      unfold Segment.mappedEnd at *
      omega
    · rw [List.mem_singleton.mp ht]
  entry := by
    intro htrue
    rw [hentry]
    rcases hexec htrue with hold | hnow
    · obtain ⟨t, ht, hfacts⟩ := h.entry hold
      exact ⟨t, List.mem_append_left _ ht, hfacts⟩
    · exact ⟨s, by simp, hnow⟩

theorem Admitting.admitOne (header : List UInt8) :
    (∃ e, Image.admitOne bytes w header = fail e) ∨
      ∃ w' segments', Image.admitOne bytes w header = .ok w' ∧ Admitting bytes w' segments'
        ∧ w'.image.entry = w.image.entry := by
  unfold Image.admitOne
  by_cases hdyn : leAt header 0 4 = DYNAMIC ∨ leAt header 0 4 = INTERP
  · exact .inl ⟨_, if_pos hdyn⟩
  rw [if_neg hdyn]
  by_cases hload : leAt header 0 4 ≠ LOAD
  · exact .inr ⟨w, segments, if_pos hload, h, rfl⟩
  rw [if_neg hload]
  by_cases hfull : w.image.count = SEGMENTS
  · exact .inl ⟨_, if_pos hfull⟩
  rw [if_neg hfull]
  generalize leAt header 4 4 = flags, leAt header 8 8 = fileOffset,
    leAt header 16 8 = virtualAddress, leAt header 32 8 = fileSize,
    leAt header 40 8 = memorySize, leAt header 48 8 = alignment
  dsimp only
  rcases checkedAdd_cases fileOffset fileSize ImageError.segment with hc | ⟨hc, hfile⟩
  · exact .inl ⟨_, by rw [hc]; rfl⟩
  rw [hc]
  rcases checkedAdd_cases virtualAddress memorySize ImageError.segment with hc | ⟨hc, hmem⟩
  · exact .inl ⟨_, by rw [hc]; rfl⟩
  rw [hc]
  simp only [bind, Except.bind]
  rcases checkedAdd_cases (virtualAddress + memorySize) (PAGE - 1) ImageError.segment
    with hc | ⟨hc, hround⟩
  · exact .inl ⟨_, by rw [hc]; rfl⟩
  rw [hc]
  dsimp only
  split
  · exact .inl ⟨_, rfl⟩
  rename_i hbad
  split
  · exact .inl ⟨_, rfl⟩
  rename_i hwx
  split
  · exact .inl ⟨_, rfl⟩
  rename_i hover
  simp only [not_or, not_and, not_not, not_lt, gt_iff_lt, ne_eq] at hbad hover
  obtain ⟨hne, hfit, hfend, haddr, hoff, -, hflags, hread⟩ := hbad
  have hrounded := rounded_up (virtualAddress + memorySize)
  generalize (virtualAddress + memorySize + (PAGE - 1)) / PAGE * PAGE = mappedEnd at *
  obtain ⟨hpages, hlow, hhigh⟩ := hrounded
  have hminus : (minus mappedEnd virtualAddress : Checked ImageError Nat)
      = .ok (mappedEnd - virtualAddress) := if_pos (by omega)
  rw [hminus]
  dsimp only
  obtain ⟨table, hassign, htable⟩ := h.assign hfull
    ⟨virtualAddress, memorySize, mappedEnd - virtualAddress, fileOffset, fileSize, flags⟩
  rw [hassign]
  have hcount : w.image.count < SEGMENTS := by
    have := h.room
    have := h.count
    omega
  have hplus : (plus w.image.count 1 : Checked ImageError Nat) = .ok (w.image.count + 1) := by
    refine if_pos ?_
    have : SEGMENTS = 8 := rfl
    omega
  dsimp only
  rw [hplus]
  refine .inr ⟨_, _, rfl, h.push hfull ?_ ?_ htable rfl ?_ rfl ?_, rfl⟩
  · exact {
      address := Nat.dvd_of_mod_eq_zero haddr
      pages := Nat.dvd_sub hpages (Nat.dvd_of_mod_eq_zero haddr)
      nonempty := Nat.pos_of_ne_zero hne
      rounded := by
        dsimp only
        omega
      range := by
        show virtualAddress + (mappedEnd - virtualAddress) < _
        omega
      file := hfend
      offset := hfile
      fits := hfit
      readable := by simpa [Segment.isRead] using hread
      exclusive := by
        rintro ⟨hw, hx⟩
        simp only [Segment.isWrite, Segment.isExecute, decide_eq_true_eq] at hw hx
        exact hwx (and_write_execute hw hx) }
  · exact fun hzero => hover hzero
  · show mappedEnd = virtualAddress + (mappedEnd - virtualAddress)
    omega
  · intro htrue
    simp only [Bool.or_eq_true, Bool.and_eq_true] at htrue
    rcases htrue with hold | ⟨hx, hin⟩
    · exact .inl hold
    · simp only [Segment.contains, decide_eq_true_eq] at hin
      exact .inr ⟨hx, hin.1, Nat.lt_of_lt_of_le hin.2 (Nat.min_le_left _ _)⟩

theorem Admitting.admitAll (headers : List (List UInt8)) :
    (∃ e, Image.admitAll bytes w headers = fail e) ∨
      ∃ w' segments', Image.admitAll bytes w headers = .ok w' ∧ Admitting bytes w' segments'
        ∧ w'.image.entry = w.image.entry := by
  induction headers generalizing w segments with
  | nil => exact .inr ⟨w, segments, rfl, h, rfl⟩
  | cons header rest ih =>
    unfold Image.admitAll
    rcases h.admitOne header with ⟨e, he⟩ | ⟨w₁, segments₁, hok, h₁, hentry₁⟩
    · exact .inl ⟨e, by rw [he]; rfl⟩
    · rw [hok]
      rcases ih h₁ with ⟨e, he⟩ | ⟨w₂, segments₂, hok₂, h₂, hentry₂⟩
      · exact .inl ⟨e, he⟩
      · exact .inr ⟨w₂, segments₂, hok₂, h₂, hentry₂.trans hentry₁⟩

end

-- == the image

theorem Admitting.start (bytes : List UInt8) (entry : Nat) :
    Admitting bytes ⟨⟨List.replicate SEGMENTS none, 0, entry⟩, 0, false⟩ [] where
  table := rfl
  count := rfl
  room := Nat.zero_le _
  each := by simp
  sorted := List.Pairwise.nil
  below := by simp
  entry := by simp

theorem Admitting.admitted (h : Admitting bytes w segments) : w.image.admitted = .ok segments := by
  have hlen : w.image.segments.length = SEGMENTS := by
    have := h.room
    rw [h.table]
    simp
    omega
  have hsub : (subslice w.image.segments 0 w.image.count : Checked ImageError _)
      = .ok (segments.map some) := by
    unfold subslice
    rw [if_pos]
    · rw [h.table, h.count]
      simp
    · have := h.room
      have := h.count
      omega
  unfold Image.admitted
  rw [hsub]
  show Except.ok _ = _
  simp [List.reduceOption]

theorem Image.parse_cases (bytes : List UInt8) (architecture : Architecture) :
    (∃ e, Image.parse bytes architecture = fail e) ∨
      ∃ image segments, Image.parse bytes architecture = .ok image
        ∧ image.admitted = .ok segments ∧ Admitted bytes segments image.entry := by
  unfold Image.parse
  split
  · exact .inl ⟨_, rfl⟩
  dsimp only
  split
  · exact .inl ⟨_, rfl⟩
  split
  · exact .inl ⟨_, rfl⟩
  simp only [bind, Except.bind]
  rcases usizeOf_cases (leAt (bytes.take ELF_HEADER) 32 8) ImageError.truncated with hc | hc
  · exact .inl ⟨_, by rw [hc]; rfl⟩
  rw [hc]
  dsimp only
  generalize leAt (bytes.take ELF_HEADER) 32 8 = offset,
    leAt (bytes.take ELF_HEADER) 24 8 = entry, leAt (bytes.take ELF_HEADER) 54 2 = size,
    leAt (bytes.take ELF_HEADER) 56 2 = count
  split
  · exact .inl ⟨_, rfl⟩
  rcases checkedMul_cases count size ImageError.truncated with hc | hc
  · exact .inl ⟨_, by rw [hc]; rfl⟩
  rw [hc]
  dsimp only
  rcases checkedAdd_cases offset (count * size) ImageError.truncated with hc | ⟨hc, -⟩
  · exact .inl ⟨_, by rw [hc]; rfl⟩
  rw [hc]
  dsimp only
  split
  · exact .inl ⟨_, rfl⟩
  rename_i hend
  have hsub : (subslice bytes offset (offset + count * size) : Checked ImageError _)
      = .ok ((bytes.drop offset).take (offset + count * size - offset)) :=
    if_pos ⟨Nat.le_add_right _ _, Nat.le_of_not_lt hend⟩
  rw [hsub]
  dsimp only
  generalize (bytes.drop offset).take (offset + count * size - offset) = table
  rcases (Admitting.start bytes entry).admitAll (records PROGRAM_HEADER table table.length)
    with ⟨e, he⟩ | ⟨w, segments, hok, h, hentry⟩
  · exact .inl ⟨e, by rw [he]; rfl⟩
  rw [hok]
  dsimp only
  split
  · exact .inl ⟨_, rfl⟩
  rename_i hentered
  rw [not_or, Bool.not_eq_false] at hentered
  exact .inr ⟨w.image, segments, rfl, h.admitted, h.each, h.sorted, h.entry hentered.2⟩

-- == the load

/-- A mapper that also writes down what it is given. -/
def Mapper.logged {σ ε : Type} (m : Mapper σ ε) : Mapper (σ × List (Segment × List UInt8)) ε where
  map := fun segment file s =>
    let (answer, after) := m.map segment file s.1
    (answer, after, s.2 ++ [(segment, file)])

theorem Mapper.logged_map {σ ε : Type} (m : Mapper σ ε) (segment : Segment) (file : List UInt8)
    (s : σ) (calls : List (Segment × List UInt8)) :
    m.logged.map segment file (s, calls)
      = ((m.map segment file s).1, (m.map segment file s).2, calls ++ [(segment, file)]) := rfl

def Segment.file (bytes : List UInt8) (s : Segment) : List UInt8 :=
  (bytes.drop s.fileOffset).take s.fileSize

theorem Segment.Admissible.fileOf {s : Segment} (h : s.Admissible bytes) :
    Domain.fileOf bytes s = .ok (s.file bytes) := by
  have hfile := h.file
  have hoff := h.offset
  have h1 : (usizeOf s.fileOffset .segment : Checked ImageError Nat) = .ok s.fileOffset :=
    if_pos (by omega)
  have h2 : (usizeOf s.fileSize .segment : Checked ImageError Nat) = .ok s.fileSize :=
    if_pos (by omega)
  have h3 : (plus s.fileOffset s.fileSize : Checked ImageError Nat)
      = .ok (s.fileOffset + s.fileSize) := if_pos hoff
  have h4 : (subslice bytes s.fileOffset (s.fileOffset + s.fileSize) : Checked ImageError _)
      = .ok (s.file bytes) := by
    unfold subslice Segment.file
    rw [if_pos ⟨Nat.le_add_right _ _, hfile⟩, Nat.add_sub_cancel_left]
  unfold Domain.fileOf
  rw [h1, h2]
  show (do let stop ← plus s.fileOffset s.fileSize; subslice bytes s.fileOffset stop) = _
  rw [h3]
  exact h4

theorem mapAll_logged {σ ε : Type} (m : Mapper σ ε) {segments : List Segment}
    (h : ∀ s ∈ segments, s.Admissible bytes) (s : σ) (calls : List (Segment × List UInt8)) :
    ∃ made r s', mapAll m.logged bytes segments (s, calls) = (r, s', calls ++ made)
      ∧ made <+: segments.map (fun t => (t, t.file bytes))
      ∧ ((r = .ok () ∧ made = segments.map fun t => (t, t.file bytes))
        ∨ ∃ e, r = .error (.error (.map e))) := by
  induction segments generalizing s calls with
  | nil => exact ⟨[], .ok (), s, by simp [mapAll], List.prefix_refl _, .inl ⟨rfl, rfl⟩⟩
  | cons t rest ih =>
    have hfile := (h t List.mem_cons_self).fileOf
    unfold mapAll
    rw [hfile]
    simp only [asLoad, Mapper.logged_map]
    cases hmap : m.map t (t.file bytes) s with
    | mk answer after =>
      cases answer with
      | ok u =>
        obtain ⟨made, r, s', hrun, hpre, hend⟩ :=
          ih (fun u hu => h u (List.mem_cons_of_mem _ hu)) after (calls ++ [(t, t.file bytes)])
        refine ⟨(t, t.file bytes) :: made, r, s', ?_, ?_, ?_⟩
        · simpa using hrun
        · simpa using hpre
        · rcases hend with ⟨hr, hmade⟩ | herr
          · exact .inl ⟨hr, by rw [hmade]; rfl⟩
          · exact .inr herr
      | error e =>
        exact ⟨[(t, t.file bytes)], _, after, rfl, by simp, .inr ⟨e, rfl⟩⟩

/-- For every byte string and every mapper, `load` does not panic. It
returns an error of admission and has not called the mapper; or the image is
admitted, and the calls are for its segments in order, all of them unless
the mapper refuses one. -/
theorem load_is_all_or_nothing {σ ε : Type} (m : Mapper σ ε) (bytes : List UInt8)
    (architecture : Architecture) (s : σ) :
    ∃ r s' calls, load m.logged bytes architecture (s, []) = (r, s', calls)
      ∧ ((∃ e, r = .error (.error (.image e)) ∧ calls = [])
        ∨ ∃ segments entry, Admitted bytes segments entry
          ∧ calls <+: segments.map (fun t => (t, t.file bytes))
          ∧ ((r = .ok entry ∧ calls = segments.map fun t => (t, t.file bytes))
            ∨ ∃ e, r = .error (.error (.map e)))) := by
  unfold load
  rcases Image.parse_cases bytes architecture with ⟨e, he⟩ | ⟨image, segments, hok, hseg, hadm⟩
  · rw [he]
    exact ⟨_, s, [], rfl, .inl ⟨e, rfl, rfl⟩⟩
  · rw [hok]
    simp only [asLoad]
    rw [hseg]
    obtain ⟨made, r, s', hrun, hpre, hend⟩ := mapAll_logged m hadm.each s []
    simp only
    rw [hrun]
    rcases hend with ⟨rfl, hmade⟩ | ⟨e, rfl⟩
    · exact ⟨_, s', _, rfl, .inr ⟨segments, image.entry, hadm, hpre, .inl ⟨rfl, hmade⟩⟩⟩
    · exact ⟨_, s', _, rfl, .inr ⟨segments, image.entry, hadm, hpre, .inr ⟨e, rfl⟩⟩⟩

end Molt.Domain
