/-
A window that passes holds no memory exactly if no frame has memory behind a
first byte that is not (`Framed`): a usable region that begins inside a frame,
or that lies under a reserved one, is not seen.
-/
import Molt.Arch.Memory

namespace Molt.Arch

open List

namespace Inventory

/-- A byte of the image or of a usable region. -/
def Memory (m : Inventory) (x : Nat) : Prop :=
  (∃ image ∈ m.image, x ∈ image.toSpan) ∨ ∃ r ∈ m.regions, r.kind = .usable ∧ x ∈ r.toSpan

/-- A frame with memory in it begins with memory. -/
def Framed (m : Inventory) : Prop :=
  ∀ x < 2 ^ 64 - FRAME_SIZE, m.Memory x →
    m.kind (frame x) = .ram ∨ m.kind (frame x) = .image

structure Tidy (m : Inventory) : Prop where
  aligned : ∀ r ∈ m.regions, r.kind = .usable → r.start % FRAME_SIZE = 0
  apart : ∀ r ∈ m.regions, ∀ s ∈ m.regions, r.kind = .usable → s.kind ≠ .usable →
    r.toSpan.Apart s.toSpan

end Inventory

variable {m : Inventory} {span : Span} {x : Nat}

theorem Inventory.device_ok (h : m.device span = .ok span) :
    (m.kind span.start = .device ∨ m.kind span.start = .reserved)
      ∧ ∀ i < span.bytes / FRAME_SIZE,
        m.kind (span.start + FRAME_SIZE * i) = m.kind span.start := by
  unfold device classify at h
  by_cases hall : ∀ i < span.bytes / FRAME_SIZE,
      m.kind (span.start + FRAME_SIZE * i) = m.kind span.start
  · refine ⟨?_, hall⟩
    rw [if_pos hall] at h
    cases hkind : m.kind span.start <;> rw [hkind] at h <;> simp at h ⊢
  · rw [if_neg hall] at h
    cases h

theorem Span.frame_of (hx : x ∈ span.toSpan) : ∃ i < span.bytes / FRAME_SIZE,
    span.start + FRAME_SIZE * i = frame x := by
  obtain ⟨h1, h2⟩ := Lib.Span.mem_iff.mp hx
  have halign := span.aligned
  unfold Lib.Span.bytes frame FRAME_SIZE at *
  exact ⟨(x - span.start) / 4096, by omega, by omega⟩

theorem Inventory.device_of_frame (hx : x < 2 ^ 64 - FRAME_SIZE)
    (hram : m.kind (frame x) ≠ .ram) (himage : m.kind (frame x) ≠ .image) :
    ∃ span, x ∈ span.toSpan ∧ m.device span = .ok span := by
  have hframe : frame x ≤ x ∧ x < frame x + FRAME_SIZE ∧ frame x % FRAME_SIZE = 0
      ∧ (frame x + FRAME_SIZE) % FRAME_SIZE = 0 ∧ frame x + FRAME_SIZE < 2 ^ 64 := by
    unfold frame FRAME_SIZE at *
    omega
  obtain ⟨hle, hlt, hlow, hhigh, hfits⟩ := hframe
  refine ⟨⟨⟨frame x, frame x + FRAME_SIZE⟩, hle.trans_lt hlt, ⟨hlow, hhigh⟩, hfits⟩, ⟨hle, hlt⟩, ?_⟩
  unfold device classify Lib.Span.bytes
  rw [if_pos]
  · cases hkind : m.kind (frame x) with
    | ram => exact absurd hkind hram
    | image => exact absurd hkind himage
    | reserved => rfl
    | device => rfl
  · intro i hi
    rw [Nat.add_sub_cancel_left, Nat.div_self (by decide), Nat.lt_one_iff] at hi
    rw [hi, Nat.mul_zero, Nat.add_zero]

theorem Inventory.Tidy.framed (h : m.Tidy) : m.Framed := by
  intro x hx hmem
  unfold kind
  split
  · exact .inr rfl
  · rename_i hout
    left
    rcases hmem with ⟨image, himage, hin⟩ | ⟨r, hr, husable, hin⟩
    · -- the image is made of frames
      obtain ⟨h1, h2⟩ := Lib.Span.mem_iff.mp hin
      have halign := image.aligned
      rw [Option.mem_def] at himage
      rw [himage] at hout
      refine absurd (decide_eq_true ?_) hout
      rw [Lib.Span.mem_iff]
      unfold frame FRAME_SIZE at *
      omega
    · have halign := h.aligned r hr husable
      have hframe : frame x ∈ r.toSpan := by
        obtain ⟨h1, h2⟩ := Lib.Span.mem_iff.mp hin
        rw [Lib.Span.mem_iff]
        unfold frame FRAME_SIZE at *
        omega
      cases hfind : m.regions.find? fun r => frame x ∈ r.toSpan with
      | none => exact absurd (decide_eq_true hframe) (find?_eq_none.mp hfind r hr)
      | some s =>
        have hs : frame x ∈ s.toSpan := by simpa using find?_some hfind
        by_cases hkind : s.kind = .usable
        · exact if_pos hkind
        · have hapart := h.apart r hr s (mem_of_find?_eq_some hfind) husable hkind
          exact absurd hs (hapart.not_mem hframe)

theorem Bar.span_covers {b : Bar} (h : b.span = .ok span) (hlow : b.base ≤ x)
    (hhigh : x < b.base + b.len) : x ∈ span.toSpan := by
  unfold Bar.span Span.new at h
  split at h
  · cases h
  · split at h
    · split at h
      · cases h
        rw [Lib.Span.mem_iff]
        unfold frame FRAME_SIZE at *
        dsimp only at *
        omega
      · cases h
    · cases h

/-- A window that passes holds no memory exactly if a frame with memory in it
begins with memory, as all do if usable regions begin with a frame and share
no byte with others; a register lies inside the window made of it. -/
theorem device_window_is_not_memory (m : Inventory) :
    ((∀ span, m.device span = .ok span → ∀ x ∈ span.toSpan, ¬ m.Memory x) ↔ m.Framed)
      ∧ (m.Tidy → m.Framed)
      ∧ (m.Framed → ∀ (b : Bar) span, b.span = .ok span → m.device span = .ok span →
        ∀ x, b.base ≤ x → x < b.base + b.len → ¬ m.Memory x) := by
  have hback : m.Framed → ∀ span, m.device span = .ok span → ∀ x ∈ span.toSpan, ¬ m.Memory x := by
    intro hframed span hok x hx hmem
    obtain ⟨hkind, hall⟩ := Inventory.device_ok hok
    obtain ⟨i, hi, heq⟩ := Span.frame_of hx
    have hlt : x < 2 ^ 64 - FRAME_SIZE := by
      have hstop := (Lib.Span.mem_iff.mp hx).2
      have halign := span.aligned
      have := span.stop_lt
      unfold FRAME_SIZE at *
      omega
    have hframe := hframed x hlt hmem
    rw [← heq, hall i hi] at hframe
    rcases hkind with h | h <;> rw [h] at hframe <;> simp at hframe
  refine ⟨⟨?_, hback⟩, Inventory.Tidy.framed, ?_⟩
  · intro hall x hx hmem
    by_contra hnot
    rw [not_or] at hnot
    obtain ⟨span, hin, hok⟩ := Inventory.device_of_frame hx hnot.1 hnot.2
    exact hall span hok x hin hmem
  · intro hframed b span hspan hok x hlow hhigh
    exact hback hframed span hok x (Bar.span_covers hspan hlow hhigh)

def unaligned : Inventory := ⟨[some ⟨⟨0x1800, 0x3000⟩, .usable⟩], none⟩

def secondFrame : Span := ⟨⟨FRAME_SIZE, 2 * FRAME_SIZE⟩, by decide, by decide, by decide⟩

/-- The frame is handed out as a device's with RAM in it. -/
theorem device_window_over_ram : unaligned.device secondFrame = .ok secondFrame
    ∧ 0x1800 ∈ secondFrame.toSpan ∧ unaligned.Memory 0x1800 :=
  ⟨by decide, by decide, .inr ⟨⟨⟨0x1800, 0x3000⟩, .usable⟩, by decide, rfl, by decide⟩⟩

end Molt.Arch
