/-
The words of the two ports' translation tables
(`platform/riscv/src/paging.rs`, `platform/x86_64/src/memory.rs`).

# Bits

A flag is named by its bit, `1 << PTE_R` for the source's `PTE_R`, and a test
`entry & FLAG != 0` is a test of that bit. The two ports' address fields do
not meet their flags, so each is read back as it was written; that is all the
laws of a port ask for.

# Left out

The memory type of a leaf: a grant is always write-back, so no view has any
other. `PhysAddr::new` panics above 52 bits, so the limit of the x86 port is
where its addresses end.
-/
import Molt.Platform.Paging

namespace Molt.Platform.Paging

-- == bits

def flag (bit : Nat) : Nat := 1 <<< bit

/-- A flag if it is wanted. -/
def flagIf (b : Bool) (bit : Nat) : Nat := if b then flag bit else 0

@[simp] theorem testBit_flag (bit i : Nat) : (flag bit).testBit i = decide (bit = i) := by
  rw [flag, Nat.one_shiftLeft, Nat.testBit_two_pow]

@[simp] theorem testBit_flagIf (b : Bool) (bit i : Nat) :
    (flagIf b bit).testBit i = (b && decide (bit = i)) := by
  unfold flagIf
  split <;> simp_all

theorem testBit_aligned {a i : Nat} (ha : a % FRAME_SIZE = 0) (hi : i < 12) :
    a.testBit i = false := by
  have hmod : a % 2 ^ 12 = 0 := ha
  have := Nat.testBit_mod_two_pow a 12 i
  rw [hmod, Nat.zero_testBit] at this
  simpa [hi] using this.symm

-- == RISC-V

namespace Riscv

def PTE_V : Nat := 0
def PTE_R : Nat := 1
def PTE_W : Nat := 2
def PTE_X : Nat := 3
def PTE_U : Nat := 4
def PTE_A : Nat := 6
def PTE_D : Nat := 7

def pte (pa flags : Nat) : Nat := ((pa >>> 12) <<< 10) ||| flags ||| flag PTE_V

def leafFlags (r : Rights) : Nat :=
  flag PTE_A ||| flag PTE_R
    ||| (flagIf r.write PTE_R ||| flagIf r.write PTE_W ||| flagIf r.write PTE_D)
    ||| flagIf r.execute PTE_X

/-- `PTE_RWX` distinguishes a leaf from a pointer. -/
def isLeaf (w : Nat) : Bool := w.testBit PTE_R || w.testBit PTE_W || w.testBit PTE_X

def kind (_ : Nat) (w : Nat) : Kind :=
  if w.testBit PTE_V = false then .absent else if isLeaf w then .leaf else .table

def base (w : Nat) : Nat := (w >>> 10) <<< 12

def rights (w : Nat) : Bool × Bool × Bool := (w.testBit PTE_R, w.testBit PTE_W, w.testBit PTE_X)

/-- `LEAF_FLAGS`: everything below the page number. -/
def lowFlags (w : Nat) : Nat := w % 2 ^ 10

theorem testBit_pte_low {pa flags i : Nat} (hi : i < 10) :
    (pte pa flags).testBit i = (flags.testBit i || decide (PTE_V = i)) := by
  have : ¬ 10 ≤ i := by omega
  simp [pte, Nat.testBit_or, Nat.testBit_shiftLeft, this]

/-- An entry points to the frame it was made of. -/
theorem base_pte {pa flags : Nat} (hpa : pa % FRAME_SIZE = 0) (hflags : flags < 2 ^ 10) :
    base (pte pa flags) = pa := by
  apply Nat.eq_of_testBit_eq
  intro i
  by_cases hi : i < 12
  · have : ¬ 12 ≤ i := by omega
    simp [base, Nat.testBit_shiftLeft, this, testBit_aligned hpa hi]
  · have hle : 12 ≤ i := by omega
    have hbit : flags.testBit (10 + (i - 12)) = false :=
      Nat.testBit_lt_two_pow (Nat.lt_of_lt_of_le hflags (Nat.pow_le_pow_right
        (by omega) (by omega)))
    have hv : ¬ PTE_V = 10 + (i - 12) := by unfold PTE_V; omega
    simp [base, pte, Nat.testBit_shiftLeft, Nat.testBit_shiftRight, Nat.testBit_or, hle, hbit, hv]

theorem leafFlags_lt (r : Rights) : leafFlags r ||| flag PTE_U < 2 ^ 10 := by
  unfold leafFlags
  generalize r.write = w
  generalize r.execute = x
  cases w <;> cases x <;> decide

theorem kind_pointer {level a : Nat} : kind level (pte a 0) = .table := by
  unfold kind isLeaf
  rw [testBit_pte_low (by decide), testBit_pte_low (by decide), testBit_pte_low (by decide),
    testBit_pte_low (by decide)]
  rfl

/-- The Sv39, Sv48 and Sv57 tables: a root at level two, three or four. -/
def port (extra : Nat) : Port where
  top := 2 + extra
  limit := 2 ^ 64
  kind := kind
  base := base
  rights := rights
  flags := fun r => leafFlags r ||| flag PTE_U
  leafWord := fun _ pa flags => pte pa flags
  pointer := fun _ frame => pte frame 0
  widen := fun _ w => w
  piece := fun level w k => pte (base w + k * granule level) (lowFlags w)
  cover := fun _ frame => pte frame 0
  top_ge := by omega
  kind_zero := fun _ => rfl
  pointer_table := fun _ ha _ => ⟨kind_pointer, base_pte ha (by decide)⟩
  widen_table := fun _ h => ⟨h, rfl⟩
  leaf_leaf := by
    intro level a r ha _
    refine ⟨?_, base_pte ha (leafFlags_lt r), ?_⟩
    · unfold kind isLeaf
      rw [testBit_pte_low (by decide), testBit_pte_low (by decide)]
      simp [leafFlags, Nat.testBit_or]
    · unfold rights
      rw [testBit_pte_low (by decide), testBit_pte_low (by decide), testBit_pte_low (by decide)]
      simp [leafFlags, Nat.testBit_or, PTE_R, PTE_W, PTE_X, PTE_V, PTE_A, PTE_D, PTE_U]
  piece_leaf := by
    intro level w k hleaf ha _
    have hlow : ∀ i < 10, (lowFlags w).testBit i = w.testBit i := by
      intro i hi
      rw [lowFlags, Nat.testBit_mod_two_pow]
      simp [hi]
    refine ⟨?_, base_pte ha (Nat.mod_lt _ (by decide)), ?_⟩
    · unfold kind isLeaf at hleaf ⊢
      rw [testBit_pte_low (by decide), testBit_pte_low (by decide), testBit_pte_low (by decide),
        testBit_pte_low (by decide), hlow _ (by decide), hlow _ (by decide), hlow _ (by decide),
        hlow _ (by decide)]
      split at hleaf
      · cases hleaf
      · split at hleaf
        · simp_all [PTE_V, PTE_R, PTE_W, PTE_X]
        · cases hleaf
    · unfold rights
      rw [testBit_pte_low (by decide), testBit_pte_low (by decide), testBit_pte_low (by decide),
        hlow _ (by decide), hlow _ (by decide), hlow _ (by decide)]
      simp [PTE_V, PTE_R, PTE_W, PTE_X]
  cover_table := fun _ ha _ => ⟨kind_pointer, base_pte ha (by decide)⟩

end Riscv

-- == x86

namespace X86

def PRESENT : Nat := 0
def WRITABLE : Nat := 1
def USER_ACCESSIBLE : Nat := 2
def WRITE_THROUGH : Nat := 3
def NO_CACHE : Nat := 4
def ACCESSED : Nat := 5
def DIRTY : Nat := 6
def HUGE_PAGE : Nat := 7
def GLOBAL : Nat := 8
def NO_EXECUTE : Nat := 63

def TOP : Nat := 3

/-- `entry.addr()`: bits 12 to 51. -/
def addr (w : Nat) : Nat := (w % 2 ^ 52) >>> 12 <<< 12

def leafFlags (r : Rights) : Nat :=
  flag PRESENT ||| flagIf (!r.execute) NO_EXECUTE ||| flagIf r.write WRITABLE

/-- Leaf bits that survive a split. -/
def INHERITED : Nat :=
  flag PRESENT ||| flag WRITABLE ||| flag USER_ACCESSIBLE ||| flag WRITE_THROUGH
    ||| flag NO_CACHE ||| flag ACCESSED ||| flag DIRTY ||| flag GLOBAL ||| flag NO_EXECUTE

def kind (level w : Nat) : Kind :=
  if w.testBit PRESENT = false then .absent
  else if level = 0 ∨ w.testBit HUGE_PAGE then .leaf else .table

def rights (w : Nat) : Bool × Bool × Bool :=
  (w.testBit PRESENT, w.testBit WRITABLE, !w.testBit NO_EXECUTE)

def huge (level flags : Nat) : Nat := if level = 0 then flags else flags ||| flag HUGE_PAGE

/-- The pointer to a table: present, writable, and for users as far as `w`. -/
def pointer (w frame : Nat) : Nat :=
  frame ||| (flag PRESENT ||| flag WRITABLE ||| (w &&& flag USER_ACCESSIBLE))

def widen (flags w : Nat) : Nat :=
  if flags.testBit USER_ACCESSIBLE then w ||| flag USER_ACCESSIBLE else w

def Flags (g : Nat) : Prop := ∀ i, g.testBit i = true → i < 12 ∨ 52 ≤ i

theorem Flags.or {g g' : Nat} (h : Flags g) (h' : Flags g') : Flags (g ||| g') := by
  intro i hi
  rw [Nat.testBit_or, Bool.or_eq_true] at hi
  rcases hi with hi | hi
  · exact h i hi
  · exact h' i hi

theorem Flags.and {g : Nat} (w : Nat) (h : Flags g) : Flags (w &&& g) := by
  intro i hi
  rw [Nat.testBit_and, Bool.and_eq_true] at hi
  exact h i hi.2

theorem flags_flag {bit : Nat} (h : bit < 12 ∨ 52 ≤ bit) : Flags (flag bit) := by
  intro i hi
  rw [testBit_flag, decide_eq_true_eq] at hi
  omega

theorem flags_flagIf {b : Bool} {bit : Nat} (h : bit < 12 ∨ 52 ≤ bit) : Flags (flagIf b bit) := by
  intro i hi
  rw [testBit_flagIf, Bool.and_eq_true, decide_eq_true_eq] at hi
  omega

theorem testBit_addr (w i : Nat) :
    (addr w).testBit i = (decide (12 ≤ i) && decide (i < 52) && w.testBit i) := by
  unfold addr
  rw [Nat.testBit_shiftLeft, Nat.testBit_shiftRight, Nat.testBit_mod_two_pow]
  by_cases hi : 12 ≤ i
  · simp [hi]
  · simp [hi]

theorem addr_or {a g : Nat} (ha : a % FRAME_SIZE = 0) (hlt : a < 2 ^ 52) (hg : Flags g) :
    addr (a ||| g) = a := by
  apply Nat.eq_of_testBit_eq
  intro i
  rw [testBit_addr, Nat.testBit_or]
  by_cases hlow : i < 12
  · simp [testBit_aligned ha hlow, hlow]
  · by_cases hhigh : 52 ≤ i
    · have : a.testBit i = false := Nat.testBit_lt_two_pow
        (Nat.lt_of_lt_of_le hlt (Nat.pow_le_pow_right (by omega) hhigh))
      simp [this]
      omega
    · have hbit : g.testBit i = false := by
        cases hb : g.testBit i with
        | false => rfl
        | true =>
          have := hg i hb
          omega
      simp [hbit]
      intro _
      omega

theorem testBit_or_flag {a g i : Nat} (ha : a % FRAME_SIZE = 0) (hlt : a < 2 ^ 52)
    (hi : i < 12 ∨ 52 ≤ i) : (a ||| g).testBit i = g.testBit i := by
  have : a.testBit i = false := by
    rcases hi with hi | hi
    · exact testBit_aligned ha hi
    · exact Nat.testBit_lt_two_pow (Nat.lt_of_lt_of_le hlt (Nat.pow_le_pow_right (by omega) hi))
  rw [Nat.testBit_or, this, Bool.false_or]

theorem flags_pointer (w : Nat) :
    Flags (flag PRESENT ||| flag WRITABLE ||| (w &&& flag USER_ACCESSIBLE)) :=
  ((flags_flag (by decide)).or (flags_flag (by decide))).or (Flags.and w (flags_flag (by decide)))

theorem kind_pointer {level w a : Nat} (hlevel : 0 < level) (ha : a % FRAME_SIZE = 0)
    (hlt : a < 2 ^ 52) : kind level (pointer w a) = .table := by
  unfold kind pointer
  rw [testBit_or_flag ha hlt (by decide), testBit_or_flag ha hlt (by decide)]
  have : ¬ level = 0 := by omega
  simp only [Nat.testBit_or, Nat.testBit_and, testBit_flag]
  simp [PRESENT, WRITABLE, USER_ACCESSIBLE, HUGE_PAGE, this]

theorem flags_huge {level g : Nat} (hg : Flags g) : Flags (huge level g) := by
  unfold huge
  split
  · exact hg
  · exact hg.or (flags_flag (by decide))

theorem testBit_huge_ne {level g i : Nat} (hi : i ≠ HUGE_PAGE) :
    (huge level g).testBit i = g.testBit i := by
  unfold huge
  split
  · rfl
  · rw [Nat.testBit_or, testBit_flag]
    simp [hi.symm]

theorem kind_huge {level a g : Nat} (ha : a % FRAME_SIZE = 0) (hlt : a < 2 ^ 52)
    (hpresent : g.testBit PRESENT = true) : kind level (a ||| huge level g) = .leaf := by
  unfold kind
  rw [testBit_or_flag ha hlt (by decide), testBit_or_flag ha hlt (by decide),
    testBit_huge_ne (by decide), hpresent]
  by_cases hlevel : level = 0
  · simp [hlevel]
  · simp [huge, hlevel, Nat.testBit_or]

theorem rights_huge {level a g : Nat} (ha : a % FRAME_SIZE = 0) (hlt : a < 2 ^ 52) :
    rights (a ||| huge level g) = rights g := by
  unfold rights
  rw [testBit_or_flag ha hlt (by decide), testBit_or_flag ha hlt (by decide),
    testBit_or_flag ha hlt (by decide), testBit_huge_ne (by decide), testBit_huge_ne (by decide),
    testBit_huge_ne (by decide)]

theorem testBit_inherited {w i : Nat} (hi : INHERITED.testBit i = true) :
    (w &&& INHERITED).testBit i = w.testBit i := by
  rw [Nat.testBit_and, hi, Bool.and_true]

theorem flags_inherited : Flags INHERITED := by
  unfold INHERITED
  repeat' apply Flags.or
  all_goals exact flags_flag (by decide)

theorem flags_leaf (r : Rights) : Flags (leafFlags r ||| flag USER_ACCESSIBLE) := by
  unfold leafFlags
  exact (((flags_flag (by decide)).or (flags_flagIf (by decide))).or
    (flags_flagIf (by decide))).or (flags_flag (by decide))

def port : Port where
  top := TOP
  limit := 2 ^ 52
  kind := kind
  base := addr
  rights := rights
  flags := fun r => leafFlags r ||| flag USER_ACCESSIBLE
  leafWord := fun level pa flags => pa ||| huge level flags
  pointer := pointer
  widen := widen
  piece := fun level w k => (addr w + k * granule level) ||| huge level (w &&& INHERITED)
  cover := pointer
  top_ge := by decide
  kind_zero := by
    intro level
    unfold kind
    rw [Nat.zero_testBit]
    rfl
  pointer_table := fun hlevel ha hlt =>
    ⟨kind_pointer hlevel ha hlt, addr_or ha hlt (flags_pointer _)⟩
  widen_table := by
    intro level f w hlevel h
    unfold widen
    split
    · constructor
      · unfold kind at h ⊢
        rw [Nat.testBit_or, Nat.testBit_or, testBit_flag, testBit_flag,
          decide_eq_false (by decide), decide_eq_false (by decide), Bool.or_false, Bool.or_false]
        exact h
      · apply Nat.eq_of_testBit_eq
        intro i
        rw [testBit_addr, testBit_addr, Nat.testBit_or, testBit_flag]
        by_cases hi : 12 ≤ i
        · have : ¬ USER_ACCESSIBLE = i := by unfold USER_ACCESSIBLE; omega
          simp [this]
        · simp [hi]
    · exact ⟨h, rfl⟩
  leaf_leaf := by
    intro level a r ha hlt
    refine ⟨kind_huge ha hlt ?_, addr_or ha hlt (flags_huge (flags_leaf r)), ?_⟩
    · simp [leafFlags, Nat.testBit_or]
    · rw [rights_huge ha hlt]
      unfold rights leafFlags
      simp only [Nat.testBit_or, testBit_flag, testBit_flagIf]
      simp [PRESENT, WRITABLE, USER_ACCESSIBLE, NO_EXECUTE]
  piece_leaf := by
    intro level w k hleaf ha hlt
    have hpresent : w.testBit PRESENT = true := by
      unfold kind at hleaf
      split at hleaf
      · cases hleaf
      case isFalse h => simpa using h
    refine ⟨kind_huge ha hlt ?_, addr_or ha hlt (flags_huge (flags_inherited.and w)), ?_⟩
    · rw [testBit_inherited (by decide)]
      exact hpresent
    · rw [rights_huge ha hlt]
      unfold rights
      rw [testBit_inherited (by decide), testBit_inherited (by decide),
        testBit_inherited (by decide)]
  cover_table := fun hlevel ha hlt =>
    ⟨kind_pointer hlevel ha hlt, addr_or ha hlt (flags_pointer _)⟩

end X86

inductive Mode where
  | sv39
  | sv48
  | sv57
  | x86
  deriving DecidableEq

def Mode.port : Mode → Port
  | .sv39 => Riscv.port 0
  | .sv48 => Riscv.port 1
  | .sv57 => Riscv.port 2
  | .x86 => X86.port

end Molt.Platform.Paging
