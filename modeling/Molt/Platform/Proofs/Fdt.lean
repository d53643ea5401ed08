/-
What a device tree can do to the kernel that reads it.

`Calm x P` says that `x` does not panic, and that `P` holds of what it
returns. The walk is calm because its cursor stays within three bytes of the
structure block, which is shorter than `2^32`, and its depth within the table
of cells. One subtraction is not guarded: that of the bus range, which a node
can give backwards (`Inverted`).
-/
import Molt.Platform.Fdt

namespace Molt.Platform.Fdt

open Molt.Domain

section Calm

variable {α β : Type} {P : α → Prop} {Q : β → Prop}

def Calm (x : M α) (P : α → Prop) : Prop :=
  match x with
  | .ok a => P a
  | .error (.error _) => True
  | .error .panic => False

abbrev Quiet (x : M α) : Prop := Calm x fun _ => True

@[simp] theorem calm_ok {a : α} : Calm (.ok a) P ↔ P a := Iff.rfl

theorem Calm.bind {x : M α} {f : α → M β} (hx : Calm x P) (hf : ∀ a, P a → Calm (f a) Q) :
    Calm (x >>= f) Q := by
  cases x with
  | ok a => exact hf a hx
  | error e =>
    cases e with
    | error e => trivial
    | panic => exact hx.elim

theorem Calm.mono {x : M α} {R : α → Prop} (hx : Calm x P) (h : ∀ a, P a → R a) : Calm x R := by
  cases x with
  | ok a => exact h a hx
  | error e => cases e <;> exact hx

theorem Calm.ne {x : M α} (hx : Calm x P) : x ≠ .error .panic := by
  rintro rfl
  exact hx

theorem calm_ite {c : Prop} [Decidable c] {x y : M α} (hx : c → Calm x P)
    (hy : ¬ c → Calm y P) : Calm (if c then x else y) P := by
  split
  · exact hx ‹_›
  · exact hy ‹_›

theorem calm_plus {a b : Nat} (h : a + b < 2 ^ 64) : Calm (plus a b) (· = a + b) := by
  rw [plus, if_pos h]
  exact rfl

theorem calm_minus {a b : Nat} (h : b ≤ a) : Calm (minus a b) (· = a - b) := by
  rw [minus, if_pos h]
  exact rfl

theorem calm_times {a b : Nat} (h : a * b < 2 ^ 64) : Calm (times a b) (· = a * b) := by
  rw [times, if_pos h]
  exact rfl

theorem calm_checkedAdd (a b : Nat) : Calm (checkedAdd a b FdtError.truncated) (· = a + b) :=
  calm_ite (fun _ => rfl) fun _ => trivial

theorem calm_window (xs : List UInt8) (start stop : Nat) (e : FdtError) :
    Calm (window xs start stop e) fun ys =>
      start ≤ stop ∧ stop ≤ xs.length ∧ ys.length = stop - start := by
  refine calm_ite (fun h => ⟨h.1, h.2, ?_⟩) fun _ => trivial
  rw [List.length_take, List.length_drop]
  omega

theorem calm_okOr (e : FdtError) (x : Option α) : Calm (okOr e x) (x = some ·) := by
  cases x with
  | none => trivial
  | some a => exact rfl

theorem calm_subslice {xs : List α} {start stop : Nat} (h : start ≤ stop)
    (hstop : stop ≤ xs.length) : Quiet (subslice xs start stop) := by
  rw [subslice, if_pos ⟨h, hstop⟩]
  exact trivial

theorem calm_index {xs : List α} {i : Nat} (h : i < xs.length) : Quiet (index xs i) := by
  rw [index, List.getElem?_eq_getElem h]
  exact trivial

end Calm

-- == reading

theorem cell_lt {bytes : List UInt8} {v : Nat} (h : cell bytes = some v) : v < 2 ^ 32 := by
  unfold cell at h
  split at h
  · rename_i a b c d _
    have := a.toNat_lt
    have := b.toNat_lt
    have := c.toNat_lt
    have := d.toNat_lt
    cases h
    omega
  · cases h

theorem calm_be32 (bytes : List UInt8) (offset : Nat) :
    Calm (be32 bytes offset) fun v => offset + 4 ≤ bytes.length ∧ v < 2 ^ 32 := by
  refine (calm_checkedAdd offset 4).bind ?_
  rintro stop rfl
  refine (calm_window bytes offset (offset + 4) .truncated).bind fun ys hys => ?_
  cases hcell : cell ys with
  | none => trivial
  | some v => exact ⟨hys.2.1, cell_lt hcell⟩

theorem calm_align (offset : Nat) : Calm (align offset) (· ≤ offset + 3) := by
  refine (calm_checkedAdd offset 3).bind ?_
  rintro sum rfl
  exact Nat.div_mul_le_self _ _

theorem calm_skipName {structs : List UInt8} (hlen : structs.length < 2 ^ 32) (cursor : Nat) :
    Calm (skipName structs cursor) (· ≤ structs.length + 3) := by
  refine (calm_window ..).bind fun rest hrest => ?_
  refine (calm_okOr ..).bind fun nul hnul => ?_
  have hlt : nul < rest.length := (List.findIdx?_eq_some_iff_getElem.mp hnul).1
  refine (calm_plus (by omega)).bind ?_
  rintro sum rfl
  refine (calm_plus (by omega)).bind ?_
  rintro sum rfl
  exact (calm_align _).mono fun after hafter => by omega

theorem calm_nameAt (strings : List UInt8) (offset : Nat) : Quiet (nameAt strings offset) := by
  refine (calm_window ..).bind fun rest _ => ?_
  refine (calm_okOr ..).bind fun nul hnul => ?_
  have hlt : nul < rest.length := (List.findIdx?_eq_some_iff_getElem.mp hnul).1
  exact calm_subslice (Nat.zero_le _) (Nat.le_of_lt hlt)

-- == the walk

/-- A visitor that closes nodes without a panic. -/
def Visit.Calm {V F : Type} (visit : Visit V F) : Prop := ∀ v, Quiet (visit.close v)

section Walk

variable {V F : Type} {visit : Visit V F} {structs strings : List UInt8} {w : Walk V}

structure Sane (structs : List UInt8) (w : Walk V) : Prop where
  cursor : w.cursor ≤ structs.length + 3
  depth : w.depth ≤ MAX_DEPTH
  cells : w.cells.length = MAX_DEPTH

/-- A walk that goes on is sane. -/
def Next.Sane (structs : List UInt8) : Next V F → Prop
  | .done .. => True
  | .more w => Fdt.Sane structs w

section

variable (h : Sane structs w)
include h

theorem Sane.beginNode (hlen : structs.length < 2 ^ 32)
    (hclose : visit.Calm) (cursor : Nat) :
    Calm (beginNode visit structs cursor w) (Next.Sane structs) := by
  refine (hclose w.visitor).bind ?_
  rintro ⟨found, visitor⟩ -
  refine calm_ite (fun _ => trivial) fun _ => (calm_skipName hlen cursor).bind fun next hnext => ?_
  refine calm_ite (fun _ => trivial) fun hdeep => ?_
  have hcells := h.cells
  have hparent : Quiet (parent w) := by
    refine calm_ite (fun _ => trivial) fun hpos => (calm_minus (by omega)).bind ?_
    rintro last rfl
    exact calm_index (by omega)
  refine hparent.bind fun parent _ => ?_
  have hassign : Calm (assign w.cells w.depth Cells.DEFAULT) (·.length = MAX_DEPTH) := by
    rw [assign, if_pos (by omega)]
    exact (List.length_set ..).trans hcells
  refine hassign.bind fun cells hcells => ?_
  have hmax : MAX_DEPTH = 32 := rfl
  refine (calm_plus (by omega)).bind ?_
  rintro depth rfl
  exact ⟨hnext, by show w.depth + 1 ≤ _; omega, hcells⟩

theorem Sane.prop (hlen : structs.length < 2 ^ 32) (cursor : Nat) :
    Calm (prop visit structs strings cursor w) (Next.Sane structs) := by
  refine (calm_be32 ..).bind fun len _ => (calm_plus (by omega)).bind ?_
  rintro next rfl
  refine (calm_be32 ..).bind fun nameoff _ => (calm_plus (by omega)).bind ?_
  rintro start rfl
  refine (calm_checkedAdd ..).bind ?_
  rintro stop rfl
  refine (calm_window ..).bind fun value hvalue => (calm_align _).bind fun after hafter => ?_
  refine calm_ite (fun _ => trivial) fun hpos => (calm_nameAt ..).bind fun name _ => ?_
  have hcells := h.cells
  have hdepth := h.depth
  refine (calm_minus (by omega)).bind ?_
  rintro last rfl
  refine (calm_index (by omega)).bind fun declared _ => ?_
  have hle : after ≤ structs.length + 3 := by omega
  show Fdt.Sane structs _
  unfold declare
  repeat' split
  all_goals exact ⟨hle, hdepth, by simp [hcells]⟩

theorem Sane.endNode (hclose : visit.Calm)
    {cursor : Nat} (hcursor : cursor ≤ structs.length) :
    Calm (endNode visit cursor w) (Next.Sane structs) := by
  refine (hclose w.visitor).bind ?_
  rintro ⟨found, visitor⟩ -
  refine calm_ite (fun _ => trivial) fun _ => calm_ite (fun _ => trivial) fun _ => ?_
  have hdepth := h.depth
  exact ⟨by show cursor ≤ _; omega, by show w.depth - 1 ≤ _; omega, h.cells⟩

theorem Sane.token (hlen : structs.length < 2 ^ 32)
    (hclose : visit.Calm) :
    Calm (token visit structs strings w) (Next.Sane structs) := by
  refine (calm_be32 ..).bind fun token htoken => (calm_plus (by omega)).bind ?_
  rintro cursor rfl
  refine calm_ite (fun _ => h.beginNode hlen hclose _) fun _ => ?_
  refine calm_ite (fun _ => h.prop hlen _) fun _ => ?_
  refine calm_ite (fun _ => h.endNode hclose htoken.1) fun _ => ?_
  refine calm_ite (fun _ => ⟨?_, h.depth, h.cells⟩) fun _ => ?_
  · show w.cursor + 4 ≤ _
    omega
  · exact calm_ite (fun _ => trivial) fun _ => trivial

theorem Sane.tokens (hlen : structs.length < 2 ^ 32)
    (hclose : visit.Calm) (steps : Nat) :
    Quiet (tokens visit structs strings steps w) := by
  induction steps generalizing w with
  | zero => trivial
  | succ steps ih =>
    refine (h.token hlen hclose).bind fun next hnext => ?_
    cases next with
    | done found visitor => trivial
    | more w => exact ih hnext

end

theorem calm_block (t : DeviceTree) (offsetAt sizeAt : Nat) :
    Calm (t.block offsetAt sizeAt) (·.length < 2 ^ 32) := by
  refine (calm_be32 ..).bind fun offset _ => (calm_be32 ..).bind fun len hlen => ?_
  refine (calm_checkedAdd ..).bind ?_
  rintro stop rfl
  refine calm_ite (fun _ => trivial) fun _ => ?_
  exact (calm_window ..).mono fun ys hys => by omega

theorem calm_walk (t : DeviceTree) (hclose : visit.Calm) (v : V) : Quiet (t.walk visit v) := by
  refine (calm_block ..).bind fun structs hlen => (calm_block ..).bind fun strings _ => ?_
  exact Sane.tokens ⟨Nat.zero_le _, Nat.zero_le _, List.length_replicate ..⟩ hlen hclose _

end Walk

theorem calm_new (bytes : List UInt8) : Quiet (DeviceTree.new bytes) := by
  have hsize : Quiet (DeviceTree.sizeOf bytes) := by
    refine (calm_be32 ..).bind fun magic _ => calm_ite (fun _ => trivial) fun _ => ?_
    refine (calm_be32 ..).bind fun version _ => calm_ite (fun _ => trivial) fun _ => ?_
    exact (calm_be32 ..).bind fun size _ => calm_ite (fun _ => trivial) fun _ => trivial
  exact hsize.bind fun size _ => calm_ite (fun _ => trivial) fun _ => trivial

-- == the visitors

theorem oneOrTwo_iff {cells : Nat} : oneOrTwo cells = true ↔ 1 ≤ cells ∧ cells ≤ 2 := by
  simp [oneOrTwo]

theorem calm_take (h : Harts) : Quiet h.take := by
  refine calm_ite (fun _ => trivial) fun hcells => ?_
  push Not at hcells
  have hwidth := oneOrTwo_iff.mp hcells.2.2
  refine (calm_times (by omega)).bind ?_
  rintro width rfl
  cases h.node.reg with
  | none => trivial
  | some reg =>
    refine calm_ite (fun hroom => ?_) fun _ => trivial
    have := h.into.2
    exact (calm_plus (by omega)).bind fun _ _ => trivial

theorem calm_region {addressWidth : Nat} {bank : List UInt8} (h : addressWidth ≤ bank.length) :
    Quiet (Banks.region addressWidth bank) := by
  refine (calm_subslice (Nat.zero_le _) h).bind fun _ _ => ?_
  exact (calm_subslice h le_rfl).bind fun _ _ => trivial

theorem calm_find {addressWidth address : Nat} {banks : List (List UInt8)}
    (h : ∀ bank ∈ banks, addressWidth ≤ bank.length) :
    Quiet (Banks.find addressWidth address banks) := by
  induction banks with
  | nil => trivial
  | cons bank banks ih =>
    refine (calm_region (h bank List.mem_cons_self)).bind fun region _ => ?_
    exact calm_ite (fun _ => trivial) fun _ => ih fun b hb => h b (List.mem_cons_of_mem _ hb)

theorem length_of_mem_records {n : Nat} {bytes w : List UInt8} {fuel : Nat}
    (h : w ∈ records n bytes fuel) : w.length = n := by
  induction fuel generalizing bytes with
  | zero => cases h
  | succ fuel ih =>
    rw [records] at h
    split at h
    · rcases List.mem_cons.mp h with rfl | h
      · rw [List.length_take]
        omega
      · exact ih h
    · cases h

theorem calm_bank (b : Banks) : Quiet b.bank := by
  refine calm_ite (fun _ => trivial) fun hcells => ?_
  push Not at hcells
  have haddress := oneOrTwo_iff.mp hcells.2.1
  have hsize := oneOrTwo_iff.mp hcells.2.2
  refine (calm_times (by omega)).bind ?_
  rintro addressWidth rfl
  refine (calm_times (by omega)).bind ?_
  rintro sizeWidth rfl
  cases hreg : b.reg with
  | none => trivial
  | some reg =>
    refine (calm_plus (by omega)).bind ?_
    rintro width rfl
    refine calm_ite (fun hzero => absurd hzero (by omega)) fun _ => calm_find fun bank hbank => ?_
    rw [length_of_mem_records hbank]
    omega

namespace Node

variable {n : Node}

/-- A node whose window can be read and whose bus range is backwards. -/
structure Inverted (n : Node) : Prop where
  cells : oneOrTwo n.cells.address ∧ oneOrTwo n.cells.size
  reg : ∃ reg, n.reg = some reg ∧ n.cells.address * 4 + n.cells.size * 4 ≤ reg.length
  buses : ∃ value, n.busRange = some value ∧ 8 ≤ value.length
    ∧ cellsOf (value.take 4) ≤ 255
    ∧ cellsOf ((value.drop 4).take 4) < cellsOf (value.take 4)

theorem buses_eq {value : List UInt8} (h : n.busRange = some value) (hlen : 8 ≤ value.length) :
    n.buses = if cellsOf (value.take 4) > 255 then fail .range
      else if cellsOf ((value.drop 4).take 4) > 255 then fail .range
      else .ok (cellsOf (value.take 4), cellsOf ((value.drop 4).take 4)) := by
  have hwindow : window value 0 8 .malformed = .ok (value.take 8) := if_pos ⟨Nat.zero_le _, hlen⟩
  have hfirst : (subslice (value.take 8) 0 4 : M _) = .ok (value.take 4) := by
    rw [subslice, if_pos (by simp; omega), List.drop_zero, List.take_take]
    rfl
  have hlast : (subslice (value.take 8) 4 (value.take 8).length : M _)
      = .ok ((value.drop 4).take 4) := by
    rw [subslice, if_pos (by simp; omega), List.drop_take, List.take_take]
    simp
    omega
  rw [buses, h]
  show (window value 0 8 .malformed >>= _) = _
  rw [hwindow]
  show (subslice (value.take 8) 0 4 >>= _) = _
  rw [hfirst]
  show (if cellsOf (value.take 4) > 255 then _ else subslice (value.take 8) 4 _ >>= _) = _
  rw [hlast]
  rfl

theorem calm_buses (n : Node) : Calm n.buses fun b => b.1 ≤ 255 ∧ b.2 ≤ 255
    ∧ (b.2 < b.1 → ∃ value, n.busRange = some value ∧ 8 ≤ value.length
      ∧ cellsOf (value.take 4) = b.1 ∧ cellsOf ((value.drop 4).take 4) = b.2) := by
  cases hrange : n.busRange with
  | none =>
    rw [buses, hrange]
    exact ⟨by decide, by decide, fun h => absurd h (by decide)⟩
  | some value =>
    by_cases hlen : 8 ≤ value.length
    · rw [buses_eq hrange hlen]
      refine calm_ite (fun _ => trivial) fun hfirst => calm_ite (fun _ => trivial) fun hlast => ?_
      exact ⟨by omega, by omega, fun _ => ⟨value, rfl, hlen, rfl, rfl⟩⟩
    · rw [buses, hrange]
      exact (calm_window ..).bind fun _ hw => absurd hw.2.1 hlen

theorem configSpace_calm (h : ¬ n.Inverted) :
    Calm n.configSpace fun c => c.firstBus ≤ c.lastBus := by
  refine calm_ite (fun _ => trivial) fun hcells => ?_
  rw [not_not] at hcells
  have haddress := oneOrTwo_iff.mp hcells.1
  have hsize := oneOrTwo_iff.mp hcells.2
  refine (calm_okOr ..).bind fun reg hreg => (calm_times (by omega)).bind ?_
  rintro split rfl
  refine (calm_window ..).bind fun base _ => (calm_times (by omega)).bind ?_
  rintro width rfl
  refine (calm_plus (by omega)).bind ?_
  rintro stop rfl
  refine (calm_window ..).bind fun size hlen => (calm_buses n).bind ?_
  rintro ⟨first, last⟩ ⟨hfirst, hlast, hback⟩
  have hle : first ≤ last := by
    by_contra hgt
    obtain ⟨value, hvalue, height, rfl, rfl⟩ := hback (by omega)
    exact h ⟨hcells, ⟨reg, hreg, hlen.2.1⟩, value, hvalue, height, hfirst, by omega⟩
  refine (calm_minus hle).bind ?_
  rintro span rfl
  refine (calm_plus (by omega)).bind ?_
  rintro buses rfl
  refine (calm_times (by unfold BUS_STRIDE; omega)).bind fun claimed _ => ?_
  refine calm_ite (fun _ => trivial) fun _ => ?_
  have hsegment : Quiet n.segment := by
    unfold segment
    split
    · trivial
    · exact (calm_okOr ..).bind fun _ _ => calm_ite (fun _ => trivial) fun _ => trivial
  exact hsegment.bind fun _ _ => calm_ite (fun _ => trivial) fun _ => hle

theorem Inverted.panics (h : n.Inverted) : n.configSpace = .error .panic := by
  obtain ⟨hcells, ⟨reg, hreg, hlen⟩, value, hvalue, height, hfirst, hlast⟩ := h
  have haddress := oneOrTwo_iff.mp hcells.1
  have hsize := oneOrTwo_iff.mp hcells.2
  have hbase : window reg 0 (n.cells.address * 4) .malformed = .ok _ :=
    if_pos ⟨Nat.zero_le _, by omega⟩
  have hwindow : window reg (n.cells.address * 4) (n.cells.address * 4 + n.cells.size * 4)
    .malformed = .ok _ := if_pos ⟨by omega, hlen⟩
  have hsplit : times n.cells.address 4 = .ok _ := if_pos (by omega)
  have hwidth : times n.cells.size 4 = .ok _ := if_pos (by omega)
  have hstop : (plus (n.cells.address * 4) (n.cells.size * 4) : M Nat) = .ok _ := if_pos (by omega)
  have hbuses := buses_eq hvalue height
  rw [if_neg (by omega), if_neg (by omega)] at hbuses
  have hspan : (minus (cellsOf ((value.drop 4).take 4)) (cellsOf (value.take 4)) : M Nat)
    = .error .panic := if_neg (by omega)
  rw [configSpace, if_neg (not_not.mpr hcells), hreg, hsplit]
  simp only [okOr, bind, Except.bind, hbase, hwidth, hstop, hwindow, hbuses, hspan]

theorem configSpace_panics_iff : n.configSpace = .error .panic ↔ n.Inverted := by
  refine ⟨fun hpanic => ?_, Inverted.panics⟩
  by_contra h
  exact (configSpace_calm h).ne hpanic

end Node

/-- No device tree makes `harts` or `ram` panic, and `config_space` panics
exactly if the node the walk ends with has its bus range backwards. -/
theorem device_tree_panics_iff_inverted (bytes : List UInt8) :
    ((DeviceTree.new bytes >>= DeviceTree.configSpace) = .error .panic ↔
      ∃ node v, (DeviceTree.new bytes >>= fun t => t.walk Node.visit (Node.new Cells.DEFAULT))
        = .ok (some node, v) ∧ node.Inverted)
    ∧ (∀ into, (DeviceTree.new bytes >>= fun t => t.harts into) ≠ .error .panic)
    ∧ ∀ address, (DeviceTree.new bytes >>= fun t => t.ram address) ≠ .error .panic := by
  have hnew := calm_new bytes
  refine ⟨?_, fun into => ?_, fun address => ?_⟩
  · have hwalk : Quiet (DeviceTree.new bytes >>= fun t =>
        t.walk Node.visit (Node.new Cells.DEFAULT)) :=
      hnew.bind fun t _ => calm_walk t (fun n => calm_ok.mpr trivial) _
    have heq : (DeviceTree.new bytes >>= DeviceTree.configSpace)
        = (DeviceTree.new bytes >>= fun t => t.walk Node.visit (Node.new Cells.DEFAULT)) >>=
          fun r => r.1.elim (fail .missing) Node.configSpace := by
      rw [bind_assoc]
      refine congrArg _ (funext fun t => congrArg _ (funext fun r => ?_))
      obtain ⟨found, _⟩ := r
      cases found <;> rfl
    rw [heq]
    generalize (DeviceTree.new bytes >>= fun t => t.walk Node.visit (Node.new Cells.DEFAULT)) = r
      at hwalk ⊢
    cases r with
    | error e =>
      constructor
      · intro hpanic
        cases hpanic
        exact hwalk.elim
      · rintro ⟨_, _, hr, _⟩
        cases hr
    | ok r =>
      obtain ⟨found, v⟩ := r
      cases found with
      | none =>
        constructor
        · intro h
          cases h
        · rintro ⟨_, _, hr, _⟩
          cases hr
      | some node =>
        refine ⟨fun h => ⟨node, v, rfl, Node.configSpace_panics_iff.mp h⟩, ?_⟩
        rintro ⟨node', v', hr, hinv⟩
        cases hr
        exact Node.configSpace_panics_iff.mpr hinv
  · refine (hnew.bind fun t _ => ?_ : Quiet _).ne
    have hclose : Harts.visit.Calm := fun h =>
      (calm_take h).bind fun _ _ => calm_ok.mpr trivial
    exact (calm_walk t hclose _).bind fun _ _ => calm_ok.mpr trivial
  · refine (hnew.bind fun t _ => ?_ : Quiet _).ne
    have hclose : Banks.visit.Calm := fun b =>
      (calm_bank b).bind fun _ _ => calm_ok.mpr trivial
    exact (calm_walk t hclose _).bind fun _ _ => (calm_okOr ..).mono fun _ _ => trivial

def words (numbers : List Nat) : List UInt8 :=
  numbers.flatMap fun n => [n / 2 ^ 24, n / 2 ^ 16, n / 2 ^ 8, n].map UInt8.ofNat

/-- One node: an ECAM bridge with a window of no bytes and the buses 5 to 3. -/
def backwards : List UInt8 :=
  words [MAGIC, 161, 40, 136, 0, 17, 16, 0, 25, 96]
    ++ words [1, 0, 3, 22, 0] ++ ascii "pci-host-ecam-generic" ++ [0, 0, 0]
    ++ words [3, 16, 11, 0, 0, 0, 0, 3, 8, 15, 5, 3, 2]
    ++ ascii "compatible" ++ [0] ++ ascii "reg" ++ [0] ++ ascii "bus-range" ++ [0]

theorem backwards_bus_range_panics :
    (DeviceTree.new backwards >>= DeviceTree.configSpace) = .error .panic := by
  decide +kernel

end Molt.Platform.Fdt
