/-
The two blocks a volume is made of besides payload: superblocks and tree nodes
(`layout.rs`, `btree.rs`).

# Keys

A key is 272 bytes with its content in front and zeros after it, and the
order looks at the content only. `cmpWindow` is that order on the bytes. On
windows that `Key::check` accepts nothing else is left to differ: the content
gives the window back (`Key.encode_of_parse`), so equal in the order is equal
in bytes.

# Superblocks

The regions of a superblock that passes its check are listed (`Super.parts`)
and lie one after another, which is all their disjointness is.
-/
import Molt.Fs.Node
import Molt.Lib.Span

namespace Molt.Fs

open Lib List

-- == keys

namespace Key

def cmpWindow (a b : List UInt8) : Ordering :=
  let tag := fun w : List UInt8 => (w.getD 0 0).toNat
  let id := fun w : List UInt8 => leNat ((w.drop 1).take 4)
  let name := fun w : List UInt8 => (w.drop 6).take (w.getD 5 0).toNat
  let fin := fun w : List UInt8 => leNat ((w.drop 8).take 8)
  (compare (tag a) (tag b)).then (match tag a with
    | 1 => compare (id a) (id b)
    | 2 => (compare (id a) (id b)).then (cmpBytes (name a) (name b))
    | 3 => (compare (id a) (id b)).then (compare (fin a) (fin b))
    | _ => cmpBytes a b)

theorem parse_cases {w : List UInt8} {k : Key} (h : parse w = .ok k) :
    ((w.getD 0 0).toNat = 1 ∧ (w.drop 5).all (· == 0) ∧ k = .object (leNat ((w.drop 1).take 4)))
    ∨ ((w.getD 0 0).toNat = 2 ∧ (w.getD 5 0).toNat ≤ 255
      ∧ (w.drop (6 + (w.getD 5 0).toNat)).all (· == 0)
      ∧ k = .dirent (leNat ((w.drop 1).take 4)) ((w.drop 6).take (w.getD 5 0).toNat))
    ∨ ((w.getD 0 0).toNat = 3 ∧ ((w.drop 5).take 3).all (· == 0) ∧ (w.drop 16).all (· == 0)
      ∧ k = .extent (leNat ((w.drop 1).take 4)) (leNat ((w.drop 8).take 8))) := by
  simp only [parse] at h
  split at h
  case h_1 htag =>
    split at h
    case isFalse => cases h
    case isTrue hzero =>
      cases h
      exact .inl ⟨htag, hzero, rfl⟩
  case h_2 htag =>
    split at h
    case isTrue => cases h
    case isFalse hlen =>
      push Not at hlen
      unfold Name.new at h
      split at h
      case h_2 => cases h
      case h_1 name hname =>
        split at hname
        case isFalse => cases hname
        case isTrue =>
          cases hname
          cases h
          refine .inr (.inl ⟨htag, hlen.2.1, ?_, rfl⟩)
          simpa using hlen.2.2
  case h_3 htag =>
    split at h
    case isFalse => cases h
    case isTrue hzero =>
      cases h
      rw [Bool.and_eq_true] at hzero
      exact .inr (.inr ⟨htag, hzero.1, hzero.2, rfl⟩)
  case h_4 => cases h

/-- On windows that are accepted, the order of the bytes is the order of the
keys. -/
theorem cmpWindow_eq {a b : List UInt8} {k l : Key} (ha : parse a = .ok k)
    (hb : parse b = .ok l) : cmpWindow a b = k.cmp l := by
  unfold cmpWindow
  rcases parse_cases ha with ⟨hta, -, rfl⟩ | ⟨hta, -, -, rfl⟩ | ⟨hta, -, -, rfl⟩ <;>
    rcases parse_cases hb with ⟨htb, -, rfl⟩ | ⟨htb, -, -, rfl⟩ | ⟨htb, -, -, rfl⟩ <;>
      simp only [hta, htb] <;> rfl

-- -- their bytes

theorem eq_replicate_of_all {w : List UInt8} (h : w.all (· == 0)) :
    w = List.replicate w.length 0 := by
  refine eq_replicate_iff.mpr ⟨rfl, fun b hb => ?_⟩
  exact beq_iff_eq.mp (all_eq_true.mp h b hb)

theorem window_split {w : List UInt8} (hw : w.length = 272) (n : Nat) (hn : 5 ≤ n)
    (hle : n ≤ 272) :
    w = w.getD 0 0 :: leBytes 4 (leNat ((w.drop 1).take 4)) ++ (w.drop 5).take (n - 5)
      ++ w.drop n := by
  have hid : leBytes 4 (leNat ((w.drop 1).take 4)) = (w.drop 1).take 4 := by
    have hlen : ((w.drop 1).take 4).length = 4 := by
      rw [length_take, length_drop]
      omega
    have := leBytes_leNat ((w.drop 1).take 4)
    rwa [hlen] at this
  cases w with
  | nil => cases hw
  | cons tag rest =>
    rw [hid]
    obtain ⟨m, rfl⟩ : ∃ m, n = 5 + m := ⟨n - 5, by omega⟩
    have hdrop : (tag :: rest).drop 5 = rest.drop 4 := rfl
    have htail : (tag :: rest).drop (5 + m) = (rest.drop 4).drop m := by
      rw [drop_drop, Nat.add_comm 5 m]
      show rest.drop (m + 4) = _
      rw [Nat.add_comm]
    rw [hdrop, htail, Nat.add_sub_cancel_left, append_assoc, take_append_drop, cons_append]
    show tag :: rest = tag :: (rest.take 4 ++ rest.drop 4)
    rw [take_append_drop]

theorem encode_of_parse {w : List UInt8} {k : Key} (hw : w.length = 272)
    (h : parse w = .ok k) : k.encode = w := by
  have hbyte : ∀ {i n : Nat}, (w.getD i 0).toNat = n → w.getD i 0 = UInt8.ofNat n := by
    intro i n hn
    rw [← hn, UInt8.ofNat_toNat]
  have hzeros : ∀ n, (w.drop n).all (· == 0) → w.drop n = List.replicate (272 - n) 0 := by
    intro n hall
    have := eq_replicate_of_all hall
    rwa [length_drop, hw] at this
  rcases parse_cases h with ⟨htag, hzero, rfl⟩ | ⟨htag, hlen, hzero, rfl⟩ | ⟨htag, hmid, hzero, rfl⟩
  · conv_rhs => rw [window_split hw 5 (by omega) (by omega), hbyte htag, hzeros 5 hzero]
    simp [-reduceReplicate, encode]
  · generalize hn : (w.getD 5 0).toNat = n at *
    conv_rhs => rw [window_split hw (6 + n) (by omega) (by omega), hbyte htag, hzeros _ hzero]
    have hname : (w.drop 5).take (6 + n - 5) = UInt8.ofNat n :: (w.drop 6).take n := by
      have hcons : w.drop 5 = w.getD 5 0 :: w.drop 6 := by
        rw [drop_eq_getElem_cons (by omega), getD_eq_getElem _ _ (by omega)]
      rw [hcons, hbyte hn, show 6 + n - 5 = n + 1 by omega, take_succ_cons]
    have hnlen : ((w.drop 6).take n).length = n := by
      rw [length_take, length_drop]
      omega
    rw [hname, encode, hnlen, show 272 - (6 + n) = 266 - n by omega]
    simp [-reduceReplicate]
  · conv_rhs => rw [window_split hw 16 (by omega) (by omega), hbyte htag, hzeros 16 hzero]
    have hparts : (w.drop 5).take 11 = List.replicate 3 0 ++ (w.drop 8).take 8 := by
      have hsplit : (w.drop 5).take 11 = (w.drop 5).take 3 ++ (w.drop 8).take 8 := by
        rw [show (11 : Nat) = 3 + 8 from rfl, take_add, drop_drop]
      have hthree := eq_replicate_of_all hmid
      rw [length_take, length_drop, hw] at hthree
      rw [hsplit, hthree]
      rfl
    have hfin : leBytes 8 (leNat ((w.drop 8).take 8)) = (w.drop 8).take 8 := by
      have hl : ((w.drop 8).take 8).length = 8 := by
        rw [length_take, length_drop]
        omega
      have := leBytes_leNat ((w.drop 8).take 8)
      rwa [hl] at this
    rw [hparts, encode, hfin]
    simp [-reduceReplicate]

/-- The order on the windows that are accepted. -/
structure Ordered : Prop where
  equal : ∀ {a b k l}, a.length = 272 → b.length = 272 → parse a = .ok k → parse b = .ok l →
    (cmpWindow a b = .eq ↔ a = b)
  swap : ∀ {a b k l}, parse a = .ok k → parse b = .ok l → (cmpWindow a b).swap = cmpWindow b a
  trans : ∀ {a b c k l m}, parse a = .ok k → parse b = .ok l → parse c = .ok m →
    cmpWindow a b = .lt → cmpWindow b c = .lt → cmpWindow a c = .lt

theorem ordered : Ordered where
  equal := by
    intro a b k l hla hlb ha hb
    rw [cmpWindow_eq ha hb]
    constructor
    · intro heq
      have hle : k ≤ l := by
        rw [le_iff, heq]
        exact nofun
      have hge : l ≤ k := by
        rw [le_iff, cmp_eq_rank, ← cmpRank_swap, ← cmp_eq_rank, heq]
        exact nofun
      rw [← encode_of_parse hla ha, ← encode_of_parse hlb hb, le_antisymm hle hge]
    · rintro rfl
      rw [Except.ok.inj (ha.symm.trans hb)]
      have hlt : ¬ l < l := lt_irrefl l
      have hle : l ≤ l := le_refl l
      rw [lt_iff] at hlt
      rw [le_iff] at hle
      cases hc : l.cmp l with
      | lt => exact absurd hc hlt
      | eq => rfl
      | gt => exact absurd hc hle
  swap := by
    intro a b k l ha hb
    rw [cmpWindow_eq ha hb, cmpWindow_eq hb ha, cmp_eq_rank, cmp_eq_rank, cmpRank_swap]
  trans := by
    intro a b c k l m ha hb hc hab hbc
    rw [cmpWindow_eq ha hb] at hab
    rw [cmpWindow_eq hb hc] at hbc
    rw [cmpWindow_eq ha hc]
    exact lt_trans (lt_iff.mpr hab) (lt_iff.mpr hbc)

end Key

/-- A node that a block may hold is read back as it was written, a block that
is accepted is written again to one that is read to the same node, and the
order of keys is a strict order that tells all of their bytes apart. -/
theorem nodes_survive_their_blocks :
    (∀ n : Node, n.WF → Node.parse n.encode = .ok n)
    ∧ (∀ m n, Node.parse m = .ok n → Node.parse n.encode = .ok n)
    ∧ Key.Ordered :=
  ⟨fun _ hn => Node.parse_encode hn,
    fun _ _ h => Node.parse_encode (Node.wf_of_parse h), Key.ordered⟩

/-- An inner node over keys of all three shapes is read back, its block is
accepted, and of two of its keys' windows the later one compares greater. -/
theorem nodes_survive_their_blocks_inner :
    let n : Node := ⟨1, 7, [.object 1, .dirent 1 [97, 98], .extent 2 4096], [], [5, 6, 7, 8]⟩
    n.WF ∧ Node.parse n.encode = .ok n
      ∧ n.keys.Pairwise fun k l => Key.cmpWindow l.encode k.encode = .gt := by
  obtain ⟨hwrite, hread, hordered⟩ := nodes_survive_their_blocks
  refine ⟨by decide, hread _ _ (hwrite _ (by decide)), ?_⟩
  have hkeys : ∀ k ∈ [Key.object 1, .dirent 1 [97, 98], .extent 2 4096], k.Valid := by decide
  have hlt : [Key.object 1, .dirent 1 [97, 98], .extent 2 4096].Pairwise fun k l =>
      Key.cmpWindow k.encode l.encode = .lt := by decide
  refine hlt.imp_of_mem fun {k l} hk hl h => ?_
  rw [← hordered.swap (Key.parse_encode (hkeys k hk)) (Key.parse_encode (hkeys l hl)), h]
  rfl

-- == superblocks

namespace Super

/-- The blocks a superblock gives out: its two copies, the arena, the banks. -/
def parts (s : Super) : List Span :=
  let start := s.blocks - s.logBlocks * 3
  [⟨0, 1⟩, ⟨1, 2⟩, ⟨s.treeAt, s.treeAt + s.treeBlocks⟩, ⟨start, start + s.logBlocks⟩,
    ⟨start + s.logBlocks, start + 2 * s.logBlocks⟩,
    ⟨start + 2 * s.logBlocks, start + 3 * s.logBlocks⟩]

/-- The parts are apart and on the volume, and the root and the log are in
theirs. -/
structure Placed (s : Super) : Prop where
  apart : s.parts.Pairwise fun a b => a.stop ≤ b.start
  inside : ∀ part ∈ s.parts, part.stop ≤ s.blocks
  root : s.treeRoot ≠ 0 → s.treeAt ≤ s.treeRoot ∧ s.treeRoot < s.treeAt + s.treeBlocks
  log : ∃ bank < 3, s.logBank bank = .ok s.log.addr ∧ s.log.bytes ≤ s.logBlocks * BLOCK

theorem Geometry.placed {s : Super} (h : s.Geometry) : s.Placed := by
  have hb := h.banks_fit
  have ha := h.arena_fits
  have ht := h.treeAt_ge
  refine ⟨?_, ?_, ?_, ?_⟩
  · simp only [parts, pairwise_cons, mem_cons, not_mem_nil, or_false,
      forall_eq_or_imp, forall_eq, List.Pairwise.nil, IsEmpty.forall_iff, implies_true, and_true]
    omega
  · simp only [parts, mem_cons, not_mem_nil, or_false, forall_eq_or_imp, forall_eq]
    omega
  · intro hroot
    rcases h.root_mem with hzero | hmem
    · exact absurd hzero hroot
    · exact hmem
  · obtain ⟨bank, hbank, haddr⟩ := h.log_bank
    refine ⟨bank, hbank, ?_, h.log_bytes⟩
    have hsub : checkedSub s.blocks (s.logBlocks * LOG_BANKS)
        = some (s.blocks - s.logBlocks * 3) := checkedSub_eq_some.mpr ⟨hb, rfl⟩
    unfold logBank
    rw [if_neg (Nat.not_le.mpr hbank), hsub, haddr]

/-- The sums and products `check` and `log_bank` make without a test. -/
structure Narrow (s : Super) : Prop where
  banks : s.logBlocks * LOG_BANKS < 2 ^ 64
  bytes : s.logBlocks * BLOCK < 2 ^ 64
  log : s.log.blocks < 2 ^ 64
  bank : ∀ bank < LOG_BANKS, ∀ start, checkedSub s.blocks (s.logBlocks * LOG_BANKS) = some start →
    bank * s.logBlocks < 2 ^ 64 ∧ start + bank * s.logBlocks < 2 ^ 64

theorem Fits.narrow {s : Super} (h : s.Fits) : s.Narrow := by
  have hl := h.logBlocks
  have hy := h.logBytes
  have hb := h.blocks
  refine ⟨?_, ?_, ?_, ?_⟩
  · simp only [LOG_BANKS]
    omega
  · simp only [BLOCK]
    omega
  · unfold Region.blocks
    simp only [BLOCK]
    omega
  · intro bank hbank start hstart
    obtain ⟨hle, rfl⟩ := checkedSub_eq_some.mp hstart
    simp only [LOG_BANKS] at *
    have hmul : bank * s.logBlocks ≤ 2 * s.logBlocks := Nat.mul_le_mul_right _ (by omega)
    omega

theorem check_error {s : Super} {e : FsError} (h : s.check = .error e) : e = .corrupt := by
  unfold check at h
  repeat' split at h
  all_goals cases h; try rfl

theorem parse_encode_eq {s : Super} (hs : s.Fits) : parse s.encode = match s.check with
      | .ok () => .ok s
      | .error _ => .error .corrupt := by
  rw [parse_encode hs]
  cases hc : s.check with
  | ok u => rfl
  | error e => rw [check_error hc]

theorem fits_readFields (m : Image) : (readFields m).Fits := by
  have h8 : ∀ off, atLe m off 8 < 2 ^ 64 := fun off => atLe_lt m off 8
  have h4 : ∀ off, atLe m off 4 < 2 ^ 32 := fun off => atLe_lt m off 4
  exact ⟨h8 _, h8 _, h4 _, h4 _, h8 _, h4 _, h8 _, h8 _, h8 _, h4 _⟩

theorem parse_ok {m : Image} {s : Super} (h : parse m = .ok s) : s.check = .ok () ∧ s.Fits := by
  unfold parse at h
  repeat' split at h
  all_goals try cases h
  exact ⟨by assumption, fits_readFields m⟩

end Super

/-- A superblock is read back exactly if it passes its check, the parts of one
that is read are apart and in place, and no sum on the way overflows. -/
theorem superblocks_are_placed : (∀ s : Super, s.Fits → Super.parse s.encode = match s.check with
      | .ok () => .ok s
      | .error _ => .error .corrupt)
    ∧ (∀ m s, Super.parse m = .ok s → s.Placed)
    ∧ ∀ s : Super, s.Fits → s.Narrow :=
  ⟨fun _ hs => Super.parse_encode_eq hs,
    fun _ _ h => (Super.check_ok (Super.parse_ok h).1).placed, fun _ hs => hs.narrow⟩

/-- The smallest volume: two copies, one block of tree and three of log. -/
theorem superblocks_are_placed_least :
    let s : Super := ⟨1, 6, 0, 1, 2, 1, 0, ⟨3, 0, 0⟩⟩
    Super.parse s.encode = .ok s := by
  have hcheck : (⟨1, 6, 0, 1, 2, 1, 0, ⟨3, 0, 0⟩⟩ : Super).check = .ok () := by decide
  have h := superblocks_are_placed.1 ⟨1, 6, 0, 1, 2, 1, 0, ⟨3, 0, 0⟩⟩ (by decide)
  rw [hcheck] at h
  exact h

end Molt.Fs
