/-
What block I/O and the node cache do to a store.

# Views

`view` is what each block of the tree arena parses to; everything proved
about trees is proved of it. The cache stands beside it: `Coherent T s`
says that every cached node is to its block's view as `T` says. The
specifications hold for any `T` that is true of a node just parsed (`Parsed`);
where trees are well formed it is equality (`Exact`).

# Frames

`Still` is a step that reads: the volume is what it was. `Evolves P` is a
step that wrote sectors of `P` only and flushed nothing. Every function
of the tree and the journal gets a specification that ends in one of the
two, in the success case and in the error case alike, since what a failed
call leaves behind is what its caller goes on with.

`Calm s` is a world that refuses nothing from here on and lets loops
finish. Most error cases say that the world was not calm.
-/
import Molt.Fs.Tree

namespace Molt.Fs

open Lib

-- == the volume

def Super.InArena (sb : Super) (b : Nat) : Prop := sb.treeAt ≤ b ∧ b < sb.treeAt + sb.treeBlocks

instance (sb : Super) (b : Nat) : Decidable (sb.InArena b) := inferInstanceAs (Decidable (_ ∧ _))

/-- A mounted superblock describes the device it is on. -/
structure Volume.Sound (v : Volume) : Prop where
  geometry : v.superblock.Geometry
  fits : v.superblock.blocks * 8 ≤ v.sectors
  sectors : v.sectors < 2 ^ 64

/-- What arena block `b` parses to. -/
def Volume.view (v : Volume) (b : Nat) : Option Node :=
  if v.superblock.InArena b then (v.blockAt b).load.toOption else none

/-- Every byte of the device. -/
def Volume.bytes (v : Volume) : Image := fun i =>
  (v.disk.read (i / 512)).byte (i % 512)

@[inherit_doc Volume.view]
def Store.view (s : Store) (b : Nat) : Option Node := s.volume.view b

theorem Volume.Sound.arena_lt {v : Volume} (h : v.Sound) {b : Nat}
    (hb : v.superblock.InArena b) : b < v.superblock.blocks := by
  have h1 := h.geometry.arena_fits
  have h2 := h.geometry.banks_fit
  have h3 := h.geometry.logBlocks_pos
  have h4 := hb.2
  omega

/-- An address has an offset exactly if it is in the arena. -/
theorem treeOffset_ok {sb : Super} {b off : Nat} :
    treeOffset sb b = .ok off ↔ sb.InArena b ∧ b = sb.treeAt + off := by
  unfold treeOffset Super.InArena
  constructor
  · intro h
    split at h
    · cases h
    next o hsub =>
      obtain ⟨hle, rfl⟩ := checkedSub_eq_some.mp hsub
      split at h
      · cases h
      · cases h
        omega
  · rintro ⟨⟨h1, h2⟩, rfl⟩
    have hsub : checkedSub (sb.treeAt + off) sb.treeAt = some off := by
      rw [checkedSub_eq_some]
      omega
    rw [hsub]
    simp only
    rw [if_neg (by omega)]

theorem treeOffset_of_inArena {sb : Super} {b : Nat} (h : sb.InArena b) :
    treeOffset sb b = .ok (b - sb.treeAt) :=
  treeOffset_ok.mpr ⟨h, by have := h.1; omega⟩

theorem treeOffset_error {sb : Super} {b : Nat} {e : FsError}
    (h : treeOffset sb b = .error e) : ¬ sb.InArena b := by
  intro hb
  rw [treeOffset_of_inArena hb] at h
  cases h

theorem Volume.byte_blockAt (v : Volume) (index j : Nat) :
    (v.blockAt index).byte j = v.bytes (index * 4096 + j) := by
  show (v.disk.read (index * 8 + j / 512)).byte (j % 512)
    = (v.disk.read ((index * 4096 + j) / 512)).byte ((index * 4096 + j) % 512)
  have h1 : (index * 4096 + j) / 512 = index * 8 + j / 512 := by omega
  have h2 : (index * 4096 + j) % 512 = j % 512 := by omega
  rw [h1, h2]

theorem Volume.slice_blockAt (v : Volume) (index off n : Nat) :
    slice (v.blockAt index).byte off n = slice v.bytes (index * 4096 + off) n := by
  refine slice_congr fun i _ => ?_
  rw [v.byte_blockAt, Nat.add_assoc]

theorem Volume.view_wf {v : Volume} {b : Nat} {n : Node} (h : v.view b = some n) : n.WF := by
  unfold view at h
  split at h
  · cases hl : (v.blockAt b).load with
    | error e => simp [hl, Except.toOption] at h
    | ok m =>
      simp only [hl, Except.toOption, Option.some.injEq] at h
      exact h ▸ Block.wf_of_load hl
  · cases h

theorem Volume.view_inArena {v : Volume} {b : Nat} {n : Node}
    (h : v.view b = some n) : v.superblock.InArena b := by
  by_contra hb
  rw [view, if_neg hb] at h
  cases h

-- == caches and worlds

def Exact (o : Option Node) (n : Node) : Prop := o = some n

/-- Every cached node is to its block's view as `T` says. -/
def Coherent (T : Option Node → Node → Prop) (s : Store) : Prop :=
  s.cache.Holds fun b n => T (s.view b) n

/-- Rounds no loop over a well-formed volume exceeds. -/
def FUEL : Nat := 2 ^ 40

/-- Nothing is refused from here on, and loops can finish. -/
def Calm (s : Store) : Prop := (∀ k, s.env.clock ≤ k → s.env.refuse k = none) ∧ FUEL ≤ s.env.fuel

/-- The world moved on: the clock may have, nothing else did. -/
structure Env.Later (e e' : Env) : Prop where
  refuse : e'.refuse = e.refuse
  fuel : e'.fuel = e.fuel
  clock : e.clock ≤ e'.clock

theorem Env.Later.refl (e : Env) : e.Later e := ⟨rfl, rfl, le_rfl⟩

theorem Env.Later.trans {a b c : Env} (h : a.Later b) (h' : b.Later c) : a.Later c :=
  ⟨h'.refuse.trans h.refuse, h'.fuel.trans h.fuel, Nat.le_trans h.clock h'.clock⟩

theorem Calm.later {s s' : Store} (hs : Calm s) (h : s.env.Later s'.env) : Calm s' := by
  refine ⟨fun k hk => ?_, by rw [h.fuel]; exact hs.2⟩
  rw [h.refuse]
  exact hs.1 k (Nat.le_trans h.clock hk)

-- == frames

structure Still (T : Option Node → Node → Prop) (s s' : Store) : Prop where
  volume : s'.volume = s.volume
  env : s.env.Later s'.env
  cache : Coherent T s'

/-- A step that wrote sectors of `P` only, and flushed nothing. -/
structure Evolves (T : Option Node → Node → Prop) (P : Nat → Prop)
    (s s' : Store) : Prop where
  disk : Disk.Wrote P s.volume.disk s'.volume.disk
  rest : s'.volume = { s.volume with disk := s'.volume.disk }
  env : s.env.Later s'.env
  cache : Coherent T s'

section Frames

variable {T : Option Node → Node → Prop} {P P' : Nat → Prop} {s s' s'' : Store}

theorem Still.refl (h : Coherent T s) : Still T s s := ⟨rfl, .refl _, h⟩

theorem Still.trans (h : Still T s s') (h' : Still T s' s'') : Still T s s'' :=
  ⟨h'.volume.trans h.volume, h.env.trans h'.env, h'.cache⟩

theorem Still.view (h : Still T s s') : s'.view = s.view := by
  funext b
  rw [Store.view, h.volume, Store.view]

theorem Still.calm (h : Still T s s') (hs : Calm s) : Calm s' := hs.later h.env

theorem Still.evolves (h : Still T s s') : Evolves T P s s' :=
  ⟨by rw [h.volume]; exact .refl _ _, by rw [h.volume], h.env, h.cache⟩

theorem Evolves.refl (h : Coherent T s) : Evolves T P s s := (Still.refl h).evolves

section

variable (h : Evolves T P s s')
include h

theorem Evolves.trans (h' : Evolves T P s' s'') : Evolves T P s s'' :=
  ⟨h.disk.trans h'.disk, by rw [h'.rest, h.rest], h.env.trans h'.env, h'.cache⟩

theorem Evolves.mono (hP : ∀ x, P x → P' x) :
    Evolves T P' s s' := ⟨h.disk.mono hP, h.rest, h.env, h.cache⟩

theorem Evolves.superblock : s'.volume.superblock = s.volume.superblock := by rw [h.rest]

theorem Evolves.sound (hs : s.volume.Sound) : s'.volume.Sound := by
  rw [h.rest]
  exact ⟨hs.geometry, hs.fits, hs.sectors⟩

end

theorem Still.sound (h : Still T s s') (hs : s.volume.Sound) : s'.volume.Sound := by
  rw [h.volume]
  exact hs

theorem Evolves.blockAt (h : Evolves T P s s') {b : Nat}
    (hb : ∀ i < 8, ¬ P (b * 8 + i)) {i : Nat} (hi : i < 8) :
    s'.volume.blockAt b i = s.volume.blockAt b i :=
  h.disk.read_eq (hb i hi)

theorem Block.load_congr {b b' : Block} (h : ∀ i < 8, b i = b' i) : b.load = b'.load := by
  rw [load_eq_parse, load_eq_parse]
  refine Node.parse_congr fun j hj => ?_
  have hi : j / 512 < 8 := by omega
  show (b (j / 512)).byte (j % 512) = (b' (j / 512)).byte (j % 512)
  rw [h _ hi]

theorem Evolves.view (h : Evolves T P s s') {b : Nat}
    (hb : ∀ i < 8, ¬ P (b * 8 + i)) : s'.view b = s.view b := by
  unfold Store.view Volume.view
  rw [h.superblock, Block.load_congr fun i hi => h.blockAt hb hi]

end Frames

-- == requests

section Requests

variable {T : Option Node → Node → Prop} {s : Store}

theorem Coherent.tick (h : Coherent T s) : Still T s s.tick := ⟨rfl, ⟨rfl, rfl, Nat.le_succ _⟩, h⟩

theorem gate_spec (h : Coherent T s) :
    Wp gate s (fun _ s' => Still T s s') (fun _ s' => Still T s s' ∧ ¬ Calm s) := by
  unfold Wp gate
  cases hr : s.env.refuse s.env.clock with
  | none => exact h.tick
  | some e =>
    refine ⟨h.tick, fun hc => ?_⟩
    rw [hc.1 _ le_rfl] at hr
    cases hr

/-- A block that is read is the one on the disk. -/
theorem raw_spec (hc : Coherent T s) (hsec : s.volume.sectors < 2 ^ 64)
    (index : Nat) :
    Wp (raw index) s
      (fun b s' => b = s.volume.blockAt index ∧ Still T s s')
      (fun _ s' => Still T s s' ∧ (index * 8 + 8 ≤ s.volume.sectors → ¬ Calm s)) := by
  unfold raw
  simp only [wp_bind, wp_get, wp_ensure, SECTORS]
  refine ⟨fun h1 => ⟨fun h2 => ?_, fun h2 => ⟨.refl hc, fun h => absurd h h2⟩⟩,
    fun h1 => ⟨.refl hc, fun h => absurd (by omega) h1⟩⟩
  refine (gate_spec hc).mono (fun _ s' h => ?_) fun _ s' h => ⟨h.1, fun _ => h.2⟩
  exact ⟨rfl, h⟩

theorem block_spec (hc : Coherent T s) (hsec : s.volume.sectors < 2 ^ 64)
    (hfit : s.volume.superblock.blocks * 8 ≤ s.volume.sectors) (index : Nat) :
    Wp (block index) s
      (fun b s' => b = s.volume.blockAt index ∧ index < s.volume.superblock.blocks ∧ Still T s s')
      (fun _ s' => Still T s s' ∧ (index < s.volume.superblock.blocks → ¬ Calm s)) := by
  unfold block
  simp only [wp_bind, wp_get, wp_ensure]
  refine ⟨fun h => ?_, fun h => ⟨.refl hc, fun h' => absurd h' h⟩⟩
  refine (raw_spec hc hsec index).mono (fun b s' hb => ⟨hb.1, h, hb.2⟩)
    fun _ s' he => ⟨he.1, fun _ => he.2 (by omega)⟩

def Store.wrote (s : Store) (w : Write Sector) : Store :=
  { s with volume := { s.volume with disk := s.volume.disk.write w } }

/-- A write happens whole or not at all. -/
theorem writeSectors_spec (hc : Coherent T s) (start : Nat) (data : List Sector) :
    Wp (writeSectors start data) s
      (fun _ s' => s' = s.tick.wrote ⟨start, data⟩)
      (fun _ s' => Still T s s' ∧ (start + data.length ≤ s.volume.sectors → ¬ Calm s)) := by
  unfold writeSectors
  simp only [wp_bind, wp_get, wp_ensure]
  refine ⟨fun _ => ?_, fun h => ⟨.refl hc, fun h' => absurd h' h⟩⟩
  unfold Wp gate
  cases hr : s.env.refuse s.env.clock with
  | none => exact rfl
  | some e =>
    refine ⟨hc.tick, fun _ hcalm => ?_⟩
    rw [hcalm.1 _ le_rfl] at hr
    cases hr

end Requests

-- == reading nodes

section Reading

variable {T : Option Node → Node → Prop} {s : Store}

/-- The relation a cache is kept in holds of what was just parsed. -/
def Parsed (T : Option Node → Node → Prop) : Prop := ∀ n : Node, n.WF → T (some n) n

theorem Exact.parsed : Parsed Exact := fun _ _ => rfl

/-- `parse` loads a block as `Node::parse` does. -/
theorem parse_spec (hc : Coherent T s) (b : Block) :
    Wp (Tree.parse b) s (fun n s' => b.load = .ok n ∧ Still T s s')
      (fun _ s' => Still T s s' ∧ (b.load.toOption ≠ none → ¬ Calm s)) := by
  unfold Tree.parse
  split
  case h_1 e he =>
    refine ⟨.refl hc, fun hload => absurd ?_ hload⟩
    rw [Block.load_of_refused he]
    rfl
  case h_2 =>
    rw [wp_bind]
    refine (gate_spec hc).mono ?_ fun _ s' h => ⟨h.1, fun _ => h.2⟩
    intro _ s1 h1
    rw [wp_lift]
    refine ⟨fun n hn => ⟨hn, h1⟩, fun e he => ⟨h1, fun hload => absurd ?_ hload⟩⟩
    rw [he]
    rfl

/-- `read` answers the node that the view has at the address. -/
theorem read_spec (hT : Parsed T) (hs : s.volume.Sound) (hc : Coherent T s)
    (addr : Nat) :
    Wp (Tree.read addr) s
      (fun n s' => T (s.view addr) n ∧ s.volume.superblock.InArena addr ∧ Still T s s')
      (fun _ s' => Still T s s' ∧ (s.view addr ≠ none → ¬ Calm s)) := by
  unfold Tree.read
  simp only [wp_bind, wp_get, wp_lift]
  refine ⟨fun off hoff => ?_, fun e he => ⟨.refl hc, fun hv => absurd ?_ hv⟩⟩
  swap
  · show s.volume.view addr = none
    rw [Volume.view, if_neg (treeOffset_error he)]
  have ha := (treeOffset_ok.mp hoff).1
  have hget := Sieve.Holds.get (k := addr) hc
  split
  case h_1 n cache hhit =>
    rw [hhit] at hget
    simp only [wp_bind, wp_set, wp_pure]
    exact ⟨hget.2 n rfl, ha, rfl, .refl _, hget.1⟩
  case h_2 =>
    -- a miss: fetch, allocate, parse, cache
    have hview : s.view addr = (s.volume.blockAt addr).load.toOption := if_pos ha
    rw [wp_bind]
    refine (block_spec hc hs.sectors hs.fits addr).mono ?_
      fun _ s' h => ⟨h.1, fun _ => h.2 (hs.arena_lt ha)⟩
    rintro b s1 ⟨rfl, _, h1⟩
    rw [wp_bind]
    refine (parse_spec h1.cache _).mono ?_
      fun e s' h => ⟨h1.trans h.1, fun hv hcalm => h.2 (hview ▸ hv) (h1.calm hcalm)⟩
    rintro n s2 ⟨hn, h2⟩
    have h12 := h1.trans h2
    have hv : s.view addr = some n := by rw [hview, hn]; rfl
    have hTn : T (s.view addr) n := by
      rw [hv]
      exact hT n (Block.wf_of_load hn)
    unfold Tree.keep
    simp only [wp_bind, wp_modify, wp_pure]
    refine ⟨hTn, ha, h12.volume, h12.env, ?_⟩
    have hcache := h12.cache
    refine Sieve.Holds.put (R := fun b n => T (s2.view b) n) hcache ?_ fun _ _ _ h => h
    show T (s2.view addr) n
    rw [h12.view]
    exact hTn

theorem read_exact (hs : s.volume.Sound) (hc : Coherent Exact s) {addr : Nat}
    {n : Node} (hv : s.view addr = some n) :
    Wp (Tree.read addr) s (fun m s' => m = n ∧ Still Exact s s')
      (fun _ s' => Still Exact s s' ∧ ¬ Calm s) := by
  refine (read_spec Exact.parsed hs hc addr).mono ?_ ?_
  · rintro m s' ⟨hm, _, h⟩
    have hm : s.view addr = some m := hm
    rw [hv] at hm
    exact ⟨(Option.some.inj hm).symm, h⟩
  · rintro e s' ⟨h, hcalm⟩
    exact ⟨h, hcalm (by rw [hv]; simp)⟩

end Reading

end Molt.Fs
