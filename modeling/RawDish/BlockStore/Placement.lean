import RawDish.BlockStore.Durability

/-!
# Where blocks are stored

Two decisions stand before a block is on disk. `putBlock` of a store takes a block exactly when
`write` has written as many bytes as the block size, so a block that is shorter is written and then
refused. `putBlockHelper` of the node picks one of two stores by their numbers of free blocks, and
the comparison picks the store with fewer of them, or the second one when they have the same number.

## Main definitions

* `FileBlockStore.Keeps` : a `putBlock` that has stored a block.
* `Pair`, `putBlockHelper` : two stores on a file system and the placement of a block.
* `Roomier` : a block goes to a store with at least as many free blocks, and it is stored while
  there are free blocks.

## Main results

* `putBlock_keeps_iff` : the blocks that can be stored.
* `roomier_iff` : the runs in which all blocks go to the roomier store.

## References

* `src/blockstore/fileblockstore.cc`, lines 60–111.
* `src/blockstore/blockstore_daemon.cc`, lines 68–86 and 140–155.
-/

namespace RawDish.BlockStore

open Lib Util

/-! ### The blocks that a store takes -/

namespace FileBlockStore

/-- `putBlock` has succeeded: `getBlock` returns the block whenever the system opens the file and
reads it, and the key is in the index. -/
structure Keeps (r : (FileBlockStore × FileSystem) × Bool) (key : Str) (data : List UInt8) :
    Prop where
  ok : r.2 = true
  get : ∀ n, data.length ≤ n → r.1.1.getBlock r.1.2 key ⟨true, some n⟩ = some data
  mem : key ∈ r.1.1.blockset
  mayContain : r.1.1.filter.mayContain key

/-- `open` succeeds and `write` stores all the bytes that it is given. -/
def Writes (s : FileBlockStore) (fs : FileSystem) (key : Str) (data : List UInt8)
    (a : PutAnswers) : Prop :=
  (s.openBlock fs key a).isSome ∧ ∃ n ∈ a.writes, data.length ≤ n

theorem written_eq {a : PutAnswers} {data : List UInt8} {n : ℕ} (hn : n ∈ a.writes)
    (hlen : data.length ≤ n) : a.written data = data.length := by
  rw [PutAnswers.written, Option.mem_def.1 hn]
  change min (n : ℤ) data.length = data.length
  omega

/-- A `putBlock` with free blocks for which the system does its part. -/
theorem putBlock_of_writes {s : FileBlockStore} {fs : FileSystem} {key : Str} {data : List UInt8}
    {a : PutAnswers} (hfree : s.freeBlocks ≠ 0) (hwrites : s.Writes fs key data a)
    (hpos : 1 ≤ s.blocksize.toInt) (hle : (data.length : ℤ) ≤ s.blocksize.toInt) :
    ∃ fd, fs.resolve (s.fileName key) = some fd ∧ ¬ fs.IsDir fd ∧
      s.putBlock fs key data a =
        if (data.length : ℤ) = s.blocksize.toInt then
          (({ s with
            freeBlocks := s.freeBlocks - 1
            usedBlocks := s.usedBlocks + 1
            filter := s.filter.set key
            blockset := s.blockset.insert key }, fs.put fd data), true)
        else ((s, fs.put fd data), false) := by
  obtain ⟨hopen, n, hn, hlen⟩ := hwrites
  obtain ⟨r, hr⟩ := Option.isSome_iff_exists.1 hopen
  obtain ⟨hfd, hdir, -⟩ := openBlock_eq_some hr
  have hbig : s.tooBig data = false := (not_tooBig_iff hpos data).2 hle
  have hleft : s.leftover data a = data := by
    simp only [leftover, hbig, Option.mem_def.1 hn, Bool.false_eq_true, if_false,
      List.take_of_length_le hlen]
  refine ⟨r.1, hfd, hdir, ?_⟩
  rw [putBlock_of_openBlock hfree hr, hleft, written_eq hn hlen]
  simp only [hbig, true_and]

/-- The filter of a store is one that is made right, in every state. -/
theorem valid_of_exec {path : Str} {blocksize : Int32} {scan : Scan} {fs : FileSystem}
    {calls : List Call} {w : World}
    (hw : exec step (.start path blocksize scan fs) calls = some w) :
    w.store.filter.Valid := by
  refine exec_induction (fun _ w => w.store.filter.Valid) (valid_regenerate _ scan) ?_ hw
  intro _ t call u _ ht hstep
  cases call with
  | put key data a =>
    rw [← Option.some.inj hstep]
    rcases t.store.putBlock_cases t.fs key data a with hput | ⟨fd, bytes, -, -, hput | hput⟩
    · simpa only [hput] using ht
    · simpa only [hput] using ht
    · simpa only [hput] using ht.set key
  | get key a =>
    rw [← Option.some.inj hstep]
    exact ht
  | remove key unlinks scan =>
    rw [← Option.some.inj hstep, removeBlock]
    split
    · exact valid_regenerate t.store scan
    · exact ht
  | next listing =>
    obtain ⟨r, hr, rfl⟩ := Option.map_eq_some_iff.1 hstep
    rw [next] at hr
    split at hr
    · split at hr <;> obtain rfl := Option.some.inj hr <;> exact ht
    · simp at hr

/-- **The blocks that are stored.** In every reachable state with free blocks, take a block that is
not empty and not longer than the block size, for which the system opens the file and writes all the
bytes. `putBlock` succeeds, the block can be read back and the key is in the index if and only if
the block is as long as the block size. -/
theorem putBlock_keeps_iff {path : Str} {blocksize : Int32} {scan : Scan} {fs : FileSystem}
    {calls : List Call} {w : World} (hw : exec step (.start path blocksize scan fs) calls = some w)
    (hfree : w.store.freeBlocks ≠ 0) {key : Str} {data : List UInt8} (hne : data ≠ [])
    (hle : (data.length : ℤ) ≤ w.store.blocksize.toInt) {a : PutAnswers}
    (hwrites : w.store.Writes w.fs key data a) :
    Keeps (w.store.putBlock w.fs key data a) key data ↔
      (data.length : ℤ) = w.store.blocksize.toInt := by
  have hlen : 1 ≤ data.length := List.length_pos_of_ne_nil hne
  obtain ⟨fd, hfd, hdir, hput⟩ := putBlock_of_writes hfree hwrites (by omega) hle
  rw [hput]
  split_ifs with hsize
  · refine iff_of_true ⟨rfl, fun n hn => ?_, ?_, ?_⟩ hsize
    · have hcontents : World.contents ⟨{ w.store with
          freeBlocks := w.store.freeBlocks - 1
          usedBlocks := w.store.usedBlocks + 1
          filter := w.store.filter.set key
          blockset := w.store.blockset.insert key }, w.fs.put fd data, []⟩ key =
            some (.reg data) := by
        rw [World.contents, (FileSystem.sameDirs_put hdir data).resolve]
        change (w.fs.resolve (w.store.fileName key)).bind _ = _
        rw [hfd, Option.bind_some, FileSystem.node_put (FileSystem.ne_nil_of_not_isDir hdir),
          if_pos rfl]
      refine getBlock_of_contents hcontents ?_ hn hne
      rw [← Int32.toNat_toInt]
      change data.length ≤ w.store.blocksize.toInt.toNat
      omega
    · exact Std.ExtTreeSet.mem_insert_self
    · exact BloomFilter.mayContain_set_self (valid_of_exec hw) key
  · exact iff_of_false (fun h => Bool.false_ne_true h.ok) hsize

instance (s : FileBlockStore) (fs : FileSystem) (key : Str) (data : List UInt8) (a : PutAnswers) :
    Decidable (s.Writes fs key data a) := inferInstanceAs (Decidable (_ ∧ ∃ n ∈ a.writes, _))

theorem putBlock_keeps_two :
    Keeps (emptyStore.store.putBlock emptyStore.fs (.ofString "k") [1, 2] ⟨true, some 2⟩)
      (.ofString "k") [1, 2] := by
  have hrun : exec step emptyStore [] = some emptyStore := rfl
  exact (putBlock_keeps_iff hrun (by decide) (by decide) (by decide) (by decide +kernel)).2
    (by decide)

/-- A block of one byte where the block size is two. -/
theorem putBlock_refuses_one :
    emptyStore.store.freeBlocks ≠ 0 ∧
      emptyStore.store.Writes emptyStore.fs (.ofString "k") [1] ⟨true, some 1⟩ ∧
        ¬ Keeps (emptyStore.store.putBlock emptyStore.fs (.ofString "k") [1] ⟨true, some 1⟩)
          (.ofString "k") [1] := by
  refine ⟨by decide, by decide +kernel, fun h => ?_⟩
  have hok := h.ok
  revert hok
  decide +kernel

end FileBlockStore

/-! ### The store that is picked -/

/-- The two stores that `putBlockHelper` picks from. -/
inductive Side
  | a
  | b
  deriving DecidableEq

/-- `bsA` and `bsB`, and the file system that both are on. -/
structure Pair where
  a : FileBlockStore
  b : FileBlockStore
  fs : FileSystem

namespace Pair

def store (p : Pair) : Side → FileBlockStore
  | .a => p.a
  | .b => p.b

/-- A store of the pair and the file system after a call on the store. -/
def update (p : Pair) (side : Side) (r : FileBlockStore × FileSystem) : Pair :=
  match side with
  | .a => { p with a := r.1, fs := r.2 }
  | .b => { p with b := r.1, fs := r.2 }

def free (p : Pair) (side : Side) : UInt64 := (p.store side).numFreeBlocks

end Pair

/-- A block that is placed, with the answers of the system. -/
structure Put where
  name : Str
  data : List UInt8
  answers : PutAnswers

/-- The comparison of `putBlockHelper`. -/
def pick (fA fB : UInt64) : Side := if fA < fB then .a else .b

/-- Helper function called when storing blocks. When both primary and secondary locations for blocks
have been probed for free space, this function chooses the BlockStore and stores the block there. -/
def putBlockHelper (p : Pair) (u : Put) (fA fB : UInt64) : Pair × Bool :=
  let side := pick fA fB
  let r := (p.store side).putBlock p.fs u.name u.data u.answers
  (p.update side r.1, r.2)

namespace Pair

/-- `putBlock` of the node, with the two stores for the name: the free blocks of both are asked for,
and then the helper is called. -/
def putBlock (p : Pair) (u : Put) : Pair × Bool := putBlockHelper p u (p.free .a) (p.free .b)

/-- One block is placed. -/
def place (p : Pair) (u : Put) : Option Pair := some (p.putBlock u).1

/-- The store for the next block. -/
def picked (p : Pair) : Side := pick (p.free .a) (p.free .b)

/-- The block has the full size, and the system does its part. -/
def Succeeds (p : Pair) (u : Put) : Prop :=
  (p.store p.picked).Writes p.fs u.name u.data u.answers ∧ 1 ≤ (p.store p.picked).blocksize.toInt ∧
    (u.data.length : ℤ) = (p.store p.picked).blocksize.toInt

/-- The block goes to a store that has at least as many free blocks as the other one, and it is
refused only when there are none. -/
def Roomier (p : Pair) (u : Put) : Prop :=
  (∀ side, p.free side ≤ p.free p.picked) ∧ ((p.putBlock u).2 = false → ∀ side, p.free side = 0)

theorem free_le_picked_iff (p : Pair) :
    (∀ side, p.free side ≤ p.free p.picked) ↔ p.free .a = p.free .b := by
  constructor
  · intro h
    have ha := h .a
    have hb := h .b
    rw [picked, pick] at ha hb
    split_ifs at ha hb with hlt
    · exact absurd hlt (UInt64.not_lt.2 hb)
    · exact UInt64.le_antisymm ha (UInt64.not_lt.1 hlt)
  · rintro heq (_ | _)
    · cases p.picked with
      | a => exact UInt64.le_refl _
      | b => exact heq ▸ UInt64.le_refl _
    · cases p.picked with
      | a => exact heq ▸ UInt64.le_refl _
      | b => exact UInt64.le_refl _

theorem free_eq_free_iff (p : Pair) :
    p.free .a = p.free .b ↔ p.a.freeBlocks = p.b.freeBlocks := by
  simp only [free, store, FileBlockStore.numFreeBlocks, ← UInt64.toNat_inj, ← UInt32.toNat_inj,
    UInt32.toNat_toUInt64]

theorem free_eq_zero_iff (p : Pair) (side : Side) :
    p.free side = 0 ↔ (p.store side).freeBlocks = 0 := by
  simp only [free, FileBlockStore.numFreeBlocks, ← UInt64.toNat_inj, ← UInt32.toNat_inj,
    UInt32.toNat_toUInt64]
  exact Iff.rfl

theorem picked_of_eq {p : Pair} (h : p.a.freeBlocks = p.b.freeBlocks) : p.picked = .b := by
  have hnot : ¬ p.free .a < p.free .b := by
    rw [p.free_eq_free_iff.2 h]
    exact UInt64.lt_irrefl _
  rw [picked, pick, if_neg hnot]

/-- Stores without a free block refuse every block. -/
theorem putBlock_of_full {p : Pair} (ha : p.a.freeBlocks = 0) (hb : p.b.freeBlocks = 0) (u : Put) :
    p.putBlock u = (p, false) := by
  have hpicked : pick (p.free .a) (p.free .b) = .b := picked_of_eq (ha.trans hb.symm)
  simp only [putBlock, putBlockHelper, hpicked, store, FileBlockStore.putBlock_of_freeBlocks hb]
  rfl

theorem roomier_of_full {p : Pair} (ha : p.a.freeBlocks = 0) (hb : p.b.freeBlocks = 0) (u : Put) :
    p.Roomier u := by
  refine ⟨p.free_le_picked_iff.2 (p.free_eq_free_iff.2 (ha.trans hb.symm)), fun _ side => ?_⟩
  rw [free_eq_zero_iff]
  cases side with
  | a => exact ha
  | b => exact hb

theorem allSteps_of_full {p : Pair} (ha : p.a.freeBlocks = 0) (hb : p.b.freeBlocks = 0)
    (puts : List Put) : AllSteps place Roomier p puts := by
  induction puts with
  | nil => trivial
  | cons u puts ih =>
    refine ⟨roomier_of_full ha hb u, fun q hq => ?_⟩
    rw [place, putBlock_of_full ha hb u, Option.some.injEq] at hq
    exact hq ▸ ih

/-- Of two stores with as many free blocks, the second one takes the block. -/
theorem putBlock_of_eq {p : Pair} {u : Put} (h : p.a.freeBlocks = p.b.freeBlocks)
    (hfree : p.b.freeBlocks ≠ 0) (hu : p.Succeeds u) :
    (p.putBlock u).2 = true ∧ (p.putBlock u).1.a.freeBlocks = p.a.freeBlocks ∧
      (p.putBlock u).1.b.freeBlocks = p.b.freeBlocks - 1 := by
  obtain ⟨hwrites, hpos, hsize⟩ := hu
  rw [picked_of_eq h, store] at hwrites hpos hsize
  have hpicked : pick (p.free .a) (p.free .b) = .b := picked_of_eq h
  obtain ⟨fd, -, -, hput⟩ :=
    FileBlockStore.putBlock_of_writes hfree hwrites hpos hsize.le
  rw [if_pos hsize] at hput
  simp only [putBlock, putBlockHelper, hpicked, store, hput, true_and]
  exact ⟨rfl, rfl⟩

/-- **Placement.** Take blocks of the full size that are placed one after another, the system doing
its part. Every block goes to a store with at least as many free blocks as the other one, and no
block is refused while there are free blocks, if and only if there is no block, or the two stores
have the same number of free blocks at the start and there is only one block or no free block. -/
theorem roomier_iff {p : Pair} {puts : List Put} (h : AllSteps place Succeeds p puts) :
    AllSteps place Roomier p puts ↔
      puts = [] ∨ (p.a.freeBlocks = p.b.freeBlocks ∧ (puts.length = 1 ∨ p.a.freeBlocks = 0)) := by
  cases puts with
  | nil => exact iff_of_true trivial (Or.inl rfl)
  | cons u puts =>
    by_cases heq : p.a.freeBlocks = p.b.freeBlocks
    · by_cases hzero : p.a.freeBlocks = 0
      · exact iff_of_true (allSteps_of_full hzero (heq.symm.trans hzero) _)
          (Or.inr ⟨heq, Or.inr hzero⟩)
      · have hfree : p.b.freeBlocks ≠ 0 := heq ▸ hzero
        obtain ⟨hok, ha, hb⟩ := putBlock_of_eq heq hfree h.1
        cases puts with
        | nil =>
          refine iff_of_true ⟨⟨?_, fun hno => ?_⟩, fun _ _ => trivial⟩ (Or.inr ⟨heq, Or.inl rfl⟩)
          · exact p.free_le_picked_iff.2 (p.free_eq_free_iff.2 heq)
          · rw [hok] at hno
            exact absurd hno.symm Bool.false_ne_true
        | cons v puts =>
          refine iff_of_false (fun hall => ?_) ?_
          · -- The second store has one block less than the first one and is picked again.
            have hsecond := (hall.2 _ rfl).1.1
            rw [free_le_picked_iff, free_eq_free_iff, ha, hb, heq, eq_comm,
              UInt32.sub_eq_iff_eq_add] at hsecond
            simp at hsecond
          · simp [hzero]
    · refine iff_of_false (fun hall => heq ?_) (by simp [heq])
      exact p.free_eq_free_iff.1 (p.free_le_picked_iff.1 hall.1.1)

instance (p : Pair) (u : Put) : Decidable (p.Succeeds u) :=
  inferInstanceAs (Decidable (_ ∧ _ ∧ _))

/-- Two empty stores of blocks of two bytes on devices with `m` and `n` blocks. -/
def emptyPair (m n : UInt64) : Pair where
  a := .create (.ofString "/d") 2 ⟨some (m, 2), some []⟩
  b := .create (.ofString "/e") 2 ⟨some (n, 2), some []⟩
  fs := (FileSystem.empty.mkdir [Str.ofString "d"]).mkdir [Str.ofString "e"]

theorem roomier_one :
    AllSteps place Roomier (emptyPair 8 8) [⟨.ofString "k", [1, 2], ⟨true, some 2⟩⟩] :=
  (roomier_iff (by decide +kernel)).2 (Or.inr ⟨by decide, Or.inl rfl⟩)

/-- The block is refused by the first store, which is full, and the second one has eight free
blocks. -/
theorem roomier_fails_full :
    (emptyPair 0 8).Succeeds ⟨.ofString "k", [1, 2], ⟨true, some 2⟩⟩ ∧
      ((emptyPair 0 8).putBlock ⟨.ofString "k", [1, 2], ⟨true, some 2⟩⟩).2 = false ∧
      (emptyPair 0 8).free .b = 8 ∧
      ¬ AllSteps place Roomier (emptyPair 0 8) [⟨.ofString "k", [1, 2], ⟨true, some 2⟩⟩] := by
  refine ⟨by decide +kernel, by decide +kernel, by decide, fun hall => ?_⟩
  have heq := (emptyPair 0 8).free_le_picked_iff.1 hall.1.1
  revert heq
  decide

end Pair

end RawDish.BlockStore
