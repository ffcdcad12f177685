import RawDish.Lib.Exec
import RawDish.Lib.FileSystem
import RawDish.Util.BloomFilter

/-!
# The file block store

`FileBlockStore` keeps one file for every block in its directory, and an index in memory: the set
of the keys, a Bloom filter and the numbers of used and free blocks. `putBlock` adds a key to the
index; after a removal the index is rebuilt from the directory.

What the system adds to a call on the file system is an argument of the call: whether it refuses
to open or unlink a file, how much it reads or writes, what `statfs` says and in which order
`readdir` lists a directory.

## Main definitions

* `FileBlockStore`, `FileBlockStore.create`, `FileBlockStore.putBlock`, `FileBlockStore.getBlock`,
  `FileBlockStore.removeBlock`, `FileBlockStore.next`,
  `FileBlockStore.regenerateBloomFilterAndBlockSet`.
* `World`, `Call`, `step` : runs of calls on a store, with a log of the results.

## Main results

* `FileBlockStore.putBlock_harmless_iff` : when a failed `putBlock` changes nothing.

## References

* `src/blockstore/fileblockstore.h`, lines 64–140.
* `src/blockstore/fileblockstore.cc`, lines 41–169.
-/

namespace RawDish.BlockStore

open Lib Util

/-- Combines a path with a key to generate a filename for a given block key. -/
def getFullpath (path key : Str) : Str :=
  if path.getLast? ≠ some FileSystem.slash then path ++ FileSystem.slash :: key else path ++ key

structure FileBlockStore where
  /-- What `readdir` has still to return in the iteration of `next`. -/
  dir : Option (List Dirent)
  blocksize : Int32
  path : Str
  /-- `_bloomfilter`. -/
  filter : BloomFilter
  blockset : Std.ExtTreeSet Str
  freeBlocks : UInt32
  usedBlocks : UInt32

/-- What `statfs` (`f_bavail` and `f_bsize`) and `opendir` with `readdir` return, `none` when they
fail. -/
structure Scan where
  statfs : Option (UInt64 × UInt64)
  listing : Option (List Dirent)

/-- The answers of the system in `putBlock`: whether it refuses the `open`, and how many bytes it
writes, `none` when `write` fails. -/
structure PutAnswers where
  opens : Bool
  writes : Option ℕ

/-- The result of `write`. -/
def PutAnswers.written (a : PutAnswers) (data : List UInt8) : ℤ :=
  match a.writes with
  | some n => min n data.length
  | none => -1

/-- The answers of the system in `getBlock`. -/
structure GetAnswers where
  opens : Bool
  reads : Option ℕ

namespace FileBlockStore

/-- The file name of a block. -/
def fileName (s : FileBlockStore) (key : Str) : Str := (getFullpath s.path key).cStr

/-- The entries that are not blocks: hidden ones and those that are not regular files. -/
def skips (entry : Dirent) : Bool :=
  entry.name.head? = some FileSystem.dot || entry.type ≠ .reg

/-- The loop body of `regenerateBloomFilterAndBlockSet`. -/
def index (s : FileBlockStore) (entry : Dirent) : FileBlockStore :=
  if skips entry then s
  else { s with
    filter := s.filter.set entry.name
    blockset := s.blockset.insert entry.name
    usedBlocks := s.usedBlocks + 1 }

/-- Reads through all files on disk and regenerates bloom filter and block set used to speed up
queries. -/
def regenerateBloomFilterAndBlockSet (s : FileBlockStore) (scan : Scan) : FileBlockStore :=
  let s := { s with
    filter := .create
    blockset := ∅
    freeBlocks := match scan.statfs with
      | some (bavail, bsize) => (bavail * bsize / s.blocksize.toInt64.toUInt64).toUInt32
      | none => 0
    usedBlocks := 0 }
  match scan.listing with
  | some entries => entries.foldl index s
  | none => s

/-- `FileBlockStore(path, blocksize)`. -/
def create (path : Str) (blocksize : Int32) (scan : Scan) : FileBlockStore :=
  regenerateBloomFilterAndBlockSet ⟨none, blocksize, path, .create, ∅, 0, 0⟩ scan

/-- `data->size() > _blocksize`, which compares unsigned numbers. -/
def tooBig (s : FileBlockStore) (data : List UInt8) : Bool :=
  data.length > s.blocksize.toInt64.toUInt64.toNat

/-- `open` of the file of a block for writing. -/
def openBlock (s : FileBlockStore) (fs : FileSystem) (key : Str) (a : PutAnswers) :
    Option (Path × FileSystem) :=
  if a.opens then fs.creat (s.fileName key) else none

/-- Attempts to write a block to the block store. The file is created, or emptied, before the
length of the block is checked. -/
def putBlock (s : FileBlockStore) (fs : FileSystem) (key : Str) (data : List UInt8)
    (a : PutAnswers) : (FileBlockStore × FileSystem) × Bool :=
  if s.freeBlocks ≤ 0 then ((s, fs), false)
  else match s.openBlock fs key a with
    | none => ((s, fs), false)
    | some (fd, fs) =>
      if s.tooBig data then ((s, fs), false)
      else
        let fs := match a.writes with
          | some n => fs.write fd data n
          | none => fs
        if a.written data ≠ s.blocksize.toInt then ((s, fs), false)
        else (({ s with
          freeBlocks := s.freeBlocks - 1
          usedBlocks := s.usedBlocks + 1
          filter := s.filter.set key
          blockset := s.blockset.insert key }, fs), true)

/-- Attempts to read a block from the block store. -/
def getBlock (s : FileBlockStore) (fs : FileSystem) (key : Str) (a : GetAnswers) :
    Option (List UInt8) :=
  if a.opens then
    match fs.read (s.fileName key), a.reads with
    | some bytes, some n =>
      let data := (bytes.take s.blocksize.toNatClampNeg).take n
      if data.length ≤ 0 then none else some data
    | _, _ => none
  else none

/-- Removes a previously stored block from disk. -/
def removeBlock (s : FileBlockStore) (fs : FileSystem) (key : Str) (unlinks : Bool) (scan : Scan) :
    (FileBlockStore × FileSystem) × Bool :=
  match if unlinks then fs.unlink (s.fileName key) else none with
  | some fs => ((s.regenerateBloomFilterAndBlockSet scan, fs), true)
  | none => ((s, fs), false)

/-- Iterates through block in the store. Returns an empty string when complete and auto-resets.
There is no result when `opendir` fails, as `readdir` is then called with a null pointer. -/
def next (s : FileBlockStore) (listing : Option (List Dirent)) : Option (FileBlockStore × Str) :=
  match s.dir.or listing with
  | some entries =>
    match entries.dropWhile skips with
    | entry :: rest => some ({ s with dir := some rest }, entry.name)
    | [] => some ({ s with dir := none }, [])
  | none => none

/-- Get a bloomfilter that remote hosts can use to try to determine if we have a block or not
before requesting it from us. It is a copy of the one of the store. -/
def bloomfilter (s : FileBlockStore) (fresh : ℕ → UInt8) : BloomFilter := s.filter.copy fresh

/-- `blockSize`, which converts an `int`. -/
def blockSize (s : FileBlockStore) : UInt64 := s.blocksize.toInt64.toUInt64

/-- `numFreeBlocks`. -/
def numFreeBlocks (s : FileBlockStore) : UInt64 := s.freeBlocks.toUInt64

/-- `numTotalBlocks`, whose addition is one of 32-bit numbers. -/
def numTotalBlocks (s : FileBlockStore) : UInt64 := (s.usedBlocks + s.freeBlocks).toUInt64

end FileBlockStore

/-! ### Runs -/

/-- A call on the store, with the answers of the system. -/
inductive Call
  | put (key : Str) (data : List UInt8) (a : PutAnswers)
  | get (key : Str) (a : GetAnswers)
  | remove (key : Str) (unlinks : Bool) (scan : Scan)
  | next (listing : Option (List Dirent))

/-- A call and its result. -/
inductive Event
  | put (key : Str) (data : List UInt8) (ok : Bool)
  | get (key : Str) (data : Option (List UInt8))
  | remove (key : Str) (ok : Bool)
  | next (key : Str)
  deriving DecidableEq

/-- A store, its file system and the calls so far. -/
structure World where
  store : FileBlockStore
  fs : FileSystem
  log : List Event

/-- One call. -/
def step (w : World) : Call → Option World
  | .put key data a =>
    let r := w.store.putBlock w.fs key data a
    some ⟨r.1.1, r.1.2, w.log ++ [.put key data r.2]⟩
  | .get key a => some { w with log := w.log ++ [.get key (w.store.getBlock w.fs key a)] }
  | .remove key unlinks scan =>
    let r := w.store.removeBlock w.fs key unlinks scan
    some ⟨r.1.1, r.1.2, w.log ++ [.remove key r.2]⟩
  | .next listing =>
    (w.store.next listing).map fun r => ⟨r.1, w.fs, w.log ++ [.next r.2]⟩

/-- A store that is constructed on the file system `fs`. -/
def World.start (path : Str) (blocksize : Int32) (scan : Scan) (fs : FileSystem) : World :=
  ⟨.create path blocksize scan, fs, []⟩

/-! ### A failed `putBlock` -/

namespace FileBlockStore

/-- What `putBlock` leaves in the file that it has opened: nothing of a block that is too big, and
what was written of another one. -/
def leftover (s : FileBlockStore) (data : List UInt8) (a : PutAnswers) : List UInt8 :=
  if s.tooBig data then []
  else match a.writes with
    | some n => data.take n
    | none => []

theorem openBlock_eq_some {s : FileBlockStore} {fs fs' : FileSystem} {key : Str} {a : PutAnswers}
    {fd : Path} (h : s.openBlock fs key a = some (fd, fs')) :
    fs.resolve (s.fileName key) = some fd ∧ ¬ fs.IsDir fd ∧ fs' = fs.put fd [] := by
  rw [openBlock] at h
  split_ifs at h
  exact FileSystem.creat_eq_some.1 h

theorem putBlock_of_freeBlocks {s : FileBlockStore} (h : s.freeBlocks = 0) (fs : FileSystem)
    (key : Str) (data : List UInt8) (a : PutAnswers) :
    s.putBlock fs key data a = ((s, fs), false) := by
  rw [putBlock, if_pos (UInt32.le_zero_iff.2 h)]

theorem putBlock_of_openBlock_eq_none {s : FileBlockStore} {fs : FileSystem} {key : Str}
    {a : PutAnswers} (h : s.openBlock fs key a = none) (data : List UInt8) :
    s.putBlock fs key data a = ((s, fs), false) := by
  simp only [putBlock, h, ite_self]

/-- The state after `putBlock` has opened the file `fd`. -/
theorem putBlock_of_openBlock {s : FileBlockStore} {fs fs' : FileSystem} {key : Str}
    {a : PutAnswers} {fd : Path} (hfree : s.freeBlocks ≠ 0)
    (hopen : s.openBlock fs key a = some (fd, fs')) (data : List UInt8) :
    s.putBlock fs key data a =
      if s.tooBig data = false ∧ a.written data = s.blocksize.toInt then
        (({ s with
          freeBlocks := s.freeBlocks - 1
          usedBlocks := s.usedBlocks + 1
          filter := s.filter.set key
          blockset := s.blockset.insert key }, fs.put fd (s.leftover data a)), true)
      else ((s, fs.put fd (s.leftover data a)), false) := by
  obtain ⟨-, hdir, rfl⟩ := openBlock_eq_some hopen
  have hne := FileSystem.ne_nil_of_not_isDir hdir
  have hpos : ¬ s.freeBlocks ≤ 0 := fun hle => hfree (UInt32.le_zero_iff.1 hle)
  simp only [putBlock, if_neg hpos, hopen, leftover]
  cases s.tooBig data with
  | true => simp
  | false =>
    cases ha : a.writes with
    | none => by_cases hw : a.written data = s.blocksize.toInt <;> simp [hw]
    | some n =>
      by_cases hw : a.written data = s.blocksize.toInt <;> simp [hw, FileSystem.write_put hne]

/-- What `putBlock` can do: nothing, or write a file, with or without success. -/
theorem putBlock_cases (s : FileBlockStore) (fs : FileSystem) (key : Str) (data : List UInt8)
    (a : PutAnswers) :
    s.putBlock fs key data a = ((s, fs), false) ∨
      ∃ fd bytes, fs.resolve (s.fileName key) = some fd ∧ ¬ fs.IsDir fd ∧
        (s.putBlock fs key data a = ((s, fs.put fd bytes), false) ∨
          s.putBlock fs key data a = (({ s with
            freeBlocks := s.freeBlocks - 1
            usedBlocks := s.usedBlocks + 1
            filter := s.filter.set key
            blockset := s.blockset.insert key }, fs.put fd bytes), true)) := by
  by_cases hfree : s.freeBlocks = 0
  · exact Or.inl (putBlock_of_freeBlocks hfree fs key data a)
  cases hopen : s.openBlock fs key a with
  | none => exact Or.inl (putBlock_of_openBlock_eq_none hopen data)
  | some r =>
    obtain ⟨hfd, hdir, -⟩ := openBlock_eq_some hopen
    refine Or.inr ⟨r.1, s.leftover data a, hfd, hdir, ?_⟩
    rw [putBlock_of_openBlock hfree hopen]
    split_ifs
    · exact Or.inr rfl
    · exact Or.inl rfl

/-- `putBlock` fails before it changes anything, does not fail, or finds in the file what it
leaves there. -/
def Harmless (s : FileBlockStore) (fs : FileSystem) (key : Str) (data : List UInt8)
    (a : PutAnswers) : Prop :=
  s.freeBlocks = 0 ∨ s.openBlock fs key a = none ∨
    (s.tooBig data = false ∧ a.written data = s.blocksize.toInt) ∨
      ∃ fd, fs.resolve (s.fileName key) = some fd ∧ fs.node fd = some (.reg (s.leftover data a))

/-- **A failed `putBlock`.** It leaves the files, the index and what every `getBlock` returns as
they were exactly when it is harmless. -/
theorem putBlock_harmless_iff (s : FileBlockStore) (fs : FileSystem) (key : Str)
    (data : List UInt8) (a : PutAnswers) :
    ((s.putBlock fs key data a).2 = false →
      (s.putBlock fs key data a).1 = (s, fs) ∧
        ∀ k g, (s.putBlock fs key data a).1.1.getBlock (s.putBlock fs key data a).1.2 k g =
          s.getBlock fs k g) ↔ s.Harmless fs key data a := by
  by_cases hfree : s.freeBlocks = 0
  · have hput := putBlock_of_freeBlocks hfree fs key data a
    exact iff_of_true (fun _ => by simp [hput]) (Or.inl hfree)
  cases hopen : s.openBlock fs key a with
  | none =>
    have hput := putBlock_of_openBlock_eq_none hopen data
    exact iff_of_true (fun _ => by simp [hput]) (Or.inr (Or.inl hopen))
  | some r =>
    obtain ⟨fd, fs'⟩ := r
    obtain ⟨hfd, hdir, -⟩ := openBlock_eq_some hopen
    have hsame : fs.put fd (s.leftover data a) = fs ↔
        fs.node fd = some (.reg (s.leftover data a)) :=
      FileSystem.put_eq_self_iff (FileSystem.ne_nil_of_not_isDir hdir) _
    rw [putBlock_of_openBlock hfree hopen]
    split_ifs with hok
    · exact iff_of_true (fun h => absurd h (by simp)) (Or.inr (Or.inr (Or.inl hok)))
    · constructor
      · intro h
        have hfs : fs.put fd (s.leftover data a) = fs := (Prod.mk.inj (h rfl).1).2
        exact Or.inr (Or.inr (Or.inr ⟨fd, hfd, hsame.1 hfs⟩))
      · rintro (h | h | h | ⟨fd', hfd', h⟩) -
        · exact absurd h hfree
        · rw [hopen] at h
          simp at h
        · exact absurd h hok
        · obtain rfl : fd = fd' := Option.some.inj (hfd.symm.trans hfd')
          rw [hsame.2 h]
          exact ⟨rfl, fun _ _ => rfl⟩

/-- A store of blocks of two bytes on an empty directory. -/
def emptyStore : World :=
  .start (.ofString "/d") 2 ⟨some (8, 2), some []⟩ (FileSystem.empty.mkdir [Str.ofString "d"])

/-- A block that is too big empties the file of the block that was stored under the key. -/
theorem putBlock_empties_file :
    ¬ ∀ w, exec step emptyStore [.put (.ofString "k") [1, 2] ⟨true, some 2⟩] = some w →
      (w.store.putBlock w.fs (.ofString "k") [1, 2, 3] ⟨true, some 3⟩).2 = false →
        (w.store.putBlock w.fs (.ofString "k") [1, 2, 3] ⟨true, some 3⟩).1 = (w.store, w.fs) ∧
          ∀ k g, (w.store.putBlock w.fs (.ofString "k") [1, 2, 3] ⟨true, some 3⟩).1.1.getBlock
              (w.store.putBlock w.fs (.ofString "k") [1, 2, 3] ⟨true, some 3⟩).1.2 k g =
            w.store.getBlock w.fs k g := by
  intro h
  have hget := (h _ rfl (by decide +kernel)).2 (.ofString "k") ⟨true, some 2⟩
  revert hget
  decide +kernel

end FileBlockStore

end RawDish.BlockStore
