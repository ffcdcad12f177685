import RawDish.BlockStore.Placement
import RawDish.BlockStore.Rebuild

/-!
# The numbers of free and used blocks

`statfs` gives the free space as two numbers of 64 bits, and `numFreeBlocks` and `numTotalBlocks`
return 64 bits. In between the numbers of blocks are kept in fields of 32 bits, and the total is
added up in 32 bits. So the numbers are exact as long as the device has fewer than `2^32` blocks,
free and used ones together. A device whose number of free blocks is a multiple of `2^32` counts as
full.

## Main definitions

* `FileBlockStore.availableBlocks` : the free blocks of a device.
* `FileBlockStore.NoFreeBlocks` : the test of `putBlock`.
* `FileBlockStore.CountsExactly` : what the numbers of a store should be.

## Main results

* `FileBlockStore.countsExactly_iff` : the devices whose blocks are counted exactly.

## References

* `src/blockstore/fileblockstore.h`, lines 99–111 and 134–140.
* `src/blockstore/fileblockstore.cc`, lines 60–65 and 142–169.
-/

namespace RawDish.BlockStore

open Lib Util

namespace FileBlockStore

/-- The number of whole blocks that are free on a device. -/
def availableBlocks (blocksize : Int32) (bavail bsize : UInt64) : ℕ :=
  bavail.toNat * bsize.toNat / blocksize.toInt.toNat

/-- `putBlock` refuses with `No free blocks`. -/
def NoFreeBlocks (s : FileBlockStore) : Prop := s.freeBlocks ≤ 0

/-- The store counts `free` blocks and `used` ones, and while there are free ones `putBlock` does
not refuse for want of them: it stores every block that the system lets it write. -/
structure CountsExactly (s : FileBlockStore) (free used : ℕ) : Prop where
  numFreeBlocks : s.numFreeBlocks.toNat = free
  numTotalBlocks : s.numTotalBlocks.toNat = free + used
  putBlock : 1 ≤ free → ¬ s.NoFreeBlocks ∧
    ∀ fs key data a, s.Writes fs key data a → (data.length : ℤ) = s.blocksize.toInt →
      (s.putBlock fs key data a).2 = true

private theorem freeBlocks_foldl_index (s : FileBlockStore) (entries : List Dirent) :
    (entries.foldl index s).freeBlocks = s.freeBlocks := by
  induction entries generalizing s with
  | nil => rfl
  | cons e entries ih =>
    rw [List.foldl_cons, ih, index]
    split_ifs <;> rfl

/-- The number of free blocks after the construction, in 32 bits. -/
theorem freeBlocks_create (path : Str) {blocksize : Int32} (hpos : 1 ≤ blocksize.toInt)
    {bavail bsize : UInt64} (hspace : bavail.toNat * bsize.toNat < 2 ^ 64)
    (listing : Option (List Dirent)) :
    (create path blocksize ⟨some (bavail, bsize), listing⟩).freeBlocks.toNat =
      availableBlocks blocksize bavail bsize % 2 ^ 32 := by
  have hblock := toNat_blocksize hpos
  have hfree : (create path blocksize ⟨some (bavail, bsize), listing⟩).freeBlocks =
      (bavail * bsize / blocksize.toInt64.toUInt64).toUInt32 := by
    rw [create, regenerateBloomFilterAndBlockSet]
    cases listing with
    | none => rfl
    | some entries => exact freeBlocks_foldl_index _ entries
  have hdiv : blocksize.toInt64.toUInt64.toNat = blocksize.toInt.toNat := by omega
  rw [hfree, UInt64.toNat_toUInt32, UInt64.toNat_div, UInt64.toNat_mul, Nat.mod_eq_of_lt hspace,
    hdiv, availableBlocks]

/-- The number of used blocks after the construction, in 32 bits. -/
theorem usedBlocks_create (path : Str) (blocksize : Int32) (scan : Scan) :
    (create path blocksize scan).usedBlocks.toNat =
      (names (scan.listing.getD [])).length % 2 ^ 32 := by
  rw [create, (tallies_regenerate _ scan).used, UInt32.toNat_ofNat']

/-- **The numbers of blocks.** For every block size, every device whose free space is a number of 64
bits and every listing of the directory, the store counts exactly if and only if the free blocks and
the block files together are fewer than `2^32`. -/
theorem countsExactly_iff (path : Str) (blocksize : Int32) (hpos : 1 ≤ blocksize.toInt)
    (bavail bsize : UInt64) (hspace : bavail.toNat * bsize.toNat < 2 ^ 64)
    (listing : Option (List Dirent)) :
    CountsExactly (create path blocksize ⟨some (bavail, bsize), listing⟩)
        (availableBlocks blocksize bavail bsize) (names (listing.getD [])).length ↔
      availableBlocks blocksize bavail bsize + (names (listing.getD [])).length < 2 ^ 32 := by
  have hfree := freeBlocks_create path hpos hspace listing
  have hused := usedBlocks_create path blocksize ⟨some (bavail, bsize), listing⟩
  have hsize : (create path blocksize ⟨some (bavail, bsize), listing⟩).blocksize = blocksize :=
    (config_regenerate _ _).2
  generalize create path blocksize ⟨some (bavail, bsize), listing⟩ = s at hfree hused hsize ⊢
  generalize availableBlocks blocksize bavail bsize = q at hfree ⊢
  have htotal : s.numTotalBlocks.toNat =
      ((names (listing.getD [])).length % 2 ^ 32 + q % 2 ^ 32) % 2 ^ 32 := by
    rw [numTotalBlocks, UInt32.toNat_toUInt64, UInt32.toNat_add, hused, hfree]
  constructor
  · intro h
    have htotal' := h.numTotalBlocks
    rw [htotal] at htotal'
    exact htotal' ▸ Nat.mod_lt _ (by omega)
  · intro hlt
    have hq : s.freeBlocks.toNat = q := hfree.trans (Nat.mod_eq_of_lt (by omega))
    refine ⟨?_, ?_, fun hone => ?_⟩
    · rw [numFreeBlocks, UInt32.toNat_toUInt64, hq]
    · rw [htotal]
      omega
    · have hne : s.freeBlocks ≠ 0 := by
        intro hzero
        rw [hzero] at hq
        exact absurd hone (by rw [← hq]; decide)
      refine ⟨fun hle => hne (UInt32.le_zero_iff.1 hle), fun fs key data a hwrites hlen => ?_⟩
      obtain ⟨fd, -, -, hput⟩ := putBlock_of_writes hne hwrites (hsize ▸ hpos) hlen.le
      rw [hput, if_pos hlen]

/-- A device of 16 blocks of 512 bytes for blocks of 1024 bytes, with one block file. -/
theorem countsExactly_small :
    CountsExactly (create (.ofString "/d") 1024 ⟨some (16, 512), some [⟨Str.ofString "k", .reg⟩]⟩)
      8 1 :=
  (countsExactly_iff (.ofString "/d") 1024 (by decide) 16 512 (by decide)
    (some [⟨Str.ofString "k", .reg⟩])).2 (by decide)

/-- Four gigabytes are free, in pages of 4096 bytes, and the blocks are of one byte: the store
counts no free blocks and refuses to store one. -/
theorem countsExactly_fails_fourGigabytes :
    ¬ CountsExactly (create (.ofString "/d") 1 ⟨some (2 ^ 20, 4096), some []⟩)
        (availableBlocks 1 (2 ^ 20) 4096) (names []).length ∧
      1 ≤ availableBlocks 1 (2 ^ 20) 4096 ∧
      NoFreeBlocks (create (.ofString "/d") 1 ⟨some (2 ^ 20, 4096), some []⟩) := by
  refine ⟨fun h => absurd h.numFreeBlocks (by decide), by decide, ?_⟩
  rw [NoFreeBlocks]
  decide

end FileBlockStore

end RawDish.BlockStore
