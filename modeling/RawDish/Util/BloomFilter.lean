import RawDish.Basic
import RawDish.Lib.BitArray

/-!
# The Bloom filter

`BloomFilter` is a bit array of `_size` bits; a key has six positions in it, one for each seed
`_seed + i`. The buffer behind `_hash` is a list of bytes whose length is the allocated length. A
position is less than `_size`, so the accesses of `set` and `mayContain` are within the buffer when
`_size` is not zero and the buffer has a byte for every eight bits (`BloomFilter.Valid`).

## Main definitions

* `hash` : the FNV-1a hash with a seed.
* `BloomFilter`, `BloomFilter.reset`, `BloomFilter.set`, `BloomFilter.mayContain`,
  `BloomFilter.copy`.
* `BloomFilter.Allocated`, `BloomFilter.Valid` : the buffer is large enough.

## Main results

* `BloomFilter.mayContain_foldl_set` : a filter has no false negatives.
* `BloomFilter.mayContain_copy` : a copy answers like the original.
* `BloomFilter.foldl_set_congr` : a filter is determined by the set of its keys.

## References

* `src/util/bloomfilter.cc`, lines 37–117.
-/

namespace RawDish.Util

open Lib

/-- The FNV-1a hash of the bytes of `seed`, from the lowest on, and of those of `str`. -/
def hash (str : Str) (seed : Int32) : UInt64 :=
  let fnvPrime : UInt64 := 1099511628211
  let seedStep : UInt64 × Int32 → UInt64 × Int32 := fun (hash, seed) =>
    ((hash ^^^ (seed &&& 0xff).toInt64.toUInt64) * fnvPrime, seed >>> 8)
  str.foldl (fun hash c => (hash ^^^ c.toUInt64) * fnvPrime)
    (seedStep^[4] (14695981039346656037, seed)).1

structure BloomFilter where
  seed : UInt32
  size : UInt32
  /-- The buffer, as long as it was allocated. -/
  hash : List UInt8

namespace BloomFilter

/-- `(_size + 7) / 8`. -/
def byteCount (size : UInt32) : ℕ := ((size + 7) / 8).toNat

/-- `reset`. -/
def reset (size : Int32) (seed : UInt32) : BloomFilter where
  seed := seed
  size := size.toUInt32
  hash := List.replicate ((size + 7) / 8).toNatClampNeg 0

/-- `BloomFilter()`, and `reset()` with its default arguments. -/
def create : BloomFilter := reset ((1 : Int32) <<< (20 : Int32)) 0

/-- The bit of a key for the `i`-th hash function. -/
def position (f : BloomFilter) (key : Str) (i : ℕ) : ℕ :=
  (Util.hash key.cStr (f.seed + UInt32.ofNat i).toInt32 % f.size.toUInt64).toUInt32.toNat

/-- `set`. -/
def set (f : BloomFilter) (key : Str) : BloomFilter :=
  { f with hash := (List.range 6).foldl (fun hash i => setBit hash (f.position key i)) f.hash }

/-- `mayContain`. -/
def mayContain (f : BloomFilter) (key : Str) : Bool :=
  (List.range 6).all fun i => getBit f.hash (f.position key i)

/-- The copy constructor, which is also the assignment: of a buffer of `_size` bytes the first
`(_size + 7) / 8` are copied, and the others are what `new` found there. -/
def copy (other : BloomFilter) (fresh : ℕ → UInt8) : BloomFilter :=
  { other with
    hash := (List.range other.size.toNat).map fun i =>
      if i < byteCount other.size then other.hash.getD i 0 else fresh i }

/-- There are bits, their number is one of a C `int`, and the buffer has a byte for every eight of
them. -/
structure Valid (f : BloomFilter) : Prop where
  size_pos : 0 < f.size.toNat
  size_lt : f.size.toNat < 2 ^ 31
  size_le : f.size.toNat ≤ 8 * f.hash.length

/-- There are bits, and the buffer has a byte for every eight of them. -/
structure Allocated (f : BloomFilter) : Prop where
  size_pos : 0 < f.size.toNat
  size_le : f.size.toNat ≤ 8 * f.hash.length

theorem Valid.allocated {f : BloomFilter} (h : f.Valid) : f.Allocated := ⟨h.size_pos, h.size_le⟩

theorem size_create : create.size = 1048576 := by decide

theorem length_create : create.hash.length = 131072 := by
  rw [create, reset, List.length_replicate]
  decide

theorem valid_create : Valid create := by
  have hsize : create.size.toNat = 1048576 := by
    rw [size_create]
    rfl
  exact ⟨by omega, by omega, by rw [length_create]; omega⟩

/-- The bits of a key are within the filter. -/
theorem position_lt {f : BloomFilter} (h : f.Allocated) (key : Str) (i : ℕ) :
    f.position key i < f.size.toNat := by
  have hmod : (Util.hash key.cStr (f.seed + UInt32.ofNat i).toInt32 % f.size.toUInt64).toNat <
      f.size.toNat := by
    rw [UInt64.toNat_mod, UInt32.toNat_toUInt64]
    exact Nat.mod_lt _ h.size_pos
  rw [position, UInt64.toNat_toUInt32, Nat.mod_eq_of_lt (hmod.trans f.size.toNat_lt)]
  exact hmod

/-- `set` and `mayContain` access bytes of the buffer only. -/
theorem position_div_lt {f : BloomFilter} (h : f.Allocated) (key : Str) (i : ℕ) :
    f.position key i / 8 < f.hash.length := by
  have := position_lt h key i
  have := h.size_le
  omega

theorem mayContain_iff {f : BloomFilter} {key : Str} :
    f.mayContain key ↔ ∀ i < 6, getBit f.hash (f.position key i) := by
  simp [mayContain]

private theorem getBit_foldl_setBit {hash : List UInt8} {ps : List ℕ}
    (hps : ∀ p ∈ ps, p / 8 < hash.length) (q : ℕ) :
    getBit (ps.foldl setBit hash) q = (getBit hash q || decide (q ∈ ps)) := by
  induction ps generalizing hash with
  | nil => simp
  | cons p ps ih =>
    have hp := hps p List.mem_cons_self
    have hrest : ∀ q ∈ ps, q / 8 < (setBit hash p).length := by
      rw [length_setBit]
      exact fun q hq => hps q (List.mem_cons_of_mem p hq)
    rw [List.foldl_cons, ih hrest, getBit_setBit hp, Bool.or_assoc]
    simp [eq_comm]

/-- The bits of a filter after `set`. -/
theorem getBit_set {f : BloomFilter} (h : f.Allocated) (key : Str) (q : ℕ) :
    getBit (f.set key).hash q =
      (getBit f.hash q || decide (q ∈ (List.range 6).map (f.position key))) := by
  rw [set, ← List.foldl_map, getBit_foldl_setBit]
  intro p hp
  obtain ⟨i, -, rfl⟩ := List.mem_map.1 hp
  exact position_div_lt h key i

@[simp] theorem length_set (f : BloomFilter) (key : Str) :
    (f.set key).hash.length = f.hash.length := by
  have hlen : ∀ (ps : List ℕ) (hash : List UInt8),
      (ps.foldl (fun hash i => setBit hash (f.position key i)) hash).length = hash.length := by
    intro ps
    induction ps with
    | nil => exact fun _ => rfl
    | cons p ps ih => exact fun hash => (ih _).trans (length_setBit hash _)
  exact hlen _ _

theorem Allocated.set {f : BloomFilter} (h : f.Allocated) (key : Str) : (f.set key).Allocated := by
  refine ⟨h.size_pos, ?_⟩
  rw [length_set]
  exact h.size_le

theorem Valid.set {f : BloomFilter} (h : f.Valid) (key : Str) : (f.set key).Valid :=
  ⟨h.size_pos, h.size_lt, (h.allocated.set key).size_le⟩

theorem mayContain_set_self {f : BloomFilter} (h : f.Valid) (key : Str) :
    (f.set key).mayContain key := by
  rw [mayContain_iff]
  intro i hi
  rw [getBit_set h.allocated, Bool.or_eq_true, decide_eq_true_iff]
  exact Or.inr (List.mem_map_of_mem (List.mem_range.2 hi))

theorem mayContain_set_of_mayContain {f : BloomFilter} (h : f.Valid) {key : Str}
    (hkey : f.mayContain key) (other : Str) : (f.set other).mayContain key := by
  rw [mayContain_iff] at hkey ⊢
  intro i hi
  rw [getBit_set h.allocated, Bool.or_eq_true]
  exact Or.inl (hkey i hi)

theorem Valid.foldl_set {f : BloomFilter} (h : f.Valid) (keys : List Str) :
    (keys.foldl BloomFilter.set f).Valid := by
  induction keys generalizing f with
  | nil => exact h
  | cons key keys ih => exact ih (h.set key)

/-- A key of the list, or one that was in the filter, is in the filter after the keys of the list
are set. -/
theorem mayContain_foldl_set {f : BloomFilter} (h : f.Valid) {keys : List Str} {key : Str}
    (hkey : f.mayContain key ∨ key ∈ keys) : (keys.foldl set f).mayContain key := by
  induction keys generalizing f with
  | nil => exact hkey.resolve_right List.not_mem_nil
  | cons k keys ih =>
    refine ih (h.set k) ?_
    rcases hkey with hkey | hkey
    · exact Or.inl (mayContain_set_of_mayContain h hkey k)
    · rcases List.mem_cons.1 hkey with rfl | hkey
      · exact Or.inl (mayContain_set_self h key)
      · exact Or.inr hkey

/-- The bits of a filter after the keys of a list are set. -/
theorem getBit_foldl_set {f : BloomFilter} (h : f.Allocated) (keys : List Str) (q : ℕ) :
    getBit (keys.foldl set f).hash q =
      (getBit f.hash q || decide (∃ key ∈ keys, q ∈ (List.range 6).map (f.position key))) := by
  induction keys generalizing f with
  | nil => simp
  | cons k keys ih =>
    have hpos : ∀ key, (f.set k).position key = f.position key := fun _ => rfl
    rw [List.foldl_cons, ih (h.set k), getBit_set h, Bool.or_assoc]
    simp only [hpos, List.exists_mem_cons_iff, Bool.decide_or]

theorem config_foldl_set (f : BloomFilter) (keys : List Str) :
    (keys.foldl set f).seed = f.seed ∧ (keys.foldl set f).size = f.size ∧
      (keys.foldl set f).hash.length = f.hash.length := by
  induction keys generalizing f with
  | nil => exact ⟨rfl, rfl, rfl⟩
  | cons k keys ih =>
    obtain ⟨hseed, hsize, hlen⟩ := ih (f.set k)
    exact ⟨hseed, hsize, hlen.trans (length_set f k)⟩

/-- The order in which keys are set, and how often, does not matter. -/
theorem foldl_set_congr {f : BloomFilter} (h : f.Allocated) {ks ks' : List Str}
    (hks : ∀ k, k ∈ ks ↔ k ∈ ks') : ks.foldl set f = ks'.foldl set f := by
  obtain ⟨hseed, hsize, hlen⟩ := config_foldl_set f ks
  obtain ⟨hseed', hsize', hlen'⟩ := config_foldl_set f ks'
  have hhash : (ks.foldl set f).hash = (ks'.foldl set f).hash := by
    refine ext_getBit (hlen.trans hlen'.symm) fun q => ?_
    simp only [getBit_foldl_set h, hks]
  calc ks.foldl set f = ⟨f.seed, f.size, (ks'.foldl set f).hash⟩ := by
        rw [← hseed, ← hsize, ← hhash]
    _ = ks'.foldl set f := by rw [← hseed', ← hsize']

/-- An empty filter contains nothing. -/
theorem mayContain_create (key : Str) : create.mayContain key = false := by
  rw [← Bool.not_eq_true, mayContain_iff]
  intro h
  have hzero := h 0 (by omega)
  rw [create, reset, getBit_replicate_zero] at hzero
  exact Bool.false_ne_true hzero

/-- The number of bytes does not wrap around for a number of bits that a C `int` holds. -/
theorem byteCount_eq {size : UInt32} (h : size.toNat < 2 ^ 31) :
    byteCount size = (size.toNat + 7) / 8 := by
  have hadd : (size + 7).toNat = size.toNat + 7 := by
    rw [UInt32.toNat_add]
    refine Nat.mod_eq_of_lt ?_
    change size.toNat + 7 < 2 ^ 32
    omega
  rw [byteCount, UInt32.toNat_div, hadd]
  rfl

/-- The answers of a filter depend on the seed, the size and the bytes that hold the bits. -/
theorem mayContain_congr {f g : BloomFilter} (h : f.Valid) (hseed : g.seed = f.seed)
    (hsize : g.size = f.size)
    (hbytes : ∀ i < byteCount f.size, g.hash.getD i 0 = f.hash.getD i 0) (key : Str) :
    g.mayContain key = f.mayContain key := by
  have hpos : ∀ i, g.position key i = f.position key i := by
    intro i
    rw [position, position, hseed, hsize]
  have hbit : ∀ i, getBit g.hash (g.position key i) = getBit f.hash (f.position key i) := by
    intro i
    have hlt := position_lt h.allocated key i
    have hbyte : f.position key i / 8 < byteCount f.size := by
      rw [byteCount_eq h.size_lt]
      omega
    rw [hpos, getBit_eq_testBit, getBit_eq_testBit, hbytes _ hbyte]
  simp only [mayContain]
  exact List.all_congr rfl hbit

/-- A copy answers like the original. -/
theorem mayContain_copy {f : BloomFilter} (h : f.Valid) (fresh : ℕ → UInt8) (key : Str) :
    (f.copy fresh).mayContain key = f.mayContain key := by
  refine mayContain_congr h (by rfl) (by rfl) (fun i hi => ?_) key
  have hbuf : i < f.size.toNat := by
    have hpos := h.size_pos
    rw [byteCount_eq h.size_lt] at hi
    omega
  rw [copy, List.getD_eq_getElem?_getD, List.getElem?_map, List.getElem?_range hbuf,
    Option.map_some, if_pos hi, Option.getD_some]

end BloomFilter

end RawDish.Util
