import RawDish.Lib.Exec
import RawDish.Lib.LittleEndian
import RawDish.Util.BloomFilter

/-!
# The Bloom filter on the wire

A filter is sent as its seed, its size and the bytes that hold its bits. `deserialize` accepts a
vector whose length agrees with the size written in it (`WellFormed`) and leaves the filter alone
otherwise. What it does not compare the size with is the buffer of the filter: the bytes are copied
into the buffer that is there, which an earlier `reset` or copy allocated.

A program has several filters, which are copied to and assigned from each other, so the runs are
those of a list of filters (`step`). The filters keep a byte for every eight bits exactly as long as
no accepted vector is larger than the buffer it is copied into.

## Main definitions

* `BloomFilter.serialize`, `BloomFilter.deserialize`.
* `BloomFilter.WellFormed` : the vectors that are accepted.
* `BloomFilter.Op`, `BloomFilter.step` : a program with filters.
* `BloomFilter.Roomy`, `BloomFilter.InBounds` : the buffer is large enough, and the bytes that an
  operation accesses are in it.
* `BloomFilter.Fits` : the condition on `deserialize`.

## Main results

* `BloomFilter.roomy_and_inBounds_iff` : the buffers suffice exactly in the runs that meet `Fits`.
* `BloomFilter.determined_by_keys` : a filter depends on the set of its keys.
* `BloomFilter.wire_format` : the round trips, and what is done with other vectors.

## References

* `src/util/bloomfilter.cc`, lines 63–147.
-/

namespace RawDish.Util

open Lib

namespace BloomFilter

/-! ### The format -/

/-- The first `(_size + 7) / 8` bytes of the buffer. -/
def bytes (f : BloomFilter) : List UInt8 :=
  (List.range (byteCount f.size)).map fun i => f.hash.getD i 0

/-- `serialize`. -/
def serialize (f : BloomFilter) : List UInt8 := toLE f.seed ++ toLE f.size ++ f.bytes

/-- The buffer after `memcpy` of the bytes to its start. Of bytes that the buffer has no room for
there is nothing to say. -/
def overwrite (buffer bytes : List UInt8) : List UInt8 :=
  (bytes ++ buffer.drop bytes.length).take buffer.length

/-- `deserialize`. A size is unsigned, so that it is never negative. -/
def deserialize (f : BloomFilter) (src : List UInt8) : BloomFilter :=
  if src.length < 8 then f
  else
    let seed := ofLE src
    let size := ofLE (src.drop 4)
    if size > 100 * 1024 * 1024 then f
    else if src.length ≠ byteCount size + 4 + 4 then f
    else { seed, size, hash := overwrite f.hash ((src.drop 8).take (byteCount size)) }

/-- The number of bits that is written in a vector. -/
def encodedSize (v : List UInt8) : ℕ := (ofLE (v.drop 4)).toNat

/-- A vector with a header, with a size that is not too large, and with as many bytes as the size
asks for. -/
structure WellFormed (v : List UInt8) : Prop where
  header : 8 ≤ v.length
  size_le : encodedSize v ≤ 100 * 1024 * 1024
  length_eq : v.length = 8 + (encodedSize v + 7) / 8

instance (v : List UInt8) : Decidable (WellFormed v) :=
  decidable_of_iff
    (8 ≤ v.length ∧ encodedSize v ≤ 100 * 1024 * 1024 ∧ v.length = 8 + (encodedSize v + 7) / 8)
    ⟨fun ⟨h₁, h₂, h₃⟩ => ⟨h₁, h₂, h₃⟩, fun ⟨h₁, h₂, h₃⟩ => ⟨h₁, h₂, h₃⟩⟩

theorem WellFormed.byteCount_eq {v : List UInt8} (h : WellFormed v) :
    byteCount (ofLE (v.drop 4)) = (encodedSize v + 7) / 8 := by
  have hle := h.size_le
  exact BloomFilter.byteCount_eq (show encodedSize v < 2 ^ 31 by omega)

/-- An accepted vector replaces the filter, in the buffer that is there. -/
theorem deserialize_of_wellFormed (f : BloomFilter) {v : List UInt8} (h : WellFormed v) :
    f.deserialize v = ⟨ofLE v, ofLE (v.drop 4), overwrite f.hash (v.drop 8)⟩ := by
  have hheader : ¬ v.length < 8 := Nat.not_lt.2 h.header
  have hsize : ¬ ofLE (v.drop 4) > 100 * 1024 * 1024 := by
    rw [gt_iff_lt, UInt32.lt_iff_toNat_lt]
    exact Nat.not_lt.2 h.size_le
  have hlen : ¬ v.length ≠ byteCount (ofLE (v.drop 4)) + 4 + 4 := by
    have hlength := h.length_eq
    rw [h.byteCount_eq]
    omega
  have htake : (v.drop 8).take (byteCount (ofLE (v.drop 4))) = v.drop 8 := by
    refine List.take_of_length_le ?_
    rw [List.length_drop]
    omega
  simp only [deserialize, if_neg hheader, if_neg hsize, if_neg hlen, htake]

/-- Any other vector is refused. -/
theorem deserialize_of_not_wellFormed (f : BloomFilter) {v : List UInt8} (h : ¬ WellFormed v) :
    f.deserialize v = f := by
  simp only [deserialize]
  split_ifs with hheader hsize hlen
  · rfl
  · rfl
  · rfl
  · rw [gt_iff_lt, UInt32.lt_iff_toNat_lt, Nat.not_lt] at hsize
    have hle : encodedSize v ≤ 100 * 1024 * 1024 := hsize
    rw [BloomFilter.byteCount_eq (show encodedSize v < 2 ^ 31 by omega)] at hlen
    have hlength : v.length = 8 + (encodedSize v + 7) / 8 := by
      change ¬ v.length ≠ (encodedSize v + 7) / 8 + 4 + 4 at hlen
      omega
    exact absurd ⟨Nat.not_lt.1 hheader, hle, hlength⟩ h

@[simp] theorem length_overwrite (buffer bytes : List UInt8) :
    (overwrite buffer bytes).length = buffer.length := by
  rw [overwrite, List.length_take, List.length_append, List.length_drop]
  omega

theorem overwrite_eq_append {buffer bytes : List UInt8} (h : bytes.length ≤ buffer.length) :
    overwrite buffer bytes = bytes ++ buffer.drop bytes.length := by
  refine List.take_of_length_le ?_
  rw [List.length_append, List.length_drop]
  omega

theorem length_bytes (f : BloomFilter) : f.bytes.length = byteCount f.size := by
  rw [bytes, List.length_map, List.length_range]

/-- The bytes of a filter whose buffer has them. -/
theorem bytes_eq_take {f : BloomFilter} (h : byteCount f.size ≤ f.hash.length) :
    f.bytes = f.hash.take (byteCount f.size) := by
  refine List.ext_getElem ?_ fun i hi hi' => ?_
  · rw [length_bytes, List.length_take, Nat.min_eq_left h]
  · rw [length_bytes] at hi
    simp only [bytes, List.getElem_map, List.getElem_range, List.getElem_take]
    exact (List.getElem_eq_getD 0).symm

theorem encodedSize_serialize (f : BloomFilter) : encodedSize f.serialize = f.size.toNat := by
  rw [encodedSize, serialize, List.append_assoc, List.drop_left' (length_toLE f.seed), ofLE_toLE]

theorem length_serialize (f : BloomFilter) : f.serialize.length = 8 + byteCount f.size := by
  simp only [serialize, List.length_append, length_toLE, length_bytes]

/-! ### The set of keys -/

/-- A bit past the end of the filter is not one of a key. -/
theorem getBit_foldl_set_of_le {f : BloomFilter} (h : f.Allocated) (keys : List Str) {q : ℕ}
    (hq : f.size.toNat ≤ q) : getBit (keys.foldl set f).hash q = getBit f.hash q := by
  have hnot : ¬ ∃ key ∈ keys, q ∈ (List.range 6).map (f.position key) := by
    rintro ⟨key, -, hmem⟩
    obtain ⟨i, -, rfl⟩ := List.mem_map.1 hmem
    exact absurd (position_lt h key i) (Nat.not_lt.2 hq)
  rw [getBit_foldl_set h, decide_eq_false hnot, Bool.or_false]

/-- **A filter depends on the set of keys only.** Two lists with the same keys, in any order and
with any repetitions, set the same bits and are sent as the same bytes. In particular `set` commutes
and is idempotent. The bits past the end of the filter stay as they were. -/
theorem determined_by_keys {f : BloomFilter} (h : f.Allocated) :
    (∀ ks ks' : List Str, (∀ k, k ∈ ks ↔ k ∈ ks') →
      (ks.foldl set f).hash = (ks'.foldl set f).hash ∧
        (ks.foldl set f).serialize = (ks'.foldl set f).serialize) ∧
    (∀ k k', (f.set k).set k' = (f.set k').set k) ∧ (∀ k, (f.set k).set k = f.set k) ∧
    ∀ (ks : List Str) (q : ℕ), f.size.toNat ≤ q →
      getBit (ks.foldl set f).hash q = getBit f.hash q := by
  refine ⟨fun ks ks' hks => ?_, fun k k' => ?_, fun k => ?_, fun ks q hq => ?_⟩
  · rw [foldl_set_congr h hks]
    exact ⟨rfl, rfl⟩
  · have hswap : ∀ a, a ∈ [k, k'] ↔ a ∈ [k', k] := fun a => (List.Perm.swap k' k []).mem_iff
    exact foldl_set_congr h hswap
  · have htwice : ∀ a, a ∈ [k, k] ↔ a ∈ [k] := fun a => by simp
    exact foldl_set_congr h htwice
  · exact getBit_foldl_set_of_le h ks hq

/-- A filter of nine bits in two bytes, all of them set in the second byte. -/
theorem determined_by_keys_nine :
    ([Str.ofString "a", Str.ofString "b"].foldl set ⟨7, 9, [0, 255]⟩).serialize =
      ([Str.ofString "b", Str.ofString "a", Str.ofString "b"].foldl set
        ⟨7, 9, [0, 255]⟩).serialize ∧
    getBit ([Str.ofString "a", Str.ofString "b"].foldl set ⟨7, 9, [0, 255]⟩).hash 15 = true := by
  have h : Allocated ⟨7, 9, [0, 255]⟩ := ⟨by decide, by decide⟩
  obtain ⟨hkeys, -, -, hpast⟩ := determined_by_keys h
  refine ⟨(hkeys _ _ fun k => ?_).2, ?_⟩
  · simp only [List.mem_cons, List.not_mem_nil, or_false]
    tauto
  · rw [hpast _ 15 (by decide)]
    decide

/-! ### Round trips -/

/-- What `serialize` writes is accepted. -/
theorem wellFormed_serialize {f : BloomFilter} (h : f.size.toNat ≤ 100 * 1024 * 1024) :
    WellFormed f.serialize := by
  refine ⟨?_, ?_, ?_⟩
  · rw [length_serialize]
    omega
  · rwa [encodedSize_serialize]
  · rw [length_serialize, encodedSize_serialize, BloomFilter.byteCount_eq (by omega)]

/-- A filter as it is after it received another one. -/
theorem deserialize_serialize {f : BloomFilter} (h : f.size.toNat ≤ 100 * 1024 * 1024)
    (g : BloomFilter) :
    g.deserialize f.serialize = ⟨f.seed, f.size, overwrite g.hash f.bytes⟩ := by
  have hdrop : f.serialize.drop 8 = f.bytes := by
    refine List.drop_left' ?_
    simp only [List.length_append, length_toLE]
  have hsize : ofLE (f.serialize.drop 4) = f.size := UInt32.toNat_inj.1 (encodedSize_serialize f)
  have hseed : ofLE f.serialize = f.seed := by
    rw [serialize, List.append_assoc, ofLE_toLE]
  rw [deserialize_of_wellFormed g (wellFormed_serialize h), hdrop, hsize, hseed]

/-- What was received is sent again as it came. -/
theorem serialize_deserialize {v : List UInt8} (h : WellFormed v) {f : BloomFilter}
    (hroom : (encodedSize v + 7) / 8 ≤ f.hash.length) : (f.deserialize v).serialize = v := by
  have hlen : (v.drop 8).length = byteCount (ofLE (v.drop 4)) := by
    have hlength := h.length_eq
    rw [List.length_drop, h.byteCount_eq]
    omega
  have hfit : (v.drop 8).length ≤ f.hash.length := by
    rwa [hlen, h.byteCount_eq]
  have hbytes : bytes ⟨ofLE v, ofLE (v.drop 4), overwrite f.hash (v.drop 8)⟩ = v.drop 8 := by
    rw [bytes_eq_take]
    · change (overwrite f.hash (v.drop 8)).take (byteCount (ofLE (v.drop 4))) = v.drop 8
      rw [overwrite_eq_append hfit, List.take_left' hlen]
    · rw [length_overwrite]
      exact hlen ▸ hfit
  have hheader := h.header
  have htail : 4 ≤ (v.drop 4).length := by
    rw [List.length_drop]
    omega
  rw [deserialize_of_wellFormed f h, serialize, hbytes, toLE_ofLE (by omega), toLE_ofLE htail,
    List.append_assoc]
  have hdrop : v.drop 8 = (v.drop 4).drop 4 := by rw [List.drop_drop]
  rw [hdrop, List.take_append_drop, List.take_append_drop]

/-! ### The buffer that `reset` allocates -/

section Reset

variable {size : Int32} (hpos : 1 ≤ size.toInt) (hle : size.toInt ≤ 2 ^ 31 - 8) (seed : UInt32)

include hpos in
theorem size_reset : (reset size seed).size.toNat = size.toInt.toNat := by
  have hnonneg : 0 ≤ size := Int32.le_iff_toInt_le.2 (show 0 ≤ size.toInt by omega)
  rw [Int32.toNat_toInt]
  exact Int32.toNat_toUInt32_of_le hnonneg

include hpos hle in
/-- The addition and the division of `reset` do not overflow. -/
theorem length_reset : (reset size seed).hash.length = (size.toInt.toNat + 7) / 8 := by
  have hadd : (size + 7).toInt = size.toInt + 7 := by
    rw [Int32.toInt_add]
    exact Int.bmod_eq_of_le (by change -_ ≤ size.toInt + 7; omega)
      (by change size.toInt + 7 < _; omega)
  have hdiv : ((size + 7) / 8).toInt = (size.toInt + 7) / 8 := by
    rw [Int32.toInt_div, hadd]
    change ((size.toInt + 7).tdiv 8).bmod (2 ^ 32) = _
    rw [Int.tdiv_eq_ediv_of_nonneg (by omega), Int.bmod_eq_of_le (by omega) (by omega)]
  rw [reset, List.length_replicate, ← Int32.toNat_toInt, hdiv]
  omega

include hpos hle in
theorem valid_reset : (reset size seed).Valid := by
  have hsize := size_reset hpos seed
  have hlen := length_reset hpos hle seed
  exact ⟨by omega, by omega, by omega⟩

end Reset

/-- **The wire format.** A filter that was made by `reset` and received any keys reaches a filter
with room for its bytes: seed, size, bytes and answers are the same afterwards. A well-formed vector
that is received is the vector that is sent on. Any other vector changes nothing. -/
theorem wire_format :
    (∀ (size : Int32) (seed : UInt32) (keys : List Str) (f g : BloomFilter),
      1 ≤ size.toInt → size.toInt ≤ 100 * 1024 * 1024 → f = keys.foldl set (reset size seed) →
      (size.toInt.toNat + 7) / 8 ≤ g.hash.length →
      (g.deserialize f.serialize).seed = f.seed ∧ (g.deserialize f.serialize).size = f.size ∧
        (g.deserialize f.serialize).hash.take ((size.toInt.toNat + 7) / 8) =
          f.hash.take ((size.toInt.toNat + 7) / 8) ∧
        ∀ key, (g.deserialize f.serialize).mayContain key = f.mayContain key) ∧
    (∀ (v : List UInt8) (f : BloomFilter), WellFormed v →
      (encodedSize v + 7) / 8 ≤ f.hash.length → (f.deserialize v).serialize = v) ∧
    ∀ (v : List UInt8) (f : BloomFilter), ¬ WellFormed v → f.deserialize v = f := by
  refine ⟨?_, fun v f h hroom => serialize_deserialize h hroom,
    fun v f h => deserialize_of_not_wellFormed f h⟩
  intro size seed keys f g hpos hle hf hroom
  have hvalid : f.Valid := hf ▸ (valid_reset hpos (by omega) seed).foldl_set keys
  have hsize : f.size.toNat = size.toInt.toNat := by
    rw [hf, (config_foldl_set _ keys).2.1, size_reset hpos]
  have hcount : byteCount f.size = (size.toInt.toNat + 7) / 8 := by
    rw [BloomFilter.byteCount_eq hvalid.size_lt, hsize]
  have hown : byteCount f.size ≤ f.hash.length := by
    have hle := hvalid.size_le
    omega
  have hbytes : f.bytes.length ≤ g.hash.length := by
    rwa [length_bytes, hcount]
  have hlimit : f.size.toNat ≤ 100 * 1024 * 1024 := by
    rw [hsize]
    omega
  rw [deserialize_serialize hlimit, overwrite_eq_append hbytes, bytes_eq_take hown, ← hcount]
  have htake : (f.hash.take (byteCount f.size)).length = byteCount f.size :=
    List.length_take_of_le hown
  refine ⟨rfl, rfl, List.take_left' htake, fun key => ?_⟩
  refine mayContain_congr hvalid ?_ ?_ ?_ key
  · rfl
  · rfl
  · intro i hi
    rw [List.getD_append _ _ _ _ (by rwa [htake]), List.getD_eq_getElem?_getD,
      List.getElem?_take_of_lt hi, ← List.getD_eq_getElem?_getD]

/-- A filter of ten bits, received into a buffer of three bytes; and a vector of nine bits. -/
theorem wire_format_ten :
    let f := (reset 10 7).set (.ofString "key")
    let g := reset 24 0
    f.serialize.length = 10 ∧ (g.deserialize f.serialize).size = 10 ∧
      (g.deserialize f.serialize).mayContain (.ofString "key") = f.mayContain (.ofString "key") ∧
      (g.deserialize [1, 0, 0, 0, 9, 0, 0, 0, 5, 1]).serialize = [1, 0, 0, 0, 9, 0, 0, 0, 5, 1] ∧
      g.deserialize [1, 0, 0, 0, 9, 0, 0, 0, 5] = g := by
  obtain ⟨hround, hback, hbad⟩ := wire_format
  obtain ⟨-, hsize, -, hkey⟩ := hround 10 7 [.ofString "key"] _ (reset 24 0) (by decide)
    (by decide) rfl (by decide)
  exact ⟨by decide, hsize, hkey _, hback _ _ (by decide) (by decide), hbad _ _ (by decide)⟩

/-! ### Runs -/

/-- An operation on the filters of a program, which are named by their numbers. -/
inductive Op
  | create
  | reset (i : ℕ) (size : Int32) (seed : UInt32)
  | set (i : ℕ) (key : Str)
  | mayContain (i : ℕ) (key : Str)
  /-- A new filter, made by the copy constructor from the filter `j`. -/
  | copy (j : ℕ) (fresh : ℕ → UInt8)
  /-- The filter `i` is assigned the other filter `j`. -/
  | assign (i j : ℕ) (fresh : ℕ → UInt8)
  | serialize (i : ℕ)
  | deserialize (i : ℕ) (src : List UInt8)

/-- The filters after an operation. There is no such operation on a filter that is not there, nor
with a size that `reset` is not made for; and `% _size` ends the program when there are no bits. -/
def step (pool : List BloomFilter) : Op → Option (List BloomFilter)
  | .create => some (pool ++ [.create])
  | .reset i size seed =>
    if i < pool.length ∧ 1 ≤ size.toInt ∧ size.toInt ≤ 2 ^ 31 - 8 then
      some (pool.set i (.reset size seed))
    else none
  | .set i key => pool[i]?.bind fun f =>
    if f.size = 0 then none else some (pool.set i (f.set key))
  | .mayContain i _ => pool[i]?.bind fun f => if f.size = 0 then none else some pool
  | .copy j fresh => pool[j]?.map fun f => pool ++ [f.copy fresh]
  | .assign i j fresh =>
    if i ≠ j ∧ i < pool.length then pool[j]?.map fun f => pool.set i (f.copy fresh) else none
  | .serialize i => pool[i]?.map fun _ => pool
  | .deserialize i src => pool[i]?.map fun f => pool.set i (f.deserialize src)

/-- The buffer has a byte for every eight bits. -/
def Roomy (f : BloomFilter) : Prop := (f.size.toNat + 7) / 8 ≤ f.hash.length

/-- The bytes that the operation accesses are within the buffers and vectors. -/
def InBounds (pool : List BloomFilter) : Op → Prop
  | .create => True
  | .reset _ _ _ => True
  | .set i key => ∀ f ∈ pool[i]?, ∀ n < 6, f.position key n >>> 3 < f.hash.length
  | .mayContain i key => ∀ f ∈ pool[i]?, ∀ n < 6, f.position key n >>> 3 < f.hash.length
  | .copy j _ => ∀ f ∈ pool[j]?,
      byteCount f.size ≤ f.hash.length ∧ byteCount f.size ≤ f.size.toNat
  | .assign _ j _ => ∀ f ∈ pool[j]?,
      byteCount f.size ≤ f.hash.length ∧ byteCount f.size ≤ f.size.toNat
  | .serialize i => ∀ f ∈ pool[i]?, byteCount f.size ≤ f.hash.length
  | .deserialize i src => ∀ f ∈ pool[i]?, WellFormed src →
      byteCount (ofLE (src.drop 4)) ≤ f.hash.length ∧
        8 + byteCount (ofLE (src.drop 4)) ≤ src.length

/-- An accepted vector has no more bytes than the buffer it is copied into. -/
def Fits (pool : List BloomFilter) : Op → Prop
  | .deserialize i src => ∀ f ∈ pool[i]?, WellFormed src →
      (encodedSize src + 7) / 8 ≤ f.hash.length
  | _ => True

instance (f : BloomFilter) : Decidable f.Roomy :=
  inferInstanceAs (Decidable ((f.size.toNat + 7) / 8 ≤ f.hash.length))

instance (pool : List BloomFilter) : (op : Op) → Decidable (InBounds pool op)
  | .create => isTrue trivial
  | .reset _ _ _ => isTrue trivial
  | .set i key => inferInstanceAs
      (Decidable (∀ f ∈ pool[i]?, ∀ n < 6, f.position key n >>> 3 < f.hash.length))
  | .mayContain i key => inferInstanceAs
      (Decidable (∀ f ∈ pool[i]?, ∀ n < 6, f.position key n >>> 3 < f.hash.length))
  | .copy j _ => inferInstanceAs (Decidable (∀ f ∈ pool[j]?,
      byteCount f.size ≤ f.hash.length ∧ byteCount f.size ≤ f.size.toNat))
  | .assign _ j _ => inferInstanceAs (Decidable (∀ f ∈ pool[j]?,
      byteCount f.size ≤ f.hash.length ∧ byteCount f.size ≤ f.size.toNat))
  | .serialize i => inferInstanceAs (Decidable (∀ f ∈ pool[i]?, byteCount f.size ≤ f.hash.length))
  | .deserialize i src => inferInstanceAs (Decidable (∀ f ∈ pool[i]?, WellFormed src →
      byteCount (ofLE (src.drop 4)) ≤ f.hash.length ∧
        8 + byteCount (ofLE (src.drop 4)) ≤ src.length))

instance (pool : List BloomFilter) : (op : Op) → Decidable (Fits pool op)
  | .deserialize i src => inferInstanceAs (Decidable (∀ f ∈ pool[i]?, WellFormed src →
      (encodedSize src + 7) / 8 ≤ f.hash.length))
  | .create => isTrue trivial
  | .reset _ _ _ => isTrue trivial
  | .set _ _ => isTrue trivial
  | .mayContain _ _ => isTrue trivial
  | .copy _ _ => isTrue trivial
  | .assign _ _ _ => isTrue trivial
  | .serialize _ => isTrue trivial

/-- The invariant of a filter: its buffer is large enough, and a C `int` holds the number of its
bits. -/
def Sound (f : BloomFilter) : Prop := f.Roomy ∧ f.size.toNat < 2 ^ 31

theorem sound_create : create.Sound := by
  have h := valid_create
  have hle := h.size_le
  exact ⟨show _ ≤ _ by omega, h.size_lt⟩

theorem Sound.byteCount_le {f : BloomFilter} (h : f.Sound) : byteCount f.size ≤ f.hash.length := by
  rw [BloomFilter.byteCount_eq h.2]
  exact h.1

theorem Sound.copy {f : BloomFilter} (h : f.Sound) (fresh : ℕ → UInt8) : (f.copy fresh).Sound := by
  refine ⟨?_, h.2⟩
  change (f.size.toNat + 7) / 8 ≤ ((List.range f.size.toNat).map _).length
  rw [List.length_map, List.length_range]
  omega

theorem Sound.set {f : BloomFilter} (h : f.Sound) (key : Str) : (f.set key).Sound := by
  refine ⟨?_, h.2⟩
  change (f.size.toNat + 7) / 8 ≤ (f.set key).hash.length
  rw [length_set]
  exact h.1

theorem sound_reset {size : Int32} (hpos : 1 ≤ size.toInt) (hle : size.toInt ≤ 2 ^ 31 - 8)
    (seed : UInt32) : (reset size seed).Sound := by
  have hsize := size_reset hpos seed
  have hlen := length_reset hpos hle seed
  exact ⟨show _ ≤ _ by rw [hsize, hlen], by omega⟩

theorem Sound.deserialize {f : BloomFilter} (h : f.Sound) {src : List UInt8}
    (hfits : WellFormed src → (encodedSize src + 7) / 8 ≤ f.hash.length) :
    (f.deserialize src).Sound := by
  by_cases hsrc : WellFormed src
  · rw [deserialize_of_wellFormed f hsrc]
    refine ⟨?_, ?_⟩
    · change (encodedSize src + 7) / 8 ≤ (overwrite f.hash (src.drop 8)).length
      rw [length_overwrite]
      exact hfits hsrc
    · have hle := hsrc.size_le
      exact show encodedSize src < 2 ^ 31 by omega
  · rwa [deserialize_of_not_wellFormed f hsrc]

/-- The accesses to the bits of a key are within the buffer. -/
theorem Sound.position_lt {f : BloomFilter} (h : f.Sound) (hsize : f.size ≠ 0) (key : Str) (n : ℕ) :
    f.position key n >>> 3 < f.hash.length := by
  have hpos : 0 < f.size.toNat := Nat.pos_of_ne_zero fun heq => hsize (UInt32.toNat_inj.1 heq)
  have hroom : (f.size.toNat + 7) / 8 ≤ f.hash.length := h.1
  rw [Nat.shiftRight_eq_div_pow]
  exact position_div_lt ⟨hpos, by omega⟩ key n

theorem forall_concat {P : BloomFilter → Prop} {pool : List BloomFilter} {f : BloomFilter}
    (hpool : ∀ g ∈ pool, P g) (hf : P f) : ∀ g ∈ pool ++ [f], P g := by
  intro g hg
  rcases List.mem_append.1 hg with hg | hg
  · exact hpool g hg
  · exact List.mem_singleton.1 hg ▸ hf

theorem forall_set {P : BloomFilter → Prop} {pool : List BloomFilter} {f : BloomFilter}
    (hpool : ∀ g ∈ pool, P g) (i : ℕ) (hf : P f) : ∀ g ∈ pool.set i f, P g := by
  intro g hg
  rcases List.mem_or_eq_of_mem_set hg with hg | rfl
  · exact hpool g hg
  · exact hf

/-- The operations that there are on the filters of a pool, and the filters after them. -/
inductive Steps (pool : List BloomFilter) : Op → List BloomFilter → Prop
  | create : Steps pool .create (pool ++ [.create])
  | reset (i : ℕ) {size : Int32} (hpos : 1 ≤ size.toInt) (hle : size.toInt ≤ 2 ^ 31 - 8)
      (seed : UInt32) : Steps pool (.reset i size seed) (pool.set i (.reset size seed))
  | set {i : ℕ} {f : BloomFilter} (hf : pool[i]? = some f) (hsize : f.size ≠ 0) (key : Str) :
      Steps pool (.set i key) (pool.set i (f.set key))
  | mayContain {i : ℕ} {f : BloomFilter} (hf : pool[i]? = some f) (hsize : f.size ≠ 0)
      (key : Str) : Steps pool (.mayContain i key) pool
  | copy {j : ℕ} {f : BloomFilter} (hf : pool[j]? = some f) (fresh : ℕ → UInt8) :
      Steps pool (.copy j fresh) (pool ++ [f.copy fresh])
  | assign (i : ℕ) {j : ℕ} {f : BloomFilter} (hf : pool[j]? = some f) (fresh : ℕ → UInt8) :
      Steps pool (.assign i j fresh) (pool.set i (f.copy fresh))
  | serialize (i : ℕ) : Steps pool (.serialize i) pool
  | deserialize {i : ℕ} {f : BloomFilter} (hf : pool[i]? = some f) (src : List UInt8) :
      Steps pool (.deserialize i src) (pool.set i (f.deserialize src))

theorem steps_of_step {pool pool' : List BloomFilter} {op : Op} (h : step pool op = some pool') :
    Steps pool op pool' := by
  cases op with
  | create =>
    cases h
    exact .create
  | reset i size seed =>
    simp only [step, Option.ite_none_right_eq_some, Option.some.injEq] at h
    obtain ⟨⟨-, hpos, hle⟩, rfl⟩ := h
    exact .reset i hpos hle seed
  | set i key =>
    simp only [step, Option.bind_eq_some_iff, Option.ite_none_left_eq_some, Option.some.injEq] at h
    obtain ⟨f, hf, hsize, rfl⟩ := h
    exact .set hf hsize key
  | mayContain i key =>
    simp only [step, Option.bind_eq_some_iff, Option.ite_none_left_eq_some, Option.some.injEq] at h
    obtain ⟨f, hf, hsize, rfl⟩ := h
    exact .mayContain hf hsize key
  | copy j fresh =>
    obtain ⟨f, hf, rfl⟩ := Option.map_eq_some_iff.1 h
    exact .copy hf fresh
  | assign i j fresh =>
    simp only [step, Option.ite_none_right_eq_some, Option.map_eq_some_iff] at h
    obtain ⟨-, f, hf, rfl⟩ := h
    exact .assign i hf fresh
  | serialize i =>
    obtain ⟨f, -, rfl⟩ := Option.map_eq_some_iff.1 h
    exact .serialize i
  | deserialize i src =>
    obtain ⟨f, hf, rfl⟩ := Option.map_eq_some_iff.1 h
    exact .deserialize hf src

/-- An operation that meets the condition accesses bytes of the buffers only and keeps the invariant
of all filters. -/
theorem inBounds_and_sound_step {pool pool' : List BloomFilter} {op : Op}
    (h : ∀ f ∈ pool, f.Sound) (hfits : Fits pool op) (hstep : step pool op = some pool') :
    InBounds pool op ∧ ∀ f ∈ pool', f.Sound := by
  have hget : ∀ {i : ℕ} {f : BloomFilter}, pool[i]? = some f → f.Sound :=
    fun hf => h _ (List.mem_of_getElem? hf)
  cases steps_of_step hstep with
  | create => exact ⟨trivial, forall_concat h sound_create⟩
  | reset i hpos hle seed => exact ⟨trivial, forall_set h i (sound_reset hpos hle seed)⟩
  | @set i f hf hsize key =>
    refine ⟨fun g hg n _ => ?_, forall_set h i ((hget hf).set key)⟩
    rw [hf, Option.mem_some] at hg
    exact hg ▸ (hget hf).position_lt hsize key n
  | mayContain hf hsize key =>
    refine ⟨fun g hg n _ => ?_, h⟩
    rw [hf, Option.mem_some] at hg
    exact hg ▸ (hget hf).position_lt hsize key n
  | copy hf fresh =>
    refine ⟨fun g hg => ⟨(hget hg).byteCount_le, ?_⟩, forall_concat h ((hget hf).copy fresh)⟩
    rw [BloomFilter.byteCount_eq (hget hg).2]
    omega
  | assign i hf fresh =>
    refine ⟨fun g hg => ⟨(hget hg).byteCount_le, ?_⟩, forall_set h i ((hget hf).copy fresh)⟩
    rw [BloomFilter.byteCount_eq (hget hg).2]
    omega
  | serialize i => exact ⟨fun g hg => (hget hg).byteCount_le, h⟩
  | @deserialize i f hf src =>
    refine ⟨fun g hg hsrc => ?_, forall_set h i ((hget hf).deserialize (hfits f hf))⟩
    have hlength := hsrc.length_eq
    rw [hsrc.byteCount_eq]
    exact ⟨hfits g hg hsrc, by omega⟩

/-- **The buffers of the filters.** In a run, all filters have a byte for every eight bits before
and after every operation, and every access is within the buffers, if and only if every vector that
`deserialize` accepts has no more bytes than the buffer it is copied into. -/
theorem roomy_and_inBounds_iff {ops : List Op} {pool : List BloomFilter}
    (h : exec step [] ops = some pool) :
    (AllSteps step (fun pool op => (∀ f ∈ pool, f.Roomy) ∧ InBounds pool op) [] ops ∧
      ∀ f ∈ pool, f.Roomy) ↔ AllSteps step Fits [] ops := by
  constructor
  · rintro ⟨hall, -⟩
    refine hall.imp ?_
    rintro pool op ⟨-, hop⟩
    cases op with
    | deserialize i src =>
      intro f hf hsrc
      exact hsrc.byteCount_eq ▸ (hop f hf hsrc).1
    | _ => trivial
  · intro hfits
    obtain ⟨hall, hend⟩ := AllSteps.of_invariant (D := fun pool op =>
      (∀ f ∈ pool, f.Roomy) ∧ InBounds pool op) (fun pool => ∀ f ∈ pool, f.Sound)
      (fun pool op pool' hpool hC hstep =>
        have hnext := inBounds_and_sound_step hpool hC hstep
        ⟨⟨fun f hf => (hpool f hf).1, hnext.1⟩, hnext.2⟩) (by simp) hfits h
    exact ⟨hall, fun f hf => (hend f hf).1⟩

/-- Nine bits are received into a buffer of two bytes. -/
theorem roomy_and_inBounds_nine :
    let ops : List Op := [.create, .reset 0 16 0, .deserialize 0 [1, 0, 0, 0, 9, 0, 0, 0, 5, 1]]
    (exec step [] ops).isSome ∧
      AllSteps step (fun pool op => (∀ f ∈ pool, f.Roomy) ∧ InBounds pool op) [] ops := by
  exact ⟨rfl, ((roomy_and_inBounds_iff rfl).2 (by decide +kernel)).1⟩

/-- Sixteen bits are received into a buffer of one byte: the second byte is written behind the
buffer. -/
theorem deserialize_sixteen :
    let ops : List Op := [.create, .reset 0 8 0, .deserialize 0 [0, 0, 0, 0, 16, 0, 0, 0, 1, 2]]
    (∃ pool, exec step [] ops = some pool ∧ ¬ ∀ f ∈ pool, f.Roomy) ∧
      ¬ AllSteps step InBounds [] ops := by
  refine ⟨⟨_, rfl, ?_⟩, ?_⟩
  · intro h
    exact absurd (h _ List.mem_cons_self) (by decide)
  · decide +kernel

end BloomFilter

end RawDish.Util
