import RawDish.Util.LruCache

/-!
# The LRU cache and its reference

The cache refines the reference as long as every insertion into a full cache finds the entry with
the smallest access time in front of the heap: exactly that entry is evicted. The relation between
the two states is `Refines`: the pointers, ordered by access time, are the entries of the
reference in order.

`get` and `invalidate` leave the heap in order whatever it was before, and an insertion keeps it
in order; the front of a heap in order is the least entry. What takes the heap out of order is a
`put` on a key that is in the cache.

## Main definitions

* `LRUCache.FrontLeast` : the condition on a step.
* `Indexes` : the map has the pointers of the heap.
* `Refines` : the relation between the cache and the reference.
* `LRUCache.Ordered` : the heap is in order.

## Main results

* `lru_refines_iff` : the cache shows what the reference does exactly under that condition.
* `frontLeast_of_not_replaces` : the condition holds in a run without such a `put`.

## References

* `src/util/lrucache.h`, lines 63–131.
-/

namespace RawDish.Util

open Lib

namespace LRUCache

/-- The access time of an entry as a number. -/
def time (c : LRUCache) (p : ℕ) : ℕ := (c.mem p).atime.toNat

/-- An entry as the reference has it. -/
def entry (c : LRUCache) (p : ℕ) : Str × List UInt8 := ((c.mem p).key, (c.mem p).data)

/-- An insertion into a full cache finds an entry with the smallest access time in front of the
heap. -/
def FrontLeast (c : LRUCache) : Op → Prop
  | .put key _ => key ∉ c.map → c.size ≤ c.heap.length →
      ∀ p ∈ c.heap, c.time (cell c.heap 0) ≤ c.time p
  | _ => True

/-- The access counter does not wrap around in the step. -/
def ClockRuns (c : LRUCache) : Prop := c.timeCnt.toNat + 1 < 2 ^ 64

theorem ClockRuns.tick {c : LRUCache} (h : c.ClockRuns) :
    (c.timeCnt + 1).toNat = c.timeCnt.toNat + 1 := by
  rw [UInt64.toNat_add, UInt64.toNat_one]
  exact Nat.mod_eq_of_lt h

theorem compare_iff (mem : ℕ → BlockCacheData) (a b : ℕ) :
    compare mem a b ↔ (mem b).atime.toNat < (mem a).atime.toNat := by
  simp [compare, UInt64.lt_iff_toNat_lt]

theorem strictWeakOrder_compare (mem : ℕ → BlockCacheData) : StrictWeakOrder (compare mem) := by
  constructor
  · intro a b
    rw [compare_iff, compare_iff]
    omega
  · intro a b c
    rw [compare_iff, compare_iff, compare_iff]
    omega

/-- The front of a heap has the smallest access time. -/
theorem front_le {mem : ℕ → BlockCacheData} {l : List ℕ} (h : IsHeap (compare mem) l) {p : ℕ}
    (hp : p ∈ l) : (mem (cell l 0)).atime.toNat ≤ (mem p).atime.toNat := by
  obtain ⟨i, hi, rfl⟩ := List.mem_iff_getElem.1 hp
  have hnot := h.cell_zero (strictWeakOrder_compare mem) hi
  rw [compare_iff, cell_eq_getElem hi] at hnot
  omega

theorem cell_zero_mem {l : List ℕ} (hl : 0 < l.length) : cell l 0 ∈ l := by
  rw [cell_eq_getElem hl]
  exact List.getElem_mem hl

/-- The only entry with the access time zero is popped from the rebuilt heap: nothing in the heap is
before the front. -/
theorem popHeap_makeHeap_eq {mem : ℕ → BlockCacheData} {heap : List ℕ} {p : ℕ} (hp : p ∈ heap)
    (hzero : (mem p).atime = 0) (hpos : ∀ q ∈ heap, q ≠ p → 0 < (mem q).atime.toNat) :
    ∃ init, popHeap (compare mem) (makeHeap (compare mem) heap) = init ++ [p] ∧
      (p :: init).Perm heap := by
  have hheap := makeHeap_perm (compare mem) heap
  have hp' : p ∈ makeHeap (compare mem) heap := hheap.mem_iff.2 hp
  obtain ⟨init, hpop, hperm⟩ := popHeap_eq (compare mem)
    (l := makeHeap (compare mem) heap) (List.ne_nil_of_mem hp')
  have hfront : cell (makeHeap (compare mem) heap) 0 = p := by
    by_contra hne
    have hle := front_le (isHeap_makeHeap (strictWeakOrder_compare mem) heap) hp'
    have hin := cell_zero_mem (List.length_pos_of_mem hp')
    rw [hzero] at hle
    exact absurd (hpos _ (hheap.mem_iff.1 hin) hne) (Nat.not_lt.2 hle)
  rw [hfront] at hpop hperm
  exact ⟨init, hpop, hperm.trans hheap⟩

end LRUCache

/-! ### The map -/

/-- The map has the pointers of the heap, each of them under the key of its entry. -/
def Indexes (map : Std.ExtTreeMap Str ℕ) (heap : List ℕ) (mem : ℕ → BlockCacheData) : Prop :=
  ∀ (k : Str) (p : ℕ), map[k]? = some p ↔ p ∈ heap ∧ (mem p).key = k

namespace Indexes

variable {map : Std.ExtTreeMap Str ℕ} {heap heap' : List ℕ} {mem mem' : ℕ → BlockCacheData}
  {k : Str} {p q : ℕ}

/-- Pointers of one key are the same. -/
theorem key_inj (h : Indexes map heap mem) (hp : p ∈ heap) (hq : q ∈ heap)
    (hkey : (mem p).key = (mem q).key) : p = q := by
  have hp' := (h (mem q).key p).2 ⟨hp, hkey⟩
  have hq' := (h (mem q).key q).2 ⟨hq, rfl⟩
  exact Option.some.inj (hp'.symm.trans hq')

/-- A key that is not in the map has no pointer. -/
theorem key_ne (h : Indexes map heap mem) (hk : map[k]? = none) (hp : p ∈ heap) :
    (mem p).key ≠ k := by
  intro hkey
  rw [(h k p).2 ⟨hp, hkey⟩] at hk
  exact Option.some_ne_none p hk

/-- A new pointer. -/
theorem insert (h : Indexes map heap mem) (hk : map[k]? = none) (hheap : heap'.Perm (p :: heap))
    (hkey : (mem' p).key = k) (hkeys : ∀ q ∈ heap, (mem' q).key = (mem q).key) :
    Indexes (map.insert k p) heap' mem' := by
  intro k' q
  rw [getElem?_insert_ite, hheap.mem_iff, List.mem_cons]
  split_ifs with hk'
  · rw [Option.some.injEq, hk']
    constructor
    · rintro rfl
      exact ⟨Or.inl rfl, hkey⟩
    · rintro ⟨rfl | hq, hqk⟩
      · rfl
      · exact absurd ((hkeys q hq).symm.trans hqk) (h.key_ne hk hq)
  · rw [h k' q]
    constructor
    · rintro ⟨hq, hqk⟩
      exact ⟨Or.inr hq, (hkeys q hq).trans hqk⟩
    · rintro ⟨rfl | hq, hqk⟩
      · exact absurd (hqk.symm.trans hkey) hk'
      · exact ⟨hq, (hkeys q hq).symm.trans hqk⟩

/-- A pointer that leaves. -/
theorem erase (h : Indexes map heap mem) (hp : map[k]? = some p)
    (hheap : (p :: heap').Perm heap) (hnot : p ∉ heap')
    (hkeys : ∀ q ∈ heap', (mem' q).key = (mem q).key) : Indexes (map.erase k) heap' mem' := by
  obtain ⟨hmem, hkey⟩ := (h k p).1 hp
  have hsub : ∀ q ∈ heap', q ∈ heap := fun q hq => hheap.mem_iff.1 (List.mem_cons_of_mem p hq)
  intro k' q
  rw [getElem?_erase_ite]
  split_ifs with hk'
  · refine iff_of_false id ?_
    rintro ⟨hq, hqk⟩
    have hsame : (mem q).key = (mem p).key := by rw [← hkeys q hq, hqk, hk', hkey]
    exact hnot (h.key_inj (hsub q hq) hmem hsame ▸ hq)
  · rw [h k' q, ← hheap.mem_iff, List.mem_cons]
    constructor
    · rintro ⟨rfl | hq, hqk⟩
      · exact absurd (hqk.symm.trans hkey) hk'
      · exact ⟨hq, (hkeys q hq).trans hqk⟩
    · rintro ⟨hq, hqk⟩
      exact ⟨Or.inr hq, (hkeys q hq).symm.trans hqk⟩

/-- The order of the heap does not matter, and of an entry only its key does. -/
theorem congr (h : Indexes map heap mem) (hheap : heap'.Perm heap)
    (hkeys : ∀ q, (mem' q).key = (mem q).key) : Indexes map heap' mem' := by
  intro k q
  rw [hheap.mem_iff, hkeys]
  exact h k q

end Indexes

namespace Reference

theorem lookup_invalidate_self (r : Reference) (k : Str) : (r.invalidate k).lookup k = none := by
  simp [lookup, invalidate, others, List.find?_eq_none]

theorem lookup_ne_none {r : Reference} {e : Str × List UInt8} (h : e ∈ r.entries) :
    r.lookup e.1 ≠ none := by
  rw [lookup, ne_eq, Option.map_eq_none_iff, List.find?_eq_none]
  exact fun hnone => hnone e h (decide_eq_true rfl)

end Reference

/-- The pointers `ps`, the most recently used first, are the entries of the reference. -/
structure Refines (c : LRUCache) (r : Reference) (ps : List ℕ) : Prop where
  perm : ps.Perm c.heap
  sorted : ps.Pairwise fun p q => c.time q < c.time p
  entries_eq : r.entries = ps.map c.entry
  size_eq : r.size = c.size
  map_iff : ∀ (k : Str) (p : ℕ), c.map[k]? = some p ↔ p ∈ c.heap ∧ (c.mem p).key = k
  time_pos : ∀ p ∈ c.heap, 0 < c.time p
  time_lt : ∀ p ∈ c.heap, c.time p < c.timeCnt.toNat
  fresh : ∀ p ∈ c.heap, p < c.next
  clock_pos : 0 < c.timeCnt.toNat

namespace Refines

variable {c : LRUCache} {r : Reference} {ps : List ℕ} {k : Str} {p q : ℕ}

theorem create (size : ℕ) : Refines (LRUCache.create size) (Reference.create size) [] := by
  constructor <;> simp [LRUCache.create, Reference.create]

theorem nodup (h : Refines c r ps) : ps.Nodup :=
  h.sorted.imp fun hlt heq => by simp [heq] at hlt

theorem indexes (h : Refines c r ps) : Indexes c.map c.heap c.mem := h.map_iff

/-- The other entries of the reference are those of the other pointers. -/
theorem others_eq (h : Refines c r ps) (hp : c.map[k]? = some p) :
    r.others k = (ps.erase p).map c.entry := by
  obtain ⟨hmem, hkey⟩ := (h.map_iff k p).1 hp
  rw [Reference.others, h.entries_eq, h.nodup.erase_eq_filter, List.filter_map]
  congr 1
  refine List.filter_congr fun q hq => ?_
  have hq' : q ∈ c.heap := h.perm.mem_iff.1 hq
  have hiff : (c.mem q).key = k ↔ q = p :=
    ⟨fun heq => h.indexes.key_inj hq' hmem (heq.trans hkey.symm), fun heq => heq ▸ hkey⟩
  simp [LRUCache.entry, hiff, bne, beq_eq_decide]

/-- A key that is not in the cache has no pointer. -/
theorem key_ne (h : Refines c r ps) (hk : c.map[k]? = none) (hp : p ∈ ps) : (c.mem p).key ≠ k :=
  h.indexes.key_ne hk (h.perm.mem_iff.1 hp)

theorem others_eq_of_none (h : Refines c r ps) (hk : c.map[k]? = none) :
    r.others k = ps.map c.entry := by
  rw [Reference.others, h.entries_eq, List.filter_eq_self]
  intro e he
  obtain ⟨q, hq, rfl⟩ := List.mem_map.1 he
  exact decide_eq_true (h.key_ne hk hq)

/-- The cache and the reference hold the same data for every key. -/
theorem lookup_eq (h : Refines c r ps) (k : Str) : c.lookup k = r.lookup k := by
  rw [LRUCache.lookup, Reference.lookup, h.entries_eq]
  cases hk : c.map[k]? with
  | none =>
    have hnone : (ps.map c.entry).find? (fun e => e.1 = k) = none := by
      rw [List.find?_eq_none]
      intro e he
      obtain ⟨q, hq, rfl⟩ := List.mem_map.1 he
      exact fun heq => h.key_ne hk hq (of_decide_eq_true heq)
    rw [hnone]
    rfl
  | some p =>
    obtain ⟨hmem, hkey⟩ := (h.map_iff k p).1 hk
    have hsome : ((ps.map c.entry).find? fun e => e.1 = k).isSome := by
      rw [List.find?_isSome]
      exact ⟨c.entry p, List.mem_map_of_mem (h.perm.mem_iff.2 hmem), decide_eq_true hkey⟩
    obtain ⟨e, he⟩ := Option.isSome_iff_exists.1 hsome
    obtain ⟨q, hq, rfl⟩ := List.mem_map.1 (List.mem_of_find?_eq_some he)
    have hqk : (c.entry q).1 = k := by simpa using List.find?_some he
    obtain rfl : q = p := h.indexes.key_inj (h.perm.mem_iff.1 hq) hmem (hqk.trans hkey.symm)
    rw [he]
    rfl

/-- An access through the pointer `p` makes its entry the most recently used one. -/
theorem touch (h : Refines c r ps) (hclock : c.ClockRuns) (hp : c.map[k]? = some p)
    (data : List UInt8) {heap : List ℕ} (hheap : heap.Perm c.heap) :
    Refines { c with
      mem := Function.update c.mem p { c.mem p with atime := c.timeCnt, data := data }
      timeCnt := c.timeCnt + 1
      heap := heap } { r with entries := (k, data) :: r.others k } (p :: ps.erase p) := by
  obtain ⟨hmem, hkey⟩ := (h.map_iff k p).1 hp
  have hps : p ∈ ps := h.perm.mem_iff.2 hmem
  have hne : ∀ q ∈ ps.erase p, q ≠ p := fun q hq => ((h.nodup.mem_erase_iff).1 hq).1
  have htick := hclock.tick
  set c' : LRUCache := { c with
      mem := Function.update c.mem p { c.mem p with atime := c.timeCnt, data := data }
      timeCnt := c.timeCnt + 1
      heap := heap } with hc'
  have hmem_p : c'.mem p = { c.mem p with atime := c.timeCnt, data := data } :=
    Function.update_self p _ _
  have hmem_ne : ∀ q, q ≠ p → c'.mem q = c.mem q := fun q hq => Function.update_of_ne hq _ _
  have hkeys : ∀ q, (c'.mem q).key = (c.mem q).key := by
    intro q
    by_cases hq : q = p
    · rw [hq, hmem_p]
    · rw [hmem_ne q hq]
  refine ⟨?_, ?_, ?_, h.size_eq, h.indexes.congr hheap hkeys, fun q hq => ?_, fun q hq => ?_,
    fun q hq => ?_, ?_⟩
  · exact ((List.perm_cons_erase hps).symm.trans h.perm).trans hheap.symm
  · refine List.pairwise_cons.2 ⟨fun q hq => ?_, ?_⟩
    · rw [LRUCache.time, LRUCache.time, hmem_p, hmem_ne q (hne q hq)]
      exact h.time_lt q (h.perm.mem_iff.1 (List.mem_of_mem_erase hq))
    · refine (h.sorted.sublist List.erase_sublist).imp_of_mem fun {a b} ha hb hab => ?_
      rw [LRUCache.time, LRUCache.time, hmem_ne a (hne a ha), hmem_ne b (hne b hb)]
      exact hab
  · have hentry : c'.entry p = (k, data) := by
      rw [LRUCache.entry, hmem_p]
      exact Prod.ext hkey rfl
    have hrest : (ps.erase p).map c.entry = (ps.erase p).map c'.entry := by
      refine List.map_congr_left fun q hq => ?_
      rw [LRUCache.entry, LRUCache.entry, hmem_ne q (hne q hq)]
    rw [List.map_cons, hentry, h.others_eq hp, hrest]
  · by_cases hqp : q = p
    · rw [hqp, LRUCache.time, hmem_p]
      exact h.clock_pos
    · rw [LRUCache.time, hmem_ne q hqp]
      exact h.time_pos q (hheap.mem_iff.1 hq)
  · by_cases hqp : q = p
    · rw [hqp, LRUCache.time, hmem_p, htick]
      exact Nat.lt_succ_self _
    · rw [LRUCache.time, hmem_ne q hqp, htick]
      exact (h.time_lt q (hheap.mem_iff.1 hq)).trans (Nat.lt_succ_self _)
  · exact h.fresh q (hheap.mem_iff.1 hq)
  · rw [htick]
    exact Nat.succ_pos _

/-- `get` of a key in the cache. -/
theorem get_hit (h : Refines c r ps) (hclock : c.ClockRuns) (hp : c.map[k]? = some p) :
    Refines (c.get k).1 (r.get k).1 (p :: ps.erase p) ∧ (c.get k).2 = (r.get k).2 := by
  have hlookup : r.lookup k = some (c.mem p).data := by
    rw [← h.lookup_eq, LRUCache.lookup, hp]
    rfl
  rw [LRUCache.get, Reference.get, hp, hlookup]
  refine ⟨h.touch hclock hp (c.mem p).data (makeHeap_perm _ _), ?_⟩
  simp only [Function.update_self]

theorem get_miss (h : Refines c r ps) (hk : c.map[k]? = none) :
    Refines (c.get k).1 (r.get k).1 ps ∧ (c.get k).2 = (r.get k).2 := by
  have hlookup : r.lookup k = none := by
    rw [← h.lookup_eq, LRUCache.lookup, hk]
    rfl
  rw [LRUCache.get, Reference.get, hk, hlookup]
  exact ⟨h, rfl⟩

/-- `put` on a key in the cache. -/
theorem put_hit (h : Refines c r ps) (hlen : c.heap.length ≤ c.size) (hclock : c.ClockRuns)
    (hp : c.map[k]? = some p) (data : List UInt8) :
    Refines (c.put k data) (r.put k data) (p :: ps.erase p) := by
  have htouch := h.touch hclock hp data (List.Perm.refl c.heap)
  have hlen' : ((k, data) :: r.others k).length ≤ r.size := by
    have hps : p ∈ ps := h.perm.mem_iff.2 ((h.map_iff k p).1 hp).1
    rw [h.others_eq hp, h.size_eq, List.length_cons, List.length_map, List.length_erase_of_mem hps,
      h.perm.length_eq]
    have := List.length_pos_of_mem (h.perm.mem_iff.1 hps)
    omega
  rw [LRUCache.put, Reference.put, hp, List.take_of_length_le hlen']
  exact htouch

/-- The entry of the pointer `p` leaves the cache. -/
theorem forget (h : Refines c r ps) (hp : c.map[k]? = some p) {mem : ℕ → BlockCacheData}
    (hmem : ∀ q, q ≠ p → mem q = c.mem q) {heap : List ℕ} (hheap : (p :: heap).Perm c.heap) :
    Refines { c with map := c.map.erase k, mem := mem, heap := heap }
      { r with entries := r.others k } (ps.erase p) := by
  have hps : p ∈ ps := h.perm.mem_iff.2 ((h.map_iff k p).1 hp).1
  have hne : ∀ q ∈ ps.erase p, q ≠ p := fun q hq => ((h.nodup.mem_erase_iff).1 hq).1
  have hperm : (ps.erase p).Perm heap :=
    List.Perm.cons_inv ((List.perm_cons_erase hps).symm.trans (h.perm.trans hheap.symm))
  have hsub : ∀ q ∈ heap, q ∈ c.heap ∧ q ≠ p := fun q hq =>
    ⟨hheap.mem_iff.1 (List.mem_cons_of_mem p hq), hne q (hperm.mem_iff.2 hq)⟩
  refine ⟨hperm, ?_, ?_, h.size_eq, ?_, fun q hq => ?_, fun q hq => ?_,
    fun q hq => h.fresh q (hsub q hq).1, h.clock_pos⟩
  · refine (h.sorted.sublist List.erase_sublist).imp_of_mem fun {a b} ha hb hab => ?_
    simp only [LRUCache.time, hmem a (hne a ha), hmem b (hne b hb)]
    exact hab
  · rw [h.others_eq hp]
    refine List.map_congr_left fun q hq => ?_
    simp only [LRUCache.entry, hmem q (hne q hq)]
  · exact h.indexes.erase hp hheap (fun hin => (hsub p hin).2 rfl) fun q hq =>
      congrArg BlockCacheData.key (hmem q (hsub q hq).2)
  · simp only [LRUCache.time, hmem q (hsub q hq).2]
    exact h.time_pos q (hsub q hq).1
  · simp only [LRUCache.time, hmem q (hsub q hq).2]
    exact h.time_lt q (hsub q hq).1

/-- A new entry enters the cache. -/
theorem insert (h : Refines c r ps) (hclock : c.ClockRuns) (hk : c.map[k]? = none)
    (data : List UInt8) {heap : List ℕ} (hheap : heap.Perm (c.next :: c.heap)) :
    Refines { c with
      mem := Function.update c.mem c.next ⟨k, data, c.timeCnt⟩
      timeCnt := c.timeCnt + 1
      next := c.next + 1
      heap := heap
      map := c.map.insert k c.next } { r with entries := (k, data) :: r.entries }
      (c.next :: ps) := by
  have htick := hclock.tick
  have hne : ∀ q ∈ c.heap, q ≠ c.next := fun q hq => (h.fresh q hq).ne
  set mem := Function.update c.mem c.next ⟨k, data, c.timeCnt⟩ with hmem
  have hmem_new : mem c.next = ⟨k, data, c.timeCnt⟩ := Function.update_self _ _ _
  have hmem_ne : ∀ q ∈ c.heap, mem q = c.mem q := fun q hq => Function.update_of_ne (hne q hq) _ _
  have hmem_ps : ∀ q ∈ ps, mem q = c.mem q := fun q hq => hmem_ne q (h.perm.mem_iff.1 hq)
  have hcases : ∀ q ∈ heap, q = c.next ∨ q ∈ c.heap := fun q hq =>
    List.mem_cons.1 (hheap.mem_iff.1 hq)
  refine ⟨(h.perm.cons _).trans hheap.symm, ?_, ?_, h.size_eq, ?_, fun q hq => ?_,
    fun q hq => ?_, fun q hq => ?_, ?_⟩
  · refine List.pairwise_cons.2 ⟨fun q hq => ?_, ?_⟩
    · simp only [LRUCache.time, hmem_new, hmem_ps q hq]
      exact h.time_lt q (h.perm.mem_iff.1 hq)
    · refine h.sorted.imp_of_mem fun {a b} ha hb hab => ?_
      simp only [LRUCache.time, hmem_ps a ha, hmem_ps b hb]
      exact hab
  · have hrest : ps.map c.entry = ps.map fun q => ((mem q).key, (mem q).data) := by
      refine List.map_congr_left fun q hq => ?_
      rw [LRUCache.entry, hmem_ps q hq]
    simp only [List.map_cons, LRUCache.entry, hmem_new, List.cons.injEq, true_and]
    rw [h.entries_eq, hrest]
    rfl
  · exact h.indexes.insert hk hheap (congrArg BlockCacheData.key hmem_new) fun q hq =>
      congrArg BlockCacheData.key (hmem_ne q hq)
  · rcases hcases q hq with rfl | hq
    · simp only [LRUCache.time, hmem_new]
      exact h.clock_pos
    · simp only [LRUCache.time, hmem_ne q hq]
      exact h.time_pos q hq
  · rw [htick]
    rcases hcases q hq with rfl | hq
    · simp only [LRUCache.time, hmem_new]
      omega
    · have := h.time_lt q hq
      simp only [LRUCache.time, hmem_ne q hq] at this ⊢
      omega
  · rcases hcases q hq with rfl | hq
    · exact Nat.lt_succ_self _
    · exact (h.fresh q hq).trans (Nat.lt_succ_self _)
  · rw [htick]
    exact Nat.succ_pos _

/-- The pointer of a new entry stays at the end of the heap: its access time is the greatest. -/
theorem pushHeap_eq (h : Refines c r ps) (k : Str) (data : List UInt8) :
    pushHeap (LRUCache.compare (Function.update c.mem c.next ⟨k, data, c.timeCnt⟩))
      (c.heap ++ [c.next]) = c.heap ++ [c.next] := by
  refine pushHeap_of_not_less _ fun q hq => ?_
  have hlt := h.time_lt q hq
  simp only [LRUCache.compare, Function.update_self, Function.update_of_ne (h.fresh q hq).ne,
    gt_iff_lt, decide_eq_true_eq, UInt64.lt_iff_toNat_lt]
  exact Nat.not_lt.2 hlt.le

/-- An insertion below the capacity. -/
theorem put_miss (h : Refines c r ps) (hclock : c.ClockRuns) (hk : c.map[k]? = none)
    (data : List UInt8) (hlen : c.heap.length < c.size) :
    Refines (c.put k data) (r.put k data) (c.next :: ps) := by
  have hpush := h.pushHeap_eq k data
  have htake : ((k, data) :: r.others k).take r.size = (k, data) :: r.entries := by
    rw [h.others_eq_of_none hk, ← h.entries_eq, List.take_of_length_le]
    rw [h.entries_eq, h.size_eq, List.length_cons, List.length_map, h.perm.length_eq]
    omega
  have hnot : ¬ (c.heap ++ [c.next]).length > c.size := by
    rw [List.length_append, List.length_singleton]
    omega
  simp only [LRUCache.put, Reference.put, hk, hpush, if_neg hnot, htake]
  exact h.insert hclock hk data (List.perm_append_singleton _ _)

/-- An insertion into a full cache evicts the entry in front of the heap. -/
theorem put_full (h : Refines c r ps) (hclock : c.ClockRuns) (hk : c.map[k]? = none)
    (data : List UInt8) (hpos : 0 < c.heap.length) (hlen : c.size ≤ c.heap.length) :
    Refines (c.put k data)
      (Reference.invalidate { r with entries := (k, data) :: r.entries }
        (c.mem (cell c.heap 0)).key)
      ((c.next :: ps).erase (cell c.heap 0)) := by
  have hfront := LRUCache.cell_zero_mem hpos
  have hpush := h.pushHeap_eq k data
  have hfull : (c.heap ++ [c.next]).length > c.size := by
    rw [List.length_append, List.length_singleton]
    omega
  obtain ⟨init, hpop, hperm⟩ := popHeap_eq
    (LRUCache.compare (Function.update c.mem c.next ⟨k, data, c.timeCnt⟩))
    (l := c.heap ++ [c.next]) (by simp)
  rw [cell_append hpos] at hpop hperm
  have hmem : Function.update c.mem c.next ⟨k, data, c.timeCnt⟩ (cell c.heap 0) =
      c.mem (cell c.heap 0) := Function.update_of_ne (h.fresh _ hfront).ne _ _
  have hinsert := h.insert hclock hk data (List.perm_append_singleton c.next c.heap)
  simp only [LRUCache.put, hk, hpush, if_pos hfull, hpop, List.dropLast_concat,
    List.getLastD_concat, hmem]
  refine hinsert.forget ?_ (fun q _ => rfl) hperm
  rw [hinsert.map_iff]
  exact ⟨List.mem_append_left _ hfront, congrArg BlockCacheData.key hmem⟩

/-- `invalidate` of a key in the cache: its entry has the least access time, so it is the one that
is popped. -/
theorem invalidate_hit (h : Refines c r ps) (hp : c.map[k]? = some p) :
    Refines (c.invalidate k) (r.invalidate k) (ps.erase p) := by
  obtain ⟨hmem, hkey⟩ := (h.map_iff k p).1 hp
  simp only [LRUCache.invalidate, hp]
  set mem := Function.update c.mem p { c.mem p with atime := 0 } with hmemdef
  have hmem_p : (mem p).atime = 0 := by rw [hmemdef, Function.update_self]
  have hmem_ne : ∀ q, q ≠ p → mem q = c.mem q := fun q hq => Function.update_of_ne hq _ _
  obtain ⟨init, hpop, hperm⟩ := LRUCache.popHeap_makeHeap_eq hmem hmem_p fun q hq hne => by
    rw [hmem_ne q hne]
    exact h.time_pos q hq
  rw [hpop, List.dropLast_concat]
  exact h.forget hp hmem_ne hperm

theorem invalidate_miss (h : Refines c r ps) (hk : c.map[k]? = none) :
    Refines (c.invalidate k) (r.invalidate k) ps := by
  have hothers : r.invalidate k = r := by
    rw [Reference.invalidate, h.others_eq_of_none hk, ← h.entries_eq]
  rw [LRUCache.invalidate, hk, hothers]
  exact h

/-- An insertion into a full reference. -/
theorem entries_put_full (h : Refines c r ps) (hk : c.map[k]? = none) (data : List UInt8)
    (hlen : c.heap.length = c.size) :
    (r.put k data).entries = ((k, data) :: ps.map c.entry).take ps.length := by
  rw [Reference.put, h.others_eq_of_none hk, h.size_eq, ← hlen, h.perm.length_eq]

/-- With the least entry in front of the heap, the reference evicts the same entry. -/
theorem put_eq_of_least (h : Refines c r ps) (hk : c.map[k]? = none) (data : List UInt8)
    (hpos : 0 < c.heap.length) (hlen : c.heap.length = c.size)
    (hleast : ∀ p ∈ c.heap, c.time (cell c.heap 0) ≤ c.time p) :
    Reference.invalidate { r with entries := (k, data) :: r.entries }
      (c.mem (cell c.heap 0)).key = r.put k data := by
  have hfront := LRUCache.cell_zero_mem hpos
  set f := cell c.heap 0 with hf
  obtain ⟨pre, post, hps⟩ := List.append_of_mem (h.perm.mem_iff.2 hfront)
  -- The entries after the front one would have smaller access times.
  have hpost : post = [] := by
    rw [List.eq_nil_iff_forall_not_mem]
    intro q hq
    have hsorted := h.sorted
    rw [hps, List.pairwise_append, List.pairwise_cons] at hsorted
    have hlt := hsorted.2.1.1 q hq
    have hle := hleast q (h.perm.mem_iff.1 (by simp [hps, hq]))
    omega
  rw [hpost] at hps
  have hnodup := h.nodup
  have hkeep : ∀ q ∈ pre, (c.mem q).key ≠ (c.mem f).key := by
    intro q hq hkey
    have hqf := h.indexes.key_inj (h.perm.mem_iff.1 (by simp [hps, hq])) hfront hkey
    rw [hps, List.nodup_append] at hnodup
    exact hnodup.2.2 q hq f (by simp) hqf
  have hkf : k ≠ (c.mem f).key := Ne.symm (h.key_ne hk (h.perm.mem_iff.2 hfront))
  have hentries := h.entries_put_full hk data hlen
  have hfilter : (pre.map c.entry).filter (fun e => e.1 ≠ (c.mem f).key) = pre.map c.entry := by
    rw [List.filter_eq_self]
    intro e he
    obtain ⟨q, hq, rfl⟩ := List.mem_map.1 he
    exact decide_eq_true (hkeep q hq)
  have hothers : Reference.others { r with entries := (k, data) :: r.entries } (c.mem f).key =
      (k, data) :: pre.map c.entry := by
    simp only [Reference.others, h.entries_eq, hps, List.map_append, List.filter_append,
      List.filter_cons, hfilter, hkf, ne_eq, not_false_eq_true, decide_true, if_true,
      List.map_cons, List.map_nil, LRUCache.entry, not_true_eq_false, decide_false,
      Bool.false_eq_true, if_false, List.filter_nil, List.append_nil]
  have htake : (r.put k data).entries = (k, data) :: pre.map c.entry := by
    rw [hentries, hps, List.length_append, List.length_singleton, List.take_succ_cons,
      List.map_append, List.take_left' (List.length_map _)]
  exact congrArg (Reference.mk r.size) (hothers.trans htake.symm)

/-- Without the least entry in front of the heap, the cache loses an entry that the reference
keeps. -/
theorem lookup_ne_of_not_least (h : Refines c r ps) (hclock : c.ClockRuns) (hk : c.map[k]? = none)
    (data : List UInt8) (hpos : 0 < c.heap.length) (hlen : c.heap.length = c.size)
    (hq : q ∈ c.heap) (hlt : c.time q < c.time (cell c.heap 0)) :
    (c.put k data).lookup (c.mem (cell c.heap 0)).key ≠
      (r.put k data).lookup (c.mem (cell c.heap 0)).key := by
  have hfront := LRUCache.cell_zero_mem hpos
  have hevicted := (h.put_full hclock hk data hpos hlen.ge).lookup_eq (c.mem (cell c.heap 0)).key
  rw [Reference.lookup_invalidate_self] at hevicted
  set f := cell c.heap 0 with hf
  obtain ⟨pre, post, hps⟩ := List.append_of_mem (h.perm.mem_iff.2 hfront)
  -- `q` is used less recently than the front entry, so it comes after it.
  have hpost : q ∈ post := by
    have hsorted := h.sorted
    have hqps := h.perm.mem_iff.2 hq
    rw [hps, List.pairwise_append] at hsorted
    rw [hps, List.mem_append, List.mem_cons] at hqps
    rcases hqps with hqpre | rfl | hqpost
    · have := hsorted.2.2 q hqpre f (by simp)
      omega
    · omega
    · exact hqpost
  have hkept : c.entry f ∈ (r.put k data).entries := by
    have hlen' : ps.length = pre.length + 1 + (post.length - 1) + 1 := by
      have := List.length_pos_of_mem hpost
      rw [hps, List.length_append, List.length_cons]
      omega
    have hsplit : ps.map c.entry = (pre ++ [f]).map c.entry ++ post.map c.entry := by
      rw [hps, ← List.map_append, List.append_assoc, List.singleton_append]
    rw [h.entries_put_full hk data hlen, hlen', List.take_succ_cons, hsplit, List.take_append]
    refine List.mem_cons_of_mem _ (List.mem_append_left _ ?_)
    rw [List.take_of_length_le (by simp)]
    exact List.mem_map_of_mem (by simp)
  rw [hevicted]
  exact fun heq => Reference.lookup_ne_none hkept heq.symm

end Refines

/-! ### Runs -/

/-- The cache and the reference show the same to their callers. -/
def Agree (s : Observed LRUCache) (t : Observed Reference) : Prop :=
  (∀ k, s.cache.lookup k = t.cache.lookup k) ∧ s.results = t.results

/-- The cache, within its capacity, refines the reference. -/
def Related (s : Observed LRUCache) (t : Observed Reference) : Prop :=
  (∃ ps, Refines s.cache t.cache ps) ∧ s.cache.heap.length ≤ s.cache.size ∧ 1 ≤ s.cache.size ∧
    s.results = t.results

theorem Related.agree {s : Observed LRUCache} {t : Observed Reference} (h : Related s t) :
    Agree s t := by
  obtain ⟨⟨ps, hps⟩, -, -, hres⟩ := h
  exact ⟨hps.lookup_eq, hres⟩

theorem Related.create {size : ℕ} (hsize : 1 ≤ size) :
    Related ⟨LRUCache.create size, []⟩ ⟨Reference.create size, []⟩ :=
  ⟨⟨[], Refines.create size⟩, Nat.zero_le _, hsize, rfl⟩

namespace LRUCache

theorem size_put (c : LRUCache) (k : Str) (data : List UInt8) : (c.put k data).size = c.size := by
  simp only [put]
  split
  · rfl
  · split_ifs <;> rfl

theorem size_get (c : LRUCache) (k : Str) : (c.get k).1.size = c.size := by
  simp only [get]
  split <;> rfl

theorem size_invalidate (c : LRUCache) (k : Str) : (c.invalidate k).size = c.size := by
  simp only [invalidate]
  split <;> rfl

end LRUCache

/-- `put` on a cache that evicts, if at all, the least recently used entry. -/
theorem Refines.put {c : LRUCache} {r : Reference} {ps : List ℕ} {k : Str} {data : List UInt8}
    (h : Refines c r ps) (hlen : c.heap.length ≤ c.size) (hsize : 1 ≤ c.size)
    (hclock : c.ClockRuns) (hleast : c.FrontLeast (.put k data)) :
    ∃ ps', Refines (c.put k data) (r.put k data) ps' ∧ ps'.length ≤ c.size := by
  cases hk : c.map[k]? with
  | some p =>
    have hp : p ∈ ps := h.perm.mem_iff.2 ((h.map_iff k p).1 hk).1
    refine ⟨_, h.put_hit hlen hclock hk data, ?_⟩
    rw [← (List.perm_cons_erase hp).length_eq, h.perm.length_eq]
    exact hlen
  | none =>
    rcases Nat.lt_or_ge c.heap.length c.size with hlt | hge
    · refine ⟨_, h.put_miss hclock hk data hlt, ?_⟩
      rw [List.length_cons, h.perm.length_eq]
      exact hlt
    · have hnot : k ∉ c.map := by simp [← Std.ExtTreeMap.isSome_getElem?_iff_mem, hk]
      have hpos : 0 < c.heap.length := Nat.lt_of_lt_of_le hsize hge
      have hfront := LRUCache.cell_zero_mem hpos
      have hput := h.put_full hclock hk data hpos hge
      rw [h.put_eq_of_least hk data hpos (hlen.antisymm hge) (hleast hnot hge)] at hput
      refine ⟨_, hput, ?_⟩
      rw [List.length_erase_of_mem (List.mem_cons_of_mem _ (h.perm.mem_iff.2 hfront)),
        List.length_cons, h.perm.length_eq]
      exact hlen

theorem Refines.get {c : LRUCache} {r : Reference} {ps : List ℕ} (h : Refines c r ps)
    (hclock : c.ClockRuns) (k : Str) :
    ∃ ps', (Refines (c.get k).1 (r.get k).1 ps' ∧ ps'.length = ps.length) ∧
      (c.get k).2 = (r.get k).2 := by
  cases hk : c.map[k]? with
  | some p =>
    have hp : p ∈ ps := h.perm.mem_iff.2 ((h.map_iff k p).1 hk).1
    obtain ⟨hget, hres⟩ := h.get_hit hclock hk
    exact ⟨_, ⟨hget, (List.perm_cons_erase hp).length_eq.symm⟩, hres⟩
  | none =>
    obtain ⟨hget, hres⟩ := h.get_miss hk
    exact ⟨ps, ⟨hget, rfl⟩, hres⟩

theorem Refines.invalidate {c : LRUCache} {r : Reference} {ps : List ℕ} (h : Refines c r ps)
    (k : Str) : ∃ ps', Refines (c.invalidate k) (r.invalidate k) ps' ∧ ps'.length ≤ ps.length := by
  cases hk : c.map[k]? with
  | some p => exact ⟨_, h.invalidate_hit hk, List.erase_sublist.length_le⟩
  | none => exact ⟨ps, h.invalidate_miss hk, le_rfl⟩

/-- One call keeps the relation when it meets the condition. -/
theorem Related.step {s : Observed LRUCache} {t : Observed Reference} (h : Related s t) {op : Op}
    (hclock : s.cache.ClockRuns) (hleast : s.cache.FrontLeast op) :
    ∃ s' t', LRUCache.step s op = some s' ∧ Reference.step t op = some t' ∧ Related s' t' := by
  obtain ⟨⟨ps, hps⟩, hlen, hsize, hres⟩ := h
  have hlen' := hps.perm.length_eq
  cases op with
  | put k data =>
    obtain ⟨ps', hput, hle⟩ := hps.put hlen hsize hclock hleast
    refine ⟨_, _, rfl, rfl, ⟨ps', hput⟩, ?_, ?_, hres⟩
    · rw [LRUCache.size_put, ← hput.perm.length_eq]
      exact hle
    · rw [LRUCache.size_put]
      exact hsize
  | get k =>
    obtain ⟨ps', ⟨hget, hle⟩, hdata⟩ := hps.get hclock k
    refine ⟨_, _, rfl, rfl, ⟨ps', hget⟩, ?_, ?_, ?_⟩
    · rw [LRUCache.size_get, ← hget.perm.length_eq]
      omega
    · rw [LRUCache.size_get]
      exact hsize
    · rw [hdata, hres]
  | invalidate k =>
    obtain ⟨ps', hinv, hle⟩ := hps.invalidate k
    refine ⟨_, _, rfl, rfl, ⟨ps', hinv⟩, ?_, ?_, hres⟩
    · rw [LRUCache.size_invalidate, ← hinv.perm.length_eq]
      omega
    · rw [LRUCache.size_invalidate]
      exact hsize

/-- A call that does not meet the condition makes the two differ. -/
theorem Related.frontLeast_of_agree {s s' : Observed LRUCache} {t t' : Observed Reference}
    (h : Related s t) {op : Op} (hclock : s.cache.ClockRuns) (hs : LRUCache.step s op = some s')
    (ht : Reference.step t op = some t') (hagree : Agree s' t') : s.cache.FrontLeast op := by
  obtain ⟨⟨ps, hps⟩, hlen, hsize, -⟩ := h
  cases op with
  | put k data =>
    intro hnot hge q hq
    by_contra hlt
    have hk : s.cache.map[k]? = none := Std.ExtTreeMap.getElem?_eq_none hnot
    simp only [LRUCache.step, Reference.step, Option.some.injEq] at hs ht
    refine hps.lookup_ne_of_not_least hclock hk data (Nat.lt_of_lt_of_le hsize hge)
      (hlen.antisymm hge) hq (Nat.lt_of_not_le hlt) ?_
    subst hs ht
    exact hagree.1 _
  | get k => trivial
  | invalidate k => trivial

/-- The relation holds at the end of every run whose steps meet the condition. -/
theorem related_exec {size : ℕ} (hsize : 1 ≤ size) {ops : List Op}
    (hclock : AllSteps LRUCache.step (fun s _ => s.cache.ClockRuns) ⟨LRUCache.create size, []⟩ ops)
    (hleast : AllSteps LRUCache.step (fun s op => s.cache.FrontLeast op)
      ⟨LRUCache.create size, []⟩ ops) :
    ∃ s t, exec LRUCache.step ⟨LRUCache.create size, []⟩ ops = some s ∧
      exec Reference.step ⟨Reference.create size, []⟩ ops = some t ∧ Related s t := by
  induction ops using List.reverseRecOn with
  | nil => exact ⟨_, _, rfl, rfl, Related.create hsize⟩
  | append_singleton ops op ih =>
    obtain ⟨hclock', hclockOp⟩ := allSteps_concat.1 hclock
    obtain ⟨hleast', hleastOp⟩ := allSteps_concat.1 hleast
    obtain ⟨s, t, hs, ht, hrel⟩ := ih hclock' hleast'
    obtain ⟨s', t', hs', ht', hrel'⟩ := hrel.step (hclockOp s hs) (hleastOp s hs)
    exact ⟨s', t', exec_concat_eq_some.2 ⟨s, hs, hs'⟩, exec_concat_eq_some.2 ⟨t, ht, ht'⟩, hrel'⟩

/-- **The cache against the reference.** In every run in which the access counter does not wrap
around, the cache and the reference hold the same data and have given the same results after
every call exactly when every insertion into a full cache finds the entry with the smallest access
time in front of the heap. -/
theorem lru_refines_iff (size : ℕ) (hsize : 1 ≤ size) (ops : List Op)
    (hclock : AllSteps LRUCache.step (fun s _ => s.cache.ClockRuns)
      ⟨LRUCache.create size, []⟩ ops) :
    (∀ pre, pre <+: ops → ∃ s t, exec LRUCache.step ⟨LRUCache.create size, []⟩ pre = some s ∧
        exec Reference.step ⟨Reference.create size, []⟩ pre = some t ∧ Agree s t) ↔
      AllSteps LRUCache.step (fun s op => s.cache.FrontLeast op)
        ⟨LRUCache.create size, []⟩ ops := by
  constructor
  · induction ops using List.reverseRecOn with
    | nil => exact fun _ => trivial
    | append_singleton ops op ih =>
      intro hagree
      obtain ⟨hclock', hclockOp⟩ := allSteps_concat.1 hclock
      have hleast := ih hclock' fun pre hpre => hagree pre (hpre.trans (List.prefix_append _ _))
      refine allSteps_concat.2 ⟨hleast, fun s hs => ?_⟩
      obtain ⟨s₀, t, hs₀, ht, hrel⟩ := related_exec hsize hclock' hleast
      obtain rfl : s₀ = s := Option.some.inj (hs₀.symm.trans hs)
      obtain ⟨s', t', hs', ht', hagree'⟩ := hagree _ List.prefix_rfl
      obtain ⟨s₁, hs₁, hstep⟩ := exec_concat_eq_some.1 hs'
      obtain ⟨t₁, ht₁, htstep⟩ := exec_concat_eq_some.1 ht'
      obtain rfl : s₁ = s₀ := Option.some.inj (hs₁.symm.trans hs)
      obtain rfl : t₁ = t := Option.some.inj (ht₁.symm.trans ht)
      exact hrel.frontLeast_of_agree (hclockOp _ hs) hstep htstep hagree'
  · rintro hleast pre ⟨post, rfl⟩
    obtain ⟨s, t, hs, ht, hrel⟩ :=
      related_exec hsize (allSteps_append.1 hclock).1 (allSteps_append.1 hleast).1
    exact ⟨s, t, hs, ht, hrel.agree⟩

instance LRUCache.FrontLeast.decidable (c : LRUCache) : (op : Op) → Decidable (c.FrontLeast op)
  | .put key _ => inferInstanceAs (Decidable (key ∉ c.map → c.size ≤ c.heap.length →
      ∀ p ∈ c.heap, c.time (cell c.heap 0) ≤ c.time p))
  | .get _ => isTrue trivial
  | .invalidate _ => isTrue trivial

instance LRUCache.ClockRuns.decidable (c : LRUCache) : Decidable c.ClockRuns :=
  inferInstanceAs (Decidable (c.timeCnt.toNat + 1 < 2 ^ 64))

/-- Calls on a cache of two entries: the first insertion into the full cache follows a `get`, the
second one an `invalidate`. -/
def evictions : List Op :=
  [.put (.ofString "a") [1], .put (.ofString "b") [2], .get (.ofString "a"),
    .put (.ofString "c") [3], .invalidate (.ofString "a"), .put (.ofString "d") [4],
    .put (.ofString "e") [5]]

theorem lru_refines_iff_evictions :
    AllSteps LRUCache.step (fun s op => s.cache.FrontLeast op) ⟨LRUCache.create 2, []⟩ evictions ∧
      ∀ pre, pre <+: evictions →
        ∃ s t, exec LRUCache.step ⟨LRUCache.create 2, []⟩ pre = some s ∧
          exec Reference.step ⟨Reference.create 2, []⟩ pre = some t ∧ Agree s t := by
  have hleast : AllSteps LRUCache.step (fun s op => s.cache.FrontLeast op)
      ⟨LRUCache.create 2, []⟩ evictions := by decide +kernel
  exact ⟨hleast, (lru_refines_iff 2 (by decide) evictions (by decide +kernel)).2 hleast⟩

/-- The third call replaces the data of the entry in front of the heap, which is then the most
recently used one and still in front. -/
def replaced : List Op :=
  [.put (.ofString "a") [1], .put (.ofString "b") [2], .put (.ofString "a") [3],
    .put (.ofString "c") [4]]

/-- The fourth call evicts the entry of `a`, where the least recently used one is that of `b`. -/
theorem lru_differs_replaced :
    ¬ ∀ pre, pre <+: replaced →
      ∃ s t, exec LRUCache.step ⟨LRUCache.create 2, []⟩ pre = some s ∧
        exec Reference.step ⟨Reference.create 2, []⟩ pre = some t ∧ Agree s t := by
  intro h
  obtain ⟨s, t, hs, ht, hagree, -⟩ := h replaced List.prefix_rfl
  have hcode : (exec LRUCache.step ⟨LRUCache.create 2, []⟩ replaced).map
      (fun s => s.cache.lookup (.ofString "a")) = some none := by decide +kernel
  have href : (exec Reference.step ⟨Reference.create 2, []⟩ replaced).map
      (fun t => t.cache.lookup (.ofString "a")) = some (some [3]) := by decide +kernel
  rw [hs, Option.map_some, hagree, Option.some.injEq] at hcode
  rw [ht, Option.map_some, hcode] at href
  simp at href

/-! ### Where the heap is in order -/

namespace LRUCache

/-- The heap is in order. -/
def Ordered (c : LRUCache) : Prop := IsHeap (compare c.mem) c.heap

/-- The call is a `put` on a key that is in the cache. -/
def Replaces (c : LRUCache) : Op → Prop
  | .put key _ => key ∈ c.map
  | _ => False

theorem frontLeast_of_ordered {c : LRUCache} (h : c.Ordered) (op : Op) : c.FrontLeast op := by
  cases op with
  | put k data => exact fun _ _ p hp => front_le h hp
  | get k => trivial
  | invalidate k => trivial

theorem ordered_get {c : LRUCache} (h : c.Ordered) (k : Str) : (c.get k).1.Ordered := by
  simp only [get]
  split
  · exact isHeap_makeHeap (strictWeakOrder_compare _) _
  · exact h

theorem ordered_invalidate {c : LRUCache} (h : c.Ordered) (k : Str) : (c.invalidate k).Ordered := by
  simp only [invalidate]
  split
  · exact isHeap_popHeap (strictWeakOrder_compare _)
      (isHeap_makeHeap (strictWeakOrder_compare _) _)
  · exact h

/-- An insertion keeps the heap in order. -/
theorem ordered_put {c : LRUCache} (h : c.Ordered) (hfresh : ∀ p ∈ c.heap, p < c.next) {k : Str}
    (hk : k ∉ c.map) (data : List UInt8) : (c.put k data).Ordered := by
  have hnone : c.map[k]? = none := Std.ExtTreeMap.getElem?_eq_none hk
  have hheap : IsHeap (compare (Function.update c.mem c.next ⟨k, data, c.timeCnt⟩)) c.heap := by
    refine IsHeap.congr h fun a ha b hb => ?_
    rw [compare, compare, Function.update_of_ne (hfresh a ha).ne,
      Function.update_of_ne (hfresh b hb).ne]
  have hpush := isHeap_pushHeap (strictWeakOrder_compare _) c.next hheap
  simp only [put, hnone]
  split_ifs
  · exact isHeap_popHeap (strictWeakOrder_compare _) hpush
  · exact hpush

theorem ordered_step {s s' : Observed LRUCache} {op : Op} (h : s.cache.Ordered)
    (hfresh : ∀ p ∈ s.cache.heap, p < s.cache.next) (hop : ¬ s.cache.Replaces op)
    (hs : step s op = some s') : s'.cache.Ordered := by
  cases op with
  | put k data => exact Option.some.inj hs ▸ ordered_put h hfresh hop data
  | get k => exact Option.some.inj hs ▸ ordered_get h k
  | invalidate k => exact Option.some.inj hs ▸ ordered_invalidate h k

end LRUCache

/-- In a run that never puts a key that is in the cache, the heap stays in order and every call
meets the condition of `lru_refines_iff`. -/
theorem frontLeast_of_not_replaces {size : ℕ} (hsize : 1 ≤ size) {ops : List Op}
    (hclock : AllSteps LRUCache.step (fun s _ => s.cache.ClockRuns) ⟨LRUCache.create size, []⟩ ops)
    (hops : AllSteps LRUCache.step (fun s op => ¬ s.cache.Replaces op)
      ⟨LRUCache.create size, []⟩ ops) :
    AllSteps LRUCache.step (fun s op => s.cache.FrontLeast op) ⟨LRUCache.create size, []⟩ ops ∧
      ∀ s, exec LRUCache.step ⟨LRUCache.create size, []⟩ ops = some s → s.cache.Ordered := by
  induction ops using List.reverseRecOn with
  | nil =>
    refine ⟨trivial, fun s hs => ?_⟩
    rw [exec_nil, Option.some.injEq] at hs
    subst hs
    exact fun i hi hil => absurd hil (Nat.not_lt_zero i)
  | append_singleton ops op ih =>
    obtain ⟨hclock', -⟩ := allSteps_concat.1 hclock
    obtain ⟨hops', hop⟩ := allSteps_concat.1 hops
    obtain ⟨hleast, hordered⟩ := ih hclock' hops'
    refine ⟨allSteps_concat.2 ⟨hleast, fun s hs =>
      LRUCache.frontLeast_of_ordered (hordered s hs) op⟩, fun s' hs' => ?_⟩
    obtain ⟨s, hs, hstep⟩ := exec_concat_eq_some.1 hs'
    obtain ⟨s₀, t, hs₀, -, ⟨ps, hps⟩, -⟩ := related_exec hsize hclock' hleast
    obtain rfl : s₀ = s := Option.some.inj (hs₀.symm.trans hs)
    exact LRUCache.ordered_step (hordered _ hs) hps.fresh (hop _ hs) hstep

end RawDish.Util
