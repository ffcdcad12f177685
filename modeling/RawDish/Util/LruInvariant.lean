import RawDish.Util.LruCoherence

/-!
# The representation of the LRU cache

An entry of the cache is in two containers, the heap and the map, which must not come apart: the
entry that leaves one of them is deleted and has to leave the other. `invalidate` finds the entry in
the map and pops the front of the rebuilt heap, `put` pops the front of a heap that may be out of
order and erases its key. The entries that stay have different access times, all of them before the
counter, so the entry with the access time zero is the only one that `invalidate` can pop.

The counter is a 64-bit number. After `2^64 - 1` calls of `put` it is zero, and `_timeCnt - 1` is
the access time of the last entry, as it is after any other number of calls.

## Main definitions

* `LRUCache.Consistent` : heap and map hold the same entries.
* `LRUCache.Removes` : an entry leaves both, and the others stay.

## Main results

* `lru_consistent` : the caches of all runs are consistent, and what leaves them does so entirely.

## References

* `src/util/lrucache.h`, lines 63–136.
-/

namespace RawDish.Util

open Lib

namespace LRUCache

/-- The heap and the map hold the same entries, each of them once and under its own key, and the
access times are different numbers from one to the counter. -/
structure Consistent (c : LRUCache) : Prop where
  nodup : c.heap.Nodup
  map_iff : ∀ (k : Str) (p : ℕ), c.map[k]? = some p ↔ p ∈ c.heap ∧ (c.mem p).key = k
  one_le_atime : ∀ p ∈ c.heap, 1 ≤ (c.mem p).atime
  atime_le : ∀ p ∈ c.heap, (c.mem p).atime ≤ c.timeCnt - 1
  atime_inj : ∀ p ∈ c.heap, ∀ q ∈ c.heap, (c.mem p).atime = (c.mem q).atime → p = q
  fresh : ∀ p ∈ c.heap, p < c.next

/-- The entry `p` leaves the heap and the map, and the other entries stay as they are. -/
structure Removes (c c' : LRUCache) (p : ℕ) : Prop where
  mapped : c.map[(c.mem p).key]? = some p
  heap_perm : (p :: c'.heap).Perm c.heap
  map_eq : c'.map = c.map.erase (c.mem p).key
  mem_eq : ∀ q ∈ c'.heap, c'.mem q = c.mem q
  timeCnt_eq : c'.timeCnt = c.timeCnt
  next_eq : c'.next = c.next

/-- The cache with a new entry, before `put` looks at the number of entries. -/
def inserted (c : LRUCache) (key : Str) (data : List UInt8) : LRUCache :=
  { c with
    mem := Function.update c.mem c.next ⟨key, data, c.timeCnt⟩
    timeCnt := c.timeCnt + 1
    next := c.next + 1
    heap := c.heap ++ [c.next]
    map := c.map.insert key c.next }

/-- The entries when `invalidate` has marked one of them. -/
def marked (c : LRUCache) (p : ℕ) : ℕ → BlockCacheData :=
  Function.update c.mem p { c.mem p with atime := 0 }

/-- The heap from which `invalidate` takes the last pointer. -/
def popped (c : LRUCache) (p : ℕ) : List ℕ :=
  popHeap (compare (c.marked p)) (makeHeap (compare (c.marked p)) c.heap)

/-! ### The counter -/

theorem one_le_of_ne_zero {t : UInt64} (ht : t ≠ 0) : 1 ≤ t := by
  rw [UInt64.le_iff_toNat_le]
  exact Nat.pos_of_ne_zero fun h => ht (UInt64.toNat_inj.1 h)

/-- An access time that was given out before is not the next one. -/
theorem atime_of_le_pred {t a : UInt64} (ht : t ≠ 0) (ha : a ≤ t - 1) : a ≤ t ∧ a ≠ t := by
  have hone := one_le_of_ne_zero ht
  have hsub : (t - 1).toNat = t.toNat - 1 := UInt64.toNat_sub_of_le t 1 hone
  have hpos : 1 ≤ t.toNat := UInt64.le_iff_toNat_le.1 hone
  rw [UInt64.le_iff_toNat_le, hsub] at ha
  refine ⟨UInt64.le_iff_toNat_le.2 (by omega), fun heq => ?_⟩
  rw [heq] at ha
  omega

/-! ### The operations -/

/-- The heap with a new entry. -/
def pushed (c : LRUCache) (key : Str) (data : List UInt8) : List ℕ :=
  pushHeap (compare (c.inserted key data).mem) (c.inserted key data).heap

theorem pushed_perm (c : LRUCache) (key : Str) (data : List UInt8) :
    (c.pushed key data).Perm (c.inserted key data).heap :=
  pushHeap_perm _ (by simp [inserted])

/-- What `put` does with a new key. -/
theorem put_of_none {c : LRUCache} {k : Str} (hk : c.map[k]? = none) (data : List UInt8) :
    c.put k data =
      if (c.pushed k data).length > c.size then
        { c.inserted k data with
          heap := (popHeap (compare (c.inserted k data).mem) (c.pushed k data)).dropLast
          map := (c.inserted k data).map.erase ((c.inserted k data).mem
            ((popHeap (compare (c.inserted k data).mem) (c.pushed k data)).getLastD 0)).key }
      else { c.inserted k data with heap := c.pushed k data } := by
  simp only [put, hk]
  rfl

namespace Consistent

variable {c c' : LRUCache} {k : Str} {p : ℕ}

theorem create (size : ℕ) : Consistent (create size) := by
  constructor <;> simp [LRUCache.create]

theorem indexes (h : c.Consistent) : Indexes c.map c.heap c.mem := h.map_iff

/-- The order of the heap does not matter. -/
theorem perm (h : c.Consistent) {heap : List ℕ} (hheap : heap.Perm c.heap) :
    Consistent { c with heap := heap } := by
  refine ⟨hheap.nodup_iff.2 h.nodup, h.indexes.congr hheap fun _ => rfl, fun q hq => ?_,
    fun q hq => ?_, fun q hq q' hq' => ?_, fun q hq => ?_⟩
  · exact h.one_le_atime q (hheap.mem_iff.1 hq)
  · exact h.atime_le q (hheap.mem_iff.1 hq)
  · exact h.atime_inj q (hheap.mem_iff.1 hq) q' (hheap.mem_iff.1 hq')
  · exact h.fresh q (hheap.mem_iff.1 hq)

/-- An entry is accessed: it gets the time of the counter. -/
theorem touch (h : c.Consistent) (ht : c.timeCnt ≠ 0) (p : ℕ) (data : List UInt8) {heap : List ℕ}
    (hheap : heap.Perm c.heap) :
    Consistent { c with
      mem := Function.update c.mem p ⟨(c.mem p).key, data, c.timeCnt⟩
      timeCnt := c.timeCnt + 1
      heap := heap } := by
  have hmem_key : ∀ q, (Function.update c.mem p ⟨(c.mem p).key, data, c.timeCnt⟩ q).key =
      (c.mem q).key := by
    intro q
    by_cases hq : q = p
    · rw [hq, Function.update_self]
    · rw [Function.update_of_ne hq]
  have hold : ∀ q ∈ c.heap, (c.mem q).atime ≤ c.timeCnt ∧ (c.mem q).atime ≠ c.timeCnt :=
    fun q hq => atime_of_le_pred ht (h.atime_le q hq)
  have hmem_atime : ∀ q, (Function.update c.mem p ⟨(c.mem p).key, data, c.timeCnt⟩ q).atime =
      if q = p then c.timeCnt else (c.mem q).atime := by
    intro q
    rw [Function.update_apply]
    split_ifs <;> rfl
  refine ⟨hheap.nodup_iff.2 h.nodup, h.indexes.congr hheap hmem_key, fun q hq => ?_,
    fun q hq => ?_, fun q hq q' hq' heq => ?_, fun q hq => h.fresh q (hheap.mem_iff.1 hq)⟩
  · rw [hmem_atime]
    split_ifs
    · exact one_le_of_ne_zero ht
    · exact h.one_le_atime q (hheap.mem_iff.1 hq)
  · rw [hmem_atime, UInt64.add_sub_cancel]
    split_ifs
    · exact UInt64.le_refl _
    · exact (hold q (hheap.mem_iff.1 hq)).1
  · -- The time of the counter is none of those that the other entries have.
    rw [hmem_atime, hmem_atime] at heq
    split_ifs at heq with hqp hqp' hqp'
    · rw [hqp, hqp']
    · exact absurd heq.symm (hold q' (hheap.mem_iff.1 hq')).2
    · exact absurd heq (hold q (hheap.mem_iff.1 hq)).2
    · exact h.atime_inj q (hheap.mem_iff.1 hq) q' (hheap.mem_iff.1 hq') heq

/-- A new entry. -/
theorem inserted (h : c.Consistent) (ht : c.timeCnt ≠ 0) (hk : c.map[k]? = none)
    (data : List UInt8) : (c.inserted k data).Consistent := by
  have hnew : c.next ∉ c.heap := fun hmem => (h.fresh _ hmem).ne rfl
  have hmem : ∀ q ∈ c.heap, (c.inserted k data).mem q = c.mem q := fun q hq =>
    Function.update_of_ne (h.fresh q hq).ne _ _
  have hmem_new : (c.inserted k data).mem c.next = ⟨k, data, c.timeCnt⟩ :=
    Function.update_self _ _ _
  have hcases : ∀ q ∈ (c.inserted k data).heap, q ∈ c.heap ∨ q = c.next := by
    intro q hq
    simpa [LRUCache.inserted] using hq
  have hold : ∀ q ∈ c.heap, (c.mem q).atime ≤ c.timeCnt ∧ (c.mem q).atime ≠ c.timeCnt :=
    fun q hq => atime_of_le_pred ht (h.atime_le q hq)
  have htime : (c.inserted k data).timeCnt - 1 = c.timeCnt := UInt64.add_sub_cancel _ _
  have hperm := List.perm_append_singleton c.next c.heap
  refine ⟨?_, ?_, fun q hq => ?_, fun q hq => ?_, fun q hq q' hq' heq => ?_, fun q hq => ?_⟩
  · exact hperm.nodup_iff.2 (List.nodup_cons.2 ⟨hnew, h.nodup⟩)
  · exact h.indexes.insert hk hperm (congrArg BlockCacheData.key hmem_new) fun q hq =>
      congrArg BlockCacheData.key (hmem q hq)
  · rcases hcases q hq with hq | rfl
    · rw [hmem q hq]
      exact h.one_le_atime q hq
    · rw [hmem_new]
      exact one_le_of_ne_zero ht
  · rw [htime]
    rcases hcases q hq with hq | rfl
    · rw [hmem q hq]
      exact (hold q hq).1
    · rw [hmem_new]
      exact UInt64.le_refl _
  · rcases hcases q hq with hq | rfl <;> rcases hcases q' hq' with hq' | rfl
    · rw [hmem q hq, hmem q' hq'] at heq
      exact h.atime_inj q hq q' hq' heq
    · rw [hmem q hq, hmem_new] at heq
      exact absurd heq (hold q hq).2
    · rw [hmem_new, hmem q' hq'] at heq
      exact absurd heq.symm (hold q' hq').2
    · rfl
  · rcases hcases q hq with hq | rfl
    · exact (h.fresh q hq).trans (Nat.lt_succ_self _)
    · exact Nat.lt_succ_self _

/-- An entry that leaves both containers leaves them consistent. -/
theorem removes (h : c.Consistent) (hr : Removes c c' p) : c'.Consistent := by
  obtain ⟨hp, hnodup⟩ := List.nodup_cons.1 (hr.heap_perm.nodup_iff.2 h.nodup)
  have hsub : ∀ q ∈ c'.heap, q ∈ c.heap := fun q hq =>
    hr.heap_perm.mem_iff.1 (List.mem_cons_of_mem p hq)
  refine ⟨hnodup, ?_, fun q hq => ?_, fun q hq => ?_, fun q hq q' hq' heq => ?_, fun q hq => ?_⟩
  · rw [hr.map_eq]
    exact h.indexes.erase hr.mapped hr.heap_perm hp fun q hq =>
      congrArg BlockCacheData.key (hr.mem_eq q hq)
  · rw [hr.mem_eq q hq]
    exact h.one_le_atime q (hsub q hq)
  · rw [hr.mem_eq q hq, hr.timeCnt_eq]
    exact h.atime_le q (hsub q hq)
  · rw [hr.mem_eq q hq, hr.mem_eq q' hq'] at heq
    exact h.atime_inj q (hsub q hq) q' (hsub q' hq') heq
  · rw [hr.next_eq]
    exact h.fresh q (hsub q hq)

/-- The entry of the key is the one that `invalidate` pops. -/
theorem getLast?_popped (h : c.Consistent) (hp : c.map[k]? = some p) :
    (c.popped p).getLast? = some p ∧ (p :: (c.popped p).dropLast).Perm c.heap := by
  obtain ⟨hmem, -⟩ := (h.map_iff k p).1 hp
  have hmarked : (c.marked p p).atime = 0 := by rw [marked, Function.update_self]
  obtain ⟨init, hpop, hperm⟩ := popHeap_makeHeap_eq hmem hmarked fun q hq hne => by
    rw [marked, Function.update_of_ne hne]
    exact UInt64.le_iff_toNat_le.1 (h.one_le_atime q hq)
  rw [popped, hpop, List.getLast?_concat, List.dropLast_concat]
  exact ⟨rfl, hperm⟩

/-- `invalidate` of a key in the cache. -/
theorem removes_invalidate (h : c.Consistent) (hp : c.map[k]? = some p) :
    Removes c (c.invalidate k) p := by
  obtain ⟨-, hperm⟩ := h.getLast?_popped hp
  obtain ⟨-, rfl⟩ := (h.map_iff k p).1 hp
  have hnot : p ∉ (c.popped p).dropLast :=
    (List.nodup_cons.1 (hperm.nodup_iff.2 h.nodup)).1
  have hinv : c.invalidate (c.mem p).key =
      { c with
        map := c.map.erase (c.mem p).key
        mem := c.marked p
        heap := (c.popped p).dropLast } := by
    simp only [LRUCache.invalidate, hp]
    rfl
  rw [hinv]
  refine ⟨hp, hperm, rfl, fun q hq => ?_, rfl, rfl⟩
  exact Function.update_of_ne (ne_of_mem_of_not_mem hq hnot) _ _

/-- An insertion into a full cache. -/
theorem removes_put (h : c.Consistent) (hk : c.map[k]? = none) (data : List UInt8)
    (hfull : c.size ≤ c.heap.length) : ∃ q, Removes (c.inserted k data) (c.put k data) q := by
  have hpush := c.pushed_perm k data
  have hlen : (c.pushed k data).length > c.size := by
    rw [hpush.length_eq, LRUCache.inserted, List.length_append, List.length_singleton]
    omega
  obtain ⟨init, hpop, hperm⟩ := popHeap_eq (compare (c.inserted k data).mem)
    (List.ne_nil_of_length_pos (Nat.zero_lt_of_lt hlen))
  have hput := put_of_none hk data
  rw [if_pos hlen, hpop, List.dropLast_concat, List.getLastD_concat] at hput
  generalize cell (c.pushed k data) 0 = q at hput hperm
  have hq : q ∈ c.heap ++ [c.next] := (hperm.trans hpush).mem_iff.1 List.mem_cons_self
  rw [hput]
  refine ⟨q, ?_, hperm.trans hpush, rfl, fun _ _ => rfl, rfl, rfl⟩
  change (c.map.insert k c.next)[(Function.update c.mem c.next _ q).key]? = some q
  rw [getElem?_insert_ite]
  rcases List.mem_append.1 hq with hq | hq
  · rw [Function.update_of_ne (h.fresh q hq).ne, if_neg (h.indexes.key_ne hk hq), h.map_iff]
    exact ⟨hq, rfl⟩
  · rw [List.mem_singleton.1 hq, Function.update_self, if_pos rfl]

/-- A `put` keeps the cache consistent and within its capacity. -/
theorem put (h : c.Consistent) (hlen : c.heap.length ≤ c.size) (ht : c.timeCnt ≠ 0) (k : Str)
    (data : List UInt8) :
    (c.put k data).Consistent ∧ (c.put k data).heap.length ≤ (c.put k data).size := by
  cases hk : c.map[k]? with
  | some p =>
    have hput : c.put k data =
        { c with
          mem := Function.update c.mem p ⟨(c.mem p).key, data, c.timeCnt⟩
          timeCnt := c.timeCnt + 1 } := by
      simp only [LRUCache.put, hk]
    rw [hput]
    exact ⟨h.touch ht p data (.refl _), hlen⟩
  | none =>
    have hins := h.inserted ht hk data
    rcases Nat.lt_or_ge c.heap.length c.size with hlt | hge
    · have hpush := c.pushed_perm k data
      have hlen' : (c.pushed k data).length ≤ c.size := by
        rw [hpush.length_eq, LRUCache.inserted, List.length_append, List.length_singleton]
        omega
      rw [put_of_none hk, if_neg (Nat.not_lt.2 hlen')]
      exact ⟨hins.perm hpush, hlen'⟩
    · obtain ⟨q, hr⟩ := h.removes_put hk data hge
      refine ⟨hins.removes hr, ?_⟩
      have hcount := hr.heap_perm.length_eq
      simp only [LRUCache.inserted, List.length_cons, List.length_append, List.length_nil] at hcount
      rw [size_put]
      omega

theorem get (h : c.Consistent) (hlen : c.heap.length ≤ c.size) (ht : c.timeCnt ≠ 0) (k : Str) :
    (c.get k).1.Consistent ∧ (c.get k).1.heap.length ≤ (c.get k).1.size := by
  cases hk : c.map[k]? with
  | some p =>
    simp only [LRUCache.get, hk]
    have hperm := makeHeap_perm
      (compare (Function.update c.mem p ⟨(c.mem p).key, (c.mem p).data, c.timeCnt⟩)) c.heap
    exact ⟨h.touch ht p _ hperm, hperm.length_eq.trans_le hlen⟩
  | none =>
    simp only [LRUCache.get, hk]
    exact ⟨h, hlen⟩

theorem invalidate (h : c.Consistent) (hlen : c.heap.length ≤ c.size) (k : Str) :
    (c.invalidate k).Consistent ∧ (c.invalidate k).heap.length ≤ (c.invalidate k).size := by
  cases hk : c.map[k]? with
  | some p =>
    have hr := h.removes_invalidate hk
    have hcount := hr.heap_perm.length_eq
    rw [List.length_cons] at hcount
    rw [size_invalidate]
    exact ⟨h.removes hr, by omega⟩
  | none =>
    simp only [LRUCache.invalidate, hk]
    exact ⟨h, hlen⟩

end Consistent

/-! ### Runs -/

/-- The counter has advanced at most once a call. -/
theorem timeCnt_exec {size : ℕ} {ops : List Op} {s : Observed LRUCache}
    (hops : ops.length + 1 < 2 ^ 64)
    (hs : exec step ⟨create size, []⟩ ops = some s) :
    1 ≤ s.cache.timeCnt.toNat ∧ s.cache.timeCnt.toNat ≤ ops.length + 1 := by
  induction ops using List.reverseRecOn generalizing s with
  | nil =>
    rw [exec_nil, Option.some.injEq] at hs
    exact hs ▸ ⟨le_rfl, le_rfl⟩
  | append_singleton ops op ih =>
    rw [List.length_append, List.length_singleton] at hops ⊢
    obtain ⟨t, ht, hstep⟩ := exec_concat_eq_some.1 hs
    obtain ⟨hone, hle⟩ := ih (by omega) ht
    have htick := ClockRuns.tick (show t.cache.ClockRuns by rw [ClockRuns]; omega)
    cases op with
    | put k data =>
      rw [← Option.some.inj hstep, timeCnt_put, htick]
      omega
    | get k =>
      rw [← Option.some.inj hstep]
      rcases t.cache.timeCnt_get k with heq | heq <;> simp only [heq, htick] <;> omega
    | invalidate k =>
      rw [← Option.some.inj hstep, timeCnt_invalidate]
      omega

/-- Every run of fewer than `2^64` calls leaves the cache consistent. The counter is zero after the
last of them at the earliest. -/
theorem consistent_exec {size : ℕ} {ops : List Op} {s : Observed LRUCache}
    (hops : ops.length < 2 ^ 64) (hs : exec step ⟨create size, []⟩ ops = some s) :
    s.cache.Consistent ∧ s.cache.heap.length ≤ s.cache.size := by
  induction ops using List.reverseRecOn generalizing s with
  | nil =>
    rw [exec_nil, Option.some.injEq] at hs
    exact hs ▸ ⟨Consistent.create size, Nat.zero_le _⟩
  | append_singleton ops op ih =>
    rw [List.length_append, List.length_singleton] at hops
    obtain ⟨t, ht, hstep⟩ := exec_concat_eq_some.1 hs
    obtain ⟨hcons, hlen⟩ := ih (by omega) ht
    have htime : t.cache.timeCnt ≠ 0 := by
      intro hzero
      have hone := (timeCnt_exec hops ht).1
      rw [hzero] at hone
      exact absurd hone (by decide)
    cases op with
    | put k data =>
      rw [← Option.some.inj hstep]
      exact hcons.put hlen htime k data
    | get k =>
      rw [← Option.some.inj hstep]
      exact hcons.get hlen htime k
    | invalidate k =>
      rw [← Option.some.inj hstep]
      exact hcons.invalidate hlen k

theorem size_exec {size : ℕ} {ops : List Op} {s : Observed LRUCache}
    (hs : exec step ⟨create size, []⟩ ops = some s) : s.cache.size = size := by
  induction ops using List.reverseRecOn generalizing s with
  | nil =>
    rw [exec_nil, Option.some.injEq] at hs
    exact hs ▸ rfl
  | append_singleton ops op ih =>
    obtain ⟨t, ht, hstep⟩ := exec_concat_eq_some.1 hs
    cases op with
    | put k data => rw [← Option.some.inj hstep, size_put, ih ht]
    | get k =>
      rw [← Option.some.inj hstep]
      exact (t.cache.size_get k).trans (ih ht)
    | invalidate k => rw [← Option.some.inj hstep, size_invalidate, ih ht]

end LRUCache

/-- **The representation of the cache.** For every capacity and after every sequence of fewer than
`2^64` calls, heap and map hold the same entries, each once and under its own key, with different
access times from one to the counter, and at most as many as the capacity. `invalidate` of a key in
the cache pops the entry that it deletes, and an insertion that overflows takes one entry from both
containers; no other entry changes. -/
theorem lru_consistent (size : ℕ) (ops : List Op) (hops : ops.length < 2 ^ 64)
    (s : Observed LRUCache) (hs : exec LRUCache.step ⟨LRUCache.create size, []⟩ ops = some s) :
    s.cache.Consistent ∧ s.cache.heap.length ≤ size ∧
      (∀ k p, s.cache.map[k]? = some p →
        (s.cache.popped p).getLast? = some p ∧ LRUCache.Removes s.cache (s.cache.invalidate k) p) ∧
      ∀ k data, s.cache.map[k]? = none → size ≤ s.cache.heap.length →
        ∃ q, LRUCache.Removes (s.cache.inserted k data) (s.cache.put k data) q := by
  obtain ⟨hcons, hlen⟩ := LRUCache.consistent_exec hops hs
  have hsize := LRUCache.size_exec hs
  refine ⟨hcons, hsize ▸ hlen, fun k p hp => ?_, fun k data hk hfull => ?_⟩
  · exact ⟨(hcons.getLast?_popped hp).1, hcons.removes_invalidate hp⟩
  · exact hcons.removes_put hk data (hsize.symm ▸ hfull)

/-- The cache that evicts from a heap out of order: what invalidating `b` and storing `d` do
next. -/
theorem lru_consistent_replaced :
    ∃ s, exec LRUCache.step ⟨LRUCache.create 2, []⟩ replaced = some s ∧ s.cache.Consistent ∧
      s.cache.heap.length ≤ 2 ∧
      (∃ p, s.cache.map[Str.ofString "b"]? = some p ∧ (s.cache.popped p).getLast? = some p ∧
        LRUCache.Removes s.cache (s.cache.invalidate (.ofString "b")) p) ∧
      ∃ q, LRUCache.Removes (s.cache.inserted (.ofString "d") [5])
        (s.cache.put (.ofString "d") [5]) q := by
  obtain ⟨s, hs, hb, hd, hfull⟩ :
      ∃ s, exec LRUCache.step ⟨LRUCache.create 2, []⟩ replaced = some s ∧
        s.cache.map[Str.ofString "b"]? = some 1 ∧ s.cache.map[Str.ofString "d"]? = none ∧
        2 ≤ s.cache.heap.length :=
    ⟨_, rfl, by decide +kernel, by decide +kernel, by decide +kernel⟩
  obtain ⟨hcons, hlen, hinvalidate, hoverflow⟩ := lru_consistent 2 replaced (by decide) s hs
  obtain ⟨hlast, hremoves⟩ := hinvalidate _ 1 hb
  exact ⟨s, hs, hcons, hlen, ⟨1, hb, hlast, hremoves⟩, hoverflow _ [5] hd hfull⟩

end RawDish.Util
