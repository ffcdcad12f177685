import RawDish.Util.LruRefinement

/-!
# Coherence of the LRU cache

Whatever entry an insertion evicts, the entries that are left hold the latest data of their keys.
A `put` on a key in the cache can leave the heap out of order, and then the entry that is evicted
need not be the least recently used one. It is still the front of the heap, and the entry just
pushed, whose access time is the greatest, comes to the front only of a heap that was empty.

## Main definitions

* `LatestPut` : the data of the latest `put` of a key that no `invalidate` follows.
* `Coherent` : every entry of the cache is the latest one of its key.

## Main results

* `lru_coherent` : what `get` returns in every reachable state.

## References

* `src/util/lrucache.h`, lines 63–121.
-/

namespace RawDish.Util

open Lib

/-- The latest `put` of the key among the calls has the data `d`, and no `invalidate` of the key
follows it. -/
def LatestPut (key : Str) (d : List UInt8) (ops : List Op) : Prop :=
  ∃ pre post, ops = pre ++ .put key d :: post ∧ (∀ d', .put key d' ∉ post) ∧
    .invalidate key ∉ post

/-- The calls end with the `put` of the key, followed at most by calls of `get`. -/
def JustPut (key : Str) (d : List UInt8) (ops : List Op) : Prop :=
  ∃ pre post, ops = pre ++ .put key d :: post ∧ ∀ op ∈ post, ∃ k, op = .get k

namespace LatestPut

variable {k : Str} {d : List UInt8} {ops : List Op}

theorem put (k : Str) (d : List UInt8) (ops : List Op) : LatestPut k d (ops ++ [.put k d]) :=
  ⟨ops, [], rfl, fun _ => List.not_mem_nil, List.not_mem_nil⟩

/-- A call that neither puts nor invalidates the key. -/
theorem concat (h : LatestPut k d ops) {op : Op} (hput : ∀ d', op ≠ .put k d')
    (hinv : op ≠ .invalidate k) : LatestPut k d (ops ++ [op]) := by
  obtain ⟨pre, post, rfl, hputs, hinvs⟩ := h
  refine ⟨pre, post ++ [op], by simp, fun d' hd' => ?_, fun hmem => ?_⟩
  · rcases List.mem_append.1 hd' with hold | hnew
    · exact hputs d' hold
    · exact hput d' (List.mem_singleton.1 hnew).symm
  · rcases List.mem_append.1 hmem with hold | hnew
    · exact hinvs hold
    · exact hinv (List.mem_singleton.1 hnew).symm

theorem concat_get (h : LatestPut k d ops) (k' : Str) : LatestPut k d (ops ++ [.get k']) :=
  h.concat (fun _ => Op.noConfusion) Op.noConfusion

end LatestPut

namespace Reference

variable {r : Reference} {k : Str} {d : List UInt8}

theorem mem_others {e : Str × List UInt8} : e ∈ r.others k ↔ e ∈ r.entries ∧ e.1 ≠ k := by
  simp [others]

theorem mem_entries_of_lookup (h : r.lookup k = some d) : (k, d) ∈ r.entries := by
  obtain ⟨e, he, rfl⟩ := Option.map_eq_some_iff.1 h
  have hkey : e.1 = k := by simpa using List.find?_some he
  rw [← hkey]
  exact List.mem_of_find?_eq_some he

end Reference

namespace LRUCache

variable (c : LRUCache) (k k' : Str)

/-- `get` returns what the cache holds. -/
theorem get_snd : (c.get k).2 = c.lookup k := by
  cases hk : c.map[k]? with
  | none => simp [get, lookup, hk]
  | some p => simp [get, lookup, hk]

/-- `get` changes no data. -/
theorem lookup_get : (c.get k').1.lookup k = c.lookup k := by
  cases hk' : c.map[k']? with
  | none => simp [get, hk']
  | some p =>
    simp only [get, lookup, hk']
    refine congrArg (fun f => c.map[k]?.map f) (funext fun q => ?_)
    by_cases hq : q = p
    · rw [hq, Function.update_self]
    · rw [Function.update_of_ne hq]

theorem timeCnt_put (data : List UInt8) : (c.put k data).timeCnt = c.timeCnt + 1 := by
  simp only [put]
  split
  · rfl
  · split_ifs <;> rfl

theorem timeCnt_get :
    (c.get k).1.timeCnt = c.timeCnt ∨ (c.get k).1.timeCnt = c.timeCnt + 1 := by
  simp only [get]
  split
  · exact Or.inr rfl
  · exact Or.inl rfl

theorem timeCnt_invalidate : (c.invalidate k).timeCnt = c.timeCnt := by
  simp only [invalidate]
  split <;> rfl

end LRUCache

namespace Refines

variable {c : LRUCache} {r : Reference} {ps : List ℕ} {k : Str}

/-- An insertion into a cache of no capacity evicts the entry itself. -/
theorem put_empty (h : Refines c r ps) (hclock : c.ClockRuns) (hk : c.map[k]? = none)
    (data : List UInt8) (hheap : c.heap = []) (hsize : c.size = 0) :
    Refines (c.put k data)
      (Reference.invalidate { r with entries := (k, data) :: r.entries } k)
      ((c.next :: ps).erase c.next) := by
  have hpush := h.pushHeap_eq k data
  have hinsert := h.insert hclock hk data (List.perm_append_singleton c.next c.heap)
  have hfull : (c.heap ++ [c.next]).length > c.size := by simp [hheap, hsize]
  obtain ⟨init, hpop, hperm⟩ := popHeap_eq
    (LRUCache.compare (Function.update c.mem c.next ⟨k, data, c.timeCnt⟩))
    (l := c.heap ++ [c.next]) (by simp)
  have hfront : cell (c.heap ++ [c.next]) 0 = c.next := by simp [hheap, cell]
  rw [hfront] at hpop hperm
  simp only [LRUCache.put, hk, hpush, if_pos hfull, hpop, List.dropLast_concat,
    List.getLastD_concat, Function.update_self]
  refine hinsert.forget ?_ (fun q _ => rfl) hperm
  rw [hinsert.map_iff]
  exact ⟨by simp, by simp⟩

/-- What `put` leaves in the cache: the new entry, unless the capacity is zero, and entries of the
other keys that were there. -/
theorem put_entries (h : Refines c r ps) (hlen : c.heap.length ≤ c.size) (hclock : c.ClockRuns)
    (k : Str) (data : List UInt8) :
    ∃ r' ps', Refines (c.put k data) r' ps' ∧ ps'.length ≤ c.size ∧
      (∀ e ∈ r'.entries, e = (k, data) ∨ e ∈ r.others k) ∧
      (1 ≤ c.size → r'.lookup k = some data) := by
  cases hk : c.map[k]? with
  | some p =>
    have hp : p ∈ ps := h.perm.mem_iff.2 ((h.map_iff k p).1 hk).1
    refine ⟨_, _, h.put_hit hlen hclock hk data, ?_, fun e he => ?_, fun hsize => ?_⟩
    · rw [← (List.perm_cons_erase hp).length_eq, h.perm.length_eq]
      exact hlen
    · exact List.mem_cons.1 (List.mem_of_mem_take he)
    · obtain ⟨n, hn⟩ := Nat.exists_eq_add_of_le hsize
      simp [Reference.lookup, Reference.put, h.size_eq, hn, Nat.add_comm 1 n]
  | none =>
    have hothers : r.others k = r.entries := by
      rw [h.others_eq_of_none hk, h.entries_eq]
    rcases Nat.lt_or_ge c.heap.length c.size with hlt | hge
    · refine ⟨_, _, h.put_miss hclock hk data hlt, ?_, fun e he => ?_, fun hsize => ?_⟩
      · rw [List.length_cons, h.perm.length_eq]
        exact hlt
      · exact List.mem_cons.1 (List.mem_of_mem_take he)
      · obtain ⟨n, hn⟩ := Nat.exists_eq_add_of_le hsize
        simp [Reference.lookup, Reference.put, h.size_eq, hn, Nat.add_comm 1 n]
    · have hsub : ∀ front, ∀ e ∈ (Reference.invalidate
          { r with entries := (k, data) :: r.entries } front).entries,
          e = (k, data) ∨ e ∈ r.others k := by
        intro front e he
        rw [hothers]
        exact List.mem_cons.1 (Reference.mem_others.1 he).1
      rcases Nat.eq_zero_or_pos c.heap.length with hzero | hpos
      · refine ⟨_, _, h.put_empty hclock hk data (List.length_eq_zero_iff.1 hzero)
          (by omega), ?_, hsub _, fun hsize => by omega⟩
        rw [List.erase_cons_head, h.perm.length_eq]
        exact hlen
      · have hfront := LRUCache.cell_zero_mem hpos
        refine ⟨_, _, h.put_full hclock hk data hpos hge, ?_, hsub _, fun _ => ?_⟩
        · rw [List.length_erase_of_mem (List.mem_cons_of_mem _ (h.perm.mem_iff.2 hfront)),
            List.length_cons, h.perm.length_eq]
          exact hlen
        · -- The front of the heap is an older entry, of another key.
          have hne : k ≠ (c.mem (cell c.heap 0)).key :=
            Ne.symm (h.key_ne hk (h.perm.mem_iff.2 hfront))
          simp [Reference.lookup, Reference.invalidate, Reference.others, hne]

end Refines

/-- Every entry of the cache is the latest one of its key, the cache keeps to its capacity and the
access counter has advanced at most once a call. -/
structure Coherent (size : ℕ) (ops : List Op) (c : LRUCache) : Prop where
  size_eq : c.size = size
  heap_le : c.heap.length ≤ size
  clock_le : c.timeCnt.toNat ≤ ops.length + 1
  latest : ∃ r ps, Refines c r ps ∧ ∀ e ∈ r.entries, LatestPut e.1 e.2 ops

namespace Coherent

variable {size : ℕ} {ops : List Op} {c : LRUCache}

theorem create (size : ℕ) : Coherent size [] (LRUCache.create size) :=
  ⟨rfl, Nat.zero_le _, le_rfl, _, _, Refines.create size, fun _ he => absurd he List.not_mem_nil⟩

theorem clockRuns (h : Coherent size ops c) (hops : ops.length + 2 < 2 ^ 64) : c.ClockRuns := by
  have := h.clock_le
  rw [LRUCache.ClockRuns]
  omega

/-- One step of a run keeps the cache coherent. -/
theorem step {s s' : Observed LRUCache} {op : Op} (h : Coherent size ops s.cache)
    (hops : ops.length + 2 < 2 ^ 64) (hs : LRUCache.step s op = some s') :
    Coherent size (ops ++ [op]) s'.cache := by
  have hclock := h.clockRuns hops
  have htick := hclock.tick
  have hlen : s.cache.heap.length ≤ s.cache.size := h.size_eq ▸ h.heap_le
  have hle := h.clock_le
  obtain ⟨r, ps, hps, hlatest⟩ := h.latest
  have hperm := hps.perm.length_eq
  have hother : ∀ {k e}, e ∈ r.others k → ∀ {op : Op}, (∀ k' d', op = .put k' d' → k' = k) →
      (∀ k', op = .invalidate k' → k' = k) → LatestPut e.1 e.2 (ops ++ [op]) := by
    intro k e he op hput hinv
    obtain ⟨hmem, hne⟩ := Reference.mem_others.1 he
    exact (hlatest e hmem).concat (fun d' hop => hne (hput _ _ hop)) fun hop => hne (hinv _ hop)
  cases op with
  | put k data =>
    obtain ⟨r', ps', hput, hps', hsub, -⟩ := hps.put_entries hlen hclock k data
    have hperm' := hput.perm.length_eq
    obtain rfl : { s with cache := s.cache.put k data } = s' := Option.some.inj hs
    refine ⟨(s.cache.size_put k data).trans h.size_eq, ?_, ?_, r', ps', hput, fun e he => ?_⟩
    · exact (hperm'.symm.le.trans hps').trans h.size_eq.le
    · rw [LRUCache.timeCnt_put, htick, List.length_append, List.length_singleton]
      omega
    · rcases hsub e he with rfl | hold
      · exact LatestPut.put k data ops
      · exact hother hold (fun k' d' hop => by cases hop; rfl) (fun k' => Op.noConfusion)
  | get k =>
    obtain ⟨ps', ⟨hget, hps'⟩, -⟩ := hps.get hclock k
    have hperm' := hget.perm.length_eq
    obtain rfl : (⟨(s.cache.get k).1, s.results ++ [(s.cache.get k).2]⟩ : Observed LRUCache) = s' :=
      Option.some.inj hs
    refine ⟨(s.cache.size_get k).trans h.size_eq, ?_, ?_, _, ps', hget, fun e he => ?_⟩
    · have := h.heap_le
      simp only
      omega
    · rw [List.length_append, List.length_singleton]
      rcases s.cache.timeCnt_get k with heq | heq <;> simp only [heq, htick] <;> omega
    · refine (hlatest e ?_).concat_get k
      cases hk : r.lookup k with
      | none => simpa [Reference.get, hk] using he
      | some d =>
        simp only [Reference.get, hk, List.mem_cons] at he
        rcases he with rfl | hold
        · exact Reference.mem_entries_of_lookup hk
        · exact (Reference.mem_others.1 hold).1
  | invalidate k =>
    obtain ⟨ps', hinv, hps'⟩ := hps.invalidate k
    have hperm' := hinv.perm.length_eq
    obtain rfl : { s with cache := s.cache.invalidate k } = s' := Option.some.inj hs
    refine ⟨(s.cache.size_invalidate k).trans h.size_eq, ?_, ?_, _, ps', hinv, fun e he => ?_⟩
    · have := h.heap_le
      simp only
      omega
    · rw [LRUCache.timeCnt_invalidate, List.length_append]
      omega
    · exact hother he (fun k' d' => Op.noConfusion) (fun k' hop => by cases hop; rfl)

end Coherent

/-- Every run of fewer than `2^64` calls, the one after it counted, leaves the cache coherent. -/
theorem coherent_exec {size : ℕ} {ops : List Op} {s : Observed LRUCache}
    (hops : ops.length + 1 < 2 ^ 64)
    (hs : exec LRUCache.step ⟨LRUCache.create size, []⟩ ops = some s) :
    Coherent size ops s.cache := by
  induction ops using List.reverseRecOn generalizing s with
  | nil =>
    rw [exec_nil, Option.some.injEq] at hs
    exact hs ▸ Coherent.create size
  | append_singleton ops op ih =>
    rw [List.length_append, List.length_singleton] at hops
    obtain ⟨t, ht, hstep⟩ := exec_concat_eq_some.1 hs
    exact (ih (by omega) ht).step hops hstep

/-- A run of `get` changes no data. -/
theorem lookup_exec_get {ops : List Op} (hops : ∀ op ∈ ops, ∃ k, op = .get k)
    {s s' : Observed LRUCache} (hs : exec LRUCache.step s ops = some s') (k : Str) :
    s'.cache.lookup k = s.cache.lookup k := by
  induction ops generalizing s with
  | nil =>
    rw [exec_nil, Option.some.injEq] at hs
    rw [hs]
  | cons op ops ih =>
    obtain ⟨k', rfl⟩ := hops op List.mem_cons_self
    obtain ⟨t, ht, hrest⟩ := exec_cons_eq_some.1 hs
    rw [ih (fun op hop => hops op (List.mem_cons_of_mem _ hop)) hrest, ← Option.some.inj ht]
    exact s.cache.lookup_get k k'

/-- **Coherence of the cache.** For every capacity and every sequence of fewer than `2^64` calls, a
`get` returns nothing or the data of the latest `put` of the key with no `invalidate` of it since,
and nothing when there is no such `put`. With a capacity of at least one, a key that has just been
put is found. -/
theorem lru_coherent (size : ℕ) (ops : List Op) (hops : ops.length + 1 < 2 ^ 64)
    (s : Observed LRUCache) (hs : exec LRUCache.step ⟨LRUCache.create size, []⟩ ops = some s)
    (k : Str) :
    (∀ d, (s.cache.get k).2 = some d → LatestPut k d ops) ∧
      ((∀ d, ¬ LatestPut k d ops) → (s.cache.get k).2 = none) ∧
      (1 ≤ size → ∀ d, JustPut k d ops → (s.cache.get k).2 = some d) := by
  rw [LRUCache.get_snd]
  have hlatest : ∀ d, s.cache.lookup k = some d → LatestPut k d ops := by
    intro d hd
    obtain ⟨r, ps, hps, hentries⟩ := (coherent_exec hops hs).latest
    rw [hps.lookup_eq] at hd
    exact hentries _ (Reference.mem_entries_of_lookup hd)
  refine ⟨hlatest, fun hnone => ?_, fun hsize d hput => ?_⟩
  · by_contra hne
    obtain ⟨d, hd⟩ := Option.ne_none_iff_exists'.1 hne
    exact hnone d (hlatest d hd)
  · obtain ⟨pre, post, rfl, hgets⟩ := hput
    obtain ⟨t, ht, hrest⟩ := exec_append_eq_some.1 hs
    obtain ⟨u, hu, hpost⟩ := exec_cons_eq_some.1 hrest
    rw [lookup_exec_get hgets hpost, ← Option.some.inj hu]
    simp only [List.length_append, List.length_cons] at hops
    have hcoh := coherent_exec (by omega) ht
    obtain ⟨r, ps, hps, -⟩ := hcoh.latest
    have hlen : t.cache.heap.length ≤ t.cache.size := hcoh.size_eq ▸ hcoh.heap_le
    obtain ⟨r', ps', hput, -, -, hfound⟩ :=
      hps.put_entries hlen (hcoh.clockRuns (by omega)) k d
    simp only [hput.lookup_eq]
    exact hfound (hcoh.size_eq ▸ hsize)

/-- In `replaced` the heap is out of order when the fourth call evicts an entry; the entry of that
call stays. -/
theorem lru_coherent_replaced :
    ∃ s, exec LRUCache.step ⟨LRUCache.create 2, []⟩ replaced = some s ∧
      (s.cache.get (.ofString "c")).2 = some [4] := by
  obtain ⟨s, hs⟩ : ∃ s, exec LRUCache.step ⟨LRUCache.create 2, []⟩ replaced = some s := ⟨_, rfl⟩
  refine ⟨s, hs, (lru_coherent 2 replaced (by decide) s hs (.ofString "c")).2.2 (by decide) [4] ?_⟩
  exact ⟨replaced.take 3, [], rfl, fun _ hop => absurd hop List.not_mem_nil⟩

end RawDish.Util
