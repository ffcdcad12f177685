import RawDish.Basic
import RawDish.Lib.Exec
import RawDish.Lib.Heap

/-!
# The LRU cache

`LRUCache` keeps its entries behind pointers: `_heap` is a binary heap of pointers with the entry of
the smallest access time in front, `_map` finds the pointer of a key. An access writes the access
time through the pointer, so it can put the heap out of order; `get` and `invalidate` rebuild it,
a `put` that replaces the data of a key does not.

Pointers are numbers; `new` returns the next one, which no entry has had before. The memory is a
function on pointers.

`Reference` is what the cache is for: the entries in the order of their last use.

## Main definitions

* `LRUCache`, `LRUCache.put`, `LRUCache.get`, `LRUCache.invalidate`.
* `Reference` : the least recently used cache as a list.
* `Op`, `Observed`, `LRUCache.step`, `Reference.step` : runs of the two with the results of `get`.

## References

* `src/util/lrucache.h`, lines 46–138.
-/

namespace RawDish.Util

open Lib

/-- An entry of the cache. -/
structure BlockCacheData where
  key : Str
  data : List UInt8
  atime : UInt64
  deriving DecidableEq

structure LRUCache where
  size : ℕ
  /-- Pointers to the entries. -/
  heap : List ℕ
  map : Std.ExtTreeMap Str ℕ
  /-- What is stored behind a pointer. -/
  mem : ℕ → BlockCacheData
  /-- The next pointer that `new` returns. -/
  next : ℕ
  timeCnt : UInt64

namespace LRUCache

/-- `LRUCache(size)`. -/
def create (size : ℕ) : LRUCache := ⟨size, [], ∅, fun _ => ⟨[], [], 0⟩, 0, 1⟩

/-- `Compare`: the entry with the greater access time is the lesser one of the heap. -/
def compare (mem : ℕ → BlockCacheData) (a b : ℕ) : Bool := (mem a).atime > (mem b).atime

/-- `invalidate`: the entry gets the access time zero, which brings it to the front of the rebuilt
heap, from where it is popped. -/
def invalidate (s : LRUCache) (key : Str) : LRUCache :=
  match s.map[key]? with
  | some b =>
    let mem := Function.update s.mem b { s.mem b with atime := 0 }
    { s with
      map := s.map.erase key
      mem := mem
      heap := (popHeap (compare mem) (makeHeap (compare mem) s.heap)).dropLast }
  | none => s

/-- `get`. -/
def get (s : LRUCache) (key : Str) : LRUCache × Option (List UInt8) :=
  match s.map[key]? with
  | some b =>
    let mem := Function.update s.mem b { s.mem b with atime := s.timeCnt }
    ({ s with
       mem := mem
       timeCnt := s.timeCnt + 1
       heap := makeHeap (compare mem) s.heap }, some (mem b).data)
  | none => (s, none)

/-- `put`. A key that is in the cache gets the new data and access time and the heap is left as it
is. -/
def put (s : LRUCache) (key : Str) (data : List UInt8) : LRUCache :=
  match s.map[key]? with
  | some b =>
    { s with
      mem := Function.update s.mem b { s.mem b with atime := s.timeCnt, data := data }
      timeCnt := s.timeCnt + 1 }
  | none =>
    let b := s.next
    let mem := Function.update s.mem b ⟨key, data, s.timeCnt⟩
    let heap := pushHeap (compare mem) (s.heap ++ [b])
    let map := s.map.insert key b
    if heap.length > s.size then
      let popped := popHeap (compare mem) heap
      { s with
        mem := mem
        timeCnt := s.timeCnt + 1
        next := s.next + 1
        heap := popped.dropLast
        map := map.erase (mem (popped.getLastD 0)).key }
    else
      { s with mem := mem, timeCnt := s.timeCnt + 1, next := s.next + 1, heap := heap, map := map }

/-- The data that the cache holds for a key. -/
def lookup (s : LRUCache) (key : Str) : Option (List UInt8) :=
  s.map[key]?.map fun b => (s.mem b).data

end LRUCache

/-- The least recently used cache: the entries in the order of their last use, the latest
first. -/
structure Reference where
  size : ℕ
  entries : List (Str × List UInt8)
  deriving DecidableEq

namespace Reference

def create (size : ℕ) : Reference := ⟨size, []⟩

def lookup (r : Reference) (key : Str) : Option (List UInt8) :=
  (r.entries.find? fun e => e.1 = key).map Prod.snd

/-- The entries of the other keys. -/
def others (r : Reference) (key : Str) : List (Str × List UInt8) :=
  r.entries.filter fun e => e.1 ≠ key

def invalidate (r : Reference) (key : Str) : Reference := { r with entries := r.others key }

def get (r : Reference) (key : Str) : Reference × Option (List UInt8) :=
  match r.lookup key with
  | some data => ({ r with entries := (key, data) :: r.others key }, some data)
  | none => (r, none)

/-- The entry comes first, and of more than `size` entries the least recently used one goes. -/
def put (r : Reference) (key : Str) (data : List UInt8) : Reference :=
  { r with entries := ((key, data) :: r.others key).take r.size }

end Reference

/-- A call on the cache. -/
inductive Op
  | put (key : Str) (data : List UInt8)
  | get (key : Str)
  | invalidate (key : Str)
  deriving DecidableEq

/-- A cache with the results of the calls of `get` so far. -/
structure Observed (σ : Type) where
  cache : σ
  results : List (Option (List UInt8))

/-- One call on the cache. -/
def LRUCache.step (s : Observed LRUCache) : Op → Option (Observed LRUCache)
  | .put key data => some { s with cache := s.cache.put key data }
  | .get key => some ⟨(s.cache.get key).1, s.results ++ [(s.cache.get key).2]⟩
  | .invalidate key => some { s with cache := s.cache.invalidate key }

/-- One call on the reference. -/
def Reference.step (r : Observed Reference) : Op → Option (Observed Reference)
  | .put key data => some { r with cache := r.cache.put key data }
  | .get key => some ⟨(r.cache.get key).1, r.results ++ [(r.cache.get key).2]⟩
  | .invalidate key => some { r with cache := r.cache.invalidate key }

end RawDish.Util
