import Mathlib

/-!
# Strings, addresses and ordered maps

The types shared by the whole model. `std::string` is a list of bytes. `std::map` and `std::set`
are `Std.ExtTreeMap` and `Std.ExtTreeSet`: they are walked in key order and two of them are equal
when they hold the same entries. `m[k]` of `std::map` inserts a default value under an absent
key; in the model a function that evaluates `m[k]` ends with `m.insert k` of the value it leaves
there.

## References

* `src/rpc/service_node.h`, lines 30–37 and 139–152.
-/

namespace RawDish

/-- `std::string`: any sequence of bytes. -/
abbrev Str := List UInt8

/-- The bytes of an ASCII literal. -/
def Str.ofString (s : String) : Str := s.toList.map fun c => UInt8.ofNat c.toNat

/-- `c_str()` as the functions of the C library read it: up to the first zero byte. -/
def Str.cStr (s : Str) : Str := s.takeWhile (· ≠ 0)

theorem nodup_keys {β : Type*} (m : Std.ExtTreeMap Str β) : m.keys.Nodup :=
  Std.ExtTreeMap.distinct_keys.imp fun h heq => h (Std.compare_eq_iff_eq.2 heq)

section Maps

variable {κ β : Type*} [Ord κ] [Std.TransOrd κ] [Std.LawfulEqOrd κ] [DecidableEq κ]

/-- The entries of a map after one was written. -/
theorem getElem?_insert_ite (m : Std.ExtTreeMap κ β) (k : κ) (v : β) (a : κ) :
    (m.insert k v)[a]? = if a = k then some v else m[a]? := by
  rw [Std.ExtTreeMap.getElem?_insert]
  simp only [Std.compare_eq_iff_eq, eq_comm (a := k)]

/-- The entries of a map after one was erased. -/
theorem getElem?_erase_ite (m : Std.ExtTreeMap κ β) (k a : κ) :
    (m.erase k)[a]? = if a = k then none else m[a]? := by
  rw [Std.ExtTreeMap.getElem?_erase]
  simp only [Std.compare_eq_iff_eq, eq_comm (a := k)]

end Maps

/-- Counting up a C `int` is exact below its maximum only. -/
theorem toInt_succ_iff (c : Int32) : (c + 1).toInt = c.toInt + 1 ↔ c.toInt < 2 ^ 31 - 1 := by
  have hlt := c.toInt_lt
  have hle := c.le_toInt
  rw [Int32.toInt_add, show (1 : Int32).toInt = 1 from rfl, Int.bmod_def]
  norm_num at *
  split_ifs <;> omega

/-- The list around the element that an action takes out of it. -/
theorem split_of_getElem? {α : Type*} {l : List α} {i : ℕ} {a : α} (h : l[i]? = some a) :
    ∃ pre post, l = pre ++ a :: post ∧ i = pre.length ∧ l.eraseIdx i = pre ++ post := by
  obtain ⟨hi, rfl⟩ := List.getElem?_eq_some_iff.1 h
  refine ⟨l.take i, l.drop (i + 1), ?_, by rw [List.length_take, min_eq_left hi.le],
    List.eraseIdx_eq_take_drop_succ l i⟩
  rw [List.getElem_cons_drop, List.take_append_drop]

/-- The other elements stay. -/
theorem mem_of_mem_split {α : Type*} {l pre post : List α} {a b : α} (hl : l = pre ++ a :: post)
    (hb : b ∈ pre ++ post) : b ∈ l := by
  rw [hl, List.mem_append, List.mem_cons]
  rcases List.mem_append.1 hb with hb | hb
  · exact Or.inl hb
  · exact Or.inr (Or.inr hb)

/-- `HostPortPair`: the address `(host, port)` under which a node listens. -/
structure HostPortPair where
  /-- The host name. -/
  first : Str
  /-- The TCP port. -/
  second : UInt16
  deriving DecidableEq, Repr

namespace HostPortPair

/-- The order of `std::pair`: by host name, then by port. -/
instance : Ord HostPortPair :=
  ⟨compareLex (compareOn HostPortPair.first) (compareOn HostPortPair.second)⟩

instance : Std.TransOrd HostPortPair :=
  inferInstanceAs (Std.TransCmp (compareLex (compareOn HostPortPair.first)
    (compareOn HostPortPair.second)))

instance : Std.LawfulEqOrd HostPortPair where
  eq_of_compare {a b} h := by
    have h' : (compare a.first b.first).then (compare a.second b.second) = .eq := h
    rw [Ordering.then_eq_eq] at h'
    obtain ⟨h₁, h₂⟩ := h'
    cases a
    cases b
    simp only [HostPortPair.mk.injEq]
    exact ⟨Std.LawfulEqOrd.eq_of_compare h₁, Std.LawfulEqOrd.eq_of_compare h₂⟩

end HostPortPair

end RawDish
