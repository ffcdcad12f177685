import Mathlib.Data.List.Basic
import Mathlib.Tactic.SplitIfs

/-!
# Reading objects from a stream

A stream arrives in pieces. What has arrived and is not read is kept; after every piece the objects
that are complete are taken from the front, one after the other, and handled (`drain`). An
incremental reader, for which it does not matter what follows an object, handles the same objects in
the same order however the stream is cut (`feedAll_eq_drain`).

## Main definitions

* `Unpacker` : a reader that takes an object from the front.
* `drain`, `feed`, `feedAll`.
* `Unpacker.Incremental` : what follows an object does not matter.
* `objects` : the complete objects of a stream.

## Main results

* `drain_eq_foldlM` : reading a stream is handling its objects.

* `drain_append` : reading a stream up to some point and then on.
* `feedAll_eq_drain` : the pieces do not matter.
* `drain_flatMap` : a stream of objects is read completely.
* `drain_of_append_eq_flatMap` : a piece of a stream of objects.
-/

namespace RawDish.Lib

variable {O σ μ : Type}

/-- A reader of objects. Every object has at least one byte. -/
structure Unpacker (O : Type) where
  /-- The first object and what follows it, when it is complete. -/
  next : List UInt8 → Option (O × List UInt8)
  length_lt : ∀ {p r : List UInt8} {o : O}, next p = some (o, r) → r.length < p.length

/-- An object is read as soon as it is complete, whatever follows it. -/
def Unpacker.Incremental (u : Unpacker O) : Prop :=
  ∀ {p r : List UInt8} {o : O}, u.next p = some (o, r) → ∀ q, u.next (p ++ q) = some (o, r ++ q)

/-- Handle the objects that are complete; what is left is the beginning of the next one. -/
def drain (u : Unpacker O) (handle : σ → O → Option σ) (s : σ) (p : List UInt8) :
    Option (σ × List UInt8) :=
  match _h : u.next p with
  | none => some (s, p)
  | some (o, r) => (handle s o).bind fun t => drain u handle t r
termination_by p.length
decreasing_by exact u.length_lt _h

/-- The complete objects of a stream, and what follows them. -/
def objects (u : Unpacker O) (p : List UInt8) : List O × List UInt8 :=
  match _h : u.next p with
  | none => ([], p)
  | some (o, r) => (o :: (objects u r).1, (objects u r).2)
termination_by p.length
decreasing_by all_goals exact u.length_lt _h

/-- One more piece of the stream. -/
def feed (u : Unpacker O) (handle : σ → O → Option σ) (st : σ × List UInt8) (piece : List UInt8) :
    Option (σ × List UInt8) :=
  drain u handle st.1 (st.2 ++ piece)

/-- Piece after piece. -/
def feedAll (u : Unpacker O) (handle : σ → O → Option σ) :
    σ × List UInt8 → List (List UInt8) → Option (σ × List UInt8)
  | st, [] => some st
  | st, piece :: pieces => (feed u handle st piece).bind fun st => feedAll u handle st pieces

variable {u : Unpacker O} {handle : σ → O → Option σ}

theorem drain_of_next_eq_none {p : List UInt8} (h : u.next p = none) (s : σ) :
    drain u handle s p = some (s, p) := by
  rw [drain]
  split
  · rfl
  · simp_all

theorem drain_of_next_eq_some {p r : List UInt8} {o : O} (h : u.next p = some (o, r)) (s : σ) :
    drain u handle s p = (handle s o).bind fun t => drain u handle t r := by
  rw [drain]
  split
  · simp_all
  · rename_i o' r' h'
    rw [h, Option.some.injEq, Prod.mk.injEq] at h'
    rw [h'.1, h'.2]

theorem next_nil (u : Unpacker O) : u.next [] = none := by
  cases h : u.next [] with
  | none => rfl
  | some r => exact absurd (u.length_lt h) (Nat.not_lt_zero _)

/-! ### The objects of a stream -/

theorem objects_of_next_eq_none {p : List UInt8} (h : u.next p = none) :
    objects u p = ([], p) := by
  rw [objects]
  split
  · rfl
  · simp_all

theorem objects_of_next_eq_some {p r : List UInt8} {o : O} (h : u.next p = some (o, r)) :
    objects u p = (o :: (objects u r).1, (objects u r).2) := by
  rw [objects]
  split
  · simp_all
  · rename_i o' r' h'
    rw [h, Option.some.injEq, Prod.mk.injEq] at h'
    rw [h'.1, h'.2]

/-- Reading a stream is handling its objects. -/
theorem drain_eq_foldlM (s : σ) (p : List UInt8) :
    drain u handle s p =
      ((objects u p).1.foldlM handle s).map fun t => (t, (objects u p).2) := by
  induction p using objects.induct u generalizing s with
  | case1 p h =>
    rw [drain_of_next_eq_none h, objects_of_next_eq_none h]
    rfl
  | case2 p o r h ih =>
    rw [drain_of_next_eq_some h, objects_of_next_eq_some h, List.foldlM_cons,
      Option.bind_eq_bind, Option.map_bind]
    exact Option.bind_congr fun t _ => ih t

theorem next_objects (u : Unpacker O) (p : List UInt8) : u.next (objects u p).2 = none := by
  induction p using objects.induct u with
  | case1 p h => rw [objects_of_next_eq_none h, h]
  | case2 p o r h ih => rw [objects_of_next_eq_some h, ih]

/-- The objects of a stream up to some point, and then on. -/
theorem objects_append (hu : u.Incremental) (p q : List UInt8) :
    objects u (p ++ q) = ((objects u p).1 ++ (objects u ((objects u p).2 ++ q)).1,
      (objects u ((objects u p).2 ++ q)).2) := by
  induction p using objects.induct u with
  | case1 p h => rw [objects_of_next_eq_none h, List.nil_append]
  | case2 p o r h ih =>
    rw [objects_of_next_eq_some (hu h q), objects_of_next_eq_some h, ih, List.cons_append]

/-! ### The pieces of a stream -/

/-- Reading a stream up to some point and then on. -/
theorem drain_append (hu : u.Incremental) (s : σ) (p q : List UInt8) :
    drain u handle s (p ++ q) =
      (drain u handle s p).bind fun st => drain u handle st.1 (st.2 ++ q) := by
  induction p using objects.induct u generalizing s with
  | case1 p h => rw [drain_of_next_eq_none h, Option.bind_some]
  | case2 p o r h ih =>
    rw [drain_of_next_eq_some (hu h q), drain_of_next_eq_some h, Option.bind_assoc]
    exact Option.bind_congr fun t _ => ih t

/-- What is left cannot be read. -/
theorem next_of_drain {s t : σ} {p r : List UInt8} (h : drain u handle s p = some (t, r)) :
    u.next r = none := by
  rw [drain_eq_foldlM, Option.map_eq_some_iff] at h
  obtain ⟨t', -, heq⟩ := h
  rw [← (Prod.mk.inj heq).2, next_objects]

/-- **The pieces do not matter.** A stream that arrives in pieces is read as in one piece. -/
theorem feedAll_eq_drain (hu : u.Incremental) (st : σ × List UInt8) (hst : u.next st.2 = none)
    (pieces : List (List UInt8)) :
    feedAll u handle st pieces = drain u handle st.1 (st.2 ++ pieces.flatten) := by
  induction pieces generalizing st with
  | nil => rw [feedAll, List.flatten_nil, List.append_nil, drain_of_next_eq_none hst]
  | cons piece pieces ih =>
    rw [feedAll, feed, List.flatten_cons, ← List.append_assoc,
      drain_append hu st.1 (st.2 ++ piece)]
    refine Option.bind_congr fun st' hst' => ?_
    exact ih st' (next_of_drain hst')

/-- Objects that were written one after the other are read one after the other, and nothing is
left. -/
theorem drain_flatMap {encode : μ → List UInt8} {act : σ → μ → σ}
    (hread : ∀ (x : μ) (s : σ) (rest : List UInt8), ∃ o,
      u.next (encode x ++ rest) = some (o, rest) ∧ handle s o = some (act s x))
    (s : σ) (xs : List μ) :
    drain u handle s (xs.flatMap encode) = some (xs.foldl act s, []) := by
  induction xs generalizing s with
  | nil => exact drain_of_next_eq_none (next_nil u) s
  | cons x xs ih =>
    obtain ⟨o, hnext, hhandle⟩ := hread x s (xs.flatMap encode)
    rw [List.flatMap_cons, drain_of_next_eq_some hnext, hhandle, Option.bind_some, ih,
      List.foldl_cons]

/-- A piece of a stream of objects: some of them are read, and what is left of the piece is the
beginning of the others. -/
theorem drain_of_append_eq_flatMap (hu : u.Incremental) {encode : μ → List UInt8}
    {act : σ → μ → σ}
    (hread : ∀ (x : μ) (s : σ) (rest : List UInt8), ∃ o,
      u.next (encode x ++ rest) = some (o, rest) ∧ handle s o = some (act s x))
    (s : σ) {p rest : List UInt8} {xs : List μ} (h : p ++ rest = xs.flatMap encode) :
    ∃ pre post r, xs = pre ++ post ∧ drain u handle s p = some (pre.foldl act s, r) ∧
      u.next r = none ∧ r ++ rest = post.flatMap encode := by
  induction p using objects.induct u generalizing s xs with
  | case1 p hnext => exact ⟨[], xs, p, rfl, drain_of_next_eq_none hnext s, hnext, h⟩
  | case2 p o r hnext ih =>
    -- The stream begins with an object that is complete in the piece, so it is the first one.
    have hwhole := hu hnext rest
    cases xs with
    | nil =>
      rw [h, List.flatMap_nil, next_nil] at hwhole
      cases hwhole
    | cons x xs =>
      rw [h, List.flatMap_cons] at hwhole
      obtain ⟨o', hnext', hhandle⟩ := hread x s (xs.flatMap encode)
      rw [hnext', Option.some.injEq, Prod.mk.injEq] at hwhole
      obtain ⟨rfl, hrest⟩ := hwhole
      obtain ⟨pre, post, r', rfl, hdrain, hnone, hpost⟩ := ih (act s x) hrest.symm
      refine ⟨x :: pre, post, r', rfl, ?_, hnone, hpost⟩
      rw [drain_of_next_eq_some hnext, hhandle, Option.bind_some, hdrain, List.foldl_cons]

/-- What is kept is a beginning of the first object; when nothing follows, there is none. -/
theorem eq_nil_of_next_eq_none {encode : μ → List UInt8}
    (hread : ∀ (x : μ) (rest : List UInt8), ∃ o, u.next (encode x ++ rest) = some (o, rest))
    {r : List UInt8} {xs : List μ} (hnone : u.next r = none) (h : r = xs.flatMap encode) :
    xs = [] := by
  cases xs with
  | nil => rfl
  | cons x xs =>
    obtain ⟨o, hnext⟩ := hread x (xs.flatMap encode)
    rw [h, List.flatMap_cons, hnext] at hnone
    cases hnone

end RawDish.Lib
