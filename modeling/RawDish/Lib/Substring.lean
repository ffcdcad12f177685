import Mathlib.Data.List.Basic
import Mathlib.Tactic.SplitIfs

/-!
# Searching in strings

`find` gives the position of the first occurrence of a word in a string, and `rfind` that of the
last occurrence of a symbol. A string that is cut there is put together again from the parts, and
the parts are determined by the string: whether an occurrence of a word is the first one depends on
what stands before it only (`First`).

## Main definitions

* `find`, `rfind`.
* `First` : no occurrence of a word begins before the end of a string that it follows.

## Main results

* `find_append`, `rfind_append` : the position in a string that was put together.
* `find_eq_some`, `exists_last` : the parts of a string that is cut.
* `First.unique`, `first_unique`, `last_unique` : the parts are determined.
-/

namespace RawDish.Lib

variable {α : Type*} [DecidableEq α] {w pre pre' post post' s : List α} {c : α} {i : ℕ}

/-- The position of the first occurrence of the word `w`. -/
def find (w : List α) : List α → Option ℕ
  | [] => if w = [] then some 0 else none
  | c :: s => if w.isPrefixOf (c :: s) then some 0 else (find w s).map (· + 1)

/-- The position of the last occurrence of the symbol `c`. -/
def rfind (c : α) : List α → Option ℕ
  | [] => none
  | x :: s => ((rfind c s).map (· + 1)).or (if x = c then some 0 else none)

/-- No occurrence of `w` in `pre ++ w` begins in `pre`. -/
def First (w pre : List α) : Prop := ∀ i < pre.length, ¬ w <+: (pre ++ w).drop i

instance (w pre : List α) : Decidable (First w pre) :=
  decidable_of_iff (∀ i < pre.length, ¬ w.isPrefixOf ((pre ++ w).drop i) = true)
    (by simp only [First, List.isPrefixOf_iff_prefix])

omit [DecidableEq α] in
/-- What follows a symbol. -/
theorem drop_append_cons (pre post : List α) (c : α) :
    (pre ++ c :: post).drop (pre.length + 1) = post := by
  rw [← List.drop_drop, List.drop_left, List.drop_one, List.tail_cons]

/-! ### The first occurrence -/

omit [DecidableEq α] in
theorem First.tail {x : α} (h : First w (x :: pre)) : First w pre := fun i hi =>
  h (i + 1) (Nat.succ_lt_succ hi)

omit [DecidableEq α] in
/-- An occurrence that begins in `pre` ends before what follows the word. -/
theorem First.not_prefix {x : α} (h : First w (x :: pre)) (post : List α) :
    ¬ w <+: x :: (pre ++ w ++ post) := by
  intro hprefix
  have hlen : w.length ≤ (x :: (pre ++ w)).length := by
    rw [List.length_cons, List.length_append]
    omega
  have happ : x :: (pre ++ w) <+: x :: (pre ++ w ++ post) := ⟨post, rfl⟩
  exact h 0 (Nat.succ_pos _) (List.prefix_of_prefix_length_le hprefix happ hlen)

theorem find_append (h : First w pre) (post : List α) :
    find w (pre ++ w ++ post) = some pre.length := by
  induction pre with
  | nil =>
    rw [List.nil_append]
    cases hs : w ++ post with
    | nil => rw [find, if_pos (List.append_eq_nil_iff.1 hs).1, List.length_nil]
    | cons x s =>
      have hprefix : w.isPrefixOf (x :: s) := List.isPrefixOf_iff_prefix.2 ⟨post, hs⟩
      rw [find, if_pos hprefix, List.length_nil]
  | cons x pre ih =>
    have hnot : ¬ w.isPrefixOf (x :: (pre ++ w ++ post)) := fun hprefix =>
      h.not_prefix post (List.isPrefixOf_iff_prefix.1 hprefix)
    rw [List.cons_append, List.cons_append, find, if_neg hnot, ih h.tail, Option.map_some,
      List.length_cons]

/-- A string that is cut at the first occurrence of a word. -/
theorem find_eq_some (h : find w s = some i) :
    ∃ pre post, s = pre ++ w ++ post ∧ pre.length = i ∧ First w pre := by
  induction s generalizing i with
  | nil =>
    rw [find] at h
    split_ifs at h with hw
    exact ⟨[], [], by simp [hw], Option.some.inj h, fun _ hi => absurd hi (Nat.not_lt_zero _)⟩
  | cons x s ih =>
    rw [find] at h
    split_ifs at h with hprefix
    · obtain ⟨post, hpost⟩ := List.isPrefixOf_iff_prefix.1 hprefix
      exact ⟨[], post, hpost.symm, Option.some.inj h, fun _ hi => absurd hi (Nat.not_lt_zero _)⟩
    · obtain ⟨j, hj, rfl⟩ := Option.map_eq_some_iff.1 h
      obtain ⟨pre, post, rfl, rfl, hfirst⟩ := ih hj
      refine ⟨x :: pre, post, rfl, rfl, fun i hi hoccurs => ?_⟩
      cases i with
      | zero =>
        refine hprefix (List.isPrefixOf_iff_prefix.2 (hoccurs.trans ?_))
        exact ⟨post, rfl⟩
      | succ i => exact hfirst i (Nat.lt_of_succ_lt_succ hi) hoccurs

/-- The parts of a string that is cut at the first occurrence of a word are determined. -/
theorem First.unique (h : First w pre) (h' : First w pre')
    (heq : pre ++ w ++ post = pre' ++ w ++ post') : pre = pre' ∧ post = post' := by
  have hfind := find_append h post
  rw [heq, find_append h' post', Option.some.injEq] at hfind
  rw [List.append_assoc, List.append_assoc] at heq
  obtain ⟨hpre, hrest⟩ := List.append_inj heq hfind.symm
  exact ⟨hpre, List.append_cancel_left hrest⟩

omit [DecidableEq α] in
theorem first_singleton : First [c] pre ↔ c ∉ pre := by
  induction pre with
  | nil => exact iff_of_true (fun _ hi => absurd hi (Nat.not_lt_zero _)) List.not_mem_nil
  | cons x pre ih =>
    rw [List.mem_cons, not_or, ← ih]
    constructor
    · intro h
      refine ⟨?_, h.tail⟩
      rintro rfl
      exact h 0 (Nat.succ_pos _) ⟨pre ++ [c], rfl⟩
    · rintro ⟨hne, h⟩ i hi hprefix
      cases i with
      | zero => exact hne (List.cons_prefix_cons.1 hprefix).1
      | succ i => exact h i (Nat.lt_of_succ_lt_succ hi) hprefix

/-- The parts of a string that is cut at the first occurrence of a symbol are determined. -/
theorem first_unique (h : c ∉ pre) (h' : c ∉ pre') (heq : pre ++ c :: post = pre' ++ c :: post') :
    pre = pre' ∧ post = post' := by
  refine (first_singleton.2 h).unique (first_singleton.2 h') ?_
  rw [List.append_assoc, List.append_assoc]
  exact heq

theorem find_singleton_append (h : c ∉ pre) (post : List α) :
    find [c] (pre ++ c :: post) = some pre.length := by
  have hfind := find_append (first_singleton.2 h) post
  rwa [List.append_assoc, List.singleton_append] at hfind

theorem find_singleton_eq_none_iff : find [c] s = none ↔ c ∉ s := by
  constructor
  · intro hnone hmem
    obtain ⟨pre, post, rfl, hnot⟩ := List.eq_append_cons_of_mem hmem
    rw [find_singleton_append hnot] at hnone
    exact Option.some_ne_none _ hnone
  · intro h
    by_contra hne
    obtain ⟨i, hi⟩ := Option.ne_none_iff_exists'.1 hne
    obtain ⟨pre, post, rfl, -, -⟩ := find_eq_some hi
    simp at h

/-! ### The last occurrence -/

theorem rfind_eq_none_iff : rfind c s = none ↔ c ∉ s := by
  induction s with
  | nil => simp [rfind]
  | cons x s ih =>
    simp only [rfind, Option.or_eq_none_iff, Option.map_eq_none_iff, ih, List.mem_cons, not_or]
    by_cases hx : x = c
    · simp [hx]
    · simp [hx, Ne.symm hx]

theorem rfind_append (h : c ∉ post) : rfind c (pre ++ c :: post) = some pre.length := by
  induction pre with
  | nil => rw [List.nil_append, rfind, rfind_eq_none_iff.2 h, if_pos rfl]; rfl
  | cons x pre ih =>
    rw [List.cons_append, rfind, ih, Option.map_some, Option.some_or, List.length_cons]

omit [DecidableEq α] in
/-- A string that is cut at the last occurrence of a symbol. -/
theorem exists_last (h : c ∈ s) : ∃ pre post, s = pre ++ c :: post ∧ c ∉ post := by
  obtain ⟨as, bs, hs, hnot⟩ := List.eq_append_cons_of_mem (List.mem_reverse.2 h)
  refine ⟨bs.reverse, as.reverse, ?_, by rwa [List.mem_reverse]⟩
  rw [← List.reverse_reverse s, hs]
  simp

/-- The parts of a string that is cut at the last occurrence of a symbol are determined. -/
theorem last_unique (h : c ∉ post) (h' : c ∉ post') (heq : pre ++ c :: post = pre' ++ c :: post') :
    pre = pre' ∧ post = post' := by
  have hrfind : rfind c (pre ++ c :: post) = some pre.length := rfind_append h
  rw [heq, rfind_append h', Option.some.injEq] at hrfind
  obtain ⟨hpre, hrest⟩ := List.append_inj heq hrfind.symm
  exact ⟨hpre, (List.cons.inj hrest).2⟩

end RawDish.Lib
