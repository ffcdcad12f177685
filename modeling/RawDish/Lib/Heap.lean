import Mathlib.Data.List.Basic
import Mathlib.Tactic.SplitIfs
import Mathlib.Tactic.Ring

/-!
# Binary heaps in a list

The heap algorithms of the C++ standard library on a list, as `libstdc++` computes them. A hole is
moved down to a leaf along the greater children and the value that belongs in it is then moved up
again (`adjustHeap`). On a range that is not a heap they still compute something, and permute its
elements.

The children of the cell `i` are the cells `2 * i + 1` and `2 * i + 2`. `HeapFrom comp k l` says
that no cell from `k` on is less than one of its children. The two moves of the hole are described
by one invariant, `Hole`: all cells off the hole are in order, and the parent of the hole is not
less than its children.

## Main definitions

* `pushUp`, `siftDown`, `adjustHeap`, `makeHeap`, `pushHeap`, `popHeap`.
* `HeapFrom`, `IsHeap`.

## Main results

* `makeHeap_perm`, `popHeap_eq` : the elements stay.
* `adjustHeap_heapFrom`, `isHeap_makeHeap`, `isHeap_pushHeap`, `isHeap_popHeap`.
* `IsHeap.cell_zero` : nothing is greater than the first element of a heap.
-/

namespace RawDish.Lib

variable {α : Type*} [Inhabited α]

/-- The cell `i` of the list. -/
def cell (l : List α) (i : ℕ) : α := l.getD i default

/-- `__push_heap`: move the hole up while its parent is less than the value and it is not at
`top`, then fill it. -/
def pushUp (comp : α → α → Bool) (top : ℕ) (value : α) (l : List α) (hole : ℕ) : List α :=
  if top < hole ∧ comp (cell l ((hole - 1) / 2)) value then
    pushUp comp top value (l.set hole (cell l ((hole - 1) / 2))) ((hole - 1) / 2)
  else l.set hole value
termination_by hole

/-- The first part of `__adjust_heap`: move the hole down along the greater children, until it
has none or only a left one. -/
def siftDown (comp : α → α → Bool) (l : List α) (hole : ℕ) : List α × ℕ :=
  if hole < (l.length - 1) / 2 then
    if comp (cell l (2 * (hole + 1))) (cell l (2 * (hole + 1) - 1)) then
      siftDown comp (l.set hole (cell l (2 * (hole + 1) - 1))) (2 * (hole + 1) - 1)
    else siftDown comp (l.set hole (cell l (2 * (hole + 1)))) (2 * (hole + 1))
  else if l.length % 2 = 0 ∧ hole = (l.length - 2) / 2 then
    (l.set hole (cell l (2 * (hole + 1) - 1)), 2 * (hole + 1) - 1)
  else (l, hole)
termination_by l.length - hole
decreasing_by all_goals (rw [List.length_set]; omega)

/-- `__adjust_heap` over the whole list. -/
def adjustHeap (comp : α → α → Bool) (l : List α) (hole : ℕ) (value : α) : List α :=
  pushUp comp hole value (siftDown comp l hole).1 (siftDown comp l hole).2

/-- The loop of `make_heap` from `parent` down to zero. -/
def makeHeapFrom (comp : α → α → Bool) : ℕ → List α → List α
  | 0, l => adjustHeap comp l 0 (cell l 0)
  | parent + 1, l =>
    makeHeapFrom comp parent (adjustHeap comp l (parent + 1) (cell l (parent + 1)))

/-- `make_heap`. -/
def makeHeap (comp : α → α → Bool) (l : List α) : List α :=
  if l.length < 2 then l else makeHeapFrom comp ((l.length - 2) / 2) l

/-- `push_heap`: the last element is the new one. -/
def pushHeap (comp : α → α → Bool) (l : List α) : List α :=
  pushUp comp 0 (cell l (l.length - 1)) l (l.length - 1)

/-- `pop_heap`: the first element goes to the last cell, and the last element is the value for the
hole in the rest. -/
def popHeap (comp : α → α → Bool) (l : List α) : List α :=
  if 1 < l.length then
    adjustHeap comp l.dropLast 0 (cell l (l.length - 1)) ++ [cell l 0]
  else l

/-! ### Cells -/

@[simp] theorem cell_set {l : List α} {i : ℕ} (hi : i < l.length) (x : α) (j : ℕ) :
    cell (l.set i x) j = if j = i then x else cell l j := by
  simp only [cell, List.getD_eq_getElem?_getD, List.getElem?_set]
  by_cases hj : i = j
  · subst hj
    simp [hi]
  · simp [hj, Ne.symm hj]

theorem cell_eq_getElem {l : List α} {i : ℕ} (hi : i < l.length) : cell l i = l[i] := by
  simp [cell, List.getD_eq_getElem?_getD, hi]

theorem cell_append {l : List α} {i : ℕ} (hi : i < l.length) (l' : List α) :
    cell (l ++ l') i = cell l i := by
  rw [cell_eq_getElem (by simp; omega), cell_eq_getElem hi, List.getElem_append_left hi]

theorem set_cell_self {l : List α} {i : ℕ} (hi : i < l.length) : l.set i (cell l i) = l := by
  rw [cell_eq_getElem hi, List.set_getElem_self]

/-- Moving the hole keeps the elements. -/
theorem set_cell_perm {l : List α} {i j : ℕ} (hi : i < l.length) (hj : j < l.length) (hij : i ≠ j)
    (x : α) : ((l.set i (cell l j)).set j x).Perm (l.set i x) := by
  have hi' : i < (l.set i x).length := by simpa using hi
  have hj' : j < (l.set i x).length := by simpa using hj
  have hperm := List.set_set_perm hi' hj'
  rw [List.getElem_set_self, List.getElem_set_ne hij, List.set_set, ← cell_eq_getElem hj] at hperm
  exact hperm

/-! ### The elements stay -/

section Perm

variable (comp : α → α → Bool)

theorem pushUp_perm (top : ℕ) (value : α) (l : List α) (hole : ℕ) (hhole : hole < l.length) :
    (pushUp comp top value l hole).Perm (l.set hole value) := by
  induction l, hole using pushUp.induct comp top value with
  | case1 l hole h ih =>
    rw [pushUp, if_pos h]
    have hp : (hole - 1) / 2 < l.length := by omega
    exact (ih (by simpa using hp)).trans (set_cell_perm hhole hp (by omega) value)
  | case2 l hole h =>
    rw [pushUp, if_neg h]

theorem siftDown_spec (l : List α) (hole : ℕ) (hhole : hole < l.length) (x : α) :
    (siftDown comp l hole).2 < l.length ∧ (siftDown comp l hole).1.length = l.length ∧
      ((siftDown comp l hole).1.set (siftDown comp l hole).2 x).Perm (l.set hole x) := by
  induction l, hole using siftDown.induct comp with
  | case1 l hole h hc ih =>
    rw [siftDown, if_pos h, if_pos hc]
    have hc' : 2 * (hole + 1) - 1 < l.length := by omega
    obtain ⟨hlt, hlen, hperm⟩ := ih (by simpa using hc')
    rw [List.length_set] at hlt hlen
    exact ⟨hlt, hlen, hperm.trans (set_cell_perm hhole hc' (by omega) x)⟩
  | case2 l hole h hc ih =>
    rw [siftDown, if_pos h, if_neg hc]
    have hc' : 2 * (hole + 1) < l.length := by omega
    obtain ⟨hlt, hlen, hperm⟩ := ih (by simpa using hc')
    rw [List.length_set] at hlt hlen
    exact ⟨hlt, hlen, hperm.trans (set_cell_perm hhole hc' (by omega) x)⟩
  | case3 l hole h hlast =>
    rw [siftDown, if_neg h, if_pos hlast]
    have hc' : 2 * (hole + 1) - 1 < l.length := by omega
    exact ⟨hc', by simp, set_cell_perm hhole hc' (by omega) x⟩
  | case4 l hole h hlast =>
    rw [siftDown, if_neg h, if_neg hlast]
    exact ⟨hhole, rfl, .refl _⟩

theorem adjustHeap_perm (l : List α) (hole : ℕ) (hhole : hole < l.length) (x : α) :
    (adjustHeap comp l hole x).Perm (l.set hole x) := by
  obtain ⟨hlt, hlen, hperm⟩ := siftDown_spec comp l hole hhole x
  exact (pushUp_perm comp hole x _ _ (hlen ▸ hlt)).trans hperm

theorem makeHeapFrom_perm (parent : ℕ) (l : List α) (hparent : parent < l.length) :
    (makeHeapFrom comp parent l).Perm l := by
  have hset : ∀ (l : List α) (i : ℕ), i < l.length → (adjustHeap comp l i (cell l i)).Perm l := by
    intro l i hi
    have hperm := adjustHeap_perm comp l i hi (cell l i)
    rwa [set_cell_self hi] at hperm
  induction parent generalizing l with
  | zero => exact hset l 0 hparent
  | succ parent ih =>
    have hperm := hset l (parent + 1) hparent
    exact (ih _ (by rw [hperm.length_eq]; omega)).trans hperm

theorem makeHeap_perm (l : List α) : (makeHeap comp l).Perm l := by
  rw [makeHeap]
  split_ifs
  · exact .refl l
  · exact makeHeapFrom_perm comp _ l (by omega)

theorem pushHeap_perm {l : List α} (hl : l ≠ []) : (pushHeap comp l).Perm l := by
  have hlast : l.length - 1 < l.length := Nat.sub_one_lt (mt List.length_eq_zero_iff.1 hl)
  have hperm := pushUp_perm comp 0 (cell l (l.length - 1)) l _ hlast
  rwa [set_cell_self hlast] at hperm

/-- A last element that no other is less than stays where it is. -/
theorem pushHeap_of_not_less {l : List α} {x : α} (h : ∀ y ∈ l, ¬ comp y x) :
    pushHeap comp (l ++ [x]) = l ++ [x] := by
  have hlen : (l ++ [x]).length - 1 = l.length := by simp
  have hx : cell (l ++ [x]) l.length = x := by
    rw [cell_eq_getElem (by simp)]
    simp
  rw [pushHeap, hlen, hx, pushUp, if_neg]
  · simp
  · rintro ⟨hpos, hlt⟩
    rw [cell_append (by omega), cell_eq_getElem (by omega)] at hlt
    exact h _ (List.getElem_mem _) hlt

/-- `pop_heap` leaves the first element in the last cell and the others before it. -/
theorem popHeap_eq {l : List α} (hl : l ≠ []) :
    ∃ init, popHeap comp l = init ++ [cell l 0] ∧ (cell l 0 :: init).Perm l := by
  have hpos := List.length_pos_iff.2 hl
  rw [popHeap]
  split_ifs with hlt
  · refine ⟨_, rfl, ?_⟩
    obtain ⟨x, rest, rfl⟩ := List.exists_cons_of_ne_nil hl
    have hrest : rest ≠ [] := by
      rintro rfl
      simp at hlt
    have hlast : cell (x :: rest) ((x :: rest).length - 1) = rest.getLast hrest := by
      rw [cell_eq_getElem (by simp), ← List.getLast_eq_getElem hl, List.getLast_cons hrest]
    have hperm := adjustHeap_perm comp (x :: rest).dropLast 0 (by
      rw [List.length_dropLast]; omega) (rest.getLast hrest)
    rw [List.dropLast_cons_of_ne_nil hrest, List.set_cons_zero] at hperm
    rw [hlast, List.dropLast_cons_of_ne_nil hrest]
    refine List.Perm.cons x (hperm.trans ?_)
    conv_rhs => rw [← List.dropLast_concat_getLast hrest]
    exact (List.perm_append_singleton _ _).symm
  · obtain ⟨x, rfl⟩ : ∃ x, l = [x] := List.length_eq_one_iff.1 (by omega)
    exact ⟨[], rfl, .refl _⟩

end Perm

/-! ### The order -/

/-- What the algorithms need of the comparison. -/
structure StrictWeakOrder (comp : α → α → Bool) : Prop where
  asymm : ∀ a b, comp a b → ¬ comp b a
  not_trans : ∀ a b c, ¬ comp a b → ¬ comp b c → ¬ comp a c

/-- No cell from `k` on is less than one of its children. -/
def HeapFrom (comp : α → α → Bool) (k : ℕ) (l : List α) : Prop :=
  ∀ i, 0 < i → i < l.length → k ≤ (i - 1) / 2 → ¬ comp (cell l ((i - 1) / 2)) (cell l i)

/-- No cell is less than one of its children. -/
def IsHeap (comp : α → α → Bool) (l : List α) : Prop := HeapFrom comp 0 l

/-- The cell is in the tree under `top`. -/
inductive Below (top : ℕ) : ℕ → Prop
  | refl : Below top top
  | left {i : ℕ} (h : Below top i) : Below top (2 * i + 1)
  | right {i : ℕ} (h : Below top i) : Below top (2 * i + 2)

theorem Below.parent {top i : ℕ} (h : Below top i) (hne : i ≠ top) : Below top ((i - 1) / 2) := by
  cases h with
  | refl => exact absurd rfl hne
  | @left j h =>
    rw [show (2 * j + 1 - 1) / 2 = j by omega]
    exact h
  | @right j h =>
    rw [show (2 * j + 2 - 1) / 2 = j by omega]
    exact h

theorem Below.child {top i c : ℕ} (h : Below top i) (hc : 0 < c) (hparent : (c - 1) / 2 = i) :
    Below top c := by
  have hcases : c = 2 * i + 1 ∨ c = 2 * i + 2 := by omega
  rcases hcases with rfl | rfl
  · exact h.left
  · exact h.right

theorem Below.le {top i : ℕ} (h : Below top i) : top ≤ i := by
  induction h with
  | refl => exact le_rfl
  | left _ ih => omega
  | right _ ih => omega

/-- The list is a heap from `top` on but for the hole: the cells off the hole are in order and the
parent of the hole is not less than its children. -/
structure Hole (comp : α → α → Bool) (l : List α) (top hole : ℕ) : Prop where
  below : Below top hole
  other : ∀ i, 0 < i → i < l.length → top ≤ (i - 1) / 2 → (i - 1) / 2 ≠ hole → i ≠ hole →
    ¬ comp (cell l ((i - 1) / 2)) (cell l i)
  bypass : hole ≠ top → ∀ c, 0 < c → c < l.length → (c - 1) / 2 = hole →
    ¬ comp (cell l ((hole - 1) / 2)) (cell l c)

section Order

variable {comp : α → α → Bool} (hcomp : StrictWeakOrder comp)

theorem HeapFrom.hole {l : List α} {k : ℕ} (h : HeapFrom comp (k + 1) l) : Hole comp l k k :=
  ⟨.refl, fun i hi hlt hk hne _ => h i hi hlt (by omega), fun hne => absurd rfl hne⟩

/-- The hole moves down to a greatest child. -/
theorem Hole.down {l : List α} {top hole c : ℕ} (h : Hole comp l top hole)
    (hhole : hole < l.length) (hc : 0 < c) (hlt : c < l.length) (hparent : (c - 1) / 2 = hole)
    (hmax : ∀ d, 0 < d → d < l.length → (d - 1) / 2 = hole → ¬ comp (cell l c) (cell l d)) :
    Hole comp (l.set hole (cell l c)) top c := by
  refine ⟨h.below.child hc hparent, fun i hi hil htop hne hic => ?_, fun _ d hd hdl hdc => ?_⟩
  · rw [List.length_set] at hil
    rw [cell_set hhole, cell_set hhole]
    by_cases hih : i = hole
    · subst hih
      rw [if_neg (by omega), if_pos rfl]
      exact h.bypass (by omega) c hc hlt hparent
    · rw [if_neg hih]
      by_cases hph : (i - 1) / 2 = hole
      · rw [if_pos hph]
        exact hmax i hi hil hph
      · rw [if_neg hph]
        exact h.other i hi hil htop hph hih
  · rw [List.length_set] at hdl
    have htop := h.below.le
    rw [cell_set hhole, cell_set hhole, if_pos hparent, if_neg (by omega), ← hdc]
    exact h.other d hd hdl (by omega) (by omega) (by omega)

include hcomp in
/-- The hole ends in a cell without children. -/
theorem siftDown_hole {l : List α} {top hole : ℕ} (h : Hole comp l top hole)
    (hhole : hole < l.length) :
    Hole comp (siftDown comp l hole).1 top (siftDown comp l hole).2 ∧
      ∀ d, 0 < d → d < l.length → (d - 1) / 2 ≠ (siftDown comp l hole).2 := by
  induction l, hole using siftDown.induct comp with
  | case1 l hole hlt hc ih =>
    rw [siftDown, if_pos hlt, if_pos hc]
    have hdown : Hole comp (l.set hole (cell l (2 * (hole + 1) - 1))) top (2 * (hole + 1) - 1) := by
      refine h.down hhole (by omega) (by omega) (by omega) fun d hd hdl hdh => ?_
      have hcases : d = 2 * (hole + 1) - 1 ∨ d = 2 * (hole + 1) := by omega
      rcases hcases with rfl | rfl
      · exact fun hlt => hcomp.asymm _ _ hlt hlt
      · exact hcomp.asymm _ _ hc
    simpa using ih hdown (by rw [List.length_set]; omega)
  | case2 l hole hlt hc ih =>
    rw [siftDown, if_pos hlt, if_neg hc]
    have hdown : Hole comp (l.set hole (cell l (2 * (hole + 1)))) top (2 * (hole + 1)) := by
      refine h.down hhole (by omega) (by omega) (by omega) fun d hd hdl hdh => ?_
      have hcases : d = 2 * (hole + 1) - 1 ∨ d = 2 * (hole + 1) := by omega
      rcases hcases with rfl | rfl
      · exact hc
      · exact fun hlt => hcomp.asymm _ _ hlt hlt
    simpa using ih hdown (by rw [List.length_set]; omega)
  | case3 l hole hlt hlast =>
    rw [siftDown, if_neg hlt, if_pos hlast]
    refine ⟨h.down hhole (by omega) (by omega) (by omega) fun d hd hdl hdh => ?_,
      fun d hd hdl => by simp only; omega⟩
    obtain rfl : d = 2 * (hole + 1) - 1 := by omega
    exact fun hlt => hcomp.asymm _ _ hlt hlt
  | case4 l hole hlt hlast =>
    rw [siftDown, if_neg hlt, if_neg hlast]
    exact ⟨h, fun d hd hdl => by simp only; omega⟩

include hcomp in
/-- The hole moves up from a parent that is less than the value. -/
theorem Hole.up {l : List α} {top hole : ℕ} {value : α} (h : Hole comp l top hole)
    (hhole : hole < l.length) (hne : top < hole) (hlt : comp (cell l ((hole - 1) / 2)) value)
    (hvalue : ∀ c, 0 < c → c < l.length → (c - 1) / 2 = hole → ¬ comp value (cell l c)) :
    Hole comp (l.set hole (cell l ((hole - 1) / 2))) top ((hole - 1) / 2) ∧
      ∀ c, 0 < c → c < l.length → (c - 1) / 2 = (hole - 1) / 2 →
        ¬ comp value (cell (l.set hole (cell l ((hole - 1) / 2))) c) := by
  have hparent := h.below.parent (by omega)
  have htop := hparent.le
  -- The sibling of the hole is not greater than the parent.
  have hsibling : ∀ c, 0 < c → c < l.length → (c - 1) / 2 = (hole - 1) / 2 → c ≠ hole →
      ¬ comp (cell l ((hole - 1) / 2)) (cell l c) := by
    intro c hc hcl hcp hch
    rw [← hcp]
    exact h.other c hc hcl (by omega) (by omega) hch
  refine ⟨⟨hparent, fun i hi hil hti hip hih => ?_, fun hpt c hc hcl hcp => ?_⟩,
    fun c hc hcl hcp => ?_⟩
  · rw [List.length_set] at hil
    have hih' : i ≠ hole := by
      rintro rfl
      exact hip rfl
    rw [cell_set hhole, cell_set hhole, if_neg hih']
    by_cases hph : (i - 1) / 2 = hole
    · rw [if_pos hph]
      exact h.bypass (by omega) i hi hil hph
    · rw [if_neg hph]
      exact h.other i hi hil hti hph hih'
  · rw [List.length_set] at hcl
    have hgrand : ¬ comp (cell l (((hole - 1) / 2 - 1) / 2)) (cell l ((hole - 1) / 2)) := by
      have := (hparent.parent hpt).le
      exact h.other _ (by omega) (by omega) this (by omega) (by omega)
    rw [cell_set hhole, cell_set hhole, if_neg (by omega)]
    by_cases hch : c = hole
    · rw [if_pos hch]
      exact hgrand
    · rw [if_neg hch]
      exact hcomp.not_trans _ _ _ hgrand (hsibling c hc hcl hcp hch)
  · rw [cell_set hhole]
    by_cases hch : c = hole
    · rw [if_pos hch]
      exact hcomp.asymm _ _ hlt
    · rw [if_neg hch]
      exact hcomp.not_trans _ _ _ (hcomp.asymm _ _ hlt) (hsibling c hc hcl hcp hch)

include hcomp in
/-- A value that is not less than the children of the hole fills it in order. -/
theorem pushUp_heapFrom {l : List α} {top hole : ℕ} {value : α} (h : Hole comp l top hole)
    (hhole : hole < l.length)
    (hvalue : ∀ c, 0 < c → c < l.length → (c - 1) / 2 = hole → ¬ comp value (cell l c)) :
    HeapFrom comp top (pushUp comp top value l hole) := by
  induction l, hole using pushUp.induct comp top value with
  | case1 l hole hmove ih =>
    rw [pushUp, if_pos hmove]
    obtain ⟨hup, hval⟩ := h.up hcomp hhole hmove.1 hmove.2 hvalue
    exact ih hup (by rw [List.length_set]; omega) (by simpa using hval)
  | case2 l hole hstop =>
    rw [pushUp, if_neg hstop]
    intro i hi hil htop
    rw [List.length_set] at hil
    rw [cell_set hhole, cell_set hhole]
    by_cases hih : i = hole
    · subst hih
      rw [if_neg (by omega), if_pos rfl]
      exact fun hlt => hstop ⟨by omega, hlt⟩
    · rw [if_neg hih]
      by_cases hph : (i - 1) / 2 = hole
      · rw [if_pos hph]
        exact hvalue i hi hil hph
      · rw [if_neg hph]
        exact h.other i hi hil htop hph hih

include hcomp in
/-- `__adjust_heap` extends the heap by the cell of the hole. -/
theorem adjustHeap_heapFrom {l : List α} {hole : ℕ} (h : HeapFrom comp (hole + 1) l)
    (hhole : hole < l.length) (x : α) : HeapFrom comp hole (adjustHeap comp l hole x) := by
  obtain ⟨hdown, hleaf⟩ := siftDown_hole hcomp h.hole hhole
  obtain ⟨hlt, hlen, -⟩ := siftDown_spec comp l hole hhole x
  exact pushUp_heapFrom hcomp hdown (hlen ▸ hlt) fun c hc hcl hcp =>
    absurd hcp (hleaf c hc (hlen ▸ hcl))

include hcomp in
theorem isHeap_makeHeap (l : List α) : IsHeap comp (makeHeap comp l) := by
  have hfrom : ∀ (parent : ℕ) (l : List α), parent < l.length → HeapFrom comp (parent + 1) l →
      IsHeap comp (makeHeapFrom comp parent l) := by
    intro parent
    induction parent with
    | zero => exact fun l hl h => adjustHeap_heapFrom hcomp h hl _
    | succ parent ih =>
      intro l hl h
      have hlen := (adjustHeap_perm comp l (parent + 1) hl (cell l (parent + 1))).length_eq
      rw [List.length_set] at hlen
      exact ih _ (by omega) (adjustHeap_heapFrom hcomp h hl _)
  rw [makeHeap]
  split_ifs with hlt
  · exact fun i hi hil => by omega
  · exact hfrom _ l (by omega) fun i hi hil hp => by omega

theorem below_zero (i : ℕ) : Below 0 i := by
  induction i using Nat.strong_induction_on with
  | _ i ih =>
    rcases Nat.eq_zero_or_pos i with rfl | hpos
    · exact .refl
    · exact (ih ((i - 1) / 2) (by omega)).child hpos rfl

include hcomp in
theorem isHeap_pushHeap {l : List α} (x : α) (h : IsHeap comp l) :
    IsHeap comp (pushHeap comp (l ++ [x])) := by
  have hlen : (l ++ [x]).length = l.length + 1 := by simp
  rw [pushHeap, hlen, Nat.add_sub_cancel]
  refine pushUp_heapFrom hcomp ⟨below_zero _, fun i hi hil _ hip hih => ?_,
    fun _ c hc hcl hcp => by omega⟩ (by omega) fun c hc hcl hcp => by omega
  rw [cell_append (by omega), cell_append (by omega)]
  exact h i hi (by omega) (Nat.zero_le _)

include hcomp in
theorem isHeap_popHeap {l : List α} (h : IsHeap comp l) :
    IsHeap comp (popHeap comp l).dropLast := by
  rw [popHeap]
  split_ifs with hlt
  · have hlen : l.dropLast.length = l.length - 1 := by simp
    have hcell : ∀ i < l.length - 1, cell l.dropLast i = cell l i := by
      intro i hi
      rw [cell_eq_getElem (by omega), cell_eq_getElem (by omega), List.getElem_dropLast]
    rw [List.dropLast_concat]
    refine adjustHeap_heapFrom hcomp (fun i hi hil _ => ?_) (by omega) _
    rw [hcell _ (by omega), hcell _ (by omega)]
    exact h i hi (by omega) (Nat.zero_le _)
  · intro i hi hil
    simp at hil
    omega

include hcomp in
/-- Nothing is greater than the first element of a heap. -/
theorem IsHeap.cell_zero {l : List α} (h : IsHeap comp l) {i : ℕ} (hi : i < l.length) :
    ¬ comp (cell l 0) (cell l i) := by
  induction i using Nat.strong_induction_on with
  | _ i ih =>
    rcases Nat.eq_zero_or_pos i with rfl | hpos
    · exact fun hlt => hcomp.asymm _ _ hlt hlt
    · exact hcomp.not_trans _ _ _ (ih ((i - 1) / 2) (by omega) (by omega))
        (h i hpos hi (Nat.zero_le _))

end Order

/-- Being a heap depends on the order of its elements only. -/
theorem IsHeap.congr {comp comp' : α → α → Bool} {l : List α} (h : IsHeap comp l)
    (heq : ∀ a ∈ l, ∀ b ∈ l, comp' a b = comp a b) : IsHeap comp' l := by
  intro i hi hil hk
  rw [cell_eq_getElem hil, cell_eq_getElem (by omega), heq _ (List.getElem_mem _) _
    (List.getElem_mem _), ← cell_eq_getElem, ← cell_eq_getElem]
  exact h i hi hil hk

end RawDish.Lib
