import Mathlib.Data.List.Forall2
import Mathlib.Data.List.Nodup
import Mathlib.Data.List.Pairwise

/-!
# Linearizability

Clients begin operations on one object and get their results later. A history is the sequence of
these events. It is linearizable when the operations can be put into an order in which they take
effect one after the other, so that every result that was returned is the one of this order, and an
operation that had returned before another one began comes first. Operations that have not returned
may have taken effect or not.

A system shows that its histories are linearizable by naming for every operation the step at which
it takes effect: `Linearizes` is kept by the beginning of a new operation, by the effect of one that
has begun, and by the return of one that has taken effect.

## Main definitions

* `HistoryEvent`, `Precedes` : histories and their order in time.
* `Linearizes` : the operations in the order of their effects.

## Main results

* `Linearizes.inv`, `Linearizes.effect`, `Linearizes.ret` : the three kinds of steps.
* `Sequential.exists_forall₂` : the same order in the terms of another object.
-/

namespace RawDish.Lib

variable {ι o r σ : Type*}

/-- An operation begins or returns. -/
inductive HistoryEvent (ι o r : Type*)
  | inv (i : ι) (op : o)
  | ret (i : ι) (res : r)

/-- The operation `i` has returned before `j` begins. -/
def Precedes (h : List (HistoryEvent ι o r)) (i j : ι) : Prop :=
  ∃ pre post res op, h = pre ++ .ret i res :: post ∧ .inv j op ∈ post

/-- An operation that has taken effect. -/
structure Effected (ι o r : Type*) where
  id : ι
  op : o
  res : r

/-- Operations take effect one after the other. -/
inductive Sequential (spec : σ → o → r → σ → Prop) (s : σ) : List (Effected ι o r) → σ → Prop
  | nil : Sequential spec s [] s
  | concat {l : List (Effected ι o r)} {t u : σ} (x : Effected ι o r)
      (hl : Sequential spec s l t) (hx : spec t x.op x.res u) : Sequential spec s (l ++ [x]) u

/-- The operations `l` have taken effect in this order: they have begun, those that have returned
are among them with their results, and the order keeps the one of the history. -/
structure Linearizes (spec : σ → o → r → σ → Prop) (s : σ) (h : List (HistoryEvent ι o r))
    (l : List (Effected ι o r)) (t : σ) : Prop where
  begun : ∀ x ∈ l, .inv x.id x.op ∈ h
  returned : ∀ i res, .ret i res ∈ h → ∃ x ∈ l, x.id = i ∧ x.res = res
  nodup : (l.map Effected.id).Nodup
  respects : l.Pairwise fun x y => ¬ Precedes h y.id x.id
  sequential : Sequential spec s l t

/-- Operations in other terms: when each of them can be told so as the state goes on, all can. -/
theorem Sequential.exists_forall₂ {o' r' : Type*} {spec : σ → o → r → σ → Prop}
    {spec' : σ → o' → r' → σ → Prop} {R : Effected ι o r → Effected ι o' r' → Prop}
    {I : σ → Prop} {l : List (Effected ι o r)} {s t : σ} (h : Sequential spec s l t) (hs : I s)
    (hR : ∀ x ∈ l, ∀ u v, I u → spec u x.op x.res v →
      I v ∧ ∃ x', R x x' ∧ spec' u x'.op x'.res v) :
    I t ∧ ∃ l', List.Forall₂ R l l' ∧ Sequential spec' s l' t := by
  induction h with
  | nil => exact ⟨hs, [], .nil, .nil⟩
  | concat x hl hx ih =>
    obtain ⟨hI, l', hforall, hl'⟩ := ih fun y hy => hR y (List.mem_append_left _ hy)
    obtain ⟨hI', x', hxx', hspec⟩ :=
      hR x (List.mem_append_right _ List.mem_cons_self) _ _ hI hx
    exact ⟨hI', l' ++ [x'], List.rel_append hforall (.cons hxx' .nil), .concat x' hl' hspec⟩

/-- What is in the one list has a partner in the other. -/
theorem exists_mem_of_forall₂ {α β : Type*} {R : α → β → Prop} {l : List α} {l' : List β}
    (h : List.Forall₂ R l l') {b : β} (hb : b ∈ l') : ∃ a ∈ l, R a b := by
  induction h with
  | nil => exact absurd hb List.not_mem_nil
  | @cons a b' l l' hab h ih =>
    rcases List.mem_cons.1 hb with rfl | hb
    · exact ⟨a, List.mem_cons_self, hab⟩
    · obtain ⟨a', ha', hab'⟩ := ih hb
      exact ⟨a', List.mem_cons_of_mem a ha', hab'⟩

theorem Precedes.ret_mem {h : List (HistoryEvent ι o r)} {i j : ι} (hij : Precedes h i j) :
    ∃ res, .ret i res ∈ h := by
  obtain ⟨pre, post, res, op, rfl, -⟩ := hij
  exact ⟨res, by simp⟩

/-- What is appended to a history begins after what has returned, or does not begin anything. -/
theorem Precedes.of_concat {h : List (HistoryEvent ι o r)} {e : HistoryEvent ι o r} {i j : ι}
    (hij : Precedes (h ++ [e]) i j) : Precedes h i j ∨ ∃ op, e = .inv j op := by
  obtain ⟨pre, post, res, op, heq, hmem⟩ := hij
  rcases List.eq_nil_or_concat post with rfl | ⟨post, e', rfl⟩
  · exact absurd hmem List.not_mem_nil
  · rw [List.concat_eq_append] at heq hmem
    rw [← List.cons_append, ← List.append_assoc] at heq
    obtain ⟨rfl, hlast⟩ := List.append_inj' heq rfl
    obtain rfl := List.singleton_inj.1 hlast
    rcases List.mem_append.1 hmem with hmem | hmem
    · exact Or.inl ⟨pre, post, res, op, rfl, hmem⟩
    · exact Or.inr ⟨op, (List.mem_singleton.1 hmem).symm⟩

namespace Linearizes

variable {spec : σ → o → r → σ → Prop} {s t u : σ} {h : List (HistoryEvent ι o r)}
  {l : List (Effected ι o r)}

theorem init (s : σ) : Linearizes spec s ([] : List (HistoryEvent ι o r)) [] s where
  begun _ hx := absurd hx List.not_mem_nil
  returned _ _ hres := absurd hres List.not_mem_nil
  nodup := List.nodup_nil
  respects := List.Pairwise.nil
  sequential := .nil

/-- An operation begins. -/
theorem inv (hl : Linearizes spec s h l t) {i : ι} (op : o) (hfresh : ∀ op', .inv i op' ∉ h) :
    Linearizes spec s (h ++ [.inv i op]) l t where
  begun x hx := List.mem_append_left _ (hl.begun x hx)
  returned j res hres := by
    rcases List.mem_append.1 hres with hres | hres
    · exact hl.returned j res hres
    · cases List.mem_singleton.1 hres
  nodup := hl.nodup
  respects := by
    refine hl.respects.imp_of_mem fun {x y} hx _ hxy hprecedes => ?_
    rcases hprecedes.of_concat with hprecedes | ⟨op', hop'⟩
    · exact hxy hprecedes
    · obtain ⟨rfl, -⟩ := HistoryEvent.inv.inj hop'
      exact hfresh x.op (hl.begun x hx)
  sequential := hl.sequential

/-- An operation that has begun takes effect. -/
theorem effect (hl : Linearizes spec s h l t) {x : Effected ι o r} (hbegun : .inv x.id x.op ∈ h)
    (hnew : x.id ∉ l.map Effected.id) (hspec : spec t x.op x.res u) :
    Linearizes spec s h (l ++ [x]) u where
  begun y hy := by
    rcases List.mem_append.1 hy with hy | hy
    · exact hl.begun y hy
    · exact List.mem_singleton.1 hy ▸ hbegun
  returned i res hres := by
    obtain ⟨y, hy, heq⟩ := hl.returned i res hres
    exact ⟨y, List.mem_append_left _ hy, heq⟩
  nodup := by
    rw [List.map_append, List.nodup_append]
    refine ⟨hl.nodup, List.nodup_singleton _, fun i hi j hj => ?_⟩
    rw [List.map_cons, List.map_nil, List.mem_singleton] at hj
    rintro rfl
    exact hnew (hj ▸ hi)
  respects := by
    rw [List.pairwise_append]
    refine ⟨hl.respects, List.pairwise_singleton _ _, fun y _ z hz hprecedes => ?_⟩
    -- The new operation has not returned.
    obtain ⟨res, hres⟩ := hprecedes.ret_mem
    obtain ⟨y', hy', hid, -⟩ := hl.returned _ res hres
    rw [List.mem_singleton.1 hz] at hid
    exact hnew (hid ▸ List.mem_map_of_mem hy')
  sequential := .concat x hl.sequential hspec

/-- An operation that has taken effect returns. -/
theorem ret (hl : Linearizes spec s h l t) {x : Effected ι o r} (hx : x ∈ l) :
    Linearizes spec s (h ++ [.ret x.id x.res]) l t where
  begun y hy := List.mem_append_left _ (hl.begun y hy)
  returned i res hres := by
    rcases List.mem_append.1 hres with hres | hres
    · exact hl.returned i res hres
    · obtain ⟨rfl, rfl⟩ := HistoryEvent.ret.inj (List.mem_singleton.1 hres)
      exact ⟨x, hx, rfl, rfl⟩
  nodup := hl.nodup
  respects := by
    refine hl.respects.imp fun {y z} hyz hprecedes => ?_
    rcases hprecedes.of_concat with hprecedes | ⟨op, hop⟩
    · exact hyz hprecedes
    · cases hop
  sequential := hl.sequential

end Linearizes

end RawDish.Lib
