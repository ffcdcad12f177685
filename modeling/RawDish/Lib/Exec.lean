import Mathlib.Computability.StateTransition
import Mathlib.Data.List.Induction
import Mathlib.Order.OrderIsoNat

/-!
# Runs of a partial step function

A system is given by a partial step function `step : σ → α → Option σ`: an action `a` that the
state `s` does not allow gives `none`. `exec step s as` runs a list of actions. A run is
restricted by a condition on the state before each step (`AllSteps`), and a property of the
actions so far and of the state reached is proved by the rule `exec_invariant`: it holds at the
start and every step of the run keeps it.

A machine is a partial function `tick : σ → Option σ` that makes the next step, if there is one; the
states that it comes to are those of Mathlib's `StateTransition.Reaches`.

## Main definitions

* `exec` : the state reached by a list of actions.
* `AllSteps` : every step of a run meets a condition on the state before it.
* `Unending` : a run without end.

## Main results

* `exec_invariant` : the induction rule for properties of runs.
* `Unending.eventually_not` : the steps that decrease a measure come to an end.
* `exists_reaches_final` : a machine whose steps decrease a measure comes to an end.
-/

namespace RawDish.Lib

variable {σ α : Type*} (step : σ → α → Option σ)

/-- The state reached from `s` by the actions `as`, `none` when one of them is not allowed. -/
def exec : σ → List α → Option σ
  | s, [] => some s
  | s, a :: as => (step s a).bind fun t => exec t as

/-- Every step of the run of `as` from `s` meets the condition `C` on the state before it. -/
def AllSteps (C : σ → α → Prop) : σ → List α → Prop
  | _, [] => True
  | s, a :: as => C s a ∧ ∀ t, step s a = some t → AllSteps C t as

variable {step}

@[simp] theorem exec_nil (s : σ) : exec step s [] = some s := rfl

theorem exec_cons_eq_some {s u : σ} {a : α} {as : List α} :
    exec step s (a :: as) = some u ↔ ∃ t, step s a = some t ∧ exec step t as = some u := by
  simp only [exec, Option.bind_eq_some_iff]

theorem exec_append (s : σ) (as bs : List α) :
    exec step s (as ++ bs) = (exec step s as).bind fun t => exec step t bs := by
  induction as generalizing s with
  | nil => rfl
  | cons a as ih =>
    simp only [List.cons_append, exec]
    cases step s a with
    | none => rfl
    | some t => exact ih t

theorem exec_append_eq_some {s u : σ} {as bs : List α} :
    exec step s (as ++ bs) = some u ↔
      ∃ t, exec step s as = some t ∧ exec step t bs = some u := by
  rw [exec_append, Option.bind_eq_some_iff]

theorem exec_concat_eq_some {s u : σ} {as : List α} {a : α} :
    exec step s (as ++ [a]) = some u ↔ ∃ t, exec step s as = some t ∧ step t a = some u := by
  simp only [exec_append_eq_some, exec_cons_eq_some, exec_nil, Option.some.injEq, exists_eq_right]

theorem allSteps_append {C : σ → α → Prop} {s : σ} {as bs : List α} :
    AllSteps step C s (as ++ bs) ↔
      AllSteps step C s as ∧ ∀ t, exec step s as = some t → AllSteps step C t bs := by
  induction as generalizing s with
  | nil => simp [AllSteps]
  | cons a as ih =>
    simp only [List.cons_append, AllSteps, ih, exec_cons_eq_some]
    constructor
    · rintro ⟨ha, h⟩
      exact ⟨⟨ha, fun t ht => (h t ht).1⟩, fun u ⟨t, ht, hu⟩ => (h t ht).2 u hu⟩
    · rintro ⟨⟨ha, h⟩, h'⟩
      exact ⟨ha, fun t ht => ⟨h t ht, fun u hu => h' u ⟨t, ht, hu⟩⟩⟩

theorem allSteps_concat {C : σ → α → Prop} {s : σ} {as : List α} {a : α} :
    AllSteps step C s (as ++ [a]) ↔
      AllSteps step C s as ∧ ∀ t, exec step s as = some t → C t a := by
  simp [allSteps_append, AllSteps]

/-- A condition on the steps of a run, stated about its prefixes. -/
theorem allSteps_iff_prefix {C : σ → α → Prop} {s : σ} {as : List α} :
    AllSteps step C s as ↔
      ∀ pre a, pre ++ [a] <+: as → ∀ t, exec step s pre = some t → C t a := by
  induction as using List.reverseRecOn with
  | nil => simp [AllSteps]
  | append_singleton as b ih =>
    rw [allSteps_concat, ih]
    constructor
    · rintro ⟨hinit, hlast⟩ pre a hpre
      rcases List.prefix_concat_iff.1 hpre with heq | hpre
      · obtain ⟨rfl, hab⟩ := List.append_inj' heq rfl
        obtain rfl := List.singleton_inj.1 hab
        exact hlast
      · exact hinit pre a hpre
    · intro h
      exact ⟨fun pre a hpre => h pre a (hpre.trans (List.prefix_append as [b])),
        h as b List.prefix_rfl⟩

theorem AllSteps.and {C D : σ → α → Prop} {s : σ} {as : List α} (hC : AllSteps step C s as)
    (hD : AllSteps step D s as) : AllSteps step (fun s a => C s a ∧ D s a) s as := by
  induction as generalizing s with
  | nil => trivial
  | cons a as ih => exact ⟨⟨hC.1, hD.1⟩, fun t ht => ih (hC.2 t ht) (hD.2 t ht)⟩

/-- A condition that the actions meet in every state. -/
theorem AllSteps.of_forall {C : σ → α → Prop} {as : List α} (h : ∀ a ∈ as, ∀ s, C s a) (s : σ) :
    AllSteps step C s as := by
  induction as generalizing s with
  | nil => trivial
  | cons a as ih =>
    exact ⟨h a List.mem_cons_self s, fun t _ => ih (fun b hb => h b (List.mem_cons_of_mem a hb)) t⟩

instance AllSteps.decidable {C : σ → α → Prop} [∀ s a, Decidable (C s a)] :
    (s : σ) → (as : List α) → Decidable (AllSteps step C s as)
  | _, [] => isTrue trivial
  | s, a :: as =>
    match h : step s a with
    | none => decidable_of_iff (C s a) (by simp [AllSteps, h])
    | some t =>
      have : Decidable (AllSteps step C t as) := AllSteps.decidable t as
      decidable_of_iff (C s a ∧ AllSteps step C t as) (by simp [AllSteps, h])

/-- The induction rule for runs: a property of the actions so far and of the state reached holds
at the end of every run whose steps meet `C`, when it holds at the start and every such step
keeps it. -/
theorem exec_invariant {C : σ → α → Prop} {s : σ} (P : List α → σ → Prop) (hnil : P [] s)
    (hstep : ∀ as t a u, exec step s as = some t → P as t → C t a → step t a = some u →
      P (as ++ [a]) u) :
    ∀ {as : List α} {u : σ}, AllSteps step C s as → exec step s as = some u → P as u := by
  intro as
  induction as using List.reverseRecOn with
  | nil =>
    intro u _ hu
    rw [exec_nil, Option.some.injEq] at hu
    exact hu ▸ hnil
  | append_singleton as a ih =>
    intro u hC hu
    obtain ⟨t, ht, hta⟩ := exec_concat_eq_some.1 hu
    obtain ⟨hCas, hCa⟩ := allSteps_concat.1 hC
    exact hstep as t a u ht (ih hCas ht) (hCa t ht) hta

/-- The induction rule for runs without a condition on the steps. -/
theorem exec_induction {s : σ} (P : List α → σ → Prop) (hnil : P [] s)
    (hstep : ∀ as t a u, exec step s as = some t → P as t → step t a = some u →
      P (as ++ [a]) u) {as : List α} {u : σ} (hu : exec step s as = some u) : P as u := by
  have htrue : ∀ (as : List α) (s : σ), AllSteps step (fun _ _ => True) s as := by
    intro as
    induction as with
    | nil => exact fun _ => trivial
    | cons a as ih => exact fun _ => ⟨trivial, fun t _ => ih t⟩
  exact exec_invariant P hnil (fun as t a u ht hP _ => hstep as t a u ht hP) (htrue as s) hu

/-- A run whose steps meet a condition under which a step is defined comes to its end. -/
theorem AllSteps.exists_exec {C : σ → α → Prop} (hstep : ∀ s a, C s a → ∃ t, step s a = some t)
    {s : σ} {as : List α} (hC : AllSteps step C s as) : ∃ u, exec step s as = some u := by
  induction as generalizing s with
  | nil => exact ⟨s, rfl⟩
  | cons a as ih =>
    obtain ⟨ha, has⟩ := hC
    obtain ⟨t, ht⟩ := hstep s a ha
    obtain ⟨u, hu⟩ := ih (has t ht)
    exact ⟨u, exec_cons_eq_some.2 ⟨t, ht, hu⟩⟩

/-- A condition on the steps of a run follows from another one with the help of an invariant, which
then holds at the end as well. -/
theorem AllSteps.of_invariant {C D : σ → α → Prop} (I : σ → Prop)
    (hstep : ∀ s a t, I s → C s a → step s a = some t → D s a ∧ I t) {s u : σ} {as : List α}
    (hs : I s) (hC : AllSteps step C s as) (hu : exec step s as = some u) :
    AllSteps step D s as ∧ I u := by
  induction as generalizing s with
  | nil =>
    rw [exec_nil, Option.some.injEq] at hu
    exact ⟨trivial, hu ▸ hs⟩
  | cons a as ih =>
    obtain ⟨t, ht, htu⟩ := exec_cons_eq_some.1 hu
    obtain ⟨hD, hI⟩ := hstep s a t hs hC.1 ht
    obtain ⟨hrest, hend⟩ := ih hI (hC.2 t ht) htu
    refine ⟨⟨hD, fun t' ht' => ?_⟩, hend⟩
    rw [ht, Option.some.injEq] at ht'
    exact ht' ▸ hrest

theorem AllSteps.imp {C D : σ → α → Prop} (h : ∀ s a, C s a → D s a) {s : σ} {as : List α}
    (hC : AllSteps step C s as) : AllSteps step D s as := by
  induction as generalizing s with
  | nil => trivial
  | cons a as ih => exact ⟨h s a hC.1, fun t ht => ih (hC.2 t ht)⟩

/-- **Simulation.** When every step from related states is matched by a run that ends in related
states, every run is. -/
theorem exec_simulation {τ β : Type*} {step' : τ → β → Option τ} (R : σ → τ → Prop)
    (hstep : ∀ s a t s', R s s' → step s a = some t →
      ∃ bs t', exec step' s' bs = some t' ∧ R t t')
    {s t : σ} {s' : τ} {as : List α} (hs : R s s') (hrun : exec step s as = some t) :
    ∃ bs t', exec step' s' bs = some t' ∧ R t t' := by
  refine exec_induction (fun _ t => ∃ bs t', exec step' s' bs = some t' ∧ R t t')
    ⟨[], s', rfl, hs⟩ ?_ hrun
  rintro as t a u - ⟨bs, t', hbs, hR⟩ hst
  obtain ⟨cs, u', hcs, hR'⟩ := hstep t a u t' hR hst
  exact ⟨bs ++ cs, u', exec_append_eq_some.2 ⟨t', hbs, hcs⟩, hR'⟩

/-! ### Runs without end -/

variable (step) in
/-- A run without end: its states and its actions. -/
def Unending (f : ℕ → σ) (a : ℕ → α) : Prop := ∀ n, step (f n) (a n) = some (f (n + 1))

/-- A kind of action that decreases a measure is taken finitely often in a run in which no action
increases it. The invariant `I` is kept by the actions of the run. -/
theorem Unending.eventually_not {β : Type*} [PartialOrder β] [WellFoundedLT β] (measure : σ → β)
    (I : σ → Prop) {C K : α → Prop}
    (hstep : ∀ s a t, I s → C a → step s a = some t →
      I t ∧ measure t ≤ measure s ∧ (K a → measure t < measure s))
    {f : ℕ → σ} {a : ℕ → α} (hrun : Unending step f a) (hI : I (f 0)) (hC : ∀ n, C (a n)) :
    ∃ N, ∀ n, N ≤ n → ¬ K (a n) := by
  have hinv : ∀ n, I (f n) := by
    intro n
    induction n with
    | zero => exact hI
    | succ n ih => exact (hstep _ _ _ ih (hC n) (hrun n)).1
  have hanti : Antitone fun n => measure (f n) :=
    antitone_nat_of_succ_le fun n => (hstep _ _ _ (hinv n) (hC n) (hrun n)).2.1
  -- A decreasing sequence is constant from some point on.
  obtain ⟨N, hN⟩ := WellFoundedLT.antitone_chain_condition hanti
  refine ⟨N, fun n hn hK => ?_⟩
  have hlt := (hstep _ _ _ (hinv n) (hC n) (hrun n)).2.2 hK
  rw [← hN n hn, ← hN (n + 1) (by omega)] at hlt
  exact lt_irrefl _ hlt

/-! ### Machines -/

section Machines

open StateTransition (Reaches)

variable {tick : σ → Option σ} {s t u : σ}

theorem reaches_invariant (P : σ → Prop) (hstep : ∀ t u, P t → tick t = some u → P u)
    (hs : P s) (h : Reaches tick s t) : P t := by
  induction h with
  | refl => exact hs
  | tail _ hstep' ih => exact hstep _ _ ih hstep'

/-- A state where the machine stops is reached from every state that is reached. -/
theorem reaches_of_final (hfinal : tick u = none) (ht : Reaches tick s t) (hu : Reaches tick s u) :
    Reaches tick t u := by
  rcases StateTransition.reaches_total ht hu with h | h
  · exact h
  · rcases Relation.ReflTransGen.cases_head h with rfl | ⟨v, hv, -⟩
    · exact Relation.ReflTransGen.refl
    · rw [Option.mem_def, hfinal] at hv
      cases hv

/-- A machine stops when its steps decrease a measure. The invariant `I` is kept by the steps. -/
theorem exists_reaches_final {β : Type*} [Preorder β] [WellFoundedLT β] (measure : σ → β)
    (I : σ → Prop) (hstep : ∀ t u, I t → tick t = some u → I u ∧ measure u < measure t)
    (hs : I s) : ∃ t, Reaches tick s t ∧ I t ∧ tick t = none := by
  induction hm : measure s using WellFoundedLT.induction generalizing s with
  | ind b ih =>
    cases hnext : tick s with
    | none => exact ⟨s, Relation.ReflTransGen.refl, hs, hnext⟩
    | some u =>
      obtain ⟨hu, hlt⟩ := hstep s u hs hnext
      obtain ⟨t, hut, ht⟩ := ih (measure u) (hm ▸ hlt) hu rfl
      exact ⟨t, Relation.ReflTransGen.head hnext hut, ht⟩

variable (tick s) in
/-- The state after a number of steps. -/
def ticks : ℕ → Option σ
  | 0 => some s
  | n + 1 => (ticks n).bind tick

theorem reaches_iff_ticks : Reaches tick s t ↔ ∃ n, ticks tick s n = some t := by
  constructor
  · intro h
    induction h with
    | refl => exact ⟨0, rfl⟩
    | tail _ hstep ih =>
      obtain ⟨n, hn⟩ := ih
      exact ⟨n + 1, by rw [ticks, hn]; exact hstep⟩
  · rintro ⟨n, hn⟩
    induction n generalizing t with
    | zero => exact Option.some.inj hn ▸ Relation.ReflTransGen.refl
    | succ n ih =>
      obtain ⟨u, hu, hut⟩ := Option.bind_eq_some_iff.1 hn
      exact (ih hu).tail hut

/-- What holds of the states up to the end of the machine holds of all states. -/
theorem forall_reaches_of_ticks {P : σ → Prop} {n : ℕ} (hend : ticks tick s n = none)
    (h : ∀ k < n, ∀ t ∈ ticks tick s k, P t) (ht : Reaches tick s t) : P t := by
  obtain ⟨k, hk⟩ := reaches_iff_ticks.1 ht
  refine h k ?_ t hk
  by_contra hle
  have hnone : ∀ j, ticks tick s (n + j) = none := by
    intro j
    induction j with
    | zero => exact hend
    | succ j ih => rw [Nat.add_succ, ticks, ih, Option.bind_none]
  have hlate := hnone (k - n)
  rw [Nat.add_sub_cancel' (Nat.le_of_not_lt hle), hk] at hlate
  cases hlate

end Machines

end RawDish.Lib
