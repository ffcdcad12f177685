import RawDish.Lib.Exec
import RawDish.Rpc.ServiceNode

/-!
# Runs of one node: reference counts and group callbacks

A run of one node is a list of the group methods, local and remote, and of the callback methods.
`Observed` adds to the node the number of the next callback registration and the log of the
callback invocations so far, each with the group whose method fired it.

The reference count of a member should be the number of its adds minus the number of its
removals. A removal erases an entry at count one and leaves any other count alone, so the law
holds along a run exactly when no member is removed while two or more of its adds are
outstanding (`countLaw_iff`).

The callbacks are in step with the key set of the table all the same: they fire exactly when an
entry appears or disappears (`callbacks_see_membership`).

## Main definitions

* `Op`, `Observed`, `Observed.step` : the runs.
* `CountLaw` : the reference-count law for one member after a run.
* `Observed.flags` : the events a callback received for one name.

## Main results

* `countLaw_iff` : when the reference counts are right.
* `callbacks_see_membership` : what a registered callback has seen.

## References

* `src/rpc/service_node.cc`, lines 110–187 and 249–283; `src/rpc/service_node.h`, lines 80–114.
-/

namespace RawDish.Rpc

open Lib

/-- The methods of one node that touch groups and their callbacks. -/
inductive Op
  | addToGroup (group name : Str)
  | rpcAddToGroup (group name : Str)
  | removeFromGroup (group name : Str)
  | rpcRemoveFromGroup (group name : Str)
  | addGroupCallback (group : Str)
  | removeGroupCallback (group : Str)
  deriving DecidableEq

namespace Op

/-- The group a method names. -/
def group : Op → Str
  | .addToGroup g _ | .rpcAddToGroup g _ | .removeFromGroup g _ | .rpcRemoveFromGroup g _
  | .addGroupCallback g | .removeGroupCallback g => g

/-- The method adds `n` to `g`, locally or on behalf of a peer. -/
def Adds (g n : Str) (op : Op) : Prop := op = .addToGroup g n ∨ op = .rpcAddToGroup g n

/-- The method removes `n` from `g`, locally or on behalf of a peer. -/
def Removes (g n : Str) (op : Op) : Prop := op = .removeFromGroup g n ∨ op = .rpcRemoveFromGroup g n

instance (g n : Str) : DecidablePred (Adds g n) := fun _ => inferInstanceAs (Decidable (_ ∨ _))

instance (g n : Str) : DecidablePred (Removes g n) := fun _ => inferInstanceAs (Decidable (_ ∨ _))

end Op

/-- A node with its callback registrations numbered and their invocations logged. -/
structure Observed where
  node : ServiceNode
  nextCallback : ℕ
  /-- Every callback invocation so far, with the group named by the method that fired it. -/
  log : List (Str × Fired)

namespace Observed

/-- A node with no groups and no callbacks. -/
def start (addr : HostPortPair) (peers : Std.ExtTreeSet HostPortPair) : Observed :=
  ⟨⟨addr, peers, ∅, ∅⟩, 0, []⟩

/-- The method body run by an operation. -/
def effect (s : Observed) : Op → Effect
  | .addToGroup g n => s.node.addToGroup g n
  | .rpcAddToGroup g n => s.node.rpcAddToGroup g n
  | .removeFromGroup g n => s.node.removeFromGroup g n
  | .rpcRemoveFromGroup g n => s.node.rpcRemoveFromGroup g n
  | .addGroupCallback g => s.node.addGroupCallback g s.nextCallback
  | .removeGroupCallback g => s.node.removeGroupCallback g

/-- One method call; a registration takes the next number. -/
def step (s : Observed) (op : Op) : Option Observed :=
  some {
    node := (s.effect op).node
    nextCallback := match op with
      | .addGroupCallback _ => s.nextCallback + 1
      | _ => s.nextCallback
    log := s.log ++ (s.effect op).fired.map fun e => (op.group, e) }

/-- The callbacks registered for a group, in order. -/
def callbacks (s : Observed) (g : Str) : List ℕ := s.node.groupCallbacks.getD g []

/-- The events the callback `cb` has received for the name `n`, oldest first. -/
def flags (s : Observed) (cb : ℕ) (n : Str) : List Bool :=
  (s.log.filter fun e => e.2.callback = cb ∧ e.2.name = n).map fun e => e.2.added

/-- The change an operation makes to the count of `(g, n)`. -/
theorem memberCount_step {s t : Observed} {op : Op} (h : s.step op = some t) (g n : Str) :
    t.node.memberCount g n =
      if op.Adds g n then ServiceNode.countAdd (s.node.memberCount g n)
      else if op = .removeFromGroup g n then
        ServiceNode.countRemove 0 (s.node.memberCount g n)
      else if op = .rpcRemoveFromGroup g n then
        ServiceNode.countRemove (-1) (s.node.memberCount g n)
      else s.node.memberCount g n := by
  simp only [step, Option.some.injEq] at h
  subst h
  cases op with
  | addToGroup g' n' =>
    simp only [effect, ServiceNode.memberCount_addToGroup, Op.Adds, Op.addToGroup.injEq,
      reduceCtorEq, or_false, if_false, eq_comm (a := g), eq_comm (a := n)]
  | rpcAddToGroup g' n' =>
    simp only [effect, ServiceNode.memberCount_rpcAddToGroup, Op.Adds, Op.rpcAddToGroup.injEq,
      reduceCtorEq, false_or, if_false, eq_comm (a := g), eq_comm (a := n)]
  | removeFromGroup g' n' =>
    simp only [effect, ServiceNode.memberCount_removeFromGroup, Op.Adds,
      Op.removeFromGroup.injEq, reduceCtorEq, or_false, if_false, eq_comm (a := g),
      eq_comm (a := n)]
  | rpcRemoveFromGroup g' n' =>
    simp only [effect, ServiceNode.memberCount_rpcRemoveFromGroup, Op.Adds,
      Op.rpcRemoveFromGroup.injEq, reduceCtorEq, or_false, if_false, eq_comm (a := g),
      eq_comm (a := n)]
  | addGroupCallback g' =>
    simp only [effect, ServiceNode.memberCount_addGroupCallback, Op.Adds, reduceCtorEq, or_false,
      if_false]
  | removeGroupCallback g' =>
    simp only [effect, ServiceNode.memberCount_removeGroupCallback, Op.Adds, reduceCtorEq,
      or_false, if_false]

end Observed

/-! ### Reference counts -/

/-- How often a run adds `n` to `g`. -/
def adds (g n : Str) (ops : List Op) : ℕ := ops.countP fun op => op.Adds g n

/-- How often a run removes `n` from `g`. -/
def removes (g n : Str) (ops : List Op) : ℕ := ops.countP fun op => op.Removes g n

/-- The reference-count law for `(g, n)` after the run `ops`: there is an entry if and only if
the adds outnumber the removals, and its count is the difference. -/
def CountLaw (s : ServiceNode) (g n : Str) (ops : List Op) : Prop :=
  (s.IsMember g n ↔ removes g n ops < adds g n ops) ∧
    ∀ c, s.memberCount g n = some c → c.toInt = adds g n ops - removes g n ops

/-- No beginning of the run removes a member more often than it adds it. -/
def NeverOverRemoved (ops : List Op) : Prop :=
  ∀ pre, pre <+: ops → ∀ g n, removes g n pre ≤ adds g n pre

/-- Every removal of a member finds exactly one outstanding add of it, and no add exceeds the
range of the counter. -/
def RemovesLastAdd (ops : List Op) : Prop :=
  ∀ pre op, pre ++ [op] <+: ops → ∀ g n,
    (op.Removes g n → adds g n pre = removes g n pre + 1) ∧
    (op.Adds g n → adds g n pre < removes g n pre + (2 ^ 31 - 1))

theorem adds_concat (g n : Str) (ops : List Op) (op : Op) :
    adds g n (ops ++ [op]) = adds g n ops + if op.Adds g n then 1 else 0 := by
  simp [adds, List.countP_append, List.countP_singleton]

theorem removes_concat (g n : Str) (ops : List Op) (op : Op) :
    removes g n (ops ++ [op]) = removes g n ops + if op.Removes g n then 1 else 0 := by
  simp [removes, List.countP_append, List.countP_singleton]

private theorem not_adds_of_removes {g n : Str} {op : Op} (h : op.Removes g n) :
    ¬ op.Adds g n := by
  rintro (rfl | rfl) <;> rcases h with h | h <;> cases h

/-- A removal of an entry with a count: whichever of the two methods it is, the entry goes at
count one only. -/
private theorem memberCount_step_removes {s t : Observed} {op : Op} (h : s.step op = some t)
    {g n : Str} (hop : op.Removes g n) {c : Int32} (hc : s.node.memberCount g n = some c) :
    t.node.memberCount g n = if c = 1 then none else some c := by
  rw [Observed.memberCount_step h, if_neg (not_adds_of_removes hop), hc]
  rcases hop with rfl | rfl
  · rw [if_pos rfl]
    rfl
  · rw [if_neg (by simp), if_pos rfl]
    rfl

/-- One step keeps the law exactly when it is not a removal with two adds outstanding and not an
add past the range of the counter. -/
private theorem countLaw_step {s t : Observed} {op : Op} (h : s.step op = some t) {g n : Str}
    {ops : List Op} (hlaw : CountLaw s.node g n ops) (hops : removes g n ops ≤ adds g n ops)
    (hops' : removes g n (ops ++ [op]) ≤ adds g n (ops ++ [op])) :
    CountLaw t.node g n (ops ++ [op]) ↔
      (op.Removes g n → adds g n ops = removes g n ops + 1) ∧
      (op.Adds g n → adds g n ops < removes g n ops + (2 ^ 31 - 1)) := by
  obtain ⟨hmem, hcount⟩ := hlaw
  rw [ServiceNode.isMember_iff] at hmem
  simp only [CountLaw, ServiceNode.isMember_iff]
  rw [adds_concat, removes_concat] at hops' ⊢
  by_cases hadd : op.Adds g n
  · have hrem : ¬ op.Removes g n := fun hr => not_adds_of_removes hr hadd
    simp only [hadd, hrem, if_true, if_false, false_implies, true_and, true_implies]
    rw [Observed.memberCount_step h, if_pos hadd]
    cases hc : s.node.memberCount g n with
    | none =>
      simp only [hc, Option.isSome_none, Bool.false_eq_true, false_iff, not_lt] at hmem
      have heq : adds g n ops = removes g n ops := le_antisymm hmem hops
      simp only [ServiceNode.countAdd, Option.isSome_some, true_iff, Option.some.injEq,
        forall_eq', heq, Nat.add_zero]
      refine ⟨fun _ => by omega, fun _ => ⟨by omega, ?_⟩⟩
      rw [show (1 : Int32).toInt = 1 from rfl]
      push_cast
      ring
    | some c =>
      have hval := hcount c hc
      have hlt : removes g n ops < adds g n ops := hmem.1 (by rw [hc]; rfl)
      have hsucc := toInt_succ_iff c
      simp only [ServiceNode.countAdd, Option.isSome_some, true_iff, Option.some.injEq,
        forall_eq', Nat.add_zero]
      have hcast : ((adds g n ops + 1 : ℕ) : ℤ) - (removes g n ops : ℕ) = c.toInt + 1 := by
        push_cast
        omega
      rw [hcast, hsucc]
      omega
  · by_cases hrem : op.Removes g n
    · simp only [hadd, hrem, if_true, if_false, false_implies, and_true, true_implies,
        Nat.add_zero] at hops' ⊢
      -- The member is present, since its removals stay within its adds.
      obtain ⟨c, hc⟩ : ∃ c, s.node.memberCount g n = some c :=
        Option.isSome_iff_exists.1 (hmem.2 (by omega))
      have hval := hcount c hc
      rw [memberCount_step_removes h hrem hc]
      by_cases h1 : c = 1
      · have h1' : c.toInt = 1 := by rw [h1]; rfl
        simp only [h1, if_true, Option.isSome_none, Bool.false_eq_true, false_iff, not_lt,
          reduceCtorEq, false_implies, implies_true, and_true]
        omega
      · have h1' : c.toInt ≠ 1 := fun h' => h1 (Int32.toInt_inj.1 h')
        simp only [h1, if_false, Option.isSome_some, true_iff, Option.some.injEq, forall_eq']
        push_cast
        omega
    · have hkeep : t.node.memberCount g n = s.node.memberCount g n := by
        have hrem' : op ≠ .removeFromGroup g n ∧ op ≠ .rpcRemoveFromGroup g n :=
          ⟨fun h' => hrem (Or.inl h'), fun h' => hrem (Or.inr h')⟩
        rw [Observed.memberCount_step h, if_neg hadd, if_neg hrem'.1, if_neg hrem'.2]
      simp only [hadd, hrem, if_false, false_implies, and_true, Nat.add_zero, hkeep, iff_true]
      exact ⟨hmem, hcount⟩

/-- **Reference counts of group members.** Along a run that never removes a member more often
than it was added, the count law holds after every step if and only if every removal finds
exactly one outstanding add (and no add exceeds the range of the counter). A removal with two or
more outstanding adds leaves the count as it is.

Source: `src/rpc/service_node.cc`, lines 122–134, 149–166 and 249–281. -/
theorem countLaw_iff (addr : HostPortPair) (peers : Std.ExtTreeSet HostPortPair) (ops : List Op)
    (hops : NeverOverRemoved ops) :
    (∀ pre s, pre <+: ops → exec Observed.step (Observed.start addr peers) pre = some s →
      ∀ g n, CountLaw s.node g n pre) ↔ RemovesLastAdd ops := by
  have htotal : ∀ (s : Observed) (pre : List Op), ∃ t, exec Observed.step s pre = some t := by
    intro s pre
    induction pre generalizing s with
    | nil => exact ⟨s, rfl⟩
    | cons op pre ih =>
      obtain ⟨t, ht⟩ := ih ((s.step op).get rfl)
      exact ⟨t, exec_cons_eq_some.2 ⟨_, rfl, ht⟩⟩
  constructor
  · intro hlaw pre op hpre g n
    have hpre' : pre <+: ops := (List.prefix_append pre [op]).trans hpre
    obtain ⟨s, hs⟩ := htotal (Observed.start addr peers) pre
    have hstep : s.step op = some ((s.step op).get rfl) := rfl
    exact (countLaw_step hstep (hlaw pre s hpre' hs g n) (hops pre hpre' g n)
      (hops _ hpre g n)).1 (hlaw _ _ hpre (exec_concat_eq_some.2 ⟨s, hs, hstep⟩) g n)
  · intro hcond pre
    induction pre using List.reverseRecOn with
    | nil =>
      rintro s - hs g n
      simp only [exec_nil, Option.some.injEq] at hs
      subst hs
      have hnone : (Observed.start addr peers).node.memberCount g n = none := by
        simp [Observed.start, ServiceNode.memberCount, ServiceNode.group]
      refine ⟨?_, by simp [hnone]⟩
      rw [ServiceNode.isMember_iff, hnone]
      simp [adds, removes]
    | append_singleton pre op ih =>
      intro t hpre ht g n
      obtain ⟨s, hs, hst⟩ := exec_concat_eq_some.1 ht
      have hpre' : pre <+: ops := (List.prefix_append pre [op]).trans hpre
      exact (countLaw_step hst (ih s hpre' hs g n) (hops pre hpre' g n)
        (hops _ hpre g n)).2 (hcond pre op hpre g n)

private theorem neverOverRemoved_of_inits {ops : List Op}
    (h : ∀ pre ∈ ops.inits, ∀ g n, removes g n pre ≤ adds g n pre) : NeverOverRemoved ops :=
  fun pre hpre => h pre ((List.mem_inits _ _).2 hpre)

/-- One add and one removal of a member. -/
def addRemove : List Op := [.addToGroup [103] [110], .rpcRemoveFromGroup [103] [110]]

/-- Two adds and one removal of a member. -/
def addAddRemove : List Op :=
  [.addToGroup [103] [110], .addToGroup [103] [110], .removeFromGroup [103] [110]]

/-- The law at one add and one removal of a member, where the removal meets the condition. -/
theorem countLaw_iff_addRemove :
    NeverOverRemoved addRemove ∧
    ((∀ pre s, pre <+: addRemove →
      exec Observed.step (Observed.start ⟨[104], 1⟩ ∅) pre = some s →
        ∀ g n, CountLaw s.node g n pre) ↔ RemovesLastAdd addRemove) := by
  have h : NeverOverRemoved addRemove := by
    apply neverOverRemoved_of_inits
    simp only [addRemove, List.inits, List.map_cons, List.map_nil, List.mem_cons,
      List.not_mem_nil, or_false]
    rintro pre (rfl | rfl | rfl) g n <;>
      simp [adds, removes, Op.Adds, Op.Removes, List.countP_cons]
  exact ⟨h, countLaw_iff _ _ _ h⟩

/-- A member added twice and removed once: one add is outstanding, but the count is still two. -/
theorem countLaw_fails_addAddRemove :
    NeverOverRemoved addAddRemove ∧
    ∃ s, exec Observed.step (Observed.start ⟨[104], 1⟩ ∅) addAddRemove = some s ∧
      s.node.memberCount [103] [110] = some 2 ∧
      ¬ CountLaw s.node [103] [110] addAddRemove := by
  refine ⟨?_, _, rfl, by decide, fun h => ?_⟩
  · apply neverOverRemoved_of_inits
    simp only [addAddRemove, List.inits, List.map_cons, List.map_nil, List.mem_cons,
      List.not_mem_nil, or_false]
    rintro pre (rfl | rfl | rfl | rfl) g n <;>
      simp [adds, removes, Op.Adds, Op.Removes, List.countP_cons]
  · have h2 := h.2 2 (by decide)
    revert h2
    decide

/-! ### Group callbacks -/

/-- A removal names a member that currently has an entry. -/
def RemovesMember (s : Observed) (op : Op) : Prop :=
  ∀ g n, op.Removes g n → s.node.IsMember g n

/-- The sequence alternates, starting with `true`. -/
def Alternating (l : List Bool) : Prop := l.head? ≠ some false ∧ l.IsChain (· ≠ ·)

/-- Appending the opposite of the last event, or a first `true`, keeps the alternation. -/
theorem Alternating.concat {l : List Bool} {b : Bool} (h : Alternating l)
    (hb : l.getLast? = some true ↔ b = false) : Alternating (l ++ [b]) := by
  obtain ⟨hhead, hchain⟩ := h
  cases hl : l.getLast? with
  | none =>
    rw [List.getLast?_eq_none_iff] at hl
    subst hl
    have hb' : b = true := by simpa using hb
    subst hb'
    exact ⟨by simp, by simp⟩
  | some x =>
    have hne : l ≠ [] := by rintro rfl; simp at hl
    have hx : x = !b := by
      rw [hl, Option.some.injEq] at hb
      cases x <;> cases b <;> simp_all
    refine ⟨by rwa [List.head?_append_of_ne_nil _ hne], ?_⟩
    rw [List.isChain_append]
    refine ⟨hchain, List.isChain_singleton b, fun y hy z hz => ?_⟩
    rw [hl, Option.mem_some_iff] at hy
    rw [List.head?_cons, Option.mem_some_iff] at hz
    subst hy hz hx
    simp

/-- What the registered callbacks have seen: registrations are numbered without repetition, and
the events of a callback registered for `g` come from methods on `g`, alternate for each name
and end with `true` exactly for the members of `g`. -/
structure InStep (s : Observed) : Prop where
  registered_lt : ∀ g, ∀ cb ∈ s.callbacks g, cb < s.nextCallback
  logged_lt : ∀ e ∈ s.log, e.2.callback < s.nextCallback
  nodup : ∀ g, (s.callbacks g).Nodup
  group_unique : ∀ g g' cb, cb ∈ s.callbacks g → cb ∈ s.callbacks g' → g = g'
  own_group : ∀ g, ∀ cb ∈ s.callbacks g, ∀ e ∈ s.log, e.2.callback = cb → e.1 = g
  alternating : ∀ g, ∀ cb ∈ s.callbacks g, ∀ n, Alternating (s.flags cb n)
  last_iff : ∀ g, ∀ cb ∈ s.callbacks g, ∀ n,
    (s.flags cb n).getLast? = some true ↔ s.node.IsMember g n

/-- What a group method on `(group, name)` does as seen by the callbacks: either nothing happens
to the key sets and nothing fires, or the entry appears (`b = true`) or disappears (`b = false`)
and every callback of the group fires with `b`. -/
structure MemberEvent (s : ServiceNode) (group name : Str) (e : Effect) : Prop where
  callbacks : ∀ g, e.node.groupCallbacks.getD g [] = s.groupCallbacks.getD g []
  event : (e.fired = [] ∧ ∀ g n, e.node.IsMember g n ↔ s.IsMember g n) ∨
    ∃ b, e.fired = s.fire group name b ∧ (s.IsMember group name ↔ b = false) ∧
      ∀ g n, e.node.IsMember g n ↔ if g = group ∧ n = name then b = true else s.IsMember g n

namespace MemberEvent

private theorem getD_touch (m : Std.ExtTreeMap Str (List ℕ)) (group g : Str) :
    (m.insert group (m.getD group [])).getD g [] = m.getD g [] := by
  rw [Std.ExtTreeMap.getD_insert]
  split_ifs with h
  · rw [Std.compare_eq_iff_eq.1 h]
  · rfl

private theorem isMember_countAdd {s t : ServiceNode} {group name : Str}
    (h : ∀ g n, t.memberCount g n =
      if g = group ∧ n = name then ServiceNode.countAdd (s.memberCount g n)
      else s.memberCount g n) (g n : Str) :
    t.IsMember g n ↔ if g = group ∧ n = name then true = true else s.IsMember g n := by
  rw [ServiceNode.isMember_iff, h]
  split_ifs with hgn
  · cases s.memberCount g n <;> simp [ServiceNode.countAdd]
  · rw [ServiceNode.isMember_iff]

private theorem of_add {s : ServiceNode} {group name : Str} {e : Effect}
    (hcb : ∀ g, e.node.groupCallbacks.getD g [] = s.groupCallbacks.getD g [])
    (hfired : e.fired = if name ∈ s.group group then [] else s.fire group name true)
    (h : ∀ g n, e.node.memberCount g n =
      if g = group ∧ n = name then ServiceNode.countAdd (s.memberCount g n)
      else s.memberCount g n) : MemberEvent s group name e := by
  refine ⟨hcb, ?_⟩
  by_cases hmem : name ∈ s.group group
  · refine Or.inl ⟨by rw [hfired, if_pos hmem], fun g n => ?_⟩
    rw [isMember_countAdd h]
    split_ifs with hgn
    · rw [hgn.1, hgn.2]
      exact iff_of_true rfl hmem
    · rfl
  · refine Or.inr ⟨true, by rw [hfired, if_neg hmem], ?_, isMember_countAdd h⟩
    simp [ServiceNode.IsMember, hmem]

theorem addToGroup (s : ServiceNode) (group name : Str) :
    MemberEvent s group name (s.addToGroup group name) := by
  refine of_add (fun g => ?_) ?_ (s.memberCount_addToGroup group name)
  · simp only [ServiceNode.addToGroup]
    split_ifs
    · rfl
    · exact getD_touch s.groupCallbacks group g
  · simp only [ServiceNode.addToGroup]
    split_ifs <;> rfl

theorem rpcAddToGroup (s : ServiceNode) (group name : Str) :
    MemberEvent s group name (s.rpcAddToGroup group name) := by
  refine of_add (fun g => ?_) ?_ (s.memberCount_rpcAddToGroup group name)
  · simp only [ServiceNode.rpcAddToGroup]
    split_ifs <;> rfl
  · simp only [ServiceNode.rpcAddToGroup]
    split_ifs <;> rfl

private theorem of_remove {s : ServiceNode} {group name : Str} {absent : Int32} {e : Effect}
    (hmem : s.IsMember group name)
    (hcb : ∀ g, e.node.groupCallbacks.getD g [] = s.groupCallbacks.getD g [])
    (hfired : e.fired = if (s.group group).getD name 0 = 1 then s.fire group name false else [])
    (h : ∀ g n, e.node.memberCount g n =
      if g = group ∧ n = name then ServiceNode.countRemove absent (s.memberCount g n)
      else s.memberCount g n) : MemberEvent s group name e := by
  refine ⟨hcb, ?_⟩
  obtain ⟨c, hc⟩ := Option.isSome_iff_exists.1 (ServiceNode.isMember_iff.1 hmem)
  rw [(ServiceNode.getD_of_memberCount hc).2] at hfired
  by_cases h1 : c = 1
  · refine Or.inr ⟨false, by rw [hfired, if_pos h1], iff_of_true hmem rfl, fun g n => ?_⟩
    rw [ServiceNode.isMember_iff, h]
    split_ifs with hgn
    · rw [hgn.1, hgn.2, hc]
      simp [ServiceNode.countRemove, h1]
    · rw [ServiceNode.isMember_iff]
  · refine Or.inl ⟨by rw [hfired, if_neg h1], fun g n => ?_⟩
    rw [ServiceNode.isMember_iff, ServiceNode.isMember_iff, h]
    split_ifs with hgn
    · rw [hgn.1, hgn.2, hc]
      simp [ServiceNode.countRemove, h1]
    · rfl

theorem removeFromGroup {s : ServiceNode} {group name : Str} (hmem : s.IsMember group name) :
    MemberEvent s group name (s.removeFromGroup group name) := by
  have hmem' : name ∈ s.group group := hmem
  refine of_remove hmem (fun g => ?_) ?_ (s.memberCount_removeFromGroup group name)
  · simp only [ServiceNode.removeFromGroup]
    split_ifs <;> rfl
  · simp only [ServiceNode.removeFromGroup, hmem', if_true]
    split_ifs <;> rfl

theorem rpcRemoveFromGroup {s : ServiceNode} {group name : Str} (hmem : s.IsMember group name) :
    MemberEvent s group name (s.rpcRemoveFromGroup group name) := by
  have hmem' : name ∈ s.group group := hmem
  refine of_remove hmem (fun g => ?_) ?_ (s.memberCount_rpcRemoveFromGroup group name)
  · simp only [ServiceNode.rpcRemoveFromGroup]
    split_ifs <;> rfl
  · simp only [ServiceNode.rpcRemoveFromGroup, hmem', if_true]
    split_ifs <;> rfl

end MemberEvent

namespace InStep

/-- The events a callback receives from a longer log. -/
theorem flags_append {s t : Observed} {new : List (Str × Fired)}
    (h : t.log = s.log ++ new) (cb : ℕ) (n : Str) :
    t.flags cb n = s.flags cb n ++
      ((new.filter fun e => e.2.callback = cb ∧ e.2.name = n).map fun e => e.2.added) := by
  rw [Observed.flags, h, List.filter_append, List.map_append, Observed.flags]

private theorem filter_eq_and {α : Type} [DecidableEq α] {l : List α} (hl : l.Nodup) (a : α)
    (p : Prop) [Decidable p] :
    (l.filter fun x => x = a ∧ p) = if a ∈ l ∧ p then [a] else [] := by
  by_cases hp : p
  · simp only [hp, and_true]
    rw [List.filter_eq]
    split_ifs with ha
    · rw [List.count_eq_one_of_mem hl ha, List.replicate_one]
    · rw [List.count_eq_zero_of_not_mem ha, List.replicate_zero]
  · simp [hp]

/-- Firing a list of distinct callbacks reaches each of them once. -/
theorem flags_fire {l : List ℕ} (hl : l.Nodup) (group name : Str) (b : Bool) (cb : ℕ)
    (n : Str) :
    (((l.map fun c => (⟨c, name, b⟩ : Fired)).map fun e => (group, e)).filter
      fun e => e.2.callback = cb ∧ e.2.name = n).map (fun e => e.2.added) =
        if cb ∈ l ∧ n = name then [b] else [] := by
  simp only [List.map_map, List.filter_map, Function.comp_def, filter_eq_and hl,
    eq_comm (a := name)]
  split_ifs <;> rfl

/-- What fires nothing and registers nothing keeps the callbacks that are left in step. -/
theorem of_quiet {s t : Observed} (h : InStep s) (hnext : t.nextCallback = s.nextCallback)
    (hlog : t.log = s.log) (hcb : ∀ g, (t.callbacks g).Sublist (s.callbacks g))
    (hmem : ∀ g n, t.node.IsMember g n ↔ s.node.IsMember g n) : InStep t := by
  have hsub : ∀ g, ∀ cb ∈ t.callbacks g, cb ∈ s.callbacks g := fun g cb hc => (hcb g).subset hc
  have hflags : ∀ cb n, t.flags cb n = s.flags cb n := fun cb n => by
    rw [Observed.flags, hlog, Observed.flags]
  constructor
  · exact fun g cb hc => hnext ▸ h.registered_lt g cb (hsub g cb hc)
  · exact fun f hf => hnext ▸ h.logged_lt f (hlog ▸ hf)
  · exact fun g => (h.nodup g).sublist (hcb g)
  · exact fun g g' cb hg hg' => h.group_unique g g' cb (hsub g cb hg) (hsub g' cb hg')
  · exact fun g cb hc f hf => h.own_group g cb (hsub g cb hc) f (hlog ▸ hf)
  · exact fun g cb hc n => hflags cb n ▸ h.alternating g cb (hsub g cb hc) n
  · intro g cb hc n
    rw [hflags, hmem]
    exact h.last_iff g cb (hsub g cb hc) n

/-- An entry that appears or disappears is reported to every callback of its group. -/
private theorem of_fired {s t : Observed} (h : InStep s) {group name : Str} {b : Bool}
    (hcb : ∀ g, t.callbacks g = s.callbacks g) (hnext : t.nextCallback = s.nextCallback)
    (hlog : t.log = s.log ++ (s.node.fire group name b).map fun f => (group, f))
    (hwas : s.node.IsMember group name ↔ b = false)
    (hmem : ∀ g n, t.node.IsMember g n ↔
      if g = group ∧ n = name then b = true else s.node.IsMember g n) : InStep t := by
  have hflags : ∀ cb n, t.flags cb n =
      s.flags cb n ++ if cb ∈ s.callbacks group ∧ n = name then [b] else [] := fun cb n => by
    rw [flags_append hlog, ServiceNode.fire]
    exact congrArg _ (flags_fire (h.nodup group) group name b cb n)
  have hnew : ∀ f ∈ t.log, f ∈ s.log ∨ (f.1 = group ∧ f.2.callback ∈ s.callbacks group) := by
    intro f hf
    rw [hlog, List.mem_append] at hf
    rcases hf with hf | hf
    · exact Or.inl hf
    · simp only [ServiceNode.fire, List.mem_map, exists_exists_and_eq_and] at hf
      obtain ⟨c, hc, rfl⟩ := hf
      exact Or.inr ⟨rfl, hc⟩
  constructor
  · intro g cb hc
    rw [hnext]
    exact h.registered_lt g cb (hcb g ▸ hc)
  · intro f hf
    rw [hnext]
    rcases hnew f hf with hf | ⟨-, hf⟩
    · exact h.logged_lt f hf
    · exact h.registered_lt group _ hf
  · exact fun g => hcb g ▸ h.nodup g
  · exact fun g g' cb hg hg' => h.group_unique g g' cb (hcb g ▸ hg) (hcb g' ▸ hg')
  · intro g cb hc f hf hfcb
    rw [hcb] at hc
    rcases hnew f hf with hf | ⟨hf1, hf2⟩
    · exact h.own_group g cb hc f hf hfcb
    · rw [hf1]
      exact h.group_unique group g cb (hfcb ▸ hf2) hc
  · intro g cb hc n
    rw [hcb] at hc
    rw [hflags]
    split_ifs with hn
    · -- The new event is the opposite of the last one: it says what just became true.
      have hg := h.group_unique g group cb hc hn.1
      refine (h.alternating g cb hc n).concat ?_
      rw [h.last_iff g cb hc n, hg, hn.2]
      exact hwas
    · rw [List.append_nil]
      exact h.alternating g cb hc n
  · intro g cb hc n
    rw [hcb] at hc
    rw [hflags, hmem]
    have hiff : cb ∈ s.callbacks group ∧ n = name ↔ g = group ∧ n = name :=
      and_congr_left fun _ => ⟨h.group_unique g group cb hc, fun hg => hg ▸ hc⟩
    simp only [hiff]
    split_ifs with hn
    · simp
    · rw [List.append_nil]
      exact h.last_iff g cb hc n

/-- A group method keeps the callbacks in step. -/
theorem memberEvent {s t : Observed} (h : InStep s) {group name : Str} {e : Effect}
    (he : MemberEvent s.node group name e) (hnode : t.node = e.node)
    (hnext : t.nextCallback = s.nextCallback)
    (hlog : t.log = s.log ++ e.fired.map fun f => (group, f)) : InStep t := by
  have hcb : ∀ g, t.callbacks g = s.callbacks g := fun g => by
    rw [Observed.callbacks, hnode, he.callbacks, Observed.callbacks]
  rcases he.event with ⟨hfired, hmem⟩ | ⟨b, hfired, hwas, hmem⟩
  · rw [hfired, List.map_nil, List.append_nil] at hlog
    refine h.of_quiet hnext hlog (fun g => ?_) fun g n => ?_
    · rw [hcb]
    · rw [hnode, hmem]
  · rw [hfired] at hlog
    exact h.of_fired hcb hnext hlog hwas fun g n => by rw [hnode, hmem]

/-- The replay to a new callback reaches it once for each name of the list. -/
theorem flags_replay {l : List Str} (hl : l.Nodup) (group : Str) (c cb : ℕ) (n : Str) :
    (((l.map fun name => (⟨c, name, true⟩ : Fired)).map fun e => (group, e)).filter
      fun e => e.2.callback = cb ∧ e.2.name = n).map (fun e => e.2.added) =
        if cb = c ∧ n ∈ l then [true] else [] := by
  simp only [List.map_map, List.filter_map, Function.comp_def, and_comm (a := c = cb),
    filter_eq_and hl, eq_comm (a := cb)]
  split_ifs <;> rfl

/-- A registered callback is an earlier one, with its own group, or the new one. -/
private theorem callbacks_cases {s t : Observed} (h : InStep s) {group : Str}
    (hcb : ∀ g, t.callbacks g =
      if g = group then s.callbacks group ++ [s.nextCallback] else s.callbacks g) (g : Str) :
    ∀ cb ∈ t.callbacks g,
      (cb ∈ s.callbacks g ∧ cb ≠ s.nextCallback) ∨ (g = group ∧ cb = s.nextCallback) := by
  intro cb hc
  have hold : ∀ g, cb ∈ s.callbacks g → cb ≠ s.nextCallback := fun g hc =>
    (h.registered_lt g cb hc).ne
  rw [hcb] at hc
  split_ifs at hc with hg
  · rcases List.mem_append.1 hc with hc | hc
    · exact Or.inl ⟨hg ▸ hc, hold group hc⟩
    · exact Or.inr ⟨hg, List.mem_singleton.1 hc⟩
  · exact Or.inl ⟨hc, hold g hc⟩

/-- The new callback of a group gets one `true` for each member. -/
private theorem of_registered {s t : Observed} (h : InStep s) {group : Str}
    (hnext : t.nextCallback = s.nextCallback + 1)
    (hcb : ∀ g, t.callbacks g =
      if g = group then s.callbacks group ++ [s.nextCallback] else s.callbacks g)
    (hmem : ∀ g n, t.node.IsMember g n ↔ s.node.IsMember g n)
    (hlog : t.log = s.log ++ ((s.node.group group).keys.map fun name =>
      (⟨s.nextCallback, name, true⟩ : Fired)).map fun e => (group, e)) : InStep t := by
  have hflags : ∀ cb n, t.flags cb n =
      s.flags cb n ++ if cb = s.nextCallback ∧ s.node.IsMember group n then [true] else [] := by
    intro cb n
    rw [flags_append hlog, flags_replay (nodup_keys _) group s.nextCallback cb n]
    simp only [Std.ExtTreeMap.mem_keys]
    rfl
  have hcases := h.callbacks_cases hcb
  have hnone : ∀ n, s.flags s.nextCallback n = [] := by
    intro n
    simp only [Observed.flags, List.map_eq_nil_iff, List.filter_eq_nil_iff, decide_eq_true_eq]
    exact fun e he hcb => (h.logged_lt e he).ne hcb.1
  have hnew : ∀ f ∈ t.log, f ∈ s.log ∨ (f.1 = group ∧ f.2.callback = s.nextCallback) := by
    intro f hf
    rw [hlog, List.mem_append] at hf
    rcases hf with hf | hf
    · exact Or.inl hf
    · simp only [List.mem_map, exists_exists_and_eq_and] at hf
      obtain ⟨name, -, rfl⟩ := hf
      exact Or.inr ⟨rfl, rfl⟩
  constructor
  · intro g cb hc
    rw [hnext]
    rcases hcases g cb hc with ⟨hc, -⟩ | ⟨-, rfl⟩
    · exact Nat.lt_succ_of_lt (h.registered_lt g cb hc)
    · exact Nat.lt_succ_self _
  · intro f hf
    rw [hnext]
    rcases hnew f hf with hf | ⟨-, hf⟩
    · exact Nat.lt_succ_of_lt (h.logged_lt f hf)
    · exact hf ▸ Nat.lt_succ_self _
  · intro g
    rw [hcb]
    split_ifs
    · refine List.Nodup.append (h.nodup group) (List.nodup_singleton _) ?_
      rw [List.disjoint_singleton]
      exact fun hc => (h.registered_lt group _ hc).ne rfl
    · exact h.nodup g
  · intro g g' cb hg hg'
    rcases hcases g cb hg with ⟨hc, hne⟩ | ⟨hg, hnew⟩ <;>
      rcases hcases g' cb hg' with ⟨hc', hne'⟩ | ⟨hg', hnew'⟩
    · exact h.group_unique g g' cb hc hc'
    · exact absurd hnew' hne
    · exact absurd hnew hne'
    · rw [hg, hg']
  · intro g cb hc f hf hfcb
    rcases hcases g cb hc with ⟨hc, hne⟩ | ⟨rfl, rfl⟩
    · rcases hnew f hf with hf | ⟨-, hf⟩
      · exact h.own_group g cb hc f hf hfcb
      · exact absurd (hfcb ▸ hf) hne
    · rcases hnew f hf with hf | ⟨hf, -⟩
      · exact absurd hfcb (h.logged_lt f hf).ne
      · exact hf
  · intro g cb hc n
    rw [hflags]
    rcases hcases g cb hc with ⟨hc, hne⟩ | ⟨rfl, rfl⟩
    · rw [if_neg fun hcb => hne hcb.1, List.append_nil]
      exact h.alternating g cb hc n
    · rw [hnone, List.nil_append]
      split_ifs <;> simp [Alternating]
  · intro g cb hc n
    rw [hflags, hmem]
    rcases hcases g cb hc with ⟨hc, hne⟩ | ⟨rfl, rfl⟩
    · rw [if_neg fun hcb => hne hcb.1, List.append_nil]
      exact h.last_iff g cb hc n
    · rw [hnone, List.nil_append]
      split_ifs with hn
      · simpa using hn.2
      · simpa using hn

/-- A registration keeps the callbacks in step: the new callback has seen one `true` for each
member of its group. -/
theorem addGroupCallback {s t : Observed} (h : InStep s) {group : Str}
    (ht : s.step (.addGroupCallback group) = some t) : InStep t := by
  simp only [Observed.step, Option.some.injEq] at ht
  have hcb : ∀ g, t.callbacks g =
      if g = group then s.callbacks group ++ [s.nextCallback] else s.callbacks g := by
    intro g
    simp only [← ht, Observed.callbacks, Observed.effect, ServiceNode.addGroupCallback,
      Std.ExtTreeMap.getD_insert, Std.compare_eq_iff_eq, eq_comm (a := group)]
  have hmem : ∀ g n, t.node.IsMember g n ↔ s.node.IsMember g n := by
    intro g n
    rw [ServiceNode.isMember_iff, ServiceNode.isMember_iff, ← ht]
    simp only [Observed.effect, ServiceNode.memberCount_addGroupCallback]
  refine h.of_registered (by rw [← ht]) hcb hmem ?_
  rw [← ht]
  rfl

/-- Deregistering the callbacks of a group keeps the others in step. -/
theorem removeGroupCallback {s t : Observed} (h : InStep s) {group : Str}
    (ht : s.step (.removeGroupCallback group) = some t) : InStep t := by
  simp only [Observed.step, Option.some.injEq] at ht
  have hlog : t.log = s.log := by
    rw [← ht]
    exact List.append_nil _
  have hcb : ∀ g, t.callbacks g = if g = group then [] else s.callbacks g := by
    intro g
    simp only [← ht, Observed.callbacks, Observed.effect, ServiceNode.removeGroupCallback,
      Std.ExtTreeMap.getD_erase, Std.compare_eq_iff_eq, eq_comm (a := group)]
  refine h.of_quiet (by rw [← ht]) hlog (fun g => ?_) fun g n => ?_
  · rw [hcb]
    split_ifs
    · exact List.nil_sublist _
    · exact List.Sublist.refl _
  · rw [← ht]
    rfl

theorem start (addr : HostPortPair) (peers : Std.ExtTreeSet HostPortPair) :
    InStep (Observed.start addr peers) := by
  have hcb : ∀ g, (Observed.start addr peers).callbacks g = [] := fun g => by
    simp [Observed.callbacks, Observed.start]
  have hlog : (Observed.start addr peers).log = [] := rfl
  constructor <;> simp [hcb, hlog]

/-- Every method that removes only present members keeps the callbacks in step. -/
theorem step {s t : Observed} (h : InStep s) {op : Op} (hop : RemovesMember s op)
    (ht : s.step op = some t) : InStep t := by
  have hnode : t.node = (s.effect op).node := congrArg Observed.node (Option.some.inj ht).symm
  have hlog : t.log = s.log ++ (s.effect op).fired.map fun f => (op.group, f) :=
    congrArg Observed.log (Option.some.inj ht).symm
  cases op with
  | addToGroup g n =>
    exact h.memberEvent (MemberEvent.addToGroup s.node g n) hnode
      (by rw [← Option.some.inj ht]) hlog
  | rpcAddToGroup g n =>
    exact h.memberEvent (MemberEvent.rpcAddToGroup s.node g n) hnode
      (by rw [← Option.some.inj ht]) hlog
  | removeFromGroup g n =>
    exact h.memberEvent (MemberEvent.removeFromGroup (hop g n (Or.inl rfl))) hnode
      (by rw [← Option.some.inj ht]) hlog
  | rpcRemoveFromGroup g n =>
    exact h.memberEvent (MemberEvent.rpcRemoveFromGroup (hop g n (Or.inr rfl))) hnode
      (by rw [← Option.some.inj ht]) hlog
  | addGroupCallback g => exact h.addGroupCallback ht
  | removeGroupCallback g => exact h.removeGroupCallback ht

end InStep

/-- **Group callbacks see exactly the membership.** After every run in which each removal names a
member with an entry, a callback registered for `g` has received, for every name, events that
alternate and start with `true`; the names whose last event is `true` are the members of `g`; and
all its events were fired by methods on `g`. The number of a registration is new, so all events
of a callback come after its registration.

Source: `src/rpc/service_node.cc`, lines 110–187 and 249–283; `src/rpc/service_node.h`,
lines 98–114. -/
theorem callbacks_see_membership (addr : HostPortPair) (peers : Std.ExtTreeSet HostPortPair)
    (ops : List Op) (s : Observed)
    (hrun : exec Observed.step (Observed.start addr peers) ops = some s)
    (hremoves : AllSteps Observed.step RemovesMember (Observed.start addr peers) ops)
    (g : Str) (cb : ℕ) (hcb : cb ∈ s.callbacks g) :
    (∀ n, Alternating (s.flags cb n)) ∧
    (∀ n, (s.flags cb n).getLast? = some true ↔ s.node.IsMember g n) ∧
    ∀ e ∈ s.log, e.2.callback = cb → e.1 = g := by
  have h : InStep s := exec_invariant (fun _ s => InStep s) (InStep.start addr peers)
    (fun _ _ _ _ _ h hC ht => h.step hC ht) hremoves hrun
  exact ⟨h.alternating g cb hcb, h.last_iff g cb hcb, h.own_group g cb hcb⟩

/-- A callback registered on an empty group, a member added twice by different paths and a
removal that leaves it: the callback has seen one `true`. -/
theorem callbacks_see_membership_run :
    ∃ s, exec Observed.step (Observed.start ⟨[104], 1⟩ ∅) [.addGroupCallback [103],
        .rpcAddToGroup [103] [110], .addToGroup [103] [110], .removeFromGroup [103] [110]] =
        some s ∧
      s.flags 0 [110] = [true] ∧ (∀ n, Alternating (s.flags 0 n)) ∧
      (∀ n, (s.flags 0 n).getLast? = some true ↔ s.node.IsMember [103] n) ∧
      ∀ e ∈ s.log, e.2.callback = 0 → e.1 = [103] := by
  refine ⟨_, rfl, by decide, callbacks_see_membership ⟨[104], 1⟩ ∅ [.addGroupCallback [103],
    .rpcAddToGroup [103] [110], .addToGroup [103] [110], .removeFromGroup [103] [110]] _ rfl ?_
    [103] 0 (by decide)⟩
  refine ⟨?_, fun t ht => ⟨?_, fun u hu => ⟨?_, fun v hv => ⟨?_, fun _ _ => trivial⟩⟩⟩⟩
  · rintro g n (h | h) <;> cases h
  · rintro g n (h | h) <;> cases h
  · rintro g n (h | h) <;> cases h
  · rintro g n (h | h) <;> cases h
    cases ht
    cases hu
    cases hv
    decide

end RawDish.Rpc
