import RawDish.Rpc.MemberView

/-!
# The group directory

Two properties of the directory, both for any order in which the requests are handled.

In a static full mesh a member is announced and withdrawn to every other node once per call. The
number `balance` adds up the count of a member at a node and what is in flight to it; as long as
every removal finds the count at one, each call changes the balance of all nodes alike, so nodes
without requests in flight agree. A removal that finds another count breaks this: it leaves the
count of a present member alone and inserts an entry for an absent one.

In a mesh that grows, a member is never lost: the notices of a call reach the peers of that
moment, and a later peer gets the member in the greeting.

## Main definitions

* `View.balance` : the count at a node with the traffic to it.
* `Mesh.RemovesAtOne` : the step does not remove a member with a count other than one.
* `View.Spread` : the invariant of a member that is never removed.

## Main results

* `Mesh.directory_agreement` : agreement in a static full mesh.
* `Mesh.directory_union` : in a growing mesh every node has the members of its component.

## References

* `src/rpc/service_node.cc`, lines 110–168 and 198–283; `src/rpc/service_node.h`, lines 41–48.
-/

namespace RawDish.Rpc

open Lib
open ServiceNode (countAdd countRemove)

namespace View

variable {nodes : Std.ExtTreeSet HostPortPair} {v w : View} {e : Event}

/-! ### A static full mesh -/

/-- A count as a number, zero without an entry. -/
def level : Option Int32 → ℤ
  | none => 0
  | some c => c.toInt

/-- The adds, or the removals, in flight to `x`. -/
def inFlight (v : View) (x : HostPortPair) (added : Bool) : ℕ :=
  v.traffic.countP fun m => m.dst = x ∧ m.added = added

/-- The count at `x` once all traffic to it is handled. -/
def balance (v : View) (x : HostPortPair) : ℤ :=
  level (v.count x) + v.inFlight x true - v.inFlight x false

/-- An add or a removal that changes the count of the member by one: a removal finds it at one and
an add does not find it at its maximum. -/
def CountsOne (added : Bool) (c : Option Int32) : Prop :=
  if added then c ≠ some Int32.maxValue else c = some 1

instance (added : Bool) (c : Option Int32) : Decidable (CountsOne added c) :=
  inferInstanceAs (Decidable (ite _ _ _))

/-- The member is present exactly with a positive count. -/
def Positive (c : Option Int32) : Prop := ∀ k, c = some k → 1 ≤ k.toInt

/-- All nodes are peers of each other, their balances agree and counts are positive. -/
structure Balanced (nodes : Std.ExtTreeSet HostPortPair) (v : View) : Prop where
  peers_eq : ∀ x, v.peers x = nodes.erase x
  balance_eq : ∀ x ∈ nodes, ∀ y ∈ nodes, v.balance x = v.balance y
  positive : ∀ x, Positive (v.count x)

theorem positive_countAdd {c : Option Int32} (hc : Positive c)
    (h : CountsOne true c) : Positive (countAdd c) ∧ level (countAdd c) = level c + 1 := by
  cases c with
  | none => exact ⟨by simp [Positive, countAdd], by decide⟩
  | some c =>
    have hone : 1 ≤ c.toInt := hc c rfl
    have hmax : c.toInt < 2 ^ 31 - 1 := by
      have hle := Int32.toInt_lt c
      have hne : c.toInt ≠ 2 ^ 31 - 1 := by
        intro heq
        simp only [CountsOne, ↓reduceIte] at h
        exact h (by rw [show c = Int32.maxValue from Int32.toInt_inj.1 (heq.trans (by decide))])
      omega
    have hsucc : (c + 1).toInt = c.toInt + 1 := (toInt_succ_iff c).2 hmax
    refine ⟨?_, hsucc⟩
    intro k hk
    obtain rfl : c + 1 = k := by simpa [countAdd] using hk
    omega

theorem positive_countRemove {c : Option Int32} {absent : Int32} (h : CountsOne false c) :
    Positive (countRemove absent c) ∧ level (countRemove absent c) = level c - 1 := by
  obtain rfl : c = some 1 := by simpa [CountsOne] using h
  have hnone : countRemove absent (some 1) = none := by simp [countRemove]
  rw [hnone]
  exact ⟨by simp [Positive], by decide⟩

theorem countP_notify (v : View) (x y : HostPortPair) (b added : Bool) :
    (v.notify x b).countP (fun m => m.dst = y ∧ m.added = added) =
      if y ∈ v.peers x ∧ b = added then 1 else 0 := by
  have hnodup : (v.peers x).toList.Nodup :=
    Std.ExtTreeSet.distinct_toList.imp fun h heq => h (Std.compare_eq_iff_eq.2 heq)
  rw [notify, List.countP_map]
  by_cases hb : b = added
  · by_cases hy : y ∈ v.peers x
    · have hcount := List.count_eq_one_of_mem hnodup (Std.ExtTreeSet.mem_toList.2 hy)
      simpa [Function.comp_def, hb, hy, List.count, beq_eq_decide] using hcount
    · have hcount := List.count_eq_zero_of_not_mem (mt Std.ExtTreeSet.mem_toList.1 hy)
      simpa [Function.comp_def, hb, hy, List.count] using hcount
  · simp [Function.comp_def, hb]

/-- A local call that changes the count by `d` at its node and sends `d` to all others changes all
balances by `d`. -/
theorem Balanced.local (h : Balanced nodes v) {x : HostPortPair} (hx : x ∈ nodes) {added : Bool}
    {c : Option Int32} {d : ℤ} (hd : d = if added then 1 else -1)
    (hc : Positive c ∧ level c = level (v.count x) + d) :
    Balanced nodes { v with
      count := Function.update v.count x c
      traffic := v.traffic ++ v.notify x added } := by
  have hbal : ∀ y ∈ nodes, View.balance { v with
      count := Function.update v.count x c
      traffic := v.traffic ++ v.notify x added } y = v.balance y + d := by
    intro y hy
    simp only [balance, inFlight, List.countP_append, countP_notify, h.peers_eq,
      Std.ExtTreeSet.mem_erase, Function.update_apply]
    by_cases hyx : y = x
    · subst hyx
      simp [hc.2]
      omega
    · have hxy : ¬ x = y := fun h => hyx h.symm
      cases added <;> simp [hyx, hxy, hy, hd] <;> omega
  refine ⟨h.peers_eq, fun y hy z hz => ?_, fun y => ?_⟩
  · rw [hbal y hy, hbal z hz, h.balance_eq y hy z hz]
  · simp only [Function.update_apply]
    split_ifs
    · exact hc.1
    · exact h.positive y

/-- Receiving a notice keeps all balances: what leaves the traffic enters the count. -/
theorem Balanced.receive (h : Balanced nodes v) {i : ℕ} (hw : v.step (.receive i) = some w)
    (hone : ∀ m, v.traffic[i]? = some m → CountsOne m.added (v.count m.dst)) :
    Balanced nodes w := by
  obtain ⟨pre, m, post, htraffic, rfl, rfl⟩ := step_receive hw
  have hm : CountsOne m.added (v.count m.dst) := hone m (by simp [htraffic])
  have hc : Positive (countReceive m.added (v.count m.dst)) ∧
      level (countReceive m.added (v.count m.dst)) =
        level (v.count m.dst) + if m.added then 1 else -1 := by
    cases hadded : m.added with
    | true =>
      rw [hadded] at hm
      simpa [countReceive] using positive_countAdd (h.positive m.dst) hm
    | false =>
      rw [hadded] at hm
      simpa [countReceive, sub_eq_add_neg] using positive_countRemove hm
  have hbal : ∀ y, View.balance { v with
      count := Function.update v.count m.dst (countReceive m.added (v.count m.dst))
      traffic := pre ++ post } y = v.balance y := by
    intro y
    simp only [balance, inFlight, htraffic, List.countP_append, List.countP_cons,
      Function.update_apply]
    by_cases hy : y = m.dst
    · subst hy
      rw [if_pos rfl, hc.2]
      cases m.added <;> simp <;> omega
    · simp [hy, Ne.symm hy]
  refine ⟨h.peers_eq, fun y hy z hz => ?_, fun y => ?_⟩
  · rw [hbal, hbal, h.balance_eq y hy z hz]
  · simp only [Function.update_apply]
    split_ifs
    · exact hc.1
    · exact h.positive y

/-- Without traffic, nodes of equal balance agree on the member. -/
theorem Balanced.agree (h : Balanced nodes v) (htraffic : v.traffic = []) {x y : HostPortPair}
    (hx : x ∈ nodes) (hy : y ∈ nodes) (hc : (v.count x).isSome) : (v.count y).isSome := by
  have hbal := h.balance_eq x hx y hy
  simp only [balance, inFlight, htraffic, List.countP_nil] at hbal
  obtain ⟨c, hc⟩ := Option.isSome_iff_exists.1 hc
  have hpos := h.positive x c hc
  cases hcy : v.count y with
  | none =>
    simp only [hc, hcy, level] at hbal
    omega
  | some c' => rfl

/-! ### A growing mesh -/

/-- `x` and `y` are in one connected component of the peer relation. -/
def Connected (v : View) : HostPortPair → HostPortPair → Prop :=
  Relation.EqvGen fun x y => y ∈ v.peers x

/-- The invariant of a member that is added at the nodes `O` and never removed: it is present
there, present or on its way at their peers, and nowhere else than in their components. -/
structure Spread (O : HostPortPair → Prop) (v : View) : Prop where
  added : ∀ m ∈ v.traffic, m.added = true
  origin : ∀ x, O x → (v.count x).isSome
  reaches : ∀ x, O x → ∀ y ∈ v.peers x, (v.count y).isSome ∨ ∃ m ∈ v.traffic, m.dst = y
  sound : ∀ x, (v.count x).isSome → ∃ o, O o ∧ v.Connected o x
  traffic_sound : ∀ m ∈ v.traffic, ∃ o, O o ∧ v.Connected o m.dst

theorem isSome_countAdd (c : Option Int32) : (countAdd c).isSome := by
  cases c <;> rfl

/-- An entry that an add leaves was there, or is the one of the node where it was made. -/
theorem isSome_update_countAdd {x y : HostPortPair} :
    (Function.update v.count x (countAdd (v.count x)) y).isSome ↔
      y = x ∨ (v.count y).isSome := by
  rw [Function.update_apply]
  split_ifs with hy
  · simp [hy, isSome_countAdd]
  · simp [hy]

variable {O : HostPortPair → Prop}

theorem Spread.add (h : Spread O v) (x : HostPortPair) :
    Spread (fun y => O y ∨ y = x)
      { v with
        count := Function.update v.count x (countAdd (v.count x))
        traffic := v.traffic ++ v.notify x true } := by
  constructor
  · intro m hm
    rcases List.mem_append.1 hm with hm | hm
    · exact h.added m hm
    · exact (mem_notify.1 hm).2.2
  · rintro y (hy | hy)
    · exact isSome_update_countAdd.2 (Or.inr (h.origin y hy))
    · exact isSome_update_countAdd.2 (Or.inl hy)
  · rintro z (hz | rfl) y hy
    · rcases h.reaches z hz y hy with hc | ⟨m, hm, hdst⟩
      · exact Or.inl (isSome_update_countAdd.2 (Or.inr hc))
      · exact Or.inr ⟨m, List.mem_append_left _ hm, hdst⟩
    · exact Or.inr ⟨⟨z, y, true⟩, List.mem_append_right _ (mem_notify.2 ⟨rfl, hy, rfl⟩), rfl⟩
  · intro y hy
    rcases isSome_update_countAdd.1 hy with rfl | hy
    · exact ⟨y, Or.inr rfl, .refl y⟩
    · obtain ⟨o, ho, hc⟩ := h.sound y hy
      exact ⟨o, Or.inl ho, hc⟩
  · intro m hm
    rcases List.mem_append.1 hm with hm | hm
    · obtain ⟨o, ho, hc⟩ := h.traffic_sound m hm
      exact ⟨o, Or.inl ho, hc⟩
    · exact ⟨x, Or.inr rfl, .rel _ _ (mem_notify.1 hm).2.1⟩

theorem Spread.receive (h : Spread O v) {i : ℕ} (hw : v.step (.receive i) = some w) :
    Spread O w := by
  obtain ⟨pre, m, post, htraffic, rfl, rfl⟩ := step_receive hw
  have hmem : ∀ m', m' ∈ pre ++ post → m' ∈ v.traffic := fun m' => mem_of_mem_split htraffic
  have hm : m ∈ v.traffic := by simp [htraffic]
  simp only [h.added m hm, countReceive]
  refine ⟨fun m' hm' => h.added m' (hmem m' hm'), fun x hx => ?_, fun x hx y hy => ?_,
    fun x hx => ?_, fun m' hm' => h.traffic_sound m' (hmem m' hm')⟩
  · exact isSome_update_countAdd.2 (Or.inr (h.origin x hx))
  · rcases h.reaches x hx y hy with hc | ⟨m', hm', hdst⟩
    · exact Or.inl (isSome_update_countAdd.2 (Or.inr hc))
    · rw [htraffic, List.mem_append, List.mem_cons] at hm'
      rcases hm' with hm' | rfl | hm'
      · exact Or.inr ⟨m', List.mem_append_left _ hm', hdst⟩
      · exact Or.inl (isSome_update_countAdd.2 (Or.inl hdst.symm))
      · exact Or.inr ⟨m', List.mem_append_right _ hm', hdst⟩
  · rcases isSome_update_countAdd.1 hx with rfl | hx
    · exact h.traffic_sound m hm
    · exact h.sound x hx

theorem Spread.join (h : Spread O v) {x y : HostPortPair} (hw : v.step (.join x y) = some w) :
    Spread O w := by
  simp only [step, Option.ite_none_left_eq_some, Option.some.injEq] at hw
  obtain ⟨-, rfl⟩ := hw
  have hmono : ∀ a b, b ∈ v.peers a →
      b ∈ Function.update v.peers x ((v.peers x).insert y) a := by
    intro a b hb
    rw [Function.update_apply]
    split_ifs with ha
    · rw [← ha]
      exact Std.ExtTreeSet.mem_insert.2 (Or.inr hb)
    · exact hb
  have hconn : ∀ {a b}, v.Connected a b → Relation.EqvGen
      (fun a b => b ∈ Function.update v.peers x ((v.peers x).insert y) a) a b :=
    fun hc => Relation.EqvGen.mono hmono _ _ hc
  refine ⟨fun m hm => ?_, h.origin, fun o ho z hz => ?_, fun z hz => ?_, fun m hm => ?_⟩
  · rcases List.mem_append.1 hm with hm | hm
    · exact h.added m hm
    · split_ifs at hm
      · rw [List.mem_singleton.1 hm]
      · simp at hm
  · simp only [Function.update_apply] at hz
    split_ifs at hz with hox
    · subst hox
      rcases Std.ExtTreeSet.mem_insert.1 hz with hz | hz
      · refine Or.inr ⟨⟨o, y, true⟩, ?_, Std.compare_eq_iff_eq.1 hz⟩
        simp [h.origin o ho]
      · rcases h.reaches o ho z hz with hc | ⟨m, hm, hdst⟩
        · exact Or.inl hc
        · exact Or.inr ⟨m, List.mem_append_left _ hm, hdst⟩
    · rcases h.reaches o ho z hz with hc | ⟨m, hm, hdst⟩
      · exact Or.inl hc
      · exact Or.inr ⟨m, List.mem_append_left _ hm, hdst⟩
  · obtain ⟨o, ho, hc⟩ := h.sound z hz
    exact ⟨o, ho, hconn hc⟩
  · rcases List.mem_append.1 hm with hm | hm
    · obtain ⟨o, ho, hc⟩ := h.traffic_sound m hm
      exact ⟨o, ho, hconn hc⟩
    · split_ifs at hm with hx
      · obtain ⟨o, ho, hc⟩ := h.sound x hx
        refine ⟨o, ho, (hconn hc).trans _ _ _ (.rel _ _ ?_)⟩
        rw [List.mem_singleton.1 hm, Function.update_self]
        exact Std.ExtTreeSet.mem_insert_self
      · simp at hm

end View

namespace Mesh

variable {nodes : Std.ExtTreeSet HostPortPair} {s t : Mesh}

/-- Running the method at the node changes the count it touches by one. -/
def ServesAtOne (node : ServiceNode) : Method → Prop
  | .addPeer _ => True
  | .addToGroup g n => View.CountsOne true (node.memberCount g n)
  | .removeFromGroup g n => View.CountsOne false (node.memberCount g n)

instance (node : ServiceNode) : (m : Method) → Decidable (ServesAtOne node m)
  | .addPeer _ => inferInstanceAs (Decidable True)
  | .addToGroup g n => inferInstanceAs (Decidable (View.CountsOne true (node.memberCount g n)))
  | .removeFromGroup g n =>
    inferInstanceAs (Decidable (View.CountsOne false (node.memberCount g n)))

/-- The step changes the count it touches by one: a removal, local or handled, finds the member
with count one, and an add does not find it with the largest count. -/
def RemovesAtOne (s : Mesh) : Action → Prop
  | .addToGroup x g n => ServesAtOne (s.node x) (.addToGroup g n)
  | .removeFromGroup x g n => ServesAtOne (s.node x) (.removeFromGroup g n)
  | .handle i => ∀ r ∈ s.requests[i]?, ServesAtOne (s.node r.dst) r.method
  | _ => True

instance (s : Mesh) : (a : Action) → Decidable (RemovesAtOne s a)
  | .addPeer _ _ => inferInstanceAs (Decidable True)
  | .addToGroup x g n => inferInstanceAs (Decidable (ServesAtOne (s.node x) (.addToGroup g n)))
  | .removeFromGroup x g n =>
    inferInstanceAs (Decidable (ServesAtOne (s.node x) (.removeFromGroup g n)))
  | .handle i =>
    inferInstanceAs (Decidable (∀ r ∈ s.requests[i]?, ServesAtOne (s.node r.dst) r.method))
  | .respond _ => inferInstanceAs (Decidable True)

theorem ServesAtOne.of_about {node : ServiceNode} {m : Method} (h : ServesAtOne node m) {g n : Str}
    {added : Bool} (hm : m.about g n = some added) :
    View.CountsOne added (node.memberCount g n) := by
  cases m with
  | addPeer y => simp [Method.about] at hm
  | addToGroup g' n' =>
    obtain ⟨⟨rfl, rfl⟩, rfl⟩ : (g' = g ∧ n' = n) ∧ true = added := by simpa [Method.about] using hm
    exact h
  | removeFromGroup g' n' =>
    obtain ⟨⟨rfl, rfl⟩, rfl⟩ : (g' = g ∧ n' = n) ∧ false = added := by simpa [Method.about] using hm
    exact h

/-- In a full mesh no node learns of a new peer. -/
structure Static (nodes : Std.ExtTreeSet HostPortPair) (s : Mesh) : Prop where
  peers_eq : ∀ x, (s.node x).peers = nodes.erase x
  not_addPeer : ∀ r ∈ s.requests, ∀ y, r.method ≠ .addPeer y

theorem static_fullMesh : Static nodes (fullMesh nodes) :=
  ⟨fun _ => rfl, by simp [fullMesh, start]⟩

private theorem Static.mem_peers (h : Static nodes s) {x y : HostPortPair} (hy : y ∈ nodes)
    (hne : x ≠ y) : y ∈ (s.node x).peers := by
  rw [h.peers_eq, Std.ExtTreeSet.mem_erase]
  exact ⟨Std.compare_eq_iff_eq.not.2 hne, hy⟩

theorem Static.event_ne_join (h : Static nodes s) {a : Action} (hst : step nodes s a = some t)
    {g n : Str} {x y : HostPortPair} : s.event g n a ≠ .join x y := by
  intro he
  have hreads := reads_event g n s a
  rw [he] at hreads
  cases hreads with
  | join _ _ _ hy ha =>
    rcases ha with rfl | ⟨i, r, -, hr, -, hm⟩
    · simp only [step, Option.ite_none_right_eq_some] at hst
      obtain ⟨⟨-, hy', hne⟩, -⟩ := hst
      exact hy (h.mem_peers hy' hne)
    · exact h.not_addPeer r (List.mem_of_getElem? hr) y hm

theorem Static.step (h : Static nodes s) {a : Action} (hst : step nodes s a = some t) :
    Static nodes t := by
  rcases step_cases hst with ⟨x, e, base, hp, hnode, hreq⟩ | ⟨-, -, hnode, hreq⟩
  · rcases hp.peers_cases with ⟨hpeers, hcalls⟩ | ⟨y, hy, -, ⟨-, -, hy', hne⟩ | ⟨r, hr, -, hm⟩⟩
    · constructor
      · intro z
        rw [hnode, Function.update_apply]
        split_ifs with hz
        · rw [hpeers, hz, h.peers_eq]
        · exact h.peers_eq z
      · intro r hr y
        rw [hreq, List.mem_append] at hr
        rcases hr with hr | hr
        · exact h.not_addPeer r (hp.mem_of_mem_base hr) y
        · exact hcalls _ (mem_issue hr).2 y
    · exact absurd (h.mem_peers hy' hne) hy
    · exact absurd hm (h.not_addPeer r hr y)
  · exact ⟨fun z => by rw [hnode, h.peers_eq], by rw [hreq]; exact h.not_addPeer⟩

/-- A step that changes counts by one keeps the balance of every member. -/
theorem balanced_step (h : Static nodes s) {a : Action} (hst : step nodes s a = some t)
    (ha : RemovesAtOne s a) {g n : Str} (hb : View.Balanced nodes (s.view g n)) :
    View.Balanced nodes (t.view g n) := by
  have hview := view_step hst g n
  have hreads := reads_event g n s a
  have hjoin : ∀ x y, s.event g n a ≠ .join x y := fun x y => h.event_ne_join hst
  generalize s.event g n a = e at hview hreads hjoin
  cases hreads with
  | add x =>
    simp only [Mesh.step, Option.ite_none_right_eq_some] at hst
    rw [View.step, Option.some.injEq] at hview
    rw [← hview]
    exact hb.local hst.1 rfl (View.positive_countAdd (hb.positive x) ha)
  | remove x =>
    simp only [Mesh.step, Option.ite_none_right_eq_some] at hst
    rw [View.step, Option.some.injEq] at hview
    rw [← hview]
    exact hb.local hst.1 rfl (View.positive_countRemove ha)
  | receive r pre post added hr hm =>
    refine hb.receive hview ?_
    intro m hget
    rw [traffic_eq hr hm, List.getElem?_append_right le_rfl, Nat.sub_self,
      List.getElem?_cons_zero, Option.some.injEq] at hget
    rw [← hget]
    exact (ha r (by simp [hr])).of_about hm
  | join _ x y => exact absurd rfl (hjoin x y)
  | silent =>
    rw [View.step, Option.some.injEq] at hview
    rwa [← hview]

/-- **Agreement of the directory in a static full mesh.** Take any run of group calls on the nodes
of a full mesh with empty groups, with the requests handled in any order. If every removal of the
run finds its member with count one at the node where it is made, and no add finds the largest
count, then in every state of the run without requests in flight all nodes have the same members.

The condition is on the state before each step. A removal outside it leaves the count of a member
that is present more than once as it is and gives an absent member an entry, at the node where it
is made only.

Source: `src/rpc/service_node.cc`, lines 110–168 and 249–283. -/
theorem directory_agreement (nodes : Std.ExtTreeSet HostPortPair) (as : List Action) (s : Mesh)
    (hrun : exec (step nodes) (fullMesh nodes) as = some s)
    (hone : AllSteps (step nodes) RemovesAtOne (fullMesh nodes) as) (hreq : s.requests = []) :
    ∀ x ∈ nodes, ∀ y ∈ nodes, ∀ g n,
      (s.node x).IsMember g n ↔ (s.node y).IsMember g n := by
  have hinv : Static nodes s ∧ ∀ g n, View.Balanced nodes (s.view g n) := by
    refine exec_invariant (fun _ s => Static nodes s ∧ ∀ g n, View.Balanced nodes (s.view g n))
      ⟨static_fullMesh, fun g n => ?_⟩ ?_ hone hrun
    · have hcount : ∀ x, ((fullMesh nodes).view g n).count x = none := fun x =>
        ServiceNode.memberCount_create x g n
      have htraffic : ((fullMesh nodes).view g n).traffic = [] := rfl
      exact ⟨fun _ => rfl, fun x _ y _ => by simp [View.balance, View.inFlight, hcount, htraffic],
        fun x => by simp [View.Positive, hcount]⟩
    · intro _ s a t _ ⟨hstatic, hb⟩ ha hst
      exact ⟨hstatic.step hst, fun g n => balanced_step hstatic hst ha (hb g n)⟩
  intro x hx y hy g n
  have htraffic : (s.view g n).traffic = [] := by simp [view, hreq]
  rw [ServiceNode.isMember_iff, ServiceNode.isMember_iff]
  exact ⟨(hinv.2 g n).agree htraffic hx hy, (hinv.2 g n).agree htraffic hy hx⟩

/-- A member announced by one of two nodes and withdrawn by the other. -/
def addThenRemove : List Action :=
  [.addToGroup ⟨[97], 1⟩ [103] [110], .handle 0, .removeFromGroup ⟨[98], 1⟩ [103] [110], .handle 0]

theorem directory_agreement_addThenRemove :
    ∃ s, exec (step pair) (fullMesh pair) addThenRemove = some s ∧
      AllSteps (step pair) RemovesAtOne (fullMesh pair) addThenRemove ∧ s.requests = [] ∧
      ∀ x ∈ pair, ∀ y ∈ pair, ∀ g n, (s.node x).IsMember g n ↔ (s.node y).IsMember g n := by
  have hone : AllSteps (step pair) RemovesAtOne (fullMesh pair) addThenRemove := by decide
  exact ⟨_, rfl, hone, by decide, directory_agreement pair addThenRemove _ rfl hone (by decide)⟩

/-- One node adds a member while the other removes it: the removal finds no entry and makes one,
the add raises it to one, and the removal that is handled next erases it at the first node
only. -/
theorem directory_disagreement :
    ∃ s, exec (step pair) (fullMesh pair)
        [.addToGroup ⟨[97], 1⟩ [103] [110], .removeFromGroup ⟨[98], 1⟩ [103] [110], .handle 0,
          .handle 0] = some s ∧
      s.requests = [] ∧ ¬ ∀ x ∈ pair, ∀ y ∈ pair, ∀ g n,
        (s.node x).IsMember g n ↔ (s.node y).IsMember g n := by
  refine ⟨_, rfl, by decide, fun h => ?_⟩
  have hiff := h ⟨[97], 1⟩ (by decide) ⟨[98], 1⟩ (by decide) [103] [110]
  revert hiff
  decide

/-! ### A growing mesh -/

/-- A member that the run never removes is spread from the nodes that added it. -/
theorem spread_of_exec {as : List Action} {g n : Str}
    (hrun : exec (step nodes) start as = some s) (hno : ∀ x, .removeFromGroup x g n ∉ as) :
    View.Spread (fun x => .addToGroup x g n ∈ as) (s.view g n) := by
  refine exec_induction (fun as s => (∀ x, .removeFromGroup x g n ∉ as) →
    View.Spread (fun x => .addToGroup x g n ∈ as) (s.view g n)) ?_ ?_ hrun hno
  · intro _
    constructor <;> simp [view, start]
  · intro as s a t _ ih hst hno
    simp only [List.mem_append, List.mem_singleton, not_or] at hno ⊢
    have h := ih fun x => (hno x).1
    have hview := view_step hst g n
    have hreads := reads_event g n s a
    generalize s.event g n a = e at hview hreads
    have hsame : (∀ x, a ≠ .addToGroup x g n) → (fun x => .addToGroup x g n ∈ as ∨
        .addToGroup x g n = a) = fun x => .addToGroup x g n ∈ as := by
      intro ha
      funext x
      simp [Ne.symm (ha x)]
    cases hreads with
    | add x =>
      rw [View.step, Option.some.injEq] at hview
      rw [← hview]
      simpa using h.add x
    | remove x => exact absurd rfl (hno x).2
    | receive r pre post added hr hm =>
      rw [hsame (by simp)]
      exact h.receive hview
    | join _ x y hy ha =>
      rw [hsame]
      · exact h.join hview
      · rintro z rfl
        rcases ha with ha | ⟨_, _, ha, -⟩ <;> cases ha
    | silent _ hadd =>
      rw [View.step, Option.some.injEq] at hview
      rw [hsame hadd, ← hview]
      exact h

/-- Without requests in flight, a member that the run never removes is present exactly in the
components of the nodes that added it. -/
theorem isMember_iff_added {as : List Action} {g n : Str}
    (hrun : exec (step nodes) start as = some s) (hno : ∀ x, .removeFromGroup x g n ∉ as)
    (hreq : s.requests = []) (x : HostPortPair) :
    (s.node x).IsMember g n ↔ ∃ y, Connected s y x ∧ .addToGroup y g n ∈ as := by
  have h := spread_of_exec hrun hno
  rw [ServiceNode.isMember_iff]
  constructor
  · intro hx
    obtain ⟨o, ho, hc⟩ := h.sound x hx
    exact ⟨o, hc, ho⟩
  · rintro ⟨y, hc, hy⟩
    rcases (linked_of_exec hrun).mem_peers_of_connected hreq hc with rfl | hpeer
    · exact h.origin y hy
    · rcases h.reaches y hy x hpeer with hx | ⟨m, hm, -⟩
      · exact hx
      · simp [view, hreq] at hm

/-- **No membership is lost while the mesh grows.** Take any run of `addPeer` and `addToGroup`
calls with the requests handled in any order. In every state without requests in flight the
members at a node are those added by the nodes of its connected component.

Source: `src/rpc/service_node.cc`, lines 110–136 and 198–264. -/
theorem directory_union (nodes : Std.ExtTreeSet HostPortPair) (as : List Action) (s : Mesh)
    (hrun : exec (step nodes) start as = some s)
    (hno : ∀ x g n, .removeFromGroup x g n ∉ as) (hreq : s.requests = []) (x : HostPortPair)
    (g n : Str) :
    (s.node x).IsMember g n ↔ ∃ y, Connected s y x ∧ .addToGroup y g n ∈ as :=
  isMember_iff_added hrun (fun x => hno x g n) hreq x

/-- A member added before the join and one added during it, at the other node. -/
def addJoinAdd : List Action :=
  [.addToGroup ⟨[97], 1⟩ [103] [110], .addPeer ⟨[97], 1⟩ ⟨[98], 1⟩,
    .addToGroup ⟨[98], 1⟩ [103] [109], .handle 1, .handle 0, .handle 0, .handle 0, .handle 0]

theorem directory_union_addJoinAdd :
    ∃ s, exec (step pair) start addJoinAdd = some s ∧ s.requests = [] ∧
      (∀ x g n, .removeFromGroup x g n ∉ addJoinAdd) ∧
      ∀ x g n, (s.node x).IsMember g n ↔
        ∃ y, Connected s y x ∧ .addToGroup y g n ∈ addJoinAdd := by
  have hno : ∀ x g n, .removeFromGroup x g n ∉ addJoinAdd := by simp [addJoinAdd]
  exact ⟨_, rfl, by decide, hno, fun x g n =>
    directory_union pair addJoinAdd _ rfl hno (by decide) x g n⟩

end Mesh

end RawDish.Rpc
