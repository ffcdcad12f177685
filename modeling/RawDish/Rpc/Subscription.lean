import RawDish.Rpc.Interleaving
import RawDish.Rpc.NodeRun

/-!
# Members and subscribers in the mesh

A user adds a name to a group at one node, and a callback that is registered for the group at
another node is told of it. Between the two there are the requests to the peers, which may be
handled in any order, the links that are made in the meantime, with calls of `RPCAddPeer` that
overlap, and the greeting of a new peer with the members so far. A callback may be registered before
or after the name arrives. When the network is at rest, a node has the members that were added by
the nodes that the users have connected it to, and each of its callbacks has been told of each of
them exactly once. Other members may be removed in the meantime.

## Main definitions

* `Traffic.Spread` : the invariant of a member that nobody removes.
* `ToldOnce` : what the callbacks of one node were told of a member.
* `Watched` : the mesh with the callbacks of every node.

## Main results

* `Traffic.isMember_iff_of_atRest` : the members of the nodes at rest.
* `ToldOnce.step` : every method that does not remove the member tells the callbacks once.
* `Watched.subscribers_told_once`.

## References

* `src/rpc/service_node.cc`, lines 110–187 and 198–264; `src/rpc/service_node.h`, lines 80–114.
-/

namespace RawDish.Rpc

open Lib
open Relation (EqvGen)

namespace Traffic

variable {nodes : Std.ExtTreeSet HostPortPair} {s t : Traffic} {a : TrafficAction} {g n : Str}

/-! ### Members -/

/-- The step for the action `a` adds the member at the node `x`. -/
def AddsAt (s : Traffic) (a : TrafficAction) (g n : Str) (x : HostPortPair) : Prop :=
  a = .addToGroup x g n ∨ ∃ i connected r, a = .handle i connected ∧ s.requests[i]? = some r ∧
    r.dst = x ∧ r.method = .addToGroup g n

/-- The step for the action `a` does not remove the member anywhere. -/
def KeepsMember (s : Traffic) (a : TrafficAction) (g n : Str) : Prop :=
  (∀ x, a ≠ .removeFromGroup x g n) ∧ ∀ r ∈ s.requests, r.method ≠ .removeFromGroup g n

theorem addsAt_handle {connected : Bool} {r : Request} {pre post : List Request}
    (hr : s.requests = pre ++ r :: post) {x : HostPortPair} :
    AddsAt s (.handle pre.length connected) g n x ↔ r.dst = x ∧ r.method = .addToGroup g n := by
  have hget : s.requests[pre.length]? = some r := by simp [hr]
  constructor
  · rintro (h | ⟨i, c, r', h, hr', hdst, hm⟩)
    · cases h
    · obtain ⟨rfl, -⟩ := TrafficAction.handle.inj h
      obtain rfl : r = r' := Option.some.inj (hget.symm.trans hr')
      exact ⟨hdst, hm⟩
  · rintro ⟨hdst, hm⟩
    exact Or.inr ⟨pre.length, connected, r, rfl, hget, hdst, hm⟩

theorem addsAt_user {x : HostPortPair} {f : ServiceNode → Effect} (ha : a.method = some (x, f))
    {y : HostPortPair} : AddsAt s a g n y ↔ y = x ∧ a = .addToGroup x g n := by
  constructor
  · rintro (rfl | ⟨i, c, r, rfl, -⟩)
    · obtain ⟨rfl, -⟩ := Prod.mk.inj (Option.some.inj ha)
      exact ⟨rfl, rfl⟩
    · cases ha
  · rintro ⟨rfl, h⟩
    exact Or.inl h

/-- The count after an add is one of an entry, and another method leaves the entry alone. -/
theorem isMember_of_memberCount {m m' : ServiceNode} {P : Prop} [Decidable P]
    (h : m'.memberCount g n =
      if P then ServiceNode.countAdd (m.memberCount g n) else m.memberCount g n) :
    m'.IsMember g n ↔ m.IsMember g n ∨ P := by
  rw [ServiceNode.isMember_iff, ServiceNode.isMember_iff, h]
  split_ifs with hP
  · cases m.memberCount g n <;> simp [ServiceNode.countAdd, hP]
  · simp [hP]

theorem isMember_addToGroup (m : ServiceNode) (g' n' : Str) :
    (m.addToGroup g' n').node.IsMember g n ↔ m.IsMember g n ∨ (g = g' ∧ n = n') :=
  isMember_of_memberCount (ServiceNode.memberCount_addToGroup m g' n' g n)

theorem isMember_rpcAddToGroup (m : ServiceNode) (g' n' : Str) :
    (m.rpcAddToGroup g' n').node.IsMember g n ↔ m.IsMember g n ∨ (g = g' ∧ n = n') :=
  isMember_of_memberCount (ServiceNode.memberCount_rpcAddToGroup m g' n' g n)

/-- Removing another member leaves the entry alone. -/
theorem isMember_congr {m m' : ServiceNode} {P : Prop} [Decidable P] {v : Option Int32}
    (h : m'.memberCount g n = if P then v else m.memberCount g n) (hP : ¬ P) :
    m'.IsMember g n ↔ m.IsMember g n := by
  rw [ServiceNode.isMember_iff, ServiceNode.isMember_iff, h, if_neg hP]

/-- The members of a node after a group request that does not remove this one. -/
theorem isMember_serve {m : ServiceNode} {method : Method} (haddPeer : ∀ y, method ≠ .addPeer y)
    (hremove : method ≠ .removeFromGroup g n) :
    (m.serve method).1.node.IsMember g n ↔ m.IsMember g n ∨ method = .addToGroup g n := by
  cases method with
  | addPeer y => exact absurd rfl (haddPeer y)
  | addToGroup g' n' =>
    rw [ServiceNode.serve, isMember_rpcAddToGroup, Method.addToGroup.injEq, eq_comm (a := g'),
      eq_comm (a := n')]
  | removeFromGroup g' n' =>
    rw [ServiceNode.serve, isMember_congr (ServiceNode.memberCount_rpcRemoveFromGroup m g' n' g n)]
    · simp
    · rintro ⟨rfl, rfl⟩
      exact hremove rfl

/-- The members of a node after a method that a user calls and that does not remove this one. -/
theorem isMember_method {x : HostPortPair} {f : ServiceNode → Effect} (ha : a.method = some (x, f))
    (hremove : a ≠ .removeFromGroup x g n) (m : ServiceNode) :
    (f m).node.IsMember g n ↔ m.IsMember g n ∨ a = .addToGroup x g n := by
  cases a with
  | addToGroup x' g' n' =>
    obtain ⟨rfl, rfl⟩ := Prod.mk.inj (Option.some.inj ha)
    rw [isMember_addToGroup, TrafficAction.addToGroup.injEq, eq_comm (a := g'), eq_comm (a := n'),
      and_iff_right rfl]
  | removeFromGroup x' g' n' =>
    obtain ⟨rfl, rfl⟩ := Prod.mk.inj (Option.some.inj ha)
    rw [isMember_congr (ServiceNode.memberCount_removeFromGroup m g' n' g n)]
    · simp
    · rintro ⟨rfl, rfl⟩
      exact hremove rfl
  | addGroupCallback x' g' cb =>
    obtain ⟨rfl, rfl⟩ := Prod.mk.inj (Option.some.inj ha)
    simp [ServiceNode.isMember_iff, ServiceNode.memberCount_addGroupCallback]
  | removeGroupCallback x' g' =>
    obtain ⟨rfl, rfl⟩ := Prod.mk.inj (Option.some.inj ha)
    simp [ServiceNode.isMember_iff, ServiceNode.memberCount_removeGroupCallback]
  | addPeer => cases ha
  | handle => cases ha
  | link => cases ha
  | respond => cases ha

/-- The members of the nodes after a step that does not remove. -/
theorem isMember_step (h : step nodes s a = some t) (hkeeps : KeepsMember s a g n)
    (x : HostPortPair) :
    (t.node x).IsMember g n ↔ (s.node x).IsMember g n ∨ AddsAt s a g n x := by
  have hupdate : ∀ {y : HostPortPair} {m : ServiceNode}, t.node = Function.update s.node y m →
      (m.IsMember g n ↔ (s.node y).IsMember g n ∨ AddsAt s a g n y) →
      (∀ z, AddsAt s a g n z → z = y) →
      ((t.node x).IsMember g n ↔ (s.node x).IsMember g n ∨ AddsAt s a g n x) := by
    intro y m hnode hm honly
    rw [hnode, Function.update_apply]
    split_ifs with hx
    · rw [hx, hm]
    · exact ⟨Or.inl, fun hor => hor.elim id fun hadds => absurd (honly x hadds) hx⟩
  have hnone : t.node = s.node → (∀ z, ¬ AddsAt s a g n z) →
      ((t.node x).IsMember g n ↔ (s.node x).IsMember g n ∨ AddsAt s a g n x) := by
    intro hnode hnot
    rw [hnode, or_iff_left (hnot x)]
  cases acts_of_step h with
  | dial y z connected hx hdials hrequests =>
    exact hnone hdials.node (by rintro w (hw | ⟨_, _, _, hw, -⟩) <;> cases hw)
  | told connected r pre post y hr hm hdials hrequests =>
    refine hnone hdials.node fun z hadds => ?_
    rw [addsAt_handle hr, hm] at hadds
    exact absurd hadds.2 (by simp)
  | serve connected r pre post hr hm hnode hrequests hconnecting =>
    have hmem : r ∈ s.requests := by simp [hr]
    refine hupdate hnode ?_ fun z hadds => ((addsAt_handle hr).1 hadds).1.symm
    rw [isMember_serve hm (hkeeps.2 r hmem), addsAt_handle hr, and_iff_right rfl]
  | user y f hb hx hnode hrequests hconnecting =>
    refine hupdate hnode ?_ fun z hadds => ?_
    · rw [isMember_method hb (hkeeps.1 y), addsAt_user hb, and_iff_right rfl]
    · exact ((addsAt_user hb).1 hadds).1
  | link c pre post hc hnode hrequests hconnecting =>
    have hnot : ∀ z, ¬ AddsAt s (.link pre.length) g n z := by
      rintro z (hz | ⟨_, _, _, hz, -⟩) <;> cases hz
    exact hupdate hnode (by rw [or_iff_left (hnot c.x)]; rfl) fun z hz => absurd hz (hnot z)
  | respond i hnode hrequests hconnecting =>
    exact hnone hnode (by rintro w (hw | ⟨_, _, _, hw, -⟩) <;> cases hw)

/-! ### Where the members are -/

/-- A new request was written to a peer by a method that a user called, or greets a new peer. -/
theorem mem_requests_origin (h : step nodes s a = some t) {r : Request} (hr : r ∈ t.requests) :
    r ∈ s.requests ∨
      (∃ x f, a.method = some (x, f) ∧ ⟨r.dst, r.method⟩ ∈ (f (s.node x)).calls) ∨
      ∃ c ∈ s.connecting, c.y ∈ (t.node c.x).peers ∧
        ⟨r.dst, r.method⟩ ∈ (s.node c.x).greeting c.y := by
  cases acts_of_step h with
  | dial x y connected hx hdials hrequests => exact Or.inl (hrequests ▸ hr)
  | told connected r' pre post y hr' hm hdials hrequests =>
    exact Or.inl (mem_of_mem_split hr' (hrequests ▸ hr))
  | serve connected r' pre post hr' hm hnode hrequests hconnecting =>
    exact Or.inl (mem_of_mem_split hr' (hrequests ▸ hr))
  | user x f hb hx hnode hrequests hconnecting =>
    rw [hrequests] at hr
    rcases List.mem_append.1 hr with hr | hr
    · exact Or.inl hr
    · exact Or.inr (Or.inl ⟨x, f, hb, (Mesh.mem_issue hr).2⟩)
  | link c pre post hc hnode hrequests hconnecting =>
    rw [hrequests] at hr
    rcases List.mem_append.1 hr with hr | hr
    · exact Or.inl hr
    · refine Or.inr (Or.inr ⟨c, by simp [hc], ?_, (Mesh.mem_issue hr).2⟩)
      exact (mem_peers_link hnode).2 (Or.inr ⟨rfl, rfl⟩)
  | respond i hnode hrequests hconnecting => exact Or.inl (hrequests ▸ hr)

/-- The calls of a method that a user calls: to the peers, and of the same kind. -/
theorem mem_calls_method {x : HostPortPair} {f : ServiceNode → Effect} {m : ServiceNode}
    (ha : a.method = some (x, f)) {c : Call} (hc : c ∈ (f m).calls) :
    c.dst ∈ m.peers ∧ ((∃ g n, a = .addToGroup x g n ∧ c.method = .addToGroup g n) ∨
      ∃ g n, a = .removeFromGroup x g n ∧ c.method = .removeFromGroup g n) := by
  cases a with
  | addToGroup x' g n =>
    obtain ⟨rfl, rfl⟩ := Prod.mk.inj (Option.some.inj ha)
    rw [ServiceNode.calls_addToGroup, ServiceNode.mem_notify] at hc
    exact ⟨hc.1, Or.inl ⟨g, n, rfl, hc.2⟩⟩
  | removeFromGroup x' g n =>
    obtain ⟨rfl, rfl⟩ := Prod.mk.inj (Option.some.inj ha)
    rw [ServiceNode.calls_removeFromGroup, ServiceNode.mem_notify] at hc
    exact ⟨hc.1, Or.inr ⟨g, n, rfl, hc.2⟩⟩
  | addGroupCallback x' g cb =>
    obtain ⟨rfl, rfl⟩ := Prod.mk.inj (Option.some.inj ha)
    exact absurd hc List.not_mem_nil
  | removeGroupCallback x' g =>
    obtain ⟨rfl, rfl⟩ := Prod.mk.inj (Option.some.inj ha)
    exact absurd hc List.not_mem_nil
  | addPeer => cases ha
  | handle => cases ha
  | link => cases ha
  | respond => cases ha

/-- A request to add the member is on its way to the node `x`. -/
def Coming (s : Traffic) (g n : Str) (x : HostPortPair) : Prop :=
  ∃ r ∈ s.requests, r.dst = x ∧ r.method = .addToGroup g n

/-- The member `n` of the group `g` after the actions `as`: nobody removes it, and it spreads from
the nodes where users added it. -/
structure Spread (as : List TrafficAction) (g n : Str) (s : Traffic) : Prop where
  kept : ∀ r ∈ s.requests, r.method ≠ .removeFromGroup g n
  spreads : Spreads (fun x y => y ∈ (s.node x).peers) (fun x => .addToGroup x g n ∈ as)
    (fun x => (s.node x).IsMember g n) (s.Coming g n)

theorem spread_start : Spread [] g n start := by
  have hrequests : ∀ r, r ∉ start.requests := fun r => List.not_mem_nil
  have hmember : ∀ x, ¬ (start.node x).IsMember g n := fun x => by
    rw [ServiceNode.not_isMember_iff]
    exact ServiceNode.memberCount_create x g n
  refine ⟨fun r hr => absurd hr (hrequests r), ⟨fun x hx => absurd hx List.not_mem_nil,
    fun x y hx => absurd hx List.not_mem_nil⟩, ?_⟩
  rintro x (hx | ⟨r, hr, -⟩)
  · exact absurd hx (hmember x)
  · exact absurd hr (hrequests r)

/-- A user who adds a member sends it to all peers of the node. -/
theorem coming_of_addToGroup {x y : HostPortPair} (h : step nodes s (.addToGroup x g n) = some t)
    (hy : y ∈ (t.node x).peers) : t.Coming g n y := by
  cases acts_of_step h with
  | user z f hb hx hnode hrequests hconnecting =>
    obtain ⟨rfl, rfl⟩ := Prod.mk.inj (Option.some.inj hb)
    rw [hnode, Function.update_self, ServiceNode.peers_addToGroup] at hy
    have hcall : (⟨y, .addToGroup g n⟩ : Call) ∈ ((s.node x).addToGroup g n).calls := by
      rw [ServiceNode.calls_addToGroup, ServiceNode.mem_notify]
      exact ⟨hy, rfl⟩
    obtain ⟨r, hr, -, hdst, hm⟩ := Mesh.exists_mem_issue s.toMesh x hcall
    exact ⟨r, hrequests ▸ List.mem_append_right _ hr, hdst, hm⟩

/-- A new peer is told of the members. -/
theorem coming_of_link (h : step nodes s a = some t) {x y : HostPortPair}
    (hy : y ∈ (t.node x).peers) :
    y ∈ (s.node x).peers ∨ ((s.node x).IsMember g n → t.Coming g n y) := by
  rcases peers_step h with hlinks | ⟨c, pre, post, hc, -, hnode, hrequests⟩
  · exact Or.inl (hlinks x ▸ hy)
  · rcases (mem_peers_link hnode).1 hy with hy | ⟨rfl, rfl⟩
    · exact Or.inl hy
    · refine Or.inr fun hmember => ?_
      have hcall : (⟨c.y, .addToGroup g n⟩ : Call) ∈ (s.node c.x).greeting c.y :=
        ServiceNode.mem_greeting.2 ⟨rfl, Or.inr (Or.inr ⟨g, n, hmember, rfl⟩)⟩
      obtain ⟨r, hr, -, hdst, hm⟩ := Mesh.exists_mem_issue s.toMesh c.x hcall
      exact ⟨r, hrequests ▸ List.mem_append_right _ hr, hdst, hm⟩

/-- Where a member or a request to add it comes from. -/
theorem Spread.origin {as : List TrafficAction} (h : Spread as g n s)
    (ha : ∀ x, a ≠ .removeFromGroup x g n) (hst : Traffic.step nodes s a = some t)
    {x : HostPortPair} (hx : (t.node x).IsMember g n ∨ t.Coming g n x) :
    ((s.node x).IsMember g n ∨ s.Coming g n x) ∨ a = .addToGroup x g n ∨
      ∃ z, ((s.node z).IsMember g n ∨ a = .addToGroup z g n) ∧ x ∈ (t.node z).peers := by
  rcases hx with hx | ⟨r, hr, rfl, hm⟩
  · rcases (isMember_step hst ⟨ha, h.kept⟩ x).1 hx with hx | hadds | ⟨i, c, r, -, hr, hdst, hm⟩
    · exact Or.inl (Or.inl hx)
    · exact Or.inr (Or.inl hadds)
    · exact Or.inl (Or.inr ⟨r, List.mem_of_getElem? hr, hdst, hm⟩)
  · rcases mem_requests_origin hst hr with hr | ⟨z, f, hb, hc⟩ | ⟨c, hc, hy, hcall⟩
    · exact Or.inl (Or.inr ⟨r, hr, rfl, hm⟩)
    · obtain ⟨hpeer, ⟨g', n', rfl, hm'⟩ | ⟨g', n', rfl, hm'⟩⟩ := mem_calls_method hb hc
      · obtain ⟨rfl, rfl⟩ := Method.addToGroup.inj (hm'.symm.trans hm)
        exact Or.inr (Or.inr ⟨z, Or.inr rfl, mem_peers_step hst hpeer⟩)
      · cases hm'.symm.trans hm
    · obtain ⟨hdst, hcases⟩ := ServiceNode.mem_greeting.1 hcall
      simp only [hm] at hdst hcases
      rcases hcases with hcall | ⟨p, -, -, hcall⟩ | ⟨g', n', hmember, hcall⟩
      · cases hcall
      · cases hcall
      · obtain ⟨rfl, rfl⟩ := Method.addToGroup.inj hcall
        exact Or.inr (Or.inr ⟨c.x, Or.inl hmember, hdst ▸ hy⟩)

/-- No request to remove the member is written. -/
theorem Spread.kept_step {as : List TrafficAction} (h : Spread as g n s)
    (ha : ∀ x, a ≠ .removeFromGroup x g n) (hst : Traffic.step nodes s a = some t) :
    ∀ r ∈ t.requests, r.method ≠ .removeFromGroup g n := by
  intro r hr hm
  rcases mem_requests_origin hst hr with hr | ⟨z, f, hb, hc⟩ | ⟨c, hc, hy, hcall⟩
  · exact h.kept r hr hm
  · obtain ⟨-, ⟨g', n', rfl, hm'⟩ | ⟨g', n', rfl, hm'⟩⟩ := mem_calls_method hb hc
    · cases hm'.symm.trans hm
    · obtain ⟨rfl, rfl⟩ := Method.removeFromGroup.inj (hm'.symm.trans hm)
      exact ha z rfl
  · rcases (ServiceNode.mem_greeting.1 hcall).2 with hcall | ⟨p, -, -, hcall⟩ | ⟨g', n', -, hcall⟩
    all_goals cases hm.symm.trans hcall

/-- Every step that does not remove the member keeps the invariant. -/
theorem Spread.step {as : List TrafficAction} (h : Spread as g n s)
    (ha : ∀ x, a ≠ .removeFromGroup x g n) (hst : Traffic.step nodes s a = some t) :
    Spread (as ++ [a]) g n t := by
  have hmember := isMember_step hst ⟨ha, h.kept⟩
  refine ⟨h.kept_step ha hst, h.spreads.step (fun x y hy => mem_peers_step hst hy)
    (fun x hx => List.mem_append_left [a] hx) (fun x hx => (hmember x).2 (Or.inl hx))
    (fun x hx => ?_) (fun x hx => ?_) (fun x y hy => ?_) (fun x hx => ?_)⟩
  · obtain ⟨r, hr, rfl, hm⟩ := hx
    rcases mem_requests_step hst hr with hr' | ⟨connected, pre, post, rfl, hr', -⟩
    · exact Or.inr ⟨r, hr', rfl, hm⟩
    · exact Or.inl ((hmember r.dst).2 (Or.inr ((addsAt_handle hr').2 ⟨rfl, hm⟩)))
  · rcases List.mem_append.1 hx with hx | hx
    · exact Or.inl hx
    · rw [List.mem_singleton] at hx
      refine Or.inr ⟨(hmember x).2 (Or.inr (Or.inl hx.symm)), fun y hy => Or.inr ?_⟩
      exact coming_of_addToGroup (hx ▸ hst) hy
  · exact (coming_of_link hst hy).imp id fun hcoming hx => Or.inr (hcoming hx)
  · have hnew : ∀ z, a = .addToGroup z g n → .addToGroup z g n ∈ as ++ [a] := fun z hz =>
      hz ▸ List.mem_append_right as List.mem_cons_self
    exact (h.origin ha hst hx).imp id fun hcases => hcases.imp (hnew x) fun ⟨z, hz, hpeer⟩ =>
      ⟨z, hz.imp id (hnew z), hpeer⟩

theorem spread_of_exec {as : List TrafficAction}
    (hrun : exec (step nodes) start as = some s) (has : ∀ x, .removeFromGroup x g n ∉ as) :
    Spread as g n s := by
  refine exec_induction (fun as s => (∀ x, .removeFromGroup x g n ∉ as) → Spread as g n s)
    (fun _ => spread_start) ?_ hrun has
  intro as s a t _ ih hst hkeeps
  refine (ih fun x hx => hkeeps x (List.mem_append_left _ hx)).step (fun x hx => ?_) hst
  exact hkeeps x (hx ▸ List.mem_append_right _ List.mem_cons_self)

/-- The members of the nodes of a network at rest. -/
theorem isMember_iff_of_atRest {as : List TrafficAction}
    (hrun : exec (step nodes) start as = some s) (has : ∀ a ∈ as, a.Connects)
    (hkeeps : ∀ x, .removeFromGroup x g n ∉ as) (hrest : AtRest s) (x : HostPortPair) :
    (s.node x).IsMember g n ↔ ∃ y, .addToGroup y g n ∈ as ∧ EqvGen (Asked as) y x := by
  have hquiet : ∀ x y, s.KnowsOf x y → y ∈ (s.node x).peers := fun x y hk => hrest.mem_peers hk
  have h := acquainted_of_exec hrun has
  have hcoming : ∀ x, ¬ s.Coming g n x := by
    rintro x ⟨r, hr, -⟩
    exact List.not_mem_nil (hrest.1 ▸ hr)
  rw [(spread_of_exec hrun hkeeps).spreads.has_iff hcoming fun x y hxy =>
    h.introduced.peer_of_connected hquiet hxy]
  simp only [h.introduced.connected_iff hquiet]

end Traffic

/-! ### What the callbacks of one node are told -/

/-- What a method on the group `group` does, as far as the member `n` of `g` goes: nothing that a
callback is told of, or every callback of the group is told of one name. If that is the member, then
it has just become one. -/
structure Reports (m : ServiceNode) (g n group : Str) (e : Effect) : Prop where
  callbacks : ∀ g', e.node.groupCallbacks.getD g' [] = m.groupCallbacks.getD g' []
  event : (e.fired = [] ∧ (e.node.IsMember g n ↔ m.IsMember g n)) ∨
    ∃ name b, e.fired = m.fire group name b ∧
      if g = group ∧ n = name then b = true ∧ ¬ m.IsMember g n ∧ e.node.IsMember g n
      else e.node.IsMember g n ↔ m.IsMember g n

namespace Reports

variable {m : ServiceNode} {g n group name : Str} {e : Effect}

/-- The two methods that add a member. -/
theorem of_memberEvent (h : MemberEvent m group name e) (hadded : e.node.IsMember group name) :
    Reports m g n group e := by
  refine ⟨h.callbacks, ?_⟩
  rcases h.event with ⟨hfired, hmem⟩ | ⟨b, hfired, hwas, hmem⟩
  · exact Or.inl ⟨hfired, hmem g n⟩
  · refine Or.inr ⟨name, b, hfired, ?_⟩
    have hb : b = true := by
      rw [hmem, if_pos ⟨rfl, rfl⟩] at hadded
      exact hadded
    split_ifs with hgn
    · obtain ⟨rfl, rfl⟩ := hgn
      exact ⟨hb, fun hold => by simp [hwas.1 hold] at hb, hadded⟩
    · rw [hmem, if_neg hgn]

/-- The two methods that remove a member, also when it is absent. -/
theorem of_remove {v : Option Int32}
    (hcallbacks : e.node.groupCallbacks = m.groupCallbacks)
    (hfired : e.fired = [] ∨ e.fired = m.fire group name false)
    (hcount : e.node.memberCount g n = if g = group ∧ n = name then v else m.memberCount g n)
    (hne : ¬ (g = group ∧ n = name)) : Reports m g n group e := by
  have hmem := Traffic.isMember_congr hcount hne
  refine ⟨fun g' => by rw [hcallbacks], ?_⟩
  rcases hfired with hfired | hfired
  · exact Or.inl ⟨hfired, hmem⟩
  · exact Or.inr ⟨name, false, hfired, by rwa [if_neg hne]⟩

theorem addToGroup (m : ServiceNode) (g n group name : Str) :
    Reports m g n group (m.addToGroup group name) :=
  of_memberEvent (.addToGroup m group name)
    ((Traffic.isMember_addToGroup m group name).2 (Or.inr ⟨rfl, rfl⟩))

theorem rpcAddToGroup (m : ServiceNode) (g n group name : Str) :
    Reports m g n group (m.rpcAddToGroup group name) :=
  of_memberEvent (.rpcAddToGroup m group name)
    ((Traffic.isMember_rpcAddToGroup m group name).2 (Or.inr ⟨rfl, rfl⟩))

theorem removeFromGroup (m : ServiceNode) (hne : ¬ (g = group ∧ n = name)) :
    Reports m g n group (m.removeFromGroup group name) := by
  refine of_remove ?_ ?_ (m.memberCount_removeFromGroup group name g n) hne
  · simp only [ServiceNode.removeFromGroup]
    split_ifs <;> rfl
  · simp only [ServiceNode.removeFromGroup]
    split_ifs <;> simp

theorem rpcRemoveFromGroup (m : ServiceNode) (hne : ¬ (g = group ∧ n = name)) :
    Reports m g n group (m.rpcRemoveFromGroup group name) := by
  refine of_remove ?_ ?_ (m.memberCount_rpcRemoveFromGroup group name g n) hne
  · simp only [ServiceNode.rpcRemoveFromGroup]
    split_ifs <;> rfl
  · simp only [ServiceNode.rpcRemoveFromGroup]
    split_ifs <;> simp

end Reports

/-- The registrations of a node are numbered, a number is registered for one group, and the
callbacks of the group `g` have been told of `n` once if it is a member, and else not at all. -/
structure ToldOnce (g n : Str) (s : Observed) : Prop where
  registered_lt : ∀ g', ∀ cb ∈ s.callbacks g', cb < s.nextCallback
  logged_lt : ∀ e ∈ s.log, e.2.callback < s.nextCallback
  nodup : ∀ g', (s.callbacks g').Nodup
  group_unique : ∀ g₁ g₂ cb, cb ∈ s.callbacks g₁ → cb ∈ s.callbacks g₂ → g₁ = g₂
  told : ∀ cb ∈ s.callbacks g, s.flags cb n = if s.node.IsMember g n then [true] else []

namespace ToldOnce

variable {s t : Observed} {g n group : Str}

theorem start (addr : HostPortPair) : ToldOnce g n ⟨.create addr, 0, []⟩ := by
  have hcb : ∀ g', (⟨.create addr, 0, []⟩ : Observed).callbacks g' = [] := fun g' => by
    simp [Observed.callbacks, ServiceNode.create]
  constructor <;> simp [hcb]

/-- What fires nothing, registers nothing and changes no member. -/
theorem of_quiet (h : ToldOnce g n s) (hnext : t.nextCallback = s.nextCallback)
    (hlog : t.log = s.log) (hcb : ∀ g', (t.callbacks g').Sublist (s.callbacks g'))
    (hmem : t.node.IsMember g n ↔ s.node.IsMember g n) : ToldOnce g n t := by
  have hsub : ∀ g', ∀ cb ∈ t.callbacks g', cb ∈ s.callbacks g' := fun g' cb hc =>
    (hcb g').subset hc
  refine ⟨fun g' cb hc => ?_, fun f hf => ?_, fun g' => ?_, fun g₁ g₂ cb h₁ h₂ => ?_,
    fun cb hc => ?_⟩
  · exact hnext ▸ h.registered_lt g' cb (hsub g' cb hc)
  · exact hnext ▸ h.logged_lt f (hlog ▸ hf)
  · exact (h.nodup g').sublist (hcb g')
  · exact h.group_unique g₁ g₂ cb (hsub g₁ cb h₁) (hsub g₂ cb h₂)
  · simp only [Observed.flags, hlog, hmem]
    exact h.told cb (hsub g cb hc)

/-- A method on a group. -/
theorem of_reports (h : ToldOnce g n s) {e : Effect} (he : Reports s.node g n group e)
    (hnode : t.node = e.node) (hnext : t.nextCallback = s.nextCallback)
    (hlog : t.log = s.log ++ e.fired.map fun f => (group, f)) : ToldOnce g n t := by
  have hcb : ∀ g', t.callbacks g' = s.callbacks g' := fun g' => by
    rw [Observed.callbacks, hnode, he.callbacks, Observed.callbacks]
  rcases he.event with ⟨hfired, hmem⟩ | ⟨name, b, hfired, hmem⟩
  · rw [hfired, List.map_nil, List.append_nil] at hlog
    exact h.of_quiet hnext hlog (fun g' => by rw [hcb]) (by rw [hnode, hmem])
  · rw [hfired] at hlog
    refine ⟨fun g' cb hc => ?_, fun f hf => ?_, fun g' => ?_, fun g₁ g₂ cb h₁ h₂ => ?_,
      fun cb hc => ?_⟩
    · rw [hnext]
      exact h.registered_lt g' cb (hcb g' ▸ hc)
    · rw [hlog, List.mem_append] at hf
      rw [hnext]
      rcases hf with hf | hf
      · exact h.logged_lt f hf
      · simp only [ServiceNode.fire, List.mem_map, exists_exists_and_eq_and] at hf
        obtain ⟨c, hc, rfl⟩ := hf
        exact h.registered_lt group c hc
    · exact hcb g' ▸ h.nodup g'
    · exact h.group_unique g₁ g₂ cb (hcb g₁ ▸ h₁) (hcb g₂ ▸ h₂)
    · rw [hcb] at hc
      have hflags : t.flags cb n =
          s.flags cb n ++ if cb ∈ s.callbacks group ∧ n = name then [b] else [] := by
        rw [InStep.flags_append hlog, ServiceNode.fire]
        exact congrArg _ (InStep.flags_fire (h.nodup group) group name b cb n)
      -- The callback is one of this group exactly if it is about the group `g`.
      have hiff : cb ∈ s.callbacks group ∧ n = name ↔ g = group ∧ n = name :=
        and_congr_left fun _ => ⟨h.group_unique g group cb hc, fun hg => hg ▸ hc⟩
      rw [hflags, h.told cb hc, hnode]
      simp only [hiff]
      split_ifs at hmem with hgn
      · obtain ⟨rfl, hold, hnew⟩ := hmem
        rw [if_neg hold, if_pos hgn, if_pos hnew, List.nil_append]
      · simp only [if_neg hgn, hmem, List.append_nil]

/-- The new callback of a group is told of each member once. -/
theorem addGroupCallback (h : ToldOnce g n s)
    (ht : s.step (.addGroupCallback group) = some t) : ToldOnce g n t := by
  simp only [Observed.step, Option.some.injEq] at ht
  have hnext : t.nextCallback = s.nextCallback + 1 := by rw [← ht]
  have hlog : t.log = s.log ++ ((s.node.group group).keys.map fun name =>
      (⟨s.nextCallback, name, true⟩ : Fired)).map fun e => (group, e) := by rw [← ht]; rfl
  have hmem : t.node.IsMember g n ↔ s.node.IsMember g n := by
    rw [ServiceNode.isMember_iff, ServiceNode.isMember_iff, ← ht]
    simp only [Observed.effect, ServiceNode.memberCount_addGroupCallback]
  have hcases : ∀ g', ∀ cb ∈ t.callbacks g', (cb ∈ s.callbacks g' ∧ cb < s.nextCallback) ∨
      (g' = group ∧ cb = s.nextCallback) := by
    intro g' cb hc
    simp only [← ht, Observed.callbacks, Observed.effect, ServiceNode.addGroupCallback,
      Std.ExtTreeMap.getD_insert, Std.compare_eq_iff_eq] at hc
    split_ifs at hc with hg
    · rcases List.mem_append.1 hc with hc | hc
      · exact Or.inl ⟨hg ▸ hc, h.registered_lt group cb hc⟩
      · exact Or.inr ⟨hg.symm, List.mem_singleton.1 hc⟩
    · exact Or.inl ⟨hc, h.registered_lt g' cb hc⟩
  have hflags : ∀ cb, t.flags cb n =
      s.flags cb n ++ if cb = s.nextCallback ∧ s.node.IsMember group n then [true] else [] := by
    intro cb
    rw [InStep.flags_append hlog, InStep.flags_replay (nodup_keys _) group s.nextCallback cb n]
    simp only [Std.ExtTreeMap.mem_keys]
    rfl
  refine ⟨fun g' cb hc => ?_, fun f hf => ?_, fun g' => ?_, fun g₁ g₂ cb h₁ h₂ => ?_,
    fun cb hc => ?_⟩
  · rw [hnext]
    rcases hcases g' cb hc with ⟨-, hlt⟩ | ⟨-, rfl⟩
    · exact Nat.lt_succ_of_lt hlt
    · exact Nat.lt_succ_self _
  · rw [hnext]
    rw [hlog, List.mem_append] at hf
    rcases hf with hf | hf
    · exact Nat.lt_succ_of_lt (h.logged_lt f hf)
    · simp only [List.mem_map, exists_exists_and_eq_and] at hf
      obtain ⟨name, -, rfl⟩ := hf
      exact Nat.lt_succ_self _
  · simp only [← ht, Observed.callbacks, Observed.effect, ServiceNode.addGroupCallback,
      Std.ExtTreeMap.getD_insert, Std.compare_eq_iff_eq]
    split_ifs
    · refine List.Nodup.append (h.nodup group) (List.nodup_singleton _) ?_
      rw [List.disjoint_singleton]
      exact fun hc => (h.registered_lt group _ hc).ne rfl
    · exact h.nodup g'
  · rcases hcases g₁ cb h₁ with ⟨hc₁, hlt₁⟩ | ⟨hg₁, hnew₁⟩ <;>
      rcases hcases g₂ cb h₂ with ⟨hc₂, hlt₂⟩ | ⟨hg₂, hnew₂⟩
    · exact h.group_unique g₁ g₂ cb hc₁ hc₂
    · exact absurd hnew₂ hlt₁.ne
    · exact absurd hnew₁ hlt₂.ne
    · rw [hg₁, hg₂]
  · simp only [hflags, hmem]
    rcases hcases g cb hc with ⟨hc, hlt⟩ | ⟨rfl, rfl⟩
    · rw [if_neg fun hcb => hlt.ne hcb.1, List.append_nil]
      exact h.told cb hc
    · have hnone : s.flags s.nextCallback n = [] := by
        simp only [Observed.flags, List.map_eq_nil_iff, List.filter_eq_nil_iff, decide_eq_true_eq]
        exact fun e he hcb => (h.logged_lt e he).ne hcb.1
      simp [hnone]

theorem removeGroupCallback (h : ToldOnce g n s)
    (ht : s.step (.removeGroupCallback group) = some t) : ToldOnce g n t := by
  simp only [Observed.step, Option.some.injEq] at ht
  refine h.of_quiet (by rw [← ht]) (by rw [← ht]; exact List.append_nil _) (fun g' => ?_)
    (by rw [← ht]; rfl)
  simp only [← ht, Observed.callbacks, Observed.effect, ServiceNode.removeGroupCallback,
    Std.ExtTreeMap.getD_erase]
  split_ifs
  · exact List.nil_sublist _
  · exact List.Sublist.refl _

/-- Every method that does not remove the member. -/
theorem step (h : ToldOnce g n s) {op : Op} (hop : ¬ op.Removes g n) (ht : s.step op = some t) :
    ToldOnce g n t := by
  have hnode : t.node = (s.effect op).node := congrArg Observed.node (Option.some.inj ht).symm
  have hlog : t.log = s.log ++ (s.effect op).fired.map fun f => (op.group, f) :=
    congrArg Observed.log (Option.some.inj ht).symm
  cases op with
  | addToGroup g' n' =>
    exact h.of_reports (.addToGroup s.node g n g' n') hnode (by rw [← Option.some.inj ht]) hlog
  | rpcAddToGroup g' n' =>
    exact h.of_reports (.rpcAddToGroup s.node g n g' n') hnode (by rw [← Option.some.inj ht]) hlog
  | removeFromGroup g' n' =>
    refine h.of_reports (.removeFromGroup s.node ?_) hnode (by rw [← Option.some.inj ht]) hlog
    rintro ⟨rfl, rfl⟩
    exact hop (Or.inl rfl)
  | rpcRemoveFromGroup g' n' =>
    refine h.of_reports (.rpcRemoveFromGroup s.node ?_) hnode (by rw [← Option.some.inj ht]) hlog
    rintro ⟨rfl, rfl⟩
    exact hop (Or.inr rfl)
  | addGroupCallback g' => exact h.addGroupCallback ht
  | removeGroupCallback g' => exact h.removeGroupCallback ht

end ToldOnce

/-! ### The mesh and the callbacks -/

/-- The group method that a request runs. -/
def Method.op : Method → Option Op
  | .addPeer _ => none
  | .addToGroup g n => some (.rpcAddToGroup g n)
  | .removeFromGroup g n => some (.rpcRemoveFromGroup g n)

/-- The group or callback method that an action runs, and the node. -/
def Traffic.op (s : Traffic) : TrafficAction → Option (HostPortPair × Op)
  | .addToGroup x g n => some (x, .addToGroup g n)
  | .removeFromGroup x g n => some (x, .removeFromGroup g n)
  | .addGroupCallback x g _ => some (x, .addGroupCallback g)
  | .removeGroupCallback x g => some (x, .removeGroupCallback g)
  | .handle i _ => s.requests[i]?.bind fun r => r.method.op.map fun op => (r.dst, op)
  | .addPeer _ _ _ | .link _ | .respond _ => none

/-- The mesh with the callbacks of every node numbered and their invocations logged. -/
structure Watched extends Traffic where
  nextCallback : HostPortPair → ℕ
  log : HostPortPair → List (Str × Fired)

namespace Watched

def start : Watched := ⟨Traffic.start, fun _ => 0, fun _ => []⟩

/-- One node of the mesh. -/
def observed (s : Watched) (x : HostPortPair) : Observed := ⟨s.node x, s.nextCallback x, s.log x⟩

/-- A registration takes the next number of its node. -/
def Numbers (s : Watched) : TrafficAction → Prop
  | .addGroupCallback x _ cb => cb = s.nextCallback x
  | _ => True

instance (s : Watched) : DecidablePred s.Numbers
  | .addGroupCallback x _ cb => inferInstanceAs (Decidable (cb = s.nextCallback x))
  | .addPeer _ _ _ | .addToGroup _ _ _ | .removeFromGroup _ _ _ | .removeGroupCallback _ _
  | .handle _ _ | .link _ | .respond _ => inferInstanceAs (Decidable True)

/-- One action of the mesh; the invocations that it makes are logged at the node that runs it. -/
def step (nodes : Std.ExtTreeSet HostPortPair) (s : Watched) (a : TrafficAction) :
    Option Watched :=
  if s.Numbers a then
    (s.toTraffic.step nodes a).bind fun t =>
      match s.toTraffic.op a with
      | none => some ⟨t, s.nextCallback, s.log⟩
      | some (x, op) => ((s.observed x).step op).map fun o =>
          ⟨t, Function.update s.nextCallback x o.nextCallback, Function.update s.log x o.log⟩
  else none

variable {nodes : Std.ExtTreeSet HostPortPair} {s t : Watched} {a : TrafficAction} {g n : Str}

/-- What a step does: the mesh moves, and one node logs what its method fires. -/
theorem step_cases (h : step nodes s a = some t) :
    s.Numbers a ∧ s.toTraffic.step nodes a = some t.toTraffic ∧
      ((s.toTraffic.op a = none ∧ t.nextCallback = s.nextCallback ∧ t.log = s.log) ∨
        ∃ x op o, s.toTraffic.op a = some (x, op) ∧ (s.observed x).step op = some o ∧
          t.nextCallback = Function.update s.nextCallback x o.nextCallback ∧
          t.log = Function.update s.log x o.log) := by
  simp only [step, Option.ite_none_right_eq_some, Option.bind_eq_some_iff] at h
  obtain ⟨hnumbers, t', ht', h⟩ := h
  refine ⟨hnumbers, ?_⟩
  cases hop : s.toTraffic.op a with
  | none =>
    rw [hop, Option.some.injEq] at h
    subst h
    exact ⟨ht', Or.inl ⟨rfl, rfl, rfl⟩⟩
  | some p =>
    obtain ⟨x, op⟩ := p
    simp only [hop, Option.map_eq_some_iff] at h
    obtain ⟨o, ho, rfl⟩ := h
    exact ⟨ht', Or.inr ⟨x, op, o, rfl, ho, rfl, rfl⟩⟩

/-- The node `x` runs the method of the action, or keeps its groups and callbacks. -/
def NodeMoves (s : Watched) (t : Traffic) (a : TrafficAction) (x : HostPortPair) : Prop :=
  (∃ op, s.toTraffic.op a = some (x, op) ∧ t.node x = ((s.observed x).effect op).node) ∨
    ((∀ op, s.toTraffic.op a ≠ some (x, op)) ∧ (t.node x).groups = (s.node x).groups ∧
      (t.node x).groupCallbacks = (s.node x).groupCallbacks)

theorem nodeMoves_of_update {t : Traffic} {y : HostPortPair} {op : Op}
    (hop : s.toTraffic.op a = some (y, op))
    (hnode : t.node = Function.update s.node y ((s.observed y).effect op).node)
    (x : HostPortPair) : NodeMoves s t a x := by
  by_cases hx : x = y
  · subst hx
    exact Or.inl ⟨op, hop, by rw [hnode, Function.update_self]⟩
  · refine Or.inr ⟨fun op' hop' => ?_, by rw [hnode, Function.update_of_ne hx],
      by rw [hnode, Function.update_of_ne hx]⟩
    rw [hop, Option.some.injEq, Prod.mk.injEq] at hop'
    exact hx hop'.1.symm

theorem nodeMoves_of_step (hnumbers : s.Numbers a) {t : Traffic}
    (h : s.toTraffic.step nodes a = some t) (x : HostPortPair) : NodeMoves s t a x := by
  have hsame : s.toTraffic.op a = none → t.node = s.node → NodeMoves s t a x := fun hop hnode =>
    Or.inr ⟨fun op => by simp [hop], by rw [hnode], by rw [hnode]⟩
  cases Traffic.acts_of_step h with
  | dial y z connected hy hdials hrequests => exact hsame rfl hdials.node
  | told connected r pre post y hr hm hdials hrequests =>
    have hget : s.requests[pre.length]? = some r := by simp [hr]
    exact hsame (by simp [Traffic.op, hget, hm, Method.op]) hdials.node
  | serve connected r pre post hr hm hnode hrequests hconnecting =>
    have hget : s.requests[pre.length]? = some r := by simp [hr]
    have hop : ∀ op, r.method.op = some op →
        s.toTraffic.op (.handle pre.length connected) = some (r.dst, op) := fun op hop => by
      rw [Traffic.op, hget, Option.bind_some, hop, Option.map_some]
    cases hmethod : r.method with
    | addPeer y => exact absurd hmethod (hm y)
    | addToGroup g n =>
      rw [hmethod] at hnode
      exact nodeMoves_of_update (hop _ (by rw [hmethod]; rfl)) hnode x
    | removeFromGroup g n =>
      rw [hmethod] at hnode
      exact nodeMoves_of_update (hop _ (by rw [hmethod]; rfl)) hnode x
  | user y f hb hy hnode hrequests hconnecting =>
    cases a with
    | addToGroup y' g n =>
      obtain ⟨rfl, rfl⟩ := Prod.mk.inj (Option.some.inj hb)
      exact nodeMoves_of_update rfl hnode x
    | removeFromGroup y' g n =>
      obtain ⟨rfl, rfl⟩ := Prod.mk.inj (Option.some.inj hb)
      exact nodeMoves_of_update rfl hnode x
    | addGroupCallback y' g cb =>
      obtain ⟨rfl, rfl⟩ := Prod.mk.inj (Option.some.inj hb)
      obtain rfl : cb = s.nextCallback y' := hnumbers
      exact nodeMoves_of_update rfl hnode x
    | removeGroupCallback y' g =>
      obtain ⟨rfl, rfl⟩ := Prod.mk.inj (Option.some.inj hb)
      exact nodeMoves_of_update rfl hnode x
    | addPeer => cases hb
    | handle => cases hb
    | link => cases hb
    | respond => cases hb
  | link c pre post hc hnode hrequests hconnecting =>
    have hlinked : (t.node x).groups = (s.node x).groups ∧
        (t.node x).groupCallbacks = (s.node x).groupCallbacks := by
      rw [hnode, Function.update_apply]
      split_ifs with hx
      · rw [hx]
        exact ⟨rfl, rfl⟩
      · exact ⟨rfl, rfl⟩
    refine Or.inr ⟨fun op hop => ?_, hlinked⟩
    cases hop
  | respond i hnode hrequests hconnecting => exact hsame rfl hnode

/-- A node runs the method of the action, or keeps its groups, callbacks and log. -/
theorem observed_step (h : step nodes s a = some t) (x : HostPortPair) :
    (∃ op, s.toTraffic.op a = some (x, op) ∧ (s.observed x).step op = some (t.observed x)) ∨
      ((t.node x).groups = (s.node x).groups ∧
        (t.node x).groupCallbacks = (s.node x).groupCallbacks ∧
        t.nextCallback x = s.nextCallback x ∧ t.log x = s.log x) := by
  obtain ⟨hnumbers, hst, hlogs⟩ := step_cases h
  rcases nodeMoves_of_step hnumbers hst x with ⟨op, hop, hnode⟩ | ⟨hop, hgroups, hcallbacks⟩
  · rcases hlogs with ⟨hnone, -⟩ | ⟨y, op', o, hop', ho, hnext, hlog⟩
    · cases hnone.symm.trans hop
    · obtain ⟨rfl, rfl⟩ := Prod.mk.inj (Option.some.inj (hop'.symm.trans hop))
      refine Or.inl ⟨op', hop', ?_⟩
      have hobserved : t.observed y = o := by
        rw [observed, hnext, hlog, Function.update_self, Function.update_self, hnode]
        exact congrArg (fun m => (⟨m, o.nextCallback, o.log⟩ : Observed))
          (congrArg Observed.node (Option.some.inj ho))
      rw [hobserved, ho]
  · refine Or.inr ⟨hgroups, hcallbacks, ?_⟩
    rcases hlogs with ⟨-, hnext, hlog⟩ | ⟨y, op', o, hop', -, hnext, hlog⟩
    · rw [hnext, hlog]
      exact ⟨rfl, rfl⟩
    · have hx : x ≠ y := by
        rintro rfl
        exact hop op' hop'
      rw [hnext, hlog, Function.update_of_ne hx, Function.update_of_ne hx]
      exact ⟨rfl, rfl⟩

theorem exec_toTraffic {as : List TrafficAction} (hrun : exec (step nodes) start as = some s) :
    exec (Traffic.step nodes) Traffic.start as = some s.toTraffic := by
  refine exec_induction (fun as s => exec (Traffic.step nodes) Traffic.start as = some s.toTraffic)
    rfl ?_ hrun
  intro as s a t _ ih hst
  exact exec_concat_eq_some.2 ⟨s.toTraffic, ih, (step_cases hst).2.1⟩

/-- The method of an action removes a member only if the action or a request in flight does. -/
theorem not_removes_op (ha : ∀ x, a ≠ .removeFromGroup x g n)
    (hkept : ∀ r ∈ s.requests, r.method ≠ .removeFromGroup g n) {x : HostPortPair} {op : Op}
    (hop : s.toTraffic.op a = some (x, op)) : ¬ op.Removes g n := by
  rintro (rfl | rfl)
  · cases a with
    | removeFromGroup y g' n' =>
      cases hop
      exact ha x rfl
    | handle i connected =>
      simp only [Traffic.op, Option.bind_eq_some_iff, Option.map_eq_some_iff] at hop
      obtain ⟨r, -, op, hm, hop⟩ := hop
      cases hmethod : r.method <;> simp_all [Method.op]
    | _ => cases hop
  · cases a with
    | handle i connected =>
      simp only [Traffic.op, Option.bind_eq_some_iff, Option.map_eq_some_iff] at hop
      obtain ⟨r, hr, op, hm, hop⟩ := hop
      refine hkept r (List.mem_of_getElem? hr) ?_
      cases hmethod : r.method <;> simp_all [Method.op]
    | _ => cases hop

theorem toldOnce_of_exec {as : List TrafficAction} (hrun : exec (step nodes) start as = some s)
    (hkeeps : ∀ x, .removeFromGroup x g n ∉ as) (x : HostPortPair) :
    ToldOnce g n (s.observed x) := by
  refine exec_induction (fun as s => (∀ x, .removeFromGroup x g n ∉ as) →
    ∀ x, ToldOnce g n (s.observed x)) (fun _ x => .start x) ?_ hrun hkeeps x
  intro as s a t hs ih hst hkeeps x
  have hkeeps' : ∀ x, .removeFromGroup x g n ∉ as := fun x hx =>
    hkeeps x (List.mem_append_left _ hx)
  have hspread := Traffic.spread_of_exec (exec_toTraffic hs) hkeeps'
  rcases observed_step hst x with ⟨op, hop, hstep⟩ | ⟨hgroups, hcallbacks, hnext, hlog⟩
  · refine (ih hkeeps' x).step (not_removes_op (fun y hy => ?_) hspread.kept hop) hstep
    exact hkeeps y (hy ▸ List.mem_append_right _ List.mem_cons_self)
  · refine (ih hkeeps' x).of_quiet hnext hlog (fun g' => ?_) ?_
    · simp only [Observed.callbacks, observed, hcallbacks]
      exact List.Sublist.refl _
    · simp only [observed, ServiceNode.IsMember, ServiceNode.group, hgroups]

/-- **Subscribers are told once.** Take any run of the mesh with calls of `RPCAddPeer` that overlap
in any way, in which connections succeed, no user names the address of the node itself and nobody
removes the name `n` from the group `g`. When the network is at rest, `n` is a member at a node
exactly if it was added at a node that the `addPeer` calls of the users connect it to; and every
callback that is registered for `g` there, whether before or after the name arrived, has been told
of `n` exactly once if it is a member and not at all if it is not.

Source: `src/rpc/service_node.cc`, lines 110–187, 198–247 and 249–264. -/
theorem subscribers_told_once (nodes : Std.ExtTreeSet HostPortPair) (as : List TrafficAction)
    (s : Watched) (hrun : exec (step nodes) start as = some s) (has : ∀ a ∈ as, a.Connects)
    (g n : Str) (hkeeps : ∀ x, .removeFromGroup x g n ∉ as) (hrest : s.toTraffic.AtRest)
    (x : HostPortPair) :
    ((s.node x).IsMember g n ↔
      ∃ y, .addToGroup y g n ∈ as ∧ EqvGen (Traffic.Asked as) y x) ∧
    ∀ cb ∈ (s.observed x).callbacks g,
      (s.observed x).flags cb n = if (s.node x).IsMember g n then [true] else [] := by
  refine ⟨?_, (toldOnce_of_exec hrun hkeeps x).told⟩
  exact Traffic.isMember_iff_of_atRest (exec_toTraffic hrun) has hkeeps hrest x

/-- One callback is registered at the second node before the first node adds the member and one
afterwards; the link is made twice, and another member is removed that nobody added. -/
def twoCallbacks : List TrafficAction :=
  [.addGroupCallback ⟨.ofString "b", 1⟩ (.ofString "g") 0,
    .addPeer ⟨.ofString "a", 1⟩ ⟨.ofString "b", 1⟩ true,
    .addPeer ⟨.ofString "a", 1⟩ ⟨.ofString "b", 1⟩ true, .link 0,
    .addToGroup ⟨.ofString "a", 1⟩ (.ofString "g") (.ofString "n"), .link 0,
    .removeFromGroup ⟨.ofString "a", 1⟩ (.ofString "g") (.ofString "m"),
    .handle 0 true, .handle 0 true, .link 0,
    .addGroupCallback ⟨.ofString "b", 1⟩ (.ofString "g") 1,
    .handle 0 true, .handle 0 true, .handle 0 true, .handle 0 true, .handle 0 true]

theorem subscribers_told_once_twoCallbacks :
    ∃ s, exec (step Traffic.twoNodes) start twoCallbacks = some s ∧ s.toTraffic.AtRest ∧
      (s.observed ⟨.ofString "b", 1⟩).callbacks (.ofString "g") = [0, 1] ∧
      ∀ cb ∈ [0, 1], (s.observed ⟨.ofString "b", 1⟩).flags cb (.ofString "n") = [true] := by
  have hkeeps : ∀ x, .removeFromGroup x (.ofString "g") (.ofString "n") ∉ twoCallbacks := by
    have hne : Str.ofString "n" ≠ Str.ofString "m" := by decide
    intro x
    simp [twoCallbacks, hne]
  have hend : (exec (step Traffic.twoNodes) start twoCallbacks).map
      (fun s => (s.requests, s.connecting,
        (s.observed ⟨.ofString "b", 1⟩).callbacks (.ofString "g"))) = some ([], [], [0, 1]) := by
    decide +kernel
  obtain ⟨s, hs, hstate⟩ := Option.map_eq_some_iff.1 hend
  simp only [Prod.mk.injEq] at hstate
  obtain ⟨hrequests, hconnecting, hcallbacks⟩ := hstate
  have hrest : s.toTraffic.AtRest := ⟨hrequests, hconnecting⟩
  obtain ⟨hmember, htold⟩ := subscribers_told_once Traffic.twoNodes twoCallbacks s hs (by decide)
    (.ofString "g") (.ofString "n") hkeeps hrest ⟨.ofString "b", 1⟩
  refine ⟨s, hs, hrest, hcallbacks, fun cb hcb => ?_⟩
  rw [htold cb (hcallbacks ▸ hcb), if_pos (hmember.2 ⟨⟨.ofString "a", 1⟩, ?_, ?_⟩)]
  · decide
  · exact .rel _ _ (by rw [Traffic.Asked]; decide)

end Watched

end RawDish.Rpc
