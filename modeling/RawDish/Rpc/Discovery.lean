import RawDish.Rpc.Mesh

/-!
# Discovery of the full mesh

A node that connects to a new peer asks it to connect back and tells it the addresses of its
other peers. Whatever the order in which these requests are handled, a node never gets itself as
a peer, and when nothing is in flight any more every connected component is a complete graph and
every call has been answered with `true`.

The closure argument rests on one notion: `z` *knows of* `y` when `y` is a peer of `z` or a
request naming `y` is on its way to `z`. No step takes such knowledge away
(`KnowsOf.step`), a new connection from `x` to `y` makes `y` know of `x` and of the other peers
of `x`, and in a state without requests knowledge is the peer relation. The answers are complete
because a call only ever waits for a later call.

## Main definitions

* `Mesh.KnowsOf` : `y` is a peer of `z`, or about to be named to it.
* `Mesh.Linked` : the invariant of the peer tables and of the requests in flight.
* `Mesh.Answered` : the invariant of the futures.
* `Mesh.Connected` : the two nodes are in one connected component.

## Main results

* `Mesh.linked_of_exec`, `Mesh.answered_of_exec` : the invariants hold in every reachable state.
* `Mesh.mem_peers_of_connected` : components without requests in flight are complete graphs.
* `Mesh.full_mesh_discovery`.

## References

* `src/rpc/service_node.cc`, lines 198–247; `src/rpc/service_node.h`, lines 71–78.
-/

namespace RawDish.Rpc.Mesh

open Lib

variable {nodes : Std.ExtTreeSet HostPortPair} {s t : Mesh}

/-! ### Peer tables -/

/-- `y` is a peer of `z`, or a request naming `y` is in flight to `z`. -/
def KnowsOf (s : Mesh) (z y : HostPortPair) : Prop :=
  y ∈ (s.node z).peers ∨ ∃ r ∈ s.requests, r.dst = z ∧ r.method = .addPeer y

/-- The step from `s` to `t` connects the node `x` to the new peer `y`, named by a user call or by
a request, and puts its greeting in flight. -/
structure Joins (nodes : Std.ExtTreeSet HostPortPair) (s t : Mesh) (x y : HostPortPair) : Prop where
  mem_peers_iff : ∀ x' y', y' ∈ (t.node x').peers ↔ y' ∈ (s.node x').peers ∨ (x' = x ∧ y' = y)
  greets : ∀ c ∈ (s.node x).greeting y, ∃ r ∈ t.requests, r.src = x ∧ r.dst = y ∧
    r.method = c.method
  named : (x ∈ nodes ∧ y ∈ nodes ∧ x ≠ y) ∨ ∃ r ∈ s.requests, r.dst = x ∧ r.method = .addPeer y

/-- A step keeps all peer tables, or it connects one node to one new peer. -/
theorem peers_step {a : Action} (h : step nodes s a = some t) :
    (∀ x, (t.node x).peers = (s.node x).peers) ∨ ∃ x y, Joins nodes s t x y := by
  rcases step_cases h with ⟨x, e, base, hp, hnode, hreq⟩ | ⟨-, -, hnode, -⟩
  · rcases hp.peers_cases with ⟨hpeers, -⟩ | ⟨y, -, rfl, hwhy⟩
    · refine Or.inl fun x' => ?_
      rw [hnode, Function.update_apply]
      split_ifs with hx
      · rw [hpeers, hx]
      · rfl
    · refine Or.inr ⟨x, y, ?_, fun c hc => ?_, ?_⟩
      · intro x' y'
        rw [hnode, Function.update_apply]
        split_ifs with hx
        · rw [hx, Std.ExtTreeSet.mem_insert, Std.compare_eq_iff_eq]
          simp only [true_and, eq_comm (a := y), or_comm]
        · simp only [hx, false_and, or_false]
      · obtain ⟨r, hr, hsrc, hdst, hm⟩ := exists_mem_issue s x hc
        exact ⟨r, by rw [hreq]; exact List.mem_append_right _ hr, hsrc,
          hdst.trans (ServiceNode.mem_greeting.1 hc).1, hm⟩
      · rcases hwhy with ⟨-, hx, hy, hne⟩ | hr
        · exact Or.inl ⟨hx, hy, hne⟩
        · exact Or.inr hr
  · exact Or.inl fun x => by rw [hnode]

/-- No step removes a peer. -/
theorem mem_peers_step {a : Action} (h : step nodes s a = some t) {x y : HostPortPair}
    (hy : y ∈ (s.node x).peers) : y ∈ (t.node x).peers := by
  rcases peers_step h with hpeers | ⟨x', y', hj⟩
  · rwa [hpeers]
  · exact (hj.mem_peers_iff x y).2 (Or.inl hy)

/-- No step takes knowledge of an address away: handling the request that names it makes it a
peer. -/
theorem KnowsOf.step {a : Action} {z y : HostPortPair} (hk : KnowsOf s z y)
    (h : step nodes s a = some t) : KnowsOf t z y := by
  rcases hk with hy | ⟨r, hr, hdst, hm⟩
  · exact Or.inl (mem_peers_step h hy)
  · rcases step_cases h with ⟨x, e, base, hp, hnode, hreq⟩ | ⟨-, -, -, hreq⟩
    · rcases hp.mem_base_or hr with hr | ⟨rfl, rfl⟩
      · exact Or.inr ⟨r, by rw [hreq]; exact List.mem_append_left _ hr, hdst, hm⟩
      · subst hdst
        left
        rw [hnode, Function.update_self, hm, ServiceNode.serve]
        by_cases hy : y ∈ (s.node r.dst).peers
        · rwa [ServiceNode.rpcAddPeer_of_mem hy]
        · rw [ServiceNode.rpcAddPeer_of_notMem hy]
          exact Std.ExtTreeSet.mem_insert_self
    · exact Or.inr ⟨r, by rwa [hreq], hdst, hm⟩

/-- The invariant of the peer tables: addresses are canonical, nobody is its own peer and nobody
is told to connect to itself, requests go to peers, a peer knows of the node, and of two peers of
one node one knows of the other. -/
structure Linked (nodes : Std.ExtTreeSet HostPortPair) (s : Mesh) : Prop where
  addr_eq : ∀ x, (s.node x).addr = x
  not_self : ∀ x, x ∉ (s.node x).peers
  request_not_self : ∀ r ∈ s.requests, r.method ≠ .addPeer r.dst
  request_peer : ∀ r ∈ s.requests, r.dst ∈ (s.node r.src).peers
  peers_mem : ∀ x, ∀ y ∈ (s.node x).peers, x ∈ nodes ∧ y ∈ nodes
  request_mem : ∀ r ∈ s.requests, ∀ y, r.method = .addPeer y → y ∈ nodes
  back : ∀ x, ∀ y ∈ (s.node x).peers, KnowsOf s y x
  others : ∀ x, ∀ y ∈ (s.node x).peers, ∀ z ∈ (s.node x).peers, y ≠ z →
    KnowsOf s y z ∨ KnowsOf s z y

theorem linked_start : Linked nodes start := by
  constructor <;> simp [start, ServiceNode.create]

/-- A request after a step was in flight before, or it was written by the node that ran. -/
theorem mem_requests_of_step {a : Action} (h : step nodes s a = some t) {r : Request}
    (hr : r ∈ t.requests) :
    r ∈ s.requests ∨ ∃ e base, Performs nodes s a r.src e base ∧
      t.node = Function.update s.node r.src e.node ∧ ⟨r.dst, r.method⟩ ∈ e.calls := by
  rcases step_cases h with ⟨x, e, base, hp, hnode, hreq⟩ | ⟨-, -, -, hreq⟩
  · rw [hreq, List.mem_append] at hr
    rcases hr with hr | hr
    · exact Or.inl (hp.mem_of_mem_base hr)
    · obtain ⟨rfl, hc⟩ := mem_issue hr
      exact Or.inr ⟨e, base, hp, hnode, hc⟩
  · exact Or.inl (hreq ▸ hr)

/-- A node that connects writes to the new peer. -/
theorem dst_mem_peers_rpcAddPeer {n : ServiceNode} {y : HostPortPair} {c : Call}
    (hc : c ∈ (n.rpcAddPeer y true).1.calls) : c.dst ∈ (n.rpcAddPeer y true).1.node.peers := by
  by_cases hy : y ∈ n.peers
  · simp [ServiceNode.rpcAddPeer_of_mem hy] at hc
  · rw [ServiceNode.rpcAddPeer_of_notMem hy] at hc ⊢
    rw [(ServiceNode.mem_greeting.1 hc).1]
    exact Std.ExtTreeSet.mem_insert_self

/-- A node writes only to its peers, the new one included. -/
theorem Performs.dst_mem_peers {a : Action} {x : HostPortPair} {e : Effect} {base : List Request}
    (h : Performs nodes s a x e base) {c : Call} (hc : c ∈ e.calls) : c.dst ∈ e.node.peers := by
  cases h with
  | addPeer _ y => exact dst_mem_peers_rpcAddPeer hc
  | addToGroup _ g n =>
    rw [ServiceNode.calls_addToGroup, ServiceNode.mem_notify] at hc
    rw [ServiceNode.peers_addToGroup]
    exact hc.1
  | removeFromGroup _ g n =>
    rw [ServiceNode.calls_removeFromGroup, ServiceNode.mem_notify] at hc
    rw [ServiceNode.peers_removeFromGroup]
    exact hc.1
  | handle r pre post hr =>
    cases hm : r.method with
    | addPeer y =>
      rw [hm, ServiceNode.serve] at hc
      exact dst_mem_peers_rpcAddPeer hc
    | addToGroup g n => simp [hm, ServiceNode.serve] at hc
    | removeFromGroup g n => simp [hm, ServiceNode.serve] at hc

/-- The node that joins, and the peer it joins, are distinct nodes of the mesh. -/
theorem Joins.mem_nodes {x y : HostPortPair} (hj : Joins nodes s t x y) (h : Linked nodes s) :
    x ∈ nodes ∧ y ∈ nodes ∧ x ≠ y := by
  rcases hj.named with hmem | ⟨r, hr, rfl, hm⟩
  · exact hmem
  · refine ⟨(h.peers_mem _ _ (h.request_peer r hr)).2, h.request_mem r hr y hm, ?_⟩
    rintro rfl
    exact h.request_not_self r hr hm

/-- A new peer is told of the node that joined it. -/
theorem Joins.knowsOf_back {x y : HostPortPair} (hj : Joins nodes s t x y) (h : Linked nodes s) :
    KnowsOf t y x := by
  obtain ⟨r, hr, -, hdst, hm⟩ := hj.greets ⟨y, .addPeer (s.node x).addr⟩
    (ServiceNode.mem_greeting.2 ⟨rfl, Or.inl rfl⟩)
  exact Or.inr ⟨r, hr, hdst, by rw [hm, h.addr_eq]⟩

/-- A new peer is told of every other peer of the node that joined it. -/
theorem Joins.knowsOf_other {x y z : HostPortPair} (hj : Joins nodes s t x y)
    (hz : z ∈ (s.node x).peers) (hne : z ≠ y) : KnowsOf t y z := by
  obtain ⟨r, hr, -, hdst, hm⟩ := hj.greets ⟨y, .addPeer z⟩
    (ServiceNode.mem_greeting.2 ⟨rfl, Or.inr (Or.inl ⟨z, hz, hne, rfl⟩)⟩)
  exact Or.inr ⟨r, hr, hdst, hm⟩

/-- Every peer after a step is an old one, or the one that was joined. -/
theorem mem_peers_cases {a : Action} (hst : step nodes s a = some t) {x y : HostPortPair}
    (hy : y ∈ (t.node x).peers) : y ∈ (s.node x).peers ∨ Joins nodes s t x y := by
  rcases peers_step hst with hpeers | ⟨x', y', hj⟩
  · exact Or.inl (hpeers x ▸ hy)
  · rcases (hj.mem_peers_iff x y).1 hy with hy | ⟨rfl, rfl⟩
    · exact Or.inl hy
    · exact Or.inr hj

/-- An address named in a request after a step is the writer's own or one of its peers', and not
the destination's, or the request was in flight before. -/
theorem Linked.named_cases (h : Linked nodes s) {a : Action} (hst : step nodes s a = some t)
    {r : Request} (hr : r ∈ t.requests) {y : HostPortPair} (hm : r.method = .addPeer y) :
    r ∈ s.requests ∨ (Joins nodes s t r.src r.dst ∧
      (y = r.src ∨ y ∈ (s.node r.src).peers ∧ y ≠ r.dst)) := by
  rcases mem_requests_of_step hst hr with hr | ⟨e, base, hp, hnode, hc⟩
  · exact Or.inl hr
  · rcases hp.peers_cases with ⟨-, hcalls⟩ | ⟨z, hz, rfl, -⟩
    · exact absurd hm (hcalls _ hc y)
    · obtain ⟨hdst, hmethod⟩ := ServiceNode.mem_greeting.1 hc
      simp only at hdst hmethod
      have hjoin : Joins nodes s t r.src r.dst := by
        have hmem : r.dst ∈ (t.node r.src).peers := by
          rw [hnode, Function.update_self, hdst]
          exact Std.ExtTreeSet.mem_insert_self
        rcases mem_peers_cases hst hmem with hold | hj
        · exact absurd (hdst ▸ hold) hz
        · exact hj
      rw [hm, h.addr_eq] at hmethod
      rcases hmethod with hmethod | ⟨p, hp', hne, hmethod⟩ | ⟨g, n, -, hmethod⟩
      · exact Or.inr ⟨hjoin, Or.inl (by simpa using hmethod)⟩
      · obtain rfl : y = p := by simpa using hmethod
        exact Or.inr ⟨hjoin, Or.inr ⟨hp', by rwa [hdst]⟩⟩
      · simp at hmethod

/-- Every step keeps the invariant of the peer tables. -/
theorem Linked.step (h : Linked nodes s) {a : Action} (hst : step nodes s a = some t) :
    Linked nodes t := by
  constructor
  · intro x
    rcases step_cases hst with ⟨x', e, base, hp, hnode, -⟩ | ⟨-, -, hnode, -⟩
    · rw [hnode, Function.update_apply]
      split_ifs with hx
      · rw [hp.addr_eq, h.addr_eq, hx]
      · exact h.addr_eq x
    · rw [hnode]
      exact h.addr_eq x
  · intro x hx
    rcases mem_peers_cases hst hx with hx | hj
    · exact h.not_self x hx
    · exact (hj.mem_nodes h).2.2 rfl
  · intro r hr hm
    rcases h.named_cases hst hr hm with hr | ⟨hj, hy | ⟨-, hne⟩⟩
    · exact h.request_not_self r hr hm
    · exact (hj.mem_nodes h).2.2 hy.symm
    · exact hne rfl
  · intro r hr
    rcases mem_requests_of_step hst hr with hr | ⟨e, base, hp, hnode, hc⟩
    · exact mem_peers_step hst (h.request_peer r hr)
    · rw [hnode, Function.update_self]
      exact hp.dst_mem_peers hc
  · intro x y hy
    rcases mem_peers_cases hst hy with hy | hj
    · exact h.peers_mem x y hy
    · exact ⟨(hj.mem_nodes h).1, (hj.mem_nodes h).2.1⟩
  · intro r hr y hm
    rcases h.named_cases hst hr hm with hr | ⟨hj, rfl | ⟨hy, -⟩⟩
    · exact h.request_mem r hr y hm
    · exact (hj.mem_nodes h).1
    · exact (h.peers_mem _ _ hy).2
  · intro x y hy
    rcases mem_peers_cases hst hy with hy | hj
    · exact (h.back x y hy).step hst
    · exact hj.knowsOf_back h
  · intro x y hy z hz hne
    rcases mem_peers_cases hst hy with hy' | hj
    · rcases mem_peers_cases hst hz with hz' | hj
      · rcases h.others x y hy' z hz' hne with hk | hk
        · exact Or.inl (hk.step hst)
        · exact Or.inr (hk.step hst)
      · exact Or.inr (hj.knowsOf_other hy' hne)
    · -- One step connects to one peer only, so `z` is an old peer.
      rcases (hj.mem_peers_iff x z).1 hz with hz' | ⟨-, rfl⟩
      · exact Or.inl (hj.knowsOf_other hz' hne.symm)
      · exact absurd rfl hne

theorem linked_of_exec {as : List Action} (hrun : exec (Mesh.step nodes) start as = some s) :
    Linked nodes s :=
  exec_induction (fun _ s => Linked nodes s) linked_start (fun _ _ _ _ _ h => h.step) hrun

/-! ### States with no request in flight -/

/-- `x` and `y` are in one connected component of the peer relation. -/
def Connected (s : Mesh) : HostPortPair → HostPortPair → Prop :=
  Relation.EqvGen fun x y => y ∈ (s.node x).peers

theorem KnowsOf.mem_peers {z y : HostPortPair} (h : KnowsOf s z y) (hreq : s.requests = []) :
    y ∈ (s.node z).peers := by
  rcases h with h | ⟨r, hr, -⟩
  · exact h
  · simp [hreq] at hr

theorem Linked.peers_symm (h : Linked nodes s) (hreq : s.requests = []) {x y : HostPortPair}
    (hy : y ∈ (s.node x).peers) : x ∈ (s.node y).peers :=
  (h.back x y hy).mem_peers hreq

theorem Linked.peers_trans (h : Linked nodes s) (hreq : s.requests = []) {x y z : HostPortPair}
    (hy : y ∈ (s.node x).peers) (hz : z ∈ (s.node x).peers) (hne : y ≠ z) :
    z ∈ (s.node y).peers := by
  rcases h.others x y hy z hz hne with hk | hk
  · exact hk.mem_peers hreq
  · exact h.peers_symm hreq (hk.mem_peers hreq)

/-- Without requests in flight, two nodes of one component are the same or peers. -/
theorem Linked.mem_peers_of_connected (h : Linked nodes s) (hreq : s.requests = [])
    {x y : HostPortPair} (hc : Connected s x y) : x = y ∨ y ∈ (s.node x).peers := by
  induction hc with
  | rel x y hxy => exact Or.inr hxy
  | refl x => exact Or.inl rfl
  | symm x y _ ih =>
    rcases ih with rfl | hy
    · exact Or.inl rfl
    · exact Or.inr (h.peers_symm hreq hy)
  | trans x y z _ _ ihxy ihyz =>
    rcases ihxy with rfl | hxy
    · exact ihyz
    · rcases ihyz with rfl | hyz
      · exact Or.inr hxy
      · by_cases hxz : x = z
        · exact Or.inl hxz
        · exact Or.inr (h.peers_trans hreq (h.peers_symm hreq hxy) hyz hxz)

/-! ### Futures -/

/-- The invariant of the futures: every answer is `true`, and a call without an answer has its
request or its response in flight, or waits for a later call without an answer. -/
structure Answered (s : Mesh) : Prop where
  request_lt : ∀ r ∈ s.requests, r.id < s.futures.length
  response_true : ∀ p ∈ s.responses, p.value = true
  future_true : ∀ (i : ℕ) (v : Bool), s.futures[i]? = some (some v) → v = true
  pending : ∀ i : ℕ, s.futures[i]? = some none →
    (∃ r ∈ s.requests, r.id = i) ∨ (∃ p ∈ s.responses, p.id = i) ∨
      ∃ c, (c, i) ∈ s.waiting ∧ i < c ∧ s.futures[c]? = some none

theorem answered_start : Answered start := by
  constructor <;> simp [start]

theorem getElem?_commit_futures (s : Mesh) (x : HostPortPair) (e : Effect) (i : ℕ) :
    (s.commit x e).futures[i]? = if i < s.futures.length then s.futures[i]?
      else if i < s.futures.length + e.calls.length then some none else none := by
  simp only [commit, List.getElem?_append, List.getElem?_replicate]
  split_ifs <;> first | rfl | omega

/-- The future of a call just written has its request in flight. -/
theorem exists_request_commit (s : Mesh) (x : HostPortPair) (e : Effect) {i : ℕ}
    (hlo : s.futures.length ≤ i) (hhi : i < s.futures.length + e.calls.length) :
    ∃ r ∈ (s.commit x e).requests, r.id = i := by
  refine ⟨_, List.mem_append_right _ (List.mem_mapIdx.2 ⟨i - s.futures.length, by omega, rfl⟩), ?_⟩
  simp only
  omega

/-- Running a method keeps the invariant of the futures. -/
theorem Answered.commit (h : Answered s) (x : HostPortPair) (e : Effect) :
    Answered (s.commit x e) := by
  refine ⟨fun r hr => ?_, h.response_true, fun i v hi => ?_, fun i hi => ?_⟩
  · have hlen : (s.commit x e).futures.length = s.futures.length + e.calls.length := by
      simp [Mesh.commit]
    rcases List.mem_append.1 hr with hr | hr
    · have := h.request_lt r hr
      omega
    · obtain ⟨k, hk, rfl⟩ := List.mem_mapIdx.1 hr
      simp only
      omega
  · rw [getElem?_commit_futures] at hi
    split_ifs at hi
    · exact h.future_true i v hi
    · simp at hi
  · rw [getElem?_commit_futures] at hi
    split_ifs at hi with hlt hlt'
    · rcases h.pending i hi with ⟨r, hr, hid⟩ | hp | ⟨c, hc, hic, hnone⟩
      · exact Or.inl ⟨r, List.mem_append_left _ hr, hid⟩
      · exact Or.inr (Or.inl hp)
      · refine Or.inr (Or.inr ⟨c, hc, hic, ?_⟩)
        rw [getElem?_commit_futures, if_pos (List.getElem?_eq_some_iff.1 hnone).1, hnone]
    · exact Or.inl (exists_request_commit s x e (by omega) hlt')

/-- The registered functions answer `true`, at once or later. -/
theorem serve_ready {n : ServiceNode} {m : Method} {v : Bool} (h : (n.serve m).2 = .ready v) :
    v = true := by
  cases m with
  | addPeer y =>
    simp only [ServiceNode.serve, ServiceNode.rpcAddPeer] at h
    split_ifs at h
    simp_all
  | addToGroup g n => simpa [ServiceNode.serve, eq_comm] using h
  | removeFromGroup g n => simpa [ServiceNode.serve, eq_comm] using h

/-- A function that answers later has written the call it waits for. -/
theorem serve_callback {n : ServiceNode} {m : Method} (h : (n.serve m).2 = .callback) :
    0 < (n.serve m).1.calls.length := by
  cases m with
  | addPeer y =>
    by_cases hy : y ∈ n.peers
    · simp [ServiceNode.serve, ServiceNode.rpcAddPeer_of_mem hy] at h
    · simp [ServiceNode.serve, ServiceNode.rpcAddPeer_of_notMem hy, ServiceNode.greeting]
  | addToGroup g n => simp [ServiceNode.serve] at h
  | removeFromGroup g n => simp [ServiceNode.serve] at h

/-- Handling a request keeps the invariant: its call is answered or waits for the call just
written, which is later. -/
theorem Answered.handle (h : Answered s) {r : Request} {pre post : List Request}
    (hr : s.requests = pre ++ r :: post) :
    Answered ({ s with requests := pre ++ post }.handle r) := by
  have hcommit := h.commit r.dst ((s.node r.dst).serve r.method).1
  have hrid : r.id < s.futures.length := h.request_lt r (by rw [hr]; simp)
  have hlt : ∀ r' ∈ (pre ++ post) ++ s.issue r.dst ((s.node r.dst).serve r.method).1.calls,
      r'.id < (s.commit r.dst ((s.node r.dst).serve r.method).1).futures.length := by
    intro r' hr'
    refine hcommit.request_lt r' ?_
    rw [Mesh.commit, hr]
    simp only [List.mem_append, List.mem_cons] at hr' ⊢
    tauto
  -- A pending call other than the one handled is pending for the same reason as before.
  have hother : ∀ i, i ≠ r.id → (∃ r' ∈ s.requests ++
        s.issue r.dst ((s.node r.dst).serve r.method).1.calls, r'.id = i) →
      ∃ r' ∈ (pre ++ post) ++ s.issue r.dst ((s.node r.dst).serve r.method).1.calls,
        r'.id = i := by
    rintro i hne ⟨r', hr', hid⟩
    rw [hr] at hr'
    simp only [List.mem_append, List.mem_cons] at hr' ⊢
    rcases hr' with (hr' | rfl | hr') | hr'
    · exact ⟨r', Or.inl (Or.inl hr'), hid⟩
    · exact absurd hid.symm hne
    · exact ⟨r', Or.inl (Or.inr hr'), hid⟩
    · exact ⟨r', Or.inr hr', hid⟩
  simp only [Mesh.handle]
  split
  · rename_i v hv
    refine ⟨hlt, fun p hp => ?_, hcommit.future_true, fun i hi => ?_⟩
    · rcases List.mem_append.1 hp with hp | hp
      · exact h.response_true p hp
      · rw [List.mem_singleton.1 hp]
        exact serve_ready hv
    · by_cases hid : i = r.id
      · exact Or.inr (Or.inl ⟨⟨r.id, v⟩, by simp, hid.symm⟩)
      · rcases hcommit.pending i hi with hreq | ⟨p, hp, hpid⟩ | hwait
        · exact Or.inl (hother i hid hreq)
        · exact Or.inr (Or.inl ⟨p, List.mem_append_left _ hp, hpid⟩)
        · exact Or.inr (Or.inr hwait)
  · rename_i hv
    refine ⟨hlt, h.response_true, hcommit.future_true, fun i hi => ?_⟩
    by_cases hid : i = r.id
    · refine Or.inr (Or.inr ⟨s.futures.length, by simp [hid], hid ▸ hrid, ?_⟩)
      refine (getElem?_commit_futures s r.dst _ s.futures.length).trans ?_
      rw [if_neg (lt_irrefl _), if_pos (Nat.lt_add_of_pos_right (serve_callback hv))]
    · rcases hcommit.pending i hi with hreq | hp | ⟨c, hc, hwait⟩
      · exact Or.inl (hother i hid hreq)
      · exact Or.inr (Or.inl hp)
      · exact Or.inr (Or.inr ⟨c, List.mem_append_left _ hc, hwait⟩)

/-- The arrival of a response keeps the invariant: the requests that wait for it are answered. -/
theorem Answered.receive (h : Answered s) {p : Response} {pre post : List Response}
    (hp : s.responses = pre ++ p :: post) :
    Answered ({ s with responses := pre ++ post }.receive p) := by
  have hpv : p.value = true := h.response_true p (by rw [hp]; simp)
  have hset : ∀ i : ℕ, (s.futures.set p.id (some p.value))[i]? = some none →
      i ≠ p.id ∧ s.futures[i]? = some none := by
    intro i hi
    rw [List.getElem?_set] at hi
    split_ifs at hi with heq
    · simp at hi
    · exact ⟨fun h' => heq h'.symm, hi⟩
  refine ⟨fun r hr => by simpa [Mesh.receive] using h.request_lt r hr, fun q hq => ?_,
    fun i v hi => ?_, fun i hi => ?_⟩
  · simp only [Mesh.receive, List.mem_append, List.mem_map] at hq
    rcases hq with (hq | hq) | ⟨w, -, rfl⟩
    · exact h.response_true q (by rw [hp]; simp [hq])
    · exact h.response_true q (by rw [hp]; simp [hq])
    · exact hpv
  · rw [Mesh.receive, List.getElem?_set] at hi
    split_ifs at hi
    · rw [← Option.some.inj (Option.some.inj hi)]
      exact hpv
    · exact h.future_true i v hi
  · obtain ⟨hne, hnone⟩ := hset i hi
    rcases h.pending i hnone with hreq | ⟨q, hq, hqid⟩ | ⟨c, hc, hic, hcnone⟩
    · exact Or.inl hreq
    · refine Or.inr (Or.inl ⟨q, ?_, hqid⟩)
      rw [hp, List.mem_append, List.mem_cons] at hq
      simp only [Mesh.receive, List.mem_append]
      rcases hq with hq | rfl | hq
      · exact Or.inl (Or.inl hq)
      · exact absurd hqid.symm hne
      · exact Or.inl (Or.inr hq)
    · by_cases hcp : c = p.id
      · refine Or.inr (Or.inl ⟨⟨i, p.value⟩, List.mem_append_right _ (List.mem_map.2 ?_), rfl⟩)
        exact ⟨(c, i), List.mem_filter.2 ⟨hc, by simpa using hcp⟩, rfl⟩
      · refine Or.inr (Or.inr ⟨c, hc, hic, ?_⟩)
        rw [Mesh.receive, List.getElem?_set_ne (Ne.symm hcp), hcnone]

theorem Answered.step (h : Answered s) {a : Action} (hst : step nodes s a = some t) :
    Answered t := by
  cases a with
  | addPeer x y =>
    simp only [Mesh.step, Option.ite_none_right_eq_some, Option.some.injEq] at hst
    exact hst.2 ▸ h.commit x _
  | addToGroup x g n =>
    simp only [Mesh.step, Option.ite_none_right_eq_some, Option.some.injEq] at hst
    exact hst.2 ▸ h.commit x _
  | removeFromGroup x g n =>
    simp only [Mesh.step, Option.ite_none_right_eq_some, Option.some.injEq] at hst
    exact hst.2 ▸ h.commit x _
  | handle i =>
    simp only [Mesh.step, Option.map_eq_some_iff] at hst
    obtain ⟨r, hr, rfl⟩ := hst
    obtain ⟨pre, post, hsplit, -, herase⟩ := split_of_getElem? hr
    rw [herase]
    exact h.handle hsplit
  | respond i =>
    simp only [Mesh.step, Option.map_eq_some_iff] at hst
    obtain ⟨p, hp, rfl⟩ := hst
    obtain ⟨pre, post, hsplit, -, herase⟩ := split_of_getElem? hp
    rw [herase]
    exact h.receive hsplit

theorem answered_of_exec {as : List Action} (hrun : exec (Mesh.step nodes) start as = some s) :
    Answered s :=
  exec_induction (fun _ s => Answered s) answered_start (fun _ _ _ _ _ h => h.step) hrun

/-- With nothing in flight every future is set: a pending call would wait for a later one, and
there is no last call to wait for. -/
theorem Answered.all_true (h : Answered s) (hreq : s.requests = []) (hresp : s.responses = []) :
    ∀ f ∈ s.futures, f = some true := by
  have hset : ∀ k i : ℕ, s.futures.length - i ≤ k → s.futures[i]? ≠ some none := by
    intro k
    induction k with
    | zero =>
      intro i hi hnone
      have := (List.getElem?_eq_some_iff.1 hnone).1
      omega
    | succ k ih =>
      intro i hi hnone
      rcases h.pending i hnone with ⟨r, hr, -⟩ | ⟨p, hp, -⟩ | ⟨c, -, hic, hc⟩
      · simp [hreq] at hr
      · simp [hresp] at hp
      · have := (List.getElem?_eq_some_iff.1 hnone).1
        exact ih c (by omega) hc
  intro f hf
  obtain ⟨i, hi⟩ := List.mem_iff_getElem?.1 hf
  cases f with
  | none => exact absurd hi (hset _ i le_rfl)
  | some v => rw [h.future_true i v hi]

/-- **Full-mesh discovery.** Take any finite set of nodes, each known under its own address, and
any run of user calls (a user never names the node itself) and of requests and responses handled
in any order. No node ever has itself as a peer or is told to connect to itself. When no request
and no response is in flight, the peer relation is symmetric, any two peers of a node are peers of
each other, two nodes of one connected component are peers, and every future is set to `true`.

Source: `src/rpc/service_node.cc`, lines 198–247; `src/rpc/service_node.h`, lines 71–78. -/
theorem full_mesh_discovery (nodes : Std.ExtTreeSet HostPortPair) (as : List Action) (s : Mesh)
    (hrun : exec (step nodes) start as = some s) :
    (∀ x, x ∉ (s.node x).peers) ∧
    (∀ r ∈ s.requests, r.method ≠ .addPeer r.dst) ∧
    (s.requests = [] → s.responses = [] →
      (∀ x y, y ∈ (s.node x).peers → x ∈ (s.node y).peers) ∧
      (∀ x y z, y ∈ (s.node x).peers → z ∈ (s.node x).peers → y ≠ z →
        z ∈ (s.node y).peers) ∧
      (∀ x y, Connected s x y → x ≠ y → y ∈ (s.node x).peers) ∧
      ∀ f ∈ s.futures, f = some true) := by
  have h := linked_of_exec hrun
  refine ⟨h.not_self, h.request_not_self, fun hreq hresp => ⟨fun x y => h.peers_symm hreq,
    fun x y z => h.peers_trans hreq, fun x y hc hne => ?_,
    (answered_of_exec hrun).all_true hreq hresp⟩⟩
  exact (h.mem_peers_of_connected hreq hc).resolve_left hne

/-- A mesh of two nodes. -/
def pair : Std.ExtTreeSet HostPortPair := {⟨[97], 1⟩, ⟨[98], 1⟩}

/-- A user call on one of two nodes: after the call back and the two answers nothing is in
flight. -/
theorem full_mesh_discovery_pair :
    ∃ s, exec (step pair) start
        [.addPeer ⟨[97], 1⟩ ⟨[98], 1⟩, .handle 0, .handle 0, .respond 0, .respond 0] = some s ∧
      s.futures.length = 2 ∧ (∀ f ∈ s.futures, f = some true) ∧
      ∀ x y, y ∈ (s.node x).peers → x ∈ (s.node y).peers := by
  refine ⟨_, rfl, by decide, ?_⟩
  obtain ⟨-, -, h⟩ := full_mesh_discovery pair
    [.addPeer ⟨[97], 1⟩ ⟨[98], 1⟩, .handle 0, .handle 0, .respond 0, .respond 0] _ rfl
  obtain ⟨hsymm, -, -, hfut⟩ := h (by decide) (by decide)
  exact ⟨hfut, hsymm⟩

end RawDish.Rpc.Mesh
