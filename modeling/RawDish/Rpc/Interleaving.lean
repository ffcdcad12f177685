import RawDish.Lib.Overlay
import RawDish.Rpc.Traffic

/-!
# Discovery with calls that overlap

`RPCAddPeer` looks for the peer and connects before it takes the mutex, so the calls of one node
overlap: two of them may connect to the same address, and the second enters the peer and greets it
once more. The mesh is discovered all the same. A node knows of an address when it is a peer, is
named in a request on its way or is being connected to; a call that has connected keeps what its
request said, and the greeting is written under the mutex, together with the entry of the peer.

When no request is in flight and no call is between its two parts, the peers are exactly the pairs
of nodes that the `addPeer` calls of the users connect, in any number of steps, and such a state is
reached from every state when the users make no more calls.

## Main definitions

* `TrafficAction.Connects` : a connection that is tried succeeds, and no user names the own address.
* `Traffic.Acts` : what a step does to the nodes, the requests and the calls that have connected.
* `Traffic.Acquainted` : the invariant.

## Main results

* `Traffic.acts_of_step` : every step is of this kind.
* `Traffic.acquainted_of_exec` : the invariant holds in every reachable state.
* `Traffic.discovery_interleaved`.

## References

* `src/rpc/service_node.cc`, lines 198–247; `src/rpc/service_node.h`, lines 71–78.
-/

namespace RawDish.Rpc

open Lib
open Relation (EqvGen)

namespace TrafficAction

/-- A connection that is tried is established, and no user names the address of the node itself. -/
def Connects : TrafficAction → Prop
  | .addPeer x y connected => x ≠ y ∧ connected = true
  | .handle _ connected => connected = true
  | _ => True

instance : DecidablePred Connects
  | .addPeer _ _ _ => inferInstanceAs (Decidable (_ ∧ _))
  | .handle _ connected => inferInstanceAs (Decidable (connected = true))
  | .addToGroup _ _ _ | .removeFromGroup _ _ _ | .addGroupCallback _ _ _
  | .removeGroupCallback _ _ | .link _ | .respond _ => inferInstanceAs (Decidable True)

/-- The method that a user calls, and the node. -/
def method : TrafficAction → Option (HostPortPair × (ServiceNode → Effect))
  | .addToGroup x g n => some (x, fun s => s.addToGroup g n)
  | .removeFromGroup x g n => some (x, fun s => s.removeFromGroup g n)
  | .addGroupCallback x g cb => some (x, fun s => s.addGroupCallback g cb)
  | .removeGroupCallback x g => some (x, fun s => s.removeGroupCallback g)
  | _ => none

variable {a : TrafficAction} {x : HostPortPair} {f : ServiceNode → Effect}

/-- These methods keep the address and the peers, and tell the peers of groups only. -/
theorem method_keeps (h : a.method = some (x, f)) (s : ServiceNode) :
    (f s).node.addr = s.addr ∧ (f s).node.peers = s.peers ∧
      ∀ c ∈ (f s).calls, c.dst ∈ s.peers ∧ ∀ y, c.method ≠ .addPeer y := by
  cases a with
  | addToGroup x g n =>
    obtain ⟨rfl, rfl⟩ := Prod.mk.inj (Option.some.inj h)
    refine ⟨ServiceNode.addr_addToGroup s g n, ServiceNode.peers_addToGroup s g n, fun c hc => ?_⟩
    rw [ServiceNode.calls_addToGroup, ServiceNode.mem_notify] at hc
    exact ⟨hc.1, by simp [hc.2]⟩
  | removeFromGroup x g n =>
    obtain ⟨rfl, rfl⟩ := Prod.mk.inj (Option.some.inj h)
    refine ⟨ServiceNode.addr_removeFromGroup s g n, ServiceNode.peers_removeFromGroup s g n,
      fun c hc => ?_⟩
    rw [ServiceNode.calls_removeFromGroup, ServiceNode.mem_notify] at hc
    exact ⟨hc.1, by simp [hc.2]⟩
  | addGroupCallback x g cb =>
    obtain ⟨rfl, rfl⟩ := Prod.mk.inj (Option.some.inj h)
    exact ⟨rfl, rfl, fun c hc => absurd hc List.not_mem_nil⟩
  | removeGroupCallback x g =>
    obtain ⟨rfl, rfl⟩ := Prod.mk.inj (Option.some.inj h)
    exact ⟨rfl, rfl, fun c hc => absurd hc List.not_mem_nil⟩
  | addPeer => cases h
  | handle => cases h
  | link => cases h
  | respond => cases h

end TrafficAction

namespace Traffic

variable {nodes : Std.ExtTreeSet HostPortPair} {s t : Traffic} {a : TrafficAction}

/-! ### What a step does -/

/-- The beginning of `RPCAddPeer` of `y` at `x`: no other call connects. -/
structure Dials (s t : Traffic) (x y : HostPortPair) (connected : Bool) : Prop where
  node : t.node = s.node
  keeps : ∀ c ∈ s.connecting, c ∈ t.connecting
  only : ∀ c ∈ t.connecting, c ∈ s.connecting ∨ (c.x = x ∧ c.y = y)
  dials : connected = true → y ∈ (s.node x).peers ∨ ∃ c ∈ t.connecting, c.x = x ∧ c.y = y

/-- What a step does: the beginning of `RPCAddPeer` for a user or a request, a group request, a
method that a user calls, the rest of `RPCAddPeer`, or nothing that matters here. -/
inductive Acts (nodes : Std.ExtTreeSet HostPortPair) (s t : Traffic) : TrafficAction → Prop
  | dial (x y : HostPortPair) (connected : Bool) (hx : x ∈ nodes) (hdials : Dials s t x y connected)
      (hrequests : t.requests = s.requests) : Acts nodes s t (.addPeer x y connected)
  | told (connected : Bool) (r : Request) (pre post : List Request) (y : HostPortPair)
      (hr : s.requests = pre ++ r :: post) (hm : r.method = .addPeer y)
      (hdials : Dials s t r.dst y connected) (hrequests : t.requests = pre ++ post) :
      Acts nodes s t (.handle pre.length connected)
  | serve (connected : Bool) (r : Request) (pre post : List Request)
      (hr : s.requests = pre ++ r :: post) (hm : ∀ y, r.method ≠ .addPeer y)
      (hnode : t.node = Function.update s.node r.dst ((s.node r.dst).serve r.method).1.node)
      (hrequests : t.requests = pre ++ post) (hconnecting : t.connecting = s.connecting) :
      Acts nodes s t (.handle pre.length connected)
  | user {b : TrafficAction} (x : HostPortPair) (f : ServiceNode → Effect)
      (hb : b.method = some (x, f)) (hx : x ∈ nodes)
      (hnode : t.node = Function.update s.node x (f (s.node x)).node)
      (hrequests : t.requests = s.requests ++ s.issue x (f (s.node x)).calls)
      (hconnecting : t.connecting = s.connecting) : Acts nodes s t b
  | link (c : Connecting) (pre post : List Connecting) (hc : s.connecting = pre ++ c :: post)
      (hnode : t.node = Function.update s.node c.x ((s.node c.x).linkPeer c.y).node)
      (hrequests : t.requests = s.requests ++ s.issue c.x ((s.node c.x).greeting c.y))
      (hconnecting : t.connecting = pre ++ post) : Acts nodes s t (.link pre.length)
  | respond (i : ℕ) (hnode : t.node = s.node) (hrequests : t.requests = s.requests)
      (hconnecting : t.connecting = s.connecting) : Acts nodes s t (.respond i)

theorem dials_lookup (s : Traffic) (x y : HostPortPair) (connected : Bool) (request : Option ℕ) :
    Dials s (s.lookup x y connected request) x y connected ∧
      (s.lookup x y connected request).requests = s.requests := by
  cases h : (s.node x).lookupPeer y connected with
  | some v =>
    simp only [lookup, h, and_true]
    refine ⟨rfl, fun c hc => hc, fun c hc => Or.inl hc, fun hconnected => Or.inl ?_⟩
    by_contra hnot
    simp [ServiceNode.lookupPeer, hnot, hconnected] at h
  | none =>
    simp only [lookup, h, and_true]
    refine ⟨rfl, fun c hc => List.mem_append_left _ hc, fun c hc => ?_, fun _ => Or.inr ?_⟩
    · rcases List.mem_append.1 hc with hc | hc
      · exact Or.inl hc
      · rw [List.mem_singleton.1 hc]
        exact Or.inr ⟨rfl, rfl⟩
    · exact ⟨⟨x, y, request⟩, List.mem_append_right _ List.mem_cons_self, rfl, rfl⟩

theorem acts_of_run {x : HostPortPair} {f : ServiceNode → Effect} (ha : a.method = some (x, f))
    (h : (if x ∈ nodes then some (s.run x (f (s.node x))) else none) = some t) :
    Acts nodes s t a := by
  simp only [Option.ite_none_right_eq_some, Option.some.injEq] at h
  obtain ⟨hx, rfl⟩ := h
  exact .user x f ha hx rfl rfl rfl

/-- A group request is answered at once. -/
theorem acts_of_handle {connected : Bool} {r : Request} {pre post : List Request}
    (hr : s.requests = pre ++ r :: post) (hm : ∀ y, r.method ≠ .addPeer y) :
    Acts nodes s ⟨({ s.toMesh with requests := pre ++ post } : Mesh).handle r, s.connecting⟩
      (.handle pre.length connected) := by
  refine .serve connected r pre post hr hm (Mesh.node_handle _ r) ?_ rfl
  rw [Mesh.requests_handle, ((s.node r.dst).serve_of_ne_addPeer hm).2, Mesh.issue,
    List.mapIdx_nil, List.append_nil]

/-- Every step is of one of these kinds. -/
theorem acts_of_step (h : step nodes s a = some t) : Acts nodes s t a := by
  cases a with
  | addPeer x y connected =>
    simp only [step, Option.ite_none_right_eq_some, Option.some.injEq] at h
    obtain ⟨⟨hx, -⟩, rfl⟩ := h
    obtain ⟨hdials, hrequests⟩ := dials_lookup s x y connected none
    exact .dial x y connected hx hdials hrequests
  | addToGroup x g n => exact acts_of_run rfl h
  | removeFromGroup x g n => exact acts_of_run rfl h
  | addGroupCallback x g cb => exact acts_of_run rfl h
  | removeGroupCallback x g => exact acts_of_run rfl h
  | handle i connected =>
    simp only [step, Option.bind_eq_some_iff] at h
    obtain ⟨r, hr, hhandle⟩ := h
    obtain ⟨pre, post, hsplit, rfl, herase⟩ := split_of_getElem? hr
    rw [herase] at hhandle
    cases hm : r.method with
    | addPeer y =>
      simp only [handle, hm, Option.ite_none_right_eq_some, Option.some.injEq] at hhandle
      obtain ⟨-, rfl⟩ := hhandle
      obtain ⟨⟨hnode, hkeeps, honly, hdials⟩, hrequests⟩ :=
        dials_lookup { s with requests := pre ++ post } r.dst y connected (some r.id)
      exact .told connected r pre post y hsplit hm ⟨hnode, hkeeps, honly, hdials⟩ hrequests
    | addToGroup g n =>
      simp only [handle, hm, Option.some.injEq] at hhandle
      exact hhandle ▸ acts_of_handle hsplit (by simp [hm])
    | removeFromGroup g n =>
      simp only [handle, hm, Option.some.injEq] at hhandle
      exact hhandle ▸ acts_of_handle hsplit (by simp [hm])
  | link i =>
    simp only [step, Option.map_eq_some_iff] at h
    obtain ⟨c, hc, rfl⟩ := h
    obtain ⟨pre, post, hsplit, rfl, herase⟩ := split_of_getElem? hc
    rw [herase]
    exact .link c pre post hsplit rfl rfl rfl
  | respond i =>
    simp only [step, Option.map_eq_some_iff] at h
    obtain ⟨p, -, rfl⟩ := h
    exact .respond i rfl rfl rfl

/-! ### Who knows of whom -/

/-- `y` is a peer of `z`, is named in a request on its way to `z`, or `z` has connected to it. -/
def KnowsOf (s : Traffic) (z y : HostPortPair) : Prop :=
  s.toMesh.KnowsOf z y ∨ ∃ c ∈ s.connecting, c.x = z ∧ c.y = y

/-- The links that the users asked for. -/
def Asked (as : List TrafficAction) (x y : HostPortPair) : Prop := .addPeer x y true ∈ as

/-- The invariant: addresses are canonical, nobody knows of itself or of anyone else than the nodes,
and the nodes are introduced to each other. -/
structure Acquainted (nodes : Std.ExtTreeSet HostPortPair) (as : List TrafficAction) (s : Traffic) :
    Prop where
  addr_eq : ∀ x, (s.node x).addr = x
  ne : ∀ x y, s.KnowsOf x y → x ≠ y
  mem : ∀ x y, s.KnowsOf x y → x ∈ nodes ∧ y ∈ nodes
  introduced : Introduced (Asked as) (fun x y => y ∈ (s.node x).peers) s.KnowsOf

theorem acquainted_start : Acquainted nodes [] start := by
  have hpeers : ∀ x y, y ∉ (start.node x).peers := by simp [start, Mesh.start, ServiceNode.create]
  have hknows : ∀ x y, ¬ start.KnowsOf x y := by
    simp [KnowsOf, Mesh.KnowsOf, start, Mesh.start, ServiceNode.create]
  exact ⟨fun x => rfl, fun x y h => absurd h (hknows x y), fun x y h => absurd h (hknows x y),
    .init (fun x y => List.not_mem_nil) hpeers hknows⟩

/-- Every node keeps its address. -/
theorem addr_step (h : step nodes s a = some t) (x : HostPortPair) :
    (t.node x).addr = (s.node x).addr := by
  have hupdate : ∀ {y : HostPortPair} {n : ServiceNode}, t.node = Function.update s.node y n →
      n.addr = (s.node y).addr → (t.node x).addr = (s.node x).addr := by
    intro y n hnode haddr
    rw [hnode, Function.update_apply]
    split_ifs with hx
    · rw [haddr, hx]
    · rfl
  cases acts_of_step h with
  | dial x y connected hx hdials hrequests => rw [hdials.node]
  | told connected r pre post y hr hm hdials hrequests => rw [hdials.node]
  | serve connected r pre post hr hm hnode hrequests hconnecting =>
    refine hupdate hnode ?_
    cases r.method <;> simp [ServiceNode.serve]
  | user y f hb hx hnode hrequests hconnecting =>
    exact hupdate hnode (TrafficAction.method_keeps hb _).1
  | link c pre post hc hnode hrequests hconnecting => exact hupdate hnode rfl
  | respond i hnode hrequests hconnecting => rw [hnode]

/-- The peers of the nodes stay, or the rest of an `RPCAddPeer` enters one. -/
theorem peers_step (h : step nodes s a = some t) :
    SameLinks s t ∨ ∃ c pre post, s.connecting = pre ++ c :: post ∧
      t.connecting = pre ++ post ∧
      t.node = Function.update s.node c.x ((s.node c.x).linkPeer c.y).node ∧
      t.requests = s.requests ++ s.issue c.x ((s.node c.x).greeting c.y) := by
  cases acts_of_step h with
  | dial x y connected hx hdials hrequests => exact Or.inl fun z => by rw [hdials.node]
  | told connected r pre post y hr hm hdials hrequests => exact Or.inl fun z => by rw [hdials.node]
  | serve connected r pre post hr hm hnode hrequests hconnecting =>
    exact Or.inl (sameLinks_of_update hnode ((s.node r.dst).serve_of_ne_addPeer hm).1)
  | user y f hb hx hnode hrequests hconnecting =>
    exact Or.inl (sameLinks_of_update hnode (TrafficAction.method_keeps hb _).2.1)
  | link c pre post hc hnode hrequests hconnecting =>
    exact Or.inr ⟨c, pre, post, hc, hconnecting, hnode, hrequests⟩
  | respond i hnode hrequests hconnecting => exact Or.inl fun z => by rw [hnode]

theorem mem_peers_step (h : step nodes s a = some t) {x y : HostPortPair}
    (hy : y ∈ (s.node x).peers) : y ∈ (t.node x).peers := by
  rcases peers_step h with hlinks | ⟨c, pre, post, -, -, hnode, -⟩
  · rwa [hlinks x]
  · exact (mem_peers_link hnode).2 (Or.inl hy)

/-- A request stays in flight, or it is the one that was handled. -/
theorem mem_requests_step (h : step nodes s a = some t) {r : Request} (hr : r ∈ s.requests) :
    r ∈ t.requests ∨ ∃ connected pre post, a = .handle pre.length connected ∧
      s.requests = pre ++ r :: post ∧ ∀ y, r.method = .addPeer y → Dials s t r.dst y connected := by
  have hsplit : ∀ {r' : Request} {pre post : List Request}, s.requests = pre ++ r' :: post →
      t.requests = pre ++ post → r ∈ t.requests ∨ r = r' := by
    intro r' pre post hr' hrequests
    rw [hr', List.mem_append, List.mem_cons] at hr
    rw [hrequests, List.mem_append]
    tauto
  cases acts_of_step h with
  | dial x y connected hx hdials hrequests => exact Or.inl (hrequests ▸ hr)
  | told connected r' pre post y hr' hm hdials hrequests =>
    rcases hsplit hr' hrequests with hr | rfl
    · exact Or.inl hr
    · refine Or.inr ⟨connected, pre, post, rfl, hr', fun y' hy' => ?_⟩
      rw [hm, Method.addPeer.injEq] at hy'
      exact hy' ▸ hdials
  | serve connected r' pre post hr' hm hnode hrequests hconnecting =>
    rcases hsplit hr' hrequests with hr | rfl
    · exact Or.inl hr
    · exact Or.inr ⟨connected, pre, post, rfl, hr', fun y hy => absurd hy (hm y)⟩
  | user y f hb hx hnode hrequests hconnecting =>
    exact Or.inl (hrequests ▸ List.mem_append_left _ hr)
  | link c pre post hc hnode hrequests hconnecting =>
    exact Or.inl (hrequests ▸ List.mem_append_left _ hr)
  | respond i hnode hrequests hconnecting => exact Or.inl (hrequests ▸ hr)

/-- A call that has connected stays so, or its peer is entered. -/
theorem mem_connecting_step (h : step nodes s a = some t) {c : Connecting}
    (hc : c ∈ s.connecting) : c ∈ t.connecting ∨ c.y ∈ (t.node c.x).peers := by
  cases acts_of_step h with
  | dial x y connected hx hdials hrequests => exact Or.inl (hdials.keeps c hc)
  | told connected r' pre post y hr' hm hdials hrequests => exact Or.inl (hdials.keeps c hc)
  | serve connected r' pre post hr' hm hnode hrequests hconnecting =>
    exact Or.inl (hconnecting ▸ hc)
  | user y f hb hx hnode hrequests hconnecting => exact Or.inl (hconnecting ▸ hc)
  | link c' pre post hc' hnode hrequests hconnecting =>
    rw [hc', List.mem_append, List.mem_cons] at hc
    rw [hconnecting, List.mem_append]
    rcases hc with hc | rfl | hc
    · exact Or.inl (Or.inl hc)
    · exact Or.inr ((mem_peers_link hnode).2 (Or.inr ⟨rfl, rfl⟩))
    · exact Or.inl (Or.inr hc)
  | respond i hnode hrequests hconnecting => exact Or.inl (hconnecting ▸ hc)

/-- No step takes knowledge of an address away, as long as connections succeed. -/
theorem KnowsOf.step {x y : HostPortPair} (hk : KnowsOf s x y) (h : step nodes s a = some t)
    (ha : a.Connects) : KnowsOf t x y := by
  rcases hk with (hy | ⟨r, hr, rfl, hm⟩) | ⟨c, hc, rfl, rfl⟩
  · exact Or.inl (Or.inl (mem_peers_step h hy))
  · rcases mem_requests_step h hr with hr | ⟨connected, pre, post, rfl, -, hdials⟩
    · exact Or.inl (Or.inr ⟨r, hr, rfl, hm⟩)
    · rcases (hdials y hm).dials ha with hy | hc
      · exact Or.inl (Or.inl (mem_peers_step h hy))
      · exact Or.inr hc
  · rcases mem_connecting_step h hc with hc | hy
    · exact Or.inr ⟨c, hc, rfl, rfl⟩
    · exact Or.inl (Or.inl hy)

/-- What a user asks for is known. -/
theorem knowsOf_of_addPeer {x y : HostPortPair} (h : step nodes s (.addPeer x y true) = some t) :
    KnowsOf t x y := by
  cases acts_of_step h with
  | dial _ _ _ hx hdials hrequests =>
    rcases hdials.dials rfl with hy | hc
    · exact Or.inl (Or.inl (mem_peers_step h hy))
    · exact Or.inr hc
  | user _ _ hb => cases hb

/-- Where knowledge comes from: from a user, or from the greeting of a node that has connected. -/
theorem KnowsOf.origin {x y : HostPortPair} (hk : KnowsOf t x y)
    (h : Traffic.step nodes s a = some t) :
    KnowsOf s x y ∨ (∃ connected, a = .addPeer x y connected) ∨
      ∃ c ∈ s.connecting, x = c.y ∧
        (y = (s.node c.x).addr ∨ (y ∈ (s.node c.x).peers ∧ y ≠ c.y)) := by
  have hsame : t.node = s.node → (∀ r ∈ t.requests, r ∈ s.requests) →
      (∃ c ∈ t.connecting, c.x = x ∧ c.y = y ∧ c ∉ s.connecting) ∨ KnowsOf s x y := by
    intro hnode hrequests
    rcases hk with (hy | ⟨r, hr, hdst, hm⟩) | ⟨c, hc, hx, hy⟩
    · exact Or.inr (Or.inl (Or.inl (hnode ▸ hy)))
    · exact Or.inr (Or.inl (Or.inr ⟨r, hrequests r hr, hdst, hm⟩))
    · by_cases hold : c ∈ s.connecting
      · exact Or.inr (Or.inr ⟨c, hold, hx, hy⟩)
      · exact Or.inl ⟨c, hc, hx, hy, hold⟩
  have hlinks : SameLinks s t → (∀ r ∈ t.requests, r ∈ s.requests ∨ ∀ z, r.method ≠ .addPeer z) →
      t.connecting = s.connecting → KnowsOf s x y := by
    intro hlinks hrequests hconnecting
    rcases hk with (hy | ⟨r, hr, hdst, hm⟩) | ⟨c, hc, hx, hy⟩
    · exact Or.inl (Or.inl (hlinks x ▸ hy))
    · rcases hrequests r hr with hr | hnot
      · exact Or.inl (Or.inr ⟨r, hr, hdst, hm⟩)
      · exact absurd hm (hnot y)
    · exact Or.inr ⟨c, hconnecting ▸ hc, hx, hy⟩
  cases acts_of_step h with
  | dial x' y' connected hx hdials hrequests =>
    rcases hsame hdials.node (fun r hr => hrequests ▸ hr) with ⟨c, hc, hcx, hcy, hnew⟩ | hold
    · obtain ⟨hx', hy'⟩ := (hdials.only c hc).resolve_left hnew
      exact Or.inr (Or.inl ⟨connected, by rw [← hx', ← hy', hcx, hcy]⟩)
    · exact Or.inl hold
  | told connected r pre post y' hr hm hdials hrequests =>
    have hsub : ∀ r' ∈ t.requests, r' ∈ s.requests := fun r' hr' =>
      mem_of_mem_split hr (hrequests ▸ hr')
    rcases hsame hdials.node hsub with ⟨c, hc, hcx, hcy, hnew⟩ | hold
    · obtain ⟨hx', hy'⟩ := (hdials.only c hc).resolve_left hnew
      refine Or.inl (Or.inl (Or.inr ⟨r, by simp [hr], hx'.symm.trans hcx, ?_⟩))
      rw [hm, ← hy', hcy]
    · exact Or.inl hold
  | serve connected r pre post hr hm hnode hrequests hconnecting =>
    exact Or.inl (hlinks (sameLinks_of_update hnode ((s.node r.dst).serve_of_ne_addPeer hm).1)
      (fun r' hr' => Or.inl (mem_of_mem_split hr (hrequests ▸ hr'))) hconnecting)
  | user x' f hb hx hnode hrequests hconnecting =>
    obtain ⟨-, hpeers, hcalls⟩ := TrafficAction.method_keeps hb (s.node x')
    refine Or.inl (hlinks (sameLinks_of_update hnode hpeers) (fun r hr => ?_) hconnecting)
    rw [hrequests] at hr
    rcases List.mem_append.1 hr with hr | hr
    · exact Or.inl hr
    · exact Or.inr (hcalls _ (Mesh.mem_issue hr).2).2
  | link c pre post hc hnode hrequests hconnecting =>
    have hmem : c ∈ s.connecting := by simp [hc]
    rcases hk with (hy | ⟨r, hr, hdst, hm⟩) | ⟨c', hc', hx, hy⟩
    · rcases (mem_peers_link hnode).1 hy with hy | ⟨rfl, rfl⟩
      · exact Or.inl (Or.inl (Or.inl hy))
      · exact Or.inl (Or.inr ⟨c, hmem, rfl, rfl⟩)
    · rw [hrequests] at hr
      rcases List.mem_append.1 hr with hr | hr
      · exact Or.inl (Or.inl (Or.inr ⟨r, hr, hdst, hm⟩))
      · obtain ⟨hto, hmethod⟩ := ServiceNode.mem_greeting.1 (Mesh.mem_issue hr).2
        simp only [hdst, hm, Method.addPeer.injEq] at hto hmethod
        refine Or.inr (Or.inr ⟨c, hmem, hto, ?_⟩)
        rcases hmethod with rfl | ⟨p, hp, hne, rfl⟩ | ⟨g, n, -, hmethod⟩
        · exact Or.inl rfl
        · exact Or.inr ⟨hp, hne⟩
        · cases hmethod
    · refine Or.inl (Or.inr ⟨c', ?_, hx, hy⟩)
      exact mem_of_mem_split hc (hconnecting ▸ hc')
  | respond i hnode hrequests hconnecting =>
    refine Or.inl (hlinks (fun z => by rw [hnode]) (fun r hr => ?_) hconnecting)
    exact Or.inl (hrequests ▸ hr)

/-- A node that enters a peer tells it of itself and of its other peers. -/
theorem mem_peers_origin (h : step nodes s a = some t) {x y : HostPortPair}
    (hy : y ∈ (t.node x).peers) :
    y ∈ (s.node x).peers ∨ (KnowsOf s x y ∧ KnowsOf t y (s.node x).addr ∧
      ∀ z ∈ (t.node x).peers, z ≠ y → KnowsOf t y z) := by
  rcases peers_step h with hlinks | ⟨c, pre, post, hc, -, hnode, hrequests⟩
  · exact Or.inl (hlinks x ▸ hy)
  · rcases (mem_peers_link hnode).1 hy with hy | ⟨rfl, rfl⟩
    · exact Or.inl hy
    · have hgreets : ∀ z, ⟨c.y, .addPeer z⟩ ∈ (s.node c.x).greeting c.y → KnowsOf t c.y z := by
        intro z hz
        obtain ⟨r, hr, -, hdst, hm⟩ := Mesh.exists_mem_issue s.toMesh c.x hz
        exact Or.inl (Or.inr ⟨r, hrequests ▸ List.mem_append_right _ hr, hdst, hm⟩)
      refine Or.inr ⟨Or.inr ⟨c, by simp [hc], rfl, rfl⟩, ?_, fun z hz hne => ?_⟩
      · exact hgreets _ (ServiceNode.mem_greeting.2 ⟨rfl, Or.inl rfl⟩)
      · rcases (mem_peers_link hnode).1 hz with hz | ⟨-, rfl⟩
        · exact hgreets z (ServiceNode.mem_greeting.2 ⟨rfl, Or.inr (Or.inl ⟨z, hz, hne, rfl⟩)⟩)
        · exact absurd rfl hne

/-- Every step keeps the invariant. -/
theorem Acquainted.step {as : List TrafficAction} (h : Acquainted nodes as s) (ha : a.Connects)
    (hst : step nodes s a = some t) : Acquainted nodes (as ++ [a]) t := by
  have hasked : ∀ x y, Asked as x y → Asked (as ++ [a]) x y := fun x y =>
    List.mem_append_left [a]
  have hconn : ∀ x y, KnowsOf s x y → EqvGen (Asked (as ++ [a])) x y := fun x y hk =>
    EqvGen.mono hasked x y (h.introduced.sound x y hk)
  refine ⟨fun x => (addr_step hst x).trans (h.addr_eq x), fun x y hk => ?_, fun x y hk => ?_, ?_⟩
  · rcases hk.origin hst with hk | ⟨connected, rfl⟩ | ⟨c, hc, rfl, rfl | ⟨-, hne⟩⟩
    · exact h.ne x y hk
    · exact ha.1
    · rw [h.addr_eq]
      exact (h.ne c.x c.y (Or.inr ⟨c, hc, rfl, rfl⟩)).symm
    · exact hne.symm
  · rcases hk.origin hst with hk | ⟨connected, rfl⟩ | ⟨c, hc, rfl, rfl | ⟨hy, -⟩⟩
    · exact h.mem x y hk
    · simp only [Traffic.step, Option.ite_none_right_eq_some] at hst
      exact ⟨hst.1.1, hst.1.2 ha.2⟩
    · rw [h.addr_eq]
      exact (h.mem c.x c.y (Or.inr ⟨c, hc, rfl, rfl⟩)).symm
    · exact ⟨(h.mem c.x c.y (Or.inr ⟨c, hc, rfl, rfl⟩)).2, (h.mem c.x y (Or.inl (Or.inl hy))).2⟩
  · refine h.introduced.step hasked (fun x y hk => hk.step hst ha) (fun x y hxy => ?_)
      (fun x y hy => ?_) (fun x y hk => ?_)
    · rcases List.mem_append.1 hxy with hxy | hxy
      · exact Or.inl hxy
      · rw [← List.mem_singleton.1 hxy] at hst
        exact Or.inr (knowsOf_of_addPeer hst)
    · rcases mem_peers_origin hst hy with hold | ⟨hk, hback, hothers⟩
      · exact Or.inl hold
      · exact Or.inr ⟨hk.step hst ha, h.addr_eq x ▸ hback, hothers⟩
    · rcases hk.origin hst with hk | ⟨connected, rfl⟩ | ⟨c, hc, rfl, rfl | ⟨hy, -⟩⟩
      · exact Or.inl hk
      · obtain rfl : connected = true := ha.2
        exact Or.inr (.rel x y (List.mem_append_right as List.mem_cons_self))
      · rw [h.addr_eq]
        exact Or.inr (.symm _ _ (hconn c.x c.y (Or.inr ⟨c, hc, rfl, rfl⟩)))
      · have hcy := hconn c.x c.y (Or.inr ⟨c, hc, rfl, rfl⟩)
        exact Or.inr (.trans _ _ _ (.symm _ _ hcy) (hconn c.x y (Or.inl (Or.inl hy))))

theorem acquainted_of_exec {as : List TrafficAction}
    (hrun : exec (Traffic.step nodes) start as = some s)
    (has : ∀ a ∈ as, a.Connects) : Acquainted nodes as s := by
  refine exec_induction (fun as s => (∀ a ∈ as, a.Connects) → Acquainted nodes as s)
    (fun _ => acquainted_start) ?_ hrun has
  intro as s a t _ ih hst hconnects
  refine (ih fun b hb => hconnects b (List.mem_append_left _ hb)).step ?_ hst
  exact hconnects a (List.mem_append_right _ List.mem_cons_self)

/-! ### The network at rest -/

/-- No request is in flight, and no `RPCAddPeer` is between its two parts. -/
def AtRest (s : Traffic) : Prop := s.requests = [] ∧ s.connecting = []

theorem AtRest.mem_peers (h : AtRest s) {x y : HostPortPair} (hk : KnowsOf s x y) :
    y ∈ (s.node x).peers := by
  rcases hk with (hy | ⟨r, hr, -⟩) | ⟨c, hc, -⟩
  · exact hy
  · exact absurd (h.1 ▸ hr) List.not_mem_nil
  · exact absurd (h.2 ▸ hc) List.not_mem_nil

/-- Whatever is left can be handled. -/
theorem Acquainted.exists_step {as : List TrafficAction} (h : Acquainted nodes as s)
    (hrest : ¬ AtRest s) : ∃ a t, a.IsHandling ∧ a.Connects ∧ Traffic.step nodes s a = some t := by
  cases hc : s.connecting with
  | cons c cs => exact ⟨.link 0, _, trivial, trivial, by rw [Traffic.step, hc]; rfl⟩
  | nil =>
    cases hr : s.requests with
    | nil => exact absurd ⟨hr, hc⟩ hrest
    | cons r rs =>
      have hhandle : ∀ s' : Traffic, ∃ t, s'.handle nodes r true = some t := by
        intro s'
        cases hm : r.method with
        | addPeer y =>
          have hk : KnowsOf s r.dst y := Or.inl (Or.inr ⟨r, by simp [hr], rfl, hm⟩)
          simp only [handle, hm, if_pos fun _ => (h.mem _ _ hk).2]
          exact ⟨_, rfl⟩
        | addToGroup g n => exact ⟨_, by simp only [handle, hm]; rfl⟩
        | removeFromGroup g n => exact ⟨_, by simp only [handle, hm]; rfl⟩
      obtain ⟨t, ht⟩ := hhandle { s with requests := s.requests.eraseIdx 0 }
      refine ⟨.handle 0 true, t, trivial, rfl, ?_⟩
      rw [Traffic.step, hr, List.getElem?_cons_zero, Option.bind_some, ← hr]
      exact ht

/-- From every state the network can come to rest without the users. -/
theorem Acquainted.exists_atRest {as : List TrafficAction} (h : Acquainted nodes as s)
    (hwithin : Within nodes s) :
    ∃ bs t, (∀ b ∈ bs, b.IsHandling ∧ b.Connects) ∧ exec (Traffic.step nodes) s bs = some t ∧
      AtRest t := by
  -- By induction on the measure, which every handling step decreases.
  induction hm : measure nodes s using WellFoundedLT.induction generalizing s as with
  | ind b ih =>
    by_cases hrest : AtRest s
    · exact ⟨[], s, fun b hb => absurd hb List.not_mem_nil, rfl, hrest⟩
    · obtain ⟨a, t, ha, hconnects, hst⟩ := h.exists_step hrest
      have hlt := measure_lt hwithin hst ha
      obtain ⟨bs, u, hbs, hu, hrest⟩ :=
        ih (measure nodes t) (hm ▸ hlt) (h.step hconnects hst) (hwithin.step hst) rfl
      refine ⟨a :: bs, u, fun b hb => ?_, exec_cons_eq_some.2 ⟨t, hst, hu⟩, hrest⟩
      rcases List.mem_cons.1 hb with rfl | hb
      · exact ⟨ha, hconnects⟩
      · exact hbs b hb

theorem within_of_exec {as : List TrafficAction}
    (hrun : exec (Traffic.step nodes) start as = some s) : Within nodes s :=
  exec_induction (fun _ => Within nodes) (within_start nodes)
    (fun _ _ _ _ _ hs hst => hs.step hst) hrun

/-- **Discovery with calls that overlap.** Take any run in which the calls of `RPCAddPeer` of one
node overlap in any way, every connection that is tried succeeds and no user names the address of
the node itself. No node has itself as a peer or is told to connect to itself. When the network is
at rest, two nodes are peers exactly when the `addPeer` calls of the users connect them. And it can
come to rest from every state without the users.

Source: `src/rpc/service_node.cc`, lines 198–247. -/
theorem discovery_interleaved (nodes : Std.ExtTreeSet HostPortPair) (as : List TrafficAction)
    (s : Traffic) (hrun : exec (step nodes) start as = some s) (has : ∀ a ∈ as, a.Connects) :
    (∀ x, x ∉ (s.node x).peers) ∧ (∀ r ∈ s.requests, r.method ≠ .addPeer r.dst) ∧
    (AtRest s → ∀ x y, x ≠ y → (y ∈ (s.node x).peers ↔ EqvGen (Asked as) x y)) ∧
    ∃ bs t, (∀ b ∈ bs, b.IsHandling ∧ b.Connects) ∧ exec (step nodes) s bs = some t ∧
      AtRest t := by
  have h := acquainted_of_exec hrun has
  refine ⟨fun x hx => ?_, fun r hr hm => ?_, fun hrest x y hne => ?_, ?_⟩
  · exact h.ne x x (Or.inl (Or.inl hx)) rfl
  · exact h.ne r.dst r.dst (Or.inl (Or.inr ⟨r, hr, rfl, hm⟩)) rfl
  · exact h.introduced.peer_iff (fun x y hk => hrest.mem_peers hk) hne
  · exact h.exists_atRest (within_of_exec hrun)

/-- Two users connect the first node to the second at once, and the second connects back twice. -/
def overlapping : List TrafficAction :=
  [.addPeer ⟨.ofString "a", 1⟩ ⟨.ofString "b", 1⟩ true,
    .addPeer ⟨.ofString "a", 1⟩ ⟨.ofString "b", 1⟩ true, .link 0, .link 0, .handle 0 true,
    .handle 0 true, .link 0, .link 0, .handle 0 true, .handle 0 true]

theorem discovery_interleaved_overlapping :
    ∃ s, exec (step twoNodes) start overlapping = some s ∧ AtRest s ∧
      (⟨.ofString "a", 1⟩ : HostPortPair) ∈ (s.node ⟨.ofString "b", 1⟩).peers := by
  refine ⟨_, rfl, ⟨rfl, rfl⟩, ?_⟩
  obtain ⟨-, -, hpeers, -⟩ := discovery_interleaved twoNodes overlapping _ rfl (by decide)
  refine (hpeers ⟨rfl, rfl⟩ ⟨.ofString "b", 1⟩ ⟨.ofString "a", 1⟩ (by decide)).2 ?_
  exact .symm _ _ (.rel _ _ List.mem_cons_self)

end Traffic

end RawDish.Rpc
