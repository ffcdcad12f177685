import RawDish.Rpc.Discovery

/-!
# Discovery traffic dies out

`RPCAddPeer` looks for the peer and connects to it before it takes the mutex of its node. Between
the two, other calls of the same node run, also an `RPCAddPeer` of the same address, which then
connects as well. `Traffic` is the mesh with the calls of `RPCAddPeer` that have connected and not
taken the mutex yet; connections may fail, and a node may be told its own address. An address can be
connected to when one of the nodes listens at it, and no connection is lost.

A new link lets a node write any number of requests, so the requests in flight grow. But there is
a finite number of links, and a link that exists is not made again: only the calls that had
connected before it was made still greet the peer once more. The pairs of nodes that are not linked,
then these late calls and then the requests in flight are a measure that every handling step
decreases in the lexicographic order (`Traffic.measure`).

## Main definitions

* `Traffic`, `TrafficAction`, `Traffic.step`.
* `Traffic.measure`.

## Main results

* `Traffic.exists_exec_of_mesh` : the mesh, where `RPCAddPeer` is one step, is a part of this.
* `Traffic.discovery_dies_out` : without user calls, requests are handled finitely often.

## References

* `src/rpc/service_node.h`, lines 78–115; `src/rpc/service_node.cc`, lines 110–283.
-/

namespace RawDish.Rpc

open Lib

namespace ServiceNode

/-- The beginning of `RPCAddPeer`, before the mutex is taken: its value when it returns there. -/
def lookupPeer (s : ServiceNode) (addr : HostPortPair) (connected : Bool) : Option Bool :=
  if addr ∈ s.peers then some true else if connected then none else some false

/-- The rest of `RPCAddPeer`, under the mutex: the peer is entered, also when it is there by now,
and greeted. -/
def linkPeer (s : ServiceNode) (addr : HostPortPair) : Effect where
  node := { s with peers := s.peers.insert addr }
  calls := s.greeting addr

/-- The two parts one right after the other. -/
theorem rpcAddPeer_eq (s : ServiceNode) (addr : HostPortPair) (connected : Bool) :
    s.rpcAddPeer addr connected = match s.lookupPeer addr connected with
      | some v => ({ node := s }, .ready v)
      | none => (s.linkPeer addr, .callback) := by
  simp only [rpcAddPeer, lookupPeer, linkPeer]
  split_ifs <;> rfl

theorem notMem_of_lookupPeer {s : ServiceNode} {addr : HostPortPair} {connected : Bool}
    (h : s.lookupPeer addr connected = none) : addr ∉ s.peers ∧ connected = true := by
  simp only [lookupPeer] at h
  split_ifs at h with hmem hconnected
  exact ⟨hmem, hconnected⟩

/-- The group requests keep the peers and write nothing. -/
theorem serve_of_ne_addPeer (s : ServiceNode) {m : Method} (h : ∀ y, m ≠ .addPeer y) :
    (s.serve m).1.node.peers = s.peers ∧ (s.serve m).1.calls = [] := by
  cases m with
  | addPeer y => exact absurd rfl (h y)
  | addToGroup g n => simp [serve]
  | removeFromGroup g n => simp [serve]

end ServiceNode

/-- An `RPCAddPeer` of `y` at the node `x` that has connected, with the request that it answers; a
user's `addPeer` answers none. -/
structure Connecting where
  x : HostPortPair
  y : HostPortPair
  request : Option ℕ
  deriving DecidableEq

/-- The nodes, what is in flight between them, and the calls of `RPCAddPeer` that have connected. -/
structure Traffic extends Mesh where
  connecting : List Connecting

/-- What can happen next: a user call, the handling of the `i`-th request, the rest of the `i`-th
`RPCAddPeer` that has connected, or the arrival of the `i`-th response. `connected` says whether a
connection is established, where one is needed. -/
inductive TrafficAction
  | addPeer (x y : HostPortPair) (connected : Bool)
  | addToGroup (x : HostPortPair) (group name : Str)
  | removeFromGroup (x : HostPortPair) (group name : Str)
  | addGroupCallback (x : HostPortPair) (group : Str) (cb : ℕ)
  | removeGroupCallback (x : HostPortPair) (group : Str)
  | handle (i : ℕ) (connected : Bool)
  | link (i : ℕ)
  | respond (i : ℕ)
  deriving DecidableEq

namespace TrafficAction

def IsHandling : TrafficAction → Prop
  | .handle _ _ | .link _ => True
  | _ => False

def IsResponse : TrafficAction → Prop
  | .respond _ => True
  | _ => False

def IsUserCall (a : TrafficAction) : Prop := ¬ a.IsHandling ∧ ¬ a.IsResponse

end TrafficAction

namespace Traffic

/-- All nodes freshly constructed. -/
def start : Traffic := ⟨Mesh.start, []⟩

/-- The beginning of `RPCAddPeer` at `x`. -/
def lookup (s : Traffic) (x y : HostPortPair) (connected : Bool) (request : Option ℕ) : Traffic :=
  match (s.node x).lookupPeer y connected with
  | some v => { s with responses := s.responses ++ request.toList.map fun id => ⟨id, v⟩ }
  | none => { s with connecting := s.connecting ++ [⟨x, y, request⟩] }

/-- The rest of `RPCAddPeer`. -/
def link (s : Traffic) (c : Connecting) : Traffic where
  toMesh :=
    { s.commit c.x ((s.node c.x).linkPeer c.y) with
      waiting := s.waiting ++ c.request.toList.map fun id => (s.futures.length, id) }
  connecting := s.connecting

/-- A node runs a method that a user calls. -/
def run (s : Traffic) (x : HostPortPair) (e : Effect) : Traffic := ⟨s.commit x e, s.connecting⟩

/-- A request is handled up to the connection that it may need. -/
def handle (nodes : Std.ExtTreeSet HostPortPair) (s : Traffic) (r : Request) (connected : Bool) :
    Option Traffic :=
  match r.method with
  | .addPeer y =>
    if connected → y ∈ nodes then some (s.lookup r.dst y connected (some r.id)) else none
  | _ => some ⟨s.toMesh.handle r, s.connecting⟩

/-- One action of the mesh on `nodes`: only the nodes listen, so that only they are connected to. -/
def step (nodes : Std.ExtTreeSet HostPortPair) (s : Traffic) : TrafficAction → Option Traffic
  | .addPeer x y connected =>
    if x ∈ nodes ∧ (connected → y ∈ nodes) then some (s.lookup x y connected none) else none
  | .addToGroup x g n => if x ∈ nodes then some (s.run x ((s.node x).addToGroup g n)) else none
  | .removeFromGroup x g n =>
    if x ∈ nodes then some (s.run x ((s.node x).removeFromGroup g n)) else none
  | .addGroupCallback x g cb =>
    if x ∈ nodes then some (s.run x ((s.node x).addGroupCallback g cb)) else none
  | .removeGroupCallback x g =>
    if x ∈ nodes then some (s.run x ((s.node x).removeGroupCallback g)) else none
  | .handle i connected =>
    s.requests[i]?.bind fun r =>
      { s with requests := s.requests.eraseIdx i }.handle nodes r connected
  | .link i =>
    s.connecting[i]?.map fun c => { s with connecting := s.connecting.eraseIdx i }.link c
  | .respond i =>
    s.responses[i]?.map fun p =>
      ⟨{ s.toMesh with responses := s.responses.eraseIdx i }.receive p, s.connecting⟩

/-! ### The mesh with `RPCAddPeer` in one step -/

/-- A node that is left as it is and writes nothing. -/
theorem commit_self (m : Mesh) (x : HostPortPair) : m.commit x { node := m.node x } = m := by
  simp [Mesh.commit, Mesh.issue]

/-- The two parts of `RPCAddPeer` one right after the other, for a user. -/
theorem exec_addPeer (nodes : Std.ExtTreeSet HostPortPair) (m : Mesh) {x y : HostPortPair}
    (hx : x ∈ nodes) (hy : y ∈ nodes) :
    ∃ bs, exec (step nodes) ⟨m, []⟩ bs =
      some ⟨m.commit x ((m.node x).rpcAddPeer y true).1, []⟩ := by
  rw [ServiceNode.rpcAddPeer_eq]
  cases h : (m.node x).lookupPeer y true with
  | some v =>
    refine ⟨[.addPeer x y true], ?_⟩
    simp [exec, step, lookup, h, hx, hy, commit_self]
  | none =>
    refine ⟨[.addPeer x y true, .link 0], ?_⟩
    simp [exec, step, lookup, link, h, hx, hy, Mesh.commit, Mesh.issue]

theorem handle_of_ready {m : Mesh} {r : Request} {e : Effect} {v : Bool}
    (h : (m.node r.dst).serve r.method = (e, .ready v)) :
    m.handle r = { m.commit r.dst e with responses := m.responses ++ [⟨r.id, v⟩] } := by
  simp only [Mesh.handle, h]

theorem handle_of_callback {m : Mesh} {r : Request} {e : Effect}
    (h : (m.node r.dst).serve r.method = (e, .callback)) :
    m.handle r = { m.commit r.dst e with
      waiting := m.waiting ++ [(m.futures.length, r.id)] } := by
  simp only [Mesh.handle, h]

/-- The two parts one right after the other, for a request. -/
theorem exec_handle (nodes : Std.ExtTreeSet HostPortPair) {m : Mesh} {i : ℕ} {r : Request}
    (hr : m.requests[i]? = some r) (hnamed : ∀ y, r.method = .addPeer y → y ∈ nodes) :
    ∃ bs, exec (step nodes) ⟨m, []⟩ bs =
      some ⟨{ m with requests := m.requests.eraseIdx i }.handle r, []⟩ := by
  cases hm : r.method with
  | addPeer y =>
    have hy := hnamed y hm
    have hserve : (m.node r.dst).serve r.method = (m.node r.dst).rpcAddPeer y true := by
      rw [hm, ServiceNode.serve]
    rw [ServiceNode.rpcAddPeer_eq] at hserve
    cases h : (m.node r.dst).lookupPeer y true with
    | some v =>
      simp only [h] at hserve
      refine ⟨[.handle i true], ?_⟩
      rw [handle_of_ready (m := { m with requests := m.requests.eraseIdx i }) hserve, commit_self]
      simp [exec, step, hr, handle, hm, hy, lookup, h]
    | none =>
      simp only [h] at hserve
      refine ⟨[.handle i true, .link 0], ?_⟩
      rw [handle_of_callback (m := { m with requests := m.requests.eraseIdx i }) hserve]
      simp [exec, step, hr, handle, hm, hy, lookup, h, link]
  | addToGroup g n => exact ⟨[.handle i true], by simp [exec, step, hr, handle, hm]⟩
  | removeFromGroup g n => exact ⟨[.handle i true], by simp [exec, step, hr, handle, hm]⟩

/-- What the mesh can reach, the traffic can reach with every `RPCAddPeer` done. -/
theorem exists_exec_of_mesh {nodes : Std.ExtTreeSet HostPortPair} {as : List Action} {m : Mesh}
    (hm : exec (Mesh.step nodes) Mesh.start as = some m) :
    ∃ bs, exec (step nodes) start bs = some ⟨m, []⟩ := by
  refine exec_induction (fun _ m => ∃ bs, exec (step nodes) start bs = some ⟨m, []⟩)
    ⟨[], rfl⟩ ?_ hm
  rintro as m a m' hreached ⟨bs, hbs⟩ hstep
  have hone : ∃ cs, exec (step nodes) ⟨m, []⟩ cs = some ⟨m', []⟩ := by
    cases a with
    | addPeer x y =>
      simp only [Mesh.step, Option.ite_none_right_eq_some, Option.some.injEq] at hstep
      obtain ⟨⟨hx, hy, -⟩, rfl⟩ := hstep
      exact exec_addPeer nodes m hx hy
    | addToGroup x g n =>
      simp only [Mesh.step, Option.ite_none_right_eq_some, Option.some.injEq] at hstep
      obtain ⟨hx, rfl⟩ := hstep
      exact ⟨[.addToGroup x g n], by simp [exec, step, run, hx]⟩
    | removeFromGroup x g n =>
      simp only [Mesh.step, Option.ite_none_right_eq_some, Option.some.injEq] at hstep
      obtain ⟨hx, rfl⟩ := hstep
      exact ⟨[.removeFromGroup x g n], by simp [exec, step, run, hx]⟩
    | handle i =>
      simp only [Mesh.step, Option.map_eq_some_iff] at hstep
      obtain ⟨r, hr, rfl⟩ := hstep
      have hmem : r ∈ m.requests := List.mem_of_getElem? hr
      exact exec_handle nodes hr ((Mesh.linked_of_exec hreached).request_mem r hmem)
    | respond i =>
      simp only [Mesh.step, Option.map_eq_some_iff] at hstep
      obtain ⟨p, hp, rfl⟩ := hstep
      exact ⟨[.respond i], by simp [exec, step, hp]⟩
  obtain ⟨cs, hcs⟩ := hone
  exact ⟨bs ++ cs, exec_append_eq_some.2 ⟨_, hbs, hcs⟩⟩

/-! ### What a step does -/

/-- Every node has the same peers. -/
def SameLinks (s t : Traffic) : Prop := ∀ x, (t.node x).peers = (s.node x).peers

/-- The calls of `RPCAddPeer` at `x` that have connected in one step; the peer was not there. -/
def Dialled (nodes : Std.ExtTreeSet HostPortPair) (s : Traffic) (x : HostPortPair)
    (cs : List Connecting) : Prop :=
  ∀ c ∈ cs, c.x = x ∧ c.y ∈ nodes ∧ c.y ∉ (s.node x).peers

/-- What a step does to the links, the requests and the calls that have connected. -/
inductive Moves (nodes : Std.ExtTreeSet HostPortPair) (s t : Traffic) : TrafficAction → Prop
  | user {a : TrafficAction} (ha : a.IsUserCall) (x : HostPortPair) (new : List Request)
      (cs : List Connecting) (hx : x ∈ nodes) (hlinks : SameLinks s t)
      (hnew : ∀ r ∈ new, r.dst ∈ (s.node x).peers) (hrequests : t.requests = s.requests ++ new)
      (hcs : Dialled nodes s x cs) (hconnecting : t.connecting = s.connecting ++ cs) :
      Moves nodes s t a
  | handle (connected : Bool) (r : Request) (pre post : List Request) (cs : List Connecting)
      (hr : s.requests = pre ++ r :: post) (hlinks : SameLinks s t)
      (hrequests : t.requests = pre ++ post) (hcs : Dialled nodes s r.dst cs)
      (hconnecting : t.connecting = s.connecting ++ cs) :
      Moves nodes s t (.handle pre.length connected)
  | link (c : Connecting) (pre post : List Connecting) (new : List Request)
      (hc : s.connecting = pre ++ c :: post) (hconnecting : t.connecting = pre ++ post)
      (hnode : t.node = Function.update s.node c.x ((s.node c.x).linkPeer c.y).node)
      (hnew : ∀ r ∈ new, r.dst = c.y) (hrequests : t.requests = s.requests ++ new) :
      Moves nodes s t (.link pre.length)
  | respond (i : ℕ) (hnode : t.node = s.node) (hrequests : t.requests = s.requests)
      (hconnecting : t.connecting = s.connecting) : Moves nodes s t (.respond i)

/-- A method that keeps the peers of its node keeps all links. -/
theorem sameLinks_of_update {s t : Traffic} {x : HostPortPair} {e : Effect}
    (hnode : t.node = Function.update s.node x e.node)
    (hpeers : e.node.peers = (s.node x).peers) : SameLinks s t := by
  intro z
  rw [hnode]
  by_cases hz : z = x
  · rw [hz, Function.update_self, hpeers]
  · rw [Function.update_of_ne hz]

/-- The beginning of `RPCAddPeer` changes no node and writes no request. -/
theorem lookup_cases {nodes : Std.ExtTreeSet HostPortPair} (s : Traffic) {x y : HostPortPair}
    {connected : Bool} (request : Option ℕ) (hy : connected → y ∈ nodes) :
    (s.lookup x y connected request).node = s.node ∧
      (s.lookup x y connected request).requests = s.requests ∧
      ∃ cs, (s.lookup x y connected request).connecting = s.connecting ++ cs ∧
        Dialled nodes s x cs := by
  cases h : (s.node x).lookupPeer y connected with
  | some v =>
    simp only [lookup, h, true_and]
    refine ⟨[], (List.append_nil _).symm, fun c hc => ?_⟩
    exact absurd hc List.not_mem_nil
  | none =>
    obtain ⟨hmem, hconnected⟩ := ServiceNode.notMem_of_lookupPeer h
    simp only [lookup, h, true_and]
    refine ⟨[⟨x, y, request⟩], rfl, fun c hc => ?_⟩
    rw [List.mem_singleton.1 hc]
    exact ⟨rfl, hy hconnected, hmem⟩

/-- A method that a user calls and that keeps the peers. -/
theorem moves_run {nodes : Std.ExtTreeSet HostPortPair} (s : Traffic) {a : TrafficAction}
    (ha : a.IsUserCall) {x : HostPortPair} (hx : x ∈ nodes) (e : Effect)
    (hpeers : e.node.peers = (s.node x).peers)
    (hcalls : ∀ c ∈ e.calls, c.dst ∈ (s.node x).peers) : Moves nodes s (s.run x e) a := by
  refine .user ha x (s.issue x e.calls) [] hx (sameLinks_of_update rfl hpeers) (fun r hr => ?_) rfl
    (fun c hc => absurd hc List.not_mem_nil) (List.append_nil _).symm
  exact hcalls _ (Mesh.mem_issue hr).2

/-- A request that is not an `addPeer` is answered at once. -/
theorem moves_handle {nodes : Std.ExtTreeSet HostPortPair} (s : Traffic) (connected : Bool)
    {r : Request} {pre post : List Request} (hr : s.requests = pre ++ r :: post)
    (hm : ∀ y, r.method ≠ .addPeer y) :
    Moves nodes s ⟨({ s.toMesh with requests := pre ++ post } : Mesh).handle r, s.connecting⟩
      (.handle pre.length connected) := by
  obtain ⟨hpeers, hcalls⟩ := (s.node r.dst).serve_of_ne_addPeer hm
  refine .handle connected r pre post [] hr (sameLinks_of_update (Mesh.node_handle _ r) hpeers) ?_
    (fun c hc => absurd hc List.not_mem_nil) (List.append_nil _).symm
  rw [Mesh.requests_handle, hcalls, Mesh.issue, List.mapIdx_nil, List.append_nil]

theorem moves_of_step {nodes : Std.ExtTreeSet HostPortPair} {s t : Traffic} {a : TrafficAction}
    (h : step nodes s a = some t) : Moves nodes s t a := by
  cases a with
  | addPeer x y connected =>
    simp only [step, Option.ite_none_right_eq_some, Option.some.injEq] at h
    obtain ⟨⟨hx, hy⟩, rfl⟩ := h
    obtain ⟨hnode, hrequests, cs, hconnecting, hcs⟩ := lookup_cases s none hy
    refine .user ⟨id, id⟩ x [] cs hx (fun z => by rw [hnode]) (fun r hr => ?_) ?_ hcs hconnecting
    · exact absurd hr List.not_mem_nil
    · rw [hrequests, List.append_nil]
  | addToGroup x g n =>
    simp only [step, Option.ite_none_right_eq_some, Option.some.injEq] at h
    obtain ⟨hx, rfl⟩ := h
    refine moves_run s ⟨id, id⟩ hx _ (ServiceNode.peers_addToGroup _ g n) fun c hc => ?_
    rw [ServiceNode.calls_addToGroup, ServiceNode.mem_notify] at hc
    exact hc.1
  | removeFromGroup x g n =>
    simp only [step, Option.ite_none_right_eq_some, Option.some.injEq] at h
    obtain ⟨hx, rfl⟩ := h
    refine moves_run s ⟨id, id⟩ hx _ (ServiceNode.peers_removeFromGroup _ g n) fun c hc => ?_
    rw [ServiceNode.calls_removeFromGroup, ServiceNode.mem_notify] at hc
    exact hc.1
  | addGroupCallback x g cb =>
    simp only [step, Option.ite_none_right_eq_some, Option.some.injEq] at h
    obtain ⟨hx, rfl⟩ := h
    exact moves_run s ⟨id, id⟩ hx _ rfl fun c hc => absurd hc List.not_mem_nil
  | removeGroupCallback x g =>
    simp only [step, Option.ite_none_right_eq_some, Option.some.injEq] at h
    obtain ⟨hx, rfl⟩ := h
    exact moves_run s ⟨id, id⟩ hx _ rfl fun c hc => absurd hc List.not_mem_nil
  | handle i connected =>
    simp only [step, Option.bind_eq_some_iff] at h
    obtain ⟨r, hr, hhandle⟩ := h
    obtain ⟨pre, post, hsplit, rfl, herase⟩ := split_of_getElem? hr
    rw [herase] at hhandle
    cases hm : r.method with
    | addPeer y =>
      simp only [handle, hm, Option.ite_none_right_eq_some, Option.some.injEq] at hhandle
      obtain ⟨hy, rfl⟩ := hhandle
      obtain ⟨hnode, hrequests, cs, hconnecting, hcs⟩ :=
        lookup_cases { s with requests := pre ++ post } (some r.id) hy
      exact .handle connected r pre post cs hsplit (fun z => by rw [hnode]) hrequests hcs
        hconnecting
    | addToGroup g n =>
      simp only [handle, hm, Option.some.injEq] at hhandle
      exact hhandle ▸ moves_handle s connected hsplit (by simp [hm])
    | removeFromGroup g n =>
      simp only [handle, hm, Option.some.injEq] at hhandle
      exact hhandle ▸ moves_handle s connected hsplit (by simp [hm])
  | link i =>
    simp only [step, Option.map_eq_some_iff] at h
    obtain ⟨c, hc, rfl⟩ := h
    obtain ⟨pre, post, hsplit, rfl, herase⟩ := split_of_getElem? hc
    rw [herase]
    refine .link c pre post _ hsplit rfl rfl (fun r hr => ?_) rfl
    exact (ServiceNode.mem_greeting.1 (Mesh.mem_issue hr).2).1
  | respond i =>
    simp only [step, Option.map_eq_some_iff] at h
    obtain ⟨p, -, rfl⟩ := h
    exact .respond i rfl rfl rfl

/-! ### The nodes that take part -/

/-- Links, requests and the calls that have connected are among the nodes of the mesh. -/
structure Within (nodes : Std.ExtTreeSet HostPortPair) (s : Traffic) : Prop where
  peers : ∀ x, ∀ y ∈ (s.node x).peers, y ∈ nodes
  requests : ∀ r ∈ s.requests, r.dst ∈ nodes
  connecting : ∀ c ∈ s.connecting, c.x ∈ nodes ∧ c.y ∈ nodes

theorem within_start (nodes : Std.ExtTreeSet HostPortPair) : Within nodes start where
  peers x y hy := by simp [start, Mesh.start, ServiceNode.create] at hy
  requests r hr := absurd hr List.not_mem_nil
  connecting c hc := absurd hc List.not_mem_nil

theorem mem_peers_link {s t : Traffic} {c : Connecting}
    (hnode : t.node = Function.update s.node c.x ((s.node c.x).linkPeer c.y).node)
    {x y : HostPortPair} :
    y ∈ (t.node x).peers ↔ y ∈ (s.node x).peers ∨ (x = c.x ∧ y = c.y) := by
  rw [hnode]
  by_cases hx : x = c.x
  · rw [hx, Function.update_self]
    simp only [ServiceNode.linkPeer, Std.ExtTreeSet.mem_insert, Std.compare_eq_iff_eq, true_and]
    rw [or_comm, eq_comm]
  · rw [Function.update_of_ne hx]
    simp [hx]

variable {nodes : Std.ExtTreeSet HostPortPair} {s t : Traffic} {a : TrafficAction}

/-- The calls that have connected stay within the nodes. -/
theorem Within.dialled (hs : Within nodes s) {x : HostPortPair} (hx : x ∈ nodes)
    {cs : List Connecting} (hcs : Dialled nodes s x cs) :
    ∀ c ∈ s.connecting ++ cs, c.x ∈ nodes ∧ c.y ∈ nodes := by
  intro c hc
  rcases List.mem_append.1 hc with hc | hc
  · exact hs.connecting c hc
  · obtain ⟨rfl, hy, -⟩ := hcs c hc
    exact ⟨hx, hy⟩

theorem Within.step (hs : Within nodes s) (h : step nodes s a = some t) : Within nodes t := by
  cases moves_of_step h with
  | user ha x new cs hx hlinks hnew hrequests hcs hconnecting =>
    refine ⟨fun z y hy => ?_, fun r hr => ?_, ?_⟩
    · rw [hlinks z] at hy
      exact hs.peers z y hy
    · rw [hrequests] at hr
      rcases List.mem_append.1 hr with hr | hr
      · exact hs.requests r hr
      · exact hs.peers x r.dst (hnew r hr)
    · rw [hconnecting]
      exact hs.dialled hx hcs
  | handle connected r pre post cs hr hlinks hrequests hcs hconnecting =>
    refine ⟨fun z y hy => ?_, fun r' hr' => ?_, ?_⟩
    · rw [hlinks z] at hy
      exact hs.peers z y hy
    · rw [hrequests] at hr'
      exact hs.requests r' (mem_of_mem_split hr hr')
    · rw [hconnecting]
      exact hs.dialled (hs.requests r (by simp [hr])) hcs
  | link c pre post new hc hconnecting hnode hnew hrequests =>
    have hcnodes := hs.connecting c (by simp [hc])
    refine ⟨fun z y hy => ?_, fun r hr => ?_, fun c' hc' => ?_⟩
    · rcases (mem_peers_link hnode).1 hy with hy | ⟨-, rfl⟩
      · exact hs.peers z y hy
      · exact hcnodes.2
    · rw [hrequests] at hr
      rcases List.mem_append.1 hr with hr | hr
      · exact hs.requests r hr
      · exact hnew r hr ▸ hcnodes.2
    · rw [hconnecting] at hc'
      exact hs.connecting c' (mem_of_mem_split hc hc')
  | respond i hnode hrequests hconnecting =>
    exact ⟨fun z => hnode ▸ hs.peers z, hrequests ▸ hs.requests, hconnecting ▸ hs.connecting⟩

/-! ### The measure -/

/-- The pairs of nodes of which the first does not have the second as a peer. -/
def unlinked (nodes : Std.ExtTreeSet HostPortPair) (s : Traffic) :
    Finset (HostPortPair × HostPortPair) :=
  (nodes.toList.toFinset ×ˢ nodes.toList.toFinset).filter fun p => p.2 ∉ (s.node p.1).peers

/-- The calls of `RPCAddPeer` that have connected to an address that is a peer by now. -/
def late (s : Traffic) : ℕ := s.connecting.countP fun c => c.y ∈ (s.node c.x).peers

def measure (nodes : Std.ExtTreeSet HostPortPair) (s : Traffic) : ℕ ×ₗ ℕ ×ₗ ℕ :=
  toLex ((unlinked nodes s).card, toLex (late s, s.requests.length))

theorem unlinked_congr (h : SameLinks s t) : unlinked nodes t = unlinked nodes s := by
  simp only [unlinked, h _]

/-- A call that has just connected is not late. -/
theorem late_dialled (h : SameLinks s t) {x : HostPortPair} {cs : List Connecting}
    (hcs : Dialled nodes s x cs) (hconnecting : t.connecting = s.connecting ++ cs) :
    late t = late s := by
  have hzero : cs.countP (fun c => c.y ∈ (s.node c.x).peers) = 0 := by
    refine List.countP_eq_zero.2 fun c hc => ?_
    obtain ⟨rfl, -, hy⟩ := hcs c hc
    simpa using hy
  simp only [late, h _, hconnecting, List.countP_append, hzero, Nat.add_zero]

theorem unlinked_link_ssubset {c : Connecting} (hx : c.x ∈ nodes) (hy : c.y ∈ nodes)
    (hnode : t.node = Function.update s.node c.x ((s.node c.x).linkPeer c.y).node)
    (hnew : c.y ∉ (s.node c.x).peers) : unlinked nodes t ⊂ unlinked nodes s := by
  refine Finset.ssubset_iff_subset_ne.2 ⟨fun p hp => ?_, fun heq => ?_⟩
  · rw [unlinked, Finset.mem_filter] at hp ⊢
    exact ⟨hp.1, fun hmem => hp.2 ((mem_peers_link hnode).2 (Or.inl hmem))⟩
  · have hmem : (c.x, c.y) ∈ unlinked nodes s := by
      simp [unlinked, hx, hy, hnew]
    rw [← heq, unlinked, Finset.mem_filter] at hmem
    exact hmem.2 ((mem_peers_link hnode).2 (Or.inr ⟨rfl, rfl⟩))

/-- **Every handling step decreases the measure.** -/
theorem measure_lt (hs : Within nodes s) (h : step nodes s a = some t) (ha : a.IsHandling) :
    measure nodes t < measure nodes s := by
  cases moves_of_step h with
  | user hb => exact absurd ha hb.1
  | respond => exact absurd ha id
  | handle connected r pre post cs hr hlinks hrequests hcs hconnecting =>
    refine Prod.Lex.toLex_lt_toLex.2 (Or.inr ⟨?_, Prod.Lex.toLex_lt_toLex.2 (Or.inr ⟨?_, ?_⟩)⟩)
    · rw [unlinked_congr hlinks]
    · exact late_dialled hlinks hcs hconnecting
    · rw [hrequests, hr, List.length_append, List.length_append, List.length_cons]
      omega
  | link c pre post new hc hconnecting hnode hnew hrequests =>
    obtain ⟨hx, hy⟩ := hs.connecting c (by simp [hc])
    by_cases hmem : c.y ∈ (s.node c.x).peers
    · -- The peer is there by now: the links are the same, and this call was late.
      have hlinks : SameLinks s t := by
        intro z
        refine Std.ExtTreeSet.ext_mem fun y => ?_
        rw [mem_peers_link hnode]
        refine ⟨fun hy => hy.elim id ?_, Or.inl⟩
        rintro ⟨rfl, rfl⟩
        exact hmem
      refine Prod.Lex.toLex_lt_toLex.2 (Or.inr ⟨?_, Prod.Lex.toLex_lt_toLex.2 (Or.inl ?_)⟩)
      · rw [unlinked_congr hlinks]
      · simp [late, hlinks _, hconnecting, hc, hmem]
    · refine Prod.Lex.toLex_lt_toLex.2 (Or.inl ?_)
      exact Finset.card_lt_card (unlinked_link_ssubset hx hy hnode hmem)

/-- The arrival of a response does not change the measure. -/
theorem measure_eq_of_response (h : step nodes s a = some t) (ha : a.IsResponse) :
    measure nodes t = measure nodes s := by
  cases moves_of_step h with
  | user hb => exact absurd ha hb.2
  | handle => exact absurd ha id
  | link => exact absurd ha id
  | respond i hnode hrequests hconnecting =>
    simp only [measure, unlinked, late, hnode, hrequests, hconnecting]

/-- **Discovery traffic dies out.** In every state that is reached, a handling step decreases the
measure, and a run from there on in which no user calls handles requests finitely often. -/
theorem discovery_dies_out (nodes : Std.ExtTreeSet HostPortPair) {as : List TrafficAction}
    {s : Traffic} (hs : exec (step nodes) start as = some s) :
    (∀ a t, step nodes s a = some t → a.IsHandling → measure nodes t < measure nodes s) ∧
    WellFounded (fun t s : Traffic => measure nodes t < measure nodes s) ∧
    ∀ (f : ℕ → Traffic) (a : ℕ → TrafficAction), Unending (step nodes) f a → f 0 = s →
      (∀ n, ¬ (a n).IsUserCall) → ∃ N, ∀ n, N ≤ n → ¬ (a n).IsHandling := by
  have hwithin : Within nodes s := by
    refine exec_induction (fun _ => Within nodes) (within_start nodes) ?_ hs
    intro _ t a u _ ht hstep
    exact ht.step hstep
  have hstep : ∀ s a t, Within nodes s → ¬ a.IsUserCall → step nodes s a = some t →
      Within nodes t ∧ measure nodes t ≤ measure nodes s ∧
        (a.IsHandling → measure nodes t < measure nodes s) := by
    intro s a t hs hquiet hstep
    refine ⟨hs.step hstep, ?_, measure_lt hs hstep⟩
    by_cases ha : a.IsHandling
    · exact (measure_lt hs hstep ha).le
    · have hresponse : a.IsResponse := by
        by_contra hresponse
        exact hquiet ⟨ha, hresponse⟩
      exact (measure_eq_of_response hstep hresponse).le
  refine ⟨fun a t => measure_lt hwithin, InvImage.wf _ wellFounded_lt, fun f a hrun h0 hquiet => ?_⟩
  exact hrun.eventually_not (measure nodes) (Within nodes) hstep (h0 ▸ hwithin) hquiet

/-- Two nodes. -/
def twoNodes : Std.ExtTreeSet HostPortPair := {⟨.ofString "a", 1⟩, ⟨.ofString "b", 1⟩}

/-- Two users connect the first node to the second at once, and the link is made for one of them. -/
def twoUsers : List TrafficAction :=
  [.addToGroup ⟨.ofString "a", 1⟩ (.ofString "g") (.ofString "n"),
    .addPeer ⟨.ofString "a", 1⟩ ⟨.ofString "b", 1⟩ true,
    .addPeer ⟨.ofString "a", 1⟩ ⟨.ofString "b", 1⟩ true, .link 0]

/-- The second call greets the peer once more: there are more requests, and the measure is less. -/
theorem discovery_dies_out_twoUsers :
    ∃ s t, exec (step twoNodes) start twoUsers = some s ∧ step twoNodes s (.link 0) = some t ∧
      s.requests.length = 2 ∧ t.requests.length = 4 ∧
      measure twoNodes t < measure twoNodes s := by
  have hrun : ∃ s t, exec (step twoNodes) start twoUsers = some s ∧
      step twoNodes s (.link 0) = some t ∧ s.requests.length = 2 ∧ t.requests.length = 4 :=
    ⟨_, _, rfl, rfl, rfl, rfl⟩
  obtain ⟨s, t, hs, ht, hbefore, hafter⟩ := hrun
  obtain ⟨hdecrease, -⟩ := discovery_dies_out twoNodes hs
  exact ⟨s, t, hs, ht, hbefore, hafter, hdecrease (.link 0) t ht trivial⟩

end Traffic

end RawDish.Rpc
