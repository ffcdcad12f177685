import RawDish.Rpc.Subscription

/-!
# Connections that are lost

A connection between two nodes may be lost at any time, and what was written to it and has not
arrived is lost with it. The node that has opened it is told and runs `RemovePeer`, which erases the
peer with the address of the connection, also when the peer has been connected to again in the
meantime; what a node writes to a peer goes to the connection of the client that it has stored last.
A server that has received a request still handles it.

`Lossy` is the mesh with its connections. The responses are left out: no node reads them.

Nodes between which no connection is lost are not disturbed by what happens to the others. When
nothing is in flight between them, they are peers of each other if the users have connected them by
calls of `addPeer` among them, and they have the members that were added at one of them.

## Main definitions

* `Link`, `Lossy`, `Lossy.step` : the connections and the mesh with them.
* `Lossy.Spares` : connections between some nodes succeed and are not lost.
* `Lossy.Acts` : what a step does.

## Main results

* `Lossy.discovery_spared` : these nodes discover each other.
* `Lossy.members_spared` : and they agree on the members.

## References

* `src/rpc/service_node.cc`, lines 110–264; `src/rpc/rpc.cc`, lines 276–281.
-/

namespace RawDish.Rpc

open Lib
open Relation (EqvGen)

/-- A connection that the node `src` has opened to `dst`; the numbers of all connections are
different. -/
structure Link where
  number : ℕ
  src : HostPortPair
  dst : HostPortPair
  deriving DecidableEq

/-- The nodes and their connections. -/
@[ext]
structure Lossy where
  node : HostPortPair → ServiceNode
  /-- All connections that were opened. -/
  links : List Link
  /-- `_peers` of a node: the connection of the client that is stored under an address. -/
  client : HostPortPair → HostPortPair → Option Link
  /-- The requests in flight, and those that a server has received and not handled. -/
  requests : List (Link × Method)
  /-- The connections of the calls of `RPCAddPeer` that have not taken the mutex yet. -/
  connecting : List Link
  /-- The connections that are lost. -/
  down : List Link
  /-- Those of them for which the disconnect callback has run. -/
  noticed : List Link

/-- What can happen next: as in `TrafficAction`, without responses; a connection is lost, a request
that was written to it is lost, or the disconnect callback of its client runs. -/
inductive LossyAction
  | traffic (a : TrafficAction)
  | sever (l : Link)
  | drop (i : ℕ)
  | notice (l : Link)
  deriving DecidableEq

namespace Lossy

/-- All nodes freshly constructed. -/
def start : Lossy := ⟨.create, [], fun _ _ => none, [], [], [], []⟩

/-- Calls of the node `x` are written to the connections of its clients. What is written to one that
is lost goes nowhere. -/
def issue (s : Lossy) (x : HostPortPair) (calls : List Call) : List (Link × Method) :=
  calls.filterMap fun c =>
    (s.client x c.dst).bind fun l => if l ∈ s.down then none else some (l, c.method)

/-- The node `x` has run a method. -/
def commit (s : Lossy) (x : HostPortPair) (e : Effect) : Lossy :=
  { s with
    node := Function.update s.node x e.node
    requests := s.requests ++ s.issue x e.calls }

/-- The beginning of `RPCAddPeer` at `x`: a connection is opened if there is no peer yet. -/
def lookup (s : Lossy) (x y : HostPortPair) (connected : Bool) : Lossy :=
  match (s.node x).lookupPeer y connected with
  | some _ => s
  | none =>
    { s with
      links := s.links ++ [⟨s.links.length, x, y⟩]
      connecting := s.connecting ++ [⟨s.links.length, x, y⟩] }

/-- The client that is stored for the peer of a connection. -/
def setClient (s : Lossy) (l : Link) (c : Option Link) : Lossy :=
  { s with client := Function.update s.client l.src (Function.update (s.client l.src) l.dst c) }

/-- The rest of `RPCAddPeer`: the client of the connection is stored and the peer is greeted. -/
def link (s : Lossy) (l : Link) : Lossy :=
  (s.setClient l (some l)).commit l.src ((s.node l.src).linkPeer l.dst)

/-- A request is handled at the node that has received it. -/
def handle (nodes : Std.ExtTreeSet HostPortPair) (s : Lossy) (r : Link × Method)
    (connected : Bool) : Option Lossy :=
  match r.2 with
  | .addPeer y =>
    if connected → y ∈ nodes then some (s.lookup r.1.dst y connected) else none
  | m => some (s.commit r.1.dst ((s.node r.1.dst).serve m).1)

/-- `RemovePeer` at the node that has opened the connection. -/
def removePeer (s : Lossy) (l : Link) : Lossy :=
  ({ s with noticed := s.noticed ++ [l] }.setClient l none).commit l.src
    ((s.node l.src).removePeer l.dst)

/-- An action of the mesh. -/
def trafficStep (nodes : Std.ExtTreeSet HostPortPair) (s : Lossy) : TrafficAction → Option Lossy
  | .addPeer x y connected =>
    if x ∈ nodes ∧ (connected → y ∈ nodes) then some (s.lookup x y connected) else none
  | .addToGroup x g n => if x ∈ nodes then some (s.commit x ((s.node x).addToGroup g n)) else none
  | .removeFromGroup x g n =>
    if x ∈ nodes then some (s.commit x ((s.node x).removeFromGroup g n)) else none
  | .addGroupCallback x g cb =>
    if x ∈ nodes then some (s.commit x ((s.node x).addGroupCallback g cb)) else none
  | .removeGroupCallback x g =>
    if x ∈ nodes then some (s.commit x ((s.node x).removeGroupCallback g)) else none
  | .handle i connected =>
    s.requests[i]?.bind fun r =>
      { s with requests := s.requests.eraseIdx i }.handle nodes r connected
  | .link i =>
    s.connecting[i]?.map fun l => { s with connecting := s.connecting.eraseIdx i }.link l
  | .respond _ => none

/-- One action. A connection that is lost is noticed once, when its client has been stored. -/
def step (nodes : Std.ExtTreeSet HostPortPair) (s : Lossy) : LossyAction → Option Lossy
  | .traffic a => s.trafficStep nodes a
  | .sever l => if l ∈ s.links then some { s with down := l :: s.down } else none
  | .drop i => s.requests[i]?.bind fun r =>
      if r.1 ∈ s.down then some { s with requests := s.requests.eraseIdx i } else none
  | .notice l =>
    if l ∈ s.down ∧ l ∉ s.noticed ∧ l ∉ s.connecting then some (s.removePeer l) else none

/-! ### What a step does -/

/-- A step begins an `RPCAddPeer` for a user or a request, handles a group request, runs a method
that a user calls or the rest of an `RPCAddPeer`, or has to do with a loss. -/
inductive Acts (s : Lossy) : LossyAction → Lossy → Prop
  | dial (x y : HostPortPair) (connected : Bool) :
      Acts s (.traffic (.addPeer x y connected)) (s.lookup x y connected)
  | told (connected : Bool) (r : Link × Method) (pre post : List (Link × Method)) (y : HostPortPair)
      (hr : s.requests = pre ++ r :: post) (hm : r.2 = .addPeer y) :
      Acts s (.traffic (.handle pre.length connected))
        ({ s with requests := pre ++ post }.lookup r.1.dst y connected)
  | serve (connected : Bool) (r : Link × Method) (pre post : List (Link × Method))
      (hr : s.requests = pre ++ r :: post) (hm : ∀ y, r.2 ≠ .addPeer y) :
      Acts s (.traffic (.handle pre.length connected))
        { s with
          node := Function.update s.node r.1.dst ((s.node r.1.dst).serve r.2).1.node
          requests := pre ++ post }
  | user (a : TrafficAction) (x : HostPortPair) (f : ServiceNode → Effect)
      (ha : a.method = some (x, f)) : Acts s (.traffic a) (s.commit x (f (s.node x)))
  | link (l : Link) (pre post : List Link) (hl : s.connecting = pre ++ l :: post) :
      Acts s (.traffic (.link pre.length)) ({ s with connecting := pre ++ post }.link l)
  | sever (l : Link) : Acts s (.sever l) { s with down := l :: s.down }
  | drop (r : Link × Method) (pre post : List (Link × Method))
      (hr : s.requests = pre ++ r :: post) (hdown : r.1 ∈ s.down) :
      Acts s (.drop pre.length) { s with requests := pre ++ post }
  | notice (l : Link) (hdown : l ∈ s.down) : Acts s (.notice l) (s.removePeer l)

variable {nodes : Std.ExtTreeSet HostPortPair} {s t : Lossy} {a : LossyAction}

theorem acts_of_commit {b : TrafficAction} {x : HostPortPair} {f : ServiceNode → Effect}
    (hb : b.method = some (x, f))
    (h : (if x ∈ nodes then some (s.commit x (f (s.node x))) else none) = some t) :
    Acts s (.traffic b) t := by
  simp only [Option.ite_none_right_eq_some, Option.some.injEq] at h
  obtain ⟨-, rfl⟩ := h
  exact .user b x f hb

/-- A group request writes nothing. -/
theorem commit_serve (s : Lossy) (x : HostPortPair) {m : Method} (hm : ∀ y, m ≠ .addPeer y) :
    s.commit x ((s.node x).serve m).1 =
      { s with node := Function.update s.node x ((s.node x).serve m).1.node } := by
  rw [commit, ((s.node x).serve_of_ne_addPeer hm).2, issue, List.filterMap_nil, List.append_nil]

/-- Every step is of one of these kinds. -/
theorem acts_of_step (h : step nodes s a = some t) : Acts s a t := by
  cases a with
  | traffic b =>
    rw [step] at h
    cases b with
    | addPeer x y connected =>
      simp only [trafficStep, Option.ite_none_right_eq_some, Option.some.injEq] at h
      obtain ⟨-, rfl⟩ := h
      exact .dial x y connected
    | addToGroup x g n => exact acts_of_commit rfl h
    | removeFromGroup x g n => exact acts_of_commit rfl h
    | addGroupCallback x g cb => exact acts_of_commit rfl h
    | removeGroupCallback x g => exact acts_of_commit rfl h
    | handle i connected =>
      simp only [trafficStep, Option.bind_eq_some_iff] at h
      obtain ⟨r, hr, hhandle⟩ := h
      obtain ⟨pre, post, hsplit, rfl, herase⟩ := split_of_getElem? hr
      rw [herase] at hhandle
      cases hm : r.2 with
      | addPeer y =>
        simp only [handle, hm, Option.ite_none_right_eq_some, Option.some.injEq] at hhandle
        obtain ⟨-, rfl⟩ := hhandle
        exact .told connected r pre post y hsplit hm
      | addToGroup g n =>
        simp only [handle, hm, Option.some.injEq] at hhandle
        rw [← hm, commit_serve _ _ (by simp [hm])] at hhandle
        exact hhandle ▸ .serve connected r pre post hsplit (by simp [hm])
      | removeFromGroup g n =>
        simp only [handle, hm, Option.some.injEq] at hhandle
        rw [← hm, commit_serve _ _ (by simp [hm])] at hhandle
        exact hhandle ▸ .serve connected r pre post hsplit (by simp [hm])
    | link i =>
      simp only [trafficStep, Option.map_eq_some_iff] at h
      obtain ⟨l, hl, rfl⟩ := h
      obtain ⟨pre, post, hsplit, rfl, herase⟩ := split_of_getElem? hl
      rw [herase]
      exact .link l pre post hsplit
    | respond i => cases h
  | sever l =>
    simp only [step, Option.ite_none_right_eq_some, Option.some.injEq] at h
    obtain ⟨-, rfl⟩ := h
    exact .sever l
  | drop i =>
    simp only [step, Option.bind_eq_some_iff, Option.ite_none_right_eq_some,
      Option.some.injEq] at h
    obtain ⟨r, hr, hdown, rfl⟩ := h
    obtain ⟨pre, post, hsplit, rfl, herase⟩ := split_of_getElem? hr
    rw [herase]
    exact .drop r pre post hsplit hdown
  | notice l =>
    simp only [step, Option.ite_none_right_eq_some, Option.some.injEq] at h
    obtain ⟨⟨hdown, -⟩, rfl⟩ := h
    exact .notice l hdown

/-- The beginning of `RPCAddPeer` finds the peer, fails to connect, or opens a connection. -/
theorem lookup_cases (s : Lossy) (x y : HostPortPair) (connected : Bool) :
    (s.lookup x y connected = s ∧ (connected = true → y ∈ (s.node x).peers)) ∨
      ∃ l : Link, l.src = x ∧ l.dst = y ∧ connected = true ∧ s.lookup x y connected =
        { s with links := s.links ++ [l], connecting := s.connecting ++ [l] } := by
  cases h : (s.node x).lookupPeer y connected with
  | some v =>
    refine Or.inl ⟨by rw [lookup, h], fun hconnected => ?_⟩
    by_contra hnot
    simp [ServiceNode.lookupPeer, hnot, hconnected] at h
  | none =>
    refine Or.inr ⟨⟨s.links.length, x, y⟩, rfl, rfl, ?_, by rw [lookup, h]⟩
    exact (ServiceNode.notMem_of_lookupPeer h).2

theorem lookup_eq (s : Lossy) (x y : HostPortPair) (connected : Bool) :
    (s.lookup x y connected).node = s.node ∧ (s.lookup x y connected).client = s.client ∧
      (s.lookup x y connected).requests = s.requests ∧ (s.lookup x y connected).down = s.down := by
  rcases lookup_cases s x y connected with ⟨h, -⟩ | ⟨l, -, -, -, h⟩
  · rw [h]
    exact ⟨rfl, rfl, rfl, rfl⟩
  · rw [h]
    exact ⟨rfl, rfl, rfl, rfl⟩

/-! ### Addresses and peers -/

theorem addr_step (h : step nodes s a = some t) (x : HostPortPair) :
    (t.node x).addr = (s.node x).addr := by
  have hupdate : ∀ {y : HostPortPair} {n : ServiceNode}, n.addr = (s.node y).addr →
      (Function.update s.node y n x).addr = (s.node x).addr := by
    intro y n haddr
    rw [Function.update_apply]
    split_ifs with hx
    · rw [haddr, hx]
    · rfl
  cases acts_of_step h with
  | dial x y connected => rw [(lookup_eq s x y connected).1]
  | told connected r pre post y hr hm => rw [(lookup_eq _ r.1.dst y connected).1]
  | serve connected r pre post hr hm =>
    refine hupdate ?_
    cases r.2 <;> simp [ServiceNode.serve]
  | user b y f hb => exact hupdate (TrafficAction.method_keeps hb _).1
  | link l pre post hl => exact hupdate rfl
  | sever l => rfl
  | drop r pre post hr hdown => rfl
  | notice l hdown => exact hupdate rfl

/-- The peers and their clients stay, the rest of an `RPCAddPeer` enters one, or a loss takes
one. -/
theorem peers_step (h : step nodes s a = some t) :
    ((∀ x, (t.node x).peers = (s.node x).peers) ∧ t.client = s.client) ∨
      (∃ l pre post, s.connecting = pre ++ l :: post ∧
        t = { s with connecting := pre ++ post }.link l) ∨
      ∃ l ∈ s.down, t = s.removePeer l := by
  have hupdate : ∀ {y : HostPortPair} {n : ServiceNode}, n.peers = (s.node y).peers → ∀ x,
      (Function.update s.node y n x).peers = (s.node x).peers := by
    intro y n hpeers x
    rw [Function.update_apply]
    split_ifs with hx
    · rw [hpeers, hx]
    · rfl
  cases acts_of_step h with
  | dial x y connected =>
    obtain ⟨hnode, hclient, -⟩ := lookup_eq s x y connected
    exact Or.inl ⟨fun z => by rw [hnode], hclient⟩
  | told connected r pre post y hr hm =>
    obtain ⟨hnode, hclient, -⟩ := lookup_eq { s with requests := pre ++ post } r.1.dst y connected
    exact Or.inl ⟨fun z => by rw [hnode], hclient⟩
  | serve connected r pre post hr hm =>
    exact Or.inl ⟨hupdate ((s.node r.1.dst).serve_of_ne_addPeer hm).1, rfl⟩
  | user b y f hb => exact Or.inl ⟨hupdate (TrafficAction.method_keeps hb _).2.1, rfl⟩
  | link l pre post hl => exact Or.inr (Or.inl ⟨l, pre, post, hl, rfl⟩)
  | sever l => exact Or.inl ⟨fun z => rfl, rfl⟩
  | drop r pre post hr hdown => exact Or.inl ⟨fun z => rfl, rfl⟩
  | notice l hdown => exact Or.inr (Or.inr ⟨l, hdown, rfl⟩)

theorem mem_peers_link (s : Lossy) (l : Link) {x y : HostPortPair} :
    y ∈ ((s.link l).node x).peers ↔ y ∈ (s.node x).peers ∨ (x = l.src ∧ y = l.dst) := by
  simp only [link, setClient, commit, Function.update_apply]
  split_ifs with hx
  · rw [hx, ServiceNode.linkPeer, Std.ExtTreeSet.mem_insert, Std.compare_eq_iff_eq, or_comm,
      eq_comm (a := l.dst), and_iff_right rfl]
  · rw [or_iff_left fun hand => hx hand.1]

theorem mem_peers_removePeer (s : Lossy) (l : Link) {x y : HostPortPair} :
    y ∈ ((s.removePeer l).node x).peers ↔ y ∈ (s.node x).peers ∧ ¬ (x = l.src ∧ y = l.dst) := by
  simp only [removePeer, setClient, commit, Function.update_apply]
  split_ifs with hx
  · rw [hx, ServiceNode.removePeer, Std.ExtTreeSet.mem_erase, ne_eq, Std.compare_eq_iff_eq,
      and_comm, eq_comm (a := l.dst), and_iff_right rfl]
  · rw [and_iff_left fun hand => hx hand.1]

/-- A peer stays, or a connection to it was lost. -/
theorem mem_peers_step (h : step nodes s a = some t) {x y : HostPortPair}
    (hy : y ∈ (s.node x).peers) :
    y ∈ (t.node x).peers ∨ ∃ l ∈ s.down, l.src = x ∧ l.dst = y := by
  rcases peers_step h with ⟨hpeers, -⟩ | ⟨l, pre, post, -, rfl⟩ | ⟨l, hl, rfl⟩
  · exact Or.inl (hpeers x ▸ hy)
  · exact Or.inl ((mem_peers_link _ l).2 (Or.inl hy))
  · by_cases heq : x = l.src ∧ y = l.dst
    · exact Or.inr ⟨l, hl, heq.1.symm, heq.2.symm⟩
    · exact Or.inl ((mem_peers_removePeer s l).2 ⟨hy, heq⟩)

/-- A new peer is entered by the rest of an `RPCAddPeer`. -/
theorem mem_peers_origin (h : step nodes s a = some t) {x y : HostPortPair}
    (hy : y ∈ (t.node x).peers) :
    y ∈ (s.node x).peers ∨ ∃ l pre post, s.connecting = pre ++ l :: post ∧ l.src = x ∧
      l.dst = y ∧ t = { s with connecting := pre ++ post }.link l := by
  rcases peers_step h with ⟨hpeers, -⟩ | ⟨l, pre, post, hl, rfl⟩ | ⟨l, -, rfl⟩
  · exact Or.inl (hpeers x ▸ hy)
  · rcases (mem_peers_link _ l).1 hy with hy | ⟨rfl, rfl⟩
    · exact Or.inl hy
    · exact Or.inr ⟨l, pre, post, hl, rfl, rfl, rfl⟩
  · exact Or.inl ((mem_peers_removePeer s l).1 hy).1

/-! ### Clients and what is written to them -/

/-- The client of a peer has a connection to it. -/
def Stored (s : Lossy) : Prop :=
  ∀ x, ∀ y ∈ (s.node x).peers, ∃ l, s.client x y = some l ∧ l.src = x ∧ l.dst = y

theorem client_setClient (s : Lossy) (l : Link) (c : Option Link) (x y : HostPortPair) :
    (s.setClient l c).client x y = if x = l.src ∧ y = l.dst then c else s.client x y := by
  simp only [setClient, Function.update_apply]
  by_cases hx : x = l.src
  · subst hx
    simp only [if_true, true_and, Function.update_apply]
  · rw [if_neg hx, if_neg fun hand => hx hand.1]

theorem Stored.step (h : Stored s) (hst : step nodes s a = some t) : Stored t := by
  intro x y hy
  rcases peers_step hst with ⟨hpeers, hclient⟩ | ⟨l, pre, post, -, rfl⟩ | ⟨l, -, rfl⟩
  · rw [hclient]
    exact h x y (hpeers x ▸ hy)
  · rw [link, commit, client_setClient]
    split_ifs with heq
    · exact ⟨l, rfl, heq.1.symm, heq.2.symm⟩
    · exact h x y (((mem_peers_link _ l).1 hy).resolve_right heq)
  · obtain ⟨hy, hne⟩ := (mem_peers_removePeer s l).1 hy
    rw [removePeer, commit, client_setClient, if_neg hne]
    exact h x y hy

theorem mem_issue {x : HostPortPair} {calls : List Call} {r : Link × Method} :
    r ∈ s.issue x calls ↔ ∃ dst, ⟨dst, r.2⟩ ∈ calls ∧ s.client x dst = some r.1 ∧ r.1 ∉ s.down := by
  obtain ⟨l, m⟩ := r
  simp only [issue, List.mem_filterMap, Option.bind_eq_some_iff, Option.ite_none_left_eq_some,
    Option.some.injEq, Prod.mk.injEq]
  constructor
  · rintro ⟨c, hc, l', hclient, hdown, rfl, rfl⟩
    exact ⟨c.dst, hc, hclient, hdown⟩
  · rintro ⟨dst, hc, hclient, hdown⟩
    exact ⟨⟨dst, m⟩, hc, l, hclient, hdown, rfl, rfl⟩

/-- What the rest of an `RPCAddPeer` writes is the greeting, and it goes to the new connection. -/
theorem mem_requests_link (s : Lossy) (l : Link) {r : Link × Method} :
    r ∈ (s.link l).requests ↔ r ∈ s.requests ∨
      (r.1 = l ∧ l ∉ s.down ∧ ⟨l.dst, r.2⟩ ∈ (s.node l.src).greeting l.dst) := by
  rw [link, commit, List.mem_append]
  refine or_congr Iff.rfl ?_
  rw [mem_issue]
  constructor
  · rintro ⟨dst, hcall, hclient, hdown⟩
    obtain rfl : dst = l.dst := (ServiceNode.mem_greeting.1 hcall).1
    rw [client_setClient, if_pos ⟨rfl, rfl⟩] at hclient
    obtain rfl : l = r.1 := Option.some.inj hclient
    exact ⟨rfl, hdown, hcall⟩
  · rintro ⟨rfl, hdown, hcall⟩
    refine ⟨r.1.dst, hcall, ?_, hdown⟩
    rw [client_setClient, if_pos ⟨rfl, rfl⟩]

theorem requests_removePeer (s : Lossy) (l : Link) :
    (s.removePeer l).requests = s.requests := by
  rw [removePeer, commit, ServiceNode.removePeer, issue, List.filterMap_nil, List.append_nil]
  rfl

/-- Where a request comes from: a method that a user calls, or the greeting of a new peer. -/
theorem mem_requests_origin (h : step nodes s a = some t) {r : Link × Method}
    (hr : r ∈ t.requests) : r ∈ s.requests ∨
      (∃ b x f, a = .traffic b ∧ b.method = some (x, f) ∧
        r ∈ s.issue x (f (s.node x)).calls) ∨
      (r.1 ∈ s.connecting ∧ ⟨r.1.dst, r.2⟩ ∈ (s.node r.1.src).greeting r.1.dst) := by
  cases acts_of_step h with
  | dial x y connected => exact Or.inl ((lookup_eq s x y connected).2.2.1 ▸ hr)
  | told connected r' pre post y hr' hm =>
    rw [(lookup_eq _ r'.1.dst y connected).2.2.1] at hr
    exact Or.inl (mem_of_mem_split hr' hr)
  | serve connected r' pre post hr' hm => exact Or.inl (mem_of_mem_split hr' hr)
  | user b x f hb =>
    rcases List.mem_append.1 hr with hr | hr
    · exact Or.inl hr
    · exact Or.inr (Or.inl ⟨b, x, f, rfl, hb, hr⟩)
  | link l pre post hl =>
    rcases (mem_requests_link _ l).1 hr with hr | ⟨rfl, -, hcall⟩
    · exact Or.inl hr
    · exact Or.inr (Or.inr ⟨by simp [hl], hcall⟩)
  | sever l => exact Or.inl hr
  | drop r' pre post hr' hdown => exact Or.inl (mem_of_mem_split hr' hr)
  | notice l hdown => exact Or.inl (requests_removePeer s l ▸ hr)

/-- A request stays, its connection is lost, or it is the one that is handled. -/
theorem mem_requests_step (h : step nodes s a = some t) {r : Link × Method}
    (hr : r ∈ s.requests) : r ∈ t.requests ∨ r.1 ∈ s.down ∨
      ∃ connected pre post, a = .traffic (.handle pre.length connected) ∧
        s.requests = pre ++ r :: post := by
  have hsplit : ∀ {r' : Link × Method} {pre post : List (Link × Method)},
      s.requests = pre ++ r' :: post → r ∈ pre ++ post ∨ r = r' := by
    intro r' pre post hr'
    rw [hr', List.mem_append, List.mem_cons] at hr
    rw [List.mem_append]
    tauto
  cases acts_of_step h with
  | dial x y connected => exact Or.inl ((lookup_eq s x y connected).2.2.1 ▸ hr)
  | told connected r' pre post y hr' hm =>
    rw [(lookup_eq _ r'.1.dst y connected).2.2.1]
    rcases hsplit hr' with hr | rfl
    · exact Or.inl hr
    · exact Or.inr (Or.inr ⟨connected, pre, post, rfl, hr'⟩)
  | serve connected r' pre post hr' hm =>
    rcases hsplit hr' with hr | rfl
    · exact Or.inl hr
    · exact Or.inr (Or.inr ⟨connected, pre, post, rfl, hr'⟩)
  | user b x f hb => exact Or.inl (List.mem_append_left _ hr)
  | link l pre post hl => exact Or.inl ((mem_requests_link _ l).2 (Or.inl hr))
  | sever l => exact Or.inl hr
  | drop r' pre post hr' hdown =>
    rcases hsplit hr' with hr | rfl
    · exact Or.inl hr
    · exact Or.inr (Or.inl hdown)
  | notice l hdown => exact Or.inl (requests_removePeer s l ▸ hr)

/-- A call that has connected stays so, or its peer is entered. -/
theorem mem_connecting_step (h : step nodes s a = some t) {l : Link} (hl : l ∈ s.connecting) :
    l ∈ t.connecting ∨ l.dst ∈ (t.node l.src).peers := by
  have hlookup : ∀ (u : Lossy) (x y : HostPortPair) (connected : Bool), l ∈ u.connecting →
      l ∈ (u.lookup x y connected).connecting := by
    intro u x y connected hl
    rcases lookup_cases u x y connected with ⟨heq, -⟩ | ⟨l', -, -, -, heq⟩
    · rwa [heq]
    · rw [heq]
      exact List.mem_append_left _ hl
  cases acts_of_step h with
  | dial x y connected => exact Or.inl (hlookup _ x y connected hl)
  | told connected r pre post y hr hm => exact Or.inl (hlookup _ r.1.dst y connected hl)
  | serve connected r pre post hr hm => exact Or.inl hl
  | user b x f hb => exact Or.inl hl
  | link l' pre post hl' =>
    rw [hl', List.mem_append, List.mem_cons] at hl
    rcases hl with hl | rfl | hl
    · exact Or.inl (List.mem_append_left _ hl)
    · exact Or.inr ((mem_peers_link _ l).2 (Or.inr ⟨rfl, rfl⟩))
    · exact Or.inl (List.mem_append_right _ hl)
  | sever l' => exact Or.inl hl
  | drop r pre post hr hdown => exact Or.inl hl
  | notice l' hdown => exact Or.inl hl

/-- A new call that has connected was begun by a user or by a request. -/
theorem mem_connecting_origin (h : step nodes s a = some t) {l : Link} (hl : l ∈ t.connecting) :
    l ∈ s.connecting ∨ a = .traffic (.addPeer l.src l.dst true) ∨
      ∃ r ∈ s.requests, r.1.dst = l.src ∧ r.2 = .addPeer l.dst := by
  have hlookup : ∀ (u : Lossy) (x y : HostPortPair) (connected : Bool),
      l ∈ (u.lookup x y connected).connecting →
        l ∈ u.connecting ∨ (l.src = x ∧ l.dst = y ∧ connected = true) := by
    intro u x y connected hl
    rcases lookup_cases u x y connected with ⟨heq, -⟩ | ⟨l', hx, hy, hc, heq⟩
    · exact Or.inl (heq ▸ hl)
    · rw [heq] at hl
      rcases List.mem_append.1 hl with hl | hl
      · exact Or.inl hl
      · rw [List.mem_singleton.1 hl]
        exact Or.inr ⟨hx, hy, hc⟩
  cases acts_of_step h with
  | dial x y connected =>
    rcases hlookup _ x y connected hl with hl | ⟨rfl, rfl, rfl⟩
    · exact Or.inl hl
    · exact Or.inr (Or.inl rfl)
  | told connected r pre post y hr hm =>
    rcases hlookup _ r.1.dst y connected hl with hl | ⟨hx, rfl, -⟩
    · exact Or.inl hl
    · exact Or.inr (Or.inr ⟨r, by simp [hr], hx.symm, hm⟩)
  | serve connected r pre post hr hm => exact Or.inl hl
  | user b x f hb => exact Or.inl hl
  | link l' pre post hl' => exact Or.inl (mem_of_mem_split hl' hl)
  | sever l' => exact Or.inl hl
  | drop r pre post hr hdown => exact Or.inl hl
  | notice l' hdown => exact Or.inl hl

theorem mem_down_origin (h : step nodes s a = some t) {l : Link} (hl : l ∈ t.down) :
    l ∈ s.down ∨ a = .sever l := by
  cases acts_of_step h with
  | dial x y connected => exact Or.inl ((lookup_eq s x y connected).2.2.2 ▸ hl)
  | told connected r pre post y hr hm =>
    exact Or.inl ((lookup_eq { s with requests := pre ++ post } r.1.dst y connected).2.2.2 ▸ hl)
  | sever l' =>
    rcases List.mem_cons.1 hl with rfl | hl
    · exact Or.inr rfl
    · exact Or.inl hl
  | serve | user | link | drop | notice => exact Or.inl hl

/-! ### Who hears of whom -/

/-- `y` is a peer of `x`, is named in a request for `x`, or `x` has connected to it. -/
def Hears (s : Lossy) (x y : HostPortPair) : Prop :=
  y ∈ (s.node x).peers ∨ (∃ r ∈ s.requests, r.1.dst = x ∧ r.2 = .addPeer y) ∨
    ∃ l ∈ s.connecting, l.src = x ∧ l.dst = y

/-- The links that the users asked for. -/
def Asked (as : List LossyAction) (x y : HostPortPair) : Prop :=
  .traffic (.addPeer x y true) ∈ as

/-- Where an address is heard of: from a user, or from the greeting of a node that has connected. -/
theorem Hears.origin {x y : HostPortPair} (hk : Hears t x y) (h : step nodes s a = some t) :
    Hears s x y ∨ a = .traffic (.addPeer x y true) ∨
      ∃ l ∈ s.connecting, x = l.dst ∧
        (y = (s.node l.src).addr ∨ (y ∈ (s.node l.src).peers ∧ y ≠ l.dst)) := by
  rcases hk with hy | ⟨r, hr, rfl, hm⟩ | ⟨l, hl, rfl, rfl⟩
  · rcases mem_peers_origin h hy with hy | ⟨l, pre, post, hl, rfl, rfl, -⟩
    · exact Or.inl (Or.inl hy)
    · exact Or.inl (Or.inr (Or.inr ⟨l, by simp [hl], rfl, rfl⟩))
  · rcases mem_requests_origin h hr with hr | ⟨b, x, f, rfl, hb, hr⟩ | ⟨hl, hcall⟩
    · exact Or.inl (Or.inr (Or.inl ⟨r, hr, rfl, hm⟩))
    · obtain ⟨dst, hcall, -⟩ := mem_issue.1 hr
      exact absurd hm (((TrafficAction.method_keeps hb (s.node x)).2.2 _ hcall).2 y)
    · obtain ⟨-, hmethod⟩ := ServiceNode.mem_greeting.1 hcall
      simp only [hm, Method.addPeer.injEq] at hmethod
      refine Or.inr (Or.inr ⟨r.1, hl, rfl, ?_⟩)
      rcases hmethod with rfl | ⟨p, hp, hne, rfl⟩ | ⟨g, n, -, hmethod⟩
      · exact Or.inl rfl
      · exact Or.inr ⟨hp, hne⟩
      · cases hmethod
  · rcases mem_connecting_origin h hl with hl | rfl | ⟨r, hr, hdst, hm⟩
    · exact Or.inl (Or.inr (Or.inr ⟨l, hl, rfl, rfl⟩))
    · exact Or.inr (Or.inl rfl)
    · exact Or.inl (Or.inr (Or.inl ⟨r, hr, hdst, hm⟩))

/-! ### Nodes that are spared -/

section Spared

variable (S : HostPortPair → Prop)

/-- A connection that is tried between two nodes of `S` is established, none of them is lost, and no
user names the address of the node itself. -/
def Spares (s : Lossy) : LossyAction → Prop
  | .traffic (.addPeer x y connected) => S x → S y → x ≠ y ∧ connected = true
  | .traffic (.handle i connected) =>
    ∀ r, s.requests[i]? = some r → ∀ y, r.2 = .addPeer y → S r.1.dst → S y → connected = true
  | .sever l => S l.src → ¬ S l.dst
  | _ => True

/-- What the nodes of `S` know of each other; requests of other nodes do not count. -/
def KnowsOf (s : Lossy) (x y : HostPortPair) : Prop :=
  S x ∧ S y ∧ (y ∈ (s.node x).peers ∨
    (∃ r ∈ s.requests, S r.1.src ∧ r.1.dst = x ∧ r.2 = .addPeer y) ∨
      ∃ l ∈ s.connecting, l.src = x ∧ l.dst = y)

/-- The invariant of a run that spares the nodes of `S`. -/
structure Spared (as : List LossyAction) (s : Lossy) : Prop where
  addr_eq : ∀ x, (s.node x).addr = x
  stored : Stored s
  up : ∀ l ∈ s.down, S l.src → ¬ S l.dst
  ne : ∀ x, S x → ¬ s.Hears x x
  sound : ∀ x y, s.Hears x y → EqvGen (Asked as) x y
  acquaints : Acquaints (fun x y => S x ∧ S y ∧ Asked as x y)
    (fun x y => S x ∧ S y ∧ y ∈ (s.node x).peers) (s.KnowsOf S)

end Spared

variable {S : HostPortPair → Prop} {as : List LossyAction}

theorem spared_start : Spared S [] start := by
  have hpeers : ∀ x y, y ∉ (start.node x).peers := by simp [start, ServiceNode.create]
  have hhears : ∀ x y, ¬ start.Hears x y := by
    simp [Hears, start, ServiceNode.create]
  refine ⟨fun x => rfl, fun x y hy => absurd hy (hpeers x y),
    fun l hl => absurd hl List.not_mem_nil, fun x _ => hhears x x,
    fun x y h => absurd h (hhears x y), .init ?_ ?_⟩
  · exact fun x y h => List.not_mem_nil h.2.2
  · exact fun x y h => hpeers x y h.2.2

/-- The beginning of `RPCAddPeer` makes the address known, if the connection succeeds. -/
theorem knowsOf_lookup {u : Lossy} {x y : HostPortPair} (hx : S x) (hy : S y) :
    KnowsOf S (u.lookup x y true) x y := by
  refine ⟨hx, hy, ?_⟩
  rcases lookup_cases u x y true with ⟨heq, hpeer⟩ | ⟨l, hsrc, hdst, -, heq⟩
  · rw [heq]
    exact Or.inl (hpeer rfl)
  · rw [heq]
    exact Or.inr (Or.inr ⟨l, List.mem_append_right _ List.mem_cons_self, hsrc, hdst⟩)

/-- The nodes of `S` do not forget each other. -/
theorem Spared.knowsOf_step (h : Spared S as s) (ha : Spares S s a)
    (hst : Lossy.step nodes s a = some t) {x y : HostPortPair} (hk : KnowsOf S s x y) :
    KnowsOf S t x y := by
  obtain ⟨hx, hy, hpeer | ⟨r, hr, hsrc, rfl, hm⟩ | ⟨l, hl, rfl, rfl⟩⟩ := hk
  · rcases mem_peers_step hst hpeer with hpeer | ⟨l, hl, rfl, rfl⟩
    · exact ⟨hx, hy, Or.inl hpeer⟩
    · exact absurd hy (h.up l hl hx)
  · rcases mem_requests_step hst hr with hr | hdown | ⟨connected, pre, post, rfl, hrequests⟩
    · exact ⟨hx, hy, Or.inr (Or.inl ⟨r, hr, hsrc, rfl, hm⟩)⟩
    · exact absurd hx (h.up r.1 hdown hsrc)
    · have hget : s.requests[pre.length]? = some r := by simp [hrequests]
      obtain rfl : connected = true := ha r hget y hm hx hy
      simp only [Lossy.step, trafficStep, hget, Option.bind_some, handle, hm,
        Option.ite_none_right_eq_some, Option.some.injEq] at hst
      obtain ⟨-, rfl⟩ := hst
      exact knowsOf_lookup hx hy
  · rcases mem_connecting_step hst hl with hl | hpeer
    · exact ⟨hx, hy, Or.inr (Or.inr ⟨l, hl, rfl, rfl⟩)⟩
    · exact ⟨hx, hy, Or.inl hpeer⟩

/-- A new peer of a node of `S` is told of the node and of its other peers. -/
theorem Spared.acquaints_step (h : Spared S as s) (ha : Spares S s a)
    (hst : Lossy.step nodes s a = some t) :
    Acquaints (fun x y => S x ∧ S y ∧ Asked (as ++ [a]) x y)
      (fun x y => S x ∧ S y ∧ y ∈ (t.node x).peers) (t.KnowsOf S) := by
  refine h.acquaints.step (fun x y hk => h.knowsOf_step ha hst hk) ?_ ?_
  · rintro x y ⟨hx, hy, hxy⟩
    rcases List.mem_append.1 hxy with hxy | hxy
    · exact Or.inl ⟨hx, hy, hxy⟩
    · obtain rfl := List.mem_singleton.1 hxy
      simp only [Lossy.step, trafficStep, Option.ite_none_right_eq_some, Option.some.injEq] at hst
      obtain ⟨-, rfl⟩ := hst
      exact Or.inr (knowsOf_lookup hx hy)
  · rintro x y ⟨hx, hy, hpeer⟩
    rcases mem_peers_origin hst hpeer with hpeer' | ⟨l, pre, post, hl, rfl, rfl, rfl⟩
    · exact Or.inl ⟨hx, hy, hpeer'⟩
    · have hup : l ∉ s.down := fun hdown => h.up l hdown hx hy
      have hgreets : ∀ z, S z → ⟨l.dst, .addPeer z⟩ ∈ (s.node l.src).greeting l.dst →
          KnowsOf S ({ s with connecting := pre ++ post }.link l) l.dst z := fun z hz hcall =>
        ⟨hy, hz, Or.inr (Or.inl ⟨(l, .addPeer z),
          (mem_requests_link _ l).2 (Or.inr ⟨rfl, hup, hcall⟩), hx, rfl, rfl⟩)⟩
      refine Or.inr ⟨⟨hx, hy, Or.inl hpeer⟩, ?_, ?_⟩
      · refine hgreets l.src hx (ServiceNode.mem_greeting.2 ⟨rfl, Or.inl ?_⟩)
        rw [h.addr_eq]
      · rintro z ⟨-, hz, hpeer'⟩ hne
        rcases (mem_peers_link _ l).1 hpeer' with hpeer' | ⟨-, rfl⟩
        · exact hgreets z hz (ServiceNode.mem_greeting.2
            ⟨rfl, Or.inr (Or.inl ⟨z, hpeer', hne, rfl⟩)⟩)
        · exact absurd rfl hne

/-- Every step that spares the nodes of `S` keeps the invariant. -/
theorem Spared.step (h : Spared S as s) (ha : Spares S s a)
    (hst : Lossy.step nodes s a = some t) : Spared S (as ++ [a]) t := by
  have hconn : ∀ x y, Hears s x y → EqvGen (Asked (as ++ [a])) x y := fun x y hk =>
    EqvGen.mono (fun x y => List.mem_append_left [a]) x y (h.sound x y hk)
  refine ⟨fun x => (addr_step hst x).trans (h.addr_eq x), h.stored.step hst, fun l hl => ?_,
    fun x hx hk => ?_, fun x y hk => ?_, h.acquaints_step ha hst⟩
  · rcases mem_down_origin hst hl with hl | rfl
    · exact h.up l hl
    · exact ha
  · rcases hk.origin hst with hk | rfl | ⟨l, hl, hdst, hsrc | ⟨-, hne⟩⟩
    · exact h.ne x hx hk
    · exact (ha hx hx).1 rfl
    · rw [h.addr_eq] at hsrc
      exact h.ne x hx (Or.inr (Or.inr ⟨l, hl, hsrc.symm, hdst.symm⟩))
    · exact hne hdst
  · rcases hk.origin hst with hk | rfl | ⟨l, hl, rfl, rfl | ⟨hy, -⟩⟩
    · exact hconn x y hk
    · exact .rel x y (List.mem_append_right as List.mem_cons_self)
    · rw [h.addr_eq]
      exact .symm _ _ (hconn l.src l.dst (Or.inr (Or.inr ⟨l, hl, rfl, rfl⟩)))
    · have hl' := hconn l.src l.dst (Or.inr (Or.inr ⟨l, hl, rfl, rfl⟩))
      exact .trans _ _ _ (.symm _ _ hl') (hconn l.src y (Or.inl hy))

theorem spared_of_exec (hrun : exec (Lossy.step nodes) start as = some s)
    (hspares : AllSteps (Lossy.step nodes) (Spares S) start as) : Spared S as s :=
  exec_invariant (fun as s => Spared S as s) spared_start
    (fun _ _ _ _ _ hs ha hst => hs.step ha hst) hspares hrun

/-- Nothing is in flight between the nodes of `S`, and no `RPCAddPeer` of one of them by another is
between its two parts. -/
def AtRest (S : HostPortPair → Prop) (s : Lossy) : Prop :=
  (∀ r ∈ s.requests, S r.1.src → ¬ S r.1.dst) ∧ ∀ l ∈ s.connecting, S l.src → ¬ S l.dst

theorem AtRest.mem_peers (h : AtRest S s) {x y : HostPortPair} (hk : KnowsOf S s x y) :
    S x ∧ S y ∧ y ∈ (s.node x).peers := by
  obtain ⟨hx, hy, hpeer | ⟨r, hr, hsrc, rfl, -⟩ | ⟨l, hl, rfl, rfl⟩⟩ := hk
  · exact ⟨hx, hy, hpeer⟩
  · exact absurd hx (h.1 r hr hsrc)
  · exact absurd hy (h.2 l hl hx)

/-- **Discovery despite losses.** Take any run of the mesh in which connections are lost and fail,
and any nodes `S` such that connections between two of them succeed and are not lost and no user
gives one of them its own address. None of them has itself as a peer. Peers are nodes that the
`addPeer` calls of the users connect. And when nothing is in flight between the nodes of `S`, two of
them are peers if calls for nodes of `S` at nodes of `S` connect them, whatever happens to the
others.

Source: `src/rpc/service_node.cc`, lines 189–247. -/
theorem discovery_spared (nodes : Std.ExtTreeSet HostPortPair) (S : HostPortPair → Prop)
    (as : List LossyAction) (s : Lossy) (hrun : exec (step nodes) start as = some s)
    (hspares : AllSteps (step nodes) (Spares S) start as) :
    (∀ x, S x → x ∉ (s.node x).peers) ∧
    (∀ x, ∀ y ∈ (s.node x).peers, EqvGen (Asked as) x y) ∧
    (AtRest S s → ∀ x y, x ≠ y → EqvGen (fun x y => S x ∧ S y ∧ Asked as x y) x y →
      y ∈ (s.node x).peers) := by
  have h := spared_of_exec hrun hspares
  refine ⟨fun x hx hpeer => h.ne x hx (Or.inl hpeer), fun x y hy => h.sound x y (Or.inl hy),
    fun hrest x y hne hxy => ?_⟩
  have hpeer := h.acquaints.peer_of_asked (fun x y hk => hrest.mem_peers hk) hxy
  exact (hpeer.resolve_left hne).2.2

/-- Three nodes. -/
def threeNodes : Std.ExtTreeSet HostPortPair :=
  {⟨.ofString "a", 1⟩, ⟨.ofString "b", 1⟩, ⟨.ofString "c", 1⟩}

/-- The first node connects to the third, loses the connection before it is greeted and notices that
after a member was added. Then it connects to the second node. -/
def lostThenLinked : List LossyAction :=
  [.traffic (.addPeer ⟨.ofString "a", 1⟩ ⟨.ofString "c", 1⟩ true), .traffic (.link 0),
    .sever ⟨0, ⟨.ofString "a", 1⟩, ⟨.ofString "c", 1⟩⟩, .drop 0,
    .traffic (.addToGroup ⟨.ofString "a", 1⟩ [103] [110]),
    .notice ⟨0, ⟨.ofString "a", 1⟩, ⟨.ofString "c", 1⟩⟩,
    .traffic (.addPeer ⟨.ofString "a", 1⟩ ⟨.ofString "b", 1⟩ true), .traffic (.link 0),
    .traffic (.handle 1 true), .traffic (.handle 0 true), .traffic (.link 0),
    .traffic (.handle 0 true), .traffic (.handle 0 true)]

/-- The first two nodes. -/
def FirstTwo (x : HostPortPair) : Prop := x = ⟨.ofString "a", 1⟩ ∨ x = ⟨.ofString "b", 1⟩

theorem spares_lostThenLinked : ∀ a ∈ lostThenLinked, ∀ s, Spares FirstTwo s a := by
  have hac : ¬ FirstTwo ⟨.ofString "c", 1⟩ := by
    rw [FirstTwo]
    decide
  have hab : (⟨.ofString "a", 1⟩ : HostPortPair) ≠ ⟨.ofString "b", 1⟩ := by decide
  intro a ha s
  simp only [lostThenLinked, List.mem_cons, List.not_mem_nil, or_false] at ha
  rcases ha with rfl | rfl | rfl | rfl | rfl | rfl | rfl | rfl | rfl | rfl | rfl | rfl | rfl <;>
    simp [Spares, hac, hab]

theorem discovery_spared_lostThenLinked :
    ∃ s, exec (step threeNodes) start lostThenLinked = some s ∧ AtRest FirstTwo s ∧
      (s.node ⟨.ofString "a", 1⟩).peers.toList = [⟨.ofString "b", 1⟩] ∧
      (⟨.ofString "a", 1⟩ : HostPortPair) ∈ (s.node ⟨.ofString "b", 1⟩).peers := by
  have hend : (exec (step threeNodes) start lostThenLinked).map (fun s =>
      (s.requests, s.connecting, (s.node ⟨.ofString "a", 1⟩).peers.toList)) =
        some ([], [], [⟨.ofString "b", 1⟩]) := by
    decide +kernel
  obtain ⟨s, hs, hstate⟩ := Option.map_eq_some_iff.1 hend
  simp only [Prod.mk.injEq] at hstate
  obtain ⟨hrequests, hconnecting, hpeers⟩ := hstate
  have hrest : AtRest FirstTwo s := by
    rw [AtRest, hrequests, hconnecting]
    exact ⟨fun r hr => absurd hr List.not_mem_nil, fun l hl => absurd hl List.not_mem_nil⟩
  refine ⟨s, hs, hrest, hpeers, ?_⟩
  obtain ⟨-, -, hmesh⟩ := discovery_spared threeNodes FirstTwo lostThenLinked s hs
    (.of_forall spares_lostThenLinked start)
  refine hmesh hrest ⟨.ofString "b", 1⟩ ⟨.ofString "a", 1⟩ (by decide) ?_
  exact .symm _ _ (.rel _ _ ⟨Or.inl rfl, Or.inr rfl, by simp [Asked, lostThenLinked]⟩)

/-! ### Members -/

section Members

variable {g n : Str}

/-- The step for the action `a` adds the member at the node `x`. -/
def AddsAt (s : Lossy) (a : LossyAction) (g n : Str) (x : HostPortPair) : Prop :=
  a = .traffic (.addToGroup x g n) ∨ ∃ i connected r, a = .traffic (.handle i connected) ∧
    s.requests[i]? = some r ∧ r.1.dst = x ∧ r.2 = .addToGroup g n

theorem addsAt_handle {connected : Bool} {r : Link × Method} {pre post : List (Link × Method)}
    (hr : s.requests = pre ++ r :: post) {x : HostPortPair} :
    AddsAt s (.traffic (.handle pre.length connected)) g n x ↔
      r.1.dst = x ∧ r.2 = .addToGroup g n := by
  have hget : s.requests[pre.length]? = some r := by simp [hr]
  constructor
  · rintro (h | ⟨i, c, r', h, hr', hdst, hm⟩)
    · cases h
    · obtain ⟨rfl, -⟩ := TrafficAction.handle.inj (LossyAction.traffic.inj h)
      obtain rfl : r = r' := Option.some.inj (hget.symm.trans hr')
      exact ⟨hdst, hm⟩
  · rintro ⟨hdst, hm⟩
    exact Or.inr ⟨pre.length, connected, r, rfl, hget, hdst, hm⟩

theorem not_addsAt (hadd : ∀ x, a ≠ .traffic (.addToGroup x g n))
    (hhandle : ∀ i connected, a ≠ .traffic (.handle i connected)) (x : HostPortPair) :
    ¬ AddsAt s a g n x := by
  rintro (ha | ⟨i, connected, r, ha, -⟩)
  · exact hadd x ha
  · exact hhandle i connected ha

/-- The members of the nodes after a step that does not remove. -/
theorem isMember_step (h : step nodes s a = some t)
    (ha : ∀ x, a ≠ .traffic (.removeFromGroup x g n))
    (hkept : ∀ r ∈ s.requests, r.2 ≠ .removeFromGroup g n) (x : HostPortPair) :
    (t.node x).IsMember g n ↔ (s.node x).IsMember g n ∨ AddsAt s a g n x := by
  have hupdate : ∀ {y : HostPortPair} {m : ServiceNode},
      (m.IsMember g n ↔ (s.node y).IsMember g n ∨ AddsAt s a g n y) →
      (∀ z, AddsAt s a g n z → z = y) →
      ((Function.update s.node y m x).IsMember g n ↔
        (s.node x).IsMember g n ∨ AddsAt s a g n x) := by
    intro y m hm honly
    rw [Function.update_apply]
    split_ifs with hx
    · rw [hx, hm]
    · exact ⟨Or.inl, fun hor => hor.elim id fun hadds => absurd (honly x hadds) hx⟩
  have hnone : t.node = s.node → (∀ z, ¬ AddsAt s a g n z) →
      ((t.node x).IsMember g n ↔ (s.node x).IsMember g n ∨ AddsAt s a g n x) := by
    intro hnode hnot
    rw [hnode, or_iff_left (hnot x)]
  cases acts_of_step h with
  | dial y z connected =>
    exact hnone (lookup_eq s y z connected).1 (not_addsAt (by simp) (by simp))
  | told connected r pre post y hr hm =>
    refine hnone (lookup_eq _ r.1.dst y connected).1 fun z hadds => ?_
    rw [addsAt_handle hr, hm] at hadds
    exact absurd hadds.2 (by simp)
  | serve connected r pre post hr hm =>
    have hmem : r ∈ s.requests := by simp [hr]
    refine hupdate ?_ fun z hadds => ((addsAt_handle hr).1 hadds).1.symm
    rw [Traffic.isMember_serve hm (hkept r hmem), addsAt_handle hr, and_iff_right rfl]
  | user b y f hb =>
    have hadds : ∀ z, AddsAt s (.traffic b) g n z ↔ z = y ∧ b = .addToGroup y g n := by
      intro z
      constructor
      · rintro (h | ⟨i, c, r, h, -⟩)
        · obtain rfl := LossyAction.traffic.inj h
          obtain ⟨rfl, -⟩ := Prod.mk.inj (Option.some.inj hb)
          exact ⟨rfl, rfl⟩
        · obtain rfl := LossyAction.traffic.inj h
          cases hb
      · rintro ⟨rfl, rfl⟩
        exact Or.inl rfl
    refine hupdate ?_ fun z hz => ((hadds z).1 hz).1
    rw [Traffic.isMember_method hb fun hb' => ha y (congrArg _ hb'), hadds, and_iff_right rfl]
  | link l pre post hl =>
    have hnot := not_addsAt (s := s) (g := g) (n := n)
      (show ∀ x, LossyAction.traffic (.link pre.length) ≠ .traffic (.addToGroup x g n) by simp)
      (by simp)
    exact hupdate (or_iff_left (hnot l.src)).symm fun z hz => absurd hz (hnot z)
  | sever l => exact hnone rfl (not_addsAt (by simp) (by simp))
  | drop r pre post hr hdown => exact hnone rfl (not_addsAt (by simp) (by simp))
  | notice l hdown =>
    have hnot := not_addsAt (s := s) (g := g) (n := n)
      (show ∀ x, LossyAction.notice l ≠ .traffic (.addToGroup x g n) by simp) (by simp)
    exact hupdate (or_iff_left (hnot l.src)).symm fun z hz => absurd hz (hnot z)

/-- A request of a node of `S` to add the member is on its way to the node `x` of `S`. -/
def Coming (S : HostPortPair → Prop) (s : Lossy) (g n : Str) (x : HostPortPair) : Prop :=
  ∃ r ∈ s.requests, S r.1.src ∧ S r.1.dst ∧ r.1.dst = x ∧ r.2 = .addToGroup g n

/-- The member `n` of the group `g` after the actions `as`: nobody removes it, it reaches the peers
in `S` of the nodes in `S` where users added it, and it is nowhere else than at the nodes that the
users connect to those where they added it. -/
structure Spread (S : HostPortPair → Prop) (as : List LossyAction) (g n : Str) (s : Lossy) :
    Prop where
  kept : ∀ r ∈ s.requests, r.2 ≠ .removeFromGroup g n
  reaches : Reaches (fun x y => S x ∧ S y ∧ y ∈ (s.node x).peers)
    (fun x => .traffic (.addToGroup x g n) ∈ as) (fun x => (s.node x).IsMember g n)
    (s.Coming S g n)
  sound : ∀ x, (s.node x).IsMember g n ∨
    (∃ r ∈ s.requests, r.1.dst = x ∧ r.2 = .addToGroup g n) →
      ∃ o, .traffic (.addToGroup o g n) ∈ as ∧ EqvGen (Asked as) o x

theorem spread_start : Spread S [] g n start := by
  have hrequests : ∀ r, r ∉ start.requests := fun r => List.not_mem_nil
  have hmember : ∀ x, ¬ (start.node x).IsMember g n := fun x => by
    rw [ServiceNode.not_isMember_iff]
    exact ServiceNode.memberCount_create x g n
  refine ⟨fun r hr => absurd hr (hrequests r), ⟨fun x hx => absurd hx List.not_mem_nil,
    fun x y hx => absurd hx List.not_mem_nil⟩, ?_⟩
  rintro x (hx | ⟨r, hr, -⟩)
  · exact absurd hx (hmember x)
  · exact absurd hr (hrequests r)

/-- What a method that a user calls at `x` writes goes to connections from `x` to its peers. -/
theorem Stored.mem_issue (h : Stored s) {b : TrafficAction} {x : HostPortPair}
    {f : ServiceNode → Effect} (hb : b.method = some (x, f)) {r : Link × Method}
    (hr : r ∈ s.issue x (f (s.node x)).calls) :
    r.1.src = x ∧ r.1.dst ∈ (s.node x).peers ∧
      ((∃ g n, b = .addToGroup x g n ∧ r.2 = .addToGroup g n) ∨
        ∃ g n, b = .removeFromGroup x g n ∧ r.2 = .removeFromGroup g n) := by
  obtain ⟨dst, hcall, hclient, -⟩ := Lossy.mem_issue.1 hr
  obtain ⟨hpeer, hkind⟩ := Traffic.mem_calls_method hb hcall
  obtain ⟨l, hl, hsrc, hdst⟩ := h x dst hpeer
  obtain rfl : r.1 = l := Option.some.inj (hclient.symm.trans hl)
  exact ⟨hsrc, hdst.symm ▸ hpeer, hkind⟩

/-- No request to remove the member is written. -/
theorem Spread.kept_step (h : Spread S as g n s) (hstored : Stored s)
    (ha : ∀ x, a ≠ .traffic (.removeFromGroup x g n)) (hst : Lossy.step nodes s a = some t) :
    ∀ r ∈ t.requests, r.2 ≠ .removeFromGroup g n := by
  intro r hr hm
  rcases mem_requests_origin hst hr with hr | ⟨b, x, f, rfl, hb, hr⟩ | ⟨hl, hcall⟩
  · exact h.kept r hr hm
  · obtain ⟨-, -, ⟨g', n', rfl, hm'⟩ | ⟨g', n', rfl, hm'⟩⟩ := hstored.mem_issue hb hr
    · cases hm'.symm.trans hm
    · obtain ⟨rfl, rfl⟩ := Method.removeFromGroup.inj (hm'.symm.trans hm)
      exact ha x rfl
  · rcases (ServiceNode.mem_greeting.1 hcall).2 with hcall | ⟨p, -, -, hcall⟩ | ⟨g', n', -, hcall⟩
    all_goals cases hm.symm.trans hcall

/-- Where a member or a request to add it comes from. -/
theorem Spread.sound_step (h : Spread S as g n s) (hspared : Spared S as s)
    (ha : ∀ x, a ≠ .traffic (.removeFromGroup x g n)) (hst : Lossy.step nodes s a = some t)
    (x : HostPortPair) (hx : (t.node x).IsMember g n ∨
      ∃ r ∈ t.requests, r.1.dst = x ∧ r.2 = .addToGroup g n) :
    ∃ o, .traffic (.addToGroup o g n) ∈ as ++ [a] ∧ EqvGen (Asked (as ++ [a])) o x := by
  have hmono : ∀ y z, EqvGen (Asked as) y z → EqvGen (Asked (as ++ [a])) y z := fun y z =>
    EqvGen.mono (fun x y => List.mem_append_left [a]) y z
  have hold : ∀ z, (s.node z).IsMember g n ∨
      (∃ r ∈ s.requests, r.1.dst = z ∧ r.2 = .addToGroup g n) →
      ∃ o, .traffic (.addToGroup o g n) ∈ as ++ [a] ∧ EqvGen (Asked (as ++ [a])) o z := by
    intro z hz
    obtain ⟨o, ho, hoz⟩ := h.sound z hz
    exact ⟨o, List.mem_append_left _ ho, hmono o z hoz⟩
  have hnew : ∀ z, a = .traffic (.addToGroup z g n) →
      .traffic (.addToGroup z g n) ∈ as ++ [a] := fun z hz =>
    hz ▸ List.mem_append_right as List.mem_cons_self
  rcases hx with hx | ⟨r, hr, rfl, hm⟩
  · rcases (isMember_step hst ha h.kept x).1 hx with hx | hadds | ⟨i, c, r, -, hr, hdst, hm⟩
    · exact hold x (Or.inl hx)
    · exact ⟨x, hnew x hadds, .refl x⟩
    · exact hold x (Or.inr ⟨r, List.mem_of_getElem? hr, hdst, hm⟩)
  · rcases mem_requests_origin hst hr with hr | ⟨b, z, f, rfl, hb, hr⟩ | ⟨hl, hcall⟩
    · exact hold r.1.dst (Or.inr ⟨r, hr, rfl, hm⟩)
    · obtain ⟨hsrc, hpeer, ⟨g', n', rfl, hm'⟩ | ⟨g', n', rfl, hm'⟩⟩ :=
        hspared.stored.mem_issue hb hr
      · obtain ⟨rfl, rfl⟩ := Method.addToGroup.inj (hm'.symm.trans hm)
        exact ⟨z, hnew z rfl, hmono z _ (hspared.sound z _ (Or.inl hpeer))⟩
      · cases hm'.symm.trans hm
    · rcases (ServiceNode.mem_greeting.1 hcall).2 with hcall | ⟨p, -, -, hcall⟩ |
        ⟨g', n', hmember, hcall⟩
      · cases hm.symm.trans hcall
      · cases hm.symm.trans hcall
      · obtain ⟨rfl, rfl⟩ := Method.addToGroup.inj (hm.symm.trans hcall)
        obtain ⟨o, ho, hos⟩ := hold r.1.src (Or.inl hmember)
        have hlink := hspared.sound r.1.src r.1.dst (Or.inr (Or.inr ⟨r.1, hl, rfl, rfl⟩))
        exact ⟨o, ho, hos.trans _ _ _ (hmono _ _ hlink)⟩

/-- A user who adds a member at a node of `S` sends it to its peers in `S`. -/
theorem Spared.coming_of_addToGroup (h : Spared S as s) {x y : HostPortPair}
    (hst : Lossy.step nodes s (.traffic (.addToGroup x g n)) = some t) (hx : S x) (hy : S y)
    (hpeer : y ∈ (t.node x).peers) : t.Coming S g n y := by
  simp only [Lossy.step, trafficStep, Option.ite_none_right_eq_some, Option.some.injEq] at hst
  obtain ⟨-, rfl⟩ := hst
  simp only [commit, Function.update_self, ServiceNode.peers_addToGroup] at hpeer
  obtain ⟨l, hl, rfl, rfl⟩ := h.stored x y hpeer
  refine ⟨(l, .addToGroup g n), List.mem_append_right _ ?_, hx, hy, rfl, rfl⟩
  refine Lossy.mem_issue.2 ⟨l.dst, ?_, hl, fun hdown => h.up l hdown hx hy⟩
  rw [ServiceNode.calls_addToGroup, ServiceNode.mem_notify]
  exact ⟨hpeer, rfl⟩

/-- A new peer in `S` is told of the members. -/
theorem Spared.coming_of_link (h : Spared S as s) (hst : Lossy.step nodes s a = some t)
    {x y : HostPortPair} (hx : S x) (hy : S y) (hpeer : y ∈ (t.node x).peers) :
    y ∈ (s.node x).peers ∨ ((s.node x).IsMember g n → t.Coming S g n y) := by
  rcases mem_peers_origin hst hpeer with hpeer | ⟨l, pre, post, hl, rfl, rfl, rfl⟩
  · exact Or.inl hpeer
  · refine Or.inr fun hmember => ⟨(l, .addToGroup g n), (mem_requests_link _ l).2 (Or.inr ?_), hx,
      hy, rfl, rfl⟩
    refine ⟨rfl, fun hdown => h.up l hdown hx hy, ?_⟩
    exact ServiceNode.mem_greeting.2 ⟨rfl, Or.inr (Or.inr ⟨g, n, hmember, rfl⟩)⟩

/-- Every step that spares the nodes of `S` and does not remove the member keeps the invariant. -/
theorem Spread.step (h : Spread S as g n s) (hspared : Spared S as s)
    (ha : ∀ x, a ≠ .traffic (.removeFromGroup x g n)) (hst : Lossy.step nodes s a = some t) :
    Spread S (as ++ [a]) g n t := by
  have hmember := isMember_step hst ha h.kept
  refine ⟨h.kept_step hspared.stored ha hst, h.reaches.step
    (fun x hx => (hmember x).2 (Or.inl hx)) ?_ ?_ ?_, h.sound_step hspared ha hst⟩
  · rintro x ⟨r, hr, hsrc, hdst, rfl, hm⟩
    rcases mem_requests_step hst hr with hr | hdown | ⟨connected, pre, post, rfl, hr⟩
    · exact Or.inr ⟨r, hr, hsrc, hdst, rfl, hm⟩
    · exact absurd hdst (hspared.up r.1 hdown hsrc)
    · exact Or.inl ((hmember r.1.dst).2 (Or.inr ((addsAt_handle hr).2 ⟨rfl, hm⟩)))
  · intro x hx
    rcases List.mem_append.1 hx with hx | hx
    · exact Or.inl hx
    · obtain rfl := List.mem_singleton.1 hx
      refine Or.inr ⟨(hmember x).2 (Or.inr (Or.inl rfl)), fun y hy => Or.inr ?_⟩
      exact hspared.coming_of_addToGroup hst hy.1 hy.2.1 hy.2.2
  · rintro x y ⟨hx, hy, hpeer⟩
    exact (hspared.coming_of_link hst hx hy hpeer).imp (fun hpeer => ⟨hx, hy, hpeer⟩)
      fun hcoming hmember => Or.inr (hcoming hmember)

theorem spread_of_exec (hrun : exec (Lossy.step nodes) start as = some s)
    (hspares : AllSteps (Lossy.step nodes) (Spares S) start as)
    (hkeeps : ∀ x, .traffic (.removeFromGroup x g n) ∉ as) : Spread S as g n s := by
  have hboth : (∀ x, .traffic (.removeFromGroup x g n) ∉ as) →
      Spared S as s ∧ Spread S as g n s := by
    refine exec_invariant (fun as s => (∀ x, .traffic (.removeFromGroup x g n) ∉ as) →
      Spared S as s ∧ Spread S as g n s) (fun _ => ⟨spared_start, spread_start⟩) ?_ hspares hrun
    intro as s a t _ ih ha hst hkeeps
    obtain ⟨hspared, hspread⟩ := ih fun x hx => hkeeps x (List.mem_append_left _ hx)
    refine ⟨hspared.step ha hst, hspread.step hspared (fun x hx => ?_) hst⟩
    exact hkeeps x (hx ▸ List.mem_append_right _ List.mem_cons_self)
  exact (hboth hkeeps).2

/-- **Members despite losses.** Take any run of the mesh in which connections are lost and fail and
nobody removes the member `n` of the group `g`, and nodes `S` as in `discovery_spared`. The member
is at no other nodes than those that the users' `addPeer` calls connect to a node where a user has
added it. And when nothing is in flight between the nodes of `S`, it is at every node that the calls
for nodes of `S` at nodes of `S` connect to one where it was added.

Source: `src/rpc/service_node.cc`, lines 110–136 and 189–264. -/
theorem members_spared (nodes : Std.ExtTreeSet HostPortPair) (S : HostPortPair → Prop)
    (as : List LossyAction) (s : Lossy) (g n : Str)
    (hrun : exec (step nodes) start as = some s)
    (hspares : AllSteps (step nodes) (Spares S) start as)
    (hkeeps : ∀ x, .traffic (.removeFromGroup x g n) ∉ as) :
    (∀ x, (s.node x).IsMember g n →
      ∃ o, .traffic (.addToGroup o g n) ∈ as ∧ EqvGen (Asked as) o x) ∧
    (AtRest S s → ∀ o x, .traffic (.addToGroup o g n) ∈ as →
      EqvGen (fun x y => S x ∧ S y ∧ Asked as x y) o x → (s.node x).IsMember g n) := by
  have hspared := spared_of_exec hrun hspares
  have h := spread_of_exec hrun hspares hkeeps
  refine ⟨fun x hx => h.sound x (Or.inl hx), fun hrest o x ho hox => ?_⟩
  have hcoming : ∀ x, ¬ s.Coming S g n x := by
    rintro x ⟨r, hr, hsrc, hdst, -⟩
    exact hrest.1 r hr hsrc hdst
  refine h.reaches.has_of_peer hcoming ho ?_
  exact hspared.acquaints.peer_of_asked (fun x y hk => hrest.mem_peers hk) hox

theorem members_spared_lostThenLinked :
    ∃ s, exec (step threeNodes) start lostThenLinked = some s ∧
      (s.node ⟨.ofString "b", 1⟩).IsMember [103] [110] := by
  have hend : (exec (step threeNodes) start lostThenLinked).map
      (fun s => (s.requests, s.connecting)) = some ([], []) := by
    decide +kernel
  obtain ⟨s, hs, hstate⟩ := Option.map_eq_some_iff.1 hend
  simp only [Prod.mk.injEq] at hstate
  obtain ⟨hrequests, hconnecting⟩ := hstate
  have hrest : AtRest FirstTwo s := by
    rw [AtRest, hrequests, hconnecting]
    exact ⟨fun r hr => absurd hr List.not_mem_nil, fun l hl => absurd hl List.not_mem_nil⟩
  obtain ⟨-, hmembers⟩ := members_spared threeNodes FirstTwo lostThenLinked s [103] [110] hs
    (.of_forall spares_lostThenLinked start) (by simp [lostThenLinked])
  refine ⟨s, hs, hmembers hrest ⟨.ofString "a", 1⟩ _ (by simp [lostThenLinked]) ?_⟩
  exact .rel _ _ ⟨Or.inl rfl, Or.inr rfl, by simp [Asked, lostThenLinked]⟩

end Members

end Lossy

end RawDish.Rpc
