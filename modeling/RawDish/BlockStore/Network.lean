import RawDish.BlockStore.Announcing
import RawDish.Rpc.Losses

/-!
# Networks of block store nodes

Block store nodes connect to each other as the nodes of `ServiceNode` do: `RPCAddPeer` enters the
peer, connects to it, asks it to connect back and tells it the addresses of the other peers. A
connection may be lost, and then `RemovePeer` runs at the node that has opened it. The handlers of a
node run one after the other here.

The program ends where `RemovePeer` reads the list of a peer that is not in the table. This does not
happen: a connection is the client of a peer until its loss is noticed. A node that is not asked to
connect to itself has the stores that were added to it and no others. And the peers behave as those
of the mesh: every run is matched by a run of `Rpc.Lossy` (`Network.toLossy`), so nodes between
which no connection is lost discover each other.

## Main definitions

* `Network`, `Network.step` : the nodes and their connections.
* `Network.Held` : the connections are the clients of the peers.
* `Network.toLossy` : the mesh that a network is.

## Main results

* `Network.Held.step` : a connection is the client of a peer until its loss is noticed.
* `Network.Follows.step` : every step is matched by steps of the mesh.
* `Network.discovery_among`, `Network.tables_safe`.

## References

* `src/blockstore/blockstore_daemon.h`, lines 187–371; `src/blockstore/blockstore_daemon.cc`, lines
  89–130.
-/

namespace RawDish.BlockStore

open Lib
open Rpc (Link Lossy LossyAction)
open Relation (EqvGen)

/-- The nodes, their connections and the calls of `addPeer` in flight, each with the address that it
names. -/
structure Network where
  node : PeerAddr → BlockStoreNode
  links : List Link
  requests : List (Link × PeerAddr)
  /-- The connections that are lost. -/
  down : List Link
  /-- Those of them for which the disconnect callback has run. -/
  noticed : List Link

/-- What can happen next: a user adds a store or a peer to the node `x`, an announcement arrives at
it, the `i`-th request is handled or lost, or a connection is lost or noticed to be. -/
inductive NetworkAction
  | addBlockStore (x : PeerAddr) (bsid : UInt64) (pathname : Str) (scan : Scan)
  | addPeer (x y : PeerAddr)
  | announce (x sender : PeerAddr) (bsid : UInt64)
  | handle (i : ℕ)
  | sever (l : Link)
  | drop (i : ℕ)
  | notice (l : Link)

namespace Network

def start : Network := ⟨.create, [], [], [], []⟩

/-- The connection of a client of the node `x`. -/
def link (x : PeerAddr) (c : Client) : Link := ⟨c.number, x, c.addr⟩

/-- `RPCAddPeer` at `x`; the connection is established. -/
def rpcAddPeer (s : Network) (x y : PeerAddr) : Option Network :=
  ((s.node x).rpcAddPeer y (some s.links.length)).map fun e =>
    { s with
      node := Function.update s.node x e.node
      links := if y ∈ (s.node x).peers then s.links else s.links ++ [⟨s.links.length, x, y⟩]
      requests := s.requests ++ e.calls.map fun c => (link x c.client, c.named) }

/-- One action of the network on `nodes`: only the nodes listen. -/
def step (nodes : Std.ExtTreeSet PeerAddr) (s : Network) : NetworkAction → Option Network
  | .addBlockStore x bsid pathname scan =>
    some { s with
      node := Function.update s.node x ((s.node x).addBlockStore bsid pathname scan) }
  | .addPeer x y => if x ∈ nodes ∧ y ∈ nodes then s.rpcAddPeer x y else none
  | .announce x sender bsid =>
    some { s with
      node := Function.update s.node x ((s.node x).handleAddBlockStore sender bsid).1 }
  | .handle i => s.requests[i]?.bind fun r =>
      if r.2 ∈ nodes then { s with requests := s.requests.eraseIdx i }.rpcAddPeer r.1.dst r.2
      else none
  | .sever l => if l ∈ s.links then some { s with down := l :: s.down } else none
  | .drop i => s.requests[i]?.bind fun r =>
      if r.1 ∈ s.down then some { s with requests := s.requests.eraseIdx i } else none
  | .notice l =>
    if l ∈ s.down ∧ l ∉ s.noticed then
      ((s.node l.src).removePeer l.dst).map fun n =>
        { s with node := Function.update s.node l.src n, noticed := s.noticed ++ [l] }
    else none

/-! ### What a step does -/

variable {nodes : Std.ExtTreeSet PeerAddr} {s t : Network} {a : NetworkAction}

/-- A node with a new peer, over the connection with a number. -/
def withPeer (n : BlockStoreNode) (y : PeerAddr) (number : ℕ) : BlockStoreNode :=
  { n with peers := n.peers.insert y ⟨⟨y, number⟩, []⟩ }

/-- A new peer: it is entered, and it is told of the node and of the other peers. -/
def enter (s : Network) (x y : PeerAddr) : Network where
  node := Function.update s.node x (withPeer (s.node x) y s.links.length)
  links := s.links ++ [⟨s.links.length, x, y⟩]
  requests := s.requests ++
    ((withPeer (s.node x) y s.links.length).introductions ⟨y, s.links.length⟩).map
      fun c => (link x c.client, c.named)
  down := s.down
  noticed := s.noticed

theorem rpcAddPeer_of_mem {x y : PeerAddr} (hy : y ∈ (s.node x).peers) :
    s.rpcAddPeer x y = some s := by
  simp only [rpcAddPeer, BlockStoreNode.rpcAddPeer, if_pos hy, Option.map_some, List.map_nil,
    List.append_nil, Function.update_eq_self]

theorem rpcAddPeer_of_notMem {x y : PeerAddr} (hy : y ∉ (s.node x).peers) :
    s.rpcAddPeer x y = some (s.enter x y) := by
  simp only [rpcAddPeer, BlockStoreNode.rpcAddPeer, if_neg hy, Option.map_some, enter,
    withPeer]

/-- The peer of a connection that is lost is removed, with its stores. -/
def forget (s : Network) (l : Link) (p : Peer) : Network :=
  { s with
    node := Function.update s.node l.src
      { s.node l.src with
        blockstores := p.bsids.foldl (fun table bsid => table.erase bsid) (s.node l.src).blockstores
        peers := (s.node l.src).peers.erase l.dst }
    noticed := s.noticed ++ [l] }

/-- The kinds of steps. -/
inductive Acts (nodes : Std.ExtTreeSet PeerAddr) (s : Network) : NetworkAction → Network → Prop
  | addBlockStore (x : PeerAddr) (bsid : UInt64) (pathname : Str) (scan : Scan) :
      Acts nodes s (.addBlockStore x bsid pathname scan)
        { s with node := Function.update s.node x ((s.node x).addBlockStore bsid pathname scan) }
  | addPeer (x y : PeerAddr) (hx : x ∈ nodes) (hy : y ∈ nodes) (t : Network)
      (ht : s.rpcAddPeer x y = some t) : Acts nodes s (.addPeer x y) t
  | announce (x sender : PeerAddr) (bsid : UInt64) :
      Acts nodes s (.announce x sender bsid)
        { s with node := Function.update s.node x ((s.node x).handleAddBlockStore sender bsid).1 }
  | handle (r : Link × PeerAddr) (pre post : List (Link × PeerAddr))
      (hr : s.requests = pre ++ r :: post) (hy : r.2 ∈ nodes) (t : Network)
      (ht : { s with requests := pre ++ post }.rpcAddPeer r.1.dst r.2 = some t) :
      Acts nodes s (.handle pre.length) t
  | sever (l : Link) (hl : l ∈ s.links) : Acts nodes s (.sever l) { s with down := l :: s.down }
  | drop (r : Link × PeerAddr) (pre post : List (Link × PeerAddr))
      (hr : s.requests = pre ++ r :: post) (hdown : r.1 ∈ s.down) :
      Acts nodes s (.drop pre.length) { s with requests := pre ++ post }
  | notice (l : Link) (p : Peer) (hdown : l ∈ s.down) (hnoticed : l ∉ s.noticed)
      (hp : (s.node l.src).peers[l.dst]? = some p) : Acts nodes s (.notice l) (s.forget l p)

theorem acts_of_step (h : step nodes s a = some t) : Acts nodes s a t := by
  cases a with
  | addBlockStore x bsid pathname scan =>
    rw [step, Option.some.injEq] at h
    exact h ▸ .addBlockStore x bsid pathname scan
  | addPeer x y =>
    simp only [step, Option.ite_none_right_eq_some] at h
    exact .addPeer x y h.1.1 h.1.2 t h.2
  | announce x sender bsid =>
    rw [step, Option.some.injEq] at h
    exact h ▸ .announce x sender bsid
  | handle i =>
    simp only [step, Option.bind_eq_some_iff, Option.ite_none_right_eq_some] at h
    obtain ⟨r, hr, hy, ht⟩ := h
    obtain ⟨pre, post, hsplit, rfl, herase⟩ := split_of_getElem? hr
    rw [herase] at ht
    exact .handle r pre post hsplit hy t ht
  | sever l =>
    simp only [step, Option.ite_none_right_eq_some, Option.some.injEq] at h
    obtain ⟨hl, rfl⟩ := h
    exact .sever l hl
  | drop i =>
    simp only [step, Option.bind_eq_some_iff, Option.ite_none_right_eq_some,
      Option.some.injEq] at h
    obtain ⟨r, hr, hdown, rfl⟩ := h
    obtain ⟨pre, post, hsplit, rfl, herase⟩ := split_of_getElem? hr
    rw [herase]
    exact .drop r pre post hsplit hdown
  | notice l =>
    simp only [step, Option.ite_none_right_eq_some, Option.map_eq_some_iff,
      BlockStoreNode.removePeer] at h
    obtain ⟨⟨hdown, hnoticed⟩, n, ⟨p, hp, rfl⟩, rfl⟩ := h
    exact .notice l p hdown hnoticed hp

/-- The two outcomes of `RPCAddPeer`. -/
theorem rpcAddPeer_cases {x y : PeerAddr} (h : s.rpcAddPeer x y = some t) :
    (y ∈ (s.node x).peers ∧ t = s) ∨ (y ∉ (s.node x).peers ∧ t = s.enter x y) := by
  by_cases hy : y ∈ (s.node x).peers
  · rw [rpcAddPeer_of_mem hy, Option.some.injEq] at h
    exact Or.inl ⟨hy, h.symm⟩
  · rw [rpcAddPeer_of_notMem hy, Option.some.injEq] at h
    exact Or.inr ⟨hy, h.symm⟩

/-! ### Connections and clients -/

/-- The node has the connection as the client of the peer with its address. -/
def Holds (s : Network) (l : Link) : Prop :=
  ∃ p, (s.node l.src).peers[l.dst]? = some p ∧ link l.src p.client = l

/-- Every connection is the client of a peer until its loss is noticed, and only connections that
were opened are lost. -/
structure Held (s : Network) : Prop where
  number_lt : ∀ l ∈ s.links, l.number < s.links.length
  down_mem : ∀ l ∈ s.down, l ∈ s.links
  held : ∀ l ∈ s.links, l ∉ s.noticed → s.Holds l

theorem held_start : Held start where
  number_lt _ hl := absurd hl List.not_mem_nil
  down_mem _ hl := absurd hl List.not_mem_nil
  held _ hl := absurd hl List.not_mem_nil

/-- A new connection has a number of its own. -/
theorem Held.notMem_down (h : Held s) {l : Link} (hl : l.number = s.links.length) :
    l ∉ s.down := fun hdown =>
  absurd (h.number_lt l (h.down_mem l hdown)) (by omega)

/-- A method that keeps the clients of the peers. -/
theorem Holds.update {l : Link} (h : s.Holds l) {x : PeerAddr} {n : BlockStoreNode}
    (hn : ∀ (y : PeerAddr) (p : Peer), (s.node x).peers[y]? = some p →
      ∃ p' : Peer, n.peers[y]? = some p' ∧ p'.client = p.client) :
    ∃ p, (Function.update s.node x n l.src).peers[l.dst]? = some p ∧ link l.src p.client = l := by
  obtain ⟨p, hp, hlink⟩ := h
  rw [Function.update_apply]
  split_ifs with hx
  · obtain ⟨p', hp', hclient⟩ := hn l.dst p (hx ▸ hp)
    exact ⟨p', hp', hclient ▸ hlink⟩
  · exact ⟨p, hp, hlink⟩

theorem addr_rpcAddBlockStore (n : BlockStoreNode) (addr : PeerAddr) (bsid : UInt64) :
    (n.rpcAddBlockStore addr bsid).1.addr = n.addr := by
  rw [BlockStoreNode.rpcAddBlockStore]
  cases n.peers[addr]? with
  | none => rfl
  | some p =>
    simp only
    split_ifs <;> rfl

theorem client_rpcAddBlockStore (n : BlockStoreNode) (addr : PeerAddr) (bsid : UInt64)
    (y : PeerAddr) :
    ((n.rpcAddBlockStore addr bsid).1.peers[y]?).map Peer.client =
      (n.peers[y]?).map Peer.client := by
  rw [BlockStoreNode.rpcAddBlockStore]
  cases hp : n.peers[addr]? with
  | none => rfl
  | some p =>
    simp only
    split_ifs with hbsid
    · rfl
    · simp only [getElem?_insert_ite]
      split_ifs with hy
      · rw [hy, hp]
        rfl
      · rfl

theorem Held.enter (h : Held s) {x y : PeerAddr} (hy : y ∉ (s.node x).peers) :
    Held (s.enter x y) where
  number_lt l hl := by
    rw [Network.enter, List.length_append, List.length_singleton]
    rcases List.mem_append.1 hl with hl | hl
    · exact (h.number_lt l hl).trans (Nat.lt_succ_self _)
    · rw [List.mem_singleton.1 hl]
      exact Nat.lt_succ_self _
  down_mem l hl := List.mem_append_left _ (h.down_mem l hl)
  held l hl hnoticed := by
    rcases List.mem_append.1 hl with hl | hl
    · refine (h.held l hl hnoticed).update fun z p hp => ⟨p, ?_, rfl⟩
      have hne : z ≠ y := by
        rintro rfl
        rw [Std.ExtTreeMap.getElem?_eq_none hy] at hp
        cases hp
      rw [withPeer, getElem?_insert_ite, if_neg hne, hp]
    · rw [List.mem_singleton.1 hl, Holds, Network.enter]
      simp only [Function.update_self, withPeer, getElem?_insert_ite, if_true]
      exact ⟨_, rfl, rfl⟩

theorem Held.rpcAddPeer (h : Held s) {x y : PeerAddr} (ht : s.rpcAddPeer x y = some t) :
    Held t := by
  rcases rpcAddPeer_cases ht with ⟨-, rfl⟩ | ⟨hy, rfl⟩
  · exact h
  · exact h.enter hy

/-- The loss of one connection leaves the others. -/
theorem Held.forget (h : Held s) {l : Link} (p : Peer) (hdown : l ∈ s.down)
    (hnoticed : l ∉ s.noticed) : Held (s.forget l p) where
  number_lt := h.number_lt
  down_mem := h.down_mem
  held l' hl' hnot := by
    simp only [Network.forget, List.mem_append, List.mem_singleton, not_or] at hnot
    obtain ⟨q, hq, hlink⟩ := h.held l' hl' hnot.1
    refine ⟨q, ?_, hlink⟩
    simp only [Network.forget, Function.update_apply]
    split_ifs with hsrc
    · -- A connection between the same nodes has the same client, so it is the same.
      have hne : l'.dst ≠ l.dst := by
        intro hdst
        obtain ⟨q', hq', hlink'⟩ := h.held l (h.down_mem l hdown) hnoticed
        rw [hsrc, hdst, hq', Option.some.injEq] at hq
        rw [← hq, hsrc, hlink'] at hlink
        exact hnot.2 hlink.symm
      simp only [getElem?_erase_ite, if_neg hne]
      rw [← hsrc, hq]
    · exact hq

/-- Every step keeps it. -/
theorem Held.step (h : Held s) (hst : Network.step nodes s a = some t) : Held t := by
  cases acts_of_step hst with
  | addBlockStore x bsid pathname scan =>
    exact ⟨h.number_lt, h.down_mem, fun l hl hnot =>
      (h.held l hl hnot).update fun y p hp => ⟨p, hp, rfl⟩⟩
  | addPeer x y hx hy _ ht => exact h.rpcAddPeer ht
  | announce x sender bsid =>
    refine ⟨h.number_lt, h.down_mem, fun l hl hnot => (h.held l hl hnot).update fun y p hp => ?_⟩
    have hclient := client_rpcAddBlockStore (s.node x) (s.node x).addr bsid y
    rw [hp, Option.map_some, Option.map_eq_some_iff] at hclient
    exact hclient
  | handle r pre post hr hy _ ht =>
    exact Held.rpcAddPeer (s := { s with requests := pre ++ post })
      ⟨h.number_lt, h.down_mem, h.held⟩ ht
  | sever l hl =>
    refine ⟨h.number_lt, fun l' hl' => ?_, h.held⟩
    rcases List.mem_cons.1 hl' with rfl | hl'
    · exact hl
    · exact h.down_mem l' hl'
  | drop r pre post hr hdown => exact ⟨h.number_lt, h.down_mem, h.held⟩
  | notice l p hdown hnoticed hp => exact h.forget p hdown hnoticed

/-! ### The mesh -/

/-- The addresses of the peers. -/
def peerSet (n : BlockStoreNode) : Std.ExtTreeSet PeerAddr := ⟨n.peers.map fun _ _ => ()⟩

theorem mem_peerSet {n : BlockStoreNode} {y : PeerAddr} : y ∈ peerSet n ↔ y ∈ n.peers :=
  Std.ExtTreeMap.mem_map

/-- A block store node as a node of the mesh without groups. -/
def serviceNode (n : BlockStoreNode) : Rpc.ServiceNode := ⟨n.addr, peerSet n, ∅, ∅⟩

/-- The mesh that a network is: its peers, clients and connections. -/
def toLossy (s : Network) : Lossy where
  node x := serviceNode (s.node x)
  links := s.links
  client x y := (s.node x).peers[y]?.map fun p => link x p.client
  requests := s.requests.map fun r => (r.1, .addPeer r.2)
  connecting := []
  down := s.down
  noticed := s.noticed

theorem toLossy_start : toLossy start = Lossy.start := by
  have hpeers : ∀ x, peerSet (BlockStoreNode.create x) = ∅ := fun x => by
    refine Std.ExtTreeSet.ext_mem fun y => ?_
    simp [mem_peerSet, BlockStoreNode.create]
  simp only [toLossy, start, serviceNode, hpeers, Lossy.start]
  congr 1

theorem serviceNode_update (node : PeerAddr → BlockStoreNode) (x : PeerAddr) (n : BlockStoreNode) :
    (fun z => serviceNode (Function.update node x n z)) =
      Function.update (fun z => serviceNode (node z)) x (serviceNode n) := by
  funext z
  simp only [Function.update_apply]
  split_ifs <;> rfl

theorem peerSet_withPeer (n : BlockStoreNode) (y : PeerAddr) (number : ℕ) :
    peerSet (withPeer n y number) = (peerSet n).insert y := by
  refine Std.ExtTreeSet.ext_mem fun z => ?_
  rw [Std.ExtTreeSet.mem_insert, mem_peerSet, mem_peerSet, withPeer, Std.ExtTreeMap.mem_insert]

theorem client_of_mem_introductions {n : BlockStoreNode} {client : Client} {c : AddPeerCall}
    (hc : c ∈ n.introductions client) : c.client = client := by
  rcases List.mem_cons.1 hc with rfl | hc
  · rfl
  · obtain ⟨p, -, rfl⟩ := List.mem_map.1 hc
    rfl

/-- A new peer is greeted with the same calls. -/
theorem greeting_serviceNode (n : BlockStoreNode) (y : PeerAddr) (number : ℕ) :
    (serviceNode n).greeting y = ((withPeer n y number).introductions ⟨y, number⟩).map
      fun c => ⟨y, .addPeer c.named⟩ := by
  have hpeers : ((peerSet n).insert y).toList = (withPeer n y number).peers.keys := by
    rw [← peerSet_withPeer n y number]
    exact Std.ExtTreeMap.keys_map
  have hgroups : (∅ : Std.ExtTreeMap Str (Std.ExtTreeMap Str Int32)).toList = [] := rfl
  simp only [Rpc.ServiceNode.greeting, serviceNode, BlockStoreNode.introductions, hpeers, hgroups,
    List.flatMap_nil, List.append_nil, List.map_cons, List.map_map]
  rfl

/-- A peer is entered as by the rest of an `RPCAddPeer` of the mesh. -/
theorem link_toLossy (h : Held s) (x y : PeerAddr) :
    ({ s.toLossy with links := s.links ++ [⟨s.links.length, x, y⟩] } : Lossy).link
      ⟨s.links.length, x, y⟩ = (s.enter x y).toLossy := by
  have hup : (⟨s.links.length, x, y⟩ : Link) ∉ s.down := h.notMem_down rfl
  have hnode : Function.update (fun z => serviceNode (s.node z)) x
      ((serviceNode (s.node x)).linkPeer y).node =
        fun z => serviceNode ((s.enter x y).node z) := by
    rw [enter, serviceNode_update]
    congr 1
    rw [Rpc.ServiceNode.linkPeer, serviceNode, serviceNode, peerSet_withPeer]
    rfl
  have hclient : ∀ u v, (s.toLossy.setClient ⟨s.links.length, x, y⟩
      (some ⟨s.links.length, x, y⟩)).client u v = (s.enter x y).toLossy.client u v := by
    intro u v
    rw [Lossy.client_setClient]
    simp only [toLossy, enter, Function.update_apply]
    by_cases hu : u = x
    · subst hu
      simp only [if_true, true_and, withPeer, getElem?_insert_ite]
      split_ifs <;> rfl
    · simp only [hu, false_and, if_false]
  have hissue : (s.toLossy.setClient ⟨s.links.length, x, y⟩ (some ⟨s.links.length, x, y⟩)).issue x
      ((serviceNode (s.node x)).greeting y) =
        ((withPeer (s.node x) y s.links.length).introductions ⟨y, s.links.length⟩).map
          fun c => (link x c.client, .addPeer c.named) := by
    have hto : (s.toLossy.setClient ⟨s.links.length, x, y⟩
        (some ⟨s.links.length, x, y⟩)).client x y = some ⟨s.links.length, x, y⟩ := by
      rw [Lossy.client_setClient, if_pos ⟨rfl, rfl⟩]
    rw [greeting_serviceNode _ y s.links.length, Lossy.issue, List.filterMap_map,
      ← List.filterMap_eq_map]
    refine List.filterMap_congr fun c hc => ?_
    simp only [Function.comp_apply, hto, Option.bind_some, client_of_mem_introductions hc]
    exact if_neg hup
  ext1
  · exact hnode
  · rfl
  · funext u v
    exact hclient u v
  · refine (congrArg (s.toLossy.requests ++ ·) hissue).trans ?_
    simp only [toLossy, enter, List.map_append, List.map_map]
    rfl
  · rfl
  · rfl
  · rfl

/-- The beginning of an `RPCAddPeer` of the mesh and its rest make up that of the network. -/
theorem exec_lookup (nodes : Std.ExtTreeSet PeerAddr) (h : Held s) {x y : PeerAddr}
    (ht : s.rpcAddPeer x y = some t) :
    ∃ bs, (∀ b ∈ bs, b = .traffic (.link 0)) ∧
      exec (Lossy.step nodes) (s.toLossy.lookup x y true) bs = some t.toLossy := by
  rcases rpcAddPeer_cases ht with ⟨hy, rfl⟩ | ⟨hy, rfl⟩
  · refine ⟨[], fun b hb => absurd hb List.not_mem_nil, ?_⟩
    have hmem : y ∈ (t.toLossy.node x).peers := mem_peerSet.2 hy
    rw [exec_nil, Lossy.lookup, Rpc.ServiceNode.lookupPeer, if_pos hmem]
  · refine ⟨[.traffic (.link 0)], fun b hb => List.mem_singleton.1 hb, ?_⟩
    have hmem : y ∉ (s.toLossy.node x).peers := fun hy' => hy (mem_peerSet.1 hy')
    rw [Lossy.lookup, Rpc.ServiceNode.lookupPeer, if_neg hmem, if_pos rfl, ← link_toLossy h]
    rfl

/-- The loss of a peer is that of the mesh. -/
theorem removePeer_toLossy (s : Network) (l : Link) (p : Peer) :
    s.toLossy.removePeer l = (s.forget l p).toLossy := by
  have hnode : Function.update (fun z => serviceNode (s.node z)) l.src
      ((serviceNode (s.node l.src)).removePeer l.dst).node =
        fun z => serviceNode ((s.forget l p).node z) := by
    rw [forget, serviceNode_update]
    congr 1
    simp only [Rpc.ServiceNode.removePeer, serviceNode, Rpc.ServiceNode.mk.injEq, true_and,
      and_true]
    refine Std.ExtTreeSet.ext_mem fun z => ?_
    rw [Std.ExtTreeSet.mem_erase, mem_peerSet, mem_peerSet, Std.ExtTreeMap.mem_erase]
  ext1
  · exact hnode
  · rfl
  · funext u v
    refine (Lossy.client_setClient _ l none u v).trans ?_
    simp only [toLossy, forget, Function.update_apply]
    by_cases hu : u = l.src
    · simp only [hu, if_true, true_and, getElem?_erase_ite]
      split_ifs <;> rfl
    · simp only [hu, false_and, if_false]
  · exact Lossy.requests_removePeer s.toLossy l
  · rfl
  · rfl
  · rfl

/-- A method of a node that keeps its address and the clients of its peers. -/
theorem toLossy_update {x : PeerAddr} {n : BlockStoreNode} (haddr : n.addr = (s.node x).addr)
    (hpeers : ∀ y : PeerAddr,
      (n.peers[y]?).map Peer.client = ((s.node x).peers[y]?).map Peer.client) :
    ({ s with node := Function.update s.node x n } : Network).toLossy = s.toLossy := by
  have hset : peerSet n = peerSet (s.node x) := by
    refine Std.ExtTreeSet.ext_mem fun y => ?_
    have hsome := congrArg Option.isSome (hpeers y)
    rw [Option.isSome_map, Option.isSome_map] at hsome
    rw [mem_peerSet, mem_peerSet, Std.ExtTreeMap.mem_iff_isSome_getElem?,
      Std.ExtTreeMap.mem_iff_isSome_getElem?, hsome]
  ext1
  · refine (serviceNode_update s.node x n).trans (Function.update_eq_self_iff.2 ?_)
    rw [serviceNode, serviceNode, haddr, hset]
  · rfl
  · funext u v
    simp only [toLossy, Function.update_apply]
    split_ifs with hu
    · have hclient := congrArg (Option.map (link u)) (hpeers v)
      rw [Option.map_map, Option.map_map, ← hu] at hclient
      exact hclient
    · rfl
  · rfl
  · rfl
  · rfl
  · rfl

/-! ### Runs -/

/-- Connections between nodes of `S` are not lost, and no user gives one of them its own address. -/
def Spares (S : PeerAddr → Prop) : NetworkAction → Prop
  | .addPeer x y => S x → S y → x ≠ y
  | .sever l => S l.src → ¬ S l.dst
  | _ => True

/-- A run of the mesh ends as the actions `as` do, spares the same nodes and has the same `addPeer`
calls of users. -/
def Follows (nodes : Std.ExtTreeSet PeerAddr) (S : PeerAddr → Prop) (as : List NetworkAction)
    (s : Network) : Prop :=
  ∃ bs, exec (Lossy.step nodes) .start bs = some s.toLossy ∧
    AllSteps (Lossy.step nodes) (Lossy.Spares S) .start bs ∧
      ∀ x y, Lossy.Asked bs x y ↔ .addPeer x y ∈ as

variable {S : PeerAddr → Prop} {as : List NetworkAction}

theorem follows_start : Follows nodes S [] start := by
  refine ⟨[], ?_, trivial, fun x y => ?_⟩
  · rw [exec_nil, toLossy_start]
  · exact iff_of_false List.not_mem_nil List.not_mem_nil

/-- A step that is matched by a run of the mesh. -/
theorem Follows.concat (h : Follows nodes S as s) (bs : List LossyAction)
    (hbs : exec (Lossy.step nodes) s.toLossy bs = some t.toLossy)
    (hspares : AllSteps (Lossy.step nodes) (Lossy.Spares S) s.toLossy bs)
    (hasked : ∀ x y, Lossy.Asked bs x y ↔ a = .addPeer x y) : Follows nodes S (as ++ [a]) t := by
  obtain ⟨cs, hcs, hcs', hasked'⟩ := h
  refine ⟨cs ++ bs, exec_append_eq_some.2 ⟨_, hcs, hbs⟩, allSteps_append.2 ⟨hcs', fun u hu => ?_⟩,
    fun x y => ?_⟩
  · rw [hcs, Option.some.injEq] at hu
    exact hu ▸ hspares
  · rw [Lossy.Asked, List.mem_append, List.mem_append, List.mem_singleton, eq_comm (b := a),
      ← hasked, ← hasked']
    rfl

/-- A request is taken out. -/
theorem eraseIdx_toLossy {r : Link × PeerAddr} {pre post : List (Link × PeerAddr)}
    (hr : s.requests = pre ++ r :: post) : s.toLossy.requests.eraseIdx pre.length =
      (pre ++ post).map fun r => (r.1, .addPeer r.2) := by
  rw [toLossy, List.eraseIdx_map, hr, List.eraseIdx_append_of_length_le le_rfl, Nat.sub_self,
    List.eraseIdx_cons_zero]

theorem step_toLossy_handle {r : Link × PeerAddr} {pre post : List (Link × PeerAddr)}
    (hr : s.requests = pre ++ r :: post) (hy : r.2 ∈ nodes) :
    Lossy.step nodes s.toLossy (.traffic (.handle pre.length true)) =
      some (({ s with requests := pre ++ post } : Network).toLossy.lookup r.1.dst r.2 true) := by
  have hget : s.toLossy.requests[pre.length]? = some (r.1, .addPeer r.2) := by
    simp [toLossy, hr]
  rw [Lossy.step, Lossy.trafficStep, hget, Option.bind_some, eraseIdx_toLossy hr]
  exact if_pos fun _ => hy

/-- Every step is matched by steps of the mesh. -/
theorem Follows.step (h : Follows nodes S as s) (hheld : Held s) (ha : Spares S a)
    (hst : Network.step nodes s a = some t) : Follows nodes S (as ++ [a]) t := by
  -- A step that the mesh does not see.
  have hsame : t.toLossy = s.toLossy → (∀ x y, a ≠ .addPeer x y) → Follows nodes S (as ++ [a]) t :=
    fun heq hne => h.concat [] (by rw [exec_nil, heq]) trivial fun x y =>
      iff_of_false List.not_mem_nil (hne x y)
  -- A step that is one of the mesh.
  have hone : ∀ b : LossyAction, Lossy.step nodes s.toLossy b = some t.toLossy →
      Lossy.Spares S s.toLossy b → (∀ x y, b ≠ .traffic (.addPeer x y true)) →
      (∀ x y, a ≠ .addPeer x y) → Follows nodes S (as ++ [a]) t := by
    intro b hb hspares hnot hne
    refine h.concat [b] (exec_cons_eq_some.2 ⟨_, hb, rfl⟩) ⟨hspares, fun u _ => trivial⟩
      fun x y => iff_of_false (fun hasked => ?_) (hne x y)
    exact hnot x y (List.mem_singleton.1 hasked).symm
  -- A call of `RPCAddPeer`.
  have hcall : ∀ (b : LossyAction) (bs : List LossyAction) (u : Lossy),
      Lossy.step nodes s.toLossy b = some u → Lossy.Spares S s.toLossy b →
      (∀ b ∈ bs, b = .traffic (.link 0)) → exec (Lossy.step nodes) u bs = some t.toLossy →
      (∀ x y, b = .traffic (.addPeer x y true) ↔ a = .addPeer x y) →
      Follows nodes S (as ++ [a]) t := by
    intro b bs u hb hspares hlinks hbs hasked
    refine h.concat (b :: bs) (exec_cons_eq_some.2 ⟨u, hb, hbs⟩)
      ⟨hspares, fun v _ => .of_forall (fun b' hb' => ?_) v⟩ fun x y => ?_
    · rw [hlinks b' hb']
      exact fun _ => trivial
    · rw [← hasked, Lossy.Asked, List.mem_cons, eq_comm (a := b), or_iff_left fun hmem => ?_]
      cases hlinks _ hmem
  cases acts_of_step hst with
  | addBlockStore x bsid pathname scan =>
    exact hsame (toLossy_update rfl fun y => rfl) (by simp)
  | addPeer x y hx hy _ ht =>
    obtain ⟨bs, hlinks, hbs⟩ := exec_lookup nodes hheld ht
    refine hcall (.traffic (.addPeer x y true)) bs _ ?_ (fun hSx hSy => ⟨ha hSx hSy, rfl⟩) hlinks
      hbs fun u v => by simp
    rw [Lossy.step, Lossy.trafficStep, if_pos ⟨hx, fun _ => hy⟩]
  | announce x sender bsid =>
    exact hsame (toLossy_update (addr_rpcAddBlockStore _ _ bsid)
      (client_rpcAddBlockStore _ _ bsid)) (by simp)
  | handle r pre post hr hy _ ht =>
    have hheld' : Held { s with requests := pre ++ post } :=
      ⟨hheld.number_lt, hheld.down_mem, hheld.held⟩
    obtain ⟨bs, hlinks, hbs⟩ := exec_lookup nodes hheld' ht
    exact hcall _ bs _ (step_toLossy_handle hr hy) (fun _ _ _ _ _ _ => rfl) hlinks hbs (by simp)
  | sever l hl =>
    exact hone (.sever l) (if_pos hl) ha (by simp) (by simp)
  | drop r pre post hr hdown =>
    refine hone (.drop pre.length) ?_ trivial (by simp) (by simp)
    have hget : s.toLossy.requests[pre.length]? = some (r.1, .addPeer r.2) := by
      simp [toLossy, hr]
    rw [Lossy.step, hget, Option.bind_some, eraseIdx_toLossy hr]
    exact if_pos hdown
  | notice l p hdown hnoticed hp =>
    refine hone (.notice l) ?_ trivial (by simp) (by simp)
    rw [← removePeer_toLossy s l p]
    exact if_pos ⟨hdown, hnoticed, List.not_mem_nil⟩

theorem follows_of_exec (hrun : exec (Network.step nodes) start as = some s)
    (has : ∀ a ∈ as, Spares S a) : Held s ∧ Follows nodes S as s := by
  refine exec_induction (fun as s => (∀ a ∈ as, Spares S a) → Held s ∧ Follows nodes S as s)
    (fun _ => ⟨held_start, follows_start⟩) ?_ hrun has
  intro as s a t _ ih hst hspares
  obtain ⟨hheld, hfollows⟩ := ih fun b hb => hspares b (List.mem_append_left _ hb)
  have ha := hspares a (List.mem_append_right _ List.mem_cons_self)
  exact ⟨hheld.step hst, hfollows.step hheld ha hst⟩

/-- Nothing is in flight between the nodes of `S`. -/
def AtRest (S : PeerAddr → Prop) (s : Network) : Prop := ∀ r ∈ s.requests, S r.1.src → ¬ S r.1.dst

theorem AtRest.toLossy (h : AtRest S s) : Lossy.AtRest S s.toLossy := by
  refine ⟨fun r hr => ?_, fun l hl => absurd hl List.not_mem_nil⟩
  obtain ⟨r', hr', rfl⟩ := List.mem_map.1 hr
  exact h r' hr'

/-- **Discovery among block store nodes.** Take any run of the network in which connections are
lost, and any nodes `S` such that connections between two of them are not lost and no user gives one
of them its own address. None of them has itself as a peer. Peers are nodes that the `addPeer` calls
of the users connect. And when nothing is in flight between the nodes of `S`, two of them are peers
if calls for nodes of `S` at nodes of `S` connect them, whatever happens to the others.

Source: `src/blockstore/blockstore_daemon.h`, lines 187–214 and 308–352. -/
theorem discovery_among (nodes : Std.ExtTreeSet PeerAddr) (S : PeerAddr → Prop)
    (as : List NetworkAction) (s : Network) (hrun : exec (step nodes) start as = some s)
    (has : ∀ a ∈ as, Spares S a) :
    (∀ x, S x → x ∉ (s.node x).peers) ∧
    (∀ x, ∀ y ∈ (s.node x).peers, EqvGen (fun x y => .addPeer x y ∈ as) x y) ∧
    (AtRest S s → ∀ x y, x ≠ y → EqvGen (fun x y => S x ∧ S y ∧ .addPeer x y ∈ as) x y →
      y ∈ (s.node x).peers) := by
  obtain ⟨-, bs, hbs, hspares, hasked⟩ := follows_of_exec hrun has
  have h := Lossy.spared_of_exec hbs hspares
  refine ⟨fun x hx hpeer => h.ne x hx (Or.inl (mem_peerSet.2 hpeer)), fun x y hy => ?_,
    fun hrest x y hne hxy => ?_⟩
  · exact EqvGen.mono (fun u v => (hasked u v).1) x y (h.sound x y (Or.inl (mem_peerSet.2 hy)))
  · have hxy' : EqvGen (fun u v => S u ∧ S v ∧ Lossy.Asked bs u v) x y :=
      EqvGen.mono (fun u v huv => ⟨huv.1, huv.2.1, (hasked u v).2 huv.2.2⟩) x y hxy
    have hpeer := h.acquaints.peer_of_asked (fun u v hk => hrest.toLossy.mem_peers hk) hxy'
    exact mem_peerSet.1 (hpeer.resolve_left hne).2.2

/-- The nodes of `main`, with the ports 1 to 5. -/
def loopback (port : UInt16) : PeerAddr := ⟨.ofString "127.0.0.1", port⟩

def fiveNodes : Std.ExtTreeSet PeerAddr :=
  {loopback 1, loopback 2, loopback 3, loopback 4, loopback 5}

/-- What `main` does: stores are added to three nodes, and the five are connected in a ring. -/
def mainCalls : List NetworkAction :=
  [.addBlockStore (loopback 1) 0x01234567 (.ofString "./01234567/") ⟨none, none⟩,
    .addBlockStore (loopback 1) 0x89abcdef (.ofString "./89abcdef/") ⟨none, none⟩,
    .addBlockStore (loopback 2) 0x00112233 (.ofString "./00112233/") ⟨none, none⟩,
    .addBlockStore (loopback 2) 0x44556677 (.ofString "./44556677/") ⟨none, none⟩,
    .addBlockStore (loopback 3) 0x8899aabb (.ofString "./8899aabb/") ⟨none, none⟩,
    .addBlockStore (loopback 3) 0xccddeeff (.ofString "./ccddeeff/") ⟨none, none⟩,
    .addPeer (loopback 1) (loopback 2), .addPeer (loopback 2) (loopback 3),
    .addPeer (loopback 3) (loopback 4), .addPeer (loopback 4) (loopback 5),
    .addPeer (loopback 5) (loopback 1)]

/-- The requests that follow are handled in the order in which they were written. -/
def mainRun : List NetworkAction := mainCalls ++ List.replicate 50 (.handle 0)

theorem discovery_among_mainRun :
    ∃ s, exec (step fiveNodes) start mainRun = some s ∧ s.requests = [] ∧
      loopback 3 ∈ (s.node (loopback 1)).peers := by
  have hend : (exec (step fiveNodes) start mainRun).map (fun s => s.requests) = some [] := by
    decide +kernel
  obtain ⟨s, hs, hrequests⟩ := Option.map_eq_some_iff.1 hend
  have has : ∀ a ∈ mainRun, Spares (fun _ => True) a := by
    intro a ha
    rcases List.mem_append.1 ha with ha | ha
    · simp only [mainCalls, List.mem_cons, List.not_mem_nil, or_false] at ha
      rcases ha with rfl | rfl | rfl | rfl | rfl | rfl | rfl | rfl | rfl | rfl | rfl <;>
        simp [Spares, loopback]
    · rw [List.eq_of_mem_replicate ha]
      trivial
  obtain ⟨-, -, hmesh⟩ := discovery_among fiveNodes (fun _ => True) mainRun s hs has
  have hrest : AtRest (fun _ => True) s := fun r hr => absurd (hrequests ▸ hr) List.not_mem_nil
  refine ⟨s, hs, hrequests, hmesh hrest _ _ (by decide) ?_⟩
  have hasked : ∀ x y, .addPeer x y ∈ mainCalls →
      EqvGen (fun x y => True ∧ True ∧ .addPeer x y ∈ mainRun) x y := fun x y hxy =>
    .rel x y ⟨trivial, trivial, List.mem_append_left _ hxy⟩
  exact .trans _ _ _ (hasked (loopback 1) (loopback 2) (by simp [mainCalls]))
    (hasked (loopback 2) (loopback 3) (by simp [mainCalls]))

/-! ### The stores of a node -/

/-- The store that the last `addBlockStore` with the number at the node `x` has made. -/
def lastAdded (x : PeerAddr) (bsid : UInt64) (as : List NetworkAction) : Option FileBlockStore :=
  as.foldl (fun last a => match a with
    | .addBlockStore y b pathname scan =>
      if y = x ∧ b = bsid then some (BlockStoreNode.fileBlockStore pathname scan) else last
    | _ => last) none

/-- The node `x` is not one of its peers, and its table has the stores that were added to it. -/
structure Own (x : PeerAddr) (as : List NetworkAction) (s : Network) : Prop where
  addr_eq : (s.node x).addr = x
  notMem : x ∉ (s.node x).peers
  links : ∀ l ∈ s.links, l.src = x → l.dst ≠ x
  bsids : ∀ (y : PeerAddr) (p : Peer), (s.node x).peers[y]? = some p → p.bsids = []
  blockstores : ∀ bsid : UInt64,
    (s.node x).blockstores[bsid]? = (lastAdded x bsid as).map Store.file

theorem own_start (x : PeerAddr) : Own x [] start where
  addr_eq := rfl
  notMem := Std.ExtTreeMap.not_mem_empty
  links _ hl := absurd hl List.not_mem_nil
  bsids y p hp := by simp [start, BlockStoreNode.create] at hp
  blockstores bsid := by simp [start, BlockStoreNode.create, lastAdded]

/-- An announcement is refused. -/
theorem Own.refuses {x : PeerAddr} (h : Own x as s) (sender : PeerAddr) (bsid : UInt64) :
    (s.node x).handleAddBlockStore sender bsid = (s.node x, false) := by
  rw [BlockStoreNode.handleAddBlockStore, BlockStoreNode.rpcAddBlockStore, h.addr_eq,
    Std.ExtTreeMap.getElem?_eq_none h.notMem]

/-- The peers of the node have no stores, and the table has those of `added`. -/
def Table (added : UInt64 → Option FileBlockStore) (n : BlockStoreNode) : Prop :=
  (∀ (y : PeerAddr) (p : Peer), n.peers[y]? = some p → p.bsids = []) ∧
    ∀ bsid : UInt64, n.blockstores[bsid]? = (added bsid).map Store.file

theorem Table.withPeer {added : UInt64 → Option FileBlockStore} {n : BlockStoreNode}
    (h : Table added n) (y : PeerAddr) (number : ℕ) : Table added (withPeer n y number) := by
  refine ⟨fun z p hp => ?_, h.2⟩
  rw [Network.withPeer, getElem?_insert_ite] at hp
  split_ifs at hp with hz
  · rw [← Option.some.inj hp]
  · exact h.1 z p hp

theorem Table.rpcAddPeer {added : UInt64 → Option FileBlockStore} {x y z : PeerAddr}
    (h : Table added (s.node x)) (ht : s.rpcAddPeer y z = some t) : Table added (t.node x) := by
  rcases rpcAddPeer_cases ht with ⟨-, rfl⟩ | ⟨-, rfl⟩
  · exact h
  · simp only [enter, Function.update_apply]
    split_ifs with hx
    · exact (hx ▸ h).withPeer z _
    · exact h

/-- The loss of a peer without stores. -/
theorem Table.forget {added : UInt64 → Option FileBlockStore} {x : PeerAddr}
    (h : Table added (s.node x)) {l : Link} {p : Peer}
    (hp : (s.node l.src).peers[l.dst]? = some p) : Table added ((s.forget l p).node x) := by
  simp only [Network.forget, Function.update_apply]
  split_ifs with hx
  · subst hx
    refine ⟨fun y q hq => ?_, fun bsid => ?_⟩
    · simp only [getElem?_erase_ite] at hq
      split_ifs at hq
      exact h.1 y q hq
    · simp only [h.1 l.dst p hp, List.foldl_nil]
      exact h.2 bsid
  · exact h

/-- The table after a step. -/
theorem Own.table_step {x : PeerAddr} (h : Own x as s) (hst : Network.step nodes s a = some t) :
    Table (fun bsid => lastAdded x bsid (as ++ [a])) (t.node x) := by
  have hs : Table (fun bsid => lastAdded x bsid as) (s.node x) := ⟨h.bsids, h.blockstores⟩
  have hsame : (∀ b pathname scan, a ≠ .addBlockStore x b pathname scan) →
      (fun bsid => lastAdded x bsid (as ++ [a])) = fun bsid => lastAdded x bsid as := by
    intro hne
    funext bsid
    rw [lastAdded, List.foldl_concat]
    cases a with
    | addBlockStore y b pathname scan =>
      exact if_neg fun heq => hne b pathname scan (by rw [heq.1])
    | _ => rfl
  cases acts_of_step hst with
  | addBlockStore y b pathname scan =>
    by_cases hy : y = x
    · subst hy
      simp only [Function.update_self]
      refine ⟨hs.1, fun bsid => ?_⟩
      simp only [BlockStoreNode.addBlockStore, getElem?_insert_ite, lastAdded, List.foldl_concat,
        true_and, eq_comm (a := b)]
      split_ifs
      · rfl
      · exact hs.2 bsid
    · rw [hsame fun b' pathname' scan' heq => hy (NetworkAction.addBlockStore.inj heq).1]
      simpa only [Function.update_of_ne (Ne.symm hy)] using hs
  | addPeer y z hy hz _ ht =>
    rw [hsame (by simp)]
    exact hs.rpcAddPeer ht
  | announce y sender bsid =>
    rw [hsame (by simp)]
    simp only [Function.update_apply]
    split_ifs with hy
    · rw [← hy, h.refuses]
      exact hs
    · exact hs
  | handle r pre post hr hy _ ht =>
    rw [hsame (by simp)]
    exact Table.rpcAddPeer (s := { s with requests := pre ++ post }) hs ht
  | sever l hl =>
    rw [hsame (by simp)]
    exact hs
  | drop r pre post hr hdown =>
    rw [hsame (by simp)]
    exact hs
  | notice l p hdown hnoticed hp =>
    rw [hsame (by simp)]
    exact hs.forget hp

/-- A connection that is new makes a peer. -/
theorem mem_links_origin (hst : Network.step nodes s a = some t) {l : Link} (hl : l ∈ t.links) :
    l ∈ s.links ∨ l.dst ∈ (t.node l.src).peers := by
  have hcall : ∀ {u : Network} {x y : PeerAddr}, u.rpcAddPeer x y = some t →
      l ∈ u.links ∨ l.dst ∈ (t.node l.src).peers := by
    intro u x y ht
    rcases rpcAddPeer_cases ht with ⟨-, rfl⟩ | ⟨-, rfl⟩
    · exact Or.inl hl
    · rcases List.mem_append.1 hl with hl | hl
      · exact Or.inl hl
      · rw [List.mem_singleton.1 hl]
        simp [enter, withPeer]
  cases acts_of_step hst with
  | addPeer x y hx hy _ ht => exact hcall ht
  | handle r pre post hr hy _ ht => exact hcall (u := { s with requests := pre ++ post }) ht
  | addBlockStore | announce | sever | drop | notice => exact Or.inl hl

/-- Every step keeps it, if the node is not asked to connect to itself. -/
theorem Own.step {x : PeerAddr} (h : Own x as s) (hheld : Held s)
    (hfollows : Follows nodes (fun z => z = x) as s) (ha : a ≠ .addPeer x x)
    (hst : Network.step nodes s a = some t) :
    Own x (as ++ [a]) t ∧ Follows nodes (fun z => z = x) (as ++ [a]) t := by
  have hspares : Spares (fun z => z = x) a := by
    cases acts_of_step hst with
    | addPeer y z hy hz _ ht =>
      rintro rfl rfl
      exact absurd rfl ha
    | sever l hl => exact h.links l hl
    | addBlockStore | announce | handle | drop | notice => trivial
  obtain ⟨bs, hbs, hbs', hasked⟩ := hfollows.step hheld hspares hst
  have hspared := Lossy.spared_of_exec hbs hbs'
  have hnot : x ∉ (t.node x).peers := fun hx =>
    hspared.ne x rfl (Or.inl (mem_peerSet.2 hx))
  obtain ⟨hbsids, hblockstores⟩ := h.table_step hst
  refine ⟨⟨hspared.addr_eq x, hnot, fun l hl hsrc hdst => ?_, hbsids, hblockstores⟩,
    bs, hbs, hbs', hasked⟩
  rcases mem_links_origin hst hl with hl | hpeer
  · exact h.links l hl hsrc hdst
  · rw [hsrc, hdst] at hpeer
    exact hnot hpeer

/-- **The tables of block store nodes.** Take any run of the network, in which the handlers of a
node run one at a time and connections are established, with losses and with announcements of
anyone. `RemovePeer` finds the peer of a connection that is lost. And a node that no user has asked
to connect to itself has exactly the stores that were added to it, the last one under each number,
and refuses every announcement.

Source: `src/blockstore/blockstore_daemon.h`, lines 308–371; `src/blockstore/blockstore_daemon.cc`,
lines 89–130. -/
theorem tables_safe (nodes : Std.ExtTreeSet PeerAddr) (as : List NetworkAction) (s : Network)
    (hrun : exec (step nodes) start as = some s) :
    (∀ l ∈ s.down, l ∉ s.noticed → ∃ t, step nodes s (.notice l) = some t) ∧
    ∀ x, .addPeer x x ∉ as →
      (∀ bsid : UInt64, (s.node x).blockstores[bsid]? = (lastAdded x bsid as).map Store.file) ∧
      ∀ sender bsid, (s.node x).handleAddBlockStore sender bsid = (s.node x, false) := by
  have hheld : Held s := (follows_of_exec (S := fun _ => False) hrun fun a _ => by
    cases a <;> simp [Spares]).1
  refine ⟨fun l hl hnot => ?_, fun x hx => ?_⟩
  · obtain ⟨p, hp, -⟩ := hheld.held l (hheld.down_mem l hl) hnot
    rw [step, if_pos ⟨hl, hnot⟩, BlockStoreNode.removePeer, hp]
    exact ⟨_, rfl⟩
  · have hall : Held s ∧ Own x as s ∧ Follows nodes (fun z => z = x) as s := by
      refine exec_induction (fun as s => .addPeer x x ∉ as →
        Held s ∧ Own x as s ∧ Follows nodes (fun z => z = x) as s)
        (fun _ => ⟨held_start, own_start x, follows_start⟩) ?_ hrun hx
      intro as s a t _ ih hst hx
      obtain ⟨hheld, hown, hfollows⟩ := ih fun hmem => hx (List.mem_append_left _ hmem)
      refine ⟨hheld.step hst, hown.step hheld hfollows (fun heq => ?_) hst⟩
      exact hx (heq ▸ List.mem_append_right _ List.mem_cons_self)
    exact ⟨hall.2.1.blockstores, hall.2.1.refuses⟩

theorem tables_safe_mainRun :
    ∃ s, exec (step fiveNodes) start mainRun = some s ∧
      (s.node (loopback 1)).blockstores[(0x89abcdef : UInt64)]? =
        some (.file (BlockStoreNode.fileBlockStore (.ofString "./89abcdef/") ⟨none, none⟩)) ∧
      (s.node (loopback 1)).blockstores[(0x00112233 : UInt64)]? = none ∧
      (s.node (loopback 1)).handleAddBlockStore (loopback 2) 0x00112233 =
        (s.node (loopback 1), false) := by
  have hend : (exec (step fiveNodes) start mainRun).map (fun s => s.requests) = some [] := by
    decide +kernel
  obtain ⟨s, hs, -⟩ := Option.map_eq_some_iff.1 hend
  have hself : .addPeer (loopback 1) (loopback 1) ∉ mainRun := by
    simp [mainRun, mainCalls, loopback]
  obtain ⟨hstores, hrefuses⟩ := (tables_safe fiveNodes mainRun s hs).2 (loopback 1) hself
  refine ⟨s, hs, (hstores 0x89abcdef).trans ?_, (hstores 0x00112233).trans ?_, hrefuses _ _⟩
  · rfl
  · rfl

end Network

end RawDish.BlockStore
