import RawDish.BlockStore.FileBlockStore
import RawDish.Rpc.ServiceNode

/-!
# The block store node

A `BlockStoreNode` has a table of the block stores that it knows, its own file block stores and
those that its peers announce. The stores of a peer are also in the list of that peer, and when the
peer is lost its list says what is erased from the table.

A store of the node may be added under a number that a peer has announced: `addBlockStore`
overwrites the entry of the table and leaves the number in the list of the peer. When the peer is
then lost, the entry is erased although it is not the peer's any more.

A connection is told from an earlier one to the same address by its number.

## Main definitions

* `BlockStoreNode`, `BlockStoreNode.addBlockStore`, `BlockStoreNode.rpcAddPeer`,
  `BlockStoreNode.rpcAddBlockStore`, `BlockStoreNode.removePeer`.
* `NodeHistory`, `NodeAction`, `NodeHistory.step` : runs of calls on a node, with a record of the
  stores that were added and announced.
* `NodeHistory.Owned` : the table has the stores of the node and of its peers.

## Main results

* `NodeHistory.owned_iff_keepsAdded` : the table is right after every loss of a peer if and only if
  no lost peer has a store of the node in its list.

## References

* `src/blockstore/blockstore_daemon.h`, lines 187–371; `src/blockstore/blockstore_daemon.cc`, lines
  86–130.
-/

namespace RawDish.BlockStore

open Lib

/-- The public address of a peer. -/
abbrev PeerAddr := HostPortPair

/-- An `RPCClient`: the connection with a number to an address. -/
structure Client where
  addr : PeerAddr
  number : ℕ
  deriving DecidableEq

/-- A block store in the table of a node: a `FileBlockStore`, or a `RemoteBlockStore` over a
client. -/
inductive Store
  | file (store : FileBlockStore)
  | remote (client : Client) (bsid : UInt64)

/-- A store of the node itself. -/
def Store.isFile : Store → Bool
  | .file _ => true
  | .remote _ _ => false

structure Peer where
  client : Client
  bsids : List UInt64
  deriving DecidableEq

/-- Registers a new BlockStore with ID bsid as being available via this peer. -/
def Peer.registerBlockStore (p : Peer) (bsid : UInt64) : Peer × Store :=
  ({ p with bsids := p.bsids ++ [bsid] }, .remote p.client bsid)

structure BlockStoreNode where
  /-- `_host` and `_port`. -/
  addr : PeerAddr
  peers : Std.ExtTreeMap PeerAddr Peer
  blockstores : Std.ExtTreeMap UInt64 Store

/-- A call of `addPeer` with an address. -/
structure AddPeerCall where
  client : Client
  named : PeerAddr
  deriving DecidableEq

/-- What `RPCAddPeer` leaves: the state, the calls written and the future returned. -/
structure PeerEffect where
  node : BlockStoreNode
  calls : List AddPeerCall
  answer : Rpc.Answer

namespace BlockStoreNode

def create (addr : PeerAddr) : BlockStoreNode := ⟨addr, ∅, ∅⟩

/-- The `FileBlockStore` of a path, with the block size that is the default. -/
def fileBlockStore (pathname : Str) (scan : Scan) : FileBlockStore := .create pathname 65536 scan

/-- Adds a BlockStore to be managed by the node. An entry with the same number is overwritten. -/
def addBlockStore (s : BlockStoreNode) (bsid : UInt64) (pathname : Str) (scan : Scan) :
    BlockStoreNode :=
  { s with blockstores := s.blockstores.insert bsid (.file (fileBlockStore pathname scan)) }

/-- The calls to a new peer: the request to connect back, and the addresses of the other peers. -/
def introductions (s : BlockStoreNode) (client : Client) : List AddPeerCall :=
  ⟨client, s.addr⟩ ::
    ((s.peers.keys.filter fun p => client.addr ≠ p).map fun p => ⟨client, p⟩)

/-- RPC server function used by remote nodes to add a peer to our list; `socket` is the number of
the connection, if it is established. Without one the peer has no client, and the program ends where
the disconnect callback is set. -/
def rpcAddPeer (s : BlockStoreNode) (addr : PeerAddr) (socket : Option ℕ) : Option PeerEffect :=
  if addr ∈ s.peers then some ⟨s, [], .ready true⟩
  else socket.map fun number =>
    let t := { s with peers := s.peers.insert addr ⟨⟨addr, number⟩, []⟩ }
    ⟨t, t.introductions ⟨addr, number⟩, .callback⟩

/-- RPC server function used by remote nodes to add a BlockStore. -/
def rpcAddBlockStore (s : BlockStoreNode) (addr : PeerAddr) (bsid : UInt64) :
    BlockStoreNode × Bool :=
  match s.peers[addr]? with
  | none => (s, false)
  | some peer =>
    if bsid ∈ s.blockstores then (s, false)
    else
      ({ s with
        peers := s.peers.insert addr (peer.registerBlockStore bsid).1
        blockstores := s.blockstores.insert bsid (peer.registerBlockStore bsid).2 }, true)

/-- Helper function that removes a peer that has disconnected. For an address that is not a peer the
list is read through a null pointer, and the program ends. -/
def removePeer (s : BlockStoreNode) (addr : PeerAddr) : Option BlockStoreNode :=
  s.peers[addr]?.map fun peer =>
    { s with
      blockstores := peer.bsids.foldl (fun table bsid => table.erase bsid) s.blockstores
      peers := s.peers.erase addr }

theorem blockstores_rpcAddPeer {s : BlockStoreNode} {addr : PeerAddr} {socket : Option ℕ}
    {e : PeerEffect} (h : s.rpcAddPeer addr socket = some e) :
    e.node.blockstores = s.blockstores := by
  rw [rpcAddPeer] at h
  split_ifs at h
  · rw [← Option.some.inj h]
  · obtain ⟨number, -, rfl⟩ := Option.map_eq_some_iff.1 h
    rfl

end BlockStoreNode

/-! ### Runs -/

/-- A node, the number of connections so far, and the stores that were added and that were accepted
from peers, the last first. -/
structure NodeHistory where
  node : BlockStoreNode
  connections : ℕ
  added : List (UInt64 × FileBlockStore)
  accepted : List (Client × UInt64)

/-- What can happen next; connections are established. -/
inductive NodeAction
  | addBlockStore (bsid : UInt64) (pathname : Str) (scan : Scan)
  | rpcAddPeer (addr : PeerAddr)
  | rpcAddBlockStore (addr : PeerAddr) (bsid : UInt64)
  | removePeer (addr : PeerAddr)

namespace NodeHistory

def start (addr : PeerAddr) : NodeHistory := ⟨.create addr, 0, [], []⟩

/-- A store is announced; the record has the client of the peer when it is accepted. -/
def announce (s : NodeHistory) (addr : PeerAddr) (bsid : UInt64) : NodeHistory :=
  { s with
    node := (s.node.rpcAddBlockStore addr bsid).1
    accepted :=
      if (s.node.rpcAddBlockStore addr bsid).2 then
        ((s.node.peers[addr]?).toList.map fun p => (p.client, bsid)) ++ s.accepted
      else s.accepted }

def step (s : NodeHistory) : NodeAction → Option NodeHistory
  | .addBlockStore bsid pathname scan =>
    some { s with
      node := s.node.addBlockStore bsid pathname scan
      added := (bsid, BlockStoreNode.fileBlockStore pathname scan) :: s.added }
  | .rpcAddPeer addr =>
    (s.node.rpcAddPeer addr (some s.connections)).map fun e =>
      { s with node := e.node, connections := s.connections + 1 }
  | .rpcAddBlockStore addr bsid => some (s.announce addr bsid)
  | .removePeer addr => (s.node.removePeer addr).map fun t => { s with node := t }

/-- The connection of the client is the one that the node has with a peer. -/
def Connected (s : NodeHistory) (c : Client) : Prop :=
  ∃ p, s.node.peers[c.addr]? = some p ∧ p.client = c

/-- What the table has to be after the loss of the peer `addr`: it has the stores of the node, the
last one added under every number, and the stores of the connected peers, where no store of the node
has the same number; and no store is reached through the peer that is lost. -/
structure Owned (s : NodeHistory) (addr : PeerAddr) : Prop where
  added : ∀ bsid f, s.added.lookup bsid = some f → s.node.blockstores[bsid]? = some (.file f)
  accepted : ∀ c bsid, (c, bsid) ∈ s.accepted → s.Connected c →
    bsid ∈ s.node.blockstores ∧
      (s.added.lookup bsid = none → s.node.blockstores[bsid]? = some (.remote c bsid))
  removed : ∀ (bsid : UInt64) (c : Client) (b : UInt64),
    s.node.blockstores[bsid]? = some (.remote c b) → c.addr ≠ addr

/-- The table is right after a loss. -/
def OwnedAfter (s : NodeHistory) (a : NodeAction) : Prop :=
  ∀ addr t, a = .removePeer addr → s.step a = some t → t.Owned addr

/-- No store of the node has a number that is in the list of the peer that is lost. -/
def KeepsAdded (s : NodeHistory) : NodeAction → Prop
  | .removePeer addr => ∀ p ∈ s.node.peers[addr]?, ∀ bsid ∈ p.bsids,
      ∀ store ∈ s.node.blockstores[bsid]?, store.isFile = false
  | _ => True

/-! ### The table and the lists of the peers -/

/-- What the table, the lists of the peers and the record have to do with each other. A number is in
the list of at most one peer, its entry in the table is the store of this peer or a store of the
node that has taken its place, and every entry of a remote store is in the list of its peer. -/
structure Consistent (s : NodeHistory) : Prop where
  client : ∀ {addr : PeerAddr} {p : Peer}, s.node.peers[addr]? = some p →
    p.client.addr = addr ∧ p.client.number < s.connections
  number_lt : ∀ e ∈ s.accepted, e.1.number < s.connections
  bsids : ∀ {addr : PeerAddr} {p : Peer}, s.node.peers[addr]? = some p →
    ∀ bsid, bsid ∈ p.bsids ↔ (p.client, bsid) ∈ s.accepted
  held : ∀ {addr : PeerAddr} {p : Peer}, s.node.peers[addr]? = some p → ∀ bsid ∈ p.bsids,
    s.node.blockstores[bsid]? = some (.remote p.client bsid) ∨
      ∃ f, s.node.blockstores[bsid]? = some (.file f)
  unique : ∀ {addr addr' : PeerAddr} {p p' : Peer}, s.node.peers[addr]? = some p →
    s.node.peers[addr']? = some p' → ∀ bsid ∈ p.bsids, bsid ∈ p'.bsids → addr = addr'
  remote : ∀ {bsid : UInt64} {c : Client} {b : UInt64},
    s.node.blockstores[bsid]? = some (.remote c b) →
      ∃ p, s.node.peers[c.addr]? = some p ∧ bsid ∈ p.bsids
  file : ∀ {bsid : UInt64} {f : FileBlockStore},
    s.node.blockstores[bsid]? = some (.file f) → s.added.lookup bsid = some f

/-- The last store that was added under a number is in the table. -/
def HasAdded (s : NodeHistory) : Prop :=
  ∀ bsid f, s.added.lookup bsid = some f → s.node.blockstores[bsid]? = some (.file f)

theorem consistent_start (addr : PeerAddr) : Consistent (start addr) where
  client h := by simp [start, BlockStoreNode.create] at h
  number_lt e h := by simp [start] at h
  bsids h := by simp [start, BlockStoreNode.create] at h
  held h := by simp [start, BlockStoreNode.create] at h
  unique h := by simp [start, BlockStoreNode.create] at h
  remote h := by simp [start, BlockStoreNode.create] at h
  file h := by simp [start, BlockStoreNode.create] at h

theorem hasAdded_start (addr : PeerAddr) : HasAdded (start addr) := by
  intro bsid f h
  simp [start] at h

variable {s t : NodeHistory}

/-- The entries of a table after some were erased. -/
theorem getElem?_foldl_erase (table : Std.ExtTreeMap UInt64 Store) (bsids : List UInt64)
    (bsid : UInt64) :
    (bsids.foldl (fun table bsid => table.erase bsid) table)[bsid]? =
      if bsid ∈ bsids then none else table[bsid]? := by
  induction bsids generalizing table with
  | nil => simp
  | cons b bsids ih =>
    rw [List.foldl_cons, ih, getElem?_erase_ite]
    simp only [List.mem_cons]
    split_ifs <;> simp_all

/-- The last store under a number after one was added. -/
theorem lookup_added (added : List (UInt64 × FileBlockStore)) (k : UInt64) (f : FileBlockStore)
    (bsid : UInt64) :
    ((k, f) :: added).lookup bsid = if bsid = k then some f else added.lookup bsid := by
  rw [List.lookup_cons]
  by_cases h : bsid = k
  · rw [if_pos h, beq_iff_eq.2 h]
  · rw [if_neg h, beq_eq_false_iff_ne.2 h]

theorem Consistent.addBlockStore (hs : Consistent s) {bsid : UInt64} {pathname : Str} {scan : Scan}
    (h : s.step (.addBlockStore bsid pathname scan) = some t) : Consistent t := by
  rw [step, Option.some.injEq] at h
  subst h
  refine ⟨hs.client, hs.number_lt, hs.bsids, fun {addr p} hp b hb => ?_, hs.unique,
    fun {b c b'} hb => ?_, fun {b f} hb => ?_⟩
  · simp only [BlockStoreNode.addBlockStore, getElem?_insert_ite]
    split_ifs with heq
    · exact Or.inr ⟨_, rfl⟩
    · exact hs.held hp b hb
  · simp only [BlockStoreNode.addBlockStore, getElem?_insert_ite] at hb
    split_ifs at hb with heq
    · simp at hb
    · exact hs.remote hb
  · simp only [BlockStoreNode.addBlockStore, getElem?_insert_ite] at hb
    rw [lookup_added]
    split_ifs at hb ⊢ with heq
    · rw [Option.some.injEq, Store.file.injEq] at hb
      rw [hb]
    · exact hs.file hb

theorem Consistent.rpcAddPeer (hs : Consistent s) {addr : PeerAddr}
    (h : s.step (.rpcAddPeer addr) = some t) : Consistent t := by
  rw [step, BlockStoreNode.rpcAddPeer] at h
  by_cases hmem : addr ∈ s.node.peers
  · rw [if_pos hmem, Option.map_some, Option.some.injEq] at h
    subst h
    exact ⟨fun hp => ⟨(hs.client hp).1, (hs.client hp).2.trans (Nat.lt_succ_self _)⟩,
      fun e he => (hs.number_lt e he).trans (Nat.lt_succ_self _), hs.bsids, hs.held, hs.unique,
      hs.remote, hs.file⟩
  · rw [if_neg hmem, Option.map_some, Option.map_some, Option.some.injEq] at h
    subst h
    have hnone : s.node.peers[addr]? = none := Std.ExtTreeMap.getElem?_eq_none hmem
    -- A peer after the call is the new one, which has no stores, or it was there.
    have hpeer : ∀ {a : PeerAddr} {p : Peer},
        (s.node.peers.insert addr ⟨⟨addr, s.connections⟩, []⟩)[a]? = some p →
        (a = addr ∧ p = ⟨⟨addr, s.connections⟩, []⟩) ∨ s.node.peers[a]? = some p := by
      intro a p hp
      rw [getElem?_insert_ite] at hp
      split_ifs at hp with heq
      · exact Or.inl ⟨heq, (Option.some.inj hp).symm⟩
      · exact Or.inr hp
    have hbsids : ∀ {a : PeerAddr} {p : Peer} {b : UInt64},
        (s.node.peers.insert addr ⟨⟨addr, s.connections⟩, []⟩)[a]? = some p → b ∈ p.bsids →
        s.node.peers[a]? = some p := by
      intro a p b hp hb
      rcases hpeer hp with ⟨-, rfl⟩ | hp
      · exact absurd hb List.not_mem_nil
      · exact hp
    refine ⟨fun {a p} hp => ?_, fun e he => (hs.number_lt e he).trans (Nat.lt_succ_self _),
      fun {a p} hp b => ?_, fun {a p} hp b hb => hs.held (hbsids hp hb) b hb,
      fun {a a' p p'} hp hp' b hb hb' => hs.unique (hbsids hp hb) (hbsids hp' hb') b hb hb',
      fun {b c b'} hb => ?_, hs.file⟩
    · rcases hpeer hp with ⟨rfl, rfl⟩ | hp
      · exact ⟨rfl, Nat.lt_succ_self _⟩
      · exact ⟨(hs.client hp).1, (hs.client hp).2.trans (Nat.lt_succ_self _)⟩
    · rcases hpeer hp with ⟨-, rfl⟩ | hp
      · -- No store was accepted from a connection that is just made.
        refine ⟨fun hb => absurd hb List.not_mem_nil, fun he => ?_⟩
        exact absurd (hs.number_lt _ he) (lt_irrefl _)
      · exact hs.bsids hp b
    · obtain ⟨p, hp, hbp⟩ := hs.remote hb
      refine ⟨p, ?_, hbp⟩
      rw [getElem?_insert_ite, if_neg, hp]
      rintro heq
      rw [heq, hnone] at hp
      simp at hp

/-- A store that is announced is refused, or its peer is there and nothing has its number. -/
theorem announce_cases (s : NodeHistory) (addr : PeerAddr) (bsid : UInt64) :
    s.announce addr bsid = s ∨
    ∃ p, s.node.peers[addr]? = some p ∧ bsid ∉ s.node.blockstores ∧
      s.announce addr bsid =
        { s with
          node := { s.node with
            peers := s.node.peers.insert addr ⟨p.client, p.bsids ++ [bsid]⟩
            blockstores := s.node.blockstores.insert bsid (.remote p.client bsid) }
          accepted := (p.client, bsid) :: s.accepted } := by
  cases hp : s.node.peers[addr]? with
  | none => exact Or.inl (by simp [announce, BlockStoreNode.rpcAddBlockStore, hp])
  | some p =>
    by_cases hmem : bsid ∈ s.node.blockstores
    · exact Or.inl (by simp [announce, BlockStoreNode.rpcAddBlockStore, hp, hmem])
    · refine Or.inr ⟨p, rfl, hmem, ?_⟩
      simp [announce, BlockStoreNode.rpcAddBlockStore, hp, hmem, Peer.registerBlockStore]

/-- A number without an entry is in no list. -/
theorem Consistent.notMem_bsids (hs : Consistent s) {bsid : UInt64}
    (hmem : bsid ∉ s.node.blockstores) {addr : PeerAddr} {p : Peer}
    (hp : s.node.peers[addr]? = some p) : bsid ∉ p.bsids := by
  intro hb
  have hnone : s.node.blockstores[bsid]? = none := Std.ExtTreeMap.getElem?_eq_none hmem
  rcases hs.held hp bsid hb with h | ⟨f, h⟩
  · simp [hnone] at h
  · simp [hnone] at h

/-- A peer after a store was accepted is a peer before it, with one number more if it is the one
that announced the store. -/
theorem peer_of_registered {peers : Std.ExtTreeMap PeerAddr Peer} {addr : PeerAddr} {q : Peer}
    (hq : peers[addr]? = some q) {bsid : UInt64} {a : PeerAddr} {p : Peer}
    (hp : (peers.insert addr ⟨q.client, q.bsids ++ [bsid]⟩)[a]? = some p) :
    ∃ r : Peer, peers[a]? = some r ∧ p.client = r.client ∧
      ∀ b, b ∈ p.bsids ↔ b ∈ r.bsids ∨ (a = addr ∧ b = bsid) := by
  rw [getElem?_insert_ite] at hp
  split_ifs at hp with ha
  · rw [← Option.some.inj hp, ha]
    exact ⟨q, hq, rfl, fun b => by simp⟩
  · exact ⟨p, hp, rfl, fun b => by simp [ha]⟩

theorem Consistent.announce (hs : Consistent s) (addr : PeerAddr) (bsid : UInt64) :
    Consistent (s.announce addr bsid) := by
  rcases announce_cases s addr bsid with heq | ⟨q, hq, hmem, heq⟩
  · rwa [heq]
  · have hclient : ∀ {a : PeerAddr} {r : Peer}, s.node.peers[a]? = some r →
        (r.client = q.client ↔ a = addr) := by
      intro a r hr
      constructor
      · intro h
        rw [← (hs.client hr).1, ← (hs.client hq).1, h]
      · rintro rfl
        rw [Option.some.inj (hr.symm.trans hq)]
    rw [heq]
    refine ⟨fun {a p} hp => ?_, fun e he => ?_, fun {a p} hp b => ?_, fun {a p} hp b hb => ?_,
      fun {a a' p p'} hp hp' b hb hb' => ?_, fun {b c b'} hb => ?_, fun {b f} hb => ?_⟩
    · obtain ⟨r, hr, hpc, -⟩ := peer_of_registered hq hp
      rw [hpc]
      exact hs.client hr
    · rcases List.mem_cons.1 he with rfl | he
      · exact (hs.client hq).2
      · exact hs.number_lt e he
    · obtain ⟨r, hr, hpc, hbsids⟩ := peer_of_registered hq hp
      rw [hbsids, hs.bsids hr, hpc, List.mem_cons, Prod.mk.injEq, hclient hr, or_comm]
    · obtain ⟨r, hr, hpc, hbsids⟩ := peer_of_registered hq hp
      simp only [getElem?_insert_ite]
      rcases (hbsids b).1 hb with hb | ⟨rfl, rfl⟩
      · rw [if_neg fun h : b = bsid => hs.notMem_bsids hmem hr (h ▸ hb), hpc]
        exact hs.held hr b hb
      · rw [if_pos rfl, hpc, (hclient hr).2 rfl]
        exact Or.inl rfl
    · obtain ⟨r, hr, -, hbsids⟩ := peer_of_registered hq hp
      obtain ⟨r', hr', -, hbsids'⟩ := peer_of_registered hq hp'
      rcases (hbsids b).1 hb with hb | ⟨rfl, rfl⟩
      · rcases (hbsids' b).1 hb' with hb' | ⟨-, rfl⟩
        · exact hs.unique hr hr' b hb hb'
        · exact absurd hb (hs.notMem_bsids hmem hr)
      · rcases (hbsids' b).1 hb' with hb' | ⟨rfl, -⟩
        · exact absurd hb' (hs.notMem_bsids hmem hr')
        · rfl
    · rw [getElem?_insert_ite] at hb
      rw [getElem?_insert_ite]
      split_ifs at hb with hbsid
      · rw [Option.some.injEq, Store.remote.injEq] at hb
        rw [← hb.1, if_pos (hs.client hq).1]
        exact ⟨_, rfl, by simp [hbsid]⟩
      · obtain ⟨p, hp, hbp⟩ := hs.remote hb
        split_ifs with haddr
        · rw [haddr, hq, Option.some.injEq] at hp
          exact ⟨_, rfl, by simp [hp, hbp]⟩
        · exact ⟨p, hp, hbp⟩
    · rw [getElem?_insert_ite] at hb
      split_ifs at hb with hbsid
      · simp at hb
      · exact hs.file hb

/-- The loss of a peer erases its numbers from the table and nothing else. -/
theorem removePeer_cases {addr : PeerAddr} (h : s.step (.removePeer addr) = some t) :
    ∃ q, s.node.peers[addr]? = some q ∧ t.connections = s.connections ∧ t.added = s.added ∧
      t.accepted = s.accepted ∧
      (∀ a, t.node.peers[a]? = if a = addr then none else s.node.peers[a]?) ∧
      ∀ bsid, t.node.blockstores[bsid]? =
        if bsid ∈ q.bsids then none else s.node.blockstores[bsid]? := by
  simp only [step, BlockStoreNode.removePeer, Option.map_eq_some_iff] at h
  obtain ⟨-, ⟨q, hq, rfl⟩, rfl⟩ := h
  exact ⟨q, hq, rfl, rfl, rfl, getElem?_erase_ite _ addr, getElem?_foldl_erase _ _⟩

theorem Consistent.removePeer (hs : Consistent s) {addr : PeerAddr}
    (h : s.step (.removePeer addr) = some t) : Consistent t := by
  obtain ⟨q, hq, hconnections, hadded, haccepted, hpeers, htable⟩ := removePeer_cases h
  have hpeer : ∀ {a : PeerAddr} {p : Peer}, t.node.peers[a]? = some p →
      a ≠ addr ∧ s.node.peers[a]? = some p := by
    intro a p hp
    rw [hpeers] at hp
    split_ifs at hp with ha
    exact ⟨ha, hp⟩
  refine ⟨fun {a p} hp => ?_, fun e he => ?_, fun {a p} hp b => ?_, fun {a p} hp b hb => ?_,
    fun {a a' p p'} hp hp' => ?_, fun {b c b'} hb => ?_, fun {b f} hb => ?_⟩
  · rw [hconnections]
    exact hs.client (hpeer hp).2
  · rw [haccepted] at he
    rw [hconnections]
    exact hs.number_lt e he
  · rw [haccepted]
    exact hs.bsids (hpeer hp).2 b
  · -- The numbers of the other peers are not in the list.
    obtain ⟨hne, hp⟩ := hpeer hp
    rw [htable, if_neg fun hbq => hne (hs.unique hp hq b hb hbq)]
    exact hs.held hp b hb
  · exact hs.unique (hpeer hp).2 (hpeer hp').2
  · rw [htable] at hb
    split_ifs at hb with hbq
    obtain ⟨p, hp, hbp⟩ := hs.remote hb
    refine ⟨p, ?_, hbp⟩
    rw [hpeers, if_neg, hp]
    intro haddr
    rw [haddr, hq, Option.some.injEq] at hp
    exact hbq (hp ▸ hbp)
  · rw [htable] at hb
    split_ifs at hb
    rw [hadded]
    exact hs.file hb

theorem Consistent.step (hs : Consistent s) {a : NodeAction} (h : s.step a = some t) :
    Consistent t := by
  cases a with
  | addBlockStore bsid pathname scan => exact hs.addBlockStore h
  | rpcAddPeer addr => exact hs.rpcAddPeer h
  | rpcAddBlockStore addr bsid => exact Option.some.inj h ▸ hs.announce addr bsid
  | removePeer addr => exact hs.removePeer h

/-! ### The stores of the node -/

/-- A step keeps the stores of the node in the table, when no lost peer has one of them in its
list. -/
theorem HasAdded.step (hs : HasAdded s) {a : NodeAction} (hkeeps : KeepsAdded s a)
    (h : s.step a = some t) : HasAdded t := by
  intro b f hb
  cases a with
  | addBlockStore bsid pathname scan =>
    rw [NodeHistory.step, Option.some.injEq] at h
    subst h
    rw [lookup_added] at hb
    simp only [BlockStoreNode.addBlockStore, getElem?_insert_ite]
    split_ifs at hb ⊢ with heq
    · rw [Option.some.inj hb]
    · exact hs b f hb
  | rpcAddPeer addr =>
    rw [NodeHistory.step, Option.map_eq_some_iff] at h
    obtain ⟨e, he, rfl⟩ := h
    rw [BlockStoreNode.blockstores_rpcAddPeer he]
    exact hs b f hb
  | rpcAddBlockStore addr bsid =>
    rw [NodeHistory.step, Option.some.injEq] at h
    subst h
    rcases announce_cases s addr bsid with heq | ⟨q, hq, hmem, heq⟩
    · rw [heq] at hb ⊢
      exact hs b f hb
    · rw [heq] at hb ⊢
      have hfile := hs b f hb
      simp only [getElem?_insert_ite]
      rw [if_neg, hfile]
      rintro rfl
      rw [Std.ExtTreeMap.getElem?_eq_none hmem] at hfile
      simp at hfile
  | removePeer addr =>
    obtain ⟨q, hq, -, hadded, -, -, htable⟩ := removePeer_cases h
    rw [hadded] at hb
    have hfile := hs b f hb
    rw [htable, if_neg, hfile]
    intro hbq
    exact absurd (hkeeps q hq b hbq (.file f) hfile) Bool.noConfusion

/-- The table is right after a loss when it has the stores of the node. -/
theorem owned_of_hasAdded (hs : Consistent s) {addr : PeerAddr}
    (h : s.step (.removePeer addr) = some t) (hadded : HasAdded t) : t.Owned addr := by
  have ht := hs.removePeer h
  obtain ⟨q, hq, -, -, -, hpeers, -⟩ := removePeer_cases h
  refine ⟨hadded, fun c bsid hmem hconnected => ?_, fun bsid c b hb haddr => ?_⟩
  · obtain ⟨p, hp, rfl⟩ := hconnected
    have hbsid := (ht.bsids hp bsid).2 hmem
    refine ⟨?_, fun hnone => ?_⟩
    · rcases ht.held hp bsid hbsid with h | ⟨f, h⟩
      · exact Std.ExtTreeMap.mem_iff_isSome_getElem?.2 (by rw [h, Option.isSome_some])
      · exact Std.ExtTreeMap.mem_iff_isSome_getElem?.2 (by rw [h, Option.isSome_some])
    · rcases ht.held hp bsid hbsid with h | ⟨f, h⟩
      · exact h
      · rw [ht.file h] at hnone
        simp at hnone
  · obtain ⟨p, hp, -⟩ := ht.remote hb
    rw [hpeers, if_pos haddr] at hp
    simp at hp

/-- A store of the node that is in the list of a lost peer is lost with it. -/
theorem keepsAdded_of_owned (hs : Consistent s) {a : NodeAction} (h : s.step a = some t)
    (howned : OwnedAfter s a) : KeepsAdded s a := by
  cases a with
  | addBlockStore | rpcAddPeer | rpcAddBlockStore => trivial
  | removePeer addr =>
    intro p hp bsid hbsid store hstore
    cases store with
    | remote c b => rfl
    | file f =>
      obtain ⟨q, hq, -, hadded, -, -, htable⟩ := removePeer_cases h
      have hkept := (howned addr t rfl h).added bsid f (hadded ▸ hs.file hstore)
      rw [htable, if_pos (Option.some.inj (hp.symm.trans hq) ▸ hbsid)] at hkept
      simp at hkept

/-- **Ownership.** In a run of the node, the table has the stores of the node and of the connected
peers, and none of the peer that is lost, after every loss of a peer, if and only if no peer that is
lost has a store of the node in its list. -/
theorem owned_iff_keepsAdded (addr : PeerAddr) {as : List NodeAction} {u : NodeHistory}
    (hu : exec NodeHistory.step (start addr) as = some u) :
    AllSteps NodeHistory.step OwnedAfter (start addr) as ↔
      AllSteps NodeHistory.step KeepsAdded (start addr) as := by
  constructor
  · intro howned
    refine (howned.of_invariant Consistent ?_ (consistent_start addr) hu).1
    intro s a t hs howned hstep
    exact ⟨keepsAdded_of_owned hs hstep howned, hs.step hstep⟩
  · intro hkeeps
    refine (hkeeps.of_invariant (fun s => Consistent s ∧ HasAdded s) ?_
      ⟨consistent_start addr, hasAdded_start addr⟩ hu).1
    rintro s a t ⟨hs, hadded⟩ hkeeps hstep
    have hadded' := hadded.step hkeeps hstep
    refine ⟨?_, hs.step hstep, hadded'⟩
    rintro P t' rfl hstep'
    rw [hstep, Option.some.injEq] at hstep'
    exact hstep' ▸ owned_of_hasAdded hs hstep hadded'

/-- A node, its two peers, and a system that says nothing of its files. -/
def home : PeerAddr := ⟨.ofString "a", 1⟩

def lostPeer : PeerAddr := ⟨.ofString "b", 1⟩

def otherPeer : PeerAddr := ⟨.ofString "c", 1⟩

def noScan : Scan := ⟨none, none⟩

/-- The two peers and the node have a store each. -/
def threeStores : List NodeAction :=
  [.rpcAddPeer lostPeer, .rpcAddPeer otherPeer, .rpcAddBlockStore lostPeer 5,
    .rpcAddBlockStore otherPeer 6, .addBlockStore 7 (.ofString "/d") noScan]

/-- Then a peer is lost. -/
theorem owned_threeStores :
    ∃ u, exec NodeHistory.step (start home) (threeStores ++ [.removePeer lostPeer]) = some u ∧
      u.node.blockstores.keys = [6, 7] ∧
      AllSteps NodeHistory.step OwnedAfter (start home)
        (threeStores ++ [.removePeer lostPeer]) := by
  have hrun : ∃ u, exec NodeHistory.step (start home) (threeStores ++ [.removePeer lostPeer]) =
      some u ∧ u.node.blockstores.keys = [6, 7] := ⟨_, rfl, by decide +kernel⟩
  have hlost : ∃ s, exec NodeHistory.step (start home) threeStores = some s ∧
      s.node.peers[lostPeer]? = some ⟨⟨lostPeer, 0⟩, [5]⟩ ∧
      (s.node.blockstores[(5 : UInt64)]?).map Store.isFile = some false :=
    ⟨_, rfl, by decide +kernel, by decide +kernel⟩
  have hkeeps : AllSteps NodeHistory.step KeepsAdded (start home)
      (threeStores ++ [.removePeer lostPeer]) := by
    refine allSteps_concat.2 ⟨by simp [AllSteps, threeStores, KeepsAdded], fun t ht => ?_⟩
    intro p hp bsid hbsid store hstore
    obtain ⟨s, hs, hpeer, hfive⟩ := hlost
    rw [hs, Option.some.injEq] at ht
    subst ht
    rw [hpeer] at hp
    rw [← Option.some.inj hp, List.mem_singleton] at hbsid
    rw [hbsid] at hstore
    rw [hstore, Option.map_some, Option.some.injEq] at hfive
    exact hfive
  obtain ⟨u, hu, hkeys⟩ := hrun
  exact ⟨u, hu, hkeys, (owned_iff_keepsAdded home hu).2 hkeeps⟩

/-- A store of the node takes the number that a peer has announced, and the peer is lost. -/
def takenOver : List NodeAction :=
  [.rpcAddPeer lostPeer, .rpcAddBlockStore lostPeer 5, .addBlockStore 5 (.ofString "/d") noScan,
    .removePeer lostPeer]

/-- The store of the node is lost. -/
theorem not_owned_takenOver :
    ∃ u, exec NodeHistory.step (start home) takenOver = some u ∧
      u.added.lookup 5 = some (BlockStoreNode.fileBlockStore (.ofString "/d") noScan) ∧
      u.node.blockstores[(5 : UInt64)]? = none ∧ ¬ u.Owned lostPeer := by
  have hrun : ∃ u, exec NodeHistory.step (start home) takenOver = some u ∧
      u.added.lookup 5 = some (BlockStoreNode.fileBlockStore (.ofString "/d") noScan) ∧
      (u.node.blockstores[(5 : UInt64)]?).isNone := ⟨_, rfl, rfl, by decide +kernel⟩
  obtain ⟨u, hu, hadded, hnone⟩ := hrun
  rw [Option.isNone_iff_eq_none] at hnone
  refine ⟨u, hu, hadded, hnone, fun howned => ?_⟩
  have hfile := howned.added 5 _ hadded
  rw [hnone] at hfile
  simp at hfile

end NodeHistory

end RawDish.BlockStore
