import RawDish.BlockStore.Peering

/-!
# Stores that peers announce

A peer announces its stores with the call `addBlockStore`, whose one argument is the number of the
store. `RPCAddBlockStore` also takes the address of the peer, and the constructor of the node binds
these arguments to `_host` and `_port`, the address of the node itself. So the handler does not look
for the sender in the table of the peers but for the node, which is not there unless it was asked to
connect to itself: no announcement is accepted, whoever sends it.

## Main definitions

* `BlockStoreNode.handleAddBlockStore` : the handler as it is registered.
* `Request`, `NodeHistory.serve` : the node with its handlers.
* `Reached` : what an announcement should do.

## Main results

* `NodeHistory.handleAddBlockStore_of_exec` : every announcement is refused.
* `reached_iff` : the announcements that are handled as they should be.

## References

* `src/blockstore/blockstore_daemon.h`, lines 72–89, 254–261 and 354–371.
* `src/blockstore/blockstore_daemon.cc`, lines 89–103.
-/

namespace RawDish.BlockStore

open Lib

/-- The handler of `addBlockStore` as the constructor registers it. The sender of the call is not an
argument of the handler. -/
def BlockStoreNode.handleAddBlockStore (s : BlockStoreNode) (_sender : PeerAddr) (bsid : UInt64) :
    BlockStoreNode × Bool :=
  s.rpcAddBlockStore s.addr bsid

/-- What happens to a node: a store is added to it, a call of `addPeer` or of `addBlockStore`
arrives, or a peer is lost. -/
inductive Request
  | addBlockStore (bsid : UInt64) (pathname : Str) (scan : Scan)
  | addPeer (addr : PeerAddr)
  | announce (sender : PeerAddr) (bsid : UInt64)
  | removePeer (addr : PeerAddr)

/-- The function that the node with the address `home` runs. -/
def Request.action (home : PeerAddr) : Request → NodeAction
  | .addBlockStore bsid pathname scan => .addBlockStore bsid pathname scan
  | .addPeer addr => .rpcAddPeer addr
  | .announce _ bsid => .rpcAddBlockStore home bsid
  | .removePeer addr => .removePeer addr

/-- One step of the node. -/
def NodeHistory.serve (s : NodeHistory) (r : Request) : Option NodeHistory :=
  s.step (r.action s.node.addr)

/-- What an announcement should do: the store of a peer under a new number gets into the table, with
the client of the peer, and a sender that is not a peer is refused and changes nothing. -/
structure Reached (s : BlockStoreNode) (sender : PeerAddr) (bsid : UInt64) : Prop where
  accepts : ∀ p, s.peers[sender]? = some p → bsid ∉ s.blockstores →
    (s.handleAddBlockStore sender bsid).2 = true ∧
      (s.handleAddBlockStore sender bsid).1.blockstores[bsid]? = some (.remote p.client bsid)
  refuses : sender ∉ s.peers → s.handleAddBlockStore sender bsid = (s, false)

namespace NodeHistory

variable {s t : NodeHistory}

/-- The address of the node does not change. -/
theorem addr_step {a : NodeAction} (h : s.step a = some t) : t.node.addr = s.node.addr := by
  cases a with
  | addBlockStore bsid pathname scan => rw [← Option.some.inj h, BlockStoreNode.addBlockStore]
  | rpcAddPeer addr =>
    obtain ⟨e, he, rfl⟩ := Option.map_eq_some_iff.1 h
    rw [BlockStoreNode.rpcAddPeer] at he
    split_ifs at he
    · rw [← Option.some.inj he]
    · rw [← Option.some.inj he]
  | rpcAddBlockStore addr bsid =>
    rw [← Option.some.inj h]
    rcases announce_cases s addr bsid with heq | ⟨p, -, -, heq⟩
    · rw [heq]
    · rw [heq]
  | removePeer addr =>
    obtain ⟨n, hn, rfl⟩ := Option.map_eq_some_iff.1 h
    obtain ⟨q, -, rfl⟩ := Option.map_eq_some_iff.1 hn
    rfl

/-- A node that is not asked to connect to itself is not one of its peers. -/
theorem home_notMem_peers {home : PeerAddr} {rs : List Request} (hself : .addPeer home ∉ rs)
    (hrun : exec serve (start home) rs = some s) :
    s.node.addr = home ∧ home ∉ s.node.peers := by
  induction rs using List.reverseRecOn generalizing s with
  | nil =>
    rw [exec_nil, Option.some.injEq] at hrun
    rw [← hrun]
    exact ⟨rfl, Std.ExtTreeMap.not_mem_empty⟩
  | append_singleton rs r ih =>
    rw [List.mem_append, List.mem_singleton, not_or] at hself
    obtain ⟨t, ht, hstep⟩ := exec_concat_eq_some.1 hrun
    obtain ⟨haddr, hnot⟩ := ih hself.1 ht
    refine ⟨(addr_step hstep).trans haddr, fun hmem => ?_⟩
    rcases (mem_peers_step_iff hstep).1 hmem with ⟨hold, -⟩ | hadd
    · exact hnot hold
    · cases r with
      | addPeer addr =>
        rw [Request.action, NodeAction.rpcAddPeer.injEq] at hadd
        exact hself.2 (hadd ▸ rfl)
      | addBlockStore | announce | removePeer => simp [Request.action] at hadd

/-- Every announcement is refused. -/
theorem handleAddBlockStore_of_exec {home : PeerAddr} {rs : List Request}
    (hself : .addPeer home ∉ rs) (hrun : exec serve (start home) rs = some s) (sender : PeerAddr)
    (bsid : UInt64) : s.node.handleAddBlockStore sender bsid = (s.node, false) := by
  obtain ⟨haddr, hnot⟩ := home_notMem_peers hself hrun
  rw [BlockStoreNode.handleAddBlockStore, BlockStoreNode.rpcAddBlockStore, haddr,
    Std.ExtTreeMap.getElem?_eq_none hnot]

end NodeHistory

open NodeHistory (start serve home lostPeer otherPeer)

/-- **Stores that peers announce.** In every state that a node reaches without being asked to
connect to itself, an announcement is handled as it should be if and only if its sender is not a
peer or there is a store with the number already. -/
theorem reached_iff (self : PeerAddr) (rs : List Request) (hself : .addPeer self ∉ rs)
    (s : NodeHistory) (hrun : exec serve (start self) rs = some s) (sender : PeerAddr)
    (bsid : UInt64) :
    Reached s.node sender bsid ↔ sender ∉ s.node.peers ∨ bsid ∈ s.node.blockstores := by
  have hrefused := NodeHistory.handleAddBlockStore_of_exec hself hrun sender bsid
  constructor
  · intro h
    by_contra hnot
    rw [not_or, not_not] at hnot
    obtain ⟨p, hp⟩ := Option.isSome_iff_exists.1
      (Std.ExtTreeMap.mem_iff_isSome_getElem?.1 hnot.1)
    have htrue := (h.accepts p hp hnot.2).1
    rw [hrefused] at htrue
    exact Bool.false_ne_true htrue
  · rintro hcond
    refine ⟨fun p hp hnew => ?_, fun _ => hrefused⟩
    rcases hcond with hsender | hbsid
    · rw [Std.ExtTreeMap.getElem?_eq_none hsender] at hp
      exact absurd hp.symm (Option.some_ne_none p)
    · exact absurd hbsid hnew

theorem not_asked_to_home : Request.addPeer home ∉ [Request.addPeer lostPeer] := by
  rw [List.mem_singleton, Request.addPeer.injEq]
  decide

/-- A node with one peer refuses another node. -/
theorem reached_otherPeer :
    ∃ s, exec serve (start home) [.addPeer lostPeer] = some s ∧ Reached s.node otherPeer 5 := by
  obtain ⟨s, hs⟩ : ∃ s, exec serve (start home) [.addPeer lostPeer] = some s := ⟨_, rfl⟩
  refine ⟨s, hs, (reached_iff home _ not_asked_to_home s hs otherPeer 5).2 (Or.inl ?_)⟩
  rw [← Option.some.inj hs]
  decide +kernel

/-- The peer announces a store under a new number and is refused as well. -/
theorem reached_fails_lostPeer :
    ∃ s p, exec serve (start home) [.addPeer lostPeer] = some s ∧
      s.node.peers[lostPeer]? = some p ∧ (5 : UInt64) ∉ s.node.blockstores ∧
      s.node.handleAddBlockStore lostPeer 5 = (s.node, false) ∧ ¬ Reached s.node lostPeer 5 := by
  obtain ⟨s, hs⟩ : ∃ s, exec serve (start home) [.addPeer lostPeer] = some s := ⟨_, rfl⟩
  have hrefused := NodeHistory.handleAddBlockStore_of_exec not_asked_to_home hs lostPeer 5
  have hp : s.node.peers[lostPeer]? = some ⟨⟨lostPeer, 0⟩, []⟩ := by
    rw [← Option.some.inj hs]
    decide +kernel
  have hnew : (5 : UInt64) ∉ s.node.blockstores := by
    rw [← Option.some.inj hs]
    exact Std.ExtTreeMap.not_mem_empty
  refine ⟨s, _, hs, hp, hnew, hrefused, fun h => ?_⟩
  have htrue := (h.accepts _ hp hnew).1
  rw [hrefused] at htrue
  exact Bool.false_ne_true htrue

end RawDish.BlockStore
