import RawDish.BlockStore.BlockStoreNode

/-!
# A peer that could not be added

`RPCAddPeer` enters a peer into the table first. Then it connects to it and asks it to connect back,
sets the callback for its loss, and tells it the addresses of the other peers. The future that it
returns is the answer of the peer, or false when there is no connection. The documentation of the
node says that a peer that could not be added is forgotten, but no step takes it out of the table:
without a connection the client object that the callback is set at is missing, and the answer false
of a peer is passed on and nothing else.

`Tables` is the node in the middle of such a call, in which a peer may have no client.

## Main definitions

* `PeerObject`, `Tables` : peers with and without a client.
* `Tables.rpcAddPeer` : the call, step by step.
* `Forgets` : what the documentation says about a peer that could not be added.

## Main results

* `Tables.rpcAddPeer_tables` : the steps make up `BlockStoreNode.rpcAddPeer`.
* `not_forgets` : a peer that could not be added is never forgotten.
* `NodeHistory.rpcAddPeer_of_exec` : until it is lost, every later attempt answers true.

## References

* `src/blockstore/blockstore_daemon.h`, lines 77–83, 187–268 and 327–352.
-/

namespace RawDish.BlockStore

open Lib

/-- A `Peer`. The client is unset until there is a connection. -/
structure PeerObject where
  client : Option Client
  bsids : List UInt64
  deriving DecidableEq

/-- A node in the middle of a call, and the calls that were written. -/
structure Tables where
  addr : PeerAddr
  peers : Std.ExtTreeMap PeerAddr PeerObject
  blockstores : Std.ExtTreeMap UInt64 Store
  calls : List AddPeerCall

namespace Tables

/-- `_client` of the peer with the address. -/
def client (s : Tables) (addr : PeerAddr) : Option Client := s.peers[addr]?.bind PeerObject.client

/-- Connects to a peer and requests the peer to connect back to us. -/
def connect (s : Tables) (addr : PeerAddr) : Option ℕ → Tables × Rpc.Answer
  | none => (s, .ready false)
  | some number =>
    ({ s with
      peers := s.peers.modify addr fun p => { p with client := some ⟨addr, number⟩ }
      calls := s.calls ++ [⟨⟨addr, number⟩, s.addr⟩] }, .callback)

/-- Sets a callback to be triggered when this peer disconnects; `none` when the client object is
missing. -/
def setDisconnectCallback (s : Tables) (addr : PeerAddr) : Option Tables :=
  (s.client addr).map fun _ => s

/-- Hook up the host with our other peers. -/
def hookUp (s : Tables) (addr : PeerAddr) : List PeerAddr → Option Tables
  | [] => some s
  | p :: ps =>
    if addr ≠ p then
      (s.client addr).bind fun c => hookUp { s with calls := s.calls ++ [⟨c, p⟩] } addr ps
    else hookUp s addr ps

/-- `RPCAddPeer`, step by step; `none` when a missing client object is used. -/
def rpcAddPeer (s : Tables) (addr : PeerAddr) (socket : Option ℕ) :
    Option (Tables × Rpc.Answer) :=
  if addr ∈ s.peers then some (s, .ready true)
  else
    let ret := { s with peers := s.peers.insert addr ⟨none, []⟩ }.connect addr socket
    (ret.1.setDisconnectCallback addr).bind fun t =>
      (t.hookUp addr t.peers.keys).map fun u => (u, ret.2)

end Tables

/-- Why a peer could not be added. -/
inductive Failure
  /-- There is no connection. -/
  | connect
  /-- The peer at the other end of the connection with the number answered false. -/
  | answer (number : ℕ)

def Failure.socket : Failure → Option ℕ
  | .connect => none
  | .answer number => some number

/-- The future once the first call is answered. The answer sets the future and nothing else. -/
def answered : Rpc.Answer → Bool → Bool
  | .ready value, _ => value
  | .callback, value => value

/-- The peer is forgotten: the call uses no missing client object and yields false, the tables are
as they were, and a later attempt connects again. -/
def Forgets (s : Tables) (addr : PeerAddr) (f : Failure) : Prop :=
  ∃ t ret, s.rpcAddPeer addr f.socket = some (t, ret) ∧ answered ret false = false ∧
    t.peers = s.peers ∧ t.blockstores = s.blockstores ∧
    ∀ number, ∃ u, t.rpcAddPeer addr (some number) = some (u, .callback)

namespace Tables

variable {s : Tables} {addr : PeerAddr}

/-- With a client all other peers are named to it. -/
theorem hookUp_eq {c : Client} (h : s.client addr = some c) (ps : List PeerAddr) :
    s.hookUp addr ps =
      some { s with calls := s.calls ++ (ps.filter fun p => addr ≠ p).map fun p => ⟨c, p⟩ } := by
  induction ps generalizing s with
  | nil => rw [hookUp, List.filter_nil, List.map_nil, List.append_nil]
  | cons p ps ih =>
    rw [hookUp]
    split_ifs with hp
    · rw [h, Option.bind_some, ih (by exact h), List.filter_cons_of_pos (by simpa using hp),
        List.map_cons, List.append_assoc, List.singleton_append]
    · rw [ih h, List.filter_cons_of_neg (by simpa using hp)]

/-- The new peer has its client in the end. -/
theorem insert_modify (peers : Std.ExtTreeMap PeerAddr PeerObject) (addr : PeerAddr)
    (c : Client) :
    ((peers.insert addr ⟨none, []⟩).modify addr fun p => { p with client := some c }) =
      peers.insert addr ⟨some c, []⟩ := by
  refine Std.ExtTreeMap.ext_getElem? fun a => ?_
  rw [Std.ExtTreeMap.getElem?_modify, getElem?_insert_ite, getElem?_insert_ite,
    getElem?_insert_ite]
  by_cases h : a = addr
  · simp [h]
  · rw [if_neg h, if_neg h, if_neg]
    rw [Std.compare_eq_iff_eq]
    exact fun heq => h heq.symm

/-- Without a connection the callback is set at a client object that is missing. -/
theorem rpcAddPeer_connect (h : addr ∉ s.peers) : s.rpcAddPeer addr none = none := by
  rw [rpcAddPeer, if_neg h]
  simp [connect, setDisconnectCallback, client]

/-- With a connection the peer is in the table, whatever it answers. -/
theorem rpcAddPeer_some (h : addr ∉ s.peers) (number : ℕ) :
    s.rpcAddPeer addr (some number) =
      some ({ s with
        peers := s.peers.insert addr ⟨some ⟨addr, number⟩, []⟩
        calls := s.calls ++ ⟨⟨addr, number⟩, s.addr⟩ ::
          ((s.peers.insert addr ⟨some ⟨addr, number⟩, []⟩).keys.filter fun p => addr ≠ p).map
            fun p => ⟨⟨addr, number⟩, p⟩ }, .callback) := by
  have hclient : ∀ calls, client ⟨s.addr, s.peers.insert addr ⟨some ⟨addr, number⟩, []⟩,
      s.blockstores, calls⟩ addr = some ⟨addr, number⟩ := by
    intro calls
    rw [client, getElem?_insert_ite, if_pos rfl, Option.bind_some]
  rw [rpcAddPeer, if_neg h]
  simp only [connect, insert_modify, setDisconnectCallback, hclient, Option.map_some,
    Option.bind_some, hookUp_eq (hclient _), List.append_assoc, List.singleton_append]

/-- A peer that is in the table is not connected to. -/
theorem rpcAddPeer_of_mem (h : addr ∈ s.peers) (socket : Option ℕ) :
    s.rpcAddPeer addr socket = some (s, .ready true) := by
  rw [rpcAddPeer, if_pos h]

end Tables

/-- A node whose peers all have a client. -/
def BlockStoreNode.tables (s : BlockStoreNode) (calls : List AddPeerCall) : Tables where
  addr := s.addr
  peers := s.peers.map fun _ p => ⟨some p.client, p.bsids⟩
  blockstores := s.blockstores
  calls := calls

/-- The steps make up the call. -/
theorem Tables.rpcAddPeer_tables (s : BlockStoreNode) (calls : List AddPeerCall) (addr : PeerAddr)
    (socket : Option ℕ) :
    (s.tables calls).rpcAddPeer addr socket =
      (s.rpcAddPeer addr socket).map fun e => (e.node.tables (calls ++ e.calls), e.answer) := by
  have hmem : addr ∈ (s.tables calls).peers ↔ addr ∈ s.peers := Std.ExtTreeMap.mem_map
  by_cases h : addr ∈ s.peers
  · rw [rpcAddPeer_of_mem (hmem.2 h), BlockStoreNode.rpcAddPeer, if_pos h, Option.map_some,
      List.append_nil]
  · rw [BlockStoreNode.rpcAddPeer, if_neg h]
    cases socket with
    | none => exact rpcAddPeer_connect fun h' => h (hmem.1 h')
    | some number =>
      have hpeers : (s.tables calls).peers.insert addr ⟨some ⟨addr, number⟩, []⟩ =
          (s.peers.insert addr ⟨⟨addr, number⟩, []⟩).map
            fun _ p => ⟨some p.client, p.bsids⟩ := by
        refine Std.ExtTreeMap.ext_getElem? fun a => ?_
        rw [getElem?_insert_ite, Std.ExtTreeMap.getElem?_map, getElem?_insert_ite,
          BlockStoreNode.tables, Std.ExtTreeMap.getElem?_map]
        split_ifs
        · rfl
        · rfl
      rw [rpcAddPeer_some fun h' => h (hmem.1 h'), hpeers, Std.ExtTreeMap.keys_map]
      rfl

/-! ### Failures -/

/-- The peer is still in the table when its answer false arrives, and a later attempt does not
connect. -/
theorem Tables.remembers_answer {s : Tables} {addr : PeerAddr} (h : addr ∉ s.peers) (number : ℕ) :
    ∃ t, s.rpcAddPeer addr (some number) = some (t, .callback) ∧ addr ∈ t.peers ∧
      ∀ socket, t.rpcAddPeer addr socket = some (t, .ready true) := by
  have hmem : addr ∈ s.peers.insert addr ⟨some ⟨addr, number⟩, []⟩ :=
    Std.ExtTreeMap.mem_insert_self
  exact ⟨_, rpcAddPeer_some h number, hmem, fun socket => rpcAddPeer_of_mem hmem socket⟩

/-- Without a connection the call comes to a client object that is missing. -/
theorem not_forgets_connect {s : Tables} {addr : PeerAddr} (h : addr ∉ s.peers) :
    ¬ Forgets s addr .connect := by
  rintro ⟨t, ret, hcall, -⟩
  rw [Failure.socket, Tables.rpcAddPeer_connect h] at hcall
  exact absurd hcall (by simp)

theorem not_forgets_answer {s : Tables} {addr : PeerAddr} (h : addr ∉ s.peers) (number : ℕ) :
    ¬ Forgets s addr (.answer number) := by
  rintro ⟨t, ret, hcall, -, hpeers, -⟩
  obtain ⟨t', hcall', hmem, -⟩ := Tables.remembers_answer h number
  rw [Failure.socket, hcall', Option.some.injEq, Prod.mk.injEq] at hcall
  rw [hcall.1, hpeers] at hmem
  exact h hmem

/-- **A peer that could not be added.** Whatever the state and the address, a peer that is not in
the table and could not be added is not forgotten: without a connection a client object is used that
is missing, and after the answer false of the peer it is in the table.

Source: `src/blockstore/blockstore_daemon.h`, lines 77–83 and 327–352. -/
theorem not_forgets (s : Tables) (addr : PeerAddr) (h : addr ∉ s.peers) (f : Failure) :
    ¬ Forgets s addr f := by
  cases f with
  | connect => exact not_forgets_connect h
  | answer number => exact not_forgets_answer h number

/-- A node with one peer. -/
def onePeer : Tables :=
  (BlockStoreNode.mk NodeHistory.home
    ((∅ : Std.ExtTreeMap PeerAddr Peer).insert NodeHistory.otherPeer
      ⟨⟨NodeHistory.otherPeer, 0⟩, []⟩) ∅).tables []

theorem lostPeer_notMem_onePeer : NodeHistory.lostPeer ∉ onePeer.peers := by decide +kernel

theorem not_forgets_lostPeer :
    NodeHistory.lostPeer ∉ onePeer.peers ∧ ¬ Forgets onePeer NodeHistory.lostPeer .connect ∧
      ¬ Forgets onePeer NodeHistory.lostPeer (.answer 1) :=
  ⟨lostPeer_notMem_onePeer,
    not_forgets onePeer NodeHistory.lostPeer lostPeer_notMem_onePeer .connect,
    not_forgets onePeer NodeHistory.lostPeer lostPeer_notMem_onePeer (.answer 1)⟩

/-- A second peer answers false. It stays in the table, and the next attempt answers true without a
connection. -/
theorem forgets_fails_lostPeer :
    (∃ t, onePeer.rpcAddPeer NodeHistory.lostPeer (some 1) = some (t, .callback) ∧
      t.calls = [⟨⟨NodeHistory.lostPeer, 1⟩, NodeHistory.home⟩,
        ⟨⟨NodeHistory.lostPeer, 1⟩, NodeHistory.otherPeer⟩] ∧
      t.peers.keys = [NodeHistory.lostPeer, NodeHistory.otherPeer] ∧
      t.rpcAddPeer NodeHistory.lostPeer none = some (t, .ready true)) ∧
    ¬ Forgets onePeer NodeHistory.lostPeer (.answer 1) := by
  refine ⟨⟨_, Tables.rpcAddPeer_some lostPeer_notMem_onePeer 1, by decide +kernel,
    by decide +kernel, ?_⟩, not_forgets_answer lostPeer_notMem_onePeer 1⟩
  exact Tables.rpcAddPeer_of_mem Std.ExtTreeMap.mem_insert_self none

/-! ### Later attempts -/

namespace NodeHistory

variable {s t : NodeHistory} {addr : PeerAddr}

/-- The peers after a step: those that were there and are not lost, and the one that is added. -/
theorem mem_peers_step_iff {a : NodeAction} (h : s.step a = some t) :
    addr ∈ t.node.peers ↔
      addr ∈ s.node.peers ∧ a ≠ .removePeer addr ∨ a = .rpcAddPeer addr := by
  cases a with
  | addBlockStore bsid pathname scan =>
    rw [← Option.some.inj h]
    simp [BlockStoreNode.addBlockStore]
  | rpcAddPeer addr' =>
    rw [step, Option.map_eq_some_iff] at h
    obtain ⟨e, he, rfl⟩ := h
    rw [BlockStoreNode.rpcAddPeer] at he
    split_ifs at he with hmem
    · rw [← Option.some.inj he]
      simp only [ne_eq, reduceCtorEq, not_false_eq_true, and_true, NodeAction.rpcAddPeer.injEq]
      exact ⟨Or.inl, fun h => h.elim id fun heq => heq ▸ hmem⟩
    · rw [Option.map_some, Option.some.injEq] at he
      rw [← he]
      simp [Std.ExtTreeMap.mem_insert, or_comm]
  | rpcAddBlockStore addr' bsid =>
    rw [← Option.some.inj h]
    simp only [ne_eq, reduceCtorEq, not_false_eq_true, and_true, or_false]
    rcases announce_cases s addr' bsid with heq | ⟨p, hp, -, heq⟩
    · rw [heq]
    · rw [heq, Std.ExtTreeMap.mem_insert, Std.compare_eq_iff_eq]
      refine or_iff_right_of_imp fun hsame => ?_
      rw [← hsame, Std.ExtTreeMap.mem_iff_isSome_getElem?, hp, Option.isSome_some]
  | removePeer addr' =>
    obtain ⟨q, -, -, -, -, hpeers, -⟩ := removePeer_cases h
    rw [Std.ExtTreeMap.mem_iff_isSome_getElem?, hpeers, Std.ExtTreeMap.mem_iff_isSome_getElem?]
    split_ifs with heq
    · simp [heq]
    · simp [Ne.symm heq]

/-- Only its loss takes a peer out of the table. -/
theorem mem_peers_step {a : NodeAction} (hmem : addr ∈ s.node.peers) (ha : a ≠ .removePeer addr)
    (h : s.step a = some t) : addr ∈ t.node.peers :=
  (mem_peers_step_iff h).2 (Or.inl ⟨hmem, ha⟩)

/-- Every attempt to add a peer that is in the table answers true and writes nothing, until the peer
is lost. -/
theorem rpcAddPeer_of_exec {as : List NodeAction} (hmem : addr ∈ s.node.peers)
    (has : ∀ a ∈ as, a ≠ .removePeer addr) (hrun : exec NodeHistory.step s as = some t)
    (socket : Option ℕ) : t.node.rpcAddPeer addr socket = some ⟨t.node, [], .ready true⟩ := by
  have hall : addr ∈ t.node.peers := by
    induction as generalizing s with
    | nil => exact Option.some.inj hrun ▸ hmem
    | cons a as ih =>
      obtain ⟨u, hstep, hrun⟩ := exec_cons_eq_some.1 hrun
      exact ih (mem_peers_step hmem (has a List.mem_cons_self) hstep)
        (fun b hb => has b (List.mem_cons_of_mem a hb)) hrun
  rw [BlockStoreNode.rpcAddPeer, if_pos hall]

end NodeHistory

end RawDish.BlockStore
