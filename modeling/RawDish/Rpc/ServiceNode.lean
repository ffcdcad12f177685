import RawDish.Basic

/-!
# One node of the mesh

`ServiceNode` is the state of `ServiceNode::Internal`: the address under which the node listens,
the addresses of the peers it holds a connection to, the reference-counted group table and the
callbacks registered for each group. Every method runs under the node's mutex, so it is one
function on the state; besides the new state it returns the RPC calls it writes, in order, and
the group callbacks it fires, in order (`Effect`).

The key set of `_peers` is enough for the peer table: the `RPCClient` stored under an address is
the connection opened to that address. A callback is named by a number; a number stands for one
registration.

A count is a C `int`. The group table is read through `memberCount`, and each of the four group
methods is described once by what it does to that reading (`memberCount_addToGroup` and the
three lemmas after it).

## Main definitions

* `ServiceNode`, `Method`, `Call`, `Fired`, `Effect`, `Answer`.
* `ServiceNode.addToGroup`, `ServiceNode.removeFromGroup`, `ServiceNode.rpcAddToGroup`,
  `ServiceNode.rpcRemoveFromGroup`, `ServiceNode.rpcAddPeer`, `ServiceNode.removePeer`,
  `ServiceNode.addGroupCallback`, `ServiceNode.removeGroupCallback`.
* `ServiceNode.memberCount` : the count of a member, `none` when it has no entry.

## References

* `src/rpc/service_node.h`, lines 71–162; `src/rpc/service_node.cc`, lines 110–283.
-/

namespace RawDish.Rpc

/-- The RPC methods a node registers, with their arguments. -/
inductive Method
  | addPeer (addr : HostPortPair)
  | addToGroup (group name : Str)
  | removeFromGroup (group name : Str)
  deriving DecidableEq

/-- An RPC call written to the connection with the peer `dst`. -/
structure Call where
  dst : HostPortPair
  method : Method
  deriving DecidableEq

/-- One invocation of a group callback. -/
structure Fired where
  callback : ℕ
  name : Str
  added : Bool
  deriving DecidableEq

/-- The state of `ServiceNode::Internal`. -/
structure ServiceNode where
  /-- `_host` and `_port`. -/
  addr : HostPortPair
  peers : Std.ExtTreeSet HostPortPair
  groups : Std.ExtTreeMap Str (Std.ExtTreeMap Str Int32)
  groupCallbacks : Std.ExtTreeMap Str (List ℕ)

/-- What a method leaves: the state, the calls written and the callbacks fired. -/
structure Effect where
  node : ServiceNode
  calls : List Call := []
  fired : List Fired := []

/-- The future that `RPCAddPeer` returns: set already, or the future of the first call written. -/
inductive Answer
  | ready (value : Bool)
  | callback
  deriving DecidableEq

namespace ServiceNode

/-- A node after construction. -/
def create (addr : HostPortPair) : ServiceNode := ⟨addr, ∅, ∅, ∅⟩

/-- `_groups[group]`, the empty map for a group that has no entry. -/
def group (s : ServiceNode) (group : Str) : Std.ExtTreeMap Str Int32 := s.groups.getD group ∅

/-- Invoke every callback registered for `group`. -/
def fire (s : ServiceNode) (group name : Str) (added : Bool) : List Fired :=
  (s.groupCallbacks.getD group []).map fun cb => ⟨cb, name, added⟩

/-- Write one call to every peer. -/
def notify (s : ServiceNode) (m : Method) : List Call := s.peers.toList.map fun p => ⟨p, m⟩

/-- `addToGroup`. The loop over `_group_callbacks[group]` leaves an entry for the group. -/
def addToGroup (s : ServiceNode) (group name : Str) : Effect :=
  let members := s.group group
  let calls := s.notify (.addToGroup group name)
  if name ∈ members then
    { node := { s with
        groups := s.groups.insert group (members.insert name (members.getD name 0 + 1)) }
      calls := calls }
  else
    { node := { s with
        groups := s.groups.insert group (members.insert name 1)
        groupCallbacks := s.groupCallbacks.insert group (s.groupCallbacks.getD group []) }
      calls := calls
      fired := s.fire group name true }

/-- `removeFromGroup`. A present member is erased at count one and left alone at any other count;
for an absent member the test `_groups[group][name] > 1` inserts an entry with count zero. -/
def removeFromGroup (s : ServiceNode) (group name : Str) : Effect :=
  let members := s.group group
  let calls := s.notify (.removeFromGroup group name)
  if name ∈ members then
    if members.getD name 0 = 1 then
      { node := { s with groups := s.groups.insert group (members.erase name) }
        calls := calls
        fired := s.fire group name false }
    else
      { node := { s with groups := s.groups.insert group members }, calls := calls }
  else
    let count := members.getD name 0
    if 1 < count then
      { node := { s with groups := s.groups.insert group (members.insert name (count - 1)) }
        calls := calls }
    else
      { node := { s with groups := s.groups.insert group (members.insert name count) }
        calls := calls }

/-- `RPCAddToGroup`. -/
def rpcAddToGroup (s : ServiceNode) (group name : Str) : Effect :=
  let members := s.group group
  if name ∈ members then
    { node := { s with
        groups := s.groups.insert group (members.insert name (members.getD name 0 + 1)) } }
  else
    { node := { s with groups := s.groups.insert group (members.insert name 1) }
      fired := s.fire group name true }

/-- `RPCRemoveFromGroup`. For an absent member `_groups[group][value]--` inserts an entry and
decrements it. -/
def rpcRemoveFromGroup (s : ServiceNode) (group name : Str) : Effect :=
  let members := s.group group
  if name ∈ members then
    if members.getD name 0 = 1 then
      { node := { s with groups := s.groups.insert group (members.erase name) }
        fired := s.fire group name false }
    else
      { node := { s with groups := s.groups.insert group members } }
  else
    { node := { s with
        groups := s.groups.insert group (members.insert name (members.getD name 0 - 1)) } }

/-- `addGroupCallback`: register `cb` and replay the members of the group to it. -/
def addGroupCallback (s : ServiceNode) (group : Str) (cb : ℕ) : Effect where
  node := { s with
    groups := s.groups.insert group (s.group group)
    groupCallbacks := s.groupCallbacks.insert group (s.groupCallbacks.getD group [] ++ [cb]) }
  fired := (s.group group).keys.map fun name => ⟨cb, name, true⟩

/-- `removeGroupCallback`. -/
def removeGroupCallback (s : ServiceNode) (group : Str) : Effect where
  node := { s with groupCallbacks := s.groupCallbacks.erase group }

/-- `RemovePeer`, run when the connection to `addr` is lost. -/
def removePeer (s : ServiceNode) (addr : HostPortPair) : Effect where
  node := { s with peers := s.peers.erase addr }

/-- The calls `RPCAddPeer` writes to a new peer: the request to connect back, the addresses of
the other peers, and every member of every group. -/
def greeting (s : ServiceNode) (addr : HostPortPair) : List Call :=
  ⟨addr, .addPeer s.addr⟩ ::
    ((s.peers.insert addr).toList.filter (fun p => addr ≠ p)).map (fun p => ⟨addr, .addPeer p⟩) ++
    s.groups.toList.flatMap fun g => g.2.keys.map fun name => ⟨addr, .addToGroup g.1 name⟩

/-- `RPCAddPeer`, also run by the user's `addPeer`; `connected` says whether the TCP connection
to `addr` was established. -/
def rpcAddPeer (s : ServiceNode) (addr : HostPortPair) (connected : Bool) : Effect × Answer :=
  if addr ∈ s.peers then
    ({ node := s }, .ready true)
  else if connected then
    ({ node := { s with peers := s.peers.insert addr }, calls := s.greeting addr }, .callback)
  else
    ({ node := s }, .ready false)

/-! ### Reading the group table -/

/-- The count of the member `n` of the group `g`, `none` when it has no entry. -/
def memberCount (s : ServiceNode) (g n : Str) : Option Int32 := (s.group g)[n]?

/-- `n` has an entry in `_groups[g]`. -/
def IsMember (s : ServiceNode) (g n : Str) : Prop := n ∈ s.group g

instance (s : ServiceNode) (g n : Str) : Decidable (s.IsMember g n) :=
  inferInstanceAs (Decidable (n ∈ s.group g))

theorem isMember_iff {s : ServiceNode} {g n : Str} :
    s.IsMember g n ↔ (s.memberCount g n).isSome := by
  rw [IsMember, Std.ExtTreeMap.mem_iff_isSome_getElem?, memberCount]

theorem not_isMember_iff {s : ServiceNode} {g n : Str} :
    ¬ s.IsMember g n ↔ s.memberCount g n = none := by
  rw [isMember_iff, Bool.not_eq_true, Option.isSome_eq_false_iff, Option.isNone_iff_eq_none]

/-- The members are the names that a walk over the whole table meets. -/
theorem isMember_iff_exists {s : ServiceNode} {g n : Str} :
    s.IsMember g n ↔ ∃ e ∈ s.groups.toList, e.1 = g ∧ n ∈ e.2.keys := by
  simp only [IsMember, ServiceNode.group, Std.ExtTreeMap.getD_eq_getD_getElem?, Prod.exists,
    Std.ExtTreeMap.mem_toList_iff_getElem?_eq_some, Std.ExtTreeMap.mem_keys]
  cases hg : s.groups[g]? with
  | none => simp [hg]
  | some members => simp [hg]

@[simp] theorem memberCount_create (addr : HostPortPair) (g n : Str) :
    (create addr).memberCount g n = none := by
  simp [memberCount, group, create]

/-- Writing one group's table changes the reading of that group only. -/
theorem memberCount_insert (s t : ServiceNode) (group : Str)
    (members : Std.ExtTreeMap Str Int32) (ht : t.groups = s.groups.insert group members)
    (g n : Str) :
    t.memberCount g n = if g = group then members[n]? else s.memberCount g n := by
  simp only [memberCount, ServiceNode.group, ht, Std.ExtTreeMap.getD_insert,
    Std.compare_eq_iff_eq, eq_comm (a := group)]
  split_ifs <;> rfl

theorem getD_of_memberCount {s : ServiceNode} {g n : Str} {c : Int32}
    (h : s.memberCount g n = some c) : n ∈ s.group g ∧ (s.group g).getD n 0 = c := by
  rw [memberCount] at h
  exact ⟨Std.ExtTreeMap.mem_iff_isSome_getElem?.2 (by rw [h]; rfl),
    by rw [Std.ExtTreeMap.getD_eq_getD_getElem?, h]; rfl⟩

theorem notMem_of_memberCount {s : ServiceNode} {g n : Str} (h : s.memberCount g n = none) :
    n ∉ s.group g ∧ (s.group g).getD n 0 = 0 := by
  rw [memberCount] at h
  exact ⟨fun hn => by simp [Std.ExtTreeMap.mem_iff_isSome_getElem?, h] at hn,
    by rw [Std.ExtTreeMap.getD_eq_getD_getElem?, h]; rfl⟩

/-- Reading the table after one entry was written. -/
private theorem memberCount_write (s t : ServiceNode) (group name : Str) (c : Int32)
    (ht : t.groups = s.groups.insert group ((s.group group).insert name c)) (g n : Str) :
    t.memberCount g n = if g = group ∧ n = name then some c else s.memberCount g n := by
  rw [memberCount_insert s t group _ ht, getElem?_insert_ite]
  by_cases hg : g = group <;> by_cases hn : n = name <;> simp [hg, hn, memberCount]

/-- Reading the table after one entry was erased. -/
private theorem memberCount_erase (s t : ServiceNode) (group name : Str)
    (ht : t.groups = s.groups.insert group ((s.group group).erase name)) (g n : Str) :
    t.memberCount g n = if g = group ∧ n = name then none else s.memberCount g n := by
  rw [memberCount_insert s t group _ ht, getElem?_erase_ite]
  by_cases hg : g = group <;> by_cases hn : n = name <;> simp [hg, hn, memberCount]

/-- Evaluating `_groups[group]` alone changes no reading. -/
private theorem memberCount_touch (s t : ServiceNode) (group : Str)
    (ht : t.groups = s.groups.insert group (s.group group)) (g n : Str) :
    t.memberCount g n = s.memberCount g n := by
  rw [memberCount_insert s t group _ ht]
  split_ifs with hg
  · rw [hg, memberCount]
  · rfl

/-- The count an add leaves: one more, or one for a new member. -/
def countAdd : Option Int32 → Option Int32
  | none => some 1
  | some c => some (c + 1)

/-- The count a removal leaves: the entry goes at count one and stays as it is at any other
count; an absent member gets an entry with the count `absent`. -/
def countRemove (absent : Int32) : Option Int32 → Option Int32
  | none => some absent
  | some c => if c = 1 then none else some c

private theorem ite_member {s : ServiceNode} {group name : Str} {v : Option Int32}
    {f : Option Int32 → Option Int32} (hf : v = f (s.memberCount group name)) (g n : Str) :
    (if g = group ∧ n = name then v else s.memberCount g n) =
      if g = group ∧ n = name then f (s.memberCount g n) else s.memberCount g n := by
  split_ifs with h
  · rw [h.1, h.2, hf]
  · rfl

theorem memberCount_addToGroup (s : ServiceNode) (group name g n : Str) :
    (s.addToGroup group name).node.memberCount g n =
      if g = group ∧ n = name then countAdd (s.memberCount g n) else s.memberCount g n := by
  cases hc : s.memberCount group name with
  | none =>
    obtain ⟨hmem, -⟩ := notMem_of_memberCount hc
    simp only [addToGroup, hmem, ↓reduceIte]
    rw [memberCount_write s _ group name 1 rfl, ite_member (f := countAdd) (by rw [hc]; rfl)]
  | some c =>
    obtain ⟨hmem, hval⟩ := getD_of_memberCount hc
    simp only [addToGroup, hmem, hval, ↓reduceIte]
    rw [memberCount_write s _ group name (c + 1) rfl,
      ite_member (f := countAdd) (by rw [hc]; rfl)]

theorem memberCount_rpcAddToGroup (s : ServiceNode) (group name g n : Str) :
    (s.rpcAddToGroup group name).node.memberCount g n =
      if g = group ∧ n = name then countAdd (s.memberCount g n) else s.memberCount g n := by
  rw [← memberCount_addToGroup]
  simp only [rpcAddToGroup, addToGroup]
  split_ifs <;> rfl

theorem memberCount_removeFromGroup (s : ServiceNode) (group name g n : Str) :
    (s.removeFromGroup group name).node.memberCount g n =
      if g = group ∧ n = name then countRemove 0 (s.memberCount g n)
      else s.memberCount g n := by
  cases hc : s.memberCount group name with
  | none =>
    obtain ⟨hmem, hval⟩ := notMem_of_memberCount hc
    -- The inserted count is zero, so the test against one fails.
    have hlt : ¬ (1 : Int32) < 0 := by decide
    simp only [removeFromGroup, hmem, hval, hlt, ↓reduceIte]
    rw [memberCount_write s _ group name 0 rfl,
      ite_member (f := countRemove 0) (by rw [hc]; rfl)]
  | some c =>
    obtain ⟨hmem, hval⟩ := getD_of_memberCount hc
    simp only [removeFromGroup, hmem, hval, ↓reduceIte]
    by_cases h1 : c = 1
    · simp only [h1, ↓reduceIte]
      rw [memberCount_erase s _ group name rfl,
        ite_member (f := countRemove 0) (by rw [hc, h1]; rfl)]
    · simp only [h1, ↓reduceIte]
      rw [memberCount_touch s _ group rfl, ← ite_member (v := some c) (f := countRemove 0)
        (by simp only [hc, countRemove, h1, ↓reduceIte])]
      split_ifs with h
      · rw [h.1, h.2, hc]
      · rfl

theorem memberCount_rpcRemoveFromGroup (s : ServiceNode) (group name g n : Str) :
    (s.rpcRemoveFromGroup group name).node.memberCount g n =
      if g = group ∧ n = name then countRemove (-1) (s.memberCount g n)
      else s.memberCount g n := by
  cases hc : s.memberCount group name with
  | none =>
    obtain ⟨hmem, hval⟩ := notMem_of_memberCount hc
    simp only [rpcRemoveFromGroup, hmem, hval, ↓reduceIte]
    rw [memberCount_write s _ group name (-1) rfl,
      ite_member (f := countRemove (-1)) (by rw [hc]; rfl)]
  | some c =>
    -- A present member is treated as in the local call.
    obtain ⟨hmem, hval⟩ := getD_of_memberCount hc
    have hlocal : (s.rpcRemoveFromGroup group name).node = (s.removeFromGroup group name).node := by
      simp only [rpcRemoveFromGroup, removeFromGroup, hmem, ↓reduceIte]
      split_ifs <;> rfl
    rw [hlocal, memberCount_removeFromGroup]
    split_ifs with h
    · rw [h.1, h.2, hc]
      rfl
    · rfl

theorem memberCount_addGroupCallback (s : ServiceNode) (group g n : Str) (cb : ℕ) :
    (s.addGroupCallback group cb).node.memberCount g n = s.memberCount g n :=
  memberCount_touch s _ group rfl g n

theorem memberCount_removeGroupCallback (s : ServiceNode) (group g n : Str) :
    (s.removeGroupCallback group).node.memberCount g n = s.memberCount g n := rfl

theorem memberCount_rpcAddPeer (s : ServiceNode) (addr : HostPortPair) (connected : Bool)
    (g n : Str) : (s.rpcAddPeer addr connected).1.node.memberCount g n = s.memberCount g n := by
  simp only [rpcAddPeer]
  split_ifs <;> rfl

/-! ### Calls written -/

@[simp] theorem mem_notify {s : ServiceNode} {m : Method} {c : Call} :
    c ∈ s.notify m ↔ c.dst ∈ s.peers ∧ c.method = m := by
  simp only [notify, List.mem_map, Std.ExtTreeSet.mem_toList]
  constructor
  · rintro ⟨p, hp, rfl⟩
    exact ⟨hp, rfl⟩
  · rintro ⟨hp, rfl⟩
    exact ⟨c.dst, hp, rfl⟩

theorem calls_addToGroup (s : ServiceNode) (group name : Str) :
    (s.addToGroup group name).calls = s.notify (.addToGroup group name) := by
  simp only [addToGroup]
  split_ifs <;> rfl

theorem calls_removeFromGroup (s : ServiceNode) (group name : Str) :
    (s.removeFromGroup group name).calls = s.notify (.removeFromGroup group name) := by
  simp only [removeFromGroup]
  split_ifs <;> rfl

/-- What a node writes to a new peer: its own address, the address of every other peer and every
member of its table. -/
theorem mem_greeting {s : ServiceNode} {addr : HostPortPair} {c : Call} :
    c ∈ s.greeting addr ↔ c.dst = addr ∧ (c.method = .addPeer s.addr ∨
      (∃ p ∈ s.peers, p ≠ addr ∧ c.method = .addPeer p) ∨
      ∃ g n, s.IsMember g n ∧ c.method = .addToGroup g n) := by
  obtain ⟨dst, method⟩ := c
  simp only [greeting, List.cons_append, List.mem_cons, List.mem_append, List.mem_map,
    List.mem_filter, List.mem_flatMap, Call.mk.injEq, Std.ExtTreeSet.mem_toList,
    Std.ExtTreeSet.mem_insert, Std.compare_eq_iff_eq, decide_eq_true_eq, isMember_iff_exists]
  constructor
  · rintro (⟨rfl, rfl⟩ | ⟨p, ⟨hp | hp, hne⟩, rfl, rfl⟩ | ⟨e, he, n, hn, rfl, rfl⟩)
    · exact ⟨rfl, Or.inl rfl⟩
    · exact absurd hp hne
    · exact ⟨rfl, Or.inr (Or.inl ⟨p, hp, Ne.symm hne, rfl⟩)⟩
    · exact ⟨rfl, Or.inr (Or.inr ⟨e.1, n, ⟨e, he, rfl, hn⟩, rfl⟩)⟩
  · rintro ⟨rfl, rfl | ⟨p, hp, hne, rfl⟩ | ⟨g, n, ⟨e, he, rfl, hn⟩, rfl⟩⟩
    · exact Or.inl ⟨rfl, rfl⟩
    · exact Or.inr (Or.inl ⟨p, ⟨Or.inr hp, Ne.symm hne⟩, rfl, rfl⟩)
    · exact Or.inr (Or.inr ⟨e, he, n, hn, rfl, rfl⟩)

/-! ### Peers -/

theorem rpcAddPeer_of_mem {s : ServiceNode} {addr : HostPortPair} (h : addr ∈ s.peers)
    (connected : Bool) : s.rpcAddPeer addr connected = ({ node := s }, .ready true) := by
  simp only [rpcAddPeer, h, ↓reduceIte]

theorem rpcAddPeer_of_notMem {s : ServiceNode} {addr : HostPortPair} (h : addr ∉ s.peers) :
    s.rpcAddPeer addr true =
      ({ node := { s with peers := s.peers.insert addr }, calls := s.greeting addr },
        .callback) := by
  simp only [rpcAddPeer, h, ↓reduceIte]

@[simp] theorem addr_addToGroup (s : ServiceNode) (group name : Str) :
    (s.addToGroup group name).node.addr = s.addr := by
  simp only [addToGroup]
  split_ifs <;> rfl

@[simp] theorem peers_addToGroup (s : ServiceNode) (group name : Str) :
    (s.addToGroup group name).node.peers = s.peers := by
  simp only [addToGroup]
  split_ifs <;> rfl

@[simp] theorem addr_removeFromGroup (s : ServiceNode) (group name : Str) :
    (s.removeFromGroup group name).node.addr = s.addr := by
  simp only [removeFromGroup]
  split_ifs <;> rfl

@[simp] theorem peers_removeFromGroup (s : ServiceNode) (group name : Str) :
    (s.removeFromGroup group name).node.peers = s.peers := by
  simp only [removeFromGroup]
  split_ifs <;> rfl

@[simp] theorem addr_rpcAddToGroup (s : ServiceNode) (group name : Str) :
    (s.rpcAddToGroup group name).node.addr = s.addr := by
  simp only [rpcAddToGroup]
  split_ifs <;> rfl

@[simp] theorem peers_rpcAddToGroup (s : ServiceNode) (group name : Str) :
    (s.rpcAddToGroup group name).node.peers = s.peers := by
  simp only [rpcAddToGroup]
  split_ifs <;> rfl

@[simp] theorem calls_rpcAddToGroup (s : ServiceNode) (group name : Str) :
    (s.rpcAddToGroup group name).calls = [] := by
  simp only [rpcAddToGroup]
  split_ifs <;> rfl

@[simp] theorem addr_rpcRemoveFromGroup (s : ServiceNode) (group name : Str) :
    (s.rpcRemoveFromGroup group name).node.addr = s.addr := by
  simp only [rpcRemoveFromGroup]
  split_ifs <;> rfl

@[simp] theorem peers_rpcRemoveFromGroup (s : ServiceNode) (group name : Str) :
    (s.rpcRemoveFromGroup group name).node.peers = s.peers := by
  simp only [rpcRemoveFromGroup]
  split_ifs <;> rfl

@[simp] theorem calls_rpcRemoveFromGroup (s : ServiceNode) (group name : Str) :
    (s.rpcRemoveFromGroup group name).calls = [] := by
  simp only [rpcRemoveFromGroup]
  split_ifs <;> rfl

@[simp] theorem addr_rpcAddPeer (s : ServiceNode) (addr : HostPortPair) (connected : Bool) :
    (s.rpcAddPeer addr connected).1.node.addr = s.addr := by
  simp only [rpcAddPeer]
  split_ifs <;> rfl

end ServiceNode

end RawDish.Rpc
