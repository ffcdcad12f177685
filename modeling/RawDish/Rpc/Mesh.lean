import RawDish.Lib.Exec
import RawDish.Rpc.ServiceNode

/-!
# The mesh of nodes

A finite set of nodes, each known to everyone under its own address, with the requests and
responses in flight between them. An action is a user call on one node, the handling of one
request at its destination, or the arrival of one response. Every handler runs under the mutex of
its node, so it is one step; requests may be handled in any order, every TCP connection succeeds
and no connection is lost. Requests are kept in the order in which they were written, so handling
in order over each connection is a condition on the step (`Mesh.InOrder`).

A call has a future, named by the position of the future in `futures`. `RPCAddPeer` at a new peer
returns the future of its call back to that peer: the response to the request is then sent when
that future is set, which `waiting` records.

Each step is described once (`step_cases`): a node runs one method, its state is replaced and its
calls are appended to the requests; or a response sets a future.

## Main definitions

* `Request`, `Response`, `Mesh`, `Action`.
* `Mesh.step` : one action.
* `Mesh.start`, `Mesh.fullMesh` : the initial states.
* `Mesh.Performs` : the method a step runs, the node it runs on and the requests it leaves.

## Main results

* `Mesh.step_cases` : what a step does.

## References

* `src/rpc/service_node.cc`, lines 64–82 and 110–283; `src/rpc/rpc.cc`, lines 116–173;
  `src/rpc/rpc.h`, lines 74–100 and 479–532.
-/

namespace RawDish.Rpc

open Lib

/-- A request in flight: the call whose future is `id`, written by `src` to `dst`. -/
structure Request where
  id : ℕ
  src : HostPortPair
  dst : HostPortPair
  method : Method
  deriving DecidableEq

/-- A response in flight to the call whose future is `id`. -/
structure Response where
  id : ℕ
  value : Bool
  deriving DecidableEq

/-- The nodes and what is in flight between them. -/
structure Mesh where
  node : HostPortPair → ServiceNode
  /-- Requests not handled yet, in the order written. -/
  requests : List Request
  responses : List Response
  /-- The futures of all calls made so far. -/
  futures : List (Option Bool)
  /-- `(c, r)`: the request `r` is answered with the value of the future `c` once it is set. -/
  waiting : List (ℕ × ℕ)

/-- What can happen next: a user call, the handling of the `i`-th request, or the arrival of the
`i`-th response. -/
inductive Action
  | addPeer (x y : HostPortPair)
  | addToGroup (x : HostPortPair) (group name : Str)
  | removeFromGroup (x : HostPortPair) (group name : Str)
  | handle (i : ℕ)
  | respond (i : ℕ)
  deriving DecidableEq

/-- The registered function of a method, with every connection succeeding. -/
def ServiceNode.serve (s : ServiceNode) : Method → Effect × Answer
  | .addPeer addr => s.rpcAddPeer addr true
  | .addToGroup g n => (s.rpcAddToGroup g n, .ready true)
  | .removeFromGroup g n => (s.rpcRemoveFromGroup g n, .ready true)

namespace Mesh

/-- All nodes freshly constructed. -/
def start : Mesh := ⟨ServiceNode.create, [], [], [], []⟩

/-- A static full mesh with empty groups: every node has every other node as a peer. -/
def fullMesh (nodes : Std.ExtTreeSet HostPortPair) : Mesh :=
  { start with node := fun x => { ServiceNode.create x with peers := nodes.erase x } }

/-- The requests that a list of calls written by `x` puts in flight. -/
def issue (s : Mesh) (x : HostPortPair) (calls : List Call) : List Request :=
  calls.mapIdx fun k c => ⟨s.futures.length + k, x, c.dst, c.method⟩

/-- The node `x` has run a method: its state is replaced and its calls are put in flight. -/
def commit (s : Mesh) (x : HostPortPair) (e : Effect) : Mesh :=
  { s with
    node := Function.update s.node x e.node
    requests := s.requests ++ s.issue x e.calls
    futures := s.futures ++ List.replicate e.calls.length none }

/-- Handle a request: run the registered function at its destination and answer with its
value, at once or when the future it returned is set. -/
def handle (s : Mesh) (r : Request) : Mesh :=
  match ((s.node r.dst).serve r.method).2 with
  | .ready v =>
    { s.commit r.dst ((s.node r.dst).serve r.method).1 with
      responses := s.responses ++ [⟨r.id, v⟩] }
  | .callback =>
    { s.commit r.dst ((s.node r.dst).serve r.method).1 with
      waiting := s.waiting ++ [(s.futures.length, r.id)] }

/-- A response arrives: the future of its call is set and the requests that wait for it are
answered. -/
def receive (s : Mesh) (p : Response) : Mesh :=
  { s with
    futures := s.futures.set p.id (some p.value)
    responses := s.responses ++
      (s.waiting.filter fun w => w.1 = p.id).map fun w => ⟨w.2, p.value⟩ }

/-- One action of the mesh on `nodes`. A user names another node of the mesh as a peer. -/
def step (nodes : Std.ExtTreeSet HostPortPair) (s : Mesh) : Action → Option Mesh
  | .addPeer x y =>
    if x ∈ nodes ∧ y ∈ nodes ∧ x ≠ y then
      some (s.commit x ((s.node x).rpcAddPeer y true).1)
    else none
  | .addToGroup x g n => if x ∈ nodes then some (s.commit x ((s.node x).addToGroup g n)) else none
  | .removeFromGroup x g n =>
    if x ∈ nodes then some (s.commit x ((s.node x).removeFromGroup g n)) else none
  | .handle i =>
    s.requests[i]?.map fun r => { s with requests := s.requests.eraseIdx i }.handle r
  | .respond i =>
    s.responses[i]?.map fun p => { s with responses := s.responses.eraseIdx i }.receive p

/-- The requests written over one connection are handled in the order written: no earlier request
of the same connection is in flight. -/
def InOrder (s : Mesh) : Action → Prop
  | .handle i => ∀ r, s.requests[i]? = some r →
      ∀ r' ∈ s.requests.take i, ¬ (r'.src = r.src ∧ r'.dst = r.dst)
  | _ => True

instance (s : Mesh) : (a : Action) → Decidable (InOrder s a)
  | .handle i => inferInstanceAs (Decidable (∀ r ∈ s.requests[i]?,
      ∀ r' ∈ s.requests.take i, ¬ (r'.src = r.src ∧ r'.dst = r.dst)))
  | .addPeer _ _ => inferInstanceAs (Decidable True)
  | .addToGroup _ _ _ => inferInstanceAs (Decidable True)
  | .removeFromGroup _ _ _ => inferInstanceAs (Decidable True)
  | .respond _ => inferInstanceAs (Decidable True)

/-- The step for the action `a` runs a method at the node `x` with the effect `e`; `base` are the
requests in flight before its calls are appended. -/
inductive Performs (nodes : Std.ExtTreeSet HostPortPair) (s : Mesh) :
    Action → HostPortPair → Effect → List Request → Prop
  | addPeer (x y : HostPortPair) (hx : x ∈ nodes) (hy : y ∈ nodes) (hne : x ≠ y) :
      Performs nodes s (.addPeer x y) x ((s.node x).rpcAddPeer y true).1 s.requests
  | addToGroup (x : HostPortPair) (g n : Str) (hx : x ∈ nodes) :
      Performs nodes s (.addToGroup x g n) x ((s.node x).addToGroup g n) s.requests
  | removeFromGroup (x : HostPortPair) (g n : Str) (hx : x ∈ nodes) :
      Performs nodes s (.removeFromGroup x g n) x ((s.node x).removeFromGroup g n) s.requests
  | handle (r : Request) (pre post : List Request) (hr : s.requests = pre ++ r :: post) :
      Performs nodes s (.handle pre.length) r.dst ((s.node r.dst).serve r.method).1 (pre ++ post)

theorem node_handle (s : Mesh) (r : Request) :
    (s.handle r).node =
      Function.update s.node r.dst ((s.node r.dst).serve r.method).1.node := by
  simp only [handle]
  split <;> rfl

theorem requests_handle (s : Mesh) (r : Request) :
    (s.handle r).requests =
      s.requests ++ s.issue r.dst ((s.node r.dst).serve r.method).1.calls := by
  simp only [handle]
  split <;> rfl

/-- What a step does to the nodes and the requests: a node runs one method and its calls are put
in flight, or a response arrives and neither changes. -/
theorem step_cases {nodes : Std.ExtTreeSet HostPortPair} {s t : Mesh} {a : Action}
    (h : step nodes s a = some t) :
    (∃ x e base, Performs nodes s a x e base ∧ t.node = Function.update s.node x e.node ∧
      t.requests = base ++ s.issue x e.calls) ∨
    (∃ i, a = .respond i ∧ t.node = s.node ∧ t.requests = s.requests) := by
  cases a with
  | addPeer x y =>
    simp only [step, Option.ite_none_right_eq_some, Option.some.injEq] at h
    obtain ⟨⟨hx, hy, hne⟩, rfl⟩ := h
    exact Or.inl ⟨x, _, _, .addPeer x y hx hy hne, rfl, rfl⟩
  | addToGroup x g n =>
    simp only [step, Option.ite_none_right_eq_some, Option.some.injEq] at h
    obtain ⟨hx, rfl⟩ := h
    exact Or.inl ⟨x, _, _, .addToGroup x g n hx, rfl, rfl⟩
  | removeFromGroup x g n =>
    simp only [step, Option.ite_none_right_eq_some, Option.some.injEq] at h
    obtain ⟨hx, rfl⟩ := h
    exact Or.inl ⟨x, _, _, .removeFromGroup x g n hx, rfl, rfl⟩
  | handle i =>
    simp only [step, Option.map_eq_some_iff] at h
    obtain ⟨r, hr, rfl⟩ := h
    obtain ⟨pre, post, hsplit, rfl, herase⟩ := split_of_getElem? hr
    rw [herase]
    exact Or.inl ⟨r.dst, _, _, .handle r pre post hsplit, node_handle _ r, requests_handle _ r⟩
  | respond i =>
    simp only [step, Option.map_eq_some_iff] at h
    obtain ⟨p, -, rfl⟩ := h
    exact Or.inr ⟨i, rfl, rfl, rfl⟩

theorem mem_issue {s : Mesh} {x : HostPortPair} {calls : List Call} {r : Request}
    (h : r ∈ s.issue x calls) : r.src = x ∧ ⟨r.dst, r.method⟩ ∈ calls := by
  simp only [issue, List.mem_mapIdx] at h
  obtain ⟨k, hk, rfl⟩ := h
  exact ⟨rfl, List.getElem_mem hk⟩

/-- Every call of the list is in flight. -/
theorem exists_mem_issue (s : Mesh) (x : HostPortPair) {calls : List Call} {c : Call}
    (h : c ∈ calls) : ∃ r ∈ s.issue x calls, r.src = x ∧ r.dst = c.dst ∧ r.method = c.method := by
  obtain ⟨k, hk, rfl⟩ := List.mem_iff_getElem.1 h
  exact ⟨_, List.mem_mapIdx.2 ⟨k, hk, rfl⟩, rfl, rfl, rfl⟩

namespace Performs

variable {nodes : Std.ExtTreeSet HostPortPair} {s : Mesh} {a : Action} {x : HostPortPair}
  {e : Effect} {base : List Request}

/-- The node keeps its address. -/
theorem addr_eq (h : Performs nodes s a x e base) : e.node.addr = (s.node x).addr := by
  cases h with
  | addPeer => simp
  | addToGroup => simp
  | removeFromGroup => simp
  | handle r pre post hr =>
    cases hm : r.method <;> simp [ServiceNode.serve]

/-- A request that is left in flight was in flight. -/
theorem mem_of_mem_base (h : Performs nodes s a x e base) {r : Request} (hr : r ∈ base) :
    r ∈ s.requests := by
  cases h with
  | addPeer | addToGroup | removeFromGroup => exact hr
  | handle r' pre post hr' => exact mem_of_mem_split hr' hr

/-- A request in flight is left in flight, or it is the one handled. -/
theorem mem_base_or (h : Performs nodes s a x e base) {r : Request} (hr : r ∈ s.requests) :
    r ∈ base ∨ (r.dst = x ∧ e = ((s.node x).serve r.method).1) := by
  cases h with
  | addPeer | addToGroup | removeFromGroup => exact Or.inl hr
  | handle r' pre post hr' =>
    rw [hr', List.mem_append, List.mem_cons] at hr
    rcases hr with hr | rfl | hr
    · exact Or.inl (List.mem_append_left _ hr)
    · exact Or.inr ⟨rfl, rfl⟩
    · exact Or.inl (List.mem_append_right _ hr)

/-- The peers of the node stay, or it connects to one new peer `y`: named by a user call or by
the request handled. -/
theorem peers_cases (h : Performs nodes s a x e base) :
    (e.node.peers = (s.node x).peers ∧
      ∀ c ∈ e.calls, ∀ p, c.method ≠ .addPeer p) ∨
    ∃ y, y ∉ (s.node x).peers ∧
      e = { node := { s.node x with peers := (s.node x).peers.insert y }
            calls := (s.node x).greeting y } ∧
      ((a = .addPeer x y ∧ x ∈ nodes ∧ y ∈ nodes ∧ x ≠ y) ∨
        ∃ r ∈ s.requests, r.dst = x ∧ r.method = .addPeer y) := by
  have hjoin : ∀ x y, ((a = .addPeer x y ∧ x ∈ nodes ∧ y ∈ nodes ∧ x ≠ y) ∨
        ∃ r ∈ s.requests, r.dst = x ∧ r.method = .addPeer y) →
      ((((s.node x).rpcAddPeer y true).1.node.peers = (s.node x).peers ∧
        ∀ c ∈ ((s.node x).rpcAddPeer y true).1.calls, ∀ p, c.method ≠ .addPeer p) ∨
      ∃ z, z ∉ (s.node x).peers ∧ ((s.node x).rpcAddPeer y true).1 =
          { node := { s.node x with peers := (s.node x).peers.insert z }
            calls := (s.node x).greeting z } ∧
        ((a = .addPeer x z ∧ x ∈ nodes ∧ z ∈ nodes ∧ x ≠ z) ∨
          ∃ r ∈ s.requests, r.dst = x ∧ r.method = .addPeer z)) := by
    intro x y hwhy
    by_cases hy : y ∈ (s.node x).peers
    · rw [ServiceNode.rpcAddPeer_of_mem hy]
      exact Or.inl ⟨rfl, by simp⟩
    · rw [ServiceNode.rpcAddPeer_of_notMem hy]
      exact Or.inr ⟨y, hy, rfl, hwhy⟩
  cases h with
  | addPeer _ y hx hy hne => exact hjoin x y (Or.inl ⟨rfl, hx, hy, hne⟩)
  | addToGroup _ g n hx =>
    refine Or.inl ⟨by simp, fun c hc p => ?_⟩
    rw [ServiceNode.calls_addToGroup, ServiceNode.mem_notify] at hc
    simp [hc.2]
  | removeFromGroup _ g n hx =>
    refine Or.inl ⟨by simp, fun c hc p => ?_⟩
    rw [ServiceNode.calls_removeFromGroup, ServiceNode.mem_notify] at hc
    simp [hc.2]
  | handle r pre post hr =>
    cases hm : r.method with
    | addPeer y =>
      exact hjoin r.dst y (Or.inr ⟨r, by rw [hr]; simp, rfl, hm⟩)
    | addToGroup g n => exact Or.inl (by simp [ServiceNode.serve])
    | removeFromGroup g n => exact Or.inl (by simp [ServiceNode.serve])

end Performs

end Mesh

end RawDish.Rpc
