import RawDish.Rpc.Discovery

/-!
# The view of one member

The group table is a product: no method reads the count of one member to change that of another.
So a run of the mesh is followed one member `(g, n)` at a time. The view of a member is its count
at every node, the peer tables and the traffic about it, and every step of the mesh is one event
of the view (`view_step`): the properties of the directory are proved on views and hold of the
mesh by this theorem.

## Main definitions

* `View`, `Notice`, `Event`, `View.step` : the view of a member and its events.
* `Mesh.view`, `Mesh.event` : the view of a state and the event of a step.

## Main results

* `Mesh.view_step` : a step of the mesh is the event of it on the view of every member.

## References

* `src/rpc/service_node.cc`, lines 110–168 and 198–283.
-/

namespace RawDish.Rpc

/-- A request about the member in flight from `src` to `dst`: an add or a removal. -/
structure Notice where
  src : HostPortPair
  dst : HostPortPair
  added : Bool
  deriving DecidableEq

/-- What the mesh knows of one member: its count at every node, `none` where it has no entry, the
peer tables and the requests about it in the order written. -/
@[ext]
structure View where
  count : HostPortPair → Option Int32
  peers : HostPortPair → Std.ExtTreeSet HostPortPair
  traffic : List Notice

/-- What a step of the mesh is for one member. -/
inductive Event
  | add (x : HostPortPair)
  | remove (x : HostPortPair)
  | receive (i : ℕ)
  | join (x y : HostPortPair)
  | silent

namespace View

open ServiceNode (countAdd countRemove)

/-- One notice from `x` to each of its peers. -/
def notify (v : View) (x : HostPortPair) (added : Bool) : List Notice :=
  (v.peers x).toList.map fun p => ⟨x, p, added⟩

/-- The count after a notice was handled. -/
def countReceive : Bool → Option Int32 → Option Int32
  | true => countAdd
  | false => countRemove (-1)

/-- One event. -/
def step (v : View) : Event → Option View
  | .add x => some { v with
      count := Function.update v.count x (countAdd (v.count x))
      traffic := v.traffic ++ v.notify x true }
  | .remove x => some { v with
      count := Function.update v.count x (countRemove 0 (v.count x))
      traffic := v.traffic ++ v.notify x false }
  | .receive i => v.traffic[i]?.map fun m => { v with
      count := Function.update v.count m.dst (countReceive m.added (v.count m.dst))
      traffic := v.traffic.eraseIdx i }
  | .join x y =>
    if y ∈ v.peers x then none
    else some { v with
      peers := Function.update v.peers x ((v.peers x).insert y)
      traffic := v.traffic ++ if (v.count x).isSome then [⟨x, y, true⟩] else [] }
  | .silent => some v

theorem step_receive_eq {v : View} {pre post : List Notice} {m : Notice}
    (h : v.traffic = pre ++ m :: post) :
    v.step (.receive pre.length) = some { v with
      count := Function.update v.count m.dst (countReceive m.added (v.count m.dst))
      traffic := pre ++ post } := by
  simp only [step, h, List.getElem?_append_right le_rfl, Nat.sub_self, List.getElem?_cons_zero,
    Option.map_some, List.eraseIdx_append_of_length_le le_rfl, List.eraseIdx_cons_zero]

theorem step_receive {v w : View} {i : ℕ} (h : v.step (.receive i) = some w) :
    ∃ pre m post, v.traffic = pre ++ m :: post ∧ i = pre.length ∧
      w = { v with
        count := Function.update v.count m.dst (countReceive m.added (v.count m.dst))
        traffic := pre ++ post } := by
  simp only [step, Option.map_eq_some_iff] at h
  obtain ⟨m, hm, rfl⟩ := h
  obtain ⟨pre, post, hsplit, rfl, herase⟩ := split_of_getElem? hm
  exact ⟨pre, m, post, hsplit, rfl, by rw [herase]⟩

theorem mem_notify {v : View} {x : HostPortPair} {added : Bool} {m : Notice} :
    m ∈ v.notify x added ↔ m.src = x ∧ m.dst ∈ v.peers x ∧ m.added = added := by
  obtain ⟨src, dst, b⟩ := m
  simp only [notify, List.mem_map, Std.ExtTreeSet.mem_toList, Notice.mk.injEq]
  constructor
  · rintro ⟨p, hp, rfl, rfl, rfl⟩
    exact ⟨rfl, hp, rfl⟩
  · rintro ⟨rfl, hp, rfl⟩
    exact ⟨dst, hp, rfl, rfl, rfl⟩

end View

/-- What a method says of the member: an add, a removal or nothing. -/
def Method.about (g n : Str) : Method → Option Bool
  | .addPeer _ => none
  | .addToGroup g' n' => if g' = g ∧ n' = n then some true else none
  | .removeFromGroup g' n' => if g' = g ∧ n' = n then some false else none

/-- The notice that a request carries, if it is about the member. -/
def Request.notice (g n : Str) (r : Request) : Option Notice :=
  (r.method.about g n).map fun added => ⟨r.src, r.dst, added⟩

/-- The notice that a call written by `x` carries. -/
def Call.notice (g n : Str) (x : HostPortPair) (c : Call) : Option Notice :=
  (c.method.about g n).map fun added => ⟨x, c.dst, added⟩

namespace Mesh

open Lib
open ServiceNode (countAdd countRemove)

variable {nodes : Std.ExtTreeSet HostPortPair} {s t : Mesh} {g n : Str}

/-- The view of the member `(g, n)`. -/
def view (g n : Str) (s : Mesh) : View where
  count x := (s.node x).memberCount g n
  peers x := (s.node x).peers
  traffic := s.requests.filterMap (Request.notice g n)

/-- What `RPCAddPeer` of `y` at `x` is for a member: nothing when `y` is a peer already. -/
def joinEvent (s : Mesh) (x y : HostPortPair) : Event :=
  if y ∈ (s.node x).peers then .silent else .join x y

/-- What a step is for the member `(g, n)`. -/
def event (g n : Str) (s : Mesh) : Action → Event
  | .addPeer x y => s.joinEvent x y
  | .addToGroup x g' n' => if g' = g ∧ n' = n then .add x else .silent
  | .removeFromGroup x g' n' => if g' = g ∧ n' = n then .remove x else .silent
  | .handle i =>
    match s.requests[i]? with
    | none => .silent
    | some r =>
      match r.method with
      | .addPeer y => s.joinEvent r.dst y
      | m =>
        if (m.about g n).isSome then
          .receive ((s.requests.take i).filterMap (Request.notice g n)).length
        else .silent
  | .respond _ => .silent

/-! ### The traffic a method causes -/

/-- The notices among the requests that a list of calls puts in flight. -/
theorem filterMap_issue (s : Mesh) (x : HostPortPair) (calls : List Call) :
    (s.issue x calls).filterMap (Request.notice g n) =
      calls.filterMap (Call.notice g n x) := by
  rw [issue, List.mapIdx_eq_zipIdx_map, List.filterMap_map]
  conv_rhs => rw [← List.zipIdx_map_fst 0 calls, List.filterMap_map]
  rfl

theorem filterMap_notify (s : ServiceNode) (x : HostPortPair) (m : Method) :
    (s.notify m).filterMap (Call.notice g n x) =
      (m.about g n).elim [] fun added => s.peers.toList.map fun p => ⟨x, p, added⟩ := by
  rw [ServiceNode.notify, List.filterMap_map]
  cases hm : m.about g n with
  | none => simp [Call.notice, hm]
  | some added => simp [Function.comp_def, Call.notice, hm, List.filterMap_eq_map']

/-- Looking for one value in a list without duplicates. -/
private theorem filterMap_eq_ite {α β : Type*} [DecidableEq α] {l : List α} (hl : l.Nodup) (a : α)
    (b : β) :
    (l.filterMap fun x => if x = a then some b else none) = if a ∈ l then [b] else [] := by
  induction l with
  | nil => rfl
  | cons x l ih =>
    obtain ⟨hx, hl⟩ := List.nodup_cons.1 hl
    by_cases hxa : x = a
    · subst hxa
      simp [ih hl, hx]
    · simp [hxa, ih hl, Ne.symm hxa]

/-- The snapshot of the group table names every member once. -/
private theorem nodup_snapshot (s : ServiceNode) :
    (s.groups.toList.flatMap fun g => g.2.keys.map fun name => (g.1, name)).Nodup := by
  rw [List.nodup_flatMap]
  refine ⟨fun e he => (nodup_keys e.2).map fun a b h => (Prod.ext_iff.1 h).2, ?_⟩
  have hfst : (s.groups.toList.map Prod.fst).Nodup := by
    rw [Std.ExtTreeMap.map_fst_toList_eq_keys]
    exact nodup_keys s.groups
  refine (List.pairwise_map.1 hfst).imp fun {a b} hab => ?_
  rw [Function.onFun, List.disjoint_left]
  intro p hp hp'
  obtain ⟨_, -, rfl⟩ := List.mem_map.1 hp
  obtain ⟨_, -, h⟩ := List.mem_map.1 hp'
  exact hab (Prod.ext_iff.1 h).1.symm

private theorem mem_snapshot {s : ServiceNode} :
    (g, n) ∈ (s.groups.toList.flatMap fun g => g.2.keys.map fun name => (g.1, name)) ↔
      s.IsMember g n := by
  rw [ServiceNode.isMember_iff_exists]
  simp only [List.mem_flatMap, List.mem_map, Prod.mk.injEq]
  constructor
  · rintro ⟨e, he, _, hn, hg, rfl⟩
    exact ⟨e, he, hg, hn⟩
  · rintro ⟨e, he, hg, hn⟩
    exact ⟨e, he, n, hn, hg, rfl⟩

/-- A greeting names the member once if the node has it, and not at all otherwise. -/
theorem filterMap_greeting (s : ServiceNode) (x y : HostPortPair) :
    (s.greeting y).filterMap (Call.notice g n x) =
      if (s.memberCount g n).isSome then [⟨x, y, true⟩] else [] := by
  have hpeers : ∀ l : List HostPortPair, (l.map (fun p => (⟨y, .addPeer p⟩ : Call))).filterMap
      (Call.notice g n x) = [] := by
    intro l
    simp [List.filterMap_map, Call.notice, Method.about]
  have hmembers : (s.groups.toList.flatMap fun e => e.2.keys.map fun name =>
      (⟨y, .addToGroup e.1 name⟩ : Call)) =
      (s.groups.toList.flatMap fun e => e.2.keys.map fun name => (e.1, name)).map
        fun p => ⟨y, .addToGroup p.1 p.2⟩ := by
    simp [List.map_flatMap, Function.comp_def]
  rw [ServiceNode.greeting, List.cons_append, List.filterMap_cons, Call.notice, Method.about,
    Option.map_none, List.filterMap_append, hpeers, List.nil_append, hmembers, List.filterMap_map]
  have hfun : (Call.notice g n x ∘ fun p : Str × Str => ⟨y, .addToGroup p.1 p.2⟩) =
      fun p => if p = (g, n) then some ⟨x, y, true⟩ else none := by
    funext p
    by_cases hp : p.1 = g ∧ p.2 = n
    · simp [Call.notice, Method.about, hp, Prod.ext_iff]
    · simp [Call.notice, Method.about, hp, Prod.ext_iff]
  rw [hfun, filterMap_eq_ite (nodup_snapshot s)]
  simp only [mem_snapshot, ServiceNode.isMember_iff]

/-! ### A step of the mesh is an event of the view -/

/-- The view after a node ran a method. -/
private theorem view_of_node {x : HostPortPair} {e : Effect} {base : List Request}
    (hnode : t.node = Function.update s.node x e.node)
    (hreq : t.requests = base ++ s.issue x e.calls) :
    t.view g n =
      { count := Function.update (s.view g n).count x (e.node.memberCount g n)
        peers := Function.update (s.view g n).peers x e.node.peers
        traffic :=
          base.filterMap (Request.notice g n) ++ e.calls.filterMap (Call.notice g n x) } := by
  ext : 1
  · funext z
    simp only [view, hnode, Function.update_apply]
    split_ifs <;> rfl
  · funext z
    simp only [view, hnode, Function.update_apply]
    split_ifs <;> rfl
  · simp only [view, hreq, List.filterMap_append, filterMap_issue]

/-- The view after a node ran a method that keeps its peers. -/
private theorem view_of_peers_eq {x : HostPortPair} {e : Effect} {base : List Request}
    (hnode : t.node = Function.update s.node x e.node)
    (hreq : t.requests = base ++ s.issue x e.calls) (hpeers : e.node.peers = (s.node x).peers) :
    t.view g n =
      { s.view g n with
        count := Function.update (s.view g n).count x (e.node.memberCount g n)
        traffic :=
          base.filterMap (Request.notice g n) ++ e.calls.filterMap (Call.notice g n x) } := by
  rw [view_of_node hnode hreq, hpeers]
  congr 1
  exact Function.update_eq_self x _

/-- A method that keeps the peers and is not about the member changes nothing of the view. -/
private theorem view_of_silent {x : HostPortPair} {e : Effect} {base : List Request}
    (hnode : t.node = Function.update s.node x e.node)
    (hreq : t.requests = base ++ s.issue x e.calls) (hpeers : e.node.peers = (s.node x).peers)
    (hcount : e.node.memberCount g n = (s.node x).memberCount g n)
    (hbase : base.filterMap (Request.notice g n) = (s.view g n).traffic)
    (hcalls : e.calls.filterMap (Call.notice g n x) = []) : t.view g n = s.view g n := by
  rw [view_of_peers_eq hnode hreq hpeers, hcount, hbase, hcalls, List.append_nil]
  ext : 1
  · exact Function.update_eq_self x _
  · rfl
  · rfl

/-- `RPCAddPeer` is a join of the view, or silent when the peer is known. -/
private theorem view_join {x y : HostPortPair} {base : List Request}
    (hnode : t.node = Function.update s.node x ((s.node x).rpcAddPeer y true).1.node)
    (hreq : t.requests = base ++ s.issue x ((s.node x).rpcAddPeer y true).1.calls)
    (hbase : base.filterMap (Request.notice g n) = (s.view g n).traffic) :
    (s.view g n).step (s.joinEvent x y) = some (t.view g n) := by
  have hcount := ServiceNode.memberCount_rpcAddPeer (s.node x) y true g n
  by_cases hy : y ∈ (s.node x).peers
  · simp only [joinEvent, hy, ↓reduceIte, View.step, Option.some.injEq]
    rw [ServiceNode.rpcAddPeer_of_mem hy] at hnode hreq
    exact (view_of_silent hnode hreq rfl rfl hbase rfl).symm
  · have hy' : y ∉ (s.view g n).peers x := hy
    simp only [joinEvent, hy, ↓reduceIte, View.step, hy', Option.some.injEq]
    rw [view_of_node hnode hreq, hcount, hbase, ServiceNode.rpcAddPeer_of_notMem hy,
      filterMap_greeting]
    congr 1
    exact (Function.update_eq_self x _).symm

/-- A local call about the member changes its count and notifies the peers; another one changes
nothing. -/
private theorem view_local {x : HostPortPair} {e : Effect} {m : Method}
    {f : Option Int32 → Option Int32} (hnode : t.node = Function.update s.node x e.node)
    (hreq : t.requests = s.requests ++ s.issue x e.calls)
    (hpeers : e.node.peers = (s.node x).peers) (hcalls : e.calls = (s.node x).notify m)
    (hcount : e.node.memberCount g n =
      if (m.about g n).isSome then f ((s.node x).memberCount g n)
      else (s.node x).memberCount g n) :
    t.view g n = (m.about g n).elim (s.view g n) fun added =>
      { s.view g n with
        count := Function.update (s.view g n).count x (f ((s.view g n).count x))
        traffic := (s.view g n).traffic ++ (s.view g n).notify x added } := by
  cases hm : m.about g n with
  | none =>
    simp only [hm, Option.isSome_none, Bool.false_eq_true, ↓reduceIte] at hcount
    refine view_of_silent hnode hreq hpeers hcount rfl ?_
    rw [hcalls, filterMap_notify, hm, Option.elim_none]
  | some added =>
    simp only [hm, Option.isSome_some, ↓reduceIte] at hcount
    rw [view_of_peers_eq hnode hreq hpeers, hcalls, filterMap_notify, hm, hcount]
    rfl

/-- A group request changes the count of its member only and writes nothing. -/
private theorem serve_group (s : ServiceNode) {m : Method} (hm : ∀ y, m ≠ .addPeer y) :
    (s.serve m).1.node.peers = s.peers ∧ (s.serve m).1.calls = [] ∧
      (s.serve m).1.node.memberCount g n = (m.about g n).elim (s.memberCount g n)
        fun added => View.countReceive added (s.memberCount g n) := by
  cases m with
  | addPeer y => exact absurd rfl (hm y)
  | addToGroup g' n' =>
    refine ⟨by simp [ServiceNode.serve], by simp [ServiceNode.serve], ?_⟩
    simp only [ServiceNode.serve, ServiceNode.memberCount_rpcAddToGroup, Method.about,
      eq_comm (a := g), eq_comm (a := n)]
    split_ifs <;> rfl
  | removeFromGroup g' n' =>
    refine ⟨by simp [ServiceNode.serve], by simp [ServiceNode.serve], ?_⟩
    simp only [ServiceNode.serve, ServiceNode.memberCount_rpcRemoveFromGroup, Method.about,
      eq_comm (a := g), eq_comm (a := n)]
    split_ifs <;> rfl

/-- The traffic around the notice of a request. -/
theorem traffic_eq {r : Request} {pre post : List Request} {added : Bool}
    (hr : s.requests = pre ++ r :: post) (hm : r.method.about g n = some added) :
    (s.view g n).traffic = pre.filterMap (Request.notice g n) ++
      ⟨r.src, r.dst, added⟩ :: post.filterMap (Request.notice g n) := by
  have hnotice : r.notice g n = some ⟨r.src, r.dst, added⟩ := by simp [Request.notice, hm]
  simp only [view, hr, List.filterMap_append, List.filterMap_cons, hnotice]

/-- Handling a group request is receiving its notice, or silent when it is about another member. -/
private theorem view_receive {r : Request} {pre post : List Request}
    (hr : s.requests = pre ++ r :: post) (hm : ∀ y, r.method ≠ .addPeer y)
    (hnode : t.node = Function.update s.node r.dst ((s.node r.dst).serve r.method).1.node)
    (hreq : t.requests = (pre ++ post) ++
      s.issue r.dst ((s.node r.dst).serve r.method).1.calls) :
    (s.view g n).step (if (r.method.about g n).isSome then
        .receive (pre.filterMap (Request.notice g n)).length else .silent) =
      some (t.view g n) := by
  obtain ⟨hpeers, hcalls, hcount⟩ := serve_group (g := g) (n := n) (s.node r.dst) hm
  cases habout : r.method.about g n with
  | none =>
    have hbase : (pre ++ post).filterMap (Request.notice g n) = (s.view g n).traffic := by
      simp [view, hr, Request.notice, habout]
    simp only [Option.isSome_none, Bool.false_eq_true, ↓reduceIte, View.step, Option.some.injEq]
    rw [habout, Option.elim_none] at hcount
    exact (view_of_silent hnode hreq hpeers hcount hbase (by rw [hcalls]; rfl)).symm
  | some added =>
    rw [habout, Option.elim_some] at hcount
    rw [view_of_peers_eq hnode hreq hpeers, hcalls, hcount]
    simp only [Option.isSome_some, ↓reduceIte, View.step_receive_eq (traffic_eq hr habout),
      List.filterMap_append, List.filterMap_nil, List.append_nil]
    rfl

/-- A step of the mesh is its event on the view of every member. -/
theorem view_step {a : Action} (h : step nodes s a = some t) (g n : Str) :
    (s.view g n).step (s.event g n a) = some (t.view g n) := by
  rcases step_cases h with ⟨x, e, base, hp, hnode, hreq⟩ | ⟨i, rfl, hnode, hreq⟩
  · cases hp with
    | addPeer _ y => exact view_join hnode hreq rfl
    | addToGroup _ g' n' =>
      have hview := view_local (g := g) (n := n) (f := countAdd) hnode hreq
        (ServiceNode.peers_addToGroup _ g' n') (ServiceNode.calls_addToGroup _ g' n') (by
          simp only [ServiceNode.memberCount_addToGroup, Method.about, eq_comm (a := g),
            eq_comm (a := n)]
          split_ifs <;> simp_all)
      rw [hview, event, Method.about]
      split_ifs <;> rfl
    | removeFromGroup _ g' n' =>
      have hview := view_local (g := g) (n := n) (f := countRemove 0) hnode hreq
        (ServiceNode.peers_removeFromGroup _ g' n') (ServiceNode.calls_removeFromGroup _ g' n') (by
          simp only [ServiceNode.memberCount_removeFromGroup, Method.about, eq_comm (a := g),
            eq_comm (a := n)]
          split_ifs <;> simp_all)
      rw [hview, event, Method.about]
      split_ifs <;> rfl
    | handle r pre post hr =>
      have hget : s.requests[pre.length]? = some r := by simp [hr]
      have htake : s.requests.take pre.length = pre := by simp [hr]
      simp only [event, hget, htake]
      split
      · rename_i y hm
        rw [hm] at hnode hreq
        refine view_join hnode hreq ?_
        simp [view, hr, Request.notice, hm, Method.about]
      · rename_i hm
        exact view_receive hr hm hnode hreq
  · have hview : t.view g n = s.view g n := by
      simp only [view, hnode, hreq]
    simp only [event, View.step, hview]

/-! ### Which step an event is -/

/-- The steps that are an event of the member, by the kind of the event. -/
inductive Reads (g n : Str) (s : Mesh) : Action → Event → Prop
  | add (x : HostPortPair) : Reads g n s (.addToGroup x g n) (.add x)
  | remove (x : HostPortPair) : Reads g n s (.removeFromGroup x g n) (.remove x)
  | receive (r : Request) (pre post : List Request) (added : Bool)
      (hr : s.requests = pre ++ r :: post) (hm : r.method.about g n = some added) :
      Reads g n s (.handle pre.length) (.receive (pre.filterMap (Request.notice g n)).length)
  | join (a : Action) (x y : HostPortPair) (hy : y ∉ (s.node x).peers)
      (ha : a = .addPeer x y ∨
        ∃ i r, a = .handle i ∧ s.requests[i]? = some r ∧ r.dst = x ∧ r.method = .addPeer y) :
      Reads g n s a (.join x y)
  | silent (a : Action) (hadd : ∀ x, a ≠ .addToGroup x g n)
      (hremove : ∀ x, a ≠ .removeFromGroup x g n) : Reads g n s a .silent

private theorem reads_joinEvent {a : Action} {x y : HostPortPair}
    (ha : a = .addPeer x y ∨
      ∃ i r, a = .handle i ∧ s.requests[i]? = some r ∧ r.dst = x ∧ r.method = .addPeer y) :
    Reads g n s a (s.joinEvent x y) := by
  rw [joinEvent]
  split_ifs with hy
  · refine .silent a (fun z hz => ?_) (fun z hz => ?_)
    all_goals
      rcases ha with ha | ⟨i, r, ha, -⟩
      · simp [hz] at ha
      · simp [hz] at ha
  · exact .join a x y hy ha

theorem reads_event (g n : Str) (s : Mesh) (a : Action) : Reads g n s a (s.event g n a) := by
  cases a with
  | addPeer x y => exact reads_joinEvent (Or.inl rfl)
  | addToGroup x g' n' =>
    rw [event]
    split_ifs with hgn
    · obtain ⟨rfl, rfl⟩ := hgn
      exact .add x
    · exact .silent _ (fun z hz => hgn (by simp_all)) (by simp)
  | removeFromGroup x g' n' =>
    rw [event]
    split_ifs with hgn
    · obtain ⟨rfl, rfl⟩ := hgn
      exact .remove x
    · exact .silent _ (by simp) (fun z hz => hgn (by simp_all))
  | handle i =>
    rw [event]
    split
    · exact .silent _ (by simp) (by simp)
    · rename_i r hr
      split
      · rename_i y hm
        exact reads_joinEvent (Or.inr ⟨i, r, rfl, hr, rfl, hm⟩)
      · cases hm : r.method.about g n with
        | none => exact .silent _ (by simp) (by simp)
        | some added =>
          obtain ⟨pre, post, hsplit, rfl, -⟩ := split_of_getElem? hr
          have htake : s.requests.take pre.length = pre := by simp [hsplit]
          rw [htake]
          exact .receive r pre post added hsplit hm
  | respond i => exact .silent _ (by simp) (by simp)

end Mesh

end RawDish.Rpc
