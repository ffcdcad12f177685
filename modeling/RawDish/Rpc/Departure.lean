import RawDish.Rpc.Directory

/-!
# Registering and unregistering once

A service that is registered once by its owner and unregistered once, in a mesh that grows
meanwhile, with the requests of each connection handled in order. The owner announces the member
to every peer once, with the call or in the greeting of a later peer, and withdraws it from every
peer once, after the announcement; so an entry appears, has count one and goes.

This fails when another node that has the member opens a connection: its greeting announces the
member a second time, and one withdrawal does not undo two announcements. The property holds in
every run in which no such step is taken for a member that is withdrawn.

## Main definitions

* `View.pending` : the notices on their way to a node.
* `View.OwnedBy` : the invariant of a member that only its owner announces.
* `Mesh.AnnouncesOwn` : the step does not announce the member from another node.

## Main results

* `Mesh.departure` : the member is present in the component of its owner exactly while registered.

## References

* `src/rpc/service_node.cc`, lines 138–168 and 235–283.
-/

namespace RawDish.Rpc

open Lib
open ServiceNode (countAdd countRemove)

/-- How far the owner of a member is. -/
inductive Phase
  | unregistered
  | registered
  | withdrawn
  deriving DecidableEq

namespace View

variable {v w : View} {owner : HostPortPair} {phase : Phase}

/-- The notices in flight to `y`, in order. -/
def pending (v : View) (y : HostPortPair) : List Bool :=
  (v.traffic.filter fun m => m.dst = y).map Notice.added

/-- The count becomes one when the notices are handled in order. -/
def Coming (c : Option Int32) (p : List Bool) : Prop :=
  (c = none ∧ p = [true]) ∨ (c = some 1 ∧ p = [])

/-- The entry is gone when the notices are handled in order. -/
def Going (c : Option Int32) (p : List Bool) : Prop :=
  (c = none ∧ p = [true, false]) ∨ (c = some 1 ∧ p = [false]) ∨ (c = none ∧ p = [])

/-- The invariant of a member that only its owner announces: all notices are from the owner to
its peers; while it is registered it is coming at the owner and at its peers, and it is going
everywhere else. -/
structure OwnedBy (owner : HostPortPair) (phase : Phase) (v : View) : Prop where
  from_owner : ∀ m ∈ v.traffic, m.src = owner ∧ m.dst ∈ v.peers owner
  not_self : owner ∉ v.peers owner
  coming : phase = .registered → ∀ y, y = owner ∨ y ∈ v.peers owner →
    Coming (v.count y) (v.pending y)
  going : ∀ y, ¬ (phase = .registered ∧ (y = owner ∨ y ∈ v.peers owner)) →
    Going (v.count y) (v.pending y)
  unseen : phase = .unregistered → v.traffic = [] ∧ ∀ y, v.count y = none

theorem pending_eq_nil {y : HostPortPair} (h : ∀ m ∈ v.traffic, m.dst ≠ y) : v.pending y = [] := by
  rw [pending, List.map_eq_nil_iff, List.filter_eq_nil_iff]
  exact fun m hm => by simpa using h m hm

/-- A peer gets one notice, another node none. -/
theorem pending_notify (v : View) (x y : HostPortPair) (b : Bool) :
    ((v.notify x b).filter fun m => m.dst = y).map Notice.added =
      if y ∈ v.peers x then [b] else [] := by
  have hcount := countP_notify v x y b b
  have hall : ∀ m ∈ (v.notify x b).filter fun m => m.dst = y, m.added = b := fun m hm =>
    (mem_notify.1 (List.mem_of_mem_filter hm)).2.2
  have hlen : ((v.notify x b).filter fun m => m.dst = y).length =
      if y ∈ v.peers x then 1 else 0 := by
    rw [← List.countP_eq_length_filter]
    simp only [and_true] at hcount
    rw [← hcount]
    refine List.countP_congr fun m hm => ?_
    simp [(mem_notify.1 hm).2.2]
  rw [List.map_eq_replicate_iff.2 hall, hlen]
  split_ifs <;> rfl

/-- Outside the peers of the owner there is nothing but absence. -/
theorem OwnedBy.absent (h : OwnedBy owner phase v) {y : HostPortPair} (hy : y ∉ v.peers owner)
    (hne : y ≠ owner) : v.count y = none ∧ v.pending y = [] := by
  have hp : v.pending y = [] := pending_eq_nil fun m hm hdst => hy (hdst ▸ (h.from_owner m hm).2)
  rcases h.going y (by simp [hy, hne]) with ⟨-, hp'⟩ | ⟨-, hp'⟩ | hc
  · simp [hp] at hp'
  · simp [hp] at hp'
  · exact hc

/-- Nothing is on its way to the owner. -/
theorem OwnedBy.pending_owner (h : OwnedBy owner phase v) : v.pending owner = [] :=
  pending_eq_nil fun m hm hdst => h.not_self (hdst ▸ (h.from_owner m hm).2)

theorem OwnedBy.count_owner (h : OwnedBy owner .registered v) : v.count owner = some 1 := by
  rcases h.coming rfl owner (Or.inl rfl) with ⟨-, hp⟩ | ⟨hc, -⟩
  · simp [h.pending_owner] at hp
  · exact hc

/-- The owner registers the member. -/
theorem OwnedBy.add (h : OwnedBy owner .unregistered v) (hw : v.step (.add owner) = some w) :
    OwnedBy owner .registered w := by
  rw [step, Option.some.injEq] at hw
  subst hw
  obtain ⟨htraffic, hcount⟩ := h.unseen rfl
  have hpending : ∀ y, View.pending { v with
      count := Function.update v.count owner (countAdd (v.count owner))
      traffic := v.traffic ++ v.notify owner true } y =
        if y ∈ v.peers owner then [true] else [] := by
    intro y
    rw [← pending_notify]
    simp only [pending, htraffic, List.nil_append]
  refine ⟨fun m hm => ?_, h.not_self, fun _ y hy => ?_, fun y hy => ?_, by simp⟩
  · rw [htraffic, List.nil_append, mem_notify] at hm
    exact ⟨hm.1, hm.2.1⟩
  · rw [hpending]
    rcases hy with rfl | hy
    · right
      simp [hcount, countAdd, h.not_self]
    · left
      have hne : y ≠ owner := fun heq => h.not_self (heq ▸ hy)
      simp [hcount, hne, hy]
  · rw [hpending]
    have hy' : y ≠ owner ∧ y ∉ v.peers owner := by simpa using hy
    right; right
    simp [hcount, hy']

/-- The owner withdraws the member. -/
theorem OwnedBy.remove (h : OwnedBy owner .registered v) (hw : v.step (.remove owner) = some w) :
    OwnedBy owner .withdrawn w := by
  rw [step, Option.some.injEq] at hw
  subst hw
  have hpending : ∀ y, View.pending { v with
      count := Function.update v.count owner (countRemove 0 (v.count owner))
      traffic := v.traffic ++ v.notify owner false } y =
        v.pending y ++ if y ∈ v.peers owner then [false] else [] := by
    intro y
    rw [← pending_notify]
    simp only [pending, List.filter_append, List.map_append]
  refine ⟨fun m hm => ?_, h.not_self, by simp, fun y _ => ?_, by simp⟩
  · rcases List.mem_append.1 hm with hm | hm
    · exact h.from_owner m hm
    · rw [mem_notify] at hm
      exact ⟨hm.1, hm.2.1⟩
  · rw [hpending]
    by_cases hy : y = owner
    · subst hy
      right; right
      simp [h.pending_owner, h.count_owner, countRemove, h.not_self]
    · simp only [Function.update_of_ne hy]
      by_cases hpeer : y ∈ v.peers owner
      · rcases h.coming rfl y (Or.inr hpeer) with ⟨hc, hp⟩ | ⟨hc, hp⟩
        · exact Or.inl (by simp [hc, hp, hpeer])
        · exact Or.inr (Or.inl (by simp [hc, hp, hpeer]))
      · obtain ⟨hc, hp⟩ := h.absent hpeer hy
        exact Or.inr (Or.inr (by simp [hc, hp, hpeer]))

/-- A node handles the first notice on its way to it. -/
theorem OwnedBy.receive (h : OwnedBy owner phase v) {m : Notice} {pre post : List Notice}
    (htraffic : v.traffic = pre ++ m :: post)
    (hfirst : ∀ m' ∈ pre, ¬ (m'.src = m.src ∧ m'.dst = m.dst)) :
    OwnedBy owner phase { v with
      count := Function.update v.count m.dst (countReceive m.added (v.count m.dst))
      traffic := pre ++ post } := by
  have hmem : ∀ m' ∈ pre ++ post, m' ∈ v.traffic := fun m' => mem_of_mem_split htraffic
  have hm : m ∈ v.traffic := by simp [htraffic]
  -- All notices have the same source, so none before this one is to the same node.
  have hpre : ∀ m' ∈ pre, m'.dst ≠ m.dst := by
    intro m' hm' hdst
    have hsrc := (h.from_owner m' (by simp [htraffic, hm'])).1
    exact hfirst m' hm' ⟨hsrc.trans (h.from_owner m hm).1.symm, hdst⟩
  have hhead : v.pending m.dst =
      m.added :: View.pending { v with traffic := pre ++ post } m.dst := by
    have hnil : pre.filter (fun m' => m'.dst = m.dst) = [] := by
      rw [List.filter_eq_nil_iff]
      exact fun m' hm' => by simpa using hpre m' hm'
    simp [pending, htraffic, hnil]
  have hrest : ∀ y, y ≠ m.dst →
      View.pending { v with traffic := pre ++ post } y = v.pending y := by
    intro y hy
    simp [pending, htraffic, Ne.symm hy]
  have hunseen : phase ≠ .unregistered := by
    intro hphase
    simp [(h.unseen hphase).1] at hm
  refine ⟨fun m' hm' => h.from_owner m' (hmem m' hm'), h.not_self, fun hphase y hy => ?_,
    fun y hy => ?_, fun hphase => absurd hphase hunseen⟩
  · by_cases hdst : y = m.dst
    · subst hdst
      simp only [Function.update_self]
      rcases h.coming hphase m.dst hy with ⟨hc, hp⟩ | ⟨-, hp⟩
      · rw [hhead, List.cons.injEq] at hp
        exact Or.inr ⟨by rw [hp.1, hc]; rfl, hp.2⟩
      · simp [hhead] at hp
    · simp only [Function.update_of_ne hdst]
      have hc := h.coming hphase y hy
      rwa [← hrest y hdst] at hc
  · by_cases hdst : y = m.dst
    · subst hdst
      simp only [Function.update_self]
      rcases h.going m.dst hy with ⟨hc, hp⟩ | ⟨hc, hp⟩ | ⟨-, hp⟩
      · rw [hhead, List.cons.injEq] at hp
        exact Or.inr (Or.inl ⟨by rw [hp.1, hc]; rfl, hp.2⟩)
      · rw [hhead, List.cons.injEq] at hp
        exact Or.inr (Or.inr ⟨by rw [hp.1, hc]; rfl, hp.2⟩)
      · simp [hhead] at hp
    · simp only [Function.update_of_ne hdst]
      have hc := h.going y hy
      rwa [← hrest y hdst] at hc

/-- Another node that does not have the member gets a new peer. -/
theorem OwnedBy.join_other (h : OwnedBy owner phase v) {x y : HostPortPair} (hx : x ≠ owner)
    (hc : v.count x = none) (hw : v.step (.join x y) = some w) : OwnedBy owner phase w := by
  simp only [step, Option.ite_none_left_eq_some, Option.some.injEq] at hw
  obtain ⟨-, rfl⟩ := hw
  have hpeers : Function.update v.peers x ((v.peers x).insert y) owner = v.peers owner :=
    Function.update_of_ne (Ne.symm hx) _ _
  simp only [hc, Option.isSome_none, Bool.false_eq_true, ↓reduceIte, List.append_nil]
  exact ⟨by simpa only [hpeers] using h.from_owner, by simpa only [hpeers] using h.not_self,
    by simpa only [hpeers, pending] using h.coming,
    by simpa only [hpeers, pending] using h.going, h.unseen⟩

/-- The owner gets a new peer and announces the member to it if it is registered. -/
theorem OwnedBy.join_owner (h : OwnedBy owner phase v) {y : HostPortPair} (hy : y ≠ owner)
    (hw : v.step (.join owner y) = some w) : OwnedBy owner phase w := by
  simp only [step, Option.ite_none_left_eq_some, Option.some.injEq] at hw
  obtain ⟨hnew, rfl⟩ := hw
  obtain ⟨hcy, hpy⟩ := h.absent hnew hy
  have hsome : (v.count owner).isSome ↔ phase = .registered := by
    constructor
    · intro hc
      by_contra hphase
      rcases h.going owner (by simp [hphase]) with ⟨-, hp⟩ | ⟨-, hp⟩ | ⟨hnone, -⟩
      · simp [h.pending_owner] at hp
      · simp [h.pending_owner] at hp
      · simp [hnone] at hc
    · rintro rfl
      simp [h.count_owner]
  have hpeers : ∀ z, z ∈ Function.update v.peers owner ((v.peers owner).insert y) owner ↔
      z = y ∨ z ∈ v.peers owner := by
    intro z
    rw [Function.update_self, Std.ExtTreeSet.mem_insert, Std.compare_eq_iff_eq, eq_comm]
  have hpending : ∀ z, View.pending { v with
      peers := Function.update v.peers owner ((v.peers owner).insert y)
      traffic := v.traffic ++ if (v.count owner).isSome then [⟨owner, y, true⟩] else [] } z =
        v.pending z ++ if phase = .registered ∧ z = y then [true] else [] := by
    intro z
    simp only [hsome, pending, List.filter_append, List.map_append]
    by_cases hphase : phase = .registered
    · by_cases hz : z = y
      · simp [hphase, hz]
      · simp [hphase, hz, Ne.symm hz]
    · simp [hphase]
  refine ⟨fun m hm => ?_, ?_, fun hphase z hz => ?_, fun z hz => ?_, fun hphase => ?_⟩
  · rw [hpeers]
    rcases List.mem_append.1 hm with hm | hm
    · exact ⟨(h.from_owner m hm).1, Or.inr (h.from_owner m hm).2⟩
    · split_ifs at hm
      · rw [List.mem_singleton.1 hm]
        exact ⟨rfl, Or.inl rfl⟩
      · simp at hm
  · rw [hpeers]
    rintro (heq | hmem)
    · exact hy heq.symm
    · exact h.not_self hmem
  · rw [hpending]
    rw [hpeers] at hz
    by_cases hzy : z = y
    · subst hzy
      left
      simp [hcy, hpy, hphase]
    · have hc := h.coming hphase z (by tauto)
      simpa [hzy] using hc
  · rw [hpending]
    rw [hpeers] at hz
    by_cases hzy : z = y
    · subst hzy
      have hphase : phase ≠ .registered := by
        rintro rfl
        simp at hz
      right; right
      simp [hcy, hpy, hphase]
    · have hc := h.going z (by tauto)
      simpa [hzy] using hc
  · obtain ⟨htraffic, hcount⟩ := h.unseen hphase
    simp [htraffic, hcount]

end View

/-- The action is a call on the member `(g, n)`. -/
def Action.Names (g n : Str) : Action → Prop
  | .addToGroup _ g' n' => g' = g ∧ n' = n
  | .removeFromGroup _ g' n' => g' = g ∧ n' = n
  | _ => False

instance (g n : Str) : (a : Action) → Decidable (a.Names g n)
  | .addPeer _ _ => inferInstanceAs (Decidable False)
  | .addToGroup _ g' n' => inferInstanceAs (Decidable (g' = g ∧ n' = n))
  | .removeFromGroup _ g' n' => inferInstanceAs (Decidable (g' = g ∧ n' = n))
  | .handle _ => inferInstanceAs (Decidable False)
  | .respond _ => inferInstanceAs (Decidable False)

namespace Mesh

variable {nodes : Std.ExtTreeSet HostPortPair} {s t : Mesh} {owner : HostPortPair} {g n : Str}

/-- The calls on the member in a run. -/
def memberCalls (g n : Str) (as : List Action) : List Action := as.filter fun a => a.Names g n

/-- Running the method at `x` opens no connection, or `x` is the owner of the member or does not
have it. -/
def ServesOwn (owner : HostPortPair) (g n : Str) (s : Mesh) (x : HostPortPair) : Method → Prop
  | .addPeer y => y ∈ (s.node x).peers ∨ x = owner ∨ ¬ (s.node x).IsMember g n
  | _ => True

instance (owner : HostPortPair) (g n : Str) (s : Mesh) (x : HostPortPair) :
    (m : Method) → Decidable (ServesOwn owner g n s x m)
  | .addPeer y => inferInstanceAs
      (Decidable (y ∈ (s.node x).peers ∨ x = owner ∨ ¬ (s.node x).IsMember g n))
  | .addToGroup _ _ => inferInstanceAs (Decidable True)
  | .removeFromGroup _ _ => inferInstanceAs (Decidable True)

/-- The step does not announce the member in the greeting of a node that is not its owner. -/
def AnnouncesOwn (owner : HostPortPair) (g n : Str) (s : Mesh) : Action → Prop
  | .addPeer x y => ServesOwn owner g n s x (.addPeer y)
  | .handle i => ∀ r ∈ s.requests[i]?, ServesOwn owner g n s r.dst r.method
  | _ => True

instance (owner : HostPortPair) (g n : Str) (s : Mesh) :
    (a : Action) → Decidable (AnnouncesOwn owner g n s a)
  | .addPeer x y => inferInstanceAs (Decidable (ServesOwn owner g n s x (.addPeer y)))
  | .handle i => inferInstanceAs
      (Decidable (∀ r ∈ s.requests[i]?, ServesOwn owner g n s r.dst r.method))
  | .addToGroup _ _ _ => inferInstanceAs (Decidable True)
  | .removeFromGroup _ _ _ => inferInstanceAs (Decidable True)
  | .respond _ => inferInstanceAs (Decidable True)

/-- The calls on the member up to a phase. -/
def callsUpTo (owner : HostPortPair) (g n : Str) : Phase → List Action
  | .unregistered => []
  | .registered => [.addToGroup owner g n]
  | .withdrawn => [.addToGroup owner g n, .removeFromGroup owner g n]

theorem memberCalls_concat (as : List Action) (a : Action) :
    memberCalls g n (as ++ [a]) = memberCalls g n as ++ if a.Names g n then [a] else [] := by
  simp only [memberCalls, List.filter_append, List.filter_singleton]
  split_ifs <;> simp_all

/-- One more call is the registration or the withdrawal. -/
theorem concat_eq_callsUpTo {l : List Action} {a : Action} {phase : Phase}
    (h : l ++ [a] = callsUpTo owner g n phase) :
    (phase = .registered ∧ a = .addToGroup owner g n ∧
      l = callsUpTo owner g n .unregistered) ∨
    (phase = .withdrawn ∧ a = .removeFromGroup owner g n ∧
      l = callsUpTo owner g n .registered) := by
  cases phase with
  | unregistered => simp [callsUpTo] at h
  | registered =>
    obtain ⟨hl, ha⟩ := List.append_inj' (show l ++ [a] = [] ++ [.addToGroup owner g n] from h) rfl
    exact Or.inl ⟨rfl, by simpa using ha, hl⟩
  | withdrawn =>
    obtain ⟨hl, ha⟩ := List.append_inj'
      (show l ++ [a] = [.addToGroup owner g n] ++ [.removeFromGroup owner g n] from h) rfl
    exact Or.inr ⟨rfl, by simpa using ha, hl⟩

theorem AnnouncesOwn.of_join {a : Action} (h : AnnouncesOwn owner g n s a) {x y : HostPortPair}
    (hy : y ∉ (s.node x).peers) (ha : a = .addPeer x y ∨
      ∃ i r, a = .handle i ∧ s.requests[i]? = some r ∧ r.dst = x ∧ r.method = .addPeer y)
    (hx : x ≠ owner) : (s.view g n).count x = none := by
  have hjoin : ServesOwn owner g n s x (.addPeer y) := by
    rcases ha with rfl | ⟨i, r, rfl, hr, rfl, hm⟩
    · exact h
    · have hown := h r hr
      rwa [hm] at hown
  rcases hjoin with hmem | howner | hnot
  · exact absurd hmem hy
  · exact absurd howner hx
  · exact ServiceNode.not_isMember_iff.1 hnot

theorem ownedBy_start : View.OwnedBy owner .unregistered (start.view g n) := by
  have hcount : ∀ y, (start.view g n).count y = none := fun y =>
    ServiceNode.memberCount_create y g n
  have htraffic : (start.view g n).traffic = [] := rfl
  refine ⟨by simp [htraffic], by simp [view, start, ServiceNode.create], by simp, fun y _ => ?_,
    fun _ => ⟨htraffic, hcount⟩⟩
  exact Or.inr (Or.inr ⟨hcount y, by simp [View.pending, htraffic]⟩)

/-- A step keeps the phase that the calls so far say, or enters the next one. -/
theorem ownedBy_step {as : List Action} {a : Action} {t : Mesh}
    (hs : exec (step nodes) start as = some s)
    (ih : ∀ phase, memberCalls g n as = callsUpTo owner g n phase →
      View.OwnedBy owner phase (s.view g n))
    (hfifo : InOrder s a) (hown : AnnouncesOwn owner g n s a) (hst : step nodes s a = some t)
    {phase : Phase} (hphase : memberCalls g n (as ++ [a]) = callsUpTo owner g n phase) :
    View.OwnedBy owner phase (t.view g n) := by
  have hview := view_step hst g n
  have hreads := reads_event g n s a
  generalize s.event g n a = e at hview hreads
  rw [memberCalls_concat] at hphase
  -- A step that is no call on the member leaves the phase.
  have hkeep : ¬ a.Names g n → View.OwnedBy owner phase (s.view g n) := by
    intro ha
    rw [if_neg ha, List.append_nil] at hphase
    exact ih phase hphase
  cases hreads with
  | add x =>
    rw [if_pos ⟨rfl, rfl⟩] at hphase
    rcases concat_eq_callsUpTo hphase with ⟨rfl, hx, hl⟩ | ⟨-, hx, -⟩
    · obtain rfl : x = owner := by simpa using hx
      exact (ih _ hl).add hview
    · simp at hx
  | remove x =>
    rw [if_pos ⟨rfl, rfl⟩] at hphase
    rcases concat_eq_callsUpTo hphase with ⟨-, hx, -⟩ | ⟨rfl, hx, hl⟩
    · simp at hx
    · obtain rfl : x = owner := by simpa using hx
      exact (ih _ hl).remove hview
  | receive r pre post added hr hm =>
    have htraffic := traffic_eq hr hm
    have hfirst : ∀ m' ∈ pre.filterMap (Request.notice g n),
        ¬ (m'.src = r.src ∧ m'.dst = r.dst) := by
      intro m' hm'
      obtain ⟨r', hr', hnotice⟩ := List.mem_filterMap.1 hm'
      obtain ⟨b, -, rfl⟩ := Option.map_eq_some_iff.1 hnotice
      exact hfifo r (by simp [hr]) r' (by simpa [hr] using hr')
    rw [View.step_receive_eq htraffic, Option.some.injEq] at hview
    rw [← hview]
    exact (hkeep (by simp [Action.Names])).receive htraffic hfirst
  | join _ x y hy ha =>
    have hnames : ¬ a.Names g n := by
      rcases ha with rfl | ⟨i, r, rfl, -⟩ <;> simp [Action.Names]
    have h := hkeep hnames
    by_cases hx : x = owner
    · subst hx
      refine h.join_owner ?_ hview
      rintro rfl
      have hlinked := linked_of_exec (exec_concat_eq_some.2 ⟨s, hs, hst⟩)
      simp only [View.step, Option.ite_none_left_eq_some, Option.some.injEq] at hview
      refine hlinked.not_self y ?_
      show y ∈ (t.view g n).peers y
      simp only [← hview.2, Function.update_self]
      exact Std.ExtTreeSet.mem_insert_self
    · exact h.join_other hx (hown.of_join hy ha hx) hview
  | silent _ hadd hremove =>
    rw [View.step, Option.some.injEq] at hview
    rw [← hview]
    refine hkeep ?_
    cases a with
    | addToGroup x g' n' =>
      rintro ⟨hg, hn⟩
      exact hadd x (by rw [hg, hn])
    | removeFromGroup x g' n' =>
      rintro ⟨hg, hn⟩
      exact hremove x (by rw [hg, hn])
    | addPeer x y => exact id
    | handle i => exact id
    | respond i => exact id

/-- The invariant holds along every run whose calls on the member are those of the owner. -/
theorem ownedBy_of_exec {as : List Action} (hrun : exec (step nodes) start as = some s)
    (hsteps : AllSteps (step nodes) (fun s a => InOrder s a ∧ AnnouncesOwn owner g n s a) start as)
    {phase : Phase} (hcalls : memberCalls g n as = callsUpTo owner g n phase) :
    View.OwnedBy owner phase (s.view g n) := by
  refine exec_invariant (fun as s => ∀ phase, memberCalls g n as = callsUpTo owner g n phase →
    View.OwnedBy owner phase (s.view g n)) ?_ ?_ hsteps hrun phase hcalls
  · intro phase hphase
    cases phase with
    | unregistered => exact ownedBy_start
    | registered => simp [memberCalls, callsUpTo] at hphase
    | withdrawn => simp [memberCalls, callsUpTo] at hphase
  · intro as s a t hs ih hcond hst phase hphase
    exact ownedBy_step hs ih hcond.1 hcond.2 hst hphase

/-- **A service that registers once and unregisters once disappears.** Take any run of a growing
mesh in which the requests of each connection are handled in order and in which the calls on
`(g, n)` are at most one registration by its owner and one withdrawal after it. If the member is
withdrawn, let no step of the run open a connection at a node other than the owner that has the
member. Then in every state without requests in flight a node of the owner's component has the
member exactly when the owner has registered and not withdrawn it.

The condition is on the state before each step. A greeting from another node that has the member
announces it once more, and the count it leaves does not go with one withdrawal.

Source: `src/rpc/service_node.cc`, lines 138–168 and 235–283. -/
theorem departure (nodes : Std.ExtTreeSet HostPortPair) (as : List Action) (s : Mesh)
    (hrun : exec (step nodes) start as = some s)
    (hfifo : AllSteps (step nodes) InOrder start as) (owner : HostPortPair) (g n : Str)
    (hcalls : memberCalls g n as <+: [.addToGroup owner g n, .removeFromGroup owner g n])
    (hown : .removeFromGroup owner g n ∈ as →
      AllSteps (step nodes) (AnnouncesOwn owner g n) start as)
    (hreq : s.requests = []) (y : HostPortPair) (hy : Connected s owner y) :
    (s.node y).IsMember g n ↔
      .addToGroup owner g n ∈ as ∧ .removeFromGroup owner g n ∉ as := by
  have hmem : ∀ a ∈ as, a.Names g n →
      a ∈ [Action.addToGroup owner g n, .removeFromGroup owner g n] := fun a ha hnames =>
    hcalls.subset (List.mem_filter.2 ⟨ha, by simpa using hnames⟩)
  by_cases hremoved : .removeFromGroup owner g n ∈ as
  · -- The withdrawal is the last call, so the run is in the last phase.
    have hphase : memberCalls g n as = callsUpTo owner g n .withdrawn := by
      have hin : .removeFromGroup owner g n ∈ memberCalls g n as :=
        List.mem_filter.2 ⟨hremoved, by simp [Action.Names]⟩
      rcases List.prefix_cons_iff.1 hcalls with hnil | ⟨l, hl, hl'⟩
      · simp [hnil] at hin
      · rcases List.prefix_cons_iff.1 hl' with hnil | ⟨l', rfl, hnil⟩
        · simp [hl, hnil] at hin
        · rw [hl, List.prefix_nil.1 hnil, callsUpTo]
    have h := ownedBy_of_exec hrun (hfifo.and (hown hremoved)) hphase
    have hpending : (s.view g n).pending y = [] := by simp [View.pending, view, hreq]
    rw [ServiceNode.isMember_iff]
    simp only [hremoved, not_true_eq_false, and_false, iff_false]
    rcases h.going y (by simp) with ⟨-, hp⟩ | ⟨-, hp⟩ | ⟨hc, -⟩
    · simp [hpending] at hp
    · simp [hpending] at hp
    · have hc' : (s.node y).memberCount g n = none := hc
      simp [hc']
  · have hno : ∀ x, .removeFromGroup x g n ∉ as := by
      intro x hx
      have hx' := hmem _ hx ⟨rfl, rfl⟩
      simp only [List.mem_cons, List.not_mem_nil, or_false, reduceCtorEq, false_or,
        Action.removeFromGroup.injEq, and_true] at hx'
      exact hremoved (hx' ▸ hx)
    rw [isMember_iff_added hrun hno hreq y]
    constructor
    · rintro ⟨x, -, hx⟩
      have hx' := hmem _ hx ⟨rfl, rfl⟩
      simp only [List.mem_cons, List.not_mem_nil, or_false, reduceCtorEq,
        Action.addToGroup.injEq, and_true] at hx'
      exact ⟨hx' ▸ hx, hremoved⟩
    · rintro ⟨hadd, -⟩
      exact ⟨owner, hy, hadd⟩

/-- A mesh of three nodes. -/
def triple : Std.ExtTreeSet HostPortPair := {⟨[97], 1⟩, ⟨[98], 1⟩, ⟨[99], 1⟩}

/-- The owner registers, gets a peer and withdraws. -/
def joinThenWithdraw : List Action :=
  [.addToGroup ⟨[97], 1⟩ [103] [110], .addPeer ⟨[97], 1⟩ ⟨[98], 1⟩, .handle 0, .handle 0,
    .handle 0, .removeFromGroup ⟨[97], 1⟩ [103] [110], .handle 0]

theorem departure_joinThenWithdraw :
    ∃ s, exec (step pair) start joinThenWithdraw = some s ∧
      AllSteps (step pair) InOrder start joinThenWithdraw ∧
      memberCalls [103] [110] joinThenWithdraw <+:
        [.addToGroup ⟨[97], 1⟩ [103] [110], .removeFromGroup ⟨[97], 1⟩ [103] [110]] ∧
      AllSteps (step pair) (AnnouncesOwn ⟨[97], 1⟩ [103] [110]) start joinThenWithdraw ∧
      s.requests = [] ∧ Connected s ⟨[97], 1⟩ ⟨[98], 1⟩ ∧
      ((s.node ⟨[98], 1⟩).IsMember [103] [110] ↔
        .addToGroup ⟨[97], 1⟩ [103] [110] ∈ joinThenWithdraw ∧
        .removeFromGroup ⟨[97], 1⟩ [103] [110] ∉ joinThenWithdraw) := by
  have hfifo : AllSteps (step pair) InOrder start joinThenWithdraw := by decide
  have hown : AllSteps (step pair) (AnnouncesOwn ⟨[97], 1⟩ [103] [110]) start joinThenWithdraw := by
    decide
  have hcalls : memberCalls [103] [110] joinThenWithdraw <+:
      [.addToGroup ⟨[97], 1⟩ [103] [110], .removeFromGroup ⟨[97], 1⟩ [103] [110]] := by decide
  refine ⟨_, rfl, hfifo, hcalls, hown, by decide, .rel _ _ (by decide), ?_⟩
  exact departure pair joinThenWithdraw _ rfl hfifo ⟨[97], 1⟩ [103] [110] hcalls (fun _ => hown)
    (by decide) ⟨[98], 1⟩ (.rel _ _ (by decide))

/-- The owner has one peer when a third node joins through that peer: both announce the member to
the newcomer, which still counts it twice after the withdrawal. -/
def joinThroughPeer : List Action :=
  [.addToGroup ⟨[97], 1⟩ [103] [110], .addPeer ⟨[97], 1⟩ ⟨[98], 1⟩, .handle 0, .handle 0,
    .handle 0, .addPeer ⟨[99], 1⟩ ⟨[98], 1⟩, .handle 0, .handle 0, .handle 0, .handle 0, .handle 0,
    .handle 0, .handle 0, .handle 0, .handle 0, .removeFromGroup ⟨[97], 1⟩ [103] [110], .handle 0,
    .handle 0]

theorem departure_fails_joinThroughPeer :
    ∃ s, exec (step triple) start joinThroughPeer = some s ∧
      AllSteps (step triple) InOrder start joinThroughPeer ∧
      memberCalls [103] [110] joinThroughPeer =
        [.addToGroup ⟨[97], 1⟩ [103] [110], .removeFromGroup ⟨[97], 1⟩ [103] [110]] ∧
      s.requests = [] ∧ Connected s ⟨[97], 1⟩ ⟨[99], 1⟩ ∧
      (s.node ⟨[99], 1⟩).memberCount [103] [110] = some 2 ∧
      ¬ ((s.node ⟨[99], 1⟩).IsMember [103] [110] ↔
        .addToGroup ⟨[97], 1⟩ [103] [110] ∈ joinThroughPeer ∧
        .removeFromGroup ⟨[97], 1⟩ [103] [110] ∉ joinThroughPeer) :=
  ⟨_, rfl, by decide, by decide, by decide, .rel _ _ (by decide), by decide, by decide⟩

end Mesh

end RawDish.Rpc
