import RawDish.Rpc.NodeRun

/-!
# Removing a member that is not there

A removal of a name that is not in the group should do nothing. Both methods look the name up with
`_groups[group][name]`, which inserts it: with the count zero in `removeFromGroup`, and with the
count minus one in `RPCRemoveFromGroup`. No callback fires then, and the entry is seen later. It is
in the snapshot that a new callback gets, it is announced to a new peer, and an add of the name
finds it there and fires nothing.

## Main definitions

* `Later`, `Observed.outputs` : what a node writes and fires in a sequence of methods.
* `Unnoticed` : a method does nothing that anyone could see, then or later.

## Main results

* `snapshot_removeAbsent`, `greeting_removeAbsent`, `silent_add_removeAbsent` : where the entry is
  seen.
* `not_unnoticed_removeAbsent` : no removal of an absent member goes unnoticed.

## References

* `src/rpc/service_node.cc`, lines 149–181, 198–247 and 266–283; `src/rpc/service_node.h`, lines
  88–96.
-/

namespace RawDish.Rpc

open Lib

/-- A method that is called later: one of the group and callback methods, or `RPCAddPeer`. -/
inductive Later
  | method (op : Op)
  | join (addr : HostPortPair) (connected : Bool)
  deriving DecidableEq

/-- What is seen of a method: the calls written and the callbacks fired. -/
structure Output where
  calls : List Call
  fired : List Fired
  deriving DecidableEq

namespace Observed

/-- The node after a group or callback method. -/
def after (s : Observed) (op : Op) : Observed := (s.step op).getD s

/-- The node after a method, and what is seen of the method. -/
def later (s : Observed) : Later → Observed × Output
  | .method op => (s.after op, ⟨(s.effect op).calls, (s.effect op).fired⟩)
  | .join addr connected =>
    let e := (s.node.rpcAddPeer addr connected).1
    ({ s with node := e.node }, ⟨e.calls, e.fired⟩)

/-- What is seen of a sequence of methods. -/
def outputs : Observed → List Later → List Output
  | _, [] => []
  | s, l :: ls => (s.later l).2 :: outputs (s.later l).1 ls

end Observed

/-- The method fires no callback, leaves all groups as they are, and all that is seen later is what
would be seen without it. -/
structure Unnoticed (s : Observed) (op : Op) : Prop where
  silent : (s.effect op).fired = []
  members : ∀ g n, (s.effect op).node.memberCount g n = s.node.memberCount g n
  later : ∀ ls, (s.after op).outputs ls = s.outputs ls

section RemoveAbsent

variable {s : Observed} {g n : Str} (h : ¬ s.node.IsMember g n) {op : Op} (hop : op.Removes g n)

include h hop

/-- The removal fires nothing. -/
theorem fired_removeAbsent : (s.effect op).fired = [] := by
  have hmem : n ∉ s.node.group g := h
  rcases hop with rfl | rfl
  · simp only [Observed.effect, ServiceNode.removeFromGroup, hmem, ↓reduceIte]
    split_ifs <;> rfl
  · simp only [Observed.effect, ServiceNode.rpcRemoveFromGroup, hmem, ↓reduceIte]

/-- The name has an entry afterwards, with a count that is not one. -/
theorem memberCount_removeAbsent :
    ∃ c, c ≠ 1 ∧ (s.effect op).node.memberCount g n = some c := by
  have hnone := ServiceNode.not_isMember_iff.1 h
  rcases hop with rfl | rfl
  · refine ⟨0, by decide, ?_⟩
    rw [Observed.effect, ServiceNode.memberCount_removeFromGroup, if_pos ⟨rfl, rfl⟩, hnone]
    rfl
  · refine ⟨-1, by decide, ?_⟩
    rw [Observed.effect, ServiceNode.memberCount_rpcRemoveFromGroup, if_pos ⟨rfl, rfl⟩, hnone]
    rfl

theorem isMember_removeAbsent : (s.after op).node.IsMember g n := by
  obtain ⟨c, -, hc⟩ := memberCount_removeAbsent h hop
  have hmember : (s.effect op).node.IsMember g n := by
    rw [ServiceNode.isMember_iff, hc]
    rfl
  exact hmember

/-- A callback that is registered later is told of the name. -/
theorem snapshot_removeAbsent :
    (⟨(s.after op).nextCallback, n, true⟩ : Fired) ∈
        ((s.after op).later (.method (.addGroupCallback g))).2.fired ∧
      ∀ cb, (⟨cb, n, true⟩ : Fired) ∉ (s.later (.method (.addGroupCallback g))).2.fired := by
  have hmem : n ∈ (s.after op).node.group g := isMember_removeAbsent h hop
  have hnot : n ∉ s.node.group g := h
  constructor
  · exact List.mem_map.2 ⟨n, Std.ExtTreeMap.mem_keys.2 hmem, rfl⟩
  · intro cb hcb
    obtain ⟨name, hname, heq⟩ := List.mem_map.1 hcb
    obtain rfl : name = n := congrArg Fired.name heq
    exact hnot (Std.ExtTreeMap.mem_keys.1 hname)

/-- A peer that connects later is told of the name. -/
theorem greeting_removeAbsent (addr : HostPortPair) :
    ⟨addr, .addToGroup g n⟩ ∈ (s.after op).node.greeting addr ∧
      ⟨addr, .addToGroup g n⟩ ∉ s.node.greeting addr := by
  constructor
  · exact ServiceNode.mem_greeting.2
      ⟨rfl, Or.inr (Or.inr ⟨g, n, isMember_removeAbsent h hop, rfl⟩)⟩
  · rw [ServiceNode.mem_greeting]
    rintro ⟨-, hmethod | ⟨p, -, -, hmethod⟩ | ⟨g', n', hmember, hmethod⟩⟩
    · cases hmethod
    · cases hmethod
    · obtain ⟨rfl, rfl⟩ := Method.addToGroup.inj hmethod
      exact h hmember

/-- An add of the name that comes later fires nothing. -/
theorem silent_add_removeAbsent :
    ((s.after op).later (.method (.addToGroup g n))).2.fired = [] := by
  have hmem : n ∈ (s.after op).node.group g := isMember_removeAbsent h hop
  simp only [Observed.later, Observed.effect, ServiceNode.addToGroup, hmem, ↓reduceIte]

/-- **Removing an absent member.** No removal of a name that is not in the group goes unnoticed, in
any state of a node: it leaves an entry, and the next callback that is registered for the group
sees it. -/
theorem not_unnoticed_removeAbsent : ¬ Unnoticed s op := by
  intro hun
  obtain ⟨hsnapshot, hbefore⟩ := snapshot_removeAbsent h hop
  have hlater := hun.later [.method (.addGroupCallback g)]
  simp only [Observed.outputs, List.cons.injEq, and_true] at hlater
  rw [hlater] at hsnapshot
  exact hbefore _ hsnapshot

end RemoveAbsent

theorem not_unnoticed_first :
    ¬ Unnoticed (Observed.start ⟨[104], 1⟩ ∅) (.rpcRemoveFromGroup [103] [110]) :=
  not_unnoticed_removeAbsent (by decide) (Or.inr rfl)

/-- The name that was removed from an empty node is in the snapshot of the group. -/
theorem removeFromGroup_noticed_first :
    ¬ (Observed.start ⟨[104], 1⟩ ∅).node.IsMember [103] [110] ∧
      ((Observed.start ⟨[104], 1⟩ ∅).after (.removeFromGroup [103] [110])).outputs
        [.method (.addGroupCallback [103])] = [⟨[], [⟨0, [110], true⟩]⟩] ∧
      ¬ Unnoticed (Observed.start ⟨[104], 1⟩ ∅) (.removeFromGroup [103] [110]) := by
  refine ⟨by decide, by decide, fun h => ?_⟩
  have hcount := h.members [103] [110]
  revert hcount
  decide

end RawDish.Rpc
