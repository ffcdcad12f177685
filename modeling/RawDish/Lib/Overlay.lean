import Mathlib.Logic.Relation

/-!
# Overlay networks

The parties of a network introduce each other. A party has some others as peers and knows of those
that it is going to connect to, and whoever connects to a party tells it of itself and of its own
peers. If nothing that is known is forgotten, then the peers of a network in which everything known
has been acted on are the pairs that the links asked for from outside connect
(`Introduced.peer_iff`).

An item that is added by some parties, told to their peers and to every party that they connect to
has then arrived exactly where a party that added it is connected (`Spreads.has_iff`).

These invariants are kept by every step that meets a condition on the relations before and after it,
so a system has to name the four or five ways in which its steps change them, and no more. The part
that says what is known, `Acquaints` and `Reaches`, may hold for some of the parties only, when the
others forget what they know.

## Main definitions

* `Acquaints`, `Introduced` : of two peers of one party one knows of the other.
* `Reaches`, `Spreads` : an item is at the peers of the parties that added it, or on its way.

## Main results

* `Acquaints.step`, `Introduced.step`, `Reaches.step`, `Spreads.step` : what the steps of a system
  have to meet.
* `Acquaints.peer_of_asked`, `Introduced.peer_iff`, `Spreads.has_iff` : networks at rest.
-/

namespace RawDish.Lib

open Relation (EqvGen)

variable {α : Type*}

/-- The relation `P` of the peers and the relation `K` of who knows of whom, when links `E` are
asked for: a party knows of those that it was asked to link, of its peers and of those that it is a
peer of, and of two peers of one party one knows of the other. -/
structure Acquaints (E P K : α → α → Prop) : Prop where
  asked : ∀ x y, E x y → K x y
  peer : ∀ x y, P x y → K x y
  back : ∀ x y, P x y → K y x
  others : ∀ x y z, P x y → P x z → y ≠ z → K y z ∨ K z y

namespace Acquaints

variable {E E' P P' K K' : α → α → Prop}

/-- No one has peers and no link was asked for. -/
theorem init (hE : ∀ x y, ¬ E x y) (hpeer : ∀ x y, ¬ P x y) : Acquaints E P K where
  asked x y h := absurd h (hE x y)
  peer x y h := absurd h (hpeer x y)
  back x y h := absurd h (hpeer x y)
  others x y _ h := absurd h (hpeer x y)

/-- A step forgets nothing; a new link is known where it was asked for; and a new peer knows of the
party that it is a peer of and of all its other peers. -/
theorem step (h : Acquaints E P K) (hknows : ∀ x y, K x y → K' x y)
    (hasked : ∀ x y, E' x y → E x y ∨ K' x y)
    (hpeer : ∀ x y, P' x y → P x y ∨
      (K' x y ∧ K' y x ∧ ∀ z, P' x z → z ≠ y → K' y z)) : Acquaints E' P' K' where
  asked x y hxy := (hasked x y hxy).elim (fun hold => hknows x y (h.asked x y hold)) id
  peer x y hxy := (hpeer x y hxy).elim (fun hold => hknows x y (h.peer x y hold)) fun hnew => hnew.1
  back x y hxy := (hpeer x y hxy).elim (fun hold => hknows y x (h.back x y hold))
    fun hnew => hnew.2.1
  others x y z hy hz hne := by
    rcases hpeer x y hy with hy' | ⟨-, -, htold⟩
    · rcases hpeer x z hz with hz' | ⟨-, -, htold⟩
      · exact (h.others x y z hy' hz' hne).imp (hknows y z) (hknows z y)
      · exact Or.inr (htold y hy hne)
    · exact Or.inl (htold z hz hne.symm)

variable (h : Acquaints E P K) (hquiet : ∀ x y, K x y → P x y)

include h hquiet

/-- When all that is known has been acted on, connected parties are peers. -/
theorem peer_of_connected {x y : α} (hxy : EqvGen P x y) : x = y ∨ P x y := by
  have hsymm : ∀ x y, P x y → P y x := fun x y hxy => hquiet y x (h.back x y hxy)
  induction hxy with
  | rel x y hxy => exact Or.inr hxy
  | refl x => exact Or.inl rfl
  | symm x y _ ih => exact ih.imp Eq.symm (hsymm x y)
  | trans x y z _ _ ihxy ihyz =>
    rcases ihxy with rfl | hxy
    · exact ihyz
    · rcases ihyz with rfl | hyz
      · exact Or.inr hxy
      · by_cases hne : x = z
        · exact Or.inl hne
        · rcases h.others y x z (hsymm x y hxy) hyz hne with hk | hk
          · exact Or.inr (hquiet x z hk)
          · exact Or.inr (hsymm z x (hquiet z x hk))

/-- When all that is known has been acted on, the parties that the links connect are peers. -/
theorem peer_of_asked {x y : α} (hxy : EqvGen E x y) : x = y ∨ P x y := by
  refine h.peer_of_connected hquiet ?_
  exact EqvGen.mono (fun x y hxy => hquiet x y (h.asked x y hxy)) x y hxy

end Acquaints

/-- As above, and nobody knows of a party that the links do not connect it to. -/
structure Introduced (E P K : α → α → Prop) : Prop extends Acquaints E P K where
  sound : ∀ x y, K x y → EqvGen E x y

namespace Introduced

variable {E E' P P' K K' : α → α → Prop}

theorem init (hE : ∀ x y, ¬ E x y) (hpeer : ∀ x y, ¬ P x y) (hknows : ∀ x y, ¬ K x y) :
    Introduced E P K where
  toAcquaints := .init hE hpeer
  sound x y h := absurd h (hknows x y)

theorem step (h : Introduced E P K) (hE : ∀ x y, E x y → E' x y)
    (hknows : ∀ x y, K x y → K' x y) (hasked : ∀ x y, E' x y → E x y ∨ K' x y)
    (hpeer : ∀ x y, P' x y → P x y ∨
      (K' x y ∧ K' y x ∧ ∀ z, P' x z → z ≠ y → K' y z))
    (hsound : ∀ x y, K' x y → K x y ∨ EqvGen E' x y) : Introduced E' P' K' where
  toAcquaints := h.toAcquaints.step hknows hasked hpeer
  sound x y hxy := (hsound x y hxy).elim
    (fun hold => EqvGen.mono hE x y (h.sound x y hold)) id

variable (h : Introduced E P K) (hquiet : ∀ x y, K x y → P x y)

include h hquiet

/-- The parties that are connected by peers are those that are connected by links. -/
theorem connected_iff {x y : α} : EqvGen P x y ↔ EqvGen E x y := by
  constructor
  · intro hxy
    induction hxy with
    | rel x y hxy => exact h.sound x y (h.peer x y hxy)
    | refl x => exact .refl x
    | symm x y _ ih => exact ih.symm
    | trans x y z _ _ ihxy ihyz => exact ihxy.trans _ _ _ ihyz
  · exact EqvGen.mono (fun x y hxy => hquiet x y (h.asked x y hxy)) x y

/-- **A network at rest.** Two parties are peers exactly when the links connect them. -/
theorem peer_iff {x y : α} (hne : x ≠ y) : P x y ↔ EqvGen E x y := by
  rw [← h.connected_iff hquiet]
  refine ⟨EqvGen.rel x y, fun hxy => ?_⟩
  exact (h.peer_of_connected hquiet hxy).resolve_left hne

end Introduced

/-- An item that the parties of `O` added: they have it, and their peers have it or it is on its way
to them. -/
structure Reaches (P : α → α → Prop) (O has coming : α → Prop) : Prop where
  origin : ∀ x, O x → has x
  reaches : ∀ x y, O x → P x y → has y ∨ coming y

namespace Reaches

variable {P P' : α → α → Prop} {O O' has has' coming coming' : α → Prop}

/-- A step takes the item from nobody and loses none that is on its way; a party that adds it has it
and tells its peers; and a party that has it tells a new peer. -/
theorem step (h : Reaches P O has coming) (hhas : ∀ x, has x → has' x)
    (hcoming : ∀ x, coming x → has' x ∨ coming' x)
    (hadded : ∀ x, O' x → O x ∨ (has' x ∧ ∀ y, P' x y → has' y ∨ coming' y))
    (hjoined : ∀ x y, P' x y → P x y ∨ (has x → has' y ∨ coming' y)) :
    Reaches P' O' has' coming' where
  origin x hx := (hadded x hx).elim (fun hold => hhas x (h.origin x hold)) fun hnew => hnew.1
  reaches x y hx hxy := by
    rcases hadded x hx with hold | ⟨-, htold⟩
    · rcases hjoined x y hxy with hxy | htold
      · exact (h.reaches x y hold hxy).elim (fun hy => Or.inl (hhas y hy)) (hcoming y)
      · exact htold (h.origin x hold)
    · exact htold y hxy

/-- When it is not on its way, it is at the party that added it and at its peers. -/
theorem has_of_peer (h : Reaches P O has coming) (hquiet : ∀ x, ¬ coming x) {o x : α} (ho : O o)
    (hx : o = x ∨ P o x) : has x := by
  rcases hx with rfl | hx
  · exact h.origin o ho
  · exact (h.reaches o x ho hx).resolve_right (hquiet x)

end Reaches

/-- As above, and the item is nowhere else than where a party that added it is connected. -/
structure Spreads (P : α → α → Prop) (O has coming : α → Prop) : Prop
    extends Reaches P O has coming where
  sound : ∀ x, has x ∨ coming x → ∃ o, O o ∧ EqvGen P o x

namespace Spreads

variable {P P' : α → α → Prop} {O O' has has' coming coming' : α → Prop}

/-- In addition, a step tells of the item only those that are peers of a party that has it. -/
theorem step (h : Spreads P O has coming) (hpeer : ∀ x y, P x y → P' x y)
    (hO : ∀ x, O x → O' x) (hhas : ∀ x, has x → has' x)
    (hcoming : ∀ x, coming x → has' x ∨ coming' x)
    (hadded : ∀ x, O' x → O x ∨ (has' x ∧ ∀ y, P' x y → has' y ∨ coming' y))
    (hjoined : ∀ x y, P' x y → P x y ∨ (has x → has' y ∨ coming' y))
    (hsound : ∀ x, has' x ∨ coming' x → (has x ∨ coming x) ∨ O' x ∨
      ∃ z, (has z ∨ O' z) ∧ P' z x) : Spreads P' O' has' coming' where
  toReaches := h.toReaches.step hhas hcoming hadded hjoined
  sound x hx := by
    have hlift : ∀ z, has z ∨ coming z → ∃ o, O' o ∧ EqvGen P' o z := fun z hz => by
      obtain ⟨o, ho, hc⟩ := h.sound z hz
      exact ⟨o, hO o ho, EqvGen.mono hpeer o z hc⟩
    rcases hsound x hx with hold | hnew | ⟨z, hz | hz, hzx⟩
    · exact hlift x hold
    · exact ⟨x, hnew, .refl x⟩
    · obtain ⟨o, ho, hc⟩ := hlift z (Or.inl hz)
      exact ⟨o, ho, hc.trans _ _ _ (.rel z x hzx)⟩
    · exact ⟨z, hz, .rel z x hzx⟩

/-- **An item at rest** is exactly where a party that added it is connected, if connected parties
are peers. -/
theorem has_iff (h : Spreads P O has coming) (hquiet : ∀ x, ¬ coming x)
    (hcomplete : ∀ x y, EqvGen P x y → x = y ∨ P x y) {x : α} :
    has x ↔ ∃ o, O o ∧ EqvGen P o x := by
  constructor
  · exact fun hx => h.sound x (Or.inl hx)
  · rintro ⟨o, ho, hc⟩
    exact h.has_of_peer hquiet ho (hcomplete o x hc)

end Spreads

end RawDish.Lib
