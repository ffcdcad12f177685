import RawDish.Rpc.Disconnect

/-!
# Aborting the pending calls

`RPCClient::Internal::disconnect` walks over `_respCallbacks` and calls every callback with a null
buffer. That sets the future of the call, and what the user has attached to the future runs there
and then: it may make new calls on the client, which are entered in the table that is walked over,
and it may call `disconnect` again, which walks over the table from its beginning and clears it
while the first walk stands on one of its entries.

The walk is a machine with a stack (`Aborting`). A frame is a loop with its iterator or a function
of the user with what it has still to do. The iterator of a table visits the entries in the order of
their numbers, those that are inserted behind it are visited as well, and `clear` leaves all
iterators dangling; a step with such an iterator is not defined.

A new call takes a larger number as long as the numbers do not wrap, so that a function which calls
again on every failure keeps the walk going and the table growing. The table has room for
`maxSize` entries (`max_size()`, a number of 64 bits). The insertion of one more throws, nothing
catches that, and the walk does not come to its end.

## Main definitions

* `Reaction`, `Frame`, `Aborting`, `Aborting.tick` : the machine.
* `AbortsExactly` : it ends, and every pending call is aborted once.
* `HasRoom`, `Aborting.Safe` : the condition on the states that the machine comes to.

## Main results

* `reaches_disconnect` : without functions of the user the machine does what
  `Connection.disconnect` says.
* `abortsExactly_iff` : when pending calls are aborted exactly.
* `not_abortsExactly_of_retry` : they are not when every function calls again.

## References

* `src/rpc/rpc.cc`, lines 224–234; `src/rpc/rpc.h`, lines 86–100 and 479–532.
-/

namespace RawDish.Rpc.Connection

open Lib
open StateTransition (Reaches)

variable {V F : Type}

/-- What a function that is attached to a future does to the client. -/
inductive Reaction (V : Type)
  | call (c : Call V)
  | disconnect

/-- An iterator: behind the entry with a number, or at the beginning; or one whose entry was
erased. -/
inductive Iterator
  | after (id : Option UInt64)
  | dangling
  deriving DecidableEq

/-- The loop of `disconnect`, or a function of the user with what it has still to do. -/
inductive Frame (V : Type)
  | loop (i : Iterator)
  | user (todo : List (Reaction V))

/-- A client in `disconnect`, with the functions that are active, the innermost first. -/
structure Aborting (V F : Type) where
  conn : Connection V F
  stack : List (Frame V)

/-- The number is behind the iterator. -/
def Ahead : Option UInt64 → UInt64 → Prop
  | none, _ => True
  | some c, id => c < id

instance : (c : Option UInt64) → (id : UInt64) → Decidable (Ahead c id)
  | none, _ => isTrue trivial
  | some c, id => inferInstanceAs (Decidable (c < id))

/-- The entry that the iterator comes to next. -/
def nextEntry (table : Std.ExtTreeMap UInt64 ℕ) (c : Option UInt64) : Option (UInt64 × ℕ) :=
  table.toList.find? fun e => Ahead c e.1

/-- The next call can be entered in the table: under a number that has an entry already, or by one
more entry. -/
def HasRoom (maxSize : UInt64) (s : Connection V F) : Prop :=
  s.reqId ∈ s.respCallbacks ∨ s.respCallbacks.size < maxSize.toNat

instance (maxSize : UInt64) (s : Connection V F) : Decidable (HasRoom maxSize s) :=
  inferInstanceAs (Decidable (_ ∨ _))

/-- The callback of the call number `k` is called with a null buffer. -/
def abort (s : Connection V F) (k : ℕ) : Connection V F :=
  { s with
    settings := s.settings ++ (s.calls[k]?.map fun c => ⟨k, c.default, .disconnect⟩).toList }

namespace Frame

/-- The frame after the table was cleared. -/
def clear : Frame V → Frame V
  | .loop _ => .loop .dangling
  | f => f

def isLoop : Frame V → Bool
  | .loop _ => true
  | .user _ => false

end Frame

namespace Aborting

/-- `disconnect` is called: the socket is closed, and the loop begins. -/
def start (s : Connection V F) : Aborting V F :=
  ⟨{ s with connected := false }, [.loop (.after none)]⟩

/-- One step. What the functions attached to the future of a call do is given by `react`, from the
state when the future is set. A call that finds no room throws. -/
def tick (m : Msgpack V) (maxSize : UInt64) (react : Connection V F → ℕ → List (Reaction V))
    (t : Aborting V F) : Option (Aborting V F) :=
  match t.stack with
  | [] => none
  | .user [] :: rest => some { t with stack := rest }
  | .user (.call c :: todo) :: rest =>
    if HasRoom maxSize t.conn then some ⟨t.conn.call m c, .user todo :: rest⟩ else none
  | .user (.disconnect :: todo) :: rest =>
    some ⟨(start t.conn).conn, .loop (.after none) :: .user todo :: rest⟩
  | .loop .dangling :: _ => none
  | .loop (.after c) :: rest =>
    match nextEntry t.conn.respCallbacks c with
    | some (id, k) =>
      some ⟨t.conn.abort k,
        .user (react (t.conn.abort k) k) :: .loop (.after (some id)) :: rest⟩
    | none => some ⟨{ t.conn with respCallbacks := ∅ }, rest.map Frame.clear⟩

end Aborting

/-- How often the callback of the call number `k` was called with a null buffer. -/
def aborts (s : Connection V F) (k : ℕ) : ℕ :=
  s.settings.countP fun x => x.call = k ∧ x.origin = .disconnect

/-- `disconnect` ends, every call that is pending at its beginning is aborted once, and none of them
is left in the table. -/
def AbortsExactly (m : Msgpack V) (maxSize : UInt64)
    (react : Connection V F → ℕ → List (Reaction V)) (s : Connection V F) : Prop :=
  ∃ t, Reaches (Aborting.tick m maxSize react) (Aborting.start s) ⟨t, []⟩ ∧
    ∀ k, Waiting s k → t.aborts k = s.aborts k + 1 ∧ ¬ Waiting t k

/-- The next step does not call `disconnect`. A call that it makes finds room in the table, and does
not take the number of a call that was pending at the beginning, in `s`, and is still to be
visited. -/
def Aborting.Safe (maxSize : UInt64) (s : Connection V F) (t : Aborting V F) : Prop :=
  match t.stack with
  | .user (.disconnect :: _) :: _ => False
  | .user (.call _ :: _) :: .loop (.after c) :: _ =>
    HasRoom maxSize t.conn ∧ (t.conn.reqId ∈ s.respCallbacks → ¬ Ahead c t.conn.reqId)
  | _ => True

/-- Every pending call is one that was made and is stored under one number. -/
structure Numbered (s : Connection V F) : Prop where
  lt : ∀ (id : UInt64) (k : ℕ), s.respCallbacks[id]? = some k → k < s.calls.length
  inj : ∀ (id id' : UInt64) (k : ℕ), s.respCallbacks[id]? = some k →
    s.respCallbacks[id']? = some k → id = id'

/-! ### The iterator -/

section Iterator

variable {table : Std.ExtTreeMap UInt64 ℕ} {c : Option UInt64} {id : UInt64} {k : ℕ}

/-- The next entry is the one with the smallest number behind the iterator. -/
theorem nextEntry_eq_some (h : nextEntry table c = some (id, k)) :
    table[id]? = some k ∧ Ahead c id ∧
      ∀ id' ∈ table, Ahead c id' → id ≤ id' := by
  obtain ⟨hahead, pre, post, hlist, hpre⟩ := List.find?_eq_some_iff_append.1 h
  have hsorted := table.ordered_keys_toList
  rw [hlist, List.pairwise_append, List.pairwise_cons] at hsorted
  have hmem : (id, k) ∈ table.toList := hlist ▸ List.mem_append_right pre List.mem_cons_self
  refine ⟨Std.ExtTreeMap.mem_toList_iff_getElem?_eq_some.1 hmem, of_decide_eq_true hahead,
    fun id' hid' hahead' => ?_⟩
  obtain ⟨k', hk'⟩ := Option.isSome_iff_exists.1 (Std.ExtTreeMap.mem_iff_isSome_getElem?.1 hid')
  have hmem' : (id', k') ∈ table.toList := Std.ExtTreeMap.mem_toList_iff_getElem?_eq_some.2 hk'
  rw [hlist, List.mem_append, List.mem_cons] at hmem'
  rcases hmem' with hin | heq | hin
  · have hnot := hpre _ hin
    simp only [decide_eq_true hahead', Bool.not_true, Bool.false_eq_true] at hnot
  · rw [(Prod.mk.inj heq).1]
    exact UInt64.le_refl _
  · exact UInt64.le_of_lt (compareOfLessAndEq_eq_lt.1 (hsorted.2.1.1 _ hin))

theorem nextEntry_eq_none (h : nextEntry table c = none) : ∀ id' ∈ table, ¬ Ahead c id' := by
  intro id' hid' hahead
  obtain ⟨k', hk'⟩ := Option.isSome_iff_exists.1 (Std.ExtTreeMap.mem_iff_isSome_getElem?.1 hid')
  have hnot := List.find?_eq_none.1 h _ (Std.ExtTreeMap.mem_toList_iff_getElem?_eq_some.2 hk')
  exact hnot (decide_eq_true hahead)

end Iterator

theorem aborts_abort {s : Connection V F} {k : ℕ} (hk : k < s.calls.length) (j : ℕ) :
    (s.abort k).aborts j = s.aborts j + if j = k then 1 else 0 := by
  simp only [aborts, abort, List.getElem?_eq_getElem hk, Option.map_some, Option.toList_some,
    List.countP_append, List.countP_singleton, and_true, decide_eq_true_eq, eq_comm (a := k)]

/-! ### The calls of a client -/

theorem getElem?_respCallbacks_call (s : Connection V F) (m : Msgpack V) (c : Call V)
    (id : UInt64) :
    (s.call m c).respCallbacks[id]? =
      if id = s.reqId then some s.calls.length else s.respCallbacks[id]? :=
  getElem?_insert_ite _ _ _ _

@[simp] theorem length_calls_call (s : Connection V F) (m : Msgpack V) (c : Call V) :
    (s.call m c).calls.length = s.calls.length + 1 := by
  simp [Connection.call]

/-- After a call the table has the numbers of calls that were made. -/
theorem lt_length_call {s : Connection V F}
    (h : ∀ (id : UInt64) (k : ℕ), s.respCallbacks[id]? = some k → k < s.calls.length)
    (m : Msgpack V) (c : Call V) {id : UInt64} {k : ℕ}
    (hk : (s.call m c).respCallbacks[id]? = some k) : k < (s.call m c).calls.length := by
  rw [getElem?_respCallbacks_call] at hk
  rw [length_calls_call]
  split_ifs at hk
  · have := Option.some.inj hk
    omega
  · have := h id k hk
    omega

namespace Numbered

variable {s : Connection V F}

theorem call (h : Numbered s) (m : Msgpack V) (c : Call V) : Numbered (s.call m c) := by
  refine ⟨fun id k hk => lt_length_call h.lt m c hk, fun id id' k hk hk' => ?_⟩
  rw [getElem?_respCallbacks_call] at hk hk'
  split_ifs at hk hk' with heq heq' heq'
  · rw [heq, heq']
  · have := Option.some.inj hk
    have := h.lt id' k hk'
    omega
  · have := Option.some.inj hk'
    have := h.lt id k hk
    omega
  · exact h.inj id id' k hk hk'

/-- Entries may go. -/
theorem of_subset (h : Numbered s) {t : Connection V F} (hcalls : t.calls = s.calls)
    (htable : ∀ (id : UInt64) (k : ℕ), t.respCallbacks[id]? = some k →
      s.respCallbacks[id]? = some k) : Numbered t where
  lt id k hk := hcalls ▸ h.lt id k (htable id k hk)
  inj id id' k hk hk' := h.inj id id' k (htable id k hk) (htable id' k hk')

theorem clientOnReceive (h : Numbered s) (p : Response) : Numbered (s.clientOnReceive p) := by
  refine h.of_subset (calls_clientOnReceive s p) fun id k hk => ?_
  rw [Connection.clientOnReceive] at hk
  split at hk
  · rw [getElem?_erase_ite] at hk
    split_ifs at hk
    exact hk
  · exact hk

end Numbered

/-- The pending calls of a client, in every state. -/
theorem numbered_of_exec {m : Msgpack V} {as : List (ClientAction V)} {c : Client V F}
    (h : exec (Client.step m) Client.start as = some c) : Numbered c.conn := by
  refine exec_induction (fun _ c => Numbered c.conn) ⟨?_, ?_⟩ ?_ h
  · intro id k hk
    simp [Client.start, Connection.start] at hk
  · intro id id' k hk
    simp [Client.start, Connection.start] at hk
  · intro _ c a c' _ hc hstep
    rcases Client.step_eq_some hstep with ⟨name, args, default, -, rfl⟩ | ⟨p, -, rfl⟩ |
      ⟨i, cb, -, -, rfl⟩ | ⟨-, rfl⟩ | ⟨-, rfl⟩
    · exact hc.call m _
    · exact hc.clientOnReceive p
    · exact hc.of_subset rfl fun _ _ hk => hk
    · refine hc.of_subset rfl fun id k hk => ?_
      simp [Connection.disconnect] at hk
    · exact hc.of_subset rfl fun _ _ hk => hk

/-! ### A walk without functions of the user -/

/-- The walk over the entries `rest` that are left. -/
theorem reaches_rest (m : Msgpack V) (maxSize : UInt64) {s t : Connection V F} {c : Option UInt64}
    (pre : List (UInt64 × ℕ)) {rest : List (UInt64 × ℕ)}
    (htable : t.respCallbacks.toList = pre ++ rest) (hcalls : t.calls = s.calls)
    (hpre : ∀ e ∈ pre, ¬ Ahead c e.1) (hrest : ∀ e ∈ rest, Ahead c e.1) :
    Reaches (Aborting.tick m maxSize fun _ _ => []) ⟨t, [.loop (.after c)]⟩
      ⟨{ t with
        settings := t.settings ++ rest.filterMap fun e =>
          s.calls[e.2]?.map fun c => ⟨e.2, c.default, .disconnect⟩
        respCallbacks := ∅ }, []⟩ := by
  induction rest generalizing t c pre with
  | nil =>
    have hnext : nextEntry t.respCallbacks c = none := by
      rw [nextEntry, htable, List.append_nil, List.find?_eq_none]
      exact fun e he => by simpa using hpre e he
    refine Relation.ReflTransGen.single ?_
    simp [Aborting.tick, hnext]
  | cons e rest ih =>
    obtain ⟨id, k⟩ := e
    have hnext : nextEntry t.respCallbacks c = some (id, k) := by
      rw [nextEntry, htable, List.find?_eq_some_iff_append]
      refine ⟨decide_eq_true (hrest _ List.mem_cons_self), pre, rest, rfl, fun e he => ?_⟩
      simpa using hpre e he
    have hsorted := t.respCallbacks.ordered_keys_toList
    rw [htable, List.pairwise_append, List.pairwise_cons] at hsorted
    have hstep : Reaches (Aborting.tick m maxSize fun _ _ => []) ⟨t, [.loop (.after c)]⟩
        ⟨t.abort k, [.loop (.after (some id))]⟩ := by
      refine Relation.ReflTransGen.tail (Relation.ReflTransGen.single
        (b := ⟨t.abort k, [.user [], .loop (.after (some id))]⟩) ?_) rfl
      simp [Aborting.tick, hnext]
    have hlater := ih (t := t.abort k) (c := some id) (pre ++ [(id, k)])
      (by rw [List.append_assoc]; exact htable) hcalls ?_ ?_
    · refine hstep.trans ?_
      have hset : (t.abort k).settings ++ rest.filterMap (fun e =>
          s.calls[e.2]?.map fun c => ⟨e.2, c.default, .disconnect⟩) =
          t.settings ++ ((id, k) :: rest).filterMap (fun e =>
            s.calls[e.2]?.map fun c => ⟨e.2, c.default, .disconnect⟩) := by
        rw [abort, hcalls]
        cases hk : s.calls[k]? with
        | none => simp [hk]
        | some c => simp [hk]
      rw [hset] at hlater
      exact hlater
    · intro e he
      rcases List.mem_append.1 he with he | he
      · have hlt := compareOfLessAndEq_eq_lt.1 (hsorted.2.2 e he (id, k) List.mem_cons_self)
        exact fun hahead => UInt64.lt_irrefl _ (UInt64.lt_trans hahead hlt)
      · rw [List.mem_singleton.1 he]
        exact UInt64.lt_irrefl id
    · intro e he
      exact compareOfLessAndEq_eq_lt.1 (hsorted.2.1.1 e he)

/-- With nothing attached to the futures, the machine does what `disconnect` does. -/
theorem reaches_disconnect (m : Msgpack V) (maxSize : UInt64) (s : Connection V F) :
    Reaches (Aborting.tick m maxSize fun _ _ => []) (Aborting.start s) ⟨s.disconnect, []⟩ :=
  reaches_rest m maxSize [] rfl rfl (by simp) fun _ _ => trivial

/-! ### A walk without a nested one -/

/-- The walk that began in `s` has come to `t`, with the iterator behind `c`: the calls of the
numbers up to there are aborted once, and the others are where they were. -/
structure Running (s t : Connection V F) (c : Option UInt64) : Prop where
  calls_le : s.calls.length ≤ t.calls.length
  lt : ∀ (id : UInt64) (k : ℕ), t.respCallbacks[id]? = some k → k < t.calls.length
  stored : ∀ (id : UInt64) (k : ℕ), t.respCallbacks[id]? = some k → k < s.calls.length →
    s.respCallbacks[id]? = some k
  ahead : ∀ (id : UInt64) (k : ℕ), s.respCallbacks[id]? = some k → Ahead c id →
    t.respCallbacks[id]? = some k ∧ t.aborts k = s.aborts k
  passed : ∀ (id : UInt64) (k : ℕ), s.respCallbacks[id]? = some k → ¬ Ahead c id →
    t.aborts k = s.aborts k + 1

namespace Running

variable {s t : Connection V F} {c : Option UInt64}

theorem start (hs : Numbered s) : Running s (Aborting.start s).conn none where
  calls_le := le_rfl
  lt := hs.lt
  stored _ _ h _ := h
  ahead _ _ h _ := ⟨h, rfl⟩
  passed _ _ _ h := absurd trivial h

/-- The entry of a pending call is the one that it had. -/
theorem eq_of_stored (h : Running s t c) (hs : Numbered s) {id id' : UInt64} {k : ℕ}
    (hk : s.respCallbacks[id]? = some k) (hk' : t.respCallbacks[id']? = some k) : id' = id :=
  hs.inj id' id k (h.stored id' k hk' (hs.lt id k hk)) hk

/-- The iterator comes to the next entry. -/
theorem visit (h : Running s t c) (hs : Numbered s) {id : UInt64} {k : ℕ}
    (hnext : nextEntry t.respCallbacks c = some (id, k)) : Running s (t.abort k) (some id) := by
  obtain ⟨hentry, hahead, hleast⟩ := nextEntry_eq_some hnext
  have haborts := aborts_abort (h.lt id k hentry)
  -- The callback that is called is that of the number the iterator comes to.
  have hother : ∀ {id' k'}, s.respCallbacks[id']? = some k' → id' ≠ id → k' ≠ k := by
    rintro id' k' hk' hne rfl
    exact hne (h.eq_of_stored hs hk' hentry).symm
  refine ⟨h.calls_le, h.lt, h.stored, fun id' k' hk' hlt => ?_, fun id' k' hk' hnot => ?_⟩
  · have hlt' : id < id' := hlt
    have hne : id' ≠ id := fun heq => UInt64.lt_irrefl id (heq ▸ hlt')
    have hahead' : Ahead c id' := by
      cases c with
      | none => trivial
      | some c => exact UInt64.lt_trans hahead hlt'
    obtain ⟨hstored, hzero⟩ := h.ahead id' k' hk' hahead'
    refine ⟨hstored, ?_⟩
    rw [haborts, if_neg (hother hk' hne), hzero, Nat.add_zero]
  · by_cases heq : id' = id
    · subst heq
      obtain ⟨hstored, hzero⟩ := h.ahead id' k' hk' hahead
      obtain rfl : k = k' := Option.some.inj (hentry.symm.trans hstored)
      rw [haborts, if_pos rfl, hzero]
    · -- A number that the iterator has passed before.
      have hpassed : ¬ Ahead c id' := by
        intro hahead'
        obtain ⟨hstored, -⟩ := h.ahead id' k' hk' hahead'
        have hmem : id' ∈ t.respCallbacks :=
          Std.ExtTreeMap.mem_iff_isSome_getElem?.2 (by rw [hstored]; rfl)
        have hle := hleast id' hmem hahead'
        have hge : id' ≤ id := UInt64.not_lt.1 hnot
        exact heq (UInt64.le_antisymm hge hle)
      rw [haborts, if_neg (hother hk' heq), h.passed id' k' hk' hpassed, Nat.add_zero]

/-- A call that takes no number of a call that is pending and not visited. -/
theorem call (h : Running s t c) (m : Msgpack V) (cl : Call V)
    (hsafe : t.reqId ∈ s.respCallbacks → ¬ Ahead c t.reqId) : Running s (t.call m cl) c := by
  have hle := h.calls_le
  refine ⟨by rw [length_calls_call]; omega, fun id k hk => lt_length_call h.lt m cl hk,
    fun id k hk hlt => ?_, fun id k hk hahead => ?_, h.passed⟩
  · rw [getElem?_respCallbacks_call] at hk
    split_ifs at hk
    · have := Option.some.inj hk
      omega
    · exact h.stored id k hk hlt
  · obtain ⟨hstored, hzero⟩ := h.ahead id k hk hahead
    refine ⟨?_, hzero⟩
    rw [getElem?_respCallbacks_call, if_neg, hstored]
    rintro rfl
    exact hsafe (Std.ExtTreeMap.mem_iff_isSome_getElem?.2 (by rw [hk]; rfl)) hahead

/-- The iterator comes to the end. -/
theorem finish (h : Running s t c) (hnext : nextEntry t.respCallbacks c = none) {k : ℕ}
    (hk : Waiting s k) : t.aborts k = s.aborts k + 1 := by
  obtain ⟨id, hid⟩ := hk
  refine h.passed id k hid fun hahead => ?_
  obtain ⟨hstored, -⟩ := h.ahead id k hid hahead
  refine nextEntry_eq_none hnext id ?_ hahead
  exact Std.ExtTreeMap.mem_iff_isSome_getElem?.2 (by rw [hstored]; rfl)

end Running

variable {m : Msgpack V} {maxSize : UInt64} {react : Connection V F → ℕ → List (Reaction V)}
  {s : Connection V F} {t u : Aborting V F}

/-- The steps of the machine. -/
inductive Ticks (m : Msgpack V) (maxSize : UInt64)
    (react : Connection V F → ℕ → List (Reaction V)) : Aborting V F → Aborting V F → Prop
  | ret {t : Connection V F} {rest : List (Frame V)} :
    Ticks m maxSize react ⟨t, .user [] :: rest⟩ ⟨t, rest⟩
  | call {t : Connection V F} {cl : Call V} {todo : List (Reaction V)} {rest : List (Frame V)}
    (hroom : HasRoom maxSize t) :
    Ticks m maxSize react ⟨t, .user (.call cl :: todo) :: rest⟩ ⟨t.call m cl, .user todo :: rest⟩
  | disconnect {t : Connection V F} {todo : List (Reaction V)} {rest : List (Frame V)} :
    Ticks m maxSize react ⟨t, .user (.disconnect :: todo) :: rest⟩
      ⟨(Aborting.start t).conn, .loop (.after none) :: .user todo :: rest⟩
  | visit {t : Connection V F} {c : Option UInt64} {rest : List (Frame V)} {id : UInt64} {k : ℕ}
    (hnext : nextEntry t.respCallbacks c = some (id, k)) :
    Ticks m maxSize react ⟨t, .loop (.after c) :: rest⟩
      ⟨t.abort k, .user (react (t.abort k) k) :: .loop (.after (some id)) :: rest⟩
  | finish {t : Connection V F} {c : Option UInt64} {rest : List (Frame V)}
    (hnext : nextEntry t.respCallbacks c = none) :
    Ticks m maxSize react ⟨t, .loop (.after c) :: rest⟩
      ⟨{ t with respCallbacks := ∅ }, rest.map Frame.clear⟩

theorem ticks_of_tick (h : Aborting.tick m maxSize react t = some u) :
    Ticks m maxSize react t u := by
  obtain ⟨conn, stack⟩ := t
  cases stack with
  | nil => simp [Aborting.tick] at h
  | cons f rest =>
    cases f with
    | user todo =>
      cases todo with
      | nil => exact Option.some.inj h ▸ .ret
      | cons a todo =>
        cases a with
        | call cl =>
          simp only [Aborting.tick, Option.ite_none_right_eq_some, Option.some.injEq] at h
          exact h.2 ▸ .call h.1
        | disconnect => exact Option.some.inj h ▸ .disconnect
    | loop i =>
      cases i with
      | dangling => simp [Aborting.tick] at h
      | after c =>
        simp only [Aborting.tick] at h
        cases hnext : nextEntry conn.respCallbacks c with
        | none =>
          rw [hnext] at h
          exact Option.some.inj h ▸ .finish hnext
        | some e =>
          rw [hnext] at h
          exact Option.some.inj h ▸ .visit hnext

/-- The states of a machine that has met the condition so far: one loop, or one function of the
user in it, or the end. -/
inductive Progress (s : Connection V F) : Aborting V F → Prop
  | ended {t : Connection V F}
    (h : ∀ k, Waiting s k → t.aborts k = s.aborts k + 1 ∧ ¬ Waiting t k) : Progress s ⟨t, []⟩
  | loop {t : Connection V F} {c : Option UInt64} (h : Running s t c) :
    Progress s ⟨t, [.loop (.after c)]⟩
  | user {t : Connection V F} {id : UInt64} {todo : List (Reaction V)}
    (h : Running s t (some id)) : Progress s ⟨t, [.user todo, .loop (.after (some id))]⟩

/-- A walk with an iterator that is dangling, or with another one inside, does not end. -/
def Doomed (stack : List (Frame V)) : Prop :=
  .loop .dangling ∈ stack ∨ 2 ≤ stack.countP Frame.isLoop

/-- The call was pending, it is not in the table any more, and it was not aborted. -/
structure Lost (s t : Connection V F) (k : ℕ) : Prop where
  waiting : Waiting s k
  lt : k < t.calls.length
  gone : ¬ Waiting t k
  aborts_eq : t.aborts k = s.aborts k

/-- A call finds no room. -/
def OutOfRoom (maxSize : UInt64) (t : Aborting V F) : Prop :=
  ∃ c todo rest, t.stack = .user (.call c :: todo) :: rest ∧ ¬ HasRoom maxSize t.conn

def Failed (maxSize : UInt64) (s : Connection V F) (t : Aborting V F) : Prop :=
  Doomed t.stack ∨ (∃ k, Lost s t.conn k) ∨ OutOfRoom maxSize t

theorem Progress.tick (h : Progress s t) (hs : Numbered s) (hsafe : Aborting.Safe maxSize s t)
    (htick : Aborting.tick m maxSize react t = some u) : Progress s u := by
  cases h with
  | ended h => cases ticks_of_tick htick
  | loop h =>
    cases ticks_of_tick htick with
    | visit hnext => exact .user (h.visit hs hnext)
    | finish hnext =>
      refine .ended fun k hk => ⟨h.finish hnext hk, ?_⟩
      rintro ⟨id, hid⟩
      simp at hid
  | user h =>
    cases ticks_of_tick htick with
    | ret => exact .loop h
    | @call _ cl => exact .user (h.call m cl hsafe.2)
    | disconnect => exact hsafe.elim

/-- A call that takes the number of a pending call that is still to be visited. -/
theorem Running.lost {t : Connection V F} {c : Option UInt64} (h : Running s t c)
    (hs : Numbered s) (m : Msgpack V) (cl : Call V) (hmem : t.reqId ∈ s.respCallbacks)
    (hahead : Ahead c t.reqId) : ∃ k, Lost s (t.call m cl) k := by
  obtain ⟨k, hk⟩ := Option.isSome_iff_exists.1 (Std.ExtTreeMap.mem_iff_isSome_getElem?.1 hmem)
  obtain ⟨hstored, hzero⟩ := h.ahead _ k hk hahead
  have hlt : k < t.calls.length := (hs.lt _ k hk).trans_le h.calls_le
  refine ⟨k, ⟨_, hk⟩, ?_, ?_, hzero⟩
  · rw [length_calls_call]
    omega
  · -- The entry of the call has another callback now.
    rintro ⟨id', hid'⟩
    rw [getElem?_respCallbacks_call] at hid'
    split_ifs at hid' with heq
    · have := Option.some.inj hid'
      omega
    · exact heq (h.eq_of_stored hs hk hid')

/-- Without the condition there is no step, or it fails. -/
theorem Progress.failed (h : Progress s t) (hs : Numbered s)
    (hsafe : ¬ Aborting.Safe maxSize s t) :
    ∃ u, Reaches (Aborting.tick m maxSize react) t u ∧ Failed maxSize s u := by
  cases h with
  | ended h => exact absurd trivial hsafe
  | loop h => exact absurd trivial hsafe
  | @user t id todo h =>
    cases todo with
    | nil => exact absurd trivial hsafe
    | cons a todo =>
      cases a with
      | disconnect =>
        refine ⟨_, Relation.ReflTransGen.single rfl, Or.inl (Or.inr ?_)⟩
        simp [List.countP_cons, Frame.isLoop]
      | call cl =>
        by_cases hroom : HasRoom maxSize t
        · have hlost : t.reqId ∈ s.respCallbacks ∧ Ahead (some id) t.reqId := by
            by_contra hnot
            exact hsafe ⟨hroom, fun hmem hahead => hnot ⟨hmem, hahead⟩⟩
          refine ⟨_, Relation.ReflTransGen.single (if_pos hroom), Or.inr (Or.inl ?_)⟩
          exact h.lost hs m cl hlost.1 hlost.2
        · exact ⟨_, Relation.ReflTransGen.refl, Or.inr (Or.inr ⟨cl, todo, _, rfl, hroom⟩)⟩

/-- A function of the user does not count. -/
theorem doomed_user {todo : List (Reaction V)} {rest : List (Frame V)} :
    Doomed (.user todo :: rest) ↔ Doomed rest := by
  simp [Doomed, Frame.isLoop]

theorem Doomed.push {rest : List (Frame V)} (h : Doomed rest) (f : Frame V) : Doomed (f :: rest) :=
  h.imp (List.mem_cons_of_mem f) fun hcount =>
    hcount.trans (List.sublist_cons_self f rest).countP_le

theorem Doomed.clear {c : Option UInt64} {rest : List (Frame V)}
    (h : Doomed (.loop (.after c) :: rest)) : Doomed (rest.map Frame.clear) := by
  have hloop : ∃ f ∈ rest, f.isLoop = true := by
    rcases h with hmem | hcount
    · exact ⟨.loop .dangling, by simpa using hmem, rfl⟩
    · rw [List.countP_cons_of_pos rfl] at hcount
      exact List.countP_pos_iff.1 (by omega)
  obtain ⟨f, hf, hisLoop⟩ := hloop
  left
  cases f with
  | loop j => exact List.mem_map.2 ⟨_, hf, rfl⟩
  | user todo => cases hisLoop

theorem Doomed.tick (h : Doomed t.stack) (htick : Aborting.tick m maxSize react t = some u) :
    Doomed u.stack := by
  cases ticks_of_tick htick with
  | ret => exact doomed_user.1 h
  | call => exact doomed_user.2 (doomed_user.1 h)
  | disconnect => exact (doomed_user.2 (doomed_user.1 h)).push _
  | visit hnext =>
    refine doomed_user.2 ?_
    -- The loop is another one, but as far along as it was.
    rcases h with hmem | hcount
    · exact Or.inl (by simpa using hmem)
    · exact Or.inr (by simpa [List.countP_cons, Frame.isLoop] using hcount)
  | finish hnext => exact h.clear

theorem Lost.tick {k : ℕ} (h : Lost s t.conn k) (htick : Aborting.tick m maxSize react t = some u) :
    Lost s u.conn k := by
  obtain ⟨hwaiting, hlt, hgone, haborts⟩ := h
  cases ticks_of_tick htick with
  | ret => exact ⟨hwaiting, hlt, hgone, haborts⟩
  | call =>
    refine ⟨hwaiting, ?_, fun hk => ?_, haborts⟩
    · rw [length_calls_call]
      exact hlt.trans (Nat.lt_succ_self _)
    · rcases hk.of_call with heq | hk
      · exact hlt.ne heq
      · exact hgone hk
  | disconnect => exact ⟨hwaiting, hlt, hgone, haborts⟩
  | @visit conn c rest id k' hnext =>
    refine ⟨hwaiting, hlt, hgone, ?_⟩
    have hne : k' ≠ k := by
      rintro rfl
      exact hgone ⟨id, (nextEntry_eq_some hnext).1⟩
    rw [← haborts]
    cases hcall : conn.calls[k']? with
    | none => simp [aborts, abort, hcall]
    | some cl => simp [aborts, abort, hcall, List.countP_append, hne]
  | finish hnext =>
    refine ⟨hwaiting, hlt, ?_, haborts⟩
    rintro ⟨id, hid⟩
    simp at hid

theorem Failed.tick (h : Failed maxSize s t) (htick : Aborting.tick m maxSize react t = some u) :
    Failed maxSize s u := by
  rcases h with hdoomed | ⟨k, hlost⟩ | ⟨c, todo, rest, hstack, hfull⟩
  · exact Or.inl (hdoomed.tick htick)
  · exact Or.inr (Or.inl ⟨k, hlost.tick htick⟩)
  · rw [Aborting.tick, hstack] at htick
    simp only [if_neg hfull] at htick
    cases htick

/-- From a state that failed, `disconnect` does not abort exactly. -/
theorem not_abortsExactly_of_failed (h : Failed maxSize s t)
    (ht : Reaches (Aborting.tick m maxSize react) (Aborting.start s) t) :
    ¬ AbortsExactly m maxSize react s := by
  rintro ⟨u, hu, hexact⟩
  have hend : Failed maxSize s ⟨u, []⟩ :=
    reaches_invariant (Failed maxSize s) (fun _ _ h htick => h.tick htick) h
      (reaches_of_final rfl ht hu)
  rcases hend with (hmem | hcount) | ⟨k, hk⟩ | ⟨c, todo, rest, hstack, -⟩
  · exact List.not_mem_nil hmem
  · simp at hcount
  · have := (hexact k hk.waiting).1
    rw [hk.aborts_eq] at this
    omega
  · cases hstack

/-- Every walk is right so far, or it comes to a failure. -/
theorem progress_or_failed (hs : Numbered s)
    (ht : Reaches (Aborting.tick m maxSize react) (Aborting.start s) t) :
    Progress s t ∨ ∃ v, Reaches (Aborting.tick m maxSize react) (Aborting.start s) v ∧
      Failed maxSize s v := by
  induction ht with
  | refl => exact Or.inl (.loop (Running.start hs))
  | @tail t u ht htick ih =>
    rcases ih with h | h
    · by_cases hsafe : Aborting.Safe maxSize s t
      · exact Or.inl (h.tick hs hsafe htick)
      · obtain ⟨v, htv, hfailed⟩ := h.failed hs hsafe
        exact Or.inr ⟨v, ht.trans htv, hfailed⟩
    · exact Or.inr h

/-- A walk that aborts exactly meets the condition in every state. -/
theorem AbortsExactly.safe (hexact : AbortsExactly m maxSize react s) (hs : Numbered s)
    (ht : Reaches (Aborting.tick m maxSize react) (Aborting.start s) t) :
    Aborting.Safe maxSize s t := by
  by_contra hsafe
  rcases progress_or_failed hs ht with h | ⟨v, hv, hfailed⟩
  · obtain ⟨v, htv, hfailed⟩ := h.failed hs hsafe
    exact not_abortsExactly_of_failed hfailed (ht.trans htv) hexact
  · exact not_abortsExactly_of_failed hfailed hv hexact

/-! ### Termination -/

/-- The numbers of the entries that the iterator has passed. -/
def passed (t : Connection V F) (c : Option UInt64) : Finset UInt64 :=
  t.respCallbacks.keys.toFinset.filter fun id => ¬ Ahead c id

theorem mem_passed {t : Connection V F} {c : Option UInt64} {id : UInt64} :
    id ∈ passed t c ↔ id ∈ t.respCallbacks ∧ ¬ Ahead c id := by
  rw [passed, Finset.mem_filter, List.mem_toFinset, Std.ExtTreeMap.mem_keys]

theorem card_passed_le (t : Connection V F) (c : Option UInt64) :
    (passed t c).card ≤ t.respCallbacks.size := by
  calc (passed t c).card ≤ t.respCallbacks.keys.toFinset.card := Finset.card_filter_le _ _
    _ ≤ t.respCallbacks.keys.length := List.toFinset_card_le _
    _ = t.respCallbacks.size := Std.ExtTreeMap.length_keys

/-- The iterator passes the entry that it comes to. -/
theorem card_passed_lt {t : Connection V F} {c : Option UInt64} {id : UInt64} {k : ℕ}
    (hnext : nextEntry t.respCallbacks c = some (id, k)) :
    (passed t c).card < (passed (t.abort k) (some id)).card := by
  obtain ⟨hentry, hahead, -⟩ := nextEntry_eq_some hnext
  have hmem : id ∈ t.respCallbacks :=
    Std.ExtTreeMap.mem_iff_isSome_getElem?.2 (by rw [hentry]; rfl)
  refine Finset.card_lt_card ((Finset.ssubset_iff_of_subset fun x hx => ?_).2 ⟨id, ?_, ?_⟩)
  · obtain ⟨hx, hpassed⟩ := mem_passed.1 hx
    refine mem_passed.2 ⟨hx, fun hlt => ?_⟩
    cases c with
    | none => exact hpassed trivial
    | some c => exact hpassed (UInt64.lt_trans hahead hlt)
  · exact mem_passed.2 ⟨hmem, UInt64.lt_irrefl id⟩
  · exact fun hpassed => (mem_passed.1 hpassed).2 hahead

/-- A call adds entries only. -/
theorem passed_subset_call (t : Connection V F) (m : Msgpack V) (cl : Call V)
    (c : Option UInt64) : passed t c ⊆ passed (t.call m cl) c := by
  intro id hid
  obtain ⟨hmem, hpassed⟩ := mem_passed.1 hid
  exact mem_passed.2 ⟨Std.ExtTreeMap.mem_insert.2 (Or.inr hmem), hpassed⟩

/-- The table never has more entries than at the beginning, or than there is room for. -/
def Fits (maxSize : UInt64) (s t : Connection V F) : Prop :=
  t.respCallbacks.size ≤ max maxSize.toNat s.respCallbacks.size

theorem Fits.call {t : Connection V F} (h : Fits maxSize s t) (hroom : HasRoom maxSize t)
    (m : Msgpack V) (cl : Call V) : Fits maxSize s (t.call m cl) := by
  simp only [Fits, Connection.call, Std.ExtTreeMap.size_insert] at h ⊢
  split_ifs with hmem
  · exact h
  · have := hroom.resolve_left hmem
    omega

/-- The entries that the iterator can still come to, and what is left to do before it moves. -/
def rank (bound : ℕ) (t : Aborting V F) : ℕ ×ₗ ℕ :=
  match t.stack with
  | [.loop (.after c)] => toLex (bound - (passed t.conn c).card, 1)
  | [.user todo, .loop (.after c)] => toLex (bound - (passed t.conn c).card, todo.length + 2)
  | _ => toLex (0, 0)

theorem rank_lt (h : Progress s t) (hfits : Fits maxSize s t.conn)
    (hsafe : Aborting.Safe maxSize s t) (htick : Aborting.tick m maxSize react t = some u) :
    Fits maxSize s u.conn ∧ rank (max maxSize.toNat s.respCallbacks.size) u <
      rank (max maxSize.toNat s.respCallbacks.size) t := by
  cases h with
  | ended h => cases ticks_of_tick htick
  | @loop t c h =>
    cases ticks_of_tick htick with
    | @visit _ _ _ id k hnext =>
      refine ⟨hfits, ?_⟩
      have hlt := card_passed_lt hnext
      have hle := (card_passed_le (t.abort k) (some id)).trans hfits
      rw [rank, rank, Prod.Lex.toLex_lt_toLex]
      exact Or.inl (Nat.sub_lt_sub_left (hlt.trans_le hle) hlt)
    | finish hnext =>
      refine ⟨?_, ?_⟩
      · simp [Fits]
      · rw [List.map_nil, rank, rank, Prod.Lex.toLex_lt_toLex']
        exact ⟨Nat.zero_le _, fun _ => Nat.zero_lt_one⟩
  | @user t id todo h =>
    cases ticks_of_tick htick with
    | ret =>
      refine ⟨hfits, ?_⟩
      rw [rank, rank, Prod.Lex.toLex_lt_toLex]
      exact Or.inr ⟨rfl, by simp⟩
    | @call _ cl todo _ hroom =>
      refine ⟨hfits.call hroom m cl, ?_⟩
      rw [rank, rank, Prod.Lex.toLex_lt_toLex']
      have hle := Finset.card_le_card (passed_subset_call t m cl (some id))
      exact ⟨Nat.sub_le_sub_left hle _, fun _ => by simp⟩
    | disconnect => exact hsafe.elim

/-- **Aborting the pending calls.** Whatever the functions attached to the futures do, `disconnect`
ends, calls the callback of every call that is pending once with a null buffer and leaves none of
them in the table if and only if no function that is reached calls `disconnect`, and every call that
they make finds room in the table and does not take the number of a pending call that is still to be
visited. -/
theorem abortsExactly_iff (m : Msgpack V) (maxSize : UInt64)
    (react : Connection V F → ℕ → List (Reaction V)) {s : Connection V F} (hs : Numbered s) :
    AbortsExactly m maxSize react s ↔
      ∀ t, Reaches (Aborting.tick m maxSize react) (Aborting.start s) t →
        Aborting.Safe maxSize s t := by
  refine ⟨fun hexact t ht => hexact.safe hs ht, fun hsafe => ?_⟩
  obtain ⟨t, ht, ⟨hreach, hprogress, -⟩, hfinal⟩ :=
    exists_reaches_final (rank (max maxSize.toNat s.respCallbacks.size))
      (fun t => Reaches (Aborting.tick m maxSize react) (Aborting.start s) t ∧ Progress s t ∧
        Fits maxSize s t.conn)
      (fun t u ⟨ht, h, hfits⟩ htick =>
        ⟨⟨ht.tail htick, h.tick hs (hsafe t ht) htick, (rank_lt h hfits (hsafe t ht) htick).1⟩,
          (rank_lt h hfits (hsafe t ht) htick).2⟩)
      ⟨Relation.ReflTransGen.refl, .loop (Running.start hs), le_max_right _ _⟩
  cases hprogress with
  | @ended t h => exact ⟨t, ht, h⟩
  | @loop t c h =>
    simp only [Aborting.tick] at hfinal
    split at hfinal <;> cases hfinal
  | @user t id todo h =>
    cases todo with
    | nil => cases hfinal
    | cons a todo =>
      cases a with
      | call cl =>
        have hroom : HasRoom maxSize t := (hsafe _ hreach).1
        simp only [Aborting.tick, if_pos hroom] at hfinal
        cases hfinal
      | disconnect => cases hfinal

/-! ### A call on every failure -/

/-- No number is taken that is larger than the next one, and there are enough for the entries that
the table has room for. -/
structure Fresh (maxSize : UInt64) (t : Connection V F) : Prop where
  lt_reqId : ∀ id ∈ t.respCallbacks, id < t.reqId
  enough : t.reqId.toNat + maxSize.toNat < 2 ^ 64 + t.respCallbacks.size

theorem Fresh.call {t : Connection V F} (h : Fresh maxSize t) (hroom : HasRoom maxSize t)
    (m : Msgpack V) (cl : Call V) :
    Fresh maxSize (t.call m cl) ∧ t.reqId ∈ (t.call m cl).respCallbacks := by
  have hnew : t.reqId ∉ t.respCallbacks := fun hmem => UInt64.lt_irrefl _ (h.lt_reqId _ hmem)
  have hsize := hroom.resolve_left hnew
  have henough := h.enough
  have hsucc : (t.reqId + 1).toNat = t.reqId.toNat + 1 := by
    rw [UInt64.toNat_add, UInt64.toNat_one, Nat.mod_eq_of_lt (by omega)]
  refine ⟨⟨fun id hid => ?_, ?_⟩, ?_⟩
  · simp only [Connection.call, Std.ExtTreeMap.mem_insert, Std.compare_eq_iff_eq] at hid
    refine UInt64.lt_iff_toNat_lt.2 ?_
    change id.toNat < (t.reqId + 1).toNat
    rcases hid with rfl | hid
    · omega
    · have := UInt64.lt_iff_toNat_lt.1 (h.lt_reqId id hid)
      omega
  · have hsize' : (t.call m cl).respCallbacks.size = t.respCallbacks.size + 1 := by
      simp only [Connection.call, Std.ExtTreeMap.size_insert, Std.ExtTreeMap.contains_iff_mem,
        if_neg hnew]
    change (t.reqId + 1).toNat + _ < _
    omega
  · exact Std.ExtTreeMap.mem_insert_self

/-- A walk that does not come to its end: an entry is ahead, or a call is about to be made. -/
inductive Retrying (maxSize : UInt64) : Aborting V F → Prop
  | loop {t : Connection V F} {c : Option UInt64} {id : UInt64} (h : Fresh maxSize t)
    (hid : id ∈ t.respCallbacks) (hahead : Ahead c id) : Retrying maxSize ⟨t, [.loop (.after c)]⟩
  | user {t : Connection V F} {c : UInt64} {todo : List (Reaction V)} (h : Fresh maxSize t)
    (hc : c < t.reqId)
    (hnext : (∃ cl todo', todo = .call cl :: todo') ∨ ∃ id ∈ t.respCallbacks, c < id) :
    Retrying maxSize ⟨t, [.user todo, .loop (.after (some c))]⟩

theorem Retrying.tick (h : Retrying maxSize t)
    (hretry : ∀ t k, ∃ cl todo, react t k = .call cl :: todo) (hsafe : Aborting.Safe maxSize s t)
    (htick : Aborting.tick m maxSize react t = some u) : Retrying maxSize u := by
  cases h with
  | @loop t c id h hid hahead =>
    cases ticks_of_tick htick with
    | visit hnext =>
      obtain ⟨hentry, -⟩ := nextEntry_eq_some hnext
      refine .user ⟨h.lt_reqId, h.enough⟩ (h.lt_reqId _ ?_) (Or.inl (hretry _ _))
      rw [Std.ExtTreeMap.mem_iff_isSome_getElem?, hentry]
      rfl
    | finish hnext => exact absurd hahead (nextEntry_eq_none hnext id hid)
  | @user t c todo h hc hnext =>
    cases ticks_of_tick htick with
    | ret =>
      obtain ⟨id, hid, hlt⟩ := hnext.resolve_left (by simp)
      exact .loop h hid hlt
    | @call _ cl todo _ hroom =>
      obtain ⟨hfresh, hmem⟩ := h.call hroom m cl
      exact .user hfresh (UInt64.lt_trans hc (hfresh.lt_reqId _ hmem)) (Or.inr ⟨_, hmem, hc⟩)
    | disconnect => exact hsafe.elim

/-- When a call is pending and every function makes a call before it does anything else,
`disconnect` does not come to its end. -/
theorem not_abortsExactly_of_retry (m : Msgpack V) {maxSize : UInt64}
    {react : Connection V F → ℕ → List (Reaction V)} {s : Connection V F} (hs : Numbered s)
    (hfresh : Fresh maxSize s) {k : ℕ} (hk : Waiting s k)
    (hretry : ∀ t k, ∃ cl todo, react t k = .call cl :: todo) :
    ¬ AbortsExactly m maxSize react s := by
  intro hexact
  obtain ⟨i, hi⟩ := hk
  have hmem : i ∈ s.respCallbacks := Std.ExtTreeMap.mem_iff_isSome_getElem?.2 (by rw [hi]; rfl)
  have ⟨t, ht, _⟩ := hexact
  have hend := reaches_invariant
    (fun t => Reaches (Aborting.tick m maxSize react) (Aborting.start s) t ∧ Retrying maxSize t)
    (fun t u ⟨ht, h⟩ htick => ⟨ht.tail htick, h.tick hretry (hexact.safe hs ht) htick⟩)
    ⟨Relation.ReflTransGen.refl, .loop (c := none) ⟨hfresh.lt_reqId, hfresh.enough⟩ hmem trivial⟩ ht
  cases hend.2

instance (maxSize : UInt64) (s : Connection V F) :
    (t : Aborting V F) → Decidable (Aborting.Safe maxSize s t)
  | ⟨_, []⟩ => isTrue trivial
  | ⟨_, .loop _ :: _⟩ => isTrue trivial
  | ⟨_, .user [] :: _⟩ => isTrue trivial
  | ⟨_, .user (.disconnect :: _) :: _⟩ => isFalse id
  | ⟨_, [.user (.call _ :: _)]⟩ => isTrue trivial
  | ⟨_, .user (.call _ :: _) :: .user _ :: _⟩ => isTrue trivial
  | ⟨_, .user (.call _ :: _) :: .loop .dangling :: _⟩ => isTrue trivial
  | ⟨t, .user (.call _ :: _) :: .loop (.after c) :: _⟩ =>
    inferInstanceAs (Decidable
      (HasRoom maxSize t ∧ (t.reqId ∈ s.respCallbacks → ¬ Ahead c t.reqId)))

/-- A client with one pending call. -/
def onePending : Connection (Fin 128) ℕ := start.call fixint ⟨[102], [], small 0⟩

/-- The room of its table. -/
def maxEntries : UInt64 := 2 ^ 32

theorem numbered_onePending : Numbered onePending := by
  refine Numbered.call ⟨?_, ?_⟩ fixint _
  · intro id k hk
    simp [start] at hk
  · intro id id' k hk
    simp [start] at hk

theorem fresh_onePending : Fresh maxEntries onePending := by
  refine ⟨fun id hid => ?_, by decide⟩
  obtain rfl : 0 = id := by simpa [onePending, Connection.call, start] using hid
  decide

/-- The function attached to the future of the first call makes the call again. -/
def retryOnce (_ : Connection (Fin 128) ℕ) (k : ℕ) : List (Reaction (Fin 128)) :=
  if k = 0 then [.call ⟨[102], [], small 0⟩] else []

theorem abortsExactly_retryOnce : AbortsExactly fixint maxEntries retryOnce onePending := by
  refine (abortsExactly_iff fixint maxEntries retryOnce numbered_onePending).2 fun t ht => ?_
  exact forall_reaches_of_ticks (n := 7) rfl (by decide +kernel) ht

/-- The function attached to the future calls `disconnect` the first time that it runs. -/
def disconnectOnce (t : Connection (Fin 128) ℕ) (_ : ℕ) : List (Reaction (Fin 128)) :=
  if t.settings.length ≤ 1 then [.disconnect] else []

/-- Every function makes the call again. -/
def retryAlways (_ : Connection (Fin 128) ℕ) (_ : ℕ) : List (Reaction (Fin 128)) :=
  [.call ⟨[102], [], small 0⟩]

/-- With `disconnectOnce` the callback of the only pending call is called twice, and then the loop
stands on an entry that was erased. With `retryAlways` the table is full before the walk ends. -/
theorem abort_fails_disconnectOnce :
    Numbered onePending ∧ ¬ AbortsExactly fixint maxEntries disconnectOnce onePending ∧
      (∃ t, Reaches (Aborting.tick fixint maxEntries disconnectOnce)
        (Aborting.start onePending) t ∧ t.conn.aborts 0 = 2 ∧ t.stack = [.loop .dangling]) ∧
      ¬ AbortsExactly fixint maxEntries retryAlways onePending := by
  refine ⟨numbered_onePending, ?_, ⟨_, reaches_iff_ticks.2 ⟨6, rfl⟩, by decide, rfl⟩, ?_⟩
  · refine not_abortsExactly_of_failed (Or.inl (Or.inr ?_)) (reaches_iff_ticks.2 ⟨2, rfl⟩)
    decide
  · refine not_abortsExactly_of_retry fixint numbered_onePending fresh_onePending (k := 0) ⟨0, rfl⟩
      fun _ _ => ⟨_, _, rfl⟩

end RawDish.Rpc.Connection
