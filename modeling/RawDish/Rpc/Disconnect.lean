import RawDish.Rpc.Matching

/-!
# A client that loses its connection

A client waits for the responses to its calls with the callbacks of `_respCallbacks`. `disconnect`
calls those that are left, with a null buffer. When it is the other end that closes the connection,
the socket calls `onDisconnect`, which tells the user of the client and leaves the callbacks where
they are.

`Client` is the client with any responses at any time, and with the number of calls that were made
before the connection was lost. A call is waiting, or its callback is with a worker, or it is
answered (`Waiting`, `Queued`, `Answered`).

## Main definitions

* `Client`, `Client.step` : the client.
* `Client.Drained` : the condition on a run.

## Main results

* `Client.HandedOver.step` : every step keeps the invariant.
* `Client.lost_calls_answered` : all of them are answered.

## References

* `src/rpc/rpc.cc`, lines 184–280; `src/rpc/rpc.h`, lines 479–532.
-/

namespace RawDish.Rpc.Connection

open Lib

variable {V F : Type}

/-- A client, and the number of calls when the connection was lost. -/
structure Client (V F : Type) where
  conn : Connection V F
  lost : Option ℕ

/-- What can happen to a client: a call, the receipt of a response, the `i`-th callback that is with
a worker, a local `disconnect`, or the other end closes the connection. -/
inductive ClientAction (V : Type)
  | call (name : Str) (args : List V) (default : V)
  | receive (p : Response)
  | callback (i : ℕ)
  | disconnect
  | close

/-- `RPCClient::Internal::onDisconnect`: the callback of the user is called. -/
def onDisconnect (s : Connection V F) : Connection V F := { s with connected := false }

namespace Client

variable {m : Msgpack V} {s t : Client V F}

def start : Client V F := ⟨.start, none⟩

/-- One action. After a local `disconnect` the socket does not call the client any more. -/
def step (m : Msgpack V) (s : Client V F) : ClientAction V → Option (Client V F)
  | .call name args default =>
    if args.length ≤ 5 then some { s with conn := s.conn.call m ⟨name, args, default⟩ } else none
  | .receive p =>
    if s.conn.connected then some { s with conn := s.conn.clientOnReceive p } else none
  | .callback i => s.conn.callbacks[i]?.map fun cb =>
      { s with
        conn := { s.conn with callbacks := s.conn.callbacks.eraseIdx i }.deserializeFuture m cb }
  | .disconnect => some ⟨s.conn.disconnect, s.lost.or (some s.conn.calls.length)⟩
  | .close =>
    if s.conn.connected then some ⟨onDisconnect s.conn, s.lost.or (some s.conn.calls.length)⟩
    else none

/-- What a step does. -/
theorem step_eq_some {a : ClientAction V} (h : step m s a = some t) :
    (∃ name args default, a = .call name args default ∧
      t = { s with conn := s.conn.call m ⟨name, args, default⟩ }) ∨
    (∃ p, a = .receive p ∧ t = { s with conn := s.conn.clientOnReceive p }) ∨
    (∃ i cb, a = .callback i ∧ s.conn.callbacks[i]? = some cb ∧ t = { s with
      conn := { s.conn with callbacks := s.conn.callbacks.eraseIdx i }.deserializeFuture m cb }) ∨
    (a = .disconnect ∧ t = ⟨s.conn.disconnect, s.lost.or (some s.conn.calls.length)⟩) ∨
    (a = .close ∧ t = ⟨onDisconnect s.conn, s.lost.or (some s.conn.calls.length)⟩) := by
  cases a with
  | call name args default =>
    simp only [step, Option.ite_none_right_eq_some, Option.some.injEq] at h
    exact Or.inl ⟨name, args, default, rfl, h.2.symm⟩
  | receive p =>
    simp only [step, Option.ite_none_right_eq_some, Option.some.injEq] at h
    exact Or.inr (Or.inl ⟨p, rfl, h.2.symm⟩)
  | callback i =>
    obtain ⟨cb, hcb, rfl⟩ := Option.map_eq_some_iff.1 h
    exact Or.inr (Or.inr (Or.inl ⟨i, cb, rfl, hcb, rfl⟩))
  | disconnect => exact Or.inr (Or.inr (Or.inr (Or.inl ⟨rfl, (Option.some.inj h).symm⟩)))
  | close =>
    simp only [step, Option.ite_none_right_eq_some, Option.some.injEq] at h
    exact Or.inr (Or.inr (Or.inr (Or.inr ⟨rfl, h.2.symm⟩)))

end Client

/-! ### Where a call is -/

/-- A callback of the call number `k` is stored. -/
def Waiting (s : Connection V F) (k : ℕ) : Prop :=
  ∃ id : UInt64, s.respCallbacks[id]? = some k

/-- A callback of the call is with a worker. -/
def Queued (s : Connection V F) (k : ℕ) : Prop := ∃ cb ∈ s.callbacks, cb.1 = k

/-- A callback of the call was called. -/
def Answered (s : Connection V F) (k : ℕ) : Prop := ∃ x ∈ s.settings, x.call = k

variable {m : Msgpack V} {s : Connection V F} {k : ℕ}

theorem Waiting.of_call {c : Call V} (h : Waiting (s.call m c) k) :
    k = s.calls.length ∨ Waiting s k := by
  obtain ⟨id, hid⟩ := h
  simp only [call, Std.ExtTreeMap.getElem?_insert] at hid
  split_ifs at hid
  · exact Or.inl (Option.some.inj hid).symm
  · exact Or.inr ⟨id, hid⟩

/-- A call that takes a number nobody waits under takes nothing away. -/
theorem Waiting.call (hfresh : s.reqId ∉ s.respCallbacks) (h : Waiting s k) (c : Call V) :
    Waiting (s.call m c) k := by
  obtain ⟨id, hid⟩ := h
  refine ⟨id, ?_⟩
  rw [Connection.call, getElem?_insert_ite, if_neg, hid]
  rintro rfl
  exact hfresh (Std.ExtTreeMap.mem_iff_isSome_getElem?.2 (by rw [hid]; rfl))

theorem waiting_call_self (c : Call V) : Waiting (s.call m c) s.calls.length :=
  ⟨s.reqId, by simp [Connection.call]⟩

theorem Waiting.of_clientOnReceive {p : Response} (h : Waiting (s.clientOnReceive p) k) :
    Waiting s k := by
  obtain ⟨id, hid⟩ := h
  rw [clientOnReceive] at hid
  split at hid
  · simp only [Std.ExtTreeMap.getElem?_erase] at hid
    split_ifs at hid
    exact ⟨id, hid⟩
  · exact ⟨id, hid⟩

/-- A response moves the callback of its call to a worker. -/
theorem Waiting.clientOnReceive (h : Waiting s k) (p : Response) :
    Waiting (s.clientOnReceive p) k ∨ Queued (s.clientOnReceive p) k := by
  obtain ⟨id, hid⟩ := h
  rw [Connection.clientOnReceive]
  split
  · rename_i k' hk'
    by_cases heq : p.id = id
    · subst heq
      obtain rfl : k = k' := Option.some.inj (hid.symm.trans hk')
      exact Or.inr ⟨(k, p.payload), by simp, rfl⟩
    · refine Or.inl ⟨id, ?_⟩
      simp [Std.ExtTreeMap.getElem?_erase, heq, hid]
  · exact Or.inl ⟨id, hid⟩

theorem Queued.clientOnReceive (h : Queued s k) (p : Response) :
    Queued (s.clientOnReceive p) k := by
  obtain ⟨cb, hcb, rfl⟩ := h
  rw [Connection.clientOnReceive]
  split
  · exact ⟨cb, List.mem_append_left _ hcb, rfl⟩
  · exact ⟨cb, hcb, rfl⟩

theorem calls_clientOnReceive (s : Connection V F) (p : Response) :
    (s.clientOnReceive p).calls = s.calls := by
  rw [Connection.clientOnReceive]
  split <;> rfl

theorem answered_clientOnReceive {p : Response} :
    Answered (s.clientOnReceive p) k ↔ Answered s k := by
  rw [Connection.clientOnReceive]
  split <;> exact Iff.rfl

/-- A worker calls a callback. -/
theorem Queued.deserializeFuture (h : Queued s k) {i : ℕ} {cb : ℕ × IOBuffer}
    (hcb : s.callbacks[i]? = some cb) :
    Queued ({ s with callbacks := s.callbacks.eraseIdx i }.deserializeFuture m cb) k ∨
      Answered ({ s with callbacks := s.callbacks.eraseIdx i }.deserializeFuture m cb) k := by
  obtain ⟨pre, post, hsplit, -, herase⟩ := split_of_getElem? hcb
  obtain ⟨cb', hcb', rfl⟩ := h
  rw [hsplit, List.mem_append, List.mem_cons] at hcb'
  rcases hcb' with hcb' | rfl | hcb'
  · exact Or.inl ⟨cb', herase ▸ List.mem_append_left _ hcb', rfl⟩
  · refine Or.inr ⟨_, List.mem_append_right _ (List.mem_singleton_self _), rfl⟩
  · exact Or.inl ⟨cb', herase ▸ List.mem_append_right _ hcb', rfl⟩

theorem not_waiting_disconnect : ¬ Waiting s.disconnect k := by
  rintro ⟨id, hid⟩
  simp [Connection.disconnect] at hid

/-- `disconnect` calls the callbacks that are stored. -/
theorem Waiting.disconnect (h : Waiting s k) (hk : k < s.calls.length) :
    Answered s.disconnect k := by
  obtain ⟨id, hid⟩ := h
  have hmem : (id, k) ∈ s.respCallbacks.toList :=
    Std.ExtTreeMap.mem_toList_iff_getElem?_eq_some.2 hid
  refine ⟨⟨k, (s.calls[k]).default, .disconnect⟩, ?_, rfl⟩
  refine List.mem_append_right _ (List.mem_filterMap.2 ⟨(id, k), hmem, ?_⟩)
  rw [List.getElem?_eq_getElem hk, Option.map_some]

theorem Answered.disconnect (h : Answered s k) : Answered s.disconnect k := by
  obtain ⟨x, hx, rfl⟩ := h
  exact ⟨x, List.mem_append_left _ hx, rfl⟩

namespace Client

variable {s t : Client V F}

/-- The number that a call takes is not waited under, and when the other end closes the connection
no call is waiting. After the connection is lost there is no condition. -/
def Drained (s : Client V F) : ClientAction V → Prop
  | .call _ _ _ => s.lost = none → s.conn.reqId ∉ s.conn.respCallbacks
  | .close => s.lost = none → s.conn.respCallbacks.isEmpty
  | _ => True

/-- When the connection is lost, no callback is with a worker. -/
def Caught (s : Client V F) : ClientAction V → Prop
  | .disconnect => s.lost = none → s.conn.callbacks = []
  | .close => s.lost = none → s.conn.callbacks = []
  | _ => True

instance (s : Client V F) : (a : ClientAction V) → Decidable (Drained s a)
  | .call _ _ _ => inferInstanceAs (Decidable (s.lost = none → s.conn.reqId ∉ s.conn.respCallbacks))
  | .close => inferInstanceAs (Decidable (s.lost = none → s.conn.respCallbacks.isEmpty))
  | .receive _ => isTrue trivial
  | .callback _ => isTrue trivial
  | .disconnect => isTrue trivial

instance (s : Client V F) : (a : ClientAction V) → Decidable (Caught s a)
  | .call _ _ _ => isTrue trivial
  | .receive _ => isTrue trivial
  | .callback _ => isTrue trivial
  | .disconnect => inferInstanceAs (Decidable (s.lost = none → s.conn.callbacks = []))
  | .close => inferInstanceAs (Decidable (s.lost = none → s.conn.callbacks = []))

/-- The invariant: a call is waiting, with a worker or answered; and a call from before the loss is
not waiting. -/
structure HandedOver (s : Client V F) : Prop where
  bound : ∀ k, Waiting s.conn k → k < s.conn.calls.length
  lost_le : ∀ n, s.lost = some n → n ≤ s.conn.calls.length
  place : ∀ k < s.lost.getD s.conn.calls.length,
    (s.lost = none ∧ Waiting s.conn k) ∨ Queued s.conn k ∨ Answered s.conn k
  not_waiting : ∀ n, s.lost = some n → ∀ k < n, ¬ Waiting s.conn k

theorem handedOver_start : HandedOver (start : Client V F) where
  bound k h := by
    obtain ⟨id, hid⟩ := h
    simp [start, Connection.start] at hid
  lost_le n h := by simp [start] at h
  place k h := by simp [start, Connection.start] at h
  not_waiting n h := by simp [start] at h

namespace HandedOver

/-- A call before the loss is waiting; the others stay where they are. -/
theorem call (h : HandedOver s) (m : Msgpack V) (c : Call V)
    (hfresh : s.lost = none → s.conn.reqId ∉ s.conn.respCallbacks) :
    HandedOver { s with conn := s.conn.call m c } where
  bound k hk := by
    change k < (s.conn.calls ++ [c]).length
    rw [List.length_append, List.length_singleton]
    rcases hk.of_call with rfl | hk
    · omega
    · exact Nat.lt_succ_of_lt (h.bound k hk)
  lost_le n hn := by
    change n ≤ (s.conn.calls ++ [c]).length
    rw [List.length_append]
    exact (h.lost_le n hn).trans (Nat.le_add_right _ _)
  place k hk := by
    cases hlost : s.lost with
    | none =>
      rw [hlost] at hk
      change k < (s.conn.calls ++ [c]).length at hk
      rw [List.length_append, List.length_singleton] at hk
      rcases Nat.lt_succ_iff_lt_or_eq.1 hk with hk | rfl
      · rcases h.place k (by rwa [hlost]) with ⟨-, hw⟩ | hplace
        · exact Or.inl ⟨rfl, hw.call (hfresh hlost) c⟩
        · exact Or.inr hplace
      · exact Or.inl ⟨rfl, waiting_call_self c⟩
    | some n =>
      rw [hlost] at hk
      rcases h.place k (by rwa [hlost]) with ⟨hnone, -⟩ | hplace
      · rw [hlost] at hnone
        exact absurd hnone (by simp)
      · exact Or.inr hplace
  not_waiting n hn k hk hw := by
    rcases hw.of_call with rfl | hw
    · have hle := h.lost_le n hn
      omega
    · exact h.not_waiting n hn k hk hw

theorem receive (h : HandedOver s) (p : Response) :
    HandedOver { s with conn := s.conn.clientOnReceive p } where
  bound k hk := by
    rw [calls_clientOnReceive]
    exact h.bound k hk.of_clientOnReceive
  lost_le n hn := by
    rw [calls_clientOnReceive]
    exact h.lost_le n hn
  place k hk := by
    rw [calls_clientOnReceive] at hk
    rcases h.place k hk with ⟨hlost, hw⟩ | hq | ha
    · rcases hw.clientOnReceive p with hw | hq
      · exact Or.inl ⟨hlost, hw⟩
      · exact Or.inr (Or.inl hq)
    · exact Or.inr (Or.inl (hq.clientOnReceive p))
    · exact Or.inr (Or.inr (answered_clientOnReceive.2 ha))
  not_waiting n hn k hk hw := h.not_waiting n hn k hk hw.of_clientOnReceive

theorem callback (h : HandedOver s) (m : Msgpack V) {i : ℕ} {cb : ℕ × IOBuffer}
    (hcb : s.conn.callbacks[i]? = some cb) :
    HandedOver { s with
      conn := { s.conn with callbacks := s.conn.callbacks.eraseIdx i }.deserializeFuture m cb }
    where
  bound k hk := h.bound k hk
  lost_le n hn := h.lost_le n hn
  place k hk := by
    rcases h.place k hk with hw | hq | ha
    · exact Or.inl hw
    · exact Or.inr (hq.deserializeFuture hcb)
    · obtain ⟨x, hx, rfl⟩ := ha
      exact Or.inr (Or.inr ⟨x, List.mem_append_left _ hx, rfl⟩)
  not_waiting n hn k hk hw := h.not_waiting n hn k hk hw

/-- The number of calls before the loss, when the connection is lost now or was lost before. -/
theorem getD_lost_le (h : HandedOver s) :
    s.lost.getD s.conn.calls.length ≤ s.conn.calls.length := by
  cases hlost : s.lost with
  | none => exact le_rfl
  | some n => exact h.lost_le n hlost

theorem disconnect (h : HandedOver s) :
    HandedOver ⟨s.conn.disconnect, s.lost.or (some s.conn.calls.length)⟩ where
  bound k hk := absurd hk not_waiting_disconnect
  lost_le n hn := by
    rw [Option.or_some, Option.some.injEq] at hn
    exact hn ▸ h.getD_lost_le
  place k hk := by
    rw [Option.or_some, Option.getD_some] at hk
    rcases h.place k hk with ⟨-, hw⟩ | hq | ha
    · exact Or.inr (Or.inr (hw.disconnect (h.bound k hw)))
    · exact Or.inr (Or.inl hq)
    · exact Or.inr (Or.inr ha.disconnect)
  not_waiting n hn k hk hw := not_waiting_disconnect hw

theorem close (h : HandedOver s) (hempty : s.lost = none → s.conn.respCallbacks.isEmpty) :
    HandedOver ⟨onDisconnect s.conn, s.lost.or (some s.conn.calls.length)⟩ := by
  have hnone : ∀ k < s.lost.getD s.conn.calls.length, ¬ Waiting s.conn k := by
    intro k hk hw
    cases hlost : s.lost with
    | none =>
      obtain ⟨id, hid⟩ := hw
      rw [Std.ExtTreeMap.isEmpty_iff.1 (hempty hlost)] at hid
      simp at hid
    | some n =>
      rw [hlost, Option.getD_some] at hk
      exact h.not_waiting n hlost k hk hw
  refine ⟨h.bound, fun n hn => ?_, fun k hk => ?_, fun n hn k hk => ?_⟩
  · rw [Option.or_some, Option.some.injEq] at hn
    exact hn ▸ h.getD_lost_le
  · rw [Option.or_some, Option.getD_some] at hk
    rcases h.place k hk with ⟨-, hw⟩ | hplace
    · exact absurd hw (hnone k hk)
    · exact Or.inr hplace
  · rw [Option.or_some, Option.some.injEq] at hn
    exact hnone k (hn ▸ hk)

theorem step (h : HandedOver s) {a : ClientAction V} (hdrained : Drained s a)
    (hstep : Client.step m s a = some t) : HandedOver t := by
  obtain ⟨name, args, default, rfl, rfl⟩ | ⟨p, rfl, rfl⟩ | ⟨i, cb, rfl, hcb, rfl⟩ | ⟨rfl, rfl⟩ |
    ⟨rfl, rfl⟩ := step_eq_some hstep
  · exact h.call m _ hdrained
  · exact h.receive p
  · exact h.callback m hcb
  · exact h.disconnect
  · exact h.close hdrained

end HandedOver

/-- An answered call stays answered. -/
theorem answered_step {a : ClientAction V} (hstep : step m s a = some t) {k : ℕ}
    (h : Answered s.conn k) : Answered t.conn k := by
  obtain ⟨name, args, default, rfl, rfl⟩ | ⟨p, rfl, rfl⟩ | ⟨i, cb, rfl, -, rfl⟩ | ⟨rfl, rfl⟩ |
    ⟨rfl, rfl⟩ := step_eq_some hstep
  · exact h
  · exact answered_clientOnReceive.2 h
  · obtain ⟨x, hx, rfl⟩ := h
    exact ⟨x, List.mem_append_left _ hx, rfl⟩
  · exact h.disconnect
  · exact h

/-- The step that loses the connection leaves no callback with a worker. -/
theorem callbacks_of_lost {a : ClientAction V} (hstep : step m s a = some t)
    (hcaught : Caught s a) : t.lost = s.lost ∨ (s.lost = none ∧ t.conn.callbacks = []) := by
  have hlose : (s.lost = none → s.conn.callbacks = []) →
      s.lost.or (some s.conn.calls.length) = s.lost ∨ (s.lost = none ∧ s.conn.callbacks = []) := by
    intro hcaught
    cases hlost : s.lost with
    | none => exact Or.inr ⟨rfl, hcaught hlost⟩
    | some n => exact Or.inl rfl
  obtain ⟨name, args, default, rfl, rfl⟩ | ⟨p, rfl, rfl⟩ | ⟨i, cb, rfl, -, rfl⟩ | ⟨rfl, rfl⟩ |
    ⟨rfl, rfl⟩ := step_eq_some hstep
  · exact Or.inl rfl
  · exact Or.inl rfl
  · exact Or.inl rfl
  · exact hlose hcaught
  · exact hlose hcaught

/-- The calls from before the loss are answered when it happens, and stay so. -/
theorem answered_of_lost {a : ClientAction V} (hstep : step m s a = some t) (hcaught : Caught s a)
    (hnext : HandedOver t) (h : ∀ n, s.lost = some n → ∀ k < n, Answered s.conn k) :
    ∀ n, t.lost = some n → ∀ k < n, Answered t.conn k := by
  intro n hn k hk
  rcases callbacks_of_lost hstep hcaught with hlost | ⟨-, hcallbacks⟩
  · exact answered_step hstep (h n (hlost ▸ hn) k hk)
  · have hplace := hnext.place k (by rwa [hn, Option.getD_some])
    rcases hplace with ⟨hnone, -⟩ | ⟨cb, hcb, -⟩ | hanswered
    · rw [hn] at hnone
      exact absurd hnone (by simp)
    · rw [hcallbacks] at hcb
      exact absurd hcb List.not_mem_nil
    · exact hanswered

/-- **No call is left hanging.** In every run of a client in which no number is taken that is still
waited under, and in which the connection is lost when no callback is with a worker, either by a
local `disconnect` or when no call is waiting: in every state after the loss, every call from before
it is answered, and none of them is waiting. -/
theorem lost_calls_answered {as : List (ClientAction V)}
    (hdrained : AllSteps (step m) Drained (start : Client V F) as)
    (hcaught : AllSteps (step m) Caught (start : Client V F) as)
    (hs : exec (step m) start as = some s) {n : ℕ} (hn : s.lost = some n) {k : ℕ} (hk : k < n) :
    Answered s.conn k ∧ ¬ Waiting s.conn k := by
  have hinv : HandedOver s ∧ ∀ n, s.lost = some n → ∀ k < n, Answered s.conn k := by
    refine exec_invariant (fun _ s => HandedOver s ∧ ∀ n, s.lost = some n → ∀ k < n,
      Answered s.conn k) ⟨handedOver_start, fun n h => by simp [start] at h⟩ ?_
      (hdrained.and hcaught) hs
    rintro - t a u - ⟨ht, hanswered⟩ hC hstep
    have hu := ht.step hC.1 hstep
    exact ⟨hu, answered_of_lost hstep hC.2 hu hanswered⟩
  exact ⟨hinv.2 n hn k hk, hinv.1.not_waiting n hn k hk⟩

/-- One call that is answered and one that is not, and a local `disconnect`. -/
def twoCalls : List (ClientAction (Fin 128)) :=
  [.call (.ofString "f") [small 1] (small 0), .call (.ofString "g") [] (small 9),
    .receive ⟨0, [5]⟩, .callback 0, .disconnect]

theorem lost_calls_answered_twoCalls :
    ∃ s : Client (Fin 128) ℕ, exec (step fixint) start twoCalls = some s ∧ s.lost = some 2 ∧
      Answered s.conn 0 ∧ Answered s.conn 1 ∧ ¬ Waiting s.conn 1 := by
  have hdrained : AllSteps (step fixint) Drained (start : Client (Fin 128) ℕ) twoCalls := by
    decide +kernel
  have hcaught : AllSteps (step fixint) Caught (start : Client (Fin 128) ℕ) twoCalls := by
    decide +kernel
  have hrun : ∃ s : Client (Fin 128) ℕ, exec (step fixint) start twoCalls = some s ∧
      s.lost = some 2 := ⟨_, rfl, rfl⟩
  obtain ⟨s, hs, hlost⟩ := hrun
  have hzero := lost_calls_answered hdrained hcaught hs hlost (show 0 < 2 by omega)
  have hone := lost_calls_answered hdrained hcaught hs hlost (show 1 < 2 by omega)
  exact ⟨s, hs, hlost, hzero.1, hone.1, hone.2⟩

/-- The other end closes the connection while a call is waiting. -/
def callClose : List (ClientAction (Fin 128)) :=
  [.call (.ofString "f") [small 1] (small 0), .close]

theorem lost_call_waiting :
    ∃ s : Client (Fin 128) ℕ, exec (step fixint) start callClose = some s ∧ s.lost = some 1 ∧
      ¬ Answered s.conn 0 ∧ Waiting s.conn 0 := by
  refine ⟨_, rfl, rfl, ?_, 0, ?_⟩
  · rintro ⟨x, hx, -⟩
    exact absurd hx List.not_mem_nil
  · simp [Connection.call, Connection.start, start, onDisconnect]

end Client

end RawDish.Rpc.Connection
