import RawDish.Lib.Linearizable
import RawDish.Rpc.Matching

/-!
# Several clients of one server

A server has any number of connections, and the functions that are registered with it work on one
machine. A client makes its calls without waiting for the results of the earlier ones, and the
deferred calls of all connections run in any order. The functions here return a future that is set
already, as those of a block store do, so the response is written when the function has run. The
server has one worker thread: the functions run one after the other.

The history of such a system is linearizable (`Shared.calls_linearizable`). A call takes effect when
its task runs, which is between the call and the setting of its future, and what a client gets is
the result of that.

## Main definitions

* `Shared`, `Shared.step` : the connections, the machine and the history of the calls.
* `Serves` : what a call does to the machine when it takes effect.
* `Shared.Ordered` : the invariant.

## Main results

* `Shared.Ordered.step` : every step keeps it.
* `Shared.calls_linearizable`.

## References

* `src/rpc/rpc.h`, lines 74–271 and 479–532; `src/rpc/rpc.cc`, lines 116–173 and 224–274.
-/

namespace RawDish.Rpc.Connection

open Lib

/-- The connections of the clients of a server, the machine that its functions work on, and the
history of the calls. A call is named by its client and its position among the calls of the
client. -/
structure Shared (V H F : Type) where
  conn : ℕ → Connection V F
  host : H
  history : List (HistoryEvent (ℕ × ℕ) (Call V) V)

namespace Shared

variable {V H F A : Type}

/-- What can happen next: an action of the connection of a client, other than the run of a task or
the completion of a future, or the `j`-th task that the server has for a client. The machine may
answer the function that runs in different ways. -/
inductive Action (V A : Type)
  | client (i : ℕ) (a : Connection.Action V)
  | task (i j : ℕ) (answers : A)

def start (h : H) : Shared V H F := ⟨fun _ => .start, h, []⟩

/-- The events of an action of the client `i`: a call begins, or its future is set. -/
def events (m : Msgpack V) (i : ℕ) (c : Connection V F) :
    Connection.Action V → List (HistoryEvent (ℕ × ℕ) (Call V) V)
  | .call name args default => [.inv (i, c.calls.length) ⟨name, args, default⟩]
  | .callback j => c.callbacks[j]?.toList.map fun cb => .ret (i, cb.1) (m.unpack cb.2)
  | _ => []

/-- The actions that are taken by the worker of the server. -/
def IsWork : Connection.Action V → Bool
  | .task _ | .complete _ _ => true
  | _ => false

/-- A task that ran: when it has called a function, the future is set and the response written. -/
def settle (m : Msgpack V) (funcs : Std.ExtTreeMap Str (RPCFunc F))
    (run : A → F → List V → H → Option (H × V)) (s : Shared V H F) (i : ℕ) (answers : A)
    (c : Connection V F) : Option (Shared V H F) :=
  match c.executions[(s.conn i).executions.length]? with
  | none => some { s with conn := Function.update s.conn i c }
  | some e => (run answers e.func.func e.args s.host).bind fun r =>
      (c.step m funcs (.complete (s.conn i).executions.length r.2)).map fun c' =>
        { s with conn := Function.update s.conn i c', host := r.1 }

/-- One action. -/
def step (m : Msgpack V) (funcs : Std.ExtTreeMap Str (RPCFunc F))
    (run : A → F → List V → H → Option (H × V)) (s : Shared V H F) :
    Action V A → Option (Shared V H F)
  | .client i a =>
    if IsWork a then none
    else ((s.conn i).step m funcs a).map fun c =>
      { s with
        conn := Function.update s.conn i c
        history := s.history ++ events m i (s.conn i) a }
  | .task i j answers =>
    ((s.conn i).step m funcs (.task j)).bind (s.settle m funcs run i answers)

/-- A call takes effect: the function registered under its name runs on its arguments. -/
def Serves (m : Msgpack V) (funcs : Std.ExtTreeMap Str (RPCFunc F))
    (run : A → F → List V → H → Option (H × V)) (h : H) (c : Call V) (v : V) (h' : H) : Prop :=
  ∃ answers f args, funcs[c.name]? = some f ∧
    deserializeArgs m f (m.packArgs c.args) = some args ∧ run answers f.func args h = some (h', v)

/-! ### Executions and calls -/

variable {m : Msgpack V} {funcs : Std.ExtTreeMap Str (RPCFunc F)}
  {run : A → F → List V → H → Option (H × V)} {s t : Shared V H F} {c c' : Connection V F}
  {h₀ : H} {l : List (Effected (ℕ × ℕ) (Call V) V)}

/-- An execution has the number of its call and runs the function that is registered under its name
on what the arguments of the call are unpacked to. -/
theorem exists_call_of_execution (h : Served m funcs c) {e : Execution V F}
    (he : e ∈ c.executions) : ∃ k call, c.calls[k]? = some call ∧ e.id = UInt64.ofNat k ∧
      funcs[call.name]? = some e.func ∧
      deserializeArgs m e.func (m.packArgs call.args) = some e.args := by
  have hwork : e.work ∈ c.received.filterMap (Request.work funcs) :=
    h.work.mem_iff.1 (List.mem_append_right _ (List.mem_map_of_mem he))
  obtain ⟨r, hr, hre⟩ := List.mem_filterMap.1 hwork
  obtain ⟨f, hf, hfe⟩ := Option.map_eq_some_iff.1 hre
  obtain ⟨k, call, hcall, hw⟩ := h.writes r (List.mem_append_right _ hr)
  simp only [Execution.work, Prod.mk.injEq] at hfe
  obtain ⟨hid, rfl, hbuf⟩ := hfe
  refine ⟨k, call, hcall, hid ▸ hw.id_eq, hw.name_eq ▸ hf, ?_⟩
  rw [← hw.args_eq, hbuf, h.args e he]

/-- No two executions have the same number. -/
theorem nodup_executions (h : Served m funcs c) :
    (c.executions.map fun e => e.id).Nodup := by
  have hsub : ∀ rs : List Request, ((rs.filterMap (Request.work funcs)).map Prod.fst).Sublist
      (rs.map Request.id) := by
    intro rs
    induction rs with
    | nil => exact List.Sublist.refl _
    | cons r rs ih =>
      cases hf : funcs[r.name]? with
      | none => simpa [List.filterMap_cons, Request.work, hf] using ih.cons r.id
      | some f => simpa [List.filterMap_cons, Request.work, hf] using ih.cons_cons r.id
  have hnodup : (c.received.map Request.id).Nodup :=
    h.nodup.sublist ((List.sublist_append_right _ _).map _)
  have hperm := h.work.map Prod.fst
  rw [List.map_append, List.map_map] at hperm
  exact (hperm.nodup_iff.2 (hnodup.sublist (hsub c.received))).sublist
    (List.sublist_append_right _ _)

/-! ### What a step does -/

/-- A step is one of the connection of a client, the close of a connection by the server, or the run
of a function. -/
inductive Moves (m : Msgpack V) (funcs : Std.ExtTreeMap Str (RPCFunc F))
    (run : A → F → List V → H → Option (H × V)) (s : Shared V H F) :
    Action V A → Shared V H F → Prop
  | client (i : ℕ) (a : Connection.Action V) (c : Connection V F) (ha : IsWork a = false)
      (hc : (s.conn i).step m funcs a = some c) :
      Moves m funcs run s (.client i a)
        { s with
          conn := Function.update s.conn i c
          history := s.history ++ events m i (s.conn i) a }
  | close (i j : ℕ) (answers : A) (c : Connection V F)
      (hc : (s.conn i).step m funcs (.task j) = some c)
      (hexecutions : c.executions = (s.conn i).executions) :
      Moves m funcs run s (.task i j answers) { s with conn := Function.update s.conn i c }
  | perform (i j : ℕ) (answers : A) (c c' : Connection V F) (e : Execution V F) (h : H) (v : V)
      (hc : (s.conn i).step m funcs (.task j) = some c)
      (hexecutions : c.executions = (s.conn i).executions ++ [e])
      (hrun : run answers e.func.func e.args s.host = some (h, v))
      (hc' : c.step m funcs (.complete (s.conn i).executions.length v) = some c')
      (hexecutions' : c'.executions = (s.conn i).executions ++ [{ e with result := some v }])
      (hcalls : c'.calls = c.calls) (hsettings : c'.settings = c.settings) :
      Moves m funcs run s (.task i j answers)
        { s with conn := Function.update s.conn i c', host := h }

/-- A task calls one function or none. -/
theorem executions_task {j : ℕ} (h : c.step m funcs (.task j) = some c') :
    c'.executions = c.executions ∨
      ∃ e : Execution V F, e.result = none ∧ c'.executions = c.executions ++ [e] := by
  simp only [Connection.step, Option.bind_eq_some_iff] at h
  obtain ⟨x, -, hx⟩ := h
  cases x with
  | disconnect =>
    simp only [Connection.runTask, Option.some.injEq] at hx
    exact Or.inl (by rw [← hx])
  | deferredRPCCall id f buf =>
    simp only [Connection.runTask, Option.map_eq_some_iff] at hx
    obtain ⟨args, -, rfl⟩ := hx
    exact Or.inr ⟨_, rfl, rfl⟩

theorem moves_of_step {x : Action V A} (h : step m funcs run s x = some t) :
    Moves m funcs run s x t := by
  cases x with
  | client i a =>
    simp only [step] at h
    split_ifs at h with ha
    obtain ⟨c, hc, rfl⟩ := Option.map_eq_some_iff.1 h
    exact .client i a c (Bool.eq_false_iff.2 ha) hc
  | task i j answers =>
    simp only [step, Option.bind_eq_some_iff] at h
    obtain ⟨c, hc, hsettle⟩ := h
    rcases executions_task hc with hexecutions | ⟨e, hnone, hexecutions⟩
    · simp only [settle, hexecutions, List.getElem?_length, Option.some.injEq] at hsettle
      exact hsettle ▸ .close i j answers c hc hexecutions
    · simp only [settle, hexecutions, List.getElem?_concat_length, Option.bind_eq_some_iff,
        Option.map_eq_some_iff] at hsettle
      obtain ⟨⟨h, v⟩, hrun, c', hc', rfl⟩ := hsettle
      have hcomplete := hc'
      simp only [Connection.step, hexecutions, List.getElem?_concat_length, Option.bind_some,
        hnone, Option.isNone_none, if_true, Option.some.injEq] at hcomplete
      refine .perform i j answers c c' e h v hc hexecutions hrun hc' ?_ ?_ ?_
      · rw [← hcomplete, Connection.complete, hexecutions]
        simp
      · rw [← hcomplete, Connection.complete]
      · rw [← hcomplete, Connection.complete]

/-! ### The order of the effects -/

/-- The calls of the client `i`, when the calls `l` have taken effect: they are those that have
begun in the history, each execution is the effect of one of them, and every future that a response
has set is in the history. -/
structure InOrder (m : Msgpack V) (funcs : Std.ExtTreeMap Str (RPCFunc F))
    (history : List (HistoryEvent (ℕ × ℕ) (Call V) V)) (l : List (Effected (ℕ × ℕ) (Call V) V))
    (i : ℕ) (c : Connection V F) : Prop where
  served : Served m funcs c
  settled : Settled m c
  begun : ∀ k call, .inv (i, k) call ∈ history ↔ c.calls[k]? = some call
  performed : ∀ e ∈ c.executions, ∃ k call v, c.calls[k]? = some call ∧
    e.id = UInt64.ofNat k ∧ e.result = some v ∧ ⟨(i, k), call, v⟩ ∈ l
  recorded : ∀ x ∈ l, x.id.1 = i → ∃ e ∈ c.executions, e.id = UInt64.ofNat x.id.2
  returned : ∀ x ∈ c.settings, x.origin = .response → .ret (i, x.call) x.value ∈ history

/-- The calls of all clients have taken effect in the order `l`. -/
structure Ordered (m : Msgpack V) (funcs : Std.ExtTreeMap Str (RPCFunc F))
    (run : A → F → List V → H → Option (H × V)) (h₀ : H) (s : Shared V H F)
    (l : List (Effected (ℕ × ℕ) (Call V) V)) : Prop where
  linearizes : Linearizes (Serves m funcs run) h₀ s.history l s.host
  inOrder : ∀ i, InOrder m funcs s.history l i (s.conn i)

theorem ordered_start : Ordered m funcs run h₀ (start h₀) [] := by
  refine ⟨.init h₀, fun i => ⟨served_start, settled_start, fun k call => ?_,
    fun e he => absurd he List.not_mem_nil, fun x hx => absurd hx List.not_mem_nil,
    fun x hx => absurd hx List.not_mem_nil⟩⟩
  simp [start, Connection.start]

section InOrder

variable {history : List (HistoryEvent (ℕ × ℕ) (Call V) V)} {i : ℕ}

/-- Events that are no calls of the client. -/
theorem InOrder.history_append (h : InOrder m funcs history l i c)
    (new : List (HistoryEvent (ℕ × ℕ) (Call V) V)) (hnew : ∀ k call, .inv (i, k) call ∉ new) :
    InOrder m funcs (history ++ new) l i c where
  served := h.served
  settled := h.settled
  begun k call := by rw [List.mem_append, or_iff_left (hnew k call), h.begun]
  performed := h.performed
  recorded := h.recorded
  returned x hx ho := List.mem_append_left _ (h.returned x hx ho)

/-- A call of another client takes effect. -/
theorem InOrder.effects_concat (h : InOrder m funcs history l i c)
    {x : Effected (ℕ × ℕ) (Call V) V} (hx : x.id.1 ≠ i) :
    InOrder m funcs history (l ++ [x]) i c where
  served := h.served
  settled := h.settled
  begun := h.begun
  performed e he := by
    obtain ⟨k, call, v, hcall, hid, hresult, hmem⟩ := h.performed e he
    exact ⟨k, call, v, hcall, hid, hresult, List.mem_append_left _ hmem⟩
  recorded y hy hi := by
    rcases List.mem_append.1 hy with hy | hy
    · exact h.recorded y hy hi
    · exact absurd (List.mem_singleton.1 hy ▸ hi) hx
  returned := h.returned

/-- A step of the connection that makes no call, runs no function and sets no future by a
response. -/
theorem InOrder.of_quiet (h : InOrder m funcs history l i c) (hserved : Served m funcs c')
    (hsettled : Settled m c') (hcalls : c'.calls = c.calls)
    (hexecutions : c'.executions = c.executions)
    (hsettings : ∀ x ∈ c'.settings, x.origin = .response → x ∈ c.settings) :
    InOrder m funcs history l i c' where
  served := hserved
  settled := hsettled
  begun k call := by rw [hcalls, h.begun]
  performed e he := by
    rw [hcalls]
    exact h.performed e (hexecutions ▸ he)
  recorded x hx hi := by
    rw [hexecutions]
    exact h.recorded x hx hi
  returned x hx ho := h.returned x (hsettings x hx ho) ho

/-- A call begins. -/
theorem InOrder.call (h : InOrder m funcs history l i c) {call : Call V}
    (hserved : Served m funcs (c.call m call)) (hsettled : Settled m (c.call m call)) :
    InOrder m funcs (history ++ [.inv (i, c.calls.length) call]) l i (c.call m call) where
  served := hserved
  settled := hsettled
  begun k call' := by
    rw [List.mem_append, h.begun, List.mem_singleton, Connection.call]
    simp only [HistoryEvent.inv.injEq, Prod.mk.injEq, true_and]
    rcases Nat.lt_trichotomy k c.calls.length with hlt | rfl | hgt
    · rw [List.getElem?_append_left hlt]
      simp [hlt.ne]
    · simp [eq_comm]
    · have hlen : (c.calls ++ [call]).length ≤ k := by simpa using hgt
      rw [List.getElem?_eq_none hgt.le, List.getElem?_eq_none hlen]
      simp [hgt.ne']
  performed e he := by
    obtain ⟨k, call', v, hcall', hrest⟩ := h.performed e he
    refine ⟨k, call', v, ?_, hrest⟩
    rw [Connection.call, List.getElem?_append_left (List.getElem?_eq_some_iff.1 hcall').1, hcall']
  recorded := h.recorded
  returned x hx ho := List.mem_append_left _ (h.returned x hx ho)

/-- The execution of a call that is to be answered has taken effect with this value. -/
theorem InOrder.mem_effects (h : InOrder m funcs history l i c) (hlen : c.calls.length < 2 ^ 64)
    {k : ℕ} (hk : k < c.calls.length) {v : V} (hcompleted : c.Completed (UInt64.ofNat k) v) :
    ∃ call, ⟨(i, k), call, v⟩ ∈ l := by
  obtain ⟨e, he, hid, hv⟩ := hcompleted
  obtain ⟨k', call, v', hcall, hid', hresult, hmem⟩ := h.performed e he
  obtain rfl : k' = k := by
    refine ofNat_inj ?_ (hk.trans hlen) (hid'.symm.trans hid)
    exact (List.getElem?_eq_some_iff.1 hcall).1.trans hlen
  obtain rfl : v' = v := Option.some.inj (hresult.symm.trans hv)
  exact ⟨call, hmem⟩

/-- A function runs, and the response of its call is written. -/
theorem InOrder.perform (h : InOrder m funcs history l i c) (hserved : Served m funcs c')
    (hsettled : Settled m c') {k : ℕ} {call : Call V} {v : V} {e : Execution V F}
    (hcall : c.calls[k]? = some call) (hid : e.id = UInt64.ofNat k) (hcalls : c'.calls = c.calls)
    (hexecutions : c'.executions = c.executions ++ [{ e with result := some v }])
    (hsettings : c'.settings = c.settings) :
    InOrder m funcs history (l ++ [⟨(i, k), call, v⟩]) i c' where
  served := hserved
  settled := hsettled
  begun k' call' := by rw [hcalls, h.begun]
  performed e' he' := by
    rw [hexecutions] at he'
    rw [hcalls]
    rcases List.mem_append.1 he' with he' | he'
    · obtain ⟨k', call', v', hcall', hid', hresult, hmem⟩ := h.performed e' he'
      exact ⟨k', call', v', hcall', hid', hresult, List.mem_append_left _ hmem⟩
    · rw [List.mem_singleton.1 he']
      exact ⟨k, call, v, hcall, hid, rfl, List.mem_append_right _ List.mem_cons_self⟩
  recorded x hx hi := by
    rw [hexecutions]
    rcases List.mem_append.1 hx with hx | hx
    · obtain ⟨e', he', hid'⟩ := h.recorded x hx hi
      exact ⟨e', List.mem_append_left _ he', hid'⟩
    · rw [List.mem_singleton.1 hx]
      exact ⟨_, List.mem_append_right _ List.mem_cons_self, hid⟩
  returned x hx := h.returned x (hsettings ▸ hx)

end InOrder

/-- No step forgets a call. -/
theorem length_calls_step_le {x : Action V A} (h : step m funcs run s x = some t) (i : ℕ) :
    (s.conn i).calls.length ≤ (t.conn i).calls.length := by
  have hupdate : ∀ {j : ℕ} {c : Connection V F}, (s.conn j).calls.length ≤ c.calls.length →
      (s.conn i).calls.length ≤ (Function.update s.conn j c i).calls.length := by
    intro j c hle
    rw [Function.update_apply]
    split_ifs with hij
    · rwa [hij]
    · exact le_rfl
  cases moves_of_step h with
  | client j a c ha hc => exact hupdate (length_calls_step hc)
  | close j k answers c hc hexecutions => exact hupdate (length_calls_step hc)
  | perform j k answers c c' e h v hc hexecutions hrun hc' hexecutions' hcalls hsettings =>
    exact hupdate ((length_calls_step hc).trans (length_calls_step hc'))

/-- Other clients are not affected by the events of a client. -/
theorem inv_notMem_events (m : Msgpack V) {i j : ℕ} (hij : i ≠ j) (c : Connection V F)
    (a : Connection.Action V) (k : ℕ) (call : Call V) : .inv (i, k) call ∉ events m j c a := by
  cases a with
  | call name args default => simp [events, hij]
  | callback n => simp [events]
  | _ => exact List.not_mem_nil

/-- An action of a client. -/
theorem Ordered.client (h : Ordered m funcs run h₀ s l) (hm : m.RoundTrips) {i : ℕ}
    {a : Connection.Action V} (ha : IsWork a = false) (hc : (s.conn i).step m funcs a = some c)
    (hlen : c.calls.length < 2 ^ 64) :
    Ordered m funcs run h₀
      { s with
        conn := Function.update s.conn i c
        history := s.history ++ events m i (s.conn i) a } l := by
  have hi := h.inOrder i
  obtain ⟨hserved, hsettled⟩ := matched_step hm hi.served hi.settled hc hlen.le
  -- It remains to see what the action does to the client itself.
  have hone : Linearizes (Serves m funcs run) h₀ (s.history ++ events m i (s.conn i) a) l s.host →
      InOrder m funcs (s.history ++ events m i (s.conn i) a) l i c →
      Ordered m funcs run h₀ { s with
        conn := Function.update s.conn i c
        history := s.history ++ events m i (s.conn i) a } l := by
    intro hlinearizes hself
    refine ⟨hlinearizes, fun j => ?_⟩
    by_cases hj : j = i
    · subst hj
      simpa using hself
    · have hother := (h.inOrder j).history_append _ (inv_notMem_events m hj (s.conn i) a)
      simpa [Function.update_of_ne hj] using hother
  have hquiet : events m i (s.conn i) a = [] → c.calls = (s.conn i).calls →
      c.executions = (s.conn i).executions →
      (∀ x ∈ c.settings, x.origin = .response → x ∈ (s.conn i).settings) →
      Ordered m funcs run h₀ { s with
        conn := Function.update s.conn i c
        history := s.history ++ events m i (s.conn i) a } l := by
    intro hevents hcalls hexecutions hsettings
    refine hone ?_ ?_
    · rw [hevents, List.append_nil]
      exact h.linearizes
    · rw [hevents, List.append_nil]
      exact hi.of_quiet hserved hsettled hcalls hexecutions hsettings
  cases a with
  | call name args default =>
    simp only [Connection.step, Option.ite_none_right_eq_some, Option.some.injEq] at hc
    obtain ⟨-, rfl⟩ := hc
    refine hone (h.linearizes.inv _ fun op hop => ?_) (hi.call hserved hsettled)
    rw [hi.begun, List.getElem?_length] at hop
    cases hop
  | receive n =>
    simp only [Connection.step, Option.ite_none_right_eq_some, Option.map_eq_some_iff] at hc
    obtain ⟨-, r, -, rfl⟩ := hc
    exact hquiet rfl rfl rfl fun x hx _ => hx
  | task n => cases ha
  | complete n v => cases ha
  | deliver n =>
    simp only [Connection.step, Option.ite_none_right_eq_some, Option.map_eq_some_iff] at hc
    obtain ⟨-, p, -, rfl⟩ := hc
    obtain ⟨hcalls, -, -, -, hexecutions, -⟩ := clientOnReceive_eq (s.conn i) p
    refine hquiet rfl hcalls hexecutions fun x hx _ => ?_
    rw [Connection.clientOnReceive] at hx
    split at hx <;> exact hx
  | unknown p =>
    simp only [Connection.step, Option.ite_none_right_eq_some, Option.some.injEq] at hc
    obtain ⟨⟨-, hp⟩, rfl⟩ := hc
    rw [Connection.clientOnReceive, hp] at hquiet ⊢
    exact hquiet rfl rfl rfl fun x hx _ => hx
  | callback n =>
    simp only [Connection.step, Option.map_eq_some_iff] at hc
    obtain ⟨cb, hcb, rfl⟩ := hc
    obtain ⟨hlt, v, hcompleted, hpayload⟩ := hi.settled.callback cb (List.mem_of_getElem? hcb)
    have hv : m.unpack cb.2 = v := by rw [hpayload, hm.result]
    have hevents : events m i (s.conn i) (.callback n) = [.ret (i, cb.1) (m.unpack cb.2)] := by
      simp [events, hcb]
    obtain ⟨call, hmem⟩ := hi.mem_effects hlen hlt hcompleted
    rw [hevents, hv] at hone ⊢
    refine hone (h.linearizes.ret hmem) ?_
    have hself := hi.history_append [.ret (i, cb.1) v] (by simp)
    refine ⟨hserved, hsettled, hself.begun, hself.performed, hself.recorded, fun x hx ho => ?_⟩
    rcases List.mem_append.1 hx with hx | hx
    · exact hself.returned x hx ho
    · rw [List.mem_singleton.1 hx, hv]
      exact List.mem_append_right _ List.mem_cons_self
  | disconnect =>
    simp only [Connection.step, Option.some.injEq] at hc
    subst hc
    refine hquiet rfl rfl rfl fun x hx ho => ?_
    rcases List.mem_append.1 hx with hx | hx
    · exact hx
    · obtain ⟨e, -, he⟩ := List.mem_filterMap.1 hx
      obtain ⟨call, -, rfl⟩ := Option.map_eq_some_iff.1 he
      cases ho

/-- Every step keeps the order of the effects, or adds one. -/
theorem Ordered.step (h : Ordered m funcs run h₀ s l) (hm : m.RoundTrips) {x : Action V A}
    (hst : Shared.step m funcs run s x = some t) (hlen : ∀ i, (t.conn i).calls.length < 2 ^ 64) :
    ∃ l', Ordered m funcs run h₀ t l' := by
  cases moves_of_step hst with
  | client i a c ha hc =>
    refine ⟨l, h.client hm ha hc ?_⟩
    simpa using hlen i
  | close i j answers c hc hexecutions =>
    have hi := h.inOrder i
    have hlt : c.calls.length < 2 ^ 64 := by simpa using hlen i
    obtain ⟨hserved, hsettled⟩ := matched_step hm hi.served hi.settled hc hlt.le
    refine ⟨l, h.linearizes, fun k => ?_⟩
    by_cases hk : k = i
    · subst hk
      simp only [Connection.step, Option.bind_eq_some_iff] at hc
      obtain ⟨y, -, hy⟩ := hc
      obtain ⟨hcalls, -, -, -, hsettings, -⟩ := runTask_eq hy
      simpa using hi.of_quiet hserved hsettled hcalls hexecutions fun x hx _ => hsettings ▸ hx
    · simpa [Function.update_of_ne hk] using h.inOrder k
  | perform i j answers c c' e host v hc hexecutions hrun hc' hexecutions' hcalls hsettings =>
    have hi := h.inOrder i
    have hlt' : c'.calls.length < 2 ^ 64 := by simpa using hlen i
    have hlt : c.calls.length < 2 ^ 64 := (length_calls_step hc').trans_lt hlt'
    obtain ⟨hserved, hsettled⟩ := matched_step hm hi.served hi.settled hc hlt.le
    obtain ⟨hserved', hsettled'⟩ := matched_step hm hserved hsettled hc' hlt'.le
    have htask := hc
    simp only [Connection.step, Option.bind_eq_some_iff] at htask
    obtain ⟨y, -, hy⟩ := htask
    obtain ⟨hsame, -, -, -, hsame', -⟩ := runTask_eq hy
    have he : e ∈ c.executions := hexecutions ▸ List.mem_append_right _ List.mem_cons_self
    obtain ⟨k, call, hcall, hid, hf, hargs⟩ := exists_call_of_execution hserved he
    have hcall' : (s.conn i).calls[k]? = some call := hsame ▸ hcall
    -- The call has not taken effect yet, since no execution has its number.
    have hnew : (i, k) ∉ l.map Effected.id := by
      intro hmem
      obtain ⟨x, hx, hxid⟩ := List.mem_map.1 hmem
      obtain ⟨e', he', hid'⟩ := hi.recorded x hx (congrArg Prod.fst hxid)
      have hnodup := nodup_executions hserved
      rw [hexecutions, List.map_append, List.nodup_append] at hnodup
      refine hnodup.2.2 e'.id (List.mem_map_of_mem he') e.id (by simp) ?_
      rw [hid', hid, congrArg Prod.snd hxid]
    refine ⟨l ++ [⟨(i, k), call, v⟩], ?_, fun n => ?_⟩
    · exact h.linearizes.effect ((hi.begun k call).2 hcall') hnew ⟨answers, e.func, e.args, hf,
        hargs, hrun⟩
    · by_cases hn : n = i
      · subst hn
        simpa using hi.perform hserved' hsettled' hcall' hid (hcalls.trans hsame) hexecutions'
          (hsettings.trans hsame')
      · have hne : (⟨(i, k), call, v⟩ : Effected (ℕ × ℕ) (Call V) V).id.1 ≠ n := Ne.symm hn
        simpa [Function.update_of_ne hn] using (h.inOrder n).effects_concat hne

/-- The calls of every run have taken effect in some order. -/
theorem exists_ordered (hm : m.RoundTrips) {xs : List (Action V A)}
    (hrun : exec (step m funcs run) (start h₀) xs = some s)
    (hlen : ∀ i, (s.conn i).calls.length < 2 ^ 64) : ∃ l, Ordered m funcs run h₀ s l := by
  refine exec_induction (fun _ s => (∀ i, (s.conn i).calls.length < 2 ^ 64) →
    ∃ l, Ordered m funcs run h₀ s l) (fun _ => ⟨[], ordered_start⟩) ?_ hrun hlen
  intro _ s x t _ ih hst hlen
  obtain ⟨l, hl⟩ := ih fun i => (length_calls_step_le hst i).trans_lt (hlen i)
  exact hl.step hm hst hlen

/-- **Calls on a shared server are linearizable.** Take any run of any number of clients of one
server, each with fewer than `2 ^ 64` calls that it does not wait for, with functions that set their
futures at once and a server that runs them one after the other. The history of the calls, from the
call to the setting of its future by a response, is linearizable: the calls that have taken effect
can be ordered so that the machine goes through them one by one, every value that a client got is
the one of its call in this order, and a call whose value was there before another call was made
comes before it.

Source: `src/rpc/rpc.h`, lines 74–271 and 479–532; `src/rpc/rpc.cc`, lines 116–173 and 224–274. -/
theorem calls_linearizable (m : Msgpack V) (hm : m.RoundTrips)
    (funcs : Std.ExtTreeMap Str (RPCFunc F)) (run : A → F → List V → H → Option (H × V)) (h₀ : H)
    (xs : List (Action V A)) (s : Shared V H F)
    (hrun : exec (step m funcs run) (start h₀) xs = some s)
    (hlen : ∀ i, (s.conn i).calls.length < 2 ^ 64) :
    (∃ l, Linearizes (Serves m funcs run) h₀ s.history l s.host) ∧
    (∀ i k call, .inv (i, k) call ∈ s.history ↔ (s.conn i).calls[k]? = some call) ∧
    ∀ i, ∀ x ∈ (s.conn i).settings, x.origin = .response →
      .ret (i, x.call) x.value ∈ s.history := by
  obtain ⟨l, hl⟩ := exists_ordered hm hrun hlen
  exact ⟨⟨l, hl.linearizes⟩, fun i => (hl.inOrder i).begun, fun i => (hl.inOrder i).returned⟩

/-- The client whose connection an action is about. -/
def Action.on : Action V A → ℕ
  | .client i _ => i
  | .task i _ _ => i

/-- A connection changes only by what is done with it. -/
theorem conn_eq_start {xs : List (Action V A)}
    (hrun : exec (step m funcs run) (start h₀) xs = some s) {i : ℕ} (hi : ∀ x ∈ xs, x.on ≠ i) :
    s.conn i = .start := by
  refine exec_induction (fun xs s => (∀ x ∈ xs, Action.on x ≠ i) → s.conn i = .start)
    (fun _ => rfl) ?_ hrun hi
  intro xs s x t _ ih hst hi
  have hs := ih fun y hy => hi y (List.mem_append_left _ hy)
  have hx : x.on ≠ i := hi x (List.mem_append_right _ List.mem_cons_self)
  cases moves_of_step hst with
  | client j a c ha hc => exact (Function.update_of_ne (Ne.symm hx) _ _).trans hs
  | close j k answers c hc hexecutions => exact (Function.update_of_ne (Ne.symm hx) _ _).trans hs
  | perform j k answers c c' e h v hc hexecutions hrun hc' hexecutions' hcalls hsettings =>
    exact (Function.update_of_ne (Ne.symm hx) _ _).trans hs

/-- The machine is a number: one function writes the sum of its arguments and returns what was
there, the other one reads. -/
def register : Unit → ℕ → List (Fin 128) → Fin 128 → Option (Fin 128 × Fin 128)
  | _, 0, [a, b], h => some (a + b, h)
  | _, 1, [], h => some (h, h)
  | _, _, _, _ => none

/-- One client writes and reads without waiting, another one reads; the tasks run in another
order. -/
def writeReadRead : List (Action (Fin 128) Unit) :=
  [.client 0 (.call [102] [small 1, small 2] (small 0)), .client 0 (.call [103] [] (small 0)),
    .client 1 (.call [103] [] (small 0)), .client 0 (.receive 0), .client 0 (.receive 0),
    .client 1 (.receive 0), .task 1 0 (), .task 0 0 (), .task 0 0 (), .client 1 (.deliver 0),
    .client 1 (.callback 0), .client 0 (.deliver 1), .client 0 (.callback 0)]

theorem calls_linearizable_writeReadRead :
    ∃ s, exec (step fixint twoFuncs register) (start (small 0)) writeReadRead = some s ∧
      s.host = small 3 ∧ (s.conn 1).settings = [⟨0, small 0, .response⟩] ∧
      (s.conn 0).settings = [⟨1, small 3, .response⟩] ∧
      ∃ l, Linearizes (Serves fixint twoFuncs register) (small 0) s.history l s.host := by
  have hend : (exec (step fixint twoFuncs register) (start (small 0)) writeReadRead).map
      (fun s => (s.host, (s.conn 1).settings, (s.conn 0).settings, (s.conn 0).calls.length,
        (s.conn 1).calls.length)) =
        some (small 3, [⟨0, small 0, .response⟩], [⟨1, small 3, .response⟩], 2, 1) := by
    decide +kernel
  obtain ⟨s, hs, hstate⟩ := Option.map_eq_some_iff.1 hend
  simp only [Prod.mk.injEq] at hstate
  obtain ⟨hhost, hone, hzero, hcalls₀, hcalls₁⟩ := hstate
  have hlen : ∀ i, (s.conn i).calls.length < 2 ^ 64 := by
    intro i
    by_cases hi : i = 0 ∨ i = 1
    · rcases hi with rfl | rfl
      · rw [hcalls₀]
        decide
      · rw [hcalls₁]
        decide
    · have hnone : ∀ x ∈ writeReadRead, x.on ≠ i := by
        have hon : ∀ x ∈ writeReadRead, x.on = 0 ∨ x.on = 1 := by decide
        exact fun x hx heq => hi (heq ▸ hon x hx)
      rw [conn_eq_start hs hnone]
      decide
  refine ⟨s, hs, hhost, hone, hzero, ?_⟩
  exact (calls_linearizable fixint fixint_roundTrips twoFuncs register (small 0) writeReadRead s hs
    hlen).1

end Shared

end RawDish.Rpc.Connection
