import RawDish.Rpc.Connection

/-!
# A call that is waited for

A client that waits for the result of every call before it makes the next one leaves nothing under
way on the connection between two calls (`Connection.Idle`). Then a call is a fixed sequence of
actions: it is written, received and dispatched, the function runs, and the response is written,
received and handed to the future of the call (`Connection.awaited`). The function runs on a state
`H` of the host of the server.

## Main definitions

* `Connection.Idle`, `Connection.awaited`.

## Main results

* `Connection.awaited_eq_some` : an awaited call is a call of the registered function.

## References

* `src/rpc/rpc.h`, lines 74–271 and 479–532; `src/rpc/rpc.cc`, lines 116–173 and 240–274.
-/

namespace RawDish.Rpc.Connection

open Lib

variable {V F H : Type}

/-- The connection is up and nothing is under way. -/
structure Idle (s : Connection V F) : Prop where
  connected : s.connected = true
  serving : s.serving = true
  requests : s.requests = []
  tasks : s.tasks = []
  callbacks : s.callbacks = []
  respCallbacks : s.respCallbacks = ∅

theorem idle_start : Idle (start : Connection V F) := ⟨rfl, rfl, rfl, rfl, rfl, rfl⟩

/-- A call from the moment it is made until its future is set. The future that the function returns
is set at once. There is no result when the function that was registered under the name does not
run or does not return. -/
def awaited (m : Msgpack V) (funcs : Std.ExtTreeMap Str (RPCFunc F))
    (run : F → List V → H → Option (H × V)) (s : Connection V F) (h : H) (c : Call V) :
    Option ((Connection V F × H) × V) :=
  (exec (step m funcs) s [.call c.name c.args c.default, .receive 0, .task 0]).bind fun t =>
    t.executions[s.executions.length]?.bind fun e =>
      (run e.func.func e.args h).bind fun r =>
        (exec (step m funcs) t [.complete s.executions.length r.2, .deliver s.responses.length,
          .callback 0]).bind fun u =>
            u.settings[s.settings.length]?.map fun x => ((u, r.1), x.value)

section Awaited

variable {m : Msgpack V} {funcs : Std.ExtTreeMap Str (RPCFunc F)} {s t : Connection V F}

/-- The arguments of a call as the function gets them. -/
theorem deserializeArgs_packArgs (hm : m.RoundTrips) {f : RPCFunc F} {args : List V}
    (harity : f.arity = args.length) (hlen : args.length ≤ 5) :
    deserializeArgs m f (m.packArgs args) = some args := by
  rw [deserializeArgs, harity, hm.args args hlen]
  split_ifs with hzero
  · rw [List.length_eq_zero_iff.1 hzero]
  · rfl

/-- The connection when the function of a call runs. -/
def dispatched (m : Msgpack V) (f : RPCFunc F) (s : Connection V F) (c : Call V) :
    Connection V F :=
  { s with
    calls := s.calls ++ [c]
    respCallbacks := s.respCallbacks.insert s.reqId s.calls.length
    reqId := s.reqId + 1
    received := s.received ++ [⟨s.reqId, c.name, m.packArgs c.args⟩]
    executions := s.executions ++ [⟨s.reqId, f, m.packArgs c.args, c.args, none⟩] }

/-- The call reaches its function. -/
theorem exec_request (hm : m.RoundTrips) (hs : Idle s) {c : Call V} {f : RPCFunc F}
    (hf : funcs[c.name]? = some f) (harity : f.arity = c.args.length) (hlen : c.args.length ≤ 5) :
    exec (step m funcs) s [.call c.name c.args c.default, .receive 0, .task 0] =
      some (s.dispatched m f c) := by
  have hargs := deserializeArgs_packArgs hm harity hlen
  obtain ⟨hconnected, hserving, hrequests, htasks, -, -⟩ := hs
  simp [exec, step, hlen, call, hconnected, hserving, hrequests, htasks, serverOnReceive, hf,
    runTask, hargs, dispatched]

/-- The response reaches the future, and nothing is left under way. -/
theorem exec_response (hm : m.RoundTrips) (hs : Idle s) (f : RPCFunc F) (c : Call V) (v : V) :
    ∃ t, Idle t ∧ t.settings = s.settings ++ [⟨s.calls.length, v, .response⟩] ∧
      exec (step m funcs) (s.dispatched m f c)
        [.complete s.executions.length v, .deliver s.responses.length, .callback 0] = some t := by
  have hempty : (s.respCallbacks.insert s.reqId s.calls.length).erase s.reqId = ∅ := by
    rw [hs.respCallbacks]
    refine Std.ExtTreeMap.ext_getElem? fun id => ?_
    by_cases hid : s.reqId = id <;> simp [hid]
  obtain ⟨hconnected, hserving, hrequests, htasks, hcallbacks, -⟩ := hs
  simp only [exec, step, dispatched, List.getElem?_concat_length, Option.bind_some,
    Option.isNone_none, if_true, complete, hserving, hconnected, Option.map_some, clientOnReceive,
    Std.ExtTreeMap.getElem?_insert_self, hcallbacks, List.nil_append, List.getElem?_cons_zero,
    List.eraseIdx_cons_zero, deserializeFuture, hm.result, hempty]
  refine ⟨_, ?_, ?_, rfl⟩
  · exact ⟨rfl, rfl, hrequests, htasks, rfl, rfl⟩
  · rfl

/-- **An awaited call.** On an idle connection it calls the function that is registered under the
name with the arguments of the call, returns what the function returns and leaves the connection
idle. -/
theorem awaited_eq_some (hm : m.RoundTrips) {run : F → List V → H → Option (H × V)} (hs : Idle s)
    {c : Call V} {f : RPCFunc F} (hf : funcs[c.name]? = some f)
    (harity : f.arity = c.args.length) (hlen : c.args.length ≤ 5) {h : H} {r : H × V}
    (hr : run f.func c.args h = some r) :
    ∃ t, Idle t ∧ awaited m funcs run s h c = some ((t, r.1), r.2) := by
  have hexecution : (s.dispatched m f c).executions[s.executions.length]? =
      some ⟨s.reqId, f, m.packArgs c.args, c.args, none⟩ := List.getElem?_concat_length
  obtain ⟨t, ht, hsettings, hexec⟩ := exec_response hm hs f c r.2
  refine ⟨t, ht, ?_⟩
  rw [awaited, exec_request hm hs hf harity hlen, Option.bind_some, hexecution, Option.bind_some,
    hr, Option.bind_some, hexec, Option.bind_some, hsettings, List.getElem?_concat_length,
    Option.map_some]

end Awaited

end RawDish.Rpc.Connection
