import RawDish.Rpc.Streamed

/-!
# No call is lost on a connection

While both ends of a connection are up, a call whose future is not set has its request or its
response somewhere: in the stream to the server, deferred as a task, with an execution whose future
is not set, in the stream to the client, or enqueued at the client. When all bytes have arrived and
nothing is left to run, every call has therefore been answered, and by its own execution.

## Main definitions

* `Streamed.Underway`, `Streamed.Pending` : where the requests of the calls that wait are.
* `Streamed.Quiet` : all bytes have arrived and nothing is left to run.

## Main results

* `Streamed.Pending.step` : no step loses a call that waits.
* `Streamed.calls_answered`.

## References

* `src/rpc/rpc.h`, lines 74–271 and 479–532; `src/rpc/rpc.cc`, lines 110–173 and 224–274.
-/

namespace RawDish.Rpc.Connection.Streamed

open Lib

variable {V F O : Type} {m : Msgpack V} {w : Wire O} {funcs : Std.ExtTreeMap Str (RPCFunc F)}
  {s : Streamed V F} {c c' : Connection V F} {ps ps' : List Response}

/-- The request with the number `id` is on its way, deferred or executing, or its response is on its
way. -/
def Underway (c : Connection V F) (ps : List Response) (id : UInt64) : Prop :=
  (∃ r ∈ c.requests, r.id = id) ∨ (∃ f buf, .deferredRPCCall id f buf ∈ c.tasks) ∨
    (∃ e ∈ c.executions, e.id = id ∧ e.result = none) ∨ ∃ p ∈ ps, p.id = id

/-- While both ends are up and the server is not about to close, the calls that wait are under way,
and only responses have set futures. -/
structure Pending (c : Connection V F) (ps : List Response) : Prop where
  underway : c.connected = true → c.serving = true → .disconnect ∉ c.tasks →
    ∀ k, c.respCallbacks[UInt64.ofNat k]? = some k → Underway c ps (UInt64.ofNat k)
  origin : c.connected = true → ∀ x ∈ c.settings, x.origin = .response

theorem pending_start : Pending (.start : Connection V F) [] := by
  refine ⟨fun _ _ _ k hk => ?_, fun _ x hx => absurd hx List.not_mem_nil⟩
  simp [Connection.start] at hk

/-- The new call has its request on the way. -/
theorem Pending.call (h : Pending c ps) (x : Call V) : Pending (c.call m x) ps := by
  refine ⟨fun hconnected hserving htasks k hk => ?_, h.origin⟩
  have hrequests : (c.call m x).requests =
      c.requests ++ [⟨c.reqId, x.name, m.packArgs x.args⟩] := if_pos hconnected
  by_cases hid : c.reqId = UInt64.ofNat k
  · exact Or.inl ⟨⟨c.reqId, x.name, m.packArgs x.args⟩, by simp [hrequests], hid⟩
  · have hold : c.respCallbacks[UInt64.ofNat k]? = some k := by
      simpa [Connection.call, Std.ExtTreeMap.getElem?_insert, hid] using hk
    rcases h.underway hconnected hserving htasks k hold with ⟨r, hr, hid⟩ | hrest
    · exact Or.inl ⟨r, by simp [hrequests, hr], hid⟩
    · exact Or.inr hrest

theorem Pending.serverOnReceive (h : Pending c ps) {r : Request} {pre post : List Request}
    (hr : c.requests = pre ++ r :: post) :
    Pending ({ c with requests := pre ++ post }.serverOnReceive funcs r) ps := by
  refine ⟨fun hconnected hserving htasks k hk => ?_, h.origin⟩
  -- The name of the request is registered, since the server would be about to close.
  obtain ⟨f, hf⟩ : ∃ f, funcs[r.name]? = some f := by
    cases hf : funcs[r.name]? with
    | some f => exact ⟨f, rfl⟩
    | none =>
      refine absurd ?_ htasks
      simp [Connection.serverOnReceive, hf]
  have htasks' : ({ c with requests := pre ++ post }.serverOnReceive funcs r).tasks =
      c.tasks ++ [.deferredRPCCall r.id f r.args] := by simp [Connection.serverOnReceive, hf]
  rw [htasks', List.mem_append, not_or] at htasks
  rcases h.underway hconnected hserving htasks.1 k hk with
    ⟨r', hr', hid⟩ | ⟨f', buf, hx⟩ | hrest
  · rw [hr, List.mem_append, List.mem_cons] at hr'
    rcases hr' with hr' | rfl | hr'
    · exact Or.inl ⟨r', List.mem_append_left _ hr', hid⟩
    · exact Or.inr (Or.inl ⟨f, r'.args, by simp [htasks', hid]⟩)
    · exact Or.inl ⟨r', List.mem_append_right _ hr', hid⟩
  · exact Or.inr (Or.inl ⟨f', buf, by rw [htasks']; exact List.mem_append_left _ hx⟩)
  · exact Or.inr (Or.inr hrest)

theorem Pending.runTask (h : Pending c ps) {x : ServerTask F} {pre post : List (ServerTask F)}
    (hx : c.tasks = pre ++ x :: post)
    (ht : { c with tasks := pre ++ post }.runTask m x = some c') : Pending c' ps := by
  cases x with
  | disconnect =>
    simp only [Connection.runTask, Option.some.injEq] at ht
    subst ht
    exact ⟨fun _ hserving => absurd hserving Bool.false_ne_true, h.origin⟩
  | deferredRPCCall id f buf =>
    simp only [Connection.runTask, Option.map_eq_some_iff] at ht
    obtain ⟨args, -, rfl⟩ := ht
    refine ⟨fun hconnected hserving htasks k hk => ?_, h.origin⟩
    have htasks' : ServerTask.disconnect ∉ c.tasks := by
      rw [hx]
      simpa using htasks
    rcases h.underway hconnected hserving htasks' k hk with
      hreq | ⟨f', buf', hmem⟩ | ⟨e, he, hid⟩ | hresp
    · exact Or.inl hreq
    · rw [hx, List.mem_append, List.mem_cons] at hmem
      rcases hmem with hmem | heq | hmem
      · exact Or.inr (Or.inl ⟨f', buf', List.mem_append_left _ hmem⟩)
      · obtain ⟨rfl, -⟩ := ServerTask.deferredRPCCall.inj heq
        exact Or.inr (Or.inr (Or.inl ⟨_, List.mem_append_right _ List.mem_cons_self, rfl, rfl⟩))
      · exact Or.inr (Or.inl ⟨f', buf', List.mem_append_right _ hmem⟩)
    · exact Or.inr (Or.inr (Or.inl ⟨e, List.mem_append_left _ he, hid⟩))
    · exact Or.inr (Or.inr (Or.inr hresp))

/-- An execution that completes has its response on the way. -/
theorem Pending.complete (h : Pending c ps) {j : ℕ} {e : Execution V F}
    (he : c.executions[j]? = some e) (v : V) {new : List Response}
    (hnew : (c.complete m j e v).responses = c.responses ++ new) :
    Pending (c.complete m j e v) (ps ++ new) := by
  refine ⟨fun hconnected hserving htasks k hk => ?_, h.origin⟩
  obtain rfl : new = [⟨e.id, m.pack v⟩] := by
    rw [Connection.complete, if_pos (show c.serving = true from hserving)] at hnew
    exact (List.append_cancel_left hnew).symm
  rcases h.underway hconnected hserving htasks k hk with
    hreq | htask | ⟨e', he', hid, hnone⟩ | ⟨p, hp, hid⟩
  · exact Or.inl hreq
  · exact Or.inr (Or.inl htask)
  · obtain ⟨i, hi⟩ := List.mem_iff_getElem?.1 he'
    by_cases hij : j = i
    · subst hij
      obtain rfl : e = e' := Option.some.inj (he.symm.trans hi)
      exact Or.inr (Or.inr (Or.inr ⟨_, List.mem_append_right _ List.mem_cons_self, hid⟩))
    · refine Or.inr (Or.inr (Or.inl ⟨e', List.mem_iff_getElem?.2 ⟨i, ?_⟩, hid, hnone⟩))
      rw [Connection.complete, List.getElem?_set_ne hij, hi]
  · exact Or.inr (Or.inr (Or.inr ⟨p, List.mem_append_left _ hp, hid⟩))

/-- A response that is delivered is the one that its call waited for. -/
theorem Pending.clientOnReceive {p : Response} (h : Pending c (p :: ps)) :
    Pending (c.clientOnReceive p) ps := by
  obtain ⟨-, hreq, -, htasks, hexec, -⟩ := clientOnReceive_eq c p
  have hsettings : (c.clientOnReceive p).settings = c.settings := by
    rw [Connection.clientOnReceive]
    split <;> rfl
  have hserving : (c.clientOnReceive p).serving = c.serving := by
    rw [Connection.clientOnReceive]
    split <;> rfl
  have hcallbacks : ∀ id, (c.clientOnReceive p).respCallbacks[id]? =
      if p.id = id then none else c.respCallbacks[id]? := by
    intro id
    rw [Connection.clientOnReceive]
    cases hp : c.respCallbacks[p.id]? with
    | some k => simp only [Std.ExtTreeMap.getElem?_erase, Std.compare_eq_iff_eq]
    | none =>
      split_ifs with hid
      · rw [← hid, hp]
      · rfl
  refine ⟨fun hconnected hserving' htasks' k hk => ?_, fun hconnected => ?_⟩
  · rw [connected_clientOnReceive] at hconnected
    rw [hserving] at hserving'
    rw [htasks] at htasks'
    rw [hcallbacks] at hk
    split_ifs at hk with hid
    have hunderway := h.underway hconnected hserving' htasks' k hk
    rw [Underway, hreq, htasks, hexec]
    refine hunderway.imp id (Or.imp id (Or.imp id ?_))
    rintro ⟨p', hp', hid'⟩
    rcases List.mem_cons.1 hp' with rfl | hp'
    · exact absurd hid' hid
    · exact ⟨p', hp', hid'⟩
  · rw [hsettings]
    exact h.origin (connected_clientOnReceive c p ▸ hconnected)

/-- No step loses a call that waits. -/
theorem Pending.step (h : Pending c ps) {a : Connection.Action V}
    {d : Connection V F × List Response} (hst : orderedStep m funcs (c, ps) a = some d) :
    Pending d.1 d.2 := by
  rcases orderedStep_cases hst with ⟨p, rfl, -, hd⟩ | ⟨new, hne, hstep, hnew, hd⟩
  · rw [hd]
    exact h.clientOnReceive
  · obtain ⟨c', ps'⟩ := d
    simp only at hstep hnew hd
    subst hd
    have hnil : c'.responses = c.responses → new = [] := fun heq => by
      rw [heq] at hnew
      exact List.self_eq_append_right.1 hnew
    cases a with
    | call name args default =>
      simp only [Connection.step, Option.ite_none_right_eq_some, Option.some.injEq] at hstep
      obtain ⟨-, rfl⟩ := hstep
      rw [hnil rfl, List.append_nil]
      exact h.call _
    | receive i =>
      simp only [Connection.step, Option.ite_none_right_eq_some, Option.map_eq_some_iff] at hstep
      obtain ⟨-, r, hr, rfl⟩ := hstep
      obtain ⟨pre, post, hsplit, -, herase⟩ := split_of_getElem? hr
      rw [hnil rfl, List.append_nil, herase]
      exact h.serverOnReceive hsplit
    | task i =>
      simp only [Connection.step, Option.bind_eq_some_iff] at hstep
      obtain ⟨x, hx, ht⟩ := hstep
      obtain ⟨pre, post, hsplit, -, herase⟩ := split_of_getElem? hx
      rw [herase] at ht
      have hresponses : c'.responses = c.responses := by
        cases x with
        | disconnect =>
          simp only [Connection.runTask, Option.some.injEq] at ht
          rw [← ht]
        | deferredRPCCall id f buf =>
          simp only [Connection.runTask, Option.map_eq_some_iff] at ht
          obtain ⟨args, -, rfl⟩ := ht
          rfl
      rw [hnil hresponses, List.append_nil]
      exact h.runTask hsplit ht
    | complete j v =>
      simp only [Connection.step, Option.bind_eq_some_iff, Option.ite_none_right_eq_some,
        Option.some.injEq] at hstep
      obtain ⟨e, he, -, rfl⟩ := hstep
      exact h.complete he v hnew
    | deliver i => exact absurd rfl (hne i)
    | unknown p =>
      simp only [Connection.step, Option.ite_none_right_eq_some, Option.some.injEq] at hstep
      obtain ⟨⟨-, hp⟩, rfl⟩ := hstep
      rw [Connection.clientOnReceive, hp] at hnil ⊢
      rw [hnil rfl, List.append_nil]
      exact h
    | callback i =>
      simp only [Connection.step, Option.map_eq_some_iff] at hstep
      obtain ⟨cb, -, rfl⟩ := hstep
      rw [hnil rfl, List.append_nil]
      refine ⟨h.underway, fun hconnected x hx => ?_⟩
      rcases List.mem_append.1 hx with hx | hx
      · exact h.origin hconnected x hx
      · rw [List.mem_singleton.1 hx]
    | disconnect =>
      simp only [Connection.step, Option.some.injEq] at hstep
      subst hstep
      exact ⟨fun hconnected => absurd hconnected Bool.false_ne_true,
        fun hconnected => absurd hconnected Bool.false_ne_true⟩

theorem pending_of_exec {bs : List (Connection.Action V)} {d : Connection V F × List Response}
    (h : exec (orderedStep m funcs) (.start, []) bs = some d) : Pending d.1 d.2 :=
  exec_induction (fun _ d => Pending d.1 d.2) pending_start
    (fun _ _ _ _ _ hs hst => hs.step hst) h

/-! ### Quiet connections -/

/-- All bytes have arrived, no task or callback is enqueued, and the functions that ran have set
their futures. -/
structure Quiet (s : Streamed V F) : Prop where
  toServer : s.toServer = []
  tasks : s.conn.tasks = []
  executions : ∀ e ∈ s.conn.executions, e.result ≠ none
  toClient : s.toClient = []
  callbacks : s.conn.callbacks = []

/-- The setting of a future by a response has the value of the execution of the call. -/
theorem exists_execution_of_setting (hm : m.RoundTrips) (hserved : Served m funcs c)
    (hsettled : Settled m c) (hlen : c.calls.length < 2 ^ 64) {x : Setting V} (hx : x ∈ c.settings)
    (horigin : x.origin = .response) {call : Call V} (hcall : c.calls[x.call]? = some call) :
    ∃ e ∈ c.executions, e.Runs funcs x.call call ∧ e.result = some x.value := by
  obtain ⟨call', hcall', hvalue⟩ := hsettled.setting x hx
  rw [horigin] at hvalue
  obtain ⟨e, he, hid, hv⟩ := hvalue
  obtain ⟨k, call'', hcall'', hruns⟩ := hserved.runs hm he
  obtain rfl : k = x.call := by
    refine ofNat_inj ?_ ?_ (hruns.id_eq.symm.trans hid)
    · exact (List.getElem?_eq_some_iff.1 hcall'').1.trans hlen
    · exact (List.getElem?_eq_some_iff.1 hcall).1.trans hlen
  obtain rfl : call'' = call := Option.some.inj (hcall''.symm.trans hcall)
  exact ⟨e, he, hruns, hv⟩

/-- **Every call is answered.** Take any run of both ends of a connection with fewer than `2 ^ 64`
calls, with the two streams of bytes cut into buffers in any way, tasks and callbacks run in any
order and futures set in any order, after which both ends are still up. When all bytes have arrived
and nothing is left to run, the future of every call has been set exactly once, with the value that
the execution of this very call has returned: of the function registered under its name, on its
arguments.

Source: `src/rpc/rpc.h`, lines 74–271 and 479–532; `src/rpc/rpc.cc`, lines 110–173 and 224–274. -/
theorem calls_answered (w : Wire O) (hw : w.RoundTrips) (m : Msgpack V) (hm : m.RoundTrips)
    (funcs : Std.ExtTreeMap Str (RPCFunc F)) (as : List (Action V)) (s : Streamed V F)
    (hrun : exec (step m w funcs) start as = some s) (hlen : s.conn.calls.length < 2 ^ 64)
    (hquiet : Quiet s) (hup : s.conn.connected = true ∧ s.conn.serving = true) (k : ℕ)
    (call : Call V) (hcall : s.conn.calls[k]? = some call) :
    ∃ e ∈ s.conn.executions, ∃ v, e.Runs funcs k call ∧ e.result = some v ∧
      s.conn.settings.filter (fun x => x.call = k) = [⟨k, v, .response⟩] := by
  obtain ⟨bs, ⟨c, ps⟩, hbs, hcarries⟩ := carries_of_exec hw hrun
  obtain ⟨bs', hbs', -⟩ := exec_of_ordered hbs
  have hpending := pending_of_exec hbs
  have hps := hcarries.responses_eq_nil hw hquiet.toClient
  have hrequests := hcarries.requests_eq_nil hw hquiet.toServer
  simp only at hbs' hpending hps hrequests
  -- The connection with messages has the same ends.
  obtain ⟨-, htasks, hexecutions, -, hcallbacks⟩ := hquiet
  rw [hcarries.conn, ends] at hlen htasks hexecutions hcallbacks hup hcall ⊢
  simp only at hlen htasks hexecutions hcallbacks hup hcall ⊢
  obtain ⟨hserved, hsettled⟩ := matched_of_exec hm hbs' hlen.le
  have hk : k < c.calls.length := (List.getElem?_eq_some_iff.1 hcall).1
  have hstored : stored c k = 0 := by
    refine if_neg fun hwaits => ?_
    rcases hpending.underway hup.1 hup.2 (by simp [htasks]) k hwaits with
      ⟨r, hr, -⟩ | ⟨f, buf, hx⟩ | ⟨e, he, -, hnone⟩ | ⟨p, hp, -⟩
    · simp [hrequests] at hr
    · simp [htasks] at hx
    · exact hexecutions e he hnone
    · simp [hps] at hp
  have hcount := hsettled.once k hk
  rw [hstored, hcallbacks, List.countP_nil, Nat.zero_add,
    List.countP_eq_length_filter, List.length_eq_one_iff] at hcount
  obtain ⟨x, hx⟩ := hcount
  obtain ⟨hmem, hxk⟩ : x ∈ c.settings ∧ x.call = k := by
    have hxmem : x ∈ c.settings.filter fun x => x.call = k := hx ▸ List.mem_cons_self
    simpa using hxmem
  subst hxk
  have horigin := hpending.origin hup.1 x hmem
  obtain ⟨e, he, hruns, hv⟩ :=
    exists_execution_of_setting hm hserved hsettled hlen hmem horigin hcall
  refine ⟨e, he, x.value, hruns, hv, ?_⟩
  rw [hx, ← horigin]

/-- The response of the call arrives in two buffers as well. -/
def cutResponse : List (Action (Fin 128)) :=
  cutRequest ++ [.clientReceive 1, .clientReceive 3, .callback 0]

/-- The connection after it. -/
def cutResponseEnd : Streamed (Fin 128) ℕ where
  conn :=
    { cutRequestEnd.conn with
      respCallbacks := ((∅ : Std.ExtTreeMap UInt64 ℕ).insert 0 0).erase 0
      settings := [⟨0, small 7, .response⟩] }
  toServer := []
  serverPac := []
  toClient := []
  clientPac := []

theorem exec_cutResponse :
    exec (step fixint standardWire twoFuncs) start cutResponse = some cutResponseEnd := by
  have hnone : standardWire.next [0x92] = none := by decide
  have hsome : standardWire.next ([0x92] ++ [0, 0xa1, 7]) =
      some (responseTuple ⟨0, [7]⟩, []) := by decide
  have hfirst : ∀ c : Connection (Fin 128) ℕ,
      feed standardWire.toUnpacker (handleResponse standardWire) (c, []) [0x92] =
        some (c, [0x92]) := fun c => drain_of_next_eq_none hnone c
  have hsecond : ∀ c : Connection (Fin 128) ℕ,
      feed standardWire.toUnpacker (handleResponse standardWire) (c, [0x92]) [0, 0xa1, 7] =
        some (c.clientOnReceive ⟨0, [7]⟩, []) := fun c => by
    rw [feed, drain_of_next_eq_some hsome]
    exact drain_of_next_eq_none (next_nil _) _
  refine exec_append_eq_some.2 ⟨_, exec_cutRequest, ?_⟩
  refine exec_cons_eq_some.2 ⟨_, step_clientReceive rfl (by decide) (by decide) (hfirst _), ?_⟩
  refine exec_cons_eq_some.2 ⟨_, step_clientReceive rfl (by decide) (by decide) (hsecond _), ?_⟩
  rfl

theorem calls_answered_cutResponse :
    fixint.RoundTrips ∧ standardWire.RoundTrips ∧
    exec (step fixint standardWire twoFuncs) start cutResponse = some cutResponseEnd ∧
    Quiet cutResponseEnd ∧
    ∃ e ∈ cutResponseEnd.conn.executions, ∃ v,
      e.Runs twoFuncs 0 ⟨[102], [small 1, small 2], small 0⟩ ∧ e.result = some v ∧
      cutResponseEnd.conn.settings.filter (fun x => x.call = 0) = [⟨0, v, .response⟩] := by
  have hquiet : Quiet cutResponseEnd := by
    refine ⟨rfl, rfl, fun e he => ?_, rfl, rfl⟩
    rw [List.mem_singleton.1 he]
    exact Option.some_ne_none (small 7)
  exact ⟨fixint_roundTrips, standardWire_roundTrips, exec_cutResponse, hquiet,
    calls_answered standardWire standardWire_roundTrips fixint fixint_roundTrips twoFuncs
      cutResponse cutResponseEnd exec_cutResponse (by decide) hquiet ⟨rfl, rfl⟩ 0
      ⟨[102], [small 1, small 2], small 0⟩ rfl⟩

end RawDish.Rpc.Connection.Streamed
