import RawDish.Rpc.Framing

/-!
# A connection as two streams of bytes

In `Connection` the requests and responses on their way are lists of messages, from which any one
may arrive next. What the two ends of a socket exchange are two streams of bytes: a call appends the
bytes of its request to one, a result that is ready appends those of its response to the other, and
a buffer that arrives holds the next bytes of a stream, cut anywhere, also within a message.
`Streamed` is the connection at this level, with what the two unpackers keep.

It refines the connection with messages (`Streamed.rpc_over_streams`). The bytes that are kept or on
their way are always those of a list of complete messages, a buffer is the receipt of the messages
that it completes, in their order, and no buffer makes a conversion fail.

## Main definitions

* `Streamed`, `Streamed.step` : both ends and the bytes between them.
* `Streamed.Carries` : the streams carry the messages of a connection.

## Main results

* `Streamed.Carries.step` : every step is matched by a run of the connection with messages.
* `Streamed.rpc_over_streams`.

## References

* `src/rpc/rpc.h`, lines 102–173 and 479–532; `src/rpc/rpc.cc`, lines 110–173 and 224–274.
-/

namespace RawDish.Rpc.Connection

open Lib

/-- Both ends of a connection and the bytes between them. The requests and responses are in the
streams, so that these lists of `conn` stay empty. -/
structure Streamed (V F : Type) where
  conn : Connection V F
  /-- Bytes that the client has written and that have not arrived. -/
  toServer : IOBuffer
  /-- What the unpacker of the server keeps. -/
  serverPac : IOBuffer
  toClient : IOBuffer
  clientPac : IOBuffer

namespace Streamed

variable {V F O : Type}

/-- What can happen next: as in `Connection.Action`, with a buffer of `n` bytes that arrives in the
place of one message. -/
inductive Action (V : Type)
  | call (name : Str) (args : List V) (default : V)
  | serverReceive (n : ℕ)
  | task (i : ℕ)
  | complete (j : ℕ) (value : V)
  | clientReceive (n : ℕ)
  | callback (i : ℕ)
  | disconnect

def start : Streamed V F := ⟨.start, [], [], [], []⟩

/-- `RPCClient::call`. -/
def call (m : Msgpack V) (w : Wire O) (s : Streamed V F) (c : Call V) : Streamed V F :=
  { s with
    conn := { s.conn.call m c with requests := [] }
    toServer := if s.conn.connected then s.toServer ++ serializeArgs m w s.conn.reqId c
      else s.toServer }

/-- `serializeFuture` and `responseCallback`. -/
def complete (m : Msgpack V) (w : Wire O) (s : Streamed V F) (j : ℕ) (e : Execution V F) (v : V) :
    Streamed V F :=
  { s with
    conn := { s.conn.complete m j e v with responses := [] }
    toClient := if s.conn.serving then s.toClient ++ responseCallback w e.id (m.pack v)
      else s.toClient }

/-- One action. A buffer holds the next bytes of the stream; the code keeps its size in an `int`. An
error of a conversion is not caught and ends the program. -/
def step (m : Msgpack V) (w : Wire O) (funcs : Std.ExtTreeMap Str (RPCFunc F))
    (s : Streamed V F) : Action V → Option (Streamed V F)
  | .call name args default =>
    if args.length ≤ 5 then some (s.call m w ⟨name, args, default⟩) else none
  | .serverReceive n =>
    if s.conn.serving ∧ n ≤ s.toServer.length ∧ n < 2 ^ 31 then
      (feed w.toUnpacker (handleRequest w funcs) (s.conn, s.serverPac) (s.toServer.take n)).map
        fun st => { s with conn := st.1, serverPac := st.2, toServer := s.toServer.drop n }
    else none
  | .task i => (s.conn.step m funcs (.task i)).map fun c => { s with conn := c }
  | .complete j v =>
    s.conn.executions[j]?.bind fun e =>
      if e.result.isNone then some (s.complete m w j e v) else none
  | .clientReceive n =>
    if s.conn.connected ∧ n ≤ s.toClient.length ∧ n < 2 ^ 31 then
      (feed w.toUnpacker (handleResponse w) (s.conn, s.clientPac) (s.toClient.take n)).map
        fun st => { s with conn := st.1, clientPac := st.2, toClient := s.toClient.drop n }
    else none
  | .callback i => (s.conn.step m funcs (.callback i)).map fun c => { s with conn := c }
  | .disconnect => (s.conn.step m funcs .disconnect).map fun c => { s with conn := c }

/-! ### Messages in their order -/

/-- The connection with messages, when the responses arrive in the order in which they were written.
The second component are those that have not arrived. -/
def orderedStep (m : Msgpack V) (funcs : Std.ExtTreeMap Str (RPCFunc F)) :
    Connection V F × List Response → Connection.Action V →
      Option (Connection V F × List Response)
  | (_, []), .deliver _ => none
  | (c, p :: ps), .deliver _ => if c.connected then some (c.clientOnReceive p, ps) else none
  | (c, ps), a =>
    (c.step m funcs a).map fun c' => (c', ps ++ c'.responses.drop c.responses.length)

variable {m : Msgpack V} {w : Wire O} {funcs : Std.ExtTreeMap Str (RPCFunc F)}
  {s t : Streamed V F} {c c' : Connection V F} {ps ps' : List Response}

/-- The responses that a step other than a delivery writes. -/
theorem responses_step {a : Connection.Action V} (h : c.step m funcs a = some c') :
    ∃ new, c'.responses = c.responses ++ new := by
  cases a with
  | call name args default =>
    simp only [Connection.step, Option.ite_none_right_eq_some, Option.some.injEq] at h
    obtain ⟨-, rfl⟩ := h
    exact ⟨[], (List.append_nil _).symm⟩
  | receive i =>
    simp only [Connection.step, Option.ite_none_right_eq_some, Option.map_eq_some_iff] at h
    obtain ⟨-, r, -, rfl⟩ := h
    exact ⟨[], (List.append_nil _).symm⟩
  | task i =>
    simp only [Connection.step, Option.bind_eq_some_iff] at h
    obtain ⟨x, -, hx⟩ := h
    refine ⟨[], ?_⟩
    cases x with
    | disconnect =>
      simp only [Connection.runTask, Option.some.injEq] at hx
      simp [← hx]
    | deferredRPCCall id f buf =>
      simp only [Connection.runTask, Option.map_eq_some_iff] at hx
      obtain ⟨args, -, rfl⟩ := hx
      simp
  | complete j v =>
    simp only [Connection.step, Option.bind_eq_some_iff, Option.ite_none_right_eq_some,
      Option.some.injEq] at h
    obtain ⟨e, -, -, rfl⟩ := h
    by_cases hserving : c.serving = true
    · exact ⟨[⟨e.id, m.pack v⟩], by simp [Connection.complete, hserving]⟩
    · exact ⟨[], by simp [Connection.complete, hserving]⟩
  | deliver i =>
    simp only [Connection.step, Option.ite_none_right_eq_some, Option.map_eq_some_iff] at h
    obtain ⟨-, p, -, rfl⟩ := h
    exact ⟨[], by rw [(clientOnReceive_eq c p).2.2.2.2.2, List.append_nil]⟩
  | unknown p =>
    simp only [Connection.step, Option.ite_none_right_eq_some, Option.some.injEq] at h
    obtain ⟨-, rfl⟩ := h
    exact ⟨[], by rw [(clientOnReceive_eq c p).2.2.2.2.2, List.append_nil]⟩
  | callback i =>
    simp only [Connection.step, Option.map_eq_some_iff] at h
    obtain ⟨cb, -, rfl⟩ := h
    exact ⟨[], (List.append_nil _).symm⟩
  | disconnect =>
    simp only [Connection.step, Option.some.injEq] at h
    exact ⟨[], by rw [← h]; exact (List.append_nil _).symm⟩

/-- What a step does: it delivers the first response, or is another one, and the responses that it
writes are on their way. -/
theorem orderedStep_cases {a : Connection.Action V} {d : Connection V F × List Response}
    (h : orderedStep m funcs (c, ps) a = some d) :
    (∃ p, ps = p :: d.2 ∧ c.connected = true ∧ d.1 = c.clientOnReceive p) ∨
      (∃ new, (∀ i, a ≠ .deliver i) ∧ c.step m funcs a = some d.1 ∧
        d.1.responses = c.responses ++ new ∧ d.2 = ps ++ new) := by
  have hother : (∀ i, a ≠ .deliver i) → (c.step m funcs a).map
      (fun c' => (c', ps ++ c'.responses.drop c.responses.length)) = some d →
      ∃ new, (∀ i, a ≠ .deliver i) ∧ c.step m funcs a = some d.1 ∧
        d.1.responses = c.responses ++ new ∧ d.2 = ps ++ new := by
    intro hne hd
    obtain ⟨c', hc', rfl⟩ := Option.map_eq_some_iff.1 hd
    obtain ⟨new, hnew⟩ := responses_step hc'
    exact ⟨new, hne, hc', hnew, by rw [hnew, List.drop_left]⟩
  cases a with
  | deliver i =>
    cases ps with
    | nil => cases h
    | cons p ps =>
      simp only [orderedStep, Option.ite_none_right_eq_some, Option.some.injEq] at h
      obtain ⟨hconnected, rfl⟩ := h
      exact Or.inl ⟨p, rfl, hconnected, rfl⟩
  | call name args default => exact Or.inr (hother (by simp) (by rw [← h]; cases ps <;> rfl))
  | receive i => exact Or.inr (hother (by simp) (by rw [← h]; cases ps <;> rfl))
  | task i => exact Or.inr (hother (by simp) (by rw [← h]; cases ps <;> rfl))
  | complete j v => exact Or.inr (hother (by simp) (by rw [← h]; cases ps <;> rfl))
  | unknown p => exact Or.inr (hother (by simp) (by rw [← h]; cases ps <;> rfl))
  | callback i => exact Or.inr (hother (by simp) (by rw [← h]; cases ps <;> rfl))
  | disconnect => exact Or.inr (hother (by simp) (by rw [← h]; cases ps <;> rfl))

theorem orderedStep_eq_some {a : Connection.Action V} (hne : ∀ i, a ≠ .deliver i)
    (h : c.step m funcs a = some c') {new : List Response}
    (hnew : c'.responses = c.responses ++ new) :
    orderedStep m funcs (c, ps) a = some (c', ps ++ new) := by
  have hmap : (c.step m funcs a).map
      (fun c' => (c', ps ++ c'.responses.drop c.responses.length)) = some (c', ps ++ new) := by
    rw [h, Option.map_some, hnew, List.drop_left]
  rw [← hmap]
  cases a with
  | deliver i => exact absurd rfl (hne i)
  | _ => cases ps <;> rfl

/-- It is a part of the connection with messages. -/
theorem exec_of_ordered {bs : List (Connection.Action V)} {d : Connection V F × List Response}
    (h : exec (orderedStep m funcs) (.start, []) bs = some d) :
    ∃ bs', exec (Connection.step m funcs) .start bs' = some d.1 ∧ d.2 <:+ d.1.responses := by
  refine exec_induction (fun _ d => ∃ bs', exec (Connection.step m funcs) .start bs' = some d.1 ∧
    d.2 <:+ d.1.responses) ⟨[], rfl, List.suffix_rfl⟩ ?_ h
  rintro _ ⟨c, ps⟩ a d - ⟨bs', hbs', old, hold⟩ hst
  rcases orderedStep_cases hst with ⟨p, rfl, hconnected, hd⟩ | ⟨new, -, hstep, hnew, hd⟩
  · have hstep : c.step m funcs (.deliver old.length) = some d.1 := by
      rw [Connection.step, if_pos hconnected, hd, ← hold]
      simp
    refine ⟨bs' ++ [.deliver old.length], exec_concat_eq_some.2 ⟨c, hbs', hstep⟩, ?_⟩
    rw [hd, (clientOnReceive_eq c p).2.2.2.2.2, ← hold]
    exact ⟨old ++ [p], by simp⟩
  · refine ⟨bs' ++ [a], exec_concat_eq_some.2 ⟨c, hbs', hstep⟩, ?_⟩
    rw [hd, hnew, ← hold, List.append_assoc]
    exact List.suffix_append old (ps ++ new)

/-! ### The messages in the streams -/

/-- A connection without the messages on their way. -/
def ends (c : Connection V F) : Connection V F := { c with requests := [], responses := [] }

/-- The bytes that are kept or on their way are those of complete messages: of the requests of the
connection `c`, and of the responses `ps` of it that the client has not received. Each unpacker has
handled what is complete. -/
structure Carries (w : Wire O) (s : Streamed V F) (c : Connection V F) (ps : List Response) :
    Prop where
  conn : s.conn = ends c
  requests : s.serverPac ++ s.toServer = c.requests.flatMap w.packRequest
  responses : s.clientPac ++ s.toClient = ps.flatMap w.packResponse
  serverRest : w.next s.serverPac = none
  clientRest : w.next s.clientPac = none

theorem carries_start : Carries w (start : Streamed V F) .start [] :=
  ⟨rfl, rfl, rfl, next_nil _, next_nil _⟩

theorem connected_clientOnReceive (c : Connection V F) (p : Response) :
    (c.clientOnReceive p).connected = c.connected := by
  rw [Connection.clientOnReceive]
  split <;> rfl

theorem ends_clientOnReceive (c : Connection V F) (p : Response) :
    (ends c).clientOnReceive p = ends (c.clientOnReceive p) := by
  simp only [Connection.clientOnReceive, ends]
  split <;> rfl

theorem foldl_ends_clientOnReceive (ps : List Response) (c : Connection V F) :
    ps.foldl clientOnReceive (ends c) = ends (ps.foldl clientOnReceive c) := by
  induction ps generalizing c with
  | nil => rfl
  | cons p ps ih => rw [List.foldl_cons, List.foldl_cons, ends_clientOnReceive, ih]

theorem foldl_ends_serverOnReceive (rs : List Request) (c : Connection V F) (rs' : List Request) :
    rs.foldl (serverOnReceive funcs) (ends c) =
      ends (rs.foldl (serverOnReceive funcs) { c with requests := rs' }) := by
  induction rs generalizing c with
  | nil => rfl
  | cons r rs ih =>
    rw [List.foldl_cons, List.foldl_cons]
    exact ih (c.serverOnReceive funcs r)

/-- The receipt of the first requests, one after the other. -/
theorem exec_receive (m : Msgpack V) (funcs : Std.ExtTreeMap Str (RPCFunc F))
    (c : Connection V F) (ps : List Response) {pre post : List Request}
    (hrequests : c.requests = pre ++ post) (hserving : c.serving = true) :
    exec (orderedStep m funcs) (c, ps) (List.replicate pre.length (.receive 0)) =
      some (pre.foldl (serverOnReceive funcs) { c with requests := post }, ps) := by
  induction pre generalizing c with
  | nil =>
    rw [List.nil_append] at hrequests
    rw [← hrequests]
    rfl
  | cons r pre ih =>
    have hstep : c.step m funcs (.receive 0) =
        some ({ c with requests := pre ++ post }.serverOnReceive funcs r) := by
      simp [Connection.step, hserving, hrequests]
    rw [List.length_cons, List.replicate_succ, exec,
      orderedStep_eq_some (by simp) hstep (List.append_nil _).symm, List.append_nil,
      Option.bind_some]
    exact ih ({ c with requests := pre ++ post }.serverOnReceive funcs r) rfl hserving

/-- The delivery of responses one after the other. -/
theorem exec_deliver (m : Msgpack V) (funcs : Std.ExtTreeMap Str (RPCFunc F))
    (c : Connection V F) (pre post : List Response) (hconnected : c.connected = true) :
    exec (orderedStep m funcs) (c, pre ++ post) (List.replicate pre.length (.deliver 0)) =
      some (pre.foldl clientOnReceive c, post) := by
  induction pre generalizing c with
  | nil => rfl
  | cons p pre ih =>
    rw [List.length_cons, List.replicate_succ, List.cons_append, exec, orderedStep,
      if_pos hconnected, Option.bind_some]
    exact ih (c.clientOnReceive p) (by rw [connected_clientOnReceive, hconnected])

theorem requests_foldl_serverOnReceive (funcs : Std.ExtTreeMap Str (RPCFunc F))
    (rs : List Request) (c : Connection V F) :
    (rs.foldl (serverOnReceive funcs) c).requests = c.requests := by
  induction rs generalizing c with
  | nil => rfl
  | cons r rs ih => exact ih (c.serverOnReceive funcs r)

theorem requests_foldl_clientOnReceive (ps : List Response) (c : Connection V F) :
    (ps.foldl clientOnReceive c).requests = c.requests := by
  induction ps generalizing c with
  | nil => rfl
  | cons p ps ih => rw [List.foldl_cons, ih, (clientOnReceive_eq c p).2.1]

/-! ### Buffers -/

/-- A buffer at the server is the receipt of the requests that it completes. -/
theorem Carries.serverReceive (h : Carries w s c ps) (hw : w.RoundTrips)
    (funcs : Std.ExtTreeMap Str (RPCFunc F)) (n : ℕ) :
    ∃ pre post r, c.requests = pre ++ post ∧
      feed w.toUnpacker (handleRequest w funcs) (s.conn, s.serverPac) (s.toServer.take n) =
        some (ends (pre.foldl (serverOnReceive funcs) { c with requests := post }), r) ∧
      w.next r = none ∧ r ++ s.toServer.drop n = post.flatMap w.packRequest := by
  have hread : ∀ (x : Request) (d : Connection V F) (rest : IOBuffer), ∃ o,
      w.next (w.packRequest x ++ rest) = some (o, rest) ∧
        handleRequest w funcs d o = some (d.serverOnReceive funcs x) := by
    intro x d rest
    obtain ⟨o, hnext, hreq⟩ := hw.request x rest
    exact ⟨o, hnext, by rw [handleRequest, hreq, Option.map_some]⟩
  have hstream : (s.serverPac ++ s.toServer.take n) ++ s.toServer.drop n =
      c.requests.flatMap w.packRequest := by
    rw [List.append_assoc, List.take_append_drop, h.requests]
  obtain ⟨pre, post, r, hsplit, hdrain, hnone, hpost⟩ :=
    drain_of_append_eq_flatMap hw.incremental hread s.conn hstream
  refine ⟨pre, post, r, hsplit, ?_, hnone, hpost⟩
  rw [feed, hdrain, h.conn, foldl_ends_serverOnReceive pre c post]

/-- A buffer at the client is the delivery of the responses that it completes. -/
theorem Carries.clientReceive (h : Carries w s c ps) (hw : w.RoundTrips) (n : ℕ) :
    ∃ pre post r, ps = pre ++ post ∧
      feed w.toUnpacker (handleResponse w) (s.conn, s.clientPac) (s.toClient.take n) =
        some (ends (pre.foldl clientOnReceive c), r) ∧
      w.next r = none ∧ r ++ s.toClient.drop n = post.flatMap w.packResponse := by
  have hread : ∀ (x : Response) (d : Connection V F) (rest : IOBuffer), ∃ o,
      w.next (w.packResponse x ++ rest) = some (o, rest) ∧
        handleResponse w d o = some (d.clientOnReceive x) := by
    intro x d rest
    obtain ⟨o, hnext, hresp⟩ := hw.response x rest
    exact ⟨o, hnext, by rw [handleResponse, hresp, Option.map_some]⟩
  have hstream : (s.clientPac ++ s.toClient.take n) ++ s.toClient.drop n =
      ps.flatMap w.packResponse := by
    rw [List.append_assoc, List.take_append_drop, h.responses]
  obtain ⟨pre, post, r, hsplit, hdrain, hnone, hpost⟩ :=
    drain_of_append_eq_flatMap hw.incremental hread s.conn hstream
  refine ⟨pre, post, r, hsplit, ?_, hnone, hpost⟩
  rw [feed, hdrain, h.conn, foldl_ends_clientOnReceive]

/-! ### The refinement -/

/-- A step of one end that neither reads nor writes a message is one of the connection. -/
theorem exists_step_of_ends {a : Connection.Action V} {d : Connection V F}
    (ha : (∃ i, a = .task i) ∨ (∃ i, a = .callback i) ∨ a = .disconnect)
    (h : (ends c).step m funcs a = some d) :
    ∃ c', c.step m funcs a = some c' ∧ d = ends c' ∧ c'.requests = c.requests ∧
      c'.responses = c.responses := by
  rcases ha with ⟨i, rfl⟩ | ⟨i, rfl⟩ | rfl
  · simp only [Connection.step, Option.bind_eq_some_iff] at h
    obtain ⟨x, hx, ht⟩ := h
    cases x with
    | disconnect =>
      simp only [Connection.runTask, Option.some.injEq] at ht
      refine ⟨{ c with tasks := c.tasks.eraseIdx i, serving := false }, ?_, ht.symm, rfl, rfl⟩
      exact Option.bind_eq_some_iff.2 ⟨.disconnect, hx, rfl⟩
    | deferredRPCCall id f buf =>
      simp only [Connection.runTask, Option.map_eq_some_iff] at ht
      obtain ⟨args, hargs, ht⟩ := ht
      refine ⟨{ c with
        tasks := c.tasks.eraseIdx i
        executions := c.executions ++ [⟨id, f, buf, args, none⟩] }, ?_, ht.symm, rfl, rfl⟩
      refine Option.bind_eq_some_iff.2 ⟨.deferredRPCCall id f buf, hx, ?_⟩
      rw [Connection.runTask, hargs, Option.map_some]
  · simp only [Connection.step, Option.map_eq_some_iff] at h
    obtain ⟨cb, hcb, ht⟩ := h
    have hstep : c.step m funcs (.callback i) =
        some ({ c with callbacks := c.callbacks.eraseIdx i }.deserializeFuture m cb) :=
      Option.map_eq_some_iff.2 ⟨cb, hcb, rfl⟩
    exact ⟨_, hstep, ht.symm, rfl, rfl⟩
  · exact ⟨c.disconnect, rfl, (Option.some.inj h).symm, rfl, rfl⟩

/-- Every step is matched by a run of the connection with messages. -/
theorem Carries.step (h : Carries w s c ps) (hw : w.RoundTrips) {a : Action V}
    (hst : Streamed.step m w funcs s a = some t) :
    ∃ bs d, exec (orderedStep m funcs) (c, ps) bs = some d ∧ Carries w t d.1 d.2 := by
  have hone : ∀ {b : Connection.Action V} {c' : Connection V F} {new : List Response},
      (∀ i, b ≠ .deliver i) → c.step m funcs b = some c' →
      c'.responses = c.responses ++ new → Carries w t c' (ps ++ new) →
      ∃ bs d, exec (orderedStep m funcs) (c, ps) bs = some d ∧ Carries w t d.1 d.2 := by
    intro b c' new hne hstep hnew hcarries
    exact ⟨[b], (c', ps ++ new),
      exec_cons_eq_some.2 ⟨_, orderedStep_eq_some hne hstep hnew, rfl⟩, hcarries⟩
  have hends : ∀ {b : Connection.Action V} {d : Connection V F},
      (∃ i, b = .task i) ∨ (∃ i, b = .callback i) ∨ b = .disconnect →
      s.conn.step m funcs b = some d → t = { s with conn := d } →
      ∃ bs d, exec (orderedStep m funcs) (c, ps) bs = some d ∧ Carries w t d.1 d.2 := by
    intro b d hb hd ht
    rw [h.conn] at hd
    obtain ⟨c', hc', rfl, hreq, hresp⟩ := exists_step_of_ends hb hd
    have hne : ∀ i, b ≠ .deliver i := by rcases hb with ⟨i, rfl⟩ | ⟨i, rfl⟩ | rfl <;> simp
    refine hone hne hc' (hresp.trans (List.append_nil _).symm) ?_
    rw [ht, List.append_nil]
    exact ⟨rfl, by rw [hreq]; exact h.requests, h.responses, h.serverRest, h.clientRest⟩
  cases a with
  | call name args default =>
    simp only [Streamed.step, Option.ite_none_right_eq_some, Option.some.injEq] at hst
    obtain ⟨hargs, rfl⟩ := hst
    have hconnected : s.conn.connected = c.connected := by rw [h.conn, ends]
    have hreqId : s.conn.reqId = c.reqId := by rw [h.conn, ends]
    have hstep : c.step m funcs (.call name args default) =
        some (c.call m ⟨name, args, default⟩) := by rw [Connection.step, if_pos hargs]
    refine hone (by simp) hstep (List.append_nil _).symm ?_
    rw [List.append_nil]
    refine ⟨by rw [Streamed.call, h.conn]; rfl, ?_, h.responses, h.serverRest, h.clientRest⟩
    simp only [Streamed.call, hconnected, hreqId, Connection.call]
    split_ifs
    · rw [← List.append_assoc, h.requests, List.flatMap_append, List.flatMap_singleton]
      rfl
    · exact h.requests
  | serverReceive n =>
    simp only [Streamed.step, Option.ite_none_right_eq_some, Option.map_eq_some_iff] at hst
    obtain ⟨⟨hserving, -, -⟩, st, hfeed, rfl⟩ := hst
    obtain ⟨pre, post, r, hsplit, hfeed', hnone, hpost⟩ := h.serverReceive hw funcs n
    obtain rfl := Option.some.inj (hfeed'.symm.trans hfeed)
    have hserving' : c.serving = true := by rw [← hserving, h.conn, ends]
    refine ⟨_, _, exec_receive m funcs c ps hsplit hserving', rfl, ?_, h.responses, hnone,
      h.clientRest⟩
    rw [requests_foldl_serverOnReceive]
    exact hpost
  | task i =>
    simp only [Streamed.step, Option.map_eq_some_iff] at hst
    obtain ⟨d, hd, rfl⟩ := hst
    exact hends (Or.inl ⟨i, rfl⟩) hd rfl
  | complete j v =>
    simp only [Streamed.step, Option.bind_eq_some_iff, Option.ite_none_right_eq_some,
      Option.some.injEq] at hst
    obtain ⟨e, he, hnone, rfl⟩ := hst
    have hserving : s.conn.serving = c.serving := by rw [h.conn, ends]
    rw [h.conn] at he
    have hstep : c.step m funcs (.complete j v) = some (c.complete m j e v) :=
      Option.bind_eq_some_iff.2 ⟨e, he, if_pos hnone⟩
    have hconn : (s.complete m w j e v).conn = ends (c.complete m j e v) := by
      rw [Streamed.complete, h.conn]
      rfl
    by_cases hc : c.serving = true
    · have hnew : (c.complete m j e v).responses = c.responses ++ [⟨e.id, m.pack v⟩] := by
        rw [Connection.complete, if_pos hc]
      refine hone (by simp) hstep hnew ⟨hconn, h.requests, ?_, h.serverRest, h.clientRest⟩
      simp only [Streamed.complete, hserving, hc, if_true]
      rw [← List.append_assoc, h.responses, List.flatMap_append, List.flatMap_singleton]
      rfl
    · have hnew : (c.complete m j e v).responses = c.responses ++ [] := by
        rw [Connection.complete, if_neg hc, List.append_nil]
      refine hone (by simp) hstep hnew ⟨hconn, h.requests, ?_, h.serverRest, h.clientRest⟩
      simp only [Streamed.complete, hserving, if_neg hc, List.append_nil]
      exact h.responses
  | clientReceive n =>
    simp only [Streamed.step, Option.ite_none_right_eq_some, Option.map_eq_some_iff] at hst
    obtain ⟨⟨hconnected, -, -⟩, st, hfeed, rfl⟩ := hst
    obtain ⟨pre, post, r, rfl, hfeed', hnone, hpost⟩ := h.clientReceive hw n
    obtain rfl := Option.some.inj (hfeed'.symm.trans hfeed)
    have hconnected' : c.connected = true := by rw [← hconnected, h.conn, ends]
    refine ⟨_, _, exec_deliver m funcs c pre post hconnected', rfl, ?_, hpost, h.serverRest,
      hnone⟩
    rw [requests_foldl_clientOnReceive]
    exact h.requests
  | callback i =>
    simp only [Streamed.step, Option.map_eq_some_iff] at hst
    obtain ⟨d, hd, rfl⟩ := hst
    exact hends (Or.inr (Or.inl ⟨i, rfl⟩)) hd rfl
  | disconnect =>
    simp only [Streamed.step, Option.map_eq_some_iff] at hst
    obtain ⟨d, hd, rfl⟩ := hst
    exact hends (Or.inr (Or.inr rfl)) hd rfl

/-- Every run is matched by one of the connection with messages. -/
theorem carries_of_exec (hw : w.RoundTrips) {as : List (Action V)}
    (hrun : exec (step m w funcs) start as = some s) :
    ∃ bs d, exec (orderedStep m funcs) (.start, []) bs = some d ∧ Carries w s d.1 d.2 := by
  refine exec_simulation (fun s (d : Connection V F × List Response) => Carries w s d.1 d.2) ?_
    carries_start hrun
  rintro s a t ⟨c, ps⟩ h hst
  exact h.step hw hst

/-- When all bytes of the client have arrived, all its requests have been received. -/
theorem Carries.requests_eq_nil (h : Carries w s c ps) (hw : w.RoundTrips)
    (hnil : s.toServer = []) : c.requests = [] := by
  have hkept : s.serverPac = c.requests.flatMap w.packRequest := by
    rw [← h.requests, hnil, List.append_nil]
  refine eq_nil_of_next_eq_none (fun r rest => ?_) h.serverRest hkept
  obtain ⟨o, hnext, -⟩ := hw.request r rest
  exact ⟨o, hnext⟩

/-- When all bytes of the server have arrived, all responses have been delivered. -/
theorem Carries.responses_eq_nil (h : Carries w s c ps) (hw : w.RoundTrips)
    (hnil : s.toClient = []) : ps = [] := by
  have hkept : s.clientPac = ps.flatMap w.packResponse := by
    rw [← h.responses, hnil, List.append_nil]
  refine eq_nil_of_next_eq_none (fun p rest => ?_) h.clientRest hkept
  obtain ⟨o, hnext, -⟩ := hw.response p rest
  exact ⟨o, hnext⟩

theorem step_serverReceive {n : ℕ} (hserving : s.conn.serving = true)
    (hn : n ≤ s.toServer.length) (hlt : n < 2 ^ 31) {st : Connection V F × IOBuffer}
    (hfeed : feed w.toUnpacker (handleRequest w funcs) (s.conn, s.serverPac) (s.toServer.take n) =
      some st) :
    step m w funcs s (.serverReceive n) =
      some { s with conn := st.1, serverPac := st.2, toServer := s.toServer.drop n } := by
  rw [step, if_pos ⟨hserving, hn, hlt⟩, hfeed, Option.map_some]

theorem step_clientReceive {n : ℕ} (hconnected : s.conn.connected = true)
    (hn : n ≤ s.toClient.length) (hlt : n < 2 ^ 31) {st : Connection V F × IOBuffer}
    (hfeed : feed w.toUnpacker (handleResponse w) (s.conn, s.clientPac) (s.toClient.take n) =
      some st) :
    step m w funcs s (.clientReceive n) =
      some { s with conn := st.1, clientPac := st.2, toClient := s.toClient.drop n } := by
  rw [step, if_pos ⟨hconnected, hn, hlt⟩, hfeed, Option.map_some]

/-- **RPC over streams.** Take any run of both ends of a connection in which the two streams of
bytes are cut into buffers in any way. It ends as some run of the connection with messages does: the
bytes of the client that are not handled are those of the requests in flight, and none is in flight
when all bytes have arrived. And the next buffer, of any size that an `int` holds, is handled at
both ends as long as they receive.

Source: `src/rpc/rpc.h`, lines 102–173 and 479–532; `src/rpc/rpc.cc`, lines 110–173 and 224–274. -/
theorem rpc_over_streams (w : Wire O) (hw : w.RoundTrips) (m : Msgpack V)
    (funcs : Std.ExtTreeMap Str (RPCFunc F)) (as : List (Action V)) (s : Streamed V F)
    (hrun : exec (step m w funcs) start as = some s) :
    (∃ bs c, exec (Connection.step m funcs) .start bs = some c ∧ s.conn = ends c ∧
      s.serverPac ++ s.toServer = c.requests.flatMap w.packRequest ∧
      (s.toServer = [] → c.requests = [])) ∧
    (∀ n ≤ s.toServer.length, n < 2 ^ 31 → s.conn.serving = true →
      ∃ t, step m w funcs s (.serverReceive n) = some t) ∧
    (∀ n ≤ s.toClient.length, n < 2 ^ 31 → s.conn.connected = true →
      ∃ t, step m w funcs s (.clientReceive n) = some t) := by
  obtain ⟨bs, ⟨c, ps⟩, hbs, h⟩ := carries_of_exec hw hrun
  obtain ⟨bs', hbs', -⟩ := exec_of_ordered hbs
  refine ⟨⟨bs', c, hbs', h.conn, h.requests, h.requests_eq_nil hw⟩, fun n hn hlt hserving => ?_,
    fun n hn hlt hconnected => ?_⟩
  · obtain ⟨pre, post, r, -, hfeed, -⟩ := h.serverReceive hw funcs n
    exact ⟨_, step_serverReceive hserving hn hlt hfeed⟩
  · obtain ⟨pre, post, r, -, hfeed, -⟩ := h.clientReceive hw n
    exact ⟨_, step_clientReceive hconnected hn hlt hfeed⟩

/-- A call whose request arrives in two buffers, is executed and answered with seven. -/
def cutRequest : List (Action (Fin 128)) :=
  [.call [102] [small 1, small 2] (small 0), .serverReceive 3, .serverReceive 5, .task 0,
    .complete 0 (small 7)]

/-- The connection after it: the response is on its way. -/
def cutRequestEnd : Streamed (Fin 128) ℕ where
  conn :=
    { (.start : Connection (Fin 128) ℕ) with
      calls := [⟨[102], [small 1, small 2], small 0⟩]
      reqId := 1
      respCallbacks := (∅ : Std.ExtTreeMap UInt64 ℕ).insert 0 0
      received := [⟨0, [102], [0x92, 1, 2]⟩]
      executions := [⟨0, ⟨0, 2⟩, [0x92, 1, 2], [small 1, small 2], some (small 7)⟩] }
  toServer := []
  serverPac := []
  toClient := [0x92, 0, 0xa1, 7]
  clientPac := []

theorem exec_cutRequest :
    exec (step fixint standardWire twoFuncs) start cutRequest = some cutRequestEnd := by
  have hnone : standardWire.next [0x93, 0, 0xa1] = none := by decide
  have hsome : standardWire.next ([0x93, 0, 0xa1] ++ [102, 0xa3, 0x92, 1, 2]) =
      some (requestTuple ⟨0, [102], [0x92, 1, 2]⟩, []) := by decide
  have hfirst : ∀ c : Connection (Fin 128) ℕ,
      feed standardWire.toUnpacker (handleRequest standardWire twoFuncs) (c, []) [0x93, 0, 0xa1] =
        some (c, [0x93, 0, 0xa1]) := fun c => drain_of_next_eq_none hnone c
  have hsecond : ∀ c : Connection (Fin 128) ℕ,
      feed standardWire.toUnpacker (handleRequest standardWire twoFuncs) (c, [0x93, 0, 0xa1])
        [102, 0xa3, 0x92, 1, 2] =
        some (c.serverOnReceive twoFuncs ⟨0, [102], [0x92, 1, 2]⟩, []) := fun c => by
    rw [feed, drain_of_next_eq_some hsome]
    exact drain_of_next_eq_none (next_nil _) _
  refine exec_cons_eq_some.2 ⟨_, rfl, ?_⟩
  refine exec_cons_eq_some.2 ⟨_, step_serverReceive rfl (by decide) (by decide) (hfirst _), ?_⟩
  refine exec_cons_eq_some.2 ⟨_, step_serverReceive rfl (by decide) (by decide) (hsecond _), ?_⟩
  rfl

theorem rpc_over_streams_cutRequest :
    standardWire.RoundTrips ∧
    exec (step fixint standardWire twoFuncs) start cutRequest = some cutRequestEnd ∧
    (∃ bs c, exec (Connection.step fixint twoFuncs) .start bs = some c ∧ c.requests = [] ∧
      c.executions = [⟨0, ⟨0, 2⟩, [0x92, 1, 2], [small 1, small 2], some (small 7)⟩]) ∧
    ∀ n ≤ 4, ∃ t, step fixint standardWire twoFuncs cutRequestEnd (.clientReceive n) = some t := by
  obtain ⟨⟨bs, c, hbs, hends, -, hnil⟩, -, hclient⟩ := rpc_over_streams standardWire
    standardWire_roundTrips fixint twoFuncs cutRequest cutRequestEnd exec_cutRequest
  refine ⟨standardWire_roundTrips, exec_cutRequest, ⟨bs, c, hbs, hnil rfl, ?_⟩, fun n hn => ?_⟩
  · exact (congrArg Connection.executions hends).symm
  · exact hclient n hn (by omega) rfl

end Streamed

end RawDish.Rpc.Connection
