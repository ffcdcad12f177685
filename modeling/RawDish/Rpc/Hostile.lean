import RawDish.Rpc.Framing

/-!
# Bytes of any origin

A server reads what its peer sends, and the peer may send anything. The stream can be wrong in
several places: bytes that begin no object, an object that is not a tuple of a number, a name and a
string of bytes, a name that is not registered, and a string of bytes that does not convert to the
parameters of the function. `onReceive` takes care of the name, for which it enqueues a disconnect.
In the other places `msgpack` raises an error that neither `onReceive` nor the deferred call
catches, and the error ends the program.

A `Reception` is one connection of the server with the buffers that are still to come. The buffers
arrive in their order while the connection is served, and the tasks that `onReceive` enqueues run
between them in any order.

## Main definitions

* `ForeignWire` : `msgpack` on bytes of any origin.
* `Reception`, `Reception.step` : receipts and tasks in any order.
* `Robust` : no error escapes in any run, and every message is executed or leads to a disconnect.
* `Tame` : the stream has nothing wrong in it but names that are not registered.

## Main results

* `robust_iff` : the server is robust against a stream exactly when the stream is tame.

## References

* `src/rpc/rpc.cc`, lines 128–173; `src/rpc/rpc.h`, lines 175–271.
-/

namespace RawDish.Rpc.Connection

open Lib

variable {V F O : Type}

/-- `msgpack` on bytes of any origin: `next` raises an error on bytes that are malformed, and says
that there is no object yet on other bytes that it cannot read. -/
structure ForeignWire (O : Type) extends Wire O where
  malformed : IOBuffer → Bool
  malformed_nil : malformed [] = false
  next_of_malformed : ∀ {p : IOBuffer}, malformed p = true → next p = none

/-- What follows matters neither to an object nor to malformed bytes. -/
structure ForeignWire.Incremental (w : ForeignWire O) : Prop where
  next : w.toUnpacker.Incremental
  malformed : ∀ {p : IOBuffer}, w.malformed p = true → ∀ q, w.malformed (p ++ q) = true

/-- `deserializeArgs` with the types of the parameters of the function, which say how its arguments
are unpacked. -/
def convertArgs (m : F → Msgpack V) (f : RPCFunc F) (buf : IOBuffer) : Option (List V) :=
  deserializeArgs (m f.func) f buf

/-- A task of the server, with the types of the parameters of its function. -/
def runTyped (m : F → Msgpack V) (s : Connection V F) : ServerTask F → Option (Connection V F)
  | .deferredRPCCall id f buf => s.runTask (m f.func) (.deferredRPCCall id f buf)
  | .disconnect => some { s with serving := false }

/-- The bytes of the buffers. -/
def stream (bufs : List ReceiveBuffer) : IOBuffer := bufs.flatMap fun buf => buf.val

/-- A connection of the server and what its peer sends. -/
structure Reception (V F : Type) where
  conn : Connection V F
  /-- What the unpacker keeps. -/
  kept : IOBuffer
  arrived : List ReceiveBuffer
  coming : List ReceiveBuffer
  /-- An error was not caught, and the program has ended. -/
  escaped : Bool

namespace Reception

/-- The next buffer arrives, or the `i`-th task runs. -/
inductive Event
  | receive
  | task (i : ℕ)

/-- A connection on which the buffers are to come. -/
def accept (bufs : List ReceiveBuffer) : Reception V F where
  conn := start
  kept := []
  arrived := []
  coming := bufs
  escaped := false

/-- `RPCServer::Connection::Internal::onReceive`: the objects are dispatched one after the other
until there is none. An error of `next` or of `convert` is not caught. -/
def onReceive (w : ForeignWire O) (funcs : Std.ExtTreeMap Str (RPCFunc F)) (s : Reception V F)
    (buf : ReceiveBuffer) : Reception V F :=
  match serverReceive w.toWire funcs (s.conn, s.kept) [buf] with
  -- The loop has come to bytes without an object; on malformed ones `next` raises an error.
  | some (conn, kept) => { s with conn := conn, kept := kept, escaped := w.malformed kept }
  | none => { s with escaped := true }

/-- A task runs. An error in the arguments of a deferred call is not caught. -/
def runTask (m : F → Msgpack V) (s : Reception V F) (x : ServerTask F) : Reception V F :=
  match s.conn.runTyped m x with
  | some conn => { s with conn := conn }
  | none => { s with escaped := true }

/-- One event. Nothing happens after the program has ended, and nothing is received after the
socket is closed. -/
def step (m : F → Msgpack V) (w : ForeignWire O) (funcs : Std.ExtTreeMap Str (RPCFunc F))
    (s : Reception V F) : Event → Option (Reception V F)
  | .receive =>
    match s.coming with
    | [] => none
    | buf :: coming =>
      if s.escaped = false ∧ s.conn.serving = true then
        some ({ s with arrived := s.arrived ++ [buf], coming := coming }.onReceive w funcs buf)
      else none
  | .task i =>
    if s.escaped = false then
      s.conn.tasks[i]?.map fun x =>
        { s with conn := { s.conn with tasks := s.conn.tasks.eraseIdx i } }.runTask m x
    else none

/-- The messages that have arrived and are complete. -/
def messages (w : ForeignWire O) (s : Reception V F) : List O :=
  (objects w.toUnpacker (stream s.arrived)).1

end Reception

/-- The call that a message asks for: it is a request for a registered function, and the arguments
convert to the parameters of the function. -/
def asked (m : F → Msgpack V) (w : ForeignWire O) (funcs : Std.ExtTreeMap Str (RPCFunc F)) (o : O) :
    Option (UInt64 × RPCFunc F × IOBuffer) :=
  (w.toRequest o).bind fun r =>
    (r.work funcs).filter fun x => (convertArgs m x.2.1 x.2.2).isSome

/-- No error has escaped. The calls that the messages ask for are deferred or executed, each as
often as it is asked for; and when a message asks for none, the connection is closed or a task is
there to close it. -/
structure Handled (m : F → Msgpack V) (w : ForeignWire O) (funcs : Std.ExtTreeMap Str (RPCFunc F))
    (s : Reception V F) : Prop where
  not_escaped : s.escaped = false
  work : (s.conn.tasks.filterMap ServerTask.work ++ s.conn.executions.map Execution.work).Perm
    ((s.messages w).filterMap (asked m w funcs))
  args : ∀ e ∈ s.conn.executions, convertArgs m e.func e.buf = some e.args
  disconnect : ∀ o ∈ s.messages w, asked m w funcs o = none →
    .disconnect ∈ s.conn.tasks ∨ s.conn.serving = false

/-- Whatever happens while the buffers arrive, every message is handled, and the tasks that are
left run one after the other until there is none. -/
structure Robust (m : F → Msgpack V) (w : ForeignWire O) (funcs : Std.ExtTreeMap Str (RPCFunc F))
    (bufs : List ReceiveBuffer) : Prop where
  handled : ∀ (es : List Reception.Event) (s : Reception V F),
    exec (Reception.step m w funcs) (.accept bufs) es = some s → Handled m w funcs s
  settles : ∀ (es : List Reception.Event) (s : Reception V F),
    exec (Reception.step m w funcs) (.accept bufs) es = some s →
    ∃ t, exec (Reception.step m w funcs) s (List.replicate s.conn.tasks.length (.task 0)) = some t ∧
      t.conn.tasks = []

/-- The stream is malformed nowhere, its objects are requests, and the arguments of those for
registered functions convert. -/
structure Tame (m : F → Msgpack V) (w : ForeignWire O) (funcs : Std.ExtTreeMap Str (RPCFunc F))
    (p : IOBuffer) : Prop where
  wellFormed : w.malformed (objects w.toUnpacker p).2 = false
  request : ∀ o ∈ (objects w.toUnpacker p).1, (w.toRequest o).isSome
  args : ∀ o ∈ (objects w.toUnpacker p).1, ∀ r, w.toRequest o = some r →
    ∀ f, funcs[r.name]? = some f → (convertArgs m f r.args).isSome

variable {m : F → Msgpack V} {w : ForeignWire O} {funcs : Std.ExtTreeMap Str (RPCFunc F)}

/-! ### The stream -/

theorem stream_append (bufs bufs' : List ReceiveBuffer) :
    stream (bufs ++ bufs') = stream bufs ++ stream bufs' :=
  List.flatMap_append

@[simp] theorem stream_singleton (buf : ReceiveBuffer) : stream [buf] = buf.val :=
  List.flatMap_singleton _ buf

/-- Malformed bytes stay what they are. -/
theorem malformed_objects_append (hw : w.Incremental) {p : IOBuffer}
    (h : w.malformed (objects w.toUnpacker p).2 = true) (q : IOBuffer) :
    w.malformed (objects w.toUnpacker (p ++ q)).2 = true := by
  have hmal := hw.malformed h q
  rwa [objects_append hw.next, objects_of_next_eq_none (w.next_of_malformed hmal)]

/-- The beginning of a tame stream is tame. -/
theorem Tame.of_append (hw : w.Incremental) {p q : IOBuffer} (h : Tame m w funcs (p ++ q)) :
    Tame m w funcs p := by
  have hmem : ∀ o ∈ (objects w.toUnpacker p).1, o ∈ (objects w.toUnpacker (p ++ q)).1 := by
    intro o ho
    rw [objects_append hw.next]
    exact List.mem_append_left _ ho
  refine ⟨?_, fun o ho => h.request o (hmem o ho), fun o ho => h.args o (hmem o ho)⟩
  by_contra hmal
  rw [Bool.not_eq_false] at hmal
  have hall := malformed_objects_append hw hmal q
  rw [h.wellFormed] at hall
  exact Bool.false_ne_true hall

/-! ### The requests of a connection -/

/-- The work of the requests received is deferred or done, and a name that is not registered leads
to a disconnect. -/
structure Dispatched (m : F → Msgpack V) (funcs : Std.ExtTreeMap Str (RPCFunc F))
    (s : Connection V F) : Prop where
  work : (s.tasks.filterMap ServerTask.work ++ s.executions.map Execution.work).Perm
    (s.received.filterMap (Request.work funcs))
  args : ∀ e ∈ s.executions, convertArgs m e.func e.buf = some e.args
  disconnect : ∀ r ∈ s.received, funcs[r.name]? = none → .disconnect ∈ s.tasks ∨ s.serving = false

theorem dispatched_start : Dispatched m funcs (start : Connection V F) := by
  constructor <;> simp [start]

theorem Dispatched.serverOnReceive {s : Connection V F} (h : Dispatched m funcs s) (r : Request) :
    Dispatched m funcs (s.serverOnReceive funcs r) := by
  refine ⟨work_serverOnReceive h.work r, h.args, fun r' hr' hnone => ?_⟩
  simp only [Connection.serverOnReceive, List.mem_append, List.mem_singleton] at hr' ⊢
  rcases hr' with hr' | rfl
  · exact (h.disconnect r' hr' hnone).imp_left Or.inl
  · left
    right
    rw [hnone]

theorem Dispatched.foldl {s : Connection V F} (h : Dispatched m funcs s) (rs : List Request) :
    Dispatched m funcs (rs.foldl (Connection.serverOnReceive funcs) s) := by
  induction rs generalizing s with
  | nil => exact h
  | cons r rs ih => exact ih (h.serverOnReceive r)

/-- A task closes the connection or executes a call. -/
theorem runTyped_eq_some {s t : Connection V F} {x : ServerTask F} :
    s.runTyped m x = some t ↔
      (x = .disconnect ∧ t = { s with serving := false }) ∨
      ∃ id f buf args, x = .deferredRPCCall id f buf ∧ convertArgs m f buf = some args ∧
        t = { s with executions := s.executions ++ [⟨id, f, buf, args, none⟩] } := by
  cases x with
  | disconnect => simp [runTyped, eq_comm]
  | deferredRPCCall id f buf =>
    simp only [runTyped, runTask, Option.map_eq_some_iff, reduceCtorEq, false_and, false_or,
      ServerTask.deferredRPCCall.injEq]
    constructor
    · rintro ⟨args, hargs, rfl⟩
      exact ⟨id, f, buf, args, ⟨rfl, rfl, rfl⟩, hargs, rfl⟩
    · rintro ⟨_, _, _, args, ⟨rfl, rfl, rfl⟩, hargs, rfl⟩
      exact ⟨args, hargs, rfl⟩

theorem Dispatched.runTyped {s t : Connection V F} (h : Dispatched m funcs s) {x : ServerTask F}
    {pre post : List (ServerTask F)} (hx : s.tasks = pre ++ x :: post)
    (ht : { s with tasks := pre ++ post }.runTyped m x = some t) : Dispatched m funcs t := by
  obtain ⟨rfl, rfl⟩ | ⟨id, f, buf, args, rfl, hargs, rfl⟩ := runTyped_eq_some.1 ht
  · refine ⟨List.Perm.trans ?_ h.work, h.args, fun _ _ _ => Or.inr rfl⟩
    simp [hx, List.filterMap_cons, ServerTask.work]
  · refine ⟨(work_runTask hx ht).trans h.work, fun e he => ?_, fun r hr hnone => ?_⟩
    · rcases List.mem_append.1 he with he | he
      · exact h.args e he
      · rw [List.mem_singleton.1 he]
        exact hargs
    · have hdis := h.disconnect r hr hnone
      simpa [hx] using hdis

theorem serving_foldl (s : Connection V F) (rs : List Request) :
    (rs.foldl (serverOnReceive funcs) s).serving = s.serving := by
  induction rs generalizing s with
  | nil => rfl
  | cons r rs ih =>
    rw [List.foldl_cons, ih]
    rfl

/-- The objects are dispatched when all of them convert. -/
theorem foldlM_handleRequest (w : Wire O) (s : Connection V F) (os : List O) :
    (∃ rs : List Request, os.map w.toRequest = rs.map some ∧
      os.foldlM (handleRequest w funcs) s = some (rs.foldl (serverOnReceive funcs) s)) ∨
    (∃ o ∈ os, w.toRequest o = none) ∧ os.foldlM (handleRequest w funcs) s = none := by
  induction os generalizing s with
  | nil => exact Or.inl ⟨[], rfl, rfl⟩
  | cons o os ih =>
    rw [List.foldlM_cons, handleRequest]
    cases ho : w.toRequest o with
    | none => exact Or.inr ⟨⟨o, List.mem_cons_self, ho⟩, rfl⟩
    | some r =>
      rcases ih (s.serverOnReceive funcs r) with ⟨rs, hrs, hfold⟩ | ⟨⟨o', ho', hnone⟩, hfold⟩
      · exact Or.inl ⟨r :: rs, by rw [List.map_cons, List.map_cons, ho, hrs], hfold⟩
      · exact Or.inr ⟨⟨o', List.mem_cons_of_mem o ho', hnone⟩, hfold⟩

/-! ### One event -/

namespace Reception

variable {s t : Reception V F}

/-- A buffer arrives: the objects that it completes convert and are dispatched, or one of them does
not convert. -/
theorem onReceive_cases (w : ForeignWire O) (funcs : Std.ExtTreeMap Str (RPCFunc F))
    (s : Reception V F) (buf : ReceiveBuffer) :
    (∃ rs : List Request,
      (objects w.toUnpacker (s.kept ++ buf.val)).1.map w.toRequest = rs.map some ∧
      s.onReceive w funcs buf =
        { s with
          conn := rs.foldl (serverOnReceive funcs) s.conn
          kept := (objects w.toUnpacker (s.kept ++ buf.val)).2
          escaped := w.malformed (objects w.toUnpacker (s.kept ++ buf.val)).2 }) ∨
    (∃ o ∈ (objects w.toUnpacker (s.kept ++ buf.val)).1, w.toRequest o = none) ∧
      s.onReceive w funcs buf = { s with escaped := true } := by
  have hread : serverReceive w.toWire funcs (s.conn, s.kept) [buf] =
      ((objects w.toUnpacker (s.kept ++ buf.val)).1.foldlM (handleRequest w.toWire funcs)
        s.conn).map fun conn => (conn, (objects w.toUnpacker (s.kept ++ buf.val)).2) := by
    rw [← drain_eq_foldlM]
    exact Option.bind_fun_some _
  rw [onReceive, hread]
  rcases foldlM_handleRequest w.toWire s.conn (objects w.toUnpacker (s.kept ++ buf.val)).1 with
    ⟨rs, hrs, hfold⟩ | ⟨hnone, hfold⟩
  · exact Or.inl ⟨rs, hrs, by rw [hfold, Option.map_some]⟩
  · exact Or.inr ⟨hnone, by rw [hfold, Option.map_none]⟩

/-- An event is the arrival of the next buffer or the run of a task. -/
theorem step_cases {e : Event} (h : s.step m w funcs e = some t) :
    s.escaped = false ∧
    ((∃ buf coming, e = .receive ∧ s.coming = buf :: coming ∧ s.conn.serving = true ∧
      t = { s with arrived := s.arrived ++ [buf], coming := coming }.onReceive w funcs buf) ∨
    ∃ pre x post, s.conn.tasks = pre ++ x :: post ∧ e = .task pre.length ∧
      t = { s with conn := { s.conn with tasks := pre ++ post } }.runTask m x) := by
  cases e with
  | receive =>
    rw [step] at h
    split at h
    · exact absurd h (by simp)
    · rename_i buf coming hcoming
      rw [Option.ite_none_right_eq_some, Option.some.injEq] at h
      exact ⟨h.1.1, Or.inl ⟨buf, coming, rfl, hcoming, h.1.2, h.2.symm⟩⟩
  | task i =>
    rw [step, Option.ite_none_right_eq_some, Option.map_eq_some_iff] at h
    obtain ⟨hescaped, x, hx, rfl⟩ := h
    obtain ⟨pre, post, hsplit, rfl, herase⟩ := split_of_getElem? hx
    exact ⟨hescaped, Or.inr ⟨pre, x, post, hsplit, rfl, by rw [herase]⟩⟩

/-- The task at the given place can run. -/
theorem step_task (hescaped : s.escaped = false) {x : ServerTask F} {pre post : List (ServerTask F)}
    (hx : s.conn.tasks = pre ++ x :: post) :
    s.step m w funcs (.task pre.length) =
      some ({ s with conn := { s.conn with tasks := pre ++ post } }.runTask m x) := by
  have herase : (pre ++ x :: post).eraseIdx pre.length = pre ++ post := by
    rw [List.eraseIdx_append_of_length_le le_rfl, Nat.sub_self, List.eraseIdx_cons_zero]
  rw [step, if_pos hescaped, hx, List.getElem?_append_right le_rfl, Nat.sub_self,
    List.getElem?_cons_zero, Option.map_some, herase]

/-- The next buffer can arrive. -/
theorem step_receive (hescaped : s.escaped = false) (hserving : s.conn.serving = true)
    {buf : ReceiveBuffer} {coming : List ReceiveBuffer} (hcoming : s.coming = buf :: coming) :
    s.step m w funcs .receive =
      some ({ s with arrived := s.arrived ++ [buf], coming := coming }.onReceive w funcs buf) := by
  rw [step, hcoming]
  exact if_pos ⟨hescaped, hserving⟩

/-- A task ends the program when it is a deferred call whose arguments do not convert. -/
theorem runTask_cases (s : Reception V F) (x : ServerTask F) :
    (∃ conn, s.conn.runTyped m x = some conn ∧ s.runTask m x = { s with conn := conn }) ∨
    (∃ id f buf, x = .deferredRPCCall id f buf ∧ convertArgs m f buf = none) ∧
      s.runTask m x = { s with escaped := true } := by
  rw [runTask]
  cases hrun : s.conn.runTyped m x with
  | some conn => exact Or.inl ⟨conn, rfl, rfl⟩
  | none =>
    right
    cases x with
    | disconnect => exact absurd hrun (by simp [runTyped])
    | deferredRPCCall id f buf =>
      rw [runTyped, Connection.runTask, Option.map_eq_none_iff] at hrun
      exact ⟨⟨id, f, buf, rfl, hrun⟩, rfl⟩

/-- The invariant: what has arrived is read up to an object that is not complete, its objects are
requests, and these are dispatched. -/
structure Reading (m : F → Msgpack V) (w : ForeignWire O) (funcs : Std.ExtTreeMap Str (RPCFunc F))
    (bufs : List ReceiveBuffer) (s : Reception V F) : Prop where
  buffers : s.arrived ++ s.coming = bufs
  kept : s.kept = (objects w.toUnpacker (stream s.arrived)).2
  wellFormed : w.malformed s.kept = false
  requests : (s.messages w).map w.toRequest = s.conn.received.map some
  dispatched : Dispatched m funcs s.conn

variable {bufs : List ReceiveBuffer}

theorem reading_accept : Reading m w funcs bufs (accept bufs) where
  buffers := rfl
  kept := by
    rw [accept, stream, List.flatMap_nil, objects_of_next_eq_none (next_nil _)]
  wellFormed := w.malformed_nil
  requests := by
    rw [accept, messages, stream, List.flatMap_nil, objects_of_next_eq_none (next_nil _)]
    rfl
  dispatched := dispatched_start

/-- The objects of what has arrived, with one more buffer. -/
theorem Reading.objects_concat (h : Reading m w funcs bufs s) (hw : w.Incremental)
    (buf : ReceiveBuffer) :
    objects w.toUnpacker (stream (s.arrived ++ [buf])) =
      (s.messages w ++ (objects w.toUnpacker (s.kept ++ buf.val)).1,
        (objects w.toUnpacker (s.kept ++ buf.val)).2) := by
  rw [stream_append, stream_singleton, objects_append hw.next, ← h.kept, messages]

/-- An event from which no error escapes keeps the invariant. -/
theorem Reading.step (h : Reading m w funcs bufs s) (hw : w.Incremental) {e : Event}
    (hst : s.step m w funcs e = some t) (ht : t.escaped = false) : Reading m w funcs bufs t := by
  obtain ⟨-, ⟨buf, coming, -, hcoming, -, rfl⟩ | ⟨pre, x, post, hx, -, rfl⟩⟩ := step_cases hst
  · have hobjects := h.objects_concat hw buf
    rcases onReceive_cases w funcs
      { s with arrived := s.arrived ++ [buf], coming := coming } buf with
      ⟨rs, hrs, heq⟩ | ⟨-, heq⟩
    · rw [heq] at ht ⊢
      refine ⟨?_, ?_, ht, ?_, h.dispatched.foldl rs⟩
      · rw [← h.buffers, hcoming, List.append_assoc, List.singleton_append]
      · exact (congrArg Prod.snd hobjects).symm
      · rw [messages, hobjects, List.map_append, h.requests, hrs, received_foldl, List.map_append]
    · rw [heq] at ht
      exact absurd ht (by simp)
  · rcases runTask_cases (m := m) { s with conn := { s.conn with tasks := pre ++ post } } x with
      ⟨conn, hrun, heq⟩ | ⟨-, heq⟩
    · rw [heq]
      refine ⟨h.buffers, h.kept, h.wellFormed, ?_, h.dispatched.runTyped hx hrun⟩
      obtain ⟨-, rfl⟩ | ⟨_, _, _, _, -, -, rfl⟩ := runTyped_eq_some.1 hrun
      all_goals exact h.requests
    · rw [heq] at ht
      exact absurd ht (by simp)

/-! ### Tame streams -/

/-- A message that has arrived has its request among the received ones, and conversely. -/
theorem Reading.mem_received (h : Reading m w funcs bufs s) {r : Request} :
    r ∈ s.conn.received ↔ ∃ o ∈ s.messages w, w.toRequest o = some r := by
  have hmem : some r ∈ s.conn.received.map some ↔ r ∈ s.conn.received := by simp
  rw [← hmem, ← h.requests, List.mem_map]

theorem Reading.toRequest_isSome (h : Reading m w funcs bufs s) {o : O} (ho : o ∈ s.messages w) :
    (w.toRequest o).isSome := by
  have hmem : w.toRequest o ∈ s.conn.received.map some := by
    rw [← h.requests]
    exact List.mem_map_of_mem ho
  obtain ⟨r, -, hr⟩ := List.mem_map.1 hmem
  rw [← hr, Option.isSome_some]

/-- What has arrived of a tame stream is tame. -/
theorem Reading.tame_arrived (h : Reading m w funcs bufs s) (hw : w.Incremental)
    (htame : Tame m w funcs (stream bufs)) : Tame m w funcs (stream s.arrived) := by
  rw [← h.buffers, stream_append] at htame
  exact htame.of_append hw

theorem Reading.args_isSome (h : Reading m w funcs bufs s) (hw : w.Incremental)
    (htame : Tame m w funcs (stream bufs)) {r : Request} (hr : r ∈ s.conn.received)
    {f : RPCFunc F} (hf : funcs[r.name]? = some f) : (convertArgs m f r.args).isSome := by
  obtain ⟨o, ho, hor⟩ := h.mem_received.1 hr
  exact (h.tame_arrived hw htame).args o ho r hor f hf

/-- No error escapes while a tame stream is read. -/
theorem Reading.not_escaped (h : Reading m w funcs bufs s) (hw : w.Incremental)
    (htame : Tame m w funcs (stream bufs)) {e : Event} (hst : s.step m w funcs e = some t) :
    t.escaped = false := by
  obtain ⟨hescaped, ⟨buf, coming, -, hcoming, -, rfl⟩ | ⟨pre, x, post, hx, -, rfl⟩⟩ :=
    step_cases hst
  · have hnext : Tame m w funcs (stream (s.arrived ++ [buf])) := by
      rw [← h.buffers, hcoming, ← List.singleton_append, ← List.append_assoc,
        stream_append] at htame
      exact htame.of_append hw
    have hwell := hnext.wellFormed
    have hrequest := hnext.request
    rw [h.objects_concat hw buf] at hwell hrequest
    rcases onReceive_cases w funcs
      { s with arrived := s.arrived ++ [buf], coming := coming } buf with
      ⟨rs, -, heq⟩ | ⟨⟨o, ho, hnone⟩, -⟩
    · rw [heq]
      exact hwell
    · have hsome := hrequest o (List.mem_append_right _ ho)
      rw [hnone] at hsome
      exact absurd hsome (by simp)
  · rcases runTask_cases (m := m) { s with conn := { s.conn with tasks := pre ++ post } } x with
      ⟨conn, -, heq⟩ | ⟨⟨id, f, buf, rfl, hnone⟩, -⟩
    · rw [heq]
      exact hescaped
    · -- The work of the task is that of a request received, whose arguments convert.
      have hwork : (id, f, buf) ∈ s.conn.received.filterMap (Request.work funcs) := by
        refine h.dispatched.work.mem_iff.1 (List.mem_append_left _ ?_)
        exact List.mem_filterMap.2 ⟨.deferredRPCCall id f buf, by simp [hx], rfl⟩
      obtain ⟨r, hr, hrf⟩ := List.mem_filterMap.1 hwork
      obtain ⟨f', hf', heq⟩ := Option.map_eq_some_iff.1 hrf
      obtain ⟨rfl, rfl, rfl⟩ := heq
      have hsome := h.args_isSome hw htame hr hf'
      rw [hnone] at hsome
      exact absurd hsome (by simp)

/-- A state of a run over a tame stream. -/
theorem reading_of_exec (hw : w.Incremental) (htame : Tame m w funcs (stream bufs))
    {es : List Event} (hrun : exec (Reception.step m w funcs) (accept bufs) es = some s) :
    Reading m w funcs bufs s ∧ s.escaped = false := by
  refine exec_induction (fun _ s => Reading m w funcs bufs s ∧ s.escaped = false)
    ⟨reading_accept, rfl⟩ ?_ hrun
  intro _ s e t _ ih hst
  have ht := ih.1.not_escaped hw htame hst
  exact ⟨ih.1.step hw hst ht, ht⟩

/-- The calls that the messages of a tame stream ask for are the work of the requests. -/
theorem Reading.filterMap_asked (h : Reading m w funcs bufs s) (hw : w.Incremental)
    (htame : Tame m w funcs (stream bufs)) :
    (s.messages w).filterMap (asked m w funcs) =
      s.conn.received.filterMap (Request.work funcs) := by
  calc (s.messages w).filterMap (asked m w funcs)
      = ((s.messages w).map w.toRequest).filterMap fun x => x.bind fun r =>
          (r.work funcs).filter fun x => (convertArgs m x.2.1 x.2.2).isSome := by
        rw [List.filterMap_map]
        rfl
    _ = s.conn.received.filterMap fun r =>
          (r.work funcs).filter fun x => (convertArgs m x.2.1 x.2.2).isSome := by
        rw [h.requests, List.filterMap_map]
        rfl
    _ = s.conn.received.filterMap (Request.work funcs) := by
        refine List.filterMap_congr fun r hr => ?_
        cases hf : funcs[r.name]? with
        | none => simp [Request.work, hf]
        | some f => simp [Request.work, hf, h.args_isSome hw htame hr hf]

/-- Every message of a tame stream that has arrived is handled. -/
theorem Reading.handled (h : Reading m w funcs bufs s) (hw : w.Incremental)
    (htame : Tame m w funcs (stream bufs)) (hescaped : s.escaped = false) :
    Handled m w funcs s := by
  refine ⟨hescaped, ?_, h.dispatched.args, fun o ho hnone => ?_⟩
  · rw [h.filterMap_asked hw htame]
    exact h.dispatched.work
  · obtain ⟨r, hr⟩ := Option.isSome_iff_exists.1 (h.toRequest_isSome ho)
    have hmem : r ∈ s.conn.received := h.mem_received.2 ⟨o, ho, hr⟩
    refine h.dispatched.disconnect r hmem ?_
    -- A request for a registered function would ask for a call.
    cases hf : funcs[r.name]? with
    | none => rfl
    | some f =>
      have hsome := h.args_isSome hw htame hmem hf
      simp only [asked, hr, Request.work, hf, Option.map_some, Option.bind_some,
        Option.filter_some, hsome, if_true] at hnone
      exact absurd hnone (by simp)

/-- The tasks that a tame stream leaves run one after the other. -/
theorem Reading.settles (h : Reading m w funcs bufs s) (hw : w.Incremental)
    (htame : Tame m w funcs (stream bufs)) (hescaped : s.escaped = false) :
    ∃ t, exec (Reception.step m w funcs) s (List.replicate s.conn.tasks.length (.task 0)) =
      some t ∧ t.conn.tasks = [] := by
  induction htasks : s.conn.tasks generalizing s with
  | nil => exact ⟨s, rfl, htasks⟩
  | cons x xs ih =>
    have hst : s.step m w funcs (.task 0) =
        some ({ s with conn := { s.conn with tasks := xs } }.runTask m x) :=
      step_task hescaped (htasks.trans (List.nil_append _).symm)
    have ht := h.not_escaped hw htame hst
    have hread := h.step hw hst ht
    have htasks' : ({ s with conn := { s.conn with tasks := xs } }.runTask m x).conn.tasks =
        xs := by
      rcases runTask_cases (m := m) { s with conn := { s.conn with tasks := xs } } x with
        ⟨conn, hrun, heq⟩ | ⟨-, heq⟩
      · rw [heq]
        obtain ⟨-, rfl⟩ | ⟨_, _, _, _, -, -, rfl⟩ := runTyped_eq_some.1 hrun
        all_goals rfl
      · rw [heq]
    obtain ⟨u, hu, hnil⟩ := ih hread ht htasks'
    refine ⟨u, ?_, hnil⟩
    rw [List.length_cons, List.replicate_succ, exec_cons_eq_some]
    exact ⟨_, hst, htasks' ▸ hu⟩

/-! ### Streams that are not tame -/

/-- When no error escapes in any run, all buffers can arrive before any task runs. -/
theorem exists_arrived (hw : w.Incremental)
    (hnot : ∀ (es : List Event) (s : Reception V F),
      exec (Reception.step m w funcs) (accept bufs) es = some s → s.escaped = false) :
    ∃ (es : List Event) (s : Reception V F),
      exec (Reception.step m w funcs) (accept bufs) es = some s ∧ Reading m w funcs bufs s ∧
      s.coming = [] := by
  have hall : ∀ (coming : List ReceiveBuffer) (es : List Event) (s : Reception V F),
      exec (Reception.step m w funcs) (accept bufs) es = some s → Reading m w funcs bufs s →
      s.conn.serving = true → s.coming = coming → ∃ (es : List Event) (s : Reception V F),
        exec (Reception.step m w funcs) (accept bufs) es = some s ∧ Reading m w funcs bufs s ∧
        s.coming = [] := by
    intro coming
    induction coming with
    | nil => exact fun es s hrun hread _ hcoming => ⟨es, s, hrun, hread, hcoming⟩
    | cons buf coming ih =>
      intro es s hrun hread hserving hcoming
      have hst : s.step m w funcs .receive = some
          ({ s with arrived := s.arrived ++ [buf], coming := coming }.onReceive w funcs buf) :=
        step_receive (hnot es s hrun) hserving hcoming
      have hrun' := exec_concat_eq_some.2 ⟨s, hrun, hst⟩
      have ht := hnot _ _ hrun'
      refine ih _ _ hrun' (hread.step hw hst ht) ?_ ?_
      all_goals
        rcases onReceive_cases w funcs
          { s with arrived := s.arrived ++ [buf], coming := coming } buf with
          ⟨rs, -, heq⟩ | ⟨-, heq⟩
        all_goals rw [heq]
      · rw [serving_foldl]
        exact hserving
      · exact hserving
  exact hall bufs [] (accept bufs) rfl reading_accept rfl rfl

/-- A stream from which no error escapes is tame. -/
theorem tame_of_not_escaped (hw : w.Incremental)
    (hnot : ∀ (es : List Event) (s : Reception V F),
      exec (Reception.step m w funcs) (accept bufs) es = some s → s.escaped = false) :
    Tame m w funcs (stream bufs) := by
  obtain ⟨es, s, hrun, hread, hcoming⟩ := exists_arrived hw hnot
  have harrived : s.arrived = bufs := by
    rw [← hread.buffers, hcoming, List.append_nil]
  rw [← harrived]
  refine ⟨hread.kept ▸ hread.wellFormed, fun o ho => hread.toRequest_isSome ho, ?_⟩
  intro o ho r hr f hf
  have hwork : (r.id, f, r.args) ∈ s.conn.received.filterMap (Request.work funcs) :=
    List.mem_filterMap.2 ⟨r, hread.mem_received.2 ⟨o, ho, hr⟩, by rw [Request.work, hf]; rfl⟩
  rcases List.mem_append.1 (hread.dispatched.work.mem_iff.2 hwork) with hmem | hmem
  · -- The call is deferred, and its task can run next.
    obtain ⟨x, hx, hxwork⟩ := List.mem_filterMap.1 hmem
    obtain ⟨pre, post, hsplit⟩ := List.append_of_mem hx
    have ht := hnot _ _ (exec_concat_eq_some.2 ⟨s, hrun, step_task (hnot es s hrun) hsplit⟩)
    cases x with
    | disconnect => exact absurd hxwork (by simp [ServerTask.work])
    | deferredRPCCall id f' buf =>
      rw [ServerTask.work, Option.some.injEq, Prod.mk.injEq, Prod.mk.injEq] at hxwork
      obtain ⟨rfl, rfl, rfl⟩ := hxwork
      by_contra hnone
      rw [Option.not_isSome_iff_eq_none] at hnone
      rw [convertArgs] at hnone
      simp [runTask, runTyped, Connection.runTask, hnone] at ht
  · obtain ⟨e, he, hework⟩ := List.mem_map.1 hmem
    rw [Execution.work, Prod.mk.injEq, Prod.mk.injEq] at hework
    obtain ⟨-, rfl, hbuf⟩ := hework
    rw [← hbuf, hread.dispatched.args e he, Option.isSome_some]

end Reception

theorem Robust.tame {bufs : List ReceiveBuffer} (h : Robust m w funcs bufs) (hw : w.Incremental) :
    Tame m w funcs (stream bufs) :=
  Reception.tame_of_not_escaped hw fun es s hrun => (h.handled es s hrun).not_escaped

/-- **Bytes of any origin.** Take any stream and any way to cut it into buffers. No error escapes in
any run of receipts and tasks, every message is executed or leads to a disconnect, and the tasks
come to an end, exactly when the stream is tame.

Source: `src/rpc/rpc.cc`, lines 128–173; `src/rpc/rpc.h`, lines 175–271. -/
theorem robust_iff (m : F → Msgpack V) (w : ForeignWire O) (hw : w.Incremental)
    (funcs : Std.ExtTreeMap Str (RPCFunc F)) (bufs : List ReceiveBuffer) :
    Robust m w funcs bufs ↔ Tame m w funcs (stream bufs) := by
  refine ⟨fun h => h.tame hw, fun htame => ⟨fun es s hrun => ?_, fun es s hrun => ?_⟩⟩
  all_goals obtain ⟨hread, hescaped⟩ := Reception.reading_of_exec hw htame hrun
  · exact hread.handled hw htame hescaped
  · exact hread.settles hw htame hescaped

/-! ### The msgpack format -/

/-- The messages in the msgpack format, with the byte that the format leaves unused. -/
def standardForeignWire : ForeignWire (List Value) where
  toWire := { standardWire with
    next := fun p => if p.head? = some 0xc1 then none else nextTuple p
    length_lt := fun h => standardWire.length_lt (Option.ite_none_left_eq_some.1 h).2 }
  malformed p := p.head? = some 0xc1
  malformed_nil := rfl
  next_of_malformed h := if_pos (of_decide_eq_true h)

theorem standardForeignWire_incremental : standardForeignWire.Incremental where
  next := by
    intro p r o h q
    obtain ⟨hhead, hnext⟩ := Option.ite_none_left_eq_some.1 h
    have hhead' : (p ++ q).head? = p.head? := by
      cases p with
      | nil => exact absurd hnext (by simp [nextTuple, Head.parse])
      | cons b p => rfl
    refine Option.ite_none_left_eq_some.2 ⟨hhead'.symm ▸ hhead, ?_⟩
    exact standardWire_incremental hnext q
  malformed := by
    intro p h q
    refine decide_eq_true ?_
    rw [List.head?_append, of_decide_eq_true h, Option.some_or]

/-- All parameters are integers below 128. -/
def anyFixint : ℕ → Msgpack (Fin 128) := fun _ => fixint

/-- Three requests, the last one for a function that is not registered. -/
def threeRequests : List ReceiveBuffer :=
  [⟨[0x93, 7, 0xa1, 102, 0xa3, 0x92, 1, 2, 0x93, 8], by decide⟩,
    ⟨[0xa1, 103, 0xa1, 0x90, 0x93], by decide⟩, ⟨[9, 0xa1, 104, 0xa1, 0x90], by decide⟩]

theorem objects_threeRequests :
    objects standardForeignWire.toUnpacker (stream threeRequests) =
      ([requestTuple ⟨7, [102], [0x92, 1, 2]⟩, requestTuple ⟨8, [103], [0x90]⟩,
        requestTuple ⟨9, [104], [0x90]⟩], []) := by
  have h1 : standardForeignWire.next (stream threeRequests) =
      some (requestTuple ⟨7, [102], [0x92, 1, 2]⟩,
        [0x93, 8, 0xa1, 103, 0xa1, 0x90, 0x93, 9, 0xa1, 104, 0xa1, 0x90]) := by decide
  have h2 : standardForeignWire.next
      [0x93, 8, 0xa1, 103, 0xa1, 0x90, 0x93, 9, 0xa1, 104, 0xa1, 0x90] =
      some (requestTuple ⟨8, [103], [0x90]⟩, [0x93, 9, 0xa1, 104, 0xa1, 0x90]) := by decide
  have h3 : standardForeignWire.next [0x93, 9, 0xa1, 104, 0xa1, 0x90] =
      some (requestTuple ⟨9, [104], [0x90]⟩, []) := by decide
  rw [objects_of_next_eq_some h1, objects_of_next_eq_some h2, objects_of_next_eq_some h3,
    objects_of_next_eq_none (next_nil _)]

theorem tame_threeRequests :
    Tame anyFixint standardForeignWire twoFuncs (stream threeRequests) := by
  constructor
  all_goals rw [objects_threeRequests]
  · rfl
  · decide
  · decide

theorem robust_threeRequests :
    standardForeignWire.Incremental ∧
      Robust anyFixint standardForeignWire twoFuncs threeRequests :=
  ⟨standardForeignWire_incremental,
    (robust_iff anyFixint standardForeignWire standardForeignWire_incremental twoFuncs
      threeRequests).2 tame_threeRequests⟩

/-- The byte that begins no object. -/
def unusedByte : List ReceiveBuffer := [⟨[0xc1], by decide⟩]

/-- A tuple of one number. -/
def shortTuple : List ReceiveBuffer := [⟨[0x91, 5], by decide⟩]

/-- A request with one argument for the function of two parameters. -/
def shortArgs : List ReceiveBuffer := [⟨[0x93, 7, 0xa1, 102, 0xa2, 0x91, 1], by decide⟩]

/-- Each of these streams ends the program. -/
theorem not_robust_short :
    ¬ Robust anyFixint standardForeignWire twoFuncs unusedByte ∧
    ¬ Robust anyFixint standardForeignWire twoFuncs shortTuple ∧
    ¬ Robust anyFixint standardForeignWire twoFuncs shortArgs := by
  refine ⟨fun h => ?_, fun h => ?_, fun h => ?_⟩
  all_goals have htame := h.tame standardForeignWire_incremental
  · have hnext : standardForeignWire.next (stream unusedByte) = none := by decide
    have hwell := htame.wellFormed
    rw [objects_of_next_eq_none hnext] at hwell
    exact absurd hwell (by decide)
  · have hnext : standardForeignWire.next (stream shortTuple) = some ([.uint64 5], []) := by decide
    have hrequest := htame.request [.uint64 5]
      (by rw [objects_of_next_eq_some hnext]; exact List.mem_cons_self)
    exact absurd hrequest (by decide)
  · have hnext : standardForeignWire.next (stream shortArgs) =
        some (requestTuple ⟨7, [102], [0x91, 1]⟩, []) := by decide
    have hargs := htame.args (requestTuple ⟨7, [102], [0x91, 1]⟩)
      (by rw [objects_of_next_eq_some hnext]; exact List.mem_cons_self)
      ⟨7, [102], [0x91, 1]⟩ rfl ⟨0, 2⟩ (by decide)
    exact absurd hargs (by decide)

end RawDish.Rpc.Connection
