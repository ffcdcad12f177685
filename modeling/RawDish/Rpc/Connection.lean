import RawDish.Basic
import RawDish.Lib.Exec

/-!
# One client connected to one server

An `RPCClient` and the `RPCServer::Connection` at the other end of its socket. A call takes the
next request number, stores a callback under it and writes the request. The server hands a request
to a worker as a deferred task; the task runs the registered function, which returns a future, and
when that future is set the response is written. The client hands the payload of a response and
the stored callback to a worker and forgets the callback; the callback sets the future of the
call. `disconnect` calls the callbacks that are left with a null buffer, which sets the default
value.

The tasks of both sides run in any order, the futures that functions return are set in any order,
responses are delivered in any order and any number of times, and responses with numbers that
nobody waits for may arrive at any time. `Connection` is the state of both ends with a record of
the requests received, the executions made and the futures set.

Values are of one type `V`, and `msgpack` is a parameter: `packArgs` and `unpackArgs` for the
argument tuples of the serializers and deserializers, which differ in the number of arguments
only, `pack` and `unpack` for results. The tuples around them, with the request number, are kept
as structures.

## Main definitions

* `Msgpack` : packing and unpacking.
* `Connection`, `Action`, `Connection.step` : both ends of the connection.

## References

* `src/rpc/rpc.h`, lines 74–271 and 479–532; `src/rpc/rpc.cc`, lines 116–173 and 224–274.
-/

namespace RawDish.Rpc.Connection

open Lib

/-- The bytes of a buffer. -/
abbrev IOBuffer := List UInt8

/-- Packing of argument tuples and of results. Unpacking a tuple of a given size fails with a type
error on other data. -/
structure Msgpack (V : Type) where
  packArgs : List V → IOBuffer
  unpackArgs : ℕ → IOBuffer → Option (List V)
  pack : V → IOBuffer
  unpack : IOBuffer → V

/-- What unpacks what was packed: the tuples of up to five arguments, and the results. -/
structure Msgpack.RoundTrips {V : Type} (m : Msgpack V) : Prop where
  args : ∀ args : List V, args.length ≤ 5 → m.unpackArgs args.length (m.packArgs args) = some args
  result : ∀ v, m.unpack (m.pack v) = v

/-- A function as registered: `func` is the function and `arity` the number of its parameters. -/
structure RPCFunc (F : Type) where
  func : F
  arity : ℕ
  deriving DecidableEq

/-- A call of the client with the default value `A()` of its result type. -/
structure Call (V : Type) where
  name : Str
  args : List V
  default : V
  deriving DecidableEq

structure Request where
  id : UInt64
  name : Str
  args : IOBuffer
  deriving DecidableEq

structure Response where
  id : UInt64
  payload : IOBuffer
  deriving DecidableEq

/-- What the server enqueues for a worker. -/
inductive ServerTask (F : Type)
  | deferredRPCCall (id : UInt64) (func : RPCFunc F) (args : IOBuffer)
  | disconnect
  deriving DecidableEq

/-- One execution of a registered function, with the value of the future it returned once that is
set. `buf` is the buffer that the arguments were unpacked from. -/
structure Execution (V F : Type) where
  id : UInt64
  func : RPCFunc F
  buf : IOBuffer
  args : List V
  result : Option V
  deriving DecidableEq

/-- What set the future of a call. -/
inductive Origin
  | response
  | disconnect
  deriving DecidableEq

/-- One `set` of the future of the call number `call`. -/
structure Setting (V : Type) where
  call : ℕ
  value : V
  origin : Origin
  deriving DecidableEq

end Connection

open Connection in
/-- Both ends of a connection. -/
structure Connection (V F : Type) where
  /-- The calls made so far; the future of a call is named by its position. -/
  calls : List (Call V)
  reqId : UInt64
  /-- The callback stored under a request number sets the future of the call given. -/
  respCallbacks : Std.ExtTreeMap UInt64 ℕ
  connected : Bool
  /-- Callbacks enqueued at the client with their payload. -/
  callbacks : List (ℕ × IOBuffer)
  settings : List (Setting V)
  /-- Requests written and not received. -/
  requests : List Request
  serving : Bool
  received : List Request
  tasks : List (ServerTask F)
  executions : List (Execution V F)
  /-- Responses written; each may be delivered any number of times. -/
  responses : List Response

namespace Connection

variable {V F : Type}

/-- What can happen next: a call, the receipt of the `i`-th request, the `i`-th task of the server,
the completion of the `j`-th execution with a value, the delivery of the `i`-th response or of a
response with a number nobody waits for, the `i`-th callback at the client, or `disconnect`. -/
inductive Action (V : Type)
  | call (name : Str) (args : List V) (default : V)
  | receive (i : ℕ)
  | task (i : ℕ)
  | complete (j : ℕ) (value : V)
  | deliver (i : ℕ)
  | unknown (p : Response)
  | callback (i : ℕ)
  | disconnect

/-- A client just connected. -/
def start : Connection V F where
  calls := []
  reqId := 0
  respCallbacks := ∅
  connected := true
  callbacks := []
  settings := []
  requests := []
  serving := true
  received := []
  tasks := []
  executions := []
  responses := []

/-- `RPCClient::call`: store the callback, take the number and write the request. A write to a
closed socket is lost. -/
def call (m : Msgpack V) (s : Connection V F) (c : Call V) : Connection V F :=
  { s with
    calls := s.calls ++ [c]
    respCallbacks := s.respCallbacks.insert s.reqId s.calls.length
    reqId := s.reqId + 1
    requests := if s.connected then s.requests ++ [⟨s.reqId, c.name, m.packArgs c.args⟩]
      else s.requests }

/-- `RPCServer::Connection::Internal::onReceive`: enqueue the call, or a disconnect when the name
is not registered. -/
def serverOnReceive (funcs : Std.ExtTreeMap Str (RPCFunc F)) (s : Connection V F) (r : Request) :
    Connection V F :=
  { s with
    received := s.received ++ [r]
    tasks := s.tasks ++ [match funcs[r.name]? with
      | some f => .deferredRPCCall r.id f r.args
      | none => .disconnect] }

/-- `deserializeArgs`: a function without parameters does not look at the buffer. -/
def deserializeArgs (m : Msgpack V) (f : RPCFunc F) (buf : IOBuffer) : Option (List V) :=
  if f.arity = 0 then some [] else m.unpackArgs f.arity buf

/-- A task of the server: run the function on the arguments, or close the socket. A type error in
the arguments is not caught and ends the program. -/
def runTask (m : Msgpack V) (s : Connection V F) : ServerTask F → Option (Connection V F)
  | .deferredRPCCall id f buf => (deserializeArgs m f buf).map fun args =>
      { s with executions := s.executions ++ [⟨id, f, buf, args, none⟩] }
  | .disconnect => some { s with serving := false }

/-- The future of an execution is set: `serializeFuture` and `responseCallback` write the
response. A write to a closed socket is lost. -/
def complete (m : Msgpack V) (s : Connection V F) (j : ℕ) (e : Execution V F) (v : V) :
    Connection V F :=
  { s with
    executions := s.executions.set j { e with result := some v }
    responses := if s.serving then s.responses ++ [⟨e.id, m.pack v⟩] else s.responses }

/-- `RPCClient::Internal::onReceive`: enqueue the callback with the payload and forget it; a
response with another number is dropped. -/
def clientOnReceive (s : Connection V F) (p : Response) : Connection V F :=
  match s.respCallbacks[p.id]? with
  | some k =>
    { s with
      callbacks := s.callbacks ++ [(k, p.payload)]
      respCallbacks := s.respCallbacks.erase p.id }
  | none => s

/-- `deserializeFuture` with a buffer. -/
def deserializeFuture (m : Msgpack V) (s : Connection V F) (cb : ℕ × IOBuffer) : Connection V F :=
  { s with settings := s.settings ++ [⟨cb.1, m.unpack cb.2, .response⟩] }

/-- `RPCClient::Internal::disconnect`: every callback that is left is called with a null buffer,
in the order of the numbers, and sets the default value. -/
def disconnect (s : Connection V F) : Connection V F :=
  { s with
    connected := false
    settings := s.settings ++ s.respCallbacks.toList.filterMap fun e =>
      s.calls[e.2]?.map fun c => ⟨e.2, c.default, .disconnect⟩
    respCallbacks := ∅ }

/-- One action. The templates of `call` take up to five arguments; nothing is received after the
socket is closed; a function sets the future it returned once. -/
def step (m : Msgpack V) (funcs : Std.ExtTreeMap Str (RPCFunc F)) (s : Connection V F) :
    Action V → Option (Connection V F)
  | .call name args default =>
    if args.length ≤ 5 then some (s.call m ⟨name, args, default⟩) else none
  | .receive i =>
    if s.serving then
      s.requests[i]?.map fun r =>
        { s with requests := s.requests.eraseIdx i }.serverOnReceive funcs r
    else none
  | .task i => s.tasks[i]?.bind fun t => { s with tasks := s.tasks.eraseIdx i }.runTask m t
  | .complete j v =>
    s.executions[j]?.bind fun e => if e.result.isNone then some (s.complete m j e v) else none
  | .deliver i => if s.connected then s.responses[i]?.map s.clientOnReceive else none
  | .unknown p =>
    if s.connected ∧ s.respCallbacks[p.id]? = none then some (s.clientOnReceive p) else none
  | .callback i =>
    s.callbacks[i]?.map fun cb =>
      { s with callbacks := s.callbacks.eraseIdx i }.deserializeFuture m cb
  | .disconnect => some s.disconnect

end Connection

end RawDish.Rpc
