import RawDish.Lib.Msgpack
import RawDish.Lib.Stream
import RawDish.Rpc.Matching

/-!
# The stream of a connection

Requests and responses are msgpack objects that are written one after the other to a socket: a
request is a tuple of its number, its name and the packed arguments as one string of bytes, a
response one of its number and the packed result. The other end receives the stream in buffers that
are cut anywhere. `onReceive` of both ends appends a buffer to what `msgpack::unpacker` keeps, and
takes out and handles the objects that are complete.

`msgpack` is a parameter (`Wire`). That the unpacker reserves the space it is asked for is part of
what it does, so that the branch of `onReceive` for a capacity that is too small is not taken.

## Main definitions

* `Wire`, `Wire.RoundTrips` : `msgpack` on streams.
* `serializeArgs`, `responseCallback` : what is written.
* `serverReceive`, `clientReceive` : the two functions `onReceive`.

## Main results

* `framing` : the requests and responses that are written are handled, however the stream is cut.

## References

* `src/rpc/rpc.h`, lines 102–173; `src/rpc/rpc.cc`, lines 116–126, 136–173 and 240–274.
-/

namespace RawDish.Rpc.Connection

open Lib

variable {V F O : Type}

/-- `msgpack` on streams: the unpacker, and the tuples that are packed into objects and converted
from them. A conversion fails with a type error on other objects. -/
structure Wire (O : Type) extends Unpacker O where
  packRequest : Request → IOBuffer
  toRequest : O → Option Request
  packResponse : Response → IOBuffer
  toResponse : O → Option Response

/-- The unpacker is incremental, and reads and converts what was packed. -/
structure Wire.RoundTrips (w : Wire O) : Prop where
  incremental : w.toUnpacker.Incremental
  request : ∀ (r : Request) (rest : IOBuffer), ∃ o,
    w.next (w.packRequest r ++ rest) = some (o, rest) ∧ w.toRequest o = some r
  response : ∀ (p : Response) (rest : IOBuffer), ∃ o,
    w.next (w.packResponse p ++ rest) = some (o, rest) ∧ w.toResponse o = some p

/-- The bytes of a request with any number of arguments. -/
def serializeArgs (m : Msgpack V) (w : Wire O) (id : UInt64) (c : Call V) : IOBuffer :=
  w.packRequest ⟨id, c.name, m.packArgs c.args⟩

/-- The bytes that `responseCallback` writes for a result that is packed. -/
def responseCallback (w : Wire O) (id : UInt64) (payload : IOBuffer) : IOBuffer :=
  w.packResponse ⟨id, payload⟩

/-- A buffer that was received; the code keeps its size in an `int`. -/
def ReceiveBuffer : Type := { buf : IOBuffer // buf.length < 2 ^ 31 }

/-- The loop of the server: convert an object to a request and dispatch it. -/
def handleRequest (w : Wire O) (funcs : Std.ExtTreeMap Str (RPCFunc F)) (s : Connection V F)
    (o : O) : Option (Connection V F) :=
  (w.toRequest o).map (s.serverOnReceive funcs)

/-- The loop of the client. -/
def handleResponse (w : Wire O) (s : Connection V F) (o : O) : Option (Connection V F) :=
  (w.toResponse o).map s.clientOnReceive

/-- `RPCServer::Connection::Internal::onReceive` for one buffer after the other. The second
component is what the unpacker keeps. -/
def serverReceive (w : Wire O) (funcs : Std.ExtTreeMap Str (RPCFunc F))
    (st : Connection V F × IOBuffer) (bufs : List ReceiveBuffer) :
    Option (Connection V F × IOBuffer) :=
  feedAll w.toUnpacker (handleRequest w funcs) st (bufs.map Subtype.val)

/-- `RPCClient::Internal::onReceive` for one buffer after the other. -/
def clientReceive (w : Wire O) (st : Connection V F × IOBuffer) (bufs : List ReceiveBuffer) :
    Option (Connection V F × IOBuffer) :=
  feedAll w.toUnpacker (handleResponse w) st (bufs.map Subtype.val)

/-- The requests that the server has received are recorded in their order. -/
theorem received_foldl (funcs : Std.ExtTreeMap Str (RPCFunc F)) (s : Connection V F)
    (rs : List Request) :
    (rs.foldl (serverOnReceive funcs) s).received = s.received ++ rs := by
  induction rs generalizing s with
  | nil => exact (List.append_nil _).symm
  | cons r rs ih =>
    rw [List.foldl_cons, ih]
    simp [serverOnReceive]

/-- What arrives while nothing is kept is read as one stream. -/
theorem feedAll_nil_eq_drain {u : Unpacker O} (hu : u.Incremental)
    (handle : Connection V F → O → Option (Connection V F)) (s : Connection V F)
    (bufs : List ReceiveBuffer) :
    feedAll u handle (s, []) (bufs.map Subtype.val) =
      drain u handle s (bufs.map Subtype.val).flatten := by
  rw [feedAll_eq_drain hu (s, []) (next_nil u), List.nil_append]

/-- **Framing.** However the stream of the requests is cut into buffers, the server dispatches these
requests in their order and keeps nothing; and so does the client with the stream of the
responses. -/
theorem framing {w : Wire O} (hw : w.RoundTrips) (m : Msgpack V)
    (funcs : Std.ExtTreeMap Str (RPCFunc F)) (s : Connection V F) :
    (∀ (calls : List (UInt64 × Call V)) (bufs : List ReceiveBuffer),
      (bufs.map Subtype.val).flatten = calls.flatMap (fun c => serializeArgs m w c.1 c.2) →
      ∃ t, serverReceive w funcs (s, []) bufs = some (t, []) ∧
        t = (calls.map fun c => ⟨c.1, c.2.name, m.packArgs c.2.args⟩).foldl
          (serverOnReceive funcs) s ∧
        t.received = s.received ++ calls.map fun c => ⟨c.1, c.2.name, m.packArgs c.2.args⟩) ∧
    ∀ (ps : List Response) (bufs : List ReceiveBuffer),
      (bufs.map Subtype.val).flatten = ps.flatMap (fun p => responseCallback w p.id p.payload) →
      clientReceive w (s, []) bufs = some (ps.foldl clientOnReceive s, []) := by
  refine ⟨fun calls bufs hbufs => ⟨_, ?_, rfl, received_foldl funcs s _⟩, fun ps bufs hbufs => ?_⟩
  · rw [serverReceive, feedAll_nil_eq_drain hw.incremental, hbufs, List.foldl_map]
    refine drain_flatMap (fun c t rest => ?_) s calls
    obtain ⟨o, hnext, hreq⟩ := hw.request ⟨c.1, c.2.name, m.packArgs c.2.args⟩ rest
    exact ⟨o, hnext, by rw [handleRequest, hreq, Option.map_some]⟩
  · rw [clientReceive, feedAll_nil_eq_drain hw.incremental, hbufs]
    refine drain_flatMap (fun p t rest => ?_) s ps
    obtain ⟨o, hnext, hresp⟩ := hw.response p rest
    exact ⟨o, hnext, by rw [handleResponse, hresp, Option.map_some]⟩

/-! ### The msgpack format -/

/-- A tuple in the msgpack format. -/
def packTuple (vs : List Value) : IOBuffer :=
  Head.pack (.array vs.length) ++ vs.flatMap Value.pack

/-- The tuple at the beginning of a stream. -/
def nextTuple (p : IOBuffer) : Option (List Value × IOBuffer) :=
  match Head.parse p with
  | some (.array n, l) => Value.parseList n l
  | _ => none

theorem nextTuple_packTuple (vs : List Value) (rest : IOBuffer) :
    nextTuple (packTuple vs ++ rest) = some (vs, rest) := by
  simp only [nextTuple, packTuple, List.append_assoc, Head.parse_pack, Value.parseList_flatMap]

theorem nextTuple_eq_some {p r : IOBuffer} {vs : List Value} (h : nextTuple p = some (vs, r)) :
    ∃ n l, Head.parse p = some (.array n, l) ∧ Value.parseList n l = some (vs, r) := by
  rw [nextTuple] at h
  split at h
  · exact ⟨_, _, ‹_›, h⟩
  · simp at h

/-- The tuple that is packed for a request. -/
def requestTuple (r : Request) : List Value := [.uint64 r.id, .string r.name, .string r.args]

def tupleRequest : List Value → Option Request
  | [.uint64 id, .string name, .string args] => some ⟨id, name, args⟩
  | _ => none

/-- The tuple that is packed for a response. -/
def responseTuple (p : Response) : List Value := [.uint64 p.id, .string p.payload]

def tupleResponse : List Value → Option Response
  | [.uint64 id, .string payload] => some ⟨id, payload⟩
  | _ => none

/-- The messages in the msgpack format. -/
def standardWire : Wire (List Value) where
  next := nextTuple
  length_lt h := by
    obtain ⟨n, l, hhead, hlist⟩ := nextTuple_eq_some h
    exact (Value.length_of_parseList hlist).trans_lt (Head.length_of_parse hhead)
  packRequest r := packTuple (requestTuple r)
  toRequest := tupleRequest
  packResponse p := packTuple (responseTuple p)
  toResponse := tupleResponse

theorem standardWire_incremental : standardWire.toUnpacker.Incremental := by
  intro p r o h q
  obtain ⟨n, l, hhead, hlist⟩ := nextTuple_eq_some h
  change nextTuple (p ++ q) = _
  simp only [nextTuple, Head.parse_append hhead, Value.parseList_append hlist]

@[simp] theorem standardWire_next : standardWire.next = nextTuple := rfl

@[simp] theorem standardWire_packRequest (r : Request) :
    standardWire.packRequest r = packTuple (requestTuple r) := rfl

@[simp] theorem standardWire_packResponse (p : Response) :
    standardWire.packResponse p = packTuple (responseTuple p) := rfl

theorem standardWire_roundTrips : standardWire.RoundTrips where
  incremental := standardWire_incremental
  request r rest := by
    refine ⟨requestTuple r, ?_, rfl⟩
    rw [standardWire_next, standardWire_packRequest, nextTuple_packTuple]
  response p rest := by
    refine ⟨responseTuple p, ?_, rfl⟩
    rw [standardWire_next, standardWire_packResponse, nextTuple_packTuple]

/-- A call with two arguments and one with none. -/
def twoRequests : List (UInt64 × Call (Fin 128)) :=
  [(7, ⟨.ofString "f", [small 1, small 2], small 0⟩), (300, ⟨.ofString "g", [], small 0⟩)]

/-- Their stream, cut before the name of the first and within the number of the second. -/
def requestPieces : List ReceiveBuffer :=
  [⟨[0x93, 7], by decide⟩, ⟨[], by decide⟩,
    ⟨[0xa1, 102, 0xa3, 0x92, 1, 2, 0x93, 0xcd, 1], by decide⟩,
    ⟨[44, 0xa1, 103, 0xa1, 0x90], by decide⟩]

/-- A client that waits for the responses to both. -/
def bothWaiting : Connection (Fin 128) ℕ :=
  { (start : Connection (Fin 128) ℕ) with
    calls := twoRequests.map Prod.snd
    reqId := 301
    respCallbacks := ((∅ : Std.ExtTreeMap UInt64 ℕ).insert 7 0).insert 300 1 }

/-- Two responses that arrive in two buffers. -/
def responsePieces : List ReceiveBuffer :=
  [⟨[0x92, 7, 0xa1, 5, 0x92, 0xcd], by decide⟩, ⟨[1, 44, 0xa1, 6], by decide⟩]

theorem framing_pieces :
    (∃ t : Connection (Fin 128) ℕ,
      serverReceive standardWire twoFuncs (start, []) requestPieces = some (t, []) ∧
      t.received = [⟨7, .ofString "f", [0x92, 1, 2]⟩, ⟨300, .ofString "g", [0x90]⟩] ∧
      t.tasks = [.deferredRPCCall 7 ⟨0, 2⟩ [0x92, 1, 2], .deferredRPCCall 300 ⟨1, 0⟩ [0x90]]) ∧
    ∃ t : Connection (Fin 128) ℕ,
      clientReceive standardWire (bothWaiting, []) responsePieces = some (t, []) ∧
      t.callbacks = [(0, [5]), (1, [6])] ∧ t.respCallbacks.isEmpty := by
  have hframing := framing standardWire_roundTrips fixint twoFuncs
  constructor
  · obtain ⟨t, hserver, rfl, hreceived⟩ :=
      (hframing start).1 twoRequests requestPieces (by decide)
    exact ⟨_, hserver, hreceived, by decide +kernel⟩
  · have hclient := (hframing bothWaiting).2 [⟨7, [5]⟩, ⟨300, [6]⟩] responsePieces (by decide)
    exact ⟨_, hclient, by decide +kernel, by decide +kernel⟩

end RawDish.Rpc.Connection
