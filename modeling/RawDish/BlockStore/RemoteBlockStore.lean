import RawDish.BlockStore.FileBlockStore
import RawDish.Lib.Decimal
import RawDish.Lib.Msgpack
import RawDish.Rpc.Awaited
import RawDish.Util.BloomWire

/-!
# Block stores behind a connection

`RegisterRemoteBlockStore` registers the operations of a `FileBlockStore` as functions of an RPC
server, under names that are made of the operation and of the number `bsid` of the store.
`RemoteBlockStore` calls them. Blocks travel as vectors of bytes: an empty vector stands for the
null pointer that `getBlock` returns when there is no block.

`Host` is the machine of the server: the stores, which are named by their position, the file system
and a record of the stores that were called.

## Main definitions

* `makeString`, `registerRemoteBlockStore` : the names and the functions.
* `Op`, `Host.perform` : an operation on a store.
* `StoreFunc.run` : a registered function.
* `Remote.perform` : the same operation through a `RemoteBlockStore`.

## Main results

* `makeString_inj` : the names of operations and stores do not collide.
* `Remote.run_eq` : operations through a connection are the operations on the stores.

## References

* `src/blockstore/remoteblockstore.h`.
* `src/blockstore/fileblockstore.h`, lines 92–119.
-/

namespace RawDish.BlockStore

open Lib Util Rpc
open Rpc.Connection (Msgpack RPCFunc Idle awaited)

/-! ### Operations -/

/-- The answers of the system to one operation. -/
structure Answers where
  put : PutAnswers
  get : GetAnswers
  unlinks : Bool
  scan : Scan
  /-- What is in memory that is allocated. -/
  fresh : ℕ → UInt8

/-- An operation of the interface `BlockStore`. -/
inductive Op
  | putBlock (key : Str) (data : List UInt8)
  | getBlock (key : Str)
  | removeBlock (key : Str)
  | blockSize
  | numFreeBlocks
  | numTotalBlocks

/-- The result of an operation; a block is `none` for a null pointer. -/
inductive Result
  | bool (b : Bool)
  | block (data : Option (List UInt8))
  | uint64 (n : UInt64)
  deriving DecidableEq

/-- The machine of the server. -/
structure Host where
  stores : List FileBlockStore
  fs : FileSystem
  called : List ℕ

namespace Host

/-- A member function of the store `bs` is called. -/
def onStore {α : Type} (h : Host) (bs : ℕ)
    (f : FileBlockStore → FileSystem → (FileBlockStore × FileSystem) × α) : Option (Host × α) :=
  h.stores[bs]?.map fun s =>
    (⟨h.stores.set bs (f s h.fs).1.1, (f s h.fs).1.2, h.called ++ [bs]⟩, (f s h.fs).2)

/-- An operation on the store `bs`. -/
def perform (h : Host) (bs : ℕ) (a : Answers) : Op → Option (Host × Result)
  | .putBlock key data =>
    (h.onStore bs fun s fs => s.putBlock fs key data a.put).map (Prod.map id .bool)
  | .getBlock key =>
    (h.onStore bs fun s fs => ((s, fs), s.getBlock fs key a.get)).map (Prod.map id .block)
  | .removeBlock key =>
    (h.onStore bs fun s fs => s.removeBlock fs key a.unlinks a.scan).map (Prod.map id .bool)
  | .blockSize => (h.onStore bs fun s fs => ((s, fs), s.blockSize)).map (Prod.map id .uint64)
  | .numFreeBlocks =>
    (h.onStore bs fun s fs => ((s, fs), s.numFreeBlocks)).map (Prod.map id .uint64)
  | .numTotalBlocks =>
    (h.onStore bs fun s fs => ((s, fs), s.numTotalBlocks)).map (Prod.map id .uint64)

end Host

/-! ### The server -/

/-- The format `%lu`. -/
def decimal (n : UInt64) : Str := (Nat.toDigits 10 n.toNat).map fun c => UInt8.ofNat c.toNat

/-- Builds a BlockStore unique string so multiple BlockStore instances can be run over a single RPC
channel. The buffer holds 126 characters. -/
def makeString (str : Str) (bsid : UInt64) : Str :=
  Str.cStr ((str ++ decimal bsid).take 126)

/-- The functions that a store is registered with. -/
inductive Method
  | putBlock
  | getBlock
  | removeBlock
  | blockSize
  | numFreeBlocks
  | numTotalBlocks
  | bloomfilter
  deriving DecidableEq

def Method.name : Method → Str
  | .putBlock => .ofString "putBlock"
  | .getBlock => .ofString "getBlock"
  | .removeBlock => .ofString "removeBlock"
  | .blockSize => .ofString "blockSize"
  | .numFreeBlocks => .ofString "numFreeBlocks"
  | .numTotalBlocks => .ofString "numTotalBlocks"
  | .bloomfilter => .ofString "bloomfilter"

/-- A registered function: a method bound to a store. -/
structure StoreFunc where
  method : Method
  bs : ℕ

/-- Registers a BlockStore with an RPC server instance. It creates per-blockstore unique RPC names
to allow multiple BlockStore instances to be shared on a single server endpoint. -/
def registerRemoteBlockStore (funcs : Std.ExtTreeMap Str (RPCFunc StoreFunc)) (bs : ℕ)
    (bsid : UInt64) : Std.ExtTreeMap Str (RPCFunc StoreFunc) :=
  funcs.insert (makeString Method.putBlock.name bsid) ⟨⟨.putBlock, bs⟩, 2⟩
    |>.insert (makeString Method.getBlock.name bsid) ⟨⟨.getBlock, bs⟩, 1⟩
    |>.insert (makeString Method.removeBlock.name bsid) ⟨⟨.removeBlock, bs⟩, 1⟩
    |>.insert (makeString Method.blockSize.name bsid) ⟨⟨.blockSize, bs⟩, 0⟩
    |>.insert (makeString Method.numFreeBlocks.name bsid) ⟨⟨.numFreeBlocks, bs⟩, 0⟩
    |>.insert (makeString Method.numTotalBlocks.name bsid) ⟨⟨.numTotalBlocks, bs⟩, 0⟩
    |>.insert (makeString Method.bloomfilter.name bsid) ⟨⟨.bloomfilter, bs⟩, 0⟩

/-- `FileBlockStoreGetBlockHelperCallback`. -/
def fileBlockStoreGetBlockHelper : Option (List UInt8) → List UInt8
  | none => []
  | some data => data

/-- A registered function runs on its arguments. Arguments of other types are a type error. -/
def StoreFunc.run (a : Answers) (f : StoreFunc) (args : List Value) (h : Host) :
    Option (Host × Value) :=
  match f.method, args with
  | .putBlock, [.string name, .bytes data] =>
    (h.onStore f.bs fun s fs => s.putBlock fs name data a.put).map (Prod.map id .bool)
  | .getBlock, [.string name] =>
    (h.onStore f.bs fun s fs =>
      ((s, fs), fileBlockStoreGetBlockHelper (s.getBlock fs name a.get))).map (Prod.map id .bytes)
  | .removeBlock, [.string name] =>
    (h.onStore f.bs fun s fs => s.removeBlock fs name a.unlinks a.scan).map (Prod.map id .bool)
  | .blockSize, [] =>
    (h.onStore f.bs fun s fs => ((s, fs), s.blockSize)).map (Prod.map id .uint64)
  | .numFreeBlocks, [] =>
    (h.onStore f.bs fun s fs => ((s, fs), s.numFreeBlocks)).map (Prod.map id .uint64)
  | .numTotalBlocks, [] =>
    (h.onStore f.bs fun s fs => ((s, fs), s.numTotalBlocks)).map (Prod.map id .uint64)
  | .bloomfilter, [] =>
    (h.onStore f.bs fun s fs => ((s, fs), (s.bloomfilter a.fresh).serialize)).map
      (Prod.map id .bytes)
  | _, _ => none

/-! ### The names of the functions -/

/-- A number is written with its digits. -/
theorem decimal_eq (n : UInt64) : decimal n = natDecimal n.toNat := rfl

theorem decimal_ne_nil (n : UInt64) : decimal n ≠ [] := natDecimal_ne_nil n.toNat

theorem length_decimal_le (n : UInt64) : (decimal n).length ≤ 20 := by
  have hlt : n.toNat < 10 ^ 20 := n.toNat_lt.trans (by norm_num)
  rw [decimal, List.length_map]
  exact (Nat.length_toDigits_le_iff (by omega) (by omega)).2 hlt

theorem isDigit_of_mem_decimal {n : UInt64} {c : UInt8} (h : c ∈ decimal n) : isDigit c :=
  isDigit_of_mem_natDecimal h

/-- The digits determine the number. -/
theorem decimal_inj {n n' : UInt64} (h : decimal n = decimal n') : n = n' := by
  rw [decimal_eq, decimal_eq] at h
  exact UInt64.toNat_inj.1 (natDecimal_injective h)

namespace Method

theorem length_name_le (m : Method) : m.name.length ≤ 20 := by
  cases m <;> decide

theorem not_isDigit_of_mem_name (m : Method) : ∀ c ∈ m.name, c ≠ 0 ∧ isDigit c = false := by
  -- As one test over the name, which the kernel evaluates fast.
  have hall : (m.name.all fun c => c != 0 && !isDigit c) = true := by
    cases m <;> rfl
  intro c hc
  simpa using List.all_eq_true.1 hall c hc

theorem name_inj {m m' : Method} (h : m.name = m'.name) : m = m' := by
  revert h
  cases m <;> cases m' <;> decide

end Method

/-- Nothing is cut off. -/
theorem makeString_eq (m : Method) (bsid : UInt64) :
    makeString m.name bsid = m.name ++ decimal bsid := by
  have hlen : (m.name ++ decimal bsid).length ≤ 126 := by
    have hname := m.length_name_le
    have hdecimal := length_decimal_le bsid
    rw [List.length_append]
    omega
  rw [makeString, List.take_of_length_le hlen, Str.cStr, List.takeWhile_eq_self_iff]
  intro c hc
  refine decide_eq_true ?_
  rcases List.mem_append.1 hc with hc | hc
  · exact (m.not_isDigit_of_mem_name c hc).1
  · rintro rfl
    exact absurd (isDigit_of_mem_decimal hc) (by decide)

private theorem takeWhile_makeString (m : Method) (bsid : UInt64) :
    (makeString m.name bsid).takeWhile (fun c => !isDigit c) = m.name := by
  obtain ⟨d, ds, hds⟩ := List.exists_cons_of_ne_nil (decimal_ne_nil bsid)
  have hd : isDigit d := isDigit_of_mem_decimal (hds ▸ List.mem_cons_self)
  rw [makeString_eq, List.takeWhile_append_of_pos, hds, List.takeWhile_cons_of_neg (by simp [hd]),
    List.append_nil]
  intro c hc
  rw [(m.not_isDigit_of_mem_name c hc).2]
  rfl

/-- The names of different functions of the same or of different stores are different. -/
theorem makeString_inj {m m' : Method} {bsid bsid' : UInt64} :
    makeString m.name bsid = makeString m'.name bsid' ↔ m = m' ∧ bsid = bsid' := by
  constructor
  · intro h
    have hname : m.name = m'.name := by
      rw [← takeWhile_makeString m bsid, h, takeWhile_makeString]
    obtain rfl := Method.name_inj hname
    rw [makeString_eq, makeString_eq, List.append_cancel_left_eq] at h
    exact ⟨rfl, decimal_inj h⟩
  · rintro ⟨rfl, rfl⟩
    rfl

/-! ### The functions -/

/-- The number of arguments of a method. -/
def Method.arity : Method → ℕ
  | .putBlock => 2
  | .getBlock => 1
  | .removeBlock => 1
  | _ => 0

/-- The functions of a store are found under its number; the others stay as they are. -/
theorem getElem?_registerRemoteBlockStore (funcs : Std.ExtTreeMap Str (RPCFunc StoreFunc)) (bs : ℕ)
    (bsid : UInt64) (m : Method) (bsid' : UInt64) :
    (registerRemoteBlockStore funcs bs bsid)[makeString m.name bsid']? =
      if bsid = bsid' then some ⟨⟨m, bs⟩, m.arity⟩ else funcs[makeString m.name bsid']? := by
  simp only [registerRemoteBlockStore, Std.ExtTreeMap.getElem?_insert, Std.compare_eq_iff_eq,
    makeString_inj]
  by_cases hbsid : bsid = bsid'
  · cases m <;> simp [hbsid, Method.arity]
  · simp [hbsid]

/-- Stores are registered one after the other. -/
def registerAll (regs : List (UInt64 × ℕ)) : Std.ExtTreeMap Str (RPCFunc StoreFunc) :=
  regs.foldl (fun funcs r => registerRemoteBlockStore funcs r.2 r.1) ∅

theorem getElem?_registerAll {regs : List (UInt64 × ℕ)} (hnodup : (regs.map Prod.fst).Nodup)
    {bsid : UInt64} {bs : ℕ} (h : (bsid, bs) ∈ regs) (m : Method) :
    (registerAll regs)[makeString m.name bsid]? = some ⟨⟨m, bs⟩, m.arity⟩ := by
  induction regs using List.reverseRecOn with
  | nil => exact absurd h List.not_mem_nil
  | append_singleton regs r ih =>
    rw [List.map_append, List.nodup_append] at hnodup
    obtain ⟨hregs, -, hdisjoint⟩ := hnodup
    rw [registerAll, List.foldl_concat, getElem?_registerRemoteBlockStore]
    rcases List.mem_append.1 h with h | h
    · have hne : r.1 ≠ bsid := fun heq =>
        hdisjoint bsid (List.mem_map_of_mem h) r.1 (by simp) heq.symm
      rw [if_neg hne]
      exact ih hregs h
    · obtain rfl := List.mem_singleton.1 h
      rw [if_pos rfl]

/-! ### The client -/

/-- The call that a `RemoteBlockStore` makes for an operation. -/
def Op.call (bsid : UInt64) : Op → Connection.Call Value
  | .putBlock key data =>
    ⟨makeString Method.putBlock.name bsid, [.string key, .bytes data], .bool false⟩
  | .getBlock key => ⟨makeString Method.getBlock.name bsid, [.string key], .bytes []⟩
  | .removeBlock key => ⟨makeString Method.removeBlock.name bsid, [.string key], .bool false⟩
  | .blockSize => ⟨makeString Method.blockSize.name bsid, [], .uint64 0⟩
  | .numFreeBlocks => ⟨makeString Method.numFreeBlocks.name bsid, [], .uint64 0⟩
  | .numTotalBlocks => ⟨makeString Method.numTotalBlocks.name bsid, [], .uint64 0⟩

/-- Helper function to map from vector to IOBuffer *. -/
def getBlockHelper (data : List UInt8) : Option (List UInt8) :=
  if data.length = 0 then none else some data

/-- The result of an operation from the value that came back. A value of another type is a type
error. -/
def Op.result : Op → Value → Option Result
  | .putBlock _ _, .bool b => some (.bool b)
  | .getBlock _, .bytes data => some (.block (getBlockHelper data))
  | .removeBlock _, .bool b => some (.bool b)
  | .blockSize, .uint64 n => some (.uint64 n)
  | .numFreeBlocks, .uint64 n => some (.uint64 n)
  | .numTotalBlocks, .uint64 n => some (.uint64 n)
  | _, _ => none

/-- A client that is connected to the server, and the machine of the server. -/
structure Remote where
  conn : Connection Value StoreFunc
  host : Host

/-- An operation of the `RemoteBlockStore` with the number `bsid`, which is waited for. -/
def Remote.perform (m : Msgpack Value) (funcs : Std.ExtTreeMap Str (RPCFunc StoreFunc)) (w : Remote)
    (bsid : UInt64) (a : Answers) (op : Op) : Option (Remote × Result) :=
  (awaited m funcs (StoreFunc.run a) w.conn w.host (op.call bsid)).bind fun r =>
    (op.result r.2).map fun result => (⟨r.1.1, r.1.2⟩, result)

/-! ### One operation -/

/-- The function that an operation calls. -/
def Op.method : Op → Method
  | .putBlock _ _ => .putBlock
  | .getBlock _ => .getBlock
  | .removeBlock _ => .removeBlock
  | .blockSize => .blockSize
  | .numFreeBlocks => .numFreeBlocks
  | .numTotalBlocks => .numTotalBlocks

theorem Op.name_call (op : Op) (bsid : UInt64) :
    (op.call bsid).name = makeString op.method.name bsid := by
  cases op <;> rfl

theorem Op.arity_method (op : Op) (bsid : UInt64) :
    op.method.arity = (op.call bsid).args.length := by
  cases op <;> rfl

theorem Op.length_args_le (op : Op) (bsid : UInt64) : (op.call bsid).args.length ≤ 5 := by
  cases op <;> simp [Op.call]

/-- `getBlock` returns no empty block. -/
theorem FileBlockStore.getBlock_ne_nil (s : FileBlockStore) (fs : FileSystem) (key : Str)
    (a : GetAnswers) : s.getBlock fs key a ≠ some [] := by
  rw [getBlock]
  split_ifs
  · split
    · simp only [Nat.le_zero]
      split_ifs with hlen
      · simp
      · simpa [Option.some_inj, ← List.length_eq_zero_iff] using hlen
    · simp
  · simp

/-- The two conversions of a block undo each other, as there is no empty block. -/
theorem getBlockHelper_fileBlockStoreGetBlockHelper {data : Option (List UInt8)}
    (h : data ≠ some []) : getBlockHelper (fileBlockStoreGetBlockHelper data) = data := by
  cases data with
  | none => rfl
  | some data =>
    have hlen : data.length ≠ 0 := fun hzero => h (by rw [List.length_eq_zero_iff.1 hzero])
    rw [fileBlockStoreGetBlockHelper, getBlockHelper, if_neg hlen]

/-- The function that an operation calls does on the store what the operation does, and its value is
turned into the result of the operation. -/
theorem StoreFunc.run_call {h : Host} {bs : ℕ} (hbs : bs < h.stores.length) (bsid : UInt64)
    (a : Answers) (op : Op) : ∃ h' v r, StoreFunc.run a ⟨op.method, bs⟩ (op.call bsid).args h =
      some (h', v) ∧ op.result v = some r ∧ h.perform bs a op = some (h', r) ∧
        h'.stores.length = h.stores.length ∧ h'.called = h.called ++ [bs] := by
  have hstore : h.stores[bs]? = some (h.stores[bs]) := List.getElem?_eq_getElem hbs
  cases op with
  | getBlock key =>
    have hblock := getBlockHelper_fileBlockStoreGetBlockHelper
      (h.stores[bs].getBlock_ne_nil h.fs key a.get)
    simp [StoreFunc.run, Op.method, Op.call, Op.result, Host.perform, Host.onStore, hstore, hblock]
  | _ => simp [StoreFunc.run, Op.method, Op.call, Op.result, Host.perform, Host.onStore, hstore]

/-- An operation through the connection is the operation on the store. -/
theorem Remote.perform_eq {m : Msgpack Value} (hm : m.RoundTrips) {w : Remote}
    (hidle : Idle w.conn) {funcs : Std.ExtTreeMap Str (RPCFunc StoreFunc)} {bsid : UInt64} {bs : ℕ}
    (hfuncs : ∀ method : Method, funcs[makeString method.name bsid]? =
      some (⟨⟨method, bs⟩, method.arity⟩ : RPCFunc StoreFunc))
    (hbs : bs < w.host.stores.length) (a : Answers) (op : Op) :
    ∃ w' r, Idle w'.conn ∧ w.perform m funcs bsid a op = some (w', r) ∧
      w.host.perform bs a op = some (w'.host, r) ∧
        w'.host.stores.length = w.host.stores.length ∧ w'.host.called = w.host.called ++ [bs] := by
  obtain ⟨h, v, r, hrun, hresult, hdirect, hlength, hcalled⟩ := StoreFunc.run_call hbs bsid a op
  have hf : funcs[(op.call bsid).name]? = some ⟨⟨op.method, bs⟩, op.method.arity⟩ := by
    rw [op.name_call, hfuncs]
  obtain ⟨conn, hconn, hawaited⟩ := Connection.awaited_eq_some hm hidle hf
    (op.arity_method bsid) (op.length_args_le bsid) hrun
  refine ⟨⟨conn, h⟩, r, hconn, ?_, hdirect, hlength, hcalled⟩
  rw [Remote.perform, hawaited, Option.bind_some, hresult, Option.map_some]

/-! ### Sequences of operations -/

/-- An operation on the store with the number `bsid`. -/
structure Access where
  bsid : UInt64
  answers : Answers
  op : Op

/-- Operations one after the other, with their results. -/
def performAll {σ : Type} (perform : σ → Access → Option (σ × Result)) :
    σ → List Access → Option (σ × List Result)
  | s, [] => some (s, [])
  | s, x :: xs => (perform s x).bind fun r =>
      (performAll perform r.1 xs).map fun rs => (rs.1, r.2 :: rs.2)

/-- An operation on the store that is registered under the number. -/
def Host.access (regs : List (UInt64 × ℕ)) (h : Host) (x : Access) : Option (Host × Result) :=
  (regs.lookup x.bsid).bind fun bs => h.perform bs x.answers x.op

/-- An operation through the `RemoteBlockStore` with the number. -/
def Remote.access (m : Msgpack Value) (regs : List (UInt64 × ℕ)) (w : Remote) (x : Access) :
    Option (Remote × Result) :=
  w.perform m (registerAll regs) x.bsid x.answers x.op

theorem exists_lookup {regs : List (UInt64 × ℕ)} {bsid : UInt64}
    (h : bsid ∈ regs.map Prod.fst) : ∃ bs, regs.lookup bsid = some bs ∧ (bsid, bs) ∈ regs := by
  obtain ⟨r, hr, rfl⟩ := List.mem_map.1 h
  have hsome : (regs.lookup r.1).isSome := List.lookup_isSome_iff.2 ⟨r, hr, beq_self_eq_true _⟩
  obtain ⟨bs, hbs⟩ := Option.isSome_iff_exists.1 hsome
  obtain ⟨pre, post, hregs, -⟩ := List.lookup_eq_some_iff.1 hbs
  exact ⟨bs, hbs, by simp [hregs]⟩

/-- **Remote access is transparent.** Stores are registered under different numbers, in any order.
Operations through `RemoteBlockStore` objects, each of which is waited for, have the results of the
operations on the stores that are registered under the numbers, leave the stores and their files in
the same state, and call these stores only. -/
theorem remote_transparent {m : Msgpack Value} (hm : m.RoundTrips) {regs : List (UInt64 × ℕ)}
    (hnodup : (regs.map Prod.fst).Nodup) {h : Host} (hregs : ∀ r ∈ regs, r.2 < h.stores.length)
    {xs : List Access} (hxs : ∀ x ∈ xs, x.bsid ∈ regs.map Prod.fst) :
    ∃ w results, performAll (Remote.access m regs) ⟨.start, h⟩ xs = some (w, results) ∧
      performAll (Host.access regs) h xs = some (w.host, results) ∧
        w.host.called.map some = h.called.map some ++ xs.map fun x => regs.lookup x.bsid := by
  have hrun : ∀ (w : Remote), Idle w.conn → (∀ r ∈ regs, r.2 < w.host.stores.length) →
      ∃ w' results, performAll (Remote.access m regs) w xs = some (w', results) ∧
        performAll (Host.access regs) w.host xs = some (w'.host, results) ∧
          w'.host.called.map some =
            w.host.called.map some ++ xs.map fun x => regs.lookup x.bsid := by
    induction xs with
    | nil => exact fun w _ _ => ⟨w, [], rfl, rfl, by simp⟩
    | cons x xs ih =>
      intro w hidle hregs
      obtain ⟨bs, hlookup, hmem⟩ := exists_lookup (hxs x List.mem_cons_self)
      obtain ⟨w₁, r, hidle₁, hremote, hdirect, hlength, hcalled⟩ := w.perform_eq hm hidle
        (getElem?_registerAll hnodup hmem) (hregs _ hmem) x.answers x.op
      obtain ⟨w₂, results, hremote₂, hdirect₂, hcalled₂⟩ :=
        ih (fun y hy => hxs y (List.mem_cons_of_mem x hy)) w₁ hidle₁ (hlength ▸ hregs)
      refine ⟨w₂, r :: results, ?_, ?_, ?_⟩
      · rw [performAll, Remote.access, hremote, Option.bind_some, hremote₂, Option.map_some]
      · rw [performAll, Host.access, hlookup, Option.bind_some, hdirect, Option.bind_some, hdirect₂,
          Option.map_some]
      · simp [hcalled₂, hcalled, hlookup]
  exact hrun ⟨.start, h⟩ Connection.idle_start hregs

/-- The msgpack format: a tuple of arguments is an array, which may be longer than the tuple that is
asked for. -/
def standard : Msgpack Value where
  packArgs args := Head.pack (.array args.length) ++ args.flatMap Value.pack
  unpackArgs n buf :=
    match Head.parse buf with
    | some (.array k, l) => if n ≤ k then (Value.parseList n l).map Prod.fst else none
    | _ => none
  pack := Value.pack
  unpack buf := ((Value.parse buf).map Prod.fst).getD (.bool false)

theorem standard_roundTrips : standard.RoundTrips := by
  refine ⟨fun args _ => ?_, fun v => ?_⟩
  · have hargs := Value.parseList_flatMap args []
    rw [List.append_nil] at hargs
    simp only [standard, Head.parse_pack, le_refl, if_true, hargs, Option.map_some]
  · have hv := Value.parse_pack v []
    rw [List.append_nil] at hv
    simp only [standard, hv, Option.map_some, Option.getD_some]

/-- The answers of a system that does everything. -/
def willing : Answers := ⟨⟨true, some 2⟩, ⟨true, some 2⟩, true, ⟨some (8, 2), some []⟩, fun _ => 0⟩

/-- Two stores on one server. -/
def twoStores : Host where
  stores := [.create (.ofString "/d") 2 ⟨some (8, 2), some []⟩,
    .create (.ofString "/e") 2 ⟨some (8, 2), some []⟩]
  fs := (FileSystem.empty.mkdir [Str.ofString "d"]).mkdir [Str.ofString "e"]
  called := []

/-- The numbers of the two stores. -/
def twoNumbers : List (UInt64 × ℕ) := [(18446744073709551615, 1), (0, 0)]

/-- A block is stored in one store and looked for in both. -/
def putGetGet : List Access :=
  [⟨18446744073709551615, willing, .putBlock (.ofString "k") [1, 200]⟩,
    ⟨0, willing, .getBlock (.ofString "k")⟩,
    ⟨18446744073709551615, willing, .getBlock (.ofString "k")⟩]

theorem remote_transparent_putGetGet :
    ∃ w, performAll (Remote.access standard twoNumbers) ⟨.start, twoStores⟩ putGetGet =
        some (w, [.bool true, .block none, .block (some [1, 200])]) ∧
      w.host.called = [1, 0, 1] := by
  have hnodup : (twoNumbers.map Prod.fst).Nodup := by decide
  have hregs : ∀ r ∈ twoNumbers, r.2 < twoStores.stores.length := by decide
  have hxs : ∀ x ∈ putGetGet, x.bsid ∈ twoNumbers.map Prod.fst := by decide
  obtain ⟨w, results, hremote, hdirect, hcalled⟩ :=
    remote_transparent standard_roundTrips hnodup hregs hxs
  have hresults : (performAll (Host.access twoNumbers) twoStores putGetGet).map Prod.snd =
      some [.bool true, .block none, .block (some [1, 200])] := by decide +kernel
  rw [hdirect, Option.map_some, Option.some.injEq] at hresults
  refine ⟨w, hresults ▸ hremote, ?_⟩
  have hmap : w.host.called.map some = [1, 0, 1].map some := by
    rw [hcalled]
    rfl
  exact List.map_injective_iff.2 (Option.some_injective ℕ) hmap

/-! ### The Bloom filter -/

/-- Helper function to map from vector to BloomFilter. It returns after it has set the default
filter; the deserialization of the vector that follows is not reached. -/
def bloomfilterHelper (_ : List UInt8) : BloomFilter := .create

/-- The vector in a value. -/
def vector? : Value → Option (List UInt8)
  | .bytes v => some v
  | _ => none

/-- The call that asks for the filter. -/
def bloomfilterCall (bsid : UInt64) : Connection.Call Value :=
  ⟨makeString Method.bloomfilter.name bsid, [], .bytes []⟩

/-- `RemoteBlockStore::bloomfilter`. -/
def Remote.bloomfilter (m : Msgpack Value) (funcs : Std.ExtTreeMap Str (RPCFunc StoreFunc))
    (w : Remote) (bsid : UInt64) (a : Answers) : Option (Remote × BloomFilter) :=
  (awaited m funcs (StoreFunc.run a) w.conn w.host (bloomfilterCall bsid)).bind fun r =>
    (vector? r.2).map fun v => (⟨r.1.1, r.1.2⟩, bloomfilterHelper v)

/-- The filter that arrives is the default one, whatever the filter of the store is. -/
theorem Remote.bloomfilter_eq {m : Msgpack Value} (hm : m.RoundTrips) {w : Remote}
    (hidle : Idle w.conn) {regs : List (UInt64 × ℕ)} (hnodup : (regs.map Prod.fst).Nodup)
    {bsid : UInt64} {bs : ℕ} (hreg : (bsid, bs) ∈ regs) {s : FileBlockStore}
    (hs : w.host.stores[bs]? = some s) (a : Answers) :
    ∃ w', w.bloomfilter m (registerAll regs) bsid a = some (w', .create) := by
  have hrun : StoreFunc.run a ⟨.bloomfilter, bs⟩ [] w.host =
      some (⟨w.host.stores.set bs s, w.host.fs, w.host.called ++ [bs]⟩,
        .bytes (s.bloomfilter a.fresh).serialize) := by
    simp [StoreFunc.run, Host.onStore, hs]
  obtain ⟨conn, -, hawaited⟩ := Connection.awaited_eq_some (c := bloomfilterCall bsid) hm hidle
    (getElem?_registerAll hnodup hreg .bloomfilter) rfl (Nat.zero_le 5) hrun
  rw [Remote.bloomfilter, hawaited]
  exact ⟨_, rfl⟩

/-- **The filter that is fetched.** It answers like the filter of the store for a key if and only if
the filter of the store does not have the key. -/
theorem remote_mayContain_iff {m : Msgpack Value} (hm : m.RoundTrips) {w : Remote}
    (hidle : Idle w.conn) {regs : List (UInt64 × ℕ)} (hnodup : (regs.map Prod.fst).Nodup)
    {bsid : UInt64} {bs : ℕ} (hreg : (bsid, bs) ∈ regs) {s : FileBlockStore}
    (hs : w.host.stores[bs]? = some s) (a : Answers) (fresh : ℕ → UInt8) (key : Str) :
    (∃ w' f, w.bloomfilter m (registerAll regs) bsid a = some (w', f) ∧
      f.mayContain key = (s.bloomfilter fresh).mayContain key) ↔
        (s.bloomfilter fresh).mayContain key = false := by
  obtain ⟨w', hw'⟩ := w.bloomfilter_eq hm hidle hnodup hreg hs a
  constructor
  · rintro ⟨w'', f, hw'', hf⟩
    rw [hw', Option.some.injEq, Prod.mk.injEq] at hw''
    rw [← hf, ← hw''.2, BloomFilter.mayContain_create]
  · intro hlocal
    exact ⟨w', .create, hw', by rw [hlocal, BloomFilter.mayContain_create]⟩

/-- The first store after a block was stored in it. -/
def afterPut : Host :=
  let r := (FileBlockStore.create (.ofString "/d") 2 ⟨some (8, 2), some []⟩).putBlock twoStores.fs
    (.ofString "k") [1, 2] ⟨true, some 2⟩
  ⟨[r.1.1], r.1.2, []⟩

/-- The filter of that store. -/
theorem filter_afterPut :
    ((FileBlockStore.create (.ofString "/d") 2 ⟨some (8, 2), some []⟩).putBlock
      twoStores.fs (.ofString "k") [1, 2] ⟨true, some 2⟩).1.1.filter =
        BloomFilter.create.set (.ofString "k") := rfl

/-- A key that the filter of the store does not have. -/
theorem remote_mayContain_otherKey :
    ∃ s, afterPut.stores[0]? = some s ∧
      ∃ w f, Remote.bloomfilter standard (registerAll [(0, 0)]) ⟨.start, afterPut⟩ 0 willing =
        some (w, f) ∧ f.mayContain (.ofString "x") =
          (s.bloomfilter fun _ => 0).mayContain (.ofString "x") := by
  have hnodup : (([(0, 0)] : List (UInt64 × ℕ)).map Prod.fst).Nodup := by decide
  refine ⟨_, rfl, (remote_mayContain_iff (w := ⟨.start, afterPut⟩) standard_roundTrips
    Connection.idle_start hnodup (List.mem_singleton_self (0, 0)) rfl willing (fun _ => 0)
    (.ofString "x")).2 ?_⟩
  rw [FileBlockStore.bloomfilter, filter_afterPut,
    BloomFilter.mayContain_copy (BloomFilter.valid_create.set _), ← Bool.not_eq_true,
    BloomFilter.mayContain_iff]
  intro h
  -- The first bit of the key is not one of the other key.
  have hbit := h 0 (by omega)
  rw [BloomFilter.getBit_set BloomFilter.valid_create.allocated, BloomFilter.create,
    BloomFilter.reset, getBit_replicate_zero, Bool.false_or, decide_eq_true_iff] at hbit
  exact absurd hbit (by decide +kernel)

/-- The block of the store is not in the filter that is fetched. -/
theorem remote_mayContain_afterPut :
    ∃ s, afterPut.stores[0]? = some s ∧
      (∀ fresh, (s.bloomfilter fresh).mayContain (.ofString "k")) ∧
      ∃ w f, Remote.bloomfilter standard (registerAll [(0, 0)]) ⟨.start, afterPut⟩ 0 willing =
        some (w, f) ∧ f.mayContain (.ofString "k") = false := by
  refine ⟨_, rfl, fun fresh => ?_, ?_⟩
  · rw [FileBlockStore.bloomfilter, filter_afterPut,
      BloomFilter.mayContain_copy (BloomFilter.valid_create.set _)]
    exact BloomFilter.mayContain_set_self BloomFilter.valid_create _
  · have hnodup : (([(0, 0)] : List (UInt64 × ℕ)).map Prod.fst).Nodup := by decide
    obtain ⟨w, hw⟩ := Remote.bloomfilter_eq (w := ⟨.start, afterPut⟩) standard_roundTrips
      Connection.idle_start hnodup (List.mem_singleton_self (0, 0)) rfl willing
    exact ⟨w, _, hw, BloomFilter.mayContain_create _⟩

end RawDish.BlockStore
