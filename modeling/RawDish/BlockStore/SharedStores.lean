import RawDish.BlockStore.RemoteBlockStore
import RawDish.Rpc.Sharing

/-!
# Block stores that are shared by several clients

Any number of clients use the block stores of one server through `RemoteBlockStore` objects, without
waiting for the results. The server has one worker thread, so that no two operations of a store run
at once; a store has no lock of its own. What the clients see is then as if the operations were
carried out on the stores one after the other, each at some moment between its call and its result.

## Main definitions

* `Accesses` : an operation on the store with a number, whatever the system answers.

## Main results

* `exists_access_of_serves` : a call of a `RemoteBlockStore` takes effect as its operation.
* `store_operations_linearizable`.

## References

* `src/blockstore/remoteblockstore.h`, lines 60–280; `src/blockstore/fileblockstore.cc`, lines
  60–122; `src/rpc/rpc.cc`, lines 116–173 and 224–274.
-/

namespace RawDish.BlockStore

open Lib Rpc
open Rpc.Connection (Msgpack Shared)

/-- An operation on the store that is registered under a number, for some answers of the system. -/
def Accesses (regs : List (UInt64 × ℕ)) (h : Host) (x : UInt64 × Op) (r : Result) (h' : Host) :
    Prop :=
  ∃ answers, h.access regs ⟨x.1, answers, x.2⟩ = some (h', r)

/-- A call that has taken effect, told as an operation. -/
structure Tells (x : Effected (ℕ × ℕ) (Connection.Call Value) Value)
    (x' : Effected (ℕ × ℕ) (UInt64 × Op) Result) : Prop where
  id_eq : x.id = x'.id
  op_eq : x.op = x'.op.2.call x'.op.1
  result_eq : x'.op.2.result x.res = some x'.res

variable {m : Msgpack Value} {regs : List (UInt64 × ℕ)} {h h' : Host}

/-- A call of a `RemoteBlockStore` takes effect as its operation, and the value that it returns is
turned into the result of the operation. -/
theorem exists_access_of_serves (hm : m.RoundTrips) (hnodup : (regs.map Prod.fst).Nodup)
    (hregs : ∀ r ∈ regs, r.2 < h.stores.length) {bsid : UInt64} (hbsid : bsid ∈ regs.map Prod.fst)
    {op : Op} {v : Value}
    (hserves : Shared.Serves m (registerAll regs) StoreFunc.run h (op.call bsid) v h') :
    (∀ r ∈ regs, r.2 < h'.stores.length) ∧
      ∃ r, op.result v = some r ∧ Accesses regs h (bsid, op) r h' := by
  obtain ⟨answers, f, args, hf, hargs, hrun⟩ := hserves
  obtain ⟨bs, hlookup, hmem⟩ := exists_lookup hbsid
  rw [op.name_call, getElem?_registerAll hnodup hmem, Option.some.injEq] at hf
  subst hf
  rw [Connection.deserializeArgs_packArgs hm (op.arity_method bsid) (op.length_args_le bsid),
    Option.some.injEq] at hargs
  subst hargs
  obtain ⟨h'', v', r, hrun', hresult, hperform, hlength, -⟩ :=
    StoreFunc.run_call (hregs _ hmem) bsid answers op
  obtain ⟨rfl, rfl⟩ := Prod.mk.inj (Option.some.inj (hrun'.symm.trans hrun))
  refine ⟨hlength ▸ hregs, r, hresult, answers, ?_⟩
  rw [Host.access, hlookup, Option.bind_some, hperform]

/-- **Operations on shared block stores are linearizable.** Stores are registered with one server
under different numbers, in any order. Any number of clients call operations of `RemoteBlockStore`
objects with these numbers, each fewer than `2 ^ 64` and without waiting, and the one worker of the
server carries out the deferred calls of all connections in any order, one after the other. Then
there is an order of operations in which the stores and their files go through them one by one to
the state they are in: each is the operation of one call, the operation of a future that a response
has set is among them and its result is what the client makes of the value, and one whose future was
set before another was called comes before it. -/
theorem store_operations_linearizable (m : Msgpack Value) (hm : m.RoundTrips)
    (regs : List (UInt64 × ℕ)) (hnodup : (regs.map Prod.fst).Nodup) (h₀ : Host)
    (hregs : ∀ r ∈ regs, r.2 < h₀.stores.length) (xs : List (Shared.Action Value Answers))
    (s : Shared Value Host StoreFunc)
    (hrun : exec (Shared.step m (registerAll regs) StoreFunc.run) (Shared.start h₀) xs = some s)
    (hlen : ∀ i, (s.conn i).calls.length < 2 ^ 64)
    (hcalls : ∀ i, ∀ c ∈ (s.conn i).calls, ∃ bsid ∈ regs.map Prod.fst, ∃ op : Op,
      c = op.call bsid) :
    ∃ l : List (Effected (ℕ × ℕ) (UInt64 × Op) Result),
      Sequential (Accesses regs) h₀ l s.host ∧ (l.map Effected.id).Nodup ∧
      (l.Pairwise fun x y => ¬ Precedes s.history y.id x.id) ∧
      (∀ x ∈ l, (s.conn x.id.1).calls[x.id.2]? = some (x.op.2.call x.op.1)) ∧
      ∀ i, ∀ x ∈ (s.conn i).settings, x.origin = .response →
        ∃ y ∈ l, y.id = (i, x.call) ∧ y.op.2.result x.value = some y.res := by
  obtain ⟨l, hl⟩ := Shared.exists_ordered hm hrun hlen
  have hlin := hl.linearizes
  have hcall : ∀ x ∈ l, (s.conn x.id.1).calls[x.id.2]? = some x.op := fun x hx =>
    ((hl.inOrder x.id.1).begun x.id.2 x.op).1 (hlin.begun x hx)
  -- Each effect is told as an operation on a store.
  have htold : ∀ x ∈ l, ∀ h h', (∀ r ∈ regs, r.2 < h.stores.length) →
      Shared.Serves m (registerAll regs) StoreFunc.run h x.op x.res h' →
      (∀ r ∈ regs, r.2 < h'.stores.length) ∧
        ∃ x', Tells x x' ∧ Accesses regs h x'.op x'.res h' := by
    intro x hx h h' hh hserves
    obtain ⟨bsid, hbsid, op, hop⟩ := hcalls _ x.op (List.mem_of_getElem? (hcall x hx))
    rw [hop] at hserves
    obtain ⟨hh', r, hresult, haccess⟩ := exists_access_of_serves hm hnodup hh hbsid hserves
    exact ⟨hh', ⟨x.id, (bsid, op), r⟩, ⟨rfl, hop, hresult⟩, haccess⟩
  obtain ⟨-, l', hforall, hl'⟩ := hlin.sequential.exists_forall₂ hregs htold
  have hids : l.map Effected.id = l'.map Effected.id := by
    rw [← List.forall₂_eq_eq_eq, List.forall₂_map_left_iff, List.forall₂_map_right_iff]
    exact hforall.imp fun _ _ htells => htells.id_eq
  refine ⟨l', hl', hids ▸ hlin.nodup, ?_, fun x' hx' => ?_, fun i x hx hresponse => ?_⟩
  · have hpairwise : (l'.map Effected.id).Pairwise fun i j => ¬ Precedes s.history j i :=
      hids ▸ List.pairwise_map.2 hlin.respects
    exact List.pairwise_map.1 hpairwise
  · obtain ⟨x, hx, htells⟩ := exists_mem_of_forall₂ hforall hx'
    rw [← htells.id_eq, ← htells.op_eq, hcall x hx]
  · obtain ⟨y, hy, hid, hres⟩ := hlin.returned _ _ ((hl.inOrder i).returned x hx hresponse)
    obtain ⟨y', hy', htells⟩ := exists_mem_of_forall₂ hforall.flip hy
    exact ⟨y', hy', htells.id_eq ▸ hid, hres ▸ htells.result_eq⟩

/-- One client stores a block while another one asks for it; the block is stored first. -/
def putWhileGet : List (Shared.Action Value Answers) :=
  let put := Op.call 0 (.putBlock (.ofString "k") [1, 200])
  let get := Op.call 0 (.getBlock (.ofString "k"))
  [.client 1 (.call get.name get.args get.default), .client 0 (.call put.name put.args put.default),
    .client 1 (.receive 0), .client 0 (.receive 0), .task 0 0 willing, .task 1 0 willing,
    .client 1 (.deliver 0), .client 1 (.callback 0)]

theorem store_operations_linearizable_putWhileGet :
    ∃ s l, exec (Shared.step standard (registerAll [(0, 0)]) StoreFunc.run)
        (Shared.start twoStores) putWhileGet = some s ∧
      (s.conn 1).settings = [⟨0, .bytes [1, 200], .response⟩] ∧
      Sequential (ι := ℕ × ℕ) (Accesses [(0, 0)]) twoStores l s.host := by
  have hend : (exec (Shared.step standard (registerAll [(0, 0)]) StoreFunc.run)
      (Shared.start twoStores) putWhileGet).map
        (fun s => ((s.conn 1).settings, (s.conn 0).calls, (s.conn 1).calls)) =
      some ([⟨0, .bytes [1, 200], .response⟩], [Op.call 0 (.putBlock (.ofString "k") [1, 200])],
        [Op.call 0 (.getBlock (.ofString "k"))]) := by
    decide +kernel
  obtain ⟨s, hs, hstate⟩ := Option.map_eq_some_iff.1 hend
  simp only [Prod.mk.injEq] at hstate
  obtain ⟨hsettings, hput, hget⟩ := hstate
  have hcalls : ∀ i, ∃ ops : List Op, ops.length ≤ 1 ∧ (s.conn i).calls = ops.map (Op.call 0) := by
    intro i
    by_cases hi : i = 0 ∨ i = 1
    · rcases hi with rfl | rfl
      · exact ⟨[_], le_rfl, hput⟩
      · exact ⟨[_], le_rfl, hget⟩
    · have hon : ∀ x ∈ putWhileGet, x.on = 0 ∨ x.on = 1 := by
        simp [putWhileGet, Shared.Action.on]
      have hnone : ∀ x ∈ putWhileGet, x.on ≠ i := fun x hx heq => hi (heq ▸ hon x hx)
      have hstart := Shared.conn_eq_start hs hnone
      exact ⟨[], Nat.zero_le 1, by rw [hstart]; rfl⟩
  obtain ⟨l, hl, -⟩ := store_operations_linearizable standard standard_roundTrips [(0, 0)]
    (by decide) twoStores (by decide) putWhileGet s hs
    (fun i => by
      obtain ⟨ops, hlen, hops⟩ := hcalls i
      rw [hops, List.length_map]
      omega)
    (fun i c hc => by
      obtain ⟨ops, -, hops⟩ := hcalls i
      obtain ⟨op, -, rfl⟩ := List.mem_map.1 (hops ▸ hc)
      exact ⟨0, by decide, op, rfl⟩)
  exact ⟨s, l, hs, hsettings, hl⟩

end RawDish.BlockStore
