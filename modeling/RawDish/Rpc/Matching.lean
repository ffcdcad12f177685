import RawDish.Rpc.Connection

/-!
# Matching of requests and responses

A request number names one call as long as fewer than `2 ^ 64` calls are made. The invariant
`Matched` follows the two things that a number stands for. The request of a call is in flight,
received and deferred, or executed, in one place at a time; and the right to set the future of a
call is with the stored callback, with an enqueued callback, or used up.

## Main definitions

* `Execution.Runs` : the execution is one of the given call.
* `Matched` : the invariant.

## Main results

* `Matched.step`, `matched_of_exec` : the invariant holds along every run.
* `rpc_matching`.

## References

* `src/rpc/rpc.h`, lines 479–532; `src/rpc/rpc.cc`, lines 116–173 and 224–274.
-/

namespace RawDish.Rpc.Connection

open Lib

variable {V F : Type} {m : Msgpack V} {funcs : Std.ExtTreeMap Str (RPCFunc F)}
  {s t : Connection V F}

/-- The execution is one of the call number `k`: it has its number, runs the function registered
under its name and, when the call passes as many arguments as the function takes, has its
arguments. -/
structure Execution.Runs (funcs : Std.ExtTreeMap Str (RPCFunc F)) (e : Execution V F) (k : ℕ)
    (c : Call V) : Prop where
  id_eq : e.id = UInt64.ofNat k
  func_eq : funcs[c.name]? = some e.func
  args_eq : c.args.length = e.func.arity → e.args = c.args

/-- The request is the one that the call number `k` wrote. -/
structure Request.Writes (m : Msgpack V) (r : Request) (k : ℕ) (c : Call V) : Prop where
  id_eq : r.id = UInt64.ofNat k
  name_eq : r.name = c.name
  args_eq : r.args = m.packArgs c.args

/-- The work that a request asks for. -/
def Request.work (funcs : Std.ExtTreeMap Str (RPCFunc F)) (r : Request) :
    Option (UInt64 × RPCFunc F × IOBuffer) :=
  funcs[r.name]?.map fun f => (r.id, f, r.args)

/-- The work of a task. -/
def ServerTask.work : ServerTask F → Option (UInt64 × RPCFunc F × IOBuffer)
  | .deferredRPCCall id f buf => some (id, f, buf)
  | .disconnect => none

/-- The work that an execution did. -/
def Execution.work (e : Execution V F) : UInt64 × RPCFunc F × IOBuffer := (e.id, e.func, e.buf)

/-- An execution with the number `id` completed with the value `v`. -/
def Completed (s : Connection V F) (id : UInt64) (v : V) : Prop :=
  ∃ e ∈ s.executions, e.id = id ∧ e.result = some v

/-- The invariant of the requests: every request in flight or received was written by one call,
no two have the same number, and the work of the received ones is deferred or done. -/
structure Served (m : Msgpack V) (funcs : Std.ExtTreeMap Str (RPCFunc F)) (s : Connection V F) :
    Prop where
  arity : ∀ c ∈ s.calls, c.args.length ≤ 5
  writes : ∀ r ∈ s.requests ++ s.received, ∃ k c, s.calls[k]? = some c ∧ r.Writes m k c
  nodup : ((s.requests ++ s.received).map Request.id).Nodup
  work : (s.tasks.filterMap ServerTask.work ++ s.executions.map Execution.work).Perm
    (s.received.filterMap (Request.work funcs))
  args : ∀ e ∈ s.executions, deserializeArgs m e.func e.buf = some e.args
  response : ∀ p ∈ s.responses, ∃ v, s.Completed p.id v ∧ p.payload = m.pack v

/-- One when the callback of the call number `k` is stored. -/
def stored (s : Connection V F) (k : ℕ) : ℕ :=
  if s.respCallbacks[UInt64.ofNat k]? = some k then 1 else 0

/-- The invariant of the futures: the right to set the future of a call is in one place, and a
value on its way to the future comes from an execution with the number of the call. -/
structure Settled (m : Msgpack V) (s : Connection V F) : Prop where
  reqId_eq : s.reqId = UInt64.ofNat s.calls.length
  key : ∀ (i : UInt64) (k : ℕ), s.respCallbacks[i]? = some k →
    i = UInt64.ofNat k ∧ k < s.calls.length
  once : ∀ k < s.calls.length, s.stored k + s.callbacks.countP (fun cb => cb.1 = k) +
    s.settings.countP (fun x => x.call = k) = 1
  callback : ∀ cb ∈ s.callbacks, cb.1 < s.calls.length ∧
    ∃ v, s.Completed (UInt64.ofNat cb.1) v ∧ cb.2 = m.pack v
  setting : ∀ x ∈ s.settings, ∃ c, s.calls[x.call]? = some c ∧
    match x.origin with
    | .response => s.Completed (UInt64.ofNat x.call) x.value
    | .disconnect => x.value = c.default

theorem ofNat_inj {j k : ℕ} (hj : j < 2 ^ 64) (hk : k < 2 ^ 64)
    (h : UInt64.ofNat j = UInt64.ofNat k) : j = k := by
  have h' := congrArg UInt64.toNat h
  rwa [UInt64.toNat_ofNat_of_lt' hj, UInt64.toNat_ofNat_of_lt' hk] at h'

theorem served_start : Served m funcs (start : Connection V F) := by
  constructor <;> simp [start]

theorem settled_start : Settled m (start : Connection V F) := by
  constructor <;> simp [start]

/-! ### The requests -/

/-- The next number is not in use. -/
theorem Served.fresh (h : Served m funcs s) (hlen : s.calls.length < 2 ^ 64) :
    UInt64.ofNat s.calls.length ∉ (s.requests ++ s.received).map Request.id := by
  intro hmem
  obtain ⟨r, hr, hid⟩ := List.mem_map.1 hmem
  obtain ⟨k, c, hc, hw⟩ := h.writes r hr
  have hk : k < s.calls.length := (List.getElem?_eq_some_iff.1 hc).1
  have heq : k = s.calls.length := ofNat_inj (by omega) hlen (hw.id_eq.symm.trans hid)
  omega

theorem Served.call (h : Served m funcs s) (hreq : s.reqId = UInt64.ofNat s.calls.length)
    (hlen : s.calls.length < 2 ^ 64) {c : Call V} (hc : c.args.length ≤ 5) :
    Served m funcs (s.call m c) := by
  have hold : ∀ r ∈ s.requests ++ s.received, ∃ k c', (s.calls ++ [c])[k]? = some c' ∧
      r.Writes m k c' := by
    intro r hr
    obtain ⟨k, c', hk, hw⟩ := h.writes r hr
    exact ⟨k, c', by rw [List.getElem?_append_left (List.getElem?_eq_some_iff.1 hk).1, hk], hw⟩
  have hnew : ∃ k c', (s.calls ++ [c])[k]? = some c' ∧
      Request.Writes m ⟨s.reqId, c.name, m.packArgs c.args⟩ k c' :=
    ⟨s.calls.length, c, by simp, ⟨hreq, rfl, rfl⟩⟩
  refine ⟨fun c' hc' => ?_, ?_, ?_, h.work, h.args, h.response⟩
  · rcases List.mem_append.1 hc' with hc' | hc'
    · exact h.arity c' hc'
    · rw [List.mem_singleton.1 hc']
      exact hc
  · intro r hr
    simp only [Connection.call] at hr
    split_ifs at hr
    · rw [List.append_assoc, List.mem_append, List.mem_append, List.mem_singleton] at hr
      rcases hr with hr | rfl | hr
      · exact hold r (List.mem_append_left _ hr)
      · exact hnew
      · exact hold r (List.mem_append_right _ hr)
    · exact hold r hr
  · have hfresh := h.fresh hlen
    simp only [Connection.call]
    split_ifs
    · rw [← hreq] at hfresh
      have hperm : (List.map Request.id (s.requests ++
          [⟨s.reqId, c.name, m.packArgs c.args⟩] ++ s.received)).Perm
          (s.reqId :: (s.requests ++ s.received).map Request.id) := by
        simp only [List.map_append, List.map_cons, List.append_assoc, List.singleton_append]
        exact List.perm_middle
      exact hperm.nodup_iff.2 (List.nodup_cons.2 ⟨hfresh, h.nodup⟩)
    · exact h.nodup

/-- The receipt of a request adds its work to what is deferred. -/
theorem work_serverOnReceive
    (h : (s.tasks.filterMap ServerTask.work ++ s.executions.map Execution.work).Perm
      (s.received.filterMap (Request.work funcs))) (r : Request) :
    ((s.serverOnReceive funcs r).tasks.filterMap ServerTask.work ++
      (s.serverOnReceive funcs r).executions.map Execution.work).Perm
      ((s.serverOnReceive funcs r).received.filterMap (Request.work funcs)) := by
  have hwork : ∀ l : List (UInt64 × RPCFunc F × IOBuffer),
      ((s.serverOnReceive funcs r).tasks.filterMap ServerTask.work ++ l).Perm
      (s.tasks.filterMap ServerTask.work ++ l ++ [r].filterMap (Request.work funcs)) := by
    intro l
    rw [Connection.serverOnReceive, List.filterMap_append, List.append_assoc, List.append_assoc]
    refine List.Perm.append_left _ ?_
    cases hf : funcs[r.name]? with
    | none => simp [List.filterMap_cons, ServerTask.work, Request.work, hf]
    | some f =>
      simp only [List.filterMap_cons, ServerTask.work, List.filterMap_nil, Request.work, hf,
        Option.map_some]
      exact List.perm_append_comm
  refine (hwork _).trans ?_
  simp only [Connection.serverOnReceive, List.filterMap_append]
  exact h.append_right _

/-- A task moves its work from what is deferred to what is done. -/
theorem work_runTask {x : ServerTask F} {pre post : List (ServerTask F)}
    (hx : s.tasks = pre ++ x :: post)
    (ht : { s with tasks := pre ++ post }.runTask m x = some t) :
    (t.tasks.filterMap ServerTask.work ++ t.executions.map Execution.work).Perm
      (s.tasks.filterMap ServerTask.work ++ s.executions.map Execution.work) := by
  cases x with
  | disconnect =>
    simp only [Connection.runTask, Option.some.injEq] at ht
    subst ht
    simp [hx, List.filterMap_cons, ServerTask.work]
  | deferredRPCCall id f buf =>
    simp only [Connection.runTask, Option.map_eq_some_iff] at ht
    obtain ⟨args, hargs, rfl⟩ := ht
    simp only [hx, List.filterMap_append, List.filterMap_cons, ServerTask.work, List.map_append,
      List.map_cons, List.map_nil, Execution.work, List.append_assoc, List.cons_append]
    refine List.Perm.append_left _ ?_
    rw [← List.append_assoc]
    exact List.perm_append_singleton _ _

theorem Served.serverOnReceive (h : Served m funcs s) {r : Request} {pre post : List Request}
    (hr : s.requests = pre ++ r :: post) :
    Served m funcs ({ s with requests := pre ++ post }.serverOnReceive funcs r) := by
  have hperm : ((pre ++ post) ++ (s.received ++ [r])).Perm (s.requests ++ s.received) := by
    rw [hr, ← List.append_assoc]
    refine (List.perm_append_singleton r _).trans ?_
    simp only [List.append_assoc, List.cons_append]
    exact List.perm_middle.symm
  exact ⟨h.arity, fun r' hr' => h.writes r' (hperm.mem_iff.1 hr'),
    (hperm.map Request.id).nodup_iff.2 h.nodup, work_serverOnReceive h.work r, h.args, h.response⟩

theorem Served.runTask (h : Served m funcs s) {x : ServerTask F} {pre post : List (ServerTask F)}
    (hx : s.tasks = pre ++ x :: post)
    (ht : { s with tasks := pre ++ post }.runTask m x = some t) : Served m funcs t := by
  have hwork := work_runTask hx ht
  cases x with
  | disconnect =>
    simp only [Connection.runTask, Option.some.injEq] at ht
    subst ht
    exact ⟨h.arity, h.writes, h.nodup, hwork.trans h.work, h.args, h.response⟩
  | deferredRPCCall id f buf =>
    simp only [Connection.runTask, Option.map_eq_some_iff] at ht
    obtain ⟨args, hargs, rfl⟩ := ht
    refine ⟨h.arity, h.writes, h.nodup, hwork.trans h.work, fun e he => ?_, fun p hp => ?_⟩
    · rcases List.mem_append.1 he with he | he
      · exact h.args e he
      · rw [List.mem_singleton.1 he]
        exact hargs
    · obtain ⟨v, ⟨e, he, hv⟩, hp⟩ := h.response p hp
      exact ⟨v, ⟨e, List.mem_append_left _ he, hv⟩, hp⟩

/-- A completed execution stays completed with its value. -/
theorem Completed.complete {id : UInt64} {v w : V} (h : s.Completed id v) {j : ℕ}
    {e : Execution V F} (he : s.executions[j]? = some e) (hnone : e.result = none) :
    (s.complete m j e w).Completed id v := by
  obtain ⟨e', he', hid, hv⟩ := h
  obtain ⟨i, hi⟩ := List.mem_iff_getElem?.1 he'
  have hij : j ≠ i := by
    rintro rfl
    rw [he, Option.some.injEq] at hi
    simp [← hi, hnone] at hv
  refine ⟨e', List.mem_iff_getElem?.2 ⟨i, ?_⟩, hid, hv⟩
  rw [Connection.complete, List.getElem?_set_ne hij, hi]

/-- The execution just completed is completed with the value. -/
theorem completed_complete {j : ℕ} {e : Execution V F} (he : s.executions[j]? = some e) (v : V) :
    (s.complete m j e v).Completed e.id v := by
  have hj : j < s.executions.length := (List.getElem?_eq_some_iff.1 he).1
  exact ⟨{ e with result := some v }, List.mem_iff_getElem?.2 ⟨j, List.getElem?_set_self hj⟩,
    rfl, rfl⟩

theorem Served.complete (h : Served m funcs s) {j : ℕ} {e : Execution V F}
    (he : s.executions[j]? = some e) (hnone : e.result = none) (v : V) :
    Served m funcs (s.complete m j e v) := by
  obtain ⟨hj, hej⟩ := List.getElem?_eq_some_iff.1 he
  have hwork : (s.executions.set j { e with result := some v }).map Execution.work =
      s.executions.map Execution.work := by
    rw [List.map_set]
    refine List.ext_getElem? fun i => ?_
    rw [List.getElem?_set]
    split_ifs with hij hlt
    · subst hij
      simp [he, Execution.work]
    · subst hij
      simp at hlt
      omega
    · rfl
  refine ⟨h.arity, h.writes, h.nodup, ?_, fun e' he' => ?_, fun p hp => ?_⟩
  · simp only [Connection.complete, hwork]
    exact h.work
  · rcases List.mem_or_eq_of_mem_set he' with he' | rfl
    · exact h.args e' he'
    · exact h.args e (List.mem_of_getElem? he)
  · simp only [Connection.complete] at hp
    have hold : p ∈ s.responses →
        ∃ w, (s.complete m j e v).Completed p.id w ∧ p.payload = m.pack w := by
      intro hp
      obtain ⟨w, hw, hpay⟩ := h.response p hp
      exact ⟨w, hw.complete he hnone, hpay⟩
    split_ifs at hp
    · rcases List.mem_append.1 hp with hp | hp
      · exact hold hp
      · rw [List.mem_singleton.1 hp]
        exact ⟨v, completed_complete he v, rfl⟩
    · exact hold hp

/-! ### The futures -/

/-- A step of the server keeps the invariant of the futures when completed executions stay. -/
theorem Settled.of_server (h : Settled m s) (hcalls : t.calls = s.calls) (hreq : t.reqId = s.reqId)
    (hresp : t.respCallbacks = s.respCallbacks) (hcb : t.callbacks = s.callbacks)
    (hset : t.settings = s.settings) (hdone : ∀ id v, s.Completed id v → t.Completed id v) :
    Settled m t := by
  constructor
  · rw [hreq, hcalls, h.reqId_eq]
  · rw [hresp, hcalls]
    exact h.key
  · simp only [stored, hresp, hcalls, hcb, hset]
    exact h.once
  · rw [hcb, hcalls]
    intro cb hcb
    obtain ⟨hlt, v, hv, hpay⟩ := h.callback cb hcb
    exact ⟨hlt, v, hdone _ _ hv, hpay⟩
  · rw [hset, hcalls]
    intro x hx
    obtain ⟨c, hc, hx⟩ := h.setting x hx
    refine ⟨c, hc, ?_⟩
    cases ho : x.origin with
    | response =>
      rw [ho] at hx
      exact hdone _ _ hx
    | disconnect =>
      rw [ho] at hx
      exact hx

/-- A new call has its right with the stored callback; the number was free. -/
theorem Settled.call (h : Settled m s) (hlen : s.calls.length < 2 ^ 64) (c : Call V) :
    Settled m (s.call m c) := by
  have hfree : ∀ k < s.calls.length, UInt64.ofNat s.calls.length ≠ UInt64.ofNat k := by
    intro k hk heq
    have := ofNat_inj hlen (by omega) heq
    omega
  have hold : ∀ {k : ℕ} {c' : Call V}, s.calls[k]? = some c' → (s.calls ++ [c])[k]? = some c' := by
    intro k c' hk
    rw [List.getElem?_append_left (List.getElem?_eq_some_iff.1 hk).1, hk]
  refine ⟨?_, fun i k hk => ?_, fun k hk => ?_, fun cb hcb => ?_, fun x hx => ?_⟩
  · simp [Connection.call, h.reqId_eq, UInt64.ofNat_add]
  · simp only [Connection.call, Std.ExtTreeMap.getElem?_insert, Std.compare_eq_iff_eq,
      List.length_append, List.length_singleton] at hk ⊢
    split_ifs at hk with hi
    · rw [Option.some.injEq] at hk
      rw [← hi, ← hk, h.reqId_eq]
      exact ⟨rfl, by omega⟩
    · obtain ⟨hik, hlt⟩ := h.key i k hk
      exact ⟨hik, by omega⟩
  · simp only [Connection.call, List.length_append, List.length_singleton] at hk
    simp only [Connection.call, stored, h.reqId_eq, Std.ExtTreeMap.getElem?_insert,
      Std.compare_eq_iff_eq]
    by_cases hnew : k = s.calls.length
    · subst hnew
      -- Nothing has been done with the new number.
      have hcb : s.callbacks.countP (fun cb => cb.1 = s.calls.length) = 0 := by
        rw [List.countP_eq_zero]
        intro cb hcb
        have := (h.callback cb hcb).1
        simp only [decide_eq_true_eq]
        omega
      have hset : s.settings.countP (fun x => x.call = s.calls.length) = 0 := by
        rw [List.countP_eq_zero]
        intro x hx
        obtain ⟨c', hc', -⟩ := h.setting x hx
        have := (List.getElem?_eq_some_iff.1 hc').1
        simp only [decide_eq_true_eq]
        omega
      simp [hcb, hset]
    · rw [if_neg (hfree k (by omega))]
      exact h.once k (by omega)
  · obtain ⟨hlt, hv⟩ := h.callback cb hcb
    exact ⟨by simp [Connection.call]; omega, hv⟩
  · obtain ⟨c', hc', hx⟩ := h.setting x hx
    exact ⟨c', hold hc', hx⟩

/-- A response moves the right from the stored callback to an enqueued one. -/
theorem Settled.clientOnReceive (h : Settled m s) (hlen : s.calls.length ≤ 2 ^ 64) {p : Response}
    (hp : ∀ k, s.respCallbacks[p.id]? = some k → ∃ v, s.Completed p.id v ∧ p.payload = m.pack v) :
    Settled m (s.clientOnReceive p) := by
  rw [Connection.clientOnReceive]
  split
  · rename_i k hk
    obtain ⟨hid, hlt⟩ := h.key p.id k hk
    obtain ⟨v, hv, hpay⟩ := hp k hk
    refine ⟨h.reqId_eq, fun i j hij => ?_, fun j hj => ?_, fun cb hcb => ?_, h.setting⟩
    · simp only [Std.ExtTreeMap.getElem?_erase] at hij
      split_ifs at hij
      exact h.key i j hij
    · have hj' : j < s.calls.length := hj
      have honce := h.once j hj
      simp only [stored] at honce
      simp only [stored, Std.ExtTreeMap.getElem?_erase, Std.compare_eq_iff_eq, List.countP_append,
        List.countP_singleton]
      by_cases hjk : j = k
      · subst hjk
        rw [← hid, if_pos hk] at honce
        simp [hid]
        omega
      · have hne : p.id ≠ UInt64.ofNat j := by
          rw [hid]
          intro heq
          exact hjk (ofNat_inj (by omega) (by omega) heq.symm)
        simp [hne, Ne.symm hjk]
        exact honce
    · rcases List.mem_append.1 hcb with hcb | hcb
      · exact h.callback cb hcb
      · rw [List.mem_singleton.1 hcb]
        exact ⟨hlt, v, hid ▸ hv, hpay⟩
  · exact h

/-- An enqueued callback uses its right up. -/
theorem Settled.deserializeFuture (h : Settled m s) (hm : ∀ v, m.unpack (m.pack v) = v)
    {cb : ℕ × IOBuffer} {pre post : List (ℕ × IOBuffer)} (hcb : s.callbacks = pre ++ cb :: post) :
    Settled m ({ s with callbacks := pre ++ post }.deserializeFuture m cb) := by
  have hmem : ∀ cb' ∈ pre ++ post, cb' ∈ s.callbacks := fun cb' => mem_of_mem_split hcb
  refine ⟨h.reqId_eq, h.key, fun k hk => ?_, fun cb' h' => h.callback cb' (hmem cb' h'),
    fun x hx => ?_⟩
  · have honce := h.once k hk
    have hstored : ({ s with callbacks := pre ++ post }.deserializeFuture m cb).stored k =
        s.stored k := rfl
    rw [hstored]
    simp only [hcb, List.countP_append, List.countP_cons, decide_eq_true_eq] at honce
    simp only [Connection.deserializeFuture, List.countP_append, List.countP_singleton,
      decide_eq_true_eq]
    omega
  · rcases List.mem_append.1 hx with hx | hx
    · exact h.setting x hx
    · rw [List.mem_singleton.1 hx]
      obtain ⟨hlt, v, hv, hpay⟩ := h.callback cb (by simp [hcb])
      refine ⟨s.calls[cb.1], List.getElem?_eq_getElem hlt, ?_⟩
      simp only [hpay, hm]
      exact hv

/-- A number is stored at most once. -/
theorem Settled.countP_toList (h : Settled m s) (k : ℕ) :
    s.respCallbacks.toList.countP (fun e => e.2 = k) = s.stored k := by
  have hnodup : s.respCallbacks.toList.Nodup :=
    Std.ExtTreeMap.distinct_keys_toList.imp fun hne heq => hne (by rw [heq]; simp)
  have hcount : s.respCallbacks.toList.countP (fun e => e.2 = k) =
      s.respCallbacks.toList.count (UInt64.ofNat k, k) := by
    rw [List.count]
    refine List.countP_congr fun e he => ?_
    rw [Std.ExtTreeMap.mem_toList_iff_getElem?_eq_some] at he
    have hkey := (h.key e.1 e.2 he).1
    simp only [decide_eq_true_eq, beq_iff_eq, Prod.ext_iff]
    exact ⟨fun hk => ⟨by rw [hkey, hk], hk⟩, fun hk => hk.2⟩
  simp only [hcount, hnodup.count, Std.ExtTreeMap.mem_toList_iff_getElem?_eq_some, stored]

/-- `disconnect` uses the rights of all stored callbacks up. -/
theorem Settled.disconnect (h : Settled m s) : Settled m s.disconnect := by
  refine ⟨h.reqId_eq, by simp [Connection.disconnect], fun k hk => ?_, h.callback,
    fun x hx => ?_⟩
  · have honce := h.once k hk
    have hleft : (s.respCallbacks.toList.filterMap fun e =>
        s.calls[e.2]?.map fun c => (⟨e.2, c.default, .disconnect⟩ : Setting V)).countP
          (fun x => x.call = k) = s.respCallbacks.toList.countP (fun e => e.2 = k) := by
      rw [List.countP_filterMap]
      refine List.countP_congr fun e he => ?_
      rw [Std.ExtTreeMap.mem_toList_iff_getElem?_eq_some] at he
      simp [List.getElem?_eq_getElem (h.key e.1 e.2 he).2]
    rw [← h.countP_toList] at honce
    simp only [Connection.disconnect, List.countP_append, hleft, stored]
    simp
    omega
  · rcases List.mem_append.1 hx with hx | hx
    · exact h.setting x hx
    · obtain ⟨e, -, he⟩ := List.mem_filterMap.1 hx
      obtain ⟨c, hc, rfl⟩ := Option.map_eq_some_iff.1 he
      exact ⟨c, hc, rfl⟩

/-! ### Runs -/

/-- A task of the server leaves the client alone and completes nothing. -/
theorem runTask_eq {x : ServerTask F} (h : s.runTask m x = some t) :
    t.calls = s.calls ∧ t.reqId = s.reqId ∧ t.respCallbacks = s.respCallbacks ∧
      t.callbacks = s.callbacks ∧ t.settings = s.settings ∧
      ∀ id v, s.Completed id v → t.Completed id v := by
  cases x with
  | disconnect =>
    simp only [Connection.runTask, Option.some.injEq] at h
    subst h
    exact ⟨rfl, rfl, rfl, rfl, rfl, fun _ _ hc => hc⟩
  | deferredRPCCall id f buf =>
    simp only [Connection.runTask, Option.map_eq_some_iff] at h
    obtain ⟨args, -, rfl⟩ := h
    refine ⟨rfl, rfl, rfl, rfl, rfl, ?_⟩
    rintro id v ⟨e, he, hv⟩
    exact ⟨e, List.mem_append_left _ he, hv⟩

/-- The receipt of a response leaves the server alone. -/
theorem clientOnReceive_eq (s : Connection V F) (p : Response) :
    (s.clientOnReceive p).calls = s.calls ∧ (s.clientOnReceive p).requests = s.requests ∧
      (s.clientOnReceive p).received = s.received ∧ (s.clientOnReceive p).tasks = s.tasks ∧
      (s.clientOnReceive p).executions = s.executions ∧
      (s.clientOnReceive p).responses = s.responses := by
  rw [Connection.clientOnReceive]
  split <;> exact ⟨rfl, rfl, rfl, rfl, rfl, rfl⟩

/-- A step of the client other than a call keeps the invariant of the requests. -/
theorem Served.of_client (h : Served m funcs s) (hcalls : t.calls = s.calls)
    (hreq : t.requests = s.requests) (hrec : t.received = s.received) (htasks : t.tasks = s.tasks)
    (hexec : t.executions = s.executions) (hresp : t.responses = s.responses) :
    Served m funcs t := by
  constructor
  · rw [hcalls]
    exact h.arity
  · rw [hreq, hrec, hcalls]
    exact h.writes
  · rw [hreq, hrec]
    exact h.nodup
  · rw [htasks, hexec, hrec]
    exact h.work
  · rw [hexec]
    exact h.args
  · simp only [hresp, Completed, hexec]
    exact h.response

/-- No step forgets a call. -/
theorem length_calls_step {a : Action V} (h : step m funcs s a = some t) :
    s.calls.length ≤ t.calls.length := by
  cases a with
  | call name args default =>
    simp only [step, Option.ite_none_right_eq_some, Option.some.injEq] at h
    simp [← h.2, Connection.call]
  | receive i =>
    simp only [step, Option.ite_none_right_eq_some, Option.map_eq_some_iff] at h
    obtain ⟨-, r, -, rfl⟩ := h
    exact le_rfl
  | task i =>
    simp only [step, Option.bind_eq_some_iff] at h
    obtain ⟨x, -, hx⟩ := h
    rw [(runTask_eq hx).1]
  | complete j v =>
    simp only [step, Option.bind_eq_some_iff, Option.ite_none_right_eq_some,
      Option.some.injEq] at h
    obtain ⟨e, -, -, rfl⟩ := h
    exact le_rfl
  | deliver i =>
    simp only [step, Option.ite_none_right_eq_some, Option.map_eq_some_iff] at h
    obtain ⟨-, p, -, rfl⟩ := h
    rw [(clientOnReceive_eq s p).1]
  | unknown p =>
    simp only [step, Option.ite_none_right_eq_some, Option.some.injEq] at h
    rw [← h.2, (clientOnReceive_eq s p).1]
  | callback i =>
    simp only [step, Option.map_eq_some_iff] at h
    obtain ⟨cb, -, rfl⟩ := h
    exact le_rfl
  | disconnect =>
    simp only [step, Option.some.injEq] at h
    rw [← h]
    exact le_rfl

/-- Every step keeps the two invariants while the numbers last. -/
theorem matched_step (hm : m.RoundTrips) (hserved : Served m funcs s) (hsettled : Settled m s)
    {a : Action V} (hst : step m funcs s a = some t) (hlen : t.calls.length ≤ 2 ^ 64) :
    Served m funcs t ∧ Settled m t := by
  have hle := length_calls_step hst
  cases a with
  | call name args default =>
    simp only [Connection.step, Option.ite_none_right_eq_some, Option.some.injEq] at hst
    obtain ⟨hargs, rfl⟩ := hst
    have hlt : s.calls.length < 2 ^ 64 := by
      simp [Connection.call] at hlen
      omega
    exact ⟨hserved.call hsettled.reqId_eq hlt hargs, hsettled.call hlt _⟩
  | receive i =>
    simp only [Connection.step, Option.ite_none_right_eq_some, Option.map_eq_some_iff] at hst
    obtain ⟨-, r, hr, rfl⟩ := hst
    obtain ⟨pre, post, hsplit, -, herase⟩ := split_of_getElem? hr
    rw [herase]
    exact ⟨hserved.serverOnReceive hsplit, hsettled.of_server rfl rfl rfl rfl rfl fun _ _ hc => hc⟩
  | task i =>
    simp only [Connection.step, Option.bind_eq_some_iff] at hst
    obtain ⟨x, hx, ht⟩ := hst
    obtain ⟨pre, post, hsplit, -, herase⟩ := split_of_getElem? hx
    rw [herase] at ht
    obtain ⟨hcalls, hreq, hresp, hcb, hset, hdone⟩ := runTask_eq ht
    exact ⟨hserved.runTask hsplit ht, hsettled.of_server hcalls hreq hresp hcb hset hdone⟩
  | complete j v =>
    simp only [Connection.step, Option.bind_eq_some_iff, Option.ite_none_right_eq_some,
      Option.some.injEq, Option.isNone_iff_eq_none] at hst
    obtain ⟨e, he, hnone, rfl⟩ := hst
    exact ⟨hserved.complete he hnone v,
      hsettled.of_server rfl rfl rfl rfl rfl fun _ _ hc => hc.complete he hnone⟩
  | deliver i =>
    simp only [Connection.step, Option.ite_none_right_eq_some, Option.map_eq_some_iff] at hst
    obtain ⟨-, p, hp, rfl⟩ := hst
    obtain ⟨hcalls, hreq, hrec, htasks, hexec, hresp⟩ := clientOnReceive_eq s p
    exact ⟨hserved.of_client hcalls hreq hrec htasks hexec hresp,
      hsettled.clientOnReceive (by omega) fun k _ => hserved.response p (List.mem_of_getElem? hp)⟩
  | unknown p =>
    simp only [Connection.step, Option.ite_none_right_eq_some, Option.some.injEq] at hst
    obtain ⟨⟨-, hp⟩, rfl⟩ := hst
    rw [Connection.clientOnReceive, hp]
    exact ⟨hserved, hsettled⟩
  | callback i =>
    simp only [Connection.step, Option.map_eq_some_iff] at hst
    obtain ⟨cb, hcb, rfl⟩ := hst
    obtain ⟨pre, post, hsplit, -, herase⟩ := split_of_getElem? hcb
    rw [herase]
    exact ⟨hserved.of_client rfl rfl rfl rfl rfl rfl, hsettled.deserializeFuture hm.result hsplit⟩
  | disconnect =>
    simp only [Connection.step, Option.some.injEq] at hst
    subst hst
    exact ⟨hserved.of_client rfl rfl rfl rfl rfl rfl, hsettled.disconnect⟩

theorem matched_of_exec (hm : m.RoundTrips) {as : List (Action V)}
    (hrun : exec (Connection.step m funcs) start as = some s) (hlen : s.calls.length ≤ 2 ^ 64) :
    Served m funcs s ∧ Settled m s := by
  refine exec_induction (fun _ s => s.calls.length ≤ 2 ^ 64 → Served m funcs s ∧ Settled m s)
    (fun _ => ⟨served_start, settled_start⟩) ?_ hrun hlen
  intro _ s a t _ ih hst hlen
  obtain ⟨hserved, hsettled⟩ := ih ((length_calls_step hst).trans hlen)
  exact matched_step hm hserved hsettled hst hlen

/-- Every execution is one of the call whose request it did. -/
theorem Served.runs (h : Served m funcs s) (hm : m.RoundTrips) {e : Execution V F}
    (he : e ∈ s.executions) : ∃ k c, s.calls[k]? = some c ∧ e.Runs funcs k c := by
  have hwork : e.work ∈ s.received.filterMap (Request.work funcs) :=
    h.work.mem_iff.1 (List.mem_append_right _ (List.mem_map_of_mem he))
  obtain ⟨r, hr, hre⟩ := List.mem_filterMap.1 hwork
  obtain ⟨f, hf, hfe⟩ := Option.map_eq_some_iff.1 hre
  obtain ⟨k, c, hc, hw⟩ := h.writes r (List.mem_append_right _ hr)
  simp only [Execution.work, Prod.mk.injEq] at hfe
  obtain ⟨hid, rfl, hbuf⟩ := hfe
  refine ⟨k, c, hc, hid ▸ hw.id_eq, hw.name_eq ▸ hf, fun harity => ?_⟩
  have hargs := h.args e he
  rw [deserializeArgs, ← hbuf, hw.args_eq, ← harity] at hargs
  split_ifs at hargs with h0
  · rw [List.eq_nil_of_length_eq_zero h0, ← Option.some.inj hargs]
  · rw [hm.args c.args (h.arity c (List.mem_of_getElem? hc))] at hargs
    exact (Option.some.inj hargs).symm

/-- A request received for a registered function is deferred or executed, once. -/
theorem Served.exactly_once (h : Served m funcs s) {r : Request} (hr : r ∈ s.received)
    (hname : r.name ∈ funcs) :
    s.executions.countP (fun e => e.id = r.id) +
      s.tasks.countP (fun x => x.work.map Prod.fst = some r.id) = 1 := by
  obtain ⟨f, hf⟩ := Option.isSome_iff_exists.1 (Std.ExtTreeMap.mem_iff_isSome_getElem?.1 hname)
  have hnodup : (s.received.map Request.id).Nodup :=
    h.nodup.sublist ((List.sublist_append_right _ _).map _)
  -- Among the requests received, only `r` itself has its number.
  have hreceived :
      (s.received.filterMap (Request.work funcs)).countP (fun w => w.1 = r.id) = 1 := by
    rw [List.countP_filterMap, ← List.count_eq_one_of_mem hnodup (List.mem_map_of_mem hr),
      List.count, List.countP_map]
    refine List.countP_congr fun r' hr' => ?_
    by_cases hid : r'.id = r.id
    · obtain rfl : r' = r := List.inj_on_of_nodup_map hnodup hr' hr hid
      simp [Request.work, hf]
    · cases hf' : funcs[r'.name]? with
      | none => simp [Request.work, hf', hid]
      | some f' => simp [Request.work, hf', hid]
  have hcount := h.work.countP_eq fun w => w.1 = r.id
  rw [hreceived, List.countP_append, List.countP_map, List.countP_filterMap] at hcount
  rw [add_comm, ← hcount]
  congr 1
  refine List.countP_congr fun x _ => ?_
  cases hx : x.work with
  | none => simp
  | some w => simp

/-- **Matching of requests and responses.** Take any run of one client and one server: calls with
up to five arguments, receipts, executions, completions and callbacks in any order, responses
delivered in any order and any number of times, responses with numbers that nobody waits for, and
disconnects; with fewer than `2 ^ 64` calls and `msgpack` giving back what was packed. Every
request received is the one some call wrote, and no two have the same number; a received request
for a registered function is executed once or still deferred. Every execution runs the function
that is registered under the name of its call on the arguments of the call. The future of a call
is set at most once: by a response with the value that the execution of this very call completed
with, or by a disconnect with the default value.

Source: `src/rpc/rpc.h`, lines 479–532; `src/rpc/rpc.cc`, lines 116–173 and 224–274. -/
theorem rpc_matching (m : Msgpack V) (hm : m.RoundTrips)
    (funcs : Std.ExtTreeMap Str (RPCFunc F)) (as : List (Action V)) (s : Connection V F)
    (hrun : exec (step m funcs) start as = some s) (hlen : s.calls.length < 2 ^ 64) :
    (∀ r ∈ s.received, ∃ k c, s.calls[k]? = some c ∧ r.Writes m k c) ∧
    (s.received.map Request.id).Nodup ∧
    (∀ r ∈ s.received, r.name ∈ funcs → s.executions.countP (fun e => e.id = r.id) +
      s.tasks.countP (fun x => x.work.map Prod.fst = some r.id) = 1) ∧
    (∀ e ∈ s.executions, ∃ k c, s.calls[k]? = some c ∧ e.Runs funcs k c) ∧
    (∀ k, s.settings.countP (fun x => x.call = k) ≤ 1) ∧
    (∀ x ∈ s.settings, ∃ c, s.calls[x.call]? = some c ∧
      match x.origin with
      | .response => ∃ e ∈ s.executions, e.Runs funcs x.call c ∧ e.result = some x.value
      | .disconnect => x.value = c.default) := by
  obtain ⟨hserved, hsettled⟩ := matched_of_exec hm hrun hlen.le
  refine ⟨fun r hr => hserved.writes r (List.mem_append_right _ hr),
    hserved.nodup.sublist ((List.sublist_append_right _ _).map _),
    fun r hr => hserved.exactly_once hr, fun e he => hserved.runs hm he, fun k => ?_,
    fun x hx => ?_⟩
  · by_cases hk : k < s.calls.length
    · have := hsettled.once k hk
      omega
    · -- A number that no call has is not set.
      have hzero : s.settings.countP (fun x => x.call = k) = 0 := by
        rw [List.countP_eq_zero]
        intro x hx
        obtain ⟨c, hc, -⟩ := hsettled.setting x hx
        have := (List.getElem?_eq_some_iff.1 hc).1
        simp only [decide_eq_true_eq]
        omega
      omega
  · obtain ⟨c, hc, hx'⟩ := hsettled.setting x hx
    refine ⟨c, hc, ?_⟩
    cases ho : x.origin with
    | disconnect =>
      rw [ho] at hx'
      exact hx'
    | response =>
      rw [ho] at hx'
      obtain ⟨e, he, hid, hv⟩ := hx'
      obtain ⟨k, c', hc', hruns⟩ := hserved.runs hm he
      have hk : k = x.call := by
        refine ofNat_inj ?_ ?_ (hruns.id_eq.symm.trans hid)
        · exact (List.getElem?_eq_some_iff.1 hc').1.trans hlen
        · exact (List.getElem?_eq_some_iff.1 hc).1.trans hlen
      subst hk
      obtain rfl : c' = c := Option.some.inj (hc'.symm.trans hc)
      exact ⟨e, he, hruns, hv⟩

/-- `msgpack` on the integers below 128, which are packed as one byte; a tuple of up to 15 values
has one byte before them. -/
def fixint : Msgpack (Fin 128) where
  packArgs args := UInt8.ofNat (0x90 + args.length) :: args.map fun v : Fin 128 => UInt8.ofNat v.val
  unpackArgs n
    | [] => none
    | b :: l =>
      if b = UInt8.ofNat (0x90 + l.length) ∧ n ≤ l.length then
        some ((l.take n).map fun b => Fin.ofNat 128 b.toNat)
      else none
  pack v := [UInt8.ofNat v.val]
  unpack
    | [] => 0
    | b :: _ => Fin.ofNat 128 b.toNat

/-- An integer below 128. -/
def small (n : ℕ) : Fin 128 := Fin.ofNat 128 n

theorem fixint_roundTrips : fixint.RoundTrips := by
  have hbyte : ∀ v : Fin 128, Fin.ofNat 128 (UInt8.ofNat v.val).toNat = v := by decide
  refine ⟨fun args _ => ?_, hbyte⟩
  have hmap : ((fun b : UInt8 => Fin.ofNat 128 b.toNat) ∘ fun v : Fin 128 => UInt8.ofNat v.val) =
      id := by
    funext v
    exact hbyte v
  simp only [fixint, List.length_map, le_refl, and_self, ↓reduceIte]
  rw [List.take_of_length_le (by simp), List.map_map, hmap, List.map_id]

/-- Two functions: `f` of two parameters and `g` of none. -/
def twoFuncs : Std.ExtTreeMap Str (RPCFunc ℕ) :=
  (∅ : Std.ExtTreeMap Str (RPCFunc ℕ)).insert [102] ⟨0, 2⟩ |>.insert [103] ⟨1, 0⟩

/-- Three calls of which two are executed and answered out of order, one response twice, and one
is left to the disconnect. -/
def outOfOrder : List (Action (Fin 128)) :=
  [.call [102] [1, 2] 0, .call [103] [] 0, .call [102] [3, 4] 9, .receive 0, .receive 0, .task 1,
    .task 0, .complete 0 7, .complete 1 5, .deliver 1, .deliver 1, .unknown ⟨40, []⟩, .deliver 0,
    .callback 1, .disconnect, .callback 0]

theorem rpc_matching_outOfOrder :
    fixint.RoundTrips ∧
    ∃ s : Connection (Fin 128) ℕ, exec (step fixint twoFuncs) start outOfOrder = some s ∧
      s.calls.length < 2 ^ 64 ∧
      s.settings = [⟨1, 7, .response⟩, ⟨2, 9, .disconnect⟩, ⟨0, 5, .response⟩] ∧
      (∀ e ∈ s.executions, ∃ k c, s.calls[k]? = some c ∧ e.Runs twoFuncs k c) ∧
      ∀ k, s.settings.countP (fun x => x.call = k) ≤ 1 := by
  obtain ⟨-, -, -, hruns, honce, -⟩ :=
    rpc_matching fixint fixint_roundTrips twoFuncs outOfOrder _ rfl (by decide)
  exact ⟨fixint_roundTrips, _, rfl, by decide, by decide, hruns, honce⟩

end RawDish.Rpc.Connection
