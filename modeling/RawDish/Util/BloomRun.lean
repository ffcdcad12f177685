import RawDish.Util.BloomWire
import Mathlib.Data.List.Forall2

/-!
# Runs with Bloom filters

What a program with filters relies on: a filter has bits, so that `% _size` is defined, and it finds
every key that it has been given since its last `reset`, also as a copy. Both come to an end in one
place of the class. `deserialize` refuses sizes that are too large and takes a size of zero, and the
assignment frees the buffer before it reads the other filter, which may be the filter itself.

## Main definitions

* `BloomFilter.Act`, `BloomFilter.act` : the operations, with the assignment of a filter to itself.
* `BloomFilter.keysSet` : the keys that each filter has been given.
* `BloomFilter.ReceivesEmpty` : `deserialize` is called with a vector of no bits.
* `BloomFilter.Careful` : a filter is assigned to itself only while it has no keys.

## Main results

* `BloomFilter.size_pos_iff` : when the filters of a run have bits.
* `BloomFilter.findsKeys_iff` : when the filters of a run find their keys.

## References

* `src/util/bloomfilter.cc`, lines 44–147.
-/

namespace RawDish.Util

open Lib

namespace BloomFilter

/-- The assignment of a filter to itself: the buffer is freed, and the new one is copied to
itself. -/
def assignSelf (f : BloomFilter) (fresh : ℕ → UInt8) : BloomFilter :=
  { f with hash := (List.range f.size.toNat).map fresh }

/-- An operation on the filters of a program. -/
inductive Act
  | op (o : Op)
  | assignSelf (i : ℕ) (fresh : ℕ → UInt8)

/-- The filters after an operation. -/
def act (pool : List BloomFilter) : Act → Option (List BloomFilter)
  | .op o => step pool o
  | .assignSelf i fresh => pool[i]?.map fun f => pool.set i (f.assignSelf fresh)

/-! ### The number of bits -/

/-- A filter receives a vector of eight bytes that gives the number of bits as zero. -/
def ReceivesEmpty (pool : List BloomFilter) : Act → Prop
  | .op (.deserialize i src) => i < pool.length ∧ src.length = 8 ∧ encodedSize src = 0
  | _ => False

theorem size_deserialize (f : BloomFilter) (src : List UInt8) :
    (f.deserialize src).size.toNat =
      if WellFormed src then encodedSize src else f.size.toNat := by
  split_ifs with hsrc
  · rw [deserialize_of_wellFormed f hsrc]
    rfl
  · rw [deserialize_of_not_wellFormed f hsrc]

/-- The vectors that are accepted with no bits. -/
theorem wellFormed_and_empty_iff {src : List UInt8} :
    WellFormed src ∧ encodedSize src = 0 ↔ src.length = 8 ∧ encodedSize src = 0 := by
  constructor
  · rintro ⟨hsrc, hzero⟩
    have hlen := hsrc.length_eq
    rw [hzero] at hlen
    exact ⟨hlen, hzero⟩
  · rintro ⟨hlen, hzero⟩
    refine ⟨⟨hlen.ge, ?_, ?_⟩, hzero⟩
    · omega
    · rw [hlen, hzero]

/-- An operation other than the one that receives no bits leaves filters with bits. -/
theorem size_pos_act {pool pool' : List BloomFilter} {a : Act}
    (h : ∀ f ∈ pool, 1 ≤ f.size.toNat) (ha : ¬ ReceivesEmpty pool a)
    (hact : act pool a = some pool') : ∀ f ∈ pool', 1 ≤ f.size.toNat := by
  have hget : ∀ {i : ℕ} {f : BloomFilter}, pool[i]? = some f → 1 ≤ f.size.toNat :=
    fun hf => h _ (List.mem_of_getElem? hf)
  cases a with
  | assignSelf i fresh =>
    obtain ⟨f, hf, rfl⟩ := Option.map_eq_some_iff.1 hact
    exact forall_set h i (hget (f := f) hf)
  | op o =>
    cases steps_of_step hact with
    | create => exact forall_concat h valid_create.size_pos
    | reset i hpos hle seed => exact forall_set h i (valid_reset hpos hle seed).size_pos
    | @set i f hf _ key => exact forall_set h i (hget (f := f) hf)
    | mayContain _ _ _ => exact h
    | @copy j f hf fresh => exact forall_concat h (hget (f := f) hf)
    | @assign i j f hf fresh => exact forall_set h i (hget (f := f) hf)
    | serialize i => exact h
    | @deserialize i f hf src =>
      refine forall_set h i ?_
      have hlt : i < pool.length := (List.getElem?_eq_some_iff.1 hf).1
      have hnot : ¬ (WellFormed src ∧ encodedSize src = 0) := fun hsrc =>
        ha ⟨hlt, wellFormed_and_empty_iff.1 hsrc⟩
      rw [size_deserialize]
      split_ifs with hsrc
      · exact Nat.one_le_iff_ne_zero.2 fun hzero => hnot ⟨hsrc, hzero⟩
      · exact hget hf

/-- **Filters have bits.** In every run, all filters have at least one bit in every state, so that
the positions of every key are defined, if and only if no filter receives a vector of no bits. -/
theorem size_pos_iff (acts : List Act) :
    (∀ pre pool, pre <+: acts → exec act [] pre = some pool → ∀ f ∈ pool, 1 ≤ f.size.toNat) ↔
      AllSteps act (fun pool a => ¬ ReceivesEmpty pool a) [] acts := by
  constructor
  · intro h
    refine allSteps_iff_prefix.2 fun pre a hpre pool hpool hempty => ?_
    cases a with
    | assignSelf i fresh => exact hempty
    | op o =>
      cases o with
      | deserialize i src =>
        obtain ⟨hlt, hsrc⟩ := hempty
        obtain ⟨hwell, hzero⟩ := wellFormed_and_empty_iff.2 hsrc
        have hstep : act pool (.op (.deserialize i src)) =
            some (pool.set i ((pool[i]).deserialize src)) := by
          simp [act, step, List.getElem?_eq_getElem hlt]
        have hpos := h _ _ hpre (exec_concat_eq_some.2 ⟨pool, hpool, hstep⟩)
          ((pool[i]).deserialize src) (List.mem_set hlt _)
        rw [size_deserialize, if_pos hwell, hzero] at hpos
        exact absurd hpos (by omega)
      | _ => exact hempty
  · intro hall pre pool hpre hpool
    obtain ⟨post, rfl⟩ := hpre
    exact exec_invariant (fun _ pool => ∀ f ∈ pool, 1 ≤ f.size.toNat) (by simp)
      (fun _ pool a pool' _ hpool ha hact => size_pos_act hpool ha hact)
      (allSteps_append.1 hall).1 hpool

/-- Eight bytes of zero. -/
theorem size_zero_received :
    ¬ ∀ pre pool, pre <+: [Act.op .create, .op (.deserialize 0 [0, 0, 0, 0, 0, 0, 0, 0])] →
      exec act [] pre = some pool → ∀ f ∈ pool, 1 ≤ f.size.toNat := by
  intro h
  have hpos := h _ _ List.prefix_rfl rfl (create.deserialize [0, 0, 0, 0, 0, 0, 0, 0])
    List.mem_cons_self
  rw [size_deserialize, if_pos (by decide)] at hpos
  exact absurd hpos (by decide)

/-! ### The keys of the filters -/

/-- The keys that the filters have been given, after one more operation. `reset` empties a filter,
and a filter that is made or assigned from another one has its keys. -/
def noteKeys (keys : List (List Str)) : Act → List (List Str)
  | .op .create => keys ++ [[]]
  | .op (.reset i _ _) => keys.set i []
  | .op (.set i key) => keys.set i (key :: keys.getD i [])
  | .op (.copy j _) => keys ++ [keys.getD j []]
  | .op (.assign i j _) => keys.set i (keys.getD j [])
  | _ => keys

/-- The keys that each filter has been given in a run. -/
def keysSet (acts : List Act) : List (List Str) := acts.foldl noteKeys []

/-- The operation receives no filter. -/
def Act.Local : Act → Prop
  | .op (.deserialize _ _) => False
  | _ => True

/-- The call without what `new` finds in the memory that it returns. -/
def Act.call : Act → Act
  | .op (.copy j _) => .op (.copy j fun _ => 0)
  | .op (.assign i j _) => .op (.assign i j fun _ => 0)
  | .assignSelf i _ => .assignSelf i fun _ => 0
  | a => a

/-- Every filter finds its keys. -/
def FindsKeys (keys : List (List Str)) (pool : List BloomFilter) : Prop :=
  ∀ (i : ℕ) (ks : List Str) (f : BloomFilter), keys[i]? = some ks → pool[i]? = some f →
    ∀ k ∈ ks, f.mayContain k

/-- A filter is assigned to itself only while it has no keys. -/
def Careful (keys : List (List Str)) (acts : List Act) : Prop :=
  AllSteps (fun keys a => some (noteKeys keys a))
    (fun keys a => ∀ i fresh, a = .assignSelf i fresh → keys.getD i [] = []) keys acts

@[simp] theorem noteKeys_call (keys : List (List Str)) (a : Act) :
    noteKeys keys a.call = noteKeys keys a := by
  cases a with
  | assignSelf i fresh => rfl
  | op o => cases o <;> rfl

theorem local_call {a : Act} : a.call.Local ↔ a.Local := by
  cases a with
  | assignSelf i fresh => exact Iff.rfl
  | op o => cases o <;> exact Iff.rfl

theorem call_eq_assignSelf {a : Act} {i : ℕ} :
    (∃ fresh, a.call = .assignSelf i fresh) ↔ ∃ fresh, a = .assignSelf i fresh := by
  cases a with
  | assignSelf j fresh => simp [Act.call]
  | op o => cases o <;> simp [Act.call]

theorem exec_noteKeys (keys : List (List Str)) (acts : List Act) :
    exec (fun keys a => some (noteKeys keys a)) keys acts = some (acts.foldl noteKeys keys) := by
  induction acts generalizing keys with
  | nil => rfl
  | cons a acts ih => exact ih (noteKeys keys a)

theorem careful_call {keys : List (List Str)} {acts : List Act} :
    Careful keys (acts.map Act.call) ↔ Careful keys acts := by
  induction acts generalizing keys with
  | nil => exact Iff.rfl
  | cons a acts ih =>
    have hself : (∀ i fresh, a.call = .assignSelf i fresh → keys.getD i [] = []) ↔
        ∀ i fresh, a = .assignSelf i fresh → keys.getD i [] = [] := by
      constructor
      · intro h i fresh ha
        obtain ⟨fresh', ha'⟩ := call_eq_assignSelf.2 ⟨fresh, ha⟩
        exact h i fresh' ha'
      · intro h i fresh ha
        obtain ⟨fresh', ha'⟩ := call_eq_assignSelf.1 ⟨fresh, ha⟩
        exact h i fresh' ha'
    simp only [Careful, List.map_cons, AllSteps, hself, noteKeys_call, Option.some.injEq,
      forall_eq']
    exact and_congr_right fun _ => ih

/-- A filter that is made right and finds its keys. -/
def Contains (ks : List Str) (f : BloomFilter) : Prop := f.Valid ∧ ∀ k ∈ ks, f.mayContain k

theorem Contains.set {ks : List Str} {f : BloomFilter} (h : Contains ks f) (key : Str) :
    Contains (key :: ks) (f.set key) := by
  refine ⟨h.1.set key, fun k hk => ?_⟩
  rcases List.mem_cons.1 hk with rfl | hk
  · exact mayContain_set_self h.1 k
  · exact mayContain_set_of_mayContain h.1 (h.2 k hk) key

theorem valid_of_length {f : BloomFilter} (h : f.Valid) {g : BloomFilter} (hsize : g.size = f.size)
    (hlen : g.hash.length = f.size.toNat) : g.Valid := by
  refine ⟨hsize ▸ h.size_pos, hsize ▸ h.size_lt, ?_⟩
  rw [hsize, hlen]
  omega

theorem Contains.copy {ks : List Str} {f : BloomFilter} (h : Contains ks f) (fresh : ℕ → UInt8) :
    Contains ks (f.copy fresh) := by
  refine ⟨valid_of_length h.1 rfl (by simp [BloomFilter.copy]), fun k hk => ?_⟩
  rw [mayContain_copy h.1]
  exact h.2 k hk

theorem Contains.assignSelf {f : BloomFilter} {ks : List Str} (h : Contains ks f)
    (fresh : ℕ → UInt8) : Contains [] (f.assignSelf fresh) :=
  ⟨valid_of_length h.1 rfl (by simp [BloomFilter.assignSelf]), fun _ hk => absurd hk
    List.not_mem_nil⟩

/-- A filter that was assigned to itself can be empty. -/
theorem mayContain_assignSelf_zero (f : BloomFilter) (key : Str) :
    (f.assignSelf fun _ => 0).mayContain key = false := by
  rw [← Bool.not_eq_true, mayContain_iff]
  intro h
  have hzero := h 0 (by omega)
  rw [assignSelf, List.map_const', getBit_replicate_zero] at hzero
  exact Bool.false_ne_true hzero

section Forall₂

variable {α β : Type*} {R : α → β → Prop} {l : List α} {m : List β}

theorem forall₂_set (h : List.Forall₂ R l m) {a : α} {b : β} (hab : R a b) (i : ℕ) :
    List.Forall₂ R (l.set i a) (m.set i b) := by
  induction h generalizing i with
  | nil => exact List.Forall₂.nil
  | cons hxy hrest ih =>
    cases i with
    | zero => exact List.Forall₂.cons hab hrest
    | succ i => exact List.Forall₂.cons hxy (ih i)

theorem forall₂_getElem? (h : List.Forall₂ R l m) {i : ℕ} {b : β} (hb : m[i]? = some b) :
    ∃ a, l[i]? = some a ∧ R a b := by
  induction h generalizing i with
  | nil => simp at hb
  | @cons x y _ _ hxy _ ih =>
    cases i with
    | zero =>
      obtain rfl : y = b := by simpa using hb
      exact ⟨x, rfl, hxy⟩
    | succ i => exact ih (by simpa using hb)

end Forall₂

/-- One operation. -/
theorem contains_act {keys : List (List Str)} {pool pool' : List BloomFilter} {a : Act}
    (h : List.Forall₂ Contains keys pool) (hlocal : a.Local)
    (ha : ∀ i fresh, a = .assignSelf i fresh → keys.getD i [] = [])
    (hact : act pool a = some pool') : List.Forall₂ Contains (noteKeys keys a) pool' := by
  have hget : ∀ {i : ℕ} {f : BloomFilter}, pool[i]? = some f → Contains (keys.getD i []) f := by
    intro i f hf
    obtain ⟨ks, hks, hcontains⟩ := forall₂_getElem? h hf
    rwa [List.getD_eq_getElem?_getD, hks]
  have hnew : ∀ {f : BloomFilter}, f.Valid → Contains [] f := fun hf =>
    ⟨hf, fun _ hk => absurd hk List.not_mem_nil⟩
  cases a with
  | assignSelf i fresh =>
    obtain ⟨f, hf, rfl⟩ := Option.map_eq_some_iff.1 hact
    obtain ⟨ks, hks, hcontains⟩ := forall₂_getElem? h hf
    obtain rfl : ks = [] := by
      have hnil := ha i fresh rfl
      rwa [List.getD_eq_getElem?_getD, hks, Option.getD_some] at hnil
    obtain ⟨hi, hkeys⟩ := List.getElem?_eq_some_iff.1 hks
    have hsame : keys.set i [] = keys := by
      have hself := List.set_getElem_self hi
      rwa [hkeys] at hself
    have hset := forall₂_set h (hcontains.assignSelf fresh) i
    rwa [hsame] at hset
  | op o =>
    cases steps_of_step hact with
    | create =>
      exact List.rel_append h (List.Forall₂.cons (hnew valid_create) List.Forall₂.nil)
    | reset i hpos hle seed => exact forall₂_set h (hnew (valid_reset hpos hle seed)) i
    | @set i f hf _ key => exact forall₂_set h ((hget hf).set key) i
    | mayContain _ _ _ => exact h
    | copy hf fresh =>
      exact List.rel_append h (List.Forall₂.cons ((hget hf).copy fresh) List.Forall₂.nil)
    | assign i hf fresh => exact forall₂_set h ((hget hf).copy fresh) i
    | serialize i => exact h
    | deserialize hf src => exact hlocal.elim

/-- A run. -/
theorem contains_exec {acts : List Act} {keys : List (List Str)} {pool pool' : List BloomFilter}
    (h : List.Forall₂ Contains keys pool) (hlocal : ∀ a ∈ acts, a.Local)
    (hcareful : Careful keys acts) (hrun : exec act pool acts = some pool') :
    List.Forall₂ Contains (acts.foldl noteKeys keys) pool' := by
  induction acts generalizing keys pool with
  | nil =>
    rw [exec_nil, Option.some.injEq] at hrun
    exact hrun ▸ h
  | cons a acts ih =>
    obtain ⟨mid, hmid, hrest⟩ := exec_cons_eq_some.1 hrun
    obtain ⟨ha, hacts⟩ := hcareful
    exact ih (contains_act h (hlocal a List.mem_cons_self) ha hmid)
      (fun b hb => hlocal b (List.mem_cons_of_mem a hb)) (hacts _ rfl) hrest

/-- **No false negatives.** Take a run of filters made by `reset`, with copies and assignments. All
filters find the keys that they have been given in every state, whatever `new` finds in the memory
that it returns, if and only if a filter is assigned to itself only while it has no keys. -/
theorem findsKeys_iff {acts : List Act} {pool : List BloomFilter}
    (hrun : exec act [] acts = some pool) (hlocal : ∀ a ∈ acts, a.Local) :
    (∀ pre, pre <+: acts → ∀ pre', pre'.map Act.call = pre.map Act.call →
      ∀ pool, exec act [] pre' = some pool → FindsKeys (keysSet pre') pool) ↔
      Careful [] acts := by
  constructor
  · intro h
    refine allSteps_iff_prefix.2 fun pre a hpre keys hkeys i fresh ha => ?_
    subst ha
    obtain ⟨post, rfl⟩ := hpre
    obtain ⟨pool₁, hpool₁, -⟩ := exec_append_eq_some.1 hrun
    obtain ⟨pool₀, hpool₀, hself⟩ := exec_concat_eq_some.1 hpool₁
    obtain ⟨f, hf, -⟩ := Option.map_eq_some_iff.1 hself
    have hlt : i < pool₀.length := (List.getElem?_eq_some_iff.1 hf).1
    have hstep : act pool₀ (.assignSelf i fun _ => 0) =
        some (pool₀.set i (f.assignSelf fun _ => 0)) := by
      rw [act, hf, Option.map_some]
    have hfinds := h (pre ++ [.assignSelf i fresh]) (List.prefix_append _ _)
      (pre ++ [.assignSelf i fun _ => 0]) (by simp [Act.call]) _
      (exec_concat_eq_some.2 ⟨pool₀, hpool₀, hstep⟩)
    rw [exec_noteKeys, Option.some.injEq] at hkeys
    have hkeys' : keysSet (pre ++ [.assignSelf i fun _ => 0]) = keys := by
      rw [keysSet, List.foldl_append, hkeys]
      rfl
    cases hks : keys[i]? with
    | none => rw [List.getD_eq_getElem?_getD, hks, Option.getD_none]
    | some ks =>
      rw [List.getD_eq_getElem?_getD, hks, Option.getD_some, List.eq_nil_iff_forall_not_mem]
      intro k hk
      have hfound := hfinds i ks _ (hkeys' ▸ hks) (List.getElem?_set_self hlt) k hk
      rw [mayContain_assignSelf_zero] at hfound
      exact Bool.false_ne_true hfound
  · intro hcareful pre hpre pre' hcall pool' hrun' i ks f hks hf k hk
    obtain ⟨post, rfl⟩ := hpre
    have hpre : Careful [] pre := (allSteps_append.1 hcareful).1
    have hlocal' : ∀ a ∈ pre', a.Local := by
      intro a ha
      have hmem : a.call ∈ pre.map Act.call := hcall ▸ List.mem_map_of_mem ha
      obtain ⟨b, hb, hab⟩ := List.mem_map.1 hmem
      rw [← local_call, ← hab, local_call]
      exact hlocal b (List.mem_append_left post hb)
    have hcareful' : Careful [] pre' := by
      rw [← careful_call, hcall, careful_call]
      exact hpre
    have hcontains := contains_exec List.Forall₂.nil hlocal' hcareful' hrun'
    obtain ⟨ks', hks', -, hfind⟩ := forall₂_getElem? hcontains hf
    obtain rfl : ks' = ks := Option.some.inj (hks'.symm.trans hks)
    exact hfind k hk

/-- A filter of nine bits with the seed `-1`, whose second hash function has the seed zero, and a
copy of it. -/
def copied : List Act :=
  [.op .create, .op (.reset 0 9 0xffffffff), .op (.set 0 (.ofString "a")),
    .op (.copy 0 fun _ => 0), .op (.set 1 (.ofString "b")), .op (.assign 0 1 fun _ => 0)]

theorem findsKeys_copied :
    ∃ pool, exec act [] copied = some pool ∧ FindsKeys (keysSet copied) pool := by
  obtain ⟨pool, hpool⟩ : ∃ pool, exec act [] copied = some pool := ⟨_, rfl⟩
  refine ⟨pool, hpool, (findsKeys_iff hpool ?_).2 ?_ copied List.prefix_rfl copied rfl pool hpool⟩
  · simp [copied, Act.Local]
  · simp [copied, Careful, AllSteps]

/-- A filter with a key that is assigned to itself. -/
def selfAssigned : List Act :=
  [.op .create, .op (.reset 0 8 0), .op (.set 0 (.ofString "a")), .assignSelf 0 fun _ => 0]

theorem findsKeys_fails_selfAssigned :
    ∃ pool, exec act [] selfAssigned = some pool ∧ ¬ FindsKeys (keysSet selfAssigned) pool := by
  refine ⟨_, rfl, fun h => ?_⟩
  have hfound := h 0 [.ofString "a"] _ rfl rfl (.ofString "a") List.mem_cons_self
  rw [mayContain_assignSelf_zero] at hfound
  exact Bool.false_ne_true hfound

end BloomFilter

end RawDish.Util
