import RawDish.BlockStore.Durability

/-!
# The index and the directory

The set of the keys, the Bloom filter and the number of used blocks are kept by `putBlock` and
rebuilt from the directory by `removeBlock`. Both are the index of a list of names (`Tallies`), up
to the order of the list: the filter does not depend on the order in which its keys are set. What
`putBlock` does not look at is whether the key is stored already. The rebuilding counts its file
once, `putBlock` counts it again.

## Main definitions

* `FileBlockStore.names` : the names that the rebuilding indexes.
* `Tallies` : the index is that of the names.
* `World.InStep` : the index is what the rebuilding would make of the directory.
* `Orderly` : the calls that are considered.

## Main results

* `inStep_iff` : the index is in step exactly in the runs that store no key twice.

## References

* `src/blockstore/fileblockstore.cc`, lines 60–169.
-/

namespace RawDish.BlockStore

open Lib Util

namespace FileBlockStore

/-- The names of the entries that are blocks. -/
def names (entries : List Dirent) : List Str := (entries.filter fun e => !skips e).map Dirent.name

end FileBlockStore

open FileBlockStore (names)

/-- The index of the store is the one of the blocks `ks`. -/
structure Tallies (s : FileBlockStore) (ks : List Str) : Prop where
  blockset : ∀ k, k ∈ s.blockset ↔ k ∈ ks
  filter : s.filter = ks.foldl BloomFilter.set .create
  used : s.usedBlocks = UInt32.ofNat ks.length

namespace Tallies

variable {s t : FileBlockStore} {ks ks' : List Str}

theorem perm (h : Tallies s ks) (hperm : ks.Perm ks') : Tallies s ks' where
  blockset k := (h.blockset k).trans hperm.mem_iff
  filter := h.filter.trans
    (BloomFilter.foldl_set_congr BloomFilter.valid_create.allocated fun _ => hperm.mem_iff)
  used := by rw [h.used, hperm.length_eq]

/-- The index is determined by the blocks. -/
theorem unique (hs : Tallies s ks) (ht : Tallies t ks) :
    t.blockset = s.blockset ∧ t.filter = s.filter ∧ t.usedBlocks = s.usedBlocks := by
  refine ⟨Std.ExtTreeSet.ext_mem fun k => ?_, ?_, ?_⟩
  · rw [ht.blockset, hs.blockset]
  · rw [ht.filter, hs.filter]
  · rw [ht.used, hs.used]

/-- One more block. -/
theorem put (h : Tallies s ks) (key : Str) (free : UInt32) :
    Tallies { s with
      freeBlocks := free
      usedBlocks := s.usedBlocks + 1
      filter := s.filter.set key
      blockset := s.blockset.insert key } (ks ++ [key]) where
  blockset k := by
    rw [Std.ExtTreeSet.mem_insert, Std.compare_eq_iff_eq, h.blockset, List.mem_append,
      List.mem_singleton, or_comm, eq_comm]
  filter := by rw [List.foldl_append, ← h.filter]; rfl
  used := by
    rw [h.used, List.length_append, List.length_singleton, UInt32.ofNat_add]
    rfl

/-- The number of keys. -/
theorem size_eq (h : Tallies s ks) (hks : ks.Nodup) : s.blockset.size = ks.length := by
  have hnodup : s.blockset.toList.Nodup :=
    Std.ExtTreeSet.distinct_toList.imp fun hne heq => hne (Std.compare_eq_iff_eq.2 heq)
  have hperm : s.blockset.toList.Perm ks := by
    rw [List.perm_ext_iff_of_nodup hnodup hks]
    intro k
    rw [Std.ExtTreeSet.mem_toList, h.blockset]
  rw [← Std.ExtTreeSet.length_toList, hperm.length_eq]

end Tallies

namespace FileBlockStore

theorem tallies_foldl_index {s : FileBlockStore} {ks : List Str} (h : Tallies s ks)
    (entries : List Dirent) : Tallies (entries.foldl index s) (ks ++ names entries) := by
  induction entries generalizing s ks with
  | nil => simpa [names] using h
  | cons e entries ih =>
    rw [List.foldl_cons, index]
    split_ifs with hskip
    · simpa [names, hskip] using ih h
    · have hcons : names (e :: entries) = e.name :: names entries := by
        simp [names, hskip]
      rw [hcons, List.append_cons]
      exact ih (h.put e.name s.freeBlocks)

/-- The rebuilt index. -/
theorem tallies_regenerate (s : FileBlockStore) (scan : Scan) :
    Tallies (s.regenerateBloomFilterAndBlockSet scan) (names (scan.listing.getD [])) := by
  have hempty : ∀ t : FileBlockStore, t.blockset = ∅ → t.filter = .create → t.usedBlocks = 0 →
      Tallies t [] := fun t hset hfilter hused => ⟨by simp [hset], hfilter, hused⟩
  rw [regenerateBloomFilterAndBlockSet]
  cases scan.listing with
  | none => exact hempty _ rfl rfl rfl
  | some entries => exact tallies_foldl_index (hempty _ rfl rfl rfl) entries

theorem names_perm {entries entries' : List Dirent} (h : entries.Perm entries') :
    (names entries).Perm (names entries') := (h.filter _).map _

/-- The names in a directory that are indexed are those of the regular files that are not hidden. -/
theorem mem_names {fs : FileSystem} {d : Path} {k : Str} :
    k ∈ names (fs.entries d) ↔
      (∃ bytes, fs.node (d ++ [k]) = some (.reg bytes)) ∧ k.head? ≠ some FileSystem.dot := by
  obtain ⟨rest, hentries, -, hmem⟩ := fs.entries_eq d
  have hiff : k ∈ names (fs.entries d) ↔ ⟨k, .reg⟩ ∈ rest ∧ k.head? ≠ some FileSystem.dot := by
    rw [hentries, names, List.mem_map]
    constructor
    · rintro ⟨⟨name, type⟩, he, rfl⟩
      simp only [skips, List.mem_filter, List.mem_cons, Bool.not_eq_eq_eq_not, Bool.not_true,
        Bool.or_eq_false_iff, decide_eq_false_iff_not, ne_eq, not_not] at he
      obtain ⟨hin, hdot, rfl⟩ := he
      refine ⟨?_, hdot⟩
      simpa using hin
    · rintro ⟨hin, hdot⟩
      refine ⟨⟨k, .reg⟩, List.mem_filter.2 ⟨by simp [hin], ?_⟩, rfl⟩
      simp [skips, hdot]
  rw [hiff, hmem]

theorem nodup_names (fs : FileSystem) (d : Path) : (names (fs.entries d)).Nodup := by
  obtain ⟨rest, hentries, hpair, -⟩ := fs.entries_eq d
  have hskip : names (fs.entries d) = names rest := by
    rw [hentries]
    simp [names, skips]
  rw [hskip, names, List.Nodup, List.pairwise_map]
  exact hpair.sublist List.filter_sublist

/-- The names after a file was written that is not hidden. -/
theorem names_put (fs : FileSystem) (d : Path) {key : Str}
    (hdot : key.head? ≠ some FileSystem.dot) (bytes : List UInt8) :
    (key ∉ names (fs.entries d) →
      (names ((fs.put (d ++ [key]) bytes).entries d)).Perm (names (fs.entries d) ++ [key])) ∧
    (key ∈ names (fs.entries d) →
      (names ((fs.put (d ++ [key]) bytes).entries d)).Perm (names (fs.entries d))) := by
  have hmem : ∀ k, k ∈ names ((fs.put (d ++ [key]) bytes).entries d) ↔
      k = key ∨ k ∈ names (fs.entries d) := by
    intro k
    rw [mem_names, mem_names, FileSystem.node_put (by simp)]
    by_cases hk : k = key
    · subst hk
      simp [hdot]
    · have hne : d ++ [key] ≠ d ++ [k] := fun heq =>
        hk (List.singleton_inj.1 (List.append_cancel_left heq)).symm
      simp [hk, hne]
  refine ⟨fun hnew => ?_, fun hold => ?_⟩
  · rw [List.perm_ext_iff_of_nodup (nodup_names _ d)
      (List.Nodup.append (nodup_names fs d) (List.nodup_singleton key) (by simpa using hnew))]
    intro k
    rw [hmem, List.mem_append, List.mem_singleton, or_comm]
  · rw [List.perm_ext_iff_of_nodup (nodup_names _ d) (nodup_names fs d)]
    intro k
    rw [hmem]
    exact or_iff_right_of_imp fun hk => hk ▸ hold

end FileBlockStore

/-! ### Runs -/

/-- The index is what the rebuilding would make of the directory, in whatever order it is listed,
and the number of used blocks, an unsigned number of 32 bits, is that of the keys. -/
structure World.InStep (w : World) : Prop where
  rebuilt : ∀ scan, Lists w.fs w.store.path scan.listing →
    (w.store.regenerateBloomFilterAndBlockSet scan).blockset = w.store.blockset ∧
      (w.store.regenerateBloomFilterAndBlockSet scan).filter = w.store.filter ∧
      (w.store.regenerateBloomFilterAndBlockSet scan).usedBlocks = w.store.usedBlocks
  used : w.store.usedBlocks = UInt32.ofNat w.store.blockset.size

/-- A legal name of a file that is not hidden. -/
def VisibleName (key : Str) : Prop := FlatName key ∧ key.head? ≠ some FileSystem.dot

/-- A `putBlock` that succeeds, or a `removeBlock`, under a visible name, with full listings. -/
def Orderly (w : World) : Call → Prop
  | .put key data a => VisibleName key ∧ (w.store.putBlock w.fs key data a).2 = true
  | .remove key unlinks scan => VisibleName key ∧ Listed w (.remove key unlinks scan)
  | _ => False

/-- The call stores no key that is in the set of keys. -/
def PutsNew (w : World) : Call → Prop
  | .put key _ _ => key ∉ w.store.blockset
  | _ => True

section Directory

variable {w w' : World} {d : Path} (hd : w.fs.resolve w.store.path.cStr = some d)
  (hdir : w.fs.IsDir d)

include hd hdir

theorem World.inStep_iff_tallies :
    w.InStep ↔ Tallies w.store (names (w.fs.entries d)) := by
  constructor
  · intro h
    have hlists : Lists w.fs w.store.path (some (w.fs.entries d)) :=
      ⟨d, hd, hdir, _, rfl, List.Perm.refl _⟩
    obtain ⟨hset, hfilter, hused⟩ := h.rebuilt ⟨none, some (w.fs.entries d)⟩ hlists
    have htallies := w.store.tallies_regenerate ⟨none, some (w.fs.entries d)⟩
    refine ⟨fun k => ?_, ?_, ?_⟩
    · rw [← hset]
      exact htallies.blockset k
    · rw [← hfilter]
      exact htallies.filter
    · rw [← hused]
      exact htallies.used
  · intro h
    refine ⟨fun scan hlists => ?_, ?_⟩
    · obtain ⟨d', hd', -, entries, hentries, hperm⟩ := hlists
      obtain rfl : d = d' := Option.some.inj (hd.symm.trans hd')
      have htallies := w.store.tallies_regenerate scan
      rw [hentries] at htallies
      exact h.unique (htallies.perm (FileBlockStore.names_perm hperm))
    · rw [h.size_eq (FileBlockStore.nodup_names w.fs d)]
      exact h.used

/-- What a `putBlock` that succeeds does. -/
theorem putBlock_in_directory {key : Str} (hkey : FlatName key) {data : List UInt8} {a : PutAnswers}
    (hok : (w.store.putBlock w.fs key data a).2 = true) :
    ∃ bytes, w.store.putBlock w.fs key data a = (({ w.store with
      freeBlocks := w.store.freeBlocks - 1
      usedBlocks := w.store.usedBlocks + 1
      filter := w.store.filter.set key
      blockset := w.store.blockset.insert key }, w.fs.put (d ++ [key]) bytes), true) := by
  rcases w.store.putBlock_cases w.fs key data a with hput | ⟨fd, bytes, hfd, hfile, hput | hput⟩
  · rw [hput] at hok
    exact absurd hok Bool.false_ne_true
  · rw [hput] at hok
    exact absurd hok Bool.false_ne_true
  · refine ⟨bytes, ?_⟩
    rcases resolve_fileName hkey hd hdir with hname | hall
    · obtain rfl : d ++ [key] = fd := Option.some.inj (hname.symm.trans hfd)
      exact hput
    · rw [hall, hd, Option.some.injEq] at hfd
      exact absurd (hfd ▸ hdir) hfile

/-- The directory stays where it is. -/
theorem directory_step {call : Call} (h : step w call = some w') :
    w'.fs.resolve w'.store.path.cStr = some d ∧ w'.fs.IsDir d := by
  obtain ⟨e, heffect, -, hpath, -⟩ := step_effect h
  rw [hpath, heffect.sameDirs.resolve]
  exact ⟨hd, (heffect.sameDirs.2 d).2 hdir⟩

/-- A call of the run keeps the index in step exactly when it stores no key twice. -/
theorem inStep_step_iff {call : Call} (hin : w.InStep) (hcall : Orderly w call)
    (h : step w call = some w') : w'.InStep ↔ PutsNew w call := by
  obtain ⟨hd', hdir'⟩ := directory_step hd hdir h
  have htallies := (World.inStep_iff_tallies hd hdir).1 hin
  rw [World.inStep_iff_tallies hd' hdir']
  cases call with
  | put key data a =>
    obtain ⟨⟨hflat, hdot⟩, hok⟩ := hcall
    obtain ⟨bytes, hput⟩ := putBlock_in_directory hd hdir hflat hok
    simp only [step, hput, Option.some.injEq] at h
    subst h
    obtain ⟨hnew, hold⟩ := FileBlockStore.names_put w.fs d hdot bytes
    rw [PutsNew, htallies.blockset]
    constructor
    · intro h' hmem
      -- The file is counted once more, and the names are what they were.
      have hused : w.store.usedBlocks + 1 = w.store.usedBlocks := by
        refine h'.used.trans ?_
        rw [(hold hmem).length_eq, htallies.used]
      simp at hused
    · intro hmem
      exact (htallies.put key _).perm (hnew hmem).symm
  | remove key unlinks scan =>
    refine iff_of_true ?_ trivial
    rw [step, FileBlockStore.removeBlock] at h
    cases hun : (if unlinks then w.fs.unlink (w.store.fileName key) else none) with
    | none =>
      simp only [hun, Option.some.injEq] at h
      subst h
      exact htallies
    | some fs =>
      simp only [hun, Option.some.injEq] at h
      subst h
      split_ifs at hun with htrue
      obtain ⟨d', hd₁, -, entries, hentries, hperm⟩ := hcall.2 htrue fs hun
      rw [(FileBlockStore.config_regenerate w.store scan).1] at hd'
      obtain rfl : d = d' := Option.some.inj (hd'.symm.trans hd₁)
      have hrebuilt := w.store.tallies_regenerate scan
      rw [hentries] at hrebuilt
      exact hrebuilt.perm (FileBlockStore.names_perm hperm)
  | get key a => exact hcall.elim
  | next listing => exact hcall.elim

end Directory

/-- A store is constructed in step. -/
theorem inStep_start {path : Str} {scan : Scan} {fs : FileSystem}
    (hlists : Lists fs path scan.listing) (blocksize : Int32) :
    (World.start path blocksize scan fs).InStep ∧
      ∃ d, (World.start path blocksize scan fs).fs.resolve
        (World.start path blocksize scan fs).store.path.cStr = some d ∧
          (World.start path blocksize scan fs).fs.IsDir d := by
  obtain ⟨d, hd, hdir, entries, hentries, hperm⟩ := hlists
  have hpath : (World.start path blocksize scan fs).store.path = path :=
    (FileBlockStore.config_regenerate _ scan).1
  have hd' : (World.start path blocksize scan fs).fs.resolve
      (World.start path blocksize scan fs).store.path.cStr = some d := by
    rw [hpath]
    exact hd
  refine ⟨(World.inStep_iff_tallies hd' hdir).2 ?_, d, hd', hdir⟩
  have hrebuilt := FileBlockStore.tallies_regenerate ⟨none, blocksize, path, .create, ∅, 0, 0⟩ scan
  rw [hentries] at hrebuilt
  exact hrebuilt.perm (FileBlockStore.names_perm hperm)

/-- **The index against the directory.** Take a run of `putBlock` calls that succeed and
`removeBlock` calls, on visible names and with full listings of the directory. The index is what the
rebuilding would make of the directory after every call if and only if every key that is stored is
one that is not in the set of keys at the time. -/
theorem inStep_iff {path : Str} {blocksize : Int32} {scan : Scan} {fs : FileSystem}
    (hlists : Lists fs path scan.listing) {calls : List Call}
    (hcalls : AllSteps step Orderly (.start path blocksize scan fs) calls) :
    (∀ pre w, pre <+: calls → exec step (.start path blocksize scan fs) pre = some w → w.InStep) ↔
      AllSteps step PutsNew (.start path blocksize scan fs) calls := by
  obtain ⟨hstart, d, hd, hdir⟩ := inStep_start hlists blocksize
  have hdirs : ∀ {pre : List Call} {w : World},
      exec step (.start path blocksize scan fs) pre = some w →
        w.fs.resolve w.store.path.cStr = some d ∧ w.fs.IsDir d := fun hw =>
    exec_induction (fun _ w => w.fs.resolve w.store.path.cStr = some d ∧ w.fs.IsDir d) ⟨hd, hdir⟩
      (fun _ _ _ _ _ ht hstep => directory_step ht.1 ht.2 hstep) hw
  constructor
  · intro h
    refine allSteps_iff_prefix.2 fun pre call hpre w hw => ?_
    have hcall := allSteps_iff_prefix.1 hcalls pre call hpre w hw
    have hin := h pre w ((List.prefix_append _ _).trans hpre) hw
    cases hstep : step w call with
    | some w' =>
      have hin' := h _ w' hpre (exec_concat_eq_some.2 ⟨w, hw, hstep⟩)
      exact (inStep_step_iff (hdirs hw).1 (hdirs hw).2 hin hcall hstep).1 hin'
    | none =>
      cases call with
      | put key data a => simp [step] at hstep
      | get | remove | next => trivial
  · rintro hnew pre w ⟨post, rfl⟩ hw
    refine exec_invariant (fun _ w => w.InStep) hstart ?_
      ((allSteps_append.1 hcalls).1.and (allSteps_append.1 hnew).1) hw
    rintro as t call u ht hin ⟨hcall, hput⟩ hstep
    exact (inStep_step_iff (hdirs ht).1 (hdirs ht).2 hin hcall hstep).2 hput

instance (key : Str) : Decidable (VisibleName key) := inferInstanceAs (Decidable (_ ∧ _))

instance (w : World) : (call : Call) → Decidable (Orderly w call)
  | .put key data a => inferInstanceAs
      (Decidable (VisibleName key ∧ (w.store.putBlock w.fs key data a).2 = true))
  | .remove key unlinks scan => inferInstanceAs
      (Decidable (VisibleName key ∧ Listed w (.remove key unlinks scan)))
  | .get _ _ => isFalse id
  | .next _ => isFalse id

instance (w : World) : (call : Call) → Decidable (PutsNew w call)
  | .put key _ _ => inferInstanceAs (Decidable (key ∉ w.store.blockset))
  | .get _ _ => isTrue trivial
  | .remove _ _ _ => isTrue trivial
  | .next _ => isTrue trivial

/-- A store of blocks of two bytes on an empty directory, which is listed in full. -/
def FileBlockStore.listedStore : World :=
  .start (.ofString "/d") 2 ⟨some (8, 2), some [⟨[FileSystem.dot], .dir⟩,
    ⟨[FileSystem.dot, FileSystem.dot], .dir⟩]⟩ (FileSystem.empty.mkdir [Str.ofString "d"])

theorem inStep_putPutRemove :
    ∃ w, exec step FileBlockStore.listedStore (putPutRemove (.ofString "a")) = some w ∧
      w.InStep := by
  obtain ⟨w, hw⟩ : ∃ w, exec step FileBlockStore.listedStore (putPutRemove (.ofString "a")) =
    some w := ⟨_, rfl⟩
  refine ⟨w, hw, (@inStep_iff _ 2 ⟨some (8, 2), some [⟨[FileSystem.dot], .dir⟩,
    ⟨[FileSystem.dot, FileSystem.dot], .dir⟩]⟩ _ ?_ _ ?_).2 ?_ _ w List.prefix_rfl hw⟩
  · decide +kernel
  · decide +kernel
  · decide +kernel

/-- A block is stored again under its key. -/
def putTwice : List Call :=
  [.put (.ofString "a") [1, 2] ⟨true, some 2⟩, .put (.ofString "a") [3, 4] ⟨true, some 2⟩]

/-- Two blocks are counted, and there is one file. -/
theorem inStep_fails_putTwice :
    AllSteps step Orderly FileBlockStore.listedStore putTwice ∧
      ∃ w, exec step FileBlockStore.listedStore putTwice = some w ∧ ¬ w.InStep := by
  refine ⟨by decide +kernel, _, rfl, fun h => ?_⟩
  have hused := h.used
  revert hused
  decide +kernel

end RawDish.BlockStore
