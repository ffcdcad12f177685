import RawDish.BlockStore.FileBlockStore

/-!
# The Bloom filter of a store

The Bloom filter of a store is extended by `putBlock` and rebuilt from the directory by
`removeBlock`. The two have to agree on the keys: a key that was stored is in the filter as long as
the rebuilding finds its file. It finds the files in the directory that are not hidden, and
`putBlock` stores blocks under hidden names as well; and a file can be removed under another name
than its key, such as `./key`.

The invariant of a run (`Indexed`) says where the file of a stored key is: in the directory that
the path of the store names.

## Main definitions

* `FlatName` : the key is the name of a file in the directory.
* `LastIs`, `Stored` : what the log says of a key: it was stored and not removed since.
* `Lists`, `Listed` : `opendir` and `readdir` list the whole directory.
* `KeepsVisible` : the condition on the removals.

## Main results

* `stored_mayContain` : under these conditions a stored key is in the filter.

## References

* `src/blockstore/fileblockstore.cc`, lines 60–169.
-/

namespace RawDish.BlockStore

open Lib Util

/-- A legal name of a file in a directory. -/
structure FlatName (key : Str) : Prop where
  ne_nil : key ≠ []
  slash_notMem : FileSystem.slash ∉ key
  zero_notMem : 0 ∉ key
  ne_dot : key ≠ [FileSystem.dot]
  ne_dotdot : key ≠ [FileSystem.dot, FileSystem.dot]

instance (key : Str) : Decidable (FlatName key) :=
  decidable_of_iff (key ≠ [] ∧ FileSystem.slash ∉ key ∧ 0 ∉ key ∧ key ≠ [FileSystem.dot] ∧
      key ≠ [FileSystem.dot, FileSystem.dot])
    ⟨fun ⟨h₁, h₂, h₃, h₄, h₅⟩ => ⟨h₁, h₂, h₃, h₄, h₅⟩,
      fun ⟨h₁, h₂, h₃, h₄, h₅⟩ => ⟨h₁, h₂, h₃, h₄, h₅⟩⟩

/-- The event `e` is in the log, and no event after it is one of `p`. -/
def LastIs (p : Event → Prop) (e : Event) (log : List Event) : Prop :=
  ∃ pre post, log = pre ++ e :: post ∧ ∀ e' ∈ post, ¬ p e'

theorem not_lastIs_nil (p : Event → Prop) (e : Event) : ¬ LastIs p e [] := by
  rintro ⟨pre, post, h, -⟩
  simp at h

theorem lastIs_concat {p : Event → Prop} {e e' : Event} {log : List Event} :
    LastIs p e (log ++ [e']) ↔ e' = e ∨ (LastIs p e log ∧ ¬ p e') := by
  constructor
  · rintro ⟨pre, post, h, hpost⟩
    induction post using List.reverseRecOn with
    | nil =>
      obtain ⟨-, he⟩ := List.append_inj' h rfl
      exact Or.inl (List.head_eq_of_cons_eq he)
    | append_singleton post e₀ _ =>
      rw [← List.cons_append, ← List.append_assoc] at h
      obtain ⟨hlog, he⟩ := List.append_inj' h rfl
      obtain rfl : e' = e₀ := List.head_eq_of_cons_eq he
      refine Or.inr ⟨⟨pre, post, hlog, fun x hx => hpost x (List.mem_append_left _ hx)⟩, ?_⟩
      exact hpost e' (List.mem_append_right _ (List.mem_singleton_self e'))
  · rintro (rfl | ⟨⟨pre, post, rfl, hpost⟩, he⟩)
    · exact ⟨log, [], rfl, by simp⟩
    · refine ⟨pre, post ++ [e'], by simp, fun x hx => ?_⟩
      rcases List.mem_append.1 hx with hx | hx
      · exact hpost x hx
      · exact List.mem_singleton.1 hx ▸ he

/-- The key was stored, and it was not removed since. -/
def Stored (key : Str) (log : List Event) : Prop :=
  ∃ pre data post, log = pre ++ .put key data true :: post ∧ .remove key true ∉ post

theorem not_stored_nil (key : Str) : ¬ Stored key [] := by
  rintro ⟨pre, data, post, h, -⟩
  simp at h

theorem stored_iff_lastIs {key : Str} {log : List Event} :
    Stored key log ↔ ∃ data, LastIs (· = .remove key true) (.put key data true) log := by
  constructor
  · rintro ⟨pre, data, post, hlog, hpost⟩
    refine ⟨data, pre, post, hlog, fun e he heq => ?_⟩
    exact hpost (heq ▸ he)
  · rintro ⟨data, pre, post, hlog, hpost⟩
    exact ⟨pre, data, post, hlog, fun he => hpost _ he rfl⟩

theorem stored_concat {key : Str} {log : List Event} {e : Event} :
    Stored key (log ++ [e]) ↔
      (∃ data, e = .put key data true) ∨ (Stored key log ∧ e ≠ .remove key true) := by
  simp only [stored_iff_lastIs, lastIs_concat, exists_or, exists_and_right, ne_eq]

private def storedBack (key : Str) : List Event → Bool
  | [] => false
  | .put k _ true :: log => k = key || storedBack key log
  | e :: log => e ≠ .remove key true && storedBack key log

private theorem storedBack_iff (key : Str) (log : List Event) :
    storedBack key log.reverse ↔ Stored key log := by
  induction log using List.reverseRecOn with
  | nil => simp [storedBack, not_stored_nil]
  | append_singleton log e ih =>
    rw [List.reverse_concat, stored_concat, ← ih]
    cases e with
    | put k data ok => cases ok <;> simp [storedBack]
    | get k data => simp [storedBack]
    | remove k ok => cases ok <;> simp [storedBack, and_comm]
    | next k => simp [storedBack]

instance (key : Str) (log : List Event) : Decidable (Stored key log) :=
  decidable_of_iff _ (storedBack_iff key log)

/-- `opendir` of the path succeeds and `readdir` lists the directory, in some order. -/
def Lists (fs : FileSystem) (path : Str) (listing : Option (List Dirent)) : Prop :=
  ∃ d ∈ fs.resolve path.cStr, fs.IsDir d ∧ ∃ entries ∈ listing, entries.Perm (fs.entries d)

instance (fs : FileSystem) (path : Str) (listing : Option (List Dirent)) :
    Decidable (Lists fs path listing) :=
  inferInstanceAs (Decidable (∃ d ∈ fs.resolve path.cStr, _))

/-- Every listing of the directory in the call is a full one. The one of a removal is made after
the file is gone. -/
def Listed (w : World) : Call → Prop
  | .remove key unlinks scan =>
    unlinks → ∀ fs ∈ w.fs.unlink (w.store.fileName key), Lists fs w.store.path scan.listing
  | .next listing => w.store.dir = none → Lists w.fs w.store.path listing
  | _ => True

/-- A call that removes a file under another key, while `key` is stored, does not remove the file of
`key`, and that file is not hidden. -/
def KeepsVisible (key : Str) (w : World) : Call → Prop
  | .remove k unlinks _ => k ≠ key → unlinks → (w.fs.unlink (w.store.fileName k)).isSome →
      Stored key w.log → key.head? ≠ some FileSystem.dot ∧
        w.fs.resolve (w.store.fileName k) ≠ w.fs.resolve (w.store.fileName key)
  | _ => True

instance (w : World) : (call : Call) → Decidable (Listed w call)
  | .put _ _ _ => isTrue trivial
  | .get _ _ => isTrue trivial
  | .remove key unlinks scan => inferInstanceAs (Decidable (unlinks →
      ∀ fs ∈ w.fs.unlink (w.store.fileName key), Lists fs w.store.path scan.listing))
  | .next listing =>
    inferInstanceAs (Decidable (w.store.dir = none → Lists w.fs w.store.path listing))

instance (key : Str) (w : World) : (call : Call) → Decidable (KeepsVisible key w call)
  | .put _ _ _ => isTrue trivial
  | .get _ _ => isTrue trivial
  | .remove k unlinks _ => inferInstanceAs (Decidable (k ≠ key → unlinks →
      (w.fs.unlink (w.store.fileName k)).isSome → Stored key w.log →
        key.head? ≠ some FileSystem.dot ∧
          w.fs.resolve (w.store.fileName k) ≠ w.fs.resolve (w.store.fileName key)))
  | .next _ => isTrue trivial

/-! ### The names of the files -/

theorem cStr_eq_self {s : Str} (h : 0 ∉ s) : s.cStr = s := by
  rw [Str.cStr, List.takeWhile_eq_self_iff]
  exact fun c hc => decide_eq_true fun heq => h (heq ▸ hc)

theorem cStr_append {s : Str} (h : 0 ∉ s) (t : Str) : (s ++ t).cStr = s ++ t.cStr := by
  rw [Str.cStr, Str.cStr, List.takeWhile_append_of_pos]
  exact fun c hc => decide_eq_true fun heq => h (heq ▸ hc)

theorem cStr_append_of_mem {s : Str} (h : 0 ∈ s) (t : Str) : (s ++ t).cStr = s.cStr := by
  obtain ⟨pre, post, rfl, hpre⟩ := List.eq_append_cons_of_mem h
  have htake : ∀ rest : Str, Str.cStr (pre ++ 0 :: rest) = pre := by
    intro rest
    have hcut : (pre ++ 0 :: rest).takeWhile (· ≠ 0) = pre ++ (0 :: rest).takeWhile (· ≠ 0) :=
      List.takeWhile_append_of_pos fun c hc => decide_eq_true fun heq => hpre (heq ▸ hc)
    rw [Str.cStr, hcut]
    simp
  rw [List.append_assoc, List.cons_append, htake, htake]

/-- The separator that the code puts between the path of the store and the key. -/
theorem getFullpath_eq (path key : Str) :
    ∃ sep, getFullpath path key = path ++ sep ++ key ∧
      (sep = [FileSystem.slash] ∨ (sep = [] ∧ ∃ a, path = a ++ [FileSystem.slash])) := by
  rw [getFullpath]
  split_ifs with h
  · exact ⟨[FileSystem.slash], by simp, Or.inl rfl⟩
  · exact ⟨[], by simp, Or.inr ⟨rfl, List.getLast?_eq_some_iff.1 (not_not.1 h)⟩⟩

/-- With a zero byte in the path of the store, there is no more to the file name than to the name of
the directory. -/
theorem cStr_getFullpath_of_mem {path : Str} (h : 0 ∈ path) (key : Str) :
    (getFullpath path key).cStr = path.cStr := by
  obtain ⟨sep, hfull, -⟩ := getFullpath_eq path key
  rw [hfull, List.append_assoc, cStr_append_of_mem h]

/-- Without one, the file name is the path of the store, a separator where it is needed, and the
key. -/
theorem cStr_getFullpath {path : Str} (h : 0 ∉ path) (key : Str) :
    ∃ sep, (getFullpath path key).cStr = path ++ sep ++ key.cStr ∧
      (sep = [FileSystem.slash] ∨ (sep = [] ∧ ∃ a, path = a ++ [FileSystem.slash])) := by
  obtain ⟨sep, hfull, hsep⟩ := getFullpath_eq path key
  refine ⟨sep, ?_, hsep⟩
  rw [hfull, cStr_append]
  rcases hsep with rfl | ⟨rfl, -⟩ <;> simp [h, FileSystem.slash]

theorem FlatName.enter {key : Str} (hkey : FlatName key) (d : Path) :
    FileSystem.enter d key = d ++ [key] := by
  simp [FileSystem.enter, hkey.ne_nil, hkey.ne_dot, hkey.ne_dotdot]

/-- The file of a key is in the directory of the store, or all keys have the file name of the
directory. -/
theorem resolve_fileName {s : FileBlockStore} {fs : FileSystem} {key : Str} (hkey : FlatName key)
    {d : Path} (hs : fs.resolve s.path.cStr = some d) (hd : fs.IsDir d) :
    fs.resolve (s.fileName key) = some (d ++ [key]) ∨ ∀ k, s.fileName k = s.path.cStr := by
  by_cases hnul : 0 ∈ s.path
  · exact Or.inr (cStr_getFullpath_of_mem hnul)
  · left
    rw [cStr_eq_self hnul] at hs
    obtain ⟨sep, hname, hsep⟩ := cStr_getFullpath hnul key
    rw [FileBlockStore.fileName, hname, cStr_eq_self hkey.zero_notMem]
    rcases hsep with rfl | ⟨rfl, a, ha⟩
    · rw [List.append_assoc, List.singleton_append,
        FileSystem.resolve_child hs hd hkey.slash_notMem, hkey.enter]
    · rw [ha] at hs
      rw [List.append_nil, ha, List.append_assoc, List.singleton_append,
        FileSystem.resolve_child_of_slash hs hkey.slash_notMem, hkey.enter]

/-! ### The filter -/

namespace FileBlockStore

theorem filter_foldl_index (s : FileBlockStore) (entries : List Dirent) :
    (entries.foldl index s).filter =
      ((entries.filter fun e => !skips e).map Dirent.name).foldl BloomFilter.set s.filter := by
  induction entries generalizing s with
  | nil => rfl
  | cons e entries ih =>
    rw [List.foldl_cons, ih]
    cases hskip : skips e with
    | true => simp [index, hskip]
    | false => simp [index, hskip]

/-- The rebuilt filter has the names of the entries that are not skipped. -/
theorem filter_regenerate (s : FileBlockStore) (scan : Scan) :
    (s.regenerateBloomFilterAndBlockSet scan).filter =
      (((scan.listing.getD []).filter fun e => !skips e).map Dirent.name).foldl BloomFilter.set
        .create := by
  rw [regenerateBloomFilterAndBlockSet]
  cases scan.listing with
  | none => rfl
  | some entries => exact filter_foldl_index _ entries

theorem valid_regenerate (s : FileBlockStore) (scan : Scan) :
    (s.regenerateBloomFilterAndBlockSet scan).filter.Valid := by
  rw [filter_regenerate]
  exact BloomFilter.valid_create.foldl_set _

theorem mayContain_regenerate (s : FileBlockStore) {scan : Scan} {entries : List Dirent}
    (hlisting : scan.listing = some entries) {key : Str} (hkey : ⟨key, .reg⟩ ∈ entries)
    (hdot : key.head? ≠ some FileSystem.dot) :
    (s.regenerateBloomFilterAndBlockSet scan).filter.mayContain key := by
  rw [filter_regenerate, hlisting]
  refine BloomFilter.mayContain_foldl_set BloomFilter.valid_create (Or.inr ?_)
  refine List.mem_map.2 ⟨⟨key, .reg⟩, List.mem_filter.2 ⟨hkey, ?_⟩, rfl⟩
  simp [skips, hdot]

private theorem config_foldl_index (s : FileBlockStore) (entries : List Dirent) :
    (entries.foldl index s).path = s.path ∧ (entries.foldl index s).blocksize = s.blocksize := by
  induction entries generalizing s with
  | nil => exact ⟨rfl, rfl⟩
  | cons e entries ih =>
    have hindex : (index s e).path = s.path ∧ (index s e).blocksize = s.blocksize := by
      rw [index]
      split_ifs <;> exact ⟨rfl, rfl⟩
    rw [List.foldl_cons, (ih _).1, (ih _).2]
    exact hindex

/-- The rebuilding is about the index only. -/
theorem config_regenerate (s : FileBlockStore) (scan : Scan) :
    (s.regenerateBloomFilterAndBlockSet scan).path = s.path ∧
      (s.regenerateBloomFilterAndBlockSet scan).blocksize = s.blocksize := by
  rw [regenerateBloomFilterAndBlockSet]
  cases scan.listing with
  | none => exact ⟨rfl, rfl⟩
  | some entries => exact config_foldl_index _ entries

end FileBlockStore

/-! ### Runs -/

/-- A stored key is in the filter, and its file is in the directory of the store. -/
structure Indexed (key : Str) (w : World) : Prop where
  valid : w.store.filter.Valid
  mayContain : Stored key w.log → w.store.filter.mayContain key
  file : Stored key w.log → ∀ d, w.fs.resolve w.store.path.cStr = some d → w.fs.IsDir d →
    ∃ bytes, w.fs.node (d ++ [key]) = some (.reg bytes)

namespace Indexed

variable {key : Str} {w : World}

theorem start (key path : Str) (blocksize : Int32) (scan : Scan) (fs : FileSystem) :
    Indexed key (.start path blocksize scan fs) where
  valid := FileBlockStore.valid_regenerate _ scan
  mayContain h := absurd h (not_stored_nil key)
  file h := absurd h (not_stored_nil key)

/-- A call that changes neither the filter nor a file. -/
theorem of_unchanged (h : Indexed key w) {s : FileBlockStore} (hfilter : s.filter = w.store.filter)
    (hpath : s.path = w.store.path) {e : Event} (he : ∀ data, e ≠ .put key data true) :
    Indexed key ⟨s, w.fs, w.log ++ [e]⟩ := by
  have hstored : Stored key (w.log ++ [e]) → Stored key w.log := fun hs =>
    (stored_concat.1 hs).elim (fun ⟨data, hdata⟩ => absurd hdata (he data)) And.left
  refine ⟨hfilter ▸ h.valid, fun hs => hfilter ▸ h.mayContain (hstored hs), fun hs d hd => ?_⟩
  rw [hpath] at hd
  exact h.file (hstored hs) d hd

/-- Writing a file keeps the files of the keys, whatever the name of the file. -/
theorem file_put (h : Indexed key w) (hs : Stored key w.log) {fd : Path} (hfd : ¬ w.fs.IsDir fd)
    (bytes : List UInt8) {d : Path} (hd : (w.fs.put fd bytes).resolve w.store.path.cStr = some d)
    (hdir : (w.fs.put fd bytes).IsDir d) :
    ∃ bytes', (w.fs.put fd bytes).node (d ++ [key]) = some (.reg bytes') := by
  have hsame := FileSystem.sameDirs_put hfd bytes
  rw [hsame.resolve] at hd
  obtain ⟨bytes', hnode⟩ := h.file hs d hd ((hsame.2 d).1 hdir)
  rw [FileSystem.node_put (FileSystem.ne_nil_of_not_isDir hfd)]
  split_ifs
  · exact ⟨bytes, rfl⟩
  · exact ⟨bytes', hnode⟩

/-- The file of a key that was stored just now. -/
theorem file_stored (hkey : FlatName key) {fd : Path}
    (hname : w.fs.resolve (w.store.fileName key) = some fd) (hfd : ¬ w.fs.IsDir fd)
    (bytes : List UInt8) {d : Path} (hd : (w.fs.put fd bytes).resolve w.store.path.cStr = some d)
    (hdir : (w.fs.put fd bytes).IsDir d) :
    (w.fs.put fd bytes).node (d ++ [key]) = some (.reg bytes) := by
  have hsame := FileSystem.sameDirs_put hfd bytes
  rw [hsame.resolve] at hd
  have hdir' : w.fs.IsDir d := (hsame.2 d).1 hdir
  rcases resolve_fileName hkey hd hdir' with hfile | hall
  · obtain rfl : fd = d ++ [key] := Option.some.inj (hname.symm.trans hfile)
    rw [FileSystem.node_put (FileSystem.ne_nil_of_not_isDir hfd), if_pos rfl]
  · rw [hall, hd, Option.some.injEq] at hname
    exact absurd (hname ▸ hdir') hfd

/-- The removal of another file keeps the file of a key. -/
theorem file_erase (h : Indexed key w) (hkey : FlatName key) (hs : Stored key w.log) {k : Str}
    {p : Path} (hp : w.fs.resolve (w.store.fileName k) = some p)
    (hdiff : w.fs.resolve (w.store.fileName k) ≠ w.fs.resolve (w.store.fileName key)) {d : Path}
    (hd : w.fs.resolve w.store.path.cStr = some d) (hdir : w.fs.IsDir d) :
    ∃ bytes, (w.fs.erase p).node (d ++ [key]) = some (.reg bytes) := by
  obtain ⟨bytes, hbytes⟩ := h.file hs d hd hdir
  refine ⟨bytes, ?_⟩
  rw [FileSystem.node_erase, hbytes]
  rintro rfl
  rcases resolve_fileName hkey hd hdir with hfile | hall
  · exact hdiff (hp.trans hfile.symm)
  · exact hdiff (by rw [hall, hall])

theorem put (h : Indexed key w) (hkey : FlatName key) (k : Str) (data : List UInt8)
    (a : PutAnswers) :
    Indexed key ⟨(w.store.putBlock w.fs k data a).1.1, (w.store.putBlock w.fs k data a).1.2,
      w.log ++ [.put k data (w.store.putBlock w.fs k data a).2]⟩ := by
  rcases w.store.putBlock_cases w.fs k data a with hput | ⟨fd, bytes, hname, hfd, hput | hput⟩
  · rw [hput]
    exact h.of_unchanged rfl rfl (by simp)
  · rw [hput]
    have hstored : Stored key (w.log ++ [.put k data false]) → Stored key w.log := by
      simp [stored_concat]
    exact ⟨h.valid, fun hs => h.mayContain (hstored hs), fun hs d hd hdir =>
      h.file_put (hstored hs) hfd bytes hd hdir⟩
  · rw [hput]
    refine ⟨h.valid.set k, fun hs => ?_, fun hs d hd hdir => ?_⟩
    · rcases stored_concat.1 hs with ⟨data', he⟩ | ⟨hs, -⟩
      · obtain rfl : k = key := (Event.put.inj he).1
        exact BloomFilter.mayContain_set_self h.valid k
      · exact BloomFilter.mayContain_set_of_mayContain h.valid (h.mayContain hs) k
    · rcases stored_concat.1 hs with ⟨data', he⟩ | ⟨hs, -⟩
      · obtain rfl : k = key := (Event.put.inj he).1
        exact ⟨bytes, file_stored hkey hname hfd bytes hd hdir⟩
      · exact h.file_put hs hfd bytes hd hdir

theorem remove (h : Indexed key w) (hkey : FlatName key) {k : Str} {unlinks : Bool} {scan : Scan}
    (hlist : Listed w (.remove k unlinks scan))
    (hkeep : KeepsVisible key w (.remove k unlinks scan)) :
    Indexed key ⟨(w.store.removeBlock w.fs k unlinks scan).1.1,
      (w.store.removeBlock w.fs k unlinks scan).1.2,
      w.log ++ [.remove k (w.store.removeBlock w.fs k unlinks scan).2]⟩ := by
  rw [FileBlockStore.removeBlock]
  cases hun : (if unlinks then w.fs.unlink (w.store.fileName k) else none) with
  | none => exact h.of_unchanged rfl rfl (by simp)
  | some fs =>
    split_ifs at hun with htrue
    obtain ⟨p, bytes, hp, hnode, rfl⟩ := FileSystem.unlink_eq_some.1 hun
    have hpdir : ¬ w.fs.IsDir p := by
      rw [FileSystem.IsDir, hnode]
      simp
    have hsame := FileSystem.sameDirs_erase hpdir
    -- Only the removal of another key leaves `key` stored.
    have hother : Stored key (w.log ++ [.remove k true]) → k ≠ key ∧ Stored key w.log := by
      intro hs
      rcases stored_concat.1 hs with ⟨data, he⟩ | ⟨hs, hne⟩
      · simp at he
      · exact ⟨fun heq => hne (by rw [heq]), hs⟩
    have hfile : Stored key (w.log ++ [.remove k true]) → ∀ d,
        w.fs.resolve w.store.path.cStr = some d → w.fs.IsDir d → ∃ bytes',
          (w.fs.erase p).node (d ++ [key]) = some (.reg bytes') := by
      intro hs d hd hdir
      obtain ⟨hne, hs⟩ := hother hs
      exact h.file_erase hkey hs hp (hkeep hne htrue (by rw [hun]; rfl) hs).2 hd hdir
    refine ⟨FileBlockStore.valid_regenerate _ scan, fun hs => ?_, fun hs d hd hdir => ?_⟩
    · obtain ⟨hne, hs'⟩ := hother hs
      obtain ⟨d, hd, hdir, entries, hentries, hperm⟩ := hlist htrue _ hun
      rw [hsame.resolve] at hd
      obtain ⟨bytes', hbytes⟩ := hfile hs d hd ((hsame.2 d).1 hdir)
      exact FileBlockStore.mayContain_regenerate _ hentries
        (hperm.mem_iff.2 (FileSystem.mem_entries hbytes)) (hkeep hne htrue (by rw [hun]; rfl) hs').1
    · rw [(FileBlockStore.config_regenerate _ _).1, hsame.resolve] at hd
      exact hfile hs d hd ((hsame.2 d).1 hdir)

theorem next (h : Indexed key w) {listing : Option (List Dirent)} {r : FileBlockStore × Str}
    (hr : w.store.next listing = some r) : Indexed key ⟨r.1, w.fs, w.log ++ [.next r.2]⟩ := by
  have hsame : r.1.filter = w.store.filter ∧ r.1.path = w.store.path := by
    rw [FileBlockStore.next] at hr
    split at hr
    · split at hr <;> obtain rfl := Option.some.inj hr <;> exact ⟨rfl, rfl⟩
    · simp at hr
  exact h.of_unchanged hsame.1 hsame.2 (by simp)

theorem step (h : Indexed key w) (hkey : FlatName key) {call : Call} {w' : World}
    (hlist : Listed w call) (hkeep : KeepsVisible key w call)
    (hstep : BlockStore.step w call = some w') : Indexed key w' := by
  cases call with
  | put k data a => exact Option.some.inj hstep ▸ h.put hkey k data a
  | get k a => exact Option.some.inj hstep ▸ h.of_unchanged rfl rfl (by simp)
  | remove k unlinks scan => exact Option.some.inj hstep ▸ h.remove hkey hlist hkeep
  | next listing =>
    obtain ⟨r, hr, rfl⟩ := Option.map_eq_some_iff.1 hstep
    exact h.next hr

end Indexed

/-- **Stored blocks are in the filter.** In every run of a store in which the listings of the
directory are full and no removal under another key hides the file of `key`, the Bloom filter that
the store gives out contains `key` while it is stored. -/
theorem stored_mayContain {key : Str} (hkey : FlatName key) (path : Str) (blocksize : Int32)
    (scan : Scan) (fs : FileSystem) {calls : List Call} {w : World}
    (hlist : AllSteps step Listed (.start path blocksize scan fs) calls)
    (hkeep : AllSteps step (KeepsVisible key) (.start path blocksize scan fs) calls)
    (hw : exec step (.start path blocksize scan fs) calls = some w) (hstored : Stored key w.log)
    (fresh : ℕ → UInt8) : (w.store.bloomfilter fresh).mayContain key := by
  have hindexed : Indexed key w :=
    exec_invariant (fun _ w => Indexed key w) (Indexed.start key path blocksize scan fs)
      (fun _ t call u _ ht hC hstep => ht.step hkey hC.1 hC.2 hstep) (hlist.and hkeep) hw
  rw [FileBlockStore.bloomfilter, BloomFilter.mayContain_copy hindexed.valid]
  exact hindexed.mayContain hstored

/-- Two blocks are stored in an empty directory and the second one is removed. -/
def putPutRemove (key : Str) : List Call :=
  [.put key [1, 2] ⟨true, some 2⟩, .put (.ofString "b") [3, 4] ⟨true, some 2⟩,
    .remove (.ofString "b") true ⟨some (8, 2), some [⟨key, .reg⟩, ⟨[FileSystem.dot], .dir⟩,
      ⟨[FileSystem.dot, FileSystem.dot], .dir⟩]⟩]

theorem stored_mayContain_putPutRemove :
    ∃ w, exec step FileBlockStore.emptyStore (putPutRemove (.ofString "a")) = some w ∧
      Stored (.ofString "a") w.log ∧
        ∀ fresh, (w.store.bloomfilter fresh).mayContain (.ofString "a") := by
  refine ⟨_, rfl, by decide +kernel, fun fresh => ?_⟩
  exact stored_mayContain ⟨by decide, by decide, by decide, by decide, by decide⟩ _ _ _ _
    (by decide +kernel) (by decide +kernel) (rfl : exec step FileBlockStore.emptyStore
      (putPutRemove (.ofString "a")) = some _) (by decide +kernel) fresh

/-- The file of a hidden key is not found again. -/
theorem hidden_not_mayContain :
    ¬ ∀ w, AllSteps step Listed FileBlockStore.emptyStore (putPutRemove (.ofString ".a")) →
      exec step FileBlockStore.emptyStore (putPutRemove (.ofString ".a")) = some w →
        Stored (.ofString ".a") w.log →
          ∀ fresh, (w.store.bloomfilter fresh).mayContain (.ofString ".a") := by
  intro h
  have hmay := h _ (by decide +kernel) rfl (by decide +kernel) fun _ => 0
  have hcreate : ∀ w, exec step FileBlockStore.emptyStore (putPutRemove (.ofString ".a")) = some w →
      w.store.filter = BloomFilter.create := by
    intro w hw
    cases hw
    rfl
  rw [FileBlockStore.bloomfilter, hcreate _ rfl,
    BloomFilter.mayContain_copy BloomFilter.valid_create, BloomFilter.mayContain_create] at hmay
  exact Bool.false_ne_true hmay

end RawDish.BlockStore
