import RawDish.BlockStore.FilterIndex

/-!
# The blocks of a store

A store is a map from keys to blocks. What `getBlock` returns for a key is read from the file of the
key (`World.contents`), so the law of the map is about the files: two keys that are names of files
in the directory have different files, a `putBlock` that succeeds has written the whole block, and
no other call changes the file. A `putBlock` that fails can have changed the file of its own key.

## Main definitions

* `Intact`, `Removed` : what the log says of a key.
* `World.contents` : the file of a key.
* `Durable` : the invariant of a run.

## Main results

* `step_effect` : what a call can do to the file system.
* `getBlock_run` : blocks are kept, removed blocks are gone, and keys do not interfere.

## References

* `src/blockstore/fileblockstore.cc`, lines 44–122.
-/

namespace RawDish.BlockStore

open Lib Util

/-! ### The log -/

/-- The event is an attempt to store the key. -/
def Event.puts (key : Str) : Event → Prop
  | .put k _ _ => k = key
  | _ => False

/-- The event is an attempt to store the key, or the removal of the key. -/
def Event.replaces (key : Str) : Event → Prop
  | .put k _ _ => k = key
  | .remove k ok => k = key ∧ ok
  | _ => False

/-- The last attempt to store the key succeeded, with `data`, and the key was not removed since. -/
def Intact (key : Str) (data : List UInt8) : List Event → Prop :=
  LastIs (Event.replaces key) (.put key data true)

/-- The key was removed, and there was no attempt to store it since. -/
def Removed (key : Str) : List Event → Prop := LastIs (Event.puts key) (.remove key true)

/-! ### The calls -/

/-- The key that a call is about. -/
def Call.key? : Call → Option Str
  | .put key _ _ => some key
  | .get key _ => some key
  | .remove key _ _ => some key
  | .next _ => none

/-- The file of a key. -/
def World.contents (w : World) (key : Str) : Option Node :=
  (w.fs.resolve (w.store.fileName key)).bind w.fs.node

namespace FileBlockStore

/-- What `getBlock` returns depends on the file of the key. -/
theorem getBlock_congr {w w' : World} {key : Str} (hcontents : w'.contents key = w.contents key)
    (hsize : w'.store.blocksize = w.store.blocksize) (a : GetAnswers) :
    w'.store.getBlock w'.fs key a = w.store.getBlock w.fs key a := by
  have hread : w'.fs.read (w'.store.fileName key) = w.fs.read (w.store.fileName key) := by
    rw [World.contents, World.contents] at hcontents
    rw [FileSystem.read, FileSystem.read, hcontents]
  rw [getBlock, getBlock, hread, hsize]

theorem getBlock_of_contents {w : World} {key : Str} {data : List UInt8}
    (h : w.contents key = some (.reg data)) (hsize : data.length ≤ w.store.blocksize.toNatClampNeg)
    {n : ℕ} (hn : data.length ≤ n) (hne : data ≠ []) :
    w.store.getBlock w.fs key ⟨true, some n⟩ = some data := by
  have hread : w.fs.read (w.store.fileName key) = some data := by
    rw [World.contents] at h
    rw [FileSystem.read, h]
  rw [getBlock, if_pos rfl, hread]
  simp only [List.take_of_length_le hsize, List.take_of_length_le hn]
  rw [if_neg]
  simpa using hne

theorem getBlock_of_contents_none {w : World} {key : Str} (h : w.contents key = none)
    (a : GetAnswers) : w.store.getBlock w.fs key a = none := by
  have hread : w.fs.read (w.store.fileName key) = none := by
    rw [World.contents] at h
    rw [FileSystem.read, h]
  rw [getBlock, hread]
  split_ifs <;> rfl

/-- A positive block size stays what it is when it is converted to an unsigned number. -/
theorem toNat_blocksize {blocksize : Int32} (hpos : 1 ≤ blocksize.toInt) :
    (blocksize.toInt64.toUInt64.toNat : ℤ) = blocksize.toInt := by
  have hnonneg : 0 ≤ blocksize.toInt64 := by
    rw [Int64.le_iff_toInt_le, Int32.toInt_toInt64]
    change 0 ≤ blocksize.toInt
    omega
  rw [Int64.toNat_toUInt64_of_le hnonneg, ← Int64.toNat_toInt, Int32.toInt_toInt64]
  omega

theorem not_tooBig_iff {s : FileBlockStore} (hpos : 1 ≤ s.blocksize.toInt) (data : List UInt8) :
    s.tooBig data = false ↔ (data.length : ℤ) ≤ s.blocksize.toInt := by
  have hsize := toNat_blocksize hpos
  simp only [tooBig, gt_iff_lt, decide_eq_false_iff_not, Nat.not_lt]
  omega

/-- A `putBlock` that succeeds has written the whole block, which has the size of a block. -/
theorem putBlock_eq_true {s : FileBlockStore} (hpos : 1 ≤ s.blocksize.toInt) {fs : FileSystem}
    {key : Str} {data : List UInt8} {a : PutAnswers} (h : (s.putBlock fs key data a).2 = true) :
    (data.length : ℤ) = s.blocksize.toInt ∧ ∃ fd, fs.resolve (s.fileName key) = some fd ∧
      ¬ fs.IsDir fd ∧ (s.putBlock fs key data a).1.2 = fs.put fd data := by
  by_cases hfree : s.freeBlocks = 0
  · rw [putBlock_of_freeBlocks hfree] at h
    exact absurd h Bool.false_ne_true
  cases hopen : s.openBlock fs key a with
  | none =>
    rw [putBlock_of_openBlock_eq_none hopen] at h
    exact absurd h Bool.false_ne_true
  | some r =>
    obtain ⟨hfd, hdir, -⟩ := openBlock_eq_some hopen
    rw [putBlock_of_openBlock hfree hopen] at h ⊢
    split_ifs at h ⊢ with hok
    obtain ⟨hbig, hwritten⟩ := hok
    have hle := (not_tooBig_iff hpos data).1 hbig
    rw [PutAnswers.written] at hwritten
    cases hwrites : a.writes with
    | none =>
      rw [hwrites] at hwritten
      change (-1 : ℤ) = _ at hwritten
      omega
    | some n =>
      rw [hwrites] at hwritten
      change min (n : ℤ) data.length = _ at hwritten
      have hn : data.length ≤ n := by omega
      refine ⟨by omega, r.1, hfd, hdir, ?_⟩
      change fs.put r.1 (s.leftover data a) = _
      simp only [leftover, hbig, hwrites, Bool.false_eq_true, if_false, List.take_of_length_le hn]

end FileBlockStore

/-- What a call does to the file system, and the event that it adds to the log. -/
inductive Effect (w : World) : Call → Event → FileSystem → Prop
  | refused (key : Str) (data : List UInt8) (a : PutAnswers) :
    Effect w (.put key data a) (.put key data false) w.fs
  | put (key : Str) (data : List UInt8) (a : PutAnswers) (ok : Bool) (fd : Path)
    (bytes : List UInt8) (hfd : w.fs.resolve (w.store.fileName key) = some fd)
    (hdir : ¬ w.fs.IsDir fd)
    (hok : ok → 1 ≤ w.store.blocksize.toInt →
      bytes = data ∧ (data.length : ℤ) = w.store.blocksize.toInt) :
    Effect w (.put key data a) (.put key data ok) (w.fs.put fd bytes)
  | get (key : Str) (a : GetAnswers) (data : Option (List UInt8)) :
    Effect w (.get key a) (.get key data) w.fs
  | kept (key : Str) (unlinks : Bool) (scan : Scan) :
    Effect w (.remove key unlinks scan) (.remove key false) w.fs
  | removed (key : Str) (unlinks : Bool) (scan : Scan) (p : Path) (bytes : List UInt8)
    (hp : w.fs.resolve (w.store.fileName key) = some p) (hnode : w.fs.node p = some (.reg bytes)) :
    Effect w (.remove key unlinks scan) (.remove key true) (w.fs.erase p)
  | next (listing : Option (List Dirent)) (key : Str) : Effect w (.next listing) (.next key) w.fs

theorem putBlock_effect (w : World) (key : Str) (data : List UInt8) (a : PutAnswers) :
    Effect w (.put key data a) (.put key data (w.store.putBlock w.fs key data a).2)
        (w.store.putBlock w.fs key data a).1.2 ∧
      (w.store.putBlock w.fs key data a).1.1.path = w.store.path ∧
      (w.store.putBlock w.fs key data a).1.1.blocksize = w.store.blocksize := by
  rcases w.store.putBlock_cases w.fs key data a with hput | ⟨fd, bytes, hfd, hdir, hput | hput⟩
  · rw [hput]
    exact ⟨.refused key data a, rfl, rfl⟩
  · rw [hput]
    exact ⟨.put key data a false fd bytes hfd hdir fun h => absurd h Bool.false_ne_true, rfl, rfl⟩
  · have hok := fun hpos => w.store.putBlock_eq_true hpos (congrArg Prod.snd hput)
    rw [hput]
    refine ⟨.put key data a true fd bytes hfd hdir fun _ hpos => ?_, rfl, rfl⟩
    obtain ⟨hlen, fd', hfd', -, hfs⟩ := hok hpos
    obtain rfl : fd = fd' := Option.some.inj (hfd.symm.trans hfd')
    rw [hput] at hfs
    have hnode : (w.fs.put fd bytes).node fd = (w.fs.put fd data).node fd :=
      congrArg (·.node fd) hfs
    have hne := FileSystem.ne_nil_of_not_isDir hdir
    rw [FileSystem.node_put hne, FileSystem.node_put hne, if_pos rfl, if_pos rfl] at hnode
    exact ⟨by simpa using hnode, hlen⟩

/-- **A call.** It has one of the effects on the file system, adds its event to the log and keeps
the path and the block size of the store. -/
theorem step_effect {w w' : World} {call : Call} (h : step w call = some w') :
    ∃ e, Effect w call e w'.fs ∧ w'.log = w.log ++ [e] ∧ w'.store.path = w.store.path ∧
      w'.store.blocksize = w.store.blocksize := by
  cases call with
  | put key data a =>
    obtain rfl := Option.some.inj h
    obtain ⟨heffect, hpath, hsize⟩ := putBlock_effect w key data a
    exact ⟨_, heffect, rfl, hpath, hsize⟩
  | get key a =>
    obtain rfl := Option.some.inj h
    exact ⟨_, .get key a _, rfl, rfl, rfl⟩
  | remove key unlinks scan =>
    obtain rfl := Option.some.inj h
    rw [FileBlockStore.removeBlock]
    cases hun : (if unlinks then w.fs.unlink (w.store.fileName key) else none) with
    | none => exact ⟨_, .kept key unlinks scan, rfl, rfl, rfl⟩
    | some fs =>
      split_ifs at hun
      obtain ⟨p, bytes, hp, hnode, rfl⟩ := FileSystem.unlink_eq_some.1 hun
      exact ⟨_, .removed key unlinks scan p bytes hp hnode, rfl,
        FileBlockStore.config_regenerate w.store scan⟩
  | next listing =>
    obtain ⟨r, hr, rfl⟩ := Option.map_eq_some_iff.1 h
    rw [FileBlockStore.next] at hr
    split at hr
    · split at hr <;> obtain rfl := Option.some.inj hr <;> exact ⟨_, .next listing _, rfl, rfl, rfl⟩
    · simp at hr

/-! ### Different keys have different files -/

/-- No directory is made or removed. -/
theorem Effect.sameDirs {w : World} {call : Call} {e : Event} {fs : FileSystem}
    (h : Effect w call e fs) : FileSystem.SameDirs w.fs fs := by
  cases h with
  | put key data a ok fd bytes hfd hdir hok => exact FileSystem.sameDirs_put hdir bytes
  | removed key unlinks scan p bytes hp hnode =>
    refine FileSystem.sameDirs_erase fun hdir => ?_
    rw [FileSystem.IsDir, hnode] at hdir
    simp at hdir
  | refused | get | kept | next => exact ⟨rfl, fun _ => Iff.rfl⟩

/-- A call writes and removes the file of its key only. -/
theorem Effect.node_eq {w : World} {call : Call} {e : Event} {fs : FileSystem}
    (h : Effect w call e fs) {p : Path}
    (hp : ∀ k ∈ call.key?, ¬ w.fs.IsDir p → w.fs.resolve (w.store.fileName k) ≠ some p) :
    fs.node p = w.fs.node p := by
  cases h with
  | put k data a ok fd bytes hfd hdir hok =>
    rw [FileSystem.node_put (FileSystem.ne_nil_of_not_isDir hdir), if_neg]
    rintro rfl
    exact hp k rfl hdir hfd
  | removed k unlinks scan q bytes hq hnode =>
    refine FileSystem.node_erase p ?_
    rintro rfl
    refine hp k rfl (fun hdir => ?_) hq
    rw [FileSystem.IsDir, hnode] at hdir
    simp at hdir
  | refused | get | kept | next => rfl

/-- The last component of the file of a key is the key. -/
theorem resolve_fileName_eq_concat {s : FileBlockStore} (hpath : 0 ∉ s.path) {fs : FileSystem}
    {key : Str} (hkey : FlatName key) {p : Path} (hp : fs.resolve (s.fileName key) = some p) :
    ∃ d, p = d ++ [key] := by
  have hname : ∃ a, s.fileName key = a ++ FileSystem.slash :: key := by
    obtain ⟨sep, hcstr, hsep⟩ := cStr_getFullpath hpath key
    rw [FileBlockStore.fileName, hcstr, cStr_eq_self hkey.zero_notMem]
    rcases hsep with rfl | ⟨rfl, a, ha⟩
    · exact ⟨s.path, by simp⟩
    · exact ⟨a, by simp [ha]⟩
  obtain ⟨a, ha⟩ := hname
  rw [ha, FileSystem.resolve, if_neg (by simp), FileSystem.splitOn_append_slash,
    FileSystem.splitOn_of_notMem hkey.slash_notMem,
    FileSystem.walk_concat _ _ (FileSystem.splitOn_ne_nil a), Option.bind_eq_some_iff] at hp
  obtain ⟨d, -, hd⟩ := hp
  split_ifs at hd
  exact ⟨d, (Option.some.inj hd).symm.trans (hkey.enter d)⟩

/-- The path of the store is a C string, or at least it names a directory. -/
def PathNames (fs : FileSystem) (path : Str) : Prop :=
  0 ∉ path ∨ ∃ d, fs.resolve path.cStr = some d ∧ fs.IsDir d

/-- Two keys have different files. -/
theorem resolve_fileName_ne {s : FileBlockStore} {fs : FileSystem} (hpath : PathNames fs s.path)
    {k key : Str} (hk : FlatName k) (hkey : FlatName key) (hne : k ≠ key) {p : Path}
    (hp : fs.resolve (s.fileName k) = some p) (hdir : ¬ fs.IsDir p) :
    fs.resolve (s.fileName key) ≠ some p := by
  intro hp'
  by_cases hnul : 0 ∈ s.path
  · -- All keys have the file name of the directory.
    obtain ⟨d, hd, hisDir⟩ := hpath.resolve_left (not_not.2 hnul)
    rw [FileBlockStore.fileName, cStr_getFullpath_of_mem hnul, hd,
      Option.some.injEq] at hp
    exact hdir (hp ▸ hisDir)
  · obtain ⟨d, rfl⟩ := resolve_fileName_eq_concat hnul hk hp
    obtain ⟨d', heq⟩ := resolve_fileName_eq_concat hnul hkey hp'
    exact hne (List.singleton_inj.1 (List.append_inj' heq rfl).2)

/-- The file names mean the same paths after a call. -/
theorem contents_step {w w' : World} {call : Call} (h : step w call = some w') (key : Str) :
    w'.contents key = (w.fs.resolve (w.store.fileName key)).bind w'.fs.node := by
  obtain ⟨e, heffect, -, hpath, -⟩ := step_effect h
  rw [World.contents, heffect.sameDirs.resolve, FileBlockStore.fileName, hpath,
    FileBlockStore.fileName]

/-- A call that is not about the key leaves the file of the key alone. -/
theorem contents_step_of_ne {w w' : World} (hpath : PathNames w.fs w.store.path) {key : Str}
    (hkey : FlatName key) {call : Call} (hflat : ∀ k ∈ call.key?, FlatName k)
    (hne : key ∉ call.key?) (h : step w call = some w') : w'.contents key = w.contents key := by
  rw [contents_step h, World.contents]
  refine Option.bind_congr fun p hp => ?_
  obtain ⟨e, heffect, -⟩ := step_effect h
  refine heffect.node_eq fun k hk hdir hk' => ?_
  exact resolve_fileName_ne hpath (hflat k hk) hkey (fun heq => hne (heq ▸ hk)) hk' hdir hp

/-- A call leaves the file of a key alone unless it tries to store the key or removes it. -/
theorem contents_step_of_not_replaces {w w' : World} (hpath : PathNames w.fs w.store.path)
    {key : Str} (hkey : FlatName key) {call : Call} (hflat : ∀ k ∈ call.key?, FlatName k)
    (h : step w call = some w') {e : Event} (heffect : Effect w call e w'.fs)
    (he : ¬ e.replaces key) : w'.contents key = w.contents key := by
  by_cases hcall : key ∈ call.key?
  · have hfs : w'.fs = w.fs := by
      generalize w'.fs = fs at heffect
      cases heffect with
      | put k => exact absurd (Option.some.inj hcall) he
      | removed k => exact absurd ⟨Option.some.inj hcall, rfl⟩ he
      | refused | get | kept | next => rfl
    rw [contents_step h, hfs, World.contents]
  · exact contents_step_of_ne hpath hkey hflat hcall h

/-- The file of a key after it was stored. -/
theorem contents_put {w : World} {call : Call} {key : Str} {data : List UInt8} {fs : FileSystem}
    (h : Effect w call (.put key data true) fs) (hpos : 1 ≤ w.store.blocksize.toInt) :
    (w.fs.resolve (w.store.fileName key)).bind fs.node = some (.reg data) ∧
      (data.length : ℤ) = w.store.blocksize.toInt := by
  cases h with
  | put _ _ a _ fd bytes hfd hdir hok =>
    obtain ⟨rfl, hlen⟩ := hok rfl hpos
    rw [hfd, Option.bind_some, FileSystem.node_put (FileSystem.ne_nil_of_not_isDir hdir),
      if_pos rfl]
    exact ⟨rfl, hlen⟩

/-- The file of a key after it was removed. -/
theorem contents_removed {w : World} {call : Call} {key : Str} {fs : FileSystem}
    (h : Effect w call (.remove key true) fs) :
    (w.fs.resolve (w.store.fileName key)).bind fs.node = none := by
  cases h with
  | removed _ unlinks scan p bytes hp hnode =>
    have hdir : ¬ w.fs.IsDir p := by
      rw [FileSystem.IsDir, hnode]
      simp
    rw [hp, Option.bind_some]
    exact FileSystem.node_erase_self (FileSystem.ne_nil_of_not_isDir hdir)

theorem eq_remove_of_replaces {key : Str} {e : Event} (h : e.replaces key) (hputs : ¬ e.puts key) :
    e = .remove key true := by
  cases e with
  | put k data ok => exact absurd h hputs
  | remove k ok =>
    obtain ⟨rfl, rfl⟩ := h
    rfl
  | get | next => exact h.elim

/-! ### Runs -/

/-- The invariant of a run for a key: the configuration of the store and the directories are those
of the start, and the file of the key is as the log says. -/
structure Durable (start : World) (key : Str) (w : World) : Prop where
  path : w.store.path = start.store.path
  blocksize : w.store.blocksize = start.store.blocksize
  dirs : FileSystem.SameDirs start.fs w.fs
  intact : ∀ data, Intact key data w.log → w.contents key = some (.reg data) ∧
    (data.length : ℤ) = start.store.blocksize.toInt
  removed : Removed key w.log → w.contents key = none

namespace Durable

variable {start w w' : World} {key : Str}

theorem refl (hlog : start.log = []) : Durable start key start where
  path := rfl
  blocksize := rfl
  dirs := ⟨rfl, fun _ => Iff.rfl⟩
  intact _ h := absurd (hlog ▸ h) (not_lastIs_nil _ _)
  removed h := absurd (hlog ▸ h) (not_lastIs_nil _ _)

theorem pathNames (h : Durable start key w) (hpath : PathNames start.fs start.store.path) :
    PathNames w.fs w.store.path := by
  rw [PathNames, h.path, h.dirs.resolve]
  exact hpath.imp id fun ⟨d, hd, hdir⟩ => ⟨d, hd, (h.dirs.2 d).2 hdir⟩

theorem step (h : Durable start key w) (hpos : 1 ≤ start.store.blocksize.toInt)
    (hpath : PathNames start.fs start.store.path) (hkey : FlatName key) {call : Call}
    (hflat : ∀ k ∈ call.key?, FlatName k) (hstep : BlockStore.step w call = some w') :
    Durable start key w' := by
  obtain ⟨e, heffect, hlog, hpath', hsize⟩ := step_effect hstep
  have hsame := contents_step_of_not_replaces (h.pathNames hpath) hkey hflat hstep heffect
  refine ⟨hpath'.trans h.path, hsize.trans h.blocksize, h.dirs.trans heffect.sameDirs, ?_, ?_⟩
  · intro data hintact
    rw [hlog] at hintact
    rcases lastIs_concat.1 hintact with rfl | ⟨hintact, he⟩
    · rw [contents_step hstep, ← h.blocksize]
      exact contents_put heffect (h.blocksize ▸ hpos)
    · rw [hsame he]
      exact h.intact data hintact
  · intro hremoved
    rw [hlog] at hremoved
    rcases lastIs_concat.1 hremoved with rfl | ⟨hremoved, he⟩
    · rw [contents_step hstep]
      exact contents_removed heffect
    · by_cases hreplaces : e.replaces key
      · obtain rfl := eq_remove_of_replaces hreplaces he
        rw [contents_step hstep]
        exact contents_removed heffect
      · rw [hsame hreplaces]
        exact h.removed hremoved

end Durable

theorem durable_of_exec {start w : World} (hlog : start.log = [])
    (hpos : 1 ≤ start.store.blocksize.toInt) (hpath : PathNames start.fs start.store.path)
    {calls : List Call} (hflat : ∀ call ∈ calls, ∀ k ∈ call.key?, FlatName k)
    (hw : exec step start calls = some w) {key : Str} (hkey : FlatName key) :
    Durable start key w := by
  refine exec_induction (fun calls w => (∀ call ∈ calls, ∀ k ∈ call.key?, FlatName k) →
    Durable start key w) (fun _ => Durable.refl hlog) ?_ hw hflat
  intro calls t call u _ ht hstep hflat
  exact (ht fun c hc => hflat c (List.mem_append_left _ hc)).step hpos hpath hkey
    (hflat call (List.mem_append_right _ (List.mem_singleton_self call))) hstep

/-- **Blocks are durable and independent.** In every run of a store whose keys are names of files:
`getBlock` returns the block of the last `putBlock` when that succeeded and the key was not removed
since; it returns nothing after a removal until the key is stored again; and no call about another
key changes what it returns. -/
theorem getBlock_run {path : Str} {blocksize : Int32} (hpos : 1 ≤ blocksize.toInt) {scan : Scan}
    {fs : FileSystem} (hpath : PathNames fs path) {calls : List Call} {w : World}
    (hflat : ∀ call ∈ calls, ∀ k ∈ call.key?, FlatName k)
    (hw : exec step (.start path blocksize scan fs) calls = some w) {key : Str}
    (hkey : FlatName key) :
    (∀ data, Intact key data w.log → ∀ n ≥ blocksize.toNatClampNeg,
      w.store.getBlock w.fs key ⟨true, some n⟩ = some data) ∧
    (Removed key w.log → ∀ a, w.store.getBlock w.fs key a = none) ∧
    ∀ call w', (∀ k ∈ call.key?, FlatName k) → key ∉ call.key? → step w call = some w' →
      ∀ a, w'.store.getBlock w'.fs key a = w.store.getBlock w.fs key a := by
  obtain ⟨hpath₀, hsize₀⟩ : (World.start path blocksize scan fs).store.path = path ∧
      (World.start path blocksize scan fs).store.blocksize = blocksize :=
    FileBlockStore.config_regenerate _ scan
  have hnames : PathNames (World.start path blocksize scan fs).fs
      (World.start path blocksize scan fs).store.path := by
    rw [hpath₀]
    exact hpath
  have hdurable : Durable (.start path blocksize scan fs) key w :=
    durable_of_exec rfl (by rwa [hsize₀]) hnames hflat hw hkey
  have hsize : w.store.blocksize = blocksize := hdurable.blocksize.trans hsize₀
  refine ⟨fun data hintact n hn => ?_, fun hremoved a => ?_, fun call w' hcall hne hstep a => ?_⟩
  · obtain ⟨hfile, hlen⟩ := hdurable.intact data hintact
    rw [hsize₀] at hlen
    refine FileBlockStore.getBlock_of_contents hfile ?_ ?_ ?_
    · rw [hsize, ← Int32.toNat_toInt]
      omega
    · rw [← Int32.toNat_toInt] at hn
      omega
    · rintro rfl
      simp only [List.length_nil] at hlen
      omega
  · exact FileBlockStore.getBlock_of_contents_none (hdurable.removed hremoved) a
  · obtain ⟨e, -, -, -, hsize'⟩ := step_effect hstep
    exact FileBlockStore.getBlock_congr
      (contents_step_of_ne (hdurable.pathNames hnames) hkey hcall hne hstep) hsize' a

/-- Two keys are stored, one of them is removed. -/
theorem getBlock_run_putPutRemove :
    ∃ w, exec step FileBlockStore.emptyStore (putPutRemove (.ofString "a")) = some w ∧
      w.store.getBlock w.fs (.ofString "a") ⟨true, some 2⟩ = some [1, 2] ∧
        w.store.getBlock w.fs (.ofString "b") ⟨true, some 2⟩ = none := by
  have hnames : PathNames (FileSystem.empty.mkdir [Str.ofString "d"]) (.ofString "/d") :=
    Or.inl (by decide)
  have hflat : ∀ call ∈ putPutRemove (.ofString "a"), ∀ k ∈ call.key?, FlatName k := by decide
  have ha : FlatName (.ofString "a") := by decide
  have hb : FlatName (.ofString "b") := by decide
  have hrun : ∃ w, exec step FileBlockStore.emptyStore (putPutRemove (.ofString "a")) = some w ∧
      Intact (.ofString "a") [1, 2] w.log ∧ Removed (.ofString "b") w.log := by
    refine ⟨_, rfl, ⟨[], [.put (.ofString "b") [3, 4] true, .remove (.ofString "b") true], ?_, ?_⟩,
      ⟨[_, _], [], rfl, by simp⟩⟩
    · decide +kernel
    · simp [Event.replaces, Str.ofString]
  obtain ⟨w, hw, hintact, hremoved⟩ := hrun
  exact ⟨w, hw, (getBlock_run (by decide) hnames hflat hw ha).1 _ hintact 2 (by decide),
    (getBlock_run (by decide) hnames hflat hw hb).2.1 hremoved _⟩

end RawDish.BlockStore
