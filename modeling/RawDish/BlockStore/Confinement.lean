import RawDish.BlockStore.Durability
import RawDish.Lib.LexicalPath

/-!
# The directory of a store

The blocks of a store are files in its directory, and the key is the name of the file. A key comes
from other hosts as it is, and the code appends it to the path of the store without looking at it.
So a key can be a route out of the directory, into that of another store for one. The file is in the
directory when the route of the key comes back into it (`Stays`), as the route of a plain name does.

## Main definitions

* `Confined` : the calls with a key are about files in the directory of the store.
* `Stays` : the condition on the key.

## Main results

* `confined_iff_stays` : the two are the same.
* `stays_of_flatName` : the names of files are such keys.

## References

* `src/blockstore/fileblockstore.h`, lines 61–66.
* `src/blockstore/fileblockstore.cc`, lines 41–122.
-/

namespace RawDish.BlockStore

open Lib Util

/-- The calls of a store with the key are about a file in the directory of the store: so says the
text of the file name. Files in other directories are neither changed nor read. -/
structure Confined (cwd : Path) (path key : Str) : Prop where
  child : ∃ name, FileSystem.lexical cwd (getFullpath path key).cStr =
    FileSystem.lexical cwd path.cStr ++ [name]
  writes : ∀ {w w' : World} {call : Call}, w.store.path = path → w.fs.cwd = cwd →
    key ∈ call.key? → step w call = some w' → ∀ d ≠ FileSystem.lexical cwd path.cStr,
      ∀ name, w'.fs.node (d ++ [name]) = w.fs.node (d ++ [name])
  reads : ∀ {s : FileBlockStore} {fs fs' : FileSystem}, s.path = path → fs.cwd = cwd →
    FileSystem.SameDirs fs fs' → ∀ d ≠ FileSystem.lexical cwd path.cStr,
      (∀ p, (∀ name, p ≠ d ++ [name]) → fs'.node p = fs.node p) →
        ∀ a, s.getBlock fs' key a = s.getBlock fs key a

/-- The route of a key from the directory of the store. -/
def keyRoute (key : Str) : Route := .ofNames (key.cStr.splitOn FileSystem.slash)

/-- The path has no zero byte, and the route of the key goes up some levels, down again through the
directories it has left, and down one more level. -/
def Stays (cwd : Path) (path key : Str) : Prop :=
  0 ∉ path ∧ (keyRoute key).down ≠ [] ∧ (keyRoute key).down.dropLast =
    (FileSystem.lexical cwd path).drop ((FileSystem.lexical cwd path).length - (keyRoute key).up)

instance (cwd : Path) (path key : Str) : Decidable (Stays cwd path key) :=
  inferInstanceAs (Decidable (_ ∧ _ ∧ _))

/-- The file name of a key is a route from the directory of the store. -/
theorem lexical_getFullpath (cwd : Path) {path : Str} (hpath : path ≠ []) (hnul : 0 ∉ path)
    (key : Str) : FileSystem.lexical cwd (getFullpath path key).cStr =
      (keyRoute key).target (FileSystem.lexical cwd path) := by
  obtain ⟨sep, hname, hsep⟩ := cStr_getFullpath hnul key
  rw [hname, keyRoute, ← Route.foldl_enter]
  rcases hsep with rfl | ⟨rfl, a, rfl⟩
  · rw [List.append_assoc, List.singleton_append, FileSystem.lexical_append_slash cwd hpath]
  · rw [List.append_nil, List.append_assoc, List.singleton_append,
      FileSystem.lexical_append_of_slash]

theorem child_iff_stays (cwd : Path) {path : Str} (hpath : path ≠ []) (key : Str) :
    (∃ name, FileSystem.lexical cwd (getFullpath path key).cStr =
      FileSystem.lexical cwd path.cStr ++ [name]) ↔ Stays cwd path key := by
  by_cases hnul : 0 ∈ path
  · -- The file name is the name of the directory, whatever the key.
    rw [cStr_getFullpath_of_mem hnul]
    refine iff_of_false ?_ fun h => h.1 hnul
    rintro ⟨name, h⟩
    have hlen := congrArg List.length h
    simp at hlen
  · rw [lexical_getFullpath cwd hpath hnul, cStr_eq_self hnul, Route.target_eq_concat_iff]
    exact ⟨fun h => ⟨hnul, h⟩, fun h => h.2⟩

private theorem eq_of_resolve {s : FileBlockStore} {fs : FileSystem} {key : Str}
    (hchild : ∃ name, FileSystem.lexical fs.cwd (getFullpath s.path key).cStr =
      FileSystem.lexical fs.cwd s.path.cStr ++ [name]) {d : Path} {name : List UInt8}
    (h : fs.resolve (s.fileName key) = some (d ++ [name])) :
    d = FileSystem.lexical fs.cwd s.path.cStr := by
  obtain ⟨name', hname⟩ := hchild
  have heq := FileSystem.resolve_eq_lexical h
  rw [FileBlockStore.fileName, hname] at heq
  exact (List.append_inj' heq rfl).1

/-- **Confinement.** The calls of a store with a key are confined to the directory of the store if
and only if the route of the key stays in it. -/
theorem confined_iff_stays (cwd : Path) {path : Str} (hpath : path ≠ []) (key : Str) :
    Confined cwd path key ↔ Stays cwd path key := by
  rw [← child_iff_stays cwd hpath]
  refine ⟨Confined.child, fun hchild => ⟨hchild, ?_, ?_⟩⟩
  · rintro w w' call rfl rfl hcall hstep d hd name
    obtain ⟨e, heffect, -⟩ := step_effect hstep
    refine heffect.node_eq fun k hk _ hresolve => ?_
    obtain rfl : key = k := Option.some.inj (hcall.symm.trans hk)
    exact hd (eq_of_resolve hchild hresolve)
  · rintro s fs fs' rfl rfl hdirs d hd hsame a
    have hcontents : (World.mk s fs' []).contents key = (World.mk s fs []).contents key := by
      rw [World.contents, World.contents, hdirs.resolve]
      refine Option.bind_congr fun p hp => hsame p ?_
      rintro name rfl
      exact hd (eq_of_resolve hchild hp)
    exact FileBlockStore.getBlock_congr hcontents rfl a

/-- The names of files stay in the directory. -/
theorem stays_of_flatName (cwd : Path) {path key : Str} (hpath : 0 ∉ path) (hkey : FlatName key) :
    Stays cwd path key := by
  have hroute : keyRoute key = ⟨0, [key]⟩ := by
    rw [keyRoute, cStr_eq_self hkey.zero_notMem, FileSystem.splitOn_of_notMem hkey.slash_notMem]
    simp [Route.ofNames, Route.enter, hkey.ne_nil, hkey.ne_dot, hkey.ne_dotdot]
  rw [Stays, hroute]
  exact ⟨hpath, by simp, by simp⟩

/-- A key that leaves the directory and comes back. -/
theorem confined_upAndBack : Confined [] (.ofString "/d") (.ofString "../d/./k") :=
  (confined_iff_stays [] (by decide) _).2 (by decide)

/-- A key that leads into the directory of another store, whose block is removed. -/
theorem removeBlock_of_other :
    ¬ Confined [] (.ofString "/d") (.ofString "../e/k") ∧
      ∃ fs w, exec step (.start (.ofString "/d") 2 ⟨some (8, 2), some []⟩ fs)
          [.remove (.ofString "../e/k") true ⟨none, none⟩] = some w ∧
        (FileBlockStore.create (.ofString "/e") 2 ⟨none, none⟩).getBlock fs (.ofString "k")
          ⟨true, some 2⟩ = some [1, 2] ∧
        (FileBlockStore.create (.ofString "/e") 2 ⟨none, none⟩).getBlock w.fs (.ofString "k")
          ⟨true, some 2⟩ = none := by
  constructor
  · intro h
    exact absurd (child_iff_stays [] (by decide) _ |>.1 h.child) (by decide)
  · refine ⟨((FileSystem.empty.mkdir [Str.ofString "d"]).mkdir [Str.ofString "e"]).put
      [Str.ofString "e", Str.ofString "k"] [1, 2], _, rfl, ?_, ?_⟩
    · decide +kernel
    · decide +kernel

end RawDish.BlockStore
