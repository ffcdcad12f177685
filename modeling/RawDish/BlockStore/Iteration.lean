import RawDish.BlockStore.Rebuild

/-!
# Iteration over the blocks

`next` walks through an open directory and skips what is not a block, with a copy of the test that
`regenerateBloomFilterAndBlockSet` has. At the end it closes the directory and returns the empty
string, and the call after that opens the directory again. What is still to come is the names of the
entries that `readdir` has not returned yet, so the results are passes over the blocks, each
followed by an empty string (`Progress`).

## Main definitions

* `Directory` : the entries of a directory, whose names are distinct and not empty.
* `Pass` : the keys that the rebuilding inserts, each of them once.
* `Scanning` : the calls that leave a scan alone.

## Main results

* `next_agrees_with_rebuild` : the results of `next` in every run of such calls.

## References

* `src/blockstore/fileblockstore.cc`, lines 124–168.
-/

namespace RawDish.BlockStore

open Lib Util
open FileBlockStore (names skips)

/-- The entries of a directory. -/
structure Directory where
  entries : List Dirent
  distinct : (entries.map Dirent.name).Nodup
  nonempty : ∀ e ∈ entries, e.name ≠ []

/-- `opendir` succeeds, and `readdir` returns the entries in some order. -/
def Directory.Opens (dir : Directory) (listing : Option (List Dirent)) : Prop :=
  ∃ entries, listing = some entries ∧ entries.Perm dir.entries

/-- The names that the rebuilding inserts into the set of the keys, each of them once, and no other
name. -/
structure Pass (dir : Directory) (ks : List Str) : Prop where
  nodup : ks.Nodup
  nil_not_mem : [] ∉ ks
  mem_iff : ∀ (s : FileBlockStore) (scan : Scan), dir.Opens scan.listing →
    ∀ k, k ∈ (s.regenerateBloomFilterAndBlockSet scan).blockset ↔ k ∈ ks

/-- A call of `next`, with an `opendir` that succeeds when there is one, a call of `getBlock`, or
one of `removeBlock` that fails. -/
def Scanning (dir : Directory) (w : World) : Call → Prop
  | .next listing => w.store.dir = none → dir.Opens listing
  | .get _ _ => True
  | .remove key unlinks scan => (w.store.removeBlock w.fs key unlinks scan).2 = false
  | .put _ _ _ => False

/-- Whether the call is one of `next`. -/
def Call.isNext : Call → Bool
  | .next _ => true
  | _ => false

/-- The results of `next`. -/
def returned (log : List Event) : List Str :=
  log.filterMap fun
    | .next key => some key
    | _ => none

/-- The results of whole passes, each with the empty string after it. -/
def wholePasses (passes : List (List Str)) : List Str := (passes.map (· ++ [[]])).flatten

/-- The results so far are whole passes and the part of a pass whose other names the open directory
still has. -/
def Progress (dir : Directory) (s : FileBlockStore) (results : List Str) : Prop :=
  ∃ passes part, results = wholePasses passes ++ part ∧
    (∀ ks ∈ passes, Pass dir ks) ∧ (s.dir = none ∧ part = [] ∨
      ∃ entries, s.dir = some entries ∧ Pass dir (part ++ names entries))

/-! ### The loop of `next` -/

/-- The loop finds the first name that is indexed. -/
theorem names_of_dropWhile_cons {entries rest : List Dirent} {e : Dirent}
    (h : entries.dropWhile skips = e :: rest) : names entries = e.name :: names rest := by
  induction entries with
  | nil => simp at h
  | cons x entries ih =>
    rw [List.dropWhile_cons] at h
    split_ifs at h with hskip
    · rw [← ih h]
      simp [names, hskip]
    · obtain ⟨rfl, rfl⟩ := List.cons.inj h
      simp [names, hskip]

/-- The loop comes to the end of the directory. -/
theorem names_of_dropWhile_nil {entries : List Dirent} (h : entries.dropWhile skips = []) :
    names entries = [] := by
  rw [List.dropWhile_eq_nil_iff] at h
  simp only [names, List.map_eq_nil_iff, List.filter_eq_nil_iff]
  exact fun e he => by simp [h e he]

/-- The names of a listing are a pass. -/
theorem pass_names {dir : Directory} {entries : List Dirent} (h : entries.Perm dir.entries) :
    Pass dir (names entries) := by
  have hperm := FileBlockStore.names_perm h
  refine ⟨hperm.nodup_iff.2 ?_, fun hmem => ?_, fun s scan hopens k => ?_⟩
  · exact dir.distinct.sublist (List.filter_sublist.map Dirent.name)
  · obtain ⟨e, he, hname⟩ := List.mem_map.1 (hperm.mem_iff.1 hmem)
    exact dir.nonempty e (List.mem_of_mem_filter he) hname
  · obtain ⟨entries', hlisting, hperm'⟩ := hopens
    rw [(s.tallies_regenerate scan).blockset, hlisting, Option.getD_some]
    exact (FileBlockStore.names_perm (hperm'.trans h.symm)).mem_iff

/-- One call of `next`. -/
theorem Progress.next {dir : Directory} {s s' : FileBlockStore} {results : List Str}
    (h : Progress dir s results) {listing : Option (List Dirent)}
    (hopens : s.dir = none → dir.Opens listing) {key : Str}
    (hnext : s.next listing = some (s', key)) : Progress dir s' (results ++ [key]) := by
  obtain ⟨passes, part, rfl, hpasses, hdir⟩ := h
  obtain ⟨entries, hentries, hpass⟩ :
      ∃ entries, s.dir.or listing = some entries ∧ Pass dir (part ++ names entries) := by
    rcases hdir with ⟨hnone, rfl⟩ | ⟨entries, hsome, hpass⟩
    · obtain ⟨entries, rfl, hperm⟩ := hopens hnone
      exact ⟨entries, by rw [hnone, Option.none_or], pass_names hperm⟩
    · exact ⟨entries, by rw [hsome, Option.some_or], hpass⟩
  simp only [FileBlockStore.next, hentries] at hnext
  cases hdrop : entries.dropWhile skips with
  | cons e rest =>
    simp only [hdrop, Option.some.injEq, Prod.mk.injEq] at hnext
    obtain ⟨rfl, rfl⟩ := hnext
    rw [names_of_dropWhile_cons hdrop, List.append_cons] at hpass
    exact ⟨passes, part ++ [e.name], by rw [List.append_assoc], hpasses, Or.inr ⟨rest, rfl, hpass⟩⟩
  | nil =>
    simp only [hdrop, Option.some.injEq, Prod.mk.injEq] at hnext
    obtain ⟨rfl, rfl⟩ := hnext
    rw [names_of_dropWhile_nil hdrop, List.append_nil] at hpass
    refine ⟨passes ++ [part], [], by simp [wholePasses], fun ks hks => ?_, Or.inl ⟨rfl, rfl⟩⟩
    rcases List.mem_append.1 hks with hks | hks
    · exact hpasses ks hks
    · exact List.mem_singleton.1 hks ▸ hpass

/-! ### Runs -/

/-- A call of `removeBlock` that fails changes nothing. -/
theorem removeBlock_of_fails {s : FileBlockStore} {fs : FileSystem} {key : Str} {unlinks : Bool}
    {scan : Scan} (h : (s.removeBlock fs key unlinks scan).2 = false) :
    (s.removeBlock fs key unlinks scan).1 = (s, fs) := by
  rw [FileBlockStore.removeBlock] at h ⊢
  split at h
  · exact absurd h (by simp)
  · rfl

/-- A step of a run. -/
theorem scan_step {dir : Directory} {w w' : World} {call : Call} {results : List Str}
    (h : Progress dir w.store results) (hcall : Scanning dir w call) (hw : step w call = some w') :
    ∃ new, returned w'.log = returned w.log ++ new ∧ Progress dir w'.store (results ++ new) ∧
      new.length = if call.isNext then 1 else 0 := by
  cases call with
  | put key data a => exact hcall.elim
  | get key a =>
    obtain rfl := Option.some.inj hw
    exact ⟨[], by simp [returned], by simpa using h, rfl⟩
  | remove key unlinks scan =>
    obtain rfl := Option.some.inj hw
    rw [removeBlock_of_fails hcall]
    exact ⟨[], by simp [returned], by simpa using h, rfl⟩
  | next listing =>
    obtain ⟨⟨s', key⟩, hnext, rfl⟩ := Option.map_eq_some_iff.1 hw
    exact ⟨[key], by simp [returned], h.next hcall hnext, rfl⟩

/-- Every call of a scan returns. -/
theorem exists_step_of_scanning {dir : Directory} (w : World) (call : Call)
    (h : Scanning dir w call) : ∃ w', step w call = some w' := by
  cases call with
  | put key data a => exact h.elim
  | get key a => exact ⟨_, rfl⟩
  | remove key unlinks scan => exact ⟨_, rfl⟩
  | next listing =>
    obtain ⟨entries, hentries⟩ : ∃ entries, w.store.dir.or listing = some entries := by
      cases hdir : w.store.dir with
      | none =>
        obtain ⟨entries, hlisting, -⟩ := h hdir
        exact ⟨entries, by rw [hlisting, Option.none_or]⟩
      | some entries => exact ⟨entries, Option.some_or⟩
    simp only [step, FileBlockStore.next, hentries]
    cases entries.dropWhile skips with
    | nil => exact ⟨_, rfl⟩
    | cons e rest => exact ⟨_, rfl⟩

/-- **A scan agrees with the rebuilding.** Take a store that is not in the middle of a scan, and a
run of calls of `next` on an unchanged directory, which `readdir` lists in whatever order, with
calls of `getBlock` and failed calls of `removeBlock` in between. Every call returns. The results of
`next` are passes over the directory, any number of them, each followed by one empty string, and the
beginning of the next pass. A pass has the names that the rebuilding would insert into the set of
the keys, each of them once. -/
theorem next_agrees_with_rebuild (dir : Directory) (w : World) (hw : w.store.dir = none)
    (calls : List Call) (hcalls : AllSteps step (Scanning dir) w calls) :
    ∃ w' results, exec step w calls = some w' ∧ returned w'.log = returned w.log ++ results ∧
      results.length = calls.countP Call.isNext ∧
      ∃ passes part rest, results = wholePasses passes ++ part ∧
        (∀ ks ∈ passes, Pass dir ks) ∧ Pass dir (part ++ rest) := by
  obtain ⟨w', hrun⟩ := hcalls.exists_exec exists_step_of_scanning
  obtain ⟨results, hlog, ⟨passes, part, hresults, hpasses, hdir⟩, hcount⟩ :=
    exec_invariant (fun calls w' => ∃ results, returned w'.log = returned w.log ++ results ∧
        Progress dir w'.store results ∧ results.length = calls.countP Call.isNext)
      ⟨[], by simp, ⟨[], [], rfl, by simp, Or.inl ⟨hw, rfl⟩⟩, rfl⟩
      (by
        rintro as t call u - ⟨results, hlog, hprogress, hcount⟩ hcall hstep
        obtain ⟨new, hnew, hprogress', hone⟩ := scan_step hprogress hcall hstep
        refine ⟨results ++ new, by rw [hnew, hlog, List.append_assoc], hprogress', ?_⟩
        rw [List.length_append, List.countP_append, hcount, hone, List.countP_singleton])
      hcalls hrun
  refine ⟨w', results, hrun, hlog, hcount, passes, part, ?_⟩
  rcases hdir with ⟨-, rfl⟩ | ⟨entries, -, hpass⟩
  · exact ⟨names dir.entries, hresults, hpasses, pass_names (.refl _)⟩
  · exact ⟨names entries, hresults, hpasses, hpass⟩

instance (dir : Directory) : (listing : Option (List Dirent)) → Decidable (dir.Opens listing)
  | some entries => decidable_of_iff (entries.Perm dir.entries)
      ⟨fun h => ⟨entries, rfl, h⟩, fun ⟨_, heq, h⟩ => Option.some.inj heq ▸ h⟩
  | none => isFalse fun ⟨_, heq, _⟩ => Option.some_ne_none _ heq.symm

instance (dir : Directory) (w : World) : (call : Call) → Decidable (Scanning dir w call)
  | .next listing => inferInstanceAs (Decidable (w.store.dir = none → dir.Opens listing))
  | .get _ _ => isTrue trivial
  | .remove key unlinks scan => inferInstanceAs
      (Decidable ((w.store.removeBlock w.fs key unlinks scan).2 = false))
  | .put _ _ _ => isFalse id

/-- A directory with one block, a hidden file and a directory. -/
def mixedDirectory : Directory where
  entries := [⟨[FileSystem.dot], .dir⟩, ⟨[FileSystem.dot, FileSystem.dot], .dir⟩,
    ⟨Str.ofString "a", .reg⟩, ⟨Str.ofString ".lock", .reg⟩, ⟨Str.ofString "old", .dir⟩]
  distinct := by decide
  nonempty := by decide

/-- A store on that directory. -/
def mixedStore : World :=
  .start (.ofString "/d") 2 ⟨some (8, 2), some mixedDirectory.entries⟩
    ((((FileSystem.empty.mkdir [Str.ofString "d"]).put [Str.ofString "d", Str.ofString "a"]
      [1, 2]).put [Str.ofString "d", Str.ofString ".lock"] []).mkdir
        [Str.ofString "d", Str.ofString "old"])

/-- Two passes with a `getBlock` and a failed `removeBlock` in between. -/
def twoPasses : List Call :=
  [.next (some mixedDirectory.entries), .get (.ofString "a") ⟨true, some 2⟩, .next none,
    .next (some mixedDirectory.entries.reverse), .remove (.ofString "b") true ⟨none, none⟩,
    .next none]

/-- Each pass has the block only, and the empty string after it. -/
theorem next_agrees_with_rebuild_mixed :
    ∃ w', exec step mixedStore twoPasses = some w' ∧
      returned w'.log = [Str.ofString "a", [], Str.ofString "a", []] ∧
      ∃ passes part rest, returned w'.log = wholePasses passes ++ part ∧
        (∀ ks ∈ passes, Pass mixedDirectory ks) ∧ Pass mixedDirectory (part ++ rest) := by
  have hcalls : AllSteps step (Scanning mixedDirectory) mixedStore twoPasses := by
    decide +kernel
  obtain ⟨w', results, hrun, hlog, -, hpasses⟩ :=
    next_agrees_with_rebuild mixedDirectory mixedStore (by decide +kernel) twoPasses hcalls
  obtain rfl : results = returned w'.log := hlog.symm
  have hreturned : (exec step mixedStore twoPasses).map (fun w => returned w.log) =
      some [Str.ofString "a", [], Str.ofString "a", []] := by decide +kernel
  rw [hrun, Option.map_some, Option.some.injEq] at hreturned
  exact ⟨w', hrun, hreturned, hpasses⟩

end RawDish.BlockStore
