import Mathlib

/-!
# A file system

Regular files and directories under their paths, without links. A file name is resolved component by
component; every component but the last has to name a directory. Names are C strings, so they have
no zero byte.

The calls here are the ones that go through. That a system can refuse any call for reasons of its
own is left to the callers of this model.

## Main definitions

* `FileSystem`, `FileSystem.resolve`.
* `FileSystem.creat`, `FileSystem.write`, `FileSystem.read`, `FileSystem.unlink`.
* `FileSystem.entries` : what a directory lists.

## Main results

* `FileSystem.resolve_child` : the name of a file in a directory.
* `FileSystem.SameDirs.resolve` : the resolution depends on the directories only.
-/

namespace RawDish.Lib

/-- The components of a path from the root. -/
abbrev Path := List (List UInt8)

inductive Node
  | reg (bytes : List UInt8)
  | dir
  deriving DecidableEq

/-- `d_type` of a directory entry; `other` stands for the remaining values. -/
inductive FileType
  | reg
  | dir
  | other
  deriving DecidableEq

/-- `struct dirent`. -/
structure Dirent where
  name : List UInt8
  type : FileType
  deriving DecidableEq

structure FileSystem where
  /-- Where names that do not begin with a slash start. -/
  cwd : Path
  /-- The nodes other than the root. -/
  nodes : Std.ExtTreeMap Path Node

namespace FileSystem

/-- The byte `/`. -/
def slash : UInt8 := 47

/-- The byte `.`. -/
def dot : UInt8 := 46

/-- Only the root. -/
def empty : FileSystem := ⟨[], ∅⟩

/-- `mkdir` of a path that is not there. -/
def mkdir (fs : FileSystem) (p : Path) : FileSystem := { fs with nodes := fs.nodes.insert p .dir }

def node (fs : FileSystem) (p : Path) : Option Node :=
  if p = [] then some .dir else fs.nodes[p]?

def IsDir (fs : FileSystem) (p : Path) : Prop := fs.node p = some .dir

instance (fs : FileSystem) (p : Path) : Decidable (fs.IsDir p) :=
  inferInstanceAs (Decidable (_ = _))

/-- From the directory `p` to the node that `name` means there. -/
def enter (p : Path) (name : List UInt8) : Path :=
  if name = [] ∨ name = [dot] then p
  else if name = [dot, dot] then p.dropLast
  else p ++ [name]

/-- Follow the components from `p`, of which all but the last have to lead to directories. -/
def walk (fs : FileSystem) : Path → List (List UInt8) → Option Path
  | p, [] => some p
  | p, [name] => some (enter p name)
  | p, name :: names => if fs.IsDir (enter p name) then walk fs (enter p name) names else none

/-- The path that a file name means. -/
def resolve (fs : FileSystem) (name : List UInt8) : Option Path :=
  if name = [] then none
  else walk fs (if name.head? = some slash then [] else fs.cwd) (name.splitOn slash)

/-- The file `p` with new contents. -/
def put (fs : FileSystem) (p : Path) (bytes : List UInt8) : FileSystem :=
  { fs with nodes := fs.nodes.insert p (.reg bytes) }

/-- Without the file `p`. -/
def erase (fs : FileSystem) (p : Path) : FileSystem := { fs with nodes := fs.nodes.erase p }

/-- `open` with `O_CREAT|O_TRUNC|O_WRONLY`: the file is there and empty. -/
def creat (fs : FileSystem) (name : List UInt8) : Option (Path × FileSystem) :=
  match fs.resolve name with
  | none => none
  | some p => if fs.IsDir p then none else some (p, fs.put p [])

/-- `write` of `n` bytes of `data` at the start of the file `p`. -/
def write (fs : FileSystem) (p : Path) (data : List UInt8) (n : ℕ) : FileSystem :=
  match fs.node p with
  | some (.reg bytes) => fs.put p (data.take n ++ bytes.drop n)
  | _ => fs

/-- The contents of the file that `open` with `O_RDONLY` finds under the name. A directory can be
opened and not be read. -/
def read (fs : FileSystem) (name : List UInt8) : Option (List UInt8) :=
  match (fs.resolve name).bind fs.node with
  | some (.reg bytes) => some bytes
  | _ => none

/-- `unlink`. -/
def unlink (fs : FileSystem) (name : List UInt8) : Option FileSystem :=
  match fs.resolve name with
  | none => none
  | some p =>
    match fs.node p with
    | some (.reg _) => some { fs with nodes := fs.nodes.erase p }
    | _ => none

def Node.type : Node → FileType
  | .reg _ => .reg
  | .dir => .dir

/-- The entries of the directory `d`. -/
def entries (fs : FileSystem) (d : Path) : List Dirent :=
  ⟨[dot], .dir⟩ :: ⟨[dot, dot], .dir⟩ :: fs.nodes.toList.filterMap fun (p, node) =>
    match p.getLast? with
    | some name => if p.dropLast = d then some ⟨name, Node.type node⟩ else none
    | none => none

/-! ### Resolution -/

theorem walk_concat (fs : FileSystem) (p : Path) {names : List (List UInt8)} (hnames : names ≠ [])
    (name : List UInt8) : fs.walk p (names ++ [name]) =
      (fs.walk p names).bind fun d => if fs.IsDir d then some (enter d name) else none := by
  induction names generalizing p with
  | nil => exact absurd rfl hnames
  | cons x names ih =>
    cases names with
    | nil => simp [walk]
    | cons y names =>
      simp only [List.cons_append, walk]
      split_ifs
      · exact ih _ (List.cons_ne_nil y names)
      · rfl

theorem splitOn_ne_nil (name : List UInt8) : name.splitOn slash ≠ [] := List.splitOnP_ne_nil _ _

theorem splitOn_append_slash (a b : List UInt8) :
    (a ++ slash :: b).splitOn slash = a.splitOn slash ++ b.splitOn slash :=
  List.splitOnP_append_cons a b (beq_self_eq_true slash)

theorem splitOn_of_notMem {name : List UInt8} (h : slash ∉ name) :
    name.splitOn slash = [name] :=
  List.splitOnP_eq_singleton fun _ hx => beq_eq_false_iff_ne.2 fun heq => h (heq ▸ hx)

/-- The name of a file in the directory that `s` names. -/
theorem resolve_child {fs : FileSystem} {s name : List UInt8} {d : Path}
    (hs : fs.resolve s = some d) (hd : fs.IsDir d) (hname : slash ∉ name) :
    fs.resolve (s ++ slash :: name) = some (enter d name) := by
  have hnil : s ≠ [] := by
    rintro rfl
    simp [resolve] at hs
  have hhead : (s ++ slash :: name).head? = s.head? := List.head?_append_of_ne_nil s hnil
  rw [resolve, if_neg hnil] at hs
  rw [resolve, if_neg (by simp), hhead, splitOn_append_slash, splitOn_of_notMem hname,
    walk_concat _ _ (splitOn_ne_nil s), hs, Option.bind_some, if_pos hd]

theorem resolve_child_of_slash {fs : FileSystem} {a name : List UInt8} {d : Path}
    (hs : fs.resolve (a ++ [slash]) = some d) (hname : slash ∉ name) :
    fs.resolve (a ++ slash :: name) = some (enter d name) := by
  have hhead : (a ++ slash :: name).head? = (a ++ [slash]).head? := by cases a <;> rfl
  rw [resolve, if_neg (by simp), splitOn_append_slash, List.splitOn_nil,
    walk_concat _ _ (splitOn_ne_nil a), Option.bind_eq_some_iff] at hs
  obtain ⟨e, he, hed⟩ := hs
  split_ifs at hed with hdir
  have hde : e = d := by simpa [enter] using hed
  rw [resolve, if_neg (by simp), hhead, splitOn_append_slash, splitOn_of_notMem hname,
    walk_concat _ _ (splitOn_ne_nil a), he, Option.bind_some, if_pos hdir, hde]

/-- The two have the same directories. -/
def SameDirs (fs fs' : FileSystem) : Prop := fs'.cwd = fs.cwd ∧ ∀ p, fs'.IsDir p ↔ fs.IsDir p

theorem SameDirs.trans {fs fs' fs'' : FileSystem} (h : SameDirs fs fs') (h' : SameDirs fs' fs'') :
    SameDirs fs fs'' :=
  ⟨h'.1.trans h.1, fun p => (h'.2 p).trans (h.2 p)⟩

theorem SameDirs.resolve {fs fs' : FileSystem} (h : SameDirs fs fs') (name : List UInt8) :
    fs'.resolve name = fs.resolve name := by
  have hwalk : ∀ (names : List (List UInt8)) (p : Path), fs'.walk p names = fs.walk p names := by
    intro names
    induction names with
    | nil => exact fun p => rfl
    | cons x names ih =>
      intro p
      cases names with
      | nil => rfl
      | cons y names => simp only [walk, h.2, ih]
  simp only [FileSystem.resolve, h.1, hwalk]

/-! ### The calls -/

theorem node_put {fs : FileSystem} {p : Path} (hp : p ≠ []) (bytes : List UInt8) (q : Path) :
    (fs.put p bytes).node q = if p = q then some (.reg bytes) else fs.node q := by
  simp only [node, put, Std.ExtTreeMap.getElem?_insert, Std.compare_eq_iff_eq]
  split_ifs with h1 h2
  · exact absurd (h2.trans h1) hp
  · rfl
  · rfl
  · rfl

theorem ne_nil_of_not_isDir {fs : FileSystem} {p : Path} (hp : ¬ fs.IsDir p) : p ≠ [] := by
  rintro rfl
  exact hp rfl

theorem sameDirs_put {fs : FileSystem} {p : Path} (hp : ¬ fs.IsDir p) (bytes : List UInt8) :
    SameDirs fs (fs.put p bytes) := by
  refine ⟨rfl, fun q => ?_⟩
  rw [IsDir, IsDir, node_put (ne_nil_of_not_isDir hp)]
  split_ifs with heq
  · subst heq
    exact ⟨fun h => by simp at h, fun h => absurd h hp⟩
  · rfl

theorem put_put (fs : FileSystem) (p : Path) (bytes bytes' : List UInt8) :
    (fs.put p bytes).put p bytes' = fs.put p bytes' := by
  refine congrArg (FileSystem.mk fs.cwd) (Std.ExtTreeMap.ext_getElem? fun q => ?_)
  simp only [put, Std.ExtTreeMap.getElem?_insert]
  split_ifs <;> rfl

/-- New contents are no change exactly when they are the old ones. -/
theorem put_eq_self_iff {fs : FileSystem} {p : Path} (hp : p ≠ []) (bytes : List UInt8) :
    fs.put p bytes = fs ↔ fs.node p = some (.reg bytes) := by
  constructor
  · intro h
    rw [← h, node_put hp, if_pos rfl]
  · intro h
    rw [node, if_neg hp] at h
    refine congrArg (FileSystem.mk fs.cwd) (Std.ExtTreeMap.ext_getElem? fun q => ?_)
    rw [Std.ExtTreeMap.getElem?_insert]
    split_ifs with heq
    · rw [← Std.LawfulEqOrd.eq_of_compare heq, h]
    · rfl

theorem write_put {fs : FileSystem} {p : Path} (hp : p ≠ []) (bytes data : List UInt8) (n : ℕ) :
    (fs.put p bytes).write p data n = fs.put p (data.take n ++ bytes.drop n) := by
  rw [write, node_put hp, if_pos rfl]
  exact put_put fs p bytes _

/-- What `creat` does. -/
theorem creat_eq_some {fs fs' : FileSystem} {name : List UInt8} {p : Path} :
    fs.creat name = some (p, fs') ↔
      fs.resolve name = some p ∧ ¬ fs.IsDir p ∧ fs' = fs.put p [] := by
  rw [creat]
  cases fs.resolve name with
  | none => simp
  | some q =>
    simp only [Option.some.injEq]
    split_ifs with hq
    · constructor
      · simp
      · rintro ⟨rfl, hp, -⟩
        exact absurd hq hp
    · constructor
      · rintro h
        obtain ⟨rfl, rfl⟩ := Prod.mk.inj (Option.some.inj h)
        exact ⟨rfl, hq, rfl⟩
      · rintro ⟨rfl, -, rfl⟩
        rfl

/-- What `unlink` does. -/
theorem unlink_eq_some {fs fs' : FileSystem} {name : List UInt8} :
    fs.unlink name = some fs' ↔ ∃ p bytes, fs.resolve name = some p ∧
      fs.node p = some (.reg bytes) ∧ fs' = fs.erase p := by
  rw [unlink]
  cases fs.resolve name with
  | none => simp
  | some q =>
    cases hq : fs.node q with
    | none => simp [hq]
    | some node =>
      cases node with
      | reg bytes => simp [hq, erase, eq_comm]
      | dir => simp [hq]

theorem node_erase {fs : FileSystem} {p : Path} (q : Path) (hq : q ≠ p) :
    (fs.erase p).node q = fs.node q := by
  simp only [node, erase, Std.ExtTreeMap.getElem?_erase, Std.compare_eq_iff_eq]
  split_ifs with h1 h2
  · rfl
  · exact absurd h2.symm hq
  · rfl

theorem node_erase_self {fs : FileSystem} {p : Path} (hp : p ≠ []) :
    (fs.erase p).node p = none := by
  simp [node, erase, hp]

theorem sameDirs_erase {fs : FileSystem} {p : Path} (hp : ¬ fs.IsDir p) :
    SameDirs fs (fs.erase p) := by
  refine ⟨rfl, fun q => ?_⟩
  by_cases hq : q = p
  · subst hq
    refine ⟨fun h => absurd h ?_, fun h => absurd h hp⟩
    simp [IsDir, node, erase, ne_nil_of_not_isDir hp]
  · rw [IsDir, IsDir, node_erase q hq]

/-- The entries of a directory besides `.` and `..`. -/
theorem entries_eq (fs : FileSystem) (d : Path) :
    ∃ rest, fs.entries d = ⟨[dot], .dir⟩ :: ⟨[dot, dot], .dir⟩ :: rest ∧
      rest.Pairwise (fun e e' => e.name ≠ e'.name) ∧
      ∀ name, ⟨name, .reg⟩ ∈ rest ↔ ∃ bytes, fs.node (d ++ [name]) = some (.reg bytes) := by
  refine ⟨_, rfl, ?_, fun name => ?_⟩
  · refine Std.ExtTreeMap.distinct_keys_toList.filterMap _ fun a b hab e he e' he' hname => ?_
    have hpath : ∀ (c : Path × Node) (x : Dirent), (match c.1.getLast? with
        | some name => if c.1.dropLast = d then some ⟨name, Node.type c.2⟩ else none
        | none => none) = some x → c.1 = d ++ [x.name] := by
      rintro ⟨p, node⟩ x hx
      cases hlast : p.getLast? with
      | none => simp [hlast] at hx
      | some name =>
        simp only [hlast, Option.ite_none_right_eq_some, Option.some.injEq] at hx
        obtain ⟨hd, rfl⟩ := hx
        obtain ⟨init, rfl⟩ := List.getLast?_eq_some_iff.1 hlast
        rw [List.dropLast_concat] at hd
        rw [hd]
    have heq : a.1 = b.1 := by rw [hpath a e he, hpath b e' he', hname]
    exact hab (Std.compare_eq_iff_eq.2 heq)
  · rw [List.mem_filterMap]
    constructor
    · rintro ⟨⟨p, node⟩, hmem, hp⟩
      rw [Std.ExtTreeMap.mem_toList_iff_getElem?_eq_some] at hmem
      cases hlast : p.getLast? with
      | none => simp [hlast] at hp
      | some last =>
        obtain ⟨init, rfl⟩ := List.getLast?_eq_some_iff.1 hlast
        simp only [hlast, List.dropLast_concat, Option.ite_none_right_eq_some,
          Option.some.injEq, Dirent.mk.injEq] at hp
        obtain ⟨rfl, rfl, htype⟩ := hp
        cases node with
        | dir => simp [Node.type] at htype
        | reg bytes => exact ⟨bytes, by rw [FileSystem.node, if_neg (by simp), hmem]⟩
    · rintro ⟨bytes, h⟩
      rw [FileSystem.node, if_neg (by simp), ← Std.ExtTreeMap.mem_toList_iff_getElem?_eq_some] at h
      exact ⟨_, h, by simp [Node.type]⟩

/-- A directory lists its regular files. -/
theorem mem_entries {fs : FileSystem} {d : Path} {name bytes : List UInt8}
    (h : fs.node (d ++ [name]) = some (.reg bytes)) : ⟨name, .reg⟩ ∈ fs.entries d := by
  obtain ⟨rest, heq, -, hmem⟩ := fs.entries_eq d
  rw [heq]
  exact List.mem_cons_of_mem _ (List.mem_cons_of_mem _ ((hmem name).2 ⟨bytes, h⟩))

end FileSystem

end RawDish.Lib
