import RawDish.Lib.FileSystem

/-!
# Paths by their text

What a file name means when only its text is looked at and every component is taken to name a
directory. A name that a file system resolves means just that (`FileSystem.resolve_eq_lexical`).

Components after a directory are a route from it. In normal form a route goes up some levels and
then down (`Route`).

## Main definitions

* `FileSystem.lexical` : the path that a name means.
* `Route`, `Route.ofNames`, `Route.target` : routes in normal form.

## Main results

* `FileSystem.resolve_eq_lexical` : the resolution in a file system.
* `Route.foldl_enter` : the normal form of a route leads to the same path.
* `Route.target_eq_concat_iff` : the routes that lead into the directory they start from.
-/

namespace RawDish.Lib

namespace FileSystem

/-- The path that the text of a name means. -/
def lexical (cwd : Path) (name : List UInt8) : Path :=
  (name.splitOn slash).foldl enter (if name.head? = some slash then [] else cwd)

theorem walk_eq_foldl {fs : FileSystem} {p q : Path} {names : List (List UInt8)}
    (h : fs.walk p names = some q) : q = names.foldl enter p := by
  induction names generalizing p with
  | nil => exact (Option.some.inj h).symm
  | cons x names ih =>
    cases names with
    | nil => exact (Option.some.inj h).symm
    | cons y names =>
      simp only [walk] at h
      split_ifs at h
      exact ih h

/-- A name that is resolved means what its text says. -/
theorem resolve_eq_lexical {fs : FileSystem} {name : List UInt8} {p : Path}
    (h : fs.resolve name = some p) : p = lexical fs.cwd name := by
  rw [resolve] at h
  split_ifs at h with hnil hhead
  · rw [lexical, if_pos hhead]
    exact walk_eq_foldl h
  · rw [lexical, if_neg hhead]
    exact walk_eq_foldl h

/-- A slash and more text after a name lead on from the path of the name. -/
theorem lexical_append_slash (cwd : Path) {s : List UInt8} (hs : s ≠ []) (t : List UInt8) :
    lexical cwd (s ++ slash :: t) = (t.splitOn slash).foldl enter (lexical cwd s) := by
  have hhead : (s ++ slash :: t).head? = s.head? := List.head?_append_of_ne_nil s hs
  rw [lexical, lexical, splitOn_append_slash, List.foldl_append, hhead]

/-- So does more text after a name that ends in a slash. -/
theorem lexical_append_of_slash (cwd : Path) (a t : List UInt8) :
    lexical cwd (a ++ slash :: t) =
      (t.splitOn slash).foldl enter (lexical cwd (a ++ [slash])) := by
  have hhead : (a ++ slash :: t).head? = (a ++ [slash]).head? := by cases a <;> rfl
  have hend : ∀ p, (([] : List UInt8).splitOn slash).foldl enter p = p := by
    intro p
    simp [enter]
  rw [lexical, lexical, splitOn_append_slash, splitOn_append_slash, List.foldl_append,
    List.foldl_append, hend, hhead]

end FileSystem

/-- From a directory `up` levels up and then `down`. -/
structure Route where
  up : ℕ
  down : Path

namespace Route

open FileSystem

/-- One more component. -/
def enter (r : Route) (name : List UInt8) : Route :=
  if name = [] ∨ name = [dot] then r
  else if name = [dot, dot] then
    if r.down = [] then { r with up := r.up + 1 } else { r with down := r.down.dropLast }
  else { r with down := r.down ++ [name] }

/-- The normal form of a list of components. -/
def ofNames (names : List (List UInt8)) : Route := names.foldl enter ⟨0, []⟩

/-- The end of the route from the directory `d`. There is nothing above the root. -/
def target (r : Route) (d : Path) : Path := d.take (d.length - r.up) ++ r.down

theorem enter_target (r : Route) (d : Path) (name : List UInt8) :
    FileSystem.enter (r.target d) name = (r.enter name).target d := by
  rw [FileSystem.enter, enter]
  split_ifs with hstay hup hdown
  · rfl
  · -- Above the root there is nothing to drop.
    simp only [Route.target, hdown, List.append_nil]
    rw [List.dropLast_eq_take, List.take_take, List.length_take]
    congr 1
    omega
  · rw [Route.target, Route.target, List.dropLast_append_of_ne_nil hdown]
  · rw [Route.target, Route.target, List.append_assoc]

theorem foldl_enter (names : List (List UInt8)) (d : Path) :
    names.foldl FileSystem.enter d = (ofNames names).target d := by
  have hgeneral : ∀ r : Route, names.foldl FileSystem.enter (r.target d) =
      (names.foldl enter r).target d := by
    induction names with
    | nil => exact fun r => rfl
    | cons name names ih =>
      intro r
      rw [List.foldl_cons, List.foldl_cons, enter_target]
      exact ih (r.enter name)
  have hstart : Route.target ⟨0, []⟩ d = d := by simp [Route.target]
  rw [ofNames, ← hgeneral, hstart]

/-- A route leads into the directory it starts from when it comes down again through the directories
that it has left, and then goes down one more level. -/
theorem target_eq_concat_iff (r : Route) (d : Path) :
    (∃ name, r.target d = d ++ [name]) ↔
      r.down ≠ [] ∧ r.down.dropLast = d.drop (d.length - r.up) := by
  have hsplit : d = d.take (d.length - r.up) ++ d.drop (d.length - r.up) :=
    (List.take_append_drop _ d).symm
  have hcancel : ∀ name, r.target d = d ++ [name] ↔
      r.down = d.drop (d.length - r.up) ++ [name] := by
    intro name
    rw [target]
    nth_rewrite 3 [hsplit]
    rw [List.append_assoc, List.append_cancel_left_eq]
  constructor
  · rintro ⟨name, h⟩
    rw [(hcancel name).1 h]
    exact ⟨by simp, List.dropLast_concat⟩
  · rintro ⟨hne, h⟩
    refine ⟨r.down.getLast hne, (hcancel _).2 ?_⟩
    rw [← h, List.dropLast_append_getLast]

end Route

end RawDish.Lib
