import Mathlib.Data.List.Basic
import Mathlib.Tactic.SplitIfs
import Mathlib.Tactic.Ring

/-!
# The msgpack format

Booleans, unsigned numbers, strings of bytes and vectors of bytes in the msgpack format. An object
begins with a head that says what it is and holds a number: the value of a number, the length of a
string or of an array. A reader takes an object from the front of a list of bytes and returns the
rest; it fails on an object that is not complete.

Strings and arrays of 2³² elements and more have no form in the format. They are given one here with
the byte that the format leaves unused, so that the format is total.

## Main definitions

* `Head`, `Head.pack`, `Head.parse`.
* `Value`, `Value.pack`, `Value.parse`.

## Main results

* `Value.parse_pack` : an object is read as it was written, whatever follows it.
* `Value.parse_append` : what follows an object does not matter to its reader.
-/

namespace RawDish.Lib

/-! ### Numbers -/

/-- The `k` bytes of a number, the highest first. -/
def toBE : ℕ → ℕ → List UInt8
  | 0, _ => []
  | k + 1, n => UInt8.ofNat (n / 256 ^ k) :: toBE k (n % 256 ^ k)

/-- The number in a list of bytes. -/
def ofBE (bytes : List UInt8) : ℕ := bytes.foldl (fun n b => n * 256 + b.toNat) 0

/-- The first `n` bytes. -/
def readBytes (n : ℕ) (l : List UInt8) : Option (List UInt8 × List UInt8) :=
  if n ≤ l.length then some (l.take n, l.drop n) else none

/-- The number in the first `k` bytes. -/
def readBE (k : ℕ) (l : List UInt8) : Option (ℕ × List UInt8) :=
  (readBytes k l).map fun r => (ofBE r.1, r.2)

/-- A number of any size: as many ones, and a zero. -/
def unary (n : ℕ) : List UInt8 := List.replicate n 1 ++ [0]

def readUnary : List UInt8 → Option (ℕ × List UInt8)
  | [] => none
  | b :: l => if b = 0 then some (0, l) else (readUnary l).map fun r => (r.1 + 1, r.2)

@[simp] theorem length_toBE (k n : ℕ) : (toBE k n).length = k := by
  induction k generalizing n with
  | zero => rfl
  | succ k ih => rw [toBE, List.length_cons, ih]

theorem ofBE_toBE {k n : ℕ} (h : n < 256 ^ k) : ofBE (toBE k n) = n := by
  have hfold : ∀ (k n a : ℕ), n < 256 ^ k →
      (toBE k n).foldl (fun n b => n * 256 + b.toNat) a = a * 256 ^ k + n := by
    intro k
    induction k with
    | zero =>
      intro n a hn
      simp at hn
      simp [toBE, hn]
    | succ k ih =>
      intro n a hn
      have hpos : 0 < 256 ^ k := Nat.pow_pos (by omega)
      have hdiv : n / 256 ^ k < 256 := by
        rw [Nat.div_lt_iff_lt_mul hpos]
        rwa [Nat.pow_succ, Nat.mul_comm] at hn
      have hsplit := Nat.div_add_mod n (256 ^ k)
      rw [toBE, List.foldl_cons, ih _ _ (Nat.mod_lt _ hpos), UInt8.toNat_ofNat',
        Nat.mod_eq_of_lt hdiv]
      calc (a * 256 + n / 256 ^ k) * 256 ^ k + n % 256 ^ k
          = a * (256 * 256 ^ k) + (256 ^ k * (n / 256 ^ k) + n % 256 ^ k) := by ring
        _ = a * 256 ^ (k + 1) + n := by rw [hsplit]; ring
  rw [ofBE, hfold k n 0 h]
  omega

theorem readBytes_append (s rest : List UInt8) :
    readBytes s.length (s ++ rest) = some (s, rest) := by
  rw [readBytes, if_pos (by simp), List.take_left, List.drop_left]

theorem readBytes_extend {n : ℕ} {l s r : List UInt8} (h : readBytes n l = some (s, r))
    (q : List UInt8) : readBytes n (l ++ q) = some (s, r ++ q) := by
  rw [readBytes] at h
  split_ifs at h with hle
  obtain ⟨rfl, rfl⟩ := Prod.mk.inj (Option.some.inj h)
  rw [readBytes, if_pos (by rw [List.length_append]; omega), List.take_append_of_le_length hle,
    List.drop_append_of_le_length hle]

theorem readBE_toBE {k n : ℕ} (h : n < 256 ^ k) (rest : List UInt8) :
    readBE k (toBE k n ++ rest) = some (n, rest) := by
  have hread := readBytes_append (toBE k n) rest
  rw [length_toBE] at hread
  rw [readBE, hread, Option.map_some, ofBE_toBE h]

theorem readBE_extend {k n : ℕ} {l r : List UInt8} (h : readBE k l = some (n, r))
    (q : List UInt8) : readBE k (l ++ q) = some (n, r ++ q) := by
  obtain ⟨⟨s, r'⟩, hread, heq⟩ := Option.map_eq_some_iff.1 h
  obtain ⟨rfl, rfl⟩ := Prod.mk.inj heq
  rw [readBE, readBytes_extend hread q, Option.map_some]

theorem readUnary_unary (n : ℕ) (rest : List UInt8) :
    readUnary (unary n ++ rest) = some (n, rest) := by
  induction n with
  | zero => simp [unary, readUnary]
  | succ n ih =>
    rw [unary, List.replicate_succ, List.cons_append, List.cons_append, readUnary,
      if_neg (by decide)]
    rw [unary] at ih
    rw [ih, Option.map_some]

theorem readUnary_extend {n : ℕ} {l r : List UInt8} (h : readUnary l = some (n, r))
    (q : List UInt8) : readUnary (l ++ q) = some (n, r ++ q) := by
  induction l generalizing n with
  | nil => simp [readUnary] at h
  | cons b l ih =>
    rw [readUnary] at h
    rw [List.cons_append, readUnary]
    split_ifs at h ⊢
    · obtain ⟨rfl, rfl⟩ := Prod.mk.inj (Option.some.inj h)
      rfl
    · obtain ⟨⟨n', r'⟩, hread, heq⟩ := Option.map_eq_some_iff.1 h
      obtain ⟨rfl, rfl⟩ := Prod.mk.inj heq
      rw [ih hread, Option.map_some]

/-! A reader leaves less than there was. -/

theorem length_of_readBytes {n : ℕ} {l s r : List UInt8} (h : readBytes n l = some (s, r)) :
    r.length ≤ l.length := by
  rw [readBytes] at h
  split_ifs at h
  obtain ⟨-, rfl⟩ := Prod.mk.inj (Option.some.inj h)
  rw [List.length_drop]
  omega

theorem length_of_readBE {k n : ℕ} {l r : List UInt8} (h : readBE k l = some (n, r)) :
    r.length ≤ l.length := by
  obtain ⟨⟨s, r'⟩, hread, heq⟩ := Option.map_eq_some_iff.1 h
  obtain ⟨-, rfl⟩ := Prod.mk.inj heq
  exact length_of_readBytes hread

theorem length_of_readUnary {n : ℕ} {l r : List UInt8} (h : readUnary l = some (n, r)) :
    r.length ≤ l.length := by
  induction l generalizing n with
  | nil => simp [readUnary] at h
  | cons b l ih =>
    rw [readUnary] at h
    rw [List.length_cons]
    split_ifs at h
    · obtain ⟨-, rfl⟩ := Prod.mk.inj (Option.some.inj h)
      omega
    · obtain ⟨⟨n', r'⟩, hread, heq⟩ := Option.map_eq_some_iff.1 h
      obtain ⟨-, rfl⟩ := Prod.mk.inj heq
      exact (ih hread).trans (Nat.le_succ _)

/-! ### Heads -/

/-- The beginning of an object: a boolean, a number, or the length of a string or of an array. -/
inductive Head
  | bool (b : Bool)
  | uint (n : ℕ)
  | raw (length : ℕ)
  | array (length : ℕ)
  deriving DecidableEq

namespace Head

/-- The shortest form of a head. -/
def pack : Head → List UInt8
  | .bool b => [if b then 0xc3 else 0xc2]
  | .uint n =>
    if n < 2 ^ 7 then [UInt8.ofNat n]
    else if n < 256 ^ 1 then 0xcc :: toBE 1 n
    else if n < 256 ^ 2 then 0xcd :: toBE 2 n
    else if n < 256 ^ 4 then 0xce :: toBE 4 n
    else if n < 256 ^ 8 then 0xcf :: toBE 8 n
    else 0xc1 :: 0 :: unary n
  | .raw n =>
    if n < 32 then [UInt8.ofNat (0xa0 + n)]
    else if n < 256 ^ 2 then 0xda :: toBE 2 n
    else if n < 256 ^ 4 then 0xdb :: toBE 4 n
    else 0xc1 :: 1 :: unary n
  | .array n =>
    if n < 16 then [UInt8.ofNat (0x90 + n)]
    else if n < 256 ^ 2 then 0xdc :: toBE 2 n
    else if n < 256 ^ 4 then 0xdd :: toBE 4 n
    else 0xc1 :: 2 :: unary n

/-- What the first byte of a head says: it is the head, or a number follows in some bytes or in the
form of any size. Other objects of the format are not read. -/
inductive Form
  | done (head : Head)
  | number (k : ℕ) (head : ℕ → Head)
  | any
  | unread

def form (b : UInt8) : Form :=
  if b.toNat < 0x80 then .done (.uint b.toNat)
  else if b.toNat < 0x90 then .unread
  else if b.toNat < 0xa0 then .done (.array (b.toNat - 0x90))
  else if b.toNat < 0xc0 then .done (.raw (b.toNat - 0xa0))
  else match b with
    | 0xc1 => .any
    | 0xc2 => .done (.bool false)
    | 0xc3 => .done (.bool true)
    | 0xcc => .number 1 .uint
    | 0xcd => .number 2 .uint
    | 0xce => .number 4 .uint
    | 0xcf => .number 8 .uint
    | 0xda => .number 2 .raw
    | 0xdb => .number 4 .raw
    | 0xdc => .number 2 .array
    | 0xdd => .number 4 .array
    | _ => .unread

/-- A head with a number of any size. -/
def parseAny : List UInt8 → Option (Head × List UInt8)
  | [] => none
  | b :: l => (readUnary l).map fun r =>
      (if b = 0 then .uint r.1 else if b = 1 then .raw r.1 else .array r.1, r.2)

def parse : List UInt8 → Option (Head × List UInt8)
  | [] => none
  | b :: l =>
    match form b with
    | .done head => some (head, l)
    | .number k head => (readBE k l).map fun r => (head r.1, r.2)
    | .any => parseAny l
    | .unread => none

theorem form_uint {n : ℕ} (h : n < 2 ^ 7) : form (UInt8.ofNat n) = .done (.uint n) := by
  have hn : (UInt8.ofNat n).toNat = n := by
    rw [UInt8.toNat_ofNat', Nat.mod_eq_of_lt (by omega)]
  unfold form
  rw [hn, if_pos (by omega)]

theorem form_raw {n : ℕ} (h : n < 32) : form (UInt8.ofNat (0xa0 + n)) = .done (.raw n) := by
  have hn : (UInt8.ofNat (0xa0 + n)).toNat = 0xa0 + n := by
    rw [UInt8.toNat_ofNat', Nat.mod_eq_of_lt (by omega)]
  unfold form
  rw [hn, if_neg (by omega), if_neg (by omega), if_neg (by omega), if_pos (by omega),
    Nat.add_sub_cancel_left]

theorem form_array {n : ℕ} (h : n < 16) : form (UInt8.ofNat (0x90 + n)) = .done (.array n) := by
  have hn : (UInt8.ofNat (0x90 + n)).toNat = 0x90 + n := by
    rw [UInt8.toNat_ofNat', Nat.mod_eq_of_lt (by omega)]
  unfold form
  rw [hn, if_neg (by omega), if_neg (by omega), if_pos (by omega), Nat.add_sub_cancel_left]

private theorem parse_done {b : UInt8} {head : Head} (h : form b = .done head) (l : List UInt8) :
    parse (b :: l) = some (head, l) := by
  simp only [parse, h]

private theorem parse_number {b : UInt8} {k n : ℕ} {head : ℕ → Head}
    (h : form b = .number k head) (hn : n < 256 ^ k) (rest : List UInt8) :
    parse (b :: toBE k n ++ rest) = some (head n, rest) := by
  simp only [List.cons_append, parse, h, readBE_toBE hn, Option.map_some]

private theorem parse_any (b : UInt8) (n : ℕ) (rest : List UInt8) :
    parse (0xc1 :: b :: unary n ++ rest) =
      some (if b = 0 then .uint n else if b = 1 then .raw n else .array n, rest) := by
  change parseAny (b :: (unary n ++ rest)) = _
  rw [parseAny, readUnary_unary, Option.map_some]

/-- A head is read as it was written. -/
theorem parse_pack (h : Head) (rest : List UInt8) : parse (h.pack ++ rest) = some (h, rest) := by
  cases h with
  | bool b => cases b <;> rfl
  | uint n =>
    rw [pack]
    split_ifs with h₁ h₂ h₃ h₄ h₅
    · exact parse_done (form_uint h₁) rest
    · exact parse_number rfl h₂ rest
    · exact parse_number rfl h₃ rest
    · exact parse_number rfl h₄ rest
    · exact parse_number rfl h₅ rest
    · exact parse_any 0 n rest
  | raw n =>
    rw [pack]
    split_ifs with h₁ h₂ h₃
    · exact parse_done (form_raw h₁) rest
    · exact parse_number rfl h₂ rest
    · exact parse_number rfl h₃ rest
    · exact parse_any 1 n rest
  | array n =>
    rw [pack]
    split_ifs with h₁ h₂ h₃
    · exact parse_done (form_array h₁) rest
    · exact parse_number rfl h₂ rest
    · exact parse_number rfl h₃ rest
    · exact parse_any 2 n rest

/-- What follows a head does not matter to its reader. -/
theorem parse_append {l r : List UInt8} {h : Head} (hl : parse l = some (h, r)) (q : List UInt8) :
    parse (l ++ q) = some (h, r ++ q) := by
  cases l with
  | nil => simp [parse] at hl
  | cons b l =>
    rw [List.cons_append]
    simp only [parse] at hl ⊢
    cases hform : form b with
    | done head =>
      rw [hform] at hl
      obtain ⟨rfl, rfl⟩ := Prod.mk.inj (Option.some.inj hl)
      rfl
    | number k head =>
      rw [hform] at hl
      obtain ⟨⟨n, r'⟩, hread, heq⟩ := Option.map_eq_some_iff.1 hl
      obtain ⟨rfl, rfl⟩ := Prod.mk.inj heq
      simp only [readBE_extend hread q, Option.map_some]
    | any =>
      rw [hform] at hl
      cases l with
      | nil => simp [parseAny] at hl
      | cons b' l =>
        obtain ⟨⟨n, r'⟩, hread, heq⟩ := Option.map_eq_some_iff.1 hl
        obtain ⟨rfl, rfl⟩ := Prod.mk.inj heq
        simp only [List.cons_append, parseAny, readUnary_extend hread q, Option.map_some]
    | unread =>
      rw [hform] at hl
      simp at hl

theorem length_of_parse {l r : List UInt8} {h : Head} (hl : parse l = some (h, r)) :
    r.length < l.length := by
  cases l with
  | nil => simp [parse] at hl
  | cons b l =>
    rw [List.length_cons, Nat.lt_succ_iff]
    simp only [parse] at hl
    split at hl
    · obtain ⟨-, rfl⟩ := Prod.mk.inj (Option.some.inj hl)
      exact le_rfl
    · obtain ⟨⟨n, r'⟩, hread, heq⟩ := Option.map_eq_some_iff.1 hl
      obtain ⟨-, rfl⟩ := Prod.mk.inj heq
      exact length_of_readBE hread
    · cases l with
      | nil => simp [parseAny] at hl
      | cons b' l =>
        obtain ⟨⟨n, r'⟩, hread, heq⟩ := Option.map_eq_some_iff.1 hl
        obtain ⟨-, rfl⟩ := Prod.mk.inj heq
        exact (length_of_readUnary hread).trans (Nat.le_succ _)
    · simp at hl

end Head

/-! ### Values -/

/-- A value: `bytes` is a vector of bytes, which is an array of numbers. -/
inductive Value
  | bool (b : Bool)
  | uint64 (n : UInt64)
  | string (s : List UInt8)
  | bytes (v : List UInt8)
  deriving DecidableEq

namespace Value

/-- `n` numbers that are bytes. -/
def parseBytes : ℕ → List UInt8 → Option (List UInt8 × List UInt8)
  | 0, l => some ([], l)
  | n + 1, l =>
    match Head.parse l with
    | some (.uint b, l) => (parseBytes n l).map fun r => (UInt8.ofNat b :: r.1, r.2)
    | _ => none

def pack : Value → List UInt8
  | .bool b => Head.pack (.bool b)
  | .uint64 n => Head.pack (.uint n.toNat)
  | .string s => Head.pack (.raw s.length) ++ s
  | .bytes v => Head.pack (.array v.length) ++ v.flatMap fun b => Head.pack (.uint b.toNat)

/-- The rest of a value after its head. -/
def parseTail : Head → List UInt8 → Option (Value × List UInt8)
  | .bool b, l => some (.bool b, l)
  | .uint n, l => some (.uint64 (UInt64.ofNat n), l)
  | .raw n, l => (readBytes n l).map fun r => (.string r.1, r.2)
  | .array n, l => (parseBytes n l).map fun r => (.bytes r.1, r.2)

def parse (l : List UInt8) : Option (Value × List UInt8) :=
  (Head.parse l).bind fun r => parseTail r.1 r.2

theorem parseBytes_flatMap (v rest : List UInt8) :
    parseBytes v.length ((v.flatMap fun b => Head.pack (.uint b.toNat)) ++ rest) =
      some (v, rest) := by
  induction v with
  | nil => rfl
  | cons b v ih =>
    rw [List.flatMap_cons, List.append_assoc, List.length_cons, parseBytes, Head.parse_pack]
    simp only [ih, Option.map_some, UInt8.ofNat_toNat]

theorem parseBytes_append {n : ℕ} {l v r : List UInt8} (h : parseBytes n l = some (v, r))
    (q : List UInt8) : parseBytes n (l ++ q) = some (v, r ++ q) := by
  induction n generalizing l v with
  | zero =>
    obtain ⟨rfl, rfl⟩ := Prod.mk.inj (Option.some.inj h)
    rfl
  | succ n ih =>
    rw [parseBytes] at h
    split at h
    · rename_i b l' hhead
      obtain ⟨⟨v', r'⟩, hread, heq⟩ := Option.map_eq_some_iff.1 h
      obtain ⟨rfl, rfl⟩ := Prod.mk.inj heq
      rw [parseBytes, Head.parse_append hhead]
      simp only [ih hread, Option.map_some]
    · simp at h

/-- An object is read as it was written. -/
theorem parse_pack (v : Value) (rest : List UInt8) : parse (v.pack ++ rest) = some (v, rest) := by
  cases v with
  | bool b => rw [parse, pack, Head.parse_pack, Option.bind_some, parseTail]
  | uint64 n =>
    rw [parse, pack, Head.parse_pack, Option.bind_some, parseTail, UInt64.ofNat_toNat]
  | string s =>
    rw [parse, pack, List.append_assoc, Head.parse_pack, Option.bind_some, parseTail,
      readBytes_append, Option.map_some]
  | bytes v =>
    rw [parse, pack, List.append_assoc, Head.parse_pack, Option.bind_some, parseTail,
      parseBytes_flatMap, Option.map_some]

/-- What follows an object does not matter to its reader. -/
theorem parse_append {l r : List UInt8} {v : Value} (h : parse l = some (v, r)) (q : List UInt8) :
    parse (l ++ q) = some (v, r ++ q) := by
  obtain ⟨⟨head, l'⟩, hhead, htail⟩ := Option.bind_eq_some_iff.1 h
  rw [parse, Head.parse_append hhead, Option.bind_some]
  cases head with
  | bool b =>
    obtain ⟨rfl, rfl⟩ := Prod.mk.inj (Option.some.inj htail)
    rfl
  | uint n =>
    obtain ⟨rfl, rfl⟩ := Prod.mk.inj (Option.some.inj htail)
    rfl
  | raw n =>
    obtain ⟨⟨s, r'⟩, hread, heq⟩ := Option.map_eq_some_iff.1 htail
    obtain ⟨rfl, rfl⟩ := Prod.mk.inj heq
    rw [parseTail, readBytes_extend hread, Option.map_some]
  | array n =>
    obtain ⟨⟨v', r'⟩, hread, heq⟩ := Option.map_eq_some_iff.1 htail
    obtain ⟨rfl, rfl⟩ := Prod.mk.inj heq
    rw [parseTail, parseBytes_append hread, Option.map_some]

/-- `n` values. -/
def parseList : ℕ → List UInt8 → Option (List Value × List UInt8)
  | 0, l => some ([], l)
  | n + 1, l => (parse l).bind fun r => (parseList n r.2).map fun rs => (r.1 :: rs.1, rs.2)

theorem parseList_flatMap (vs : List Value) (rest : List UInt8) :
    parseList vs.length (vs.flatMap pack ++ rest) = some (vs, rest) := by
  induction vs with
  | nil => rfl
  | cons v vs ih =>
    rw [List.flatMap_cons, List.append_assoc, List.length_cons, parseList, parse_pack,
      Option.bind_some, ih, Option.map_some]

theorem parseList_append {n : ℕ} {l r : List UInt8} {vs : List Value}
    (h : parseList n l = some (vs, r)) (q : List UInt8) :
    parseList n (l ++ q) = some (vs, r ++ q) := by
  induction n generalizing l vs with
  | zero =>
    obtain ⟨rfl, rfl⟩ := Prod.mk.inj (Option.some.inj h)
    rfl
  | succ n ih =>
    obtain ⟨⟨v, l'⟩, hv, htail⟩ := Option.bind_eq_some_iff.1 h
    obtain ⟨⟨vs', r'⟩, hread, heq⟩ := Option.map_eq_some_iff.1 htail
    obtain ⟨rfl, rfl⟩ := Prod.mk.inj heq
    rw [parseList, parse_append hv, Option.bind_some, ih hread, Option.map_some]

theorem length_of_parseBytes {n : ℕ} {l v r : List UInt8} (h : parseBytes n l = some (v, r)) :
    r.length ≤ l.length := by
  induction n generalizing l v with
  | zero =>
    obtain ⟨-, rfl⟩ := Prod.mk.inj (Option.some.inj h)
    exact le_rfl
  | succ n ih =>
    rw [parseBytes] at h
    split at h
    · rename_i b l' hhead
      obtain ⟨⟨v', r'⟩, hread, heq⟩ := Option.map_eq_some_iff.1 h
      obtain ⟨-, rfl⟩ := Prod.mk.inj heq
      exact (ih hread).trans (Head.length_of_parse hhead).le
    · simp at h

theorem length_of_parse {l r : List UInt8} {v : Value} (h : parse l = some (v, r)) :
    r.length < l.length := by
  obtain ⟨⟨head, l'⟩, hhead, htail⟩ := Option.bind_eq_some_iff.1 h
  refine Nat.lt_of_le_of_lt ?_ (Head.length_of_parse hhead)
  cases head with
  | bool b =>
    obtain ⟨-, rfl⟩ := Prod.mk.inj (Option.some.inj htail)
    exact le_rfl
  | uint n =>
    obtain ⟨-, rfl⟩ := Prod.mk.inj (Option.some.inj htail)
    exact le_rfl
  | raw n =>
    obtain ⟨⟨s, r'⟩, hread, heq⟩ := Option.map_eq_some_iff.1 htail
    obtain ⟨-, rfl⟩ := Prod.mk.inj heq
    exact length_of_readBytes hread
  | array n =>
    obtain ⟨⟨v', r'⟩, hread, heq⟩ := Option.map_eq_some_iff.1 htail
    obtain ⟨-, rfl⟩ := Prod.mk.inj heq
    exact length_of_parseBytes hread

theorem length_of_parseList {n : ℕ} {l r : List UInt8} {vs : List Value}
    (h : parseList n l = some (vs, r)) : r.length ≤ l.length := by
  induction n generalizing l vs with
  | zero =>
    obtain ⟨-, rfl⟩ := Prod.mk.inj (Option.some.inj h)
    exact le_rfl
  | succ n ih =>
    obtain ⟨⟨v, l'⟩, hv, htail⟩ := Option.bind_eq_some_iff.1 h
    obtain ⟨⟨vs', r'⟩, hread, heq⟩ := Option.map_eq_some_iff.1 htail
    obtain ⟨-, rfl⟩ := Prod.mk.inj heq
    exact (ih hread).trans (length_of_parse hv).le

end Value

end RawDish.Lib
