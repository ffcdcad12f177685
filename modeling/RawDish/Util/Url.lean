import RawDish.Basic
import RawDish.Lib.Decimal
import RawDish.Lib.Substring

/-!
# URLs

`URL::parse` cuts a string at the first `://`, what follows at the first slash, and what is before
the slash, the authority, at its last colon. `toString` puts the parts together again. It writes the
default scheme, and it leaves out the port 80 of `http`. Scheme, authority and path can be read off
the printed form, since the cuts find the same places again. Host and port can be, too, when the
host has no colon. A host with a colon makes a URL invalid, and if the port is left out after it,
the printed form is that of another URL.

The port is read with `atoi`, which stops at the first byte that is no digit and converts a number
of 64 bits to 32 bits.

## Main definitions

* `URL`, `URL.parse`, `URL.toString`, `URL.eq`.
* `URL.Mimics` : two strings with different URLs and the same printed form.
* `URL.Grammar` : the ports that should be valid.
* `URL.Lenient` : the texts that are taken for a port and are no numeral of one.

## Main results

* `URL.eq_sound_iff` : when equal URLs have the same parts.
* `URL.parse_toString` : valid URLs are read as they were printed.
* `URL.valid_iff_grammar_iff` : when a URL is valid exactly by its grammar.

## References

* `src/util/url.h`, lines 47–121.
* `src/util/url_test.cc`, lines 45–97.
-/

namespace RawDish.Util

open Lib

@[ext]
structure URL where
  scheme : Str
  host : Str
  port : Int32
  path : Str
  valid : Bool
  deriving DecidableEq

namespace URL

/-- The byte `:`. -/
def colon : UInt8 := 58

/-- The byte `/`. -/
def slash : UInt8 := 47

/-- `://`. -/
def separator : Str := [colon, slash, slash]

/-- The default scheme. -/
def http : Str := .ofString "http"

/-- `atoi(s.c_str())`. -/
def atoi (s : Str) : Int32 := Int32.ofInt (strtol s.cStr)

/-- Whether a port is a valid one. -/
def inRange (port : Int32) : Bool := !(port ≤ 0 || port > 65535)

/-- The scheme of a string and what follows it. -/
def cutScheme (s : Str) : Str × Str :=
  match find separator s with
  | some i => (s.take i, s.drop (i + 3))
  | none => (http, s)

/-- What is before the first slash, and the path after it. -/
def cutPath (s : Str) : Str × Str :=
  match find [slash] s with
  | some i => (s.take i, s.drop (i + 1))
  | none => (s, [])

/-- The host, the port after the last colon, and whether it is a valid one. -/
def cutPort (s : Str) : Str × Int32 × Bool :=
  match rfind colon s with
  | some i => (s.take i, atoi (s.drop (i + 1)), inRange (atoi (s.drop (i + 1))))
  | none => (s, 80, true)

/-- The URL of the parts of a string. -/
def ofParts (scheme authority path : Str) : URL :=
  let (host, port, valid) := cutPort authority
  { scheme, host, port, path, valid := valid && (find [colon] host).isNone }

/-- The part of a string before the first `://`, or the default. -/
def schemeOf (s : Str) : Str := (cutScheme s).1

/-- The part of a string after the first `://`, or all of it, up to the first slash. -/
def authority (s : Str) : Str := (cutPath (cutScheme s).2).1

/-- The part after that slash. -/
def pathOf (s : Str) : Str := (cutPath (cutScheme s).2).2

/-- `parse`. -/
def parse (s : Str) : URL :=
  let (scheme, rest) := cutScheme s
  let (authority, path) := cutPath rest
  ofParts scheme authority path

/-- The host and the port as they are printed. -/
def printedAuthority (u : URL) : Str :=
  u.host ++ if u.scheme = http ∧ u.port = 80 then [] else colon :: decimal u.port.toInt

/-- `toString`. -/
def toString (u : URL) : Str :=
  u.scheme ++ separator ++ (u.printedAuthority ++ slash :: u.path)

/-- `operator==`. -/
def eq (u v : URL) : Bool := u.toString = v.toString

/-! ### The cuts -/

theorem cutScheme_append {scheme : Str} (h : First separator scheme) (rest : Str) :
    cutScheme (scheme ++ separator ++ rest) = (scheme, rest) := by
  have htake : (scheme ++ separator ++ rest).take scheme.length = scheme := by
    rw [List.append_assoc, List.take_left]
  have hdrop : (scheme ++ separator ++ rest).drop (scheme.length + 3) = rest :=
    List.drop_left' (by rw [List.length_append]; rfl)
  simp only [cutScheme, find_append h, htake, hdrop]

/-- No scheme has a `://` that begins in it. -/
theorem first_cutScheme (s : Str) : First separator (cutScheme s).1 := by
  rw [cutScheme]
  cases hi : find separator s with
  | none => exact (by decide : First separator http)
  | some i =>
    obtain ⟨pre, post, rfl, rfl, hfirst⟩ := find_eq_some hi
    simp only [List.append_assoc, List.take_left]
    exact hfirst

theorem cutPath_append {a : Str} (h : slash ∉ a) (path : Str) :
    cutPath (a ++ slash :: path) = (a, path) := by
  simp only [cutPath, find_singleton_append h, List.take_left, drop_append_cons]

theorem slash_notMem_cutPath (s : Str) : slash ∉ (cutPath s).1 := by
  rw [cutPath]
  cases hi : find [slash] s with
  | none => exact find_singleton_eq_none_iff.1 hi
  | some i =>
    obtain ⟨pre, post, rfl, rfl, hfirst⟩ := find_eq_some hi
    simp only [List.append_assoc, List.take_left]
    exact first_singleton.1 hfirst

theorem cutPort_of_notMem {a : Str} (h : colon ∉ a) : cutPort a = (a, 80, true) := by
  rw [cutPort, rfind_eq_none_iff.2 h]

theorem cutPort_append (host : Str) {n : Str} (h : colon ∉ n) :
    cutPort (host ++ colon :: n) = (host, atoi n, inRange (atoi n)) := by
  simp only [cutPort, rfind_append h, List.take_left, drop_append_cons]

/-- An authority has no port, or one after its last colon. -/
theorem authority_cases (a : Str) :
    colon ∉ a ∨ ∃ host n, a = host ++ colon :: n ∧ colon ∉ n := by
  by_cases h : colon ∈ a
  · exact Or.inr (exists_last h)
  · exact Or.inl h

/-! ### The URL of the parts -/

section Parts

variable (scheme path : Str) {host n a : Str}

theorem ofParts_of_notMem (h : colon ∉ a) :
    ofParts scheme a path = ⟨scheme, a, 80, path, true⟩ := by
  simp [ofParts, cutPort_of_notMem h, find_singleton_eq_none_iff.2 h]

theorem ofParts_append (h : colon ∉ n) :
    ofParts scheme (host ++ colon :: n) path =
      ⟨scheme, host, atoi n, path, inRange (atoi n) && (find [colon] host).isNone⟩ := by
  simp only [ofParts, cutPort_append host h]

/-- A URL is valid by its host and its port. -/
theorem valid_ofParts (a : Str) :
    (ofParts scheme a path).valid = (inRange (ofParts scheme a path).port &&
      (find [colon] (ofParts scheme a path).host).isNone) := by
  rcases authority_cases a with h | ⟨host, n, rfl, h⟩
  · rw [ofParts_of_notMem scheme path h, find_singleton_eq_none_iff.2 h]
    rfl
  · rw [ofParts_append scheme path h]

/-- The bytes of the host are some of the authority. -/
theorem mem_of_mem_host {c : UInt8} (h : c ∈ (ofParts scheme a path).host) : c ∈ a := by
  rcases authority_cases a with hnot | ⟨host, n, rfl, hnot⟩
  · rwa [ofParts_of_notMem scheme path hnot] at h
  · rw [ofParts_append scheme path hnot] at h
    exact List.mem_append_left _ h

end Parts

theorem parse_eq (s : Str) : parse s = ofParts (schemeOf s) (authority s) (pathOf s) := rfl

/-- The URL of a string that is put together. -/
theorem parse_append {scheme a : Str} (hscheme : First separator scheme) (ha : slash ∉ a)
    (path : Str) :
    parse (scheme ++ separator ++ (a ++ slash :: path)) = ofParts scheme a path := by
  rw [parse_eq, schemeOf, authority, pathOf, cutScheme_append hscheme, cutPath_append ha]

/-! ### Printing and parsing -/

theorem notMem_decimal {c : UInt8} (hminus : c ≠ minus) (hdigit : ¬ isDigit c) (z : ℤ) :
    c ∉ decimal z := fun hc => (mem_decimal hc).elim hminus hdigit

theorem colon_notMem_decimal (z : ℤ) : colon ∉ decimal z :=
  notMem_decimal (by decide) (by decide) z

/-- `atoi` reads a port as it was printed. -/
theorem atoi_decimal (port : Int32) : atoi (decimal port.toInt) = port := by
  have hcStr : Str.cStr (decimal port.toInt) = decimal port.toInt := by
    rw [Str.cStr, List.takeWhile_eq_self_iff]
    intro c hc
    have hne : c ≠ 0 := by
      rintro rfl
      exact notMem_decimal (by decide) (by decide) _ hc
    simpa using hne
  have hle := port.le_toInt
  have hlt := port.toInt_lt
  rw [atoi, hcStr, strtol_decimal (by omega) (by omega), Int32.ofInt_toInt]

theorem slash_notMem_printedAuthority (s : Str) : slash ∉ (parse s).printedAuthority := by
  rw [printedAuthority, List.mem_append, not_or]
  refine ⟨fun hmem => slash_notMem_cutPath _ (mem_of_mem_host _ _ hmem), ?_⟩
  split_ifs
  · exact List.not_mem_nil
  · rw [List.mem_cons, not_or]
    exact ⟨by decide, notMem_decimal (by decide) (by decide) _⟩

/-- What is read from the printed form. -/
theorem parse_toString_eq (s : Str) :
    parse (parse s).toString =
      ofParts (parse s).scheme (parse s).printedAuthority (parse s).path :=
  parse_append (first_cutScheme s) (slash_notMem_printedAuthority s) _

theorem valid_parse (s : Str) :
    (parse s).valid = (inRange (parse s).port && (find [colon] (parse s).host).isNone) :=
  valid_ofParts _ _ _

/-- The printed form of a valid URL is that of its parts. -/
theorem ofParts_printedAuthority {u : URL} (hcolon : colon ∉ u.host) (hport : inRange u.port)
    (hvalid : u.valid = true) : ofParts u.scheme u.printedAuthority u.path = u := by
  have hnone : (find [colon] u.host).isNone = true := by
    rw [find_singleton_eq_none_iff.2 hcolon]
    rfl
  rw [printedAuthority]
  split_ifs with h
  · rw [List.append_nil, ofParts_of_notMem _ _ hcolon, ← h.2, ← hvalid]
  · rw [ofParts_append _ _ (colon_notMem_decimal _), atoi_decimal, hport, hnone, Bool.and_self,
      ← hvalid]

/-- **Printing and parsing.** A valid URL is read from its printed form as it was, and the printed
form is printed again. -/
theorem parse_toString (s : Str) (h : (parse s).valid = true) :
    parse (parse s).toString = parse s ∧ (parse (parse s).toString).valid = true ∧
      (parse (parse s).toString).toString = (parse s).toString := by
  have hboth := h
  rw [valid_parse, Bool.and_eq_true, Option.isNone_iff_eq_none, find_singleton_eq_none_iff] at hboth
  have hsame : parse (parse s).toString = parse s := by
    rw [parse_toString_eq]
    exact ofParts_printedAuthority hboth.2 hboth.1 h
  rw [hsame]
  exact ⟨rfl, h, rfl⟩

/-- A slash in the scheme, an empty host, and a port with a blank, zeros and text. -/
theorem parse_toString_blank :
    (parse (.ofString "a/b://: 0443x/c://d:e")).valid = true ∧
      (parse (.ofString "a/b://: 0443x/c://d:e")).port = 443 ∧
      (parse (.ofString "a/b://: 0443x/c://d:e")).toString = .ofString "a/b://:443/c://d:e" ∧
      parse (.ofString "a/b://:443/c://d:e") = parse (.ofString "a/b://: 0443x/c://d:e") := by
  have hvalid : (parse (.ofString "a/b://: 0443x/c://d:e")).valid = true := by decide +kernel
  have hprint : (parse (.ofString "a/b://: 0443x/c://d:e")).toString =
      .ofString "a/b://:443/c://d:e" := by decide +kernel
  refine ⟨hvalid, by decide +kernel, hprint, ?_⟩
  rw [← hprint]
  exact (parse_toString _ hvalid).1

/-! ### Equality -/

/-- The string `s` is printed like `t` although it has another host and another port: both have the
scheme `http` and the same path, `s` has the port 80 after the printed authority of `t`, and `t` has
another port. -/
def Mimics (s t : Str) : Prop :=
  schemeOf s = http ∧ schemeOf t = http ∧ pathOf s = pathOf t ∧
    ∃ host n m, authority s = host ++ colon :: decimal (atoi m).toInt ++ colon :: n ∧
      authority t = host ++ colon :: m ∧ colon ∉ n ∧ colon ∉ m ∧ atoi n = 80 ∧ atoi m ≠ 80

/-- Scheme, authority and path can be read off the printed form. -/
theorem eq_iff (s t : Str) :
    eq (parse s) (parse t) = true ↔ (parse s).scheme = (parse t).scheme ∧
      (parse s).printedAuthority = (parse t).printedAuthority ∧
        (parse s).path = (parse t).path := by
  rw [eq, decide_eq_true_iff]
  constructor
  · intro h
    obtain ⟨hscheme, hrest⟩ := (first_cutScheme s).unique (first_cutScheme t) h
    exact ⟨hscheme, first_unique (slash_notMem_printedAuthority s)
      (slash_notMem_printedAuthority t) hrest⟩
  · rintro ⟨hscheme, hauthority, hpath⟩
    rw [toString, toString, hscheme, hauthority, hpath]

/-- The two strings have the same printed form. -/
theorem Mimics.eq_and_port_ne {s t : Str} (h : Mimics s t) :
    (parse s).toString = (parse t).toString ∧ (parse s).port ≠ (parse t).port := by
  obtain ⟨hs, ht, hpath, host, n, m, has, hat, hn, hm, hport, hne⟩ := h
  rw [parse_eq s, parse_eq t, has, hat, ofParts_append _ _ hn, ofParts_append _ _ hm]
  refine ⟨?_, by rw [hport]; exact hne.symm⟩
  simp only [toString, printedAuthority, hs, ht, hpath, hport, hne, and_self, and_false, if_true,
    if_false, List.append_nil]

/-- A URL without a port in its printed form has that of another one: its host ends in the port of
the other. -/
theorem mimics_of_printedAuthority {s t : Str} (hscheme : (parse s).scheme = (parse t).scheme)
    (hpath : (parse s).path = (parse t).path) (hs : (parse s).scheme = http ∧ (parse s).port = 80)
    (ht : ¬ ((parse t).scheme = http ∧ (parse t).port = 80))
    (hhost : (parse s).host = (parse t).host ++ colon :: decimal (parse t).port.toInt) :
    Mimics s t := by
  have hport : (parse t).port ≠ 80 := fun h80 => ht ⟨hscheme ▸ hs.1, h80⟩
  have hmem : colon ∈ (parse s).host := by
    rw [hhost]
    exact List.mem_append_right _ List.mem_cons_self
  refine ⟨hs.1, hscheme.symm.trans hs.1, hpath, ?_⟩
  rcases authority_cases (authority t) with hnot | ⟨host, m, hat, hm⟩
  · rw [parse_eq t, ofParts_of_notMem _ _ hnot] at hport
    exact absurd rfl hport
  rcases authority_cases (authority s) with hnot | ⟨host', n, has, hn⟩
  · exact absurd (mem_of_mem_host _ _ hmem) hnot
  rw [parse_eq t, hat, ofParts_append _ _ hm] at hhost hport
  rw [parse_eq s, has, ofParts_append _ _ hn] at hhost hs
  exact ⟨host, n, m, by rw [has, ← hhost], hat, hn, hm, hs.2, hport⟩

/-- **Equality of URLs.** Two strings whose URLs compare as equal have the same scheme, host, port,
path and validity if and only if neither of them is printed like the other with the port 80 left
out. -/
theorem eq_sound_iff (s t : Str) :
    (eq (parse s) (parse t) = true → parse s = parse t) ↔ ¬ Mimics s t ∧ ¬ Mimics t s := by
  constructor
  · intro h
    refine ⟨fun hm => ?_, fun hm => ?_⟩
    · obtain ⟨hprint, hport⟩ := hm.eq_and_port_ne
      exact hport (congrArg port (h (decide_eq_true hprint)))
    · obtain ⟨hprint, hport⟩ := hm.eq_and_port_ne
      exact hport (congrArg port (h (decide_eq_true hprint.symm))).symm
  · rintro ⟨hst, hts⟩ heq
    obtain ⟨hscheme, hauthority, hpath⟩ := (eq_iff s t).1 heq
    obtain ⟨hhost, hport⟩ : (parse s).host = (parse t).host ∧ (parse s).port = (parse t).port := by
      simp only [printedAuthority] at hauthority
      split_ifs at hauthority with hs ht ht
      · rw [List.append_nil, List.append_nil] at hauthority
        exact ⟨hauthority, hs.2.trans ht.2.symm⟩
      · rw [List.append_nil] at hauthority
        exact absurd (mimics_of_printedAuthority hscheme hpath hs ht hauthority) hst
      · rw [List.append_nil] at hauthority
        exact absurd (mimics_of_printedAuthority hscheme.symm hpath.symm ht hs hauthority.symm) hts
      · obtain ⟨hhost, hdecimal⟩ :=
          last_unique (colon_notMem_decimal _) (colon_notMem_decimal _) hauthority
        exact ⟨hhost, Int32.toInt_inj.1 (decimal_injective hdecimal)⟩
    refine URL.ext hscheme hhost hport hpath ?_
    rw [valid_parse, valid_parse, hhost, hport]

/-- An invalid URL is equal to a valid one with another host and port. -/
theorem eq_sound_fails_port80 :
    ¬ (eq (parse (.ofString "http://a:90:80")) (parse (.ofString "http://a:90")) = true →
      parse (.ofString "http://a:90:80") = parse (.ofString "http://a:90")) ∧
    (parse (.ofString "http://a:90:80")).valid = false ∧
    (parse (.ofString "http://a:90")).valid = true := by decide +kernel

/-! ### Validity -/

/-- A numeral of a port. -/
def IsPort (n : Str) : Prop :=
  n ≠ [] ∧ (∀ c ∈ n, isDigit c) ∧ 1 ≤ numeralValue n ∧ numeralValue n ≤ 65535

instance (n : Str) : Decidable (IsPort n) := inferInstanceAs (Decidable (_ ∧ _ ∧ _ ∧ _))

/-- The authority has no colon, or one with the numeral of a port after it. -/
def Grammar (s : Str) : Prop :=
  colon ∉ authority s ∨ ∃ host n, authority s = host ++ colon :: n ∧ colon ∉ host ∧ colon ∉ n ∧
    IsPort n

/-- A text with digits in it whose value, taken as a number of 64 bits, has a port in its lower 32
bits, and that is not a numeral below `2^32`: there is white space or a sign in front of the digits,
or something after them, or their value is too large. -/
def Lenient (n : Str) : Prop :=
  ∃ blanks sign digits rest, Reads n blanks sign digits rest ∧
    1 ≤ clamp (signed sign digits) % 2 ^ 32 ∧ clamp (signed sign digits) % 2 ^ 32 ≤ 65535 ∧
    (blanks ≠ [] ∨ sign ≠ [] ∨ rest ≠ [] ∨ 2 ^ 32 ≤ numeralValue digits)

section Port

variable {n blanks sign digits rest : Str}

/-- The conversion to `int` keeps the lower 32 bits. -/
theorem inRange_ofInt (z : ℤ) :
    inRange (Int32.ofInt z) = true ↔ 1 ≤ z % 2 ^ 32 ∧ z % 2 ^ 32 ≤ 65535 := by
  have hpos : Int32.ofInt z ≤ 0 ↔ z.bmod (2 ^ 32) ≤ 0 := by
    rw [Int32.le_iff_toInt_le, Int32.toInt_ofInt]
    rfl
  have hbig : Int32.ofInt z > 65535 ↔ 65535 < z.bmod (2 ^ 32) := by
    rw [gt_iff_lt, Int32.lt_iff_toInt_lt, Int32.toInt_ofInt]
    rfl
  rw [inRange, Bool.not_eq_true', Bool.or_eq_false_iff, decide_eq_false_iff_not,
    decide_eq_false_iff_not, hpos, hbig, Int.bmod_def]
  split_ifs <;> omega

/-- A number is read up to a zero byte, which is not part of one. -/
theorem reads_cStr (h : Reads n blanks sign digits rest) :
    Reads n.cStr blanks sign digits (Str.cStr rest) := by
  have hblanks : ∀ c ∈ blanks, decide (c ≠ 0) = true := by
    intro c hc
    refine decide_eq_true ?_
    rintro rfl
    exact absurd (h.isSpace 0 hc) (by decide)
  have hsign : ∀ c ∈ sign, decide (c ≠ 0) = true := by
    intro c hc
    rcases h.sign_cases with rfl | rfl | rfl
    · exact absurd hc List.not_mem_nil
    · exact List.mem_singleton.1 hc ▸ rfl
    · exact List.mem_singleton.1 hc ▸ rfl
  have hdigits : ∀ c ∈ digits, decide (c ≠ 0) = true := by
    intro c hc
    refine decide_eq_true ?_
    rintro rfl
    exact absurd (h.isDigit 0 hc) (by decide)
  refine ⟨?_, h.isSpace, h.sign_cases, h.isDigit, h.digits_ne, fun c hc => ?_⟩
  · rw [h.eq, Str.cStr, List.takeWhile_append_of_pos hblanks, List.takeWhile_append_of_pos hsign,
      List.takeWhile_append_of_pos hdigits, Str.cStr]
  · cases rest with
    | nil => exact absurd hc (by simp [Str.cStr])
    | cons x rest =>
      rw [Str.cStr, List.takeWhile_cons] at hc
      split_ifs at hc
      · exact h.rest_head c hc
      · exact absurd hc (by simp)

theorem reads_of_cStr (h : Reads n.cStr blanks sign digits rest) :
    Reads n blanks sign digits (rest ++ n.dropWhile fun c => decide (c ≠ 0)) := by
  refine ⟨?_, h.isSpace, h.sign_cases, h.isDigit, h.digits_ne, fun c hc => ?_⟩
  · calc n = n.cStr ++ n.dropWhile (fun c => decide (c ≠ 0)) :=
          List.takeWhile_append_dropWhile.symm
      _ = _ := by
        rw [h.eq]
        simp only [List.append_assoc]
  · cases hrest : rest with
    | nil =>
      have hzero := List.head?_dropWhile_not (fun c : UInt8 => decide (c ≠ 0)) n
      rw [hrest, List.nil_append] at hc
      rw [Option.mem_def.1 hc] at hzero
      have hc0 : c = 0 := by simpa using hzero
      rw [hc0]
      decide
    | cons x rest' =>
      refine h.rest_head c ?_
      rw [hrest] at hc ⊢
      exact hc

theorem inRange_of_reads (h : Reads n blanks sign digits rest) :
    inRange (atoi n) = true ↔
      1 ≤ clamp (signed sign digits) % 2 ^ 32 ∧ clamp (signed sign digits) % 2 ^ 32 ≤ 65535 := by
  rw [atoi, strtol_of_reads (reads_cStr h), inRange_ofInt]

theorem reads_of_isPort (h : IsPort n) : Reads n [] [] n [] :=
  ⟨by simp, fun _ hc => absurd hc List.not_mem_nil, Or.inl rfl, h.2.1, h.1,
    fun _ hc => absurd hc (by simp)⟩

/-- A value of a plain numeral below `2^63`. -/
theorem clamp_signed_nil (hlt : numeralValue digits < 2 ^ 63) :
    clamp (signed [] digits) = numeralValue digits := by
  rw [signed, if_neg (List.cons_ne_nil _ _).symm, clamp]
  omega

theorem inRange_of_isPort (h : IsPort n) : inRange (atoi n) = true := by
  obtain ⟨-, -, hpos, hle⟩ := id h
  rw [inRange_of_reads (reads_of_isPort h), clamp_signed_nil (by omega)]
  omega

theorem Lenient.inRange (h : Lenient n) : inRange (atoi n) = true := by
  obtain ⟨blanks, sign, digits, rest, hreads, hpos, hle, -⟩ := h
  exact (inRange_of_reads hreads).2 ⟨hpos, hle⟩

/-- The numeral of a port has nothing around its digits. -/
theorem Lenient.not_isPort (h : Lenient n) : ¬ IsPort n := by
  obtain ⟨blanks, sign, digits, rest, hreads, -, -, hlenient⟩ := h
  rintro ⟨-, hall, -, hle⟩
  rw [hreads.eq] at hall hle
  have hblanks : blanks = [] := by
    refine List.eq_nil_iff_forall_not_mem.2 fun c hc => ?_
    exact not_isSpace_of_isDigit (hall c (List.mem_append_left _ hc)) (hreads.isSpace c hc)
  subst hblanks
  have hsign : sign = [] := by
    rcases hreads.sign_cases with rfl | rfl | rfl
    · rfl
    · exact absurd (hall plus List.mem_cons_self) (by decide)
    · exact absurd (hall minus List.mem_cons_self) (by decide)
  subst hsign
  have hrest : rest = [] := by
    cases rest with
    | nil => rfl
    | cons c rest => exact absurd (hall c (by simp)) (hreads.rest_head c rfl)
  subst hrest
  simp only [List.nil_append, List.append_nil] at hle
  rcases hlenient with h | h | h | h
  · exact h rfl
  · exact h rfl
  · exact h rfl
  · omega

/-- What is taken for a port and is no numeral of one. -/
theorem lenient_of_inRange (hrange : inRange (atoi n) = true) (hport : ¬ IsPort n) :
    Lenient n := by
  have hne : strtol n.cStr ≠ 0 := by
    intro hzero
    rw [atoi, hzero] at hrange
    exact absurd hrange (by decide)
  obtain ⟨blanks, sign, digits, rest, hcStr⟩ := exists_reads hne
  have hreads := reads_of_cStr hcStr
  obtain ⟨hpos, hle⟩ := (inRange_of_reads hreads).1 hrange
  refine ⟨blanks, sign, digits, _, hreads, hpos, hle, ?_⟩
  by_contra hnot
  simp only [not_or, not_not, ne_eq, Nat.not_le] at hnot
  obtain ⟨rfl, rfl, hrest, hlt⟩ := hnot
  -- The text is its digits, and their value is the number that was read.
  have heq := hreads.eq
  rw [hrest, List.append_nil, List.nil_append, List.nil_append] at heq
  rw [clamp_signed_nil (by omega)] at hpos hle
  rw [heq] at hport
  exact hport ⟨hreads.digits_ne, hreads.isDigit, by omega, by omega⟩

theorem inRange_iff_isPort_iff : (inRange (atoi n) = true ↔ IsPort n) ↔ ¬ Lenient n := by
  constructor
  · intro h hlenient
    exact hlenient.not_isPort (h.1 hlenient.inRange)
  · intro h
    refine ⟨fun hrange => ?_, inRange_of_isPort⟩
    by_contra hport
    exact h (lenient_of_inRange hrange hport)

end Port

section Authority

variable {s host n : Str} (ha : authority s = host ++ colon :: n) (hn : colon ∉ n)

include ha hn

/-- The colon of the port is the last one of the authority. -/
theorem exists_port_iff {P : Str → Prop} :
    (∃ host' n', authority s = host' ++ colon :: n' ∧ colon ∉ host' ∧ colon ∉ n' ∧ P n') ↔
      colon ∉ host ∧ P n := by
  constructor
  · rintro ⟨host', n', ha', hhost', hn', hP⟩
    obtain ⟨rfl, rfl⟩ := last_unique hn hn' (ha.symm.trans ha')
    exact ⟨hhost', hP⟩
  · rintro ⟨hhost, hP⟩
    exact ⟨host, n, ha, hhost, hn, hP⟩

theorem grammar_iff : Grammar s ↔ colon ∉ host ∧ IsPort n := by
  have hcolon : ¬ colon ∉ authority s := by
    rw [ha, not_not]
    exact List.mem_append_right _ List.mem_cons_self
  rw [Grammar, or_iff_right hcolon, exists_port_iff ha hn]

theorem valid_iff : (parse s).valid = true ↔ colon ∉ host ∧ inRange (atoi n) = true := by
  rw [parse_eq, ha, ofParts_append _ _ hn, Bool.and_eq_true, Option.isNone_iff_eq_none,
    find_singleton_eq_none_iff, and_comm]

end Authority

/-- **Validity of URLs.** A URL is valid exactly when its authority has no colon, or has one and the
numeral of a port after it, if and only if the authority does not have one colon and a text after it
that is taken for a port without being the numeral of one. -/
theorem valid_iff_grammar_iff (s : Str) :
    ((parse s).valid = true ↔ Grammar s) ↔
      ¬ ∃ host n, authority s = host ++ colon :: n ∧ colon ∉ host ∧ colon ∉ n ∧ Lenient n := by
  rcases authority_cases (authority s) with hnot | ⟨host, n, ha, hn⟩
  · refine iff_of_true (iff_of_true ?_ (Or.inl hnot)) ?_
    · rw [parse_eq, ofParts_of_notMem _ _ hnot]
    · rintro ⟨host, n, ha, -⟩
      rw [ha] at hnot
      exact hnot (List.mem_append_right _ List.mem_cons_self)
  · rw [valid_iff ha hn, grammar_iff ha hn, exists_port_iff ha hn]
    by_cases hhost : colon ∈ host
    · exact iff_of_true (iff_of_false (fun h => h.1 hhost) fun h => h.1 hhost) fun h => h.1 hhost
    · simp only [hhost, not_false_eq_true, true_and]
      exact inRange_iff_isPort_iff

/-- The port of the first URL has text after it, and that of the second one is `2^32 + 80`. -/
theorem valid_iff_grammar_fails :
    ¬ ((parse (.ofString "http://a:80abc")).valid = true ↔ Grammar (.ofString "http://a:80abc")) ∧
    ¬ ((parse (.ofString "http://a:4294967376")).valid = true ↔
      Grammar (.ofString "http://a:4294967376")) := by
  have htext : authority (.ofString "http://a:80abc") =
      Str.ofString "a" ++ colon :: Str.ofString "80abc" := by decide +kernel
  have hlarge : authority (.ofString "http://a:4294967376") =
      Str.ofString "a" ++ colon :: Str.ofString "4294967376" := by decide +kernel
  rw [grammar_iff htext (by decide), grammar_iff hlarge (by decide)]
  decide +kernel

end URL

end RawDish.Util
