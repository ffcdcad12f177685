import Mathlib.Algebra.Order.Ring.Int
import Mathlib.Data.List.Basic
import Mathlib.Data.List.TakeWhile
import Mathlib.Tactic.SplitIfs

/-!
# Decimal numerals in bytes

`decimal` is how `printf` writes a number with `%d`, and `strtol` how the C library reads one in
base ten: it skips white space, takes a sign if there is one and then the digits up to the first
byte that is none. What follows is left alone, and a value that does not fit into 64 bits becomes
the nearest one that does.

## Main definitions

* `numeralValue` : the value of a sequence of digits.
* `decimal`, `strtol`.
* `Reads` : the parts of a text that is read as a number.

## Main results

* `numeralValue_natDecimal` : the digits of a number have its value.
* `strtol_of_reads` : the value of a text from its parts.
* `exists_reads` : the parts of a text with a value other than zero.
-/

namespace RawDish.Lib

/-- The bytes `0` to `9`. -/
def isDigit (c : UInt8) : Bool := 48 ≤ c && c ≤ 57

/-- `isspace`: the blank and the bytes from the tabulator to the carriage return. -/
def isSpace (c : UInt8) : Bool := c.toNat == 32 || (9 ≤ c.toNat && c.toNat ≤ 13)

/-- The byte `+`. -/
def plus : UInt8 := 43

/-- The byte `-`. -/
def minus : UInt8 := 45

/-- The value of a sequence of digits. -/
def numeralValue (digits : List UInt8) : ℕ :=
  digits.foldl (fun v c => 10 * v + (c.toNat - 48)) 0

/-- The digits of a number. -/
def natDecimal (n : ℕ) : List UInt8 := (Nat.toDigits 10 n).map fun c => UInt8.ofNat c.toNat

/-- A number as `%d` writes it. -/
def decimal (z : ℤ) : List UInt8 :=
  if z < 0 then minus :: natDecimal z.natAbs else natDecimal z.natAbs

/-- The value of the digits at the front of a text, after a sign. -/
def signedValue : List UInt8 → ℤ
  | [] => 0
  | c :: s =>
    if c = minus then -numeralValue (s.takeWhile isDigit)
    else if c = plus then numeralValue (s.takeWhile isDigit)
    else numeralValue ((c :: s).takeWhile isDigit)

/-- The nearest number of 64 bits. -/
def clamp (z : ℤ) : ℤ := max (-2 ^ 63) (min z (2 ^ 63 - 1))

/-- `strtol` in base ten. -/
def strtol (s : List UInt8) : ℤ := clamp (signedValue (s.dropWhile isSpace))

/-- The text is white space, a sign or none, digits, and something that does not begin with a
digit. -/
structure Reads (s blanks sign digits rest : List UInt8) : Prop where
  eq : s = blanks ++ (sign ++ (digits ++ rest))
  isSpace : ∀ c ∈ blanks, isSpace c
  sign_cases : sign = [] ∨ sign = [plus] ∨ sign = [minus]
  isDigit : ∀ c ∈ digits, isDigit c
  digits_ne : digits ≠ []
  rest_head : ∀ c ∈ rest.head?, ¬ Lib.isDigit c

/-- The value of digits after a sign. -/
def signed (sign digits : List UInt8) : ℤ :=
  if sign = [minus] then -numeralValue digits else numeralValue digits

/-! ### Digits -/

theorem isDigit_iff {c : UInt8} : isDigit c ↔ 48 ≤ c.toNat ∧ c.toNat ≤ 57 := by
  simp only [isDigit, Bool.and_eq_true, decide_eq_true_eq, UInt8.le_iff_toNat_le]
  rfl

theorem natDecimal_ne_nil (n : ℕ) : natDecimal n ≠ [] := by
  rw [natDecimal, ne_eq, List.map_eq_nil_iff]
  exact Nat.toDigits_ne_nil

theorem toNat_of_mem_toDigits {n : ℕ} {c : Char} (hc : c ∈ Nat.toDigits 10 n) :
    48 ≤ c.toNat ∧ c.toNat ≤ 57 := by
  have hdigit : c.isDigit := Nat.isDigit_of_mem_toDigits (by omega) (by omega) hc
  simp only [Char.isDigit, Bool.and_eq_true, decide_eq_true_eq, ge_iff_le,
    UInt32.le_iff_toNat_le] at hdigit
  exact hdigit

/-- The byte of a digit. -/
theorem toNat_ofNat_digit {n : ℕ} {c : Char} (hc : c ∈ Nat.toDigits 10 n) :
    (UInt8.ofNat c.toNat).toNat = c.toNat := by
  obtain ⟨-, hle⟩ := toNat_of_mem_toDigits hc
  rw [UInt8.toNat_ofNat', Nat.mod_eq_of_lt (by omega)]

theorem isDigit_of_mem_natDecimal {n : ℕ} {c : UInt8} (h : c ∈ natDecimal n) : isDigit c := by
  obtain ⟨d, hd, rfl⟩ := List.mem_map.1 h
  rw [isDigit_iff, toNat_ofNat_digit hd]
  exact toNat_of_mem_toDigits hd

/-- The digits of a number have its value. -/
theorem numeralValue_natDecimal (n : ℕ) : numeralValue (natDecimal n) = n := by
  have hchars : numeralValue (natDecimal n) = Nat.ofDigitChars 10 (Nat.toDigits 10 n) 0 := by
    rw [numeralValue, natDecimal, List.foldl_map, Nat.ofDigitChars_eq_foldl]
    refine List.foldl_ext _ _ _ fun v c hc => ?_
    rw [toNat_ofNat_digit hc]
    rfl
  rw [hchars, Nat.ofDigitChars_ten_toDigits]

theorem natDecimal_injective : Function.Injective natDecimal := fun n m h => by
  rw [← numeralValue_natDecimal n, h, numeralValue_natDecimal]

/-- A numeral of digits that is followed by no digit is read to its end. -/
theorem takeWhile_isDigit {digits rest : List UInt8} (hdigits : ∀ c ∈ digits, isDigit c)
    (hrest : ∀ c ∈ rest.head?, ¬ isDigit c) : (digits ++ rest).takeWhile isDigit = digits := by
  have hnil : rest.takeWhile isDigit = [] := by
    cases rest with
    | nil => rfl
    | cons c rest => rw [List.takeWhile_cons, if_neg (hrest c rfl)]
  rw [List.takeWhile_append_of_pos hdigits, hnil, List.append_nil]

/-! ### Numbers -/

theorem not_isSpace_of_isDigit {c : UInt8} (h : isDigit c) : ¬ isSpace c := by
  rw [isDigit_iff] at h
  simp only [isSpace, Bool.or_eq_true, beq_iff_eq, Bool.and_eq_true, decide_eq_true_eq]
  omega

theorem not_sign_of_isDigit {c : UInt8} (h : isDigit c) : c ≠ minus ∧ c ≠ plus := by
  constructor
  · rintro rfl
    exact absurd h (by decide)
  · rintro rfl
    exact absurd h (by decide)

namespace Reads

variable {s blanks sign digits rest : List UInt8}

/-- White space ends where the sign or the digits begin. -/
theorem dropWhile_eq (h : Reads s blanks sign digits rest) :
    s.dropWhile Lib.isSpace = sign ++ (digits ++ rest) := by
  obtain ⟨d, ds, hd⟩ := List.exists_cons_of_ne_nil h.digits_ne
  have hhead : ¬ Lib.isSpace d := not_isSpace_of_isDigit (h.isDigit d (hd ▸ List.mem_cons_self))
  rw [h.eq, List.dropWhile_append_of_pos h.isSpace, hd]
  rcases h.sign_cases with rfl | rfl | rfl
  · rw [List.nil_append, List.cons_append, List.dropWhile_cons, if_neg hhead]
  · rw [List.singleton_append, List.dropWhile_cons, if_neg (by decide)]
  · rw [List.singleton_append, List.dropWhile_cons, if_neg (by decide)]

/-- The value of the text after the white space. -/
theorem signedValue_eq (h : Reads s blanks sign digits rest) :
    signedValue (sign ++ (digits ++ rest)) = signed sign digits := by
  have htake := takeWhile_isDigit h.isDigit h.rest_head
  rcases h.sign_cases with rfl | rfl | rfl
  · obtain ⟨d, ds, rfl⟩ := List.exists_cons_of_ne_nil h.digits_ne
    obtain ⟨hminus, hplus⟩ := not_sign_of_isDigit (h.isDigit d List.mem_cons_self)
    rw [List.nil_append, List.cons_append, signedValue, if_neg hminus, if_neg hplus,
      ← List.cons_append, htake, signed, if_neg (by simp)]
  · rw [List.singleton_append, signedValue, if_neg (by decide), if_pos rfl, htake, signed,
      if_neg (by decide)]
  · rw [List.singleton_append, signedValue, if_pos rfl, htake, signed, if_pos rfl]

end Reads

/-- The value of a text from its parts. -/
theorem strtol_of_reads {s blanks sign digits rest : List UInt8}
    (h : Reads s blanks sign digits rest) : strtol s = clamp (signed sign digits) := by
  rw [strtol, h.dropWhile_eq, h.signedValue_eq]

/-- The digits at the front of a text end where no digit follows. -/
theorem head?_dropWhile_isDigit (s : List UInt8) :
    ∀ c ∈ (s.dropWhile isDigit).head?, ¬ isDigit c := by
  intro c hc hdigit
  have hnot := List.head?_dropWhile_not isDigit s
  rw [Option.mem_def.1 hc] at hnot
  simp [hdigit] at hnot

/-- The parts of a text with a value other than zero. -/
theorem exists_reads {s : List UInt8} (h : strtol s ≠ 0) :
    ∃ blanks sign digits rest, Reads s blanks sign digits rest := by
  have hblanks : ∀ c ∈ s.takeWhile isSpace, isSpace c := fun c hc => List.mem_takeWhile_imp hc
  have hdigits : ∀ t : List UInt8, ∀ c ∈ t.takeWhile isDigit, isDigit c := fun t c hc =>
    List.mem_takeWhile_imp hc
  have hsplit : ∀ t : List UInt8, t.takeWhile isDigit ++ t.dropWhile isDigit = t := fun t =>
    List.takeWhile_append_dropWhile
  have heq : s.takeWhile isSpace ++ s.dropWhile isSpace = s := List.takeWhile_append_dropWhile
  have hvalue : signedValue (s.dropWhile isSpace) ≠ 0 := by
    intro hzero
    rw [strtol, hzero] at h
    exact h (by decide)
  cases hs : s.dropWhile isSpace with
  | nil =>
    rw [hs] at hvalue
    exact absurd rfl hvalue
  | cons c t =>
    rw [hs] at heq hvalue
    rw [signedValue] at hvalue
    have hne : ∀ {u : List UInt8}, (numeralValue u : ℤ) ≠ 0 → u ≠ [] := by
      rintro u hu rfl
      exact hu rfl
    split_ifs at hvalue with hminus hplus
    · refine ⟨_, [minus], _, _, ?_, hblanks, Or.inr (Or.inr rfl), hdigits t, hne ?_,
        head?_dropWhile_isDigit t⟩
      · rw [hsplit, ← hminus, List.singleton_append, heq]
      · exact fun hzero => hvalue (by rw [hzero, Int.neg_zero])
    · refine ⟨_, [plus], _, _, ?_, hblanks, Or.inr (Or.inl rfl), hdigits t, hne hvalue,
        head?_dropWhile_isDigit t⟩
      rw [hsplit, ← hplus, List.singleton_append, heq]
    · refine ⟨_, [], _, _, ?_, hblanks, Or.inl rfl, hdigits (c :: t), hne hvalue,
        head?_dropWhile_isDigit (c :: t)⟩
      rw [hsplit, List.nil_append, heq]

/-- A number as it is written has its parts. -/
theorem reads_decimal (z : ℤ) :
    Reads (decimal z) [] (if z < 0 then [minus] else []) (natDecimal z.natAbs) [] := by
  refine ⟨?_, fun _ hc => absurd hc List.not_mem_nil, ?_, fun _ => isDigit_of_mem_natDecimal,
    natDecimal_ne_nil _, fun _ hc => absurd hc (by simp)⟩
  · rw [decimal]
    split_ifs <;> simp
  · split_ifs
    · exact Or.inr (Or.inr rfl)
    · exact Or.inl rfl

theorem signedValue_decimal (z : ℤ) : signedValue (decimal z) = z := by
  have h := reads_decimal z
  rw [h.eq, List.nil_append, h.signedValue_eq, signed, numeralValue_natDecimal]
  by_cases hz : z < 0
  · rw [if_pos hz, if_pos rfl]
    omega
  · rw [if_neg hz, if_neg (List.cons_ne_nil _ _).symm]
    omega

/-- What was written is read again. -/
theorem strtol_decimal {z : ℤ} (hle : -2 ^ 63 ≤ z) (hlt : z < 2 ^ 63) : strtol (decimal z) = z := by
  have h := reads_decimal z
  rw [strtol, h.dropWhile_eq, ← List.nil_append (_ ++ _), ← h.eq, signedValue_decimal, clamp]
  omega

theorem decimal_injective : Function.Injective decimal := fun z z' h => by
  rw [← signedValue_decimal z, h, signedValue_decimal]

theorem mem_decimal {z : ℤ} {c : UInt8} (h : c ∈ decimal z) : c = minus ∨ isDigit c := by
  rw [decimal] at h
  split_ifs at h
  · exact (List.mem_cons.1 h).imp id isDigit_of_mem_natDecimal
  · exact Or.inr (isDigit_of_mem_natDecimal h)

end RawDish.Lib
