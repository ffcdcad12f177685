import Mathlib.Data.Nat.Bitwise
import Mathlib.Tactic.SplitIfs

/-!
# Bit arrays in bytes

The bit `p` of an array of bytes is the bit `p & 7` of the byte `p >> 3`. Setting it is an `or` with
a mask and reading it an `and` with the same mask.

## Main definitions

* `getBit`, `setBit`.

## Main results

* `getBit_setBit` : setting a bit changes that bit only.
* `ext_getBit` : an array is determined by its bits.
-/

namespace RawDish.Lib

/-- Whether the bit `p` is set. A byte past the end reads as zero. -/
def getBit (bytes : List UInt8) (p : ℕ) : Bool :=
  bytes.getD (p >>> 3) 0 &&& 1 <<< UInt8.ofNat (p &&& 7) ≠ 0

/-- Set the bit `p`. There is nothing to set past the end. -/
def setBit (bytes : List UInt8) (p : ℕ) : List UInt8 :=
  bytes.modify (p >>> 3) (· ||| 1 <<< UInt8.ofNat (p &&& 7))

@[simp] theorem length_setBit (bytes : List UInt8) (p : ℕ) :
    (setBit bytes p).length = bytes.length :=
  List.length_modify _ _ _

private theorem and_seven (p : ℕ) : p &&& 7 = p % 8 := Nat.and_two_pow_sub_one_eq_mod p 3

private theorem shift_three (p : ℕ) : p >>> 3 = p / 8 := Nat.shiftRight_eq_div_pow p 3

/-- The mask of a bit as a number. -/
theorem toNat_mask (p : ℕ) : (1 <<< UInt8.ofNat (p &&& 7) : UInt8).toNat = 2 ^ (p % 8) := by
  have hlt : p % 8 < 8 := Nat.mod_lt _ (by omega)
  have hpow : 2 ^ (p % 8) < 2 ^ 8 := Nat.pow_lt_pow_right (by omega) hlt
  rw [and_seven, UInt8.toNat_shiftLeft, UInt8.toNat_ofNat', UInt8.toNat_one, Nat.shiftLeft_eq,
    Nat.one_mul, Nat.mod_eq_of_lt (show p % 8 < 2 ^ 8 by omega), Nat.mod_mod,
    Nat.mod_eq_of_lt hpow]

theorem getBit_eq_testBit (bytes : List UInt8) (p : ℕ) :
    getBit bytes p = (bytes.getD (p / 8) 0).toNat.testBit (p % 8) := by
  rw [getBit, shift_three, Bool.eq_iff_iff, decide_eq_true_iff, ne_eq, ← UInt8.toNat_inj,
    UInt8.toNat_and, toNat_mask, UInt8.toNat_zero, Nat.and_two_pow]
  cases (bytes.getD (p / 8) 0).toNat.testBit (p % 8) <;> simp

/-- Setting a bit within the array changes that bit only. -/
theorem getBit_setBit {bytes : List UInt8} {p : ℕ} (hp : p / 8 < bytes.length) (q : ℕ) :
    getBit (setBit bytes p) q = (getBit bytes q || decide (p = q)) := by
  rw [getBit_eq_testBit, getBit_eq_testBit, setBit, shift_three, List.getD_eq_getElem?_getD,
    List.getD_eq_getElem?_getD, List.getElem?_modify]
  by_cases hbyte : p / 8 = q / 8
  · have hq : q / 8 < bytes.length := hbyte ▸ hp
    have hbit : p % 8 = q % 8 ↔ p = q := by omega
    simp only [hbyte, if_true, List.getElem?_eq_getElem hq, Option.map_eq_map, Option.map_some,
      Option.getD_some, UInt8.toNat_or, toNat_mask, Nat.testBit_or, Nat.testBit_two_pow, hbit]
  · have hne : p ≠ q := fun heq => hbyte (congrArg (· / 8) heq)
    simp [hbyte, hne]

/-- Arrays of the same length with the same bits are the same. -/
theorem ext_getBit {a b : List UInt8} (hlen : a.length = b.length)
    (h : ∀ p, getBit a p = getBit b p) : a = b := by
  refine List.ext_getElem hlen fun i hi hi' => UInt8.toNat_inj.1 (Nat.eq_of_testBit_eq fun j => ?_)
  by_cases hj : j < 8
  · have hbit := h (8 * i + j)
    rw [getBit_eq_testBit, getBit_eq_testBit, show (8 * i + j) / 8 = i by omega,
      show (8 * i + j) % 8 = j by omega, List.getD_eq_getElem _ _ hi,
      List.getD_eq_getElem _ _ hi'] at hbit
    exact hbit
  · have hlt : ∀ x : UInt8, x.toNat < 2 ^ j := fun x =>
      x.toNat_lt.trans_le (Nat.pow_le_pow_right (by omega) (by omega))
    rw [Nat.testBit_lt_two_pow (hlt _), Nat.testBit_lt_two_pow (hlt _)]

theorem getBit_replicate_zero (n p : ℕ) : getBit (List.replicate n 0) p = false := by
  rw [getBit_eq_testBit, List.getD_eq_getElem?_getD, List.getElem?_replicate]
  split_ifs <;> simp

end RawDish.Lib
