import Mathlib.Data.Nat.Basic
import Mathlib.Tactic.NormNum

/-!
# Numbers in memory

A 32-bit number in the four bytes that a little-endian machine stores it in, the lowest first.

## Main definitions

* `toLE`, `ofLE`.

## Main results

* `ofLE_toLE`, `toLE_ofLE` : the two are inverse on four bytes.
-/

namespace RawDish.Lib

/-- The bytes of a number. -/
def toLE (n : UInt32) : List UInt8 :=
  [UInt8.ofNat n.toNat, UInt8.ofNat (n.toNat / 256), UInt8.ofNat (n.toNat / 65536),
    UInt8.ofNat (n.toNat / 16777216)]

/-- The number in the first four bytes; bytes that are not there count as zero. -/
def ofLE (bytes : List UInt8) : UInt32 :=
  UInt32.ofNat ((bytes.getD 0 0).toNat + 256 * (bytes.getD 1 0).toNat +
    65536 * (bytes.getD 2 0).toNat + 16777216 * (bytes.getD 3 0).toNat)

@[simp] theorem length_toLE (n : UInt32) : (toLE n).length = 4 := rfl

/-- What is stored after a number does not matter to it. -/
theorem ofLE_toLE (n : UInt32) (rest : List UInt8) : ofLE (toLE n ++ rest) = n := by
  have hn : n.toNat < 4294967296 := n.toNat_lt
  refine UInt32.toNat_inj.1 ?_
  simp only [ofLE, toLE, List.cons_append, List.getD_cons_zero, List.getD_cons_succ,
    UInt8.toNat_ofNat', UInt32.toNat_ofNat']
  omega

theorem toLE_ofLE {bytes : List UInt8} (h : 4 ≤ bytes.length) :
    toLE (ofLE bytes) = bytes.take 4 := by
  match bytes, h with
  | a :: b :: c :: d :: rest, _ =>
    have ha : a.toNat < 256 := a.toNat_lt
    have hb : b.toNat < 256 := b.toNat_lt
    have hc : c.toNat < 256 := c.toNat_lt
    have hd : d.toNat < 256 := d.toNat_lt
    simp only [toLE, ofLE, List.getD_cons_zero, List.getD_cons_succ, UInt32.toNat_ofNat',
      List.take_succ_cons, List.take_zero, List.cons.injEq, and_true, ← UInt8.toNat_inj,
      UInt8.toNat_ofNat']
    omega

end RawDish.Lib
