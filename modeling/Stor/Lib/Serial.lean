import Mathlib.Algebra.Order.Ring.Int
import Mathlib.Data.BitVec

/-!
# Serial numbers

The items of a sequence are numbered modulo `2 ^ w`.  Of two numbers the later one is told
by the sign of their difference, which is right for items that are less than `2 ^ (w - 1)`
apart.
-/

namespace Stor.Lib

variable {w : Nat} {first : BitVec w} {i j : Nat}

/-- The number of the item `i`. -/
def serial (first : BitVec w) (i : Nat) : BitVec w := first + BitVec.ofNat w i

/-- `a` is later than `b`. -/
def isAfter (a b : BitVec w) : Bool := 0 < (a - b).toInt

theorem serial_zero (first : BitVec w) : serial first 0 = first := by
  exact BitVec.add_zero first

theorem serial_succ (first : BitVec w) (i : Nat) : serial first (i + 1) = serial first i + 1 := by
  rw [serial, serial, BitVec.add_assoc, BitVec.ofNat_add]
  rfl

theorem serial_sub (first : BitVec w) (i j : Nat) :
    serial first i - serial first j = ((i - j : Int) : BitVec w) := by
  rw [serial, serial, add_sub_add_left_eq_sub, Int.cast_sub, Int.cast_natCast, Int.cast_natCast]
  rfl

theorem toInt_serial_sub (hw : 0 < w) (hi : i < j + 2 ^ (w - 1)) (hj : j < i + 2 ^ (w - 1)) :
    (serial first i - serial first j).toInt = (i : Int) - j := by
  have hpow : 2 ^ w = 2 * 2 ^ (w - 1) := by
    rw [← Nat.pow_succ']
    congr 1
    omega
  rw [serial_sub, BitVec.toInt_intCast]
  apply Int.bmod_eq_of_le
  · rw [hpow]; omega
  · rw [hpow]; omega

theorem isAfter_serial (hw : 0 < w) (hi : i < j + 2 ^ (w - 1)) (hj : j < i + 2 ^ (w - 1)) :
    isAfter (serial first i) (serial first j) = true ↔ j < i := by
  rw [isAfter, decide_eq_true_iff, toInt_serial_sub hw hi hj]
  omega

theorem toNat_serial_sub (hle : j ≤ i) (hlt : i < j + 2 ^ w) :
    (serial first i - serial first j).toNat = i - j := by
  have hcast : ((i : Int) - j) = ((i - j : Nat) : Int) := by omega
  rw [serial_sub, hcast, Int.cast_natCast, BitVec.natCast_eq_ofNat, BitVec.toNat_ofNat]
  exact Nat.mod_eq_of_lt (by omega)

theorem eq_of_serial_eq (hle : j ≤ i) (hlt : i < j + 2 ^ w)
    (h : serial first i = serial first j) : i = j := by
  have hsub : (serial first i - serial first j).toNat = i - j := toNat_serial_sub hle hlt
  rw [h, BitVec.sub_self, BitVec.toNat_zero] at hsub
  omega

/-- Items that are less than a whole round apart have different numbers. -/
theorem serial_inj (hi : i < j + 2 ^ w) (hj : j < i + 2 ^ w)
    (h : serial first i = serial first j) : i = j := by
  rcases Nat.le_total j i with hle | hle
  · exact eq_of_serial_eq hle hi h
  · exact (eq_of_serial_eq hle hj h.symm).symm

end Stor.Lib
