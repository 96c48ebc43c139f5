import Mathlib.Algebra.GroupWithZero.Nat
import Mathlib.Algebra.Ring.Int.Defs
import Mathlib.Data.Int.Init

/-!
# Signed 64-bit arithmetic

`wrap64` takes an exact result to the value a signed 64-bit register holds.
-/

namespace Stor.Lib

def wrap64 (x : Int) : Int := x.bmod (2 ^ 64)

theorem wrap64_of_range {x : Int} (hlo : -2 ^ 63 ≤ x) (hhi : x < 2 ^ 63) : wrap64 x = x := by
  rw [wrap64, Int.bmod_eq_of_le] <;> omega

theorem wrap64_range (x : Int) : -2 ^ 63 ≤ wrap64 x ∧ wrap64 x < 2 ^ 63 := by
  have hlo := Int.le_bmod (x := x) (m := 2 ^ 64) (by decide)
  have hhi := Int.bmod_lt (x := x) (m := 2 ^ 64) (by decide)
  rw [wrap64]
  omega

/-- What is too large comes out a whole turn below. -/
theorem wrap64_of_ge {x : Int} (hlo : 2 ^ 63 ≤ x) (hhi : x < 2 ^ 64 + 2 ^ 63) :
    wrap64 x = x - 2 ^ 64 := by
  have hturn : wrap64 (x - 2 ^ 64) = wrap64 x := Int.sub_bmod_right x (2 ^ 64)
  rw [← hturn, wrap64_of_range (by omega) (by omega)]

/-- A sum of a number and one that is not negative is exact when it comes out above the first. -/
theorem wrap64_add_of_lt {x y : Int} (hlo : -2 ^ 63 ≤ x) (hhi : x < 2 ^ 63) (hy : 0 ≤ y)
    (hy' : y < 2 ^ 63) (h : x ≤ wrap64 (x + y)) : wrap64 (x + y) = x + y := by
  by_cases hfits : x + y < 2 ^ 63
  · exact wrap64_of_range (by omega) hfits
  · rw [wrap64_of_ge (by omega) (by omega)] at h
    omega

theorem wrap64_add_left (x y : Int) : wrap64 (wrap64 x + y) = wrap64 (x + y) :=
  Int.bmod_add_bmod

/-- A sum that wraps at each step wraps once. -/
theorem foldl_wrap64 {α : Type*} (f : α → Int) (xs : List α) (a : Int) :
    xs.foldl (fun total x => wrap64 (total + f x)) (wrap64 a) = wrap64 (a + (xs.map f).sum) := by
  induction xs generalizing a with
  | nil => simp
  | cons x xs ih =>
    rw [List.foldl_cons, wrap64_add_left, ih, List.map_cons, List.sum_cons, Int.add_assoc]

theorem wrap64_add_toNat {o : Nat} {l : Int} (hl : 0 ≤ l) (h : o + l.toNat < 2 ^ 63) :
    wrap64 ((o : Int) + l) = ((o + l.toNat : Nat) : Int) := by
  rw [wrap64_of_range (by omega) (by omega)]
  omega

/-- Numbers that are not negative have the same sum as naturals. -/
theorem sum_map_toNat {α : Type*} {f : α → Int} {xs : List α} (h : ∀ x ∈ xs, 0 ≤ f x) :
    (((xs.map fun x => (f x).toNat).sum : Nat) : Int) = (xs.map f).sum := by
  induction xs with
  | nil => rfl
  | cons x xs ih =>
    obtain ⟨hx, hxs⟩ := List.forall_mem_cons.mp h
    rw [List.map_cons, List.sum_cons, List.map_cons, List.sum_cons, ← ih hxs]
    omega

theorem sum_map_toNat_eq {α : Type*} {f : α → Int} {xs : List α} (h : ∀ x ∈ xs, 0 ≤ f x)
    {total : Nat} (htotal : (total : Int) = (xs.map f).sum) :
    (xs.map fun x => (f x).toNat).sum = total := by
  have hcast := sum_map_toNat h
  omega

end Stor.Lib
