import Stor.Lib.Stream

/-!
# Byte strings bit by bit and as numbers

The bits of a byte string from the highest of the first byte on, how far two of them agree,
and the order of two byte strings of one length as numbers.
-/

namespace Stor.Lib

/-! ## Bits -/

def byteBits (b : UInt8) : List Bool := (List.range 8).map fun i => b.toNat.testBit (7 - i)

def bits (bs : Bytes) : List Bool := bs.flatMap byteBits

/-- `bits.LeadingZeros8`. -/
def leadingZeros8 (b : UInt8) : Nat := 8 - b.toNat.size

/-- The length of the common prefix. -/
def commonLen {α : Type*} [DecidableEq α] : List α → List α → Nat
  | a :: as, b :: bs => if a = b then commonLen as bs + 1 else 0
  | _, _ => 0

theorem length_byteBits (b : UInt8) : (byteBits b).length = 8 := by
  rw [byteBits, List.length_map, List.length_range]

theorem bits_cons (b : UInt8) (bs : Bytes) : bits (b :: bs) = byteBits b ++ bits bs := rfl

theorem length_bits (bs : Bytes) : (bits bs).length = 8 * bs.length := by
  induction bs with
  | nil => rfl
  | cons b bs ih =>
    rw [bits_cons, List.length_append, length_byteBits, ih, List.length_cons]
    omega

theorem byteBits_injective : Function.Injective byteBits := by
  intro a b h
  refine UInt8.toNat_inj.mp (Nat.eq_of_testBit_eq fun i => ?_)
  rcases Nat.lt_or_ge i 8 with hi | hi
  · have hbit := List.map_inj_left.mp h (7 - i) (List.mem_range.mpr (by omega))
    rwa [Nat.sub_sub_self (by omega)] at hbit
  · have hpow : 2 ^ 8 ≤ 2 ^ i := Nat.pow_le_pow_right (by decide) hi
    rw [Nat.testBit_lt_two_pow (Nat.lt_of_lt_of_le a.toNat_lt hpow),
      Nat.testBit_lt_two_pow (Nat.lt_of_lt_of_le b.toNat_lt hpow)]

theorem bits_injective : Function.Injective bits := by
  intro as bs h
  induction as generalizing bs with
  | nil =>
    cases bs with
    | nil => rfl
    | cons b bs => cases h
  | cons a as ih =>
    cases bs with
    | nil => cases h
    | cons b bs =>
      rw [bits_cons, bits_cons] at h
      obtain ⟨hhead, htail⟩ :=
        List.append_inj h ((length_byteBits a).trans (length_byteBits b).symm)
      rw [byteBits_injective hhead, ih htail]

theorem takeWhile_byteBits (b : UInt8) :
    ((byteBits b).takeWhile fun c => !c).length = leadingZeros8 b := by
  have hall : ∀ n : Fin 256, ((byteBits (UInt8.ofNat n)).takeWhile fun c => !c).length =
      leadingZeros8 (UInt8.ofNat n) := by decide +kernel
  have hb := hall ⟨b.toNat, b.toNat_lt⟩
  rwa [UInt8.ofNat_toNat] at hb

theorem byteBits_xor (a b : UInt8) :
    byteBits (a ^^^ b) = List.zipWith Bool.xor (byteBits a) (byteBits b) := by
  rw [byteBits, byteBits, byteBits, List.zipWith_map, List.zipWith_self]
  simp only [UInt8.toNat_xor, Nat.testBit_xor]

theorem bits_xor {as bs : Bytes} (h : as.length = bs.length) :
    bits (List.zipWith (· ^^^ ·) as bs) = List.zipWith Bool.xor (bits as) (bits bs) := by
  induction as generalizing bs with
  | nil => rfl
  | cons a as ih =>
    cases bs with
    | nil => cases h
    | cons b bs =>
      rw [List.zipWith_cons_cons, bits_cons, bits_cons, bits_cons, byteBits_xor,
        ih (Nat.succ.inj h), List.zipWith_append]
      rw [length_byteBits, length_byteBits]

/-- Two strings agree as long as their difference is zero. -/
theorem takeWhile_zipWith_xor (as bs : List Bool) :
    ((List.zipWith Bool.xor as bs).takeWhile fun c => !c).length = commonLen as bs := by
  induction as generalizing bs with
  | nil => rfl
  | cons a as ih =>
    cases bs with
    | nil => rfl
    | cons b bs =>
      rw [List.zipWith_cons_cons, commonLen, List.takeWhile_cons]
      by_cases hab : a = b
      · rw [if_pos hab, hab, Bool.xor_self, Bool.not_false, if_pos rfl, List.length_cons, ih]
      · have hxor : (a ^^ b) = true := Bool.xor_iff_ne.mpr hab
        rw [if_neg hab, hxor]
        rfl

section
variable {α : Type*} [DecidableEq α]

theorem commonLen_self (as : List α) : commonLen as as = as.length := by
  induction as with
  | nil => rfl
  | cons a as ih => rw [commonLen, if_pos rfl, ih, List.length_cons]

/-- Strings of one length that agree to the end are the same. -/
theorem eq_of_length_le_commonLen {as bs : List α} (hlen : as.length = bs.length)
    (h : as.length ≤ commonLen as bs) : as = bs := by
  induction as generalizing bs with
  | nil => exact (List.length_eq_zero_iff.mp hlen.symm).symm
  | cons a as ih =>
    cases bs with
    | nil => cases hlen
    | cons b bs =>
      rw [commonLen] at h
      split_ifs at h with hab
      · rw [hab, ih (Nat.succ.inj hlen) (Nat.le_of_succ_le_succ h)]
      · cases h

end

/-! ## Numbers -/

theorem foldl_beNat (bs : Bytes) (n : Nat) :
    bs.foldl (fun n b => n * 256 + b.toNat) n = n * 256 ^ bs.length + beNat bs := by
  induction bs generalizing n with
  | nil => simp [beNat]
  | cons b bs ih =>
    rw [beNat, List.foldl_cons, List.foldl_cons, ih, ih (0 * 256 + b.toNat), List.length_cons,
      Nat.pow_succ, Nat.zero_mul, Nat.zero_add, Nat.add_mul, Nat.mul_assoc, Nat.add_assoc,
      Nat.mul_comm 256]

theorem beNat_cons (b : UInt8) (bs : Bytes) :
    beNat (b :: bs) = b.toNat * 256 ^ bs.length + beNat bs := by
  rw [beNat, List.foldl_cons, foldl_beNat, Nat.zero_mul, Nat.zero_add]

theorem beNat_lt (bs : Bytes) : beNat bs < 256 ^ bs.length := by
  induction bs with
  | nil => exact Nat.one_pos
  | cons b bs ih =>
    have hb : b.toNat + 1 ≤ 256 := b.toNat_lt
    calc beNat (b :: bs) = b.toNat * 256 ^ bs.length + beNat bs := beNat_cons b bs
      _ < b.toNat * 256 ^ bs.length + 256 ^ bs.length := Nat.add_lt_add_left ih _
      _ = (b.toNat + 1) * 256 ^ bs.length := (Nat.succ_mul _ _).symm
      _ ≤ 256 * 256 ^ bs.length := Nat.mul_le_mul_right _ hb
      _ = 256 ^ (b :: bs).length := by rw [List.length_cons, Nat.pow_succ, Nat.mul_comm]

/-- The first difference decides. -/
def lessBytes : Bytes → Bytes → Bool
  | a :: as, b :: bs => if a ≠ b then a < b else lessBytes as bs
  | _, _ => false

theorem eq_of_lessBytes_eq_false {as bs : Bytes} (hlen : as.length = bs.length)
    (hab : lessBytes as bs = false) (hba : lessBytes bs as = false) : as = bs := by
  induction as generalizing bs with
  | nil => exact (List.length_eq_zero_iff.mp hlen.symm).symm
  | cons a as ih =>
    cases bs with
    | nil => cases hlen
    | cons b bs =>
      rw [lessBytes] at hab hba
      by_cases heq : a = b
      · rw [if_neg (not_not.mpr heq)] at hab
        rw [if_neg (not_not.mpr heq.symm)] at hba
        rw [heq, ih (Nat.succ.inj hlen) hab hba]
      · rw [if_pos heq, decide_eq_false_iff_not, UInt8.not_lt] at hab
        rw [if_pos (Ne.symm heq), decide_eq_false_iff_not, UInt8.not_lt] at hba
        exact absurd (UInt8.le_antisymm hba hab) heq

theorem lessBytes_iff {as bs : Bytes} (hlen : as.length = bs.length) :
    lessBytes as bs = true ↔ beNat as < beNat bs := by
  induction as generalizing bs with
  | nil =>
    obtain rfl := List.length_eq_zero_iff.mp hlen.symm
    exact iff_of_false Bool.false_ne_true (Nat.lt_irrefl _)
  | cons a as ih =>
    cases bs with
    | nil => cases hlen
    | cons b bs =>
      have hlen : as.length = bs.length := Nat.succ.inj hlen
      have ha := beNat_lt as
      have hb := beNat_lt bs
      rw [beNat_cons, beNat_cons, lessBytes, hlen]
      rw [hlen] at ha
      split_ifs with hne
      · rw [decide_eq_true_iff, UInt8.lt_iff_toNat_lt]
        rcases Nat.lt_trichotomy a.toNat b.toNat with hlt | heq | hgt
        · refine iff_of_true hlt ?_
          have hmul := Nat.mul_le_mul_right (256 ^ bs.length) (Nat.succ_le_of_lt hlt)
          rw [Nat.succ_mul] at hmul
          omega
        · exact absurd (UInt8.toNat_inj.mp heq) hne
        · refine iff_of_false (Nat.lt_asymm hgt) ?_
          have hmul := Nat.mul_le_mul_right (256 ^ bs.length) (Nat.succ_le_of_lt hgt)
          rw [Nat.succ_mul] at hmul
          omega
      · rw [not_ne_iff.mp hne, ih hlen]
        omega

end Stor.Lib
