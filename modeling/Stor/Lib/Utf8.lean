import Stor.Lib.Decimal

/-!
# Byte strings as UTF-8

`runeLen` is the length of the character at the head of a byte string, and zero when
there is none.  A writer of texts replaces every byte that is not part of a character
by U+FFFD (`toValidUtf8`).  It leaves a string alone exactly when the string is valid
(`toValidUtf8_eq_iff`).

The loops carry the number of bytes that are left of the current character, so that
they recurse on the string.
-/

namespace Stor.Lib

/-- What may follow the first byte of a character: the number of bytes, and the range
of the first of them. -/
def continuation (b : UInt8) : Option (Nat × UInt8 × UInt8) :=
  if b < 0x80 then some (0, 0, 0)
  else if 0xC2 ≤ b ∧ b ≤ 0xDF then some (1, 0x80, 0xBF)
  else if b = 0xE0 then some (2, 0xA0, 0xBF)
  else if b = 0xED then some (2, 0x80, 0x9F)
  else if 0xE1 ≤ b ∧ b ≤ 0xEF then some (2, 0x80, 0xBF)
  else if b = 0xF0 then some (3, 0x90, 0xBF)
  else if 0xF1 ≤ b ∧ b ≤ 0xF3 then some (3, 0x80, 0xBF)
  else if b = 0xF4 then some (3, 0x80, 0x8F)
  else none

def isContinuation (b : UInt8) : Bool := 0x80 ≤ b ∧ b ≤ 0xBF

/-- The bytes `bs` go on with the character that the range belongs to. -/
def continues (lo hi : UInt8) (bs : Bytes) : Bool :=
  match bs with
  | [] => true
  | b :: bs => (lo ≤ b ∧ b ≤ hi) && bs.all isContinuation

def runeLen : Bytes → Nat
  | [] => 0
  | b :: bs =>
    match continuation b with
    | none => 0
    | some (n, lo, hi) => if n ≤ bs.length ∧ continues lo hi (bs.take n) then n + 1 else 0

/-- U+FFFD. -/
def replacement : Bytes := [0xEF, 0xBF, 0xBD]

def toValidUtf8From : Nat → Bytes → Bytes
  | _, [] => []
  | n + 1, b :: bs => b :: toValidUtf8From n bs
  | 0, b :: bs =>
    match runeLen (b :: bs) with
    | 0 => replacement ++ toValidUtf8From 0 bs
    | n + 1 => b :: toValidUtf8From n bs

/-- Each byte that is not part of a character becomes U+FFFD. -/
def toValidUtf8 (bs : Bytes) : Bytes := toValidUtf8From 0 bs

def validUtf8From : Nat → Bytes → Bool
  | _, [] => true
  | n + 1, _ :: bs => validUtf8From n bs
  | 0, b :: bs =>
    match runeLen (b :: bs) with
    | 0 => false
    | n + 1 => validUtf8From n bs

def validUtf8 (bs : Bytes) : Bool := validUtf8From 0 bs

/-! ## Characters -/

/-- A character is told by its own bytes. -/
theorem runeLen_of_take {b : UInt8} {bs t : Bytes} {n : Nat} (h : runeLen (b :: bs) = n + 1) :
    runeLen (b :: (bs.take n ++ t)) = n + 1 := by
  simp only [runeLen] at h ⊢
  cases hc : continuation b with
  | none =>
    rw [hc] at h
    cases h
  | some r =>
    obtain ⟨m, lo, hi⟩ := r
    rw [hc] at h
    simp only at h ⊢
    split at h
    next hm =>
      obtain rfl : m = n := by omega
      have htake : (bs.take m ++ t).take m = bs.take m := by
        rw [List.take_append_of_le_length (by rw [List.length_take]; omega), List.take_take,
          Nat.min_self]
      rw [htake, if_pos ⟨by rw [List.length_append, List.length_take]; omega, hm.2⟩]
    next => cases h

theorem runeLen_replacement (bs : Bytes) : runeLen (replacement ++ bs) = 3 := by
  have h : runeLen replacement = 2 + 1 := by decide
  exact runeLen_of_take h

/-! ## The coercion -/

theorem toValidUtf8From_eq (n : Nat) (bs : Bytes) :
    toValidUtf8From n bs = bs.take n ++ toValidUtf8From 0 (bs.drop n) := by
  induction bs generalizing n with
  | nil =>
    rw [List.take_nil, List.drop_nil]
    rfl
  | cons b bs ih =>
    cases n with
    | zero => rfl
    | succ n =>
      rw [toValidUtf8From, ih n]
      rfl

theorem validUtf8From_toValidUtf8From (n : Nat) (bs : Bytes) :
    validUtf8From n (toValidUtf8From n bs) = true := by
  induction bs generalizing n with
  | nil => rfl
  | cons b bs ih =>
    cases n with
    | succ n => exact ih n
    | zero =>
      rw [toValidUtf8From]
      split
      next h =>
        show validUtf8From 0 (0xEF :: ([0xBF, 0xBD] ++ toValidUtf8From 0 bs)) = true
        rw [validUtf8From]
        have hlen := runeLen_replacement (toValidUtf8From 0 bs)
        rw [show runeLen (0xEF :: ([0xBF, 0xBD] ++ toValidUtf8From 0 bs)) = 3 from hlen]
        exact ih 0
      next n h =>
        have hlen : runeLen (b :: toValidUtf8From n bs) = n + 1 := by
          rw [toValidUtf8From_eq]
          exact runeLen_of_take h
        rw [validUtf8From, hlen]
        exact ih n

theorem toValidUtf8From_of_valid {n : Nat} {bs : Bytes} (h : validUtf8From n bs = true) :
    toValidUtf8From n bs = bs := by
  induction bs generalizing n with
  | nil => rfl
  | cons b bs ih =>
    cases n with
    | succ n => rw [toValidUtf8From, ih h]
    | zero =>
      rw [validUtf8From] at h
      rw [toValidUtf8From]
      split at h
      · cases h
      next n hlen => rw [ih h]

theorem validUtf8_toValidUtf8 (bs : Bytes) : validUtf8 (toValidUtf8 bs) = true :=
  validUtf8From_toValidUtf8From 0 bs

/-- The valid strings are those that the coercion leaves alone. -/
theorem toValidUtf8_eq_iff {bs : Bytes} : toValidUtf8 bs = bs ↔ validUtf8 bs = true := by
  constructor
  · intro h
    rw [← h]
    exact validUtf8_toValidUtf8 bs
  · exact toValidUtf8From_of_valid

end Stor.Lib
