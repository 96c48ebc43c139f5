import Mathlib.Data.Nat.Digits.Lemmas
import Mathlib.Data.UInt

/-!
# Decimal numerals as byte strings

`natDigits` and `intDigits` write a number the way a formatter does, without
leading zeros.  `parseInt64` reads a signed 64-bit number the way a lenient
reader does: a sign of either kind, any number of leading zeros, and an error
outside the range.  The two differ on numerals such as `007` and `+7`, and
`natDigits_decimalValue_length` measures by how much: writing a number that was
read gives a shorter text unless the text had no leading zero.
-/

namespace Stor.Lib

abbrev Bytes := List UInt8

/-- The bytes of an ASCII text. -/
def ascii (s : String) : Bytes := s.toList.map fun c => UInt8.ofNat c.toNat

/-- A literal is evaluated faster in this form: `String.toList` decodes its bytes one by
one. -/
theorem ascii_ofList (cs : List Char) :
    ascii (String.ofList cs) = cs.map fun c => UInt8.ofNat c.toNat := by
  rw [ascii, String.toList_ofList]

def zeroByte : UInt8 := 48
def plusByte : UInt8 := 43
def minusByte : UInt8 := 45

def isDigit (b : UInt8) : Bool := 48 ≤ b.toNat && b.toNat ≤ 57

def digitVal (b : UInt8) : Nat := b.toNat - 48

def digitByte (d : Nat) : UInt8 := UInt8.ofNat (48 + d)

/-- The value of a digit string, most significant digit first. -/
def decimalValue (s : Bytes) : Nat := s.foldl (fun acc b => acc * 10 + digitVal b) 0

def natDigits (n : Nat) : Bytes :=
  if n = 0 then [zeroByte] else (Nat.digits 10 n).reverse.map digitByte

def intDigits : Int → Bytes
  | .ofNat n => natDigits n
  | .negSucc n => minusByte :: natDigits (n + 1)

/-- No leading zero, except in the numeral `0` itself. -/
def NoLeadingZero (s : Bytes) : Prop := s.head? = some zeroByte → s.length = 1

instance (s : Bytes) : Decidable (NoLeadingZero s) := by unfold NoLeadingZero; infer_instance

/-- The magnitude of an unsigned numeral: at least one digit and nothing else. -/
def parseDigits (s : Bytes) : Option Nat :=
  if s ≠ [] ∧ s.all isDigit then some (decimalValue s) else none

/-- A signed 64-bit decimal.  The two signs are both accepted. -/
def parseInt64 (s : Bytes) : Option Int :=
  match s with
  | [] => none
  | b :: ds =>
    if b = minusByte then
      (parseDigits ds).bind fun n => if n ≤ 2 ^ 63 then some (-(n : Int)) else none
    else if b = plusByte then
      (parseDigits ds).bind fun n => if n < 2 ^ 63 then some (n : Int) else none
    else
      (parseDigits s).bind fun n => if n < 2 ^ 63 then some (n : Int) else none

theorem digitByte_toNat {d : Nat} (h : d < 10) : (digitByte d).toNat = 48 + d := by
  rw [digitByte, UInt8.toNat_ofNat']
  omega

theorem isDigit_digitByte {d : Nat} (h : d < 10) : isDigit (digitByte d) = true := by
  simp only [isDigit, digitByte_toNat h, Bool.and_eq_true, decide_eq_true_eq]
  omega

theorem digitVal_digitByte {d : Nat} (h : d < 10) : digitVal (digitByte d) = d := by
  rw [digitVal, digitByte_toNat h]
  omega

theorem digitVal_lt {b : UInt8} (h : isDigit b = true) : digitVal b < 10 := by
  simp only [isDigit, Bool.and_eq_true, decide_eq_true_eq] at h
  rw [digitVal]
  omega

theorem digitByte_digitVal {b : UInt8} (h : isDigit b = true) : digitByte (digitVal b) = b := by
  simp only [isDigit, Bool.and_eq_true, decide_eq_true_eq] at h
  apply UInt8.toNat_inj.mp
  rw [digitByte_toNat (by rw [digitVal]; omega), digitVal]
  omega

theorem digitVal_eq_zero {b : UInt8} (h : isDigit b = true) : digitVal b = 0 ↔ b = zeroByte := by
  constructor
  · intro h0
    rw [← digitByte_digitVal h, h0]
    rfl
  · rintro rfl
    rfl

/-- The digit string read from its least significant end. -/
theorem decimalValue_eq_ofDigits (s : Bytes) :
    decimalValue s = Nat.ofDigits 10 (s.reverse.map digitVal) := by
  rw [Nat.ofDigits_eq_foldr, List.foldr_map, List.foldr_reverse, decimalValue]
  congr 1
  funext acc b
  simp only [Nat.cast_id]
  ring

theorem decimalValue_zero_cons (s : Bytes) : decimalValue (zeroByte :: s) = decimalValue s := rfl

theorem natDigits_ne_nil (n : Nat) : natDigits n ≠ [] := by
  rw [natDigits]
  split
  · exact List.cons_ne_nil _ _
  · next h =>
    intro hnil
    rw [List.map_eq_nil_iff, List.reverse_eq_nil_iff, Nat.digits_eq_nil_iff_eq_zero] at hnil
    exact h hnil

theorem natDigits_isDigit (n : Nat) : ∀ b ∈ natDigits n, isDigit b = true := by
  intro b hb
  rw [natDigits] at hb
  split at hb
  · rw [List.mem_singleton] at hb
    subst hb
    decide
  · obtain ⟨d, hd, rfl⟩ := List.mem_map.mp hb
    exact isDigit_digitByte (Nat.digits_lt_base (by decide) (List.mem_reverse.mp hd))

theorem decimalValue_natDigits (n : Nat) : decimalValue (natDigits n) = n := by
  rw [natDigits]
  split
  · next h => rw [h]; rfl
  · rw [decimalValue_eq_ofDigits, ← List.map_reverse, List.reverse_reverse, List.map_map]
    have hid : (Nat.digits 10 n).map (digitVal ∘ digitByte) = Nat.digits 10 n := by
      conv_rhs => rw [← List.map_id (Nat.digits 10 n)]
      refine List.map_congr_left fun d hd => ?_
      exact digitVal_digitByte (Nat.digits_lt_base (by decide) hd)
    rw [hid, Nat.ofDigits_digits]

theorem natDigits_noLeadingZero (n : Nat) : NoLeadingZero (natDigits n) := by
  intro h
  rw [natDigits] at h ⊢
  split
  · rfl
  · next hn =>
    rw [if_neg hn, List.head?_map, List.head?_reverse,
      List.getLast?_eq_getLast_of_ne_nil (Nat.digits_ne_nil_iff_ne_zero.mpr hn),
      Option.map_some, Option.some_inj] at h
    have hlt := Nat.digits_lt_base (b := 10) (by decide)
      (List.getLast_mem (Nat.digits_ne_nil_iff_ne_zero.mpr hn))
    have hzero := congrArg digitVal h
    rw [digitVal_digitByte hlt] at hzero
    exact absurd hzero (Nat.getLast_digit_ne_zero 10 hn)

/-- A numeral without a leading zero is the one the formatter writes. -/
theorem natDigits_decimalValue {s : Bytes} (hne : s ≠ []) (hd : ∀ b ∈ s, isDigit b = true)
    (hz : NoLeadingZero s) : natDigits (decimalValue s) = s := by
  obtain ⟨b, t, rfl⟩ := List.exists_cons_of_ne_nil hne
  by_cases hb : b = zeroByte
  · subst hb
    have ht : t = [] := by simpa using hz rfl
    rw [ht]
    rfl
  · have hlast : ∀ h : ((b :: t).reverse.map digitVal) ≠ [],
        ((b :: t).reverse.map digitVal).getLast h ≠ 0 := by
      intro h
      simp only [List.reverse_cons, List.map_append, List.map_cons, List.map_nil,
        List.getLast_concat]
      rw [Ne, digitVal_eq_zero (hd b List.mem_cons_self)]
      exact hb
    have hdigits : Nat.digits 10 (decimalValue (b :: t)) = (b :: t).reverse.map digitVal := by
      rw [decimalValue_eq_ofDigits]
      refine Nat.digits_ofDigits 10 (by decide) _ (fun d hmem => ?_) hlast
      obtain ⟨c, hc, rfl⟩ := List.mem_map.mp hmem
      exact digitVal_lt (hd c (List.mem_reverse.mp hc))
    have hpos : decimalValue (b :: t) ≠ 0 := by
      rw [← Nat.digits_ne_nil_iff_ne_zero (b := 10), hdigits]
      simp
    rw [natDigits, if_neg hpos, hdigits, ← List.map_reverse, List.reverse_reverse, List.map_map]
    conv_rhs => rw [← List.map_id (b :: t)]
    exact List.map_congr_left fun c hc => digitByte_digitVal (hd c hc)

/-- Writing a number that was read never gives a longer text, and gives one of
the same length only when the text read had no leading zero. -/
theorem natDigits_decimalValue_length {s : Bytes} (hne : s ≠ [])
    (hd : ∀ b ∈ s, isDigit b = true) :
    (natDigits (decimalValue s)).length ≤ s.length ∧
      ((natDigits (decimalValue s)).length = s.length ↔ NoLeadingZero s) := by
  induction s with
  | nil => exact absurd rfl hne
  | cons b t ih =>
    by_cases hz : NoLeadingZero (b :: t)
    · rw [natDigits_decimalValue hne hd hz]
      exact ⟨Nat.le_refl _, fun _ => hz, fun _ => rfl⟩
    · have hb : b = zeroByte := by
        by_contra hb
        exact hz fun h => absurd (Option.some_inj.mp h) hb
      have ht : t ≠ [] := by
        rintro rfl
        exact hz fun _ => rfl
      subst hb
      have hle := (ih ht fun c hc => hd c (List.mem_cons_of_mem _ hc)).1
      rw [decimalValue_zero_cons, List.length_cons]
      exact ⟨by omega, fun h => by omega, fun h => absurd h hz⟩

theorem parseDigits_eq_some {s : Bytes} {n : Nat} :
    parseDigits s = some n ↔ s ≠ [] ∧ (∀ b ∈ s, isDigit b = true) ∧ decimalValue s = n := by
  rw [parseDigits, Option.ite_none_right_eq_some, Option.some_inj, List.all_eq_true, and_assoc]

theorem parseDigits_natDigits (n : Nat) : parseDigits (natDigits n) = some n :=
  parseDigits_eq_some.mpr ⟨natDigits_ne_nil n, natDigits_isDigit n, decimalValue_natDigits n⟩

theorem parseDigits_cons_eq_none {b : UInt8} (hb : isDigit b = false) (ds : Bytes) :
    parseDigits (b :: ds) = none := by
  rw [parseDigits, if_neg]
  simp [hb]

/-- What the reader accepts, by the sign it found. -/
theorem parseInt64_eq_some {s : Bytes} {n : Int} :
    parseInt64 s = some n ↔
      (∃ ds k, s = minusByte :: ds ∧ parseDigits ds = some k ∧ k ≤ 2 ^ 63 ∧ -(k : Int) = n) ∨
      (∃ ds k, s = plusByte :: ds ∧ parseDigits ds = some k ∧ k < 2 ^ 63 ∧ (k : Int) = n) ∨
      (∃ k, parseDigits s = some k ∧ k < 2 ^ 63 ∧ (k : Int) = n) := by
  cases s with
  | nil => simp [parseInt64, parseDigits]
  | cons b ds =>
    rw [parseInt64]
    by_cases hm : b = minusByte
    · subst hm
      rw [if_pos rfl, parseDigits_cons_eq_none (b := minusByte) (by decide)]
      simp [Option.bind_eq_some_iff, minusByte, plusByte]
    · by_cases hp : b = plusByte
      · subst hp
        rw [if_neg (by decide), if_pos rfl, parseDigits_cons_eq_none (b := plusByte) (by decide)]
        simp [Option.bind_eq_some_iff, minusByte, plusByte]
      · rw [if_neg hm, if_neg hp]
        simp [Option.bind_eq_some_iff, hm, hp]

theorem parseInt64_intDigits {n : Int} (hlo : -2 ^ 63 ≤ n) (hhi : n < 2 ^ 63) :
    parseInt64 (intDigits n) = some n := by
  rw [parseInt64_eq_some]
  cases n with
  | ofNat k =>
    refine .inr (.inr ⟨k, parseDigits_natDigits k, ?_, rfl⟩)
    rw [Int.ofNat_eq_natCast] at hhi
    omega
  | negSucc k =>
    refine .inl ⟨_, k + 1, rfl, parseDigits_natDigits (k + 1), ?_, rfl⟩
    omega

end Stor.Lib
