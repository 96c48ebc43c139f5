import Mathlib.Tactic.Ring
import Stor.Lib.Stream
import Stor.Lib.Url

/-!
# Texts of digits and the bytes they stand for

`radixFrom` reads digits of any base behind a number that has been read, and bytes are digits
of base 256.  The decoders of hexadecimal and base 32 read a text and its bytes as the same
number, so that two texts of one number have the same bytes.

The decoder of base 32 accepts more than texts of digits: padding and line breaks.  Without
padding it is exact (`exists_base32Quanta`, `of_base32Quanta`).
-/

namespace Stor.Lib

/-- The digits of `s` behind `acc`; what is no digit counts as zero. -/
def radixFrom (base : Nat) (val : UInt8 → Option Nat) (acc : Nat) (s : Bytes) : Nat :=
  s.foldl (fun acc b => acc * base + (val b).getD 0) acc

def radixValue (base : Nat) (val : UInt8 → Option Nat) (s : Bytes) : Nat := radixFrom base val 0 s

def beFrom (acc : Nat) (bytes : Bytes) : Nat := bytes.foldl (fun n b => n * 256 + b.toNat) acc

/-- Every byte is a digit. -/
def Digits (val : UInt8 → Option Nat) (s : Bytes) : Prop := ∀ b ∈ s, (val b).isSome

instance (val : UInt8 → Option Nat) (s : Bytes) : Decidable (Digits val s) :=
  inferInstanceAs (Decidable (∀ b ∈ s, _))

theorem digits_cons {val : UInt8 → Option Nat} {b : UInt8} {s : Bytes} :
    Digits val (b :: s) ↔ (∃ x, val b = some x) ∧ Digits val s := by
  rw [Digits, List.forall_mem_cons, Option.isSome_iff_exists]
  rfl

theorem radixFrom_lt {base : Nat} {val : UInt8 → Option Nat} (hval : ∀ b, (val b).getD 0 < base)
    (acc : Nat) (s : Bytes) : radixFrom base val acc s < (acc + 1) * base ^ s.length := by
  induction s generalizing acc with
  | nil => rw [List.length_nil, Nat.pow_zero, Nat.mul_one]; exact Nat.lt_succ_self acc
  | cons b s ih =>
    have hb := hval b
    calc radixFrom base val (acc * base + (val b).getD 0) s
        < (acc * base + (val b).getD 0 + 1) * base ^ s.length := ih _
      _ ≤ ((acc + 1) * base) * base ^ s.length := by
          apply Nat.mul_le_mul_right
          rw [Nat.succ_mul]
          omega
      _ = (acc + 1) * base ^ (b :: s).length := by rw [List.length_cons, Nat.pow_succ]; ring

/-! ## Hexadecimal -/

theorem hexVal_lt {b : UInt8} {x : Nat} (h : hexVal b = some x) : x < 16 := by
  unfold hexVal isDigit at h
  simp only [Bool.and_eq_true, decide_eq_true_eq] at h
  split_ifs at h <;> obtain rfl := Option.some.inj h <;> omega

/-- An even number of digits is decoded. -/
theorem exists_hexDecode {s : Bytes} (hdigits : Digits hexVal s) (heven : s.length % 2 = 0) :
    ∃ t, hexDecode s = some t := by
  induction s using List.twoStepInduction with
  | nil => exact ⟨[], rfl⟩
  | singleton b => exact absurd heven Nat.one_ne_zero
  | cons_cons hi lo rest ih =>
    obtain ⟨⟨x, hx⟩, hrest⟩ := digits_cons.mp hdigits
    obtain ⟨⟨y, hy⟩, hrest⟩ := digits_cons.mp hrest
    obtain ⟨t, ht⟩ := ih hrest (by simp only [List.length_cons] at heven; omega)
    exact ⟨_, by rw [hexDecode, hx, hy, ht]; rfl⟩

/-- What is decoded are digits, two for a byte. -/
theorem of_hexDecode {s t : Bytes} (h : hexDecode s = some t) :
    Digits hexVal s ∧ s.length = 2 * t.length ∧
      ∀ acc, beFrom acc t = radixFrom 16 hexVal acc s := by
  induction s using List.twoStepInduction generalizing t with
  | nil =>
    rw [← Option.some.inj h]
    exact ⟨List.forall_mem_nil _, rfl, fun _ => rfl⟩
  | singleton b => cases h
  | cons_cons hi lo rest ih =>
    rw [hexDecode] at h
    cases hx : hexVal hi with
    | none => rw [hx] at h; cases h
    | some x =>
      cases hy : hexVal lo with
      | none => rw [hx, hy] at h; cases h
      | some y =>
        rw [hx, hy] at h
        obtain ⟨t', ht', rfl⟩ := Option.map_eq_some_iff.mp h
        obtain ⟨hdigits, hlen, hvalue⟩ := ih ht'
        refine ⟨digits_cons.mpr ⟨⟨x, hx⟩, digits_cons.mpr ⟨⟨y, hy⟩, hdigits⟩⟩, ?_, ?_⟩
        · simp only [List.length_cons]
          omega
        · intro acc
          have hxlt := hexVal_lt hx
          have hylt := hexVal_lt hy
          have hbyte : (UInt8.ofNat (16 * x + y)).toNat = 16 * x + y := by
            rw [UInt8.toNat_ofNat']
            omega
          have hstep : acc * 256 + (16 * x + y) = (acc * 16 + x) * 16 + y := by ring
          show beFrom (acc * 256 + (UInt8.ofNat (16 * x + y)).toNat) t' =
            radixFrom 16 hexVal ((acc * 16 + (hexVal hi).getD 0) * 16 + (hexVal lo).getD 0)
              rest
          rw [hbyte, hstep, hvalue, hx, hy]
          rfl

/-! ## Base 32 -/

theorem base32Val_lt {b : UInt8} {v : Nat} (h : base32Val b = some v) : v < 32 := by
  unfold base32Val isUpper at h
  simp only [Bool.and_eq_true, decide_eq_true_eq] at h
  split_ifs at h <;> obtain rfl := Option.some.inj h <;> omega

/-- The symbols of a quantum behind `acc`. -/
def symsFrom (acc : Nat) (syms : List Nat) : Nat := syms.foldl (fun acc v => acc * 32 + v) acc

theorem symsFrom_eq (acc : Nat) (syms : List Nat) :
    symsFrom acc syms = acc * 32 ^ syms.length + symsFrom 0 syms := by
  induction syms generalizing acc with
  | nil => rw [List.length_nil, Nat.pow_zero, Nat.mul_one]; rfl
  | cons v syms ih =>
    show symsFrom (acc * 32 + v) syms = _ + symsFrom (0 * 32 + v) syms
    rw [ih (acc * 32 + v), ih (0 * 32 + v), List.length_cons, Nat.pow_succ]
    ring

theorem symsFrom_lt {syms : List Nat} (h : ∀ v ∈ syms, v < 32) :
    symsFrom 0 syms < 32 ^ syms.length := by
  induction syms with
  | nil => exact Nat.one_pos
  | cons v syms ih =>
    obtain ⟨hv, hsyms⟩ := List.forall_mem_cons.mp h
    have hlt := ih hsyms
    show symsFrom (0 * 32 + v) syms < _
    rw [symsFrom_eq, List.length_cons, Nat.pow_succ, Nat.zero_mul, Nat.zero_add]
    have hle : (v + 1) * 32 ^ syms.length ≤ 32 * 32 ^ syms.length := Nat.mul_le_mul_right _ hv
    rw [Nat.succ_mul] at hle
    omega

/-- Eight symbols are five bytes. -/
theorem base32Pack_eight {syms : List Nat} (hlen : syms.length = 8) (h : ∀ v ∈ syms, v < 32) :
    (base32Pack syms).length = 5 ∧ ∀ acc, beFrom acc (base32Pack syms) = symsFrom acc syms := by
  have hlt := symsFrom_lt h
  have hpack : base32Pack syms =
      [UInt8.ofNat (symsFrom 0 syms / 256 ^ 4 % 256), UInt8.ofNat (symsFrom 0 syms / 256 ^ 3 % 256),
        UInt8.ofNat (symsFrom 0 syms / 256 ^ 2 % 256), UInt8.ofNat (symsFrom 0 syms / 256 % 256),
        UInt8.ofNat (symsFrom 0 syms % 256)] := by
    unfold base32Pack symsFrom
    rw [hlen]
    simp [List.range_succ]
  rw [hlen] at hlt
  refine ⟨by rw [hpack]; rfl, fun acc => ?_⟩
  rw [symsFrom_eq, hlen, hpack]
  generalize symsFrom 0 syms = n at hlt
  simp only [beFrom, List.foldl_cons, List.foldl_nil, UInt8.toNat_ofNat']
  omega

section
variable {s t : Bytes} {syms : List Nat}

theorem base32Quanta_cons {b : UInt8} (hb : b ≠ 61) (syms : List Nat) (s : Bytes) :
    base32Quanta syms (b :: s) =
      (base32Val b).bind fun v =>
        if syms.length = 7 then (base32Quanta [] s).map (base32Pack (syms ++ [v]) ++ ·)
        else base32Quanta (syms ++ [v]) s := by
  rw [base32Quanta, if_neg fun h => hb h.1]
  cases base32Val b with
  | none => rfl
  | some v => rfl

/-- Whole quanta of symbols are decoded. -/
theorem exists_base32Quanta (hpad : 61 ∉ s) (hdigits : Digits base32Val s) (hsyms : syms.length < 8)
    (hwhole : (syms.length + s.length) % 8 = 0) : ∃ t, base32Quanta syms s = some t := by
  induction s generalizing syms with
  | nil =>
    rw [List.length_nil] at hwhole
    obtain rfl : syms = [] := List.eq_nil_of_length_eq_zero (by omega)
    exact ⟨[], rfl⟩
  | cons b s ih =>
    obtain ⟨hb, hpad⟩ := not_or.mp (mt List.mem_cons.mpr hpad)
    obtain ⟨⟨v, hv⟩, hdigits⟩ := digits_cons.mp hdigits
    rw [List.length_cons] at hwhole
    rw [base32Quanta_cons (Ne.symm hb), hv, Option.bind_some]
    split_ifs with hfull
    · obtain ⟨t, ht⟩ := @ih [] hpad hdigits (by decide) (by rw [List.length_nil]; omega)
      exact ⟨_, by rw [ht, Option.map_some]⟩
    · refine ih hpad hdigits ?_ ?_
      · rw [List.length_append, List.length_singleton]
        omega
      · rw [List.length_append, List.length_singleton]
        omega

/-- Without padding, what is decoded are whole quanta of symbols. -/
theorem of_base32Quanta (hpad : 61 ∉ s) (hlt : ∀ v ∈ syms, v < 32) (hsyms : syms.length < 8)
    (h : base32Quanta syms s = some t) :
    Digits base32Val s ∧ (syms.length + s.length) * 5 = t.length * 8 ∧
      ∀ acc, beFrom acc t = radixFrom 32 base32Val (symsFrom acc syms) s := by
  induction s generalizing syms t with
  | nil =>
    cases syms with
    | nil =>
      rw [← Option.some.inj h]
      exact ⟨List.forall_mem_nil _, rfl, fun _ => rfl⟩
    | cons v syms => cases h
  | cons b s ih =>
    obtain ⟨hb, hpad⟩ := not_or.mp (mt List.mem_cons.mpr hpad)
    rw [base32Quanta_cons (Ne.symm hb), Option.bind_eq_some_iff] at h
    obtain ⟨v, hv, h⟩ := h
    have hlt' : ∀ w ∈ syms ++ [v], w < 32 := by
      intro w hw
      rcases List.mem_append.mp hw with hw | hw
      · exact hlt w hw
      · rw [List.mem_singleton.mp hw]
        exact base32Val_lt hv
    have hlen : (syms ++ [v]).length = syms.length + 1 := by
      rw [List.length_append, List.length_singleton]
    have hnext : ∀ acc, radixFrom 32 base32Val (symsFrom acc syms) (b :: s) =
        radixFrom 32 base32Val (symsFrom acc (syms ++ [v])) s := by
      intro acc
      have hsnoc : symsFrom acc (syms ++ [v]) = symsFrom acc syms * 32 + v := by
        rw [symsFrom, List.foldl_append]
        rfl
      rw [hsnoc]
      show radixFrom 32 base32Val (symsFrom acc syms * 32 + (base32Val b).getD 0) s = _
      rw [hv, Option.getD_some]
    split_ifs at h with hfull
    · obtain ⟨t', ht', rfl⟩ := Option.map_eq_some_iff.mp h
      obtain ⟨hdigits, hcount, hvalue⟩ := @ih _ [] hpad (List.forall_mem_nil _) (by decide) ht'
      obtain ⟨hfive, hpack⟩ := base32Pack_eight (by omega) hlt'
      refine ⟨digits_cons.mpr ⟨⟨v, hv⟩, hdigits⟩, ?_, fun acc => ?_⟩
      · rw [List.length_append, List.length_cons, hfive]
        rw [List.length_nil] at hcount
        omega
      · rw [hnext, beFrom, List.foldl_append]
        show beFrom (beFrom acc (base32Pack (syms ++ [v]))) t' = _
        rw [hpack, hvalue]
        rfl
    · obtain ⟨hdigits, hcount, hvalue⟩ := ih hpad hlt' (by omega) h
      refine ⟨digits_cons.mpr ⟨⟨v, hv⟩, hdigits⟩, ?_, fun acc => ?_⟩
      · rw [List.length_cons]
        omega
      · rw [hnext, hvalue]

end

/-! ## Upper case -/

def upperByte (b : UInt8) : UInt8 := if isLower b then b - 32 else b

/-- The two characters outside ASCII whose upper case is an ASCII letter. -/
def dotlessI : Bytes := [0xc4, 0xb1]
def longS : Bytes := [0xc5, 0xbf]

theorem toUpper_eq_map {s : Bytes} (hi : ¬ dotlessI <:+: s) (hs : ¬ longS <:+: s) :
    toUpper s = s.map upperByte := by
  induction s using toUpper.induct with
  | case1 => rfl
  | case2 b => rfl
  | case3 b c bs hpair =>
    obtain ⟨rfl, rfl⟩ := hpair
    exact absurd (List.prefix_append dotlessI bs).isInfix hi
  | case4 b c bs hpair hpair' =>
    obtain ⟨rfl, rfl⟩ := hpair'
    exact absurd (List.prefix_append longS bs).isInfix hs
  | case5 b c bs hpair hpair' ih =>
    have htail : (c :: bs) <:+: b :: c :: bs := (List.suffix_cons b (c :: bs)).isInfix
    rw [toUpper, if_neg hpair, if_neg hpair',
      ih (fun h => hi (h.trans htail)) fun h => hs (h.trans htail)]
    rfl

end Stor.Lib
