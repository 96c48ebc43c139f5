import Stor.Lib.Radix
import Stor.Lib.Utf8

/-!
# Quoted texts

`quote` writes a byte string between double quotes, with an escape for whatever is not
printable, and `unquote` reads such a text.  A byte string is a sequence of characters and of
bytes that belong to none (`runes`), and each of them is quoted by itself (`quoteRune`), so that
`unquote_quote` is one fact about each.

Which characters above ASCII are printable is a parameter.
-/

namespace Stor.Lib

/-! ## Characters -/

def runesFrom : Nat → Bytes → List Bytes
  | _, [] => []
  | n + 1, _ :: bs => runesFrom n bs
  | 0, b :: bs => (b :: bs.take (runeLen (b :: bs) - 1)) :: runesFrom (runeLen (b :: bs) - 1) bs

/-- The characters of a string; a byte that is part of none stands by itself. -/
def runes (s : Bytes) : List Bytes := runesFrom 0 s

/-- The code point of a character. -/
def runeVal : Bytes → Nat
  | [b] => b.toNat
  | [b, c] => (b.toNat - 0xC0) * 64 + (c.toNat - 0x80)
  | [b, c, d] => ((b.toNat - 0xE0) * 64 + (c.toNat - 0x80)) * 64 + (d.toNat - 0x80)
  | [b, c, d, e] =>
    (((b.toNat - 0xF0) * 64 + (c.toNat - 0x80)) * 64 + (d.toNat - 0x80)) * 64 + (e.toNat - 0x80)
  | _ => 0

def validRune (v : Nat) : Bool := v < 0xD800 || (0xDFFF < v && v ≤ 0x10FFFF)

/-- The character of a valid code point. -/
def encodeRune (v : Nat) : Bytes :=
  if v < 0x80 then [UInt8.ofNat v]
  else if v < 0x800 then [UInt8.ofNat (0xC0 + v / 64), UInt8.ofNat (0x80 + v % 64)]
  else if v < 0x10000 then
    [UInt8.ofNat (0xE0 + v / 4096), UInt8.ofNat (0x80 + v / 64 % 64), UInt8.ofNat (0x80 + v % 64)]
  else
    [UInt8.ofNat (0xF0 + v / 262144), UInt8.ofNat (0x80 + v / 4096 % 64),
      UInt8.ofNat (0x80 + v / 64 % 64), UInt8.ofNat (0x80 + v % 64)]

/-! ## Writing -/

/-- A number in `n` hexadecimal digits. -/
def hexText : Nat → Nat → Bytes
  | 0, _ => []
  | n + 1, v => hexText n (v / 16) ++ [hexDigit (v % 16)]

/-- The control characters with a letter of their own. -/
def controls : List (UInt8 × UInt8) :=
  [(7, 97), (8, 98), (12, 102), (10, 110), (13, 114), (9, 116), (11, 118)]

def quoteByte (b : UInt8) : Bytes :=
  if b = 34 ∨ b = 92 then [92, b]
  else if 32 ≤ b ∧ b < 127 then [b]
  else
    match controls.lookup b with
    | some letter => [92, letter]
    | none => 92 :: 120 :: hexText 2 b.toNat

/-- The text of a character, or of a byte that is part of none. -/
def quoteRune (isPrint : Nat → Bool) : Bytes → Bytes
  | [b] => quoteByte b
  | r =>
    if isPrint (runeVal r) then r
    else if runeVal r < 0x10000 then 92 :: 117 :: hexText 4 (runeVal r)
    else 92 :: 85 :: hexText 8 (runeVal r)

def quoteBody (isPrint : Nat → Bool) (s : Bytes) : Bytes := (runes s).flatMap (quoteRune isPrint)

def quote (isPrint : Nat → Bool) (s : Bytes) : Bytes := 34 :: quoteBody isPrint s ++ [34]

/-! ## Reading -/

/-- The number that `n` hexadecimal digits in front stand for. -/
def readHex (n : Nat) (s : Bytes) : Option (Nat × Bytes) :=
  if n ≤ s.length ∧ Digits hexVal (s.take n) then some (radixValue 16 hexVal (s.take n), s.drop n)
  else none

def readRune (n : Nat) (s : Bytes) : Option (Bytes × Bytes) :=
  match readHex n s with
  | none => none
  | some (v, s) => if validRune v then some (encodeRune v, s) else none

def isOctal (b : UInt8) : Bool := 48 ≤ b.toNat && b.toNat ≤ 55

def readOctal : Bytes → Option (Bytes × Bytes)
  | a :: b :: c :: s =>
    let v := (digitVal a * 8 + digitVal b) * 8 + digitVal c
    if isOctal a && isOctal b && isOctal c && v ≤ 255 then some ([UInt8.ofNat v], s) else none
  | _ => none

/-- What is behind a backslash. -/
def unescape : Bytes → Option (Bytes × Bytes)
  | [] => none
  | c :: s =>
    if c = 34 ∨ c = 92 then some ([c], s)
    else
      match (controls.map Prod.swap).lookup c with
      | some b => some ([b], s)
      | none =>
        if c = 120 then (readHex 2 s).map fun r => ([UInt8.ofNat r.1], r.2)
        else if c = 117 then readRune 4 s
        else if c = 85 then readRune 8 s
        else readOctal (c :: s)

/-- The character in front, and what is behind it. -/
def unquoteChar : Bytes → Option (Bytes × Bytes)
  | [] => none
  | c :: s =>
    if c = 34 then none
    else if 0x80 ≤ c then
      match runeLen (c :: s) with
      | 0 => some (replacement, s)
      | n + 1 => some (c :: s.take n, s.drop n)
    else if c ≠ 92 then some ([c], s)
    else unescape s

/-- The characters up to the closing quote, and what is behind it; no more than `fuel` of
them. -/
def unquoteBody : Nat → Bytes → Option (Bytes × Bytes)
  | 0, _ => none
  | _ + 1, [] => none
  | fuel + 1, c :: s =>
    if c = 34 then some ([], s)
    else if c = 10 then none
    else
      match unquoteChar (c :: s) with
      | none => none
      | some (r, rest) => (unquoteBody fuel rest).map fun p => (r ++ p.1, p.2)

/-- The string of a text between double quotes. -/
def unquote : Bytes → Option Bytes
  | [] => none
  | q :: s =>
    if q ≠ 34 then none
    else
      match unquoteBody s.length s with
      | some (out, []) => some out
      | _ => none

/-! ## The characters of a string -/

/-- One of the parts of a string: a single byte, or a character of several. -/
inductive IsRune : Bytes → Prop
  | byte (b : UInt8) : IsRune [b]
  | char {b : UInt8} {bs : Bytes} (hne : bs ≠ []) (h : runeLen (b :: bs) = bs.length + 1) :
      IsRune (b :: bs)

theorem flatten_runesFrom (n : Nat) (s : Bytes) : (runesFrom n s).flatten = s.drop n := by
  induction s generalizing n with
  | nil =>
    rw [List.drop_nil]
    cases n <;> rfl
  | cons b bs ih =>
    cases n with
    | succ n => exact ih n
    | zero =>
      rw [runesFrom, List.flatten_cons, ih, List.cons_append, List.take_append_drop]
      rfl

theorem flatten_runes (s : Bytes) : (runes s).flatten = s := flatten_runesFrom 0 s

theorem runeLen_le (b : UInt8) (bs : Bytes) : runeLen (b :: bs) ≤ bs.length + 1 := by
  rw [runeLen]
  cases continuation b with
  | none => exact Nat.zero_le _
  | some r =>
    dsimp only
    split
    next h => exact Nat.succ_le_succ h.1
    next => exact Nat.zero_le _

theorem isRune_head (b : UInt8) (bs : Bytes) :
    IsRune (b :: bs.take (runeLen (b :: bs) - 1)) := by
  have hle := runeLen_le b bs
  rcases Nat.lt_or_ge 1 (runeLen (b :: bs)) with hlong | hshort
  · have hlen : (bs.take (runeLen (b :: bs) - 1)).length = runeLen (b :: bs) - 1 :=
      List.length_take_of_le (by omega)
    refine .char (fun hnil => ?_) ?_
    · rw [hnil, List.length_nil] at hlen
      omega
    · have hsucc : runeLen (b :: bs) = runeLen (b :: bs) - 1 + 1 := by omega
      have htake := runeLen_of_take (t := []) hsucc
      rw [hlen]
      rwa [List.append_nil] at htake
  · rw [show runeLen (b :: bs) - 1 = 0 by omega, List.take_zero]
    exact .byte b

theorem isRune_of_mem_runesFrom {n : Nat} {s r : Bytes} (h : r ∈ runesFrom n s) : IsRune r := by
  induction s generalizing n with
  | nil => cases n <;> cases h
  | cons b bs ih =>
    cases n with
    | succ n => exact ih h
    | zero =>
      rcases List.mem_cons.mp h with rfl | h
      · exact isRune_head b bs
      · exact ih h

theorem isRune_of_mem {s r : Bytes} (h : r ∈ runes s) : IsRune r := isRune_of_mem_runesFrom h

/-! ## Hexadecimal numbers -/

theorem hexVal_hexDigit {d : Nat} (h : d < 16) : hexVal (hexDigit d) = some d := by
  revert d
  decide

theorem length_hexText (n v : Nat) : (hexText n v).length = n := by
  induction n generalizing v with
  | zero => rfl
  | succ n ih => rw [hexText, List.length_append, ih, List.length_singleton]

theorem length_escape (a b : UInt8) (n v : Nat) : (a :: b :: hexText n v).length = n + 2 := by
  rw [List.length_cons, List.length_cons, length_hexText]

theorem digits_hexText (n v : Nat) : Digits hexVal (hexText n v) := by
  induction n generalizing v with
  | zero => exact List.forall_mem_nil _
  | succ n ih =>
    rw [hexText]
    refine List.forall_mem_append.mpr ⟨ih _, List.forall_mem_singleton.mpr ?_⟩
    rw [hexVal_hexDigit (Nat.mod_lt v (by decide))]
    rfl

theorem radixValue_hexText {n v : Nat} (h : v < 16 ^ n) :
    radixValue 16 hexVal (hexText n v) = v := by
  induction n generalizing v with
  | zero =>
    rw [Nat.pow_zero] at h
    rw [Nat.lt_one_iff.mp h]
    rfl
  | succ n ih =>
    have hdiv : v / 16 < 16 ^ n := Nat.div_lt_of_lt_mul (by rw [Nat.pow_succ] at h; omega)
    have hvalue := ih hdiv
    unfold radixValue radixFrom at hvalue ⊢
    rw [hexText, List.foldl_append, hvalue, List.foldl_cons, List.foldl_nil,
      hexVal_hexDigit (Nat.mod_lt v (by decide)), Option.getD_some]
    omega

theorem readHex_hexText {n v : Nat} (h : v < 16 ^ n) (rest : Bytes) :
    readHex n (hexText n v ++ rest) = some (v, rest) := by
  have hlen := length_hexText n v
  have htake : (hexText n v ++ rest).take n = hexText n v := List.take_left' hlen
  have hdrop : (hexText n v ++ rest).drop n = rest := List.drop_left' hlen
  have hle : n ≤ (hexText n v ++ rest).length := by
    rw [List.length_append]
    omega
  rw [readHex, htake, hdrop, if_pos ⟨hle, digits_hexText n v⟩, radixValue_hexText h]

/-! ## Code points -/

/-- The bytes of a character of several. -/
inductive CharBytes : UInt8 → Bytes → Prop
  | two {b c : UInt8} (hb : 0xC2 ≤ b.toNat ∧ b.toNat ≤ 0xDF)
      (hc : 0x80 ≤ c.toNat ∧ c.toNat ≤ 0xBF) : CharBytes b [c]
  | three {b c d : UInt8} (hb : 0xE0 ≤ b.toNat ∧ b.toNat ≤ 0xEF)
      (hc : 0x80 ≤ c.toNat ∧ c.toNat ≤ 0xBF) (hlow : b.toNat ≠ 0xE0 ∨ 0xA0 ≤ c.toNat)
      (hsurrogate : b.toNat ≠ 0xED ∨ c.toNat ≤ 0x9F) (hd : 0x80 ≤ d.toNat ∧ d.toNat ≤ 0xBF) :
      CharBytes b [c, d]
  | four {b c d e : UInt8} (hb : 0xF0 ≤ b.toNat ∧ b.toNat ≤ 0xF4)
      (hc : 0x80 ≤ c.toNat ∧ c.toNat ≤ 0xBF) (hlow : b.toNat ≠ 0xF0 ∨ 0x90 ≤ c.toNat)
      (hhigh : b.toNat ≠ 0xF4 ∨ c.toNat ≤ 0x8F) (hd : 0x80 ≤ d.toNat ∧ d.toNat ≤ 0xBF)
      (he : 0x80 ≤ e.toNat ∧ e.toNat ≤ 0xBF) : CharBytes b [c, d, e]

theorem isContinuation_iff {b : UInt8} :
    isContinuation b = true ↔ 0x80 ≤ b.toNat ∧ b.toNat ≤ 0xBF := by
  rw [isContinuation, decide_eq_true_eq, UInt8.le_iff_toNat_le, UInt8.le_iff_toNat_le]
  rfl

/-- What the first byte of a character of several says about the next. -/
theorem continuation_cases {b lo hi : UInt8} {n : Nat} (h : continuation b = some (n, lo, hi))
    (hn : n ≠ 0) :
    0x80 ≤ lo.toNat ∧ hi.toNat ≤ 0xBF ∧
      (n = 1 ∧ 0xC2 ≤ b.toNat ∧ b.toNat ≤ 0xDF ∨
        n = 2 ∧ 0xE0 ≤ b.toNat ∧ b.toNat ≤ 0xEF ∧ (b.toNat ≠ 0xE0 ∨ 0xA0 ≤ lo.toNat) ∧
          (b.toNat ≠ 0xED ∨ hi.toNat ≤ 0x9F) ∨
        n = 3 ∧ 0xF0 ≤ b.toNat ∧ b.toNat ≤ 0xF4 ∧ (b.toNat ≠ 0xF0 ∨ 0x90 ≤ lo.toNat) ∧
          (b.toNat ≠ 0xF4 ∨ hi.toNat ≤ 0x8F)) := by
  unfold continuation at h
  simp only [UInt8.lt_iff_toNat_lt, UInt8.le_iff_toNat_le, ← UInt8.toNat_inj,
    UInt8.reduceToNat] at h
  split_ifs at h with hascii htwo hlow hsurrogate hthree hlow hfour hhigh
  all_goals
    obtain ⟨rfl, hrange⟩ := Prod.mk.inj (Option.some.inj h)
    obtain ⟨rfl, rfl⟩ := Prod.mk.inj hrange
  · exact absurd rfl hn
  · exact ⟨by decide, by decide, .inl ⟨rfl, htwo⟩⟩
  · exact ⟨by decide, by decide, .inr (.inl ⟨rfl, by omega, by omega, .inr (by decide),
      .inl (by omega)⟩)⟩
  · exact ⟨by decide, by decide, .inr (.inl ⟨rfl, by omega, by omega, .inl (by omega),
      .inr (by decide)⟩)⟩
  · exact ⟨by decide, by decide, .inr (.inl ⟨rfl, by omega, by omega, .inl hlow,
      .inl hsurrogate⟩)⟩
  · exact ⟨by decide, by decide, .inr (.inr ⟨rfl, by omega, by omega, .inr (by decide),
      .inl (by omega)⟩)⟩
  · exact ⟨by decide, by decide, .inr (.inr ⟨rfl, by omega, by omega, .inl (by omega),
      .inl (by omega)⟩)⟩
  · exact ⟨by decide, by decide, .inr (.inr ⟨rfl, by omega, by omega, .inl (by omega),
      .inr (by decide)⟩)⟩

section
variable {lo hi c d e : UInt8}

theorem continues_cons {bs : Bytes} (h : continues lo hi (c :: bs) = true) (hlo : 0x80 ≤ lo.toNat)
    (hhi : hi.toNat ≤ 0xBF) :
    (lo.toNat ≤ c.toNat ∧ c.toNat ≤ hi.toNat) ∧ (0x80 ≤ c.toNat ∧ c.toNat ≤ 0xBF) ∧
      ∀ b ∈ bs, 0x80 ≤ b.toNat ∧ b.toNat ≤ 0xBF := by
  rw [continues, Bool.and_eq_true, decide_eq_true_eq, UInt8.le_iff_toNat_le,
    UInt8.le_iff_toNat_le] at h
  refine ⟨h.1, by omega, fun b hb => ?_⟩
  exact isContinuation_iff.mp (List.all_eq_true.mp h.2 b hb)

end

theorem charBytes_of_runeLen {b : UInt8} {bs : Bytes} (hne : bs ≠ [])
    (h : runeLen (b :: bs) = bs.length + 1) : CharBytes b bs := by
  rw [runeLen] at h
  cases hcont : continuation b with
  | none =>
    rw [hcont] at h
    cases h
  | some r =>
    obtain ⟨n, lo, hi⟩ := r
    rw [hcont] at h
    dsimp only at h
    split at h
    next hfits =>
      obtain rfl : n = bs.length := by omega
      have hbytes := hfits.2
      rw [List.take_length] at hbytes
      obtain ⟨hlo, hhi, hcases⟩ := continuation_cases hcont
        fun hnil => hne (List.length_eq_zero_iff.mp hnil)
      obtain ⟨c, bs, rfl⟩ := List.exists_cons_of_ne_nil hne
      obtain ⟨hrange, hc, hrest⟩ := continues_cons hbytes hlo hhi
      rcases hcases with ⟨hlen, hb⟩ | ⟨hlen, hb, hb', hlow, hhigh⟩ |
        ⟨hlen, hb, hb', hlow, hhigh⟩
      · have hnil : bs.length = 0 := by rw [List.length_cons] at hlen; omega
        rw [List.length_eq_zero_iff.mp hnil]
        exact .two hb hc
      · have hone : bs.length = 1 := by rw [List.length_cons] at hlen; omega
        obtain ⟨d, rfl⟩ := List.length_eq_one_iff.mp hone
        exact .three ⟨hb, hb'⟩ hc (by omega) (by omega) (hrest d List.mem_cons_self)
      · have htwo : bs.length = 2 := by rw [List.length_cons] at hlen; omega
        obtain ⟨d, e, rfl⟩ := List.length_eq_two.mp htwo
        exact .four ⟨hb, hb'⟩ hc (by omega) (by omega) (hrest d List.mem_cons_self)
          (hrest e (List.mem_cons_of_mem d List.mem_cons_self))
    next => cases h

section
variable {b : UInt8} {bs : Bytes}

theorem ofNat_eq {c : UInt8} {n : Nat} (h : n = c.toNat) : UInt8.ofNat n = c := by
  rw [h, UInt8.ofNat_toNat]

theorem runeVal_two (b c : UInt8) :
    runeVal [b, c] = (b.toNat - 0xC0) * 64 + (c.toNat - 0x80) := by
  unfold runeVal
  rfl

theorem runeVal_three (b c d : UInt8) :
    runeVal [b, c, d] =
      ((b.toNat - 0xE0) * 64 + (c.toNat - 0x80)) * 64 + (d.toNat - 0x80) := by
  unfold runeVal
  rfl

theorem runeVal_four (b c d e : UInt8) :
    runeVal [b, c, d, e] =
      (((b.toNat - 0xF0) * 64 + (c.toNat - 0x80)) * 64 + (d.toNat - 0x80)) * 64 +
        (e.toNat - 0x80) := by
  unfold runeVal
  rfl

theorem CharBytes.validRune (h : CharBytes b bs) : validRune (runeVal (b :: bs)) = true := by
  unfold Lib.validRune
  rw [Bool.or_eq_true, Bool.and_eq_true, decide_eq_true_eq, decide_eq_true_eq, decide_eq_true_eq]
  cases h with
  | two hb hc =>
    rw [runeVal_two]
    omega
  | three hb hc hlow hsurrogate hd =>
    rw [runeVal_three]
    omega
  | four hb hc hlow hhigh hd he =>
    rw [runeVal_four]
    omega

theorem CharBytes.encodeRune (h : CharBytes b bs) : encodeRune (runeVal (b :: bs)) = b :: bs := by
  unfold Lib.encodeRune
  cases h with
  | @two c hb hc =>
    rw [runeVal_two, if_neg (by omega), if_pos (by omega), ofNat_eq (c := b) (by omega),
      ofNat_eq (c := c) (by omega)]
  | @three c d hb hc hlow hsurrogate hd =>
    rw [runeVal_three, if_neg (by omega), if_neg (by omega), if_pos (by omega),
      ofNat_eq (c := b) (by omega), ofNat_eq (c := c) (by omega), ofNat_eq (c := d) (by omega)]
  | @four c d e hb hc hlow hhigh hd he =>
    rw [runeVal_four, if_neg (by omega), if_neg (by omega), if_neg (by omega),
      ofNat_eq (c := b) (by omega), ofNat_eq (c := c) (by omega), ofNat_eq (c := d) (by omega),
      ofNat_eq (c := e) (by omega)]

end

/-! ## The text of a character -/

/-- The parts of a string, and the texts that they are quoted as. -/
inductive Quoted : Bytes → Bytes → Prop
  | plain {b : UInt8} (hlo : 32 ≤ b.toNat) (hhi : b.toNat < 127) (hquote : b ≠ 34)
      (hslash : b ≠ 92) : Quoted [b] [b]
  | escaped {b : UInt8} (h : b = 34 ∨ b = 92) : Quoted [b] [92, b]
  | letter {b l : UInt8} (h : (b, l) ∈ controls) : Quoted [b] [92, l]
  | byte {b : UInt8} (h : b ≠ 92) : Quoted [b] (92 :: 120 :: hexText 2 b.toNat)
  | raw {b : UInt8} {bs : Bytes} (h : CharBytes b bs) (hlen : runeLen (b :: bs) = bs.length + 1) :
      Quoted (b :: bs) (b :: bs)
  | short {b : UInt8} {bs : Bytes} (h : CharBytes b bs) (hv : runeVal (b :: bs) < 0x10000) :
      Quoted (b :: bs) (92 :: 117 :: hexText 4 (runeVal (b :: bs)))
  | long {b : UInt8} {bs : Bytes} (h : CharBytes b bs) (hv : ¬ runeVal (b :: bs) < 0x10000) :
      Quoted (b :: bs) (92 :: 85 :: hexText 8 (runeVal (b :: bs)))

theorem quoted_quoteByte (b : UInt8) : Quoted [b] (quoteByte b) := by
  unfold quoteByte
  split_ifs with hspecial hprint
  · exact .escaped hspecial
  · obtain ⟨hquote, hslash⟩ := not_or.mp hspecial
    rw [UInt8.le_iff_toNat_le, UInt8.lt_iff_toNat_lt] at hprint
    exact .plain hprint.1 hprint.2 hquote hslash
  · cases hletter : controls.lookup b with
    | none => exact .byte fun h => hspecial (.inr h)
    | some l =>
      obtain ⟨before, after, hcontrols, -⟩ := List.lookup_eq_some_iff.mp hletter
      refine .letter ?_
      rw [hcontrols]
      exact List.mem_append_right _ List.mem_cons_self

theorem quoted_quoteRune (isPrint : Nat → Bool) {r : Bytes} (h : IsRune r) :
    Quoted r (quoteRune isPrint r) := by
  cases h with
  | byte b => exact quoted_quoteByte b
  | @char b bs hne h =>
    have hchar := charBytes_of_runeLen hne h
    obtain ⟨c, cs, rfl⟩ := List.exists_cons_of_ne_nil hne
    rw [quoteRune]
    split_ifs with hprint hshort
    · exact .raw hchar h
    · exact .short hchar hshort
    · exact .long hchar hshort
    · intro b' hb'
      cases hb'

theorem mem_hexText {c : UInt8} {n v : Nat} (h : c ∈ hexText n v) : (hexVal c).isSome :=
  digits_hexText n v c h

section
variable {r t : Bytes}

theorem CharBytes.high {b : UInt8} {bs : Bytes} (h : CharBytes b bs) :
    ∀ c ∈ b :: bs, 0x80 ≤ c.toNat := by
  cases h with
  | two hb hc =>
    simp only [List.mem_cons, List.not_mem_nil, or_false, forall_eq_or_imp, forall_eq]
    omega
  | three hb hc hlow hsurrogate hd =>
    simp only [List.mem_cons, List.not_mem_nil, or_false, forall_eq_or_imp, forall_eq]
    omega
  | four hb hc hlow hhigh hd he =>
    simp only [List.mem_cons, List.not_mem_nil, or_false, forall_eq_or_imp, forall_eq]
    omega

theorem CharBytes.length {b : UInt8} {bs : Bytes} (h : CharBytes b bs) :
    2 ≤ (b :: bs).length ∧ (b :: bs).length ≤ 4 ∧
      (runeVal (b :: bs) < 0x10000 ∨ (b :: bs).length = 4) := by
  cases h with
  | two hb hc =>
    rw [runeVal_two]
    exact ⟨Nat.le_refl 2, Nat.le_add_left 2 2, .inl (by omega)⟩
  | three hb hc hlow hsurrogate hd =>
    rw [runeVal_three]
    exact ⟨Nat.le_succ 2, Nat.le_succ 3, .inl (by omega)⟩
  | four hb hc hlow hhigh hd he => exact ⟨Nat.le_add_left 2 2, Nat.le_refl 4, .inr rfl⟩

theorem mem_controls {p : UInt8 × UInt8} (h : p ∈ controls) :
    p.1 ≠ 92 ∧ p.2 ≠ 10 ∧ p.2 ≠ 34 ∧ p.2 ≠ 92 ∧
      (controls.map Prod.swap).lookup p.2 = some p.1 := by
  have hall : controls.all (fun p => decide (p.1 ≠ 92 ∧ p.2 ≠ 10 ∧ p.2 ≠ 34 ∧ p.2 ≠ 92 ∧
      (controls.map Prod.swap).lookup p.2 = some p.1)) = true := by decide
  exact of_decide_eq_true (List.all_eq_true.mp hall p h)

/-- No line ends in a quoted text, and a quote stands right behind a backslash. -/
theorem Quoted.bytes (h : Quoted r t) : ∀ c ∈ t, c ≠ 10 ∧ (c = 34 → t = [92, 34]) := by
  have hescape : ∀ {l : UInt8} {n v : Nat}, l ≠ 10 → l ≠ 34 →
      ∀ c ∈ 92 :: l :: hexText n v, c ≠ 10 ∧ c ≠ 34 := by
    intro l n v hten hquote c hc
    rcases List.mem_cons.mp hc with rfl | hc
    · decide
    · rcases List.mem_cons.mp hc with rfl | hc
      · exact ⟨hten, hquote⟩
      · have hsome := mem_hexText hc
        refine ⟨fun heq => ?_, fun heq => ?_⟩
        · rw [heq] at hsome
          exact absurd hsome (by decide)
        · rw [heq] at hsome
          exact absurd hsome (by decide)
  intro c hc
  cases h with
  | plain hlo hhi hquote hslash =>
    rw [List.mem_singleton.mp hc]
    refine ⟨fun heq => ?_, fun heq => absurd heq hquote⟩
    rw [heq] at hlo
    exact absurd hlo (by decide)
  | escaped h =>
    rcases h with rfl | rfl
    · exact ⟨by rintro rfl; revert hc; decide, fun _ => rfl⟩
    · rw [List.mem_cons, List.mem_singleton, or_self] at hc
      rw [hc]
      decide
  | letter h =>
    obtain ⟨-, hten, hquote, -⟩ := mem_controls h
    have hbytes := hescape (n := 0) (v := 0) hten hquote c hc
    exact ⟨hbytes.1, fun heq => absurd heq hbytes.2⟩
  | byte h | short h hv | long h hv =>
    have hbytes := hescape (by decide) (by decide) c hc
    exact ⟨hbytes.1, fun heq => absurd heq hbytes.2⟩
  | raw h hlen =>
    have hhigh := h.high c hc
    refine ⟨fun heq => ?_, fun heq => ?_⟩
    · rw [heq] at hhigh
      exact absurd hhigh (by decide)
    · rw [heq] at hhigh
      exact absurd hhigh (by decide)

/-- A quoted text ends in a backslash only for a backslash. -/
theorem Quoted.backslash (h : Quoted r t) : t.getLast? = some 92 ↔ r.getLast? = some 92 := by
  have hescape : ∀ {l : UInt8} {n v : Nat}, (92 :: l :: hexText (n + 1) v).getLast? ≠ some 92 := by
    intro l n v
    rw [hexText, ← List.cons_append, ← List.cons_append, List.getLast?_concat]
    intro heq
    have hsome := mem_hexText (n := n + 1) (v := v) (List.mem_append_right _ List.mem_cons_self)
    rw [Option.some.inj heq] at hsome
    exact absurd hsome (by decide)
  have hraw : ∀ {b : UInt8} {bs : Bytes}, CharBytes b bs → (b :: bs).getLast? ≠ some 92 :=
    fun hchar heq => absurd (hchar.high 92 (List.mem_of_getLast? heq)) (by decide)
  cases h with
  | plain hlo hhi hquote hslash => exact Iff.rfl
  | escaped h => exact Iff.rfl
  | letter h =>
    obtain ⟨hb, -, -, hl, -⟩ := mem_controls h
    exact iff_of_false (fun heq => hl (Option.some.inj heq)) fun heq => hb (Option.some.inj heq)
  | byte h => exact iff_of_false hescape fun heq => h (Option.some.inj heq)
  | raw h hlen => exact Iff.rfl
  | short h hv | long h hv => exact iff_of_false hescape (hraw h)

theorem Quoted.length (h : Quoted r t) : r.length ≤ t.length ∧ t.length ≤ 4 * r.length := by
  cases h with
  | plain hlo hhi hquote hslash => exact ⟨Nat.le_refl 1, Nat.le_add_left 1 3⟩
  | escaped h | letter h => exact ⟨Nat.le_succ 1, Nat.le_add_left 2 2⟩
  | byte h =>
    rw [length_escape]
    exact ⟨Nat.le_add_left 1 3, Nat.le_refl 4⟩
  | raw h hlen => omega
  | short h hv =>
    have hlen := h.length
    rw [length_escape]
    omega
  | long h hv =>
    rw [h.length.2.2.resolve_left hv, length_escape]
    decide

theorem unquoteChar_escape (s : Bytes) : unquoteChar (92 :: s) = unescape s := by
  rw [unquoteChar, if_neg (by decide), if_neg (by decide), if_neg (not_not.mpr rfl)]

theorem unescape_byte (s : Bytes) :
    unescape (120 :: s) = (readHex 2 s).map fun r => ([UInt8.ofNat r.1], r.2) := by
  have hlookup : (controls.map Prod.swap).lookup (120 : UInt8) = none := by decide
  rw [unescape, if_neg (by decide), hlookup]
  exact if_pos rfl

theorem unescape_short (s : Bytes) : unescape (117 :: s) = readRune 4 s := by
  have hlookup : (controls.map Prod.swap).lookup (117 : UInt8) = none := by decide
  rw [unescape, if_neg (by decide), hlookup]
  dsimp only
  rw [if_neg (by decide), if_pos rfl]

theorem unescape_long (s : Bytes) : unescape (85 :: s) = readRune 8 s := by
  have hlookup : (controls.map Prod.swap).lookup (85 : UInt8) = none := by decide
  rw [unescape, if_neg (by decide), hlookup]
  dsimp only
  rw [if_neg (by decide), if_neg (by decide), if_pos rfl]

theorem readRune_hexText {b : UInt8} {bs : Bytes} {n : Nat} (h : CharBytes b bs)
    (hv : runeVal (b :: bs) < 16 ^ n) (rest : Bytes) :
    readRune n (hexText n (runeVal (b :: bs)) ++ rest) = some (b :: bs, rest) := by
  rw [readRune, readHex_hexText hv]
  dsimp only
  rw [if_pos h.validRune, h.encodeRune]

/-- The reader takes the text of a character for the character. -/
theorem Quoted.unquoteChar (h : Quoted r t) (rest : Bytes) :
    unquoteChar (t ++ rest) = some (r, rest) := by
  cases h with
  | @plain b hlo hhi hquote hslash =>
    have hascii : ¬ 0x80 ≤ b := by
      rw [UInt8.le_iff_toNat_le]
      show ¬ 128 ≤ b.toNat
      omega
    rw [List.singleton_append, Lib.unquoteChar, if_neg hquote, if_neg hascii, if_pos hslash]
  | escaped h =>
    rw [List.cons_append, unquoteChar_escape, List.singleton_append, unescape, if_pos h]
  | @letter b l h =>
    obtain ⟨-, -, hquote, hslash, hlookup⟩ := mem_controls h
    rw [List.cons_append, unquoteChar_escape, List.singleton_append, unescape,
      if_neg (not_or.mpr ⟨hquote, hslash⟩), hlookup]
  | @byte b h =>
    have hfits : b.toNat < 16 ^ 2 := b.toNat_lt
    rw [List.cons_append, List.cons_append, unquoteChar_escape, unescape_byte,
      readHex_hexText hfits, Option.map_some, UInt8.ofNat_toNat]
  | @raw b bs h hlen =>
    have hhigh : 0x80 ≤ b := by
      rw [UInt8.le_iff_toNat_le]
      exact h.high b List.mem_cons_self
    have hquote : b ≠ 34 := by
      rintro rfl
      exact absurd hhigh (by decide)
    have hlen' := runeLen_of_take (t := rest) hlen
    rw [List.take_length] at hlen'
    rw [List.cons_append, Lib.unquoteChar, if_neg hquote, if_pos hhigh, hlen']
    dsimp only
    rw [List.take_left, List.drop_left]
  | short h hv =>
    rw [List.cons_append, List.cons_append, unquoteChar_escape, unescape_short]
    exact readRune_hexText h hv rest
  | @long b bs h hv =>
    have hfits : runeVal (b :: bs) < 16 ^ 8 := by
      have hvalid := h.validRune
      unfold Lib.validRune at hvalid
      rw [Bool.or_eq_true, Bool.and_eq_true, decide_eq_true_eq, decide_eq_true_eq,
        decide_eq_true_eq] at hvalid
      omega
    rw [List.cons_append, List.cons_append, unquoteChar_escape, unescape_long]
    exact readRune_hexText h hfits rest

end

/-! ## A whole text -/

section
variable {isPrint : Nat → Bool} {s : Bytes}

theorem Quoted.exists_cons {r t : Bytes} (h : Quoted r t) : ∃ c cs, t = c :: cs ∧ c ≠ 34 := by
  cases h with
  | plain hlo hhi hquote hslash => exact ⟨_, _, rfl, hquote⟩
  | raw h hlen =>
    refine ⟨_, _, rfl, fun heq => ?_⟩
    have hhigh := h.high _ List.mem_cons_self
    rw [heq] at hhigh
    exact absurd hhigh (by decide)
  | escaped h | letter h | byte h | short h hv | long h hv => exact ⟨_, _, rfl, by decide⟩

/-- The characters are read up to the closing quote, whatever is behind it. -/
theorem unquoteBody_flatMap (isPrint : Nat → Bool) {rs : List Bytes}
    (hrs : ∀ r ∈ rs, IsRune r) {fuel : Nat} (hfuel : rs.length < fuel) (rest : Bytes) :
    unquoteBody fuel (rs.flatMap (quoteRune isPrint) ++ 34 :: rest) = some (rs.flatten, rest) := by
  induction rs generalizing fuel with
  | nil =>
    obtain ⟨fuel, rfl⟩ := Nat.exists_eq_add_of_lt hfuel
    rfl
  | cons r rs ih =>
    obtain ⟨hr, hrs⟩ := List.forall_mem_cons.mp hrs
    obtain ⟨fuel, rfl⟩ := Nat.exists_eq_add_of_lt hfuel
    have hquoted := quoted_quoteRune isPrint hr
    obtain ⟨c, cs, htext, hquote⟩ := hquoted.exists_cons
    have hten : c ≠ 10 := (hquoted.bytes c (htext ▸ List.mem_cons_self)).1
    have hread := hquoted.unquoteChar (rs.flatMap (quoteRune isPrint) ++ 34 :: rest)
    have hless : rs.length < (r :: rs).length + fuel := by
      rw [List.length_cons]
      omega
    rw [htext, List.cons_append] at hread
    rw [List.flatMap_cons, List.append_assoc, htext, List.cons_append, unquoteBody,
      if_neg hquote, if_neg hten, hread]
    dsimp only
    rw [ih hrs hless, Option.map_some, List.flatten_cons]

theorem length_le_flatMap (isPrint : Nat → Bool) {rs : List Bytes} (hrs : ∀ r ∈ rs, IsRune r) :
    rs.length ≤ (rs.flatMap (quoteRune isPrint)).length := by
  induction rs with
  | nil => exact Nat.le_refl 0
  | cons r rs ih =>
    obtain ⟨hr, hrs⟩ := List.forall_mem_cons.mp hrs
    obtain ⟨c, cs, htext, -⟩ := (quoted_quoteRune isPrint hr).exists_cons
    have hrest := ih hrs
    rw [List.flatMap_cons, List.length_append, htext, List.length_cons, List.length_cons]
    omega

theorem unquoteBody_quoteBody (isPrint : Nat → Bool) (s rest : Bytes) :
    unquoteBody (quoteBody isPrint s ++ 34 :: rest).length (quoteBody isPrint s ++ 34 :: rest) =
      some (s, rest) := by
  have hrunes : ∀ r ∈ runes s, IsRune r := fun r => isRune_of_mem
  have hfuel : (runes s).length < (quoteBody isPrint s ++ 34 :: rest).length := by
    have hlen := length_le_flatMap isPrint hrunes
    rw [quoteBody, List.length_append, List.length_cons]
    omega
  have hbody := unquoteBody_flatMap isPrint hrunes hfuel rest
  rwa [flatten_runes] at hbody

/-- A quoted string is read back. -/
theorem unquote_quote (isPrint : Nat → Bool) (s : Bytes) :
    unquote (quote isPrint s) = some s := by
  rw [quote, List.cons_append, unquote, if_neg (not_not.mpr rfl), unquoteBody_quoteBody]

/-- Nothing may stand behind the closing quote. -/
theorem unquote_behind {rest : Bytes} (h : rest ≠ []) :
    unquote (quote isPrint s ++ rest) = none := by
  obtain ⟨c, cs, rfl⟩ := List.exists_cons_of_ne_nil h
  rw [quote, List.cons_append, List.cons_append, List.append_assoc, List.singleton_append,
    unquote, if_neg (not_not.mpr rfl), unquoteBody_quoteBody]

theorem newline_notMem_quote : 10 ∉ quote isPrint s := by
  rw [quote, List.cons_append, List.mem_cons, List.mem_append, List.mem_singleton]
  rintro (h | h | h)
  · exact absurd h (by decide)
  · obtain ⟨r, hr, hmem⟩ := List.mem_flatMap.mp h
    exact ((quoted_quoteRune isPrint (isRune_of_mem hr)).bytes 10 hmem).1 rfl
  · exact absurd h (by decide)

theorem length_flatMap_bounds (isPrint : Nat → Bool) {rs : List Bytes}
    (hrs : ∀ r ∈ rs, IsRune r) :
    rs.flatten.length ≤ (rs.flatMap (quoteRune isPrint)).length ∧
      (rs.flatMap (quoteRune isPrint)).length ≤ 4 * rs.flatten.length := by
  induction rs with
  | nil => exact ⟨Nat.le_refl 0, Nat.le_refl 0⟩
  | cons r rs ih =>
    obtain ⟨hr, hrs⟩ := List.forall_mem_cons.mp hrs
    have hfirst := (quoted_quoteRune isPrint hr).length
    have hrest := ih hrs
    rw [List.flatMap_cons, List.length_append, List.flatten_cons, List.length_append]
    omega

theorem length_quote_bounds (isPrint : Nat → Bool) (s : Bytes) :
    s.length + 2 ≤ (quote isPrint s).length ∧ (quote isPrint s).length ≤ 4 * s.length + 2 := by
  have hbody := length_flatMap_bounds isPrint fun r => isRune_of_mem (s := s)
  rw [flatten_runes] at hbody
  rw [quote, List.length_append, List.length_cons, List.length_singleton, quoteBody]
  omega

theorem getLast?_quoteBody :
    (quoteBody isPrint s).getLast? = some 92 ↔ s.getLast? = some 92 := by
  have hrunes : ∀ r ∈ runes s, IsRune r := fun r => isRune_of_mem
  nth_rewrite 2 [← flatten_runes s]
  rw [quoteBody]
  rcases List.eq_nil_or_concat (runes s) with hnil | ⟨rs, r, hconcat⟩
  · rw [hnil]
    exact Iff.rfl
  · rw [List.concat_eq_append] at hconcat
    have hr : IsRune r := hrunes r (hconcat ▸ List.mem_append_right _ List.mem_cons_self)
    have hquoted := quoted_quoteRune isPrint hr
    obtain ⟨c, cs, htext, -⟩ := hquoted.exists_cons
    have hne : quoteRune isPrint r ≠ [] := by
      rw [htext]
      exact List.cons_ne_nil c cs
    have hne' : r ≠ [] := by
      cases hr <;> exact List.cons_ne_nil _ _
    rw [hconcat, List.flatMap_append, List.flatMap_singleton,
      List.flatten_append, List.flatten_singleton, List.getLast?_append_of_ne_nil _ hne,
      List.getLast?_append_of_ne_nil _ hne', hquoted.backslash]

end

end Stor.Lib
