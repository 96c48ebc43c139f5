import Stor.Bencode.Value

/-!
# The decoder

`bencode/decode.go`.  The three mutually recursive functions of the source are
`decodeValue` and the loops of `decodeList` and `decodeDict`; `totalItems`,
which the source shares through a pointer, is threaded through them.  Each call
consumes input or goes from a value into its first element, so `2 * len + 2`
calls are enough, and `decode_ne_outOfFuel` shows that the bound never shows.
-/

namespace Stor.Bencode

open Lib

def maxStringLength : Nat := 64 * 1024 * 1024
def maxCollectionSize : Nat := 1000000
def maxDecodeDepth : Nat := 100
def maxTotalItems : Nat := 2000000

/-- One constructor for each error the decoder builds; the source's texts differ
from each other exactly as these do. -/
inductive DecodeError where
  | unexpectedEnd
  | depthExceeded
  | unexpectedByte (b : UInt8)
  | invalidStringLength
  | missingColon
  | stringTooLong (n : Nat)
  | stringExceedsData
  | missingEndOfInteger
  | emptyInteger
  | leadingZero
  | negativeZero
  | leadingZeroNegative
  | badInteger
  | missingEndOfList
  | listTooLong
  | missingEndOfDict
  | dictTooLong
  | totalItemsExceeded
  | keyNotString
  | keysNotSorted (key prevKey : Bytes)
  | missingValue (key : Bytes)
  | outOfFuel
  deriving DecidableEq, Repr

/-- The errors that wrap `ErrUnexpectedEnd`; the others wrap
`ErrInvalidFormat`. -/
def DecodeError.isUnexpectedEnd : DecodeError → Bool
  | .unexpectedEnd | .stringExceedsData | .missingEndOfInteger | .missingEndOfList
  | .missingEndOfDict | .missingValue _ => true
  | _ => false

/-- The loop of `decodeString`: the length digits and what is behind the
colon. -/
def findColon : Bytes → Except DecodeError (Bytes × Bytes)
  | [] => .error .missingColon
  | b :: bs =>
    if b = byteColon then .ok ([], bs)
    else if isDigit b then
      match findColon bs with
      | .error e => .error e
      | .ok (ds, rest) => .ok (b :: ds, rest)
    else .error .invalidStringLength

def decodeString (data : Bytes) : Except DecodeError (Bytes × Bytes) :=
  match findColon data with
  | .error e => .error e
  | .ok (ds, body) =>
    match parseInt64 ds with
    | none => .error .invalidStringLength
    | some n =>
      if n < 0 then .error .invalidStringLength
      else if n.toNat > maxStringLength then .error (.stringTooLong n.toNat)
      else if body.length < n.toNat then .error .stringExceedsData
      else .ok (body.take n.toNat, body.drop n.toNat)

/-- The loop of `decodeInt`: what is before and behind the first `e`. -/
def findEnd : Bytes → Option (Bytes × Bytes)
  | [] => none
  | b :: bs => if b = byteE then some ([], bs) else (findEnd bs).map fun p => (b :: p.1, p.2)

/-- `decodeInt` behind its `i`. -/
def decodeInt (data : Bytes) : Except DecodeError (Int × Bytes) :=
  match findEnd data with
  | none => .error .missingEndOfInteger
  | some (numStr, rest) =>
    if numStr = [] then .error .emptyInteger
    else if numStr.length > 1 ∧ numStr.head? = some zeroByte then .error .leadingZero
    else if numStr = [minusByte, zeroByte] then .error .negativeZero
    else if numStr.length > 2 ∧ numStr.head? = some minusByte ∧ numStr[1]? = some zeroByte then
      .error .leadingZeroNegative
    else
      match parseInt64 numStr with
      | none => .error .badInteger
      | some n => .ok (n, rest)

abbrev Decoded (α : Type) := Except DecodeError (α × Bytes × Nat)

mutual
def decodeValue : Nat → Bytes → Nat → Nat → Decoded Value
  | 0, _, _, _ => .error .outOfFuel
  | _ + 1, [], _, _ => .error .unexpectedEnd
  | fuel + 1, b :: bs, depth, totalItems =>
    if depth > maxDecodeDepth then .error .depthExceeded
    else if b = byteI then
      match decodeInt bs with
      | .error e => .error e
      | .ok (n, rest) => .ok (.int n, rest, totalItems)
    else if b = byteL then
      match decodeList fuel bs [] depth totalItems with
      | .error e => .error e
      | .ok (xs, rest, total) => .ok (.list xs, rest, total)
    else if b = byteD then
      match decodeDict fuel bs [] [] depth totalItems with
      | .error e => .error e
      | .ok (es, rest, total) => .ok (.dict es, rest, total)
    else if isDigit b then
      match decodeString (b :: bs) with
      | .error e => .error e
      | .ok (s, rest) => .ok (.str s, rest, totalItems)
    else .error (.unexpectedByte b)

/-- The loop of `decodeList`, with the items read so far. -/
def decodeList : Nat → Bytes → List Value → Nat → Nat → Decoded (List Value)
  | 0, _, _, _, _ => .error .outOfFuel
  | _ + 1, [], _, _, _ => .error .missingEndOfList
  | fuel + 1, b :: bs, list, depth, totalItems =>
    if b = byteE then .ok (list, bs, totalItems)
    else if list.length ≥ maxCollectionSize then .error .listTooLong
    else if totalItems + 1 > maxTotalItems then .error .totalItemsExceeded
    else
      match decodeValue fuel (b :: bs) (depth + 1) (totalItems + 1) with
      | .error e => .error e
      | .ok (v, rest, total) => decodeList fuel rest (list ++ [v]) depth total

/-- The loop of `decodeDict`, with the map built so far and the last key. -/
def decodeDict : Nat → Bytes → Entries → Bytes → Nat → Nat → Decoded Entries
  | 0, _, _, _, _, _ => .error .outOfFuel
  | _ + 1, [], _, _, _, _ => .error .missingEndOfDict
  | fuel + 1, b :: bs, dict, prevKey, depth, totalItems =>
    if b = byteE then .ok (dict, bs, totalItems)
    else if dict.length ≥ maxCollectionSize then .error .dictTooLong
    else if totalItems + 1 > maxTotalItems then .error .totalItemsExceeded
    else if ¬ isDigit b then .error .keyNotString
    else
      match decodeString (b :: bs) with
      | .error e => .error e
      | .ok (key, remaining) =>
        -- a key equal to the one before passes: the last value wins
        if dict.length > 0 ∧ key < prevKey then .error (.keysNotSorted key prevKey)
        else if remaining = [] then .error (.missingValue key)
        else
          match decodeValue fuel remaining (depth + 1) (totalItems + 1) with
          | .error e => .error e
          | .ok (v, rest, total) =>
            decodeDict fuel rest (Entries.put key v dict) key depth total
end

def decodeFuel (data : Bytes) : Nat := 2 * data.length + 2

/-- `Decode`.  Bytes behind the first value are ignored. -/
def decode (data : Bytes) : Except DecodeError Value :=
  match decodeValue (decodeFuel data) data 0 0 with
  | .error e => .error e
  | .ok (v, _, _) => .ok v

/-- `DecodeBytes`: also the number of bytes consumed. -/
def decodeBytes (data : Bytes) : Except DecodeError (Value × Nat) :=
  match decodeValue (decodeFuel data) data 0 0 with
  | .error e => .error e
  | .ok (v, rest, _) => .ok (v, data.length - rest.length)

/-- The numerals `decodeString` reads a length from. -/
def LengthText (ds : Bytes) (n : Nat) : Prop :=
  ds ≠ [] ∧ (∀ b ∈ ds, isDigit b = true) ∧ decimalValue ds = n

/-- The numerals `decodeInt` reads an integer from. -/
def IntText (t : Bytes) (n : Int) : Prop :=
  ¬ (t.length > 1 ∧ t.head? = some zeroByte) ∧ t ≠ [minusByte, zeroByte] ∧
    ¬ (t.length > 2 ∧ t.head? = some minusByte ∧ t[1]? = some zeroByte) ∧ parseInt64 t = some n

theorem isDigit_byteColon : isDigit byteColon = false := rfl

theorem findColon_eq_ok {data ds body : Bytes} :
    findColon data = .ok (ds, body) ↔
      data = ds ++ byteColon :: body ∧ ∀ b ∈ ds, isDigit b = true := by
  induction data generalizing ds with
  | nil => simp [findColon]
  | cons b bs ih =>
    rw [findColon]
    by_cases hc : b = byteColon
    · subst hc
      rw [if_pos rfl]
      cases ds with
      | nil => simp
      | cons d ds =>
        refine ⟨fun h => by simp at h, ?_⟩
        rintro ⟨h, hd⟩
        have hcolon := hd d List.mem_cons_self
        rw [← (List.cons.inj h).1, isDigit_byteColon] at hcolon
        exact absurd hcolon (by decide)
    · rw [if_neg hc]
      cases ds with
      | nil =>
        refine ⟨fun h => ?_, fun h => absurd (List.cons.inj h.1).1 hc⟩
        split at h
        · split at h <;> simp at h
        · simp at h
      | cons d ds =>
        simp only [List.cons_append, List.cons.injEq, List.mem_cons, forall_eq_or_imp]
        constructor
        · intro h
          split at h
          · next hb =>
            split at h
            · simp at h
            · next ds' rest hrec =>
              simp only [Except.ok.injEq, Prod.mk.injEq, List.cons.injEq] at h
              obtain ⟨⟨rfl, rfl⟩, rfl⟩ := h
              obtain ⟨hbs, hds⟩ := ih.mp hrec
              exact ⟨⟨rfl, hbs⟩, hb, hds⟩
          · simp at h
        · rintro ⟨⟨rfl, hbs⟩, hb, hds⟩
          rw [if_pos hb, ih.mpr ⟨hbs, hds⟩]

theorem parseInt64_digits {ds : Bytes} (hd : ∀ b ∈ ds, isDigit b = true) {n : Int} :
    parseInt64 ds = some n ↔ ∃ k : Nat, LengthText ds k ∧ k < 2 ^ 63 ∧ (k : Int) = n := by
  rw [parseInt64_eq_some]
  have hsign : ∀ b rest, ds = b :: rest → isDigit b = true := by
    rintro b rest rfl
    exact hd b List.mem_cons_self
  constructor
  · rintro (⟨t, k, rfl, -⟩ | ⟨t, k, rfl, -⟩ | ⟨k, hk, hlt, rfl⟩)
    · exact absurd (hsign _ _ rfl) (by decide)
    · exact absurd (hsign _ _ rfl) (by decide)
    · exact ⟨k, parseDigits_eq_some.mp hk, hlt, rfl⟩
  · rintro ⟨k, hk, hlt, rfl⟩
    exact .inr (.inr ⟨k, parseDigits_eq_some.mpr hk, hlt, rfl⟩)

/-- What `decodeString` accepts. -/
theorem decodeString_eq_ok {data s rest : Bytes} :
    decodeString data = .ok (s, rest) ↔
      ∃ ds, LengthText ds s.length ∧ s.length ≤ maxStringLength ∧
        data = ds ++ byteColon :: (s ++ rest) := by
  rw [decodeString]
  constructor
  · intro h
    split at h
    · simp at h
    · next ds body hcolon =>
      obtain ⟨hdata, hdigits⟩ := findColon_eq_ok.mp hcolon
      split at h
      · simp at h
      · next n hn =>
        obtain ⟨k, hk, -, rfl⟩ := (parseInt64_digits hdigits).mp hn
        rw [Int.toNat_natCast] at h
        split_ifs at h with hneg hlong hdata'
        simp only [Except.ok.injEq, Prod.mk.injEq] at h
        obtain ⟨rfl, rfl⟩ := h
        have hlen : (body.take k).length = k := by
          rw [List.length_take]
          omega
        exact ⟨ds, hlen.symm ▸ hk, by omega, by rw [hdata, List.take_append_drop]⟩
  · rintro ⟨ds, hk, hmax, rfl⟩
    rw [findColon_eq_ok.mpr ⟨rfl, hk.2.1⟩]
    have hlt : s.length < 2 ^ 63 := by
      have : maxStringLength < 2 ^ 63 := by decide
      omega
    have hparse : parseInt64 ds = some (s.length : Int) :=
      (parseInt64_digits hk.2.1).mpr ⟨s.length, hk, hlt, rfl⟩
    simp only [hparse, Int.toNat_natCast]
    rw [if_neg (by omega), if_neg (by omega), if_neg (by simp), List.take_left, List.drop_left]

theorem findEnd_eq_some {data t rest : Bytes} :
    findEnd data = some (t, rest) ↔ data = t ++ byteE :: rest ∧ byteE ∉ t := by
  induction data generalizing t with
  | nil => simp [findEnd]
  | cons b bs ih =>
    rw [findEnd]
    by_cases he : b = byteE
    · subst he
      cases t with
      | nil => simp
      | cons c t =>
        simp only [if_pos, Option.some_inj, Prod.mk.injEq, reduceCtorEq, false_and, false_iff,
          List.cons_append, List.cons.injEq, List.mem_cons, not_or]
        tauto
    · rw [if_neg he]
      cases t with
      | nil => simp [he]
      | cons c t =>
        simp only [Option.map_eq_some_iff, Prod.mk.injEq, List.cons.injEq, List.cons_append,
          List.mem_cons, not_or]
        constructor
        · rintro ⟨p, hp, ⟨rfl, rfl⟩, rfl⟩
          obtain ⟨hbs, ht⟩ := ih.mp hp
          exact ⟨⟨rfl, hbs⟩, fun h => he h.symm, ht⟩
        · rintro ⟨⟨rfl, hbs⟩, -, ht⟩
          exact ⟨(t, rest), ih.mpr ⟨hbs, ht⟩, ⟨rfl, rfl⟩, rfl⟩

theorem byteE_notMem_of_digits {ds : Bytes} (h : ∀ b ∈ ds, isDigit b = true) : byteE ∉ ds :=
  fun hm => absurd (h _ hm) (by decide)

theorem byteE_notMem_of_parseInt64 {t : Bytes} {n : Int} (h : parseInt64 t = some n) :
    byteE ∉ t := by
  rcases parseInt64_eq_some.mp h with ⟨ds, k, rfl, hk, -⟩ | ⟨ds, k, rfl, hk, -⟩ | ⟨k, hk, -⟩ <;>
    have hds := byteE_notMem_of_digits (parseDigits_eq_some.mp hk).2.1
  · exact List.not_mem_cons_of_ne_of_not_mem (by decide) hds
  · exact List.not_mem_cons_of_ne_of_not_mem (by decide) hds
  · exact hds

/-- What `decodeInt` accepts. -/
theorem decodeInt_eq_ok {data rest : Bytes} {n : Int} :
    decodeInt data = .ok (n, rest) ↔ ∃ t, IntText t n ∧ data = t ++ byteE :: rest := by
  rw [decodeInt]
  constructor
  · intro h
    split at h
    · simp at h
    · next t rest' hend =>
      split_ifs at h with hnil hzero hneg hnegz
      split at h
      · simp at h
      · next n' hparse =>
        simp only [Except.ok.injEq, Prod.mk.injEq] at h
        obtain ⟨rfl, rfl⟩ := h
        exact ⟨t, ⟨hzero, hneg, hnegz, hparse⟩, (findEnd_eq_some.mp hend).1⟩
  · rintro ⟨t, ⟨hzero, hneg, hnegz, hparse⟩, rfl⟩
    have hnil : t ≠ [] := by
      rintro rfl
      simp [parseInt64] at hparse
    simp only [findEnd_eq_some.mpr ⟨rfl, byteE_notMem_of_parseInt64 hparse⟩, if_neg hnil,
      if_neg hzero, if_neg hneg, if_neg hnegz, hparse]

/-- What a successful call of `decodeValue` did. -/
theorem decodeValue_eq_ok {fuel : Nat} {data rest : Bytes} {depth total total' : Nat} {v : Value}
    (h : decodeValue (fuel + 1) data depth total = .ok (v, rest, total')) :
    depth ≤ maxDecodeDepth ∧
      ((∃ n bs, data = byteI :: bs ∧ decodeInt bs = .ok (n, rest) ∧ v = .int n ∧ total' = total) ∨
      (∃ xs bs, data = byteL :: bs ∧ decodeList fuel bs [] depth total = .ok (xs, rest, total') ∧
        v = .list xs) ∨
      (∃ es bs, data = byteD :: bs ∧
        decodeDict fuel bs [] [] depth total = .ok (es, rest, total') ∧ v = .dict es) ∨
      (∃ s, decodeString data = .ok (s, rest) ∧ v = .str s ∧ total' = total)) := by
  cases data with
  | nil => simp [decodeValue] at h
  | cons b bs =>
    rw [decodeValue] at h
    split_ifs at h with hdepth hi hl hd hdigit
    · split at h
      · simp at h
      · next n rest' hn =>
        simp only [Except.ok.injEq, Prod.mk.injEq] at h
        obtain ⟨rfl, rfl, rfl⟩ := h
        exact ⟨by omega, .inl ⟨n, bs, by rw [hi], hn, rfl, rfl⟩⟩
    · split at h
      · simp at h
      · next xs rest' t' hxs =>
        simp only [Except.ok.injEq, Prod.mk.injEq] at h
        obtain ⟨rfl, rfl, rfl⟩ := h
        exact ⟨by omega, .inr (.inl ⟨xs, bs, by rw [hl], hxs, rfl⟩)⟩
    · split at h
      · simp at h
      · next es rest' t' hes =>
        simp only [Except.ok.injEq, Prod.mk.injEq] at h
        obtain ⟨rfl, rfl, rfl⟩ := h
        exact ⟨by omega, .inr (.inr (.inl ⟨es, bs, by rw [hd], hes, rfl⟩))⟩
    · split at h
      · simp at h
      · next s rest' hs =>
        simp only [Except.ok.injEq, Prod.mk.injEq] at h
        obtain ⟨rfl, rfl, rfl⟩ := h
        exact ⟨by omega, .inr (.inr (.inr ⟨s, hs, rfl, rfl⟩))⟩

/-- What one round of the loop of `decodeList` did: it was at the end, or it
read an item and went on. -/
theorem decodeList_eq_ok {fuel : Nat} {data rest : Bytes} {list xs : List Value}
    {depth total total' : Nat}
    (h : decodeList (fuel + 1) data list depth total = .ok (xs, rest, total')) :
    (data = byteE :: rest ∧ xs = list ∧ total' = total) ∨
    (list.length < maxCollectionSize ∧ total < maxTotalItems ∧ ∃ v rest₁ total₁,
      decodeValue fuel data (depth + 1) (total + 1) = .ok (v, rest₁, total₁) ∧
      decodeList fuel rest₁ (list ++ [v]) depth total₁ = .ok (xs, rest, total')) := by
  cases data with
  | nil => simp [decodeList] at h
  | cons b bs =>
    rw [decodeList] at h
    split_ifs at h with he hlong htotal
    · simp only [Except.ok.injEq, Prod.mk.injEq] at h
      obtain ⟨rfl, rfl, rfl⟩ := h
      exact .inl ⟨by rw [he], rfl, rfl⟩
    · split at h
      · simp at h
      · next v rest₁ total₁ hv =>
        exact .inr ⟨by omega, by omega, v, rest₁, total₁, hv, h⟩

/-- What one round of the loop of `decodeDict` did. -/
theorem decodeDict_eq_ok {fuel : Nat} {data rest prevKey : Bytes} {dict es : Entries}
    {depth total total' : Nat}
    (h : decodeDict (fuel + 1) data dict prevKey depth total = .ok (es, rest, total')) :
    (data = byteE :: rest ∧ es = dict ∧ total' = total) ∨
    (dict.length < maxCollectionSize ∧ total < maxTotalItems ∧ ∃ key remaining v rest₁ total₁,
      decodeString data = .ok (key, remaining) ∧ (dict ≠ [] → ¬ key < prevKey) ∧
      decodeValue fuel remaining (depth + 1) (total + 1) = .ok (v, rest₁, total₁) ∧
      decodeDict fuel rest₁ (Entries.put key v dict) key depth total₁ =
        .ok (es, rest, total')) := by
  cases data with
  | nil => simp [decodeDict] at h
  | cons b bs =>
    rw [decodeDict] at h
    split_ifs at h with he hlong htotal hdigit
    · simp only [Except.ok.injEq, Prod.mk.injEq] at h
      obtain ⟨rfl, rfl, rfl⟩ := h
      exact .inl ⟨by rw [he], rfl, rfl⟩
    · split at h
      · simp at h
      · next key remaining hkey =>
        split_ifs at h with horder hrem
        split at h
        · simp at h
        · next v rest₁ total₁ hv =>
          refine .inr ⟨by omega, by omega, key, remaining, v, rest₁, total₁, hkey, ?_, hv, h⟩
          intro hne hlt
          exact horder ⟨List.length_pos_iff.mpr hne, hlt⟩

end Stor.Bencode
