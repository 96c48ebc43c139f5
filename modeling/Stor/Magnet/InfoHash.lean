import Stor.Lib.Radix
import Stor.Magnet.Parse

/-!
# The info hash of a link

A link has its info hash as a number of 160 bits, in 40 hexadecimal digits or in 32 symbols of
base 32 (`Spells`).  `Parse` of `magnet/magnet.go` takes these and no others
(`parse_spells`), with an exception: a text of 32 bytes goes through a decoder that accepts
padding and skips line breaks, and its upper case can be shorter.  Such a text stands for fewer
bytes, and the rest of the hash is zero.
-/

namespace Stor.Magnet

open Lib

/-- A symbol of base 32 in either case. -/
def base32Symbol (b : UInt8) : Option Nat := base32Val (upperByte b)

/-- The texts of a hash, and the number that they stand for. -/
inductive Spells : Bytes → Nat → Prop
  | hex {raw : Bytes} (hlen : raw.length = 40) (hdigits : Digits hexVal raw) :
      Spells raw (radixValue 16 hexVal raw)
  | base32 {raw : Bytes} (hlen : raw.length = 32) (hdigits : Digits base32Symbol raw) :
      Spells raw (radixValue 32 base32Symbol raw)

/-- Nothing in the text is for the decoder of base 32 alone. -/
structure Strict (raw : Bytes) : Prop where
  padding : 61 ∉ raw
  lineFeed : 10 ∉ raw
  carriageReturn : 13 ∉ raw
  dotlessI : ¬ dotlessI <:+: raw
  longS : ¬ longS <:+: raw

instance (raw : Bytes) : Decidable (Strict raw) :=
  decidable_of_iff
    (61 ∉ raw ∧ 10 ∉ raw ∧ 13 ∉ raw ∧ ¬ dotlessI <:+: raw ∧ ¬ longS <:+: raw)
    ⟨fun ⟨h₁, h₂, h₃, h₄, h₅⟩ => ⟨h₁, h₂, h₃, h₄, h₅⟩, fun ⟨h₁, h₂, h₃, h₄, h₅⟩ =>
      ⟨h₁, h₂, h₃, h₄, h₅⟩⟩

/-- The decoder of base 32 finds nothing in the text, or only zeros. -/
def Refused (raw : Bytes) : Prop :=
  ∀ t, base32Decode (toUpper raw) = some t → resize 20 t = zeroHash

/-! ## The two decoders -/

section
variable {raw hash : Bytes}

/-- The alphabet has nothing of what makes a text not strict. -/
theorem strict_of_digits (h : Digits base32Symbol raw) : Strict raw := by
  have hbyte : ∀ b, base32Symbol b = none → b ∉ raw := by
    intro b hb hmem
    have hsome := h b hmem
    rw [hb] at hsome
    cases hsome
  refine ⟨hbyte 61 rfl, hbyte 10 rfl, hbyte 13 rfl, fun hpart => ?_, fun hpart => ?_⟩
  · exact hbyte 177 rfl (hpart.subset (by decide))
  · exact hbyte 191 rfl (hpart.subset (by decide))

theorem upperByte_eq_iff {b c : UInt8} (hc : ¬ isUpper c) (hb : upperByte b = c) : b = c := by
  unfold upperByte at hb
  split_ifs at hb with hlower
  · exfalso
    apply hc
    rw [← hb]
    unfold isLower at hlower
    unfold isUpper
    simp only [Bool.and_eq_true, decide_eq_true_eq] at hlower ⊢
    have hsub : (b - 32).toNat = b.toNat - 32 := UInt8.toNat_sub_of_le b 32 (by
      rw [UInt8.le_iff_toNat_le]
      show 32 ≤ b.toNat
      omega)
    omega
  · exact hb

/-- In a strict text the decoder finds what is there, in upper case. -/
theorem Strict.base32Decode (h : Strict raw) :
    base32Decode (toUpper raw) = base32Quanta [] (raw.map upperByte) := by
  have hkept : ∀ b ∈ raw.map upperByte, decide (b ≠ 10 ∧ b ≠ 13) = true := by
    intro b hb
    obtain ⟨c, hc, rfl⟩ := List.mem_map.mp hb
    refine decide_eq_true ⟨fun heq => ?_, fun heq => ?_⟩
    · exact h.lineFeed (upperByte_eq_iff (by decide) heq ▸ hc)
    · exact h.carriageReturn (upperByte_eq_iff (by decide) heq ▸ hc)
  rw [Lib.base32Decode, toUpper_eq_map h.dotlessI h.longS, List.filter_eq_self.mpr hkept]

theorem Strict.padding_map (h : Strict raw) : 61 ∉ raw.map upperByte := by
  intro hmem
  obtain ⟨c, hc, heq⟩ := List.mem_map.mp hmem
  exact h.padding (upperByte_eq_iff (by decide) heq ▸ hc)

theorem digits_map_upperByte : Digits base32Val (raw.map upperByte) ↔ Digits base32Symbol raw := by
  unfold Digits
  rw [List.forall_mem_map]
  rfl

theorem radixFrom_map_upperByte (acc : Nat) (raw : Bytes) :
    radixFrom 32 base32Val acc (raw.map upperByte) = radixFrom 32 base32Symbol acc raw := by
  unfold radixFrom
  rw [List.foldl_map]
  rfl

/-- Twenty bytes are the number that they are. -/
theorem eq_beBytes {n : Nat} (hlen : hash.length = 20) (hvalue : beFrom 0 hash = n) :
    hash = beBytes 20 n := by
  rw [← hvalue, ← hlen]
  exact (beBytes_beNat hash).symm

theorem parseInfoHashV1_of_spells {n : Nat} (h : Spells raw n) :
    parseInfoHashV1 (btihStart ++ raw) = .ok (beBytes 20 n) := by
  unfold parseInfoHashV1
  rw [List.drop_left]
  cases h with
  | hex hlen hdigits =>
    obtain ⟨t, ht⟩ := exists_hexDecode hdigits (by rw [hlen])
    obtain ⟨-, hcount, hvalue⟩ := of_hexDecode ht
    have htwenty : t.length = 20 := by omega
    dsimp only
    rw [if_pos hlen, ht]
    dsimp only
    rw [resize_of_length htwenty, eq_beBytes htwenty (hvalue 0)]
    rfl
  | base32 hlen hdigits =>
    have hs := strict_of_digits hdigits
    have hlen' : (raw.map upperByte).length = 32 := by rw [List.length_map, hlen]
    obtain ⟨t, ht⟩ : ∃ t, base32Quanta [] (raw.map upperByte) = some t :=
      exists_base32Quanta hs.padding_map (digits_map_upperByte.mpr hdigits) (by decide)
        (by rw [hlen']; rfl)
    obtain ⟨-, hcount, hvalue⟩ := of_base32Quanta hs.padding_map (List.forall_mem_nil _)
      (by decide) ht
    have htwenty : t.length = 20 := by
      rw [hlen', List.length_nil] at hcount
      omega
    dsimp only
    rw [if_neg (by omega), if_pos hlen, hs.base32Decode, ht]
    dsimp only
    rw [resize_of_length htwenty, eq_beBytes htwenty (hvalue 0), radixFrom_map_upperByte]
    rfl

theorem parseInfoHashV1_of_length (hlen : raw.length = 32) :
    parseInfoHashV1 (btihStart ++ raw) =
      (base32Decode (toUpper raw)).elim (.error .invalidBase32) fun t => .ok (resize 20 t) := by
  unfold parseInfoHashV1
  rw [List.drop_left]
  dsimp only
  rw [if_neg (by omega), if_pos hlen]
  cases base32Decode (toUpper raw) <;> rfl

theorem spells_of_parseInfoHashV1 (h : parseInfoHashV1 (btihStart ++ raw) = .ok hash)
    (hstrict : raw.length = 32 → Strict raw) : ∃ n, Spells raw n := by
  unfold parseInfoHashV1 at h
  rw [List.drop_left] at h
  dsimp only at h
  split_ifs at h with hhex hbase
  · cases hdecode : hexDecode raw with
    | none => rw [hdecode] at h; cases h
    | some t => exact ⟨_, .hex hhex (of_hexDecode hdecode).1⟩
  · have hs := hstrict hbase
    rw [hs.base32Decode] at h
    cases hdecode : base32Quanta [] (raw.map upperByte) with
    | none => rw [hdecode] at h; cases h
    | some t =>
      have hdigits := (of_base32Quanta hs.padding_map (List.forall_mem_nil _) (by decide)
        hdecode).1
      exact ⟨_, .base32 hbase (digits_map_upperByte.mp hdigits)⟩

theorem getD_lt {base : Nat} {o : Option Nat} (hbase : 0 < base) (h : ∀ x, o = some x → x < base) :
    o.getD 0 < base := by
  cases o with
  | none => exact hbase
  | some x => exact h x rfl

/-- A spelled number has 160 bits. -/
theorem Spells.lt {n : Nat} (h : Spells raw n) : n < 256 ^ 20 := by
  cases h with
  | hex hlen hdigits =>
    have hdigit : ∀ b, (hexVal b).getD 0 < 16 := fun _ => getD_lt (by decide) fun _ => hexVal_lt
    have hlt := radixFrom_lt hdigit 0 raw
    rw [hlen] at hlt
    exact hlt
  | base32 hlen hdigits =>
    have hdigit : ∀ b, (base32Symbol b).getD 0 < 32 :=
      fun _ => getD_lt (by decide) fun _ => base32Val_lt
    have hlt := radixFrom_lt hdigit 0 raw
    rw [hlen] at hlt
    exact hlt

theorem Spells.beBytes_eq_zeroHash_iff {n : Nat} (h : Spells raw n) :
    beBytes 20 n = zeroHash ↔ n = 0 := by
  constructor
  · intro hzero
    rw [← beNat_beBytes h.lt, hzero]
    rfl
  · rintro rfl
    rfl

/-! ## Links -/

theorem isPrefixOf_btihStart (raw : Bytes) : btihStart.isPrefixOf (btihStart ++ raw) = true :=
  List.isPrefixOf_iff_prefix.mpr (List.prefix_append _ _)

/-- A link whose only topic is an info hash is read as that. -/
theorem parse_of_btih {c : UrlChecks} {uri : Bytes} {u : Url}
    (hurl : parseUrl c.hierOk c.fragOk uri = some u) (hscheme : u.scheme = ascii "magnet")
    (hxt : queryValues (ascii "xt") (parseQuery u.rawQuery) = [btihStart ++ raw]) :
    (∀ e, parseInfoHashV1 (btihStart ++ raw) = .error e → parse c uri = .error e) ∧
      ∀ hash, parseInfoHashV1 (btihStart ++ raw) = .ok hash →
        (hash = zeroHash → parse c uri = .error .missingBtih) ∧
        (hash ≠ zeroHash → ∃ m, parse c uri = .ok m ∧ m.infoHash = hash) := by
  unfold parse
  rw [hurl]
  dsimp only
  rw [if_neg (not_not.mpr hscheme), hxt, if_neg (List.cons_ne_nil _ _), parseXts,
    if_pos (isPrefixOf_btihStart raw)]
  refine ⟨fun e he => by rw [he], fun hash hhash => ?_⟩
  rw [hhash]
  dsimp only [parseXts]
  refine ⟨fun hzero => ?_, fun hne => ?_⟩
  · rw [if_pos hzero]
    rfl
  · rw [if_neg hne]
    exact ⟨_, rfl, rfl⟩

end

section
variable {c : UrlChecks} {uri : Bytes} {u : Url} {raw : Bytes}
  (hurl : parseUrl c.hierOk c.fragOk uri = some u) (hscheme : u.scheme = ascii "magnet")
  (hxt : queryValues (ascii "xt") (parseQuery u.rawQuery) = [btihStart ++ raw])

include hurl hscheme hxt

theorem exists_parse_iff :
    (∃ m, parse c uri = .ok m) ↔
      ∃ hash, parseInfoHashV1 (btihStart ++ raw) = .ok hash ∧ hash ≠ zeroHash := by
  obtain ⟨herror, hok⟩ := parse_of_btih hurl hscheme hxt
  constructor
  · rintro ⟨m, hm⟩
    cases hhash : parseInfoHashV1 (btihStart ++ raw) with
    | error e =>
      rw [herror e hhash] at hm
      cases hm
    | ok hash =>
      refine ⟨hash, rfl, fun hzero => ?_⟩
      rw [(hok hash hhash).1 hzero] at hm
      cases hm
  · rintro ⟨hash, hhash, hne⟩
    obtain ⟨m, hm, -⟩ := (hok hash hhash).2 hne
    exact ⟨m, hm⟩

/-- What spells a number other than zero is always accepted, as that number. -/
theorem parse_of_spells {n : Nat} (hn : Spells raw n) (hne : n ≠ 0) :
    ∃ m, parse c uri = .ok m ∧ m.infoHash = beBytes 20 n :=
  ((parse_of_btih hurl hscheme hxt).2 _ (parseInfoHashV1_of_spells hn)).2
    fun hzero => hne (hn.beBytes_eq_zeroHash_iff.mp hzero)

theorem infoHash_of_parse {m : Magnet} {n : Nat} (hm : parse c uri = .ok m) (hn : Spells raw n) :
    m.infoHash = beBytes 20 n := by
  by_cases hzero : n = 0
  · have hnone := ((parse_of_btih hurl hscheme hxt).2 _ (parseInfoHashV1_of_spells hn)).1
      (hn.beBytes_eq_zeroHash_iff.mpr hzero)
    rw [hm] at hnone
    cases hnone
  · obtain ⟨m', hm', hhash⟩ := parse_of_spells hurl hscheme hxt hn hzero
    rw [hm] at hm'
    rw [Except.ok.inj hm', hhash]

end

end Stor.Magnet
