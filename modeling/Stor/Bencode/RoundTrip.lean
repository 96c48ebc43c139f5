import Stor.Bencode.Complete

/-!
# Decoding what was encoded

The limits of the decoder are stated on values: `Fits v depth` bounds the strings
and the collections of `v` and its nesting from `depth` on, and `items v` counts
its list items and entries.  The decoder only returns values inside the limits
(`Tree.value_fits`), and reads the encoding of every value inside the limits
back (`decodeValue_encodeValue`).  A value that was decoded therefore survives
another trip through the encoder and the decoder.
-/

namespace Stor.Bencode

open Lib

mutual
def items : Value → Nat
  | .str _ => 0
  | .int _ => 0
  | .list xs => itemsList xs
  | .dict es => itemsEntries es

def itemsList : List Value → Nat
  | [] => 0
  | v :: vs => 1 + items v + itemsList vs

def itemsEntries : List (Bytes × Value) → Nat
  | [] => 0
  | (_, v) :: es => 1 + items v + itemsEntries es
end

mutual
def Fits : Value → Nat → Prop
  | .str s, depth => depth ≤ maxDecodeDepth ∧ s.length ≤ maxStringLength
  | .int _, depth => depth ≤ maxDecodeDepth
  | .list xs, depth =>
    depth ≤ maxDecodeDepth ∧ xs.length ≤ maxCollectionSize ∧ FitsItems xs (depth + 1)
  | .dict es, depth =>
    depth ≤ maxDecodeDepth ∧ es.length ≤ maxCollectionSize ∧ FitsEntries es (depth + 1)

def FitsItems : List Value → Nat → Prop
  | [], _ => True
  | v :: vs, depth => Fits v depth ∧ FitsItems vs depth

def FitsEntries : List (Bytes × Value) → Nat → Prop
  | [], _ => True
  | (k, v) :: es, depth =>
    k.length ≤ maxStringLength ∧ Fits v depth ∧ FitsEntries es depth
end

theorem fitsEntries_iff {es : Entries} {depth : Nat} :
    FitsEntries es depth ↔ ∀ kv ∈ es, kv.1.length ≤ maxStringLength ∧ Fits kv.2 depth := by
  induction es with
  | nil => simp [FitsEntries]
  | cons e es ih =>
    obtain ⟨k, v⟩ := e
    simp only [FitsEntries, List.mem_cons, forall_eq_or_imp, ih, and_assoc]

theorem Tree.values_length (rs : List Tree) : (Tree.values rs).length = rs.length := by
  induction rs with
  | nil => rfl
  | cons r rs ih => rw [Tree.values, List.length_cons, List.length_cons, ih]

theorem itemsEntries_put_le (k : Bytes) (v : Value) (es : Entries) :
    itemsEntries (Entries.put k v es) ≤ itemsEntries es + 1 + items v := by
  induction es with
  | nil => simp [Entries.put, itemsEntries]
  | cons e es ih =>
    obtain ⟨k₀, v₀⟩ := e
    rw [Entries.put]
    split_ifs <;> simp only [itemsEntries] <;> omega

/-! ## The decoder stays inside its limits -/

/-- A map the loop of `decodeDict` can hold. -/
def GoodEntries (es : Entries) (depth : Nat) : Prop :=
  KeysSorted es ∧ WfEntries es ∧ FitsEntries es depth ∧ es.length ≤ maxCollectionSize

theorem goodEntries_put {k : Bytes} {v : Value} {es : Entries} {depth : Nat}
    (h : GoodEntries es depth) (hlen : es.length < maxCollectionSize)
    (hk : k.length ≤ maxStringLength) (hw : WfValue v) (hv : Fits v depth) :
    GoodEntries (Entries.put k v es) depth := by
  obtain ⟨hs, hwf, hfit, -⟩ := h
  refine ⟨Entries.keysSorted_put hs, wfEntries_iff.mpr fun kv hkv => ?_,
    fitsEntries_iff.mpr fun kv hkv => ?_, ?_⟩
  · rcases Entries.mem_put hkv with rfl | hkv
    · exact hw
    · exact wfEntries_iff.mp hwf kv hkv
  · rcases Entries.mem_put hkv with rfl | hkv
    · exact ⟨hk, hv⟩
    · exact fitsEntries_iff.mp hfit kv hkv
  · have := Entries.put_length_le k v es
    omega

theorem parseInt64_range {t : Bytes} {n : Int} (h : parseInt64 t = some n) :
    -2 ^ 63 ≤ n ∧ n < 2 ^ 63 := by
  rcases parseInt64_eq_some.mp h with ⟨_, k, -, -, hk, rfl⟩ | ⟨_, k, -, -, hk, rfl⟩ |
    ⟨k, -, hk, rfl⟩ <;> omega

namespace Tree

mutual
theorem value_fits : ∀ {r : Tree} {depth : Nat}, r.Shaped → r.Limits depth →
    WfValue r.value ∧ Fits r.value depth ∧ Bencode.items r.value ≤ r.items
  | .str _ _, _, _, hl => ⟨trivial, hl, Nat.le_refl _⟩
  | .int t, _, ⟨n, hn⟩, hl => by
    rw [value, hn.2.2.2]
    exact ⟨parseInt64_range hn.2.2.2, hl, Nat.le_refl _⟩
  | .list rs, depth, hs, hl => by
    obtain ⟨hw, hf, hitems⟩ := values_fits hs hl.2.2
    exact ⟨hw, ⟨hl.1, by rw [values_length]; exact hl.2.1, hf⟩, hitems⟩
  | .dict es, depth, hs, hl => by
    obtain ⟨⟨hsorted, hw, hf, hlen⟩, hitems⟩ := valueEntries_fits (d := []) hs.2 hl.2.2 hl.2.1
      ⟨Entries.keysSorted_nil, trivial, trivial, Nat.zero_le _⟩
    rw [Bencode.itemsEntries, Nat.zero_add] at hitems
    exact ⟨⟨hsorted, hw⟩, ⟨hl.1, hlen, hf⟩, hitems⟩

theorem values_fits : ∀ {rs : List Tree} {depth : Nat}, ShapedItems rs → LimitsItems rs depth →
    WfItems (values rs) ∧ FitsItems (values rs) depth ∧
      Bencode.itemsList (values rs) ≤ itemsList rs
  | [], _, _, _ => ⟨trivial, trivial, Nat.le_refl _⟩
  | r :: rs, depth, hs, hl => by
    obtain ⟨hw, hf, hitems⟩ := value_fits hs.1 hl.1
    obtain ⟨hws, hfs, hitems'⟩ := values_fits hs.2 hl.2
    refine ⟨⟨hw, hws⟩, ⟨hf, hfs⟩, ?_⟩
    simp only [values, Bencode.itemsList, itemsList]
    omega

theorem valueEntries_fits : ∀ {es : List (Bytes × Bytes × Tree)} {d : Entries} {depth : Nat},
    ShapedEntries es → LimitsEntries es depth → Room es d → GoodEntries d depth →
    GoodEntries (valueEntries es d) depth ∧
      Bencode.itemsEntries (valueEntries es d) ≤ Bencode.itemsEntries d + itemsEntries es
  | [], _, _, _, _, _, hd => ⟨hd, Nat.le_refl _⟩
  | (ds, k, r) :: es, d, depth, hs, hl, hroom, hd => by
    obtain ⟨hw, hf, hitems⟩ := value_fits hs.2.1 hl.2.1
    have hput := itemsEntries_put_le k r.value d
    obtain ⟨hgood, hitems'⟩ := valueEntries_fits hs.2.2 hl.2.2 hroom.2
      (goodEntries_put hd hroom.1 hl.1 hw hf)
    refine ⟨hgood, ?_⟩
    simp only [valueEntries, itemsEntries]
    omega
end

end Tree

/-! ## Canonical numerals -/

theorem lengthText_natDigits (n : Nat) : LengthText (natDigits n) n :=
  ⟨natDigits_ne_nil n, natDigits_isDigit n, decimalValue_natDigits n⟩

theorem natDigits_eq_cons (n : Nat) : ∃ b t, natDigits n = b :: t ∧ isDigit b = true :=
  lengthText_cons (lengthText_natDigits n)

theorem natDigits_head_zero {n : Nat} (h : (natDigits n).head? = some zeroByte) : n = 0 := by
  have hlen := natDigits_noLeadingZero n h
  obtain ⟨b, hb⟩ := List.length_eq_one_iff.mp hlen
  rw [hb] at h
  rw [← decimalValue_natDigits n, hb, Option.some_inj.mp h]
  rfl

theorem intText_intDigits {n : Int} (hlo : -2 ^ 63 ≤ n) (hhi : n < 2 ^ 63) :
    IntText (intDigits n) n := by
  have hparse := parseInt64_intDigits hlo hhi
  cases n with
  | ofNat k =>
    obtain ⟨b, t, hbt, hb⟩ := natDigits_eq_cons k
    have hminus : b ≠ minusByte := by
      rintro rfl
      exact absurd hb (by decide)
    refine ⟨fun ⟨hlen, hhead⟩ => ?_, fun heq => ?_, fun ⟨_, hhead, _⟩ => ?_, hparse⟩
    · rw [intDigits, natDigits_noLeadingZero k hhead] at hlen
      omega
    · rw [intDigits, hbt] at heq
      exact hminus (List.cons.inj heq).1
    · rw [intDigits, hbt] at hhead
      exact hminus (Option.some_inj.mp hhead)
  | negSucc k =>
    have hpos : (natDigits (k + 1)).head? ≠ some zeroByte := fun h =>
      absurd (natDigits_head_zero h) (Nat.succ_ne_zero k)
    refine ⟨fun ⟨_, hhead⟩ => absurd hhead (by simp [intDigits, minusByte, zeroByte]),
      fun heq => ?_, fun ⟨_, _, hsnd⟩ => ?_, hparse⟩
    · rw [intDigits] at heq
      exact hpos (by rw [(List.cons.inj heq).2]; rfl)
    · refine hpos ?_
      rw [← hsnd, intDigits]
      cases natDigits (k + 1) <;> rfl

/-! ## The tree of a value -/

/- The canonical tree of a value. -/
mutual
def ofValue : Value → Tree
  | .str s => .str (natDigits s.length) s
  | .int n => .int (intDigits n)
  | .list xs => .list (ofItems xs)
  | .dict es => .dict (ofEntries es)

def ofItems : List Value → List Tree
  | [] => []
  | v :: vs => ofValue v :: ofItems vs

def ofEntries : List (Bytes × Value) → List (Bytes × Bytes × Tree)
  | [] => []
  | (k, v) :: es => (natDigits k.length, k, ofValue v) :: ofEntries es
end

mutual
theorem ofValue_text : ∀ v : Value, (ofValue v).text = encodeValue v
  | .str _ => rfl
  | .int _ => rfl
  | .list xs => by rw [ofValue, Tree.text, ofItems_text, encodeValue]
  | .dict es => by rw [ofValue, Tree.text, ofEntries_text, encodeValue]

theorem ofItems_text : ∀ xs : List Value, Tree.textItems (ofItems xs) = encodeItems xs
  | [] => rfl
  | v :: vs => by rw [ofItems, Tree.textItems, ofValue_text, ofItems_text, encodeItems]

theorem ofEntries_text : ∀ es : Entries, Tree.textEntries (ofEntries es) = encodeEntries es
  | [] => rfl
  | (k, v) :: es => by
    rw [ofEntries, Tree.textEntries, ofValue_text, ofEntries_text, encodeEntries, encodeString]
end

theorem ofEntries_keys (es : Entries) : Tree.keys (ofEntries es) = es.map Prod.fst := by
  induction es with
  | nil => rfl
  | cons e es ih =>
    obtain ⟨k, v⟩ := e
    rw [ofEntries, Tree.keys, List.map_cons, List.map_cons, ← ih]
    rfl

mutual
theorem ofValue_shaped : ∀ {v : Value}, WfValue v → (ofValue v).Shaped
  | .str s, _ => lengthText_natDigits s.length
  | .int n, h => ⟨n, intText_intDigits h.1 h.2⟩
  | .list _, h => ofItems_shaped h
  | .dict es, h => by
    refine ⟨?_, ofEntries_shaped h.2⟩
    rw [ofEntries_keys]
    exact List.Pairwise.imp List.le_of_lt h.1

theorem ofItems_shaped : ∀ {xs : List Value}, WfItems xs → Tree.ShapedItems (ofItems xs)
  | [], _ => trivial
  | _ :: _, h => ⟨ofValue_shaped h.1, ofItems_shaped h.2⟩

theorem ofEntries_shaped : ∀ {es : Entries}, WfEntries es → Tree.ShapedEntries (ofEntries es)
  | [], _ => trivial
  | (k, _) :: _, h => ⟨lengthText_natDigits k.length, ofValue_shaped h.1, ofEntries_shaped h.2⟩
end

mutual
theorem ofValue_value : ∀ {v : Value}, WfValue v → (ofValue v).value = v
  | .str _, _ => rfl
  | .int n, h => by rw [ofValue, Tree.value, parseInt64_intDigits h.1 h.2]; rfl
  | .list _, h => by rw [ofValue, Tree.value, ofItems_values h]
  | .dict es, h => by
    have hes := ofEntries_value (d := []) h.2 h.1
    rw [ofValue, Tree.value, hes, List.nil_append]

theorem ofItems_values : ∀ {xs : List Value}, WfItems xs → Tree.values (ofItems xs) = xs
  | [], _ => rfl
  | _ :: _, h => by rw [ofItems, Tree.values, ofValue_value h.1, ofItems_values h.2]

theorem ofEntries_value : ∀ {es d : Entries}, WfEntries es → KeysSorted (d ++ es) →
    Tree.valueEntries (ofEntries es) d = d ++ es
  | [], d, _, _ => by rw [ofEntries, Tree.valueEntries, List.append_nil]
  | (k, v) :: es, d, h, hs => by
    have hlt : ∀ kv ∈ d, kv.1 < k := by
      intro kv hkv
      have hpair := List.pairwise_append.mp (by simpa [KeysSorted] using hs)
      exact hpair.2.2 kv.1 (List.mem_map_of_mem hkv) k List.mem_cons_self
    have hrest := ofEntries_value (d := d ++ [(k, v)]) h.2 (by rw [List.append_assoc]; exact hs)
    rw [ofEntries, Tree.valueEntries, ofValue_value h.1, Entries.put_of_lt hlt, hrest,
      List.append_assoc, List.singleton_append]
end

mutual
theorem ofValue_items : ∀ v : Value, (ofValue v).items = items v
  | .str _ => rfl
  | .int _ => rfl
  | .list xs => ofItems_items xs
  | .dict es => ofEntries_items es

theorem ofItems_items : ∀ xs : List Value, Tree.itemsList (ofItems xs) = itemsList xs
  | [] => rfl
  | v :: vs => by rw [ofItems, Tree.itemsList, ofValue_items, ofItems_items, itemsList]

theorem ofEntries_items : ∀ es : Entries, Tree.itemsEntries (ofEntries es) = itemsEntries es
  | [] => rfl
  | (k, v) :: es => by
    rw [ofEntries, Tree.itemsEntries, ofValue_items, ofEntries_items, itemsEntries]
end

theorem ofItems_length (xs : List Value) : (ofItems xs).length = xs.length := by
  induction xs with
  | nil => rfl
  | cons v vs ih => rw [ofItems, List.length_cons, List.length_cons, ih]

theorem ofEntries_length (es : Entries) : (ofEntries es).length = es.length := by
  have hkeys := congrArg List.length (ofEntries_keys es)
  rwa [Tree.keys, List.length_map, List.length_map] at hkeys

mutual
theorem ofValue_limits : ∀ {v : Value} {depth : Nat}, Fits v depth → (ofValue v).Limits depth
  | .str _, _, h => h
  | .int _, _, h => h
  | .list xs, _, h => ⟨h.1, by rw [ofItems_length]; exact h.2.1, ofItems_limits h.2.2⟩
  | .dict es, _, h => by
    refine ⟨h.1, Tree.room_of_length ?_, ofEntries_limits h.2.2⟩
    rw [ofEntries_length, List.length_nil, Nat.zero_add]
    exact h.2.1

theorem ofItems_limits : ∀ {xs : List Value} {depth : Nat}, FitsItems xs depth →
    Tree.LimitsItems (ofItems xs) depth
  | [], _, _ => trivial
  | _ :: _, _, h => ⟨ofValue_limits h.1, ofItems_limits h.2⟩

theorem ofEntries_limits : ∀ {es : Entries} {depth : Nat}, FitsEntries es depth →
    Tree.LimitsEntries (ofEntries es) depth
  | [], _, _ => trivial
  | _ :: _, _, h => ⟨h.1, ofValue_limits h.2.1, ofEntries_limits h.2.2⟩
end

/-! ## Reading back an encoding -/

theorem decodeValue_encodeValue {v : Value} (fuel depth total : Nat) (rest : Bytes)
    (hw : WfValue v) (hf : Fits v depth) (htotal : total + items v ≤ maxTotalItems)
    (hfuel : 2 * (encodeValue v).length ≤ fuel) :
    decodeValue fuel (encodeValue v ++ rest) depth total = .ok (v, rest, total + items v) := by
  have h := Tree.decodeValue_text fuel depth total rest (ofValue_shaped hw) (ofValue_limits hf)
    (by rw [ofValue_items]; exact htotal) (by rw [ofValue_text]; exact hfuel)
  rwa [ofValue_text, ofValue_value hw, ofValue_items] at h

theorem encodeValue_injective {v v' : Value} (h : WfValue v) (h' : WfValue v')
    (heq : encodeValue v = encodeValue v') : v = v' := by
  rw [← ofValue_text, ← ofValue_text] at heq
  rw [← ofValue_value h, ← ofValue_value h',
    Tree.text_injective (ofValue_shaped h) (ofValue_shaped h') heq]

/-- A successful decoding of an encoding gives the value back, whatever the
limits. -/
theorem eq_of_decode_encodeValue {v v' : Value} (h : WfValue v)
    (hdecode : decode (encodeValue v) = .ok v') : v' = v := by
  rw [decode] at hdecode
  split at hdecode
  · simp at hdecode
  next v₁ rest total hv =>
  rw [Except.ok.injEq] at hdecode
  subst hdecode
  obtain ⟨r, hr, htext, rfl⟩ := decodeValue_sound hv
  have heq : (ofValue v).text ++ [] = r.text ++ rest := by rw [ofValue_text, List.append_nil, htext]
  obtain ⟨rfl, -⟩ := Tree.text_append_inj (ofValue_shaped h) hr heq
  exact ofValue_value h

theorem decode_encodeValue {v : Value} (hw : WfValue v) (hf : Fits v 0)
    (hitems : items v ≤ maxTotalItems) : decode (encodeValue v) = .ok v := by
  have h := decodeValue_encodeValue (decodeFuel (encodeValue v)) 0 0 [] hw hf (by omega) (by rw [decodeFuel]; omega)
  rw [List.append_nil] at h
  rw [decode, h]

/-- A decoded value is inside the limits, so `decode_encodeValue` applies to it. -/
theorem decode_eq_ok {data : Bytes} {v : Value} (h : decode data = .ok v) :
    WfValue v ∧ Fits v 0 ∧ items v ≤ maxTotalItems := by
  rw [decode] at h
  split at h
  · simp at h
  · next v' rest total hv =>
    rw [Except.ok.injEq] at h
    subst h
    obtain ⟨r, hr, -, rfl, hlimits, rfl, htotal⟩ := decodeValue_reads hv
    obtain ⟨hw, hf, hitems⟩ := Tree.value_fits hr hlimits
    have := htotal (Nat.zero_le _)
    exact ⟨hw, hf, by omega⟩

/-! ## The fuel suffices -/

theorem decodeValue_rest_lt {fuel : Nat} {data rest : Bytes} {depth total total' : Nat} {v : Value}
    (h : decodeValue fuel data depth total = .ok (v, rest, total')) :
    rest.length < data.length := by
  obtain ⟨r, hr, rfl, -⟩ := decodeValue_sound h
  have := Tree.text_length_pos hr
  rw [List.length_append]
  omega

/-- An error that is passed on is the error of the call. -/
theorem error_ne_outOfFuel {α β : Type} {x : Except DecodeError α} {e : DecodeError}
    (hx : x ≠ .error .outOfFuel) (he : x = .error e) :
    (.error e : Except DecodeError β) ≠ .error .outOfFuel := by
  intro h
  rw [he, Except.error.inj h] at hx
  exact hx rfl

theorem findColon_ne_outOfFuel (data : Bytes) : findColon data ≠ .error .outOfFuel := by
  induction data with
  | nil => simp [findColon]
  | cons b bs ih =>
    rw [findColon]
    split_ifs
    · simp
    · split
      next e he => exact error_ne_outOfFuel ih he
      next => simp
    · simp

theorem decodeString_ne_outOfFuel (data : Bytes) : decodeString data ≠ .error .outOfFuel := by
  rw [decodeString]
  split
  next e he => exact error_ne_outOfFuel (findColon_ne_outOfFuel data) he
  next =>
    split
    · simp
    · split_ifs <;> simp

theorem decodeInt_ne_outOfFuel (data : Bytes) : decodeInt data ≠ .error .outOfFuel := by
  rw [decodeInt]
  split
  · simp
  · split_ifs
    · simp
    · simp
    · simp
    · simp
    · split <;> simp

section Fuel

variable {fuel : Nat}

theorem decodeValue_succ_ne_outOfFuel
    (hlist : ∀ data list depth total, 2 * data.length + 2 ≤ fuel →
      decodeList fuel data list depth total ≠ .error .outOfFuel)
    (hdict : ∀ data dict prevKey depth total, 2 * data.length + 2 ≤ fuel →
      decodeDict fuel data dict prevKey depth total ≠ .error .outOfFuel)
    (data : Bytes) (depth total : Nat) (hfuel : 2 * data.length + 1 ≤ fuel + 1) :
    decodeValue (fuel + 1) data depth total ≠ .error .outOfFuel := by
  cases data with
  | nil => simp [decodeValue]
  | cons b bs =>
    rw [List.length_cons] at hfuel
    rw [decodeValue]
    split_ifs
    · simp
    · split
      next e he => exact error_ne_outOfFuel (decodeInt_ne_outOfFuel bs) he
      next => simp
    · split
      next e he => exact error_ne_outOfFuel (hlist bs [] depth total (by omega)) he
      next => simp
    · split
      next e he => exact error_ne_outOfFuel (hdict bs [] [] depth total (by omega)) he
      next => simp
    · split
      next e he => exact error_ne_outOfFuel (decodeString_ne_outOfFuel (b :: bs)) he
      next => simp
    · simp

theorem decodeList_succ_ne_outOfFuel
    (hvalue : ∀ data depth total, 2 * data.length + 1 ≤ fuel →
      decodeValue fuel data depth total ≠ .error .outOfFuel)
    (hlist : ∀ data list depth total, 2 * data.length + 2 ≤ fuel →
      decodeList fuel data list depth total ≠ .error .outOfFuel)
    (data : Bytes) (list : List Value) (depth total : Nat)
    (hfuel : 2 * data.length + 2 ≤ fuel + 1) :
    decodeList (fuel + 1) data list depth total ≠ .error .outOfFuel := by
  cases data with
  | nil => simp [decodeList]
  | cons b bs =>
    have hval := hvalue (b :: bs) (depth + 1) (total + 1) (by omega)
    rw [decodeList]
    split_ifs
    · simp
    · simp
    · simp
    · split
      next e he => exact error_ne_outOfFuel hval he
      next v rest total' hv =>
        have hlt := decodeValue_rest_lt hv
        exact hlist _ _ _ _ (by omega)

theorem decodeDict_succ_ne_outOfFuel
    (hvalue : ∀ data depth total, 2 * data.length + 1 ≤ fuel →
      decodeValue fuel data depth total ≠ .error .outOfFuel)
    (hdict : ∀ data dict prevKey depth total, 2 * data.length + 2 ≤ fuel →
      decodeDict fuel data dict prevKey depth total ≠ .error .outOfFuel)
    (data : Bytes) (dict : Entries) (prevKey : Bytes) (depth total : Nat)
    (hfuel : 2 * data.length + 2 ≤ fuel + 1) :
    decodeDict (fuel + 1) data dict prevKey depth total ≠ .error .outOfFuel := by
  cases data with
  | nil => simp [decodeDict]
  | cons b bs =>
    rw [List.length_cons] at hfuel
    rw [decodeDict]
    split_ifs
    · simp
    · simp
    · simp
    · split
      next e he => exact error_ne_outOfFuel (decodeString_ne_outOfFuel (b :: bs)) he
      next key remaining hkey =>
        have hrem : remaining.length ≤ bs.length := by
          obtain ⟨ds, hds, -, heq⟩ := decodeString_eq_ok.mp hkey
          have hlen := congrArg List.length heq
          simp only [List.length_cons, List.length_append] at hlen
          omega
        have hval := hvalue remaining (depth + 1) (total + 1) (by omega)
        split_ifs
        · simp
        · simp
        · split
          next e he => exact error_ne_outOfFuel hval he
          next v rest total' hv =>
            have hlt := decodeValue_rest_lt hv
            exact hdict _ _ _ _ _ (by omega)
    · simp

end Fuel

/-- Two steps of fuel for each byte: one for the loop and one for the value. -/
theorem decode_fuel_suffices (fuel : Nat) :
    (∀ data depth total, 2 * data.length + 1 ≤ fuel →
      decodeValue fuel data depth total ≠ .error .outOfFuel) ∧
    (∀ data list depth total, 2 * data.length + 2 ≤ fuel →
      decodeList fuel data list depth total ≠ .error .outOfFuel) ∧
    (∀ data dict prevKey depth total, 2 * data.length + 2 ≤ fuel →
      decodeDict fuel data dict prevKey depth total ≠ .error .outOfFuel) := by
  induction fuel with
  | zero =>
    refine ⟨fun _ _ _ h => ?_, fun _ _ _ _ h => ?_, fun _ _ _ _ _ h => ?_⟩ <;> omega
  | succ fuel ih =>
    obtain ⟨hvalue, hlist, hdict⟩ := ih
    exact ⟨decodeValue_succ_ne_outOfFuel hlist hdict, decodeList_succ_ne_outOfFuel hvalue hlist,
      decodeDict_succ_ne_outOfFuel hvalue hdict⟩

theorem decode_ne_outOfFuel (data : Bytes) : decode data ≠ .error .outOfFuel := by
  rw [decode]
  split
  next e he =>
    refine error_ne_outOfFuel ((decode_fuel_suffices (decodeFuel data)).1 data 0 0 ?_) he
    rw [decodeFuel]
    omega
  next => simp

end Stor.Bencode
