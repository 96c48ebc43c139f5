import Stor.Bencode.Tree

/-!
# What the decoder reads back

The other direction of `decode_sound`: the text of every well-shaped tree inside the
limits is read to the end, whatever stands behind it, and gives the tree's value
(`decodeValue_text`).  The fuel that a text needs is twice its length, one call for each
byte and one for each value.
-/

namespace Stor.Bencode

open Lib

theorem decodeValue_str {ds s : Bytes} {fuel depth : Nat} (hds : LengthText ds s.length)
    (hmax : s.length ≤ maxStringLength) (hdepth : depth ≤ maxDecodeDepth) (rest : Bytes)
    (total : Nat) :
    decodeValue (fuel + 1) (ds ++ byteColon :: (s ++ rest)) depth total =
      .ok (.str s, rest, total) := by
  have hdecode : decodeString (ds ++ byteColon :: (s ++ rest)) = .ok (s, rest) :=
    decodeString_eq_ok.mpr ⟨ds, hds, hmax, rfl⟩
  obtain ⟨b, t, rfl, hdigit⟩ := lengthText_cons hds
  have hne : ∀ c, isDigit c = false → b ≠ c := by
    rintro c hc rfl
    rw [hdigit] at hc
    exact Bool.noConfusion hc
  rw [List.cons_append] at hdecode ⊢
  rw [decodeValue, if_neg (by omega), if_neg (hne byteI rfl), if_neg (hne byteL rfl),
    if_neg (hne byteD rfl), if_pos hdigit, hdecode]

theorem decodeList_step {fuel : Nat} {b : UInt8} {bs rest : Bytes} {list : List Value}
    {depth total total' : Nat} {v : Value} (hb : b ≠ byteE) (hlen : list.length < maxCollectionSize)
    (htotal : total < maxTotalItems)
    (hv : decodeValue fuel (b :: bs) (depth + 1) (total + 1) = .ok (v, rest, total')) :
    decodeList (fuel + 1) (b :: bs) list depth total =
      decodeList fuel rest (list ++ [v]) depth total' := by
  rw [decodeList, if_neg hb, if_neg (by omega), if_neg (by omega), hv]

theorem decodeDict_step {fuel : Nat} {data remaining rest key prevKey : Bytes} {dict : Entries}
    {depth total total' : Nat} {v : Value} (hlen : dict.length < maxCollectionSize)
    (htotal : total < maxTotalItems) (hkey : decodeString data = .ok (key, remaining))
    (horder : dict ≠ [] → ¬ key < prevKey)
    (hv : decodeValue fuel remaining (depth + 1) (total + 1) = .ok (v, rest, total')) :
    decodeDict (fuel + 1) data dict prevKey depth total =
      decodeDict fuel rest (Entries.put key v dict) key depth total' := by
  obtain ⟨ds, hds, -, hdata⟩ := decodeString_eq_ok.mp hkey
  obtain ⟨b, t, rfl, hb⟩ := lengthText_cons hds
  rw [List.cons_append] at hdata
  subst hdata
  have hbe : b ≠ byteE := by
    rintro rfl
    exact absurd hb (by decide)
  have hrem : remaining ≠ [] := by
    rintro rfl
    cases fuel <;> simp [decodeValue] at hv
  have hlt : ¬ (dict.length > 0 ∧ key < prevKey) := fun h =>
    horder (List.length_pos_iff.mp h.1) h.2
  rw [decodeDict, if_neg hbe, if_neg (by omega), if_neg (by omega), if_neg (by simp [hb]), hkey]
  simp only [if_neg hlt, if_neg hrem, hv]

namespace Tree

/-- A dictionary of so few entries never fills the map. -/
theorem room_of_length {es : List (Bytes × Bytes × Tree)} {d : Entries}
    (h : d.length + es.length ≤ maxCollectionSize) : Room es d := by
  induction es generalizing d with
  | nil => trivial
  | cons e es ih =>
    obtain ⟨ds, k, r⟩ := e
    have hput := Entries.put_length_le k (value r) d
    rw [List.length_cons] at h
    exact ⟨by omega, ih (by omega)⟩

mutual
theorem decodeValue_text : ∀ {r : Tree} (fuel depth total : Nat) (rest : Bytes),
    r.Shaped → r.Limits depth → total + r.items ≤ maxTotalItems → 2 * r.text.length ≤ fuel →
    decodeValue fuel (r.text ++ rest) depth total = .ok (r.value, rest, total + r.items)
  | .str ds s, fuel, depth, total, rest, hs, hl, _, hfuel => by
    have hpos := text_length_pos (r := .str ds s) hs
    obtain ⟨fuel, rfl⟩ : ∃ k, fuel = k + 1 := Nat.exists_eq_succ_of_ne_zero (by omega)
    simp only [text, List.append_assoc, List.cons_append]
    exact decodeValue_str hs hl.2 hl.1 rest total
  | .int t, fuel, depth, total, rest, ⟨n, hn⟩, hl, _, hfuel => by
    simp only [text, List.length_append, List.length_cons] at hfuel
    obtain ⟨fuel, rfl⟩ : ∃ k, fuel = k + 1 := Nat.exists_eq_succ_of_ne_zero (by omega)
    have hdepth : depth ≤ maxDecodeDepth := hl
    have hdecode : decodeInt (t ++ byteE :: rest) = .ok (n, rest) :=
      decodeInt_eq_ok.mpr ⟨t, hn, rfl⟩
    simp only [text, value, List.append_assoc, List.cons_append, List.nil_append]
    rw [decodeValue, if_neg (by omega), if_pos rfl, hdecode, hn.2.2.2]
    rfl
  | .list rs, fuel, depth, total, rest, hs, hl, htotal, hfuel => by
    simp only [text, List.length_append, List.length_cons] at hfuel
    obtain ⟨fuel, rfl⟩ : ∃ k, fuel = k + 1 := Nat.exists_eq_succ_of_ne_zero (by omega)
    have hloop := decodeList_text [] fuel depth total rest hs hl.2.2
      (by simpa using hl.2.1) htotal (by omega)
    have hdepth := hl.1
    simp only [text, List.append_assoc, List.cons_append, List.nil_append]
    rw [decodeValue, if_neg (by omega), if_neg (by decide), if_pos rfl, hloop]
    rfl
  | .dict es, fuel, depth, total, rest, hs, hl, htotal, hfuel => by
    simp only [text, List.length_append, List.length_cons] at hfuel
    obtain ⟨fuel, rfl⟩ : ∃ k, fuel = k + 1 := Nat.exists_eq_succ_of_ne_zero (by omega)
    have hloop := decodeDict_text [] [] fuel depth total rest hs.2 hs.1 hl.2.2 hl.2.1
      (fun h => absurd rfl h) htotal (by omega)
    have hdepth := hl.1
    simp only [text, List.append_assoc, List.cons_append, List.nil_append]
    rw [decodeValue, if_neg (by omega), if_neg (by decide), if_neg (by decide), if_pos rfl, hloop]
    rfl

theorem decodeList_text : ∀ {rs : List Tree} (acc : List Value) (fuel depth total : Nat)
    (rest : Bytes), ShapedItems rs → LimitsItems rs (depth + 1) →
    acc.length + rs.length ≤ maxCollectionSize → total + itemsList rs ≤ maxTotalItems →
    2 * (textItems rs).length + 1 ≤ fuel →
    decodeList fuel (textItems rs ++ byteE :: rest) acc depth total =
      .ok (acc ++ values rs, rest, total + itemsList rs)
  | [], acc, fuel, depth, total, rest, _, _, _, _, hfuel => by
    obtain ⟨fuel, rfl⟩ : ∃ k, fuel = k + 1 := Nat.exists_eq_succ_of_ne_zero (by omega)
    simp only [textItems, values, List.nil_append]
    rw [decodeList, if_pos rfl, List.append_nil]
    rfl
  | r :: rs, acc, fuel, depth, total, rest, hs, hl, hlen, htotal, hfuel => by
    obtain ⟨b, bs, hb, -⟩ := text_lead hs.1
    have hpos := text_length_pos hs.1
    simp only [textItems, List.length_append] at hfuel
    simp only [itemsList] at htotal
    rw [List.length_cons] at hlen
    obtain ⟨fuel, rfl⟩ : ∃ k, fuel = k + 1 := Nat.exists_eq_succ_of_ne_zero (by omega)
    have hv := decodeValue_text fuel (depth + 1) (total + 1) (textItems rs ++ byteE :: rest)
      hs.1 hl.1 (by omega) (by omega)
    have hloop := decodeList_text (acc ++ [r.value]) fuel depth (total + 1 + r.items) rest
      hs.2 hl.2 (by rw [List.length_append, List.length_singleton]; omega) (by omega) (by omega)
    simp only [textItems, values, itemsList, List.append_assoc]
    have hbe := text_cons_ne_byteE hs.1 hb
    rw [hb, List.cons_append] at hv ⊢
    rw [decodeList_step hbe (by omega) (by omega) hv, hloop, List.append_assoc,
      List.singleton_append]
    congr 3
    omega

theorem decodeDict_text : ∀ {es : List (Bytes × Bytes × Tree)} (d : Entries) (prevKey : Bytes)
    (fuel depth total : Nat) (rest : Bytes), ShapedEntries es → (keys es).Pairwise (· ≤ ·) →
    LimitsEntries es (depth + 1) → Room es d → (d ≠ [] → ∀ k ∈ keys es, prevKey ≤ k) →
    total + itemsEntries es ≤ maxTotalItems → 2 * (textEntries es).length + 1 ≤ fuel →
    decodeDict fuel (textEntries es ++ byteE :: rest) d prevKey depth total =
      .ok (valueEntries es d, rest, total + itemsEntries es)
  | [], d, prevKey, fuel, depth, total, rest, _, _, _, _, _, _, hfuel => by
    obtain ⟨fuel, rfl⟩ : ∃ k, fuel = k + 1 := Nat.exists_eq_succ_of_ne_zero (by omega)
    simp only [textEntries, valueEntries, List.nil_append]
    rw [decodeDict, if_pos rfl]
    rfl
  | (ds, k, r) :: es, d, prevKey, fuel, depth, total, rest, hs, hsorted, hl, hroom, hprev,
      htotal, hfuel => by
      have hpos := text_length_pos hs.2.1
      have hcons := List.pairwise_cons.mp hsorted
      simp only [textEntries, List.length_append] at hfuel
      simp only [itemsEntries] at htotal
      obtain ⟨fuel, rfl⟩ : ∃ k, fuel = k + 1 := Nat.exists_eq_succ_of_ne_zero (by omega)
      have hv := decodeValue_text fuel (depth + 1) (total + 1) (textEntries es ++ byteE :: rest)
        hs.2.1 hl.2.1 (by omega) (by omega)
      have hkey : decodeString (ds ++ byteColon :: (k ++ (r.text ++ (textEntries es ++
          byteE :: rest)))) = .ok (k, r.text ++ (textEntries es ++ byteE :: rest)) :=
        decodeString_eq_ok.mpr ⟨ds, hs.1, hl.1, rfl⟩
      have horder : d ≠ [] → ¬ k < prevKey := fun hne =>
        List.not_lt.mpr (hprev hne k List.mem_cons_self)
      have hloop := decodeDict_text (Entries.put k r.value d) k fuel depth
        (total + 1 + r.items) rest hs.2.2 hcons.2 hl.2.2 hroom.2 (fun _ => hcons.1)
        (by omega) (by omega)
      simp only [textEntries, valueEntries, itemsEntries, List.append_assoc, List.cons_append]
      rw [decodeDict_step hroom.1 (by omega) hkey horder hv, hloop]
      congr 3
      omega
end

end Tree

end Stor.Bencode
