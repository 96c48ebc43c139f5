import Mathlib.Data.List.Sort
import Stor.Bencode.RoundTrip

/-!
# The encoder

`Encode` of `bencode/encode.go` takes a Go value of any type.  A map comes in the order
in which a run happens to iterate over it; its keys are sorted before they are written.
`Any.value` is the bencoded value that a Go value stands for, where it stands for one: the
encoder writes that value's text (`encodeAny_eq`), so the order of iteration does not show,
and the decoder reads it back from the front of whatever it is in.
-/

namespace Stor.Bencode

open Lib

inductive Any where
  | string (s : Bytes)
  | bytes (b : Bytes)
  | int64 (n : Int64)
  | int (n : Int64)
  | list (xs : List Any)
  | map (es : List (Bytes × Any))
  | other (type : Bytes)

inductive EncodeError where
  | unsupportedType (type : Bytes)
  deriving DecidableEq

def EncodeError.text : EncodeError → Bytes
  | .unsupportedType type => ascii "bencode: unsupported type " ++ type

/-- The loop of `encodeDict` over the sorted keys; `parts` has what `encodeValue` makes of
`d[k]`, and a key that is not there has the value `nil`. -/
def encodeKeys (parts : List (Bytes × Except EncodeError Bytes)) :
    List Bytes → Except EncodeError Bytes
  | [] => .ok []
  | k :: keys =>
    match (parts.lookup k).getD (.error (.unsupportedType (ascii "<nil>"))) with
    | .error e => .error e
    | .ok v =>
      match encodeKeys parts keys with
      | .error e => .error e
      | .ok rest => .ok (encodeString k ++ v ++ rest)

mutual
def encodeAny : Any → Except EncodeError Bytes
  | .string s => .ok (encodeString s)
  | .bytes b => .ok (encodeString b)
  | .int64 n => .ok (encodeInt n.toInt)
  | .int n => .ok (encodeInt n.toInt)
  | .list xs =>
    match encodeList xs with
    | .error e => .error e
    | .ok body => .ok (byteL :: body ++ [byteE])
  | .map es =>
    match encodeKeys (encodeEach es) ((es.map Prod.fst).insertionSort (· ≤ ·)) with
    | .error e => .error e
    | .ok body => .ok (byteD :: body ++ [byteE])
  | .other type => .error (.unsupportedType type)

def encodeList : List Any → Except EncodeError Bytes
  | [] => .ok []
  | v :: vs =>
    match encodeAny v with
    | .error e => .error e
    | .ok first =>
      match encodeList vs with
      | .error e => .error e
      | .ok rest => .ok (first ++ rest)

def encodeEach : List (Bytes × Any) → List (Bytes × Except EncodeError Bytes)
  | [] => []
  | (k, v) :: es => (k, encodeAny v) :: encodeEach es
end

/- The bencoded value of a Go value: none for a type the encoder does not know, and none
for a list of entries that is no map. -/
mutual
def Any.value : Any → Option Value
  | .string s => some (.str s)
  | .bytes b => some (.str b)
  | .int64 n => some (.int n.toInt)
  | .int n => some (.int n.toInt)
  | .list xs => (valueList xs).map Value.list
  | .map es =>
    if (es.map Prod.fst).Nodup then (valueEach es).map fun kvs => .dict (Entries.ofList kvs)
    else none
  | .other _ => none

def valueList : List Any → Option (List Value)
  | [] => some []
  | v :: vs => v.value.bind fun w => (valueList vs).map fun ws => w :: ws

def valueEach : List (Bytes × Any) → Option (List (Bytes × Value))
  | [] => some []
  | (k, v) :: es => v.value.bind fun w => (valueEach es).map fun kvs => (k, w) :: kvs
end

/-! ## Maps -/

namespace Entries

theorem put_perm {k : Bytes} {v : Value} {d : Entries} (h : k ∉ d.map Prod.fst) :
    (put k v d).Perm ((k, v) :: d) := by
  induction d with
  | nil => exact List.Perm.refl _
  | cons e d ih =>
    obtain ⟨k₀, v₀⟩ := e
    rw [List.map_cons, List.mem_cons, not_or] at h
    rw [put]
    split_ifs with hlt heq
    · exact List.Perm.refl _
    · exact absurd heq h.1
    · exact ((ih h.2).cons _).trans (List.Perm.swap _ _ _)

theorem keysSorted_foldl_put {kvs d : Entries} (h : KeysSorted d) :
    KeysSorted (kvs.foldl (fun d kv => put kv.1 kv.2 d) d) := by
  induction kvs generalizing d with
  | nil => exact h
  | cons kv kvs ih => exact ih (keysSorted_put h)

theorem foldl_put_perm {kvs d : Entries} (h : ((kvs ++ d).map Prod.fst).Nodup) :
    (kvs.foldl (fun d kv => put kv.1 kv.2 d) d).Perm (kvs ++ d) := by
  induction kvs generalizing d with
  | nil => exact List.Perm.refl _
  | cons kv kvs ih =>
    obtain ⟨k, v⟩ := kv
    have hnew : k ∉ d.map Prod.fst := by
      rw [List.cons_append, List.map_cons, List.nodup_cons, List.map_append] at h
      exact fun hk => h.1 (List.mem_append_right _ hk)
    have hmove : (kvs ++ put k v d).Perm ((k, v) :: kvs ++ d) :=
      ((put_perm hnew).append_left kvs).trans List.perm_middle
    exact (ih ((hmove.map Prod.fst).nodup_iff.mpr h)).trans hmove

theorem keysSorted_ofList (kvs : Entries) : KeysSorted (ofList kvs) :=
  keysSorted_foldl_put keysSorted_nil

theorem ofList_perm {kvs : Entries} (h : (kvs.map Prod.fst).Nodup) : (ofList kvs).Perm kvs := by
  have hperm : (ofList kvs).Perm (kvs ++ []) := foldl_put_perm (by rwa [List.append_nil])
  rwa [List.append_nil] at hperm

/-- The keys of the map are the sorted keys. -/
theorem keys_ofList {kvs : Entries} (h : (kvs.map Prod.fst).Nodup) :
    (kvs.map Prod.fst).insertionSort (· ≤ ·) = (ofList kvs).map Prod.fst := by
  have hsorted : ((ofList kvs).map Prod.fst).Pairwise (· ≤ ·) :=
    (keysSorted_ofList kvs).imp List.le_of_lt
  have hperm : ((kvs.map Prod.fst).insertionSort (· ≤ ·)).Perm ((ofList kvs).map Prod.fst) :=
    (List.perm_insertionSort _ _).trans ((ofList_perm h).map Prod.fst).symm
  exact hperm.eq_of_pairwise (fun _ _ _ _ => List.le_antisymm) (List.pairwise_insertionSort _ _)
    hsorted

theorem mem_ofList {kvs : Entries} {kv : Bytes × Value} (h : kv ∈ ofList kvs) : kv ∈ kvs := by
  induction kvs using List.reverseRecOn with
  | nil => exact absurd h List.not_mem_nil
  | append_singleton kvs kv' ih =>
    rw [ofList, List.foldl_append] at h
    rcases mem_put h with rfl | h
    · exact List.mem_append_right _ List.mem_cons_self
    · exact List.mem_append_left _ (ih h)

theorem length_ofList_le (kvs : Entries) : (ofList kvs).length ≤ kvs.length := by
  induction kvs using List.reverseRecOn with
  | nil => exact Nat.le_refl _
  | append_singleton kvs kv ih =>
    rw [ofList, List.foldl_append, List.length_append, List.length_singleton]
    exact (put_length_le _ _ _).trans (Nat.succ_le_succ ih)

/-- Of entries with different keys each can be looked up. -/
theorem get?_ofList {kvs : Entries} (hnodup : (kvs.map Prod.fst).Nodup) {k : Bytes} {v : Value}
    (h : (k, v) ∈ kvs) : get? k (ofList kvs) = some v := by
  induction kvs using List.reverseRecOn with
  | nil => exact absurd h List.not_mem_nil
  | append_singleton kvs kv ih =>
    rw [List.map_append, List.map_singleton, List.nodup_append] at hnodup
    obtain ⟨hnodup, -, hnew⟩ := hnodup
    rw [ofList, List.foldl_append, List.foldl_cons, List.foldl_nil]
    rcases List.mem_append.mp h with h | h
    · have hne : k ≠ kv.1 := hnew k (List.mem_map.mpr ⟨(k, v), h, rfl⟩) kv.1 List.mem_cons_self
      rw [get?_put_of_ne hne]
      exact ih hnodup h
    · rw [← List.mem_singleton.mp h]
      exact get?_put_self k v _

end Entries

/-! ## The text of a value -/

theorem valueEach_keys {es : List (Bytes × Any)} {kvs : List (Bytes × Value)}
    (h : valueEach es = some kvs) : kvs.map Prod.fst = es.map Prod.fst := by
  induction es generalizing kvs with
  | nil => rw [← Option.some_inj.mp h]; rfl
  | cons e es ih =>
    obtain ⟨k, v⟩ := e
    rw [valueEach, Option.bind_eq_some_iff] at h
    obtain ⟨w, -, h⟩ := h
    obtain ⟨kvs', hkvs, rfl⟩ := Option.map_eq_some_iff.mp h
    rw [List.map_cons, List.map_cons, ih hkvs]

/-- `d[k]` is the value of the entry for `k`. -/
theorem lookup_of_mem {kvs : List (Bytes × Value)} (hnodup : (kvs.map Prod.fst).Nodup) {k : Bytes}
    {v : Value} (h : (k, v) ∈ kvs) {β : Type} (f : Value → β) :
    (kvs.map fun kv => (kv.1, f kv.2)).lookup k = some (f v) := by
  induction kvs with
  | nil => exact absurd h List.not_mem_nil
  | cons kv kvs ih =>
    obtain ⟨k₀, v₀⟩ := kv
    obtain ⟨hnew, hnodup⟩ := List.nodup_cons.mp hnodup
    rw [List.map_cons, List.lookup_cons]
    rcases List.mem_cons.mp h with heq | hmem
    · obtain ⟨rfl, rfl⟩ := Prod.mk.inj heq
      rw [beq_self_eq_true]
    · have hne : k ≠ k₀ := by
        rintro rfl
        exact hnew (List.mem_map.mpr ⟨(k, v), hmem, rfl⟩)
      rw [beq_false_of_ne hne]
      exact ih hnodup hmem

theorem encodeKeys_eq {parts : List (Bytes × Except EncodeError Bytes)} {es : Entries}
    (h : ∀ kv ∈ es, parts.lookup kv.1 = some (.ok (encodeValue kv.2))) :
    encodeKeys parts (es.map Prod.fst) = .ok (encodeEntries es) := by
  induction es with
  | nil => rfl
  | cons kv es ih =>
    obtain ⟨k, v⟩ := kv
    rw [List.map_cons, encodeKeys, h (k, v) List.mem_cons_self,
      ih fun kv hkv => h kv (List.mem_cons_of_mem _ hkv)]
    rfl

mutual
theorem encodeAny_eq : ∀ {v : Any} {w : Value}, v.value = some w →
    encodeAny v = .ok (encodeValue w)
  | .string _, _, h => by rw [← Option.some_inj.mp h]; rfl
  | .bytes _, _, h => by rw [← Option.some_inj.mp h]; rfl
  | .int64 _, _, h => by rw [← Option.some_inj.mp h]; rfl
  | .int _, _, h => by rw [← Option.some_inj.mp h]; rfl
  | .list xs, w, h => by
    obtain ⟨ws, hws, rfl⟩ := Option.map_eq_some_iff.mp h
    rw [encodeAny, encodeList_eq hws]
    rfl
  | .map es, w, h => by
    rw [Any.value, Option.ite_none_right_eq_some] at h
    obtain ⟨hnodup, h⟩ := h
    obtain ⟨kvs, hkvs, rfl⟩ := Option.map_eq_some_iff.mp h
    rw [← valueEach_keys hkvs] at hnodup
    have hparts : ∀ kv ∈ Entries.ofList kvs,
        (encodeEach es).lookup kv.1 = some (.ok (encodeValue kv.2)) := by
      intro kv hkv
      rw [encodeEach_eq hkvs]
      have hmem := (Entries.ofList_perm hnodup).mem_iff.mp hkv
      exact lookup_of_mem hnodup hmem fun v => Except.ok (encodeValue v)
    rw [encodeAny, ← valueEach_keys hkvs, Entries.keys_ofList hnodup, encodeKeys_eq hparts]
    rfl
  | .other _, _, h => by cases h

theorem encodeList_eq : ∀ {xs : List Any} {ws : List Value}, valueList xs = some ws →
    encodeList xs = .ok (encodeItems ws)
  | [], _, h => by rw [← Option.some_inj.mp h]; rfl
  | v :: vs, ws, h => by
    rw [valueList, Option.bind_eq_some_iff] at h
    obtain ⟨w, hw, h⟩ := h
    obtain ⟨ws, hws, rfl⟩ := Option.map_eq_some_iff.mp h
    rw [encodeList, encodeAny_eq hw, encodeList_eq hws]
    rfl

theorem encodeEach_eq : ∀ {es : List (Bytes × Any)} {kvs : List (Bytes × Value)},
    valueEach es = some kvs →
    encodeEach es = kvs.map fun kv => (kv.1, .ok (encodeValue kv.2))
  | [], _, h => by rw [← Option.some_inj.mp h]; rfl
  | (k, v) :: es, kvs, h => by
    rw [valueEach, Option.bind_eq_some_iff] at h
    obtain ⟨w, hw, h⟩ := h
    obtain ⟨kvs, hkvs, rfl⟩ := Option.map_eq_some_iff.mp h
    rw [encodeEach, encodeAny_eq hw, encodeEach_eq hkvs]
    rfl
end

theorem wf_int64 (n : Int64) : WfValue (.int n.toInt) := ⟨n.le_toInt, n.toInt_lt⟩

mutual
theorem wf_value : ∀ {v : Any} {w : Value}, v.value = some w → WfValue w
  | .string _, _, h => by rw [← Option.some_inj.mp h]; trivial
  | .bytes _, _, h => by rw [← Option.some_inj.mp h]; trivial
  | .int64 n, _, h => by rw [← Option.some_inj.mp h]; exact wf_int64 n
  | .int n, _, h => by rw [← Option.some_inj.mp h]; exact wf_int64 n
  | .list xs, w, h => by
    obtain ⟨ws, hws, rfl⟩ := Option.map_eq_some_iff.mp h
    exact wf_valueList hws
  | .map es, w, h => by
    rw [Any.value, Option.ite_none_right_eq_some] at h
    obtain ⟨hnodup, h⟩ := h
    obtain ⟨kvs, hkvs, rfl⟩ := Option.map_eq_some_iff.mp h
    rw [← valueEach_keys hkvs] at hnodup
    refine ⟨Entries.keysSorted_ofList kvs, wfEntries_iff.mpr fun kv hkv => ?_⟩
    exact wf_valueEach hkvs kv ((Entries.ofList_perm hnodup).mem_iff.mp hkv)
  | .other _, _, h => by cases h

theorem wf_valueList : ∀ {xs : List Any} {ws : List Value}, valueList xs = some ws → WfItems ws
  | [], _, h => by rw [← Option.some_inj.mp h]; trivial
  | v :: vs, ws, h => by
    rw [valueList, Option.bind_eq_some_iff] at h
    obtain ⟨w, hw, h⟩ := h
    obtain ⟨ws, hws, rfl⟩ := Option.map_eq_some_iff.mp h
    exact ⟨wf_value hw, wf_valueList hws⟩

theorem wf_valueEach : ∀ {es : List (Bytes × Any)} {kvs : List (Bytes × Value)},
    valueEach es = some kvs → ∀ kv ∈ kvs, WfValue kv.2
  | [], _, h => by rw [← Option.some_inj.mp h]; nofun
  | (k, v) :: es, kvs, h => by
    rw [valueEach, Option.bind_eq_some_iff] at h
    obtain ⟨w, hw, h⟩ := h
    obtain ⟨kvs, hkvs, rfl⟩ := Option.map_eq_some_iff.mp h
    intro kv hkv
    rcases List.mem_cons.mp hkv with rfl | hkv
    · exact wf_value hw
    · exact wf_valueEach hkvs kv hkv
end

/-! ## Dictionaries of strings -/

theorem itemsEntries_strings {es : Entries} (h : ∀ kv ∈ es, ∃ s, kv.2 = .str s) :
    itemsEntries es = es.length := by
  induction es with
  | nil => rfl
  | cons kv es ih =>
    obtain ⟨k, v⟩ := kv
    obtain ⟨s, hs⟩ := h (k, v) List.mem_cons_self
    dsimp only at hs
    rw [itemsEntries, hs, items, ih fun kv hkv => h kv (List.mem_cons_of_mem _ hkv),
      List.length_cons, Nat.add_zero, Nat.add_comm]

theorem valueEach_strings (kvs : List (Bytes × Bytes)) :
    valueEach (kvs.map fun kv => (kv.1, .string kv.2)) =
      some (kvs.map fun kv => (kv.1, .str kv.2)) := by
  induction kvs with
  | nil => rfl
  | cons kv kvs ih =>
    rw [List.map_cons, valueEach, ih]
    rfl

/-- Of strings with different keys each can be looked up, and nothing else. -/
theorem get?_ofList_strings {kvs : List (Bytes × Bytes)} (hnodup : (kvs.map Prod.fst).Nodup)
    (k : Bytes) :
    Entries.get? k (Entries.ofList (kvs.map fun kv => (kv.1, .str kv.2))) =
      (kvs.lookup k).map Value.str := by
  have hkeys : ((kvs.map fun kv => (kv.1, Value.str kv.2)).map Prod.fst).Nodup := by
    rwa [List.map_map]
  cases h : kvs.lookup k with
  | none =>
    cases hget : Entries.get? k (Entries.ofList (kvs.map fun kv => (kv.1, .str kv.2))) with
    | none => rfl
    | some v =>
      obtain ⟨kv, hkv, heq⟩ := List.mem_map.mp (Entries.mem_ofList (Entries.get?_mem hget))
      have hne := List.lookup_eq_none_iff.mp h kv hkv
      rw [(Prod.mk.inj heq).1, bne_self_eq_false] at hne
      cases hne
  | some s =>
    obtain ⟨before, after, hkvs, -⟩ := List.lookup_eq_some_iff.mp h
    have hmem : (k, s) ∈ kvs := by
      rw [hkvs]
      exact List.mem_append_right _ List.mem_cons_self
    exact Entries.get?_ofList hkeys (List.mem_map.mpr ⟨(k, s), hmem, rfl⟩)

section Strings

variable {kvs : List (Bytes × Bytes)}

theorem wf_strings (kvs : List (Bytes × Bytes)) :
    WfValue (.dict (Entries.ofList (kvs.map fun kv => (kv.1, .str kv.2)))) := by
  refine ⟨Entries.keysSorted_ofList _, wfEntries_iff.mpr fun kv hkv => ?_⟩
  obtain ⟨kv, -, rfl⟩ := List.mem_map.mp (Entries.mem_ofList hkv)
  trivial

theorem fits_strings (hlen : kvs.length ≤ maxCollectionSize)
    (hkvs : ∀ kv ∈ kvs, kv.1.length ≤ maxStringLength ∧ kv.2.length ≤ maxStringLength)
    {depth : Nat} (hdepth : depth < maxDecodeDepth) :
    Fits (.dict (Entries.ofList (kvs.map fun kv => (kv.1, .str kv.2)))) depth := by
  refine ⟨Nat.le_of_lt hdepth, (Entries.length_ofList_le _).trans (by rwa [List.length_map]),
    fitsEntries_iff.mpr fun kv hkv => ?_⟩
  obtain ⟨kv, hmem, rfl⟩ := List.mem_map.mp (Entries.mem_ofList hkv)
  exact ⟨(hkvs kv hmem).1, hdepth, (hkvs kv hmem).2⟩

theorem items_strings_le (kvs : List (Bytes × Bytes)) :
    items (.dict (Entries.ofList (kvs.map fun kv => (kv.1, .str kv.2)))) ≤ kvs.length := by
  have hlen := Entries.length_ofList_le (kvs.map fun kv => (kv.1, .str kv.2))
  rw [List.length_map] at hlen
  rw [items, itemsEntries_strings fun kv hkv => ?_]
  · exact hlen
  · obtain ⟨kv, -, rfl⟩ := List.mem_map.mp (Entries.mem_ofList hkv)
    exact ⟨kv.2, rfl⟩

/-- A map of strings of a moderate size is read back. -/
theorem decode_encode_strings (hnodup : (kvs.map Prod.fst).Nodup)
    (hlen : kvs.length ≤ maxCollectionSize)
    (hkvs : ∀ kv ∈ kvs, kv.1.length ≤ maxStringLength ∧ kv.2.length ≤ maxStringLength) :
    ∃ text, encodeAny (.map (kvs.map fun kv => (kv.1, .string kv.2))) = .ok text ∧
      decode text = .ok (.dict (Entries.ofList (kvs.map fun kv => (kv.1, .str kv.2)))) := by
  have hvalue : (Any.map (kvs.map fun kv => (kv.1, .string kv.2))).value =
      some (.dict (Entries.ofList (kvs.map fun kv => (kv.1, .str kv.2)))) := by
    rw [Any.value, List.map_map, if_pos (by exact hnodup), valueEach_strings]
    rfl
  have hitems : kvs.length ≤ maxTotalItems := hlen.trans (by decide)
  exact ⟨_, encodeAny_eq hvalue, decode_encodeValue (wf_strings kvs)
    (fits_strings hlen hkvs (by decide)) ((items_strings_le kvs).trans hitems)⟩

end Strings

/-- What was encoded is read back from the front of any bytes, and nothing more is
consumed. -/
theorem decodeBytes_encode {v : Any} {w : Value} (hv : v.value = some w) (hfits : Fits w 0)
    (hitems : items w ≤ maxTotalItems) (s : Bytes) :
    ∃ text, encodeAny v = .ok text ∧ decodeBytes (text ++ s) = .ok (w, text.length) := by
  refine ⟨encodeValue w, encodeAny_eq hv, ?_⟩
  have hfuel : 2 * (encodeValue w).length ≤ decodeFuel (encodeValue w ++ s) := by
    rw [decodeFuel, List.length_append]
    omega
  have hdecode := decodeValue_encodeValue _ 0 0 s (wf_value hv) hfits (by omega) hfuel
  rw [decodeBytes, hdecode]
  simp only [List.length_append, Nat.add_sub_cancel_right]

/-- A map that is iterated over in the wrong order. -/
theorem decodeBytes_encode_unordered : ∃ text,
    encodeAny (.map [([98], .int64 (-5)), ([97], .list [.string [120], .int64 0])]) = .ok text ∧
      decodeBytes (text ++ ascii "3:") =
        .ok (.dict [([97], .list [.str [120], .int 0]), ([98], .int (-5))], text.length) :=
  decodeBytes_encode rfl (by simp [Fits, FitsItems, FitsEntries, maxDecodeDepth,
    maxStringLength, maxCollectionSize]) (by decide) (ascii "3:")

end Stor.Bencode
