import Stor.Lib.Decimal

/-!
# Bencoded values and their encoder

`bencode/encode.go`.  A Go value of type `any` as the decoder builds it is a
string, an `int64`, a slice or a map.  A map is kept as its entries in
increasing key order, so that equal maps are equal values.  The encoder sorts
the keys of a map before it writes them, which here is the order they are in.
-/

namespace Stor.Bencode

open Lib

inductive Value where
  | str (s : Bytes)
  | int (n : Int)
  | list (xs : List Value)
  | dict (es : List (Bytes × Value))

abbrev Entries := List (Bytes × Value)

namespace Entries

/-- `d[k] = v`. -/
def put (k : Bytes) (v : Value) : Entries → Entries
  | [] => [(k, v)]
  | (k', v') :: es =>
    if k < k' then (k, v) :: (k', v') :: es
    else if k = k' then (k, v) :: es
    else (k', v') :: put k v es

/-- `v, ok := d[k]`. -/
def get? (k : Bytes) : Entries → Option Value
  | [] => none
  | (k', v) :: es => if k = k' then some v else get? k es

/-- A map literal. -/
def ofList (kvs : List (Bytes × Value)) : Entries :=
  kvs.foldl (fun d kv => put kv.1 kv.2 d) []

end Entries

def byteI : UInt8 := 105
def byteL : UInt8 := 108
def byteD : UInt8 := 100
def byteE : UInt8 := 101
def byteColon : UInt8 := 58

def encodeString (s : Bytes) : Bytes := natDigits s.length ++ byteColon :: s

def encodeInt (n : Int) : Bytes := byteI :: intDigits n ++ [byteE]

mutual
def encodeValue : Value → Bytes
  | .str s => encodeString s
  | .int n => encodeInt n
  | .list xs => byteL :: encodeItems xs ++ [byteE]
  | .dict es => byteD :: encodeEntries es ++ [byteE]

def encodeItems : List Value → Bytes
  | [] => []
  | v :: vs => encodeValue v ++ encodeItems vs

def encodeEntries : List (Bytes × Value) → Bytes
  | [] => []
  | (k, v) :: es => encodeString k ++ encodeValue v ++ encodeEntries es
end

/-- Keys in strictly increasing order, which is what makes a list of entries a
map. -/
def KeysSorted (es : Entries) : Prop := (es.map Prod.fst).Pairwise (· < ·)

instance (es : Entries) : Decidable (KeysSorted es) := by unfold KeysSorted; infer_instance

/- A value a Go program can hold: integers in the range of `int64`, and maps
that are maps at every level. -/
mutual
def WfValue : Value → Prop
  | .str _ => True
  | .int n => -2 ^ 63 ≤ n ∧ n < 2 ^ 63
  | .list xs => WfItems xs
  | .dict es => KeysSorted es ∧ WfEntries es

def WfItems : List Value → Prop
  | [] => True
  | v :: vs => WfValue v ∧ WfItems vs

def WfEntries : List (Bytes × Value) → Prop
  | [] => True
  | (_, v) :: es => WfValue v ∧ WfEntries es
end

namespace Entries

theorem keysSorted_nil : KeysSorted [] := List.Pairwise.nil

theorem keysSorted_cons {k : Bytes} {v : Value} {es : Entries} :
    KeysSorted ((k, v) :: es) ↔ (∀ kv ∈ es, k < kv.1) ∧ KeysSorted es := by
  simp [KeysSorted]

/-- The keys after an update are the old ones and the new one. -/
theorem mem_keys_put {k k' : Bytes} {v : Value} {es : Entries} :
    k' ∈ (put k v es).map Prod.fst ↔ k' = k ∨ k' ∈ es.map Prod.fst := by
  induction es with
  | nil => simp [put]
  | cons e es ih =>
    obtain ⟨k₀, v₀⟩ := e
    rw [put]
    split
    · simp
    · split
      · next h => simp [h]
      · simp only [List.map_cons, List.mem_cons, ih]
        tauto

theorem mem_put {k : Bytes} {v : Value} {es : Entries} {kv : Bytes × Value}
    (h : kv ∈ put k v es) : kv = (k, v) ∨ kv ∈ es := by
  induction es with
  | nil => simpa [put] using h
  | cons e es ih =>
    obtain ⟨k₀, v₀⟩ := e
    rw [put] at h
    split at h
    · exact List.mem_cons.mp h
    · split at h
      · rcases List.mem_cons.mp h with h | h
        · exact .inl h
        · exact .inr (List.mem_cons_of_mem _ h)
      · rcases List.mem_cons.mp h with h | h
        · exact .inr (h ▸ List.mem_cons_self)
        · exact (ih h).imp_right (List.mem_cons_of_mem _)

theorem put_length_le (k : Bytes) (v : Value) (es : Entries) :
    (put k v es).length ≤ es.length + 1 := by
  induction es with
  | nil => exact Nat.le_refl _
  | cons e es ih =>
    obtain ⟨k₀, v₀⟩ := e
    rw [put]
    split_ifs
    · exact Nat.le_refl _
    · exact Nat.le_succ _
    · rw [List.length_cons, List.length_cons]
      omega

theorem keysSorted_put {k : Bytes} {v : Value} {es : Entries} (h : KeysSorted es) :
    KeysSorted (put k v es) := by
  induction es with
  | nil => simp [put, KeysSorted]
  | cons e es ih =>
    obtain ⟨k₀, v₀⟩ := e
    have hes := keysSorted_cons.mp h
    rw [put]
    split
    · next hlt =>
      refine keysSorted_cons.mpr ⟨fun kv hkv => ?_, h⟩
      rcases List.mem_cons.mp hkv with rfl | hkv
      · exact hlt
      · exact List.lt_trans hlt (hes.1 kv hkv)
    · next hlt =>
      split
      · next heq => exact keysSorted_cons.mpr ⟨heq ▸ hes.1, hes.2⟩
      · next hne =>
        refine keysSorted_cons.mpr ⟨fun kv hkv => ?_, ih hes.2⟩
        have hk : kv.1 ∈ (put k v es).map Prod.fst := List.mem_map_of_mem hkv
        rcases mem_keys_put.mp hk with hk | hk
        · rcases List.le_iff_lt_or_eq.mp (List.not_lt.mp hlt) with hlt' | heq
          · exact hk ▸ hlt'
          · exact absurd heq.symm hne
        · obtain ⟨kv', hkv', heq⟩ := List.mem_map.mp hk
          exact heq ▸ hes.1 kv' hkv'

/-- An update with a key behind every other one goes to the end. -/
theorem put_of_lt {k : Bytes} {v : Value} {es : Entries} (h : ∀ kv ∈ es, kv.1 < k) :
    put k v es = es ++ [(k, v)] := by
  induction es with
  | nil => rfl
  | cons e es ih =>
    obtain ⟨k₀, v₀⟩ := e
    have hk₀ : k₀ < k := h (k₀, v₀) List.mem_cons_self
    rw [put, if_neg (List.lt_asymm hk₀), if_neg (by rintro rfl; exact List.lt_irrefl _ hk₀),
      ih fun kv hkv => h kv (List.mem_cons_of_mem _ hkv)]
    rfl

/-- An update of the last key replaces its value. -/
theorem put_concat_self {k : Bytes} {v v' : Value} {es : Entries} (h : ∀ kv ∈ es, kv.1 < k) :
    put k v (es ++ [(k, v')]) = es ++ [(k, v)] := by
  induction es with
  | nil => simp [put, List.lt_irrefl]
  | cons e es ih =>
    obtain ⟨k₀, v₀⟩ := e
    have hk₀ : k₀ < k := h (k₀, v₀) List.mem_cons_self
    rw [List.cons_append, put, if_neg (List.lt_asymm hk₀),
      if_neg (by rintro rfl; exact List.lt_irrefl _ hk₀),
      ih fun kv hkv => h kv (List.mem_cons_of_mem _ hkv)]
    rfl

theorem get?_put_self (k : Bytes) (v : Value) (es : Entries) : get? k (put k v es) = some v := by
  induction es with
  | nil => simp [put, get?]
  | cons e es ih =>
    obtain ⟨k₀, v₀⟩ := e
    rw [put]
    split
    · simp [get?]
    · split
      · simp [get?]
      · next hne => rw [get?, if_neg hne, ih]

theorem get?_put_of_ne {k k' : Bytes} (hne : k' ≠ k) (v : Value) (es : Entries) :
    get? k' (put k v es) = get? k' es := by
  induction es with
  | nil => simp [put, get?, hne]
  | cons e es ih =>
    obtain ⟨k₀, v₀⟩ := e
    rw [put]
    split
    · rw [get?, if_neg hne]
    · split
      · next heq => rw [get?, get?, if_neg hne, if_neg (heq ▸ hne)]
      · rw [get?, get?, ih]

theorem get?_mem {k : Bytes} {v : Value} {es : Entries} (h : get? k es = some v) :
    (k, v) ∈ es := by
  induction es with
  | nil => exact absurd h (by simp [get?])
  | cons e es ih =>
    obtain ⟨k₀, v₀⟩ := e
    rw [get?] at h
    split at h
    · next heq =>
      rw [Option.some_inj] at h
      rw [heq, h]
      exact List.mem_cons_self
    · exact List.mem_cons_of_mem _ (ih h)

end Entries

theorem wfItems_iff {xs : List Value} : WfItems xs ↔ ∀ v ∈ xs, WfValue v := by
  induction xs with
  | nil => simp [WfItems]
  | cons v vs ih => simp [WfItems, ih]

theorem wfEntries_iff {es : Entries} : WfEntries es ↔ ∀ kv ∈ es, WfValue kv.2 := by
  induction es with
  | nil => simp [WfEntries]
  | cons e es ih =>
    obtain ⟨k, v⟩ := e
    simp only [WfEntries, List.mem_cons, forall_eq_or_imp, ih]

theorem encodeEntries_append (es fs : Entries) :
    encodeEntries (es ++ fs) = encodeEntries es ++ encodeEntries fs := by
  induction es with
  | nil => simp [encodeEntries]
  | cons e es ih => simp [encodeEntries, ih]

end Stor.Bencode
