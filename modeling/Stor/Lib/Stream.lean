import Mathlib.Data.List.Basic
import Stor.Lib.Decimal

/-!
# Streams

What a connection delivers is a list of chunks, one for each read that is given a buffer
large enough; a smaller buffer takes the front of a chunk.  A stream cipher adds a keystream
to the bytes by their places.  Numbers are written big-endian.
-/

namespace Stor.Lib

/-! ## Reading -/

section
variable {α : Type*} {size min n : Nat} {got : List α} {chunks : List (List α)}

/-- One read into a buffer of `size`; `none` is the end of the stream. -/
def readSome (size : Nat) : List (List α) → Option (List α × List (List α))
  | [] => none
  | chunk :: rest =>
    if chunk.length ≤ size then some (chunk, rest)
    else some (chunk.take size, chunk.drop size :: rest)

/-- Reads into a buffer of `size`, of which `got` is filled, until there are `min` items. -/
def readAtLeast (size min : Nat) (got : List α) :
    List (List α) → Option (List α × List (List α))
  | [] => if min ≤ got.length then some (got, []) else none
  | chunk :: rest =>
    if min ≤ got.length then some (got, chunk :: rest)
    else if chunk.length ≤ size - got.length then readAtLeast size min (got ++ chunk) rest
    else some (got ++ chunk.take (size - got.length), chunk.drop (size - got.length) :: rest)

def readFull (n : Nat) (chunks : List (List α)) : Option (List α × List (List α)) :=
  readAtLeast n n [] chunks

theorem readSome_flatten {data : List α} {rest : List (List α)}
    (h : readSome size chunks = some (data, rest)) : data ++ rest.flatten = chunks.flatten := by
  cases chunks with
  | nil => cases h
  | cons chunk chunks =>
    rw [readSome] at h
    split_ifs at h
    · obtain ⟨rfl, rfl⟩ := Prod.mk.inj (Option.some.inj h)
      rfl
    · obtain ⟨rfl, rfl⟩ := Prod.mk.inj (Option.some.inj h)
      rw [List.flatten_cons, List.flatten_cons, ← List.append_assoc, List.take_append_drop]

/-- A read into a buffer that is not empty takes a chunk away or some of the bytes. -/
theorem readSome_lt {data : List α} {rest : List (List α)} (hsize : 0 < size)
    (h : readSome size chunks = some (data, rest)) :
    rest.length + rest.flatten.length < chunks.length + chunks.flatten.length := by
  cases chunks with
  | nil => cases h
  | cons chunk chunks =>
    rw [readSome] at h
    split_ifs at h with hfits
    · obtain ⟨rfl, rfl⟩ := Prod.mk.inj (Option.some.inj h)
      rw [List.flatten_cons, List.length_append, List.length_cons]
      omega
    · obtain ⟨rfl, rfl⟩ := Prod.mk.inj (Option.some.inj h)
      rw [List.flatten_cons, List.flatten_cons, List.length_append, List.length_append,
        List.length_drop, List.length_cons, List.length_cons]
      omega

theorem readAtLeast_spec (hmin : min ≤ size) (hgot : got.length ≤ size)
    (henough : min ≤ got.length + chunks.flatten.length) :
    ∃ data rest, readAtLeast size min got chunks = some (data, rest) ∧
      data ++ rest.flatten = got ++ chunks.flatten ∧ min ≤ data.length ∧ data.length ≤ size := by
  induction chunks generalizing got with
  | nil =>
    rw [List.flatten_nil, List.length_nil, Nat.add_zero] at henough
    exact ⟨got, [], if_pos henough, rfl, henough, hgot⟩
  | cons chunk chunks ih =>
    rw [readAtLeast]
    by_cases hdone : min ≤ got.length
    · exact ⟨got, chunk :: chunks, if_pos hdone, rfl, hdone, hgot⟩
    rw [if_neg hdone]
    by_cases hfits : chunk.length ≤ size - got.length
    · rw [if_pos hfits]
      rw [List.flatten_cons, List.length_append] at henough
      have hlen : (got ++ chunk).length = got.length + chunk.length := List.length_append
      have hgot' : (got ++ chunk).length ≤ size := by omega
      obtain ⟨data, rest, hread, hdata, hmin', hsize⟩ := ih hgot' (by omega)
      exact ⟨data, rest, hread, by rw [hdata, List.append_assoc, List.flatten_cons], hmin', hsize⟩
    · rw [if_neg hfits]
      have hlen : (got ++ chunk.take (size - got.length)).length = size := by
        rw [List.length_append, List.length_take]
        omega
      refine ⟨_, _, rfl, ?_, by omega, by omega⟩
      rw [List.flatten_cons, List.flatten_cons, List.append_assoc,
        ← List.append_assoc (chunk.take _), List.take_append_drop]

theorem readFull_spec (h : n ≤ chunks.flatten.length) :
    ∃ rest, readFull n chunks = some (chunks.flatten.take n, rest) ∧
      rest.flatten = chunks.flatten.drop n := by
  have henough : n ≤ ([] : List α).length + chunks.flatten.length := by
    rwa [List.length_nil, Nat.zero_add]
  obtain ⟨data, rest, hread, hdata, hmin, hsize⟩ :=
    readAtLeast_spec (Nat.le_refl n) (Nat.zero_le _) henough
  have hlen : data.length = n := Nat.le_antisymm hsize hmin
  rw [List.nil_append] at hdata
  refine ⟨rest, ?_, ?_⟩
  · rw [← hdata, List.take_left' hlen]
    exact hread
  · rw [← hdata, List.drop_left' hlen]

/-- A stream that ends early fills no buffer. -/
theorem readAtLeast_eq_none (hmin : min ≤ size)
    (hshort : got.length + chunks.flatten.length < min) :
    readAtLeast size min got chunks = none := by
  induction chunks generalizing got with
  | nil =>
    rw [List.flatten_nil, List.length_nil, Nat.add_zero] at hshort
    exact if_neg (Nat.not_le.mpr hshort)
  | cons chunk chunks ih =>
    rw [List.flatten_cons, List.length_append] at hshort
    have hlen : (got ++ chunk).length = got.length + chunk.length := List.length_append
    rw [readAtLeast, if_neg (by omega), if_pos (by omega)]
    exact ih (by omega)

theorem readFull_eq_none (h : chunks.flatten.length < n) : readFull n chunks = none :=
  readAtLeast_eq_none (Nat.le_refl n) (by rwa [List.length_nil, Nat.zero_add])

theorem of_readFull {data : List α} {rest : List (List α)}
    (h : readFull n chunks = some (data, rest)) :
    data.length = n ∧ chunks.flatten = data ++ rest.flatten := by
  have henough : n ≤ chunks.flatten.length := by
    by_contra hshort
    rw [readFull_eq_none (Nat.not_le.mp hshort)] at h
    cases h
  obtain ⟨rest', hread, hrest⟩ := readFull_spec henough
  obtain ⟨rfl, rfl⟩ := Prod.mk.inj (Option.some.inj (hread.symm.trans h))
  refine ⟨List.length_take_of_le henough, ?_⟩
  rw [hrest, List.take_append_drop]

end

/-! ## Keystreams -/

section
variable (ks : Nat → UInt8) (pos : Nat)

/-- `data` with the keystream from `pos` on. -/
def xorKeyStream (data : Bytes) : Bytes := data.mapIdx fun i b => b ^^^ ks (pos + i)

theorem length_xorKeyStream (data : Bytes) : (xorKeyStream ks pos data).length = data.length :=
  List.length_mapIdx

theorem xorKeyStream_append (a b : Bytes) :
    xorKeyStream ks pos (a ++ b) = xorKeyStream ks pos a ++ xorKeyStream ks (pos + a.length) b := by
  rw [xorKeyStream, List.mapIdx_append]
  simp only [xorKeyStream, Nat.add_comm, Nat.add_left_comm]

theorem take_xorKeyStream (k : Nat) (data : Bytes) :
    (xorKeyStream ks pos data).take k = xorKeyStream ks pos (data.take k) := by
  refine List.ext_getElem (by simp [xorKeyStream]) fun i hi hi' => ?_
  simp only [xorKeyStream, List.getElem_take, List.getElem_mapIdx]

theorem drop_xorKeyStream (k : Nat) (data : Bytes) :
    (xorKeyStream ks pos data).drop k = xorKeyStream ks (pos + k) (data.drop k) := by
  refine List.ext_getElem (by simp [xorKeyStream]) fun i hi hi' => ?_
  simp only [xorKeyStream, List.getElem_drop, List.getElem_mapIdx, Nat.add_assoc]

theorem xorKeyStream_xorKeyStream (data : Bytes) :
    xorKeyStream ks pos (xorKeyStream ks pos data) = data := by
  refine List.ext_getElem (by simp [xorKeyStream]) fun i hi hi' => ?_
  simp only [xorKeyStream, List.getElem_mapIdx, UInt8.xor_assoc, UInt8.xor_self, UInt8.xor_zero]

end

/-! ## Numbers -/

def beNat (bytes : Bytes) : Nat := bytes.foldl (fun n b => n * 256 + b.toNat) 0

/-- `n` in `width` bytes. -/
def beBytes : Nat → Nat → Bytes
  | 0, _ => []
  | width + 1, n => beBytes width (n / 256) ++ [UInt8.ofNat n]

theorem length_beBytes (width n : Nat) : (beBytes width n).length = width := by
  induction width generalizing n with
  | zero => rfl
  | succ width ih => rw [beBytes, List.length_append, ih, List.length_singleton]

theorem beNat_beBytes {width n : Nat} (h : n < 256 ^ width) : beNat (beBytes width n) = n := by
  induction width generalizing n with
  | zero =>
    rw [Nat.pow_zero, Nat.lt_one_iff] at h
    rw [h]
    rfl
  | succ width ih =>
    have hdiv : n / 256 < 256 ^ width := by
      rw [Nat.div_lt_iff_lt_mul (by decide)]
      rwa [Nat.pow_succ] at h
    have hprev := ih hdiv
    unfold beNat at hprev ⊢
    rw [beBytes, List.foldl_append, hprev, List.foldl_cons, List.foldl_nil, UInt8.toNat_ofNat']
    omega

theorem beNat_concat (bytes : Bytes) (b : UInt8) :
    beNat (bytes ++ [b]) = beNat bytes * 256 + b.toNat := by
  rw [beNat, List.foldl_append, List.foldl_cons, List.foldl_nil, beNat]

theorem beBytes_beNat (bytes : Bytes) : beBytes bytes.length (beNat bytes) = bytes := by
  induction bytes using List.reverseRecOn with
  | nil => rfl
  | append_singleton bytes b ih =>
    have hb : b.toNat < 256 := b.toNat_lt
    have hdiv : (beNat bytes * 256 + b.toNat) / 256 = beNat bytes := by omega
    have hlow : UInt8.ofNat (beNat bytes * 256 + b.toNat) = b := by
      apply UInt8.toNat.inj
      rw [UInt8.toNat_ofNat']
      omega
    rw [List.length_append, List.length_singleton, beBytes, beNat_concat, hdiv, hlow, ih]

end Stor.Lib
