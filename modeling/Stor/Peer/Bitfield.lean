import Stor.Lib.Decimal

/-!
# Bitfields

The `Bitfield` of `peer/message.go`: piece `i` is bit `7 - i % 8` of byte
`i / 8`.  An index behind the last byte has no bit, and setting it does nothing.
-/

namespace Stor.Peer

open Lib

structure Bitfield where
  bytes : Bytes
  deriving DecidableEq, Repr

namespace Bitfield

/-- `make(Bitfield, n)`. -/
def zeros (n : Nat) : Bitfield := ⟨List.replicate n 0⟩

def byteLength (bf : Bitfield) : Nat := bf.bytes.length

def hasPiece (bf : Bitfield) (index : Nat) : Bool :=
  match bf.bytes[index / 8]? with
  | none => false
  | some b => b.toNat.testBit (7 - index % 8)

def setPiece (bf : Bitfield) (index : Nat) : Bitfield :=
  ⟨bf.bytes.modify (index / 8) fun b => b ||| UInt8.ofNat (2 ^ (7 - index % 8))⟩

/-- The bytes a bitfield of `n` pieces needs. -/
def sizeFor (numPieces : Nat) : Nat := (numPieces + 7) / 8

theorem zeros_byteLength (n : Nat) : (zeros n).byteLength = n := List.length_replicate

theorem hasPiece_zeros (n i : Nat) : (zeros n).hasPiece i = false := by
  rw [hasPiece]
  split
  · rfl
  · next b hb =>
    have hzero : b = 0 := List.eq_of_mem_replicate (List.mem_of_getElem? hb)
    rw [hzero]
    exact Nat.zero_testBit _

theorem setPiece_byteLength (bf : Bitfield) (i : Nat) :
    (bf.setPiece i).byteLength = bf.byteLength := by
  simp [setPiece, byteLength]

theorem testBit_or_bit (b : UInt8) {k : Nat} (hk : k < 8) (j : Nat) :
    (b ||| UInt8.ofNat (2 ^ k)).toNat.testBit j = (b.toNat.testBit j || decide (k = j)) := by
  have hlt : 2 ^ k < 2 ^ 8 := Nat.pow_lt_pow_right (by decide) hk
  rw [UInt8.toNat_or, UInt8.toNat_ofNat', Nat.mod_eq_of_lt hlt, Nat.testBit_or,
    Nat.testBit_two_pow]

/-- A bit after a `SetPiece`: the one that was set, or an old one. -/
theorem hasPiece_setPiece (bf : Bitfield) (i j : Nat) :
    (bf.setPiece i).hasPiece j =
      (bf.hasPiece j || (decide (i = j) && decide (i / 8 < bf.byteLength))) := by
  rw [hasPiece, hasPiece, setPiece, byteLength]
  simp only [List.getElem?_modify]
  cases hb : bf.bytes[j / 8]? with
  | none =>
    have hlen := List.getElem?_eq_none_iff.mp hb
    simp only [Option.map_eq_map, Option.map_none, Bool.false_or]
    by_cases hij : i = j
    · subst hij
      rw [decide_eq_false (p := i / 8 < _) (Nat.not_lt.mpr hlen), Bool.and_false]
    · rw [decide_eq_false hij, Bool.false_and]
  | some b =>
    have hlen := (List.getElem?_eq_some_iff.mp hb).1
    simp only [Option.map_eq_map, Option.map_some]
    by_cases hbyte : i / 8 = j / 8
    · rw [if_pos hbyte, testBit_or_bit b (by omega),
        decide_eq_true (p := i / 8 < _) (by rw [hbyte]; exact hlen), Bool.and_true]
      congr 1
      apply decide_eq_decide.mpr
      omega
    · rw [if_neg hbyte, decide_eq_false (p := i = j) (by rintro rfl; exact hbyte rfl),
        Bool.false_and, Bool.or_false]

/-- Setting a list of pieces one after the other. -/
def setAll (bf : Bitfield) (is : List Nat) : Bitfield := is.foldl setPiece bf

theorem hasPiece_setAll (bf : Bitfield) (is : List Nat) (j : Nat) :
    (bf.setAll is).hasPiece j =
      (bf.hasPiece j || (decide (j ∈ is) && decide (j / 8 < bf.byteLength))) := by
  induction is generalizing bf with
  | nil => simp [setAll]
  | cons i is ih =>
    rw [setAll, List.foldl_cons, ← setAll, ih, hasPiece_setPiece, setPiece_byteLength]
    by_cases hij : i = j
    · subst hij
      by_cases hlen : i / 8 < bf.byteLength <;> simp [hlen]
    · simp [hij, Ne.symm hij]

theorem setAll_byteLength (bf : Bitfield) (is : List Nat) :
    (bf.setAll is).byteLength = bf.byteLength := by
  induction is generalizing bf with
  | nil => rfl
  | cons i is ih => rw [setAll, List.foldl_cons, ← setAll, ih, setPiece_byteLength]

/-- The number of set bits. -/
def count (bf : Bitfield) : Nat := (List.range (8 * bf.byteLength)).countP bf.hasPiece

theorem count_setAll_zeros {n : Nat} {is : List Nat} (hnodup : is.Nodup) (hlt : ∀ i ∈ is, i < 8 * n) :
    ((zeros n).setAll is).count = is.length := by
  have hbit : ∀ j ∈ List.range (8 * n),
      (((zeros n).setAll is).hasPiece j = true ↔ decide (j ∈ is) = true) := by
    intro j hj
    have hbyte : j / 8 < n := by
      have := List.mem_range.mp hj
      omega
    rw [hasPiece_setAll, hasPiece_zeros, zeros_byteLength, decide_eq_true hbyte, Bool.and_true,
      Bool.false_or]
  have hperm : ((List.range (8 * n)).filter fun j => decide (j ∈ is)).Perm is := by
    rw [List.perm_ext_iff_of_nodup (List.nodup_range.filter _) hnodup]
    intro j
    rw [List.mem_filter, List.mem_range, decide_eq_true_eq]
    exact ⟨fun hj => hj.2, fun hj => ⟨hlt j hj, hj⟩⟩
  unfold count
  rw [setAll_byteLength, zeros_byteLength, List.countP_congr hbit, List.countP_eq_length_filter,
    hperm.length_eq]

end Bitfield

end Stor.Peer
