import Mathlib.Algebra.Order.BigOperators.Group.List
import Stor.Lib.Int64
import Stor.Peer.Bitfield
import Stor.Torrent.Parse

/-!
# Piece geometry

How `storage.TotalSize` and the consumers of the piece length compute sizes:
`buildWorkQueue`, the piece list of `DownloadWithParams` and the loop of
`VerifyPieces`.  All of it is 64-bit arithmetic on three fields of the torrent
that the parser checks one by one.  `soundGeometry_iff` says which torrents get a
sound geometry out of it.
-/

namespace Stor.Storage

open Lib Bencode Torrent Peer

/-- `TotalSize`; the sum over the files is taken in `int64`. -/
def totalSize (info : Info) : Int :=
  if info.length > 0 then info.length
  else info.files.foldl (fun total f => wrap64 (total + f.length)) 0

/-- `IsMultiFile`. -/
def isMultiFile (info : Info) : Bool := info.files.length > 0

/-- The size without overflow. -/
def exactSize (info : Info) : Int :=
  if info.length > 0 then info.length else (info.files.map File.length).sum

def numPieces (info : Info) : Nat := info.pieceHashes.length

/-- `int64(i) * pieceLength`. -/
def pieceOffset (info : Info) (i : Nat) : Int := wrap64 (i * info.pieceLength)

/-- The piece length, or what remains of the total behind the piece's offset when
that is less. -/
def pieceLengthAt (info : Info) (total : Int) (i : Nat) : Int :=
  let remaining := wrap64 (total - pieceOffset info i)
  if remaining < info.pieceLength then remaining else info.pieceLength

structure PieceWork where
  index : Nat
  hash : Bytes
  length : Int
  deriving DecidableEq, Repr

/-- `buildWorkQueue`, as the list of what is sent on the channel. -/
def buildWorkQueue (info : Info) (totalLength : Int) : List PieceWork :=
  info.pieceHashes.mapIdx fun i hash => ⟨i, hash, pieceLengthAt info totalLength i⟩

/-- `bf != nil && bf.HasPiece(i)`. -/
def inBitfield (bf : Option Bitfield) (i : Nat) : Bool := bf.any fun b => b.hasPiece i

/-- The piece list of `DownloadWithParams`: no piece it has or skips. -/
def pieceList (info : Info) (haveBF skipMask : Option Bitfield) : List PieceWork :=
  (info.pieceHashes.mapIdx fun i hash =>
    (⟨i, hash, pieceLengthAt info (totalSize info) i⟩ : PieceWork)).filter fun w =>
      !inBitfield haveBF w.index && !inBitfield skipMask w.index

theorem pieceList_hash {info : Info} {haveBF skipMask : Option Bitfield} {w : PieceWork}
    (h : w ∈ pieceList info haveBF skipMask) :
    info.pieceHashes[w.index]? = some w.hash ∧
      w.length = pieceLengthAt info (totalSize info) w.index := by
  obtain ⟨i, hi, rfl⟩ := List.mem_mapIdx.mp (List.mem_filter.mp h).1
  exact ⟨List.getElem?_eq_getElem hi, rfl⟩

theorem mem_pieceList {info : Info} {haveBF skipMask : Option Bitfield} {i : Nat} :
    i ∈ (pieceList info haveBF skipMask).map PieceWork.index ↔
      i < numPieces info ∧ inBitfield haveBF i = false ∧ inBitfield skipMask i = false := by
  unfold pieceList
  rw [List.mem_map]
  constructor
  · intro ⟨w, hw, hi⟩
    obtain ⟨hmem, hfree⟩ := List.mem_filter.mp hw
    obtain ⟨j, hj, rfl⟩ := List.mem_mapIdx.mp hmem
    have hji : j = i := hi
    subst hji
    rw [Bool.and_eq_true, Bool.not_eq_true', Bool.not_eq_true'] at hfree
    exact ⟨hj, hfree⟩
  · intro ⟨hi, hfree⟩
    refine ⟨⟨i, info.pieceHashes[i], pieceLengthAt info (totalSize info) i⟩, ?_, rfl⟩
    refine List.mem_filter.mpr ⟨List.mem_mapIdx.mpr ⟨i, hi, rfl⟩, ?_⟩
    rw [Bool.and_eq_true, Bool.not_eq_true', Bool.not_eq_true']
    exact hfree

/-- The pieces of the list have different indices. -/
theorem pieceList_nodup (info : Info) (haveBF skipMask : Option Bitfield) :
    ((pieceList info haveBF skipMask).map PieceWork.index).Nodup := by
  have hall : (info.pieceHashes.mapIdx fun i hash =>
      (⟨i, hash, pieceLengthAt info (totalSize info) i⟩ : PieceWork)).map PieceWork.index =
      List.range info.pieceHashes.length := by
    refine List.ext_getElem (by simp) ?_
    intro i _ _
    rw [List.getElem_map, List.getElem_mapIdx, List.getElem_range]
  refine List.Nodup.sublist (List.filter_sublist.map PieceWork.index) ?_
  rw [hall]
  exact List.nodup_range

/-- A read of `VerifyPieces`: `buf[:length]` at `offset`. -/
structure VerifyRead where
  index : Nat
  hash : Bytes
  offset : Int
  length : Int
  deriving DecidableEq, Repr

/-- The reads of the loop of `VerifyPieces`. -/
def verifyReads (info : Info) : List VerifyRead :=
  info.pieceHashes.mapIdx fun i hash =>
    ⟨i, hash, pieceOffset info i, pieceLengthAt info (totalSize info) i⟩

/-- The position `p` of the torrent is inside piece `i`. -/
def Covers (info : Info) (i : Nat) (p : Int) : Prop :=
  pieceOffset info i ≤ p ∧ p < pieceOffset info i + pieceLengthAt info (totalSize info) i

/-- What the consumers rely on. -/
structure SoundGeometry (info : Info) : Prop where
  total_exact : totalSize info = exactSize info
  total_nonneg : 0 ≤ totalSize info
  count : (numPieces info : Int) = (totalSize info + info.pieceLength - 1) / info.pieceLength
  offset_exact : ∀ i < numPieces info, pieceOffset info i = i * info.pieceLength
  queue : ∀ w ∈ buildWorkQueue info (totalSize info), 1 ≤ w.length ∧ w.length ≤ info.pieceLength
  list : ∀ haveBF skipMask, ∀ w ∈ pieceList info haveBF skipMask,
    1 ≤ w.length ∧ w.length ≤ info.pieceLength
  reads : ∀ r ∈ verifyReads info,
    0 ≤ r.offset ∧ 1 ≤ r.length ∧ r.length ≤ info.pieceLength
  covered : ∀ p, (∃ i < numPieces info, Covers info i p) ↔ 0 ≤ p ∧ p < totalSize info
  disjoint : ∀ p, ∀ i < numPieces info, ∀ j < numPieces info,
    Covers info i p → Covers info j p → i = j

/-- The declared bytes fit into an `int64` and need exactly the declared pieces:
one piece less would be too few, and so many are enough. -/
def PiecesMatchSize (info : Info) : Prop :=
  exactSize info < 2 ^ 63 ∧ ((numPieces info : Int) - 1) * info.pieceLength < exactSize info ∧
    exactSize info ≤ numPieces info * info.pieceLength

theorem totalSize_eq_wrap {info : Info} (hlt : info.length < 2 ^ 63) :
    totalSize info = wrap64 (exactSize info) := by
  rw [totalSize, exactSize]
  split_ifs with h
  · rw [wrap64_of_range (by omega) hlt]
  · have hfold := foldl_wrap64 File.length info.files 0
    rw [wrap64_of_range (by decide) (by decide), Int.zero_add] at hfold
    exact hfold

theorem exactSize_lt {info : Info} (hlt : info.length < 2 ^ 63)
    (hsize : (info.files.map File.length).sum < 2 ^ 63) : exactSize info < 2 ^ 63 := by
  unfold exactSize
  split_ifs
  · exact hlt
  · exact hsize

theorem exactSize_nonneg {info : Info} (h : ∀ f ∈ info.files, 0 ≤ f.length) :
    0 ≤ exactSize info := by
  rw [exactSize]
  split_ifs
  · omega
  · refine List.sum_nonneg fun n hn => ?_
    obtain ⟨f, hf, rfl⟩ := List.mem_map.mp hn
    exact h f hf

section Sound

variable {info : Info} (hpl : 0 < info.pieceLength) (hmatch : PiecesMatchSize info)
  (htotal : totalSize info = exactSize info)

include hpl hmatch

theorem offset_lt_size {i : Nat} (hi : i < numPieces info) :
    (i : Int) * info.pieceLength < exactSize info := by
  have hle : (i : Int) * info.pieceLength ≤ ((numPieces info : Int) - 1) * info.pieceLength :=
    Int.mul_le_mul_of_nonneg_right (by omega) (by omega)
  exact Int.lt_of_le_of_lt hle hmatch.2.1

theorem pieceOffset_exact {i : Nat} (hi : i < numPieces info) :
    pieceOffset info i = i * info.pieceLength := by
  have hlt := offset_lt_size hpl hmatch hi
  have hnonneg : 0 ≤ (i : Int) * info.pieceLength := Int.mul_nonneg (by omega) (by omega)
  have hsize := hmatch.1
  exact wrap64_of_range (by omega) (by omega)

include htotal

theorem pieceLengthAt_exact {i : Nat} (hi : i < numPieces info) :
    pieceLengthAt info (totalSize info) i =
      min info.pieceLength (exactSize info - i * info.pieceLength) := by
  have hlt := offset_lt_size hpl hmatch hi
  have hnonneg : 0 ≤ (i : Int) * info.pieceLength := Int.mul_nonneg (by omega) (by omega)
  have hsize := hmatch.1
  rw [pieceLengthAt, pieceOffset_exact hpl hmatch hi, htotal, wrap64_of_range (by omega) (by omega)]
  split_ifs <;> omega

theorem pieceLengthAt_bounds {i : Nat} (hi : i < numPieces info) :
    1 ≤ pieceLengthAt info (totalSize info) i ∧
      pieceLengthAt info (totalSize info) i ≤ info.pieceLength := by
  have hlt := offset_lt_size hpl hmatch hi
  rw [pieceLengthAt_exact hpl hmatch htotal hi]
  omega

theorem covers_iff {i : Nat} (hi : i < numPieces info) (p : Int) :
    Covers info i p ↔
      i * info.pieceLength ≤ p ∧ p < (i + 1) * info.pieceLength ∧ p < exactSize info := by
  rw [Covers, pieceOffset_exact hpl hmatch hi, pieceLengthAt_exact hpl hmatch htotal hi,
    Int.add_mul, Int.one_mul]
  omega

/-- The piece of a position is its quotient by the piece length. -/
theorem covers_iff_ediv {i : Nat} (hi : i < numPieces info) (p : Int) :
    Covers info i p ↔ p / info.pieceLength = i ∧ p < exactSize info := by
  rw [covers_iff hpl hmatch htotal hi, Int.ediv_eq_iff_of_pos hpl, ← and_assoc, Int.add_mul,
    Int.one_mul, Int.mul_comm]

theorem exists_covers_iff (p : Int) :
    (∃ i < numPieces info, Covers info i p) ↔ 0 ≤ p ∧ p < totalSize info := by
  rw [htotal]
  constructor
  · rintro ⟨i, hi, hcov⟩
    obtain ⟨hlo, -, hlt⟩ := (covers_iff hpl hmatch htotal hi p).mp hcov
    have hnonneg : 0 ≤ (i : Int) * info.pieceLength := Int.mul_nonneg (by omega) (by omega)
    exact ⟨by omega, hlt⟩
  · rintro ⟨hnonneg, hlt⟩
    have hq : 0 ≤ p / info.pieceLength := Int.ediv_nonneg hnonneg (by omega)
    have hbound : p / info.pieceLength < numPieces info :=
      Int.ediv_lt_of_lt_mul hpl (Int.lt_of_lt_of_le hlt hmatch.2.2)
    have hi : (p / info.pieceLength).toNat < numPieces info := by omega
    refine ⟨_, hi, (covers_iff_ediv hpl hmatch htotal hi p).mpr ⟨by omega, hlt⟩⟩

end Sound

theorem ceil_eq_of_bounds {n s l : Int} (hl : 0 < l) (hlo : (n - 1) * l < s) (hhi : s ≤ n * l) :
    n = (s + l - 1) / l := by
  symm
  rw [Int.ediv_eq_iff_of_pos hl]
  rw [Int.sub_mul, Int.one_mul] at hlo
  omega

theorem bounds_of_ceil_eq {n s l : Int} (hl : 0 < l) (h : n = (s + l - 1) / l) :
    (n - 1) * l < s ∧ s ≤ n * l := by
  rw [eq_comm, Int.ediv_eq_iff_of_pos hl] at h
  rw [Int.sub_mul, Int.one_mul]
  omega

theorem soundGeometry_of_piecesMatchSize {info : Info} (hpl : 0 < info.pieceLength)
    (hlt : info.length < 2 ^ 63) (hnonneg : ∀ f ∈ info.files, 0 ≤ f.length)
    (hmatch : PiecesMatchSize info) : SoundGeometry info := by
  have hsize := exactSize_nonneg hnonneg
  have hbound := hmatch.1
  have htotal : totalSize info = exactSize info := by
    rw [totalSize_eq_wrap hlt, wrap64_of_range (by omega) hbound]
  have hlen := fun {i} => pieceLengthAt_bounds hpl hmatch htotal (i := i)
  refine ⟨htotal, by omega, ?_, fun i hi => pieceOffset_exact hpl hmatch hi, ?_, ?_, ?_,
    exists_covers_iff hpl hmatch htotal, ?_⟩
  · rw [htotal]
    exact ceil_eq_of_bounds hpl hmatch.2.1 hmatch.2.2
  · intro w hw
    obtain ⟨i, hi, rfl⟩ := List.mem_mapIdx.mp hw
    exact hlen hi
  · intro haveBF skipMask w hw
    obtain ⟨i, hi, rfl⟩ := List.mem_mapIdx.mp (List.mem_filter.mp hw).1
    exact hlen hi
  · intro r hr
    obtain ⟨i, hi, rfl⟩ := List.mem_mapIdx.mp hr
    refine ⟨?_, hlen hi⟩
    show 0 ≤ pieceOffset info i
    rw [pieceOffset_exact hpl hmatch hi]
    exact Int.mul_nonneg (by omega) (by omega)
  · intro p i hi j hj hci hcj
    rw [covers_iff_ediv hpl hmatch htotal hi] at hci
    rw [covers_iff_ediv hpl hmatch htotal hj] at hcj
    omega

/-- What the parser checks of the three fields. -/
theorem parse_bounds {H : Digests} {data : Bytes} {tf : TorrentFile} (h : parse H data = .ok tf) :
    0 < tf.info.pieceLength ∧ tf.info.length < 2 ^ 63 ∧ ∀ f ∈ tf.info.files, 0 ≤ f.length := by
  obtain ⟨root, infoDict, hdecode, -, hinfo, hparse, -, -⟩ := parse_eq_ok h
  obtain ⟨-, -, hpl, -, hlayout, -, -⟩ := parseInfo_eq_ok.mp hparse
  have hwf : WfEntries infoDict := (wf_of_get? (decode_eq_ok hdecode).1.2 hinfo).2
  exact ⟨hpl, (parseLayout_lt hwf hlayout).1, (parseLayout_nonneg hlayout).2⟩

/-- An accepted torrent has a sound geometry exactly when its piece hashes match
its size. -/
theorem soundGeometry_iff (H : Digests) (data : Bytes) (tf : TorrentFile)
    (h : parse H data = .ok tf) : SoundGeometry tf.info ↔ PiecesMatchSize tf.info := by
  obtain ⟨hpl, hlt, hnonneg⟩ := parse_bounds h
  constructor
  · intro hsound
    have hcount := bounds_of_ceil_eq hpl hsound.count
    have hrange := wrap64_range (exactSize tf.info)
    rw [← totalSize_eq_wrap hlt] at hrange
    rw [hsound.total_exact] at hcount hrange
    exact ⟨hrange.2, hcount⟩
  · exact soundGeometry_of_piecesMatchSize hpl hlt hnonneg

/-- A file of five bytes in pieces of five bytes, with the given piece hashes. -/
def fiveByteTorrent (pieces : Bytes) : Bytes :=
  ascii "d4:infod6:lengthi5e4:name1:a12:piece lengthi5e6:pieces" ++ encodeString pieces ++
    ascii "ee"

theorem soundGeometry_oneHash :
    ∃ tf, parse plainDigests (fiveByteTorrent (List.replicate 20 97)) = .ok tf ∧
      PiecesMatchSize tf.info ∧ SoundGeometry tf.info := by
  have hfields : (parse plainDigests (fiveByteTorrent (List.replicate 20 97))).toOption.map
      (fun tf => (exactSize tf.info, numPieces tf.info, tf.info.pieceLength)) =
      some (5, 1, 5) := by
    rw [fiveByteTorrent, ascii_ofList]
    decide +kernel
  obtain ⟨tf, hparse, hfields⟩ := exists_parse_eq_ok hfields
  simp only [Prod.mk.injEq] at hfields
  have hmatch : PiecesMatchSize tf.info := by
    rw [PiecesMatchSize, hfields.1, hfields.2.1, hfields.2.2]
    decide
  exact ⟨tf, hparse, hmatch, (soundGeometry_iff _ _ tf hparse).mpr hmatch⟩

/-- With three hashes for the five bytes the third piece gets a negative length,
which `VerifyPieces` takes a slice of. -/
theorem not_soundGeometry_threeHashes :
    ∃ tf, parse plainDigests (fiveByteTorrent (List.replicate 60 97)) = .ok tf ∧
      (∃ r ∈ verifyReads tf.info, r.length = -5) ∧ ¬ SoundGeometry tf.info := by
  have hfields : (parse plainDigests (fiveByteTorrent (List.replicate 60 97))).toOption.map
      (fun tf => (verifyReads tf.info)[2]?.map VerifyRead.length) = some (some (-5)) := by
    rw [fiveByteTorrent, ascii_ofList]
    decide +kernel
  obtain ⟨tf, hparse, hread⟩ := exists_parse_eq_ok hfields
  obtain ⟨r, hr, hlen⟩ := Option.map_eq_some_iff.mp hread
  have hmem := List.mem_of_getElem? hr
  refine ⟨tf, hparse, ⟨r, hmem, hlen⟩, fun hsound => ?_⟩
  have := (hsound.reads r hmem).2.1
  omega

end Stor.Storage
