import Stor.Engine.Record
import Stor.Lib.Blocks

/-!
# Progress by file

`engine/file_progress.go` and `Session.Files`: how much of each file is there, from the pieces
that are.  The loop of `computeFileDownloaded` adds up what the complete pieces have of the
file.  `fileDownloaded_adds_up` says that this is a count of positions, as long as the last
piece would end inside an `int64` at full length.  The loop computes that end before it
compares it with the size, and an end that wraps is before the start.
-/

namespace Stor.Engine

open Lib Bencode Torrent Peer Storage

/-- `HasPiece` at an index that may be negative. -/
def hasPieceAt (bf : Bitfield) (i : Int) : Bool := decide (0 ≤ i) && bf.hasPiece i.toNat

/-- A round of the loop: what piece `i` has of the file from `offset` up to `stop`. -/
def addPiece (bf : Bitfield) (offset stop pieceLength totalBytes downloaded i : Int) : Int :=
  if hasPieceAt bf i then
    let pieceStart := wrap64 (i * pieceLength)
    let pieceEnd := min (wrap64 (pieceStart + pieceLength)) totalBytes
    let start := max pieceStart offset
    let finish := min pieceEnd stop
    if finish > start then wrap64 (downloaded + (finish - start)) else downloaded
  else downloaded

def computeFileDownloaded (bf : Option Bitfield)
    (offset length pieceLength totalBytes : Int) (numPieces : Nat) : Int :=
  match bf with
  | none => 0
  | some bf =>
    if length ≤ 0 ∨ pieceLength ≤ 0 then 0
    else
      let stop := wrap64 (offset + length)
      let firstPiece := offset.tdiv pieceLength
      let lastPiece := (wrap64 (stop - 1)).tdiv pieceLength
      let lastPiece := if lastPiece ≥ numPieces then (numPieces : Int) - 1 else lastPiece
      (List.range (lastPiece + 1 - firstPiece).toNat).foldl
        (fun downloaded (k : Nat) =>
          addPiece bf offset stop pieceLength totalBytes downloaded (firstPiece + (k : Int))) 0

/-! ## `Session.Files` -/

def priorityNormal : Int := 0

/-- An entry of the list that a client is shown. -/
structure FileInfo where
  path : Bytes
  length : Int
  downloaded : Int
  priority : Int
  deriving DecidableEq, Repr

/-- The loop of `Files` from file `i` on. -/
def fileLoop (bf : Option Bitfield) (prios : List Int) (pieceLength totalBytes : Int)
    (numPieces : Nat) : Nat → List File → Int → List FileInfo
  | _, [], _ => []
  | i, f :: fs, offset =>
    ⟨joinPath f.path, f.length,
        computeFileDownloaded bf offset f.length pieceLength totalBytes numPieces,
        prios.getD i priorityNormal⟩ ::
      fileLoop bf prios pieceLength totalBytes numPieces (i + 1) fs
        (wrap64 (offset + f.length))

/-- `Files`; without metadata the list is empty. -/
def fileList (info : Option Info) (bf : Option Bitfield) (prios : List Int) : List FileInfo :=
  match info with
  | none => []
  | some info =>
    if info.files = [] then
      [⟨info.name, info.length, computeFileDownloaded bf 0 info.length info.pieceLength
          (totalSize info) (numPieces info), prios.getD 0 priorityNormal⟩]
    else
      fileLoop bf prios info.pieceLength (totalSize info) (numPieces info) 0 info.files 0

/-! ## Counting -/

/-- The positions from `a` up to `e` whose piece is one of the first `n` and is there. -/
def heldIn (bf : Option Bitfield) (w n a e : Nat) : Nat :=
  countIn (fun i => i < n ∧ inBitfield bf i = true) w a e

/-- A piece that starts inside the torrent ends inside an `int64`, at full length. -/
def RoundFits (w total : Nat) : Prop := ∀ i, i * w < total → (i + 1) * w < 2 ^ 63

/-- Where a file starts. -/
def startOf (files : List File) (k : Nat) : Nat :=
  ((files.take k).map fun f => f.length.toNat).sum

theorem startOf_cons (f : File) (fs : List File) (k : Nat) :
    startOf (f :: fs) (k + 1) = f.length.toNat + startOf fs k := by
  unfold startOf
  rw [List.take_succ_cons, List.map_cons, List.sum_cons]

section Count

variable {bf : Bitfield} {w o l total : Nat}

theorem heldIn_none (w n a e : Nat) : heldIn none w n a e = 0 := by
  unfold heldIn countIn
  rw [Finset.card_eq_zero]
  exact Finset.filter_eq_empty_iff.mpr fun b _ hb => Bool.false_ne_true hb.2

/-- A round in exact numbers. -/
theorem addPiece_cast (hround : RoundFits w total) (htotal : total < 2 ^ 63) (hend : o + l ≤ total)
    {i d : Nat} (hi : i * w < total)
    (hd : (d + if bf.hasPiece i = true then share w o (o + l) i else 0) < 2 ^ 63) :
    addPiece bf o (o + l : Nat) w total d i =
      ((d + if bf.hasPiece i = true then share w o (o + l) i else 0 : Nat) : Int) := by
  have hhas : hasPieceAt bf i = bf.hasPiece i := by
    rw [hasPieceAt, decide_eq_true (Int.natCast_nonneg i), Bool.true_and, Int.toNat_natCast]
  unfold addPiece
  rw [hhas]
  by_cases hp : bf.hasPiece i = true
  · have hfull := hround i hi
    have hstart : wrap64 ((i : Int) * w) = ((i * w : Nat) : Int) := by
      rw [← Int.natCast_mul]
      exact wrap64_of_range (by omega) (by omega)
    have hnext : (i + 1) * w = i * w + w := by rw [Nat.add_mul, Nat.one_mul]
    rw [if_pos hp] at hd
    unfold share at hd ⊢
    rw [if_pos hp, if_pos hp, hstart]
    generalize i * w = s at *
    dsimp only
    rw [wrap64_of_range (by omega) (by omega), hnext]
    by_cases hless : min (min ((s : Int) + w) total) ((o + l : Nat) : Int) > max (s : Int) o
    · rw [if_pos hless, wrap64_of_range (by omega) (by omega)]
      omega
    · rw [if_neg hless]
      omega
  · rw [if_neg hp, if_neg hp, Nat.add_zero]

/-- The loop over the first `m` pieces of the file. -/
theorem foldl_addPiece (hw : 0 < w) (hround : RoundFits w total) (htotal : total < 2 ^ 63)
    (hend : o + l ≤ total) {m : Nat} (hm : ∀ k < m, (o / w + k) * w < total) :
    (List.range m).foldl (fun downloaded (k : Nat) =>
        addPiece bf o (o + l : Nat) w total downloaded (((o / w : Nat) : Int) + (k : Int))) 0 =
      ((∑ i ∈ Finset.Ico (o / w) (o / w + m),
        if bf.hasPiece i = true then share w o (o + l) i else 0 : Nat) : Int) := by
  induction m with
  | zero => rw [Nat.add_zero, Finset.Ico_self, Finset.sum_empty]; rfl
  | succ m ih =>
    have hsum := Finset.sum_Ico_succ_top (Nat.le_add_right (o / w) m)
      fun i => if bf.hasPiece i = true then share w o (o + l) i else 0
    have hle := sum_share_le (fun i => bf.hasPiece i = true) hw o (o + l)
      (Finset.Ico (o / w) (o / w + m + 1))
    rw [hsum] at hle
    rw [List.range_succ, List.foldl_append, ih fun k hk => hm k (Nat.lt_succ_of_lt hk),
      List.foldl_cons, List.foldl_nil, ← Int.natCast_add,
      addPiece_cast hround htotal hend (hm m (Nat.lt_succ_self m)) (by omega), ← Nat.add_assoc,
      hsum]

/-- What `computeFileDownloaded` returns is a count of positions. -/
theorem computeFileDownloaded_cast (bf : Option Bitfield) (hw : 0 < w)
    (hround : RoundFits w total) (htotal : total < 2 ^ 63) (hend : o + l ≤ total) (n : Nat) :
    computeFileDownloaded bf o l w total n = heldIn bf w n o (o + l) := by
  cases bf with
  | none => rw [heldIn_none]; rfl
  | some bf =>
    unfold computeFileDownloaded
    by_cases hl : l = 0
    · subst hl
      dsimp only
      rw [if_pos (.inl (Int.le_refl 0)), heldIn, Nat.add_zero, countIn_self]
      rfl
    dsimp only
    rw [if_neg (by omega), ← Int.natCast_add, wrap64_of_range (by omega) (by omega)]
    have hstop : wrap64 (((o + l : Nat) : Int) - 1) = ((o + l - 1 : Nat) : Int) := by
      rw [wrap64_of_range (by omega) (by omega)]
      omega
    rw [hstop, ← Int.ofNat_tdiv, ← Int.ofNat_tdiv]
    have hm : ((if ((((o + l - 1) / w : Nat) : Int)) ≥ n then (n : Int) - 1
          else (((o + l - 1) / w : Nat) : Int)) + 1 - ((o / w : Nat) : Int)).toNat =
        min ((o + l - 1) / w + 1) n - o / w := by
      split_ifs <;> omega
    rw [hm]
    generalize hcount : min ((o + l - 1) / w + 1) n - o / w = m
    have hlast : (o + l - 1) / w * w ≤ o + l - 1 := Nat.div_mul_le_self _ _
    rw [foldl_addPiece hw hround htotal hend, heldIn,
      countIn_eq_sum _ hw (t := Finset.Ico (o / w) (o / w + m))]
    · refine congrArg _ (Finset.sum_congr rfl fun i hi => ?_)
      have hi' := Finset.mem_Ico.mp hi
      exact if_congr (by
        rw [and_iff_right (by omega)]
        rfl) rfl rfl
    · intro b hlo hhi hb
      have hfirst : o / w ≤ b / w := Nat.div_le_div_right hlo
      have hupper : b / w ≤ (o + l - 1) / w := Nat.div_le_div_right (by omega)
      rw [Finset.mem_Ico]
      omega
    · intro k hk
      have hmul : (o / w + k) * w ≤ (o + l - 1) / w * w := Nat.mul_le_mul_right w (by omega)
      omega

/-- `computeFileDownloaded` with the length that the file list has. -/
theorem computeFileDownloaded_file (bf : Option Bitfield) (hw : 0 < w)
    (hround : RoundFits w total) (htotal : total < 2 ^ 63) {f : File} (hf : 0 ≤ f.length)
    (hend : o + f.length.toNat ≤ total) (n : Nat) :
    computeFileDownloaded bf o f.length w total n = heldIn bf w n o (o + f.length.toNat) := by
  have hcount := computeFileDownloaded_cast bf hw hround htotal hend n
  rwa [Int.toNat_of_nonneg hf] at hcount

/-- The files of the loop have what the pieces have of all of them. -/
theorem fileLoop_sum (bf : Option Bitfield) (prios : List Int) (hw : 0 < w)
    (hround : RoundFits w total) (htotal : total < 2 ^ 63) {fs : List File}
    (hnonneg : ∀ f ∈ fs, 0 ≤ f.length)
    (hend : o + (fs.map fun f => f.length.toNat).sum ≤ total) (n i : Nat) :
    ((fileLoop bf prios w total n i fs o).map FileInfo.downloaded).sum =
      heldIn bf w n o (o + (fs.map fun f => f.length.toNat).sum) := by
  induction fs generalizing o i with
  | nil =>
    unfold fileLoop heldIn
    rw [List.map_nil, List.map_nil, List.sum_nil, List.sum_nil, Nat.add_zero, countIn_self]
    rfl
  | cons f fs ih =>
    obtain ⟨hf, hfs⟩ := List.forall_mem_cons.mp hnonneg
    rw [List.map_cons, List.sum_cons] at hend
    rw [fileLoop, List.map_cons, List.sum_cons, wrap64_add_toNat hf (by omega),
      ih hfs (by omega) (i + 1), computeFileDownloaded_file bf hw hround htotal hf (by omega),
      ← Int.natCast_add, List.map_cons, List.sum_cons, ← Nat.add_assoc]
    unfold heldIn
    rw [← countIn_add _ (Nat.le_add_right _ _) (Nat.le_add_right _ _)]

end Count

/-- The list of `Files`, for a torrent of one file and of several. -/
theorem fileList_sum {info : Info} (hpl : 0 < info.pieceLength) (hlen : 0 ≤ info.length)
    (hfiles : ∀ f ∈ info.files, 0 ≤ f.length) (hmulti : info.files ≠ [] → info.length = 0)
    (hsize : exactSize info < 2 ^ 63)
    (hround : RoundFits info.pieceLength.toNat (exactSize info).toNat) (bf : Option Bitfield)
    (prios : List Int) :
    ((fileList (some info) bf prios).map FileInfo.downloaded).sum =
      heldIn bf info.pieceLength.toNat (numPieces info) 0 (exactSize info).toNat := by
  have hexact := exactSize_nonneg hfiles
  have hlt : info.length < 2 ^ 63 := by
    unfold exactSize at hsize
    split_ifs at hsize <;> omega
  have htotal : totalSize info = (exactSize info).toNat := by
    rw [totalSize_eq_wrap hlt, wrap64_of_range (by omega) hsize]
    omega
  have hw : info.pieceLength = (info.pieceLength.toNat : Int) := by omega
  have hpos : 0 < info.pieceLength.toNat := by omega
  unfold fileList
  dsimp only
  by_cases hnone : info.files = []
  · have hone : (exactSize info).toNat = info.length.toNat := by
      rw [exactSize, hnone]
      split_ifs
      · rfl
      · rw [List.map_nil, List.sum_nil]
        omega
    have hend : 0 + info.length.toNat ≤ (exactSize info).toNat := by omega
    have hcount := computeFileDownloaded_cast bf hpos hround (by omega) hend (numPieces info)
    rw [Int.toNat_of_nonneg hlen, Nat.zero_add, ← hone] at hcount
    rw [if_pos hnone, List.map_singleton, List.sum_singleton, htotal, hw]
    exact hcount
  · have hzero := hmulti hnone
    have hsum := sum_map_toNat hfiles
    have hall : (info.files.map fun f => f.length.toNat).sum = (exactSize info).toNat := by
      rw [exactSize, if_neg (by omega)]
      omega
    have hloop := fileLoop_sum bf prios hpos hround (by omega) hfiles (o := 0) (by omega)
      (numPieces info) 0
    rw [if_neg hnone, htotal, hw]
    rwa [Nat.zero_add, hall] at hloop

theorem startOf_add_le {files : List File} {k : Nat} {f : File} (hk : files[k]? = some f) :
    startOf files k + f.length.toNat ≤ (files.map fun f => f.length.toNat).sum := by
  obtain ⟨hlt, hf⟩ := List.getElem?_eq_some_iff.mp hk
  have hsplit : files = files.take k ++ f :: files.drop (k + 1) := by
    rw [← hf, List.getElem_cons_drop, List.take_append_drop]
  have hsum := congrArg (fun fs => (fs.map fun f : File => f.length.toNat).sum) hsplit
  rw [List.map_append, List.sum_append, List.map_cons, List.sum_cons] at hsum
  unfold startOf
  omega

end Stor.Engine
