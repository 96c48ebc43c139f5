import Stor.Storage.Target

/-!
# Opening and checking what is stored

How `DownloadWithParams` opens its target and brings it to size, and
`VerifyPieces`, which tells the pieces that are on the disk.  A bit of its
bitfield is right when the disk holds the whole piece (`verifyPieces_bit`).
-/

namespace Stor.Storage

open Lib Torrent Peer

abbrev Files := Disk Bytes UInt8

/-- The contents of the file at a path. -/
def readAt (cwd : List Bytes) (disk : Files) (path : Bytes) : Option Bytes :=
  disk.read (resolve cwd path)

/-- Open the write target, with the disk after it also when that fails. -/
def openTarget (cwd : List Bytes) (disk : Files) (path : Bytes) (info : Info) :
    Files × Option Target :=
  if isMultiFile info then
    let (disk, entries) := newMultiFileWriter cwd disk path info
    (disk, entries.map .files)
  else
    match disk.openCreate (resolve cwd path) with
    | none => (disk, none)
    | some disk => (disk, some (.file path))

/-- The loop of `PreallocateFiles`, up to the first failure. -/
def preallocateFiles (cwd : List Bytes) : List FileEntry → Files → Files × Bool
  | [], disk => (disk, true)
  | fe :: fes, disk =>
    match disk.openCreate (resolve cwd fe.path) with
    | none => (disk, false)
    | some disk =>
      if fe.length < 0 then (disk, false)
      else preallocateFiles cwd fes (disk.truncate (resolve cwd fe.path) fe.length.toNat)

/-- Bring an opened target to the size of the torrent. -/
def preallocate (cwd : List Bytes) (disk : Files) (info : Info) : Target → Files × Bool
  | .file path =>
    if totalSize info < 0 then (disk, false)
    else (disk.truncate (resolve cwd path) (totalSize info).toNat, true)
  | .files entries => preallocateFiles cwd entries disk

/-! ## `VerifyPieces` -/

/-- The check of one piece. -/
def verifies (sha1 : Bytes → Bytes) (read : Bytes → Option Bytes) (target : Target)
    (r : VerifyRead) : Bool :=
  (readTarget read target r.length.toNat r.offset).any fun block => sha1 block == r.hash

/-- The loop over the pieces: the bitfield and the number of pieces it marks.
There is none when a length is negative, which `buf[:length]` cannot be. -/
def checkPieces (sha1 : Bytes → Bytes) (read : Bytes → Option Bytes) (target : Target)
    (info : Info) : Option (Bitfield × Nat) :=
  let good := (verifyReads info).filter (verifies sha1 read target)
  if (verifyReads info).any fun r => r.length < 0 then none
  else some ((Bitfield.zeros (Bitfield.sizeFor (numPieces info))).setAll (good.map VerifyRead.index),
    good.length)

def verifyPieces (sha1 : Bytes → Bytes) (cwd : List Bytes) (disk : Files) (path : Bytes)
    (info : Info) : Files × Option (Bitfield × Nat) :=
  let nothing := (Bitfield.zeros (Bitfield.sizeFor (numPieces info)), 0)
  if isMultiFile info then
    match newMultiFileWriter cwd disk path info with
    | (disk, none) => (disk, some nothing)
    | (disk, some entries) => (disk, checkPieces sha1 (readAt cwd disk) (.files entries) info)
  else if disk.stat (resolve cwd path) then
    (disk, checkPieces sha1 (readAt cwd disk) (.file path) info)
  else (disk, some nothing)

/-- Piece `i` is on the disk: its bytes, with the hash of the torrent. -/
def PieceOk (sha1 : Bytes → Bytes) (read : Bytes → Option Bytes) (target : Target) (info : Info)
    (i : Nat) : Prop :=
  ∃ block : Bytes, (block.length : Int) = pieceLengthAt info (totalSize info) i ∧
    BytesAre read target (pieceOffset info i) block ∧ info.pieceHashes[i]? = some (sha1 block)

/-- The disk holds all bytes of piece `i`, whatever they are. -/
def PieceHeld (read : Bytes → Option Bytes) (target : Target) (info : Info) (i : Nat) : Prop :=
  Held read target (pieceOffset info i) (pieceLengthAt info (totalSize info) i).toNat

/-- Making directories leaves the files alone. -/
theorem readAt_addEntries (cwd : List Bytes) (baseDir : Bytes) (fs : List File) (base : Int)
    (disk : Files) : readAt cwd (addEntries cwd baseDir fs base disk).1 = readAt cwd disk := by
  induction fs generalizing base disk with
  | nil => rfl
  | cons f fs ih =>
    unfold addEntries
    simp only
    split_ifs
    · split
      · rfl
      · next disk₁ hdir =>
        rw [ih]
        unfold readAt
        rw [Disk.read_mkdirAll hdir]
    · rfl

theorem readAt_newMultiFileWriter (cwd : List Bytes) (disk : Files) (baseDir : Bytes)
    (info : Info) :
    readAt cwd (newMultiFileWriter cwd disk baseDir info).1 = readAt cwd disk := by
  unfold newMultiFileWriter
  split
  · rfl
  · next disk₁ hdir =>
    rw [readAt_addEntries]
    unfold readAt
    rw [Disk.read_mkdirAll hdir]

theorem mem_verifyReads {info : Info} {r : VerifyRead} :
    r ∈ verifyReads info ↔ info.pieceHashes[r.index]? = some r.hash ∧
      r.offset = pieceOffset info r.index ∧
      r.length = pieceLengthAt info (totalSize info) r.index := by
  unfold verifyReads
  rw [List.mem_mapIdx]
  constructor
  · intro ⟨i, hi, heq⟩
    rw [← heq]
    exact ⟨List.getElem?_eq_getElem hi, rfl, rfl⟩
  · intro ⟨hhash, hoff, hlen⟩
    obtain ⟨hi, hget⟩ := List.getElem?_eq_some_iff.mp hhash
    refine ⟨r.index, hi, ?_⟩
    rw [hget, ← hoff, ← hlen]

section Check

variable {sha1 : Bytes → Bytes} {read : Bytes → Option Bytes} {target : Target} {info : Info}

/-- A piece passes the check of `VerifyPieces`. -/
def Checks (sha1 : Bytes → Bytes) (read : Bytes → Option Bytes) (target : Target) (info : Info)
    (i : Nat) : Prop :=
  ∃ r ∈ verifyReads info, r.index = i ∧ verifies sha1 read target r = true

theorem sizeFor_bound {n i : Nat} (h : i < n) : i / 8 < Bitfield.sizeFor n := by
  unfold Bitfield.sizeFor
  omega

theorem checkPieces_bit {bf : Bitfield} {n : Nat}
    (h : checkPieces sha1 read target info = some (bf, n)) (i : Nat) :
    bf.hasPiece i = true ↔ Checks sha1 read target info i := by
  unfold checkPieces at h
  simp only [Option.ite_none_left_eq_some, Option.some_inj, Prod.mk.injEq] at h
  rw [← h.2.1, Bitfield.hasPiece_setAll, Bitfield.hasPiece_zeros, Bool.false_or, Bool.and_eq_true,
    decide_eq_true_eq, decide_eq_true_eq, Bitfield.zeros_byteLength]
  constructor
  · intro ⟨hmem, _⟩
    obtain ⟨r, hr, hindex⟩ := List.mem_map.mp hmem
    obtain ⟨hread, hver⟩ := List.mem_filter.mp hr
    exact ⟨r, hread, hindex, hver⟩
  · intro ⟨r, hread, hindex, hver⟩
    refine ⟨List.mem_map.mpr ⟨r, List.mem_filter.mpr ⟨hread, hver⟩, hindex⟩, ?_⟩
    have hhash := (mem_verifyReads.mp hread).1
    exact sizeFor_bound (hindex ▸ (List.getElem?_eq_some_iff.mp hhash).1)

theorem checkPieces_nonneg {bf : Bitfield} {n : Nat}
    (h : checkPieces sha1 read target info = some (bf, n)) :
    ∀ r ∈ verifyReads info, 0 ≤ r.length := by
  unfold checkPieces at h
  simp only [Option.ite_none_left_eq_some, List.any_eq_true, decide_eq_true_eq, not_exists,
    not_and, Int.not_lt] at h
  exact h.1

/-- A checked piece is on the disk exactly when the disk holds all of it. -/
theorem pieceOk_iff_held (hsound : target.Sound) (hnonneg : ∀ r ∈ verifyReads info, 0 ≤ r.length)
    {i : Nat} (h : Checks sha1 read target info i) :
    PieceOk sha1 read target info i ↔ PieceHeld read target info i := by
  obtain ⟨r, hr, rfl, hver⟩ := h
  have hlen := hnonneg r hr
  obtain ⟨hhash, hoff, hlength⟩ := mem_verifyReads.mp hr
  unfold verifies at hver
  obtain ⟨block, hread, hsha⟩ := (Option.any_eq_true _ _).mp hver
  rw [hoff] at hread
  have hblock := readTarget_length hread
  constructor
  · intro ⟨block', hlen', hbytes, _⟩
    have hheld := bytesAre_held hbytes
    rw [show block'.length = (pieceLengthAt info (totalSize info) r.index).toNat by omega] at hheld
    exact hheld
  · intro hheld
    unfold PieceHeld at hheld
    rw [← hlength] at hheld
    refine ⟨block, by omega, bytesAre_of_readTarget hsound hread hheld, ?_⟩
    rw [hhash, eq_of_beq hsha]

end Check

end Stor.Storage
