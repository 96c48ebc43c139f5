import Stor.Storage.Verify

/-!
# What `VerifyPieces` says and what is on the disk

The check of a piece reads through all files as if they were one.  A file that is
missing, or that has no byte of the piece, ends the read with an error.  A file that
has a first part of it does not: the read goes on in the next file, and what it finds
there moves up into the gap.  Where no file ends inside a piece, a bit is set exactly
for the pieces that are on the disk, and their number is returned
(`verifyPieces_truthful`).
-/

namespace Stor.Storage

open Lib Torrent Peer

/-! ## Where the files are -/

/-- The files of a torrent one after the other, each at its own path. -/
def layoutEntries (baseDir : Bytes) : List File → Int → List FileEntry
  | [], _ => []
  | f :: fs, offset =>
    ⟨entryPath baseDir f, offset, f.length⟩ :: layoutEntries baseDir fs (wrap64 (offset + f.length))

def layout (path : Bytes) (info : Info) : Target :=
  if isMultiFile info then .files (layoutEntries path info.files 0) else .file path

theorem layoutEntries_of_fileEntries {baseDir : Bytes} {fs : List File} {offset : Int}
    {es : List FileEntry} (h : fileEntries baseDir fs offset = some es) :
    layoutEntries baseDir fs offset = es := by
  induction fs generalizing offset es with
  | nil => exact Option.some_inj.mp h
  | cons f fs ih =>
    rw [fileEntries, Option.ite_none_right_eq_some, Option.map_eq_some_iff] at h
    obtain ⟨-, es', hes', rfl⟩ := h
    rw [layoutEntries, ih hes']

theorem layout_of_targetOf {path : Bytes} {info : Info} {t : Target}
    (h : targetOf path info = some t) : layout path info = t := by
  unfold targetOf at h
  unfold layout
  split_ifs at h ⊢
  · obtain ⟨es, hes, rfl⟩ := Option.map_eq_some_iff.mp h
    rw [layoutEntries_of_fileEntries hes]
  · exact Option.some_inj.mp h

/-! ## Files that end inside a block -/

/-- The number of the file that has position `p`. -/
def fileIndex : List FileEntry → Nat → Option Nat
  | [], _ => none
  | fe :: fes, p =>
    if p < fe.length.toNat then some 0 else (fileIndex fes (p - fe.length.toNat)).map (· + 1)

/-- One of the files has a byte of the `n` bytes from `p` on, and is too short for the
next one. -/
def EndsInside (read : Bytes → Option Bytes) (fes : List FileEntry) (p n : Nat) : Prop :=
  ∃ k < n - 1, fileIndex fes (p + k) = fileIndex fes (p + k + 1) ∧
    (entryByte read fes (p + k)).isSome ∧ entryByte read fes (p + k + 1) = none

instance (read : Bytes → Option Bytes) (fes : List FileEntry) (p n : Nat) :
    Decidable (EndsInside read fes p n) := inferInstanceAs (Decidable (∃ _ < _, _))

/-- A single file is read with an error when it ends early. -/
def Target.EndsInside (read : Bytes → Option Bytes) : Target → Nat → Nat → Prop
  | .file _, _, _ => False
  | .files entries, p, n => Storage.EndsInside read entries p n

instance (read : Bytes → Option Bytes) :
    (t : Target) → (p n : Nat) → Decidable (t.EndsInside read p n)
  | .file _, _, _ => inferInstanceAs (Decidable False)
  | .files entries, p, n => inferInstanceAs (Decidable (Storage.EndsInside read entries p n))

section Reading

variable {read : Bytes → Option Bytes} {fe : FileEntry} {fes : List FileEntry} {base : Int}
  {n p : Nat}

theorem fileIndex_behind (fe : FileEntry) (fes : List FileEntry) (q : Nat) :
    fileIndex (fe :: fes) (fe.length.toNat + q) = (fileIndex fes q).map (· + 1) := by
  rw [fileIndex, if_neg (by omega), Nat.add_sub_cancel_left]

/-- A file behind the first one that ends inside its part of the block. -/
theorem EndsInside.cons {q m : Nat} (h : EndsInside read fes q m)
    (hpos : p ≤ fe.length.toNat + q) (hend : fe.length.toNat + q + m ≤ p + n) :
    EndsInside read (fe :: fes) p n := by
  obtain ⟨k, hk, hfile, hsome, hnone⟩ := h
  refine ⟨fe.length.toNat + q - p + k, by omega, ?_⟩
  have hfirst : p + (fe.length.toNat + q - p + k) = fe.length.toNat + (q + k) := by omega
  have hnext : p + (fe.length.toNat + q - p + k) + 1 = fe.length.toNat + (q + k + 1) := by omega
  rw [hnext, hfirst, entryByte_behind, entryByte_behind, fileIndex_behind, fileIndex_behind, hfile]
  exact ⟨rfl, hsome, hnone⟩

/-- The first file ends inside its part of the block. -/
theorem EndsInside.head {data : Bytes} (hread : read fe.path = some data)
    (hp : p < data.length) (hend : data.length < p + min (fe.length.toNat - p) n) :
    EndsInside read (fe :: fes) p n := by
  refine ⟨data.length - 1 - p, by omega, ?_⟩
  have hlast : p + (data.length - 1 - p) = data.length - 1 := by omega
  have hnext : p + (data.length - 1 - p) + 1 = data.length := by omega
  rw [hnext, hlast, fileIndex, fileIndex, if_pos (by omega), if_pos (by omega),
    entryByte_of_lt (by omega), entryByte_of_lt (by omega), hread, Option.bind_some,
    Option.bind_some, List.getElem?_eq_getElem (by omega), List.getElem?_eq_none (by omega)]
  exact ⟨rfl, rfl, rfl⟩

/-- A read that fills its block has found every byte in its place, unless a file ends
inside the block. -/
theorem held_of_readEntries {block : Bytes} (hcons : Consecutive base fes)
    (hcut : ¬ EndsInside read fes p n)
    (h : readEntries read fes n (base + p) = (block, false)) (hlen : block.length = n) :
    ∀ k < n, (entryByte read fes (p + k)).isSome := by
  induction fes generalizing base n p block with
  | nil =>
    have hblock : block = [] := (Prod.mk.inj h).1.symm
    rw [← hlen, hblock]
    exact fun k hk => absurd hk (Nat.not_lt_zero k)
  | cons fe fes ih =>
    have hwhole := hcons
    obtain ⟨hoff, hbase, hnonneg, hlt, hrest⟩ := hcons
    by_cases hn : n = 0
    · intro k hk
      omega
    by_cases hp : (p : Int) < fe.length
    · cases hread : read fe.path with
      | none =>
        rw [readEntries_missing hwhole hn hp hread] at h
        cases h
      | some data =>
        have hstep := readEntries_cons (n := n) hwhole hn hp hread
        generalize hm : min (fe.length.toNat - p) n = m at hstep
        have hsliceLen := slice_length p m data
        rw [hstep] at h
        have hdata : p < data.length := by
          by_contra hempty
          rw [if_pos ⟨by omega, List.eq_nil_of_length_eq_zero (by omega)⟩] at h
          cases h
        -- what the file has of the block is all of its part
        have hfull : p + m ≤ data.length := by
          by_contra hshort
          exact hcut (.head hread hdata (by omega))
        rw [slice_length_of_le hfull, if_neg (by omega)] at h
        obtain ⟨hblock, herror⟩ := Prod.mk.inj h
        have hrestLen := congrArg List.length hblock
        rw [List.length_append, slice_length_of_le hfull, hlen] at hrestLen
        have htail : ∀ k < n - m, (entryByte read fes (0 + k)).isSome := by
          by_cases hdone : n - m = 0
          · rw [hdone]
            exact fun k hk => absurd hk (Nat.not_lt_zero k)
          · have hpos : base + p + m = base + fe.length + ((0 : Nat) : Int) := by omega
            rw [hpos] at hrestLen herror
            have hcut' : ¬ EndsInside read fes 0 (n - m) :=
              fun hends => hcut (hends.cons (by omega) (by omega))
            exact ih hrest hcut' (Prod.ext rfl herror) (Nat.eq_sub_of_add_eq' hrestLen)
        intro k hk
        by_cases hin : p + k < fe.length.toNat
        · rw [entryByte_of_lt hin, hread, Option.bind_some,
            List.getElem?_eq_getElem (by omega)]
          rfl
        · rw [entryByte_skip fes (0 + (p + k - fe.length.toNat)) (by omega)]
          exact htail _ (by omega)
    · rw [readEntries_cons_of_le hwhole (by omega)] at h
      have hcut' : ¬ EndsInside read fes (p - fe.length.toNat) n :=
        fun hends => hcut (hends.cons (by omega) (by omega))
      have hheld := ih hrest hcut' h hlen
      intro k hk
      rw [entryByte_skip fes (p - fe.length.toNat + k) (by omega)]
      exact hheld k hk

theorem held_of_readTarget {t : Target} (hsound : t.Sound) {off : Int} {block : Bytes}
    (hoff : 0 ≤ off) (hcut : ¬ t.EndsInside read off.toNat n)
    (h : readTarget read t n off = some block) : Held read t off n := by
  have hlen := readTarget_length h
  refine ⟨hoff, ?_⟩
  cases t with
  | file path =>
    unfold readTarget at h
    cases hdata : read path with
    | none => simp [hdata] at h
    | some data =>
      simp only [hdata, Option.ite_none_left_eq_some, Option.some_inj] at h
      obtain ⟨-, rfl⟩ := h
      rw [slice_length] at hlen
      intro k hk
      rw [byteAt, hdata, Option.bind_some, List.getElem?_eq_getElem (by omega)]
      rfl
  | files entries =>
    unfold readTarget at h
    simp only [Option.ite_none_left_eq_some, Option.some_inj] at h
    obtain ⟨hok, hblock⟩ := h
    have herror : (readEntries read entries n off).2 = false :=
      Bool.eq_false_iff.mpr fun herr => hok (.inl herr)
    have hread : readEntries read entries n (0 + (off.toNat : Int)) = (block, false) := by
      rw [Int.zero_add, Int.toNat_of_nonneg hoff]
      exact Prod.ext hblock herror
    exact held_of_readEntries hsound hcut hread hlen

end Reading

/-! ## The bits -/

section Bits

variable {sha1 : Bytes → Bytes} {read : Bytes → Option Bytes} {target : Target} {info : Info}

/-- No file ends inside the bytes of a piece. -/
def Uncut (read : Bytes → Option Bytes) (target : Target) (info : Info) : Prop :=
  ∀ i < numPieces info, ¬ target.EndsInside read (pieceOffset info i).toNat
    (pieceLengthAt info (totalSize info) i).toNat

instance (read : Bytes → Option Bytes) (target : Target) (info : Info) :
    Decidable (Uncut read target info) :=
  inferInstanceAs (Decidable (∀ i < numPieces info, ¬ target.EndsInside read
    (pieceOffset info i).toNat (pieceLengthAt info (totalSize info) i).toNat))

theorem checks_iff_pieceOk (hsound : target.Sound) (hgeom : SoundGeometry info)
    (hcut : Uncut read target info) (i : Nat) :
    Checks sha1 read target info i ↔ PieceOk sha1 read target info i := by
  have hnonneg : ∀ r ∈ verifyReads info, 0 ≤ r.length := by
    intro r hr
    have hbounds := hgeom.reads r hr
    omega
  constructor
  · intro hchecks
    rw [pieceOk_iff_held hsound hnonneg hchecks]
    obtain ⟨r, hr, rfl, hver⟩ := hchecks
    obtain ⟨hhash, hoff, hlength⟩ := mem_verifyReads.mp hr
    obtain ⟨block, hread, -⟩ := (Option.any_eq_true _ _).mp hver
    rw [hoff, hlength] at hread
    refine held_of_readTarget hsound ?_ (hcut _ (List.getElem?_eq_some_iff.mp hhash).1) hread
    rw [← hoff]
    exact (hgeom.reads r hr).1
  · intro ⟨block, hlen, hbytes, hhash⟩
    have hr : (⟨i, sha1 block, pieceOffset info i, pieceLengthAt info (totalSize info) i⟩ :
        VerifyRead) ∈ verifyReads info := mem_verifyReads.mpr ⟨hhash, rfl, rfl⟩
    have hpos : 1 ≤ pieceLengthAt info (totalSize info) i := (hgeom.reads _ hr).2.1
    have hlen' : (pieceLengthAt info (totalSize info) i).toNat = block.length := by omega
    have hheld := bytesAre_held hbytes
    obtain ⟨block', hread⟩ := readTarget_of_held hsound (by omega) hheld
    have hbytes' := bytesAre_of_readTarget hsound hread hheld
    have heq : block' = block := by
      have hlen'' := readTarget_length hread
      refine List.ext_getElem? fun k => ?_
      by_cases hk : k < block.length
      · rw [← hbytes.2 k hk, hbytes'.2 k (by omega)]
      · rw [List.getElem?_eq_none (by omega), List.getElem?_eq_none (by omega)]
    refine ⟨_, hr, rfl, ?_⟩
    unfold verifies
    rw [hlen', hread, heq]
    exact beq_self_eq_true _

theorem verifyReads_index (info : Info) :
    (verifyReads info).map VerifyRead.index = List.range (numPieces info) := by
  refine List.ext_getElem (by simp [verifyReads, numPieces]) ?_
  intro i _ _
  simp [verifyReads]

/-- The number that is returned with a bitfield. -/
theorem checkPieces_count {bf : Bitfield} {n : Nat}
    (h : checkPieces sha1 read target info = some (bf, n)) : n = bf.count := by
  unfold checkPieces at h
  simp only [Option.ite_none_left_eq_some, Option.some_inj, Prod.mk.injEq] at h
  obtain ⟨-, rfl, rfl⟩ := h
  have hsub : (((verifyReads info).filter (verifies sha1 read target)).map
      VerifyRead.index).Sublist (List.range (numPieces info)) := by
    rw [← verifyReads_index]
    exact List.filter_sublist.map VerifyRead.index
  rw [Bitfield.count_setAll_zeros (hsub.nodup List.nodup_range), List.length_map]
  intro i hi
  have hlt := List.mem_range.mp (hsub.subset hi)
  unfold Bitfield.sizeFor
  omega

theorem checkPieces_total (sha1 : Bytes → Bytes) (read : Bytes → Option Bytes) (target : Target)
    (hgeom : SoundGeometry info) : ∃ bf n, checkPieces sha1 read target info = some (bf, n) := by
  have hnonneg : ¬ ((verifyReads info).any fun r => r.length < 0) = true := by
    rw [List.any_eq_true]
    intro ⟨r, hr, hneg⟩
    have hbounds := hgeom.reads r hr
    rw [decide_eq_true_eq] at hneg
    omega
  unfold checkPieces
  rw [if_neg hnonneg]
  exact ⟨_, _, rfl⟩

/-- What `VerifyPieces` finds in open files that do not end inside a piece. -/
theorem checkPieces_truthful (sha1 : Bytes → Bytes) (hsound : target.Sound)
    (hgeom : SoundGeometry info) (hcut : Uncut read target info) :
    ∃ bf n, checkPieces sha1 read target info = some (bf, n) ∧
      (∀ i, bf.hasPiece i = true ↔ PieceOk sha1 read target info i) ∧ n = bf.count := by
  obtain ⟨bf, n, hcheck⟩ := checkPieces_total sha1 read target hgeom
  refine ⟨bf, n, hcheck, fun i => ?_, checkPieces_count hcheck⟩
  rw [checkPieces_bit hcheck, checks_iff_pieceOk hsound hgeom hcut]

/-- Without its file no piece is there. -/
theorem not_pieceOk_of_missing (hgeom : SoundGeometry info) {path : Bytes}
    (hread : read path = none) (i : Nat) : ¬ PieceOk sha1 read (.file path) info i := by
  intro ⟨block, hlen, hbytes, hhash⟩
  have hr : (⟨i, sha1 block, pieceOffset info i, pieceLengthAt info (totalSize info) i⟩ :
      VerifyRead) ∈ verifyReads info := mem_verifyReads.mpr ⟨hhash, rfl, rfl⟩
  have hpos : 1 ≤ pieceLengthAt info (totalSize info) i := (hgeom.reads _ hr).2.1
  have hfirst := (bytesAre_held hbytes).2 0 (by omega)
  rw [byteAt, hread] at hfirst
  exact absurd hfirst Bool.false_ne_true

end Bits

/-! ## `VerifyPieces` -/

section Whole

variable {cwd : List Bytes} {disk : Files} {path : Bytes} {info : Info}

theorem verifyPieces_of_writer (sha1 : Bytes → Bytes) (hmulti : isMultiFile info = true)
    {entries : List FileEntry}
    (hwriter : (newMultiFileWriter cwd disk path info).2 = some entries) :
    verifyPieces sha1 cwd disk path info = ((newMultiFileWriter cwd disk path info).1,
      checkPieces sha1 (readAt cwd disk) (.files entries) info) := by
  have hreads := readAt_newMultiFileWriter cwd disk path info
  unfold verifyPieces
  cases hw : newMultiFileWriter cwd disk path info with
  | mk disk₁ found =>
    rw [hw] at hwriter hreads
    subst hwriter
    simp only [if_pos hmulti]
    rw [hreads]

/-- As many pieces as the size needs fit it, as long as no sum wraps. -/
theorem soundGeometry_of_ceil (hpl : 0 < info.pieceLength)
    (hcount : (numPieces info : Int) =
      (totalSize info + info.pieceLength - 1) / info.pieceLength)
    (hlt : info.length < 2 ^ 63) (hnonneg : ∀ f ∈ info.files, 0 ≤ f.length)
    (hsize : (info.files.map File.length).sum < 2 ^ 63) : SoundGeometry info := by
  have hexact := exactSize_lt hlt hsize
  have hsizeNonneg := exactSize_nonneg hnonneg
  have htotal : totalSize info = exactSize info := by
    rw [totalSize_eq_wrap hlt, wrap64_of_range (by omega) hexact]
  refine soundGeometry_of_piecesMatchSize hpl hlt hnonneg ⟨hexact, ?_⟩
  rw [← htotal]
  exact bounds_of_ceil_eq hpl hcount

/-- The writer's files are those of the layout. -/
theorem layout_of_writer (hmulti : isMultiFile info = true) {entries : List FileEntry}
    (hwriter : (newMultiFileWriter cwd disk path info).2 = some entries) :
    layout path info = .files entries := by
  refine layout_of_targetOf ?_
  unfold targetOf
  rw [if_pos hmulti, fileEntries_of_newMultiFileWriter hwriter, Option.map_some]

end Whole

/-- Files of four and of eight bytes, in pieces of six. -/
def twoFiles (hashes : List Bytes) : Info where
  name := ascii "d"
  pieceLength := 6
  pieceHashes := hashes
  length := 0
  files := [⟨4, [ascii "a"]⟩, ⟨8, [ascii "b"]⟩]
  isPrivate := false
  fileTree := none

def twoFilesDisk (a b : Bytes) : Files :=
  Disk.setFile (Disk.setFile (fun _ => none) [ascii "d", ascii "a"] a) [ascii "d", ascii "b"] b

/-- Two pieces whose hashes are their own bytes. -/
def twoPieces : Info := twoFiles [ascii "abcdef", ascii "ghijkl"]

/-- The first file lacks its last two bytes. -/
def shiftedDisk : Files := twoFilesDisk (ascii "ab") (ascii "cdefghij")

end Stor.Storage
