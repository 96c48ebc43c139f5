import Stor.Lib.Path
import Stor.Storage.Geometry

/-!
# Torrent records, names and skipped pieces

The record of `engine/store.go` as far as the life of a session reads or writes
it, `sanitizeTorrentName` of `engine/sanitize.go`, and the skip mask of
`engine/skip_mask.go`.  A name that passes the check is local: joined to a
directory it stays below it (`below_of_sanitize`).
-/

namespace Stor.Engine

open Lib Torrent Peer Storage

inductive TorrentState where
  | adding
  | metadata
  | verifying
  | downloading
  | seeding
  | complete
  | paused
  | error
  deriving DecidableEq, Repr

structure Record where
  name : Bytes
  source : Bytes
  savePath : Bytes
  state : TorrentState
  torrentData : Bytes
  bitfield : Bytes
  filePriorities : List Int
  deriving DecidableEq, Repr

/-! ## Names -/

inductive NameError where
  | empty
  | nullByte
  | absolute
  | driveLetter
  | traversal
  deriving DecidableEq, Repr

def backslash : UInt8 := 92

/-- `strings.ReplaceAll(name, "\\", "/")`. -/
def normalizeSeparators (name : Bytes) : Bytes := name.map fun b => if b = backslash then slash else b

def sanitizeTorrentName (name : Bytes) : Except NameError Unit :=
  if name = [] then .error .empty
  else if 0 ∈ name then .error .nullByte
  else if isAbs name then .error .absolute
  else if name[1]? = some 58 then .error .driveLetter
  else if ((normalizeSeparators name).splitOn slash).any fun part => part == dotdot || part == dot then
    .error .traversal
  else .ok ()

/-- A part without a backslash is a part behind the normalisation as well. -/
theorem mem_splitOn_normalizeSeparators {name part : Bytes} (h : part ∈ name.splitOn slash)
    (hpart : backslash ∉ part) : part ∈ (normalizeSeparators name).splitOn slash := by
  obtain ⟨hslash, pre, post, hpre, hpost, rfl⟩ := mem_splitOn name h
  have hmap : normalizeSeparators part = part := by
    refine (List.map_congr_left fun b hb => ?_).trans (List.map_id part)
    refine if_neg fun heq => hpart ?_
    rw [← heq]
    exact hb
  have happ : normalizeSeparators (pre ++ part ++ post) =
      normalizeSeparators pre ++ part ++ normalizeSeparators post := by
    conv_rhs => rw [← hmap]
    simp only [normalizeSeparators, List.map_append]
  rw [happ]
  refine mem_splitOn_of_between hslash ?_ ?_
  · rcases hpre with rfl | ⟨u, rfl⟩
    · exact .inl rfl
    · exact .inr ⟨normalizeSeparators u, by simp [normalizeSeparators, slash, backslash]⟩
  · rcases hpost with rfl | ⟨v, rfl⟩
    · exact .inl rfl
    · exact .inr ⟨normalizeSeparators v, by simp [normalizeSeparators, slash, backslash]⟩

theorem sanitizeTorrentName_ok {name : Bytes} (h : sanitizeTorrentName name = .ok ()) :
    name ≠ [] ∧ isAbs name = false ∧ ∀ part ∈ name.splitOn slash, part ≠ dotdot ∧ part ≠ dot := by
  unfold sanitizeTorrentName at h
  split_ifs at h with hempty hnull habs hdrive hparts
  refine ⟨hempty, Bool.eq_false_iff.mpr habs, fun part hpart => ?_⟩
  rw [List.any_eq_true, not_exists] at hparts
  have hnot : ∀ bad : Bytes, backslash ∉ bad → (bad == dotdot || bad == dot) = true → part ≠ bad := by
    intro bad hclean hbad heq
    subst heq
    exact hparts part ⟨mem_splitOn_normalizeSeparators hpart hclean, hbad⟩
  exact ⟨hnot dotdot (by decide) (by decide), hnot dot (by decide) (by decide)⟩

/-- The first part of a relative name is not empty. -/
theorem exists_nonempty_part {name : Bytes} (hne : name ≠ []) (habs : isAbs name = false) :
    ∃ part ∈ name.splitOn slash, part ≠ [] := by
  cases name with
  | nil => exact absurd rfl hne
  | cons b rest =>
    have hb : (b == slash) = false := by
      rw [beq_eq_false_iff_ne]
      rintro rfl
      exact absurd habs (by simp [isAbs])
    rw [List.splitOn_cons_eq_if_modifyHead, if_neg (by rw [hb]; exact Bool.false_ne_true)]
    obtain ⟨c, cs, hcs⟩ := List.exists_cons_of_ne_nil (List.splitOn_ne_nil slash rest)
    rw [hcs]
    exact ⟨b :: c, List.mem_cons_self, List.cons_ne_nil _ _⟩

/-- Without `.` and `..` the stack keeps every part that is not empty. -/
theorem foldl_pushComp_filter {cs : List Bytes} (h : ∀ c ∈ cs, c ≠ dotdot ∧ c ≠ dot) (rooted : Bool)
    (stack : List Bytes) :
    cs.foldl (pushComp rooted) stack = (cs.filter fun c => c ≠ []).reverse ++ stack := by
  induction cs generalizing stack with
  | nil => rfl
  | cons c cs ih =>
    have hc := h c List.mem_cons_self
    have hcs := fun d hd => h d (List.mem_cons_of_mem c hd)
    rw [List.foldl_cons, ih hcs]
    by_cases hnil : c = []
    · subst hnil
      rw [pushComp_nil]
      rfl
    · rw [pushComp_plain ⟨hnil, hc.2, hc.1⟩, List.filter_cons_of_pos (by simpa using hnil),
        List.reverse_cons, List.append_assoc]
      rfl

theorem localName_of_sanitize {name : Bytes} (h : sanitizeTorrentName name = .ok ()) :
    LocalName name := by
  obtain ⟨hne, habs, hparts⟩ := sanitizeTorrentName_ok h
  have hnorm : cleanComps false (name.splitOn slash) =
      (name.splitOn slash).filter fun c => c ≠ [] := by
    rw [cleanComps, foldl_pushComp_filter hparts, List.append_nil, List.reverse_reverse]
  unfold LocalName
  rw [hnorm]
  constructor
  · obtain ⟨part, hmem, hpart⟩ := exists_nonempty_part hne habs
    exact List.ne_nil_of_mem (List.mem_filter.mpr ⟨hmem, by simpa using hpart⟩)
  · intro hmem
    exact (hparts dotdot (List.mem_filter.mp hmem).1).1 rfl

theorem below_of_sanitize (dir : Bytes) {name : Bytes} (h : sanitizeTorrentName name = .ok ()) :
    Below dir (joinPath [dir, name]) :=
  below_joinPath (localName_of_sanitize h) fun _ => (sanitizeTorrentName_ok h).2.1

/-! ## Skipped pieces -/

def prioritySkip : Int := -1

structure FileRange where
  start : Int
  stop : Int
  skip : Bool
  deriving DecidableEq, Repr

/-- The byte range of each file, with its priority; a missing one is normal. -/
def fileRanges : List File → List Int → Int → List FileRange
  | [], _, _ => []
  | f :: fs, priorities, offset =>
    ⟨offset, wrap64 (offset + f.length), priorities.head? == some prioritySkip⟩ ::
      fileRanges fs priorities.tail (wrap64 (offset + f.length))

/-- A piece with bytes, all of them in skipped files. -/
def skippedPiece (ranges : List FileRange) (pieceLength totalBytes : Int) (i : Nat) : Bool :=
  let pieceStart := wrap64 (i * pieceLength)
  let pieceEnd := min (wrap64 (pieceStart + pieceLength)) totalBytes
  let overlapping := ranges.filter fun r => !(r.stop ≤ pieceStart || r.start ≥ pieceEnd)
  pieceStart < pieceEnd && !overlapping.isEmpty && overlapping.all FileRange.skip

def computeSkippedPieceMask (files : List File) (priorities : List Int)
    (pieceLength totalBytes : Int) (numPieces : Nat) : Option Bitfield :=
  if numPieces = 0 ∨ pieceLength ≤ 0 ∨ files = [] then none
  else
    some ((Bitfield.zeros (Bitfield.sizeFor numPieces)).setAll
      ((List.range numPieces).filter
        (skippedPiece (fileRanges files priorities 0) pieceLength totalBytes)))

def computeSkipMaskFromRecord (info : Info) (priorities : List Int) : Option Bitfield :=
  if priorities.all fun p => p != prioritySkip then none
  else
    let files := if info.files = [] then [⟨info.length, [info.name]⟩] else info.files
    computeSkippedPieceMask files priorities info.pieceLength (totalSize info) (numPieces info)

end Stor.Engine
