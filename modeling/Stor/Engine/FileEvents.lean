import Stor.Engine.FileProgress

/-!
# Events for files that are complete

`computeFileRanges`, `collectNewlyCompletedFiles` and the `OnPiece` of `phaseDownload`: which
files get a `FileCompleted` event, and when.  The files that have had theirs are remembered in
`completedFiles`, which starts with the files that the resumed bitfield has.  From then on a
file is remembered exactly when all of its pieces are there (`Settled`), so that its event comes
with its last piece.

A torrent may have fewer pieces than its size needs.  A file behind the last piece has an empty
range of pieces, and nothing is missing from it.
-/

namespace Stor.Engine

open Lib Bencode Torrent Peer Storage

structure FileRangeEntry where
  index : Nat
  path : Bytes
  size : Int
  firstPiece : Int
  lastPiece : Int
  deriving DecidableEq, Repr

/-- The first and the last piece of a file; an empty file has one piece. -/
def rangeFor (pieceLen : Int) (numPieces : Nat) (start length : Int) : Int × Int :=
  let first := start.tdiv pieceLen
  if length ≤ 0 then
    let first := if first ≥ numPieces then (numPieces : Int) - 1 else first
    (first, first)
  else
    let last := (wrap64 (start + length - 1)).tdiv pieceLen
    (first, if last ≥ numPieces then (numPieces : Int) - 1 else last)

def rangeEntry (pieceLen : Int) (numPieces index : Nat) (path : Bytes) (start length : Int) :
    FileRangeEntry :=
  ⟨index, path, length, (rangeFor pieceLen numPieces start length).1,
    (rangeFor pieceLen numPieces start length).2⟩

/-- The loop of `computeFileRanges` from file `i` on. -/
def rangeLoop (pieceLen : Int) (numPieces : Nat) : Nat → List File → Int → List FileRangeEntry
  | _, [], _ => []
  | i, f :: fs, offset =>
    rangeEntry pieceLen numPieces i (joinPath f.path) offset f.length ::
      rangeLoop pieceLen numPieces (i + 1) fs (wrap64 (offset + f.length))

def computeFileRanges (info : Info) : List FileRangeEntry :=
  if info.pieceLength ≤ 0 ∨ numPieces info = 0 then []
  else if info.files = [] then
    [rangeEntry info.pieceLength (numPieces info) 0 info.name 0 info.length]
  else rangeLoop info.pieceLength (numPieces info) 0 info.files 0

/-- All pieces of the file are there. -/
def covered (bf : Bitfield) (fr : FileRangeEntry) : Bool :=
  (List.range (fr.lastPiece + 1 - fr.firstPiece).toNat).all
    fun k : Nat => hasPieceAt bf (fr.firstPiece + (k : Int))

/-- The loop of `collectNewlyCompletedFiles`. -/
def collectLoop (bf : Bitfield) :
    List FileRangeEntry → List Nat → List Nat × List FileRangeEntry
  | [], completedFiles => (completedFiles, [])
  | fr :: ranges, completedFiles =>
    if completedFiles.contains fr.index then collectLoop bf ranges completedFiles
    else if covered bf fr then
      let rest := collectLoop bf ranges (fr.index :: completedFiles)
      (rest.1, fr :: rest.2)
    else collectLoop bf ranges completedFiles

def collectNewlyCompletedFiles (completedFiles : List Nat) (ranges : List FileRangeEntry)
    (bf : Bitfield) : List Nat × List FileRangeEntry :=
  if ranges = [] ∨ bf.byteLength = 0 then (completedFiles, [])
  else collectLoop bf ranges completedFiles

/-- What `phaseDownload` keeps for the events. -/
structure Completion where
  uploadBF : Bitfield
  completedFiles : List Nat
  deriving DecidableEq

/-- The start of `phaseDownload`, with the bitfield it resumes from, if any. -/
def startCompletion (info : Info) (haveBitfield : Option Bitfield) : Completion :=
  match haveBitfield with
  | none => ⟨.zeros (Bitfield.sizeFor (numPieces info)), []⟩
  | some bf =>
    ⟨⟨resize (Bitfield.sizeFor (numPieces info)) bf.bytes⟩,
      ((computeFileRanges info).filter (covered bf)).map FileRangeEntry.index⟩

inductive DownloadEvent where
  | pieceComplete (index count total : Nat)
  | fileCompleted (index : Nat) (path : Bytes) (size : Int)
  deriving DecidableEq, Repr

/-- `OnPiece`, and what it publishes. -/
def onPiece (info : Info) (s : Completion) (index : Nat) : Completion × List DownloadEvent :=
  let uploadBF := s.uploadBF.setPiece index
  let collected := collectNewlyCompletedFiles s.completedFiles (computeFileRanges info) uploadBF
  (⟨uploadBF, collected.1⟩,
    .pieceComplete index uploadBF.count (numPieces info) ::
      collected.2.map fun fr => .fileCompleted fr.index fr.path fr.size)

/-- What is published with each of the pieces. -/
def publish (info : Info) : Completion → List Nat → List (List DownloadEvent)
  | _, [] => []
  | s, i :: is => (onPiece info s i).2 :: publish info (onPiece info s i).1 is

/-- The files of the `FileCompleted` events. -/
def filesCompleted (events : List DownloadEvent) : List Nat :=
  events.filterMap fun
    | .pieceComplete _ _ _ => none
    | .fileCompleted index _ _ => some index

/-- A copy into a bitfield of the right size keeps the bits of all pieces, whatever the size
of the first one is. -/
theorem hasPiece_resize {n i : Nat} (hi : i < n) (bf : Bitfield) :
    (⟨resize (Bitfield.sizeFor n) bf.bytes⟩ : Bitfield).hasPiece i = bf.hasPiece i := by
  have hbyte : i / 8 < Bitfield.sizeFor n := by
    rw [Bitfield.sizeFor]
    omega
  unfold Bitfield.hasPiece
  rw [resize_getElem?, if_pos hbyte]
  cases bf.bytes[i / 8]? with
  | none => exact Nat.zero_testBit _
  | some b => rfl

/-! ## One piece -/

section Step

variable {info : Info} {s : Completion} {bf : Bitfield} {ranges : List FileRangeEntry}

/-- The file is complete and has had no event. -/
def due (completedFiles : List Nat) (bf : Bitfield) (fr : FileRangeEntry) : Bool :=
  !completedFiles.contains fr.index && covered bf fr

theorem due_eq_true {completed : List Nat} {fr : FileRangeEntry} :
    due completed bf fr = true ↔ fr.index ∉ completed ∧ covered bf fr = true := by
  rw [due, Bool.and_eq_true, Bool.not_eq_true', ← Bool.not_eq_true, List.contains_iff_mem]

theorem collectLoop_eq (hnodup : (ranges.map FileRangeEntry.index).Nodup) (completed : List Nat) :
    (collectLoop bf ranges completed).2 = ranges.filter (due completed bf) ∧
      ∀ j, j ∈ (collectLoop bf ranges completed).1 ↔
        j ∈ completed ∨ j ∈ (collectLoop bf ranges completed).2.map FileRangeEntry.index := by
  induction ranges generalizing completed with
  | nil => exact ⟨rfl, fun j => (or_iff_left List.not_mem_nil).symm⟩
  | cons fr ranges ih =>
    rw [List.map_cons, List.nodup_cons] at hnodup
    obtain ⟨hnew, hnodup⟩ := hnodup
    unfold collectLoop
    by_cases hin : completed.contains fr.index = true
    · rw [if_pos hin, List.filter_cons_of_neg fun h =>
        (due_eq_true.mp h).1 (List.contains_iff_mem.mp hin)]
      exact ih hnodup completed
    rw [if_neg hin]
    by_cases hcov : covered bf fr = true
    · obtain ⟨hdone, hmem⟩ := ih hnodup (fr.index :: completed)
      rw [if_pos hcov, List.filter_cons_of_pos
        (due_eq_true.mpr ⟨fun h => hin (List.contains_iff_mem.mpr h), hcov⟩)]
      refine ⟨?_, fun j => ?_⟩
      · -- no other entry has this index
        dsimp only
        rw [hdone]
        refine congrArg _ (List.filter_congr fun fr' hfr' => ?_)
        have hne : fr'.index ≠ fr.index := fun heq => hnew (heq ▸ List.mem_map_of_mem hfr')
        rw [due, due, List.contains_cons, beq_eq_false_iff_ne.mpr hne, Bool.false_or]
      · dsimp only
        rw [hmem, List.mem_cons, List.map_cons, List.mem_cons]
        tauto
    · rw [if_neg hcov, List.filter_cons_of_neg fun h => hcov (due_eq_true.mp h).2]
      exact ih hnodup completed

theorem filesCompleted_onPiece (info : Info) (s : Completion) (i : Nat) :
    filesCompleted (onPiece info s i).2 =
      (collectNewlyCompletedFiles s.completedFiles (computeFileRanges info)
        (s.uploadBF.setPiece i)).2.map FileRangeEntry.index := by
  unfold onPiece filesCompleted
  dsimp only
  rw [List.filterMap_cons_none rfl, List.filterMap_map, ← List.filterMap_eq_map]
  rfl

/-- More pieces cover no fewer files. -/
theorem covered_mono {bf' : Bitfield} {fr : FileRangeEntry}
    (h : ∀ i, bf.hasPiece i = true → bf'.hasPiece i = true) (hcov : covered bf fr = true) :
    covered bf' fr = true := by
  refine List.all_eq_true.mpr fun k hk => ?_
  have hpiece := List.all_eq_true.mp hcov k hk
  rw [hasPieceAt, Bool.and_eq_true] at hpiece ⊢
  exact ⟨hpiece.1, h _ hpiece.2⟩

/-- The files that have had their event are those that are complete. -/
def Settled (info : Info) (s : Completion) : Prop :=
  ∀ fr ∈ computeFileRanges info, fr.index ∈ s.completedFiles ↔ covered s.uploadBF fr = true

theorem mem_filesCompleted (hnodup : ((computeFileRanges info).map FileRangeEntry.index).Nodup)
    (hbytes : s.uploadBF.byteLength ≠ 0) (i j : Nat) :
    j ∈ filesCompleted (onPiece info s i).2 ↔
      ∃ fr ∈ computeFileRanges info, fr.index = j ∧ j ∉ s.completedFiles ∧
        covered (s.uploadBF.setPiece i) fr = true := by
  rw [filesCompleted_onPiece, collectNewlyCompletedFiles]
  by_cases hnone : computeFileRanges info = []
  · rw [if_pos (.inl hnone), hnone]
    simp
  rw [if_neg (by rw [Bitfield.setPiece_byteLength]; tauto), (collectLoop_eq hnodup _).1,
    List.mem_map]
  constructor
  · rintro ⟨fr, hfr, rfl⟩
    obtain ⟨hmem, hdue⟩ := List.mem_filter.mp hfr
    obtain ⟨hnew, hcov⟩ := due_eq_true.mp hdue
    exact ⟨fr, hmem, rfl, hnew, hcov⟩
  · rintro ⟨fr, hmem, rfl, hnew, hcov⟩
    exact ⟨fr, List.mem_filter.mpr ⟨hmem, due_eq_true.mpr ⟨hnew, hcov⟩⟩, rfl⟩

theorem nodup_filesCompleted (hnodup : ((computeFileRanges info).map FileRangeEntry.index).Nodup)
    (s : Completion) (i : Nat) : (filesCompleted (onPiece info s i).2).Nodup := by
  rw [filesCompleted_onPiece, collectNewlyCompletedFiles]
  split_ifs
  · exact List.nodup_nil
  · rw [(collectLoop_eq hnodup _).1]
    exact hnodup.sublist (List.filter_sublist.map _)

theorem mem_completedFiles (hnodup : ((computeFileRanges info).map FileRangeEntry.index).Nodup)
    (s : Completion) (i j : Nat) :
    j ∈ (onPiece info s i).1.completedFiles ↔
      j ∈ s.completedFiles ∨ j ∈ filesCompleted (onPiece info s i).2 := by
  rw [filesCompleted_onPiece]
  show j ∈ (collectNewlyCompletedFiles _ _ _).1 ↔ _
  unfold collectNewlyCompletedFiles
  split_ifs
  · exact (or_iff_left List.not_mem_nil).symm
  · exact (collectLoop_eq hnodup _).2 j

theorem Settled.onPiece (hnodup : ((computeFileRanges info).map FileRangeEntry.index).Nodup)
    (hbytes : s.uploadBF.byteLength ≠ 0) (h : Settled info s) (i : Nat) :
    Settled info (Engine.onPiece info s i).1 := by
  intro fr hfr
  have hmono : covered s.uploadBF fr = true → covered (s.uploadBF.setPiece i) fr = true :=
    covered_mono fun j hj => by rw [Bitfield.hasPiece_setPiece, hj, Bool.true_or]
  rw [mem_completedFiles hnodup, mem_filesCompleted hnodup hbytes]
  show _ ↔ covered (s.uploadBF.setPiece i) fr = true
  constructor
  · rintro (hold | ⟨fr', hfr', hindex, -, hcov⟩)
    · exact hmono ((h fr hfr).mp hold)
    · rwa [List.inj_on_of_nodup_map hnodup hfr' hfr hindex] at hcov
  · intro hcov
    by_cases hold : fr.index ∈ s.completedFiles
    · exact .inl hold
    · exact .inr ⟨fr, hfr, rfl, hold, hcov⟩

end Step

/-! ## All pieces -/

section Run

variable {info : Info} {s : Completion}
  (hnodup : ((computeFileRanges info).map FileRangeEntry.index).Nodup)
  (hbytes : s.uploadBF.byteLength ≠ 0)

include hnodup

/-- No file gets a second event. -/
theorem nodup_publish (s : Completion) (hbytes : s.uploadBF.byteLength ≠ 0) (order : List Nat) :
    ((publish info s order).flatMap filesCompleted).Nodup ∧
      ∀ j ∈ (publish info s order).flatMap filesCompleted, j ∉ s.completedFiles := by
  induction order generalizing s with
  | nil => exact ⟨List.nodup_nil, List.forall_mem_nil _⟩
  | cons i order ih =>
    have hbytes' : (onPiece info s i).1.uploadBF.byteLength ≠ 0 := by
      show (s.uploadBF.setPiece i).byteLength ≠ 0
      rwa [Bitfield.setPiece_byteLength]
    obtain ⟨hrest, hnew⟩ := ih (onPiece info s i).1 hbytes'
    rw [publish, List.flatMap_cons]
    constructor
    · refine List.nodup_append.mpr ⟨nodup_filesCompleted hnodup s i, hrest, ?_⟩
      rintro j hj k hk rfl
      exact hnew j hk ((mem_completedFiles hnodup s i j).mpr (.inr hj))
    · intro j hj
      rcases List.mem_append.mp hj with hj | hj
      · obtain ⟨-, -, -, hfresh, -⟩ := (mem_filesCompleted hnodup hbytes i j).mp hj
        exact hfresh
      · exact fun hold => hnew j hj ((mem_completedFiles hnodup s i j).mpr (.inl hold))

/-- The event of a file comes with the piece that completes it. -/
theorem mem_publish (hbytes : s.uploadBF.byteLength ≠ 0) (h : Settled info s)
    {fr : FileRangeEntry} (hfr : fr ∈ computeFileRanges info) {order : List Nat} {k : Nat}
    {events : List DownloadEvent} (hk : (publish info s order)[k]? = some events) :
    fr.index ∈ filesCompleted events ↔
      covered (s.uploadBF.setAll (order.take (k + 1))) fr = true ∧
        ¬ covered (s.uploadBF.setAll (order.take k)) fr = true := by
  induction order generalizing s k with
  | nil => exact absurd hk (by simp [publish])
  | cons i order ih =>
    rw [publish] at hk
    cases k with
    | zero =>
      rw [List.getElem?_cons_zero, Option.some_inj] at hk
      rw [← hk, mem_filesCompleted hnodup hbytes]
      show _ ↔ covered (s.uploadBF.setPiece i) fr = true ∧ ¬ covered s.uploadBF fr = true
      rw [← h fr hfr]
      constructor
      · rintro ⟨fr', hfr', hindex, hnew, hcov⟩
        rw [List.inj_on_of_nodup_map hnodup hfr' hfr hindex] at hcov
        exact ⟨hcov, hnew⟩
      · rintro ⟨hcov, hnew⟩
        exact ⟨fr, hfr, rfl, hnew, hcov⟩
    | succ k =>
      rw [List.getElem?_cons_succ] at hk
      have hbytes' : (onPiece info s i).1.uploadBF.byteLength ≠ 0 := by
        show (s.uploadBF.setPiece i).byteLength ≠ 0
        rwa [Bitfield.setPiece_byteLength]
      rw [ih hbytes' (h.onPiece hnodup hbytes i) hk]
      rfl

end Run

/-! ## The ranges of the files -/

/-- The files of the torrent, with the single one of a torrent that has no list. -/
def layoutFiles (info : Info) : List File :=
  if info.files = [] then [⟨info.length, [info.name]⟩] else info.files

/-- The entry is for a file of `l` bytes at `o`. -/
structure FileRangeEntry.IsFor (fr : FileRangeEntry) (w n index o : Nat) (l : Int) : Prop where
  index : fr.index = index
  first : fr.firstPiece = (rangeFor w n o l).1
  last : fr.lastPiece = (rangeFor w n o l).2

section Ranges

variable {w n : Nat}

theorem rangeLoop_index (w : Int) (n i : Nat) (fs : List File) (o : Int) :
    (rangeLoop w n i fs o).map FileRangeEntry.index = List.range' i fs.length := by
  induction fs generalizing i o with
  | nil => rfl
  | cons f fs ih =>
    rw [rangeLoop, List.map_cons, ih, List.length_cons, List.range'_succ]
    rfl

theorem rangeLoop_getElem? {fs : List File} {o i k : Nat} {f : File}
    (hnonneg : ∀ f ∈ fs, 0 ≤ f.length) (hsize : o + (fs.map fun f => f.length.toNat).sum < 2 ^ 63)
    (hk : fs[k]? = some f) :
    ∃ fr, (rangeLoop w n i fs o)[k]? = some fr ∧
      fr.IsFor w n (i + k) (o + startOf fs k) f.length := by
  induction fs generalizing o i k with
  | nil => exact absurd hk (by simp)
  | cons g fs ih =>
    obtain ⟨hg, hfs⟩ := List.forall_mem_cons.mp hnonneg
    rw [List.map_cons, List.sum_cons] at hsize
    rw [rangeLoop]
    cases k with
    | zero =>
      rw [List.getElem?_cons_zero, Option.some_inj] at hk
      subst hk
      exact ⟨_, List.getElem?_cons_zero, rfl, rfl, rfl⟩
    | succ k =>
      rw [List.getElem?_cons_succ] at hk ⊢
      obtain ⟨fr, hget, hfor⟩ := ih (o := o + g.length.toNat) (i := i + 1) hfs (by omega) hk
      have hindex : i + 1 + k = i + (k + 1) := by omega
      rw [hindex, Nat.add_assoc] at hfor
      rw [wrap64_add_toNat hg (by omega)]
      exact ⟨fr, hget, by rwa [startOf_cons]⟩

/-- The range of a file that the pieces reach. -/
theorem rangeFor_cast (hn : 0 < n) {o l : Nat} (hreach : o + l ≤ n * w)
    (hsize : o + l < 2 ^ 63) :
    ∃ a b : Nat, rangeFor w n o l = ((a : Int), (b : Int)) ∧ a ≤ b ∧ b < n ∧
      (0 < l → a = o / w ∧ b = (o + l - 1) / w) := by
  unfold rangeFor
  rcases Nat.eq_zero_or_pos l with rfl | hl
  · refine ⟨min (o / w) (n - 1), min (o / w) (n - 1), ?_, Nat.le_refl _, by omega, fun h => ?_⟩
    · dsimp only
      rw [if_pos (by omega), ← Int.ofNat_tdiv]
      have hfirst : (if ((o / w : Nat) : Int) ≥ n then (n : Int) - 1 else ((o / w : Nat) : Int)) =
          ((min (o / w) (n - 1) : Nat) : Int) := by split_ifs <;> omega
      rw [hfirst]
    · exact absurd h (Nat.lt_irrefl 0)
  · have hlast : (o + l - 1) / w < n := Nat.div_lt_of_lt_mul (by rw [Nat.mul_comm]; omega)
    refine ⟨o / w, (o + l - 1) / w, ?_, Nat.div_le_div_right (by omega), hlast,
      fun _ => ⟨rfl, rfl⟩⟩
    have hstop : wrap64 ((o : Int) + l - 1) = ((o + l - 1 : Nat) : Int) := by
      rw [wrap64_of_range (by omega) (by omega)]
      omega
    dsimp only
    rw [if_neg (by omega), hstop, ← Int.ofNat_tdiv, ← Int.ofNat_tdiv, if_neg (by omega)]

theorem covered_iff {bf : Bitfield} {fr : FileRangeEntry} {a b : Nat} (hfirst : fr.firstPiece = a)
    (hlast : fr.lastPiece = b) :
    covered bf fr = true ↔ ∀ i, a ≤ i → i ≤ b → bf.hasPiece i = true := by
  unfold covered
  rw [hfirst, hlast, List.all_eq_true]
  have hcount : (((b : Nat) : Int) + 1 - a).toNat = b + 1 - a := by omega
  rw [hcount]
  constructor
  · intro h i hlo hhi
    have hpiece := h (i - a) (List.mem_range.mpr (by omega))
    rw [hasPieceAt, Bool.and_eq_true] at hpiece
    have hindex : ((a : Int) + ((i - a : Nat) : Int)).toNat = i := by omega
    rw [← hindex]
    exact hpiece.2
  · intro h k hk
    have hlt := List.mem_range.mp hk
    have hindex : ((a : Int) + (k : Int)).toNat = a + k := by omega
    rw [hasPieceAt, hindex, h (a + k) (by omega) (by omega), decide_eq_true (by omega)]
    rfl

end Ranges

/-- The pieces reach to the end of the files, and all of it fits into an `int64`. -/
structure Reaches (info : Info) : Prop where
  size : exactSize info < 2 ^ 63
  pieces : exactSize info ≤ numPieces info * info.pieceLength
  round : RoundFits info.pieceLength.toNat (exactSize info).toNat

/-- What the events need of a torrent, in natural numbers. -/
structure Shape (info : Info) (w n total : Nat) : Prop where
  width : info.pieceLength = w
  count : numPieces info = n
  total_eq : totalSize info = total
  w_pos : 0 < w
  n_pos : 0 < n
  nonneg : ∀ f ∈ layoutFiles info, 0 ≤ f.length
  sum : ((layoutFiles info).map fun f => f.length.toNat).sum = total
  size : total < 2 ^ 63
  reach : total ≤ n * w
  round : RoundFits w total

theorem parse_layout {H : Digests} {data : Bytes} {tf : TorrentFile} (h : parse H data = .ok tf) :
    0 ≤ tf.info.length ∧ (tf.info.files ≠ [] → tf.info.length = 0) := by
  obtain ⟨root, infoDict, -, -, -, hparse, -, -⟩ := parse_eq_ok h
  obtain ⟨-, -, -, -, hlayout, -, -⟩ := parseInfo_eq_ok.mp hparse
  refine ⟨(parseLayout_nonneg hlayout).1, fun hne => ?_⟩
  unfold parseLayout at hlayout
  split at hlayout
  · split_ifs at hlayout
    exact absurd (Prod.mk.inj (Except.ok.inj hlayout)).2.symm hne
  · split at hlayout
    · exact (Prod.mk.inj (Except.ok.inj hlayout)).1.symm
    · split at hlayout
      · cases hlayout
      · exact (Prod.mk.inj (Except.ok.inj hlayout)).1.symm

theorem shape_of_reaches {H : Digests} {data : Bytes} {tf : TorrentFile}
    (hparse : parse H data = .ok tf) (hpieces : 0 < numPieces tf.info) (h : Reaches tf.info) :
    Shape tf.info tf.info.pieceLength.toNat (numPieces tf.info) (exactSize tf.info).toNat := by
  obtain ⟨hpl, hlt, hfiles⟩ := parse_bounds hparse
  obtain ⟨hlength, hmulti⟩ := parse_layout hparse
  have hsize := exactSize_nonneg hfiles
  have hfit := h.size
  have hreach := h.pieces
  have hnonneg : ∀ f ∈ layoutFiles tf.info, 0 ≤ f.length := by
    unfold layoutFiles
    split_ifs
    · exact List.forall_mem_singleton.mpr hlength
    · exact hfiles
  have hsum : ((layoutFiles tf.info).map File.length).sum = exactSize tf.info := by
    unfold layoutFiles exactSize
    by_cases hnone : tf.info.files = []
    · rw [if_pos hnone, hnone, List.map_singleton, List.sum_singleton, List.map_nil, List.sum_nil]
      dsimp only
      split_ifs <;> omega
    · rw [if_neg hnone, if_neg (by rw [hmulti hnone]; decide)]
  have hcast := sum_map_toNat hnonneg
  refine ⟨by omega, rfl, ?_, by omega, hpieces, hnonneg, by omega, by omega, ?_, h.round⟩
  · rw [totalSize_eq_wrap hlt, wrap64_of_range (by omega) hfit]
    omega
  · refine Int.ofNat_le.mp ?_
    rw [Int.natCast_mul, Int.toNat_of_nonneg hsize, Int.toNat_of_nonneg (Int.le_of_lt hpl)]
    exact hreach

theorem nodup_computeFileRanges (info : Info) :
    ((computeFileRanges info).map FileRangeEntry.index).Nodup := by
  unfold computeFileRanges
  split_ifs
  · exact List.nodup_nil
  · exact List.nodup_singleton _
  · rw [rangeLoop_index]
    exact List.nodup_range'

/-- What `computeFileDownloaded` returns for a file of the torrent. -/
def fileBytes (info : Info) (bf : Bitfield) (j : Nat) (f : File) : Int :=
  computeFileDownloaded (some bf) (startOf (layoutFiles info) j) f.length info.pieceLength
    (totalSize info) (numPieces info)

namespace Shape

variable {info : Info} {w n total : Nat}

theorem computeFileRanges_eq (h : Shape info w n total) :
    computeFileRanges info =
      if info.files = [] then [rangeEntry w n 0 info.name 0 info.length]
      else rangeLoop w n 0 info.files 0 := by
  have hw := h.w_pos
  have hn := h.n_pos
  rw [computeFileRanges, h.width, h.count, if_neg (by omega)]

theorem length_ranges (h : Shape info w n total) :
    (computeFileRanges info).length = (layoutFiles info).length := by
  rw [h.computeFileRanges_eq, layoutFiles]
  split_ifs
  · rfl
  · have hlen := congrArg List.length (rangeLoop_index (w : Int) n 0 info.files 0)
    rwa [List.length_map, List.length_range'] at hlen

theorem exists_range (h : Shape info w n total) {j : Nat} {f : File}
    (hj : (layoutFiles info)[j]? = some f) :
    ∃ fr, (computeFileRanges info)[j]? = some fr ∧
      fr.IsFor w n j (startOf (layoutFiles info) j) f.length := by
  have hsum := h.sum
  have hsize := h.size
  have hnonneg := h.nonneg
  rw [h.computeFileRanges_eq]
  unfold layoutFiles at hj hsum hnonneg ⊢
  by_cases hnone : info.files = []
  · rw [if_pos hnone] at hj ⊢
    obtain ⟨hlt, rfl⟩ := List.getElem?_eq_some_iff.mp hj
    rw [List.length_singleton, Nat.lt_one_iff] at hlt
    subst hlt
    rw [if_pos hnone]
    exact ⟨_, rfl, rfl, rfl, rfl⟩
  · rw [if_neg hnone] at hj hsum hnonneg ⊢
    obtain ⟨fr, hget, hfor⟩ := rangeLoop_getElem? (w := w) (n := n) (o := 0) (i := 0) hnonneg
      (by omega) hj
    rw [Nat.zero_add, Nat.zero_add] at hfor
    rw [if_neg hnone]
    exact ⟨fr, hget, hfor⟩

/-- Every entry has a piece, and the entry of a file with bytes has the pieces of its bytes. -/
theorem pieces_of_range (h : Shape info w n total) {j : Nat} {f : File} {fr : FileRangeEntry}
    (hj : (layoutFiles info)[j]? = some f)
    (hfor : fr.IsFor w n j (startOf (layoutFiles info) j) f.length) :
    ∃ a b : Nat, fr.firstPiece = a ∧ fr.lastPiece = b ∧ a ≤ b ∧ b < n ∧
      (0 < f.length → a = startOf (layoutFiles info) j / w ∧
        b = (startOf (layoutFiles info) j + f.length.toNat - 1) / w) := by
  have hend := startOf_add_le hj
  have hf := h.nonneg f (List.mem_of_getElem? hj)
  have hreach := h.reach
  have hsize := h.size
  rw [h.sum] at hend
  obtain ⟨a, b, hrange, hle, hlt, hbytes⟩ := rangeFor_cast (w := w) h.n_pos
    (o := startOf (layoutFiles info) j) (l := f.length.toNat) (by omega) (by omega)
  rw [Int.toNat_of_nonneg hf] at hrange
  refine ⟨a, b, ?_, ?_, hle, hlt, fun hpos => hbytes (by omega)⟩
  · rw [hfor.first, hrange]
  · rw [hfor.last, hrange]

/-- All pieces of a file with bytes are there when all of its bytes are. -/
theorem covered_iff_fileBytes (h : Shape info w n total) {j : Nat} {f : File}
    {fr : FileRangeEntry} (hj : (layoutFiles info)[j]? = some f)
    (hfor : fr.IsFor w n j (startOf (layoutFiles info) j) f.length) (hpos : 0 < f.length)
    (bf : Bitfield) : covered bf fr = true ↔ fileBytes info bf j f = f.length := by
  obtain ⟨a, b, hfirst, hlast, -, -, hbytes⟩ := h.pieces_of_range hj hfor
  obtain ⟨rfl, rfl⟩ := hbytes hpos
  have hend := startOf_add_le hj
  have hreach := h.reach
  rw [h.sum] at hend
  rw [covered_iff hfirst hlast, fileBytes, h.width, h.total_eq, h.count,
    computeFileDownloaded_file (some bf) h.w_pos h.round h.size (Int.le_of_lt hpos) hend]
  generalize startOf (layoutFiles info) j = o at hend
  have hcount : ((heldIn (some bf) w n o (o + f.length.toNat) : Int) = f.length) ↔
      heldIn (some bf) w n o (o + f.length.toNat) = o + f.length.toNat - o := by omega
  rw [hcount, heldIn, countIn_eq_iff]
  constructor
  · intro hall p hlo hhi
    have hlt : p / w < n := Nat.div_lt_of_lt_mul (by rw [Nat.mul_comm]; omega)
    exact ⟨hlt, hall _ (Nat.div_le_div_right hlo) (Nat.div_le_div_right (by omega))⟩
  · intro hall i hlo hhi
    -- a position of the file in piece `i`
    have hw := h.w_pos
    have hfirst : i * w ≤ o + f.length.toNat - 1 :=
      (Nat.mul_le_mul_right w hhi).trans (Nat.div_mul_le_self _ _)
    have hblock : max o (i * w) / w = i := by
      have hupper : o < (i + 1) * w := Nat.lt_mul_of_div_lt (Nat.lt_succ_of_le hlo) hw
      rw [Nat.div_eq_iff hw]
      rw [Nat.add_mul, Nat.one_mul] at hupper
      omega
    have hpiece := hall (max o (i * w)) (Nat.le_max_left _ _) (by omega)
    rw [hblock] at hpiece
    exact hpiece.2

theorem byteLength_start (h : Shape info w n total) (haveBitfield : Option Bitfield) :
    (startCompletion info haveBitfield).uploadBF.byteLength ≠ 0 := by
  have hn := h.n_pos
  have hsize : (startCompletion info haveBitfield).uploadBF.byteLength = Bitfield.sizeFor n := by
    rw [← h.count]
    cases haveBitfield with
    | none => exact Bitfield.zeros_byteLength _
    | some bf => exact resize_length _ _
  rw [hsize, Bitfield.sizeFor]
  omega

/-- The pieces of a range are among those that the torrent has. -/
theorem pieces_of_mem (h : Shape info w n total) {fr : FileRangeEntry}
    (hfr : fr ∈ computeFileRanges info) :
    ∃ a b : Nat, fr.firstPiece = a ∧ fr.lastPiece = b ∧ a ≤ b ∧ b < n := by
  obtain ⟨j, hj⟩ := List.mem_iff_getElem?.mp hfr
  have hlt := (List.getElem?_eq_some_iff.mp hj).1
  rw [h.length_ranges] at hlt
  have hfile := List.getElem?_eq_getElem hlt
  obtain ⟨fr', hget, hfor⟩ := h.exists_range hfile
  rw [hj, Option.some_inj] at hget
  subst hget
  obtain ⟨a, b, hfirst, hlast, hle, hb, -⟩ := h.pieces_of_range hfile hfor
  exact ⟨a, b, hfirst, hlast, hle, hb⟩

theorem settled_start (h : Shape info w n total) (haveBitfield : Option Bitfield) :
    Settled info (startCompletion info haveBitfield) := by
  intro fr hfr
  obtain ⟨a, b, hfirst, hlast, hle, hb⟩ := h.pieces_of_mem hfr
  rw [covered_iff hfirst hlast]
  cases haveBitfield with
  | none =>
    -- nothing is there, and no file is without pieces
    refine iff_of_false List.not_mem_nil fun hcov => ?_
    have hpiece := hcov a (Nat.le_refl a) hle
    exact absurd hpiece (by rw [startCompletion, Bitfield.hasPiece_zeros]; exact nofun)
  | some bf =>
    have hsame : ∀ i, i ≤ b → (startCompletion info (some bf)).uploadBF.hasPiece i =
        bf.hasPiece i := by
      intro i hi
      rw [startCompletion, h.count]
      exact hasPiece_resize (by omega) bf
    have hcov : (∀ i, a ≤ i → i ≤ b →
        (startCompletion info (some bf)).uploadBF.hasPiece i = true) ↔ covered bf fr = true := by
      rw [covered_iff hfirst hlast]
      exact forall_congr' fun i => forall_congr' fun _ => forall_congr' fun hi => by
        rw [hsame i hi]
    rw [hcov]
    show fr.index ∈ ((computeFileRanges info).filter (covered bf)).map FileRangeEntry.index ↔ _
    constructor
    · intro hmem
      obtain ⟨fr', hfr', hindex⟩ := List.mem_map.mp hmem
      obtain ⟨hin, hcov⟩ := List.mem_filter.mp hfr'
      rwa [List.inj_on_of_nodup_map (nodup_computeFileRanges info) hin hfr hindex] at hcov
    · exact fun hcov => List.mem_map_of_mem (List.mem_filter.mpr ⟨hfr, hcov⟩)

end Shape

/-- The bytes of a file that `computeFileDownloaded` has after the first `k` pieces. -/
def bytesAfter (info : Info) (haveBitfield : Option Bitfield) (order : List Nat) (j : Nat)
    (f : File) (k : Nat) : Int :=
  fileBytes info ((startCompletion info haveBitfield).uploadBF.setAll (order.take k)) j f

/-- Where the pieces reach to the end of the files: no file gets a second event, a file with
bytes gets it with the first piece after which it is complete, and one that was complete before
gets none. -/
theorem fileCompleted_agrees (H : Digests) (data : Bytes) (tf : TorrentFile)
    (hparse : parse H data = .ok tf) (hpieces : 0 < numPieces tf.info) (hreach : Reaches tf.info)
    (haveBitfield : Option Bitfield) (order : List Nat) (j : Nat) (f : File)
    (hj : (layoutFiles tf.info)[j]? = some f) :
    ((publish tf.info (startCompletion tf.info haveBitfield) order).flatMap
        filesCompleted).count j ≤ 1 ∧
      (0 < f.length → ∀ k events,
        (publish tf.info (startCompletion tf.info haveBitfield) order)[k]? = some events →
        (j ∈ filesCompleted events ↔
          bytesAfter tf.info haveBitfield order j f (k + 1) = f.length ∧
            ∀ k' ≤ k, bytesAfter tf.info haveBitfield order j f k' ≠ f.length)) ∧
      (0 < f.length → bytesAfter tf.info haveBitfield order j f 0 = f.length →
        j ∉ (publish tf.info (startCompletion tf.info haveBitfield) order).flatMap
          filesCompleted) := by
  have h := shape_of_reaches hparse hpieces hreach
  have hnodup := nodup_computeFileRanges tf.info
  have hbytes := h.byteLength_start haveBitfield
  have hsettled := h.settled_start haveBitfield
  obtain ⟨fr, hget, hfor⟩ := h.exists_range hj
  have hfr := List.mem_of_getElem? hget
  obtain ⟨honce, hnew⟩ := nodup_publish hnodup _ hbytes order
  refine ⟨List.nodup_iff_count_le_one.mp honce j, fun hpos k events hk => ?_, fun hpos hzero => ?_⟩
  · have hcovered := h.covered_iff_fileBytes hj hfor hpos
    have hevent := mem_publish hnodup hbytes hsettled hfr hk
    rw [hfor.index, hcovered, hcovered] at hevent
    rw [hevent]
    refine and_congr_right fun _ =>
      ⟨fun hnot k' hk' hdone => hnot ?_, fun hnot => hnot k (Nat.le_refl k)⟩
    -- what was complete stays complete
    rw [bytesAfter, ← hcovered] at hdone
    rw [← hcovered]
    refine covered_mono (fun i hi => ?_) hdone
    rw [Bitfield.hasPiece_setAll] at hi ⊢
    rw [Bool.or_eq_true, Bool.and_eq_true] at hi ⊢
    refine hi.imp id fun hset => ⟨?_, hset.2⟩
    have hmem := of_decide_eq_true hset.1
    exact decide_eq_true (List.take_subset_take_left order hk' hmem)
  · refine fun hmem => hnew j hmem ?_
    rw [← hfor.index, hsettled fr hfr, h.covered_iff_fileBytes hj hfor hpos]
    exact hzero

/-- Two files of four bytes in pieces of four, with the given hashes. -/
def twoFours (pieces : Bytes) : Bytes :=
  ascii "d4:infod5:filesld6:lengthi4e4:pathl1:aeed6:lengthi4e4:pathl1:beee" ++
    ascii "4:name1:d12:piece lengthi4e6:pieces" ++ encodeString pieces ++ ascii "ee"

/-- With both pieces, in the other order, each file has its event when its piece comes. -/
theorem fileCompleted_agrees_twoFours :
    ∃ tf, parse plainDigests (twoFours (List.replicate 40 97)) = .ok tf ∧
      (layoutFiles tf.info)[1]? = some ⟨4, [[98]]⟩ ∧
      ∀ k events, (publish tf.info (startCompletion tf.info none) [1, 0])[k]? = some events →
        (1 ∈ filesCompleted events ↔ bytesAfter tf.info none [1, 0] 1 ⟨4, [[98]]⟩ (k + 1) = 4 ∧
          ∀ k' ≤ k, bytesAfter tf.info none [1, 0] 1 ⟨4, [[98]]⟩ k' ≠ 4) := by
  have hfields : (parse plainDigests (twoFours (List.replicate 40 97))).toOption.map
      (fun tf => (exactSize tf.info, numPieces tf.info, tf.info.pieceLength,
        (layoutFiles tf.info)[1]?)) = some (8, 2, 4, some ⟨4, [[98]]⟩) := by
    rw [twoFours, ascii_ofList, ascii_ofList]
    decide +kernel
  obtain ⟨tf, hparse, hfields⟩ := exists_parse_eq_ok hfields
  simp only [Prod.mk.injEq] at hfields
  obtain ⟨hsize, hcount, hpl, hfile⟩ := hfields
  have hreach : Reaches tf.info := by
    refine ⟨by rw [hsize]; decide, by rw [hsize, hcount, hpl]; decide, ?_⟩
    rw [hsize, hpl]
    intro i hi
    show (i + 1) * 4 < 2 ^ 63
    have hlt : i * 4 < 8 := hi
    omega
  exact ⟨tf, hparse, hfile, (fileCompleted_agrees plainDigests _ tf hparse (by rw [hcount]; decide)
    hreach none [1, 0] 1 _ hfile).2.1 (by decide)⟩

/-- With one piece for the eight bytes the second file has its event with the first, and none
of its bytes. -/
theorem fileCompleted_behind :
    ∃ tf, parse plainDigests (twoFours (List.replicate 20 97)) = .ok tf ∧ numPieces tf.info = 1 ∧
      (layoutFiles tf.info)[1]? = some ⟨4, [[98]]⟩ ∧
      (publish tf.info (startCompletion tf.info none) [0]).map filesCompleted = [[0, 1]] ∧
      bytesAfter tf.info none [0] 1 ⟨4, [[98]]⟩ 1 = 0 := by
  have hfields : (parse plainDigests (twoFours (List.replicate 20 97))).toOption.map
      (fun tf => (numPieces tf.info, (layoutFiles tf.info)[1]?,
        (publish tf.info (startCompletion tf.info none) [0]).map filesCompleted,
        bytesAfter tf.info none [0] 1 ⟨4, [[98]]⟩ 1)) =
      some (1, some ⟨4, [[98]]⟩, [[0, 1]], 0) := by
    rw [twoFours, ascii_ofList, ascii_ofList]
    decide +kernel
  obtain ⟨tf, hparse, hfields⟩ := exists_parse_eq_ok hfields
  simp only [Prod.mk.injEq] at hfields
  exact ⟨tf, hparse, hfields⟩

end Stor.Engine
