import Stor.Download.Deliver

/-!
# The progress counter

`Progress` of `download/progress.go`, as `DownloadWithParams` keeps it, and the number of
bytes left that `newAnnouncer` of `engine/session.go` sends to trackers.  The pieces that
are there already are put down as so many whole pieces, and every further one as the
bytes that were written.

The estimate is exact unless the short last piece is one of those that are there, or, when
all are there, unless their number times the piece length does not fit into 64 bits
(`initial_exact_iff`).  From then on the counter adds up whatever comes
(`progress_exact`), and along every run of the workers it counts what has been
written (`run_progress`).
-/

namespace Stor.Download

open Lib Torrent Peer Storage

/-! ## The counter -/

structure Progress where
  totalPieces : Nat
  totalBytes : Int
  completed : Int
  downloaded : Int
  deriving DecidableEq, Repr

structure ProgressSnap where
  downloaded : Int
  total : Int
  totalPieces : Nat
  donePieces : Int
  deriving DecidableEq, Repr

namespace Progress

def new (totalPieces : Nat) (totalBytes : Int) : Progress := ⟨totalPieces, totalBytes, 0, 0⟩

def setInitial (p : Progress) (completedPieces : Nat) (totalBytes pieceLength : Int) : Progress :=
  let estimated := wrap64 (completedPieces * pieceLength)
  { p with
    completed := (completedPieces : Int).bmod (2 ^ 32)
    downloaded := if estimated > totalBytes then totalBytes else estimated }

def add (p : Progress) (bytes : Nat) : Progress :=
  { p with
    completed := (p.completed + 1).bmod (2 ^ 32)
    downloaded := wrap64 (p.downloaded + bytes) }

def snap (p : Progress) : ProgressSnap := ⟨p.downloaded, p.totalBytes, p.totalPieces, p.completed⟩

end Progress

/-- The bytes left for the trackers; a session that only seeds has no counter. -/
def left : Option Progress → Int
  | none => 0
  | some p => wrap64 (p.snap.total - p.snap.downloaded)

/-- The pieces of `Have`. -/
def heldPieces (info : Info) (haveBF : Option Bitfield) : List Nat :=
  (List.range (numPieces info)).filter (inBitfield haveBF)

/-- The counter when the loop over the results is entered. -/
def initialProgress (info : Info) (haveBF : Option Bitfield) : Progress :=
  let p := Progress.new (numPieces info) (totalSize info)
  let alreadyDone := (heldPieces info haveBF).length
  if alreadyDone > 0 then p.setInitial alreadyDone (totalSize info) info.pieceLength else p

/-- The counter after results of these lengths. -/
def Progress.addAll (p : Progress) (lengths : List Nat) : Progress := lengths.foldl Progress.add p

theorem addAll_totalBytes (p : Progress) (lengths : List Nat) :
    (p.addAll lengths).totalBytes = p.totalBytes := by
  induction lengths generalizing p with
  | nil => rfl
  | cons n lengths ih => exact ih (p.add n)

theorem addAll_downloaded {p : Progress} (hp : wrap64 p.downloaded = p.downloaded)
    (lengths : List Nat) :
    (p.addAll lengths).downloaded = wrap64 (p.downloaded + (lengths.sum : Nat)) := by
  induction lengths generalizing p with
  | nil =>
    rw [List.sum_nil, Int.natCast_zero, Int.add_zero, hp]
    rfl
  | cons n lengths ih =>
    have hwrap : wrap64 (p.add n).downloaded = (p.add n).downloaded :=
      wrap64_of_range (wrap64_range _).1 (wrap64_range _).2
    rw [List.sum_cons, Int.natCast_add, ← Int.add_assoc, ← wrap64_add_left]
    exact ih hwrap

/-! ## The bytes of pieces -/

/-- The sizes of pieces, summed up. -/
def pieceBytes (info : Info) (is : List Nat) : Int :=
  (is.map (pieceLengthAt info (totalSize info))).sum

theorem pieceBytes_append (info : Info) (is js : List Nat) :
    pieceBytes info (is ++ js) = pieceBytes info is + pieceBytes info js := by
  rw [pieceBytes, List.map_append, List.sum_append, pieceBytes, pieceBytes]

theorem pieceBytes_perm {info : Info} {is js : List Nat} (h : is.Perm js) :
    pieceBytes info is = pieceBytes info js :=
  (h.map _).sum_eq

/-- The sizes are in range, and the hashes are as many as the bytes need. -/
structure WellFormed (info : Info) : Prop where
  pieceLength : 0 < info.pieceLength
  pieces : PiecesMatchSize info
  size : 0 ≤ exactSize info
  total : totalSize info = exactSize info

/-- Of a torrent that was parsed only the number of its hashes is left to ask for. -/
theorem WellFormed.of_parse {digests : Digests} {data : Bytes} {tf : TorrentFile}
    (h : parse digests data = .ok tf) (hmatch : PiecesMatchSize tf.info) : WellFormed tf.info := by
  obtain ⟨hpl, hlt, hfiles⟩ := parse_bounds h
  have hsound := soundGeometry_of_piecesMatchSize hpl hlt hfiles hmatch
  exact ⟨hpl, hmatch, exactSize_nonneg hfiles, hsound.total_exact⟩

section
variable {info : Info} (h : WellFormed info)

include h

theorem WellFormed.length_piece {i : Nat} (hi : i < numPieces info) :
    pieceLengthAt info (totalSize info) i =
      min info.pieceLength (exactSize info - i * info.pieceLength) :=
  pieceLengthAt_exact h.pieceLength h.pieces h.total hi

theorem WellFormed.length_piece_bounds {i : Nat} (hi : i < numPieces info) :
    1 ≤ pieceLengthAt info (totalSize info) i ∧
      pieceLengthAt info (totalSize info) i ≤ info.pieceLength :=
  pieceLengthAt_bounds h.pieceLength h.pieces h.total hi

/-- The first pieces have whole pieces, up to the last byte. -/
theorem WellFormed.pieceBytes_range {k : Nat} (hk : k ≤ numPieces info) :
    pieceBytes info (List.range k) = min (k * info.pieceLength) (exactSize info) := by
  have hsize := h.size
  induction k with
  | zero =>
    show (0 : Int) = _
    omega
  | succ k ih =>
    have hlt := offset_lt_size h.pieceLength h.pieces hk
    rw [List.range_succ, pieceBytes_append, ih (Nat.le_of_succ_le hk), pieceBytes,
      List.map_singleton, List.sum_singleton, h.length_piece hk, Int.natCast_succ, Int.add_mul,
      Int.one_mul]
    omega

theorem WellFormed.pieceBytes_all :
    pieceBytes info (List.range (numPieces info)) = exactSize info := by
  have hpieces := h.pieces.2.2
  rw [h.pieceBytes_range (Nat.le_refl _)]
  omega

variable {is : List Nat} (hnodup : is.Nodup) (his : ∀ i ∈ is, i < numPieces info)

include his

theorem WellFormed.pieceBytes_nonneg : 0 ≤ pieceBytes info is := by
  refine List.sum_nonneg fun n hn => ?_
  obtain ⟨i, hi, rfl⟩ := List.mem_map.mp hn
  have hbounds := h.length_piece_bounds (his i hi)
  omega

include hnodup

theorem WellFormed.pieceBytes_le : pieceBytes info is ≤ exactSize info := by
  have hsub : is ⊆ List.range (numPieces info) := fun i hi => List.mem_range.mpr (his i hi)
  obtain ⟨js, hperm, hsublist⟩ := List.subperm_of_subset hnodup hsub
  rw [← h.pieceBytes_all, ← pieceBytes_perm hperm]
  refine (hsublist.map _).sum_le_sum fun n hn => ?_
  obtain ⟨i, hi, rfl⟩ := List.mem_map.mp hn
  have hbounds := h.length_piece_bounds (List.mem_range.mp hi)
  omega

theorem WellFormed.pieceBytes_of_all (hall : ∀ i < numPieces info, i ∈ is) :
    pieceBytes info is = exactSize info := by
  have hperm : is.Perm (List.range (numPieces info)) := by
    refine (List.perm_ext_iff_of_nodup hnodup List.nodup_range).mpr fun i => ?_
    rw [List.mem_range]
    exact ⟨his i, hall i⟩
  rw [pieceBytes_perm hperm, h.pieceBytes_all]

end

/-! ## The estimate -/

/-- No piece that is there is a short one, or all are there and are not too many. -/
def Estimable (info : Info) (haveBF : Option Bitfield) : Prop :=
  (∀ i ∈ heldPieces info haveBF, ((i : Int) + 1) * info.pieceLength ≤ exactSize info) ∨
    (∀ i < numPieces info, inBitfield haveBF i = true) ∧
      (numPieces info : Int) * info.pieceLength < 2 ^ 63

instance (info : Info) (haveBF : Option Bitfield) : Decidable (Estimable info haveBF) :=
  inferInstanceAs (Decidable (_ ∨ _))

theorem mem_heldPieces {info : Info} {haveBF : Option Bitfield} {i : Nat} :
    i ∈ heldPieces info haveBF ↔ i < numPieces info ∧ inBitfield haveBF i = true := by
  rw [heldPieces, List.mem_filter, List.mem_range]

theorem heldPieces_nodup (info : Info) (haveBF : Option Bitfield) :
    (heldPieces info haveBF).Nodup :=
  List.nodup_range.filter _

section
variable {info : Info} {haveBF : Option Bitfield}

theorem heldPieces_lt : ∀ i ∈ heldPieces info haveBF, i < numPieces info :=
  fun _ hi => (mem_heldPieces.mp hi).1

theorem initialProgress_totalBytes :
    (initialProgress info haveBF).totalBytes = totalSize info := by
  unfold initialProgress
  dsimp only
  split_ifs <;> rfl

theorem length_heldPieces_of_all (hall : ∀ i < numPieces info, inBitfield haveBF i = true) :
    (heldPieces info haveBF).length = numPieces info := by
  rw [heldPieces, List.filter_eq_self.mpr fun i hi => hall i (List.mem_range.mp hi),
    List.length_range]

variable (h : WellFormed info)

include h

/-- Without a piece the counter is not set, which is the estimate for none. -/
theorem WellFormed.initial_downloaded :
    (initialProgress info haveBF).downloaded =
      min (wrap64 ((heldPieces info haveBF).length * info.pieceLength)) (exactSize info) := by
  have hsize := h.size
  unfold initialProgress
  dsimp only
  split_ifs with hsome
  · rw [Progress.setInitial, h.total]
    dsimp only
    split_ifs <;> omega
  · have hnone : (heldPieces info haveBF).length = 0 := by omega
    rw [hnone, Int.natCast_zero, Int.zero_mul, wrap64_of_range (by decide) (by decide)]
    show (0 : Int) = _
    omega

/-- Whole pieces. -/
theorem WellFormed.pieceBytes_whole {is : List Nat} (his : ∀ i ∈ is, i < numPieces info)
    (hwhole : ∀ i ∈ is, ((i : Int) + 1) * info.pieceLength ≤ exactSize info) :
    pieceBytes info is = is.length * info.pieceLength := by
  have hsame : ∀ i ∈ is, pieceLengthAt info (totalSize info) i = info.pieceLength := by
    intro i hi
    have hle := hwhole i hi
    rw [Int.add_mul, Int.one_mul] at hle
    rw [h.length_piece (his i hi)]
    omega
  rw [pieceBytes, List.map_congr_left hsame, List.map_const', List.sum_replicate, nsmul_eq_mul]

/-- A short piece among others. -/
theorem WellFormed.pieceBytes_lt {is : List Nat} (his : ∀ i ∈ is, i < numPieces info) {i : Nat}
    (hi : i ∈ is) (hshort : exactSize info < ((i : Int) + 1) * info.pieceLength) :
    pieceBytes info is < is.length * info.pieceLength := by
  have hlt : pieceLengthAt info (totalSize info) i < info.pieceLength := by
    rw [Int.add_mul, Int.one_mul] at hshort
    rw [h.length_piece (his i hi)]
    omega
  have hsum := List.sum_lt_sum (pieceLengthAt info (totalSize info))
    (fun _ => info.pieceLength) (fun j hj => (h.length_piece_bounds (his j hj)).2) ⟨i, hi, hlt⟩
  rwa [List.map_const', List.sum_replicate, nsmul_eq_mul] at hsum

theorem WellFormed.initial_exact (hest : Estimable info haveBF) :
    (initialProgress info haveBF).downloaded = pieceBytes info (heldPieces info haveBF) := by
  have hbound := h.pieces.1
  have hle := h.pieceBytes_le (heldPieces_nodup info haveBF) heldPieces_lt
  have hnonneg : 0 ≤ pieceBytes info (heldPieces info haveBF) :=
    h.pieceBytes_nonneg heldPieces_lt
  rw [h.initial_downloaded]
  rcases hest with hwhole | ⟨hall, hfits⟩
  · rw [h.pieceBytes_whole heldPieces_lt hwhole] at hle hnonneg ⊢
    rw [wrap64_of_range (by omega) (by omega)]
    omega
  · have hmem : ∀ i < numPieces info, i ∈ heldPieces info haveBF :=
      fun i hi => mem_heldPieces.mpr ⟨hi, hall i hi⟩
    have hpieces := h.pieces.2.2
    have hsize := h.size
    rw [h.pieceBytes_of_all (heldPieces_nodup info haveBF) heldPieces_lt hmem,
      length_heldPieces_of_all hall, wrap64_of_range (by omega) hfits]
    omega

/-- The condition is as weak as it can be. -/
theorem WellFormed.initial_exact_iff (hlt : info.pieceLength < 2 ^ 63) :
    (initialProgress info haveBF).downloaded = pieceBytes info (heldPieces info haveBF) ↔
      Estimable info haveBF := by
  refine ⟨fun hexact => ?_, h.initial_exact⟩
  by_contra hest
  obtain ⟨hshort, hmany⟩ := not_or.mp hest
  push Not at hshort hmany
  obtain ⟨i, hi, hshort⟩ := hshort
  have hless := h.pieceBytes_lt heldPieces_lt hi hshort
  have hbound := h.pieces.1
  have hsize := h.size
  have hpred := h.pieces.2.1
  rw [Int.sub_mul, Int.one_mul] at hpred
  rw [h.initial_downloaded] at hexact
  by_cases hall : ∀ i < numPieces info, inBitfield haveBF i = true
  · -- the product is a negative number then
    have hlarge := hmany hall
    rw [length_heldPieces_of_all hall, wrap64_of_ge hlarge (by omega)] at hexact
    have hnonneg : 0 ≤ pieceBytes info (heldPieces info haveBF) :=
      h.pieceBytes_nonneg heldPieces_lt
    omega
  · have hcount : (heldPieces info haveBF).length < numPieces info := by
      push Not at hall
      obtain ⟨j, hj, hfree⟩ := hall
      have hlen : (heldPieces info haveBF).length < (List.range (numPieces info)).length :=
        List.length_filter_lt_length_iff_exists.mpr ⟨j, List.mem_range.mpr hj, hfree⟩
      rwa [List.length_range] at hlen
    have hproduct := offset_lt_size h.pieceLength h.pieces hcount
    have hpos : 0 ≤ ((heldPieces info haveBF).length : Int) * info.pieceLength :=
      Int.mul_nonneg (by omega) (Int.le_of_lt h.pieceLength)
    rw [wrap64_of_range (by omega) (by omega)] at hexact
    omega

end

/-! ## The counter while pieces complete -/

/-- The counter after the pieces of `order`, each of which has its own length. -/
def progressAfter (info : Info) (haveBF : Option Bitfield) (order : List Nat) : Progress :=
  (initialProgress info haveBF).addAll
    (order.map fun i => (pieceLengthAt info (totalSize info) i).toNat)

section
variable {info : Info} (h : WellFormed info) {haveBF : Option Bitfield}
  (hest : Estimable info haveBF) {order : List Nat} (hnodup : order.Nodup)
  (hnew : ∀ i ∈ order, i < numPieces info ∧ inBitfield haveBF i = false)

include hnodup hnew

theorem held_append_nodup : (heldPieces info haveBF ++ order).Nodup := by
  refine List.nodup_append.mpr ⟨heldPieces_nodup info haveBF, hnodup, ?_⟩
  intro i hi j hj hij
  have hheld := (mem_heldPieces.mp hi).2
  rw [hij, (hnew j hj).2] at hheld
  cases hheld

omit hnodup in
theorem held_append_lt : ∀ i ∈ heldPieces info haveBF ++ order, i < numPieces info := by
  intro i hi
  rcases List.mem_append.mp hi with hheld | hdone
  · exact heldPieces_lt i hheld
  · exact (hnew i hdone).1

include h hest

theorem WellFormed.progressAfter_downloaded :
    (progressAfter info haveBF order).downloaded =
      pieceBytes info (heldPieces info haveBF) + pieceBytes info order := by
  have hin := held_append_lt hnew
  have hle := h.pieceBytes_le (held_append_nodup hnodup hnew) hin
  have hnonneg := h.pieceBytes_nonneg hin
  have hheld : 0 ≤ pieceBytes info (heldPieces info haveBF) := h.pieceBytes_nonneg heldPieces_lt
  have horder : 0 ≤ pieceBytes info order := h.pieceBytes_nonneg fun i hi => (hnew i hi).1
  have hbound := h.pieces.1
  rw [pieceBytes_append] at hle hnonneg
  have hsum : (((order.map fun i => (pieceLengthAt info (totalSize info) i).toNat).sum : Nat) :
      Int) = pieceBytes info order := by
    refine sum_map_toNat fun i hi => ?_
    have hbounds := h.length_piece_bounds (hnew i hi).1
    omega
  have hinitial : (initialProgress info haveBF).downloaded =
      pieceBytes info (heldPieces info haveBF) := h.initial_exact hest
  rw [progressAfter, addAll_downloaded, hinitial, hsum, wrap64_of_range (by omega) (by omega)]
  rw [hinitial]
  exact wrap64_of_range (by omega) (by omega)

end

/-- Whatever the pieces that are there and the order of the others. -/
theorem progress_exact {info : Info} (h : WellFormed info) {haveBF : Option Bitfield}
    (hest : Estimable info haveBF) {order : List Nat} (hnodup : order.Nodup)
    (hnew : ∀ i ∈ order, i < numPieces info ∧ inBitfield haveBF i = false) :
    (progressAfter info haveBF order).snap.downloaded =
        pieceBytes info (heldPieces info haveBF) + pieceBytes info order ∧
      (progressAfter info haveBF order).snap.downloaded ≤
        (progressAfter info haveBF order).snap.total ∧
      ((∀ i < numPieces info, inBitfield haveBF i = true ∨ i ∈ order) →
        (progressAfter info haveBF order).snap.downloaded =
          (progressAfter info haveBF order).snap.total) ∧
      0 ≤ left (some (progressAfter info haveBF order)) := by
  have hin := held_append_lt hnew
  have hboth := held_append_nodup hnodup hnew
  have hdown : (progressAfter info haveBF order).snap.downloaded =
      pieceBytes info (heldPieces info haveBF ++ order) := by
    rw [pieceBytes_append]
    exact h.progressAfter_downloaded hest hnodup hnew
  have htotal : (progressAfter info haveBF order).snap.total = exactSize info := by
    show (progressAfter info haveBF order).totalBytes = _
    rw [progressAfter, addAll_totalBytes, initialProgress_totalBytes, h.total]
  have hle := h.pieceBytes_le hboth hin
  have hnonneg := h.pieceBytes_nonneg hin
  have hbound := h.pieces.1
  refine ⟨hdown.trans (pieceBytes_append _ _ _), ?_, fun hall => ?_, ?_⟩
  · rw [hdown, htotal]
    exact hle
  · rw [hdown, htotal]
    refine h.pieceBytes_of_all hboth hin fun i hi => ?_
    rcases hall i hi with hheld | hdone
    · exact List.mem_append_left _ (mem_heldPieces.mpr ⟨hi, hheld⟩)
    · exact List.mem_append_right _ hdone
  · rw [left, hdown, htotal, wrap64_of_range (by omega) (by omega)]
    omega

/-- Five bytes in pieces of four. -/
def fiveBytes : Info := ⟨[97], 4, [[1], [2]], 5, [], false, none⟩

theorem wellFormed_fiveBytes : WellFormed fiveBytes :=
  ⟨by decide, ⟨by decide, by decide, by decide⟩, by decide, by decide⟩

theorem initial_exact_iff_fiveBytes :
    (initialProgress fiveBytes (some ⟨[0x80]⟩)).downloaded =
      pieceBytes fiveBytes (heldPieces fiveBytes (some ⟨[0x80]⟩)) ↔
      Estimable fiveBytes (some ⟨[0x80]⟩) :=
  wellFormed_fiveBytes.initial_exact_iff (by decide)

/-- The first piece is there, and the short one comes. -/
theorem progress_exact_fiveBytes :
    (progressAfter fiveBytes (some ⟨[0x80]⟩) [1]).snap.downloaded = 4 + 1 ∧
      (progressAfter fiveBytes (some ⟨[0x80]⟩) [1]).snap.downloaded =
        (progressAfter fiveBytes (some ⟨[0x80]⟩) [1]).snap.total := by
  have hexact := progress_exact wellFormed_fiveBytes
    (show Estimable fiveBytes (some ⟨[0x80]⟩) by decide) (show [1].Nodup by decide) (by decide)
  exact ⟨hexact.1, hexact.2.2.1 (by decide)⟩

/-- The short piece is there, and is put down as four bytes.  With the other one there are
eight of five.  Up to `SetInitial` the counter has nothing. -/
theorem progress_overcounts :
    WellFormed fiveBytes ∧ pieceBytes fiveBytes (heldPieces fiveBytes (some ⟨[0x40]⟩)) = 1 ∧
      (Progress.new (numPieces fiveBytes) (totalSize fiveBytes)).snap.downloaded = 0 ∧
      (progressAfter fiveBytes (some ⟨[0x40]⟩) []).snap.downloaded = 4 ∧
      (progressAfter fiveBytes (some ⟨[0x40]⟩) [0]).snap.downloaded = 8 ∧
      (progressAfter fiveBytes (some ⟨[0x40]⟩) [0]).snap.total = 5 ∧
      left (some (progressAfter fiveBytes (some ⟨[0x40]⟩) [0])) = -3 :=
  ⟨wellFormed_fiveBytes, by decide, by decide, by decide, by decide, by decide, by decide⟩

/-! ## The counter along a run -/

/-- `Add` is called for each result that was written. -/
def State.progress (info : Info) (haveBF : Option Bitfield) (s : State) : Progress :=
  (initialProgress info haveBF).addAll (s.written.map fun r => r.data.length)

section
variable {sha1 : Bytes → Bytes} {info : Info} {haveBF : Option Bitfield} {s t : State}

/-- The results that are added are those of different pieces that were not there, and each
has the length of its piece. -/
theorem Inv.progress_eq {skipMask : Option Bitfield}
    (hinv : Inv sha1 (pieceList info haveBF skipMask) s) (hstatus : s.status ≠ .failed) :
    s.progress info haveBF = progressAfter info haveBF (s.written.map PieceResult.index) ∧
      ∀ i ∈ s.written.map PieceResult.index,
        i < numPieces info ∧ inBitfield haveBF i = false := by
  have hlength : ∀ r ∈ s.written,
      r.data.length = (pieceLengthAt info (totalSize info) r.index).toNat := by
    intro r hr
    obtain ⟨pw, hpw, hindex, hlen, -⟩ := hinv.written_ok hstatus r hr
    rw [(pieceList_hash hpw).2, hindex] at hlen
    omega
  refine ⟨?_, fun i hi => ?_⟩
  · rw [State.progress, progressAfter, List.map_map]
    exact congrArg _ (List.map_congr_left hlength)
  · obtain ⟨r, hr, rfl⟩ := List.mem_map.mp hi
    obtain ⟨pw, hpw, hindex, -⟩ := hinv.written_ok hstatus r hr
    have hmem := mem_pieceList.mp (List.mem_map_of_mem hpw)
    rw [hindex] at hmem
    exact ⟨hmem.1, hmem.2.1⟩

/-- Along a run in which no `Complete` finds its piece done, the counter has the pieces that
were there and those that have been written. -/
theorem run_progress (h : WellFormed info) (hest : Estimable info haveBF)
    {skipMask : Option Bitfield} {prioritizeFirstLast sequential : Bool} {as : List Action}
    (hrun : exec (step sha1) (start info haveBF skipMask prioritizeFirstLast sequential) as =
      some s)
    (hrace : Guarded (step sha1) NoRace
      (start info haveBF skipMask prioritizeFirstLast sequential) as)
    (hstatus : s.status ≠ .failed) :
    (s.progress info haveBF).downloaded = pieceBytes info (heldPieces info haveBF) +
      pieceBytes info (s.written.map PieceResult.index) := by
  have hinv := exec_inv (start_inv sha1 info haveBF skipMask prioritizeFirstLast sequential)
    hrace hrun
  obtain ⟨hprogress, hnew⟩ := hinv.progress_eq hstatus
  rw [hprogress]
  exact h.progressAfter_downloaded hest (hinv.written_nodup hstatus) hnew

theorem run_progress_twoPieces :
    ∃ s, exec (step id) (start twoPieces none none false false) singleRun = some s ∧
      (s.progress twoPieces none).downloaded = pieceBytes twoPieces (heldPieces twoPieces none) +
        pieceBytes twoPieces (s.written.map PieceResult.index) := by
  have hstatus : (exec (step id) (start twoPieces none none false false) singleRun).map
      State.status = some .success := by decide
  obtain ⟨s, hs, hsuccess⟩ := Option.map_eq_some_iff.mp hstatus
  have hwell : WellFormed twoPieces :=
    ⟨by decide, ⟨by decide, by decide, by decide⟩, by decide, by decide⟩
  exact ⟨s, hs, run_progress hwell (by decide) hs (by decide) (by rw [hsuccess]; decide)⟩

end

end Stor.Download
