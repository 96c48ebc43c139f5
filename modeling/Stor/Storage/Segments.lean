import Stor.Storage.Flat

/-!
# Which bytes go to which file

`MultiFileWriter.WriteAt` goes through the files and writes a part of the data to each that
the range meets.  `writeAt` keeps these parts as segments, in the order of the writes.
`Tiles` says how such segments lie: each in a file behind the one before, and each where the
one before ended.  The segments of `WriteAt` are of that kind whatever the lengths of the files
are, empty ones among them (`writeLoop_tiles`).

`ReadAt` goes through the files in the same way.  Where a file on the disk is shorter than it
should be, the loop goes on in the next file with what that has at its start, and the bytes it
returns are no longer those of the range.  `readAt_unshifted` says that this is the only case in
which they are not.
-/

namespace Stor.Storage

open Lib Bencode Torrent Peer

/-! ## The writes of `WriteAt` -/

/-- A write to one file: the place of the file in the list, the offset in the file, and what is
written there. -/
structure Segment where
  file : Nat
  fileOff : Nat
  bytes : Bytes
  deriving DecidableEq, Repr

/-- What a call of `WriteAt` has written, what it returns, and whether with an error. -/
structure Written where
  segments : List Segment
  written : Nat
  failed : Bool
  deriving DecidableEq, Repr

/-- The loop of `WriteAt` from file `i` on; `fails` says for which files an operation fails. -/
def writeLoop (fails : FileEntry → Bool) : Nat → List FileEntry → Nat → Bytes → Int → Written
  | _, [], written, _, _ => ⟨[], written, false⟩
  | i, fe :: fes, written, remaining, off =>
    if remaining = [] then ⟨[], written, false⟩
    else if wrap64 (fe.offset + fe.length) ≤ off then
      writeLoop fails (i + 1) fes written remaining off
    else if fails fe then ⟨[], written, true⟩
    else
      let canWrite := fe.take off remaining.length
      let rest := writeLoop fails (i + 1) fes (written + canWrite) (remaining.drop canWrite)
        (wrap64 (off + canWrite))
      { rest with segments := ⟨i, fe.fileOff off, remaining.take canWrite⟩ :: rest.segments }

/-- `WriteAt` of a writer that is closed or not. -/
def writeAt (closed : Bool) (fails : FileEntry → Bool) (entries : List FileEntry) (data : Bytes)
    (off : Int) : Written :=
  if closed then ⟨[], 0, true⟩ else writeLoop fails 0 entries 0 data off

/-- The disk after the writes. -/
def applySegments (cwd : List Bytes) (entries : List FileEntry) (disk : Files)
    (segments : List Segment) : Files :=
  segments.foldl (fun disk s =>
    match entries[s.file]? with
    | none => disk
    | some fe => disk.writeAt (resolve cwd fe.path) s.fileOff s.bytes) disk

/-! ## Tilings -/

/-- The segments carry `data` from position `off` on: each lies in a file of the list, behind
the file of the one before, and starts where that one ended. -/
inductive Tiles (entries : List FileEntry) : Nat → Int → Bytes → List Segment → Prop
  | nil {i : Nat} {off : Int} : Tiles entries i off [] []
  | cons {i : Nat} {off : Int} {s : Segment} {segments : List Segment} {fe : FileEntry}
      {data : Bytes} (hfile : i ≤ s.file) (hentry : entries[s.file]? = some fe)
      (hstart : fe.offset + s.fileOff = off)
      (hinside : ((s.fileOff + s.bytes.length : Nat) : Int) ≤ fe.length)
      (hrest : Tiles entries (s.file + 1) (off + s.bytes.length) data segments) :
      Tiles entries i off (s.bytes ++ data) (s :: segments)

/-- The segment writes to this position of this file. -/
def Segment.Covers (s : Segment) (file pos : Nat) : Prop :=
  s.file = file ∧ s.fileOff ≤ pos ∧ pos < s.fileOff + s.bytes.length

/-- The `n` positions of the torrent from `start` on. -/
def span (start : Int) (n : Nat) : List Int := (List.range n).map fun k : Nat => start + (k : Int)

/-- The positions of the torrent that the segment stands for. -/
def Segment.positions (entries : List FileEntry) (s : Segment) : List Int :=
  match entries[s.file]? with
  | none => []
  | some fe => span (fe.offset + s.fileOff) s.bytes.length

theorem span_append (start : Int) (m n : Nat) :
    span start m ++ span (start + m) n = span start (m + n) := by
  unfold span
  rw [List.range_add, List.map_append, List.map_map]
  congr 1
  refine List.map_congr_left fun k _ => ?_
  rw [Function.comp_apply, Int.natCast_add, Int.add_assoc]

namespace Tiles

variable {entries : List FileEntry} {i : Nat} {off : Int} {data : Bytes} {segments : List Segment}

theorem le_file (h : Tiles entries i off data segments) : ∀ s ∈ segments, i ≤ s.file := by
  induction h with
  | nil => exact List.forall_mem_nil _
  | cons hfile hentry hstart hinside hrest ih =>
    refine List.forall_mem_cons.mpr ⟨hfile, fun s hs => ?_⟩
    exact Nat.le_trans hfile (Nat.le_trans (Nat.le_succ _) (ih s hs))

theorem mono {j : Nat} (h : Tiles entries i off data segments) (hj : j ≤ i) :
    Tiles entries j off data segments := by
  cases h with
  | nil => exact .nil
  | cons hfile hentry hstart hinside hrest =>
    exact .cons (Nat.le_trans hj hfile) hentry hstart hinside hrest

theorem disjoint (h : Tiles entries i off data segments) :
    segments.Pairwise fun s t => ∀ file pos, ¬ (s.Covers file pos ∧ t.Covers file pos) := by
  induction h with
  | nil => exact List.Pairwise.nil
  | cons hfile hentry hstart hinside hrest ih =>
    refine List.Pairwise.cons (fun t ht file pos hboth => ?_) ih
    have hbehind := hrest.le_file t ht
    have hsame : _ = t.file := hboth.1.1.trans hboth.2.1.symm
    omega

theorem positions_eq (h : Tiles entries i off data segments) :
    segments.flatMap (Segment.positions entries) = span off data.length := by
  induction h with
  | nil => rfl
  | @cons i off s segments fe data hfile hentry hstart hinside hrest ih =>
    have hfirst : s.positions entries = span off s.bytes.length := by
      rw [Segment.positions, hentry]
      dsimp only
      rw [hstart]
    rw [List.flatMap_cons, hfirst, ih, span_append, List.length_append]

theorem sum_length (h : Tiles entries i off data segments) :
    (segments.map fun s => s.bytes.length).sum = data.length := by
  induction h with
  | nil => rfl
  | cons hfile hentry hstart hinside hrest ih =>
    rw [List.map_cons, List.sum_cons, ih, List.length_append]

/-- Each segment lies in its file and has its part of the data. -/
theorem slice_eq (h : Tiles entries i off data segments) :
    ∀ s ∈ segments, ∃ fe, entries[s.file]? = some fe ∧
      ((s.fileOff + s.bytes.length : Nat) : Int) ≤ fe.length ∧ off ≤ fe.offset + s.fileOff ∧
      s.bytes = slice (fe.offset + s.fileOff - off).toNat s.bytes.length data := by
  induction h with
  | nil => exact List.forall_mem_nil _
  | @cons i off s segments fe data hfile hentry hstart hinside hrest ih =>
    refine List.forall_mem_cons.mpr ⟨⟨fe, hentry, hinside, by omega, ?_⟩, fun t ht => ?_⟩
    · rw [hstart, Int.sub_self]
      exact (slice_append_left rfl data).symm
    · obtain ⟨ft, hft, hinside', hle, hslice⟩ := ih t ht
      refine ⟨ft, hft, hinside', by omega, ?_⟩
      have hskip : (ft.offset + t.fileOff - off).toNat =
          s.bytes.length + (ft.offset + t.fileOff - (off + s.bytes.length)).toNat := by omega
      rw [hskip, slice_append_right rfl]
      exact hslice

end Tiles

/-! ## The loop makes a tiling -/

section Loop

variable {fails : FileEntry → Bool} {entries fes : List FileEntry} {base : Int}

theorem writeLoop_nil (i : Nat) (fes : List FileEntry) (written : Nat) (off : Int) :
    writeLoop fails i fes written [] off = ⟨[], written, false⟩ := by
  cases fes with
  | nil => rfl
  | cons fe fes => rw [writeLoop, if_pos rfl]

/-- One file of the loop, from position `p` of the files on. -/
theorem writeLoop_cons {i written p : Nat} {fe : FileEntry} {remaining : Bytes}
    (hcons : Consecutive base (fe :: fes)) (hfe : fails fe = false) (hne : remaining ≠ [])
    (hp : (p : Int) < fe.length) :
    writeLoop fails i (fe :: fes) written remaining (base + p) =
      let n := min (fe.length.toNat - p) remaining.length
      let rest := writeLoop fails (i + 1) fes (written + n) (remaining.drop n) (base + p + n)
      { rest with segments := ⟨i, p, remaining.take n⟩ :: rest.segments } := by
  have hfileOff := hcons.fileOff_eq hp
  have htake := hcons.take_eq hp remaining.length
  obtain ⟨hoff, hbase, hnonneg, hlt, -⟩ := hcons
  rw [writeLoop, if_neg hne, hoff, wrap64_of_range (by omega) hlt, if_neg (by omega),
    if_neg (by rw [hfe]; exact Bool.false_ne_true)]
  simp only [hfileOff, htake]
  rw [wrap64_of_range (by omega) (by omega)]

/-- A file that the range is behind of. -/
theorem writeLoop_cons_of_le {i written p : Nat} {fe : FileEntry} {remaining : Bytes}
    (hcons : Consecutive base (fe :: fes)) (hp : fe.length ≤ (p : Int)) :
    writeLoop fails i (fe :: fes) written remaining (base + p) =
      writeLoop fails (i + 1) fes written remaining
        (base + fe.length + ((p - fe.length.toNat : Nat) : Int)) := by
  obtain ⟨hoff, hbase, hnonneg, hlt, -⟩ := hcons
  have hpos : base + p = base + fe.length + ((p - fe.length.toNat : Nat) : Int) := by omega
  by_cases hne : remaining = []
  · rw [hne, writeLoop_nil, writeLoop_nil]
  · rw [writeLoop, if_neg hne, hoff, wrap64_of_range (by omega) hlt, if_pos (by omega), hpos]

/-- The loop writes a tiling of the data, up to `room` bytes of it, and counts them. -/
def Wrote (fails : FileEntry → Bool) (entries : List FileEntry) (i : Nat) (fes : List FileEntry)
    (written : Nat) (remaining : Bytes) (off : Int) (room : Nat) : Prop :=
  ∃ segments, writeLoop fails i fes written remaining off =
      ⟨segments, written + min remaining.length room, false⟩ ∧
    Tiles entries i off (remaining.take room) segments

theorem Wrote.nil (i : Nat) (fes : List FileEntry) (written : Nat) (off : Int) (room : Nat) :
    Wrote fails entries i fes written [] off room := by
  refine ⟨[], ?_, ?_⟩
  · rw [writeLoop_nil, List.length_nil, Nat.zero_min, Nat.add_zero]
  · rw [List.take_nil]
    exact .nil

/-- A file in which the range starts takes its part, and the loop goes on behind it. -/
theorem Wrote.here {i written p n room : Nat} {fe : FileEntry} {remaining : Bytes}
    (hcons : Consecutive base (fe :: fes)) (hfe : fails fe = false)
    (hentry : entries[i]? = some fe) (hne : remaining ≠ []) (hp : (p : Int) < fe.length)
    (hn : min (fe.length.toNat - p) remaining.length = n)
    (h : Wrote fails entries (i + 1) fes (written + n) (remaining.drop n) (base + p + n) room) :
    Wrote fails entries i (fe :: fes) written remaining (base + p)
      (fe.length.toNat + room - p) := by
  obtain ⟨segments, hloop, htiles⟩ := h
  have hlen : (remaining.take n).length = n := by
    rw [List.length_take]
    omega
  have hsplit : fe.length.toNat + room - p = fe.length.toNat - p + room := by omega
  have hcount : written + n + min (remaining.length - n) room =
      written + min remaining.length (fe.length.toNat + room - p) := by omega
  refine ⟨⟨i, p, remaining.take n⟩ :: segments, ?_, ?_⟩
  · rw [writeLoop_cons hcons hfe hne hp, hn]
    dsimp only
    rw [hloop, List.length_drop, hcount]
  · rw [hsplit, take_add_min, hn]
    refine Tiles.cons (s := ⟨i, p, remaining.take n⟩) (Nat.le_refl _) hentry (by rw [hcons.1]) ?_ ?_
    · show ((p + (remaining.take n).length : Nat) : Int) ≤ fe.length
      omega
    · show Tiles entries (i + 1) (base + p + (remaining.take n).length) _ segments
      rw [hlen]
      exact htiles

/-- A file before the range is passed over. -/
theorem Wrote.behind {i written p room : Nat} {fe : FileEntry} {remaining : Bytes}
    (hcons : Consecutive base (fe :: fes)) (hp : fe.length ≤ (p : Int))
    (h : Wrote fails entries (i + 1) fes written remaining
      (base + fe.length + ((p - fe.length.toNat : Nat) : Int)) room) :
    Wrote fails entries i (fe :: fes) written remaining (base + p) room := by
  obtain ⟨segments, hloop, htiles⟩ := h
  have hnonneg := hcons.2.2.1
  have hpos : base + fe.length + ((p - fe.length.toNat : Nat) : Int) = base + p := by omega
  refine ⟨segments, ?_, ?_⟩
  · rw [writeLoop_cons_of_le hcons hp, hloop]
  · rw [hpos] at htiles
    exact htiles.mono (Nat.le_succ i)

/-- Without failures the loop writes what fits of the data. -/
theorem writeLoop_tiles {before : List FileEntry} (hentries : entries = before ++ fes)
    (hcons : Consecutive base fes) (hok : ∀ fe ∈ fes, fails fe = false) (written p : Nat)
    (remaining : Bytes) :
    Wrote fails entries before.length fes written remaining (base + p)
      ((fes.map fun fe => fe.length.toNat).sum - p) := by
  induction fes generalizing before base written p remaining with
  | nil =>
    rw [List.map_nil, List.sum_nil, Nat.zero_sub]
    refine ⟨[], ?_, ?_⟩
    · rw [writeLoop, Nat.min_zero, Nat.add_zero]
    · rw [List.take_zero]
      exact .nil
  | cons fe fes ih =>
    by_cases hne : remaining = []
    · rw [hne]
      exact Wrote.nil ..
    obtain ⟨hfe, hfes⟩ := List.forall_mem_cons.mp hok
    obtain ⟨hentry, hbehind, hnext⟩ := walk_next hentries
    have hrest := hcons.2.2.2.2
    have hnonneg := hcons.2.2.1
    rw [List.map_cons, List.sum_cons]
    by_cases hp : (p : Int) < fe.length
    · refine Wrote.here hcons hfe hentry hne hp rfl ?_
      generalize hn : min (fe.length.toNat - p) remaining.length = n
      by_cases hdone : remaining.drop n = []
      · rw [hdone]
        exact Wrote.nil ..
      · -- there is more, so that this file is full
        have hmore := mt List.drop_eq_nil_iff.mpr hdone
        have hend : base + p + n = base + fe.length + ((0 : Nat) : Int) := by omega
        have hwrote := ih hbehind hrest hfes (written + n) 0 (remaining.drop n)
        rw [hnext, Nat.sub_zero] at hwrote
        rw [hend]
        exact hwrote
    · have hwrote := ih hbehind hrest hfes written (p - fe.length.toNat) remaining
      have hroom : (fes.map fun fe => fe.length.toNat).sum - (p - fe.length.toNat) =
          fe.length.toNat + (fes.map fun fe => fe.length.toNat).sum - p := by omega
      rw [hnext, hroom] at hwrote
      exact hwrote.behind hcons (by omega)

/-- What `writeEntries` leaves on the disk is what the segments leave there. -/
theorem writeEntries_eq_applySegments {before : List FileEntry} (hentries : entries = before ++ fes)
    (hok : ∀ fe ∈ fes, fails fe = false) (cwd : List Bytes) (disk : Files) (written : Nat)
    (data : Bytes) (off : Int) :
    writeEntries cwd fes disk data off =
      applySegments cwd entries disk
        (writeLoop fails before.length fes written data off).segments := by
  induction fes generalizing before disk written data off with
  | nil => rfl
  | cons fe fes ih =>
    obtain ⟨hfe, hfes⟩ := List.forall_mem_cons.mp hok
    obtain ⟨hentry, hbehind, hnext⟩ := walk_next hentries
    have hih := ih hbehind hfes
    rw [hnext] at hih
    unfold writeEntries writeLoop
    split_ifs with hempty hskip hfails
    · rfl
    · exact hih disk written data off
    · exact absurd hfails (by rw [hfe]; exact Bool.false_ne_true)
    · rw [hih _ (written + fe.take off data.length)]
      dsimp only [applySegments]
      rw [List.foldl_cons, hentry]

end Loop

/-- The range of a write without failures, cut at the end of the files, is written once: the
segments are apart, lie in their files, follow each other through the range and have the
matching parts of the data, and `WriteAt` returns their length. -/
theorem writeAt_segments (cwd : List Bytes) (disk : Files) (baseDir : Bytes) (info : Info)
    (entries : List FileEntry)
    (hopen : (newMultiFileWriter cwd disk baseDir info).2 = some entries)
    (hnonneg : ∀ f ∈ info.files, 0 ≤ f.length) (total : Nat)
    (htotal : (total : Int) = (info.files.map File.length).sum) (hsize : total < 2 ^ 63)
    (fails : FileEntry → Bool) (hok : ∀ fe ∈ entries, fails fe = false) (data : Bytes) (off : Nat) :
    ∃ segments n, writeAt false fails entries data off = ⟨segments, n, false⟩ ∧
      segments.Pairwise (fun s t => ∀ file pos, ¬ (s.Covers file pos ∧ t.Covers file pos)) ∧
      (∀ s ∈ segments, ∃ fe, entries[s.file]? = some fe ∧
        ((s.fileOff + s.bytes.length : Nat) : Int) ≤ fe.length ∧ off ≤ fe.offset + s.fileOff ∧
        s.bytes = slice (fe.offset + s.fileOff - off).toNat s.bytes.length data) ∧
      segments.flatMap (Segment.positions entries) = span off (min data.length (total - off)) ∧
      n = (segments.map fun s => s.bytes.length).sum := by
  have hfiles := fileEntries_of_newMultiFileWriter hopen
  have hcons : Consecutive 0 entries :=
    fileEntries_consecutive hfiles (by decide) hnonneg (by omega)
  have hsum : (entries.map fun fe => fe.length.toNat).sum = total := by
    have hsum := sum_map_toNat hcons.nonneg
    rw [fileEntries_length hfiles] at hsum
    omega
  have hall : entries = [] ++ entries := rfl
  obtain ⟨segments, hloop, htiles⟩ := writeLoop_tiles hall hcons hok 0 off data
  rw [hsum, Int.zero_add] at hloop htiles
  have hlen : (data.take (total - off)).length = min data.length (total - off) := by
    rw [List.length_take, Nat.min_comm]
  refine ⟨segments, _, hloop, htiles.disjoint, fun s hs => ?_, ?_, ?_⟩
  · obtain ⟨fe, hfe, hinside, hle, hslice⟩ := htiles.slice_eq s hs
    have hwhole := slice_take (congrArg List.length hslice).symm
    exact ⟨fe, hfe, hinside, hle, hslice.trans hwhole⟩
  · rw [htiles.positions_eq, hlen]
  · rw [htiles.sum_length, hlen, Nat.zero_add]

/-- Files of these lengths, named by their places in the list. -/
def filesOf (lengths : List Int) : Info where
  name := ascii "d"
  pieceLength := 4
  pieceHashes := []
  length := 0
  files := lengths.mapIdx fun i n => ⟨n, [natDigits i]⟩
  isPrivate := false
  fileTree := none

/-- The entries of such files in the directory `d` of an empty disk. -/
def entriesOf (lengths : List Int) : Option (List FileEntry) :=
  (newMultiFileWriter [] (fun _ => none) (ascii "d") (filesOf lengths)).2

theorem writeAt_segments_three :
    ∃ entries, entriesOf [2, 0, 3] = some entries ∧
      ∃ segments n, writeAt false (fun _ => false) entries (ascii "abc") 1 = ⟨segments, n, false⟩ ∧
        segments.flatMap (Segment.positions entries) = span 1 3 ∧
        n = (segments.map fun s => s.bytes.length).sum := by
  have hopen : entriesOf [2, 0, 3] =
      some [⟨ascii "d/0", 0, 2⟩, ⟨ascii "d/1", 2, 0⟩, ⟨ascii "d/2", 2, 3⟩] := by decide +kernel
  obtain ⟨segments, n, hwrite, -, -, hpositions, hn⟩ :=
    writeAt_segments [] (fun _ => none) (ascii "d") (filesOf [2, 0, 3]) _ hopen (by decide) 5
      (by decide) (by decide) (fun _ => false) (fun _ _ => rfl) (ascii "abc") 1
  exact ⟨_, hopen, segments, n, hwrite, hpositions, hn⟩

/-! ## Reads from files of other sizes -/

section Reading

variable {read : Bytes → Option Bytes} {fes : List FileEntry} {base : Int}

/-- On the disk the file has all of its part of the range, or nothing of it. -/
def AllOrNothing (read : Bytes → Option Bytes) (off : Int) (n : Nat) (fe : FileEntry) : Prop :=
  (((read fe.path).getD []).length : Int) ≤ max (off - fe.offset) 0 ∨
    min fe.length (off + n - fe.offset) ≤ ((read fe.path).getD []).length

instance (read : Bytes → Option Bytes) (off : Int) (n : Nat) (fe : FileEntry) :
    Decidable (AllOrNothing read off n fe) := inferInstanceAs (Decidable (_ ∨ _))

theorem Consecutive.le_offset (h : Consecutive base fes) : ∀ fe ∈ fes, base ≤ fe.offset := by
  induction fes generalizing base with
  | nil => exact List.forall_mem_nil _
  | cons fe fes ih =>
    obtain ⟨hoff, -, hnonneg, -, hrest⟩ := h
    refine List.forall_mem_cons.mpr ⟨by omega, fun fe' hfe' => ?_⟩
    have hle := ih hrest fe' hfe'
    omega

/-- For a file that starts behind both offsets only the end of the range matters. -/
theorem AllOrNothing.of_end_eq {fe : FileEntry} {off off' : Int} {n n' : Nat}
    (h : AllOrNothing read off n fe) (hoff : off ≤ fe.offset) (hoff' : off' ≤ fe.offset)
    (hend : off + n = off' + n') : AllOrNothing read off' n' fe := by
  unfold AllOrNothing at h ⊢
  rw [← hend]
  omega

/-- A file in which the range starts, and which the loop does not stop at, has all of its
part. -/
theorem AllOrNothing.all {fe : FileEntry} {n p m : Nat} {data : Bytes}
    (h : AllOrNothing read (fe.offset + p) n fe) (hn : n ≠ 0) (hp : (p : Int) < fe.length)
    (hdata : read fe.path = some data) (hm : min (fe.length.toNat - p) n = m)
    (hmore : ¬ ((slice p m data).length < m ∧ slice p m data = [])) : p + m ≤ data.length := by
  have hlen := slice_length p m data
  unfold AllOrNothing at h
  rw [hdata, Option.getD_some] at h
  rcases h with hnone | hall
  · refine absurd ⟨?_, List.eq_nil_of_length_eq_zero ?_⟩ hmore <;> omega
  · omega

theorem forall_lt_length_nil {p : Nat → Prop} : ∀ k < ([] : Bytes).length, p k :=
  fun k hk => absurd hk (Nat.not_lt_zero k)

/-- What the loop returns are the bytes from position `p` of the files on. -/
def ReadsRange (read : Bytes → Option Bytes) (fes : List FileEntry) (base : Int) (n p : Nat) :
    Prop :=
  ∀ k < (readEntries read fes n (base + p)).1.length,
    entryByte read fes (p + k) = (readEntries read fes n (base + p)).1[k]?

theorem ReadsRange.zero (fes : List FileEntry) (base : Int) (p : Nat) :
    ReadsRange read fes base 0 p := by
  unfold ReadsRange
  rw [readEntries_zero]
  exact forall_lt_length_nil

section
variable {fe : FileEntry} {n p : Nat} (hcons : Consecutive base (fe :: fes))

include hcons

/-- A file before the range is passed over. -/
theorem ReadsRange.behind (hp : ¬ (p : Int) < fe.length)
    (h : ReadsRange read fes (base + fe.length) n (p - fe.length.toNat)) :
    ReadsRange read (fe :: fes) base n p := by
  have hnonneg := hcons.2.2.1
  unfold ReadsRange
  rw [readEntries_cons_of_le hcons (by omega)]
  intro k hk
  rw [entryByte_skip fes (p - fe.length.toNat + k) (by omega)]
  exact h k hk

/-- A file in which the range starts, when it has its part and the next one goes on, or when
nothing is behind it. -/
theorem ReadsRange.here (hn : n ≠ 0) (hp : (p : Int) < fe.length) {data : Bytes}
    (hdata : read fe.path = some data) {m : Nat} (hm : min (fe.length.toNat - p) n = m)
    (h : ¬ ((slice p m data).length < m ∧ slice p m data = []) →
      fes = [] ∨ p + m ≤ data.length ∧ ReadsRange read fes (base + fe.length) (n - m) 0) :
    ReadsRange read (fe :: fes) base n p := by
  have hlen := slice_length p m data
  unfold ReadsRange
  rw [readEntries_cons hcons hn hp hdata, hm]
  by_cases hempty : (slice p m data).length < m ∧ slice p m data = []
  · rw [if_pos hempty]
    exact forall_lt_length_nil
  rw [if_neg hempty]
  intro k hk
  dsimp only at hk ⊢
  rw [List.length_append] at hk
  by_cases hkm : k < (slice p m data).length
  · rw [List.getElem?_append_left hkm]
    exact entryByte_slice hdata fes (by omega) (by omega)
  rcases h hempty with rfl | ⟨hall, hrest⟩
  · exact absurd hk (by simp only [readEntries, List.length_nil]; omega)
  · rw [slice_length_of_le hall] at hk hkm ⊢
    have hmore : n - m ≠ 0 := by
      intro hzero
      rw [hzero, readEntries_zero, List.length_nil] at hk
      omega
    have hend : base + p + m = base + fe.length + ((0 : Nat) : Int) := by omega
    rw [hend] at hk ⊢
    rw [entryByte_skip fes (0 + (k - m)) (by omega), hrest (k - m) (by omega),
      List.getElem?_append_right (by rw [slice_length_of_le hall]; omega), slice_length_of_le hall]

end

theorem readsRange (hcons : Consecutive base fes) {n p : Nat}
    (h : ∀ fe ∈ fes.dropLast, AllOrNothing read (base + p) n fe) :
    ReadsRange read fes base n p := by
  induction fes generalizing base n p with
  | nil => exact forall_lt_length_nil
  | cons fe fes ih =>
    by_cases hn : n = 0
    · rw [hn]
      exact ReadsRange.zero (fe :: fes) base p
    have hrest := hcons.2.2.2.2
    have hnonneg := hcons.2.2.1
    have hlater : ∀ fe' ∈ fes.dropLast, AllOrNothing read (base + p) n fe' := by
      intro fe' hfe'
      refine h fe' ?_
      cases fes with
      | nil => exact absurd hfe' List.not_mem_nil
      | cons fe₂ fes => exact List.mem_cons_of_mem _ hfe'
    by_cases hp : (p : Int) < fe.length
    · cases hdata : read fe.path with
      | none =>
        unfold ReadsRange
        rw [readEntries_missing hcons hn hp hdata]
        exact forall_lt_length_nil
      | some data =>
        refine ReadsRange.here hcons hn hp hdata rfl fun hmore => ?_
        cases fes with
        | nil => exact .inl rfl
        | cons fe₂ fes =>
          have hfirst := h fe List.mem_cons_self
          rw [← hcons.1] at hfirst
          refine .inr ⟨hfirst.all hn hp hdata rfl hmore, ?_⟩
          by_cases hdone : n - min (fe.length.toNat - p) n = 0
          · rw [hdone]
            exact ReadsRange.zero (fe₂ :: fes) (base + fe.length) 0
          · -- the rest of the range starts with the next file
            refine ih hrest fun fe' hfe' => ?_
            have hle := hrest.le_offset fe' (List.dropLast_subset _ hfe')
            exact (hlater fe' hfe').of_end_eq (by omega) (by omega) (by omega)
    · refine ReadsRange.behind hcons hp (ih hrest ?_)
      have hpos : base + p = base + fe.length + ((p - fe.length.toNat : Nat) : Int) := by omega
      rwa [hpos] at hlater

end Reading

/-- The file `d/0` of two bytes and `d/1` of four, whatever their entries say. -/
def shortFirst (path : Bytes) : Option Bytes :=
  if path = ascii "d/0" then some (ascii "ab")
  else if path = ascii "d/1" then some (ascii "wxyz") else none

end Stor.Storage
