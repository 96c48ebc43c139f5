import Stor.Lib.Disk
import Stor.Lib.Path
import Stor.Storage.Geometry

/-!
# What a torrent is stored in

`storage/multifile.go` and `storage/verify.go`: the file or the directory of files
that holds the bytes of a torrent, reads and writes at a position of the whole,
and the check of the pieces that are there.

`byteAt` says which byte of which file a position stands for.  The loop of
`ReadAt` follows it as long as every file has its bytes (`readTarget_of_held`).  A
file that ends early makes the loop go on in the next one, with the bytes that it
reads there moved to the front.
-/

namespace Stor.Storage

open Lib Torrent Peer

structure FileEntry where
  path : Bytes
  offset : Int
  length : Int
  deriving DecidableEq, Repr

/-- An opened file, or an opened `MultiFileWriter`. -/
inductive Target where
  | file (path : Bytes)
  | files (entries : List FileEntry)
  deriving DecidableEq, Repr

/-! ## `NewMultiFileWriter` -/

def entryPath (baseDir : Bytes) (f : File) : Bytes := clean (joinPath [baseDir, joinPath f.path])

/-- The check against path traversal. -/
def insideBase (baseDir fullPath : Bytes) : Bool := (clean baseDir ++ [slash]).isPrefixOf fullPath

/-- The loop over the files: each gets its directory, up to the first failure. -/
def addEntries (cwd : List Bytes) (baseDir : Bytes) :
    List File → Int → Disk Bytes UInt8 → Disk Bytes UInt8 × Option (List FileEntry)
  | [], _, disk => (disk, some [])
  | f :: fs, offset, disk =>
    let fullPath := entryPath baseDir f
    if insideBase baseDir fullPath then
      match disk.mkdirAll (resolve cwd (dirName fullPath)) with
      | none => (disk, none)
      | some disk =>
        let (disk, rest) := addEntries cwd baseDir fs (wrap64 (offset + f.length)) disk
        (disk, rest.map fun es => ⟨fullPath, offset, f.length⟩ :: es)
    else (disk, none)

/-- The disk with the directories, and the entries unless it failed. -/
def newMultiFileWriter (cwd : List Bytes) (disk : Disk Bytes UInt8) (baseDir : Bytes)
    (info : Info) : Disk Bytes UInt8 × Option (List FileEntry) :=
  match disk.mkdirAll (resolve cwd baseDir) with
  | none => (disk, none)
  | some disk => addEntries cwd baseDir info.files 0 disk

/-- The entries alone, as the loop builds them. -/
def fileEntries (baseDir : Bytes) : List File → Int → Option (List FileEntry)
  | [], _ => some []
  | f :: fs, offset =>
    if insideBase baseDir (entryPath baseDir f) then
      (fileEntries baseDir fs (wrap64 (offset + f.length))).map fun es =>
        ⟨entryPath baseDir f, offset, f.length⟩ :: es
    else none

/-- What a torrent is stored in at `path`, unless a file's path leads out of it. -/
def targetOf (path : Bytes) (info : Info) : Option Target :=
  if isMultiFile info then (fileEntries path info.files 0).map .files else some (.file path)

/-! ## Reads and writes at a position of the whole -/

/-- Where the loops of `ReadAt` and `WriteAt` start in a file, and how much of `n`
bytes it takes. -/
def FileEntry.fileOff (fe : FileEntry) (off : Int) : Nat := (wrap64 (off - fe.offset)).toNat

def FileEntry.take (fe : FileEntry) (off : Int) (n : Nat) : Nat :=
  min (wrap64 (fe.length - fe.fileOff off)).toNat n

/-- The bytes that `MultiFileWriter.ReadAt` reads, and whether it returns an
error. -/
def readEntries (read : Bytes → Option Bytes) : List FileEntry → Nat → Int → Bytes × Bool
  | [], _, _ => ([], false)
  | fe :: fes, n, off =>
    if n = 0 then ([], false)
    else if wrap64 (fe.offset + fe.length) ≤ off then readEntries read fes n off
    else
      match read fe.path with
      | none => ([], true)
      | some data =>
        let block := slice (fe.fileOff off) (fe.take off n) data
        -- a short read is an error only when it read nothing
        if block.length < fe.take off n ∧ block = [] then ([], true)
        else
          let (rest, err) :=
            readEntries read fes (n - block.length) (wrap64 (off + block.length))
          (block ++ rest, err)

/-- The block of a read that fills its buffer without an error. -/
def readTarget (read : Bytes → Option Bytes) : Target → Nat → Int → Option Bytes
  | .file path, n, off =>
    match read path with
    | none => none
    | some data =>
      let block := slice off.toNat n data
      if off < 0 ∨ block.length < n then none else some block
  | .files entries, n, off =>
    let (block, err) := readEntries read entries n off
    if err ∨ block.length ≠ n then none else some block

/-- `MultiFileWriter.WriteAt` on open handles. -/
def writeEntries (cwd : List Bytes) : List FileEntry → Disk Bytes UInt8 → Bytes → Int →
    Disk Bytes UInt8
  | [], disk, _, _ => disk
  | fe :: fes, disk, data, off =>
    if data = [] then disk
    else if wrap64 (fe.offset + fe.length) ≤ off then writeEntries cwd fes disk data off
    else
      let n := fe.take off data.length
      writeEntries cwd fes (disk.writeAt (resolve cwd fe.path) (fe.fileOff off) (data.take n))
        (data.drop n) (wrap64 (off + n))

/-- `WriteAt` of the target; a file refuses a negative offset. -/
def writeTarget (cwd : List Bytes) (disk : Disk Bytes UInt8) (data : Bytes) (off : Int) :
    Target → Option (Disk Bytes UInt8)
  | .file path =>
    if off < 0 then none else some (disk.writeAt (resolve cwd path) off.toNat data)
  | .files entries => some (writeEntries cwd entries disk data off)

theorem writeEntries_none (cwd : List Bytes) {k : List Bytes} (entries : List FileEntry)
    {disk : Disk Bytes UInt8} (data : Bytes) (off : Int) (h : disk k = none) :
    writeEntries cwd entries disk data off k = none := by
  induction entries generalizing disk data off with
  | nil => exact h
  | cons fe fes ih =>
    unfold writeEntries
    split_ifs
    · exact h
    · exact ih data off h
    · exact ih _ _ (Disk.writeAt_none h)

/-- Writing creates nothing. -/
theorem writeTarget_none {cwd : List Bytes} {disk disk' : Disk Bytes UInt8} {data : Bytes}
    {off : Int} {target : Target} (h : writeTarget cwd disk data off target = some disk')
    {k : List Bytes} (hk : disk k = none) : disk' k = none := by
  cases target with
  | file path =>
    unfold writeTarget at h
    rw [Option.ite_none_left_eq_some, Option.some_inj] at h
    rw [← h.2]
    exact Disk.writeAt_none hk
  | files entries =>
    rw [← Option.some_inj.mp h]
    exact writeEntries_none cwd entries data off hk

/-! ## Which byte a position stands for -/

/-- The byte at position `p` of the files one after the other. -/
def entryByte (read : Bytes → Option Bytes) : List FileEntry → Nat → Option UInt8
  | [], _ => none
  | fe :: fes, p =>
    if p < fe.length.toNat then (read fe.path).bind fun data => data[p]?
    else entryByte read fes (p - fe.length.toNat)

def byteAt (read : Bytes → Option Bytes) : Target → Nat → Option UInt8
  | .file path, p => (read path).bind fun data => data[p]?
  | .files entries, p => entryByte read entries p

/-- All `n` bytes from `off` on are on the disk. -/
def Held (read : Bytes → Option Bytes) (t : Target) (off : Int) (n : Nat) : Prop :=
  0 ≤ off ∧ ∀ k < n, (byteAt read t (off.toNat + k)).isSome

instance (read : Bytes → Option Bytes) (t : Target) (off : Int) (n : Nat) :
    Decidable (Held read t off n) := inferInstanceAs (Decidable (_ ∧ _))

/-- The block is the `block.length` bytes from `off` on. -/
def BytesAre (read : Bytes → Option Bytes) (t : Target) (off : Int) (block : Bytes) : Prop :=
  0 ≤ off ∧ ∀ k < block.length, byteAt read t (off.toNat + k) = block[k]?

/-- The files follow each other without overflow. -/
def Consecutive : Int → List FileEntry → Prop
  | _, [] => True
  | base, fe :: fes =>
    fe.offset = base ∧ 0 ≤ base ∧ 0 ≤ fe.length ∧ base + fe.length < 2 ^ 63 ∧
      Consecutive (base + fe.length) fes

/-- Where the loops start in a file that holds position `p` behind `base`. -/
theorem Consecutive.fileOff_eq {base : Int} {fe : FileEntry} {fes : List FileEntry} {p : Nat}
    (h : Consecutive base (fe :: fes)) (hp : (p : Int) < fe.length) :
    fe.fileOff (base + p) = p := by
  obtain ⟨hoff, hbase, -, hlt, -⟩ := h
  rw [FileEntry.fileOff, hoff, wrap64_of_range (by omega) (by omega)]
  omega

theorem Consecutive.take_eq {base : Int} {fe : FileEntry} {fes : List FileEntry} {p : Nat}
    (h : Consecutive base (fe :: fes)) (hp : (p : Int) < fe.length) (n : Nat) :
    fe.take (base + p) n = min (fe.length.toNat - p) n := by
  have hfileOff := h.fileOff_eq hp
  obtain ⟨-, hbase, -, hlt, -⟩ := h
  rw [FileEntry.take, hfileOff, wrap64_of_range (by omega) (by omega)]
  omega

/-- The target's positions are those of its files. -/
def Target.Sound : Target → Prop
  | .file _ => True
  | .files entries => Consecutive 0 entries

theorem fileEntries_consecutive {baseDir : Bytes} {fs : List File} {base : Int}
    {es : List FileEntry} (h : fileEntries baseDir fs base = some es) (hbase : 0 ≤ base)
    (hnonneg : ∀ f ∈ fs, 0 ≤ f.length) (hsize : base + (fs.map File.length).sum < 2 ^ 63) :
    Consecutive base es := by
  induction fs generalizing base es with
  | nil =>
    rw [fileEntries, Option.some_inj] at h
    rw [← h]
    trivial
  | cons f fs ih =>
    have hf := hnonneg f List.mem_cons_self
    have hrest : 0 ≤ (fs.map File.length).sum := by
      refine List.sum_nonneg fun n hn => ?_
      obtain ⟨g, hg, rfl⟩ := List.mem_map.mp hn
      exact hnonneg g (List.mem_cons_of_mem _ hg)
    rw [List.map_cons, List.sum_cons] at hsize
    rw [fileEntries, wrap64_of_range (by omega) (by omega), Option.ite_none_right_eq_some,
      Option.map_eq_some_iff] at h
    obtain ⟨-, es', hes', rfl⟩ := h
    show base = base ∧ 0 ≤ base ∧ 0 ≤ f.length ∧ base + f.length < 2 ^ 63 ∧
      Consecutive (base + f.length) es'
    refine ⟨rfl, hbase, hf, by omega, ?_⟩
    exact ih hes' (by omega) (fun g hg => hnonneg g (List.mem_cons_of_mem _ hg)) (by omega)

theorem targetOf_sound {path : Bytes} {info : Info} {t : Target} (h : targetOf path info = some t)
    (hnonneg : ∀ f ∈ info.files, 0 ≤ f.length)
    (hsize : (info.files.map File.length).sum < 2 ^ 63) : t.Sound := by
  unfold targetOf at h
  split_ifs at h
  · obtain ⟨es, hes, rfl⟩ := Option.map_eq_some_iff.mp h
    exact fileEntries_consecutive hes (by decide) hnonneg (by omega)
  · rw [← Option.some_inj.mp h]
    trivial

theorem fileEntries_of_addEntries {cwd : List Bytes} {baseDir : Bytes} {fs : List File}
    {base : Int} {disk : Disk Bytes UInt8} {es : List FileEntry}
    (h : (addEntries cwd baseDir fs base disk).2 = some es) :
    fileEntries baseDir fs base = some es := by
  induction fs generalizing base disk es with
  | nil => exact h
  | cons f fs ih =>
    unfold addEntries at h
    unfold fileEntries
    simp only at h
    split_ifs at h with hin
    · rw [if_pos hin]
      cases hdir : disk.mkdirAll (resolve cwd (dirName (entryPath baseDir f))) with
      | none => simp [hdir] at h
      | some disk₁ =>
        simp only [hdir, Option.map_eq_some_iff] at h
        obtain ⟨es', hes', rfl⟩ := h
        rw [ih hes', Option.map_some]

theorem fileEntries_of_newMultiFileWriter {cwd : List Bytes} {baseDir : Bytes} {info : Info}
    {disk : Disk Bytes UInt8} {es : List FileEntry}
    (h : (newMultiFileWriter cwd disk baseDir info).2 = some es) :
    fileEntries baseDir info.files 0 = some es := by
  unfold newMultiFileWriter at h
  cases hdir : disk.mkdirAll (resolve cwd baseDir) with
  | none => simp [hdir] at h
  | some disk₁ =>
    rw [hdir] at h
    exact fileEntries_of_addEntries h

section Reading

variable {read : Bytes → Option Bytes}

theorem entryByte_of_lt {fe : FileEntry} {q : Nat} (hq : q < fe.length.toNat)
    (fes : List FileEntry) :
    entryByte read (fe :: fes) q = (read fe.path).bind fun data => data[q]? := by
  rw [entryByte, if_pos hq]

theorem entryByte_behind (fe : FileEntry) (fes : List FileEntry) (q : Nat) :
    entryByte read (fe :: fes) (fe.length.toNat + q) = entryByte read fes q := by
  rw [entryByte, if_neg (by omega), Nat.add_sub_cancel_left]

theorem entryByte_skip {fe : FileEntry} {q : Nat} (fes : List FileEntry) (p : Nat)
    (hq : q = fe.length.toNat + p) : entryByte read (fe :: fes) q = entryByte read fes p := by
  rw [hq, entryByte_behind]

/-- What a file has of a range that starts in it. -/
theorem entryByte_slice {fe : FileEntry} {data : Bytes} (hdata : read fe.path = some data)
    (fes : List FileEntry) {p m k : Nat} (hm : p + m ≤ fe.length.toNat) (hk : k < m) :
    entryByte read (fe :: fes) (p + k) = (slice p m data)[k]? := by
  rw [entryByte_of_lt (by omega), hdata, Option.bind_some, slice_getElem?, if_pos hk]

/-- A byte that is there lies in its file. -/
theorem exists_data_of_isSome {fe : FileEntry} {fes : List FileEntry} {q : Nat}
    (hq : q < fe.length.toNat) (h : (entryByte read (fe :: fes) q).isSome) :
    ∃ data, read fe.path = some data ∧ q < data.length := by
  rw [entryByte_of_lt hq] at h
  obtain ⟨b, hb⟩ := Option.isSome_iff_exists.mp h
  obtain ⟨data, hdata, hget⟩ := Option.bind_eq_some_iff.mp hb
  exact ⟨data, hdata, (List.getElem?_eq_some_iff.mp hget).1⟩

theorem readEntries_zero (fes : List FileEntry) (off : Int) :
    readEntries read fes 0 off = ([], false) := by
  cases fes with
  | nil => rfl
  | cons fe fes => rw [readEntries, if_pos rfl]

/-- One file of the loop of `ReadAt`, from position `p` of the files on: it takes what
it has of the block, and the loop goes on behind that. -/
theorem readEntries_cons {fe : FileEntry} {fes : List FileEntry} {base : Int} {n p : Nat}
    (hcons : Consecutive base (fe :: fes)) (hn : n ≠ 0) (hp : (p : Int) < fe.length) {data : Bytes}
    (hread : read fe.path = some data) :
    readEntries read (fe :: fes) n (base + p) =
      if (slice p (min (fe.length.toNat - p) n) data).length < min (fe.length.toNat - p) n ∧
          slice p (min (fe.length.toNat - p) n) data = [] then ([], true)
      else
        (slice p (min (fe.length.toNat - p) n) data ++
            (readEntries read fes (n - (slice p (min (fe.length.toNat - p) n) data).length)
              (base + p + (slice p (min (fe.length.toNat - p) n) data).length)).1,
          (readEntries read fes (n - (slice p (min (fe.length.toNat - p) n) data).length)
            (base + p + (slice p (min (fe.length.toNat - p) n) data).length)).2) := by
  have hfileOff := hcons.fileOff_eq hp
  have htake := hcons.take_eq hp n
  obtain ⟨hoff, hbase, hnonneg, hlt, -⟩ := hcons
  have hblock := slice_length p (min (fe.length.toNat - p) n) data
  rw [readEntries, if_neg hn, hoff, wrap64_of_range (by omega) hlt, if_neg (by omega), hread]
  simp only [hfileOff, htake]
  split_ifs
  · rfl
  · rw [wrap64_of_range (by omega) (by omega)]

/-- The loop stops at a file that is not there. -/
theorem readEntries_missing {fe : FileEntry} {fes : List FileEntry} {base : Int} {n p : Nat}
    (hcons : Consecutive base (fe :: fes)) (hn : n ≠ 0) (hp : (p : Int) < fe.length) (hdata : read fe.path = none) :
    readEntries read (fe :: fes) n (base + p) = ([], true) := by
  obtain ⟨hoff, hbase, -, hlt, -⟩ := hcons
  rw [readEntries, if_neg hn, hoff, wrap64_of_range (by omega) hlt, if_neg (by omega), hdata]

/-- A file that has all of its part of the block. -/
theorem readEntries_cons_of_lt {fe : FileEntry} {fes : List FileEntry} {base : Int} {n p : Nat}
    (hcons : Consecutive base (fe :: fes)) (hn : n ≠ 0) (hp : (p : Int) < fe.length) {data : Bytes}
    (hread : read fe.path = some data) (hlen : p + min (fe.length.toNat - p) n ≤ data.length) :
    readEntries read (fe :: fes) n (base + p) =
      (slice p (min (fe.length.toNat - p) n) data ++
          (readEntries read fes (n - min (fe.length.toNat - p) n)
            (base + p + min (fe.length.toNat - p) n)).1,
        (readEntries read fes (n - min (fe.length.toNat - p) n)
          (base + p + min (fe.length.toNat - p) n)).2) := by
  rw [readEntries_cons hcons hn hp hread, slice_length_of_le hlen, if_neg (by omega)]

/-- A file that the block is behind of. -/
theorem readEntries_cons_of_le {fe : FileEntry} {fes : List FileEntry} {base : Int} {n p : Nat}
    (hcons : Consecutive base (fe :: fes)) (hp : fe.length ≤ (p : Int)) :
    readEntries read (fe :: fes) n (base + p) =
      readEntries read fes n (base + fe.length + ((p - fe.length.toNat : Nat) : Int)) := by
  obtain ⟨hoff, hbase, hnonneg, hlt, -⟩ := hcons
  have hpos : base + p = base + fe.length + ((p - fe.length.toNat : Nat) : Int) := by omega
  by_cases hn : n = 0
  · rw [hn, readEntries_zero, readEntries_zero]
  · rw [readEntries, if_neg hn, hoff, wrap64_of_range (by omega) hlt, if_pos (by omega), hpos]

theorem readEntries_of_held {fes : List FileEntry} {base : Int} (hcons : Consecutive base fes)
    {n p : Nat} (hheld : ∀ k < n, (entryByte read fes (p + k)).isSome) :
    ∃ block, readEntries read fes n (base + p) = (block, false) ∧ block.length = n ∧
      ∀ k < n, entryByte read fes (p + k) = block[k]? := by
  induction fes generalizing base n p with
  | nil =>
    cases n with
    | zero => exact ⟨[], rfl, rfl, nofun⟩
    | succ n => simpa [entryByte] using hheld 0 (by omega)
  | cons fe fes ih =>
    have hwhole := hcons
    obtain ⟨hoff, hbase, hnonneg, hlt, hrest⟩ := hcons
    by_cases hn : n = 0
    · subst hn
      exact ⟨[], readEntries_zero _ _, rfl, nofun⟩
    by_cases hp : (p : Int) < fe.length
    · -- the block starts in this file
      generalize hm : min (fe.length.toNat - p) n = m
      obtain ⟨data, hdata, hlast⟩ :=
        exists_data_of_isSome (by omega) (hheld (m - 1) (by omega))
      have hlen : p + m ≤ data.length := by omega
      have hstep := readEntries_cons_of_lt (n := n) hwhole hn hp hdata (by rw [hm]; exact hlen)
      rw [hm] at hstep
      have hblock : (slice p m data).length = m := slice_length_of_le hlen
      obtain ⟨rest, hrestRead, hrestLen, hrestByte⟩ : ∃ rest,
          readEntries read fes (n - m) (base + p + m) = (rest, false) ∧ rest.length = n - m ∧
            ∀ k < n - m, entryByte read fes (0 + k) = rest[k]? := by
        by_cases hend : n - m = 0
        · rw [hend]
          exact ⟨[], readEntries_zero fes _, rfl, nofun⟩
        · have hpos : base + p + m = base + fe.length + ((0 : Nat) : Int) := by omega
          rw [hpos]
          refine ih hrest fun k hk => ?_
          have hbyte := hheld (m + k) (by omega)
          rwa [entryByte_skip fes (0 + k) (by omega)] at hbyte
      refine ⟨slice p m data ++ rest, ?_, ?_, ?_⟩
      · rw [hstep, hrestRead]
      · rw [List.length_append, hblock, hrestLen]
        omega
      · intro k hk
        by_cases hkm : k < m
        · rw [List.getElem?_append_left (by omega)]
          exact entryByte_slice hdata fes (by omega) hkm
        · rw [List.getElem?_append_right (by omega), hblock, ← hrestByte (k - m) (by omega)]
          exact entryByte_skip fes (0 + (k - m)) (by omega)
    · -- the block starts behind this file
      have hskip : ∀ k, entryByte read (fe :: fes) (p + k) =
          entryByte read fes (p - fe.length.toNat + k) :=
        fun k => entryByte_skip fes _ (by omega)
      obtain ⟨block, hblockRead, hblockLen, hblockByte⟩ :=
        ih hrest (n := n) (p := p - fe.length.toNat) fun k hk => hskip k ▸ hheld k hk
      refine ⟨block, by rw [readEntries_cons_of_le hwhole (by omega), hblockRead], hblockLen, ?_⟩
      intro k hk
      rw [hskip, hblockByte k hk]

theorem bytesAre_held {t : Target} {off : Int} {block : Bytes} (h : BytesAre read t off block) :
    Held read t off block.length := by
  refine ⟨h.1, fun k hk => ?_⟩
  rw [h.2 k hk, List.getElem?_eq_getElem hk]
  rfl

theorem readTarget_length {t : Target} {off : Int} {n : Nat} {block : Bytes}
    (h : readTarget read t n off = some block) : block.length = n := by
  cases t with
  | file path =>
    unfold readTarget at h
    cases hdata : read path with
    | none => simp [hdata] at h
    | some data =>
      simp only [hdata, Option.ite_none_left_eq_some, Option.some_inj] at h
      obtain ⟨hok, rfl⟩ := h
      have hle := slice_length off.toNat n data
      omega
  | files entries =>
    unfold readTarget at h
    simp only [Option.ite_none_left_eq_some, Option.some_inj] at h
    obtain ⟨hok, rfl⟩ := h
    exact not_not.mp fun hne => hok (.inr hne)

/-- Where all bytes are there, a read succeeds. -/
theorem readTarget_of_held {t : Target} (hsound : t.Sound) {off : Int} {n : Nat} (hn : n ≠ 0)
    (h : Held read t off n) : ∃ block, readTarget read t n off = some block := by
  obtain ⟨hoff, hheld⟩ := h
  cases t with
  | file path =>
    cases hdata : read path with
    | none =>
      have hfirst := hheld 0 (Nat.pos_of_ne_zero hn)
      rw [byteAt, hdata] at hfirst
      exact absurd hfirst Bool.false_ne_true
    | some data =>
      have hlast := hheld (n - 1) (by omega)
      rw [byteAt, hdata, Option.bind_some, Option.isSome_iff_ne_none, ne_eq,
        List.getElem?_eq_none_iff] at hlast
      have hlen := slice_length off.toNat n data
      refine ⟨slice off.toNat n data, ?_⟩
      simp only [readTarget, hdata]
      rw [if_neg (by omega)]
  | files entries =>
    obtain ⟨block, hread, hlen, -⟩ := readEntries_of_held hsound hheld
    rw [Int.zero_add, Int.toNat_of_nonneg hoff] at hread
    refine ⟨block, ?_⟩
    simp [readTarget, hread, hlen]

/-- Where every byte is there, a read returns just those. -/
theorem bytesAre_of_readTarget {t : Target} (hsound : t.Sound) {off : Int} {n : Nat}
    {block : Bytes} (h : readTarget read t n off = some block) (hheld : Held read t off n) :
    BytesAre read t off block := by
  obtain ⟨hoff, hheld⟩ := hheld
  have hlen := readTarget_length h
  refine ⟨hoff, fun k hk => ?_⟩
  cases t with
  | file path =>
    unfold readTarget at h
    cases hdata : read path with
    | none => simp [hdata] at h
    | some data =>
      simp only [hdata, Option.ite_none_left_eq_some, Option.some_inj] at h
      rw [← h.2, slice_getElem?, if_pos (hlen ▸ hk), byteAt, hdata, Option.bind_some]
  | files entries =>
    obtain ⟨block', hread, -, hbytes⟩ := readEntries_of_held hsound hheld
    rw [Int.zero_add, Int.toNat_of_nonneg hoff] at hread
    unfold readTarget at h
    simp only [hread, Option.ite_none_left_eq_some, Option.some_inj] at h
    rw [← h.2]
    exact hbytes k (hlen ▸ hk)

end Reading

end Stor.Storage
