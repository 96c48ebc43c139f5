import Mathlib.Data.List.DropRight
import Stor.Storage.Flat

/-!
# Pieces from a web seed

`downloadPieceHTTP` of `download/webseed.go`: a piece as byte ranges of the files of a torrent,
requested one after the other.  The loop goes through the files with the same arithmetic as
`MultiFileWriter.ReadAt`, and for a server and a disk with the same files the two make the same
block (`webSeed_eq_readAt`), also where the size of all files does not fit into an `int64`.
-/

namespace Stor.Download

open Lib Bencode Torrent Peer Storage

structure Response where
  status : Nat
  body : Bytes
  deriving DecidableEq, Repr

/-- What comes back when the bytes `first` to `last` of a URL are requested: nothing when the
host is refused or the request fails. -/
abbrev Server := Bytes → Int → Int → Option Response

inductive WebSeedError where
  | request
  | status (code : Nat) (url : Bytes)
  | shortRead (got want : Int)
  | file (name : Bytes) (e : WebSeedError)
  | exceedsBuffer (index written data buf : Nat)
  | hashMismatch (index : Nat)
  deriving DecidableEq, Repr

/-- The error texts; that of a failed request is the client's own. -/
def WebSeedError.text : WebSeedError → Option Bytes
  | .request => none
  | .status code url =>
    some (ascii "webseed: expected HTTP 206, got " ++ natDigits code ++ ascii " for " ++ url)
  | .shortRead got want =>
    some (ascii "webseed: short read: got " ++ intDigits got ++ ascii ", want " ++ intDigits want)
  | .file name e => e.text.map fun text => ascii "webseed: " ++ name ++ ascii ": " ++ text
  | .exceedsBuffer index written data buf =>
    some (ascii "webseed: piece " ++ natDigits index ++
      ascii " multifile data exceeds buffer (written=" ++ natDigits written ++ ascii ", data=" ++
      natDigits data ++ ascii ", buf=" ++ natDigits buf ++ ascii ")")
  | .hashMismatch index =>
    some (ascii "webseed: piece " ++ natDigits index ++ ascii " hash mismatch")

/-- `httpRange` behind the check of the host. -/
def httpRange (server : Server) (url : Bytes) (offset length : Int) : Except WebSeedError Bytes :=
  match server url offset (wrap64 (offset + length - 1)) with
  | none => .error .request
  | some resp =>
    if resp.status ≠ 206 then .error (.status resp.status url)
    else
      let data := resp.body.take length.toNat
      if (data.length : Int) < length then .error (.shortRead data.length length) else .ok data

/-- A call of `httpRange`; the file is its place in the list. -/
structure RangeRequest where
  file : Nat
  offset : Int
  length : Int
  deriving DecidableEq, Repr

/-- The ranges that were requested, and the block that was made of them. -/
structure Fetched where
  requests : List RangeRequest
  result : Except WebSeedError Bytes

def fileURL (baseURL : Bytes) (f : File) : Bytes :=
  baseURL.rdropWhile (· = slash) ++ slash :: [slash].intercalate f.path

/-- The loop over the files from file `i` on. -/
def fetchFiles (server : Server) (baseURL : Bytes) (index : Nat) :
    Nat → List File → Int → Int → Int → Nat → Bytes → Fetched
  | _, [], _, _, _, _, buf => ⟨[], .ok buf⟩
  | i, f :: fs, fileOffset, pos, remaining, written, buf =>
    let fileEnd := wrap64 (fileOffset + f.length)
    if fileEnd ≤ pos then
      fetchFiles server baseURL index (i + 1) fs fileEnd pos remaining written buf
    else
      let localOff := wrap64 (pos - fileOffset)
      let canRead := min (wrap64 (f.length - localOff)) remaining
      match httpRange server (fileURL baseURL f) localOff canRead with
      | .error e => ⟨[⟨i, localOff, canRead⟩], .error (.file (f.path.getLastD []) e)⟩
      | .ok data =>
        if written + data.length > buf.length then
          ⟨[⟨i, localOff, canRead⟩],
            .error (.exceedsBuffer index written data.length buf.length)⟩
        else
          let buf := overwrite written data buf
          let remaining := wrap64 (remaining - data.length)
          if remaining ≤ 0 then ⟨[⟨i, localOff, canRead⟩], .ok buf⟩
          else
            let rest := fetchFiles server baseURL index (i + 1) fs fileEnd
              (wrap64 (pos + data.length)) remaining (written + data.length) buf
            ⟨⟨i, localOff, canRead⟩ :: rest.requests, rest.result⟩

/-- `downloadPieceHTTP` up to the check of the hash. -/
def fetchPiece (server : Server) (baseURL : Bytes) (info : Info) (pw : PieceWork) : Fetched :=
  if isMultiFile info then
    fetchFiles server baseURL pw.index 0 info.files 0 (pieceOffset info pw.index) pw.length 0
      (List.replicate pw.length.toNat 0)
  else
    ⟨[⟨0, pieceOffset info pw.index, pw.length⟩],
      httpRange server baseURL (pieceOffset info pw.index) pw.length⟩

def downloadPieceHTTP (sha1 : Bytes → Bytes) (server : Server) (baseURL : Bytes) (info : Info)
    (pw : PieceWork) : Except WebSeedError Bytes :=
  match (fetchPiece server baseURL info pw).result with
  | .error e => .error e
  | .ok buf => if sha1 buf = pw.hash then .ok buf else .error (.hashMismatch pw.index)

/-! ## The two walks -/

/-- The server answers each range of a file with just those bytes, and the disk has the same
files. -/
structure Mirrors (server : Server) (baseURL baseDir : Bytes) (read : Bytes → Option Bytes)
    (content : File → Bytes) (fs : List File) : Prop where
  size : ∀ f ∈ fs, ((content f).length : Int) = f.length
  served : ∀ f ∈ fs, ∀ first last : Nat, first ≤ last → last < (content f).length →
    server (fileURL baseURL f) first last = some ⟨206, slice first (last + 1 - first) (content f)⟩
  stored : ∀ f ∈ fs, read (entryPath baseDir f) = some (content f)

/-- The range lies in its file and has a byte. -/
def RangeRequest.Proper (files : List File) (r : RangeRequest) : Prop :=
  ∃ f, files[r.file]? = some f ∧ 0 ≤ r.offset ∧ 1 ≤ r.length ∧ r.offset + r.length ≤ f.length

/-- The end of the files from `base` on, as the walks compute it. -/
def endOf (base : Int) (fs : List File) : Int :=
  fs.foldl (fun total f => wrap64 (total + f.length)) base

section Walk

variable {server : Server} {baseURL baseDir : Bytes} {read : Bytes → Option Bytes}
  {content : File → Bytes} {f : File} {fs : List File}

theorem Mirrors.tail (h : Mirrors server baseURL baseDir read content (f :: fs)) :
    Mirrors server baseURL baseDir read content fs :=
  ⟨fun g hg => h.size g (List.mem_cons_of_mem _ hg),
    fun g hg => h.served g (List.mem_cons_of_mem _ hg),
    fun g hg => h.stored g (List.mem_cons_of_mem _ hg)⟩

/-- A range with a byte that lies in the file is answered. -/
theorem httpRange_of_mirrors (h : Mirrors server baseURL baseDir read content fs) (hf : f ∈ fs)
    (hsize : f.length < 2 ^ 63) {q m : Nat} (hm : 0 < m) (hq : q + m ≤ (content f).length) :
    httpRange server (fileURL baseURL f) q m = .ok (slice q m (content f)) := by
  have hlen := h.size f hf
  have hlast : wrap64 ((q : Int) + m - 1) = ((q + m - 1 : Nat) : Int) := by
    rw [wrap64_of_range (by omega) (by omega)]
    omega
  have hslice : (slice q m (content f)).length = m := slice_length_of_le hq
  have hcount : q + m - 1 + 1 - q = m := by omega
  unfold httpRange
  rw [hlast, h.served f hf q (q + m - 1) (by omega) (by omega), hcount]
  dsimp only
  rw [if_neg (by decide), Int.toNat_natCast, List.take_of_length_le (by omega), if_neg (by omega)]

/-- One file of the loop of `ReadAt` that has its part of the block. -/
theorem readEntries_whole (fe : FileEntry) (fes : List FileEntry) {data : Bytes} {pos : Int}
    {q m n : Nat} (hn : n ≠ 0) (hlo : -2 ^ 63 ≤ fe.offset) (hpos : pos = fe.offset + q)
    (hq : (q : Int) < fe.length) (hend : fe.offset + fe.length < 2 ^ 63)
    (hsize : fe.length < 2 ^ 63) (hread : read fe.path = some data)
    (hlen : (data.length : Int) = fe.length) (hm : m = min (data.length - q) n) :
    readEntries read (fe :: fes) n pos =
      (slice q m data ++ (readEntries read fes (n - m) (pos + m)).1,
        (readEntries read fes (n - m) (pos + m)).2) := by
  have hfileOff : fe.fileOff pos = q := by
    rw [FileEntry.fileOff, hpos, wrap64_of_range (by omega) (by omega)]
    omega
  have htake : fe.take pos n = m := by
    rw [FileEntry.take, hfileOff, wrap64_of_range (by omega) (by omega), hm]
    omega
  have hslice : (slice q m data).length = m := slice_length_of_le (by omega)
  rw [readEntries, if_neg hn, wrap64_of_range (by omega) hend, if_neg (by omega), hread]
  simp only [hfileOff, htake, hslice]
  rw [if_neg (by omega), wrap64_of_range (by omega) (by omega)]

/-- One file of the loop of the web seed, in which the block starts: it is done then, or goes
on with the next file behind the bytes it has. -/
theorem fetchFiles_whole {base : Int} {q m n : Nat}
    (hmirrors : Mirrors server baseURL baseDir read content (f :: fs)) (hlo : -2 ^ 63 ≤ base)
    (hq : q < (content f).length) (hend : base + f.length < 2 ^ 63) (hf : f.length < 2 ^ 63)
    (hn : 0 < n) (hn' : n < 2 ^ 63) (hm : min ((content f).length - q) n = m) {index i : Nat}
    {front : Bytes} :
    fetchFiles server baseURL index i (f :: fs) base (base + q) n front.length
        (front ++ List.replicate n 0) =
      if n - m = 0 then ⟨[⟨i, q, m⟩], .ok (front ++ slice q m (content f))⟩
      else
        let rest := fetchFiles server baseURL index (i + 1) fs (base + f.length) (base + q + m)
          (n - m : Nat) (front ++ slice q m (content f)).length
          (front ++ slice q m (content f) ++ List.replicate (n - m) 0)
        ⟨⟨i, q, m⟩ :: rest.requests, rest.result⟩ := by
  have hfile := hmirrors.size f List.mem_cons_self
  have hhttp := httpRange_of_mirrors hmirrors List.mem_cons_self hf (q := q) (m := m)
    (by omega) (by omega)
  have hslice : (slice q m (content f)).length = m := slice_length_of_le (by omega)
  have hlocal : wrap64 (base + q - base) = (q : Int) := by
    rw [wrap64_of_range (by omega) (by omega)]
    omega
  have hcan : min (wrap64 (f.length - q)) (n : Int) = (m : Int) := by
    rw [wrap64_of_range (by omega) (by omega)]
    omega
  have hleft : wrap64 ((n : Int) - m) = ((n - m : Nat) : Int) := by
    rw [wrap64_of_range (by omega) (by omega)]
    omega
  rw [fetchFiles]
  dsimp only
  rw [wrap64_of_range (by omega) hend, if_neg (by omega), hlocal, hcan, hhttp]
  dsimp only
  rw [hslice, if_neg (by rw [List.length_append, List.length_replicate]; omega),
    overwrite_front (by omega), hslice, hleft, wrap64_of_range (by omega) (by omega)]
  by_cases hdone : n - m = 0
  · rw [if_pos (by omega), if_pos hdone, hdone, List.replicate_zero, List.append_nil]
  · rw [if_neg (by omega), if_neg hdone, List.length_append, hslice]

/-- Both walks from a position on, with a buffer that is filled up to there: they end with the
same block, and every request is proper. -/
theorem fetchFiles_eq {files before : List File} {base pos : Int} {es : List FileEntry} {n : Nat}
    (hfiles : files = before ++ fs) (hmirrors : Mirrors server baseURL baseDir read content fs)
    (hsize : ∀ f ∈ fs, f.length < 2 ^ 63) (hes : fileEntries baseDir fs base = some es)
    (hlo : -2 ^ 63 ≤ base) (hbase : base ≤ pos) (hzero : 0 ≤ pos) (hn : 0 < n)
    (hpos : pos + n ≤ endOf base fs) (hend : endOf base fs < 2 ^ 63) (index : Nat) (front : Bytes) :
    ∃ block requests, readEntries read es n pos = (block, false) ∧ block.length = n ∧
      fetchFiles server baseURL index before.length fs base pos n front.length
          (front ++ List.replicate n 0) = ⟨requests, .ok (front ++ block)⟩ ∧
      ∀ r ∈ requests, r.Proper files := by
  induction fs generalizing before base pos es n front with
  | nil =>
    unfold endOf at hpos
    rw [List.foldl_nil] at hpos
    omega
  | cons f fs ih =>
    have hfile := hmirrors.size f List.mem_cons_self
    have hstored := hmirrors.stored f List.mem_cons_self
    obtain ⟨hf, hfs⟩ := List.forall_mem_cons.mp hsize
    rw [fileEntries, Option.ite_none_right_eq_some, Option.map_eq_some_iff] at hes
    obtain ⟨-, es', hes', rfl⟩ := hes
    obtain ⟨hentry, hbehind, hnext⟩ := walk_next hfiles
    have hrange := wrap64_range (base + f.length)
    have hends : endOf base (f :: fs) = endOf (wrap64 (base + f.length)) fs := rfl
    rw [hends] at hpos hend
    by_cases hskip : wrap64 (base + f.length) ≤ pos
    · -- the block starts behind this file
      obtain ⟨block, requests, hread, hlen, hfetch, hproper⟩ :=
        ih hbehind hmirrors.tail hfs hes' hrange.1 hskip hzero hn hpos hend front
      rw [hnext] at hfetch
      refine ⟨block, requests, ?_, hlen, ?_, hproper⟩
      · rw [readEntries, if_neg (by omega), if_pos hskip, hread]
      · rw [fetchFiles]
        dsimp only
        rw [if_pos hskip, hfetch]
    · -- the block starts in this file, which then ends where it should
      have hexact : wrap64 (base + f.length) = base + f.length :=
        wrap64_add_of_lt hlo (by omega) (by omega) hf (by omega)
      rw [hexact] at hes' hpos hend hskip hrange
      obtain ⟨q, rfl⟩ : ∃ q : Nat, pos = base + q := ⟨(pos - base).toNat, by omega⟩
      generalize hm : min ((content f).length - q) n = m
      have hread := readEntries_whole ⟨entryPath baseDir f, base, f.length⟩ es'
        (Nat.pos_iff_ne_zero.mp hn) hlo rfl (by dsimp only; omega) hrange.2 hf hstored hfile
        hm.symm
      have hslice : (slice q m (content f)).length = m := slice_length_of_le (by omega)
      have hrequest : (⟨before.length, q, m⟩ : RangeRequest).Proper files :=
        ⟨f, hentry, Int.natCast_nonneg q, by dsimp only; omega, by dsimp only; omega⟩
      rw [fetchFiles_whole hmirrors hlo (by omega) hrange.2 hf (by omega) (by omega) hm]
      by_cases hdone : n - m = 0
      · refine ⟨slice q m (content f), [⟨before.length, q, m⟩], ?_, by omega, ?_, ?_⟩
        · rw [hread, hdone, readEntries_zero, List.append_nil]
        · rw [if_pos hdone]
        · exact List.forall_mem_cons.mpr ⟨hrequest, List.forall_mem_nil _⟩
      · -- and goes on at the start of the next one
        have hnextPos : base + q + m = base + f.length := by omega
        obtain ⟨block, requests, hread', hlen, hfetch, hproper⟩ :=
          ih hbehind hmirrors.tail hfs hes' hrange.1 (Int.le_refl _) (by omega)
            (Nat.pos_of_ne_zero hdone) (by omega) hend (front ++ slice q m (content f))
        rw [hnext] at hfetch
        refine ⟨slice q m (content f) ++ block, ⟨before.length, q, m⟩ :: requests, ?_, ?_, ?_, ?_⟩
        · rw [hread, hnextPos, hread']
        · rw [List.length_append, hslice, hlen]
          omega
        · rw [if_neg hdone, hnextPos, hfetch, List.append_assoc]
        · exact List.forall_mem_cons.mpr ⟨hrequest, hproper⟩

/-- Behind all files nothing is requested. -/
theorem fetchFiles_behind {base pos : Int} (hlo : 0 ≤ base) (hnonneg : ∀ f ∈ fs, 0 ≤ f.length)
    (hpos : base + (fs.map File.length).sum ≤ pos) (hend : base + (fs.map File.length).sum < 2 ^ 63)
    (index i written : Nat) (remaining : Int) (buf : Bytes) :
    fetchFiles server baseURL index i fs base pos remaining written buf = ⟨[], .ok buf⟩ := by
  induction fs generalizing base i with
  | nil => rfl
  | cons f fs ih =>
    obtain ⟨hf, hfs⟩ := List.forall_mem_cons.mp hnonneg
    have hrest : 0 ≤ (fs.map File.length).sum := List.sum_nonneg (List.forall_mem_map.mpr hfs)
    rw [List.map_cons, List.sum_cons] at hpos hend
    rw [fetchFiles]
    dsimp only
    rw [wrap64_of_range (by omega) (by omega), if_pos (by omega)]
    exact ih (by omega) hfs (by omega) (by omega) (i + 1)

end Walk

/-- An empty piece starts at the end. -/
theorem size_le_of_empty {info : Info} {i : Nat} (hpl : 0 < info.pieceLength)
    (hoffset : 0 ≤ pieceOffset info i) (hsize : 0 ≤ totalSize info)
    (hsize' : totalSize info < 2 ^ 63) (hzero : pieceLengthAt info (totalSize info) i = 0) :
    totalSize info ≤ pieceOffset info i := by
  have hrange : pieceOffset info i < 2 ^ 63 := (wrap64_range _).2
  unfold pieceLengthAt at hzero
  rw [wrap64_of_range (by omega) (by omega)] at hzero
  dsimp only at hzero
  split_ifs at hzero <;> omega

/-- A server with the contents of the files, and a disk with them. -/
def serverOf (baseURL : Bytes) (files : List File) (content : File → Bytes) : Server :=
  fun url first last => (files.find? fun f => fileURL baseURL f = url).map fun f =>
    ⟨206, slice first.toNat (last + 1 - first).toNat (content f)⟩

def diskOf (baseDir : Bytes) (files : List File) (content : File → Bytes) (path : Bytes) :
    Option Bytes := (files.find? fun f => entryPath baseDir f = path).map content

/-- The first with a key that no two share is the only one. -/
theorem find?_of_nodup {α β : Type} [DecidableEq β] {key : α → β} {xs : List α}
    (h : (xs.map key).Nodup) {x : α} (hx : x ∈ xs) :
    (xs.find? fun y => key y = key x) = some x := by
  induction xs with
  | nil => exact absurd hx List.not_mem_nil
  | cons y ys ih =>
    rw [List.map_cons, List.nodup_cons] at h
    rcases List.mem_cons.mp hx with rfl | hx
    · exact List.find?_cons_of_pos (decide_eq_true rfl)
    · have hne : key y ≠ key x := fun heq => h.1 (heq ▸ List.mem_map_of_mem hx)
      rw [List.find?_cons_of_neg (by rw [decide_eq_false hne]; exact Bool.false_ne_true)]
      exact ih h.2 hx

theorem mirrors_of_nodup {baseURL baseDir : Bytes} {files : List File} {content : File → Bytes}
    (hsize : ∀ f ∈ files, ((content f).length : Int) = f.length)
    (hurl : (files.map (fileURL baseURL)).Nodup) (hpath : (files.map (entryPath baseDir)).Nodup) :
    Mirrors (serverOf baseURL files content) baseURL baseDir (diskOf baseDir files content)
      content files := by
  refine ⟨hsize, fun f hf first last hle hlt => ?_, fun f hf => ?_⟩
  · have hcount : ((last : Int) + 1 - first).toNat = last + 1 - first := by omega
    rw [serverOf, find?_of_nodup hurl hf, Option.map_some, Int.toNat_natCast, hcount]
  · rw [diskOf, find?_of_nodup hpath hf, Option.map_some]

/-- A torrent of the files `a`, `b`, `c` and `d` with these lengths, in pieces of two bytes. -/
def fourFiles (a b c d pieces : Bytes) : Bytes :=
  ascii "d4:infod5:filesld6:lengthi" ++ a ++ ascii "e4:pathl1:aeed6:lengthi" ++ b ++
    ascii "e4:pathl1:beed6:lengthi" ++ c ++ ascii "e4:pathl1:ceed6:lengthi" ++ d ++
    ascii "e4:pathl1:deee4:name1:d12:piece lengthi2e6:pieces" ++ encodeString pieces ++ ascii "ee"

/-- What the walks read of such a torrent. -/
structure Layout where
  files : List File
  length : Int
  pieceLength : Int
  queue : List PieceWork
  total : Int
  deriving DecidableEq

def layoutOf (info : Info) : Layout :=
  ⟨info.files, info.length, info.pieceLength, buildWorkQueue info (totalSize info), totalSize info⟩

def lettered (a b c d : Int) : List File :=
  [⟨a, [[97]]⟩, ⟨b, [[98]]⟩, ⟨c, [[99]]⟩, ⟨d, [[100]]⟩]

def zerosOf (f : File) : Bytes := List.replicate f.length.toNat 0

theorem length_zerosOf {files : List File} (h : ∀ f ∈ files, 0 ≤ f.length) :
    ∀ f ∈ files, ((zerosOf f).length : Int) = f.length := by
  intro f hf
  rw [zerosOf, List.length_replicate, Int.toNat_of_nonneg (h f hf)]

end Stor.Download
