import Stor.Storage.Verify

/-!
# Many files as one array

`MultiFileWriter` stands for an array of bytes that is cut into files.  The files hold
an array when each of them has its part, with its own length (`Holds`).  As long as no
two of them are the same place on the disk, a write changes the array as a write to an
array does, and a read returns what is there (`storage_flat`).
-/

namespace Stor.Storage

open Lib Bencode Torrent Peer

/-- The files have the parts of the array one after the other. -/
inductive Holds (read : Bytes → Option Bytes) : List FileEntry → Bytes → Prop
  | nil : Holds read [] []
  | cons {fe : FileEntry} {fes : List FileEntry} {data flat : Bytes}
      (hread : read fe.path = some data) (hlen : (data.length : Int) = fe.length)
      (hrest : Holds read fes flat) : Holds read (fe :: fes) (data ++ flat)

/-- Where the files are. -/
def places (cwd : List Bytes) (fes : List FileEntry) : List (List Bytes) :=
  fes.map fun fe => resolve cwd fe.path

theorem places_cons_nodup {cwd : List Bytes} {fe : FileEntry} {fes : List FileEntry} :
    (places cwd (fe :: fes)).Nodup ↔
      (∀ fe' ∈ fes, resolve cwd fe'.path ≠ resolve cwd fe.path) ∧ (places cwd fes).Nodup := by
  unfold places
  rw [List.map_cons, List.nodup_cons, List.mem_map]
  simp only [not_exists, not_and, ne_eq]

section Files

variable {read : Bytes → Option Bytes} {cwd : List Bytes} {fes : List FileEntry} {flat : Bytes}
  {base : Int} {disk disk' : Files}

theorem Holds.congr {read' : Bytes → Option Bytes} (h : Holds read fes flat)
    (heq : ∀ fe ∈ fes, read' fe.path = read fe.path) : Holds read' fes flat := by
  induction h with
  | nil => exact .nil
  | cons hread hlen hrest ih =>
    refine .cons ?_ hlen (ih fun fe hfe => heq fe (List.mem_cons_of_mem _ hfe))
    rw [heq _ List.mem_cons_self, hread]

theorem Holds.entryByte (h : Holds read fes flat) (p : Nat) :
    Storage.entryByte read fes p = flat[p]? := by
  induction h generalizing p with
  | nil => rfl
  | cons hread hlen hrest ih =>
    rw [Storage.entryByte]
    split_ifs with hp
    · rw [hread, Option.bind_some, List.getElem?_append_left (by omega)]
    · rw [ih, List.getElem?_append_right (by omega)]
      congr 1
      omega

/-! ## Reads -/

theorem readEntries_of_holds (hcons : Consecutive base fes) (h : Holds read fes flat) {p n : Nat}
    (hn : p + n ≤ flat.length) : readEntries read fes n (base + p) = (slice p n flat, false) := by
  have hheld : ∀ k < n, (entryByte read fes (p + k)).isSome := by
    intro k hk
    rw [h.entryByte, List.getElem?_eq_getElem (by omega)]
    rfl
  obtain ⟨block, hread, hlen, hbytes⟩ := readEntries_of_held hcons hheld
  rw [hread]
  congr 1
  refine List.ext_getElem? fun k => ?_
  rw [slice_getElem?]
  split_ifs with hk
  · rw [← hbytes k hk, h.entryByte]
  · rw [List.getElem?_eq_none (by omega)]

/-! ## Writes -/

/-- A write leaves all other files alone. -/
theorem readAt_writeEntries {path : Bytes}
    (hpath : ∀ fe ∈ fes, resolve cwd fe.path ≠ resolve cwd path) (disk : Files) (data : Bytes)
    (off : Int) :
    readAt cwd (writeEntries cwd fes disk data off) path = readAt cwd disk path := by
  induction fes generalizing disk data off with
  | nil => rfl
  | cons fe fes ih =>
    obtain ⟨hfe, hfes⟩ := List.forall_mem_cons.mp hpath
    unfold writeEntries
    split_ifs
    · rfl
    · exact ih hfes disk data off
    · rw [ih hfes]
      exact Disk.read_writeAt_of_ne disk hfe.symm _ _

theorem writeEntries_nil (fes : List FileEntry) (disk : Files) (off : Int) :
    writeEntries cwd fes disk [] off = disk := by
  cases fes with
  | nil => rfl
  | cons fe fes => rw [writeEntries, if_pos rfl]

/-- The files behind one that is written hold what they held. -/
theorem Holds.writeAt {fe : FileEntry} (h : Holds (readAt cwd disk) fes flat)
    (hfree : ∀ fe' ∈ fes, resolve cwd fe'.path ≠ resolve cwd fe.path) (off : Nat) (data : Bytes) :
    Holds (readAt cwd (disk.writeAt (resolve cwd fe.path) off data)) fes flat :=
  h.congr fun fe' hfe' => Disk.read_writeAt_of_ne disk (hfree fe' hfe') off data

theorem Holds.writeEntries (hcons : Consecutive base fes) (hplaces : (places cwd fes).Nodup)
    (h : Holds (readAt cwd disk) fes flat) {p : Nat} {data : Bytes}
    (hdata : p + data.length ≤ flat.length) :
    Holds (readAt cwd (Storage.writeEntries cwd fes disk data (base + p))) fes
      (overwrite p data flat) := by
  induction fes generalizing base disk flat p data with
  | nil =>
    cases h
    rw [List.eq_nil_of_length_eq_zero (l := data) (by rw [List.length_nil] at hdata; omega),
      overwrite_nil]
    exact .nil
  | cons fe fes ih =>
    cases h with
    | @cons _ _ old flat hread hlen hrest =>
      have hwhole := hcons
      obtain ⟨hoff, hbase, hnonneg, hlt, hbehind⟩ := hcons
      obtain ⟨hfree, hplaces⟩ := places_cons_nodup.mp hplaces
      rw [List.length_append] at hdata
      by_cases hempty : data = []
      · rw [hempty, writeEntries_nil, overwrite_nil]
        exact .cons hread hlen hrest
      rw [Storage.writeEntries, if_neg hempty, hoff, wrap64_of_range (by omega) hlt]
      by_cases hp : p < old.length
      · -- the block starts in this file
        have hfileOff := hwhole.fileOff_eq (p := p) (by omega)
        have htake : fe.take (base + p) data.length = min (old.length - p) data.length := by
          rw [hwhole.take_eq (by omega)]
          omega
        have hfirst := List.length_take (i := old.length - p) (l := data)
        have hlast := List.length_drop (i := old.length - p) (l := data)
        rw [if_neg (by omega), overwrite_append_left (by omega) hdata]
        simp only [hfileOff, htake]
        rw [← List.take_eq_take_min, ← List.drop_eq_drop_min]
        have hwritten := hrest.writeAt hfree p (data.take (old.length - p))
        refine .cons ?_ ?_ ?_
        · rw [readAt_writeEntries hfree]
          unfold readAt at hread ⊢
          rw [Disk.read_writeAt_self, hread, Option.map_some]
        · rw [overwrite_length_of_le (by omega), hlen]
        · by_cases hdone : data.drop (old.length - p) = []
          · rw [hdone, writeEntries_nil, overwrite_nil]
            exact hwritten
          · have hpos : base + p + (min (old.length - p) data.length : Nat) =
                base + fe.length + ((0 : Nat) : Int) := by
              have := List.length_pos_of_ne_nil hdone
              omega
            rw [wrap64_of_range (by omega) (by omega), hpos]
            exact ih hbehind hplaces hwritten (by omega)
      · -- the block starts behind this file
        have hpos : base + p = base + fe.length + ((p - old.length : Nat) : Int) := by omega
        rw [if_pos (by omega), hpos, overwrite_append_right (by omega) hdata]
        refine .cons ?_ hlen (ih hbehind hplaces hrest (by omega))
        rw [readAt_writeEntries hfree, hread]

/-! ## Bringing the files to size -/

/-- What is there of the files before they are brought to size is zeros. -/
def Blank (read : Bytes → Option Bytes) (fes : List FileEntry) : Prop :=
  ∀ fe ∈ fes, ∀ b ∈ ((read fe.path).getD []).take fe.length.toNat, b = 0

theorem resize_eq_replicate {n : Nat} {xs : Bytes} (h : ∀ b ∈ xs.take n, b = 0) :
    resize n xs = List.replicate n 0 := by
  refine List.eq_replicate_iff.mpr ⟨resize_length n xs, fun b hb => ?_⟩
  rcases List.mem_append.mp hb with hold | hnew
  · exact h b hold
  · exact (List.mem_replicate.mp hnew).2

/-- Bringing files to size leaves all others alone. -/
theorem readAt_preallocateFiles {path : Bytes}
    (hpath : ∀ fe ∈ fes, resolve cwd fe.path ≠ resolve cwd path) {ok : Bool}
    (h : preallocateFiles cwd fes disk = (disk', ok)) :
    readAt cwd disk' path = readAt cwd disk path := by
  induction fes generalizing disk with
  | nil => rw [(Prod.mk.inj h).1]
  | cons fe fes ih =>
    obtain ⟨hfe, hfes⟩ := List.forall_mem_cons.mp hpath
    unfold preallocateFiles at h
    split at h
    · rw [(Prod.mk.inj h).1]
    · next disk₁ hopen =>
      have hsame : readAt cwd disk₁ path = readAt cwd disk path :=
        Disk.read_openCreate_of_ne hopen hfe.symm
      split_ifs at h
      · rw [← (Prod.mk.inj h).1, hsame]
      · rw [ih hfes h, ← hsame]
        exact Disk.read_truncate_of_ne disk₁ hfe.symm _

theorem holds_of_preallocateFiles (hplaces : (places cwd fes).Nodup)
    (hblank : Blank (readAt cwd disk) fes) (h : preallocateFiles cwd fes disk = (disk', true)) :
    Holds (readAt cwd disk') fes (List.replicate (fes.map fun fe => fe.length.toNat).sum 0) := by
  induction fes generalizing disk with
  | nil => exact .nil
  | cons fe fes ih =>
    obtain ⟨hfree, hplaces⟩ := places_cons_nodup.mp hplaces
    unfold preallocateFiles at h
    split at h
    · exact absurd (congrArg Prod.snd h) nofun
    · next disk₁ hopen =>
      split_ifs at h with hneg
      · exact absurd (congrArg Prod.snd h) nofun
      -- this file, as it is in the end
      have hread : readAt cwd disk' fe.path = some (List.replicate fe.length.toNat 0) := by
        rw [readAt_preallocateFiles hfree h]
        unfold readAt
        rw [Disk.read_truncate_self, Disk.read_openCreate_self hopen, Option.map_some]
        exact congrArg some (resize_eq_replicate (hblank fe List.mem_cons_self))
      -- the others, as they are before they are opened
      have hblank' : Blank (readAt cwd (disk₁.truncate (resolve cwd fe.path) fe.length.toNat))
          fes := by
        intro fe' hfe'
        have hne := hfree fe' hfe'
        unfold readAt
        rw [Disk.read_truncate_of_ne disk₁ hne, Disk.read_openCreate_of_ne hopen hne]
        exact hblank fe' (List.mem_cons_of_mem _ hfe')
      rw [List.map_cons, List.sum_cons, List.replicate_add]
      refine .cons hread ?_ (ih hplaces hblank' h)
      rw [List.length_replicate]
      omega

end Files

/-! ## Runs of writes -/

/-- A call of `WriteAt`. -/
structure Write where
  data : Bytes
  off : Nat

def writeAll (cwd : List Bytes) (fes : List FileEntry) (disk : Files) (ws : List Write) : Files :=
  ws.foldl (fun disk w => writeEntries cwd fes disk w.data w.off) disk

/-- The same writes to an array. -/
def overwriteAll (flat : Bytes) (ws : List Write) : Bytes :=
  ws.foldl (fun flat w => overwrite w.off w.data flat) flat

/-- The write ends inside an array of that many bytes. -/
def Write.Fits (total : Nat) (w : Write) : Prop := w.off + w.data.length ≤ total

theorem Holds.writeAll {cwd : List Bytes} {fes : List FileEntry} {disk : Files} {flat : Bytes}
    (hcons : Consecutive 0 fes) (hplaces : (places cwd fes).Nodup)
    (h : Holds (readAt cwd disk) fes flat) {ws : List Write}
    (hws : ∀ w ∈ ws, w.Fits flat.length) :
    Holds (readAt cwd (Storage.writeAll cwd fes disk ws)) fes (overwriteAll flat ws) ∧
      (overwriteAll flat ws).length = flat.length := by
  induction ws generalizing disk flat with
  | nil => exact ⟨h, rfl⟩
  | cons w ws ih =>
    obtain ⟨hfits, hws⟩ := List.forall_mem_cons.mp hws
    have hlen := overwrite_length_of_le hfits
    have hstep := h.writeEntries hcons hplaces hfits
    rw [Int.zero_add] at hstep
    rw [← hlen] at hws
    have hrest := ih hstep hws
    exact ⟨hrest.1, hrest.2.trans hlen⟩

theorem fileEntries_length {baseDir : Bytes} {fs : List File} {base : Int} {es : List FileEntry}
    (h : fileEntries baseDir fs base = some es) :
    es.map FileEntry.length = fs.map File.length := by
  induction fs generalizing base es with
  | nil =>
    rw [← Option.some_inj.mp h]
    rfl
  | cons f fs ih =>
    rw [fileEntries, Option.ite_none_right_eq_some, Option.map_eq_some_iff] at h
    obtain ⟨-, es', hes', rfl⟩ := h
    rw [List.map_cons, List.map_cons, ih hes']

theorem Consecutive.nonneg {base : Int} {fes : List FileEntry} (h : Consecutive base fes) :
    ∀ fe ∈ fes, 0 ≤ fe.length := by
  induction fes generalizing base with
  | nil => exact nofun
  | cons fe fes ih =>
    obtain ⟨-, -, hfe, -, hrest⟩ := h
    exact List.forall_mem_cons.mpr ⟨hfe, ih hrest⟩

/-- After `PreallocateFiles` and any writes, a read returns what an array of zeros has
after the same writes, when the files have different places and nothing but zeros was
in them. -/
theorem storage_flat (H : Digests) (torrent : Bytes) (tf : TorrentFile)
    (hparse : parse H torrent = .ok tf) (total : Nat)
    (htotal : (total : Int) = (tf.info.files.map File.length).sum) (hsize : total < 2 ^ 63)
    (cwd : List Bytes) (disk disk₁ disk₂ : Files) (baseDir : Bytes) (entries : List FileEntry)
    (hopen : newMultiFileWriter cwd disk baseDir tf.info = (disk₁, some entries))
    (hplaces : (places cwd entries).Nodup) (hblank : Blank (readAt cwd disk) entries)
    (hpre : preallocateFiles cwd entries disk₁ = (disk₂, true))
    (ws : List Write) (hws : ∀ w ∈ ws, w.Fits total) (off n : Nat) (hread : off + n ≤ total) :
    readEntries (readAt cwd (writeAll cwd entries disk₂ ws)) entries n off =
        (slice off n (overwriteAll (List.replicate total 0) ws), false) ∧
      (slice off n (overwriteAll (List.replicate total 0) ws)).length = n := by
  have hfiles := fileEntries_of_newMultiFileWriter (congrArg Prod.snd hopen)
  have hcons : Consecutive 0 entries :=
    fileEntries_consecutive hfiles (by decide) (parse_bounds hparse).2.2 (by omega)
  have hentries : (entries.map fun fe => fe.length.toNat).sum = total := by
    have hsum := sum_map_toNat hcons.nonneg
    rw [fileEntries_length hfiles] at hsum
    omega
  have hsame := readAt_newMultiFileWriter cwd disk baseDir tf.info
  rw [hopen] at hsame
  rw [← hsame] at hblank
  have hzeros := holds_of_preallocateFiles hplaces hblank hpre
  rw [hentries] at hzeros
  have hlength : (List.replicate total (0 : UInt8)).length = total := List.length_replicate
  rw [← hlength] at hws
  obtain ⟨hholds, hlen⟩ := hzeros.writeAll hcons hplaces hws
  have hslice := readEntries_of_holds hcons hholds (p := off) (n := n) (by omega)
  rw [Int.zero_add] at hslice
  exact ⟨hslice, slice_length_of_le (by omega)⟩

/-- Two files of four bytes in the directory `d`, with the given names. -/
def twoNames (a b : Bytes) : Bytes :=
  ascii "d4:infod5:filesld6:lengthi4e4:pathl" ++ encodeString a ++
    ascii "eed6:lengthi4e4:pathl" ++ encodeString b ++
    ascii "eee4:name1:d12:piece lengthi8e6:pieces" ++ encodeString (List.replicate 20 97) ++
    ascii "ee"

/-- What comes out of an empty disk: the entries, whether they could be brought to size,
and a read after some writes. -/
def fromEmpty (info : Info) (ws : List Write) (off n : Nat) :
    List Int × Option (List FileEntry) × Bool × Bytes × Bool :=
  let (disk₁, entries) := newMultiFileWriter [] (fun _ => none) (ascii "d") info
  let (disk₂, ok) := preallocateFiles [] (entries.getD []) disk₁
  (info.files.map File.length, entries, ok,
    readEntries (readAt [] (writeAll [] (entries.getD []) disk₂ ws)) (entries.getD []) n off)

theorem fromEmpty_eq {info : Info} {ws : List Write} {off n : Nat} {lengths : List Int}
    {entries : List FileEntry} {block : Bytes} {err : Bool}
    (h : fromEmpty info ws off n = (lengths, some entries, true, block, err)) :
    info.files.map File.length = lengths ∧ ∃ disk₁ disk₂,
      newMultiFileWriter [] (fun _ => none) (ascii "d") info = (disk₁, some entries) ∧
      preallocateFiles [] entries disk₁ = (disk₂, true) ∧
      readEntries (readAt [] (writeAll [] entries disk₂ ws)) entries n off = (block, err) := by
  unfold fromEmpty at h
  simp only [Prod.mk.injEq] at h
  obtain ⟨hlengths, hentries, hok, hread⟩ := h
  rw [hentries] at hok hread
  exact ⟨hlengths, _, _, Prod.ext rfl hentries, Prod.ext rfl hok, hread⟩

theorem storage_flat_twoNames :
    ∃ tf disk₁ disk₂ entries, parse plainDigests (twoNames (ascii "a") (ascii "b")) = .ok tf ∧
      newMultiFileWriter [] (fun _ => none) (ascii "d") tf.info = (disk₁, some entries) ∧
      preallocateFiles [] entries disk₁ = (disk₂, true) ∧
      readEntries (readAt [] (writeAll [] entries disk₂ [⟨ascii "xyz", 3⟩])) entries 5 2 =
        (slice 2 5 (overwriteAll (List.replicate 8 0) [⟨ascii "xyz", 3⟩]), false) := by
  have hfields : (parse plainDigests (twoNames (ascii "a") (ascii "b"))).toOption.map
      (fun tf => fromEmpty tf.info [⟨ascii "xyz", 3⟩] 2 5) =
      some ([4, 4], some [⟨ascii "d/a", 0, 4⟩, ⟨ascii "d/b", 4, 4⟩], true,
        [0, 120, 121, 122, 0], false) := by
    rw [twoNames, ascii_ofList, ascii_ofList, ascii_ofList]
    decide +kernel
  obtain ⟨tf, hparse, hfields⟩ := exists_parse_eq_ok hfields
  obtain ⟨hlengths, disk₁, disk₂, hopen, hpre, -⟩ := fromEmpty_eq hfields
  refine ⟨tf, disk₁, disk₂, _, hparse, hopen, hpre, ?_⟩
  refine (storage_flat plainDigests _ tf hparse 8 ?_ (by decide) [] _ disk₁ disk₂ _ _ hopen
    (by decide +kernel) ?_ hpre [⟨ascii "xyz", 3⟩] ?_ 2 5 (by decide)).1
  · rw [hlengths]
    decide
  · unfold Blank
    decide +kernel
  · unfold Write.Fits
    decide

/-- Two entries with the same name are one file, and the second is written over the
first. -/
theorem not_flat_sameName :
    ∃ tf disk₁ disk₂ entries, parse plainDigests (twoNames (ascii "a") (ascii "a")) = .ok tf ∧
      newMultiFileWriter [] (fun _ => none) (ascii "d") tf.info = (disk₁, some entries) ∧
      preallocateFiles [] entries disk₁ = (disk₂, true) ∧
      readEntries (readAt [] (writeAll [] entries disk₂ [⟨ascii "abcd", 0⟩, ⟨ascii "efgh", 4⟩]))
        entries 4 0 = (ascii "efgh", false) ∧
      slice 0 4 (overwriteAll (List.replicate 8 0) [⟨ascii "abcd", 0⟩, ⟨ascii "efgh", 4⟩]) =
        ascii "abcd" := by
  have hfields : (parse plainDigests (twoNames (ascii "a") (ascii "a"))).toOption.map
      (fun tf => fromEmpty tf.info [⟨ascii "abcd", 0⟩, ⟨ascii "efgh", 4⟩] 0 4) =
      some ([4, 4], some [⟨ascii "d/a", 0, 4⟩, ⟨ascii "d/a", 4, 4⟩], true, ascii "efgh", false) := by
    rw [twoNames, ascii_ofList, ascii_ofList, ascii_ofList]
    decide +kernel
  obtain ⟨tf, hparse, hfields⟩ := exists_parse_eq_ok hfields
  obtain ⟨-, disk₁, disk₂, hopen, hpre, hread⟩ := fromEmpty_eq hfields
  exact ⟨tf, disk₁, disk₂, _, hparse, hopen, hpre, hread, by decide +kernel⟩

end Stor.Storage
