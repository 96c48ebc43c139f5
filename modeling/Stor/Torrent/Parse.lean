import Stor.Lib.Block
import Stor.Bencode.RoundTrip

/-!
# Torrent files

`torrent/torrent.go`.  The two digests are parameters.  A type assertion on a
map entry, `d[k].(string)` and the like, is `str?`, `int?`, `list?` or `dict?`:
it fails when the key is missing and when the value has another type.
-/

namespace Stor

open Lib

namespace Bencode

namespace Value

def str? : Value → Option Bytes
  | .str s => some s
  | _ => none

def int? : Value → Option Int
  | .int n => some n
  | _ => none

def list? : Value → Option (List Value)
  | .list xs => some xs
  | _ => none

def dict? : Value → Option Entries
  | .dict es => some es
  | _ => none

theorem str?_eq_some {v : Value} {s : Bytes} : v.str? = some s ↔ v = .str s := by
  cases v <;> simp [str?]

theorem int?_eq_some {v : Value} {n : Int} : v.int? = some n ↔ v = .int n := by
  cases v <;> simp [int?]

theorem list?_eq_some {v : Value} {xs : List Value} : v.list? = some xs ↔ v = .list xs := by
  cases v <;> simp [list?]

theorem dict?_eq_some {v : Value} {es : Entries} : v.dict? = some es ↔ v = .dict es := by
  cases v <;> simp [dict?]

end Value

namespace Entries

def str? (k : Bytes) (d : Entries) : Option Bytes := (d.get? k).bind Value.str?
def int? (k : Bytes) (d : Entries) : Option Int := (d.get? k).bind Value.int?
def list? (k : Bytes) (d : Entries) : Option (List Value) := (d.get? k).bind Value.list?
def dict? (k : Bytes) (d : Entries) : Option Entries := (d.get? k).bind Value.dict?

end Entries

end Bencode

namespace Torrent

open Bencode

/-- The digests of the program, as functions on byte strings. -/
structure Digests where
  sha1 : Bytes → Bytes
  sha256 : Bytes → Bytes

/-- Digests that are injective for the simple reason that they hide nothing. -/
def plainDigests : Digests := ⟨id, id⟩

structure File where
  length : Int
  path : List Bytes
  deriving DecidableEq, Repr

structure Info where
  name : Bytes
  pieceLength : Int
  pieceHashes : List Bytes
  /-- Zero for a torrent of several files. -/
  length : Int
  /-- Empty for a torrent of a single file. -/
  files : List File
  isPrivate : Bool
  fileTree : Option Entries

structure TorrentFile where
  announce : Bytes
  announceList : List (List Bytes)
  info : Info
  infoHash : Bytes
  infoHashV2 : Bytes
  metaVersion : Nat
  webSeedURLs : List Bytes

/-- One constructor for each error text of the source. -/
inductive ParseError where
  | decode (e : DecodeError)
  | rootNotDict
  | missingInfo
  | infoNotDict
  | v2Only
  | missingName
  | missingPieceLength
  | invalidPieceLength (n : Int)
  | missingPieces
  | piecesLength (n : Nat)
  | invalidFileLength (n : Int)
  | filesNotList
  | fileNotDict
  | fileMissingLength
  | fileMissingPath
  | pathNotString
  | announceListNotList
  | tierNotList
  | trackerNotString
  deriving DecidableEq, Repr

def keyAnnounce : Bytes := ascii "announce"
def keyAnnounceList : Bytes := ascii "announce-list"
def keyURLList : Bytes := ascii "url-list"
def keyInfo : Bytes := ascii "info"
def keyMetaVersion : Bytes := ascii "meta version"
def keyName : Bytes := ascii "name"
def keyPieceLength : Bytes := ascii "piece length"
def keyPieces : Bytes := ascii "pieces"
def keyPrivate : Bytes := ascii "private"
def keyLength : Bytes := ascii "length"
def keyFiles : Bytes := ascii "files"
def keyFileTree : Bytes := ascii "file tree"
def keyPath : Bytes := ascii "path"

/-- The pieces string cut into digests of 20 bytes. -/
def splitPieces (pieces : Bytes) : List Bytes :=
  (List.range (pieces.length / 20)).map fun i => slice (i * 20) 20 pieces

/-- A list of strings, or `e` when an item is not one. -/
def stringList (e : ParseError) : List Value → Except ParseError (List Bytes)
  | [] => .ok []
  | v :: vs =>
    match v.str? with
    | none => .error e
    | some s =>
      match stringList e vs with
      | .error e' => .error e'
      | .ok ss => .ok (s :: ss)

def parseFile (item : Value) : Except ParseError File :=
  match item.dict? with
  | none => .error .fileNotDict
  | some d =>
    match d.int? keyLength with
    | none => .error .fileMissingLength
    | some length =>
      if length < 0 then .error (.invalidFileLength length)
      else
        match d.list? keyPath with
        | none => .error .fileMissingPath
        | some pathList =>
          match stringList .pathNotString pathList with
          | .error e => .error e
          | .ok path => .ok ⟨length, path⟩

/-- The loop of `parseFiles`. -/
def parseFileList : List Value → Except ParseError (List File)
  | [] => .ok []
  | item :: items =>
    match parseFile item with
    | .error e => .error e
    | .ok f =>
      match parseFileList items with
      | .error e => .error e
      | .ok fs => .ok (f :: fs)

def parseFiles (v : Value) : Except ParseError (List File) :=
  match v.list? with
  | none => .error .filesNotList
  | some items => parseFileList items

/-- The single file or the files of `parseInfo`. -/
def parseLayout (d : Entries) : Except ParseError (Int × List File) :=
  match d.int? keyLength with
  | some length => if length < 0 then .error (.invalidFileLength length) else .ok (length, [])
  | none =>
    match d.get? keyFiles with
    | none => .ok (0, [])
    | some v =>
      match parseFiles v with
      | .error e => .error e
      | .ok fs => .ok (0, fs)

def parseInfo (d : Entries) : Except ParseError Info :=
  match d.str? keyName with
  | none => .error .missingName
  | some name =>
    match d.int? keyPieceLength with
    | none => .error .missingPieceLength
    | some pieceLength =>
      if pieceLength ≤ 0 then .error (.invalidPieceLength pieceLength)
      else
        match d.str? keyPieces with
        | none => .error .missingPieces
        | some pieces =>
          if pieces.length % 20 ≠ 0 then .error (.piecesLength pieces.length)
          else
            match parseLayout d with
            | .error e => .error e
            | .ok (length, files) =>
              .ok ⟨name, pieceLength, splitPieces pieces, length, files,
                d.int? keyPrivate = some 1, d.dict? keyFileTree⟩

/-- The loop of `parseAnnounceList`. -/
def parseTiers : List Value → Except ParseError (List (List Bytes))
  | [] => .ok []
  | tier :: tiers =>
    match tier.list? with
    | none => .error .tierNotList
    | some trackers =>
      match stringList .trackerNotString trackers with
      | .error e => .error e
      | .ok urls =>
        match parseTiers tiers with
        | .error e => .error e
        | .ok rest => .ok (urls :: rest)

def parseAnnounceList : Option Value → Except ParseError (List (List Bytes))
  | none => .ok []
  | some v =>
    match v.list? with
    | none => .error .announceListNotList
    | some tiers => parseTiers tiers

/-- A string or a list of strings; empty strings and items of other types are
skipped. -/
def parseURLList : Option Value → List Bytes
  | some (.str s) => if s ≠ [] then [s] else []
  | some (.list xs) => (xs.filterMap Value.str?).filter (· ≠ [])
  | _ => []

def parse (H : Digests) (data : Bytes) : Except ParseError TorrentFile :=
  match decode data with
  | .error e => .error (.decode e)
  | .ok decoded =>
    match decoded.dict? with
    | none => .error .rootNotDict
    | some root =>
      match parseAnnounceList (root.get? keyAnnounceList) with
      | .error e => .error e
      | .ok announceList =>
        match root.get? keyInfo with
        | none => .error .missingInfo
        | some infoVal =>
          match infoVal.dict? with
          | none => .error .infoNotDict
          | some infoDict =>
            -- the digest is taken over a new encoding of the decoded map
            let infoBencoded := encodeValue (.dict infoDict)
            let v2 : Bool := infoDict.int? keyMetaVersion = some 2
            match parseInfo infoDict with
            | .error e => .error (if v2 then .v2Only else e)
            | .ok info =>
              .ok {
                announce := (root.str? keyAnnounce).getD []
                announceList := announceList
                info := info
                infoHash := H.sha1 infoBencoded
                infoHashV2 :=
                  if v2 then H.sha256 infoBencoded else List.replicate 32 0
                metaVersion := if v2 then 2 else 0
                webSeedURLs := parseURLList (root.get? keyURLList) }

/-! ## What is accepted -/

theorem stringList_eq_ok {e : ParseError} {vs : List Value} {ss : List Bytes} :
    stringList e vs = .ok ss ↔ vs = ss.map Value.str := by
  induction vs generalizing ss with
  | nil => cases ss <;> simp [stringList]
  | cons v vs ih =>
    rw [stringList]
    cases v with
    | str s =>
      simp only [Value.str?]
      cases ss with
      | nil => cases hrec : stringList e vs <;> simp
      | cons s' ss =>
        rw [List.map_cons, List.cons.injEq, Value.str.injEq, ← ih]
        cases hrec : stringList e vs <;> simp
    | int | list | dict => cases ss <;> simp [Value.str?]

theorem parseFile_eq_ok {item : Value} {f : File} :
    parseFile item = .ok f ↔
      ∃ d, item = .dict d ∧ Entries.int? keyLength d = some f.length ∧ 0 ≤ f.length ∧
        Entries.list? keyPath d = some (f.path.map Value.str) := by
  obtain ⟨length, path⟩ := f
  rw [parseFile]
  cases item with
  | str | int | list => simp [Value.dict?]
  | dict d =>
    simp only [Value.dict?, Value.dict.injEq, exists_eq_left']
    cases hlen : Entries.int? keyLength d with
    | none => simp
    | some n =>
      cases hpath : Entries.list? keyPath d with
      | none => by_cases hn : n < 0 <;> simp [hn]
      | some vs =>
        by_cases hn : n < 0
        · simp only [if_pos hn, reduceCtorEq, Option.some_inj, false_iff]
          rintro ⟨rfl, h, -⟩
          omega
        · simp only [if_neg hn, Option.some_inj, ← stringList_eq_ok (e := .pathNotString)]
          cases hrec : stringList .pathNotString vs with
          | error e => simp
          | ok ss =>
            simp only [Except.ok.injEq, File.mk.injEq]
            constructor
            · rintro ⟨rfl, rfl⟩
              exact ⟨rfl, by omega, rfl⟩
            · rintro ⟨rfl, -, rfl⟩
              exact ⟨rfl, rfl⟩

theorem parseFileList_eq_ok {vs : List Value} {fs : List File} :
    parseFileList vs = .ok fs ↔ List.Forall₂ (fun v f => parseFile v = .ok f) vs fs := by
  induction vs generalizing fs with
  | nil => cases fs <;> simp [parseFileList]
  | cons v vs ih =>
    rw [parseFileList]
    cases fs with
    | nil =>
      cases hv : parseFile v with
      | error e => simp
      | ok f => cases hrec : parseFileList vs <;> simp
    | cons f fs =>
      rw [List.forall₂_cons, ← ih]
      cases hv : parseFile v with
      | error e => simp
      | ok f' => cases hrec : parseFileList vs <;> simp

theorem parseFiles_eq_ok {v : Value} {fs : List File} :
    parseFiles v = .ok fs ↔
      ∃ vs, v = .list vs ∧ List.Forall₂ (fun v f => parseFile v = .ok f) vs fs := by
  rw [parseFiles]
  cases v with
  | list vs => simp [Value.list?, parseFileList_eq_ok]
  | str | int | dict => simp [Value.list?]

/-- The lengths a parsed layout can have. -/
theorem parseLayout_nonneg {d : Entries} {length : Int} {files : List File}
    (h : parseLayout d = .ok (length, files)) : 0 ≤ length ∧ ∀ f ∈ files, 0 ≤ f.length := by
  rw [parseLayout] at h
  split at h
  · split_ifs at h with hneg
    simp only [Except.ok.injEq, Prod.mk.injEq] at h
    obtain ⟨rfl, rfl⟩ := h
    exact ⟨by omega, by simp⟩
  · split at h
    · simp only [Except.ok.injEq, Prod.mk.injEq] at h
      obtain ⟨rfl, rfl⟩ := h
      exact ⟨Int.le_refl _, by simp⟩
    · split at h
      · simp at h
      · next fs hfs =>
        simp only [Except.ok.injEq, Prod.mk.injEq] at h
        obtain ⟨rfl, rfl⟩ := h
        obtain ⟨vs, -, hall⟩ := parseFiles_eq_ok.mp hfs
        refine ⟨Int.le_refl _, ?_⟩
        clear hfs
        induction hall with
        | nil => simp
        | cons hv _ ih =>
          obtain ⟨-, -, -, hlen, -⟩ := parseFile_eq_ok.mp hv
          exact List.forall_mem_cons.mpr ⟨hlen, ih⟩

theorem wf_of_get? {d : Entries} {k : Bytes} {v : Value} (hd : WfEntries d)
    (h : d.get? k = some v) : WfValue v :=
  wfEntries_iff.mp hd (k, v) (Entries.get?_mem h)

theorem int?_range {d : Entries} {k : Bytes} {n : Int} (hd : WfEntries d)
    (h : d.int? k = some n) : -2 ^ 63 ≤ n ∧ n < 2 ^ 63 := by
  obtain ⟨v, hv, hn⟩ := Option.bind_eq_some_iff.mp h
  rw [Value.int?_eq_some] at hn
  subst hn
  exact wf_of_get? hd hv

theorem parseFile_lt {v : Value} {f : File} (hv : WfValue v) (h : parseFile v = .ok f) :
    f.length < 2 ^ 63 := by
  obtain ⟨d, rfl, hlen, -⟩ := parseFile_eq_ok.mp h
  exact (int?_range hv.2 hlen).2

/-- The lengths of a layout are those of an `int64`. -/
theorem parseLayout_lt {d : Entries} {length : Int} {files : List File} (hd : WfEntries d)
    (h : parseLayout d = .ok (length, files)) :
    length < 2 ^ 63 ∧ ∀ f ∈ files, f.length < 2 ^ 63 := by
  rw [parseLayout] at h
  split at h
  · next n hn =>
    split_ifs at h
    simp only [Except.ok.injEq, Prod.mk.injEq] at h
    obtain ⟨rfl, rfl⟩ := h
    exact ⟨(int?_range hd hn).2, by simp⟩
  · split at h
    · simp only [Except.ok.injEq, Prod.mk.injEq] at h
      obtain ⟨rfl, rfl⟩ := h
      exact ⟨by decide, by simp⟩
    · next v hv =>
      split at h
      · simp at h
      · next fs hfs =>
        simp only [Except.ok.injEq, Prod.mk.injEq] at h
        obtain ⟨rfl, rfl⟩ := h
        obtain ⟨vs, rfl, hall⟩ := parseFiles_eq_ok.mp hfs
        have hwf : WfItems vs := wf_of_get? hd hv
        refine ⟨by decide, ?_⟩
        clear hfs hv
        induction hall with
        | nil => simp
        | cons hf _ ih => exact List.forall_mem_cons.mpr ⟨parseFile_lt hwf.1 hf, ih hwf.2⟩

theorem parseInfo_eq_ok {d : Entries} {info : Info} :
    parseInfo d = .ok info ↔
      d.str? keyName = some info.name ∧ d.int? keyPieceLength = some info.pieceLength ∧
        0 < info.pieceLength ∧
        (∃ pieces, d.str? keyPieces = some pieces ∧ pieces.length % 20 = 0 ∧
          info.pieceHashes = splitPieces pieces) ∧
        parseLayout d = .ok (info.length, info.files) ∧
        info.isPrivate = decide (d.int? keyPrivate = some 1) ∧
        info.fileTree = d.dict? keyFileTree := by
  obtain ⟨name, pieceLength, pieceHashes, length, files, isPrivate, fileTree⟩ := info
  rw [parseInfo]
  constructor
  · intro h
    split at h
    · simp at h
    next name' hname =>
    split at h
    · simp at h
    next pl hpl =>
    split_ifs at h with hpos
    split at h
    · simp at h
    next pieces hpieces =>
    split_ifs at h with hmod
    split at h
    · simp at h
    next len fs hlayout =>
    simp only [Except.ok.injEq, Info.mk.injEq] at h
    obtain ⟨rfl, rfl, rfl, rfl, rfl, rfl, rfl⟩ := h
    exact ⟨hname, hpl, Int.not_le.mp hpos, ⟨pieces, hpieces, by omega, rfl⟩, hlayout, rfl, rfl⟩
  · rintro ⟨hname, hpl, hpos, ⟨pieces, hpieces, hmod, hhash⟩, hlayout, hpriv, htree⟩
    simp only at hname hpl hpos hhash hlayout hpriv htree
    simp only [hname, hpl, hpieces, hlayout, hmod, hpriv, htree, hhash, if_neg (Int.not_le.mpr hpos),
      ne_eq, not_true_eq_false, if_false]

/-- What a successful `Parse` found in the data. -/
theorem parse_eq_ok {H : Digests} {data : Bytes} {tf : TorrentFile} (h : parse H data = .ok tf) :
    ∃ root infoDict : Entries, decode data = .ok (.dict root) ∧
      parseAnnounceList (root.get? keyAnnounceList) = .ok tf.announceList ∧
      root.get? keyInfo = some (.dict infoDict) ∧
      parseInfo infoDict = .ok tf.info ∧
      tf.announce = (root.str? keyAnnounce).getD [] ∧
      tf.infoHash = H.sha1 (encodeValue (.dict infoDict)) := by
  rw [parse] at h
  split at h
  · simp at h
  next decoded hdecode =>
  split at h
  · simp at h
  next root hroot =>
  split at h
  · simp at h
  next announceList hlist =>
  split at h
  · simp at h
  next infoVal hinfo =>
  split at h
  · simp at h
  next infoDict hdict =>
  split at h
  · simp at h
  next info hparse =>
  rw [Except.ok.injEq] at h
  subst h
  rw [Value.dict?_eq_some] at hroot hdict
  subst hroot hdict
  exact ⟨root, infoDict, hdecode, hlist, hinfo, hparse, rfl, rfl⟩

/-- The other way round: what makes `Parse` succeed. -/
theorem parse_ok_of {H : Digests} {data : Bytes} {root infoDict : Entries} {info : Info}
    {announceList : List (List Bytes)} (hdecode : decode data = .ok (.dict root))
    (hlist : parseAnnounceList (root.get? keyAnnounceList) = .ok announceList)
    (hinfo : root.get? keyInfo = some (.dict infoDict)) (hparse : parseInfo infoDict = .ok info) :
    ∃ tf, parse H data = .ok tf ∧ tf.info = info ∧
      tf.infoHash = H.sha1 (encodeValue (.dict infoDict)) := by
  rw [parse, hdecode]
  simp only [Value.dict?, hlist, hinfo, hparse]
  exact ⟨_, rfl, rfl, rfl⟩

/-- A successful call, from a field of its result. -/
theorem exists_parse_eq_ok {H : Digests} {data : Bytes} {β : Type} {f : TorrentFile → β} {b : β}
    (h : (parse H data).toOption.map f = some b) : ∃ tf, parse H data = .ok tf ∧ f tf = b := by
  cases hparse : parse H data with
  | error e => simp [hparse, Except.toOption] at h
  | ok tf => exact ⟨tf, rfl, by simpa [hparse, Except.toOption] using h⟩

/-- The digests one after the other are the pieces string. -/
theorem splitPieces_flatten {pieces : Bytes} (h : pieces.length % 20 = 0) :
    (splitPieces pieces).flatten = pieces := by
  have hprefix : ∀ n, n * 20 ≤ pieces.length →
      ((List.range n).map fun i => slice (i * 20) 20 pieces).flatten = pieces.take (n * 20) := by
    intro n hn
    induction n with
    | zero => simp
    | succ n ih =>
      rw [List.range_succ, List.map_append, List.flatten_append, ih (by omega),
        Nat.succ_mul, List.take_add]
      simp [slice]
  rw [splitPieces, hprefix _ (Nat.div_mul_le_self _ _), Nat.div_mul_cancel (Nat.dvd_of_mod_eq_zero h),
    List.take_length]

end Torrent
end Stor
