import Stor.Magnet.Parse
import Stor.Torrent.Parse

/-!
# Metadata of a magnet link

The end of `fetchMetadataFromPeer` and of `resolveMetadata` in
`engine/session.go`.  The metadata of a magnet link arrives as bytes with the
digest the link asks for.  The session parses them, and stores for the next start
a torrent file that `mustReencode` rebuilds from the parsed fields.
-/

namespace Stor.Engine

open Lib Bencode Torrent

inductive FetchError where
  | decode (e : DecodeError)
  | notDict
  | parse (e : ParseError)
  deriving DecidableEq, Repr

/-- `fetchMetadataFromPeer` behind `FetchMetadata`, which returned bytes with the
right digest. -/
def fetchMetadataFromPeer (H : Digests) (metadata : Bytes) : Except FetchError TorrentFile :=
  match decode metadata with
  | .error e => .error (.decode e)
  | .ok decoded =>
    match decoded.dict? with
    | none => .error .notDict
    | some infoDict =>
      match Torrent.parse H
          (encodeValue (.dict (Entries.ofList [(keyInfo, .dict infoDict)]))) with
      | .error e => .error (.parse e)
      | .ok tf => .ok tf

def reencodeFile (f : File) : Value :=
  .dict (Entries.ofList [(keyLength, .int f.length), (keyPath, .list (f.path.map Value.str))])

/-- `mustReencode`: an info dictionary from the fields that were parsed. -/
def mustReencode (info : Info) : Entries :=
  let d := Entries.ofList [(keyName, .str info.name), (keyPieceLength, .int info.pieceLength),
    (keyPieces, .str info.pieceHashes.flatten)]
  if info.length > 0 then d.put keyLength (.int info.length)
  else d.put keyFiles (.list (info.files.map reencodeFile))

/-- The trackers of the link replace those of the metadata, which has none. -/
def restoreAnnounce (m : Magnet) (tf : TorrentFile) : TorrentFile :=
  match m.trackers with
  | [] => tf
  | tr :: _ => { tf with announce := tr, announceList := m.trackers.map fun u => [u] }

/-- The torrent file stored for the next start. -/
def storedTorrent (tf : TorrentFile) : Entries :=
  let fullDict := Entries.ofList [(keyInfo, .dict (mustReencode tf.info))]
  if tf.announce ≠ [] then fullDict.put keyAnnounce (.str tf.announce) else fullDict

/-- `record.TorrentData` behind `resolveMetadata`. -/
def torrentData (m : Magnet) (tf : TorrentFile) : Bytes :=
  encodeValue (.dict (storedTorrent (restoreAnnounce m tf)))

/-! ## What is rebuilt -/

theorem mustReencode_single {info : Info} (h : 0 < info.length) :
    mustReencode info = [(keyLength, .int info.length), (keyName, .str info.name),
      (keyPieceLength, .int info.pieceLength), (keyPieces, .str info.pieceHashes.flatten)] := by
  rw [mustReencode, if_pos h]
  rfl

theorem mustReencode_multi {info : Info} (h : ¬ 0 < info.length) :
    mustReencode info = [(keyFiles, .list (info.files.map reencodeFile)),
      (keyName, .str info.name), (keyPieceLength, .int info.pieceLength),
      (keyPieces, .str info.pieceHashes.flatten)] := by
  rw [mustReencode, if_neg h]
  rfl

theorem reencodeFile_eq (f : File) :
    reencodeFile f = .dict [(keyLength, .int f.length), (keyPath, .list (f.path.map .str))] := rfl

theorem storedTorrent_eq (tf : TorrentFile) :
    storedTorrent tf = (if tf.announce ≠ [] then [(keyAnnounce, .str tf.announce)] else []) ++
      [(keyInfo, .dict (mustReencode tf.info))] := by
  rw [storedTorrent]
  split_ifs <;> rfl

/-- An info dictionary with exactly the keys that `mustReencode` writes: those of
a single file that is not empty, or those of a list of files that have a length
and a path and nothing else. -/
def PlainInfo (d : Entries) : Prop :=
  (d.map Prod.fst = [keyLength, keyName, keyPieceLength, keyPieces] ∧
    ∃ n, d.int? keyLength = some n ∧ 0 < n) ∨
  (d.map Prod.fst = [keyFiles, keyName, keyPieceLength, keyPieces] ∧
    ∀ vs, d.list? keyFiles = some vs → ∀ v ∈ vs,
      ∃ fd : Entries, v = .dict fd ∧ fd.map Prod.fst = [keyLength, keyPath])

/-- A map with four known keys. -/
theorem entries_eq_four {d : Entries} {k₁ k₂ k₃ k₄ : Bytes}
    (h : d.map Prod.fst = [k₁, k₂, k₃, k₄]) :
    ∃ v₁ v₂ v₃ v₄, d = [(k₁, v₁), (k₂, v₂), (k₃, v₃), (k₄, v₄)] := by
  match d, h with
  | [(_, v₁), (_, v₂), (_, v₃), (_, v₄)], h =>
    simp only [List.map_cons, List.map_nil, List.cons.injEq, and_true] at h
    obtain ⟨rfl, rfl, rfl, rfl⟩ := h
    exact ⟨v₁, v₂, v₃, v₄, rfl⟩

theorem reencodeFile_of_keys {fd : Entries} {f : File}
    (hkeys : fd.map Prod.fst = [keyLength, keyPath]) (h : parseFile (.dict fd) = .ok f) :
    reencodeFile f = .dict fd := by
  obtain ⟨fd', heq, hlen, -, hpath⟩ := parseFile_eq_ok.mp h
  rw [Value.dict.injEq] at heq
  subst heq
  match fd, hkeys, hlen, hpath with
  | [(_, v₁), (_, v₂)], hkeys, hlen, hpath =>
    simp only [List.map_cons, List.map_nil, List.cons.injEq, and_true] at hkeys
    obtain ⟨rfl, rfl⟩ := hkeys
    have h₁ : v₁.int? = some f.length := hlen
    have h₂ : v₂.list? = some (f.path.map .str) := hpath
    rw [Value.int?_eq_some] at h₁
    rw [Value.list?_eq_some] at h₂
    rw [reencodeFile_eq, h₁, h₂]

theorem map_reencodeFile {vs : List Value} {fs : List File}
    (h : List.Forall₂ (fun v f => parseFile v = .ok f) vs fs)
    (hkeys : ∀ v ∈ vs, ∃ fd : Entries, v = .dict fd ∧ fd.map Prod.fst = [keyLength, keyPath]) :
    fs.map reencodeFile = vs := by
  induction h with
  | nil => rfl
  | cons hv _ ih =>
    obtain ⟨⟨fd, rfl, hfd⟩, hrest⟩ := List.forall_mem_cons.mp hkeys
    rw [List.map_cons, reencodeFile_of_keys hfd hv, ih hrest]

/-- The rebuilt dictionary is the parsed one exactly when that one was plain. -/
theorem mustReencode_eq_iff {d : Entries} {info : Info} (h : parseInfo d = .ok info) :
    mustReencode info = d ↔ PlainInfo d := by
  obtain ⟨hname, hpl, -, ⟨pieces, hpieces, hmod, hhashes⟩, hlayout, -, -⟩ := parseInfo_eq_ok.mp h
  have hflat : info.pieceHashes.flatten = pieces := by rw [hhashes, splitPieces_flatten hmod]
  constructor
  · rintro rfl
    by_cases hpos : 0 < info.length
    · rw [mustReencode_single hpos]
      exact .inl ⟨rfl, info.length, rfl, hpos⟩
    · rw [mustReencode_multi hpos]
      refine .inr ⟨rfl, fun vs hvs v hv => ?_⟩
      have hvs' : some (info.files.map reencodeFile) = some vs := hvs
      rw [← Option.some_inj.mp hvs'] at hv
      obtain ⟨f, -, rfl⟩ := List.mem_map.mp hv
      exact ⟨_, reencodeFile_eq f, rfl⟩
  · rintro (⟨hkeys, n, hn, hpos⟩ | ⟨hkeys, hfiles⟩)
    · have hlen : info.length = n := by
        rw [parseLayout, hn] at hlayout
        simp only [if_neg (Int.not_lt.mpr (Int.le_of_lt hpos)), Except.ok.injEq,
          Prod.mk.injEq] at hlayout
        exact hlayout.1.symm
      obtain ⟨v₁, v₂, v₃, v₄, rfl⟩ := entries_eq_four hkeys
      have h₁ : v₁.int? = some n := hn
      have h₂ : v₂.str? = some info.name := hname
      have h₃ : v₃.int? = some info.pieceLength := hpl
      have h₄ : v₄.str? = some pieces := hpieces
      rw [Value.int?_eq_some] at h₁ h₃
      rw [Value.str?_eq_some] at h₂ h₄
      rw [mustReencode_single (by omega), hlen, hflat, h₁, h₂, h₃, h₄]
    · obtain ⟨v₁, v₂, v₃, v₄, rfl⟩ := entries_eq_four hkeys
      have h₂ : v₂.str? = some info.name := hname
      have h₃ : v₃.int? = some info.pieceLength := hpl
      have h₄ : v₄.str? = some pieces := hpieces
      rw [Value.int?_eq_some] at h₃
      rw [Value.str?_eq_some] at h₂ h₄
      have hint : Entries.int? keyLength [(keyFiles, v₁), (keyName, v₂), (keyPieceLength, v₃),
          (keyPieces, v₄)] = none := rfl
      have hget : Entries.get? keyFiles [(keyFiles, v₁), (keyName, v₂), (keyPieceLength, v₃),
          (keyPieces, v₄)] = some v₁ := rfl
      rw [parseLayout, hint, hget] at hlayout
      cases hfs : parseFiles v₁ with
      | error e => simp [hfs] at hlayout
      | ok fs =>
        simp only [hfs, Except.ok.injEq, Prod.mk.injEq] at hlayout
        obtain ⟨vs, rfl, hall⟩ := parseFiles_eq_ok.mp hfs
        have hmap := map_reencodeFile hall (hfiles vs rfl)
        rw [mustReencode_multi (by omega), hflat, ← hlayout.2, hmap, h₂, h₃, h₄]

theorem wf_reencodeFile {f : File} (hlo : 0 ≤ f.length) (hhi : f.length < 2 ^ 63) :
    WfValue (reencodeFile f) := by
  rw [reencodeFile_eq]
  refine ⟨show KeysSorted _ from ?_, ⟨by omega, hhi⟩, ?_, trivial⟩
  · show [keyLength, keyPath].Pairwise (· < ·)
    decide
  · refine wfItems_iff.mpr fun v hv => ?_
    obtain ⟨s, -, rfl⟩ := List.mem_map.mp hv
    trivial

theorem wf_mustReencode {d : Entries} {info : Info} (hd : WfEntries d)
    (h : parseInfo d = .ok info) : WfValue (.dict (mustReencode info)) := by
  obtain ⟨-, hpl, -, -, hlayout, -, -⟩ := parseInfo_eq_ok.mp h
  have hnonneg := parseLayout_nonneg hlayout
  have hlt := parseLayout_lt hd hlayout
  by_cases hpos : 0 < info.length
  · rw [mustReencode_single hpos]
    refine ⟨?_, ⟨by omega, hlt.1⟩, trivial, int?_range hd hpl, trivial, trivial⟩
    show [keyLength, keyName, keyPieceLength, keyPieces].Pairwise (· < ·)
    decide
  · rw [mustReencode_multi hpos]
    refine ⟨?_, wfItems_iff.mpr fun v hv => ?_, trivial, int?_range hd hpl, trivial, trivial⟩
    · show [keyFiles, keyName, keyPieceLength, keyPieces].Pairwise (· < ·)
      decide
    · obtain ⟨f, hf, rfl⟩ := List.mem_map.mp hv
      exact wf_reencodeFile (hnonneg.2 f hf) (hlt.2 f hf)

theorem wf_storedTorrent {d : Entries} {tf : TorrentFile} (hd : WfEntries d)
    (h : parseInfo d = .ok tf.info) : WfValue (.dict (storedTorrent tf)) := by
  have hwf := wf_mustReencode hd h
  rw [storedTorrent_eq]
  split_ifs
  · refine ⟨?_, trivial, hwf, trivial⟩
    show [keyAnnounce, keyInfo].Pairwise (· < ·)
    decide
  · exact ⟨List.pairwise_singleton _ _, hwf, trivial⟩

theorem storedTorrent_get?_info (tf : TorrentFile) :
    (storedTorrent tf).get? keyInfo = some (.dict (mustReencode tf.info)) := by
  rw [storedTorrent_eq]
  split_ifs <;> rfl

theorem storedTorrent_get?_announceList (tf : TorrentFile) :
    (storedTorrent tf).get? keyAnnounceList = none := by
  rw [storedTorrent_eq]
  split_ifs <;> rfl

/-! ## Identity -/

theorem wf_singleton {k : Bytes} {v : Value} (h : WfValue v) :
    WfValue (.dict (Entries.ofList [(k, v)])) :=
  ⟨List.pairwise_singleton _ _, h, trivial⟩

/-- What a successful fetch found in the metadata. -/
theorem fetchMetadataFromPeer_eq_ok {H : Digests} {m : Bytes} {tf : TorrentFile}
    (h : fetchMetadataFromPeer H m = .ok tf) :
    ∃ d : Entries, decode m = .ok (.dict d) ∧ parseInfo d = .ok tf.info ∧
      tf.infoHash = H.sha1 (encodeValue (.dict d)) ∧ tf.announce = [] ∧
      WfValue (.dict d) ∧ Fits (.dict d) 1 ∧ items (.dict d) + 1 ≤ maxTotalItems := by
  rw [fetchMetadataFromPeer] at h
  split at h
  · simp at h
  next decoded hdecode =>
  split at h
  · simp at h
  next d hd =>
  rw [Value.dict?_eq_some] at hd
  subst hd
  split at h
  · simp at h
  next tf' hparse =>
  rw [Except.ok.injEq] at h
  subst h
  have hwf := (decode_eq_ok hdecode).1
  obtain ⟨root, infoDict, hroot, -, hinfo, hparseInfo, hannounce, hhash⟩ := parse_eq_ok hparse
  obtain ⟨-, hfits, hitems⟩ := decode_eq_ok hroot
  have heq := eq_of_decode_encodeValue (wf_singleton hwf) hroot
  rw [Value.dict.injEq] at heq
  subst heq
  have hdict : some (Value.dict d) = some (.dict infoDict) := hinfo
  rw [Option.some_inj, Value.dict.injEq] at hdict
  subst hdict
  refine ⟨d, hdecode, hparseInfo, hhash, hannounce, hwf, hfits.2.2.2.1, ?_⟩
  have hone : items (.dict (Entries.ofList [(keyInfo, .dict d)])) = 1 + items (.dict d) + 0 := rfl
  omega

theorem restoreAnnounce_info (m : Magnet) (tf : TorrentFile) :
    (restoreAnnounce m tf).info = tf.info := by
  rw [restoreAnnounce]
  split <;> rfl

theorem restoreAnnounce_announce {m : Magnet} {tf : TorrentFile} (h : tf.announce = []) :
    (restoreAnnounce m tf).announce = m.trackers.head?.getD [] := by
  rw [restoreAnnounce]
  split
  · next hnil => rw [h, hnil]; rfl
  · next hcons => rw [hcons]; rfl

/-- The file and piece layout and the rules of the swarm. -/
def SameLayout (a b : Info) : Prop :=
  a.isPrivate = b.isPrivate ∧ a.name = b.name ∧ a.pieceLength = b.pieceLength ∧
    a.pieceHashes = b.pieceHashes ∧ a.length = b.length ∧ a.files = b.files

/-- The torrent keeps its identity through a fetch and a restart. -/
def KeepsIdentity (H : Digests) (m : Magnet) (tf : TorrentFile) : Prop :=
  tf.infoHash = m.infoHash ∧
    ∃ tf', Torrent.parse H (torrentData m tf) = .ok tf' ∧ tf'.infoHash = m.infoHash ∧
      SameLayout tf'.info tf.info

/-- The first tracker fits into the stored file beside the info dictionary. -/
def AnnounceFits (m : Magnet) (d : Entries) : Prop :=
  m.trackers.head?.getD [] = [] ∨
    ((m.trackers.head?.getD []).length ≤ maxStringLength ∧ items (.dict d) + 2 ≤ maxTotalItems)

theorem fits_storedTorrent {tf : TorrentFile} {d : Entries} (h : mustReencode tf.info = d) :
    Fits (.dict (storedTorrent tf)) 0 ∧ items (.dict (storedTorrent tf)) ≤ maxTotalItems ↔
      Fits (.dict d) 1 ∧ items (.dict d) + 1 ≤ maxTotalItems ∧
        (tf.announce = [] ∨
          (tf.announce.length ≤ maxStringLength ∧ items (.dict d) + 2 ≤ maxTotalItems)) := by
  have hinfo : keyInfo.length ≤ maxStringLength := by decide
  have hkey : keyAnnounce.length ≤ maxStringLength := by decide
  have htwo : 2 ≤ maxCollectionSize := by decide
  rw [storedTorrent_eq, h]
  by_cases hne : tf.announce = []
  · simp only [hne, ne_eq, not_true_eq_false, if_false, List.nil_append, Fits, FitsEntries, items,
      itemsEntries, List.length_cons, List.length_nil]
    constructor
    · rintro ⟨⟨-, -, -, hf, -⟩, hi⟩
      exact ⟨hf, by omega, .inl trivial⟩
    · rintro ⟨hf, hi, -⟩
      exact ⟨⟨by decide, by omega, hinfo, hf, trivial⟩, by omega⟩
  · simp only [hne, ne_eq, not_false_eq_true, if_true, List.cons_append, List.nil_append, Fits,
      FitsEntries, items, itemsEntries, List.length_cons, List.length_nil, false_or]
    constructor
    · rintro ⟨⟨-, -, -, ⟨-, hs⟩, -, hf, -⟩, hi⟩
      exact ⟨hf, by omega, hs, by omega⟩
    · rintro ⟨hf, -, hs, hi⟩
      exact ⟨⟨by decide, by omega, hkey, ⟨by decide, hs⟩, hinfo, hf, trivial⟩, by omega⟩

/-- A magnet torrent keeps its identity exactly when its metadata is the
canonical encoding of a plain info dictionary, and its first tracker fits beside
it. -/
theorem keepsIdentity_iff (H : Digests) (hinj : Function.Injective H.sha1) (m : Magnet)
    (metadata : Bytes) (hdigest : H.sha1 metadata = m.infoHash) (tf : TorrentFile)
    (hfetch : fetchMetadataFromPeer H metadata = .ok tf) :
    KeepsIdentity H m tf ↔
      ∃ d : Entries, WfValue (.dict d) ∧ metadata = encodeValue (.dict d) ∧ PlainInfo d ∧
        AnnounceFits m d := by
  obtain ⟨d, hdecode, hparse, hhash, hann, hwf, hfits, hitems⟩ := fetchMetadataFromPeer_eq_ok hfetch
  have hstored : parseInfo d = .ok (restoreAnnounce m tf).info := by rw [restoreAnnounce_info, hparse]
  have hwfStored := wf_storedTorrent hwf.2 hstored
  have hannounce := restoreAnnounce_announce (m := m) hann
  constructor
  · rintro ⟨hsame, tf', hparse', hsame', -⟩
    rw [hhash, ← hdigest, hinj.eq_iff] at hsame
    obtain ⟨root, infoDict, hroot, -, hinfo, -, -, hhash'⟩ := parse_eq_ok hparse'
    have heq := eq_of_decode_encodeValue hwfStored hroot
    rw [Value.dict.injEq] at heq
    subst heq
    rw [storedTorrent_get?_info, Option.some_inj, Value.dict.injEq] at hinfo
    rw [hhash', ← hdigest, hinj.eq_iff, ← hinfo, ← hsame] at hsame'
    have hre := encodeValue_injective (wf_mustReencode hwf.2 hstored) hwf hsame'
    rw [Value.dict.injEq] at hre
    have hlimits := (fits_storedTorrent hre).mp (decode_eq_ok hroot).2
    rw [hannounce] at hlimits
    exact ⟨d, hwf, hsame.symm, (mustReencode_eq_iff hstored).mp hre, hlimits.2.2⟩
  · rintro ⟨d', hwf', rfl, hplain, hfitsAnn⟩
    have heq := eq_of_decode_encodeValue hwf' hdecode
    rw [Value.dict.injEq] at heq
    subst heq
    have hre := (mustReencode_eq_iff hstored).mpr hplain
    have hlimits := (fits_storedTorrent hre).mpr ⟨hfits, hitems, by rw [hannounce]; exact hfitsAnn⟩
    have hroot := decode_encodeValue hwfStored hlimits.1 hlimits.2
    have hlist : parseAnnounceList ((storedTorrent (restoreAnnounce m tf)).get? keyAnnounceList) =
        .ok [] := by rw [storedTorrent_get?_announceList]; rfl
    have hinfo := storedTorrent_get?_info (restoreAnnounce m tf)
    rw [hre] at hinfo
    obtain ⟨tf', hparse', hinfo', hhash'⟩ := parse_ok_of (H := H) hroot hlist hinfo hparse
    refine ⟨hhash.trans hdigest, tf', hparse', hhash'.trans hdigest, ?_⟩
    rw [hinfo']
    exact ⟨rfl, rfl, rfl, rfl, rfl, rfl⟩

/-- A successful fetch, from a function of its result. -/
theorem exists_fetchMetadata_eq_ok {H : Digests} {m : Bytes} {β : Type} {f : TorrentFile → β}
    {b : β} (h : (fetchMetadataFromPeer H m).toOption.map f = some b) :
    ∃ tf, fetchMetadataFromPeer H m = .ok tf ∧ f tf = b := by
  cases hfetch : fetchMetadataFromPeer H m with
  | error e => simp [hfetch, Except.toOption] at h
  | ok tf => exact ⟨tf, rfl, by simpa [hfetch, Except.toOption] using h⟩

/-- A link without trackers whose digest is the given one. -/
def magnetOf (infoHash : Bytes) : Magnet :=
  ⟨infoHash, List.replicate 32 0, false, [], [], []⟩

def plainMetadata : Bytes := ascii "d6:lengthi5e4:name1:a12:piece lengthi5e6:pieces0:e"

def privateMetadata : Bytes :=
  ascii "d6:lengthi5e4:name1:a12:piece lengthi5e6:pieces0:7:privatei1ee"

theorem keepsIdentity_iff_plainMetadata :
    ∃ tf, fetchMetadataFromPeer plainDigests plainMetadata = .ok tf ∧
      (KeepsIdentity plainDigests (magnetOf plainMetadata) tf ↔
        ∃ d : Entries, WfValue (.dict d) ∧ plainMetadata = encodeValue (.dict d) ∧ PlainInfo d ∧
          AnnounceFits (magnetOf plainMetadata) d) := by
  have hlen : (fetchMetadataFromPeer plainDigests plainMetadata).toOption.map
      (fun tf => tf.info.length) = some 5 := by
    rw [plainMetadata, ascii_ofList]
    decide +kernel
  obtain ⟨tf, hfetch, -⟩ := exists_fetchMetadata_eq_ok hlen
  exact ⟨tf, hfetch, keepsIdentity_iff plainDigests Function.injective_id (magnetOf plainMetadata)
    plainMetadata rfl tf hfetch⟩

/-- The private flag is lost: the stored file parses as that of a public torrent,
with another digest. -/
theorem not_keepsIdentity_private :
    Function.Injective plainDigests.sha1 ∧
      plainDigests.sha1 privateMetadata = (magnetOf privateMetadata).infoHash ∧
      ∃ tf, fetchMetadataFromPeer plainDigests privateMetadata = .ok tf ∧
        ¬ KeepsIdentity plainDigests (magnetOf privateMetadata) tf := by
  have hfetch : (fetchMetadataFromPeer plainDigests privateMetadata).toOption.map
      (fun tf => (tf.info.isPrivate, torrentData (magnetOf privateMetadata) tf)) =
      some (true, ascii "d4:infod6:lengthi5e4:name1:a12:piece lengthi5e6:pieces0:ee") := by
    rw [privateMetadata, ascii_ofList, ascii_ofList]
    decide +kernel
  have hstored : (Torrent.parse plainDigests
      (ascii "d4:infod6:lengthi5e4:name1:a12:piece lengthi5e6:pieces0:ee")).toOption.map
      (fun tf => tf.info.isPrivate) = some false := by
    rw [ascii_ofList]
    decide +kernel
  obtain ⟨tf, hfetch, hfields⟩ := exists_fetchMetadata_eq_ok hfetch
  obtain ⟨hprivate, hdata⟩ := Prod.mk.inj hfields
  obtain ⟨tf', hparse, hpublic⟩ := exists_parse_eq_ok hstored
  refine ⟨Function.injective_id, rfl, tf, hfetch, ?_⟩
  rintro ⟨-, tf'', hparse'', -, hsame, -⟩
  rw [hdata, hparse, Except.ok.injEq] at hparse''
  rw [← hparse'', hpublic, hprivate] at hsame
  exact absurd hsame (by decide)

end Stor.Engine
