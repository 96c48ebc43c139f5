import Stor.Torrent.Parse

/-!
# The info hash and the bytes of the file

`Parse` hashes a new encoding of the decoded info dictionary.  The bytes the file
itself has for that dictionary are its `InfoSpan`.  The two agree exactly when
the file spells the dictionary canonically at every level
(`infoHash_eq_span_iff`).
-/

namespace Stor.Torrent

open Lib Bencode

/-- `w` is the part of `data` that spells the value of the top-level key `info`:
the data starts with a dictionary, and `w` is the text of its last entry for that
key.  When a key is repeated the last value wins, as in the decoder. -/
def InfoSpan (data w : Bytes) : Prop :=
  ∃ es₁ ds r es₂ rest, (Tree.dict (es₁ ++ (ds, keyInfo, r) :: es₂)).Shaped ∧
    data = (Tree.dict (es₁ ++ (ds, keyInfo, r) :: es₂)).text ++ rest ∧
    keyInfo ∉ Tree.keys es₂ ∧ w = r.text

/-- `w` spells a value the way the encoder does: no leading zero in the length of
a string, no plus sign before an integer, and no repeated key in a dictionary, at
any level. -/
def CanonicalBytes (w : Bytes) : Prop := ∃ r : Tree, r.Shaped ∧ r.text = w ∧ r.Canonical

theorem canonicalBytes_text {r : Tree} (h : r.Shaped) : CanonicalBytes r.text ↔ r.Canonical := by
  constructor
  · rintro ⟨r', h', htext, hcanonical⟩
    rwa [← Tree.text_injective h' h htext]
  · exact fun hcanonical => ⟨r, h, rfl, hcanonical⟩

theorem valueEntries_get?_of_notMem {k : Bytes} {es : List (Bytes × Bytes × Tree)} {d : Entries}
    (h : k ∉ Tree.keys es) : (Tree.valueEntries es d).get? k = d.get? k := by
  induction es generalizing d with
  | nil => rw [Tree.valueEntries]
  | cons e es ih =>
    obtain ⟨ds, k', r⟩ := e
    rw [Tree.keys, List.map_cons, List.mem_cons, not_or] at h
    rw [Tree.valueEntries, ih h.2, Entries.get?_put_of_ne h.1]

/-- The last entry for a key is the one in the decoded map. -/
theorem valueEntries_get?_last {k ds : Bytes} {r : Tree} {es₁ es₂ : List (Bytes × Bytes × Tree)}
    {d : Entries} (h : k ∉ Tree.keys es₂) :
    (Tree.valueEntries (es₁ ++ (ds, k, r) :: es₂) d).get? k = some r.value := by
  induction es₁ generalizing d with
  | nil =>
    rw [List.nil_append, Tree.valueEntries, valueEntries_get?_of_notMem h, Entries.get?_put_self]
  | cons e es₁ ih =>
    obtain ⟨ds', k', r'⟩ := e
    rw [List.cons_append, Tree.valueEntries, ih]

theorem exists_last_entry {k : Bytes} {es : List (Bytes × Bytes × Tree)} (h : k ∈ Tree.keys es) :
    ∃ es₁ ds r es₂, es = es₁ ++ (ds, k, r) :: es₂ ∧ k ∉ Tree.keys es₂ := by
  induction es with
  | nil => exact absurd h List.not_mem_nil
  | cons e es ih =>
    obtain ⟨ds, k', r⟩ := e
    by_cases hmem : k ∈ Tree.keys es
    · obtain ⟨es₁, ds', r', es₂, rfl, hlast⟩ := ih hmem
      exact ⟨(ds, k', r) :: es₁, ds', r', es₂, rfl, hlast⟩
    · rcases List.mem_cons.mp h with rfl | h
      · exact ⟨[], ds, r, es, rfl, hmem⟩
      · exact absurd h hmem

theorem mem_keys_append_cons (k ds : Bytes) (r : Tree) (es₁ es₂ : List (Bytes × Bytes × Tree)) :
    k ∈ Tree.keys (es₁ ++ (ds, k, r) :: es₂) := by
  simp [Tree.keys]

theorem last_entry_unique {k ds ds' : Bytes} {r r' : Tree}
    {es₁ es₂ fs₁ fs₂ : List (Bytes × Bytes × Tree)} (hes : k ∉ Tree.keys es₂)
    (hfs : k ∉ Tree.keys fs₂) (heq : es₁ ++ (ds, k, r) :: es₂ = fs₁ ++ (ds', k, r') :: fs₂) :
    r = r' := by
  induction es₁ generalizing fs₁ with
  | nil =>
    cases fs₁ with
    | nil =>
      rw [List.nil_append, List.nil_append, List.cons.injEq, Prod.mk.injEq, Prod.mk.injEq] at heq
      exact heq.1.2.2
    | cons f fs₁ =>
      rw [List.nil_append, List.cons_append, List.cons.injEq] at heq
      exact absurd (heq.2 ▸ mem_keys_append_cons k ds' r' fs₁ fs₂) hes
  | cons e es₁ ih =>
    cases fs₁ with
    | nil =>
      rw [List.nil_append, List.cons_append, List.cons.injEq] at heq
      exact absurd (heq.2 ▸ mem_keys_append_cons k ds r es₁ es₂) hfs
    | cons f fs₁ =>
      rw [List.cons_append, List.cons_append, List.cons.injEq] at heq
      exact ih heq.2

theorem shapedEntries_append {es₁ es₂ : List (Bytes × Bytes × Tree)} :
    Tree.ShapedEntries (es₁ ++ es₂) ↔ Tree.ShapedEntries es₁ ∧ Tree.ShapedEntries es₂ := by
  induction es₁ with
  | nil => simp [Tree.ShapedEntries]
  | cons e es ih =>
    obtain ⟨ds, k, r⟩ := e
    simp only [List.cons_append, Tree.ShapedEntries, ih, and_assoc]

/-- The data of a torrent has exactly one span for its info dictionary, and the
decoded dictionary is the value spelled there. -/
theorem infoSpan_of_decode {data : Bytes} {root infoDict : Entries}
    (hdecode : decode data = .ok (.dict root)) (hinfo : root.get? keyInfo = some (.dict infoDict)) :
    ∃ r : Tree, r.Shaped ∧ r.value = .dict infoDict ∧ ∀ w, InfoSpan data w ↔ w = r.text := by
  rw [decode] at hdecode
  split at hdecode
  · simp at hdecode
  next v rest total hv =>
  rw [Except.ok.injEq] at hdecode
  subst hdecode
  obtain ⟨t, ht, htext, hvalue⟩ := decodeValue_sound hv
  cases t with
  | str | int | list => simp [Tree.value] at hvalue
  | dict es =>
    rw [Tree.value, Value.dict.injEq] at hvalue
    subst hvalue
    have hmem : keyInfo ∈ Tree.keys es := by
      by_contra hmem
      rw [valueEntries_get?_of_notMem hmem] at hinfo
      simp [Entries.get?] at hinfo
    obtain ⟨es₁, ds, r, es₂, rfl, hlast⟩ := exists_last_entry hmem
    rw [valueEntries_get?_last hlast, Option.some_inj] at hinfo
    have hr : r.Shaped := (shapedEntries_append.mp ht.2).2.2.1
    refine ⟨r, hr, hinfo, fun w => ⟨?_, ?_⟩⟩
    · -- another reading of the data is the same tree, with the same last entry
      rintro ⟨fs₁, ds', r', fs₂, rest', ht', htext', hlast', rfl⟩
      obtain ⟨heq, -⟩ := Tree.text_append_inj ht ht' (htext.symm.trans htext')
      rw [Tree.dict.injEq] at heq
      rw [last_entry_unique hlast hlast' heq]
    · rintro rfl
      exact ⟨es₁, ds, r, es₂, rest, ht, htext, hlast, rfl⟩

/-- The bytes a call of `DecodeBytes` consumed are the text of a tree. -/
theorem decodeBytes_sound {data : Bytes} {v : Value} {n : Nat}
    (h : decodeBytes data = .ok (v, n)) :
    ∃ r : Tree, r.Shaped ∧ r.value = v ∧ data.take n = r.text := by
  rw [decodeBytes] at h
  split at h
  · simp at h
  next v' rest total hv =>
  rw [Except.ok.injEq, Prod.mk.injEq] at h
  obtain ⟨rfl, rfl⟩ := h
  obtain ⟨r, hr, rfl, hvalue⟩ := decodeValue_sound hv
  refine ⟨r, hr, hvalue, ?_⟩
  rw [List.length_append, Nat.add_sub_cancel, List.take_left]

/-- The info hash is the digest of the file's own bytes exactly when these are
canonical, and likewise the encoder reproduces the bytes the decoder consumed
exactly when they are canonical. -/
theorem infoHash_eq_span_iff (H : Digests) (hinj : Function.Injective H.sha1) :
    (∀ data tf, parse H data = .ok tf →
      ∃ w, InfoSpan data w ∧ (∀ w', InfoSpan data w' → w' = w) ∧
        (tf.infoHash = H.sha1 w ↔ CanonicalBytes w)) ∧
    (∀ data v n, decodeBytes data = .ok (v, n) →
      (encodeValue v = data.take n ↔ CanonicalBytes (data.take n))) := by
  refine ⟨fun data tf h => ?_, fun data v n h => ?_⟩
  · obtain ⟨root, infoDict, hdecode, -, hinfo, -, -, hhash⟩ := parse_eq_ok h
    obtain ⟨r, hr, hvalue, hspan⟩ := infoSpan_of_decode hdecode hinfo
    refine ⟨r.text, (hspan _).mpr rfl, fun w hw => (hspan w).mp hw, ?_⟩
    rw [hhash, hinj.eq_iff, ← hvalue, Tree.encodeValue_value_iff hr, canonicalBytes_text hr]
  · obtain ⟨r, hr, rfl, htext⟩ := decodeBytes_sound h
    rw [htext, Tree.encodeValue_value_iff hr, canonicalBytes_text hr]

def canonicalTorrent : Bytes :=
  ascii "d4:infod6:lengthi5e4:name1:a12:piece lengthi5e6:pieces0:ee"

/-- The same torrent with the length of its name written `01`. -/
def paddedTorrent : Bytes :=
  ascii "d4:infod6:lengthi5e4:name01:a12:piece lengthi5e6:pieces0:ee"

def paddedInfo : Bytes := ascii "d6:lengthi5e4:name01:a12:piece lengthi5e6:pieces0:e"

theorem infoHash_eq_span_iff_canonicalTorrent :
    ∃ tf w, parse plainDigests canonicalTorrent = .ok tf ∧ InfoSpan canonicalTorrent w ∧
      (tf.infoHash = plainDigests.sha1 w ↔ CanonicalBytes w) := by
  have hlen : (parse plainDigests canonicalTorrent).toOption.map (fun tf => tf.info.length) =
      some 5 := by
    rw [canonicalTorrent, ascii_ofList]
    decide +kernel
  obtain ⟨tf, hparse, -⟩ := exists_parse_eq_ok hlen
  obtain ⟨w, hw, -, hiff⟩ :=
    (infoHash_eq_span_iff plainDigests Function.injective_id).1 canonicalTorrent tf hparse
  exact ⟨tf, w, hparse, hw, hiff⟩

/-- The entries of the info dictionary of `paddedTorrent`. -/
def paddedEntries : List (Bytes × Bytes × Tree) :=
  [(ascii "6", keyLength, .int (ascii "5")), (ascii "4", keyName, .str (ascii "01") (ascii "a")),
    (ascii "12", keyPieceLength, .int (ascii "5")),
    (ascii "6", keyPieces, .str (ascii "0") [])]

theorem infoHash_ne_span :
    Function.Injective plainDigests.sha1 ∧ ∃ tf, parse plainDigests paddedTorrent = .ok tf ∧
      InfoSpan paddedTorrent paddedInfo ∧ tf.infoHash ≠ plainDigests.sha1 paddedInfo := by
  have hhash : (parse plainDigests paddedTorrent).toOption.map TorrentFile.infoHash =
      some (ascii "d6:lengthi5e4:name1:a12:piece lengthi5e6:pieces0:e") := by
    rw [paddedTorrent, ascii_ofList, ascii_ofList]
    decide +kernel
  obtain ⟨tf, hparse, hhash⟩ := exists_parse_eq_ok hhash
  refine ⟨Function.injective_id, tf, hparse, ?_, ?_⟩
  · refine ⟨[], ascii "4", .dict paddedEntries, [], [], ?_, ?_, by decide, ?_⟩
    · decide +kernel
    · rw [paddedTorrent, ascii_ofList]
      decide +kernel
    · rw [paddedInfo, ascii_ofList]
      decide +kernel
  · rw [hhash, paddedInfo, ascii_ofList, ascii_ofList]
    decide +kernel

end Stor.Torrent
