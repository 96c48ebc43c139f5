import Stor.Bencode.Encode
import Stor.Peer.ExtConn

/-!
# The exchange of metadata

`magnet/metadata.go`.  The info dictionary is asked for in blocks of 16 KiB, one request and one
answer at a time.  An answer is a bencoded dictionary with the block behind it.

SHA-1 is a parameter, and the text of a decoding error is left out.
-/

namespace Stor.Magnet

open Lib Bencode Peer

def metadataBlockSize : Nat := 16384

def metadataRequest : UInt8 := 0
def metadataData : UInt8 := 1
def metadataReject : UInt8 := 2

def maxMetadataSize : Nat := 32 * 1024 * 1024

def encodeMetadataRequest (piece : Nat) : Except EncodeError Bytes :=
  encodeAny (.map [(ascii "msg_type", .int64 (Int64.ofNat metadataRequest.toNat)),
    (ascii "piece", .int64 (Int64.ofNat piece))])

def encodeMetadataData (piece totalSize : Nat) (block : Bytes) : Except EncodeError Bytes :=
  match encodeAny (.map [(ascii "msg_type", .int64 (Int64.ofNat metadataData.toNat)),
      (ascii "piece", .int64 (Int64.ofNat piece)),
      (ascii "total_size", .int64 (Int64.ofNat totalSize))]) with
  | .error e => .error e
  | .ok encoded => .ok (encoded ++ block)

structure MetadataMessage where
  msgType : UInt8
  piece : Int
  totalSize : Int
  data : Bytes
  deriving DecidableEq

def decodeMetadataMessage (payload : Bytes) : Except Bytes MetadataMessage :=
  match decodeBytes payload with
  | .error _ => .error (ascii "magnet: metadata message decode failed: ")
  | .ok (decoded, consumed) =>
    match decoded.dict? with
    | none => .error (ascii "magnet: metadata message is not a dict")
    | some d =>
      let msgType := UInt8.ofInt ((d.int? (ascii "msg_type")).getD 0)
      .ok { msgType := msgType
            piece := (d.int? (ascii "piece")).getD 0
            totalSize := (d.int? (ascii "total_size")).getD 0
            data := if msgType = metadataData ∧ consumed < payload.length then
                payload.drop consumed
              else [] }

/-- The answer for piece `i` is copied to its place. -/
def placeBlock (size i : Nat) (metadata : Bytes) (msg : MetadataMessage) : Except Bytes Bytes :=
  if msg.msgType = metadataReject then
    .error (ascii "magnet: peer rejected metadata request for piece " ++ natDigits i)
  else if msg.msgType ≠ metadataData then
    .error (ascii "magnet: unexpected message type " ++ natDigits msg.msgType.toNat ++
      ascii " for piece " ++ natDigits i)
  else
    let offset := i * metadataBlockSize
    if offset + msg.data.length > size then
      .error (ascii "magnet: metadata block " ++ natDigits i ++
        ascii " overflows buffer (offset=" ++ natDigits offset ++ ascii ", block=" ++
        natDigits msg.data.length ++ ascii ", total=" ++ natDigits size ++ ascii ")")
    else .ok (overwrite offset msg.data metadata)

/-- The loop of `FetchMetadata`, with `n` pieces to go from piece `i` on. -/
def fetchPieces (size : Nat) : Nat → Nat → ExtConn → Bytes → Except Bytes (Bytes × ExtConn)
  | 0, _, conn, metadata => .ok (metadata, conn)
  | n + 1, i, conn, metadata =>
    match encodeMetadataRequest i with
    | .error e => .error (ascii "magnet: encode request failed: " ++ e.text)
    | .ok reqPayload =>
      match conn.sendExtMessage reqPayload with
      | .error e => .error (ascii "magnet: send request failed: " ++ e)
      | .ok conn =>
        match conn.readExtMessage with
        | .error e => .error (ascii "magnet: read response failed: " ++ e.text)
        | .ok (respPayload, conn) =>
          match decodeMetadataMessage respPayload with
          | .error e => .error e
          | .ok msg =>
            match placeBlock size i metadata msg with
            | .error e => .error e
            | .ok metadata => fetchPieces size n (i + 1) conn metadata

def numBlocks (size : Nat) : Nat := (size + metadataBlockSize - 1) / metadataBlockSize

def fetchMetadata (sha1 : Bytes → Bytes) (conn : ExtConn) (metadataSize : Int)
    (infoHash : Bytes) : Except Bytes (Bytes × ExtConn) :=
  if metadataSize ≤ 0 ∨ metadataSize > maxMetadataSize then
    .error (ascii "magnet: invalid metadata size " ++ intDigits metadataSize ++ ascii " (max " ++
      natDigits maxMetadataSize ++ ascii ")")
  else
    let size := metadataSize.toNat
    match fetchPieces size (numBlocks size) 0 conn (List.replicate size 0) with
    | .error e => .error e
    | .ok (metadata, conn) =>
      if sha1 metadata ≠ infoHash then .error (ascii "magnet: metadata info hash mismatch")
      else .ok (metadata, conn)

/-! ## One answer -/

theorem exists_encodeMetadataRequest (i : Nat) : ∃ text, encodeMetadataRequest i = .ok text :=
  ⟨_, encodeAny_eq rfl⟩

/-- The block is what is behind the dictionary, whatever its bytes are. -/
theorem decodeMetadataMessage_data {i size : Nat} {block payload : Bytes}
    (h : encodeMetadataData i size block = .ok payload) :
    ∃ msg, decodeMetadataMessage payload = .ok msg ∧ msg.msgType = metadataData ∧
      msg.data = block := by
  have hvalue : Any.value (.map [(ascii "msg_type", .int64 (Int64.ofNat metadataData.toNat)),
      (ascii "piece", .int64 (Int64.ofNat i)),
      (ascii "total_size", .int64 (Int64.ofNat size))]) =
    some (.dict [(ascii "msg_type", .int 1), (ascii "piece", .int (Int64.ofNat i).toInt),
      (ascii "total_size", .int (Int64.ofNat size).toInt)]) := rfl
  have hdepth : 0 + 1 ≤ maxDecodeDepth := by decide
  have hthree : 3 ≤ maxCollectionSize := by decide
  have hitems : 3 ≤ maxTotalItems := by decide
  have hmsgType : (ascii "msg_type").length ≤ maxStringLength := by decide
  have hpiece : (ascii "piece").length ≤ maxStringLength := by decide
  have htotalSize : (ascii "total_size").length ≤ maxStringLength := by decide
  obtain ⟨text, htext, hdecode⟩ := decodeBytes_encode hvalue
    ⟨Nat.zero_le _, hthree, hmsgType, hdepth, hpiece, hdepth, htotalSize, hdepth, trivial⟩
    hitems block
  rw [encodeMetadataData, htext] at h
  rw [← Except.ok.inj h, decodeMetadataMessage, hdecode]
  refine ⟨_, rfl, rfl, ?_⟩
  dsimp only
  split_ifs with hdata
  · exact List.drop_left
  · have hempty : ¬ text.length < (text ++ block).length := fun hlt => hdata ⟨rfl, hlt⟩
    rw [List.length_append] at hempty
    exact (List.length_eq_zero_iff.mp (by omega)).symm

theorem placeBlock_of_fits {size i : Nat} {metadata : Bytes} {msg : MetadataMessage}
    (htype : msg.msgType = metadataData)
    (hfits : i * metadataBlockSize + msg.data.length ≤ size) :
    placeBlock size i metadata msg =
      .ok (overwrite (i * metadataBlockSize) msg.data metadata) := by
  have hreject : msg.msgType ≠ metadataReject := by
    rw [htype]
    decide
  unfold placeBlock
  rw [if_neg hreject, if_neg (not_not.mpr htype)]
  exact if_neg (Nat.not_lt.mpr hfits)

theorem of_placeBlock {size i : Nat} {metadata metadata' : Bytes} {msg : MetadataMessage}
    (h : placeBlock size i metadata msg = .ok metadata') :
    i * metadataBlockSize + msg.data.length ≤ size ∧
      metadata' = overwrite (i * metadataBlockSize) msg.data metadata := by
  unfold placeBlock at h
  dsimp only at h
  split_ifs at h with hreject htype hover
  exact ⟨Nat.not_lt.mp hover, (Except.ok.inj h).symm⟩

/-! ## The blocks -/

/-- Block `i` of the metadata. -/
def block (m : Bytes) (i : Nat) : Bytes := slice (i * metadataBlockSize) metadataBlockSize m

/-- The buffer when the blocks below `i` are there. -/
def filled (m : Bytes) (i : Nat) : Bytes :=
  m.take (i * metadataBlockSize) ++ List.replicate (m.length - i * metadataBlockSize) 0

theorem filled_zero (m : Bytes) : filled m 0 = List.replicate m.length 0 := by
  rw [filled, Nat.zero_mul, List.take_zero, Nat.sub_zero, List.nil_append]

theorem filled_numBlocks (m : Bytes) : filled m (numBlocks m.length) = m := by
  have hcover : m.length ≤ numBlocks m.length * metadataBlockSize := by
    unfold numBlocks metadataBlockSize
    omega
  rw [filled, List.take_of_length_le hcover, Nat.sub_eq_zero_of_le hcover, List.replicate_zero,
    List.append_nil]

section
variable {m : Bytes} {i : Nat} (hi : i < numBlocks m.length)

include hi

theorem start_lt : i * metadataBlockSize < m.length := by
  unfold numBlocks metadataBlockSize at hi
  unfold metadataBlockSize
  omega

theorem end_block_le : i * metadataBlockSize + (block m i).length ≤ m.length := by
  have hstart := start_lt hi
  rw [block, slice_length]
  omega

theorem overwrite_block :
    overwrite (i * metadataBlockSize) (block m i) (filled m i) = filled m (i + 1) := by
  have hstart := start_lt hi
  have hfront : (m.take (i * metadataBlockSize)).length = i * metadataBlockSize :=
    List.length_take_of_le (Nat.le_of_lt hstart)
  have hlen : (block m i).length = min metadataBlockSize (m.length - i * metadataBlockSize) :=
    slice_length _ _ _
  have hwrite : overwrite (m.take (i * metadataBlockSize)).length (block m i) (filled m i) = _ :=
    overwrite_front (by omega)
  rw [hfront] at hwrite
  rw [hwrite, filled, Nat.succ_mul, List.take_add, hlen]
  refine congrArg _ (congrArg (List.replicate · 0) ?_)
  omega

end

/-! ## A whole exchange -/

/-- With the answers for the blocks from `i` on, the rest of the buffer is filled. -/
theorem fetchPieces_filled {m : Bytes} (n : Nat) {i : Nat} (hn : i + n = numBlocks m.length)
    {conn : ExtConn} {ms : List (Option Message)} {rest : Bytes}
    (hwrite : ∀ k, conn.writeError k = none) (hms : ∀ x ∈ ms, Readable x)
    (hchunks : conn.chunks.flatten = ms.flatMap frame ++ rest)
    (hdata : (ms.filterMap (forExt conn.localExtID)).map Except.ok =
      (List.range' i n).map fun j => encodeMetadataData j m.length (block m j)) :
    ∃ conn', fetchPieces m.length n i conn (filled m i) = .ok (m, conn') := by
  induction n generalizing i conn ms with
  | zero =>
    refine ⟨conn, ?_⟩
    rw [fetchPieces, show i = numBlocks m.length from hn, filled_numBlocks]
  | succ n ih =>
    rw [List.range'_succ, List.map_cons] at hdata
    obtain ⟨payload, payloads, hpayloads, hpayload, hbehind⟩ := List.map_eq_cons_iff.mp hdata
    obtain ⟨text, htext⟩ := exists_encodeMetadataRequest i
    obtain ⟨msg, hdecode, htype, hblock⟩ := decodeMetadataMessage_data hpayload.symm
    have hi : i < numBlocks m.length := by omega
    let sent := { conn with
      written := conn.written ++ (newExtendedMessage conn.remoteExtID text).write }
    have hsend : conn.sendExtMessage text = .ok sent := by
      rw [ExtConn.sendExtMessage, hwrite]
    obtain ⟨chunks, ms', hread, hms', hpayloads', hchunks'⟩ :=
      ExtConn.readExtMessage_found (c := sent) hms hpayloads hchunks
    have hplace : placeBlock m.length i (filled m i) msg = .ok (filled m (i + 1)) := by
      have hfits : i * metadataBlockSize + msg.data.length ≤ m.length := by
        rw [hblock]
        exact end_block_le hi
      rw [placeBlock_of_fits htype hfits, hblock, overwrite_block hi]
    rw [← hpayloads'] at hbehind
    have hleft : i + 1 + n = numBlocks m.length := by omega
    have hrest : ∃ conn', fetchPieces m.length n (i + 1) { sent with chunks := chunks }
        (filled m (i + 1)) = .ok (m, conn') :=
      ih hleft hwrite hms' hchunks' hbehind
    obtain ⟨conn', hrest⟩ := hrest
    refine ⟨conn', ?_⟩
    rw [fetchPieces, htext]
    dsimp only
    rw [hsend]
    dsimp only
    rw [hread]
    dsimp only
    rw [hdecode]
    dsimp only
    rw [hplace]
    exact hrest

theorem fetchPieces_of_readError {size n i : Nat} {conn : ExtConn} {metadata : Bytes} {e : ExtError}
    (hwrite : ∀ k, conn.writeError k = none)
    (hread : ∀ written, { conn with written := written }.readExtMessage = .error e) :
    fetchPieces size (n + 1) i conn metadata =
      .error (ascii "magnet: read response failed: " ++ e.text) := by
  obtain ⟨text, htext⟩ := exists_encodeMetadataRequest i
  rw [fetchPieces, htext]
  dsimp only
  rw [ExtConn.sendExtMessage, hwrite]
  dsimp only
  rw [hread]

/-- Nothing is returned when the first answer cannot be read. -/
theorem fetchMetadata_of_readError {sha1 : Bytes → Bytes} {conn : ExtConn} {size : Int}
    {infoHash : Bytes} {e : ExtError} (hpos : 0 < size) (hmax : size ≤ maxMetadataSize)
    (hwrite : ∀ k, conn.writeError k = none)
    (hread : ∀ written, { conn with written := written }.readExtMessage = .error e) :
    fetchMetadata sha1 conn size infoHash =
      .error (ascii "magnet: read response failed: " ++ e.text) := by
  obtain ⟨n, hn⟩ : ∃ n, numBlocks size.toNat = n + 1 := by
    refine Nat.exists_eq_add_one.mpr ?_
    unfold numBlocks metadataBlockSize
    omega
  have hrange : ¬ (size ≤ 0 ∨ size > maxMetadataSize) := by omega
  rw [fetchMetadata, if_neg hrange]
  dsimp only
  rw [hn, fetchPieces_of_readError hwrite hread]

/-- Every block that was copied was inside the buffer. -/
theorem length_of_fetchPieces {size : Nat} (n : Nat) {i : Nat} {conn conn' : ExtConn}
    {metadata data : Bytes} (hlen : metadata.length = size)
    (h : fetchPieces size n i conn metadata = .ok (data, conn')) : data.length = size := by
  induction n generalizing i conn metadata with
  | zero =>
    rw [fetchPieces] at h
    rw [← (Prod.mk.inj (Except.ok.inj h)).1, hlen]
  | succ n ih =>
    rw [fetchPieces] at h
    split at h
    · cases h
    split at h
    · cases h
    split at h
    · cases h
    split at h
    · cases h
    split at h
    · cases h
    next metadata' hplace =>
      obtain ⟨hfits, rfl⟩ := of_placeBlock hplace
      refine ih ?_ h
      rw [overwrite_length_of_le (by omega), hlen]

theorem of_fetchMetadata {sha1 : Bytes → Bytes} {conn conn' : ExtConn} {size : Int}
    {infoHash data : Bytes} (h : fetchMetadata sha1 conn size infoHash = .ok (data, conn')) :
    (data.length : Int) = size ∧ sha1 data = infoHash := by
  unfold fetchMetadata at h
  split at h
  · cases h
  next hrange =>
    dsimp only at h
    split at h
    · cases h
    next metadata conn'' hfetch =>
      have hlen := length_of_fetchPieces _ List.length_replicate hfetch
      split_ifs at h with hhash
      obtain ⟨rfl, -⟩ := Prod.mk.inj (Except.ok.inj h)
      exact ⟨by omega, not_not.mp hhash⟩

/-- The metadata is put together from the answers, whatever messages within the limit of a frame
stand between them; and whatever the peer sends, what is returned has the requested size and
the requested hash. -/
theorem fetchMetadata_reassembles (sha1 : Bytes → Bytes) (conn : ExtConn) :
    (∀ (m : Bytes) (ms : List (Option Message)) (rest : Bytes),
      1 ≤ m.length → m.length ≤ maxMetadataSize → (∀ k, conn.writeError k = none) →
      (∀ x ∈ ms, Readable x) → conn.chunks.flatten = ms.flatMap frame ++ rest →
      (ms.filterMap (forExt conn.localExtID)).map Except.ok =
        (List.range (numBlocks m.length)).map
          (fun i => encodeMetadataData i m.length (block m i)) →
      ∃ conn', fetchMetadata sha1 conn m.length (sha1 m) = .ok (m, conn')) ∧
    ∀ (size : Int) (infoHash data : Bytes) (conn' : ExtConn),
      fetchMetadata sha1 conn size infoHash = .ok (data, conn') →
        (data.length : Int) = size ∧ sha1 data = infoHash := by
  refine ⟨fun m ms rest hpos hmax hwrite hms hchunks hdata => ?_,
    fun size infoHash data conn' h => of_fetchMetadata h⟩
  rw [List.range_eq_range'] at hdata
  obtain ⟨conn', hfetch⟩ := fetchPieces_filled _ (Nat.zero_add _) hwrite hms hchunks hdata
  rw [filled_zero] at hfetch
  have hrange : ¬ ((m.length : Int) ≤ 0 ∨ (m.length : Int) > maxMetadataSize) := by omega
  refine ⟨conn', ?_⟩
  rw [fetchMetadata, if_neg hrange, Int.toNat_natCast]
  dsimp only
  rw [hfetch]
  exact if_neg (not_not.mpr rfl)

/-- The answer for metadata of one byte. -/
def oneByteAnswer : Bytes := ascii "d8:msg_typei1e5:piecei0e10:total_sizei1ee" ++ [5]

/-- A connection for extension 3 to a peer that sends these messages. -/
def sending (ms : List (Option Message)) : ExtConn where
  localExtID := 3
  remoteExtID := 2
  chunks := ms.map frame
  written := []
  writeError := fun _ => none

/-- One byte, behind a keep-alive, a `have` and a message for another extension. -/
theorem fetchMetadata_reassembles_oneByte :
    let ms := [none, some ⟨4, [0, 0, 0, 1]⟩, some (newExtendedMessage 1 oneByteAnswer),
      some (newExtendedMessage 3 oneByteAnswer)]
    (∀ x ∈ ms, Readable x) ∧
      ∃ conn', fetchMetadata (fun _ => List.replicate 20 7) (sending ms) 1
        (List.replicate 20 7) = .ok ([5], conn') := by
  intro ms
  have hms : ∀ x ∈ ms, Readable x := by decide +kernel
  have hdata : (ms.filterMap (forExt 3)).map Except.ok =
      (List.range (numBlocks 1)).map fun i => encodeMetadataData i 1 (block [5] i) := by
    rfl
  exact ⟨hms, (fetchMetadata_reassembles (fun _ => List.replicate 20 7) (sending ms)).1 [5] ms []
    (by decide) (by decide) (fun _ => rfl) hms rfl hdata⟩

theorem fetchMetadata_tooLarge {sha1 : Bytes → Bytes} {infoHash : Bytes} {m : Message}
    {ms : List (Option Message)} (hlen : m.payload.length = maxMessage) :
    fetchMetadata sha1 (sending (some m :: ms)) 1 infoHash =
      .error (ascii "magnet: read response failed: " ++
        ReadError.text (.tooLarge (1 + maxMessage))) := by
  have hlarge : maxMessage < 1 + m.payload.length := by omega
  have hlength : 1 + m.payload.length < 2 ^ 32 := by
    rw [hlen]
    decide
  have hread : ∀ written,
      ExtConn.readExtMessage { sending (some m :: ms) with written := written } =
        .error (.read (.tooLarge (1 + m.payload.length))) :=
    fun _ => ExtConn.readExtMessage_tooLarge hlarge hlength List.flatten_cons
  rw [← hlen]
  exact fetchMetadata_of_readError (by decide) (by decide) (fun _ => rfl) hread

/-- A message of another type, one byte above the limit, in front of the answer. -/
theorem fetchMetadata_oversized :
    encodeMetadataData 0 1 (block [5] 0) = .ok oneByteAnswer ∧
      fetchMetadata (fun _ => List.replicate 20 7)
          (sending [some ⟨7, List.replicate maxMessage 0⟩,
            some (newExtendedMessage 3 oneByteAnswer)]) 1 (List.replicate 20 7) =
        .error (ascii "magnet: read response failed: " ++
          ReadError.text (.tooLarge (1 + maxMessage))) :=
  ⟨rfl, fetchMetadata_tooLarge List.length_replicate⟩

end Stor.Magnet
