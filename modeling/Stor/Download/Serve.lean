import Stor.Storage.Target

/-!
# Serving requests

The two places that answer a request with a block: `Client.handleRequest` with the
`OnRequest` that `DownloadWithParams` wires, and the loop of `Uploader.serveLoop`.
The first asks for the have-bit and the second for the end of the torrent; neither
asks where the piece ends.  `uploadOk_iff` says for which requests a block that is
sent is one that may be sent.

Of a connected peer the loop keeps more than what it needs to answer a request;
that part, and the failure of the connection itself, is left out.
-/

namespace Stor.Download

open Lib Bencode Torrent Peer Storage

structure Request where
  index : Nat
  begin : Nat
  length : Nat
  deriving DecidableEq, Repr

structure PieceMsg where
  index : Nat
  begin : Nat
  block : Bytes
  deriving DecidableEq, Repr

/-- `binary.BigEndian.Uint32`. -/
def uint32 (b : Bytes) : Nat := b.foldl (fun acc x => acc * 256 + x.toNat) 0

def parseRequest (payload : Bytes) : Option Request :=
  if payload.length < 12 then none
  else some ⟨uint32 (slice 0 4 payload), uint32 (slice 4 4 payload), uint32 (slice 8 4 payload)⟩

def maxBlock : Nat := 32 * 1024

/-- `int64(index)*pieceLen + int64(begin)`. -/
def requestOffset (info : Info) (r : Request) : Int :=
  wrap64 (wrap64 (r.index * info.pieceLength) + r.begin)

section Serve

variable (read : Bytes → Option Bytes) (target : Target) (info : Info) (haveBF : Bitfield)

/-- The `OnRequest` of `DownloadWithParams`, over its own write target. -/
def onRequest (r : Request) : Option Bytes :=
  if haveBF.hasPiece r.index then readTarget read target r.length (requestOffset info r) else none

/-- `Client.handleRequest` with that `OnRequest`. -/
def handleRequest (payload : Bytes) : Option PieceMsg :=
  match parseRequest payload with
  | none => none
  | some r =>
    if r.length > maxBlock then none
    else if numPieces info > 0 ∧ r.index ≥ numPieces info then none
    else (onRequest read target info haveBF r).map fun block => ⟨r.index, r.begin, block⟩

/-! ## The loop of the uploader -/

inductive Message where
  | keepAlive
  | interested
  | notInterested
  | request (payload : Bytes)
  | cancel
  /-- What the peer says it has. -/
  | availability
  | other

inductive Reply where
  | unchoke
  | reject (r : Request)
  | piece (msg : PieceMsg)
  deriving DecidableEq, Repr

inductive DisconnectReason where
  | badRequest (n : Nat)
  | invalidIndex
  | tooLarge
  | outOfBounds
  | readFailed
  deriving DecidableEq, Repr

def DisconnectReason.text : DisconnectReason → String
  | .badRequest n =>
    "protocol_error: bad request: peer: request payload too short: " ++ toString n ++ " bytes"
  | .invalidIndex => "protocol_error: invalid piece index"
  | .tooLarge => "protocol_error: request too large"
  | .outOfBounds => "protocol_error: request out of bounds"
  | .readFailed => "read_failed"

structure UploadClient where
  choking : Bool
  fastExt : Bool
  deriving DecidableEq, Repr

/-- One round of the loop: the client after it, the replies, and why the loop
ends if it does. -/
structure Round where
  client : UploadClient
  replies : List Reply
  stop : Option DisconnectReason
  deriving DecidableEq, Repr

/-- A request of a peer that is not choked. -/
def serveRequest (r : Request) : Except DisconnectReason PieceMsg :=
  if r.index ≥ numPieces info % 2 ^ 32 then .error .invalidIndex
  else if r.length > maxBlock then .error .tooLarge
  else if requestOffset info r < 0 ∨
      wrap64 (requestOffset info r + r.length) > totalSize info then .error .outOfBounds
  else
    match readTarget read target r.length (requestOffset info r) with
    | none => .error .readFailed
    | some block => .ok ⟨r.index, r.begin, block⟩

def serveLoop (c : UploadClient) : Message → Round
  | .interested => ⟨{ c with choking := false }, [.unchoke], none⟩
  | .request payload =>
    match parseRequest payload with
    | none =>
      if c.choking then ⟨c, [], none⟩ else ⟨c, [], some (.badRequest payload.length)⟩
    | some r =>
      if c.choking then ⟨c, if c.fastExt then [.reject r] else [], none⟩
      else
        match serveRequest read target info r with
        | .error reason => ⟨c, [], some reason⟩
        | .ok msg => ⟨c, [.piece msg], none⟩
  | .keepAlive | .notInterested | .cancel | .availability | .other => ⟨c, [], none⟩

end Serve

/-! ## What may be sent -/

/-- The size of a piece, the last one being shorter. -/
def pieceSize (info : Info) (i : Nat) : Int :=
  min info.pieceLength (exactSize info - i * info.pieceLength)

/-- A block of a piece that is there: the have-bit, the end of the piece, and the
bytes themselves. -/
structure UploadOk (read : Bytes → Option Bytes) (target : Target) (info : Info)
    (haveBF : Bitfield) (msg : PieceMsg) : Prop where
  have_bit : haveBF.hasPiece msg.index = true
  in_piece : ((msg.begin + msg.block.length : Nat) : Int) ≤ pieceSize info msg.index
  bytes : BytesAre read target (msg.index * info.pieceLength + msg.begin) msg.block

/-- The request stays inside its piece, and the disk has the bytes. -/
def RequestInPiece (read : Bytes → Option Bytes) (target : Target) (info : Info)
    (r : Request) : Prop :=
  ((r.begin + r.length : Nat) : Int) ≤ pieceSize info r.index ∧
    Held read target (r.index * info.pieceLength + r.begin) r.length

instance (read : Bytes → Option Bytes) (target : Target) (info : Info) (r : Request) :
    Decidable (RequestInPiece read target info r) := inferInstanceAs (Decidable (_ ∧ _))

section Upload

variable {read : Bytes → Option Bytes} {target : Target} {info : Info} {haveBF : Bitfield}

/-- Inside a piece the offset does not overflow. -/
theorem requestOffset_exact (hpl : 0 < info.pieceLength) (hsize : exactSize info < 2 ^ 63)
    {r : Request} (h : ((r.begin + r.length : Nat) : Int) ≤ pieceSize info r.index) :
    requestOffset info r = r.index * info.pieceLength + r.begin := by
  have hnonneg : 0 ≤ (r.index : Int) * info.pieceLength := Int.mul_nonneg (by omega) (by omega)
  unfold pieceSize at h
  unfold requestOffset
  rw [wrap64_of_range (x := r.index * info.pieceLength) (by omega) (by omega),
    wrap64_of_range (by omega) (by omega)]

/-- A block that was read for a request is good when the request is and the
have-bit is set. -/
theorem uploadOk_of_read (hpl : 0 < info.pieceLength) (hsize : exactSize info < 2 ^ 63)
    (hsound : target.Sound) {r : Request} {block : Bytes}
    (hread : readTarget read target r.length (requestOffset info r) = some block) :
    UploadOk read target info haveBF ⟨r.index, r.begin, block⟩ ↔
      haveBF.hasPiece r.index = true ∧ RequestInPiece read target info r := by
  have hlen := readTarget_length hread
  constructor
  · intro h
    refine ⟨h.have_bit, ?_, ?_⟩
    · rw [← hlen]
      exact h.in_piece
    · rw [← hlen]
      exact bytesAre_held h.bytes
  · intro ⟨hbit, hin, hheld⟩
    rw [requestOffset_exact hpl hsize hin] at hread
    refine ⟨hbit, ?_, bytesAre_of_readTarget hsound hread hheld⟩
    rw [← hlen] at hin
    exact hin

theorem handleRequest_eq_some {payload : Bytes} {msg : PieceMsg} {r : Request}
    (hr : parseRequest payload = some r)
    (h : handleRequest read target info haveBF payload = some msg) :
    haveBF.hasPiece r.index = true ∧
      ∃ block, readTarget read target r.length (requestOffset info r) = some block ∧
        msg = ⟨r.index, r.begin, block⟩ := by
  unfold handleRequest at h
  simp only [hr] at h
  split_ifs at h
  unfold onRequest at h
  obtain ⟨block, hblock, hmsg⟩ := Option.map_eq_some_iff.mp h
  rw [Option.ite_none_right_eq_some] at hblock
  exact ⟨hblock.1, block, hblock.2, hmsg.symm⟩

theorem piece_mem_serveLoop {c : UploadClient} {payload : Bytes} {msg : PieceMsg} {r : Request}
    (hr : parseRequest payload = some r)
    (h : .piece msg ∈ (serveLoop read target info c (.request payload)).replies) :
    ∃ block, readTarget read target r.length (requestOffset info r) = some block ∧
      msg = ⟨r.index, r.begin, block⟩ := by
  unfold serveLoop at h
  simp only [hr] at h
  split_ifs at h
  · simp at h
  · simp at h
  · unfold serveRequest at h
    split_ifs at h
    · simp at h
    · simp at h
    · simp at h
    · cases hread : readTarget read target r.length (requestOffset info r) with
      | none => simp [hread] at h
      | some block =>
        simp only [hread, List.mem_singleton, Reply.piece.injEq] at h
        exact ⟨block, rfl, h⟩

end Upload

/-- When `handleRequest` sends a block, the have-bit is set and the block is good
exactly when the request stays inside its piece and the disk has the bytes; when
`serveLoop` sends one, the have-bit has to be asked for as well. -/
theorem uploadOk_iff (H : Digests) (data : Bytes) (tf : TorrentFile) (hparse : parse H data = .ok tf)
    (hsize : (tf.info.files.map File.length).sum < 2 ^ 63) (path : Bytes) (target : Target)
    (htarget : targetOf path tf.info = some target) (read : Bytes → Option Bytes)
    (haveBF : Bitfield) (payload : Bytes) (r : Request) (hr : parseRequest payload = some r)
    (msg : PieceMsg) :
    (handleRequest read target tf.info haveBF payload = some msg →
        (UploadOk read target tf.info haveBF msg ↔ RequestInPiece read target tf.info r)) ∧
      ∀ c : UploadClient,
        .piece msg ∈ (serveLoop read target tf.info c (.request payload)).replies →
          (UploadOk read target tf.info haveBF msg ↔
            haveBF.hasPiece r.index = true ∧ RequestInPiece read target tf.info r) := by
  obtain ⟨hpl, hlt, hnonneg⟩ := parse_bounds hparse
  have hexact := exactSize_lt hlt hsize
  have hsound := targetOf_sound htarget hnonneg hsize
  constructor
  · intro h
    obtain ⟨hbit, block, hread, rfl⟩ := handleRequest_eq_some hr h
    rw [uploadOk_of_read hpl hexact hsound hread]
    exact and_iff_right hbit
  · intro c h
    obtain ⟨block, hread, rfl⟩ := piece_mem_serveLoop hr h
    exact uploadOk_of_read hpl hexact hsound hread

/-- A file of two bytes in pieces of one byte. -/
def twoByteTorrent : Bytes :=
  ascii "d4:infod6:lengthi2e4:name1:a12:piece lengthi1e6:pieces" ++
    encodeString (List.replicate 40 97) ++ ascii "ee"

/-- A disk that has the first byte of the file and a zero in place of the second. -/
def halfFile (path : Bytes) : Option Bytes := if path = ascii "a" then some [7, 0] else none

/-- The bitfield with piece 0 only. -/
def firstOnly : Bitfield := ⟨[128]⟩

/-- A request of one byte in the piece with the given index. -/
def requestPayload (index begin : UInt8) : Bytes := [0, 0, 0, index, 0, 0, 0, begin, 0, 0, 0, 1]

/-- A peer that is not choked. -/
def openClient : UploadClient := ⟨false, false⟩

theorem uploadOk_iff_firstByte :
    ∃ tf, parse plainDigests twoByteTorrent = .ok tf ∧
      targetOf (ascii "a") tf.info = some (.file (ascii "a")) ∧
      handleRequest halfFile (.file (ascii "a")) tf.info firstOnly (requestPayload 0 0) =
        some ⟨0, 0, [7]⟩ ∧
      (serveLoop halfFile (.file (ascii "a")) tf.info openClient
        (.request (requestPayload 0 0))).replies = [.piece ⟨0, 0, [7]⟩] ∧
      UploadOk halfFile (.file (ascii "a")) tf.info firstOnly ⟨0, 0, [7]⟩ := by
  have hfields : (parse plainDigests twoByteTorrent).toOption.map (fun tf =>
      ((targetOf (ascii "a") tf.info, (tf.info.files.map File.length).sum),
        handleRequest halfFile (.file (ascii "a")) tf.info firstOnly (requestPayload 0 0),
        (serveLoop halfFile (.file (ascii "a")) tf.info openClient
          (.request (requestPayload 0 0))).replies,
        decide (RequestInPiece halfFile (.file (ascii "a")) tf.info ⟨0, 0, 1⟩))) =
      some ((some (.file (ascii "a")), 0), some ⟨0, 0, [7]⟩, [.piece ⟨0, 0, [7]⟩], true) := by
    rw [twoByteTorrent, ascii_ofList]
    decide +kernel
  obtain ⟨tf, hparse, hfields⟩ := exists_parse_eq_ok hfields
  simp only [Prod.mk.injEq, decide_eq_true_eq] at hfields
  obtain ⟨⟨htarget, hsum⟩, hclient, hloop, hin⟩ := hfields
  have hmain := uploadOk_iff plainDigests twoByteTorrent tf hparse (by rw [hsum]; decide) (ascii "a")
    (.file (ascii "a")) htarget halfFile firstOnly (requestPayload 0 0) ⟨0, 0, 1⟩ (by decide)
    ⟨0, 0, [7]⟩
  exact ⟨tf, hparse, htarget, hclient, hloop, (hmain.1 hclient).mpr hin⟩

/-- With piece 0 only, `handleRequest` sends the byte of piece 1 as the second byte
of piece 0, and `serveLoop` sends it as piece 1. -/
theorem not_uploadOk_secondByte :
    ∃ tf, parse plainDigests twoByteTorrent = .ok tf ∧
      targetOf (ascii "a") tf.info = some (.file (ascii "a")) ∧
      (∃ msg, handleRequest halfFile (.file (ascii "a")) tf.info firstOnly (requestPayload 0 1) =
          some msg ∧ ¬ UploadOk halfFile (.file (ascii "a")) tf.info firstOnly msg) ∧
      ∃ msg, .piece msg ∈ (serveLoop halfFile (.file (ascii "a")) tf.info openClient
          (.request (requestPayload 1 0))).replies ∧
        ¬ UploadOk halfFile (.file (ascii "a")) tf.info firstOnly msg := by
  have hfields : (parse plainDigests twoByteTorrent).toOption.map (fun tf =>
      (targetOf (ascii "a") tf.info,
        handleRequest halfFile (.file (ascii "a")) tf.info firstOnly (requestPayload 0 1),
        (serveLoop halfFile (.file (ascii "a")) tf.info openClient
          (.request (requestPayload 1 0))).replies,
        pieceSize tf.info 0)) =
      some (some (.file (ascii "a")), some ⟨0, 1, [0]⟩, [.piece ⟨1, 0, [0]⟩], 1) := by
    rw [twoByteTorrent, ascii_ofList]
    decide +kernel
  obtain ⟨tf, hparse, hfields⟩ := exists_parse_eq_ok hfields
  simp only [Prod.mk.injEq] at hfields
  obtain ⟨htarget, hclient, hloop, hpiece⟩ := hfields
  refine ⟨tf, hparse, htarget, ⟨_, hclient, ?_⟩, ⟨1, 0, [0]⟩, by rw [hloop]; simp, ?_⟩
  · intro hok
    have hle : ((1 + 1 : Nat) : Int) ≤ pieceSize tf.info 0 := hok.in_piece
    rw [hpiece] at hle
    exact absurd hle (by decide)
  · intro hok
    exact absurd hok.have_bit (by decide)

end Stor.Download
