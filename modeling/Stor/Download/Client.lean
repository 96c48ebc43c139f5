import Stor.Download.Serve

/-!
# The connection to a peer

`Client` of `download/download.go` as it downloads: the first messages that
`newClientFull` reads, `waitForUnchoke`, and `DownloadPiece`.  Each of the three has
its own loop over the messages of the peer and its own switch on their IDs, and each
takes over where the one before stopped reading.  The messages are a list, and a loop
that comes to its end gets a read error.

Of what is written to the peer only the requests are kept.  An extended message
changes the peers that are known and nothing here.
-/

namespace Stor.Download

open Lib Torrent Peer Storage

/-- The message IDs of `peer/message.go` and of the extension protocol. -/
inductive MsgId where
  | choke
  | unchoke
  | interested
  | notInterested
  | havePiece
  | bitfield
  | request
  | piece
  | cancel
  | suggest
  | haveAll
  | haveNone
  | reject
  | allowedFast
  | extended
  | other (id : UInt8)
  deriving DecidableEq, Repr

structure PeerMessage where
  id : MsgId
  payload : Bytes
  deriving DecidableEq, Repr

/-- What `ReadMessage` returns when it does not fail; nothing is a keep-alive. -/
abbrev Received := Option PeerMessage

def parseHave (payload : Bytes) : Option Nat :=
  if payload.length = 4 then some (uint32 payload) else none

def parsePiece (payload : Bytes) : Option PieceMsg :=
  if payload.length < 8 then none
  else some ⟨uint32 (slice 0 4 payload), uint32 (slice 4 4 payload), payload.drop 8⟩

structure Client where
  /-- Nil until the peer has said something. -/
  bitfield : Option Bitfield
  haveAll : Bool
  /-- The peer chokes us. -/
  choked : Bool
  /-- We choke the peer. -/
  choking : Bool
  sentInterested : Bool
  deriving DecidableEq, Repr

namespace Client

def hasPiece (c : Client) (index : Nat) : Bool := c.haveAll || inBitfield c.bitfield index

def safeBitfieldSet (c : Client) (index : Nat) : Client :=
  if c.haveAll then c else { c with bitfield := c.bitfield.map fun bf => bf.setPiece index }

/-- Whether the bitfield has the size for that many pieces, where there is one to check. -/
def validateBitfield (c : Client) (numPieces : Nat) : Bool :=
  c.haveAll || c.bitfield.all fun bf =>
    bf.byteLength == 0 || bf.byteLength == Bitfield.sizeFor numPieces

/-- A `Have` with a payload that is none is left out. -/
def receiveHave (c : Client) (payload : Bytes) : Client :=
  match parseHave payload with
  | none => c
  | some index => c.safeBitfieldSet index

/-! ## The first messages -/

/-- A message of the first loop, unless it is one that ends the loop. -/
def initialMessage (c : Client) (msg : PeerMessage) : Option Client :=
  match msg.id with
  | .bitfield => some { c with bitfield := some ⟨msg.payload⟩, haveAll := false }
  | .haveAll => some { c with haveAll := true }
  | .haveNone => some { c with bitfield := some ⟨[]⟩, haveAll := false }
  | .unchoke => some { c with choked := false }
  | .extended | .interested => some c
  | .choke | .notInterested | .havePiece | .request | .piece | .cancel | .suggest | .reject
  | .allowedFast | .other _ => none

/-- Up to `n` messages.  The one that ends the loop has been read. -/
def initialLoop : Nat → Client → List Received → Client × List Received
  | 0, c, ms => (c, ms)
  | _ + 1, c, [] => (c, [])
  | n + 1, c, none :: ms => initialLoop n c ms
  | n + 1, c, some msg :: ms =>
    match c.initialMessage msg with
    | none => (c, ms)
    | some c => initialLoop n c ms

/-- `newClientFull` behind the handshake.  Of the messages only the first `arrived`
come before the deadline of the loop. -/
def newClientFull (arrived : Nat) (ms : List Received) : Client × List Received :=
  initialLoop (min 3 arrived)
    { bitfield := none, haveAll := false, choked := true, choking := true, sentInterested := false }
    ms

/-! ## Waiting for the peer -/

def waitMessage (c : Client) (msg : PeerMessage) : Client :=
  match msg.id with
  | .unchoke => { c with choked := false }
  | .choke => { c with choked := true }
  | .havePiece => c.receiveHave msg.payload
  | .interested => { c with choking := false }
  | _ => c

/-- `waitForUnchoke`, and whether it returns without an error. -/
def waitForUnchoke : Client → List Received → Client × List Received × Bool
  | c, [] => (c, [], !c.choked)
  | c, m :: ms =>
    if c.choked then waitForUnchoke (m.elim c c.waitMessage) ms else (c, m :: ms, true)

/-! ## `DownloadPiece` -/

end Client

/-- The variables of the loop of `DownloadPiece`, and the requests it has written. -/
structure Transfer where
  buf : Bytes
  downloaded : Nat
  requested : Nat
  backlog : Int
  noProgressCount : Nat
  sent : List Request
  deriving DecidableEq, Repr

inductive DownloadError where
  | read
  | pieceTooShort (n : Nat)
  | unexpected (index : Nat)
  | outOfBounds (index begin n piece : Nat)
  | choked (index : Nat)
  | rejected (index : Nat)
  | hashMismatch (index : Nat)
  deriving DecidableEq, Repr

/-- The error texts; that of a failed read is the connection's own. -/
def DownloadError.text : DownloadError → Option String
  | .read => none
  | .pieceTooShort n => some ("peer: piece payload too short: " ++ toString n ++ " bytes")
  | .unexpected index =>
    some ("download: piece " ++ toString index ++ " too many unexpected messages from peer")
  | .outOfBounds index begin n piece =>
    some ("download: piece " ++ toString index ++ " block out of bounds (begin=" ++
      toString begin ++ ", len=" ++ toString n ++ ", piece=" ++ toString piece ++ ")")
  | .choked index => some ("download: peer choked during piece " ++ toString index)
  | .rejected index => some ("download: peer rejected piece " ++ toString index)
  | .hashMismatch index => some ("download: piece " ++ toString index ++ " hash mismatch")

def blockSize : Nat := 16384

def maxUnexpectedMessages : Nat := 100

/-- The inner loop of `DownloadPiece`: up to `n` requests more, as long as there is
something to request. -/
def Transfer.request (pw : PieceWork) : Nat → Transfer → Transfer
  | 0, t => t
  | n + 1, t =>
    if t.requested < pw.length.toNat then
      let size := min blockSize (pw.length.toNat - t.requested)
      request pw n { t with
        requested := t.requested + size
        backlog := t.backlog + 1
        sent := t.sent ++ [⟨pw.index % 2 ^ 32, t.requested % 2 ^ 32, size⟩] }
    else t

/-- The requests up to the pipeline depth. -/
def Transfer.fill (pw : PieceWork) (target : Nat) (t : Transfer) : Transfer :=
  t.request pw (target - t.backlog).toNat

/-- A `Piece` message. -/
def Transfer.receive (pw : PieceWork) (t : Transfer) (payload : Bytes) :
    Except DownloadError Transfer :=
  match parsePiece payload with
  | none => .error (.pieceTooShort payload.length)
  | some msg =>
    if msg.index ≠ pw.index then
      if t.noProgressCount + 1 > maxUnexpectedMessages then .error (.unexpected pw.index)
      else .ok { t with
        backlog := t.backlog - 1
        noProgressCount := t.noProgressCount + 1
        requested := if t.backlog - 1 ≤ 0 then t.downloaded else t.requested }
    else if msg.begin + msg.block.length > t.buf.length then
      .error (.outOfBounds pw.index msg.begin msg.block.length t.buf.length)
    else .ok { t with
      buf := overwrite msg.begin msg.block t.buf
      downloaded := t.downloaded + msg.block.length
      backlog := t.backlog - 1
      noProgressCount := 0 }

namespace Client

/-- A message in the loop of `DownloadPiece`. -/
def transferMessage (pw : PieceWork) (c : Client) (t : Transfer) (msg : PeerMessage) :
    Client × Except DownloadError Transfer :=
  match msg.id with
  | .piece => (c, t.receive pw msg.payload)
  | .choke => ({ c with choked := true }, .error (.choked pw.index))
  | .unchoke => ({ c with choked := false }, .ok t)
  | .havePiece => (c.receiveHave msg.payload, .ok t)
  | .interested => ({ c with choking := false }, .ok t)
  | .reject => (c, .error (.rejected pw.index))
  | _ => (c, .ok t)

/-- The loop of `DownloadPiece`; `target n` is the pipeline depth in its round `n`. -/
def transferLoop (pw : PieceWork) : (Nat → Nat) → Client → Transfer → List Received →
    Client × List Received × Except DownloadError Transfer
  | _, c, t, [] => (c, [], if t.downloaded < pw.length.toNat then .error .read else .ok t)
  | target, c, t, m :: ms =>
    if t.downloaded < pw.length.toNat then
      match m with
      | none => transferLoop pw (fun n => target (n + 1)) c (t.fill pw (target 0)) ms
      | some msg =>
        match c.transferMessage pw (t.fill pw (target 0)) msg with
        | (c, .error e) => (c, ms, .error e)
        | (c, .ok t) => transferLoop pw (fun n => target (n + 1)) c t ms
    else (c, m :: ms, .ok t)

/-- A call of `DownloadPiece`: the piece, what is in the buffer it gets, and the
pipeline depths. -/
structure PieceCall where
  pw : PieceWork
  buf : Bytes
  target : Nat → Nat

def downloadPiece (sha1 : Bytes → Bytes) (call : PieceCall) (c : Client) (ms : List Received) :
    Client × List Received × Except DownloadError Bytes :=
  match waitForUnchoke { c with sentInterested := true } ms with
  | (c, ms, false) => (c, ms, .error .read)
  | (c, ms, true) =>
    match transferLoop call.pw call.target c
        ⟨resize call.pw.length.toNat call.buf, 0, 0, 0, 0, []⟩ ms with
    | (c, ms, .error e) => (c, ms, .error e)
    | (c, ms, .ok t) =>
      (c, ms, if sha1 t.buf = call.pw.hash then .ok t.buf else .error (.hashMismatch call.pw.index))

/-- The client after some calls of `DownloadPiece`, and the messages that are left. -/
def downloadPieces (sha1 : Bytes → Bytes) : List PieceCall → Client → List Received →
    Client × List Received
  | [], c, ms => (c, ms)
  | call :: calls, c, ms =>
    let (c, ms, _) := downloadPiece sha1 call c ms
    downloadPieces sha1 calls c ms

end Client

end Stor.Download
