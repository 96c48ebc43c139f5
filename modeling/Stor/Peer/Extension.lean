import Stor.Tracker.Announce

/-!
# Extension messages

`peer/extension.go` and `peer/pex.go`, as far as a connected client reads them: the handshake
of the extension protocol, and peer exchange.
-/

namespace Stor.Peer

open Lib Bencode

def extHandshakeID : UInt8 := 0
def maxPEXPeers : Nat := 10000

structure PEXPeer where
  ip : IP
  port : Nat
  seed : Bool
  deriving DecidableEq

structure PEXMessage where
  added : List PEXPeer
  dropped : List PEXPeer
  deriving DecidableEq

def parseExtended : Bytes → Except Bytes (UInt8 × Bytes)
  | [] => .error (ascii "peer: extended message payload too short")
  | extID :: data => .ok (extID, data)

/-- The names and numbers of the extensions: what is not a number is left out. -/
def decodeExtHandshake (data : Bytes) : Except Bytes (List (Bytes × Int)) :=
  match decode data with
  | .error _ => .error (ascii "peer: ext handshake decode failed: ")
  | .ok decoded =>
    match decoded.dict? with
    | none => .error (ascii "peer: ext handshake is not a dict")
    | some d =>
      match d.get? (ascii "m") with
      | none => .ok []
      | some m =>
        match m.dict? with
        | none => .error (ascii "peer: ext handshake 'm' is not a dict")
        | some mDict => .ok (mDict.filterMap fun kv => kv.2.int?.map fun id => (kv.1, id))

/-- The compact peers of `name`, with addresses of `size` bytes; the second bit of a flag says
that the peer is a seed.  A text of another length is no list of peers. -/
def pexPeers (name : Bytes) (size : Nat) (flags : Bytes) (d : Entries) :
    Except Bytes (List PEXPeer) :=
  match d.str? name with
  | none => .ok []
  | some data =>
    let n := data.length / (size + 2)
    if data.length % (size + 2) ≠ 0 then .ok []
    else if maxPEXPeers < n then
      .error (ascii "peer: PEX " ++ name ++ ascii " too many peers: " ++ natDigits n)
    else
      .ok ((Tracker.compactPeers size n data).mapIdx fun i p =>
        ⟨p.ip, p.port, flags.getD i 0 &&& 0x02 ≠ 0⟩)

/-- `none` is a message that is no dictionary. -/
def decodePEX (data : Bytes) : Except Bytes (Option PEXMessage) :=
  match decode data with
  | .error _ => .error []
  | .ok decoded =>
    match decoded.dict? with
    | none => .ok none
    | some d => do
        let flags := fun name => (d.str? name).getD []
        let added ← pexPeers (ascii "added") 4 (flags (ascii "added.f")) d
        let added6 ← pexPeers (ascii "added6") 16 (flags (ascii "added6.f")) d
        let dropped ← pexPeers (ascii "dropped") 4 [] d
        let dropped6 ← pexPeers (ascii "dropped6") 16 [] d
        return some ⟨added ++ added6, dropped ++ dropped6⟩

end Stor.Peer
