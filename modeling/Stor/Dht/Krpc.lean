import Stor.Torrent.Parse

/-!
# KRPC messages

`dht/krpc.go`.  A message is a bencoded dictionary; what is missing or of another type is
left at the zero value of its field, so that every dictionary is a message.
-/

namespace Stor.Dht

open Lib Bencode

/-- `net.UDPAddr`. -/
structure UDPAddr where
  ip : Bytes
  port : UInt16
  zone : Bytes
  deriving DecidableEq

def msgQuery : Bytes := ascii "q"
def msgResponse : Bytes := ascii "r"
def msgError : Bytes := ascii "e"

/-- A map or list that is `none` is nil. -/
structure KRPCMessage where
  t : Bytes
  y : Bytes
  q : Bytes
  a : Option Entries
  r : Option Entries
  e : Option (List Value)

inductive KRPCError where
  | decode (e : DecodeError)
  | notDict

def decodeKRPC (data : Bytes) : Except KRPCError KRPCMessage :=
  match decode data with
  | .error e => .error (.decode e)
  | .ok decoded =>
    match decoded.dict? with
    | none => .error .notDict
    | some d =>
      .ok { t := (d.str? (ascii "t")).getD []
            y := (d.str? (ascii "y")).getD []
            q := (d.str? (ascii "q")).getD []
            a := d.dict? (ascii "a")
            r := d.dict? (ascii "r")
            e := d.list? (ascii "e") }

/-- `encodeKRPC` of a message whose values the encoder knows, as those of every query and
response of a node are. -/
def encodeKRPC (msg : KRPCMessage) : Bytes :=
  let fields : Entries :=
    if msg.y = msgQuery then
      [(ascii "q", .str msg.q), (ascii "a", .dict (msg.a.getD []))]
    else if msg.y = msgResponse then [(ascii "r", .dict (msg.r.getD []))]
    else if msg.y = msgError then [(ascii "e", .list (msg.e.getD []))]
    else []
  encodeValue
    (.dict (Entries.ofList ([(ascii "t", .str msg.t), (ascii "y", .str msg.y)] ++ fields)))

/-- `msg.A[k].(string)`, or the empty string. -/
def KRPCMessage.argument (msg : KRPCMessage) (k : Bytes) : Bytes :=
  (msg.a.bind (Entries.str? k)).getD []

/-- `NewTxnID`, of the two bytes that are drawn. -/
def newTxnID (a b : UInt8) : Bytes := [a, b]

def newGetPeersQuery (a b : UInt8) (id infoHash : Bytes) : KRPCMessage where
  t := newTxnID a b
  y := msgQuery
  q := ascii "get_peers"
  a := some (Entries.ofList [(ascii "id", .str id), (ascii "info_hash", .str infoHash),
    (ascii "want", .list [.str (ascii "n4"), .str (ascii "n6")])])
  r := none
  e := none

def newResponse (txnID : Bytes) (values : Entries) : KRPCMessage where
  t := txnID
  y := msgResponse
  q := []
  a := none
  r := some values
  e := none

end Stor.Dht
