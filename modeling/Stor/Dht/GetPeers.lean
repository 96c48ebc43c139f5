import Stor.Lib.Ip
import Stor.Torrent.Parse

/-!
# What a lookup finds

`GetPeers` of `dht/node.go` with `ParseCompactPeers` of `dht/krpc.go`, of the `values` that the
asked nodes answer with, in the order in which they come.  Peers are texts here.
-/

namespace Stor.Dht

open Lib Bencode

def maxLookupPeers : Nat := 5000

def compactPeer (s : Bytes) : Option Bytes :=
  if s.length = 6 then
    some ([dotByte].intercalate ((s.take 4).map fun b => natDigits b.toNat) ++ [colonByte] ++
      natDigits (beNat (s.drop 4)))
  else if s.length = 18 then
    some ([openBracket] ++ IP.text (s.take 16) ++ [closeBracket, colonByte] ++
      natDigits (beNat (s.drop 16)))
  else none

def parseCompactPeers (values : List Value) : List Bytes :=
  values.filterMap fun v => v.str?.bind compactPeer

/-- The peers of `iterativeLookup`: no more than `maxLookupPeers` of them. -/
def collectPeers (answers : List (List Value)) : List Bytes :=
  answers.foldl
    (fun allPeers values =>
      allPeers ++ (parseCompactPeers values).take (maxLookupPeers - allPeers.length))
    []

/-- The address of a peer, by its text. -/
def peerIP (addr : Bytes) : Option IP :=
  (splitHostPort addr).bind fun hostPort => parseIP hostPort.1

def filterPrivatePeers (peers : List Bytes) : List Bytes :=
  peers.filter fun p => (peerIP p).any fun ip => !ip.isInward

def getPeers (answers : Except Bytes (List (List Value))) : Except Bytes (List Bytes) :=
  answers.map fun answers => filterPrivatePeers (collectPeers answers)

theorem getPeers_not_inward {answers : Except Bytes (List (List Value))} {peers : List Bytes}
    (h : getPeers answers = .ok peers) {addr : Bytes} (haddr : addr ∈ peers) {ip : IP}
    (hip : peerIP addr = some ip) : ip.isInward = false := by
  cases answers with
  | error e => cases h
  | ok answers =>
    obtain rfl := Except.ok.inj h
    have hkept := (List.mem_filter.mp haddr).2
    rw [hip, Option.any_some, Bool.not_eq_true'] at hkept
    exact hkept

end Stor.Dht
