import Stor.Lib.Ip
import Stor.Torrent.Parse

/-!
# Announcing to a tracker

`tracker/tracker.go` and `tracker/udp.go`.  Of a request only the announce URL matters here;
what the network answers is a parameter, and so is `url.Parse`.  Errors are their texts.  An
announce also tells which addresses it dials.
-/

namespace Stor.Tracker

open Lib Bencode

def maxTrackerResponseSize : Nat := 10 * 1024 * 1024
def maxPeersPerResponse : Nat := 10000

structure Peer where
  ip : IP
  port : Nat
  deriving DecidableEq

structure AnnounceResponse where
  interval : Int
  peers : List Peer
  deriving DecidableEq

/-! ## Responses -/

/-- `n` peers of `size` bytes of address and two of port each. -/
def compactPeers (size n : Nat) (data : Bytes) : List Peer :=
  (List.range n).map fun i =>
    ⟨(data.drop (i * (size + 2))).take size, beNat ((data.drop (i * (size + 2) + size)).take 2)⟩

/-- A compact peer list, whose name in errors is `field`. -/
def parseCompact (field : Bytes) (size : Nat) (data : Bytes) : Except Bytes (List Peer) :=
  if data.length % (size + 2) ≠ 0 then
    .error (ascii "tracker: compact " ++ field ++ ascii " length " ++ natDigits data.length ++
      ascii " is not a multiple of " ++ natDigits (size + 2))
  else .ok (compactPeers size (min (data.length / (size + 2)) maxPeersPerResponse) data)

def parseCompactPeers (data : Bytes) : Except Bytes (List Peer) :=
  parseCompact (ascii "peers") 4 data

def parseCompactPeers6 (data : Bytes) : Except Bytes (List Peer) :=
  parseCompact (ascii "peers6") 16 data

/-- The texts of the last two errors end in what was found, which is left out. -/
def parseDictPeer (item : Value) : Except Bytes Peer :=
  match item.dict? with
  | none => .error (ascii "tracker: peer entry is not a dict")
  | some d =>
    match d.str? (ascii "ip") with
    | none => .error (ascii "tracker: peer missing 'ip'")
    | some ipStr =>
      match parseIP ipStr with
      | none => .error (ascii "tracker: invalid peer IP ")
      | some ip =>
        match d.int? (ascii "port") with
        | none => .error (ascii "tracker: invalid peer port: ")
        | some port =>
          if port ≤ 0 ∨ 65535 < port then .error (ascii "tracker: invalid peer port: ")
          else .ok ⟨ip, port.toNat⟩

/-- What is behind the last peer that is taken is not looked at. -/
def parseDictPeers (list : List Value) : Except Bytes (List Peer) :=
  (list.take maxPeersPerResponse).mapM parseDictPeer

/-- The `peers` of a response: compact, or a list of dictionaries. -/
def parsePeers : Option Value → Except Bytes (List Peer)
  | some (.str peers) => parseCompactPeers peers
  | some (.list peers) => parseDictPeers peers
  | _ => .ok []

/-- The text of a decoding error is left out. -/
def parseAnnounceResponse (data : Bytes) : Except Bytes AnnounceResponse :=
  match decode data with
  | .error _ => .error (ascii "tracker: failed to decode response: ")
  | .ok decoded =>
    match decoded.dict? with
    | none => .error (ascii "tracker: response is not a dict")
    | some d =>
      match d.str? (ascii "failure reason") with
      | some reason => .error (ascii "tracker: " ++ reason)
      | none =>
        match parsePeers (d.get? (ascii "peers")) with
        | .error e => .error e
        | .ok peers =>
          match (d.str? (ascii "peers6")).elim (.ok []) parseCompactPeers6 with
          | .error e => .error e
          | .ok v6Peers =>
            .ok { interval := (d.int? (ascii "interval")).getD 0
                  peers := peers ++ v6Peers }

/-! ## Hosts -/

def filterPrivatePeers (peers : List Peer) : List Peer :=
  peers.filter fun p => p.ip ≠ [] && !p.ip.isInward

/-- What of `url.URL` is read. -/
structure URL where
  scheme : Bytes
  host : Bytes
  deriving DecidableEq

def URL.hostname (u : URL) : Bytes := (splitAuthority u.host).1
def URL.port (u : URL) : Bytes := (splitAuthority u.host).2

/-- The port, with the default of the scheme. -/
def URL.portOr (u : URL) : Bytes :=
  if u.port ≠ [] then u.port else if u.scheme = ascii "https" then ascii "443" else ascii "80"

/-- The address of a host, unless it is refused: `reserved` and `noAddrs` are the words of the
errors for it. -/
def resolveHost (refused : IP → Bool) (reserved noAddrs : Bytes)
    (lookupHost : Bytes → Except Bytes (List Bytes)) (host : Bytes) : Except Bytes Bytes :=
  if host = ascii "localhost" then .error (ascii "host \"localhost\" is localhost")
  else
    match parseIP host with
    | some ip =>
      if refused ip then .error (ascii "host " ++ host ++ ascii " is a " ++ reserved)
      else .ok ip.text
    | none =>
      match lookupHost host with
      | .error e => .error (ascii "resolve " ++ host ++ ascii ": " ++ e)
      | .ok addrs =>
        -- the first address that parses decides
        match addrs.find? fun addr => (parseIP addr).isSome with
        | none => .error (ascii "host " ++ host ++ ascii " has no " ++ noAddrs)
        | some addr =>
          if refused ((parseIP addr).getD []) then
            .error (ascii "host " ++ host ++ ascii " resolves to private address " ++ addr)
          else .ok (IP.text ((parseIP addr).getD []))

def resolveAndValidateTrackerHost (lookupHost : Bytes → Except Bytes (List Bytes))
    (host : Bytes) : Except Bytes Bytes :=
  resolveHost IP.isInward (ascii "private/reserved address") (ascii "valid public addresses")
    lookupHost host

/-! ## Announces -/

/-- What the peer of a UDP tracker sees and sends: the transaction IDs that are drawn, and for
each of the two requests what comes back, or the text of a failure. -/
structure UDPConn where
  connectTxnID : Nat
  announceTxnID : Nat
  connectReply : Except Bytes Bytes
  announceReply : Except Bytes Bytes

structure Env where
  parse : Bytes → Except Bytes URL
  lookupHost : Bytes → Except Bytes (List Bytes)
  /-- The body that a request by the announce URL gets from the dialled address. -/
  get : Bytes → Bytes → Except Bytes Bytes
  dialUDP : Bytes → Except Bytes UDPConn

/-- The addresses that are dialled, and the result. -/
structure Attempt (α : Type) where
  dialled : List Bytes
  result : Except Bytes α

def announceHTTP (env : Env) (announceURL : Bytes) : Attempt AnnounceResponse :=
  match env.parse announceURL with
  | .error e => ⟨[], .error (ascii "tracker: invalid announce URL: " ++ e)⟩
  | .ok u =>
    match resolveAndValidateTrackerHost env.lookupHost u.hostname with
    | .error e => ⟨[], .error (ascii "tracker: " ++ e)⟩
    | .ok resolvedIP =>
      let pinnedAddr := joinHostPort resolvedIP u.portOr
      match env.get pinnedAddr announceURL with
      | .error e => ⟨[pinnedAddr], .error (ascii "tracker: HTTP request failed: " ++ e)⟩
      | .ok full =>
        let body := full.take (maxTrackerResponseSize + 1)
        if maxTrackerResponseSize < body.length then
          ⟨[pinnedAddr], .error (ascii "tracker: response too large: " ++
            natDigits body.length ++ ascii " bytes (limit " ++
            natDigits maxTrackerResponseSize ++ ascii ")")⟩
        else ⟨[pinnedAddr], parseAnnounceResponse body⟩

def actionConnect : Nat := 0
def actionAnnounce : Nat := 1
def actionError : Nat := 3

/-- The first four bytes of a reply are the action and the next four the transaction. -/
def udpConnect (conn : UDPConn) : Except Bytes Nat :=
  match conn.connectReply with
  | .error e => .error (ascii "tracker: UDP connect " ++ e)
  | .ok datagram =>
    let resp := datagram.take 16
    let action := beNat (resp.take 4)
    let respTxnID := beNat ((resp.drop 4).take 4)
    if resp.length < 16 then
      .error (ascii "tracker: UDP connect response too short: " ++ natDigits resp.length ++
        ascii " bytes")
    else if respTxnID ≠ conn.connectTxnID then
      .error (ascii "tracker: transaction ID mismatch: got " ++ natDigits respTxnID ++
        ascii ", want " ++ natDigits conn.connectTxnID)
    else if action = actionError then .error (ascii "tracker: UDP connect error")
    else if action ≠ actionConnect then
      .error (ascii "tracker: unexpected action " ++ natDigits action ++
        ascii " in connect response")
    else .ok (beNat (resp.drop 8))

def udpAnnounce (conn : UDPConn) : Except Bytes AnnounceResponse :=
  match conn.announceReply with
  | .error e => .error (ascii "tracker: UDP announce " ++ e)
  | .ok datagram =>
    let resp := datagram.take 8192
    let action := beNat (resp.take 4)
    if resp.length < 20 then
      .error (ascii "tracker: UDP announce response too short: " ++ natDigits resp.length ++
        ascii " bytes")
    else if beNat ((resp.drop 4).take 4) ≠ conn.announceTxnID then
      .error (ascii "tracker: transaction ID mismatch")
    else if action = actionError then
      .error (ascii "tracker: UDP announce error: " ++ resp.drop 8)
    else if action ≠ actionAnnounce then
      .error (ascii "tracker: unexpected action " ++ natDigits action ++
        ascii " in announce response")
    else
      let peerData := resp.drop 20
      match parseCompactPeers (peerData.take (peerData.length / 6 * 6)) with
      | .error e => .error e
      | .ok peers => .ok { interval := beNat ((resp.drop 8).take 4), peers := peers }

/-- The host of the URL is dialled as it is. -/
def announceUDP (env : Env) (announceURL : Bytes) : Attempt AnnounceResponse :=
  match env.parse announceURL with
  | .error e => ⟨[], .error (ascii "tracker: invalid UDP URL: " ++ e)⟩
  | .ok u =>
    match env.dialUDP u.host with
    | .error e => ⟨[u.host], .error (ascii "tracker: UDP dial failed: " ++ e)⟩
    | .ok conn => ⟨[u.host], (udpConnect conn).bind fun _ => udpAnnounce conn⟩

def announce (env : Env) (announceURL : Bytes) : Attempt AnnounceResponse :=
  if (ascii "udp://").isPrefixOf announceURL then announceUDP env announceURL
  else announceHTTP env announceURL

end Stor.Tracker
