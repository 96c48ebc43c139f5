import Stor.Dht.GetPeers
import Stor.Magnet.Parse
import Stor.Peer.Extension

/-!
# Where peers come from

The ways from what the network says to what is dialled: `Announcer.announce`
(`engine/announcer.go`), `findPeersAttempt` and `fetchMetadataAttempt` (`engine/session.go`),
and `handleExtended` (`download/download.go`).  A round asks its sources at once, and each adds
what it has got when it gets it; `arrivals` is the order, and what has not come by the end is
not in it.
-/

namespace Stor.Engine
namespace Sources

open Lib Bencode Tracker

inductive Source where
  | tracker (url : Bytes)
  | dht
  /-- The addresses of a magnet link. -/
  | xpe (addrs : List Bytes)
  deriving DecidableEq

structure Env where
  net : Tracker.Env
  /-- What the nodes answer to a lookup; without a DHT there is none. -/
  lookup : Option (Except Bytes (List (List Value)))
  /-- `fmt.Sscanf` of a port. -/
  scanPort : Bytes → Option Nat

def parsePeerAddrs (env : Env) (addrs : List Bytes) : List Tracker.Peer :=
  addrs.filterMap fun addr =>
    (splitHostPort addr).bind fun hostPort =>
      (parseIP hostPort.1).bind fun ip => (env.scanPort hostPort.2).map fun port => ⟨ip, port⟩

/-- `lookupDHT` of an announcer, and `dhtLookup` of a session. -/
def lookupDHT (env : Env) : List Tracker.Peer :=
  match env.lookup with
  | none => []
  | some answers =>
    match Dht.getPeers answers with
    | .error _ => []
    | .ok peerAddrs => parsePeerAddrs env peerAddrs

def Source.response (env : Env) : Source → Option AnnounceResponse
  | .tracker url => (announce env.net url).result.toOption
  | _ => none

/-- What a source adds. -/
def Source.peers (env : Env) : Source → List Tracker.Peer
  | .tracker url => ((announce env.net url).result.toOption.map (·.peers)).getD []
  | .dht => lookupDHT env
  | .xpe addrs => parsePeerAddrs env addrs

def allPeers (env : Env) (arrivals : List Source) : List Tracker.Peer :=
  arrivals.flatMap (Source.peers env)

def trackerURLs (tf : Torrent.TorrentFile) : List Bytes :=
  tf.announceList.flatten.foldl (fun urls u => if urls.contains u then urls else urls ++ [u])
    (if tf.announce ≠ [] then [tf.announce] else [])

/-! ## Rounds -/

inductive Event where
  | none
  | started
  | completed
  | stopped
  deriving DecidableEq

structure Announcer where
  tf : Torrent.TorrentFile
  hasSink : Bool

/-- The sources of an announce: a private torrent has no DHT. -/
def Announcer.sources (a : Announcer) (event : Event) : List Source :=
  (trackerURLs a.tf).map .tracker ++
    if event ≠ .stopped ∧ a.tf.info.isPrivate = false then [.dht] else []

/-- In nanoseconds. -/
def defaultAnnounceInterval : Int64 := 1800 * 1000000000

/-- The interval to the next announce, which is the least that a tracker asks for. -/
def minInterval (env : Env) (arrivals : List Source) : Int64 :=
  (arrivals.filterMap (Source.response env)).foldl
    (fun least resp =>
      if 0 < resp.interval then min (Int64.ofInt resp.interval * 1000000000) least else least)
    defaultAnnounceInterval

/-- The interval, and what is put on the peer sink; `done` says that the context is done and
the sink was not written. -/
def Announcer.announce (a : Announcer) (env : Env) (arrivals : List Source) (done : Bool) :
    Int64 × Option (List Tracker.Peer) :=
  (minInterval env arrivals,
    if allPeers env arrivals ≠ [] ∧ a.hasSink ∧ done = false then some (allPeers env arrivals)
    else none)

/-- The sources of `findPeersAttempt`. -/
def searchSources (tf : Torrent.TorrentFile) : List Source :=
  (trackerURLs tf).map .tracker ++ if tf.info.isPrivate then [] else [.dht]

def findPeersAttempt (env : Env) (arrivals : List Source) : List Tracker.Peer :=
  Tracker.filterPrivatePeers (allPeers env arrivals)

/-- The sources of `fetchMetadataAttempt`. -/
def magnetSources (m : Magnet) : List Source :=
  m.trackers.map .tracker ++ [.dht, .xpe m.peers]

/-- The batches that are dialled for the metadata, and the peers that are kept for the
download. -/
def fetchMetadataAttempt (env : Env) (arrivals : List Source) :
    List (List Tracker.Peer) × List Tracker.Peer :=
  ((arrivals.map (Source.peers env)).filter (· ≠ []), allPeers env arrivals)

/-! ## Peer exchange -/

structure Client where
  pexRemoteID : UInt8
  hasSink : Bool

def localPexID : UInt8 := 2

/-- The client after an extension handshake. -/
def Client.learnPexID (c : Client) (data : Bytes) : Client :=
  match Peer.decodeExtHandshake data with
  | .error _ => c
  | .ok m =>
    match m.lookup (ascii "ut_pex") with
    | none => c
    | some id => if 0 < id then { c with pexRemoteID := UInt8.ofInt id } else c

/-- The client after a message, and what is put on its sink if that has room. -/
def Client.handleExtended (c : Client) (room : Bool) (payload : Bytes) :
    Client × Option (List Tracker.Peer) :=
  match Peer.parseExtended payload with
  | .error _ => (c, none)
  | .ok (extID, data) =>
    if extID = Peer.extHandshakeID then (c.learnPexID data, none)
    else if extID = localPexID then
      match Peer.decodePEX data with
      | .ok (some pexMsg) =>
        if pexMsg.added ≠ [] ∧ c.hasSink ∧ room then
          (c, some (pexMsg.added.map fun p => ⟨p.ip, p.port⟩))
        else (c, none)
      | _ => (c, none)
    else (c, none)

/-! ## What points inward -/

/-- No peer is at a loopback, private, link-local or unspecified address. -/
def Outward (peers : List Tracker.Peer) : Prop := ∀ p ∈ peers, p.ip.isInward = false

instance (peers : List Tracker.Peer) : Decidable (Outward peers) :=
  inferInstanceAs (Decidable (∀ p ∈ peers, p.ip.isInward = false))

section
variable {env : Env} {arrivals : List Source}

/-- The address of a parsed peer is that of its text. -/
theorem mem_parsePeerAddrs {addrs : List Bytes} {p : Tracker.Peer}
    (h : p ∈ parsePeerAddrs env addrs) : ∃ addr ∈ addrs, Dht.peerIP addr = some p.ip := by
  obtain ⟨addr, haddr, hparse⟩ := List.mem_filterMap.mp h
  obtain ⟨hostPort, hsplit, hrest⟩ := Option.bind_eq_some_iff.mp hparse
  obtain ⟨ip, hip, hport⟩ := Option.bind_eq_some_iff.mp hrest
  obtain ⟨port, -, rfl⟩ := Option.map_eq_some_iff.mp hport
  refine ⟨addr, haddr, ?_⟩
  rw [Dht.peerIP, hsplit, Option.bind_some, hip]

/-- The filter of the lookup has read the same text. -/
theorem outward_lookupDHT (env : Env) : Outward (lookupDHT env) := by
  intro p hp
  rw [lookupDHT] at hp
  cases hlookup : env.lookup with
  | none => simp [hlookup] at hp
  | some answers =>
    cases hget : Dht.getPeers answers with
    | error e => simp [hlookup, hget] at hp
    | ok peerAddrs =>
      simp only [hlookup, hget] at hp
      obtain ⟨addr, haddr, hip⟩ := mem_parsePeerAddrs hp
      exact Dht.getPeers_not_inward hget haddr hip

theorem outward_findPeersAttempt (env : Env) (arrivals : List Source) :
    Outward (findPeersAttempt env arrivals) := by
  intro p hp
  have hkept := (List.mem_filter.mp hp).2
  rw [Bool.and_eq_true, Bool.not_eq_true'] at hkept
  exact hkept.2

/-- Nothing but the lookup filters. -/
theorem outward_allPeers_iff :
    Outward (allPeers env arrivals) ↔
      ∀ source ∈ arrivals, source ≠ .dht → Outward (source.peers env) := by
  constructor
  · intro h source hsource _ p hp
    exact h p (List.mem_flatMap.mpr ⟨source, hsource, hp⟩)
  · intro h p hp
    obtain ⟨source, hsource, hmem⟩ := List.mem_flatMap.mp hp
    by_cases hdht : source = .dht
    · rw [hdht] at hmem
      exact outward_lookupDHT env p hmem
    · exact h source hsource hdht p hmem

theorem outward_announced_iff {a : Announcer} {event : Event}
    (harrivals : arrivals.Perm (a.sources event)) :
    Outward (allPeers env arrivals) ↔
      ∀ url ∈ trackerURLs a.tf, Outward (Source.peers env (.tracker url)) := by
  rw [outward_allPeers_iff]
  constructor
  · intro h url hurl
    have hmem : Source.tracker url ∈ a.sources event :=
      List.mem_append_left _ (List.mem_map_of_mem hurl)
    exact h _ (harrivals.mem_iff.mpr hmem) (fun h => (nomatch h))
  · intro h source hsource hne
    rcases List.mem_append.mp (harrivals.mem_iff.mp hsource) with hmem | hmem
    · obtain ⟨url, hurl, rfl⟩ := List.mem_map.mp hmem
      exact h url hurl
    · split_ifs at hmem
      · exact absurd (List.mem_singleton.mp hmem) hne
      · cases hmem

theorem outward_batches_iff :
    (∀ batch ∈ (fetchMetadataAttempt env arrivals).1, Outward batch) ↔
      Outward (allPeers env arrivals) := by
  constructor
  · intro h p hp
    obtain ⟨source, hsource, hmem⟩ := List.mem_flatMap.mp hp
    refine h (source.peers env) (List.mem_filter.mpr ⟨List.mem_map_of_mem hsource, ?_⟩) p hmem
    exact decide_eq_true (List.ne_nil_of_mem hmem)
  · intro h batch hbatch p hp
    obtain ⟨source, hsource, rfl⟩ := List.mem_map.mp (List.mem_filter.mp hbatch).1
    exact h p (List.mem_flatMap.mpr ⟨source, hsource, hp⟩)

/-- What is put on the sink is what the message adds, as it is. -/
theorem handleExtended_eq_some {c : Client} {room : Bool} {payload : Bytes}
    {batch : List Tracker.Peer} (h : (c.handleExtended room payload).2 = some batch) :
    ∃ pexMsg, Peer.decodePEX (payload.drop 1) = .ok (some pexMsg) ∧
      batch = pexMsg.added.map fun p => ⟨p.ip, p.port⟩ := by
  cases payload with
  | nil => cases h
  | cons extID data =>
    simp only [Client.handleExtended, Peer.parseExtended] at h
    by_cases hhandshake : extID = Peer.extHandshakeID
    · simp [hhandshake] at h
    rw [if_neg hhandshake] at h
    by_cases hpex : extID = localPexID
    · rw [if_pos hpex] at h
      cases hdecode : Peer.decodePEX data with
      | error e => simp [hdecode] at h
      | ok msg =>
        cases msg with
        | none => simp [hdecode] at h
        | some pexMsg =>
          simp only [hdecode] at h
          split_ifs at h
          · exact ⟨pexMsg, hdecode, (Option.some.inj h).symm⟩
    · simp [hpex] at h

end

/-- What the sinks and the dialers get is outward exactly if the responses of the trackers, the
addresses of a magnet link and the messages of peer exchange are.  Lookups are filtered, and so
is what `findPeersAttempt` returns. -/
theorem peers_outward_iff (env : Env) :
    (∀ (a : Announcer) event arrivals done batch, arrivals.Perm (a.sources event) →
      (a.announce env arrivals done).2 = some batch →
        (Outward batch ↔
          ∀ url ∈ trackerURLs a.tf, Outward (Source.peers env (.tracker url)))) ∧
      (∀ tf arrivals, arrivals.Subperm (searchSources tf) →
        Outward (findPeersAttempt env arrivals)) ∧
      (∀ m arrivals, arrivals.Subperm (magnetSources m) →
        ((∀ batch ∈ (fetchMetadataAttempt env arrivals).1, Outward batch) ∧
            Outward (fetchMetadataAttempt env arrivals).2 ↔
          ∀ source ∈ arrivals, source ≠ .dht → Outward (source.peers env))) ∧
      ∀ (c : Client) room payload batch, (c.handleExtended room payload).2 = some batch →
        ∃ pexMsg, Peer.decodePEX (payload.drop 1) = .ok (some pexMsg) ∧
          (Outward batch ↔ ∀ p ∈ pexMsg.added, p.ip.isInward = false) := by
  refine ⟨fun a event arrivals done batch harrivals hbatch => ?_,
    fun tf arrivals _ => outward_findPeersAttempt env arrivals, fun m arrivals _ => ?_,
    fun c room payload batch hbatch => ?_⟩
  · rw [Announcer.announce] at hbatch
    split_ifs at hbatch
    obtain rfl := Option.some.inj hbatch
    exact outward_announced_iff harrivals
  · rw [outward_batches_iff, ← outward_allPeers_iff]
    exact and_self_iff
  · obtain ⟨pexMsg, hdecode, rfl⟩ := handleExtended_eq_some hbatch
    exact ⟨pexMsg, hdecode, List.forall_mem_map⟩

/-! A tracker at a public address, which answers with one compact peer. -/

def oneTracker : Torrent.TorrentFile where
  announce := ascii "h"
  announceList := []
  info :=
    { name := [], pieceLength := 0, pieceHashes := [], length := 0, files := [], isPrivate := true,
      fileTree := none }
  infoHash := []
  infoHashV2 := []
  metaVersion := 1
  webSeedURLs := []

def answering (peers : Bytes) : Env where
  net :=
    { parse := fun _ => .ok ⟨ascii "http", ascii "9.9.9.9"⟩
      lookupHost := fun _ => .error []
      get := fun _ _ => .ok (encodeValue (.dict [(ascii "peers", .str peers)]))
      dialUDP := fun _ => .error [] }
  lookup := none
  scanPort := fun _ => none

theorem peers_outward_public :
    (Announcer.announce ⟨oneTracker, true⟩ (answering [8, 8, 8, 8, 26, 225])
        [.tracker (ascii "h")] false).2 = some [⟨[8, 8, 8, 8], 6881⟩] ∧
      Outward [⟨[8, 8, 8, 8], 6881⟩] := by
  have hbatch : (Announcer.announce ⟨oneTracker, true⟩ (answering [8, 8, 8, 8, 26, 225])
      [.tracker (ascii "h")] false).2 = some [⟨[8, 8, 8, 8], 6881⟩] := by decide +kernel
  have harrivals : [Source.tracker (ascii "h")].Perm
      (Announcer.sources ⟨oneTracker, true⟩ .started) := by decide +kernel
  have hresponse : ∀ url ∈ trackerURLs oneTracker,
      Outward (Source.peers (answering [8, 8, 8, 8, 26, 225]) (.tracker url)) := by decide +kernel
  exact ⟨hbatch, ((peers_outward_iff _).1 _ _ _ _ _ harrivals hbatch).mpr hresponse⟩

/-- The loopback address goes from a tracker to the sink of the download and to the dialers of
the metadata, and from peer exchange to the sink. -/
theorem peers_inward_loopback :
    (Announcer.announce ⟨oneTracker, true⟩ (answering [127, 0, 0, 1, 26, 225])
        [.tracker (ascii "h")] false).2 = some [⟨[127, 0, 0, 1], 6881⟩] ∧
      (fetchMetadataAttempt (answering [127, 0, 0, 1, 26, 225]) [.tracker (ascii "h")]).1 =
        [[⟨[127, 0, 0, 1], 6881⟩]] ∧
      (Client.handleExtended ⟨1, true⟩ true
        (localPexID :: encodeValue (.dict [(ascii "added", .str [127, 0, 0, 1, 26, 225])]))).2 =
          some [⟨[127, 0, 0, 1], 6881⟩] ∧
      ¬Outward [⟨[127, 0, 0, 1], 6881⟩] := by
  decide +kernel

end Sources
end Stor.Engine
