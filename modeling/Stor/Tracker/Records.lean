import Mathlib.Data.List.Forall2
import Stor.Tracker.Announce

/-!
# The records of a response

A response of a tracker has its peers as records, in `peers` and in `peers6`.  Those of `peers`
are dictionaries or compact, those of `peers6` compact.  `parseAnnounceResponse`
(`tracker/tracker.go`) returns a peer for each record of a field, in their order, up to
`maxPeersPerResponse` of them; the two fields are counted apart.
-/

namespace Stor.Tracker

open Lib Bencode

inductive Record where
  /-- An address of `size` bytes, and a port. -/
  | compact (size : Nat) (bytes : Bytes)
  | dict (item : Value)

/-- The peer has the address and the port of the record. -/
def Record.Names : Record → Peer → Prop
  | .compact size bytes, p => p.ip = bytes.take size ∧ p.port = beNat (bytes.drop size)
  | .dict item, p =>
    ∃ (d : Entries) (ipStr : Bytes), item = .dict d ∧ d.str? (ascii "ip") = some ipStr ∧
      parseIP ipStr = some p.ip ∧
      d.int? (ascii "port") = some (p.port : Int) ∧ 0 < p.port ∧ p.port ≤ 65535

def compactRecords (size : Nat) (data : Bytes) : List Record :=
  (List.range (data.length / (size + 2))).map fun i =>
    .compact size (slice (i * (size + 2)) (size + 2) data)

def peersRecords : Option Value → List Record
  | some (.str data) => compactRecords 4 data
  | some (.list items) => items.map .dict
  | _ => []

def peers6Records : Option Value → List Record
  | some (.str data) => compactRecords 16 data
  | _ => []

/-! ## One field -/

/-- The first `maxPeersPerResponse` records, and the peers that they name. -/
def Taken (records : List Record) (peers : List Peer) : Prop :=
  List.Forall₂ Record.Names (records.take maxPeersPerResponse) peers

theorem Taken.length {records : List Record} {peers : List Peer} (h : Taken records peers) :
    peers.length = min records.length maxPeersPerResponse := by
  rw [← h.length_eq, List.length_take, Nat.min_comm]

theorem taken_nil : Taken [] [] := List.Forall₂.nil

section
variable {size : Nat} {data field : Bytes} {peers : List Peer}

theorem names_compact (size : Nat) (data : Bytes) (i : Nat) :
    (Record.compact size (slice (i * (size + 2)) (size + 2) data)).Names
      ⟨(data.drop (i * (size + 2))).take size,
        beNat ((data.drop (i * (size + 2) + size)).take 2)⟩ := by
  unfold Record.Names slice
  dsimp only
  rw [List.take_take, List.drop_take, List.drop_drop, Nat.min_eq_left (by omega),
    Nat.add_sub_cancel_left]
  exact ⟨rfl, rfl⟩

theorem taken_parseCompact (h : parseCompact field size data = .ok peers) :
    Taken (compactRecords size data) peers := by
  unfold parseCompact at h
  split_ifs at h with hwhole
  rw [← Except.ok.inj h]
  unfold Taken compactRecords compactPeers
  rw [← List.map_take, List.take_range, List.forall₂_map_left_iff, List.forall₂_map_right_iff,
    Nat.min_comm, List.forall₂_same]
  exact fun i _ => names_compact size data i

theorem names_dict {item : Value} {p : Peer} (h : parseDictPeer item = .ok p) :
    (Record.dict item).Names p := by
  unfold parseDictPeer at h
  cases item with
  | dict d =>
    dsimp only [Value.dict?] at h
    cases hstr : Entries.str? (ascii "ip") d with
    | none => rw [hstr] at h; cases h
    | some ipStr =>
      rw [hstr] at h
      dsimp only at h
      cases hip : parseIP ipStr with
      | none => rw [hip] at h; cases h
      | some ip =>
        rw [hip] at h
        dsimp only at h
        cases hport : Entries.int? (ascii "port") d with
        | none => rw [hport] at h; cases h
        | some port =>
          rw [hport] at h
          dsimp only at h
          split_ifs at h with hrange
          rw [← Except.ok.inj h]
          refine ⟨d, ipStr, rfl, hstr, hip, ?_, ?_, ?_⟩
          · rw [hport, Int.toNat_of_nonneg (by omega)]
          · dsimp only
            omega
          · dsimp only
            omega
  | str _ | int _ | list _ => cases h

theorem forall₂_of_mapM {α β ε : Type} {f : α → Except ε β} {xs : List α} {ys : List β}
    (h : xs.mapM f = .ok ys) : List.Forall₂ (fun x y => f x = .ok y) xs ys := by
  induction xs generalizing ys with
  | nil =>
    rw [← Except.ok.inj h]
    exact List.Forall₂.nil
  | cons x xs ih =>
    rw [List.mapM_cons] at h
    cases hx : f x with
    | error e => rw [hx] at h; cases h
    | ok y =>
      cases hxs : xs.mapM f with
      | error e => rw [hx, hxs] at h; cases h
      | ok ys' =>
        rw [hx, hxs] at h
        rw [← Except.ok.inj h]
        exact List.Forall₂.cons hx (ih hxs)

theorem taken_parseDictPeers {items : List Value} (h : parseDictPeers items = .ok peers) :
    Taken (items.map .dict) peers := by
  unfold Taken
  rw [← List.map_take, List.forall₂_map_left_iff]
  exact (forall₂_of_mapM h).imp fun _ _ => names_dict

theorem taken_parsePeers {field : Option Value} (h : parsePeers field = .ok peers) :
    Taken (peersRecords field) peers := by
  match field with
  | none | some (.int _) | some (.dict _) =>
    rw [← Except.ok.inj h]
    exact taken_nil
  | some (.str data) => exact taken_parseCompact h
  | some (.list items) => exact taken_parseDictPeers h

theorem taken_parsePeers6 {field : Option Value}
    (h : (field.bind Value.str?).elim (.ok []) parseCompactPeers6 = .ok peers) :
    Taken (peers6Records field) peers := by
  match field with
  | none | some (.int _) | some (.dict _) | some (.list _) =>
    rw [← Except.ok.inj h]
    exact taken_nil
  | some (.str data) => exact taken_parseCompact h

end

/-! ## The response -/

theorem exists_of_parseAnnounceResponse {data : Bytes} {resp : AnnounceResponse}
    (h : parseAnnounceResponse data = .ok resp) :
    ∃ (d : Entries) (peers v6Peers : List Peer), decode data = .ok (.dict d) ∧
      parsePeers (d.get? (ascii "peers")) = .ok peers ∧
      (d.str? (ascii "peers6")).elim (.ok []) parseCompactPeers6 = .ok v6Peers ∧
      resp.peers = peers ++ v6Peers := by
  unfold parseAnnounceResponse at h
  cases hdecode : decode data with
  | error e => rw [hdecode] at h; cases h
  | ok decoded =>
    rw [hdecode] at h
    dsimp only at h
    cases hdict : decoded.dict? with
    | none => rw [hdict] at h; cases h
    | some d =>
      rw [hdict] at h
      dsimp only at h
      cases hreason : d.str? (ascii "failure reason") with
      | some reason => rw [hreason] at h; cases h
      | none =>
        rw [hreason] at h
        dsimp only at h
        cases hpeers : parsePeers (d.get? (ascii "peers")) with
        | error e => rw [hpeers] at h; cases h
        | ok peers =>
          rw [hpeers] at h
          dsimp only at h
          cases hpeers6 : (d.str? (ascii "peers6")).elim (.ok []) parseCompactPeers6 with
          | error e => rw [hpeers6] at h; cases h
          | ok v6Peers =>
            rw [hpeers6] at h
            rw [← Except.ok.inj h]
            refine ⟨d, peers, v6Peers, ?_, hpeers, hpeers6, rfl⟩
            rw [Value.dict?_eq_some.mp hdict]

/-- The peers of a response are those of the first records of `peers` and then those of the
first records of `peers6`.  There are at most `maxPeersPerResponse` exactly if the fields have no
more records together, or one of them has none. -/
theorem parseAnnounceResponse_records (data : Bytes) (resp : AnnounceResponse)
    (h : parseAnnounceResponse data = .ok resp) :
    ∃ d : Entries, decode data = .ok (.dict d) ∧
      List.Forall₂ Record.Names
        ((peersRecords (d.get? (ascii "peers"))).take maxPeersPerResponse ++
          (peers6Records (d.get? (ascii "peers6"))).take maxPeersPerResponse) resp.peers ∧
      (resp.peers.length ≤ maxPeersPerResponse ↔
        (peersRecords (d.get? (ascii "peers"))).length +
            (peers6Records (d.get? (ascii "peers6"))).length ≤ maxPeersPerResponse ∨
          peersRecords (d.get? (ascii "peers")) = [] ∨
            peers6Records (d.get? (ascii "peers6")) = []) := by
  obtain ⟨d, peers, v6Peers, hdecode, hpeers, hpeers6, hresp⟩ := exists_of_parseAnnounceResponse h
  have htaken := taken_parsePeers hpeers
  have htaken6 := taken_parsePeers6 hpeers6
  refine ⟨d, hdecode, ?_, ?_⟩
  · rw [hresp]
    exact List.rel_append htaken htaken6
  · rw [hresp, List.length_append, htaken.length, htaken6.length, ← List.length_eq_zero_iff,
      ← List.length_eq_zero_iff]
    unfold maxPeersPerResponse
    omega

/-- A peer of each field. -/
theorem parseAnnounceResponse_records_two :
    parseAnnounceResponse (ascii "d8:intervali60e5:peers6:" ++ [8, 8, 8, 8, 26, 225] ++
        ascii "6:peers618:" ++ List.replicate 15 0 ++ [1, 26, 225] ++ ascii "e") =
      .ok ⟨60, [⟨[8, 8, 8, 8], 6881⟩, ⟨List.replicate 15 0 ++ [1], 6881⟩]⟩ ∧
    ∃ d : Entries, List.Forall₂ Record.Names
      ((peersRecords (d.get? (ascii "peers"))).take maxPeersPerResponse ++
        (peers6Records (d.get? (ascii "peers6"))).take maxPeersPerResponse)
      [⟨[8, 8, 8, 8], 6881⟩, ⟨List.replicate 15 0 ++ [1], 6881⟩] := by
  have h : parseAnnounceResponse (ascii "d8:intervali60e5:peers6:" ++ [8, 8, 8, 8, 26, 225] ++
        ascii "6:peers618:" ++ List.replicate 15 0 ++ [1, 26, 225] ++ ascii "e") =
      .ok ⟨60, [⟨[8, 8, 8, 8], 6881⟩, ⟨List.replicate 15 0 ++ [1], 6881⟩]⟩ := by decide +kernel
  obtain ⟨d, -, hrecords, -⟩ := parseAnnounceResponse_records _ _ h
  exact ⟨h, d, hrecords⟩

/-- The text of a response with both compact fields. -/
def compactResponse (peers peers6 : Bytes) : Bytes :=
  encodeValue (.dict [(ascii "peers", .str peers), (ascii "peers6", .str peers6)])

theorem decode_compactResponse {peers peers6 : Bytes} (hpeers : peers.length ≤ maxStringLength)
    (hpeers6 : peers6.length ≤ maxStringLength) :
    decode (compactResponse peers peers6) =
      .ok (.dict [(ascii "peers", .str peers), (ascii "peers6", .str peers6)]) := by
  have hkeys : [ascii "peers", ascii "peers6"].Pairwise (· < ·) := by decide
  have htwo : 2 ≤ maxCollectionSize := by decide
  have hitems : 2 ≤ maxTotalItems := by decide
  exact decode_encodeValue ⟨hkeys, trivial, trivial, trivial⟩
    ⟨by decide, htwo, by decide, ⟨by decide, hpeers⟩, by decide, ⟨by decide, hpeers6⟩, trivial⟩
    hitems

/-- 10000 records in `peers` and one in `peers6`. -/
theorem parseAnnounceResponse_exceeds :
    ∃ resp, parseAnnounceResponse
        (compactResponse (List.replicate 60000 1) (List.replicate 18 1)) = .ok resp ∧
      resp.peers.length = maxPeersPerResponse + 1 := by
  refine ⟨⟨0, compactPeers 4 10000 (List.replicate 60000 1) ++
    compactPeers 16 1 (List.replicate 18 1)⟩, ?_, ?_⟩
  · have hpeers : (List.replicate 60000 (1 : UInt8)).length = 60000 := List.length_replicate
    have hpeers6 : (List.replicate 18 (1 : UInt8)).length = 18 := List.length_replicate
    generalize List.replicate 60000 (1 : UInt8) = peers at *
    generalize List.replicate 18 (1 : UInt8) = peers6 at *
    have hmax : 60000 ≤ maxStringLength := by decide
    have hparse : parseCompactPeers peers = .ok (compactPeers 4 10000 peers) := by
      rw [parseCompactPeers, parseCompact, hpeers]
      rfl
    have hparse6 : parseCompactPeers6 peers6 = .ok (compactPeers 16 1 peers6) := by
      rw [parseCompactPeers6, parseCompact, hpeers6]
      rfl
    have hget : Entries.get? (ascii "peers")
        [(ascii "peers", .str peers), (ascii "peers6", .str peers6)] = some (.str peers) := rfl
    have hget6 : Entries.str? (ascii "peers6")
        [(ascii "peers", .str peers), (ascii "peers6", .str peers6)] = some peers6 := rfl
    have hreason : Entries.str? (ascii "failure reason")
        [(ascii "peers", .str peers), (ascii "peers6", .str peers6)] = none := rfl
    rw [parseAnnounceResponse, decode_compactResponse (by omega) (by omega)]
    simp only [Value.dict?, hreason, hget, hget6, parsePeers, hparse, hparse6, Option.elim_some]
    rfl
  · rw [List.length_append, compactPeers, compactPeers, List.length_map, List.length_map,
      List.length_range, List.length_range]
    rfl

end Stor.Tracker
