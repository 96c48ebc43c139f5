import Stor.Bencode.Encode
import Stor.Peer.Extension

/-!
# Peer exchange messages

`EncodePEX` of `peer/pex.go`.  The peers of each family go into a text of their own, and
the flags of those that are added into a text beside it, so that the two stay aligned as
long as the same peers are skipped in both.  `family` is the list of the peers that are
not skipped, with the addresses that are written; every text is made of it, and
`pexPeers` reads it back.
-/

namespace Stor.Peer

open Lib Bencode

/-! ## The encoder -/

/-- The address of a peer that `To4` does not take for IPv4. -/
def onlyV6 (ip : IP) : Option Bytes := if ip.to4.isSome then none else ip.to16

def seedFlag (seed : Bool) : UInt8 := if seed then 0x02 else 0

/-- The compact peers and their flags; `pick` is the address in the family, and a peer that
has none is skipped. -/
def encodeAdded (pick : IP → Option Bytes) (peers : List PEXPeer) : Bytes × Bytes :=
  peers.foldl
    (fun acc p =>
      match pick p.ip with
      | none => acc
      | some ip => (acc.1 ++ (ip ++ beBytes 2 p.port), acc.2 ++ [seedFlag p.seed]))
    ([], [])

def encodeAddedV4 (peers : List PEXPeer) : Bytes × Bytes := encodeAdded IP.to4 peers

def encodeAddedV6 (peers : List PEXPeer) : Bytes × Bytes := encodeAdded onlyV6 peers

def encodeDropped (pick : IP → Option Bytes) (peers : List PEXPeer) : Bytes :=
  peers.foldl
    (fun acc p =>
      match pick p.ip with
      | none => acc
      | some ip => acc ++ (ip ++ beBytes 2 p.port))
    []

def encodeDroppedV4 (peers : List PEXPeer) : Bytes := encodeDropped IP.to4 peers

def encodeDroppedV6 (peers : List PEXPeer) : Bytes := encodeDropped onlyV6 peers

/-- The entries of a family of added peers, if there are any. -/
def addedFields (name flags : Bytes) (texts : Bytes × Bytes) : List (Bytes × Bytes) :=
  if texts.1.length > 0 then [(name, texts.1), (flags, texts.2)] else []

def droppedField (name text : Bytes) : List (Bytes × Bytes) :=
  if text.length > 0 then [(name, text)] else []

def pexFields (m : PEXMessage) : List (Bytes × Bytes) :=
  (if m.added.length > 0 then
    addedFields (ascii "added") (ascii "added.f") (encodeAddedV4 m.added) ++
      addedFields (ascii "added6") (ascii "added6.f") (encodeAddedV6 m.added)
  else []) ++
  if m.dropped.length > 0 then
    droppedField (ascii "dropped") (encodeDroppedV4 m.dropped) ++
      droppedField (ascii "dropped6") (encodeDroppedV6 m.dropped)
  else []

def encodePEX (m : PEXMessage) : Except EncodeError Bytes :=
  encodeAny (.map ((pexFields m).map fun kv => (kv.1, .string kv.2)))

/-! ## The peers of a family -/

def family (pick : IP → Option Bytes) (peers : List PEXPeer) : List PEXPeer :=
  peers.filterMap fun p => (pick p.ip).map fun ip => { p with ip := ip }

/-- The bytes of a compact peer. -/
def record (p : PEXPeer) : Bytes := p.ip ++ beBytes 2 p.port

section
variable (pick : IP → Option Bytes)

theorem family_concat (peers : List PEXPeer) (p : PEXPeer) :
    family pick (peers ++ [p]) =
      family pick peers ++ ((pick p.ip).map fun ip => { p with ip := ip }).toList := by
  rw [family, List.filterMap_append]
  cases h : pick p.ip with
  | none => simp [h, family]
  | some ip => simp [h, family]

theorem encodeAdded_eq (peers : List PEXPeer) :
    encodeAdded pick peers =
      ((family pick peers).flatMap record, (family pick peers).map fun p => seedFlag p.seed) := by
  induction peers using List.reverseRecOn with
  | nil => rfl
  | append_singleton peers p ih =>
    rw [encodeAdded, List.foldl_append, ← encodeAdded, ih, List.foldl_cons, List.foldl_nil,
      family_concat]
    cases pick p.ip with
    | none => simp
    | some ip => simp [record]

theorem encodeDropped_eq (peers : List PEXPeer) :
    encodeDropped pick peers = (family pick peers).flatMap record := by
  induction peers using List.reverseRecOn with
  | nil => rfl
  | append_singleton peers p ih =>
    rw [encodeDropped, List.foldl_append, ← encodeDropped, ih, List.foldl_cons, List.foldl_nil,
      family_concat]
    cases pick p.ip with
    | none => simp
    | some ip => simp [record]

end

theorem length_onlyV6 {ip ip16 : IP} (h : onlyV6 ip = some ip16) : ip16.length = 16 := by
  rw [onlyV6] at h
  split_ifs at h
  exact IP.length_to16 h

/-- The peers of a family can be told apart in their text. -/
structure Compact (size : Nat) (peers : List PEXPeer) : Prop where
  length : ∀ p ∈ peers, p.ip.length = size
  port : ∀ p ∈ peers, p.port < 65536
  count : peers.length ≤ maxPEXPeers

theorem Compact.family {pick : IP → Option Bytes} {size : Nat} {peers : List PEXPeer}
    (hpick : ∀ ip ip', pick ip = some ip' → ip'.length = size)
    (hport : ∀ p ∈ peers, p.port < 65536) (hcount : (family pick peers).length ≤ maxPEXPeers) :
    Compact size (family pick peers) := by
  have horigin : ∀ p ∈ Peer.family pick peers, ∃ q ∈ peers, pick q.ip = some p.ip ∧
      p.port = q.port := by
    intro p hp
    obtain ⟨q, hq, hmap⟩ := List.mem_filterMap.mp hp
    obtain ⟨ip, hip, rfl⟩ := Option.map_eq_some_iff.mp hmap
    exact ⟨q, hq, hip, rfl⟩
  refine ⟨fun p hp => ?_, fun p hp => ?_, hcount⟩
  · obtain ⟨q, -, hip, -⟩ := horigin p hp
    exact hpick q.ip p.ip hip
  · obtain ⟨q, hq, -, hqp⟩ := horigin p hp
    rw [hqp]
    exact hport q hq

/-! ## The decoder on the text of a family -/

theorem seedFlag_test (seed : Bool) : decide (seedFlag seed &&& 0x02 ≠ 0) = seed := by
  cases seed <;> decide

section
variable {size : Nat} {peers : List PEXPeer} (h : Compact size peers)

include h

theorem Compact.length_record : ∀ p ∈ peers, (record p).length = size + 2 := by
  intro p hp
  rw [record, List.length_append, h.length p hp, length_beBytes]

theorem Compact.length_text : (peers.flatMap record).length = peers.length * (size + 2) :=
  length_flatMap_records h.length_record

theorem Compact.compactPeers :
    Tracker.compactPeers size peers.length (peers.flatMap record) =
      peers.map fun p => ⟨p.ip, p.port⟩ := by
  have hread : ∀ p ∈ peers,
      (⟨slice 0 size (record p), beNat (slice size 2 (record p))⟩ : Tracker.Peer) =
        ⟨p.ip, p.port⟩ := by
    intro p hp
    have hport : slice 0 2 (beBytes 2 p.port) = beBytes 2 p.port := by
      rw [slice, List.drop_zero, List.take_of_length_le (length_beBytes 2 p.port).le]
    rw [record, slice_append_left (h.length p hp), ← Nat.add_zero size,
      slice_append_right (h.length p hp), hport, beNat_beBytes (h.port p hp)]
  have hrecords := map_slice_flatMap h.length_record fun r =>
    (⟨slice 0 size r, beNat (slice size 2 r)⟩ : Tracker.Peer)
  rw [← List.map_congr_left hread, ← hrecords, Tracker.compactPeers]
  refine List.map_congr_left fun i _ => ?_
  rw [slice_slice (by omega), slice_slice (Nat.le_refl _)]
  rfl

/-- The text that the peers were written as is read back, with what the flags say. -/
theorem Compact.pexPeers {name : Bytes} {d : Entries} (flags : Bytes)
    (htext : (d.str? name).getD [] = peers.flatMap record) :
    pexPeers name size flags d =
      .ok (peers.mapIdx fun i p => { p with seed := flags.getD i 0 &&& 0x02 ≠ 0 }) := by
  have hdiv : (peers.flatMap record).length / (size + 2) = peers.length := by
    rw [h.length_text, Nat.mul_div_cancel _ (Nat.succ_pos _)]
  have hmod : (peers.flatMap record).length % (size + 2) = 0 := by
    rw [h.length_text, Nat.mul_mod_left]
  unfold Peer.pexPeers
  cases hd : d.str? name with
  | none =>
    rw [hd, Option.getD_none] at htext
    have hnil : peers = [] := by
      rw [← htext, List.length_nil, Nat.zero_div] at hdiv
      exact List.eq_nil_of_length_eq_zero hdiv.symm
    rw [hnil]
    rfl
  | some text =>
    rw [hd, Option.getD_some] at htext
    rw [htext]
    dsimp only
    rw [hdiv, hmod, if_neg (not_not.mpr rfl), if_neg (Nat.not_lt.mpr h.count), h.compactPeers]
    refine congrArg Except.ok (List.mapIdx_eq_iff.mpr fun i => ?_)
    rw [List.getElem?_mapIdx, List.getElem?_map, Option.map_map]
    rfl

theorem Compact.pexPeers_flagged {name : Bytes} {d : Entries}
    (htext : (d.str? name).getD [] = peers.flatMap record) :
    Peer.pexPeers name size (peers.map fun p => seedFlag p.seed) d = .ok peers := by
  rw [h.pexPeers _ htext]
  refine congrArg Except.ok (List.mapIdx_eq_iff.mpr fun i => ?_)
  cases hp : peers[i]? with
  | none => rfl
  | some p =>
    have hflag : (peers.map fun p => seedFlag p.seed).getD i 0 = seedFlag p.seed := by
      rw [List.getD_eq_getElem?_getD, List.getElem?_map, hp]
      rfl
    rw [Option.map_some, hflag, seedFlag_test]

theorem Compact.pexPeers_unflagged {name : Bytes} {d : Entries}
    (htext : (d.str? name).getD [] = peers.flatMap record) :
    Peer.pexPeers name size [] d = .ok (peers.map fun p => { p with seed := false }) := by
  rw [h.pexPeers _ htext]
  refine congrArg Except.ok (List.mapIdx_eq_iff.mpr fun i => ?_)
  rw [List.getElem?_map, List.getD_nil]
  rfl

end

/-! ## The entries of a message -/

section
variable {k : Bytes} {fields rest : List (Bytes × Bytes)} {p : Prop} [Decidable p]

/-- Entries under other names are passed over. -/
theorem lookup_pass (h : fields.lookup k = none) :
    ((if p then fields else []) ++ rest).lookup k = rest.lookup k := by
  rw [List.lookup_append]
  split_ifs
  · rw [h]
    rfl
  · rfl

/-- An entry that is left out stands for the empty text. -/
theorem lookup_here {text : Bytes} (h : fields.lookup k = some text) (hrest : rest.lookup k = none)
    (hempty : ¬ p → text = []) :
    (((if p then fields else []) ++ rest).lookup k).getD [] = text := by
  rw [List.lookup_append, hrest]
  split_ifs with hp
  · rw [h]
    rfl
  · rw [hempty hp]
    rfl

end

/-- No peers have no entries, so that the two outer tests are not needed. -/
theorem pexFields_eq (m : PEXMessage) : pexFields m =
    [addedFields (ascii "added") (ascii "added.f") (encodeAddedV4 m.added),
      addedFields (ascii "added6") (ascii "added6.f") (encodeAddedV6 m.added),
      droppedField (ascii "dropped") (encodeDroppedV4 m.dropped),
      droppedField (ascii "dropped6") (encodeDroppedV6 m.dropped)].flatten := by
  obtain ⟨added, dropped⟩ := m
  cases added with
  | nil =>
    cases dropped with
    | nil => rfl
    | cons p ps => simp [pexFields, encodeAddedV4, encodeAddedV6, encodeAdded, addedFields]
  | cons p ps =>
    cases dropped with
    | nil =>
      simp [pexFields, encodeDroppedV4, encodeDroppedV6, encodeDropped, droppedField]
    | cons q qs => simp [pexFields]

theorem keys_addedFields (name flags : Bytes) (texts : Bytes × Bytes) :
    ((addedFields name flags texts).map Prod.fst).Sublist [name, flags] := by
  rw [addedFields]
  split_ifs
  · exact List.Sublist.refl _
  · exact List.nil_sublist _

theorem keys_droppedField (name text : Bytes) :
    ((droppedField name text).map Prod.fst).Sublist [name] := by
  rw [droppedField]
  split_ifs
  · exact List.Sublist.refl _
  · exact List.nil_sublist _

theorem keys_pexFields (m : PEXMessage) : ((pexFields m).map Prod.fst).Sublist
    [ascii "added", ascii "added.f", ascii "added6", ascii "added6.f", ascii "dropped",
      ascii "dropped6"] := by
  rw [pexFields_eq, List.flatten_cons, List.flatten_cons, List.flatten_cons, List.flatten_cons,
    List.flatten_nil, List.append_nil, List.map_append, List.map_append, List.map_append]
  exact (keys_addedFields _ _ _).append ((keys_addedFields _ _ _).append
    ((keys_droppedField _ _).append (keys_droppedField _ _)))

/-- The texts of the four families, and the flags of the added ones. -/
structure Texts (m : PEXMessage) (d : Entries) : Prop where
  added : (d.str? (ascii "added")).getD [] = (family IP.to4 m.added).flatMap record
  flags : (d.str? (ascii "added.f")).getD [] =
    (family IP.to4 m.added).map fun p => seedFlag p.seed
  added6 : (d.str? (ascii "added6")).getD [] = (family onlyV6 m.added).flatMap record
  flags6 : (d.str? (ascii "added6.f")).getD [] =
    (family onlyV6 m.added).map fun p => seedFlag p.seed
  dropped : (d.str? (ascii "dropped")).getD [] = (family IP.to4 m.dropped).flatMap record
  dropped6 : (d.str? (ascii "dropped6")).getD [] = (family onlyV6 m.dropped).flatMap record

theorem eq_nil_of_not_pos {text : Bytes} (h : ¬ text.length > 0) : text = [] :=
  List.eq_nil_of_length_eq_zero (by omega)

/-- Peers without a text have no flags either. -/
theorem flags_eq_nil {peers : List PEXPeer} (h : ¬ (peers.flatMap record).length > 0) :
    (peers.map fun p => seedFlag p.seed) = [] := by
  cases peers with
  | nil => rfl
  | cons p ps =>
    rw [List.flatMap_cons, List.length_append, record, List.length_append, length_beBytes] at h
    omega

theorem texts (m : PEXMessage) :
    Texts m (Entries.ofList ((pexFields m).map fun kv => (kv.1, .str kv.2))) := by
  have hnodup : ((pexFields m).map Prod.fst).Nodup := (keys_pexFields m).nodup (by decide)
  have hlookup : ∀ k, (Entries.ofList ((pexFields m).map fun kv => (kv.1, .str kv.2))).str? k =
      (pexFields m).lookup k := by
    intro k
    rw [Entries.str?, get?_ofList_strings hnodup]
    cases (pexFields m).lookup k <;> rfl
  have hfields := pexFields_eq m
  rw [encodeAddedV4, encodeAddedV6, encodeDroppedV4, encodeDroppedV6, encodeAdded_eq,
    encodeAdded_eq, encodeDropped_eq, encodeDropped_eq] at hfields
  simp only [List.flatten_cons, addedFields, droppedField] at hfields
  refine ⟨?_, ?_, ?_, ?_, ?_, ?_⟩
  · rw [hlookup, hfields]
    refine lookup_here rfl ?_ eq_nil_of_not_pos
    rw [lookup_pass rfl, lookup_pass rfl, lookup_pass rfl]
    rfl
  · rw [hlookup, hfields]
    refine lookup_here rfl ?_ flags_eq_nil
    rw [lookup_pass rfl, lookup_pass rfl, lookup_pass rfl]
    rfl
  · rw [hlookup, hfields, lookup_pass rfl]
    refine lookup_here rfl ?_ eq_nil_of_not_pos
    rw [lookup_pass rfl, lookup_pass rfl]
    rfl
  · rw [hlookup, hfields, lookup_pass rfl]
    refine lookup_here rfl ?_ flags_eq_nil
    rw [lookup_pass rfl, lookup_pass rfl]
    rfl
  · rw [hlookup, hfields, lookup_pass rfl, lookup_pass rfl]
    refine lookup_here rfl ?_ eq_nil_of_not_pos
    rw [lookup_pass rfl]
    rfl
  · rw [hlookup, hfields, lookup_pass rfl, lookup_pass rfl, lookup_pass rfl]
    exact lookup_here rfl rfl eq_nil_of_not_pos

/-! ## The round trip -/

/-- An address of either family and a port of sixteen bits. -/
def PEXPeer.Valid (p : PEXPeer) : Prop :=
  (p.ip.length = 4 ∨ p.ip.length = 16) ∧ p.port < 65536

instance (p : PEXPeer) : Decidable p.Valid := inferInstanceAs (Decidable (_ ∧ _))

/-- The IPv4 peers, with addresses of four bytes. -/
def v4Peers (peers : List PEXPeer) : List PEXPeer :=
  peers.filterMap fun p => p.ip.to4.map fun ip => { p with ip := ip }

def v6Peers (peers : List PEXPeer) : List PEXPeer := peers.filter fun p => p.ip.to4.isNone

theorem onlyV6_of_valid {p : PEXPeer} (h : p.Valid) :
    onlyV6 p.ip = if p.ip.to4.isNone then some p.ip else none := by
  rw [onlyV6]
  cases hfour : p.ip.to4 with
  | some ip => rfl
  | none =>
    have hlen : ¬ p.ip.length = 4 := by
      intro hlen
      rw [IP.to4, if_pos hlen] at hfour
      cases hfour
    have hlen' : p.ip.length = 16 := h.1.resolve_left hlen
    rw [IP.to16, if_neg hlen, if_pos hlen']
    rfl

theorem family_onlyV6 {peers : List PEXPeer} (h : ∀ p ∈ peers, p.Valid) :
    family onlyV6 peers = v6Peers peers := by
  rw [v6Peers, ← List.filterMap_eq_filter, family]
  refine List.filterMap_congr fun p hp => ?_
  rw [onlyV6_of_valid (h p hp), Option.guard]
  split_ifs <;> rfl

section
variable {m : PEXMessage}

theorem mem_addedFields {name flags : Bytes} {texts : Bytes × Bytes} {kv : Bytes × Bytes}
    (h : kv ∈ addedFields name flags texts) : kv.2 = texts.1 ∨ kv.2 = texts.2 := by
  rw [addedFields] at h
  split_ifs at h
  · rcases List.mem_cons.mp h with rfl | h
    · exact .inl rfl
    · rw [List.mem_singleton.mp h]
      exact .inr rfl
  · exact absurd h List.not_mem_nil

theorem mem_droppedField {name text : Bytes} {kv : Bytes × Bytes}
    (h : kv ∈ droppedField name text) : kv.2 = text := by
  rw [droppedField] at h
  split_ifs at h
  · rw [List.mem_singleton.mp h]
  · exact absurd h List.not_mem_nil

theorem Compact.length_text_le {size : Nat} {peers : List PEXPeer} (h : Compact size peers)
    (hsize : size ≤ 16) : (peers.flatMap record).length ≤ maxStringLength := by
  have hbound : peers.length * (size + 2) ≤ 10000 * 18 := Nat.mul_le_mul h.count (by omega)
  rw [h.length_text, maxStringLength]
  omega

theorem Compact.length_flags_le {size : Nat} {peers : List PEXPeer} (h : Compact size peers) :
    (peers.map fun p => seedFlag p.seed).length ≤ maxStringLength := by
  rw [List.length_map]
  exact h.count.trans (by decide)

/-- The limits of the decoder are far above the texts of a message. -/
theorem length_field_le (ha : Compact 4 (family IP.to4 m.added))
    (ha6 : Compact 16 (family onlyV6 m.added)) (hd : Compact 4 (family IP.to4 m.dropped))
    (hd6 : Compact 16 (family onlyV6 m.dropped)) :
    ∀ kv ∈ pexFields m, kv.1.length ≤ maxStringLength ∧ kv.2.length ≤ maxStringLength := by
  intro kv hkv
  have hkeys : ∀ k ∈ [ascii "added", ascii "added.f", ascii "added6", ascii "added6.f",
      ascii "dropped", ascii "dropped6"], k.length ≤ maxStringLength := by decide
  refine ⟨hkeys _ ((keys_pexFields m).subset (List.mem_map_of_mem hkv)), ?_⟩
  rw [pexFields_eq, encodeAddedV4, encodeAddedV6, encodeDroppedV4, encodeDroppedV6,
    encodeAdded_eq, encodeAdded_eq, encodeDropped_eq, encodeDropped_eq] at hkv
  simp only [List.flatten_cons, List.flatten_nil, List.mem_append, List.not_mem_nil,
    or_false] at hkv
  rcases hkv with h | h | h | h
  · rcases mem_addedFields h with h | h
    · rw [h]
      exact ha.length_text_le (by decide)
    · rw [h]
      exact ha.length_flags_le
  · rcases mem_addedFields h with h | h
    · rw [h]
      exact ha6.length_text_le (by decide)
    · rw [h]
      exact ha6.length_flags_le
  · rw [mem_droppedField h]
    exact hd.length_text_le (by decide)
  · rw [mem_droppedField h]
    exact hd6.length_text_le (by decide)

end

theorem decodePEX_encodePEX (m : PEXMessage) (hadded : ∀ p ∈ m.added, p.Valid)
    (hdropped : ∀ p ∈ m.dropped, p.Valid)
    (hcount : (v4Peers m.added).length ≤ maxPEXPeers ∧ (v6Peers m.added).length ≤ maxPEXPeers)
    (hcount' : (v4Peers m.dropped).length ≤ maxPEXPeers ∧
      (v6Peers m.dropped).length ≤ maxPEXPeers) :
    ∃ text, encodePEX m = .ok text ∧
      decodePEX text = .ok (some
        { added := v4Peers m.added ++ v6Peers m.added
          dropped := (v4Peers m.dropped ++ v6Peers m.dropped).map fun p =>
            { p with seed := false } }) := by
  rw [← family_onlyV6 hadded] at hcount
  rw [← family_onlyV6 hdropped] at hcount'
  have ha : Compact 4 (family IP.to4 m.added) :=
    .family (fun _ _ => IP.length_to4) (fun p hp => (hadded p hp).2) hcount.1
  have ha6 : Compact 16 (family onlyV6 m.added) :=
    .family (fun _ _ => length_onlyV6) (fun p hp => (hadded p hp).2) hcount.2
  have hd : Compact 4 (family IP.to4 m.dropped) :=
    .family (fun _ _ => IP.length_to4) (fun p hp => (hdropped p hp).2) hcount'.1
  have hd6 : Compact 16 (family onlyV6 m.dropped) :=
    .family (fun _ _ => length_onlyV6) (fun p hp => (hdropped p hp).2) hcount'.2
  have hlen : (pexFields m).length ≤ maxCollectionSize := by
    have hkeys := (keys_pexFields m).length_le
    rw [List.length_map] at hkeys
    exact hkeys.trans (by decide)
  obtain ⟨text, hencode, hdecode⟩ := decode_encode_strings ((keys_pexFields m).nodup (by decide))
    hlen (length_field_le ha ha6 hd hd6)
  refine ⟨text, hencode, ?_⟩
  have ht := texts m
  unfold decodePEX
  rw [hdecode]
  dsimp only [Value.dict?]
  rw [ht.flags, ht.flags6, ha.pexPeers_flagged ht.added, ha6.pexPeers_flagged ht.added6,
    hd.pexPeers_unflagged ht.dropped, hd6.pexPeers_unflagged ht.dropped6, List.map_append,
    family_onlyV6 hadded, family_onlyV6 hdropped]
  rfl

/-- A seed under a mapped address behind an IPv6 peer, and a peer that left. -/
theorem decodePEX_encodePEX_mapped :
    ∃ text, encodePEX
        ⟨[⟨List.replicate 15 0 ++ [1], 1, false⟩, ⟨IP.v4InV6 ++ [10, 0, 0, 1], 2, true⟩],
          [⟨[10, 0, 0, 2], 3, true⟩]⟩ = .ok text ∧
      decodePEX text = .ok (some
        ⟨[⟨[10, 0, 0, 1], 2, true⟩, ⟨List.replicate 15 0 ++ [1], 1, false⟩],
          [⟨[10, 0, 0, 2], 3, false⟩]⟩) :=
  decodePEX_encodePEX
    ⟨[⟨List.replicate 15 0 ++ [1], 1, false⟩, ⟨IP.v4InV6 ++ [10, 0, 0, 1], 2, true⟩],
      [⟨[10, 0, 0, 2], 3, true⟩]⟩ (by decide) (by decide) (by decide) (by decide)

end Stor.Peer
