import Stor.Bencode.Encode
import Stor.Dht.Table
import Stor.Dht.Token

/-!
# Answers to queries

`handleQuery` of `dht/node.go` with what it calls.  A node keeps a table for each of the two
kinds of addresses.  Whoever decodes an answer to `find_node` or `get_peers` finds the nodes
of the table that are nearest to what was asked for (`closest_replied`): through the sort, the
compact records and the message around them nothing is lost.
-/

namespace Stor.Dht

open Lib Bencode

/-- What a node knows and answers from. -/
structure DHT where
  id : ID
  table : RoutingTable
  tableV6 : RoutingTable
  tokens : Tokens

namespace DHT

/-- `New`, with the ID and the secret that it draws. -/
def new (id : ID) (secret : Secret) : DHT where
  id := id
  table := .new id
  tableV6 := .new id
  tokens := .new secret

def updateNode (d : DHT) (n : Node) (now : Nat) : DHT :=
  if (IP.to4 n.addr.ip).isSome then { d with table := d.table.update n now }
  else if (IP.to16 n.addr.ip).isSome then { d with tableV6 := d.tableV6.update n now }
  else d

/-- The node after some calls of `updateNode`, each with its time. -/
def run (id : ID) (secret : Secret) (us : List (Node × Nat)) : DHT :=
  us.foldl (fun d u => d.updateNode u.1 u.2) (new id secret)

/-- Which address families are asked for. -/
def parseWant (a : Option Entries) : Bool × Bool :=
  match a.bind (Entries.list? (ascii "want")) with
  | none => (true, false)
  | some want =>
    let v4 := want.any fun v => v.str?.any fun s => decide (s = ascii "n4")
    let v6 := want.any fun v => v.str?.any fun s => decide (s = ascii "n6")
    if !v4 && !v6 then (true, false) else (v4, v6)

def closestAsCompact (rt : RoutingTable) (target : ID) : List CompactNodeInfo :=
  (rt.closest target bucketSize).map fun n => ⟨n.id, n.addr⟩

/-- A map of strings. -/
def strings (kvs : List (Bytes × Bytes)) : Entries :=
  Entries.ofList (kvs.map fun kv => (kv.1, .str kv.2))

/-- The fields of an answer that has the nodes nearest to `target`. -/
def closestFields (d : DHT) (want : Bool × Bool) (target : ID) : List (Bytes × Bytes) :=
  (if want.1 then [(ascii "nodes", marshalCompactNodeInfo (closestAsCompact d.table target))]
    else []) ++
  (if want.2 then [(ascii "nodes6", marshalCompactNodeInfo6 (closestAsCompact d.tableV6 target))]
    else [])

/-- The body that `respondFindNode` and `respondGetPeers` share: the target is an argument of
the query, and there may be further fields. -/
def respondClosest (d : DHT) (msg : KRPCMessage) (argument : Bytes) (fields : List (Bytes × Bytes)) :
    Option Bytes :=
  if (msg.argument argument).length ≠ 20 then none
  else
    let target := ID.ofBytes (msg.argument argument)
    some (encodeKRPC (newResponse msg.t (strings ([(ascii "id", d.id.bytes)] ++ fields ++
      d.closestFields (parseWant msg.a) target))))

def respondFindNode (d : DHT) (msg : KRPCMessage) : Option Bytes :=
  d.respondClosest msg (ascii "target") []

section
variable (sha1 : Bytes → Bytes)

def tokenOf (addr : UDPAddr) (secret : Secret) : Bytes := (sha1 (addr.ip ++ secret.toList)).take 8

def respondGetPeers (d : DHT) (msg : KRPCMessage) (addr : UDPAddr) : Option Bytes :=
  d.respondClosest msg (ascii "info_hash")
    [(ascii "token", tokenOf sha1 addr d.tokens.tokenSecret)]

/-- The answer to a `ping`, and to an announcement that is accepted. -/
def respondPing (d : DHT) (txnID : Bytes) : Bytes :=
  encodeKRPC (newResponse txnID (strings [(ascii "id", d.id.bytes)]))

def respondAnnouncePeer (d : DHT) (msg : KRPCMessage) (addr : UDPAddr) : Option Bytes :=
  if [d.tokens.tokenSecret, d.tokens.tokenSecretOld].any fun secret =>
      decide (tokenOf sha1 addr secret = msg.argument (ascii "token")) then
    some (d.respondPing msg.t)
  else none

/-- The node behind a query, and what it sends back. -/
def handleQuery (d : DHT) (msg : KRPCMessage) (addr : UDPAddr) (now : Nat) : DHT × Option Bytes :=
  let id := msg.argument (ascii "id")
  let d := if id.length = 20 then d.updateNode ⟨.ofBytes id, addr, 0⟩ now else d
  (d, if msg.q = ascii "ping" then some (d.respondPing msg.t)
      else if msg.q = ascii "find_node" then d.respondFindNode msg
      else if msg.q = ascii "get_peers" then d.respondGetPeers sha1 msg addr
      else if msg.q = ascii "announce_peer" then d.respondAnnouncePeer sha1 msg addr
      else none)

end

end DHT

/-! ## The message around an answer -/

namespace DHT

theorem str?_strings {kvs : List (Bytes × Bytes)} (hnodup : (kvs.map Prod.fst).Nodup) {k s : Bytes}
    (h : (k, s) ∈ kvs) : (strings kvs).str? k = some s := by
  have hnodup : ((kvs.map fun kv => (kv.1, Value.str kv.2)).map Prod.fst).Nodup := by
    rwa [List.map_map]
  rw [Entries.str?, strings, Entries.get?_ofList hnodup (List.mem_map.mpr ⟨(k, s), h, rfl⟩)]
  rfl

/-- A response whose fields are strings of a moderate size is read back as it was. -/
theorem decodeKRPC_response {t : Bytes} {kvs : List (Bytes × Bytes)}
    (ht : t.length ≤ maxStringLength) (hlen : kvs.length ≤ 1000)
    (hkvs : ∀ kv ∈ kvs, kv.1.length ≤ maxStringLength ∧ kv.2.length ≤ maxStringLength) :
    decodeKRPC (encodeKRPC (newResponse t (strings kvs))) = .ok (newResponse t (strings kvs)) := by
  obtain ⟨d, hd⟩ : ∃ d : Entries,
      d = [(ascii "r", .dict (strings kvs)), (ascii "t", .str t), (ascii "y", .str msgResponse)] :=
    ⟨_, rfl⟩
  have hencode : encodeKRPC (newResponse t (strings kvs)) = encodeValue (.dict d) := by
    rw [hd]
    rfl
  have hwf : WfValue (.dict d) := by
    have hkeys : [ascii "r", ascii "t", ascii "y"].Pairwise (· < ·) := by decide
    rw [hd]
    exact ⟨hkeys, wf_strings kvs, trivial, trivial, trivial⟩
  have hfits : Fits (.dict d) 0 := by
    have hthree : 3 ≤ maxCollectionSize := by decide
    rw [hd]
    exact ⟨by decide, hthree, by decide, fits_strings (hlen.trans (by decide)) hkvs (by decide),
      by decide, ⟨by decide, ht⟩, by decide, ⟨by decide, by decide⟩, trivial⟩
  have hitems : items (.dict d) ≤ maxTotalItems := by
    have hcount : items (.dict (strings kvs)) ≤ kvs.length := items_strings_le kvs
    rw [items] at hcount
    simp only [hd, items, itemsEntries, maxTotalItems]
    omega
  rw [hencode, decodeKRPC, decode_encodeValue hwf hfits hitems, hd]
  rfl

theorem length_t_le {data : Bytes} {msg : KRPCMessage} (h : decodeKRPC data = .ok msg) :
    msg.t.length ≤ maxStringLength := by
  rw [decodeKRPC] at h
  cases hdecode : decode data with
  | error e => rw [hdecode] at h; cases h
  | ok v =>
    rw [hdecode] at h
    dsimp only at h
    cases hd : v.dict? with
    | none => rw [hd] at h; cases h
    | some d =>
      rw [hd] at h
      obtain rfl := Except.ok.inj h
      obtain rfl := Value.dict?_eq_some.mp hd
      obtain ⟨-, hfits, -⟩ := decode_eq_ok hdecode
      dsimp only
      cases hs : d.str? (ascii "t") with
      | none => exact Nat.zero_le _
      | some s =>
        obtain ⟨v, hv, hs⟩ := Option.bind_eq_some_iff.mp hs
        obtain rfl := Value.str?_eq_some.mp hs
        exact (fitsEntries_iff.mp hfits.2.2 _ (Entries.get?_mem hv)).2.2

/-! ## The two tables -/

/-- Each table has the nodes of its own kind of addresses. -/
structure Families (d : DHT) : Prop where
  v4 : ∀ n ∈ d.table.allNodes, (IP.to4 n.addr.ip).isSome = true
  v6 : ∀ n ∈ d.tableV6.allNodes, IP.to4 n.addr.ip = none ∧ (IP.to16 n.addr.ip).isSome = true

theorem families_updateNode {d : DHT} (h : d.Families) (n : Node) (now : Nat) :
    (d.updateNode n now).Families := by
  unfold updateNode
  split_ifs with h4 h16
  · refine ⟨fun m hm => ?_, h.v6⟩
    rcases RoutingTable.mem_of_update hm with rfl | hm
    · exact h4
    · exact h.v4 m hm
  · refine ⟨h.v4, fun m hm => ?_⟩
    rcases RoutingTable.mem_of_update hm with rfl | hm
    · exact ⟨Option.not_isSome_iff_eq_none.mp h4, h16⟩
    · exact h.v6 m hm
  · exact h

theorem families_run (id : ID) (secret : Secret) (us : List (Node × Nat)) :
    (run id secret us).Families := by
  induction us using List.reverseRecOn with
  | nil => exact ⟨by simp [run, new, RoutingTable.allNodes, RoutingTable.new],
      by simp [run, new, RoutingTable.allNodes, RoutingTable.new]⟩
  | append_singleton us u ih =>
    rw [run, List.foldl_append]
    exact families_updateNode ih u.1 u.2

theorem length_closestAsCompact_le (rt : RoutingTable) (target : ID) :
    (closestAsCompact rt target).length ≤ bucketSize := by
  rw [closestAsCompact, List.length_map, (rt.closest_isNearest target bucketSize).1]
  exact Nat.min_le_left _ _

/-! ## Reading an answer -/

/-- What tells a node: its ID, its address in sixteen bytes and its port. -/
def contact (n : CompactNodeInfo) : ID × Option Bytes × UInt16 :=
  (n.id, IP.to16 n.addr.ip, n.addr.port)

/-- The infos are the nodes of the table that are nearest to the target. -/
def Nearest (rt : RoutingTable) (target : ID) (infos : List CompactNodeInfo) : Prop :=
  ∃ near, IsNearest (fun n : Node => ID.dist target n.id) bucketSize rt.allNodes near ∧
    infos.map contact = near.map fun n => contact ⟨n.id, n.addr⟩

/-- The answer has the nodes of each table that were asked for. -/
def Replies (d : DHT) (msg : KRPCMessage) (target : ID) (out : Bytes) : Prop :=
  ∃ r, decodeKRPC out = .ok (newResponse msg.t r) ∧
    ((parseWant msg.a).1 = true → ∃ s infos, r.str? (ascii "nodes") = some s ∧
      unmarshalCompactNodeInfo s = .ok infos ∧ Nearest d.table target infos) ∧
    ((parseWant msg.a).2 = true → ∃ s infos, r.str? (ascii "nodes6") = some s ∧
      unmarshalCompactNodeInfo6 s = .ok infos ∧ Nearest d.tableV6 target infos)

/-- Four bytes are the same address as the sixteen they were taken from. -/
theorem to16_to4 {ip ip4 : IP} (h : IP.to4 ip = some ip4) : IP.to16 ip4 = IP.to16 ip := by
  have hlen := IP.length_to4 h
  rw [IP.to16, if_pos hlen, IP.to16]
  rw [IP.to4] at h
  split_ifs at h with hfour hmapped
  · rw [if_pos hfour, Option.some.inj h]
  · rw [if_neg hfour, if_pos hmapped.1, ← Option.some.inj h, ← hmapped.2, List.take_append_drop]

theorem unmarshal_closest {rt : RoutingTable}
    (h : ∀ n ∈ rt.allNodes, (IP.to4 n.addr.ip).isSome = true) (target : ID) :
    ∃ infos, unmarshalCompactNodeInfo (marshalCompactNodeInfo (closestAsCompact rt target)) =
      .ok infos ∧ Nearest rt target infos := by
  have hip : ∀ n ∈ closestAsCompact rt target,
      IP.to4 n.addr.ip = some ((IP.to4 n.addr.ip).getD []) := by
    intro n hn
    obtain ⟨m, hm, rfl⟩ := List.mem_map.mp hn
    obtain ⟨ip4, hip4⟩ :=
      Option.isSome_iff_exists.mp (h m ((rt.closest_isNearest target bucketSize).subset m hm))
    rw [hip4]
    rfl
  refine ⟨_, unmarshal_marshal hip, rt.closest target bucketSize,
    rt.closest_isNearest target bucketSize, ?_⟩
  have hsame : ∀ n ∈ closestAsCompact rt target,
      contact (n.withIP ((IP.to4 n.addr.ip).getD [])) = contact n := by
    intro n hn
    rw [contact, contact, CompactNodeInfo.withIP, to16_to4 (hip n hn)]
  refine List.map_map.trans ((List.map_congr_left hsame).trans ?_)
  rw [closestAsCompact, List.map_map]
  rfl

theorem unmarshal_closest6 {rt : RoutingTable}
    (h : ∀ n ∈ rt.allNodes, IP.to4 n.addr.ip = none ∧ (IP.to16 n.addr.ip).isSome = true)
    (target : ID) :
    ∃ infos, unmarshalCompactNodeInfo6 (marshalCompactNodeInfo6 (closestAsCompact rt target)) =
      .ok infos ∧ Nearest rt target infos := by
  have hip : ∀ n ∈ closestAsCompact rt target,
      IP.to16 n.addr.ip = some n.addr.ip ∧ IP.to4 n.addr.ip = none := by
    intro n hn
    obtain ⟨m, hm, rfl⟩ := List.mem_map.mp hn
    obtain ⟨h4, h16⟩ := h m ((rt.closest_isNearest target bucketSize).subset m hm)
    refine ⟨?_, h4⟩
    dsimp only at h16 ⊢
    rw [IP.to16] at h16 ⊢
    rw [IP.to4] at h4
    split_ifs at h4 h16 ⊢ with hfour hmapped hsixteen
    · rfl
    · cases h16
  refine ⟨_, unmarshal_marshal6 hip, rt.closest target bucketSize,
    rt.closest_isNearest target bucketSize, ?_⟩
  rw [List.map_map, closestAsCompact, List.map_map]
  rfl

theorem closestFields_sublist (d : DHT) (want : Bool × Bool) (target : ID) :
    ((d.closestFields want target).map Prod.fst).Sublist [ascii "nodes", ascii "nodes6"] := by
  obtain ⟨v4, v6⟩ := want
  cases v4 <;> cases v6 <;> simp [closestFields]

theorem length_closestFields_le {d : DHT} {want : Bool × Bool} {target : ID} {kv : Bytes × Bytes}
    (h : kv ∈ d.closestFields want target) :
    kv.1.length ≤ maxStringLength ∧ kv.2.length ≤ maxStringLength := by
  have h4 := length_closestAsCompact_le d.table target
  have h6 := length_closestAsCompact_le d.tableV6 target
  have hnodes : (ascii "nodes").length ≤ maxStringLength := by decide
  have hnodes6 : (ascii "nodes6").length ≤ maxStringLength := by decide
  have hmax : bucketSize * 38 ≤ maxStringLength := by decide
  rw [closestFields, List.mem_append] at h
  rcases h with h | h <;> split_ifs at h
  · rw [List.mem_singleton.mp h]
    refine ⟨hnodes, ?_⟩
    rw [marshalCompactNodeInfo, length_flatMap_records fun n _ => length_compactNodeInfo n]
    omega
  · exact absurd h List.not_mem_nil
  · rw [List.mem_singleton.mp h]
    refine ⟨hnodes6, ?_⟩
    rw [marshalCompactNodeInfo6, length_flatMap_records fun n _ => length_compactNodeInfo6 n]
    omega
  · exact absurd h List.not_mem_nil

/-- An answer with any further fields under other keys. -/
theorem respondClosest_replies {d : DHT} (hd : d.Families) {msg : KRPCMessage}
    (ht : msg.t.length ≤ maxStringLength) {argument : Bytes} {fields : List (Bytes × Bytes)}
    (hargument : (msg.argument argument).length = 20)
    (hkeys : ([ascii "id"] ++ fields.map Prod.fst ++ [ascii "nodes", ascii "nodes6"]).Nodup)
    (hfields : fields.length ≤ 1)
    (hsize : ∀ kv ∈ fields, kv.1.length ≤ maxStringLength ∧ kv.2.length ≤ maxStringLength) :
    ∃ out, d.respondClosest msg argument fields = some out ∧
      d.Replies msg (.ofBytes (msg.argument argument)) out := by
  have hsub := closestFields_sublist d (parseWant msg.a) (.ofBytes (msg.argument argument))
  have hnodup : (([(ascii "id", d.id.bytes)] ++ fields ++
      d.closestFields (parseWant msg.a) (.ofBytes (msg.argument argument))).map Prod.fst).Nodup := by
    rw [List.map_append, List.map_append]
    exact hkeys.sublist ((List.Sublist.refl _).append hsub)
  have hlen := hsub.length_le
  rw [List.length_map] at hlen
  have hcount : ([(ascii "id", d.id.bytes)] ++ fields ++
      d.closestFields (parseWant msg.a) (.ofBytes (msg.argument argument))).length ≤ 1000 := by
    simp only [List.length_append, List.length_cons, List.length_nil] at hlen ⊢
    omega
  refine ⟨_, if_neg (not_not.mpr hargument), _, decodeKRPC_response ht hcount fun kv hkv => ?_,
    fun h4 => ?_, fun h6 => ?_⟩
  · rw [List.mem_append, List.mem_append, List.mem_singleton] at hkv
    rcases hkv with (rfl | hkv) | hkv
    · exact ⟨(by decide : (ascii "id").length ≤ maxStringLength),
        d.id.length_eq.le.trans (by decide)⟩
    · exact hsize kv hkv
    · exact length_closestFields_le hkv
  · obtain ⟨infos, hread, hnearest⟩ := unmarshal_closest hd.v4 (.ofBytes (msg.argument argument))
    refine ⟨_, infos, str?_strings hnodup ?_, hread, hnearest⟩
    rw [closestFields, if_pos h4]
    exact List.mem_append_right _ List.mem_cons_self
  · obtain ⟨infos, hread, hnearest⟩ := unmarshal_closest6 hd.v6 (.ofBytes (msg.argument argument))
    refine ⟨_, infos, str?_strings hnodup ?_, hread, hnearest⟩
    rw [closestFields, if_pos h6]
    exact List.mem_append_right _ (List.mem_append_right _ List.mem_cons_self)

/-- Whatever nodes it has been told of, a node answers every `find_node` and `get_peers` that
has a target, and who decodes the answer finds the nodes nearest to it of each table asked
for. -/
theorem closest_replied (sha1 : Bytes → Bytes) (id : ID) (secret : Secret) (us : List (Node × Nat))
    {data : Bytes} {msg : KRPCMessage} (hmsg : decodeKRPC data = .ok msg) (addr : UDPAddr) :
    ((msg.argument (ascii "target")).length = 20 →
      ∃ out, (run id secret us).respondFindNode msg = some out ∧
        (run id secret us).Replies msg (.ofBytes (msg.argument (ascii "target"))) out) ∧
    ((msg.argument (ascii "info_hash")).length = 20 →
      ∃ out, (run id secret us).respondGetPeers sha1 msg addr = some out ∧
        (run id secret us).Replies msg (.ofBytes (msg.argument (ascii "info_hash"))) out) := by
  have hfamilies := families_run id secret us
  have ht := length_t_le hmsg
  constructor
  · intro htarget
    exact respondClosest_replies hfamilies ht htarget (by decide) (Nat.zero_le _)
      fun kv hkv => absurd hkv List.not_mem_nil
  · intro hhash
    have hkeys : ([ascii "id"] ++ [ascii "token"] ++ [ascii "nodes", ascii "nodes6"]).Nodup := by
      decide
    refine respondClosest_replies hfamilies ht hhash hkeys (Nat.le_refl _) fun kv hkv => ?_
    rw [List.mem_singleton.mp hkv]
    have htoken : (tokenOf sha1 addr (run id secret us).tokens.tokenSecret).length ≤ 8 :=
      List.length_take_le _ _
    exact ⟨(by decide : (ascii "token").length ≤ maxStringLength), htoken.trans (by decide)⟩

/-- A `find_node` for twenty zeros, with both kinds of addresses wanted. -/
def exampleQuery : Bytes :=
  ascii "d1:ad6:target20:" ++ List.replicate 20 0 ++
    ascii "4:wantl2:n42:n6ee1:q9:find_node1:t2:aa1:y1:qe"

/-- The node knows one of each kind. -/
theorem closest_replied_both :
    ∃ msg, decodeKRPC exampleQuery = .ok msg ∧ (msg.argument (ascii "target")).length = 20 ∧
      parseWant msg.a = (true, true) ∧
      ∃ out, (run (.ofBytes [1]) zeroSecret
          [(⟨.ofBytes [2], ⟨[192, 0, 2, 1], 6881, []⟩, 0⟩, 10),
            (⟨.ofBytes [3], ⟨0x20 :: List.replicate 15 1, 6882, []⟩, 0⟩, 20)]).respondFindNode msg =
          some out ∧
        (run (.ofBytes [1]) zeroSecret
          [(⟨.ofBytes [2], ⟨[192, 0, 2, 1], 6881, []⟩, 0⟩, 10),
            (⟨.ofBytes [3], ⟨0x20 :: List.replicate 15 1, 6882, []⟩, 0⟩, 20)]).Replies msg
          (.ofBytes (msg.argument (ascii "target"))) out := by
  obtain ⟨msg, hmsg, htarget, hwant⟩ : ∃ msg, (decodeKRPC exampleQuery).toOption = some msg ∧
      (msg.argument (ascii "target")).length = 20 ∧ parseWant msg.a = (true, true) := by
    decide +kernel
  have hmsg : decodeKRPC exampleQuery = .ok msg := by
    cases hdecode : decodeKRPC exampleQuery with
    | error e => rw [hdecode] at hmsg; cases hmsg
    | ok msg' => rw [hdecode] at hmsg; rw [Option.some.inj hmsg]
  exact ⟨msg, hmsg, htarget, hwant,
    (closest_replied (fun b => b) _ _ _ hmsg ⟨[], 0, []⟩).1 htarget⟩

end DHT

end Stor.Dht
