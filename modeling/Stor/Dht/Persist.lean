import Stor.Dht.Table

/-!
# The nodes of the last run

`dht/persist.go`.  A node draws a new ID each time it starts, so the nodes of the file go to other
buckets than those they were saved from.  What the file system may refuse is left out.
-/

namespace Stor.Dht

open Lib

namespace CompactNodeInfo

/-- What a record of 26 bytes keeps of a node: an address of IPv6 comes back as zeros. -/
def kept (n : CompactNodeInfo) : CompactNodeInfo where
  id := n.id
  addr := match IP.to4 n.addr.ip with
    | none => ⟨[0, 0, 0, 0], 0, []⟩
    | some ip => ⟨ip, n.addr.port, []⟩

theorem kept_spec (n : CompactNodeInfo) : compactNodeInfo n.kept = compactNodeInfo n ∧
    IP.to4 n.kept.addr.ip = some n.kept.addr.ip ∧ n.kept.withIP n.kept.addr.ip = n.kept := by
  unfold kept compactNodeInfo
  cases hip : IP.to4 n.addr.ip with
  | none =>
    dsimp only
    exact ⟨congrArg (n.id.bytes ++ ·) (by decide), rfl, rfl⟩
  | some ip =>
    have hto4 : IP.to4 ip = some ip := if_pos (IP.length_to4 hip)
    dsimp only
    rw [hto4]
    exact ⟨rfl, rfl, rfl⟩

theorem unmarshal_kept (nodes : List CompactNodeInfo) :
    unmarshalCompactNodeInfo (marshalCompactNodeInfo nodes) = .ok (nodes.map kept) := by
  have hmarshal : marshalCompactNodeInfo (nodes.map kept) = marshalCompactNodeInfo nodes := by
    rw [marshalCompactNodeInfo, List.flatMap_map]
    exact List.flatMap_congr fun n _ => n.kept_spec.1
  rw [← hmarshal, @unmarshal_marshal (nodes.map kept) (fun n => n.addr.ip), List.map_map]
  · exact congrArg _ (List.map_congr_left fun n _ => n.kept_spec.2.2)
  · intro n hn
    obtain ⟨m, -, rfl⟩ := List.mem_map.mp hn
    exact m.kept_spec.2.1

end CompactNodeInfo

/-- What `SaveNodes` takes from a node. -/
def Node.compact (n : Node) : CompactNodeInfo := ⟨n.id, n.addr⟩

namespace RoutingTable

/-- `SaveNodes`, over what the file holds. -/
def saveNodes (rt : RoutingTable) (file : Option Bytes) : Option Bytes :=
  if rt.allNodes.isEmpty then file
  else some (marshalCompactNodeInfo (rt.allNodes.map Node.compact))

/-- `LoadNodes`; `now` has the times of the calls of `Update`. -/
def loadNodes (rt : RoutingTable) (now : CompactNodeInfo → Nat) :
    Option Bytes → Except CompactError (RoutingTable × Nat)
  | none => .ok (rt, 0)
  | some data =>
    if data.isEmpty then .ok (rt, 0)
    else (unmarshalCompactNodeInfo data).map fun nodes =>
      (nodes.foldl (fun rt ni => rt.update ⟨ni.id, ni.addr, 0⟩ (now ni)) rt, nodes.length)

theorem loadNodes_new (self : ID) (now : CompactNodeInfo → Nat) (data : Bytes) :
    (new self).loadNodes now (some data) = (unmarshalCompactNodeInfo data).map fun nodes =>
      (run self (nodes.map fun ni => (⟨ni.id, ni.addr, 0⟩, now ni)), nodes.length) := by
  rw [loadNodes]
  split_ifs with hempty
  · rw [List.isEmpty_iff.mp hempty]
    rfl
  · simp only [run, List.foldl_map]

variable {self : ID} {us : List (Node × Nat)}

/-- The calls that are for a bucket. -/
def forBucket (self : ID) (i : Fin numBuckets) (id : ID) : Bool :=
  id ≠ self ∧ (new self).bucketIndex id = i

/-- Of different nodes a bucket has the first ones. -/
theorem buckets_run (hnodup : (us.map fun u => u.1.id).Nodup) (i : Fin numBuckets) :
    (run self us).buckets i = ((us.filter fun u => forBucket self i u.1.id).take bucketSize).map
      fun u => { u.1 with lastSeen := u.2 } := by
  induction us using List.reverseRecOn generalizing i with
  | nil => rfl
  | append_singleton us u ih =>
    rw [List.map_append, List.nodup_append] at hnodup
    obtain ⟨hus, -, hnew⟩ := hnodup
    have hindex : (run self us).bucketIndex u.1.id = (new self).bucketIndex u.1.id := by
      rw [bucketIndex, bucketIndex, (valid_run self us).2]
      rfl
    have hunknown : refresh u.1 u.2 ((run self us).buckets ((new self).bucketIndex u.1.id)) = none := by
      refine refresh_eq_none.mpr fun m hm => ?_
      rw [ih hus] at hm
      obtain ⟨v, hv, rfl⟩ := List.mem_map.mp hm
      exact hnew _ (List.mem_map_of_mem (List.mem_filter.mp (List.mem_of_mem_take hv)).1) _
        (List.mem_singleton_self _)
    rw [run_concat, update, (valid_run self us).2, hindex, List.filter_append]
    dsimp only
    rw [hunknown]
    by_cases hfor : forBucket self i u.1.id = true
    · obtain ⟨hself, rfl⟩ := of_decide_eq_true hfor
      rw [if_neg hself, List.filter_cons, if_pos hfor, List.filter_nil]
      dsimp only
      rw [ih hus, List.length_map, List.length_take]
      split_ifs with hroom
      · rw [setBucket_self, List.take_of_length_le (by omega), List.take_of_length_le, List.map_append]
        · rfl
        · rw [List.length_append, List.length_singleton]
          omega
      · rw [ih hus, List.take_append_of_le_length (by omega)]
    · rw [List.filter_cons, if_neg hfor, List.filter_nil, List.append_nil, ← ih hus]
      split_ifs with hself hroom
      · rfl
      · have hne : i ≠ (new self).bucketIndex u.1.id :=
          fun hi => hfor (decide_eq_true ⟨hself, hi.symm⟩)
        exact setBucket_of_ne hne ..
      · rfl

/-- After a restart with the ID `self'` every bucket has, in the order of the file, the first
of the saved nodes that belong there. -/
theorem loadNodes_saveNodes (self self' : ID) (us : List (Node × Nat)) (file : Option Bytes)
    (now : CompactNodeInfo → Nat) (hsome : (run self us).allNodes.isEmpty = false) :
    ∃ rt, loadNodes (new self') now ((run self us).saveNodes file) = .ok (rt, (run self us).len) ∧
      rt.Valid ∧ ∀ i, rt.buckets i =
        (((run self us).allNodes.filter fun n => forBucket self' i n.id).take bucketSize).map
          fun n => ⟨n.id, n.compact.kept.addr, now n.compact.kept⟩ := by
  refine ⟨run self' (((run self us).allNodes.map fun n => n.compact.kept).map fun ni =>
    (⟨ni.id, ni.addr, 0⟩, now ni)), ?_, (valid_run _ _).1, fun i => ?_⟩
  · rw [saveNodes, hsome, if_neg Bool.false_ne_true, loadNodes_new, CompactNodeInfo.unmarshal_kept,
      List.map_map, Except.map, List.length_map]
    rfl
  · rw [List.map_map, buckets_run, List.filter_map, ← List.map_take, List.map_map]
    · rfl
    · rw [List.map_map]
      exact (valid_run self us).1.nodup_allNodes

theorem loadNodes_saveNodes_two : ∃ rt,
    loadNodes (new (.ofBytes [0x80])) (fun _ => 30)
      ((run (.ofBytes []) [(exampleNode 0x80 1, 10), (exampleNode 0xc0 2, 20)]).saveNodes none) =
        .ok (rt, 2) ∧ rt.buckets ⟨1, by decide⟩ = [{ exampleNode 0xc0 2 with lastSeen := 30 }] := by
  obtain ⟨rt, hload, -, hbuckets⟩ := loadNodes_saveNodes (.ofBytes []) (.ofBytes [0x80])
    [(exampleNode 0x80 1, 10), (exampleNode 0xc0 2, 20)] none (fun _ => 30) (by decide +kernel)
  exact ⟨rt, hload, (hbuckets _).trans (by decide +kernel)⟩

end RoutingTable

end Stor.Dht
