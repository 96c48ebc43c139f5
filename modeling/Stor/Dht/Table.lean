import Mathlib.Data.List.FinRange
import Stor.Dht.Id
import Stor.Lib.Nearest

/-!
# The routing table

`dht/table.go`.  A table has a bucket for every length that the common prefix of an ID with
its own can have.  `Update` moves a node that is known to the end of its bucket, by two
appends on the slice it is in, and takes in a new one where there is room; nothing is ever
evicted.  `Closest` sorts all nodes by their distance to the target.
-/

namespace Stor.Dht

open Lib

/-- `K`. -/
def bucketSize : Nat := 8

def numBuckets : Nat := 160

/-- Times are those of a clock. -/
structure Node where
  id : ID
  addr : UDPAddr
  lastSeen : Nat
  deriving DecidableEq

structure RoutingTable where
  self : ID
  buckets : Fin numBuckets → List Node

/-! ## Moving to the tail -/

section
variable {α : Type*}

/-- `append(arr[:len], xs...)`, where the array behind the slice has room for it: the
elements behind `len` are overwritten. -/
def appendAt (len : Nat) (xs arr : List α) : List α := arr.take len ++ xs ++ arr.drop (len + xs.length)

/-- `append(append(arr[:i], arr[i+1:]...), x)`. -/
def moveToTail (i : Nat) (x : α) (arr : List α) : List α :=
  appendAt (arr.length - 1) [x] (appendAt i (arr.drop (i + 1)) arr)

theorem moveToTail_append (before after : List α) (x y : α) :
    moveToTail before.length x (before ++ y :: after) = before ++ after ++ [x] := by
  have hdrop : (before ++ y :: after).drop (before.length + 1) = after := by
    rw [← List.drop_drop, List.drop_left, List.drop_one, List.tail_cons]
  have hlen : (before ++ y :: after).length - 1 = (before ++ after).length := by
    rw [List.length_append, List.length_append, List.length_cons]
    omega
  -- the first append leaves the last element in the array behind the slice
  obtain ⟨rest, hfirst, hrest⟩ : ∃ rest, appendAt before.length after (before ++ y :: after) =
      before ++ after ++ rest ∧ rest.length = 1 := by
    refine ⟨(y :: after).drop after.length, ?_, ?_⟩
    · rw [appendAt, List.take_left, ← List.drop_drop, List.drop_left]
    · rw [List.length_drop, List.length_cons, Nat.add_sub_cancel_left]
  rw [moveToTail, hdrop, hlen, hfirst, appendAt, List.take_left,
    List.drop_of_length_le (by simp [hrest]; omega), List.append_nil]

end

namespace RoutingTable

/-- `NewRoutingTable`. -/
def new (self : ID) : RoutingTable := ⟨self, fun _ => []⟩

def bucketIndex (rt : RoutingTable) (id : ID) : Fin numBuckets :=
  if h : (rt.self.distance id).zeroPrefixLen < numBuckets then ⟨_, h⟩
  else ⟨numBuckets - 1, by decide⟩

def setBucket (rt : RoutingTable) (idx : Fin numBuckets) (nodes : List Node) : RoutingTable :=
  { rt with buckets := Function.update rt.buckets idx nodes }

/-- The loop of `Update` over a bucket; nothing if the node is not in it. -/
def refresh (n : Node) (now : Nat) (nodes : List Node) : Option (List Node) :=
  (nodes.findIdx? fun existing => decide (existing.id = n.id)).bind fun i =>
    nodes[i]?.map fun existing =>
      moveToTail i { existing with addr := n.addr, lastSeen := now } nodes

def update (rt : RoutingTable) (n : Node) (now : Nat) : RoutingTable :=
  if n.id = rt.self then rt
  else
    let idx := rt.bucketIndex n.id
    match refresh n now (rt.buckets idx) with
    | some nodes => rt.setBucket idx nodes
    | none =>
      if (rt.buckets idx).length < bucketSize then
        rt.setBucket idx (rt.buckets idx ++ [{ n with lastSeen := now }])
      else rt

/-- `AllNodes`. -/
def allNodes (rt : RoutingTable) : List Node := (List.finRange numBuckets).flatMap rt.buckets

/-- `Len`. -/
def len (rt : RoutingTable) : Nat := rt.allNodes.length

/-- `sortByDistance`. -/
def sortByDistance (nodes : List Node) (target : ID) : List Node :=
  sortBy (fun a b => ID.less (a.id.distance target) (b.id.distance target)) nodes

def closest (rt : RoutingTable) (target : ID) (k : Nat) : List Node :=
  (sortByDistance rt.allNodes target).take k

/-- The table after some calls of `Update`, each with its time. -/
def run (self : ID) (us : List (Node × Nat)) : RoutingTable :=
  us.foldl (fun rt u => rt.update u.1 u.2) (new self)

variable {rt : RoutingTable} {n : Node} {now : Nat}

theorem refresh_eq_none {nodes : List Node} :
    refresh n now nodes = none ↔ ∀ m ∈ nodes, m.id ≠ n.id := by
  unfold refresh
  cases hidx : nodes.findIdx? fun existing => decide (existing.id = n.id) with
  | none =>
    rw [List.findIdx?_eq_none_iff] at hidx
    refine iff_of_true rfl fun m hm => ?_
    exact of_decide_eq_false (hidx m hm)
  | some i =>
    obtain ⟨hi, hid, -⟩ := List.findIdx?_eq_some_iff_getElem.mp hidx
    rw [Option.bind_some, List.getElem?_eq_getElem hi, Option.map_some]
    refine iff_of_false (Option.some_ne_none _) fun hnone => ?_
    exact hnone _ (List.getElem_mem hi) (of_decide_eq_true hid)

/-- The node goes to the end, and the others keep their order. -/
theorem refresh_eq_some {nodes nodes' : List Node} (h : refresh n now nodes = some nodes') :
    ∃ before m after, nodes = before ++ m :: after ∧ m.id = n.id ∧
      nodes' = before ++ after ++ [{ n with lastSeen := now }] := by
  obtain ⟨i, hidx, h⟩ := Option.bind_eq_some_iff.mp h
  obtain ⟨m, hm, rfl⟩ := Option.map_eq_some_iff.mp h
  obtain ⟨hi, hid, -⟩ := List.findIdx?_eq_some_iff_getElem.mp hidx
  rw [List.getElem?_eq_getElem hi, Option.some_inj] at hm
  have hid : m.id = n.id := by
    rw [← hm]
    exact of_decide_eq_true hid
  have hsplit : nodes = nodes.take i ++ m :: nodes.drop (i + 1) := by
    rw [← hm, ← List.drop_eq_getElem_cons hi, List.take_append_drop]
  refine ⟨nodes.take i, m, nodes.drop (i + 1), hsplit, hid, ?_⟩
  have hlen : (nodes.take i).length = i := List.length_take_of_le hi.le
  have hmoved := moveToTail_append (nodes.take i) (nodes.drop (i + 1))
    { m with addr := n.addr, lastSeen := now } m
  rw [← hsplit, hlen] at hmoved
  rw [hmoved, hid]

theorem closest_isNearest (rt : RoutingTable) (target : ID) (k : Nat) :
    IsNearest (fun n : Node => ID.dist target n.id) k rt.allNodes (rt.closest target k) := by
  have hless : ∀ a b : Node, ID.less (a.id.distance target) (b.id.distance target) = true ↔
      ID.dist target a.id < ID.dist target b.id := fun _ _ => ID.less_distance_iff
  exact isNearest_sortBy hless k rt.allNodes

/-! ## What a call does -/

/-- A call leaves the table alone, refreshes a node or takes in a new one. -/
theorem update_cases (rt : RoutingTable) (n : Node) (now : Nat) :
    (rt.update n now = rt ∧
      (n.id = rt.self ∨ ∀ m ∈ rt.buckets (rt.bucketIndex n.id), m.id ≠ n.id)) ∨
    (n.id ≠ rt.self ∧ ∃ before m after,
      rt.buckets (rt.bucketIndex n.id) = before ++ m :: after ∧ m.id = n.id ∧
      rt.update n now =
        rt.setBucket (rt.bucketIndex n.id) (before ++ after ++ [{ n with lastSeen := now }])) ∨
    (n.id ≠ rt.self ∧ (∀ m ∈ rt.buckets (rt.bucketIndex n.id), m.id ≠ n.id) ∧
      (rt.buckets (rt.bucketIndex n.id)).length < bucketSize ∧
      rt.update n now = rt.setBucket (rt.bucketIndex n.id)
        (rt.buckets (rt.bucketIndex n.id) ++ [{ n with lastSeen := now }])) := by
  by_cases hself : n.id = rt.self
  · exact .inl ⟨if_pos hself, .inl hself⟩
  · have hupdate : rt.update n now = _ := if_neg hself
    dsimp only at hupdate
    cases hrefresh : refresh n now (rt.buckets (rt.bucketIndex n.id)) with
    | some nodes =>
      obtain ⟨before, m, after, hsplit, hid, rfl⟩ := refresh_eq_some hrefresh
      rw [hrefresh] at hupdate
      exact .inr (.inl ⟨hself, before, m, after, hsplit, hid, hupdate⟩)
    | none =>
      have hunknown := refresh_eq_none.mp hrefresh
      rw [hrefresh] at hupdate
      dsimp only at hupdate
      split_ifs at hupdate with hroom
      · exact .inr (.inr ⟨hself, hunknown, hroom, hupdate⟩)
      · exact .inl ⟨hupdate, .inr hunknown⟩

theorem mem_allNodes {m : Node} : m ∈ rt.allNodes ↔ ∃ i, m ∈ rt.buckets i := by
  rw [allNodes, List.mem_flatMap]
  exact ⟨fun ⟨i, _, hm⟩ => ⟨i, hm⟩, fun ⟨i, hm⟩ => ⟨i, List.mem_finRange i, hm⟩⟩

@[simp]
theorem setBucket_self (rt : RoutingTable) (idx : Fin numBuckets) (nodes : List Node) :
    (rt.setBucket idx nodes).buckets idx = nodes :=
  Function.update_self ..

@[simp]
theorem setBucket_of_ne {i idx : Fin numBuckets} (h : i ≠ idx) (rt : RoutingTable)
    (nodes : List Node) : (rt.setBucket idx nodes).buckets i = rt.buckets i :=
  Function.update_of_ne h ..

theorem update_self (rt : RoutingTable) (n : Node) (now : Nat) : (rt.update n now).self = rt.self := by
  rcases update_cases rt n now with ⟨h, -⟩ | ⟨-, _, _, _, -, -, h⟩ | ⟨-, -, -, h⟩ <;> rw [h]
  · rfl
  · rfl

/-! ## The invariant -/

/-- Where a node belongs. -/
def prefixLen (rt : RoutingTable) (id : ID) : Nat := commonLen (bits rt.self.bytes) (bits id.bytes)

/-- The representation invariant of a table. -/
structure Valid (rt : RoutingTable) : Prop where
  size_le : ∀ i, (rt.buckets i).length ≤ bucketSize
  placed : ∀ i, ∀ m ∈ rt.buckets i, rt.prefixLen m.id = i
  nodup : ∀ i, ((rt.buckets i).map Node.id).Nodup

theorem bucketIndex_eq (rt : RoutingTable) {id : ID} (h : id ≠ rt.self) :
    (rt.bucketIndex id : Nat) = rt.prefixLen id := by
  have hlt := ID.commonLen_lt h.symm
  have hlen := ID.zeroPrefixLen_distance rt.self id
  rw [bucketIndex, dif_pos (by rw [hlen]; exact hlt)]
  exact hlen

theorem valid_new (self : ID) : (new self).Valid where
  size_le _ := Nat.zero_le _
  placed _ _ hm := absurd hm List.not_mem_nil
  nodup _ := .nil

theorem Valid.ne_self (h : rt.Valid) {i : Fin numBuckets} {m : Node} (hm : m ∈ rt.buckets i) :
    m.id ≠ rt.self := by
  intro hself
  have hplaced := h.placed i m hm
  rw [hself, prefixLen, commonLen_self, length_bits, rt.self.length_eq] at hplaced
  exact absurd i.isLt (by rw [← hplaced]; decide)

/-- A bucket may be replaced by one that is fit to stand there. -/
theorem Valid.setBucket (h : rt.Valid) {idx : Fin numBuckets} {nodes : List Node}
    (hsize : nodes.length ≤ bucketSize) (hplaced : ∀ m ∈ nodes, rt.prefixLen m.id = idx)
    (hnodup : (nodes.map Node.id).Nodup) : (rt.setBucket idx nodes).Valid := by
  refine ⟨fun i => ?_, fun i => ?_, fun i => ?_⟩ <;> by_cases hi : i = idx
  · rw [hi, setBucket_self]
    exact hsize
  · rw [setBucket_of_ne hi]
    exact h.size_le i
  · rw [hi, setBucket_self]
    exact hplaced
  · rw [setBucket_of_ne hi]
    exact h.placed i
  · rw [hi, setBucket_self]
    exact hnodup
  · rw [setBucket_of_ne hi]
    exact h.nodup i

theorem map_id_moved {before after : List Node} {m m' : Node} (hid : m'.id = m.id) :
    ((before ++ after ++ [m']).map Node.id).Perm ((before ++ m :: after).map Node.id) := by
  rw [List.map_append, List.map_append, List.map_append, List.map_singleton, List.map_cons, hid,
    List.append_assoc]
  have hlast : (after.map Node.id ++ [m.id]).Perm ([m.id] ++ after.map Node.id) :=
    List.perm_append_comm
  exact hlast.append_left _

theorem Valid.update (h : rt.Valid) (n : Node) (now : Nat) : (rt.update n now).Valid := by
  rcases update_cases rt n now with
    ⟨heq, -⟩ | ⟨hself, before, m, after, hsplit, hid, heq⟩ | ⟨hself, hunknown, hroom, heq⟩
  · rwa [heq]
  · have hsize := h.size_le (rt.bucketIndex n.id)
    have hplaced := h.placed (rt.bucketIndex n.id)
    have hnodup := h.nodup (rt.bucketIndex n.id)
    rw [hsplit] at hsize hplaced hnodup
    rw [heq]
    refine h.setBucket ?_ (fun m' hm' => ?_) ?_
    · simp only [List.length_append, List.length_cons, List.length_nil] at hsize ⊢
      omega
    · rw [List.mem_append, List.mem_singleton] at hm'
      rcases hm' with hm' | rfl
      · exact hplaced m' (by simp only [List.mem_append, List.mem_cons] at hm' ⊢; tauto)
      · exact (bucketIndex_eq rt hself).symm
    · have hperm : ((before ++ after ++ [{ n with lastSeen := now }]).map Node.id).Perm
          ((before ++ m :: after).map Node.id) := map_id_moved hid.symm
      exact hperm.nodup_iff.mpr hnodup
  · rw [heq]
    refine h.setBucket ?_ (fun m' hm' => ?_) ?_
    · rw [List.length_append, List.length_singleton]
      exact hroom
    · rcases List.mem_append.mp hm' with hm' | hm'
      · exact h.placed _ m' hm'
      · rw [List.mem_singleton.mp hm']
        exact (bucketIndex_eq rt hself).symm
    · rw [List.map_append, List.map_singleton]
      refine List.nodup_append.mpr ⟨h.nodup _, List.nodup_singleton _, fun a ha b hb => ?_⟩
      obtain ⟨m, hm, rfl⟩ := List.mem_map.mp ha
      rw [List.mem_singleton.mp hb]
      exact hunknown m hm

theorem run_concat (self : ID) (us : List (Node × Nat)) (n : Node) (now : Nat) :
    run self (us ++ [(n, now)]) = (run self us).update n now := by
  rw [run, List.foldl_append]
  rfl

theorem valid_run (self : ID) (us : List (Node × Nat)) :
    (run self us).Valid ∧ (run self us).self = self := by
  induction us using List.reverseRecOn with
  | nil => exact ⟨valid_new self, rfl⟩
  | append_singleton us u ih =>
    rw [run_concat]
    exact ⟨ih.1.update u.1 u.2, (update_self _ _ _).trans ih.2⟩

/-- The buckets have different IDs, since an ID tells its bucket. -/
theorem Valid.nodup_allNodes (h : rt.Valid) : (rt.allNodes.map Node.id).Nodup := by
  rw [allNodes, List.map_flatMap, List.nodup_flatMap]
  refine ⟨fun i _ => h.nodup i, (List.nodup_finRange numBuckets).imp fun {i j} hij => ?_⟩
  intro id hi hj
  obtain ⟨m, hm, rfl⟩ := List.mem_map.mp hi
  obtain ⟨m', hm', hid⟩ := List.mem_map.mp hj
  refine hij (Fin.ext ?_)
  rw [← h.placed i m hm, ← h.placed j m' hm', hid]

/-! ## All calls -/

/-- A node that is known is in the bucket where `Update` looks for it. -/
theorem Valid.mem_bucketIndex (h : rt.Valid) {id : ID} (hid : id ∈ rt.allNodes.map Node.id) :
    id ≠ rt.self ∧ ∃ m ∈ rt.buckets (rt.bucketIndex id), m.id = id := by
  obtain ⟨m, hm, rfl⟩ := List.mem_map.mp hid
  obtain ⟨i, hm⟩ := mem_allNodes.mp hm
  have hself := h.ne_self hm
  refine ⟨hself, m, ?_, rfl⟩
  have hi : rt.bucketIndex m.id = i := Fin.ext ((bucketIndex_eq rt hself).trans (h.placed i m hm))
  rwa [hi]

/-- What is in the table stays, but for the node that the call is about. -/
theorem mem_allNodes_update {m : Node} (hm : m ∈ rt.allNodes) (n : Node) (now : Nat) :
    m ∈ (rt.update n now).allNodes ∨ m.id = n.id ∧ { n with lastSeen := now } ∈
      (rt.update n now).allNodes := by
  obtain ⟨i, hm⟩ := mem_allNodes.mp hm
  rcases update_cases rt n now with
    ⟨heq, -⟩ | ⟨-, before, m', after, hsplit, hid, heq⟩ | ⟨-, -, -, heq⟩
  · rw [heq]
    exact .inl (mem_allNodes.mpr ⟨i, hm⟩)
  · rw [heq, mem_allNodes, mem_allNodes]
    by_cases hi : i = rt.bucketIndex n.id
    · rw [hi, hsplit, List.mem_append, List.mem_cons] at hm
      rcases hm with hm | rfl | hm
      · exact .inl ⟨rt.bucketIndex n.id, by rw [setBucket_self]; simp [hm]⟩
      · exact .inr ⟨hid, rt.bucketIndex n.id, by rw [setBucket_self]; simp⟩
      · exact .inl ⟨rt.bucketIndex n.id, by rw [setBucket_self]; simp [hm]⟩
    · exact .inl ⟨i, by rwa [setBucket_of_ne hi]⟩
  · rw [heq, mem_allNodes]
    left
    by_cases hi : i = rt.bucketIndex n.id
    · exact ⟨rt.bucketIndex n.id, by rw [setBucket_self, ← hi]; exact List.mem_append_left _ hm⟩
    · exact ⟨i, by rwa [setBucket_of_ne hi]⟩

/-- No ID leaves the table. -/
theorem id_mem_update {m : Node} (hm : m ∈ rt.allNodes) (n : Node) (now : Nat) :
    m.id ∈ (rt.update n now).allNodes.map Node.id := by
  rcases mem_allNodes_update hm n now with hmem | ⟨hid, hmem⟩
  · exact List.mem_map_of_mem hmem
  · exact List.mem_map.mpr ⟨_, hmem, hid.symm⟩

/-- A node of the table behind a call was there before, or it is the one of the call. -/
theorem mem_of_update {x : Node} (h : x ∈ (rt.update n now).allNodes) :
    x = { n with lastSeen := now } ∨ x ∈ rt.allNodes := by
  obtain ⟨i, hx⟩ := mem_allNodes.mp h
  have hold : x ∈ rt.buckets i → x ∈ rt.allNodes := fun hx => mem_allNodes.mpr ⟨i, hx⟩
  rcases update_cases rt n now with
    ⟨heq, -⟩ | ⟨-, before, m, after, hsplit, -, heq⟩ | ⟨-, -, -, heq⟩ <;> rw [heq] at hx
  · exact .inr (hold hx)
  · by_cases hi : i = rt.bucketIndex n.id
    · subst hi
      rw [setBucket_self, List.mem_append, List.mem_singleton] at hx
      rcases hx with hx | rfl
      · refine .inr (hold ?_)
        rw [hsplit]
        simp only [List.mem_append, List.mem_cons] at hx ⊢
        tauto
      · exact .inl rfl
    · rw [setBucket_of_ne hi] at hx
      exact .inr (hold hx)
  · by_cases hi : i = rt.bucketIndex n.id
    · subst hi
      rw [setBucket_self, List.mem_append, List.mem_singleton] at hx
      exact hx.symm.imp_right hold
    · rw [setBucket_of_ne hi] at hx
      exact .inr (hold hx)

/-- A call for a node that is known. -/
theorem Valid.update_known (h : rt.Valid) (hknown : n.id ∈ rt.allNodes.map Node.id) :
    ∃ i before m after, rt.buckets i = before ++ m :: after ∧ m.id = n.id ∧
      (rt.update n now).buckets i = before ++ after ++ [⟨n.id, n.addr, now⟩] ∧
      ∀ j, j ≠ i → (rt.update n now).buckets j = rt.buckets j := by
  obtain ⟨hne, m', hm', hid'⟩ := h.mem_bucketIndex hknown
  rcases update_cases rt n now with
    ⟨-, hsame | hunknown⟩ | ⟨-, before, m, after, hsplit, hid, heq⟩ | ⟨-, hunknown, -, -⟩
  · exact absurd hsame hne
  · exact absurd hid' (hunknown m' hm')
  · refine ⟨rt.bucketIndex n.id, before, m, after, hsplit, hid, ?_, fun j hj => ?_⟩
    · rw [heq, setBucket_self]
    · rw [heq, setBucket_of_ne hj]
  · exact absurd hid' (hunknown m' hm')

/-- After any calls of `Update`: no bucket has more than `bucketSize` nodes, every node is in
the bucket of its common prefix with the table's own ID, no ID is there twice, and not that
ID itself.  A further call for an ID that is known puts the node to the end of its bucket, with
its new address, and changes nothing else; and no call removes a node. -/
theorem routing_table (self : ID) (us : List (Node × Nat)) (n : Node) (now : Nat) :
    (∀ i, ((run self us).buckets i).length ≤ bucketSize) ∧
    (∀ i, ∀ m ∈ (run self us).buckets i,
      commonLen (bits self.bytes) (bits m.id.bytes) = i) ∧
    ((run self us).allNodes.map Node.id).Nodup ∧
    (∀ m ∈ (run self us).allNodes, m.id ≠ self) ∧
    (n.id ∈ (run self us).allNodes.map Node.id →
      (∀ id, id ∈ ((run self us).update n now).allNodes.map Node.id ↔
        id ∈ (run self us).allNodes.map Node.id) ∧
      ∃ i before m after, (run self us).buckets i = before ++ m :: after ∧ m.id = n.id ∧
        ((run self us).update n now).buckets i = before ++ after ++ [⟨n.id, n.addr, now⟩] ∧
        ∀ j, j ≠ i → ((run self us).update n now).buckets j = (run self us).buckets j) ∧
    ∀ m ∈ (run self us).allNodes, m.id ∈ ((run self us).update n now).allNodes.map Node.id ∧
      (m.id ≠ n.id → m ∈ ((run self us).update n now).allNodes) := by
  obtain ⟨hvalid, hself⟩ := valid_run self us
  refine ⟨hvalid.size_le, fun i m hm => ?_, hvalid.nodup_allNodes, fun m hm => ?_,
    fun hknown => ⟨fun id => ⟨fun hid => ?_, fun hid => ?_⟩, hvalid.update_known hknown⟩,
    fun m hm => ⟨id_mem_update hm n now, fun hne => ?_⟩⟩
  · have hplaced := hvalid.placed i m hm
    rwa [prefixLen, hself] at hplaced
  · obtain ⟨i, hm⟩ := mem_allNodes.mp hm
    have hne := hvalid.ne_self hm
    rwa [hself] at hne
  · obtain ⟨x, hx, rfl⟩ := List.mem_map.mp hid
    rcases mem_of_update hx with rfl | hx
    · exact hknown
    · exact List.mem_map_of_mem hx
  · obtain ⟨m, hm, rfl⟩ := List.mem_map.mp hid
    exact id_mem_update hm n now
  · exact (mem_allNodes_update hm n now).resolve_right fun hsame => hne hsame.1

def exampleNode (first port : UInt8) : Node :=
  ⟨.ofBytes [first], ⟨[192, 0, 2, 1], port.toUInt16, []⟩, 0⟩

/-- Two nodes of the first bucket, of which the older one is seen again with another port. -/
theorem routing_table_refreshed :
    (exampleNode 0x80 3).id ∈
        (run (.ofBytes []) [(exampleNode 0x80 1, 10), (exampleNode 0xc0 2, 20)]).allNodes.map Node.id ∧
      ∃ i before m after,
        (run (.ofBytes []) [(exampleNode 0x80 1, 10), (exampleNode 0xc0 2, 20)]).buckets i =
          before ++ m :: after ∧ m.id = (exampleNode 0x80 3).id ∧
        ((run (.ofBytes []) [(exampleNode 0x80 1, 10), (exampleNode 0xc0 2, 20)]).update
          (exampleNode 0x80 3) 30).buckets i =
          before ++ after ++ [{ exampleNode 0x80 3 with lastSeen := 30 }] := by
  have hknown : (exampleNode 0x80 3).id ∈ (run (.ofBytes [])
      [(exampleNode 0x80 1, 10), (exampleNode 0xc0 2, 20)]).allNodes.map Node.id := by decide +kernel
  obtain ⟨-, -, -, -, hrefreshed, -⟩ := routing_table (.ofBytes [])
    [(exampleNode 0x80 1, 10), (exampleNode 0xc0 2, 20)] (exampleNode 0x80 3) 30
  obtain ⟨-, i, before, m, after, hsplit, hid, htail, -⟩ := hrefreshed hknown
  exact ⟨hknown, i, before, m, after, hsplit, hid, htail⟩

end RoutingTable

end Stor.Dht
