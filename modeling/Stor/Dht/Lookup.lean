import Stor.Dht.GetPeers
import Stor.Dht.Reply
import Stor.Lib.Run

/-!
# Iterative lookup

`iterativeLookup` of `dht/node.go`.  A round queries the nearest nodes that were not queried
before, each from a goroutine of its own.  What comes back is merged into the shared set of
nodes and the list of peers in up to three sections for each response, each of them under the
lock, so that the sections of a round come in any order.  Whatever the responses say, the
lookup is bounded and each round asks the nodes nearest to the target (`lookup_bounded`).

A node that is in the set is also in a routing table by the same pointer; here the two are
apart, so that a later change of its address is not seen in the other.
-/

namespace Stor.Dht

open Lib Bencode

def maxLookupNodes : Nat := 1000

def maxRounds : Nat := 10

/-- `nodeEntry`. -/
structure NodeEntry where
  node : Node
  queried : Bool

/-- What a response has for one section under the lock. -/
inductive Section where
  | peers (p : List Bytes)
  | nodes (infos : List CompactNodeInfo)

/-- A goroutine of a round: it waits for its response, or has these sections still to do. -/
inductive Task where
  | waiting (n : Node)
  | collecting (sections : List Section)

/-- The arguments of a lookup, and the concurrency of its node. -/
structure Search where
  target : ID
  getPeers : Bool
  alpha : Nat

structure Lookup where
  d : DHT
  /-- The map by IDs. -/
  seen : List NodeEntry
  allPeers : List Bytes
  round : Nat
  /-- The nodes that were queried, round by round. -/
  asked : List (List Node)
  /-- The goroutines of the round, if one is going on. -/
  tasks : Option (List Task)
  /-- What was returned. -/
  result : Option (List Bytes)

namespace Lookup

/-! ## The set of nodes -/

/-- `seen[id]` exists. -/
def has (seen : List NodeEntry) (id : ID) : Bool := seen.any fun e => decide (e.node.id = id)

/-- `seen[n.ID] = &nodeEntry{node: n}`. -/
def put (seen : List NodeEntry) (n : Node) : List NodeEntry :=
  if has seen n.id then seen.map fun e => if e.node.id = n.id then ⟨n, false⟩ else e
  else seen ++ [⟨n, false⟩]

def putNew (seen : List NodeEntry) (n : Node) : List NodeEntry :=
  if has seen n.id then seen else put seen n

/-- The loop over the nodes of a response. -/
def addNodes (now : Nat) : Lookup → List CompactNodeInfo → Lookup
  | s, [] => s
  | s, ni :: newNodes =>
    if s.seen.length ≥ maxLookupNodes then s
    else if has s.seen ni.id then addNodes now s newNodes
    else
      let node : Node := ⟨ni.id, ni.addr, 0⟩
      addNodes now { s with seen := s.seen ++ [⟨node, false⟩], d := s.d.updateNode node now } newNodes

def addPeers (s : Lookup) (p : List Bytes) : Lookup :=
  { s with allPeers := s.allPeers ++ p.take (maxLookupPeers - s.allPeers.length) }

def merge (now : Nat) (s : Lookup) : Section → Lookup
  | .peers p => s.addPeers p
  | .nodes infos => addNodes now s infos

/-! ## Rounds -/

variable (q : Search)

/-- The lookup before its first round, unless both tables are empty. -/
def start (d : DHT) : Option Lookup :=
  let closestV4 := d.table.closest q.target bucketSize
  let closestV6 := d.tableV6.closest q.target bucketSize
  if closestV4 = [] ∧ closestV6 = [] then none
  else some { d := d
              seen := closestV6.foldl putNew (closestV4.foldl put [])
              allPeers := []
              round := 0
              asked := []
              tasks := none
              result := none }

/-- `sortEntries`. -/
def sortEntries (entries : List NodeEntry) : List NodeEntry :=
  sortBy (fun a b => ID.less (a.node.id.distance q.target) (b.node.id.distance q.target)) entries

/-- The entries that a round takes. -/
def pick (s : Lookup) : List NodeEntry :=
  ((sortEntries q s.seen).filter fun e => !e.queried).take q.alpha

/-- The entries with those of the IDs marked. -/
def mark (ids : List ID) (seen : List NodeEntry) : List NodeEntry :=
  seen.map fun e => if ids.contains e.node.id then { e with queried := true } else e

/-- The head of the loop, up to the goroutines. -/
def beginRound (s : Lookup) : Lookup :=
  if s.round ≥ maxRounds then { s with result := some s.allPeers }
  else
    let toQuery := (s.pick q).map NodeEntry.node
    if toQuery = [] then { s with result := some s.allPeers }
    else { s with
      seen := mark (toQuery.map Node.id) s.seen
      round := s.round + 1
      asked := s.asked ++ [toQuery]
      tasks := some (toQuery.map .waiting) }

/-- The nodes of a field, unless it is missing or malformed. -/
def nodesSection (unmarshal : Bytes → Except CompactError (List CompactNodeInfo))
    (field : Option Bytes) : List Section :=
  match field.map unmarshal with
  | some (.ok infos) => [.nodes infos]
  | _ => []

/-- What a goroutine does with the values of a response. -/
def sections (r : Entries) : List Section :=
  (if q.getPeers then
    ((r.list? (ascii "values")).map fun values => Section.peers (parseCompactPeers values)).toList
    else []) ++
  nodesSection unmarshalCompactNodeInfo (r.str? (ascii "nodes")) ++
  nodesSection unmarshalCompactNodeInfo6 (r.str? (ascii "nodes6"))

/-- The query of `n` returns, without a message when it failed. -/
def answered (s : Lookup) (n : Node) (resp : Option KRPCMessage) (now : Nat) : DHT × List Section :=
  match resp.bind KRPCMessage.r with
  | none => (s.d, [])
  | some r =>
    (match r.str? (ascii "id") with
      | some id => if id.length = 20 then s.d.updateNode ⟨.ofBytes id, n.addr, 0⟩ now else s.d
      | none => s.d, sections q r)

def Task.isDone : Task → Bool
  | .collecting [] => true
  | _ => false

inductive Action where
  /-- The loop goes on with a round. -/
  | begin
  /-- The node is closed, or the deadline is over. -/
  | stop
  | answer (i : Nat) (resp : Option KRPCMessage) (now : Nat)
  | collect (i : Nat) (now : Nat)
  /-- All goroutines of the round are done. -/
  | join

def step (s : Lookup) (a : Action) : Option Lookup :=
  if s.result.isSome then none
  else
    match a, s.tasks with
    | .begin, none => some (s.beginRound q)
    | .stop, none => some { s with result := some s.allPeers }
    | .answer i resp now, some tasks =>
      match tasks[i]? with
      | some (.waiting n) =>
        let (d, todo) := s.answered q n resp now
        some { s with d := d, tasks := some (tasks.set i (.collecting todo)) }
      | _ => none
    | .collect i now, some tasks =>
      match tasks[i]? with
      | some (.collecting (todo :: rest)) =>
        some { s.merge now todo with tasks := some (tasks.set i (.collecting rest)) }
      | _ => none
    | .join, some tasks =>
      if tasks.all Task.isDone then
        some { s with
          tasks := none
          result := if q.getPeers ∧ 0 < s.allPeers.length then some s.allPeers else none }
      else none
    | _, _ => none

/-! ## What a step can do -/

variable {q} {s s' : Lookup} {a : Action}

theorem step_cases (h : s.step q a = some s') : s.result = none ∧
    ((a = .begin ∧ s.tasks = none ∧ s' = s.beginRound q) ∨
      (a = .stop ∧ s.tasks = none ∧ s' = { s with result := some s.allPeers }) ∨
      (∃ i resp now tasks n, a = .answer i resp now ∧ s.tasks = some tasks ∧
        tasks[i]? = some (.waiting n) ∧
        s' = { s with
          d := (s.answered q n resp now).1
          tasks := some (tasks.set i (.collecting (s.answered q n resp now).2)) }) ∨
      (∃ i now tasks todo rest, a = .collect i now ∧ s.tasks = some tasks ∧
        tasks[i]? = some (.collecting (todo :: rest)) ∧
        s' = { s.merge now todo with tasks := some (tasks.set i (.collecting rest)) }) ∨
      ∃ tasks, a = .join ∧ s.tasks = some tasks ∧ tasks.all Task.isDone = true ∧
        s' = { s with
          tasks := none
          result := if q.getPeers ∧ 0 < s.allPeers.length then some s.allPeers else none }) := by
  unfold step at h
  by_cases hresult : s.result.isSome = true
  · rw [if_pos hresult] at h
    cases h
  rw [if_neg hresult] at h
  refine ⟨Option.not_isSome_iff_eq_none.mp hresult, ?_⟩
  cases htasks : s.tasks with
  | none =>
    rw [htasks] at h
    cases a with
    | begin => exact .inl ⟨rfl, rfl, (Option.some.inj h).symm⟩
    | stop => exact .inr (.inl ⟨rfl, rfl, (Option.some.inj h).symm⟩)
    | answer i resp now => cases h
    | collect i now => cases h
    | join => cases h
  | some tasks =>
    rw [htasks] at h
    cases a with
    | begin => cases h
    | stop => cases h
    | answer i resp now =>
      dsimp only at h
      split at h
      · next n hn =>
        exact .inr (.inr (.inl ⟨i, resp, now, tasks, n, rfl, rfl, hn, (Option.some.inj h).symm⟩))
      · cases h
    | collect i now =>
      dsimp only at h
      split at h
      · next todo rest hn =>
        exact .inr (.inr (.inr (.inl
          ⟨i, now, tasks, todo, rest, rfl, rfl, hn, (Option.some.inj h).symm⟩)))
      · cases h
    | join =>
      dsimp only at h
      obtain ⟨hdone, h⟩ := Option.ite_none_right_eq_some.mp h
      exact .inr (.inr (.inr (.inr ⟨tasks, rfl, rfl, hdone, (Option.some.inj h).symm⟩)))

/-! ## The invariant -/

/-- The IDs of all nodes that were queried. -/
def askedIds (s : Lookup) : List ID := s.asked.flatten.map Node.id

/-- The nodes of the set that were not queried yet. -/
def unqueried (s : Lookup) : List Node :=
  (s.seen.map NodeEntry.node).filter fun n => !s.askedIds.contains n.id

structure Inv (q : Search) (s : Lookup) : Prop where
  seen_nodup : (s.seen.map fun e => e.node.id).Nodup
  seen_le : s.seen.length ≤ maxLookupNodes
  marked : ∀ e ∈ s.seen, e.queried = true ↔ e.node.id ∈ s.askedIds
  asked_seen : ∀ id ∈ s.askedIds, has s.seen id = true
  asked_nodup : s.askedIds.Nodup
  asked_le : ∀ nodes ∈ s.asked, nodes.length ≤ q.alpha
  asked_length : s.asked.length = s.round
  round_le : s.round ≤ maxRounds
  peers_le : s.allPeers.length ≤ maxLookupPeers
  result_le : ∀ peers, s.result = some peers → peers.length ≤ maxLookupPeers

/-- The invariant is about the set, the peers, the rounds and the result. -/
theorem Inv.congr (h : Inv q s) (hseen : s'.seen = s.seen) (hasked : s'.asked = s.asked)
    (hround : s'.round = s.round) (hpeers : s'.allPeers = s.allPeers)
    (hresult : ∀ peers, s'.result = some peers → s.result = some peers ∨ peers = s.allPeers) :
    Inv q s' := by
  have hids : s'.askedIds = s.askedIds := by rw [askedIds, hasked, askedIds]
  refine ⟨?_, ?_, ?_, ?_, ?_, ?_, ?_, ?_, ?_, fun peers hp => ?_⟩
  · rw [hseen]
    exact h.seen_nodup
  · rw [hseen]
    exact h.seen_le
  · rw [hseen, hids]
    exact h.marked
  · rw [hseen, hids]
    exact h.asked_seen
  · rw [hids]
    exact h.asked_nodup
  · rw [hasked]
    exact h.asked_le
  · rw [hasked, hround]
    exact h.asked_length
  · rw [hround]
    exact h.round_le
  · rw [hpeers]
    exact h.peers_le
  · rcases hresult peers hp with hp | rfl
    · exact h.result_le peers hp
    · exact h.peers_le

theorem has_iff {seen : List NodeEntry} {id : ID} :
    has seen id = true ↔ id ∈ seen.map fun e => e.node.id := by
  rw [has, List.any_eq_true, List.mem_map]
  simp only [decide_eq_true_iff]

/-! ### Merging a response -/

/-- A new node comes in that was not queried. -/
theorem Inv.concat (h : Inv q s) {n : Node} (hnew : ¬has s.seen n.id = true)
    (hroom : s.seen.length < maxLookupNodes) (d : DHT) :
    Inv q { s with seen := s.seen ++ [⟨n, false⟩], d := d } := by
  refine { h with seen_nodup := ?_, seen_le := ?_, marked := fun e he => ?_, asked_seen := ?_ }
  · rw [List.map_append, List.map_singleton]
    refine List.nodup_append.mpr ⟨h.seen_nodup, List.nodup_singleton _, fun id hid id' hid' => ?_⟩
    rw [List.mem_singleton.mp hid']
    rintro rfl
    exact hnew (has_iff.mpr hid)
  · rw [List.length_append, List.length_singleton]
    exact hroom
  · rcases List.mem_append.mp he with he | he
    · exact h.marked e he
    · rw [List.mem_singleton.mp he]
      exact iff_of_false Bool.false_ne_true fun hasked => hnew (h.asked_seen n.id hasked)
  · intro id hid
    rw [has_iff, List.map_append]
    exact List.mem_append_left _ (has_iff.mp (h.asked_seen id hid))

theorem inv_addNodes (now : Nat) (infos : List CompactNodeInfo) (h : Inv q s) :
    Inv q (addNodes now s infos) := by
  induction infos generalizing s with
  | nil => exact h
  | cons ni infos ih =>
    rw [addNodes]
    split_ifs with hfull hhas
    · exact h
    · exact ih h
    · exact ih (h.concat hhas (Nat.lt_of_not_le hfull) _)

theorem inv_merge (now : Nat) (todo : Section) (h : Inv q s) : Inv q (s.merge now todo) := by
  cases todo with
  | peers p =>
    refine { h with peers_le := ?_ }
    have htake : (p.take (maxLookupPeers - s.allPeers.length)).length ≤
        maxLookupPeers - s.allPeers.length := List.length_take_le _ _
    have hle := h.peers_le
    rw [merge, addPeers, List.length_append]
    omega
  | nodes infos => exact inv_addNodes now infos h

theorem asked_addNodes (now : Nat) (s : Lookup) (infos : List CompactNodeInfo) :
    (addNodes now s infos).asked = s.asked ∧ (addNodes now s infos).round = s.round ∧
      (addNodes now s infos).result = s.result := by
  induction infos generalizing s with
  | nil => exact ⟨rfl, rfl, rfl⟩
  | cons ni infos ih =>
    rw [addNodes]
    split_ifs with hfull hhas
    · exact ⟨rfl, rfl, rfl⟩
    · exact ih s
    · exact ih _

theorem asked_merge (now : Nat) (s : Lookup) (todo : Section) :
    (s.merge now todo).asked = s.asked ∧ (s.merge now todo).round = s.round ∧
      (s.merge now todo).result = s.result := by
  cases todo with
  | peers p => exact ⟨rfl, rfl, rfl⟩
  | nodes infos => exact asked_addNodes now s infos

/-! ### The start of a round -/

/-- The entries of a round are the nearest of those that are not marked. -/
theorem pick_isNearest (q : Search) (s : Lookup) :
    IsNearest (fun e : NodeEntry => ID.dist q.target e.node.id) q.alpha
      (s.seen.filter fun e => !e.queried) (s.pick q) := by
  have hless : ∀ a b : NodeEntry,
      ID.less (a.node.id.distance q.target) (b.node.id.distance q.target) = true ↔
        ID.dist q.target a.node.id < ID.dist q.target b.node.id := fun _ _ => ID.less_distance_iff
  exact .take ((sortBy_perm _ s.seen).filter _) ((sortBy_sorted hless s.seen).filter _) q.alpha

theorem Inv.unqueried_eq (h : Inv q s) :
    s.unqueried = (s.seen.filter fun e => !e.queried).map NodeEntry.node := by
  rw [unqueried, List.filter_map]
  refine congrArg _ (List.filter_congr fun e he => ?_)
  have hmarked := h.marked e he
  rw [Function.comp_apply, Bool.eq_iff_iff, Bool.not_eq_true', Bool.not_eq_true',
    ← Bool.not_eq_true, ← Bool.not_eq_true, List.contains_iff_mem, hmarked]

theorem Inv.pick_isNearest (h : Inv q s) :
    IsNearest (fun n : Node => ID.dist q.target n.id) q.alpha s.unqueried
      ((s.pick q).map NodeEntry.node) := by
  rw [h.unqueried_eq]
  exact IsNearest.map (f := NodeEntry.node) (Lookup.pick_isNearest q s)

theorem mem_unqueried {n : Node} (h : n ∈ s.unqueried) :
    has s.seen n.id = true ∧ n.id ∉ s.askedIds := by
  obtain ⟨hmem, hasked⟩ := List.mem_filter.mp h
  obtain ⟨e, he, rfl⟩ := List.mem_map.mp hmem
  refine ⟨has_iff.mpr (List.mem_map_of_mem (f := fun e => e.node.id) he), fun hid => ?_⟩
  rw [List.contains_iff_mem.mpr hid] at hasked
  cases hasked

theorem Inv.unqueried_nodup (h : Inv q s) : (s.unqueried.map Node.id).Nodup := by
  have hnodup : ((s.seen.map NodeEntry.node).map Node.id).Nodup := by
    rw [List.map_map]
    exact h.seen_nodup
  exact hnodup.sublist (List.filter_sublist.map _)

theorem map_id_mark (ids : List ID) (seen : List NodeEntry) :
    ((mark ids seen).map fun e => e.node.id) = seen.map fun e => e.node.id := by
  rw [mark, List.map_map]
  refine List.map_congr_left fun e _ => ?_
  rw [Function.comp_apply]
  split_ifs <;> rfl

theorem inv_beginRound (h : Inv q s) : Inv q (s.beginRound q) := by
  unfold beginRound
  split_ifs with hround
  · exact h.congr rfl rfl rfl rfl fun peers hp => .inr (Option.some.inj hp).symm
  · dsimp only
    split_ifs with hempty
    · exact h.congr rfl rfl rfl rfl fun peers hp => .inr (Option.some.inj hp).symm
    · have hnearest := h.pick_isNearest
      generalize (s.pick q).map NodeEntry.node = toQuery at hnearest
      have hfree : ∀ id ∈ toQuery.map Node.id, has s.seen id = true ∧ id ∉ s.askedIds := by
        intro id hid
        obtain ⟨n, hn, rfl⟩ := List.mem_map.mp hid
        exact mem_unqueried (hnearest.subset n hn)
      have hids : (s.asked ++ [toQuery]).flatten.map Node.id = s.askedIds ++ toQuery.map Node.id := by
        rw [List.flatten_append, List.flatten_singleton, List.map_append]
        rfl
      refine ⟨?_, ?_, fun e he => ?_, fun id hid => ?_, ?_, fun nodes hn => ?_, ?_, ?_, h.peers_le,
        h.result_le⟩
      · rw [map_id_mark]
        exact h.seen_nodup
      · rw [mark, List.length_map]
        exact h.seen_le
      · obtain ⟨e₀, he₀, rfl⟩ := List.mem_map.mp he
        rw [askedIds, hids, List.mem_append]
        by_cases hin : e₀.node.id ∈ toQuery.map Node.id
        · rw [if_pos (List.contains_iff_mem.mpr hin)]
          exact iff_of_true rfl (.inr hin)
        · rw [if_neg (mt List.contains_iff_mem.mp hin), h.marked e₀ he₀]
          exact ⟨.inl, fun hor => hor.resolve_right hin⟩
      · rw [askedIds, hids, List.mem_append] at hid
        rw [has_iff, map_id_mark, ← has_iff]
        exact hid.elim (h.asked_seen id) fun hid => (hfree id hid).1
      · rw [askedIds, hids]
        refine List.nodup_append.mpr
          ⟨h.asked_nodup, hnearest.nodup_map h.unqueried_nodup, fun id hid id' hid' => ?_⟩
        rintro rfl
        exact (hfree id hid').2 hid
      · rcases List.mem_append.mp hn with hn | hn
        · exact h.asked_le nodes hn
        · rw [List.mem_singleton.mp hn]
          exact hnearest.length_le
      · rw [List.length_append, List.length_singleton, h.asked_length]
      · exact Nat.lt_of_not_le hround

theorem inv_step (h : Inv q s) (hstep : s.step q a = some s') : Inv q s' := by
  obtain ⟨hnone, hcases⟩ := step_cases hstep
  have hsame : ∀ peers, s.result = some peers → s.result = some peers ∨ peers = s.allPeers :=
    fun _ => .inl
  rcases hcases with ⟨-, -, rfl⟩ | ⟨-, -, rfl⟩ | ⟨i, resp, now, tasks, n, -, -, -, rfl⟩ |
    ⟨i, now, tasks, todo, rest, -, -, -, rfl⟩ | ⟨tasks, -, -, -, rfl⟩
  · exact inv_beginRound h
  · exact h.congr rfl rfl rfl rfl fun peers hp => .inr (Option.some.inj hp).symm
  · exact h.congr rfl rfl rfl rfl hsame
  · exact (inv_merge now todo h).congr rfl rfl rfl rfl fun _ => .inl
  · refine h.congr rfl rfl rfl rfl fun peers hp => .inr ?_
    dsimp only at hp
    split_ifs at hp
    exact (Option.some.inj hp).symm

/-! ### The first nodes -/

/-- The set that a lookup begins with: different IDs, none of them queried. -/
structure Fresh (seen : List NodeEntry) (k : Nat) : Prop where
  nodup : (seen.map fun e => e.node.id).Nodup
  unmarked : ∀ e ∈ seen, e.queried = false
  length_le : seen.length ≤ k

theorem Fresh.put {seen : List NodeEntry} {k : Nat} (h : Fresh seen k) (n : Node) :
    Fresh (put seen n) (k + 1) := by
  unfold Lookup.put
  split_ifs with hhas
  · refine ⟨?_, fun e he => ?_, ?_⟩
    · rw [List.map_map]
      have hsame : ∀ e ∈ seen, ((fun e : NodeEntry => e.node.id) ∘ fun e =>
          if e.node.id = n.id then ⟨n, false⟩ else e) e = e.node.id := by
        intro e _
        rw [Function.comp_apply]
        split_ifs with heq
        · exact heq.symm
        · rfl
      rw [List.map_congr_left hsame]
      exact h.nodup
    · obtain ⟨e₀, he₀, rfl⟩ := List.mem_map.mp he
      split_ifs
      · rfl
      · exact h.unmarked e₀ he₀
    · rw [List.length_map]
      exact Nat.le_succ_of_le h.length_le
  · refine ⟨?_, fun e he => ?_, ?_⟩
    · rw [List.map_append, List.map_singleton]
      refine List.nodup_append.mpr ⟨h.nodup, List.nodup_singleton _, fun id hid id' hid' => ?_⟩
      rw [List.mem_singleton.mp hid']
      rintro rfl
      exact hhas (has_iff.mpr hid)
    · rcases List.mem_append.mp he with he | he
      · exact h.unmarked e he
      · rw [List.mem_singleton.mp he]
    · rw [List.length_append, List.length_singleton]
      exact Nat.succ_le_succ h.length_le

theorem Fresh.putNew {seen : List NodeEntry} {k : Nat} (h : Fresh seen k) (n : Node) :
    Fresh (putNew seen n) (k + 1) := by
  unfold Lookup.putNew
  split_ifs
  · exact ⟨h.nodup, h.unmarked, Nat.le_succ_of_le h.length_le⟩
  · exact h.put n

theorem Fresh.foldl {f : List NodeEntry → Node → List NodeEntry}
    (hf : ∀ seen k n, Fresh seen k → Fresh (f seen n) (k + 1)) (nodes : List Node)
    {seen : List NodeEntry} {k : Nat} (h : Fresh seen k) :
    Fresh (nodes.foldl f seen) (k + nodes.length) := by
  induction nodes generalizing seen k with
  | nil => exact h
  | cons n nodes ih =>
    have hrest := ih (hf seen k n h)
    rwa [Nat.add_right_comm, Nat.add_assoc] at hrest

theorem inv_start {d : DHT} (h : start q d = some s) :
    Inv q s ∧ s.round = 0 ∧ s.tasks = none ∧ s.result = none := by
  unfold start at h
  dsimp only at h
  split_ifs at h with hempty
  obtain rfl := Option.some.inj h
  have h4 := (d.table.closest_isNearest q.target bucketSize).length_le
  have h6 := (d.tableV6.closest_isNearest q.target bucketSize).length_le
  have hseeds : Fresh [] 0 := ⟨.nil, fun _ he => absurd he List.not_mem_nil, Nat.le_refl _⟩
  have hfresh := Fresh.foldl (fun _ _ n hs => hs.putNew n) (d.tableV6.closest q.target bucketSize)
    (Fresh.foldl (fun _ _ n hs => hs.put n) (d.table.closest q.target bucketSize) hseeds)
  refine ⟨⟨hfresh.nodup, ?_, fun e he => ?_, ?_, .nil, ?_, rfl, Nat.zero_le _, Nat.zero_le _, ?_⟩,
    rfl, rfl, rfl⟩
  · have hmax : bucketSize + bucketSize ≤ maxLookupNodes := by decide
    exact hfresh.length_le.trans (by omega)
  · rw [hfresh.unmarked e he]
    exact iff_of_false Bool.false_ne_true List.not_mem_nil
  · exact fun _ hid => absurd hid List.not_mem_nil
  · exact fun _ hn => absurd hn List.not_mem_nil
  · exact fun _ hp => absurd hp.symm (Option.some_ne_none _)

/-! ## The length of a lookup -/

/-- The steps that a goroutine may still take. -/
def taskLeft : Task → Nat
  | .waiting _ => 4
  | .collecting todo => todo.length

/-- The steps that a round may still take. -/
def tasksLeft : Option (List Task) → Nat
  | none => 0
  | some tasks => 1 + (tasks.map taskLeft).sum

/-- The steps that the lookup may still take. -/
def left (q : Search) (s : Lookup) : Nat :=
  if s.result.isSome then 0
  else 1 + (maxRounds - s.round) * (4 * q.alpha + 2) + tasksLeft s.tasks

theorem left_of_none (h : s.result = none) :
    s.left q = 1 + (maxRounds - s.round) * (4 * q.alpha + 2) + tasksLeft s.tasks := by
  rw [left, h]
  rfl

theorem left_of_some {peers : List Bytes} (h : s.result = some peers) : s.left q = 0 := by
  rw [left, h]
  rfl

/-- One goroutine goes on. -/
theorem sum_left_set {tasks : List Task} {i : Nat} {t t' : Task} (h : tasks[i]? = some t)
    (hlt : taskLeft t' < taskLeft t) :
    ((tasks.set i t').map taskLeft).sum < (tasks.map taskLeft).sum := by
  induction tasks generalizing i with
  | nil => cases h
  | cons u tasks ih =>
    cases i with
    | zero =>
      rw [List.getElem?_cons_zero, Option.some_inj] at h
      rw [List.set_cons_zero, List.map_cons, List.map_cons, List.sum_cons, List.sum_cons, h]
      omega
    | succ i =>
      rw [List.getElem?_cons_succ] at h
      have hrest := ih h
      rw [List.set_cons_succ, List.map_cons, List.map_cons, List.sum_cons, List.sum_cons]
      omega

theorem sum_left_waiting (nodes : List Node) :
    ((nodes.map Task.waiting).map taskLeft).sum = 4 * nodes.length := by
  induction nodes with
  | nil => rfl
  | cons n nodes ih =>
    rw [List.map_cons, List.map_cons, List.sum_cons, ih, List.length_cons, taskLeft]
    omega

theorem length_nodesSection_le (unmarshal : Bytes → Except CompactError (List CompactNodeInfo))
    (field : Option Bytes) : (nodesSection unmarshal field).length ≤ 1 := by
  unfold nodesSection
  split
  · exact Nat.le_refl _
  · exact Nat.zero_le _

theorem length_sections_le (q : Search) (r : Entries) : (sections q r).length ≤ 3 := by
  have hpeers : (if q.getPeers then ((r.list? (ascii "values")).map fun values =>
      Section.peers (parseCompactPeers values)).toList else []).length ≤ 1 := by
    split_ifs
    · cases r.list? (ascii "values") with
      | none => exact Nat.zero_le _
      | some values => exact Nat.le_refl _
    · exact Nat.zero_le _
  have h4 := length_nodesSection_le unmarshalCompactNodeInfo (r.str? (ascii "nodes"))
  have h6 := length_nodesSection_le unmarshalCompactNodeInfo6 (r.str? (ascii "nodes6"))
  rw [sections, List.length_append, List.length_append]
  omega

theorem length_answered_le (q : Search) (s : Lookup) (n : Node) (resp : Option KRPCMessage)
    (now : Nat) : (s.answered q n resp now).2.length ≤ 3 := by
  unfold answered
  split
  · exact Nat.zero_le _
  · exact length_sections_le q _

theorem left_beginRound_lt (h : Inv q s) (hnone : s.result = none) (htasks : s.tasks = none) :
    (s.beginRound q).left q < s.left q := by
  rw [left_of_none hnone]
  unfold beginRound
  split_ifs with hround
  · rw [left_of_some rfl]
    omega
  · dsimp only
    split_ifs with hempty
    · rw [left_of_some rfl]
      omega
    · have hlen := h.pick_isNearest.length_le
      obtain ⟨rounds, hrounds⟩ : ∃ rounds, maxRounds - s.round = rounds + 1 :=
        ⟨maxRounds - s.round - 1, by omega⟩
      have hrest : maxRounds - (s.round + 1) = rounds := by omega
      rw [left_of_none (by exact hnone)]
      dsimp only
      rw [htasks, hrounds, hrest, tasksLeft, tasksLeft, sum_left_waiting, Nat.succ_mul rounds]
      omega

theorem left_step_lt (h : Inv q s) (hstep : s.step q a = some s') : s'.left q < s.left q := by
  obtain ⟨hnone, hcases⟩ := step_cases hstep
  rcases hcases with ⟨-, htasks, rfl⟩ | ⟨-, -, rfl⟩ | ⟨i, resp, now, tasks, n, -, htasks, hi, rfl⟩ |
    ⟨i, now, tasks, todo, rest, -, htasks, hi, rfl⟩ | ⟨tasks, -, htasks, -, rfl⟩
  · exact left_beginRound_lt h hnone htasks
  · rw [left_of_some rfl, left_of_none hnone]
    omega
  · have hlen := length_answered_le q s n resp now
    have hlt : ((tasks.set i (.collecting (s.answered q n resp now).2)).map taskLeft).sum <
        (tasks.map taskLeft).sum := sum_left_set hi (Nat.lt_succ_of_le hlen)
    rw [left_of_none hnone, left_of_none (by exact hnone), htasks]
    dsimp only [tasksLeft]
    omega
  · have hlt : ((tasks.set i (.collecting rest)).map taskLeft).sum < (tasks.map taskLeft).sum :=
      sum_left_set hi (Nat.lt_succ_self rest.length)
    obtain ⟨-, hround, hresult⟩ := asked_merge now s todo
    rw [left_of_none hnone, left_of_none (by exact hresult.trans hnone), htasks]
    dsimp only [tasksLeft]
    rw [hround]
    omega
  · rw [left_of_none hnone, htasks]
    by_cases hfound : q.getPeers = true ∧ 0 < s.allPeers.length
    · rw [if_pos hfound, left_of_some rfl]
      omega
    · rw [if_neg hfound, left_of_none rfl]
      dsimp only [tasksLeft]
      omega

/-- A lookup that has not returned can go on. -/
theorem exists_step (q : Search) (hnone : s.result = none) : ∃ a s', s.step q a = some s' := by
  have hopen : ¬s.result.isSome = true := by rw [hnone]; exact Bool.false_ne_true
  cases htasks : s.tasks with
  | none => exact ⟨.begin, s.beginRound q, by unfold step; rw [if_neg hopen, htasks]⟩
  | some tasks =>
    by_cases hdone : tasks.all Task.isDone = true
    · exact ⟨.join, _, by unfold step; rw [if_neg hopen, htasks]; exact if_pos hdone⟩
    · rw [List.all_eq_true, not_forall] at hdone
      obtain ⟨t, ht⟩ := hdone
      obtain ⟨hmem, hbusy⟩ := Classical.not_imp.mp ht
      obtain ⟨i, hi⟩ := List.mem_iff_getElem?.mp hmem
      -- The goroutine at `i` has its response or a section to go.
      cases t with
      | waiting n =>
        exact ⟨.answer i none 0, _, by
          unfold step; rw [if_neg hopen, htasks]; dsimp only; rw [hi]⟩
      | collecting todo =>
        cases todo with
        | nil => exact absurd rfl hbusy
        | cons first rest =>
          exact ⟨.collect i 0, _, by
            unfold step; rw [if_neg hopen, htasks]; dsimp only; rw [hi]⟩

/-! ## Every lookup -/

theorem length_flatten_le {rounds : List (List Node)} {k : Nat}
    (h : ∀ nodes ∈ rounds, nodes.length ≤ k) : rounds.flatten.length ≤ rounds.length * k := by
  induction rounds with
  | nil => exact Nat.zero_le _
  | cons nodes rounds ih =>
    have hfirst := h nodes List.mem_cons_self
    have hrest := ih fun nodes hn => h nodes (List.mem_cons_of_mem _ hn)
    rw [List.flatten_cons, List.length_append, List.length_cons, Nat.succ_mul]
    omega

/-- Only the beginning of a round queries nodes. -/
theorem asked_step (h : Inv q s) (hstep : s.step q a = some s') :
    s'.asked = s.asked ∨ a = .begin ∧ ∃ toQuery, s'.asked = s.asked ++ [toQuery] ∧
      IsNearest (fun n : Node => ID.dist q.target n.id) q.alpha s.unqueried toQuery := by
  obtain ⟨-, hcases⟩ := step_cases hstep
  rcases hcases with ⟨rfl, -, rfl⟩ | ⟨-, -, rfl⟩ | ⟨i, resp, now, tasks, n, -, -, -, rfl⟩ |
    ⟨i, now, tasks, todo, rest, -, -, -, rfl⟩ | ⟨tasks, -, -, -, rfl⟩
  · unfold beginRound
    split_ifs
    · exact .inl rfl
    · dsimp only
      split_ifs
      · exact .inl rfl
      · exact .inr ⟨rfl, _, rfl, h.pick_isNearest⟩
  · exact .inl rfl
  · exact .inl rfl
  · exact .inl (asked_merge now s todo).1
  · exact .inl rfl

/-- Whatever the nodes answer and in whatever order that is merged: a lookup has at most ten
rounds, queries no ID twice and at most ten times `alpha` nodes, keeps at most 1000 nodes and
returns at most 5000 peers.  Each round queries the nearest `alpha` of the nodes that it knows
and has not queried.  It goes on until it returns, and every run of it comes to an end. -/
theorem lookup_bounded (q : Search) (d : DHT) {s₀ s : Lookup} {as : List Action}
    (hstart : start q d = some s₀) (hrun : exec (step q) s₀ as = some s) :
    s.asked.length = s.round ∧ s.round ≤ 10 ∧ (s.asked.flatten.map Node.id).Nodup ∧
      s.asked.flatten.length ≤ 10 * q.alpha ∧ s.seen.length ≤ 1000 ∧
      (∀ peers, s.result = some peers → peers.length ≤ 5000) ∧
      as.length ≤ 10 * (4 * q.alpha + 2) + 1 ∧
      (s.result = none → ∃ a s', s.step q a = some s') ∧
      ∀ a s', s.step q a = some s' → s'.asked = s.asked ∨ a = .begin ∧ ∃ toQuery,
        s'.asked = s.asked ++ [toQuery] ∧
          IsNearest (fun n : Node => ID.dist q.target n.id) q.alpha s.unqueried toQuery := by
  obtain ⟨hfirst, hround₀, htasks₀, hnone₀⟩ := inv_start hstart
  have hinv : Inv q s := exec_invariant (fun _ _ _ h _ hstep => inv_step h hstep) hfirst
    (guarded_of_forall (fun _ _ => trivial) _ as) hrun
  have hlen : as.length + s.left q ≤ s₀.left q :=
    exec_length_le (fun _ _ _ h hstep => inv_step h hstep)
      (fun _ _ _ h hstep => left_step_lt h hstep) hfirst hrun
  have hbound := length_flatten_le hinv.asked_le
  have hrounds : s.asked.length * q.alpha ≤ 10 * q.alpha :=
    Nat.mul_le_mul_right _ (hinv.asked_length.le.trans hinv.round_le)
  rw [left_of_none hnone₀, hround₀, htasks₀] at hlen
  refine ⟨hinv.asked_length, hinv.round_le, hinv.asked_nodup, hbound.trans hrounds, hinv.seen_le,
    hinv.result_le, ?_, exists_step q, fun a s' hstep => asked_step hinv hstep⟩
  dsimp only [tasksLeft, maxRounds] at hlen
  omega

/-- A lookup of twenty zeros, one query at a time. -/
def exampleSearch : Search := ⟨.ofBytes [], true, 1⟩

def exampleDHT : DHT :=
  .run (.ofBytes [1]) zeroSecret [(⟨.ofBytes [2], ⟨[192, 0, 2, 1], 6881, []⟩, 0⟩, 10)]

/-- A response with one more node. -/
def exampleResponse : KRPCMessage where
  t := []
  y := ascii "r"
  q := []
  a := none
  r := some (.ofList [(ascii "nodes", .str (List.replicate 26 3))])
  e := none

/-- The second round asks the node that the first one was told of. -/
theorem lookup_bounded_told :
    ∃ s₀ s, start exampleSearch exampleDHT = some s₀ ∧
      exec (step exampleSearch) s₀ [Action.begin, .answer 0 (some exampleResponse) 20,
        .collect 0 20, .join, .begin] = some s ∧
      s.round = 2 ∧ s.asked.length = 2 ∧ (s.asked.flatten.map Node.id).Nodup := by
  obtain ⟨s₀, hstart, s, hexec, hround⟩ : ∃ s₀, start exampleSearch exampleDHT = some s₀ ∧
      ∃ s, exec (step exampleSearch) s₀ [Action.begin, .answer 0 (some exampleResponse) 20,
        .collect 0 20, .join, .begin] = some s ∧ s.round = 2 := by decide +kernel
  obtain ⟨hasked, -, hnodup, -⟩ := lookup_bounded exampleSearch exampleDHT hstart hexec
  exact ⟨s₀, s, hstart, hexec, hround, hasked.trans hround, hnodup⟩

end Lookup

end Stor.Dht
