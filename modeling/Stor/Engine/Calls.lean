import Stor.Engine.Control
import Stor.Engine.Delete
import Stor.Engine.StateFile

/-!
# The calls on the records

The methods of `engine/engine.go` that change the records in memory: those that add,
remove, pause and resume a torrent, set a priority, and move a torrent in the queue.
A method is a function of the map `e.sessions`; what is saved is in
`Stor.Engine.Persist`, and which sessions run is in `Stor.Engine.Control`.
-/

namespace Stor.Engine
namespace Calls

open Lib Torrent Storage

/-- `knownPeers` is the counter beside the record. -/
structure Session where
  record : TorrentRecord
  knownPeers : Int32
  tf : Option TorrentFile

namespace Session

def id (s : Session) : Bytes := s.record.id

def position (s : Session) : Int64 := s.record.queuePosition

/-- `NewSession`. -/
def new (record : TorrentRecord) : Session where
  record := record
  knownPeers := record.knownPeers.toInt32
  tf := none

/-- `Session.Record`. -/
def recordCopy (s : Session) : TorrentRecord := { s.record with knownPeers := s.knownPeers.toInt64 }

def atPosition (s : Session) (position : Int64) : Session :=
  { s with record := { s.record with queuePosition := position } }

def setState (s : Session) (new : TorrentState) : Session :=
  { s with record := { s.record with state := new } }

/-- `Session.Pause`, as far as it writes to the record. -/
def pause (s : Session) : Session :=
  match s.record.state with
  | .downloading | .metadata | .seeding | .verifying | .adding => s.setState .paused
  | _ => s

def resume (s : Session) : Session :=
  { s with record := { s.record with error := [], state := .adding } }

/-- The torrent file that `SetFilePriority` counts the files of. -/
def torrentFile (env : Env) (s : Session) : Option TorrentFile :=
  s.tf <|> s.record.torrentData.bind fun data =>
    if data = [] then none else (Torrent.parse env.digests data).toOption

def setPriority (s : Session) (fileCount fileIndex : Nat) (priority : Int8) : Session :=
  let priorities := s.record.filePriorities
  let grown := priorities ++ List.replicate (fileCount - priorities.length) 0
  { s with record := { s.record with filePriorities := grown.set fileIndex priority } }

theorem id_pause (s : Session) : s.pause.id = s.id := by
  unfold pause
  split <;> rfl

theorem id_atPosition (s : Session) (position : Int64) : (s.atPosition position).id = s.id := rfl

end Session

/-- The map `e.sessions`, with the sessions in some order. -/
structure Sessions where
  list : List Session
  nodup : (list.map Session.id).Nodup

inductive CallError where
  | source
  | sessionLimit
  | notFound (id : Bytes)
  | cannotResume (id : Bytes) (state : TorrentState)
  | invalidPriority (priority : Int8)
  | invalidFileIndex (fileIndex : Int)
  | notResolved (id : Bytes)
  | outOfRange (fileIndex : Int) (fileCount : Nat)
  deriving DecidableEq

/-- The error texts; what is wrong with a source is said by those who read it. -/
def CallError.text : CallError → Option Bytes
  | .source => none
  | .sessionLimit => some (ascii "engine: session limit reached (10000)")
  | .notFound id => some (ascii "engine: torrent " ++ id ++ ascii " not found")
  | .cannotResume id state =>
    some (ascii "engine: torrent " ++ id ++ ascii " is " ++ state.text ++ ascii ", cannot resume")
  | .invalidPriority priority =>
    some (ascii ("engine: invalid priority " ++ toString priority.toInt ++ " (must be 0 or -1)"))
  | .invalidFileIndex fileIndex => some (ascii ("engine: invalid file_index " ++ toString fileIndex))
  | .notResolved id => some (ascii "engine: torrent " ++ id ++ ascii " metadata not yet resolved")
  | .outOfRange fileIndex fileCount =>
    some (ascii ("engine: file_index " ++ toString fileIndex ++ " out of range (file count " ++
      toString fileCount ++ ")"))

/-- What a call makes of the sessions before it saves. -/
inductive Answer where
  | failed (e : CallError)
  | unchanged
  | changed (m : Sessions)

def Answer.changed? : Answer → Option Sessions
  | .changed m => some m
  | _ => none

namespace Sessions

def ids (m : Sessions) : List Bytes := m.list.map Session.id

def get? (m : Sessions) (id : Bytes) : Option Session := m.list.find? fun s => s.id = id

/-- `f` on every session. -/
def map (m : Sessions) (f : Session → Session) (hf : ∀ s, (f s).id = s.id) : Sessions where
  list := m.list.map f
  nodup := by
    have hids : m.list.map (Session.id ∘ f) = m.list.map Session.id :=
      List.map_congr_left fun s _ => hf s
    rw [List.map_map, hids]
    exact m.nodup

def modify (m : Sessions) (id : Bytes) (f : Session → Session)
    (hf : ∀ s, s.id = id → (f s).id = id) : Sessions :=
  m.map (fun s => if s.id = id then f s else s) fun s => by
    split
    · rename_i h
      rw [hf s h, h]
    · rfl

def setPositions (m : Sessions) (f : Session → Int64) : Sessions :=
  m.map (fun s => s.atPosition (f s)) fun s => s.id_atPosition (f s)

def insert (m : Sessions) (s : Session) (h : s.id ∉ m.ids) : Sessions where
  list := m.list ++ [s]
  nodup := by
    rw [List.map_append, List.nodup_append]
    refine ⟨m.nodup, List.nodup_singleton _, ?_⟩
    rintro id hid id' hid' rfl
    exact h (List.mem_singleton.mp hid' ▸ hid)

def delete (m : Sessions) (id : Bytes) : Sessions where
  list := m.list.filter fun s => s.id ≠ id
  nodup := m.nodup.sublist (List.filter_sublist.map _)

/-! ## The queue -/

def maxQueuePosition (m : Sessions) : Int64 :=
  m.list.foldl (fun maxPos s => if s.position > maxPos then s.position else maxPos) (-1)

def nextQueuePosition (m : Sessions) : Int64 := m.maxQueuePosition + 1

def positionOf (m : Sessions) (id : Bytes) : Int64 := ((m.get? id).map Session.position).getD 0

/-- `order` is what `sortByQueuePosition` makes of the sessions in some order. -/
def isSorted (m : Sessions) (order : List Bytes) : Bool :=
  order.isPerm m.ids && decide (order.Pairwise fun a b => m.positionOf a ≤ m.positionOf b)

/-- `compactQueueLocked`, with the sessions sorted to `order`. -/
def compactQueueLocked (m : Sessions) (order : List Bytes) : Sessions :=
  m.setPositions fun s => Int64.ofNat (order.idxOf s.id)

def setQueuePosition (m : Sessions) (id : Bytes) (newPos : Int64) : Answer :=
  match m.get? id with
  | none => .failed (.notFound id)
  | some s =>
    let oldPos := s.position
    if oldPos = newPos then .unchanged
    else
      .changed (m.setPositions fun other =>
        if other.id = id then newPos
        else if oldPos < newPos then
          if other.position > oldPos ∧ other.position ≤ newPos then other.position - 1
          else other.position
        else if other.position ≥ newPos ∧ other.position < oldPos then other.position + 1
        else other.position)

/-- `a` is a session at `pos` that the loop of `swapQueuePositions` may end with. -/
def foundAt (m : Sessions) (pos : Int64) (a : Option Bytes) : Bool :=
  match a with
  | none => m.list.all fun s => s.position ≠ pos
  | some id => (m.get? id).any fun s => s.position = pos

def swapQueuePositions (m : Sessions) (posA posB : Int64) (a b : Option Bytes) : Option Answer :=
  if m.foundAt posA a ∧ m.foundAt posB b then
    some (.changed (m.setPositions fun s =>
      if some s.id = b then posA else if some s.id = a then posB else s.position))
  else none

def queueTop (m : Sessions) (id : Bytes) : Answer := m.setQueuePosition id 0

def queueUp (m : Sessions) (id : Bytes) (a b : Option Bytes) : Option Answer :=
  match m.get? id with
  | none => some (.failed (.notFound id))
  | some s =>
    if s.position ≤ 0 then some .unchanged
    else m.swapQueuePositions s.position (s.position - 1) a b

def queueDown (m : Sessions) (id : Bytes) (a b : Option Bytes) : Option Answer :=
  match m.get? id with
  | none => some (.failed (.notFound id))
  | some s =>
    if s.position ≥ m.maxQueuePosition then some .unchanged
    else m.swapQueuePositions s.position (s.position + 1) a b

def queueBottom (m : Sessions) (id : Bytes) : Answer :=
  let maxPos := m.maxQueuePosition
  match m.get? id with
  | none => .failed (.notFound id)
  | some s =>
    let oldPos := s.position
    if oldPos = maxPos then .unchanged
    else
      .changed (m.setPositions fun other =>
        if other.id = id then maxPos
        else if other.position > oldPos ∧ other.position ≤ maxPos then other.position - 1
        else other.position)

/-! ## The torrents -/

/-- The record of `AddTorrent`. -/
def newRecord (env : Env) (disk : Files) (id source : Bytes) (queuePosition addedAt : Int64) :
    TorrentRecord :=
  let found := sourceTorrent env disk source
  { id := id
    name := (Entry.newRecord env disk source).name
    source := source
    savePath := []
    totalBytes := (found.map fun (_, tf) => Int64.ofInt (totalSize tf.info)).getD 0
    state := .adding
    queuePosition := queuePosition
    addedAt := addedAt
    completedAt := 0
    torrentData := found.map Prod.fst
    bitfield := none
    filePriorities := []
    error := []
    knownPeers := 0 }

def addTorrent (env : Env) (m : Sessions) (disk : Files) (source : Bytes) (addedAt : Int64) :
    Answer :=
  match Entry.infoHashOf env disk source with
  | none => .failed .source
  | some infoHash =>
    let record := newRecord env disk (hexEncode infoHash) source m.nextQueuePosition addedAt
    if h : record.id ∈ m.ids then .unchanged
    else if m.list.length ≥ Control.maxSessions then .failed .sessionLimit
    else .changed (m.insert (.new record) h)

/-- The session is paused before it is deleted, which nothing shows any more. -/
def removeTorrent (m : Sessions) (id : Bytes) (order : List Bytes) : Option Answer :=
  if id ∈ m.ids then
    if (m.delete id).isSorted order then
      some (.changed ((m.delete id).compactQueueLocked order))
    else none
  else some (.failed (.notFound id))

def pauseTorrent (m : Sessions) (id : Bytes) : Answer :=
  match m.get? id with
  | none => .failed (.notFound id)
  | some _ => .changed (m.modify id Session.pause fun s h => s.id_pause.trans h)

def resumeTorrent (m : Sessions) (id : Bytes) : Answer :=
  match m.get? id with
  | none => .failed (.notFound id)
  | some s =>
    if s.record.state ≠ .paused ∧ s.record.state ≠ .error then
      .failed (.cannotResume id s.record.state)
    else .changed (m.modify id Session.resume fun _ h => h)

def setFilePriority (env : Env) (m : Sessions) (id : Bytes) (fileIndex : Int) (priority : Int8) :
    Answer :=
  if priority ≠ 0 ∧ priority ≠ -1 then .failed (.invalidPriority priority)
  else if fileIndex < 0 then .failed (.invalidFileIndex fileIndex)
  else
    match m.get? id with
    | none => .failed (.notFound id)
    | some s =>
      match s.torrentFile env with
      | none => .failed (.notResolved id)
      | some tf =>
        -- a torrent of a single file has one implicit file
        let fileCount := if tf.info.files.length = 0 then 1 else tf.info.files.length
        if fileIndex ≥ fileCount then .failed (.outOfRange fileIndex fileCount)
        else
          .changed (m.modify id (fun s => s.setPriority fileCount fileIndex.toNat priority)
            fun _ h => h)

end Sessions

/-- The calls, with what the disk, the clock and the order of the map decide. -/
inductive Call where
  | addTorrent (disk : Files) (source : Bytes) (addedAt : Int64)
  | removeTorrent (id : Bytes) (order : List Bytes)
  | pauseTorrent (id : Bytes)
  | resumeTorrent (id : Bytes)
  | setFilePriority (id : Bytes) (fileIndex : Int) (priority : Int8)
  | queueTop (id : Bytes)
  | queueUp (id : Bytes) (a b : Option Bytes)
  | queueDown (id : Bytes) (a b : Option Bytes)
  | queueBottom (id : Bytes)

def Call.answer (env : Env) (m : Sessions) : Call → Option Answer
  | .addTorrent disk source addedAt => some (m.addTorrent env disk source addedAt)
  | .removeTorrent id order => m.removeTorrent id order
  | .pauseTorrent id => some (m.pauseTorrent id)
  | .resumeTorrent id => some (m.resumeTorrent id)
  | .setFilePriority id fileIndex priority => some (m.setFilePriority env id fileIndex priority)
  | .queueTop id => some (m.queueTop id)
  | .queueUp id a b => m.queueUp id a b
  | .queueDown id a b => m.queueDown id a b
  | .queueBottom id => some (m.queueBottom id)

variable {env : Env} {m m' : Sessions}

/-! ## What the methods do to the sessions -/

namespace Sessions

theorem mem_ids {id : Bytes} : id ∈ m.ids ↔ ∃ s ∈ m.list, s.id = id := List.mem_map

theorem eq_of_id {s t : Session} (hs : s ∈ m.list) (ht : t ∈ m.list) (h : s.id = t.id) : s = t :=
  List.inj_on_of_nodup_map m.nodup hs ht h

theorem mem_of_get? {id : Bytes} {s : Session} (h : m.get? id = some s) :
    s ∈ m.list ∧ s.id = id := by
  refine ⟨List.mem_of_find?_eq_some h, ?_⟩
  have hid := List.find?_some h
  exact of_decide_eq_true hid

theorem get?_of_mem {s : Session} (hs : s ∈ m.list) : m.get? s.id = some s := by
  cases hget : m.get? s.id with
  | none => exact absurd (List.find?_eq_none.mp hget s hs) (by simp)
  | some t =>
    obtain ⟨ht, hid⟩ := mem_of_get? hget
    rw [eq_of_id ht hs hid]

theorem mem_map {f : Session → Session} {hf : ∀ s, (f s).id = s.id} {s : Session} :
    s ∈ (m.map f hf).list ↔ ∃ t ∈ m.list, f t = s := List.mem_map

theorem ids_map (m : Sessions) (f : Session → Session) (hf : ∀ s, (f s).id = s.id) :
    (m.map f hf).ids = m.ids := by
  show (m.list.map f).map Session.id = m.list.map Session.id
  rw [List.map_map]
  exact List.map_congr_left fun s _ => hf s

theorem mem_setPositions {f : Session → Int64} {s : Session} :
    s ∈ (m.setPositions f).list ↔ ∃ t ∈ m.list, t.atPosition (f t) = s := List.mem_map

theorem ids_setPositions (m : Sessions) (f : Session → Int64) : (m.setPositions f).ids = m.ids :=
  m.ids_map _ _

theorem mem_ids_delete {id id' : Bytes} : id' ∈ (m.delete id).ids ↔ id' ∈ m.ids ∧ id' ≠ id := by
  rw [mem_ids, mem_ids]
  constructor
  · rintro ⟨s, hs, rfl⟩
    obtain ⟨hs, hne⟩ := List.mem_filter.mp hs
    exact ⟨⟨s, hs, rfl⟩, of_decide_eq_true hne⟩
  · rintro ⟨⟨s, hs, rfl⟩, hne⟩
    exact ⟨s, List.mem_filter.mpr ⟨hs, decide_eq_true hne⟩, rfl⟩

/-- The answer takes no torrent away. -/
def Within (m : Sessions) (answer : Answer) : Prop := ∀ m' ∈ answer.changed?, m.ids ⊆ m'.ids

theorem within_failed (e : CallError) : m.Within (.failed e) := nofun

theorem within_unchanged : m.Within .unchanged := nofun

theorem within_map (f : Session → Session) (hf : ∀ s, (f s).id = s.id) :
    m.Within (.changed (m.map f hf)) := by
  intro m' hm'
  rw [← Option.some.inj hm', ids_map]
  exact List.Subset.refl _

theorem within_insert (s : Session) (h : s.id ∉ m.ids) : m.Within (.changed (m.insert s h)) := by
  intro m' hm' id hid
  obtain ⟨t, ht, rfl⟩ := mem_ids.mp hid
  rw [← Option.some.inj hm', mem_ids]
  exact ⟨t, List.mem_append_left _ ht, rfl⟩

theorem addTorrent_within (disk : Files) (source : Bytes) (addedAt : Int64) :
    m.Within (m.addTorrent env disk source addedAt) := by
  unfold addTorrent
  split
  · exact within_failed _
  · dsimp only
    split
    · exact within_unchanged
    · split
      · exact within_failed _
      · exact within_insert _ _

theorem pauseTorrent_within (id : Bytes) : m.Within (m.pauseTorrent id) := by
  unfold pauseTorrent
  split
  · exact within_failed _
  · exact within_map _ _

theorem resumeTorrent_within (id : Bytes) : m.Within (m.resumeTorrent id) := by
  unfold resumeTorrent
  split
  · exact within_failed _
  · split
    · exact within_failed _
    · exact within_map _ _

theorem setFilePriority_within (id : Bytes) (fileIndex : Int) (priority : Int8) :
    m.Within (m.setFilePriority env id fileIndex priority) := by
  unfold setFilePriority
  split
  · exact within_failed _
  · split
    · exact within_failed _
    · split
      · exact within_failed _
      · split
        · exact within_failed _
        · rename_i tf _
          dsimp only
          generalize (if tf.info.files.length = 0 then 1 else tf.info.files.length) = fileCount
          split
          · exact within_failed _
          · exact within_map _ _

theorem setQueuePosition_within (id : Bytes) (newPos : Int64) :
    m.Within (m.setQueuePosition id newPos) := by
  unfold setQueuePosition
  split
  · exact within_failed _
  · dsimp only
    split
    · exact within_unchanged
    · exact within_map _ _

theorem swapQueuePositions_within {posA posB : Int64} {a b : Option Bytes} {answer : Answer}
    (h : m.swapQueuePositions posA posB a b = some answer) : m.Within answer := by
  unfold swapQueuePositions at h
  split at h
  · rw [← Option.some.inj h]
    exact within_map _ _
  · cases h

theorem queueUp_within {id : Bytes} {a b : Option Bytes} {answer : Answer}
    (h : m.queueUp id a b = some answer) : m.Within answer := by
  unfold queueUp at h
  split at h
  · exact Option.some.inj h ▸ within_failed _
  · split at h
    · exact Option.some.inj h ▸ within_unchanged
    · exact swapQueuePositions_within h

theorem queueDown_within {id : Bytes} {a b : Option Bytes} {answer : Answer}
    (h : m.queueDown id a b = some answer) : m.Within answer := by
  unfold queueDown at h
  split at h
  · exact Option.some.inj h ▸ within_failed _
  · split at h
    · exact Option.some.inj h ▸ within_unchanged
    · exact swapQueuePositions_within h

/-- `QueueBottom` moves a torrent that is not at the bottom, and writes positions only. -/
theorem queueBottom_changed {id : Bytes} (h : (m.queueBottom id).changed? = some m') :
    (∃ s ∈ m.get? id, s.position ≠ m.maxQueuePosition) ∧ ∃ f, m' = m.setPositions f := by
  unfold queueBottom at h
  dsimp only at h
  split at h
  · cases h
  · rename_i s hs
    split at h
    · cases h
    · rename_i hne
      exact ⟨⟨s, hs, hne⟩, _, (Option.some.inj h).symm⟩

theorem removeTorrent_changed {id : Bytes} {order : List Bytes} {answer : Answer}
    (h : m.removeTorrent id order = some answer) (hm' : answer.changed? = some m') :
    m' = (m.delete id).compactQueueLocked order := by
  unfold removeTorrent at h
  split_ifs at h
  · rw [← Option.some.inj h] at hm'
    exact (Option.some.inj hm').symm
  · rw [← Option.some.inj h] at hm'
    cases hm'

end Sessions

end Calls
end Stor.Engine
