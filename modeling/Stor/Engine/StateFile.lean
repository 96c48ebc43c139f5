import Stor.Engine.Record
import Stor.Lib.Json

/-!
# The state file

`TorrentRecord` of `engine/store.go` with all its fields, the JSON value that `Save`
writes for the records, and `Load`.  A record comes back as it was exactly when its
strings are valid UTF-8 (`load_saved_iff`): the others come back with U+FFFD for
every byte that is not part of a character.

The records of a store are a map.  `Save` writes them in the order in which its loop
over the map finds them.
-/

namespace Stor.Engine

open Lib Json

namespace TorrentState

/-- The text of the constant. -/
def text : TorrentState → Bytes
  | .adding => ascii "adding"
  | .metadata => ascii "metadata"
  | .verifying => ascii "verifying"
  | .downloading => ascii "downloading"
  | .seeding => ascii "seeding"
  | .complete => ascii "complete"
  | .paused => ascii "paused"
  | .error => ascii "error"

def all : List TorrentState :=
  [.adding, .metadata, .verifying, .downloading, .seeding, .complete, .paused, .error]

def ofText (s : Bytes) : Option TorrentState := all.find? fun state => state.text = s

theorem ofText_text (state : TorrentState) : ofText state.text = some state := by
  cases state <;> decide

theorem validUtf8_text (state : TorrentState) : validUtf8 state.text = true := by
  cases state <;> decide

end TorrentState

/-- A nil slice of bytes is `none`; the priorities are read by their length alone. -/
structure TorrentRecord where
  id : Bytes
  name : Bytes
  source : Bytes
  savePath : Bytes
  totalBytes : Int64
  state : TorrentState
  queuePosition : Int64
  addedAt : Int64
  completedAt : Int64
  torrentData : Option Bytes
  bitfield : Option Bytes
  filePriorities : List Int8
  error : Bytes
  knownPeers : Int64
  deriving DecidableEq

namespace TorrentRecord

def fields (r : TorrentRecord) : List (String × Json) :=
  [("id", string r.id), ("name", string r.name), ("source", string r.source),
    ("save_path", string r.savePath), ("total_bytes", .num r.totalBytes.toInt),
    ("state", string r.state.text), ("queue_position", .num r.queuePosition.toInt),
    ("added_at", .num r.addedAt.toInt), ("completed_at", .num r.completedAt.toInt),
    ("torrent_data", bytes r.torrentData), ("bitfield", bytes r.bitfield)] ++
  omitEmpty (r.filePriorities = []) "file_priorities"
    (.arr (r.filePriorities.map fun p => .num p.toInt)) ++
  omitEmpty (r.error = []) "error" (string r.error) ++
  omitEmpty (r.knownPeers = 0) "known_peers" (.num r.knownPeers.toInt)

/-- The value that `json.MarshalIndent` writes. -/
def marshal (r : TorrentRecord) : Json := .obj r.fields

/-- A state other than those of the source is not represented. -/
def readState (j : Json) : Option TorrentState := (readString j).bind TorrentState.ofText

def unmarshal : Json → Option TorrentRecord
  | .obj fields => do
      let id ← field fields "id" [] readString
      let name ← field fields "name" [] readString
      let source ← field fields "source" [] readString
      let savePath ← field fields "save_path" [] readString
      let totalBytes ← field fields "total_bytes" 0 readInt64
      let state ← field fields "state" none fun j => (readState j).map some
      let state ← state
      let queuePosition ← field fields "queue_position" 0 readInt64
      let addedAt ← field fields "added_at" 0 readInt64
      let completedAt ← field fields "completed_at" 0 readInt64
      let torrentData ← field fields "torrent_data" none readBytes
      let bitfield ← field fields "bitfield" none readBytes
      let filePriorities ← field fields "file_priorities" [] (readList readInt8)
      let error ← field fields "error" [] readString
      let knownPeers ← field fields "known_peers" 0 readInt64
      some { id, name, source, savePath, totalBytes, state, queuePosition, addedAt, completedAt,
             torrentData, bitfield, filePriorities, error, knownPeers }
  | _ => none

/-- The record with its strings coerced to UTF-8. -/
def coerced (r : TorrentRecord) : TorrentRecord :=
  { r with
    id := toValidUtf8 r.id
    name := toValidUtf8 r.name
    source := toValidUtf8 r.source
    savePath := toValidUtf8 r.savePath
    error := toValidUtf8 r.error }

def validText (r : TorrentRecord) : Bool :=
  validUtf8 r.id && validUtf8 r.name && validUtf8 r.source && validUtf8 r.savePath && validUtf8 r.error

theorem coerced_eq_iff {r : TorrentRecord} : r.coerced = r ↔ r.validText = true := by
  cases r with
  | mk id name source savePath _ _ _ _ _ _ _ _ error _ =>
    simp only [coerced, validText, mk.injEq, Bool.and_eq_true, toValidUtf8_eq_iff, and_true, true_and,
      and_assoc]

theorem validText_coerced (r : TorrentRecord) : r.coerced.validText = true := by
  simp only [coerced, validText, validUtf8_toValidUtf8, Bool.and_self]

/-! ## Round trip -/

theorem field_state (r : TorrentRecord) :
    field r.fields "state" none (fun j => (readState j).map some) = some (some r.state) := by
  have hmem : member r.fields "state" = some (string r.state.text) := by simp [fields]
  rw [field, hmem]
  show ((TorrentState.ofText (toValidUtf8 r.state.text)).map some) = _
  rw [toValidUtf8_eq_iff.mpr r.state.validUtf8_text, TorrentState.ofText_text]
  rfl

theorem field_filePriorities (r : TorrentRecord) :
    field r.fields "file_priorities" [] (readList readInt8) = some r.filePriorities := by
  have hmem : member r.fields "file_priorities" = if r.filePriorities = [] then none
      else some (.arr (r.filePriorities.map fun p => .num p.toInt)) := by simp [fields]
  by_cases hnil : r.filePriorities = []
  · rw [if_pos hnil] at hmem
    rw [field_none hmem, hnil]
  · rw [if_neg hnil] at hmem
    rw [field, hmem]
    exact readList_map readInt8_toInt r.filePriorities

theorem field_error (r : TorrentRecord) :
    field r.fields "error" [] readString = some (toValidUtf8 r.error) := by
  have hmem : member r.fields "error" = if r.error = [] then none else some (string r.error) := by
    simp [fields]
  by_cases hnil : r.error = []
  · rw [if_pos hnil] at hmem
    rw [field_none hmem, hnil]
    rfl
  · rw [if_neg hnil] at hmem
    exact field_string hmem

theorem field_knownPeers (r : TorrentRecord) :
    field r.fields "known_peers" 0 readInt64 = some r.knownPeers := by
  have hmem : member r.fields "known_peers" = if r.knownPeers = 0 then none
      else some (.num r.knownPeers.toInt) := by simp [fields]
  by_cases hzero : r.knownPeers = 0
  · rw [if_pos hzero] at hmem
    rw [field_none hmem, hzero]
  · rw [if_neg hzero] at hmem
    exact field_int64 hmem

/-- What is written for a record is read as the record with its strings coerced. -/
theorem unmarshal_marshal (r : TorrentRecord) : unmarshal r.marshal = some r.coerced := by
  have hid : member r.fields "id" = some (string r.id) := by simp [fields]
  have hname : member r.fields "name" = some (string r.name) := by simp [fields]
  have hsource : member r.fields "source" = some (string r.source) := by simp [fields]
  have hsavePath : member r.fields "save_path" = some (string r.savePath) := by simp [fields]
  have htotalBytes : member r.fields "total_bytes" = some (.num r.totalBytes.toInt) := by
    simp [fields]
  have hqueuePosition : member r.fields "queue_position" = some (.num r.queuePosition.toInt) := by
    simp [fields]
  have haddedAt : member r.fields "added_at" = some (.num r.addedAt.toInt) := by simp [fields]
  have hcompletedAt : member r.fields "completed_at" = some (.num r.completedAt.toInt) := by
    simp [fields]
  have htorrentData : member r.fields "torrent_data" = some (bytes r.torrentData) := by simp [fields]
  have hbitfield : member r.fields "bitfield" = some (bytes r.bitfield) := by simp [fields]
  simp only [marshal, unmarshal, field_string hid, field_string hname, field_string hsource,
    field_string hsavePath, field_int64 htotalBytes, field_state, field_int64 hqueuePosition,
    field_int64 haddedAt, field_int64 hcompletedAt, field_bytes htorrentData, field_bytes hbitfield,
    field_filePriorities, field_error, field_knownPeers, bind, Option.bind_some]
  rfl

end TorrentRecord

/-! ## The store -/

/-- The map of the store, with the records in some order. -/
structure Store where
  records : List TorrentRecord
  nodup : (records.map TorrentRecord.id).Nodup

inductive LoadError where
  | readFailed
  | unmarshalFailed
  deriving DecidableEq, Repr

/-- What `os.ReadFile` returns for the state file. -/
inductive ReadFile where
  | notExist
  | failed
  | data (j : Json)

namespace Store

/-- `NewStore`. -/
def new : Store := ⟨[], List.nodup_nil⟩

/-- `records[r.ID] = r`. -/
def put (s : Store) (r : TorrentRecord) : Store where
  records := s.records.filter (fun q => q.id ≠ r.id) ++ [r]
  nodup := by
    rw [List.map_append, List.nodup_append]
    refine ⟨s.nodup.sublist (List.filter_sublist.map _), List.nodup_singleton _, ?_⟩
    intro id hid id' hid' heq
    obtain ⟨q, hq, rfl⟩ := List.mem_map.mp hid
    obtain rfl : id' = r.id := List.mem_singleton.mp hid'
    exact of_decide_eq_true (List.mem_filter.mp hq).2 heq

def delete (s : Store) (id : Bytes) : Store where
  records := s.records.filter fun q => q.id ≠ id
  nodup := s.nodup.sublist (List.filter_sublist.map _)

/-- What `Save` writes when its loop finds the records in the order `rs`. -/
def saved (rs : List TorrentRecord) : Json := .arr (rs.map TorrentRecord.marshal)

def unmarshalRecords : Json → Option (List TorrentRecord)
  | .null => some []
  | j => readList TorrentRecord.unmarshal j

def load (s : Store) : ReadFile → Except LoadError Store
  | .notExist => .ok s
  | .failed => .error .readFailed
  | .data j =>
    match unmarshalRecords j with
    | none => .error .unmarshalFailed
    | some rs => .ok (rs.foldl put new)

theorem unmarshalRecords_saved (rs : List TorrentRecord) :
    unmarshalRecords (saved rs) = some (rs.map TorrentRecord.coerced) := by
  show (rs.map TorrentRecord.marshal).mapM TorrentRecord.unmarshal = _
  rw [List.mapM_map]
  induction rs with
  | nil => rfl
  | cons r rs ih => simp [TorrentRecord.unmarshal_marshal, ih]

/-- Records of other IDs are added behind those that are there. -/
theorem foldl_put_records {s : Store} {rs : List TorrentRecord}
    (h : ((s.records ++ rs).map TorrentRecord.id).Nodup) :
    (rs.foldl put s).records = s.records ++ rs := by
  induction rs generalizing s with
  | nil => rw [List.append_nil]; rfl
  | cons r rs ih =>
    have hput : (s.put r).records = s.records ++ [r] := by
      show s.records.filter (fun q => q.id ≠ r.id) ++ [r] = _
      congr 1
      rw [List.filter_eq_self]
      intro q hq
      rw [List.map_append, List.nodup_append] at h
      exact decide_eq_true fun heq =>
        h.2.2 q.id (List.mem_map_of_mem hq) r.id (List.mem_cons_self) heq
    rw [List.foldl_cons, ih, hput, List.append_assoc]
    · rfl
    · rw [hput, List.append_assoc]
      exact h

theorem mem_foldl_put {s : Store} {rs : List TorrentRecord} {r : TorrentRecord}
    (h : r ∈ (rs.foldl put s).records) : r ∈ s.records ∨ r ∈ rs := by
  induction rs generalizing s with
  | nil => exact .inl h
  | cons q rs ih =>
    obtain h | h := ih h
    · obtain h | h := List.mem_append.mp h
      · exact .inl (List.mem_of_mem_filter h)
      · exact .inr (List.mem_singleton.mp h ▸ List.mem_cons_self)
    · exact .inr (List.mem_cons_of_mem q h)

theorem mem_put {s : Store} {q r : TorrentRecord} :
    r ∈ (s.put q).records ↔ r = q ∨ r ∈ s.records ∧ r.id ≠ q.id := by
  show r ∈ s.records.filter (fun q' => q'.id ≠ q.id) ++ [q] ↔ _
  rw [List.mem_append, List.mem_filter, List.mem_singleton, decide_eq_true_eq, or_comm]

theorem mem_delete {s : Store} {id : Bytes} {r : TorrentRecord} :
    r ∈ (s.delete id).records ↔ r ∈ s.records ∧ r.id ≠ id := by
  show r ∈ s.records.filter (fun q => q.id ≠ id) ↔ _
  rw [List.mem_filter, decide_eq_true_eq]

/-- The records that are put take the place of those with their IDs. -/
theorem mem_foldl_put_iff {s : Store} {rs : List TorrentRecord} {r : TorrentRecord}
    (h : (rs.map TorrentRecord.id).Nodup) :
    r ∈ (rs.foldl put s).records ↔ r ∈ rs ∨ r ∈ s.records ∧ r.id ∉ rs.map TorrentRecord.id := by
  induction rs generalizing s with
  | nil => simp
  | cons q rs ih =>
    obtain ⟨hq, hrs⟩ := List.nodup_cons.mp h
    rw [List.foldl_cons, ih hrs, mem_put, List.mem_cons, List.map_cons, List.mem_cons, not_or]
    constructor
    · rintro (hr | ⟨rfl | ⟨hr, hne⟩, hnot⟩)
      · exact .inl (.inr hr)
      · exact .inl (.inl rfl)
      · exact .inr ⟨hr, hne, hnot⟩
    · rintro ((rfl | hr) | ⟨hr, hne, hnot⟩)
      · exact .inr ⟨.inl rfl, hq⟩
      · exact .inl hr
      · exact .inr ⟨.inr ⟨hr, hne⟩, hnot⟩

/-- A fresh store reads the records that were saved exactly when their strings are
valid UTF-8. -/
theorem load_saved_iff (s : Store) (rs : List TorrentRecord) (hrs : rs.Perm s.records) :
    (∃ t, new.load (.data (saved rs)) = .ok t ∧ t.records.Perm s.records) ↔
      ∀ r ∈ s.records, r.validText = true := by
  have hload : new.load (.data (saved rs)) = .ok ((rs.map TorrentRecord.coerced).foldl put new) := by
    rw [load, unmarshalRecords_saved]
  constructor
  · intro h r hr
    obtain ⟨t, ht, hperm⟩ := h
    rw [hload, Except.ok.injEq] at ht
    rw [← hperm.mem_iff, ← ht] at hr
    obtain hr | hr := mem_foldl_put hr
    · cases hr
    · obtain ⟨q, -, rfl⟩ := List.mem_map.mp hr
      exact q.validText_coerced
  · intro hvalid
    refine ⟨_, hload, ?_⟩
    have hsame : rs.map TorrentRecord.coerced = rs := by
      refine (List.map_congr_left fun r hr => ?_).trans (List.map_id rs)
      exact TorrentRecord.coerced_eq_iff.mpr (hvalid r (hrs.mem_iff.mp hr))
    rw [hsame, foldl_put_records]
    · exact hrs
    · exact (hrs.map TorrentRecord.id).nodup_iff.mpr s.nodup

/-- A torrent that is called `name`. -/
def named (name : Bytes) : TorrentRecord where
  id := ascii "00"
  name := name
  source := ascii "a.torrent"
  savePath := name
  totalBytes := 5
  state := .seeding
  queuePosition := 0
  addedAt := 1
  completedAt := 2
  torrentData := some (ascii "de")
  bitfield := some [128]
  filePriorities := [0, -1]
  error := []
  knownPeers := 3

theorem load_saved_accent :
    ∃ t, new.load (.data (saved [named [0xC3, 0xA9]])) = .ok t ∧
      t.records.Perm [named [0xC3, 0xA9]] := by
  refine (load_saved_iff ⟨[named [0xC3, 0xA9]], by decide⟩ [named [0xC3, 0xA9]] (.refl _)).mpr ?_
  intro r hr
  rw [List.mem_singleton.mp hr]
  decide +kernel

/-- A name in Latin 1 does not come back. -/
theorem not_load_saved_latin :
    ¬ ∀ (s : Store) (rs : List TorrentRecord), rs.Perm s.records →
      ∃ t, new.load (.data (saved rs)) = .ok t ∧ t.records.Perm s.records := by
  intro hall
  obtain ⟨t, ht, hperm⟩ := hall ⟨[named [0xE9]], by decide⟩ [named [0xE9]] (.refl _)
  rw [load, unmarshalRecords_saved, Except.ok.injEq] at ht
  rw [← ht] at hperm
  have hne : ¬ (([named [0xE9]].map TorrentRecord.coerced).foldl put new).records.Perm
      [named [0xE9]] := by decide +kernel
  exact hne hperm

end Store

end Stor.Engine
