import Stor.Engine.Calls

/-!
# What the calls save

The records in memory, as the calls change them, the copies of them that
`saveStateLocked` puts into the store, and the records that `Save` has written last.
The file always has the torrents that are in memory, with their priorities.  The
positions in the queue are those in memory as long as, since the records were last put
into the store, `QueueBottom` has moved no torrent and `RemoveTorrent` has left the
others where they were (`file_follows`): neither puts them.

A call is one step, and `Save` succeeds.  What the goroutines of the sessions write
to a record is one action; they do not touch the position and the priorities.
-/

namespace Stor.Engine
namespace Persist

open Lib Calls

/-- `file` has the records that were last written to the disk. -/
structure State where
  sessions : Sessions
  store : Store
  file : List TorrentRecord

/-- `orchestrate` is a round of `runQueueOrchestrator`, and `saveState` is called by the
ticker, by `onSessionDone` and by `Stop`. -/
inductive Action where
  | call (c : Call)
  | goroutine (s : Calls.Session)
  | saveState
  | orchestrate (order : List Bytes)

namespace State

/-- The sessions that `Start` restores from a store that was loaded. -/
def start (store : Store) : State where
  sessions := ⟨store.records.map Calls.Session.new, by rw [List.map_map]; exact store.nodup⟩
  store := store
  file := store.records

/-- `store.Save`. -/
def save (e : State) : State := { e with file := e.store.records }

def saveStateLocked (e : State) : State :=
  { e with store := (e.sessions.list.map Calls.Session.recordCopy).foldl Store.put e.store }.save

/-- How a call that has changed the sessions ends. -/
def persist (e : State) (m : Sessions) : Call → State
  -- `QueueBottom` returns without saving
  | .queueBottom _ => { e with sessions := m }
  -- the records of the other torrents are not put
  | .removeTorrent id _ => { e with sessions := m, store := e.store.delete id }.save
  | _ => { e with sessions := m }.saveStateLocked

def step (env : Env) (e : State) : Action → Option State
  | .call c =>
    (c.answer env e.sessions).map fun answer => answer.changed?.elim e fun m => e.persist m c
  | .goroutine s =>
    (e.sessions.get? s.id).bind fun t =>
      if t.position = s.position ∧ t.record.filePriorities = s.record.filePriorities then
        some { e with sessions := e.sessions.modify s.id (fun _ => s) fun _ _ => rfl }
      else none
  | .saveState => some e.saveStateLocked
  | .orchestrate order =>
    if e.sessions.isSorted order then
      some { e with sessions := e.sessions.compactQueueLocked order }.saveStateLocked
    else none

end State

/-! ## Agreement -/

variable {env : Env} {e e' : State} {m m' : Sessions} {c : Call} {a : Action} {β : Type}

/-- The file has the torrents that are in memory. -/
def SameIds (e : State) : Prop :=
  ∀ id, id ∈ e.file.map TorrentRecord.id ↔ id ∈ e.sessions.ids

/-- The records of one torrent have the same `v` in `rs` and in memory. -/
def Agree (v : TorrentRecord → β) (rs : List TorrentRecord) (m : Sessions) : Prop :=
  ∀ r ∈ rs, ∀ s ∈ m.list, r.id = s.id → v r = v s.record

instance [DecidableEq β] (v : TorrentRecord → β) (rs : List TorrentRecord) (m : Sessions) :
    Decidable (Agree v rs m) :=
  inferInstanceAs (Decidable (∀ r ∈ rs, ∀ s ∈ m.list, r.id = s.id → v r = v s.record))

/-- The call puts the records of all torrents when it changes one. -/
def puts : Call → Bool
  | .queueBottom _ | .removeTorrent _ _ => false
  | _ => true

/-- The action puts the records of all torrents and saves them. -/
def Saves (env : Env) (e : State) : Action → Prop
  | .call c => puts c = true ∧ ((c.answer env e.sessions).bind Answer.changed?).isSome = true
  | .goroutine _ => False
  | .saveState | .orchestrate _ => True

instance (env : Env) (e : State) : ∀ a, Decidable (Saves env e a)
  | .call _ => inferInstanceAs (Decidable (_ ∧ _))
  | .goroutine _ => isFalse not_false
  | .saveState | .orchestrate _ => isTrue trivial

/-- `QueueBottom` finds no torrent or one that is at the bottom, and `RemoveTorrent`
leaves every other torrent in its place. -/
def Quiet (e : State) : Action → Prop
  | .call (.queueBottom id) =>
    ∀ s ∈ e.sessions.get? id, s.position = e.sessions.maxQueuePosition
  | .call (.removeTorrent id order) =>
    ∀ s ∈ (e.sessions.delete id).list, s.position = Int64.ofNat (order.idxOf s.id)
  | _ => True

instance (e : State) : ∀ a, Decidable (Quiet e a)
  | .call (.queueBottom _) => Option.decidableForallMem _
  | .call (.removeTorrent _ _) => List.decidableBAll _ _
  | .call (.addTorrent _ _ _) | .call (.pauseTorrent _) | .call (.resumeTorrent _)
  | .call (.setFilePriority _ _ _) | .call (.queueTop _) | .call (.queueUp _ _ _)
  | .call (.queueDown _ _ _) | .goroutine _ | .saveState | .orchestrate _ => isTrue trivial

/-! ## What the steps do to the file -/

/-- Only `RemoveTorrent` takes a torrent away. -/
theorem answer_within {answer : Answer} (hputs : puts c = true)
    (h : c.answer env m = some answer) : m.Within answer := by
  cases c with
  | addTorrent disk source addedAt =>
    exact Option.some.inj h ▸ Sessions.addTorrent_within disk source addedAt
  | removeTorrent id order => cases hputs
  | pauseTorrent id => exact Option.some.inj h ▸ Sessions.pauseTorrent_within id
  | resumeTorrent id => exact Option.some.inj h ▸ Sessions.resumeTorrent_within id
  | setFilePriority id fileIndex priority =>
    exact Option.some.inj h ▸ Sessions.setFilePriority_within id fileIndex priority
  | queueTop id => exact Option.some.inj h ▸ Sessions.setQueuePosition_within id 0
  | queueUp id a b => exact Sessions.queueUp_within h
  | queueDown id a b => exact Sessions.queueDown_within h
  | queueBottom id => cases hputs

/-- What one step does: nothing that the file has, a change that is put and saved, a
silent move, or a removal. -/
inductive Steps (env : Env) (e : State) : Action → State → Prop
  | unchanged (c : Call) (hnone : (c.answer env e.sessions).bind Answer.changed? = none) :
      Steps env e (.call c) e
  | written (s t : Calls.Session) (ht : t ∈ e.sessions.list) (hid : t.id = s.id)
      (hposition : t.position = s.position)
      (hpriorities : t.record.filePriorities = s.record.filePriorities) :
      Steps env e (.goroutine s)
        { e with sessions := e.sessions.modify s.id (fun _ => s) fun _ _ => rfl }
  | saved (a : Action) (m : Sessions) (hids : e.sessions.ids ⊆ m.ids) :
      Steps env e a { e with sessions := m }.saveStateLocked
  | bottom (id : Bytes) (f : Calls.Session → Int64)
      (hmoves : ∃ s ∈ e.sessions.get? id, s.position ≠ e.sessions.maxQueuePosition) :
      Steps env e (.call (.queueBottom id)) { e with sessions := e.sessions.setPositions f }
  | removed (id : Bytes) (order : List Bytes) :
      Steps env e (.call (.removeTorrent id order))
        { e with
          sessions := (e.sessions.delete id).compactQueueLocked order
          store := e.store.delete id }.save

theorem persist_of_puts (h : puts c = true) :
    e.persist m c = { e with sessions := m }.saveStateLocked := by
  cases c with
  | removeTorrent id order => cases h
  | queueBottom id => cases h
  | addTorrent disk source addedAt => rfl
  | pauseTorrent id => rfl
  | resumeTorrent id => rfl
  | setFilePriority id fileIndex priority => rfl
  | queueTop id => rfl
  | queueUp id a b => rfl
  | queueDown id a b => rfl

theorem steps_call (h : e.step env (.call c) = some e') : Steps env e (.call c) e' := by
  obtain ⟨answer, hanswer, hend⟩ := Option.map_eq_some_iff.mp h
  cases hchanged : answer.changed? with
  | none =>
    rw [hchanged] at hend
    refine hend ▸ .unchanged c ?_
    rw [hanswer]
    exact hchanged
  | some m =>
    rw [hchanged] at hend
    replace hend : e.persist m c = e' := hend
    by_cases hputs : puts c = true
    · rw [persist_of_puts hputs] at hend
      exact hend ▸ .saved _ m (answer_within hputs hanswer m hchanged)
    · cases c with
      | queueBottom id =>
        rw [← Option.some.inj hanswer] at hchanged
        obtain ⟨hmoves, f, rfl⟩ := Sessions.queueBottom_changed hchanged
        exact hend ▸ .bottom id f hmoves
      | removeTorrent id order =>
        rw [Sessions.removeTorrent_changed hanswer hchanged] at hend
        exact hend ▸ .removed id order
      | _ => exact absurd rfl hputs

theorem steps_of_step (h : e.step env a = some e') : Steps env e a e' := by
  cases a with
  | call c => exact steps_call h
  | goroutine s =>
    obtain ⟨t, ht, h⟩ := Option.bind_eq_some_iff.mp h
    obtain ⟨hmem, hid⟩ := Sessions.mem_of_get? ht
    split at h
    · rename_i hsame
      rw [← Option.some.inj h]
      exact .written s t hmem hid hsame.1 hsame.2
    · cases h
  | saveState => exact Option.some.inj h ▸ .saved _ e.sessions (List.Subset.refl _)
  | orchestrate order =>
    replace h : (if e.sessions.isSorted order then
      some { e with sessions := e.sessions.compactQueueLocked order }.saveStateLocked
      else none) = some e' := h
    split at h
    · rw [← Option.some.inj h]
      exact .saved _ _ (Sessions.ids_setPositions _ _ ▸ List.Subset.refl _)
    · cases h

/-! ## Agreement along a run -/

/-- Every session of `m'` is one of `m` with the same `v`. -/
def Keeps (v : TorrentRecord → β) (m m' : Sessions) : Prop :=
  ∀ s' ∈ m'.list, ∃ s ∈ m.list, s.id = s'.id ∧ v s.record = v s'.record

theorem Agree.keeps {v : TorrentRecord → β} {rs rs' : List TorrentRecord} (h : Agree v rs m)
    (hrs : rs' ⊆ rs) (hkeeps : Keeps v m m') : Agree v rs' m' := by
  intro r hr s' hs' hid
  obtain ⟨s, hs, hsid, hv⟩ := hkeeps s' hs'
  rw [h r (hrs hr) s hs (hid.trans hsid.symm), hv]

theorem keeps_written {v : TorrentRecord → β} {s t : Calls.Session} (ht : t ∈ m.list)
    (hid : t.id = s.id) (hv : v t.record = v s.record) : Keeps v m (m.modify s.id (fun _ => s) fun _ _ => rfl) := by
  intro s' hs'
  obtain ⟨u, hu, rfl⟩ := Sessions.mem_map.mp hs'
  split
  · exact ⟨t, ht, hid, hv⟩
  · exact ⟨u, hu, rfl, rfl⟩

theorem keeps_setPositions (f : Calls.Session → Int64) :
    Keeps TorrentRecord.filePriorities m (m.setPositions f) := by
  intro s' hs'
  obtain ⟨s, hs, rfl⟩ := Sessions.mem_setPositions.mp hs'
  exact ⟨s, hs, rfl, rfl⟩

theorem keeps_delete (v : TorrentRecord → β) (id : Bytes) : Keeps v m (m.delete id) :=
  fun s hs => ⟨s, List.mem_of_mem_filter hs, rfl, rfl⟩

theorem Keeps.trans {v : TorrentRecord → β} {m'' : Sessions} (h : Keeps v m m')
    (h' : Keeps v m' m'') : Keeps v m m'' := by
  intro s'' hs''
  obtain ⟨s', hs', hid', hv'⟩ := h' s'' hs''
  obtain ⟨s, hs, hid, hv⟩ := h s' hs'
  exact ⟨s, hs, hid.trans hid', hv.trans hv'⟩

/-- Sessions that are where the compaction puts them stay there. -/
theorem keeps_compact {order : List Bytes}
    (h : ∀ s ∈ m.list, s.position = Int64.ofNat (order.idxOf s.id)) :
    Keeps TorrentRecord.queuePosition m (m.compactQueueLocked order) := by
  intro s' hs'
  obtain ⟨s, hs, rfl⟩ := Sessions.mem_setPositions.mp hs'
  exact ⟨s, hs, rfl, h s hs⟩

/-- A save leaves in the store what is in memory and nothing else. -/
theorem mem_saveStateLocked (hids : e.store.records.map TorrentRecord.id ⊆ e.sessions.ids)
    (r : TorrentRecord) :
    r ∈ e.saveStateLocked.store.records ↔ ∃ s ∈ e.sessions.list, s.recordCopy = r := by
  have hcopies : (e.sessions.list.map Calls.Session.recordCopy).map TorrentRecord.id =
      e.sessions.ids := List.map_map
  have hnodup : ((e.sessions.list.map Calls.Session.recordCopy).map TorrentRecord.id).Nodup :=
    hcopies ▸ e.sessions.nodup
  show r ∈ ((e.sessions.list.map Calls.Session.recordCopy).foldl Store.put e.store).records ↔ _
  rw [Store.mem_foldl_put_iff hnodup, hcopies, List.mem_map]
  exact or_iff_left fun hold => hold.2 (hids (List.mem_map_of_mem hold.1))

theorem agree_saveStateLocked (v : TorrentRecord → β)
    (hv : ∀ s : Calls.Session, v s.recordCopy = v s.record)
    (hids : e.store.records.map TorrentRecord.id ⊆ e.sessions.ids) :
    Agree v e.saveStateLocked.store.records e.sessions := by
  intro r hr s hs hid
  obtain ⟨t, ht, rfl⟩ := (mem_saveStateLocked hids r).mp hr
  rw [Sessions.eq_of_id ht hs hid, hv]

/-- What holds in every state that is reached. -/
structure Inv (e : State) : Prop where
  written : e.file = e.store.records
  ids : ∀ id, id ∈ e.store.records.map TorrentRecord.id ↔ id ∈ e.sessions.ids
  priorities : Agree TorrentRecord.filePriorities e.store.records e.sessions

theorem Inv.saved (hids : e.store.records.map TorrentRecord.id ⊆ e.sessions.ids) :
    Inv e.saveStateLocked where
  written := rfl
  ids := by
    intro id
    rw [List.mem_map, Sessions.mem_ids]
    constructor
    · rintro ⟨r, hr, rfl⟩
      obtain ⟨s, hs, rfl⟩ := (mem_saveStateLocked hids r).mp hr
      exact ⟨s, hs, rfl⟩
    · rintro ⟨s, hs, rfl⟩
      exact ⟨s.recordCopy, (mem_saveStateLocked hids _).mpr ⟨s, hs, rfl⟩, rfl⟩
  priorities := agree_saveStateLocked _ (fun _ => rfl) hids

theorem Inv.subset (h : Inv e) (hids : e.sessions.ids ⊆ m.ids) :
    e.store.records.map TorrentRecord.id ⊆ m.ids :=
  fun _ hid => hids ((h.ids _).mp hid)

theorem Inv.removed (h : Inv e) (id : Bytes) (order : List Bytes) :
    Inv { e with
      sessions := (e.sessions.delete id).compactQueueLocked order
      store := e.store.delete id }.save where
  written := rfl
  ids := by
    intro id'
    show id' ∈ (e.store.delete id).records.map TorrentRecord.id ↔
      id' ∈ ((e.sessions.delete id).compactQueueLocked order).ids
    rw [Sessions.compactQueueLocked, Sessions.ids_setPositions, Sessions.mem_ids_delete, ← h.ids,
      List.mem_map, List.mem_map]
    constructor
    · rintro ⟨r, hr, rfl⟩
      obtain ⟨hr, hne⟩ := Store.mem_delete.mp hr
      exact ⟨⟨r, hr, rfl⟩, hne⟩
    · rintro ⟨⟨r, hr, rfl⟩, hne⟩
      exact ⟨r, Store.mem_delete.mpr ⟨hr, hne⟩, rfl⟩
  priorities := h.priorities.keeps (fun _ hr => (Store.mem_delete.mp hr).1)
    ((keeps_delete _ id).trans (keeps_setPositions _))

theorem Inv.step (h : Inv e) (hstep : Steps env e a e') : Inv e' := by
  cases hstep with
  | unchanged c hnone => exact h
  | written s t ht hid hposition hpriorities =>
    refine ⟨h.written, fun id => ?_, h.priorities.keeps (List.Subset.refl _) ?_⟩
    · exact (h.ids id).trans (by rw [Sessions.modify, Sessions.ids_map])
    · exact keeps_written ht hid hpriorities
  | saved a m hids => exact .saved (h.subset hids)
  | bottom id f hmoves =>
    refine ⟨h.written, fun id => ?_, h.priorities.keeps (List.Subset.refl _) ?_⟩
    · exact (h.ids id).trans (by rw [Sessions.ids_setPositions])
    · exact keeps_setPositions f
  | removed id order => exact h.removed id order

theorem agree_start (v : TorrentRecord → β) (store : Store) :
    Agree v store.records (State.start store).sessions := by
  intro r hr s hs hid
  obtain ⟨q, hq, rfl⟩ := List.mem_map.mp hs
  rw [List.inj_on_of_nodup_map store.nodup hr hq hid]
  rfl

theorem Inv.start (store : Store) : Inv (.start store) where
  written := rfl
  ids := by
    intro id
    show _ ↔ id ∈ (store.records.map Calls.Session.new).map Calls.Session.id
    rw [List.map_map]
    rfl
  priorities := agree_start _ store

/-- The positions in the store are those in memory behind a step that saves, and stay
so behind a quiet one. -/
theorem positions_step (h : Inv e)
    (hok : Saves env e a ∨
      Agree TorrentRecord.queuePosition e.store.records e.sessions ∧ Quiet e a)
    (hstep : Steps env e a e') :
    Agree TorrentRecord.queuePosition e'.store.records e'.sessions := by
  cases hstep with
  | unchanged c hnone =>
    refine (hok.resolve_left fun hsaves => ?_).1
    have hsome := hsaves.2
    rw [hnone] at hsome
    cases hsome
  | written s t ht hid hposition hpriorities =>
    obtain ⟨hagree, -⟩ := hok.resolve_left not_false
    exact hagree.keeps (List.Subset.refl _) (keeps_written ht hid hposition)
  | saved a m hids => exact agree_saveStateLocked _ (fun _ => rfl) (h.subset hids)
  | bottom id f hmoves =>
    obtain ⟨-, hquiet⟩ := hok.resolve_left fun hsaves => Bool.false_ne_true hsaves.1
    obtain ⟨s, hs, hne⟩ := hmoves
    exact absurd (hquiet s hs) hne
  | removed id order =>
    obtain ⟨hagree, hquiet⟩ := hok.resolve_left fun hsaves => Bool.false_ne_true hsaves.1
    exact hagree.keeps (fun _ hr => (Store.mem_delete.mp hr).1)
      ((keeps_delete _ id).trans (keeps_compact hquiet))

/-- After every run the file has the torrents that are in memory, with their priorities.
It has their positions when all records have been put since a torrent was last moved
without a save. -/
theorem file_follows (env : Env) (store : Store) (as : List Action) (e : State)
    (hrun : exec (State.step env) (.start store) as = some e) :
    SameIds e ∧ Agree TorrentRecord.filePriorities e.file e.sessions ∧
      (Since (State.step env) (Saves env) Quiet True (.start store) as →
        Agree TorrentRecord.queuePosition e.file e.sessions) := by
  have hinv : ∀ s a t, Inv s → State.step env s a = some t → Inv t :=
    fun _ _ _ hs hstep => hs.step (steps_of_step hstep)
  have hend : Inv e :=
    exec_invariant (fun s a t hs _ => hinv s a t hs) (Inv.start store)
      (guarded_of_forall (fun _ _ => trivial) _ as) hrun
  unfold SameIds
  rw [hend.written]
  refine ⟨hend.ids, hend.priorities, fun hsince => ?_⟩
  exact hsince.exec hinv (fun _ _ _ hs hok hstep => positions_step hs hok (steps_of_step hstep))
    (Inv.start store) (fun _ => agree_start _ store) hrun

/-- A paused torrent at `position`. -/
def queuedAt (id : String) (position : Int64) : TorrentRecord where
  id := ascii id
  name := ascii "t"
  source := ascii "t.torrent"
  savePath := []
  totalBytes := 5
  state := .paused
  queuePosition := position
  addedAt := 1
  completedAt := 0
  torrentData :=
    some (ascii "d4:infod6:lengthi5e4:name1:t12:piece lengthi5e6:pieces0:ee")
  bitfield := none
  filePriorities := []
  error := []
  knownPeers := 0

/-- Two torrents in the queue. -/
def twoQueued : Store := ⟨[queuedAt "a" 0, queuedAt "b" 1], by decide⟩

/-- A torrent moves to the bottom without a save.  Resuming it saves, and removing it
there moves no other. -/
def moveAndResume : List Action :=
  [.call (.queueBottom (ascii "a")),
    .call (.resumeTorrent (ascii "a")),
    .call (.setFilePriority (ascii "b") 0 (-1)),
    .call (.removeTorrent (ascii "a") [ascii "b"])]

theorem file_follows_moveAndResume :
    ∃ e, exec (State.step Session.plainEnv) (.start twoQueued) moveAndResume = some e ∧
      e.file.map (fun r => (r.id, r.queuePosition, r.filePriorities)) =
        [(ascii "b", 0, [-1])] ∧
      SameIds e ∧ Agree TorrentRecord.filePriorities e.file e.sessions ∧
      Agree TorrentRecord.queuePosition e.file e.sessions := by
  obtain ⟨e, he, hfile⟩ : ∃ e,
      exec (State.step Session.plainEnv) (.start twoQueued) moveAndResume = some e ∧
      e.file.map (fun r => (r.id, r.queuePosition, r.filePriorities)) = [(ascii "b", 0, [-1])] := by
    decide +kernel
  have hsince : Since (State.step Session.plainEnv) (Saves Session.plainEnv) Quiet
      True (.start twoQueued) moveAndResume := by decide +kernel
  obtain ⟨hids, hpriorities, hpositions⟩ :=
    file_follows Session.plainEnv twoQueued moveAndResume e he
  exact ⟨e, he, hfile, hids, hpriorities, hpositions hsince⟩

/-- After `QueueBottom` the file still has the old order. -/
theorem not_file_follows_queueBottom :
    ¬ ∀ (env : Env) (store : Store) (as : List Action) (e : State) (c : Call) (e' : State),
      exec (State.step env) (.start store) as = some e → e.step env (.call c) = some e' →
      SameIds e' ∧ Agree TorrentRecord.filePriorities e'.file e'.sessions ∧
        Agree TorrentRecord.queuePosition e'.file e'.sessions := by
  intro hall
  obtain ⟨e, he, hnot⟩ : ∃ e,
      (State.start twoQueued).step Session.plainEnv (.call (.queueBottom (ascii "a"))) = some e ∧
        ¬Agree TorrentRecord.queuePosition e.file e.sessions := by decide +kernel
  obtain ⟨-, -, hagree⟩ := hall Session.plainEnv twoQueued [] _ _ e rfl he
  exact hnot hagree

end Persist
end Stor.Engine
