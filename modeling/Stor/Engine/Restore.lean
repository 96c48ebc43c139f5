import Stor.Engine.NoIdle
import Stor.Engine.StateFile
import Stor.Lib.Url

/-!
# Restart

The loop of `Engine.Start` over the persisted records.  A record in a download state
other than `StateAdding` is in the map, and counted, before the loop asks for a free
slot for it.  So it takes a slot whether it is started or not, and the last slot goes
to a record in `StateAdding` or to nobody (`restore_sessions`).  What the loop starts
is what it should exactly under the condition of `resumed_iff`.

The goroutines that the loop starts have not run yet.
-/

namespace Stor.Engine
namespace Control

open Lib

/-- `NewSession` with a persisted record, whose ID is the info hash in hex. -/
def Session.ofRecord (r : TorrentRecord) : Session where
  id := r.id
  infoHash := (hexDecode r.id).getD []
  listed := true
  state := r.state
  queuePosition := r.queuePosition.toInt
  cancel := none
  runs := []

/-- The records that `Start` resumes. -/
def autoResumed : TorrentState → Bool
  | .downloading | .metadata | .verifying | .adding | .seeding => true
  | _ => false

namespace State

def addSession (e : State) (s : Session) : State := { e with sessions := e.sessions ++ [s] }

/-- The body of the loop. -/
def restoreRecord (e : State) (r : TorrentRecord) : State :=
  let e' := e.addSession (Session.ofRecord r)
  if autoResumed r.state && e'.activeCount < e'.maxActive then
    e'.modify e.sessions.length Session.start
  else e'

/-- The loop of `Start`, with the records in the order of `store.All`. -/
def restore (maxActive : Nat) (records : List TorrentRecord) : State :=
  records.foldl restoreRecord (State.new maxActive)

end State

variable {e : State} {r : TorrentRecord} {records : List TorrentRecord} {maxActive : Nat}

/-- The records in a download state. -/
def downloads (records : List TorrentRecord) : List TorrentRecord :=
  records.filter fun r => isQueueActive r.state

/-- The loop has started as many downloads as it may, those at the front of the queue,
and the others can be started by `startQueuedLocked`. -/
structure Resumed (maxActive : Nat) (records : List TorrentRecord) : Prop where
  count : (State.restore maxActive records).sessions.countP
      (fun s => isQueueActive s.state && s.isRunning) = min maxActive (downloads records).length
  front : ∀ s ∈ (State.restore maxActive records).sessions,
    ∀ t ∈ (State.restore maxActive records).sessions,
      isQueueActive s.state = true → isQueueActive t.state = true → s.isRunning = true →
        t.isRunning = false → s.queuePosition ≤ t.queuePosition
  queued : ∀ t ∈ (State.restore maxActive records).sessions,
    isQueueActive t.state = true → t.isRunning = false → t.queued = true

/-- From the last slot on the downloads are in `StateAdding`, and those before the
limit are in front of those behind it. -/
def Resumable (maxActive : Nat) (records : List TorrentRecord) : Prop :=
  (∀ r ∈ (downloads records).drop (maxActive - 1), r.state = .adding) ∧
    ∀ r ∈ (downloads records).take maxActive, ∀ q ∈ (downloads records).drop maxActive,
      r.queuePosition.toInt ≤ q.queuePosition.toInt

instance (maxActive : Nat) (records : List TorrentRecord) : Decidable (Resumable maxActive records) :=
  inferInstanceAs (Decidable (_ ∧ _))

/-! ## The loop -/

/-- A record in a download state that comes with `n` before it is started. -/
def startsAt (maxActive n : Nat) (r : TorrentRecord) : Bool :=
  if r.state = .adding then n < maxActive else n + 1 < maxActive

/-- The session of the record with `n` downloads before it. -/
def sessionAt (maxActive n : Nat) (r : TorrentRecord) : Session :=
  if startsAt maxActive n r then (Session.ofRecord r).start else Session.ofRecord r

namespace State

theorem modify_addSession (e : State) (s : Session) (f : Session → Session) :
    (e.addSession s).modify e.sessions.length f = e.addSession (f s) := by
  show { e with sessions := (e.sessions ++ [s]).modify e.sessions.length f } = _
  rw [modify_append_length]
  rfl

theorem activeCount_addSession (e : State) (s : Session) :
    (e.addSession s).activeCount = e.activeCount + if s.counted then 1 else 0 := by
  show (e.sessions ++ [s]).countP Session.counted = _
  rw [List.countP_append, List.countP_singleton]
  rfl

/-- The session that the body of the loop adds. -/
theorem restoreRecord_eq (e : State) (r : TorrentRecord) :
    e.restoreRecord r = e.addSession
      (if autoResumed r.state && (e.addSession (Session.ofRecord r)).activeCount < e.maxActive then
        (Session.ofRecord r).start else Session.ofRecord r) := by
  simp only [restoreRecord, modify_addSession]
  show (if autoResumed r.state && _ < e.maxActive then _ else _) = _
  split <;> rfl

theorem restoreRecord_maxActive (e : State) (r : TorrentRecord) :
    (e.restoreRecord r).maxActive = e.maxActive := by
  rw [restoreRecord_eq]
  rfl

end State

theorem Session.counted_ofRecord (r : TorrentRecord) :
    (Session.ofRecord r).counted = (isQueueActive r.state && decide (r.state ≠ .adding)) := by
  simp only [Session.counted, Session.ofRecord, Session.isRunning]
  cases r.state <;> rfl

theorem Session.counted_start (r : TorrentRecord) :
    (Session.ofRecord r).start.counted = isQueueActive r.state := by
  simp only [Session.counted, Session.ofRecord, Session.start, Session.isRunning]
  cases r.state <;> rfl

/-- The number of active sessions with `n` downloads restored: none is left out before
the limit is reached. -/
def CountsUpTo (maxActive n : Nat) (e : State) : Prop :=
  (n ≤ maxActive → e.activeCount = n) ∧ (maxActive ≤ n → maxActive ≤ e.activeCount)

/-- A record in a download state. -/
theorem restoreRecord_download {n : Nat} (hmax : e.maxActive = maxActive)
    (hcount : CountsUpTo maxActive n e) (hr : isQueueActive r.state = true) :
    e.restoreRecord r = e.addSession (sessionAt maxActive n r) ∧
      CountsUpTo maxActive (n + 1) (e.restoreRecord r) := by
  obtain ⟨hle, hge⟩ := hcount
  have hauto : autoResumed r.state = true := by
    cases hs : r.state with
    | adding | metadata | verifying | downloading => rfl
    | _ => rw [hs] at hr; cases hr
  have heq : e.restoreRecord r = e.addSession (sessionAt maxActive n r) := by
    rw [State.restoreRecord_eq, State.activeCount_addSession, Session.counted_ofRecord, hauto, hr, hmax]
    unfold sessionAt startsAt
    congr 1
    by_cases hadding : r.state = .adding
    · simp only [hadding, ne_eq, not_true, decide_false, Bool.and_false, Bool.false_eq_true, if_false,
        if_true, Nat.add_zero, Bool.true_and, decide_eq_true_eq]
      congr 1
      apply propext
      omega
    · simp only [hadding, ne_eq, not_false_eq_true, decide_true, Bool.and_true, if_false,
        if_true, Bool.true_and, decide_eq_true_eq]
      congr 1
      apply propext
      omega
  refine ⟨heq, ?_⟩
  rw [heq, CountsUpTo, State.activeCount_addSession]
  have hcounted : (sessionAt maxActive n r).counted =
      decide (r.state ≠ .adding ∨ startsAt maxActive n r) := by
    unfold sessionAt
    split
    next h => rw [Session.counted_start, hr, h]; simp
    next h => rw [Session.counted_ofRecord, hr]; simp [h]
  rw [hcounted]
  unfold startsAt
  by_cases hadding : r.state = .adding
  · simp only [hadding, ne_eq, not_true, false_or, if_true, decide_eq_true_eq]
    split <;> omega
  · simp only [hadding, ne_eq, not_false_eq_true, true_or, decide_true, if_true]
    omega

/-- A record in another state. -/
theorem restoreRecord_other (e : State) (hr : isQueueActive r.state = false) :
    (e.restoreRecord r).activeCount = e.activeCount ∧
      ((e.restoreRecord r).sessions.filter fun s => isQueueActive s.state) =
        e.sessions.filter fun s => isQueueActive s.state := by
  rw [State.restoreRecord_eq]
  refine ⟨?_, ?_⟩
  · rw [State.activeCount_addSession]
    split
    · rw [Session.counted_start, hr]; rfl
    · rw [Session.counted_ofRecord, hr]; rfl
  · show (e.sessions ++ [_]).filter _ = _
    rw [List.filter_append, List.filter_cons_of_neg, List.filter_nil, List.append_nil]
    split
    · exact Bool.eq_false_iff.mp hr
    · exact Bool.eq_false_iff.mp hr

theorem sessionAt_state (maxActive n : Nat) (r : TorrentRecord) :
    (sessionAt maxActive n r).state = r.state := by
  unfold sessionAt
  split <;> rfl

theorem sessionAt_isRunning (maxActive n : Nat) (r : TorrentRecord) :
    (sessionAt maxActive n r).isRunning = startsAt maxActive n r := by
  unfold sessionAt
  split
  next h => rw [h]; rfl
  next h => rw [Bool.eq_false_iff.mpr h]; rfl

theorem sessionAt_queuePosition (maxActive n : Nat) (r : TorrentRecord) :
    (sessionAt maxActive n r).queuePosition = r.queuePosition.toInt := by
  unfold sessionAt
  split <;> rfl

/-- The sessions in a download state behind the loop. -/
theorem restore_sessions (maxActive : Nat) (records : List TorrentRecord) :
    (State.restore maxActive records).maxActive = maxActive ∧
      CountsUpTo maxActive (downloads records).length (State.restore maxActive records) ∧
      ((State.restore maxActive records).sessions.filter fun s => isQueueActive s.state) =
        (downloads records).mapIdx (sessionAt maxActive) := by
  induction records using List.reverseRecOn with
  | nil => exact ⟨rfl, ⟨fun _ => rfl, fun h => h⟩, rfl⟩
  | append_singleton records r ih =>
    obtain ⟨hmax, hcount, hsessions⟩ := ih
    have hstep : State.restore maxActive (records ++ [r]) =
        (State.restore maxActive records).restoreRecord r := List.foldl_concat ..
    rw [hstep, State.restoreRecord_maxActive]
    refine ⟨hmax, ?_⟩
    cases hr : isQueueActive r.state with
    | true =>
      have hdown : downloads (records ++ [r]) = downloads records ++ [r] := by
        rw [downloads, List.filter_append, List.filter_cons_of_pos (by exact hr)]
        rfl
      obtain ⟨heq, hcount'⟩ := restoreRecord_download hmax hcount hr
      rw [hdown, List.length_append, List.length_singleton, List.mapIdx_concat]
      refine ⟨hcount', ?_⟩
      rw [heq, ← hsessions]
      show (_ ++ [_]).filter _ = _
      rw [List.filter_append, List.filter_cons_of_pos (by rw [sessionAt_state]; exact hr)]
      rfl
    | false =>
      have hdown : downloads (records ++ [r]) = downloads records := by
        rw [downloads, List.filter_append, List.filter_cons_of_neg (by rw [hr]; exact Bool.false_ne_true)]
        exact List.append_nil _
      obtain ⟨hsame, hfilter⟩ := restoreRecord_other (State.restore maxActive records) hr
      rw [hdown, hfilter, CountsUpTo, hsame]
      exact ⟨hcount, hsessions⟩

/-! ## What is resumed -/

/-- A session in a download state comes from a record with `n` downloads before it. -/
theorem mem_restore {s : Session} :
    (s ∈ (State.restore maxActive records).sessions ∧ isQueueActive s.state = true) ↔
      ∃ (n : Nat) (r : TorrentRecord), (downloads records)[n]? = some r ∧ s = sessionAt maxActive n r := by
  have hfilter : s ∈ (State.restore maxActive records).sessions.filter
      (fun s => isQueueActive s.state) ↔
      s ∈ (State.restore maxActive records).sessions ∧ isQueueActive s.state = true := List.mem_filter
  rw [(restore_sessions maxActive records).2.2, List.mem_iff_getElem?] at hfilter
  rw [← hfilter]
  constructor
  · intro h
    obtain ⟨n, hn⟩ := h
    rw [List.getElem?_mapIdx] at hn
    obtain ⟨r, hr, heq⟩ := Option.map_eq_some_iff.mp hn
    exact ⟨n, r, hr, heq.symm⟩
  · intro h
    obtain ⟨n, r, hr, rfl⟩ := h
    exact ⟨n, by rw [List.getElem?_mapIdx, hr]; rfl⟩

theorem sessionAt_mem {n : Nat} (maxActive : Nat) (hr : (downloads records)[n]? = some r) :
    sessionAt maxActive n r ∈ (State.restore maxActive records).sessions ∧
      isQueueActive (sessionAt maxActive n r).state = true :=
  mem_restore.mpr ⟨n, r, hr, rfl⟩

theorem mem_drop {n m : Nat} (hr : (downloads records)[n]? = some r) (hn : m ≤ n) :
    r ∈ (downloads records).drop m := by
  apply List.mem_of_getElem? (i := n - m)
  rw [List.getElem?_drop, Nat.add_sub_cancel' hn, hr]

theorem mem_take {n m : Nat} (hr : (downloads records)[n]? = some r) (hn : n < m) :
    r ∈ (downloads records).take m := by
  apply List.mem_of_getElem? (i := n)
  rw [List.getElem?_take_of_lt hn, hr]

namespace Resumed

variable (h : Resumed maxActive records)
include h

/-- Without a goroutine a session is in `StateAdding`. -/
theorem adding {n : Nat} (hr : (downloads records)[n]? = some r) (hn : maxActive ≤ n + 1) :
    r.state = .adding := by
  by_contra hne
  obtain ⟨hs, hactive⟩ := sessionAt_mem maxActive hr
  have hidle : (sessionAt maxActive n r).isRunning = false := by
    rw [sessionAt_isRunning, startsAt, if_neg hne]
    exact decide_eq_false (by omega)
  have hqueued := h.queued _ hs hactive hidle
  rw [Session.queued_iff, sessionAt_state] at hqueued
  exact hne hqueued.2.1

theorem resumable : Resumable maxActive records := by
  constructor
  · intro r hr
    obtain ⟨k, hk⟩ := List.mem_iff_getElem?.mp hr
    rw [List.getElem?_drop] at hk
    exact h.adding hk (by omega)
  · intro r hr q hq
    obtain ⟨n, hn⟩ := List.mem_iff_getElem?.mp hr
    obtain ⟨k, hk⟩ := List.mem_iff_getElem?.mp hq
    rw [List.getElem?_drop] at hk
    have hlt : n < maxActive := by
      have := (List.getElem?_eq_some_iff.mp hn).1
      rw [List.length_take] at this
      omega
    rw [List.getElem?_take_of_lt hlt] at hn
    obtain ⟨hs, hsactive⟩ := sessionAt_mem maxActive hn
    obtain ⟨ht, htactive⟩ := sessionAt_mem maxActive hk
    have hrun : (sessionAt maxActive n r).isRunning = true := by
      rw [sessionAt_isRunning, startsAt]
      split
      · exact decide_eq_true hlt
      next hne =>
        refine decide_eq_true ?_
        by_contra hge
        exact hne (h.adding hn (by omega))
    have hidle : (sessionAt maxActive (maxActive + k) q).isRunning = false := by
      rw [sessionAt_isRunning, startsAt]
      split <;> exact decide_eq_false (by omega)
    have hfront := h.front _ hs _ ht hsactive htactive hrun hidle
    rwa [sessionAt_queuePosition, sessionAt_queuePosition] at hfront

end Resumed

namespace Resumable

variable (h : Resumable maxActive records)
include h

/-- The downloads before the limit are started. -/
theorem startsAt_eq {n : Nat} (hr : (downloads records)[n]? = some r) :
    startsAt maxActive n r = decide (n < maxActive) := by
  unfold startsAt
  split
  · rfl
  next hne =>
    have hlt : n < maxActive - 1 := by
      by_contra hge
      exact hne (h.1 r (mem_drop hr (by omega)))
    rw [decide_eq_true (show n + 1 < maxActive by omega), decide_eq_true (show n < maxActive by omega)]

theorem sessions_eq : (downloads records).mapIdx (sessionAt maxActive) =
    ((downloads records).take maxActive).map (fun r => (Session.ofRecord r).start) ++
      ((downloads records).drop maxActive).map Session.ofRecord := by
  apply mapIdx_eq_take_drop
  intro n r hr
  rw [sessionAt, h.startsAt_eq hr]
  simp only [decide_eq_true_eq]

theorem count_eq : (State.restore maxActive records).sessions.countP
    (fun s => isQueueActive s.state && s.isRunning) = min maxActive (downloads records).length := by
  have hfilter : (State.restore maxActive records).sessions.countP
      (fun s => isQueueActive s.state && s.isRunning) =
      ((State.restore maxActive records).sessions.filter fun s => isQueueActive s.state).countP
        Session.isRunning := by
    rw [List.countP_filter]
    congr 1
    funext s
    rw [Bool.and_comm]
  have hstarted : ((downloads records).take maxActive).countP
      (Session.isRunning ∘ fun r => (Session.ofRecord r).start) =
      ((downloads records).take maxActive).length := List.countP_eq_length.mpr fun _ _ => rfl
  have hidle : ((downloads records).drop maxActive).countP (Session.isRunning ∘ Session.ofRecord) = 0 :=
    List.countP_eq_zero.mpr fun _ _ => Bool.false_ne_true
  rw [hfilter, (restore_sessions maxActive records).2.2, h.sessions_eq, List.countP_append,
    List.countP_map, List.countP_map, hstarted, hidle, List.length_take, Nat.add_zero]

theorem resumed : Resumed maxActive records := by
  refine ⟨h.count_eq, ?_, ?_⟩
  · intro s hs t ht hsactive htactive hrun hidle
    obtain ⟨n, r, hr, rfl⟩ := mem_restore.mp ⟨hs, hsactive⟩
    obtain ⟨m, q, hq, rfl⟩ := mem_restore.mp ⟨ht, htactive⟩
    rw [sessionAt_isRunning, h.startsAt_eq hr, decide_eq_true_eq] at hrun
    rw [sessionAt_isRunning, h.startsAt_eq hq, decide_eq_false_iff_not, Nat.not_lt] at hidle
    rw [sessionAt_queuePosition, sessionAt_queuePosition]
    exact h.2 r (mem_take hr hrun) q (mem_drop hq hidle)
  · intro t ht htactive hidle
    obtain ⟨m, q, hq, rfl⟩ := mem_restore.mp ⟨ht, htactive⟩
    rw [Session.queued_iff]
    refine ⟨?_, ?_, hidle⟩
    · unfold sessionAt
      split <;> rfl
    · rw [sessionAt_isRunning, h.startsAt_eq hq, decide_eq_false_iff_not, Nat.not_lt] at hidle
      rw [sessionAt_state]
      exact h.1 q (mem_drop hq (by omega))

end Resumable

/-- A restart resumes what it can exactly when the downloads come in the order of
the queue up to the limit, and are in `StateAdding` from the last slot on. -/
theorem resumed_iff (maxActive : Nat) (records : List TorrentRecord) :
    Resumed maxActive records ↔ Resumable maxActive records :=
  ⟨Resumed.resumable, Resumable.resumed⟩

/-- One interrupted download, and one slot: it is not started. -/
theorem not_resumed_downloading :
    ¬ ∀ (maxActive : Nat) (records : List TorrentRecord), 1 ≤ maxActive →
      (records.map TorrentRecord.id).Nodup → Resumed maxActive records := by
  intro hall
  have h := (hall 1 [{ Store.named [] with state := .downloading }] (Nat.le_refl 1)
    (List.nodup_singleton _)).count
  revert h
  decide +kernel

end Control
end Stor.Engine
