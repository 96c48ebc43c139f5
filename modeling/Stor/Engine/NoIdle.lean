import Stor.Engine.MaxActive

/-!
# No idle download slot

A slot that becomes free is taken by the next call of `startQueuedLocked`.  Something
that leads to such a call is a trigger: an event of a torrent that left the queue, on
its way to the orchestrator, or the call itself further down in the code of a thread.
`Publish` drops an event when the buffer of the orchestrator is full.  When no such
event is dropped, and `ResumeTorrent` finds the state that it has checked (`Served`),
an engine at rest has no free slot beside a queued torrent (`noIdle_of_served`).

While a call of `startQueuedLocked` is at work, the slots that it has counted and the
torrents still on its list cover every free slot (`Filling`).
-/

namespace Stor.Engine
namespace Control

open Lib

variable {e e' : State} {a : Action} {op : Op} {rest next code : List Op} {i j k n : Nat}
  {s s' : Session} {r : Run} {todo : List Nat}

/-- In `StateAdding` and not running. -/
def Session.queued (s : Session) : Bool := s.listed && s.state = .adding && !s.isRunning

/-- The operations of `run`, up to the exit section. -/
def Op.ofRun : Op → Bool
  | .phase _ | .setState _ | .register | .unregister | .exit _ => true
  | _ => false

/-- Nothing is under way: no event waits for the orchestrator or is about to be
published, and no call is in progress, `onSessionDone` among them. -/
def Quiescent (e : State) : Prop :=
  e.events = [] ∧ (∀ code ∈ e.calls, ∀ op ∈ code, op = .receive) ∧
    ∀ s ∈ e.sessions, ∀ r ∈ s.runs, ∀ op ∈ r.code, op.ofRun = true

instance (e : State) : Decidable (Quiescent e) := inferInstanceAs (Decidable (_ ∧ _ ∧ _))

/-- All slots are taken, or nothing is queued. -/
def NoIdle (e : State) : Prop :=
  e.maxActive ≤ e.activeCount ∨ ∀ s ∈ e.sessions, s.queued = false

instance (e : State) : Decidable (NoIdle e) := inferInstanceAs (Decidable (_ ∨ _))

def Op.served (e : State) : Op → Bool
  | .publish _ old new => !frees old new || e.events.length < eventBuffer
  | .setAdding i => (e.sessions[i]?).all fun s => s.state = .paused ∨ s.state = .error
  | _ => true

/-- An event of a torrent that leaves the queue finds room in the buffer, and
`ResumeTorrent` finds the state that it has checked. -/
def Served (e : State) (a : Action) : Prop := (e.code a).head?.all (Op.served e) = true

instance (e : State) (a : Action) : Decidable (Served e a) := inferInstanceAs (Decidable (_ = _))

theorem Performs.served (h : Performs e a op rest next e') (hok : Served e a) :
    op.served e = true := by
  unfold Served at hok
  rw [h.code] at hok
  exact hok

/-! ## Threads and triggers -/

/-- Some thread has `code` left to do. -/
def InCode (e : State) (code : List Op) : Prop :=
  code ∈ e.calls ∨ ∃ (j : Nat) (s : Session) (r : Run),
    e.sessions[j]? = some s ∧ r ∈ s.runs ∧ r.code = code

/-- Operations that lead to a call of `startQueuedLocked`. -/
def Op.isTrigger : Op → Bool
  | .countActive | .onDone => true
  | .publish _ old new => frees old new
  | _ => false

def Triggered (e : State) : Prop :=
  (∃ ev ∈ e.events, frees ev.1 ev.2 = true) ∨ ∃ code, InCode e code ∧ code.any Op.isTrigger = true

/-- A call of `ResumeTorrent` is about to start the session `j`. -/
def Resuming (e : State) (j : Nat) : Prop :=
  ∃ code, InCode e code ∧ (Op.startIfFree j ∈ code ∨ ∃ n, Op.start j n ∈ code)

namespace Performs

variable (h : Performs e a op rest next e')
include h

theorem calls_eq (ha : a.self ≠ none) : e'.calls = e.calls := by
  obtain ⟨e₁, hout, rfl⟩ := h.outside
  rw [← hout.calls]
  cases a with
  | go i k c => rfl
  | thread t c => exact absurd rfl ha
  | call k => exact absurd rfl ha

/-- The code of the other threads stays. -/
theorem inCode (hc : InCode e code) : code = op :: rest ∨ InCode e' code := by
  obtain hc | ⟨j, s, r, hs, hr, hcode⟩ := hc
  · cases a with
    | go i k c =>
      refine .inr (.inl ?_)
      rw [h.calls_eq (by simp [Action.self])]
      exact hc
    | thread t c =>
      obtain ⟨m, hm⟩ := List.mem_iff_getElem?.mp hc
      obtain ⟨e₁, hout, rfl⟩ := h.outside
      by_cases htm : t = m
      · refine .inl ?_
        have hcode := h.code
        rw [State.code, htm, hm] at hcode
        exact hcode
      · refine .inr (.inl ?_)
        apply List.mem_of_getElem? (i := m)
        show (e₁.calls.set t (next ++ rest))[m]? = _
        rw [List.getElem?_set_ne htm, hout.calls, hm]
    | call k => cases h.code
  · obtain ⟨k, hk⟩ := List.mem_iff_getElem?.mp hr
    obtain ⟨p, hp⟩ := h.session hs
    by_cases hself : a.self = some (j, k)
    · refine .inl ?_
      rw [← hcode, h.self_code hs hself hk]
    · refine .inr (.inr ⟨j, _, _, hp, List.mem_of_getElem? (session_run (next ++ rest) hk), ?_⟩)
      simp only [hself, if_false]
      exact hcode

theorem inCode_next : InCode e' (next ++ rest) := by
  have hcode := h.code
  cases a with
  | go i k c =>
    cases hs : e.sessions[i]? with
    | none =>
      rw [State.code, hs] at hcode
      cases hcode
    | some s =>
      obtain ⟨r, hr, -⟩ := h.self_run hs rfl
      obtain ⟨p, hp⟩ := h.session hs
      refine .inr ⟨i, _, _, hp, List.mem_of_getElem? (session_run (next ++ rest) hr), ?_⟩
      exact if_pos rfl
  | thread t c =>
    obtain ⟨e₁, hout, rfl⟩ := h.outside
    refine .inl ?_
    show next ++ rest ∈ e₁.calls.set t (next ++ rest)
    rw [hout.calls]
    cases ht : e.calls[t]? with
    | none =>
      rw [State.code, ht] at hcode
      cases hcode
    | some l => exact List.mem_set (List.getElem?_eq_some_iff.mp ht).1 _
  | call k => cases hcode

theorem triggered_of_next (ht : (next ++ rest).any Op.isTrigger = true) : Triggered e' :=
  .inr ⟨_, h.inCode_next, ht⟩

theorem triggered_of_rest (hmem : Op.countActive ∈ rest) : Triggered e' := by
  apply h.triggered_of_next
  rw [List.any_eq_true]
  exact ⟨.countActive, List.mem_append_right next hmem, rfl⟩

theorem events_publish {old new : TorrentState} (hop : op = .publish i old new) :
    e'.events = if e.events.length < eventBuffer then e.events ++ [(old, new)] else e.events := by
  obtain ⟨e₁, hp, rfl⟩ := h.after
  have hev : (e₁.setCode a (next ++ rest)).events = e₁.events := by cases a <;> rfl
  rw [hop] at hp
  rw [hev, ← (Prod.mk.inj (Option.some.inj hp)).1]
  split <;> rfl

theorem events_receive (hop : op = .receive) :
    ∃ old new, e.events = (old, new) :: e'.events ∧
      next = if frees old new then [.lock, .compact, .countActive, .unlock, .receive]
        else [.receive] := by
  obtain ⟨e₁, hp, rfl⟩ := h.after
  have hev : (e₁.setCode a (next ++ rest)).events = e₁.events := by cases a <;> rfl
  rw [hop] at hp
  simp only [State.perform] at hp
  split at hp
  · cases hp
  next old new tail hevents =>
    refine ⟨old, new, ?_, (Prod.mk.inj (Option.some.inj hp)).2.symm⟩
    rw [hev, hevents, ← (Prod.mk.inj (Option.some.inj hp)).1]

/-- A trigger stays one until `startQueuedLocked` begins to count. -/
theorem triggered (hok : Served e a) (ht : Triggered e) : Triggered e' ∨ op = .countActive := by
  obtain ⟨ev, hev, hfrees⟩ | ⟨code, hcode, hany⟩ := ht
  · refine .inl ?_
    by_cases hrec : op = .receive
    · obtain ⟨old, new, hevents, hnext⟩ := h.events_receive hrec
      rw [hevents] at hev
      obtain rfl | hev := List.mem_cons.mp hev
      · apply h.triggered_of_next
        rw [hnext, if_pos hfrees]
        rfl
      · exact .inl ⟨ev, hev, hfrees⟩
    · refine .inl ⟨ev, ?_, hfrees⟩
      by_cases hpub : ∃ i old new, op = .publish i old new
      · obtain ⟨i, old, new, hop⟩ := hpub
        rw [h.events_publish hop]
        split
        · exact List.mem_append_left _ hev
        · exact hev
      · rwa [h.events_eq (fun i old new hop => hpub ⟨i, old, new, hop⟩) hrec]
  · obtain rfl | hcode := h.inCode hcode
    · rw [List.any_cons, Bool.or_eq_true] at hany
      obtain hop | hany := hany
      · cases op with
        | countActive => exact .inr rfl
        | onDone =>
          refine .inl (h.triggered_of_next ?_)
          have hfollows := h.follows
          cases hfollows with
          | onDone => rfl
          | nothing hend => cases hend
        | publish i old new =>
          have hroom := h.served hok
          have hfrees : frees old new = true := hop
          rw [Op.served, hfrees, Bool.not_true, Bool.false_or, decide_eq_true_eq] at hroom
          refine .inl (.inl ⟨(old, new), ?_, hfrees⟩)
          rw [h.events_publish rfl, if_pos hroom]
          exact List.mem_append_right _ (List.mem_singleton.mpr rfl)
        | _ => cases hop
      · refine .inl (h.triggered_of_next ?_)
        rw [List.any_append, hany, Bool.or_true]
    · exact .inl (.inr ⟨code, hcode, hany⟩)

end Performs

/-! ## Code -/

/-- What frees a slot is followed by a call of `startQueuedLocked`, and what queues a
paused session by an attempt to start it. -/
def Op.coveredBy (rest : List Op) : Op → Bool
  | .pause _ | .setPaused _ | .delete _ | .setMaxActive _ => decide (Op.countActive ∈ rest)
  | .setAdding i => decide (Op.startIfFree i ∈ rest)
  | .setState new => decide (new ≠ .adding)
  | _ => true

def covered : List Op → Bool
  | [] => true
  | op :: rest => op.coveredBy rest && covered rest

theorem Phase.GoesTo.covered {p : Phase} (h : p.GoesTo next) :
    Control.covered (next ++ rest) = Control.covered rest := by
  cases h with
  | _ => rfl

theorem Follows.covered (h : Follows op next) (hcov : Control.covered (op :: rest) = true) :
    Control.covered (next ++ rest) = true := by
  have htail : Control.covered rest = true := by
    rw [Control.covered, Bool.and_eq_true] at hcov
    exact hcov.2
  cases h with
  | phase h => rw [(Phase.after_goesTo h).covered, htail]
  | pause =>
    rw [Control.covered, Bool.and_eq_true] at hcov
    show (_ && Control.covered rest) = true
    rw [Bool.and_eq_true]
    exact hcov
  | removeTorrent => simp [startQueued, Control.covered, Op.coveredBy, htail]
  | pauseTorrent => simp [startQueued, Control.covered, Op.coveredBy, htail]
  | checkPaused => simp [Control.covered, Op.coveredBy, htail]
  | _ => exact htail

theorem covered_step (h : e.step a = some e') (hcov : Codes (fun code => covered code = true) e) :
    Codes (fun code => covered code = true) e' := by
  apply codes_step _ _ _ h hcov
  · rfl
  · intro k
    cases k <;> rfl
  · intro op rest next hperf hcode
    exact hperf.follows.covered hcode

/-! ## Sessions, while there is no trigger -/

theorem Session.queued_iff {s : Session} :
    s.queued = true ↔ s.listed = true ∧ s.state = .adding ∧ s.isRunning = false := by
  rw [Session.queued, Bool.and_eq_true, Bool.and_eq_true, decide_eq_true_eq, Bool.not_eq_true',
    and_assoc]

/-- Operations behind which there is a trigger. -/
def Op.isFreeing : Op → Bool
  | .pause _ | .setPaused _ | .delete _ | .setMaxActive _ | .exit _ => true
  | _ => false

namespace Performs

variable (h : Performs e a op rest next e') (hcov : Codes (fun code => covered code = true) e)
  (hok : Served e a) (hnt : ¬Triggered e')
include h hcov hnt

theorem not_freeing : op.isFreeing = false := by
  have hc := h.of_codes hcov
  rw [covered, Bool.and_eq_true] at hc
  cases op with
  | pause i => exact absurd (h.triggered_of_rest (of_decide_eq_true hc.1)) hnt
  | setPaused i => exact absurd (h.triggered_of_rest (of_decide_eq_true hc.1)) hnt
  | delete i => exact absurd (h.triggered_of_rest (of_decide_eq_true hc.1)) hnt
  | setMaxActive n => exact absurd (h.triggered_of_rest (of_decide_eq_true hc.1)) hnt
  | exit failed =>
    refine absurd (h.triggered_of_next ?_) hnt
    have hfollows := h.follows
    cases hfollows with
    | nothing hend => cases hend
    | _ => rfl
  | _ => rfl

theorem ne_freeing {op' : Op} (hfree : op'.isFreeing = true) : op ≠ op' := by
  intro hop
  rw [← hop, h.not_freeing hcov hnt] at hfree
  cases hfree

/-- A goroutine that leaves the queue publishes it. -/
theorem not_frees {new : TorrentState} (hop : op = .setState new) (hs : e.sessions[j]? = some s)
    (hself : a.self = some (j, k)) : frees s.state new = false ∧ new ≠ .adding := by
  have hc := h.of_codes hcov
  rw [covered, Bool.and_eq_true, hop] at hc
  refine ⟨?_, of_decide_eq_true hc.1⟩
  cases hf : frees s.state new with
  | false => rfl
  | true =>
    refine absurd (h.triggered_of_next ?_) hnt
    obtain ⟨e₁, hp, -⟩ := h.after
    rw [hop] at hp
    simp only [State.perform, hself, Option.bind_some, State.setState, hs, Option.map_some,
      Option.some.injEq] at hp
    have hne : s.state ≠ new := by
      intro heq
      rw [heq, frees, Bool.and_not_self] at hf
      cases hf
    rw [if_neg hne] at hp
    rw [← (Prod.mk.inj hp).2]
    show (frees s.state new || _) = true
    rw [hf, Bool.true_or]

/-- A session keeps its state, is queued by `ResumeTorrent`, or goes to a state that
leaves the queue as it is. -/
theorem state_after (hs : e.sessions[j]? = some s) :
    (op.effect a.self j s).state = s.state ∨ op = .setAdding j ∨
      frees s.state (op.effect a.self j s).state = false ∧
        (op.effect a.self j s).state ≠ .adding := by
  obtain hstate | hop | hop | ⟨new, m, hop, hself, hnew⟩ := effect_state_cases op a.self j s
  · exact .inl hstate
  · exact absurd hop (h.ne_freeing hcov hnt rfl)
  · exact .inr (.inl hop)
  · rw [hnew]
    exact .inr (.inr (h.not_frees hcov hnt hop hs hself))

theorem isRunning_after (hrun : s.isRunning = true) :
    (op.effect a.self j s).isRunning = true := by
  by_cases hstart : ∃ n, op = .start j n
  · obtain ⟨n, hop⟩ := hstart
    rw [hop]
    simp only [Op.effect, if_true]
    rfl
  · rw [Session.isRunning, effect_cancel (fun n hn => hstart ⟨n, hn⟩)]
    · exact hrun
    · exact h.ne_freeing hcov hnt rfl
    · intro hop
      cases op with
      | exit failed => exact absurd rfl (h.ne_freeing hcov hnt rfl)
      | _ => cases hop

theorem listed_after : (op.effect a.self j s).listed = s.listed := by
  rw [effect_listed, decide_eq_true (h.ne_freeing hcov hnt rfl), Bool.and_true]

omit hcov hnt in
include hok in
theorem served_setAdding (hop : op = .setAdding j) (hs : e.sessions[j]? = some s) :
    s.state = .paused ∨ s.state = .error := by
  have hserved := h.served hok
  rw [hop] at hserved
  simpa only [Op.served, hs, Option.all_some, decide_eq_true_eq] using hserved

include hok in
theorem counted_after (hs : e.sessions[j]? = some s) (hc : s.counted = true) :
    (a.session j op (next ++ rest) s).counted = true := by
  obtain ⟨hlisted, hactive, hrunning⟩ := Session.counted_iff.mp hc
  rw [Session.counted_iff, Session.isRunning, Action.session_listed, Action.session_state,
    Action.session_cancel, h.listed_after hcov hnt]
  refine ⟨hlisted, ?_⟩
  obtain hstate | hop | ⟨hfrees, hne⟩ := h.state_after hcov hnt hs
  · rw [hstate]
    exact ⟨hactive, fun hadding => h.isRunning_after hcov hnt (hrunning hadding)⟩
  · obtain hst | hst := h.served_setAdding hok hop hs
    · rw [hst] at hactive
      cases hactive
    · rw [hst] at hactive
      cases hactive
  · rw [frees, hactive, Bool.true_and, Bool.not_eq_false'] at hfrees
    exact ⟨hfrees, fun hadding => absurd hadding hne⟩

/-- A queued session stays queued, or takes a slot. -/
theorem queued_after (hs : e.sessions[j]? = some s) (hq : s.queued = true) :
    (a.session j op (next ++ rest) s).queued = true ∨
      (a.session j op (next ++ rest) s).counted = true := by
  obtain ⟨hlisted, hadding, -⟩ := Session.queued_iff.mp hq
  rw [Session.queued_iff, Session.counted_iff, Session.isRunning, Action.session_listed,
    Action.session_state, Action.session_cancel, h.listed_after hcov hnt]
  have hkeep : (op.effect a.self j s).state = .adding →
      (s.listed = true ∧ (op.effect a.self j s).state = .adding ∧
        (op.effect a.self j s).cancel.isSome = false) ∨
      s.listed = true ∧ isQueueActive (op.effect a.self j s).state = true ∧
        ((op.effect a.self j s).state = .adding → (op.effect a.self j s).cancel.isSome = true) := by
    intro hst
    cases hc : (op.effect a.self j s).cancel.isSome with
    | false => exact .inl ⟨hlisted, hst, rfl⟩
    | true => exact .inr ⟨hlisted, by rw [hst]; rfl, fun _ => rfl⟩
  obtain hstate | hop | ⟨hfrees, hne⟩ := h.state_after hcov hnt hs
  · exact hkeep (hstate.trans hadding)
  · apply hkeep
    rw [hop]
    simp only [Op.effect, if_true]
  · rw [hadding, frees] at hfrees
    refine .inr ⟨hlisted, ?_, fun hst => absurd hst hne⟩
    simpa [isQueueActive] using hfrees

/-- Only `ResumeTorrent` queues a session. -/
theorem queued_before (hs : e.sessions[j]? = some s)
    (hq : (a.session j op (next ++ rest) s).queued = true) :
    s.queued = true ∨ op = .setAdding j := by
  rw [Session.queued_iff, Session.isRunning, Action.session_listed, Action.session_state,
    Action.session_cancel, h.listed_after hcov hnt] at hq
  obtain ⟨hlisted, hadding, hrun⟩ := hq
  have hidle : s.isRunning = false := by
    cases hr : s.isRunning with
    | false => rfl
    | true =>
      have := h.isRunning_after (j := j) hcov hnt hr
      rw [Session.isRunning, hrun] at this
      cases this
  obtain hstate | hop | ⟨-, hne⟩ := h.state_after hcov hnt hs
  · exact .inl (Session.queued_iff.mpr ⟨hlisted, hstate.symm.trans hadding, hidle⟩)
  · exact .inr hop
  · exact absurd hadding hne

theorem length_after : e'.sessions.length = e.sessions.length := by
  obtain ⟨e₁, hp, he'⟩ := h.after
  have hlen : e'.sessions.length = e₁.sessions.length := by
    rw [he']
    cases a with
    | go i k c => exact List.length_modify _ _ _
    | _ => rfl
  rw [hlen]
  by_cases hadd : ∃ id infoHash, op = .addTorrent id infoHash
  · obtain ⟨id, infoHash, rfl⟩ := hadd
    obtain ⟨rfl, -⟩ | ⟨-, rfl⟩ := State.perform_addTorrent hp
    · rfl
    · exact absurd (h.triggered_of_next rfl) hnt
  · exact (State.perform_changed hp fun id infoHash hop => hadd ⟨id, infoHash, hop⟩).1

/-- No session is new. -/
theorem session_before {s' : Session} (hs' : e'.sessions[j]? = some s') :
    ∃ s p, e.sessions[j]? = some s ∧ s' = (a.session j op (next ++ rest) s).atPosition p := by
  cases hs : e.sessions[j]? with
  | none =>
    have hlt := (List.getElem?_eq_some_iff.mp hs').1
    rw [h.length_after hcov hnt] at hlt
    rw [List.getElem?_eq_none_iff] at hs
    omega
  | some s =>
    obtain ⟨p, hp⟩ := h.session hs
    rw [hp, Option.some_inj] at hs'
    exact ⟨s, p, rfl, hs'.symm⟩

theorem maxActive_after : e'.maxActive = e.maxActive :=
  h.maxActive_eq fun _ => h.ne_freeing hcov hnt rfl

include hok in
theorem activeCount_after : e.activeCount ≤ e'.activeCount := by
  apply countP_le_of_places
  intro j s hs hc
  obtain ⟨p, hp⟩ := h.session hs
  exact ⟨_, hp, h.counted_after hcov hok hnt hs hc⟩

end Performs

/-! ## The list of `startQueuedLocked` -/

/-- Queued, and not about to be started by `ResumeTorrent`. -/
def Waiting (e : State) (j : Nat) : Prop :=
  (e.sessions[j]?).any Session.queued = true ∧ ¬Resuming e j

/-- The sessions of `todo` that do not run. -/
def State.idle (e : State) (todo : List Nat) : Nat :=
  todo.countP fun j => (e.sessions[j]?).any fun s => !s.isRunning

/-- The sessions that hold a slot, and those of `todo` that are queued for one. -/
def State.held (e : State) (todo : List Nat) : Nat :=
  (List.range e.sessions.length).countP fun j =>
    (e.sessions[j]?).any Session.counted || ((e.sessions[j]?).any Session.queued && decide (j ∈ todo))

/-- Nothing is left for `startQueuedLocked` to do. -/
def Quiet (e : State) : Prop := e.maxActive ≤ e.activeCount ∨ ∀ j, ¬Waiting e j

/-- A call of `startQueuedLocked` that fills every free slot. -/
inductive Filling (e : State) : List Op → Prop
  | collect {n : Nat} {rest : List Op} (hn : n ≤ e.activeCount) : Filling e (.collect n :: rest)
  | startNext {n : Nat} {todo : List Nat} {rest : List Op} (hn : n + e.idle todo ≤ e.held todo)
      (hw : ∀ j, Waiting e j → j ∈ todo) : Filling e (.startNext n todo :: rest)
  | start {i n : Nat} {todo : List Nat} {rest : List Op}
      (hn : n + 1 + e.idle todo ≤ e.held (i :: todo)) (hw : ∀ j, Waiting e j → j ∈ i :: todo) :
      Filling e (.start i n :: .startNext (n + 1) todo :: rest)

/-- A session that has been started runs. -/
theorem session_start_not_queued (hop : op = .start j n) (a : Action) (code : List Op) (s : Session) :
    (a.session j op code s).queued ≠ true := by
  have hrun : (a.session j op code s).isRunning = true := by
    rw [Session.isRunning, Action.session_cancel, hop]
    simp only [Op.effect, if_true]
    rfl
  rw [Session.queued, hrun, Bool.not_true, Bool.and_false]
  exact Bool.false_ne_true

theorem Session.queued_not_counted (h : s.counted = true) : s.queued = false := by
  cases hq : s.queued with
  | false => rfl
  | true =>
    obtain ⟨-, -, hc⟩ := Session.counted_iff.mp h
    obtain ⟨-, hadding, hrun⟩ := Session.queued_iff.mp hq
    rw [hc hadding] at hrun
    cases hrun

namespace State

theorem held_eq (e : State) (todo : List Nat) :
    e.held todo = e.activeCount + (List.range e.sessions.length).countP fun j =>
      (e.sessions[j]?).any Session.queued && decide (j ∈ todo) := by
  rw [activeCount, ← countP_range Session.counted e.sessions, held, countP_or]
  intro j hj hc
  obtain ⟨s, hs, hc⟩ := (Option.any_eq_true _ _).mp hc
  rw [hs, Option.any_some, Session.queued_not_counted hc, Bool.false_and]

theorem held_le (e : State) (todo : List Nat) : e.held todo ≤ e.activeCount + e.idle todo := by
  rw [held_eq]
  apply Nat.add_le_add_left
  apply countP_le_of_nodup List.nodup_range
  intro j hj hq
  rw [Bool.and_eq_true, decide_eq_true_eq] at hq
  obtain ⟨s, hs, hs'⟩ := (Option.any_eq_true _ _).mp hq.1
  refine ⟨hq.2, ?_⟩
  rw [hs, Option.any_some, (Session.queued_iff.mp hs').2.2]
  rfl

theorem held_skip {todo : List Nat} (hi : (e.sessions[i]?).any Session.queued = false) :
    e.held (i :: todo) ≤ e.held todo := by
  apply List.countP_mono_left
  intro j _ hj
  rw [Bool.or_eq_true, Bool.and_eq_true, decide_eq_true_eq] at hj ⊢
  refine hj.imp_right fun hboth => ⟨hboth.1, ?_⟩
  apply List.mem_of_ne_of_mem _ hboth.2
  intro hij
  have hq := hboth.1
  rw [hij, hi] at hq
  cases hq

/-- The list that `startQueuedLocked` has collected covers all that wait. -/
theorem idle_collected {l : List Nat}
    (hl : e.isSorted (e.places fun s => s.listed && s.state = .adding) l = true) :
    e.activeCount + e.idle l ≤ e.held l ∧
      ∀ j, (e.sessions[j]?).any Session.queued = true → j ∈ l := by
  rw [isSorted, Bool.and_eq_true, List.isPerm_iff] at hl
  have hmem : ∀ j, (e.sessions[j]?).any Session.queued = true → j ∈ l := by
    intro j hj
    obtain ⟨s, hs, hq⟩ := (Option.any_eq_true _ _).mp hj
    obtain ⟨hlisted, hadding, -⟩ := Session.queued_iff.mp hq
    rw [hl.1.mem_iff, places, List.mem_filter, List.mem_range, hs, Option.any_some, hlisted, hadding]
    exact ⟨(List.getElem?_eq_some_iff.mp hs).1, rfl⟩
  refine ⟨?_, hmem⟩
  rw [held_eq, idle, hl.1.countP_eq, places, List.countP_filter]
  apply Nat.add_le_add_left
  apply List.countP_mono_left
  intro j hj hboth
  rw [Bool.and_eq_true] at hboth
  have hq : (e.sessions[j]?).any Session.queued = true := by
    obtain ⟨s, hs, hs'⟩ := (Option.any_eq_true _ _).mp hboth.2
    have hrun := hboth.1
    rw [hs, Option.any_some] at hrun ⊢
    rw [Session.queued, hs', hrun]
    rfl
  rw [hq, decide_eq_true (hmem j hq)]
  rfl

end State

namespace Performs

variable (h : Performs e a op rest next e') (hcov : Codes (fun code => covered code = true) e)
  (hok : Served e a) (hnt : ¬Triggered e')
include h hcov hnt

theorem not_queued_of_start (hop : op = .start j n) :
    (e'.sessions[j]?).any Session.queued ≠ true := by
  intro hq
  obtain ⟨s', hs', hq⟩ := (Option.any_eq_true _ _).mp hq
  obtain ⟨s, p, -, rfl⟩ := h.session_before hcov hnt hs'
  exact session_start_not_queued hop a _ s hq

/-- A `ResumeTorrent` starts its session, or finds all slots taken. -/
theorem resuming_after (hr : Resuming e j) (hq : (e'.sessions[j]?).any Session.queued = true)
    (hfull : e'.activeCount < e'.maxActive) (hmono : e.activeCount ≤ e'.activeCount) :
    Resuming e' j := by
  obtain ⟨code, hcode, hmem⟩ := hr
  obtain rfl | hcode := h.inCode hcode
  · have hrest : Op.startIfFree j ∈ next ++ rest ∨ (∃ n, Op.start j n ∈ next ++ rest) →
        Resuming e' j := fun hmem => ⟨_, h.inCode_next, hmem⟩
    obtain ⟨e₁, hp, -⟩ := h.after
    obtain hmem | ⟨n, hmem⟩ := hmem
    · obtain rfl | hmem := List.mem_cons.mp hmem
      · have hnext := (Prod.mk.inj (Option.some.inj hp)).2
        have hmax := h.maxActive_after hcov hnt
        rw [if_pos (by omega)] at hnext
        refine hrest (.inr ⟨e.activeCount, List.mem_append_left _ ?_⟩)
        rw [← hnext]
        exact List.mem_singleton.mpr rfl
      · exact hrest (.inl (List.mem_append_right _ hmem))
    · obtain rfl | hmem := List.mem_cons.mp hmem
      · exact absurd hq (h.not_queued_of_start hcov hnt rfl)
      · exact hrest (.inr ⟨n, List.mem_append_right _ hmem⟩)
  · exact ⟨code, hcode, hmem⟩

include hok

theorem waiting_before (hfull : e'.activeCount < e'.maxActive) (hw : Waiting e' j) : Waiting e j := by
  obtain ⟨hq, hnr⟩ := hw
  obtain ⟨s', hs', hq'⟩ := (Option.any_eq_true _ _).mp hq
  obtain ⟨s, p, hs, rfl⟩ := h.session_before hcov hnt hs'
  obtain hbefore | hop := h.queued_before hcov hnt hs hq'
  · refine ⟨by rw [hs]; exact hbefore, fun hr => hnr ?_⟩
    exact h.resuming_after hcov hnt hr hq hfull (h.activeCount_after hcov hok hnt)
  · refine absurd ⟨_, h.inCode_next, .inl (List.mem_append_right next ?_)⟩ hnr
    have hc := h.of_codes hcov
    rw [covered, Bool.and_eq_true, hop] at hc
    exact of_decide_eq_true hc.1

theorem quiet_after (hq : Quiet e) : Quiet e' := by
  by_cases hfull : e'.maxActive ≤ e'.activeCount
  · exact .inl hfull
  · refine .inr fun j hw => ?_
    have hmax := h.maxActive_after hcov hnt
    have hcount := h.activeCount_after hcov hok hnt
    obtain hq | hq := hq
    · omega
    · exact hq j (h.waiting_before hcov hok hnt (by omega) hw)

omit hok in
theorem idle_after (todo : List Nat) : e'.idle todo ≤ e.idle todo := by
  apply List.countP_mono_left
  intro j hj hidle
  obtain ⟨s', hs', hrun⟩ := (Option.any_eq_true _ _).mp hidle
  obtain ⟨s, p, hs, rfl⟩ := h.session_before hcov hnt hs'
  rw [hs, Option.any_some, Bool.not_eq_true']
  cases hr : s.isRunning with
  | false => rfl
  | true =>
    have hafter := h.isRunning_after (j := j) hcov hnt hr
    simp only [Session.isRunning, Session.atPosition, Action.session_cancel, Bool.not_eq_true'] at hrun hafter
    rw [hrun] at hafter
    cases hafter

/-- What is held stays held, also without a session that has been started. -/
theorem held_after (todo todo' : List Nat)
    (htodo : ∀ j ∈ todo, j ∈ todo' ∨ ∃ n, op = .start j n) : e.held todo ≤ e'.held todo' := by
  unfold State.held
  rw [h.length_after hcov hnt]
  apply List.countP_mono_left
  intro j hj hheld
  rw [Bool.or_eq_true, Bool.and_eq_true, decide_eq_true_eq] at hheld ⊢
  obtain hc | ⟨hq, hmem⟩ := hheld
  · obtain ⟨s, hs, hc⟩ := (Option.any_eq_true _ _).mp hc
    obtain ⟨p, hp⟩ := h.session hs
    refine .inl ?_
    rw [hp, Option.any_some]
    exact h.counted_after hcov hok hnt hs hc
  · obtain ⟨s, hs, hq⟩ := (Option.any_eq_true _ _).mp hq
    obtain ⟨p, hp⟩ := h.session hs
    rw [hp, Option.any_some, Option.any_some]
    obtain hq' | hc' := h.queued_after hcov hnt hs hq
    · obtain hmem | ⟨n, hop⟩ := htodo j hmem
      · exact .inr ⟨hq', hmem⟩
      · exact absurd hq' (session_start_not_queued hop a _ s)
    · exact .inl hc'

theorem filling_after {code : List Op} (hf : Filling e code) : Quiet e' ∨ Filling e' code := by
  by_cases hfull : e'.maxActive ≤ e'.activeCount
  · exact .inl (.inl hfull)
  · refine .inr ?_
    have hw' : ∀ j, Waiting e' j → Waiting e j :=
      fun j hw => h.waiting_before hcov hok hnt (by omega) hw
    cases hf with
    | collect hn => exact .collect (Nat.le_trans hn (h.activeCount_after hcov hok hnt))
    | @startNext n todo rest hn hw =>
      refine .startNext ?_ fun j hj => hw j (hw' j hj)
      have hidle := h.idle_after hcov hnt todo
      have hheld := h.held_after hcov hok hnt todo todo fun j hj => .inl hj
      omega
    | @start i n todo rest hn hw =>
      refine .start ?_ fun j hj => hw j (hw' j hj)
      have hidle := h.idle_after hcov hnt todo
      have hheld := h.held_after hcov hok hnt (i :: todo) (i :: todo)
        fun j hj => .inl hj
      omega

/-- The thread of the call goes on. -/
theorem filling_next (hf : Filling e (op :: rest)) : Quiet e' ∨ Filling e' (next ++ rest) := by
  obtain ⟨e₁, hp, -⟩ := h.after
  cases hf with
  | @collect n _ hn =>
    apply h.filling_after hcov hok hnt
    simp only [State.perform] at hp
    split at hp
    · split at hp
      next l hl =>
        rw [← (Prod.mk.inj (Option.some.inj hp)).2]
        obtain ⟨hcount, hmem⟩ := State.idle_collected hl
        exact .startNext (by omega) fun j hw => hmem j hw.1
      · cases hp
    · cases hp
  | @startNext n todo _ hn hw =>
    cases todo with
    | nil => exact .inl (h.quiet_after hcov hok hnt (.inr fun j hj => by cases hw j hj))
    | cons i todo =>
      have hle := e.held_le (i :: todo)
      simp only [State.perform] at hp
      split at hp
      next hfull => exact .inl (h.quiet_after hcov hok hnt (.inl (by omega)))
      next =>
        apply h.filling_after hcov hok hnt
        obtain ⟨s, hs, hp⟩ := Option.map_eq_some_iff.mp hp
        rw [← (Prod.mk.inj hp).2]
        rw [State.idle, List.countP_cons, hs, Option.any_some] at hn
        split
        next hrun =>
          -- what runs neither waits nor is queued
          have hnq : (e.sessions[i]?).any Session.queued = false := by
            rw [hs, Option.any_some, Session.queued, hrun, Bool.not_true, Bool.and_false]
          refine .startNext ?_ fun j hj => ?_
          · rw [hrun, Bool.not_true, if_neg Bool.false_ne_true] at hn
            exact Nat.le_trans hn (State.held_skip hnq)
          · obtain rfl | hmem := List.mem_cons.mp (hw j hj)
            · have := hj.1
              rw [hnq] at this
              cases this
            · exact hmem
        next hrun =>
          refine .start ?_ hw
          rw [Bool.not_eq_true] at hrun
          rw [hrun, Bool.not_false, if_pos rfl] at hn
          show n + 1 + todo.countP _ ≤ _
          omega
  | @start i n todo tail hn hw =>
    have hnext := (Prod.mk.inj (Option.map_eq_some_iff.mp hp).choose_spec.2).2
    rw [← hnext]
    by_cases hfull : e'.maxActive ≤ e'.activeCount
    · exact .inl (.inl hfull)
    · refine .inr (.startNext ?_ fun j hj => ?_)
      · have hidle := h.idle_after hcov hnt todo
        have hheld := h.held_after hcov hok hnt (i :: todo) todo fun j hj => by
          obtain rfl | hmem := List.mem_cons.mp hj
          · exact .inr ⟨n, rfl⟩
          · exact .inl hmem
        omega
      · obtain rfl | hmem := List.mem_cons.mp (hw j (h.waiting_before hcov hok hnt (by omega) hj))
        · exact absurd hj.1 (h.not_queued_of_start hcov hnt rfl)
        · exact hmem

end Performs

/-! ## The engine at rest -/

/-- A free slot is about to be noticed, is being filled, or nothing waits for it. -/
structure Attended (e : State) : Prop where
  codes : Codes (fun code => covered code = true) e
  cases : Triggered e ∨ Quiet e ∨ ∃ code, InCode e code ∧ Filling e code

theorem Performs.attended (h : Performs e a op rest next e') (hok : Served e a) (hinv : Attended e) :
    Triggered e' ∨ Quiet e' ∨ ∃ code, InCode e' code ∧ Filling e' code := by
  by_cases hnt : Triggered e'
  · exact .inl hnt
  · refine .inr ?_
    obtain ht | hq | ⟨code, hcode, hf⟩ := hinv.cases
    · obtain ht' | hop := h.triggered hok ht
      · exact absurd ht' hnt
      · -- `startQueuedLocked` begins
        obtain ⟨e₁, hp, -⟩ := h.after
        rw [hop] at hp
        have hnext := (Prod.mk.inj (Option.some.inj hp)).2
        by_cases hfull : e.maxActive ≤ e.activeCount
        · exact .inl (h.quiet_after hinv.codes hok hnt (.inl hfull))
        · rw [if_neg hfull] at hnext
          have hf : Filling e (next ++ rest) := hnext ▸ .collect (Nat.le_refl _)
          obtain hq | hf := h.filling_after hinv.codes hok hnt hf
          · exact .inl hq
          · exact .inr ⟨_, h.inCode_next, hf⟩
    · exact .inl (h.quiet_after hinv.codes hok hnt hq)
    · obtain rfl | hcode := h.inCode hcode
      · obtain hq | hf := h.filling_next hinv.codes hok hnt hf
        · exact .inl hq
        · exact .inr ⟨_, h.inCode_next, hf⟩
      · obtain hq | hf := h.filling_after hinv.codes hok hnt hf
        · exact .inl hq
        · exact .inr ⟨code, hcode, hf⟩

theorem InCode.call (hc : InCode e code) (k : Call) :
    InCode { e with calls := e.calls ++ [k.code] } code := by
  obtain hc | hc := hc
  · exact .inl (List.mem_append_left _ hc)
  · exact .inr hc

/-- A new call takes nothing away. -/
theorem attended_call (hinv : Attended e) (k : Call) :
    Triggered { e with calls := e.calls ++ [k.code] } ∨
      Quiet { e with calls := e.calls ++ [k.code] } ∨
        ∃ code, InCode { e with calls := e.calls ++ [k.code] } code ∧
          Filling { e with calls := e.calls ++ [k.code] } code := by
  have hwait : ∀ j, Waiting { e with calls := e.calls ++ [k.code] } j → Waiting e j := by
    intro j hw
    refine ⟨hw.1, fun hr => hw.2 ?_⟩
    obtain ⟨code, hcode, hmem⟩ := hr
    exact ⟨code, hcode.call k, hmem⟩
  obtain ht | hq | ⟨code, hcode, hf⟩ := hinv.cases
  · refine .inl ?_
    obtain hev | ⟨code, hcode, hany⟩ := ht
    · exact .inl hev
    · exact .inr ⟨code, hcode.call k, hany⟩
  · refine .inr (.inl ?_)
    obtain hq | hq := hq
    · exact .inl hq
    · exact .inr fun j hw => hq j (hwait j hw)
  · refine .inr (.inr ⟨code, hcode.call k, ?_⟩)
    cases hf with
    | collect hn => exact .collect hn
    | startNext hn hw => exact .startNext hn fun j hj => hw j (hwait j hj)
    | start hn hw => exact .start hn fun j hj => hw j (hwait j hj)

theorem attended_step (hinv : Attended e) (hok : Served e a) (h : e.step a = some e') :
    Attended e' := by
  refine ⟨covered_step h hinv.codes, ?_⟩
  obtain ⟨k, -, rfl⟩ | ⟨op, rest, next, hperf⟩ := step_cases h
  · exact attended_call hinv k
  · exact hperf.attended hok hinv

theorem attended_new (maxActive : Nat) : Attended (State.new maxActive) := by
  refine ⟨codes_new maxActive rfl, .inr (.inl (.inr fun j hw => ?_))⟩
  cases hw.1

theorem Quiescent.noIdle (hq : Quiescent e) (hinv : Attended e) : NoIdle e := by
  obtain ⟨hevents, hcalls, hruns⟩ := hq
  -- what a thread may have left to do
  have hcode : ∀ code, InCode e code → ∀ op ∈ code, op = .receive ∨ op.ofRun = true := by
    intro code hc op hop
    obtain hc | ⟨j, s, r, hs, hr, rfl⟩ := hc
    · exact .inl (hcalls code hc op hop)
    · exact .inr (hruns s (List.mem_of_getElem? hs) r hr op hop)
  have hnone : ∀ j, ¬Resuming e j := by
    intro j hr
    obtain ⟨code, hc, hmem⟩ := hr
    obtain hmem | ⟨n, hmem⟩ := hmem
    · obtain hop | hop := hcode code hc _ hmem <;> cases hop
    · obtain hop | hop := hcode code hc _ hmem <;> cases hop
  obtain ht | hq | ⟨code, hc, hf⟩ := hinv.cases
  · obtain ⟨ev, hev, -⟩ | ⟨code, hc, hany⟩ := ht
    · rw [hevents] at hev
      cases hev
    · obtain ⟨op, hop, htrig⟩ := List.any_eq_true.mp hany
      obtain rfl | hrun := hcode code hc op hop
      · cases htrig
      · cases op with
        | countActive | onDone | publish => cases hrun
        | _ => cases htrig
  · obtain hq | hq := hq
    · exact .inl hq
    · refine .inr fun s hs => ?_
      obtain ⟨j, hj⟩ := List.mem_iff_getElem?.mp hs
      cases hqs : s.queued with
      | false => rfl
      | true => exact absurd ⟨by rw [hj]; exact hqs, hnone j⟩ (hq j)
  · cases hf with
    | collect hn => obtain hop | hop := hcode _ hc _ List.mem_cons_self <;> cases hop
    | startNext hn hw => obtain hop | hop := hcode _ hc _ List.mem_cons_self <;> cases hop
    | start hn hw => obtain hop | hop := hcode _ hc _ List.mem_cons_self <;> cases hop

/-- With every event of a freed slot delivered, an engine at rest has no slot idle. -/
theorem noIdle_of_served (maxActive : Nat) (as : List Action) (e : State)
    (hok : Guarded State.step Served (State.new maxActive) as)
    (h : exec State.step (State.new maxActive) as = some e) (hq : Quiescent e) : NoIdle e := by
  apply hq.noIdle
  exact exec_invariant (fun _ _ _ hinv hok hstep => attended_step hinv hok hstep)
    (attended_new maxActive) hok h

/-- `AddTorrent` in the thread `t`, with all slots taken. -/
def addAndWait (t : Nat) (id : Bytes) : List Action :=
  .call (.addTorrent id id) :: [.next, .next, .next, .next].map (.thread t)

/-- The second torrent takes the slot when the first one is complete. -/
def handOver : List Action :=
  addAndStart 1 [0] [0] ++ addAndWait 2 [1] ++ goToPeers 0 0 ++ peersToSeed 0 0 ++
    [.next, .next, .next, .order [0, 1], .next, .order [1], .next, .next, .next, .next].map
      (Action.thread 0)

theorem noIdle_handOver :
    ∃ e, exec State.step (State.new 1) handOver = some e ∧ Quiescent e ∧ NoIdle e := by
  obtain ⟨e, he, hq⟩ : ∃ e, exec State.step (State.new 1) handOver = some e ∧ Quiescent e := by
    decide +kernel
  exact ⟨e, he, hq, noIdle_of_served 1 handOver e (by decide +kernel) he hq⟩

/-- The goroutine of a magnet link goes to its download, and publishes four events. -/
def magnetToDownload (i : Nat) : List Action :=
  Action.go i 0 .magnet :: List.replicate 8 (Action.go i 0 .next) ++
    Action.go i 0 .verify :: List.replicate 5 (Action.go i 0 .next)

/-- The orchestrator gets no turn until sixteen downloads have filled its buffer and
the first of them is complete. -/
def fullBuffer : List Action :=
  ((List.range 16).flatMap fun i => addAndStart (i + 1) [UInt8.ofNat i] [i] ++ magnetToDownload i) ++
    addAndWait 17 [16] ++ [Action.go 0 0 .next, .go 0 0 .next, .go 0 0 .next] ++
      List.replicate 64 (Action.thread 0 .next)

/-- The event of the completed download is dropped: its slot stays idle, with a
torrent queued for it. -/
theorem not_noIdle_fullBuffer :
    ¬ ∀ (maxActive : Nat) (as : List Action) (e : State),
      exec State.step (State.new maxActive) as = some e → Quiescent e → NoIdle e := by
  intro hall
  obtain ⟨e, he, hq, hnot⟩ : ∃ e, exec State.step (State.new 16) fullBuffer = some e ∧
      Quiescent e ∧ ¬NoIdle e := by decide +kernel
  exact hnot (hall 16 fullBuffer e he hq)

end Control
end Stor.Engine
