import Stor.Engine.OneRun

/-!
# The story that the events tell

`setState` changes the state under the session's lock and publishes the event behind it, so
that another `setState` may come between.  Where none does (`apart`), the `StateChanged`
events of a session are a chain in the order they are published in, and the last one ends
in the state of the record (`events_of_apart`).
-/

namespace Stor.Engine
namespace Control

open Lib

/-- A change of state, as the event has it: from the first to the second. -/
abbrev Change := TorrentState × TorrentState

def Op.isPublish (j : Nat) : Op → Bool
  | .publish i _ _ => i = j
  | _ => false

/-- The session whose state `op` sets, and the new state. -/
def Op.sets (self : Option (Nat × Nat)) : Op → Option (Nat × TorrentState)
  | .setState new => self.map fun (i, _) => (i, new)
  | .setPaused i => some (i, .paused)
  | .setAdding i => some (i, .adding)
  | _ => none

namespace State

/-- A `setState` of the session `j` has changed the state and is to publish it. -/
def publishing (e : State) (j : Nat) : Bool :=
  e.sessions.any (fun s => s.runs.any fun r => r.code.any (Op.isPublish j)) ||
    e.calls.any fun code => code.any (Op.isPublish j)

/-- What the step of `a` publishes. -/
def published (e : State) (a : Action) : List (Nat × Change) :=
  match (e.code a).head? with
  | some (.publish i old new) => [(i, old, new)]
  | _ => []

/-- The state of a session is not changed while another change of it is to be published. -/
def apart (e : State) (a : Action) : Bool :=
  ((e.code a).head?.bind (Op.sets a.self)).all fun (j, new) =>
    (e.sessions[j]?).all (fun s => s.state = new) || !e.publishing j

end State

/-- An engine and the events that it has published. -/
structure Observed where
  engine : State
  log : List (Nat × Change)

namespace Observed

def new (maxActive : Nat) : Observed where
  engine := .new maxActive
  log := []

def step (o : Observed) (a : Action) : Option Observed :=
  (o.engine.step a).map fun e => { engine := e, log := o.log ++ o.engine.published a }

/-- The events of the session `j`. -/
def events (o : Observed) (j : Nat) : List Change :=
  (o.log.filter fun (i, _) => i = j).map Prod.snd

end Observed

variable {e e' : State} {a : Action} {op : Op} {next rest : List Op} {j : Nat} {s : Session}

/-! ## The code of a thread -/

inductive Thread where
  | run (i k : Nat)
  | call (t : Nat)

def Action.thread? : Action → Option Thread
  | .go i k _ => some (.run i k)
  | .thread t _ => some (.call t)
  | .call _ => none

def State.codeOf (e : State) : Thread → List Op
  | .run i k => (((e.sessions[i]?).bind fun s => s.runs[k]?).map Run.code).getD []
  | .call t => (e.calls[t]?).getD []

theorem code_eq {th : Thread} (h : a.thread? = some th) : e.code a = e.codeOf th := by
  cases a <;> cases h <;> rfl

theorem codeOf_run {k : Nat} (hs : e.sessions[j]? = some s) :
    e.codeOf (.run j k) = ((s.runs[k]?).map Run.code).getD [] := by
  rw [State.codeOf, hs]
  rfl

theorem codeOf_none (hs : e.sessions[j]? = none) (k : Nat) : e.codeOf (.run j k) = [] := by
  rw [State.codeOf, hs]
  rfl

theorem mem_codeOf {th : Thread} (h : op ∈ e.codeOf th) :
    (∃ s ∈ e.sessions, ∃ r ∈ s.runs, op ∈ r.code) ∨ ∃ code ∈ e.calls, op ∈ code := by
  cases th with
  | run i k =>
    cases hs : e.sessions[i]? with
    | none =>
      rw [codeOf_none hs] at h
      cases h
    | some s =>
      rw [codeOf_run hs] at h
      cases hr : s.runs[k]? with
      | none =>
        rw [hr] at h
        cases h
      | some r =>
        rw [hr] at h
        exact .inl ⟨s, List.mem_of_getElem? hs, r, List.mem_of_getElem? hr, h⟩
  | call t =>
    rw [State.codeOf] at h
    cases hc : e.calls[t]? with
    | none =>
      rw [hc] at h
      cases h
    | some code =>
      rw [hc] at h
      exact .inr ⟨code, List.mem_of_getElem? hc, h⟩

theorem publishing_iff :
    e.publishing j = true ↔ ∃ th, ∃ op ∈ e.codeOf th, op.isPublish j = true := by
  simp only [State.publishing, Bool.or_eq_true, List.any_eq_true]
  constructor
  · rintro (⟨s, hs, r, hr, op, hop, hpub⟩ | ⟨code, hcode, op, hop, hpub⟩)
    · obtain ⟨i, hi⟩ := List.mem_iff_getElem?.mp hs
      obtain ⟨k, hk⟩ := List.mem_iff_getElem?.mp hr
      refine ⟨.run i k, op, ?_, hpub⟩
      rw [codeOf_run hi, hk]
      exact hop
    · obtain ⟨t, ht⟩ := List.mem_iff_getElem?.mp hcode
      refine ⟨.call t, op, ?_, hpub⟩
      rw [State.codeOf, ht]
      exact hop
  · rintro ⟨th, op, hop, hpub⟩
    rcases mem_codeOf hop with ⟨s, hs, r, hr, hop⟩ | ⟨code, hcode, hop⟩
    · exact .inl ⟨s, hs, r, hr, op, hop, hpub⟩
    · exact .inr ⟨code, hcode, op, hop, hpub⟩

namespace Performs

variable (h : Performs e a op rest next e')
include h

/-- The thread that takes the step goes on with other code. -/
theorem codeOf_self {th : Thread} (ha : a.thread? = some th) :
    e.codeOf th = op :: rest ∧ e'.codeOf th = next ++ rest := by
  refine ⟨(code_eq ha).symm.trans h.code, ?_⟩
  cases a with
  | go i k c =>
    obtain rfl := Option.some.inj ha
    cases hs : e.sessions[i]? with
    | none =>
      have hcode := h.code
      rw [State.code, hs] at hcode
      cases hcode
    | some s =>
      obtain ⟨p, hs'⟩ := h.session hs
      obtain ⟨r, hr, -⟩ := h.self_run hs rfl
      have hrun : ((Action.go i k c).session i op (next ++ rest) s).runs[k]? = _ :=
        session_run (next ++ rest) hr
      rw [codeOf_run hs', Session.atPosition, hrun, Option.map_some, Option.getD_some]
      exact if_pos rfl
  | thread t c =>
    obtain rfl := Option.some.inj ha
    obtain ⟨e₁, hout, rfl⟩ := h.outside
    have hcode := h.code
    cases ht : e.calls[t]? with
    | none =>
      rw [State.code, ht] at hcode
      cases hcode
    | some code =>
      have hlt := (List.getElem?_eq_some_iff.mp ht).1
      show ((e₁.calls.set t (next ++ rest))[t]?).getD [] = next ++ rest
      rw [hout.calls, List.getElem?_set_self hlt, Option.getD_some]
  | call k => cases ha

/-- Of the other threads, a run may have been started. -/
theorem codeOf_other {th : Thread} (ha : a.thread? ≠ some th) :
    e'.codeOf th = e.codeOf th ∨ e.codeOf th = [] ∧ e'.codeOf th = [.phase .resolve] := by
  cases th with
  | run j k =>
    cases hs : e.sessions[j]? with
    | none =>
      rw [codeOf_none hs]
      cases hs' : e'.sessions[j]? with
      | none => exact .inl (codeOf_none hs' k)
      | some s' =>
        obtain ⟨id, infoHash, p, -, rfl⟩ := h.session_new hs hs'
        exact .inl (codeOf_run hs')
    | some s =>
      obtain ⟨p, hs'⟩ := h.session hs
      have hself : a.self ≠ some (j, k) := by
        intro hself
        cases a <;> cases hself
        exact ha rfl
      rw [codeOf_run hs', codeOf_run hs, Session.atPosition]
      cases hr : (a.session j op (next ++ rest) s).runs[k]? with
      | none =>
        cases hr₀ : s.runs[k]? with
        | none => exact .inl rfl
        | some r =>
          rw [session_run _ hr₀] at hr
          cases hr
      | some r' =>
        obtain ⟨r, hr₀, rfl⟩ | ⟨rfl, hk, -⟩ := h.run_cases hs hr
        · rw [hr₀]
          exact .inl (if_neg hself)
        · refine .inr ⟨?_, rfl⟩
          rw [List.getElem?_eq_none hk.ge]
          rfl
  | call t =>
    obtain ⟨e₁, hout, rfl⟩ := h.outside
    refine .inl ?_
    rw [State.codeOf, State.codeOf, ← hout.calls]
    cases a with
    | thread t' c =>
      have hne : t' ≠ t := fun heq => ha (by rw [heq]; rfl)
      show ((e₁.calls.set t' _)[t]?).getD [] = _
      rw [List.getElem?_set_ne hne]
    | _ => rfl

theorem thread_some : ∃ th, a.thread? = some th := by
  cases a with
  | go i k c => exact ⟨_, rfl⟩
  | thread t c => exact ⟨_, rfl⟩
  | call k => exact absurd h.code (List.cons_ne_nil op rest).symm

end Performs

/-! ## What is published -/

def Op.publishes : Op → Bool
  | .publish _ _ _ => true
  | _ => false

theorem isPublish_iff : op.isPublish j = true ↔ ∃ old new, op = .publish j old new := by
  cases op with
  | publish i old new => simp [Op.isPublish]
  | _ => exact ⟨fun h => (Bool.false_ne_true h).elim, fun ⟨_, _, h⟩ => Op.noConfusion h⟩

theorem isPublish_of_publishes (h : op.publishes = false) (j : Nat) : op.isPublish j = false := by
  cases op with
  | publish i old new => cases h
  | _ => rfl

theorem publishes_of_all (h : next.all (fun op => !op.publishes) = true) :
    ∀ op ∈ next, op.publishes = false := by
  intro op hop
  rw [← Bool.not_eq_true']
  exact List.all_eq_true.mp h op hop

/-- Code that publishes at most at its head. -/
def HeadOnly (code : List Op) : Prop := ∀ op ∈ code.tail, op.publishes = false

theorem Phase.GoesTo.publishes {p : Phase} (h : p.GoesTo next) :
    ∀ op ∈ next, op.publishes = false := by
  cases h <;> decide

/-- An operation that sets a state is followed by the event, and no other one by any. -/
theorem Follows.publishes (h : Follows op next) :
    (∃ i old new, next = [.publish i old new]) ∨ ∀ op ∈ next, op.publishes = false := by
  cases h with
  | phase h => exact .inr (Phase.after_goesTo h).publishes
  | setState | setPaused | setAdding => exact .inl ⟨_, _, _, rfl⟩
  | _ => exact .inr (publishes_of_all rfl)

theorem headOnly_step (h : e.step a = some e') (hcodes : Codes HeadOnly e) : Codes HeadOnly e' := by
  refine codes_step (by simp [HeadOnly]) (fun k => ?_) ?_ h hcodes
  · cases k <;> exact publishes_of_all rfl
  · intro op rest next hperf hhead
    have hrest : ∀ op ∈ rest, op.publishes = false := hhead
    obtain ⟨i, old, new, rfl⟩ | hnext := hperf.follows.publishes
    · exact hrest
    · intro op hop
      rcases List.mem_append.mp (List.mem_of_mem_tail hop) with hop | hop
      · exact hnext op hop
      · exact hrest op hop

theorem effect_sets {self : Option (Nat × Nat)} {new : TorrentState}
    (h : op.sets self = some (j, new)) : (op.effect self j s).state = new := by
  cases op with
  | setState new' =>
    obtain ⟨⟨i, k⟩, hself, heq⟩ := Option.map_eq_some_iff.mp h
    obtain ⟨rfl, rfl⟩ := Prod.mk.inj heq
    exact effect_setState (by rw [hself]; rfl)
  | setPaused i =>
    obtain ⟨rfl, rfl⟩ := Prod.mk.inj (Option.some.inj h)
    simp [Op.effect]
  | setAdding i =>
    obtain ⟨rfl, rfl⟩ := Prod.mk.inj (Option.some.inj h)
    simp [Op.effect]
  | _ => cases h

theorem effect_not_sets {self : Option (Nat × Nat)} (h : ∀ new, op.sets self ≠ some (j, new)) :
    (op.effect self j s).state = s.state := by
  refine effect_state ?_ ?_ ?_
  · rintro new rfl hself
    obtain ⟨⟨i, k⟩, rfl, rfl⟩ := Option.map_eq_some_iff.mp hself
    exact h new rfl
  · rintro rfl
    exact h _ rfl
  · rintro rfl
    exact h _ rfl

namespace Performs

variable (h : Performs e a op rest next e')
include h

theorem sets {i : Nat} {new : TorrentState} (hsets : op.sets a.self = some (i, new)) :
    ∃ s, e.sessions[i]? = some s ∧
      (s.state = new ∧ next = [] ∨ s.state ≠ new ∧ next = [.publish i s.state new]) := by
  obtain ⟨e₁, hp, -⟩ := h.after
  have hset : e.setState i new = some (e₁, next) := by
    cases op with
    | setState new' =>
      obtain ⟨⟨i', k⟩, hself, heq⟩ := Option.map_eq_some_iff.mp hsets
      obtain ⟨rfl, rfl⟩ := Prod.mk.inj heq
      rw [State.perform, hself] at hp
      exact hp
    | setPaused i' =>
      obtain ⟨rfl, rfl⟩ := Prod.mk.inj (Option.some.inj hsets)
      exact hp
    | setAdding i' =>
      obtain ⟨rfl, rfl⟩ := Prod.mk.inj (Option.some.inj hsets)
      exact hp
    | _ => cases hsets
  obtain ⟨s, hs, heq⟩ := Option.map_eq_some_iff.mp hset
  refine ⟨s, hs, ?_⟩
  split at heq
  · rename_i hstate
    exact .inl ⟨hstate, (Prod.mk.inj heq).2.symm⟩
  · rename_i hstate
    exact .inr ⟨hstate, (Prod.mk.inj heq).2.symm⟩

theorem next_quiet (hsets : op.sets a.self = none) : ∀ o ∈ next, o.publishes = false := by
  obtain ⟨e₁, hp, -⟩ := h.after
  have hfollows := h.follows
  cases hfollows with
  | setState =>
    rw [State.perform, Option.map_eq_none_iff.mp hsets] at hp
    cases hp
  | setPaused => cases hsets
  | setAdding => cases hsets
  | phase h => exact (Phase.after_goesTo h).publishes
  | _ => exact publishes_of_all rfl

/-- The state of a session behind a step. -/
theorem state (hs : e.sessions[j]? = some s) :
    ∃ s', e'.sessions[j]? = some s' ∧
      (∀ new, op.sets a.self = some (j, new) → s'.state = new) ∧
      ((∀ new, op.sets a.self ≠ some (j, new)) → s'.state = s.state) := by
  obtain ⟨p, hs'⟩ := h.session hs
  have hstate : ((a.session j op (next ++ rest) s).atPosition p).state =
      (op.effect a.self j s).state := a.session_state op j _ s
  exact ⟨_, hs', fun new hsets => hstate.trans (effect_sets hsets),
    fun hsets => hstate.trans (effect_not_sets hsets)⟩

/-- Behind a step that sets no state of the session `j` and publishes no change of it. -/
theorem isPublish_iff_of_quiet (hop : op.isPublish j = false)
    (hnext : ∀ o ∈ next, o.isPublish j = false) (th : Thread) :
    (∃ o ∈ e'.codeOf th, o.isPublish j = true) ↔ ∃ o ∈ e.codeOf th, o.isPublish j = true := by
  by_cases ha : a.thread? = some th
  · obtain ⟨hcode, hcode'⟩ := h.codeOf_self ha
    rw [hcode, hcode']
    simp only [List.mem_append, List.mem_cons]
    constructor
    · rintro ⟨o, ho | ho, hpub⟩
      · exact absurd hpub (by rw [hnext o ho]; exact Bool.false_ne_true)
      · exact ⟨o, .inr ho, hpub⟩
    · rintro ⟨o, rfl | ho, hpub⟩
      · exact absurd hpub (by rw [hop]; exact Bool.false_ne_true)
      · exact ⟨o, .inr ho, hpub⟩
  · obtain heq | ⟨heq, heq'⟩ := h.codeOf_other ha
    · rw [heq]
    · rw [heq, heq']
      simp [Op.isPublish]

end Performs

/-! ## The story -/

/-- Events that begin with a new torrent and end in `state`. -/
structure Story (events : List Change) (state : TorrentState) : Prop where
  chain : events.IsChain fun x y => y.1 = x.2
  last : (events.getLast?.map Prod.snd).getD .adding = state

theorem story_nil : Story [] .adding := ⟨List.IsChain.nil, rfl⟩

theorem Story.concat {events : List Change} {old : TorrentState} (h : Story events old)
    (new : TorrentState) : Story (events ++ [(old, new)]) new := by
  refine ⟨?_, by rw [List.getLast?_concat]; rfl⟩
  refine List.isChain_append.mpr ⟨h.chain, List.IsChain.singleton _, fun x hx y hy => ?_⟩
  have hlast := h.last
  rw [Option.mem_def.mp hx] at hlast
  rw [← Option.some.inj hy]
  exact hlast.symm

/-- What the events of the session `j` say, and what is still to be said. -/
inductive Told (e : State) (j : Nat) (events : List Change) : Prop
  | absent (hs : e.sessions[j]? = none) (hpub : e.publishing j = false) (hevents : events = [])
  | settled {s : Session} (hs : e.sessions[j]? = some s) (hpub : e.publishing j = false)
      (hstory : Story events s.state)
  | changing {s : Session} {th : Thread} {old : TorrentState} {code : List Op}
      (hs : e.sessions[j]? = some s) (hcode : e.codeOf th = .publish j old s.state :: code)
      (honly : ∀ th', (∃ o ∈ e.codeOf th', o.isPublish j = true) → th' = th)
      (hstory : Story events old)

variable {events : List Change}

theorem not_publishing_iff :
    e.publishing j = false ↔ ∀ th, ¬∃ o ∈ e.codeOf th, o.isPublish j = true := by
  rw [← Bool.not_eq_true, publishing_iff, not_exists]

/-- Where the state stays and nothing about the session is published. -/
theorem Told.quiet (htold : Told e j events)
    (hiff : ∀ th, (∃ o ∈ e'.codeOf th, o.isPublish j = true) ↔
      ∃ o ∈ e.codeOf th, o.isPublish j = true)
    (hkept : ∀ th op code, e.codeOf th = op :: code → op.isPublish j = true →
      e'.codeOf th = e.codeOf th)
    (hstate : ∀ s, e.sessions[j]? = some s → ∃ s', e'.sessions[j]? = some s' ∧ s'.state = s.state)
    (hnew : ∀ s', e.sessions[j]? = none → e'.sessions[j]? = some s' → s'.state = .adding) :
    Told e' j events := by
  have hpub' : e.publishing j = false → e'.publishing j = false := by
    rw [not_publishing_iff, not_publishing_iff]
    exact fun hpub th => mt (hiff th).mp (hpub th)
  cases htold with
  | absent hs hpub hevents =>
    cases hs' : e'.sessions[j]? with
    | none => exact .absent hs' (hpub' hpub) hevents
    | some s' => exact .settled hs' (hpub' hpub) (hevents ▸ hnew s' hs hs' ▸ story_nil)
  | settled hs hpub hstory =>
    obtain ⟨s', hs', heq⟩ := hstate _ hs
    exact .settled hs' (hpub' hpub) (heq ▸ hstory)
  | changing hs hcode honly hstory =>
    obtain ⟨s', hs', heq⟩ := hstate _ hs
    have hcode' := hkept _ _ _ hcode (decide_eq_true rfl)
    refine .changing hs' (by rw [hcode', hcode, heq]) (fun th' hmem => ?_) hstory
    exact honly th' ((hiff th').mp hmem)

/-- What the step publishes about the session `j`. -/
def State.publishedOf (e : State) (a : Action) (j : Nat) : List Change :=
  ((e.published a).filter fun (i, _) => i = j).map Prod.snd

namespace Performs

variable (h : Performs e a op rest next e')
include h

theorem publishedOf_publish {old new : TorrentState} (hop : op = .publish j old new) :
    e.publishedOf a j = [(old, new)] := by
  have hhead : (e.code a).head? = some (.publish j old new) := by rw [h.code, hop]; rfl
  rw [State.publishedOf, State.published, hhead]
  simp

theorem publishedOf_other (hop : op.isPublish j = false) : e.publishedOf a j = [] := by
  have hhead : (e.code a).head? = some op := by rw [h.code]; rfl
  rw [State.publishedOf, State.published, hhead]
  cases op with
  | publish i old new =>
    have hij : ¬i = j := of_decide_eq_false hop
    simp [hij]
  | _ => rfl

/-- The change that was made is published. -/
theorem told_publish (hcodes : Codes HeadOnly e) {old new : TorrentState}
    (hop : op = .publish j old new) (htold : Told e j events) :
    Told e' j (events ++ [(old, new)]) := by
  obtain ⟨th, ha⟩ := h.thread_some
  obtain ⟨hcode, hcode'⟩ := h.codeOf_self ha
  have hmem : ∃ o ∈ e.codeOf th, o.isPublish j = true := by
    rw [hcode, hop]
    exact ⟨_, List.mem_cons_self, decide_eq_true rfl⟩
  cases htold with
  | absent hs hpub hevents => exact absurd hmem (not_publishing_iff.mp hpub th)
  | settled hs hpub hstory => exact absurd hmem (not_publishing_iff.mp hpub th)
  | @changing s th₀ old₀ code hs hcode₀ honly hstory =>
    obtain rfl := honly th hmem
    have hsame : op = .publish j old₀ s.state := by
      rw [hcode] at hcode₀
      exact (List.cons.inj hcode₀).1
    rw [hop] at hsame
    obtain ⟨-, rfl, rfl⟩ := Op.publish.inj hsame
    have hsets : ∀ new, op.sets a.self ≠ some (j, new) := by
      rw [hop]
      exact fun _ => (Option.some_ne_none _).symm
    obtain ⟨s', hs', -, hstate⟩ := h.state hs
    have hnext : next = [] := by
      obtain ⟨e₁, hp, -⟩ := h.after
      rw [hop] at hp
      exact (Prod.mk.inj (Option.some.inj hp)).2.symm
    refine .settled hs' (not_publishing_iff.mpr fun th' => ?_) ?_
    · rintro ⟨o, ho, hpub⟩
      by_cases ha' : a.thread? = some th'
      · obtain rfl := Option.some.inj (ha.symm.trans ha')
        rw [hcode', hnext] at ho
        have hquiet : o.publishes = false := h.of_codes hcodes o ho
        obtain ⟨_, _, rfl⟩ := isPublish_iff.mp hpub
        cases hquiet
      · refine ha' (ha.trans (congrArg some (honly th' ?_).symm))
        obtain heq | ⟨-, heq⟩ := h.codeOf_other ha'
        · exact ⟨o, heq ▸ ho, hpub⟩
        · rw [heq, List.mem_singleton] at ho
          rw [ho] at hpub
          cases hpub
    · rw [hstate hsets]
      exact hstory.concat _

/-- A change is made, which is to be published. -/
theorem told_change (hpub : e.publishing j = false) {new : TorrentState}
    (hs : e.sessions[j]? = some s) (hsets : op.sets a.self = some (j, new))
    (hnext : next = [.publish j s.state new]) (htold : Told e j events) : Told e' j events := by
  have hstory : Story events s.state := by
    cases htold with
    | absent hs' => rw [hs] at hs'; cases hs'
    | settled hs' _ hstory =>
      rw [hs] at hs'
      exact Option.some.inj hs' ▸ hstory
    | @changing _ th _ _ _ hcode =>
      refine absurd ?_ (not_publishing_iff.mp hpub th)
      rw [hcode]
      exact ⟨_, List.mem_cons_self, decide_eq_true rfl⟩
  obtain ⟨th, ha⟩ := h.thread_some
  obtain ⟨-, hcode'⟩ := h.codeOf_self ha
  obtain ⟨s', hs', hstate, -⟩ := h.state hs
  rw [hnext, ← hstate new hsets] at hcode'
  refine .changing hs' hcode' (fun th' hmem => ?_) hstory
  by_cases ha' : a.thread? = some th'
  · exact Option.some.inj (ha'.symm.trans ha)
  · obtain ⟨o, ho, hpublish⟩ := hmem
    refine absurd ?_ (not_publishing_iff.mp hpub th')
    obtain heq | ⟨-, heq⟩ := h.codeOf_other ha'
    · exact ⟨o, heq ▸ ho, hpublish⟩
    · rw [heq, List.mem_singleton] at ho
      rw [ho] at hpublish
      cases hpublish

/-- Neither happens. -/
theorem told_quiet (hop : op.isPublish j = false) (hnext : ∀ o ∈ next, o.isPublish j = false)
    (hsets : ∀ s new, e.sessions[j]? = some s → op.sets a.self = some (j, new) → s.state = new)
    (htold : Told e j events) : Told e' j events := by
  refine htold.quiet (h.isPublish_iff_of_quiet hop hnext) (fun th o code hcode ho => ?_)
    (fun s hs => ?_) fun s' hs hs' => ?_
  · have ha : a.thread? ≠ some th := by
      intro ha
      rw [(h.codeOf_self ha).1] at hcode
      rw [(List.cons.inj hcode).1, ho] at hop
      cases hop
    obtain hkept | ⟨hnil, -⟩ := h.codeOf_other ha
    · exact hkept
    · rw [hcode] at hnil
      cases hnil
  · obtain ⟨s', hs', hset, hkept⟩ := h.state hs
    refine ⟨s', hs', ?_⟩
    by_cases hnew : ∃ new, op.sets a.self = some (j, new)
    · obtain ⟨new, hnew⟩ := hnew
      rw [hset new hnew, hsets s new hs hnew]
    · exact hkept (not_exists.mp hnew)
  · obtain ⟨id, infoHash, p, -, rfl⟩ := h.session_new hs hs'
    rfl

/-- What `apart` says of an operation that changes the state. -/
theorem not_publishing (hapart : e.apart a = true) {new : TorrentState}
    (hsets : op.sets a.self = some (j, new)) (hs : e.sessions[j]? = some s)
    (hstate : s.state ≠ new) : e.publishing j = false := by
  have hhead : (e.code a).head? = some op := by rw [h.code]; rfl
  rw [State.apart, hhead, Option.bind_some, hsets, Option.all_some] at hapart
  simpa [hs, hstate] using hapart

end Performs

/-- A new call has nothing to publish. -/
theorem codeOf_call (e : State) (k : Call) (th : Thread) :
    ({ e with calls := e.calls ++ [k.code] } : State).codeOf th = e.codeOf th ∨
      e.codeOf th = [] ∧
        ({ e with calls := e.calls ++ [k.code] } : State).codeOf th = k.code := by
  cases th with
  | run i m => exact .inl rfl
  | call t =>
    rcases Nat.lt_trichotomy t e.calls.length with hlt | rfl | hgt
    · refine .inl ?_
      show ((e.calls ++ [k.code])[t]?).getD [] = (e.calls[t]?).getD []
      rw [List.getElem?_append_left hlt]
    · refine .inr ⟨?_, ?_⟩
      · show (e.calls[e.calls.length]?).getD [] = []
        rw [List.getElem?_eq_none (Nat.le_refl _)]
        rfl
      · show ((e.calls ++ [k.code])[e.calls.length]?).getD [] = k.code
        rw [List.getElem?_concat_length]
        rfl
    · refine .inl ?_
      show ((e.calls ++ [k.code])[t]?).getD [] = (e.calls[t]?).getD []
      rw [List.getElem?_eq_none (by simp; omega), List.getElem?_eq_none (by omega)]

theorem told_call (k : Call) (htold : Told e j events) :
    Told { e with calls := e.calls ++ [k.code] } j events := by
  have hcall : ∀ o ∈ k.code, o.publishes = false := by
    cases k <;> exact publishes_of_all rfl
  refine htold.quiet (fun th => ?_) (fun th o code hcode _ => ?_) (fun s hs => ⟨s, hs, rfl⟩)
    fun s' hs hs' => ?_
  · obtain heq | ⟨heq, heq'⟩ := codeOf_call e k th
    · rw [heq]
    · rw [heq, heq']
      constructor
      · rintro ⟨o, ho, hpub⟩
        rw [isPublish_of_publishes (hcall o ho)] at hpub
        cases hpub
      · rintro ⟨o, ho, -⟩
        cases ho
  · obtain heq | ⟨heq, -⟩ := codeOf_call e k th
    · exact heq
    · rw [hcode] at heq
      cases heq
  · rw [show e.sessions[j]? = some s' from hs'] at hs
    cases hs

theorem told_step (h : e.step a = some e') (hcodes : Codes HeadOnly e) (hapart : e.apart a = true)
    (htold : Told e j events) : Told e' j (events ++ e.publishedOf a j) := by
  obtain ⟨k, rfl, rfl⟩ | ⟨op, rest, next, hperf⟩ := step_cases h
  · have hnone : e.publishedOf (.call k) j = [] := rfl
    rw [hnone, List.append_nil]
    exact told_call k htold
  by_cases hop : op.isPublish j = true
  · obtain ⟨old, new, hop⟩ := isPublish_iff.mp hop
    rw [hperf.publishedOf_publish hop]
    exact hperf.told_publish hcodes hop htold
  rw [Bool.not_eq_true] at hop
  rw [hperf.publishedOf_other hop, List.append_nil]
  cases hsets : op.sets a.self with
  | none =>
    refine hperf.told_quiet hop (fun o ho => ?_) (fun s new _ hs => ?_) htold
    · exact isPublish_of_publishes (hperf.next_quiet hsets o ho) j
    · rw [hsets] at hs
      cases hs
  | some target =>
    obtain ⟨i, new⟩ := target
    obtain ⟨s, hs, hcases⟩ := hperf.sets hsets
    by_cases hij : i = j
    · subst hij
      obtain ⟨hstate, rfl⟩ | ⟨hstate, hnext⟩ := hcases
      · refine hperf.told_quiet hop (fun _ ho => nomatch ho) (fun s' new' hs' hset' => ?_) htold
        rw [hsets] at hset'
        rw [← (Prod.mk.inj (Option.some.inj hset')).2, ← Option.some.inj (hs.symm.trans hs')]
        exact hstate
      · exact hperf.told_change (hperf.not_publishing hapart hsets hs hstate) hs hsets hnext htold
    · refine hperf.told_quiet hop (fun o ho => ?_) (fun s' new' _ hset' => ?_) htold
      · obtain ⟨-, rfl⟩ | ⟨-, rfl⟩ := hcases
        · cases ho
        · rw [List.mem_singleton.mp ho]
          exact decide_eq_false hij
      · rw [hsets] at hset'
        exact absurd (Prod.mk.inj (Option.some.inj hset')).1 hij

/-! ## Runs -/

namespace Observed

theorem events_append (o : Observed) (e : State) (a : Action) (j : Nat) :
    ({ engine := e, log := o.log ++ o.engine.published a } : Observed).events j =
      o.events j ++ o.engine.publishedOf a j := by
  rw [events, List.filter_append, List.map_append]
  rfl

structure Inv (o : Observed) : Prop where
  codes : Codes HeadOnly o.engine
  told : ∀ j, Told o.engine j (o.events j)

theorem inv_new (maxActive : Nat) : Inv (.new maxActive) where
  codes := codes_new maxActive (by simp [HeadOnly])
  told := fun j => .absent rfl (by simp [State.publishing, State.new, new, Op.isPublish]) rfl

theorem inv_step {o o' : Observed} (h : o.step a = some o') (hapart : o.engine.apart a = true)
    (hinv : Inv o) : Inv o' := by
  obtain ⟨e', he', rfl⟩ := Option.map_eq_some_iff.mp h
  refine ⟨headOnly_step he' hinv.codes, fun j => ?_⟩
  rw [events_append]
  exact told_step he' hinv.codes hapart (hinv.told j)

end Observed

/-- If no state is changed while another change of it is to be published, the events of a
session are a chain, and with nothing left to publish the last one ends in its state. -/
theorem events_of_apart {maxActive : Nat} {as : List Action} {o : Observed}
    (hapart : Guarded Observed.step (fun o a => o.engine.apart a = true) (.new maxActive) as)
    (hrun : exec Observed.step (.new maxActive) as = some o) (j : Nat) :
    (o.events j).IsChain (fun x y => y.1 = x.2) ∧
      (o.engine.publishing j = false → ∀ s, o.engine.sessions[j]? = some s →
        ∀ x ∈ (o.events j).getLast?, x.2 = s.state) := by
  have hinv : Observed.Inv o := exec_invariant
    (fun o a o' hinv hapart h => Observed.inv_step h hapart hinv) (Observed.inv_new maxActive)
    hapart hrun
  have hlast : ∀ {events : List Change} {state : TorrentState}, Story events state →
      ∀ x ∈ events.getLast?, x.2 = state := by
    intro events state hstory x hx
    have hlast := hstory.last
    rw [Option.mem_def.mp hx] at hlast
    exact hlast
  cases hinv.told j with
  | absent hs hpub hevents =>
    rw [hevents]
    exact ⟨List.IsChain.nil, fun _ _ _ x hx => nomatch hx⟩
  | settled hs hpub hstory =>
    refine ⟨hstory.chain, fun _ s hs' => ?_⟩
    rw [← Option.some.inj (hs.symm.trans hs')]
    exact hlast hstory
  | @changing s th old code hs hcode honly hstory =>
    refine ⟨hstory.chain, fun hpub => ?_⟩
    refine absurd ?_ (not_publishing_iff.mp hpub th)
    rw [hcode]
    exact ⟨_, List.mem_cons_self, decide_eq_true rfl⟩

theorem events_of_apart_pauseThenResume :
    ∃ o, exec Observed.step (.new 1) pauseThenResume = some o ∧
      o.events 0 = [(.adding, .downloading), (.downloading, .paused), (.paused, .adding)] ∧
      ((o.events 0).IsChain (fun x y => y.1 = x.2) ∧
        (o.engine.publishing 0 = false → ∀ s, o.engine.sessions[0]? = some s →
          ∀ x ∈ (o.events 0).getLast?, x.2 = s.state)) := by
  obtain ⟨o, ho, hevents⟩ : ∃ o, exec Observed.step (.new 1) pauseThenResume = some o ∧
      o.events 0 = [(.adding, .downloading), (.downloading, .paused), (.paused, .adding)] := by
    decide +kernel
  exact ⟨o, ho, hevents, events_of_apart (by decide +kernel) ho 0⟩

/-- The goroutine has set the state to downloading, and a pause comes between that and its
event. -/
def pauseBetween : List Action :=
  addAndStart 1 [0] [0] ++ List.replicate 3 (.go 0 0 .next) ++
    .call (.pauseTorrent 0) :: List.replicate 4 (.thread 2 .next) ++ [.go 0 0 .next]

theorem events_pauseBetween :
    ∃ o s, exec Observed.step (.new 1) pauseBetween = some o ∧ o.engine.publishing 0 = false ∧
      o.engine.sessions[0]? = some s ∧ s.state = .paused ∧
      o.events 0 = [(.downloading, .paused), (.adding, .downloading)] ∧
      ¬(o.events 0).IsChain (fun x y => y.1 = x.2) := by
  obtain ⟨o, ho, hpub, hevents, s, hs, hstate⟩ : ∃ o,
      exec Observed.step (.new 1) pauseBetween = some o ∧ o.engine.publishing 0 = false ∧
        o.events 0 = [(.downloading, .paused), (.adding, .downloading)] ∧
        ∃ s, o.engine.sessions[0]? = some s ∧ s.state = .paused := by decide +kernel
  refine ⟨o, s, ho, hpub, hs, hstate, hevents, ?_⟩
  rw [hevents]
  decide

end Control
end Stor.Engine
