import Stor.Engine.Control
import Stor.Lib.Run
import Stor.Lib.Update

/-!
# What a step does to a session

An operation changes a session through one function (`Op.effect`), up to the queue
position; the thread that performs it goes on with other code (`Action.recode`); and
a new session is one that `AddTorrent` made.  The invariants of the engine that
speak of one session at a time go through these facts.
-/

namespace Stor.Engine
namespace Control

open Lib

variable {e e' : State} {a : Action} {op : Op} {c : Choice} {self : Option (Nat × Nat)}
  {next rest : List Op} {i j k : Nat} {s s' : Session}

/-- What `op` does to the session `j`. -/
def Op.effect (self : Option (Nat × Nat)) (j : Nat) (op : Op) (s : Session) : Session :=
  match op with
  | .setState new => if self.map Prod.fst = some j then { s with state := new } else s
  | .exit _ => if self.map Prod.fst = some j then { s with cancel := none } else s
  | .start i _ => if i = j then s.start else s
  | .pause i => if i = j then s.pause else s
  | .setPaused i => if i = j then { s with state := .paused } else s
  | .setAdding i => if i = j then { s with state := .adding } else s
  | .delete i => if i = j then { s with listed := false } else s
  | _ => s

/-- The session at another place of the queue. -/
def Session.atPosition (s : Session) (p : Int) : Session := { s with queuePosition := p }

namespace State

theorem modify_session (e : State) (i j : Nat) (f : Session → Session) :
    (e.modify i f).sessions[j]? = (e.sessions[j]?).map fun s => if i = j then f s else s :=
  List.getElem?_modify f i e.sessions j

/-- No session is new, and each went through `g`, up to its position. -/
def Changed (e e' : State) (g : Nat → Session → Session) : Prop :=
  e'.sessions.length = e.sessions.length ∧
    ∀ (j : Nat) s, e.sessions[j]? = some s → ∃ p, e'.sessions[j]? = some ((g j s).atPosition p)

theorem changed_refl (h : e'.sessions = e.sessions) : Changed e e' fun _ s => s :=
  ⟨by rw [h], fun _ s hs => ⟨s.queuePosition, by rw [h, hs]; rfl⟩⟩

theorem changed_modify (e : State) (i : Nat) (f : Session → Session) :
    Changed e (e.modify i f) fun j s => if i = j then f s else s := by
  refine ⟨List.length_modify f e.sessions i, fun j s hs => ?_⟩
  refine ⟨(if i = j then f s else s).queuePosition, ?_⟩
  rw [modify_session, hs, Option.map_some]
  rfl

theorem changed_mapPositions (e : State) (f : Nat → Int → Int) :
    Changed e (e.mapPositions f) fun _ s => s := by
  refine ⟨List.length_mapIdx, fun j s hs => ?_⟩
  have hj : (e.mapPositions f).sessions[j]? =
      some (if s.listed then s.atPosition (f j s.queuePosition) else s) := by
    show (e.sessions.mapIdx _)[j]? = _
    rw [List.getElem?_mapIdx, hs, Option.map_some]
    rfl
  by_cases hl : s.listed = true
  · exact ⟨_, by rw [hj, if_pos hl]⟩
  · exact ⟨s.queuePosition, by rw [hj, if_neg hl]; rfl⟩

theorem Changed.congr {g g' : Nat → Session → Session} (h : Changed e e' g)
    (hg : ∀ (j : Nat) s, e.sessions[j]? = some s → g j s = g' j s) : Changed e e' g' := by
  refine ⟨h.1, fun j s hs => ?_⟩
  rw [← hg j s hs]
  exact h.2 j s hs

end State

/-! ## What a thread does next -/

/-- The operations that may leave nothing to do. -/
def Op.mayEnd : Op → Bool
  | .phase _ | .exit _ | .onDone | .receive | .collect _ => false
  | _ => true

/-- Where a place of `run` leads, whatever the session and the outcome. -/
inductive Phase.GoesTo : Phase → List Op → Prop
  | resolved : GoesTo .resolve [.phase .named]
  | magnet : GoesTo .resolve [.setState .metadata, .phase .fetch]
  | fetched : GoesTo .fetch [.phase .named]
  | seeder : GoesTo .named [.phase .checkResume]
  | leecher : GoesTo .named [.setState .downloading, .phase .findPeers]
  | peers : GoesTo .findPeers [.phase .checkResume]
  | seedDirect : GoesTo .checkResume [.setState .seeding, .register, .phase .seed]
  | missing : GoesTo .checkResume [.phase .prepare]
  | prepared : GoesTo .prepare [.setState .downloading, .register, .phase .download]
  | verify : GoesTo .prepare
      [.setState .verifying, .setState .downloading, .register, .phase .download]
  | downloaded : GoesTo .download [.setState .seeding, .phase .seed]
  | seeded : GoesTo .seed [.unregister, .phase .seedExit]
  | complete : GoesTo .seedExit [.setState .complete, .exit false]
  | failed {p : Phase} : GoesTo p [.exit true]
  | cancelled {p : Phase} : GoesTo p [.exit false]

theorem Phase.after_goesTo {p : Phase} {b : Bool} {c : Choice} (h : p.after s b c = some next) :
    p.GoesTo next := by
  unfold Phase.after at h
  split at h <;> try split at h
  all_goals
    cases h
    try constructor

/-- What may follow an operation, whatever the state of the engine. -/
inductive Follows : Op → List Op → Prop
  | nothing {op : Op} (h : op.mayEnd) : Follows op []
  | phase {p : Phase} {s : Session} {b : Bool} {c : Choice} {next : List Op}
      (h : p.after s b c = some next) : Follows (.phase p) next
  | setState {i : Nat} {old new : TorrentState} : Follows (.setState new) [.publish i old new]
  | setPaused {i : Nat} {old : TorrentState} : Follows (.setPaused i) [.publish i old .paused]
  | setAdding {i : Nat} {old : TorrentState} : Follows (.setAdding i) [.publish i old .adding]
  | exitError : Follows (.exit true) [.setState .error, .onDone]
  | exit {failed : Bool} : Follows (.exit failed) [.onDone]
  | onDone : Follows .onDone startQueued
  | receiveFree : Follows .receive [.lock, .compact, .countActive, .unlock, .receive]
  | receive : Follows .receive [.receive]
  | countActive {n : Nat} : Follows .countActive [.collect n]
  | collect {n : Nat} {l : List Nat} : Follows (.collect n) [.startNext n l]
  | skip {n i : Nat} {l : List Nat} : Follows (.startNext n (i :: l)) [.startNext n l]
  | startNext {n i : Nat} {l : List Nat} :
      Follows (.startNext n (i :: l)) [.start i n, .startNext (n + 1) l]
  | startIfFree {i n : Nat} : Follows (.startIfFree i) [.start i n]
  | addTorrent {id infoHash : Bytes} : Follows (.addTorrent id infoHash) [.countActive]
  | removeNone {i : Nat} : Follows (.removeTorrent i) [.unlock]
  | removeTorrent {i : Nat} :
      Follows (.removeTorrent i) ([.pause i, .delete i, .compact, .unlock] ++ startQueued)
  | pauseTorrent {i : Nat} : Follows (.pauseTorrent i) (.pause i :: startQueued)
  | pause {i : Nat} : Follows (.pause i) [.setPaused i]
  | resumeTorrent {i : Nat} : Follows (.resumeTorrent i) [.checkPaused i]
  | checkPaused {i : Nat} : Follows (.checkPaused i) [.setAdding i, .startIfFree i]
  | queueTop {i : Nat} : Follows (.queueTop i) [.countActive]
  | queueUp {i : Nat} : Follows (.queueUp i) [.countActive]
  | queueDown {i : Nat} : Follows (.queueDown i) [.countActive]

/-! ## Operations -/

/-- What an operation can do to the engine: to one session, to the positions of all, or
to something beside them. -/
inductive Moves (self : Option (Nat × Nat)) (e : State) (op : Op) : State → Prop
  | stay (heff : ∀ j s, op.effect self j s = s) : Moves self e op e
  | modify {i : Nat} {f : Session → Session}
      (heff : ∀ j s, op.effect self j s = if i = j then f s else s) : Moves self e op (e.modify i f)
  /-- A `setState` that finds the state it would write. -/
  | same {i : Nat} {s : Session} {new : TorrentState} (hs : e.sessions[i]? = some s)
      (hstate : s.state = new)
      (heff : ∀ j s, op.effect self j s = if i = j then { s with state := new } else s) :
      Moves self e op e
  | positions {f : Nat → Int → Int} (heff : ∀ j s, op.effect self j s = s) :
      Moves self e op (e.mapPositions f)
  | add {id infoHash : Bytes} {p : Int} (hop : op = .addTorrent id infoHash) :
      Moves self e op { e with sessions := e.sessions ++ [Session.new id infoHash p] }
  | handlers {f : Bytes → Option Nat} (hop : op = .register ∨ op = .unregister) :
      Moves self e op { e with handlers := f }
  | events {l : List (TorrentState × TorrentState)}
      (hop : (∃ i old new, op = .publish i old new) ∨ op = .receive) :
      Moves self e op { e with events := l }
  | locked {b : Bool} (hop : op = .lock ∨ op = .unlock) : Moves self e op { e with locked := b }
  | limit {n : Nat} (hop : op = .setMaxActive n) : Moves self e op { e with maxActive := n }

namespace State

theorem perform_addTorrent {id infoHash : Bytes}
    (h : e.perform self c (.addTorrent id infoHash) = some (e', next)) :
    (e' = e ∧ next = []) ∨
      (∃ p, e' = { e with sessions := e.sessions ++ [Session.new id infoHash p] }) ∧
        next = [.countActive] := by
  have h : e.addTorrent id infoHash = (e', next) := Option.some.inj h
  rw [addTorrent] at h
  split at h
  · exact .inl ⟨(Prod.mk.inj h).1.symm, (Prod.mk.inj h).2.symm⟩
  · split at h
    · exact .inl ⟨(Prod.mk.inj h).1.symm, (Prod.mk.inj h).2.symm⟩
    · exact .inr ⟨⟨_, (Prod.mk.inj h).1.symm⟩, (Prod.mk.inj h).2.symm⟩

theorem setState_moves {new : TorrentState}
    (heff : ∀ j s, op.effect self j s = if i = j then { s with state := new } else s)
    (hpub : ∀ old, Follows op [.publish i old new]) (hend : op.mayEnd)
    (h : e.setState i new = some (e', next)) : Moves self e op e' ∧ Follows op next := by
  obtain ⟨s, hs, heq⟩ := Option.map_eq_some_iff.mp h
  split at heq
  next hstate =>
    obtain ⟨rfl, rfl⟩ := Prod.mk.inj heq
    exact ⟨.same hs hstate heff, .nothing hend⟩
  next =>
    obtain ⟨rfl, rfl⟩ := Prod.mk.inj heq
    exact ⟨.modify heff, hpub s.state⟩

theorem swap_moves {posA posB : Int} (heff : ∀ j s, op.effect self j s = s)
    (hcount : Follows op [.countActive])
    (h : (match c with
      | .swap a b => (e.swapQueuePositions posA posB a b).map (·, [Op.countActive])
      | _ => none) = some (e', next)) : Moves self e op e' ∧ Follows op next := by
  split at h
  · obtain ⟨e₁, he₁, heq⟩ := Option.map_eq_some_iff.mp h
    obtain ⟨rfl, rfl⟩ := Prod.mk.inj heq
    rw [swapQueuePositions] at he₁
    split at he₁
    · obtain rfl := Option.some.inj he₁
      exact ⟨.positions heff, hcount⟩
    · cases he₁
  · cases h

theorem setQueuePosition_moves {p : Int} (heff : ∀ j s, op.effect self j s = s) :
    Moves self e op (e.setQueuePosition i p) := by
  unfold setQueuePosition
  exact .positions heff

theorem queueMove_moves {move : Option (State × List Op)} (heff : ∀ j s, op.effect self j s = s)
    (hend : op.mayEnd) (h : e.queueMove i move = some (e', next))
    (hmove : move = some (e', next) → Moves self e op e' ∧ Follows op next) :
    Moves self e op e' ∧ Follows op next := by
  rw [queueMove] at h
  split at h
  · exact hmove h
  · obtain ⟨rfl, rfl⟩ := Prod.mk.inj (Option.some.inj h)
    exact ⟨.stay heff, .nothing hend⟩

/-- An operation that always comes out in one way. -/
theorem moves_of_eq {e₁ : State} {l : List Op} (hmoves : Moves self e op e₁)
    (hfollows : Follows op l) (h : some (e₁, l) = some (e', next)) :
    Moves self e op e' ∧ Follows op next := by
  obtain ⟨rfl, rfl⟩ := Prod.mk.inj (Option.some.inj h)
  exact ⟨hmoves, hfollows⟩

/-- An operation that needs a session, or something else that is there. -/
theorem moves_of_map {α : Type} {o : Option α} {e₁ : α → State} {l : α → List Op}
    (hmoves : ∀ x, Moves self e op (e₁ x)) (hfollows : ∀ x, Follows op (l x))
    (h : (o.map fun x => (e₁ x, l x)) = some (e', next)) :
    Moves self e op e' ∧ Follows op next := by
  obtain ⟨x, -, h⟩ := Option.map_eq_some_iff.mp h
  exact moves_of_eq (hmoves x) (hfollows x) (congrArg some h)

/-- The operations one by one; everything else about them follows from this. -/
theorem perform_moves (h : e.perform self c op = some (e', next)) :
    Moves self e op e' ∧ Follows op next := by
  cases op with
  | phase p =>
    obtain ⟨⟨i, k⟩, -, h⟩ := Option.bind_eq_some_iff.mp h
    obtain ⟨s, -, h⟩ := Option.bind_eq_some_iff.mp h
    obtain ⟨r, -, h⟩ := Option.bind_eq_some_iff.mp h
    obtain ⟨n, hn, h⟩ := Option.map_eq_some_iff.mp h
    exact moves_of_eq (.stay fun _ _ => rfl) (.phase hn) (congrArg some h)
  | setState new =>
    obtain ⟨⟨i, k⟩, rfl, h⟩ := Option.bind_eq_some_iff.mp h
    refine setState_moves (fun j s => ?_) (fun _ => .setState) rfl h
    simp only [Op.effect, Option.map_some, Option.some.injEq]
  | setPaused i => exact setState_moves (fun _ _ => rfl) (fun _ => .setPaused) rfl h
  | setAdding i => exact setState_moves (fun _ _ => rfl) (fun _ => .setAdding) rfl h
  | register =>
    obtain ⟨⟨i, k⟩, -, h⟩ := Option.bind_eq_some_iff.mp h
    exact moves_of_map (fun _ => .handlers (.inl rfl)) (fun _ => .nothing rfl) h
  | unregister =>
    obtain ⟨⟨i, k⟩, -, h⟩ := Option.bind_eq_some_iff.mp h
    exact moves_of_map (fun _ => .handlers (.inr rfl)) (fun _ => .nothing rfl) h
  | exit failed =>
    obtain ⟨⟨i, k⟩, rfl, h⟩ := Option.bind_eq_some_iff.mp h
    refine moves_of_map (fun _ => .modify fun j s => ?_) (fun _ => ?_) h
    · simp only [Op.effect, Option.map_some, Option.some.injEq]
    · split
      next hf => exact hf.1 ▸ .exitError
      next => exact .exit
  | onDone => exact moves_of_eq (.stay fun _ _ => rfl) .onDone h
  | publish i old new =>
    refine moves_of_eq ?_ (.nothing rfl) h
    split
    · exact .events (.inl ⟨i, old, new, rfl⟩)
    · exact .stay fun _ _ => rfl
  | receive =>
    simp only [perform] at h
    split at h
    · cases h
    · refine moves_of_eq (.events (.inr rfl)) ?_ h
      split
      · exact .receiveFree
      · exact .receive
  | lock =>
    simp only [perform] at h
    split at h
    · cases h
    · exact moves_of_eq (.locked (.inl rfl)) (.nothing rfl) h
  | unlock => exact moves_of_eq (.locked (.inr rfl)) (.nothing rfl) h
  | compact =>
    simp only [perform] at h
    split at h
    · split at h
      · exact moves_of_eq (.positions fun _ _ => rfl) (.nothing rfl) h
      · cases h
    · cases h
  | countActive =>
    refine moves_of_eq (.stay fun _ _ => rfl) ?_ h
    split
    · exact .nothing rfl
    · exact .countActive
  | collect active =>
    simp only [perform] at h
    split at h
    · split at h
      · exact moves_of_eq (.stay fun _ _ => rfl) .collect h
      · cases h
    · cases h
  | startNext active queued =>
    cases queued with
    | nil => exact moves_of_eq (.stay fun _ _ => rfl) (.nothing rfl) h
    | cons i queued =>
      simp only [perform] at h
      split at h
      · exact moves_of_eq (.stay fun _ _ => rfl) (.nothing rfl) h
      · refine moves_of_map (fun _ => .stay fun _ _ => rfl) (fun s => ?_) h
        split
        · exact .skip
        · exact .startNext
  | startIfFree i =>
    refine moves_of_eq (.stay fun _ _ => rfl) ?_ h
    split
    · exact .startIfFree
    · exact .nothing rfl
  | start i active => exact moves_of_map (fun _ => .modify fun _ _ => rfl) (fun _ => .nothing rfl) h
  | addTorrent id infoHash =>
    obtain ⟨rfl, rfl⟩ | ⟨⟨p, rfl⟩, rfl⟩ := perform_addTorrent h
    · exact ⟨.stay fun _ _ => rfl, .nothing rfl⟩
    · exact ⟨.add rfl, .addTorrent⟩
  | removeTorrent i =>
    refine moves_of_eq (.stay fun _ _ => rfl) ?_ h
    split
    · exact .removeTorrent
    · exact .removeNone
  | pauseTorrent i =>
    refine moves_of_eq (.stay fun _ _ => rfl) ?_ h
    split
    · exact .pauseTorrent
    · exact .nothing rfl
  | pause i =>
    refine moves_of_map (fun _ => .modify fun _ _ => rfl) (fun s => ?_) h
    split
    · exact .pause
    · exact .nothing rfl
  | delete i => exact moves_of_eq (.modify fun _ _ => rfl) (.nothing rfl) h
  | resumeTorrent i =>
    refine moves_of_eq (.stay fun _ _ => rfl) ?_ h
    split
    · exact .resumeTorrent
    · exact .nothing rfl
  | checkPaused i =>
    refine moves_of_map (fun _ => .stay fun _ _ => rfl) (fun s => ?_) h
    split
    · exact .checkPaused
    · exact .nothing rfl
  | queueTop i =>
    apply queueMove_moves (fun _ _ => rfl) rfl h
    intro h
    split at h
    · exact moves_of_eq (.stay fun _ _ => rfl) (.nothing rfl) h
    · exact moves_of_eq (setQueuePosition_moves fun _ _ => rfl) .queueTop h
  | queueUp i =>
    apply queueMove_moves (fun _ _ => rfl) rfl h
    intro h
    split at h
    · exact moves_of_eq (.stay fun _ _ => rfl) (.nothing rfl) h
    · exact swap_moves (fun _ _ => rfl) .queueUp h
  | queueDown i =>
    apply queueMove_moves (fun _ _ => rfl) rfl h
    intro h
    split at h
    · exact moves_of_eq (.stay fun _ _ => rfl) (.nothing rfl) h
    · exact swap_moves (fun _ _ => rfl) .queueDown h
  | queueBottom i =>
    apply queueMove_moves (fun _ _ => rfl) rfl h
    intro h
    split at h
    · exact moves_of_eq (.stay fun _ _ => rfl) (.nothing rfl) h
    · exact moves_of_eq (setQueuePosition_moves fun _ _ => rfl) (.nothing rfl) h
  | setMaxActive n => exact moves_of_eq (.limit rfl) (.nothing rfl) h

/-- Every operation but `AddTorrent`'s changes each session by its effect. -/
theorem perform_changed (h : e.perform self c op = some (e', next))
    (hop : ∀ id infoHash, op ≠ .addTorrent id infoHash) : Changed e e' (op.effect self) := by
  have hrefl : ∀ e₁ : State, e₁.sessions = e.sessions → (∀ j s, op.effect self j s = s) →
      Changed e e₁ (op.effect self) := by
    intro e₁ he₁ heff
    exact (changed_refl he₁).congr fun j s _ => (heff j s).symm
  cases (perform_moves h).1 with
  | stay heff => exact hrefl e rfl heff
  | modify heff => exact (changed_modify e _ _).congr fun j s _ => (heff j s).symm
  | @same i s new hs hstate heff =>
    apply (changed_refl rfl).congr
    intro j t ht
    rw [heff]
    by_cases hij : i = j
    · subst hij
      rw [hs, Option.some_inj] at ht
      rw [if_pos rfl, ← ht, ← hstate]
    · rw [if_neg hij]
  | positions heff => exact (changed_mapPositions e _).congr fun j s _ => (heff j s).symm
  | add hadd => exact absurd hadd (hop _ _)
  | handlers hh => obtain rfl | rfl := hh <;> exact hrefl _ rfl fun _ _ => rfl
  | events he => obtain ⟨i, old, new, rfl⟩ | rfl := he <;> exact hrefl _ rfl fun _ _ => rfl
  | locked hl => obtain rfl | rfl := hl <;> exact hrefl _ rfl fun _ _ => rfl
  | limit hn =>
    subst hn
    exact hrefl _ rfl fun _ _ => rfl

/-- What an operation leaves alone beside the sessions. -/
structure Outside (op : Op) (e e' : State) : Prop where
  calls : e'.calls = e.calls
  maxActive : (∀ n, op ≠ .setMaxActive n) → e'.maxActive = e.maxActive
  events : (∀ i old new, op ≠ .publish i old new) → op ≠ .receive → e'.events = e.events
  handlers : op ≠ .register → op ≠ .unregister → e'.handlers = e.handlers

theorem perform_outside (h : e.perform self c op = some (e', next)) : Outside op e e' := by
  cases (perform_moves h).1 with
  | stay | modify | same | positions | add | locked =>
    exact ⟨rfl, fun _ => rfl, fun _ _ => rfl, fun _ _ => rfl⟩
  | handlers hop =>
    exact ⟨rfl, fun _ => rfl, fun _ _ => rfl, fun hr hu => absurd hop (by simp [hr, hu])⟩
  | events hop =>
    refine ⟨rfl, fun _ => rfl, fun hp hr => ?_, fun _ _ => rfl⟩
    obtain ⟨i, old, new, hop⟩ | hop := hop
    · exact absurd hop (hp i old new)
    · exact absurd hop hr
  | limit hop => exact ⟨rfl, fun hne => absurd hop (hne _), fun _ _ => rfl, fun _ _ => rfl⟩

end State

/-! ## Steps -/

/-- The goroutine that takes the step is cancelled. -/
def State.isCancelled (e : State) (a : Action) : Bool :=
  a.self.any fun (i, k) => (e.sessions[i]?).any fun s => (s.runs[k]?).any Run.cancelled

/-- The step of `a` performs `op`, which leaves `next` to do before `rest`. -/
structure Performs (e : State) (a : Action) (op : Op) (rest next : List Op) (e' : State) : Prop where
  code : e.code a = op :: rest
  after : ∃ e₁, e.perform a.self a.choice op = some (e₁, next) ∧ e' = e₁.setCode a (next ++ rest)

theorem step_cases (h : e.step a = some e') :
    (∃ k, a = .call k ∧ e' = { e with calls := e.calls ++ [k.code] }) ∨
      ∃ op rest next, Performs e a op rest next e' := by
  unfold State.step at h
  split at h
  next k => exact .inl ⟨k, rfl, (Option.some.inj h).symm⟩
  next =>
  split at h
  · cases h
  next op rest hcode =>
  obtain ⟨⟨e₁, next⟩, hp, heq⟩ := Option.map_eq_some_iff.mp h
  exact .inr ⟨op, rest, next, hcode, e₁, hp, heq.symm⟩

/-- What the step of `a` does to the code of the session `j`. -/
def Action.recode (a : Action) (j : Nat) (code : List Op) (s : Session) : Session :=
  match a with
  | .go i k _ => if i = j then s.setCode k code else s
  | _ => s

/-- The session `j` behind a step. -/
def Action.session (a : Action) (j : Nat) (op : Op) (code : List Op) (s : Session) : Session :=
  a.recode j code (op.effect a.self j s)

theorem Action.recode_atPosition (a : Action) (j : Nat) (code : List Op) (s : Session) (p : Int) :
    a.recode j code (s.atPosition p) = (a.recode j code s).atPosition p := by
  cases a with
  | go i k c =>
    simp only [recode]
    split <;> rfl
  | _ => rfl

theorem setCode_session (e : State) (a : Action) (code : List Op) (j : Nat) :
    (e.setCode a code).sessions[j]? = (e.sessions[j]?).map (a.recode j code) := by
  cases a with
  | go i k c => exact e.modify_session i j _
  | _ => exact (Option.map_id' (x := e.sessions[j]?)).symm

namespace Performs

variable (h : Performs e a op rest next e')
include h

theorem follows : Follows op next := by
  obtain ⟨e₁, hp, -⟩ := h.after
  exact (State.perform_moves hp).2

theorem session (hs : e.sessions[j]? = some s) :
    ∃ p, e'.sessions[j]? = some ((a.session j op (next ++ rest) s).atPosition p) := by
  obtain ⟨e₁, hp, rfl⟩ := h.after
  rw [setCode_session]
  have hfound : ∃ p, e₁.sessions[j]? = some ((op.effect a.self j s).atPosition p) := by
    by_cases hadd : ∃ id infoHash, op = .addTorrent id infoHash
    · obtain ⟨id, infoHash, rfl⟩ := hadd
      refine ⟨s.queuePosition, ?_⟩
      obtain ⟨rfl, -⟩ | ⟨⟨p, rfl⟩, -⟩ := State.perform_addTorrent hp
      · exact hs
      · exact List.getElem?_append_left (List.getElem?_eq_some_iff.mp hs).1 ▸ hs
    · exact (State.perform_changed hp fun id infoHash hop => hadd ⟨id, infoHash, hop⟩).2 j s hs
  obtain ⟨p, hp⟩ := hfound
  exact ⟨p, by rw [hp, Option.map_some, Action.recode_atPosition]; rfl⟩

/-- A session that was not there before. -/
theorem session_new (hs : e.sessions[j]? = none) (hs' : e'.sessions[j]? = some s') :
    ∃ id infoHash p, op = .addTorrent id infoHash ∧ s' = Session.new id infoHash p := by
  obtain ⟨e₁, hp, rfl⟩ := h.after
  rw [setCode_session] at hs'
  obtain ⟨s₁, hs₁, rfl⟩ := Option.map_eq_some_iff.mp hs'
  have hlen := List.getElem?_eq_none_iff.mp hs
  have hlen₁ := (List.getElem?_eq_some_iff.mp hs₁).1
  by_cases hadd : ∃ id infoHash, op = .addTorrent id infoHash
  · obtain ⟨id, infoHash, rfl⟩ := hadd
    obtain ⟨rfl, -⟩ | ⟨⟨p, rfl⟩, -⟩ := State.perform_addTorrent hp
    · omega
    · have hnew : s₁ = Session.new id infoHash p := by
        rw [List.getElem?_append_right hlen] at hs₁
        exact List.mem_singleton.mp (List.mem_of_getElem? hs₁)
      refine ⟨id, infoHash, p, rfl, ?_⟩
      rw [hnew]
      cases a with
      | go i k c =>
        -- the session of a goroutine was there before
        have hij : i ≠ j := by
          intro hij
          have hcode := h.code
          simp only [State.code, hij, hs, Option.bind_none, Option.map_none, Option.getD_none,
            List.nil_eq, reduceCtorEq] at hcode
        exact if_neg hij
      | _ => rfl
  · have := (State.perform_changed hp fun id infoHash hop => hadd ⟨id, infoHash, hop⟩).1
    omega

end Performs

/-- A property of single sessions that does not look at the queue position. -/
theorem sessions_step {P : Nat → Session → Prop}
    (hpos : ∀ j s p, P j s → P j (s.atPosition p))
    (hnew : ∀ j id infoHash p, P j (Session.new id infoHash p))
    (hstep : ∀ op rest next, Performs e a op rest next e' → ∀ (j : Nat) s, e.sessions[j]? = some s →
      P j s → P j (a.session j op (next ++ rest) s))
    (h : e.step a = some e') (hP : ∀ (j : Nat) s, e.sessions[j]? = some s → P j s) :
    ∀ (j : Nat) s, e'.sessions[j]? = some s → P j s := by
  intro j s' hs'
  obtain ⟨k, -, rfl⟩ | ⟨op, rest, next, hperf⟩ := step_cases h
  · exact hP j s' hs'
  · cases hs : e.sessions[j]? with
    | none =>
      obtain ⟨id, infoHash, p, -, rfl⟩ := hperf.session_new hs hs'
      exact hnew j id infoHash p
    | some s =>
      obtain ⟨p, hp⟩ := hperf.session hs
      rw [hp, Option.some_inj] at hs'
      exact hs' ▸ hpos j _ p (hstep op rest next hperf j s hs (hP j s hs))

/-! ## Effects -/

def Op.isExit : Op → Bool
  | .exit _ => true
  | _ => false

/-- `Pause` touches the cancel function and the goroutine that it cancels. -/
theorem Session.pause_eq (s : Session) : ∃ runs, s.pause = { s with cancel := none, runs := runs } := by
  unfold Session.pause
  split
  next h => exact ⟨s.runs, by rw [← h]⟩
  next => exact ⟨_, rfl⟩

theorem Session.pause_cancel (s : Session) : s.pause.cancel = none := by
  obtain ⟨runs, h⟩ := s.pause_eq
  rw [h]

/-- `s.cancel` is touched by a start, by `Pause` and by the exit section. -/
theorem effect_cancel {self : Option (Nat × Nat)} (hstart : ∀ n, op ≠ .start j n)
    (hpause : op ≠ .pause j) (hexit : op.isExit = true → self.map Prod.fst ≠ some j) :
    (op.effect self j s).cancel = s.cancel := by
  cases op with
  | start i n =>
    have hij : i ≠ j := fun hij => hstart n (by rw [hij])
    simp only [Op.effect, if_neg hij]
  | pause i =>
    have hij : i ≠ j := fun hij => hpause (by rw [hij])
    simp only [Op.effect, if_neg hij]
  | exit failed => simp only [Op.effect, if_neg (hexit rfl)]
  | setState | setPaused | setAdding | delete =>
    simp only [Op.effect]
    split <;> rfl
  | _ => rfl

/-- The state of a session is written by its goroutines, by `Pause` and by
`ResumeTorrent`. -/
theorem effect_state {self : Option (Nat × Nat)}
    (hset : ∀ new, op = .setState new → self.map Prod.fst ≠ some j) (hpaused : op ≠ .setPaused j)
    (hadding : op ≠ .setAdding j) : (op.effect self j s).state = s.state := by
  cases op with
  | setState new => simp only [Op.effect, if_neg (hset new rfl)]
  | setPaused i =>
    have hij : i ≠ j := fun hij => hpaused (by rw [hij])
    simp only [Op.effect, if_neg hij]
  | setAdding i =>
    have hij : i ≠ j := fun hij => hadding (by rw [hij])
    simp only [Op.effect, if_neg hij]
  | pause i =>
    obtain ⟨runs, h⟩ := s.pause_eq
    simp only [Op.effect, h]
    split <;> rfl
  | start | exit | delete =>
    simp only [Op.effect]
    split <;> rfl
  | _ => rfl

theorem effect_setState {self : Option (Nat × Nat)} {new : TorrentState}
    (h : self.map Prod.fst = some j) : ((Op.setState new).effect self j s).state = new := by
  simp only [Op.effect, if_pos h]

/-- Who may have changed the state of the session. -/
theorem effect_state_cases (op : Op) (self : Option (Nat × Nat)) (j : Nat) (s : Session) :
    (op.effect self j s).state = s.state ∨ op = .setPaused j ∨ op = .setAdding j ∨
      ∃ new m, op = .setState new ∧ self = some (j, m) ∧ (op.effect self j s).state = new := by
  by_cases hp : op = .setPaused j
  · exact .inr (.inl hp)
  · by_cases ha : op = .setAdding j
    · exact .inr (.inr (.inl ha))
    · by_cases hset : ∃ new, op = .setState new ∧ self.map Prod.fst = some j
      · obtain ⟨new, hop, hself⟩ := hset
        obtain ⟨⟨i, m⟩, him, hij⟩ := Option.map_eq_some_iff.mp hself
        obtain rfl : i = j := hij
        refine .inr (.inr (.inr ⟨new, m, hop, him, ?_⟩))
        rw [hop]
        exact effect_setState hself
      · exact .inl (effect_state (fun new hn hself => hset ⟨new, hn, hself⟩) hp ha)

/-- Only `RemoveTorrent` takes a session out of the engine. -/
theorem effect_listed {self : Option (Nat × Nat)} :
    (op.effect self j s).listed = (s.listed && decide (op ≠ .delete j)) := by
  cases op with
  | delete i =>
    by_cases hij : i = j
    · simp only [Op.effect, hij, if_true, ne_eq, not_true, decide_false, Bool.and_false]
    · have hne : Op.delete i ≠ .delete j := fun h => hij (by injection h)
      simp only [Op.effect, hij, if_false, hne, ne_eq, not_false_eq_true, decide_true, Bool.and_true]
  | pause i =>
    rw [decide_eq_true (fun h => by cases h), Bool.and_true]
    obtain ⟨runs, h⟩ := s.pause_eq
    simp only [Op.effect, h]
    split <;> rfl
  | _ =>
    rw [decide_eq_true (fun h => by cases h), Bool.and_true]
    simp only [Op.effect]
    try split <;> rfl

theorem effect_infoHash {self : Option (Nat × Nat)} :
    (op.effect self j s).infoHash = s.infoHash := by
  cases op with
  | pause i =>
    obtain ⟨runs, h⟩ := s.pause_eq
    simp only [Op.effect, h]
    split <;> rfl
  | _ =>
    simp only [Op.effect]
    try split <;> rfl

/-! ## Runs -/

/-- The goroutine of `Start` as it begins. -/
def Run.new : Run := { cancelled := false, code := [.phase .resolve] }

theorem Session.pause_run (s : Session) (k : Nat) :
    s.pause.runs[k]? =
      (s.runs[k]?).map fun r => if s.cancel = some k then { r with cancelled := true } else r := by
  unfold Session.pause
  cases hc : s.cancel with
  | none =>
    show s.runs[k]? = _
    cases s.runs[k]? with
    | none => rfl
    | some r => simp only [Option.map_some, reduceCtorEq, if_false]
  | some m =>
    show (s.runs.modify m _)[k]? = _
    rw [List.getElem?_modify]
    simp only [Option.some.injEq]
    rfl

theorem Session.start_run_of_lt {r : Run} (hr : s.runs[k]? = some r) :
    s.start.runs[k]? = some r := by
  show (s.runs ++ _)[k]? = _
  rw [List.getElem?_append_left (List.getElem?_eq_some_iff.mp hr).1, hr]

/-- The runs of a session are touched by a start and by `Pause`. -/
theorem effect_runs {self : Option (Nat × Nat)} (hstart : ∀ n, op ≠ .start j n)
    (hpause : op ≠ .pause j) : (op.effect self j s).runs = s.runs := by
  cases op with
  | start i n =>
    have hij : i ≠ j := fun hij => hstart n (by rw [hij])
    simp only [Op.effect, if_neg hij]
  | pause i =>
    have hij : i ≠ j := fun hij => hpause (by rw [hij])
    simp only [Op.effect, if_neg hij]
  | setState | exit | setPaused | setAdding | delete =>
    simp only [Op.effect]
    split <;> rfl
  | _ => rfl

/-- A run keeps its code under every operation, and only `Pause` cancels it. -/
theorem effect_run {r : Run} (op : Op) (self : Option (Nat × Nat)) (hr : s.runs[k]? = some r) :
    (op.effect self j s).runs[k]? =
      some (if op = .pause j ∧ s.cancel = some k then { r with cancelled := true } else r) := by
  by_cases hpause : op = .pause j
  · rw [hpause]
    simp only [Op.effect, if_true, true_and]
    rw [Session.pause_run, hr, Option.map_some]
  · rw [if_neg fun h => hpause h.1]
    by_cases hstart : ∃ n, op = .start j n
    · obtain ⟨n, hop⟩ := hstart
      rw [hop]
      simp only [Op.effect, if_true]
      exact Session.start_run_of_lt hr
    · rw [effect_runs (fun n hn => hstart ⟨n, hn⟩) hpause, hr]

/-- A run that was not there before. -/
theorem effect_run_new {r : Run} (hk : s.runs[k]? = none)
    (hr : (op.effect self j s).runs[k]? = some r) :
    r = Run.new ∧ k = s.runs.length ∧ ∃ n, op = .start j n := by
  by_cases hstart : ∃ n, op = .start j n
  · obtain ⟨n, hop⟩ := hstart
    have hlen := List.getElem?_eq_none_iff.mp hk
    rw [hop] at hr
    simp only [Op.effect, if_true, Session.start] at hr
    rw [List.getElem?_append_right hlen] at hr
    have hzero : k - s.runs.length = 0 := by
      have := (List.getElem?_eq_some_iff.mp hr).1
      rw [List.length_singleton] at this
      omega
    rw [hzero, List.getElem?_cons_zero, Option.some_inj] at hr
    exact ⟨hr.symm, by omega, n, hop⟩
  · by_cases hpause : op = .pause j
    · rw [hpause] at hr
      simp only [Op.effect, if_true] at hr
      rw [Session.pause_run, hk] at hr
      cases hr
    · rw [effect_runs (fun n hn => hstart ⟨n, hn⟩) hpause, hk] at hr
      cases hr

namespace Action

variable (a j op) (code : List Op)

/-- What is not the code of a run is as the operation left it. -/
theorem session_field {β : Type} (f : Session → β) (hf : ∀ s k, f (s.setCode k code) = f s)
    (s : Session) : f (a.session j op code s) = f (op.effect a.self j s) := by
  unfold session recode
  split
  · split
    · exact hf _ _
    · rfl
  · rfl

@[simp] theorem session_state (s : Session) :
    (a.session j op code s).state = (op.effect a.self j s).state :=
  session_field a op j code Session.state (fun _ _ => rfl) s

@[simp] theorem session_cancel (s : Session) :
    (a.session j op code s).cancel = (op.effect a.self j s).cancel :=
  session_field a op j code Session.cancel (fun _ _ => rfl) s

@[simp] theorem session_listed (s : Session) :
    (a.session j op code s).listed = (op.effect a.self j s).listed :=
  session_field a op j code Session.listed (fun _ _ => rfl) s

@[simp] theorem session_infoHash (s : Session) :
    (a.session j op code s).infoHash = (op.effect a.self j s).infoHash :=
  session_field a op j code Session.infoHash (fun _ _ => rfl) s

theorem recode_run (s : Session) (k : Nat) :
    (a.recode j code s).runs[k]? =
      (s.runs[k]?).map fun r => if a.self = some (j, k) then { r with code := code } else r := by
  cases a with
  | go i m c =>
    simp only [recode, self, Option.some.injEq, Prod.mk.injEq]
    by_cases hij : i = j
    · rw [if_pos hij, Session.setCode, List.getElem?_modify]
      simp only [hij, true_and]
      rfl
    · rw [if_neg hij]
      simp only [hij, false_and, if_false, Option.map_id']
  | thread t c => simp only [recode, self, reduceCtorEq, if_false, Option.map_id']
  | call k => simp only [recode, self, reduceCtorEq, if_false, Option.map_id']

end Action

/-- A run that was there before a step. -/
theorem session_run {r : Run} (code : List Op) (hr : s.runs[k]? = some r) :
    (a.session j op code s).runs[k]? =
      some { cancelled := r.cancelled || decide (op = .pause j ∧ s.cancel = some k)
             code := if a.self = some (j, k) then code else r.code } := by
  unfold Action.session
  rw [Action.recode_run, effect_run op a.self hr, Option.map_some]
  by_cases hp : op = .pause j ∧ s.cancel = some k
  · simp only [hp, and_self, if_true, decide_true, Bool.or_true]
    split <;> rfl
  · simp only [hp, if_false, decide_false, Bool.or_false]
    split <;> rfl

namespace Performs

variable (h : Performs e a op rest next e')
include h

/-- The run of the goroutine that takes the step. -/
theorem self_run (hs : e.sessions[j]? = some s) (ha : a.self = some (j, k)) :
    ∃ r, s.runs[k]? = some r ∧ r.code = op :: rest := by
  cases a with
  | go i m c =>
    obtain ⟨rfl, rfl⟩ := Prod.mk.inj (Option.some.inj ha)
    have hcode := h.code
    simp only [State.code, hs, Option.bind_some] at hcode
    cases hr : s.runs[m]? with
    | none => rw [hr] at hcode; cases hcode
    | some r =>
      rw [hr] at hcode
      exact ⟨r, rfl, hcode⟩
  | _ => cases ha

theorem self_code {r : Run} (hs : e.sessions[j]? = some s) (ha : a.self = some (j, k))
    (hr : s.runs[k]? = some r) : r.code = op :: rest := by
  obtain ⟨q, hq, hcode⟩ := h.self_run hs ha
  rw [hr, Option.some_inj] at hq
  rw [hq, hcode]

theorem outside : ∃ e₁, State.Outside op e e₁ ∧ e' = e₁.setCode a (next ++ rest) := by
  obtain ⟨e₁, hp, he'⟩ := h.after
  exact ⟨e₁, State.perform_outside hp, he'⟩

theorem maxActive_eq (hop : ∀ n, op ≠ .setMaxActive n) : e'.maxActive = e.maxActive := by
  obtain ⟨e₁, hout, rfl⟩ := h.outside
  rw [← hout.maxActive hop]
  cases a <;> rfl

theorem events_eq (hpub : ∀ i old new, op ≠ .publish i old new) (hrec : op ≠ .receive) :
    e'.events = e.events := by
  obtain ⟨e₁, hout, rfl⟩ := h.outside
  rw [← hout.events hpub hrec]
  cases a <;> rfl

theorem handlers_eq (hreg : op ≠ .register) (hunreg : op ≠ .unregister) :
    e'.handlers = e.handlers := by
  obtain ⟨e₁, hout, rfl⟩ := h.outside
  rw [← hout.handlers hreg hunreg]
  cases a <;> rfl

/-- A place of `run` is left as `Phase.after` says. -/
theorem phase_after {p : Phase} (hop : op = .phase p) :
    ∃ (i k : Nat) (s : Session) (r : Run), a.self = some (i, k) ∧ e.sessions[i]? = some s ∧
      s.runs[k]? = some r ∧ p.after s r.cancelled a.choice = some next := by
  obtain ⟨e₁, hp, -⟩ := h.after
  rw [hop] at hp
  obtain ⟨⟨i, k⟩, hself, hp⟩ := Option.bind_eq_some_iff.mp hp
  obtain ⟨s, hs, hp⟩ := Option.bind_eq_some_iff.mp hp
  obtain ⟨r, hr, hp⟩ := Option.bind_eq_some_iff.mp hp
  obtain ⟨n, hn, hp⟩ := Option.map_eq_some_iff.mp hp
  exact ⟨i, k, s, r, hself, hs, hr, (Prod.mk.inj hp).2 ▸ hn⟩

/-- A run behind a step was there before, or the step started it. -/
theorem run_cases {r' : Run} (hs : e.sessions[j]? = some s)
    (hr : (a.session j op (next ++ rest) s).runs[k]? = some r') :
    (∃ r, s.runs[k]? = some r ∧
      r' = { cancelled := r.cancelled || decide (op = .pause j ∧ s.cancel = some k)
             code := if a.self = some (j, k) then next ++ rest else r.code }) ∨
      r' = Run.new ∧ k = s.runs.length ∧ ∃ n, op = .start j n := by
  cases hk : s.runs[k]? with
  | some r =>
    rw [session_run _ hk, Option.some_inj] at hr
    exact .inl ⟨r, rfl, hr.symm⟩
  | none =>
    have ha : a.self ≠ some (j, k) := by
      intro ha
      obtain ⟨r, hr, -⟩ := h.self_run hs ha
      rw [hk] at hr
      cases hr
    have hr' : (op.effect a.self j s).runs[k]? = some r' := by
      unfold Action.session at hr
      rw [Action.recode_run] at hr
      simpa only [ha, if_false, Option.map_id'] using hr
    exact .inr (effect_run_new hk hr')

end Performs

/-! ## Code -/

/-- `P` holds of the code of every thread. -/
def Codes (P : List Op → Prop) (e : State) : Prop :=
  (∀ (j : Nat) s, e.sessions[j]? = some s → ∀ r ∈ s.runs, P r.code) ∧ ∀ code ∈ e.calls, P code

/-- The code of the thread that takes the step. -/
theorem Performs.of_codes {P : List Op → Prop} (h : Performs e a op rest next e')
    (hP : Codes P e) : P (op :: rest) := by
  have hcode := h.code
  cases a with
  | go i k c =>
    cases hs : e.sessions[i]? with
    | none =>
      rw [State.code, hs] at hcode
      cases hcode
    | some s =>
      obtain ⟨r, hr, hrc⟩ := h.self_run hs rfl
      exact hrc ▸ hP.1 i s hs r (List.mem_of_getElem? hr)
  | thread t c =>
    cases ht : e.calls[t]? with
    | none =>
      rw [State.code, ht] at hcode
      cases hcode
    | some l =>
      rw [State.code, ht] at hcode
      exact hcode ▸ hP.2 l (List.mem_of_getElem? ht)
  | call k => cases hcode

theorem codes_new {P : List Op → Prop} (maxActive : Nat) (h : P [.receive]) :
    Codes P (State.new maxActive) := by
  constructor
  · intro j s hs
    cases hs
  · intro code hcode
    exact List.mem_singleton.mp hcode ▸ h

theorem codes_step {P : List Op → Prop} (hstart : P [.phase .resolve]) (hcall : ∀ k, P (Call.code k))
    (hstep : ∀ op rest next, Performs e a op rest next e' → P (op :: rest) → P (next ++ rest))
    (h : e.step a = some e') (hP : Codes P e) : Codes P e' := by
  constructor
  · apply sessions_step (P := fun _ s => ∀ r ∈ s.runs, P r.code) (fun _ _ _ h => h)
      (fun _ _ _ _ r hr => by cases hr) _ h hP.1
    intro op rest next hperf j s hs hall r' hr'
    obtain ⟨k, hk⟩ := List.mem_iff_getElem?.mp hr'
    obtain ⟨r, hr, rfl⟩ | ⟨rfl, -, -⟩ := hperf.run_cases hs hk
    · by_cases ha : a.self = some (j, k)
      · rw [if_pos ha]
        exact hstep op rest next hperf (hperf.self_code hs ha hr ▸ hall r (List.mem_of_getElem? hr))
      · rw [if_neg ha]
        exact hall r (List.mem_of_getElem? hr)
    · exact hstart
  · intro code hcode
    obtain ⟨k, -, rfl⟩ | ⟨op, rest, next, hperf⟩ := step_cases h
    · obtain hcode | hcode := List.mem_append.mp hcode
      · exact hP.2 code hcode
      · exact List.mem_singleton.mp hcode ▸ hcall k
    · obtain ⟨e₁, hp, rfl⟩ := hperf.after
      have hcalls := (State.perform_outside hp).calls
      cases a with
      | thread t c =>
        obtain hcode | hcode := List.mem_or_eq_of_mem_set hcode
        · exact hP.2 code (hcalls ▸ hcode)
        · exact hcode ▸ hstep op rest next hperf (hperf.of_codes hP)
      | go i k c => exact hP.2 code (hcalls ▸ hcode)
      | call k => exact hP.2 code (hcalls ▸ hcode)

end Control
end Stor.Engine
