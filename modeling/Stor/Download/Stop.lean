import Stor.Lib.Run

/-!
# Stopping the uploader

`HandleIncoming` and `Stop` of `download/upload.go`, one step for each section under
the lock of the uploader and for each call that may wait or fail.  `Stop` closes the
connections that it finds in `u.clients`, and then waits for every call of
`HandleIncoming` that was counted in `serveWg`.  A call is counted in one section and
added to `u.clients` in a later one.  When `Stop` takes its copy of the clients while
no call is between the two (`Settled`), it waits for no call that could block on an
open connection (`stopSafe_of_settled`).
-/

namespace Stor.Download
namespace Uploader

open Lib

/-- Where a call of `HandleIncoming` is. -/
inductive Stage where
  | entered
  | counted
  | greeted
  | listed
  | reading
  | leaving
  | returned
  deriving DecidableEq, Repr

structure Conn where
  stage : Stage
  closed : Bool
  deriving DecidableEq, Repr

/-- Where `Stop` is, with the clients that it has still to close. -/
inductive Stopping where
  | idle
  | closing (clients : List Nat)
  | waiting
  | returned
  deriving DecidableEq, Repr

structure State where
  stopped : Bool
  clients : List Nat
  conns : List Conn
  stopping : Stopping
  deriving DecidableEq, Repr

/-- The calls are named by the number of their connection. -/
inductive Action where
  | incoming
  | enter (k : Nat)
  | handshake (k : Nat) (ok : Bool)
  | append (k : Nat)
  | serve (k : Nat) (ok : Bool)
  | message (k : Nat) (ok : Bool)
  | leave (k : Nat)
  | stop
  | close
  | wait
  deriving DecidableEq, Repr

namespace Conn

/-- The call is counted in `serveWg`. -/
def inFlight (c : Conn) : Bool :=
  match c.stage with
  | .entered | .returned => false
  | _ => true

/-- `ReadMessage` waits on an open connection. -/
def blocked (c : Conn) : Bool := c.stage = .reading && !c.closed

end Conn

namespace State

def new : State where
  stopped := false
  clients := []
  conns := []
  stopping := .idle

def closeConn (e : State) (k : Nat) : State :=
  { e with conns := e.conns.modify k fun c => { c with closed := true } }

/-- The call `k` goes on from one stage to another. -/
def move (e : State) (k : Nat) (old new : Stage) : Option State :=
  if (e.conns[k]?).any fun c => c.stage = old then
    some { e with conns := e.conns.modify k fun c => { c with stage := new } }
  else none

def step (e : State) : Action → Option State
  | .incoming => some { e with conns := e.conns ++ [{ stage := .entered, closed := false }] }
  -- the check of `u.stopped`, with `serveWg.Add`
  | .enter k =>
    if e.stopped then (e.move k .entered .returned).map fun e => e.closeConn k
    else e.move k .entered .counted
  | .handshake k ok => e.move k .counted (if ok then .greeted else .leaving)
  | .append k => (e.move k .greeted .listed).map fun e => { e with clients := e.clients ++ [k] }
  -- the first message and the storage of `serveLoop`
  | .serve k ok => e.move k .listed (if ok then .reading else .leaving)
  -- a round of `serveLoop`, which ends when `ReadMessage` or the answer fails
  | .message k ok => e.move k .reading (if ok then .reading else .leaving)
  -- the deferred calls; behind a failed handshake the listener closes the connection
  | .leave k =>
    (e.move k .leaving .returned).map fun e =>
      { e.closeConn k with clients := e.clients.erase k }
  | .stop =>
    some (if e.stopped then e else { e with stopped := true, stopping := .closing e.clients })
  | .close =>
    match e.stopping with
    | .closing (k :: clients) => some { e.closeConn k with stopping := .closing clients }
    | .closing [] => some { e with stopping := .waiting }
    | _ => none
  | .wait =>
    if e.stopping = .waiting ∧ e.conns.all fun c => !c.inFlight then
      some { e with stopping := .returned }
    else none

/-- The clients that `Stop` has still to close. -/
def toClose (e : State) : List Nat :=
  match e.stopping with
  | .closing clients => clients
  | _ => []

end State

/-- While `Stop` waits, a call that is in flight has its connection closed, or will
never block on it. -/
def StopSafe (e : State) : Prop :=
  e.stopping = .waiting → ∀ (k : Nat) c, e.conns[k]? = some c → c.inFlight = true →
    c.closed = true ∨ ∀ as e', exec State.step e as = some e' → (e'.conns[k]?).any Conn.blocked = false

/-- `Stop` finds no call between `serveWg.Add` and `u.clients`. -/
def Settled (e : State) : Action → Prop
  | .stop =>
    e.stopped = true ∨ e.conns.all (fun c => c.stage ≠ .counted ∧ c.stage ≠ .greeted) = true
  | _ => True

instance (e : State) : ∀ a, Decidable (Settled e a)
  | .stop => inferInstanceAs (Decidable (_ ∨ _))
  | .incoming | .enter _ | .handshake _ _ | .append _ | .serve _ _ | .message _ _ | .leave _ | .close
  | .wait => isTrue trivial

variable {e e' : State} {a : Action} {k j : Nat} {c : Conn} {old new : Stage}

/-! ## Steps -/

namespace State

theorem move_some (h : e.move k old new = some e') :
    (∃ c, e.conns[k]? = some c ∧ c.stage = old) ∧
      e' = { e with conns := e.conns.modify k fun c => { c with stage := new } } := by
  unfold move at h
  split at h
  next hany =>
    obtain ⟨c, hc, hstage⟩ := (Option.any_eq_true _ _).mp hany
    exact ⟨⟨c, hc, of_decide_eq_true hstage⟩, (Option.some.inj h).symm⟩
  · cases h

/-- A connection that has been changed at the place `k`. -/
theorem modify_conn {f : Conn → Conn} (h : (e.conns.modify k f)[j]? = some c) :
    ∃ c₀, e.conns[j]? = some c₀ ∧ c = if k = j then f c₀ else c₀ := by
  rw [List.getElem?_modify] at h
  obtain ⟨c₀, hc₀, rfl⟩ := Option.map_eq_some_iff.mp h
  refine ⟨c₀, hc₀, ?_⟩
  split <;> rfl

end State

/-! ## What `Stop` finds -/

/-- A call before its entry in `u.clients` is there while `Stop` has not been called;
one behind it is in `u.clients`, and `Stop` has closed its connection or will. -/
structure Conn.Ok (stopped : Bool) (clients toClose : List Nat) (k : Nat) (c : Conn) : Prop where
  unlisted : c.stage = .counted ∨ c.stage = .greeted → stopped = false
  listed : c.stage = .listed ∨ c.stage = .reading →
    k ∈ clients ∧ (stopped = true → c.closed = true ∨ k ∈ toClose)

/-- The stages that ask for nothing. -/
theorem Conn.ok_of_stage {stopped : Bool} {clients toClose : List Nat}
    (h : c.stage = .entered ∨ c.stage = .leaving ∨ c.stage = .returned) :
    c.Ok stopped clients toClose k := by
  obtain h | h | h := h
  all_goals
    constructor
    · intro hs
      rw [h] at hs
      obtain hs | hs := hs <;> cases hs
    · intro hs
      rw [h] at hs
      obtain hs | hs := hs <;> cases hs

theorem Conn.ok_unlisted {stopped : Bool} {clients toClose : List Nat}
    (hs : c.stage = .counted ∨ c.stage = .greeted) (h : stopped = false) :
    c.Ok stopped clients toClose k := by
  refine ⟨fun _ => h, fun hlisted => ?_⟩
  obtain hs | hs := hs
  all_goals
    rw [hs] at hlisted
    obtain hlisted | hlisted := hlisted <;> cases hlisted

theorem Conn.ok_listed {stopped : Bool} {clients toClose : List Nat}
    (hs : c.stage = .listed ∨ c.stage = .reading)
    (h : k ∈ clients ∧ (stopped = true → c.closed = true ∨ k ∈ toClose)) :
    c.Ok stopped clients toClose k := by
  refine ⟨fun hunlisted => ?_, fun _ => h⟩
  obtain hs | hs := hs
  all_goals
    rw [hs] at hunlisted
    obtain hunlisted | hunlisted := hunlisted <;> cases hunlisted

structure Tracked (e : State) : Prop where
  stopped : e.stopping ≠ .idle → e.stopped = true
  conns : ∀ (k : Nat) c, e.conns[k]? = some c → c.Ok e.stopped e.clients e.toClose k

namespace Tracked

variable (hinv : Tracked e)
include hinv

theorem move (h : e.move k old new = some e')
    (hok : ∀ c : Conn, c.stage = old → c.Ok e.stopped e.clients e.toClose k →
      Conn.Ok e.stopped e.clients e.toClose k { c with stage := new }) : Tracked e' := by
  obtain ⟨⟨c₁, hc₁, hstage⟩, rfl⟩ := State.move_some h
  refine ⟨hinv.stopped, fun j c hc => ?_⟩
  obtain ⟨c₀, hc₀, rfl⟩ := State.modify_conn hc
  by_cases hkj : k = j
  · subst hkj
    rw [if_pos rfl]
    rw [hc₁, Option.some_inj] at hc₀
    subst hc₀
    exact hok c₁ hstage (hinv.conns k c₁ hc₁)
  · rw [if_neg hkj]
    exact hinv.conns j c₀ hc₀

/-- A call that leaves, or goes on. -/
theorem move_leaving {ok : Bool} (h : e.move k old (if ok then new else .leaving) = some e')
    (hok : ∀ c : Conn, c.stage = old → c.Ok e.stopped e.clients e.toClose k →
      Conn.Ok e.stopped e.clients e.toClose k { c with stage := new }) : Tracked e' := by
  cases ok with
  | true => exact hinv.move h hok
  | false => exact hinv.move h fun c _ _ => Conn.ok_of_stage (.inr (.inl rfl))

theorem closeConn (k : Nat) : Tracked (e.closeConn k) := by
  refine ⟨hinv.stopped, fun j c hc => ?_⟩
  obtain ⟨c₀, hc₀, rfl⟩ := State.modify_conn hc
  have hok := hinv.conns j c₀ hc₀
  split
  · exact ⟨hok.unlisted, fun hs => ⟨(hok.listed hs).1, fun _ => .inl rfl⟩⟩
  · exact hok

theorem setClients {clients : List Nat}
    (hmem : ∀ (k : Nat) c, e.conns[k]? = some c → c.stage = .listed ∨ c.stage = .reading →
      k ∈ e.clients → k ∈ clients) : Tracked { e with clients := clients } := by
  refine ⟨hinv.stopped, fun k c hc => ?_⟩
  have hok := hinv.conns k c hc
  exact ⟨hok.unlisted, fun hs => ⟨hmem k c hc hs (hok.listed hs).1, (hok.listed hs).2⟩⟩

theorem enter (h : e.step (.enter k) = some e') : Tracked e' := by
  simp only [State.step] at h
  split at h
  · obtain ⟨e₁, he₁, rfl⟩ := Option.map_eq_some_iff.mp h
    apply closeConn
    exact hinv.move he₁ fun c _ _ => Conn.ok_of_stage (.inr (.inr rfl))
  next hstopped =>
    apply hinv.move h
    intro c _ _
    exact Conn.ok_unlisted (.inl rfl) (Bool.eq_false_iff.mpr hstopped)

theorem append (h : e.step (.append k) = some e') : Tracked e' := by
  obtain ⟨e₁, he₁, rfl⟩ := Option.map_eq_some_iff.mp h
  obtain ⟨⟨c₁, hc₁, hstage⟩, rfl⟩ := State.move_some he₁
  -- the client is there before its call is behind the entry
  have hlisted : Tracked { e with clients := e.clients ++ [k] } :=
    hinv.setClients fun j c _ _ hj => List.mem_append_left _ hj
  have hmove : State.move { e with clients := e.clients ++ [k] } k .greeted .listed =
      some { e with clients := e.clients ++ [k]
                    conns := e.conns.modify k fun c => { c with stage := .listed } } := by
    unfold State.move
    rw [hc₁, Option.any_some, if_pos (decide_eq_true hstage)]
  apply hlisted.move hmove
  intro c hc hok
  apply Conn.ok_listed (.inl rfl)
  refine ⟨List.mem_append_right _ (List.mem_singleton.mpr rfl), fun hstopped => ?_⟩
  have hfalse := hok.unlisted (.inr hc)
  rw [hstopped] at hfalse
  cases hfalse

theorem leave (h : e.step (.leave k) = some e') : Tracked e' := by
  obtain ⟨e₁, he₁, rfl⟩ := Option.map_eq_some_iff.mp h
  have hmoved : Tracked e₁ := hinv.move he₁ fun c _ _ => Conn.ok_of_stage (.inr (.inr rfl))
  apply (hmoved.closeConn k).setClients
  intro j c hc hs hj
  have hjk : j ≠ k := by
    intro hjk
    subst hjk
    obtain ⟨-, rfl⟩ := State.move_some he₁
    obtain ⟨c₀, hc₀, rfl⟩ := State.modify_conn hc
    obtain ⟨c₁, -, rfl⟩ := State.modify_conn hc₀
    simp only [if_true] at hs
    obtain hs | hs := hs <;> cases hs
  exact (List.mem_erase_of_ne hjk).mpr hj

theorem stop (hok : Settled e .stop) (h : e.step .stop = some e') : Tracked e' := by
  have h := Option.some.inj h
  split at h
  · exact h ▸ hinv
  next hstopped =>
    subst h
    refine ⟨fun _ => rfl, fun k c hc => ?_⟩
    have hconn := hinv.conns k c hc
    refine ⟨fun hs => ?_, fun hs => ⟨(hconn.listed hs).1, fun _ => .inr (hconn.listed hs).1⟩⟩
    obtain hok | hok := hok
    · exact absurd hok hstopped
    · have hstage := of_decide_eq_true (List.all_eq_true.mp hok c (List.mem_of_getElem? hc))
      obtain hs | hs := hs
      · exact absurd hs hstage.1
      · exact absurd hs hstage.2

theorem close (h : e.step .close = some e') : Tracked e' := by
  simp only [State.step] at h
  split at h
  next k clients hclosing =>
    obtain rfl := Option.some.inj h
    have hstopped := hinv.stopped (by rw [hclosing]; exact fun h => by cases h)
    refine ⟨fun _ => hstopped, fun j c hc => ?_⟩
    obtain ⟨c₀, hc₀, rfl⟩ := State.modify_conn hc
    have hconn := hinv.conns j c₀ hc₀
    rw [State.toClose, hclosing] at hconn
    by_cases hkj : k = j
    · rw [if_pos hkj]
      exact ⟨hconn.unlisted, fun hs => ⟨(hconn.listed hs).1, fun _ => .inl rfl⟩⟩
    · rw [if_neg hkj]
      refine ⟨hconn.unlisted, fun hs => ⟨(hconn.listed hs).1, fun hst => ?_⟩⟩
      exact ((hconn.listed hs).2 hst).imp_right (List.mem_of_ne_of_mem (Ne.symm hkj))
  next hclosing =>
    obtain rfl := Option.some.inj h
    have hstopped := hinv.stopped (by rw [hclosing]; exact fun h => by cases h)
    refine ⟨fun _ => hstopped, fun k c hc => ?_⟩
    have hconn := hinv.conns k c hc
    rw [State.toClose, hclosing] at hconn
    exact hconn
  · cases h

theorem step (hok : Settled e a) (h : e.step a = some e') : Tracked e' := by
  cases a with
  | incoming =>
    obtain rfl := Option.some.inj h
    refine ⟨hinv.stopped, fun k c hc => ?_⟩
    by_cases hk : k < e.conns.length
    · exact hinv.conns k c (List.getElem?_append_left hk ▸ hc)
    · have hnew : c = { stage := .entered, closed := false } := by
        rw [List.getElem?_append_right (Nat.le_of_not_lt hk)] at hc
        exact List.mem_singleton.mp (List.mem_of_getElem? hc)
      exact Conn.ok_of_stage (.inl (by rw [hnew]))
  | enter k => exact hinv.enter h
  | handshake k ok =>
    apply hinv.move_leaving h
    intro c hc hconn
    exact Conn.ok_unlisted (.inr rfl) (hconn.unlisted (.inl hc))
  | append k => exact hinv.append h
  | serve k ok =>
    apply hinv.move_leaving h
    intro c hc hconn
    exact Conn.ok_listed (.inr rfl) (hconn.listed (.inl hc))
  | message k ok =>
    apply hinv.move_leaving h
    intro c hc hconn
    exact Conn.ok_listed (.inr rfl) (hconn.listed (.inr hc))
  | leave k => exact hinv.leave h
  | stop => exact hinv.stop hok h
  | close => exact hinv.close h
  | wait =>
    simp only [State.step] at h
    split at h
    next hwait =>
      obtain rfl := Option.some.inj h
      have hstopped := hinv.stopped (by rw [hwait.1]; exact fun h => by cases h)
      refine ⟨fun _ => hstopped, fun k c hc => ?_⟩
      have hconn := hinv.conns k c hc
      rw [State.toClose, hwait.1] at hconn
      exact hconn
    · cases h

end Tracked

/-! ## Calls that leave -/

/-- The call is behind its last `ReadMessage`. -/
def Gone (e : State) (k : Nat) : Prop :=
  ∃ c, e.conns[k]? = some c ∧ (c.stage = .leaving ∨ c.stage = .returned)

namespace Gone

variable (hgone : Gone e k)
include hgone

theorem modify {f : Conn → Conn} (j : Nat)
    (hf : ∀ c, e.conns[j]? = some c → c.stage = .leaving ∨ c.stage = .returned →
      (f c).stage = .leaving ∨ (f c).stage = .returned) :
    Gone { e with conns := e.conns.modify j f } k := by
  obtain ⟨c, hc, hstage⟩ := hgone
  refine ⟨if j = k then f c else c, ?_, ?_⟩
  · show (e.conns.modify j f)[k]? = _
    rw [List.getElem?_modify, hc]
    by_cases hjk : j = k <;> simp [hjk]
  · by_cases hjk : j = k
    · rw [if_pos hjk]
      exact hf c (hjk ▸ hc) hstage
    · rw [if_neg hjk]
      exact hstage

theorem move (h : e.move j old new = some e')
    (hstage : old = .leaving → new = .returned) (hold : old ≠ .returned) : Gone e' k := by
  obtain ⟨⟨c₁, hc₁, rfl⟩, rfl⟩ := State.move_some h
  apply hgone.modify j
  intro c hc hs
  rw [hc₁, Option.some_inj] at hc
  subst hc
  obtain hs | hs := hs
  · exact .inr (hstage hs)
  · exact absurd hs hold

theorem closeConn (j : Nat) : Gone (e.closeConn j) k := hgone.modify j fun _ _ hs => hs

theorem step (h : e.step a = some e') : Gone e' k := by
  cases a with
  | incoming =>
    obtain rfl := Option.some.inj h
    obtain ⟨c, hc, hstage⟩ := hgone
    exact ⟨c, List.getElem?_append_left (List.getElem?_eq_some_iff.mp hc).1 ▸ hc, hstage⟩
  | enter j =>
    simp only [State.step] at h
    split at h
    · obtain ⟨e₁, he₁, rfl⟩ := Option.map_eq_some_iff.mp h
      exact (hgone.move he₁ (fun h => by cases h) (fun h => by cases h)).closeConn j
    · exact hgone.move h (fun h => by cases h) (fun h => by cases h)
  | handshake j ok => exact hgone.move h (fun h => by cases h) (fun h => by cases h)
  | append j =>
    obtain ⟨e₁, he₁, rfl⟩ := Option.map_eq_some_iff.mp h
    have hmoved : Gone e₁ k := hgone.move he₁ (fun h => by cases h) (fun h => by cases h)
    exact hmoved
  | serve j ok => exact hgone.move h (fun h => by cases h) (fun h => by cases h)
  | message j ok => exact hgone.move h (fun h => by cases h) (fun h => by cases h)
  | leave j =>
    obtain ⟨e₁, he₁, rfl⟩ := Option.map_eq_some_iff.mp h
    exact (hgone.move he₁ (fun _ => rfl) (fun h => by cases h)).closeConn j
  | stop =>
    have h := Option.some.inj h
    split at h
    · exact h ▸ hgone
    · subst h
      exact hgone
  | close =>
    simp only [State.step] at h
    split at h
    next j clients _ =>
      obtain rfl := Option.some.inj h
      exact hgone.closeConn j
    · obtain rfl := Option.some.inj h
      exact hgone
    · cases h
  | wait =>
    simp only [State.step] at h
    split at h
    · obtain rfl := Option.some.inj h
      exact hgone
    · cases h

theorem not_blocked : (e.conns[k]?).any Conn.blocked = false := by
  obtain ⟨c, hc, hstage⟩ := hgone
  rw [hc, Option.any_some, Conn.blocked]
  obtain hs | hs := hstage
  · rw [hs]; rfl
  · rw [hs]; rfl

theorem never_blocked (as : List Action) (e' : State) (h : exec State.step e as = some e') :
    (e'.conns[k]?).any Conn.blocked = false := by
  have hstep : ∀ s a t, Gone s k → True → State.step s a = some t → Gone t k :=
    fun _ _ _ hgone _ h => hgone.step h
  exact (exec_invariant hstep hgone (guarded_of_forall (fun _ _ => trivial) e as) h).not_blocked

end Gone

theorem Tracked.stopSafe (hinv : Tracked e) : StopSafe e := by
  intro hwaiting k c hc hflight
  have hstopped := hinv.stopped (by rw [hwaiting]; exact fun h => by cases h)
  have hconn := hinv.conns k c hc
  have hclose : e.toClose = [] := by rw [State.toClose, hwaiting]
  have hclosed : c.stage = .listed ∨ c.stage = .reading → c.closed = true := by
    intro hs
    obtain hclosed | hmem := (hconn.listed hs).2 hstopped
    · exact hclosed
    · rw [hclose] at hmem
      cases hmem
  have hlisted : ¬(c.stage = .counted ∨ c.stage = .greeted) := by
    intro hs
    have hfalse := hconn.unlisted hs
    rw [hstopped] at hfalse
    cases hfalse
  cases hs : c.stage with
  | entered => rw [Conn.inFlight, hs] at hflight; cases hflight
  | returned => rw [Conn.inFlight, hs] at hflight; cases hflight
  | counted => exact absurd (.inl hs) hlisted
  | greeted => exact absurd (.inr hs) hlisted
  | listed => exact .inl (hclosed (.inl hs))
  | reading => exact .inl (hclosed (.inr hs))
  | leaving => exact .inr (Gone.never_blocked ⟨c, hc, .inl hs⟩)

theorem tracked_new : Tracked State.new :=
  ⟨fun h => absurd rfl h, fun k c hc => by cases hc⟩

/-- A `Stop` that finds every counted call among the clients waits for none that
could block. -/
theorem stopSafe_of_settled (as : List Action) (e : State)
    (hok : Guarded State.step Settled State.new as) (h : exec State.step State.new as = some e) :
    StopSafe e :=
  (exec_invariant (fun _ _ _ hinv hok h => hinv.step hok h) tracked_new hok h).stopSafe

/-- `Stop` is called while a peer is being served. -/
def stopServing : List Action :=
  [.incoming, .enter 0, .handshake 0 true, .append 0, .serve 0 true, .stop, .close, .close]

theorem stopSafe_stopServing :
    ∃ e, exec State.step State.new stopServing = some e ∧ e.stopping = .waiting ∧ StopSafe e := by
  obtain ⟨e, he, hwaiting⟩ : ∃ e, exec State.step State.new stopServing = some e ∧
      e.stopping = .waiting := by decide
  exact ⟨e, he, hwaiting, stopSafe_of_settled stopServing e (by decide) he⟩

/-- `Stop` is called between `serveWg.Add` and the entry in `u.clients`. -/
def stopEarly : List Action := [.incoming, .enter 0, .stop, .close]

/-- `Stop` has closed no connection, and the call goes on to read from its own. -/
theorem not_stopSafe_early :
    ¬ ∀ (as : List Action) (e : State), exec State.step State.new as = some e → StopSafe e := by
  intro hall
  obtain ⟨e, he, hwaiting, hconn, e', he', hblocked⟩ : ∃ e,
      exec State.step State.new stopEarly = some e ∧ e.stopping = .waiting ∧
        e.conns[0]? = some { stage := .counted, closed := false } ∧
        ∃ e', exec State.step e [.handshake 0 true, .append 0, .serve 0 true] = some e' ∧
          (e'.conns[0]?).any Conn.blocked = true := by decide
  obtain hclosed | hnever := hall stopEarly e he hwaiting 0 _ hconn rfl
  · cases hclosed
  · rw [hnever _ e' he'] at hblocked
    cases hblocked

end Uploader
end Stor.Download
