import Stor.Dht.Krpc
import Stor.Lib.Run

/-!
# Queries and their responses

`sendQuery`, `query`, `handleResponse` and `cleanStalePending` of `dht/node.go`.  The table
of pending queries is keyed by the transaction ID alone, and it is changed by the callers of
`query`, by the read loop and by the cleanup, each in sections of its own.  Where no ID is
taken while it is in use, and what arrives under a pending ID is the answer to that query
(`tame`), nobody touches the entry of another query and what `query` returns came from the
address it was sent to (`query_answered`).
-/

namespace Stor.Dht
namespace Pending

open Lib

/-- Nanoseconds, as all times. -/
def queryTimeout : Nat := 5 * 10 ^ 9

def pendingTTL : Nat := 15 * 10 ^ 9

/-- A datagram, with the query that it was sent in answer to, if it was. -/
structure Datagram where
  source : UDPAddr
  data : Bytes
  query : Option Nat

/-- A message on its way to a caller, with the datagram that it came in. -/
structure Received where
  msg : KRPCMessage
  source : UDPAddr
  query : Option Nat

/-- `pendingEntry`; its channel is the one of `query`. -/
structure Entry where
  query : Nat
  created : Nat

inductive QueryError where
  | errorResponse (e : Option (List Bencode.Value))
  | timeout
  | closed

/-- Where the caller is: the entry is stored, the caller is in its `select`, and what came
of it. -/
inductive Pc where
  | stored
  | waiting (since : Nat)
  | expired
  | answered (r : Received)
  | failed (e : QueryError)

/-- A call of `query`, or of `sendQuery` by `Bootstrap`, which does not delete the entry when
it stops waiting. -/
structure Query where
  addr : UDPAddr
  msg : KRPCMessage
  bootstrap : Bool
  ch : Option Received
  pc : Pc

/-- A call of `cleanStalePending`, with the entry that it is about to delete. -/
structure Cleanup where
  started : Nat
  visited : Option (Bytes × Entry)

structure State where
  now : Nat
  closed : Bool
  queries : List Query
  pending : Bytes → Option Entry
  /-- What the read loop has taken from the table and is to hand over. -/
  routing : Option (Nat × Received)
  cleanup : Option Cleanup

/-- What a caller does behind `sendQuery`. -/
inductive Section where
  | wait
  | receive
  | expire
  | delete
  | giveUp

inductive Action where
  | tick (n : Nat)
  | close
  | send (addr : UDPAddr) (msg : KRPCMessage) (bootstrap : Bool)
  | caller (k : Nat) (c : Section)
  | datagram (d : Datagram)
  | route
  | startCleanup
  | visit (t : Bytes)
  | deleteVisited
  | endCleanup

/-- A response, or an error that is treated as one. -/
def isResponse (msg : KRPCMessage) : Bool := msg.y = msgResponse || msg.y = msgError

namespace Query

def new (addr : UDPAddr) (msg : KRPCMessage) (bootstrap : Bool) : Query where
  addr := addr
  msg := msg
  bootstrap := bootstrap
  ch := none
  pc := .stored

/-- The caller takes `r` from its channel. -/
def take (q : Query) (r : Received) : Query :=
  if r.msg.y = msgError ∧ !q.bootstrap then
    { q with ch := none, pc := .failed (.errorResponse r.msg.e) }
  else { q with ch := none, pc := .answered r }

/-- The timer fires. -/
def expire (q : Query) : Query :=
  { q with pc := if q.bootstrap then .failed .timeout else .expired }

/-- A send to the channel that does not block. -/
def deliver (q : Query) (r : Received) : Query :=
  { q with ch := q.ch <|> some r }

/-- The caller may still delete the entry under its ID. -/
def deletes (q : Query) : Bool :=
  match q.pc with
  | .stored | .waiting _ => !q.bootstrap
  | .expired => true
  | .answered _ | .failed _ => false

end Query

namespace State

def new : State where
  now := 0
  closed := false
  queries := []
  pending := fun _ => none
  routing := none
  cleanup := none

def setQuery (s : State) (k : Nat) (q : Query) : State := { s with queries := s.queries.set k q }

/-- `d.pending.Delete`. -/
def delete (s : State) (t : Bytes) : State :=
  { s with pending := Function.update s.pending t none }

/-- `Store`, before the datagram is written. -/
def send (s : State) (addr : UDPAddr) (msg : KRPCMessage) (bootstrap : Bool) : State :=
  { s with
    queries := s.queries ++ [.new addr msg bootstrap]
    pending := Function.update s.pending msg.t (some ⟨s.queries.length, s.now⟩) }

/-- `handleResponse`, as far as `LoadAndDelete`. -/
def handleResponse (s : State) (d : Datagram) (msg : KRPCMessage) : State :=
  match s.pending msg.t with
  | none => s
  | some e => { s.delete msg.t with routing := some (e.query, ⟨msg, d.source, d.query⟩) }

/-- The sections of the callers. -/
def caller (s : State) (k : Nat) (q : Query) : Section → Option State
  | .wait =>
    match q.pc with
    | .stored => some (s.setQuery k { q with pc := .waiting s.now })
    | _ => none
  | .receive =>
    match q.pc, q.ch with
    | .waiting _, some r => some (s.setQuery k (q.take r))
    | _, _ => none
  | .expire =>
    match q.pc with
    | .waiting since =>
      if since + queryTimeout ≤ s.now then some (s.setQuery k q.expire) else none
    | _ => none
  | .delete =>
    match q.pc with
    | .expired => some ((s.delete q.msg.t).setQuery k { q with pc := .failed .timeout })
    | _ => none
  | .giveUp =>
    match q.pc with
    | .waiting _ =>
      if s.closed then some (s.setQuery k { q with pc := .failed .closed }) else none
    | _ => none

def step (s : State) : Action → Option State
  | .tick n => some { s with now := s.now + n }
  | .close => some { s with closed := true }
  | .send addr msg bootstrap => some (s.send addr msg bootstrap)
  | .caller k c => (s.queries[k]?).bind fun q => s.caller k q c
  | .datagram d =>
    if s.routing.isSome then none
    else
      match decodeKRPC d.data with
      | .error _ => some s
      | .ok msg => some (if isResponse msg then s.handleResponse d msg else s)
  | .route =>
    s.routing.bind fun (k, r) => (s.queries[k]?).map fun q =>
      { s.setQuery k (q.deliver r) with routing := none }
  | .startCleanup =>
    match s.cleanup with
    | none => some { s with cleanup := some ⟨s.now, none⟩ }
    | some _ => none
  | .visit t =>
    match s.cleanup, s.pending t with
    | some ⟨started, none⟩, some e =>
      some (if e.created + pendingTTL < started then
        { s with cleanup := some ⟨started, some (t, e)⟩ } else s)
    | _, _ => none
  | .deleteVisited =>
    match s.cleanup with
    | some ⟨started, some (t, _)⟩ => some { s.delete t with cleanup := some ⟨started, none⟩ }
    | _ => none
  | .endCleanup =>
    match s.cleanup with
    | some ⟨_, none⟩ => some { s with cleanup := none }
    | _ => none

/-- The entry that the cleanup is about to delete. -/
def visited? (s : State) : Option (Bytes × Entry) := s.cleanup.bind Cleanup.visited

/-- The query that a send, response, timeout or cleanup belongs to. -/
def owner? (s : State) : Action → Option Nat
  | .send _ _ _ => some s.queries.length
  | .datagram d => d.query
  | .route => s.routing.bind fun (_, r) => r.query
  | .caller k .delete => some k
  | .deleteVisited => s.visited?.map fun (_, e) => e.query
  | _ => none

/-- The ID of a new query is not in use, and what arrives under the ID of a pending query is
the answer to it. -/
def tame (s : State) : Action → Bool
  | .send _ msg _ =>
    (s.pending msg.t).isNone && s.queries.all (fun q => q.msg.t ≠ msg.t || !q.deletes) &&
      s.visited?.all fun (t, _) => t ≠ msg.t
  | .datagram d =>
    match decodeKRPC d.data with
    | .error _ => true
    | .ok msg =>
      !isResponse msg || (s.pending msg.t).all fun e =>
        d.query = some e.query && (s.queries[e.query]?).any fun q => q.addr = d.source
  | _ => true

end State

/-- `r` is the answer to the query `k`. -/
structure Answers (k : Nat) (q : Query) (r : Received) : Prop where
  query : r.query = some k
  source : r.source = q.addr

/-- A step takes away or replaces no entry, and fills no channel, but of the query that it
belongs to. -/
structure Own (s : State) (a : Action) (s' : State) : Prop where
  pending : ∀ t e, s.pending t = some e → s'.pending t = some e ∨ s.owner? a = some e.query
  ch : ∀ k q q', s.queries[k]? = some q → s'.queries[k]? = some q' → q'.ch = q.ch ∨
    q'.ch = none ∨ s.owner? a = some k

variable {s s' : State} {a : Action} {k : Nat} {q q' : Query} {r : Received} {t : Bytes} {e : Entry}

structure Inv (s : State) : Prop where
  pending : ∀ t e, s.pending t = some e → ∃ q, s.queries[e.query]? = some q ∧ q.msg.t = t
  deletes : ∀ t e k q, s.pending t = some e → s.queries[k]? = some q → q.msg.t = t →
    q.deletes = true → e.query = k
  visited : ∀ t e e', s.visited? = some (t, e) → s.pending t = some e' → e'.query = e.query
  routing : ∀ k r, s.routing = some (k, r) → ∃ q, s.queries[k]? = some q ∧ Answers k q r
  queries : ∀ k q r, s.queries[k]? = some q → q.ch = some r ∨ q.pc = .answered r → Answers k q r

/-! ## The pieces of a step -/

theorem inv_new : Inv .new where
  pending := fun _ _ h => absurd h (Option.some_ne_none _).symm
  deletes := fun _ _ _ _ h => absurd h (Option.some_ne_none _).symm
  visited := fun _ _ _ h => absurd h (Option.some_ne_none _).symm
  routing := fun _ _ h => absurd h (Option.some_ne_none _).symm
  queries := fun _ _ _ h => absurd h (Option.some_ne_none _).symm

@[simp] theorem pending_delete_self (s : State) (t : Bytes) : (s.delete t).pending t = none := by
  simp [State.delete]

theorem pending_delete_of_ne {t' : Bytes} (ht : t' ≠ t) : (s.delete t).pending t' = s.pending t' := by
  simp [State.delete, ht]

theorem pending_delete {t' : Bytes} (h : (s.delete t).pending t' = some e) :
    t' ≠ t ∧ s.pending t' = some e := by
  by_cases ht : t' = t
  · rw [ht, pending_delete_self] at h
    exact absurd h (Option.some_ne_none e).symm
  · exact ⟨ht, pending_delete_of_ne ht ▸ h⟩

section
variable {addr : UDPAddr} {msg : KRPCMessage} {bootstrap : Bool}

theorem pending_send_self :
    (s.send addr msg bootstrap).pending msg.t = some ⟨s.queries.length, s.now⟩ := by
  simp [State.send]

theorem pending_send_of_ne (ht : t ≠ msg.t) :
    (s.send addr msg bootstrap).pending t = s.pending t := by
  simp [State.send, ht]

theorem queries_send_self :
    (s.send addr msg bootstrap).queries[s.queries.length]? = some (.new addr msg bootstrap) := by
  simp [State.send]

theorem queries_send_of_lt (hk : k < s.queries.length) :
    (s.send addr msg bootstrap).queries[k]? = s.queries[k]? :=
  List.getElem?_append_left hk

theorem queries_send (hq : (s.send addr msg bootstrap).queries[k]? = some q) :
    k < s.queries.length ∧ s.queries[k]? = some q ∨
      k = s.queries.length ∧ q = .new addr msg bootstrap := by
  by_cases hk : k < s.queries.length
  · exact .inl ⟨hk, queries_send_of_lt hk ▸ hq⟩
  · have hlt := (List.getElem?_eq_some_iff.mp hq).1
    have hlen : (s.send addr msg bootstrap).queries.length = s.queries.length + 1 := by
      simp [State.send]
    have hk : k = s.queries.length := by omega
    rw [hk, queries_send_self] at hq
    exact .inr ⟨hk, (Option.some.inj hq).symm⟩

/-- What `tame` says of a new query. -/
structure Unused (s : State) (t : Bytes) : Prop where
  pending : s.pending t = none
  queries : ∀ (k : Nat) q, s.queries[k]? = some q → q.msg.t = t → q.deletes = false
  visited : ∀ e, s.visited? ≠ some (t, e)

theorem unused_of_tame (htame : s.tame (.send addr msg bootstrap) = true) : Unused s msg.t := by
  rw [State.tame, Bool.and_eq_true, Bool.and_eq_true] at htame
  obtain ⟨⟨hpending, hqueries⟩, hvisited⟩ := htame
  refine ⟨Option.isNone_iff_eq_none.mp hpending, fun k q hq ht => ?_, fun e he => ?_⟩
  · have hall := List.all_eq_true.mp hqueries q (List.mem_of_getElem? hq)
    simpa [ht] using hall
  · rw [he] at hvisited
    simp at hvisited

end

namespace Inv

theorem delete (h : Inv s) (t : Bytes) : Inv (s.delete t) where
  pending := fun t' e he => h.pending t' e (pending_delete he).2
  deletes := fun t' e k q he => h.deletes t' e k q (pending_delete he).2
  visited := fun t' e e' hv he => h.visited t' e e' hv (pending_delete he).2
  routing := h.routing
  queries := h.queries

/-- A caller moves on, and keeps to what it waits for. -/
theorem setQuery (h : Inv s) (hq : s.queries[k]? = some q) (haddr : q'.addr = q.addr)
    (hmsg : q'.msg = q.msg) (hdeletes : q'.deletes = true → q.deletes = true)
    (hanswers : ∀ r, q'.ch = some r ∨ q'.pc = .answered r → Answers k q r) :
    Inv (s.setQuery k q') := by
  have hlt := (List.getElem?_eq_some_iff.mp hq).1
  have hself : (s.setQuery k q').queries[k]? = some q' := List.getElem?_set_self hlt
  have hother : ∀ j, j ≠ k → (s.setQuery k q').queries[j]? = s.queries[j]? :=
    fun j hj => List.getElem?_set_ne (Ne.symm hj)
  have hkept : ∀ (j : Nat) (p : Query), s.queries[j]? = some p → ∃ p' : Query, (s.setQuery k q').queries[j]? = some p' ∧
      p'.msg = p.msg ∧ p'.addr = p.addr := by
    intro j p hp
    by_cases hj : j = k
    · rw [hj, hq] at hp
      rw [hj, ← Option.some.inj hp]
      exact ⟨q', hself, hmsg, haddr⟩
    · exact ⟨p, (hother j hj).trans hp, rfl, rfl⟩
  constructor
  · intro t e he
    obtain ⟨p, hp, ht⟩ := h.pending t e he
    obtain ⟨p', hp', hmsg', -⟩ := hkept _ p hp
    exact ⟨p', hp', by rw [hmsg', ht]⟩
  · intro t e j p he hp ht hdel
    by_cases hj : j = k
    · rw [hj, hself] at hp
      have hp := Option.some.inj hp
      rw [← hp, hmsg] at ht
      rw [← hp] at hdel
      rw [hj]
      exact h.deletes t e k q he hq ht (hdeletes hdel)
    · exact h.deletes t e j p he ((hother j hj) ▸ hp) ht hdel
  · exact h.visited
  · intro j r hr
    obtain ⟨p, hp, hanswers'⟩ := h.routing j r hr
    obtain ⟨p', hp', -, haddr'⟩ := hkept j p hp
    exact ⟨p', hp', hanswers'.query, by rw [haddr', hanswers'.source]⟩
  · intro j p r hp hr
    by_cases hj : j = k
    · rw [hj, hself] at hp
      have hp := Option.some.inj hp
      rw [← hp] at hr
      rw [hj, ← hp]
      exact ⟨(hanswers r hr).query, by rw [haddr, (hanswers r hr).source]⟩
    · exact h.queries j p r ((hother j hj) ▸ hp) hr

/-- Everything but the table and the queries may change. -/
theorem congr (h : Inv s) (hqueries : s'.queries = s.queries) (hpending : s'.pending = s.pending)
    (hvisited : s'.visited? = s.visited?) (hrouting : s'.routing = s.routing) : Inv s' := by
  constructor
  · rw [hqueries, hpending]
    exact h.pending
  · rw [hqueries, hpending]
    exact h.deletes
  · rw [hvisited, hpending]
    exact h.visited
  · rw [hrouting, hqueries]
    exact h.routing
  · rw [hqueries]
    exact h.queries

theorem send (h : Inv s) {addr : UDPAddr} {msg : KRPCMessage} {bootstrap : Bool}
    (hunused : Unused s msg.t) : Inv (s.send addr msg bootstrap) := by
  constructor
  · intro t e he
    by_cases ht : t = msg.t
    · rw [ht, pending_send_self] at he
      rw [ht, ← Option.some.inj he]
      exact ⟨_, queries_send_self, rfl⟩
    · rw [pending_send_of_ne ht] at he
      obtain ⟨q, hq, hqt⟩ := h.pending t e he
      exact ⟨q, (queries_send_of_lt (List.getElem?_eq_some_iff.mp hq).1).trans hq, hqt⟩
  · intro t e k q he hq hqt hdel
    rcases queries_send hq with ⟨hk, hq⟩ | ⟨hk, rfl⟩
    · by_cases ht : t = msg.t
      · rw [hunused.queries k q hq (hqt.trans ht)] at hdel
        exact absurd hdel Bool.false_ne_true
      · rw [pending_send_of_ne ht] at he
        exact h.deletes t e k q he hq hqt hdel
    · rw [← hqt, Query.new, pending_send_self] at he
      rw [hk, ← Option.some.inj he]
  · intro t e e' hv he
    have ht : t ≠ msg.t := fun ht => hunused.visited e (ht ▸ hv)
    rw [pending_send_of_ne ht] at he
    exact h.visited t e e' hv he
  · intro k r hr
    obtain ⟨q, hq, hanswers⟩ := h.routing k r hr
    exact ⟨q, (queries_send_of_lt (List.getElem?_eq_some_iff.mp hq).1).trans hq, hanswers⟩
  · intro k q r hq hr
    rcases queries_send hq with ⟨-, hq⟩ | ⟨-, rfl⟩
    · exact h.queries k q r hq hr
    · simp [Query.new] at hr

theorem respond (h : Inv s) {d : Datagram} (msg : KRPCMessage) (hquery : d.query = some e.query)
    (hq : s.queries[e.query]? = some q) (haddr : q.addr = d.source) :
    Inv { s.delete msg.t with routing := some (e.query, ⟨msg, d.source, d.query⟩) } := by
  refine { h.delete msg.t with routing := ?_ }
  intro k r hr
  obtain ⟨rfl, rfl⟩ := Prod.mk.inj (Option.some.inj hr)
  exact ⟨q, hq, hquery, haddr.symm⟩

end Inv

/-- What `tame` says of a response that arrives under a pending ID. -/
theorem answers_of_tame {d : Datagram} {msg : KRPCMessage} (hmsg : decodeKRPC d.data = .ok msg)
    (hresponse : isResponse msg = true) (htame : s.tame (.datagram d) = true)
    (he : s.pending msg.t = some e) :
    d.query = some e.query ∧ ∃ q, s.queries[e.query]? = some q ∧ q.addr = d.source := by
  rw [State.tame, hmsg] at htame
  dsimp only at htame
  rw [hresponse, he, Bool.not_true, Bool.false_or, Option.all_some, Bool.and_eq_true,
    decide_eq_true_iff] at htame
  obtain ⟨hquery, hany⟩ := htame
  obtain ⟨q, hq, haddr⟩ := (Option.any_eq_true _ _).mp hany
  exact ⟨hquery, q, hq, of_decide_eq_true haddr⟩

/-- What a section of the caller does to its query. -/
structure Moves (q q' : Query) : Prop where
  addr : q'.addr = q.addr
  msg : q'.msg = q.msg
  deletes : q'.deletes = true → q.deletes = true
  ch : q'.ch = q.ch ∨ q'.ch = none
  answered : ∀ r, q'.pc = .answered r → q.ch = some r

theorem moves_wait (hpc : q.pc = .stored) (now : Nat) : Moves q { q with pc := .waiting now } where
  addr := rfl
  msg := rfl
  deletes := fun hdel => by
    rw [Query.deletes, hpc]
    exact hdel
  ch := .inl rfl
  answered := fun _ h => nomatch h

theorem moves_failed (q : Query) (e : QueryError) : Moves q { q with pc := .failed e } where
  addr := rfl
  msg := rfl
  deletes := fun hdel => nomatch hdel
  ch := .inl rfl
  answered := fun _ h => nomatch h

theorem moves_take (hr : q.ch = some r) : Moves q (q.take r) := by
  unfold Query.take
  split
  · exact ⟨rfl, rfl, (fun h => nomatch h), .inr rfl, (fun _ h => nomatch h)⟩
  · exact ⟨rfl, rfl, (fun h => nomatch h), .inr rfl, fun _ h => Pc.answered.inj h ▸ hr⟩

theorem moves_expire {since : Nat} (hpc : q.pc = .waiting since) : Moves q q.expire := by
  unfold Query.expire
  split
  · exact moves_failed q .timeout
  · rename_i hb
    refine ⟨rfl, rfl, fun _ => ?_, .inl rfl, fun _ h => nomatch h⟩
    rw [Query.deletes, hpc]
    simpa using hb

theorem caller_cases {c : Section} (hstep : s.caller k q c = some s') :
    ∃ q', Moves q q' ∧ (s' = s.setQuery k q' ∨
      c = .delete ∧ q.deletes = true ∧ s' = (s.delete q.msg.t).setQuery k q') := by
  cases c with
  | wait =>
    simp only [State.caller] at hstep
    split at hstep
    · rename_i hpc
      exact ⟨_, moves_wait hpc s.now, .inl (Option.some.inj hstep).symm⟩
    · cases hstep
  | receive =>
    simp only [State.caller] at hstep
    split at hstep
    · rename_i hr
      exact ⟨_, moves_take hr, .inl (Option.some.inj hstep).symm⟩
    · cases hstep
  | expire =>
    simp only [State.caller] at hstep
    split at hstep
    · rename_i hpc
      split_ifs at hstep
      exact ⟨_, moves_expire hpc, .inl (Option.some.inj hstep).symm⟩
    · cases hstep
  | delete =>
    simp only [State.caller] at hstep
    split at hstep
    · rename_i hpc
      have hdel : q.deletes = true := by rw [Query.deletes, hpc]
      exact ⟨_, moves_failed q .timeout, .inr ⟨rfl, hdel, (Option.some.inj hstep).symm⟩⟩
    · cases hstep
  | giveUp =>
    simp only [State.caller] at hstep
    split at hstep
    · split_ifs at hstep
      exact ⟨_, moves_failed q .closed, .inl (Option.some.inj hstep).symm⟩
    · cases hstep

/-- What a step can do.  The cleanup moves on to an entry that is pending, or deletes the one
it is at. -/
inductive Does (s : State) : Action → State → Prop
  | tick (n : Nat) : Does s (.tick n) { s with now := s.now + n }
  | close : Does s .close { s with closed := true }
  | send (addr : UDPAddr) (msg : KRPCMessage) (bootstrap : Bool) :
      Does s (.send addr msg bootstrap) (s.send addr msg bootstrap)
  | caller {k : Nat} {q : Query} {c : Section} {s' : State} (hq : s.queries[k]? = some q)
      (hcaller : s.caller k q c = some s') : Does s (.caller k c) s'
  | ignore {a : Action} : Does s a s
  | response {d : Datagram} {msg : KRPCMessage} {e : Entry} (hmsg : decodeKRPC d.data = .ok msg)
      (hresponse : isResponse msg = true) (he : s.pending msg.t = some e) :
      Does s (.datagram d)
        { s.delete msg.t with routing := some (e.query, ⟨msg, d.source, d.query⟩) }
  | route {k : Nat} {r : Received} {q : Query} (hrouting : s.routing = some (k, r))
      (hq : s.queries[k]? = some q) :
      Does s .route { s.setQuery k (q.deliver r) with routing := none }
  | moveOn {a : Action} {cleanup : Option Cleanup}
      (hvisited : ∀ t e, cleanup.bind Cleanup.visited = some (t, e) → s.pending t = some e) :
      Does s a { s with cleanup := cleanup }
  | deleteVisited {t : Bytes} {e : Entry} {started : Nat} (hvisited : s.visited? = some (t, e)) :
      Does s .deleteVisited { s.delete t with cleanup := some ⟨started, none⟩ }

theorem does_datagram {d : Datagram} (hstep : s.step (.datagram d) = some s') :
    Does s (.datagram d) s' := by
  simp only [State.step] at hstep
  split_ifs at hstep
  cases hmsg : decodeKRPC d.data with
  | error e =>
    simp only [hmsg] at hstep
    rw [← Option.some.inj hstep]
    exact .ignore
  | ok msg =>
    simp only [hmsg] at hstep
    rw [← Option.some.inj hstep]
    split_ifs with hresponse
    · rw [State.handleResponse]
      cases he : s.pending msg.t with
      | none => exact .ignore
      | some e => exact .response hmsg hresponse he
    · exact .ignore

theorem does_visit (hstep : s.step (.visit t) = some s') : Does s (.visit t) s' := by
  simp only [State.step] at hstep
  split at hstep
  · rename_i started e hcleanup he
    rw [← Option.some.inj hstep]
    split_ifs
    · refine .moveOn fun t' e' hvisited => ?_
      obtain ⟨rfl, rfl⟩ := Prod.mk.inj (Option.some.inj hvisited)
      exact he
    · exact .ignore
  · cases hstep

theorem step_cases (hstep : s.step a = some s') : Does s a s' := by
  cases a with
  | tick n =>
    rw [← Option.some.inj hstep]
    exact .tick n
  | close =>
    rw [← Option.some.inj hstep]
    exact .close
  | send addr msg bootstrap =>
    rw [← Option.some.inj hstep]
    exact .send addr msg bootstrap
  | caller k c =>
    obtain ⟨q, hq, hcaller⟩ := Option.bind_eq_some_iff.mp hstep
    exact .caller hq hcaller
  | datagram d => exact does_datagram hstep
  | route =>
    obtain ⟨⟨k, r⟩, hrouting, hstep⟩ := Option.bind_eq_some_iff.mp hstep
    obtain ⟨q, hq, rfl⟩ := Option.map_eq_some_iff.mp hstep
    exact .route hrouting hq
  | startCleanup =>
    simp only [State.step] at hstep
    split at hstep
    · rw [← Option.some.inj hstep]
      exact .moveOn fun _ _ h => nomatch h
    · cases hstep
  | visit t => exact does_visit hstep
  | deleteVisited =>
    simp only [State.step] at hstep
    split at hstep
    · rename_i started t e hcleanup
      rw [← Option.some.inj hstep]
      exact .deleteVisited (e := e) (by rw [State.visited?, hcleanup]; rfl)
    · cases hstep
  | endCleanup =>
    simp only [State.step] at hstep
    split at hstep
    · rw [← Option.some.inj hstep]
      exact .moveOn fun _ _ h => nomatch h
    · cases hstep

/-! ## Steps -/

theorem Inv.moves (h : Inv s) (hq : s.queries[k]? = some q) (hmoves : Moves q q') :
    Inv (s.setQuery k q') := by
  refine h.setQuery hq hmoves.addr hmoves.msg hmoves.deletes fun r hr => ?_
  rcases hr with hr | hr
  · refine h.queries k q r hq (.inl ?_)
    rcases hmoves.ch with hch | hch
    · rw [← hch, hr]
    · rw [hch] at hr
      cases hr
  · exact h.queries k q r hq (.inl (hmoves.answered r hr))

theorem Inv.caller (h : Inv s) (hq : s.queries[k]? = some q) {c : Section}
    (hstep : s.caller k q c = some s') : Inv s' := by
  obtain ⟨q', hmoves, rfl | ⟨-, -, rfl⟩⟩ := caller_cases hstep
  · exact h.moves hq hmoves
  · exact (h.delete q.msg.t).moves hq hmoves

theorem Inv.deliver (h : Inv s) (hrouting : s.routing = some (k, r)) (hq : s.queries[k]? = some q) :
    Inv { s.setQuery k (q.deliver r) with routing := none } := by
  obtain ⟨p, hp, hanswers⟩ := h.routing k r hrouting
  rw [hq] at hp
  have hset : Inv (s.setQuery k (q.deliver r)) := by
    refine h.setQuery hq rfl rfl (fun hdel => hdel) fun r' hr' => ?_
    rcases hr' with hr' | hr'
    · cases hch : q.ch with
      | none =>
        rw [Query.deliver, hch] at hr'
        rw [← Option.some.inj hr', Option.some.inj hp]
        exact hanswers
      | some r₀ =>
        rw [Query.deliver, hch] at hr'
        exact h.queries k q r' hq (.inl (hch.trans hr'))
    · exact h.queries k q r' hq (.inr hr')
  exact { hset with routing := fun _ _ h => nomatch h }

theorem inv_step (h : Inv s) (htame : s.tame a = true) (hstep : s.step a = some s') : Inv s' := by
  cases step_cases hstep with
  | tick n => exact h.congr rfl rfl rfl rfl
  | close => exact h.congr rfl rfl rfl rfl
  | send addr msg bootstrap => exact h.send (unused_of_tame htame)
  | caller hq hcaller => exact h.caller hq hcaller
  | ignore => exact h
  | response hmsg hresponse he =>
    obtain ⟨hquery, q, hq, haddr⟩ := answers_of_tame hmsg hresponse htame he
    exact h.respond _ hquery hq haddr
  | route hrouting hq => exact h.deliver hrouting hq
  | moveOn hvisited =>
    refine { h with visited := fun t e e' hv he' => ?_ }
    rw [Option.some.inj (he'.symm.trans (hvisited t e hv))]
  | deleteVisited hvisited => exact { h.delete _ with visited := fun _ _ _ h => nomatch h }

/-! ## Whose entry it is -/

theorem own_of_eq (hpending : s'.pending = s.pending) (hqueries : s'.queries = s.queries) :
    Own s a s' where
  pending := fun t e he => .inl (hpending ▸ he)
  ch := fun k q q' hq hq' => by
    rw [hqueries, hq] at hq'
    exact .inl (by rw [Option.some.inj hq'])

/-- The entry of `t` is that of the query that the step belongs to. -/
theorem pending_own_delete (h : ∀ e, s.pending t = some e → s.owner? a = some e.query) {t' : Bytes}
    (he : s.pending t' = some e) :
    (s.delete t).pending t' = some e ∨ s.owner? a = some e.query := by
  by_cases ht : t' = t
  · exact .inr (h e (ht ▸ he))
  · exact .inl ((pending_delete_of_ne ht).trans he)

theorem ch_setQuery (hq : s.queries[k]? = some q)
    (hch : q'.ch = q.ch ∨ q'.ch = none ∨ s.owner? a = some k) {j : Nat} {p p' : Query}
    (hp : s.queries[j]? = some p) (hp' : (s.setQuery k q').queries[j]? = some p') :
    p'.ch = p.ch ∨ p'.ch = none ∨ s.owner? a = some j := by
  by_cases hj : j = k
  · have hself : (s.setQuery k q').queries[k]? = some q' :=
      List.getElem?_set_self (List.getElem?_eq_some_iff.mp hq).1
    rw [hj, hself] at hp'
    rw [hj, hq] at hp
    rw [hj, ← Option.some.inj hp', ← Option.some.inj hp]
    exact hch
  · have hother : (s.setQuery k q').queries[j]? = s.queries[j]? :=
      List.getElem?_set_ne (Ne.symm hj)
    rw [hother, hp] at hp'
    exact .inl (by rw [Option.some.inj hp'])

theorem own_caller (h : Inv s) (hq : s.queries[k]? = some q) {c : Section}
    (hstep : s.caller k q c = some s') : Own s (.caller k c) s' := by
  obtain ⟨q', hmoves, rfl | ⟨rfl, hdel, rfl⟩⟩ := caller_cases hstep
  · exact ⟨fun t e he => .inl he, fun j p p' => ch_setQuery hq (hmoves.ch.imp_right .inl)⟩
  · refine ⟨fun t e he => pending_own_delete (fun e he => ?_) he,
      fun j p p' => ch_setQuery hq (hmoves.ch.imp_right .inl)⟩
    -- a caller that is still to delete finds its own entry, or none
    rw [h.deletes _ e k q he hq rfl hdel]
    rfl

theorem own_send {addr : UDPAddr} {msg : KRPCMessage} {bootstrap : Bool}
    (hunused : s.pending msg.t = none) :
    Own s (.send addr msg bootstrap) (s.send addr msg bootstrap) := by
  refine ⟨fun t e he => .inl ?_, fun k q q' hq hq' => .inl ?_⟩
  · have ht : t ≠ msg.t := by
      rintro rfl
      rw [hunused] at he
      cases he
    rw [pending_send_of_ne ht, he]
  · rw [queries_send_of_lt (List.getElem?_eq_some_iff.mp hq).1, hq] at hq'
    rw [Option.some.inj hq']

/-- A step that deletes the entry of `t` and leaves the queries alone. -/
theorem own_delete (hpending : s'.pending = (s.delete t).pending) (hqueries : s'.queries = s.queries)
    (h : ∀ e, s.pending t = some e → s.owner? a = some e.query) : Own s a s' where
  pending := fun t' e he => hpending ▸ pending_own_delete h he
  ch := fun k q q' hq hq' => by
    rw [hqueries, hq] at hq'
    exact .inl (by rw [Option.some.inj hq'])

theorem own_step (h : Inv s) (htame : s.tame a = true) (hstep : s.step a = some s') :
    Own s a s' := by
  cases step_cases hstep with
  | tick n => exact own_of_eq rfl rfl
  | close => exact own_of_eq rfl rfl
  | send addr msg bootstrap => exact own_send (unused_of_tame htame).pending
  | caller hq hcaller => exact own_caller h hq hcaller
  | ignore => exact own_of_eq rfl rfl
  | response hmsg hresponse he =>
    exact own_delete rfl rfl fun e he => (answers_of_tame hmsg hresponse htame he).1
  | @route k r q hrouting hq =>
    obtain ⟨p, -, hanswers⟩ := h.routing k r hrouting
    refine ⟨fun t e he => .inl he, fun j p p' => ch_setQuery hq (.inr (.inr ?_))⟩
    rw [State.owner?, hrouting]
    exact hanswers.query
  | moveOn hvisited => exact own_of_eq rfl rfl
  | @deleteVisited t e started hvisited =>
    refine own_delete rfl rfl fun e' he' => ?_
    rw [State.owner?, hvisited, h.visited t e e' hvisited he']
    rfl

/-- In a tame run every step keeps to the entry of its own query, and what a query was
answered with came from the address it was sent to. -/
theorem query_answered {as : List Action}
    (htame : Guarded State.step (fun s a => s.tame a = true) .new as) :
    Guarded State.step (fun s a => ∀ s', s.step a = some s' → Own s a s') .new as ∧
      ∀ s, exec State.step .new as = some s → ∀ (k : Nat) q r, s.queries[k]? = some q →
        q.pc = .answered r → r.source = q.addr ∧ r.query = some k := by
  have hstep : ∀ s a s', Inv s → s.tame a = true → s.step a = some s' → Inv s' :=
    fun s a s' h htame hstep => inv_step h htame hstep
  refine ⟨guarded_invariant hstep ?_ inv_new htame, fun s hs k q r hq hr => ?_⟩
  · exact fun s a h htame s' hstep => own_step h htame hstep
  · have hanswers := (exec_invariant hstep inv_new htame hs).queries k q r hq (.inr hr)
    exact ⟨hanswers.source, hanswers.query⟩

def nodeA : UDPAddr := ⟨[192, 0, 2, 1], 6881, []⟩

def nodeB : UDPAddr := ⟨[192, 0, 2, 2], 6881, []⟩

/-- A query under the transaction ID `ab`. -/
def ask : KRPCMessage := newGetPeersQuery 0x61 0x62 [] []

/-- A query of `nodeA`, and a response under its ID from `source`. -/
def askOnce (source : UDPAddr) (query : Option Nat) : List Action :=
  [.send nodeA ask false, .caller 0 .wait,
   .datagram ⟨source, encodeKRPC (newResponse ask.t []), query⟩, .route, .caller 0 .receive]

/-- Two queries under one ID, the first of which runs out of time. -/
def askTwice : List Action :=
  [.send nodeA ask false, .caller 0 .wait, .tick queryTimeout, .send nodeB ask false,
   .caller 0 .expire]

def Pc.answer? : Pc → Option Received
  | .answered r => some r
  | _ => none

theorem Pc.eq_answered {pc : Pc} {r : Received} (h : pc.answer? = some r) : pc = .answered r := by
  cases pc with
  | answered r' => rw [Option.some.inj h]
  | _ => cases h

/-- Where the first query was answered from. -/
def State.answeredFrom (s : State) : Option UDPAddr :=
  (s.queries[0]?).bind fun q => q.pc.answer?.map Received.source

theorem query_answered_once :
    ∃ s, exec State.step .new (askOnce nodeA (some 0)) = some s ∧ s.answeredFrom = some nodeA ∧
      ∀ (k : Nat) q r, s.queries[k]? = some q → q.pc = .answered r →
        r.source = q.addr ∧ r.query = some k := by
  obtain ⟨s, hs, hfrom⟩ : ∃ s, exec State.step .new (askOnce nodeA (some 0)) = some s ∧
      s.answeredFrom = some nodeA := by decide +kernel
  have htame : Guarded State.step (fun s a => s.tame a = true) .new (askOnce nodeA (some 0)) := by
    decide +kernel
  exact ⟨s, hs, hfrom, (query_answered htame).2 s hs⟩

/-- A response from anywhere answers the query, and a timeout takes away the entry of another
query with the same ID. -/
theorem query_answered_spoofed :
    (∃ s, exec State.step .new (askOnce nodeB none) = some s ∧ ∃ q r, s.queries[0]? = some q ∧
      q.pc = .answered r ∧ q.addr = nodeA ∧ r.source = nodeB) ∧
    ∃ s s', exec State.step .new askTwice = some s ∧ s.step (.caller 0 .delete) = some s' ∧
      (s.pending ask.t).map Entry.query = some 1 ∧ (s'.pending ask.t).map Entry.query = none := by
  constructor
  · obtain ⟨s, hs, q, hq, haddr, r, hr, hsource⟩ : ∃ s,
        exec State.step .new (askOnce nodeB none) = some s ∧ ∃ q, s.queries[0]? = some q ∧
          q.addr = nodeA ∧ ∃ r, q.pc.answer? = some r ∧ r.source = nodeB := by decide +kernel
    exact ⟨s, hs, q, r, hq, Pc.eq_answered hr, haddr, hsource⟩
  · obtain ⟨s, hs, hentry, s', hs', hgone⟩ : ∃ s, exec State.step .new askTwice = some s ∧
        (s.pending ask.t).map Entry.query = some 1 ∧ ∃ s', s.step (.caller 0 .delete) = some s' ∧
          (s'.pending ask.t).map Entry.query = none := by decide +kernel
    exact ⟨s, s', hs, hs', hentry, hgone⟩

end Pending
end Stor.Dht
