import Stor.Utp.Sender

/-!
# The connections of a listener

`handlePacket` of `utp/listener.go`.  The listener knows a connection by the 16-bit ID of its
SYN and by nothing else.  A client that opens with the ID `c` sends its other packets with
`c + 1`; they are looked up under that ID and then under the one before, and a FIN takes both
out of the table.  A SYN always makes a connection.

`listener_isolated` says for which packets the connections of different clients are kept apart:
those of clients whose IDs are not the same and not next to each other, with each SYN arriving
once.

The addresses are of any type, since the listener only hands them on.  Of a connection there is
the reassembly and the sending half; what it sends back is left out.
-/

namespace Stor.Utp

open Lib

abbrev ConnID := BitVec 16

structure Packet where
  header : Header
  payload : Bytes

/-- A connection that was made for a SYN. -/
structure Accepted (Addr F : Type) where
  remote : Addr
  connID : ConnID
  recv : Conn
  /-- What was sent to `recvCh`. -/
  handed : List Bytes
  send : Sender F

def maxConns : Nat := 4096

/-- The capacity of `acceptCh`. -/
def acceptCap : Nat := 64

structure Listener (Addr F : Type) where
  /-- The table, with the place of the connection in `made`. -/
  conns : AList fun _ : ConnID => Nat
  acceptCh : List Nat
  /-- All connections that were ever made. -/
  made : List (Accepted Addr F)

namespace Listener

variable {Addr F : Type}

def new : Listener Addr F := ⟨∅, [], []⟩

/-- A SYN is refused. -/
def Full (l : Listener Addr F) : Prop :=
  l.conns.keys.length ≥ maxConns ∨ l.acceptCh.length ≥ acceptCap

instance (l : Listener Addr F) : Decidable l.Full := inferInstanceAs (Decidable (_ ∨ _))

/-- The connection that a packet is for. -/
def route (l : Listener Addr F) (id : ConnID) : Option Nat :=
  match l.conns.lookup id with
  | some k => some k
  | none => l.conns.lookup (id - 1)

end Listener

namespace Accepted

variable {Addr F : Type}

/-- `Close` at this end. -/
def close (c : Accepted Addr F) : Accepted Addr F := { c with send := c.send.close }

variable [Floats F]

/-- What a connection does with a packet that is handed to it.  One that is closed can still put
data on its channel, or not; here it does not. -/
def receive (c : Accepted Addr F) (pkt : Packet) (now : Int) : Accepted Addr F :=
  match pkt.header.type with
  | .data =>
    let (recv, toDeliver) := c.recv.deliverInOrder pkt.header.seqNr pkt.payload
    { c with
      send := c.send.updateRemoteWnd pkt.header.wndSize
      recv := recv
      handed := if c.send.closed then c.handed else c.handed ++ toDeliver }
  | .state => { c with send := c.send.handleAck pkt.header now }
  | .fin | .reset => { c with send := { c.send with closed := true } }
  | .syn | .other _ => c

end Accepted

namespace Listener

variable {Addr F : Type} [Floats F]

/-- `newConn` for a SYN from the address. -/
def accepted (addr : Addr) (h : Header) (now : Int) : Accepted Addr F where
  remote := addr
  connID := h.connID + 1
  recv := .accept h.seqNr
  handed := []
  send := .new now

def handleSyn (l : Listener Addr F) (addr : Addr) (h : Header) (now : Int) : Listener Addr F :=
  if l.Full then l
  else
    { conns := l.conns.insert h.connID l.made.length
      acceptCh := l.acceptCh ++ [l.made.length]
      made := l.made ++ [accepted addr h now] }

def handlePacket (l : Listener Addr F) (addr : Addr) (pkt : Packet) (now : Int) :
    Listener Addr F :=
  match pkt.header.type with
  | .syn => l.handleSyn addr pkt.header now
  | type =>
    match l.route pkt.header.connID with
    | none => l
    | some k =>
      { l with
        made := l.made.modify k fun c => c.receive pkt now
        conns :=
          if type = .fin ∨ type = .reset then
            (l.conns.erase pkt.header.connID).erase (pkt.header.connID - 1)
          else l.conns }

inductive Event (Addr : Type) where
  | packet (addr : Addr) (pkt : Packet) (now : Int)
  /-- `Accept` takes a connection from the channel. -/
  | accept
  /-- A connection is closed at this end, which leaves the table alone. -/
  | close (k : Nat)

def step (l : Listener Addr F) : Event Addr → Option (Listener Addr F)
  | .packet addr pkt now => some (l.handlePacket addr pkt now)
  | .accept =>
    match l.acceptCh with
    | [] => none
    | _ :: rest => some { l with acceptCh := rest }
  | .close k => some { l with made := l.made.modify k Accepted.close }

/-! ## What a packet does -/

section

variable {l l' : Listener Addr F} {addr : Addr} {pkt : Packet} {now : Int}

theorem handlePacket_of_syn (h : pkt.header.type = .syn) :
    l.handlePacket addr pkt now = l.handleSyn addr pkt.header now := by
  unfold handlePacket
  rw [h]

theorem handlePacket_of_route_none (h : pkt.header.type ≠ .syn)
    (hroute : l.route pkt.header.connID = none) : l.handlePacket addr pkt now = l := by
  unfold handlePacket
  split
  · exact absurd ‹_› h
  · rw [hroute]

theorem handlePacket_of_route {k : Nat} (h : pkt.header.type ≠ .syn)
    (hroute : l.route pkt.header.connID = some k) :
    l.handlePacket addr pkt now = { l with
      made := l.made.modify k fun c => c.receive pkt now
      conns :=
        if pkt.header.type = .fin ∨ pkt.header.type = .reset then
          (l.conns.erase pkt.header.connID).erase (pkt.header.connID - 1)
        else l.conns } := by
  unfold handlePacket
  split
  · exact absurd ‹_› h
  · rw [hroute]

omit [Floats F] in
/-- A packet is looked up under its ID, and under the one before if there is nothing. -/
theorem route_eq_some {id : ConnID} {k : Nat} (h : l.route id = some k) :
    l.conns.lookup id = some k ∨ l.conns.lookup id = none ∧ l.conns.lookup (id - 1) = some k := by
  unfold route at h
  cases hid : l.conns.lookup id with
  | some k' =>
    rw [hid] at h
    exact .inl h
  | none =>
    rw [hid] at h
    exact .inr ⟨rfl, h⟩

theorem remote_receive (c : Accepted Addr F) (pkt : Packet) (now : Int) :
    (c.receive pkt now).remote = c.remote := by
  unfold Accepted.receive
  split <;> rfl

end

/-! ## Clients -/

/-- The packets of a client have the ID of its SYN, or the next one. -/
def FromClient (ids : Addr → ConnID) : Event Addr → Prop
  | .packet addr pkt _ => (∀ n, pkt.header.type ≠ .other n) ∧
      pkt.header.connID = if pkt.header.type = .syn then ids addr else ids addr + 1
  | _ => True

/-- The connection was made for the client. -/
def Own (l : Listener Addr F) (addr : Addr) (k : Nat) : Prop :=
  ∃ c, l.made[k]? = some c ∧ c.remote = addr

/-- Nothing happens to a connection of another client, and it stays in the table. -/
def Spares (l l' : Listener Addr F) (addr : Addr) : Prop :=
  ∀ k c, l.made[k]? = some c → c.remote ≠ addr →
    l'.made[k]? = some c ∧ ∀ id, l.conns.lookup id = some k → l'.conns.lookup id = some k

/-- A SYN of a client that has a connection makes no other, and any other packet is only for the
connection of its own client. -/
def Isolated (l : Listener Addr F) : Event Addr → Prop
  | .packet addr pkt now =>
    if pkt.header.type = .syn then
      (∃ c ∈ l.made, c.remote = addr) →
        (l.handlePacket addr pkt now).made = l.made ∧ (l.handlePacket addr pkt now).conns = l.conns
    else
      (∀ k, l.route pkt.header.connID = some k → l.Own addr k) ∧
        l.Spares (l.handlePacket addr pkt now) addr
  | _ => True

/-- The client of a SYN has no connection yet, or the SYN is refused.  For any other packet there
is nothing in the table under its own ID, and under the one before only the connection of its
client. -/
def Apart (l : Listener Addr F) : Event Addr → Prop
  | .packet addr pkt _ =>
    if pkt.header.type = .syn then (∀ c ∈ l.made, c.remote ≠ addr) ∨ l.Full
    else l.conns.lookup pkt.header.connID = none ∧
      ∀ k, l.conns.lookup (pkt.header.connID - 1) = some k → l.Own addr k
  | _ => True

/-- The table has a connection under the ID of its client. -/
def Keyed (ids : Addr → ConnID) (l : Listener Addr F) : Prop :=
  ∀ id k, l.conns.lookup id = some k → ∃ c, l.made[k]? = some c ∧ ids c.remote = id

section

variable {ids : Addr → ConnID} {l l' : Listener Addr F} {ev : Event Addr}

theorem ne_succ (id : ConnID) : id ≠ id + 1 := by bv_omega

omit [Floats F] in
/-- A change that leaves the address of a connection alone. -/
theorem getElem?_modify_remote {made : List (Accepted Addr F)} {k j : Nat} {c : Accepted Addr F}
    {f : Accepted Addr F → Accepted Addr F} (hf : ∀ c, (f c).remote = c.remote)
    (h : made[j]? = some c) : ∃ c', (made.modify k f)[j]? = some c' ∧ c'.remote = c.remote := by
  rw [List.getElem?_modify, h]
  by_cases hkj : k = j
  · exact ⟨f c, by simp [hkj], hf c⟩
  · exact ⟨c, by simp [hkj], rfl⟩

omit [Floats F] in
theorem lookup_erase_some {conns : AList fun _ : ConnID => Nat} {id id' : ConnID} {k : Nat}
    (h : (conns.erase id).lookup id' = some k) : id' ≠ id ∧ conns.lookup id' = some k := by
  have hne : id' ≠ id := by
    rintro rfl
    rw [AList.lookup_erase] at h
    cases h
  exact ⟨hne, by rwa [AList.lookup_erase_ne hne] at h⟩

omit [Floats F] in
theorem Keyed.of_sub (h : l.Keyed ids) (hconns : ∀ id k, l'.conns.lookup id = some k →
      l.conns.lookup id = some k)
    (hmade : ∀ (k : Nat) (c : Accepted Addr F), l.made[k]? = some c →
      ∃ c', l'.made[k]? = some c' ∧ c'.remote = c.remote) :
    l'.Keyed ids := by
  intro id k hk
  obtain ⟨c, hc, hid⟩ := h id k (hconns id k hk)
  obtain ⟨c', hc', hremote⟩ := hmade k c hc
  exact ⟨c', hc', hremote ▸ hid⟩

theorem keyed_handleSyn (h : l.Keyed ids) {addr : Addr} {hd : Header} (hid : hd.connID = ids addr)
    (now : Int) : (l.handleSyn addr hd now).Keyed ids := by
  unfold handleSyn
  split_ifs
  · exact h
  · intro id k hk
    by_cases hsame : id = hd.connID
    · dsimp only at hk
      rw [hsame, AList.lookup_insert] at hk
      rw [← Option.some.inj hk]
      exact ⟨_, List.getElem?_concat_length, (hsame.trans hid).symm⟩
    · dsimp only at hk
      rw [AList.lookup_insert_ne hsame] at hk
      obtain ⟨c, hc, hid⟩ := h id k hk
      exact ⟨c, (List.getElem?_append_left (List.getElem?_eq_some_iff.mp hc).1).trans hc, hid⟩

theorem keyed_step (h : l.Keyed ids) (hev : FromClient ids ev) (hstep : l.step ev = some l') :
    l'.Keyed ids := by
  cases ev with
  | packet addr pkt now =>
    rw [← Option.some.inj hstep]
    by_cases hsyn : pkt.header.type = .syn
    · have hid := hev.2
      rw [if_pos hsyn] at hid
      rw [handlePacket_of_syn hsyn]
      exact keyed_handleSyn h hid now
    · cases hroute : l.route pkt.header.connID with
      | none => rwa [handlePacket_of_route_none hsyn hroute]
      | some k =>
        rw [handlePacket_of_route hsyn hroute]
        refine h.of_sub (fun id k' hk' => ?_) fun k' c hc =>
          getElem?_modify_remote (fun c => remote_receive c pkt now) hc
        dsimp only at hk'
        split_ifs at hk'
        · exact (lookup_erase_some (lookup_erase_some hk').2).2
        · exact hk'
  | accept =>
    unfold step at hstep
    cases hch : l.acceptCh with
    | nil => rw [hch] at hstep; cases hstep
    | cons k rest =>
      rw [hch] at hstep
      rw [← Option.some.inj hstep]
      exact h
  | close k =>
    rw [← Option.some.inj hstep]
    exact h.of_sub (fun _ _ hk => hk) fun k' c hc => getElem?_modify_remote (fun _ => rfl) hc

section

variable {addr : Addr} {pkt : Packet} {now : Int}

/-- A SYN changes neither the connections nor the table exactly when it is refused. -/
theorem handleSyn_eq_iff {h : Header} :
    (l.handleSyn addr h now).made = l.made ∧ (l.handleSyn addr h now).conns = l.conns ↔ l.Full := by
  unfold handleSyn
  split_ifs with hfull
  · exact iff_of_true ⟨rfl, rfl⟩ hfull
  · refine iff_of_false (fun hsame => ?_) hfull
    have hlen := congrArg List.length hsame.1
    rw [List.length_append, List.length_singleton] at hlen
    omega

omit [Floats F] in
theorem Own.remote_eq {k : Nat} {c : Accepted Addr F} (h : l.Own addr k)
    (hc : l.made[k]? = some c) : c.remote = addr := by
  obtain ⟨c', hc', hremote⟩ := h
  rw [hc] at hc'
  exact Option.some.inj hc' ▸ hremote

omit [Floats F] in
/-- What is in the table under the second ID of a client is not its connection. -/
theorem Keyed.not_own {k : Nat} (h : l.Keyed ids) (hid : pkt.header.connID = ids addr + 1)
    (hk : l.conns.lookup pkt.header.connID = some k) : ¬l.Own addr k := by
  intro hown
  obtain ⟨c, hc, hcid⟩ := h _ k hk
  rw [hown.remote_eq hc, hid] at hcid
  exact ne_succ _ hcid

omit [Floats F] in
/-- A packet that is not a SYN finds connections of its client only, exactly when there is nothing
under its ID and nothing else under the one before. -/
theorem route_own_iff (h : l.Keyed ids) (hid : pkt.header.connID = ids addr + 1) :
    (∀ k, l.route pkt.header.connID = some k → l.Own addr k) ↔
      l.conns.lookup pkt.header.connID = none ∧
        ∀ k, l.conns.lookup (pkt.header.connID - 1) = some k → l.Own addr k := by
  constructor
  · intro hown
    have hnone : l.conns.lookup pkt.header.connID = none := by
      cases hk : l.conns.lookup pkt.header.connID with
      | none => rfl
      | some k => exact absurd (hown k (by rw [route, hk])) (h.not_own hid hk)
    exact ⟨hnone, fun k hk => hown k (by rw [route, hnone]; exact hk)⟩
  · rintro ⟨hnone, hown⟩ k hk
    rcases route_eq_some hk with hk | ⟨-, hk⟩
    · rw [hnone] at hk
      cases hk
    · exact hown k hk

/-- Such a packet does nothing to the others. -/
theorem spares_handlePacket (hsyn : pkt.header.type ≠ .syn)
    (hnone : l.conns.lookup pkt.header.connID = none)
    (hown : ∀ k, l.conns.lookup (pkt.header.connID - 1) = some k → l.Own addr k) :
    l.Spares (l.handlePacket addr pkt now) addr := by
  intro k c hc hother
  cases hroute : l.route pkt.header.connID with
  | none =>
    rw [handlePacket_of_route_none hsyn hroute]
    exact ⟨hc, fun _ hk => hk⟩
  | some j =>
    rw [handlePacket_of_route hsyn hroute]
    refine ⟨?_, fun id hk => ?_⟩
    · have hjk : j ≠ k := by
        rintro rfl
        rcases route_eq_some hroute with hj | ⟨-, hj⟩
        · rw [hnone] at hj
          cases hj
        · exact hother ((hown j hj).remote_eq hc)
      rw [List.getElem?_modify, hc]
      simp [hjk]
    · have hid₁ : id ≠ pkt.header.connID := by
        rintro rfl
        rw [hnone] at hk
        cases hk
      have hid₂ : id ≠ pkt.header.connID - 1 := by
        rintro rfl
        exact hother ((hown k hk).remote_eq hc)
      dsimp only
      split_ifs
      · rw [AList.lookup_erase_ne hid₂, AList.lookup_erase_ne hid₁]
        exact hk
      · exact hk

end

/-- The connections are kept apart by a step exactly when the table has nothing of another client
under the IDs of the packet. -/
theorem isolated_iff (h : l.Keyed ids) (hev : FromClient ids ev) : l.Isolated ev ↔ l.Apart ev := by
  cases ev with
  | accept => exact Iff.rfl
  | close k => exact Iff.rfl
  | packet addr pkt now =>
    rw [Isolated, Apart]
    by_cases hsyn : pkt.header.type = .syn
    · rw [if_pos hsyn, if_pos hsyn, handlePacket_of_syn hsyn, handleSyn_eq_iff]
      constructor
      · intro hisolated
        by_cases hmade : ∃ c ∈ l.made, c.remote = addr
        · exact .inr (hisolated hmade)
        · exact .inl fun c hc hremote => hmade ⟨c, hc, hremote⟩
      · rintro (hnone | hfull) ⟨c, hc, hremote⟩
        · exact absurd hremote (hnone c hc)
        · exact hfull
    · have hid := hev.2
      rw [if_neg hsyn] at hid
      rw [if_neg hsyn, if_neg hsyn, route_own_iff h hid]
      exact and_iff_left_of_imp fun hown => spares_handlePacket hsyn hown.1 hown.2

end

/-! ## Every sequence of packets -/

def senderOf : Event Addr → Option Addr
  | .packet addr _ _ => some addr
  | _ => none

/-- The client whose SYN it is. -/
def synOf : Event Addr → Option Addr
  | .packet addr pkt _ => if pkt.header.type = .syn then some addr else none
  | _ => none

/-- No two clients have the same ID or IDs next to each other. -/
def Spaced (ids : Addr → ConnID) (evs : List (Event Addr)) : Prop :=
  ∀ a ∈ evs.filterMap senderOf, ∀ b ∈ evs.filterMap senderOf, a ≠ b →
    ids a ≠ ids b ∧ ids a ≠ ids b + 1

section

variable {ids : Addr → ConnID} {l l' : Listener Addr F} {ev : Event Addr}

theorem senderOf_of_synOf {a : Addr} (h : synOf ev = some a) : senderOf ev = some a := by
  cases ev with
  | packet addr pkt now =>
    obtain ⟨-, h⟩ := Option.ite_none_right_eq_some.mp h
    exact h
  | accept => cases h
  | close k => cases h

omit [Floats F] in
theorem mem_modify_remote {made : List (Accepted Addr F)} {k : Nat} {c' : Accepted Addr F}
    {f : Accepted Addr F → Accepted Addr F} (hf : ∀ c, (f c).remote = c.remote)
    (h : c' ∈ made.modify k f) : ∃ c ∈ made, c.remote = c'.remote := by
  obtain ⟨j, hj⟩ := List.mem_iff_getElem?.mp h
  rw [List.getElem?_modify] at hj
  obtain ⟨c, hc, hcc'⟩ := Option.map_eq_some_iff.mp hj
  refine ⟨c, List.mem_of_getElem? hc, ?_⟩
  rw [← hcc']
  split_ifs
  · exact (hf c).symm
  · rfl

/-- A connection is one that was there, or that of the SYN. -/
theorem remote_of_step (hstep : l.step ev = some l') {c' : Accepted Addr F} (hc' : c' ∈ l'.made) :
    (∃ c ∈ l.made, c.remote = c'.remote) ∨ synOf ev = some c'.remote := by
  cases ev with
  | packet addr pkt now =>
    rw [← Option.some.inj hstep] at hc'
    by_cases hsyn : pkt.header.type = .syn
    · rw [handlePacket_of_syn hsyn, handleSyn] at hc'
      split_ifs at hc'
      · exact .inl ⟨c', hc', rfl⟩
      · rcases List.mem_append.mp hc' with hc' | hc'
        · exact .inl ⟨c', hc', rfl⟩
        · rw [List.mem_singleton.mp hc']
          exact .inr (if_pos hsyn)
    · cases hroute : l.route pkt.header.connID with
      | none =>
        rw [handlePacket_of_route_none hsyn hroute] at hc'
        exact .inl ⟨c', hc', rfl⟩
      | some k =>
        rw [handlePacket_of_route hsyn hroute] at hc'
        exact .inl (mem_modify_remote (fun c => remote_receive c pkt now) hc')
  | accept =>
    unfold step at hstep
    cases hch : l.acceptCh with
    | nil => rw [hch] at hstep; cases hstep
    | cons k rest =>
      rw [hch] at hstep
      rw [← Option.some.inj hstep] at hc'
      exact .inl ⟨c', hc', rfl⟩
  | close k =>
    rw [← Option.some.inj hstep] at hc'
    exact .inl (mem_modify_remote (f := Accepted.close) (fun _ => rfl) hc')

omit [Floats F] in
/-- `P` holds of all clients of the run, which are spaced, and none of those in the table sends
this SYN. -/
theorem apart_of_spaced {P : Addr → Prop}
    (hspaced : ∀ a b, P a → P b → a ≠ b → ids a ≠ ids b ∧ ids a ≠ ids b + 1)
    (hkeyed : l.Keyed ids) (hmade : ∀ c ∈ l.made, P c.remote ∧ synOf ev ≠ some c.remote)
    (hev : FromClient ids ev) (hsender : ∀ a, senderOf ev = some a → P a) : l.Apart ev := by
  cases ev with
  | accept => trivial
  | close k => trivial
  | packet addr pkt now =>
    have hP : P addr := hsender addr rfl
    rw [Apart]
    split_ifs with hsyn
    · refine .inl fun c hc hremote => (hmade c hc).2 ?_
      rw [hremote]
      exact if_pos hsyn
    · have hid := hev.2
      rw [if_neg hsyn] at hid
      constructor
      · cases hk : l.conns.lookup pkt.header.connID with
        | none => rfl
        | some k =>
          obtain ⟨c, hc, hcid⟩ := hkeyed _ k hk
          have hne : c.remote ≠ addr := fun heq => hkeyed.not_own hid hk ⟨c, hc, heq⟩
          have hPc := (hmade c (List.mem_of_getElem? hc)).1
          exact absurd (hcid.trans hid) (hspaced _ _ hPc hP hne).2
      · intro k hk
        obtain ⟨c, hc, hcid⟩ := hkeyed _ k hk
        have hPc := (hmade c (List.mem_of_getElem? hc)).1
        refine ⟨c, hc, by_contra fun hne => (hspaced _ _ hPc hP hne).1 ?_⟩
        rw [hcid, hid, BitVec.add_sub_cancel]

theorem guarded_apart {P : Addr → Prop}
    (hspaced : ∀ a b, P a → P b → a ≠ b → ids a ≠ ids b ∧ ids a ≠ ids b + 1)
    {evs : List (Event Addr)} (hkeyed : l.Keyed ids)
    (hmade : ∀ c ∈ l.made, P c.remote ∧ c.remote ∉ evs.filterMap synOf)
    (hevs : ∀ ev ∈ evs, FromClient ids ev ∧ ∀ a, senderOf ev = some a → P a)
    (honce : (evs.filterMap synOf).Nodup) : Guarded step Apart l evs := by
  induction evs generalizing l with
  | nil => trivial
  | cons ev evs ih =>
    obtain ⟨hev, hsender⟩ := hevs ev List.mem_cons_self
    refine ⟨apart_of_spaced hspaced hkeyed (fun c hc => ⟨(hmade c hc).1, fun hsyn => ?_⟩) hev
      hsender, fun l' hl' => ih (keyed_step hkeyed hev hl') (fun c' hc' => ?_)
      (fun ev' hev' => hevs ev' (List.mem_cons_of_mem _ hev')) ?_⟩
    · exact (hmade c hc).2 (List.mem_filterMap.mpr ⟨ev, List.mem_cons_self, hsyn⟩)
    · rcases remote_of_step hl' hc' with ⟨c, hc, hremote⟩ | hsyn
      · obtain ⟨hP, hnot⟩ := hmade c hc
        rw [hremote] at hP hnot
        exact ⟨hP, fun hmem => hnot ((List.sublist_cons_self ev evs).filterMap synOf |>.subset hmem)⟩
      · rw [List.filterMap_cons_some hsyn, List.nodup_cons] at honce
        exact ⟨hsender _ (senderOf_of_synOf hsyn), honce.1⟩
    · exact honce.sublist ((List.sublist_cons_self ev evs).filterMap synOf)

end

/-- Whatever the clients send and in whatever order: the connections are kept apart exactly when
no packet finds anything of another client under its IDs and no SYN comes from a client that has
a connection.  IDs that are not the same and not next to each other, and SYNs that arrive once,
are enough for that. -/
theorem listener_isolated (ids : Addr → ConnID) {evs : List (Event Addr)} {l : Listener Addr F}
    (hclients : ∀ ev ∈ evs, FromClient ids ev) (hrun : exec step new evs = some l) :
    (Guarded step Isolated (new : Listener Addr F) evs ↔
        Guarded step Apart (new : Listener Addr F) evs) ∧
      (Spaced ids evs → (evs.filterMap synOf).Nodup →
        Guarded step Isolated (new : Listener Addr F) evs) := by
  have hkeyed : (new : Listener Addr F).Keyed ids := fun id k hk => nomatch hk
  have hsame : ∀ (l : Listener Addr F) ev l', l.Keyed ids → FromClient ids ev →
      l.step ev = some l' → (l.Isolated ev ↔ l.Apart ev) := fun _ _ _ hl hev _ =>
    isolated_iff hl hev
  have hinv : ∀ (l : Listener Addr F) ev l', l.Keyed ids → FromClient ids ev → l.Isolated ev →
      l.step ev = some l' → l'.Keyed ids := fun _ _ _ hl hev _ hstep => keyed_step hl hev hstep
  have hiff := guarded_iff hsame hinv hkeyed hclients hrun
  refine ⟨hiff, fun hspaced honce => hiff.mpr ?_⟩
  refine guarded_apart (P := fun a => a ∈ evs.filterMap senderOf)
    (fun a b ha hb hab => hspaced a ha b hb hab) hkeyed (fun _ hc => absurd hc List.not_mem_nil)
    (fun ev hev => ⟨hclients ev hev, fun a ha => List.mem_filterMap.mpr ⟨ev, hev, ha⟩⟩) honce

/-- A packet of client `a`, all of them with a payload of one byte. -/
def examplePacket (a : Nat) (type : PacketType) (id : ConnID) (seqNr : SeqNr) : Event Nat :=
  .packet a ⟨⟨type, id, 0, 2800, seqNr, 0⟩, [7]⟩ 0

/-- Two clients with IDs that are two apart. -/
def spacedPackets : List (Event Nat) :=
  [examplePacket 0 .syn 5 1, examplePacket 1 .syn 7 1, examplePacket 0 .data 6 2,
    examplePacket 1 .fin 8 2]

theorem listener_isolated_spaced :
    ∃ l : Listener Nat ℚ, exec step new spacedPackets = some l ∧
      Guarded step Isolated (new : Listener Nat ℚ) spacedPackets := by
  have hclients : ∀ ev ∈ spacedPackets, FromClient (fun a => 5 + 2 * BitVec.ofNat 16 a) ev := by
    intro ev hev
    rw [spacedPackets, List.mem_cons, List.mem_cons, List.mem_cons, List.mem_singleton] at hev
    rcases hev with rfl | rfl | rfl | rfl <;>
      exact ⟨fun _ h => PacketType.noConfusion h, by decide⟩
  have hspaced : Spaced (fun a => 5 + 2 * BitVec.ofNat 16 a) spacedPackets :=
    (by decide : ∀ a ∈ [0, 1, 0, 1], ∀ b ∈ [0, 1, 0, 1], a ≠ b →
      (5 + 2 * BitVec.ofNat 16 a ≠ 5 + 2 * BitVec.ofNat 16 b ∧
        5 + 2 * BitVec.ofNat 16 a ≠ 5 + 2 * BitVec.ofNat 16 b + 1))
  have honce : (spacedPackets.filterMap synOf).Nodup := (by decide : [0, 1].Nodup)
  exact ⟨_, rfl, (listener_isolated _ hclients rfl).2 hspaced honce⟩

/-- Whether connection `k` was closed, with the address that it was made for. -/
def closedOf (l : Listener Nat ℚ) (k : Nat) : Option (Nat × Bool) :=
  l.made[k]?.map fun c => (c.remote, c.send.closed)

/-- A SYN that comes twice makes two connections, and the first gets nothing any more.  Of two
clients with the IDs 5 and 6, the packets of the first are for the connection of the second, which
its FIN closes and takes out of the table. -/
theorem listener_confuses :
    (∃ l : Listener Nat ℚ, exec step new [examplePacket 0 .syn 5 1, examplePacket 0 .syn 5 1] =
        some l ∧ l.made.length = 2 ∧ l.route 6 = some 1) ∧
    ∃ l l' : Listener Nat ℚ,
      exec step new [examplePacket 0 .syn 5 1, examplePacket 1 .syn 6 1] = some l ∧
        l.route 6 = some 1 ∧ l.closedOf 1 = some (1, false) ∧ l.route 7 = some 1 ∧
        l.step (examplePacket 0 .fin 6 2) = some l' ∧
        l'.closedOf 1 = some (1, true) ∧ l'.route 7 = none := by
  constructor
  · exact ⟨_, rfl, by decide +kernel, by decide +kernel⟩
  · exact ⟨_, _, rfl, by decide +kernel, by decide +kernel, by decide +kernel, rfl,
      by decide +kernel, by decide +kernel⟩

end Listener

end Stor.Utp
