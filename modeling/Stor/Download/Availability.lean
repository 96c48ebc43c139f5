import Stor.Download.PeerView
import Stor.Download.QueueCalls

/-!
# Availability and the connected peers

`runWorkers` adds a peer's bitfield to the queue when it is connected and takes the same
slice away when it is gone.  A `Have` in between sets a bit in that slice and tells the
queue nothing, and a peer that has said nothing is counted for every piece.  As long as
neither happens to a queued piece, the availability of a queued piece is the number of
connected peers that have it (`availability_counts`).
-/

namespace Stor.Download

open Lib Torrent Peer Storage

/-- The queue and the clients of the connected workers. -/
structure Swarm where
  queue : PieceQueue
  clients : List Client

namespace Swarm

inductive Action where
  /-- The messages of the peer, and how many arrive in time for the first loop. -/
  | connect (arrived : Nat) (ms : List Received)
  /-- A message while worker `w` waits for an `Unchoke`. -/
  | wait (w : Nat) (msg : PeerMessage)
  /-- A message while worker `w` downloads a piece. -/
  | transfer (w : Nat) (pw : PieceWork) (t : Transfer) (msg : PeerMessage)
  | disconnect (w : Nat)
  /-- Another call on the queue. -/
  | call (c : PieceQueue.Call)

/-- The calls that tell the queue about a peer.  Of these nothing but connecting and
disconnecting makes any. -/
def isPeerCall : PieceQueue.Call → Bool
  | .op (.addPeerBitfield _) | .op (.removePeerBitfield _) | .op (.peerHave _) => true
  | _ => false

def step (numPieces : Nat) (s : Swarm) : Action → Option Swarm
  | .connect arrived ms =>
    let c := (Client.newClientFull arrived ms).1
    if c.validateBitfield numPieces then
      some ⟨s.queue.addPeerBitfield c.bitfield, s.clients ++ [c]⟩
    else some s
  | .wait w msg =>
    s.clients[w]?.map fun c => { s with clients := s.clients.set w (c.waitMessage msg) }
  | .transfer w pw t msg =>
    s.clients[w]?.map fun c =>
      { s with clients := s.clients.set w (c.transferMessage pw t msg).1 }
  | .disconnect w =>
    s.clients[w]?.map fun c =>
      ⟨s.queue.removePeerBitfield c.bitfield, s.clients.eraseIdx w⟩
  | .call c =>
    if isPeerCall c then none else (s.queue.call c).map fun q => { s with queue := q }

/-- The number of connected peers that have piece `i`. -/
def having (s : Swarm) (i : Nat) : Nat := s.clients.countP fun c => c.hasPiece i

/-- The client is counted for just the queued pieces that it has.  A nil bitfield counts
for all of them. -/
def CountedFor (q : PieceQueue) (c : Client) : Prop :=
  ∀ i ∈ q.pieces, (c.bitfield.all fun bf => bf.hasPiece i) = c.hasPiece i

/-- No `Have` for a queued piece that the client does not have yet. -/
def NoNews (s : Swarm) (w : Nat) (msg : PeerMessage) : Prop :=
  ∀ c ∈ s.clients[w]?, ∀ i ∈ msg.have?, i ∈ s.queue.pieces → c.hasPiece i = true

def ok (s : Swarm) : Action → Prop
  | .connect arrived ms => CountedFor s.queue (Client.newClientFull arrived ms).1
  | .wait w msg => s.NoNews w msg
  | .transfer w _ _ msg => s.NoNews w msg
  | _ => True

instance (q : PieceQueue) (c : Client) : Decidable (CountedFor q c) :=
  inferInstanceAs (Decidable (∀ i ∈ q.pieces.keys, _))

instance (s : Swarm) (w : Nat) (msg : PeerMessage) : Decidable (s.NoNews w msg) :=
  inferInstanceAs (Decidable (∀ c ∈ s.clients[w]?, ∀ i ∈ msg.have?, _))

instance (s : Swarm) : (a : Action) → Decidable (s.ok a)
  | .connect arrived ms =>
    inferInstanceAs (Decidable (CountedFor s.queue (Client.newClientFull arrived ms).1))
  | .wait w msg => inferInstanceAs (Decidable (s.NoNews w msg))
  | .transfer w _ _ msg => inferInstanceAs (Decidable (s.NoNews w msg))
  | .disconnect _ | .call _ => isTrue trivial

/-- Availability counts peers, and each of them will be taken away as it was added. -/
structure Counted (s : Swarm) : Prop where
  availability : ∀ i ∈ s.queue.pieces, s.queue.availability i = s.having i
  matched : ∀ c ∈ s.clients, CountedFor s.queue c

section Steps

variable {s t : Swarm} {q : PieceQueue}

/-- What the calls other than those for peers do to the two maps. -/
theorem call_frame {c : PieceQueue.Call} {q' : PieceQueue} (hcall : q.call c = some q')
    (hc : isPeerCall c = false) :
    (∀ i ∈ q'.pieces, i ∈ q.pieces) ∧ q'.availability = q.availability := by
  cases c with
  | pick hasPiece draw =>
    obtain ⟨⟨q₁, res⟩, hpick, rfl⟩ := Option.map_eq_some_iff.mp hcall
    unfold PieceQueue.pick at hpick
    cases draw with
    | none | some =>
      simp only [Option.ite_none_right_eq_some, Option.some_inj, Prod.mk.injEq] at hpick
      rw [← hpick.2.1]
      exact ⟨fun _ hi => hi, rfl⟩
  | giveBack pw =>
    rw [← Option.some_inj.mp hcall]
    exact ⟨fun _ hi => hi, rfl⟩
  | complete index =>
    rw [← Option.some_inj.mp hcall]
    exact ⟨fun i hi => (AList.mem_erase.mp hi).2, (PieceQueue.complete_frame q index).1⟩
  | op op =>
    cases op with
    | updateSkipMask mask =>
      rw [← Option.some_inj.mp hcall]
      exact ⟨fun _ hi => hi, rfl⟩
    | addPeerBitfield | removePeerBitfield | peerHave => exact absurd hc Bool.noConfusion

theorem Counted.call {c : PieceQueue.Call} (h : s.Counted) (hcall : s.queue.call c = some q)
    (hc : isPeerCall c = false) : Counted { s with queue := q } := by
  obtain ⟨hsub, havail⟩ := call_frame hcall hc
  refine ⟨fun i hi => ?_, fun c hc i hi => h.matched c hc i (hsub i hi)⟩
  show q.availability i = s.having i
  rw [havail]
  exact h.availability i (hsub i hi)

/-- One client more, counted for what it has. -/
theorem Counted.connect (h : s.Counted) {c : Client} (hc : CountedFor s.queue c) :
    Counted ⟨s.queue.addPeerBitfield c.bitfield, s.clients ++ [c]⟩ := by
  have hpieces : (s.queue.addPeerBitfield c.bitfield).pieces = s.queue.pieces :=
    PieceQueue.pieces_foldl_shift 1 _ s.queue
  constructor
  · intro i hi
    rw [hpieces] at hi
    have hshift : (s.queue.addPeerBitfield c.bitfield).availability i = _ :=
      PieceQueue.availability_foldl_peerPieces 1 s.queue c.bitfield hi
    rw [hc i hi, h.availability i hi] at hshift
    unfold having at hshift ⊢
    rw [hshift, List.countP_append, List.countP_singleton, Int.natCast_add]
    split_ifs <;> rfl
  · intro c' hc' i hi
    rw [hpieces] at hi
    rcases List.mem_append.mp hc' with hold | hnew
    · exact h.matched c' hold i hi
    · rw [List.mem_singleton.mp hnew]
      exact hc i hi

/-- A client that is counted for what it has is gone. -/
theorem Counted.disconnect (h : s.Counted) {w : Nat} {c : Client} (hw : s.clients[w]? = some c) :
    Counted ⟨s.queue.removePeerBitfield c.bitfield, s.clients.eraseIdx w⟩ := by
  have hpieces : (s.queue.removePeerBitfield c.bitfield).pieces = s.queue.pieces :=
    PieceQueue.pieces_foldl_shift (-1) _ s.queue
  obtain ⟨hlt, hget⟩ := List.getElem?_eq_some_iff.mp hw
  have hsplit : s.clients = s.clients.take w ++ c :: s.clients.drop (w + 1) := by
    rw [← hget, ← List.drop_eq_getElem_cons hlt, List.take_append_drop]
  have hc : CountedFor s.queue c := h.matched c (List.mem_of_getElem? hw)
  constructor
  · intro i hi
    rw [hpieces] at hi
    have hshift : (s.queue.removePeerBitfield c.bitfield).availability i = _ :=
      PieceQueue.availability_foldl_peerPieces (-1) s.queue c.bitfield hi
    have hbefore := h.availability i hi
    unfold having at hbefore ⊢
    rw [hsplit, List.countP_append, List.countP_cons] at hbefore
    rw [hc i hi, hbefore] at hshift
    rw [hshift, List.eraseIdx_eq_take_drop_succ, List.countP_append]
    split_ifs <;> omega
  · intro c' hc' i hi
    rw [hpieces] at hi
    exact h.matched c' (List.mem_of_mem_eraseIdx hc') i hi

/-- A message that brings no news about a queued piece. -/
theorem hasPiece_of_noNews {c c' : Client} {msg : PeerMessage} (hheard : c.Heard c' [some msg])
    (hnews : ∀ i ∈ msg.have?, i ∈ q.pieces → c.hasPiece i = true) {i : Nat} (hi : i ∈ q.pieces) :
    c'.hasPiece i = c.hasPiece i := by
  rw [Bool.eq_iff_iff, hheard.hasPiece_iff]
  have hold : c.hasPiece i = true ↔
      c.haveAll = true ∨ ∃ bf ∈ c.bitfield, bf.hasPiece i = true := by
    unfold Client.hasPiece inBitfield
    rw [Bool.or_eq_true, Option.any_eq_true]
    rfl
  constructor
  · rintro (hall | ⟨bf, hbf, hbit | ⟨hhave, -⟩⟩)
    · exact hold.mpr (.inl hall)
    · exact hold.mpr (.inr ⟨bf, hbf, hbit⟩)
    · obtain ⟨msg', hmem, hhave'⟩ := mem_haves.mp hhave
      rw [List.mem_singleton, Option.some_inj] at hmem
      exact hnews i (hmem ▸ hhave') hi
  · intro hhas
    rcases hold.mp hhas with hall | ⟨bf, hbf, hbit⟩
    · exact .inl hall
    · exact .inr ⟨bf, hbf, .inl hbit⟩

theorem countedFor_of_heard {c c' : Client} {ms : List Received} (hheard : c.Heard c' ms)
    (hc : CountedFor q c) : CountedFor q c' := by
  intro i hi
  have hbefore := hc i hi
  unfold Client.hasPiece at hbefore ⊢
  rw [hheard.haveAll, hheard.bitfield]
  cases hall : c.haveAll with
  | true =>
    rw [hall] at hbefore
    exact hbefore
  | false =>
    rw [hall] at hbefore
    cases hbits : c.bitfield with
    | none =>
      rw [hbits] at hbefore
      exact absurd hbefore Bool.noConfusion
    | some bf => rfl

theorem Counted.receive (h : s.Counted) {w : Nat} {c c' : Client} {msg : PeerMessage}
    (hw : s.clients[w]? = some c) (hheard : c.Heard c' [some msg]) (hnews : s.NoNews w msg) :
    Counted { s with clients := s.clients.set w c' } := by
  obtain ⟨hlt, hget⟩ := List.getElem?_eq_some_iff.mp hw
  constructor
  · intro i hi
    have hsame := hasPiece_of_noNews hheard (hnews c hw) hi
    have hbefore := h.availability i hi
    unfold having at hbefore ⊢
    rw [hbefore, List.countP_set hlt, hget, hsame]
    have hpos : (if c.hasPiece i = true then 1 else 0) ≤ s.clients.countP fun c => c.hasPiece i := by
      split_ifs with hhas
      · exact List.countP_pos_iff.mpr ⟨c, List.mem_of_getElem? hw, hhas⟩
      · exact Nat.zero_le _
    omega
  · intro c₁ hc₁
    rcases List.mem_or_eq_of_mem_set hc₁ with hold | rfl
    · exact h.matched c₁ hold
    · exact countedFor_of_heard hheard (h.matched c (List.mem_of_getElem? hw))

theorem step_counted {numPieces : Nat} {a : Action} (h : s.Counted) (hok : s.ok a)
    (hstep : step numPieces s a = some t) : t.Counted := by
  cases a with
  | connect arrived ms =>
    unfold step at hstep
    dsimp only at hstep
    split_ifs at hstep
    · rw [← Option.some_inj.mp hstep]
      exact h.connect hok
    · rw [← Option.some_inj.mp hstep]
      exact h
  | wait w msg =>
    obtain ⟨c, hc, rfl⟩ := Option.map_eq_some_iff.mp hstep
    exact h.receive hc (Client.heard_waitMessage c msg) hok
  | transfer w pw t msg =>
    obtain ⟨c, hc, rfl⟩ := Option.map_eq_some_iff.mp hstep
    exact h.receive hc (Client.heard_transferMessage pw c t msg) hok
  | disconnect w =>
    obtain ⟨c, hc, rfl⟩ := Option.map_eq_some_iff.mp hstep
    exact h.disconnect hc
  | call c =>
    unfold step at hstep
    rw [Option.ite_none_left_eq_some, Option.map_eq_some_iff] at hstep
    obtain ⟨hpeer, q, hq, rfl⟩ := hstep
    exact h.call hq (Bool.eq_false_iff.mpr hpeer)

end Steps

/-- Every queue that is new, with no one connected. -/
def new (pieces : List PieceWork) (skipMask : Option Bitfield) (totalPieces : Nat)
    (prioritizeFirstLast sequential : Bool) : Swarm :=
  ⟨PieceQueue.new pieces skipMask totalPieces prioritizeFirstLast sequential, []⟩

theorem counted_new (pieces : List PieceWork) (skipMask : Option Bitfield) (totalPieces : Nat)
    (prioritizeFirstLast sequential : Bool) :
    (new pieces skipMask totalPieces prioritizeFirstLast sequential).Counted :=
  ⟨fun _ _ => rfl, nofun⟩

/-- The availability of a queued piece is the number of connected peers that have it, as
long as every peer is counted for what it has when it connects and no `Have` brings a
queued piece. -/
theorem availability_counts (pieces : List PieceWork) (skipMask : Option Bitfield)
    (totalPieces : Nat) (prioritizeFirstLast sequential : Bool) (numPieces : Nat)
    (as : List Action) (s : Swarm)
    (hok : Guarded (step numPieces) ok
      (new pieces skipMask totalPieces prioritizeFirstLast sequential) as)
    (hrun : exec (step numPieces)
      (new pieces skipMask totalPieces prioritizeFirstLast sequential) as = some s) :
    ∀ i ∈ s.queue.pieces, 0 ≤ s.queue.availability i ∧ s.queue.availability i = s.having i ∧
      (s.clients = [] → s.queue.availability i = 0) := by
  have hcounted : s.Counted := exec_invariant (fun _ _ _ h hok hstep => step_counted h hok hstep)
    (counted_new pieces skipMask totalPieces prioritizeFirstLast sequential) hok hrun
  intro i hi
  have havail := hcounted.availability i hi
  refine ⟨by omega, havail, fun hnone => ?_⟩
  rw [havail, having, hnone]
  rfl

/-- Four pieces of one byte. -/
def fourPieces : Swarm :=
  new [⟨0, [], 1⟩, ⟨1, [], 1⟩, ⟨2, [], 1⟩, ⟨3, [], 1⟩] none 4 false false

/-- Peers of all three kinds, a `Have` that is no news and one for a piece that is done. -/
def threePeers : List Action :=
  [Action.connect 1 [some ⟨.bitfield, [160]⟩], .connect 1 [some ⟨.haveAll, []⟩],
    .connect 1 [some ⟨.haveNone, []⟩], .wait 0 ⟨.havePiece, [0, 0, 0, 2]⟩,
    .call (.pick (fun _ => true) (some 3)), .call (.complete 3),
    .transfer 0 ⟨0, [], 1⟩ ⟨[0], 0, 0, 0, 0, []⟩ ⟨.havePiece, [0, 0, 0, 3]⟩, .disconnect 1]

theorem availability_counts_threePeers :
    ∃ s, exec (step 4) fourPieces threePeers = some s ∧ s.clients.length = 2 ∧
      2 ∈ s.queue.pieces ∧ s.queue.availability 2 = 1 ∧
      ∀ i ∈ s.queue.pieces, 0 ≤ s.queue.availability i ∧ s.queue.availability i = s.having i ∧
        (s.clients = [] → s.queue.availability i = 0) := by
  obtain ⟨s, hs, hclients, hqueued, havail⟩ : ∃ s, exec (step 4) fourPieces threePeers = some s ∧
      s.clients.length = 2 ∧ 2 ∈ s.queue.pieces ∧ s.queue.availability 2 = 1 := by decide +kernel
  have hok : Guarded (step 4) ok fourPieces threePeers := by decide +kernel
  exact ⟨s, hs, hclients, hqueued, havail, availability_counts _ _ _ _ _ 4 threePeers s hok hs⟩

/-- A peer that announces a piece after it connected, and leaves again. -/
theorem not_availability_counts_have :
    ∃ s, exec (step 4) fourPieces [Action.connect 1 [some ⟨.bitfield, [0]⟩],
        .wait 0 ⟨.havePiece, [0, 0, 0, 0]⟩, .disconnect 0] = some s ∧
      0 ∈ s.queue.pieces ∧ s.clients = [] ∧ s.queue.availability 0 = -1 := by
  decide +kernel

end Swarm

end Stor.Download
