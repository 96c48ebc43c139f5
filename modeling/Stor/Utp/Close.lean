import Stor.Utp.Deliver

/-!
# The end of a stream

`Read` of `utp/conn.go` beside the goroutine that takes the packets.  That goroutine pushes what
`deliverInOrder` hands over to `recvCh` one payload at a time, and it closes `closeCh` when a FIN
comes, whatever number that has.  No packet reaches the connection after it.  `Read` takes from
`recvCh` or sees `closeCh` closed; with both ready it may do either.

So the end of the stream is what the sender sent (`acknowledged_returned`) if the FIN comes behind
all of its data, and `Read` never sees the closed channel before the data that is there.

The stream of the sender is `n` packets of data and the FIN behind them.  `Close` at this end and
the timer of `Read` are left out.
-/

namespace Stor.Utp

open Lib

/-- The capacity of `recvCh`. -/
def recvCap : Nat := 1024

/-- The receiving half of a connection, between the sender and the reader. -/
structure Stream where
  receiver : Receiver
  /-- What `deliverInOrder` still has to push. -/
  toDeliver : List Bytes
  recvCh : List Bytes
  recvBuf : Bytes
  closed : Bool
  /-- The packets that the last `ackNr` sent covers are those before this one. -/
  acked : Nat
  /-- What `Read` has returned. -/
  returned : Bytes
  /-- What `Read` had returned when it first returned `errClosed`. -/
  ended : Option Bytes

namespace Stream

def new (seqNr : SeqNr) : Stream where
  receiver := .new seqNr
  toDeliver := []
  recvCh := []
  recvBuf := []
  closed := false
  acked := 0
  returned := []
  ended := none

inductive Action where
  /-- A copy of the data packet `i` arrives. -/
  | arrive (i : Nat)
  /-- The next payload is pushed to `recvCh`. -/
  | push
  /-- The FIN arrives. -/
  | fin
  /-- `ackNr` is sent, by `sendAckFor` or with a packet of `Write`. -/
  | ack
  /-- `Read` returns data, for a buffer of `k` bytes. -/
  | read (k : Nat)
  /-- `Read` returns `errClosed`. -/
  | readClosed

def step (first : SeqNr) (payload : Nat → Bytes) (n : Nat) (s : Stream) : Action → Option Stream
  | .arrive i =>
    if i < n ∧ s.toDeliver = [] then
      -- the listener has forgotten a connection that was closed, `clientReadLoop` has returned
      if s.closed then some s
      else
        (s.receiver.arrive first payload i).map fun r =>
          { s with
            receiver := r
            toDeliver := (s.receiver.conn.deliverInOrder (serial first i) (payload i)).2 }
    else none
  | .push =>
    match s.toDeliver with
    | [] => none
    | data :: rest =>
      if s.recvCh.length < recvCap then
        some { s with toDeliver := rest, recvCh := s.recvCh ++ [data] }
      else none
  | .fin => if s.toDeliver = [] then some { s with closed := true } else none
  | .ack => some { s with acked := s.receiver.expected }
  | .read k =>
    if 0 < s.recvBuf.length then
      some { s with
        recvBuf := s.recvBuf.drop k
        returned := s.returned ++ s.recvBuf.take k }
    else
      match s.recvCh with
      | [] => none
      | data :: rest =>
        some { s with
          recvCh := rest
          recvBuf := data.drop k
          returned := s.returned ++ data.take k }
  | .readClosed =>
    if s.recvBuf = [] ∧ s.closed = true then
      some { s with ended := s.ended.or (some s.returned) }
    else none

/-- No packet is half a round or more away, and `Read` does not see the closed channel as long as
there is data in the other. -/
def Heeds (s : Stream) : Action → Prop
  | .arrive i => s.receiver.Near i
  | .readClosed => s.recvCh = []
  | .push | .fin | .ack | .read _ => True

instance (s : Stream) : ∀ a, Decidable (s.Heeds a)
  | .arrive i => inferInstanceAs (Decidable (s.receiver.Near i))
  | .readClosed => inferInstanceAs (Decidable (s.recvCh = []))
  | .push | .fin | .ack | .read _ => isTrue trivial

/-- The FIN comes when all data packets have come. -/
def FinLast (n : Nat) (s : Stream) : Action → Prop
  | .fin => s.receiver.expected = n
  | .arrive _ | .push | .ack | .read _ | .readClosed => True

instance (n : Nat) (s : Stream) : ∀ a, Decidable (s.FinLast n a)
  | .fin => inferInstanceAs (Decidable (s.receiver.expected = n))
  | .arrive _ | .push | .ack | .read _ | .readClosed => isTrue trivial

variable {first : SeqNr} {payload : Nat → Bytes} {n : Nat} {s t : Stream}

/-- Nothing that was handed over is lost on its way to the reader. -/
structure Intact (first : SeqNr) (payload : Nat → Bytes) (s : Stream) : Prop where
  inv : Inv first payload s.receiver.conn s.receiver.handed s.receiver.expected
  handed : s.returned ++ s.recvBuf ++ s.recvCh.flatten ++ s.toDeliver.flatten =
    s.receiver.handed.flatten
  pushed : s.closed = true → s.toDeliver = []
  acked : s.acked ≤ s.receiver.expected
  ended : ∀ b, s.ended = some b → s.closed = true ∧ b = s.receiver.handed.flatten

theorem intact_new (seqNr : SeqNr) (payload : Nat → Bytes) :
    Intact (seqNr + 1) payload (.new seqNr) where
  inv := inv_accept seqNr payload
  handed := rfl
  pushed := nofun
  acked := Nat.le_refl _
  ended := nofun

theorem Intact.flatten (hs : Intact first payload s) :
    s.receiver.handed.flatten = ((List.range s.receiver.expected).map payload).flatten := by
  rw [hs.inv.handed, flatten_sent]

theorem expected_le_arrive {r r' : Receiver} {i : Nat} (h : r.arrive first payload i = some r') :
    r.expected ≤ r'.expected := by
  rw [← Option.some.inj h]
  exact Nat.le_add_right _ _

theorem Intact.arrive {i : Nat} (hs : Intact first payload s) (hnear : s.receiver.Near i)
    (h : s.step first payload n (.arrive i) = some t) : Intact first payload t := by
  obtain ⟨⟨-, hidle⟩, h⟩ := Option.ite_none_right_eq_some.mp h
  split_ifs at h with hclosed
  · exact Option.some.inj h ▸ hs
  · obtain ⟨r, hr, rfl⟩ := Option.map_eq_some_iff.mp h
    refine ⟨inv_arrive hs.inv hnear hr, ?_, fun hc => absurd hc hclosed,
      hs.acked.trans (expected_le_arrive hr), fun b hb => absurd (hs.ended b hb).1 hclosed⟩
    have hhanded := hs.handed
    rw [hidle, List.flatten_nil, List.append_nil] at hhanded
    rw [← Option.some.inj hr]
    dsimp only
    rw [List.flatten_append, hhanded]

theorem Intact.push (hs : Intact first payload s) (h : s.step first payload n .push = some t) :
    Intact first payload t := by
  unfold step at h
  cases hd : s.toDeliver with
  | nil =>
    rw [hd] at h
    cases h
  | cons data rest =>
    rw [hd] at h
    obtain ⟨-, h⟩ := Option.ite_none_right_eq_some.mp h
    rw [← Option.some.inj h]
    have hhanded := hs.handed
    rw [hd, List.flatten_cons] at hhanded
    refine ⟨hs.inv, ?_, fun hc => ?_, hs.acked, hs.ended⟩
    · rw [← hhanded, List.flatten_append, List.flatten_singleton]
      simp only [List.append_assoc]
    · rw [hs.pushed hc] at hd
      cases hd

theorem Intact.read {k : Nat} (hs : Intact first payload s)
    (h : s.step first payload n (.read k) = some t) : Intact first payload t := by
  unfold step at h
  dsimp only at h
  split_ifs at h with hbuf
  · rw [← Option.some.inj h]
    refine ⟨hs.inv, ?_, hs.pushed, hs.acked, hs.ended⟩
    rw [← hs.handed, List.append_assoc s.returned, List.take_append_drop]
  · have hnil : s.recvBuf = [] := List.length_eq_zero_iff.mp (Nat.eq_zero_of_not_pos hbuf)
    cases hch : s.recvCh with
    | nil =>
      rw [hch] at h
      cases h
    | cons data rest =>
      rw [hch] at h
      rw [← Option.some.inj h]
      refine ⟨hs.inv, ?_, hs.pushed, hs.acked, hs.ended⟩
      rw [← hs.handed, hnil, hch, List.flatten_cons, List.append_nil,
        List.append_assoc s.returned, List.take_append_drop, ← List.append_assoc]

/-- With nothing left in the channel, the reader has all that was handed over. -/
theorem Intact.readClosed (hs : Intact first payload s) (hch : s.recvCh = [])
    (h : s.step first payload n .readClosed = some t) : Intact first payload t := by
  obtain ⟨⟨hbuf, hclosed⟩, h⟩ := Option.ite_none_right_eq_some.mp h
  rw [← Option.some.inj h]
  refine ⟨hs.inv, hs.handed, hs.pushed, hs.acked, fun b hb => ?_⟩
  rcases Option.or_eq_some_iff.mp hb with hb | ⟨-, hb⟩
  · exact hs.ended b hb
  · have hhanded := hs.handed
    rw [hbuf, hch, hs.pushed hclosed, List.flatten_nil, List.append_nil, List.append_nil,
      List.append_nil] at hhanded
    exact ⟨hclosed, (Option.some.inj hb).symm.trans hhanded⟩

theorem intact_step {a : Action} (hs : Intact first payload s) (ha : s.Heeds a)
    (h : s.step first payload n a = some t) : Intact first payload t := by
  cases a with
  | arrive i => exact hs.arrive ha h
  | push => exact hs.push h
  | fin =>
    obtain ⟨hidle, h⟩ := Option.ite_none_right_eq_some.mp h
    rw [← Option.some.inj h]
    exact ⟨hs.inv, hs.handed, fun _ => hidle, hs.acked, fun b hb => ⟨rfl, (hs.ended b hb).2⟩⟩
  | ack =>
    rw [← Option.some.inj h]
    exact ⟨hs.inv, hs.handed, hs.pushed, Nat.le_refl _, hs.ended⟩
  | read k => exact hs.read h
  | readClosed => exact hs.readClosed ha h

/-! ## The FIN behind the data -/

/-- A stream that is closed has all of the data. -/
def Complete (n : Nat) (s : Stream) : Prop := s.closed = true → s.receiver.expected = n

theorem complete_step {a : Action} (hs : s.Complete n) (ha : s.FinLast n a)
    (h : s.step first payload n a = some t) : t.Complete n := by
  unfold step at h
  cases a with
  | arrive i =>
    obtain ⟨-, h⟩ := Option.ite_none_right_eq_some.mp h
    split_ifs at h with hclosed
    · exact Option.some.inj h ▸ hs
    · obtain ⟨r, -, rfl⟩ := Option.map_eq_some_iff.mp h
      exact fun hc => absurd hc hclosed
  | push =>
    dsimp only at h
    split at h
    · cases h
    · obtain ⟨-, h⟩ := Option.ite_none_right_eq_some.mp h
      exact Option.some.inj h ▸ hs
  | fin =>
    obtain ⟨-, h⟩ := Option.ite_none_right_eq_some.mp h
    rw [← Option.some.inj h]
    exact fun _ => ha
  | ack => exact Option.some.inj h ▸ hs
  | read k =>
    dsimp only at h
    split at h
    · exact Option.some.inj h ▸ hs
    · split at h
      · cases h
      · exact Option.some.inj h ▸ hs
  | readClosed =>
    obtain ⟨-, h⟩ := Option.ite_none_right_eq_some.mp h
    exact Option.some.inj h ▸ hs

/-- What was handed over and not returned can go on to the reader. -/
theorem Intact.goes_on (hs : Intact first payload s)
    (hleft : s.returned ≠ s.receiver.handed.flatten) :
    (s.step first payload n .push).isSome = true ∨
      ∀ k, (s.step first payload n (.read k)).isSome = true := by
  by_cases hbuf : 0 < s.recvBuf.length
  · right
    intro k
    simp only [step, if_pos hbuf, Option.isSome_some]
  · cases hch : s.recvCh with
    | cons data rest =>
      right
      intro k
      simp only [step, if_neg hbuf, hch, Option.isSome_some]
    | nil =>
      left
      cases hd : s.toDeliver with
      | nil =>
        have hhanded := hs.handed
        rw [List.length_eq_zero_iff.mp (Nat.eq_zero_of_not_pos hbuf), hch, hd, List.flatten_nil,
          List.append_nil, List.append_nil, List.append_nil] at hhanded
        exact absurd hhanded hleft
      | cons data rest =>
        have hroom : s.recvCh.length < recvCap := by
          rw [hch]
          decide
        simp only [step, hd, if_pos hroom, Option.isSome_some]

/-- However packets and FIN arrive and the reader reads, no packet half a round or more away and
the closed channel seen only when the other one is empty.  The data before the next expected
packet is on its way to the reader or returned, all that was acknowledged with it, and it can go
on as long as it is not returned.  When `errClosed` is returned it has been; that is the
whole stream if the FIN came last. -/
theorem acknowledged_returned (seqNr : SeqNr) (payload : Nat → Bytes) (n : Nat)
    {as : List Action} {s : Stream}
    (hok : Guarded (step (seqNr + 1) payload n) Heeds (.new seqNr) as)
    (hrun : exec (step (seqNr + 1) payload n) (.new seqNr) as = some s) :
    (s.acked ≤ s.receiver.expected ∧
      s.receiver.conn.ackNr + 1 = serial (seqNr + 1) s.receiver.expected ∧
      s.returned ++ s.recvBuf ++ s.recvCh.flatten ++ s.toDeliver.flatten =
        ((List.range s.receiver.expected).map payload).flatten) ∧
      (s.returned ≠ ((List.range s.receiver.expected).map payload).flatten →
        (s.step (seqNr + 1) payload n .push).isSome = true ∨
          ∀ k, (s.step (seqNr + 1) payload n (.read k)).isSome = true) ∧
      ∀ b, s.ended = some b →
        b = ((List.range s.receiver.expected).map payload).flatten ∧
          (Guarded (step (seqNr + 1) payload n) (FinLast n) (.new seqNr) as →
            b = ((List.range n).map payload).flatten) := by
  have hstep : ∀ s a t, Intact (seqNr + 1) payload s → s.Heeds a →
      s.step (seqNr + 1) payload n a = some t → Intact (seqNr + 1) payload t :=
    fun _ _ _ hs ha h => intact_step hs ha h
  have hs := exec_invariant hstep (intact_new seqNr payload) hok hrun
  refine ⟨⟨hs.acked, ?_, hs.handed.trans hs.flatten⟩, fun hleft => hs.goes_on ?_, fun b hb => ?_⟩
  · rw [hs.inv.ackNr, BitVec.sub_add_cancel, hs.inv.holds.expects]
  · exact fun heq => hleft (heq.trans hs.flatten)
  · obtain ⟨hclosed, rfl⟩ := hs.ended b hb
    refine ⟨hs.flatten, fun hlast => ?_⟩
    have hnew : (new seqNr).Complete n := fun hc => absurd hc Bool.false_ne_true
    have hcomplete : s.Complete n :=
      exec_invariant (fun _ _ _ hs ha h => complete_step hs ha h) hnew hlast hrun
    rw [hs.flatten, hcomplete hclosed]

/-- Two packets in the wrong order, the second twice, and the FIN behind them. -/
theorem acknowledged_returned_two :
    ∃ s, exec (step (7 + 1) (fun i => [i.toUInt8, 9]) 2) (.new 7)
        [.arrive 1, .arrive 0, .push, .ack, .read 1, .push, .arrive 1, .fin, .read 4, .read 4,
          .readClosed] = some s ∧
      s.acked = 2 ∧ s.ended = some [0, 9, 1, 9] ∧
      s.returned ++ s.recvBuf ++ s.recvCh.flatten ++ s.toDeliver.flatten =
        ((List.range s.receiver.expected).map fun i => [i.toUInt8, 9]).flatten := by
  obtain ⟨s, hs, hacked, hended⟩ : ∃ s,
      exec (step (7 + 1) (fun i => [i.toUInt8, 9]) 2) (.new 7)
        [.arrive 1, .arrive 0, .push, .ack, .read 1, .push, .arrive 1, .fin, .read 4, .read 4,
          .readClosed] = some s ∧ s.acked = 2 ∧ s.ended = some [0, 9, 1, 9] := by decide +kernel
  exact ⟨s, hs, hacked, hended,
    (acknowledged_returned 7 _ 2 (by decide +kernel) hs).1.2.2⟩

/-- A payload that is in the channel and acknowledged, and `errClosed` before it; a FIN that comes
before the data of its stream ends it. -/
theorem acknowledged_lost :
    (∃ s, exec (step (7 + 1) (fun _ => [9]) 1) (.new 7)
        [.arrive 0, .push, .ack, .fin, .readClosed] = some s ∧
      s.acked = 1 ∧ s.ended = some [] ∧ s.recvCh = [[9]]) ∧
      ∃ s, exec (step (7 + 1) (fun _ => [9]) 1) (.new 7) [.fin, .readClosed, .arrive 0] = some s ∧
        s.ended = some [] ∧ s.receiver.expected = 0 := by
  constructor <;> decide +kernel

end Stream

end Stor.Utp
