import Stor.Download.Workers

/-!
# Any sequence of calls on the piece queue

The queue keeps the same facts in five maps.  Whatever is called on it, in whatever
order and with whatever arguments, the buckets sort the queued pieces by their
availability, and nothing that is done or not queued is left in any of them
(`represents_of_calls`).
-/

namespace Stor.Download
namespace PieceQueue

open Lib Peer Storage

/-- A call on the queue; `Pick` comes with what it draws. -/
inductive Call where
  | pick (hasPiece : Nat → Bool) (draw : Option Nat)
  | giveBack (pw : PieceWork)
  | complete (index : Nat)
  | op (op : QueueOp)

def call (q : PieceQueue) : Call → Option PieceQueue
  | .pick hasPiece draw => (q.pick hasPiece draw).map Prod.fst
  | .giveBack pw => some (q.giveBack pw)
  | .complete index => some (q.complete index)
  | .op op => some (op.apply q)

theorem wf_call {q q' : PieceQueue} {c : Call} (h : q.Wf) (hcall : q.call c = some q') : q'.Wf := by
  cases c with
  | pick hasPiece draw =>
    obtain ⟨⟨q₁, res⟩, hpick, rfl⟩ := Option.map_eq_some_iff.mp hcall
    exact wf_pick h hpick
  | giveBack pw =>
    rw [← Option.some_inj.mp hcall]
    exact wf_giveBack h pw
  | complete index =>
    rw [← Option.some_inj.mp hcall]
    exact wf_complete h index
  | op op =>
    rw [← Option.some_inj.mp hcall]
    exact QueueOp.wf_apply h op

theorem wf_calls {q q' : PieceQueue} {cs : List Call} (h : q.Wf) (hrun : exec call q cs = some q') :
    q'.Wf :=
  exec_invariant (fun _ _ _ hwf _ hcall => wf_call hwf hcall) h
    (guarded_of_forall (fun _ _ => trivial) q cs) hrun

/-- A queued piece is in the bucket of its availability and in no other one, the
buckets have queued pieces only and none of them is empty, and what is done is not
queued. -/
structure Represents (q : PieceQueue) : Prop where
  level : ∀ i ∈ q.pieces, ∀ a, i ∈ q.bucket a ↔ a = q.availability i
  queued : ∀ a, ∀ i ∈ q.bucket a, i ∈ q.pieces
  nonempty : ∀ a b, q.buckets.lookup a = some b → b ≠ ∅
  undone : ∀ i, ¬ (i ∈ q.pieces ∧ i ∈ q.done)
  prioritized : ∀ i ∈ q.priority, i ∈ q.pieces

theorem Wf.represents {q : PieceQueue} (h : q.Wf) : q.Represents where
  level i hi a := by
    constructor
    · intro ha
      exact (h.bucket_sub a i ha).2.symm
    · intro ha
      rw [ha]
      exact h.bucketed i hi
  queued a i hi := (h.bucket_sub a i hi).1
  nonempty a b hb hempty := h.bucket_nonempty a (hempty ▸ hb)
  undone i hi := h.done_disjoint i hi.1 hi.2
  prioritized := h.priority_sub

theorem represents_of_calls (pieces : List PieceWork) (skipMask : Option Bitfield)
    (totalPieces : Nat) (prioritizeFirstLast sequential : Bool) (cs : List Call) (q : PieceQueue)
    (hrun : exec call (new pieces skipMask totalPieces prioritizeFirstLast sequential) cs = some q) :
    q.Represents :=
  (wf_calls (wf_new pieces skipMask totalPieces prioritizeFirstLast sequential) hrun).represents

/-- Three pieces, of which the first is completed and another one is taken back by
more peers than had it. -/
theorem represents_of_calls_takenBack :
    ∃ q, exec call (new [⟨0, [], 1⟩, ⟨1, [], 1⟩, ⟨2, [], 1⟩] none 3 true false)
        [.op (.addPeerBitfield none), .op (.peerHave 1), .pick (fun _ => true) (some 0), .complete 0,
          .op (.removePeerBitfield none), .op (.removePeerBitfield none)] = some q ∧
      q.bucket 0 = {1} ∧ q.bucket (-1) = {2} ∧ q.priority = {2} ∧ q.Represents := by
  obtain ⟨q, hq, h0, h1, h2⟩ : ∃ q,
      exec call (new [⟨0, [], 1⟩, ⟨1, [], 1⟩, ⟨2, [], 1⟩] none 3 true false)
        [.op (.addPeerBitfield none), .op (.peerHave 1), .pick (fun _ => true) (some 0), .complete 0,
          .op (.removePeerBitfield none), .op (.removePeerBitfield none)] = some q ∧
      q.bucket 0 = {1} ∧ q.bucket (-1) = {2} ∧ q.priority = {2} := by decide +kernel
  exact ⟨q, hq, h0, h1, h2, represents_of_calls _ _ _ _ _ _ q hq⟩

end PieceQueue
end Stor.Download
