import Mathlib.Data.List.AList
import Mathlib.Data.List.Sort
import Stor.Storage.Geometry

/-!
# The piece queue

`download/piecequeue.go`.  Every method holds the queue's lock for its whole
body, so each is one function on the state; the token of `waitCh` and the buffer
of `cancelCh` are part of it.  A map that is iterated over is an association
list, one that is only looked up is a function or a set.

`Pick` draws at random among the eligible pieces of the first place that has one.
The draw is an argument of `pick`, which is undefined for a draw the source
cannot make.
-/

namespace Stor.Download

open Lib Peer Storage

structure PieceQueue where
  pieces : AList fun _ : Nat => PieceWork
  availability : Nat → Int
  pending : Finset Nat
  done : Finset Nat
  endgame : Bool
  totalPieces : Nat
  waitToken : Bool
  cancelCh : List Nat
  buckets : AList fun _ : Int => Finset Nat
  skipMask : Option Bitfield
  priority : Finset Nat
  sequential : Bool

namespace PieceQueue

/-- The map from indices to pieces; of two with one index the later one stays. -/
def pieceMap (pieces : List PieceWork) : AList fun _ : Nat => PieceWork :=
  pieces.foldl (fun m pw => m.insert pw.index pw) ∅

/-- The first and the last index, where the queue has them. -/
def firstLast (m : AList fun _ : Nat => PieceWork) (totalPieces : Nat) : Finset Nat :=
  (if 0 ∈ m then {0} else ∅) ∪
    (if totalPieces - 1 ≠ 0 ∧ totalPieces - 1 ∈ m then {totalPieces - 1} else ∅)

/-- `NewPieceQueueWithOptions`. -/
def new (pieces : List PieceWork) (skipMask : Option Bitfield) (totalPieces : Nat)
    (prioritizeFirstLast sequential : Bool) : PieceQueue :=
  let filtered := pieces.filter fun pw => !inBitfield skipMask pw.index
  let bucket0 := (filtered.map PieceWork.index).toFinset
  { pieces := pieceMap filtered
    availability := fun _ => 0
    pending := ∅
    done := ∅
    endgame := false
    totalPieces := filtered.length
    waitToken := false
    cancelCh := []
    buckets := if bucket0 = ∅ then ∅ else AList.singleton 0 bucket0
    skipMask := none
    priority :=
      if prioritizeFirstLast ∧ totalPieces > 0 then firstLast (pieceMap filtered) totalPieces else ∅
    sequential := sequential }

/-- The set of indices of an availability level. -/
def bucket (q : PieceQueue) (avail : Int) : Finset Nat := (q.buckets.lookup avail).getD ∅

/-- Take an index out of a bucket, and the bucket out when it is empty. -/
def dropFromBucket (q : PieceQueue) (idx : Nat) (avail : Int) : PieceQueue :=
  match q.buckets.lookup avail with
  | none => q
  | some b =>
    { q with buckets :=
        if b.erase idx = ∅ then q.buckets.erase avail
        else q.buckets.insert avail (b.erase idx) }

def addToBucket (q : PieceQueue) (idx : Nat) (avail : Int) : PieceQueue :=
  { q with buckets := q.buckets.insert avail (insert idx (q.bucket avail)) }

def moveBucket (q : PieceQueue) (idx : Nat) (oldAvail newAvail : Int) : PieceQueue :=
  (q.dropFromBucket idx oldAvail).addToBucket idx newAvail

def signal (q : PieceQueue) : PieceQueue := { q with waitToken := true }

def endgameThreshold (q : PieceQueue) : Nat := max 5 (q.totalPieces / 100)

def enterEndgame (q : PieceQueue) : PieceQueue :=
  { q with endgame := q.endgame ||
      (decide (0 < q.pieces.keys.length) && decide (q.pieces.keys.length ≤ q.endgameThreshold)) }

/-- The four tests of every loop of `Pick`. -/
def eligible (q : PieceQueue) (hasPiece : Nat → Bool) (idx : Nat) : Bool :=
  !decide (idx ∈ q.done) && (q.endgame || !decide (idx ∈ q.pending)) &&
    !inBitfield q.skipMask idx && hasPiece idx

/-- The eligible pieces of the first level that has one. -/
def firstLevel (q : PieceQueue) (hasPiece : Nat → Bool) : List Int → Finset Nat
  | [] => ∅
  | avail :: avails =>
    if (q.bucket avail).filter (fun i => q.eligible hasPiece i) = ∅ then
      q.firstLevel hasPiece avails
    else (q.bucket avail).filter fun i => q.eligible hasPiece i

/-- What `Pick` draws from. -/
def candidates (q : PieceQueue) (hasPiece : Nat → Bool) : Finset Nat :=
  if q.sequential then
    ((q.pieces.keys.insertionSort (· ≤ ·)).find? (q.eligible hasPiece)).toFinset
  else if q.priority.filter (fun i => q.eligible hasPiece i) ≠ ∅ then
    q.priority.filter fun i => q.eligible hasPiece i
  else q.firstLevel hasPiece (q.buckets.keys.insertionSort (· ≤ ·))

/-- `pq.pieces[idx]`, with the zero value for a missing key. -/
def pieceAt (q : PieceQueue) (idx : Nat) : PieceWork :=
  (q.pieces.lookup idx).getD ⟨0, List.replicate 20 0, 0⟩

/-- `Pick` with the outcome of its draw, `none` when there is nothing to draw. -/
def pick (q : PieceQueue) (hasPiece : Nat → Bool) (draw : Option Nat) :
    Option (PieceQueue × Option PieceWork) :=
  let q := q.enterEndgame
  match draw with
  | none => if q.candidates hasPiece = ∅ then some (q, none) else none
  | some idx =>
    if idx ∈ q.candidates hasPiece then
      some ({ q with pending := insert idx q.pending }, some (q.pieceAt idx))
    else none

/-- `Return`. -/
def giveBack (q : PieceQueue) (pw : PieceWork) : PieceQueue :=
  signal { q with pending := q.pending.erase pw.index }

def cancelCap : Nat := 64

def complete (q : PieceQueue) (index : Nat) : PieceQueue :=
  let q' := q.dropFromBucket index (q.availability index)
  signal { q' with
    pending := q.pending.erase index
    priority := q.priority.erase index
    pieces := q.pieces.erase index
    done := insert index q.done
    cancelCh :=
      if q.endgame ∧ q.cancelCh.length < cancelCap then q.cancelCh ++ [index] else q.cancelCh }

def isDone (q : PieceQueue) (index : Nat) : Bool := decide (index ∈ q.done)

/-- One peer more or less for a queued piece. -/
def shiftAvailability (d : Int) (q : PieceQueue) (idx : Nat) : PieceQueue :=
  let old := q.availability idx
  moveBucket { q with availability := Function.update q.availability idx (old + d) } idx old
    (old + d)

/-- The queued pieces of a peer; no bitfield stands for all of them. -/
def peerPieces (q : PieceQueue) (bf : Option Bitfield) : List Nat :=
  q.pieces.keys.filter fun idx => bf.all fun b => b.hasPiece idx

def addPeerBitfield (q : PieceQueue) (bf : Option Bitfield) : PieceQueue :=
  signal ((q.peerPieces bf).foldl (shiftAvailability 1) q)

def removePeerBitfield (q : PieceQueue) (bf : Option Bitfield) : PieceQueue :=
  (q.peerPieces bf).foldl (shiftAvailability (-1)) q

def peerHave (q : PieceQueue) (index : Nat) : PieceQueue :=
  let old := q.availability index
  let q' := { q with availability := Function.update q.availability index (old + 1) }
  signal (if index ∈ q.pieces then q'.moveBucket index old (old + 1) else q')

def remaining (q : PieceQueue) : Nat :=
  (q.pieces.keys.filter fun idx => !inBitfield q.skipMask idx).length

def updateSkipMask (q : PieceQueue) (mask : Option Bitfield) : PieceQueue :=
  signal { q with skipMask := mask }

end PieceQueue

end Stor.Download
