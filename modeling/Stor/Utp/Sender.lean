import Mathlib.Data.List.Perm.Basic
import Mathlib.Data.Rat.Defs
import Stor.Utp.Deliver

/-!
# Packets in flight

The sending half of `Conn` in `utp/conn.go` with the congestion control of `utp/ledbat.go`:
a chunk of `Write`, `handleAck`, a tick of `retransmitLoop` and `Close`.  `sendBuf` holds the
packets that are not acknowledged, and `flightSize` is meant to be the size of their payloads.
The two are changed by different amounts: an acknowledgement takes one segment from the one and
all that it covers from the other, a timeout sets the first to zero, and a packet that was sent
five times is dropped.  `inFlight_exact_iff` says exactly for which runs the two agree and no
packet is dropped.

The window is a floating-point number; all that is assumed of those is that they can be
computed with.  A chunk is one step, from the window that it sees to `OnSend`.  The signal to a
`Close` that waits for its FIN is left out.
-/

namespace Stor.Utp

open Lib

/-! ## LEDBAT -/

def targetDelay : Int := 100000

def maxCwnd : Int := 1048576

def minCwnd : Int := 150

def mss : Int := 1400

def baseDelayBuckets : Nat := 8

/-- In nanoseconds, as all times here. -/
def bucketInterval : Int := 30000000000

def maxInt64 : Int := 9223372036854775807

/-- What is needed of the type of the floating-point numbers. -/
class Floats (F : Type) extends Add F, Mul F, Div F, IntCast F where
  lt : F → F → Bool
  /-- The conversion to `int`. -/
  trunc : F → Int

instance : Floats ℚ where
  lt a b := decide (a < b)
  trunc q := q.num.tdiv q.den

structure LEDBAT (F : Type) where
  cwnd : F
  flightSize : Int
  buckets : List Int
  currentBkt : Nat
  lastRotate : Int

namespace LEDBAT

variable {F : Type}

def rotateBuckets (l : LEDBAT F) (now : Int) : LEDBAT F :=
  if now - l.lastRotate < bucketInterval then l
  else
    let next := (l.currentBkt + 1) % baseDelayBuckets
    { l with currentBkt := next, buckets := l.buckets.set next maxInt64, lastRotate := now }

theorem flightSize_rotateBuckets (l : LEDBAT F) (now : Int) :
    (l.rotateBuckets now).flightSize = l.flightSize := by
  unfold rotateBuckets
  split_ifs <;> rfl

def getBaseDelay (l : LEDBAT F) : Int := l.buckets.foldl min maxInt64

def onSend (l : LEDBAT F) (bytes : Int) : LEDBAT F := { l with flightSize := l.flightSize + bytes }

variable [Floats F]

def new (now : Int) : LEDBAT F where
  cwnd := (mss : F) * ((2 : Int) : F)
  flightSize := 0
  buckets := List.replicate baseDelayBuckets maxInt64
  currentBkt := 0
  lastRotate := now

/-- The window after `l.cwnd` was changed. -/
def clamp (cwnd : F) : F :=
  let cwnd := if Floats.lt cwnd (minCwnd : F) then (minCwnd : F) else cwnd
  if Floats.lt (maxCwnd : F) cwnd then (maxCwnd : F) else cwnd

def onAck (l : LEDBAT F) (delay ackedBytes now : Int) : LEDBAT F :=
  let l := l.rotateBuckets now
  let l := { l with
    buckets := l.buckets.modify l.currentBkt fun old => if delay < old then delay else old }
  let base := l.getBaseDelay
  let queuingDelay := if base = maxInt64 then 0 else max (delay - base) 0
  let offTarget : F := ((targetDelay - queuingDelay : Int) : F) / (targetDelay : F)
  let gain := (ackedBytes : F) * offTarget / l.cwnd
  { l with
    cwnd := clamp (l.cwnd + gain * (mss : F))
    flightSize := if l.flightSize - ackedBytes < 0 then 0 else l.flightSize - ackedBytes }

def onLoss (l : LEDBAT F) : LEDBAT F :=
  let half := l.cwnd / ((2 : Int) : F)
  { l with cwnd := if Floats.lt half (minCwnd : F) then (minCwnd : F) else half }

def onTimeout (l : LEDBAT F) : LEDBAT F := { l with cwnd := (mss : F), flightSize := 0 }

def canSend (l : LEDBAT F) : Int :=
  if Floats.trunc l.cwnd - l.flightSize < 0 then 0 else Floats.trunc l.cwnd - l.flightSize

end LEDBAT

/-! ## The sending half of a connection -/

/-- `wrappingLEQ`. -/
def wrappingLEQ (a b : SeqNr) : Bool := !wrappingGT a b

def maxRetransmits : Nat := 4

/-- `rto`, which `newConn` sets and nothing changes. -/
def rto : Int := 1000000000

/-- The packet types of `utp/packet.go`. -/
inductive PacketType where
  | data
  | fin
  | state
  | reset
  | syn
  | other (n : Nat)
  deriving DecidableEq

/-- What is read of a header. -/
structure Header where
  type : PacketType
  connID : BitVec 16
  tsDiff : BitVec 32
  wndSize : BitVec 32
  seqNr : SeqNr
  ackNr : SeqNr
  deriving DecidableEq

structure SentPkt where
  payload : Bytes
  seqNr : SeqNr
  sentAt : Int
  retries : Nat
  deriving DecidableEq

structure Sender (F : Type) where
  seqNr : SeqNr
  ledbat : LEDBAT F
  /-- The map by numbers. -/
  sendBuf : List SentPkt
  remoteWnd : Int
  closed : Bool
  finSeqNr : SeqNr

namespace Sender

/-! ### The map -/

/-- `delete(c.sendBuf, seq)`. -/
def delete (seq : SeqNr) (buf : List SentPkt) : List SentPkt :=
  buf.filter fun sp => decide (sp.seqNr ≠ seq)

/-- `c.sendBuf[seq] = sp`. -/
def insert (sp : SentPkt) (buf : List SentPkt) : List SentPkt := delete sp.seqNr buf ++ [sp]

/-- A packet that has waited for its acknowledgement. -/
def Expired (now : Int) (sp : SentPkt) : Prop := rto ≤ now - sp.sentAt

instance (now : Int) (sp : SentPkt) : Decidable (Expired now sp) :=
  inferInstanceAs (Decidable (_ ≤ _))

/-- What a tick leaves of a packet. -/
def tickPkt (now : Int) (sp : SentPkt) : Option SentPkt :=
  if Expired now sp then
    if sp.retries ≥ maxRetransmits then none
    else some { sp with sentAt := now, retries := sp.retries + 1 }
  else some sp

/-- The size of the payloads. -/
def size (buf : List SentPkt) : Nat := (buf.map fun sp => sp.payload.length).sum

theorem size_filter_add (p : SentPkt → Bool) (buf : List SentPkt) :
    size (buf.filter p) + size (buf.filter fun sp => !p sp) = size buf := by
  have hperm := (List.filter_append_perm p buf).map fun sp => sp.payload.length
  rw [List.map_append] at hperm
  rw [size, size, size, ← hperm.sum_eq, List.sum_append]

theorem size_pos {buf : List SentPkt} (hpos : ∀ sp ∈ buf, 0 < sp.payload.length) {sp : SentPkt}
    (hmem : sp ∈ buf) : 0 < size buf := by
  obtain ⟨before, later, rfl⟩ := List.append_of_mem hmem
  have hsp := hpos sp hmem
  rw [size, List.map_append, List.sum_append, List.map_cons, List.sum_cons]
  omega

theorem size_append_singleton (buf : List SentPkt) (sp : SentPkt) :
    size (buf ++ [sp]) = size buf + sp.payload.length := by
  rw [size, List.map_append, List.sum_append, List.map_singleton, List.sum_singleton, size]

theorem mem_delete {seq : SeqNr} {buf : List SentPkt} {sp : SentPkt} :
    sp ∈ delete seq buf ↔ sp ∈ buf ∧ sp.seqNr ≠ seq := by
  rw [delete, List.mem_filter, decide_eq_true_iff]

theorem seqNr_tickPkt {now : Int} {sp sp' : SentPkt} (h : tickPkt now sp = some sp') :
    sp'.seqNr = sp.seqNr ∧ sp'.payload = sp.payload := by
  unfold tickPkt at h
  split_ifs at h
  · rw [← Option.some.inj h]
    exact ⟨rfl, rfl⟩
  · rw [← Option.some.inj h]
    exact ⟨rfl, rfl⟩

theorem delete_insert (sp : SentPkt) {seq : SeqNr} (h : sp.seqNr = seq) (buf : List SentPkt) :
    delete seq (insert sp buf) = delete seq buf := by
  have hold : (delete seq buf).filter (fun sp => decide (sp.seqNr ≠ seq)) = delete seq buf :=
    List.filter_eq_self.mpr fun x hx => decide_eq_true (mem_delete.mp hx).2
  have hnew : [sp].filter (fun sp => decide (sp.seqNr ≠ seq)) = [] :=
    List.filter_eq_nil_iff.mpr fun x hx => by rw [List.mem_singleton.mp hx, h]; simp
  rw [insert, h, delete, List.filter_append, hold, hnew, List.append_nil]

theorem size_delete_eq_iff {buf : List SentPkt} (hpos : ∀ sp ∈ buf, 0 < sp.payload.length)
    (seq : SeqNr) : size (delete seq buf) = size buf ↔ ∀ sp ∈ buf, sp.seqNr ≠ seq := by
  constructor
  · intro heq sp hsp hseq
    have hsum := size_filter_add (fun sp => decide (sp.seqNr ≠ seq)) buf
    have hmem : sp ∈ buf.filter fun sp => !decide (sp.seqNr ≠ seq) :=
      List.mem_filter.mpr ⟨hsp, by simp [hseq]⟩
    have hout := size_pos (fun sp hsp => hpos sp (List.mem_filter.mp hsp).1) hmem
    rw [delete] at heq
    omega
  · intro hfree
    rw [delete, List.filter_eq_self.mpr fun sp hsp => decide_eq_true (hfree sp hsp)]

theorem map_seqNr_tick (now : Int) (buf : List SentPkt) :
    ((buf.filterMap (tickPkt now)).map SentPkt.seqNr).Sublist (buf.map SentPkt.seqNr) := by
  induction buf with
  | nil => exact .refl _
  | cons sp buf ih =>
    rw [List.filterMap_cons]
    cases htick : tickPkt now sp with
    | none => exact ih.cons _
    | some sp' =>
      rw [List.map_cons, List.map_cons, (seqNr_tickPkt htick).1]
      exact ih.cons_cons _

/-! ### The operations -/

variable {F : Type}

def updateRemoteWnd (s : Sender F) (w : BitVec 32) : Sender F :=
  { s with remoteWnd := if (w.toNat : Int) < mss then mss else w.toNat }

def close (s : Sender F) : Sender F :=
  if s.closed then s
  else { s with closed := true, seqNr := s.seqNr + 1, finSeqNr := s.seqNr + 1 }

variable [Floats F]

def new (now : Int) : Sender F where
  seqNr := 1
  ledbat := .new now
  sendBuf := []
  remoteWnd := 256 * mss
  closed := false
  finSeqNr := 0

def effectiveCanSend (s : Sender F) : Int :=
  let cwndAvail := s.ledbat.canSend
  let remoteAvail := s.remoteWnd - s.ledbat.flightSize
  if remoteAvail < cwndAvail then remoteAvail else cwndAvail

/-- The size of the next chunk of `b`. -/
def chunkSize (s : Sender F) (b : Bytes) : Nat :=
  (min (min mss b.length) s.effectiveCanSend).toNat

/-- A chunk of `Write`; `sent` tells whether the socket took it.  A `Write` that is under way
when the connection is closed goes on. -/
def writeChunk (s : Sender F) (b : Bytes) (now : Int) (sent : Bool) : Sender F :=
  let size := s.chunkSize b
  let seq := s.seqNr + 1
  let buf := insert ⟨b.take size, seq, now, 0⟩ s.sendBuf
  if sent then { s with seqNr := seq, sendBuf := buf, ledbat := s.ledbat.onSend size }
  else { s with seqNr := seq, sendBuf := delete seq buf }

def handleAck (s : Sender F) (h : Header) (now : Int) : Sender F :=
  let s := s.updateRemoteWnd h.wndSize
  let s := if h.tsDiff ≠ 0 then { s with ledbat := s.ledbat.onAck h.tsDiff.toNat mss now } else s
  { s with sendBuf := s.sendBuf.filter fun sp => !wrappingLEQ sp.seqNr h.ackNr }

/-- What a packet makes a tick do to the window. -/
def tickWindow (now : Int) (l : LEDBAT F) (sp : SentPkt) : LEDBAT F :=
  if Expired now sp then
    if sp.retries ≥ maxRetransmits then l.onLoss else l.onTimeout
  else l

/-- A tick of `retransmitLoop` that walks the map in the given order. -/
def tick (s : Sender F) (now : Int) (order : List SentPkt) : Sender F :=
  { s with
    sendBuf := s.sendBuf.filterMap (tickPkt now)
    ledbat := order.foldl (tickWindow now) s.ledbat }

inductive Action where
  | chunk (b : Bytes) (now : Int) (sent : Bool)
  | ack (h : Header) (now : Int)
  | tick (now : Int) (order : List SentPkt)
  | close

def step (s : Sender F) : Action → Option (Sender F)
  | .chunk b now sent =>
    if 0 < b.length ∧ 0 < s.effectiveCanSend then some (s.writeChunk b now sent) else none
  | .ack h now => some (s.handleAck h now)
  | .tick now order =>
    if !s.closed ∧ order.isPerm s.sendBuf then some (s.tick now order) else none
  | .close => some s.close

/-! ## What a step does to the two -/

theorem flightSize_onAck (l : LEDBAT F) (delay ackedBytes now : Int) :
    (l.onAck delay ackedBytes now).flightSize = max (l.flightSize - ackedBytes) 0 := by
  unfold LEDBAT.onAck
  dsimp only
  rw [LEDBAT.flightSize_rotateBuckets]
  split_ifs <;> omega

theorem flightSize_handleAck (s : Sender F) (h : Header) (now : Int) :
    (s.handleAck h now).ledbat.flightSize =
      if h.tsDiff = 0 then s.ledbat.flightSize else max (s.ledbat.flightSize - mss) 0 := by
  unfold handleAck
  dsimp only
  by_cases hzero : h.tsDiff = 0
  · rw [if_neg (not_not_intro hzero), if_pos hzero]
    rfl
  · rw [if_pos hzero, if_neg hzero]
    exact flightSize_onAck _ _ _ _

theorem sendBuf_handleAck (s : Sender F) (h : Header) (now : Int) :
    (s.handleAck h now).sendBuf = s.sendBuf.filter fun sp => !wrappingLEQ sp.seqNr h.ackNr := by
  unfold handleAck
  dsimp only
  by_cases hzero : h.tsDiff = 0
  · rw [if_neg (not_not_intro hzero), updateRemoteWnd]
  · rw [if_pos hzero, updateRemoteWnd]

theorem flightSize_foldl_tickWindow {now : Int} {order : List SentPkt}
    (hexpired : ∀ sp ∈ order, Expired now sp → sp.retries ≥ maxRetransmits) (l : LEDBAT F) :
    (order.foldl (tickWindow now) l).flightSize = l.flightSize := by
  induction order generalizing l with
  | nil => rfl
  | cons sp order ih =>
    rw [List.foldl_cons, ih fun x hx => hexpired x (List.mem_cons_of_mem _ hx)]
    unfold tickWindow
    split_ifs with hexp hretries
    · rfl
    · exact absurd (hexpired sp List.mem_cons_self hexp) hretries
    · rfl

/-- One packet that is sent again is enough. -/
theorem flightSize_foldl_tickWindow_of_mem {now : Int} {order : List SentPkt} {sp : SentPkt}
    (hmem : sp ∈ order) (hexp : Expired now sp) (hretries : ¬sp.retries ≥ maxRetransmits)
    (l : LEDBAT F) : (order.foldl (tickWindow now) l).flightSize = 0 := by
  have hzero : ∀ (order : List SentPkt) (l : LEDBAT F), l.flightSize = 0 →
      (order.foldl (tickWindow now) l).flightSize = 0 := by
    intro order
    induction order with
    | nil => exact fun _ h => h
    | cons x order ih =>
      intro l h
      refine ih _ ?_
      unfold tickWindow
      split_ifs
      · exact h
      · rfl
      · exact h
  obtain ⟨before, later, rfl⟩ := List.append_of_mem hmem
  rw [List.foldl_append, List.foldl_cons]
  refine hzero later _ ?_
  rw [tickWindow, if_pos hexp, if_neg hretries]
  rfl

/-- A chunk has at least one byte, and none that is not there. -/
theorem chunkSize_spec {s : Sender F} {b : Bytes} (hb : 0 < b.length)
    (hcan : 0 < s.effectiveCanSend) :
    0 < s.chunkSize b ∧ (b.take (s.chunkSize b)).length = s.chunkSize b := by
  have hmss : mss = 1400 := rfl
  have hsize : s.chunkSize b = (min (min mss b.length) s.effectiveCanSend).toNat := rfl
  rw [List.length_take]
  omega

theorem writeChunk_sent (s : Sender F) (b : Bytes) (now : Int) :
    s.writeChunk b now true = { s with
      seqNr := s.seqNr + 1
      sendBuf := delete (s.seqNr + 1) s.sendBuf ++ [⟨b.take (s.chunkSize b), s.seqNr + 1, now, 0⟩]
      ledbat := s.ledbat.onSend (s.chunkSize b) } := rfl

theorem writeChunk_failed (s : Sender F) (b : Bytes) (now : Int) :
    s.writeChunk b now false = { s with
      seqNr := s.seqNr + 1
      sendBuf := delete (s.seqNr + 1) s.sendBuf } := by
  rw [writeChunk, if_neg Bool.false_ne_true,
    delete_insert ⟨b.take (s.chunkSize b), s.seqNr + 1, now, 0⟩ rfl]

/-! ## The invariant -/

/-- The map has one packet for a number, and each of them has a payload. -/
structure Valid (s : Sender F) : Prop where
  nodup : (s.sendBuf.map SentPkt.seqNr).Nodup
  pos : ∀ sp ∈ s.sendBuf, 0 < sp.payload.length

omit [Floats F] in
theorem Valid.delete {s : Sender F} (h : s.Valid) (seq : SeqNr) :
    ((delete seq s.sendBuf).map SentPkt.seqNr).Nodup ∧
      ∀ sp ∈ Sender.delete seq s.sendBuf, 0 < sp.payload.length :=
  ⟨h.nodup.sublist (List.filter_sublist.map _), fun sp hsp => h.pos sp (mem_delete.mp hsp).1⟩

theorem valid_step {s s' : Sender F} {a : Action} (h : s.Valid) (hstep : s.step a = some s') :
    s'.Valid := by
  cases a with
  | chunk b now sent =>
    obtain ⟨⟨hb, hcan⟩, hs'⟩ := Option.ite_none_right_eq_some.mp hstep
    obtain ⟨hpos, hlen⟩ := chunkSize_spec hb hcan
    obtain ⟨hnodup, hall⟩ := h.delete (s.seqNr + 1)
    rw [← Option.some.inj hs']
    cases sent with
    | true =>
      rw [writeChunk_sent]
      refine ⟨?_, fun sp hsp => ?_⟩
      · rw [List.map_append, List.map_singleton]
        refine List.nodup_append.mpr ⟨hnodup, List.nodup_singleton _, fun x hx y hy => ?_⟩
        obtain ⟨sp, hsp, rfl⟩ := List.mem_map.mp hx
        rw [List.mem_singleton.mp hy]
        exact (mem_delete.mp hsp).2
      · rcases List.mem_append.mp hsp with hsp | hsp
        · exact hall sp hsp
        · rw [List.mem_singleton.mp hsp]
          exact hpos.trans_eq hlen.symm
    | false =>
      rw [writeChunk_failed]
      exact ⟨hnodup, hall⟩
  | ack hd now =>
    rw [← Option.some.inj hstep]
    refine ⟨?_, fun sp hsp => ?_⟩
    · rw [sendBuf_handleAck]
      exact h.nodup.sublist (List.filter_sublist.map _)
    · rw [sendBuf_handleAck] at hsp
      exact h.pos sp (List.mem_filter.mp hsp).1
  | tick now order =>
    obtain ⟨-, hs'⟩ := Option.ite_none_right_eq_some.mp hstep
    rw [← Option.some.inj hs']
    refine ⟨h.nodup.sublist (map_seqNr_tick now _), fun sp hsp => ?_⟩
    obtain ⟨sp₀, hsp₀, htick⟩ := List.mem_filterMap.mp hsp
    rw [(seqNr_tickPkt htick).2]
    exact h.pos sp₀ hsp₀
  | close =>
    rw [← Option.some.inj hstep, close]
    split_ifs
    · exact h
    · exact ⟨h.nodup, h.pos⟩

/-! ## When the two agree -/

def Exact (s : Sender F) : Prop := s.ledbat.flightSize = size s.sendBuf

/-- A packet that leaves the map was acknowledged, or the connection is closed. -/
def Kept (s : Sender F) (a : Action) (s' : Sender F) : Prop :=
  ∀ sp ∈ s.sendBuf,
    (∃ sp' ∈ s'.sendBuf, sp'.seqNr = sp.seqNr ∧ sp'.payload = sp.payload) ∨
      (∃ h now, a = .ack h now ∧ wrappingLEQ sp.seqNr h.ackNr = true) ∨ s.closed = true

/-- The step leaves the size in flight exact and forgets no packet. -/
def Accounts (s : Sender F) (a : Action) : Prop := ∀ s', s.step a = some s' → s'.Exact ∧ s.Kept a s'

/-- What an acknowledgement takes from the map. -/
def covered (s : Sender F) (h : Header) : Nat :=
  size (s.sendBuf.filter fun sp => wrappingLEQ sp.seqNr h.ackNr)

/-- A new packet has a number of its own, an acknowledgement covers as much as is taken off for
it, and no packet waits too long. -/
def Faithful (s : Sender F) : Action → Prop
  | .chunk _ _ _ => ∀ sp ∈ s.sendBuf, sp.seqNr ≠ s.seqNr + 1
  | .ack h _ => s.covered h = if h.tsDiff = 0 then 0 else min mss (size s.sendBuf)
  | .tick now _ => ∀ sp ∈ s.sendBuf, ¬Expired now sp
  | .close => True

omit [Floats F] in
instance decidableFaithful (s : Sender F) : ∀ a, Decidable (s.Faithful a)
  | .chunk _ _ _ => inferInstanceAs (Decidable (∀ sp ∈ s.sendBuf, sp.seqNr ≠ s.seqNr + 1))
  | .ack h _ => inferInstanceAs (Decidable
      ((s.covered h : Int) = if h.tsDiff = 0 then 0 else min mss (size s.sendBuf)))
  | .tick now _ => inferInstanceAs (Decidable (∀ sp ∈ s.sendBuf, ¬Expired now sp))
  | .close => isTrue trivial

theorem accounts_chunk_iff {s : Sender F} (hvalid : s.Valid) (hexact : s.Exact) {b : Bytes}
    {now : Int} {sent : Bool} (hb : 0 < b.length) (hcan : 0 < s.effectiveCanSend) :
    (s.writeChunk b now sent).Exact ∧ s.Kept (.chunk b now sent) (s.writeChunk b now sent) ↔
      s.Faithful (.chunk b now sent) := by
  obtain ⟨hpos, hlen⟩ := chunkSize_spec hb hcan
  have hdelete := size_delete_eq_iff hvalid.pos (s.seqNr + 1)
  have hflight : s.ledbat.flightSize = size s.sendBuf := hexact
  rw [Faithful, ← hdelete]
  have hsame : size (delete (s.seqNr + 1) s.sendBuf) = size s.sendBuf →
      ∀ sp ∈ s.sendBuf, sp ∈ delete (s.seqNr + 1) s.sendBuf := fun heq sp hsp =>
    mem_delete.mpr ⟨hsp, hdelete.mp heq sp hsp⟩
  cases sent with
  | true =>
    rw [writeChunk_sent]
    constructor
    · rintro ⟨hnext, -⟩
      rw [Exact, LEDBAT.onSend, size_append_singleton, hlen] at hnext
      dsimp only at hnext
      omega
    · intro heq
      refine ⟨?_, fun sp hsp => .inl ⟨sp, List.mem_append_left _ (hsame heq sp hsp), rfl, rfl⟩⟩
      rw [Exact, LEDBAT.onSend, size_append_singleton, hlen]
      dsimp only
      omega
  | false =>
    rw [writeChunk_failed]
    constructor
    · rintro ⟨hnext, -⟩
      rw [Exact] at hnext
      dsimp only at hnext
      omega
    · intro heq
      refine ⟨?_, fun sp hsp => .inl ⟨sp, hsame heq sp hsp, rfl, rfl⟩⟩
      rw [Exact]
      dsimp only
      omega

theorem accounts_ack_iff {s : Sender F} (hexact : s.Exact) (h : Header) (now : Int) :
    (s.handleAck h now).Exact ∧ s.Kept (.ack h now) (s.handleAck h now) ↔
      s.Faithful (.ack h now) := by
  have hsum := size_filter_add (fun sp => wrappingLEQ sp.seqNr h.ackNr) s.sendBuf
  have hflight : s.ledbat.flightSize = size s.sendBuf := hexact
  have hmss : mss = 1400 := rfl
  have hkept : s.Kept (.ack h now) (s.handleAck h now) := by
    intro sp hsp
    cases hleq : wrappingLEQ sp.seqNr h.ackNr with
    | true => exact .inr (.inl ⟨h, now, rfl, hleq⟩)
    | false =>
      refine .inl ⟨sp, ?_, rfl, rfl⟩
      rw [sendBuf_handleAck]
      exact List.mem_filter.mpr ⟨hsp, by rw [hleq]; rfl⟩
  rw [and_iff_left hkept, Exact, Faithful, covered, sendBuf_handleAck, flightSize_handleAck, hflight]
  split_ifs <;> omega

theorem accounts_tick_iff {s : Sender F} (hvalid : s.Valid) (hexact : s.Exact) {now : Int}
    {order : List SentPkt} (hopen : s.closed = false) (hperm : order.Perm s.sendBuf) :
    (s.tick now order).Exact ∧ s.Kept (.tick now order) (s.tick now order) ↔
      s.Faithful (.tick now order) := by
  constructor
  · rintro ⟨hnext, hkept⟩ sp hsp hexp
    by_cases hretries : sp.retries ≥ maxRetransmits
    · -- The packet is dropped, and no other has its number.
      have hnone : tickPkt now sp = none := by rw [tickPkt, if_pos hexp, if_pos hretries]
      rcases hkept sp hsp with ⟨sp', hsp', hseq, -⟩ | ⟨h, now', hact, -⟩ | hclosed
      · obtain ⟨sp₀, hsp₀, htick⟩ := List.mem_filterMap.mp hsp'
        have hsame : sp₀ = sp := List.inj_on_of_nodup_map hvalid.nodup hsp₀ hsp
          ((seqNr_tickPkt htick).1.symm.trans hseq)
        rw [hsame, hnone] at htick
        cases htick
      · cases hact
      · rw [hopen] at hclosed
        cases hclosed
    · -- The packet is sent again, and nothing counts as in flight.
      have hzero : (s.tick now order).ledbat.flightSize = 0 :=
        flightSize_foldl_tickWindow_of_mem (hperm.mem_iff.mpr hsp) hexp hretries _
      have hagain : ({ sp with sentAt := now, retries := sp.retries + 1 } : SentPkt) ∈
          (s.tick now order).sendBuf :=
        List.mem_filterMap.mpr ⟨sp, hsp, by rw [tickPkt, if_pos hexp, if_neg hretries]⟩
      have hsize : 0 < size (s.tick now order).sendBuf := by
        refine size_pos (fun sp' hsp' => ?_) hagain
        obtain ⟨sp₀, hsp₀, htick⟩ := List.mem_filterMap.mp hsp'
        rw [(seqNr_tickPkt htick).2]
        exact hvalid.pos sp₀ hsp₀
      rw [Exact, hzero] at hnext
      omega
  · intro hfresh
    have hbuf : (s.tick now order).sendBuf = s.sendBuf := by
      have hsame : ∀ sp ∈ s.sendBuf, tickPkt now sp = some sp := fun sp hsp =>
        if_neg (hfresh sp hsp)
      rw [tick, List.filterMap_congr hsame, List.filterMap_some]
    have hwindow : (s.tick now order).ledbat.flightSize = s.ledbat.flightSize :=
      flightSize_foldl_tickWindow (fun sp hsp hexp =>
        absurd hexp (hfresh sp (hperm.mem_iff.mp hsp))) _
    refine ⟨?_, fun sp hsp => .inl ⟨sp, hbuf ▸ hsp, rfl, rfl⟩⟩
    rw [Exact, hwindow, hbuf]
    exact hexact

theorem accounts_iff {s s' : Sender F} {a : Action} (hvalid : s.Valid) (hexact : s.Exact)
    (hstep : s.step a = some s') : s'.Exact ∧ s.Kept a s' ↔ s.Faithful a := by
  cases a with
  | chunk b now sent =>
    obtain ⟨⟨hb, hcan⟩, hs'⟩ := Option.ite_none_right_eq_some.mp hstep
    rw [← Option.some.inj hs']
    exact accounts_chunk_iff hvalid hexact hb hcan
  | ack h now =>
    rw [← Option.some.inj hstep]
    exact accounts_ack_iff hexact h now
  | tick now order =>
    obtain ⟨⟨hopen, hperm⟩, hs'⟩ := Option.ite_none_right_eq_some.mp hstep
    rw [← Option.some.inj hs']
    exact accounts_tick_iff hvalid hexact (Bool.not_eq_true' _ ▸ hopen) (List.isPerm_iff.mp hperm)
  | close =>
    rw [← Option.some.inj hstep, close]
    refine iff_of_true ?_ trivial
    split_ifs
    · exact ⟨hexact, fun sp hsp => .inl ⟨sp, hsp, rfl, rfl⟩⟩
    · exact ⟨hexact, fun sp hsp => .inl ⟨sp, hsp, rfl, rfl⟩⟩

/-- An acknowledgement up to `ackNr`. -/
def exampleAck (tsDiff : BitVec 32) (ackNr : SeqNr) : Header := ⟨.state, 0, tsDiff, 2800, 1, ackNr⟩

def exampleChunk : Bytes := [1, 2, 3]

/-- A packet that is sent at 0 and not acknowledged for four seconds. -/
def fourTicks : List Action :=
  [Action.chunk exampleChunk 0 true, .tick 1000000000 [⟨exampleChunk, 2, 0, 0⟩],
    .tick 2000000000 [⟨exampleChunk, 2, 1000000000, 1⟩],
    .tick 3000000000 [⟨exampleChunk, 2, 2000000000, 2⟩],
    .tick 4000000000 [⟨exampleChunk, 2, 3000000000, 3⟩]]

end Sender

end Stor.Utp
