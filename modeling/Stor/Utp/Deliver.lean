import Mathlib.Data.List.AList
import Stor.Lib.Decimal
import Stor.Lib.Run
import Stor.Lib.Serial

/-!
# Delivery in order

`deliverInOrder` of `utp/conn.go`, with the two ways a connection is made.  The packets of a
stream are numbered modulo `2 ^ 16`; a packet is known here by its place in the stream, and
by its number to the code.  Whatever of them arrives, in whatever order and how often, what
the connection hands over is the payloads of the packets before the next expected one
(`delivers_in_order`), as long as no packet is half a round or more away from that.
-/

namespace Stor.Utp

open Lib

abbrev SeqNr := BitVec 16

def reorderBufMax : Nat := 64

/-- `int16(a-b) > 0`. -/
def wrappingGT (a b : SeqNr) : Bool := isAfter a b

/-- What `Conn` has for the reassembly. -/
structure Conn where
  ackNr : SeqNr
  nextExpected : SeqNr
  recvInited : Bool
  reorderBuf : AList fun _ : SeqNr => Bytes

namespace Conn

def newConn (ackNr : SeqNr) : Conn where
  ackNr := ackNr
  nextExpected := 0
  recvInited := false
  reorderBuf := ∅

def setFirstExpected (c : Conn) (seqNr : SeqNr) : Conn :=
  { c with nextExpected := seqNr, recvInited := true }

/-- `handlePacket` of a SYN with the number `seqNr`. -/
def accept (seqNr : SeqNr) : Conn := (newConn seqNr).setFirstExpected (seqNr + 1)

/-- `DialTimeout`, once a SYN-ACK with the number `seqNr` is there. -/
def dial (seqNr : SeqNr) : Conn :=
  setFirstExpected { newConn 0 with ackNr := seqNr } (seqNr + 1)

/-- A payload that is not empty is handed over. -/
def handOver (payload : Bytes) : List Bytes := if 0 < payload.length then [payload] else []

/-- The loop that takes consecutive packets from the buffer, for at most `n` of them. -/
def flush : Nat → Conn → List Bytes → Conn × List Bytes
  | 0, c, toDeliver => (c, toDeliver)
  | n + 1, c, toDeliver =>
    match c.reorderBuf.lookup c.nextExpected with
    | none => (c, toDeliver)
    | some p =>
      flush n
        { c with
          reorderBuf := c.reorderBuf.erase c.nextExpected
          nextExpected := c.nextExpected + 1 }
        (toDeliver ++ handOver p)

/-- The connection behind the call, and what it has sent to `recvCh` if it is open. -/
def deliverInOrder (c : Conn) (seqNr : SeqNr) (payload : Bytes) : Conn × List Bytes :=
  let c := if c.recvInited then c else c.setFirstExpected seqNr
  if seqNr = c.nextExpected then
    let (c, toDeliver) :=
      flush c.reorderBuf.keys.length { c with nextExpected := c.nextExpected + 1 } (handOver payload)
    ({ c with ackNr := c.nextExpected - 1 }, toDeliver)
  else if wrappingGT seqNr c.nextExpected then
    (if c.reorderBuf.keys.length < reorderBufMax then
      { c with reorderBuf := c.reorderBuf.insert seqNr payload } else c, [])
  else (c, [])

end Conn

/-- The connection, what it has handed over, and the place of the packet it expects next. -/
structure Receiver where
  conn : Conn
  handed : List Bytes
  expected : Nat

namespace Receiver

def new (seqNr : SeqNr) : Receiver where
  conn := .accept seqNr
  handed := []
  expected := 0

/-- A copy of the packet `i` arrives. -/
def arrive (first : SeqNr) (payload : Nat → Bytes) (r : Receiver) (i : Nat) : Option Receiver :=
  let call := r.conn.deliverInOrder (serial first i) (payload i)
  some { conn := call.1
         handed := r.handed ++ call.2
         expected := r.expected + (call.1.nextExpected - r.conn.nextExpected).toNat }

/-- The packet `i` is less than half a round away. -/
def Near (r : Receiver) (i : Nat) : Prop := i < r.expected + 2 ^ 15 ∧ r.expected < i + 2 ^ 15

instance (r : Receiver) (i : Nat) : Decidable (r.Near i) := inferInstanceAs (Decidable (_ ∧ _))

end Receiver

variable {first : SeqNr} {payload : Nat → Bytes} {c : Conn} {e : Nat}

/-- The payloads of the packets before `e`, without the empty ones. -/
def sent (payload : Nat → Bytes) (e : Nat) : List Bytes :=
  (List.range e).flatMap fun i => Conn.handOver (payload i)

theorem sent_succ (payload : Nat → Bytes) (e : Nat) :
    sent payload (e + 1) = sent payload e ++ Conn.handOver (payload e) := by
  rw [sent, List.range_succ, List.flatMap_append, List.flatMap_singleton]
  rfl

theorem sent_eq_filter (payload : Nat → Bytes) (e : Nat) :
    sent payload e = ((List.range e).map payload).filter fun p => 0 < p.length := by
  induction e with
  | zero => rfl
  | succ e ih =>
    rw [sent_succ, ih, List.range_succ, List.map_append, List.filter_append, List.map_singleton,
      List.filter_singleton, Bool.cond_decide, Conn.handOver]

/-- An empty payload adds nothing. -/
theorem flatten_sent (payload : Nat → Bytes) (e : Nat) :
    (sent payload e).flatten = ((List.range e).map payload).flatten := by
  induction e with
  | zero => rfl
  | succ e ih =>
    have hlast : (Conn.handOver (payload e)).flatten = payload e := by
      unfold Conn.handOver
      split_ifs with hpos
      · exact List.flatten_singleton
      · exact (List.length_eq_zero_iff.mp (Nat.eq_zero_of_not_pos hpos)).symm
    rw [sent_succ, List.flatten_append, ih, hlast, List.range_succ, List.map_append,
      List.flatten_append, List.map_singleton, List.flatten_singleton]

/-- The connection expects the packet `e`, and holds packets from `low` on. -/
structure Holds (first : SeqNr) (payload : Nat → Bytes) (c : Conn) (e low : Nat) : Prop where
  inited : c.recvInited = true
  expects : c.nextExpected = serial first e
  buffered : ∀ k p, c.reorderBuf.lookup k = some p →
    ∃ i, low ≤ i ∧ i < e + 2 ^ 15 ∧ k = serial first i ∧ p = payload i

theorem mem_keys {k : SeqNr} : k ∈ c.reorderBuf.keys ↔ ∃ p, c.reorderBuf.lookup k = some p := by
  rw [← AList.mem_keys, ← AList.lookup_isSome, Option.isSome_iff_exists]

theorem Holds.index_eq {low i : Nat} (hc : Holds first payload c e low) (hle : e ≤ i)
    (hlt : i < e + 2 ^ 15) (hk : c.nextExpected = serial first i) : i = e := by
  rw [hc.expects] at hk
  exact (serial_inj (by omega) (by omega) hk).symm

/-- Without the packet `e` in the buffer, all of it is behind that. -/
theorem Holds.behind (hc : Holds first payload c e e)
    (hnone : c.reorderBuf.lookup c.nextExpected = none) : Holds first payload c e (e + 1) := by
  refine ⟨hc.inited, hc.expects, fun k p hp => ?_⟩
  obtain ⟨i, hle, hlt, rfl, rfl⟩ := hc.buffered k p hp
  refine ⟨i, ?_, hlt, rfl, rfl⟩
  have hne : i ≠ e := by
    rintro rfl
    rw [← hc.expects, hnone] at hp
    cases hp
  omega

/-- The packet `e` is taken from the buffer. -/
theorem Holds.take (hc : Holds first payload c e e) {p : Bytes}
    (hp : c.reorderBuf.lookup c.nextExpected = some p) :
    p = payload e ∧ Holds first payload { c with
      reorderBuf := c.reorderBuf.erase c.nextExpected
      nextExpected := c.nextExpected + 1 } (e + 1) (e + 1) := by
  obtain ⟨i, hle, hlt, hk, rfl⟩ := hc.buffered _ p hp
  refine ⟨by rw [hc.index_eq hle hlt hk], hc.inited, ?_, fun k p' hp' => ?_⟩
  · rw [serial_succ, ← hc.expects]
  · have hk : k ≠ c.nextExpected := by
      rintro rfl
      rw [AList.lookup_erase] at hp'
      cases hp'
    rw [AList.lookup_erase_ne hk] at hp'
    obtain ⟨i, hle, hlt, rfl, rfl⟩ := hc.buffered k p' hp'
    refine ⟨i, ?_, by omega, rfl, rfl⟩
    have hne : i ≠ e := by
      rintro rfl
      exact hk hc.expects.symm
    omega

/-- The loop ends with the next expected packet missing. -/
theorem flush_spec {n : Nat} {taken toDeliver : List Bytes} (hn : c.reorderBuf.keys.length ≤ n)
    (hc : Holds first payload c e e) (hsent : taken ++ toDeliver = sent payload e) :
    ∃ e', e ≤ e' ∧ e' ≤ e + n ∧ Holds first payload (c.flush n toDeliver).1 e' (e' + 1) ∧
      taken ++ (c.flush n toDeliver).2 = sent payload e' ∧
      (c.flush n toDeliver).1.reorderBuf.keys.length ≤ c.reorderBuf.keys.length := by
  induction n generalizing c e toDeliver with
  | zero =>
    refine ⟨e, Nat.le_refl _, Nat.le_refl _, hc.behind ?_, hsent, Nat.le_refl _⟩
    cases hp : c.reorderBuf.lookup c.nextExpected with
    | none => rfl
    | some p =>
      have hpos := List.length_pos_of_mem (mem_keys.mpr ⟨p, hp⟩)
      omega
  | succ n ih =>
    rw [Conn.flush]
    cases hp : c.reorderBuf.lookup c.nextExpected with
    | none => exact ⟨e, Nat.le_refl _, by omega, hc.behind hp, hsent, Nat.le_refl _⟩
    | some p =>
      obtain ⟨rfl, hc'⟩ := hc.take hp
      have hlen : (c.reorderBuf.erase c.nextExpected).keys.length =
          c.reorderBuf.keys.length - 1 := by
        rw [AList.keys_erase, List.length_erase_of_mem (mem_keys.mpr ⟨_, hp⟩)]
      have hsent' : taken ++ (toDeliver ++ Conn.handOver (payload e)) = sent payload (e + 1) := by
        rw [← List.append_assoc, hsent, sent_succ]
      obtain ⟨e', hle, hle', hholds, hsent', hkeys⟩ := ih (by rw [hlen]; omega) hc' hsent'
      refine ⟨e', by omega, by omega, hholds, hsent', hkeys.trans ?_⟩
      rw [hlen]
      exact Nat.sub_le _ _

/-! ## Arrivals -/

/-- What holds of the connection after every call, with what it has handed over. -/
structure Inv (first : SeqNr) (payload : Nat → Bytes) (c : Conn) (handed : List Bytes) (e : Nat) :
    Prop where
  holds : Holds first payload c e (e + 1)
  ackNr : c.ackNr = c.nextExpected - 1
  length_le : c.reorderBuf.keys.length ≤ reorderBufMax
  handed : handed = sent payload e

section
variable {handed : List Bytes} {i : Nat}

theorem inv_accept (seqNr : SeqNr) (payload : Nat → Bytes) :
    Inv (seqNr + 1) payload (.accept seqNr) [] 0 where
  holds := ⟨rfl, (serial_zero _).symm, fun _ _ hp => nomatch hp⟩
  ackNr := by
    show seqNr = seqNr + 1 - 1
    rw [BitVec.add_sub_cancel]
  length_le := Nat.zero_le _
  handed := rfl

/-- The packet that is expected arrives. -/
theorem Inv.next (hc : Inv first payload c handed e) :
    ∃ e', e ≤ e' ∧ e' < e + 2 ^ 16 ∧
      Inv first payload (c.deliverInOrder (serial first e) (payload e)).1
        (handed ++ (c.deliverInOrder (serial first e) (payload e)).2) e' := by
  have hholds : Holds first payload { c with nextExpected := c.nextExpected + 1 } (e + 1) (e + 1) := by
    refine ⟨hc.holds.inited, by rw [serial_succ, ← hc.holds.expects], fun k p hp => ?_⟩
    obtain ⟨i, hle, hlt, hi⟩ := hc.holds.buffered k p hp
    exact ⟨i, hle, by omega, hi⟩
  have hsent : handed ++ Conn.handOver (payload e) = sent payload (e + 1) := by
    rw [hc.handed, sent_succ]
  obtain ⟨e', hle, hle', hholds', hsent', hlen⟩ := flush_spec (Nat.le_refl _) hholds hsent
  have hmax : c.reorderBuf.keys.length ≤ 64 := hc.length_le
  dsimp only at hle' hlen
  have hdeliver : c.deliverInOrder (serial first e) (payload e) =
      let (c', toDeliver) := Conn.flush c.reorderBuf.keys.length
        { c with nextExpected := c.nextExpected + 1 } (Conn.handOver (payload e))
      ({ c' with ackNr := c'.nextExpected - 1 }, toDeliver) := by
    simp only [Conn.deliverInOrder, if_pos hc.holds.inited, if_pos hc.holds.expects.symm]
  rw [hdeliver]
  refine ⟨e', by omega, by omega, ?_, rfl, hlen.trans hc.length_le, hsent'⟩
  exact ⟨hholds'.inited, hholds'.expects, hholds'.buffered⟩

/-- A packet behind the expected one arrives. -/
theorem Inv.ahead (hc : Inv first payload c handed e) (hlt : e < i) (hi : i < e + 2 ^ 15) :
    Inv first payload (c.deliverInOrder (serial first i) (payload i)).1
      (handed ++ (c.deliverInOrder (serial first i) (payload i)).2) e := by
  have hne : serial first i ≠ c.nextExpected := by
    rw [hc.holds.expects]
    intro heq
    exact absurd (serial_inj (by omega) (by omega) heq) (by omega)
  have hgt : wrappingGT (serial first i) c.nextExpected = true := by
    rw [hc.holds.expects]
    exact (isAfter_serial (by decide) (by omega) (by omega)).mpr hlt
  simp only [Conn.deliverInOrder, if_pos hc.holds.inited, if_neg hne, if_pos hgt, List.append_nil]
  split_ifs with hroom
  · refine ⟨⟨hc.holds.inited, hc.holds.expects, fun k p hp => ?_⟩, hc.ackNr, ?_, hc.handed⟩
    · by_cases hk : k = serial first i
      · rw [hk, AList.lookup_insert] at hp
        exact ⟨i, hlt, hi, hk, (Option.some.inj hp).symm⟩
      · rw [AList.lookup_insert_ne hk] at hp
        exact hc.holds.buffered k p hp
    · rw [AList.keys_insert, List.length_cons]
      exact Nat.succ_le_of_lt (Nat.lt_of_le_of_lt List.length_erase_le hroom)
  · exact hc

/-- A packet that was there before arrives again. -/
theorem Inv.old (hc : Inv first payload c handed e) (hlt : i < e) (he : e < i + 2 ^ 15) :
    c.deliverInOrder (serial first i) (payload i) = (c, []) := by
  have hne : serial first i ≠ c.nextExpected := by
    rw [hc.holds.expects]
    intro heq
    exact absurd (serial_inj (by omega) (by omega) heq) (by omega)
  have hgt : ¬wrappingGT (serial first i) c.nextExpected = true := by
    rw [hc.holds.expects]
    exact mt (isAfter_serial (by decide) (by omega) (by omega)).mp (by omega)
  simp only [Conn.deliverInOrder, if_pos hc.holds.inited, if_neg hne, if_neg hgt]

theorem Inv.deliverInOrder (hc : Inv first payload c handed e) (hi : i < e + 2 ^ 15)
    (he : e < i + 2 ^ 15) :
    ∃ e', e ≤ e' ∧ e' < e + 2 ^ 16 ∧
      Inv first payload (c.deliverInOrder (serial first i) (payload i)).1
        (handed ++ (c.deliverInOrder (serial first i) (payload i)).2) e' := by
  rcases Nat.lt_trichotomy i e with hlt | rfl | hlt
  · rw [hc.old hlt he, List.append_nil]
    exact ⟨e, Nat.le_refl _, by omega, hc⟩
  · exact hc.next
  · exact ⟨e, Nat.le_refl _, by omega, hc.ahead hlt hi⟩

end

theorem inv_arrive {r r' : Receiver} {i : Nat}
    (hr : Inv first payload r.conn r.handed r.expected) (hnear : r.Near i)
    (h : r.arrive first payload i = some r') :
    Inv first payload r'.conn r'.handed r'.expected := by
  obtain ⟨e', hle, hlt, hinv⟩ := hr.deliverInOrder hnear.1 hnear.2
  -- the numbers tell how far the connection has come
  have hexpected : r.expected + ((r.conn.deliverInOrder (serial first i) (payload i)).1.nextExpected -
      r.conn.nextExpected).toNat = e' := by
    rw [hinv.holds.expects, hr.holds.expects, toNat_serial_sub hle hlt]
    omega
  rw [← Option.some.inj h]
  dsimp only
  rw [hexpected]
  exact hinv

/-- However the packets of a stream arrive, none of them half a round or more away: what was
handed over is the payloads before the next expected packet, all before it is acknowledged,
and the buffer has room for what it holds, all of it from behind that. -/
theorem delivers_in_order (seqNr : SeqNr) (payload : Nat → Bytes) {is : List Nat} {r : Receiver}
    (hnear : Guarded (Receiver.arrive (seqNr + 1) payload) Receiver.Near (.new seqNr) is)
    (hrun : exec (Receiver.arrive (seqNr + 1) payload) (.new seqNr) is = some r) :
    r.handed = ((List.range r.expected).map payload).filter (fun p => 0 < p.length) ∧
      r.handed.flatten = ((List.range r.expected).map payload).flatten ∧
      r.conn.nextExpected = serial (seqNr + 1) r.expected ∧
      r.conn.ackNr = r.conn.nextExpected - 1 ∧
      r.conn.reorderBuf.keys.length ≤ reorderBufMax ∧
      ∀ k p, r.conn.reorderBuf.lookup k = some p →
        wrappingGT k r.conn.nextExpected = true ∧
          ∃ i, r.expected < i ∧ k = serial (seqNr + 1) i ∧ p = payload i := by
  have hinv : Inv (seqNr + 1) payload r.conn r.handed r.expected := exec_invariant
    (fun _ _ _ hr hnear h => inv_arrive hr hnear h) (inv_accept seqNr payload) hnear hrun
  refine ⟨hinv.handed.trans (sent_eq_filter _ _), ?_, hinv.holds.expects, hinv.ackNr,
    hinv.length_le, fun k p hp => ?_⟩
  · rw [hinv.handed]
    exact flatten_sent payload r.expected
  · obtain ⟨i, hlt, hi, rfl, rfl⟩ := hinv.holds.buffered k p hp
    refine ⟨?_, i, hlt, rfl, rfl⟩
    rw [hinv.holds.expects]
    exact (isAfter_serial (by decide) (by omega) (by omega)).mpr hlt

/-- The numbers wrap between the second and the third packet. -/
theorem delivers_in_order_wrapping :
    ∃ r, exec (Receiver.arrive (0xfffd + 1) fun i => List.replicate i 7) (.new 0xfffd)
        [1, 4, 0, 0, 2] = some r ∧
      r.expected = 3 ∧ r.conn.nextExpected = 1 ∧ r.conn.reorderBuf.keys = [2] ∧
      r.handed = ((List.range r.expected).map fun i => List.replicate i 7).filter
        (fun p => 0 < p.length) := by
  obtain ⟨r, hr, hexpected, hnext, hkeys⟩ : ∃ r,
      exec (Receiver.arrive (0xfffd + 1) fun i => List.replicate i 7) (.new 0xfffd)
          [1, 4, 0, 0, 2] = some r ∧
        r.expected = 3 ∧ r.conn.nextExpected = 1 ∧ r.conn.reorderBuf.keys = [2] := by
    decide +kernel
  exact ⟨r, hr, hexpected, hnext, hkeys,
    (delivers_in_order 0xfffd _ (by decide +kernel) hr).1⟩

end Stor.Utp
