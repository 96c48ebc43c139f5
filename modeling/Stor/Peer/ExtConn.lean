import Stor.Peer.Extension
import Stor.Peer.Message

/-!
# Connections for one extension

`peer/extconn.go`.  A connection reads past keep-alives, other messages and those for other
extensions, up to a message for its own one.  Of the connection below it has what the peer will
deliver and what was written.

The loop of `ReadExtMessage` reads at least a length in every round, so the bytes that are left
bound the rounds.
-/

namespace Stor.Peer

open Lib

def msgExtended : UInt8 := 20

def newExtendedMessage (extID : UInt8) (payload : Bytes) : Message :=
  ⟨msgExtended, extID :: payload⟩

structure ExtConn where
  localExtID : UInt8
  remoteExtID : UInt8
  /-- What the peer delivers. -/
  chunks : List Bytes
  written : Bytes
  /-- The error of a write behind the given number of bytes. -/
  writeError : Nat → Option Bytes

inductive ExtError where
  | read (e : ReadError)
  | parse (text : Bytes)
  | outOfFuel
  deriving DecidableEq, Repr

def ExtError.text : ExtError → Bytes
  | .read e => e.text
  | .parse text => text
  | .outOfFuel => []

namespace ExtConn

def sendExtMessage (c : ExtConn) (payload : Bytes) : Except Bytes ExtConn :=
  match c.writeError c.written.length with
  | some e => .error e
  | none => .ok { c with written := c.written ++ (newExtendedMessage c.remoteExtID payload).write }

/-- The loop of `ReadExtMessage`, for at most `fuel` messages. -/
def readExtLoop (localExtID : UInt8) : Nat → List Bytes → Except ExtError (Bytes × List Bytes)
  | 0, _ => .error .outOfFuel
  | fuel + 1, chunks =>
    match readMessage chunks with
    | .error e => .error (.read e)
    | .ok (none, chunks) => readExtLoop localExtID fuel chunks
    | .ok (some msg, chunks) =>
      if msg.id ≠ msgExtended then readExtLoop localExtID fuel chunks
      else
        match parseExtended msg.payload with
        | .error e => .error (.parse e)
        | .ok (extID, data) =>
          if extID ≠ localExtID then readExtLoop localExtID fuel chunks
          else .ok (data, chunks)

def readExtMessage (c : ExtConn) : Except ExtError (Bytes × ExtConn) :=
  match readExtLoop c.localExtID (c.chunks.flatten.length + 1) c.chunks with
  | .error e => .error e
  | .ok (data, chunks) => .ok (data, { c with chunks := chunks })

end ExtConn

/-! ## What is read past -/

/-- The payload of a message for the extension. -/
def forExt (localExtID : UInt8) : Option Message → Option Bytes
  | some ⟨id, extID :: data⟩ => if id = msgExtended ∧ extID = localExtID then some data else none
  | _ => none

/-- A keep-alive or a message that the reader takes: within the limit of a frame, and with an
extension ID when it is an extension message. -/
structure Readable (m : Option Message) : Prop where
  fits : FitsFrame m
  hasID : m ≠ some ⟨msgExtended, []⟩

instance (m : Option Message) : Decidable (Readable m) :=
  decidable_of_iff (FitsFrame m ∧ m ≠ some ⟨msgExtended, []⟩)
    ⟨fun h => ⟨h.1, h.2⟩, fun h => ⟨h.1, h.2⟩⟩

namespace ExtConn

theorem length_frame_pos (m : Option Message) : 0 < (frame m).length := by
  cases m with
  | none => decide
  | some m =>
    rw [frame, Message.write, List.length_append, List.length_cons]
    omega

section
variable {localExtID : UInt8} {chunks : List Bytes} {rest data : Bytes} {fuel : Nat}

theorem readExtLoop_of_error {e : ReadError} (h : readMessage chunks = .error e) :
    readExtLoop localExtID (fuel + 1) chunks = .error (.read e) := by
  rw [readExtLoop, h]

/-- A round of the loop. -/
theorem readExtLoop_of_ok {m : Option Message} {chunks' : List Bytes}
    (hid : m ≠ some ⟨msgExtended, []⟩) (h : readMessage chunks = .ok (m, chunks')) :
    readExtLoop localExtID (fuel + 1) chunks =
      (forExt localExtID m).elim (readExtLoop localExtID fuel chunks') fun data =>
        .ok (data, chunks') := by
  rw [readExtLoop, h]
  match m, hid with
  | none, _ => rfl
  | some ⟨id, []⟩, hid =>
    have hother : id ≠ msgExtended := fun heq => hid (by rw [heq])
    dsimp only
    rw [if_pos hother]
    rfl
  | some ⟨id, extID :: data⟩, _ =>
    dsimp only [parseExtended, forExt]
    by_cases hid : id = msgExtended
    · by_cases hext : extID = localExtID
      · rw [if_neg (not_not.mpr hid), if_neg (not_not.mpr hext), if_pos ⟨hid, hext⟩]
        rfl
      · rw [if_neg (not_not.mpr hid), if_pos hext, if_neg fun h => hext h.2]
        rfl
    · rw [if_pos hid, if_neg fun h => hid h.1]
      rfl

theorem length_le_flatMap_frame (ms : List (Option Message)) :
    ms.length ≤ (ms.flatMap frame).length := by
  induction ms with
  | nil => exact Nat.le_refl 0
  | cons m ms ih =>
    have hframe := length_frame_pos m
    rw [List.flatMap_cons, List.length_append, List.length_cons]
    omega

/-- The next message for the extension is found behind others. -/
theorem readExtLoop_found {others : List (Option Message)} {m : Option Message}
    (hothers : ∀ x ∈ others, Readable x ∧ forExt localExtID x = none) (hm : Readable m)
    (hdata : forExt localExtID m = some data)
    (hchunks : chunks.flatten = others.flatMap frame ++ (frame m ++ rest))
    (hfuel : others.length < fuel) :
    ∃ chunks', readExtLoop localExtID fuel chunks = .ok (data, chunks') ∧
      chunks'.flatten = rest := by
  induction others generalizing chunks fuel with
  | nil =>
    obtain ⟨fuel, rfl⟩ := Nat.exists_eq_add_of_lt hfuel
    obtain ⟨chunks', hread, hrest⟩ := readMessage_frame m hm.fits chunks rest hchunks
    refine ⟨chunks', ?_, hrest⟩
    rw [readExtLoop_of_ok hm.hasID hread, hdata]
    rfl
  | cons x others ih =>
    obtain ⟨⟨hx, hskip⟩, hothers⟩ := List.forall_mem_cons.mp hothers
    obtain ⟨fuel, rfl⟩ := Nat.exists_eq_add_of_lt hfuel
    rw [List.flatMap_cons, List.append_assoc] at hchunks
    obtain ⟨chunks', hread, hrest⟩ := readMessage_frame x hx.fits chunks _ hchunks
    have hless : others.length < (x :: others).length + fuel := by
      rw [List.length_cons]
      omega
    obtain ⟨chunks'', hfound, hbehind⟩ := ih hothers hrest hless
    refine ⟨chunks'', ?_, hbehind⟩
    rw [readExtLoop_of_ok hx.hasID hread, hskip]
    exact hfound

end

/-- A call takes the payload of the next message for the extension, and leaves what is behind
it. -/
theorem readExtMessage_found {c : ExtConn} {ms : List (Option Message)} {data : Bytes}
    {payloads : List Bytes} {rest : Bytes} (hms : ∀ m ∈ ms, Readable m)
    (hdata : ms.filterMap (forExt c.localExtID) = data :: payloads)
    (hchunks : c.chunks.flatten = ms.flatMap frame ++ rest) :
    ∃ (chunks : List Bytes) (ms' : List (Option Message)),
      c.readExtMessage = .ok (data, { c with chunks := chunks }) ∧ (∀ m ∈ ms', Readable m) ∧
        ms'.filterMap (forExt c.localExtID) = payloads ∧
        chunks.flatten = ms'.flatMap frame ++ rest := by
  obtain ⟨others, m, ms', rfl, hothers, hm, hpayloads⟩ := List.filterMap_eq_cons_iff.mp hdata
  rw [List.forall_mem_append, List.forall_mem_cons] at hms
  rw [List.flatMap_append, List.flatMap_cons, List.append_assoc, List.append_assoc] at hchunks
  have hfuel : others.length < c.chunks.flatten.length + 1 := by
    have hlen := length_le_flatMap_frame others
    rw [hchunks, List.length_append]
    omega
  obtain ⟨chunks, hread, hrest⟩ := readExtLoop_found
    (fun x hx => ⟨hms.1 x hx, hothers x hx⟩) hms.2.1 hm hchunks hfuel
  refine ⟨chunks, ms', ?_, hms.2.2, hpayloads, hrest⟩
  rw [readExtMessage, hread]

/-- There is no way past a message above the limit. -/
theorem readExtMessage_tooLarge {c : ExtConn} {m : Message} {rest : Bytes}
    (hlarge : maxMessage < 1 + m.payload.length) (hlength : 1 + m.payload.length < 2 ^ 32)
    (hchunks : c.chunks.flatten = frame (some m) ++ rest) :
    c.readExtMessage = .error (.read (.tooLarge (1 + m.payload.length))) := by
  rw [readExtMessage, readExtLoop_of_error (readMessage_tooLarge hlarge hlength hchunks)]

/-- The bytes that are left bound the rounds. -/
theorem readExtLoop_ne_outOfFuel {localExtID : UInt8} {fuel : Nat} {chunks : List Bytes}
    (h : chunks.flatten.length < fuel) :
    readExtLoop localExtID fuel chunks ≠ .error .outOfFuel := by
  induction fuel generalizing chunks with
  | zero => exact absurd h (Nat.not_lt_zero _)
  | succ fuel ih =>
    cases hread : readMessage chunks with
    | error e =>
      rw [readExtLoop_of_error hread]
      intro hfuel
      cases hfuel
    | ok r =>
      have hchunks := (of_readMessage hread).2
      have hless : r.2.flatten.length < fuel := by
        have hframe := length_frame_pos r.1
        rw [hchunks, List.length_append] at h
        omega
      by_cases hid : r.1 = some ⟨msgExtended, []⟩
      · obtain ⟨m, chunks'⟩ := r
        subst hid
        rw [readExtLoop, hread]
        intro hfuel
        cases hfuel
      · rw [readExtLoop_of_ok hid hread]
        cases forExt localExtID r.1 with
        | none => exact ih hless
        | some data =>
          intro hfuel
          cases hfuel

end ExtConn
end Stor.Peer
