import Stor.Lib.Frames
import Stor.Lib.Stream

/-!
# Messages on the wire

`ReadMessage`, `Write` and `WriteKeepAlive` of `peer/message.go`.  A message goes out as
its length in four bytes, its ID and its payload, and a keep-alive is a length of nothing.
The reader is given whatever chunks the connection delivers.

A cut right behind a length ends in the error of a stream that is at its end, since
`ReadFull` has read nothing of the message then.
-/

namespace Stor.Peer

open Lib

structure Message where
  id : UInt8
  payload : Bytes
  deriving DecidableEq, Repr

inductive ReadError where
  | eof
  | unexpectedEOF
  | tooLarge (length : Nat)
  deriving DecidableEq, Repr

def ReadError.text : ReadError → Bytes
  | .eof => ascii "EOF"
  | .unexpectedEOF => ascii "unexpected EOF"
  | .tooLarge length =>
    ascii "peer: message too large: " ++ natDigits length ++ ascii " bytes"

/-- `io.ReadFull`, whose error tells whether anything was read. -/
def readBuffer (n : Nat) (chunks : List Bytes) : Except ReadError (Bytes × List Bytes) :=
  match readFull n chunks with
  | some r => .ok r
  | none => .error (if chunks.flatten = [] then .eof else .unexpectedEOF)

def maxMessage : Nat := 4 * 1024 * 1024

/-- The message behind its length. -/
def readBody (length : Nat) (chunks : List Bytes) :
    Except ReadError (Option Message × List Bytes) :=
  match readBuffer length chunks with
  | .error e => .error e
  | .ok (buf, chunks) => .ok (some ⟨buf.headD 0, buf.drop 1⟩, chunks)

/-- The message of the next frame, nothing for a keep-alive. -/
def readMessage (chunks : List Bytes) : Except ReadError (Option Message × List Bytes) :=
  match readBuffer 4 chunks with
  | .error e => .error e
  | .ok (lenBuf, chunks) =>
    let length := beNat lenBuf
    if length = 0 then .ok (none, chunks)
    else if length > maxMessage then .error (.tooLarge length)
    else readBody length chunks

/-- What is put on the stream. -/
def Message.write (m : Message) : Bytes :=
  beBytes 4 (1 + m.payload.length) ++ m.id :: m.payload

def writeKeepAlive : Bytes := [0, 0, 0, 0]

def frame : Option Message → Bytes
  | none => writeKeepAlive
  | some m => m.write

/-- A keep-alive, or a message whose length is within the limit. -/
def FitsFrame : Option Message → Prop
  | none => True
  | some m => 1 + m.payload.length ≤ maxMessage

instance (m : Option Message) : Decidable (FitsFrame m) :=
  match m with
  | none => isTrue trivial
  | some _ => inferInstanceAs (Decidable (_ ≤ _))

/-! ## One frame -/

section
variable {n : Nat} {chunks : List Bytes}

theorem readBuffer_front {buf rest : Bytes} (hlen : buf.length = n)
    (hchunks : chunks.flatten = buf ++ rest) :
    ∃ chunks', readBuffer n chunks = .ok (buf, chunks') ∧ chunks'.flatten = rest := by
  have henough : n ≤ chunks.flatten.length := by
    rw [hchunks, List.length_append]
    omega
  obtain ⟨chunks', hread, hrest⟩ := readFull_spec henough
  refine ⟨chunks', ?_, ?_⟩
  · rw [readBuffer, hread, hchunks, List.take_left' hlen]
  · rw [hrest, hchunks, List.drop_left' hlen]

theorem readBuffer_short (h : chunks.flatten.length < n) :
    readBuffer n chunks = .error (if chunks.flatten = [] then .eof else .unexpectedEOF) := by
  rw [readBuffer, readFull_eq_none h]

theorem of_readBuffer {buf : Bytes} {chunks' : List Bytes}
    (h : readBuffer n chunks = .ok (buf, chunks')) :
    buf.length = n ∧ chunks.flatten = buf ++ chunks'.flatten := by
  unfold readBuffer at h
  cases hread : readFull n chunks with
  | none =>
    rw [hread] at h
    cases h
  | some r =>
    rw [hread] at h
    rw [Except.ok.inj h] at hread
    exact of_readFull hread

theorem readBody_of_error {e : ReadError} (h : readBuffer n chunks = .error e) :
    readBody n chunks = .error e := by
  rw [readBody, h]

theorem readMessage_of_error {e : ReadError} (h : readBuffer 4 chunks = .error e) :
    readMessage chunks = .error e := by
  rw [readMessage, h]

theorem beNat_header {m : Message} (hfits : FitsFrame (some m)) :
    beNat (beBytes 4 (1 + m.payload.length)) = 1 + m.payload.length := by
  apply beNat_beBytes
  unfold FitsFrame maxMessage at hfits
  omega

/-- Behind the length of a message that fits, the reader takes the rest of its frame. -/
theorem readMessage_header {m : Message} (hfits : FitsFrame (some m)) {rest : Bytes}
    (hchunks : chunks.flatten = beBytes 4 (1 + m.payload.length) ++ rest) :
    ∃ chunks', chunks'.flatten = rest ∧
      readMessage chunks = readBody (1 + m.payload.length) chunks' := by
  obtain ⟨chunks', hread, hrest⟩ := readBuffer_front (length_beBytes 4 _) hchunks
  refine ⟨chunks', hrest, ?_⟩
  have hpos : ¬ 1 + m.payload.length = 0 := by omega
  unfold readMessage
  rw [hread]
  dsimp only
  rw [beNat_header hfits, if_neg hpos, if_neg (Nat.not_lt.mpr hfits)]

end

theorem readMessage_frame (m : Option Message) (hfits : FitsFrame m) (chunks : List Bytes)
    (rest : Bytes) (hchunks : chunks.flatten = frame m ++ rest) :
    ∃ chunks', readMessage chunks = .ok (m, chunks') ∧ chunks'.flatten = rest := by
  cases m with
  | none =>
    obtain ⟨chunks', hread, hrest⟩ := readBuffer_front (show writeKeepAlive.length = 4 from rfl)
      hchunks
    refine ⟨chunks', ?_, hrest⟩
    unfold readMessage
    rw [hread]
    dsimp only
    rw [if_pos (show beNat writeKeepAlive = 0 from rfl)]
  | some m =>
    rw [frame, Message.write, List.append_assoc] at hchunks
    obtain ⟨chunks', hrest, hread⟩ := readMessage_header hfits hchunks
    have hlen : (m.id :: m.payload).length = 1 + m.payload.length := by
      rw [List.length_cons, Nat.add_comm]
    obtain ⟨chunks'', hbody, hbehind⟩ := readBuffer_front hlen hrest
    refine ⟨chunks'', ?_, hbehind⟩
    rw [hread, readBody, hbody]
    rfl

/-- A message above the limit is not read, however long it is. -/
theorem readMessage_tooLarge {m : Message} {chunks : List Bytes} {rest : Bytes}
    (hlarge : maxMessage < 1 + m.payload.length) (hlength : 1 + m.payload.length < 2 ^ 32)
    (hchunks : chunks.flatten = frame (some m) ++ rest) :
    readMessage chunks = .error (.tooLarge (1 + m.payload.length)) := by
  rw [frame, Message.write, List.append_assoc] at hchunks
  obtain ⟨chunks', hread, -⟩ := readBuffer_front (length_beBytes 4 _) hchunks
  have hheader : beNat (beBytes 4 (1 + m.payload.length)) = 1 + m.payload.length := by
    apply beNat_beBytes
    omega
  have hpos : ¬ 1 + m.payload.length = 0 := by omega
  unfold readMessage
  rw [hread]
  dsimp only
  rw [hheader, if_neg hpos, if_pos hlarge]

/-- A frame that is cut in its length, or behind it. -/
theorem readMessage_cut (m : Option Message) (hfits : FitsFrame m) (chunks : List Bytes) (n : Nat)
    (hn : n < (frame m).length) (hchunks : chunks.flatten = (frame m).take n) :
    ∃ e, readMessage chunks = .error e := by
  have hlen : chunks.flatten.length = n := by rw [hchunks, List.length_take_of_le (by omega)]
  by_cases hheader : n < 4
  · exact ⟨_, readMessage_of_error (readBuffer_short (by omega))⟩
  cases m with
  | none => exact absurd hn hheader
  | some m =>
    have hbytes := length_beBytes 4 (1 + m.payload.length)
    rw [frame, Message.write, List.length_append, List.length_cons] at hn
    rw [frame, Message.write, List.take_append,
      List.take_of_length_le (by omega)] at hchunks
    obtain ⟨chunks', hrest, hread⟩ := readMessage_header hfits hchunks
    have hshort : chunks'.flatten.length < 1 + m.payload.length := by
      rw [hrest, List.length_take]
      omega
    exact ⟨_, hread.trans (readBody_of_error (readBuffer_short hshort))⟩

theorem readMessage_ended (chunks : List Bytes) (h : chunks.flatten = []) :
    readMessage chunks = .error .eof := by
  have hshort : chunks.flatten.length < 4 := by
    rw [h]
    decide
  rw [readMessage_of_error (readBuffer_short hshort), if_pos h]

theorem framed : Framed readMessage List.flatten frame FitsFrame .eof :=
  ⟨readMessage_frame, readMessage_cut, readMessage_ended⟩

/-- Whatever the stream, a message is read off the frame that it would be written as, and
it is within the limit. -/
theorem of_readMessage {chunks chunks' : List Bytes} {m : Option Message}
    (h : readMessage chunks = .ok (m, chunks')) :
    FitsFrame m ∧ chunks.flatten = frame m ++ chunks'.flatten := by
  unfold readMessage at h
  cases hhead : readBuffer 4 chunks with
  | error e =>
    rw [hhead] at h
    cases h
  | ok r =>
    obtain ⟨hlen, hchunks⟩ := of_readBuffer hhead
    have hheader : r.1 = beBytes 4 (beNat r.1) := by rw [← hlen, beBytes_beNat]
    rw [hhead] at h
    dsimp only at h
    split_ifs at h with hzero hlarge
    · obtain ⟨rfl, rfl⟩ := Prod.mk.inj (Except.ok.inj h)
      refine ⟨trivial, ?_⟩
      rw [hchunks, hheader, hzero]
      rfl
    · unfold readBody at h
      cases hbody : readBuffer (beNat r.1) r.2 with
      | error e =>
        rw [hbody] at h
        cases h
      | ok q =>
        obtain ⟨hlen', hrest⟩ := of_readBuffer hbody
        rw [hbody] at h
        obtain ⟨rfl, rfl⟩ := Prod.mk.inj (Except.ok.inj h)
        -- The buffer has its ID in front, because the length is not zero.
        obtain ⟨id, payload, hbuf⟩ := List.exists_cons_of_length_pos (by omega : 0 < q.1.length)
        rw [hbuf, List.length_cons] at hlen'
        rw [hbuf] at hrest ⊢
        refine ⟨?_, ?_⟩
        · show 1 + payload.length ≤ maxMessage
          omega
        · have hlength : 1 + payload.length = beNat r.1 := by omega
          show chunks.flatten = beBytes 4 (1 + payload.length) ++ id :: payload ++ _
          rw [hchunks, hrest, hlength, ← hheader, List.append_assoc]

/-! ## A stream of frames -/

/-- Calls of `ReadMessage` until one fails. -/
def readMessages (fuel : Nat) (chunks : List Bytes) : List (Option Message) × Option ReadError :=
  readAll readMessage fuel chunks

/-- Whatever the stream, what is read are the frames in front of it. -/
theorem readMessages_frames (fuel : Nat) (chunks : List Bytes) :
    ∃ rest, chunks.flatten = (readMessages fuel chunks).1.flatMap frame ++ rest :=
  Lib.readAll_frames (fun _ _ _ h => (of_readMessage h).2) fuel chunks

theorem readMessages_written (ms : List (Option Message)) (hfits : ∀ m ∈ ms, FitsFrame m)
    (chunks : List Bytes) :
    (chunks.flatten = ms.flatMap frame →
      ∀ fuel, ms.length < fuel → readMessages fuel chunks = (ms, some .eof)) ∧
    ∀ n, n < (ms.flatMap frame).length → chunks.flatten = (ms.flatMap frame).take n →
      ∃ before m after, ms = before ++ m :: after ∧ (before.flatMap frame).length ≤ n ∧
        n < (before.flatMap frame).length + (frame m).length ∧
        ∃ e, ∀ fuel, ms.length < fuel → readMessages fuel chunks = (before, some e) :=
  ⟨fun hchunks _ hfuel => framed.readAll_whole hfits hchunks hfuel,
    fun _ hn hchunks => framed.readAll_cut hfits hn hchunks⟩

/-- A choke and a keep-alive, cut in the keep-alive and delivered byte by byte. -/
theorem readMessages_written_choke :
    (∀ m ∈ [some ⟨0, []⟩, none], FitsFrame m) ∧
    ∃ before m after, [some (⟨0, []⟩ : Message), none] = before ++ m :: after ∧
      (before.flatMap frame).length ≤ 7 ∧
      7 < (before.flatMap frame).length + (frame m).length ∧
      ∃ e, ∀ fuel, 2 < fuel →
        readMessages fuel [[0], [0], [0], [1], [0], [0], [0]] = (before, some e) := by
  have hfits : ∀ m ∈ [some (⟨0, []⟩ : Message), none], FitsFrame m := by decide
  exact ⟨hfits, (readMessages_written _ hfits _).2 7 (by decide) (by decide)⟩

example : readMessages 3 [[0, 0, 0, 1]] = ([], some .eof) := by decide

end Stor.Peer
