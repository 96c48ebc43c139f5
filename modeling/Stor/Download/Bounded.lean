import Stor.Download.Exchange

/-!
# How many messages a piece takes

The loop of `DownloadPiece` counts the blocks of other pieces and gives up after
`maxUnexpectedMessages` of them in a row.  A block of the piece itself sets the count back,
whatever it has in it.  As long as such blocks are not empty each of them brings the end nearer
by a byte, and `Transfer.left` bounds what can still be read (`downloadPiece_returns`).  An
empty block sets the count back for nothing.
-/

namespace Stor.Download

open Lib Torrent Peer Storage Exchange

/-- A `Piece` message that is not an empty block of the piece. -/
structure Useful (pw : PieceWork) (msg : PeerMessage) : Prop where
  id : msg.id = .piece
  block : ∀ p, parsePiece msg.payload = some p → p.index = pw.index → p.block ≠ []

/-- The messages that can still be read before the call returns. -/
def Transfer.left (pw : PieceWork) (t : Transfer) : Nat :=
  (maxUnexpectedMessages + 1) * (pw.length.toNat - t.downloaded) - t.noProgressCount

section

variable {pw : PieceWork} {t t' : Transfer}

theorem Transfer.left_pos (hlt : t.downloaded < pw.length.toNat)
    (hcount : t.noProgressCount ≤ maxUnexpectedMessages) : 0 < t.left pw := by
  have hmul : (maxUnexpectedMessages + 1) * 1 ≤
      (maxUnexpectedMessages + 1) * (pw.length.toNat - t.downloaded) :=
    Nat.mul_le_mul_left _ (by omega)
  unfold left
  omega

/-- The requests of a round change neither count. -/
theorem Transfer.request_counts (pw : PieceWork) (n : Nat) (t : Transfer) :
    (t.request pw n).downloaded = t.downloaded ∧
      (t.request pw n).noProgressCount = t.noProgressCount := by
  induction n generalizing t with
  | zero => exact ⟨rfl, rfl⟩
  | succ n ih =>
    rw [request]
    split_ifs
    · exact ih _
    · exact ⟨rfl, rfl⟩

theorem Transfer.request_buf (pw : PieceWork) (n : Nat) (t : Transfer) :
    (t.request pw n).buf = t.buf := by
  induction n generalizing t with
  | zero => rfl
  | succ n ih =>
    rw [request]
    split_ifs
    · exact ih _
    · rfl

/-- A message that does not end the call is one less to read. -/
theorem Transfer.receive_left {payload : Bytes}
    (hblock : ∀ p, parsePiece payload = some p → p.index = pw.index → p.block ≠ [])
    (hlt : t.downloaded < pw.length.toNat) (hcount : t.noProgressCount ≤ maxUnexpectedMessages)
    (h : t.receive pw payload = .ok t') :
    t'.noProgressCount ≤ maxUnexpectedMessages ∧ t'.left pw < t.left pw := by
  have hpos := left_pos hlt hcount
  unfold receive at h
  cases hparse : parsePiece payload with
  | none =>
    rw [hparse] at h
    cases h
  | some p =>
    rw [hparse] at h
    dsimp only at h
    by_cases hindex : p.index = pw.index
    · rw [if_neg (not_not.mpr hindex)] at h
      split_ifs at h
      rw [← Except.ok.inj h]
      refine ⟨Nat.zero_le _, ?_⟩
      -- a byte more is worth a whole row of unexpected messages
      have hbyte := List.length_pos_of_ne_nil (hblock p hparse hindex)
      have hmul : (maxUnexpectedMessages + 1) *
            (pw.length.toNat - (t.downloaded + p.block.length) + 1) ≤
          (maxUnexpectedMessages + 1) * (pw.length.toNat - t.downloaded) :=
        Nat.mul_le_mul_left _ (by omega)
      rw [Nat.mul_add, Nat.mul_one] at hmul
      unfold left
      dsimp only
      omega
    · rw [if_pos hindex] at h
      by_cases hmany : t.noProgressCount + 1 > maxUnexpectedMessages
      · rw [if_pos hmany] at h
        cases h
      rw [if_neg hmany] at h
      rw [← Except.ok.inj h]
      refine ⟨Nat.le_of_not_gt hmany, ?_⟩
      unfold left at hpos ⊢
      dsimp only
      omega

end

namespace Stage

variable {sha1 : Bytes → Bytes} {call : Client.PieceCall}

theorem fill_counts (pw : PieceWork) (target : Nat) (x : Exchange) :
    (x.fill pw target).t.downloaded = x.t.downloaded ∧
      (x.fill pw target).t.noProgressCount = x.t.noProgressCount := by
  rw [(fill_t pw target x).1]
  exact Transfer.request_counts pw _ x.t

theorem read_piece (x : Exchange) {msg : PeerMessage} (hid : msg.id = .piece) :
    read sha1 call x msg =
      match x.t.receive call.pw msg.payload with
      | .error e => .done x (.error e)
      | .ok t => loop sha1 call (x.after call.pw msg x.c t) := by
  have hmessage : x.c.transferMessage call.pw x.t msg = (x.c, x.t.receive call.pw msg.payload) := by
    unfold Client.transferMessage
    rw [hid]
  unfold read
  rw [hmessage]
  cases x.t.receive call.pw msg.payload <;> rfl

theorem loop_done (sha1 : Bytes → Bytes) {x : Exchange}
    (h : ¬ x.t.downloaded < call.pw.length.toNat) :
    ∃ result, loop sha1 call x = .done x result := ⟨_, if_neg h⟩

/-- From the head of a round on, the call returns on as many useful messages as are left. -/
theorem loop_returns (sha1 : Bytes → Bytes) {x : Exchange} {ms : List PeerMessage}
    (hms : ∀ msg ∈ ms, Useful call.pw msg)
    (hcount : x.t.noProgressCount ≤ maxUnexpectedMessages) (hleft : x.t.left call.pw ≤ ms.length) :
    ∃ k ≤ ms.length, ∃ y result,
      exec (step sha1 call) (loop sha1 call x) ((ms.take k).map some) = some (.done y result) := by
  induction ms generalizing x with
  | nil =>
    have hdone : ¬ x.t.downloaded < call.pw.length.toNat :=
      fun hlt => absurd hleft (Nat.not_le.mpr (Transfer.left_pos hlt hcount))
    obtain ⟨result, hloop⟩ := loop_done sha1 hdone
    exact ⟨0, Nat.le_refl 0, x, result, congrArg some hloop⟩
  | cons msg ms ih =>
    by_cases hlt : x.t.downloaded < call.pw.length.toNat
    · obtain ⟨hmsg, hrest⟩ := List.forall_mem_cons.mp hms
      obtain ⟨hdown, hsame⟩ := fill_counts call.pw (call.target x.round) x
      rw [loop, if_pos hlt]
      generalize x.fill call.pw (call.target x.round) = y at hdown hsame
      have hstep : step sha1 call (.reading y) (some msg) = some (read sha1 call y msg) := rfl
      rw [read_piece y hmsg.id] at hstep
      cases hreceive : y.t.receive call.pw msg.payload with
      | error e =>
        rw [hreceive] at hstep
        refine ⟨1, Nat.succ_le_succ (Nat.zero_le _), y, .error e, ?_⟩
        rw [List.take_succ_cons, List.take_zero, List.map_singleton, exec_singleton, hstep]
      | ok t =>
        rw [hreceive] at hstep
        obtain ⟨hcount', hless⟩ := Transfer.receive_left hmsg.block
          (lt_of_eq_of_lt hdown hlt) (le_of_eq_of_le hsame hcount) hreceive
        have hleft' : t.left call.pw ≤ ms.length := by
          unfold Transfer.left at hless hleft ⊢
          rw [hdown, hsame] at hless
          rw [List.length_cons] at hleft
          omega
        obtain ⟨k, hk, z, result, hexec⟩ :=
          ih (x := y.after call.pw msg y.c t) hrest hcount' hleft'
        refine ⟨k + 1, Nat.succ_le_succ hk, z, result, ?_⟩
        rw [List.take_succ_cons, List.map_cons, exec_cons_of_step hstep]
        exact hexec
    · obtain ⟨result, hloop⟩ := loop_done sha1 hlt
      exact ⟨0, Nat.zero_le _, x, result, congrArg some hloop⟩

/-! ## Messages that change nothing -/

/-- On empty blocks of the piece the loop reads on and on. -/
theorem run_loop_empty {x : Exchange} {msg : PeerMessage} {p : PieceMsg}
    (hp : pieceOf msg = some p) (hown : p.index = call.pw.index) (hempty : p.block = [])
    (hbound : p.begin ≤ x.t.buf.length) (hlt : x.t.downloaded < call.pw.length.toNat) (k : Nat) :
    (loop sha1 call x).run sha1 call (List.replicate k (some msg)) = (x.c, [], .error .read) := by
  induction k generalizing x with
  | zero => rw [loop, if_pos hlt, List.replicate_zero, run, (fill_t _ _ _).2]
  | succ k ih =>
    obtain ⟨ht, hc⟩ := fill_t call.pw (call.target x.round) x
    have hdown := (fill_counts call.pw (call.target x.round) x).1
    have hbuf : (x.fill call.pw (call.target x.round)).t.buf = x.t.buf := by
      rw [ht]
      exact Transfer.request_buf call.pw _ x.t
    rw [loop, if_pos hlt, List.replicate_succ, run]
    generalize x.fill call.pw (call.target x.round) = y at hc hdown hbuf
    have hfits : p.begin + p.block.length ≤ y.t.buf.length := by
      rw [hempty, hbuf]
      exact hbound
    rw [read, transferMessage_own hp hown hfits]
    dsimp only
    rw [ih, ← hc]
    · rfl
    · show p.begin ≤ (overwrite p.begin p.block y.t.buf).length
      rw [hempty, overwrite_nil, hbuf]
      exact hbound
    · show y.t.downloaded + p.block.length < call.pw.length.toNat
      rw [hempty, hdown]
      exact hlt

/-- `waitForUnchoke` takes no notice of blocks. -/
theorem run_choked_piece {c : Client} (hchoked : c.choked = true) {msg : PeerMessage}
    (hid : msg.id = .piece) (k : Nat) :
    (enter sha1 call c).run sha1 call (List.replicate k (some msg)) = (c, [], .error .read) := by
  have hsame : c.waitMessage msg = c := by
    unfold Client.waitMessage
    rw [hid]
  induction k with
  | zero => rw [enter, if_pos hchoked, List.replicate_zero, run]
  | succ k ih =>
    rw [enter, if_pos hchoked, List.replicate_succ, run]
    show (enter sha1 call (c.waitMessage msg)).run sha1 call _ = _
    rw [hsame]
    exact ih

end Stage

/-- The first `k` messages of a stream. -/
def received (ms : Nat → PeerMessage) (k : Nat) : List Received :=
  (List.range k).map fun n => some (ms n)

/-- A piece of one byte, and a client that the peer chokes or not. -/
def oneByte : Client.PieceCall := ⟨⟨0, [7], 1⟩, [], fun _ => 16⟩

def fresh (choked : Bool) : Client :=
  { bitfield := none, haveAll := false, choked := choked, choking := true, sentInterested := true }

/-- The block of piece 0 that has `data` at its start. -/
def firstBlock (data : Bytes) : PeerMessage := ⟨.piece, List.replicate 8 0 ++ data⟩

theorem received_const (msg : PeerMessage) (k : Nat) :
    received (fun _ => msg) k = List.replicate k (some msg) := by
  rw [received, List.map_const', List.length_range]

end Stor.Download
