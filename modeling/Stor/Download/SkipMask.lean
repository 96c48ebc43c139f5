import Stor.Download.Deliver

/-!
# Files skipped during a download

`UpdateSkipMask` hides pieces from `Pick` and from `Remaining`.  The loop of
`DownloadWithParams` counts up to the number of pieces that were queued at the
start, and no mask changes that number.  Without a race, what the loop still
waits for when `Remaining` is 0 is what the mask in force hides.
-/

namespace Stor.Download

open Lib Peer Storage Torrent

/-- The unfinished pieces that the mask in force hides. -/
def PieceQueue.hidden (q : PieceQueue) : List Nat :=
  q.pieces.keys.filter fun idx => inBitfield q.skipMask idx

theorem PieceQueue.length_keys (q : PieceQueue) :
    q.pieces.keys.length = q.hidden.length + q.remaining :=
  List.length_eq_length_filter_add _

/-- The result of every completed piece was taken from the channel and written. -/
def State.Consumed (s : State) : Prop :=
  ∀ i ∈ s.queue.done, i ∈ s.written.map PieceResult.index

instance (s : State) : Decidable s.Consumed :=
  inferInstanceAs (Decidable (∀ i ∈ s.queue.done, _))

section Count

variable {sha1 : Bytes → Bytes} {pieces : List PieceWork} {s : State}

/-- Every piece of the start is unfinished or done, and none is both. -/
theorem Tallied.card_done (h : Tallied sha1 pieces s)
    (hdistinct : (pieces.map PieceWork.index).Nodup) :
    s.queue.done.card + s.queue.pieces.keys.length = s.remaining := by
  have hunion : s.queue.done ∪ s.queue.pieces.keys.toFinset =
      (pieces.map PieceWork.index).toFinset := by
    ext i
    rw [Finset.mem_union, List.mem_toFinset, List.mem_toFinset, ← h.known i, or_comm,
      AList.mem_keys]
  have hdisjoint : Disjoint s.queue.done s.queue.pieces.keys.toFinset := by
    rw [Finset.disjoint_right]
    intro i hi
    exact h.wf.done_disjoint i (AList.mem_keys.mpr (List.mem_toFinset.mp hi))
  calc s.queue.done.card + s.queue.pieces.keys.length
      = s.queue.done.card + s.queue.pieces.keys.toFinset.card := by
        rw [List.toFinset_card_of_nodup s.queue.pieces.keys_nodup]
    _ = (pieces.map PieceWork.index).toFinset.card := by
        rw [← Finset.card_union_of_disjoint hdisjoint, hunion]
    _ = s.remaining := by
        rw [List.toFinset_card_of_nodup hdistinct, List.length_map, h.total]

/-- The loop counted every done piece; a piece that was sent twice it counted
twice. -/
theorem State.Consumed.card_le (hconsumed : s.Consumed) (h : Tallied sha1 pieces s) :
    s.queue.done.card ≤ s.completed := by
  have hsub : s.queue.done ⊆ (s.written.map PieceResult.index).toFinset := by
    intro i hi
    exact List.mem_toFinset.mpr (hconsumed i hi)
  have hcard := (Finset.card_le_card hsub).trans (List.toFinset_card_le _)
  rwa [List.length_map, ← h.count] at hcard

/-- Without a race it counted each one once. -/
theorem Inv.completed_le (h : Inv sha1 pieces s) (hstatus : s.status ≠ .failed) :
    s.completed ≤ s.queue.done.card := by
  have hsub : (s.written.map PieceResult.index).toFinset ⊆ s.queue.done := by
    intro i hi
    obtain ⟨r, hr, rfl⟩ := List.mem_map.mp (List.mem_toFinset.mp hi)
    exact (h.sent r (h.mem_sent hstatus hr)).1
  have hcard := Finset.card_le_card hsub
  rwa [List.toFinset_card_of_nodup (h.written_nodup hstatus), List.length_map, ← h.count] at hcard

/-- When `Remaining` is 0, what the loop waits for is what the mask hides. -/
theorem Inv.completed_add_hidden (h : Inv sha1 pieces s)
    (hdistinct : (pieces.map PieceWork.index).Nodup) (hstatus : s.status ≠ .failed)
    (hzero : s.queue.remaining = 0) (hconsumed : s.Consumed) :
    s.completed + s.queue.hidden.length = s.remaining := by
  have hcard := h.tallied.card_done hdistinct
  rw [PieceQueue.length_keys, hzero] at hcard
  have hle := hconsumed.card_le h.tallied
  have hge := h.completed_le hstatus
  omega

end Count

/-- Where `Remaining` is 0 and every result is consumed, the loop is over if the
mask in force hides no unfinished piece; and in a run in which no `Complete`
finds its piece done, and no write failed, only then. -/
theorem loop_over_iff_hidden_nil (sha1 : Bytes → Bytes) (info : Info)
    (haveBF skipMask : Option Bitfield) (prioritizeFirstLast sequential : Bool)
    (as : List Action) (s : State)
    (hrun : exec (step sha1) (start info haveBF skipMask prioritizeFirstLast sequential) as =
      some s)
    (hzero : s.queue.remaining = 0) (hconsumed : s.Consumed) :
    (s.queue.hidden = [] → ¬ s.completed < s.remaining) ∧
      (Guarded (step sha1) NoRace
          (start info haveBF skipMask prioritizeFirstLast sequential) as →
        s.status ≠ .failed → (¬ s.completed < s.remaining ↔ s.queue.hidden = [])) := by
  have hstart := start_inv sha1 info haveBF skipMask prioritizeFirstLast sequential
  have hdistinct := pieceList_nodup info haveBF skipMask
  refine ⟨?_, ?_⟩
  · intro hhidden
    have htallied := exec_tallied hstart.tallied hrun
    have hcard := htallied.card_done hdistinct
    rw [PieceQueue.length_keys, hzero, hhidden] at hcard
    rw [Nat.not_lt, ← hcard]
    exact hconsumed.card_le htallied
  · intro hrace hstatus
    have hinv := exec_inv hstart hrace hrun
    have hcount := hinv.completed_add_hidden hdistinct hstatus hzero hconsumed
    rw [← List.length_eq_zero_iff]
    omega

/-- The user skips the file of piece 1, takes it back, and both pieces are
fetched. -/
def skipAndBack : List Action :=
  [Action.spawn, .queue (.updateSkipMask (some ⟨[64]⟩))] ++ fetch 0 0 [1] ++
    [Action.receive, .queue (.updateSkipMask none)] ++ fetch 0 1 [2] ++ [Action.receive]

theorem loop_over_skipAndBack :
    ∃ s, exec (step id) (start twoPieces none none false false) skipAndBack = some s ∧
      s.queue.remaining = 0 ∧ s.Consumed ∧ ¬ s.completed < s.remaining := by
  obtain ⟨s, hs, hzero, hconsumed, hhidden⟩ : ∃ s,
      exec (step id) (start twoPieces none none false false) skipAndBack = some s ∧
        s.queue.remaining = 0 ∧ s.Consumed ∧ s.queue.hidden = [] := by decide +kernel
  have hmain := loop_over_iff_hidden_nil id twoPieces none none false false skipAndBack s hs hzero
    hconsumed
  exact ⟨s, hs, hzero, hconsumed, hmain.1 hhidden⟩

/-- Piece 0 is fetched, then the user skips the file of piece 1. -/
def skipLast : List Action :=
  [Action.spawn] ++ fetch 0 0 [1] ++ [Action.receive, .queue (.updateSkipMask (some ⟨[64]⟩))]

/-- Nothing remains and nothing is under way, and the loop waits for a second
result. -/
theorem not_loop_over_skipLast :
    ¬ ∀ (sha1 : Bytes → Bytes) (info : Info) (haveBF skipMask : Option Bitfield)
      (prioritizeFirstLast sequential : Bool) (as : List Action) (s : State),
      exec (step sha1) (start info haveBF skipMask prioritizeFirstLast sequential) as = some s →
      s.queue.remaining = 0 → s.Consumed → ¬ s.completed < s.remaining := by
  intro h
  obtain ⟨s, hs, hzero, hconsumed, hwaits⟩ : ∃ s,
      exec (step id) (start twoPieces none none false false) skipLast = some s ∧
        s.queue.remaining = 0 ∧ s.Consumed ∧ s.completed < s.remaining := by decide +kernel
  exact h id twoPieces none none false false skipLast s hs hzero hconsumed hwaits

end Stor.Download
