import Stor.Download.Workers

/-!
# What a finished download delivered

From the start of `DownloadWithParams`, a run without the race between `IsDone`
and `Complete` sends no piece twice, and when it returns nil every queued piece
was written.
-/

namespace Stor.Download

open Lib Peer Storage Torrent

theorem lookup_pieceMap_mem {ps : List PieceWork} {m : AList fun _ : Nat => PieceWork} {i : Nat}
    {pw : PieceWork}
    (h : (ps.foldl (fun m pw => m.insert pw.index pw) m).lookup i = some pw) :
    pw ∈ ps ∨ m.lookup i = some pw := by
  induction ps generalizing m with
  | nil => exact .inr h
  | cons p ps ih =>
    rcases ih h with hmem | hlook
    · exact .inl (List.mem_cons_of_mem _ hmem)
    · by_cases hi : i = p.index
      · rw [hi, AList.lookup_insert, Option.some_inj] at hlook
        rw [hlook]
        exact .inl List.mem_cons_self
      · rw [AList.lookup_insert_ne hi] at hlook
        exact .inr hlook

theorem pieceList_filter (info : Info) (haveBF skipMask : Option Bitfield) :
    (pieceList info haveBF skipMask).filter (fun pw => !inBitfield skipMask pw.index) =
      pieceList info haveBF skipMask := by
  rw [List.filter_eq_self]
  intro pw hpw
  have := (List.mem_filter.mp hpw).2
  rw [Bool.and_eq_true] at this
  exact this.2

section Start

variable (sha1 : Bytes → Bytes) (info : Info) (haveBF skipMask : Option Bitfield)
  (prioritizeFirstLast sequential : Bool)

theorem start_inv :
    Inv sha1 (pieceList info haveBF skipMask)
      (start info haveBF skipMask prioritizeFirstLast sequential) := by
  refine ⟨PieceQueue.wf_new _ _ _ _ _, ?_, ?_, ?_, ?_, List.nodup_nil, fun _ => rfl, rfl, rfl, ?_⟩
  · intro i
    show i ∈ PieceQueue.pieceMap ((pieceList info haveBF skipMask).filter _) ∨ i ∈ (∅ : Finset Nat)
      ↔ _
    rw [pieceList_filter, PieceQueue.mem_pieceMap]
    exact or_iff_left (Finset.notMem_empty i)
  · intro i pw hi
    have hi' : (PieceQueue.pieceMap ((pieceList info haveBF skipMask).filter
        fun pw => !inBitfield skipMask pw.index)).lookup i = some pw := hi
    rw [pieceList_filter] at hi'
    rcases lookup_pieceMap_mem hi' with hmem | hnone
    · exact hmem
    · rw [AList.lookup_empty] at hnone
      exact absurd hnone.symm (Option.some_ne_none pw)
  · intro pc hpc
    exact absurd hpc List.not_mem_nil
  · intro r hr
    exact absurd hr List.not_mem_nil
  · intro h
    exact absurd h (by simp [start])

end Start

/-- In every run in which no `Complete` finds its piece done, no index is sent
twice; and when such a run ends in success, every queued piece was written. -/
theorem sent_nodup_and_all_written (sha1 : Bytes → Bytes) (info : Info)
    (haveBF skipMask : Option Bitfield) (prioritizeFirstLast sequential : Bool)
    (as : List Action) (s : State)
    (hrun : exec (step sha1) (start info haveBF skipMask prioritizeFirstLast sequential) as =
      some s)
    (hrace : Guarded (step sha1) NoRace
      (start info haveBF skipMask prioritizeFirstLast sequential) as) :
    (s.sent.map PieceResult.index).Nodup ∧
      (s.status = .success → ∀ pw ∈ pieceList info haveBF skipMask,
        pw.index ∈ s.written.map PieceResult.index) := by
  have hinv := exec_inv (start_inv sha1 info haveBF skipMask prioritizeFirstLast sequential)
    hrace hrun
  refine ⟨(List.nodup_append.mp hinv.nodup).1, ?_⟩
  intro hsuccess pw hpw
  rw [(hinv.all_written hsuccess).mem_iff]
  exact List.mem_map_of_mem hpw

/-- Two pieces of one byte each, with the bytes themselves as digests. -/
def twoPieces : Info := ⟨[97], 1, [[1], [2]], 2, [], false, none⟩

/-- A worker takes piece `i` with the given data through its loop, up to the
send. -/
def fetch (w i : Nat) (data : Bytes) : List Action :=
  [.worker w (.pick (fun j => j == i) (some i)), .worker w .checkDone, .worker w (.download data),
    .worker w .checkAgain, .worker w .complete, .worker w .send]

/-- One worker fetches both pieces, one after the other. -/
def singleRun : List Action :=
  [.spawn] ++ fetch 0 0 [1] ++ [.receive] ++ fetch 0 1 [2] ++ [.receive, .finish]

theorem sent_nodup_and_all_written_twoPieces :
    ∃ s, exec (step id) (start twoPieces none none false false) singleRun = some s ∧
      s.status = .success ∧ (s.sent.map PieceResult.index).Nodup ∧
      ∀ pw ∈ pieceList twoPieces none none, pw.index ∈ s.written.map PieceResult.index := by
  have hstatus : (exec (step id) (start twoPieces none none false false) singleRun).map
      State.status = some .success := by decide
  obtain ⟨s, hs, hsuccess⟩ := Option.map_eq_some_iff.mp hstatus
  have hmain := sent_nodup_and_all_written id twoPieces none none false false singleRun s hs
    (by decide)
  exact ⟨s, hs, hsuccess, hmain.1, hmain.2 hsuccess⟩

/-- Two workers hold piece 0 in endgame, both find it not done, and both complete
and send it. -/
def doubleRun : List Action :=
  [.spawn, .spawn, .worker 0 (.pick (fun _ => true) (some 0)),
    .worker 1 (.pick (fun _ => true) (some 0)), .worker 0 .checkDone, .worker 1 .checkDone,
    .worker 0 (.download [1]), .worker 1 (.download [1]), .worker 0 .checkAgain,
    .worker 1 .checkAgain, .worker 0 .complete, .worker 1 .complete, .worker 0 .send,
    .worker 1 .send, .receive, .receive, .finish]

/-- The loop counts two results for piece 0 and returns nil without piece 1. -/
theorem success_without_piece :
    ∃ s, exec (step id) (start twoPieces none none false false) doubleRun = some s ∧
      s.status = .success ∧ ¬ (s.sent.map PieceResult.index).Nodup ∧
      ∃ pw ∈ pieceList twoPieces none none, pw.index ∉ s.written.map PieceResult.index := by
  have hrun : (exec (step id) (start twoPieces none none false false) doubleRun).map
      (fun s => (s.status, s.sent.map PieceResult.index, s.written.map PieceResult.index)) =
      some (.success, [0, 0], [0, 0]) := by decide
  obtain ⟨s, hs, hfields⟩ := Option.map_eq_some_iff.mp hrun
  simp only [Prod.mk.injEq] at hfields
  obtain ⟨hstatus, hsent, hwritten⟩ := hfields
  refine ⟨s, hs, hstatus, ?_, ⟨1, [2], 1⟩, by decide, ?_⟩
  · rw [hsent]
    decide
  · rw [hwritten]
    decide

end Stor.Download
