import Stor.Download.Workers

/-!
# One worker for a piece before the endgame

Nothing in the queue says which worker has a piece: the mark in `pending` is set in
the critical section of one call and cleared in that of another.  `Owned` ties the
marks to the places of the workers.  Until the endgame no piece is held twice, what
is held is marked and not done, and the endgame begins only with few pieces left
(`held_once_before_endgame`).
-/

namespace Stor.Download

open Lib Peer Storage

/-- The piece that the worker `w` holds. -/
def State.heldBy (s : State) (w : Nat) : Option Nat := (s.workers[w]?).bind Pc.piece

/-- Before the endgame a held piece has one holder, is marked, and is not done. -/
structure Owned (s : State) : Prop where
  wf : s.queue.Wf
  once : s.queue.endgame = false → ∀ w v i, s.heldBy w = some i → s.heldBy v = some i → w = v
  marked : s.queue.endgame = false →
    ∀ w i, s.heldBy w = some i → i ∈ s.queue.pending ∧ i ∉ s.queue.done

section Steps

variable {sha1 : Bytes → Bytes} {s t : State} {a : Action} {w i : Nat} {pc pc' : Pc}

theorem heldBy_of_set (hpc : s.workers[w]? = some pc) (ht : t.workers = s.workers.set w pc')
    (v : Nat) : t.heldBy v = if v = w then pc'.piece else s.heldBy v := by
  unfold State.heldBy
  rw [ht, List.getElem?_set]
  by_cases hv : w = v
  · subst hv
    have hlt : w < s.workers.length := (List.getElem?_eq_some_iff.mp hpc).1
    rw [if_pos rfl, if_pos rfl, if_pos hlt, Option.bind_some]
  · rw [if_neg hv, if_neg (Ne.symm hv)]

theorem heldBy_of_getElem? (hpc : s.workers[w]? = some pc) : s.heldBy w = pc.piece := by
  unfold State.heldBy
  rw [hpc, Option.bind_some]

/-- A new worker holds nothing. -/
theorem heldBy_spawn (v : Nat) :
    State.heldBy { s with workers := s.workers ++ [.top] } v = s.heldBy v := by
  show ((s.workers ++ [Pc.top])[v]?).bind Pc.piece = (s.workers[v]?).bind Pc.piece
  rw [List.getElem?_append]
  by_cases hv : v < s.workers.length
  · rw [if_pos hv]
  · have hnone : s.workers[v]? = none := List.getElem?_eq_none (by omega)
    rw [if_neg hv, hnone]
    cases hrest : [Pc.top][v - s.workers.length]? with
    | none => rfl
    | some pc =>
      have htop := List.mem_singleton.mp (List.mem_of_getElem? hrest)
      rw [htop]
      rfl

/-- The other workers keep theirs, and `w` has what it had. -/
theorem Owned.congr (h : Owned s) (hwf : t.queue.Wf) (hend : t.queue.endgame = s.queue.endgame)
    (hpending : t.queue.pending = s.queue.pending) (hdone : t.queue.done = s.queue.done)
    (hheld : ∀ v, t.heldBy v = s.heldBy v) : Owned t := by
  refine ⟨hwf, ?_, ?_⟩
  · intro hfalse u v i hu hv
    rw [hheld] at hu hv
    exact h.once (hend ▸ hfalse) u v i hu hv
  · intro hfalse v i hv
    rw [hheld] at hv
    rw [hpending, hdone]
    exact h.marked (hend ▸ hfalse) v i hv

/-- A worker that holds nothing afterwards, and touches no mark but that of the piece
it had. -/
theorem Owned.release (h : Owned s) (hpc : s.workers[w]? = some pc)
    (ht : t.workers = s.workers.set w pc') (hpiece : pc'.piece = none) (hwf : t.queue.Wf)
    (hend : t.queue.endgame = false → s.queue.endgame = false)
    (hothers : ∀ i, pc.piece ≠ some i → i ∈ s.queue.pending ∧ i ∉ s.queue.done →
      i ∈ t.queue.pending ∧ i ∉ t.queue.done) : Owned t := by
  have hheld : ∀ v i, t.heldBy v = some i → v ≠ w ∧ s.heldBy v = some i := by
    intro v i hv
    rw [heldBy_of_set hpc ht] at hv
    by_cases hvw : v = w
    · rw [if_pos hvw, hpiece] at hv
      cases hv
    · rw [if_neg hvw] at hv
      exact ⟨hvw, hv⟩
  refine ⟨hwf, ?_, ?_⟩
  · intro hfalse u v i hu hv
    exact h.once (hend hfalse) u v i (hheld u i hu).2 (hheld v i hv).2
  · intro hfalse v i hv
    obtain ⟨hvw, hv⟩ := hheld v i hv
    apply hothers i _ (h.marked (hend hfalse) v i hv)
    intro hi
    rw [← heldBy_of_getElem? hpc] at hi
    exact hvw (h.once (hend hfalse) v w i hv hi)

/-- A piece that `Pick` hands out before the endgame is neither done nor pending. -/
theorem eligible_fresh {q : PieceQueue} {hasPiece : Nat → Bool}
    (h : q.eligible hasPiece i = true) (hend : q.endgame = false) : i ∉ q.pending ∧ i ∉ q.done := by
  unfold PieceQueue.eligible at h
  rw [hend] at h
  simp only [Bool.false_or, Bool.and_eq_true, Bool.not_eq_true', decide_eq_false_iff_not] at h
  exact ⟨h.1.1.2, h.1.1.1⟩

theorem enterEndgame_false {q : PieceQueue} (h : q.enterEndgame.endgame = false) :
    q.endgame = false := (Bool.or_eq_false_iff.mp h).1

section Picking

variable {hasPiece : Nat → Bool} {idx : Nat}

theorem heldBy_picked (hwf : s.queue.Wf) (hcand : idx ∈ s.queue.enterEndgame.candidates hasPiece)
    (hpc : s.workers[w]? = some pc)
    (ht : t.workers = s.workers.set w (.picked (s.queue.pieceAt idx))) (v : Nat) :
    t.heldBy v = if v = w then some idx else s.heldBy v := by
  have hidx := (PieceQueue.mem_candidates (PieceQueue.wf_enterEndgame hwf) hcand).1
  have hindex : (s.queue.pieceAt idx).index = idx := (PieceQueue.pieceAt_index hwf hidx).1
  rw [heldBy_of_set hpc ht]
  show (if v = w then some (s.queue.pieceAt idx).index else _) = _
  rw [hindex]

/-- A worker that takes a piece: before the endgame no other one has it. -/
theorem Owned.take (h : Owned s) (hcand : idx ∈ s.queue.enterEndgame.candidates hasPiece)
    (hpc : s.workers[w]? = some pc)
    (ht : t.workers = s.workers.set w (.picked (s.queue.pieceAt idx)))
    (hq : t.queue = { s.queue.enterEndgame with pending := insert idx s.queue.pending }) :
    Owned t := by
  have helig := (PieceQueue.mem_candidates (PieceQueue.wf_enterEndgame h.wf) hcand).2
  have hheld := heldBy_picked h.wf hcand hpc ht
  refine ⟨by rw [hq]; exact h.wf.congr rfl rfl rfl rfl rfl, ?_, ?_⟩
  · intro hfalse u v i hu hv
    rw [hq] at hfalse
    have hfresh := eligible_fresh helig hfalse
    have hold := h.marked (enterEndgame_false hfalse)
    rw [hheld] at hu hv
    split_ifs at hu hv with huw hvw hvw
    · rw [huw, hvw]
    · exact absurd (Option.some_inj.mp hu ▸ (hold v i hv).1) hfresh.1
    · exact absurd (Option.some_inj.mp hv ▸ (hold u i hu).1) hfresh.1
    · exact h.once (enterEndgame_false hfalse) u v i hu hv
  · intro hfalse v i hv
    rw [hq] at hfalse ⊢
    have hfresh := eligible_fresh helig hfalse
    rw [hheld] at hv
    split_ifs at hv with hvw
    · rw [← Option.some_inj.mp hv]
      exact ⟨Finset.mem_insert_self _ _, hfresh.2⟩
    · have hold := h.marked (enterEndgame_false hfalse) v i hv
      exact ⟨Finset.mem_insert_of_mem hold.1, hold.2⟩

end Picking

theorem Owned.worker {wa : WorkerAction} {res : Option PieceResult} (h : Owned s)
    (hpc : s.workers[w]? = some pc)
    (hmoves : WorkerMoves sha1 s.cancelled s.queue pc wa t.queue pc' res)
    (ht : t.workers = s.workers.set w pc') : Owned t := by
  generalize hq : t.queue = q' at hmoves
  cases hmoves with
  | picked hasPiece idx hcand =>
    exact h.take hcand hpc ht hq
  | foundNone hasPiece hcand =>
    apply h.release hpc ht rfl
    · rw [hq]
      exact PieceQueue.wf_enterEndgame h.wf
    · rw [hq]
      exact enterEndgame_false
    · rw [hq]
      exact fun i _ hi => hi
  | woken htoken =>
    apply h.release hpc ht rfl
    · rw [hq]
      exact h.wf.congr rfl rfl rfl rfl rfl
    · rw [hq]
      exact id
    · rw [hq]
      exact fun i _ hi => hi
  | dropped _ _ i hpiece hdone =>
    exact h.release hpc ht rfl (hq ▸ h.wf) (hq ▸ id) (hq ▸ fun i _ hi => hi)
  | kept _ _ _ i hpiece hpiece' hok =>
    apply h.congr (by rw [hq]; exact h.wf) (by rw [hq]) (by rw [hq]) (by rw [hq])
    intro v
    rw [heldBy_of_set hpc ht]
    split_ifs with hvw
    · rw [hvw, heldBy_of_getElem? hpc, hpiece, hpiece']
    · rfl
  | gaveBack pw =>
    apply h.release hpc ht rfl
    · rw [hq]
      exact PieceQueue.wf_giveBack h.wf pw
    · rw [hq]
      exact id
    · intro i hi hmark
      rw [hq]
      have hne : i ≠ pw.index := fun heq => hi (heq ▸ rfl)
      exact ⟨Finset.mem_erase.mpr ⟨hne, hmark.1⟩, hmark.2⟩
  | completed pw data =>
    apply h.release hpc ht rfl
    · rw [hq]
      exact PieceQueue.wf_complete h.wf pw.index
    · rw [hq, (PieceQueue.complete_frame s.queue pw.index).2.1]
      exact id
    · intro i hi hmark
      rw [hq]
      have hne : i ≠ pw.index := fun heq => hi (heq ▸ rfl)
      refine ⟨Finset.mem_erase.mpr ⟨hne, hmark.1⟩, fun hdone => ?_⟩
      exact (Finset.mem_insert.mp hdone).elim hne hmark.2
  | sent pw data => exact h.release hpc ht rfl (hq ▸ h.wf) (hq ▸ id) (hq ▸ fun i _ hi => hi)
  | stopped _ hpiece hcancelled =>
    exact h.release hpc ht rfl (hq ▸ h.wf) (hq ▸ id) (hq ▸ fun i _ hi => hi)

theorem step_owned (h : Owned s) (hstep : step sha1 s a = some t) : Owned t := by
  cases step_moves hstep with
  | worker w wa pc pc' res _ hpc hmoves ht hcancelled => exact h.worker hpc hmoves ht
  | spawn => exact h.congr h.wf rfl rfl rfl heldBy_spawn
  | queue op =>
    obtain ⟨av, bs, token, mask, heq⟩ := QueueOp.apply_eq s.queue op
    apply h.congr (QueueOp.wf_apply h.wf op)
    · show (op.apply s.queue).endgame = _
      rw [heq]
    · show (op.apply s.queue).pending = _
      rw [heq]
    · show (op.apply s.queue).done = _
      rw [heq]
    · exact fun _ => rfl
  | consumer _ _ hqueue hworkers hcancelled =>
    apply h.congr (by rw [hqueue]; exact h.wf) (by rw [hqueue]) (by rw [hqueue]) (by rw [hqueue])
    intro v
    unfold State.heldBy
    rw [hworkers]

/-- Only `Pick` begins the endgame, and the number of pieces it is measured against
never changes. -/
theorem step_endgame (hstep : step sha1 s a = some t) :
    t.queue.totalPieces = s.queue.totalPieces ∧
      (t.queue.endgame = s.queue.endgame ∨ t.queue.endgame = s.queue.enterEndgame.endgame) := by
  cases step_moves hstep with
  | worker w wa pc pc' res _ hpc hmoves ht hcancelled =>
    generalize t.queue = q' at hmoves
    cases hmoves with
    | picked | foundNone => exact ⟨rfl, .inr rfl⟩
    | woken | dropped | kept | gaveBack | sent | stopped => exact ⟨rfl, .inl rfl⟩
    | completed pw data =>
      have hframe := PieceQueue.complete_frame s.queue pw.index
      exact ⟨hframe.2.2, .inl hframe.2.1⟩
  | spawn => exact ⟨rfl, .inl rfl⟩
  | queue op =>
    obtain ⟨av, bs, token, mask, heq⟩ := QueueOp.apply_eq s.queue op
    show (op.apply s.queue).totalPieces = _ ∧ ((op.apply s.queue).endgame = _ ∨ _)
    rw [heq]
    exact ⟨rfl, .inl rfl⟩
  | consumer _ _ hqueue hworkers hcancelled =>
    rw [hqueue]
    exact ⟨rfl, .inl rfl⟩

theorem endgame_begins (hstep : step sha1 s a = some t) (hs : s.queue.endgame = false)
    (ht : t.queue.endgame = true) :
    1 ≤ s.queue.pieces.keys.length ∧ s.queue.pieces.keys.length ≤ s.queue.endgameThreshold := by
  have henter : s.queue.enterEndgame.endgame = true := by
    rcases (step_endgame hstep).2 with hsame | henter
    · rw [hsame, hs] at ht
      cases ht
    · exact henter ▸ ht
  unfold PieceQueue.enterEndgame at henter
  simp only [hs, Bool.false_or, Bool.and_eq_true, decide_eq_true_eq] at henter
  omega

end Steps

section Runs

variable (sha1 : Bytes → Bytes) (pieces : List PieceWork) (skipMask : Option Bitfield)
  (totalPieces : Nat) (prioritizeFirstLast sequential : Bool) (remaining : Nat)

theorem exec_owned {s t : State} {as : List Action} (h : Owned s)
    (hrun : exec (step sha1) s as = some t) : Owned t :=
  exec_invariant (fun _ _ _ hu _ hstep => step_owned hu hstep) h
    (guarded_of_forall (fun _ _ => trivial) s as) hrun

theorem exec_totalPieces {s t : State} {as : List Action}
    (hrun : exec (step sha1) s as = some t) : t.queue.totalPieces = s.queue.totalPieces := by
  have hstep : ∀ (u : State) (a : Action) (v : State),
      u.queue.totalPieces = s.queue.totalPieces → True → step sha1 u a = some v →
        v.queue.totalPieces = s.queue.totalPieces :=
    fun u a v hu _ hstep => (step_endgame hstep).1.trans hu
  exact exec_invariant hstep rfl (guarded_of_forall (fun _ _ => trivial) s as) hrun

theorem owned_ofQueue {q : PieceQueue} (h : q.Wf) : Owned (State.ofQueue q remaining) where
  wf := h
  once _ w v i hw _ := by cases hw
  marked _ w i hw := by cases hw

/-- In every run of any number of workers over a new queue, before the endgame no
piece is held by two workers and what is held is marked and not done.  A step to the
endgame finds at least one piece in the queue, and no more than five or one in a
hundred of those it started with. -/
theorem held_once_before_endgame (as : List Action) (s : State)
    (hrun : exec (step sha1) (State.ofQueue
      (PieceQueue.new pieces skipMask totalPieces prioritizeFirstLast sequential) remaining) as =
        some s) :
    (s.queue.endgame = false →
      (∀ w v i, s.heldBy w = some i → s.heldBy v = some i → w = v) ∧
        ∀ w i, s.heldBy w = some i → i ∈ s.queue.pending ∧ i ∉ s.queue.done) ∧
      ∀ a t, step sha1 s a = some t → s.queue.endgame = false → t.queue.endgame = true →
        1 ≤ s.queue.pieces.keys.length ∧ s.queue.pieces.keys.length ≤
          max 5 ((pieces.filter fun pw => !inBitfield skipMask pw.index).length / 100) := by
  have hwf := PieceQueue.wf_new pieces skipMask totalPieces prioritizeFirstLast sequential
  have howned := exec_owned sha1 (owned_ofQueue remaining hwf) hrun
  refine ⟨fun hend => ⟨howned.once hend, howned.marked hend⟩, fun a t hstep hs ht => ?_⟩
  have hbegins := endgame_begins hstep hs ht
  unfold PieceQueue.endgameThreshold at hbegins
  rw [exec_totalPieces sha1 hrun] at hbegins
  exact hbegins

end Runs

/-- Seven pieces of one byte each. -/
def sevenPieces : List PieceWork := (List.range 7).map fun i => ⟨i, [], 1⟩

/-- Two workers over seven pieces hold one each. -/
theorem held_once_twoWorkers :
    ∃ s, exec (step id) (State.ofQueue (PieceQueue.new sevenPieces none 7 false false) 7)
        [Action.spawn, .spawn, .worker 0 (.pick (fun _ => true) (some 3)),
          .worker 1 (.pick (fun _ => true) (some 5))] = some s ∧
      s.queue.endgame = false ∧ s.heldBy 0 = some 3 ∧ s.heldBy 1 = some 5 ∧
      (∀ w v i, s.heldBy w = some i → s.heldBy v = some i → w = v) ∧
      ∀ w i, s.heldBy w = some i → i ∈ s.queue.pending ∧ i ∉ s.queue.done := by
  obtain ⟨s, hs, hend, h0, h1⟩ : ∃ s,
      exec (step id) (State.ofQueue (PieceQueue.new sevenPieces none 7 false false) 7)
        [Action.spawn, .spawn, .worker 0 (.pick (fun _ => true) (some 3)),
          .worker 1 (.pick (fun _ => true) (some 5))] = some s ∧
      s.queue.endgame = false ∧ s.heldBy 0 = some 3 ∧ s.heldBy 1 = some 5 := by decide +kernel
  have hheld := (held_once_before_endgame id sevenPieces none 7 false false 7 _ s hs).1 hend
  exact ⟨s, hs, hend, h0, h1, hheld.1, hheld.2⟩


end Stor.Download
