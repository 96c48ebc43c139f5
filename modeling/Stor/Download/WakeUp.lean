import Stor.Download.Endgame

/-!
# Signals for waiting workers

A worker that finds nothing to pick waits for the token of `waitCh`.  There is one
token for all of them, so a call that makes a piece eligible wakes one worker, and
that one may have a peer without the piece.  `Watched` says who looks after the
waiting workers: the token, a worker on its way to a `Pick` that will succeed, or a
worker with a piece in hand, whose `Return` or `Complete` gives the next signal.  The
steps keep it as long as the token goes to a worker that can use it
(`noLostWakeUp_of_takenByPicker`).
-/

namespace Stor.Download

open Lib Peer Storage

/-- `Pick` has something to hand out to a peer with these pieces. -/
def PieceQueue.canPick (q : PieceQueue) (hasPiece : Nat → Bool) : Bool :=
  decide (q.enterEndgame.candidates hasPiece ≠ ∅)

/-- Every worker that has not returned is blocked in its receive from `Wait()`, and
nothing is there to be received. -/
def State.Asleep (s : State) : Prop :=
  s.cancelled = false ∧ s.queue.waitToken = false ∧ ∀ pc ∈ s.workers, pc = .waiting ∨ pc = .stopped

instance (s : State) : Decidable s.Asleep := inferInstanceAs (Decidable (_ ∧ _))

/-- With all workers asleep, `Pick` would return false for each of them. -/
def NoLostWakeUp (peers : Nat → Nat → Bool) (s : State) : Prop :=
  s.Asleep → ∀ w : Nat, s.workers[w]? = some .waiting →
    ∀ draw q res, s.queue.pick (peers w) draw = some (q, res) → res = none

/-- The worker `w` asks for the pieces of its own peer. -/
def Offers (peers : Nat → Nat → Bool) : Action → Prop
  | .worker w (.pick hasPiece _) => hasPiece = peers w
  | _ => True

/-- Some waiting worker could pick a piece. -/
def State.hasSleeper (peers : Nat → Nat → Bool) (s : State) : Bool :=
  (List.range s.workers.length).any fun v =>
    s.workers[v]? = some .waiting && s.queue.canPick (peers v)

/-- The worker that takes the token can pick a piece, if any of the waiting ones
can. -/
def TakenByPicker (peers : Nat → Nat → Bool) (s : State) : Action → Prop
  | .worker w .wake => s.hasSleeper peers = true → s.queue.canPick (peers w) = true
  | _ => True

instance (peers : Nat → Nat → Bool) (s : State) : ∀ a, Decidable (TakenByPicker peers s a)
  | .worker _ .wake => inferInstanceAs (Decidable (_ → _))
  | .worker _ (.pick _ _) | .worker _ .checkDone | .worker _ (.download _) | .worker _ .downloadFail
  | .worker _ .giveBack | .worker _ .checkAgain | .worker _ .complete | .worker _ .send
  | .worker _ .stop | .spawn | .queue _ | .cancel | .receive | .writeFail | .finish | .abort
  | .closed => isTrue trivial

/-! ## What can be picked -/

section Picking

variable {q q' : PieceQueue} {hasPiece : Nat → Bool}

theorem PieceQueue.canPick_iff (h : q.Wf) : q.canPick hasPiece = true ↔
    ∃ i ∈ q.pieces, q.enterEndgame.eligible hasPiece i = true := by
  have hwf := PieceQueue.wf_enterEndgame h
  unfold canPick
  rw [decide_eq_true_eq]
  constructor
  · intro hne
    obtain ⟨i, hi⟩ := Finset.nonempty_iff_ne_empty.mpr hne
    exact ⟨i, PieceQueue.mem_candidates hwf hi⟩
  · intro ⟨i, hi, helig⟩
    exact PieceQueue.candidates_ne_empty hwf hi helig

/-- Availability has no part in what can be picked. -/
theorem PieceQueue.canPick_congr (h : q.Wf) (h' : q'.Wf) (hpieces : q'.pieces = q.pieces)
    (hdone : q'.done = q.done) (hpending : q'.pending = q.pending)
    (hmask : q'.skipMask = q.skipMask)
    (hend : q'.enterEndgame.endgame = q.enterEndgame.endgame) (hasPiece : Nat → Bool) :
    q'.canPick hasPiece = q.canPick hasPiece := by
  have helig : ∀ i, q'.enterEndgame.eligible hasPiece i = q.enterEndgame.eligible hasPiece i := by
    intro i
    unfold PieceQueue.eligible
    rw [hend]
    show (!decide (i ∈ q'.done) && (_ || !decide (i ∈ q'.pending)) && !inBitfield q'.skipMask i &&
      _) = _
    rw [hdone, hpending, hmask]
    rfl
  rw [Bool.eq_iff_iff, PieceQueue.canPick_iff h, PieceQueue.canPick_iff h', hpieces]
  simp only [helig]

theorem PieceQueue.enterEndgame_enterEndgame (q : PieceQueue) :
    q.enterEndgame.enterEndgame.endgame = q.enterEndgame.endgame := by
  unfold enterEndgame endgameThreshold
  simp only [Bool.or_assoc, Bool.or_self]

/-- Nothing to pick: whatever is drawn, `Pick` returns false. -/
theorem PieceQueue.pick_eq_none (h : q.canPick hasPiece = false) {draw : Option Nat}
    {res : Option PieceWork} (hpick : q.pick hasPiece draw = some (q', res)) : res = none := by
  have hempty : q.enterEndgame.candidates hasPiece = ∅ :=
    not_not.mp (of_decide_eq_false h)
  unfold PieceQueue.pick at hpick
  cases draw with
  | none =>
    rw [Option.ite_none_right_eq_some, Option.some_inj] at hpick
    exact (Prod.mk.inj hpick.2).2.symm
  | some idx =>
    rw [Option.ite_none_right_eq_some, hempty] at hpick
    exact absurd hpick.1 (Finset.notMem_empty idx)

end Picking

/-! ## Who looks after the waiting workers -/

section Watching

variable {sha1 : Bytes → Bytes} {peers : Nat → Nat → Bool} {s t : State} {a : Action} {w : Nat}
  {pc pc' : Pc}

def Watched (peers : Nat → Nat → Bool) (s : State) : Prop :=
  s.queue.waitToken = true ∨
    (∃ w : Nat, s.workers[w]? = some .top ∧ s.queue.canPick (peers w) = true) ∨
    (∃ w i, s.heldBy w = some i ∧ i ∉ s.queue.done) ∨
    ∀ w : Nat, s.workers[w]? = some .waiting → s.queue.canPick (peers w) = false

theorem getElem?_set_of_ne (ht : t.workers = s.workers.set w pc') {v : Nat} (hv : v ≠ w) :
    t.workers[v]? = s.workers[v]? := by
  rw [ht, List.getElem?_set_ne (Ne.symm hv)]

theorem getElem?_set_self (hpc : s.workers[w]? = some pc) (ht : t.workers = s.workers.set w pc') :
    t.workers[w]? = some pc' := by
  rw [ht, List.getElem?_set_self (List.getElem?_eq_some_iff.mp hpc).1]

/-- A step of `w` that takes nobody's watch: it was neither about to pick nor did it
hold an open piece, and it does not go to sleep over a piece it could pick. -/
theorem Watched.set (h : Watched peers s) (hpc : s.workers[w]? = some pc)
    (ht : t.workers = s.workers.set w pc')
    (htoken : s.queue.waitToken = true → t.queue.waitToken = true)
    (hpick : ∀ hasPiece, t.queue.canPick hasPiece = s.queue.canPick hasPiece)
    (hdone : t.queue.done = s.queue.done)
    (htop : pc = .top → s.queue.canPick (peers w) = false)
    (hpiece : ∀ i, pc.piece = some i → i ∈ s.queue.done)
    (hwaiting : pc' = .waiting → s.queue.canPick (peers w) = false) : Watched peers t := by
  obtain h | ⟨v, hv, hcan⟩ | ⟨v, i, hv, hi⟩ | h := h
  · exact .inl (htoken h)
  · have hvw : v ≠ w := by
      rintro rfl
      rw [hpc, Option.some_inj] at hv
      rw [htop hv] at hcan
      cases hcan
    exact .inr (.inl ⟨v, (getElem?_set_of_ne ht hvw).trans hv, (hpick _).trans hcan⟩)
  · have hvw : v ≠ w := by
      rintro rfl
      rw [heldBy_of_getElem? hpc] at hv
      exact hi (hpiece i hv)
    refine .inr (.inr (.inl ⟨v, i, ?_, hdone ▸ hi⟩))
    rw [heldBy_of_set hpc ht, if_neg hvw, hv]
  · refine .inr (.inr (.inr fun v hv => ?_))
    rw [hpick]
    by_cases hvw : v = w
    · subst hvw
      rw [getElem?_set_self hpc ht, Option.some_inj] at hv
      exact hwaiting hv
    · exact h v ((getElem?_set_of_ne ht hvw).symm.trans hv)

/-- The worker that takes the token watches over the others, if it can pick. -/
theorem Watched.woken (hpc : s.workers[w]? = some .waiting)
    (ht : t.workers = s.workers.set w .top)
    (hpick : ∀ hasPiece, t.queue.canPick hasPiece = s.queue.canPick hasPiece)
    (htaken : s.hasSleeper peers = true → s.queue.canPick (peers w) = true) : Watched peers t := by
  by_cases hsleeper : s.hasSleeper peers = true
  · exact .inr (.inl ⟨w, getElem?_set_self hpc ht, (hpick _).trans (htaken hsleeper)⟩)
  · refine .inr (.inr (.inr fun v hv => ?_))
    have hvw : v ≠ w := by
      rintro rfl
      rw [getElem?_set_self hpc ht] at hv
      cases hv
    rw [getElem?_set_of_ne ht hvw] at hv
    rw [hpick, Bool.eq_false_iff]
    intro hcan
    apply hsleeper
    unfold State.hasSleeper
    rw [List.any_eq_true]
    refine ⟨v, List.mem_range.mpr (List.getElem?_eq_some_iff.mp hv).1, ?_⟩
    rw [hcan, Bool.and_true]
    exact decide_eq_true hv

theorem Watched.worker {wa : WorkerAction} {res : Option PieceResult} (h : Watched peers s)
    (hwf : s.queue.Wf) (hoffers : Offers peers (.worker w wa))
    (htaken : TakenByPicker peers s (.worker w wa)) (hrunning : s.cancelled = false)
    (hpc : s.workers[w]? = some pc)
    (hmoves : WorkerMoves sha1 s.cancelled s.queue pc wa t.queue pc' res)
    (ht : t.workers = s.workers.set w pc') : Watched peers t := by
  generalize hq : t.queue = q' at hmoves
  cases hmoves with
  | picked hasPiece idx hcand =>
    have hidx := (PieceQueue.mem_candidates (PieceQueue.wf_enterEndgame hwf) hcand).1
    refine .inr (.inr (.inl ⟨w, idx, ?_, ?_⟩))
    · rw [heldBy_picked hwf hcand hpc ht, if_pos rfl]
    · rw [hq]
      exact hwf.done_disjoint idx hidx
  | foundNone hasPiece hcand =>
    have hown : hasPiece = peers w := hoffers
    have hcannot : s.queue.canPick (peers w) = false := by
      rw [← hown]
      exact decide_eq_false (not_not.mpr hcand)
    refine h.set hpc ht (by rw [hq]; exact id) ?_ (by rw [hq]; rfl) (fun _ => hcannot) nofun
      (fun _ => hcannot)
    rw [hq]
    exact PieceQueue.canPick_congr hwf (PieceQueue.wf_enterEndgame hwf) rfl rfl rfl rfl
      s.queue.enterEndgame_enterEndgame
  | woken htoken =>
    refine .woken hpc ht ?_ htaken
    rw [hq]
    exact PieceQueue.canPick_congr hwf (hwf.congr rfl rfl rfl rfl rfl) rfl rfl rfl rfl rfl
  | dropped _ _ i hpiece hdone =>
    refine h.set hpc ht (by rw [hq]; exact id) (by rw [hq]; exact fun _ => rfl) (by rw [hq]) ?_ ?_
      nofun
    · rintro rfl
      cases hpiece
    · intro j hj
      rw [hpiece, Option.some_inj] at hj
      exact hj ▸ hdone
  | kept _ _ _ i hpiece hpiece' hok =>
    by_cases hdone : i ∈ s.queue.done
    · refine h.set hpc ht (by rw [hq]; exact id) (by rw [hq]; exact fun _ => rfl) (by rw [hq])
        ?_ ?_ ?_
      · rintro rfl
        cases hpiece
      · intro j hj
        rw [hpiece, Option.some_inj] at hj
        exact hj ▸ hdone
      · rintro rfl
        cases hpiece'
    · refine .inr (.inr (.inl ⟨w, i, ?_, hq ▸ hdone⟩))
      rw [heldBy_of_set hpc ht, if_pos rfl, hpiece']
  | gaveBack pw =>
    refine .inl ?_
    rw [hq]
    rfl
  | completed pw data =>
    refine .inl ?_
    rw [hq]
    rfl
  | sent pw data =>
    exact h.set hpc ht (by rw [hq]; exact id) (by rw [hq]; exact fun _ => rfl) (by rw [hq]) nofun
      nofun nofun
  | stopped _ hpiece hcancelled =>
    rw [hrunning] at hcancelled
    cases hcancelled

/-- A worker more is at the top of its loop. -/
theorem Watched.spawn (h : Watched peers s) :
    Watched peers { s with workers := s.workers ++ [.top] } := by
  have hold : ∀ (v : Nat) (pc : Pc), s.workers[v]? = some pc →
      (s.workers ++ [Pc.top])[v]? = some pc := by
    intro v pc hv
    rw [List.getElem?_append_left (List.getElem?_eq_some_iff.mp hv).1]
    exact hv
  obtain h | ⟨v, hv, hcan⟩ | ⟨v, i, hv, hi⟩ | h := h
  · exact .inl h
  · exact .inr (.inl ⟨v, hold v .top hv, hcan⟩)
  · exact .inr (.inr (.inl ⟨v, i, (heldBy_spawn v).trans hv, hi⟩))
  · refine .inr (.inr (.inr fun v hv => h v ?_))
    have hv : (s.workers ++ [Pc.top])[v]? = some .waiting := hv
    rw [List.getElem?_append] at hv
    split_ifs at hv with hlt
    · exact hv
    · cases List.mem_singleton.mp (List.mem_of_getElem? hv)

/-- Of the calls from outside, those that could make a piece eligible signal, and the
other one changes the availability alone. -/
theorem Watched.queue (h : Watched peers s) (hwf : s.queue.Wf) (op : QueueOp) :
    Watched peers { s with queue := op.apply s.queue } := by
  cases op with
  | addPeerBitfield bf => exact .inl rfl
  | peerHave index =>
    refine .inl ?_
    show (s.queue.peerHave index).waitToken = true
    unfold PieceQueue.peerHave
    rfl
  | updateSkipMask mask => exact .inl rfl
  | removePeerBitfield bf =>
    have hwf' := PieceQueue.wf_removePeerBitfield hwf bf
    obtain ⟨av, bs, heq⟩ :=
      PieceQueue.foldl_shiftAvailability_eq (-1) (s.queue.peerPieces bf) s.queue
    have heq : s.queue.removePeerBitfield bf = _ := heq
    have hpick : ∀ hasPiece, (s.queue.removePeerBitfield bf).canPick hasPiece =
        s.queue.canPick hasPiece :=
      PieceQueue.canPick_congr hwf hwf' (by rw [heq]) (by rw [heq]) (by rw [heq]) (by rw [heq])
        (by rw [heq]; rfl)
    unfold Watched
    show (s.queue.removePeerBitfield bf).waitToken = true ∨
      (∃ w : Nat, s.workers[w]? = some .top ∧
        (s.queue.removePeerBitfield bf).canPick (peers w) = true) ∨
      (∃ w i, s.heldBy w = some i ∧ i ∉ (s.queue.removePeerBitfield bf).done) ∨
      ∀ w : Nat, s.workers[w]? = some .waiting →
        (s.queue.removePeerBitfield bf).canPick (peers w) = false
    simp only [hpick]
    rw [heq]
    exact h

/-- The queue is well formed, and until the download is cancelled the waiting workers
are watched over. -/
structure Attended (peers : Nat → Nat → Bool) (s : State) : Prop where
  owned : Owned s
  watched : s.cancelled = false → Watched peers s

theorem step_attended (h : Attended peers s) (hoffers : Offers peers a)
    (htaken : TakenByPicker peers s a) (hstep : step sha1 s a = some t) : Attended peers t := by
  refine ⟨step_owned h.owned hstep, fun hrunning => ?_⟩
  cases step_moves hstep with
  | worker w wa pc pc' res _ hpc hmoves ht hcancelled =>
    have hrunning : s.cancelled = false := hcancelled.symm.trans hrunning
    exact (h.watched hrunning).worker h.owned.wf hoffers htaken hrunning hpc hmoves ht
  | spawn => exact (h.watched hrunning).spawn
  | queue op => exact (h.watched hrunning).queue h.owned.wf op
  | consumer _ _ hqueue hworkers hcancelled =>
    have hrunning : s.cancelled = false := by
      rw [Bool.eq_false_iff] at hrunning ⊢
      exact fun hs => hrunning (hcancelled hs)
    have hwatched := h.watched hrunning
    unfold Watched State.heldBy at hwatched ⊢
    rw [hqueue, hworkers]
    exact hwatched

theorem Attended.noLostWakeUp (h : Attended peers s) : NoLostWakeUp peers s := by
  intro ⟨hrunning, htoken, hworkers⟩ w hw draw q res hpick
  -- asleep, nobody watches, so there is nothing to watch over
  have hidle : ∀ (v : Nat) pc, s.workers[v]? = some pc → pc = .waiting ∨ pc = .stopped :=
    fun v pc hv => hworkers pc (List.mem_of_getElem? hv)
  have hcannot : s.queue.canPick (peers w) = false := by
    obtain h | ⟨v, hv, -⟩ | ⟨v, i, hv, -⟩ | h := h.watched hrunning
    · rw [htoken] at h
      cases h
    · rcases hidle v _ hv with heq | heq <;> cases heq
    · obtain ⟨pc, hpc, hi⟩ := Option.bind_eq_some_iff.mp hv
      rcases hidle v pc hpc with rfl | rfl <;> cases hi
    · exact h w hw
  exact PieceQueue.pick_eq_none hcannot hpick

end Watching

/-- In every run of any number of workers, each with a peer of its own pieces, in
which the token is always taken by a worker that can pick a piece if one of the
waiting ones can: when all workers are asleep, none of them could pick a piece. -/
theorem noLostWakeUp_of_takenByPicker (sha1 : Bytes → Bytes) (pieces : List PieceWork)
    (skipMask : Option Bitfield) (totalPieces : Nat) (prioritizeFirstLast sequential : Bool)
    (remaining : Nat) (peers : Nat → Nat → Bool) (as : List Action) (s : State)
    (hoffers : ∀ a ∈ as, Offers peers a)
    (htaken : Guarded (step sha1) (TakenByPicker peers) (State.ofQueue
      (PieceQueue.new pieces skipMask totalPieces prioritizeFirstLast sequential) remaining) as)
    (hrun : exec (step sha1) (State.ofQueue
      (PieceQueue.new pieces skipMask totalPieces prioritizeFirstLast sequential) remaining) as =
        some s) : NoLostWakeUp peers s := by
  have hwf := PieceQueue.wf_new pieces skipMask totalPieces prioritizeFirstLast sequential
  have hstart : Attended peers (State.ofQueue
      (PieceQueue.new pieces skipMask totalPieces prioritizeFirstLast sequential) remaining) :=
    ⟨owned_ofQueue remaining hwf, fun _ => .inr (.inr (.inr nofun))⟩
  have hsteps : ∀ u a v, Attended peers u → TakenByPicker peers u a ∧ Offers peers a →
      step sha1 u a = some v → Attended peers v :=
    fun u a v hu hok hstep => step_attended hu hok.2 hok.1 hstep
  exact (exec_invariant hsteps hstart (htaken.and_of_mem hoffers) hrun).noLostWakeUp

/-- Two workers, the first with a peer that has the only piece and the second with
one that has none. -/
def onePeer (w i : Nat) : Bool := w == 0 && i == 0

def onePiece : State := .ofQueue (.new [⟨0, [7], 1⟩] none 1 false false) 1

def pickNone (w : Nat) : Action := .worker w (.pick (onePeer w) none)

/-- While the piece is skipped both workers go to sleep. -/
def skipAndSleep : List Action :=
  [Action.spawn, .spawn, .queue (.updateSkipMask (some ⟨[128]⟩)), pickNone 0, pickNone 1,
    .worker 0 .wake, pickNone 0]

/-- The first worker takes the signal and downloads the piece. -/
def wokenFirst : List Action :=
  skipAndSleep ++ [Action.queue (.updateSkipMask none), .worker 0 .wake,
    .worker 0 (.pick (onePeer 0) (some 0)), .worker 0 .checkDone, .worker 0 (.download [7]),
    .worker 0 .checkAgain, .worker 0 .complete, .worker 0 .send, pickNone 0, .worker 1 .wake,
    pickNone 1]

/-- The second worker takes the signal. -/
def wokenSecond : List Action :=
  skipAndSleep ++ [Action.queue (.updateSkipMask none), .worker 1 .wake, pickNone 1]

theorem noLostWakeUp_wokenFirst :
    ∃ s, exec (step id) onePiece wokenFirst = some s ∧ s.Asleep ∧ s.workers = [.waiting, .waiting] ∧
      NoLostWakeUp onePeer s := by
  have hoffers : ∀ a ∈ wokenFirst, Offers onePeer a := by
    simp [wokenFirst, skipAndSleep, pickNone, Offers]
  have htaken : Guarded (step id) (TakenByPicker onePeer) onePiece wokenFirst := by decide +kernel
  obtain ⟨s, hs, hasleep, hworkers⟩ : ∃ s, exec (step id) onePiece wokenFirst = some s ∧
      s.Asleep ∧ s.workers = [.waiting, .waiting] := by decide +kernel
  exact ⟨s, hs, hasleep, hworkers,
    noLostWakeUp_of_takenByPicker id [⟨0, [7], 1⟩] none 1 false false 1 onePeer wokenFirst s hoffers
      htaken hs⟩

/-- The worker whose peer has the piece sleeps on, with the token gone. -/
theorem not_noLostWakeUp_wokenSecond :
    (∀ a ∈ wokenSecond, Offers onePeer a) ∧
      ∃ s, exec (step id) onePiece wokenSecond = some s ∧ s.workers = [.waiting, .waiting] ∧
        ¬ NoLostWakeUp onePeer s := by
  refine ⟨by simp [wokenSecond, skipAndSleep, pickNone, Offers], ?_⟩
  obtain ⟨s, hs, hasleep, hworkers, ⟨q, res⟩, hpick, hres⟩ : ∃ s,
      exec (step id) onePiece wokenSecond = some s ∧ s.Asleep ∧ s.workers = [.waiting, .waiting] ∧
        ∃ r, s.queue.pick (onePeer 0) (some 0) = some r ∧ r.2.isSome = true := by decide +kernel
  refine ⟨s, hs, hworkers, fun hno => ?_⟩
  rw [hno hasleep 0 (by rw [hworkers]; rfl) (some 0) q res hpick] at hres
  cases hres


end Stor.Download
