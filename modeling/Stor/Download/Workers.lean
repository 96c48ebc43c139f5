import Stor.Lib.Run
import Stor.Download.QueueInvariant

/-!
# Workers and the result loop

`runWorkers` and the result loop of `DownloadWithParams` in
`download/download.go`, as a system of one step for each critical section.  A
peer worker and a web seed worker run the same loop and differ only in the pieces
they offer to `Pick`, which is an argument of that step, so a worker here stands
for either.  Calls that other goroutines make on the queue may come between any
two steps.

The loop of a worker asks `IsDone` and calls `Complete` in two critical sections.
`exec_inv` says what every run keeps in which no `Complete` finds its piece
done already.
-/

namespace Stor.Download

open Lib Peer Storage

structure PieceResult where
  index : Nat
  data : Bytes
  deriving DecidableEq, Repr

/-- Where a worker is in its loop, with what it holds there. -/
inductive Pc where
  | top
  | waiting
  | picked (pw : PieceWork)
  | downloading (pw : PieceWork)
  | failed (pw : PieceWork)
  | downloaded (pw : PieceWork) (data : Bytes)
  | checked (pw : PieceWork) (data : Bytes)
  | completed (pw : PieceWork) (data : Bytes)
  | stopped
  deriving DecidableEq, Repr

inductive WorkerAction where
  | pick (hasPiece : Nat → Bool) (draw : Option Nat)
  | wake
  | checkDone
  | download (data : Bytes)
  | downloadFail
  | giveBack
  | checkAgain
  | complete
  | send
  | stop

/-- The data `DownloadPiece` accepts for a piece. -/
def ValidData (sha1 : Bytes → Bytes) (pw : PieceWork) (data : Bytes) : Prop :=
  (data.length : Int) = pw.length ∧ sha1 data = pw.hash

instance (sha1 : Bytes → Bytes) (pw : PieceWork) (data : Bytes) :
    Decidable (ValidData sha1 pw data) := inferInstanceAs (Decidable (_ ∧ _))

/-- One step of a worker: the queue and the place in the loop after it, and a
result it puts on the channel. -/
def workerStep (sha1 : Bytes → Bytes) (cancelled : Bool) (q : PieceQueue) :
    Pc → WorkerAction → Option (PieceQueue × Pc × Option PieceResult)
  | .top, .pick hasPiece draw =>
    match q.pick hasPiece draw with
    | none => none
    | some (q', some pw) => some (q', .picked pw, none)
    | some (q', none) => some (q', .waiting, none)
  | .waiting, .wake => if q.waitToken then some ({ q with waitToken := false }, .top, none) else none
  | .picked pw, .checkDone => some (q, if q.isDone pw.index then .top else .downloading pw, none)
  | .downloading pw, .download data =>
    if ValidData sha1 pw data then some (q, .downloaded pw data, none) else none
  | .downloading pw, .downloadFail => some (q, .failed pw, none)
  | .failed pw, .giveBack => some (q.giveBack pw, .stopped, none)
  | .downloaded pw data, .checkAgain =>
    some (q, if q.isDone pw.index then .top else .checked pw data, none)
  | .checked pw data, .complete => some (q.complete pw.index, .completed pw data, none)
  | .completed pw data, .send => some (q, .top, some ⟨pw.index, data⟩)
  | .top, .stop => if cancelled then some (q, .stopped, none) else none
  | .waiting, .stop => if cancelled then some (q, .stopped, none) else none
  | .completed _ _, .stop => if cancelled then some (q, .stopped, none) else none
  | _, _ => none

/-- Calls on the queue from outside the loops. -/
inductive QueueOp where
  | addPeerBitfield (bf : Option Bitfield)
  | removePeerBitfield (bf : Option Bitfield)
  | peerHave (index : Nat)
  | updateSkipMask (mask : Option Bitfield)

def QueueOp.apply (q : PieceQueue) : QueueOp → PieceQueue
  | .addPeerBitfield bf => q.addPeerBitfield bf
  | .removePeerBitfield bf => q.removePeerBitfield bf
  | .peerHave index => q.peerHave index
  | .updateSkipMask mask => q.updateSkipMask mask

/-- `DownloadWithParams` still runs, returned nil, or returned an error. -/
inductive Status where
  | running
  | success
  | failed
  deriving DecidableEq, Repr

/-- `sent` is every result ever put on the channel and `written` every result
that was taken out and written with `WriteAt`. -/
structure State where
  queue : PieceQueue
  workers : List Pc
  resultCh : List PieceResult
  sent : List PieceResult
  written : List PieceResult
  remaining : Nat
  completed : Nat
  status : Status
  cancelled : Bool

inductive Action where
  | spawn
  | queue (op : QueueOp)
  | worker (w : Nat) (a : WorkerAction)
  | cancel
  | receive
  | writeFail
  | finish
  | abort
  | closed

def resultCap : Nat := 64

/-- A worker's step in the whole system; a send needs room on the channel. -/
def State.workerTo (s : State) (w : Nat) (q : PieceQueue) (pc : Pc) (res : Option PieceResult) :
    Option State :=
  match res with
  | none => some { s with queue := q, workers := s.workers.set w pc }
  | some r =>
    if s.resultCh.length < resultCap then
      some { s with
        queue := q
        workers := s.workers.set w pc
        resultCh := s.resultCh ++ [r]
        sent := s.sent ++ [r] }
    else none

def step (sha1 : Bytes → Bytes) (s : State) : Action → Option State
  | .spawn => some { s with workers := s.workers ++ [.top] }
  | .queue op => some { s with queue := op.apply s.queue }
  | .worker w a =>
    match s.workers[w]? with
    | none => none
    | some pc =>
      match workerStep sha1 s.cancelled s.queue pc a with
      | none => none
      | some (q, pc', res) => s.workerTo w q pc' res
  | .cancel => some { s with cancelled := true }
  | .receive =>
    if s.status = .running ∧ s.completed < s.remaining then
      match s.resultCh with
      | [] => none
      | r :: rest => some { s with
          resultCh := rest
          written := s.written ++ [r]
          completed := s.completed + 1 }
    else none
  | .writeFail =>
    if s.status = .running ∧ s.completed < s.remaining ∧ s.resultCh ≠ [] then
      some { s with resultCh := s.resultCh.tail, status := .failed }
    else none
  | .finish =>
    if s.status = .running ∧ ¬ s.completed < s.remaining then some { s with status := .success }
    else none
  | .abort =>
    if s.status = .running ∧ s.completed < s.remaining ∧ s.cancelled then
      some { s with status := .failed }
    else none
  | .closed =>
    if s.status = .running ∧ s.completed < s.remaining ∧ s.resultCh = [] ∧
        ∀ pc ∈ s.workers, pc = .stopped then
      some { s with status := .failed }
    else none

/-- Everything that a step can do, with what it finds. -/
inductive Steps (sha1 : Bytes → Bytes) (s : State) : Action → State → Prop where
  | spawn : Steps sha1 s .spawn { s with workers := s.workers ++ [.top] }
  | queue (op : QueueOp) : Steps sha1 s (.queue op) { s with queue := op.apply s.queue }
  | worker (w : Nat) (a : WorkerAction) (pc pc' : Pc) (q' : PieceQueue) (res : Option PieceResult)
      (t : State) (hpc : s.workers[w]? = some pc)
      (hworker : workerStep sha1 s.cancelled s.queue pc a = some (q', pc', res))
      (hto : s.workerTo w q' pc' res = some t) : Steps sha1 s (.worker w a) t
  | cancel : Steps sha1 s .cancel { s with cancelled := true }
  | receive (r : PieceResult) (rest : List PieceResult) (hrunning : s.status = .running)
      (hch : s.resultCh = r :: rest) :
      Steps sha1 s .receive
        { s with resultCh := rest, written := s.written ++ [r], completed := s.completed + 1 }
  | finish (hrunning : s.status = .running) (hdone : ¬ s.completed < s.remaining) :
      Steps sha1 s .finish { s with status := .success }
  | fails (a : Action) (ha : a = .writeFail ∨ a = .abort ∨ a = .closed)
      (rest : List PieceResult) : Steps sha1 s a { s with resultCh := rest, status := .failed }

theorem steps_of_step {sha1 : Bytes → Bytes} {s t : State} {a : Action}
    (h : step sha1 s a = some t) : Steps sha1 s a t := by
  cases a with
  | spawn => exact Option.some_inj.mp h ▸ .spawn
  | queue op => exact Option.some_inj.mp h ▸ .queue op
  | cancel => exact Option.some_inj.mp h ▸ .cancel
  | worker w a =>
    unfold step at h
    dsimp only at h
    split at h
    · cases h
    next pc hpc =>
    split at h
    · cases h
    next q' pc' res hworker => exact .worker w a pc pc' q' res t hpc hworker h
  | receive =>
    unfold step at h
    rw [Option.ite_none_right_eq_some] at h
    obtain ⟨hrunning, h⟩ := h
    split at h
    · cases h
    next r rest hch => exact Option.some_inj.mp h ▸ .receive r rest hrunning.1 hch
  | finish =>
    unfold step at h
    rw [Option.ite_none_right_eq_some, Option.some_inj] at h
    exact h.2 ▸ .finish h.1.1 h.1.2
  | writeFail | abort | closed =>
    unfold step at h
    rw [Option.ite_none_right_eq_some, Option.some_inj] at h
    exact h.2 ▸ .fails _ (by simp) _

theorem workerTo_eq {s t : State} {w : Nat} {q : PieceQueue} {pc : Pc} {res : Option PieceResult}
    (h : s.workerTo w q pc res = some t) :
    t = { s with
      queue := q
      workers := s.workers.set w pc
      resultCh := s.resultCh ++ res.toList
      sent := s.sent ++ res.toList } := by
  unfold State.workerTo at h
  cases res with
  | none => rw [← Option.some_inj.mp h, Option.toList_none, List.append_nil, List.append_nil]
  | some r =>
    rw [Option.ite_none_right_eq_some, Option.some_inj] at h
    exact h.2.symm

/-- Only the consumer writes. -/
theorem step_written {sha1 : Bytes → Bytes} {s t : State} {a : Action} (ha : a ≠ .receive)
    (h : step sha1 s a = some t) : t.written = s.written := by
  cases steps_of_step h with
  | receive r rest hrunning hch => exact absurd rfl ha
  | worker w a pc pc' q' res _ hpc hworker hto => rw [workerTo_eq hto]
  | spawn | queue | cancel | finish | fails => rfl

theorem step_receive {sha1 : Bytes → Bytes} {s t : State} {r : PieceResult}
    {rest : List PieceResult} (hch : s.resultCh = r :: rest) (h : step sha1 s .receive = some t) :
    t.written = s.written ++ [r] := by
  cases steps_of_step h with
  | receive r' rest' hrunning hch' =>
    obtain ⟨rfl, -⟩ := List.cons.inj (hch.symm.trans hch')
    rfl
  | fails _ ha => rcases ha with ha | ha | ha <;> cases ha

/-- The state in which `DownloadWithParams` enters its loop, without workers. -/
def start (info : Torrent.Info) (haveBF skipMask : Option Bitfield)
    (prioritizeFirstLast sequential : Bool) : State :=
  let pieces := pieceList info haveBF skipMask
  { queue := PieceQueue.new pieces skipMask (numPieces info) prioritizeFirstLast sequential
    workers := []
    resultCh := []
    sent := []
    written := []
    remaining := pieces.length
    completed := 0
    status := .running
    cancelled := false }

/-- The loop over `remaining` results of a queue, without workers. -/
def State.ofQueue (queue : PieceQueue) (remaining : Nat) : State where
  queue := queue
  workers := []
  resultCh := []
  sent := []
  written := []
  remaining := remaining
  completed := 0
  status := .running
  cancelled := false

/-! ## What a run keeps -/

section Invariant

variable (sha1 : Bytes → Bytes) (pieces : List PieceWork)

/-- A worker holds a queued piece, with data that passed its checks; behind
`Complete` the piece is done. -/
def PcOk (done : Finset Nat) : Pc → Prop
  | .top => True
  | .waiting => True
  | .picked pw => pw ∈ pieces
  | .downloading pw => pw ∈ pieces
  | .failed pw => pw ∈ pieces
  | .downloaded pw data => pw ∈ pieces ∧ ValidData sha1 pw data
  | .checked pw data => pw ∈ pieces ∧ ValidData sha1 pw data
  | .completed pw data => pw ∈ pieces ∧ ValidData sha1 pw data ∧ pw.index ∈ done
  | .stopped => True

/-- The index of a result that is about to be sent. -/
def Pc.held : Pc → Option Nat
  | .completed pw _ => some pw.index
  | _ => none

/-- A result of the download of a queued piece. -/
def ResultOk (done : Finset Nat) (r : PieceResult) : Prop :=
  r.index ∈ done ∧ ∃ pw ∈ pieces, pw.index = r.index ∧ ValidData sha1 pw r.data

/-- The indices sent and about to be sent. -/
def State.emitted (s : State) : List Nat :=
  s.sent.map PieceResult.index ++ s.workers.filterMap Pc.held

structure Inv (s : State) : Prop where
  wf : s.queue.Wf
  known : ∀ i, i ∈ s.queue.pieces ∨ i ∈ s.queue.done ↔ i ∈ pieces.map PieceWork.index
  queued : ∀ i pw, s.queue.pieces.lookup i = some pw → pw ∈ pieces
  workers : ∀ pc ∈ s.workers, PcOk sha1 pieces s.queue.done pc
  sent : ∀ r ∈ s.sent, ResultOk sha1 pieces s.queue.done r
  nodup : s.emitted.Nodup
  fifo : s.status ≠ .failed → s.written ++ s.resultCh = s.sent
  count : s.completed = s.written.length
  total : s.remaining = pieces.length
  success : s.status = .success → s.remaining ≤ s.completed

/-- The part of the invariant that holds with and without the race: what the
queue, the workers and the channel have, and the two counters. -/
structure Tallied (s : State) : Prop where
  wf : s.queue.Wf
  known : ∀ i, i ∈ s.queue.pieces ∨ i ∈ s.queue.done ↔ i ∈ pieces.map PieceWork.index
  queued : ∀ i pw, s.queue.pieces.lookup i = some pw → pw ∈ pieces
  workers : ∀ pc ∈ s.workers, PcOk sha1 pieces s.queue.done pc
  sent : ∀ r ∈ s.sent, ResultOk sha1 pieces s.queue.done r
  count : s.completed = s.written.length
  total : s.remaining = pieces.length

/-- The piece that a worker has picked, until it returns, completes or drops it. -/
def Pc.piece : Pc → Option Nat
  | .picked pw | .downloading pw | .failed pw | .downloaded pw _ | .checked pw _ => some pw.index
  | _ => none

/-- Everything that a worker's step can do. -/
inductive WorkerMoves (cancelled : Bool) (q : PieceQueue) :
    Pc → WorkerAction → PieceQueue → Pc → Option PieceResult → Prop where
  | picked (hasPiece : Nat → Bool) (idx : Nat) (h : idx ∈ q.enterEndgame.candidates hasPiece) :
      WorkerMoves cancelled q .top (.pick hasPiece (some idx))
        { q.enterEndgame with pending := insert idx q.pending } (.picked (q.pieceAt idx)) none
  | foundNone (hasPiece : Nat → Bool) (h : q.enterEndgame.candidates hasPiece = ∅) :
      WorkerMoves cancelled q .top (.pick hasPiece none) q.enterEndgame .waiting none
  | woken (h : q.waitToken = true) :
      WorkerMoves cancelled q .waiting .wake { q with waitToken := false } .top none
  -- both calls of `IsDone`
  | dropped (pc : Pc) (a : WorkerAction) (i : Nat) (hpc : pc.piece = some i) (h : i ∈ q.done) :
      WorkerMoves cancelled q pc a q .top none
  | kept (pc pc' : Pc) (a : WorkerAction) (i : Nat) (hpc : pc.piece = some i)
      (hpc' : pc'.piece = some i) (hok : ∀ ps, PcOk sha1 ps q.done pc → PcOk sha1 ps q.done pc') :
      WorkerMoves cancelled q pc a q pc' none
  | gaveBack (pw : PieceWork) :
      WorkerMoves cancelled q (.failed pw) .giveBack (q.giveBack pw) .stopped none
  | completed (pw : PieceWork) (data : Bytes) :
      WorkerMoves cancelled q (.checked pw data) .complete (q.complete pw.index)
        (.completed pw data) none
  | sent (pw : PieceWork) (data : Bytes) :
      WorkerMoves cancelled q (.completed pw data) .send q .top (some ⟨pw.index, data⟩)
  | stopped (pc : Pc) (hpc : pc.piece = none) (h : cancelled = true) :
      WorkerMoves cancelled q pc .stop q .stopped none

/-- What a step of the system does to the queue and to the workers. -/
inductive SystemMoves (s : State) : Action → State → Prop where
  | worker (w : Nat) (a : WorkerAction) (pc pc' : Pc) (res : Option PieceResult) (t : State)
      (hpc : s.workers[w]? = some pc)
      (hmoves : WorkerMoves sha1 s.cancelled s.queue pc a t.queue pc' res)
      (hworkers : t.workers = s.workers.set w pc') (hcancelled : t.cancelled = s.cancelled) :
      SystemMoves s (.worker w a) t
  | spawn : SystemMoves s .spawn { s with workers := s.workers ++ [.top] }
  | queue (op : QueueOp) : SystemMoves s (.queue op) { s with queue := op.apply s.queue }
  | consumer (a : Action) (t : State) (hqueue : t.queue = s.queue)
      (hworkers : t.workers = s.workers) (hcancelled : s.cancelled = true → t.cancelled = true) :
      SystemMoves s a t

/-- The three kinds of worker steps, as far as the invariant sees them: a
`Complete`, a send, and the others. -/
inductive StepKind (q : PieceQueue) (pc : Pc) : PieceQueue → Pc → Option PieceResult → Prop where
  | complete (pw : PieceWork) (data : Bytes) (h : pc = .checked pw data) :
      StepKind q pc (q.complete pw.index) (.completed pw data) none
  | send (pw : PieceWork) (data : Bytes) (h : pc = .completed pw data) :
      StepKind q pc q .top (some ⟨pw.index, data⟩)
  | other (q' : PieceQueue) (pc' : Pc) (hheld : pc'.held = none) (hwf : q'.Wf)
      (hp : q'.pieces = q.pieces) (hd : q'.done = q.done) (hok : PcOk sha1 pieces q.done pc') :
      StepKind q pc q' pc' none

variable {sha1 pieces}

theorem Inv.tallied {s : State} (h : Inv sha1 pieces s) : Tallied sha1 pieces s :=
  ⟨h.wf, h.known, h.queued, h.workers, h.sent, h.count, h.total⟩

theorem Tallied.inv {s : State} (h : Tallied sha1 pieces s) (hnodup : s.emitted.Nodup)
    (hfifo : s.status ≠ .failed → s.written ++ s.resultCh = s.sent)
    (hsuccess : s.status = .success → s.remaining ≤ s.completed) : Inv sha1 pieces s :=
  ⟨h.wf, h.known, h.queued, h.workers, h.sent, hnodup, hfifo, h.count, h.total, hsuccess⟩

theorem PcOk.mono {done done' : Finset Nat} (h : done ⊆ done') {pc : Pc}
    (hpc : PcOk sha1 pieces done pc) : PcOk sha1 pieces done' pc := by
  cases pc with
  | completed pw data => exact ⟨hpc.1, hpc.2.1, h hpc.2.2⟩
  | top | waiting | picked | downloading | failed | downloaded | checked | stopped => exact hpc

theorem ResultOk.mono {done done' : Finset Nat} (h : done ⊆ done') {r : PieceResult}
    (hr : ResultOk sha1 pieces done r) : ResultOk sha1 pieces done' r := ⟨h hr.1, hr.2⟩

theorem workerStep_moves {cancelled : Bool} {q q' : PieceQueue} {pc pc' : Pc} {a : WorkerAction}
    {res : Option PieceResult} (h : workerStep sha1 cancelled q pc a = some (q', pc', res)) :
    WorkerMoves sha1 cancelled q pc a q' pc' res := by
  -- the two checks of `IsDone` go to the top of the loop or on with the piece
  have hcheck : ∀ (pc₁ : Pc) (i : Nat), pc.piece = some i → pc₁.piece = some i →
      (∀ ps, PcOk sha1 ps q.done pc → PcOk sha1 ps q.done pc₁) →
      WorkerMoves sha1 cancelled q pc a q (if q.isDone i then .top else pc₁) none := by
    intro pc₁ i hpc hpc₁ hok
    by_cases hdone : q.isDone i
    · rw [if_pos hdone]
      exact .dropped pc a i hpc (of_decide_eq_true hdone)
    · rw [if_neg hdone]
      exact .kept pc pc₁ a i hpc hpc₁ hok
  unfold workerStep at h
  split at h
  · next hasPiece draw =>
    unfold PieceQueue.pick at h
    cases draw with
    | none =>
      by_cases hcand : q.enterEndgame.candidates hasPiece = ∅
      · simp only [if_pos hcand, Option.some_inj, Prod.mk.injEq] at h
        obtain ⟨rfl, rfl, rfl⟩ := h
        exact .foundNone hasPiece hcand
      · simp [if_neg hcand] at h
    | some idx =>
      by_cases hcand : idx ∈ q.enterEndgame.candidates hasPiece
      · simp only [if_pos hcand, Option.some_inj, Prod.mk.injEq] at h
        obtain ⟨rfl, rfl, rfl⟩ := h
        exact .picked hasPiece idx hcand
      · simp [if_neg hcand] at h
  · simp only [Option.ite_none_right_eq_some, Option.some_inj, Prod.mk.injEq] at h
    obtain ⟨htoken, rfl, rfl, rfl⟩ := h
    exact .woken htoken
  · next pw =>
    simp only [Option.some_inj, Prod.mk.injEq] at h
    obtain ⟨rfl, rfl, rfl⟩ := h
    exact hcheck (.downloading pw) pw.index rfl rfl fun _ hpc => hpc
  · next pw data =>
    simp only [Option.ite_none_right_eq_some, Option.some_inj, Prod.mk.injEq] at h
    obtain ⟨hvalid, rfl, rfl, rfl⟩ := h
    exact .kept _ _ _ pw.index rfl rfl fun _ hpc => ⟨hpc, hvalid⟩
  · next pw =>
    simp only [Option.some_inj, Prod.mk.injEq] at h
    obtain ⟨rfl, rfl, rfl⟩ := h
    exact .kept _ _ _ pw.index rfl rfl fun _ hpc => hpc
  · next pw =>
    simp only [Option.some_inj, Prod.mk.injEq] at h
    obtain ⟨rfl, rfl, rfl⟩ := h
    exact .gaveBack pw
  · next pw data =>
    simp only [Option.some_inj, Prod.mk.injEq] at h
    obtain ⟨rfl, rfl, rfl⟩ := h
    exact hcheck (.checked pw data) pw.index rfl rfl fun _ hpc => hpc
  · next pw data =>
    simp only [Option.some_inj, Prod.mk.injEq] at h
    obtain ⟨rfl, rfl, rfl⟩ := h
    exact .completed pw data
  · next pw data =>
    simp only [Option.some_inj, Prod.mk.injEq] at h
    obtain ⟨rfl, rfl, rfl⟩ := h
    exact .sent pw data
  · simp only [Option.ite_none_right_eq_some, Option.some_inj, Prod.mk.injEq] at h
    obtain ⟨hcancelled, rfl, rfl, rfl⟩ := h
    exact .stopped .top rfl hcancelled
  · simp only [Option.ite_none_right_eq_some, Option.some_inj, Prod.mk.injEq] at h
    obtain ⟨hcancelled, rfl, rfl, rfl⟩ := h
    exact .stopped .waiting rfl hcancelled
  · simp only [Option.ite_none_right_eq_some, Option.some_inj, Prod.mk.injEq] at h
    obtain ⟨hcancelled, rfl, rfl, rfl⟩ := h
    exact .stopped (.completed _ _) rfl hcancelled
  · simp at h

theorem step_moves {s t : State} {a : Action} (h : step sha1 s a = some t) :
    SystemMoves sha1 s a t := by
  cases steps_of_step h with
  | spawn => exact .spawn
  | queue op => exact .queue op
  | worker w a pc pc' q' res _ hpc hworker hto =>
    have hmoves := workerStep_moves hworker
    rw [workerTo_eq hto]
    exact .worker w a pc pc' res _ hpc hmoves rfl rfl
  | cancel => exact .consumer _ _ rfl rfl fun _ => rfl
  | receive | finish | fails => exact .consumer _ _ rfl rfl id

/-- A worker that holds a piece has no result to send. -/
theorem held_of_piece {pc : Pc} {i : Nat} (h : pc.piece = some i) : pc.held = none := by
  cases pc with
  | completed pw data => cases h
  | top | waiting | picked | downloading | failed | downloaded | checked | stopped => rfl

theorem WorkerMoves.kind {cancelled : Bool} {q q' : PieceQueue} {pc pc' : Pc} {a : WorkerAction}
    {res : Option PieceResult} (hwf : q.Wf)
    (hq : ∀ i pw, q.pieces.lookup i = some pw → pw ∈ pieces) (hpc : PcOk sha1 pieces q.done pc)
    (h : WorkerMoves sha1 cancelled q pc a q' pc' res) :
    StepKind sha1 pieces q pc q' pc' res := by
  cases h with
  | picked hasPiece idx hcand =>
    have hidx := (PieceQueue.mem_candidates (PieceQueue.wf_enterEndgame hwf) hcand).1
    have hlook := (PieceQueue.pieceAt_index hwf hidx).2
    exact .other _ _ rfl (hwf.congr rfl rfl rfl rfl rfl) rfl rfl (hq idx _ hlook)
  | foundNone hasPiece hcand =>
    exact .other _ _ rfl (PieceQueue.wf_enterEndgame hwf) rfl rfl trivial
  | woken htoken => exact .other _ _ rfl (hwf.congr rfl rfl rfl rfl rfl) rfl rfl trivial
  | dropped _ _ i hpiece hdone => exact .other _ _ rfl hwf rfl rfl trivial
  | kept _ _ _ i hpiece hpiece' hok =>
    exact .other _ _ (held_of_piece hpiece') hwf rfl rfl (hok pieces hpc)
  | gaveBack pw => exact .other _ _ rfl (PieceQueue.wf_giveBack hwf pw) rfl rfl trivial
  | completed pw data => exact .complete pw data rfl
  | sent pw data => exact .send pw data rfl
  | stopped _ hpiece hcancelled => exact .other _ _ rfl hwf rfl rfl trivial

theorem Tallied.stepKind {s : State} {w : Nat} {pc pc' : Pc} {a : WorkerAction} {q' : PieceQueue}
    {res : Option PieceResult} (h : Tallied sha1 pieces s) (hpc : s.workers[w]? = some pc)
    (hworker : workerStep sha1 s.cancelled s.queue pc a = some (q', pc', res)) :
    StepKind sha1 pieces s.queue pc q' pc' res :=
  (workerStep_moves hworker).kind h.wf h.queued (h.workers pc (List.mem_of_getElem? hpc))

/-- Replacing one worker, up to the order of the others. -/
theorem workers_perm {ws : List Pc} {w : Nat} {pc : Pc} (h : ws[w]? = some pc) (pc' : Pc) :
    ∃ rest, ws.Perm (pc :: rest) ∧ (ws.set w pc').Perm (pc' :: rest) := by
  obtain ⟨hw, hpc⟩ := List.getElem?_eq_some_iff.mp h
  refine ⟨ws.eraseIdx w, ?_, List.set_perm_cons_eraseIdx hw pc'⟩
  rw [← hpc]
  exact (List.getElem_cons_eraseIdx_perm hw).symm

theorem mem_workers_set {ws : List Pc} {w : Nat} {pc pc' : Pc} (h : pc ∈ ws.set w pc') :
    pc = pc' ∨ pc ∈ ws := (List.mem_or_eq_of_mem_set h).symm

/-- A piece moves from the queue to the done ones, or was there already. -/
theorem known_complete {q : PieceQueue} {index : Nat} {is : List Nat}
    (h : ∀ i, i ∈ q.pieces ∨ i ∈ q.done ↔ i ∈ is) (hmem : index ∈ is) (i : Nat) :
    i ∈ (q.complete index).pieces ∨ i ∈ (q.complete index).done ↔ i ∈ is := by
  show i ∈ q.pieces.erase index ∨ i ∈ insert index q.done ↔ _
  rw [AList.mem_erase, Finset.mem_insert, ← h i]
  constructor
  · rintro (⟨-, hi⟩ | hi | hi)
    · exact .inl hi
    · rw [hi]
      exact (h index).mpr hmem
    · exact .inr hi
  · intro hi
    by_cases hne : i = index
    · exact .inr (.inl hne)
    · exact hi.imp (fun hi => ⟨hne, hi⟩) .inr

theorem Tallied.of_workerTo {s t : State} {w : Nat} {pc pc' : Pc} {q' : PieceQueue}
    {res : Option PieceResult} (h : Tallied sha1 pieces s) (hpc : s.workers[w]? = some pc)
    (hkind : StepKind sha1 pieces s.queue pc q' pc' res)
    (ht : s.workerTo w q' pc' res = some t) : Tallied sha1 pieces t := by
  have hpcok := h.workers pc (List.mem_of_getElem? hpc)
  cases hkind with
  | complete pw data hpc' =>
    subst hpc'
    unfold State.workerTo at ht
    simp only [Option.some_inj] at ht
    subst ht
    have hsub : s.queue.done ⊆ insert pw.index s.queue.done := Finset.subset_insert _ _
    have hmem : pw.index ∈ pieces.map PieceWork.index := List.mem_map_of_mem hpcok.1
    refine ⟨PieceQueue.wf_complete h.wf pw.index, known_complete h.known hmem, ?_, ?_, ?_,
      h.count, h.total⟩
    · intro i pw' hi
      have hi' : (s.queue.pieces.erase pw.index).lookup i = some pw' := hi
      by_cases hne : i = pw.index
      · rw [hne, AList.lookup_erase] at hi'
        exact absurd hi'.symm (Option.some_ne_none pw')
      · rw [AList.lookup_erase_ne hne] at hi'
        exact h.queued i pw' hi'
    · intro pc₁ hpc₁
      rcases mem_workers_set hpc₁ with heq | hmem₁
      · subst heq
        exact ⟨hpcok.1, hpcok.2, Finset.mem_insert_self _ _⟩
      · exact (h.workers pc₁ hmem₁).mono hsub
    · intro r hr
      exact (h.sent r hr).mono hsub
  | send pw data hpc' =>
    subst hpc'
    unfold State.workerTo at ht
    simp only [Option.ite_none_right_eq_some, Option.some_inj] at ht
    obtain ⟨-, rfl⟩ := ht
    refine ⟨h.wf, h.known, h.queued, ?_, ?_, h.count, h.total⟩
    · intro pc₁ hpc₁
      rcases mem_workers_set hpc₁ with heq | hmem₁
      · subst heq
        trivial
      · exact h.workers pc₁ hmem₁
    · intro r hr
      rcases List.mem_append.mp hr with hr | hr
      · exact h.sent r hr
      · rw [List.mem_singleton.mp hr]
        exact ⟨hpcok.2.2, pw, hpcok.1, rfl, hpcok.2.1⟩
  | other q₁ pc₁ hnone hwf hp hd hok =>
    unfold State.workerTo at ht
    simp only [Option.some_inj] at ht
    subst ht
    refine ⟨hwf, ?_, ?_, ?_, ?_, h.count, h.total⟩
    · show ∀ i, i ∈ q'.pieces ∨ i ∈ q'.done ↔ _
      rw [hp, hd]
      exact h.known
    · show ∀ i pw, q'.pieces.lookup i = some pw → _
      rw [hp]
      exact h.queued
    · show ∀ pc ∈ s.workers.set w pc', PcOk sha1 pieces q'.done pc
      rw [hd]
      intro pc₂ hpc₂
      rcases mem_workers_set hpc₂ with heq | hmem₂
      · subst heq
        exact hok
      · exact h.workers pc₂ hmem₂
    · show ∀ r ∈ s.sent, ResultOk sha1 pieces q'.done r
      rw [hd]
      exact h.sent

/-- A piece that is not done is neither sent nor about to be sent. -/
theorem Tallied.notMem_emitted {s : State} (h : Tallied sha1 pieces s) {i : Nat}
    (hnew : i ∉ s.queue.done) : i ∉ s.emitted := by
  intro hin
  rcases List.mem_append.mp hin with hin | hin
  · obtain ⟨r, hr, heq⟩ := List.mem_map.mp hin
    exact hnew (heq ▸ (h.sent r hr).1)
  · obtain ⟨pc, hpc, heq⟩ := List.mem_filterMap.mp hin
    have hok := h.workers pc hpc
    cases pc with
    | completed pw data =>
      have : pw.index = i := Option.some_inj.mp heq
      exact hnew (this ▸ hok.2.2)
    | top | waiting | picked | downloading | failed | downloaded | checked | stopped =>
      exact absurd heq (Option.some_ne_none _).symm

/-- A worker's step emits no index twice, provided that what it completes is not
done. -/
theorem Inv.of_workerTo {s t : State} {w : Nat} {pc pc' : Pc} {q' : PieceQueue}
    {res : Option PieceResult} (h : Inv sha1 pieces s) (hpc : s.workers[w]? = some pc)
    (hkind : StepKind sha1 pieces s.queue pc q' pc' res)
    (hrace : ∀ pw data, pc = .checked pw data → pw.index ∉ s.queue.done)
    (ht : s.workerTo w q' pc' res = some t) : Inv sha1 pieces t := by
  have htallied := h.tallied.of_workerTo hpc hkind ht
  obtain ⟨rest, hperm, hperm'⟩ := workers_perm hpc pc'
  have hheld := hperm.filterMap Pc.held
  have hheld' := hperm'.filterMap Pc.held
  have hemitted : s.emitted.Perm
      (s.sent.map PieceResult.index ++ (pc :: rest).filterMap Pc.held) :=
    List.Perm.append_left _ hheld
  have hnodup := hemitted.nodup_iff.mp h.nodup
  cases hkind with
  | complete pw data hpc' =>
    subst hpc'
    unfold State.workerTo at ht
    simp only [Option.some_inj] at ht
    subst ht
    refine htallied.inv ?_ h.fifo h.success
    -- the completed index is new: everything emitted before is done
    show (s.sent.map PieceResult.index ++
      (s.workers.set w (.completed pw data)).filterMap Pc.held).Nodup
    rw [(List.Perm.append_left _ hheld').nodup_iff,
      show (.completed pw data :: rest).filterMap Pc.held =
        pw.index :: rest.filterMap Pc.held from rfl, List.nodup_middle, List.nodup_cons]
    have hnew := h.tallied.notMem_emitted (hrace pw data rfl)
    rw [hemitted.mem_iff] at hnew
    exact ⟨hnew, hnodup⟩
  | send pw data hpc' =>
    subst hpc'
    unfold State.workerTo at ht
    simp only [Option.ite_none_right_eq_some, Option.some_inj] at ht
    obtain ⟨-, rfl⟩ := ht
    refine htallied.inv ?_ ?_ h.success
    · show ((s.sent ++ [(⟨pw.index, data⟩ : PieceResult)]).map PieceResult.index ++
        (s.workers.set w .top).filterMap Pc.held).Nodup
      rw [(List.Perm.append_left _ hheld').nodup_iff, List.map_append, List.append_assoc]
      exact hnodup
    · intro hstatus
      rw [← h.fifo hstatus, List.append_assoc]
  | other q₁ pc₁ hnone hwf hp hd hok =>
    unfold State.workerTo at ht
    simp only [Option.some_inj] at ht
    subst ht
    refine htallied.inv ?_ h.fifo h.success
    show (s.sent.map PieceResult.index ++ (s.workers.set w pc').filterMap Pc.held).Nodup
    rw [(List.Perm.append_left _ hheld').nodup_iff, List.filterMap_cons_none hnone]
    refine hnodup.sublist (List.Sublist.append_left ?_ _)
    exact (List.sublist_cons_self pc rest).filterMap Pc.held

theorem checked_step {cancelled : Bool} {q : PieceQueue} {pw : PieceWork} {data : Bytes}
    {a : WorkerAction} {out : PieceQueue × Pc × Option PieceResult}
    (h : workerStep sha1 cancelled q (.checked pw data) a = some out) : a = .complete := by
  cases a with
  | complete => rfl
  | pick | wake | checkDone | download | downloadFail | giveBack | checkAgain | send | stop =>
    exact absurd h (Option.some_ne_none out).symm

/-- The index that a step is about to complete. -/
def completing (s : State) : Action → Option Nat
  | .worker w .complete =>
    match s.workers[w]? with
    | some (.checked pw _) => some pw.index
    | _ => none
  | _ => none

/-- The condition on the steps of a run: a `Complete` finds its piece not done. -/
def NoRace (s : State) (a : Action) : Prop := ∀ i ∈ completing s a, i ∉ s.queue.done

instance (s : State) (a : Action) : Decidable (NoRace s a) :=
  inferInstanceAs (Decidable (∀ i ∈ completing s a, i ∉ s.queue.done))

theorem QueueOp.wf_apply {q : PieceQueue} (h : q.Wf) (op : QueueOp) : (op.apply q).Wf := by
  cases op with
  | addPeerBitfield bf => exact PieceQueue.wf_addPeerBitfield h bf
  | removePeerBitfield bf => exact PieceQueue.wf_removePeerBitfield h bf
  | peerHave index => exact PieceQueue.wf_peerHave h index
  | updateSkipMask mask => exact PieceQueue.wf_updateSkipMask h mask

theorem QueueOp.apply_eq (q : PieceQueue) (op : QueueOp) :
    ∃ av bs token mask, op.apply q = { q with
      availability := av, buckets := bs, waitToken := token, skipMask := mask } := by
  cases op with
  | addPeerBitfield bf =>
    obtain ⟨av, bs, h⟩ := PieceQueue.foldl_shiftAvailability_eq 1 (q.peerPieces bf) q
    exact ⟨av, bs, true, q.skipMask, congrArg PieceQueue.signal h⟩
  | removePeerBitfield bf =>
    obtain ⟨av, bs, h⟩ := PieceQueue.foldl_shiftAvailability_eq (-1) (q.peerPieces bf) q
    exact ⟨av, bs, q.waitToken, q.skipMask, h⟩
  | peerHave index =>
    show ∃ av bs token mask, q.peerHave index = _
    by_cases hmem : index ∈ q.pieces
    · obtain ⟨bs, hbs⟩ := PieceQueue.shiftAvailability_eq 1 q index
      rw [PieceQueue.peerHave_of_mem hmem, hbs]
      exact ⟨_, bs, true, q.skipMask, rfl⟩
    · rw [PieceQueue.peerHave_of_notMem hmem]
      exact ⟨_, q.buckets, true, q.skipMask, rfl⟩
  | updateSkipMask mask => exact ⟨q.availability, q.buckets, true, mask, rfl⟩

theorem QueueOp.apply_pieces (q : PieceQueue) (op : QueueOp) :
    (op.apply q).pieces = q.pieces ∧ (op.apply q).done = q.done := by
  obtain ⟨av, bs, token, mask, h⟩ := QueueOp.apply_eq q op
  rw [h]
  exact ⟨rfl, rfl⟩

/-- The step of a worker, taken apart. -/
theorem step_tallied {s t : State} {a : Action} (h : Tallied sha1 pieces s)
    (hstep : step sha1 s a = some t) : Tallied sha1 pieces t := by
  cases steps_of_step hstep with
  | spawn =>
    refine ⟨h.wf, h.known, h.queued, ?_, h.sent, h.count, h.total⟩
    intro pc hpc
    rcases List.mem_append.mp hpc with hpc | hpc
    · exact h.workers pc hpc
    · rw [List.mem_singleton.mp hpc]
      trivial
  | queue op =>
    obtain ⟨hp, hd⟩ := QueueOp.apply_pieces s.queue op
    refine ⟨QueueOp.wf_apply h.wf op, ?_, ?_, ?_, ?_, h.count, h.total⟩
    · show ∀ i, i ∈ (op.apply s.queue).pieces ∨ i ∈ (op.apply s.queue).done ↔ _
      rw [hp, hd]
      exact h.known
    · show ∀ i pw, (op.apply s.queue).pieces.lookup i = some pw → _
      rw [hp]
      exact h.queued
    · show ∀ pc ∈ s.workers, PcOk sha1 pieces (op.apply s.queue).done pc
      rw [hd]
      exact h.workers
    · show ∀ r ∈ s.sent, ResultOk sha1 pieces (op.apply s.queue).done r
      rw [hd]
      exact h.sent
  | worker w a pc pc' q' res _ hpc hworker hto =>
    exact h.of_workerTo hpc (h.stepKind hpc hworker) hto
  | receive r rest hrunning hch =>
    refine ⟨h.wf, h.known, h.queued, h.workers, h.sent, ?_, h.total⟩
    show s.completed + 1 = (s.written ++ [r]).length
    rw [List.length_append, List.length_singleton, h.count]
  | cancel | finish | fails =>
    exact ⟨h.wf, h.known, h.queued, h.workers, h.sent, h.count, h.total⟩

theorem exec_tallied {s t : State} {as : List Action} (h : Tallied sha1 pieces s)
    (hrun : exec (step sha1) s as = some t) : Tallied sha1 pieces t :=
  exec_invariant (fun _ _ _ hs _ hstep => step_tallied hs hstep) h
    (guarded_of_forall (fun _ _ => trivial) s as) hrun

theorem step_inv {s t : State} {a : Action} (h : Inv sha1 pieces s) (hrace : NoRace s a)
    (hstep : step sha1 s a = some t) : Inv sha1 pieces t := by
  have htallied := step_tallied h.tallied hstep
  cases steps_of_step hstep with
  | spawn =>
    refine htallied.inv ?_ h.fifo h.success
    show (s.sent.map PieceResult.index ++ (s.workers ++ [Pc.top]).filterMap Pc.held).Nodup
    rw [List.filterMap_append, show [Pc.top].filterMap Pc.held = [] from rfl, List.append_nil]
    exact h.nodup
  | worker w a pc pc' q' res _ hpc hworker hto =>
    refine h.of_workerTo hpc (h.tallied.stepKind hpc hworker) ?_ hto
    intro pw data hchecked
    subst hchecked
    rw [checked_step hworker] at hrace
    refine hrace pw.index ?_
    show completing s (.worker w .complete) = some pw.index
    simp only [completing, hpc]
  | queue | cancel => exact htallied.inv h.nodup h.fifo h.success
  | receive r rest hrunning hch =>
    refine htallied.inv h.nodup ?_ ?_
    · intro hstatus
      rw [← h.fifo hstatus, hch, List.append_assoc]
      rfl
    · intro hsuccess
      exact absurd (hrunning.symm.trans hsuccess) (by decide)
  | finish hrunning hdone =>
    refine htallied.inv h.nodup (fun _ => h.fifo ?_) (fun _ => Nat.not_lt.mp hdone)
    rw [hrunning]
    decide
  | fails =>
    refine htallied.inv h.nodup (fun hstatus => absurd rfl hstatus) (fun hsuccess => ?_)
    cases hsuccess

theorem exec_inv {s t : State} {as : List Action} (h : Inv sha1 pieces s)
    (hrace : Guarded (step sha1) NoRace s as) (hrun : exec (step sha1) s as = some t) :
    Inv sha1 pieces t :=
  exec_invariant (fun _ _ _ hs hok hstep => step_inv hs hok hstep) h hrace hrun

/-- What was written was sent. -/
theorem Inv.mem_sent {s : State} (h : Inv sha1 pieces s) (hstatus : s.status ≠ .failed)
    {r : PieceResult} (hr : r ∈ s.written) : r ∈ s.sent := by
  rw [← h.fifo hstatus]
  exact List.mem_append_left _ hr

theorem Inv.written_nodup {s : State} (h : Inv sha1 pieces s) (hstatus : s.status ≠ .failed) :
    (s.written.map PieceResult.index).Nodup := by
  have hsent := (List.nodup_append.mp h.nodup).1
  rw [← h.fifo hstatus, List.map_append] at hsent
  exact (List.nodup_append.mp hsent).1

/-- What was written is the checked data of a queued piece. -/
theorem Inv.written_ok {s : State} (h : Inv sha1 pieces s) (hstatus : s.status ≠ .failed) :
    ∀ r ∈ s.written, ∃ pw ∈ pieces, pw.index = r.index ∧ ValidData sha1 pw r.data :=
  fun r hr => (h.sent r (h.mem_sent hstatus hr)).2

/-- So is what is about to be written. -/
theorem Inv.received_ok {s t : State} (h : Inv sha1 pieces s) {r : PieceResult}
    {rest : List PieceResult} (hch : s.resultCh = r :: rest)
    (hstep : step sha1 s .receive = some t) :
    ∃ pw ∈ pieces, pw.index = r.index ∧ ValidData sha1 pw r.data := by
  cases steps_of_step hstep with
  | receive _ _ hrunning _ =>
    have hsent : r ∈ s.sent := by
      rw [← h.fifo (by rw [hrunning]; decide), hch]
      exact List.mem_append_right _ List.mem_cons_self
    exact (h.sent r hsent).2
  | fails _ ha => rcases ha with ha | ha | ha <;> cases ha

/-- In the end every queued piece was written: as many different ones were
written as there are. -/
theorem Inv.all_written {s : State} (h : Inv sha1 pieces s) (hsuccess : s.status = .success) :
    (s.written.map PieceResult.index).Perm (pieces.map PieceWork.index) := by
  have hstatus : s.status ≠ .failed := by
    rw [hsuccess]
    decide
  have hsub : s.written.map PieceResult.index ⊆ pieces.map PieceWork.index := by
    intro i hi
    obtain ⟨r, hr, rfl⟩ := List.mem_map.mp hi
    exact (h.known r.index).mp (.inr (h.sent r (h.mem_sent hstatus hr)).1)
  have hlen : (pieces.map PieceWork.index).length ≤ (s.written.map PieceResult.index).length := by
    rw [List.length_map, List.length_map, ← h.count, ← h.total]
    exact h.success hsuccess
  exact (List.subperm_of_subset (h.written_nodup hstatus) hsub).perm_of_length_le hlen

end Invariant

end Stor.Download
