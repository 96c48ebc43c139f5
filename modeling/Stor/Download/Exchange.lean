import Mathlib.Data.Finset.Card
import Mathlib.Order.Interval.Finset.Nat
import Stor.Download.Client
import Stor.Lib.Run

/-!
# `DownloadPiece` message by message

A call of `DownloadPiece` as a state machine that takes one message of the peer at a time.
Beside the variables of the loop a state has two things that the code does not keep: the
requests that were written and not answered, and the bytes of the piece that have come.
`downloadPiece_eq_run` says that the machine does what `downloadPiece` does.

The loop counts requests and blocks and never looks which request a block belongs to.
`pending_unreceived` says for which blocks that is enough: whenever the loop reads with
bytes missing, it waits for one of them.
-/

namespace Stor.Download

open Lib Torrent Peer Storage

/-! ## The pipeline depth -/

def defaultMaxPipeline : Int := 16

def defaultPipelineMin : Int := 4

def defaultPipelineMax : Int := 256

def defaultPipelineWindowSecs : Int := 3

def pipelineTarget (downRateBytesPerSec windowSecs minP maxP : Int) : Int :=
  let windowSecs := if windowSecs ≤ 0 then defaultPipelineWindowSecs else windowSecs
  let minP := if minP < 1 then 1 else minP
  let maxP := if maxP < minP then minP else maxP
  let downRate := if downRateBytesPerSec < 0 then 0 else downRateBytesPerSec
  let target := (wrap64 (downRate * windowSecs)).tdiv blockSize
  let target := if target < minP then minP else target
  if target > maxP then maxP else target

/-- The fields of a client that the depth is computed from. -/
structure Pipeline where
  maxPipeline : Int
  pipelineMin : Int
  pipelineMax : Int
  pipelineWindow : Int
  downRate : Int

/-- `PipelineTarget`. -/
def Pipeline.target (p : Pipeline) : Int :=
  if p.pipelineMin ≤ 0 ∧ p.pipelineMax ≤ 0 then
    if p.maxPipeline ≤ 0 then defaultMaxPipeline else p.maxPipeline
  else
    let minP := if p.pipelineMin ≤ 0 then defaultPipelineMin else p.pipelineMin
    let maxP :=
      if p.pipelineMax ≤ 0 then
        if p.maxPipeline ≤ 0 then defaultPipelineMax else p.maxPipeline
      else p.pipelineMax
    let window :=
      if p.pipelineWindow ≤ 0 then defaultPipelineWindowSecs else p.pipelineWindow
    pipelineTarget p.downRate window minP maxP

theorem one_le_pipelineTarget (downRate windowSecs minP maxP : Int) :
    1 ≤ pipelineTarget downRate windowSecs minP maxP := by
  unfold pipelineTarget
  dsimp only
  generalize (wrap64 _).tdiv _ = target
  have hmin : 1 ≤ if minP < 1 then 1 else minP := by split_ifs <;> omega
  generalize (if minP < 1 then 1 else minP) = low at hmin ⊢
  split_ifs <;> omega

/-- Whatever is configured and however slow the peer is, the loop may have a request open. -/
theorem Pipeline.one_le_target (p : Pipeline) : 1 ≤ p.target := by
  unfold target
  by_cases hlegacy : p.pipelineMin ≤ 0 ∧ p.pipelineMax ≤ 0
  · rw [if_pos hlegacy]
    split_ifs
    · decide
    · omega
  · rw [if_neg hlegacy]
    exact one_le_pipelineTarget _ _ _ _

/-! ## The loop, with the requests that are open -/

/-- The variables of the loop, and what came of the requests. -/
structure Exchange where
  c : Client
  t : Transfer
  /-- The rounds that have begun. -/
  round : Nat
  /-- The requests that were written and not answered. -/
  pending : List Request
  /-- The bytes of the piece that have come. -/
  got : Finset Nat

namespace Exchange

variable (pw : PieceWork)

/-- The next request. -/
def nextRequest (t : Transfer) : Request :=
  ⟨pw.index % 2 ^ 32, t.requested % 2 ^ 32, min blockSize (pw.length.toNat - t.requested)⟩

def ask (x : Exchange) : Exchange :=
  { x with
    t := { x.t with
      requested := x.t.requested + (nextRequest pw x.t).length
      backlog := x.t.backlog + 1
      sent := x.t.sent ++ [nextRequest pw x.t] }
    pending := x.pending ++ [nextRequest pw x.t] }

def request : Nat → Exchange → Exchange
  | 0, x => x
  | n + 1, x => if x.t.requested < pw.length.toNat then request n (x.ask pw) else x

/-- The head of a round: the requests up to the pipeline depth. -/
def fill (target : Nat) (x : Exchange) : Exchange :=
  { x.request pw (target - x.t.backlog).toNat with round := x.round + 1 }

/-- The block of a message. -/
def pieceOf (msg : PeerMessage) : Option PieceMsg :=
  if msg.id = .piece then parsePiece msg.payload else none

/-- A block answers a request for the same place. -/
def answers (p : PieceMsg) (r : Request) : Bool := r.index == p.index && r.begin == p.begin

def bytesOf (p : PieceMsg) : Finset Nat :=
  if p.index = pw.index then .Ico p.begin (p.begin + p.block.length) else ∅

/-- The requests that a message leaves open. -/
def pendingAfter (msg : PeerMessage) (pending : List Request) : List Request :=
  match pieceOf msg with
  | none => pending
  | some p => pending.eraseP (answers p)

def gotAfter (msg : PeerMessage) (got : Finset Nat) : Finset Nat :=
  match pieceOf msg with
  | none => got
  | some p => got ∪ bytesOf pw p

/-- After a message that left the variables of the loop as `t`. -/
def after (x : Exchange) (msg : PeerMessage) (c : Client) (t : Transfer) : Exchange :=
  { x with
    c := c
    t := t
    pending := pendingAfter msg x.pending
    got := gotAfter pw msg x.got }

/-- After a block of the piece. -/
def takeBlock (x : Exchange) (p : PieceMsg) : Exchange :=
  { x with
    t := { x.t with
      buf := overwrite p.begin p.block x.t.buf
      downloaded := x.t.downloaded + p.block.length
      backlog := x.t.backlog - 1
      noProgressCount := 0 }
    pending := x.pending.eraseP (answers p)
    got := x.got ∪ .Ico p.begin (p.begin + p.block.length) }

end Exchange

/-- A call of `DownloadPiece` between two messages. -/
inductive Stage where
  /-- In `waitForUnchoke`. -/
  | choked (c : Client)
  /-- At the `ReadMessage` of the loop. -/
  | reading (x : Exchange)
  | done (x : Exchange) (result : Except DownloadError Bytes)

namespace Stage

variable (sha1 : Bytes → Bytes) (call : Client.PieceCall)

/-- The loop from its head to the next message, or to the end of the call. -/
def loop (x : Exchange) : Stage :=
  if x.t.downloaded < call.pw.length.toNat then .reading (x.fill call.pw (call.target x.round))
  else .done x (if sha1 x.t.buf = call.pw.hash then .ok x.t.buf
    else .error (.hashMismatch call.pw.index))

def enter (c : Client) : Stage :=
  if c.choked then .choked c
  else loop sha1 call ⟨c, ⟨resize call.pw.length.toNat call.buf, 0, 0, 0, 0, []⟩, 0, [], ∅⟩

/-- The call up to its first message. -/
def start (c : Client) : Stage := enter sha1 call { c with sentInterested := true }

/-- A message in the loop. -/
def read (x : Exchange) (msg : PeerMessage) : Stage :=
  match x.c.transferMessage call.pw x.t msg with
  | (c, .error e) => .done { x with c := c } (.error e)
  | (c, .ok t) => loop sha1 call (x.after call.pw msg c t)

/-- One message; a call that has returned reads no more. -/
def step : Stage → Received → Option Stage
  | .choked c, m => some (enter sha1 call (m.elim c c.waitMessage))
  | .reading x, none => some (loop sha1 call x)
  | .reading x, some msg => some (read sha1 call x msg)
  | .done _ _, _ => none

/-- All messages that there are, with a read error behind the last one. -/
def run : Stage → List Received → Client × List Received × Except DownloadError Bytes
  | .done x result, ms => (x.c, ms, result)
  | .choked c, [] => (c, [], .error .read)
  | .reading x, [] => (x.c, [], .error .read)
  | .choked c, m :: ms => run (enter sha1 call (m.elim c c.waitMessage)) ms
  | .reading x, none :: ms => run (loop sha1 call x) ms
  | .reading x, some msg :: ms => run (read sha1 call x msg) ms

/-! ## The machine and the loops -/

theorem request_t (pw : PieceWork) (n : Nat) (x : Exchange) :
    (x.request pw n).t = x.t.request pw n ∧ (x.request pw n).c = x.c ∧
      (x.request pw n).round = x.round := by
  induction n generalizing x with
  | zero => exact ⟨rfl, rfl, rfl⟩
  | succ n ih =>
    rw [Exchange.request, Transfer.request]
    split_ifs
    · exact ih (x.ask pw)
    · exact ⟨rfl, rfl, rfl⟩

theorem fill_t (pw : PieceWork) (target : Nat) (x : Exchange) :
    (x.fill pw target).t = x.t.fill pw target ∧ (x.fill pw target).c = x.c :=
  have h := request_t pw (target - x.t.backlog).toNat x
  ⟨h.1, h.2.1⟩

/-- The end of `DownloadPiece`. -/
def finish : Client × List Received × Except DownloadError Transfer →
    Client × List Received × Except DownloadError Bytes
  | (c, ms, .error e) => (c, ms, .error e)
  | (c, ms, .ok t) =>
    (c, ms, if sha1 t.buf = call.pw.hash then .ok t.buf else .error (.hashMismatch call.pw.index))

/-- `DownloadPiece` behind `waitForUnchoke`. -/
def transfer : Client × List Received × Bool →
    Client × List Received × Except DownloadError Bytes
  | (c, ms, false) => (c, ms, .error .read)
  | (c, ms, true) => finish sha1 call (Client.transferLoop call.pw call.target c
      ⟨resize call.pw.length.toNat call.buf, 0, 0, 0, 0, []⟩ ms)

variable {sha1 call}

theorem transferLoop_run (x : Exchange) (ms : List Received) :
    finish sha1 call (Client.transferLoop call.pw (fun n => call.target (x.round + n)) x.c x.t ms) =
      (loop sha1 call x).run sha1 call ms := by
  induction ms generalizing x with
  | nil =>
    rw [Client.transferLoop, loop]
    by_cases hlt : x.t.downloaded < call.pw.length.toNat
    · rw [if_pos hlt, if_pos hlt, run, (fill_t _ _ _).2, finish]
    · rw [if_neg hlt, if_neg hlt, run, finish]
  | cons m ms ih =>
    have hshift : (fun n => call.target (x.round + (n + 1))) =
        fun n => call.target ((x.fill call.pw (call.target x.round)).round + n) := by
      funext n
      rw [Exchange.fill, Nat.add_right_comm, Nat.add_assoc]
    obtain ⟨ht, hc⟩ := fill_t call.pw (call.target x.round) x
    by_cases hlt : x.t.downloaded < call.pw.length.toNat
    · rw [loop, if_pos hlt]
      cases m with
      | none =>
        rw [Client.transferLoop, if_pos hlt, Nat.add_zero, hshift, ← ht, ← hc, run]
        exact ih _
      | some msg =>
        rw [Client.transferLoop, if_pos hlt, Nat.add_zero, hshift, ← ht, ← hc, run, read]
        generalize Client.transferMessage _ _ _ _ = next
        obtain ⟨c, e | t⟩ := next
        · rw [run, finish]
        · exact ih ((x.fill call.pw (call.target x.round)).after call.pw msg c t)
    · rw [loop, if_neg hlt]
      cases m with
      | none => rw [Client.transferLoop, if_neg hlt, run, finish]
      | some msg => rw [Client.transferLoop, if_neg hlt, run, finish]

theorem transfer_run {c : Client} (hc : c.choked = false) (ms : List Received) :
    transfer sha1 call (c, ms, true) = (enter sha1 call c).run sha1 call ms := by
  rw [enter, if_neg (Bool.eq_false_iff.mp hc), ← transferLoop_run, transfer]
  simp only [Nat.zero_add]

theorem waitForUnchoke_run (c : Client) (ms : List Received) :
    transfer sha1 call (Client.waitForUnchoke c ms) = (enter sha1 call c).run sha1 call ms := by
  induction ms generalizing c with
  | nil =>
    rw [Client.waitForUnchoke]
    cases hc : c.choked with
    | true => rw [enter, if_pos hc]; rfl
    | false => exact transfer_run hc []
  | cons m ms ih =>
    rw [Client.waitForUnchoke]
    cases hc : c.choked with
    | true =>
      rw [if_pos rfl, enter, if_pos hc, run]
      exact ih _
    | false => exact transfer_run hc (m :: ms)

/-- The machine does what `DownloadPiece` does. -/
theorem downloadPiece_eq_run (c : Client) (ms : List Received) :
    Client.downloadPiece sha1 call c ms = (start sha1 call c).run sha1 call ms := by
  rw [start, ← waitForUnchoke_run, Client.downloadPiece]
  generalize Client.waitForUnchoke _ _ = waited
  obtain ⟨c, ms, ok⟩ := waited
  cases ok with
  | false => rfl
  | true =>
    dsimp only [transfer]
    generalize Client.transferLoop _ _ _ _ _ = result
    obtain ⟨c, ms, e | t⟩ := result <;> rfl

theorem run_of_step {s s' : Stage} {m : Received} (h : s.step sha1 call m = some s')
    (ms : List Received) : s.run sha1 call (m :: ms) = s'.run sha1 call ms := by
  cases s with
  | choked c => rw [run, ← Option.some.inj h]
  | reading x =>
    cases m with
    | none => rw [run, ← Option.some.inj h]
    | some msg => rw [run, ← Option.some.inj h]
  | done x result => cases h

theorem run_of_exec {s s' : Stage} {ms : List Received} (h : exec (step sha1 call) s ms = some s')
    (rest : List Received) : s.run sha1 call (ms ++ rest) = s'.run sha1 call rest := by
  induction ms generalizing s with
  | nil => rw [Option.some.inj h, List.nil_append]
  | cons m ms ih =>
    obtain ⟨u, hu, hrest⟩ := exec_cons_some h
    rw [List.cons_append, run_of_step hu, ih hrest]

end Stage

/-! ## What one step can do -/

namespace Exchange

variable {pw : PieceWork} {x : Exchange}

/-- A message that does not end the call: none of a block, a block of another piece, or a
block inside the piece. -/
theorem transferMessage_cases {c c' : Client} {t t' : Transfer} {msg : PeerMessage}
    (h : c.transferMessage pw t msg = (c', .ok t')) :
    (pieceOf msg = none ∧ t' = t) ∨
      (∃ p, pieceOf msg = some p ∧ p.index ≠ pw.index ∧ t' = { t with
        backlog := t.backlog - 1
        noProgressCount := t.noProgressCount + 1
        requested := if t.backlog - 1 ≤ 0 then t.downloaded else t.requested }) ∨
      ∃ p, pieceOf msg = some p ∧ p.index = pw.index ∧ p.begin + p.block.length ≤ t.buf.length ∧
        t' = { t with
          buf := overwrite p.begin p.block t.buf
          downloaded := t.downloaded + p.block.length
          backlog := t.backlog - 1
          noProgressCount := 0 } := by
  by_cases hid : msg.id = .piece
  · rw [Client.transferMessage, hid] at h
    dsimp only at h
    have hreceive : t.receive pw msg.payload = .ok t' := congrArg Prod.snd h
    have hpiece : pieceOf msg = parsePiece msg.payload := if_pos hid
    rw [Transfer.receive] at hreceive
    rw [hpiece]
    cases hparse : parsePiece msg.payload with
    | none => rw [hparse] at hreceive; cases hreceive
    | some p =>
      rw [hparse] at hreceive
      dsimp only at hreceive
      by_cases hindex : p.index = pw.index
      · rw [if_neg (not_not.mpr hindex)] at hreceive
        split_ifs at hreceive with hbound
        exact .inr (.inr ⟨p, rfl, hindex, Nat.le_of_not_gt hbound, (Except.ok.inj hreceive).symm⟩)
      · rw [if_pos hindex] at hreceive
        by_cases hcount : t.noProgressCount + 1 > maxUnexpectedMessages
        · rw [if_pos hcount] at hreceive
          cases hreceive
        · rw [if_neg hcount] at hreceive
          exact .inr (.inl ⟨p, rfl, hindex, (Except.ok.inj hreceive).symm⟩)
  · refine .inl ⟨if_neg hid, ?_⟩
    unfold Client.transferMessage at h
    split at h <;> first
      | exact absurd ‹_› hid
      | exact (Except.ok.inj (congrArg Prod.snd h)).symm
      | cases h

/-- A block inside the piece is taken. -/
theorem transferMessage_own {c : Client} {t : Transfer} {msg : PeerMessage} {p : PieceMsg}
    (hp : pieceOf msg = some p) (hown : p.index = pw.index)
    (hbound : p.begin + p.block.length ≤ t.buf.length) :
    c.transferMessage pw t msg = (c, .ok { t with
      buf := overwrite p.begin p.block t.buf
      downloaded := t.downloaded + p.block.length
      backlog := t.backlog - 1
      noProgressCount := 0 }) := by
  obtain ⟨hid, hparse⟩ := Option.ite_none_right_eq_some.mp hp
  unfold Client.transferMessage
  rw [hid]
  dsimp only
  rw [Transfer.receive, hparse]
  dsimp only
  rw [if_neg (not_not.mpr hown), if_neg (Nat.not_lt.mpr hbound)]

/-- What holds at the head of a round holds after its requests, when each of them keeps it. -/
theorem request_induction {P : Exchange → Prop}
    (hask : ∀ x : Exchange, P x → x.t.requested < pw.length.toNat → P (x.ask pw)) (n : Nat)
    (h : P x) : P (x.request pw n) := by
  induction n generalizing x with
  | zero => exact h
  | succ n ih =>
    rw [request]
    split_ifs with hlt
    · exact ih (hask x h hlt)
    · exact h

theorem backlog_request (pw : PieceWork) (n : Nat) (x : Exchange) :
    (x.request pw n).t.downloaded = x.t.downloaded ∧
      (x.request pw n).t.backlog ≤ x.t.backlog + n ∧
      ((x.request pw n).t.backlog = x.t.backlog + n ∨
        pw.length.toNat ≤ (x.request pw n).t.requested) := by
  induction n generalizing x with
  | zero => exact ⟨rfl, by rw [request]; omega, .inl (by rw [request]; omega)⟩
  | succ n ih =>
    rw [request]
    split_ifs with hlt
    · obtain ⟨hdown, hle, hend⟩ := ih (x.ask pw)
      have hone : (x.ask pw).t.backlog = x.t.backlog + 1 := rfl
      rw [hone] at hle hend
      refine ⟨hdown, by omega, ?_⟩
      rcases hend with hend | hend
      · exact .inl (by omega)
      · exact .inr hend
    · exact ⟨rfl, by omega, .inr (Nat.le_of_not_lt hlt)⟩

/-- The requests of a round stop at the depth or at the end of the piece. -/
theorem backlog_fill (pw : PieceWork) (target : Nat) (x : Exchange) :
    (x.fill pw target).t.downloaded = x.t.downloaded ∧
      (x.fill pw target).t.backlog ≤ max x.t.backlog target ∧
      (target ≤ (x.fill pw target).t.backlog ∨
        pw.length.toNat ≤ (x.fill pw target).t.requested) := by
  obtain ⟨hdown, hle, hend⟩ := backlog_request pw (target - x.t.backlog).toNat x
  refine ⟨hdown, ?_, ?_⟩
  · rw [fill]
    dsimp only
    omega
  · rw [fill]
    dsimp only
    omega

/-! ## Requests and bytes -/

/-- The request is for the byte of the piece. -/
def Covers (pw : PieceWork) (r : Request) (b : Nat) : Prop :=
  r.index = pw.index ∧ r.begin ≤ b ∧ b < r.begin + r.length

/-- The loop waits for a byte that has not come. -/
def Awaits (pw : PieceWork) (x : Exchange) : Prop :=
  ∃ b < pw.length.toNat, b ∉ x.got ∧ ∃ r ∈ x.pending, Covers pw r b

/-- What is known at the head of a round. -/
structure Tracked (pw : PieceWork) (x : Exchange) : Prop where
  got_le : x.got.card ≤ x.t.downloaded
  requested_le : x.t.requested ≤ pw.length.toNat
  backlog_le : blockSize * x.t.backlog ≤ x.t.requested - x.t.downloaded ∨
    x.t.requested = pw.length.toNat
  covered : ∀ b < x.t.requested, b ∉ x.got → ∃ r ∈ x.pending, Covers pw r b

section

variable (hindex : pw.index < 2 ^ 32) (hlength : pw.length.toNat ≤ 2 ^ 32)
include hindex hlength

theorem covers_nextRequest {t : Transfer} (hlt : t.requested < pw.length.toNat) {b : Nat} :
    Covers pw (nextRequest pw t) b ↔
      t.requested ≤ b ∧ b < t.requested + (nextRequest pw t).length := by
  have hbegin : t.requested % 2 ^ 32 = t.requested := Nat.mod_eq_of_lt (hlt.trans_le hlength)
  rw [Covers, nextRequest, Nat.mod_eq_of_lt hindex, hbegin]
  exact ⟨And.right, fun h => ⟨rfl, h⟩⟩

theorem Tracked.ask (h : Tracked pw x) (hlt : x.t.requested < pw.length.toNat) :
    Tracked pw (x.ask pw) := by
  have hsize : (nextRequest pw x.t).length = min blockSize (pw.length.toNat - x.t.requested) := rfl
  refine ⟨h.got_le, ?_, ?_, fun b hb hnot => ?_⟩
  · rw [Exchange.ask]
    dsimp only
    omega
  · rw [Exchange.ask]
    dsimp only
    rcases h.backlog_le with hle | hend
    · rcases Nat.le_total blockSize (pw.length.toNat - x.t.requested) with hfull | hlast
      · refine .inl ?_
        rw [hsize, Nat.min_eq_left hfull]
        push_cast
        rw [Int.mul_add, Int.mul_one]
        omega
      · refine .inr ?_
        rw [hsize, Nat.min_eq_right hlast]
        omega
    · exact absurd hend hlt.ne
  · rw [Exchange.ask] at hb ⊢
    dsimp only at hb ⊢
    rcases Nat.lt_or_ge b x.t.requested with hold | hnew
    · obtain ⟨r, hr, hcovers⟩ := h.covered b hold hnot
      exact ⟨r, List.mem_append_left _ hr, hcovers⟩
    · exact ⟨_, List.mem_append_right _ List.mem_cons_self,
        (covers_nextRequest hindex hlength hlt).mpr ⟨hnew, hb⟩⟩

/-- After the requests of a round something is requested that was not counted. -/
theorem Tracked.fill (h : Tracked pw x) (hmore : x.t.downloaded < pw.length.toNat) {target : Nat}
    (htarget : 1 ≤ target) :
    Tracked pw (x.fill pw target) ∧
      (x.fill pw target).t.downloaded < (x.fill pw target).t.requested := by
  have hrequest := request_induction (fun y hy hlt => hy.ask hindex hlength hlt)
    (target - x.t.backlog).toNat h
  have hfill : Tracked pw (x.fill pw target) :=
    ⟨hrequest.got_le, hrequest.requested_le, hrequest.backlog_le, hrequest.covered⟩
  obtain ⟨hdown, -, hend⟩ := backlog_fill pw target x
  refine ⟨hfill, ?_⟩
  have hbacklog := hfill.backlog_le
  have hblock : blockSize = 16384 := rfl
  rw [hblock] at hbacklog
  omega

end

/-- A block of the piece that is no longer than a request can be, and has all of what it
answers. -/
def Whole (pw : PieceWork) (x : Exchange) (msg : PeerMessage) : Prop :=
  ∀ p, pieceOf msg = some p → p.index = pw.index →
    p.block.length ≤ blockSize ∧ ∀ r ∈ x.pending, answers p r = true → r.length ≤ p.block.length

theorem answers_iff {p : PieceMsg} {r : Request} :
    answers p r = true ↔ r.index = p.index ∧ r.begin = p.begin := by
  rw [answers, Bool.and_eq_true, beq_iff_eq, beq_iff_eq]

theorem mem_eraseP_answers {pending : List Request} {p : PieceMsg} {r : Request}
    (hr : r ∈ pending) (hother : ¬(r.index = p.index ∧ r.begin = p.begin)) :
    r ∈ pending.eraseP (answers p) :=
  (List.mem_eraseP_of_neg (mt answers_iff.mp hother)).mpr hr

theorem after_of_none {msg : PeerMessage} (h : pieceOf msg = none) (c : Client) (t : Transfer) :
    x.after pw msg c t = { x with c := c, t := t } := by
  rw [after, pendingAfter, gotAfter, h]

theorem after_of_some {msg : PeerMessage} {p : PieceMsg} (h : pieceOf msg = some p) (c : Client)
    (t : Transfer) : x.after pw msg c t = { x with
      c := c
      t := t
      pending := x.pending.eraseP (answers p)
      got := x.got ∪ bytesOf pw p } := by
  rw [after, pendingAfter, gotAfter, h]

/-- A message between two rounds. -/
theorem Tracked.after (h : Tracked pw x) (hbehind : x.t.downloaded < x.t.requested)
    {msg : PeerMessage} {c : Client} {t : Transfer} (hwhole : Whole pw x msg)
    (hmsg : x.c.transferMessage pw x.t msg = (c, .ok t)) : Tracked pw (x.after pw msg c t) := by
  have hblock : blockSize = 16384 := rfl
  have hbacklog := h.backlog_le
  rw [hblock] at hbacklog
  rcases transferMessage_cases hmsg with ⟨hnone, rfl⟩ | ⟨p, hp, hother, rfl⟩ |
    ⟨p, hp, hown, -, rfl⟩
  · rw [after_of_none hnone]
    exact ⟨h.got_le, h.requested_le, h.backlog_le, h.covered⟩
  · -- When the counter is down, the loop goes back to a place that was requested before.
    rw [after_of_some hp, bytesOf, if_neg hother, Finset.union_empty]
    have hback : (if x.t.backlog - 1 ≤ 0 then x.t.downloaded else x.t.requested) ≤
        x.t.requested := by split_ifs <;> omega
    refine ⟨h.got_le, hback.trans h.requested_le, ?_, fun b hb hnot => ?_⟩
    · dsimp only
      rw [hblock]
      split_ifs <;> omega
    · obtain ⟨r, hr, hcovers⟩ := h.covered b (hb.trans_le hback) hnot
      refine ⟨r, mem_eraseP_answers hr fun hsame => ?_, hcovers⟩
      exact hother (hsame.1.symm.trans hcovers.1)
  · obtain ⟨hsize, hanswered⟩ := hwhole p hp hown
    rw [after_of_some hp, bytesOf, if_pos hown]
    refine ⟨?_, h.requested_le, ?_, fun b hb hnot => ?_⟩
    · have hunion := Finset.card_union_le x.got (.Ico p.begin (p.begin + p.block.length))
      rw [Nat.card_Ico, Nat.add_sub_cancel_left] at hunion
      exact hunion.trans (Nat.add_le_add_right h.got_le _)
    · dsimp only
      rw [hblock] at hsize ⊢
      omega
    · rw [Finset.mem_union, not_or, Finset.mem_Ico] at hnot
      obtain ⟨r, hr, hcovers⟩ := h.covered b hb hnot.1
      refine ⟨r, mem_eraseP_answers hr fun hsame => hnot.2 ?_, hcovers⟩
      have hlen := hanswered r hr (answers_iff.mpr hsame)
      obtain ⟨-, hlow, hhigh⟩ := hcovers
      omega

theorem Tracked.awaits (h : Tracked pw x) (hbehind : x.t.downloaded < x.t.requested) :
    Awaits pw x := by
  have hcard : x.got.card < (Finset.range x.t.requested).card := by
    rw [Finset.card_range]
    exact h.got_le.trans_lt hbehind
  obtain ⟨b, hb, hnot⟩ := Finset.exists_mem_notMem_of_card_lt_card hcard
  have hb := Finset.mem_range.mp hb
  exact ⟨b, hb.trans_le h.requested_le, hnot, h.covered b hb hnot⟩

end Exchange

/-! ## Every run -/

namespace Stage

variable {sha1 : Bytes → Bytes} {call : Client.PieceCall}

theorem read_own {x : Exchange} {msg : PeerMessage} {p : PieceMsg}
    (hp : Exchange.pieceOf msg = some p) (hown : p.index = call.pw.index)
    (hbound : p.begin + p.block.length ≤ x.t.buf.length) :
    read sha1 call x msg = loop sha1 call (x.takeBlock p) := by
  rw [read, Exchange.transferMessage_own hp hown hbound]
  dsimp only
  rw [Exchange.after_of_some hp, Exchange.bytesOf, if_pos hown, Exchange.takeBlock]

/-- The condition on the blocks of the peer. -/
def Whole (pw : PieceWork) : Stage → Received → Prop
  | .reading x, some msg => x.Whole pw msg
  | _, _ => True

/-- What is known of a call that is going on. -/
def Inv (pw : PieceWork) : Stage → Prop
  | .reading x => x.Tracked pw ∧ x.t.downloaded < x.t.requested
  | _ => True

section

variable (hindex : call.pw.index < 2 ^ 32) (hlength : call.pw.length.toNat ≤ 2 ^ 32)
  (htarget : ∀ n, 1 ≤ call.target n)
include hindex hlength htarget

theorem inv_loop {x : Exchange} (h : x.Tracked call.pw) : Inv call.pw (loop sha1 call x) := by
  unfold loop
  split_ifs with hmore
  · exact h.fill hindex hlength hmore (htarget x.round)
  · trivial
  · trivial

theorem inv_enter (c : Client) : Inv call.pw (enter sha1 call c) := by
  unfold enter
  split_ifs
  · trivial
  · refine inv_loop hindex hlength htarget ⟨Nat.le_refl _, Nat.zero_le _, .inl (by simp), ?_⟩
    exact fun b hb => absurd hb (Nat.not_lt_zero b)

theorem inv_step {s s' : Stage} {m : Received} (h : Inv call.pw s) (hwhole : Whole call.pw s m)
    (hstep : s.step sha1 call m = some s') : Inv call.pw s' := by
  cases s with
  | choked c =>
    rw [← Option.some.inj hstep]
    exact inv_enter hindex hlength htarget _
  | done x result => cases hstep
  | reading x =>
    cases m with
    | none =>
      rw [← Option.some.inj hstep]
      exact inv_loop hindex hlength htarget h.1
    | some msg =>
      rw [← Option.some.inj hstep, read]
      cases hmsg : x.c.transferMessage call.pw x.t msg with
      | mk c result =>
        cases result with
        | error e => trivial
        | ok t => exact inv_loop hindex hlength htarget (h.1.after h.2 hwhole hmsg)

end

/-- Whatever else the peer sends, blocks of other pieces and the same block again included:
where each block of the piece has at most 16 KiB and all of the request that it answers, the
loop never reads without a request open for a byte that is missing. -/
theorem pending_unreceived (hindex : call.pw.index < 2 ^ 32)
    (hlength : call.pw.length.toNat ≤ 2 ^ 32) (htarget : ∀ n, 1 ≤ call.target n) (c : Client)
    {ms : List Received} {x : Exchange}
    (hwhole : Guarded (step sha1 call) (Whole call.pw) (start sha1 call c) ms)
    (hrun : exec (step sha1 call) (start sha1 call c) ms = some (.reading x)) :
    (∀ rest, Client.downloadPiece sha1 call c (ms ++ rest) =
        (Stage.reading x).run sha1 call rest) ∧ x.Awaits call.pw := by
  have hstep : ∀ s m s', Inv call.pw s → Whole call.pw s m → s.step sha1 call m = some s' →
      Inv call.pw s' := fun _ _ _ => inv_step hindex hlength htarget
  have hinv : Inv call.pw (.reading x) :=
    exec_invariant hstep (inv_enter hindex hlength htarget _) hwhole hrun
  refine ⟨fun rest => ?_, hinv.1.awaits hinv.2⟩
  rw [downloadPiece_eq_run, run_of_exec hrun]

/-- A client that may ask. -/
def exampleClient : Client := ⟨none, true, false, true, false⟩

/-- A call for `n` bytes of piece 0. -/
def exampleCall (n : Int) (target : Nat → Nat) : Client.PieceCall := ⟨⟨0, [], n⟩, [], target⟩

/-- A block of piece 0 for its first bytes. -/
def exampleBlock (block : Bytes) : Received := some ⟨.piece, List.replicate 8 0 ++ block⟩

theorem pieceOf_exampleBlock (block : Bytes) :
    Exchange.pieceOf ⟨.piece, List.replicate 8 0 ++ block⟩ = some ⟨0, 0, block⟩ := rfl

theorem exec_exampleBlock {n : Nat} {target : Nat → Nat} {block : Bytes} {x : Exchange}
    (hstart : start sha1 (exampleCall n target) exampleClient = .reading x)
    (hdown : x.t.downloaded = 0) (hbuf : x.t.buf.length = n) (hshort : block.length < n) :
    exec (step sha1 (exampleCall n target)) (start sha1 (exampleCall n target) exampleClient)
        [exampleBlock block] =
      some (.reading ((x.takeBlock ⟨0, 0, block⟩).fill ⟨0, [], n⟩ (target x.round))) := by
  have hp := pieceOf_exampleBlock block
  have hbound : 0 + block.length ≤ x.t.buf.length := by omega
  have hmore : (x.takeBlock ⟨0, 0, block⟩).t.downloaded < (n : Int).toNat := by
    rw [Exchange.takeBlock, hdown, Nat.zero_add]
    exact hshort
  rw [hstart, exampleBlock, exec, step, Option.bind_some, exec_nil, read_own hp rfl hbound, loop]
  exact congrArg some (if_pos hmore)

/-- The first of two blocks has come. -/
theorem pending_unreceived_first :
    ∃ x, exec (step (fun b => b) (exampleCall 20000 fun _ => 1))
        (start (fun b => b) (exampleCall 20000 fun _ => 1) exampleClient)
        [exampleBlock (List.replicate 16384 7)] = some (.reading x) ∧
      x.pending = [⟨0, 16384, 3616⟩] ∧ x.Awaits ⟨0, [], 20000⟩ := by
  have hlen : (List.replicate 16384 (7 : UInt8)).length = 16384 := List.length_replicate
  have hrun : exec (step (fun b => b) (exampleCall 20000 fun _ => 1))
      (start (fun b => b) (exampleCall 20000 fun _ => 1) exampleClient)
      [exampleBlock (List.replicate 16384 7)] = some (.reading _) :=
    exec_exampleBlock rfl rfl (resize_length _ _) (by rw [hlen]; decide)
  have hwhole : Guarded (step (fun b => b) (exampleCall 20000 fun _ => 1)) (Whole ⟨0, [], 20000⟩)
      (start (fun b => b) (exampleCall 20000 fun _ => 1) exampleClient)
      [exampleBlock (List.replicate 16384 7)] := by
    refine ⟨fun p hp _ => ?_, fun _ _ => trivial⟩
    obtain rfl := Option.some.inj ((pieceOf_exampleBlock _).symm.trans hp)
    refine ⟨hlen.le, fun r hr _ => ?_⟩
    obtain rfl : r = ⟨0, 0, 16384⟩ := List.mem_singleton.mp hr
    exact hlen.ge
  exact ⟨_, hrun, rfl,
    (pending_unreceived (by decide) (by decide) (fun _ => Nat.le_refl 1) exampleClient hwhole hrun).2⟩

/-- The one open request is for bytes that have come. -/
theorem not_awaits_of_received {x : Exchange} {pw : PieceWork} {n : Nat}
    (hpending : x.pending = [⟨0, 16384, 16384⟩]) (hgot : x.got = ∅ ∪ Finset.Ico 0 (0 + n))
    (hn : n = 32768) : ¬x.Awaits pw := by
  rintro ⟨b, -, hnot, r, hr, -, hlow, hhigh⟩
  rw [hpending] at hr
  rw [hgot, hn] at hnot
  obtain rfl : r = ⟨0, 16384, 16384⟩ := List.mem_singleton.mp hr
  exact hnot (Finset.mem_union_right _ (Finset.mem_Ico.mpr ⟨Nat.zero_le b, hhigh⟩))

/-- A block for two requests at once, of which it answers one. -/
theorem awaits_received {block : Bytes} (hlen : block.length = 32768) :
    ∃ x, exec (step (fun b => b) (exampleCall 32769 fun n => 2 - n))
        (start (fun b => b) (exampleCall 32769 fun n => 2 - n) exampleClient)
        [exampleBlock block] = some (.reading x) ∧
      x.pending = [⟨0, 16384, 16384⟩] ∧ ¬x.Awaits ⟨0, [], 32769⟩ := by
  refine ⟨_, exec_exampleBlock rfl rfl (resize_length _ _) ?_, rfl,
    not_awaits_of_received rfl rfl hlen⟩
  rw [hlen]
  decide

/-- The piece has two bytes and the block only the first: the request is answered, and none is
written for the other byte.  And a block of 32 KiB answers the first of two requests with the
bytes of both: when the depth is down to one, the loop waits for the second. -/
theorem awaits_nothing :
    (∃ x, exec (step (fun b => b) (exampleCall 2 fun _ => 1))
        (start (fun b => b) (exampleCall 2 fun _ => 1) exampleClient) [exampleBlock [7]] =
          some (.reading x) ∧ x.pending = [] ∧ ¬x.Awaits ⟨0, [], 2⟩) ∧
    ∃ x, exec (step (fun b => b) (exampleCall 32769 fun n => 2 - n))
        (start (fun b => b) (exampleCall 32769 fun n => 2 - n) exampleClient)
        [exampleBlock (List.replicate 32768 7)] = some (.reading x) ∧
      x.pending = [⟨0, 16384, 16384⟩] ∧ ¬x.Awaits ⟨0, [], 32769⟩ := by
  constructor
  · refine ⟨_, exec_exampleBlock rfl rfl rfl (by decide), rfl, ?_⟩
    rintro ⟨b, -, -, r, hr, -⟩
    exact List.not_mem_nil hr
  · exact awaits_received List.length_replicate

end Stage

end Stor.Download
