import Stor.Download.Exchange

/-!
# `DownloadPiece` and an honest peer

A peer that unchokes, answers every request once with the bytes of the piece, in any order,
and says what it likes in between.  `downloadPiece_honest` says that the call then returns the
piece, and what its requests are like.  A request has 32 bits for its place, so that all of it
needs a piece of at most 4 GiB; `requests_overlap` is a longer one.

The deadline of the connection is not part of the model: what the peer sends comes in time.
-/

namespace Stor.Download

open Lib Torrent Peer Storage

/-! ## The peer -/

/-- What the peer may say at any time. -/
def Polite : Received → Prop
  | none => True
  | some msg => msg.id = .havePiece ∨ msg.id = .unchoke ∨ msg.id = .interested ∨
      msg.id = .request ∨ msg.id = .extended

def IsUnchoke (m : Received) : Prop := ∃ msg, m = some msg ∧ msg.id = .unchoke

/-- The message has exactly the bytes that were requested. -/
def Delivers (contents : Bytes) (r : Request) (m : Received) : Prop :=
  ∃ msg, m = some msg ∧
    Exchange.pieceOf msg = some ⟨r.index, r.begin, slice r.begin r.length contents⟩

theorem Polite.not_delivers {contents : Bytes} {r : Request} {m : Received} (hm : Polite m) :
    ¬Delivers contents r m := by
  rintro ⟨msg, rfl, hp⟩
  have hid : msg.id = .piece := (Option.ite_none_right_eq_some.mp hp).1
  rw [Polite, hid] at hm
  rcases hm with h | h | h | h | h <;> cases h

/-- What the peer sends to a call that is at `s`. -/
def Sends (contents : Bytes) (s : Stage) (m : Received) : Prop :=
  Polite m ∨ ∃ x, s = .reading x ∧ ∃ r ∈ x.pending, Delivers contents r m

/-- The endless sequence of messages is that of an honest peer, as long as the call reads. -/
structure Honest (sha1 : Bytes → Bytes) (call : Client.PieceCall) (contents : Bytes) (c : Client)
    (ms : Nat → Received) : Prop where
  sends : ∀ n s, execTo (Stage.step sha1 call) (Stage.start sha1 call c) ms n = some s →
    (∀ x result, s ≠ .done x result) → Sends contents s (ms n)
  unchokes : ∀ n c', execTo (Stage.step sha1 call) (Stage.start sha1 call c) ms n =
    some (.choked c') → ∃ k ≥ n, IsUnchoke (ms k)
  answers : ∀ n x, execTo (Stage.step sha1 call) (Stage.start sha1 call c) ms n =
    some (.reading x) → ∀ r ∈ x.pending, ∃ k ≥ n, Delivers contents r (ms k)

/-! ## What is known at the head of a round -/

namespace Exchange

variable {pw : PieceWork} {contents : Bytes} {x : Exchange}

structure Sound (pw : PieceWork) (contents : Bytes) (x : Exchange) : Prop where
  disjoint : x.t.sent.Pairwise fun r r' => r.begin + r.length ≤ r'.begin
  inside : ∀ r ∈ x.t.sent, r.index = pw.index ∧ 0 < r.length ∧ r.length ≤ blockSize ∧
    r.begin + r.length ≤ x.t.requested
  covers : ∀ b < x.t.requested, ∃ r ∈ x.t.sent, Covers pw r b
  requested_le : x.t.requested ≤ pw.length.toNat
  pending_sub : x.pending.Sublist x.t.sent
  backlog_eq : x.t.backlog = x.pending.length
  downloaded_eq : x.t.downloaded + (x.pending.map Request.length).sum = x.t.requested
  buf_length : x.t.buf.length = pw.length.toNat
  buf_eq : ∀ b < x.t.requested, (∀ r ∈ x.pending, ¬Covers pw r b) → x.t.buf[b]? = contents[b]?

section

variable (hindex : pw.index < 2 ^ 32) (hlength : pw.length.toNat ≤ 2 ^ 32)
include hindex hlength

theorem Sound.ask (h : Sound pw contents x) (hlt : x.t.requested < pw.length.toNat) :
    Sound pw contents (x.ask pw) := by
  have hbegin : (nextRequest pw x.t).begin = x.t.requested :=
    Nat.mod_eq_of_lt (hlt.trans_le hlength)
  have hsize : (nextRequest pw x.t).length = min blockSize (pw.length.toNat - x.t.requested) := rfl
  have hpos : 0 < blockSize := by decide
  constructor
  case disjoint =>
    refine List.pairwise_append.mpr ⟨h.disjoint, List.pairwise_singleton _ _, fun r hr r' hr' => ?_⟩
    rw [List.mem_singleton.mp hr', hbegin]
    exact (h.inside r hr).2.2.2
  case inside =>
    intro r hr
    rcases List.mem_append.mp hr with hr | hr
    · obtain ⟨hi, hp, hb, hend⟩ := h.inside r hr
      exact ⟨hi, hp, hb, Nat.le_add_right_of_le hend⟩
    · rw [List.mem_singleton.mp hr, hbegin]
      refine ⟨Nat.mod_eq_of_lt hindex, ?_, ?_, Nat.le_refl _⟩
      · omega
      · omega
  case covers =>
    intro b hb
    rcases Nat.lt_or_ge b x.t.requested with hold | hnew
    · obtain ⟨r, hr, hcovers⟩ := h.covers b hold
      exact ⟨r, List.mem_append_left _ hr, hcovers⟩
    · exact ⟨_, List.mem_append_right _ List.mem_cons_self,
        (covers_nextRequest hindex hlength hlt).mpr ⟨hnew, hb⟩⟩
  case requested_le =>
    rw [Exchange.ask]
    dsimp only
    omega
  case pending_sub => exact h.pending_sub.append (List.Sublist.refl _)
  case backlog_eq =>
    rw [Exchange.ask]
    dsimp only
    rw [List.length_append, List.length_singleton, h.backlog_eq]
    rfl
  case downloaded_eq =>
    have hold := h.downloaded_eq
    rw [Exchange.ask]
    dsimp only
    rw [List.map_append, List.sum_append, List.map_singleton, List.sum_singleton]
    omega
  case buf_length => exact h.buf_length
  case buf_eq =>
    intro b hb hfree
    rcases Nat.lt_or_ge b x.t.requested with hold | hnew
    · exact h.buf_eq b hold fun r hr => hfree r (List.mem_append_left _ hr)
    · exact absurd ((covers_nextRequest hindex hlength hlt).mpr ⟨hnew, hb⟩)
        (hfree _ (List.mem_append_right _ List.mem_cons_self))

theorem Sound.fill (h : Sound pw contents x) (target : Nat) :
    Sound pw contents (x.fill pw target) := by
  have hrequest := request_induction (fun y hy hlt => hy.ask hindex hlength hlt)
    (target - x.t.backlog).toNat h
  exact ⟨hrequest.disjoint, hrequest.inside, hrequest.covers, hrequest.requested_le,
    hrequest.pending_sub, hrequest.backlog_eq, hrequest.downloaded_eq, hrequest.buf_length,
    hrequest.buf_eq⟩

end

/-- Two open requests for the same place are the same. -/
theorem Sound.eq_of_begin_eq (h : Sound pw contents x) {r r' : Request} (hr : r ∈ x.pending)
    (hr' : r' ∈ x.pending) (hbegin : r.begin = r'.begin) : r = r' := by
  have hapart : x.pending.Pairwise fun r r' => r.begin = r'.begin → r = r' := by
    refine (h.disjoint.sublist h.pending_sub).imp_of_mem fun {a b} ha _ hab heq => ?_
    have hpos := (h.inside a (h.pending_sub.subset ha)).2.1
    omega
  have hsymm : Std.Symm fun r r' : Request => r.begin = r'.begin → r = r' :=
    ⟨fun _ _ hab heq => (hab heq.symm).symm⟩
  exact hapart.forall_of_forall (fun _ _ _ => rfl) hr hr' hbegin

/-- The block takes its own request out of those that are open. -/
theorem Sound.eraseP_answers (h : Sound pw contents x) {r : Request} (hr : r ∈ x.pending)
    {p : PieceMsg} (hindex : p.index = r.index) (hbegin : p.begin = r.begin) :
    ∃ before later, x.pending = before ++ r :: later ∧
      x.pending.eraseP (answers p) = before ++ later := by
  obtain ⟨a, before, later, -, ha, hsplit, herase⟩ :=
    List.exists_of_eraseP hr (answers_iff.mpr ⟨hindex.symm, hbegin.symm⟩)
  have hmem : a ∈ x.pending := hsplit ▸ List.mem_append_right _ List.mem_cons_self
  obtain rfl := h.eq_of_begin_eq hmem hr ((answers_iff.mp ha).2.trans hbegin)
  exact ⟨before, later, hsplit, herase⟩

theorem Sound.takeBlock (h : Sound pw contents x) (hcontents : contents.length = pw.length.toNat)
    {r : Request} (hr : r ∈ x.pending) :
    Sound pw contents (x.takeBlock ⟨r.index, r.begin, slice r.begin r.length contents⟩) := by
  obtain ⟨before, later, hsplit, herase⟩ :=
    h.eraseP_answers hr (p := ⟨r.index, r.begin, slice r.begin r.length contents⟩) rfl rfl
  obtain ⟨hindex, hpos, -, hend⟩ := h.inside r (h.pending_sub.subset hr)
  have hinside : r.begin + r.length ≤ pw.length.toNat := hend.trans h.requested_le
  have hlen : (slice r.begin r.length contents).length = r.length :=
    slice_length_of_le (hinside.trans_eq hcontents.symm)
  have hbound : r.begin + (slice r.begin r.length contents).length ≤ x.t.buf.length := by
    rw [hlen, h.buf_length]
    exact hinside
  have hsub : (before ++ later).Sublist x.pending := by
    rw [hsplit]
    exact (List.Sublist.refl before).append (List.sublist_cons_self r later)
  rw [Exchange.takeBlock, herase]
  refine { h with
    pending_sub := ?_, backlog_eq := ?_, downloaded_eq := ?_, buf_length := ?_, buf_eq := ?_ }
  · exact hsub.trans h.pending_sub
  · have hbacklog := h.backlog_eq
    rw [hsplit, List.length_append, List.length_cons] at hbacklog
    dsimp only
    rw [List.length_append]
    omega
  · have hdown := h.downloaded_eq
    rw [hsplit, List.map_append, List.sum_append, List.map_cons, List.sum_cons] at hdown
    dsimp only
    rw [hlen, List.map_append, List.sum_append]
    omega
  · exact (overwrite_length_of_le hbound).trans h.buf_length
  · intro b hb hfree
    dsimp only at hb hfree ⊢
    rw [overwrite_getElem? hbound, hlen]
    by_cases hin : r.begin ≤ b ∧ b < r.begin + r.length
    · rw [if_pos hin, slice_getElem?, if_pos (by omega), Nat.add_sub_cancel' hin.1]
    · rw [if_neg hin]
      refine h.buf_eq b hb fun r' hr' hcovers => ?_
      rw [hsplit, List.mem_append, List.mem_cons] at hr'
      rcases hr' with hr' | rfl | hr'
      · exact hfree r' (List.mem_append_left _ hr') hcovers
      · exact hin hcovers.2
      · exact hfree r' (List.mem_append_right _ hr') hcovers

/-- When all bytes are counted, nothing is open and the buffer is the piece. -/
theorem Sound.buf_eq_contents (h : Sound pw contents x)
    (hcontents : contents.length = pw.length.toNat) (hall : pw.length.toNat ≤ x.t.downloaded) :
    x.t.requested = pw.length.toNat ∧ x.t.buf = contents := by
  have hdown := h.downloaded_eq
  have hle := h.requested_le
  have hzero : (x.pending.map Request.length).sum = 0 := by omega
  have hnone : x.pending = [] := by
    cases hpending : x.pending with
    | nil => rfl
    | cons r rest =>
      have hpos := (h.inside r (h.pending_sub.subset (hpending ▸ List.mem_cons_self))).2.1
      rw [hpending, List.map_cons, List.sum_cons] at hzero
      omega
  refine ⟨by omega, List.ext_getElem? fun b => ?_⟩
  rcases Nat.lt_or_ge b pw.length.toNat with hlt | hge
  · refine h.buf_eq b (by omega) fun r hr => ?_
    rw [hnone] at hr
    exact absurd hr List.not_mem_nil
  · rw [List.getElem?_eq_none (h.buf_length.trans_le hge),
      List.getElem?_eq_none (hcontents.trans_le hge)]

theorem mem_pending_fill {r : Request} (target : Nat) (hr : r ∈ x.pending) :
    r ∈ (x.fill pw target).pending :=
  request_induction (P := fun y => r ∈ y.pending) (fun _ hy _ => List.mem_append_left _ hy) _ hr

/-- What the requests of a call are like. -/
structure Orderly (call : Client.PieceCall) (x : Exchange) : Prop where
  disjoint : x.t.sent.Pairwise fun r r' => r.begin + r.length ≤ r'.begin
  inside : ∀ r ∈ x.t.sent, r.index = call.pw.index ∧ 0 < r.length ∧ r.length ≤ 16384 ∧
    r.begin + r.length ≤ call.pw.length.toNat
  pending_sub : x.pending.Sublist x.t.sent
  pending_le : ∀ most, (∀ n, call.target n ≤ most) → x.pending.length ≤ most

end Exchange

/-! ## Message after message -/

namespace Stage

variable {sha1 : Bytes → Bytes} {call : Client.PieceCall} {contents : Bytes}

/-- No more requests are open than the greatest depth. -/
def Shallow (call : Client.PieceCall) (x : Exchange) : Prop :=
  ∀ most, (∀ n, call.target n ≤ most) → x.pending.length ≤ most

/-- What is known of a call to an honest peer. -/
def Served (call : Client.PieceCall) (contents : Bytes) : Stage → Prop
  | .choked _ => True
  | .reading x => x.Sound call.pw contents ∧ Shallow call x ∧
      x.t.downloaded < call.pw.length.toNat ∧ x.pending ≠ []
  | .done x result => x.Sound call.pw contents ∧ Shallow call x ∧
      x.t.requested = call.pw.length.toNat ∧ result = .ok contents

theorem loop_of_lt {x : Exchange} (h : x.t.downloaded < call.pw.length.toNat) :
    loop sha1 call x = .reading (x.fill call.pw (call.target x.round)) := if_pos h

theorem step_polite (sha1 : Bytes → Bytes) (call : Client.PieceCall) {m : Received} (hm : Polite m)
    (x : Exchange) :
    ∃ c, (Stage.reading x).step sha1 call m = some (loop sha1 call { x with c := c }) := by
  cases m with
  | none => exact ⟨x.c, rfl⟩
  | some msg =>
    have hread : ∀ c, Exchange.pieceOf msg = none →
        x.c.transferMessage call.pw x.t msg = (c, .ok x.t) →
        (Stage.reading x).step sha1 call (some msg) = some (loop sha1 call { x with c := c }) := by
      intro c hnone hmsg
      rw [step, read, hmsg]
      dsimp only
      rw [Exchange.after_of_none hnone]
    have hnone : msg.id ≠ .piece → Exchange.pieceOf msg = none := fun hid => if_neg hid
    rcases hm with hid | hid | hid | hid | hid
    · exact ⟨x.c.receiveHave msg.payload, hread _ (hnone (by rw [hid]; decide))
        (by unfold Client.transferMessage; rw [hid])⟩
    · exact ⟨{ x.c with choked := false }, hread _ (hnone (by rw [hid]; decide))
        (by unfold Client.transferMessage; rw [hid])⟩
    · exact ⟨{ x.c with choking := false }, hread _ (hnone (by rw [hid]; decide))
        (by unfold Client.transferMessage; rw [hid])⟩
    · exact ⟨x.c, hread _ (hnone (by rw [hid]; decide))
        (by unfold Client.transferMessage; rw [hid])⟩
    · exact ⟨x.c, hread _ (hnone (by rw [hid]; decide))
        (by unfold Client.transferMessage; rw [hid])⟩

/-- The bytes that are not counted. -/
def missing (call : Client.PieceCall) : Stage → Nat
  | .reading x => call.pw.length.toNat - x.t.downloaded
  | _ => 0

/-- The variables after the answer to a request. -/
def answered (contents : Bytes) (x : Exchange) (r : Request) : Exchange :=
  x.takeBlock ⟨r.index, r.begin, slice r.begin r.length contents⟩

theorem shallow_answered {x : Exchange} (hshallow : Shallow call x) (r : Request) :
    Shallow call (answered contents x r) :=
  fun most hmost => (List.eraseP_sublist.length_le).trans (hshallow most hmost)

section

variable (hcontents : contents.length = call.pw.length.toNat)
include hcontents

theorem step_delivers (sha1 : Bytes → Bytes) {x : Exchange} (h : x.Sound call.pw contents) {r : Request}
    (hr : r ∈ x.pending) {m : Received} (hm : Delivers contents r m) :
    (Stage.reading x).step sha1 call m = some (loop sha1 call (answered contents x r)) ∧
      x.t.downloaded < (answered contents x r).t.downloaded := by
  obtain ⟨msg, rfl, hp⟩ := hm
  obtain ⟨hindex, hpos, -, hend⟩ := h.inside r (h.pending_sub.subset hr)
  have hinside : r.begin + r.length ≤ call.pw.length.toNat := hend.trans h.requested_le
  have hlen : (slice r.begin r.length contents).length = r.length :=
    slice_length_of_le (hinside.trans_eq hcontents.symm)
  have hbound : r.begin + (slice r.begin r.length contents).length ≤ x.t.buf.length := by
    rw [hlen, h.buf_length]
    exact hinside
  refine ⟨congrArg some (read_own hp hindex hbound), ?_⟩
  rw [answered, Exchange.takeBlock]
  dsimp only
  omega

variable (hindex : call.pw.index < 2 ^ 32) (hlength : call.pw.length.toNat ≤ 2 ^ 32)
  (htarget : ∀ n, 1 ≤ call.target n) (hhash : sha1 contents = call.pw.hash)
include hindex hlength htarget hhash

theorem served_loop {x : Exchange} (h : x.Sound call.pw contents) (hshallow : Shallow call x) :
    Served call contents (loop sha1 call x) := by
  unfold loop
  by_cases hmore : x.t.downloaded < call.pw.length.toNat
  · rw [if_pos hmore]
    have hfill := h.fill hindex hlength (call.target x.round)
    obtain ⟨hdown, hle, hend⟩ := Exchange.backlog_fill call.pw (call.target x.round) x
    refine ⟨hfill, fun most hmost => ?_, hdown ▸ hmore, fun hnone => ?_⟩
    · have hold := hshallow most hmost
      have hdepth := hmost x.round
      rw [hfill.backlog_eq, h.backlog_eq] at hle
      omega
    · -- With nothing open all that was requested is counted, so the loop would have asked.
      have hcount := hfill.downloaded_eq
      rw [hnone, List.map_nil, List.sum_nil] at hcount
      rw [hfill.backlog_eq, hnone, List.length_nil] at hend
      have hone := htarget x.round
      omega
  · rw [if_neg hmore]
    obtain ⟨hall, hbuf⟩ := h.buf_eq_contents hcontents (Nat.le_of_not_lt hmore)
    refine ⟨h, hshallow, hall, ?_⟩
    rw [hbuf, if_pos hhash]

theorem served_enter (c : Client) : Served call contents (enter sha1 call c) := by
  unfold enter
  split_ifs
  · trivial
  · refine served_loop hcontents hindex hlength htarget hhash ?_ fun most _ => Nat.zero_le most
    refine ⟨.nil, ?_, ?_, Nat.zero_le _, .refl _, rfl, rfl, resize_length _ _, ?_⟩
    · exact fun r hr => absurd hr List.not_mem_nil
    · exact fun b hb => absurd hb (Nat.not_lt_zero b)
    · exact fun b hb => absurd hb (Nat.not_lt_zero b)

theorem served_step {s s' : Stage} {m : Received} (h : Served call contents s)
    (hsends : Sends contents s m) (hstep : s.step sha1 call m = some s') :
    Served call contents s' := by
  cases s with
  | choked c =>
    rw [← Option.some.inj hstep]
    exact served_enter hcontents hindex hlength htarget hhash _
  | done x result => cases hstep
  | reading x =>
    obtain ⟨hsound, hshallow, -, -⟩ := h
    rcases hsends with hpolite | ⟨y, hxy, r, hr, hdelivers⟩
    · obtain ⟨c, hc⟩ := step_polite sha1 call hpolite x
      rw [Option.some.inj (hstep.symm.trans hc)]
      exact served_loop hcontents hindex hlength htarget hhash
        ⟨hsound.disjoint, hsound.inside, hsound.covers, hsound.requested_le, hsound.pending_sub,
          hsound.backlog_eq, hsound.downloaded_eq, hsound.buf_length, hsound.buf_eq⟩ hshallow
    · cases hxy
      rw [Option.some.inj (hstep.symm.trans (step_delivers hcontents sha1 hsound hr hdelivers).1)]
      exact served_loop hcontents hindex hlength htarget hhash (hsound.takeBlock hcontents hr)
        (shallow_answered hshallow r)

/-! ## The whole call -/

section

variable {c : Client} {ms : Nat → Received} (hpeer : Honest sha1 call contents c ms)
include hpeer

theorem served_execTo {n : Nat} {s : Stage}
    (h : execTo (step sha1 call) (start sha1 call c) ms n = some s) : Served call contents s := by
  refine execTo_invariant (served_enter hcontents hindex hlength htarget hhash _)
    (fun n t u ht hserved hstep => ?_) h
  refine served_step hcontents hindex hlength htarget hhash hserved (hpeer.sends n t ht ?_) hstep
  rintro x result rfl
  cases hstep

omit hcontents hindex hlength htarget hhash in
/-- The peer unchokes, and the first round begins. -/
theorem exists_unchoked :
    ∃ n s, execTo (step sha1 call) (start sha1 call c) ms n = some s ∧ ∀ c', s ≠ .choked c' := by
  by_cases hchoked : ∃ c₀, start sha1 call c = .choked c₀
  · obtain ⟨c₀, hc₀⟩ := hchoked
    have hfirst : execTo (step sha1 call) (start sha1 call c) ms 0 = some (.choked c₀) :=
      congrArg some hc₀
    obtain ⟨k, hk, hunchoke⟩ := hpeer.unchokes 0 c₀ hfirst
    have hstep : ∀ n t, execTo (step sha1 call) (start sha1 call c) ms n = some t →
        (∃ c', t = .choked c') → ∃ u, step sha1 call t (ms n) = some u ∧
          ((∀ c', u ≠ .choked c') ∨ (∃ c', u = .choked c') ∧ ¬IsUnchoke (ms n)) := by
      rintro n t - ⟨c', rfl⟩
      refine ⟨_, rfl, ?_⟩
      rw [enter]
      cases hnext : ((ms n).elim c' c'.waitMessage).choked with
      | true =>
        refine .inr ⟨⟨_, rfl⟩, ?_⟩
        rintro ⟨msg, hmsg, hid⟩
        rw [hmsg, Option.elim_some, Client.waitMessage, hid] at hnext
        cases hnext
      | false =>
        refine .inl fun c'' h => ?_
        rw [if_neg Bool.false_ne_true, loop] at h
        split_ifs at h
    exact execTo_until hstep hfirst ⟨c₀, rfl⟩ hk hunchoke
  · exact ⟨0, _, rfl, fun c' h => hchoked ⟨c', h⟩⟩

/-- An open request is answered, before or after others. -/
theorem exists_more {n : Nat} {x : Exchange}
    (h : execTo (step sha1 call) (start sha1 call c) ms n = some (.reading x)) :
    ∃ n' u, execTo (step sha1 call) (start sha1 call c) ms n' = some u ∧
      ((∃ y, u = .done y (.ok contents)) ∨
        ∃ y, u = .reading y ∧ x.t.downloaded < y.t.downloaded) := by
  have hserved := served_execTo hcontents hindex hlength htarget hhash hpeer h
  obtain ⟨r, hr⟩ := List.exists_mem_of_ne_nil _ hserved.2.2.2
  obtain ⟨k, hk, hdelivers⟩ := hpeer.answers n x h r hr
  have hstep : ∀ n t, execTo (step sha1 call) (start sha1 call c) ms n = some t →
      (∃ y, t = .reading y ∧ r ∈ y.pending ∧ y.t.downloaded = x.t.downloaded) →
      ∃ u, step sha1 call t (ms n) = some u ∧
        (((∃ y, u = .done y (.ok contents)) ∨
            ∃ y, u = .reading y ∧ x.t.downloaded < y.t.downloaded) ∨
          (∃ y, u = .reading y ∧ r ∈ y.pending ∧ y.t.downloaded = x.t.downloaded) ∧
            ¬Delivers contents r (ms n)) := by
    rintro n t ht ⟨y, rfl, hry, hsame⟩
    have hy := served_execTo hcontents hindex hlength htarget hhash hpeer ht
    rcases hpeer.sends n _ ht (fun _ _ h => nomatch h) with hpolite | ⟨z, hz, r', hr', hr'd⟩
    · obtain ⟨c', hc'⟩ := step_polite sha1 call hpolite y
      rw [loop_of_lt (by exact hy.2.2.1)] at hc'
      refine ⟨_, hc', .inr ⟨⟨_, rfl, Exchange.mem_pending_fill _ hry, ?_⟩, fun hd => ?_⟩⟩
      · exact (Exchange.backlog_fill call.pw _ _).1.trans hsame
      · exact hpolite.not_delivers hd
    · cases hz
      obtain ⟨hnext, hmore⟩ := step_delivers hcontents sha1 hy.1 hr' hr'd
      refine ⟨_, hnext, .inl ?_⟩
      rw [hsame] at hmore
      have hserved' := served_execTo hcontents hindex hlength htarget hhash hpeer
        ((execTo_succ ht).trans hnext)
      by_cases hlt : (answered contents y r').t.downloaded < call.pw.length.toNat
      · refine .inr ⟨_, loop_of_lt hlt, ?_⟩
        rw [(Exchange.backlog_fill call.pw _ _).1]
        exact hmore
      · rw [loop, if_neg hlt] at hserved' ⊢
        exact .inl ⟨_, congrArg _ hserved'.2.2.2⟩
  exact execTo_until hstep h ⟨x, rfl, hr, rfl⟩ hk hdelivers

theorem exists_returned :
    ∃ n x, execTo (step sha1 call) (start sha1 call c) ms n = some (.done x (.ok contents)) := by
  have hnext : ∀ n t, execTo (step sha1 call) (start sha1 call c) ms n = some t →
      (∃ x, t = .reading x) → ∃ n' u, execTo (step sha1 call) (start sha1 call c) ms n' = some u ∧
        ((∃ y, u = .done y (.ok contents)) ∨
          (∃ y, u = .reading y) ∧ missing call u < missing call t) := by
    rintro n t ht ⟨x, rfl⟩
    obtain ⟨n', u, hu, hdone | ⟨y, rfl, hlt⟩⟩ :=
      exists_more hcontents hindex hlength htarget hhash hpeer ht
    · exact ⟨n', u, hu, .inl hdone⟩
    · have hmore := (served_execTo hcontents hindex hlength htarget hhash hpeer ht).2.2.1
      refine ⟨n', _, hu, .inr ⟨⟨y, rfl⟩, ?_⟩⟩
      rw [missing, missing]
      omega
  obtain ⟨n, s, hs, hunchoked⟩ := exists_unchoked hpeer
  cases s with
  | choked c' => exact absurd rfl (hunchoked c')
  | reading x =>
    obtain ⟨n', u, hu, y, rfl⟩ := execTo_leads hnext hs ⟨x, rfl⟩
    exact ⟨n', y, hu⟩
  | done x result =>
    have hserved := served_execTo hcontents hindex hlength htarget hhash hpeer hs
    exact ⟨n, x, hserved.2.2.2 ▸ hs⟩

end

end

theorem orderly_of_sound {x : Exchange} (h : x.Sound call.pw contents) (hshallow : Shallow call x) :
    x.Orderly call := by
  refine ⟨h.disjoint, fun r hr => ?_, h.pending_sub, hshallow⟩
  obtain ⟨hindex, hpos, hsize, hend⟩ := h.inside r hr
  exact ⟨hindex, hpos, hsize, hend.trans h.requested_le⟩

/-- A call to an honest peer returns the piece.  At any time its requests are for different parts
of the piece of at most 16 KiB, and no more of them are open than the greatest depth; in the end
they are for all of it. -/
theorem downloadPiece_honest (hindex : call.pw.index < 2 ^ 32)
    (hlength : call.pw.length.toNat ≤ 2 ^ 32) (htarget : ∀ n, 1 ≤ call.target n)
    (hcontents : contents.length = call.pw.length.toNat) (hhash : sha1 contents = call.pw.hash)
    {c : Client} {ms : Nat → Received} (hpeer : Honest sha1 call contents c ms) :
    (∃ n c', Client.downloadPiece sha1 call c ((List.range n).map ms) = (c', [], .ok contents)) ∧
      (∀ n x, execTo (step sha1 call) (start sha1 call c) ms n = some (.reading x) →
        x.Orderly call) ∧
      ∀ n x result, execTo (step sha1 call) (start sha1 call c) ms n = some (.done x result) →
        x.Orderly call ∧ ∀ b < call.pw.length.toNat, ∃ r ∈ x.t.sent, Exchange.Covers call.pw r b := by
  refine ⟨?_, fun n x hx => ?_, fun n x result hx => ?_⟩
  · obtain ⟨n, x, hx⟩ := exists_returned hcontents hindex hlength htarget hhash hpeer
    have hrun := run_of_exec hx []
    rw [List.append_nil, ← downloadPiece_eq_run, run] at hrun
    exact ⟨n, x.c, hrun⟩
  · obtain ⟨hsound, hshallow, -⟩ :=
      served_execTo hcontents hindex hlength htarget hhash hpeer hx
    exact orderly_of_sound hsound hshallow
  · obtain ⟨hsound, hshallow, hall, -⟩ :=
      served_execTo hcontents hindex hlength htarget hhash hpeer hx
    exact ⟨orderly_of_sound hsound hshallow, hall ▸ hsound.covers⟩

/-- A peer that sends a piece of two bytes and is silent from then on. -/
def exampleStream : Nat → Received
  | 0 => exampleBlock [7, 8]
  | _ + 1 => none

/-- The stages of the call: it reads one message. -/
theorem execTo_exampleStream {n : Nat} {s : Stage}
    (h : execTo (step (fun _ => []) (exampleCall 2 fun _ => 1))
      (start (fun _ => []) (exampleCall 2 fun _ => 1) exampleClient) exampleStream n = some s) :
    (n = 0 ∧ ∃ x, s = .reading x ∧ x.pending = [⟨0, 0, 2⟩]) ∨ ∃ x result, s = .done x result := by
  induction n generalizing s with
  | zero => exact .inl ⟨rfl, _, (Option.some.inj h).symm, rfl⟩
  | succ n ih =>
    rw [execTo_succ_eq] at h
    obtain ⟨t, ht, hstep⟩ := Option.bind_eq_some_iff.mp h
    rcases ih ht with ⟨rfl, -⟩ | ⟨x, result, rfl⟩
    · obtain rfl := Option.some.inj ht
      have hstep : some (read (fun _ => []) (exampleCall 2 fun _ => 1) _ _) = some s := hstep
      rw [read_own (pieceOf_exampleBlock [7, 8]) rfl (by decide), loop, if_neg (by decide)] at hstep
      exact .inr ⟨_, _, (Option.some.inj hstep).symm⟩
    · cases hstep

/-- The peer is honest, and the call returns the two bytes. -/
theorem downloadPiece_honest_two :
    ∃ n c', Client.downloadPiece (fun _ => []) (exampleCall 2 fun _ => 1) exampleClient
      ((List.range n).map exampleStream) = (c', [], .ok [7, 8]) := by
  have hdelivers : Delivers [7, 8] ⟨0, 0, 2⟩ (exampleStream 0) := ⟨_, rfl, rfl⟩
  have hpeer : Honest (fun _ => []) (exampleCall 2 fun _ => 1) [7, 8] exampleClient
      exampleStream := by
    refine ⟨fun n s hs hopen => ?_, fun n c' hs => ?_, fun n x hs r hr => ?_⟩
    · rcases execTo_exampleStream hs with ⟨rfl, x, rfl, hx⟩ | ⟨x, result, rfl⟩
      · exact .inr ⟨x, rfl, _, hx ▸ List.mem_cons_self, hdelivers⟩
      · exact absurd rfl (hopen x result)
    · rcases execTo_exampleStream hs with ⟨-, x, hx, -⟩ | ⟨x, result, hx⟩ <;> cases hx
    · rcases execTo_exampleStream hs with ⟨rfl, y, hy, hx⟩ | ⟨x, result, hx⟩
      · cases hy
        rw [hx] at hr
        exact ⟨0, Nat.le_refl 0, List.mem_singleton.mp hr ▸ hdelivers⟩
      · cases hx
  exact (downloadPiece_honest (by decide) (by decide) (fun _ => Nat.le_refl 1) rfl rfl hpeer).1

/-! ## A piece of more than 4 GiB -/

theorem sent_request_of_lt (pw : PieceWork) (n : Nat) (x : Exchange) {i : Nat}
    (hi : i < x.t.sent.length) : (x.request pw n).t.sent[i]? = x.t.sent[i]? := by
  induction n generalizing x with
  | zero => rfl
  | succ n ih =>
    rw [Exchange.request]
    split_ifs
    · have hlen : (x.ask pw).t.sent.length = x.t.sent.length + 1 := List.length_append
      rw [ih (x.ask pw) (by omega)]
      exact List.getElem?_append_left hi
    · rfl

/-- The requests of a round follow each other, as far as 32 bits can say. -/
theorem sent_request (pw : PieceWork) {n i : Nat} (hi : i < n) (x : Exchange)
    (hlt : x.t.requested + i * blockSize < pw.length.toNat) :
    (x.request pw n).t.sent[x.t.sent.length + i]? = some ⟨pw.index % 2 ^ 32,
      (x.t.requested + i * blockSize) % 2 ^ 32,
      min blockSize (pw.length.toNat - (x.t.requested + i * blockSize))⟩ := by
  induction i generalizing n x with
  | zero =>
    obtain ⟨n, rfl⟩ : ∃ k, n = k + 1 := ⟨n - 1, by omega⟩
    rw [Nat.zero_mul, Nat.add_zero] at hlt ⊢
    have hlen : (x.ask pw).t.sent.length = x.t.sent.length + 1 := List.length_append
    rw [Exchange.request, if_pos hlt, Nat.add_zero, sent_request_of_lt pw n _ (by omega)]
    exact List.getElem?_concat_length
  | succ i ih =>
    obtain ⟨n, rfl⟩ : ∃ k, n = k + 1 := ⟨n - 1, by omega⟩
    have hlen : (x.ask pw).t.sent.length = x.t.sent.length + 1 := List.length_append
    rw [Nat.succ_mul] at hlt ⊢
    have hfull : (x.ask pw).t.requested = x.t.requested + blockSize := by
      rw [Exchange.ask, Exchange.nextRequest]
      dsimp only
      rw [Nat.min_eq_left (by omega)]
    have hnext := ih (n := n) (by omega) (x.ask pw) (by rw [hfull]; omega)
    have hplace : x.t.requested + blockSize + i * blockSize =
        x.t.requested + (i * blockSize + blockSize) := by omega
    rw [hlen, hfull, hplace, Nat.add_assoc, Nat.add_comm 1] at hnext
    rw [Exchange.request, if_pos (by omega), hnext]

/-- The loop of a call for `n` bytes before its first round. -/
def exampleStart (n : Nat) : Exchange :=
  ⟨{ exampleClient with sentInterested := true }, ⟨resize n [], 0, 0, 0, 0, []⟩, 0, [], ∅⟩

theorem start_exampleCall {n : Nat} (hn : 0 < n) (target : Nat → Nat) :
    start sha1 (exampleCall n target) exampleClient =
      .reading ((exampleStart n).fill ⟨0, [], n⟩ (target 0)) :=
  loop_of_lt hn

theorem sent_exampleStart {n k i : Nat} (hi : i < k) (hlt : i * blockSize < n) :
    ((exampleStart n).fill ⟨0, [], n⟩ k).t.sent[i]? =
      some ⟨0, i * blockSize % 2 ^ 32, min blockSize (n - i * blockSize)⟩ := by
  have hsent := sent_request ⟨0, [], n⟩ hi (exampleStart n)
    ((Nat.zero_add _).trans_lt hlt)
  have hempty : (exampleStart n).t.sent.length = 0 := rfl
  have hzero : (exampleStart n).t.requested = 0 := rfl
  rw [hempty, hzero, Nat.zero_add, Nat.zero_add] at hsent
  exact hsent

/-- A piece with one byte more than 4 GiB, at a depth that takes it in one round: the request for
the last byte says that it is for the first. -/
theorem requests_overlap :
    ∃ x, start (fun b => b) (exampleCall (4294967297 : Nat) fun _ => 262145) exampleClient =
        .reading x ∧
      x.t.sent[0]? = some ⟨0, 0, 16384⟩ ∧ x.t.sent[262144]? = some ⟨0, 0, 1⟩ ∧
      ¬x.Orderly (exampleCall (4294967297 : Nat) fun _ => 262145) := by
  have hfirst := sent_exampleStart (n := 4294967297) (k := 262145) (i := 0) (by decide) (by decide)
  have hlast := sent_exampleStart (n := 4294967297) (k := 262145) (i := 262144) (by decide)
    (by decide)
  refine ⟨_, start_exampleCall (by decide) _, hfirst, hlast, fun horderly => ?_⟩
  obtain ⟨hi, hget⟩ := List.getElem?_eq_some_iff.mp hfirst
  obtain ⟨hj, hget'⟩ := List.getElem?_eq_some_iff.mp hlast
  have hdisjoint := List.pairwise_iff_getElem.mp horderly.disjoint 0 262144 hi hj (by decide)
  rw [hget, hget'] at hdisjoint
  exact absurd hdisjoint (by decide)

end Stage

end Stor.Download
