import Stor.Engine.OneRun

/-!
# No more active torrents than allowed

Every place that starts a session has counted the active ones before, `ResumeTorrent`
without the lock.  What was counted, or read, may be outdated when it is acted on.
When it never is (`Fresh`), `activeCount` stays within `MaxActive` in every run that
begins with an empty engine (`activeCount_le_of_fresh`).

A goroutine that is not cancelled and may still write an active state belongs to a
session that is counted already: its code says what it writes and what follows
(`leads`), and the state of the session fits the code (`Fits`).
-/

namespace Stor.Engine
namespace Control

open Lib

variable {e e' : State} {a : Action} {op : Op} {rest next : List Op} {j k : Nat} {s : Session}
  {r : Run} {maxActive : Nat}

/-- The operations of a goroutine that write the state, or lead to such a write. -/
def Op.writes : Op → Bool
  | .phase _ | .setState _ | .exit _ => true
  | _ => false

/-- The goroutine is past its last write of the state. -/
def Run.settled (r : Run) : Bool := !r.code.any Op.writes

/-- The operations of the seed phase, and those behind it. -/
def Op.late : Op → Bool
  | .phase p => p = .seed ∨ p = .seedExit
  | .setState new => !isQueueActive new
  | _ => true

def Op.fresh (e : State) (a : Action) : Op → Bool
  | .setState _ => !e.isCancelled a
  | .setPaused i => (e.sessions[i]?).all fun s => s.runs.all fun r => r.settled || r.cancelled
  | .setAdding i => (e.sessions[i]?).all fun s => s.state = .paused ∨ s.state = .error
  | .start i active =>
    decide (e.activeCount ≤ active) &&
      (e.sessions[i]?).all fun s => s.state = .adding && s.runs.all Run.settled
  | .setMaxActive _ => false
  | _ => true

/-- What the thread has read before still holds where it acts on it: a goroutine
that writes the state is not cancelled, `Pause` writes when the goroutines of the
session are cancelled or settled, `ResumeTorrent` finds the state it has checked, and
a start finds a queued session and no more active ones than were counted. -/
def Fresh (e : State) (a : Action) : Prop := (e.code a).head?.all (Op.fresh e a) = true

instance (e : State) (a : Action) : Decidable (Fresh e a) := inferInstanceAs (Decidable (_ = _))

theorem Performs.fresh (h : Performs e a op rest next e') (hok : Fresh e a) :
    op.fresh e a = true := by
  unfold Fresh at hok
  rw [h.code] at hok
  exact hok

/-! ## Code -/

/-- Behind a write of an active state the run goes on; behind that of a seeder
comes the seed phase; behind any other nothing is written. -/
def leads : List Op → Bool
  | [] => true
  | .setState new :: rest =>
    (if isQueueActive new then rest.any Op.inRun
      else (decide (new = .seeding ∨ new = .complete) && rest.all Op.late) ||
        !rest.any Op.writes) && leads rest
  | _ :: rest => leads rest

theorem leads_append {l m : List Op} (hl : ∀ new, Op.setState new ∉ l) :
    leads (l ++ m) = leads m := by
  induction l with
  | nil => rfl
  | cons op l ih =>
    have ih := ih fun new hn => hl new (List.mem_cons_of_mem op hn)
    cases op with
    | setState new => exact absurd List.mem_cons_self (hl new)
    | _ => exact ih

theorem leads_tail (h : leads (op :: rest) = true) : leads rest = true := by
  cases op with
  | setState new =>
    rw [leads, Bool.and_eq_true] at h
    exact h.2
  | _ => exact h

theorem Phase.GoesTo.leads {p : Phase} (h : p.GoesTo next) : Control.leads next = true := by
  cases h with
  | _ => rfl

theorem Follows.leads (h : Follows op next) (hends : EndsRun (op :: rest))
    (hleads : Control.leads (op :: rest) = true) : Control.leads (next ++ rest) = true := by
  have htail := leads_tail hleads
  cases h with
  | phase h =>
    rw [hends.1 rfl, List.append_nil]
    exact (Phase.after_goesTo h).leads
  | exitError =>
    rw [hends.1 rfl]
    rfl
  | _ =>
    rw [leads_append (by simp [startQueued])]
    exact htail

theorem leads_step (h : e.step a = some e') (hends : Codes EndsRun e)
    (hleads : Codes (fun code => leads code = true) e) :
    Codes (fun code => leads code = true) e' := by
  have hboth : Codes (fun code => EndsRun code ∧ leads code = true) e' := by
    apply codes_step (P := fun code => EndsRun code ∧ leads code = true) _ _ _ h
    · exact ⟨fun j s hs r hr => ⟨hends.1 j s hs r hr, hleads.1 j s hs r hr⟩,
        fun code hcode => ⟨hends.2 code hcode, hleads.2 code hcode⟩⟩
    · exact ⟨⟨fun _ => rfl, trivial⟩, rfl⟩
    · intro k
      cases k <;> simp [Call.code, startQueued, EndsRun, Op.inRun, leads]
    · intro op rest next hperf hcode
      exact ⟨hperf.follows.endsRun hcode.1, hperf.follows.leads hcode.1 hcode.2⟩
  exact ⟨fun j s hs r hr => (hboth.1 j s hs r hr).2, fun code hcode => (hboth.2 code hcode).2⟩

theorem Follows.not_writes (h : Follows op next) (hop : op.writes = false) :
    next.any Op.writes = false := by
  cases h with
  | phase h => cases hop
  | exitError => cases hop
  | _ => rfl

/-- A run that may write behind a step of its goroutine might write before. -/
theorem Follows.writes_before (h : Follows op next) (hw : (next ++ rest).any Op.writes = true) :
    (op :: rest).any Op.writes = true := by
  rw [List.any_append, Bool.or_eq_true] at hw
  rw [List.any_cons, Bool.or_eq_true]
  cases hop : op.writes with
  | true => exact .inl rfl
  | false =>
    rw [h.not_writes hop] at hw
    exact .inr (hw.resolve_left Bool.false_ne_true)

theorem Phase.GoesTo.late {p : Phase} (h : p.GoesTo next) (hp : (Op.phase p).late = true) :
    next.all Op.late = true := by
  cases h with
  | seeded | complete | failed | cancelled => rfl
  | _ => cases hp

theorem Follows.late (h : Follows op next) (hop : op.late = true) : next.all Op.late = true := by
  cases h with
  | phase h => exact (Phase.after_goesTo h).late hop
  | _ => rfl

/-! ## Sessions -/

/-- At most one goroutine of the session may still write, and the state fits what it
has left to do. -/
structure Fits (s : Session) : Prop where
  one : ∀ (k m : Nat) r q, s.runs[k]? = some r → s.runs[m]? = some q → r.settled = false →
    q.settled = false → k = m
  fit : ∀ r ∈ s.runs, r.settled = true ∨ r.cancelled = true ∨ isQueueActive s.state = true ∨
    (s.isSeeder = true ∧ r.code.all Op.late = true)

theorem fits_new (id infoHash : Bytes) (p : Int) : Fits (Session.new id infoHash p) := by
  constructor
  · intro k m r q hr
    cases hr
  · intro r hr
    cases hr

namespace Performs

variable (h : Performs e a op rest next e')
include h

theorem settled_self (hs : e.sessions[j]? = some s) (hself : a.self = some (j, k))
    (hr : s.runs[k]? = some r) (hset : r.settled = true) : (next ++ rest).any Op.writes = false := by
  rw [Run.settled, h.self_code hs hself hr, Bool.not_eq_true'] at hset
  cases hw : (next ++ rest).any Op.writes with
  | false => rfl
  | true => rw [h.follows.writes_before hw] at hset; cases hset

/-- A goroutine that may write behind a step might write before, or is new. -/
theorem unsettled_before {r' : Run} (hs : e.sessions[j]? = some s)
    (hr' : (a.session j op (next ++ rest) s).runs[k]? = some r') (hset : r'.settled = false) :
    (∃ r, s.runs[k]? = some r ∧ r.settled = false) ∨ k = s.runs.length ∧ ∃ n, op = .start j n := by
  obtain ⟨r, hr, rfl⟩ | ⟨-, hk, hn⟩ := h.run_cases hs hr'
  · refine .inl ⟨r, hr, ?_⟩
    by_cases hself : a.self = some (j, k)
    · simp only [Run.settled, hself, if_true, Bool.not_eq_false'] at hset
      cases hrs : r.settled with
      | false => rfl
      | true => rw [h.settled_self hs hself hr hrs] at hset; cases hset
    · simpa only [Run.settled, hself, if_false] using hset
  · exact .inr ⟨hk, hn⟩

theorem fresh_start {n : Nat} (hok : Fresh e a) (hop : op = .start j n)
    (hs : e.sessions[j]? = some s) :
    e.activeCount ≤ n ∧ s.state = .adding ∧ ∀ r ∈ s.runs, r.settled = true := by
  have hf := h.fresh hok
  rw [hop] at hf
  simp only [Op.fresh, hs, Option.all_some, Bool.and_eq_true, decide_eq_true_eq] at hf
  exact ⟨hf.1, hf.2.1, List.all_eq_true.mp hf.2.2⟩

theorem fresh_setPaused (hok : Fresh e a) (hop : op = .setPaused j) (hs : e.sessions[j]? = some s) :
    ∀ r ∈ s.runs, r.settled = true ∨ r.cancelled = true := by
  have hf := h.fresh hok
  rw [hop] at hf
  simp only [Op.fresh, hs, Option.all_some] at hf
  intro r hr
  exact (Bool.or_eq_true _ _).mp (List.all_eq_true.mp hf r hr)

theorem fresh_setAdding (hok : Fresh e a) (hop : op = .setAdding j) (hs : e.sessions[j]? = some s) :
    s.state = .paused ∨ s.state = .error := by
  have hf := h.fresh hok
  rw [hop] at hf
  simpa only [Op.fresh, hs, Option.all_some, decide_eq_true_eq] using hf

theorem fresh_setState {new : TorrentState} (hok : Fresh e a) (hop : op = .setState new)
    (hs : e.sessions[j]? = some s) (hself : a.self = some (j, k)) (hr : s.runs[k]? = some r) :
    r.cancelled = false := by
  have hf := h.fresh hok
  rw [hop] at hf
  simpa only [Op.fresh, State.isCancelled, hself, hs, hr, Option.any_some, Bool.not_eq_true'] using hf

/-- The goroutine behind its own write of the state. -/
theorem fit_setState {new : TorrentState} (hleads : Codes (fun code => leads code = true) e)
    (hop : op = .setState new) (hs : e.sessions[j]? = some s) (hself : a.self = some (j, k)) :
    isQueueActive new = true ∨ (next ++ rest).any Op.writes = false ∨
      ((new = .seeding ∨ new = .complete) ∧ (next ++ rest).all Op.late = true) := by
  obtain ⟨q, hq, hcode⟩ := h.self_run hs hself
  have hlead := hleads.1 j s hs q (List.mem_of_getElem? hq)
  rw [hcode, hop, leads, Bool.and_eq_true] at hlead
  have hnext : next.any Op.writes = false ∧ next.all Op.late = true := by
    have hfollows := h.follows
    rw [hop] at hfollows
    cases hfollows <;> exact ⟨rfl, rfl⟩
  rw [List.any_append, hnext.1, Bool.false_or, List.all_append, hnext.2, Bool.true_and]
  by_cases hactive : isQueueActive new = true
  · exact .inl hactive
  · refine .inr ?_
    have hlead := hlead.1
    rw [if_neg hactive, Bool.or_eq_true, Bool.and_eq_true, decide_eq_true_eq,
      Bool.not_eq_true'] at hlead
    exact hlead.symm

end Performs

namespace Fits

variable (h : Fits s) (hperf : Performs e a op rest next e')
  (hleads : Codes (fun code => leads code = true) e) (hs : e.sessions[j]? = some s)
  (hok : Fresh e a)
include h hperf hs hok

theorem session_one (k m : Nat) (r q : Run)
    (hr : (a.session j op (next ++ rest) s).runs[k]? = some r)
    (hq : (a.session j op (next ++ rest) s).runs[m]? = some q)
    (hrs : r.settled = false) (hqs : q.settled = false) : k = m := by
  obtain ⟨r₀, hr₀, hrs₀⟩ | ⟨hk, n, hop⟩ := hperf.unsettled_before hs hr hrs
  · obtain ⟨q₀, hq₀, hqs₀⟩ | ⟨-, n, hop⟩ := hperf.unsettled_before hs hq hqs
    · exact h.one k m r₀ q₀ hr₀ hq₀ hrs₀ hqs₀
    · rw [(hperf.fresh_start hok hop hs).2.2 r₀ (List.mem_of_getElem? hr₀)] at hrs₀
      cases hrs₀
  · obtain ⟨q₀, hq₀, hqs₀⟩ | ⟨hm, -⟩ := hperf.unsettled_before hs hq hqs
    · rw [(hperf.fresh_start hok hop hs).2.2 q₀ (List.mem_of_getElem? hq₀)] at hqs₀
      cases hqs₀
    · rw [hk, hm]

include hleads in
theorem session_fit (r' : Run) (hr' : r' ∈ (a.session j op (next ++ rest) s).runs) :
    r'.settled = true ∨ r'.cancelled = true ∨
      isQueueActive (a.session j op (next ++ rest) s).state = true ∨
      ((a.session j op (next ++ rest) s).isSeeder = true ∧ r'.code.all Op.late = true) := by
  simp only [Session.isSeeder, Action.session_state]
  obtain ⟨k, hk⟩ := List.mem_iff_getElem?.mp hr'
  obtain ⟨r, hr, rfl⟩ | ⟨-, -, n, hop⟩ := hperf.run_cases hs hk
  · have hmem := List.mem_of_getElem? hr
    -- a settled or cancelled goroutine stays so
    have hstay : r.settled = true ∨ r.cancelled = true →
        (!(if a.self = some (j, k) then next ++ rest else r.code).any Op.writes) = true ∨
          (r.cancelled || decide (op = .pause j ∧ s.cancel = some k)) = true := by
      intro hrs
      obtain hrs | hrs := hrs
      · refine .inl ?_
        by_cases hself : a.self = some (j, k)
        · rw [if_pos hself, hperf.settled_self hs hself hr hrs]
          rfl
        · rw [if_neg hself]
          exact hrs
      · rw [hrs]
        exact .inr rfl
    obtain hstate | hop | hop | ⟨new, m, hop, hself, hnew⟩ := effect_state_cases op a.self j s
    · rw [hstate]
      obtain hrs | hrs | hrs | hrs := h.fit r hmem
      · exact (hstay (.inl hrs)).imp_right .inl
      · exact (hstay (.inr hrs)).imp_right .inl
      · exact .inr (.inr (.inl hrs))
      · refine .inr (.inr (.inr ⟨hrs.1, ?_⟩))
        by_cases hself : a.self = some (j, k)
        · have hlate := hrs.2
          rw [hperf.self_code hs hself hr, List.all_cons, Bool.and_eq_true] at hlate
          simp only [hself, if_true]
          rw [List.all_append, hperf.follows.late hlate.1, hlate.2]
          rfl
        · simp only [hself, if_false]
          exact hrs.2
    · exact (hstay (hperf.fresh_setPaused hok hop hs r hmem)).imp_right .inl
    · refine .inr (.inr (.inl ?_))
      simp only [hop, Op.effect, if_true]
      rfl
    · rw [hnew]
      obtain ⟨q, hq, hcode⟩ := hperf.self_run hs hself
      have hqs : q.settled = false := by
        rw [Run.settled, hcode, hop]
        rfl
      by_cases hkm : k = m
      · subst hkm
        simp only [Run.settled, hself, if_true, Bool.not_eq_true', decide_eq_true_eq]
        obtain hcase | hcase | hcase := hperf.fit_setState hleads hop hs hself
        · exact .inr (.inr (.inl hcase))
        · exact .inl hcase
        · exact .inr (.inr (.inr hcase))
      · have hrs : r.settled = true := by
          cases hrs : r.settled with
          | true => rfl
          | false => exact absurd (h.one k m r q hr hq hrs hqs) hkm
        exact (hstay (.inl hrs)).imp_right .inl
  · -- a new goroutine belongs to a queued session
    refine .inr (.inr (.inl ?_))
    rw [hop, effect_state (fun new hn => by cases hn) (by simp) (by simp),
      (hperf.fresh_start hok hop hs).2.1]
    rfl

include hleads in
theorem session : Fits (a.session j op (next ++ rest) s) :=
  ⟨h.session_one hperf hs hok, h.session_fit hperf hleads hs hok⟩

end Fits

/-! ## The count -/

theorem Session.counted_iff {s : Session} :
    s.counted = true ↔ s.listed = true ∧ isQueueActive s.state = true ∧
      (s.state = .adding → s.isRunning = true) := by
  unfold Session.counted
  rw [Bool.and_eq_true]
  cases s.state <;> simp [isQueueActive]

/-- Only a start sets `s.cancel`. -/
theorem effect_isRunning {self : Option (Nat × Nat)} (hstart : ∀ n, op ≠ .start j n)
    (h : (op.effect self j s).isRunning = true) : s.isRunning = true := by
  by_cases hpause : op = .pause j
  · rw [hpause] at h
    simp only [Op.effect, if_true, Session.isRunning, Session.pause_cancel, Option.isSome_none,
      Bool.false_eq_true] at h
  · by_cases hexit : op.isExit = true ∧ self.map Prod.fst = some j
    · obtain ⟨hop, hself⟩ := hexit
      cases op with
      | exit failed =>
        simp only [Op.effect, if_pos hself, Session.isRunning, Option.isSome_none,
          Bool.false_eq_true] at h
      | _ => cases hop
    · rwa [Session.isRunning, effect_cancel hstart hpause fun hop hself => hexit ⟨hop, hself⟩] at h

/-- The session of a live goroutine is active, unless the goroutine is past its
download. -/
theorem Fits.live (hfit : Fits s) (hr : s.runs[k]? = some r) (hl : r.live = true) :
    isQueueActive s.state = true ∨ (s.isSeeder = true ∧ r.code.all Op.late = true) := by
  obtain ⟨hrun, hcancelled⟩ := Run.live_iff.mp hl
  obtain hrs | hrs | hrs := hfit.fit r (List.mem_of_getElem? hr)
  · rw [Run.settled, Bool.not_eq_true', List.any_eq_false] at hrs
    obtain ⟨o, ho, hin⟩ := List.any_eq_true.mp hrun
    refine absurd ?_ (hrs o ho)
    cases o with
    | phase p => rfl
    | exit failed => rfl
    | _ => cases hin
  · rw [hcancelled] at hrs
    cases hrs
  · exact hrs

/-- A session without a start that is counted behind a step was counted before. -/
theorem counted_before (hone : OneRun s) (hfit : Fits s) (hperf : Performs e a op rest next e')
    (hleads : Codes (fun code => leads code = true) e) (hs : e.sessions[j]? = some s)
    (hok : Fresh e a) (hstart : ∀ n, op ≠ .start j n)
    (h : (a.session j op (next ++ rest) s).counted = true) : s.counted = true := by
  rw [Session.counted_iff, Session.isRunning, Action.session_listed, Action.session_state,
    Action.session_cancel] at h
  obtain ⟨hlisted, hactive, hrunning⟩ := h
  rw [Session.counted_iff]
  rw [effect_listed, Bool.and_eq_true] at hlisted
  refine ⟨hlisted.1, ?_⟩
  obtain hstate | hop | hop | ⟨new, m, hop, hself, hnew⟩ := effect_state_cases op a.self j s
  · rw [hstate] at hactive hrunning
    exact ⟨hactive, fun hadding => effect_isRunning hstart (hrunning hadding)⟩
  · simp only [hop, Op.effect, if_true, isQueueActive, Bool.false_eq_true] at hactive
  · -- a session that `ResumeTorrent` finds has no live goroutine
    have hcan := effect_isRunning hstart (hrunning (by simp only [hop, Op.effect, if_true]))
    obtain ⟨k, hk⟩ := Option.isSome_iff_exists.mp hcan
    obtain ⟨r, hr, hl⟩ := (hone.cancel k).mp hk
    have hlive := hfit.live hr hl
    obtain hst | hst := hperf.fresh_setAdding hok hop hs
    all_goals
      simp only [hst, isQueueActive, Session.isSeeder, Bool.false_eq_true, reduceCtorEq, or_self,
        decide_false, false_and] at hlive
  · rw [hnew] at hactive
    obtain ⟨r, hr, hcode⟩ := hperf.self_run hs hself
    have hlead := hleads.1 j s hs r (List.mem_of_getElem? hr)
    rw [hcode, hop, leads, if_pos hactive, Bool.and_eq_true] at hlead
    have hl : r.live = true := by
      rw [Run.live_iff]
      refine ⟨?_, hperf.fresh_setState hok hop hs hself hr⟩
      rw [Run.running, hcode, List.any_cons, hlead.1, Bool.or_true]
    have hrun : s.isRunning = true := by
      rw [Session.isRunning, (hone.cancel m).mpr ⟨r, hr, hl⟩]
      rfl
    obtain hst | hst := hfit.live hr hl
    · exact ⟨hst, fun _ => hrun⟩
    · have hlate := hst.2
      rw [hcode, hop, List.all_cons, Bool.and_eq_true, Op.late, hactive] at hlate
      cases hlate.1

/-! ## The invariant -/

/-- Every start was counted below the limit. -/
def StartsBelow (maxActive : Nat) (code : List Op) : Prop :=
  ∀ i n, Op.start i n ∈ code → n < maxActive

structure Within (maxActive : Nat) (e : State) : Prop where
  limit : e.maxActive = maxActive
  ends : Codes EndsRun e
  leads : Codes (fun code => leads code = true) e
  below : Codes (StartsBelow maxActive) e
  one : ∀ (j : Nat) s, e.sessions[j]? = some s → OneRun s
  fits : ∀ (j : Nat) s, e.sessions[j]? = some s → Fits s
  count : e.activeCount ≤ maxActive

theorem Run.not_running_of_settled {r : Run} (h : r.settled = true) : r.running = false := by
  rw [Run.settled, Bool.not_eq_true', List.any_eq_false] at h
  rw [Run.running, List.any_eq_false]
  intro op hop hin
  apply h op hop
  cases op with
  | phase p => rfl
  | exit failed => rfl
  | _ => cases hin

theorem Fresh.startsAlone (hok : Fresh e a) : StartsAlone e a := by
  intro s hs r hr
  rw [Option.mem_def, State.starting] at hs
  split at hs
  next i n hop =>
    unfold Fresh at hok
    rw [hop, Option.all_some, Op.fresh, hs, Option.all_some, Bool.and_eq_true,
      Bool.and_eq_true] at hok
    exact Run.not_running_of_settled (List.all_eq_true.mp hok.2.2 r hr)
  next => cases hs

/-- A session is started behind a count below the limit. -/
theorem Performs.start_below {i n : Nat} (h : Performs e a op rest next e')
    (hmem : Op.start i n ∈ next) : n < e.maxActive := by
  obtain ⟨e₁, hp, -⟩ := h.after
  cases op with
  | startNext active queued =>
    cases queued with
    | nil =>
      rw [← (Prod.mk.inj (Option.some.inj hp)).2] at hmem
      cases hmem
    | cons m queued =>
      simp only [State.perform] at hp
      split at hp
      · rw [← (Prod.mk.inj (Option.some.inj hp)).2] at hmem
        cases hmem
      next hlt =>
        obtain ⟨s, -, hp⟩ := Option.map_eq_some_iff.mp hp
        rw [← (Prod.mk.inj hp).2] at hmem
        split at hmem
        · simp at hmem
        · simp only [List.mem_cons, Op.start.injEq, reduceCtorEq, List.not_mem_nil, or_self,
            or_false] at hmem
          omega
  | startIfFree m =>
    rw [← (Prod.mk.inj (Option.some.inj hp)).2] at hmem
    split at hmem
    · simp only [List.mem_cons, Op.start.injEq, List.not_mem_nil, or_false] at hmem
      omega
    · cases hmem
  | phase p =>
    exfalso
    obtain ⟨_, _, _, _, -, -, -, hafter⟩ := h.phase_after rfl
    cases Phase.after_goesTo hafter with
    | _ => simp at hmem
  | _ =>
    exfalso
    have hfollows := h.follows
    cases hfollows <;> simp [startQueued] at hmem

theorem startsBelow_step (h : e.step a = some e') (hlimit : e.maxActive = maxActive)
    (hbelow : Codes (StartsBelow maxActive) e) : Codes (StartsBelow maxActive) e' := by
  apply codes_step _ _ _ h hbelow
  · intro i n hmem
    simp at hmem
  · intro k i n hmem
    cases k <;> simp [Call.code, startQueued] at hmem
  · intro op rest next hperf hcode i n hmem
    obtain hmem | hmem := List.mem_append.mp hmem
    · exact hlimit ▸ hperf.start_below hmem
    · exact hcode i n (List.mem_cons_of_mem op hmem)

namespace Within

variable (h : Within maxActive e) (hperf : Performs e a op rest next e') (hok : Fresh e a)
include h hperf hok

/-- A session behind a step that is counted and was not started was counted before. -/
theorem counted_before {s' : Session} (hs' : e'.sessions[j]? = some s') (hc : s'.counted = true)
    (hstart : ∀ n, op ≠ .start j n) : ∃ s, e.sessions[j]? = some s ∧ s.counted = true := by
  cases hs : e.sessions[j]? with
  | none =>
    obtain ⟨id, infoHash, p, -, rfl⟩ := hperf.session_new hs hs'
    cases hc
  | some s =>
    obtain ⟨p, hp⟩ := hperf.session hs
    rw [hs', Option.some_inj] at hp
    subst hp
    exact ⟨s, rfl, Control.counted_before (h.one j s hs) (h.fits j s hs) hperf h.leads hs hok
      hstart hc⟩

theorem count_step : e'.activeCount ≤ maxActive := by
  by_cases hstart : ∃ i n, op = .start i n
  · obtain ⟨i, n, hop⟩ := hstart
    have hle : e'.activeCount ≤ e.activeCount + 1 := by
      apply countP_le_succ_of_places (i := i)
      intro j s' hji hs' hc
      apply h.counted_before hperf hok hs' hc
      intro n' hn'
      rw [hop] at hn'
      injection hn' with hij
      exact hji hij.symm
    -- the session is there, and the count it acts on is not outdated
    have hcount : e.activeCount ≤ n := by
      have hf := hperf.fresh hok
      rw [hop, Op.fresh, Bool.and_eq_true, decide_eq_true_eq] at hf
      exact hf.1
    have hlt : n < maxActive := hperf.of_codes h.below i n (by rw [hop]; exact List.mem_cons_self)
    omega
  · have hle : e'.activeCount ≤ e.activeCount := by
      apply countP_le_of_places
      intro j s' hs' hc
      exact h.counted_before hperf hok hs' hc fun n hn => hstart ⟨j, n, hn⟩
    have := h.count
    omega

end Within

theorem within_step (h : e.step a = some e') (hok : Fresh e a) (hinv : Within maxActive e) :
    Within maxActive e' := by
  have hone := oneRun_step h hok.startsAlone ⟨hinv.ends, hinv.one⟩
  refine ⟨?_, hone.1, leads_step h hinv.ends hinv.leads, startsBelow_step h hinv.limit hinv.below,
    hone.2, ?_, ?_⟩
  · obtain ⟨k, -, rfl⟩ | ⟨op, rest, next, hperf⟩ := step_cases h
    · exact hinv.limit
    · rw [hperf.maxActive_eq, hinv.limit]
      intro n hop
      have hf := hperf.fresh hok
      rw [hop] at hf
      cases hf
  · apply sessions_step (P := fun _ s => Fits s) _ _ _ h hinv.fits
    · intro j s p hfits
      exact ⟨hfits.one, hfits.fit⟩
    · intro j id infoHash p
      exact fits_new id infoHash p
    · intro op rest next hperf j s hs hfits
      exact hfits.session hperf hinv.leads hs hok
  · obtain ⟨k, -, rfl⟩ | ⟨op, rest, next, hperf⟩ := step_cases h
    · exact hinv.count
    · exact hinv.count_step hperf hok

theorem within_new (maxActive : Nat) : Within maxActive (State.new maxActive) := by
  refine ⟨rfl, codes_new maxActive ⟨(fun h => by cases h), trivial⟩, codes_new maxActive rfl,
    codes_new maxActive (by intro i n hmem; simp at hmem), ?_, ?_, Nat.zero_le _⟩
  · intro j s hs
    cases hs
  · intro j s hs
    cases hs

/-- In every run from an empty engine in which no thread acts on something outdated,
`activeCount` is at most `MaxActive`. -/
theorem activeCount_le_of_fresh (maxActive : Nat) (as : List Action) (e : State)
    (hok : Guarded State.step Fresh (State.new maxActive) as)
    (h : exec State.step (State.new maxActive) as = some e) :
    e.maxActive = maxActive ∧ e.activeCount ≤ maxActive := by
  have hinv := exec_invariant (fun _ _ _ hinv hok hstep => within_step hstep hok hinv)
    (within_new maxActive) hok h
  exact ⟨hinv.limit, hinv.count⟩

theorem activeCount_pauseThenResume :
    ∃ e, exec State.step (State.new 1) pauseThenResume = some e ∧
      e.maxActive = 1 ∧ e.activeCount ≤ 1 := by
  have hrun : (exec State.step (State.new 1) pauseThenResume).isSome = true := by decide +kernel
  obtain ⟨e, he⟩ := Option.isSome_iff_exists.mp hrun
  exact ⟨e, he, activeCount_le_of_fresh 1 pauseThenResume e (by decide +kernel) he⟩

/-- Two paused torrents, whose goroutines have ended, are resumed at the same time:
both calls count before either of them starts its session. -/
def resumeBoth : List Action :=
  addAndStart 1 [0] [0] ++ goToPeers 0 0 ++ pauseCall 2 0 ++ leavePeers 0 0 ++
    addAndStart 3 [1] [1] ++ goToPeers 1 0 ++ pauseCall 4 1 ++ leavePeers 1 0 ++
    [Action.call (.resumeTorrent 0), .call (.resumeTorrent 1)] ++
    List.replicate 5 (Action.thread 5 .next) ++ List.replicate 5 (Action.thread 6 .next) ++
    [Action.thread 5 .next, .thread 6 .next]

def Action.isSetMaxActive : Action → Bool
  | .call (.setMaxActive _) => true
  | _ => false

theorem not_activeCount_le_resumeBoth :
    ¬ ∀ (maxActive : Nat) (as : List Action) (e : State),
      (∀ a ∈ as, a.isSetMaxActive = false) →
      exec State.step (State.new maxActive) as = some e → e.activeCount ≤ maxActive := by
  intro hall
  obtain ⟨e, he, hcount⟩ : ∃ e, exec State.step (State.new 1) resumeBoth = some e ∧
      e.activeCount = 2 := by decide +kernel
  have hle := hall 1 resumeBoth e (by decide +kernel) he
  omega

end Control
end Stor.Engine
