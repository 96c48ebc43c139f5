import Stor.Engine.ControlStep

/-!
# One run of a session at a time

A goroutine of `Session.Start` is running until its exit section has set `s.cancel`
to nil, and live while it is running and not cancelled.  The exit section does not
ask whose cancel function it clears, and `ResumeTorrent` starts a session without the
lock of the engine.  When every start finds no goroutine of the session still
running, a session has at most one live goroutine, and `s.cancel` is set exactly
when it has one (`oneLive_of_startsAlone`).
-/

namespace Stor.Engine
namespace Control

open Lib

variable {e e' : State} {a : Action} {op : Op} {rest next : List Op} {j k : Nat} {s : Session}
  {r : Run}

/-- The operations of a goroutine up to its exit section. -/
def Op.inRun : Op → Bool
  | .phase _ | .exit _ => true
  | _ => false

/-- The goroutine has not passed its exit section. -/
def Run.running (r : Run) : Bool := r.code.any Op.inRun

def Run.live (r : Run) : Bool := r.running && !r.cancelled

/-- A place of `run`, or the exit section, is the last thing in the code. -/
def EndsRun : List Op → Prop
  | [] => True
  | op :: rest => (op.inRun → rest = []) ∧ EndsRun rest

theorem endsRun_append {l m : List Op} (hl : ∀ op ∈ l, op.inRun = false) (hm : EndsRun m) :
    EndsRun (l ++ m) := by
  induction l with
  | nil => exact hm
  | cons op l ih =>
    refine ⟨fun h => ?_, ih fun o ho => hl o (List.mem_cons_of_mem op ho)⟩
    rw [hl op List.mem_cons_self] at h
    cases h

theorem Phase.GoesTo.inRun {p : Phase} (h : p.GoesTo next) :
    EndsRun next ∧ next.any Op.inRun := by
  cases h with
  | _ => exact ⟨by simp [EndsRun, Op.inRun], rfl⟩

/-- Behind the exit section nothing of the run is left, and an operation outside
the run brings nothing of it back. -/
theorem Follows.not_inRun (h : Follows op next) (hop : ∀ p, op ≠ .phase p) :
    ∀ o ∈ next, o.inRun = false := by
  have hall : next.all (fun o => !o.inRun) = true := by
    cases h with
    | phase h => exact absurd rfl (hop _)
    | _ => rfl
  intro o ho
  rw [← Bool.not_eq_true']
  exact List.all_eq_true.mp hall o ho

theorem Follows.endsRun (h : Follows op next) (hends : EndsRun (op :: rest)) :
    EndsRun (next ++ rest) := by
  by_cases hop : ∃ p, op = .phase p
  · obtain ⟨p, rfl⟩ := hop
    cases h with
    | phase h =>
      rw [hends.1 rfl, List.append_nil]
      exact (Phase.after_goesTo h).inRun.1
    | nothing h => cases h
  · exact endsRun_append (h.not_inRun fun p hp => hop ⟨p, hp⟩) hends.2

/-- Only the exit section ends a run. -/
theorem Follows.running (h : Follows op next) (hends : EndsRun (op :: rest)) :
    (next ++ rest).any Op.inRun = ((op :: rest).any Op.inRun && !op.isExit) := by
  by_cases hop : ∃ p, op = .phase p
  · obtain ⟨p, rfl⟩ := hop
    cases h with
    | phase h =>
      rw [hends.1 rfl, List.append_nil, (Phase.after_goesTo h).inRun.2]
      rfl
    | nothing h => cases h
  · have hnext : next.any Op.inRun = false := by
      rw [List.any_eq_false]
      intro o ho
      rw [h.not_inRun (fun p hp => hop ⟨p, hp⟩) o ho]
      exact Bool.false_ne_true
    rw [List.any_append, hnext, Bool.false_or, List.any_cons]
    cases op with
    | phase p => exact absurd ⟨p, rfl⟩ hop
    | exit failed =>
      rw [hends.1 rfl]
      rfl
    | _ => exact (Bool.and_true _).symm

/-- A run that is running behind a step of its own goroutine was running before. -/
theorem Follows.running_before (h : Follows op next) (hrun : (next ++ rest).any Op.inRun = true) :
    (op :: rest).any Op.inRun = true := by
  rw [List.any_append, Bool.or_eq_true] at hrun
  rw [List.any_cons, Bool.or_eq_true]
  obtain hrun | hrun := hrun
  · refine .inl ?_
    obtain ⟨o, ho, hin⟩ := List.any_eq_true.mp hrun
    by_cases hphase : ∃ p, op = .phase p
    · obtain ⟨p, rfl⟩ := hphase
      rfl
    · rw [h.not_inRun (fun p hp => hphase ⟨p, hp⟩) o ho] at hin
      cases hin
  · exact .inr hrun

namespace Performs

variable (h : Performs e a op rest next e')
include h

/-- The run `k` of the session `j` behind a step. -/
theorem run_running (hends : Codes EndsRun e) (hs : e.sessions[j]? = some s)
    (hr : s.runs[k]? = some r) :
    ∃ r', (a.session j op (next ++ rest) s).runs[k]? = some r' ∧
      r'.cancelled = (r.cancelled || decide (op = .pause j ∧ s.cancel = some k)) ∧
      r'.running = (r.running && !(decide (a.self = some (j, k)) && op.isExit)) := by
  refine ⟨_, session_run _ hr, rfl, ?_⟩
  by_cases ha : a.self = some (j, k)
  · have hcode := h.self_code hs ha hr
    simp only [Run.running, ha, if_true, decide_true, Bool.true_and, hcode]
    exact h.follows.running (hcode ▸ hends.1 j s hs r (List.mem_of_getElem? hr))
  · simp only [Run.running, ha, if_false, decide_false, Bool.false_and, Bool.not_false,
      Bool.and_true]

end Performs

theorem endsRun_step (h : e.step a = some e') (hends : Codes EndsRun e) : Codes EndsRun e' := by
  apply codes_step _ _ _ h hends
  · exact ⟨fun _ => rfl, trivial⟩
  · intro k
    cases k <;> simp [Call.code, startQueued, EndsRun, Op.inRun]
  · intro op rest next hperf hcode
    exact hperf.follows.endsRun hcode

/-! ## The invariant -/

/-- At most one goroutine of the session is running, and `s.cancel` belongs to it
unless it is cancelled. -/
structure OneRun (s : Session) : Prop where
  single : ∀ (k m : Nat) r q, s.runs[k]? = some r → s.runs[m]? = some q → r.running → q.running →
    k = m
  cancel : ∀ k : Nat, s.cancel = some k ↔ ∃ r, s.runs[k]? = some r ∧ r.live

/-- The session that the step of `a` starts. -/
def State.starting (e : State) (a : Action) : Option Session :=
  match (e.code a).head? with
  | some (.start i _) => e.sessions[i]?
  | _ => none

/-- The session that `a` starts has no running goroutine. -/
def StartsAlone (e : State) (a : Action) : Prop := ∀ s ∈ e.starting a, ∀ r ∈ s.runs, r.running = false

instance (e : State) (a : Action) : Decidable (StartsAlone e a) :=
  inferInstanceAs (Decidable (∀ s ∈ e.starting a, ∀ r ∈ s.runs, r.running = false))

theorem Performs.starting {i n : Nat} (h : Performs e a (.start i n) rest next e')
    (hs : e.sessions[i]? = some s) : s ∈ e.starting a := by
  show e.starting a = some s
  unfold State.starting
  rw [h.code]
  exact hs

theorem oneRun_new (id infoHash : Bytes) (p : Int) : OneRun (Session.new id infoHash p) := by
  constructor
  · intro k m r q hr
    cases hr
  · intro k
    constructor
    · intro h
      cases h
    · intro h
      obtain ⟨r, hr, -⟩ := h
      cases hr

theorem Run.live_iff {r : Run} : r.live = true ↔ r.running = true ∧ r.cancelled = false := by
  rw [Run.live, Bool.and_eq_true, Bool.not_eq_true']

namespace Performs

variable (h : Performs e a op rest next e') (hends : Codes EndsRun e)
include h hends

/-- A run that is running behind a step was running before, or is the new one. -/
theorem running_before {r' : Run} (hs : e.sessions[j]? = some s)
    (hr' : (a.session j op (next ++ rest) s).runs[k]? = some r') (hrun : r'.running) :
    (∃ r, s.runs[k]? = some r ∧ r.running ∧ (r'.live → r.live)) ∨
      k = s.runs.length ∧ ∃ n, op = .start j n := by
  obtain ⟨r, hr, -⟩ | ⟨-, hk, hn⟩ := h.run_cases hs hr'
  · obtain ⟨q, hq, hcancelled, hrunning⟩ := h.run_running hends hs hr
    rw [hr', Option.some_inj] at hq
    subst hq
    rw [hrunning, Bool.and_eq_true] at hrun
    refine .inl ⟨r, hr, hrun.1, fun hlive => ?_⟩
    rw [Run.live_iff, hcancelled, Bool.or_eq_false_iff] at hlive
    exact Run.live_iff.mpr ⟨hrun.1, hlive.2.1⟩
  · exact .inr ⟨hk, hn⟩

end Performs

namespace OneRun

variable (h : OneRun s) (hperf : Performs e a op rest next e') (hends : Codes EndsRun e)
  (hs : e.sessions[j]? = some s)
include h hperf hends hs

/-- Without a start of the session no run becomes a second one. -/
theorem session_single (hstart : ∀ n, op ≠ .start j n) (k m : Nat) (r q : Run)
    (hr : (a.session j op (next ++ rest) s).runs[k]? = some r)
    (hq : (a.session j op (next ++ rest) s).runs[m]? = some q)
    (hrun : r.running) (hqrun : q.running) : k = m := by
  obtain ⟨r₀, hr₀, hrun₀, -⟩ | ⟨-, n, hn⟩ := hperf.running_before hends hs hr hrun
  · obtain ⟨q₀, hq₀, hqrun₀, -⟩ | ⟨-, n, hn⟩ := hperf.running_before hends hs hq hqrun
    · exact h.single k m r₀ q₀ hr₀ hq₀ hrun₀ hqrun₀
    · exact absurd hn (hstart n)
  · exact absurd hn (hstart n)

/-- The run behind the step was live before it. -/
theorem live_before (hstart : ∀ n, op ≠ .start j n) {r' : Run}
    (hr' : (a.session j op (next ++ rest) s).runs[k]? = some r') (hlive : r'.live) :
    ∃ r, s.runs[k]? = some r ∧ r.running ∧ s.cancel = some k := by
  obtain ⟨r, hr, hrun, hl⟩ | ⟨-, n, hn⟩ :=
    hperf.running_before hends hs hr' (Run.live_iff.mp hlive).1
  · exact ⟨r, hr, hrun, (h.cancel k).mpr ⟨r, hr, hl hlive⟩⟩
  · exact absurd hn (hstart n)

theorem session_pause (hop : op = .pause j) : OneRun (a.session j op (next ++ rest) s) := by
  have hstart : ∀ n, op ≠ .start j n := fun n hn => by rw [hop] at hn; cases hn
  refine ⟨h.session_single hperf hends hs hstart, fun k => ?_⟩
  have hnone : (a.session j op (next ++ rest) s).cancel = none := by
    rw [Action.session_cancel, hop]
    show (if j = j then s.pause else s).cancel = none
    rw [if_pos rfl, Session.pause_cancel]
  rw [hnone]
  constructor
  · intro hc
    cases hc
  · intro hex
    obtain ⟨r', hr', hlive⟩ := hex
    obtain ⟨r, hr, -, hc⟩ := h.live_before hperf hends hs hstart hr' hlive
    obtain ⟨q, hq, hcancelled, -⟩ := hperf.run_running hends hs hr
    rw [hr', Option.some_inj] at hq
    subst hq
    rw [decide_eq_true ⟨hop, hc⟩, Bool.or_true] at hcancelled
    rw [Run.live_iff, hcancelled] at hlive
    cases hlive.2

theorem session_exit (hop : op.isExit = true) (hself : a.self = some (j, k)) :
    OneRun (a.session j op (next ++ rest) s) := by
  have hstart : ∀ n, op ≠ .start j n := fun n hn => by rw [hn] at hop; cases hop
  refine ⟨h.session_single hperf hends hs hstart, fun m => ?_⟩
  have hnone : (a.session j op (next ++ rest) s).cancel = none := by
    rw [Action.session_cancel]
    cases op with
    | exit failed =>
      show (if a.self.map Prod.fst = some j then { s with cancel := none } else s).cancel = none
      rw [if_pos (by rw [hself]; rfl)]
    | _ => cases hop
  rw [hnone]
  constructor
  · intro hc
    cases hc
  · intro hex
    obtain ⟨r', hr', hlive⟩ := hex
    obtain ⟨r, hr, hrun, -⟩ := h.live_before hperf hends hs hstart hr' hlive
    -- the run in its exit section was the one that was running
    obtain ⟨r₀, hr₀, hcode⟩ := hperf.self_run hs hself
    have hrun₀ : r₀.running = true := by
      rw [Run.running, hcode, List.any_cons]
      cases op with
      | exit failed => rfl
      | _ => cases hop
    have hkm : k = m := h.single k m r₀ r hr₀ hr hrun₀ hrun
    obtain ⟨q, hq, -, hrunning⟩ := hperf.run_running hends hs hr
    rw [hr', Option.some_inj] at hq
    subst hq
    rw [hself, hkm, hop, decide_eq_true rfl, Bool.and_true, Bool.not_true, Bool.and_false]
      at hrunning
    rw [Run.live_iff, hrunning] at hlive
    cases hlive.1

omit h in
theorem session_start {n : Nat} (hop : op = .start j n)
    (hidle : ∀ r ∈ s.runs, r.running = false) : OneRun (a.session j op (next ++ rest) s) := by
  have hlast : ∀ (k : Nat) r', (a.session j op (next ++ rest) s).runs[k]? = some r' →
      r'.running → k = s.runs.length := by
    intro k r' hr' hrun
    obtain ⟨r, hr, hrun₀, -⟩ | ⟨hk, -⟩ := hperf.running_before hends hs hr' hrun
    · rw [hidle r (List.mem_of_getElem? hr)] at hrun₀
      cases hrun₀
    · exact hk
  have hnew : (a.session j op (next ++ rest) s).runs[s.runs.length]? = some Run.new := by
    have hself : a.self ≠ some (j, s.runs.length) := by
      intro hself
      obtain ⟨r, hr, -⟩ := hperf.self_run hs hself
      rw [List.getElem?_eq_none (Nat.le_refl _)] at hr
      cases hr
    rw [Action.session, Action.recode_run, hop]
    simp only [hself, if_false, Option.map_id']
    show (if j = j then s.start else s).runs[s.runs.length]? = _
    rw [if_pos rfl]
    exact List.getElem?_concat_length
  have hcancel : (a.session j op (next ++ rest) s).cancel = some s.runs.length := by
    rw [Action.session_cancel, hop]
    show (if j = j then s.start else s).cancel = _
    rw [if_pos rfl]
    rfl
  constructor
  · intro k m r q hr hq hrun hqrun
    rw [hlast k r hr hrun, hlast m q hq hqrun]
  · intro k
    rw [hcancel, Option.some_inj]
    constructor
    · intro hk
      exact ⟨Run.new, hk ▸ hnew, rfl⟩
    · intro hex
      obtain ⟨r', hr', hlive⟩ := hex
      exact (hlast k r' hr' (Run.live_iff.mp hlive).1).symm

theorem session_other (hstart : ∀ n, op ≠ .start j n) (hpause : op ≠ .pause j)
    (hexit : op.isExit = true → a.self.map Prod.fst ≠ some j) :
    OneRun (a.session j op (next ++ rest) s) := by
  refine ⟨h.session_single hperf hends hs hstart, fun k => ?_⟩
  rw [Action.session_cancel, effect_cancel hstart hpause hexit]
  constructor
  · intro hc
    obtain ⟨r, hr, hlive⟩ := (h.cancel k).mp hc
    obtain ⟨r', hr', hcancelled, hrunning⟩ := hperf.run_running hends hs hr
    refine ⟨r', hr', Run.live_iff.mpr ⟨?_, ?_⟩⟩
    · have hno : (decide (a.self = some (j, k)) && op.isExit) = false := by
        cases hx : op.isExit with
        | false => exact Bool.and_false _
        | true =>
          have hself : a.self ≠ some (j, k) := fun hself => hexit hx (by rw [hself]; rfl)
          rw [decide_eq_false hself, Bool.false_and]
      rw [hrunning, hno, Bool.not_false, Bool.and_true]
      exact (Run.live_iff.mp hlive).1
    · rw [hcancelled, (Run.live_iff.mp hlive).2, decide_eq_false fun hp => hpause hp.1]
      rfl
  · intro hex
    obtain ⟨r', hr', hlive⟩ := hex
    obtain ⟨r, -, -, hc⟩ := h.live_before hperf hends hs hstart hr' hlive
    exact hc

/-- The session behind a step, by what the step does to it. -/
theorem session (hok : StartsAlone e a) : OneRun (a.session j op (next ++ rest) s) := by
  by_cases hstart : ∃ n, op = .start j n
  · obtain ⟨n, hop⟩ := hstart
    subst hop
    exact session_start hperf hends hs rfl (hok s (hperf.starting hs))
  · by_cases hpause : op = .pause j
    · exact h.session_pause hperf hends hs hpause
    · by_cases hexit : op.isExit = true ∧ a.self.map Prod.fst = some j
      · obtain ⟨hop, hself⟩ := hexit
        obtain ⟨⟨i, k⟩, hik, hij⟩ := Option.map_eq_some_iff.mp hself
        obtain rfl : i = j := hij
        exact h.session_exit hperf hends hs hop hik
      · exact h.session_other hperf hends hs (fun n hn => hstart ⟨n, hn⟩) hpause
          fun hop hself => hexit ⟨hop, hself⟩

end OneRun

theorem oneRun_step (h : e.step a = some e') (hok : StartsAlone e a)
    (hinv : Codes EndsRun e ∧ ∀ (j : Nat) s, e.sessions[j]? = some s → OneRun s) :
    Codes EndsRun e' ∧ ∀ (j : Nat) s, e'.sessions[j]? = some s → OneRun s := by
  refine ⟨endsRun_step h hinv.1, ?_⟩
  apply sessions_step (P := fun _ s => OneRun s) _ _ _ h hinv.2
  · intro j s p hone
    exact ⟨hone.single, hone.cancel⟩
  · intro j id infoHash p
    exact oneRun_new id infoHash p
  · intro op rest next hperf j s hs hone
    exact hone.session hperf hinv.1 hs hok

theorem oneRun_exec {maxActive : Nat} {as : List Action}
    (hok : Guarded State.step StartsAlone (State.new maxActive) as)
    (h : exec State.step (State.new maxActive) as = some e) :
    Codes EndsRun e ∧ ∀ (j : Nat) s, e.sessions[j]? = some s → OneRun s := by
  apply exec_invariant (fun _ _ _ hinv hok hstep => oneRun_step hstep hok hinv) _ hok h
  exact ⟨codes_new maxActive ⟨(fun h => by cases h), trivial⟩, (fun j s hs => by cases hs)⟩

/-! ## Live goroutines -/

/-- At most one goroutine of the session is live, and `s.cancel` is set exactly
when there is one. -/
def OneLive (s : Session) : Prop :=
  s.runs.countP Run.live ≤ 1 ∧ (s.isRunning = true ↔ ∃ r ∈ s.runs, r.live = true)

instance (s : Session) : Decidable (OneLive s) :=
  inferInstanceAs (Decidable (_ ∧ (_ ↔ _)))

theorem OneRun.oneLive (h : OneRun s) : OneLive s := by
  constructor
  · apply countP_le_one
    intro k m r q hr hq hrun hqrun
    exact h.single k m r q hr hq (Run.live_iff.mp hrun).1 (Run.live_iff.mp hqrun).1
  · rw [Session.isRunning, Option.isSome_iff_exists]
    constructor
    · intro hc
      obtain ⟨k, hk⟩ := hc
      obtain ⟨r, hr, hlive⟩ := (h.cancel k).mp hk
      exact ⟨r, List.mem_of_getElem? hr, hlive⟩
    · intro hex
      obtain ⟨r, hr, hlive⟩ := hex
      obtain ⟨k, hk⟩ := List.mem_iff_getElem?.mp hr
      exact ⟨k, (h.cancel k).mpr ⟨r, hk, hlive⟩⟩

/-- In every run of the engine whose starts find no goroutine of their session still
running, each session has at most one live goroutine, and `s.cancel` is set exactly
when it has one. -/
theorem oneLive_of_startsAlone (maxActive : Nat) (as : List Action) (e : State)
    (hok : Guarded State.step StartsAlone (State.new maxActive) as)
    (h : exec State.step (State.new maxActive) as = some e) : ∀ s ∈ e.sessions, OneLive s := by
  intro s hs
  obtain ⟨j, hj⟩ := List.mem_iff_getElem?.mp hs
  exact ((oneRun_exec hok h).2 j s hj).oneLive

/-! ## Runs -/

/-- `AddTorrent` in the thread `t`, with `queued` the sessions that wait, the first
of which is started. -/
def addAndStart (t : Nat) (id : Bytes) (queued : List Nat) : List Action :=
  .call (.addTorrent id id) ::
    [.next, .next, .next, .order queued, .next, .next, .next, .next].map (.thread t)

/-- The goroutine goes from the stored torrent to the search for peers. -/
def goToPeers (i k : Nat) : List Action := [.next, .next, .next, .next].map (.go i k)

/-- The goroutine goes from the search for peers to its download, and seeds. -/
def peersToSeed (i k : Nat) : List Action := List.replicate 8 (.go i k .next)

/-- `PauseTorrent` in the thread `t`, with nothing queued behind it. -/
def pauseCall (t i : Nat) : List Action :=
  .call (.pauseTorrent i) ::
    [.next, .next, .next, .next, .next, .next, .order [], .next, .next].map (.thread t)

/-- `ResumeTorrent` in the thread `t`, which starts the session. -/
def resumeCall (t i : Nat) : List Action :=
  .call (.resumeTorrent i) :: [.next, .next, .next, .next, .next, .next].map (.thread t)

/-- The cancelled goroutine leaves the search for peers, and `onSessionDone` finds
nothing to start. -/
def leavePeers (i k : Nat) : List Action :=
  [.cancelled, .next, .next, .next, .next, .order [], .next, .next].map (.go i k)

/-- A torrent is paused, its goroutine ends, and it is resumed. -/
def pauseThenResume : List Action :=
  addAndStart 1 [0] [0] ++ goToPeers 0 0 ++ pauseCall 2 0 ++ leavePeers 0 0 ++ resumeCall 3 0

theorem oneLive_pauseThenResume :
    ∃ e, exec State.step (State.new 1) pauseThenResume = some e ∧ ∀ s ∈ e.sessions, OneLive s := by
  have hrun : (exec State.step (State.new 1) pauseThenResume).isSome = true := by decide +kernel
  obtain ⟨e, he⟩ := Option.isSome_iff_exists.mp hrun
  exact ⟨e, he, oneLive_of_startsAlone 1 pauseThenResume e (by decide +kernel) he⟩

/-- The torrent is resumed while its goroutine still waits for peers: the exit
section of the old goroutine then clears the cancel function of the new one. -/
theorem not_oneLive_resumed_early :
    ¬ ∀ (maxActive : Nat) (as : List Action) (e : State),
      exec State.step (State.new maxActive) as = some e → ∀ s ∈ e.sessions, OneLive s := by
  intro hall
  obtain ⟨e, he, s, hs, hnot⟩ : ∃ e, exec State.step (State.new 1)
      (addAndStart 1 [0] [0] ++ goToPeers 0 0 ++ pauseCall 2 0 ++ resumeCall 3 0 ++
        [Action.go 0 0 .cancelled, .go 0 0 .next]) = some e ∧
      ∃ s ∈ e.sessions, ¬OneLive s := by decide +kernel
  exact hnot (hall 1 _ e he s hs)

end Control
end Stor.Engine
