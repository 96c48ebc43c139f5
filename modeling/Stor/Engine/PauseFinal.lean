import Stor.Engine.OneRun

/-!
# A paused torrent stays paused

`setState` writes whatever it is told, and a goroutine calls it at many places
between those where it looks at its context.  A pause is clean when it is written
while every goroutine of the session is past its last `setState`, or is cancelled
and at one of its waits, and the wait then reports the cancellation.  In a run of
clean pauses only `ResumeTorrent` moves a record out of the paused state
(`pauseKept_of_cleanPause`).
-/

namespace Stor.Engine
namespace Control

open Lib

variable {e e' : State} {a : Action} {op : Op} {rest next : List Op} {j k : Nat} {s : Session}
  {r : Run}

/-- The waits of `Session.run`. -/
def Phase.waits : Phase → Bool
  | .fetch | .findPeers | .download | .seed => true
  | _ => false

/-- A cancelled goroutine comes from here to its end without a `setState`. -/
def Op.quiet : Op → Bool
  | .phase p => p.waits || p = .seedExit
  | .setState _ => false
  | .exit failed => !failed
  | _ => true

def Run.quiet (r : Run) : Bool := r.code.all Op.quiet && (!r.running || r.cancelled)

def Op.cleanPause (e : State) (a : Action) : Op → Bool
  | .setPaused i => (e.sessions[i]?).all fun s => s.runs.all Run.quiet
  | .start i _ => (e.sessions[i]?).all fun s => s.state ≠ .paused
  | .phase p => !(e.isCancelled a && p.waits) || a.choice = .cancelled
  | _ => true

/-- The pause is written while the goroutines of the session are quiet, a cancelled
wait reports the cancellation, and a paused session is not started. -/
def CleanPause (e : State) (a : Action) : Prop := (e.code a).head?.all (Op.cleanPause e a) = true

instance (e : State) (a : Action) : Decidable (CleanPause e a) := inferInstanceAs (Decidable (_ = _))

/-- A record that is paused before the step of `a` is paused behind it, unless it is
the step of `ResumeTorrent`. -/
def PauseKept (e : State) (a : Action) : Prop :=
  ∀ t ∈ e.step a, ∀ i ∈ List.range e.sessions.length, ∀ s ∈ e.sessions[i]?, s.state = .paused →
    ∀ s' ∈ t.sessions[i]?, s'.state = .paused ∨ (e.code a).head? = some (.setAdding i)

instance (e : State) (a : Action) : Decidable (PauseKept e a) :=
  inferInstanceAs (Decidable (∀ t ∈ e.step a, ∀ i ∈ List.range e.sessions.length, _))

/-! ## Quiet code -/

theorem Follows.quiet (h : Follows op next) (hop : op.quiet = true) (hphase : ∀ p, op ≠ .phase p) :
    next.all Op.quiet = true := by
  cases h with
  | phase h => exact absurd rfl (hphase _)
  | exitError => cases hop
  | _ => rfl

/-- A goroutine sets no record to paused by itself. -/
theorem Follows.not_setPaused (h : Follows op next) : Op.setState .paused ∉ next := by
  cases h with
  | phase h =>
    cases Phase.after_goesTo h with
    | _ => simp
  | _ => simp [startQueued]

theorem not_setPaused_step (h : e.step a = some e')
    (hcodes : Codes (fun code => Op.setState .paused ∉ code) e) :
    Codes (fun code => Op.setState .paused ∉ code) e' := by
  apply codes_step _ _ _ h hcodes
  · simp
  · intro k
    cases k <;> simp [Call.code, startQueued]
  · intro op rest next hperf hcode hmem
    obtain hmem | hmem := List.mem_append.mp hmem
    · exact hperf.follows.not_setPaused hmem
    · exact hcode (List.mem_cons_of_mem op hmem)

/-- A cancelled wait that reports the cancellation, or the end of a paused seeder. -/
theorem Phase.after_quiet {p : Phase} {b : Bool} {c : Choice} (h : p.after s b c = some next)
    (hp : (p.waits || p = .seedExit) = true) (hwait : p.waits = true → c = .cancelled)
    (hpaused : s.state = .paused) : next.all Op.quiet = true := by
  cases p with
  | fetch | findPeers | download | seed =>
    rw [hwait rfl] at h
    cases b with
    | true => cases h; rfl
    | false => cases h
  | seedExit =>
    cases c with
    | next =>
      simp only [Phase.after, hpaused, reduceCtorEq, if_false, Option.some.injEq] at h
      rw [← h]
      rfl
    | _ => cases h
  | _ => cases hp

/-! ## The invariant -/

/-- Every goroutine of a paused session is quiet. -/
def QuietPause (s : Session) : Prop := s.state = .paused → ∀ r ∈ s.runs, r.quiet = true

theorem Run.quiet_iff {r : Run} :
    r.quiet = true ↔ r.code.all Op.quiet = true ∧ (r.running = true → r.cancelled = true) := by
  rw [Run.quiet, Bool.and_eq_true]
  cases r.running <;> cases r.cancelled <;> simp

namespace Performs

variable (h : Performs e a op rest next e')
include h

theorem cleanPause (hok : CleanPause e a) : op.cleanPause e a = true := by
  unfold CleanPause at hok
  rw [h.code] at hok
  exact hok

/-- A quiet goroutine of a paused session stays quiet. -/
theorem quiet_self (hok : CleanPause e a) (hs : e.sessions[j]? = some s) (hpaused : s.state = .paused)
    (hself : a.self = some (j, k)) (hr : s.runs[k]? = some r) (hquiet : r.quiet = true) :
    (next ++ rest).all Op.quiet = true := by
  obtain ⟨hall, hcancelled⟩ := Run.quiet_iff.mp hquiet
  have hcode := h.self_code hs hself hr
  rw [hcode, List.all_cons, Bool.and_eq_true] at hall
  rw [List.all_append, Bool.and_eq_true]
  refine ⟨?_, hall.2⟩
  by_cases hphase : ∃ p, op = .phase p
  · obtain ⟨p, hp⟩ := hphase
    obtain ⟨i, m, t, q, hself', ht, hq, hafter⟩ := h.phase_after hp
    rw [hself, Option.some_inj, Prod.mk.injEq] at hself'
    obtain ⟨rfl, rfl⟩ := hself'
    rw [hs, Option.some_inj] at ht
    subst ht
    have hrunning : r.running = true := by
      rw [Run.running, hcode, hp]
      rfl
    have hclean := h.cleanPause hok
    have hcan : e.isCancelled a = true := by
      simp only [State.isCancelled, hself, hs, hr, Option.any_some, hcancelled hrunning]
    rw [hp] at hall hclean
    apply Phase.after_quiet hafter hall.1 _ hpaused
    intro hwaits
    simpa only [Op.cleanPause, hcan, hwaits, Bool.and_self, Bool.not_true, Bool.false_or,
      decide_eq_true_eq] using hclean
  · exact h.follows.quiet hall.1 fun p hp => hphase ⟨p, hp⟩

end Performs

/-- Only the write of `Pause` brings a session into the paused state. -/
theorem Performs.pausing (h : Performs e a op rest next e')
    (hcodes : Codes (fun code => Op.setState .paused ∉ code) e) (hs : e.sessions[j]? = some s)
    (hstate : s.state ≠ .paused) (hpaused : (op.effect a.self j s).state = .paused) :
    op = .setPaused j := by
  by_cases hop : op = .setPaused j
  · exact hop
  · by_cases hadding : op = .setAdding j
    · rw [hadding] at hpaused
      simp only [Op.effect, if_true, reduceCtorEq] at hpaused
    · by_cases hset : ∃ new, op = .setState new ∧ a.self.map Prod.fst = some j
      · obtain ⟨new, rfl, hself⟩ := hset
        rw [effect_setState hself] at hpaused
        subst hpaused
        obtain ⟨⟨i, k⟩, hik, hij⟩ := Option.map_eq_some_iff.mp hself
        obtain rfl : i = j := hij
        obtain ⟨r, hr, hcode⟩ := h.self_run hs hik
        have := hcodes.1 i s hs r (List.mem_of_getElem? hr)
        rw [hcode] at this
        exact absurd List.mem_cons_self this
      · rw [effect_state (fun new hn hself => hset ⟨new, hn, hself⟩) hop hadding] at hpaused
        exact absurd hpaused hstate

theorem QuietPause.session (hq : QuietPause s) (hperf : Performs e a op rest next e')
    (hcodes : Codes (fun code => Op.setState .paused ∉ code) e) (hs : e.sessions[j]? = some s)
    (hok : CleanPause e a) : QuietPause (a.session j op (next ++ rest) s) := by
  intro hpaused r' hr'
  rw [Action.session_state] at hpaused
  have hclean := hperf.cleanPause hok
  -- all goroutines were quiet before the step
  have hall : s.state = .paused ∨ op = .setPaused j := by
    by_cases hstate : s.state = .paused
    · exact .inl hstate
    · exact .inr (hperf.pausing hcodes hs hstate hpaused)
  have hquiet : ∀ r ∈ s.runs, r.quiet = true := by
    obtain hstate | rfl := hall
    · exact hq hstate
    · simp only [Op.cleanPause, hs, Option.all_some] at hclean
      exact List.all_eq_true.mp hclean
  obtain ⟨k, hk⟩ := List.mem_iff_getElem?.mp hr'
  obtain ⟨r, hr, rfl⟩ | ⟨-, -, n, rfl⟩ := hperf.run_cases hs hk
  · have hr₀ := hquiet r (List.mem_of_getElem? hr)
    obtain ⟨hcode, hcancelled⟩ := Run.quiet_iff.mp hr₀
    rw [Run.quiet_iff]
    by_cases hself : a.self = some (j, k)
    · simp only [Run.running, hself, if_true]
      have hqcode := hperf.self_code hs hself hr
      constructor
      · obtain hstate | rfl := hall
        · exact hperf.quiet_self hok hs hstate hself hr hr₀
        · rw [hqcode, List.all_cons, Bool.and_eq_true] at hcode
          rw [List.all_append, hperf.follows.quiet rfl (fun p hp => by cases hp), hcode.2]
          rfl
      · intro hrun
        rw [hcancelled (by rw [Run.running, hqcode]; exact hperf.follows.running_before hrun)]
        rfl
    · simp only [Run.running, hself, if_false]
      refine ⟨hcode, fun hrun => ?_⟩
      rw [hcancelled hrun]
      rfl
  · -- a paused session is not started
    obtain hstate | hop := hall
    · simp only [Op.cleanPause, hs, Option.all_some, hstate, ne_eq, not_true, decide_false,
        Bool.false_eq_true] at hclean
    · cases hop

theorem quietPause_step (h : e.step a = some e') (hok : CleanPause e a)
    (hinv : Codes (fun code => Op.setState .paused ∉ code) e ∧
      ∀ (j : Nat) s, e.sessions[j]? = some s → QuietPause s) :
    Codes (fun code => Op.setState .paused ∉ code) e' ∧
      ∀ (j : Nat) s, e'.sessions[j]? = some s → QuietPause s := by
  refine ⟨not_setPaused_step h hinv.1, ?_⟩
  apply sessions_step (P := fun _ s => QuietPause s) _ _ _ h hinv.2
  · intro j s p hq
    exact hq
  · intro j id infoHash p hpaused
    cases hpaused
  · intro op rest next hperf j s hs hq
    exact hq.session hperf hinv.1 hs hok

/-! ## Pauses that last -/

theorem pauseKept_of_quietPause (hq : ∀ (j : Nat) s, e.sessions[j]? = some s → QuietPause s) :
    PauseKept e a := by
  intro t ht i _ s hs hpaused s' hs'
  obtain ⟨k, -, rfl⟩ | ⟨op, rest, next, hperf⟩ := step_cases ht
  · rw [Option.mem_def] at hs hs'
    rw [hs, Option.some_inj] at hs'
    exact .inl (hs' ▸ hpaused)
  · obtain ⟨p, hp⟩ := hperf.session hs
    rw [Option.mem_def, hp, Option.some_inj] at hs'
    rw [hperf.code, ← hs']
    show (a.session i op (next ++ rest) s).state = .paused ∨ some op = some (.setAdding i)
    rw [Action.session_state, Option.some_inj]
    by_cases hadding : op = .setAdding i
    · exact .inr hadding
    · refine .inl ?_
      by_cases hsp : op = .setPaused i
      · simp only [hsp, Op.effect, if_true]
      · rw [effect_state _ hsp hadding, hpaused]
        -- a quiet goroutine has no `setState` to do
        intro new hop hself
        obtain ⟨⟨m, k⟩, hmk, hmi⟩ := Option.map_eq_some_iff.mp hself
        obtain rfl : m = i := hmi
        obtain ⟨r, hr, hcode⟩ := hperf.self_run hs hmk
        have hquiet := (Run.quiet_iff.mp (hq m s hs hpaused r (List.mem_of_getElem? hr))).1
        rw [hcode, hop, List.all_cons] at hquiet
        cases hquiet

/-- In every run of the engine whose pauses are clean, no step but that of
`ResumeTorrent` moves a record out of the paused state. -/
theorem pauseKept_of_cleanPause (maxActive : Nat) (as : List Action)
    (hok : Guarded State.step CleanPause (State.new maxActive) as) :
    Guarded State.step PauseKept (State.new maxActive) as := by
  apply guarded_invariant (fun _ _ _ hinv hok hstep => quietPause_step hstep hok hinv)
    (fun _ _ hinv _ => pauseKept_of_quietPause hinv.2) _ hok
  refine ⟨codes_new maxActive (by simp), ?_⟩
  intro j s hs
  cases hs

theorem pauseKept_pauseThenResume : Guarded State.step PauseKept (State.new 1) pauseThenResume :=
  pauseKept_of_cleanPause 1 pauseThenResume (by decide +kernel)

/-- The pause falls between the check of the name and the `setState` behind it: the
goroutine moves the paused record to downloading. -/
theorem not_pauseKept_named :
    ¬ ∀ (maxActive : Nat) (as : List Action), Guarded State.step PauseKept (State.new maxActive) as := by
  intro hall
  have hnot : ¬Guarded State.step PauseKept (State.new 1)
      (addAndStart 1 [0] [0] ++ [Action.go 0 0 .next, .go 0 0 .next] ++ pauseCall 2 0 ++
        [Action.go 0 0 .next]) := by decide +kernel
  exact hnot (hall 1 _)

end Control
end Stor.Engine
