import Stor.Engine.OneRun

/-!
# Incoming peers and the goroutine that serves them

A goroutine registers its session with the peer listener before it downloads or
seeds, and takes the handler back when it leaves the seed phase.  A download that
ends in an error or by a pause leaves the handler behind, and so does a session that
is deleted while it seeds.  Without such steps (`Released`) a handler points to a
session of the engine with a running goroutine (`handlersLive_of_released`).

The goroutine that will take a handler back can be told by its code (`keepsHandler`).
-/

namespace Stor.Engine
namespace Control

open Lib

variable {e e' : State} {a : Action} {op : Op} {rest next code : List Op} {i j k : Nat}
  {s s' : Session} {r : Run}

/-- A handler points to a session of the engine that has a running goroutine, so that
without one a handshake is refused. -/
def HandlersLive (e : State) : Prop :=
  ∀ infoHash i, e.handlers infoHash = some i →
    (e.sessions[i]?).any (fun s => s.listed && s.runs.any Run.running) = true

def Op.released (e : State) (a : Action) : Op → Bool
  | .phase .download => a.choice = .next
  | .register => a.self.any fun (i, _) => e.isListed i
  | .delete i => (e.sessions[i]?).all fun s => e.handlers s.infoHash ≠ some i
  | _ => true

/-- A download is left when it is complete, a session registers while it is in the
engine, and one that has a handler is not deleted. -/
def Released (e : State) (a : Action) : Prop := (e.code a).head?.all (Op.released e a) = true

instance (e : State) (a : Action) : Decidable (Released e a) := inferInstanceAs (Decidable (_ = _))

theorem Performs.released (h : Performs e a op rest next e') (hok : Released e a) :
    op.released e a = true := by
  unfold Released at hok
  rw [h.code] at hok
  exact hok

/-! ## Code -/

/-- The operations between the registration of a handler and its end. -/
def Op.holdsHandler : Op → Bool
  | .phase .download | .phase .seed | .unregister => true
  | _ => false

/-- The goroutine will take the handler back. -/
def keepsHandler (code : List Op) : Bool := code.any Op.holdsHandler

/-- What a registration and its end are followed by. -/
def Op.handledBy (rest : List Op) : Op → Bool
  | .register => keepsHandler rest
  | .unregister => rest.any Op.inRun
  | _ => true

def handled : List Op → Bool
  | [] => true
  | op :: rest => op.handledBy rest && handled rest

theorem running_of_keepsHandler (hcode : handled code = true) (h : keepsHandler code = true) :
    code.any Op.inRun = true := by
  induction code with
  | nil => cases h
  | cons op code ih =>
    rw [handled, Bool.and_eq_true] at hcode
    rw [keepsHandler, List.any_cons, Bool.or_eq_true] at h
    rw [List.any_cons, Bool.or_eq_true]
    obtain hop | h := h
    · cases op with
      | phase p => exact .inl rfl
      | unregister => exact .inr hcode.1
      | _ => cases hop
    · exact .inr (ih hcode.2 h)

theorem Phase.GoesTo.handled {p : Phase} (h : p.GoesTo next) :
    Control.handled (next ++ rest) = Control.handled rest := by
  cases h with
  | _ => simp [Control.handled, Op.handledBy, keepsHandler, Op.holdsHandler, Op.inRun]

theorem Follows.handled (h : Follows op next) (hcode : Control.handled (op :: rest) = true) :
    Control.handled (next ++ rest) = true := by
  have htail : Control.handled rest = true := by
    rw [Control.handled, Bool.and_eq_true] at hcode
    exact hcode.2
  cases h with
  | phase h => rw [(Phase.after_goesTo h).handled, htail]
  | _ => exact htail

theorem handled_step (h : e.step a = some e') (hcode : Codes (fun code => handled code = true) e) :
    Codes (fun code => handled code = true) e' := by
  apply codes_step _ _ _ h hcode
  · rfl
  · intro k
    cases k <;> rfl
  · intro op rest next hperf hcode
    exact hperf.follows.handled hcode

/-- A goroutine leaves a download that is complete, and the seed phase, with the
handler still to be taken back. -/
theorem Performs.keepsHandler_next (h : Performs e a op rest next e') (hok : Released e a)
    (hop : op ≠ .unregister) (hcode : keepsHandler (op :: rest) = true) :
    keepsHandler (next ++ rest) = true := by
  rw [keepsHandler, List.any_cons, Bool.or_eq_true] at hcode
  rw [keepsHandler, List.any_append, Bool.or_eq_true]
  obtain hkeeps | hcode := hcode
  · refine .inl ?_
    have hreleased := h.released hok
    cases op with
    | unregister => exact absurd rfl hop
    | phase p =>
      obtain ⟨i, k, s, r, -, -, -, hafter⟩ := h.phase_after rfl
      cases p with
      | download =>
        have hchoice : a.choice = .next := of_decide_eq_true hreleased
        rw [hchoice] at hafter
        cases hafter
        rfl
      | seed =>
        cases hc : a.choice with
        | cancelled =>
          rw [hc] at hafter
          cases hb : r.cancelled with
          | true => rw [hb] at hafter; cases hafter; rfl
          | false => rw [hb] at hafter; cases hafter
        | _ => rw [hc] at hafter; cases hafter
      | _ => cases hkeeps
    | _ => cases hkeeps
  · exact .inr hcode

/-! ## The invariant -/

/-- The session `i` holds the handler of `infoHash`, and one of its goroutines will
take it back. -/
def Holds (e : State) (infoHash : Bytes) (i : Nat) : Prop :=
  ∃ s, e.sessions[i]? = some s ∧ s.infoHash = infoHash ∧ s.listed = true ∧
    ∃ r ∈ s.runs, keepsHandler r.code = true

structure Handled (e : State) : Prop where
  codes : Codes (fun code => handled code = true) e
  holds : ∀ infoHash i, e.handlers infoHash = some i → Holds e infoHash i

/-- What a step keeps of a session that holds a handler. -/
theorem Performs.holds (h : Performs e a op rest next e') (hok : Released e a) {infoHash : Bytes}
    (hholds : Holds e infoHash i) (hunreg : op = .unregister → ∀ k, a.self ≠ some (i, k))
    (hdelete : op ≠ .delete i) : Holds e' infoHash i := by
  obtain ⟨s, hs, hhash, hlisted, r, hr, hkeeps⟩ := hholds
  obtain ⟨p, hp⟩ := h.session hs
  obtain ⟨k, hk⟩ := List.mem_iff_getElem?.mp hr
  refine ⟨_, hp, ?_, ?_, _, List.mem_of_getElem? (session_run (next ++ rest) hk), ?_⟩
  · show (a.session i op (next ++ rest) s).infoHash = infoHash
    rw [Action.session_infoHash, effect_infoHash, hhash]
  · show (a.session i op (next ++ rest) s).listed = true
    rw [Action.session_listed, effect_listed, hlisted, decide_eq_true hdelete]
    rfl
  · by_cases hself : a.self = some (i, k)
    · simp only [if_pos hself]
      rw [h.self_code hs hself hk] at hkeeps
      exact h.keepsHandler_next hok (fun hop => hunreg hop k hself) hkeeps
    · simp only [if_neg hself]
      exact hkeeps

theorem Performs.handlers_update (h : Performs e a op rest next e')
    (hop : op = .register ∨ op = .unregister) :
    ∃ i k s, a.self = some (i, k) ∧ e.sessions[i]? = some s ∧
      e'.handlers = Function.update e.handlers s.infoHash (if op = .register then some i else none) := by
  obtain ⟨e₁, hp, rfl⟩ := h.after
  have hhandlers : (e₁.setCode a (next ++ rest)).handlers = e₁.handlers := by cases a <;> rfl
  obtain rfl | rfl := hop
  all_goals
    obtain ⟨⟨i, k⟩, hself, hp⟩ := Option.bind_eq_some_iff.mp hp
    obtain ⟨s, hs, hp⟩ := Option.map_eq_some_iff.mp hp
    refine ⟨i, k, s, hself, hs, ?_⟩
    rw [hhandlers, ← (Prod.mk.inj hp).1]
    rfl

/-- The goroutine that registers will take its handler back. -/
theorem Performs.holds_register (h : Performs e a op rest next e') (hok : Released e a)
    (hcodes : Codes (fun code => handled code = true) e) (hop : op = .register)
    (hself : a.self = some (i, k)) (hs : e.sessions[i]? = some s) : Holds e' s.infoHash i := by
  obtain ⟨p, hp⟩ := h.session hs
  obtain ⟨r, hr, hcode⟩ := h.self_run hs hself
  refine ⟨_, hp, ?_, ?_, _, List.mem_of_getElem? (session_run (next ++ rest) hr), ?_⟩
  · show (a.session i op (next ++ rest) s).infoHash = s.infoHash
    rw [Action.session_infoHash, effect_infoHash]
  · have hreleased := h.released hok
    rw [hop, Op.released, hself, Option.any_some] at hreleased
    simp only [State.isListed, hs, Option.any_some] at hreleased
    show (a.session i op (next ++ rest) s).listed = true
    rw [Action.session_listed, effect_listed, hreleased, hop, decide_eq_true (fun h => by cases h)]
    rfl
  · simp only [if_pos hself]
    have hhandled := h.of_codes hcodes
    rw [handled, Bool.and_eq_true, hop] at hhandled
    rw [keepsHandler, List.any_append, Bool.or_eq_true]
    exact .inr hhandled.1

theorem Performs.handled (h : Performs e a op rest next e') (hok : Released e a) (hinv : Handled e) :
    ∀ infoHash i, e'.handlers infoHash = some i → Holds e' infoHash i := by
  intro infoHash i hi
  -- a handler that was there before
  have hkept : e.handlers infoHash = some i → (op = .unregister → ∀ k, a.self ≠ some (i, k)) →
      Holds e' infoHash i := by
    intro hold hunreg
    have hholds := hinv.holds infoHash i hold
    apply h.holds hok hholds hunreg
    intro hop
    obtain ⟨s, hs, hhash, -⟩ := hholds
    have hreleased := h.released hok
    rw [hop, Op.released, hs, Option.all_some, decide_eq_true_eq, hhash] at hreleased
    exact hreleased hold
  by_cases hreg : op = .register
  · obtain ⟨i₀, k₀, s₀, hself, hs₀, hhandlers⟩ := h.handlers_update (.inl hreg)
    by_cases hhash : infoHash = s₀.infoHash
    · rw [hhandlers, hhash, Function.update_self, if_pos hreg, Option.some_inj] at hi
      subst hi
      exact hhash ▸ h.holds_register hok hinv.codes hreg hself hs₀
    · rw [hhandlers, Function.update_of_ne hhash] at hi
      exact hkept hi fun hop => by rw [hreg] at hop; cases hop
  · by_cases hunreg : op = .unregister
    · obtain ⟨i₀, k₀, s₀, hself, hs₀, hhandlers⟩ := h.handlers_update (.inr hunreg)
      by_cases hhash : infoHash = s₀.infoHash
      · rw [hhandlers, hhash, Function.update_self, if_neg hreg] at hi
        cases hi
      · rw [hhandlers, Function.update_of_ne hhash] at hi
        apply hkept hi
        intro _ k hselfi
        obtain ⟨s, hs, hhash', -⟩ := hinv.holds infoHash i hi
        rw [hself, Option.some_inj] at hselfi
        rw [← (Prod.mk.inj hselfi).1, hs₀, Option.some_inj] at hs
        exact hhash (by rw [hs, hhash'])
    · rw [h.handlers_eq hreg hunreg] at hi
      exact hkept hi fun hop => absurd hop hunreg

theorem handledState_step (hinv : Handled e) (hok : Released e a) (h : e.step a = some e') :
    Handled e' := by
  refine ⟨handled_step h hinv.codes, ?_⟩
  obtain ⟨k, -, rfl⟩ | ⟨op, rest, next, hperf⟩ := step_cases h
  · exact hinv.holds
  · exact hperf.handled hok hinv

theorem Handled.live (hinv : Handled e) : HandlersLive e := by
  intro infoHash i hi
  obtain ⟨s, hs, -, hlisted, r, hr, hkeeps⟩ := hinv.holds infoHash i hi
  rw [hs, Option.any_some, hlisted, Bool.true_and, List.any_eq_true]
  exact ⟨r, hr, running_of_keepsHandler (hinv.codes.1 i s hs r hr) hkeeps⟩

/-- In a run of complete downloads, and with no session deleted under its handler,
every handler is served by a running goroutine. -/
theorem handlersLive_of_released (maxActive : Nat) (as : List Action) (e : State)
    (hok : Guarded State.step Released (State.new maxActive) as)
    (h : exec State.step (State.new maxActive) as = some e) : HandlersLive e := by
  apply Handled.live
  refine exec_invariant (fun _ _ _ hinv hok hstep => handledState_step hinv hok hstep) ?_ hok h
  exact ⟨codes_new maxActive rfl, fun infoHash i hi => by cases hi⟩

/-- A torrent is downloaded and seeds. -/
def downloadAndSeed : List Action :=
  addAndStart 1 [0] [0] ++ goToPeers 0 0 ++ peersToSeed 0 0

theorem handlersLive_downloadAndSeed :
    ∃ e, exec State.step (State.new 1) downloadAndSeed = some e ∧ e.handlers [0] = some 0 ∧
      HandlersLive e := by
  obtain ⟨e, he, hhandler⟩ : ∃ e, exec State.step (State.new 1) downloadAndSeed = some e ∧
      e.handlers [0] = some 0 := by decide +kernel
  exact ⟨e, he, hhandler,
    handlersLive_of_released 1 downloadAndSeed e (by decide +kernel) he⟩

/-- A torrent is paused while it downloads, and its goroutine ends. -/
def pauseDownload : List Action :=
  addAndStart 1 [0] [0] ++ goToPeers 0 0 ++ List.replicate 5 (Action.go 0 0 .next) ++ pauseCall 2 0 ++
    leavePeers 0 0

/-- The handler of the paused torrent stays with the listener. -/
theorem not_handlersLive_pauseDownload :
    ¬ ∀ (maxActive : Nat) (as : List Action) (e : State),
      exec State.step (State.new maxActive) as = some e → HandlersLive e := by
  intro hall
  obtain ⟨e, he, hhandler, hdead⟩ : ∃ e, exec State.step (State.new 1) pauseDownload = some e ∧
      e.handlers [0] = some 0 ∧
      ((e.sessions[0]?).any fun s => s.listed && s.runs.any Run.running) = false := by
    decide +kernel
  have hlive := hall 1 pauseDownload e he [0] 0 hhandler
  rw [hdead] at hlive
  cases hlive

end Control
end Stor.Engine
