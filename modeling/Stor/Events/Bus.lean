import Mathlib
import Stor.Lib.Run

/-!
# The event bus

`events/bus.go`.  `Publish` takes the subscriptions out of the map under the lock and serves them
one by one without it, beside other calls, the consumers and `Close`.  The map has no order, so
any delivery of the calls under way may come next; they are kept with the subscription that they
are for.  Hooks, names and the time of an event are left out.
-/

namespace Stor.Events

open Lib

structure Subscription (ε : Type*) where
  buffer : Nat
  filter : Option (ε → Bool)
  /-- The map has it. -/
  registered : Bool
  done : Bool
  /-- What is in the channel `C`. -/
  queue : List ε
  dropped : Nat
  /-- What the calls of `Publish` under way have still to look at for it. -/
  waiting : List ε
  /-- What the consumer has taken from `C`. -/
  received : List ε
  /-- What was published while the map had it. -/
  offered : List ε

structure Bus (ε : Type*) where
  closed : Bool
  /-- All that were ever made. -/
  subscriptions : List (Subscription ε)

/-- What happens to one subscription. -/
inductive Turn where
  /-- A turn of the loop of `Publish`; with both cases ready, `skip` takes that of `done`. -/
  | deliver (i : Nat) (skip : Bool)
  | receive
  /-- The context has ended: the entry is deleted. -/
  | cancel
  /-- `close`, by the goroutine of `Subscribe` or by `Close`. -/
  | finish

inductive Action (ε : Type*) where
  | subscribe (buffer : Int) (filter : Option (ε → Bool))
  | publish (ev : ε)
  | turn (k : Nat) (t : Turn)
  | close

variable {ε : Type*} {s s' : Subscription ε} {b : Bus ε} {ev : ε}

namespace Subscription

def accepts (s : Subscription ε) (ev : ε) : Bool := s.filter.all fun f => f ev

def publish (ev : ε) (s : Subscription ε) : Subscription ε :=
  if s.registered then { s with waiting := s.waiting ++ [ev], offered := s.offered ++ [ev] }
  else s

/-- The `select` of `Publish`. -/
def select (s : Subscription ε) (ev : ε) (skip : Bool) : Subscription ε :=
  if s.queue.length < s.buffer ∧ ¬(s.done ∧ skip) then { s with queue := s.queue ++ [ev] }
  else if s.done then s
  else { s with dropped := s.dropped + 1 }

def step (s : Subscription ε) : Turn → Option (Subscription ε)
  | .deliver i skip =>
    (s.waiting[i]?).map fun ev =>
      { (if s.accepts ev then s.select ev skip else s) with waiting := s.waiting.eraseIdx i }
  | .receive =>
    match s.queue with
    | [] => none
    | ev :: queue => some { s with queue := queue, received := s.received ++ [ev] }
  | .cancel => some { s with registered := false }
  | .finish => if s.registered then none else some { s with done := true }

end Subscription

namespace Bus

def new : Bus ε := ⟨false, []⟩

def step (b : Bus ε) : Action ε → Option (Bus ε)
  | .subscribe buffer filter =>
    some { b with subscriptions := b.subscriptions ++
      [⟨if buffer ≤ 0 then 256 else buffer.toNat, filter, !b.closed, b.closed, [], 0, [], [], []⟩] }
  | .publish ev =>
    some (if b.closed then b
      else { b with subscriptions := b.subscriptions.map (·.publish ev) })
  | .turn k t =>
    (b.subscriptions[k]?.bind (·.step t)).map fun s =>
      { b with subscriptions := b.subscriptions.set k s }
  | .close =>
    some ⟨true, b.subscriptions.map fun s => { s with registered := false }⟩

end Bus

/-! ## No event goes missing -/

/-- What was offered and passes the filter is with the consumer, in the channel, dropped and
counted, or still waiting.  Only a subscription that has ended is passed over. -/
structure Accounted (s : Subscription ε) : Prop where
  fits : s.queue.length ≤ s.buffer
  all : ∃ lost skipped : Multiset ε, lost.card = s.dropped ∧ (s.done = false → skipped = 0) ∧
    (s.received + s.queue + lost + skipped + s.waiting.filter s.accepts : Multiset ε) =
      s.offered.filter s.accepts

namespace Accounted

variable (h : Accounted s)
include h

theorem publish (ev : ε) : Accounted (s.publish ev) := by
  unfold Subscription.publish
  split_ifs
  · obtain ⟨hfits, lost, skipped, hlost, hskipped, hall⟩ := h
    refine ⟨hfits, lost, skipped, hlost, hskipped, ?_⟩
    show (_ + ((s.waiting ++ [ev]).filter s.accepts) : Multiset ε) =
      (s.offered ++ [ev]).filter s.accepts
    rw [List.filter_append, List.filter_append, ← Multiset.coe_add, ← Multiset.coe_add, ← hall]
    exact (add_assoc _ _ _).symm
  · exact h

/-- An event that passes the filter goes to the channel, is passed over, or is counted. -/
theorem select {waiting : List ε} (hev : s.accepts ev = true)
    (hperm : s.waiting.Perm (ev :: waiting)) (skip : Bool) :
    Accounted { s.select ev skip with waiting := waiting } := by
  obtain ⟨hfits, lost, skipped, hlost, hskipped, hall⟩ := h
  have hwaiting : (s.waiting.filter s.accepts : Multiset ε) =
      {ev} + waiting.filter s.accepts := by
    rw [Multiset.coe_eq_coe.mpr (hperm.filter _), List.filter_cons_of_pos hev]
    rfl
  rw [hwaiting] at hall
  unfold Subscription.select
  split_ifs with hroom hdone
  · refine ⟨?_, lost, skipped, hlost, hskipped, .trans ?_ hall⟩
    · rw [List.length_append]
      exact hroom.1
    · rw [← Multiset.coe_add, Multiset.coe_singleton]
      abel
  · refine ⟨hfits, lost, skipped + {ev}, hlost, fun hopen => ?_, .trans (by abel) hall⟩
    exact absurd (hdone.symm.trans hopen) (by decide)
  · refine ⟨hfits, lost + {ev}, skipped, ?_, hskipped, .trans (by abel) hall⟩
    rw [Multiset.card_add, hlost, Multiset.card_singleton]

theorem step {t : Turn} (ht : s.step t = some s') : Accounted s' := by
  cases t with
  | deliver i skip =>
    obtain ⟨ev, hi, rfl⟩ := Option.map_eq_some_iff.mp ht
    obtain ⟨hlt, rfl⟩ := List.getElem?_eq_some_iff.mp hi
    have hperm := (List.getElem_cons_eraseIdx_perm hlt).symm
    split_ifs with hev
    · exact h.select hev hperm skip
    · obtain ⟨hfits, lost, skipped, hlost, hskipped, hall⟩ := h
      rw [Multiset.coe_eq_coe.mpr (hperm.filter _), List.filter_cons_of_neg hev] at hall
      exact ⟨hfits, lost, skipped, hlost, hskipped, hall⟩
  | receive =>
    obtain ⟨hfits, lost, skipped, hlost, hskipped, hall⟩ := h
    rw [Subscription.step] at ht
    split at ht
    · cases ht
    next ev queue hqueue =>
      obtain rfl := Option.some.inj ht
      rw [hqueue] at hfits hall
      refine ⟨Nat.le_of_succ_le hfits, lost, skipped, hlost, hskipped, .trans ?_ hall⟩
      rw [← Multiset.coe_add, add_assoc (s.received : Multiset ε)]
      rfl
  | cancel =>
    obtain rfl := Option.some.inj ht
    exact ⟨h.fits, h.all⟩
  | finish =>
    obtain ⟨-, ht⟩ := Option.ite_none_left_eq_some.mp ht
    obtain rfl := Option.some.inj ht
    obtain ⟨lost, skipped, hlost, -, hall⟩ := h.all
    exact ⟨h.fits, lost, skipped, hlost, fun hopen => Bool.noConfusion hopen, hall⟩

end Accounted

theorem accounted_step {a : Action ε} {b' : Bus ε} (h : ∀ s ∈ b.subscriptions, Accounted s)
    (hstep : b.step a = some b') : ∀ s ∈ b'.subscriptions, Accounted s := by
  intro s hs
  cases a with
  | subscribe buffer filter =>
    obtain rfl := Option.some.inj hstep
    obtain hs | hs := List.mem_append.mp hs
    · exact h s hs
    · rw [List.mem_singleton.mp hs]
      exact ⟨Nat.zero_le _, 0, 0, rfl, fun _ => rfl, rfl⟩
  | publish ev =>
    obtain rfl := Option.some.inj hstep
    split_ifs at hs
    · exact h s hs
    · obtain ⟨s₀, hs₀, rfl⟩ := List.mem_map.mp hs
      exact (h s₀ hs₀).publish ev
  | turn k t =>
    obtain ⟨s₁, hs₁, rfl⟩ := Option.map_eq_some_iff.mp hstep
    obtain ⟨s₀, hs₀, ht⟩ := Option.bind_eq_some_iff.mp hs₁
    obtain hs | rfl := List.mem_or_eq_of_mem_set hs
    · exact h s hs
    · exact (h s₀ (List.mem_of_getElem? hs₀)).step ht
  | close =>
    obtain rfl := Option.some.inj hstep
    obtain ⟨s₀, hs₀, rfl⟩ := List.mem_map.mp hs
    exact ⟨(h s₀ hs₀).fits, (h s₀ hs₀).all⟩

/-- Along every interleaving of the calls, the consumers and the ends of subscriptions, no event
is lost without being counted, and none is delivered twice. -/
theorem published_accounted (as : List (Action ε)) (b : Bus ε)
    (hrun : exec Bus.step Bus.new as = some b) : ∀ s ∈ b.subscriptions, Accounted s :=
  exec_invariant (fun _ _ _ h _ hstep => accounted_step h hstep)
    (fun _ hs => absurd hs List.not_mem_nil) (guarded_of_forall (fun _ _ => trivial) _ as) hrun

theorem published_accounted_full :
    Accounted (⟨1, some (· < 9), true, false, [], 1, [7], [8], [9, 8, 6, 7]⟩ : Subscription Nat) :=
  published_accounted [.subscribe 1 (some (· < 9)), .publish 9, .publish 8, .publish 6,
    .turn 0 (.deliver 1 false), .turn 0 (.deliver 0 false), .turn 0 (.deliver 0 false),
    .turn 0 .receive, .publish 7] ⟨false, [_]⟩ rfl _ (List.mem_singleton_self _)

end Stor.Events
