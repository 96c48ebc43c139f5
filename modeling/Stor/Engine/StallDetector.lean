import Mathlib

/-!
# Stall events

`engine/stall_detector.go`.  The detector looks at the number of peers at every tick.  It
publishes an event when there has been none for a time, and another one when there are some
again.  Times are in nanoseconds from the zero value of `time.Time`, which stands for no time.

The ticks are a sequence without an end, and what the detector has after some of them is
`stateAt`.  That state is told from the ticks alone (`Told`): the start of the ticks without
peers that it is in, and whether one of them is late enough.
-/

namespace Stor.Engine

/-- `Time.Sub`, which stays within an `int64`. -/
def subTime (t u : Int) : Int := max (-2 ^ 63) (min (2 ^ 63 - 1) (t - u))

/-- A tick as the loop gets it, and what the clock and the peer counter say then. -/
structure Tick where
  tv : Int
  now : Int
  count : Int

/-- The clock is read for a tick without a time. -/
def Tick.time (tick : Tick) : Int := if tick.tv = 0 then tick.now else tick.tv

inductive StallEvent where
  | stalled (duration : Int)
  | cleared (stalledFor : Int)
  deriving DecidableEq, Repr

def StallEvent.isStalled : StallEvent → Bool
  | .stalled _ => true
  | .cleared _ => false

structure StallState where
  stalledSince : Int
  stalled : Bool
  deriving DecidableEq, Repr

structure StallDetector where
  threshold : Int64

def stallThreshold : Int := 30 * 1000000000

namespace StallDetector

def resolved (d : StallDetector) : Int :=
  if d.threshold.toInt ≤ 0 then stallThreshold else d.threshold.toInt

/-- The state behind a tick, and what is published. -/
def step (t threshold count : Int) (s : StallState) : StallState × Option StallEvent :=
  if count ≤ 0 then
    let since := if s.stalledSince = 0 then t else s.stalledSince
    if s.stalled = false ∧ threshold ≤ subTime t since then
      (⟨since, true⟩, some (.stalled (subTime t since)))
    else (⟨since, s.stalled⟩, none)
  else (⟨0, false⟩, if s.stalled then some (.cleared (subTime t s.stalledSince)) else none)

/-- The state of `run` when it has seen the first `k` ticks. -/
def stateAt (d : StallDetector) (ticks : Nat → Tick) : Nat → StallState
  | 0 => ⟨0, false⟩
  | k + 1 => (step (ticks k).time d.resolved (ticks k).count (d.stateAt ticks k)).1

/-- What is published at tick `k`. -/
def emitted (d : StallDetector) (ticks : Nat → Tick) (k : Nat) : Option StallEvent :=
  (step (ticks k).time d.resolved (ticks k).count (d.stateAt ticks k)).2

/-- What is published by the first `n` ticks. -/
def published (d : StallDetector) (ticks : Nat → Tick) (n : Nat) : List StallEvent :=
  (List.range n).filterMap (d.emitted ticks)

end StallDetector

/-! ## Ticks without peers -/

/-- The ticks from `a` to `k` have no peers, and a tick before them has some. -/
structure QuietRun (ticks : Nat → Tick) (a k : Nat) : Prop where
  le : a ≤ k
  quiet : ∀ i, a ≤ i → i ≤ k → (ticks i).count ≤ 0
  starts : a = 0 ∨ 0 < (ticks (a - 1)).count

/-- `k` is the first of its run without peers that is at least `threshold` behind the first
tick of the run. -/
def FirstOverdue (threshold : Int) (ticks : Nat → Tick) (k : Nat) : Prop :=
  ∃ a, QuietRun ticks a k ∧ threshold ≤ (ticks k).tv - (ticks a).tv ∧
    ∀ i, a ≤ i → i < k → (ticks i).tv - (ticks a).tv < threshold

/-- `k` is the first tick with peers behind `j`. -/
structure FirstWithPeers (ticks : Nat → Tick) (j k : Nat) : Prop where
  lt : j < k
  quiet : ∀ i, j < i → i < k → (ticks i).count ≤ 0
  peers : 0 < (ticks k).count

section
variable {ticks : Nat → Tick} {a b j k : Nat}

theorem QuietRun.start_unique (ha : QuietRun ticks a k) (hb : QuietRun ticks b k) : a = b := by
  have hale := ha.le
  have hble := hb.le
  rcases Nat.lt_trichotomy a b with hlt | heq | hlt
  · rcases hb.starts with hzero | hbusy
    · omega
    · have hquiet := ha.quiet (b - 1) (by omega) (by omega)
      omega
  · exact heq
  · rcases ha.starts with hzero | hbusy
    · omega
    · have hquiet := hb.quiet (a - 1) (by omega) (by omega)
      omega

theorem QuietRun.single (h : k = 0 ∨ 0 < (ticks (k - 1)).count) (hquiet : (ticks k).count ≤ 0) :
    QuietRun ticks k k where
  le := Nat.le_refl k
  quiet := fun i hi hi' => by rwa [Nat.le_antisymm hi' hi]
  starts := h

theorem QuietRun.succ (h : QuietRun ticks a k) (hquiet : (ticks (k + 1)).count ≤ 0) :
    QuietRun ticks a (k + 1) where
  le := Nat.le_succ_of_le h.le
  quiet := by
    intro i hi hi'
    rcases Nat.of_le_succ hi' with hle | heq
    · exact h.quiet i hi hle
    · rwa [heq]
  starts := h.starts

theorem QuietRun.extend (h : QuietRun ticks a j) (hle : j ≤ k)
    (hquiet : ∀ i, j < i → i ≤ k → (ticks i).count ≤ 0) : QuietRun ticks a k where
  le := Nat.le_trans h.le hle
  quiet := fun i hi hi' => (Nat.lt_or_ge j i).elim (fun hlt => hquiet i hlt hi')
    (h.quiet i hi)
  starts := h.starts

/-- The run is the one of its first overdue tick as well. -/
theorem QuietRun.restrict (h : QuietRun ticks a k) (haj : a ≤ j) (hjk : j ≤ k) :
    QuietRun ticks a j :=
  ⟨haj, fun i hi hi' => h.quiet i hi (Nat.le_trans hi' hjk), h.starts⟩

end

/-- Stalls stand at the even places, from the first one on, and clearings at the odd ones. -/
def Alternating (es : List StallEvent) : Prop :=
  ∀ i e, es[i]? = some e → (e.isStalled = true ↔ i % 2 = 0)

theorem Alternating.concat {es : List StallEvent} {e : StallEvent} (h : Alternating es)
    (he : e.isStalled = true ↔ es.length % 2 = 0) : Alternating (es ++ [e]) := by
  intro i e' hget
  rcases Nat.lt_or_ge i es.length with hlt | hge
  · rw [List.getElem?_append_left hlt] at hget
    exact h i e' hget
  · obtain ⟨hlt, -⟩ := List.getElem?_eq_some_iff.mp hget
    rw [List.length_append, List.length_singleton] at hlt
    obtain rfl : i = es.length := by omega
    rw [List.getElem?_concat_length, Option.some_inj] at hget
    rwa [← hget]

/-! ## The state of the detector -/

theorem le_subTime_iff {threshold t u : Int} (hpos : 0 < threshold) (hlt : threshold < 2 ^ 63) :
    threshold ≤ subTime t u ↔ threshold ≤ t - u := by
  unfold subTime
  omega

/-- What the state stands for, before tick `k`: nothing behind a tick with peers, and otherwise
the run that the last tick is in. -/
inductive Told (threshold : Int) (ticks : Nat → Tick) : Nat → StallState → Prop
  | idle {k : Nat} (h : k = 0 ∨ 0 < (ticks (k - 1)).count) : Told threshold ticks k ⟨0, false⟩
  | quiet {a m : Nat} {stalled : Bool} (hrun : QuietRun ticks a m)
      (hstalled : stalled = true ↔
        ∃ i, a ≤ i ∧ i ≤ m ∧ threshold ≤ (ticks i).tv - (ticks a).tv) :
      Told threshold ticks (m + 1) ⟨(ticks a).tv, stalled⟩

namespace StallDetector

/-- A detector and its ticks, as far as the results need them. -/
structure Setup (d : StallDetector) (ticks : Nat → Tick) : Prop where
  positive : 0 < d.threshold.toInt
  times : ∀ k, (ticks k).tv ≠ 0

section
variable {d : StallDetector} {ticks : Nat → Tick} {k : Nat} {s : StallState}

theorem Setup.resolved (h : d.Setup ticks) : d.resolved = d.threshold.toInt :=
  if_neg (Int.not_le.mpr h.positive)

theorem Setup.time (h : d.Setup ticks) (k : Nat) : (ticks k).time = (ticks k).tv :=
  if_neg (h.times k)

theorem Setup.le_subTime_iff (h : d.Setup ticks) (t u : Int) :
    d.threshold.toInt ≤ subTime t u ↔ d.threshold.toInt ≤ t - u :=
  Engine.le_subTime_iff h.positive d.threshold.toInt_lt

/-- A tick with peers. -/
theorem step_peers (t threshold : Int) {count : Int} (h : 0 < count) (s : StallState) :
    step t threshold count s =
      (⟨0, false⟩, if s.stalled then some (.cleared (subTime t s.stalledSince)) else none) :=
  if_neg (Int.not_le.mpr h)

/-- A tick without peers, when the run began at `since`. -/
theorem Setup.step_quiet (h : d.Setup ticks) {t count since : Int} (hcount : count ≤ 0)
    (hsince : (if s.stalledSince = 0 then t else s.stalledSince) = since) :
    step t d.threshold.toInt count s =
      if s.stalled = false ∧ d.threshold.toInt ≤ t - since then
        (⟨since, true⟩, some (.stalled (subTime t since)))
      else (⟨since, s.stalled⟩, none) := by
  rw [step, if_pos hcount, hsince]
  dsimp only
  simp only [h.le_subTime_iff]

/-- One tick. -/
theorem Setup.told_step (h : d.Setup ticks) (hs : Told d.threshold.toInt ticks k s) :
    Told d.threshold.toInt ticks (k + 1)
      (step (ticks k).tv d.threshold.toInt (ticks k).count s).1 := by
  rcases Int.lt_or_le 0 (ticks k).count with hpeers | hquiet
  · rw [step_peers _ _ hpeers]
    exact .idle (.inr hpeers)
  cases hs with
  | idle hstart =>
    rw [h.step_quiet hquiet (if_pos rfl), if_neg (by have := h.positive; omega)]
    refine .quiet (.single hstart hquiet) ⟨fun hfalse => absurd hfalse Bool.false_ne_true, ?_⟩
    rintro ⟨i, hi, hi', hlate⟩
    rw [Nat.le_antisymm hi' hi] at hlate
    have := h.positive
    omega
  | @quiet a m stalled hrun hstalled =>
    rw [h.step_quiet hquiet (if_neg (h.times a))]
    dsimp only
    split_ifs with hlate
    · refine .quiet (hrun.succ hquiet) ⟨fun _ => ?_, fun _ => rfl⟩
      exact ⟨m + 1, Nat.le_succ_of_le hrun.le, Nat.le_refl _, hlate.2⟩
    · refine .quiet (hrun.succ hquiet) (hstalled.trans ⟨?_, ?_⟩)
      · rintro ⟨i, hi, hi', hover⟩
        exact ⟨i, hi, Nat.le_succ_of_le hi', hover⟩
      · rintro ⟨i, hi, hi', hover⟩
        rcases Nat.of_le_succ hi' with hle | rfl
        · exact ⟨i, hi, hle, hover⟩
        · have htrue : stalled = true := by
            by_contra hfalse
            exact hlate ⟨Bool.eq_false_iff.mpr hfalse, hover⟩
          exact hstalled.mp htrue

theorem Setup.told (h : d.Setup ticks) (k : Nat) :
    Told d.threshold.toInt ticks k (d.stateAt ticks k) := by
  induction k with
  | zero => exact .idle (.inl rfl)
  | succ k ih =>
    rw [stateAt, h.resolved, h.time]
    exact h.told_step ih

/-! ## The events -/

theorem Setup.emitted_eq (h : d.Setup ticks) (k : Nat) :
    d.emitted ticks k =
      (step (ticks k).tv d.threshold.toInt (ticks k).count (d.stateAt ticks k)).2 := by
  rw [emitted, h.resolved, h.time]

theorem Setup.stalled_iff (h : d.Setup ticks) (k : Nat) :
    (∃ duration, d.emitted ticks k = some (.stalled duration)) ↔
      FirstOverdue d.threshold.toInt ticks k := by
  rw [h.emitted_eq]
  rcases Int.lt_or_le 0 (ticks k).count with hpeers | hquiet
  · rw [step_peers _ _ hpeers]
    constructor
    · rintro ⟨duration, heq⟩
      dsimp only at heq
      split_ifs at heq
      cases heq
    · rintro ⟨a, hrun, -⟩
      have := hrun.quiet k hrun.le (Nat.le_refl k)
      omega
  have hpos := h.positive
  generalize hs : d.stateAt ticks k = s
  have htold := h.told k
  rw [hs] at htold
  cases htold with
  | idle hstart =>
    rw [h.step_quiet hquiet (if_pos rfl), if_neg (by omega)]
    constructor
    · rintro ⟨duration, heq⟩
      cases heq
    · rintro ⟨a, hrun, hlate, -⟩
      rw [hrun.start_unique (.single hstart hquiet)] at hlate
      omega
  | @quiet a m stalled hrun hstalled =>
    rw [h.step_quiet hquiet (if_neg (h.times a))]
    dsimp only
    constructor
    · rintro ⟨duration, heq⟩
      split_ifs at heq with hlate
      · refine ⟨a, hrun.succ hquiet, hlate.2, fun i hi hi' => ?_⟩
        by_contra hover
        rw [hstalled.mpr ⟨i, hi, by omega, by omega⟩] at hlate
        cases hlate.1
    · rintro ⟨b, hrun', hlate, hfirst⟩
      obtain rfl := hrun'.start_unique (hrun.succ hquiet)
      have hfalse : stalled = false := by
        rw [← Bool.not_eq_true, hstalled]
        rintro ⟨i, hi, hi', hover⟩
        have := hfirst i hi (by omega)
        omega
      exact ⟨_, by rw [if_pos ⟨hfalse, hlate⟩]⟩

/-- A run with an overdue tick has a first one. -/
theorem exists_firstOverdue {threshold : Int} {a m : Nat} (hrun : QuietRun ticks a m)
    (h : ∃ i, a ≤ i ∧ i ≤ m ∧ threshold ≤ (ticks i).tv - (ticks a).tv) :
    ∃ j, a ≤ j ∧ j ≤ m ∧ FirstOverdue threshold ticks j := by
  obtain ⟨hfirst, hle, hlate⟩ := Nat.find_spec h
  refine ⟨Nat.find h, hfirst, hle, a, hrun.restrict hfirst hle, hlate, fun i hi hi' => ?_⟩
  have hnot := Nat.find_min h hi'
  by_contra hover
  exact hnot ⟨hi, by omega, by omega⟩

/-- A tick without peers clears nothing. -/
theorem step_quiet_ne_cleared {t threshold count stalledFor : Int} (h : count ≤ 0) :
    (step t threshold count s).2 ≠ some (.cleared stalledFor) := by
  rw [step, if_pos h]
  generalize (if s.stalledSince = 0 then t else s.stalledSince) = since
  dsimp only
  split_ifs <;> intro heq <;> cases heq

/-- The flag is set behind a tick that has published a stall, up to the next tick with
peers. -/
theorem Setup.stalled_stateAt_iff (h : d.Setup ticks) (hpeers : 0 < (ticks k).count) :
    (d.stateAt ticks k).stalled = true ↔
      ∃ j, FirstOverdue d.threshold.toInt ticks j ∧ FirstWithPeers ticks j k := by
  generalize hs : d.stateAt ticks k = s
  have htold := h.told k
  rw [hs] at htold
  cases htold with
  | idle hstart =>
    refine ⟨fun hfalse => absurd hfalse Bool.false_ne_true, ?_⟩
    rintro ⟨j, ⟨a, hrun, -⟩, hfirst⟩
    have hlt := hfirst.lt
    have hquiet : (ticks (k - 1)).count ≤ 0 := by
      rcases Nat.lt_or_ge j (k - 1) with hbehind | hlast
      · exact hfirst.quiet (k - 1) hbehind (by omega)
      · rw [show k - 1 = j by omega]
        exact hrun.quiet j hrun.le (Nat.le_refl j)
    omega
  | @quiet a m stalled hrun hstalled =>
    rw [hstalled]
    constructor
    · intro hover
      obtain ⟨j, hj, hj', hfirst⟩ := exists_firstOverdue hrun hover
      exact ⟨j, hfirst, by omega, fun i hi hi' => hrun.quiet i (by omega) (by omega), hpeers⟩
    · rintro ⟨j, ⟨b, hrun', hlate, -⟩, hfirst⟩
      have hlt := hfirst.lt
      have hwhole := hrun'.extend (Nat.le_of_lt_succ hlt) fun i hi hi' =>
        hfirst.quiet i hi (by omega)
      obtain rfl := hwhole.start_unique hrun
      exact ⟨j, hrun'.le, by omega, hlate⟩

theorem Setup.cleared_iff (h : d.Setup ticks) (k : Nat) :
    (∃ stalledFor, d.emitted ticks k = some (.cleared stalledFor)) ↔
      ∃ j, (∃ duration, d.emitted ticks j = some (.stalled duration)) ∧
        FirstWithPeers ticks j k := by
  simp only [h.stalled_iff]
  rw [h.emitted_eq]
  rcases Int.lt_or_le 0 (ticks k).count with hpeers | hquiet
  · rw [← h.stalled_stateAt_iff hpeers, step_peers _ _ hpeers]
    dsimp only
    constructor
    · rintro ⟨stalledFor, heq⟩
      by_contra hfalse
      rw [if_neg hfalse] at heq
      cases heq
    · intro hstalled
      exact ⟨_, if_pos hstalled⟩
  · constructor
    · rintro ⟨stalledFor, heq⟩
      exact absurd heq (step_quiet_ne_cleared hquiet)
    · rintro ⟨j, -, hfirst⟩
      have := hfirst.peers
      omega

end

/-! ## Alternation -/

/-- A tick publishes nothing and leaves the flag, or it publishes the event that the flag is
for, and the flag turns. -/
theorem step_event (t threshold count : Int) (s : StallState) :
    (step t threshold count s).2 = none ∧
        (step t threshold count s).1.stalled = s.stalled ∨
      (∃ duration, (step t threshold count s).2 = some (.stalled duration)) ∧
        s.stalled = false ∧ (step t threshold count s).1.stalled = true ∨
      (∃ stalledFor, (step t threshold count s).2 = some (.cleared stalledFor)) ∧
        s.stalled = true ∧ (step t threshold count s).1.stalled = false := by
  rcases Int.lt_or_le 0 count with hpeers | hquiet
  · rw [step_peers _ _ hpeers]
    cases hstalled : s.stalled with
    | false => exact .inl ⟨rfl, rfl⟩
    | true => exact .inr (.inr ⟨⟨_, rfl⟩, rfl, rfl⟩)
  · rw [step, if_pos hquiet]
    generalize (if s.stalledSince = 0 then t else s.stalledSince) = since
    dsimp only
    split_ifs with hlate
    · exact .inr (.inl ⟨⟨_, rfl⟩, hlate.1, rfl⟩)
    · exact .inl ⟨rfl, rfl⟩

section
variable (d : StallDetector) (ticks : Nat → Tick)

theorem published_succ (n : Nat) :
    d.published ticks (n + 1) = d.published ticks n ++ (d.emitted ticks n).toList := by
  rw [published, List.range_succ, List.filterMap_append, published]
  cases h : d.emitted ticks n with
  | none => rw [List.filterMap_cons_none h]; rfl
  | some e => rw [List.filterMap_cons_some h]; rfl

/-- The flag is the parity of the number of events. -/
theorem published_alternates (n : Nat) :
    ((d.stateAt ticks n).stalled = true ↔ (d.published ticks n).length % 2 = 1) ∧
      Alternating (d.published ticks n) := by
  induction n with
  | zero =>
    refine ⟨⟨fun h => absurd h Bool.false_ne_true, fun h => absurd h Nat.zero_ne_one⟩, ?_⟩
    intro i e hget
    cases hget
  | succ n ih =>
    obtain ⟨hflag, hevents⟩ := ih
    rw [published_succ, stateAt, emitted]
    rcases step_event (ticks n).time d.resolved (ticks n).count (d.stateAt ticks n) with
      ⟨hnone, hsame⟩ | ⟨⟨duration, hsome⟩, hfalse, htrue⟩ | ⟨⟨stalledFor, hsome⟩, htrue, hfalse⟩
    · rw [hnone, hsame, Option.toList_none, List.append_nil]
      exact ⟨hflag, hevents⟩
    · have heven : (d.published ticks n).length % 2 = 0 := by
        rw [hfalse] at hflag
        have hodd := mt hflag.mpr Bool.false_ne_true
        omega
      rw [hsome, htrue, Option.toList_some, List.length_append, List.length_singleton]
      exact ⟨⟨fun _ => by omega, fun _ => rfl⟩, hevents.concat ⟨fun _ => heven, fun _ => rfl⟩⟩
    · have hodd := hflag.mp htrue
      rw [hsome, hfalse, Option.toList_some, List.length_append, List.length_singleton]
      refine ⟨⟨fun h => absurd h Bool.false_ne_true, fun h => by omega⟩, hevents.concat ?_⟩
      exact ⟨fun h => absurd h Bool.false_ne_true, fun h => by omega⟩

end
end StallDetector

/-- Whatever the ticks, stalls and clearings alternate.  A stall is published at the first tick
of a run without peers that is late enough, and a clearing at the first tick with peers behind a
stall. -/
theorem stall_events (d : StallDetector) (ticks : Nat → Tick) (hthreshold : 0 < d.threshold)
    (htimes : ∀ k, (ticks k).tv ≠ 0) :
    (∀ n, Alternating (d.published ticks n)) ∧
      (∀ k, (∃ duration, d.emitted ticks k = some (.stalled duration)) ↔
        FirstOverdue d.threshold.toInt ticks k) ∧
      ∀ k, (∃ stalledFor, d.emitted ticks k = some (.cleared stalledFor)) ↔
        ∃ j, (∃ duration, d.emitted ticks j = some (.stalled duration)) ∧
          FirstWithPeers ticks j k := by
  have h : d.Setup ticks := ⟨Int64.lt_iff_toInt_lt.mp hthreshold, htimes⟩
  exact ⟨fun n => (d.published_alternates ticks n).2, h.stalled_iff, h.cleared_iff⟩

/-- A tick every second without peers, up to the tenth one. -/
def tenQuiet (k : Nat) : Tick := ⟨1000000000 * (k + 1), 0, if k < 10 then 0 else 1⟩

theorem stall_events_tenQuiet :
    FirstOverdue 5000000000 tenQuiet 5 ∧
      ∃ duration, StallDetector.emitted ⟨5000000000⟩ tenQuiet 5 = some (.stalled duration) := by
  have hfirst : FirstOverdue 5000000000 tenQuiet 5 := by
    refine ⟨0, ⟨by decide, ?_, .inl rfl⟩, by decide, ?_⟩
    · intro i _ hi
      have hlt : i < 10 := by omega
      simp [tenQuiet, hlt]
    · intro i _ hi
      simp only [tenQuiet]
      omega
  have hevents := stall_events ⟨5000000000⟩ tenQuiet (by decide)
    (fun k => by simp only [tenQuiet]; omega)
  exact ⟨hfirst, (hevents.2.1 5).mpr hfirst⟩

example : StallDetector.published ⟨5000000000⟩ tenQuiet 12 =
    [.stalled 5000000000, .cleared 10000000000] := by decide

end Stor.Engine
