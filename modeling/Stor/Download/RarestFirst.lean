import Stor.Download.QueueInvariant

/-!
# What `Pick` chooses

`Pick` of `download/piecequeue.go` scans sorted keys, the priority set or the buckets by
level, each with the same tests.  On a queue with its representation invariant that comes
to one choice, stated without any of these structures (`RarestFirst`): the lowest index,
else a priority piece, else a piece that as few peers have as any other.
-/

namespace Stor.Download

open Lib Peer Storage

namespace PieceQueue

/-- A piece that may be handed out to the peer, with endgame as it is in the queue. -/
def Eligible (q : PieceQueue) (hasPiece : Nat → Bool) (i : Nat) : Prop :=
  i ∈ q.pieces ∧ inBitfield q.skipMask i = false ∧ hasPiece i = true ∧
    (q.endgame = true ∨ i ∉ q.pending)

/-- One of the priority pieces may be handed out. -/
def HasPriority (q : PieceQueue) (hasPiece : Nat → Bool) : Prop :=
  ∃ i ∈ q.priority, q.Eligible hasPiece i

/-- The naive choice. -/
structure RarestFirst (q : PieceQueue) (hasPiece : Nat → Bool) (i : Nat) : Prop where
  eligible : q.Eligible hasPiece i
  lowest : q.sequential = true → ∀ j, q.Eligible hasPiece j → i ≤ j
  prioritized : q.sequential = false → q.HasPriority hasPiece → i ∈ q.priority
  rarest : q.sequential = false → ¬q.HasPriority hasPiece →
    ∀ j, q.Eligible hasPiece j → q.availability i ≤ q.availability j

/-- What a call of `Pick` may end in. -/
def Picks (q : PieceQueue) (hasPiece : Nat → Bool) (q' : PieceQueue) (res : Option PieceWork) :
    Prop :=
  ∃ draw, q.pick hasPiece draw = some (q', res)

variable {q : PieceQueue} {hasPiece : Nat → Bool} {i : Nat}

/-- The tests of the loops, on a queued piece. -/
theorem Wf.eligible_iff (h : q.Wf) :
    q.Eligible hasPiece i ↔ i ∈ q.pieces ∧ q.eligible hasPiece i = true := by
  unfold Eligible
  refine and_congr_right fun hi => ?_
  have hdone := h.done_disjoint i hi
  simp only [eligible, Bool.and_eq_true, Bool.or_eq_true, Bool.not_eq_true', decide_eq_false_iff_not]
  tauto

theorem Wf.eligible_of_priority (h : q.Wf) (hi : i ∈ q.priority)
    (he : q.eligible hasPiece i = true) : q.Eligible hasPiece i :=
  h.eligible_iff.mpr ⟨h.priority_sub i hi, he⟩

/-- Some priority piece passes the tests. -/
theorem Wf.hasPriority_iff (h : q.Wf) :
    q.HasPriority hasPiece ↔ q.priority.filter (fun i => q.eligible hasPiece i) ≠ ∅ := by
  rw [← Finset.nonempty_iff_ne_empty]
  constructor
  · rintro ⟨j, hj, he⟩
    exact ⟨j, Finset.mem_filter.mpr ⟨hj, (h.eligible_iff.mp he).2⟩⟩
  · rintro ⟨j, hj⟩
    obtain ⟨hj, he⟩ := Finset.mem_filter.mp hj
    exact ⟨j, hj, h.eligible_of_priority hj he⟩

/-! ## The three scans -/

/-- The first hit in sorted order is the lowest one. -/
theorem find?_insertionSort_iff {p : Nat → Bool} {l : List Nat} :
    (l.insertionSort (· ≤ ·)).find? p = some i ↔ i ∈ l ∧ p i = true ∧ ∀ j ∈ l, p j = true → i ≤ j := by
  -- what is found is below all others, so nothing else has that property
  have hlow : ∀ {k}, (l.insertionSort (· ≤ ·)).find? p = some k → ∀ j ∈ l, p j = true → k ≤ j := by
    intro k hk j hj hpj
    obtain ⟨-, before, after, hsplit, hbefore⟩ := List.find?_eq_some_iff_append.mp hk
    have hsorted := List.pairwise_insertionSort (· ≤ ·) l
    have hmem := (List.mem_insertionSort (· ≤ ·)).mpr hj
    rw [hsplit] at hsorted hmem
    rcases List.mem_append.mp hmem with hmem | hmem
    · have hfail := hbefore j hmem
      rw [hpj] at hfail
      cases hfail
    · rcases List.mem_cons.mp hmem with rfl | hmem
      · exact Nat.le_refl _
      · exact List.rel_of_pairwise_cons (List.pairwise_append.mp hsorted).2.1 hmem
  constructor
  · intro hi
    have hmem := (List.mem_insertionSort (· ≤ ·)).mp (List.mem_of_find?_eq_some hi)
    exact ⟨hmem, List.find?_some hi, hlow hi⟩
  · rintro ⟨hmem, hp, hmin⟩
    have hsome : ((l.insertionSort (· ≤ ·)).find? p).isSome := by
      rw [List.find?_isSome]
      exact ⟨i, (List.mem_insertionSort (· ≤ ·)).mpr hmem, hp⟩
    obtain ⟨k, hk⟩ := Option.isSome_iff_exists.mp hsome
    have hkmem := (List.mem_insertionSort (· ≤ ·)).mp (List.mem_of_find?_eq_some hk)
    have hle := hmin k hkmem (List.find?_some hk)
    rw [hk, Nat.le_antisymm (hlow hk i hmem hp) hle]

/-- The scan of the levels stops at the lowest one with a hit, and takes all of its hits. -/
theorem mem_firstLevel_iff {as : List Int} (has : as.Pairwise (· ≤ ·)) :
    i ∈ q.firstLevel hasPiece as ↔ q.eligible hasPiece i = true ∧
      ∃ a ∈ as, i ∈ q.bucket a ∧
        ∀ b ∈ as, ∀ j ∈ q.bucket b, q.eligible hasPiece j = true → a ≤ b := by
  induction as with
  | nil => simp [firstLevel]
  | cons a as ih =>
    obtain ⟨hle, has⟩ := List.pairwise_cons.mp has
    rw [firstLevel]
    split_ifs with hempty
    · -- nothing at this level, so it does not matter to either side
      have hno : ∀ j ∈ q.bucket a, q.eligible hasPiece j = true → False := by
        intro j hj he
        have hmem : j ∈ (q.bucket a).filter fun i => q.eligible hasPiece i :=
          Finset.mem_filter.mpr ⟨hj, he⟩
        rw [hempty] at hmem
        exact Finset.notMem_empty j hmem
      rw [ih has]
      refine and_congr_right fun he => ?_
      constructor
      · rintro ⟨b, hb, hi, hmin⟩
        refine ⟨b, List.mem_cons_of_mem _ hb, hi, fun c hc j hj hj' => ?_⟩
        rcases List.mem_cons.mp hc with rfl | hc
        · exact (hno j hj hj').elim
        · exact hmin c hc j hj hj'
      · rintro ⟨b, hb, hi, hmin⟩
        rcases List.mem_cons.mp hb with rfl | hb
        · exact (hno i hi he).elim
        · exact ⟨b, hb, hi, fun c hc => hmin c (List.mem_cons_of_mem _ hc)⟩
    · obtain ⟨j, hj⟩ := Finset.nonempty_iff_ne_empty.mpr hempty
      obtain ⟨hj, hje⟩ := Finset.mem_filter.mp hj
      rw [Finset.mem_filter, and_comm]
      refine and_congr_right fun he => ?_
      constructor
      · intro hi
        refine ⟨a, List.mem_cons_self, hi, fun b hb _ _ _ => ?_⟩
        rcases List.mem_cons.mp hb with rfl | hb
        · exact Int.le_refl _
        · exact hle b hb
      · rintro ⟨b, hb, hi, hmin⟩
        have hba : b ≤ a := hmin a List.mem_cons_self j hj hje
        rcases List.mem_cons.mp hb with rfl | hb
        · exact hi
        · rwa [Int.le_antisymm (hle b hb) hba]

theorem Wf.availability_mem_buckets (h : q.Wf) (hi : i ∈ q.pieces) :
    q.availability i ∈ q.buckets.keys := by
  have hbucket := h.bucketed i hi
  rw [← AList.mem_keys, ← AList.lookup_isSome]
  cases hlook : q.buckets.lookup (q.availability i) with
  | none =>
    rw [bucket, hlook] at hbucket
    exact absurd hbucket (Finset.notMem_empty i)
  | some b => rfl

/-- The buckets give the rarest of all eligible pieces. -/
theorem Wf.mem_levels_iff (h : q.Wf) :
    i ∈ q.firstLevel hasPiece (q.buckets.keys.insertionSort (· ≤ ·)) ↔
      q.Eligible hasPiece i ∧ ∀ j, q.Eligible hasPiece j → q.availability i ≤ q.availability j := by
  rw [mem_firstLevel_iff (List.pairwise_insertionSort (· ≤ ·) _)]
  simp only [List.mem_insertionSort, h.eligible_iff]
  constructor
  · rintro ⟨he, a, ha, hi, hmin⟩
    obtain ⟨hqueued, rfl⟩ := h.bucket_sub a i hi
    refine ⟨⟨hqueued, he⟩, fun j hj => ?_⟩
    exact hmin _ (h.availability_mem_buckets hj.1) j (h.bucketed j hj.1) hj.2
  · rintro ⟨⟨hqueued, he⟩, hmin⟩
    refine ⟨he, q.availability i, h.availability_mem_buckets hqueued, h.bucketed i hqueued, ?_⟩
    intro b hb j hj hje
    obtain ⟨hqueued', rfl⟩ := h.bucket_sub b j hj
    exact hmin j ⟨hqueued', hje⟩

/-- `Pick` draws from just the pieces that the naive choice allows. -/
theorem Wf.mem_candidates_iff (h : q.Wf) :
    i ∈ q.candidates hasPiece ↔ q.RarestFirst hasPiece i := by
  unfold candidates
  split_ifs with hseq hprio
  · rw [Option.mem_toFinset, Option.mem_def, find?_insertionSort_iff]
    constructor
    · rintro ⟨hi, he, hmin⟩
      have hkey := AList.mem_keys.mpr hi
      refine ⟨h.eligible_iff.mpr ⟨hkey, he⟩, fun _ j hj => ?_, fun hno => ?_, fun hno => ?_⟩
      · obtain ⟨hj, hje⟩ := h.eligible_iff.mp hj
        exact hmin j (AList.mem_keys.mp hj) hje
      · rw [hseq] at hno
        cases hno
      · rw [hseq] at hno
        cases hno
    · intro hi
      obtain ⟨hqueued, he⟩ := h.eligible_iff.mp hi.eligible
      refine ⟨AList.mem_keys.mp hqueued, he, fun j hj hje => ?_⟩
      exact hi.lowest hseq j (h.eligible_iff.mpr ⟨AList.mem_keys.mpr hj, hje⟩)
  · have hsome := h.hasPriority_iff.mpr hprio
    rw [Finset.mem_filter]
    constructor
    · rintro ⟨hi, he⟩
      exact ⟨h.eligible_of_priority hi he, fun hyes => absurd hyes hseq, fun _ _ => hi,
        fun _ hno => absurd hsome hno⟩
    · intro hi
      exact ⟨hi.prioritized (Bool.not_eq_true _ ▸ hseq) hsome, (h.eligible_iff.mp hi.eligible).2⟩
  · have hnone : ¬q.HasPriority hasPiece := fun hsome => hprio (h.hasPriority_iff.mp hsome)
    rw [h.mem_levels_iff]
    constructor
    · rintro ⟨hi, hmin⟩
      exact ⟨hi, fun hyes => absurd hyes hseq, fun _ hsome => absurd hsome hnone, fun _ _ => hmin⟩
    · intro hi
      exact ⟨hi.eligible, hi.rarest (Bool.not_eq_true _ ▸ hseq) hnone⟩

/-- There is a naive choice as soon as a piece is eligible. -/
theorem Wf.candidates_eq_empty_iff (h : q.Wf) :
    q.candidates hasPiece = ∅ ↔ ∀ i, ¬q.Eligible hasPiece i := by
  constructor
  · intro hempty i hi
    obtain ⟨hqueued, he⟩ := h.eligible_iff.mp hi
    exact candidates_ne_empty h hqueued he hempty
  · intro hnone
    refine Finset.eq_empty_of_forall_notMem fun i hi => ?_
    exact hnone i (h.eligible_iff.mpr (mem_candidates h hi))

/-! ## The whole call -/

theorem picks_iff {q' : PieceQueue} {res : Option PieceWork} : q.Picks hasPiece q' res ↔
    (res = none ∧ q' = q.enterEndgame ∧ q.enterEndgame.candidates hasPiece = ∅) ∨
      ∃ i ∈ q.enterEndgame.candidates hasPiece, res = some (q.enterEndgame.pieceAt i) ∧
        q' = { q.enterEndgame with pending := insert i q.enterEndgame.pending } := by
  unfold Picks pick
  constructor
  · rintro ⟨_ | i, h⟩
    · simp only [Option.ite_none_right_eq_some, Option.some_inj, Prod.mk.injEq] at h
      exact .inl ⟨h.2.2.symm, h.2.1.symm, h.1⟩
    · simp only [Option.ite_none_right_eq_some, Option.some_inj, Prod.mk.injEq] at h
      exact .inr ⟨i, h.1, h.2.2.symm, h.2.1.symm⟩
  · rintro (⟨rfl, rfl, hempty⟩ | ⟨i, hi, rfl, rfl⟩)
    · exact ⟨none, if_pos hempty⟩
    · exact ⟨some i, if_pos hi⟩

/-- `Pick` ends in the naive choice, and in each naive choice with some draw.  It finds
nothing just when no piece is eligible.  But for endgame, and the pending mark of what it
hands out, the queue stays as it was. -/
theorem pick_rarestFirst (h : q.Wf) (hasPiece : Nat → Bool) :
    (∀ q' res, q.Picks hasPiece q' res →
      q'.endgame = q.enterEndgame.endgame ∧
      (res = none ↔ ∀ i, ¬q.enterEndgame.Eligible hasPiece i) ∧
      (res = none → q' = { q with endgame := q'.endgame }) ∧
      ∀ pw, res = some pw → q.enterEndgame.RarestFirst hasPiece pw.index ∧
        q.pieces.lookup pw.index = some pw ∧
        q' = { q with endgame := q'.endgame, pending := insert pw.index q.pending }) ∧
    (∀ i, q.enterEndgame.RarestFirst hasPiece i →
      ∃ q' pw, q.Picks hasPiece q' (some pw) ∧ pw.index = i) ∧
    ∃ q' res, q.Picks hasPiece q' res := by
  have hwf := wf_enterEndgame h
  refine ⟨fun q' res hpicks => ?_, fun i hi => ?_, ?_⟩
  · rcases picks_iff.mp hpicks with ⟨rfl, rfl, hempty⟩ | ⟨i, hi, rfl, rfl⟩
    · refine ⟨rfl, iff_of_true rfl (hwf.candidates_eq_empty_iff.mp hempty), fun _ => rfl, ?_⟩
      intro pw hpw
      cases hpw
    · have hrarest := hwf.mem_candidates_iff.mp hi
      obtain ⟨hindex, hlook⟩ := pieceAt_index hwf hrarest.eligible.1
      refine ⟨rfl, iff_of_false (Option.some_ne_none _) fun hnone => hnone i hrarest.eligible,
        fun hres => absurd hres (Option.some_ne_none _), fun pw hpw => ?_⟩
      rw [← Option.some.inj hpw, hindex]
      exact ⟨hrarest, hlook, rfl⟩
  · obtain ⟨hindex, -⟩ := pieceAt_index hwf hi.eligible.1
    exact ⟨_, _, picks_iff.mpr (.inr ⟨i, hwf.mem_candidates_iff.mpr hi, rfl, rfl⟩), hindex⟩
  · by_cases hempty : q.enterEndgame.candidates hasPiece = ∅
    · exact ⟨_, _, picks_iff.mpr (.inl ⟨rfl, rfl, hempty⟩)⟩
    · obtain ⟨i, hi⟩ := Finset.nonempty_iff_ne_empty.mpr hempty
      exact ⟨_, _, picks_iff.mpr (.inr ⟨i, hi, rfl, rfl⟩)⟩

/-- Three pieces, of which the first and the last have priority. -/
def firstLastQueue : PieceQueue := new [⟨0, [], 1⟩, ⟨1, [], 1⟩, ⟨2, [], 1⟩] none 3 true false

/-- The peer does not have the first one. -/
theorem pick_rarestFirst_last :
    ∃ q' pw, firstLastQueue.Picks (fun i => i != 0) q' (some pw) ∧ pw.index = 2 ∧
      firstLastQueue.enterEndgame.RarestFirst (fun i => i != 0) 2 ∧
      q' = { firstLastQueue with endgame := true, pending := insert 2 firstLastQueue.pending } := by
  obtain ⟨⟨q', res⟩, hpick, pw, rfl, hindex⟩ : ∃ r,
      firstLastQueue.pick (fun i => i != 0) (some 2) = some r ∧
        ∃ pw, r.2 = some pw ∧ pw.index = 2 := by decide +kernel
  obtain ⟨hendgame, -, -, hpicked⟩ :=
    (pick_rarestFirst (wf_new _ _ _ _ _) _).1 q' (some pw) ⟨some 2, hpick⟩
  obtain ⟨hrarest, -, hq'⟩ := hpicked pw rfl
  have hon : firstLastQueue.enterEndgame.endgame = true := by decide +kernel
  rw [hindex] at hrarest hq'
  rw [hendgame.trans hon] at hq'
  exact ⟨q', pw, ⟨some 2, hpick⟩, hindex, hrarest, hq'⟩

end PieceQueue

end Stor.Download
