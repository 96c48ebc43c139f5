import Stor.Download.PieceQueue

/-!
# The representation invariant of the piece queue

`Wf` holds of a new queue and is kept by every method.  From it follows what
`Pick` hands out: a piece of the queue that passed the tests, and some piece
whenever one passes.
-/

namespace Stor.Download

open Lib Peer Storage

namespace PieceQueue

structure Wf (q : PieceQueue) : Prop where
  indexed : ∀ i pw, q.pieces.lookup i = some pw → pw.index = i
  bucketed : ∀ i, i ∈ q.pieces → i ∈ q.bucket (q.availability i)
  bucket_sub : ∀ a i, i ∈ q.bucket a → i ∈ q.pieces ∧ q.availability i = a
  bucket_nonempty : ∀ a, q.buckets.lookup a ≠ some ∅
  done_disjoint : ∀ i, i ∈ q.pieces → i ∉ q.done
  priority_sub : ∀ i, i ∈ q.priority → i ∈ q.pieces

/-! ## Buckets -/

theorem bucket_dropFromBucket (q : PieceQueue) (idx : Nat) (a b : Int) :
    (q.dropFromBucket idx a).bucket b = if b = a then (q.bucket a).erase idx else q.bucket b := by
  unfold dropFromBucket bucket
  cases h : q.buckets.lookup a with
  | none =>
    by_cases hb : b = a
    · rw [if_pos hb, hb, h]
      rfl
    · rw [if_neg hb]
  | some s =>
    by_cases hb : b = a
    · subst hb
      rw [if_pos rfl]
      by_cases he : s.erase idx = ∅
      · simp only [he, if_true, AList.lookup_erase, Option.getD_none, Option.getD_some]
      · simp only [if_neg he, AList.lookup_insert, Option.getD_some]
    · rw [if_neg hb]
      by_cases he : s.erase idx = ∅
      · simp only [if_pos he, AList.lookup_erase_ne hb]
      · simp only [if_neg he, AList.lookup_insert_ne hb]

theorem bucket_addToBucket (q : PieceQueue) (idx : Nat) (a b : Int) :
    (q.addToBucket idx a).bucket b = if b = a then insert idx (q.bucket a) else q.bucket b := by
  unfold addToBucket
  show ((q.buckets.insert a (insert idx (q.bucket a))).lookup b).getD ∅ = _
  by_cases hb : b = a
  · rw [if_pos hb, hb, AList.lookup_insert, Option.getD_some]
  · rw [if_neg hb, AList.lookup_insert_ne hb]
    rfl

theorem nonempty_dropFromBucket {q : PieceQueue} (h : ∀ a, q.buckets.lookup a ≠ some ∅)
    (idx : Nat) (a b : Int) : (q.dropFromBucket idx a).buckets.lookup b ≠ some ∅ := by
  unfold dropFromBucket
  cases hs : q.buckets.lookup a with
  | none => exact h b
  | some s =>
    show (if s.erase idx = ∅ then _ else _ : AList _).lookup b ≠ some ∅
    by_cases he : s.erase idx = ∅
    · rw [if_pos he]
      by_cases hb : b = a
      · rw [hb, AList.lookup_erase]
        exact (Option.some_ne_none _).symm
      · rw [AList.lookup_erase_ne hb]
        exact h b
    · rw [if_neg he]
      by_cases hb : b = a
      · rw [hb, AList.lookup_insert]
        exact fun heq => he (Option.some_inj.mp heq)
      · rw [AList.lookup_insert_ne hb]
        exact h b

theorem nonempty_addToBucket {q : PieceQueue} (h : ∀ a, q.buckets.lookup a ≠ some ∅)
    (idx : Nat) (a b : Int) : (q.addToBucket idx a).buckets.lookup b ≠ some ∅ := by
  show (q.buckets.insert a (insert idx (q.bucket a))).lookup b ≠ some ∅
  by_cases hb : b = a
  · rw [hb, AList.lookup_insert]
    exact fun heq => Finset.insert_ne_empty _ _ (Option.some_inj.mp heq)
  · rw [AList.lookup_insert_ne hb]
    exact h b

theorem dropFromBucket_buckets_only (q : PieceQueue) (idx : Nat) (a : Int) :
    ∃ bs, q.dropFromBucket idx a = { q with buckets := bs } := by
  unfold dropFromBucket
  cases q.buckets.lookup a with
  | none => exact ⟨q.buckets, rfl⟩
  | some s => exact ⟨_, rfl⟩

theorem moveBucket_buckets_only (q : PieceQueue) (idx : Nat) (a b : Int) :
    ∃ bs, q.moveBucket idx a b = { q with buckets := bs } := by
  obtain ⟨bs, hbs⟩ := dropFromBucket_buckets_only q idx a
  unfold moveBucket addToBucket
  rw [hbs]
  exact ⟨_, rfl⟩

theorem bucket_moveBucket (q : PieceQueue) (idx : Nat) {a b : Int} (hab : a ≠ b) (c : Int) :
    (q.moveBucket idx a b).bucket c =
      if c = b then insert idx (q.bucket b)
      else if c = a then (q.bucket a).erase idx else q.bucket c := by
  unfold moveBucket
  rw [bucket_addToBucket, bucket_dropFromBucket, bucket_dropFromBucket, if_neg hab.symm]

/-! ## The methods keep the invariant -/

theorem lookup_pieceMap_foldl {pieces : List PieceWork} {m : AList fun _ : Nat => PieceWork}
    (hm : ∀ i pw, m.lookup i = some pw → pw.index = i) :
    ∀ i pw, (pieces.foldl (fun m pw => m.insert pw.index pw) m).lookup i = some pw →
      pw.index = i := by
  induction pieces generalizing m with
  | nil => exact hm
  | cons p ps ih =>
    apply ih
    intro i pw h
    by_cases hi : i = p.index
    · rw [hi, AList.lookup_insert, Option.some_inj] at h
      rw [hi, h]
    · rw [AList.lookup_insert_ne hi] at h
      exact hm i pw h

theorem mem_pieceMap_foldl {pieces : List PieceWork} {m : AList fun _ : Nat => PieceWork}
    {i : Nat} : i ∈ pieces.foldl (fun m pw => m.insert pw.index pw) m ↔
      i ∈ pieces.map PieceWork.index ∨ i ∈ m := by
  induction pieces generalizing m with
  | nil => simp
  | cons p ps ih =>
    rw [List.foldl_cons, ih, AList.mem_insert, List.map_cons, List.mem_cons]
    tauto

theorem mem_pieceMap {pieces : List PieceWork} {i : Nat} :
    i ∈ pieceMap pieces ↔ i ∈ pieces.map PieceWork.index := by
  unfold pieceMap
  rw [mem_pieceMap_foldl]
  exact or_iff_left (AList.notMem_empty i)

theorem mem_firstLast {m : AList fun _ : Nat => PieceWork} {n i : Nat} (h : i ∈ firstLast m n) :
    i ∈ m := by
  unfold firstLast at h
  rcases Finset.mem_union.mp h with h | h
  · split_ifs at h with h0
    · exact Finset.mem_singleton.mp h ▸ h0
    · exact absurd h (Finset.notMem_empty i)
  · split_ifs at h with h0
    · exact Finset.mem_singleton.mp h ▸ h0.2
    · exact absurd h (Finset.notMem_empty i)

theorem bucket_new (pieces : List PieceWork) (skipMask : Option Bitfield) (n : Nat) (p s : Bool)
    (a : Int) : (new pieces skipMask n p s).bucket a =
      if a = 0 then
        ((pieces.filter fun pw => !inBitfield skipMask pw.index).map PieceWork.index).toFinset
      else ∅ := by
  unfold new bucket
  simp only
  split_ifs with he ha ha
  · rw [he]
    rfl
  · rfl
  · rw [ha]
    rfl
  · rw [AList.lookup_eq_none.mpr]
    · rfl
    · rw [AList.mem_keys, AList.keys_singleton, List.mem_singleton]
      exact ha

theorem wf_new (pieces : List PieceWork) (skipMask : Option Bitfield) (n : Nat) (p s : Bool) :
    (new pieces skipMask n p s).Wf := by
  refine ⟨?_, ?_, ?_, ?_, ?_, ?_⟩
  · apply lookup_pieceMap_foldl
    intro i pw h
    rw [AList.lookup_empty] at h
    exact absurd h.symm (Option.some_ne_none pw)
  · intro i hi
    rw [bucket_new]
    show i ∈ if (0 : Int) = 0 then _ else _
    rw [if_pos rfl, List.mem_toFinset]
    exact mem_pieceMap.mp hi
  · intro a i hi
    rw [bucket_new] at hi
    split_ifs at hi with ha
    · exact ⟨mem_pieceMap.mpr (List.mem_toFinset.mp hi), ha.symm⟩
    · exact absurd hi (Finset.notMem_empty i)
  · intro a
    unfold new
    simp only
    split_ifs with he
    · rw [AList.lookup_empty]
      exact (Option.some_ne_none _).symm
    · by_cases ha : a = 0
      · subst ha
        intro h
        exact he (Option.some_inj.mp h)
      · rw [AList.lookup_eq_none.mpr]
        · exact (Option.some_ne_none _).symm
        · rw [AList.mem_keys, AList.keys_singleton, List.mem_singleton]
          exact ha
  · intro i _
    exact Finset.notMem_empty i
  · intro i hi
    unfold new at hi ⊢
    simp only at hi ⊢
    split_ifs at hi
    · exact mem_firstLast hi
    · exact absurd hi (Finset.notMem_empty i)

/-- A change of the fields that the invariant does not mention. -/
theorem Wf.congr {q q' : PieceQueue} (h : q.Wf) (hp : q'.pieces = q.pieces)
    (ha : q'.availability = q.availability) (hb : q'.buckets = q.buckets) (hd : q'.done = q.done)
    (hr : q'.priority = q.priority) : q'.Wf := by
  have hbucket : ∀ a, q'.bucket a = q.bucket a := by
    intro a
    unfold bucket
    rw [hb]
  refine ⟨?_, ?_, ?_, ?_, ?_, ?_⟩
  · rw [hp]
    exact h.indexed
  · intro i hi
    rw [hbucket, ha]
    exact h.bucketed i (hp ▸ hi)
  · intro a i hi
    rw [hbucket] at hi
    rw [hp, ha]
    exact h.bucket_sub a i hi
  · rw [hb]
    exact h.bucket_nonempty
  · rw [hp, hd]
    exact h.done_disjoint
  · rw [hp, hr]
    exact h.priority_sub

theorem wf_enterEndgame {q : PieceQueue} (h : q.Wf) : q.enterEndgame.Wf :=
  h.congr rfl rfl rfl rfl rfl

theorem wf_pick {q q' : PieceQueue} {hasPiece : Nat → Bool} {draw : Option Nat}
    {res : Option PieceWork} (h : q.Wf) (hpick : q.pick hasPiece draw = some (q', res)) :
    q'.Wf := by
  unfold pick at hpick
  cases draw with
  | none =>
    simp only [Option.ite_none_right_eq_some, Option.some_inj, Prod.mk.injEq] at hpick
    rw [← hpick.2.1]
    exact wf_enterEndgame h
  | some idx =>
    simp only [Option.ite_none_right_eq_some, Option.some_inj, Prod.mk.injEq] at hpick
    rw [← hpick.2.1]
    exact h.congr rfl rfl rfl rfl rfl

theorem wf_giveBack {q : PieceQueue} (h : q.Wf) (pw : PieceWork) : (q.giveBack pw).Wf :=
  h.congr rfl rfl rfl rfl rfl

theorem wf_updateSkipMask {q : PieceQueue} (h : q.Wf) (mask : Option Bitfield) :
    (q.updateSkipMask mask).Wf :=
  h.congr rfl rfl rfl rfl rfl

/-- What `Complete` leaves alone. -/
theorem complete_frame (q : PieceQueue) (index : Nat) :
    (q.complete index).availability = q.availability ∧ (q.complete index).endgame = q.endgame ∧
      (q.complete index).totalPieces = q.totalPieces := by
  obtain ⟨bs, hbs⟩ := dropFromBucket_buckets_only q index (q.availability index)
  unfold complete signal
  rw [hbs]
  exact ⟨rfl, rfl, rfl⟩

theorem wf_complete {q : PieceQueue} (h : q.Wf) (index : Nat) : (q.complete index).Wf := by
  have hbucket : ∀ a, (q.complete index).bucket a =
      if a = q.availability index then (q.bucket (q.availability index)).erase index
      else q.bucket a := by
    intro a
    exact bucket_dropFromBucket q index (q.availability index) a
  have hpieces : (q.complete index).pieces = q.pieces.erase index := rfl
  have havail := (complete_frame q index).1
  refine ⟨?_, ?_, ?_, ?_, ?_, ?_⟩
  · intro i pw hi
    rw [hpieces] at hi
    by_cases hne : i = index
    · rw [hne, AList.lookup_erase] at hi
      exact absurd hi.symm (Option.some_ne_none pw)
    · rw [AList.lookup_erase_ne hne] at hi
      exact h.indexed i pw hi
  · intro i hi
    rw [hpieces, AList.mem_erase] at hi
    rw [havail, hbucket]
    split_ifs with ha
    · exact Finset.mem_erase.mpr ⟨hi.1, ha ▸ h.bucketed i hi.2⟩
    · exact h.bucketed i hi.2
  · intro a i hi
    rw [hbucket] at hi
    rw [hpieces, havail, AList.mem_erase]
    split_ifs at hi with ha
    · obtain ⟨hne, hi⟩ := Finset.mem_erase.mp hi
      obtain ⟨hmem, heq⟩ := h.bucket_sub _ i hi
      exact ⟨⟨hne, hmem⟩, heq.trans ha.symm⟩
    · obtain ⟨hmem, heq⟩ := h.bucket_sub a i hi
      refine ⟨⟨?_, hmem⟩, heq⟩
      intro hi'
      exact ha (hi' ▸ heq.symm)
  · exact fun b => nonempty_dropFromBucket h.bucket_nonempty index (q.availability index) b
  · intro i hi
    rw [hpieces, AList.mem_erase] at hi
    show i ∉ insert index q.done
    rw [Finset.mem_insert, not_or]
    exact ⟨hi.1, h.done_disjoint i hi.2⟩
  · intro i hi
    have hi' : i ∈ q.priority.erase index := hi
    rw [hpieces, AList.mem_erase]
    rw [Finset.mem_erase] at hi'
    exact ⟨hi'.1, h.priority_sub i hi'.2⟩

/-- A queued piece that went to the bucket of its new availability. -/
theorem Wf.of_moved {q q' : PieceQueue} (h : q.Wf) {idx : Nat} (hidx : idx ∈ q.pieces) {a : Int}
    (hne : q.availability idx ≠ a) (hp : q'.pieces = q.pieces) (hd : q'.done = q.done)
    (hr : q'.priority = q.priority) (ha : q'.availability = Function.update q.availability idx a)
    (hb : ∀ c, q'.bucket c = if c = a then insert idx (q.bucket a)
      else if c = q.availability idx then (q.bucket (q.availability idx)).erase idx
      else q.bucket c)
    (hn : ∀ c, q'.buckets.lookup c ≠ some ∅) : q'.Wf := by
  refine ⟨hp ▸ h.indexed, ?_, ?_, hn, by rw [hp, hd]; exact h.done_disjoint,
    by rw [hp, hr]; exact h.priority_sub⟩
  · intro i hi
    rw [hp] at hi
    have hmem := h.bucketed i hi
    rw [hb, ha]
    by_cases hii : i = idx
    · rw [hii, Function.update_self, if_pos rfl]
      exact Finset.mem_insert_self _ _
    · rw [Function.update_of_ne hii]
      split_ifs with h1 h2
      · exact Finset.mem_insert_of_mem (h1 ▸ hmem)
      · exact Finset.mem_erase.mpr ⟨hii, h2 ▸ hmem⟩
      · exact hmem
  · intro c i hi
    rw [hb] at hi
    rw [hp, ha]
    split_ifs at hi with h1 h2
    · rcases Finset.mem_insert.mp hi with hii | hi
      · rw [hii, Function.update_self]
        exact ⟨hidx, h1.symm⟩
      · obtain ⟨hmem, heq⟩ := h.bucket_sub _ i hi
        have hii : i ≠ idx := fun hii => hne (hii ▸ heq)
        rw [Function.update_of_ne hii]
        exact ⟨hmem, heq.trans h1.symm⟩
    · obtain ⟨hii, hi⟩ := Finset.mem_erase.mp hi
      obtain ⟨hmem, heq⟩ := h.bucket_sub _ i hi
      rw [Function.update_of_ne hii]
      exact ⟨hmem, heq.trans h2.symm⟩
    · obtain ⟨hmem, heq⟩ := h.bucket_sub _ i hi
      have hii : i ≠ idx := fun hii => h2 (hii ▸ heq.symm)
      rw [Function.update_of_ne hii]
      exact ⟨hmem, heq⟩

theorem shiftAvailability_eq (d : Int) (q : PieceQueue) (idx : Nat) :
    ∃ bs, shiftAvailability d q idx = { q with
      availability := Function.update q.availability idx (q.availability idx + d), buckets := bs } := by
  obtain ⟨bs, hbs⟩ := moveBucket_buckets_only
    { q with availability := Function.update q.availability idx (q.availability idx + d) } idx
    (q.availability idx) (q.availability idx + d)
  exact ⟨bs, hbs⟩

theorem shiftAvailability_pieces (d : Int) (q : PieceQueue) (idx : Nat) :
    (shiftAvailability d q idx).pieces = q.pieces := by
  obtain ⟨bs, hbs⟩ := shiftAvailability_eq d q idx
  rw [hbs]

theorem foldl_shiftAvailability_eq (d : Int) (is : List Nat) (q : PieceQueue) :
    ∃ av bs, is.foldl (shiftAvailability d) q = { q with availability := av, buckets := bs } := by
  induction is generalizing q with
  | nil => exact ⟨q.availability, q.buckets, rfl⟩
  | cons i is ih =>
    obtain ⟨bs, hbs⟩ := shiftAvailability_eq d q i
    obtain ⟨av, bs', h⟩ := ih (shiftAvailability d q i)
    rw [List.foldl_cons, h, hbs]
    exact ⟨av, bs', rfl⟩

theorem availability_foldl_shift {d : Int} {is : List Nat} (hnodup : is.Nodup) (q : PieceQueue)
    (j : Nat) : (is.foldl (shiftAvailability d) q).availability j =
      q.availability j + if j ∈ is then d else 0 := by
  induction is generalizing q with
  | nil => simp
  | cons i is ih =>
    obtain ⟨hi, hrest⟩ := List.nodup_cons.mp hnodup
    obtain ⟨bs, hbs⟩ := shiftAvailability_eq d q i
    have hfirst : (shiftAvailability d q i).availability =
        Function.update q.availability i (q.availability i + d) := by rw [hbs]
    rw [List.foldl_cons, ih hrest, hfirst]
    by_cases hj : j = i
    · subst hj
      rw [Function.update_self, if_neg hi, if_pos List.mem_cons_self, Int.add_zero]
    · rw [Function.update_of_ne hj]
      simp only [List.mem_cons, hj, false_or]

theorem wf_shiftAvailability {q : PieceQueue} (h : q.Wf) {idx : Nat} (hidx : idx ∈ q.pieces)
    {d : Int} (hd : d ≠ 0) : (shiftAvailability d q idx).Wf := by
  have hne : q.availability idx ≠ q.availability idx + d := by omega
  obtain ⟨bs, hbs⟩ := shiftAvailability_eq d q idx
  refine h.of_moved hidx hne (by rw [hbs]) (by rw [hbs]) (by rw [hbs]) (by rw [hbs]) ?_ ?_
  · exact bucket_moveBucket { q with
      availability := Function.update q.availability idx (q.availability idx + d) } idx hne
  · have hn : ∀ a, { q with
        availability := Function.update q.availability idx (q.availability idx + d) }.buckets.lookup a
          ≠ some ∅ := h.bucket_nonempty
    exact nonempty_addToBucket (nonempty_dropFromBucket hn idx (q.availability idx)) idx
      (q.availability idx + d)

theorem wf_foldl_shiftAvailability {d : Int} (hd : d ≠ 0) {is : List Nat} {q : PieceQueue}
    (h : q.Wf) (his : ∀ i ∈ is, i ∈ q.pieces) : (is.foldl (shiftAvailability d) q).Wf := by
  induction is generalizing q with
  | nil => exact h
  | cons i is ih =>
    apply ih (wf_shiftAvailability h (his i List.mem_cons_self) hd)
    intro j hj
    rw [shiftAvailability_pieces]
    exact his j (List.mem_cons_of_mem _ hj)

theorem mem_peerPieces_iff {q : PieceQueue} {bf : Option Bitfield} {i : Nat} :
    i ∈ q.peerPieces bf ↔ i ∈ q.pieces ∧ bf.all (fun b => b.hasPiece i) = true := by
  unfold peerPieces
  rw [List.mem_filter, AList.mem_keys]

theorem mem_peerPieces {q : PieceQueue} {bf : Option Bitfield} {i : Nat}
    (h : i ∈ q.peerPieces bf) : i ∈ q.pieces :=
  (mem_peerPieces_iff.mp h).1

/-- What adding or taking away a peer does to the availability of a piece. -/
theorem availability_foldl_peerPieces (d : Int) (q : PieceQueue) (bf : Option Bitfield) {i : Nat}
    (hi : i ∈ q.pieces) : ((q.peerPieces bf).foldl (shiftAvailability d) q).availability i =
      q.availability i + if bf.all (fun b => b.hasPiece i) then d else 0 := by
  have hnodup : (q.peerPieces bf).Nodup := q.pieces.keys_nodup.filter _
  rw [availability_foldl_shift hnodup]
  simp only [mem_peerPieces_iff, hi, true_and]

theorem pieces_foldl_shift (d : Int) (is : List Nat) (q : PieceQueue) :
    (is.foldl (shiftAvailability d) q).pieces = q.pieces := by
  obtain ⟨av, bs, heq⟩ := foldl_shiftAvailability_eq d is q
  rw [heq]

theorem wf_signal {q : PieceQueue} (h : q.Wf) : q.signal.Wf := h.congr rfl rfl rfl rfl rfl

theorem wf_addPeerBitfield {q : PieceQueue} (h : q.Wf) (bf : Option Bitfield) :
    (q.addPeerBitfield bf).Wf :=
  wf_signal (wf_foldl_shiftAvailability (by decide) h fun _ => mem_peerPieces)

theorem wf_removePeerBitfield {q : PieceQueue} (h : q.Wf) (bf : Option Bitfield) :
    (q.removePeerBitfield bf).Wf :=
  wf_foldl_shiftAvailability (by decide) h fun _ => mem_peerPieces

theorem peerHave_of_mem {q : PieceQueue} {index : Nat} (h : index ∈ q.pieces) :
    q.peerHave index = (shiftAvailability 1 q index).signal := by
  unfold peerHave
  simp only [if_pos h]
  rfl

theorem peerHave_of_notMem {q : PieceQueue} {index : Nat} (h : index ∉ q.pieces) :
    q.peerHave index = signal { q with
      availability := Function.update q.availability index (q.availability index + 1) } := by
  unfold peerHave
  simp only [if_neg h]

theorem wf_peerHave {q : PieceQueue} (h : q.Wf) (index : Nat) : (q.peerHave index).Wf := by
  by_cases hmem : index ∈ q.pieces
  · rw [peerHave_of_mem hmem]
    exact wf_signal (wf_shiftAvailability h hmem (by decide))
  · rw [peerHave_of_notMem hmem]
    refine wf_signal ⟨h.indexed, ?_, ?_, h.bucket_nonempty, h.done_disjoint, h.priority_sub⟩
    · intro i hi
      have hne : i ≠ index := fun heq => hmem (heq ▸ hi)
      show i ∈ q.bucket (Function.update q.availability index _ i)
      rw [Function.update_of_ne hne]
      exact h.bucketed i hi
    · intro a i hi
      obtain ⟨hi, heq⟩ := h.bucket_sub a i hi
      have hne : i ≠ index := fun heq => hmem (heq ▸ hi)
      show i ∈ q.pieces ∧ Function.update q.availability index _ i = a
      rw [Function.update_of_ne hne]
      exact ⟨hi, heq⟩

/-! ## What is drawn -/

theorem mem_firstLevel {q : PieceQueue} {hasPiece : Nat → Bool} {as : List Int} {i : Nat}
    (h : i ∈ q.firstLevel hasPiece as) :
    ∃ a ∈ as, i ∈ q.bucket a ∧ q.eligible hasPiece i = true := by
  induction as with
  | nil => exact absurd h (Finset.notMem_empty i)
  | cons a as ih =>
    unfold firstLevel at h
    split_ifs at h
    · obtain ⟨a', ha', hi⟩ := ih h
      exact ⟨a', List.mem_cons_of_mem _ ha', hi⟩
    · obtain ⟨hi, he⟩ := Finset.mem_filter.mp h
      exact ⟨a, List.mem_cons_self, hi, he⟩

theorem firstLevel_ne_empty {q : PieceQueue} {hasPiece : Nat → Bool} {as : List Int} {a : Int}
    {i : Nat} (ha : a ∈ as) (hi : i ∈ q.bucket a) (he : q.eligible hasPiece i = true) :
    q.firstLevel hasPiece as ≠ ∅ := by
  induction as with
  | nil => exact absurd ha List.not_mem_nil
  | cons b as ih =>
    unfold firstLevel
    split_ifs with hempty
    · rcases List.mem_cons.mp ha with hab | ha
      · subst hab
        have hmem : i ∈ (q.bucket a).filter fun i => q.eligible hasPiece i :=
          Finset.mem_filter.mpr ⟨hi, he⟩
        rw [hempty] at hmem
        exact absurd hmem (Finset.notMem_empty i)
      · exact ih ha
    · exact hempty

/-- What can be drawn is a queued piece that passed the tests. -/
theorem mem_candidates {q : PieceQueue} (h : q.Wf) {hasPiece : Nat → Bool} {i : Nat}
    (hi : i ∈ q.candidates hasPiece) : i ∈ q.pieces ∧ q.eligible hasPiece i = true := by
  unfold candidates at hi
  split_ifs at hi
  · have hfind := Option.mem_toFinset.mp hi
    refine ⟨?_, List.find?_some hfind⟩
    rw [AList.mem_keys]
    exact (List.mem_insertionSort _).mp (List.mem_of_find?_eq_some hfind)
  · obtain ⟨hi, he⟩ := Finset.mem_filter.mp hi
    exact ⟨h.priority_sub i hi, he⟩
  · obtain ⟨a, -, hi, he⟩ := mem_firstLevel hi
    exact ⟨(h.bucket_sub a i hi).1, he⟩

/-- As long as a queued piece passes the tests there is something to draw. -/
theorem candidates_ne_empty {q : PieceQueue} (h : q.Wf) {hasPiece : Nat → Bool} {i : Nat}
    (hi : i ∈ q.pieces) (he : q.eligible hasPiece i = true) : q.candidates hasPiece ≠ ∅ := by
  unfold candidates
  split_ifs with hseq hprio
  · have hsome : ((q.pieces.keys.insertionSort (· ≤ ·)).find? (q.eligible hasPiece)).isSome := by
      rw [List.find?_isSome]
      exact ⟨i, (List.mem_insertionSort _).mpr (AList.mem_keys.mp hi), he⟩
    obtain ⟨j, hj⟩ := Option.isSome_iff_exists.mp hsome
    rw [hj]
    exact Finset.singleton_ne_empty j
  · exact hprio
  · have hb := h.bucketed i hi
    have hkey : q.availability i ∈ q.buckets := by
      rw [← AList.lookup_isSome]
      cases hlook : q.buckets.lookup (q.availability i) with
      | none =>
        unfold bucket at hb
        rw [hlook] at hb
        exact absurd hb (Finset.notMem_empty i)
      | some s => rfl
    exact firstLevel_ne_empty ((List.mem_insertionSort _).mpr (AList.mem_keys.mp hkey)) hb he

theorem pieceAt_index {q : PieceQueue} (h : q.Wf) {i : Nat} (hi : i ∈ q.pieces) :
    (q.pieceAt i).index = i ∧ q.pieces.lookup i = some (q.pieceAt i) := by
  unfold pieceAt
  cases hlook : q.pieces.lookup i with
  | none => exact absurd (AList.lookup_eq_none.mp hlook) (not_not.mpr hi)
  | some pw => exact ⟨h.indexed i pw hlook, rfl⟩

end PieceQueue

end Stor.Download
