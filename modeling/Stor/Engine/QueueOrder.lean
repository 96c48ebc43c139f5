import Stor.Engine.Calls
import Stor.Lib.Ranking

/-!
# The order of the queue

The queue positions that the records hold are those of one list of torrents: every call
of `Stor.Engine.Calls` does to the records what a plain operation does to that list
(`queued_step`).  The list is what the queue is for, and the sessions of the engine refine
it: `Queued m q` says that the torrents of `m` stand at the positions they have in `q`.
-/

namespace Stor.Engine
namespace Calls

open Lib Torrent Storage

def Sessions.empty : Sessions where
  list := []
  nodup := List.nodup_nil

def Answer.after (m : Sessions) : Answer → Sessions
  | .changed m' => m'
  | _ => m

/-- A call from beginning to end, under the engine's lock. -/
def step (env : Env) (m : Sessions) (c : Call) : Option Sessions :=
  (c.answer env m).map (Answer.after m)

/-- The torrents of the queue from the first to the last. -/
structure Queued (m : Sessions) (q : List Bytes) : Prop where
  perm : q.Perm m.ids
  position : ∀ s ∈ m.list, s.position.toInt = q.idxOf s.id
  length_le : q.length ≤ Control.maxSessions

/-- What the calls do to the queue. -/
def queueAfter (env : Env) (q : List Bytes) : Call → List Bytes
  | .addTorrent disk source _ =>
    match Entry.infoHashOf env disk source with
    | none => q
    | some infoHash =>
      if q.contains (hexEncode infoHash) ∨ q.length ≥ Control.maxSessions then q
      else q ++ [hexEncode infoHash]
  | .removeTorrent id _ => q.erase id
  | .queueTop id => toFront id q
  | .queueBottom id => toBack id q
  | .queueUp id _ _ => raise id q
  | .queueDown id _ _ => lower id q
  | .pauseTorrent _ | .resumeTorrent _ | .setFilePriority _ _ _ => q

theorem toInt_add_one {a : Int64} (hlo : -1 ≤ a.toInt) (hhi : a.toInt ≤ 10000) :
    (a + 1).toInt = a.toInt + 1 := by
  have hone : (1 : Int64).toInt = 1 := rfl
  rw [Int64.toInt_add, hone, Int.bmod_eq_of_le]
  · omega
  · omega

theorem toInt_sub_one {a : Int64} (hlo : 0 ≤ a.toInt) (hhi : a.toInt ≤ 10000) :
    (a - 1).toInt = a.toInt - 1 := by
  have hone : (1 : Int64).toInt = 1 := rfl
  rw [Int64.toInt_sub, hone, Int.bmod_eq_of_le]
  · omega
  · omega

variable {env : Env} {m m' : Sessions} {q : List Bytes}

theorem queued_empty : Queued .empty [] where
  perm := List.Perm.refl _
  position := fun _ hs => absurd hs List.not_mem_nil
  length_le := Nat.zero_le _

namespace Queued

theorem nodup (h : Queued m q) : q.Nodup := h.perm.nodup_iff.mpr m.nodup

theorem mem_iff (h : Queued m q) {id : Bytes} : id ∈ q ↔ id ∈ m.ids := h.perm.mem_iff

theorem mem (h : Queued m q) {s : Session} (hs : s ∈ m.list) : s.id ∈ q :=
  h.mem_iff.mpr (List.mem_map_of_mem hs)

theorem length_eq (h : Queued m q) : q.length = m.list.length := by
  rw [h.perm.length_eq, Sessions.ids, List.length_map]

theorem position_lt (h : Queued m q) {s : Session} (hs : s ∈ m.list) :
    0 ≤ s.position.toInt ∧ s.position.toInt < q.length ∧ s.position.toInt < 10000 := by
  have hlt := List.idxOf_lt_length_of_mem (h.mem hs)
  have hle : q.length ≤ 10000 := h.length_le
  rw [h.position s hs]
  omega

theorem get? (h : Queued m q) {id : Bytes} (hid : id ∈ q) :
    ∃ s, m.get? id = some s ∧ s ∈ m.list ∧ s.id = id := by
  obtain ⟨s, hs, rfl⟩ := Sessions.mem_ids.mp (h.mem_iff.mp hid)
  exact ⟨s, Sessions.get?_of_mem hs, hs, rfl⟩

theorem get?_none (h : Queued m q) {id : Bytes} (hid : id ∉ q) : m.get? id = none := by
  cases hget : m.get? id with
  | none => rfl
  | some s =>
    obtain ⟨hs, rfl⟩ := Sessions.mem_of_get? hget
    exact absurd (h.mem hs) hid

/-- New positions give the order they are read from. -/
theorem setPositions (h : Queued m q) {q' : List Bytes} (hperm : q'.Perm q) {f : Session → Int64}
    (hf : ∀ s ∈ m.list, (f s).toInt = q'.idxOf s.id) : Queued (m.setPositions f) q' where
  perm := by
    rw [Sessions.ids_setPositions]
    exact hperm.trans h.perm
  position := by
    intro s hs
    obtain ⟨t, ht, rfl⟩ := Sessions.mem_setPositions.mp hs
    exact hf t ht
  length_le := by
    rw [hperm.length_eq]
    exact h.length_le

/-- What changes no position keeps the queue. -/
theorem modify (h : Queued m q) {id : Bytes} {f : Session → Session}
    (hf : ∀ s, s.id = id → (f s).id = id) (hpos : ∀ s, (f s).position = s.position) :
    Queued (m.modify id f hf) q where
  perm := by
    rw [Sessions.modify, Sessions.ids_map]
    exact h.perm
  position := by
    intro s hs
    obtain ⟨t, ht, rfl⟩ := Sessions.mem_map.mp hs
    by_cases hid : t.id = id
    · rw [if_pos hid, hpos, hf t hid, ← hid]
      exact h.position t ht
    · rw [if_neg hid]
      exact h.position t ht
  length_le := h.length_le

theorem positions_perm (h : Queued m q) :
    (m.list.map fun s => s.position.toInt).Perm ((List.range m.list.length).map Int.ofNat) := by
  have hpositions : m.list.map (fun s => s.position.toInt) =
      (m.ids.map q.idxOf).map Int.ofNat := by
    rw [Sessions.ids, List.map_map, List.map_map]
    exact List.map_congr_left fun s hs => h.position s hs
  have hranks : q.map q.idxOf = List.range q.length := by
    refine List.ext_getElem (by simp) fun i hi hi' => ?_
    rw [List.getElem_map, List.getElem_range, h.nodup.idxOf_getElem]
  rw [hpositions, ← h.length_eq, ← hranks]
  exact ((h.perm.map _).map _).symm

/-! ## The end of the queue -/

/-- `greatest` is the greatest of `acc` and the positions in `l`. -/
structure Greatest (l : List Session) (acc greatest : Int64) : Prop where
  acc_le : acc.toInt ≤ greatest.toInt
  position_le : ∀ s ∈ l, s.position.toInt ≤ greatest.toInt
  found : greatest = acc ∨ ∃ s ∈ l, greatest = s.position

theorem greatest_foldl (l : List Session) (acc : Int64) :
    Greatest l acc
      (l.foldl (fun maxPos s => if s.position > maxPos then s.position else maxPos) acc) := by
  induction l generalizing acc with
  | nil => exact ⟨Int.le_refl _, fun _ hs => absurd hs List.not_mem_nil, .inl rfl⟩
  | cons t l ih =>
    rw [List.foldl_cons]
    have hstep : acc.toInt ≤ (if t.position > acc then t.position else acc).toInt ∧
        t.position.toInt ≤ (if t.position > acc then t.position else acc).toInt := by
      split
      · rename_i hlt
        exact ⟨Int.le_of_lt (Int64.lt_iff_toInt_lt.mp hlt), Int.le_refl _⟩
      · rename_i hle
        exact ⟨Int.le_refl _, Int.not_lt.mp (mt Int64.lt_iff_toInt_lt.mpr hle)⟩
    have hrest := ih (if t.position > acc then t.position else acc)
    refine ⟨Int.le_trans hstep.1 hrest.acc_le, fun s hs => ?_, ?_⟩
    · rcases List.mem_cons.mp hs with rfl | hs
      · exact Int.le_trans hstep.2 hrest.acc_le
      · exact hrest.position_le s hs
    · rcases hrest.found with heq | ⟨s, hs, heq⟩
      · rw [heq]
        split
        · exact .inr ⟨t, List.mem_cons_self, rfl⟩
        · exact .inl rfl
      · exact .inr ⟨s, List.mem_cons_of_mem _ hs, heq⟩

theorem maxQueuePosition (h : Queued m q) : m.maxQueuePosition.toInt = q.length - 1 := by
  obtain ⟨hlo, hall, hfrom⟩ := greatest_foldl m.list (-1)
  have hone : (-1 : Int64).toInt = -1 := rfl
  rw [hone] at hlo
  have hup : m.maxQueuePosition.toInt ≤ q.length - 1 := by
    rcases hfrom with heq | ⟨s, hs, heq⟩
    · rw [Sessions.maxQueuePosition, heq, hone]
      omega
    · have := h.position_lt hs
      rw [Sessions.maxQueuePosition, heq]
      omega
  refine Int.le_antisymm hup ?_
  rcases List.eq_nil_or_concat' q with hnil | ⟨l, id, hq⟩
  · rw [hnil]
    exact hlo
  · -- the last torrent has the last position
    have hid : id ∈ q := by simp [hq]
    obtain ⟨s, -, hs, rfl⟩ := h.get? hid
    have hlast : q.idxOf s.id = l.length := by
      have hnodup := h.nodup
      rw [hq, List.nodup_append] at hnodup
      have hnew : s.id ∉ l := fun hmem => hnodup.2.2 _ hmem _ (List.mem_singleton_self _) rfl
      rw [hq, idxOf_append_cons hnew]
    have hpos := hall s hs
    rw [h.position s hs, hlast] at hpos
    have hlen : q.length = l.length + 1 := by rw [hq]; simp
    rw [hlen]
    exact le_trans (by omega) hpos

/-! ## The moves -/

theorem ne_idxOf (h : Queued m q) {s t : Session} (ht : t ∈ m.list) (hne : t.id ≠ s.id) :
    q.idxOf t.id ≠ q.idxOf s.id :=
  fun heq => hne ((List.idxOf_inj (h.mem ht)).mp heq)

theorem queueTop (h : Queued m q) (id : Bytes) :
    Queued ((m.queueTop id).after m) (toFront id q) := by
  unfold Sessions.queueTop Sessions.setQueuePosition
  by_cases hid : id ∈ q
  · obtain ⟨s, hget, hs, rfl⟩ := h.get? hid
    have hzero : (0 : Int64).toInt = 0 := rfl
    have hps := h.position s hs
    rw [toFront_of_mem hid, hget]
    dsimp only
    by_cases hfirst : s.position = 0
    · -- it is the first already
      rw [hfirst, hzero] at hps
      rw [if_pos hfirst, cons_erase_of_idxOf hid (by omega)]
      exact h
    · rw [if_neg hfirst]
      refine h.setPositions (List.perm_cons_erase hid).symm fun t ht => ?_
      have hpt := h.position t ht
      have hlt := h.position_lt ht
      by_cases hts : t.id = s.id
      · rw [if_pos hts, hts, List.idxOf_cons_self, hzero]
        rfl
      · have hrank := h.ne_idxOf ht hts
        rw [if_neg hts, List.idxOf_cons_ne _ (Ne.symm hts), idxOf_erase hid (Ne.symm hts)]
        simp only [Int64.lt_iff_toInt_lt, Int64.le_iff_toInt_le, ge_iff_le, hzero, hps, hpt]
        have hadd := toInt_add_one (a := t.position) (by omega) (by omega)
        split_ifs <;> omega
  · rw [toFront_of_notMem hid, h.get?_none hid]
    exact h

theorem queueBottom (h : Queued m q) (id : Bytes) :
    Queued ((m.queueBottom id).after m) (toBack id q) := by
  unfold Sessions.queueBottom
  by_cases hid : id ∈ q
  · obtain ⟨s, hget, hs, rfl⟩ := h.get? hid
    have hps := h.position s hs
    have hmax := h.maxQueuePosition
    have hlen := List.length_erase_of_mem hid
    have hne : s.id ∉ q.erase s.id := h.nodup.not_mem_erase
    rw [toBack_of_mem hid, hget]
    dsimp only
    by_cases hlast : s.position = m.maxQueuePosition
    · -- it is the last already
      rw [hlast, hmax] at hps
      rw [if_pos hlast, erase_append_of_idxOf hid (by omega)]
      exact h
    · rw [if_neg hlast]
      refine h.setPositions ?_ fun t ht => ?_
      · exact (List.perm_append_singleton _ _).trans (List.perm_cons_erase hid).symm
      have hpt := h.position t ht
      have hlt := h.position_lt ht
      by_cases hts : t.id = s.id
      · rw [if_pos hts, hts, idxOf_append_cons hne, hmax, hlen]
        have := List.length_pos_of_mem hid
        omega
      · have hmem : t.id ∈ q.erase s.id := (List.mem_erase_of_ne hts).mpr (h.mem ht)
        have hrank := h.ne_idxOf ht hts
        rw [if_neg hts, List.idxOf_append_of_mem hmem, idxOf_erase hid (Ne.symm hts)]
        simp only [Int64.lt_iff_toInt_lt, Int64.le_iff_toInt_le, gt_iff_lt, hps, hpt, hmax]
        have hsub := toInt_sub_one (a := t.position) (by omega) (by omega)
        split_ifs <;> omega
  · rw [toBack_of_notMem hid, h.get?_none hid]
    exact h

/-- The torrent that is found at a position is the one of that rank. -/
theorem foundAt (h : Queued m q) {pos : Int64} {a : Option Bytes} (ha : m.foundAt pos a = true)
    {s : Session} (hs : s ∈ m.list) : some s.id = a ↔ s.position = pos := by
  cases a with
  | none =>
    have hnone := of_decide_eq_true (List.all_eq_true.mp ha s hs)
    simp [hnone]
  | some id =>
    obtain ⟨t, hget, hpos⟩ := (Option.any_eq_true _ _).mp ha
    obtain ⟨ht, rfl⟩ := Sessions.mem_of_get? hget
    have hpos := of_decide_eq_true hpos
    rw [Option.some_inj]
    constructor
    · intro heq
      rw [Sessions.eq_of_id hs ht heq, hpos]
    · intro heq
      have hrank : q.idxOf s.id = q.idxOf t.id := by
        have hps := h.position s hs
        rw [heq, ← hpos, h.position t ht] at hps
        omega
      exact (List.idxOf_inj (h.mem hs)).mp hrank

/-- Two positions are swapped. -/
theorem swapQueuePositions (h : Queued m q) {q' : List Bytes} (hperm : q'.Perm q)
    {posA posB : Int64} {a b : Option Bytes} {answer : Answer}
    (hanswer : m.swapQueuePositions posA posB a b = some answer)
    (hq' : ∀ s ∈ m.list, q'.idxOf s.id = if s.position = posB then posA.toInt
      else if s.position = posA then posB.toInt else s.position.toInt) :
    Queued (answer.after m) q' := by
  unfold Sessions.swapQueuePositions at hanswer
  rw [Option.ite_none_right_eq_some] at hanswer
  obtain ⟨⟨ha, hb⟩, hanswer⟩ := hanswer
  rw [← Option.some.inj hanswer]
  refine h.setPositions hperm fun s hs => ?_
  rw [hq' s hs]
  simp only [h.foundAt ha hs, h.foundAt hb hs]
  split_ifs <;> rfl

theorem queueUp (h : Queued m q) {id : Bytes} {a b : Option Bytes} {answer : Answer}
    (hanswer : m.queueUp id a b = some answer) : Queued (answer.after m) (raise id q) := by
  unfold Sessions.queueUp at hanswer
  by_cases hid : id ∈ q
  · obtain ⟨s, hget, hs, rfl⟩ := h.get? hid
    have hzero : (0 : Int64).toInt = 0 := rfl
    have hps := h.position s hs
    rw [hget] at hanswer
    dsimp only at hanswer
    split_ifs at hanswer with hfirst
    · rw [Int64.le_iff_toInt_le, hzero, hps] at hfirst
      rw [← Option.some.inj hanswer, raise_of_idxOf (by omega)]
      exact h
    · rw [Int64.le_iff_toInt_le, hzero, hps] at hfirst
      have hlt := h.position_lt hs
      have hsub := toInt_sub_one (a := s.position) (by omega) (by omega)
      refine h.swapQueuePositions (raise_perm _ _) hanswer fun t ht => ?_
      have hpt := h.position t ht
      rw [idxOf_raise h.nodup hid (by omega)]
      simp only [← Int64.toInt_inj, hsub, hps, hpt]
      by_cases hts : t.id = s.id
      · rw [if_pos hts, hts, if_neg (by omega), if_pos rfl]
        omega
      · have hrank := h.ne_idxOf ht hts
        rw [if_neg hts]
        split_ifs <;> omega
  · rw [h.get?_none hid] at hanswer
    rw [← Option.some.inj hanswer, raise_of_notMem hid]
    exact h

theorem queueDown (h : Queued m q) {id : Bytes} {a b : Option Bytes} {answer : Answer}
    (hanswer : m.queueDown id a b = some answer) : Queued (answer.after m) (lower id q) := by
  unfold Sessions.queueDown at hanswer
  by_cases hid : id ∈ q
  · obtain ⟨s, hget, hs, rfl⟩ := h.get? hid
    have hmax := h.maxQueuePosition
    have hps := h.position s hs
    rw [hget] at hanswer
    dsimp only at hanswer
    split_ifs at hanswer with hlast
    · rw [ge_iff_le, Int64.le_iff_toInt_le, hmax, hps] at hlast
      rw [← Option.some.inj hanswer, lower_of_idxOf hid (by omega)]
      exact h
    · rw [ge_iff_le, Int64.le_iff_toInt_le, hmax, hps] at hlast
      have hlt := h.position_lt hs
      have hadd := toInt_add_one (a := s.position) (by omega) (by omega)
      refine h.swapQueuePositions (lower_perm _ _) hanswer fun t ht => ?_
      have hpt := h.position t ht
      rw [idxOf_lower h.nodup hid (by omega)]
      simp only [← Int64.toInt_inj, hadd, hps, hpt]
      by_cases hts : t.id = s.id
      · rw [if_pos hts, hts, if_neg (by omega), if_pos rfl]
        omega
      · have hrank := h.ne_idxOf ht hts
        rw [if_neg hts]
        split_ifs <;> omega
  · rw [h.get?_none hid] at hanswer
    rw [← Option.some.inj hanswer, lower_of_notMem hid]
    exact h

/-! ## The torrents that come and go -/

theorem insert (h : Queued m q) {s : Session} (hs : s.id ∉ m.ids)
    (hpos : s.position = m.nextQueuePosition) (hlen : q.length < Control.maxSessions) :
    Queued (m.insert s hs) (q ++ [s.id]) where
  perm := by
    show (q ++ [s.id]).Perm ((m.list ++ [s]).map Session.id)
    rw [List.map_append]
    exact h.perm.append_right _
  position := by
    intro t ht
    rcases List.mem_append.mp ht with ht | ht
    · rw [h.position t ht, List.idxOf_append_of_mem (h.mem ht)]
    · have hmax := h.maxQueuePosition
      have hle : q.length < 10000 := hlen
      rw [List.mem_singleton.mp ht, hpos, Sessions.nextQueuePosition,
        toInt_add_one (by omega) (by omega), idxOf_append_cons (mt h.mem_iff.mp hs)]
      omega
  length_le := by
    rw [List.length_append, List.length_singleton]
    exact hlen

theorem addTorrent (h : Queued m q) (disk : Files) (source : Bytes) (addedAt : Int64) :
    Queued ((m.addTorrent env disk source addedAt).after m)
      (queueAfter env q (.addTorrent disk source addedAt)) := by
  rw [Sessions.addTorrent, queueAfter]
  cases Entry.infoHashOf env disk source with
  | none => exact h
  | some infoHash =>
    have hlen := h.length_eq
    dsimp only
    generalize hrecord : Sessions.newRecord env disk (hexEncode infoHash) source
      m.nextQueuePosition addedAt = record
    have hid : record.id = hexEncode infoHash := by rw [← hrecord]; rfl
    have hpos : record.queuePosition = m.nextQueuePosition := by rw [← hrecord]; rfl
    rw [← hid]
    by_cases hold : record.id ∈ m.ids
    · rw [dif_pos hold, if_pos (.inl (List.contains_iff_mem.mpr (h.mem_iff.mpr hold)))]
      exact h
    by_cases hfull : m.list.length ≥ Control.maxSessions
    · rw [dif_neg hold, if_pos hfull, if_pos (.inr (by rwa [hlen]))]
      exact h
    have hnew : ¬(q.contains record.id ∨ q.length ≥ Control.maxSessions) := by
      rw [List.contains_iff_mem, h.mem_iff, hlen]
      exact not_or.mpr ⟨hold, hfull⟩
    rw [dif_neg hold, if_neg hfull, if_neg hnew]
    exact h.insert (s := .new record) hold hpos (Nat.lt_of_not_le fun hle => hnew (.inr hle))

theorem ids_delete (h : Queued m q) (id : Bytes) : (q.erase id).Perm (m.delete id).ids := by
  refine (List.perm_ext_iff_of_nodup (h.nodup.erase id) (m.delete id).nodup).mpr fun id' => ?_
  show _ ↔ id' ∈ (m.delete id).ids
  rw [h.nodup.mem_erase_iff, Sessions.mem_ids_delete, h.mem_iff, and_comm]

theorem positionOf (h : Queued m q) {id id' : Bytes} (hid' : id' ∈ (m.delete id).ids) :
    ((m.delete id).positionOf id').toInt = q.idxOf id' := by
  obtain ⟨s, hs, rfl⟩ := Sessions.mem_ids.mp hid'
  rw [Sessions.positionOf, Sessions.get?_of_mem hs]
  exact h.position s (List.mem_filter.mp hs).1

/-- The torrents that are left are sorted as they were. -/
theorem isSorted_iff (h : Queued m q) {id : Bytes} {order : List Bytes} :
    (m.delete id).isSorted order = true ↔ order = q.erase id := by
  have hleft := h.ids_delete id
  have hsorted : (q.erase id).Pairwise fun a b =>
      (m.delete id).positionOf a ≤ (m.delete id).positionOf b := by
    refine List.Pairwise.imp_of_mem (fun {a b} ha hb hlt => ?_)
      ((pairwise_idxOf h.nodup).sublist List.erase_sublist)
    rw [Int64.le_iff_toInt_le, h.positionOf (hleft.mem_iff.mp ha),
      h.positionOf (hleft.mem_iff.mp hb)]
    omega
  rw [Sessions.isSorted, Bool.and_eq_true, List.isPerm_iff, decide_eq_true_iff]
  constructor
  · rintro ⟨hperm, horder⟩
    refine List.Perm.eq_of_pairwise (fun a b ha hb hab hba => ?_) horder hsorted
      (hperm.trans hleft.symm)
    have hmem := List.mem_of_mem_erase (hleft.mem_iff.mpr (hperm.mem_iff.mp ha))
    rw [Int64.le_iff_toInt_le, h.positionOf (hperm.mem_iff.mp ha),
      h.positionOf (hleft.mem_iff.mp hb)] at hab hba
    exact (List.idxOf_inj hmem).mp (by omega)
  · rintro rfl
    exact ⟨hleft, hsorted⟩

theorem removeTorrent (h : Queued m q) {id : Bytes} {order : List Bytes} {answer : Answer}
    (hanswer : m.removeTorrent id order = some answer) :
    Queued (answer.after m) (q.erase id) := by
  unfold Sessions.removeTorrent at hanswer
  split_ifs at hanswer with hid hsorted
  · have horder := h.isSorted_iff.mp hsorted
    rw [← Option.some.inj hanswer, horder]
    have hlen : (q.erase id).length ≤ 10000 := List.length_erase_le.trans h.length_le
    refine ⟨?_, ?_, hlen⟩
    · show (q.erase id).Perm ((m.delete id).setPositions _).ids
      rw [Sessions.ids_setPositions]
      exact h.ids_delete id
    · intro s hs
      obtain ⟨t, ht, rfl⟩ := Sessions.mem_setPositions.mp hs
      have hmem : t.id ∈ q.erase id := (h.ids_delete id).mem_iff.mpr (List.mem_map_of_mem ht)
      have hlt := List.idxOf_lt_length_of_mem hmem
      exact Int64.toInt_ofNat_of_lt (by omega)
  · rw [← Option.some.inj hanswer, List.erase_of_not_mem (mt h.mem_iff.mp hid)]
    exact h

theorem pauseTorrent (h : Queued m q) (id : Bytes) : Queued ((m.pauseTorrent id).after m) q := by
  unfold Sessions.pauseTorrent
  cases m.get? id with
  | none => exact h
  | some _ =>
    refine h.modify (fun s hid => s.id_pause.trans hid) fun s => ?_
    unfold Session.pause
    split <;> rfl

theorem resumeTorrent (h : Queued m q) (id : Bytes) : Queued ((m.resumeTorrent id).after m) q := by
  unfold Sessions.resumeTorrent
  cases m.get? id with
  | none => exact h
  | some s =>
    dsimp only
    split
    · exact h
    · exact h.modify (f := Session.resume) (fun _ hid => hid) fun _ => rfl

theorem setFilePriority (h : Queued m q) (id : Bytes) (fileIndex : Int) (priority : Int8) :
    Queued ((m.setFilePriority env id fileIndex priority).after m) q := by
  unfold Sessions.setFilePriority
  split
  · exact h
  split
  · exact h
  cases m.get? id with
  | none => exact h
  | some s =>
    dsimp only
    cases s.torrentFile env with
    | none => exact h
    | some tf =>
      dsimp only
      generalize (if tf.info.files.length = 0 then 1 else tf.info.files.length) = fileCount
      split
      · exact h
      · exact h.modify (f := fun s => s.setPriority fileCount fileIndex.toNat priority)
          (fun _ hid => hid) fun _ => rfl

end Queued

/-- Every call does to the records what it does to the list of torrents. -/
theorem queued_step (h : Queued m q) {c : Call} (hstep : step env m c = some m') :
    Queued m' (queueAfter env q c) := by
  obtain ⟨answer, hanswer, rfl⟩ := Option.map_eq_some_iff.mp hstep
  cases c with
  | addTorrent disk source addedAt =>
    rw [← Option.some.inj hanswer]
    exact h.addTorrent disk source addedAt
  | removeTorrent id order => exact h.removeTorrent hanswer
  | pauseTorrent id =>
    rw [← Option.some.inj hanswer]
    exact h.pauseTorrent id
  | resumeTorrent id =>
    rw [← Option.some.inj hanswer]
    exact h.resumeTorrent id
  | setFilePriority id fileIndex priority =>
    rw [← Option.some.inj hanswer]
    exact h.setFilePriority id fileIndex priority
  | queueTop id =>
    rw [← Option.some.inj hanswer]
    exact h.queueTop id
  | queueUp id a b => exact h.queueUp hanswer
  | queueDown id a b => exact h.queueDown hanswer
  | queueBottom id =>
    rw [← Option.some.inj hanswer]
    exact h.queueBottom id

/-! ## What the calls mean -/

/-- What a call is for, of the torrents before and after it in the order of the queue. -/
def Means (q q' : List Bytes) : Call → Prop
  | .addTorrent _ _ _ => q' = q ∨ ∃ id ∉ q, q' = q ++ [id]
  | .removeTorrent id _ => q' = q.erase id
  | .queueTop id => id ∈ q ∧ q' = id :: q.erase id ∨ id ∉ q ∧ q' = q
  | .queueBottom id => id ∈ q ∧ q' = q.erase id ++ [id] ∨ id ∉ q ∧ q' = q
  | .queueUp id _ _ =>
    (∃ l p r, q = l ++ p :: id :: r ∧ q' = l ++ id :: p :: r) ∨
      (q.head? = some id ∨ id ∉ q) ∧ q' = q
  | .queueDown id _ _ =>
    (∃ l p r, q = l ++ id :: p :: r ∧ q' = l ++ p :: id :: r) ∨
      (q.getLast? = some id ∨ id ∉ q) ∧ q' = q
  | .pauseTorrent _ | .resumeTorrent _ | .setFilePriority _ _ _ => q' = q

/-- The torrent that a call takes out or moves. -/
def Call.moves? : Call → Option Bytes
  | .removeTorrent id _ | .queueTop id | .queueBottom id => some id
  | .queueUp id _ _ | .queueDown id _ _ => some id
  | _ => none

theorem means_queueAfter (hq : q.Nodup) (c : Call) : Means q (queueAfter env q c) c := by
  cases c with
  | addTorrent disk source addedAt =>
    rw [queueAfter]
    cases Entry.infoHashOf env disk source with
    | none => exact .inl rfl
    | some infoHash =>
      dsimp only
      split_ifs with hold
      · exact .inl rfl
      · refine .inr ⟨_, ?_, rfl⟩
        exact fun hmem => hold (.inl (List.contains_iff_mem.mpr hmem))
  | removeTorrent id order => rfl
  | pauseTorrent id => rfl
  | resumeTorrent id => rfl
  | setFilePriority id fileIndex priority => rfl
  | queueTop id =>
    by_cases hid : id ∈ q
    · exact .inl ⟨hid, toFront_of_mem hid⟩
    · exact .inr ⟨hid, toFront_of_notMem hid⟩
  | queueUp id a b => exact raise_eq hq id
  | queueDown id a b => exact lower_eq hq id
  | queueBottom id =>
    by_cases hid : id ∈ q
    · exact .inl ⟨hid, toBack_of_mem hid⟩
    · exact .inr ⟨hid, toBack_of_notMem hid⟩

/-- The other torrents keep their order. -/
theorem erase_queueAfter (hq : q.Nodup) {c : Call} {id : Bytes} (hid : c.moves? = some id) :
    (queueAfter env q c).erase id = q.erase id := by
  cases c with
  | addTorrent disk source addedAt => exact absurd hid (Option.some_ne_none id).symm
  | removeTorrent id' order =>
    rw [← Option.some.inj hid, queueAfter, List.erase_of_not_mem hq.not_mem_erase]
  | pauseTorrent id' => exact absurd hid (Option.some_ne_none id).symm
  | resumeTorrent id' => exact absurd hid (Option.some_ne_none id).symm
  | setFilePriority id' fileIndex priority => exact absurd hid (Option.some_ne_none id).symm
  | queueTop id' =>
    rw [← Option.some.inj hid, queueAfter]
    by_cases hmem : id' ∈ q
    · rw [toFront_of_mem hmem, List.erase_cons_head]
    · rw [toFront_of_notMem hmem]
  | queueUp id' a b =>
    rw [← Option.some.inj hid]
    exact erase_raise id' q
  | queueDown id' a b =>
    rw [← Option.some.inj hid]
    exact erase_lower id' q
  | queueBottom id' =>
    rw [← Option.some.inj hid, queueAfter]
    by_cases hmem : id' ∈ q
    · rw [toBack_of_mem hmem, List.erase_append_right _ hq.not_mem_erase, List.erase_cons_head,
        List.append_nil]
    · rw [toBack_of_notMem hmem]

/-! ## The calls return -/

theorem exists_foundAt (m : Sessions) (pos : Int64) : ∃ a, m.foundAt pos a = true := by
  by_cases hpos : ∃ s ∈ m.list, s.position = pos
  · obtain ⟨s, hs, hpos⟩ := hpos
    refine ⟨some s.id, ?_⟩
    rw [Sessions.foundAt, Sessions.get?_of_mem hs, Option.any_some, decide_eq_true_iff]
    exact hpos
  · refine ⟨none, List.all_eq_true.mpr fun s hs => decide_eq_true ?_⟩
    exact fun heq => hpos ⟨s, hs, heq⟩

theorem exists_swapQueuePositions (m : Sessions) (posA posB : Int64) :
    ∃ a b, (m.swapQueuePositions posA posB a b).isSome := by
  obtain ⟨a, ha⟩ := exists_foundAt m posA
  obtain ⟨b, hb⟩ := exists_foundAt m posB
  refine ⟨a, b, ?_⟩
  rw [Sessions.swapQueuePositions, if_pos ⟨ha, hb⟩]
  rfl

/-- Whatever the order of the map is, the calls that depend on it return. -/
structure Returns (m : Sessions) (id : Bytes) : Prop where
  removeTorrent : ∃ order, (m.removeTorrent id order).isSome
  queueUp : ∃ a b, (m.queueUp id a b).isSome
  queueDown : ∃ a b, (m.queueDown id a b).isSome

theorem Queued.returns (h : Queued m q) (id : Bytes) : Returns m id where
  removeTorrent := by
    refine ⟨q.erase id, ?_⟩
    rw [Sessions.removeTorrent, if_pos (h.isSorted_iff.mpr rfl)]
    split_ifs <;> rfl
  queueUp := by
    unfold Sessions.queueUp
    cases m.get? id with
    | none => exact ⟨none, none, rfl⟩
    | some s =>
      dsimp only
      split_ifs
      · exact ⟨none, none, rfl⟩
      · exact exists_swapQueuePositions m _ _
  queueDown := by
    unfold Sessions.queueDown
    cases m.get? id with
    | none => exact ⟨none, none, rfl⟩
    | some s =>
      dsimp only
      split_ifs
      · exact ⟨none, none, rfl⟩
      · exact exists_swapQueuePositions m _ _

theorem exists_queued {cs : List Call} (hrun : exec (step env) .empty cs = some m) :
    ∃ q, Queued m q := by
  have hkeep : ∀ m c m', (∃ q, Queued m q) → True → step env m c = some m' →
      ∃ q, Queued m' q := by
    rintro m c m' ⟨q, hq⟩ - hstep
    exact ⟨_, queued_step hq hstep⟩
  exact exec_invariant hkeep ⟨[], queued_empty⟩ (guarded_of_forall (fun _ _ => trivial) _ _) hrun

/-- After any calls on an empty engine the positions are those of one list of torrents, and
the next call does to that list what it is for. -/
theorem queue_order {cs : List Call} (hrun : exec (step env) .empty cs = some m) :
    ∃ q, Queued m q ∧
      (m.list.map fun s => s.position.toInt).Perm ((List.range m.list.length).map Int.ofNat) ∧
      (∀ c m', step env m c = some m' → ∃ q', Queued m' q' ∧ Means q q' c ∧
        ∀ id, c.moves? = some id → q'.erase id = q.erase id) ∧
      ∀ id, Returns m id := by
  obtain ⟨q, hq⟩ := exists_queued hrun
  refine ⟨q, hq, hq.positions_perm, fun c m' hstep => ?_, hq.returns⟩
  exact ⟨queueAfter env q c, queued_step hq hstep, means_queueAfter hq.nodup c,
    fun id => erase_queueAfter hq.nodup⟩

/-- The torrent whose info hash is written with forty times the digit `d`. -/
def idOf (d : UInt8) : Bytes := List.replicate 40 d

/-- Two torrents are added, and the second one is moved to the front. -/
def addTwo : List Call :=
  [.addTorrent (fun _ => none) (ascii "magnet:?xt=urn:btih:" ++ idOf 0x31) 7,
   .addTorrent (fun _ => none) (ascii "magnet:?xt=urn:btih:" ++ idOf 0x32) 8,
   .queueTop (idOf 0x32)]

theorem queue_order_addTwo :
    ∃ m, exec (step Session.plainEnv) .empty addTwo = some m ∧
      m.list.map (fun s => (s.id, s.position)) = [(idOf 0x31, 1), (idOf 0x32, 0)] ∧
      ∃ q, Queued m q ∧ ∀ c m', step Session.plainEnv m c = some m' →
        ∃ q', Queued m' q' ∧ Means q q' c := by
  obtain ⟨m, hm, hlist⟩ : ∃ m, exec (step Session.plainEnv) .empty addTwo = some m ∧
      m.list.map (fun s => (s.id, s.position)) = [(idOf 0x31, 1), (idOf 0x32, 0)] := by
    decide +kernel
  obtain ⟨q, hq, -, hcalls, -⟩ := queue_order hm
  refine ⟨m, hm, hlist, q, hq, fun c m' hstep => ?_⟩
  obtain ⟨q', hq', hmeans, -⟩ := hcalls c m' hstep
  exact ⟨q', hq', hmeans⟩

end Calls
end Stor.Engine
