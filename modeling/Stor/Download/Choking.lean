import Mathlib
import Stor.Lib.Ranking
import Stor.Lib.Run

/-!
# Choking

`download/peermgr.go`, with `SendChoke`, `SendUnchoke` and `IsChoking` of a client
(`download/download.go`).  Clients are values of any type, told apart by equality, and speeds
are values of any linear order.  What `sort.Slice` makes of the peers is any list of them in
the order of their speeds.  A client whose write fails keeps the state that it has; `sent` says
for which clients it does not fail.

The manager is a state machine whose steps are its calls.  Behind a `rechoke` whose writes
succeed, a peer is unchoked exactly if it is in front of the ranking or has the optimistic slot
(`choking_rechoke`).
-/

namespace Stor.Download
namespace Choking

open Lib

def defaultUnchokeSlots : Nat := 8

structure PeerManager (α : Type*) where
  unchokeSlots : Nat
  peers : List α
  optimisticPeer : Option α
  /-- The field `choking` of every client. -/
  choking : α → Bool
  /-- `optimisticIdx` of `Run`. -/
  optimisticIdx : Nat

section
variable {α S : Type*} [DecidableEq α]

def newPeerManager (unchokeSlots : Int) (choking : α → Bool) : PeerManager α where
  unchokeSlots := if unchokeSlots ≤ 0 then defaultUnchokeSlots else unchokeSlots.toNat
  peers := []
  optimisticPeer := none
  choking := choking
  optimisticIdx := 0

def sendChoke (sent choking : α → Bool) (c : α) : α → Bool :=
  if choking c then choking else if sent c then Function.update choking c true else choking

def sendUnchoke (sent choking : α → Bool) (c : α) : α → Bool :=
  if !choking c then choking else if sent c then Function.update choking c false else choking

namespace PeerManager

def register (pm : PeerManager α) (c : α) : PeerManager α := { pm with peers := pm.peers ++ [c] }

def unregister (pm : PeerManager α) (c : α) : PeerManager α :=
  if c ∈ pm.peers then
    { pm with
      peers := pm.peers.erase c
      optimisticPeer := if pm.optimisticPeer = some c then none else pm.optimisticPeer }
  else pm

/-- The loop of `rechoke` from rank `i` on. -/
def rechokeLoop (sent : α → Bool) (slots : Nat) (optimistic : Option α) :
    Nat → List α → (α → Bool) → α → Bool
  | _, [], choking => choking
  | i, c :: ranked, choking =>
    rechokeLoop sent slots optimistic (i + 1) ranked
      (if i < slots ∨ optimistic = some c then sendUnchoke sent choking c
      else sendChoke sent choking c)

def rechoke (pm : PeerManager α) (ranked : List α) (sent : α → Bool) : PeerManager α :=
  if pm.peers = [] then pm
  else
    { pm with choking := rechokeLoop sent pm.unchokeSlots pm.optimisticPeer 0 ranked pm.choking }

/-- The first choked peer from `startIdx` on, round the list. -/
def nextChoked (pm : PeerManager α) (startIdx : Nat) : Option (Nat × α) :=
  (List.range pm.peers.length).findSome? fun i =>
    let idx := (startIdx + i) % pm.peers.length
    (pm.peers[idx]?).bind fun c => if pm.choking c then some (idx, c) else none

def rotateOptimistic (pm : PeerManager α) (sent : α → Bool) : PeerManager α :=
  if pm.peers = [] then { pm with optimisticIdx := 0 }
  else
    match pm.nextChoked pm.optimisticIdx with
    | none => pm
    | some (idx, c) =>
      { pm with
        optimisticPeer := some c
        choking := sendUnchoke sent pm.choking c
        optimisticIdx := (idx + 1) % pm.peers.length }

end PeerManager

inductive Action (α S : Type*) where
  | register (c : α)
  | unregister (c : α)
  | rechoke (speed : α → S) (ranked : List α) (sent : α → Bool)
  | rotateOptimistic (sent : α → Bool)

/-- The list can come out of the sort. -/
def IsRanking [LE S] (speed : α → S) (peers ranked : List α) : Prop :=
  ranked.Perm peers ∧ ranked.Pairwise fun a b => speed b ≤ speed a

instance [LinearOrder S] (speed : α → S) (peers ranked : List α) :
    Decidable (IsRanking speed peers ranked) := inferInstanceAs (Decidable (_ ∧ _))

def step [LinearOrder S] (pm : PeerManager α) : Action α S → Option (PeerManager α)
  | .register c => some (pm.register c)
  | .unregister c => some (pm.unregister c)
  | .rechoke speed ranked sent =>
    if IsRanking speed pm.peers ranked then some (pm.rechoke ranked sent) else none
  | .rotateOptimistic sent => some (pm.rotateOptimistic sent)

/-- No client is registered that is registered already. -/
def RegisteredOnce (pm : PeerManager α) : Action α S → Prop
  | .register c => c ∉ pm.peers
  | _ => True

instance (pm : PeerManager α) : (a : Action α S) → Decidable (RegisteredOnce pm a)
  | .register _ => inferInstanceAs (Decidable (_ ∉ _))
  | .unregister _ | .rechoke _ _ _ | .rotateOptimistic _ => isTrue trivial

/-! ## One client -/

variable {sent choking : α → Bool} {c : α}

theorem sendUnchoke_eq (h : sent c = true) :
    sendUnchoke sent choking c = Function.update choking c false := by
  unfold sendUnchoke
  rw [if_pos h]
  cases hchoking : choking c with
  | true => rfl
  | false => exact (Function.update_eq_self_iff.mpr hchoking.symm).symm

theorem sendChoke_eq (h : sent c = true) :
    sendChoke sent choking c = Function.update choking c true := by
  unfold sendChoke
  rw [if_pos h]
  cases hchoking : choking c with
  | true => exact (Function.update_eq_self_iff.mpr hchoking.symm).symm
  | false => rfl

/-! ## A round of choking -/

namespace PeerManager

/-- With every write done, the loop chokes a client exactly if it is ranked behind the slots and
does not have the optimistic slot; it leaves the others as they are. -/
theorem rechokeLoop_eq {slots i : Nat} {optimistic : Option α} {ranked : List α}
    (hnodup : ranked.Nodup) (hsent : ∀ c ∈ ranked, sent c = true) (c : α) :
    rechokeLoop sent slots optimistic i ranked choking c =
      if c ∈ ranked then !decide (i + ranked.idxOf c < slots ∨ optimistic = some c)
      else choking c := by
  induction ranked generalizing i choking with
  | nil => rw [rechokeLoop, if_neg List.not_mem_nil]
  | cons b ranked ih =>
    obtain ⟨hb, hnodup⟩ := List.nodup_cons.mp hnodup
    obtain ⟨hsentb, hsent⟩ := List.forall_mem_cons.mp hsent
    rw [rechokeLoop, ih hnodup hsent]
    by_cases hcb : c = b
    · rw [hcb, if_neg hb, if_pos List.mem_cons_self, List.idxOf_cons_self, Nat.add_zero]
      by_cases hslot : i < slots ∨ optimistic = some b
      · rw [if_pos hslot, sendUnchoke_eq hsentb, Function.update_self, decide_eq_true hslot]
        rfl
      · rw [if_neg hslot, sendChoke_eq hsentb, Function.update_self, decide_eq_false hslot]
        rfl
    · have hmem : c ∈ b :: ranked ↔ c ∈ ranked := by
        rw [List.mem_cons, or_iff_right hcb]
      have hrank : i + (b :: ranked).idxOf c = i + 1 + ranked.idxOf c := by
        rw [List.idxOf_cons_ne _ (Ne.symm hcb)]
        omega
      simp only [hmem, hrank]
      split_ifs
      · rfl
      · rw [sendUnchoke_eq hsentb, Function.update_of_ne hcb]
      · rw [sendChoke_eq hsentb, Function.update_of_ne hcb]

variable {pm : PeerManager α} {ranked : List α}

theorem choking_rechoke (hnodup : pm.peers.Nodup) (hranked : ranked.Perm pm.peers)
    (hsent : ∀ c ∈ pm.peers, sent c = true) (hc : c ∈ pm.peers) :
    (pm.rechoke ranked sent).choking c =
      !decide (ranked.idxOf c < pm.unchokeSlots ∨ pm.optimisticPeer = some c) := by
  have hsent' : ∀ c ∈ ranked, sent c = true := fun c hc => hsent c (hranked.mem_iff.mp hc)
  rw [rechoke, if_neg (List.ne_nil_of_mem hc)]
  dsimp only
  rw [rechokeLoop_eq (hranked.nodup_iff.mpr hnodup) hsent', if_pos (hranked.mem_iff.mpr hc),
    Nat.zero_add]

/-- Behind the slots only the optimistic one counts. -/
theorem countP_drop_le (hnodup : ranked.Nodup) (slots : Nat) (optimistic : Option α) :
    (ranked.drop slots).countP
      (fun c => decide (ranked.idxOf c < slots ∨ optimistic = some c)) ≤ 1 := by
  have hbehind : ∀ c ∈ ranked.drop slots, ¬ ranked.idxOf c < slots := by
    intro c hc hlt
    have hfront := (List.mem_take_iff_idxOf_lt (List.mem_of_mem_drop hc)).mpr hlt
    exact List.disjoint_take_drop hnodup (Nat.le_refl slots) hfront hc
  cases optimistic with
  | none =>
    have hnone : (ranked.drop slots).countP
        (fun c => decide (ranked.idxOf c < slots ∨ none = some c)) = 0 := by
      rw [List.countP_eq_zero]
      intro c hc
      simp [hbehind c hc]
    omega
  | some o =>
    have hcount : (ranked.drop slots).countP
        (fun c => decide (ranked.idxOf c < slots ∨ some o = some c)) =
        (ranked.drop slots).count o := by
      rw [List.count]
      refine List.countP_congr fun c hc => ?_
      rw [decide_eq_true_iff, or_iff_right (hbehind c hc), Option.some_inj, beq_iff_eq, eq_comm]
    rw [hcount]
    exact List.nodup_iff_count_le_one.mp (hnodup.sublist (List.drop_sublist _ _)) o

theorem rechoke_frame (pm : PeerManager α) (ranked : List α) (sent : α → Bool) :
    (pm.rechoke ranked sent).peers = pm.peers ∧
      (pm.rechoke ranked sent).unchokeSlots = pm.unchokeSlots ∧
      (pm.rechoke ranked sent).optimisticPeer = pm.optimisticPeer := by
  unfold rechoke
  split_ifs <;> exact ⟨rfl, rfl, rfl⟩

/-- The number of those in front of a ranking, or with the optimistic slot. -/
theorem countP_ranked (hnodup : ranked.Nodup) (slots : Nat) (optimistic : Option α) :
    min ranked.length slots ≤
        ranked.countP (fun c => decide (ranked.idxOf c < slots ∨ optimistic = some c)) ∧
      ranked.countP (fun c => decide (ranked.idxOf c < slots ∨ optimistic = some c)) ≤
        slots + 1 := by
  have hfront : (ranked.take slots).countP
      (fun c => decide (ranked.idxOf c < slots ∨ optimistic = some c)) =
        (ranked.take slots).length := by
    rw [List.countP_eq_length]
    intro c hc
    exact decide_eq_true (.inl ((List.mem_take_iff_idxOf_lt (List.mem_of_mem_take hc)).mp hc))
  have hbehind := countP_drop_le hnodup slots optimistic
  generalize (fun c => decide (ranked.idxOf c < slots ∨ optimistic = some c)) = unchoked at *
  have hsplit : ranked.countP unchoked =
      (ranked.take slots).countP unchoked + (ranked.drop slots).countP unchoked := by
    rw [← List.countP_append, List.take_append_drop]
  rw [hfront, List.length_take] at hsplit
  omega

/-! ## The rotation -/

omit [DecidableEq α] in
theorem nextChoked_spec {start idx : Nat} (h : pm.nextChoked start = some (idx, c)) :
    c ∈ pm.peers ∧ pm.choking c = true := by
  obtain ⟨i, -, hi⟩ := List.exists_of_findSome?_eq_some h
  obtain ⟨c', hget, hc'⟩ := Option.bind_eq_some_iff.mp hi
  rw [Option.ite_none_right_eq_some, Option.some_inj] at hc'
  obtain ⟨hchoking, heq⟩ := hc'
  obtain rfl := (Prod.mk.inj heq).2
  exact ⟨List.mem_of_getElem? hget, hchoking⟩

/-- From any start the indices come to every place. -/
theorem exists_add_mod_eq {n j : Nat} (start : Nat) (hj : j < n) :
    ∃ i < n, (start + i) % n = j := by
  have hsplit := Nat.div_add_mod start n
  have hmod := Nat.mod_lt start (Nat.zero_lt_of_lt hj)
  rcases Nat.lt_or_ge j (start % n) with hlt | hge
  · refine ⟨j + n - start % n, by omega, ?_⟩
    have hsum : start + (j + n - start % n) = j + n + n * (start / n) := by omega
    rw [hsum, Nat.add_mul_mod_self_left, Nat.add_mod_right, Nat.mod_eq_of_lt hj]
  · refine ⟨j - start % n, by omega, ?_⟩
    have hsum : start + (j - start % n) = j + n * (start / n) := by omega
    rw [hsum, Nat.add_mul_mod_self_left, Nat.mod_eq_of_lt hj]

omit [DecidableEq α] in
/-- The loop goes round the whole list. -/
theorem exists_nextChoked (start : Nat) (hc : c ∈ pm.peers) (hchoking : pm.choking c = true) :
    ∃ idx b, pm.nextChoked start = some (idx, b) := by
  obtain ⟨j, hj, hget⟩ := List.getElem_of_mem hc
  obtain ⟨i, hi, hmod⟩ := exists_add_mod_eq start hj
  have hfound : (pm.nextChoked start).isSome := by
    rw [nextChoked, List.findSome?_isSome_iff]
    refine ⟨i, List.mem_range.mpr hi, ?_⟩
    dsimp only
    rw [hmod, List.getElem?_eq_getElem hj, hget, Option.bind_some, if_pos hchoking]
    rfl
  obtain ⟨⟨idx, b⟩, hsome⟩ := Option.isSome_iff_exists.mp hfound
  exact ⟨idx, b, hsome⟩

/-- A rotation changes nothing but the index, or it gives the slot to a choked peer. -/
theorem rotateOptimistic_cases (pm : PeerManager α) (sent : α → Bool) :
    (∃ idx, pm.rotateOptimistic sent = { pm with optimisticIdx := idx } ∧
        ∀ c ∈ pm.peers, pm.choking c = false) ∨
      ∃ idx, ∃ c ∈ pm.peers, pm.choking c = true ∧
        pm.rotateOptimistic sent =
          { pm with
            optimisticPeer := some c, choking := sendUnchoke sent pm.choking c
            optimisticIdx := idx } := by
  by_cases hempty : pm.peers = []
  · refine .inl ⟨0, if_pos hempty, ?_⟩
    rw [hempty]
    exact List.forall_mem_nil _
  · rw [rotateOptimistic, if_neg hempty]
    cases hnext : pm.nextChoked pm.optimisticIdx with
    | none =>
      refine .inl ⟨pm.optimisticIdx, rfl, fun c hc => ?_⟩
      by_contra hchoking
      obtain ⟨idx, b, hsome⟩ :=
        exists_nextChoked pm.optimisticIdx hc (eq_true_of_ne_false hchoking)
      rw [hnext] at hsome
      cases hsome
    | some next =>
      obtain ⟨idx, c⟩ := next
      obtain ⟨hc, hchoking⟩ := nextChoked_spec hnext
      exact .inr ⟨_, c, hc, hchoking, rfl⟩

end PeerManager

/-! ## Runs -/

open PeerManager

/-- The peers are different, and the optimistic one is one of them. -/
structure Inv (pm : PeerManager α) : Prop where
  nodup : pm.peers.Nodup
  optimistic : ∀ c, pm.optimisticPeer = some c → c ∈ pm.peers

omit [DecidableEq α] in
theorem inv_newPeerManager (unchokeSlots : Int) (choking : α → Bool) :
    Inv (newPeerManager unchokeSlots choking) :=
  ⟨List.nodup_nil, fun _ h => nomatch h⟩

variable {pm pm' : PeerManager α}

omit [DecidableEq α] in
theorem Inv.register (h : Inv pm) (hc : c ∉ pm.peers) : Inv (pm.register c) where
  nodup := h.nodup.append (List.nodup_singleton c) (List.disjoint_singleton.mpr hc)
  optimistic := fun b hb => List.mem_append_left _ (h.optimistic b hb)

theorem Inv.unregister (h : Inv pm) (c : α) : Inv (pm.unregister c) := by
  unfold PeerManager.unregister
  split_ifs with hmem hopt
  · exact ⟨h.nodup.erase c, fun _ hb => nomatch hb⟩
  · refine ⟨h.nodup.erase c, fun b hb => ?_⟩
    have hne : b ≠ c := fun heq => hopt (heq ▸ hb)
    exact (List.mem_erase_of_ne hne).mpr (h.optimistic b hb)
  · exact h

theorem Inv.rechoke (h : Inv pm) (ranked : List α) (sent : α → Bool) :
    Inv (pm.rechoke ranked sent) := by
  unfold PeerManager.rechoke
  split_ifs
  · exact h
  · exact ⟨h.nodup, h.optimistic⟩

theorem Inv.rotateOptimistic (h : Inv pm) (sent : α → Bool) : Inv (pm.rotateOptimistic sent) := by
  rcases pm.rotateOptimistic_cases sent with ⟨idx, heq, -⟩ | ⟨idx, c, hc, -, heq⟩
  · rw [heq]
    exact ⟨h.nodup, h.optimistic⟩
  · rw [heq]
    exact ⟨h.nodup, fun b hb => Option.some.inj hb ▸ hc⟩

section
variable [LinearOrder S]

theorem inv_step (a : Action α S) (h : Inv pm) (hok : RegisteredOnce pm a)
    (hstep : step pm a = some pm') : Inv pm' := by
  cases a with
  | register c => exact Option.some.inj hstep ▸ h.register hok
  | unregister c => exact Option.some.inj hstep ▸ h.unregister c
  | rechoke speed ranked sent =>
    rw [step, Option.ite_none_right_eq_some, Option.some_inj] at hstep
    exact hstep.2 ▸ h.rechoke ranked sent
  | rotateOptimistic sent => exact Option.some.inj hstep ▸ h.rotateOptimistic sent

/-- The unchoked peers are as many as there are slots, and the optimistic one more at most; they
are the fastest, but for that one. -/
structure FollowsRanking (speed : α → S) (pm : PeerManager α) : Prop where
  atMost : pm.peers.countP (fun c => !pm.choking c) ≤ pm.unchokeSlots + 1
  atLeast : min pm.peers.length pm.unchokeSlots ≤ pm.peers.countP fun c => !pm.choking c
  optimistic : ∀ c, pm.optimisticPeer = some c → pm.choking c = false
  fastest : ∀ c ∈ pm.peers, ∀ b ∈ pm.peers, pm.choking c = true → pm.choking b = false →
    pm.optimisticPeer ≠ some b → ¬ speed b < speed c

theorem followsRanking_rechoke {speed : α → S} {ranked : List α} (h : Inv pm)
    (hranked : IsRanking speed pm.peers ranked) (hsent : ∀ c ∈ pm.peers, sent c = true) :
    FollowsRanking speed (pm.rechoke ranked sent) := by
  obtain ⟨hperm, hsorted⟩ := hranked
  obtain ⟨hpeers, hslots, hopt⟩ := pm.rechoke_frame ranked sent
  have hchoking : ∀ c ∈ pm.peers, (pm.rechoke ranked sent).choking c =
      !decide (ranked.idxOf c < pm.unchokeSlots ∨ pm.optimisticPeer = some c) :=
    fun c hc => choking_rechoke h.nodup hperm hsent hc
  have hcount : pm.peers.countP (fun c => !(pm.rechoke ranked sent).choking c) =
      ranked.countP fun c =>
        decide (ranked.idxOf c < pm.unchokeSlots ∨ pm.optimisticPeer = some c) := by
    rw [hperm.countP_eq]
    refine List.countP_congr fun c hc => ?_
    rw [hchoking c hc, Bool.not_not]
  obtain ⟨hmin, hmax⟩ :=
    countP_ranked (hperm.nodup_iff.mpr h.nodup) pm.unchokeSlots pm.optimisticPeer
  rw [hperm.length_eq] at hmin
  refine ⟨?_, ?_, fun c hc => ?_, fun c hc b hb hchoked hunchoked hslot hfaster => ?_⟩
  · rwa [hpeers, hslots, hcount]
  · rwa [hpeers, hslots, hcount]
  · rw [hopt] at hc
    rw [hchoking c (h.optimistic c hc), decide_eq_true (.inr hc)]
    rfl
  · rw [hpeers] at hc hb
    rw [hopt] at hslot
    rw [hchoking c hc, Bool.not_eq_true', decide_eq_false_iff_not, not_or] at hchoked
    rw [hchoking b hb, Bool.not_eq_false', decide_eq_true_iff, or_iff_left hslot] at hunchoked
    have hle := rel_of_idxOf_lt hsorted (hperm.mem_iff.mpr hb) (hperm.mem_iff.mpr hc)
      (by omega)
    exact absurd hfaster (not_lt_of_ge hle)

end

/-- After any calls, with no client registered twice: the optimistic peer is registered; a
rotation gives the slot to a choked peer, if there is one, and unchokes it unless the write
fails; and a `rechoke` whose writes succeed leaves the peers choked by their ranks. -/
theorem choking_follows_ranking [LinearOrder S] (unchokeSlots : Int) (choking : α → Bool)
    (as : List (Action α S)) (pm : PeerManager α)
    (honce : Guarded step RegisteredOnce (newPeerManager unchokeSlots choking) as)
    (hrun : exec step (newPeerManager unchokeSlots choking) as = some pm) :
    (∀ c, pm.optimisticPeer = some c → c ∈ pm.peers) ∧
      (∀ sent, (∃ c ∈ pm.peers, pm.choking c = true) →
        ∃ c ∈ pm.peers, pm.choking c = true ∧
          (pm.rotateOptimistic sent).optimisticPeer = some c ∧
          (sent c = true → (pm.rotateOptimistic sent).choking c = false)) ∧
      ∀ (speed : α → S) ranked sent pm', step pm (.rechoke speed ranked sent) = some pm' →
        (∀ c ∈ pm.peers, sent c = true) → FollowsRanking speed pm' := by
  have h : Inv pm := exec_invariant (fun _ a _ hs hok hstep => inv_step a hs hok hstep)
    (inv_newPeerManager unchokeSlots choking) honce hrun
  refine ⟨h.optimistic, fun sent hchoked => ?_, fun speed ranked sent pm' hstep hsent => ?_⟩
  · rcases pm.rotateOptimistic_cases sent with ⟨idx, -, hnone⟩ | ⟨idx, c, hc, hchoking, heq⟩
    · obtain ⟨c, hc, hchoking⟩ := hchoked
      rw [hnone c hc] at hchoking
      cases hchoking
    · refine ⟨c, hc, hchoking, ?_, fun hsent => ?_⟩
      · rw [heq]
      · rw [heq]
        dsimp only
        rw [sendUnchoke_eq hsent, Function.update_self]
  · rw [step, Option.ite_none_right_eq_some, Option.some_inj] at hstep
    rw [← hstep.2]
    exact followsRanking_rechoke h hstep.1 hsent

end

/-- Three peers, of which the first one gets the optimistic slot and then the second one. -/
def threePeers : List (Action (Fin 3) Nat) :=
  [.register 0, .register 1, .register 2, .rotateOptimistic fun _ => true,
    .rotateOptimistic fun _ => true]

/-- With one slot, and the last peer the fastest. -/
theorem choking_follows_ranking_three :
    Guarded step RegisteredOnce (newPeerManager 1 fun _ => true) threePeers ∧
      ∃ pm pm', exec step (newPeerManager 1 fun _ => true) threePeers = some pm ∧
        step pm (.rechoke (fun c => c.val) [2, 1, 0] fun _ => true) = some pm' ∧
        FollowsRanking (fun c => c.val) pm' := by
  have honce : Guarded step RegisteredOnce (newPeerManager 1 fun _ => true) threePeers := by decide
  obtain ⟨pm, hrun, hranking⟩ : ∃ pm,
      exec step (newPeerManager 1 fun _ => true) threePeers = some pm ∧
        IsRanking (fun c => c.val) pm.peers [2, 1, 0] := by decide
  have hstep : step pm (.rechoke (fun c => c.val) [2, 1, 0] fun _ => true) = some _ :=
    if_pos hranking
  refine ⟨honce, pm, _, hrun, hstep, ?_⟩
  exact (choking_follows_ranking 1 _ threePeers pm honce hrun).2.2 _ _ _ _ hstep fun _ _ => rfl

end Choking
end Stor.Download
