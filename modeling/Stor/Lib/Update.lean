import Mathlib.Data.List.Basic
import Mathlib.Data.List.Nodup
import Mathlib.Data.List.Perm.Subperm

/-!
# Counting in a list that is changed in places

Two lists are compared place by place: what is counted in one is counted at the
same place of the other.  A change at a single place moves the count by at most
one.  The members behind such a change are those before it and the new one.
-/

namespace Stor.Lib

variable {α β : Type*} {p : α → Bool} {q : β → Bool}

theorem countP_le_of_places {l : List α} {m : List β}
    (h : ∀ (j : Nat) a, l[j]? = some a → p a → ∃ b, m[j]? = some b ∧ q b) :
    l.countP p ≤ m.countP q := by
  induction l generalizing m with
  | nil => exact Nat.zero_le _
  | cons a l ih =>
    cases m with
    | nil =>
      have hnone : (a :: l).countP p = 0 := by
        rw [List.countP_eq_zero]
        intro x hx hp
        obtain ⟨j, hj⟩ := List.mem_iff_getElem?.mp hx
        obtain ⟨b, hb, -⟩ := h j x hj hp
        cases hb
      omega
    | cons b m =>
      have htail : l.countP p ≤ m.countP q := ih fun j x hj hp => h (j + 1) x hj hp
      have hhead : p a = true → q b = true := by
        intro hp
        obtain ⟨c, hc, hq⟩ := h 0 a rfl hp
        exact (Option.some.inj hc) ▸ hq
      rw [List.countP_cons, List.countP_cons]
      by_cases hp : p a = true
      · rw [if_pos hp, if_pos (hhead hp)]
        omega
      · rw [if_neg hp]
        omega

/-- All places but one. -/
theorem countP_le_succ_of_places {l : List α} {m : List β} {i : Nat}
    (h : ∀ (j : Nat) a, j ≠ i → l[j]? = some a → p a → ∃ b, m[j]? = some b ∧ q b) :
    l.countP p ≤ m.countP q + 1 := by
  induction l generalizing m i with
  | nil => exact Nat.zero_le _
  | cons a l ih =>
    rw [List.countP_cons]
    cases i with
    | zero =>
      have htail : l.countP p ≤ (m.drop 1).countP q := by
        apply countP_le_of_places
        intro j x hj hp
        obtain ⟨b, hb, hq⟩ := h (j + 1) x (by omega) hj hp
        exact ⟨b, by rw [List.getElem?_drop, Nat.add_comm]; exact hb, hq⟩
      have hdrop := (List.drop_sublist 1 m).countP_le (p := q)
      split <;> omega
    | succ i =>
      cases m with
      | nil =>
        have hrest := ih (m := []) (i := i) fun j x hj hx hp => by
          obtain ⟨b, hb, -⟩ := h (j + 1) x (by omega) hx hp
          cases hb
        have hhead : ¬p a := by
          intro hp
          obtain ⟨b, hb, -⟩ := h 0 a (by omega) rfl hp
          cases hb
        rw [if_neg hhead]
        exact hrest
      | cons b m =>
        have hrest := ih (m := m) (i := i) fun j x hj hx hp =>
          h (j + 1) x (by omega) hx hp
        have hhead : p a = true → q b = true := by
          intro hp
          obtain ⟨c, hc, hq⟩ := h 0 a (by omega) rfl hp
          exact (Option.some.inj hc) ▸ hq
        rw [List.countP_cons]
        by_cases hp : p a = true
        · rw [if_pos hp, if_pos (hhead hp)]
          omega
        · rw [if_neg hp]
          omega

theorem countP_le_one {l : List α}
    (h : ∀ (j k : Nat) a b, l[j]? = some a → l[k]? = some b → p a → p b → j = k) :
    l.countP p ≤ 1 := by
  by_cases hex : ∃ (k : Nat) (b : α), l[k]? = some b ∧ p b
  · obtain ⟨k, b, hb, hp⟩ := hex
    apply countP_le_succ_of_places (m := ([] : List α)) (q := p) (i := k)
    intro j a hjk ha hpa
    exact absurd (h j k a b ha hb hpa hp) hjk
  · have hzero : l.countP p = 0 := by
      rw [List.countP_eq_zero]
      intro a ha hp
      obtain ⟨k, hk⟩ := List.mem_iff_getElem?.mp ha
      exact hex ⟨k, a, hk, hp⟩
    omega

/-! ## One place of a list -/

theorem mem_set_cases {l : List α} {i : Nat} {a b : α} (h : b ∈ l.set i a) :
    b = a ∨ ∃ j, j ≠ i ∧ l[j]? = some b := by
  obtain ⟨j, hj⟩ := List.mem_iff_getElem?.mp h
  rw [List.getElem?_set] at hj
  split_ifs at hj with hij hlt
  · exact .inl (Option.some.inj hj).symm
  · exact .inr ⟨j, Ne.symm hij, hj⟩

/-- What holds of all elements behind a change at one place held of all before. -/
theorem forall_mem_of_set {r : α → Prop} {l : List α} {i : Nat} {a b : α} (hi : l[i]? = some a)
    (h : ∀ c ∈ l.set i b, r c) (hab : r b → r a) : ∀ c ∈ l, r c := by
  intro c hc
  obtain ⟨j, hj⟩ := List.mem_iff_getElem?.mp hc
  by_cases hij : i = j
  · subst hij
    obtain rfl := Option.some.inj (hi.symm.trans hj)
    exact hab (h b (List.mem_set (List.getElem?_eq_some_iff.mp hi).1 _))
  · refine h c (List.mem_iff_getElem?.mpr ⟨j, ?_⟩)
    rw [List.getElem?_set_ne hij]
    exact hj

theorem getElem?_concat_cases {l : List α} {i : Nat} {a b : α} (h : (l ++ [a])[i]? = some b) :
    l[i]? = some b ∨ i = l.length ∧ b = a := by
  rcases Nat.lt_trichotomy i l.length with hlt | rfl | hlt
  · rw [List.getElem?_append_left hlt] at h
    exact .inl h
  · rw [List.getElem?_concat_length] at h
    exact .inr ⟨rfl, (Option.some.inj h).symm⟩
  · rw [List.getElem?_eq_none (by rw [List.length_append]; exact hlt)] at h
    cases h

/-! ## Ends of a list -/

theorem modify_append_length (l : List α) (a : α) (f : α → α) :
    (l ++ [a]).modify l.length f = l ++ [f a] := by
  induction l with
  | nil => rfl
  | cons b l ih => rw [List.cons_append, List.length_cons, List.modify_succ_cons, ih]; rfl

/-- A map that depends on the place only by a limit. -/
theorem mapIdx_eq_take_drop {f : Nat → α → β} {g h : α → β} {l : List α} {n : Nat}
    (hf : ∀ (j : Nat) a, l[j]? = some a → f j a = if j < n then g a else h a) :
    l.mapIdx f = (l.take n).map g ++ (l.drop n).map h := by
  induction l generalizing n f with
  | nil => simp
  | cons a l ih =>
    have hhead := hf 0 a rfl
    rw [List.mapIdx_cons]
    cases n with
    | zero =>
      rw [ih (f := fun j => f (j + 1)) (n := 0) fun j b hb => by
        rw [hf (j + 1) b hb, if_neg (by omega), if_neg (by omega)], hhead]
      rfl
    | succ n =>
      rw [ih (f := fun j => f (j + 1)) (n := n) fun j b hb => by
        rw [hf (j + 1) b hb]
        simp only [Nat.add_lt_add_iff_right], hhead, if_pos (by omega)]
      rfl

/-! ## Counting once -/

/-- A disjunction whose sides exclude each other. -/
theorem countP_or {p q : α → Bool} {l : List α} (h : ∀ a ∈ l, p a = true → q a = false) :
    l.countP (fun a => p a || q a) = l.countP p + l.countP q := by
  induction l with
  | nil => rfl
  | cons a l ih =>
    have htail := ih fun b hb => h b (List.mem_cons_of_mem a hb)
    rw [List.countP_cons, List.countP_cons, List.countP_cons, htail]
    cases hp : p a with
    | false =>
      simp only [Bool.false_or, Bool.false_eq_true, if_false]
      omega
    | true =>
      rw [h a List.mem_cons_self hp]
      simp only [Bool.true_or, Bool.false_eq_true, if_true, if_false]
      omega

theorem countP_range (p : α → Bool) (l : List α) :
    (List.range l.length).countP (fun j => (l[j]?).any p) = l.countP p := by
  induction l with
  | nil => rfl
  | cons a l ih =>
    rw [List.length_cons, List.range_succ_eq_map, List.countP_cons, List.countP_map,
      List.countP_cons]
    simp only [Function.comp_def, Nat.succ_eq_add_one, List.getElem?_cons_succ, ih,
      List.getElem?_cons_zero, Option.any_some]

/-- What is found once in `l` is in `m`. -/
theorem countP_le_of_nodup {p q : α → Bool} {l m : List α} (hl : l.Nodup)
    (h : ∀ a ∈ l, p a = true → a ∈ m ∧ q a = true) : l.countP p ≤ m.countP q := by
  rw [List.countP_eq_length_filter, List.countP_eq_length_filter]
  apply List.Subperm.length_le
  apply List.Nodup.subperm (hl.filter p)
  intro a ha
  rw [List.mem_filter] at ha
  rw [List.mem_filter]
  exact h a ha.1 ha.2
end Stor.Lib
