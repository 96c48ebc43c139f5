import Mathlib.Data.List.Nodup
import Mathlib.Data.List.Perm.Basic

/-!
# Lists as rankings

A list without repetitions ranks its members, the rank of `x` being `idxOf x`.  Taking a
member out closes the gap, and the two moves by one place swap a member with its
neighbour; each is described by what it does to the ranks.  The moves to the ends are a
member taken out and put there.
-/

namespace Stor.Lib

section
variable {α : Type*} [BEq α]

def toFront (x : α) (q : List α) : List α := if q.contains x then x :: q.erase x else q

def toBack (x : α) (q : List α) : List α := if q.contains x then q.erase x ++ [x] else q

variable [LawfulBEq α] {x : α} {q : List α}

theorem toFront_of_mem (h : x ∈ q) : toFront x q = x :: q.erase x :=
  if_pos (List.contains_iff_mem.mpr h)

theorem toFront_of_notMem (h : x ∉ q) : toFront x q = q :=
  if_neg fun hx => h (List.contains_iff_mem.mp hx)

theorem toBack_of_mem (h : x ∈ q) : toBack x q = q.erase x ++ [x] :=
  if_pos (List.contains_iff_mem.mpr h)

theorem toBack_of_notMem (h : x ∉ q) : toBack x q = q :=
  if_neg fun hx => h (List.contains_iff_mem.mp hx)

end

variable {α : Type*} [DecidableEq α]

/-- `x` one place to the front. -/
def raise (x : α) : List α → List α
  | [] => []
  | [a] => [a]
  | a :: b :: l =>
    if a = x then a :: b :: l else if b = x then b :: a :: l else a :: raise x (b :: l)

/-- `x` one place to the back. -/
def lower (x : α) : List α → List α
  | [] => []
  | [a] => [a]
  | a :: b :: l => if a = x then b :: a :: l else a :: lower x (b :: l)

variable {x y p : α} {l r q : List α}

theorem raise_head (x : α) (r : List α) : raise x (x :: r) = x :: r := by
  cases r with
  | nil => rfl
  | cons b r => rw [raise, if_pos rfl]

theorem raise_append (hx : x ∉ l) (hp : p ≠ x) (r : List α) :
    raise x (l ++ p :: x :: r) = l ++ x :: p :: r := by
  induction l with
  | nil => rw [List.nil_append, List.nil_append, raise, if_neg hp, if_pos rfl]
  | cons a l ih =>
    obtain ⟨ha, hl⟩ := not_or.mp (mt List.mem_cons.mpr hx)
    have hrest := ih hl
    cases l with
    | nil =>
      rw [List.nil_append] at hrest
      rw [List.cons_append, List.nil_append, raise, if_neg (Ne.symm ha), if_neg hp, hrest]
      rfl
    | cons b l =>
      have hb : b ≠ x := fun h => hl (h ▸ List.mem_cons_self)
      rw [List.cons_append] at hrest
      rw [List.cons_append, List.cons_append, raise, if_neg (Ne.symm ha), if_neg hb, hrest]
      rfl

theorem lower_append (hx : x ∉ l) (p : α) (r : List α) :
    lower x (l ++ x :: p :: r) = l ++ p :: x :: r := by
  induction l with
  | nil => rw [List.nil_append, List.nil_append, lower, if_pos rfl]
  | cons a l ih =>
    obtain ⟨ha, hl⟩ := not_or.mp (mt List.mem_cons.mpr hx)
    have hrest := ih hl
    obtain ⟨b, t, hbt⟩ : ∃ b t, l ++ x :: p :: r = b :: t := by
      cases l with
      | nil => exact ⟨x, p :: r, rfl⟩
      | cons b l => exact ⟨b, l ++ x :: p :: r, rfl⟩
    rw [hbt] at hrest
    rw [List.cons_append, hbt, lower, if_neg (Ne.symm ha), hrest]
    rfl

theorem lower_last (hx : x ∉ l) : lower x (l ++ [x]) = l ++ [x] := by
  induction l with
  | nil => rfl
  | cons a l ih =>
    obtain ⟨ha, hl⟩ := not_or.mp (mt List.mem_cons.mpr hx)
    have hrest := ih hl
    obtain ⟨b, t, hbt⟩ : ∃ b t, l ++ [x] = b :: t := by
      cases l with
      | nil => exact ⟨x, [], rfl⟩
      | cons b l => exact ⟨b, l ++ [x], rfl⟩
    rw [hbt] at hrest
    rw [List.cons_append, hbt, lower, if_neg (Ne.symm ha), hrest]

theorem raise_perm (x : α) (q : List α) : (raise x q).Perm q := by
  induction q using raise.induct x with
  | case1 => exact List.Perm.refl _
  | case2 a => exact List.Perm.refl _
  | case3 b l => rw [raise, if_pos rfl]
  | case4 a l ha =>
    rw [raise, if_neg ha, if_pos rfl]
    exact List.Perm.swap _ _ _
  | case5 a b l ha hb ih =>
    rw [raise, if_neg ha, if_neg hb]
    exact ih.cons a

theorem lower_perm (x : α) (q : List α) : (lower x q).Perm q := by
  induction q using lower.induct x with
  | case1 => exact List.Perm.refl _
  | case2 a => exact List.Perm.refl _
  | case3 b l =>
    rw [lower, if_pos rfl]
    exact List.Perm.swap _ _ _
  | case4 a b l ha ih =>
    rw [lower, if_neg ha]
    exact ih.cons a

theorem raise_of_notMem (h : x ∉ q) : raise x q = q := by
  induction q using raise.induct x with
  | case1 => rfl
  | case2 a => rfl
  | case3 b l => exact absurd List.mem_cons_self h
  | case4 a l ha => exact absurd (List.mem_cons_of_mem _ List.mem_cons_self) h
  | case5 a b l ha hb ih => rw [raise, if_neg ha, if_neg hb, ih (mt (List.mem_cons_of_mem _) h)]

theorem lower_of_notMem (h : x ∉ q) : lower x q = q := by
  induction q using lower.induct x with
  | case1 => rfl
  | case2 a => rfl
  | case3 b l => exact absurd List.mem_cons_self h
  | case4 a b l ha ih => rw [lower, if_neg ha, ih (mt (List.mem_cons_of_mem _) h)]

section Ranks

variable [BEq α] [LawfulBEq α]

omit [DecidableEq α] in
theorem erase_append_cons (hx : x ∉ l) (r : List α) : (l ++ x :: r).erase x = l ++ r := by
  rw [List.erase_append_right _ hx, List.erase_cons_head]

omit [DecidableEq α] in
theorem idxOf_append_cons (hx : x ∉ l) (r : List α) : (l ++ x :: r).idxOf x = l.length := by
  rw [List.idxOf_append_of_notMem hx, List.idxOf_cons_self, Nat.add_zero]

omit [DecidableEq α] in
theorem idxOf_append_cons_of_ne (hy : y ∉ l) (hne : x ≠ y) (r : List α) :
    (l ++ x :: r).idxOf y = l.length + (r.idxOf y + 1) := by
  rw [List.idxOf_append_of_notMem hy, List.idxOf_cons_ne _ hne]

omit [DecidableEq α] in
/-- Taking `x` out closes the gap. -/
theorem idxOf_erase (hx : x ∈ q) (hne : x ≠ y) :
    (q.erase x).idxOf y = if q.idxOf y < q.idxOf x then q.idxOf y else q.idxOf y - 1 := by
  obtain ⟨l, r, rfl, hxl⟩ := List.eq_append_cons_of_mem hx
  rw [erase_append_cons hxl, idxOf_append_cons hxl]
  by_cases hy : y ∈ l
  · have hlt := List.idxOf_lt_length_of_mem hy
    rw [List.idxOf_append_of_mem hy, List.idxOf_append_of_mem hy, if_pos hlt]
  · rw [List.idxOf_append_of_notMem hy, idxOf_append_cons_of_ne hy hne, if_neg (by omega)]
    omega

/-- `x` and the member before it swap their ranks. -/
theorem idxOf_raise (hq : q.Nodup) (hx : x ∈ q) (hpos : 0 < q.idxOf x) (y : α) :
    (raise x q).idxOf y = if y = x then q.idxOf x - 1
      else if q.idxOf y = q.idxOf x - 1 then q.idxOf x else q.idxOf y := by
  obtain ⟨l, r, rfl, hxl⟩ := List.eq_append_cons_of_mem hx
  rw [idxOf_append_cons hxl] at hpos ⊢
  obtain ⟨l, p, rfl⟩ := (List.eq_nil_or_concat' l).resolve_left (List.ne_nil_of_length_pos hpos)
  rw [List.mem_append, List.mem_singleton, not_or] at hxl
  have hpl : p ∉ l := by
    rw [List.append_assoc, List.singleton_append, List.nodup_middle] at hq
    exact fun h => (List.nodup_cons.mp hq).1 (List.mem_append_left _ h)
  rw [List.append_assoc, List.singleton_append, raise_append hxl.1 (Ne.symm hxl.2),
    List.length_append, List.length_singleton, Nat.add_sub_cancel]
  by_cases hyx : y = x
  · rw [if_pos hyx, hyx, idxOf_append_cons hxl.1]
  by_cases hyl : y ∈ l
  · have hlt := List.idxOf_lt_length_of_mem hyl
    rw [if_neg hyx, List.idxOf_append_of_mem hyl, List.idxOf_append_of_mem hyl, if_neg (by omega)]
  rw [if_neg hyx, idxOf_append_cons_of_ne hyl (Ne.symm hyx)]
  by_cases hyp : y = p
  · rw [hyp, idxOf_append_cons hpl, List.idxOf_cons_self, if_pos rfl]
  · rw [idxOf_append_cons_of_ne hyl (Ne.symm hyp), List.idxOf_cons_ne _ (Ne.symm hyp),
      List.idxOf_cons_ne _ (Ne.symm hyx), if_neg (by omega)]

/-- `x` and the member behind it swap their ranks. -/
theorem idxOf_lower (hq : q.Nodup) (hx : x ∈ q) (hlast : q.idxOf x + 1 < q.length) (y : α) :
    (lower x q).idxOf y = if y = x then q.idxOf x + 1
      else if q.idxOf y = q.idxOf x + 1 then q.idxOf x else q.idxOf y := by
  obtain ⟨l, r, rfl, hxl⟩ := List.eq_append_cons_of_mem hx
  rw [idxOf_append_cons hxl] at hlast ⊢
  cases r with
  | nil =>
    rw [List.length_append, List.length_singleton] at hlast
    omega
  | cons p r =>
    rw [lower_append hxl]
    have hnodup := List.nodup_append.mp hq
    have hxp : x ≠ p := fun h =>
      (List.nodup_cons.mp hnodup.2.1).1 (h ▸ List.mem_cons_self)
    have hpl : p ∉ l := fun h =>
      hnodup.2.2 p h p (List.mem_cons_of_mem _ List.mem_cons_self) rfl
    by_cases hyx : y = x
    · rw [if_pos hyx, hyx, idxOf_append_cons_of_ne hxl (Ne.symm hxp), List.idxOf_cons_self]
    by_cases hyl : y ∈ l
    · have hlt := List.idxOf_lt_length_of_mem hyl
      rw [if_neg hyx, List.idxOf_append_of_mem hyl, List.idxOf_append_of_mem hyl,
        if_neg (by omega)]
    rw [if_neg hyx, idxOf_append_cons_of_ne hyl (Ne.symm hyx)]
    by_cases hyp : y = p
    · rw [hyp, idxOf_append_cons hpl, List.idxOf_cons_self, if_pos rfl]
    · rw [idxOf_append_cons_of_ne hyl (Ne.symm hyp), List.idxOf_cons_ne _ (Ne.symm hyp),
        List.idxOf_cons_ne _ (Ne.symm hyx), if_neg (by omega)]

omit [DecidableEq α] in
theorem erase_cons_of_ne {a : α} (h : a ≠ x) (l : List α) : (a :: l).erase x = a :: l.erase x :=
  List.erase_cons_tail (by simpa using h)

/-- Neither move changes what is left without `x`. -/
theorem erase_raise (x : α) (q : List α) : (raise x q).erase x = q.erase x := by
  induction q using raise.induct x with
  | case1 => rfl
  | case2 a => rfl
  | case3 b l => rw [raise, if_pos rfl]
  | case4 a l ha =>
    rw [raise, if_neg ha, if_pos rfl, List.erase_cons_head, erase_cons_of_ne ha,
      List.erase_cons_head]
  | case5 a b l ha hb ih =>
    rw [raise, if_neg ha, if_neg hb, erase_cons_of_ne ha, ih, erase_cons_of_ne ha]

theorem erase_lower (x : α) (q : List α) : (lower x q).erase x = q.erase x := by
  induction q using lower.induct x with
  | case1 => rfl
  | case2 a => rfl
  | case3 b l =>
    rw [lower, if_pos rfl, List.erase_cons_head]
    by_cases hb : b = x
    · rw [hb, List.erase_cons_head]
    · rw [erase_cons_of_ne hb, List.erase_cons_head]
  | case4 a b l ha ih => rw [lower, if_neg ha, erase_cons_of_ne ha, ih, erase_cons_of_ne ha]

/-- The first and the last stay where they are. -/
theorem raise_of_idxOf (h : q.idxOf x = 0) : raise x q = q := by
  cases q with
  | nil => rfl
  | cons a q =>
    by_cases hax : a = x
    · rw [hax, raise_head]
    · rw [List.idxOf_cons_ne _ hax] at h
      exact absurd h (Nat.succ_ne_zero _)

theorem lower_of_idxOf (hx : x ∈ q) (h : q.length ≤ q.idxOf x + 1) : lower x q = q := by
  obtain ⟨l, r, rfl, hxl⟩ := List.eq_append_cons_of_mem hx
  rw [idxOf_append_cons hxl, List.length_append, List.length_cons] at h
  rw [List.eq_nil_of_length_eq_zero (l := r) (by omega), lower_last hxl]

omit [DecidableEq α] in
theorem cons_erase_of_idxOf (hx : x ∈ q) (h : q.idxOf x = 0) : x :: q.erase x = q := by
  obtain ⟨l, r, rfl, hxl⟩ := List.eq_append_cons_of_mem hx
  rw [idxOf_append_cons hxl] at h
  rw [erase_append_cons hxl, List.eq_nil_of_length_eq_zero h]
  rfl

omit [DecidableEq α] in
theorem erase_append_of_idxOf (hx : x ∈ q) (h : q.length ≤ q.idxOf x + 1) :
    q.erase x ++ [x] = q := by
  obtain ⟨l, r, rfl, hxl⟩ := List.eq_append_cons_of_mem hx
  rw [idxOf_append_cons hxl, List.length_append, List.length_cons] at h
  rw [erase_append_cons hxl, List.eq_nil_of_length_eq_zero (l := r) (by omega), List.append_nil]

/-- `x` changes places with the member before it, if there is one. -/
theorem raise_eq (hq : q.Nodup) (x : α) :
    (∃ l p r, q = l ++ p :: x :: r ∧ raise x q = l ++ x :: p :: r) ∨
      (q.head? = some x ∨ x ∉ q) ∧ raise x q = q := by
  by_cases hx : x ∈ q
  · obtain ⟨l, r, rfl⟩ := List.append_of_mem hx
    have hl : x ∉ l := fun hmem =>
      (List.nodup_append.mp hq).2.2 x hmem x List.mem_cons_self rfl
    rcases List.eq_nil_or_concat' l with rfl | ⟨l, p, rfl⟩
    · exact .inr ⟨.inl rfl, raise_head x r⟩
    · rw [List.mem_append, List.mem_singleton, not_or] at hl
      rw [List.append_assoc, List.singleton_append]
      exact .inl ⟨l, p, r, rfl, raise_append hl.1 (Ne.symm hl.2) r⟩
  · exact .inr ⟨.inr hx, raise_of_notMem hx⟩

/-- `x` changes places with the member after it, if there is one. -/
theorem lower_eq (hq : q.Nodup) (x : α) :
    (∃ l p r, q = l ++ x :: p :: r ∧ lower x q = l ++ p :: x :: r) ∨
      (q.getLast? = some x ∨ x ∉ q) ∧ lower x q = q := by
  by_cases hx : x ∈ q
  · obtain ⟨l, r, rfl⟩ := List.append_of_mem hx
    have hl : x ∉ l := fun hmem =>
      (List.nodup_append.mp hq).2.2 x hmem x List.mem_cons_self rfl
    cases r with
    | nil => exact .inr ⟨.inl List.getLast?_concat, lower_last hl⟩
    | cons p r => exact .inl ⟨l, p, r, rfl, lower_append hl p r⟩
  · exact .inr ⟨.inr hx, lower_of_notMem hx⟩

omit [DecidableEq α] in
/-- A ranking is in the order of the ranks. -/
theorem pairwise_idxOf (h : q.Nodup) : q.Pairwise fun a b => q.idxOf a < q.idxOf b := by
  rw [List.pairwise_iff_getElem]
  intro i j hi hj hij
  rwa [h.idxOf_getElem i hi, h.idxOf_getElem j hj]

omit [DecidableEq α] in
/-- A member stands in the relation of the list to every member behind it. -/
theorem rel_of_idxOf_lt {R : α → α → Prop} (h : q.Pairwise R) (hx : x ∈ q) (hy : y ∈ q)
    (hlt : q.idxOf x < q.idxOf y) : R x y := by
  have hrel := List.pairwise_iff_getElem.mp h _ _ (List.idxOf_lt_length_of_mem hx)
    (List.idxOf_lt_length_of_mem hy) hlt
  rwa [List.getElem_idxOf, List.getElem_idxOf] at hrel

end Ranks

end Stor.Lib
