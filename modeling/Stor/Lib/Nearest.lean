import Mathlib.Data.List.Sort
import Mathlib.Order.Basic

/-!
# The least elements by a key

An insertion sort as it is written for arrays: each element moves down from the end of the
sorted part as long as it is less than its neighbour.  `IsNearest` says of a list that it is
the first `k` in such an order, and `IsNearest.take` that a sorted list begins with one.
-/

namespace Stor.Lib

variable {α κ : Type*}

section
variable (less : α → α → Bool)

/-- One turn of the outer loop.  The sorted part is given from its end. -/
def insertDown (x : α) : List α → List α
  | [] => [x]
  | y :: ys => if less x y then y :: insertDown x ys else x :: y :: ys

def sortBy (l : List α) : List α :=
  (l.foldl (fun sorted x => insertDown less x sorted) []).reverse

theorem insertDown_perm (x : α) (l : List α) : (insertDown less x l).Perm (x :: l) := by
  induction l with
  | nil => exact .refl _
  | cons y ys ih =>
    rw [insertDown]
    split_ifs
    · exact (ih.cons y).trans (.swap x y ys)
    · exact .refl _

theorem foldl_insertDown_perm (l sorted : List α) :
    (l.foldl (fun sorted x => insertDown less x sorted) sorted).Perm (l ++ sorted) := by
  induction l generalizing sorted with
  | nil => exact .refl _
  | cons x xs ih =>
    have hinsert := (insertDown_perm less x sorted).append_left xs
    exact (ih _).trans (hinsert.trans List.perm_middle)

theorem sortBy_perm (l : List α) : (sortBy less l).Perm l := by
  have h := foldl_insertDown_perm less l []
  rw [List.append_nil] at h
  exact (List.reverse_perm _).trans h

end

section
variable [LinearOrder κ] {key : α → κ} {less : α → α → Bool}
  (hless : ∀ x y, less x y = true ↔ key x < key y)

include hless

theorem insertDown_sorted (x : α) {l : List α} (h : l.Pairwise fun a b => key b ≤ key a) :
    (insertDown less x l).Pairwise fun a b => key b ≤ key a := by
  induction l with
  | nil => exact List.pairwise_singleton _ _
  | cons y ys ih =>
    obtain ⟨hy, hys⟩ := List.pairwise_cons.mp h
    rw [insertDown]
    split_ifs with hlt
    · refine List.pairwise_cons.mpr ⟨fun b hb => ?_, ih hys⟩
      rcases List.mem_cons.mp ((insertDown_perm less x ys).mem_iff.mp hb) with rfl | hb
      · exact ((hless _ _).mp hlt).le
      · exact hy b hb
    · have hle : key y ≤ key x := not_lt.mp fun hxy => hlt ((hless _ _).mpr hxy)
      refine List.pairwise_cons.mpr ⟨fun b hb => ?_, h⟩
      rcases List.mem_cons.mp hb with rfl | hb
      · exact hle
      · exact (hy b hb).trans hle

theorem sortBy_sorted (l : List α) : (sortBy less l).Pairwise fun a b => key a ≤ key b := by
  have hfold : ∀ sorted : List α, (sorted.Pairwise fun a b => key b ≤ key a) →
      (l.foldl (fun sorted x => insertDown less x sorted) sorted).Pairwise
        fun a b => key b ≤ key a := by
    induction l with
    | nil => exact fun _ h => h
    | cons x xs ih => exact fun sorted h => ih _ (insertDown_sorted hless x h)
  rw [sortBy, List.pairwise_reverse]
  exact hfold [] .nil

end

/-- `near` is `k` of the elements of `l`, or all of them, in order, and none that was left
out has a smaller key. -/
def IsNearest [LE κ] (key : α → κ) (k : Nat) (l near : List α) : Prop :=
  near.length = min k l.length ∧ (near.Pairwise fun a b => key a ≤ key b) ∧
    ∃ rest, (near ++ rest).Perm l ∧ ∀ x ∈ near, ∀ y ∈ rest, key x ≤ key y

section
variable [LE κ] {key : α → κ} {k : Nat} {l near sorted : List α}

theorem IsNearest.take (hperm : sorted.Perm l) (hsorted : sorted.Pairwise fun a b => key a ≤ key b)
    (k : Nat) : IsNearest key k l (sorted.take k) := by
  have hsplit := hsorted
  rw [← List.take_append_drop k sorted, List.pairwise_append] at hsplit
  refine ⟨?_, hsplit.1, sorted.drop k, ?_, hsplit.2.2⟩
  · rw [List.length_take, hperm.length_eq]
  · rwa [List.take_append_drop]

/-- The elements may be replaced by what the key is taken from. -/
theorem IsNearest.map {β : Type*} {f : α → β} {key : β → κ}
    (h : IsNearest (fun a => key (f a)) k l near) : IsNearest key k (l.map f) (near.map f) := by
  obtain ⟨hlen, hsorted, rest, hperm, hrest⟩ := h
  refine ⟨?_, hsorted.map f fun _ _ hab => hab, rest.map f, ?_, fun x hx y hy => ?_⟩
  · rw [List.length_map, List.length_map, hlen]
  · rw [← List.map_append]
    exact hperm.map f
  · obtain ⟨a, ha, rfl⟩ := List.mem_map.mp hx
    obtain ⟨b, hb, rfl⟩ := List.mem_map.mp hy
    exact hrest a ha b hb

theorem IsNearest.length_le (h : IsNearest key k l near) : near.length ≤ k := by
  rw [h.1]
  exact Nat.min_le_left _ _

theorem IsNearest.nodup_map {β : Type*} {f : α → β} (h : IsNearest key k l near)
    (hnodup : (l.map f).Nodup) : (near.map f).Nodup := by
  obtain ⟨-, -, rest, hperm, -⟩ := h
  have hnodup := (hperm.map f).nodup_iff.mpr hnodup
  rw [List.map_append] at hnodup
  exact (List.nodup_append.mp hnodup).1

theorem IsNearest.subset (h : IsNearest key k l near) : ∀ x ∈ near, x ∈ l := by
  obtain ⟨-, -, rest, hperm, -⟩ := h
  exact fun x hx => hperm.mem_iff.mp (List.mem_append_left rest hx)

end

theorem isNearest_sortBy [LinearOrder κ] {key : α → κ} {less : α → α → Bool}
    (hless : ∀ x y, less x y = true ↔ key x < key y) (k : Nat) (l : List α) :
    IsNearest key k l ((sortBy less l).take k) :=
  .take (sortBy_perm less l) (sortBy_sorted hless l) k

end Stor.Lib
