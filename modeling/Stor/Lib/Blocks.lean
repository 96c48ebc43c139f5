import Mathlib.Algebra.BigOperators.Intervals
import Mathlib.Algebra.Order.BigOperators.Group.Finset

/-!
# Positions in blocks of one width

Position `b` is in block `b / w`.  The positions of a range whose block has a property are
counted block by block: each block has a share of the range, which is cut off at both ends.
-/

namespace Stor.Lib

variable {w : Nat} (p : Nat → Prop) [DecidablePred p]

/-- The positions from `a` up to `e` in block `i`. -/
def share (w a e i : Nat) : Nat := min ((i + 1) * w) e - max (i * w) a

/-- The positions from `a` up to `e` whose block has the property. -/
def countIn (w a e : Nat) : Nat := ((Finset.Ico a e).filter fun b => p (b / w)).card

theorem filter_block (hw : 0 < w) (a e i : Nat) :
    ((Finset.Ico a e).filter fun b => b / w = i) =
      Finset.Ico (max (i * w) a) (min ((i + 1) * w) e) := by
  ext b
  rw [Finset.mem_filter, Finset.mem_Ico, Finset.mem_Ico, Nat.div_eq_iff hw, Nat.add_mul,
    Nat.one_mul]
  omega

/-- Counting block by block, over any blocks that have all the positions. -/
theorem countIn_eq_sum (hw : 0 < w) {a e : Nat} {t : Finset Nat}
    (ht : ∀ b, a ≤ b → b < e → p (b / w) → b / w ∈ t) :
    countIn p w a e = ∑ i ∈ t, if p i then share w a e i else 0 := by
  have hmaps : ∀ b ∈ (Finset.Ico a e).filter (fun b => p (b / w)), b / w ∈ t := by
    intro b hb
    obtain ⟨hrange, hp⟩ := Finset.mem_filter.mp hb
    exact ht b (Finset.mem_Ico.mp hrange).1 (Finset.mem_Ico.mp hrange).2 hp
  unfold countIn
  rw [Finset.card_eq_sum_card_fiberwise hmaps]
  refine Finset.sum_congr rfl fun i _ => ?_
  rw [Finset.filter_filter]
  by_cases hi : p i
  · have hsame : ((Finset.Ico a e).filter fun b => p (b / w) ∧ b / w = i) =
        (Finset.Ico a e).filter fun b => b / w = i := by
      refine Finset.filter_congr fun b _ => ⟨And.right, fun hb => ⟨hb ▸ hi, hb⟩⟩
    rw [hsame, filter_block hw, Nat.card_Ico, if_pos hi, share]
  · rw [if_neg hi, Finset.card_eq_zero]
    exact Finset.filter_eq_empty_iff.mpr fun b _ hb => hi (hb.2 ▸ hb.1)

theorem countIn_le (w a e : Nat) : countIn p w a e ≤ e - a := by
  unfold countIn
  exact (Finset.card_filter_le _ _).trans_eq (Nat.card_Ico a e)

/-- Blocks one after the other have no more than the range. -/
theorem sum_share_le (hw : 0 < w) (a e : Nat) (t : Finset Nat) :
    (∑ i ∈ t, if p i then share w a e i else 0) ≤ e - a := by
  have hin : ∀ i ∈ t, (if p i then share w a e i else 0) =
      if p i ∧ i ∈ t then share w a e i else 0 :=
    fun i hi => if_congr (and_iff_left hi).symm rfl rfl
  rw [Finset.sum_congr rfl hin, ← countIn_eq_sum (fun i => p i ∧ i ∈ t) hw fun _ _ _ hb => hb.2]
  exact countIn_le _ w a e

theorem countIn_add {a b c : Nat} (hab : a ≤ b) (hbc : b ≤ c) (w : Nat) :
    countIn p w a c = countIn p w a b + countIn p w b c := by
  unfold countIn
  rw [← Finset.Ico_union_Ico_eq_Ico hab hbc, Finset.filter_union, Finset.card_union_of_disjoint]
  exact Finset.disjoint_filter_filter (Finset.Ico_disjoint_Ico_consecutive a b c)

theorem countIn_self (w a : Nat) : countIn p w a a = 0 := by
  rw [countIn, Finset.Ico_self, Finset.filter_empty, Finset.card_empty]

/-- All positions are counted exactly when every block of the range has the property. -/
theorem countIn_eq_iff {w a e : Nat} :
    countIn p w a e = e - a ↔ ∀ b, a ≤ b → b < e → p (b / w) := by
  unfold countIn
  rw [← Nat.card_Ico a e, Finset.card_filter_eq_iff]
  simp only [Finset.mem_Ico, and_imp]

end Stor.Lib
