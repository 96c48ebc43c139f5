import Stor.Engine.FileProgress

/-!
# Which pieces are skipped

`ComputeSkippedPieceMask` against what it is for: a piece is skipped when each of its bytes is
in a file that is skipped.  The loop looks for a wanted file that overlaps the piece, and by its
test an empty file between two bytes of the piece overlaps it.  `skippedPiece_iff` says what the
loop decides with such files, and `skipMask_iff` that without them it is the bytes alone.
-/

namespace Stor.Engine

open Lib Bencode Torrent Peer Storage

/-- The byte is in a file that is skipped. -/
def SkippedByte (files : List File) (priorities : List Int) (b : Nat) : Prop :=
  ∃ k f, files[k]? = some f ∧ startOf files k ≤ b ∧ b < startOf files k + f.length.toNat ∧
    priorities[k]? = some prioritySkip

section Ranges

variable {files : List File} {priorities : List Int}

theorem fileRanges_length (files : List File) (priorities : List Int) (o : Int) :
    (fileRanges files priorities o).length = files.length := by
  induction files generalizing priorities o with
  | nil => rfl
  | cons f files ih => rw [fileRanges, List.length_cons, ih, List.length_cons]

theorem fileRanges_getElem? {o k : Nat} {f : File} (hnonneg : ∀ f ∈ files, 0 ≤ f.length)
    (hsize : o + (files.map fun f => f.length.toNat).sum < 2 ^ 63) (hk : files[k]? = some f) :
    (fileRanges files priorities o)[k]? =
      some ⟨(o + startOf files k : Nat), (o + startOf files k + f.length.toNat : Nat),
        priorities[k]? == some prioritySkip⟩ := by
  induction files generalizing o k priorities with
  | nil => exact absurd hk (by simp)
  | cons g files ih =>
    obtain ⟨hg, hfiles⟩ := List.forall_mem_cons.mp hnonneg
    rw [List.map_cons, List.sum_cons] at hsize
    rw [fileRanges, wrap64_add_toNat hg (by omega)]
    cases k with
    | zero =>
      rw [List.getElem?_cons_zero, Option.some_inj] at hk
      rw [List.getElem?_cons_zero, hk, List.head?_eq_getElem?]
      rfl
    | succ k =>
      rw [List.getElem?_cons_succ] at hk ⊢
      rw [ih hfiles (by omega) hk, startOf_cons, List.getElem?_tail, Nat.add_assoc o]

/-- Every byte is in a file. -/
theorem exists_file_of_lt {b : Nat} (hb : b < (files.map fun f => f.length.toNat).sum) :
    ∃ k f, files[k]? = some f ∧ startOf files k ≤ b ∧ b < startOf files k + f.length.toNat := by
  induction files generalizing b with
  | nil => exact absurd hb (Nat.not_lt_zero b)
  | cons f files ih =>
    rw [List.map_cons, List.sum_cons] at hb
    by_cases hfirst : b < f.length.toNat
    · refine ⟨0, f, rfl, Nat.zero_le b, ?_⟩
      rwa [startOf, List.take_zero, List.map_nil, List.sum_nil, Nat.zero_add]
    · obtain ⟨k, g, hk, hlo, hhi⟩ := ih (b := b - f.length.toNat) (by omega)
      refine ⟨k + 1, g, hk, ?_, ?_⟩ <;> rw [startOf_cons] <;> omega

theorem startOf_add_le_startOf {k j : Nat} {f : File} (hk : files[k]? = some f) (hkj : k < j) :
    startOf files k + f.length.toNat ≤ startOf files j := by
  have hin : (files.take j)[k]? = some f := by rw [List.getElem?_take_of_lt hkj, hk]
  have hle := startOf_add_le hin
  rwa [startOf, List.take_take, Nat.min_eq_left (Nat.le_of_lt hkj), ← startOf] at hle

/-- And in one file only. -/
theorem file_unique {k j : Nat} {f g : File} {b : Nat} (hk : files[k]? = some f)
    (hj : files[j]? = some g) (hklo : startOf files k ≤ b)
    (hkhi : b < startOf files k + f.length.toNat) (hjlo : startOf files j ≤ b)
    (hjhi : b < startOf files j + g.length.toNat) : k = j := by
  rcases Nat.lt_trichotomy k j with hlt | heq | hgt
  · have hle := startOf_add_le_startOf hk hlt
    omega
  · exact heq
  · have hle := startOf_add_le_startOf hj hgt
    omega

theorem overlaps_iff {r : FileRange} {s e : Int} :
    (!(decide (r.stop ≤ s) || decide (r.start ≥ e))) = true ↔ s < r.stop ∧ r.start < e := by
  simp

end Ranges

section Piece

variable {files : List File} {priorities : List Int} {w total i : Nat}
  (hnonneg : ∀ f ∈ files, 0 ≤ f.length)
  (htotal : (files.map fun f => f.length.toNat).sum = total) (hsize : total < 2 ^ 63)
  (hround : RoundFits w total) (hi : i * w < total)

include hnonneg htotal hsize hround hi

/-- What the loop decides: all files that overlap the piece are skipped, the empty ones between
two of its bytes among them. -/
theorem skippedPiece_iff (hw : 0 < w) :
    skippedPiece (fileRanges files priorities 0) w total i = true ↔
      ∀ k f, files[k]? = some f → i * w < startOf files k + f.length.toNat →
        startOf files k < min ((i + 1) * w) total → priorities[k]? = some prioritySkip := by
  have hnext : (i + 1) * w = i * w + w := by rw [Nat.add_mul, Nat.one_mul]
  have hend := hround i hi
  have hstart : wrap64 ((i : Int) * w) = ((i * w : Nat) : Int) := by
    rw [← Int.natCast_mul]
    exact wrap64_of_range (by omega) (by omega)
  have hsum : 0 + (files.map fun f => f.length.toNat).sum < 2 ^ 63 := by omega
  have hget : ∀ {k : Nat} {f : File}, files[k]? = some f → (fileRanges files priorities 0)[k]? =
      some ⟨(0 + startOf files k : Nat), (0 + startOf files k + f.length.toNat : Nat),
        priorities[k]? == some prioritySkip⟩ :=
    fun hk => fileRanges_getElem? hnonneg hsum hk
  have hmin : min (((i * w : Nat) : Int) + w) total = ((min ((i + 1) * w) total : Nat) : Int) := by
    omega
  unfold skippedPiece
  dsimp only
  rw [hstart, wrap64_of_range (by omega) (by omega), hmin, Bool.and_eq_true, Bool.and_eq_true,
    decide_eq_true_eq, List.all_eq_true]
  generalize hs : i * w = s at *
  generalize he : min ((i + 1) * w) total = e at *
  constructor
  · rintro ⟨-, hall⟩ k f hk hlo hhi
    have hmem := List.mem_of_getElem? (hget hk)
    have hskip := hall _ (List.mem_filter.mpr ⟨hmem, overlaps_iff.mpr ⟨by dsimp only; omega,
      by dsimp only; omega⟩⟩)
    exact beq_iff_eq.mp hskip
  · intro h
    -- the first byte of the piece is in some file
    have hfirst : s < (files.map fun f => f.length.toNat).sum := by omega
    obtain ⟨k, f, hk, hlo, hhi⟩ := exists_file_of_lt hfirst
    refine ⟨⟨by omega, ?_⟩, fun r hr => ?_⟩
    · rw [Bool.not_eq_true', List.isEmpty_eq_false_iff]
      exact List.ne_nil_of_mem (List.mem_filter.mpr ⟨List.mem_of_getElem? (hget hk),
        overlaps_iff.mpr ⟨by dsimp only; omega, by dsimp only; omega⟩⟩)
    · obtain ⟨hmem, hover⟩ := List.mem_filter.mp hr
      obtain ⟨j, hj⟩ := List.mem_iff_getElem?.mp hmem
      have hlt := (List.getElem?_eq_some_iff.mp hj).1
      rw [fileRanges_length] at hlt
      have hfile := List.getElem?_eq_getElem hlt
      have hr' := (hget hfile).symm.trans hj
      rw [← Option.some.inj hr'] at hover ⊢
      obtain ⟨hstop, hbegin⟩ := overlaps_iff.mp hover
      dsimp only at hstop hbegin
      exact beq_iff_eq.mpr (h j _ hfile (by omega) (by omega))

/-- Where an empty file that is wanted starts with a piece, only the bytes count. -/
theorem skippedPiece_iff_bytes (hw : 0 < w)
    (hempty : ∀ k f, files[k]? = some f → f.length = 0 → startOf files k < total →
      priorities[k]? = some prioritySkip ∨ w ∣ startOf files k) :
    skippedPiece (fileRanges files priorities 0) w total i = true ↔
      ∀ b, i * w ≤ b → b < min ((i + 1) * w) total → SkippedByte files priorities b := by
  rw [skippedPiece_iff hnonneg htotal hsize hround hi hw]
  constructor
  · intro h b hlo hhi
    have hb : b < (files.map fun f => f.length.toNat).sum := by omega
    obtain ⟨k, f, hk, hklo, hkhi⟩ := exists_file_of_lt hb
    exact ⟨k, f, hk, hklo, hkhi, h k f hk (by omega) (by omega)⟩
  · intro h k f hk hlo hhi
    by_cases hzero : f.length.toNat = 0
    · -- an empty file strictly inside the piece does not start with one
      have hf := hnonneg f (List.mem_of_getElem? hk)
      rcases hempty k f hk (by omega) (by omega) with hskip | ⟨m, hm⟩
      · exact hskip
      · exfalso
        rw [hzero, Nat.add_zero, hm, Nat.mul_comm w m] at hlo
        rw [hm, Nat.mul_comm w m] at hhi
        have hlow := Nat.lt_of_mul_lt_mul_right hlo
        have hhigh := Nat.lt_of_mul_lt_mul_right (Nat.lt_of_lt_of_le hhi (Nat.min_le_left _ _))
        omega
    · obtain ⟨j, g, hj, hjlo, hjhi, hskip⟩ :=
        h (max (i * w) (startOf files k)) (by omega) (by rw [Nat.add_mul, Nat.one_mul] at *; omega)
      rwa [file_unique hk hj (by omega) (by omega) hjlo hjhi]

end Piece

end Stor.Engine
