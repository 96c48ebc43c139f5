import Mathlib.Algebra.Group.Defs
import Mathlib.Data.List.Basic

/-!
# Blocks of a sequence

What a file system does to the contents of a file: `slice` is what a positioned
read returns, `resize` is truncation with zero fill, and `overwrite` is a
positioned write.  Two sequences are compared position by position through
`getElem?`, so each operation has one lemma that says what it leaves at a
position.
-/

namespace Stor.Lib

variable {α : Type*}

/-- The `n` elements from position `off` on, fewer at the end. -/
def slice (off n : Nat) (xs : List α) : List α := (xs.drop off).take n

theorem slice_length (off n : Nat) (xs : List α) :
    (slice off n xs).length = min n (xs.length - off) := by
  rw [slice, List.length_take, List.length_drop]

theorem slice_length_of_le {off n : Nat} {xs : List α} (h : off + n ≤ xs.length) :
    (slice off n xs).length = n := by
  rw [slice_length]
  omega

theorem slice_getElem? (off n : Nat) (xs : List α) (p : Nat) :
    (slice off n xs)[p]? = if p < n then xs[off + p]? else none := by
  rw [slice, List.getElem?_take]
  by_cases hp : p < n
  · rw [if_pos hp, if_pos hp, List.getElem?_drop]
  · rw [if_neg hp, if_neg hp]

theorem slice_append_left {n : Nat} {xs : List α} (h : xs.length = n) (ys : List α) :
    slice 0 n (xs ++ ys) = xs := by
  rw [slice, List.drop_zero, List.take_left' h]

theorem slice_append_right {k : Nat} {xs : List α} (h : xs.length = k) (off n : Nat) (ys : List α) :
    slice (k + off) n (xs ++ ys) = slice off n ys := by
  rw [slice, ← List.drop_drop, List.drop_left' h, slice]

theorem slice_slice {off n off' n' : Nat} (h : off' + n' ≤ n) (xs : List α) :
    slice off' n' (slice off n xs) = slice (off + off') n' xs := by
  rw [slice, slice, List.drop_take, List.drop_drop, List.take_take, Nat.min_eq_left (by omega),
    slice]

/-- What a shorter sequence has all of, the longer one has. -/
theorem slice_take {off n m : Nat} {xs : List α} (h : (slice off n (xs.take m)).length = n) :
    slice off n (xs.take m) = slice off n xs := by
  rw [slice_length, List.length_take] at h
  rw [slice, List.drop_take, List.take_take, Nat.min_eq_left (by omega), slice]

/-- What fits of a sequence into two blocks, one behind the other. -/
theorem take_add_min (xs : List α) (m n : Nat) :
    xs.take (m + n) = xs.take (min m xs.length) ++ (xs.drop (min m xs.length)).take n := by
  rcases Nat.le_total m xs.length with h | h
  · rw [Nat.min_eq_left h, List.take_add]
  · rw [Nat.min_eq_right h, List.drop_length, List.take_nil, List.append_nil, List.take_length,
      List.take_of_length_le (by omega)]

/-- In a list of which `before` has been seen, `x` is next. -/
theorem walk_next {xs before after : List α} {x : α} (h : xs = before ++ x :: after) :
    xs[before.length]? = some x ∧ xs = (before ++ [x]) ++ after ∧
      (before ++ [x]).length = before.length + 1 := by
  subst h
  refine ⟨?_, ?_, ?_⟩
  · rw [List.getElem?_append_right (Nat.le_refl _), Nat.sub_self, List.getElem?_cons_zero]
  · rw [List.append_assoc, List.singleton_append]
  · rw [List.length_append, List.length_singleton]

section Records

variable {β γ : Type*} {f : β → List α} {w : Nat} {xs : List β}

theorem length_flatMap_records (hw : ∀ x ∈ xs, (f x).length = w) :
    (xs.flatMap f).length = xs.length * w := by
  induction xs with
  | nil => rw [List.flatMap_nil, List.length_nil, List.length_nil, Nat.zero_mul]
  | cons x xs ih =>
    rw [List.flatMap_cons, List.length_append, hw x List.mem_cons_self,
      ih fun y hy => hw y (List.mem_cons_of_mem x hy), List.length_cons, Nat.succ_mul,
      Nat.add_comm]

/-- Records of one width, read one by one. -/
theorem map_slice_flatMap (hw : ∀ x ∈ xs, (f x).length = w) (read : List α → γ) :
    (List.range xs.length).map (fun i => read (slice (i * w) w (xs.flatMap f))) =
      xs.map fun x => read (f x) := by
  induction xs with
  | nil => rfl
  | cons x xs ih =>
    have hx := hw x List.mem_cons_self
    rw [List.length_cons, List.range_succ_eq_map, List.map_cons, List.map_map, List.map_cons,
      List.flatMap_cons, Nat.zero_mul, slice_append_left hx,
      ← ih fun y hy => hw y (List.mem_cons_of_mem x hy)]
    refine congrArg _ (List.map_congr_left fun i _ => ?_)
    rw [Function.comp_apply, Nat.succ_mul, Nat.add_comm, slice_append_right hx]

end Records

section Fill

variable [Zero α]

/-- Exactly `n` elements: cut at `n`, or filled up with zeros. -/
def resize (n : Nat) (xs : List α) : List α := xs.take n ++ List.replicate (n - xs.length) 0

/-- Write `data` at position `off`.  A write behind the end fills the gap with
zeros, and a write of nothing leaves the sequence alone. -/
def overwrite (off : Nat) (data xs : List α) : List α :=
  if data = [] then xs else resize off xs ++ data ++ xs.drop (off + data.length)

@[simp]
theorem resize_length (n : Nat) (xs : List α) : (resize n xs).length = n := by
  rw [resize, List.length_append, List.length_take, List.length_replicate]
  omega

theorem resize_of_length {n : Nat} {xs : List α} (h : xs.length = n) : resize n xs = xs := by
  subst h
  simp [resize]

theorem resize_getElem? (n : Nat) (xs : List α) (p : Nat) :
    (resize n xs)[p]? = if p < n then some (xs[p]?.getD 0) else none := by
  by_cases hp : p < n
  · rw [if_pos hp, resize]
    by_cases hx : p < xs.length
    · rw [List.getElem?_append_left (by rw [List.length_take]; omega), List.getElem?_take,
        if_pos hp, List.getElem?_eq_getElem hx]
      rfl
    · rw [List.getElem?_append_right (by rw [List.length_take]; omega), List.getElem?_replicate,
        List.length_take, if_pos (by omega), List.getElem?_eq_none (by omega)]
      rfl
  · rw [if_neg hp]
    exact List.getElem?_eq_none (by rw [resize_length]; omega)

theorem overwrite_nil (off : Nat) (xs : List α) : overwrite off [] xs = xs := by
  rw [overwrite, if_pos rfl]

theorem overwrite_zero (data xs : List α) : overwrite 0 data xs = data ++ xs.drop data.length := by
  rw [overwrite]
  split
  · next hd => rw [hd, List.length_nil, List.drop_zero, List.nil_append]
  · rw [resize, List.take_zero, Nat.zero_sub, List.replicate_zero, List.append_nil,
      List.nil_append, Nat.zero_add]

theorem overwrite_length_of_le {off : Nat} {data xs : List α}
    (h : off + data.length ≤ xs.length) : (overwrite off data xs).length = xs.length := by
  rw [overwrite]
  split
  · rfl
  · rw [List.length_append, List.length_append, resize_length, List.length_drop]
    omega

/-- What a write inside the sequence leaves at a position: the written element
inside the block, the old one outside. -/
theorem overwrite_getElem? {off : Nat} {data xs : List α} (h : off + data.length ≤ xs.length)
    (p : Nat) :
    (overwrite off data xs)[p]? =
      if off ≤ p ∧ p < off + data.length then data[p - off]? else xs[p]? := by
  rw [overwrite]
  split
  · next hd => rw [if_neg (by rw [hd, List.length_nil]; omega)]
  · rw [List.append_assoc]
    rcases Nat.lt_or_ge p off with hlt | hge
    · rw [if_neg (by omega), List.getElem?_append_left (by rw [resize_length]; exact hlt),
        resize_getElem?, if_pos hlt, List.getElem?_eq_getElem (by omega)]
      rfl
    · rw [List.getElem?_append_right (by rw [resize_length]; exact hge), resize_length]
      by_cases hin : p < off + data.length
      · rw [if_pos ⟨hge, hin⟩, List.getElem?_append_left (by omega)]
      · rw [if_neg (by omega), List.getElem?_append_right (by omega), List.getElem?_drop]
        congr 1
        omega

/-- A write behind the first of two sequences. -/
theorem overwrite_append_right {off : Nat} {data xs ys : List α} (hoff : xs.length ≤ off)
    (h : off + data.length ≤ xs.length + ys.length) :
    overwrite off data (xs ++ ys) = xs ++ overwrite (off - xs.length) data ys := by
  refine List.ext_getElem? fun p => ?_
  rw [overwrite_getElem? (by rw [List.length_append]; exact h)]
  by_cases hp : p < xs.length
  · rw [if_neg (by omega), List.getElem?_append_left hp, List.getElem?_append_left hp]
  · rw [List.getElem?_append_right (by omega), List.getElem?_append_right (by omega),
      overwrite_getElem? (by omega)]
    by_cases hin : off ≤ p ∧ p < off + data.length
    · rw [if_pos hin, if_pos (by omega)]
      congr 1
      omega
    · rw [if_neg hin, if_neg (by omega)]

/-- The front of the buffer is filled, and the next bytes come behind it. -/
theorem overwrite_front {front data : List α} {n : Nat} (h : data.length ≤ n) :
    overwrite front.length data (front ++ List.replicate n 0) =
      front ++ data ++ List.replicate (n - data.length) 0 := by
  rw [overwrite_append_right (Nat.le_refl _) (by rw [List.length_replicate]; omega), Nat.sub_self,
    overwrite_zero, List.drop_replicate, List.append_assoc]

/-- A write that starts in the first of two sequences, and leaves the second what is
left of the block. -/
theorem overwrite_append_left {off : Nat} {data xs ys : List α} (hoff : off ≤ xs.length)
    (h : off + data.length ≤ xs.length + ys.length) :
    overwrite off data (xs ++ ys) =
      overwrite off (data.take (xs.length - off)) xs ++
        overwrite 0 (data.drop (xs.length - off)) ys := by
  have htake : (data.take (xs.length - off)).length = min (xs.length - off) data.length :=
    List.length_take
  have hdrop : (data.drop (xs.length - off)).length = data.length - (xs.length - off) :=
    List.length_drop
  have hfirst : off + (data.take (xs.length - off)).length ≤ xs.length := by omega
  have hlen := overwrite_length_of_le hfirst
  refine List.ext_getElem? fun p => ?_
  rw [overwrite_getElem? (by rw [List.length_append]; exact h)]
  by_cases hp : p < xs.length
  · rw [List.getElem?_append_left hp, List.getElem?_append_left (by omega),
      overwrite_getElem? hfirst]
    by_cases hin : off ≤ p ∧ p < off + data.length
    · rw [if_pos hin, if_pos (by omega), List.getElem?_take, if_pos (by omega)]
    · rw [if_neg hin, if_neg (by omega)]
  · rw [List.getElem?_append_right (by omega), List.getElem?_append_right (by omega), hlen,
      overwrite_getElem? (by omega)]
    by_cases hin : off ≤ p ∧ p < off + data.length
    · rw [if_pos hin, if_pos (by omega), List.getElem?_drop]
      congr 1
      omega
    · rw [if_neg hin, if_neg (by omega)]

end Fill

end Stor.Lib
