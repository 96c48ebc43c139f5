import Mathlib.Data.List.Basic

/-!
# Frames

A writer puts every value on a stream as a frame of its own, and a reader takes one
value off at a time.  `Framed` is what has to hold of the two: the reader undoes a
whole frame and leaves what is behind it, and it fails on the front of a frame.  It
follows what reading over and over gives, on a stream of whole frames and on one that
is cut anywhere.
-/

namespace Stor.Lib

variable {σ ε α β : Type*}

/-- What a reader gives until it fails, and its error; it is called `fuel` times at most. -/
def readAll (read : σ → Except ε (α × σ)) : Nat → σ → List α × Option ε
  | 0, _ => ([], none)
  | fuel + 1, s =>
    match read s with
    | .error e => ([], some e)
    | .ok (a, t) => (a :: (readAll read fuel t).1, (readAll read fuel t).2)

/-- The reader undoes `encode` on the values that are `ok`.  What a stream still holds is
`view`. -/
structure Framed (read : σ → Except ε (α × σ)) (view : σ → List β) (encode : α → List β)
    (ok : α → Prop) (eof : ε) : Prop where
  whole : ∀ a, ok a → ∀ s rest, view s = encode a ++ rest →
    ∃ t, read s = .ok (a, t) ∧ view t = rest
  cut : ∀ a, ok a → ∀ s n, n < (encode a).length → view s = (encode a).take n →
    ∃ e, read s = .error e
  ended : ∀ s, view s = [] → read s = .error eof

section
variable {read : σ → Except ε (α × σ)}

theorem readAll_of_error {s : σ} {e : ε} (h : read s = .error e) {fuel : Nat} (hfuel : 0 < fuel) :
    readAll read fuel s = ([], some e) := by
  obtain ⟨fuel, rfl⟩ := Nat.exists_eq_add_of_lt hfuel
  rw [Nat.zero_add, readAll, h]

theorem readAll_of_ok {s t : σ} {a : α} (h : read s = .ok (a, t)) (fuel : Nat) :
    readAll read (fuel + 1) s = (a :: (readAll read fuel t).1, (readAll read fuel t).2) := by
  rw [readAll, h]

/-- Where every value that is read comes with its frame, so does all that is read. -/
theorem readAll_frames {view : σ → List β} {encode : α → List β}
    (hframe : ∀ s a t, read s = .ok (a, t) → view s = encode a ++ view t) (fuel : Nat) (s : σ) :
    ∃ rest, view s = (readAll read fuel s).1.flatMap encode ++ rest := by
  induction fuel generalizing s with
  | zero => exact ⟨view s, rfl⟩
  | succ fuel ih =>
    cases h : read s with
    | error e =>
      rw [readAll_of_error h (Nat.succ_pos fuel)]
      exact ⟨view s, rfl⟩
    | ok p =>
      obtain ⟨rest, hrest⟩ := ih p.2
      refine ⟨rest, ?_⟩
      rw [readAll_of_ok h, List.flatMap_cons, List.append_assoc, ← hrest]
      exact hframe s p.1 p.2 h

end

/-- The place of a cut: behind whole frames, and before the end of the next one. -/
theorem exists_cut (encode : α → List β) {as : List α} {n : Nat}
    (hn : n < (as.flatMap encode).length) :
    ∃ before a after, as = before ++ a :: after ∧ (before.flatMap encode).length ≤ n ∧
      n < (before.flatMap encode).length + (encode a).length := by
  induction as generalizing n with
  | nil => exact absurd hn (Nat.not_lt_zero n)
  | cons a as ih =>
    rw [List.flatMap_cons, List.length_append] at hn
    by_cases hcut : n < (encode a).length
    · refine ⟨[], a, as, rfl, Nat.zero_le n, ?_⟩
      rw [List.flatMap_nil, List.length_nil, Nat.zero_add]
      exact hcut
    · have hrest : n - (encode a).length < (as.flatMap encode).length := by omega
      obtain ⟨before, b, after, rfl, hle, hlt⟩ := ih hrest
      refine ⟨a :: before, b, after, rfl, ?_, ?_⟩
      · rw [List.flatMap_cons, List.length_append]
        omega
      · rw [List.flatMap_cons, List.length_append]
        omega

namespace Framed

variable {read : σ → Except ε (α × σ)} {view : σ → List β} {encode : α → List β}
  {ok : α → Prop} {eof : ε} {as : List α} {s : σ} {fuel : Nat}

/-- The whole frames in front are read, and the reader goes on behind them. -/
theorem readAll_front (h : Framed read view encode ok eof) (hok : ∀ a ∈ as, ok a) {rest : List β}
    (hview : view s = as.flatMap encode ++ rest) :
    ∃ t, view t = rest ∧ ∀ fuel, readAll read (as.length + fuel) s =
      (as ++ (readAll read fuel t).1, (readAll read fuel t).2) := by
  induction as generalizing s with
  | nil =>
    refine ⟨s, hview, fun fuel => ?_⟩
    rw [List.length_nil, Nat.zero_add, List.nil_append]
  | cons a as ih =>
    rw [List.flatMap_cons, List.append_assoc] at hview
    obtain ⟨t, hread, ht⟩ := h.whole a (hok a List.mem_cons_self) s _ hview
    obtain ⟨u, hu, hall⟩ := ih (fun b hb => hok b (List.mem_cons_of_mem a hb)) ht
    refine ⟨u, hu, fun fuel => ?_⟩
    rw [List.length_cons, Nat.add_right_comm, readAll_of_ok hread, hall fuel]
    rfl

theorem readAll_whole (h : Framed read view encode ok eof) (hok : ∀ a ∈ as, ok a)
    (hview : view s = as.flatMap encode) (hfuel : as.length < fuel) :
    readAll read fuel s = (as, some eof) := by
  have hview' : view s = as.flatMap encode ++ [] := by rw [hview, List.append_nil]
  obtain ⟨t, ht, hall⟩ := h.readAll_front hok hview'
  have hend := readAll_of_error (h.ended t ht) (Nat.sub_pos_of_lt hfuel)
  have hread := hall (fuel - as.length)
  rw [Nat.add_sub_cancel' (Nat.le_of_lt hfuel), hend, List.append_nil] at hread
  exact hread

/-- From a stream that is cut the reader gives the values of the whole frames. -/
theorem readAll_cut (h : Framed read view encode ok eof) (hok : ∀ a ∈ as, ok a) {n : Nat}
    (hn : n < (as.flatMap encode).length) (hview : view s = (as.flatMap encode).take n) :
    ∃ before a after, as = before ++ a :: after ∧ (before.flatMap encode).length ≤ n ∧
      n < (before.flatMap encode).length + (encode a).length ∧
      ∃ e, ∀ fuel, as.length < fuel → readAll read fuel s = (before, some e) := by
  obtain ⟨before, a, after, rfl, hle, hlt⟩ := exists_cut encode hn
  refine ⟨before, a, after, rfl, hle, hlt, ?_⟩
  have hcut : n - (before.flatMap encode).length < (encode a).length := by omega
  have hview' : view s = before.flatMap encode ++
      (encode a).take (n - (before.flatMap encode).length) := by
    rw [hview, List.flatMap_append, List.take_append, List.take_of_length_le hle,
      List.flatMap_cons, List.take_append_of_le_length (Nat.le_of_lt hcut)]
  obtain ⟨t, ht, hall⟩ := h.readAll_front (fun b hb => hok b (List.mem_append_left _ hb)) hview'
  obtain ⟨e, he⟩ := h.cut a (hok a (List.mem_append_right _ List.mem_cons_self)) t _ hcut ht
  refine ⟨e, fun fuel hfuel => ?_⟩
  rw [List.length_append, List.length_cons] at hfuel
  have hend := readAll_of_error he (show 0 < fuel - before.length by omega)
  have hread := hall (fuel - before.length)
  rw [Nat.add_sub_cancel' (by omega), hend, List.append_nil] at hread
  exact hread

end Framed
end Stor.Lib
