import Stor.Lib.Decimal

/-!
# Lines of a text

A scanner gives the lines of a text up to one that does not fit into its buffer.  Within a line,
`trimSpace` takes white space off both ends and `cut` splits at a separator.
-/

namespace Stor.Lib

/-! ## Lines -/

/-- The lines, when `line` is in front of the first.  A last line without an end counts unless it
is empty. -/
def splitFrom (line : Bytes) : Bytes → List Bytes
  | [] => if line = [] then [] else [line]
  | b :: bs => if b = 10 then line :: splitFrom [] bs else splitFrom (line ++ [b]) bs

def splitLines (data : Bytes) : List Bytes := splitFrom [] data

/-- The buffer of the scanner. -/
def maxLine : Nat := 64 * 1024

def dropCR (line : Bytes) : Bytes := if line.getLast? = some 13 then line.dropLast else line

/-- The lines up to the first that does not fit into the buffer together with its end. -/
def scanLines (data : Bytes) : List Bytes :=
  ((splitLines data).takeWhile fun line => line.length < maxLine).map dropCR

theorem splitFrom_append {l : Bytes} (h : 10 ∉ l) (line rest : Bytes) :
    splitFrom line (l ++ rest) = splitFrom (line ++ l) rest := by
  induction l generalizing line with
  | nil => rw [List.nil_append, List.append_nil]
  | cons b l ih =>
    obtain ⟨hb, hl⟩ := not_or.mp (List.mem_cons.not.mp h)
    rw [List.cons_append, splitFrom, if_neg (Ne.symm hb), ih hl, List.append_assoc,
      List.singleton_append]

theorem splitLines_flatMap {lines : List Bytes} (h : ∀ l ∈ lines, 10 ∉ l) :
    splitLines (lines.flatMap fun l => l ++ [10]) = lines := by
  induction lines with
  | nil => rfl
  | cons l lines ih =>
    obtain ⟨hl, hlines⟩ := List.forall_mem_cons.mp h
    have hrest := ih hlines
    unfold splitLines at hrest ⊢
    rw [List.flatMap_cons, List.append_assoc, splitFrom_append hl, List.nil_append,
      List.singleton_append, splitFrom, if_pos rfl, hrest]

theorem splitLines_single {l : Bytes} (h : 10 ∉ l) (hne : l ≠ []) : splitLines l = [l] := by
  have hsplit := splitFrom_append h [] []
  rw [List.append_nil, List.nil_append] at hsplit
  rw [splitLines, hsplit, splitFrom, if_neg hne]

theorem dropCR_concat {l : Bytes} {b : UInt8} (hb : b ≠ 13) : dropCR (l ++ [b]) = l ++ [b] := by
  rw [dropCR, List.getLast?_concat, if_neg fun h => hb (Option.some.inj h)]

/-- At most what is behind a byte other than a carriage return is dropped. -/
theorem dropCR_append {b : UInt8} (hb : b ≠ 13) (front back : Bytes) :
    dropCR (front ++ b :: back) = front ++ b :: dropCR back := by
  rcases List.eq_nil_or_concat back with rfl | ⟨back, c, rfl⟩
  · exact dropCR_concat hb
  · rw [List.concat_eq_append, ← List.cons_append, ← List.append_assoc]
    by_cases hc : c = 13
    · rw [hc, dropCR, dropCR, List.getLast?_concat, List.getLast?_concat, if_pos rfl, if_pos rfl,
        List.dropLast_concat, List.dropLast_concat]
    · rw [dropCR_concat hc, dropCR_concat hc, List.append_assoc, List.cons_append]

/-! ## White space -/

/-- The white space of Unicode. -/
def spaces : List Bytes :=
  [[9], [10], [11], [12], [13], [32], [0xC2, 0x85], [0xC2, 0xA0], [0xE1, 0x9A, 0x80],
    [0xE2, 0x80, 0x80], [0xE2, 0x80, 0x81], [0xE2, 0x80, 0x82], [0xE2, 0x80, 0x83],
    [0xE2, 0x80, 0x84], [0xE2, 0x80, 0x85], [0xE2, 0x80, 0x86], [0xE2, 0x80, 0x87],
    [0xE2, 0x80, 0x88], [0xE2, 0x80, 0x89], [0xE2, 0x80, 0x8A], [0xE2, 0x80, 0xA8],
    [0xE2, 0x80, 0xA9], [0xE2, 0x80, 0xAF], [0xE2, 0x81, 0x9F], [0xE3, 0x80, 0x80]]

/-- Without the parts in front, at most `fuel` of them. -/
def trimFront (parts : List Bytes) : Nat → Bytes → Bytes
  | 0, s => s
  | fuel + 1, s =>
    match parts.find? fun p => p.isPrefixOf s with
    | none => s
    | some p => trimFront parts fuel (s.drop p.length)

def trimLeft (s : Bytes) : Bytes := trimFront spaces s.length s

def trimRight (s : Bytes) : Bytes :=
  (trimFront (spaces.map List.reverse) s.length s.reverse).reverse

def trimSpace (s : Bytes) : Bytes := trimRight (trimLeft s)

/-- A byte that is part of no white space. -/
def Solid (b : UInt8) : Prop := ∀ p ∈ spaces, b ∉ p

instance (b : UInt8) : Decidable (Solid b) := inferInstanceAs (Decidable (∀ p ∈ spaces, b ∉ p))

theorem length_le_of_prefix {b : UInt8} {p front back : Bytes} (hb : b ∉ p)
    (h : p <+: front ++ b :: back) : p.length ≤ front.length := by
  obtain ⟨rest, hrest⟩ := h
  rcases List.append_eq_append_iff.mp hrest with ⟨xs, hfront, -⟩ | ⟨xs, hp, hback⟩
  · rw [hfront, List.length_append]
    exact Nat.le_add_right _ _
  · cases xs with
    | nil => rw [hp, List.append_nil]
    | cons x xs =>
      refine absurd ?_ hb
      rw [hp, (List.cons.inj hback).1]
      exact List.mem_append_right _ List.mem_cons_self

section
variable {parts : List Bytes} {b : UInt8} (hparts : ∀ p ∈ parts, b ∉ p)

include hparts

/-- Nothing is taken from a byte that is in none of the parts on. -/
theorem trimFront_keeps (fuel : Nat) (front back : Bytes) :
    ∃ front', front' <:+ front ∧
      trimFront parts fuel (front ++ b :: back) = front' ++ b :: back := by
  induction fuel generalizing front with
  | zero => exact ⟨front, List.suffix_refl front, rfl⟩
  | succ fuel ih =>
    rw [trimFront]
    cases hfind : parts.find? fun p => p.isPrefixOf (front ++ b :: back) with
    | none => exact ⟨front, List.suffix_refl front, rfl⟩
    | some p =>
      have hmem := hparts p (List.mem_of_find?_eq_some hfind)
      have hprefix : p.isPrefixOf (front ++ b :: back) = true := List.find?_some (p := fun p =>
        List.isPrefixOf p (front ++ b :: back)) hfind
      have hle := length_le_of_prefix hmem (List.isPrefixOf_iff_prefix.mp hprefix)
      obtain ⟨front', hsuffix, htrim⟩ := ih (front.drop p.length)
      refine ⟨front', hsuffix.trans (List.drop_suffix _ _), ?_⟩
      dsimp only
      rw [List.drop_append_of_le_length hle, htrim]

theorem trimFront_cons (fuel : Nat) (back : Bytes) :
    trimFront parts fuel (b :: back) = b :: back := by
  obtain ⟨front', hsuffix, htrim⟩ := trimFront_keeps hparts fuel [] back
  rw [List.suffix_nil.mp hsuffix] at htrim
  exact htrim

end

section
variable {b : UInt8} (hb : Solid b)

include hb

theorem trimLeft_cons (s : Bytes) : trimLeft (b :: s) = b :: s := trimFront_cons hb _ s

theorem trimLeft_space (s : Bytes) : trimLeft (32 :: b :: s) = b :: s := by
  have hfind : spaces.find? (fun p => p.isPrefixOf (32 :: b :: s)) = some [32] := rfl
  rw [trimLeft, List.length_cons, trimFront, hfind]
  exact trimFront_cons hb _ s

theorem Solid.reverse : ∀ p ∈ spaces.map List.reverse, b ∉ p := by
  intro p hp
  obtain ⟨q, hq, rfl⟩ := List.mem_map.mp hp
  rw [List.mem_reverse]
  exact hb q hq

/-- Only what is behind a byte that is part of no white space is taken off. -/
theorem trimRight_keeps (front back : Bytes) :
    ∃ back', back' <+: back ∧ trimRight (front ++ b :: back) = front ++ b :: back' := by
  obtain ⟨rest, hsuffix, htrim⟩ :=
    trimFront_keeps hb.reverse (front ++ b :: back).length back.reverse front.reverse
  refine ⟨rest.reverse, List.reverse_suffix.mp (by rwa [List.reverse_reverse]), ?_⟩
  have hreverse : (front ++ b :: back).reverse = back.reverse ++ b :: front.reverse := by
    rw [List.reverse_append, List.reverse_cons, List.append_assoc, List.singleton_append]
  rw [trimRight, hreverse, htrim, List.reverse_append, List.reverse_cons, List.reverse_reverse,
    List.append_assoc, List.singleton_append]

theorem trimRight_concat (s : Bytes) : trimRight (s ++ [b]) = s ++ [b] := by
  obtain ⟨back, hprefix, htrim⟩ := trimRight_keeps hb s []
  rw [List.prefix_nil.mp hprefix] at htrim
  exact htrim

end

theorem trimRight_space {b : UInt8} (hb : Solid b) (s : Bytes) :
    trimRight (s ++ [b] ++ [32]) = s ++ [b] := by
  have hfind : (spaces.map List.reverse).find? (fun p => p.isPrefixOf (32 :: b :: s.reverse)) =
      some [32] := rfl
  rw [trimRight, List.reverse_append, List.reverse_append, List.reverse_singleton,
    List.reverse_singleton, List.length_append, List.length_singleton, List.singleton_append,
    List.singleton_append, trimFront, hfind]
  dsimp only
  rw [List.length_singleton, List.drop_one, List.tail_cons, trimFront_cons hb.reverse,
    List.reverse_cons, List.reverse_reverse]

theorem solid_of_range {b : UInt8} (hlo : 32 < b.toNat) (hhi : b.toNat < 128) : Solid b := by
  have hall : (spaces.all fun p => p.all fun c =>
      decide (c.toNat ≤ 32 ∨ 128 ≤ c.toNat)) = true := by decide
  intro p hp hmem
  have hspace := of_decide_eq_true (List.all_eq_true.mp (List.all_eq_true.mp hall p hp) b hmem)
  omega

section
variable {s : Bytes} {b b' : UInt8} (hhead : s.head? = some b) (hlast : s.getLast? = some b')
  (hb : Solid b) (hb' : Solid b')

include hhead hlast hb hb'

theorem trimSpace_of_ends : trimSpace s = s := by
  obtain ⟨front, rfl⟩ := List.getLast?_eq_some_iff.mp hlast
  obtain ⟨back, hs⟩ := List.head?_eq_some_iff.mp hhead
  rw [trimSpace, hs, trimLeft_cons hb, ← hs, trimRight_concat hb']

theorem trimSpace_space : trimSpace (32 :: s) = s := by
  obtain ⟨front, rfl⟩ := List.getLast?_eq_some_iff.mp hlast
  obtain ⟨back, hs⟩ := List.head?_eq_some_iff.mp hhead
  rw [trimSpace, hs, trimLeft_space hb, ← hs, trimRight_concat hb']

theorem trimSpace_behind : trimSpace (s ++ [32]) = s := by
  obtain ⟨front, rfl⟩ := List.getLast?_eq_some_iff.mp hlast
  obtain ⟨back, hs⟩ := List.head?_eq_some_iff.mp hhead
  rw [trimSpace, hs, List.cons_append, trimLeft_cons hb, ← List.cons_append, ← hs,
    trimRight_space hb']

end

section
variable {front : Bytes} {a b : UInt8} (hhead : front.head? = some a) (ha : Solid a)
  (hb : Solid b) (back : Bytes)

include hhead ha hb

/-- Of a text that starts with no white space, only what is behind `b` is taken off. -/
theorem trimSpace_keeps : ∃ back', trimSpace (front ++ b :: back) = front ++ b :: back' := by
  obtain ⟨rest, rfl⟩ := List.head?_eq_some_iff.mp hhead
  obtain ⟨back', -, htrim⟩ := trimRight_keeps hb (a :: rest) back
  refine ⟨back', ?_⟩
  rw [trimSpace, List.cons_append, trimLeft_cons ha, ← List.cons_append, htrim]

theorem trimSpace_space_keeps :
    ∃ back', trimSpace (32 :: (front ++ b :: back)) = front ++ b :: back' := by
  obtain ⟨rest, rfl⟩ := List.head?_eq_some_iff.mp hhead
  obtain ⟨back', -, htrim⟩ := trimRight_keeps hb (a :: rest) back
  refine ⟨back', ?_⟩
  rw [trimSpace, List.cons_append, trimLeft_space ha, ← List.cons_append, htrim]

end

/-! ## Separators -/

/-- The parts around the first separator. -/
def cut (sep : UInt8) : Bytes → Option (Bytes × Bytes)
  | [] => none
  | b :: bs => if b = sep then some ([], bs) else (cut sep bs).map fun p => (b :: p.1, p.2)

theorem cut_append {sep : UInt8} {before : Bytes} (h : sep ∉ before) (after : Bytes) :
    cut sep (before ++ sep :: after) = some (before, after) := by
  induction before with
  | nil => rw [List.nil_append, cut, if_pos rfl]
  | cons b before ih =>
    obtain ⟨hb, hbefore⟩ := not_or.mp (List.mem_cons.not.mp h)
    rw [List.cons_append, cut, if_neg (Ne.symm hb), ih hbefore, Option.map_some]

end Stor.Lib
