import Mathlib.Data.List.Infix
import Mathlib.Logic.Function.Basic
import Stor.Lib.Block

/-!
# A tree of files

A disk maps the components of a path from the root to what is there.  The
operations are those of a POSIX system without links: opening creates an empty
file, truncation fills with zeros, renaming replaces the target, and removing
takes everything below away.  An operation that can be refused returns an
`Option`.  A file is written through a handle, so `truncate` and `writeAt` on a
name that is gone change nothing.

The root itself is always a directory.
-/

namespace Stor.Lib

variable {κ α : Type*}

inductive Node (α : Type*) where
  | dir
  | file (data : List α)
  deriving DecidableEq, Repr

abbrev Disk (κ α : Type*) := List κ → Option (Node α)

namespace Disk

/-- The contents of a file. -/
def read (d : Disk κ α) (k : List κ) : Option (List α) :=
  match d k with
  | some (.file data) => some data
  | _ => none

theorem read_eq_some {d : Disk κ α} {k : List κ} {data : List α} :
    d.read k = some data ↔ d k = some (.file data) := by
  unfold read
  split <;> simp_all

def isDir (d : Disk κ α) (k : List κ) : Bool :=
  match k, d k with
  | [], _ => true
  | _, some .dir => true
  | _, _ => false

/-- `stat` finds something. -/
def stat (d : Disk κ α) (k : List κ) : Bool := (d k).isSome || k.isEmpty

theorem read_of_not_stat {d : Disk κ α} {k : List κ} (h : ¬ d.stat k = true) : d.read k = none := by
  unfold stat at h
  rw [Bool.or_eq_true, not_or, Option.not_isSome_iff_eq_none] at h
  unfold read
  rw [h.1]

variable [DecidableEq κ]

def setFile (d : Disk κ α) (k : List κ) (data : List α) : Disk κ α :=
  Function.update d k (some (.file data))

/-- Create a directory with all its parents, unless one of them is a file. -/
def mkdirAll (d : Disk κ α) (k : List κ) : Option (Disk κ α) :=
  if k.inits.any fun p => (d.read p).isSome then none
  else some fun q => if q ≠ [] ∧ q <+: k then some .dir else d q

/-- Open for writing, and create an empty file where there is none. -/
def openCreate (d : Disk κ α) (k : List κ) : Option (Disk κ α) :=
  match d k with
  | some (.file _) => some d
  | some .dir => none
  | none => if k ≠ [] ∧ d.isDir k.dropLast then some (d.setFile k []) else none

section Write

variable [Zero α]

def truncate (d : Disk κ α) (k : List κ) (n : Nat) : Disk κ α :=
  match d.read k with
  | some data => d.setFile k (resize n data)
  | none => d

def writeAt (d : Disk κ α) (k : List κ) (off : Nat) (block : List α) : Disk κ α :=
  match d.read k with
  | some data => d.setFile k (overwrite off block data)
  | none => d

end Write

/-- What is at `src` goes to `dst`, whose place nothing but a file may hold; a
directory does not replace a file. -/
def rename (d : Disk κ α) (src dst : List κ) : Option (Disk κ α) :=
  if d src = none then none
  else if src = dst then some d
  else if d.isDir dst ∨ ¬ d.isDir dst.dropLast ∨ src <+: dst ∨ (d.isDir src ∧ d dst ≠ none) then none
  else some fun k =>
    if dst <+: k then d (src ++ k.drop dst.length)
    else if src <+: k then none
    else d k

/-- Remove a name and everything below it. -/
def removeAll (d : Disk κ α) (k : List κ) : Disk κ α := fun q => if k <+: q then none else d q

/-! ## What the operations leave in the files -/

@[simp]
theorem read_setFile_self (d : Disk κ α) (k : List κ) (data : List α) :
    (d.setFile k data).read k = some data :=
  read_eq_some.mpr (Function.update_self ..)

theorem read_setFile_of_ne (d : Disk κ α) {k q : List κ} (hne : q ≠ k) (data : List α) :
    (d.setFile k data).read q = d.read q := by
  unfold read setFile
  rw [Function.update_of_ne hne]

/-- A new directory is no file, and it takes the place of none. -/
theorem read_mkdirAll {d d' : Disk κ α} {k : List κ} (h : d.mkdirAll k = some d') :
    d'.read = d.read := by
  unfold mkdirAll at h
  rw [Option.ite_none_left_eq_some, Option.some_inj] at h
  obtain ⟨hfree, rfl⟩ := h
  funext q
  by_cases hq : q ≠ [] ∧ q <+: k
  · have hnone : d.read q = none := by
      rw [← Option.not_isSome_iff_eq_none]
      intro hsome
      exact hfree (List.any_eq_true.mpr ⟨q, (List.mem_inits q k).mpr hq.2, hsome⟩)
    rw [hnone]
    unfold read
    simp only [if_pos hq]
  · unfold read
    simp only [if_neg hq]

theorem read_openCreate_self {d d' : Disk κ α} {k : List κ} (h : d.openCreate k = some d') :
    d'.read k = some ((d.read k).getD []) := by
  unfold openCreate at h
  split at h
  · next data hk =>
    rw [← Option.some_inj.mp h, read_eq_some.mpr hk]
    rfl
  · exact absurd h nofun
  · next hk =>
    rw [Option.ite_none_right_eq_some, Option.some_inj] at h
    have hnone : d.read k = none := by
      unfold read
      rw [hk]
    rw [← h.2, read_setFile_self, hnone]
    rfl

theorem read_openCreate_of_ne {d d' : Disk κ α} {k q : List κ} (h : d.openCreate k = some d')
    (hne : q ≠ k) : d'.read q = d.read q := by
  unfold openCreate at h
  split at h
  · rw [← Option.some_inj.mp h]
  · exact absurd h nofun
  · rw [Option.ite_none_right_eq_some, Option.some_inj] at h
    rw [← h.2, read_setFile_of_ne d hne]

section Fill

variable [Zero α]

theorem read_truncate_self (d : Disk κ α) (k : List κ) (n : Nat) :
    (d.truncate k n).read k = (d.read k).map (resize n) := by
  unfold truncate
  cases hk : d.read k with
  | none => exact hk
  | some data => exact read_setFile_self d k _

theorem read_writeAt_self (d : Disk κ α) (k : List κ) (off : Nat) (block : List α) :
    (d.writeAt k off block).read k = (d.read k).map (overwrite off block) := by
  unfold writeAt
  cases hk : d.read k with
  | none => exact hk
  | some data => exact read_setFile_self d k _

theorem read_truncate_of_ne (d : Disk κ α) {k q : List κ} (hne : q ≠ k) (n : Nat) :
    (d.truncate k n).read q = d.read q := by
  unfold truncate
  split
  · exact read_setFile_of_ne d hne _
  · rfl

theorem read_writeAt_of_ne (d : Disk κ α) {k q : List κ} (hne : q ≠ k) (off : Nat)
    (block : List α) : (d.writeAt k off block).read q = d.read q := by
  unfold writeAt
  split
  · exact read_setFile_of_ne d hne _
  · rfl

/-- Writing creates nothing. -/
theorem writeAt_none {d : Disk κ α} {k : List κ} (h : d k = none) {q : List κ} {off : Nat}
    {block : List α} : d.writeAt q off block k = none := by
  unfold writeAt
  cases hread : d.read q with
  | none => exact h
  | some data =>
    have hne : k ≠ q := by
      intro heq
      rw [← heq, read_eq_some, h] at hread
      exact absurd hread nofun
    exact (Function.update_of_ne hne _ d).trans h

end Fill

/-- A file that was renamed is read under its new name. -/
theorem read_rename {d d' : Disk κ α} {src dst : List κ} (h : d.rename src dst = some d') :
    d'.read dst = d.read src := by
  unfold rename at h
  split_ifs at h with hmissing hsame hrefused
  · rw [← Option.some_inj.mp h, hsame]
  · rw [← Option.some_inj.mp h]
    unfold read
    simp only [List.prefix_rfl, if_true, List.drop_length, List.append_nil]

end Disk

end Stor.Lib
