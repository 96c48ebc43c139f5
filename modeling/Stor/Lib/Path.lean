import Stor.Lib.Decimal

/-!
# Slash-separated paths

Lexical path processing: a path is a byte string, `clean` is the shortest path
that names the same place without looking at the disk, and `joinPath` puts
elements together and cleans the result.  Both work through the stack of
components that `pushComp` builds, top first, on which `..` takes the name below
it away.

`Below d p` says that `p` lies strictly below the directory `d`, and
`below_joinPath` which names joined to a directory stay below it.
-/

namespace Stor.Lib

def slash : UInt8 := 47

def dot : Bytes := [46]

def dotdot : Bytes := [46, 46]

def isAbs (p : Bytes) : Bool := p.head? == some slash

/-- Go up by one component; from the top of a relative path `..` stays. -/
def climb (rooted : Bool) : List Bytes → List Bytes
  | [] => if rooted then [] else [dotdot]
  | top :: rest => if top = dotdot then dotdot :: top :: rest else rest

/-- Put one component on the stack. -/
def pushComp (rooted : Bool) (stack : List Bytes) (c : Bytes) : List Bytes :=
  if c = [] ∨ c = dot then stack
  else if c = dotdot then climb rooted stack
  else c :: stack

def cleanComps (rooted : Bool) (cs : List Bytes) : List Bytes :=
  (cs.foldl (pushComp rooted) []).reverse

/-- The components of the cleaned path. -/
def pathComps (p : Bytes) : List Bytes := cleanComps (isAbs p) (p.splitOn slash)

def clean (p : Bytes) : Bytes :=
  if isAbs p then slash :: [slash].intercalate (pathComps p)
  else if pathComps p = [] then dot
  else [slash].intercalate (pathComps p)

/-- Join the elements from the first one on that is not empty. -/
def joinPath (elems : List Bytes) : Bytes :=
  match elems.dropWhile (fun e => e.isEmpty) with
  | [] => []
  | e :: es => clean ([slash].intercalate (e :: es))

/-- The directory part, cleaned. -/
def dirName (p : Bytes) : Bytes :=
  clean (p.reverse.dropWhile fun b => b != slash).reverse

/-- The components from the root, with relative paths taken at `cwd`. -/
def resolve (cwd : List Bytes) (p : Bytes) : List Bytes :=
  if isAbs p then pathComps p else cleanComps true (cwd ++ p.splitOn slash)

/-- `p` names a place strictly below `d`. -/
def Below (d p : Bytes) : Prop :=
  isAbs p = isAbs d ∧ ∃ rest, rest ≠ [] ∧ dotdot ∉ rest ∧ pathComps p = pathComps d ++ rest

theorem Below.isPrefix {d p : Bytes} (h : Below d p) : pathComps d <+: pathComps p := by
  obtain ⟨-, rest, -, -, hcomps⟩ := h
  exact ⟨rest, hcomps.symm⟩

/-- A name that stays below where it is joined to, and names something there. -/
def LocalName (n : Bytes) : Prop :=
  cleanComps false (n.splitOn slash) ≠ [] ∧ dotdot ∉ cleanComps false (n.splitOn slash)

instance (n : Bytes) : Decidable (LocalName n) := inferInstanceAs (Decidable (_ ∧ _))

/-! ## The pieces of a split -/

/-- A piece of a split stands between two separators or at an end. -/
theorem mem_splitOn {α : Type*} [DecidableEq α] {a : α} (xs : List α) {c : List α}
    (h : c ∈ xs.splitOn a) :
    a ∉ c ∧ ∃ pre post, (pre = [] ∨ ∃ u, pre = u ++ [a]) ∧ (post = [] ∨ ∃ v, post = a :: v) ∧
      xs = pre ++ c ++ post := by
  induction hn : xs.length using Nat.strong_induction_on generalizing xs with
  | _ n ih =>
    by_cases ha : a ∈ xs
    · obtain ⟨u, v, rfl⟩ := List.append_of_mem ha
      rw [List.splitOn_append_cons_self] at h
      rw [List.length_append, List.length_cons] at hn
      rcases List.mem_append.mp h with h | h
      · obtain ⟨hc, pre, post, hpre, hpost, rfl⟩ := ih u.length (by omega) u h rfl
        refine ⟨hc, pre, post ++ a :: v, hpre, .inr ?_, by simp⟩
        rcases hpost with rfl | ⟨w, rfl⟩
        · exact ⟨v, rfl⟩
        · exact ⟨w ++ a :: v, rfl⟩
      · obtain ⟨hc, pre, post, hpre, hpost, rfl⟩ := ih v.length (by omega) v h rfl
        refine ⟨hc, u ++ a :: pre, post, .inr ?_, hpost, by simp⟩
        rcases hpre with rfl | ⟨w, rfl⟩
        · exact ⟨u, rfl⟩
        · exact ⟨u ++ a :: w, by simp⟩
    · rw [List.splitOn_eq_singleton ha, List.mem_singleton] at h
      subst h
      exact ⟨ha, [], [], .inl rfl, .inl rfl, by simp⟩

theorem mem_splitOn_of_between {α : Type*} [DecidableEq α] {a : α} {c pre post : List α}
    (hc : a ∉ c) (hpre : pre = [] ∨ ∃ u, pre = u ++ [a]) (hpost : post = [] ∨ ∃ v, post = a :: v) :
    c ∈ (pre ++ c ++ post).splitOn a := by
  have hright : c ∈ (c ++ post).splitOn a := by
    rcases hpost with rfl | ⟨v, rfl⟩
    · rw [List.append_nil, List.splitOn_eq_singleton hc]
      exact List.mem_singleton_self c
    · rw [List.splitOn_append_cons_self_of_not_mem hc]
      exact List.mem_cons_self
  rcases hpre with rfl | ⟨u, rfl⟩
  · exact hright
  · rw [List.append_assoc, List.append_assoc, List.singleton_append, List.splitOn_append_cons_self]
    exact List.mem_append_right _ hright

/-! ## The stack -/

/-- A component that only adds to the stack. -/
def Plain (c : Bytes) : Prop := c ≠ [] ∧ c ≠ dot ∧ c ≠ dotdot

theorem pushComp_plain {c : Bytes} (h : Plain c) (rooted : Bool) (stack : List Bytes) :
    pushComp rooted stack c = c :: stack := by
  unfold pushComp
  rw [if_neg (not_or.mpr ⟨h.1, h.2.1⟩), if_neg h.2.2]

theorem foldl_pushComp_plain {cs : List Bytes} (h : ∀ c ∈ cs, Plain c) (rooted : Bool)
    (stack : List Bytes) : cs.foldl (pushComp rooted) stack = cs.reverse ++ stack := by
  induction cs generalizing stack with
  | nil => rfl
  | cons c cs ih =>
    rw [List.foldl_cons, pushComp_plain (h c List.mem_cons_self),
      ih fun c hc => h c (List.mem_cons_of_mem _ hc), List.reverse_cons, List.append_assoc]
    rfl

/-- What a stack looks like: names over a number of `..`, which only a relative
path has. -/
def StackOk (rooted : Bool) (stack : List Bytes) : Prop :=
  ∃ names k, stack = names ++ List.replicate k dotdot ∧ (∀ c ∈ names, Plain c ∧ slash ∉ c) ∧
    (rooted = true → k = 0)

theorem stackOk_pushComp {rooted : Bool} {stack : List Bytes} (h : StackOk rooted stack)
    {c : Bytes} (hc : slash ∉ c) : StackOk rooted (pushComp rooted stack c) := by
  obtain ⟨names, k, rfl, hnames, hk⟩ := h
  unfold pushComp
  split_ifs with hskip hdd
  · exact ⟨names, k, rfl, hnames, hk⟩
  · cases names with
    | nil =>
      cases k with
      | zero =>
        cases rooted with
        | true => exact ⟨[], 0, rfl, hnames, fun _ => rfl⟩
        | false => exact ⟨[], 1, rfl, hnames, nofun⟩
      | succ k => exact ⟨[], k + 2, rfl, hnames, fun hr => absurd (hk hr) (by omega)⟩
    | cons top names =>
      have htop := hnames top List.mem_cons_self
      show StackOk rooted (if top = dotdot then _ else names ++ List.replicate k dotdot)
      rw [if_neg htop.1.2.2]
      exact ⟨names, k, rfl, fun c hc => hnames c (List.mem_cons_of_mem _ hc), hk⟩
  · rw [not_or] at hskip
    refine ⟨c :: names, k, rfl, ?_, hk⟩
    intro d hd
    rcases List.mem_cons.mp hd with rfl | hd
    · exact ⟨⟨hskip.1, hskip.2, hdd⟩, hc⟩
    · exact hnames d hd

theorem stackOk_foldl {rooted : Bool} {cs : List Bytes} (hcs : ∀ c ∈ cs, slash ∉ c)
    {stack : List Bytes} (h : StackOk rooted stack) :
    StackOk rooted (cs.foldl (pushComp rooted) stack) := by
  induction cs generalizing stack with
  | nil => exact h
  | cons c cs ih =>
    exact ih (fun c hc => hcs c (List.mem_cons_of_mem _ hc))
      (stackOk_pushComp h (hcs c List.mem_cons_self))

/-- The components of a cleaned path: some `..`, then names. -/
theorem pathComps_shape (p : Bytes) :
    ∃ k names, pathComps p = List.replicate k dotdot ++ names ∧
      (∀ c ∈ names, Plain c ∧ slash ∉ c) ∧ (isAbs p = true → k = 0) := by
  have hok : StackOk (isAbs p) ((p.splitOn slash).foldl (pushComp (isAbs p)) []) :=
    stackOk_foldl (fun c hc => (mem_splitOn p hc).1) ⟨[], 0, rfl, nofun, fun _ => rfl⟩
  obtain ⟨names, k, hstack, hnames, hk⟩ := hok
  refine ⟨k, names.reverse, ?_, fun c hc => hnames c (List.mem_reverse.mp hc), hk⟩
  rw [pathComps, cleanComps, hstack, List.reverse_append, List.reverse_replicate]

theorem foldl_pushComp_dotdot (k : Nat) :
    (List.replicate k dotdot).foldl (pushComp false) [] = List.replicate k dotdot := by
  induction k with
  | zero => rfl
  | succ k ih =>
    rw [List.replicate_succ', List.foldl_append, ih]
    cases k with
    | zero => rfl
    | succ k =>
      rw [← List.replicate_succ']
      rfl

/-- Cleaning is done once: the components of a cleaned path stay as they are. -/
theorem cleanComps_pathComps (p : Bytes) : cleanComps (isAbs p) (pathComps p) = pathComps p := by
  obtain ⟨k, names, hcomps, hnames, hk⟩ := pathComps_shape p
  have hplain : ∀ c ∈ names, Plain c := fun c hc => (hnames c hc).1
  rw [hcomps, cleanComps, List.foldl_append]
  cases hroot : isAbs p with
  | true =>
    rw [hk hroot, foldl_pushComp_plain hplain]
    simp
  | false =>
    rw [foldl_pushComp_dotdot, foldl_pushComp_plain hplain]
    simp

theorem slash_notMem_pathComps (p : Bytes) : ∀ c ∈ pathComps p, slash ∉ c := by
  obtain ⟨k, names, hcomps, hnames, -⟩ := pathComps_shape p
  intro c hc
  rw [hcomps] at hc
  rcases List.mem_append.mp hc with hc | hc
  · rw [List.eq_of_mem_replicate hc]
    decide
  · exact (hnames c hc).2

theorem nil_notMem_pathComps (p : Bytes) : ([] : Bytes) ∉ pathComps p := by
  obtain ⟨k, names, hcomps, hnames, -⟩ := pathComps_shape p
  intro hc
  rw [hcomps] at hc
  rcases List.mem_append.mp hc with hc | hc
  · exact absurd (List.eq_of_mem_replicate hc) (by decide)
  · exact (hnames [] hc).1.1 rfl

/-! ## Cleaned paths -/

theorem isAbs_intercalate {c : Bytes} {cs : List Bytes} (hne : c ≠ []) (hc : slash ∉ c) :
    isAbs ([slash].intercalate (c :: cs)) = false := by
  cases c with
  | nil => exact absurd rfl hne
  | cons b c =>
    rw [List.intercalate_cons_cons_left, isAbs, List.head?_cons, beq_eq_false_iff_ne]
    intro hb
    exact hc (Option.some_inj.mp hb ▸ List.mem_cons_self)

theorem isAbs_clean (p : Bytes) : isAbs (clean p) = isAbs p := by
  unfold clean
  cases hroot : isAbs p with
  | true => rfl
  | false =>
    rw [if_neg Bool.false_ne_true]
    split_ifs with hnil
    · rfl
    · obtain ⟨c, cs, hcs⟩ := List.exists_cons_of_ne_nil hnil
      have hmem : c ∈ pathComps p := hcs ▸ List.mem_cons_self
      rw [hcs]
      exact isAbs_intercalate (fun h => nil_notMem_pathComps p (h ▸ hmem))
        (slash_notMem_pathComps p c hmem)

theorem pushComp_nil (rooted : Bool) (stack : List Bytes) : pushComp rooted stack [] = stack :=
  if_pos (.inl rfl)

theorem pathComps_clean (p : Bytes) : pathComps (clean p) = pathComps p := by
  have hsplit := List.splitOn_intercalate slash (slash_notMem_pathComps p)
  have hnorm := cleanComps_pathComps p
  rw [pathComps, isAbs_clean]
  unfold clean
  cases hroot : isAbs p with
  | true =>
    rw [hroot] at hnorm
    rw [if_pos rfl, List.splitOn_cons_eq_if_modifyHead, if_pos (beq_self_eq_true slash)]
    by_cases hnil : pathComps p = []
    · rw [hnil]
      rfl
    · rw [hsplit hnil, cleanComps, List.foldl_cons, pushComp_nil]
      exact hnorm
  | false =>
    rw [hroot] at hnorm
    rw [if_neg Bool.false_ne_true]
    split_ifs with hnil
    · rw [hnil]
      rfl
    · rw [hsplit hnil, hnorm]

theorem clean_ne_nil (p : Bytes) : clean p ≠ [] := by
  unfold clean
  split_ifs with hroot hnil
  · exact List.cons_ne_nil _ _
  · exact List.cons_ne_nil _ _
  · obtain ⟨c, cs, hcs⟩ := List.exists_cons_of_ne_nil hnil
    have hc : c ≠ [] := by
      intro h
      exact nil_notMem_pathComps p (h ▸ hcs ▸ List.mem_cons_self)
    obtain ⟨b, c', rfl⟩ := List.exists_cons_of_ne_nil hc
    rw [hcs, List.intercalate_cons_cons_left]
    exact List.cons_ne_nil _ _

/-! ## Joining a name to a directory -/

theorem dotdot_mem_pushComp {rooted : Bool} {stack : List Bytes} (h : dotdot ∈ stack)
    (c : Bytes) : dotdot ∈ pushComp rooted stack c := by
  unfold pushComp
  split_ifs
  · exact h
  · cases stack with
    | nil => exact absurd h List.not_mem_nil
    | cons top rest =>
      show dotdot ∈ if top = dotdot then dotdot :: top :: rest else rest
      by_cases htop : top = dotdot
      · rw [if_pos htop]
        exact List.mem_cons_self
      · rw [if_neg htop]
        exact (List.mem_cons.mp h).resolve_left fun heq => htop heq.symm
  · exact List.mem_cons_of_mem _ h

theorem dotdot_mem_foldl {rooted : Bool} {cs stack : List Bytes} (h : dotdot ∈ stack) :
    dotdot ∈ cs.foldl (pushComp rooted) stack := by
  induction cs generalizing stack with
  | nil => exact h
  | cons c cs ih => exact ih (dotdot_mem_pushComp h c)

/-- Components that never climb leave what is under the stack alone. -/
theorem foldl_pushComp_append (rooted : Bool) {cs stack : List Bytes}
    (h : dotdot ∉ cs.foldl (pushComp false) stack) (base : List Bytes) :
    cs.foldl (pushComp rooted) (stack ++ base) = cs.foldl (pushComp false) stack ++ base := by
  induction cs generalizing stack with
  | nil => rfl
  | cons c cs ih =>
    rw [List.foldl_cons] at h
    have hstep : dotdot ∉ pushComp false stack c := fun hmem => h (dotdot_mem_foldl hmem)
    have heq : pushComp rooted (stack ++ base) c = pushComp false stack c ++ base := by
      unfold pushComp at hstep ⊢
      by_cases hskip : c = [] ∨ c = dot
      · rw [if_pos hskip, if_pos hskip]
      · rw [if_neg hskip] at hstep
        rw [if_neg hskip, if_neg hskip]
        by_cases hdd : c = dotdot
        · rw [if_pos hdd] at hstep
          rw [if_pos hdd, if_pos hdd]
          cases stack with
          | nil => exact absurd List.mem_cons_self hstep
          | cons top rest =>
            by_cases htop : top = dotdot
            · refine absurd ?_ hstep
              show dotdot ∈ if top = dotdot then _ else rest
              rw [if_pos htop]
              exact List.mem_cons_self
            · show (if top = dotdot then _ else rest ++ base) =
                (if top = dotdot then _ else rest) ++ base
              rw [if_neg htop, if_neg htop]
        · rw [if_neg hdd, if_neg hdd]
          rfl
    rw [List.foldl_cons, List.foldl_cons, heq]
    exact ih h

theorem isAbs_append {d : Bytes} (hd : d ≠ []) (rest : Bytes) : isAbs (d ++ rest) = isAbs d := by
  cases d with
  | nil => exact absurd rfl hd
  | cons b d => rfl

theorem joinPath_of_ne_nil {d : Bytes} (hd : d ≠ []) (n : Bytes) :
    joinPath [d, n] = clean (d ++ slash :: n) := by
  cases d with
  | nil => exact absurd rfl hd
  | cons b d => simp [joinPath, List.intercalate_cons_of_ne_nil]

theorem joinPath_nil_left {n : Bytes} (hn : n ≠ []) : joinPath [[], n] = clean n := by
  cases n with
  | nil => exact absurd rfl hn
  | cons b n => simp [joinPath]

theorem pathComps_append {d n : Bytes} (hd : d ≠ []) (hn : LocalName n) :
    pathComps (d ++ slash :: n) = pathComps d ++ cleanComps false (n.splitOn slash) := by
  have hmem : dotdot ∉ (n.splitOn slash).foldl (pushComp false) [] := fun h =>
    hn.2 (List.mem_reverse.mpr h)
  rw [pathComps, isAbs_append hd, List.splitOn_append_cons_self, cleanComps, List.foldl_append]
  have happ := foldl_pushComp_append (isAbs d) hmem
    ((d.splitOn slash).foldl (pushComp (isAbs d)) [])
  rw [List.nil_append] at happ
  rw [happ, List.reverse_append]
  rfl

/-- A local name joined to a directory lies below it. -/
theorem below_joinPath {d n : Bytes} (hn : LocalName n) (habs : d = [] → isAbs n = false) :
    Below d (joinPath [d, n]) := by
  by_cases hd : d = []
  · subst hd
    have hne : n ≠ [] := by
      rintro rfl
      exact hn.1 rfl
    have hcomps : pathComps n = cleanComps false (n.splitOn slash) := by rw [pathComps, habs rfl]
    rw [joinPath_nil_left hne]
    refine ⟨by rw [isAbs_clean, habs rfl]; rfl, _, hn.1, hn.2, ?_⟩
    rw [pathComps_clean, hcomps]
    rfl
  · rw [joinPath_of_ne_nil hd]
    refine ⟨by rw [isAbs_clean, isAbs_append hd], _, hn.1, hn.2, ?_⟩
    rw [pathComps_clean, pathComps_append hd hn]

theorem Below.last {d p : Bytes} (h : Below d p) :
    ∃ cs c, pathComps p = cs ++ [c] ∧ c ≠ dotdot := by
  obtain ⟨-, rest, hne, hdd, hcomps⟩ := h
  obtain ⟨init, c, rfl⟩ := rest.eq_nil_or_concat'.resolve_left hne
  refine ⟨pathComps d ++ init, c, by rw [hcomps, List.append_assoc], ?_⟩
  rintro rfl
  exact hdd (List.mem_append_right _ List.mem_cons_self)

/-! ## A cleaned path that begins with another one -/

/-- The parts of a cleaned path are its components, behind an empty part if it is
rooted. -/
theorem splitOn_clean {p : Bytes} (h : pathComps p ≠ []) :
    (clean p).splitOn slash = (if isAbs p then [[]] else []) ++ pathComps p := by
  have hsplit := List.splitOn_intercalate slash (slash_notMem_pathComps p) h
  unfold clean
  cases hroot : isAbs p with
  | true =>
    rw [if_pos rfl, if_pos rfl, List.splitOn_cons_eq_if_modifyHead,
      if_pos (beq_self_eq_true slash), hsplit]
    rfl
  | false =>
    rw [if_neg Bool.false_ne_true, if_neg Bool.false_ne_true, if_neg h, hsplit]
    rfl

/-- Behind a name there is no `..` any more. -/
theorem dotdot_notMem_behind {k : Nat} {names as rest : List Bytes} {c : Bytes}
    (hnames : dotdot ∉ names) (h : List.replicate k dotdot ++ names = as ++ c :: rest)
    (hc : c ≠ dotdot) : dotdot ∉ rest := by
  induction k generalizing as with
  | zero =>
    intro hmem
    rw [List.replicate_zero, List.nil_append] at h
    apply hnames
    rw [h]
    exact List.mem_append_right _ (List.mem_cons_of_mem c hmem)
  | succ k ih =>
    rw [List.replicate_succ, List.cons_append] at h
    cases as with
    | nil => exact absurd (List.cons.inj h).1.symm hc
    | cons a as => exact ih (List.cons.inj h).2

/-- What a cleaned path has behind a cleaned path and a separator are components
that only go down. -/
theorem pathComps_of_cleanBase {b y rest : Bytes} (hb : ∃ cs c, pathComps b = cs ++ [c] ∧ c ≠ dotdot)
    (h : clean y = clean b ++ slash :: rest) :
    isAbs y = isAbs b ∧ pathComps y = pathComps b ++ rest.splitOn slash ∧
      ∀ c ∈ rest.splitOn slash, Plain c ∧ slash ∉ c := by
  obtain ⟨cs, c, hlast, hc⟩ := hb
  have habs : isAbs y = isAbs b := by
    rw [← isAbs_clean y, h, isAbs_append (clean_ne_nil b), isAbs_clean]
  have hbne : pathComps b ≠ [] := by
    rw [hlast]
    exact List.append_ne_nil_of_right_ne_nil cs (List.cons_ne_nil c [])
  have hyne : pathComps y ≠ [] := by
    intro hnil
    have hlen : (clean y).length = 1 := by
      unfold clean
      rw [hnil, if_pos rfl]
      split_ifs <;> rfl
    have hpos : 0 < (clean b).length := List.length_pos_of_ne_nil (clean_ne_nil b)
    rw [h, List.length_append, List.length_cons] at hlen
    omega
  have hsplit : (clean y).splitOn slash = (clean b).splitOn slash ++ rest.splitOn slash := by
    rw [h, List.splitOn_append_cons_self]
  rw [splitOn_clean hyne, splitOn_clean hbne, habs, List.append_assoc] at hsplit
  have hcomps : pathComps y = pathComps b ++ rest.splitOn slash := List.append_cancel_left hsplit
  refine ⟨habs, hcomps, ?_⟩
  obtain ⟨k, names, hshape, hnames, -⟩ := pathComps_shape y
  have hdd : dotdot ∉ rest.splitOn slash := by
    have hsplitAt : List.replicate k dotdot ++ names = cs ++ c :: rest.splitOn slash := by
      rw [← hshape, hcomps, hlast, List.append_assoc, List.singleton_append]
    exact dotdot_notMem_behind (fun hmem => (hnames dotdot hmem).1.2.2 rfl) hsplitAt hc
  intro d hd
  have hmem : d ∈ pathComps y := hcomps ▸ List.mem_append_right _ hd
  rw [hshape] at hmem
  rcases List.mem_append.mp hmem with hmem | hmem
  · exact absurd (List.eq_of_mem_replicate hmem ▸ hd) hdd
  · exact hnames d hmem

/-- A cleaned path that begins with the path of a directory and a separator lies
below that directory. -/
theorem below_of_cleanBase {b y rest : Bytes} (hb : ∃ cs c, pathComps b = cs ++ [c] ∧ c ≠ dotdot)
    (h : clean y = clean b ++ slash :: rest) : Below b (clean y) := by
  obtain ⟨habs, hcomps, hplain⟩ := pathComps_of_cleanBase hb h
  refine ⟨(isAbs_clean y).trans habs, rest.splitOn slash, List.splitOn_ne_nil _ _, ?_, ?_⟩
  · exact fun hmem => (hplain dotdot hmem).1.2.2 rfl
  · rw [pathComps_clean, hcomps]

/-! ## The directory of a path -/

/-- `p` is the directory `d` itself, or lies below it. -/
def Within (d p : Bytes) : Prop :=
  isAbs p = isAbs d ∧ ∃ rest, dotdot ∉ rest ∧ pathComps p = pathComps d ++ rest

theorem dirName_append {u v : Bytes} (hv : slash ∉ v) :
    dirName (u ++ slash :: v) = clean (u ++ [slash]) := by
  have hdrop : ∀ b ∈ v.reverse, (b != slash) = true := by
    intro b hb
    rw [bne_iff_ne]
    rintro rfl
    exact hv (List.mem_reverse.mp hb)
  unfold dirName
  rw [List.reverse_append, List.reverse_cons, List.append_assoc,
    List.dropWhile_append_of_pos hdrop, List.singleton_append,
    List.dropWhile_cons_of_neg (by rw [bne_self_eq_false]; exact Bool.false_ne_true),
    List.reverse_cons, List.reverse_reverse]

theorem intercalate_concat {α : Type*} {a : α} {xs : List (List α)} (h : xs ≠ []) (x : List α) :
    [a].intercalate (xs ++ [x]) = [a].intercalate xs ++ a :: x := by
  induction xs with
  | nil => exact absurd rfl h
  | cons y ys ih =>
    cases ys with
    | nil => simp [List.intercalate_cons_cons]
    | cons z zs =>
      rw [List.cons_append, List.intercalate_cons_of_ne_nil (by simp), ih (List.cons_ne_nil z zs),
        List.intercalate_cons_of_ne_nil (List.cons_ne_nil z zs), List.append_assoc (y ++ [a])]

/-- A trailing separator adds no component. -/
theorem pathComps_concat_slash {p : Bytes} (hp : p ≠ []) :
    pathComps (p ++ [slash]) = pathComps p := by
  have hsplit : (p ++ slash :: []).splitOn slash = p.splitOn slash ++ [[]] := by
    rw [List.splitOn_append_cons_self]
    rfl
  rw [pathComps, isAbs_append hp, hsplit, cleanComps, List.foldl_append, List.foldl_cons,
    pushComp_nil]
  rfl

theorem within_dirName {b y rest : Bytes} (hb : ∃ cs c, pathComps b = cs ++ [c] ∧ c ≠ dotdot)
    (h : clean y = clean b ++ slash :: rest) : Within b (dirName (clean y)) := by
  obtain ⟨-, -, hplain⟩ := pathComps_of_cleanBase hb h
  have hbne := clean_ne_nil b
  obtain ⟨init, last, hrest⟩ :=
    (rest.splitOn slash).eq_nil_or_concat'.resolve_left (List.splitOn_ne_nil slash rest)
  have hjoin : rest = [slash].intercalate (init ++ [last]) := by
    rw [← hrest, List.intercalate_splitOn]
  rw [hrest] at hplain
  have hlast : slash ∉ last := (hplain last (List.mem_append_right _ List.mem_cons_self)).2
  by_cases hinit : init = []
  · subst hinit
    have hdir : dirName (clean y) = clean (clean b ++ [slash]) := by
      rw [h, hjoin, List.nil_append, List.intercalate_singleton, dirName_append hlast]
    rw [hdir]
    refine ⟨by rw [isAbs_clean, isAbs_append hbne, isAbs_clean], [], List.not_mem_nil, ?_⟩
    rw [pathComps_clean, pathComps_concat_slash hbne, pathComps_clean, List.append_nil]
  · have hinits : ∀ c ∈ init, Plain c ∧ slash ∉ c := fun c hc =>
      hplain c (List.mem_append_left _ hc)
    have hdir : dirName (clean y) =
        clean (clean b ++ slash :: ([slash].intercalate init ++ [slash])) := by
      rw [h, hjoin, intercalate_concat hinit, ← List.cons_append, ← List.append_assoc,
        dirName_append hlast, List.append_assoc, List.cons_append]
    have hparts : cleanComps false (([slash].intercalate init ++ [slash]).splitOn slash) = init := by
      rw [List.splitOn_append_cons_self, List.splitOn_intercalate slash (fun c hc => (hinits c hc).2)
        hinit, cleanComps, List.foldl_append, foldl_pushComp_plain fun c hc => (hinits c hc).1]
      show (pushComp false (init.reverse ++ []) []).reverse = init
      rw [pushComp_nil, List.append_nil, List.reverse_reverse]
    have hdd : dotdot ∉ init := fun hmem => (hinits dotdot hmem).1.2.2 rfl
    have hlocal : LocalName ([slash].intercalate init ++ [slash]) := by
      unfold LocalName
      rw [hparts]
      exact ⟨hinit, hdd⟩
    rw [hdir]
    refine ⟨by rw [isAbs_clean, isAbs_append hbne, isAbs_clean], init, hdd, ?_⟩
    rw [pathComps_clean, pathComps_append hbne hlocal, pathComps_clean, hparts]

end Stor.Lib
