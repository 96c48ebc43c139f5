import Mathlib.Data.Option.Basic
import Mathlib.Logic.Function.Basic

/-!
# Runs of a partial step function

A system is a step function `σ → α → Option σ`, with `none` when the action is
not enabled in the state.  `exec` folds it over a list of actions.  `Guarded ok`
holds of a list of actions when every one of them met `ok` in the state it was
taken in, which is how a condition on the steps of a run is stated.  Of an endless
sequence of actions `execTo` takes the first ones, and two rules say when such a run
comes to a state of some kind.
-/

namespace Stor.Lib

variable {σ α : Type*}

def exec (step : σ → α → Option σ) : σ → List α → Option σ
  | s, [] => some s
  | s, a :: as => (step s a).bind fun t => exec step t as

/-- Every action of the list meets `ok` in the state it is taken in. -/
def Guarded (step : σ → α → Option σ) (ok : σ → α → Prop) : σ → List α → Prop
  | _, [] => True
  | s, a :: as => ok s a ∧ ∀ t ∈ step s a, Guarded step ok t as

instance decidableGuarded (step : σ → α → Option σ) (ok : σ → α → Prop)
    [∀ s a, Decidable (ok s a)] : ∀ s as, Decidable (Guarded step ok s as)
  | _, [] => isTrue trivial
  | s, a :: as =>
    @instDecidableAnd _ _ inferInstance
      (@Option.decidableForallMem _ _ (fun t => decidableGuarded step ok t as) (step s a))

/-- What a run on given actions ends in is found by evaluating it. -/
instance decidableExistsSome {o : Option σ} {p : σ → Prop} [DecidablePred p] :
    Decidable (∃ s, o = some s ∧ p s) :=
  decidable_of_iff ((o.any fun s => decide (p s)) = true) <|
    (Option.any_eq_true _ _).trans <| exists_congr fun _ =>
      and_congr_right fun _ => decide_eq_true_iff

/-- The last action that met `reset` was followed by actions that met `ok` only.  Where
none has met `reset`, `b` stands for the start. -/
def Since (step : σ → α → Option σ) (reset ok : σ → α → Prop) : Prop → σ → List α → Prop
  | b, _, [] => b
  | b, s, a :: as => ∀ t ∈ step s a, Since step reset ok (reset s a ∨ b ∧ ok s a) t as

instance decidableSince (step : σ → α → Option σ) (reset ok : σ → α → Prop)
    [∀ s a, Decidable (reset s a)] [∀ s a, Decidable (ok s a)] :
    ∀ (b : Prop) [Decidable b] s as, Decidable (Since step reset ok b s as)
  | _, hb, _, [] => hb
  | b, _, s, a :: as =>
    @Option.decidableForallMem _ _
      (fun t => decidableSince step reset ok (reset s a ∨ b ∧ ok s a) t as) (step s a)

theorem exec_nil (step : σ → α → Option σ) (s : σ) : exec step s [] = some s := rfl

theorem exec_cons_of_step {step : σ → α → Option σ} {s t : σ} {a : α} (h : step s a = some t)
    (as : List α) : exec step s (a :: as) = exec step t as := by
  simp only [exec, h, Option.bind_some]

theorem exec_cons_some {step : σ → α → Option σ} {s u : σ} {a : α} {as : List α}
    (h : exec step s (a :: as) = some u) :
    ∃ t, step s a = some t ∧ exec step t as = some u :=
  Option.bind_eq_some_iff.mp h

theorem exec_append_eq (step : σ → α → Option σ) (s : σ) (as bs : List α) :
    exec step s (as ++ bs) = (exec step s as).bind fun t => exec step t bs := by
  induction as generalizing s with
  | nil => rfl
  | cons a as ih =>
    rw [List.cons_append, exec, exec, Option.bind_assoc]
    exact congrArg _ (funext ih)

theorem exec_append {step : σ → α → Option σ} {s t : σ} {as bs : List α}
    (h : exec step s as = some t) : exec step s (as ++ bs) = exec step t bs := by
  rw [exec_append_eq, h, Option.bind_some]

theorem exec_singleton (step : σ → α → Option σ) (s : σ) (a : α) : exec step s [a] = step s a :=
  Option.bind_fun_some (step s a)

theorem guarded_of_forall {step : σ → α → Option σ} {ok : σ → α → Prop} (h : ∀ s a, ok s a) (s : σ)
    (as : List α) : Guarded step ok s as := by
  induction as generalizing s with
  | nil => trivial
  | cons a as ih => exact ⟨h s a, fun t _ => ih t⟩

/-- What holds of every action of the list may be added to the condition. -/
theorem Guarded.and_of_mem {step : σ → α → Option σ} {ok : σ → α → Prop} {p : α → Prop} {s : σ}
    {as : List α} (h : Guarded step ok s as) (hp : ∀ a ∈ as, p a) :
    Guarded step (fun s a => ok s a ∧ p a) s as := by
  induction as generalizing s with
  | nil => trivial
  | cons a as ih =>
    refine ⟨⟨h.1, hp a List.mem_cons_self⟩, fun t ht => ?_⟩
    exact ih (h.2 t ht) fun b hb => hp b (List.mem_cons_of_mem a hb)

/-- A property kept by every guarded step holds at the end of every guarded
run. -/
theorem exec_invariant {step : σ → α → Option σ} {ok : σ → α → Prop} {Inv : σ → Prop}
    (hstep : ∀ s a t, Inv s → ok s a → step s a = some t → Inv t)
    {s t : σ} {as : List α} (hs : Inv s) (hg : Guarded step ok s as)
    (h : exec step s as = some t) : Inv t := by
  induction as generalizing s with
  | nil =>
    rw [exec_nil, Option.some_inj] at h
    exact h ▸ hs
  | cons a as ih =>
    obtain ⟨m, hm, hrest⟩ := exec_cons_some h
    exact ih (hstep s a m hs hg.1 hm) (hg.2 m hm) hrest

/-- With a measure that every step lowers, a run is no longer than the measure at its start. -/
theorem exec_length_le {step : σ → α → Option σ} {Inv : σ → Prop} {m : σ → Nat}
    (hinv : ∀ s a t, Inv s → step s a = some t → Inv t)
    (hstep : ∀ s a t, Inv s → step s a = some t → m t < m s)
    {s t : σ} {as : List α} (hs : Inv s) (h : exec step s as = some t) :
    as.length + m t ≤ m s := by
  induction as generalizing s with
  | nil =>
    rw [exec_nil, Option.some_inj] at h
    subst h
    exact Nat.le_of_eq (Nat.zero_add (m s))
  | cons a as ih =>
    obtain ⟨u, hu, hrest⟩ := exec_cons_some h
    have hlt := hstep s a u hs hu
    have hle := ih (hinv s a u hs hu) hrest
    rw [List.length_cons]
    omega

/-- A property that an action meeting `reset` brings about, and that those meeting `ok`
keep, holds at the end.  `Inv` is an invariant of all runs. -/
theorem Since.exec {step : σ → α → Option σ} {reset ok : σ → α → Prop} {Inv P : σ → Prop}
    (hinv : ∀ s a t, Inv s → step s a = some t → Inv t)
    (hstep : ∀ s a t, Inv s → reset s a ∨ P s ∧ ok s a → step s a = some t → P t)
    {b : Prop} {s t : σ} {as : List α} (hsince : Since step reset ok b s as) (hs : Inv s)
    (hb : b → P s) (h : exec step s as = some t) : P t := by
  induction as generalizing s b with
  | nil =>
    rw [exec_nil, Option.some_inj] at h
    exact h ▸ hb hsince
  | cons a as ih =>
    obtain ⟨m, hm, hrest⟩ := exec_cons_some h
    refine ih (hsince m hm) (hinv s a m hs hm) (fun hr => hstep s a m hs ?_ hm) hrest
    exact hr.imp_right fun hok => ⟨hb hok.1, hok.2⟩

/-- Along a guarded run every step is taken in a state that has the invariant. -/
theorem guarded_invariant {step : σ → α → Option σ} {ok good : σ → α → Prop} {Inv : σ → Prop}
    (hstep : ∀ s a t, Inv s → ok s a → step s a = some t → Inv t)
    (hgood : ∀ s a, Inv s → ok s a → good s a)
    {s : σ} {as : List α} (hs : Inv s) (hg : Guarded step ok s as) : Guarded step good s as := by
  induction as generalizing s with
  | nil => trivial
  | cons a as ih =>
    refine ⟨hgood s a hs hg.1, fun t ht => ?_⟩
    exact ih (hstep s a t hs hg.1 ht) (hg.2 t ht)

/-- Two conditions that say the same of every step taken in a state with the invariant say the
same of a run.  `p` is what is known of its actions. -/
theorem guarded_iff {step : σ → α → Option σ} {ok good : σ → α → Prop} {Inv : σ → Prop}
    {p : α → Prop} (hiff : ∀ s a t, Inv s → p a → step s a = some t → (ok s a ↔ good s a))
    (hstep : ∀ s a t, Inv s → p a → ok s a → step s a = some t → Inv t)
    {s t : σ} {as : List α} (hs : Inv s) (hp : ∀ a ∈ as, p a) (h : exec step s as = some t) :
    Guarded step ok s as ↔ Guarded step good s as := by
  induction as generalizing s with
  | nil => exact Iff.rfl
  | cons a as ih =>
    obtain ⟨m, hm, hrest⟩ := exec_cons_some h
    have ha := hp a List.mem_cons_self
    have hfirst := hiff s a m hs ha hm
    have hnext : ok s a → (Guarded step ok m as ↔ Guarded step good m as) := fun hok =>
      ih (hstep s a m hs ha hok hm) (fun b hb => hp b (List.mem_cons_of_mem a hb)) hrest
    refine ⟨fun hg => ⟨hfirst.mp hg.1, fun u hu => ?_⟩,
      fun hg => ⟨hfirst.mpr hg.1, fun u hu => ?_⟩⟩
    · obtain rfl : m = u := Option.some.inj (hm.symm.trans hu)
      exact (hnext hg.1).mp (hg.2 m hm)
    · obtain rfl : m = u := Option.some.inj (hm.symm.trans hu)
      exact (hnext (hfirst.mpr hg.1)).mpr (hg.2 m hm)

/-! ## Endless sequences -/

section

variable {step : σ → α → Option σ} {s t : σ} {as : Nat → α} {n : Nat}

/-- The state after the first `n` actions. -/
def execTo (step : σ → α → Option σ) (s : σ) (as : Nat → α) (n : Nat) : Option σ :=
  exec step s ((List.range n).map as)

theorem execTo_succ_eq (step : σ → α → Option σ) (s : σ) (as : Nat → α) (n : Nat) :
    execTo step s as (n + 1) = (execTo step s as n).bind fun t => step t (as n) := by
  rw [execTo, List.range_succ, List.map_append, List.map_singleton, exec_append_eq, execTo]
  simp only [exec_singleton]

theorem execTo_succ (h : execTo step s as n = some t) :
    execTo step s as (n + 1) = step t (as n) := by
  rw [execTo_succ_eq, h, Option.bind_some]

theorem execTo_invariant {Inv : σ → Prop} (hs : Inv s)
    (hstep : ∀ n t u, execTo step s as n = some t → Inv t → step t (as n) = some u → Inv u)
    (h : execTo step s as n = some t) : Inv t := by
  induction n generalizing t with
  | zero => exact Option.some.inj h ▸ hs
  | succ n ih =>
    rw [execTo_succ_eq] at h
    obtain ⟨u, hu, hnext⟩ := Option.bind_eq_some_iff.mp h
    exact hstep n u t hu (ih hu) hnext

/-- Every step leads to `Q` or keeps `R`, and one that keeps `R` is not of the kind that is sure
to come. -/
theorem execTo_until {R Q : σ → Prop} {helps : α → Prop}
    (hstep : ∀ n t, execTo step s as n = some t → R t →
      ∃ u, step t (as n) = some u ∧ (Q u ∨ R u ∧ ¬helps (as n)))
    (ht : execTo step s as n = some t) (hR : R t) {k : Nat} (hk : n ≤ k) (hhelps : helps (as k)) :
    ∃ n' u, execTo step s as n' = some u ∧ Q u := by
  induction hd : k - n generalizing n t with
  | zero =>
    obtain ⟨u, hu, hQ | ⟨-, hnot⟩⟩ := hstep n t ht hR
    · exact ⟨n + 1, u, (execTo_succ ht).trans hu, hQ⟩
    · obtain rfl : n = k := by omega
      exact absurd hhelps hnot
  | succ d ih =>
    obtain ⟨u, hu, hQ | ⟨hRu, -⟩⟩ := hstep n t ht hR
    · exact ⟨n + 1, u, (execTo_succ ht).trans hu, hQ⟩
    · exact ih ((execTo_succ ht).trans hu) hRu (by omega) (by omega)

/-- From every state with `P` the run comes to `Q`, or to one with `P` and a smaller measure. -/
theorem execTo_leads {P Q : σ → Prop} {m : σ → Nat}
    (hnext : ∀ n t, execTo step s as n = some t → P t →
      ∃ n' u, execTo step s as n' = some u ∧ (Q u ∨ P u ∧ m u < m t))
    (ht : execTo step s as n = some t) (hP : P t) :
    ∃ n' u, execTo step s as n' = some u ∧ Q u := by
  induction hm : m t using Nat.strongRecOn generalizing n t with
  | _ k ih =>
    obtain ⟨n', u, hu, hQ | ⟨hPu, hlt⟩⟩ := hnext n t ht hP
    · exact ⟨n', u, hu, hQ⟩
    · exact ih (m u) (hm ▸ hlt) hu hPu rfl

end

end Stor.Lib
