import Stor.Engine.StateFile
import Stor.Lib.Run

/-!
# Concurrent saves

`Store.Save` marshals the records under one lock and writes the file under another,
so that two saves may read in one order and write in the other.  Each section under
a lock is a step.  When no save writes while one that read an older state is still
to write (`InOrder`), no file is overwritten by an older one, and once all saves have
returned the file has a state at least as recent as any of them read
(`recent_of_inOrder`).
-/

namespace Stor.Engine
namespace Saves

open Lib

/-- Where a call of `Save` is.  `version` is the number of the state that it read. -/
inductive Stage where
  | started
  | read (version : Nat) (data : Json)
  | returned (version : Nat)
  | failed

/-- The store, with the states that it had before, the file, and the calls of `Save`. -/
structure State where
  past : List Store
  store : Store
  file : Option Json
  saves : List Stage

inductive Action where
  | put (r : TorrentRecord)
  | delete (id : Bytes)
  | save
  | snapshot (k : Nat) (order : List TorrentRecord)
  | write (k : Nat) (ok : Bool)

namespace State

def new (store : Store) (file : Option Json) : State where
  past := []
  store := store
  file := file
  saves := []

/-- The number of the current state of the store. -/
def version (e : State) : Nat := e.past.length

/-- The states of the store by their numbers. -/
def history (e : State) : List Store := e.past ++ [e.store]

/-- A section of `Put` or `Delete`. -/
def update (e : State) (store : Store) : State := { e with past := e.history, store := store }

def step (e : State) : Action → Option State
  | .put r => some (e.update (e.store.put r))
  | .delete id => some (e.update (e.store.delete id))
  | .save => some { e with saves := e.saves ++ [.started] }
  | .snapshot k order =>
    match e.saves[k]? with
    | some .started =>
      if order.isPerm e.store.records then
        some { e with saves := e.saves.set k (.read e.version (Store.saved order)) }
      else none
    | _ => none
  -- the temporary file is written and renamed, or one of the calls fails
  | .write k ok =>
    match e.saves[k]? with
    | some (.read version data) =>
      if ok then
        some { e with file := some data, saves := e.saves.set k (.returned version) }
      else some { e with saves := e.saves.set k .failed }
    | _ => none

end State

variable {e e' : State} {a : Action} {k v : Nat} {data : Json}

def Stage.isReturned : Stage → Bool
  | .returned _ => true
  | _ => false

/-- A save that is still to write has read no state before `version`. -/
def Stage.notBefore (version : Nat) : Stage → Bool
  | .read v _ => version ≤ v
  | _ => true

/-- A save that has written has read no state behind `version`. -/
def Stage.notBehind (version : Nat) : Stage → Bool
  | .returned v => v ≤ version
  | _ => true

/-- What the save `k` has read and is still to write. -/
def State.readBy (e : State) (k : Nat) : Option Nat :=
  match e.saves[k]? with
  | some (.read version _) => some version
  | _ => none

/-- No save writes while one that read an older state is still to write. -/
def InOrder (e : State) : Action → Prop
  | .write k true => (e.readBy k).all (fun v => e.saves.all (Stage.notBefore v)) = true
  | _ => True

instance (e : State) : ∀ a, Decidable (InOrder e a)
  | .write _ true => inferInstanceAs (Decidable (_ = _))
  | .write _ false | .put _ | .delete _ | .save | .snapshot _ _ => isTrue trivial

/-- No save writes behind one that read a newer state. -/
def NotOlder (e : State) : Action → Prop
  | .write k true => (e.readBy k).all (fun v => e.saves.all (Stage.notBehind v)) = true
  | _ => True

/-- `data` is what `Save` makes of the state `v` of the store. -/
def Marshals (e : State) (v : Nat) (data : Json) : Prop :=
  ∃ store order, e.history[v]? = some store ∧ order.Perm store.records ∧ data = Store.saved order

/-- With all saves returned, the file has a state at least as recent as any of them
read. -/
def Recent (e : State) : Prop :=
  e.saves ≠ [] → e.saves.all Stage.isReturned = true →
    ∃ v data, e.file = some data ∧ Marshals e v data ∧ e.saves.all (Stage.notBehind v) = true

/-! ## Steps -/

theorem step_cases (h : e.step a = some e') :
    (∃ store, e' = e.update store) ∨ e' = { e with saves := e.saves ++ [.started] } ∨
      (∃ k order, order.Perm e.store.records ∧
        e' = { e with saves := e.saves.set k (.read e.version (Store.saved order)) }) ∨
      (∃ k v data, a = .write k true ∧ e.saves[k]? = some (.read v data) ∧
        e' = { e with file := some data, saves := e.saves.set k (.returned v) }) ∨
      ∃ k, e' = { e with saves := e.saves.set k .failed } := by
  cases a with
  | put r => exact .inl ⟨_, (Option.some.inj h).symm⟩
  | delete id => exact .inl ⟨_, (Option.some.inj h).symm⟩
  | save => exact .inr (.inl (Option.some.inj h).symm)
  | snapshot k order =>
    simp only [State.step] at h
    split at h
    · split at h
      next hperm =>
        exact .inr (.inr (.inl ⟨k, order, List.isPerm_iff.mp hperm, (Option.some.inj h).symm⟩))
      · cases h
    · cases h
  | write k ok =>
    simp only [State.step] at h
    split at h
    next v data hk =>
      cases ok with
      | true => exact .inr (.inr (.inr (.inl ⟨k, v, data, rfl, hk, (Option.some.inj h).symm⟩)))
      | false => exact .inr (.inr (.inr (.inr ⟨k, (Option.some.inj h).symm⟩)))
    · cases h

theorem Marshals.lt (h : Marshals e v data) : v ≤ e.version := by
  obtain ⟨store, order, hv, -⟩ := h
  have hlt := (List.getElem?_eq_some_iff.mp hv).1
  rw [State.history, List.length_append, List.length_singleton] at hlt
  exact Nat.le_of_lt_succ hlt

theorem Marshals.update (h : Marshals e v data) (store : Store) : Marshals (e.update store) v data := by
  obtain ⟨s, order, hv, hrest⟩ := h
  refine ⟨s, order, ?_, hrest⟩
  show (e.history ++ [store])[v]? = some s
  rw [List.getElem?_append_left (List.getElem?_eq_some_iff.mp hv).1, hv]

theorem marshals_store {order : List TorrentRecord} (h : order.Perm e.store.records) :
    Marshals e e.version (Store.saved order) := by
  refine ⟨e.store, order, ?_, h, rfl⟩
  rw [State.history, State.version, List.getElem?_concat_length]

/-! ## The invariant -/

/-- A save that is still to write has a state of the store, and so has the file when a
save has written: one between those that were written and those that are to come. -/
structure Ordered (e : State) : Prop where
  read : ∀ v data, .read v data ∈ e.saves → Marshals e v data
  file : e.saves.any Stage.isReturned = true → ∃ v data, e.file = some data ∧ Marshals e v data ∧
    e.saves.all (Stage.notBehind v) = true ∧ e.saves.all (Stage.notBefore v) = true

/-- A stage in place of another. -/
theorem all_set {p : Stage → Bool} {saves : List Stage} {stage : Stage} (h : saves.all p = true)
    (hstage : p stage = true) : (saves.set k stage).all p = true := by
  rw [List.all_eq_true] at h ⊢
  intro x hx
  obtain hx | rfl := List.mem_or_eq_of_mem_set hx
  · exact h x hx
  · exact hstage

theorem any_of_any_set {p : Stage → Bool} {saves : List Stage} {stage : Stage}
    (h : (saves.set k stage).any p = true) (hstage : p stage = false) : saves.any p = true := by
  rw [List.any_eq_true] at h ⊢
  obtain ⟨x, hx, hp⟩ := h
  obtain hx | rfl := List.mem_or_eq_of_mem_set hx
  · exact ⟨x, hx, hp⟩
  · rw [hstage] at hp
    cases hp

theorem InOrder.all (hok : InOrder e a) (ha : a = .write k true)
    (hk : e.saves[k]? = some (.read v data)) : e.saves.all (Stage.notBefore v) = true := by
  rw [ha] at hok
  simpa only [InOrder, State.readBy, hk, Option.all_some] using hok

namespace Ordered

variable (hinv : Ordered e)
include hinv

theorem update (store : Store) : Ordered (e.update store) := by
  constructor
  · intro v data hmem
    exact (hinv.read v data hmem).update store
  · intro hany
    obtain ⟨v, data, hfile, hdata, hrest⟩ := hinv.file hany
    exact ⟨v, data, hfile, hdata.update store, hrest⟩

theorem save : Ordered { e with saves := e.saves ++ [.started] } := by
  constructor
  · intro v data hmem
    obtain hmem | hmem := List.mem_append.mp hmem
    · exact hinv.read v data hmem
    · cases List.mem_singleton.mp hmem
  · intro hany
    rw [List.any_append, Bool.or_eq_true] at hany
    obtain hany | hany := hany
    · obtain ⟨v, data, hfile, hdata, hbehind, hbefore⟩ := hinv.file hany
      refine ⟨v, data, hfile, hdata, ?_, ?_⟩
      · rw [List.all_append, hbehind]; rfl
      · rw [List.all_append, hbefore]; rfl
    · cases hany

theorem snapshot {order : List TorrentRecord} (hperm : order.Perm e.store.records) :
    Ordered { e with saves := e.saves.set k (.read e.version (Store.saved order)) } := by
  constructor
  · intro v data hmem
    obtain hmem | heq := List.mem_or_eq_of_mem_set hmem
    · exact hinv.read v data hmem
    · injection heq with hv hdata
      rw [hv, hdata]
      exact marshals_store hperm
  · intro hany
    obtain ⟨v, data, hfile, hdata, hbehind, hbefore⟩ := hinv.file (any_of_any_set hany rfl)
    exact ⟨v, data, hfile, hdata, all_set hbehind rfl, all_set hbefore (decide_eq_true hdata.lt)⟩

/-- What was written before is not newer than what the save has read. -/
theorem notBehind (hk : e.saves[k]? = some (.read v data)) : e.saves.all (Stage.notBehind v) = true := by
  rw [List.all_eq_true]
  intro stage hstage
  cases stage with
  | returned w =>
    have hany : e.saves.any Stage.isReturned = true :=
      List.any_eq_true.mpr ⟨_, hstage, rfl⟩
    obtain ⟨u, d, -, -, hbehind, hbefore⟩ := hinv.file hany
    have hw : w ≤ u := of_decide_eq_true (List.all_eq_true.mp hbehind _ hstage)
    have hv : u ≤ v := of_decide_eq_true (List.all_eq_true.mp hbefore _ (List.mem_of_getElem? hk))
    exact decide_eq_true (Nat.le_trans hw hv)
  | _ => rfl

theorem write (hok : InOrder e a) (ha : a = .write k true)
    (hk : e.saves[k]? = some (.read v data)) :
    Ordered { e with file := some data, saves := e.saves.set k (.returned v) } := by
  constructor
  · intro w d hmem
    obtain hmem | heq := List.mem_or_eq_of_mem_set hmem
    · exact hinv.read w d hmem
    · cases heq
  · intro _
    refine ⟨v, data, rfl, hinv.read v data (List.mem_of_getElem? hk), ?_, ?_⟩
    · exact all_set (hinv.notBehind hk) (decide_eq_true (Nat.le_refl v))
    · exact all_set (hok.all ha hk) rfl

theorem failed : Ordered { e with saves := e.saves.set k .failed } := by
  constructor
  · intro v data hmem
    obtain hmem | heq := List.mem_or_eq_of_mem_set hmem
    · exact hinv.read v data hmem
    · cases heq
  · intro hany
    obtain ⟨v, data, hfile, hdata, hbehind, hbefore⟩ := hinv.file (any_of_any_set hany rfl)
    exact ⟨v, data, hfile, hdata, all_set hbehind rfl, all_set hbefore rfl⟩

theorem step (hok : InOrder e a) (h : e.step a = some e') : Ordered e' := by
  obtain ⟨store, rfl⟩ | rfl | ⟨k, order, hperm, rfl⟩ | ⟨k, v, data, ha, hk, rfl⟩ | ⟨k, rfl⟩ :=
    step_cases h
  · exact hinv.update store
  · exact hinv.save
  · exact hinv.snapshot hperm
  · exact hinv.write hok ha hk
  · exact hinv.failed

theorem notOlder : NotOlder e a := by
  cases a with
  | write k ok =>
    cases ok with
    | false => trivial
    | true =>
      show (e.readBy k).all _ = true
      unfold State.readBy
      split
      next v data hk => exact hinv.notBehind hk
      next => rfl
  | _ => trivial

theorem recent : Recent e := by
  intro hne hall
  have hany : e.saves.any Stage.isReturned = true := by
    obtain ⟨stage, hstage⟩ := List.exists_mem_of_ne_nil e.saves hne
    exact List.any_eq_true.mpr ⟨stage, hstage, List.all_eq_true.mp hall stage hstage⟩
  obtain ⟨v, data, hfile, hdata, hbehind, -⟩ := hinv.file hany
  exact ⟨v, data, hfile, hdata, hbehind⟩

end Ordered

theorem ordered_new (store : Store) (file : Option Json) : Ordered (State.new store file) := by
  constructor
  · intro v data hmem
    cases hmem
  · intro hany
    cases hany

/-- Saves that write in the order in which they read lose nothing. -/
theorem recent_of_inOrder (store : Store) (file : Option Json) (as : List Action) (e : State)
    (hok : Guarded State.step InOrder (State.new store file) as)
    (h : exec State.step (State.new store file) as = some e) :
    Guarded State.step NotOlder (State.new store file) as ∧ Recent e := by
  have hnew := ordered_new store file
  constructor
  · exact guarded_invariant (fun _ _ _ hinv hok h => hinv.step hok h)
      (fun _ _ hinv _ => hinv.notOlder) hnew hok
  · exact (exec_invariant (fun _ _ _ hinv hok h => hinv.step hok h) hnew hok h).recent

/-- Two saves, before and behind a `Put`. -/
def twoSaves : List Action :=
  [.save, .snapshot 0 [], .put (Store.named []), .save, .snapshot 1 [Store.named []]]

theorem recent_twoSaves :
    ∃ e, exec State.step (State.new Store.new none) (twoSaves ++ [Action.write 0 true, .write 1 true]) =
        some e ∧
      Guarded State.step NotOlder (State.new Store.new none)
        (twoSaves ++ [Action.write 0 true, .write 1 true]) ∧ Recent e := by
  have hrun : (exec State.step (State.new Store.new none)
      (twoSaves ++ [Action.write 0 true, .write 1 true])).isSome = true := by decide +kernel
  obtain ⟨e, he⟩ := Option.isSome_iff_exists.mp hrun
  exact ⟨e, he, recent_of_inOrder Store.new none _ e (by decide +kernel) he⟩

/-- The save that read first writes last: the file has no record. -/
theorem not_recent_older_last :
    ¬ ∀ (store : Store) (file : Option Json) (as : List Action) (e : State),
      exec State.step (State.new store file) as = some e →
        Guarded State.step NotOlder (State.new store file) as ∧ Recent e := by
  intro hall
  have hrun : exec State.step (State.new Store.new none)
      (twoSaves ++ [Action.write 1 true, .write 0 true]) =
    some { past := [Store.new], store := Store.new.put (Store.named []), file := some (Store.saved [])
           saves := [.returned 0, .returned 1] } := by rfl
  obtain ⟨v, data, hfile, ⟨store, order, hstore, hperm, hdata⟩, hbehind⟩ :=
    (hall _ _ _ _ hrun).2 (by simp) rfl
  have hv : 1 ≤ v := of_decide_eq_true (List.all_eq_true.mp hbehind (.returned 1) (by simp))
  obtain rfl : v = 1 := by
    have := (List.getElem?_eq_some_iff.mp hstore).1
    simp only [State.history, List.length_append, List.length_singleton] at this
    omega
  have hrecords : [Store.named []] = store.records := congrArg Store.records (Option.some.inj hstore)
  have hnil : ([] : List Json) = order.map TorrentRecord.marshal := by
    rw [hdata] at hfile
    exact Json.arr.inj (Option.some.inj hfile)
  rw [List.map_eq_nil_iff.mp hnil.symm, ← hrecords] at hperm
  cases hperm.length_eq

end Saves
end Stor.Engine
