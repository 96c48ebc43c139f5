import Stor.Engine.Record
import Stor.Lib.Run
import Stor.Lib.Update

/-!
# Configuration at run time

`daemonSetConfig` and `daemonSetMaxActive` of `daemon/rpc.go`, with the setters of
`engine/engine.go`.  A setting is in the engine, under its lock, and in the configuration of the
handler, under another one, which is saved to disk there; the two socket buffers are also in the
`download` package, as two atomic values.  A request goes through the engine's setters first, one
section of the lock each, where the setter of a buffer reads the other buffer and installs both
after it has let the lock go; then it updates the configuration and saves it.

Requests can come between the steps of each other.  `config_agrees` says that the places agree in
a setting when all requests are done, if those that change it do not overlap, and in the
buffers, if those that change either of them do not.

The level of the logger, the queue behind `SetMaxActive` and the text of the file are left out; a
request is here without its JSON.
-/

namespace Stor.Daemon

open Lib

/-- What a request can change in the engine, in the order of the setters. -/
inductive Setting where
  | downloadDir
  | tmpDir
  | maxActive
  | maxPeers
  | maxPipeline
  | dialTimeout
  | numWant
  | enableUTP
  | prioritizeFirstLast
  | sequential
  | pipelineMin
  | pipelineMax
  | pipelineWindowSecs
  | socketSendBuffer
  | socketRecvBuffer
  deriving DecidableEq, Repr

namespace Setting

abbrev Value : Setting → Type
  | downloadDir | tmpDir => Bytes
  | enableUTP | prioritizeFirstLast | sequential => Bool
  | maxActive | maxPeers | maxPipeline | dialTimeout | numWant | pipelineMin | pipelineMax
  | pipelineWindowSecs | socketSendBuffer | socketRecvBuffer => Int

/-- The order in which `daemonSetConfig` calls the setters. -/
def setters : List Setting :=
  [downloadDir, tmpDir, maxActive, maxPeers, maxPipeline, dialTimeout, numWant, enableUTP,
    prioritizeFirstLast, sequential, pipelineMin, pipelineMax, pipelineWindowSecs, socketSendBuffer,
    socketRecvBuffer]

/-- The condition next to the `nil` check; a value that fails it is left out without an error. -/
def accepts : (k : Setting) → k.Value → Bool
  | maxActive, n | maxPeers, n | maxPipeline, n | dialTimeout, n | numWant, n => decide (1 ≤ n)
  | pipelineMin, n | pipelineMax, n | pipelineWindowSecs, n | socketSendBuffer, n
  | socketRecvBuffer, n => decide (0 ≤ n)
  | downloadDir, _ | tmpDir, _ | enableUTP, _ | prioritizeFirstLast, _ | sequential, _ => true

/-- What `engine.New` makes of a configured value. -/
def initial : (k : Setting) → k.Value → k.Value
  | maxActive, n => if n ≤ 0 then 5 else n
  | maxPeers, n => if n ≤ 0 then 500 else n
  | maxPipeline, n => if n ≤ 0 then 16 else n
  | dialTimeout, n => if n ≤ 0 then 8 else n
  | numWant, n => if n ≤ 0 then 200 else n
  | downloadDir, v | tmpDir, v => v
  | pipelineMin, n | pipelineMax, n | pipelineWindowSecs, n | socketSendBuffer, n
  | socketRecvBuffer, n => n
  | enableUTP, b | prioritizeFirstLast, b | sequential, b => b

theorem mem_setters (k : Setting) : k ∈ setters := by
  cases k <;> decide

theorem initial_of_accepts {k : Setting} {v : k.Value} (h : k.accepts v = true) :
    k.initial v = v := by
  cases k with
  | maxActive | maxPeers | maxPipeline | dialTimeout | numWant =>
    have hn : (1 : Int) ≤ v := of_decide_eq_true h
    exact if_neg (Int.not_le.mpr (Int.lt_of_lt_of_le Int.zero_lt_one hn))
  | _ => rfl

end Setting

abbrev Settings := ∀ k : Setting, k.Value

/-- The settings of a request that were given. -/
abbrev Changes := ∀ k : Setting, Option k.Value

inductive Buffer where
  | send
  | recv
  deriving DecidableEq, Repr

def Settings.buffer (e : Settings) : Buffer → Int
  | .send => e .socketSendBuffer
  | .recv => e .socketRecvBuffer

/-- Every value is one that a request can set. -/
def Settings.Accepted (e : Settings) : Prop := ∀ k : Setting, k.accepts (e k) = true

/-- The settings of the socket buffers. -/
def buffers : List Setting := [.socketSendBuffer, .socketRecvBuffer]

/-- What `SetPeerSocketBuffers` stores for a size. -/
def bufferSize (n : Int) : Int := if n < 0 then 0 else n

/-- The two stores of `SetPeerSocketBuffers`. -/
def setPeerSocketBuffers (send recv : Int) : List (Buffer × Int) :=
  [(.send, bufferSize send), (.recv, bufferSize recv)]

/-! ## The setters of the engine -/

namespace Settings

variable (e : Settings)

def put (k : Setting) (v : k.Value) : Settings := Function.update e k v

def setDownloadDir (dir : Bytes) : Settings := e.put .downloadDir dir

def setTmpDir (dir : Bytes) : Settings := e.put .tmpDir dir

def setMaxActive (n : Int) : Settings := e.put .maxActive (if n < 1 then 1 else n)

def setMaxPeers (n : Int) : Settings := e.put .maxPeers n

def setMaxPipeline (n : Int) : Settings := e.put .maxPipeline n

def setDialTimeout (n : Int) : Settings := e.put .dialTimeout n

def setNumWant (n : Int) : Settings := e.put .numWant n

def setEnableUTP (b : Bool) : Settings := e.put .enableUTP b

def setPrioritizeFirstLast (b : Bool) : Settings := e.put .prioritizeFirstLast b

def setSequential (b : Bool) : Settings := e.put .sequential b

def setPipelineMin (n : Int) : Settings := e.put .pipelineMin n

def setPipelineMax (n : Int) : Settings := e.put .pipelineMax n

def setPipelineWindowSecs (n : Int) : Settings := e.put .pipelineWindowSecs n

/-- With the call that follows when the lock is released. -/
def setSocketSendBuffer (n : Int) : Settings × List (Buffer × Int) :=
  let n := if n < 0 then 0 else n
  (e.put .socketSendBuffer n, setPeerSocketBuffers n (e .socketRecvBuffer))

/-- With the call that follows when the lock is released. -/
def setSocketRecvBuffer (n : Int) : Settings × List (Buffer × Int) :=
  let n := if n < 0 then 0 else n
  (e.put .socketRecvBuffer n, setPeerSocketBuffers (e .socketSendBuffer) n)

/-- The setter that `daemonSetConfig` calls for a setting. -/
def call : (k : Setting) → k.Value → Settings × List (Buffer × Int)
  | .downloadDir, v => (e.setDownloadDir v, [])
  | .tmpDir, v => (e.setTmpDir v, [])
  | .maxActive, v => (e.setMaxActive v, [])
  | .maxPeers, v => (e.setMaxPeers v, [])
  | .maxPipeline, v => (e.setMaxPipeline v, [])
  | .dialTimeout, v => (e.setDialTimeout v, [])
  | .numWant, v => (e.setNumWant v, [])
  | .enableUTP, v => (e.setEnableUTP v, [])
  | .prioritizeFirstLast, v => (e.setPrioritizeFirstLast v, [])
  | .sequential, v => (e.setSequential v, [])
  | .pipelineMin, v => (e.setPipelineMin v, [])
  | .pipelineMax, v => (e.setPipelineMax v, [])
  | .pipelineWindowSecs, v => (e.setPipelineWindowSecs v, [])
  | .socketSendBuffer, v => e.setSocketSendBuffer v
  | .socketRecvBuffer, v => e.setSocketRecvBuffer v

variable {e} {k : Setting}

theorem call_engine {v : k.Value} (h : k.accepts v = true) : (e.call k v).1 = e.put k v := by
  cases k with
  | maxActive | socketSendBuffer | socketRecvBuffer =>
    have hn : ¬v < _ := Int.not_lt.mpr (of_decide_eq_true h)
    exact congrArg (e.put _) (if_neg hn)
  | _ => rfl

theorem call_stores_eq_nil (hk : k ∉ buffers) (v : k.Value) : (e.call k v).2 = [] := by
  cases k with
  | socketSendBuffer | socketRecvBuffer => exact absurd (by decide) hk
  | _ => rfl

/-- The setter of a buffer installs both as they are now. -/
theorem call_stores (hk : k ∈ buffers) (v : k.Value) :
    (e.call k v).2 =
      setPeerSocketBuffers ((e.call k v).1.buffer .send) ((e.call k v).1.buffer .recv) := by
  rcases List.mem_cons.mp hk with rfl | hk
  · rfl
  · obtain rfl := List.mem_singleton.mp hk
    rfl

end Settings

/-! ## The requests -/

structure RpcErr where
  code : Int
  message : Bytes

def validateDirPath (evalSymlinks : Bytes → Option Bytes) (path : Bytes) : Except Bytes Unit :=
  if path = [] then .error (ascii "empty path")
  else if ¬isAbs path then .error (ascii "must be absolute path")
  else if ((Engine.normalizeSeparators path).splitOn slash).any fun part => part == dotdot then
    .error (ascii "path contains traversal")
  else
    match evalSymlinks path with
    | none => .ok ()
    | some resolved =>
      if resolved ≠ clean path then
        .error (ascii "path contains symlink (resolves to " ++ resolved ++ ascii ")")
      else .ok ()

/-- A request that was accepted, with what it has still to do. -/
structure Request where
  changes : Changes
  logLevel : Option Bytes
  /-- The setters of the engine that are not called yet. -/
  todo : List Setting
  /-- What the last setter has still to store. -/
  stores : List (Buffer × Int)
  /-- The configuration of the handler was updated. -/
  finished : Bool

def Request.new (changes : Changes) (logLevel : Option Bytes) : Request where
  changes := changes
  logLevel := logLevel
  todo := Setting.setters.filter fun k => (changes k).isSome
  stores := []
  finished := false

/-- The parameters of `daemon.set_config`. -/
structure Params where
  settings : Changes
  logLevel : Option Bytes

/-- The check of a directory that was given. -/
def validateDir (evalSymlinks : Bytes → Option Bytes) (label : Bytes) :
    Option Bytes → Except RpcErr Unit
  | none => .ok ()
  | some path => (validateDirPath evalSymlinks path).mapError fun err => ⟨-32602, label ++ err⟩

/-- Nothing is given for parameters that are not well-formed. -/
def daemonSetConfig (evalSymlinks : Bytes → Option Bytes) : Option Params → Except RpcErr Request
  | none => .error ⟨-32602, ascii "invalid params"⟩
  | some p => do
      validateDir evalSymlinks (ascii "invalid download_dir: ") (p.settings .downloadDir)
      validateDir evalSymlinks (ascii "invalid tmp_dir: ") (p.settings .tmpDir)
      .ok (.new (fun k => (p.settings k).filter k.accepts) p.logLevel)

def daemonSetMaxActive : Option Int → Except RpcErr Request
  | none => .error ⟨-32602, ascii "invalid params: max_active must be >= 1"⟩
  | some n =>
    if n < 1 then .error ⟨-32602, ascii "invalid params: max_active must be >= 1"⟩
    else .ok (.new (Function.update (fun _ => none) .maxActive (some n)) none)

/-! ## The places of a setting -/

structure Config where
  settings : Settings
  logLevel : Bytes

structure Places where
  engine : Settings
  /-- The configuration of the handler. -/
  cfg : Config
  /-- The configuration that was last saved. -/
  disk : Config
  installed : Buffer → Int

namespace Places

def store (p : Places) (b : Buffer) (n : Int) : Places :=
  { p with installed := Function.update p.installed b n }

/-- The section of the handler's lock; `saved` is whether `Save` succeeds. -/
def save (p : Places) (changes : Changes) (logLevel : Option Bytes) (saved : Bool) : Places :=
  let cfg : Config :=
    { settings := fun k => (changes k).getD (p.cfg.settings k)
      logLevel := logLevel.getD p.cfg.logLevel }
  { p with cfg := cfg, disk := if saved then cfg else p.disk }

/-- Every setting has one value. -/
structure Agree (p : Places) : Prop where
  engine : ∀ k, p.engine k = p.disk.settings k
  cfg : p.cfg = p.disk
  installed : ∀ b, p.installed b = p.disk.settings.buffer b

end Places

/-- The next step of a request. -/
def Request.next (t : Request) (p : Places) (saved : Bool) : Option (Places × Request) :=
  match t.stores with
  | (b, n) :: rest => some (p.store b n, { t with stores := rest })
  | [] =>
    match t.todo with
    | k :: rest =>
      (t.changes k).map fun v =>
        ({ p with engine := (p.engine.call k v).1 },
          { t with todo := rest, stores := (p.engine.call k v).2 })
    | [] =>
      if t.finished then none
      else some (p.save t.changes t.logLevel saved, { t with finished := true })

/-- The daemon with all requests it has accepted. -/
structure Runtime where
  places : Places
  requests : List Request

namespace Runtime

/-- The daemon behind `engine.New`, for a configuration that is on the disk. -/
def boot (cfg : Config) : Runtime where
  places :=
    { engine := fun k => k.initial (cfg.settings k)
      cfg := cfg
      disk := cfg
      installed := fun b => bufferSize (cfg.settings.buffer b) }
  requests := []

inductive Action where
  /-- `daemon.set_config`, with what the symbolic links are then. -/
  | setConfig (evalSymlinks : Bytes → Option Bytes) (params : Option Params)
  /-- `daemon.set_max_active`. -/
  | setMaxActive (params : Option Int)
  /-- The request `i` takes its next step. -/
  | advance (i : Nat) (saved : Bool)

/-- The request that begins, if it is accepted. -/
def Action.admits : Action → Option Request
  | setConfig evalSymlinks params => (daemonSetConfig evalSymlinks params).toOption
  | setMaxActive params => (daemonSetMaxActive params).toOption
  | advance .. => none

def step (d : Runtime) : Action → Option Runtime
  | .advance i saved =>
    d.requests[i]?.bind fun t =>
      (t.next d.places saved).map fun q => ⟨q.1, d.requests.set i q.2⟩
  | a => some { d with requests := d.requests ++ a.admits.toList }

end Runtime

/-! ## Requests that do not overlap -/

namespace Request

/-- The request has still to finish what it does to the settings. -/
def Busy (ks : List Setting) (t : Request) : Prop :=
  t.finished = false ∧ ∃ k ∈ ks, (t.changes k).isSome = true

instance (ks : List Setting) (t : Request) : Decidable (t.Busy ks) :=
  inferInstanceAs (Decidable (_ ∧ _))

/-- What holds of every request that was accepted. -/
structure Valid (t : Request) : Prop where
  accepts : ∀ k v, t.changes k = some v → k.accepts v = true
  nodup : t.todo.Nodup
  done : t.finished = true → t.todo = [] ∧ t.stores = []
  busy : t.stores ≠ [] → t.Busy buffers

end Request

section
variable {t t' : Request} {p p' : Places} {saved : Bool} {ks : List Setting} {k : Setting}

theorem Request.next_cases (h : t.next p saved = some (p', t')) :
    (∃ b n rest, t.stores = (b, n) :: rest ∧ p' = p.store b n ∧ t' = { t with stores := rest }) ∨
    (∃ k rest v, t.stores = [] ∧ t.todo = k :: rest ∧ t.changes k = some v ∧
      p' = { p with engine := (p.engine.call k v).1 } ∧
      t' = { t with todo := rest, stores := (p.engine.call k v).2 }) ∨
    (t.stores = [] ∧ t.todo = [] ∧ t.finished = false ∧
      p' = p.save t.changes t.logLevel saved ∧ t' = { t with finished := true }) := by
  unfold next at h
  cases hstores : t.stores with
  | cons x rest =>
    rw [hstores] at h
    obtain ⟨rfl, rfl⟩ := Prod.mk.inj (Option.some.inj h)
    exact .inl ⟨x.1, x.2, rest, rfl, rfl, rfl⟩
  | nil =>
    rw [hstores] at h
    cases htodo : t.todo with
    | cons k rest =>
      rw [htodo] at h
      obtain ⟨v, hv, hpair⟩ := Option.map_eq_some_iff.mp h
      obtain ⟨rfl, rfl⟩ := Prod.mk.inj hpair
      exact .inr (.inl ⟨k, rest, v, rfl, rfl, hv, rfl, rfl⟩)
    | nil =>
      rw [htodo] at h
      obtain ⟨hfin, h⟩ := Option.ite_none_left_eq_some.mp h
      obtain ⟨rfl, rfl⟩ := Prod.mk.inj (Option.some.inj h)
      exact .inr (.inr ⟨rfl, rfl, Bool.eq_false_iff.mpr hfin, rfl, rfl⟩)

/-- A step leaves what a request changes, and is not behind the last one. -/
theorem Request.next_frame (h : t.next p saved = some (p', t')) (ht : t.Valid) :
    t'.changes = t.changes ∧ t.finished = false := by
  rcases next_cases h with ⟨b, n, rest, hstores, -, rfl⟩ | ⟨k, rest, v, -, htodo, -, -, rfl⟩ |
    ⟨-, -, hfin, -, rfl⟩
  · exact ⟨rfl, (ht.busy (by rw [hstores]; exact List.cons_ne_nil _ _)).1⟩
  · refine ⟨rfl, Bool.eq_false_iff.mpr fun hfin => ?_⟩
    rw [(ht.done hfin).1] at htodo
    cases htodo
  · exact ⟨rfl, hfin⟩

theorem Request.Busy.of_next (hbusy : t'.Busy ks) (ht : t.Valid)
    (h : t.next p saved = some (p', t')) : t.Busy ks := by
  obtain ⟨hchanges, hfin⟩ := next_frame h ht
  obtain ⟨-, k, hk, hsome⟩ := hbusy
  exact ⟨hfin, k, hk, by rw [← hchanges]; exact hsome⟩

theorem Request.Valid.next (ht : t.Valid) (h : t.next p saved = some (p', t')) : t'.Valid := by
  have hfin := (next_frame h ht).2
  rcases next_cases h with ⟨b, n, rest, hstores, -, rfl⟩ | ⟨k, rest, v, -, htodo, hv, -, rfl⟩ |
    ⟨hstores, htodo, -, -, rfl⟩
  · have hbusy := ht.busy (by rw [hstores]; exact List.cons_ne_nil _ _)
    exact ⟨ht.accepts, ht.nodup, fun hf => absurd hf (Bool.eq_false_iff.mp hfin), fun _ => hbusy⟩
  · have hnodup := ht.nodup
    rw [htodo] at hnodup
    refine ⟨ht.accepts, hnodup.of_cons, fun hf => absurd hf (Bool.eq_false_iff.mp hfin),
      fun hne => ?_⟩
    have hk : k ∈ buffers := by
      by_contra hk
      exact hne (Settings.call_stores_eq_nil hk v)
    exact ⟨hfin, k, hk, Option.isSome_iff_exists.mpr ⟨v, hv⟩⟩
  · exact ⟨ht.accepts, ht.nodup, fun _ => ⟨htodo, hstores⟩, fun hne => absurd hstores hne⟩

end

namespace Runtime

theorem exists_of_daemonSetConfig {evalSymlinks : Bytes → Option Bytes} {params : Option Params}
    {t : Request} (h : daemonSetConfig evalSymlinks params = .ok t) :
    ∃ p : Params, t = .new (fun k => (p.settings k).filter k.accepts) p.logLevel := by
  cases params with
  | none => cases h
  | some p =>
    unfold daemonSetConfig at h
    cases hdir : validateDir evalSymlinks (ascii "invalid download_dir: ")
        (p.settings .downloadDir) with
    | error err =>
      simp only [hdir] at h
      cases h
    | ok _ =>
      cases htmp : validateDir evalSymlinks (ascii "invalid tmp_dir: ")
          (p.settings .tmpDir) with
      | error err =>
        simp only [hdir, htmp] at h
        cases h
      | ok _ =>
        simp only [hdir, htmp] at h
        exact ⟨p, (Except.ok.inj h).symm⟩

theorem exists_of_daemonSetMaxActive {params : Option Int} {t : Request}
    (h : daemonSetMaxActive params = .ok t) :
    ∃ n, 1 ≤ n ∧ t = .new (Function.update (fun _ => none) .maxActive (some n)) none := by
  cases params with
  | none => cases h
  | some n =>
    unfold daemonSetMaxActive at h
    dsimp only at h
    split_ifs at h with hn
    exact ⟨n, Int.not_lt.mp hn, (Except.ok.inj h).symm⟩

theorem eq_ok_of_toOption {x : Except RpcErr Request} {t : Request} (h : x.toOption = some t) :
    x = .ok t := by
  cases x with
  | error err => cases h
  | ok u => exact congrArg Except.ok (Option.some.inj h)

/-- An accepted request begins with values that were accepted. -/
theorem Action.exists_of_admits {a : Action} {t : Request} (h : a.admits = some t) :
    ∃ changes logLevel, t = .new changes logLevel ∧
      ∀ k v, changes k = some v → k.accepts v = true := by
  cases a with
  | setConfig evalSymlinks params =>
    obtain ⟨p, rfl⟩ := exists_of_daemonSetConfig (eq_ok_of_toOption h)
    exact ⟨_, _, rfl, fun k v hv => (Option.filter_eq_some_iff.mp hv).2⟩
  | setMaxActive params =>
    obtain ⟨n, hn, rfl⟩ := exists_of_daemonSetMaxActive (eq_ok_of_toOption h)
    refine ⟨_, _, rfl, fun k v hv => ?_⟩
    by_cases hk : k = .maxActive
    · subst hk
      rw [Function.update_self] at hv
      obtain rfl := Option.some.inj hv
      exact decide_eq_true hn
    · rw [Function.update_of_ne hk] at hv
      cases hv
  | advance i saved => cases h

variable {d d' : Runtime} {a : Action} {ks : List Setting} {k : Setting}

/-- A step accepts a request, or takes one of them on, or does nothing but answer. -/
theorem step_cases (h : d.step a = some d') :
    (∃ t, a.admits = some t ∧ d' = { d with requests := d.requests ++ [t] }) ∨
    (∃ i saved t p t', a = .advance i saved ∧ d.requests[i]? = some t ∧
      t.next d.places saved = some (p, t') ∧ d' = ⟨p, d.requests.set i t'⟩) ∨
    d' = d := by
  cases a with
  | advance i saved =>
    obtain ⟨t, ht, h⟩ := Option.bind_eq_some_iff.mp h
    obtain ⟨q, hq, rfl⟩ := Option.map_eq_some_iff.mp h
    exact .inr (.inl ⟨i, saved, t, q.1, q.2, rfl, ht, hq, rfl⟩)
  | _ =>
    rw [← Option.some.inj h]
    cases hadmits : Action.admits _ with
    | none => exact .inr (.inr (by rw [Option.toList_none, List.append_nil]))
    | some t => exact .inl ⟨t, rfl, rfl⟩

/-- A request that changes one of the settings begins when no other one is busy with them. -/
def Apart (ks : List Setting) (d : Runtime) (a : Action) : Prop :=
  ∀ t ∈ a.admits, t.Busy ks → ∀ u ∈ d.requests, ¬u.Busy ks

instance (ks : List Setting) (d : Runtime) (a : Action) : Decidable (d.Apart ks a) :=
  inferInstanceAs (Decidable (∀ t ∈ a.admits, t.Busy ks → ∀ u ∈ d.requests, ¬u.Busy ks))

/-- The requests are valid, and at most one is busy with the settings. -/
structure Orderly (ks : List Setting) (d : Runtime) : Prop where
  valid : ∀ t ∈ d.requests, t.Valid
  alone : ∀ (i j : Nat) (t u : Request), d.requests[i]? = some t → d.requests[j]? = some u →
    t.Busy ks → u.Busy ks → i = j

theorem valid_new {changes : Changes} {logLevel : Option Bytes}
    (h : ∀ k v, changes k = some v → k.accepts v = true) :
    (Request.new changes logLevel).Valid where
  accepts := h
  nodup := List.Nodup.filter _ (by decide)
  done := nofun
  busy hne := absurd rfl hne

theorem Orderly.admit {t : Request} (hd : d.Orderly ks) (ht : t.Valid)
    (hnew : t.Busy ks → ∀ u ∈ d.requests, ¬u.Busy ks) :
    Orderly ks { d with requests := d.requests ++ [t] } := by
  refine ⟨fun u hu => ?_, fun i j u v hu hv hbu hbv => ?_⟩
  · rcases List.mem_append.mp hu with hu | hu
    · exact hd.valid u hu
    · exact List.mem_singleton.mp hu ▸ ht
  · rcases getElem?_concat_cases hu with hi | ⟨rfl, rfl⟩ <;>
      rcases getElem?_concat_cases hv with hj | ⟨rfl, rfl⟩
    · exact hd.alone i j u v hi hj hbu hbv
    · exact absurd hbu (hnew hbv u (List.mem_of_getElem? hi))
    · exact absurd hbv (hnew hbu v (List.mem_of_getElem? hj))
    · rfl

theorem Orderly.advance {i : Nat} {saved : Bool} {t t' : Request} {p : Places} (hd : d.Orderly ks)
    (hi : d.requests[i]? = some t) (hnext : t.next d.places saved = some (p, t')) :
    Orderly ks ⟨p, d.requests.set i t'⟩ := by
  have ht := hd.valid t (List.mem_of_getElem? hi)
  -- a request that is busy was busy before, at the same place
  have hbusy : ∀ (j : Nat) u, (d.requests.set i t')[j]? = some u → u.Busy ks →
      ∃ w, d.requests[j]? = some w ∧ w.Busy ks := by
    intro j u hu hb
    rw [List.getElem?_set] at hu
    split_ifs at hu with hij hlt
    · obtain rfl := Option.some.inj hu
      exact ⟨t, hij ▸ hi, hb.of_next ht hnext⟩
    · exact ⟨u, hu, hb⟩
  refine ⟨fun u hu => ?_, fun j l u v hu hv hbu hbv => ?_⟩
  · rcases List.mem_or_eq_of_mem_set hu with hu | rfl
    · exact hd.valid u hu
    · exact ht.next hnext
  · obtain ⟨u₀, hu₀, hbu₀⟩ := hbusy j u hu hbu
    obtain ⟨v₀, hv₀, hbv₀⟩ := hbusy l v hv hbv
    exact hd.alone j l u₀ v₀ hu₀ hv₀ hbu₀ hbv₀

theorem orderly_step (hd : d.Orderly ks) (ha : d.Apart ks a) (h : d.step a = some d') :
    d'.Orderly ks := by
  rcases step_cases h with ⟨t, hadmits, rfl⟩ | ⟨i, saved, t, p, t', -, hi, hnext, rfl⟩ | rfl
  · obtain ⟨changes, logLevel, rfl, haccepts⟩ := Action.exists_of_admits hadmits
    exact hd.admit (valid_new haccepts) (ha _ hadmits)
  · exact hd.advance hi hnext
  · exact hd

/-! ## One setting -/

/-- The engine has the value of the configuration, or that of the request which has set it and
has not saved it yet. -/
structure Settled (k : Setting) (d : Runtime) : Prop where
  idle : (∀ t ∈ d.requests, t.Busy [k] → k ∈ t.todo) →
    d.places.engine k = k.initial (d.places.cfg.settings k)
  set : ∀ t ∈ d.requests, t.Busy [k] → k ∉ t.todo → t.changes k = some (d.places.engine k)

theorem busy_singleton {t : Request} :
    t.Busy [k] ↔ t.finished = false ∧ (t.changes k).isSome = true := by
  rw [Request.Busy, List.exists_mem_cons_iff]
  simp only [List.not_mem_nil, false_and, exists_false, or_false]

/-- Steps that are not about the setting. -/
theorem Settled.of_same {i : Nat} {t t' : Request} {p : Places} (hs : d.Settled k)
    (hi : d.requests[i]? = some t) (hbusy : t'.Busy [k] ↔ t.Busy [k])
    (htodo : t.Busy [k] → (k ∈ t'.todo ↔ k ∈ t.todo)) (hchanges : t'.changes = t.changes)
    (hengine : p.engine k = d.places.engine k)
    (hcfg : p.cfg.settings k = d.places.cfg.settings k) :
    Settled k ⟨p, d.requests.set i t'⟩ := by
  refine ⟨fun hall => ?_, fun u hu hbu hdone => ?_⟩
  · rw [hengine, hcfg]
    refine hs.idle (forall_mem_of_set hi hall fun ht' hbt => ?_)
    exact (htodo hbt).mp (ht' (hbusy.mpr hbt))
  · rw [hengine]
    rcases mem_set_cases hu with rfl | ⟨j, -, hj⟩
    · have hbt := hbusy.mp hbu
      rw [hchanges]
      exact hs.set t (List.mem_of_getElem? hi) hbt fun hk => hdone ((htodo hbt).mpr hk)
    · exact hs.set u (List.mem_of_getElem? hj) hbu hdone

/-- The other requests are not busy with what one is busy with. -/
theorem Orderly.not_busy {i j : Nat} {t u : Request} (hd : d.Orderly ks)
    (hi : d.requests[i]? = some t) (hbusy : t.Busy ks) (hij : j ≠ i)
    (hj : d.requests[j]? = some u) : ¬u.Busy ks :=
  fun hbu => hij (hd.alone j i u t hj hi hbu hbusy)

/-- The setter of the setting is called. -/
theorem Settled.call {i : Nat} {t t' : Request} {p : Places} {rest : List Setting} {v : k.Value}
    (hd : d.Orderly [k]) (hi : d.requests[i]? = some t) (hbusy : t.Busy [k])
    (htodo : t.todo = k :: rest) (hv : t.changes k = some v) (hengine : p.engine k = v)
    (hchanges : t'.changes = t.changes) (hfin : t'.finished = t.finished)
    (htodo' : t'.todo = rest) :
    Settled k ⟨p, d.requests.set i t'⟩ := by
  have hnodup := (hd.valid t (List.mem_of_getElem? hi)).nodup
  rw [htodo, List.nodup_cons] at hnodup
  have hmem : t' ∈ d.requests.set i t' := List.mem_set (List.getElem?_eq_some_iff.mp hi).1 _
  refine ⟨fun hall => ?_, fun u hu hbu _ => ?_⟩
  · have hbusy' : t'.Busy [k] := by
      rw [busy_singleton, hfin, hchanges]
      exact busy_singleton.mp hbusy
    have hk := hall t' hmem hbusy'
    rw [htodo'] at hk
    exact absurd hk hnodup.1
  · rcases mem_set_cases hu with rfl | ⟨j, hij, hj⟩
    · rw [hchanges, hv, hengine]
    · exact absurd hbu (hd.not_busy hi hbusy hij hj)

/-- The setting is saved. -/
theorem Settled.save {i : Nat} {saved : Bool} {t : Request} {v : k.Value} (hs : d.Settled k)
    (hd : d.Orderly [k]) (hi : d.requests[i]? = some t) (htodo : t.todo = [])
    (hbusy : t.Busy [k]) (hv : t.changes k = some v) :
    Settled k ⟨d.places.save t.changes t.logLevel saved,
      d.requests.set i { t with finished := true }⟩ := by
  have hmem := List.mem_of_getElem? hi
  have hset := hs.set t hmem hbusy (by rw [htodo]; exact List.not_mem_nil)
  rw [hv, Option.some_inj] at hset
  refine ⟨fun _ => ?_, fun u hu hbu _ => ?_⟩
  · simp only [Places.save, hv, Option.getD_some]
    rw [← hset, Setting.initial_of_accepts ((hd.valid t hmem).accepts k v hv)]
  · rcases mem_set_cases hu with rfl | ⟨j, hij, hj⟩
    · cases hbu.1
    · exact absurd hbu (hd.not_busy hi hbusy hij hj)

theorem Settled.advance {i : Nat} {saved : Bool} {t t' : Request} {p : Places} (hs : d.Settled k)
    (hd : d.Orderly [k]) (hi : d.requests[i]? = some t)
    (hnext : t.next d.places saved = some (p, t')) : Settled k ⟨p, d.requests.set i t'⟩ := by
  have ht := hd.valid t (List.mem_of_getElem? hi)
  have hfin := (Request.next_frame hnext ht).2
  rcases Request.next_cases hnext with ⟨b, n, rest, -, rfl, rfl⟩ |
    ⟨k', rest, v, -, htodo, hv, rfl, rfl⟩ | ⟨-, htodo, -, rfl, rfl⟩
  · exact hs.of_same hi Iff.rfl (fun _ => Iff.rfl) rfl rfl rfl
  · have hcall : (d.places.engine.call k' v).1 = d.places.engine.put k' v :=
      Settings.call_engine (ht.accepts k' v hv)
    by_cases hk : k = k'
    · subst hk
      refine Settled.call hd hi (busy_singleton.mpr ⟨hfin, by rw [hv]; rfl⟩) htodo hv ?_ rfl rfl rfl
      dsimp only
      rw [hcall]
      exact Function.update_self _ _ _
    · refine hs.of_same hi Iff.rfl (fun _ => ?_) rfl ?_ rfl
      · rw [htodo, List.mem_cons, or_iff_right hk]
      · dsimp only
        rw [hcall]
        exact Function.update_of_ne hk _ _
  · cases hchange : t.changes k with
    | none =>
      have hnot : ¬t.Busy [k] := by
        rw [busy_singleton, hchange]
        exact fun h => Bool.false_ne_true h.2
      refine hs.of_same hi ?_ (fun _ => Iff.rfl) rfl rfl ?_
      · exact iff_of_false (fun hb => Bool.noConfusion hb.1) hnot
      · simp only [Places.save, hchange, Option.getD_none]
    | some v =>
      exact hs.save hd hi htodo (busy_singleton.mpr ⟨hfin, by rw [hchange]; rfl⟩) hchange

theorem Settled.admit {changes : Changes} {logLevel : Option Bytes} (hs : d.Settled k) :
    Settled k { d with requests := d.requests ++ [.new changes logLevel] } := by
  refine ⟨fun hall => hs.idle fun u hu => hall u (List.mem_append_left _ hu),
    fun u hu hbu hdone => ?_⟩
  rcases List.mem_append.mp hu with hu | hu
  · exact hs.set u hu hbu hdone
  · obtain rfl := List.mem_singleton.mp hu
    have hk : k ∈ (Request.new changes logLevel).todo :=
      List.mem_filter.mpr ⟨k.mem_setters, (busy_singleton.mp hbu).2⟩
    exact absurd hk hdone

theorem settled_step (hs : d.Settled k) (hd : d.Orderly [k]) (h : d.step a = some d') :
    d'.Settled k := by
  rcases step_cases h with ⟨t, hadmits, rfl⟩ | ⟨i, saved, t, p, t', -, hi, hnext, rfl⟩ | rfl
  · obtain ⟨changes, logLevel, rfl, -⟩ := Action.exists_of_admits hadmits
    exact hs.admit
  · exact hs.advance hd hi hnext
  · exact hs

/-! ## The socket buffers -/

/-- What is installed is what the engine has, unless it is about to be stored. -/
structure Installed (d : Runtime) : Prop where
  idle : ∀ b, (∀ t ∈ d.requests, ∀ n, (b, n) ∉ t.stores) →
    d.places.installed b = bufferSize (d.places.engine.buffer b)
  stores : ∀ t ∈ d.requests, ∀ b n, (b, n) ∈ t.stores → n = bufferSize (d.places.engine.buffer b)

theorem mem_setPeerSocketBuffers {e : Settings} {b : Buffer} {n : Int} :
    (b, n) ∈ setPeerSocketBuffers (e.buffer .send) (e.buffer .recv) ↔
      n = bufferSize (e.buffer b) := by
  cases b <;> simp [setPeerSocketBuffers]

theorem buffer_put_of_notMem {e : Settings} {v : k.Value} (hk : k ∉ buffers) :
    (e.put k v).buffer = e.buffer := by
  have hsend : .socketSendBuffer ≠ k := fun h => hk (List.mem_cons.mpr (.inl h.symm))
  have hrecv : .socketRecvBuffer ≠ k := fun h =>
    hk (List.mem_cons_of_mem _ (List.mem_singleton.mpr h.symm))
  funext b
  cases b with
  | send => exact Function.update_of_ne hsend _ _
  | recv => exact Function.update_of_ne hrecv _ _

/-- Steps after which the engine has the same buffers and the request has nothing to store. -/
theorem Installed.of_same {i : Nat} {t t' : Request} {p : Places} (hs : d.Installed)
    (hi : d.requests[i]? = some t) (hstores : t.stores = []) (hstores' : t'.stores = [])
    (hengine : p.engine.buffer = d.places.engine.buffer)
    (hinstalled : p.installed = d.places.installed) :
    Installed ⟨p, d.requests.set i t'⟩ := by
  refine ⟨fun b hall => ?_, fun u hu b n hn => ?_⟩
  · dsimp only
    rw [hengine, hinstalled]
    refine hs.idle b (forall_mem_of_set hi hall fun _ n => ?_)
    rw [hstores]
    exact List.not_mem_nil
  · dsimp only
    rw [hengine]
    rcases mem_set_cases hu with rfl | ⟨j, -, hj⟩
    · rw [hstores'] at hn
      cases hn
    · exact hs.stores u (List.mem_of_getElem? hj) b n hn

/-- A size is stored. -/
theorem Installed.store {i : Nat} {t : Request} {b : Buffer} {n : Int} {rest : List (Buffer × Int)}
    (hs : d.Installed) (hi : d.requests[i]? = some t) (hstores : t.stores = (b, n) :: rest) :
    Installed ⟨d.places.store b n, d.requests.set i { t with stores := rest }⟩ := by
  have hmem := List.mem_of_getElem? hi
  refine ⟨fun c hall => ?_, fun u hu c m hm => ?_⟩
  · by_cases hcb : c = b
    · subst hcb
      have hn := hs.stores t hmem c n (by rw [hstores]; exact List.mem_cons_self)
      exact (Function.update_self c n d.places.installed).trans hn
    · refine (Function.update_of_ne hcb n d.places.installed).trans ?_
      refine hs.idle c (forall_mem_of_set hi hall fun hrest m => ?_)
      rw [hstores, List.mem_cons, not_or]
      exact ⟨fun heq => hcb (Prod.mk.inj heq).1, hrest m⟩
  · rcases mem_set_cases hu with rfl | ⟨j, -, hj⟩
    · exact hs.stores t hmem c m (by rw [hstores]; exact List.mem_cons_of_mem _ hm)
    · exact hs.stores u (List.mem_of_getElem? hj) c m hm

/-- The setter of a buffer is called. -/
theorem Installed.call {i : Nat} {t t' : Request} {p : Places} (hd : d.Orderly buffers)
    (hi : d.requests[i]? = some t) (hbusy : t.Busy buffers)
    (hstores : t'.stores = setPeerSocketBuffers (p.engine.buffer .send) (p.engine.buffer .recv)) :
    Installed ⟨p, d.requests.set i t'⟩ := by
  have hmem : t' ∈ d.requests.set i t' := List.mem_set (List.getElem?_eq_some_iff.mp hi).1 _
  refine ⟨fun b hall => ?_, fun u hu b n hn => ?_⟩
  · refine absurd ?_ (hall t' hmem (bufferSize (p.engine.buffer b)))
    rw [hstores]
    exact mem_setPeerSocketBuffers.mpr rfl
  · rcases mem_set_cases hu with rfl | ⟨j, hij, hj⟩
    · rw [hstores] at hn
      exact mem_setPeerSocketBuffers.mp hn
    · -- another request with something to store would be busy as well
      have hbu := (hd.valid u (List.mem_of_getElem? hj)).busy (List.ne_nil_of_mem hn)
      exact absurd hbu (hd.not_busy hi hbusy hij hj)

theorem Installed.advance {i : Nat} {saved : Bool} {t t' : Request} {p : Places} (hs : d.Installed)
    (hd : d.Orderly buffers) (hi : d.requests[i]? = some t)
    (hnext : t.next d.places saved = some (p, t')) : Installed ⟨p, d.requests.set i t'⟩ := by
  have ht := hd.valid t (List.mem_of_getElem? hi)
  have hfin := (Request.next_frame hnext ht).2
  rcases Request.next_cases hnext with ⟨b, n, rest, hstores, rfl, rfl⟩ |
    ⟨k, rest, v, hstores, -, hv, rfl, rfl⟩ | ⟨hstores, -, -, rfl, rfl⟩
  · exact hs.store hi hstores
  · by_cases hk : k ∈ buffers
    · exact Installed.call hd hi ⟨hfin, k, hk, by rw [hv]; rfl⟩ (Settings.call_stores hk v)
    · refine hs.of_same hi hstores (Settings.call_stores_eq_nil hk v) ?_ rfl
      dsimp only
      rw [Settings.call_engine (ht.accepts k v hv), buffer_put_of_notMem hk]
  · exact hs.of_same hi hstores hstores rfl rfl

theorem installed_step (hs : d.Installed) (hd : d.Orderly buffers) (h : d.step a = some d') :
    d'.Installed := by
  rcases step_cases h with ⟨t, hadmits, rfl⟩ | ⟨i, saved, t, p, t', -, hi, hnext, rfl⟩ | rfl
  · obtain ⟨changes, logLevel, rfl, -⟩ := Action.exists_of_admits hadmits
    refine ⟨fun b hall => hs.idle b fun u hu => hall u (List.mem_append_left _ hu),
      fun u hu b n hn => ?_⟩
    rcases List.mem_append.mp hu with hu | hu
    · exact hs.stores u hu b n hn
    · rw [List.mem_singleton.mp hu] at hn
      cases hn
  · exact hs.advance hd hi hnext
  · exact hs

/-! ## The configuration of the handler -/

/-- Of the steps of requests only the last one is about the configuration of the handler. -/
theorem cfg_step (h : d.step a = some d') :
    d'.places.cfg = d.places.cfg ∧ d'.places.disk = d.places.disk ∨
      ∃ i saved, ∃ t ∈ d.requests, a = .advance i saved ∧
        d'.places = d.places.save t.changes t.logLevel saved := by
  rcases step_cases h with ⟨t, -, rfl⟩ | ⟨i, saved, t, p, t', rfl, hi, hnext, rfl⟩ | rfl
  · exact .inl ⟨rfl, rfl⟩
  · rcases Request.next_cases hnext with ⟨b, n, rest, -, rfl, -⟩ | ⟨k, rest, v, -, -, -, rfl, -⟩ |
      ⟨-, -, -, rfl, -⟩
    · exact .inl ⟨rfl, rfl⟩
    · exact .inl ⟨rfl, rfl⟩
    · exact .inr ⟨i, saved, t, List.mem_of_getElem? hi, rfl, rfl⟩
  · exact .inl ⟨rfl, rfl⟩

/-- No `Save` fails. -/
def Saves (_ : Runtime) : Action → Prop
  | .advance _ saved => saved = true
  | .setConfig .. | .setMaxActive _ => True

instance (d : Runtime) : ∀ a, Decidable (d.Saves a)
  | .advance _ saved => inferInstanceAs (Decidable (saved = true))
  | .setConfig .. | .setMaxActive _ => isTrue trivial

theorem disk_step (hs : d.places.disk = d.places.cfg) (ha : d.Saves a) (h : d.step a = some d') :
    d'.places.disk = d'.places.cfg := by
  rcases cfg_step h with ⟨hcfg, hdisk⟩ | ⟨i, saved, t, -, rfl, hplaces⟩
  · rw [hcfg, hdisk, hs]
  · rw [hplaces]
    exact if_pos ha

theorem accepted_step (hs : d.places.cfg.settings.Accepted) (hd : d.Orderly ks)
    (h : d.step a = some d') : d'.places.cfg.settings.Accepted := by
  intro k
  rcases cfg_step h with ⟨hcfg, -⟩ | ⟨i, saved, t, ht, -, hplaces⟩
  · rw [hcfg]
    exact hs k
  · rw [hplaces]
    cases hchange : t.changes k with
    | none =>
      simp only [Places.save, hchange, Option.getD_none]
      exact hs k
    | some v =>
      simp only [Places.save, hchange, Option.getD_some]
      exact (hd.valid t ht).accepts k v hchange

/-! ## Whole runs -/

section
variable {cfg : Config} {as : List Action}

theorem orderly_boot (ks : List Setting) (cfg : Config) : (boot cfg).Orderly ks :=
  ⟨nofun, nofun⟩

theorem orderly_of_exec (hapart : Guarded step (Apart ks) (boot cfg) as)
    (hrun : exec step (boot cfg) as = some d) : d.Orderly ks :=
  exec_invariant (fun _ _ _ hd ha h => orderly_step hd ha h) (orderly_boot ks cfg) hapart hrun

theorem settled_of_exec (hapart : Guarded step (Apart [k]) (boot cfg) as)
    (hrun : exec step (boot cfg) as = some d) : d.Settled k := by
  have hstep : ∀ d a d', Orderly [k] d ∧ Settled k d → d.Apart [k] a → d.step a = some d' →
      Orderly [k] d' ∧ Settled k d' :=
    fun _ _ _ hd ha h => ⟨orderly_step hd.1 ha h, settled_step hd.2 hd.1 h⟩
  have hboot : Settled k (boot cfg) := ⟨fun _ => rfl, fun _ ht => nomatch ht⟩
  exact (exec_invariant hstep ⟨orderly_boot [k] cfg, hboot⟩ hapart hrun).2

theorem installed_of_exec (hapart : Guarded step (Apart buffers) (boot cfg) as)
    (hrun : exec step (boot cfg) as = some d) : d.Installed := by
  have hstep : ∀ d a d', Orderly buffers d ∧ Installed d → d.Apart buffers a →
      d.step a = some d' → Orderly buffers d' ∧ Installed d' :=
    fun _ _ _ hd ha h => ⟨orderly_step hd.1 ha h, installed_step hd.2 hd.1 h⟩
  have hboot : Installed (boot cfg) :=
    ⟨fun b _ => by cases b <;> rfl, fun _ ht => nomatch ht⟩
  exact (exec_invariant hstep ⟨orderly_boot buffers cfg, hboot⟩ hapart hrun).2

theorem accepted_of_exec (hcfg : cfg.settings.Accepted)
    (hapart : Guarded step (Apart ks) (boot cfg) as) (hrun : exec step (boot cfg) as = some d) :
    d.places.cfg.settings.Accepted := by
  have hstep : ∀ d a d', Orderly ks d ∧ d.places.cfg.settings.Accepted → d.Apart ks a →
      d.step a = some d' → Orderly ks d' ∧ d'.places.cfg.settings.Accepted :=
    fun _ _ _ hd ha h => ⟨orderly_step hd.1 ha h, accepted_step hd.2 hd.1 h⟩
  exact (exec_invariant hstep ⟨orderly_boot ks cfg, hcfg⟩ hapart hrun).2

end

theorem bufferSize_of_accepted {e : Settings} (h : e.Accepted) (b : Buffer) :
    bufferSize (e.buffer b) = e.buffer b := by
  cases b with
  | send => exact if_neg (Int.not_lt.mpr (of_decide_eq_true (h .socketSendBuffer)))
  | recv => exact if_neg (Int.not_lt.mpr (of_decide_eq_true (h .socketRecvBuffer)))

/-- When all requests are done, the engine has a setting as the configuration of the handler has
it, with the defaults of `New`, if no two requests that change it overlap.  The buffers that are
installed are those of the engine if no two requests that change either overlap.  The file is the
configuration if no `Save` fails.  With all of that, and a configuration that names every value,
there is one value of each setting. -/
theorem config_agrees (cfg : Config) {as : List Action} {d : Runtime}
    (hrun : exec step (boot cfg) as = some d) (hdone : ∀ t ∈ d.requests, t.finished = true) :
    (∀ k, Guarded step (Apart [k]) (boot cfg) as →
      d.places.engine k = k.initial (d.places.cfg.settings k)) ∧
    (Guarded step (Apart buffers) (boot cfg) as →
      ∀ b, d.places.installed b = bufferSize (d.places.engine.buffer b)) ∧
    (Guarded step Saves (boot cfg) as → d.places.disk = d.places.cfg) ∧
    (cfg.settings.Accepted → (∀ k, Guarded step (Apart [k]) (boot cfg) as) →
      Guarded step (Apart buffers) (boot cfg) as → Guarded step Saves (boot cfg) as →
        d.places.Agree) := by
  have hengine : ∀ k, Guarded step (Apart [k]) (boot cfg) as →
      d.places.engine k = k.initial (d.places.cfg.settings k) := by
    intro k hapart
    refine (settled_of_exec hapart hrun).idle fun t ht hbusy => ?_
    exact absurd (hdone t ht) (Bool.eq_false_iff.mp hbusy.1)
  have hinstalled : Guarded step (Apart buffers) (boot cfg) as →
      ∀ b, d.places.installed b = bufferSize (d.places.engine.buffer b) := by
    intro hapart b
    refine (installed_of_exec hapart hrun).idle b fun t ht n => ?_
    rw [(((orderly_of_exec hapart hrun).valid t ht).done (hdone t ht)).2]
    exact List.not_mem_nil
  have hdisk : Guarded step Saves (boot cfg) as → d.places.disk = d.places.cfg := by
    intro hsaves
    have hstep : ∀ d a d', Places.disk (places d) = d.places.cfg → d.Saves a → d.step a = some d' →
        d'.places.disk = d'.places.cfg := fun _ _ _ hs ha h => disk_step hs ha h
    exact exec_invariant hstep rfl hsaves hrun
  refine ⟨hengine, hinstalled, hdisk, fun hcfg hapart hbuffers hsaves => ?_⟩
  have haccepts := accepted_of_exec hcfg hbuffers hrun
  have hall : d.places.engine = d.places.cfg.settings := by
    funext k
    rw [hengine k (hapart k), Setting.initial_of_accepts (haccepts k)]
  refine ⟨fun k => ?_, (hdisk hsaves).symm, fun b => ?_⟩
  · rw [hdisk hsaves, hall]
  · rw [hinstalled hbuffers, hdisk hsaves, hall, bufferSize_of_accepted haccepts]

/-- A configuration that names every value. -/
def exampleConfig : Config where
  settings
    | .downloadDir | .tmpDir => ascii "/d"
    | .enableUTP | .prioritizeFirstLast | .sequential => false
    | .maxActive | .maxPeers | .maxPipeline | .dialTimeout | .numWant | .pipelineMin | .pipelineMax
    | .pipelineWindowSecs | .socketSendBuffer | .socketRecvBuffer => 1
  logLevel := ascii "info"

/-- A request for one setting. -/
def setOne (k : Setting) (v : k.Value) : Action :=
  .setConfig (fun _ => none) (some ⟨Function.update (fun _ => none) k (some v), none⟩)

/-- Two requests for different settings step by step in turn, and then one for the other buffer. -/
def inTurn : List Action :=
  [setOne .socketSendBuffer 7, .setMaxActive (some 2), .advance 0 true, .advance 1 true,
    .advance 0 true, .advance 1 true, .advance 0 true, .advance 0 true,
    setOne .socketRecvBuffer 9, .advance 2 true, .advance 2 true, .advance 2 true, .advance 2 true]

theorem config_agrees_inTurn :
    ∃ d, exec step (boot exampleConfig) inTurn = some d ∧ d.places.installed .send = 7 ∧
      d.places.installed .recv = 9 ∧ d.places.engine .maxActive = 2 ∧ d.places.Agree := by
  obtain ⟨d, hd, hsend, hrecv, hactive, hdone⟩ : ∃ d,
      exec step (boot exampleConfig) inTurn = some d ∧ d.places.installed .send = 7 ∧
        d.places.installed .recv = 9 ∧ d.places.engine .maxActive = 2 ∧
        ∀ t ∈ d.requests, t.finished = true := by decide +kernel
  refine ⟨d, hd, hsend, hrecv, hactive, ?_⟩
  refine (config_agrees exampleConfig hd hdone).2.2.2 ?_ ?_ (by decide +kernel) (by decide +kernel)
  · intro k
    cases k <;> decide +kernel
  · intro k
    cases k <;> decide +kernel

/-- Two requests for one setting, where the second goes between the two steps of the first; and
one for each of the buffers, where the first installs what it has read before. -/
theorem config_disagrees :
    (∃ d, exec step (boot exampleConfig)
        [setOne .maxPeers 2, setOne .maxPeers 3, .advance 0 true, .advance 1 true, .advance 1 true,
          .advance 0 true] = some d ∧
      (∀ t ∈ d.requests, t.finished = true) ∧ d.places.engine .maxPeers = 3 ∧
      d.places.disk.settings .maxPeers = 2) ∧
    ∃ d, exec step (boot exampleConfig)
        [setOne .socketSendBuffer 7, setOne .socketRecvBuffer 9, .advance 0 true, .advance 1 true,
          .advance 1 true, .advance 1 true, .advance 1 true, .advance 0 true, .advance 0 true,
          .advance 0 true] = some d ∧
      (∀ t ∈ d.requests, t.finished = true) ∧ d.places.engine .socketRecvBuffer = 9 ∧
      d.places.disk.settings .socketRecvBuffer = 9 ∧ d.places.installed .recv = 1 := by
  constructor <;> decide +kernel

end Runtime

end Stor.Daemon
