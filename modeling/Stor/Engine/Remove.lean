import Stor.Engine.Delete

/-!
# Removing a torrent while its session runs

`RemoveTorrent` cancels the session and does not wait for it.  It reads the
record some time later, and deletes the paths that `removePaths` finds there one
after the other, while the goroutine goes on from wherever it is and the uploader
opens its files for peers that connect.

`made` remembers which of the two places of the torrent hold what the session
put there.  `nothing_left` says when the call leaves none of them: the record
was read when it knew where the data is, and nothing was created after that.
-/

namespace Stor.Engine

open Lib Torrent Storage

/-! ## The name and the path in the record -/

namespace Session

/-- The record has the name of the torrent file, as soon as there is one. -/
structure Listed (env : Env) (s : Session) : Prop where
  fetching : ∀ m, s.pc = .fetch m → s.tf = none
  name : ∀ tf, s.tf = some tf → s.record.name = tf.info.name ∨ tf.info.name = []
  stored : s.tf = none → ∀ tf, Torrent.parse env.digests s.record.torrentData = .ok tf →
    s.record.name = tf.info.name ∨ tf.info.name = []

/-- The path in the record is the final one. -/
def PathOk (s : Session) : Prop :=
  s.record.savePath = [] ∨ ∃ tf, s.tf = some tf ∧ s.record.savePath = s.finalPath tf.info

variable {env : Env} {s t : Session} {a : Action} {tf : TorrentFile}

theorem Listed.frame (h : Listed env s) (htf : t.tf = s.tf) (hname : t.record.name = s.record.name)
    (hdata : t.record.torrentData = s.record.torrentData)
    (hpc : ∀ m, t.pc = .fetch m → s.tf = none) : Listed env t := by
  refine ⟨fun m hm => htf.trans (hpc m hm), fun tf ht => ?_, fun ht tf hparse => ?_⟩
  · rw [hname]
    exact h.name tf (htf ▸ ht)
  · rw [hname]
    exact h.stored (htf ▸ ht) tf (hdata ▸ hparse)

theorem step_listed (h : Listed env s) (hstep : Step env s a t) : Listed env t := by
  cases hstep with
  | stored hpc hnone tf hparse =>
    refine ⟨nofun, fun tf' htf' => ?_, nofun⟩
    rw [← Option.some_inj.mp htf']
    exact h.stored hnone tf hparse
  | source hpc hnone data tf hparse =>
    refine ⟨nofun, fun tf' htf' => ?_, nofun⟩
    rw [← Option.some_inj.mp htf']
    exact .inl rfl
  | fetched m hpc metadata tf hfetch =>
    refine ⟨nofun, fun tf' htf' => ?_, nofun⟩
    rw [← Option.some_inj.mp htf', restoreAnnounce_info]
    exact .inl rfl
  | link hpc hnone m hlink => exact h.frame rfl rfl rfl fun _ _ => hnone
  | downloaded hpc tf htf hsuccess =>
    refine h.frame rfl rfl rfl fun m hm => ?_
    split_ifs at hm
  | receive | download | pause | resumeTorrent | setFilePriority =>
    exact h.frame rfl rfl rfl h.fetching
  | _ => exact h.frame rfl rfl rfl nofun

/-- A torrent file that is there stays. -/
theorem step_tf (h : Listed env s) (hstep : Step env s a t) (htf : s.tf = some tf) :
    t.tf = some tf := by
  have hnone : s.tf ≠ none := by
    rw [htf]
    exact Option.some_ne_none tf
  cases hstep with
  | stored _ hno => exact absurd hno hnone
  | source _ hno => exact absurd hno hnone
  | fetched m hpc => exact absurd (h.fetching m hpc) hnone
  | _ => exact htf

theorem step_named (h : Listed env s) (hstep : Step env s a t) (hnamed : s.Named) : t.Named := by
  obtain ⟨tf, htf, hname⟩ := hnamed
  exact ⟨tf, step_tf h hstep htf, hname⟩

theorem step_pathOk (h : PathOk s) (hok : Ok env s) (hlisted : Listed env s)
    (hstep : Step env s a t) : PathOk t := by
  have hfinal : ∀ info, t.finalPath info = s.finalPath info := finalPath_congr (step_dirs hstep).1
  have hkept : (∃ tf, s.tf = some tf ∧ t.record.savePath = s.finalPath tf.info) → PathOk t := by
    intro ⟨tf, htf, hpath⟩
    exact .inr ⟨tf, step_tf hlisted hstep htf, hpath.trans (hfinal tf.info).symm⟩
  rcases step_savePath hok hstep with hsame | ⟨tf, htf, _, hpath⟩
  · rcases h with hnil | ⟨tf, htf, hpath⟩
    · exact .inl (hsame.trans hnil)
    · exact hkept ⟨tf, htf, hsame.trans hpath⟩
  · exact hkept ⟨tf, htf, hpath⟩

/-! ## What creates files -/

/-- The steps of the goroutine that can put something on the disk. -/
def creates : Action → Bool
  | .makeDir | .resumeBits | .openTarget | .preallocate | .moveFile => true
  | _ => false

/-- What was not there and is there after a step was put there behind the check of
the name. -/
theorem step_creates {k : List Bytes} (hstep : Step env s a t) (hnone : s.disk k = none)
    (hsome : t.disk k ≠ none) : creates a = true ∧ pastName s.pc = true := by
  cases hstep with
  | makeDir hpc | resumeBits hpc | openTarget hpc | openFailed hpc | preallocate hpc
  | preallocateFailed hpc | moveFile hpc =>
    rw [hpc]
    exact ⟨rfl, rfl⟩
  | receive hpc tf htf r rest hch disk hwrite dl hdl =>
    exact absurd (writeTarget_none hwrite hnone) hsome
  | _ => exact absurd hnone hsome

end Session

/-! ## The call -/

/-- Where the call stands, with the paths that it has still to delete. -/
inductive Remover where
  | idle
  | paused
  | removing (rest : List Bytes)
  deriving DecidableEq, Repr

def Remover.hasRead : Remover → Bool
  | .removing _ => true
  | _ => false

/-- A torrent with the call that removes it.  `uploader` is the path that the
uploader serves. -/
structure Removal where
  session : Session
  uploader : Option Bytes
  made : List (List Bytes)
  remover : Remover

namespace Removal

inductive Action where
  | session (a : Engine.Action)
  | serve
  | removeTorrent
  | readRecord
  | removeNext

def ofEntry (e : Entry) : Removal := ⟨e.session, none, [], .idle⟩

/-! ## What is made where -/

/-- The places of the torrent: its final path and its working path. -/
def places (env : Env) (s : Session) : List (List Bytes) :=
  match s.tf with
  | none => []
  | some tf => [resolve env.cwd (s.finalPath tf.info), resolve env.cwd (s.workPath tf.info)]

/-- A move brings what was made at the working path to the final path. -/
def carried (env : Env) (made : List (List Bytes)) (s : Session) (a : Engine.Action) (t : Session) :
    List (List Bytes) :=
  match a, s.tf with
  | .moveFile, some tf =>
    if t.pc = .finish ∧ resolve env.cwd (s.workPath tf.info) ∈ made then
      [resolve env.cwd (s.finalPath tf.info)]
    else []
  | _, _ => []

/-- What of the places is made, when the disk of `s` becomes that of `t`. -/
def madeAfter (env : Env) (made : List (List Bytes)) (s t : Session) : List (List Bytes) :=
  (places env t).filter fun k => (t.disk k).isSome && (decide (k ∈ made) || (s.disk k).isNone)

/-- The uploader is made for the working path, stopped for the move and made again
for the final path. -/
def uploaderAfter (uploader : Option Bytes) (s : Session) (a : Engine.Action) (t : Session) :
    Option Bytes :=
  match a, t.pc, t.tf with
  | .resumeBits, .openTarget, some tf => some (t.workPath tf.info)
  | .checkResume, .seed, _ => some t.record.savePath
  | .moveFile, .finish, some tf => some (t.finalPath tf.info)
  | .moveFile, _, _ => none
  | .leave, _, _ => if s.pc = .seed then none else uploader
  | _, _, _ => uploader

/-! ## The steps -/

/-- What the engine does to a session that it has in its map. -/
def fromEngine : Engine.Action → Bool
  | .start | .pause | .resumeTorrent | .setFilePriority _ _ => true
  | _ => false

/-- `serveLoop` opens the storage of the uploader; for a torrent of several files
that makes their directories. -/
def serve (env : Env) (r : Removal) : Option Removal :=
  r.uploader.bind fun path => r.session.tf.map fun tf =>
    let disk := if isMultiFile tf.info then
        (newMultiFileWriter env.cwd r.session.disk path tf.info).1
      else r.session.disk
    let t := { r.session with disk := disk }
    { r with session := t, made := madeAfter env r.made r.session t }

def removeNext (env : Env) (r : Removal) : Option Removal :=
  match r.remover with
  | .removing (path :: rest) =>
    let disk := r.session.disk.removeAll (resolve env.cwd path)
    some { r with
      session := { r.session with disk := disk }
      made := r.made.filter fun k => (disk k).isSome
      remover := .removing rest }
  | _ => none

def step (env : Env) (r : Removal) : Action → Option Removal
  | .session a =>
    if fromEngine a ∧ r.remover ≠ .idle then none
    else (r.session.step env a).map fun t =>
      { r with
        session := t
        uploader := uploaderAfter r.uploader r.session a t
        made := madeAfter env (r.made ++ carried env r.made r.session a t) r.session t }
  | .serve => r.serve env
  | .removeTorrent =>
    if r.remover = .idle then some { r with session := r.session.pause, remover := .paused }
    else none
  | .readRecord =>
    if r.remover = .paused then
      some { r with
        remover := .removing (Entry.removePaths r.session.tmpDir r.session.record) }
    else none
  | .removeNext => r.removeNext env

/-! ## The condition -/

/-- Nothing is created once the call has read the record; and when it reads the
record, what was made at the final path is at a path that it will delete. -/
def Orderly (env : Env) (r : Removal) : Action → Prop
  | .session a => Session.creates a = true → r.remover.hasRead = false
  | .serve => r.remover.hasRead = false
  | .readRecord => ∀ tf ∈ r.session.tf, r.session.record.savePath ≠ [] ∨
      (r.session.tmpDir ≠ [] ∧ r.session.workPath tf.info = r.session.finalPath tf.info) ∨
      resolve env.cwd (r.session.finalPath tf.info) ∉ r.made
  | _ => True

instance (env : Env) (r : Removal) : (a : Action) → Decidable (Orderly env r a)
  | .session a => inferInstanceAs (Decidable (Session.creates a = true → r.remover.hasRead = false))
  | .serve => inferInstanceAs (Decidable (r.remover.hasRead = false))
  | .readRecord => Option.decidableForallMem _
  | .removeTorrent | .removeNext => isTrue trivial

/-! ## The invariant -/

structure Inv (env : Env) (r : Removal) : Prop where
  session : Session.Ok env r.session
  listed : Session.Listed env r.session
  path : r.session.PathOk
  uploading : r.uploader.isSome → r.session.Named
  places : ∀ k ∈ r.made, k ∈ places env r.session
  named : ∀ k ∈ r.made, r.session.Named
  rest : ∀ rest, r.remover = .removing rest → ∀ k ∈ r.made, k ∈ rest.map (resolve env.cwd)

variable {env : Env} {r r' : Removal} {a : Action} {s t : Session} {made : List (List Bytes)}
  {k : List Bytes}

theorem mem_madeAfter (h : k ∈ madeAfter env made s t) :
    k ∈ Removal.places env t ∧ (k ∈ made ∨ (s.disk k = none ∧ t.disk k ≠ none)) := by
  unfold madeAfter at h
  rw [List.mem_filter, Bool.and_eq_true, Bool.or_eq_true, decide_eq_true_eq,
    Option.isNone_iff_eq_none] at h
  obtain ⟨hplace, hsome, hmade | hnone⟩ := h
  · exact ⟨hplace, .inl hmade⟩
  · exact ⟨hplace, .inr ⟨hnone, Option.isSome_iff_ne_none.mp hsome⟩⟩

theorem mem_carried {a : Engine.Action} (h : k ∈ carried env made s a t) :
    Session.creates a = true ∧ ∃ k' ∈ made, k' ∈ Removal.places env s := by
  unfold carried at h
  split at h
  · next tf htf =>
    split_ifs at h with hmoved
    · refine ⟨rfl, _, hmoved.2, ?_⟩
      unfold Removal.places
      rw [htf]
      exact List.mem_cons_of_mem _ List.mem_cons_self
    · exact absurd h List.not_mem_nil
  · exact absurd h List.not_mem_nil

theorem uploaderAfter_named {u : Option Bytes} {a : Engine.Action} (hu : u.isSome → t.Named)
    (ht : Session.Ok env t) (h : (uploaderAfter u s a t).isSome) : t.Named := by
  have hpast : ∀ pc, t.pc = pc → Session.pastName pc = true → t.Named := by
    intro pc hpc hp
    exact ht.named (by rw [hpc]; exact hp)
  unfold uploaderAfter at h
  split at h
  · next hpc _ => exact hpast _ hpc rfl
  · next _ hpc => exact hpast _ hpc rfl
  · next hpc _ => exact hpast _ hpc rfl
  · exact absurd h nofun
  · split_ifs at h
    · exact absurd h nofun
    · exact hu h
  · exact hu h

theorem session_inv (h : Inv env r) {a : Engine.Action} (hok : Orderly env r (.session a))
    (hstep : Session.Step env r.session a t) :
    Inv env { r with
      session := t
      uploader := uploaderAfter r.uploader r.session a t
      made := madeAfter env (r.made ++ carried env r.made r.session a t) r.session t } := by
  have hsession := Session.step_ok h.session hstep
  have hnamed : r.session.Named → t.Named := Session.step_named h.listed hstep
  refine ⟨hsession, Session.step_listed h.listed hstep,
    Session.step_pathOk h.path h.session h.listed hstep,
    uploaderAfter_named (fun hu => hnamed (h.uploading hu)) hsession,
    fun k hk => (mem_madeAfter hk).1, fun k hk => hnamed ?_, fun rest hrest k hk => ?_⟩
  · rcases (mem_madeAfter hk).2 with hmade | ⟨hnone, hsome⟩
    · rcases List.mem_append.mp hmade with hmade | hcarried
      · exact h.named k hmade
      · obtain ⟨-, k', hk', -⟩ := mem_carried hcarried
        exact h.named k' hk'
    · exact h.session.named (Session.step_creates hstep hnone hsome).2
  · -- After the call has read the record nothing new is made.
    have hread : r.remover.hasRead = true := by
      rw [show r.remover = .removing rest from hrest]
      rfl
    have hnot : ¬ Session.creates a = true := by
      intro hcreates
      exact absurd ((hok hcreates).symm.trans hread) Bool.false_ne_true
    rcases (mem_madeAfter hk).2 with hmade | ⟨hnone, hsome⟩
    · rcases List.mem_append.mp hmade with hmade | hcarried
      · exact h.rest rest hrest k hmade
      · exact absurd (mem_carried hcarried).1 hnot
    · exact absurd (Session.step_creates hstep hnone hsome).1 hnot

theorem serve_inv (h : Inv env r) (hok : Orderly env r .serve) (hstep : r.serve env = some r') :
    Inv env r' := by
  obtain ⟨path, hpath, hmap⟩ := Option.bind_eq_some_iff.mp hstep
  obtain ⟨tf, htf, rfl⟩ := Option.map_eq_some_iff.mp hmap
  have hnamed : r.session.Named := h.uploading (by rw [hpath]; rfl)
  refine ⟨h.session.frame rfl id, h.listed.frame rfl rfl rfl h.listed.fetching, h.path, h.uploading,
    fun k hk => (mem_madeAfter hk).1, fun k hk => hnamed, fun rest hrest => ?_⟩
  have hread : r.remover.hasRead = true := by
    rw [show r.remover = .removing rest from hrest]
    rfl
  exact absurd ((show r.remover.hasRead = false from hok).symm.trans hread) Bool.false_ne_true

/-- What is made when the record is read is at a path that will be deleted. -/
theorem made_mem_removePaths (h : Inv env r) (hok : Orderly env r .readRecord) (hk : k ∈ r.made) :
    k ∈ (Entry.removePaths r.session.tmpDir r.session.record).map (resolve env.cwd) := by
  obtain ⟨tf, htf, hsanitize⟩ := h.named k hk
  have hne := (sanitizeTorrentName_ok hsanitize).1
  have hname : r.session.record.name = tf.info.name := (h.listed.name tf htf).resolve_right hne
  have hwork : r.session.tmpDir ≠ [] → resolve env.cwd (r.session.workPath tf.info) ∈
      (Entry.removePaths r.session.tmpDir r.session.record).map (resolve env.cwd) := by
    intro htmp
    refine List.mem_map_of_mem ?_
    unfold Session.workPath Session.dlDir
    rw [if_pos htmp, ← hname]
    exact Entry.tmpPath_mem_removePaths htmp (hname ▸ hne)
  have hfinal : resolve env.cwd (r.session.finalPath tf.info) ∈ r.made →
      resolve env.cwd (r.session.finalPath tf.info) ∈
        (Entry.removePaths r.session.tmpDir r.session.record).map (resolve env.cwd) := by
    intro hmade
    rcases hok tf htf with hsave | ⟨htmp, hsame⟩ | hnot
    · obtain ⟨tf', htf', hpath⟩ := h.path.resolve_left hsave
      rw [Option.some_inj.mp (htf.symm.trans htf'), ← hpath]
      exact List.mem_map_of_mem (Entry.savePath_mem_removePaths hsave)
    · rw [← hsame]
      exact hwork htmp
    · exact absurd hmade hnot
  have hplace := h.places k hk
  unfold Removal.places at hplace
  rw [htf] at hplace
  rcases List.mem_cons.mp hplace with rfl | hplace
  · exact hfinal hk
  · rw [List.mem_singleton] at hplace
    by_cases htmp : r.session.tmpDir = []
    · have hsame : r.session.workPath tf.info = r.session.finalPath tf.info := by
        unfold Session.workPath Session.dlDir
        rw [if_neg (not_not.mpr htmp)]
        rfl
      rw [hsame] at hplace
      subst hplace
      exact hfinal hk
    · rw [hplace]
      exact hwork htmp

theorem removeNext_inv (h : Inv env r) (hstep : r.removeNext env = some r') : Inv env r' := by
  unfold removeNext at hstep
  split at hstep
  · next path rest hremover =>
    rw [← Option.some_inj.mp hstep]
    have hmem : ∀ k ∈ r.made.filter fun k =>
        (r.session.disk.removeAll (resolve env.cwd path) k).isSome, k ∈ r.made := fun k hk =>
      (List.mem_filter.mp hk).1
    refine ⟨h.session.frame rfl id, h.listed.frame rfl rfl rfl h.listed.fetching, h.path,
      h.uploading, fun k hk => h.places k (hmem k hk), fun k hk => h.named k (hmem k hk),
      fun rest' hrest' k hk => ?_⟩
    obtain rfl : rest = rest' := Remover.removing.inj hrest'
    have hthere := (List.mem_filter.mp hk).2
    rcases List.mem_cons.mp (h.rest _ hremover k (hmem k hk)) with rfl | hlater
    · rw [Disk.removeAll, if_pos List.prefix_rfl] at hthere
      exact absurd hthere nofun
    · exact hlater
  · exact absurd hstep nofun

theorem step_inv (h : Inv env r) (hok : Orderly env r a) (hstep : step env r a = some r') :
    Inv env r' := by
  cases a with
  | session a =>
    unfold step at hstep
    rw [Option.ite_none_left_eq_some] at hstep
    obtain ⟨t, ht, rfl⟩ := Option.map_eq_some_iff.mp hstep.2
    exact session_inv h hok (Session.step_sound ht)
  | serve => exact serve_inv h hok hstep
  | removeTorrent =>
    unfold step at hstep
    rw [Option.ite_none_right_eq_some, Option.some_inj] at hstep
    rw [← hstep.2]
    exact ⟨h.session.frame rfl id, h.listed.frame rfl rfl rfl h.listed.fetching, h.path,
      h.uploading, h.places, h.named, nofun⟩
  | readRecord =>
    unfold step at hstep
    rw [Option.ite_none_right_eq_some, Option.some_inj] at hstep
    rw [← hstep.2]
    refine ⟨h.session, h.listed, h.path, h.uploading, h.places, h.named, fun rest hrest k hk => ?_⟩
    rw [← Remover.removing.inj hrest]
    exact made_mem_removePaths h hok hk
  | removeNext => exact removeNext_inv h hstep

theorem ofEntry_inv {downloadDir tmpDir source : Bytes} {disk : Files} {e : Entry}
    (h : Entry.addTorrent env downloadDir tmpDir disk source = some e) : Inv env (ofEntry e) := by
  obtain ⟨_, _, rfl⟩ := Option.map_eq_some_iff.mp h
  refine ⟨Session.new_ok env _ _ _ _, ⟨nofun, nofun, fun _ tf hparse => ?_⟩, .inl rfl, nofun, nofun,
    nofun, nofun⟩
  exact Entry.newRecord_name hparse

/-- The torrent of one file, added from the torrent file `s`. -/
def addFile (tmpDir : Bytes) : Option Entry :=
  Entry.addTorrent Session.plainEnv (ascii "d") tmpDir
    (fun k => if k = [ascii "s"] then some (.file Session.oneFileTorrent) else none) (ascii "s")

/-- The call reads the record while the session downloads. -/
def removeDownloading : List Action :=
  Session.enterDownload.map .session ++ [.removeTorrent, .readRecord]

/-- The goroutine finds its context cancelled. -/
def goroutineEnds : List Action := [.session (.download .abort), .session .leave]

end Removal

end Stor.Engine
