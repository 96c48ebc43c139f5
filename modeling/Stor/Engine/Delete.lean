import Stor.Engine.SessionInvariant

/-!
# What removing a torrent deletes

`Engine.AddTorrent` and `Engine.RemoveTorrent`, for one torrent of an engine.
Around its session stand the configuration, which can be changed at any time, and
the record as it was last saved, from which a restart makes a new session.  What
other torrents and programs do to the disk is one action.

The path in the record is made with a name that `sanitizeTorrentName` let pass.
The name in the record is not: it is what a link or a torrent file says, and
`removePaths_below` needs it to be local.
-/

namespace Stor.Engine

open Lib Torrent Storage

/-- `dirs` has every directory that was configured so far. -/
structure Entry where
  downloadDir : Bytes
  tmpDir : Bytes
  dirs : List Bytes
  session : Session
  saved : Record

namespace Entry

inductive Action where
  | session (a : Engine.Action)
  | setDownloadDir (dir : Bytes)
  | setTmpDir (dir : Bytes)
  | saveState
  | restart
  | otherWrites (disk : Files)

/-! ## `AddTorrent` -/

/-- `InfoHashHex`, before the digest is written in hex. -/
def infoHashOf (env : Env) (disk : Files) (source : Bytes) : Option Bytes :=
  match Magnet.parse env.urlChecks source with
  | .ok m => some m.infoHash
  | .error _ => (sourceTorrent env disk source).map fun (_, tf) => tf.infoHash

/-- The name a torrent is listed with until its metadata is there. -/
def displayName (env : Env) (source : Bytes) : Bytes :=
  match Magnet.parse env.urlChecks source with
  | .ok m => m.displayName
  | .error _ => []

def newRecord (env : Env) (disk : Files) (source : Bytes) : Record :=
  let (torrentData, fileName) :=
    match sourceTorrent env disk source with
    | some (data, tf) => (data, tf.info.name)
    | none => ([], [])
  { name := if fileName = [] then displayName env source else fileName
    source := source
    savePath := []
    state := .adding
    torrentData := torrentData
    bitfield := []
    filePriorities := [] }

/-- A torrent file that was found gives the record its name. -/
theorem newRecord_name {env : Env} {disk : Files} {source : Bytes} {tf : TorrentFile}
    (h : Torrent.parse env.digests (newRecord env disk source).torrentData = .ok tf) :
    (newRecord env disk source).name = tf.info.name ∨ tf.info.name = [] := by
  unfold newRecord at h ⊢
  cases hsource : sourceTorrent env disk source with
  | none =>
    rw [hsource] at h
    have hempty : Torrent.parse env.digests [] = .error (.decode .unexpectedEnd) := by
      simp [Torrent.parse, Bencode.decode, Bencode.decodeFuel, Bencode.decodeValue]
    rw [hempty] at h
    cases h
  | some found =>
    rw [hsource] at h
    rw [← Except.ok.inj ((Session.parse_of_sourceTorrent hsource).symm.trans h)]
    by_cases hname : found.2.info.name = []
    · exact .inr hname
    · exact .inl (if_neg hname)

def addTorrent (env : Env) (downloadDir tmpDir : Bytes) (disk : Files) (source : Bytes) :
    Option Entry :=
  (infoHashOf env disk source).map fun _ =>
    { downloadDir := downloadDir
      tmpDir := tmpDir
      dirs := [downloadDir, tmpDir]
      session := .new (newRecord env disk source) downloadDir tmpDir disk
      saved := newRecord env disk source }

/-! ## The life of an entry -/

def step (env : Env) (e : Entry) : Action → Option Entry
  | .session a => (e.session.step env a).map fun s => { e with session := s }
  | .setDownloadDir dir => some { e with downloadDir := dir, dirs := dir :: e.dirs }
  | .setTmpDir dir => some { e with tmpDir := dir, dirs := dir :: e.dirs }
  | .saveState => some { e with saved := e.session.record }
  | .restart =>
    some { e with session := .new e.saved e.downloadDir e.tmpDir e.session.disk }
  | .otherWrites disk => some { e with session := { e.session with disk := disk } }

/-! ## `RemoveTorrent` -/

/-- The downloaded data, as far as the record knows where it is. -/
def savePaths (r : Record) : List Bytes := if r.savePath ≠ [] then [r.savePath] else []

/-- What is in the directory for temporary files. -/
def tmpPaths (tmpDir : Bytes) (r : Record) : List Bytes :=
  if tmpDir ≠ [] ∧ r.name ≠ [] then
    if joinPath [tmpDir, r.name] ≠ r.savePath then [joinPath [tmpDir, r.name]] else []
  else []

/-- The paths that `RemoveTorrent` with `deleteFiles` hands to `os.RemoveAll`. -/
def removePaths (tmpDir : Bytes) (r : Record) : List Bytes := savePaths r ++ tmpPaths tmpDir r

theorem savePath_mem_removePaths {tmpDir : Bytes} {r : Record} (h : r.savePath ≠ []) :
    r.savePath ∈ removePaths tmpDir r := by
  refine List.mem_append_left _ ?_
  unfold savePaths
  rw [if_pos h]
  exact List.mem_singleton_self _

/-- The path in the directory for temporary files is deleted, as the one in the
record if it is the same. -/
theorem tmpPath_mem_removePaths {tmpDir : Bytes} {r : Record} (htmp : tmpDir ≠ [])
    (hname : r.name ≠ []) : joinPath [tmpDir, r.name] ∈ removePaths tmpDir r := by
  by_cases hsave : joinPath [tmpDir, r.name] = r.savePath
  · have hne : r.savePath ≠ [] := by
      rw [← hsave, joinPath_of_ne_nil htmp]
      exact clean_ne_nil _
    rw [hsave]
    exact savePath_mem_removePaths hne
  · refine List.mem_append_right _ ?_
    unfold tmpPaths
    rw [if_pos ⟨htmp, hname⟩, if_pos hsave]
    exact List.mem_singleton_self _

/-! ## Where the paths are -/

def Covered (dirs : List Bytes) (path : Bytes) : Prop := ∃ d ∈ dirs, Below d path

/-- The path of a record is empty or below a configured directory. -/
def RecordOk (dirs : List Bytes) (r : Record) : Prop := r.savePath = [] ∨ Covered dirs r.savePath

structure Ok (env : Env) (e : Entry) : Prop where
  session : Session.Ok env e.session
  download_mem : e.downloadDir ∈ e.dirs
  tmp_mem : e.tmpDir ∈ e.dirs
  session_download_mem : e.session.downloadDir ∈ e.dirs
  record : RecordOk e.dirs e.session.record
  saved : RecordOk e.dirs e.saved

variable {env : Env} {e e' : Entry} {a : Action} {dirs : List Bytes}

theorem RecordOk.cons {r : Record} (h : RecordOk dirs r) (d : Bytes) : RecordOk (d :: dirs) r :=
  h.imp id fun ⟨d', hd', hbelow⟩ => ⟨d', List.mem_cons_of_mem d hd', hbelow⟩

theorem covered_joinPath {d name : Bytes} (hd : d ∈ dirs)
    (hname : sanitizeTorrentName name = .ok ()) : Covered dirs (joinPath [d, name]) :=
  ⟨d, hd, below_of_sanitize d hname⟩

theorem Ok.configure (h : Ok env e) (d : Bytes) {downloadDir tmpDir : Bytes}
    (hd : downloadDir ∈ d :: e.dirs) (ht : tmpDir ∈ d :: e.dirs) :
    Ok env { e with downloadDir := downloadDir, tmpDir := tmpDir, dirs := d :: e.dirs } where
  session := h.session
  download_mem := hd
  tmp_mem := ht
  session_download_mem := List.mem_cons_of_mem d h.session_download_mem
  record := h.record.cons d
  saved := h.saved.cons d

theorem step_ok (h : Ok env e) (hstep : step env e a = some e') : Ok env e' := by
  cases a with
  | session a =>
    obtain ⟨t, ht, rfl⟩ := Option.map_eq_some_iff.mp hstep
    have hsound := Session.step_sound ht
    refine ⟨Session.step_ok h.session hsound, h.download_mem, h.tmp_mem, ?_, ?_, h.saved⟩
    · show t.downloadDir ∈ e.dirs
      rw [(Session.step_dirs hsound).1]
      exact h.session_download_mem
    · rcases Session.step_savePath h.session hsound with hpath | ⟨tf, _, hname, hpath⟩
      · show RecordOk e.dirs t.record
        unfold RecordOk
        rw [hpath]
        exact h.record
      · refine .inr ?_
        show Covered e.dirs t.record.savePath
        rw [hpath]
        exact covered_joinPath h.session_download_mem hname
  | setDownloadDir dir =>
    rw [← Option.some_inj.mp hstep]
    exact h.configure dir List.mem_cons_self (List.mem_cons_of_mem dir h.tmp_mem)
  | setTmpDir dir =>
    rw [← Option.some_inj.mp hstep]
    exact h.configure dir (List.mem_cons_of_mem dir h.download_mem) List.mem_cons_self
  | saveState =>
    rw [← Option.some_inj.mp hstep]
    exact { h with saved := h.record }
  | restart =>
    rw [← Option.some_inj.mp hstep]
    exact ⟨Session.new_ok env _ _ _ _, h.download_mem, h.tmp_mem, h.download_mem, h.saved,
      h.saved⟩
  | otherWrites disk =>
    rw [← Option.some_inj.mp hstep]
    exact ⟨h.session.frame rfl id, h.download_mem, h.tmp_mem, h.session_download_mem, h.record,
      h.saved⟩

theorem exec_ok {as : List Action} (h : Ok env e) (hrun : exec (step env) e as = some e') :
    Ok env e' :=
  exec_invariant (fun _ _ _ hs _ hstep => step_ok hs hstep) h
    (guarded_of_forall (fun _ _ => trivial) e as) hrun

theorem addTorrent_ok {downloadDir tmpDir source : Bytes} {disk : Files}
    (h : addTorrent env downloadDir tmpDir disk source = some e) : Ok env e := by
  obtain ⟨_, _, rfl⟩ := Option.map_eq_some_iff.mp h
  exact ⟨Session.new_ok env _ _ _ _, List.mem_cons_self, List.mem_cons_of_mem _ List.mem_cons_self,
    List.mem_cons_self, .inl rfl, .inl rfl⟩

/-- Whatever happened to a torrent since it was added, removing it deletes only
below configured directories, if the name in its record is local or is not
used. -/
theorem removePaths_below (env : Env) (downloadDir tmpDir source : Bytes) (disk : Files)
    (e₀ e : Entry) (hadd : addTorrent env downloadDir tmpDir disk source = some e₀)
    (as : List Action) (hrun : exec (step env) e₀ as = some e)
    (hname : e.tmpDir = [] ∨ e.session.record.name = [] ∨ LocalName e.session.record.name) :
    ∀ path ∈ removePaths e.tmpDir e.session.record, ∃ d ∈ e.dirs, Below d path := by
  have hok := exec_ok (addTorrent_ok hadd) hrun
  intro path hpath
  rcases List.mem_append.mp hpath with hsave | htmp
  · unfold savePaths at hsave
    split_ifs at hsave with hne
    · rw [List.mem_singleton.mp hsave]
      exact hok.record.resolve_left hne
    · exact absurd hsave List.not_mem_nil
  · unfold tmpPaths at htmp
    split_ifs at htmp with hused
    · rw [List.mem_singleton.mp htmp]
      have hlocal := (hname.resolve_left hused.1).resolve_left hused.2
      exact ⟨e.tmpDir, hok.tmp_mem, below_joinPath hlocal fun hnil => absurd hnil hused.1⟩
    · exact absurd htmp List.not_mem_nil
    · exact absurd htmp List.not_mem_nil

/-- A link whose torrent is called `name` until its metadata is there. -/
def linkTo (name : String) : Bytes :=
  ascii "magnet:?xt=urn:btih:0123456789012345678901234567890123456789&dn=" ++ ascii name

/-- The torrent of such a link in an engine with two directories. -/
def addLink (name : String) : Option Entry :=
  addTorrent Session.plainEnv (ascii "/srv/done") (ascii "/srv/part") (fun _ => none) (linkTo name)

theorem removePaths_below_plainName :
    ∃ e₀ e, addLink "t" = some e₀ ∧
      exec (step Session.plainEnv) e₀ [.session .start, .session .resolve] = some e ∧
      removePaths e.tmpDir e.session.record = [ascii "/srv/part/t"] ∧
      ∀ path ∈ removePaths e.tmpDir e.session.record, ∃ d ∈ e.dirs, Below d path := by
  obtain ⟨e₀, hadd, e, he, hname, hpaths⟩ : ∃ e₀, addLink "t" = some e₀ ∧
      ∃ e, exec (step Session.plainEnv) e₀ [.session .start, .session .resolve] = some e ∧
        LocalName e.session.record.name ∧
        removePaths e.tmpDir e.session.record = [ascii "/srv/part/t"] := by
    rw [addLink, linkTo, ascii_ofList, ascii_ofList, ascii_ofList]
    decide +kernel
  exact ⟨e₀, e, hadd, he, hpaths, removePaths_below Session.plainEnv _ _ _ _ e₀ e hadd _ he
    (.inr (.inr hname))⟩

/-- A link that calls its torrent `..` has the directory deleted that both
configured ones are in. -/
theorem removePaths_above :
    ∃ e, addLink ".." = some e ∧ e.dirs = [ascii "/srv/done", ascii "/srv/part"] ∧
      ascii "/srv" ∈ removePaths e.tmpDir e.session.record ∧
      ∀ d ∈ e.dirs, ¬ Below d (ascii "/srv") := by
  obtain ⟨e, he, hdirs, hmem⟩ : ∃ e, addLink ".." = some e ∧
      e.dirs = [ascii "/srv/done", ascii "/srv/part"] ∧
      ascii "/srv" ∈ removePaths e.tmpDir e.session.record := by
    rw [addLink, linkTo, ascii_ofList, ascii_ofList, ascii_ofList]
    decide +kernel
  refine ⟨e, he, hdirs, hmem, fun d hd hbelow => ?_⟩
  have hcomps := hbelow.isPrefix
  rw [hdirs] at hd
  have hnot : ∀ d ∈ [ascii "/srv/done", ascii "/srv/part"],
      ¬ pathComps d <+: pathComps (ascii "/srv") := by decide +kernel
  exact hnot d hd hcomps

end Entry

end Stor.Engine
