import Stor.Engine.Session

/-!
# What a step of a session does

`Step` has one constructor for each way a step can go, with what the step found
and the state it leaves, and `step_sound` says that there are no others.  The
invariants of sessions are proved by cases on it.
-/

namespace Stor.Engine

open Lib Torrent Peer Storage

namespace Session

inductive Step (env : Env) (s : Session) : Action → Session → Prop where
  | start (hpc : s.pc = .stopped) :
      Step env s .start { s with pc := .resolve, cancelled := false }
  | known (hpc : s.pc = .resolve) (htf : s.tf.isSome) :
      Step env s .resolve { s with pc := .named }
  | stored (hpc : s.pc = .resolve) (hnone : s.tf = none) (tf : TorrentFile)
      (hparse : Torrent.parse env.digests s.record.torrentData = .ok tf) :
      Step env s .resolve { s with tf := some tf, pc := .named }
  | source (hpc : s.pc = .resolve) (hnone : s.tf = none) (data : Bytes) (tf : TorrentFile)
      (hparse : Torrent.parse env.digests data = .ok tf) :
      Step env s .resolve { s with
        tf := some tf
        record := { s.record with torrentData := data, name := tf.info.name }
        pc := .named }
  | link (hpc : s.pc = .resolve) (hnone : s.tf = none) (m : Magnet)
      (hlink : Magnet.parse env.urlChecks s.record.source = .ok m) :
      Step env s .resolve { s with
        record := { s.record with state := .metadata }
        pc := .fetch m }
  | fetched (m : Magnet) (hpc : s.pc = .fetch m) (metadata : Bytes) (tf : TorrentFile)
      (hfetch : fetchMetadataFromPeer env.digests metadata = .ok tf) :
      Step env s (.fetched metadata) { s with
        tf := some (restoreAnnounce m tf)
        record := { s.record with torrentData := torrentData m tf, name := tf.info.name }
        pc := .named }
  | seederName (hpc : s.pc = .named) (tf : TorrentFile) (htf : s.tf = some tf)
      (hname : sanitizeTorrentName tf.info.name = .ok ()) (hseeder : s.isSeeder = true) :
      Step env s .checkName { s with pc := .checkResume }
  | checkName (hpc : s.pc = .named) (tf : TorrentFile) (htf : s.tf = some tf)
      (hname : sanitizeTorrentName tf.info.name = .ok ()) (hseeder : s.isSeeder = false) :
      Step env s .checkName { s with
        record := { s.record with state := .downloading }
        pc := .findPeers }
  | peers (hpc : s.pc = .findPeers) : Step env s .peers { s with pc := .checkResume }
  | seedDirect (hpc : s.pc = .checkResume) (tf : TorrentFile) (htf : s.tf = some tf)
      (hseeder : s.isSeeder = true) (savePath : Bytes)
      (hpath : savePath =
        if s.record.savePath = [] then s.finalPath tf.info else s.record.savePath) :
      Step env s .checkResume { s with
        record := { s.record with savePath := savePath, state := .seeding }
        uploadBF := fullBitfield tf.info
        pc := .seed }
  | checkResume (hpc : s.pc = .checkResume) : Step env s .checkResume { s with pc := .makeDir }
  | makeDir (hpc : s.pc = .makeDir) (disk : Files)
      (hdisk : s.disk.mkdirAll (resolve env.cwd s.dlDir) = some disk) :
      Step env s .makeDir { s with disk := disk, pc := .resumeBits }
  | resumeBits (hpc : s.pc = .resumeBits) (tf : TorrentFile) (htf : s.tf = some tf) (disk : Files)
      (haveBF : Option Bitfield) (hhave : s.resumeHave env tf.info = some (disk, haveBF)) :
      Step env s .resumeBits { s with
        disk := disk
        haveBF := haveBF
        uploadBF := copyBits tf.info haveBF
        record := { s.record with
          bitfield := (haveBF.map Bitfield.bytes).getD s.record.bitfield
          state := .downloading }
        pc := .openTarget }
  | openTarget (hpc : s.pc = .openTarget) (tf : TorrentFile) (htf : s.tf = some tf) (disk : Files)
      (target : Target)
      (hopen : Storage.openTarget env.cwd s.disk (s.workPath tf.info) tf.info =
        (disk, some target)) :
      Step env s .openTarget { s with
        disk := disk
        target := target
        skipMask := computeSkipMaskFromRecord tf.info s.record.filePriorities
        pc := .preallocate }
  | openFailed (hpc : s.pc = .openTarget) (tf : TorrentFile) (htf : s.tf = some tf) (disk : Files)
      (hopen : Storage.openTarget env.cwd s.disk (s.workPath tf.info) tf.info = (disk, none)) :
      Step env s .openTarget { s.failed with disk := disk }
  | preallocate (hpc : s.pc = .preallocate) (tf : TorrentFile) (htf : s.tf = some tf)
      (disk : Files) (hsize : Storage.preallocate env.cwd s.disk tf.info s.target = (disk, true)) :
      Step env s .preallocate { s with
        disk := disk
        dl := { Download.start tf.info s.haveBF s.skipMask env.prioritizeFirstLast
          env.sequential with cancelled := s.cancelled }
        pc := .download }
  | preallocateFailed (hpc : s.pc = .preallocate) (tf : TorrentFile) (htf : s.tf = some tf)
      (disk : Files) (hsize : Storage.preallocate env.cwd s.disk tf.info s.target = (disk, false)) :
      Step env s .preallocate { s.failed with disk := disk }
  | receive (hpc : s.pc = .download) (tf : TorrentFile) (htf : s.tf = some tf)
      (r : Download.PieceResult) (rest : List Download.PieceResult) (hch : s.dl.resultCh = r :: rest)
      (disk : Files)
      (hwrite : writeTarget env.cwd s.disk r.data (pieceOffset tf.info r.index) s.target =
        some disk)
      (dl : Download.State) (hdl : Download.step env.digests.sha1 s.dl .receive = some dl) :
      Step env s (.download .receive) { s with
        disk := disk
        dl := dl
        uploadBF := s.uploadBF.setPiece r.index
        record := { s.record with bitfield := (s.uploadBF.setPiece r.index).bytes } }
  | download (hpc : s.pc = .download) (a : Download.Action) (ha : a ≠ .receive)
      (dl : Download.State) (hdl : Download.step env.digests.sha1 s.dl a = some dl) :
      Step env s (.download a) { s with dl := dl }
  | downloaded (hpc : s.pc = .download) (tf : TorrentFile) (htf : s.tf = some tf)
      (hsuccess : s.dl.status = .success) :
      Step env s .downloaded { s with pc := if s.mustMove tf.info then .moveFile else .finish }
  | moveFile (hpc : s.pc = .moveFile) (tf : TorrentFile) (htf : s.tf = some tf) (disk : Files)
      (hrename : s.disk.rename (resolve env.cwd (s.workPath tf.info))
        (resolve env.cwd (s.finalPath tf.info)) = some disk) :
      Step env s .moveFile { s with disk := disk, pc := .finish }
  | finish (hpc : s.pc = .finish) (tf : TorrentFile) (htf : s.tf = some tf) :
      Step env s .finish (s.finish tf.info)
  /-- An operation failed, or the metadata or the name was refused. -/
  | failed (a : Action) (hpc : s.pc ≠ .stopped) : Step env s a s.failed
  | left (hpc : s.pc ≠ .stopped) : Step env s .leave s.left
  | pause : Step env s .pause s.pause
  | resumeTorrent : Step env s .resumeTorrent (s.setState .adding)
  | setFilePriority (fileIndex : Nat) (priority : Int) (priorities : List Int)
      (mask : Option Bitfield) :
      Step env s (.setFilePriority fileIndex priority) { s with
        record := { s.record with filePriorities := priorities }
        dl := if s.pc = .download then { s.dl with queue := s.dl.queue.updateSkipMask mask }
          else s.dl }

theorem atPc_eq_some {s t : Session} {pc : Pc} {next : Option Session} :
    s.atPc pc next = some t ↔ s.pc = pc ∧ next = some t := Option.ite_none_right_eq_some

theorem withInfo_eq_some {s t : Session} {next : Info → Option Session} :
    s.withInfo next = some t ↔ ∃ tf, s.tf = some tf ∧ next tf.info = some t :=
  Option.bind_eq_some_iff

variable {env : Env} {s t : Session}

theorem parse_of_sourceTorrent {disk : Files} {source data : Bytes} {tf : TorrentFile}
    (h : sourceTorrent env disk source = some (data, tf)) :
    Torrent.parse env.digests data = .ok tf := by
  obtain ⟨data', -, hmap⟩ := Option.bind_eq_some_iff.mp h
  obtain ⟨tf', hok, heq⟩ := Option.map_eq_some_iff.mp hmap
  rw [Prod.mk.injEq] at heq
  obtain ⟨rfl, rfl⟩ := heq
  cases hparse : Torrent.parse env.digests data' with
  | error e => exact absurd (hparse ▸ hok) nofun
  | ok tf =>
    rw [hparse] at hok
    rw [Option.some_inj.mp hok]

theorem resolve_sound (hpc : s.pc = .resolve) :
    Step env s .resolve (s.resolveMetadata env) := by
  have hrun : s.pc ≠ .stopped := by
    rw [hpc]
    exact Pc.noConfusion
  unfold resolveMetadata
  split_ifs with htf hdata
  · exact .known hpc htf
  · split
    · exact .failed _ hrun
    · next tf hparse => exact .stored hpc (Option.not_isSome_iff_eq_none.mp htf) tf hparse
  · have hnone := Option.not_isSome_iff_eq_none.mp htf
    split
    · next data tf hsource => exact .source hpc hnone data tf (parse_of_sourceTorrent hsource)
    · split
      · exact .failed _ hrun
      · next m hlink => exact .link hpc hnone m hlink

theorem download_sound {tf : TorrentFile} {a : Download.Action} (hpc : s.pc = .download)
    (htf : s.tf = some tf) (h : s.download env tf.info a = some t) : Step env s (.download a) t := by
  have hother : ∀ a, a ≠ .receive →
      (Download.step env.digests.sha1 s.dl a).map (fun dl => { s with dl := dl }) = some t →
      Step env s (.download a) t := by
    intro a ha hmap
    obtain ⟨dl, hdl, rfl⟩ := Option.map_eq_some_iff.mp hmap
    exact .download hpc a ha dl hdl
  cases a with
  | receive =>
    have hrec : s.receive env tf.info = some t := h
    unfold receive at hrec
    cases hch : s.dl.resultCh with
    | nil => simp [hch] at hrec
    | cons r rest =>
      simp only [hch] at hrec
      obtain ⟨disk, hwrite, hmap⟩ := Option.bind_eq_some_iff.mp hrec
      obtain ⟨dl, hdl, rfl⟩ := Option.map_eq_some_iff.mp hmap
      exact .receive hpc tf htf r rest hch disk hwrite dl hdl
  | spawn | queue | worker | cancel | writeFail | finish | abort | closed =>
    exact hother _ nofun h

theorem step_sound {a : Action} (h : step env s a = some t) : Step env s a t := by
  have hrun : ∀ {pc : Pc}, s.pc = pc → pc ≠ .stopped → s.pc ≠ .stopped := by
    intro pc hpc hne
    rw [hpc]
    exact hne
  cases a with
  | start =>
    obtain ⟨hpc, heq⟩ := atPc_eq_some.mp h
    rw [← Option.some_inj.mp heq]
    exact .start hpc
  | resolve =>
    obtain ⟨hpc, heq⟩ := atPc_eq_some.mp h
    rw [← Option.some_inj.mp heq]
    exact resolve_sound hpc
  | fetched metadata =>
    unfold step at h
    cases hpc : s.pc with
    | fetch m =>
      simp only [hpc] at h
      unfold fetched at h
      split_ifs at h
      split at h
      · simp at h
      · next tf hfetch =>
        rw [← Option.some_inj.mp h]
        exact .fetched m hpc metadata tf hfetch
    | stopped | resolve | named | findPeers | checkResume | makeDir | resumeBits | openTarget
      | preallocate | download | moveFile | finish | seed => simp [hpc] at h
  | checkName =>
    obtain ⟨hpc, h⟩ := atPc_eq_some.mp h
    obtain ⟨tf, htf, h⟩ := withInfo_eq_some.mp h
    rw [← Option.some_inj.mp h]
    unfold checkName
    split
    · exact .failed _ (hrun hpc Pc.noConfusion)
    · next hname =>
      split_ifs with hseeder
      · exact .seederName hpc tf htf hname hseeder
      · exact .checkName hpc tf htf hname (Bool.eq_false_iff.mpr hseeder)
  | peers =>
    obtain ⟨hpc, heq⟩ := atPc_eq_some.mp h
    rw [← Option.some_inj.mp heq]
    exact .peers hpc
  | checkResume =>
    obtain ⟨hpc, h⟩ := atPc_eq_some.mp h
    obtain ⟨tf, htf, h⟩ := withInfo_eq_some.mp h
    rw [← Option.some_inj.mp h]
    unfold checkResume
    simp only
    split_ifs with hpath hseeder hseeder
    · exact .seedDirect hpc tf htf hseeder.1 _ (if_pos hpath).symm
    · exact .checkResume hpc
    · exact .seedDirect hpc tf htf hseeder.1 _ (if_neg hpath).symm
    · exact .checkResume hpc
  | makeDir =>
    obtain ⟨hpc, heq⟩ := atPc_eq_some.mp h
    rw [← Option.some_inj.mp heq]
    unfold makeDir
    split
    · exact .failed _ (hrun hpc Pc.noConfusion)
    · next disk hdisk => exact .makeDir hpc disk hdisk
  | resumeBits =>
    obtain ⟨hpc, h⟩ := atPc_eq_some.mp h
    obtain ⟨tf, htf, h⟩ := withInfo_eq_some.mp h
    obtain ⟨⟨disk, haveBF⟩, hhave, rfl⟩ := Option.map_eq_some_iff.mp h
    exact .resumeBits hpc tf htf disk haveBF hhave
  | openTarget =>
    obtain ⟨hpc, h⟩ := atPc_eq_some.mp h
    obtain ⟨tf, htf, h⟩ := withInfo_eq_some.mp h
    rw [← Option.some_inj.mp h]
    unfold openTarget
    split
    · next disk hopen => exact .openFailed hpc tf htf disk hopen
    · next disk target hopen => exact .openTarget hpc tf htf disk target hopen
  | preallocate =>
    obtain ⟨hpc, h⟩ := atPc_eq_some.mp h
    obtain ⟨tf, htf, h⟩ := withInfo_eq_some.mp h
    rw [← Option.some_inj.mp h]
    unfold preallocate
    split
    · next disk hsize => exact .preallocateFailed hpc tf htf disk hsize
    · next disk hsize => exact .preallocate hpc tf htf disk hsize
  | download a =>
    obtain ⟨hpc, h⟩ := atPc_eq_some.mp h
    obtain ⟨tf, htf, h⟩ := withInfo_eq_some.mp h
    exact download_sound hpc htf h
  | downloaded =>
    obtain ⟨hpc, h⟩ := atPc_eq_some.mp h
    obtain ⟨tf, htf, h⟩ := withInfo_eq_some.mp h
    unfold downloaded at h
    rw [Option.ite_none_right_eq_some, Option.some_inj] at h
    rw [← h.2]
    exact .downloaded hpc tf htf h.1
  | moveFile =>
    obtain ⟨hpc, h⟩ := atPc_eq_some.mp h
    obtain ⟨tf, htf, h⟩ := withInfo_eq_some.mp h
    rw [← Option.some_inj.mp h]
    unfold moveFile
    split
    · exact .failed _ (hrun hpc Pc.noConfusion)
    · next disk hrename => exact .moveFile hpc tf htf disk hrename
  | finish =>
    obtain ⟨hpc, h⟩ := atPc_eq_some.mp h
    obtain ⟨tf, htf, h⟩ := withInfo_eq_some.mp h
    rw [← Option.some_inj.mp h]
    exact .finish hpc tf htf
  | fail =>
    unfold step at h
    rw [Option.ite_none_right_eq_some, Option.some_inj] at h
    obtain ⟨⟨hcan, -⟩, rfl⟩ := h
    refine .failed _ fun hpc => ?_
    rw [hpc] at hcan
    exact absurd hcan (by decide)
  | leave =>
    unfold step at h
    rw [Option.ite_none_right_eq_some, Option.some_inj] at h
    obtain ⟨⟨-, hcan, -⟩, rfl⟩ := h
    refine .left fun hpc => ?_
    rw [hpc] at hcan
    exact absurd hcan (by decide)
  | pause =>
    rw [← Option.some_inj.mp h]
    exact .pause
  | resumeTorrent =>
    have h' : s.resumeTorrent = some t := h
    unfold resumeTorrent at h'
    rw [Option.ite_none_right_eq_some, Option.some_inj] at h'
    rw [← h'.2]
    exact .resumeTorrent
  | setFilePriority fileIndex priority =>
    obtain ⟨info, -, h⟩ := Option.bind_eq_some_iff.mp h
    unfold setFilePriority at h
    simp only [Option.ite_none_right_eq_some, Option.some_inj] at h
    rw [← h.2]
    exact .setFilePriority _ _ _ _

end Session

end Stor.Engine
