import Stor.Download.Deliver
import Stor.Engine.Metadata
import Stor.Engine.Record
import Stor.Storage.Verify

/-!
# The life of a session

`Session.run` of `engine/session.go`, with the calls of the engine that change a
session from outside, as one step for each thing another goroutine or the disk
can see: a file operation, a change of the record, a step of the download.  The
goroutine is at one place (`Pc`) of its way from `phaseResolve` through
`phaseDownload` to `phaseSeed`.

What comes from outside is part of the action: the metadata a peer sends, and
that an operation fails.  A session is started again only when its goroutine has
ended.
-/

namespace Stor.Engine

open Lib Torrent Peer Storage

/-- What a session takes from its engine and does not change. -/
structure Env where
  digests : Digests
  urlChecks : UrlChecks
  cwd : List Bytes
  prioritizeFirstLast : Bool
  sequential : Bool

inductive Pc where
  | stopped
  | resolve
  | fetch (m : Magnet)
  | named
  | findPeers
  | checkResume
  | makeDir
  | resumeBits
  | openTarget
  | preallocate
  | download
  | moveFile
  | finish
  | seed
  deriving DecidableEq, Repr

/-- `haveBF` is what `phaseDownload` hands to `DownloadWithParams`, and `uploadBF`
the bitfield that it shares with the uploader. -/
structure Session where
  record : Record
  tf : Option TorrentFile
  downloadDir : Bytes
  tmpDir : Bytes
  cancelled : Bool
  pc : Pc
  disk : Files
  haveBF : Option Bitfield
  skipMask : Option Bitfield
  uploadBF : Bitfield
  target : Target
  dl : Download.State

inductive Action where
  | start
  | resolve
  | fetched (metadata : Bytes)
  | checkName
  | peers
  | checkResume
  | makeDir
  | resumeBits
  | openTarget
  | preallocate
  | download (a : Download.Action)
  | downloaded
  | moveFile
  | finish
  | fail
  | leave
  | pause
  | resumeTorrent
  | setFilePriority (fileIndex : Nat) (priority : Int)

/-- The torrent file at `source`, if there is a good one. -/
def sourceTorrent (env : Env) (disk : Files) (source : Bytes) : Option (Bytes × TorrentFile) :=
  (readAt env.cwd disk source).bind fun data =>
    (Torrent.parse env.digests data).toOption.map fun tf => (data, tf)

namespace Session

/-- `NewSession`. -/
def new (record : Record) (downloadDir tmpDir : Bytes) (disk : Files) : Session where
  record := record
  tf := none
  downloadDir := downloadDir
  tmpDir := tmpDir
  cancelled := false
  pc := .stopped
  disk := disk
  haveBF := none
  skipMask := none
  uploadBF := ⟨[]⟩
  target := .file []
  dl := Download.start ⟨[], 1, [], 0, [], false, none⟩ none none false false

/-- `setState`. -/
def setState (s : Session) (state : TorrentState) : Session :=
  { s with record := { s.record with state := state } }

/-- The goroutine ends with an error. -/
def failed (s : Session) : Session := { s.setState .error with pc := .stopped }

/-- The directory that `phaseDownload` works in. -/
def dlDir (s : Session) : Bytes := if s.tmpDir ≠ [] then s.tmpDir else s.downloadDir

def workPath (s : Session) (info : Info) : Bytes := joinPath [s.dlDir, info.name]

def finalPath (s : Session) (info : Info) : Bytes := joinPath [s.downloadDir, info.name]

/-- The finished download has to be moved. -/
def mustMove (s : Session) (info : Info) : Bool :=
  s.tmpDir ≠ [] && s.workPath info ≠ s.finalPath info

def isSeeder (s : Session) : Bool := s.record.state = .seeding ∨ s.record.state = .complete

/-! ## `phaseResolve` -/

/-- `resolveMetadata`, up to the search for peers that have the metadata. -/
def resolveMetadata (env : Env) (s : Session) : Session :=
  if s.tf.isSome then { s with pc := .named }
  else if s.record.torrentData ≠ [] then
    match Torrent.parse env.digests s.record.torrentData with
    | .error _ => s.failed
    | .ok tf => { s with tf := some tf, pc := .named }
  else
    match sourceTorrent env s.disk s.record.source with
    | some (data, tf) =>
      { s with
        tf := some tf
        record := { s.record with torrentData := data, name := tf.info.name }
        pc := .named }
    | none =>
      match Magnet.parse env.urlChecks s.record.source with
      | .error _ => s.failed
      | .ok m => { s.setState .metadata with pc := .fetch m }

/-- A peer sent metadata with the digest of the link. -/
def fetched (env : Env) (s : Session) (m : Magnet) (metadata : Bytes) : Option Session :=
  if env.digests.sha1 metadata = m.infoHash then
    match fetchMetadataFromPeer env.digests metadata with
    | .error _ => none
    | .ok tf =>
      some { s with
        tf := some (restoreAnnounce m tf)
        record := { s.record with torrentData := torrentData m tf, name := tf.info.name }
        pc := .named }
  else none

def checkName (s : Session) (info : Info) : Session :=
  match sanitizeTorrentName info.name with
  | .error _ => s.failed
  | .ok () =>
    if s.isSeeder then { s with pc := .checkResume }
    else { s.setState .downloading with pc := .findPeers }

/-! ## `run` behind `phaseResolve` -/

def fullBitfield (info : Info) : Bitfield :=
  (Bitfield.zeros (Bitfield.sizeFor (numPieces info))).setAll (List.range (numPieces info))

/-- A seeder whose file is there seeds it (`phaseSeedDirect`), anything else goes
to `phaseDownload`. -/
def checkResume (env : Env) (s : Session) (info : Info) : Session :=
  let savePath := if s.record.savePath = [] then s.finalPath info else s.record.savePath
  if s.isSeeder ∧ s.disk.stat (resolve env.cwd savePath) then
    { s with
      record := { s.record with savePath := savePath, state := .seeding }
      uploadBF := fullBitfield info
      pc := .seed }
  else { s with pc := .makeDir }

/-! ## `phaseDownload` -/

def makeDir (env : Env) (s : Session) : Session :=
  match s.disk.mkdirAll (resolve env.cwd s.dlDir) with
  | none => s.failed
  | some disk => { s with disk := disk, pc := .resumeBits }

/-- The have-bitfield: the persisted one when it has the right length, else what
`VerifyPieces` finds, with the disk behind it. -/
def resumeHave (env : Env) (s : Session) (info : Info) : Option (Files × Option Bitfield) :=
  if s.record.bitfield.length = Bitfield.sizeFor (numPieces info) then
    some (s.disk, some ⟨s.record.bitfield⟩)
  else
    match verifyPieces env.digests.sha1 env.cwd s.disk (s.workPath info) info with
    | (_, none) => none
    | (disk, some (bf, verified)) => some (disk, if verified > 0 then some bf else none)

/-- `make` and `copy` of the upload bitfield. -/
def copyBits (info : Info) (haveBF : Option Bitfield) : Bitfield :=
  ⟨resize (Bitfield.sizeFor (numPieces info)) ((haveBF.map Bitfield.bytes).getD [])⟩

def resumeBits (env : Env) (s : Session) (info : Info) : Option Session :=
  (s.resumeHave env info).map fun (disk, haveBF) =>
    { s with
      disk := disk
      haveBF := haveBF
      uploadBF := copyBits info haveBF
      record := { s.record with
        bitfield := (haveBF.map Bitfield.bytes).getD s.record.bitfield
        state := .downloading }
      pc := .openTarget }

/-- `DownloadWithParams` opens its target; the skip mask is computed just before. -/
def openTarget (env : Env) (s : Session) (info : Info) : Session :=
  match Storage.openTarget env.cwd s.disk (s.workPath info) info with
  | (disk, none) => { s.failed with disk := disk }
  | (disk, some target) =>
    { s with
      disk := disk
      target := target
      skipMask := computeSkipMaskFromRecord info s.record.filePriorities
      pc := .preallocate }

/-- The target gets its size, and the workers start. -/
def preallocate (env : Env) (s : Session) (info : Info) : Session :=
  match Storage.preallocate env.cwd s.disk info s.target with
  | (disk, false) => { s.failed with disk := disk }
  | (disk, true) =>
    { s with
      disk := disk
      dl := { Download.start info s.haveBF s.skipMask env.prioritizeFirstLast env.sequential with
        cancelled := s.cancelled }
      pc := .download }

/-- A result is written, and `OnPiece` marks it before the next one is taken. -/
def receive (env : Env) (s : Session) (info : Info) : Option Session :=
  match s.dl.resultCh with
  | [] => none
  | r :: _ =>
    (writeTarget env.cwd s.disk r.data (pieceOffset info r.index) s.target).bind fun disk =>
      (Download.step env.digests.sha1 s.dl .receive).map fun dl =>
        { s with
          disk := disk
          dl := dl
          uploadBF := s.uploadBF.setPiece r.index
          record := { s.record with bitfield := (s.uploadBF.setPiece r.index).bytes } }

def download (env : Env) (s : Session) (info : Info) : Download.Action → Option Session
  | .receive => s.receive env info
  | a => (Download.step env.digests.sha1 s.dl a).map fun dl => { s with dl := dl }

/-- `DownloadWithParams` returned nil. -/
def downloaded (s : Session) (info : Info) : Option Session :=
  if s.dl.status = .success then
    some { s with pc := if s.mustMove info then .moveFile else .finish }
  else none

def moveFile (env : Env) (s : Session) (info : Info) : Session :=
  match s.disk.rename (resolve env.cwd (s.workPath info)) (resolve env.cwd (s.finalPath info)) with
  | none => s.failed
  | some disk => { s with disk := disk, pc := .finish }

/-- Every piece is marked available, and the session seeds. -/
def finish (s : Session) (info : Info) : Session :=
  { s with
    uploadBF := s.uploadBF.setAll (List.range (numPieces info))
    record := { s.record with
      savePath := if s.mustMove info then s.finalPath info else s.workPath info
      state := .seeding }
    pc := .seed }

/-! ## Ends, and calls from outside -/

/-- Where an operation can fail or the download can return an error. -/
def canFail : Pc → Bool
  | .makeDir | .openTarget | .preallocate | .download | .moveFile => true
  | _ => false

/-- Where the goroutine looks at its context. -/
def canLeave : Pc → Bool
  | .fetch _ | .findPeers | .download | .seed => true
  | _ => false

/-- The goroutine ends because its context is cancelled; `phaseSeed` makes a
seeding torrent complete. -/
def left (s : Session) : Session :=
  { s with
    record := { s.record with state :=
      if s.pc = .seed ∧ s.record.state = .seeding then .complete else s.record.state }
    pc := .stopped }

def pause (s : Session) : Session :=
  let state :=
    match s.record.state with
    | .downloading | .metadata | .seeding | .verifying | .adding => .paused
    | state => state
  { s with
    record := { s.record with state := state }
    cancelled := true
    dl := { s.dl with cancelled := true } }

/-- `Engine.ResumeTorrent` up to the start of the session. -/
def resumeTorrent (s : Session) : Option Session :=
  if s.record.state = .paused ∨ s.record.state = .error then some (s.setState .adding) else none

/-- The metadata that `Engine.SetFilePriority` counts the files of. -/
def priorityInfo (env : Env) (s : Session) : Option Info :=
  match s.tf with
  | some tf => some tf.info
  | none => (Torrent.parse env.digests s.record.torrentData).toOption.map TorrentFile.info

/-- `Engine.SetFilePriority` on a torrent with metadata, with the hot update of a
running download. -/
def setFilePriority (s : Session) (info : Info) (fileIndex : Nat) (priority : Int) :
    Option Session :=
  let fileCount := if info.files = [] then 1 else info.files.length
  if (priority = 0 ∨ priority = prioritySkip) ∧ fileIndex < fileCount then
    let priorities := (s.record.filePriorities ++
      List.replicate (fileCount - s.record.filePriorities.length) 0).set fileIndex priority
    some { s with
      record := { s.record with filePriorities := priorities }
      dl := if s.pc = .download then
          { s.dl with
            queue := s.dl.queue.updateSkipMask (computeSkipMaskFromRecord info priorities) }
        else s.dl }
  else none

/-! ## The step function -/

/-- A step that the goroutine takes at one place. -/
def atPc (s : Session) (pc : Pc) (next : Option Session) : Option Session :=
  if s.pc = pc then next else none

/-- A step behind `phaseResolve`'s first half, where the torrent file is known. -/
def withInfo (s : Session) (next : Info → Option Session) : Option Session :=
  s.tf.bind fun tf => next tf.info

def step (env : Env) (s : Session) : Action → Option Session
  | .start => s.atPc .stopped (some { s with pc := .resolve, cancelled := false })
  | .resolve => s.atPc .resolve (some (s.resolveMetadata env))
  | .fetched metadata =>
    match s.pc with
    | .fetch m => s.fetched env m metadata
    | _ => none
  | .checkName => s.atPc .named (s.withInfo fun info => some (s.checkName info))
  | .peers => s.atPc .findPeers (some { s with pc := .checkResume })
  | .checkResume => s.atPc .checkResume (s.withInfo fun info => some (s.checkResume env info))
  | .makeDir => s.atPc .makeDir (some (s.makeDir env))
  | .resumeBits => s.atPc .resumeBits (s.withInfo (s.resumeBits env))
  | .openTarget => s.atPc .openTarget (s.withInfo fun info => some (s.openTarget env info))
  | .preallocate => s.atPc .preallocate (s.withInfo fun info => some (s.preallocate env info))
  | .download a => s.atPc .download (s.withInfo fun info => s.download env info a)
  | .downloaded => s.atPc .download (s.withInfo s.downloaded)
  | .moveFile => s.atPc .moveFile (s.withInfo fun info => some (s.moveFile env info))
  | .finish => s.atPc .finish (s.withInfo fun info => some (s.finish info))
  | .fail => if canFail s.pc ∧ (s.pc = .download → s.dl.status = .failed) then some s.failed else none
  | .leave =>
    if s.cancelled ∧ canLeave s.pc ∧ (s.pc = .download → s.dl.status = .failed) then some s.left
    else none
  | .pause => some s.pause
  | .resumeTorrent => s.resumeTorrent
  | .setFilePriority fileIndex priority =>
    (s.priorityInfo env).bind fun info => s.setFilePriority info fileIndex priority

end Session

end Stor.Engine
