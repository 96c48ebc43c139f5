import Stor.Engine.Resume

/-!
# Pausing and resuming a finished torrent

A resumed session downloads again, in its working directory, what it does not
trust to be there, and puts the working file in the place of the finished one.
`pause_resume_keeps` says what the working file and the queued pieces have to be
for the finished file to come out as it was.
-/

namespace Stor.Engine

open Lib Torrent Peer Storage

namespace Session

/-- A piece that the resumed session will queue. -/
structure Queued (env : Env) (s : Session) (info : Info) (pw : PieceWork) : Prop where
  hash : info.pieceHashes[pw.index]? = some pw.hash
  length : pw.length = pieceLengthAt info (totalSize info) pw.index
  untrusted : ¬ Trusted env s info pw.index
  wanted : inBitfield (computeSkipMaskFromRecord info s.record.filePriorities) pw.index = false

/-- The contents the working file starts with. -/
def workData (env : Env) (s : Session) (info : Info) : Bytes :=
  (readAt env.cwd s.disk (s.workPath info)).getD []

/-- The working file, brought to size, is `D` wherever nothing is queued, and a
queued piece can only be downloaded as the bytes of `D`. -/
structure KeepsData (env : Env) (s : Session) (info : Info) (D : Bytes) : Prop where
  size : (D.length : Int) = totalSize info
  rest : ∀ p : Nat, (∀ pw, Queued env s info pw → ¬ Covers info pw.index p) →
    (resize D.length (workData env s info))[p]? = D[p]?
  same : ∀ pw, Queued env s info pw → 0 ≤ pieceOffset info pw.index → ∀ data,
    Download.ValidData env.digests.sha1 pw data →
      data = slice (pieceOffset info pw.index).toNat data.length D

/-- `X` is `D` up to the queued pieces that are still to be written. -/
def Filled (env : Env) (s : Session) (info : Info) (D : Bytes) (written : List Nat) (X : Bytes) :
    Prop :=
  X.length = D.length ∧
    ∀ p : Nat, (∀ pw, Queued env s info pw → pw.index ∉ written → ¬ Covers info pw.index p) →
      X[p]? = D[p]?

variable {env : Env} {s u v : Session} {info : Info} {D X : Bytes} {written : List Nat}

theorem KeepsData.filled (h : KeepsData env s info D) :
    Filled env s info D [] (resize D.length (workData env s info)) :=
  ⟨resize_length _ _, fun p hp => h.rest p fun pw hpw => hp pw hpw List.not_mem_nil⟩

/-- A piece of `D` that is written takes its piece off the list. -/
theorem Filled.overwrite (h : Filled env s info D written X) (hkeep : KeepsData env s info D)
    {pw : PieceWork} (hpw : Queued env s info pw) (hoff : 0 ≤ pieceOffset info pw.index)
    {data : Bytes} (hdata : Download.ValidData env.digests.sha1 pw data) :
    Filled env s info D (written ++ [pw.index])
      (overwrite (pieceOffset info pw.index).toNat data X) := by
  have hslice := hkeep.same pw hpw hoff data hdata
  have hcovers : ∀ p : Nat, Covers info pw.index p ↔
      (pieceOffset info pw.index).toNat ≤ p ∧
        p < (pieceOffset info pw.index).toNat + data.length := by
    intro p
    have hlen := hdata.1
    rw [hpw.length] at hlen
    unfold Covers
    omega
  have hold : ∀ p : Nat, ¬ Covers info pw.index p →
      (∀ pw', Queued env s info pw' → pw'.index ∉ written ++ [pw.index] →
        ¬ Covers info pw'.index p) → X[p]? = D[p]? := by
    intro p hnot hp
    refine h.2 p fun pw' hpw' hnew => ?_
    by_cases heq : pw'.index = pw.index
    · rw [heq]
      exact hnot
    · refine hp pw' hpw' fun hmem => ?_
      rcases List.mem_append.mp hmem with hmem | hmem
      · exact hnew hmem
      · exact heq (List.mem_singleton.mp hmem)
  by_cases hnil : data = []
  · rw [hnil, overwrite_nil]
    refine ⟨h.1, fun p hp => hold p ?_ hp⟩
    rw [hcovers, hnil, List.length_nil]
    omega
  · have hfit : (pieceOffset info pw.index).toNat + data.length ≤ X.length := by
      have hlen := congrArg List.length hslice
      have hpos := List.length_pos_iff.mpr hnil
      rw [slice_length] at hlen
      rw [h.1]
      omega
    refine ⟨(overwrite_length_of_le hfit).trans h.1, fun p hp => ?_⟩
    rw [overwrite_getElem? hfit]
    split_ifs with hin
    · rw [hslice, slice_getElem?, if_pos (by omega)]
      congr 1
      omega
    · exact hold p (fun hc => hin ((hcovers p).mp hc)) hp

/-- With every queued piece written the file is `D`. -/
theorem Filled.eq (h : Filled env s info D written X)
    (hall : ∀ pw, Queued env s info pw → pw.index ∈ written) : X = D :=
  List.ext_getElem? fun p => h.2 p fun pw hpw hnew => absurd (hall pw hpw) hnew

/-- With a full bitfield nothing is queued, and the working file has to be `D`
as it is. -/
theorem keepsData_of_full (hsize : (D.length : Int) = totalSize info)
    (hwork : workData env s info = D) (hfits : s.BitfieldFits info)
    (hfull : ∀ i < numPieces info, (⟨s.record.bitfield⟩ : Bitfield).hasPiece i = true) :
    KeepsData env s info D := by
  have hnone : ∀ pw, ¬ Queued env s info pw := by
    intro pw hpw
    apply hpw.untrusted
    unfold Trusted
    rw [if_pos hfits]
    exact hfull pw.index (List.getElem?_eq_some_iff.mp hpw.hash).1
  refine ⟨hsize, fun p _ => ?_, fun pw hpw => absurd hpw (hnone pw)⟩
  rw [hwork, resize_of_length rfl]

/-! ## The run -/

/-- The steps of a run of the goroutine, with a pause at any point. -/
def ofRun : Action → Bool
  | .start | .resumeTorrent | .setFilePriority _ _ => false
  | _ => true

/-- The queue is the one that was expected. -/
structure Expected (env : Env) (s : Session) (info : Info) (u : Session) : Prop where
  bits : ∀ i, inBitfield u.haveBF i = true ↔ Trusted env s info i
  mask : u.skipMask = computeSkipMaskFromRecord info s.record.filePriorities
  target : u.target = .file (s.workPath info)

/-- Where the session that was resumed in state `s` stands. -/
def KeepAt (env : Env) (s : Session) (info : Info) (D : Bytes) (u : Session) : Pc → Prop
  | .resolve | .named | .findPeers | .checkResume | .makeDir | .resumeBits =>
    u.record.bitfield = s.record.bitfield ∧ u.isSeeder = false ∧
      readAt env.cwd u.disk = readAt env.cwd s.disk
  | .openTarget =>
    (∀ i, inBitfield u.haveBF i = true ↔ Trusted env s info i) ∧
      readAt env.cwd u.disk = readAt env.cwd s.disk
  | .preallocate =>
    Expected env s info u ∧
      readAt env.cwd u.disk (s.workPath info) = some (workData env s info)
  | .download | .moveFile =>
    Expected env s info u ∧ ∃ X, readAt env.cwd u.disk (s.workPath info) = some X ∧
      Filled env s info D u.delivered X
  | .finish | .seed => readAt env.cwd u.disk (s.finalPath info) = some D
  | .stopped => True
  | .fetch _ => False

structure Keep (env : Env) (s : Session) (tf : TorrentFile) (D : Bytes) (u : Session) : Prop where
  tf_eq : u.tf = some tf
  download_eq : u.downloadDir = s.downloadDir
  tmp_eq : u.tmpDir = s.tmpDir
  prio_eq : u.record.filePriorities = s.record.filePriorities
  at_pc : KeepAt env s tf.info D u u.pc

variable {tf : TorrentFile} {a : Action}

theorem workPath_congr (hd : u.downloadDir = s.downloadDir) (ht : u.tmpDir = s.tmpDir)
    (info : Info) : u.workPath info = s.workPath info := by
  unfold workPath dlDir
  rw [hd, ht]

/-- What is trusted depends on the bitfield and on what the disk reads. -/
theorem trusted_congr (hsingle : isMultiFile info = false)
    (hbits : u.record.bitfield = s.record.bitfield) (hpath : u.workPath info = s.workPath info)
    (hreads : readAt env.cwd u.disk = readAt env.cwd s.disk) (i : Nat) :
    Trusted env u info i ↔ Trusted env s info i := by
  have htarget : verifyTarget env u info = verifyTarget env s info := by
    unfold verifyTarget
    rw [hsingle, hpath]
    rfl
  have hfits : u.BitfieldFits info ↔ s.BitfieldFits info := by
    unfold BitfieldFits
    rw [hbits]
  unfold Trusted
  by_cases hs : s.BitfieldFits info
  · rw [if_pos hs, if_pos (hfits.mpr hs), hbits]
  · rw [if_neg hs, if_neg (mt hfits.mp hs)]
    unfold DiskChecks
    rw [htarget, hreads]

/-- The queued pieces are those of the piece list. -/
theorem Expected.mem_pieceList (h : Expected env s info u) {pw : PieceWork}
    (hpw : pw ∈ pieceList info u.haveBF u.skipMask) : Queued env s info pw := by
  obtain ⟨hhash, hlen⟩ := pieceList_hash hpw
  obtain ⟨-, hhave, hskip⟩ := Storage.mem_pieceList.mp (List.mem_map_of_mem hpw)
  refine ⟨hhash, hlen, fun htrusted => ?_, h.mask ▸ hskip⟩
  rw [(h.bits pw.index).mpr htrusted] at hhave
  exact absurd hhave Bool.noConfusion

theorem Expected.all_delivered (h : Expected env s info u) (hinv : DlInv env u info)
    (hsuccess : u.dl.status = .success) :
    ∀ pw, Queued env s info pw → pw.index ∈ u.delivered := by
  intro pw hpw
  refine (hinv.all_written hsuccess).mem_iff.mpr (Storage.mem_pieceList.mpr ⟨?_, ?_, ?_⟩)
  · exact (List.getElem?_eq_some_iff.mp hpw.hash).1
  · exact Bool.eq_false_iff.mpr fun hbit => hpw.untrusted ((h.bits pw.index).mp hbit)
  · rw [h.mask]
    exact hpw.wanted

/-- A single file is opened, or created empty. -/
theorem readAt_openTarget (hsingle : isMultiFile info = false) {disk disk' : Files} {path : Bytes}
    {target : Target} (h : Storage.openTarget env.cwd disk path info = (disk', some target)) :
    target = .file path ∧ readAt env.cwd disk' path = some ((readAt env.cwd disk path).getD []) := by
  unfold Storage.openTarget at h
  rw [hsingle, if_neg Bool.false_ne_true] at h
  split at h
  · exact absurd (congrArg Prod.snd h) nofun
  · next disk₁ hopen =>
    rw [Prod.mk.injEq, Option.some_inj] at h
    refine ⟨h.2.symm, ?_⟩
    rw [← h.1]
    exact Disk.read_openCreate_self hopen

theorem readAt_preallocate {disk disk' : Files} {path : Bytes}
    (h : Storage.preallocate env.cwd disk info (.file path) = (disk', true)) :
    readAt env.cwd disk' path =
      (readAt env.cwd disk path).map (resize (totalSize info).toNat) := by
  unfold Storage.preallocate at h
  split_ifs at h
  · exact absurd (congrArg Prod.snd h) nofun
  · dsimp only at h
    rw [Prod.mk.injEq] at h
    rw [← h.1]
    exact Disk.read_truncate_self _ _ _

theorem pause_isSeeder (h : u.isSeeder = false) : u.pause.isSeeder = false := by
  unfold isSeeder at h ⊢
  unfold pause
  cases hstate : u.record.state <;> simp_all

/-- A pause changes the state in the record, and no file. -/
theorem keepAt_pause {info : Info} (h : KeepAt env s info D u u.pc) :
    KeepAt env s info D u.pause u.pc := by
  cases hpc : u.pc with
  | resolve | named | findPeers | checkResume | makeDir | resumeBits =>
    rw [hpc] at h
    exact ⟨h.1, pause_isSeeder h.2.1, h.2.2⟩
  | openTarget | finish | seed | stopped =>
    rw [hpc] at h
    exact h
  | preallocate | download | moveFile =>
    rw [hpc] at h
    exact ⟨⟨h.1.bits, h.1.mask, h.1.target⟩, h.2⟩
  | fetch m =>
    rw [hpc] at h
    exact h.elim

theorem step_keep (hsingle : isMultiFile tf.info = false) (hkeep : KeepsData env s tf.info D)
    (h : Keep env s tf D u) (hdel : Delivering env u) (hof : ofRun a = true)
    (hstep : Step env u a v) : Keep env s tf D v := by
  have hnone : u.tf ≠ none := by
    rw [h.tf_eq]
    exact Option.some_ne_none tf
  have hsame : ∀ {tf' : TorrentFile}, u.tf = some tf' → tf' = tf := by
    intro tf' htf'
    exact Option.some_inj.mp (htf'.symm.trans h.tf_eq)
  have hpath := workPath_congr h.download_eq h.tmp_eq tf.info
  have hat := h.at_pc
  have hframe : ∀ {v : Session}, v.tf = u.tf → v.downloadDir = u.downloadDir →
      v.tmpDir = u.tmpDir → v.record.filePriorities = u.record.filePriorities →
      KeepAt env s tf.info D v v.pc → Keep env s tf D v := by
    intro v h1 h2 h3 h4 h5
    exact ⟨h1.trans h.tf_eq, h2.trans h.download_eq, h3.trans h.tmp_eq, h4.trans h.prio_eq, h5⟩
  cases hstep with
  | start | resumeTorrent | setFilePriority => exact absurd hof nofun
  | stored _ hno => exact absurd hno hnone
  | source _ hno => exact absurd hno hnone
  | link _ hno => exact absurd hno hnone
  | fetched m hpc =>
    rw [hpc] at hat
    exact hat.elim
  | openFailed | preallocateFailed | failed | left => exact hframe rfl rfl rfl rfl trivial
  | known hpc | peers hpc | checkResume hpc =>
    rw [hpc] at hat
    exact hframe rfl rfl rfl rfl hat
  | seederName hpc _ _ _ hseeder =>
    rw [hpc] at hat
    exact absurd (hat.2.1.symm.trans hseeder) Bool.false_ne_true
  | seedDirect hpc _ _ hseeder =>
    rw [hpc] at hat
    exact absurd (hat.2.1.symm.trans hseeder) Bool.false_ne_true
  | checkName hpc =>
    rw [hpc] at hat
    exact hframe rfl rfl rfl rfl ⟨hat.1, rfl, hat.2.2⟩
  | makeDir hpc disk hdisk =>
    rw [hpc] at hat
    refine hframe rfl rfl rfl rfl ⟨hat.1, hat.2.1, ?_⟩
    rw [← hat.2.2]
    unfold readAt
    rw [Disk.read_mkdirAll hdisk]
  | resumeBits hpc tf' htf' disk haveBF hhave =>
    rw [hpc] at hat
    obtain rfl := hsame htf'
    obtain ⟨hreads, hbits, -⟩ := resumeHave_spec hhave
    refine hframe rfl rfl rfl rfl ⟨fun i => ?_, hreads.trans hat.2.2⟩
    exact (hbits i).trans (trusted_congr hsingle hat.1 hpath hat.2.2 i)
  | openTarget hpc tf' htf' disk target hopen =>
    rw [hpc] at hat
    obtain rfl := hsame htf'
    rw [hpath] at hopen
    obtain ⟨htarget, hread⟩ := readAt_openTarget hsingle hopen
    refine hframe rfl rfl rfl rfl ⟨⟨hat.1, ?_, htarget⟩, ?_⟩
    · show computeSkipMaskFromRecord tf'.info u.record.filePriorities = _
      rw [h.prio_eq]
    · show readAt env.cwd disk (s.workPath tf'.info) = _
      rw [hread, hat.2]
      rfl
  | preallocate hpc tf' htf' disk hsize =>
    rw [hpc] at hat
    obtain rfl := hsame htf'
    obtain ⟨hexp, hread⟩ := hat
    rw [hexp.target] at hsize
    have hfile := readAt_preallocate hsize
    rw [hread, Option.map_some, ← hkeep.size, Int.toNat_natCast] at hfile
    exact hframe rfl rfl rfl rfl ⟨⟨hexp.bits, hexp.mask, hexp.target⟩, _, hfile, hkeep.filled⟩
  | receive hpc tf' htf' r rest hch disk hwrite dl hdl =>
    have hinv := hdel tf h.tf_eq
    rw [hpc] at hat hinv
    obtain rfl := hsame htf'
    obtain ⟨hexp, X, hread, hfill⟩ := hat
    obtain ⟨pw, hpw, hindex, hvalid⟩ := hinv.2.received_ok hch hdl
    rw [hexp.target] at hwrite
    unfold writeTarget at hwrite
    rw [Option.ite_none_left_eq_some, Option.some_inj] at hwrite
    rw [← hindex] at hwrite
    have hnew := hfill.overwrite hkeep (hexp.mem_pieceList hpw) (Int.not_lt.mp hwrite.1) hvalid
    refine hframe rfl rfl rfl rfl (hpc.symm ▸ ⟨⟨hexp.bits, hexp.mask, hexp.target⟩,
      overwrite (pieceOffset tf'.info pw.index).toNat r.data X, ?_, ?_⟩)
    · show readAt env.cwd disk (s.workPath tf'.info) = _
      rw [← hwrite.2]
      unfold readAt
      rw [Disk.read_writeAt_self]
      exact congrArg (Option.map _) hread
    · show Filled env s tf'.info D (dl.written.map Download.PieceResult.index) _
      rw [Download.step_receive hch hdl, List.map_append, List.map_singleton, ← hindex]
      exact hnew
  | download hpc a ha dl hdl =>
    rw [hpc] at hat
    obtain ⟨hexp, X, hread, hfill⟩ := hat
    refine hframe rfl rfl rfl rfl (hpc.symm ▸ ⟨⟨hexp.bits, hexp.mask, hexp.target⟩, X, hread, ?_⟩)
    show Filled env s tf.info D (dl.written.map Download.PieceResult.index) X
    rw [Download.step_written ha hdl]
    exact hfill
  | downloaded hpc tf' htf' hsuccess =>
    have hdl := hdel tf h.tf_eq
    rw [hpc] at hat hdl
    obtain rfl := hsame htf'
    obtain ⟨hexp, X, hread, hfill⟩ := hat
    refine hframe rfl rfl rfl rfl ?_
    show KeepAt env s tf'.info D _ (if u.mustMove tf'.info then .moveFile else .finish)
    split_ifs with hmove
    · exact ⟨⟨hexp.bits, hexp.mask, hexp.target⟩, X, hread, hfill⟩
    · show readAt env.cwd u.disk (s.finalPath tf'.info) = some D
      rw [← finalPath_congr h.download_eq, ← workPath_of_not_mustMove hmove, hpath, hread,
        hfill.eq (hexp.all_delivered hdl.2 hsuccess)]
  | moveFile hpc tf' htf' disk hrename =>
    have hdl := hdel tf h.tf_eq
    rw [hpc] at hat hdl
    obtain rfl := hsame htf'
    obtain ⟨hexp, X, hread, hfill⟩ := hat
    refine hframe rfl rfl rfl rfl ?_
    show disk.read (resolve env.cwd (s.finalPath tf'.info)) = some D
    rw [← finalPath_congr h.download_eq, Disk.read_rename hrename, hpath]
    rw [hfill.eq (hexp.all_delivered hdl.2.1 hdl.2.2)] at hread
    exact hread
  | finish hpc tf' htf' =>
    rw [hpc] at hat
    exact hframe rfl rfl rfl rfl hat
  | pause => exact hframe rfl rfl rfl rfl (keepAt_pause hat)

theorem exec_keep (hsingle : isMultiFile tf.info = false) (hkeep : KeepsData env s tf.info D)
    {as : List Action} (h : Keep env s tf D u) (hdel : Delivering env u)
    (hof : ∀ a ∈ as, ofRun a = true) (hrace : Guarded (step env) NoRace u as)
    (hrun : exec (step env) u as = some v) : Keep env s tf D v := by
  induction as generalizing u with
  | nil =>
    rw [exec_nil, Option.some_inj] at hrun
    exact hrun ▸ h
  | cons a as ih =>
    obtain ⟨m, hm, hrest⟩ := exec_cons_some hrun
    have hstep := step_sound hm
    exact ih (step_keep hsingle hkeep h hdel (hof a List.mem_cons_self) hstep)
      (step_delivering hdel hrace.1 hstep) (fun b hb => hof b (List.mem_cons_of_mem a hb))
      (hrace.2 m hm) hrest

/-! ## Pausing a finished torrent -/

/-- The session seeds `D` from its final path. -/
structure Finished (env : Env) (s : Session) (tf : TorrentFile) (D : Bytes) : Prop where
  pc_eq : s.pc = .seed
  seeding : s.record.state = .seeding
  tf_eq : s.tf = some tf
  savePath : s.record.savePath = s.finalPath tf.info
  data : readAt env.cwd s.disk (s.finalPath tf.info) = some D

/-- The pause, and what follows it up to a new goroutine. -/
def pauseResume : List Action := [.pause, .leave, .resumeTorrent, .start]

/-- The state a new goroutine finds. -/
def resumed (s : Session) : Session :=
  { s with
    record := { s.record with state := .adding }
    cancelled := false
    pc := .resolve
    dl := { s.dl with cancelled := true } }

theorem Finished.pauseResume (h : Finished env s tf D) :
    exec (step env) s pauseResume = some s.resumed := by
  have hpause : s.pause = { s with
      record := { s.record with state := .paused }
      cancelled := true
      dl := { s.dl with cancelled := true } } := by
    unfold pause
    rw [h.seeding]
  have hleave : step env s.pause .leave = some { s.pause with pc := .stopped } := by
    rw [hpause]
    simp [step, left, canLeave, h.pc_eq]
  have hresume : step env { s.pause with pc := .stopped } .resumeTorrent =
      some { s.pause.setState .adding with pc := .stopped } := by
    rw [hpause]
    rfl
  have hstart : step env { s.pause.setState .adding with pc := .stopped } .start =
      some s.resumed := by
    rw [hpause]
    rfl
  unfold Session.pauseResume
  have hfirst : step env s .pause = some s.pause := rfl
  rw [exec_cons_of_step hfirst, exec_cons_of_step hleave, exec_cons_of_step hresume,
    exec_cons_of_step hstart, exec_nil]

theorem Finished.keep (h : Finished env s tf D) : Keep env s tf D s.resumed :=
  ⟨h.tf_eq, rfl, rfl, rfl, rfl, rfl, rfl⟩

/-- Where the working file is `D` but for the pieces that will be downloaded
again, a paused and resumed torrent that comes to seed again has kept `D`. -/
theorem pause_resume_keeps (env : Env) (s t : Session) (tf : TorrentFile) (D : Bytes)
    (hsingle : isMultiFile tf.info = false) (hdone : Finished env s tf D)
    (hkeep : KeepsData env s tf.info D) (as : List Action) (hof : ∀ a ∈ as, ofRun a = true)
    (hrace : Guarded (step env) NoRace s.resumed as)
    (hrun : exec (step env) s (pauseResume ++ as) = some t) (hseed : t.pc = .seed) :
    readAt env.cwd t.disk (t.finalPath tf.info) = some D := by
  rw [exec_append hdone.pauseResume] at hrun
  have hkept := exec_keep hsingle hkeep hdone.keep (fun _ _ => trivial) hof hrace hrun
  have hat := hkept.at_pc
  rw [hseed] at hat
  rw [finalPath_congr hkept.download_eq]
  exact hat

/-- The torrent of one file just added, with a download directory on the disk. -/
def added (tmpDir : Bytes) : Session :=
  new (addedRecord oneFileTorrent []) (ascii "d") tmpDir fun k =>
    if k = [ascii "d"] then some .dir else none

/-- Both pieces are downloaded. -/
def fetchBoth : List Action :=
  enterDownload ++ fetchPiece 0 pieceA ++ fetchPiece 1 pieceB ++ [.download .finish, .downloaded]

/-- The resumed session has a full bitfield and downloads nothing. -/
def fetchNothing : List Action :=
  [.resolve, .checkName, .peers, .checkResume, .makeDir, .resumeBits, .openTarget, .preallocate,
    .download .finish, .downloaded]

/-- Without a directory for temporary files the working file is the finished one. -/
theorem pause_resume_keeps_inPlace :
    ∃ s t tf, exec (step plainEnv) (added []) (fetchBoth ++ [.finish]) = some s ∧
      Finished plainEnv s tf (pieceA ++ pieceB) ∧ KeepsData plainEnv s tf.info (pieceA ++ pieceB) ∧
      exec (step plainEnv) s (pauseResume ++ (fetchNothing ++ [.finish])) = some t ∧
      t.pc = .seed ∧ readAt [] t.disk (t.finalPath tf.info) = some (pieceA ++ pieceB) := by
  obtain ⟨s, hs, hpc, hstate, hbits, hrace, tf, htf, hsave, hdata, hwork, hsingle, hsize, hnum, t,
      ht, hseed⟩ : ∃ s : Session,
      exec (step plainEnv) (added []) (fetchBoth ++ [Action.finish]) = some s ∧ s.pc = .seed ∧
      s.record.state = .seeding ∧ s.record.bitfield = [192] ∧
      Guarded (step plainEnv) NoRace s.resumed (fetchNothing ++ [Action.finish]) ∧
      ∃ tf, s.tf = some tf ∧ s.record.savePath = s.finalPath tf.info ∧
        readAt [] s.disk (s.finalPath tf.info) = some (pieceA ++ pieceB) ∧
        workData plainEnv s tf.info = pieceA ++ pieceB ∧ isMultiFile tf.info = false ∧
        totalSize tf.info = 40 ∧ numPieces tf.info = 2 ∧
        ∃ t, exec (step plainEnv) s (pauseResume ++ (fetchNothing ++ [Action.finish])) = some t ∧
          t.pc = .seed := by
    rw [added, oneFileTorrent, ascii_ofList, ascii_ofList]
    decide +kernel
  have hdone : Finished plainEnv s tf (pieceA ++ pieceB) := ⟨hpc, hstate, htf, hsave, hdata⟩
  have hkeep : KeepsData plainEnv s tf.info (pieceA ++ pieceB) := by
    apply keepsData_of_full (by rw [hsize]; rfl) hwork
    · unfold BitfieldFits
      rw [hbits, hnum]
      rfl
    · rw [hnum, hbits]
      decide
  exact ⟨s, t, tf, hs, hdone, hkeep, ht, hseed,
    pause_resume_keeps plainEnv s t tf _ hsingle hdone hkeep _ (by decide) hrace ht hseed⟩

/-- With such a directory the resumed session trusts the bitfield for a new
working file, and moves that over the finished one. -/
theorem pause_resume_zeros :
    ∃ s t tf, exec (step plainEnv) (added (ascii "w")) (fetchBoth ++ [.moveFile, .finish]) = some s ∧
      Finished plainEnv s tf (pieceA ++ pieceB) ∧ isMultiFile tf.info = false ∧
      Guarded (step plainEnv) NoRace s.resumed (fetchNothing ++ [.moveFile, .finish]) ∧
      exec (step plainEnv) s (pauseResume ++ (fetchNothing ++ [.moveFile, .finish])) = some t ∧
      t.pc = .seed ∧ readAt [] t.disk (t.finalPath tf.info) = some (List.replicate 40 0) := by
  obtain ⟨s, hs, hpc, hstate, hrace, tf, htf, hsave, hdata, hsingle, t, ht, hend⟩ : ∃ s : Session,
      exec (step plainEnv) (added (ascii "w")) (fetchBoth ++ [Action.moveFile, .finish]) = some s ∧
      s.pc = .seed ∧ s.record.state = .seeding ∧
      Guarded (step plainEnv) NoRace s.resumed (fetchNothing ++ [Action.moveFile, .finish]) ∧
      ∃ tf, s.tf = some tf ∧ s.record.savePath = s.finalPath tf.info ∧
        readAt [] s.disk (s.finalPath tf.info) = some (pieceA ++ pieceB) ∧
        isMultiFile tf.info = false ∧
        ∃ t, exec (step plainEnv) s (pauseResume ++ (fetchNothing ++ [Action.moveFile, .finish])) =
          some t ∧ t.pc = .seed ∧
          readAt [] t.disk (t.finalPath tf.info) = some (List.replicate 40 0) := by
    rw [added, oneFileTorrent, ascii_ofList, ascii_ofList]
    decide +kernel
  exact ⟨s, t, tf, hs, ⟨hpc, hstate, htf, hsave, hdata⟩, hsingle, hrace, ht, hend⟩

end Session

end Stor.Engine
