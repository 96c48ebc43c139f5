import Stor.Engine.SessionStep

/-!
# What holds of every session

`Ok` holds in every state of every run: the torrent file came out of the parser,
and behind the check of its name that name is a good one.  `Delivering` holds
along the runs without the race of the download: the bitfield of the uploader has
what the session started with and what was delivered since.
-/

namespace Stor.Engine

open Lib Torrent Peer Storage

namespace Session

/-- `phaseResolve` is behind: the torrent file is there, with a good name. -/
def Named (s : Session) : Prop :=
  ∃ tf, s.tf = some tf ∧ sanitizeTorrentName tf.info.name = .ok ()

/-- Places behind the check of the name. -/
def pastName : Pc → Bool
  | .stopped | .resolve | .fetch _ | .named => false
  | _ => true

structure Ok (env : Env) (s : Session) : Prop where
  parsed : ∀ tf, s.tf = some tf →
    ∃ data tf₀, Torrent.parse env.digests data = .ok tf₀ ∧ tf.info = tf₀.info
  named : pastName s.pc = true → s.Named

variable {env : Env} {s t : Session} {a : Action}

theorem new_ok (env : Env) (record : Record) (downloadDir tmpDir : Bytes) (disk : Files) :
    Ok env (new record downloadDir tmpDir disk) := ⟨nofun, nofun⟩

theorem parsed_of_fetch {m : Magnet} {metadata : Bytes} {tf : TorrentFile}
    (h : fetchMetadataFromPeer env.digests metadata = .ok tf) :
    ∃ data tf₀, Torrent.parse env.digests data = .ok tf₀ ∧ (restoreAnnounce m tf).info = tf₀.info := by
  unfold fetchMetadataFromPeer at h
  split at h
  · exact absurd h nofun
  · split at h
    · exact absurd h nofun
    · split at h
      · exact absurd h nofun
      · next tf' hparse =>
        obtain rfl : tf' = tf := Except.ok.inj h
        exact ⟨_, tf', hparse, restoreAnnounce_info m tf'⟩

theorem Ok.frame (h : Ok env s) (htf : t.tf = s.tf)
    (hpc : pastName t.pc = true → pastName s.pc = true) : Ok env t := by
  refine ⟨fun tf htf' => h.parsed tf (htf ▸ htf'), fun hp => ?_⟩
  obtain ⟨tf, htf', hname⟩ := h.named (hpc hp)
  exact ⟨tf, htf.trans htf', hname⟩

theorem step_ok (h : Ok env s) (hstep : Step env s a t) : Ok env t := by
  have hpast : ∀ {pc : Pc}, s.pc = pc → pastName pc = true → pastName s.pc = true := by
    intro pc hpc hp
    rw [hpc]
    exact hp
  cases hstep with
  | start | known | link | openFailed | preallocateFailed | failed | left => exact h.frame rfl nofun
  | stored _ _ tf hparse =>
    refine ⟨fun tf' htf' => ?_, nofun⟩
    rw [← Option.some_inj.mp htf']
    exact ⟨_, tf, hparse, rfl⟩
  | source _ _ data tf hparse =>
    refine ⟨fun tf' htf' => ?_, nofun⟩
    rw [← Option.some_inj.mp htf']
    exact ⟨data, tf, hparse, rfl⟩
  | fetched m _ metadata tf hfetch =>
    refine ⟨fun tf' htf' => ?_, nofun⟩
    rw [← Option.some_inj.mp htf']
    exact parsed_of_fetch hfetch
  | seederName _ tf htf hname => exact ⟨h.parsed, fun _ => ⟨tf, htf, hname⟩⟩
  | checkName _ tf htf hname => exact ⟨h.parsed, fun _ => ⟨tf, htf, hname⟩⟩
  | peers hpc | checkResume hpc | makeDir hpc | seedDirect hpc | resumeBits hpc | openTarget hpc
  | preallocate hpc | receive hpc | download hpc | downloaded hpc | moveFile hpc | finish hpc =>
    exact h.frame rfl fun _ => hpast hpc rfl
  | pause | resumeTorrent | setFilePriority => exact h.frame rfl id

theorem exec_ok {as : List Action} (h : Ok env s) (hrun : exec (step env) s as = some t) :
    Ok env t :=
  exec_invariant (fun _ _ _ hs _ hstep => step_ok hs (step_sound hstep)) h
    (guarded_of_forall (fun _ _ => trivial) s as) hrun

/-! ## The directories, and the path in the record -/

theorem step_dirs (hstep : Step env s a t) :
    t.downloadDir = s.downloadDir ∧ t.tmpDir = s.tmpDir := by
  cases hstep <;> exact ⟨rfl, rfl⟩

theorem finalPath_congr (hd : t.downloadDir = s.downloadDir) (info : Info) :
    t.finalPath info = s.finalPath info := by
  unfold finalPath
  rw [hd]

/-- Where a finished download is not moved, it is at its final path already. -/
theorem workPath_of_not_mustMove {info : Info} (h : ¬ s.mustMove info = true) :
    s.workPath info = s.finalPath info := by
  unfold mustMove at h
  rw [Bool.and_eq_true, decide_eq_true_eq, decide_eq_true_eq, not_and_or, not_not, not_not] at h
  rcases h with htmp | hpath
  · unfold workPath finalPath dlDir
    rw [if_neg (not_not.mpr htmp)]
  · exact hpath

/-- A step leaves the path in the record, or puts the final path there, made with
a good name. -/
theorem step_savePath (h : Ok env s) (hstep : Step env s a t) :
    t.record.savePath = s.record.savePath ∨
      ∃ tf, s.tf = some tf ∧ sanitizeTorrentName tf.info.name = .ok () ∧
        t.record.savePath = s.finalPath tf.info := by
  have hname : ∀ {pc : Pc} {tf : TorrentFile}, s.pc = pc → pastName pc = true → s.tf = some tf →
      sanitizeTorrentName tf.info.name = .ok () := by
    intro pc tf hpc hpast htf
    obtain ⟨tf', htf', hok⟩ := h.named (by rw [hpc]; exact hpast)
    rw [Option.some_inj.mp (htf.symm.trans htf')]
    exact hok
  cases hstep with
  | seedDirect hpc tf htf _ savePath hpath =>
    subst hpath
    by_cases hnil : s.record.savePath = []
    · exact .inr ⟨tf, htf, hname hpc rfl htf, if_pos hnil⟩
    · exact .inl (if_neg hnil)
  | finish hpc tf htf =>
    refine .inr ⟨tf, htf, hname hpc rfl htf, ?_⟩
    show (if s.mustMove tf.info then s.finalPath tf.info else s.workPath tf.info) = _
    split_ifs with hmove
    · rfl
    · exact workPath_of_not_mustMove hmove
  | _ => exact .inl rfl

/-! ## What the uploader's bitfield has -/

/-- The race of the download, as a condition on the steps of a session. -/
def NoRace (s : Session) : Action → Prop
  | .download a => Download.NoRace s.dl a
  | _ => True

instance (s : Session) : (a : Action) → Decidable (NoRace s a)
  | .download a => inferInstanceAs (Decidable (Download.NoRace s.dl a))
  | .start | .resolve | .fetched _ | .checkName | .peers | .checkResume | .makeDir | .resumeBits
  | .openTarget | .preallocate | .downloaded | .moveFile | .finish | .fail | .leave | .pause
  | .resumeTorrent | .setFilePriority _ _ => isTrue trivial

/-- What was delivered to `OnPiece` in this download. -/
def delivered (s : Session) : List Nat := s.dl.written.map Download.PieceResult.index

/-- The bits of the uploader: the have-bits, and those of `extra`. -/
def Bits (s : Session) (info : Info) (extra : List Nat) : Prop :=
  s.uploadBF.byteLength = Bitfield.sizeFor (numPieces info) ∧
    ∀ i, s.uploadBF.hasPiece i = true → inBitfield s.haveBF i = true ∨ i ∈ extra

/-- The download of the queued pieces. -/
def DlInv (env : Env) (s : Session) (info : Info) : Prop :=
  Download.Inv env.digests.sha1 (pieceList info s.haveBF s.skipMask) s.dl

def DeliveringAt (env : Env) (s : Session) (info : Info) : Pc → Prop
  | .openTarget | .preallocate => s.Bits info []
  | .download => s.Bits info s.delivered ∧ DlInv env s info
  | .moveFile | .finish => s.Bits info s.delivered ∧ DlInv env s info ∧ s.dl.status = .success
  | _ => True

def Delivering (env : Env) (s : Session) : Prop :=
  ∀ tf, s.tf = some tf → DeliveringAt env s tf.info s.pc

theorem copyBits_byteLength (info : Info) (haveBF : Option Bitfield) :
    (copyBits info haveBF).byteLength = Bitfield.sizeFor (numPieces info) := resize_length _ _

/-- A copied bit is one of the have-bits. -/
theorem hasPiece_copyBits {info : Info} {haveBF : Option Bitfield} {i : Nat}
    (h : (copyBits info haveBF).hasPiece i = true) : inBitfield haveBF i = true := by
  unfold copyBits Bitfield.hasPiece at h
  simp only [resize_getElem?] at h
  split_ifs at h with hi
  · cases haveBF with
    | none => simp at h
    | some bf =>
      show bf.hasPiece i = true
      unfold Bitfield.hasPiece
      cases hb : bf.bytes[i / 8]? with
      | none => simp [hb] at h
      | some b => simpa [hb] using h

theorem Bits.setPiece {info : Info} {extra : List Nat} (h : s.Bits info extra) (i : Nat) :
    Bits { s with uploadBF := s.uploadBF.setPiece i } info (extra ++ [i]) := by
  refine ⟨(Bitfield.setPiece_byteLength _ _).trans h.1, fun j hj => ?_⟩
  have hj' : (s.uploadBF.setPiece i).hasPiece j = true := hj
  rw [Bitfield.hasPiece_setPiece, Bool.or_eq_true, Bool.and_eq_true, decide_eq_true_eq] at hj'
  rcases hj' with hold | ⟨rfl, -⟩
  · exact (h.2 j hold).imp_right (List.mem_append_left _)
  · exact .inr (List.mem_append_right _ (List.mem_singleton_self _))

theorem Delivering.frame (h : Delivering env s) (htf : t.tf = s.tf) (hpc : t.pc = s.pc)
    (hup : t.uploadBF = s.uploadBF) (hbf : t.haveBF = s.haveBF) (hskip : t.skipMask = s.skipMask)
    (hwritten : t.dl.written = s.dl.written) (hstatus : t.dl.status = s.dl.status)
    (hinv : ∀ pieces, Download.Inv env.digests.sha1 pieces s.dl →
      Download.Inv env.digests.sha1 pieces t.dl) : Delivering env t := by
  intro tf htf'
  have hs := h tf (htf ▸ htf')
  have hbits : ∀ {extra}, s.Bits tf.info extra → t.Bits tf.info extra := by
    intro extra hb
    unfold Bits
    rw [hup, hbf]
    exact hb
  have hdl : DlInv env s tf.info → DlInv env t tf.info := by
    intro hd
    unfold DlInv
    rw [hbf, hskip]
    exact hinv _ hd
  have hdelivered : t.delivered = s.delivered := by
    unfold delivered
    rw [hwritten]
  rw [hpc]
  cases hp : s.pc with
  | openTarget | preallocate =>
    rw [hp] at hs
    exact hbits hs
  | download =>
    rw [hp] at hs
    exact ⟨hdelivered ▸ hbits hs.1, hdl hs.2⟩
  | moveFile | finish =>
    rw [hp] at hs
    exact ⟨hdelivered ▸ hbits hs.1, hdl hs.2.1, hstatus.trans hs.2.2⟩
  | stopped | resolve | fetch | named | findPeers | checkResume | makeDir | resumeBits | seed =>
    trivial

/-- A step of the download that does not deliver. -/
theorem dlInv_of_step {sha1 : Bytes → Bytes} {d d' : Download.State} {a : Download.Action}
    (hrace : Download.NoRace d a) (h : Download.step sha1 d a = some d') :
    ∀ pieces, Download.Inv sha1 pieces d → Download.Inv sha1 pieces d' :=
  fun _ hinv => Download.step_inv hinv hrace h

theorem step_delivering (h : Delivering env s) (hrace : NoRace s a) (hstep : Step env s a t) :
    Delivering env t := by
  cases hstep with
  | start | known | stored | source | link | fetched | seederName | checkName | peers | seedDirect
  | checkResume | makeDir | openFailed | preallocateFailed | failed | left | finish =>
    exact fun _ _ => trivial
  | resumeBits hpc tf htf disk haveBF hhave =>
    intro tf' htf'
    obtain rfl : tf = tf' := Option.some_inj.mp (htf.symm.trans htf')
    exact ⟨copyBits_byteLength _ _, fun i hi => .inl (hasPiece_copyBits hi)⟩
  | openTarget hpc tf htf disk target hopen =>
    intro tf' htf'
    have hs := h tf' htf'
    rw [hpc] at hs
    exact hs
  | preallocate hpc tf htf disk hsize =>
    intro tf' htf'
    have hs := h tf' htf'
    rw [hpc] at hs
    obtain rfl : tf = tf' := Option.some_inj.mp (htf.symm.trans htf')
    refine ⟨hs, ?_⟩
    have hstart := Download.start_inv env.digests.sha1 tf.info s.haveBF s.skipMask
      env.prioritizeFirstLast env.sequential
    exact ⟨hstart.wf, hstart.known, hstart.queued, hstart.workers, hstart.sent, hstart.nodup,
      hstart.fifo, hstart.count, hstart.total, hstart.success⟩
  | receive hpc tf htf r rest hch disk hwrite dl hdl =>
    intro tf' htf'
    have hs := h tf' htf'
    rw [hpc] at hs
    have hbits := hs.1.setPiece r.index
    refine hpc.symm ▸ ⟨?_, Download.step_inv hs.2 hrace hdl⟩
    show Bits _ tf'.info (dl.written.map Download.PieceResult.index)
    rw [Download.step_receive hch hdl, List.map_append]
    exact hbits
  | download hpc a ha dl hdl =>
    intro tf' htf'
    have hs := h tf' htf'
    rw [hpc] at hs
    refine hpc.symm ▸ ⟨?_, Download.step_inv hs.2 hrace hdl⟩
    show s.Bits tf'.info (dl.written.map Download.PieceResult.index)
    rw [Download.step_written ha hdl]
    exact hs.1
  | downloaded hpc tf htf hsuccess =>
    intro tf' htf'
    have hs := h tf' htf'
    rw [hpc] at hs
    show DeliveringAt env _ tf'.info (if s.mustMove tf.info then .moveFile else .finish)
    split_ifs
    · exact ⟨hs.1, hs.2, hsuccess⟩
    · exact ⟨hs.1, hs.2, hsuccess⟩
  | moveFile hpc tf htf disk hrename =>
    intro tf' htf'
    have hs := h tf' htf'
    rw [hpc] at hs
    exact hs
  | pause =>
    exact h.frame rfl rfl rfl rfl rfl rfl rfl (dlInv_of_step (a := .cancel) nofun rfl)
  | resumeTorrent => exact h
  | setFilePriority fileIndex priority priorities mask =>
    by_cases hpc : s.pc = .download
    · rw [if_pos hpc]
      exact h.frame rfl rfl rfl rfl rfl rfl rfl
        (dlInv_of_step (a := .queue (.updateSkipMask mask)) nofun rfl)
    · rw [if_neg hpc]
      exact h.frame rfl rfl rfl rfl rfl rfl rfl fun _ => id

theorem exec_delivering {as : List Action} (h : Delivering env s)
    (hrace : Guarded (step env) NoRace s as) (hrun : exec (step env) s as = some t) :
    Delivering env t :=
  exec_invariant (fun _ _ _ hs hok hstep => step_delivering hs hok (step_sound hstep)) h hrace hrun

theorem new_delivering (env : Env) (record : Record) (downloadDir tmpDir : Bytes) (disk : Files) :
    Delivering env (new record downloadDir tmpDir disk) := nofun

/-! ## A session on a small torrent -/

/-- Digests that are the bytes themselves. -/
def plainEnv : Env := ⟨plainDigests, ⟨fun _ => true, fun _ => true⟩, [], false, false⟩

/-- The two pieces of the small torrents. -/
def pieceA : Bytes := List.replicate 20 97
def pieceB : Bytes := List.replicate 20 98

/-- A torrent `t` of one file with the pieces `pieceA` and `pieceB`. -/
def oneFileTorrent : Bytes :=
  ascii "d4:infod6:lengthi40e4:name1:t12:piece lengthi20e6:pieces40:" ++ pieceA ++ pieceB ++
    ascii "ee"

/-- The same pieces, as one file each. -/
def twoFileTorrent : Bytes :=
  ascii "d4:infod5:filesld6:lengthi20e4:pathl1:xeed6:lengthi20e4:pathl1:yeee4:name1:t12:piece lengthi20e6:pieces40:" ++
    pieceA ++ pieceB ++ ascii "ee"

/-- A record that was just added. -/
def addedRecord (torrentData : Bytes) (priorities : List Int) : Record :=
  ⟨ascii "t", [], [], .adding, torrentData, [], priorities⟩

/-- The steps of a session up to the loop of the download. -/
def enterDownload : List Action :=
  [.start, .resolve, .checkName, .peers, .checkResume, .makeDir, .resumeBits, .openTarget,
    .preallocate, .download .spawn]

/-- One worker takes a piece through its loop, and it is written. -/
def fetchPiece (i : Nat) (data : Bytes) : List Action :=
  (Download.fetch 0 i data ++ [Download.Action.receive]).map Action.download

end Session

end Stor.Engine
