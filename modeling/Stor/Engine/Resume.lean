import Stor.Engine.SessionInvariant

/-!
# What a resumed session trusts

`phaseDownload` takes the persisted bitfield when it has the right length, whatever
is on the disk, and asks the disk only otherwise.  `haveTrue_iff` says when the
bits that it hands to `DownloadWithParams` are true of the path that it downloads
to.
-/

namespace Stor.Engine

open Lib Torrent Peer Storage

namespace Session

/-- What `VerifyPieces` reads from. -/
def verifyTarget (env : Env) (s : Session) (info : Info) : Option Target :=
  if isMultiFile info then
    (newMultiFileWriter env.cwd s.disk (s.workPath info) info).2.map .files
  else some (.file (s.workPath info))

/-- The disk has piece `i` at the path that is downloaded to. -/
def OnDisk (env : Env) (s : Session) (info : Info) (i : Nat) : Prop :=
  ∃ target, targetOf (s.workPath info) info = some target ∧
    PieceOk env.digests.sha1 (readAt env.cwd s.disk) target info i

/-- Piece `i` passes the check of `VerifyPieces`. -/
def DiskChecks (env : Env) (s : Session) (info : Info) (i : Nat) : Prop :=
  ∃ target, verifyTarget env s info = some target ∧
    Checks env.digests.sha1 (readAt env.cwd s.disk) target info i

/-- The disk has all the bytes of piece `i`, whatever they are. -/
def DiskHolds (env : Env) (s : Session) (info : Info) (i : Nat) : Prop :=
  ∃ target, targetOf (s.workPath info) info = some target ∧
    PieceHeld (readAt env.cwd s.disk) target info i

/-- The persisted bitfield has the length that lets it through. -/
def BitfieldFits (s : Session) (info : Info) : Prop :=
  s.record.bitfield.length = Bitfield.sizeFor (numPieces info)

instance (s : Session) (info : Info) : Decidable (s.BitfieldFits info) :=
  inferInstanceAs (Decidable (_ = _))

/-- Every have-bit is true of the disk. -/
def HaveTrue (env : Env) (s : Session) (info : Info) : Prop :=
  ∀ i, inBitfield s.haveBF i = true → OnDisk env s info i

/-- What the shortcut and the check have to be given: persisted bits that are true
of this path, or a disk on which no piece passes the check without all its
bytes. -/
def ResumeSafe (env : Env) (s : Session) (info : Info) : Prop :=
  if s.BitfieldFits info then
    ∀ i, (⟨s.record.bitfield⟩ : Bitfield).hasPiece i = true → OnDisk env s info i
  else ∀ i, DiskChecks env s info i → DiskHolds env s info i

/-- The pieces that `phaseDownload` takes for downloaded. -/
def Trusted (env : Env) (s : Session) (info : Info) (i : Nat) : Prop :=
  if s.BitfieldFits info then (⟨s.record.bitfield⟩ : Bitfield).hasPiece i = true
  else DiskChecks env s info i

variable {env : Env} {s t : Session} {info : Info}

theorem targetOf_of_verifyTarget {target : Target} (h : verifyTarget env s info = some target) :
    targetOf (s.workPath info) info = some target := by
  unfold verifyTarget at h
  unfold targetOf
  split_ifs at h ⊢
  · obtain ⟨entries, hentries, rfl⟩ := Option.map_eq_some_iff.mp h
    rw [fileEntries_of_newMultiFileWriter hentries]
    rfl
  · exact h

/-- The bits of what `VerifyPieces` returns, with the nil of `phaseDownload` for
nothing verified. -/
theorem checkPieces_inBitfield {sha1 : Bytes → Bytes} {read : Bytes → Option Bytes}
    {target : Target} {bf : Bitfield} {n : Nat}
    (h : checkPieces sha1 read target info = some (bf, n)) (i : Nat) :
    inBitfield (if n > 0 then some bf else none) i = true ↔ Checks sha1 read target info i := by
  rw [← checkPieces_bit h i]
  split_ifs with hn
  · exact Iff.rfl
  · constructor
    · exact fun hfalse => absurd hfalse Bool.noConfusion
    · intro hbit
      obtain ⟨r, hr, -, hver⟩ := (checkPieces_bit h i).mp hbit
      unfold checkPieces at h
      simp only [Option.ite_none_left_eq_some, Option.some_inj, Prod.mk.injEq] at h
      refine absurd ?_ hn
      rw [← h.2.2]
      exact List.length_pos_of_mem (List.mem_filter.mpr ⟨hr, hver⟩)

/-- What `VerifyPieces` finds: the pieces that pass, and no change of a file. -/
theorem verifyPieces_spec {disk : Files} {bf : Bitfield} {n : Nat}
    (h : verifyPieces env.digests.sha1 env.cwd s.disk (s.workPath info) info =
      (disk, some (bf, n))) :
    readAt env.cwd disk = readAt env.cwd s.disk ∧
      (∀ i, inBitfield (if n > 0 then some bf else none) i = true ↔ DiskChecks env s info i) ∧
      ∀ i, DiskChecks env s info i → ∀ r ∈ verifyReads info, 0 ≤ r.length := by
  have hfound : ∀ target, verifyTarget env s info = some target →
      checkPieces env.digests.sha1 (readAt env.cwd s.disk) target info = some (bf, n) →
      (∀ i, inBitfield (if n > 0 then some bf else none) i = true ↔ DiskChecks env s info i) ∧
        ∀ i, DiskChecks env s info i → ∀ r ∈ verifyReads info, 0 ≤ r.length := by
    intro target htarget hcheck
    refine ⟨fun i => ?_, fun _ _ => checkPieces_nonneg hcheck⟩
    rw [checkPieces_inBitfield hcheck]
    constructor
    · exact fun hok => ⟨target, htarget, hok⟩
    · intro ⟨target', htarget', hok⟩
      rw [htarget, Option.some_inj] at htarget'
      exact htarget' ▸ hok
  have hnothing : (∀ i, ¬ DiskChecks env s info i) → n = 0 →
      (∀ i, inBitfield (if n > 0 then some bf else none) i = true ↔ DiskChecks env s info i) ∧
        ∀ i, DiskChecks env s info i → ∀ r ∈ verifyReads info, 0 ≤ r.length := by
    intro hno hn
    subst hn
    refine ⟨fun i => ?_, fun i hi => absurd hi (hno i)⟩
    exact iff_of_false Bool.false_ne_true (hno i)
  unfold verifyPieces at h
  simp only at h
  split_ifs at h with hmulti hstat
  · have hreads := readAt_newMultiFileWriter env.cwd s.disk (s.workPath info) info
    have htarget : verifyTarget env s info =
        (newMultiFileWriter env.cwd s.disk (s.workPath info) info).2.map .files := by
      unfold verifyTarget
      rw [if_pos hmulti]
    cases hw : newMultiFileWriter env.cwd s.disk (s.workPath info) info with
    | mk disk₁ entries =>
      rw [hw] at h hreads htarget
      cases entries with
      | none =>
        simp only [Prod.mk.injEq, Option.some_inj] at h
        refine ⟨h.1 ▸ hreads, hnothing (fun i ⟨target, ht, _⟩ => ?_) h.2.2.symm⟩
        exact absurd (htarget.symm.trans ht) nofun
      | some entries =>
        simp only [Prod.mk.injEq] at h
        rw [hreads] at h
        exact ⟨h.1 ▸ hreads, hfound _ htarget h.2⟩
  · simp only [Prod.mk.injEq] at h
    have htarget : verifyTarget env s info = some (.file (s.workPath info)) := by
      unfold verifyTarget
      rw [if_neg hmulti]
    exact ⟨h.1 ▸ rfl, hfound _ htarget h.2⟩
  · simp only [Prod.mk.injEq, Option.some_inj] at h
    refine ⟨h.1 ▸ rfl, hnothing (fun i ⟨target, ht, r, _, _, hver⟩ => ?_) h.2.2.symm⟩
    -- there is no file to read
    unfold verifyTarget at ht
    rw [if_neg hmulti, Option.some_inj] at ht
    have hnone : readAt env.cwd s.disk (s.workPath info) = none := Disk.read_of_not_stat hstat
    rw [← ht] at hver
    unfold verifies readTarget at hver
    simp [hnone] at hver

theorem resumeHave_spec {disk : Files} {haveBF : Option Bitfield}
    (h : s.resumeHave env info = some (disk, haveBF)) :
    readAt env.cwd disk = readAt env.cwd s.disk ∧
      (∀ i, inBitfield haveBF i = true ↔ Trusted env s info i) ∧
      (¬ s.BitfieldFits info → ∀ i, DiskChecks env s info i →
        ∀ r ∈ verifyReads info, 0 ≤ r.length) := by
  unfold resumeHave at h
  unfold Trusted
  by_cases hfits : s.BitfieldFits info
  · have hlen : s.record.bitfield.length = Bitfield.sizeFor (numPieces info) := hfits
    rw [if_pos hlen, Option.some_inj, Prod.mk.injEq] at h
    obtain ⟨rfl, rfl⟩ := h
    refine ⟨rfl, fun i => ?_, fun hno => absurd hfits hno⟩
    rw [if_pos hfits]
    exact Iff.rfl
  · have hlen : ¬ s.record.bitfield.length = Bitfield.sizeFor (numPieces info) := hfits
    rw [if_neg hlen] at h
    cases hver : verifyPieces env.digests.sha1 env.cwd s.disk (s.workPath info) info with
    | mk disk₁ res =>
      cases res with
      | none => simp [hver] at h
      | some found =>
        obtain ⟨bf, n⟩ := found
        obtain ⟨hreads, hbits, hnonneg⟩ := verifyPieces_spec hver
        simp only [hver, Option.some_inj, Prod.mk.injEq] at h
        obtain ⟨rfl, rfl⟩ := h
        refine ⟨hreads, fun i => ?_, fun _ => hnonneg⟩
        rw [if_neg hfits]
        exact hbits i

/-- The have-bits are true exactly when what they rest on is. -/
theorem haveTrue_of_resumeHave {disk : Files} {haveBF : Option Bitfield}
    (h : s.resumeHave env info = some (disk, haveBF)) (hpath : t.workPath info = s.workPath info)
    (hdisk : t.disk = disk) (hbits : t.haveBF = haveBF)
    (hnonneg : ∀ f ∈ info.files, 0 ≤ f.length)
    (hsize : (info.files.map File.length).sum < 2 ^ 63) :
    HaveTrue env t info ↔ ResumeSafe env s info := by
  obtain ⟨hreads, htrusted, hlengths⟩ := resumeHave_spec h
  have hon : ∀ i, OnDisk env t info i ↔ OnDisk env s info i := by
    intro i
    unfold OnDisk
    rw [hpath, hdisk, hreads]
  have hcases : HaveTrue env t info ↔ ∀ i, Trusted env s info i → OnDisk env s info i := by
    unfold HaveTrue
    rw [hbits]
    exact forall_congr' fun i => imp_congr (htrusted i) (hon i)
  rw [hcases]
  unfold ResumeSafe Trusted
  by_cases hfits : s.BitfieldFits info
  · simp only [if_pos hfits]
  · simp only [if_neg hfits]
    refine forall_congr' fun i => ?_
    -- a piece that passes the check is right when its bytes are there
    refine imp_congr_right fun ⟨target, htarget, hchecks⟩ => ?_
    have hof := targetOf_of_verifyTarget htarget
    have hiff := pieceOk_iff_held (targetOf_sound hof hnonneg hsize)
      (hlengths hfits i ⟨target, htarget, hchecks⟩) hchecks
    unfold OnDisk DiskHolds
    rw [hof]
    simpa using hiff

/-! ## What comes behind it -/

/-- When the download that starts here is done, every piece was on the disk, is
skipped, or was written with its hash. -/
def SeedsVerified (env : Env) (t : Session) (info : Info) : Prop :=
  ∀ as u, exec (step env) t as = some u → Guarded (step env) NoRace t as → .resumeBits ∉ as →
    u.pc = .finish → ∀ i < numPieces info,
      OnDisk env t info i ∨ inBitfield u.skipMask i = true ∨
        ∃ r ∈ u.dl.written, r.index = i ∧ info.pieceHashes[i]? = some (env.digests.sha1 r.data)

/-- Places between the choice of the have-bits and the seeding state. -/
def inDownload : Pc → Bool
  | .openTarget | .preallocate | .download | .moveFile | .finish => true
  | _ => false

/-- Still the same download, of the same torrent. -/
structure SameDownload (tf : TorrentFile) (haveBF : Option Bitfield) (u : Session) : Prop where
  tf_eq : u.tf = some tf
  no_fetch : ∀ m, u.pc ≠ .fetch m
  have_eq : inDownload u.pc = true → u.haveBF = haveBF

theorem SameDownload.frame {tf : TorrentFile} {haveBF : Option Bitfield} {u v : Session}
    (h : SameDownload tf haveBF u) (htf : v.tf = u.tf) (hfetch : ∀ m, v.pc ≠ .fetch m)
    (hhave : inDownload v.pc = true → inDownload u.pc = true ∧ v.haveBF = u.haveBF) :
    SameDownload tf haveBF v :=
  ⟨htf.trans h.tf_eq, hfetch, fun hpc => (hhave hpc).2.trans (h.have_eq (hhave hpc).1)⟩

theorem step_sameDownload {tf : TorrentFile} {haveBF : Option Bitfield} {u v : Session}
    {a : Action} (h : SameDownload tf haveBF u) (ha : a ≠ .resumeBits) (hstep : Step env u a v) :
    SameDownload tf haveBF v := by
  have hnone : u.tf ≠ none := by
    rw [h.tf_eq]
    exact Option.some_ne_none tf
  have hkeep : ∀ {pc : Pc}, u.pc = pc → inDownload pc = true → inDownload u.pc = true := by
    intro pc hpc hin
    rw [hpc]
    exact hin
  cases hstep with
  | start | known | seederName | checkName | peers | seedDirect | checkResume | makeDir | openFailed
  | preallocateFailed | failed | left | finish => exact h.frame rfl nofun nofun
  | stored _ hno => exact absurd hno hnone
  | source _ hno => exact absurd hno hnone
  | link _ hno => exact absurd hno hnone
  | fetched m hpc => exact absurd hpc (h.no_fetch m)
  | resumeBits => exact absurd rfl ha
  | openTarget hpc | preallocate hpc | moveFile hpc =>
    exact h.frame rfl nofun fun _ => ⟨hkeep hpc rfl, rfl⟩
  | downloaded hpc tf' =>
    refine h.frame rfl (fun m => ?_) fun _ => ⟨hkeep hpc rfl, rfl⟩
    show (if u.mustMove tf'.info then Pc.moveFile else Pc.finish) ≠ .fetch m
    split_ifs <;> exact nofun
  | receive hpc | download hpc => exact h.frame rfl h.no_fetch fun hin => ⟨hin, rfl⟩
  | pause | resumeTorrent | setFilePriority => exact h.frame rfl h.no_fetch fun hin => ⟨hin, rfl⟩

theorem exec_sameDownload {tf : TorrentFile} {haveBF : Option Bitfield} {u v : Session}
    {as : List Action} (h : SameDownload tf haveBF u) (has : .resumeBits ∉ as)
    (hrun : exec (step env) u as = some v) : SameDownload tf haveBF v := by
  induction as generalizing u with
  | nil => exact Option.some_inj.mp hrun ▸ h
  | cons a as ih =>
    obtain ⟨w, hw, hrest⟩ := exec_cons_some hrun
    rw [List.mem_cons, not_or] at has
    exact ih (step_sameDownload h (Ne.symm has.1) (step_sound hw)) has.2 hrest

theorem seedsVerified {tf : TorrentFile} (htf : t.tf = some tf) (hpc : t.pc = .openTarget)
    (hdel : Delivering env t) (htrue : HaveTrue env t tf.info) : SeedsVerified env t tf.info := by
  intro as u hrun hrace has hfinish i hi
  have hsame : SameDownload tf t.haveBF t := ⟨htf, fun m => by rw [hpc]; exact nofun, fun _ => rfl⟩
  have hu := exec_sameDownload hsame has hrun
  have hend := exec_delivering hdel hrace hrun tf hu.tf_eq
  rw [hfinish] at hend
  obtain ⟨-, hinv, hsuccess⟩ := hend
  unfold DlInv at hinv
  rw [hu.have_eq (by rw [hfinish]; rfl)] at hinv
  cases hhave : inBitfield t.haveBF i with
  | true => exact .inl (htrue i hhave)
  | false =>
    cases hskip : inBitfield u.skipMask i with
    | true => exact .inr (.inl rfl)
    | false =>
      have hmem := (hinv.all_written hsuccess).mem_iff.mpr
        (mem_pieceList.mpr ⟨hi, hhave, hskip⟩)
      obtain ⟨r, hr, hindex⟩ := List.mem_map.mp hmem
      obtain ⟨pw, hpw, hpwi, hvalid⟩ := hinv.written_ok (by rw [hsuccess]; exact nofun) r hr
      refine .inr (.inr ⟨r, hr, hindex, ?_⟩)
      rw [hvalid.2, ← hindex, ← hpwi]
      exact (pieceList_hash hpw).1

/-- A torrent of one file that was added, with nothing on the disk. -/
def oneFile : Session := new (addedRecord oneFileTorrent []) (ascii "d") [] fun _ => none

/-- A piece with bytes is not on the disk when the file is missing. -/
theorem not_onDisk_of_missing {i : Nat} (hsingle : isMultiFile info = false)
    (hmissing : readAt env.cwd s.disk (s.workPath info) = none)
    (hpos : 0 < pieceLengthAt info (totalSize info) i) : ¬ OnDisk env s info i := by
  intro h
  obtain ⟨target, htarget, block, hlen, hbytes, _⟩ := h
  unfold targetOf at htarget
  rw [if_neg (by rw [hsingle]; exact Bool.false_ne_true), Option.some_inj] at htarget
  have hzero := hbytes.2 0 (by omega)
  rw [← htarget, byteAt, hmissing, List.getElem?_eq_getElem (by omega)] at hzero
  exact Option.some_ne_none _ hzero.symm

/-- A session restored as a seeder with a full bitfield, whose file is gone. -/
def lostFile : Session :=
  new ⟨ascii "t", [], ascii "d/t", .seeding, oneFileTorrent, [192], []⟩ (ascii "d") [] fun _ => none

end Session

end Stor.Engine
