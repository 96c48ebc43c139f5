import Stor.Engine.SessionInvariant

/-!
# What the uploader advertises

When `phaseDownload` is done it marks every piece available.  With a skip mask
that is more than the session has: `advertised_iff` says that the bits are those
the session started with and those it downloaded exactly when every piece of the
mask was there before.
-/

namespace Stor.Engine

open Lib Bencode Torrent Peer Storage

namespace Session

/-- Every bit of the uploader is a piece that was there at the start or was
delivered to `OnPiece`. -/
def Advertised (s t : Session) : Prop :=
  ∀ i, t.uploadBF.hasPiece i = true → inBitfield s.haveBF i = true ∨ i ∈ s.delivered

/-- In every run without the race of the download, a session that enters the
seeding state advertises only what it has exactly when each skipped piece was
there at the start. -/
theorem advertised_iff (env : Env) (record : Record) (downloadDir tmpDir : Bytes) (disk : Files)
    (as : List Action) (s t : Session)
    (hrun : exec (step env) (new record downloadDir tmpDir disk) as = some s)
    (hrace : Guarded (step env) NoRace (new record downloadDir tmpDir disk) as)
    (tf : TorrentFile) (htf : s.tf = some tf) (hfinish : step env s .finish = some t) :
    t.record.state = .seeding ∧
      (Advertised s t ↔ ∀ i < numPieces tf.info,
        inBitfield s.skipMask i = true → inBitfield s.haveBF i = true) := by
  have hdel := exec_delivering (new_delivering env record downloadDir tmpDir disk) hrace hrun tf htf
  obtain ⟨hpc, hnext⟩ := atPc_eq_some.mp hfinish
  obtain ⟨tf', htf', ht⟩ := withInfo_eq_some.mp hnext
  obtain rfl : tf' = tf := Option.some_inj.mp (htf'.symm.trans htf)
  rw [← Option.some_inj.mp ht]
  rw [hpc] at hdel
  obtain ⟨⟨hlen, hbits⟩, hinv, hsuccess⟩ := hdel
  have hwritten := hinv.all_written hsuccess
  have hup : ∀ i, (s.finish tf'.info).uploadBF.hasPiece i =
      (s.uploadBF.hasPiece i || (decide (i ∈ List.range (numPieces tf'.info)) &&
        decide (i / 8 < s.uploadBF.byteLength))) := fun i => Bitfield.hasPiece_setAll _ _ i
  refine ⟨rfl, ?_, ?_⟩
  · intro hadv i hi hskip
    have hset : (s.finish tf'.info).uploadBF.hasPiece i = true := by
      rw [hup, decide_eq_true (List.mem_range.mpr hi), decide_eq_true (hlen ▸ sizeFor_bound hi)]
      exact Bool.or_true _
    refine (hadv i hset).resolve_right fun hmem => ?_
    -- a skipped piece is not queued, so it was not delivered
    have hqueued := mem_pieceList.mp (hwritten.mem_iff.mp hmem)
    rw [hskip] at hqueued
    exact absurd hqueued.2.2 Bool.noConfusion
  · intro hcond i hi
    rw [hup, Bool.or_eq_true, Bool.and_eq_true, decide_eq_true_eq, List.mem_range] at hi
    rcases hi with hold | ⟨hlt, -⟩
    · exact hbits i hold
    · cases hhave : inBitfield s.haveBF i with
      | true => exact .inl rfl
      | false =>
        refine .inr (hwritten.mem_iff.mpr (mem_pieceList.mpr ⟨hlt, hhave, ?_⟩))
        cases hskip : inBitfield s.skipMask i with
        | false => rfl
        | true => rw [hcond i hlt hskip] at hhave; exact absurd hhave Bool.noConfusion

/-- Both pieces of the two files are downloaded. -/
def bothPieces : List Action :=
  enterDownload ++ fetchPiece 1 pieceB ++ fetchPiece 0 pieceA ++ [.download .finish, .downloaded]

/-- The session of a torrent of two files with the given priorities, just added. -/
def twoFiles (priorities : List Int) : Session :=
  new (addedRecord twoFileTorrent priorities) (ascii "d") [] fun _ => none

theorem advertised_iff_bothPieces :
    ∃ s t, exec (step plainEnv) (twoFiles []) bothPieces = some s ∧
      step plainEnv s .finish = some t ∧ t.record.state = .seeding ∧
      t.uploadBF.hasPiece 1 = true ∧ Advertised s t := by
  have hrun : (exec (step plainEnv) (twoFiles []) bothPieces).map (fun s =>
      (s.tf.isSome, (step plainEnv s .finish).map uploadBF, s.skipMask)) =
      some (true, some ⟨[192]⟩, none) := by
    rw [twoFiles, twoFileTorrent, ascii_ofList, ascii_ofList]
    decide +kernel
  have hguarded : Guarded (step plainEnv) NoRace (twoFiles []) bothPieces := by
    rw [twoFiles, twoFileTorrent, ascii_ofList, ascii_ofList]
    decide +kernel
  obtain ⟨s, hs, hfields⟩ := Option.map_eq_some_iff.mp hrun
  simp only [Prod.mk.injEq] at hfields
  obtain ⟨htf, hfinish, hskip⟩ := hfields
  obtain ⟨tf, htf⟩ := Option.isSome_iff_exists.mp htf
  obtain ⟨t, ht, hup⟩ := Option.map_eq_some_iff.mp hfinish
  obtain ⟨hstate, hiff⟩ := advertised_iff plainEnv _ _ _ _ bothPieces s t hs hguarded tf htf ht
  refine ⟨s, t, hs, ht, hstate, by rw [hup]; decide, hiff.mpr fun i _ hi => ?_⟩
  rw [hskip] at hi
  exact absurd hi Bool.noConfusion

/-- The first piece only. -/
def firstPiece : List Action :=
  enterDownload ++ fetchPiece 0 pieceA ++ [.download .finish, .downloaded]

/-- With the second file skipped the download is done after the first piece, and
the uploader says that it has both. -/
theorem not_advertised_firstPiece :
    ∃ s t, exec (step plainEnv) (twoFiles [0, -1]) firstPiece = some s ∧
      Guarded (step plainEnv) NoRace (twoFiles [0, -1]) firstPiece ∧
      step plainEnv s .finish = some t ∧ t.record.state = .seeding ∧ ¬ Advertised s t := by
  have hrun : (exec (step plainEnv) (twoFiles [0, -1]) firstPiece).map (fun s =>
      ((step plainEnv s .finish).map (fun t => (t.uploadBF, t.record.state)), s.haveBF,
        s.delivered)) = some (some (⟨[192]⟩, .seeding), none, [0]) := by
    rw [twoFiles, twoFileTorrent, ascii_ofList, ascii_ofList]
    decide +kernel
  have hguarded : Guarded (step plainEnv) NoRace (twoFiles [0, -1]) firstPiece := by
    rw [twoFiles, twoFileTorrent, ascii_ofList, ascii_ofList]
    decide +kernel
  obtain ⟨s, hs, hfields⟩ := Option.map_eq_some_iff.mp hrun
  simp only [Prod.mk.injEq] at hfields
  obtain ⟨hfinish, hhave, hdelivered⟩ := hfields
  obtain ⟨t, ht, hfields⟩ := Option.map_eq_some_iff.mp hfinish
  simp only [Prod.mk.injEq] at hfields
  refine ⟨s, t, hs, hguarded, ht, hfields.2, fun hadv => ?_⟩
  have hone := hadv 1 (by rw [hfields.1]; decide)
  rw [hhave, hdelivered] at hone
  exact absurd hone (by decide)

end Session

end Stor.Engine
