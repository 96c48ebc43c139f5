import Stor.Engine.Record
import Stor.Storage.Target

/-!
# Where a torrent is saved

Two checks keep a torrent inside the directory it is saved in: the name passes
`sanitizeTorrentName` before anything is opened, and `NewMultiFileWriter` compares
every file path with the path of the torrent as a string.  Together they put every
file strictly below the directory, component by component (`savedFiles_below`).
-/

namespace Stor.Engine

open Lib Torrent Storage

/-- The entries are the paths that passed the check of `NewMultiFileWriter`. -/
theorem mem_fileEntries {baseDir : Bytes} {fs : List File} {offset : Int} {es : List FileEntry}
    (h : fileEntries baseDir fs offset = some es) :
    ∀ fe ∈ es, ∃ f ∈ fs, fe.path = entryPath baseDir f ∧ insideBase baseDir fe.path = true := by
  induction fs generalizing offset es with
  | nil =>
    intro fe hfe
    rw [fileEntries, Option.some_inj] at h
    rw [← h] at hfe
    exact absurd hfe List.not_mem_nil
  | cons f fs ih =>
    rw [fileEntries, Option.ite_none_right_eq_some, Option.map_eq_some_iff] at h
    obtain ⟨hinside, es', hes', rfl⟩ := h
    intro fe hfe
    rcases List.mem_cons.mp hfe with rfl | hfe
    · exact ⟨f, List.mem_cons_self, rfl, hinside⟩
    · obtain ⟨g, hg, hpath⟩ := ih hes' fe hfe
      exact ⟨g, List.mem_cons_of_mem f hg, hpath⟩

/-- A path that passed the check is that of the torrent with something behind it. -/
theorem entryPath_of_insideBase {baseDir path : Bytes} (h : insideBase baseDir path = true) :
    ∃ rest, path = clean baseDir ++ slash :: rest := by
  obtain ⟨rest, hrest⟩ := List.isPrefixOf_iff_prefix.mp h
  refine ⟨rest, ?_⟩
  rw [← hrest, List.append_assoc, List.singleton_append]

/-- The path of a torrent with an accepted name is strictly below the directory, each
file of an opened writer is strictly below that path, and no directory that is made
for it is outside. -/
theorem savedFiles_below (dir name : Bytes) (hname : sanitizeTorrentName name = .ok ()) :
    Below dir (joinPath [dir, name]) ∧
      ∀ cwd disk info entries,
        (newMultiFileWriter cwd disk (joinPath [dir, name]) info).2 = some entries →
          ∀ fe ∈ entries, Below (joinPath [dir, name]) fe.path ∧
            Within (joinPath [dir, name]) (dirName fe.path) := by
  have hbase := below_of_sanitize dir hname
  refine ⟨hbase, fun cwd disk info entries hopen fe hfe => ?_⟩
  obtain ⟨f, -, hpath, hinside⟩ := mem_fileEntries (fileEntries_of_newMultiFileWriter hopen) fe hfe
  obtain ⟨rest, hrest⟩ := entryPath_of_insideBase hinside
  -- the entry is a cleaned path, so what is behind the prefix are its components
  have hclean : clean (joinPath [joinPath [dir, name], joinPath f.path]) =
      clean (joinPath [dir, name]) ++ slash :: rest := hpath.symm.trans hrest
  rw [hpath]
  exact ⟨below_of_cleanBase hbase.last hclean, within_dirName hbase.last hclean⟩

/-- A torrent of two files whose paths go up and down again. -/
def windingInfo : Info where
  name := ascii "t"
  pieceLength := 1
  pieceHashes := []
  length := 0
  files := [⟨1, [ascii "a/../b", ascii "c"]⟩, ⟨1, [ascii "..", ascii "t", ascii "d"]⟩]
  isPrivate := false
  fileTree := none

theorem savedFiles_below_winding :
    sanitizeTorrentName (ascii "t") = .ok () ∧
      ∃ entries, (newMultiFileWriter [] (fun _ => none) (joinPath [ascii "/srv/", ascii "t"])
          windingInfo).2 = some entries ∧
        entries.map FileEntry.path = [ascii "/srv/t/b/c", ascii "/srv/t/d"] ∧
        ∀ fe ∈ entries, Below (joinPath [ascii "/srv/", ascii "t"]) fe.path := by
  have hname : sanitizeTorrentName (ascii "t") = .ok () := by decide +kernel
  have hopen : ((newMultiFileWriter [] (fun _ => none) (joinPath [ascii "/srv/", ascii "t"])
      windingInfo).2).any (fun es =>
        decide (es.map FileEntry.path = [ascii "/srv/t/b/c", ascii "/srv/t/d"])) = true := by
    decide +kernel
  obtain ⟨entries, hentries, hpaths⟩ := (Option.any_eq_true _ _).mp hopen
  refine ⟨hname, entries, hentries, of_decide_eq_true hpaths, fun fe hfe => ?_⟩
  exact ((savedFiles_below (ascii "/srv/") (ascii "t") hname).2 _ _ _ entries hentries fe hfe).1

end Stor.Engine
