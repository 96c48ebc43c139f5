import Mathlib.Data.List.TakeWhile
import Stor.Daemon.ConfigFile
import Stor.Lib.Block

/-!
# Saving and loading the configuration

`LoadConfig` after `Save` (`daemon/config.go`).  Every line of the file sets its key to the value
that was saved (`parseLine_lineText`), and the keys that are not written are zero by default, so
that nothing is lost as long as the scanner reads all lines.
-/

namespace Stor.Daemon
namespace ConfigFile

open Lib

/-! ## A saved file -/

namespace Line

def key? : Line → Option Key
  | note _ => none
  | entry k => some k

/-- The line sets its key to the value that it has in `src`. -/
def copy (src : Config) (c : Config) : Line → Config
  | note _ => c
  | entry k => c.set k (src.fields k)

end Line

/-- What `parseTOML` skips. -/
def Skipped (text : Bytes) : Prop := text = [] ∨ text.head? = some 35

instance (text : Bytes) : Decidable (Skipped text) :=
  inferInstanceAs (Decidable (text = [] ∨ text.head? = some 35))

/-- What holds for every item of the layout: a note is skipped and in one line, and a switch is
only written when it is on. -/
def Item.Regular : Item → Prop
  | ⟨.note text, _⟩ => Skipped text ∧ 10 ∉ text ∧ text.length < 100 ∧ text.getLast? ≠ some 13
  | ⟨.entry (.bool k), guard⟩ => guard = some (.bool k)
  | ⟨.entry _, _⟩ => True

instance : (item : Item) → Decidable item.Regular
  | ⟨.note _, _⟩ => inferInstanceAs (Decidable (_ ∧ _))
  | ⟨.entry (.bool k), guard⟩ => inferInstanceAs (Decidable (guard = some (.bool k)))
  | ⟨.entry (.int _), _⟩ => isTrue trivial
  | ⟨.entry (.str _), _⟩ => isTrue trivial

theorem regular_of_mem : ∀ item ∈ layout, item.Regular := by
  decide +kernel

section
variable {isPrint : Nat → Bool} {src : Config}

theorem Config.mem_written {line : Line} :
    line ∈ src.written ↔
      ∃ guard, ⟨line, guard⟩ ∈ layout ∧ guard.all src.present = true := by
  rw [Config.written, List.mem_map]
  constructor
  · rintro ⟨item, hitem, rfl⟩
    obtain ⟨hmem, hguard⟩ := List.mem_filter.mp hitem
    exact ⟨item.guard, hmem, hguard⟩
  · rintro ⟨guard, hmem, hguard⟩
    exact ⟨⟨line, guard⟩, List.mem_filter.mpr ⟨hmem, hguard⟩, rfl⟩

theorem parseLine_skipped {text : Bytes} (h : Skipped text) (c : Config) :
    c.parseLine text = c := by
  unfold Config.parseLine
  dsimp only
  rcases h with rfl | h
  · exact if_pos (.inl rfl)
  · obtain ⟨rest, rfl⟩ := List.head?_eq_some_iff.mp h
    have hsolid : Solid 35 := by decide
    obtain ⟨back, -, htrim⟩ := trimRight_keeps hsolid [] rest
    rw [List.nil_append, List.nil_append] at htrim
    rw [trimSpace, trimLeft_cons hsolid, htrim]
    exact if_pos (.inr (.inl rfl))

section
variable {line : Line} (hline : line ∈ src.written)

include hline

theorem newline_notMem_lineText : 10 ∉ src.lineText isPrint line := by
  obtain ⟨guard, hmem, -⟩ := Config.mem_written.mp hline
  cases line with
  | note text => exact (regular_of_mem _ hmem).2.1
  | entry k => exact newline_notMem_entry isPrint k _

/-- A line of the file sets its key to what was saved. -/
theorem parseLine_lineText (c : Config) :
    c.parseLine (dropCR (src.lineText isPrint line)) = line.copy src c := by
  obtain ⟨guard, hmem, hguard⟩ := Config.mem_written.mp hline
  cases line with
  | note text =>
    obtain ⟨hskipped, -, -, hlast⟩ := regular_of_mem _ hmem
    rw [Config.lineText, dropCR, if_neg hlast, parseLine_skipped hskipped]
    rfl
  | entry k =>
    have hpresent : ∀ b, k = .bool b → k.present (src.fields k) = true := by
      rintro b rfl
      have hregular : guard = some (.bool b) := regular_of_mem _ hmem
      rw [hregular] at hguard
      exact hguard
    rw [Config.lineText, dropCR_entryText, parseLine_entryText,
      Key.read_write isPrint k hpresent]
    rfl

end

theorem scanLines_text :
    scanLines (src.text isPrint) =
      (src.written.takeWhile fun line => (src.lineText isPrint line).length < maxLine).map
        fun line => dropCR (src.lineText isPrint line) := by
  have hlines : ∀ l ∈ src.written.map (src.lineText isPrint), 10 ∉ l := by
    intro l hl
    obtain ⟨line, hline, rfl⟩ := List.mem_map.mp hl
    exact newline_notMem_lineText hline
  have htext : src.text isPrint =
      (src.written.map (src.lineText isPrint)).flatMap fun l => l ++ [10] := by
    rw [Config.text, List.flatMap_map]
  rw [scanLines, htext, splitLines_flatMap hlines, List.takeWhile_map, List.map_map]
  rfl

/-- The lines that are read set their keys, one after the other. -/
theorem parseTOML_text (c : Config) :
    c.parseTOML (src.text isPrint) =
      (src.written.takeWhile fun line => (src.lineText isPrint line).length < maxLine).foldl
        (Line.copy src) c := by
  rw [Config.parseTOML, scanLines_text, List.foldl_map]
  refine List.foldl_ext _ _ c fun c line hline => ?_
  exact parseLine_lineText ((List.takeWhile_sublist _).subset hline) c

theorem fields_foldl_copy (lines : List Line) (c : Config) (k : Key) :
    (lines.foldl (Line.copy src) c).fields k =
      if .entry k ∈ lines then src.fields k else c.fields k := by
  induction lines generalizing c with
  | nil => rw [List.foldl_nil, if_neg List.not_mem_nil]
  | cons line lines ih =>
    rw [List.foldl_cons, ih]
    by_cases hmem : .entry k ∈ lines
    · rw [if_pos hmem, if_pos (List.mem_cons_of_mem _ hmem)]
    · rw [if_neg hmem]
      by_cases hline : line = .entry k
      · rw [hline, if_pos List.mem_cons_self, Line.copy, Config.set_self]
      · rw [if_neg (not_or.mpr ⟨Ne.symm hline, hmem⟩ ∘ List.mem_cons.mp)]
        cases line with
        | note text => rfl
        | entry k' => exact Config.set_of_ne c (fun h => hline (congrArg Line.entry h.symm)) _

end

/-! ### The keys that are not written -/

/-- A number that is not negative. -/
def Key.NonNeg : (k : Key) → k.Value → Prop
  | .int _, n => 0 ≤ n.toInt
  | .str _, _ => True
  | .bool _, _ => True

instance : (k : Key) → (v : k.Value) → Decidable (k.NonNeg v)
  | .int _, n => inferInstanceAs (Decidable (0 ≤ n.toInt))
  | .str _, _ => isTrue trivial
  | .bool _, _ => isTrue trivial

theorem Key.eq_zero {k : Key} {v : k.Value} (hnonneg : k.NonNeg v) (h : k.present v = false) :
    v = k.zero := by
  cases k with
  | int k =>
    have hpos : ¬ 0 < v.toInt := of_decide_eq_false h
    have hle : 0 ≤ v.toInt := hnonneg
    have hzero : v.toInt = (0 : Int64).toInt := by
      rw [Int64.toInt_zero]
      omega
    exact Int64.toInt_inj.mp hzero
  | str k => exact not_not.mp (of_decide_eq_false h)
  | bool k => exact h

/-- A key is always written, or it is zero by default. -/
theorem mem_layout (env : Env) (k : Key) :
    Item.always k ∈ layout ∨
      Item.unlessZero k ∈ layout ∧ (defaultConfig env).fields k = k.zero := by
  cases k with
  | int k => cases k <;> first | exact .inl (by decide) | exact .inr ⟨by decide, rfl⟩
  | str k => cases k <;> first | exact .inl (by decide) | exact .inr ⟨by decide, rfl⟩
  | bool k => cases k <;> exact .inr ⟨by decide, rfl⟩

/-- When every line is read, every key has what was saved. -/
theorem fields_of_whole (env : Env) {src c : Config} (hc : c.fields = (defaultConfig env).fields)
    (hnonneg : ∀ k : Key, k.NonNeg (src.fields k)) :
    (src.written.foldl (Line.copy src) c).fields = src.fields := by
  funext k
  rw [fields_foldl_copy]
  split_ifs with hmem
  · rfl
  · rw [hc]
    rcases mem_layout env k with halways | ⟨hguarded, hzero⟩
    · exact absurd (Config.mem_written.mpr ⟨none, halways, rfl⟩) hmem
    · have habsent : k.present (src.fields k) = false := by
        refine Bool.eq_false_iff.mpr fun hpresent => hmem ?_
        exact Config.mem_written.mpr ⟨some k, hguarded, hpresent⟩
      rw [hzero, Key.eq_zero (hnonneg k) habsent]

/-! ### A line that is too long -/

theorem length_intDigits_le {n : Int} (hlo : -2 ^ 63 ≤ n) (hhi : n < 2 ^ 63) :
    (intDigits n).length ≤ 20 := by
  have hdigits : ∀ m, m ≤ 2 ^ 63 → (natDigits m).length ≤ 19 := by
    intro m hm
    rw [natDigits]
    split_ifs with hzero
    · decide
    · rw [List.length_map, List.length_reverse, Nat.digits_length_le_iff (by decide)]
      omega
  cases n with
  | ofNat m =>
    have hm : (m : Int) < 2 ^ 63 := hhi
    have hlen := hdigits m (by omega)
    rw [intDigits]
    omega
  | negSucc m =>
    have hlen := hdigits (m + 1) (by omega)
    rw [intDigits, List.length_cons]
    omega

section
variable {isPrint : Nat → Bool} {src : Config}

theorem length_entryText_le (isPrint : Nat → Bool) (k : StrKey) (s : Bytes) :
    (Config.entryText isPrint (.str k) s).length ≤ 33 + 4 * s.length := by
  obtain ⟨-, -, -, -, -, hname⟩ := (Key.str k).name_spec
  have hquote := (length_quote_bounds isPrint s).2
  have hequals : (ascii " = ").length = 3 := rfl
  rw [Config.entryText, List.length_append, List.length_append, Key.write]
  omega

/-- Only the line of a string can be too long. -/
theorem exists_of_long {line : Line} (hline : line ∈ src.written)
    (hlong : ¬ (src.lineText isPrint line).length < maxLine) : ∃ k, line = .entry (.str k) := by
  obtain ⟨guard, hmem, -⟩ := Config.mem_written.mp hline
  have hmax : 100 ≤ maxLine := by decide
  have hequals : (ascii " = ").length = 3 := rfl
  cases line with
  | note text =>
    have hlen := (regular_of_mem _ hmem).2.2.1
    rw [Config.lineText] at hlong
    omega
  | entry k =>
    obtain ⟨-, -, -, -, -, hname⟩ := k.name_spec
    rw [Config.lineText, Config.entryText, List.length_append, List.length_append] at hlong
    cases k with
    | int k =>
      have hlen := length_intDigits_le (src.fields (.int k)).le_toInt
        (src.fields (.int k)).toInt_lt
      rw [Key.write] at hlong
      omega
    | str k => exact ⟨k, rfl⟩
    | bool k =>
      have hlen : (ascii "true").length = 4 := rfl
      rw [Key.write] at hlong
      omega

/-- The line of a key stands only once in the file. -/
theorem entry_notMem_of_split {before after : List Line} {k : Key}
    (h : src.written = before ++ .entry k :: after) : .entry k ∉ before := by
  have hsub : (src.written.filterMap Line.key?).Sublist
      ((layout.map Item.line).filterMap Line.key?) :=
    (List.filter_sublist.map Item.line).filterMap Line.key?
  have hnodup : ((layout.map Item.line).filterMap Line.key?).Nodup := by decide
  have hkeys := hnodup.sublist hsub
  have hkey : Line.key? (.entry k) = some k := rfl
  rw [h, List.filterMap_append, List.filterMap_cons_some hkey] at hkeys
  intro hmem
  have hbefore : k ∈ before.filterMap Line.key? := List.mem_filterMap.mpr ⟨_, hmem, rfl⟩
  exact (List.disjoint_of_nodup_append hkeys) hbefore List.mem_cons_self

/-- The string whose line is the first that is too long keeps what it had. -/
theorem exists_unread {c : Config} {line : Line} (hline : line ∈ src.written)
    (hlong : ¬ (src.lineText isPrint line).length < maxLine) :
    ∃ k, ¬ (Config.entryText isPrint (.str k) (src.fields (.str k))).length < maxLine ∧
      (c.parseTOML (src.text isPrint)).fields (.str k) = c.fields (.str k) := by
  let fits : Line → Bool := fun line => decide ((src.lineText isPrint line).length < maxLine)
  have hsplit := List.takeWhile_append_dropWhile (p := fits) (l := src.written)
  have hne : src.written.dropWhile fits ≠ [] := by
    intro hnil
    exact hlong (of_decide_eq_true (List.dropWhile_eq_nil_iff.mp hnil line hline))
  have hfirst := List.head_dropWhile_not fits hne
  obtain ⟨first, rest, hcons⟩ := List.exists_cons_of_ne_nil hne
  simp only [hcons, List.head_cons] at hfirst
  rw [hcons] at hsplit
  have hmem : first ∈ src.written := by
    rw [← hsplit]
    exact List.mem_append_right _ List.mem_cons_self
  obtain ⟨k, rfl⟩ := exists_of_long hmem (of_decide_eq_false hfirst)
  refine ⟨k, of_decide_eq_false hfirst, ?_⟩
  rw [parseTOML_text, fields_foldl_copy, if_neg (entry_notMem_of_split hsplit.symm)]

end

/-! ### Loading -/

theorem Config.withActive_str (c : Config) (k : StrKey) :
    c.withActive.fields (.str k) = c.fields (.str k) := by
  unfold withActive
  split
  · have hne : Key.str k ≠ .int .maxActive := fun h => by cases h
    exact c.set_of_ne hne 5
  · rfl

section
variable {env : Env} {files : Config.Files} {path data : Bytes}
  (hread : env.readError path = none) (hdata : files path = some data)

include hread hdata

/-- A file with a key and at least one active download is taken as it is. -/
theorem loadConfig_eq
    (hkey : ((startConfig env path).parseTOML data).fields (.str .apiKey) ≠ [])
    (hactive : 1 ≤ (((startConfig env path).parseTOML data).fields (.int .maxActive)).toInt) :
    loadConfig env files path = (files, (startConfig env path).parseTOML data, none) := by
  unfold loadConfig
  dsimp only
  rw [hread]
  dsimp only
  rw [hdata]
  dsimp only
  rw [if_neg hkey, Config.withActive, if_neg (Int.not_lt.mpr hactive)]

/-- Of the strings only a missing key is replaced. -/
theorem loadConfig_str (k : StrKey) :
    (loadConfig env files path).2.1.fields (.str k) =
        ((startConfig env path).parseTOML data).fields (.str k) ∨
      k = .apiKey ∧ (loadConfig env files path).2.1.fields (.str k) = generateAPIKey env := by
  unfold loadConfig
  dsimp only
  rw [hread]
  dsimp only
  rw [hdata]
  dsimp only
  generalize (startConfig env path).parseTOML data = parsed
  split
  · have hset : (parsed.set (.str .apiKey) (generateAPIKey env)).fields (.str k) =
          parsed.fields (.str k) ∨
        k = .apiKey ∧
          (parsed.set (.str .apiKey) (generateAPIKey env)).fields (.str k) =
            generateAPIKey env := by
      by_cases hk : k = .apiKey
      · subst hk
        exact .inr ⟨rfl, Config.set_self _ _ _⟩
      · exact .inl (parsed.set_of_ne (fun h => hk (Key.str.inj h)) _)
    split
    · exact hset
    · rw [Config.withActive_str]
      exact hset
  · exact .inl (Config.withActive_str _ _)

end

theorem length_generateAPIKey (env : Env) : (generateAPIKey env).length = 67 := by
  have hstart : (ascii "sk-").length = 3 := rfl
  rw [generateAPIKey, List.length_append, hstart, hexEncode,
    length_flatMap_records (w := 2) fun _ _ => rfl, List.length_ofFn]

/-- If what is loaded is what was saved, every line was read. -/
theorem short_of_fields_eq {env : Env} {files : Config.Files} {src : Config}
    (hread : env.readError src.path = none)
    (hdata : files src.path = some (src.text env.isPrint))
    (hhome : (Config.entryText env.isPrint (.str .downloadDir) (defaultDownloadDir env)).length <
      maxLine)
    (heq : (loadConfig env files src.path).2.1.fields = src.fields) :
    ∀ line ∈ src.written, (src.lineText env.isPrint line).length < maxLine := by
  intro line hline
  by_contra hlong
  obtain ⟨k, hk, hstart⟩ := exists_unread (c := startConfig env src.path) hline hlong
  apply hk
  have hsmall : ∀ (k : StrKey) (s : Bytes), s.length ≤ 67 →
      (Config.entryText env.isPrint (.str k) s).length < maxLine := by
    intro k s hs
    have hlen := length_entryText_le env.isPrint k s
    have hmax : 33 + 4 * 67 < maxLine := by decide
    omega
  rcases loadConfig_str hread hdata k with hparsed | ⟨rfl, hgenerated⟩
  · rw [← heq, hparsed, hstart]
    cases k with
    | downloadDir => exact hhome
    | tmpDir | apiKey => exact hsmall _ [] (by decide)
    | logLevel => exact hsmall _ (ascii "info") (by decide)
  · rw [← heq, hgenerated]
    exact hsmall _ _ (Nat.le_of_eq (length_generateAPIKey env))

theorem Config.save_eq {env : Env} {files files' : Config.Files} {c : Config} (hpath : c.path ≠ [])
    (h : c.save env files = .ok files') : files' c.path = some (c.text env.isPrint) := by
  unfold save at h
  rw [if_neg hpath] at h
  split at h
  · cases h
  split at h
  · cases h
  · rw [← Except.ok.inj h, Function.update_self]

/-- A configuration with a key, at least one active download and no negative number comes back
with every setting when no line of its file, with its end, is longer than the 64 KiB of the
scanner; and, unless the default directory is that long itself, only then. -/
theorem loadConfig_save (env : Env) (files files' : Config.Files) (cfg : Config)
    (hpath : cfg.path ≠ []) (hkey : cfg.fields (.str .apiKey) ≠ [])
    (hactive : 1 ≤ (cfg.fields (.int .maxActive)).toInt)
    (hnonneg : ∀ k : Key, k.NonNeg (cfg.fields k)) (hread : env.readError cfg.path = none)
    (hsave : cfg.save env files = .ok files') :
    ((∀ line ∈ cfg.written, (cfg.lineText env.isPrint line).length < 64 * 1024) →
      (loadConfig env files' cfg.path).2.1.fields = cfg.fields ∧
        (loadConfig env files' cfg.path).2.2 = none) ∧
    ((Config.entryText env.isPrint (.str .downloadDir) (defaultDownloadDir env)).length <
        64 * 1024 →
      (loadConfig env files' cfg.path).2.1.fields = cfg.fields →
        ∀ line ∈ cfg.written, (cfg.lineText env.isPrint line).length < 64 * 1024) := by
  have hdata := Config.save_eq hpath hsave
  refine ⟨fun hshort => ?_, fun hhome heq => short_of_fields_eq hread hdata hhome heq⟩
  have hwhole : ((startConfig env cfg.path).parseTOML (cfg.text env.isPrint)).fields =
      cfg.fields := by
    have hlines : cfg.written.takeWhile
        (fun line => (cfg.lineText env.isPrint line).length < maxLine) = cfg.written :=
      List.takeWhile_eq_self_iff.mpr fun line hline => decide_eq_true (hshort line hline)
    rw [parseTOML_text, hlines]
    exact fields_of_whole env rfl hnonneg
  have hload := loadConfig_eq hread hdata (by rw [hwhole]; exact hkey)
    (by rw [hwhole]; exact hactive)
  rw [hload]
  exact ⟨hwhole, rfl⟩

/-- A host on which nothing fails. -/
def calm : Env where
  home := ascii "/root"
  isPrint := fun _ => true
  random := fun _ => 0
  mkdirError := fun _ => none
  writeError := fun _ => none
  readError := fun _ => none

/-- A key, one active download and a directory. -/
def withDir (dir : Bytes) : Config where
  fields
    | .int .maxActive => 1
    | .str .apiKey => ascii "k"
    | .str .downloadDir => dir
    | k => k.zero
  statePath := []
  path := ascii "/c"

/-- The files when it is saved. -/
def savedDir (dir : Bytes) : Config.Files :=
  Function.update (fun _ => none) (ascii "/c") (some ((withDir dir).text fun _ => true))

theorem save_withDir (dir : Bytes) :
    (withDir dir).save calm (fun _ => none) = .ok (savedDir dir) := by
  have hpath : (withDir dir).path ≠ [] := by
    show ascii "/c" ≠ []
    decide
  rw [Config.save, if_neg hpath]
  rfl

/-- A directory with a quote, a backslash and a line break in its name. -/
theorem loadConfig_save_quoted :
    (∀ line ∈ (withDir [34, 92, 10]).written,
      ((withDir [34, 92, 10]).lineText calm.isPrint line).length < 64 * 1024) ∧
      (loadConfig calm (savedDir [34, 92, 10]) (ascii "/c")).2.1.fields =
        (withDir [34, 92, 10]).fields := by
  have hshort : ∀ line ∈ (withDir [34, 92, 10]).written,
      ((withDir [34, 92, 10]).lineText calm.isPrint line).length < 64 * 1024 := by decide +kernel
  have hnonneg : ∀ k : Key, k.NonNeg ((withDir [34, 92, 10]).fields k) := by
    intro k
    cases k with
    | int k => cases k <;> decide
    | str k => trivial
    | bool k => trivial
  exact ⟨hshort, ((loadConfig_save calm (fun _ => none) (savedDir [34, 92, 10])
    (withDir [34, 92, 10]) (by decide) (by decide) (by decide) hnonneg rfl
    (save_withDir _)).1 hshort).1⟩

theorem loses_withDir {dir : Bytes} (hlen : 65536 ≤ dir.length) :
    (loadConfig calm (savedDir dir) (withDir dir).path).2.1.fields ≠ (withDir dir).fields := by
  intro heq
  have hpath : (withDir dir).path ≠ [] := by
    show ascii "/c" ≠ []
    decide
  have hhome :
      (Config.entryText calm.isPrint (.str .downloadDir) (defaultDownloadDir calm)).length <
        maxLine := by decide +kernel
  have hmem : Line.entry (.str .downloadDir) ∈ (withDir dir).written :=
    Config.mem_written.mpr ⟨none, by decide, rfl⟩
  have hshort : (Config.entryText calm.isPrint (.str .downloadDir) dir).length < maxLine :=
    short_of_fields_eq rfl (Config.save_eq hpath (save_withDir dir)) hhome heq _ hmem
  have hquote : dir.length + 2 ≤ ((Key.str .downloadDir).write calm.isPrint dir).length :=
    (length_quote_bounds calm.isPrint dir).1
  have hmax : maxLine = 65536 := rfl
  rw [Config.entryText, List.length_append] at hshort
  omega

/-- With a directory of 64 KiB the settings do not come back. -/
theorem loadConfig_loses :
    (withDir (List.replicate 65536 97)).save calm (fun _ => none) =
        .ok (savedDir (List.replicate 65536 97)) ∧
      (loadConfig calm (savedDir (List.replicate 65536 97))
          (withDir (List.replicate 65536 97)).path).2.1.fields ≠
        (withDir (List.replicate 65536 97)).fields :=
  ⟨save_withDir _, loses_withDir (Nat.le_of_eq List.length_replicate.symm)⟩

end ConfigFile
end Stor.Daemon
