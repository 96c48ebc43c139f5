import Mathlib.Logic.Function.Basic
import Stor.Lib.Lines
import Stor.Lib.Path
import Stor.Lib.Quote

/-!
# The configuration file

`LoadConfig`, `Save` and `parseTOML` of `daemon/config.go`.  The settings that are in the file
are the keys here, each with the type of its values and its name in the file; `Save` writes them
in the order of `layout`, most of them only when they are not zero.

The home directory, random bytes and the errors of the file system come from outside, as does
`unicode.IsPrint`.
-/

namespace Stor.Daemon
namespace ConfigFile

open Lib

inductive IntKey where
  | port | peerPort | maxActive | maxPeers | maxPipeline | dialTimeout | maxGlobalDials | numWant
  | dhtAlpha | pipelineMin | pipelineMax | pipelineWindowSecs | socketSendBuffer | socketRecvBuffer
  deriving DecidableEq, Repr

inductive StrKey where
  | downloadDir | tmpDir | apiKey | logLevel
  deriving DecidableEq, Repr

inductive BoolKey where
  | enableUTP | prioritizeFirstLast | sequential | enableMetrics
  deriving DecidableEq, Repr

inductive Key where
  | int (k : IntKey)
  | str (k : StrKey)
  | bool (k : BoolKey)
  deriving DecidableEq, Repr

namespace Key

abbrev Value : Key → Type
  | int _ => Int64
  | str _ => Bytes
  | bool _ => Bool

def name : Key → Bytes
  | int .port => ascii "port"
  | int .peerPort => ascii "peer_port"
  | int .maxActive => ascii "max_active"
  | int .maxPeers => ascii "max_peers"
  | int .maxPipeline => ascii "max_pipeline"
  | int .dialTimeout => ascii "dial_timeout"
  | int .maxGlobalDials => ascii "max_global_dials"
  | int .numWant => ascii "numwant"
  | int .dhtAlpha => ascii "dht_alpha"
  | int .pipelineMin => ascii "pipeline_min"
  | int .pipelineMax => ascii "pipeline_max"
  | int .pipelineWindowSecs => ascii "pipeline_window_secs"
  | int .socketSendBuffer => ascii "socket_send_buffer_bytes"
  | int .socketRecvBuffer => ascii "socket_recv_buffer_bytes"
  | str .downloadDir => ascii "download_dir"
  | str .tmpDir => ascii "tmp_dir"
  | str .apiKey => ascii "api_key"
  | str .logLevel => ascii "log_level"
  | bool .enableUTP => ascii "enable_utp"
  | bool .prioritizeFirstLast => ascii "prioritize_first_last_pieces"
  | bool .sequential => ascii "sequential_download"
  | bool .enableMetrics => ascii "enable_metrics"

/-- The cases of `parseTOML`. -/
def all : List Key :=
  [int .port, int .peerPort, str .downloadDir, str .tmpDir, str .apiKey, int .maxActive,
    str .logLevel, int .maxPeers, int .maxPipeline, int .dialTimeout, int .maxGlobalDials,
    int .pipelineMin, int .pipelineMax, int .pipelineWindowSecs, int .socketSendBuffer,
    int .socketRecvBuffer, int .numWant, int .dhtAlpha, bool .enableUTP,
    bool .prioritizeFirstLast, bool .sequential, bool .enableMetrics]

def ofName (key : Bytes) : Option Key := all.find? fun k => k.name = key

/-- What a key that is not set has. -/
def zero : (k : Key) → k.Value
  | int _ => 0
  | str _ => []
  | bool _ => false

/-- The conditions of `Save` for the keys that it does not always write. -/
def present : (k : Key) → k.Value → Bool
  | int _, n => decide (0 < n.toInt)
  | str _, s => decide (s ≠ [])
  | bool _, b => b

/-- The text of a value in the file; a switch is only written when it is on. -/
def write (isPrint : Nat → Bool) : (k : Key) → k.Value → Bytes
  | int _, n => intDigits n.toInt
  | str _, s => quote isPrint s
  | bool _, _ => ascii "true"

/-- The value of a text, nothing when the text is no number. -/
def read : (k : Key) → Bytes → Option k.Value
  | int _, val => (parseInt64 val).map Int64.ofInt
  | str _, val => some val
  | bool _, val => some (val == ascii "true")

end Key

structure Config where
  fields : (k : Key) → k.Value
  statePath : Bytes
  path : Bytes

namespace Config

def set (c : Config) (k : Key) (v : k.Value) : Config :=
  { c with fields := Function.update c.fields k v }

@[simp]
theorem set_self (c : Config) (k : Key) (v : k.Value) : (c.set k v).fields k = v :=
  Function.update_self k v c.fields

theorem set_of_ne (c : Config) {k k' : Key} (h : k' ≠ k) (v : k.Value) :
    (c.set k v).fields k' = c.fields k' :=
  Function.update_of_ne h v c.fields

end Config

structure Env where
  home : Bytes
  isPrint : Nat → Bool
  random : Fin 32 → UInt8
  /-- The errors of the calls with a path. -/
  mkdirError : Bytes → Option Bytes
  writeError : Bytes → Option Bytes
  /-- Other than that the file does not exist. -/
  readError : Bytes → Option Bytes

def defaultDownloadDir (env : Env) : Bytes := joinPath [env.home, ascii "Downloads"]

def defaultConfig (env : Env) : Config where
  fields
    | .int .port => 9090
    | .int .maxActive => 5
    | .str .downloadDir => defaultDownloadDir env
    | .str .logLevel => ascii "info"
    | k => k.zero
  statePath := []
  path := []

def generateAPIKey (env : Env) : Bytes := ascii "sk-" ++ hexEncode (List.ofFn env.random)

/-! ## Writing -/

inductive Line where
  | note (text : Bytes)
  | entry (k : Key)
  deriving DecidableEq

/-- A line of the file, and the key without which it is left out. -/
structure Item where
  line : Line
  guard : Option Key
  deriving DecidableEq

def Item.always (k : Key) : Item := ⟨.entry k, none⟩

def Item.unlessZero (k : Key) : Item := ⟨.entry k, some k⟩

def layout : List Item :=
  [⟨.note (ascii "# stor daemon configuration"), none⟩, ⟨.note [], none⟩,
    .always (.int .port), .unlessZero (.int .peerPort), .always (.str .downloadDir),
    .unlessZero (.str .tmpDir), .always (.str .apiKey), .always (.int .maxActive),
    .always (.str .logLevel),
    ⟨.note [], none⟩, ⟨.note (ascii "# Performance tuning (0 = use defaults)"), none⟩,
    .unlessZero (.int .maxPeers), .unlessZero (.int .maxPipeline),
    .unlessZero (.int .dialTimeout), .unlessZero (.int .maxGlobalDials),
    .unlessZero (.int .pipelineMin), .unlessZero (.int .pipelineMax),
    .unlessZero (.int .pipelineWindowSecs), .unlessZero (.int .socketSendBuffer),
    .unlessZero (.int .socketRecvBuffer), .unlessZero (.int .numWant),
    .unlessZero (.int .dhtAlpha), .unlessZero (.bool .enableUTP),
    .unlessZero (.bool .prioritizeFirstLast), .unlessZero (.bool .sequential),
    ⟨.note [], some (.bool .enableMetrics)⟩,
    ⟨.note (ascii
      "# Observability (exposes /metrics and /debug/pprof/; both require API key)"),
      some (.bool .enableMetrics)⟩,
    .unlessZero (.bool .enableMetrics)]

namespace Config

def present (c : Config) (k : Key) : Bool := k.present (c.fields k)

/-- The lines that `Save` writes. -/
def written (c : Config) : List Line :=
  (layout.filter fun item => item.guard.all c.present).map Item.line

def entryText (isPrint : Nat → Bool) (k : Key) (v : k.Value) : Bytes :=
  k.name ++ ascii " = " ++ k.write isPrint v

def lineText (isPrint : Nat → Bool) (c : Config) : Line → Bytes
  | .note text => text
  | .entry k => entryText isPrint k (c.fields k)

def text (isPrint : Nat → Bool) (c : Config) : Bytes :=
  c.written.flatMap fun line => c.lineText isPrint line ++ [10]

/-- The contents of the files, by path. -/
abbrev Files := Bytes → Option Bytes

def save (env : Env) (c : Config) (files : Files) : Except Bytes Files :=
  if c.path = [] then .ok files
  else
    match env.mkdirError (dirName c.path) with
    | some e => .error e
    | none =>
      match env.writeError c.path with
      | some e => .error e
      | none => .ok (Function.update files c.path (some (c.text env.isPrint)))

end Config

/-! ## Reading -/

/-- The loop of `stripInlineComment`, with the bytes that it has seen: what is in front of a
comment, and nothing if there is none. -/
def stripFrom (inStr : Bool) (seen : Bytes) : Bytes → Option Bytes
  | [] => none
  | c :: rest =>
    if c = 34 then
      if inStr && seen.getLast? == some 92 then stripFrom inStr (seen ++ [c]) rest
      else stripFrom (!inStr) (seen ++ [c]) rest
    else if c = 35 && !inStr then some (trimSpace seen)
    else stripFrom inStr (seen ++ [c]) rest

def stripInlineComment (val : Bytes) : Bytes := (stripFrom false [] val).getD val

/-- The text behind the equals sign, without a comment and without quotes.  A text that cannot be
unquoted is empty. -/
def valueText (val : Bytes) : Bytes :=
  let val := stripInlineComment (trimSpace val)
  if 2 ≤ val.length ∧ val.head? = some 34 ∧ val.getLast? = some 34 then (unquote val).getD []
  else val

namespace Config

def assign (c : Config) (key val : Bytes) : Config :=
  match Key.ofName key with
  | none => c
  | some k =>
    match k.read val with
    | none => c
    | some v => c.set k v

def parseLine (c : Config) (raw : Bytes) : Config :=
  let line := trimSpace raw
  if line = [] ∨ line.head? = some 35 ∨ line.head? = some 91 then c
  else
    match cut 61 line with
    | none => c
    | some (key, val) => c.assign (trimSpace key) (valueText val)

def parseTOML (data : Bytes) (c : Config) : Config := (scanLines data).foldl parseLine c

end Config

def statePathFor (path : Bytes) : Bytes := joinPath [dirName path, ascii "state.json"]

/-- What `LoadConfig` starts from. -/
def startConfig (env : Env) (path : Bytes) : Config :=
  { defaultConfig env with path := path, statePath := statePathFor path }

/-- At least one download is active. -/
def Config.withActive (c : Config) : Config :=
  if (c.fields (.int .maxActive)).toInt < 1 then c.set (.int .maxActive) 5 else c

/-- The files afterwards, the configuration and an error. -/
def loadConfig (env : Env) (files : Config.Files) (path : Bytes) :
    Config.Files × Config × Option Bytes :=
  let cfg := startConfig env path
  match env.readError path with
  | some e => (files, cfg, some (ascii "daemon: read config: " ++ e))
  | none =>
    match files path with
    | none =>
      let cfg := cfg.set (.str .apiKey) (generateAPIKey env)
      match cfg.save env files with
      | .error e => (files, cfg, some (ascii "daemon: save default config: " ++ e))
      | .ok files => (files, cfg, none)
    | some data =>
      let cfg := cfg.parseTOML data
      if cfg.fields (.str .apiKey) = [] then
        let cfg := cfg.set (.str .apiKey) (generateAPIKey env)
        match cfg.save env files with
        | .error e => (files, cfg, some (ascii "daemon: save config with key: " ++ e))
        | .ok files => (files, cfg.withActive, none)
      else (files, cfg.withActive, none)

/-! ## Comments -/

section
variable {isPrint : Nat → Bool} {s x : Bytes}

theorem stripFrom_inside (hx : 34 ∉ x) (seen rest : Bytes) :
    stripFrom true seen (x ++ rest) = stripFrom true (seen ++ x) rest := by
  induction x generalizing seen with
  | nil => rw [List.nil_append, List.append_nil]
  | cons b x ih =>
    obtain ⟨hb, hx⟩ := not_or.mp (List.mem_cons.not.mp hx)
    rw [List.cons_append, stripFrom, if_neg (Ne.symm hb), if_neg (by simp), ih hx,
      List.append_assoc, List.singleton_append]

theorem stripFrom_escaped (seen rest : Bytes) :
    stripFrom true seen (92 :: 34 :: rest) = stripFrom true (seen ++ [92, 34]) rest := by
  rw [stripFrom, if_neg (by decide), if_neg (by decide), stripFrom, if_pos rfl,
    List.getLast?_concat, if_pos (by decide), List.append_assoc]
  rfl

/-- The scanner stays inside the string over the texts of the characters. -/
theorem stripFrom_flatMap {rs : List Bytes} (hrs : ∀ r ∈ rs, IsRune r) (seen rest : Bytes) :
    stripFrom true seen (rs.flatMap (quoteRune isPrint) ++ rest) =
      stripFrom true (seen ++ rs.flatMap (quoteRune isPrint)) rest := by
  induction rs generalizing seen with
  | nil => rw [List.flatMap_nil, List.nil_append, List.append_nil]
  | cons r rs ih =>
    obtain ⟨hr, hrs⟩ := List.forall_mem_cons.mp hrs
    have hbytes := (quoted_quoteRune isPrint hr).bytes
    have hfirst : ∀ rest, stripFrom true seen (quoteRune isPrint r ++ rest) =
        stripFrom true (seen ++ quoteRune isPrint r) rest := by
      intro rest
      by_cases hquote : 34 ∈ quoteRune isPrint r
      · rw [(hbytes 34 hquote).2 rfl]
        exact stripFrom_escaped seen rest
      · exact stripFrom_inside hquote seen rest
    rw [List.flatMap_cons, List.append_assoc, hfirst, ih hrs, List.append_assoc]

/-- Behind a quoted string the scanner is outside, unless the string ends in a backslash: the
closing quote is taken for an escaped one then. -/
theorem stripFrom_quote (isPrint : Nat → Bool) (s rest : Bytes) :
    stripFrom false [] (quote isPrint s ++ rest) =
      stripFrom (s.getLast? == some 92) (quote isPrint s) rest := by
  have hbody : (quoteBody isPrint s).getLast? = some 92 ↔ s.getLast? = some 92 :=
    getLast?_quoteBody
  have hlast : (34 :: quoteBody isPrint s).getLast? = some 92 ↔ s.getLast? = some 92 := by
    rw [← hbody]
    cases quoteBody isPrint s with
    | nil => decide
    | cons b body => rw [List.getLast?_cons_cons]
  have hinside : stripFrom true [34] (quoteBody isPrint s ++ 34 :: rest) =
      stripFrom true (34 :: quoteBody isPrint s) (34 :: rest) :=
    stripFrom_flatMap (fun r => isRune_of_mem) [34] (34 :: rest)
  have hopen : stripFrom false [] (quote isPrint s ++ rest) =
      stripFrom true [34] (quoteBody isPrint s ++ 34 :: rest) := by
    rw [quote, List.cons_append, List.cons_append, List.append_assoc, List.singleton_append,
      stripFrom, if_pos rfl]
    rfl
  rw [hopen, hinside, stripFrom, if_pos rfl, Bool.true_and]
  by_cases hslash : s.getLast? = some 92
  · rw [hlast.mpr hslash, hslash]
    rfl
  · have hfalse : ((34 :: quoteBody isPrint s).getLast? == some 92) = false :=
      beq_eq_false_iff_ne.mpr fun h => hslash (hlast.mp h)
    rw [hfalse, beq_eq_false_iff_ne.mpr hslash]
    rfl

theorem stripFrom_plain {inStr : Bool} (hquote : 34 ∉ x) (hcomment : 35 ∉ x) (seen : Bytes) :
    stripFrom inStr seen x = none := by
  induction x generalizing seen with
  | nil => rfl
  | cons b x ih =>
    obtain ⟨hb, hquote⟩ := not_or.mp (List.mem_cons.not.mp hquote)
    obtain ⟨hb', hcomment⟩ := not_or.mp (List.mem_cons.not.mp hcomment)
    rw [stripFrom, if_neg (Ne.symm hb), if_neg (by simp [Ne.symm hb']), ih hquote hcomment]

theorem stripInlineComment_quote : stripInlineComment (quote isPrint s) = quote isPrint s := by
  have hstrip := stripFrom_quote isPrint s []
  rw [List.append_nil] at hstrip
  rw [stripInlineComment, hstrip]
  rfl

/-- What is in front of a comment is trimmed. -/
theorem exists_of_stripFrom {inStr : Bool} {seen r : Bytes} (h : stripFrom inStr seen x = some r) :
    ∃ y, r = trimSpace (seen ++ y) := by
  induction x generalizing inStr seen with
  | nil => cases h
  | cons b x ih =>
    have hlater : ∀ inStr', stripFrom inStr' (seen ++ [b]) x = some r →
        ∃ y, r = trimSpace (seen ++ y) := by
      intro inStr' hr
      obtain ⟨y, hy⟩ := ih hr
      exact ⟨[b] ++ y, by rw [hy, List.append_assoc]⟩
    rw [stripFrom] at h
    split_ifs at h with hquote hescaped hcomment
    · exact hlater _ h
    · exact hlater _ h
    · exact ⟨[], by rw [← Option.some.inj h, List.append_nil]⟩
    · exact hlater _ h

end

/-! ## Values -/

section
variable {isPrint : Nat → Bool} {s : Bytes}

theorem head?_quote : (quote isPrint s).head? = some 34 := rfl

theorem getLast?_quote : (quote isPrint s).getLast? = some 34 := List.getLast?_concat

theorem solid_quote : Solid 34 := by decide

theorem valueText_quote : valueText (32 :: quote isPrint s) = s := by
  have hlen : 2 ≤ (quote isPrint s).length := by
    have hbounds := length_quote_bounds isPrint s
    omega
  unfold valueText
  dsimp only
  rw [trimSpace_space head?_quote getLast?_quote solid_quote solid_quote,
    stripInlineComment_quote, if_pos ⟨hlen, head?_quote, getLast?_quote⟩, unquote_quote]
  rfl

/-- Behind a string that ends in a backslash a comment is kept. -/
theorem stripInlineComment_slash (isPrint : Nat → Bool) {s : Bytes} (hslash : s.getLast? = some 92)
    (t : Bytes) :
    ∃ t', stripInlineComment (quote isPrint s ++ 32 :: 35 :: t) =
      quote isPrint s ++ 32 :: 35 :: t' := by
  have hinside : stripFrom true (quote isPrint s) (32 :: 35 :: t) =
      stripFrom true (quote isPrint s ++ [32, 35]) t :=
    stripFrom_inside (x := [32, 35]) (by decide) _ t
  rw [stripInlineComment, stripFrom_quote, hslash, beq_self_eq_true, hinside]
  cases hstrip : stripFrom true (quote isPrint s ++ [32, 35]) t with
  | none => exact ⟨t, rfl⟩
  | some r =>
    obtain ⟨y, rfl⟩ := exists_of_stripFrom hstrip
    have hhead : (quote isPrint s ++ [32]).head? = some 34 := rfl
    obtain ⟨t', htrim⟩ := trimSpace_keeps hhead solid_quote (b := 35) (by decide) y
    refine ⟨t', ?_⟩
    rw [List.append_assoc] at htrim
    rw [Option.getD_some, List.append_assoc]
    exact htrim.trans (List.append_assoc _ _ _)

/-- Otherwise it is taken off. -/
theorem stripInlineComment_commented (isPrint : Nat → Bool) {s : Bytes}
    (hslash : s.getLast? ≠ some 92) (t : Bytes) :
    stripInlineComment (quote isPrint s ++ 32 :: 35 :: t) = quote isPrint s := by
  have hstrip : stripFrom false (quote isPrint s) (32 :: 35 :: t) =
      some (trimSpace (quote isPrint s ++ [32])) := by
    rw [stripFrom, if_neg (by decide), if_neg (by decide), stripFrom, if_neg (by decide),
      if_pos (by decide)]
  rw [stripInlineComment, stripFrom_quote, beq_eq_false_iff_ne.mpr hslash, hstrip,
    Option.getD_some, trimSpace_behind head?_quote getLast?_quote solid_quote solid_quote]

/-- A comment behind a string does not change it, unless the string ends in a backslash. -/
theorem valueText_commented (isPrint : Nat → Bool) (s t : Bytes) :
    valueText (32 :: (quote isPrint s ++ 32 :: 35 :: t)) = s ↔ s.getLast? ≠ some 92 := by
  have hhead : (quote isPrint s ++ [32]).head? = some 34 := rfl
  obtain ⟨t', htrim⟩ := trimSpace_space_keeps hhead solid_quote (b := 35) (by decide) t
  rw [List.append_assoc, List.append_assoc, List.singleton_append, List.singleton_append] at htrim
  have hbounds := length_quote_bounds isPrint s
  unfold valueText
  dsimp only
  rw [htrim]
  by_cases hslash : s.getLast? = some 92
  · obtain ⟨t'', hstrip⟩ := stripInlineComment_slash isPrint hslash t'
    rw [hstrip]
    refine iff_of_false (fun heq => ?_) (not_not.mpr hslash)
    split_ifs at heq with hquoted
    · rw [unquote_behind (List.cons_ne_nil _ _), Option.getD_none] at heq
      rw [← heq] at hslash
      cases hslash
    · have hlen := congrArg List.length heq
      rw [List.length_append, List.length_cons] at hlen
      omega
  · rw [stripInlineComment_commented isPrint hslash,
      if_pos ⟨by omega, head?_quote, getLast?_quote⟩, unquote_quote]
    exact iff_of_true rfl hslash

end

/-! ## Entries -/

/-- What the parser needs to know about a name. -/
theorem Key.name_spec (k : Key) :
    (∃ b, k.name.head? = some b ∧ Solid b ∧ b ≠ 35 ∧ b ≠ 91) ∧ 61 ∉ k.name ∧ 10 ∉ k.name ∧
      trimSpace (k.name ++ [32]) = k.name ∧ Key.ofName k.name = some k ∧
      k.name.length ≤ 28 := by
  have hhead : ∃ b, k.name.head? = some b ∧ Solid b ∧ b ≠ 35 ∧ b ≠ 91 := by
    cases k with
    | int k => cases k <;> exact ⟨_, rfl, by decide⟩
    | str k => cases k <;> exact ⟨_, rfl, by decide⟩
    | bool k => cases k <;> exact ⟨_, rfl, by decide⟩
  refine ⟨hhead, ?_⟩
  cases k with
  | int k => cases k <;> decide +kernel
  | str k => cases k <;> decide +kernel
  | bool k => cases k <;> decide +kernel

namespace Config

/-- A line is an assignment to its key. -/
theorem parseLine_entry {raw val : Bytes} {k : Key}
    (hraw : trimSpace raw = k.name ++ ascii " = " ++ val) (c : Config) :
    c.parseLine raw = (k.read (valueText (32 :: val))).elim c (c.set k) := by
  obtain ⟨⟨b, hhead, -, hcomment, hsection⟩, hequals, -, htrim, hof, -⟩ := k.name_spec
  have hline : k.name ++ ascii " = " ++ val = k.name ++ [32] ++ 61 :: (32 :: val) := by
    rw [List.append_assoc, List.append_assoc]
    rfl
  have hstart : (k.name ++ [32] ++ 61 :: (32 :: val)).head? = some b := by
    rw [List.append_assoc, List.head?_append, hhead]
    rfl
  have hne : k.name ++ [32] ++ 61 :: (32 :: val) ≠ [] := by
    intro hnil
    rw [hnil] at hstart
    cases hstart
  have hother : ¬ (k.name ++ [32] ++ 61 :: (32 :: val) = [] ∨
      (k.name ++ [32] ++ 61 :: (32 :: val)).head? = some 35 ∨
      (k.name ++ [32] ++ 61 :: (32 :: val)).head? = some 91) := by
    rw [hstart]
    rintro (h | h | h)
    · exact hne h
    · exact hcomment (Option.some.inj h)
    · exact hsection (Option.some.inj h)
  have hbefore : 61 ∉ k.name ++ [32] := by
    rw [List.mem_append, List.mem_singleton]
    rintro (h | h)
    · exact hequals h
    · exact absurd h (by decide)
  unfold parseLine
  dsimp only
  rw [hraw, hline, if_neg hother, cut_append hbefore]
  dsimp only
  rw [htrim, assign, hof]
  dsimp only
  cases k.read (valueText (32 :: val)) <;> rfl

end Config

theorem mem_intDigits {n : Int} {b : UInt8} (h : b ∈ intDigits n) :
    45 ≤ b.toNat ∧ b.toNat ≤ 57 := by
  have hdigit : ∀ m, b ∈ natDigits m → 45 ≤ b.toNat ∧ b.toNat ≤ 57 := by
    intro m hmem
    have hisDigit := natDigits_isDigit m b hmem
    rw [isDigit, Bool.and_eq_true, decide_eq_true_eq, decide_eq_true_eq] at hisDigit
    omega
  cases n with
  | ofNat m => exact hdigit m h
  | negSucc m =>
    rcases List.mem_cons.mp h with rfl | h
    · decide
    · exact hdigit _ h

theorem intDigits_ne_nil (n : Int) : intDigits n ≠ [] := by
  cases n with
  | ofNat m => exact natDigits_ne_nil m
  | negSucc m => exact List.cons_ne_nil _ _

section
variable (isPrint : Nat → Bool) (k : Key) (v : k.Value)

/-- The text of a value starts and ends with no white space, and is in one line. -/
theorem Key.write_spec :
    (∃ a, (k.write isPrint v).head? = some a ∧ Solid a) ∧
      (∃ b, (k.write isPrint v).getLast? = some b ∧ Solid b) ∧ 10 ∉ k.write isPrint v := by
  cases k with
  | int k =>
    have hne := intDigits_ne_nil v.toInt
    have hsolid : ∀ b ∈ intDigits v.toInt, Solid b := fun b hb => by
      have hrange := mem_intDigits hb
      exact solid_of_range (by omega) (by omega)
    refine ⟨⟨_, List.head?_eq_some_head hne, hsolid _ (List.head_mem hne)⟩,
      ⟨_, List.getLast?_eq_some_getLast hne, hsolid _ (List.getLast_mem hne)⟩, fun hmem => ?_⟩
    exact absurd (mem_intDigits hmem).1 (by decide)
  | str k =>
    exact ⟨⟨34, head?_quote, solid_quote⟩, ⟨34, getLast?_quote, solid_quote⟩,
      newline_notMem_quote⟩
  | bool k =>
    have hnewline : 10 ∉ ascii "true" := by decide
    exact ⟨⟨116, rfl, by decide⟩, ⟨101, rfl, by decide⟩, hnewline⟩

theorem newline_notMem_entry : 10 ∉ Config.entryText isPrint k v := by
  obtain ⟨-, -, hname, -⟩ := k.name_spec
  obtain ⟨-, -, hwrite⟩ := k.write_spec isPrint v
  rw [Config.entryText, List.mem_append, List.mem_append]
  rintro ((h | h) | h)
  · exact hname h
  · exact absurd h (by decide)
  · exact hwrite h

theorem entryText_ends :
    (∃ a, (Config.entryText isPrint k v).head? = some a ∧ Solid a) ∧
      ∃ b, (Config.entryText isPrint k v).getLast? = some b ∧ Solid b := by
  obtain ⟨⟨a, hhead, ha, -⟩, -⟩ := k.name_spec
  obtain ⟨-, ⟨b, hlast, hb⟩, -⟩ := k.write_spec isPrint v
  refine ⟨⟨a, ?_, ha⟩, b, ?_, hb⟩
  · rw [Config.entryText, List.append_assoc, List.head?_append, hhead]
    rfl
  · rw [Config.entryText, List.getLast?_append, hlast]
    rfl

theorem dropCR_entryText :
    dropCR (Config.entryText isPrint k v) = Config.entryText isPrint k v := by
  obtain ⟨-, b, hlast, hb⟩ := entryText_ends isPrint k v
  have hcr : b ≠ 13 := by
    rintro rfl
    exact absurd hb (by decide)
  rw [dropCR, hlast, if_neg fun h => hcr (Option.some.inj h)]

theorem parseLine_entryText (c : Config) :
    c.parseLine (Config.entryText isPrint k v) =
      (k.read (valueText (32 :: k.write isPrint v))).elim c (c.set k) := by
  obtain ⟨⟨a, hhead, ha⟩, b, hlast, hb⟩ := entryText_ends isPrint k v
  exact Config.parseLine_entry (trimSpace_of_ends hhead hlast ha hb) c

end

/-- What is written is read back; of the switches only those that are on are written. -/
theorem Key.read_write (isPrint : Nat → Bool) (k : Key) {v : k.Value}
    (hv : ∀ b, k = .bool b → k.present v = true) :
    k.read (valueText (32 :: k.write isPrint v)) = some v := by
  cases k with
  | int k =>
    obtain ⟨⟨a, hhead, ha⟩, ⟨b, hlast, hb⟩, -⟩ := (Key.int k).write_spec isPrint v
    have hplain : stripInlineComment (intDigits v.toInt) = intDigits v.toInt := by
      rw [stripInlineComment, stripFrom_plain fun h => absurd (mem_intDigits h).1 (by decide)]
      · rfl
      · exact fun h => absurd (mem_intDigits h).1 (by decide)
    have hquote : ¬ (2 ≤ (intDigits v.toInt).length ∧ (intDigits v.toInt).head? = some 34 ∧
        (intDigits v.toInt).getLast? = some 34) := by
      rintro ⟨-, h, -⟩
      exact absurd (mem_intDigits (List.mem_of_head? h)).1 (by decide)
    have htext : valueText (32 :: intDigits v.toInt) = intDigits v.toInt := by
      have htrim := trimSpace_space hhead hlast ha hb
      unfold valueText
      dsimp only
      rw [show trimSpace (32 :: intDigits v.toInt) = intDigits v.toInt from htrim, hplain,
        if_neg hquote]
    show (parseInt64 (valueText (32 :: intDigits v.toInt))).map Int64.ofInt = some v
    rw [htext, parseInt64_intDigits v.le_toInt v.toInt_lt, Option.map_some, Int64.ofInt_toInt]
  | str k => exact congrArg some valueText_quote
  | bool k =>
    have htrue : v = true := hv k rfl
    have htext : (valueText (32 :: ascii "true") == ascii "true") = true := by decide +kernel
    rw [htrue]
    exact congrArg some htext

/-! ## A comment behind a string -/

section
variable {isPrint : Nat → Bool} {k : StrKey} {s c eol : Bytes}

/-- The line of a string setting with a comment. -/
def commentedLine (isPrint : Nat → Bool) (k : StrKey) (s c : Bytes) : Bytes :=
  Config.entryText isPrint (.str k) s ++ ascii " # " ++ c

theorem newline_notMem_commented (hc : 10 ∉ c) : 10 ∉ commentedLine isPrint k s c := by
  rw [commentedLine, List.mem_append, List.mem_append]
  rintro ((h | h) | h)
  · exact newline_notMem_entry isPrint _ _ h
  · exact absurd h (by decide)
  · exact hc h

theorem parseTOML_single {line : Bytes} (hline : 10 ∉ line) (hne : line ≠ [])
    (hlen : line.length < maxLine) (heol : eol = [] ∨ eol = [10]) (cfg : Config) :
    cfg.parseTOML (line ++ eol) = cfg.parseLine (dropCR line) := by
  have hsplit : splitLines (line ++ eol) = [line] := by
    rcases heol with rfl | rfl
    · rw [List.append_nil, splitLines_single hline hne]
    · have hlines := splitLines_flatMap (List.forall_mem_singleton.mpr hline)
      rwa [List.flatMap_singleton] at hlines
  have hkept : decide (line.length < maxLine) = true := decide_eq_true hlen
  rw [Config.parseTOML, scanLines, hsplit, List.takeWhile_cons, hkept]
  rfl

theorem entryText_ne_nil (isPrint : Nat → Bool) (k : Key) (v : k.Value) :
    Config.entryText isPrint k v ≠ [] := by
  obtain ⟨⟨a, hhead, -⟩, -⟩ := entryText_ends isPrint k v
  intro hnil
  rw [hnil] at hhead
  cases hhead

theorem parseTOML_entry (heol : eol = [] ∨ eol = [10])
    (hlen : (Config.entryText isPrint (.str k) s).length < maxLine) (cfg : Config) :
    cfg.parseTOML (Config.entryText isPrint (.str k) s ++ eol) = cfg.set (.str k) s := by
  rw [parseTOML_single (newline_notMem_entry isPrint _ _) (entryText_ne_nil isPrint _ _) hlen heol,
    dropCR_entryText, parseLine_entryText, Key.read_write isPrint (.str k) fun b hb => by cases hb]
  rfl

/-- With a comment the key is still set, but to another text if the string ends in a
backslash. -/
theorem parseTOML_commented (hc : 10 ∉ c) (heol : eol = [] ∨ eol = [10])
    (hlen : (commentedLine isPrint k s c).length < maxLine) (cfg : Config) :
    ∃ val, cfg.parseTOML (commentedLine isPrint k s c ++ eol) = cfg.set (.str k) val ∧
      (val = s ↔ s.getLast? ≠ some 92) := by
  obtain ⟨⟨a, hhead, ha⟩, -⟩ := entryText_ends isPrint (.str k) s
  have hne : commentedLine isPrint k s c ≠ [] := by
    rw [commentedLine, List.append_assoc]
    exact List.append_ne_nil_of_left_ne_nil (entryText_ne_nil isPrint _ _) _
  have hline : commentedLine isPrint k s c =
      Config.entryText isPrint (.str k) s ++ [32] ++ 35 :: (32 :: c) := by
    rw [commentedLine, List.append_assoc, List.append_assoc]
    rfl
  have hstart : (Config.entryText isPrint (.str k) s ++ [32]).head? = some a := by
    rw [List.head?_append, hhead]
    rfl
  obtain ⟨t, htrim⟩ := trimSpace_keeps hstart ha (b := 35) (by decide) (dropCR (32 :: c))
  have hraw : trimSpace (dropCR (commentedLine isPrint k s c)) =
      (Key.str k).name ++ ascii " = " ++ (quote isPrint s ++ 32 :: 35 :: t) := by
    rw [hline, dropCR_append (by decide), htrim, Config.entryText]
    simp only [List.append_assoc]
    rfl
  refine ⟨_, ?_, valueText_commented isPrint s t⟩
  rw [parseTOML_single (newline_notMem_commented hc) hne hlen heol, Config.parseLine_entry hraw]
  rfl

end

/-- A comment behind a quoted string, in a line that fits with its end into the 64 KiB of the
scanner: the setting is the string exactly if the string does not end in a backslash, and then
the line does the same as without the comment, which always sets it. -/
theorem comment_keeps_value (isPrint : Nat → Bool) (cfg : Config) (k : StrKey) (s c eol : Bytes)
    (hc : 10 ∉ c) (heol : eol = [] ∨ eol = [10])
    (hlen : (commentedLine isPrint k s c ++ [10]).length ≤ 64 * 1024) :
    cfg.parseTOML (Config.entryText isPrint (.str k) s ++ eol) = cfg.set (.str k) s ∧
    ((cfg.parseTOML (commentedLine isPrint k s c ++ eol)).fields (.str k) = s ↔
      s.getLast? ≠ some 92) ∧
    (s.getLast? ≠ some 92 →
      cfg.parseTOML (commentedLine isPrint k s c ++ eol) =
        cfg.parseTOML (Config.entryText isPrint (.str k) s ++ eol)) := by
  rw [List.length_append, List.length_singleton] at hlen
  have hshort : (commentedLine isPrint k s c).length < maxLine := hlen
  have hentry : (Config.entryText isPrint (.str k) s).length < maxLine := by
    rw [commentedLine, List.length_append, List.length_append] at hshort
    omega
  obtain ⟨val, hval, hiff⟩ := parseTOML_commented hc heol hshort cfg
  have hplain := parseTOML_entry heol hentry cfg
  refine ⟨hplain, ?_, fun hslash => ?_⟩
  · rw [hval, Config.set_self, hiff]
  · rw [hval, hplain, hiff.mpr hslash]

/-- A configuration with nothing set. -/
def blank : Config := ⟨Key.zero, [], []⟩

/-- A directory with a `#` in its name. -/
theorem comment_keeps_value_hash :
    (blank.parseTOML
      (commentedLine (fun _ => true) .downloadDir (ascii "/a#b") (ascii "why"))).fields
      (.str .downloadDir) = ascii "/a#b" := by
  have hline := (comment_keeps_value (fun _ => true) blank .downloadDir (ascii "/a#b")
    (ascii "why") [] (by decide) (.inl rfl) (by decide +kernel)).2.1
  rw [List.append_nil] at hline
  exact hline.mpr (by decide)

/-- `download_dir = "a\\" # c` sets the directory to the whole text behind the equals sign. -/
theorem comment_changes_value :
    (blank.parseTOML (commentedLine (fun _ => true) .downloadDir [97, 92] (ascii "c"))).fields
        (.str .downloadDir) = [34, 97, 92, 92, 34, 32, 35, 32, 99] ∧
      (blank.parseTOML (Config.entryText (fun _ => true) (.str .downloadDir) [97, 92])).fields
        (.str .downloadDir) = [97, 92] := by
  decide +kernel

end ConfigFile
end Stor.Daemon
