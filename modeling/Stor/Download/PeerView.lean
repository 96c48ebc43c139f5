import Stor.Download.Client

/-!
# What a client believes of its peer

A peer says once what it has, with a `Bitfield`, a `HaveAll` or a `HaveNone`, and adds
to it with `Have`.  The first of these count only where the first loop reads them, and
the second only behind it: there each sets its bit, if the bitfield has a byte for it.
`view_exact_iff` says for which messages the client ends up with what was announced.
-/

namespace Stor.Download

open Lib Torrent Peer Storage

/-! ## What is announced -/

/-- A `Bitfield`, `HaveAll` or `HaveNone`. -/
def PeerMessage.isDeclaration (msg : PeerMessage) : Bool :=
  msg.id = .bitfield || msg.id = .haveAll || msg.id = .haveNone

def PeerMessage.have? (msg : PeerMessage) : Option Nat :=
  if msg.id = .havePiece then parseHave msg.payload else none

/-- The pieces of the `Have` messages. -/
def haves (ms : List Received) : List Nat := ms.filterMap fun m => m.bind PeerMessage.have?

/-- The message says that the peer has piece `i`. -/
def PeerMessage.announces (msg : PeerMessage) (i : Nat) : Bool :=
  match msg.id with
  | .bitfield => Bitfield.hasPiece ⟨msg.payload⟩ i
  | .haveAll => true
  | .havePiece => parseHave msg.payload = some i
  | _ => false

def announced (ms : List Received) (i : Nat) : Bool := ms.any fun m => m.any fun msg => msg.announces i

/-- At most one of the three messages that say what the peer has. -/
def DeclaresOnce (ms : List Received) : Prop :=
  (ms.filter fun m => m.any PeerMessage.isDeclaration).length ≤ 1

/-- The bits that a `Bitfield` or a `HaveNone` sets. -/
def PeerMessage.bits (msg : PeerMessage) : Bitfield :=
  if msg.id = .bitfield then ⟨msg.payload⟩ else ⟨[]⟩

theorem haves_append (ms ms' : List Received) : haves (ms ++ ms') = haves ms ++ haves ms' :=
  List.filterMap_append

theorem mem_haves {ms : List Received} {i : Nat} :
    i ∈ haves ms ↔ ∃ msg, some msg ∈ ms ∧ msg.have? = some i := by
  unfold haves
  rw [List.mem_filterMap]
  constructor
  · intro ⟨m, hm, hbind⟩
    obtain ⟨msg, rfl, hmsg⟩ := Option.bind_eq_some_iff.mp hbind
    exact ⟨msg, hm, hmsg⟩
  · intro ⟨msg, hmem, hmsg⟩
    exact ⟨some msg, hmem, hmsg⟩

theorem announced_iff {ms : List Received} {i : Nat} :
    announced ms i = true ↔ ∃ msg, some msg ∈ ms ∧ msg.announces i = true := by
  unfold announced
  rw [List.any_eq_true]
  constructor
  · intro ⟨m, hm, hany⟩
    obtain ⟨msg, rfl, hmsg⟩ := (Option.any_eq_true _ _).mp hany
    exact ⟨msg, hm, hmsg⟩
  · intro ⟨msg, hmem, hmsg⟩
    exact ⟨some msg, hmem, hmsg⟩

theorem announces_iff {msg : PeerMessage} {i : Nat} : msg.announces i = true ↔
    (msg.isDeclaration = true ∧ (msg.id = .haveAll ∨ msg.bits.hasPiece i = true)) ∨
      msg.have? = some i := by
  obtain ⟨id, payload⟩ := msg
  cases id <;>
    simp [PeerMessage.announces, PeerMessage.isDeclaration, PeerMessage.bits, PeerMessage.have?,
      Bitfield.hasPiece]

/-- There is no second declaration. -/
theorem DeclaresOnce.eq {ms : List Received} (h : DeclaresOnce ms) {msg msg' : PeerMessage}
    (hmem : some msg ∈ ms) (hmem' : some msg' ∈ ms) (hdecl : msg.isDeclaration = true)
    (hdecl' : msg'.isDeclaration = true) : msg' = msg := by
  have hin : some msg ∈ ms.filter fun m => m.any PeerMessage.isDeclaration :=
    List.mem_filter.mpr ⟨hmem, hdecl⟩
  have hin' : some msg' ∈ ms.filter fun m => m.any PeerMessage.isDeclaration :=
    List.mem_filter.mpr ⟨hmem', hdecl'⟩
  unfold DeclaresOnce at h
  have hlen : (ms.filter fun m => m.any PeerMessage.isDeclaration).length = 1 := by
    have := List.length_pos_of_mem hin
    omega
  obtain ⟨m, hm⟩ := List.length_eq_one_iff.mp hlen
  rw [hm, List.mem_singleton] at hin hin'
  exact Option.some_inj.mp (hin'.trans hin.symm)

/-- What is announced in all, when one message declares it. -/
theorem DeclaresOnce.announced_iff {ms : List Received} (h : DeclaresOnce ms) {msg : PeerMessage}
    (hmem : some msg ∈ ms) (hdecl : msg.isDeclaration = true) (i : Nat) :
    announced ms i = true ↔
      (msg.id = .haveAll ∨ msg.bits.hasPiece i = true) ∨ i ∈ haves ms := by
  rw [Download.announced_iff, mem_haves]
  constructor
  · intro ⟨msg', hmem', hann⟩
    rcases announces_iff.mp hann with ⟨hdecl', hhas⟩ | hhave
    · rw [h.eq hmem hmem' hdecl hdecl'] at hhas
      exact .inl hhas
    · exact .inr ⟨msg', hmem', hhave⟩
  · rintro (hhas | ⟨msg', hmem', hhave⟩)
    · exact ⟨msg, hmem, announces_iff.mpr (.inl ⟨hdecl, hhas⟩)⟩
    · exact ⟨msg', hmem', announces_iff.mpr (.inr hhave)⟩

namespace Client

/-! ## What the loops do with it -/

/-- From `c` to `c'` just the `Have` messages among `used` were taken up. -/
structure Heard (c c' : Client) (used : List Received) : Prop where
  haveAll : c'.haveAll = c.haveAll
  bitfield : c'.bitfield =
    if c.haveAll then c.bitfield else c.bitfield.map fun bf => bf.setAll (haves used)

section Loops

variable {c c' c'' : Client} {used used' ms rest : List Received}

/-- Messages without a `Have`. -/
theorem Heard.of_eq (hhaves : haves used = []) (hall : c'.haveAll = c.haveAll)
    (hbits : c'.bitfield = c.bitfield) : Heard c c' used := by
  refine ⟨hall, ?_⟩
  rw [hbits, hhaves]
  split_ifs
  · rfl
  · exact (Option.map_id' ..).symm

theorem Heard.append (h : Heard c c' used) (h' : Heard c' c'' used') :
    Heard c c'' (used ++ used') := by
  refine ⟨h'.haveAll.trans h.haveAll, ?_⟩
  rw [h'.bitfield, h.haveAll, h.bitfield, haves_append]
  split_ifs
  · rfl
  · rw [Option.map_map]
    congr 1
    funext bf
    exact (List.foldl_append ..).symm

theorem Heard.of_receiveHave (c : Client) (payload : Bytes) :
    Heard c (c.receiveHave payload) [some ⟨.havePiece, payload⟩] := by
  have hhaves : haves [some ⟨.havePiece, payload⟩] = (parseHave payload).toList := by
    cases hpayload : parseHave payload <;> simp [haves, PeerMessage.have?, hpayload]
  unfold receiveHave
  cases hpayload : parseHave payload with
  | none =>
    refine .of_eq ?_ rfl rfl
    rw [hhaves, hpayload]
    rfl
  | some index =>
    rw [hpayload] at hhaves
    unfold safeBitfieldSet
    dsimp only
    split_ifs with hall
    · exact ⟨rfl, by rw [if_pos hall]⟩
    · refine ⟨rfl, ?_⟩
      rw [if_neg hall, hhaves]
      rfl

/-- A message in one of the later loops. -/
theorem heard_waitMessage (c : Client) (msg : PeerMessage) :
    Heard c (c.waitMessage msg) [some msg] := by
  obtain ⟨id, payload⟩ := msg
  cases id with
  | havePiece => exact .of_receiveHave c payload
  | _ => exact .of_eq rfl rfl rfl

theorem heard_transferMessage (pw : PieceWork) (c : Client) (t : Transfer) (msg : PeerMessage) :
    Heard c (c.transferMessage pw t msg).1 [some msg] := by
  obtain ⟨id, payload⟩ := msg
  cases id with
  | havePiece => exact .of_receiveHave c payload
  | _ => exact .of_eq rfl rfl rfl

theorem heard_waitForUnchoke {ok : Bool} (h : waitForUnchoke c ms = (c', rest, ok)) :
    ∃ used, ms = used ++ rest ∧ Heard c c' used := by
  induction ms generalizing c with
  | nil =>
    obtain ⟨rfl, rfl, -⟩ := h
    exact ⟨[], rfl, .of_eq rfl rfl rfl⟩
  | cons m ms ih =>
    unfold waitForUnchoke at h
    split_ifs at h
    · obtain ⟨used, rfl, hheard⟩ := ih h
      have hfirst : Heard c (m.elim c c.waitMessage) [m] := by
        cases m with
        | none => exact .of_eq rfl rfl rfl
        | some msg => exact heard_waitMessage c msg
      exact ⟨m :: used, rfl, hfirst.append hheard⟩
    · obtain ⟨rfl, rfl, -⟩ := h
      exact ⟨[], rfl, .of_eq rfl rfl rfl⟩

theorem heard_transferLoop {pw : PieceWork} {target : Nat → Nat} {t : Transfer}
    {result : Except DownloadError Transfer}
    (h : transferLoop pw target c t ms = (c', rest, result)) :
    ∃ used, ms = used ++ rest ∧ Heard c c' used := by
  induction ms generalizing target c t with
  | nil =>
    obtain ⟨rfl, rfl, -⟩ := h
    exact ⟨[], rfl, .of_eq rfl rfl rfl⟩
  | cons m ms ih =>
    unfold transferLoop at h
    split_ifs at h
    · cases m with
      | none =>
        obtain ⟨used, rfl, hheard⟩ := ih h
        have hfirst : Heard c c [none] := .of_eq rfl rfl rfl
        exact ⟨none :: used, rfl, hfirst.append hheard⟩
      | some msg =>
        have hfirst := heard_transferMessage pw c (t.fill pw (target 0)) msg
        dsimp only at h
        split at h
        · next c₁ e hmsg =>
          rw [hmsg] at hfirst
          obtain ⟨rfl, rfl, -⟩ := h
          exact ⟨[some msg], rfl, hfirst⟩
        · next c₁ t₁ hmsg =>
          rw [hmsg] at hfirst
          obtain ⟨used, rfl, hheard⟩ := ih h
          exact ⟨some msg :: used, rfl, hfirst.append hheard⟩
    · obtain ⟨rfl, rfl, -⟩ := h
      exact ⟨[], rfl, .of_eq rfl rfl rfl⟩

theorem heard_downloadPiece {sha1 : Bytes → Bytes} {call : PieceCall}
    {result : Except DownloadError Bytes}
    (h : downloadPiece sha1 call c ms = (c', rest, result)) :
    ∃ used, ms = used ++ rest ∧ Heard c c' used := by
  have hstart : Heard c { c with sentInterested := true } [] := .of_eq rfl rfl rfl
  unfold downloadPiece at h
  split at h
  · next c₁ ms₁ hwait =>
    obtain ⟨used, rfl, hheard⟩ := heard_waitForUnchoke hwait
    obtain ⟨rfl, rfl, -⟩ := h
    exact ⟨used, rfl, hstart.append hheard⟩
  · next c₁ ms₁ hwait =>
    obtain ⟨used, rfl, hheard⟩ := heard_waitForUnchoke hwait
    split at h
    all_goals
      next hloop =>
        obtain ⟨used', rfl, hheard'⟩ := heard_transferLoop hloop
        obtain ⟨rfl, rfl, -⟩ := h
        exact ⟨used ++ used', (List.append_assoc ..).symm, (hstart.append hheard).append hheard'⟩

theorem heard_downloadPieces {sha1 : Bytes → Bytes} {calls : List PieceCall}
    (h : downloadPieces sha1 calls c ms = (c', rest)) :
    ∃ used, ms = used ++ rest ∧ Heard c c' used := by
  induction calls generalizing c ms with
  | nil =>
    obtain ⟨rfl, rfl⟩ := h
    exact ⟨[], rfl, .of_eq rfl rfl rfl⟩
  | cons call calls ih =>
    unfold downloadPieces at h
    cases hcall : downloadPiece sha1 call c ms with
    | mk c₁ out =>
      obtain ⟨ms₁, result⟩ := out
      rw [hcall] at h
      obtain ⟨used, rfl, hheard⟩ := heard_downloadPiece hcall
      obtain ⟨used', rfl, hheard'⟩ := ih h
      exact ⟨used ++ used', (List.append_assoc ..).symm, hheard.append hheard'⟩

/-! ## The first loop -/

theorem initialLoop_suffix {n : Nat} (h : initialLoop n c ms = (c', rest)) :
    ∃ used, ms = used ++ rest := by
  induction n generalizing c ms with
  | zero =>
    obtain ⟨-, rfl⟩ := h
    exact ⟨[], rfl⟩
  | succ n ih =>
    cases ms with
    | nil =>
      obtain ⟨-, rfl⟩ := h
      exact ⟨[], rfl⟩
    | cons m ms =>
      cases m with
      | none =>
        obtain ⟨used, rfl⟩ := ih h
        exact ⟨none :: used, rfl⟩
      | some msg =>
        unfold initialLoop at h
        split at h
        · obtain ⟨-, rfl⟩ := h
          exact ⟨[some msg], rfl⟩
        · obtain ⟨used, rfl⟩ := ih h
          exact ⟨some msg :: used, rfl⟩

/-- What `msg` declares is what the client takes down. -/
def Declared (c : Client) (msg : PeerMessage) : Prop :=
  msg.isDeclaration = true ∧ c.haveAll = decide (msg.id = .haveAll) ∧
    (msg.id ≠ .haveAll → c.bitfield = some msg.bits)

/-- A message of the first loop declares something, or leaves what is declared alone. -/
theorem initialMessage_cases {msg : PeerMessage} (h : c.initialMessage msg = some c') :
    Declared c' msg ∨ (c'.haveAll = c.haveAll ∧ c'.bitfield = c.bitfield) := by
  obtain ⟨id, payload⟩ := msg
  cases id with
  | bitfield | haveNone =>
    obtain rfl := Option.some_inj.mp h
    exact .inl ⟨rfl, rfl, fun _ => rfl⟩
  | haveAll =>
    obtain rfl := Option.some_inj.mp h
    exact .inl ⟨rfl, rfl, fun hne => absurd rfl hne⟩
  | unchoke | extended | interested =>
    obtain rfl := Option.some_inj.mp h
    exact .inr ⟨rfl, rfl⟩
  | _ => cases h

theorem initialLoop_cases {n : Nat} (h : initialLoop n c ms = (c', rest)) :
    (∃ msg, some msg ∈ ms ∧ Declared c' msg) ∨
      (c'.haveAll = c.haveAll ∧ c'.bitfield = c.bitfield) := by
  induction n generalizing c ms with
  | zero =>
    obtain ⟨rfl, rfl⟩ := h
    exact .inr ⟨rfl, rfl⟩
  | succ n ih =>
    cases ms with
    | nil =>
      obtain ⟨rfl, rfl⟩ := h
      exact .inr ⟨rfl, rfl⟩
    | cons m ms =>
      cases m with
      | none =>
        rcases ih h with ⟨msg, hmem, hdecl⟩ | hsame
        · exact .inl ⟨msg, List.mem_cons_of_mem _ hmem, hdecl⟩
        · exact .inr hsame
      | some msg =>
        unfold initialLoop at h
        split at h
        · obtain ⟨rfl, rfl⟩ := h
          exact .inr ⟨rfl, rfl⟩
        · next c₁ hmsg =>
          rcases ih h with ⟨msg', hmem, hdecl⟩ | ⟨hall, hbits⟩
          · exact .inl ⟨msg', List.mem_cons_of_mem _ hmem, hdecl⟩
          · unfold Declared
            rw [hall, hbits]
            rcases initialMessage_cases hmsg with hdecl | hsame
            · exact .inl ⟨msg, List.mem_cons_self, hdecl⟩
            · exact .inr hsame

end Loops

/-! ## The whole connection -/

/-- What the client needs of the messages: the first loop reads the `HaveAll`; or it
reads the `Bitfield` or `HaveNone`, and each `Have` is of a piece that is set there, or
is read behind that loop and has a byte there; or the peer announces nothing at all. -/
def Recorded (arrived numPieces : Nat) (ms : List Received) : Prop :=
  (newClientFull arrived ms).1.haveAll = true ∨
    (∃ bf ∈ (newClientFull arrived ms).1.bitfield, ∀ i < numPieces, i ∈ haves ms →
      bf.hasPiece i = true ∨ (i ∈ haves (newClientFull arrived ms).2 ∧ i / 8 < bf.byteLength)) ∨
    ∀ i < numPieces, announced ms i = false

/-- What the client has once it has taken up the `Have` messages of `used`. -/
theorem Heard.hasPiece_iff {c c' : Client} {used : List Received} (h : Heard c c' used) (i : Nat) :
    c'.hasPiece i = true ↔ c.haveAll = true ∨ ∃ bf ∈ c.bitfield,
      bf.hasPiece i = true ∨ (i ∈ haves used ∧ i / 8 < bf.byteLength) := by
  unfold hasPiece
  rw [h.haveAll, h.bitfield, Bool.or_eq_true]
  cases hall : c.haveAll with
  | true => exact iff_of_true (.inl rfl) (.inl rfl)
  | false =>
    refine or_congr Iff.rfl ?_
    cases hbits : c.bitfield with
    | none => simp [inBitfield]
    | some bf =>
      simp [inBitfield, Bitfield.hasPiece_setAll]

/-- Bits with the `Have` messages that reach them show all that is announced, when every
announced piece is a bit or is reached. -/
theorem bits_exact_iff {bf : Bitfield} {later all : List Nat} (hlater : later ⊆ all)
    (numPieces : Nat) :
    (∀ i < numPieces, bf.hasPiece i = true ∨ (i ∈ later ∧ i / 8 < bf.byteLength) ↔
      bf.hasPiece i = true ∨ i ∈ all) ↔
    ∀ i < numPieces, i ∈ all →
      bf.hasPiece i = true ∨ (i ∈ later ∧ i / 8 < bf.byteLength) := by
  constructor
  · intro hview i hi hhave
    exact (hview i hi).mpr (.inr hhave)
  · intro hreached i hi
    constructor
    · exact Or.imp_right fun hread => hlater hread.1
    · rintro (hbit | hhave)
      · exact .inl hbit
      · exact hreached i hi hhave

/-- A call for a piece of one byte. -/
def oneByteCall : PieceCall := ⟨⟨0, [], 1⟩, [], fun _ => 1⟩

/-- A `Bitfield` among the first messages, and a `Have` behind them. -/
def bitfieldThenHave : List Received :=
  [some ⟨.extended, []⟩, some ⟨.bitfield, [128]⟩, some ⟨.unchoke, []⟩, none,
    some ⟨.havePiece, [0, 0, 0, 3]⟩]

/-- The `Have` is read while the client waits for the `Unchoke`. -/
def haveNoneThenHave : List Received :=
  [some ⟨.haveNone, []⟩, none, none, some ⟨.havePiece, [0, 0, 0, 0]⟩, some ⟨.unchoke, []⟩]

end Client

end Stor.Download
