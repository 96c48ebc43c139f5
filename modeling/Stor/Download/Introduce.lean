import Stor.Download.PeerView
import Stor.Lib.Run

/-!
# How the uploader introduces itself

One connection of `Uploader.HandleIncoming`, with the calls of `SetPiece` and the rounds
of the `PeerManager` that go on beside it.  A step is a section under a lock, one look at
the bitfield, or one message written and flushed.  The connection is known to the manager
and to `SetPiece` before its first message is written, so both may write before it.  When
they do not, and there is a first message at all, it is the first one, and in the end the
peer has been told of just the pieces that are set (`introduces_itself`).
-/

namespace Stor.Download

open Lib Torrent Peer Storage

/-- `binary.BigEndian.PutUint32`. -/
def putUint32 (n : Nat) : Bytes :=
  [UInt8.ofNat (n / 2 ^ 24), UInt8.ofNat (n / 2 ^ 16), UInt8.ofNat (n / 2 ^ 8), UInt8.ofNat n]

/-- `NewHaveMessage`. -/
def haveMessage (index : Nat) : PeerMessage := ⟨.havePiece, putUint32 index⟩

theorem parseHave_putUint32 {n : Nat} (h : n < 2 ^ 32) : parseHave (putUint32 n) = some n := by
  unfold parseHave putUint32 uint32
  simp only [List.length_cons, List.length_nil, if_pos, List.foldl_cons, List.foldl_nil,
    UInt8.toNat_ofNat', Option.some_inj]
  omega

/-- The message that `HandleIncoming` starts with, if there is one. -/
inductive Opening where
  | haveAll
  | haveNone
  | bitfield
  | nothing
  deriving DecidableEq, Repr

/-- Where `HandleIncoming` is. -/
inductive Greeting where
  | entered
  | greeted
  | registered
  | listed
  /-- The pieces before `i` have been looked at, and are there. -/
  | scanning (i : Nat)
  | chosen (opening : Opening)
  | serving
  | gone
  deriving DecidableEq, Repr

/-- Where a `SendChoke` or `SendUnchoke` of the manager is. -/
inductive Managing where
  | idle
  | checked (unchoke : Bool)
  | wrote (unchoke : Bool)
  deriving DecidableEq, Repr

/-- A call of `SetPiece` behind its section, and whether the connection was among the
clients there. -/
structure Setting where
  index : Nat
  listed : Bool
  deriving DecidableEq, Repr

structure Upload where
  /-- Nil stands for all pieces. -/
  bitfield : Option Bitfield
  greeting : Greeting
  choking : Bool
  /-- The messages behind the handshake. -/
  written : List PeerMessage
  setting : List Setting
  manager : Managing
  deriving DecidableEq, Repr

namespace Upload

inductive Action where
  | handshake (ok : Bool)
  | register
  | append
  /-- One look at the bitfield. -/
  | scan
  | introduce (ok : Bool)
  | reply (msg : PeerMessage)
  | leave
  | setPiece (index : Nat)
  /-- Call `k` of `SetPiece` writes its `Have`. -/
  | announce (k : Nat)
  | round (unchoke : Bool)
  | managerWrite
  | managerFlag

def new (bitfield : Option Bitfield) : Upload where
  bitfield := bitfield
  greeting := .entered
  choking := true
  written := []
  setting := []
  manager := .idle

/-- The connection is in `u.clients`. -/
def isListed (s : Upload) : Bool :=
  match s.greeting with
  | .listed | .scanning _ | .chosen _ | .serving => true
  | .entered | .greeted | .registered | .gone => false

/-- The connection is known to the manager. -/
def isRegistered (s : Upload) : Bool := s.isListed || s.greeting = .registered

/-- Bit `i` of the bitfield. -/
def hasBit (s : Upload) (i : Nat) : Bool := s.bitfield.all fun bf => bf.hasPiece i

/-- A write fails once the connection is closed. -/
def write (s : Upload) (msg : PeerMessage) : Upload :=
  if s.greeting = .gone then s else { s with written := s.written ++ [msg] }

/-- `initMsg`. -/
def choose (fastExt : Bool) (bitfield : Option Bitfield) (allHave : Bool) : Opening :=
  if fastExt && allHave then .haveAll
  else if fastExt && bitfield.any fun bf => bf.byteLength = 0 then .haveNone
  else if bitfield.any fun bf => bf.byteLength > 0 then .bitfield
  else .nothing

/-- The message itself; its payload is the bitfield as it is when it is written. -/
def openingMessage (s : Upload) : Opening → List PeerMessage
  | .haveAll => [⟨.haveAll, []⟩]
  | .haveNone => [⟨.haveNone, []⟩]
  | .bitfield => [⟨.bitfield, s.bitfield.elim [] Bitfield.bytes⟩]
  | .nothing => []

def step (fastExt : Bool) (numPieces : Nat) (s : Upload) : Action → Option Upload
  | .handshake ok =>
    if s.greeting = .entered then
      some { s with greeting := if ok then .greeted else .gone }
    else none
  | .register => if s.greeting = .greeted then some { s with greeting := .registered } else none
  | .append => if s.greeting = .registered then some { s with greeting := .listed } else none
  | .scan =>
    let chosen allHave := some { s with greeting := .chosen (choose fastExt s.bitfield allHave) }
    match s.greeting with
    | .listed =>
      if s.bitfield = none then chosen true else some { s with greeting := .scanning 0 }
    | .scanning i =>
      if i < numPieces then
        if s.hasBit i then some { s with greeting := .scanning (i + 1) } else chosen false
      else chosen true
    | _ => none
  | .introduce ok =>
    match s.greeting with
    | .chosen opening =>
      if ok then
        some { s with greeting := .serving, written := s.written ++ s.openingMessage opening }
      else some { s with greeting := .gone }
    | _ => none
  -- the answers of `serveLoop`
  | .reply msg =>
    if s.greeting = .serving ∧ (msg.id = .unchoke ∨ msg.id = .reject ∨ msg.id = .piece) then
      some { s.write msg with choking := s.choking && msg.id ≠ .unchoke }
    else none
  | .leave => if s.greeting = .serving then some { s with greeting := .gone } else none
  | .setPiece index =>
    some { s with
      bitfield := s.bitfield.map fun bf => bf.setPiece index
      setting := s.setting ++ [⟨index, s.isListed⟩] }
  | .announce k =>
    s.setting[k]?.map fun call =>
      { (if call.listed then s.write (haveMessage call.index) else s) with
        setting := s.setting.eraseIdx k }
  -- a round that comes to this client
  | .round unchoke =>
    if s.isRegistered ∧ s.manager = .idle then
      some (if s.choking = unchoke then { s with manager := .checked unchoke } else s)
    else none
  | .managerWrite =>
    match s.manager with
    | .checked unchoke =>
      if s.greeting = .gone then some { s with manager := .idle }
      else some { s.write ⟨if unchoke then .unchoke else .choke, []⟩ with
        manager := .wrote unchoke }
    | _ => none
  | .managerFlag =>
    match s.manager with
    | .wrote unchoke => some { s with choking := !unchoke, manager := .idle }
    | _ => none

/-! ## What a run keeps -/

/-- There is something to start with: the peer knows `HaveAll` and `HaveNone`, or there
is a bitfield with a byte in it. -/
def Speaks (fastExt : Bool) (bitfield : Option Bitfield) : Prop :=
  fastExt = true ∨ ∃ bf ∈ bitfield, 0 < bf.byteLength

/-- The first message has been written, or never will be. -/
def Introduced (s : Upload) : Prop := s.greeting = .serving ∨ s.greeting = .gone

/-- No one else writes before the first message, and `SetPiece` is called for pieces
that have a bit. -/
def ok (numPieces : Nat) (s : Upload) : Action → Prop
  | .setPiece index => index < numPieces ∧ ∀ bf ∈ s.bitfield, index / 8 < bf.byteLength
  | .announce k => ∀ call ∈ s.setting[k]?, call.listed = true → s.Introduced
  | .managerWrite => s.Introduced
  | _ => True

/-- What `HandleIncoming` has found out where it is. -/
def Found (numPieces : Nat) (s : Upload) : Greeting → Prop
  | .scanning k => ∀ i < k, s.hasBit i = true
  | .chosen .haveAll => ∀ i < numPieces, s.hasBit i = true
  | .chosen .haveNone => ∃ bf ∈ s.bitfield, bf.byteLength = 0
  | .chosen .bitfield => s.bitfield ≠ none
  | .chosen .nothing => False
  | _ => True

def announces (s : Upload) (i : Nat) : Bool := announced (s.written.map some) i

structure Inv (fastExt : Bool) (numPieces : Nat) (s : Upload) : Prop where
  speaks : Speaks fastExt s.bitfield
  found : s.Found numPieces s.greeting
  set : ∀ call ∈ s.setting, call.index < numPieces ∧ s.hasBit call.index = true
  sound : ∀ i < numPieces, s.announces i = true → s.hasBit i = true
  complete : s.greeting = .serving → ∀ i < numPieces, s.hasBit i = true →
    s.announces i = true ∨ ⟨i, true⟩ ∈ s.setting
  quiet : ¬ s.Introduced → s.written = []
  opened : s.greeting = .serving → s.written ≠ []
  first : ∀ msg ∈ s.written.head?, msg.isDeclaration = true

section Steps

variable {fastExt : Bool} {numPieces : Nat} {s t : Upload}

theorem announced_append (ms ms' : List Received) (i : Nat) :
    announced (ms ++ ms') i = (announced ms i || announced ms' i) := List.any_append

theorem announces_written (s : Upload) (msgs : List PeerMessage) (i : Nat) :
    announces { s with written := s.written ++ msgs } i =
      (s.announces i || announced (msgs.map some) i) := by
  unfold announces
  rw [List.map_append, announced_append]

/-- A piece is set in the bitfield that has a byte for it. -/
theorem all_setPiece {bitfield : Option Bitfield} {index : Nat}
    (h : ∀ bf ∈ bitfield, index / 8 < bf.byteLength) (i : Nat) :
    ((bitfield.map fun bf => bf.setPiece index).all fun bf => bf.hasPiece i) =
      ((bitfield.all fun bf => bf.hasPiece i) || decide (index = i)) := by
  cases bitfield with
  | none => rfl
  | some bf =>
    show (bf.setPiece index).hasPiece i = _
    rw [Bitfield.hasPiece_setPiece, decide_eq_true (h bf rfl), Bool.and_true]
    rfl

/-- A step of `HandleIncoming` before its first message. -/
theorem Inv.goes (h : Inv fastExt numPieces s) {g : Greeting} (hg : g ≠ .serving)
    (hs : g = .gone ∨ ¬ s.Introduced) (hfound : s.Found numPieces g) :
    Inv fastExt numPieces { s with greeting := g } where
  speaks := h.speaks
  found := hfound
  set := h.set
  sound := h.sound
  complete hserving := absurd hserving hg
  quiet hnot := by
    rcases hs with hgone | hbefore
    · exact absurd (.inr hgone) hnot
    · exact h.quiet hbefore
  opened hserving := absurd hserving hg
  first := h.first

/-- What `HandleIncoming` chooses is what it can say. -/
theorem found_choose {allHave : Bool} (hspeaks : Speaks fastExt s.bitfield)
    (hall : allHave = true → ∀ i < numPieces, s.hasBit i = true)
    (hnil : s.bitfield = none → allHave = true) :
    s.Found numPieces (.chosen (choose fastExt s.bitfield allHave)) := by
  unfold choose
  split_ifs with hhaveAll hempty hbytes
  · exact hall (Bool.and_eq_true_iff.mp hhaveAll).2
  · obtain ⟨bf, hbf, hlen⟩ := (Option.any_eq_true _ _).mp (Bool.and_eq_true_iff.mp hempty).2
    exact ⟨bf, hbf, of_decide_eq_true hlen⟩
  · obtain ⟨bf, hbf, -⟩ := (Option.any_eq_true _ _).mp hbytes
    show s.bitfield ≠ none
    rw [hbf]
    exact Option.some_ne_none bf
  · -- nothing to say, against `hspeaks`
    have hbig : ∀ bf ∈ s.bitfield, ¬ 0 < bf.byteLength := fun bf hbf hlen =>
      hbytes ((Option.any_eq_true _ _).mpr ⟨bf, hbf, decide_eq_true hlen⟩)
    rcases hspeaks with hfast | ⟨bf, hbf, hlen⟩
    · rw [hfast, Bool.true_and] at hhaveAll hempty
      cases hbits : s.bitfield with
      | none => exact hhaveAll (hnil hbits)
      | some bf =>
        have hzero : bf.byteLength = 0 := Nat.eq_zero_of_not_pos (hbig bf hbits)
        exact hempty ((Option.any_eq_true _ _).mpr ⟨bf, hbits, decide_eq_true hzero⟩)
    · exact hbig bf hbf hlen

/-- The first message announces just the bits. -/
theorem announced_openingMessage {opening : Opening} (hfound : s.Found numPieces (.chosen opening))
    {i : Nat} (hi : i < numPieces) :
    announced ((s.openingMessage opening).map some) i = s.hasBit i := by
  cases opening with
  | haveAll => exact (hfound i hi).symm
  | haveNone =>
    obtain ⟨bf, hbf, hlen⟩ := hfound
    have hbytes : bf.bytes = [] := List.eq_nil_of_length_eq_zero hlen
    unfold hasBit
    rw [hbf]
    show false = bf.hasPiece i
    unfold Bitfield.hasPiece
    rw [hbytes]
    rfl
  | bitfield =>
    obtain ⟨bf, hbf⟩ := Option.ne_none_iff_exists'.mp hfound
    unfold hasBit openingMessage
    rw [hbf]
    exact Bool.or_false _
  | nothing => exact hfound.elim

/-- There is one, and it is of the right kind. -/
theorem openingMessage_eq {opening : Opening} (hfound : s.Found numPieces (.chosen opening)) :
    ∃ msg, s.openingMessage opening = [msg] ∧ msg.isDeclaration = true := by
  cases opening with
  | nothing => exact hfound.elim
  | haveAll | haveNone | bitfield => exact ⟨_, rfl, rfl⟩

theorem Inv.introduces (h : Inv fastExt numPieces s) {opening : Opening}
    (hg : s.greeting = .chosen opening) :
    Inv fastExt numPieces
      { s with greeting := .serving, written := s.written ++ s.openingMessage opening } := by
  have hfound := h.found
  rw [hg] at hfound
  have hempty : s.written = [] := by
    refine h.quiet ?_
    unfold Introduced
    rw [hg]
    rintro (hne | hne) <;> cases hne
  obtain ⟨msg, hmsg, hdecl⟩ := openingMessage_eq hfound
  have hannounces : ∀ i < numPieces, announces
      { s with greeting := .serving, written := s.written ++ s.openingMessage opening } i =
        s.hasBit i := by
    intro i hi
    unfold announces
    rw [hempty, List.nil_append]
    exact announced_openingMessage hfound hi
  refine ⟨h.speaks, trivial, h.set, ?_, ?_, ?_, ?_, ?_⟩
  · intro i hi hann
    rw [hannounces i hi] at hann
    exact hann
  · intro _ i hi hbit
    rw [hannounces i hi]
    exact .inl hbit
  · intro hnot
    exact absurd (.inl rfl) hnot
  · intro _
    show s.written ++ s.openingMessage opening ≠ []
    rw [hmsg]
    exact List.append_ne_nil_of_right_ne_nil _ (List.cons_ne_nil _ _)
  · intro first hfirst
    rw [hempty, List.nil_append, hmsg] at hfirst
    rw [← Option.some_inj.mp hfirst]
    exact hdecl

/-- A message behind the first one, which announces set pieces only. -/
theorem Inv.writes (h : Inv fastExt numPieces s) (hserving : s.greeting = .serving)
    {msg : PeerMessage} (hmsg : ∀ i < numPieces, msg.announces i = true → s.hasBit i = true) :
    Inv fastExt numPieces { s with written := s.written ++ [msg] } where
  speaks := h.speaks
  found := h.found
  set := h.set
  sound i hi hann := by
    rw [announces_written, Bool.or_eq_true] at hann
    rcases hann with hold | hnew
    · exact h.sound i hi hold
    · obtain ⟨msg', hmem, hann'⟩ := announced_iff.mp hnew
      rw [List.map_cons, List.map_nil, List.mem_singleton, Option.some_inj] at hmem
      exact hmsg i hi (hmem ▸ hann')
  complete _ i hi hbit := by
    rw [announces_written, Bool.or_eq_true]
    rcases h.complete hserving i hi hbit with hann | hmem
    · exact .inl (.inl hann)
    · exact .inr hmem
  quiet hnot := absurd (.inl hserving) hnot
  opened _ := List.append_ne_nil_of_left_ne_nil (h.opened hserving) _
  first msg' hmsg' := by
    rw [List.head?_append_of_ne_nil _ (h.opened hserving)] at hmsg'
    exact h.first msg' hmsg'

theorem Inv.setsPiece (h : Inv fastExt numPieces s) {index : Nat} (hindex : index < numPieces)
    (hbyte : ∀ bf ∈ s.bitfield, index / 8 < bf.byteLength) :
    Inv fastExt numPieces { s with
      bitfield := s.bitfield.map fun bf => bf.setPiece index
      setting := s.setting ++ [⟨index, s.isListed⟩] } := by
  have hbits := all_setPiece hbyte
  have hkeeps : ∀ i, s.hasBit i = true →
      ((s.bitfield.map fun bf => bf.setPiece index).all fun bf => bf.hasPiece i) = true := by
    intro i hi
    rw [hbits, Bool.or_eq_true]
    exact .inl hi
  refine ⟨?_, ?_, ?_, ?_, ?_, h.quiet, h.opened, h.first⟩
  · refine h.speaks.imp_right fun ⟨bf, hbf, hlen⟩ => ?_
    exact ⟨bf.setPiece index, Option.mem_map_of_mem _ hbf, by rwa [Bitfield.setPiece_byteLength]⟩
  · have hfound := h.found
    cases hg : s.greeting with
    | scanning k =>
      rw [hg] at hfound
      exact fun i hi => hkeeps i (hfound i hi)
    | chosen opening =>
      rw [hg] at hfound
      cases opening with
      | haveAll => exact fun i hi => hkeeps i (hfound i hi)
      | haveNone =>
        obtain ⟨bf, hbf, hlen⟩ := hfound
        exact ⟨bf.setPiece index, Option.mem_map_of_mem _ hbf,
          by rwa [Bitfield.setPiece_byteLength]⟩
      | bitfield =>
        intro hnone
        exact hfound (Option.map_eq_none_iff.mp hnone)
      | nothing => exact hfound
    | entered | greeted | registered | listed | serving | gone => trivial
  · intro call hcall
    rcases List.mem_append.mp hcall with hold | hnew
    · exact ⟨(h.set call hold).1, hkeeps _ (h.set call hold).2⟩
    · rw [List.mem_singleton.mp hnew]
      refine ⟨hindex, ?_⟩
      show ((s.bitfield.map fun bf => bf.setPiece index).all fun bf => bf.hasPiece index) = true
      rw [hbits, decide_eq_true rfl, Bool.or_true]
  · exact fun i hi hann => hkeeps i (h.sound i hi hann)
  · intro hserving i hi hbit
    have hbit' : ((s.bitfield.map fun bf => bf.setPiece index).all fun bf => bf.hasPiece i) = true :=
      hbit
    rw [hbits, Bool.or_eq_true, decide_eq_true_eq] at hbit'
    rcases hbit' with hold | hnew
    · exact (h.complete hserving i hi hold).imp_right (List.mem_append_left _)
    · have hlisted : s.isListed = true := by
        unfold isListed
        rw [show s.greeting = .serving from hserving]
      refine .inr (List.mem_append_right _ ?_)
      rw [hlisted, hnew]
      exact List.mem_singleton_self _

theorem mem_eraseIdx_or_eq {α : Type} {xs : List α} {k : Nat} {x y : α} (hk : xs[k]? = some y)
    (hx : x ∈ xs) : x = y ∨ x ∈ xs.eraseIdx k := by
  obtain ⟨hlt, hget⟩ := List.getElem?_eq_some_iff.mp hk
  rw [← List.take_append_drop k xs, List.drop_eq_getElem_cons hlt, hget, List.mem_append,
    List.mem_cons] at hx
  rw [List.eraseIdx_eq_take_drop_succ, List.mem_append]
  tauto

/-- A call of `SetPiece` that is over; the connection has been told, if it was among the
clients. -/
theorem Inv.returns (h : Inv fastExt numPieces s) {k : Nat} {call : Setting}
    (hk : s.setting[k]? = some call)
    (htold : s.greeting = .serving → call.listed = true → s.announces call.index = true) :
    Inv fastExt numPieces { s with setting := s.setting.eraseIdx k } where
  speaks := h.speaks
  found := h.found
  set other hother := h.set other (List.mem_of_mem_eraseIdx hother)
  sound := h.sound
  complete hserving i hi hbit := by
    rcases h.complete hserving i hi hbit with hann | hmem
    · exact .inl hann
    · rcases mem_eraseIdx_or_eq hk hmem with heq | hmem
      · rw [← heq] at htold
        exact .inl (htold hserving rfl)
      · exact .inr hmem
  quiet := h.quiet
  opened := h.opened
  first := h.first

/-- The fields that the invariant does not mention. -/
theorem Inv.manages (h : Inv fastExt numPieces s) (choking : Bool) (manager : Managing) :
    Inv fastExt numPieces { s with choking := choking, manager := manager } :=
  ⟨h.speaks, h.found, h.set, h.sound, h.complete, h.quiet, h.opened, h.first⟩

theorem write_of_serving (hserving : s.greeting = .serving) (msg : PeerMessage) :
    s.write msg = { s with written := s.written ++ [msg] } := by
  unfold write
  rw [hserving, if_neg (by decide)]

/-- The bits that were found set stay set while the scan goes on. -/
theorem Inv.scans (h : Inv fastExt numPieces s) (hstep : s.step fastExt numPieces .scan = some t) :
    Inv fastExt numPieces t := by
  have hbefore : ∀ {g}, s.greeting = g → g ≠ .serving → g ≠ .gone → ¬ s.Introduced := by
    rintro g rfl hserving hgone (hg | hg)
    · exact hserving hg
    · exact hgone hg
  have hfound := h.found
  unfold Upload.step at hstep
  dsimp only at hstep
  split at hstep
  · next hg =>
    have hnot := hbefore hg (by decide) (by decide)
    split_ifs at hstep with hnil
    · rw [← Option.some_inj.mp hstep]
      refine h.goes nofun (.inr hnot) (found_choose h.speaks (fun _ i _ => ?_) fun _ => rfl)
      unfold hasBit
      rw [hnil]
      rfl
    · rw [← Option.some_inj.mp hstep]
      exact h.goes nofun (.inr hnot) fun i hi => absurd hi (Nat.not_lt_zero i)
  · next k hg =>
    have hnot := hbefore hg nofun nofun
    rw [hg] at hfound
    split_ifs at hstep with hlt hbit
    · rw [← Option.some_inj.mp hstep]
      refine h.goes nofun (.inr hnot) fun i hi => ?_
      rcases Nat.lt_succ_iff_lt_or_eq.mp hi with hold | rfl
      · exact hfound i hold
      · exact hbit
    · rw [← Option.some_inj.mp hstep]
      refine h.goes nofun (.inr hnot) (found_choose h.speaks nofun fun hnil => ?_)
      unfold hasBit at hbit
      rw [hnil] at hbit
      exact absurd rfl hbit
    · rw [← Option.some_inj.mp hstep]
      refine h.goes nofun (.inr hnot) (found_choose h.speaks (fun _ i hi => ?_) fun _ => rfl)
      exact hfound i (by omega)
  · cases hstep

/-- A `Have` is written behind the first message, or goes nowhere. -/
theorem Inv.tells (h : Inv fastExt numPieces s) (hnum : numPieces ≤ 2 ^ 32) {k : Nat}
    (hok : s.ok numPieces (.announce k)) (hstep : s.step fastExt numPieces (.announce k) = some t) :
    Inv fastExt numPieces t := by
  obtain ⟨call, hcall, rfl⟩ := Option.map_eq_some_iff.mp hstep
  obtain ⟨hindex, hbit⟩ := h.set call (List.mem_of_getElem? hcall)
  have hparse := parseHave_putUint32 (Nat.lt_of_lt_of_le hindex hnum)
  cases hlisted : call.listed with
  | false =>
    refine h.returns hcall fun _ hlisted' => ?_
    exact absurd (hlisted.symm.trans hlisted') Bool.false_ne_true
  | true =>
    rcases hok call hcall hlisted with hserving | hgone
    · rw [if_pos rfl, write_of_serving hserving]
      refine (h.writes hserving fun i _ hann => ?_).returns hcall fun _ _ => ?_
      · have heq : parseHave (putUint32 call.index) = some i := of_decide_eq_true hann
        rw [← Option.some_inj.mp (hparse.symm.trans heq)]
        exact hbit
      · rw [announces_written, Bool.or_eq_true]
        refine .inr (announced_iff.mpr ⟨haveMessage call.index, List.mem_singleton_self _, ?_⟩)
        exact decide_eq_true hparse
    · have hwrite : s.write (haveMessage call.index) = s := if_pos hgone
      rw [if_pos rfl, hwrite]
      refine h.returns hcall fun hserving _ => ?_
      rw [hgone] at hserving
      cases hserving

theorem Inv.step (h : Inv fastExt numPieces s) (hnum : numPieces ≤ 2 ^ 32) {a : Action}
    (hok : s.ok numPieces a) (hstep : s.step fastExt numPieces a = some t) :
    Inv fastExt numPieces t := by
  cases a with
  | handshake ok =>
    unfold Upload.step at hstep
    rw [Option.ite_none_right_eq_some, Option.some_inj] at hstep
    obtain ⟨hg, rfl⟩ := hstep
    cases ok with
    | false => exact h.goes (by decide) (.inl rfl) trivial
    | true => exact h.goes (by decide) (.inr (by rw [Introduced, hg]; decide)) trivial
  | register | append =>
    unfold Upload.step at hstep
    rw [Option.ite_none_right_eq_some, Option.some_inj] at hstep
    obtain ⟨hg, rfl⟩ := hstep
    exact h.goes (by decide) (.inr (by rw [Introduced, hg]; decide)) trivial
  | scan => exact h.scans hstep
  | introduce ok =>
    unfold Upload.step at hstep
    dsimp only at hstep
    split at hstep
    · next opening hg =>
      split_ifs at hstep
      · rw [← Option.some_inj.mp hstep]
        exact h.introduces hg
      · rw [← Option.some_inj.mp hstep]
        exact h.goes (by decide) (.inl rfl) trivial
    · cases hstep
  | reply msg =>
    unfold Upload.step at hstep
    rw [Option.ite_none_right_eq_some, Option.some_inj] at hstep
    obtain ⟨⟨hserving, hid⟩, rfl⟩ := hstep
    rw [write_of_serving hserving]
    refine (h.writes hserving fun i _ hann => ?_).manages _ s.manager
    unfold PeerMessage.announces at hann
    rcases hid with hid | hid | hid <;> rw [hid] at hann <;> cases hann
  | leave =>
    unfold Upload.step at hstep
    rw [Option.ite_none_right_eq_some, Option.some_inj] at hstep
    rw [← hstep.2]
    exact h.goes (by decide) (.inl rfl) trivial
  | setPiece index =>
    rw [← Option.some_inj.mp hstep]
    exact h.setsPiece hok.1 hok.2
  | announce k => exact h.tells hnum hok hstep
  | round unchoke =>
    unfold Upload.step at hstep
    rw [Option.ite_none_right_eq_some, Option.some_inj] at hstep
    rw [← hstep.2]
    split_ifs
    · exact h.manages s.choking _
    · exact h
  | managerWrite =>
    unfold Upload.step at hstep
    dsimp only at hstep
    split at hstep
    · next unchoke hm =>
      by_cases hgone : s.greeting = .gone
      · rw [if_pos hgone] at hstep
        rw [← Option.some_inj.mp hstep]
        exact h.manages s.choking _
      · have hserving : s.greeting = .serving := hok.resolve_right hgone
        rw [if_neg hgone] at hstep
        rw [← Option.some_inj.mp hstep, write_of_serving hserving]
        refine (h.writes hserving fun i _ hann => ?_).manages s.choking _
        cases unchoke <;> cases hann
    · cases hstep
  | managerFlag =>
    unfold Upload.step at hstep
    dsimp only at hstep
    split at hstep
    · rw [← Option.some_inj.mp hstep]
      exact h.manages _ _
    · cases hstep

end Steps

theorem inv_new {fastExt : Bool} (numPieces : Nat) {bitfield : Option Bitfield}
    (h : Speaks fastExt bitfield) : Inv fastExt numPieces (new bitfield) where
  speaks := h
  found := trivial
  set := nofun
  sound := nofun
  complete := nofun
  quiet _ := rfl
  opened := nofun
  first := nofun

/-- The first message is the `HaveAll`, `HaveNone` or `Bitfield`, and when no `SetPiece` is
under way the peer has been told of just the pieces that are set. -/
theorem introduces_itself (fastExt : Bool) (numPieces : Nat) (hnum : numPieces ≤ 2 ^ 32)
    (bitfield : Option Bitfield) (hspeaks : Speaks fastExt bitfield) (as : List Action) (s : Upload)
    (hok : Guarded (step fastExt numPieces) (ok numPieces) (new bitfield) as)
    (hrun : exec (step fastExt numPieces) (new bitfield) as = some s) :
    (∀ msg ∈ s.written.head?, msg.isDeclaration = true) ∧
      (s.greeting = .serving → s.setting = [] →
        ∀ i < numPieces, s.announces i = true ↔ s.hasBit i = true) := by
  have hinv : Inv fastExt numPieces s :=
    exec_invariant (fun _ _ _ h hok hstep => h.step hnum hok hstep) (inv_new numPieces hspeaks)
      hok hrun
  refine ⟨hinv.first, fun hserving hidle i hi => ⟨hinv.sound i hi, fun hbit => ?_⟩⟩
  rcases hinv.complete hserving i hi hbit with hann | hmem
  · exact hann
  · rw [hidle] at hmem
    exact absurd hmem List.not_mem_nil

/-- Piece 1 is set before the connection is listed, piece 2 while it is scanned and piece 3
behind the first message. -/
def threeSettings : List Action :=
  [Action.setPiece 1, .handshake true, .announce 0, .register, .append, .scan, .setPiece 2, .scan,
    .scan, .scan, .scan, .introduce true, .announce 0, .round true, .managerWrite, .setPiece 3,
    .managerFlag, .announce 0]

instance (numPieces : Nat) (s : Upload) : (a : Action) → Decidable (s.ok numPieces a)
  | .setPiece index => inferInstanceAs (Decidable (index < numPieces ∧ ∀ bf ∈ s.bitfield, _))
  | .announce k => inferInstanceAs (Decidable (∀ call ∈ s.setting[k]?, _ → (_ ∨ _)))
  | .managerWrite => inferInstanceAs (Decidable (_ ∨ _))
  | .handshake _ | .register | .append | .scan | .introduce _ | .reply _ | .leave | .round _
  | .managerFlag => isTrue trivial

theorem introduces_itself_threeSettings :
    ∃ s, exec (step true 8) (new (some ⟨[128]⟩)) threeSettings = some s ∧ s.greeting = .serving ∧
      s.setting = [] ∧ s.written.length = 4 ∧
      ((∀ msg ∈ s.written.head?, msg.isDeclaration = true) ∧
        (s.greeting = .serving → s.setting = [] →
          ∀ i < 8, s.announces i = true ↔ s.hasBit i = true)) := by
  obtain ⟨s, hs, hserving, hidle, hwritten⟩ : ∃ s,
      exec (step true 8) (new (some ⟨[128]⟩)) threeSettings = some s ∧ s.greeting = .serving ∧
        s.setting = [] ∧ s.written.length = 4 := by decide +kernel
  exact ⟨s, hs, hserving, hidle, hwritten, introduces_itself true 8 (by decide) (some ⟨[128]⟩)
    (.inl rfl) threeSettings s (by decide +kernel) hs⟩

/-- A round of the manager that comes between the registration and the first message. -/
theorem not_introduces_itself_unchoked :
    ∃ s, exec (step true 8) (new (some ⟨[128]⟩))
        [Action.handshake true, .register, .round true, .managerWrite] = some s ∧
      ∃ msg ∈ s.written.head?, msg.id = .unchoke := by
  decide +kernel

end Upload

end Stor.Download
