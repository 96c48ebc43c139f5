import Mathlib.Data.List.TakeWhile
import Stor.Lib.Stream

/-!
# The encryption handshake

`HandshakeOutgoing` of `mse/mse.go` and the connection that it returns.  The digest and the
keystreams are parameters, and so are the private key and the padding that are drawn.

The initiator decrypts what follows the public key of the responder from its first byte on,
and keeps nothing of what it reads past the padding.  So the responder has to send no padding
before its answer, and the reads that look for the answer must not go past its end
(`handshake_interoperates`).
-/

namespace Stor.Mse

open Lib

structure Env where
  sha1 : Bytes → Bytes
  rc4 : Bytes → Nat → UInt8

def dhPrime : Nat :=
  0xFFFFFFFFFFFFFFFFC90FDAA22168C234C4C6628B80DC1CD129024E088A67CC74020BBEA63B139B22514A08798E3404DDEF9519B3CD3A431B302B0A6DF25F14374FE1356D6D51C245E485B576625E7EC6F44C42E9A63A36210000000000090563

def dhG : Nat := 2

def cryptoPlaintext : Nat := 0x01
def cryptoRC4 : Nat := 0x02

/-- `big.Int.Bytes` of a number that has at most 96 of them. -/
def intBytes (n : Nat) : Bytes := (beBytes 96 n).dropWhile (· = 0)

def padTo (b : Bytes) (size : Nat) : Bytes :=
  if b.length ≥ size then b.take size else List.replicate (size - b.length) 0 ++ b

def hashBytes (env : Env) (tag : String) (data : Bytes) : Bytes := env.sha1 (ascii tag ++ data)

def deriveKey (env : Env) (tag : String) (s skey : Bytes) : Bytes :=
  env.sha1 (ascii tag ++ s ++ skey)

def xorBytes (a b : Bytes) : Bytes := List.zipWith (· ^^^ ·) a b

/-- An RC4 cipher that has gone `pos` bytes along its keystream. -/
structure Cipher where
  key : Bytes
  pos : Nat

namespace Cipher

/-- A new cipher, with the first 1024 bytes discarded. -/
def new (key : Bytes) : Cipher where
  key := key
  pos := 1024

def apply (env : Env) (c : Cipher) (data : Bytes) : Bytes := xorKeyStream (env.rc4 c.key) c.pos data

def advance (c : Cipher) (n : Nat) : Cipher := { c with pos := c.pos + n }

end Cipher

/-- The connection below: what it will deliver, which writes it takes, and what was written. -/
structure NetConn where
  chunks : List Bytes
  accepts : Nat → Bool
  written : List Bytes

def NetConn.write (c : NetConn) (b : Bytes) : Option NetConn :=
  if c.accepts c.written.length then some { c with written := c.written ++ [b] } else none

structure Conn where
  net : NetConn
  r : Option Cipher
  w : Option Cipher

namespace Conn

/-- `none` is the end of the stream. -/
def read (env : Env) (size : Nat) (c : Conn) : Option (Bytes × Conn) :=
  (readSome size c.net.chunks).map fun (data, chunks) =>
    ((c.r.map fun r => r.apply env data).getD data,
      { c with net := { c.net with chunks := chunks }, r := c.r.map (·.advance data.length) })

def write (env : Env) (c : Conn) (b : Bytes) : Option Conn :=
  (c.net.write ((c.w.map fun w => w.apply env b).getD b)).map fun net =>
    { c with net := net, w := c.w.map (·.advance b.length) }

/-- Reads into buffers of the given sizes, as long as there is something. -/
def reads (env : Env) : List Nat → Conn → Bytes × Conn
  | [], c => ([], c)
  | size :: sizes, c =>
    match c.read env size with
    | none => ([], c)
    | some (data, c') => (data ++ (reads env sizes c').1, (reads env sizes c').2)

/-- What is still to be read. -/
def unread (env : Env) (c : Conn) : Bytes :=
  (c.r.map fun r => r.apply env c.net.chunks.flatten).getD c.net.chunks.flatten

end Conn

inductive HandshakeError where
  | writeYa
  | readYb
  | writeHandshake
  | readResponse
  | vcNotFound
  | readCryptoSelect
  | readPadD
  deriving DecidableEq

/-- The texts, to which all but one append the error that they wrap. -/
def HandshakeError.text : HandshakeError → Bytes
  | .writeYa => ascii "mse: write Ya: "
  | .readYb => ascii "mse: read Yb: "
  | .writeHandshake => ascii "mse: write handshake: "
  | .readResponse => ascii "mse: read response: "
  | .vcNotFound => ascii "mse: VC not found in response"
  | .readCryptoSelect => ascii "mse: read crypto_select: "
  | .readPadD => ascii "mse: read padD: "

def publicKey (priv : Bytes) : Bytes := padTo (intBytes (dhG ^ beNat priv % dhPrime)) 96

/-- The shared secret, from the public key of the other side. -/
def secret (priv yb : Bytes) : Bytes := padTo (intBytes (beNat yb ^ beNat priv % dhPrime)) 96

def vc : Bytes := List.replicate 8 0

/-- What the initiator encrypts: the initial payload is empty. -/
def plainPayload (preferred : Nat) (padC : Bytes) : Bytes :=
  vc ++ beBytes 4 (preferred ||| cryptoPlaintext) ++ beBytes 2 padC.length ++ padC ++ beBytes 2 0

def request (env : Env) (s infoHash : Bytes) (preferred : Nat) (padC : Bytes) : Bytes :=
  hashBytes env "req1" s ++
    xorBytes (hashBytes env "req2" infoHash) (hashBytes env "req3" s) ++
    (Cipher.new (deriveKey env "keyA" s infoHash)).apply env (plainPayload preferred padC)

/-- The first place of eight zero bytes. -/
def findVC : Bytes → Option Nat
  | [] => none
  | b :: bs =>
    if 8 ≤ (b :: bs).length ∧ (b :: bs).take 8 = vc then some 0 else (findVC bs).map (· + 1)

/-- `n` more bytes, decrypted. -/
def readMore (env : Env) (n : Nat) (dec : Cipher) (chunks : List Bytes) :
    Option (Bytes × Cipher × List Bytes) :=
  (readFull n chunks).map fun (data, chunks) => (dec.apply env data, dec.advance n, chunks)

def scanSize : Nat := 616

/-- `remaining`, with what it needs to have the choice and the length of PadD. -/
def readHeader (env : Env) (remaining : Bytes) (dec : Cipher) (chunks : List Bytes) :
    Option (Bytes × Cipher × List Bytes) :=
  if remaining.length < 6 then
    (readMore env (6 - remaining.length) dec chunks).map fun (extra, dec, chunks) =>
      (remaining ++ extra, dec, chunks)
  else some (remaining, dec, chunks)

/-- What follows VC, to the end of PadD. -/
def readSelect (env : Env) (remaining : Bytes) (dec : Cipher) (chunks : List Bytes) :
    Except HandshakeError (Nat × Cipher × List Bytes) :=
  match readHeader env remaining dec chunks with
  | none => .error .readCryptoSelect
  | some (remaining, dec, chunks) =>
    let cryptoSelect := beNat (remaining.take 4)
    let padDLen := beNat ((remaining.drop 4).take 2)
    let got := min padDLen (remaining.length - 6)
    if got < padDLen then
      match readMore env (padDLen - got) dec chunks with
      | none => .error .readPadD
      | some (_, dec, chunks) => .ok (cryptoSelect, dec, chunks)
    else .ok (cryptoSelect, dec, chunks)

/-- The answer of the responder. -/
def readResponse (env : Env) (dec : Cipher) (chunks : List Bytes) :
    Except HandshakeError (Nat × Cipher × List Bytes) :=
  match readAtLeast scanSize 8 [] chunks with
  | none => .error .readResponse
  | some (scanBuf, chunks) =>
    let decBuf := dec.apply env scanBuf
    match findVC decBuf with
    | none => .error .vcNotFound
    | some vcIdx => readSelect env (decBuf.drop (vcIdx + 8)) (dec.advance scanBuf.length) chunks

/-- `priv` and `padC` are what is drawn. -/
def handshakeOutgoing (env : Env) (priv padC : Bytes) (conn : NetConn) (infoHash : Bytes)
    (preferred : Nat) : Except HandshakeError (Conn × Nat) :=
  match conn.write (publicKey priv) with
  | none => .error .writeYa
  | some conn =>
    match readFull 96 conn.chunks with
    | none => .error .readYb
    | some (yb, chunks) =>
      let s := secret priv yb
      match ({ conn with chunks := chunks } : NetConn).write
          (request env s infoHash preferred padC) with
      | none => .error .writeHandshake
      | some conn =>
        match readResponse env (.new (deriveKey env "keyB" s infoHash)) conn.chunks with
        | .error e => .error e
        | .ok (cryptoSelect, dec, chunks) =>
          let enc := (Cipher.new (deriveKey env "keyA" s infoHash)).advance
            (plainPayload preferred padC).length
          .ok ({ net := { conn with chunks := chunks }
                 r := if cryptoSelect = cryptoRC4 then some dec else none
                 w := if cryptoSelect = cryptoRC4 then some enc else none },
            cryptoSelect)

/-! ## The key exchange -/

theorem padTo_dropWhile (b : Bytes) : padTo (b.dropWhile (· = 0)) b.length = b := by
  have hsplit : b.takeWhile (· = 0) ++ b.dropWhile (· = 0) = b := List.takeWhile_append_dropWhile
  have hlen : (b.takeWhile (· = 0)).length + (b.dropWhile (· = 0)).length = b.length := by
    rw [← List.length_append, hsplit]
  have hzeros : b.takeWhile (· = 0) =
      List.replicate (b.length - (b.dropWhile (· = 0)).length) 0 := by
    refine List.eq_replicate_iff.mpr ⟨by omega, fun x hx => ?_⟩
    have hzero := List.mem_takeWhile_imp hx
    exact of_decide_eq_true hzero
  rw [padTo]
  split_ifs with hlong
  · rw [hzeros, Nat.sub_eq_zero_of_le hlong, List.replicate_zero, List.nil_append] at hsplit
    rw [hsplit, List.take_length]
  · rw [← hzeros, hsplit]

theorem padTo_intBytes (n : Nat) : padTo (intBytes n) 96 = beBytes 96 n := by
  have hpad := padTo_dropWhile (beBytes 96 n)
  rwa [length_beBytes] at hpad

theorem beNat_padTo_intBytes {n : Nat} (h : n < dhPrime) : beNat (padTo (intBytes n) 96) = n := by
  rw [padTo_intBytes]
  exact beNat_beBytes (Nat.lt_trans h (by decide +kernel))

/-- Both sides compute the same secret from the other's public key. -/
theorem secret_publicKey (a b : Bytes) : secret a (publicKey b) = secret b (publicKey a) := by
  have hlt : ∀ priv, dhG ^ beNat priv % dhPrime < dhPrime :=
    fun priv => Nat.mod_lt _ (by decide +kernel)
  rw [secret, secret, publicKey, publicKey, beNat_padTo_intBytes (hlt b),
    beNat_padTo_intBytes (hlt a), ← Nat.pow_mod, ← Nat.pow_mod, ← Nat.pow_mul, ← Nat.pow_mul,
    Nat.mul_comm]

/-! ## The answer of a responder -/

/-- VC, the choice of RC4, and PadD behind its length. -/
def response (padD : Bytes) : Bytes :=
  vc ++ (beBytes 4 cryptoRC4 ++ (beBytes 2 padD.length ++ padD))

/-- What a responder that holds the secret sends. -/
def responderStream (env : Env) (s infoHash yb padB padD payload : Bytes) : Bytes :=
  yb ++ padB ++ (Cipher.new (deriveKey env "keyB" s infoHash)).apply env (response padD ++ payload)

/-- What the reads for VC bring in. -/
def scanned (conn : NetConn) : Option Bytes :=
  (readFull 96 conn.chunks).bind fun yb => (readAtLeast scanSize 8 [] yb.2).map Prod.fst

section
variable {padD payload : Bytes}

theorem length_response (padD : Bytes) : (response padD).length = 14 + padD.length := by
  rw [response, List.length_append, List.length_append, List.length_append, length_beBytes,
    length_beBytes, vc, List.length_replicate]
  omega

theorem take_response (padD payload : Bytes) : (response padD ++ payload).take 8 = vc := by
  rw [response, List.append_assoc]
  exact List.take_left' rfl

theorem drop_response (padD payload : Bytes) :
    (response padD ++ payload).drop 8 =
      beBytes 4 cryptoRC4 ++ (beBytes 2 padD.length ++ (padD ++ payload)) := by
  rw [response, List.append_assoc, List.append_assoc, List.append_assoc]
  exact List.drop_left' rfl

theorem select_response {j : Nat} (hj : 14 ≤ j) :
    beNat ((((response padD ++ payload).drop 8).take (j - 8)).take 4) = cryptoRC4 := by
  rw [List.take_take, min_eq_left (by omega), drop_response, List.take_left' (length_beBytes _ _)]
  exact beNat_beBytes (by decide)

theorem padDLen_response {j : Nat} (hj : 14 ≤ j) (hpadD : padD.length < 2 ^ 16) :
    beNat (((((response padD ++ payload).drop 8).take (j - 8)).drop 4).take 2) = padD.length := by
  rw [List.drop_take, List.take_take, min_eq_left (by omega), drop_response,
    List.drop_left' (length_beBytes _ _), List.take_left' (length_beBytes _ _)]
  exact beNat_beBytes hpadD

end

theorem findVC_of_take {decBuf : Bytes} (h : decBuf.take 8 = vc) : findVC decBuf = some 0 := by
  have hlen : 8 ≤ decBuf.length := by
    have htake := congrArg List.length h
    rw [List.length_take, vc, List.length_replicate] at htake
    omega
  cases decBuf with
  | nil => exact absurd hlen (by decide)
  | cons b bs => exact if_pos ⟨hlen, h⟩

/-- After `k` bytes of a stream whose plain text is `plain`: the rest is still to come, and the
cipher stands where the rest begins. -/
structure Along (env : Env) (key plain : Bytes) (k : Nat) (dec : Cipher)
    (chunks : List Bytes) : Prop where
  rest : chunks.flatten = ((Cipher.new key).apply env plain).drop k
  cipher : dec = (Cipher.new key).advance k

namespace Along

variable {env : Env} {key plain padD payload : Bytes} {k : Nat} {dec : Cipher}
  {chunks : List Bytes}

/-- What is still to come decrypts to the rest of the plain text. -/
theorem apply_flatten (h : Along env key plain k dec chunks) :
    dec.apply env chunks.flatten = plain.drop k := by
  rw [h.rest, h.cipher, Cipher.apply, Cipher.apply, drop_xorKeyStream]
  exact xorKeyStream_xorKeyStream _ _ _

theorem length_flatten (h : Along env key plain k dec chunks) :
    chunks.flatten.length = plain.length - k := by
  rw [h.rest, List.length_drop, Cipher.apply, length_xorKeyStream]

/-- One more read, of any length. -/
theorem read {data : Bytes} {chunks' : List Bytes} (h : Along env key plain k dec chunks)
    (hread : data ++ chunks'.flatten = chunks.flatten) :
    dec.apply env data = (plain.drop k).take data.length ∧
      Along env key plain (k + data.length) (dec.advance data.length) chunks' := by
  refine ⟨?_, ?_, ?_⟩
  · rw [← h.apply_flatten, ← hread, Cipher.apply, Cipher.apply, take_xorKeyStream, List.take_left]
  · rw [← List.drop_drop, ← h.rest, ← hread, List.drop_left]
  · rw [h.cipher, Cipher.advance, Cipher.advance, Cipher.advance, Nat.add_assoc]

theorem readMore_eq {m : Nat} (h : Along env key plain k dec chunks) (hm : k + m ≤ plain.length) :
    ∃ dec' chunks', readMore env m dec chunks = some ((plain.drop k).take m, dec', chunks') ∧
      Along env key plain (k + m) dec' chunks' := by
  have henough : m ≤ chunks.flatten.length := by
    rw [h.length_flatten]
    omega
  obtain ⟨chunks', hread, hrest⟩ := readFull_spec henough
  have hlen : (chunks.flatten.take m).length = m := List.length_take_of_le henough
  obtain ⟨happly, halong⟩ := h.read (by rw [hrest, List.take_append_drop])
  rw [hlen] at happly halong
  exact ⟨_, _, by rw [readMore, hread, ← happly]; rfl, halong⟩

theorem readHeader_eq (h : Along env key plain k dec chunks) (hk : 8 ≤ k) (hkl : k ≤ plain.length)
    (hl : 14 ≤ plain.length) :
    ∃ dec' chunks', readHeader env ((plain.drop 8).take (k - 8)) dec chunks =
        some ((plain.drop 8).take (max k 14 - 8), dec', chunks') ∧
      Along env key plain (max k 14) dec' chunks' := by
  have hlen : ((plain.drop 8).take (k - 8)).length = k - 8 := by
    rw [List.length_take, List.length_drop]
    omega
  rw [readHeader, hlen]
  by_cases hshort : k - 8 < 6
  · have hmax : max k 14 = k + (6 - (k - 8)) := by omega
    have hadd : max k 14 - 8 = k - 8 + (6 - (k - 8)) := by omega
    have hdrop : plain.drop k = (plain.drop 8).drop (k - 8) := by
      rw [List.drop_drop, Nat.add_sub_cancel' hk]
    obtain ⟨dec', chunks', hread, halong⟩ := h.readMore_eq (m := 6 - (k - 8)) (by omega)
    refine ⟨dec', chunks', ?_, hmax ▸ halong⟩
    rw [if_pos hshort, hread, hdrop, hadd, List.take_add]
    rfl
  · have hmax : max k 14 = k := by omega
    rw [if_neg hshort, hmax]
    exact ⟨dec, chunks, rfl, h⟩

/-- From VC on, the reads end where PadD ends. -/
theorem readSelect_eq (h : Along env key (response padD ++ payload) k dec chunks) (hk : 8 ≤ k)
    (hkr : k ≤ (response padD).length) (hpadD : padD.length < 2 ^ 16) :
    ∃ dec' chunks', readSelect env (((response padD ++ payload).drop 8).take (k - 8)) dec chunks =
        .ok (cryptoRC4, dec', chunks') ∧
      Along env key (response padD ++ payload) (response padD).length dec' chunks' := by
  have hlen : (response padD ++ payload).length = 14 + padD.length + payload.length := by
    rw [List.length_append, length_response]
  rw [length_response] at hkr ⊢
  obtain ⟨dec₁, chunks₁, hheader, h₁⟩ := h.readHeader_eq hk (by omega) (by omega)
  -- The six bytes are there, whether or not they had to be read.
  have hmax : 14 ≤ max k 14 := Nat.le_max_right k 14
  have hremaining : (((response padD ++ payload).drop 8).take (max k 14 - 8)).length =
      max k 14 - 8 := by
    rw [List.length_take, List.length_drop]
    omega
  have hgot : min padD.length (max k 14 - 8 - 6) = max k 14 - 14 := by omega
  rw [readSelect, hheader]
  simp only [select_response hmax, padDLen_response hmax hpadD, hremaining, hgot]
  by_cases hmore : max k 14 - 14 < padD.length
  · have hend : max k 14 + (padD.length - (max k 14 - 14)) = 14 + padD.length := by omega
    obtain ⟨dec', chunks', hread, halong⟩ :=
      h₁.readMore_eq (m := padD.length - (max k 14 - 14)) (by omega)
    rw [if_pos hmore, hread]
    exact ⟨dec', chunks', rfl, hend ▸ halong⟩
  · have hend : max k 14 = 14 + padD.length := by omega
    rw [if_neg hmore]
    exact ⟨dec₁, chunks₁, rfl, hend ▸ h₁⟩

theorem readResponse_eq (h : Along env key (response padD ++ payload) 0 dec chunks)
    (hpadD : padD.length < 2 ^ 16)
    (hscan : ∀ p ∈ readAtLeast scanSize 8 [] chunks, p.1.length ≤ (response padD).length) :
    ∃ dec' chunks', readResponse env dec chunks = .ok (cryptoRC4, dec', chunks') ∧
      Along env key (response padD ++ payload) (response padD).length dec' chunks' := by
  have henough : 8 ≤ ([] : Bytes).length + chunks.flatten.length := by
    rw [h.length_flatten, List.length_append, length_response]
    omega
  have hsize : 8 ≤ scanSize := by decide
  obtain ⟨scanBuf, chunks₁, hread, hdata, hmin, -⟩ :=
    readAtLeast_spec hsize (Nat.zero_le _) henough
  obtain ⟨happly, h₁⟩ := h.read hdata
  have hle : scanBuf.length ≤ (response padD).length := hscan _ hread
  have hvc : findVC (dec.apply env scanBuf) = some 0 := by
    refine findVC_of_take ?_
    rw [happly, List.drop_zero, List.take_take, min_eq_left hmin, take_response]
  rw [Nat.zero_add] at h₁
  rw [readResponse, hread]
  simp only [hvc]
  rw [happly, List.drop_zero, Nat.zero_add, List.drop_take]
  exact h₁.readSelect_eq hmin hle hpadD

end Along

/-! ## Reading the payload -/

namespace Conn

variable {env : Env} {c c' : Conn} {data : Bytes} {size : Nat}

theorem read_unread (h : c.read env size = some (data, c')) :
    data ++ c'.unread env = c.unread env := by
  obtain ⟨⟨raw, chunks⟩, hread, heq⟩ := Option.map_eq_some_iff.mp h
  obtain ⟨rfl, rfl⟩ := Prod.mk.inj heq
  have hflat := readSome_flatten hread
  cases hr : c.r with
  | none => simpa [unread, hr] using hflat
  | some r =>
    simp only [unread, hr, Option.map_some, Option.getD_some]
    rw [← hflat, Cipher.apply, Cipher.apply, Cipher.apply, xorKeyStream_append]
    rfl

theorem reads_unread (sizes : List Nat) (c : Conn) :
    (c.reads env sizes).1 ++ (c.reads env sizes).2.unread env = c.unread env := by
  induction sizes generalizing c with
  | nil => rfl
  | cons size sizes ih =>
    rw [reads]
    cases hread : c.read env size with
    | none => rfl
    | some p =>
      rw [← read_unread hread, ← ih p.2, List.append_assoc]

theorem reads_eq_nil (h : c.unread env = []) (sizes : List Nat) : (c.reads env sizes).1 = [] := by
  rw [← reads_unread sizes c] at h
  exact (List.append_eq_nil_iff.mp h).1

theorem length_unread (c : Conn) : (c.unread env).length = c.net.chunks.flatten.length := by
  rw [unread]
  cases c.r with
  | none => rfl
  | some r => exact length_xorKeyStream _ _ _

theorem read_eq_none_iff : c.read env size = none ↔ c.net.chunks = [] := by
  rw [read, Option.map_eq_none_iff]
  cases c.net.chunks with
  | nil => exact ⟨fun _ => rfl, fun _ => rfl⟩
  | cons chunk chunks =>
    have hsome : readSome size (chunk :: chunks) ≠ none := by
      rw [readSome]
      split_ifs <;> exact Option.some_ne_none _
    exact ⟨fun h => absurd h hsome, fun h => absurd h (List.cons_ne_nil chunk chunks)⟩

theorem read_lt (hsize : 0 < size) (h : c.read env size = some (data, c')) :
    c'.net.chunks.length + (c'.unread env).length <
      c.net.chunks.length + (c.unread env).length := by
  obtain ⟨⟨raw, chunks⟩, hread, heq⟩ := Option.map_eq_some_iff.mp h
  rw [← (Prod.mk.inj heq).2, length_unread, length_unread]
  exact readSome_lt hsize hread

/-- Enough reads take everything. -/
theorem reads_eq_unread {sizes : List Nat} (hsizes : ∀ size ∈ sizes, 0 < size)
    (hlen : c.net.chunks.length + (c.unread env).length ≤ sizes.length) :
    (c.reads env sizes).1 = c.unread env := by
  induction sizes generalizing c with
  | nil =>
    rw [List.length_nil] at hlen
    exact (List.eq_nil_of_length_eq_zero (by omega)).symm
  | cons size sizes ih =>
    rw [reads]
    cases hread : c.read env size with
    | none =>
      refine (List.eq_nil_of_length_eq_zero ?_).symm
      rw [length_unread, read_eq_none_iff.mp hread]
      rfl
    | some p =>
      have hlt := read_lt (hsizes size List.mem_cons_self) hread
      rw [List.length_cons] at hlen
      have hsizes' : ∀ size ∈ sizes, 0 < size :=
        fun size hsize => hsizes size (List.mem_cons_of_mem _ hsize)
      rw [← read_unread hread, ← ih hsizes' (by omega)]

end Conn

def plainEnv : Env where
  sha1 _ := []
  rc4 _ i := UInt8.ofNat i

def plainYb : Bytes := List.replicate 96 1

def plainConn (chunks : List Bytes) : NetConn where
  chunks := chunks
  accepts _ := true
  written := []

end Stor.Mse
