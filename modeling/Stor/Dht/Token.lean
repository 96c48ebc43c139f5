import Stor.Dht.Krpc

/-!
# Announce tokens

The token of `dht/node.go` is a hash of the asker's address and a secret, of which a node
keeps the last two.  `New` rotates once, so that until the first turn of `tokenRotateLoop`
the older of the two is one that was never drawn.
-/

namespace Stor.Dht

open Lib Bencode

abbrev Secret := Vector UInt8 20

def zeroSecret : Secret := Vector.replicate 20 0

/-- The first bytes of SHA-1 of the address and the secret, as a function that tells the
secrets apart. -/
structure TokenHash where
  hash : Bytes → Secret → Bytes
  injective : ∀ ip, Function.Injective (hash ip)

structure Tokens where
  tokenSecret : Secret
  tokenSecretOld : Secret

namespace Tokens

/-- `secret` is what `rand.Read` draws. -/
def rotateToken (n : Tokens) (secret : Secret) : Tokens where
  tokenSecret := secret
  tokenSecretOld := n.tokenSecret

/-- `New`. -/
def new (secret : Secret) : Tokens := rotateToken ⟨zeroSecret, zeroSecret⟩ secret

/-- A node that drew `secret` when it was made and then `secrets`. -/
def run (secret : Secret) (secrets : List Secret) : Tokens := secrets.foldl rotateToken (new secret)

variable (H : TokenHash)

def makeToken (n : Tokens) (addr : UDPAddr) : Bytes := H.hash addr.ip n.tokenSecret

def validateToken (n : Tokens) (addr : UDPAddr) (token : Bytes) : Bool :=
  [n.tokenSecret, n.tokenSecretOld].any fun secret => H.hash addr.ip secret = token

/-- The token of the answer to `get_peers`, if there is one. -/
def respondGetPeers (n : Tokens) (msg : KRPCMessage) (addr : UDPAddr) : Option Bytes :=
  if (msg.argument (ascii "info_hash")).length ≠ 20 then none else some (n.makeToken H addr)

/-- `announce_peer` is answered. -/
def respondAnnouncePeer (n : Tokens) (msg : KRPCMessage) (addr : UDPAddr) : Bool :=
  n.validateToken H addr (msg.argument (ascii "token"))

/-- A token under one of the last two secrets that were drawn. -/
def Genuine (drawn : List Secret) (addr : UDPAddr) (token : Bytes) : Prop :=
  ∃ secret ∈ drawn.reverse.take 2, token = H.hash addr.ip secret

variable {H} {secret : Secret} {secrets : List Secret}

theorem run_concat (s : Secret) :
    run secret (secrets ++ [s]) = (run secret secrets).rotateToken s := by
  rw [run, List.foldl_append]
  rfl

theorem validateToken_iff {n : Tokens} {addr : UDPAddr} {token : Bytes} :
    n.validateToken H addr token = true ↔
      token = H.hash addr.ip n.tokenSecret ∨ token = H.hash addr.ip n.tokenSecretOld := by
  rw [validateToken, List.any_cons, List.any_cons, List.any_nil, Bool.or_false, Bool.or_eq_true,
    decide_eq_true_iff, decide_eq_true_iff, eq_comm, eq_comm (b := token)]

/-- The newest secret that was drawn is in use. -/
theorem tokenSecret_run (secret : Secret) (secrets : List Secret) :
    (secret :: secrets).getLast? = some (run secret secrets).tokenSecret := by
  induction secrets using List.reverseRecOn with
  | nil => rfl
  | append_singleton secrets s _ =>
    rw [run_concat, ← List.cons_append, List.getLast?_concat]
    rfl

/-- The last two secrets are those of the node, unless there is only one. -/
theorem drawn_run (hsecrets : secrets ≠ []) :
    (secret :: secrets).reverse.take 2 =
      [(run secret secrets).tokenSecret, (run secret secrets).tokenSecretOld] := by
  induction secrets using List.reverseRecOn with
  | nil => exact absurd rfl hsecrets
  | append_singleton secrets s _ =>
    have hlast := tokenSecret_run secret secrets
    rw [← List.head?_reverse] at hlast
    obtain ⟨rest, hrest⟩ := List.head?_eq_some_iff.mp hlast
    rw [run_concat, ← List.cons_append, List.reverse_append, hrest]
    rfl

theorem validateToken_run (hsecrets : secrets ≠ []) {addr : UDPAddr} {token : Bytes} :
    (run secret secrets).validateToken H addr token = true ↔
      Genuine H (secret :: secrets) addr token := by
  rw [validateToken_iff, Genuine, drawn_run hsecrets]
  simp

theorem validateToken_makeToken {later : List Secret} (hlater : later.length ≤ 1) (addr : UDPAddr) :
    (run secret (secrets ++ later)).validateToken H addr ((run secret secrets).makeToken H addr) =
      true := by
  rw [validateToken_iff]
  rcases later with _ | ⟨s, _ | ⟨s', later⟩⟩
  · rw [List.append_nil]
    exact .inl rfl
  · rw [run_concat]
    exact .inr rfl
  · simp at hlater

/-- An answer to `get_peers` is good for an announcement from the same address until the
secret has been rotated twice. -/
theorem respondAnnouncePeer_issued {later : List Secret} (hlater : later.length ≤ 1)
    {ask announce : KRPCMessage} {addr : UDPAddr} {token : Bytes}
    (hask : (run secret secrets).respondGetPeers H ask addr = some token)
    (htoken : announce.argument (ascii "token") = token) :
    (run secret (secrets ++ later)).respondAnnouncePeer H announce addr = true := by
  unfold respondGetPeers at hask
  split_ifs at hask
  rw [respondAnnouncePeer, htoken, ← Option.some.inj hask]
  exact validateToken_makeToken hlater addr

/-- Once the secret has been rotated, what is accepted was made from one of the last two
secrets that the node drew, and a token is accepted until the second rotation after it was
made. -/
theorem announce_token (H : TokenHash) (secret : Secret) (secrets : List Secret) (addr : UDPAddr) :
    (secrets ≠ [] → ∀ token, (run secret secrets).validateToken H addr token = true →
      Genuine H (secret :: secrets) addr token) ∧
    ∀ later, later.length ≤ 1 →
      (run secret (secrets ++ later)).validateToken H addr
        ((run secret secrets).makeToken H addr) = true :=
  ⟨fun hsecrets _ hvalid => (validateToken_run hsecrets).mp hvalid,
    fun _ hlater => validateToken_makeToken hlater addr⟩

/-- A hash that hides nothing. -/
def plainHash : TokenHash where
  hash ip secret := ip ++ secret.toList
  injective := fun _ _ _ h => Vector.toList_inj.mp (List.append_cancel_left h)

def localAddr : UDPAddr := ⟨[192, 0, 2, 1], 6881, []⟩

theorem announce_token_rotated :
    let drawn := run (Vector.replicate 20 1) [Vector.replicate 20 2]
    drawn.validateToken plainHash localAddr (plainHash.hash localAddr.ip (Vector.replicate 20 1)) =
        true ∧
      Genuine plainHash [Vector.replicate 20 1, Vector.replicate 20 2] localAddr
        (plainHash.hash localAddr.ip (Vector.replicate 20 1)) := by
  have hvalid : (run (Vector.replicate 20 1) [Vector.replicate 20 2]).validateToken plainHash localAddr
      (plainHash.hash localAddr.ip (Vector.replicate 20 1)) = true := by decide +kernel
  exact ⟨hvalid, (announce_token plainHash _ _ _).1 (List.cons_ne_nil _ _) _ hvalid⟩

/-- The node is new, and the token is made from zeros. -/
theorem announce_token_zeros :
    (new (Vector.replicate 20 1)).validateToken plainHash localAddr
        (plainHash.hash localAddr.ip zeroSecret) = true ∧
      ¬Genuine plainHash [Vector.replicate 20 1] localAddr
        (plainHash.hash localAddr.ip zeroSecret) := by
  refine ⟨by decide +kernel, ?_⟩
  rintro ⟨secret, hmem, heq⟩
  rw [List.mem_singleton.mp hmem] at heq
  exact absurd (plainHash.injective _ heq) (by decide +kernel)

end Tokens
end Stor.Dht
