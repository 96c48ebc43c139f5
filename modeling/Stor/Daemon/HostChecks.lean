import Stor.Tracker.Announce

/-!
# Which hosts are dialled

The checks that stand before an outbound request: of an HTTP tracker, of a web seed
(`download/webseed.go`, once for its URL and once for its host), of the URL of a torrent
(`daemon/rpc.go`), and of a UDP tracker, which has none.  On the text of an address they give
one verdict exactly where all of them admit it.
-/

namespace Stor.Daemon

open Lib Tracker

/-- What the web seed checks refuse. -/
def webSeedRefuses (ip : IP) : Bool :=
  ip.isLoopback || ip.isPrivate || ip.isLinkLocalUnicast || ip.isLinkLocalMulticast

/-- What the torrent URL check refuses. -/
def torrentURLRefuses (ip : IP) : Bool :=
  ip.isLoopback || ip.isPrivate || ip.isLinkLocalUnicast

/-- An HTTP URL whose host is a name other than `localhost`, or an address that is not
refused. -/
def validURL (refused : IP → Bool) (parse : Bytes → Except Bytes URL) (rawURL : Bytes) : Bool :=
  match parse rawURL with
  | .error _ => false
  | .ok u =>
    if u.scheme ≠ ascii "http" ∧ u.scheme ≠ ascii "https" then false
    else if u.hostname = ascii "localhost" then false
    else
      match parseIP u.hostname with
      | none => true
      | some ip => !refused ip

def validWebSeedURL (parse : Bytes → Except Bytes URL) (rawURL : Bytes) : Bool :=
  validURL webSeedRefuses parse rawURL

def validTorrentURL (parse : Bytes → Except Bytes URL) (rawURL : Bytes) : Bool :=
  validURL torrentURLRefuses parse rawURL

def resolveAndValidateHost (lookupHost : Bytes → Except Bytes (List Bytes)) (host : Bytes) :
    Except Bytes Bytes :=
  resolveHost webSeedRefuses (ascii "private address") (ascii "valid addresses") lookupHost host

section
variable {env : Env} {refused : IP → Bool} {host rawURL udpURL : Bytes} {u v : URL} {ip : IP}

theorem ne_localhost (hip : parseIP host = some ip) : host ≠ ascii "localhost" := by
  rintro rfl
  have hnone : parseIP (ascii "localhost") = none := by decide +kernel
  rw [hnone] at hip
  cases hip

theorem validURL_eq (hparse : env.parse rawURL = .ok u)
    (hscheme : u.scheme = ascii "http" ∨ u.scheme = ascii "https")
    (hip : parseIP u.hostname = some ip) : validURL refused env.parse rawURL = !refused ip := by
  have hhttp : ¬(u.scheme ≠ ascii "http" ∧ u.scheme ≠ ascii "https") := by tauto
  rw [validURL, hparse]
  simp only [if_neg hhttp, if_neg (ne_localhost hip), hip]

theorem resolveHost_isOk {reserved noAddrs : Bytes} (hip : parseIP host = some ip) :
    (resolveHost refused reserved noAddrs env.lookupHost host).isOk = !refused ip := by
  rw [resolveHost, if_neg (ne_localhost hip), hip]
  cases hrefused : refused ip <;> simp [hrefused, Except.isOk, Except.toBool]

theorem announceUDP_dialled (hparse : env.parse udpURL = .ok v) :
    (announceUDP env udpURL).dialled = [v.host] := by
  rw [announceUDP, hparse]
  cases hdial : env.dialUDP v.host <;> simp only [hdial]

end

/-- Whether the HTTP tracker check, the two web seed checks, the torrent URL check and the path
of UDP announces let the host through. -/
def verdicts (env : Env) (host rawURL udpURL : Bytes) : List Bool :=
  [(resolveAndValidateTrackerHost env.lookupHost host).isOk,
    validWebSeedURL env.parse rawURL,
    (resolveAndValidateHost env.lookupHost host).isOk,
    validTorrentURL env.parse rawURL,
    (announceUDP env udpURL).dialled.any fun addr => (splitAuthority addr).1 = host]

theorem verdicts_eq {env : Env} {host rawURL udpURL : Bytes} {u v : URL} {ip : IP}
    (hip : parseIP host = some ip) (hparse : env.parse rawURL = .ok u)
    (hscheme : u.scheme = ascii "http" ∨ u.scheme = ascii "https") (hhost : u.hostname = host)
    (hudp : env.parse udpURL = .ok v) (hudpHost : v.hostname = host) :
    verdicts env host rawURL udpURL =
      [!ip.isInward, !webSeedRefuses ip, !webSeedRefuses ip, !torrentURLRefuses ip, true] := by
  have hdials : (announceUDP env udpURL).dialled.any (fun addr => (splitAuthority addr).1 = host) =
      true := by
    rw [announceUDP_dialled hudp, List.any_cons, Bool.or_eq_true]
    exact Or.inl (decide_eq_true hudpHost)
  have hurl : parseIP u.hostname = some ip := by rw [hhost, hip]
  rw [verdicts, hdials, resolveAndValidateTrackerHost, validWebSeedURL, resolveAndValidateHost,
    validTorrentURL, resolveHost_isOk hip, validURL_eq hparse hscheme hurl, resolveHost_isOk hip,
    validURL_eq hparse hscheme hurl]

theorem isInward_eq (ip : IP) : ip.isInward = (webSeedRefuses ip || ip.isUnspecified) := rfl

theorem webSeedRefuses_eq (ip : IP) :
    webSeedRefuses ip = (torrentURLRefuses ip || ip.isLinkLocalMulticast) := rfl

/-- What one of the checks refuses, the check of HTTP trackers refuses. -/
theorem verdicts_all_iff (ip : IP) :
    (∀ b ∈ [!ip.isInward, !webSeedRefuses ip, !webSeedRefuses ip, !torrentURLRefuses ip, true],
      b = true) ↔ ip.isInward = false := by
  rw [isInward_eq, webSeedRefuses_eq]
  cases torrentURLRefuses ip <;> cases ip.isLinkLocalMulticast <;> simp

/-- The checks agree on the text of an address if and only if it is not an inward one, and
the inward ones are what the check of HTTP trackers refuses. -/
theorem verdicts_agree_iff {env : Env} {host rawURL udpURL : Bytes} {u v : URL} {ip : IP}
    (hip : parseIP host = some ip) (hparse : env.parse rawURL = .ok u)
    (hscheme : u.scheme = ascii "http" ∨ u.scheme = ascii "https") (hhost : u.hostname = host)
    (hudp : env.parse udpURL = .ok v) (hudpHost : v.hostname = host) :
    ((∀ a ∈ verdicts env host rawURL udpURL, a = true) ∨
        (∀ a ∈ verdicts env host rawURL udpURL, a = false) ↔ ip.isInward = false) ∧
      ((resolveAndValidateTrackerHost env.lookupHost host).isOk = false ↔ ip.isInward = true) := by
  constructor
  · rw [verdicts_eq hip hparse hscheme hhost hudp hudpHost, verdicts_all_iff]
    -- UDP trackers are never refused, so that all refusing is not possible.
    exact or_iff_left fun hall => absurd (hall true (by simp)) (by decide)
  · rw [resolveAndValidateTrackerHost, resolveHost_isOk hip, Bool.not_eq_eq_eq_not, Bool.not_false]

/-- A network on which every URL of the given host parses, and nothing answers. -/
def silentEnv (host : Bytes) : Env where
  parse rawURL := .ok ⟨if rawURL = ascii "u" then ascii "udp" else ascii "http", host⟩
  lookupHost _ := .error []
  get _ _ := .error []
  dialUDP _ := .error []

theorem verdicts_agree_public :
    let env := silentEnv (ascii "8.8.8.8")
    (∀ a ∈ verdicts env (ascii "8.8.8.8") (ascii "h") (ascii "u"), a = true) ∨
      ∀ a ∈ verdicts env (ascii "8.8.8.8") (ascii "h") (ascii "u"), a = false := by
  intro env
  have hip : parseIP (ascii "8.8.8.8") = some (IP.v4InV6 ++ [8, 8, 8, 8]) := by decide +kernel
  have hhttp : env.parse (ascii "h") = .ok ⟨ascii "http", ascii "8.8.8.8"⟩ := rfl
  have hudp : env.parse (ascii "u") = .ok ⟨ascii "udp", ascii "8.8.8.8"⟩ := rfl
  have hname : (splitAuthority (ascii "8.8.8.8")).1 = ascii "8.8.8.8" := by decide +kernel
  exact (verdicts_agree_iff hip hhttp (Or.inl rfl) hname hudp hname).1.mpr (by decide +kernel)

/-- The unspecified address is refused for trackers only, a link-local multicast address for
trackers and web seeds, and the loopback address for all but UDP trackers. -/
theorem verdicts_disagree :
    verdicts (silentEnv (ascii "0.0.0.0")) (ascii "0.0.0.0") (ascii "h") (ascii "u") =
        [false, true, true, true, true] ∧
      verdicts (silentEnv (ascii "[ff02::1]")) (ascii "ff02::1") (ascii "h") (ascii "u") =
        [false, false, false, true, true] ∧
      verdicts (silentEnv (ascii "127.0.0.1")) (ascii "127.0.0.1") (ascii "h") (ascii "u") =
        [false, false, false, false, true] := by
  decide +kernel

end Stor.Daemon
