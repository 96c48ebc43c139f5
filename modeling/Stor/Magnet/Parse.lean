import Stor.Lib.Block
import Stor.Lib.Url

/-!
# Magnet links

`magnet/magnet.go`.  The checks of `net/url` that do not touch the query are
fields of `UrlChecks`; a link of the usual form `magnet:?...` meets none of them.
-/

namespace Stor

open Lib

structure UrlChecks where
  hierOk : Bytes → Bool
  fragOk : Bytes → Bool

structure Magnet where
  infoHash : Bytes
  infoHashV2 : Bytes
  hasV2 : Bool
  displayName : Bytes
  trackers : List Bytes
  peers : List Bytes
  deriving DecidableEq, Repr

namespace Magnet

inductive MagnetError where
  /-- `url.Parse` failed, or the scheme is another one. -/
  | notMagnet
  | missingXt
  | invalidHex
  | invalidBase32
  | hashLength (n : Nat)
  | multihashPrefix
  | hashLengthV2 (n : Nat)
  | invalidHexV2
  | v2Only
  | missingBtih
  deriving DecidableEq, Repr

def btihStart : Bytes := ascii "urn:btih:"
def btmhStart : Bytes := ascii "urn:btmh:"

def zeroHash : Bytes := List.replicate 20 0

def parseInfoHashV1 (xt : Bytes) : Except MagnetError Bytes :=
  let raw := xt.drop btihStart.length
  if raw.length = 40 then
    match hexDecode raw with
    | none => .error .invalidHex
    | some decoded => .ok (resize 20 decoded)
  else if raw.length = 32 then
    match base32Decode (toUpper raw) with
    | none => .error .invalidBase32
    | some decoded => .ok (resize 20 decoded)
  else .error (.hashLength raw.length)

def parseInfoHashV2 (xt : Bytes) : Except MagnetError Bytes :=
  let raw := xt.drop btmhStart.length
  if ¬ (ascii "1220").isPrefixOf raw then .error .multihashPrefix
  else if (raw.drop 4).length ≠ 64 then .error (.hashLengthV2 (raw.drop 4).length)
  else
    match hexDecode (raw.drop 4) with
    | none => .error .invalidHexV2
    | some decoded => .ok (resize 32 decoded)

/-- The loop over the `xt` values, with the magnet built so far. -/
def parseXts : List Bytes → Magnet → Except MagnetError Magnet
  | [], m => .ok m
  | xt :: xts, m =>
    if btihStart.isPrefixOf xt then
      match parseInfoHashV1 xt with
      | .error e => .error e
      | .ok hash => parseXts xts { m with infoHash := hash }
    else if btmhStart.isPrefixOf xt then
      match parseInfoHashV2 xt with
      | .error e => .error e
      | .ok hash => parseXts xts { m with infoHashV2 := hash, hasV2 := true }
    else parseXts xts m

def parse (c : UrlChecks) (uri : Bytes) : Except MagnetError Magnet :=
  match parseUrl c.hierOk c.fragOk uri with
  | none => .error .notMagnet
  | some u =>
    if u.scheme ≠ ascii "magnet" then .error .notMagnet
    else
      let params := parseQuery u.rawQuery
      let xts := queryValues (ascii "xt") params
      if xts = [] then .error .missingXt
      else
        match parseXts xts ⟨zeroHash, List.replicate 32 0, false, [], [], []⟩ with
        | .error e => .error e
        | .ok m =>
          if m.infoHash = zeroHash then .error (if m.hasV2 then .v2Only else .missingBtih)
          else
            .ok { m with
              displayName := (queryValues (ascii "dn") params).head?.getD []
              trackers := queryValues (ascii "tr") params
              peers := queryValues (ascii "x.pe") params }

end Magnet
end Stor
