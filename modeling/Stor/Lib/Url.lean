import Stor.Lib.Decimal

/-!
# Links, query strings and text encodings of bytes

The parts of `net/url`, `encoding/hex` and `encoding/base32` that a reader of
links relies on, with their leniencies: pairs that do not parse are dropped from
a query, and line breaks inside base 32 are skipped.  A link whose part behind
the scheme starts with a slash goes through the checks of authority and path,
which are a parameter here: they can refuse a link and do not change its query.
-/

namespace Stor.Lib

/-- `strings.Cut` at the first `sep`; without one, everything is before it. -/
def cutAt (sep : UInt8) : Bytes → Bytes × Bytes
  | [] => ([], [])
  | b :: bs => if b = sep then ([], bs) else (b :: (cutAt sep bs).1, (cutAt sep bs).2)

def isLower (b : UInt8) : Bool := 97 ≤ b.toNat && b.toNat ≤ 122
def isUpper (b : UInt8) : Bool := 65 ≤ b.toNat && b.toNat ≤ 90

def lowerByte (b : UInt8) : UInt8 := if isUpper b then b + 32 else b

/-- `strings.ToUpper` as far as it produces ASCII: the letters, and the two
characters outside ASCII whose upper case is an ASCII letter. -/
def toUpper : Bytes → Bytes
  | [] => []
  | [b] => [if isLower b then b - 32 else b]
  | b :: c :: bs =>
    if b = 0xc4 ∧ c = 0xb1 then 73 :: toUpper bs
    else if b = 0xc5 ∧ c = 0xbf then 83 :: toUpper bs
    else (if isLower b then b - 32 else b) :: toUpper (c :: bs)

/-- The scheme of a link and what is behind its colon, or no scheme.  The flag
says that the first byte has been read. -/
def getScheme (started : Bool) : Bytes → Option (Bytes × Bytes)
  | [] => none
  | b :: bs =>
    if isLower b || isUpper b || (started && (isDigit b || b = 43 || b = 45 || b = 46)) then
      (getScheme true bs).map fun p => (b :: p.1, p.2)
    else if b = 58 && started then some ([], bs)
    else none

structure Url where
  scheme : Bytes
  rawQuery : Bytes
  deriving DecidableEq, Repr

/-- A link with a scheme; `hierOk` is the check of a part that starts with a
slash, and `fragOk` that of a fragment. -/
def parseUrl (hierOk fragOk : Bytes → Bool) (uri : Bytes) : Option Url :=
  let body := (cutAt 35 uri).1
  let frag := (cutAt 35 uri).2
  if body.any (fun b => b.toNat < 32 || b.toNat = 127) || (frag ≠ [] && !fragOk frag) then none
  else
    match getScheme false body with
    | none => none
    | some (scheme, rest) =>
      if rest.head? = some 47 && !hierOk (cutAt 63 rest).1 then none
      else some ⟨scheme.map lowerByte, (cutAt 63 rest).2⟩

def hexVal (b : UInt8) : Option Nat :=
  if isDigit b then some (b.toNat - 48)
  else if 97 ≤ b.toNat && b.toNat ≤ 102 then some (b.toNat - 87)
  else if 65 ≤ b.toNat && b.toNat ≤ 70 then some (b.toNat - 55)
  else none

/-- `url.QueryUnescape`. -/
def queryUnescape : Bytes → Option Bytes
  | [] => some []
  | b :: bs =>
    if b = 37 then
      match bs with
      | h :: l :: rest =>
        match hexVal h, hexVal l with
        | some x, some y => (queryUnescape rest).map (UInt8.ofNat (16 * x + y) :: ·)
        | _, _ => none
      | _ => none
    else (queryUnescape bs).map ((if b = 43 then 32 else b) :: ·)

def parsePair (pair : Bytes) : Option (Bytes × Bytes) :=
  if pair = [] ∨ (59 : UInt8) ∈ pair then none
  else
    (queryUnescape (cutAt 61 pair).1).bind fun key =>
      (queryUnescape (cutAt 61 pair).2).map fun value => (key, value)

def maxQueryParams : Nat := 10000

/-- `URL.Query`: the pairs in order; a query with too many pairs gives none. -/
def parseQuery (query : Bytes) : List (Bytes × Bytes) :=
  let pairs := query.splitOn 38
  if pairs.length > maxQueryParams then [] else pairs.filterMap parsePair

/-- `params[key]`. -/
def queryValues (key : Bytes) (params : List (Bytes × Bytes)) : List Bytes :=
  (params.filter fun p => p.1 = key).map Prod.snd

/-- `hex.DecodeString`. -/
def hexDecode : Bytes → Option Bytes
  | [] => some []
  | [_] => none
  | h :: l :: rest =>
    match hexVal h, hexVal l with
    | some x, some y => (hexDecode rest).map (UInt8.ofNat (16 * x + y) :: ·)
    | _, _ => none

def hexDigit (n : Nat) : UInt8 := UInt8.ofNat (if n < 10 then 48 + n else 87 + n)

/-- `hex.EncodeToString`. -/
def hexEncode (s : Bytes) : Bytes :=
  s.flatMap fun b => [hexDigit (b.toNat / 16), hexDigit (b.toNat % 16)]

/-- A symbol of the base 32 alphabet. -/
def base32Val (b : UInt8) : Option Nat :=
  if isUpper b then some (b.toNat - 65)
  else if 50 ≤ b.toNat && b.toNat ≤ 55 then some (b.toNat - 24)
  else none

/-- The whole bytes of a quantum of base 32 symbols. -/
def base32Pack (syms : List Nat) : Bytes :=
  let n := syms.foldl (fun acc v => acc * 32 + v) 0 * 32 ^ (8 - syms.length)
  ((List.range (syms.length * 5 / 8)).map fun i => UInt8.ofNat (n / 256 ^ (4 - i) % 256))

/-- The decoder of padded base 32, with the symbols of the current quantum.  Line
breaks have been taken out. -/
def base32Quanta : List Nat → Bytes → Option Bytes
  | [], [] => some []
  | _ :: _, [] => none
  | syms, b :: bs =>
    if b = 61 ∧ 2 ≤ syms.length ∧ bs.length < 8 then
      -- padding ends the text: it fills the quantum, and only some fillings are valid
      if bs.length + syms.length < 7 ∨ ¬ (bs.take (7 - syms.length)).all (· = 61) ∨
          syms.length = 3 ∨ syms.length = 6 then none
      else some (base32Pack syms)
    else
      match base32Val b with
      | none => none
      | some v =>
        if syms.length = 7 then (base32Quanta [] bs).map (base32Pack (syms ++ [v]) ++ ·)
        else base32Quanta (syms ++ [v]) bs

/-- `base32.StdEncoding.DecodeString`. -/
def base32Decode (s : Bytes) : Option Bytes :=
  base32Quanta [] (s.filter fun b => b ≠ 10 ∧ b ≠ 13)

end Stor.Lib
