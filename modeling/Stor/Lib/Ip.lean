import Stor.Lib.Stream
import Stor.Lib.Url

/-!
# Internet addresses

The parts of `net` and `net/netip` that deal with addresses: an address is the list of its
bytes, four or sixteen, or none for nil.  An address of four bytes stands for the same host as
the sixteen that end in them behind `v4InV6`, and the tests below do not tell the two apart.
-/

namespace Stor.Lib

def dotByte : UInt8 := 46
def colonByte : UInt8 := 58
def percentByte : UInt8 := 37
def openBracket : UInt8 := 91
def closeBracket : UInt8 := 93

/-! ## Addresses -/

abbrev IP := Bytes

namespace IP

def v4InV6 : Bytes := List.replicate 10 0 ++ [0xff, 0xff]

def to4 (ip : IP) : Option Bytes :=
  if ip.length = 4 then some ip
  else if ip.length = 16 ∧ ip.take 12 = v4InV6 then some (ip.drop 12)
  else none

def to16 (ip : IP) : Option Bytes :=
  if ip.length = 4 then some (v4InV6 ++ ip) else if ip.length = 16 then some ip else none

theorem length_to4 {ip ip4 : IP} (h : to4 ip = some ip4) : ip4.length = 4 := by
  rw [to4] at h
  split_ifs at h with hfour hmapped
  · rw [← Option.some.inj h, hfour]
  · rw [← Option.some.inj h, List.length_drop, hmapped.1]

theorem length_to16 {ip ip16 : IP} (h : to16 ip = some ip16) : ip16.length = 16 := by
  rw [to16] at h
  split_ifs at h with hfour hsixteen
  · rw [← Option.some.inj h, List.length_append, hfour]
    rfl
  · rw [← Option.some.inj h, hsixteen]

/-- `ip[i]`, of an address that is long enough. -/
def byte (ip : IP) (i : Nat) : UInt8 := ip.getD i 0

def isLoopback (ip : IP) : Bool :=
  match to4 ip with
  | some ip4 => byte ip4 0 = 127
  | none => ip = List.replicate 15 0 ++ [1]

/-- The ranges of RFC 1918 and RFC 4193. -/
def isPrivate (ip : IP) : Bool :=
  match to4 ip with
  | some ip4 =>
    byte ip4 0 = 10 || (byte ip4 0 = 172 && byte ip4 1 &&& 0xf0 = 16) ||
      (byte ip4 0 = 192 && byte ip4 1 = 168)
  | none => ip.length = 16 && byte ip 0 &&& 0xfe = 0xfc

def isLinkLocalUnicast (ip : IP) : Bool :=
  match to4 ip with
  | some ip4 => byte ip4 0 = 169 && byte ip4 1 = 254
  | none => ip.length = 16 && byte ip 0 = 0xfe && byte ip 1 &&& 0xc0 = 0x80

def isLinkLocalMulticast (ip : IP) : Bool :=
  match to4 ip with
  | some ip4 => byte ip4 0 = 224 && byte ip4 1 = 0 && byte ip4 2 = 0
  | none => ip.length = 16 && byte ip 0 = 0xff && byte ip 1 &&& 0x0f = 0x02

def isUnspecified (ip : IP) : Bool :=
  to4 ip = some (List.replicate 4 0) || ip = List.replicate 16 0

/-- Loopback, private, link-local or unspecified. -/
def isInward (ip : IP) : Bool :=
  ip.isLoopback || ip.isPrivate || ip.isLinkLocalUnicast || ip.isLinkLocalMulticast ||
    ip.isUnspecified

/-- The sixteen-bit groups of an address. -/
def groups : Bytes → List Nat
  | hi :: lo :: rest => (hi.toNat * 256 + lo.toNat) :: groups rest
  | _ => []

/-- A group in lower case, without leading zeros. -/
def hexGroup (n : Nat) : Bytes :=
  let digits := [n / 4096 % 16, n / 256 % 16, n / 16 % 16].dropWhile (· = 0) ++ [n % 16]
  digits.map hexDigit

/-- Start and end of the first longest run of two or more zero groups. -/
def longestZeros (gs : List Nat) : Option (Nat × Nat) :=
  (List.range gs.length).foldl
    (fun best i =>
      let l := ((gs.drop i).takeWhile (· = 0)).length
      if 2 ≤ l ∧ l > (best.elim 0 fun b => b.2 - b.1) then some (i, i + l) else best)
    none

def joinGroups (gs : List Nat) : Bytes := [colonByte].intercalate (gs.map hexGroup)

/-- `IP.String` of an address of four or sixteen bytes. -/
def text (ip : IP) : Bytes :=
  match to4 ip with
  | some ip4 => [dotByte].intercalate (ip4.map fun b => natDigits b.toNat)
  | none =>
    let gs := groups ip
    match longestZeros gs with
    | none => joinGroups gs
    | some (start, stop) =>
      joinGroups (gs.take start) ++ [colonByte, colonByte] ++ joinGroups (gs.drop stop)

end IP

/-! ## Reading an address -/

/-- A field of an IPv4 address: a number up to 255 without leading zeros. -/
def ipv4Field (s : Bytes) : Option UInt8 :=
  if s ≠ [] ∧ s.all isDigit ∧ (s.length = 1 ∨ s.head? ≠ some zeroByte) ∧ decimalValue s ≤ 255 then
    some (UInt8.ofNat (decimalValue s))
  else none

def parseIPv4Fields (s : Bytes) : Option Bytes :=
  if (s.splitOn dotByte).length = 4 then (s.splitOn dotByte).mapM ipv4Field else none

def isHex (b : UInt8) : Bool := (hexVal b).isSome

def hexNumber (s : Bytes) : Nat := s.foldl (fun n b => n * 16 + (hexVal b).getD 0) 0

/-- The groups of an IPv6 address, of which `n` may still come: `ip` is what has been read and
`ellipsis` where the `::` was.  The last part of the result is what was not read. -/
def parseGroups : Nat → Bytes → Option Nat → Bytes → Option (Bytes × Option Nat × Bytes)
  | 0, ip, ellipsis, s => some (ip, ellipsis, s)
  | n + 1, ip, ellipsis, s =>
    let digits := s.takeWhile isHex
    if digits = [] ∨ 4 < digits.length then none
    else
      match s.dropWhile isHex with
      | [] => some (ip ++ beBytes 2 (hexNumber digits), ellipsis, [])
      | b :: rest =>
        if b = dotByte then
          -- an IPv4 address replaces the last two groups
          if (ellipsis = none ∧ ip.length ≠ 12) ∨ 16 < ip.length + 4 then none
          else (parseIPv4Fields s).map fun ip4 => (ip ++ ip4, ellipsis, [])
        else if b ≠ colonByte then none
        else
          let ip := ip ++ beBytes 2 (hexNumber digits)
          match rest with
          | [] => none
          | c :: rest' =>
            if c ≠ colonByte then parseGroups n ip ellipsis rest
            else if ellipsis.isSome then none
            else if rest' = [] then some (ip, some ip.length, [])
            else parseGroups n ip (some ip.length) rest'

/-- The address that the groups make, with zeros for the `::`. -/
def expandEllipsis (ip : Bytes) (ellipsis : Option Nat) : Option IP :=
  match ellipsis with
  | none => if ip.length = 16 then some ip else none
  | some e =>
    if ip.length < 16 then
      some (ip.take e ++ List.replicate (16 - ip.length) 0 ++ ip.drop e)
    else none

def parseIPv6 (s : Bytes) : Option IP :=
  let start :=
    match s with
    | b :: c :: rest => if b = colonByte ∧ c = colonByte then (some 0, rest) else (none, s)
    | _ => (none, s)
  if start.1.isSome ∧ start.2 = [] then some (List.replicate 16 0)
  else
    match parseGroups 8 [] start.1 start.2 with
    | some (ip, ellipsis, []) => expandEllipsis ip ellipsis
    | _ => none

/-- `net.ParseIP`: an address of sixteen bytes.  One with a zone is refused. -/
def parseIP (s : Bytes) : Option IP :=
  if percentByte ∈ s then none
  else
    match s.find? fun b => b = dotByte || b = colonByte with
    | none => none
    | some b => if b = dotByte then (parseIPv4Fields s).map (IP.v4InV6 ++ ·) else parseIPv6 s

/-! ## Hosts and ports -/

/-- What is before the last `sep`, and what is behind it. -/
def cutLast (sep : UInt8) : Bytes → Option (Bytes × Bytes)
  | [] => none
  | b :: bs =>
    match cutLast sep bs with
    | some p => some (b :: p.1, p.2)
    | none => if b = sep then some ([], bs) else none

/-- `net.SplitHostPort`. -/
def splitHostPort (hostport : Bytes) : Option (Bytes × Bytes) :=
  match cutLast colonByte hostport with
  | none => none
  | some (front, port) =>
    if hostport.head? = some openBracket then
      let inside := (cutAt closeBracket hostport).1
      if front = inside ++ [closeBracket] ∧ openBracket ∉ hostport.drop 1 ∧
          closeBracket ∉ port then
        some (inside.drop 1, port)
      else none
    else if colonByte ∈ front ∨ openBracket ∈ hostport ∨ closeBracket ∈ hostport then none
    else some (front, port)

/-- `net.JoinHostPort`. -/
def joinHostPort (host port : Bytes) : Bytes :=
  if colonByte ∈ host then openBracket :: host ++ [closeBracket, colonByte] ++ port
  else host ++ colonByte :: port

/-- The host and the port of an authority, as `net/url` takes it apart: only digits are a port,
and the brackets go. -/
def splitAuthority (authority : Bytes) : Bytes × Bytes :=
  let parts :=
    match cutLast colonByte authority with
    | some (front, port) => if port.all isDigit then (front, port) else (authority, [])
    | none => (authority, [])
  if parts.1.head? = some openBracket ∧ parts.1.getLast? = some closeBracket then
    ((parts.1.drop 1).dropLast, parts.2)
  else parts

end Stor.Lib
