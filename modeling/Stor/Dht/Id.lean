import Stor.Dht.Krpc
import Stor.Lib.BitString
import Stor.Lib.Ip

/-!
# Node IDs and compact node infos

`dht/id.go`.  The distance of two IDs is their difference bit by bit, which is read in two
ways: its leading zeros are the length of the common prefix, and as a number it orders the
nodes around a target.  A compact node info is a record of 26 bytes, or of 38 for an address
of sixteen bytes.
-/

namespace Stor.Dht

open Lib

structure ID where
  bytes : Bytes
  length_eq : bytes.length = 20
  deriving DecidableEq

namespace ID

/-- `IDFromBytes`. -/
def ofBytes (b : Bytes) : ID := ⟨resize 20 b, resize_length 20 b⟩

def distance (a b : ID) : ID where
  bytes := List.zipWith (· ^^^ ·) a.bytes b.bytes
  length_eq := by rw [List.length_zipWith, a.length_eq, b.length_eq, Nat.min_self]

/-- The leading zero bits of some bytes. -/
def zeroBits : Bytes → Nat
  | [] => 0
  | b :: bs => if b ≠ 0 then leadingZeros8 b else 8 + zeroBits bs

def zeroPrefixLen (id : ID) : Nat := zeroBits id.bytes

def less (a b : ID) : Bool := lessBytes a.bytes b.bytes

/-- How far a node is from the target, as a number. -/
def dist (target id : ID) : Nat := beNat (id.distance target).bytes

theorem ext {a b : ID} (h : a.bytes = b.bytes) : a = b := by
  cases a
  cases b
  cases h
  rfl

theorem ofBytes_bytes (id : ID) : ofBytes id.bytes = id := ext (resize_of_length id.length_eq)

theorem zeroBits_eq (bs : Bytes) : zeroBits bs = ((bits bs).takeWhile fun c => !c).length := by
  induction bs with
  | nil => rfl
  | cons b bs ih =>
    rw [zeroBits, bits_cons, List.takeWhile_append, takeWhile_byteBits, length_byteBits, ih]
    have hall : ∀ n : Fin 256, leadingZeros8 (UInt8.ofNat n) = 8 ↔ UInt8.ofNat n = 0 := by
      decide +kernel
    have hb := hall ⟨b.toNat, b.toNat_lt⟩
    rw [UInt8.ofNat_toNat] at hb
    by_cases hzero : b = 0
    · rw [if_neg (not_not.mpr hzero), if_pos (hb.mpr hzero), List.length_append, length_byteBits]
    · rw [if_pos hzero, if_neg (mt hb.mp hzero), takeWhile_byteBits]

/-- The bucket of a node is told by how far its ID agrees with another one. -/
theorem zeroPrefixLen_distance (a b : ID) :
    (a.distance b).zeroPrefixLen = commonLen (bits a.bytes) (bits b.bytes) := by
  rw [zeroPrefixLen, zeroBits_eq, distance, bits_xor (a.length_eq.trans b.length_eq.symm),
    takeWhile_zipWith_xor]

theorem commonLen_lt {a b : ID} (h : a ≠ b) : commonLen (bits a.bytes) (bits b.bytes) < 160 := by
  refine Nat.lt_of_not_le fun hle => h (ext ?_)
  have ha : (bits a.bytes).length = 160 := by rw [length_bits, a.length_eq]
  have hb : (bits b.bytes).length = 160 := by rw [length_bits, b.length_eq]
  exact bits_injective (eq_of_length_le_commonLen (ha.trans hb.symm) (by rwa [ha]))

theorem less_distance_iff {target a b : ID} :
    less (a.distance target) (b.distance target) = true ↔ dist target a < dist target b :=
  lessBytes_iff ((a.distance target).length_eq.trans (b.distance target).length_eq.symm)

theorem distance_injective {target a b : ID} (h : a.distance target = b.distance target) : a = b := by
  have hlen : ∀ id : ID, (bits id.bytes).length = 160 := fun id => by rw [length_bits, id.length_eq]
  refine ext (bits_injective (List.ext_getElem ((hlen a).trans (hlen b).symm) fun i ha hb => ?_))
  have hbits := congrArg (fun id : ID => (bits id.bytes)[i]?) h
  have hi : i < (bits target.bytes).length := ha.trans_eq ((hlen a).trans (hlen target).symm)
  simp only [distance] at hbits
  rw [bits_xor (a.length_eq.trans target.length_eq.symm),
    bits_xor (b.length_eq.trans target.length_eq.symm), List.getElem?_zipWith, List.getElem?_zipWith,
    List.getElem?_eq_getElem ha, List.getElem?_eq_getElem hb, List.getElem?_eq_getElem hi] at hbits
  exact Bool.xor_left_inj.mp (Option.some.inj hbits)

/-- Different nodes are at different distances. -/
theorem dist_injective {target a b : ID} (h : dist target a = dist target b) : a = b := by
  have hless : ∀ {c d : ID}, dist target c = dist target d →
      less (c.distance target) (d.distance target) = false := fun hcd =>
    Bool.eq_false_iff.mpr fun hlt => hcd.not_lt (less_distance_iff.mp hlt)
  exact distance_injective (ext (eq_of_lessBytes_eq_false
    ((a.distance target).length_eq.trans (b.distance target).length_eq.symm) (hless h)
    (hless h.symm)))

end ID

/-! ## Compact node infos -/

structure CompactNodeInfo where
  id : ID
  addr : UDPAddr
  deriving DecidableEq

/-- The record of a node.  Without an address of four bytes the rest stays zero. -/
def compactNodeInfo (n : CompactNodeInfo) : Bytes :=
  n.id.bytes ++
    match IP.to4 n.addr.ip with
    | none => List.replicate 6 0
    | some ip => ip ++ beBytes 2 n.addr.port.toNat

def marshalCompactNodeInfo (nodes : List CompactNodeInfo) : Bytes := nodes.flatMap compactNodeInfo

/-- An address of four bytes is left zero, but its port is not. -/
def compactNodeInfo6 (n : CompactNodeInfo) : Bytes :=
  n.id.bytes ++
    (match IP.to16 n.addr.ip, IP.to4 n.addr.ip with
      | some ip, none => ip
      | _, _ => List.replicate 16 0) ++
    beBytes 2 n.addr.port.toNat

def marshalCompactNodeInfo6 (nodes : List CompactNodeInfo) : Bytes := nodes.flatMap compactNodeInfo6

inductive CompactError where
  | length (n : Nat)
  | length6 (n : Nat)

def CompactError.text : CompactError → Bytes
  | .length n =>
    ascii "dht: compact node info length " ++ natDigits n ++ ascii " is not a multiple of 26"
  | .length6 n =>
    ascii "dht: compact node info6 length " ++ natDigits n ++ ascii " is not a multiple of 38"

/-- A record with an address of `width` bytes. -/
def readNodeInfo (width : Nat) (record : Bytes) : CompactNodeInfo where
  id := .ofBytes (slice 0 20 record)
  addr := ⟨slice 20 width record, UInt16.ofNat (beNat (slice (20 + width) 2 record)), []⟩

def unmarshalCompactNodeInfo6 (data : Bytes) : Except CompactError (List CompactNodeInfo) :=
  if data.length % 38 ≠ 0 then .error (.length6 data.length)
  else .ok ((List.range (data.length / 38)).map fun i => readNodeInfo 16 (slice (i * 38) 38 data))

def unmarshalCompactNodeInfo (data : Bytes) : Except CompactError (List CompactNodeInfo) :=
  if data.length % 26 ≠ 0 then .error (.length data.length)
  else .ok ((List.range (data.length / 26)).map fun i => readNodeInfo 4 (slice (i * 26) 26 data))

/-- What a record keeps of a node. -/
def CompactNodeInfo.withIP (n : CompactNodeInfo) (ip : IP) : CompactNodeInfo where
  id := n.id
  addr := ⟨ip, n.addr.port, []⟩

/-- A record is read back, whatever the width of its address. -/
theorem readNodeInfo_record (n : CompactNodeInfo) {width : Nat} {ip : Bytes}
    (hip : ip.length = width) :
    readNodeInfo width (n.id.bytes ++ (ip ++ beBytes 2 n.addr.port.toNat)) = n.withIP ip := by
  have hport : UInt16.ofNat (beNat (beBytes 2 n.addr.port.toNat)) = n.addr.port := by
    rw [beNat_beBytes n.addr.port.toNat_lt, UInt16.ofNat_toNat]
  have hrest : slice 0 2 (beBytes 2 n.addr.port.toNat) = beBytes 2 n.addr.port.toNat := by
    rw [slice, List.drop_zero, List.take_of_length_le (length_beBytes 2 _).le]
  rw [readNodeInfo, slice_append_left n.id.length_eq, ID.ofBytes_bytes,
    ← Nat.add_zero 20, slice_append_right n.id.length_eq, slice_append_left hip, Nat.add_zero,
    slice_append_right n.id.length_eq, ← Nat.add_zero width, slice_append_right hip, hrest, hport]
  rfl

theorem length_compactNodeInfo (n : CompactNodeInfo) : (compactNodeInfo n).length = 26 := by
  rw [compactNodeInfo, List.length_append, n.id.length_eq]
  cases h : IP.to4 n.addr.ip with
  | none => rfl
  | some ip => rw [List.length_append, IP.length_to4 h, length_beBytes]

theorem length_compactNodeInfo6 (n : CompactNodeInfo) : (compactNodeInfo6 n).length = 38 := by
  rw [compactNodeInfo6, List.length_append, List.length_append, n.id.length_eq, length_beBytes]
  cases h : IP.to16 n.addr.ip with
  | none => rfl
  | some ip =>
    cases IP.to4 n.addr.ip with
    | none => rw [IP.length_to16 h]
    | some ip4 => rfl

/-- Nodes of four-byte addresses survive the trip through the compact form. -/
theorem unmarshal_marshal {nodes : List CompactNodeInfo} {ip4 : CompactNodeInfo → Bytes}
    (h : ∀ n ∈ nodes, IP.to4 n.addr.ip = some (ip4 n)) :
    unmarshalCompactNodeInfo (marshalCompactNodeInfo nodes) =
      .ok (nodes.map fun n => n.withIP (ip4 n)) := by
  have hlen : (marshalCompactNodeInfo nodes).length = nodes.length * 26 :=
    length_flatMap_records fun n _ => length_compactNodeInfo n
  have hread : ∀ n ∈ nodes, readNodeInfo 4 (compactNodeInfo n) = n.withIP (ip4 n) := by
    intro n hn
    rw [compactNodeInfo, h n hn]
    exact readNodeInfo_record n (IP.length_to4 (h n hn))
  rw [unmarshalCompactNodeInfo, hlen, Nat.mul_mod_left, if_neg (not_not.mpr rfl),
    Nat.mul_div_cancel _ (by decide), marshalCompactNodeInfo,
    map_slice_flatMap fun n _ => length_compactNodeInfo n, List.map_congr_left hread]

theorem unmarshal_marshal6 {nodes : List CompactNodeInfo} {ip16 : CompactNodeInfo → Bytes}
    (h : ∀ n ∈ nodes, IP.to16 n.addr.ip = some (ip16 n) ∧ IP.to4 n.addr.ip = none) :
    unmarshalCompactNodeInfo6 (marshalCompactNodeInfo6 nodes) =
      .ok (nodes.map fun n => n.withIP (ip16 n)) := by
  have hlen : (marshalCompactNodeInfo6 nodes).length = nodes.length * 38 :=
    length_flatMap_records fun n _ => length_compactNodeInfo6 n
  have hread : ∀ n ∈ nodes, readNodeInfo 16 (compactNodeInfo6 n) = n.withIP (ip16 n) := by
    intro n hn
    obtain ⟨h16, h4⟩ := h n hn
    rw [compactNodeInfo6, h16, h4, List.append_assoc]
    exact readNodeInfo_record n (IP.length_to16 h16)
  rw [unmarshalCompactNodeInfo6, hlen, Nat.mul_mod_left, if_neg (not_not.mpr rfl),
    Nat.mul_div_cancel _ (by decide), marshalCompactNodeInfo6,
    map_slice_flatMap fun n _ => length_compactNodeInfo6 n, List.map_congr_left hread]

end Stor.Dht
