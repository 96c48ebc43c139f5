import Stor.Lib.Utf8

/-!
# JSON values, as a writer and a reader of structs see them

`Json` is the value that a JSON text stands for.  A string is written with its bytes
coerced to UTF-8, a byte slice as base 64, and a nil slice as `null`.  A reader of a
struct takes the last member of each name, and leaves a field at its zero value when
the member is missing or `null`.

What is written is read back (`base64Decode_base64`, `readInt64_toInt`), but for
strings that the coercion changed.
-/

namespace Stor.Lib

/-! ## Base 64 -/

/-- The padding of the last quantum. -/
def padByte : UInt8 := 61

def base64Char (v : Nat) : UInt8 :=
  if v < 26 then UInt8.ofNat (v + 65)
  else if v < 52 then UInt8.ofNat (v + 71)
  else if v < 62 then UInt8.ofNat (v - 4)
  else if v = 62 then 43
  else 47

def base64Val (c : UInt8) : Option Nat :=
  if 65 ≤ c.toNat ∧ c.toNat ≤ 90 then some (c.toNat - 65)
  else if 97 ≤ c.toNat ∧ c.toNat ≤ 122 then some (c.toNat - 71)
  else if 48 ≤ c.toNat ∧ c.toNat ≤ 57 then some (c.toNat + 4)
  else if c = 43 then some 62
  else if c = 47 then some 63
  else none

def base64 : Bytes → Bytes
  | [] => []
  | [a] => [base64Char (a.toNat / 4), base64Char (a.toNat % 4 * 16), padByte, padByte]
  | [a, b] =>
    [base64Char (a.toNat / 4), base64Char (a.toNat % 4 * 16 + b.toNat / 16),
      base64Char (b.toNat % 16 * 4), padByte]
  | a :: b :: c :: rest =>
    base64Char (a.toNat / 4) :: base64Char (a.toNat % 4 * 16 + b.toNat / 16) ::
      base64Char (b.toNat % 16 * 4 + c.toNat / 64) :: base64Char (c.toNat % 64) :: base64 rest

def base64Decode : Bytes → Option Bytes
  | [] => some []
  | w :: x :: y :: z :: rest => do
      let w ← base64Val w
      let x ← base64Val x
      let a := UInt8.ofNat (w * 4 + x / 16)
      if y = padByte then
        if z = padByte ∧ rest = [] then some [a] else none
      else
        let y ← base64Val y
        let b := UInt8.ofNat (x % 16 * 16 + y / 4)
        if z = padByte then
          if rest = [] then some [a, b] else none
        else
          let z ← base64Val z
          let c := UInt8.ofNat (y % 4 * 64 + z)
          let rest ← base64Decode rest
          some (a :: b :: c :: rest)
  | _ => none

theorem base64Val_char {v : Nat} (h : v < 64) : base64Val (base64Char v) = some v := by
  have hall : ∀ v < 64, base64Val (base64Char v) = some v := by decide
  exact hall v h

theorem base64Char_ne_pad {v : Nat} (h : v < 64) : base64Char v ≠ padByte := by
  have hall : ∀ v < 64, base64Char v ≠ padByte := by decide
  exact hall v h

theorem ofNat_eq_of_toNat {a : UInt8} {n : Nat} (h : n = a.toNat) : UInt8.ofNat n = a := by
  rw [h, UInt8.ofNat_toNat]

theorem base64Decode_base64 (bs : Bytes) : base64Decode (base64 bs) = some bs := by
  induction bs using base64.induct with
  | case1 => rfl
  | case2 a =>
    have ha := a.toNat_lt
    simp only [base64, base64Decode, base64Val_char (show a.toNat / 4 < 64 by omega),
      base64Val_char (show a.toNat % 4 * 16 < 64 by omega), bind, Option.bind_some, and_self, if_true,
      Option.some.injEq, List.cons.injEq, and_true]
    exact ofNat_eq_of_toNat (by omega)
  | case3 a b =>
    have ha := a.toNat_lt
    have hb := b.toNat_lt
    simp only [base64, base64Decode, base64Val_char (show a.toNat / 4 < 64 by omega),
      base64Val_char (show a.toNat % 4 * 16 + b.toNat / 16 < 64 by omega),
      base64Val_char (show b.toNat % 16 * 4 < 64 by omega),
      base64Char_ne_pad (show b.toNat % 16 * 4 < 64 by omega), bind, Option.bind_some, if_true,
      if_false, Option.some.injEq, List.cons.injEq, and_true]
    exact ⟨ofNat_eq_of_toNat (by omega), ofNat_eq_of_toNat (by omega)⟩
  | case4 a b c rest ih =>
    have ha := a.toNat_lt
    have hb := b.toNat_lt
    have hc := c.toNat_lt
    simp only [base64, base64Decode, base64Val_char (show a.toNat / 4 < 64 by omega),
      base64Val_char (show a.toNat % 4 * 16 + b.toNat / 16 < 64 by omega),
      base64Val_char (show b.toNat % 16 * 4 + c.toNat / 64 < 64 by omega),
      base64Val_char (show c.toNat % 64 < 64 by omega),
      base64Char_ne_pad (show b.toNat % 16 * 4 + c.toNat / 64 < 64 by omega),
      base64Char_ne_pad (show c.toNat % 64 < 64 by omega), ih, bind, Option.bind_some,
      if_false, Option.some.injEq, List.cons.injEq, and_true]
    exact ⟨ofNat_eq_of_toNat (by omega), ofNat_eq_of_toNat (by omega), ofNat_eq_of_toNat (by omega)⟩

/-! ## Values -/

inductive Json where
  | null
  | num (n : Int)
  | str (s : Bytes)
  | arr (xs : List Json)
  | obj (fields : List (String × Json))

namespace Json

def string (s : Bytes) : Json := .str (toValidUtf8 s)

def bytes : Option Bytes → Json
  | none => .null
  | some bs => .str (base64 bs)

def readString : Json → Option Bytes
  | .str s => some s
  | _ => none

def readBytes : Json → Option (Option Bytes)
  | .str s => (base64Decode s).map some
  | _ => none

def readInt64 : Json → Option Int64
  | .num n => if -2 ^ 63 ≤ n ∧ n < 2 ^ 63 then some (Int64.ofInt n) else none
  | _ => none

def readInt8 : Json → Option Int8
  | .num n => if -2 ^ 7 ≤ n ∧ n < 2 ^ 7 then some (Int8.ofInt n) else none
  | _ => none

def readList {α : Type} (read : Json → Option α) : Json → Option (List α)
  | .arr xs => xs.mapM read
  | _ => none

/-- The last member of the name. -/
def member (fields : List (String × Json)) (name : String) : Option Json :=
  (fields.reverse.find? fun f => f.1 = name).map Prod.snd

/-- A field of a struct. -/
def field {α : Type} (fields : List (String × Json)) (name : String) (zero : α)
    (read : Json → Option α) : Option α :=
  match member fields name with
  | none | some .null => some zero
  | some j => read j

/-- A member that is left out when its value is empty. -/
def omitEmpty (empty : Bool) (name : String) (j : Json) : List (String × Json) :=
  if empty then [] else [(name, j)]

theorem readInt64_toInt (n : Int64) : readInt64 (.num n.toInt) = some n := by
  have hlo := n.le_toInt
  have hhi := n.toInt_lt
  rw [readInt64, if_pos ⟨hlo, hhi⟩, Int64.ofInt_toInt]

theorem readInt8_toInt (n : Int8) : readInt8 (.num n.toInt) = some n := by
  have hlo := n.le_toInt
  have hhi := n.toInt_lt
  rw [readInt8, if_pos ⟨hlo, hhi⟩, Int8.ofInt_toInt]

theorem readList_map {α : Type} {read : Json → Option α} {write : α → Json}
    (h : ∀ a, read (write a) = some a) (as : List α) :
    readList read (.arr (as.map write)) = some as := by
  rw [readList, List.mapM_map]
  induction as with
  | nil => rfl
  | cons a as ih => simp [h, ih]

/-! ## Fields -/

variable {fields : List (String × Json)} {name : String}

@[simp] theorem member_nil (name : String) : member [] name = none := rfl

@[simp] theorem member_append (fields fields' : List (String × Json)) (name : String) :
    member (fields ++ fields') name = (member fields' name).or (member fields name) := by
  simp only [member, List.reverse_append, List.find?_append, Option.map_or]

@[simp] theorem member_cons (f : String × Json) (fields : List (String × Json)) (name : String) :
    member (f :: fields) name = (member fields name).or (if f.1 = name then some f.2 else none) := by
  rw [← List.singleton_append, member_append]
  congr 1
  by_cases h : f.1 = name <;> simp [member, h]

@[simp] theorem member_omitEmpty (empty : Bool) (k : String) (j : Json) (name : String) :
    member (omitEmpty empty k j) name = if empty then none else if k = name then some j else none := by
  cases empty with
  | true => rfl
  | false => exact member_cons (k, j) [] name

theorem field_string {s : Bytes} (h : member fields name = some (string s)) :
    field fields name [] readString = some (toValidUtf8 s) := by
  rw [field, h]
  rfl

theorem field_int64 {n : Int64} (h : member fields name = some (.num n.toInt)) :
    field fields name 0 readInt64 = some n := by
  rw [field, h]
  exact readInt64_toInt n

theorem field_bytes {bs : Option Bytes} (h : member fields name = some (bytes bs)) :
    field fields name none readBytes = some bs := by
  rw [field, h]
  cases bs with
  | none => rfl
  | some bs =>
    show (base64Decode (base64 bs)).map some = _
    rw [base64Decode_base64]
    rfl

theorem field_none {α : Type} {zero : α} {read : Json → Option α} (h : member fields name = none) :
    field fields name zero read = some zero := by
  rw [field, h]

end Json

end Stor.Lib
