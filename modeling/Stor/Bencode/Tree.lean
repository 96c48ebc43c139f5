import Stor.Bencode.Decode

/-!
# What the decoder accepts

A `Tree` is a bencoded value with the spelling it had in the input: the digits of
every string length, the text of every integer, and every entry of every
dictionary, repeated keys included.  `text` writes it back and `value` is the
value the decoder builds from it.  `decodeValue_sound` says that the decoder
consumes the text of a well-shaped tree, and `text_injective` that the input
determines the tree.  The encoder gives that text back exactly for the canonical
trees (`encodeValue_value_iff`).
-/

namespace Stor.Bencode

open Lib

inductive Tree where
  | str (ds s : Bytes)
  | int (t : Bytes)
  | list (xs : List Tree)
  | dict (es : List (Bytes × Bytes × Tree))

namespace Tree

mutual
def text : Tree → Bytes
  | .str ds s => ds ++ byteColon :: s
  | .int t => byteI :: t ++ [byteE]
  | .list xs => byteL :: textItems xs ++ [byteE]
  | .dict es => byteD :: textEntries es ++ [byteE]

def textItems : List Tree → Bytes
  | [] => []
  | r :: rs => text r ++ textItems rs

def textEntries : List (Bytes × Bytes × Tree) → Bytes
  | [] => []
  | (ds, k, r) :: es => ds ++ byteColon :: k ++ text r ++ textEntries es
end

mutual
def value : Tree → Value
  | .str _ s => .str s
  | .int t => .int ((parseInt64 t).getD 0)
  | .list xs => .list (values xs)
  | .dict es => .dict (valueEntries es [])

def values : List Tree → List Value
  | [] => []
  | r :: rs => value r :: values rs

/-- The map after the entries were put into `d` one after the other. -/
def valueEntries : List (Bytes × Bytes × Tree) → Entries → Entries
  | [], d => d
  | (_, k, r) :: es, d => valueEntries es (Entries.put k (value r) d)
end

/-- The keys of a dictionary in the order of the input. -/
def keys (es : List (Bytes × Bytes × Tree)) : List Bytes := es.map fun e => e.2.1

/- The spellings the decoder accepts, up to its limits on sizes. -/
mutual
def Shaped : Tree → Prop
  | .str ds s => LengthText ds s.length
  | .int t => ∃ n, IntText t n
  | .list xs => ShapedItems xs
  | .dict es => (keys es).Pairwise (· ≤ ·) ∧ ShapedEntries es

def ShapedItems : List Tree → Prop
  | [] => True
  | r :: rs => Shaped r ∧ ShapedItems rs

def ShapedEntries : List (Bytes × Bytes × Tree) → Prop
  | [] => True
  | (ds, k, r) :: es => LengthText ds k.length ∧ Shaped r ∧ ShapedEntries es
end

/- What the decoder counts in `totalItems`. -/
mutual
def items : Tree → Nat
  | .str _ _ => 0
  | .int _ => 0
  | .list xs => itemsList xs
  | .dict es => itemsEntries es

def itemsList : List Tree → Nat
  | [] => 0
  | r :: rs => 1 + items r + itemsList rs

def itemsEntries : List (Bytes × Bytes × Tree) → Nat
  | [] => 0
  | (_, _, r) :: es => 1 + items r + itemsEntries es
end

/-- The map `d` is not full when an entry is read, and is not full later on. -/
def Room : List (Bytes × Bytes × Tree) → Entries → Prop
  | [], _ => True
  | (_, k, r) :: es, d => d.length < maxCollectionSize ∧ Room es (Entries.put k (value r) d)

/- The limits of the decoder on the parts of a tree at some depth. -/
mutual
def Limits : Tree → Nat → Prop
  | .str _ s, depth => depth ≤ maxDecodeDepth ∧ s.length ≤ maxStringLength
  | .int _, depth => depth ≤ maxDecodeDepth
  | .list xs, depth =>
    depth ≤ maxDecodeDepth ∧ xs.length ≤ maxCollectionSize ∧ LimitsItems xs (depth + 1)
  | .dict es, depth => depth ≤ maxDecodeDepth ∧ Room es [] ∧ LimitsEntries es (depth + 1)

def LimitsItems : List Tree → Nat → Prop
  | [], _ => True
  | r :: rs, depth => Limits r depth ∧ LimitsItems rs depth

def LimitsEntries : List (Bytes × Bytes × Tree) → Nat → Prop
  | [], _ => True
  | (_, k, r) :: es, depth =>
    k.length ≤ maxStringLength ∧ Limits r depth ∧ LimitsEntries es depth
end

/- The one spelling of a value that the encoder writes: no leading zero in a
length, no plus sign, no repeated key. -/
mutual
def Canonical : Tree → Prop
  | .str ds _ => NoLeadingZero ds
  | .int t => t.head? ≠ some plusByte
  | .list xs => CanonicalItems xs
  | .dict es => (keys es).Nodup ∧ CanonicalEntries es

def CanonicalItems : List Tree → Prop
  | [] => True
  | r :: rs => Canonical r ∧ CanonicalItems rs

def CanonicalEntries : List (Bytes × Bytes × Tree) → Prop
  | [] => True
  | (ds, _, r) :: es => NoLeadingZero ds ∧ Canonical r ∧ CanonicalEntries es
end

instance decidableIntText (t : Bytes) : Decidable (∃ n, IntText t n) :=
  decidable_of_iff
    (¬ (t.length > 1 ∧ t.head? = some zeroByte) ∧ t ≠ [minusByte, zeroByte] ∧
      ¬ (t.length > 2 ∧ t.head? = some minusByte ∧ t[1]? = some zeroByte) ∧
      (parseInt64 t).isSome)
    (by simp only [IntText, exists_and_left, Option.isSome_iff_exists])

instance decidableLengthText (ds : Bytes) (n : Nat) : Decidable (LengthText ds n) :=
  inferInstanceAs (Decidable (_ ∧ _ ∧ _))

mutual
def decidableShaped : (r : Tree) → Decidable r.Shaped
  | .str ds s => decidableLengthText ds s.length
  | .int t => decidableIntText t
  | .list xs => decidableShapedItems xs
  | .dict es => @instDecidableAnd _ _ inferInstance (decidableShapedEntries es)

def decidableShapedItems : (rs : List Tree) → Decidable (ShapedItems rs)
  | [] => isTrue trivial
  | r :: rs => @instDecidableAnd _ _ (decidableShaped r) (decidableShapedItems rs)

def decidableShapedEntries : (es : List (Bytes × Bytes × Tree)) → Decidable (ShapedEntries es)
  | [] => isTrue trivial
  | (ds, k, r) :: es => @instDecidableAnd _ _ (decidableLengthText ds k.length)
      (@instDecidableAnd _ _ (decidableShaped r) (decidableShapedEntries es))
end

instance (r : Tree) : Decidable r.Shaped := decidableShaped r

end Tree

/-! ## Soundness -/

/-- The three loops read well-shaped trees inside the limits.  The induction is on the
fuel, with the statements for a value, for the rest of a list and for the rest of a
dictionary together, as the functions call each other. -/
theorem decode_sound (fuel : Nat) :
    (∀ data depth total v rest total',
      decodeValue fuel data depth total = .ok (v, rest, total') →
      ∃ r : Tree, r.Shaped ∧ data = r.text ++ rest ∧ r.value = v ∧ r.Limits depth ∧
        total' = total + r.items ∧ (total ≤ maxTotalItems → total' ≤ maxTotalItems)) ∧
    (∀ data list depth total xs rest total',
      decodeList fuel data list depth total = .ok (xs, rest, total') →
      ∃ rs, Tree.ShapedItems rs ∧ data = Tree.textItems rs ++ byteE :: rest ∧
        xs = list ++ Tree.values rs ∧ Tree.LimitsItems rs (depth + 1) ∧
        (list.length ≤ maxCollectionSize → list.length + rs.length ≤ maxCollectionSize) ∧
        total' = total + Tree.itemsList rs ∧ (total ≤ maxTotalItems → total' ≤ maxTotalItems)) ∧
    (∀ data dict prevKey depth total es rest total',
      decodeDict fuel data dict prevKey depth total = .ok (es, rest, total') →
      ∃ ts, Tree.ShapedEntries ts ∧ (Tree.keys ts).Pairwise (· ≤ ·) ∧
        (dict ≠ [] → ∀ k ∈ Tree.keys ts, prevKey ≤ k) ∧
        data = Tree.textEntries ts ++ byteE :: rest ∧ es = Tree.valueEntries ts dict ∧
        Tree.Room ts dict ∧ Tree.LimitsEntries ts (depth + 1) ∧
        total' = total + Tree.itemsEntries ts ∧
        (total ≤ maxTotalItems → total' ≤ maxTotalItems)) := by
  induction fuel with
  | zero => simp [decodeValue, decodeList, decodeDict]
  | succ fuel ih =>
    obtain ⟨ihv, ihl, ihd⟩ := ih
    refine ⟨?_, ?_, ?_⟩
    · intro data depth total v rest total' h
      obtain ⟨hdepth, ⟨n, bs, rfl, hn, rfl, rfl⟩ | ⟨xs, bs, rfl, hxs, rfl⟩ |
        ⟨es, bs, rfl, hes, rfl⟩ | ⟨s, hs, rfl, rfl⟩⟩ := decodeValue_eq_ok h
      · obtain ⟨t, ht, rfl⟩ := decodeInt_eq_ok.mp hn
        refine ⟨.int t, ⟨n, ht⟩, by simp [Tree.text], ?_, hdepth, rfl, id⟩
        rw [Tree.value, ht.2.2.2]
        rfl
      · obtain ⟨rs, hrs, rfl, rfl, hlimits, hlen, htotal⟩ := ihl _ _ _ _ _ _ _ hxs
        have hlen := hlen (Nat.zero_le _)
        rw [List.length_nil, Nat.zero_add] at hlen
        exact ⟨.list rs, hrs, by simp [Tree.text], by simp [Tree.value], ⟨hdepth, hlen, hlimits⟩,
          htotal⟩
      · obtain ⟨ts, hts, hsorted, -, rfl, rfl, hroom, hlimits, htotal⟩ := ihd _ _ _ _ _ _ _ _ hes
        exact ⟨.dict ts, ⟨hsorted, hts⟩, by simp [Tree.text], by simp [Tree.value],
          ⟨hdepth, hroom, hlimits⟩, htotal⟩
      · obtain ⟨ds, hds, hmax, rfl⟩ := decodeString_eq_ok.mp hs
        exact ⟨.str ds s, hds, by simp [Tree.text], rfl, ⟨hdepth, hmax⟩, rfl, id⟩
    · intro data list depth total xs rest total' h
      rcases decodeList_eq_ok h with ⟨rfl, rfl, rfl⟩ | ⟨hlen, hlt, v, rest₁, total₁, hv, hloop⟩
      · exact ⟨[], trivial, rfl, by simp [Tree.values], trivial, id, rfl, id⟩
      · obtain ⟨r, hr, rfl, rfl, hlimits, rfl, htotal⟩ := ihv _ _ _ _ _ _ hv
        obtain ⟨rs, hrs, rfl, rfl, hlimits', hlen', rfl, htotal'⟩ := ihl _ _ _ _ _ _ _ hloop
        refine ⟨r :: rs, ⟨hr, hrs⟩, by simp [Tree.textItems], by simp [Tree.values],
          ⟨hlimits, hlimits'⟩, fun _ => ?_, ?_, fun _ => htotal' (htotal hlt)⟩
        · rw [List.length_append, List.length_singleton] at hlen'
          have := hlen' hlen
          rw [List.length_cons]
          omega
        · rw [Tree.itemsList]
          omega
    · intro data dict prevKey depth total es rest total' h
      rcases decodeDict_eq_ok h with ⟨rfl, rfl, rfl⟩ |
        ⟨hlen, hlt, key, remaining, v, rest₁, total₁, hkey, horder, hv, hloop⟩
      · exact ⟨[], trivial, List.Pairwise.nil, by simp [Tree.keys], rfl, rfl, trivial, trivial,
          rfl, id⟩
      · obtain ⟨ds, hds, hmax, rfl⟩ := decodeString_eq_ok.mp hkey
        obtain ⟨r, hr, rfl, rfl, hlimits, rfl, htotal⟩ := ihv _ _ _ _ _ _ hv
        obtain ⟨ts, hts, hsorted, hprev, rfl, rfl, hroom, hlimits', rfl, htotal'⟩ :=
          ihd _ _ _ _ _ _ _ _ hloop
        have hne : Entries.put key r.value dict ≠ [] := by
          intro hnil
          have : key ∈ (Entries.put key r.value dict).map Prod.fst :=
            Entries.mem_keys_put.mpr (.inl rfl)
          rw [hnil] at this
          exact absurd this List.not_mem_nil
        have hlater := hprev hne
        refine ⟨(ds, key, r) :: ts, ⟨hds, hr, hts⟩, List.pairwise_cons.mpr ⟨hlater, hsorted⟩,
          fun hdict k hk => ?_, by simp [Tree.textEntries], rfl, ⟨hlen, hroom⟩,
          ⟨hmax, hlimits, hlimits'⟩, ?_, fun _ => htotal' (htotal hlt)⟩
        · have hle : prevKey ≤ key := List.not_lt.mp (horder hdict)
          rcases List.mem_cons.mp hk with rfl | hk
          · exact hle
          · exact List.le_trans hle (hlater k hk)
        · rw [Tree.itemsEntries]
          omega

/-- What a successful call of `decodeValue` has read. -/
theorem decodeValue_reads {fuel : Nat} {data rest : Bytes} {depth total total' : Nat} {v : Value}
    (h : decodeValue fuel data depth total = .ok (v, rest, total')) :
    ∃ r : Tree, r.Shaped ∧ data = r.text ++ rest ∧ r.value = v ∧ r.Limits depth ∧
      total' = total + r.items ∧ (total ≤ maxTotalItems → total' ≤ maxTotalItems) :=
  (decode_sound fuel).1 _ _ _ _ _ _ h

theorem decodeValue_sound {fuel : Nat} {data rest : Bytes} {depth total total' : Nat} {v : Value}
    (h : decodeValue fuel data depth total = .ok (v, rest, total')) :
    ∃ r : Tree, r.Shaped ∧ data = r.text ++ rest ∧ r.value = v := by
  obtain ⟨r, hr, hdata, hvalue, -⟩ := decodeValue_reads h
  exact ⟨r, hr, hdata, hvalue⟩

/-! ## Unambiguity -/

theorem lengthText_cons {ds : Bytes} {n : Nat} (h : LengthText ds n) :
    ∃ b t, ds = b :: t ∧ isDigit b = true := by
  obtain ⟨b, t, rfl⟩ := List.exists_cons_of_ne_nil h.1
  exact ⟨b, t, rfl, h.2.1 b List.mem_cons_self⟩

/-- A length-prefixed string ends where its length says. -/
theorem lengthText_append_inj {ds ds' s s' x x' : Bytes} (h : LengthText ds s.length)
    (h' : LengthText ds' s'.length)
    (heq : ds ++ byteColon :: (s ++ x) = ds' ++ byteColon :: (s' ++ x')) :
    ds = ds' ∧ s = s' ∧ x = x' := by
  have hfind : findColon (ds ++ byteColon :: (s ++ x)) = .ok (ds, s ++ x) :=
    findColon_eq_ok.mpr ⟨rfl, h.2.1⟩
  rw [heq, findColon_eq_ok.mpr ⟨rfl, h'.2.1⟩, Except.ok.injEq, Prod.mk.injEq] at hfind
  obtain ⟨rfl, hbody⟩ := hfind
  have hlen : s'.length = s.length := by rw [← h.2.2, ← h'.2.2]
  obtain ⟨rfl, rfl⟩ := List.append_inj hbody hlen
  exact ⟨rfl, rfl, rfl⟩

theorem intText_append_inj {t t' x x' : Bytes} (h : ∃ n, IntText t n) (h' : ∃ n, IntText t' n)
    (heq : t ++ byteE :: x = t' ++ byteE :: x') : t = t' ∧ x = x' := by
  obtain ⟨n, hn⟩ := h
  obtain ⟨n', hn'⟩ := h'
  have hfind : findEnd (t ++ byteE :: x) = some (t, x) :=
    findEnd_eq_some.mpr ⟨rfl, byteE_notMem_of_parseInt64 hn.2.2.2⟩
  rw [heq, findEnd_eq_some.mpr ⟨rfl, byteE_notMem_of_parseInt64 hn'.2.2.2⟩, Option.some_inj,
    Prod.mk.injEq] at hfind
  exact ⟨hfind.1.symm, hfind.2.symm⟩

namespace Tree

def kind : Tree → Nat
  | .str _ _ => 0
  | .int _ => 1
  | .list _ => 2
  | .dict _ => 3

/-- The kind of value `decodeValue` expects behind a first byte. -/
def leadKind (b : UInt8) : Nat :=
  if b = byteI then 1 else if b = byteL then 2 else if b = byteD then 3
  else if isDigit b then 0 else 4

theorem leadKind_of_isDigit {b : UInt8} (h : isDigit b = true) : leadKind b = 0 := by
  rw [leadKind, if_neg, if_neg, if_neg, if_pos h] <;> rintro rfl <;> exact absurd h (by decide)

theorem text_lead {r : Tree} (h : r.Shaped) : ∃ b bs, r.text = b :: bs ∧ leadKind b = r.kind := by
  cases r with
  | str ds s =>
    obtain ⟨b, t, rfl, hb⟩ := lengthText_cons h
    exact ⟨b, _, rfl, leadKind_of_isDigit hb⟩
  | int t => exact ⟨_, _, rfl, rfl⟩
  | list xs => exact ⟨_, _, rfl, rfl⟩
  | dict es => exact ⟨_, _, rfl, rfl⟩

theorem text_cons_ne_byteE {r : Tree} {b : UInt8} {bs : Bytes} (h : r.Shaped)
    (heq : r.text = b :: bs) : b ≠ byteE := by
  obtain ⟨b', bs', hb', hkind⟩ := text_lead h
  rintro rfl
  rw [heq] at hb'
  rw [← (List.cons.inj hb').1] at hkind
  rw [show leadKind byteE = 4 by decide] at hkind
  cases r <;> simp [kind] at hkind

theorem kind_eq_of_text_append_eq {r r' : Tree} {x x' : Bytes} (h : r.Shaped) (h' : r'.Shaped)
    (heq : r.text ++ x = r'.text ++ x') : r.kind = r'.kind := by
  obtain ⟨b, bs, hb, hkind⟩ := text_lead h
  obtain ⟨b', bs', hb', hkind'⟩ := text_lead h'
  rw [hb, hb'] at heq
  rw [← hkind, ← hkind', (List.cons.inj heq).1]

theorem text_length_pos {r : Tree} (h : r.Shaped) : 0 < r.text.length := by
  obtain ⟨b, bs, hb, -⟩ := text_lead h
  rw [hb]
  exact Nat.succ_pos _

/- The input determines the tree, and with it what is left of the input. -/
mutual
theorem text_append_inj : ∀ {r r' : Tree} {x x' : Bytes}, r.Shaped → r'.Shaped →
    r.text ++ x = r'.text ++ x' → r = r' ∧ x = x'
  | .str ds s, r', x, x', h, h', heq => by
    have hkind := kind_eq_of_text_append_eq h h' heq
    cases r' with
    | str ds' s' =>
      simp only [text, List.append_assoc, List.cons_append] at heq
      obtain ⟨rfl, rfl, rfl⟩ := lengthText_append_inj h h' heq
      exact ⟨rfl, rfl⟩
    | int | list | dict => simp [kind] at hkind
  | .int t, r', x, x', h, h', heq => by
    have hkind := kind_eq_of_text_append_eq h h' heq
    cases r' with
    | int t' =>
      simp only [text, List.append_assoc, List.cons_append, List.nil_append,
        List.cons.injEq, true_and] at heq
      obtain ⟨rfl, rfl⟩ := intText_append_inj h h' heq
      exact ⟨rfl, rfl⟩
    | str | list | dict => simp [kind] at hkind
  | .list rs, r', x, x', h, h', heq => by
    have hkind := kind_eq_of_text_append_eq h h' heq
    cases r' with
    | list rs' =>
      simp only [text, List.append_assoc, List.cons_append, List.nil_append,
        List.cons.injEq, true_and] at heq
      obtain ⟨rfl, rfl⟩ := textItems_append_inj h h' heq
      exact ⟨rfl, rfl⟩
    | str | int | dict => simp [kind] at hkind
  | .dict es, r', x, x', h, h', heq => by
    have hkind := kind_eq_of_text_append_eq h h' heq
    cases r' with
    | dict es' =>
      simp only [text, List.append_assoc, List.cons_append, List.nil_append,
        List.cons.injEq, true_and] at heq
      obtain ⟨rfl, rfl⟩ := textEntries_append_inj h.2 h'.2 heq
      exact ⟨rfl, rfl⟩
    | str | int | list => simp [kind] at hkind

theorem textItems_append_inj : ∀ {rs rs' : List Tree} {x x' : Bytes}, ShapedItems rs →
    ShapedItems rs' → textItems rs ++ byteE :: x = textItems rs' ++ byteE :: x' →
    rs = rs' ∧ x = x'
  | [], [], _, _, _, _, heq => ⟨rfl, (List.cons.inj heq).2⟩
  | [], r' :: rs', _, _, _, h', heq => by
    obtain ⟨b, bs, hb, -⟩ := text_lead h'.1
    simp only [textItems, hb, List.nil_append, List.cons_append] at heq
    exact absurd (List.cons.inj heq).1.symm (text_cons_ne_byteE h'.1 hb)
  | r :: rs, [], _, _, h, _, heq => by
    obtain ⟨b, bs, hb, -⟩ := text_lead h.1
    simp only [textItems, hb, List.nil_append, List.cons_append] at heq
    exact absurd (List.cons.inj heq).1 (text_cons_ne_byteE h.1 hb)
  | r :: rs, r' :: rs', x, x', h, h', heq => by
    simp only [textItems, List.append_assoc] at heq
    obtain ⟨rfl, htail⟩ := text_append_inj h.1 h'.1 heq
    obtain ⟨rfl, rfl⟩ := textItems_append_inj h.2 h'.2 htail
    exact ⟨rfl, rfl⟩

theorem textEntries_append_inj : ∀ {es es' : List (Bytes × Bytes × Tree)} {x x' : Bytes},
    ShapedEntries es → ShapedEntries es' →
    textEntries es ++ byteE :: x = textEntries es' ++ byteE :: x' → es = es' ∧ x = x'
  | [], [], _, _, _, _, heq => ⟨rfl, (List.cons.inj heq).2⟩
  | [], (ds', k', r') :: es', _, _, _, h', heq => by
    obtain ⟨b, t, rfl, hb⟩ := lengthText_cons h'.1
    simp only [textEntries, List.nil_append, List.cons_append] at heq
    exact absurd ((List.cons.inj heq).1 ▸ hb) (by decide)
  | (ds, k, r) :: es, [], _, _, h, _, heq => by
    obtain ⟨b, t, rfl, hb⟩ := lengthText_cons h.1
    simp only [textEntries, List.nil_append, List.cons_append] at heq
    exact absurd ((List.cons.inj heq).1 ▸ hb) (by decide)
  | (ds, k, r) :: es, (ds', k', r') :: es', x, x', h, h', heq => by
    simp only [textEntries, List.append_assoc, List.cons_append] at heq
    obtain ⟨rfl, rfl, hvalue⟩ := lengthText_append_inj h.1 h'.1 heq
    obtain ⟨rfl, htail⟩ := text_append_inj h.2.1 h'.2.1 hvalue
    obtain ⟨rfl, rfl⟩ := textEntries_append_inj h.2.2 h'.2.2 htail
    exact ⟨rfl, rfl⟩
end

theorem text_injective {r r' : Tree} (h : r.Shaped) (h' : r'.Shaped) (heq : r.text = r'.text) :
    r = r' := by
  have happend : r.text ++ [] = r'.text ++ [] := by rw [heq]
  exact (text_append_inj h h' happend).1

end Tree

/-! ## Canonical spelling -/

/-- `out` is never longer than `txt`, equals it when `C` holds, and is shorter
when `C` fails.  Read with `out` the encoder's text and `txt` the input's. -/
structure Tight (out txt : Bytes) (C : Prop) : Prop where
  le : out.length ≤ txt.length
  eq_of : C → out = txt
  of_length_eq : out.length = txt.length → C

namespace Tight

variable {a b c d : Bytes} {C D : Prop}

theorem refl (a : Bytes) : Tight a a True := ⟨Nat.le_refl _, fun _ => rfl, fun _ => trivial⟩

theorem congr (h : Tight a b C) (hCD : C ↔ D) : Tight a b D :=
  ⟨h.le, fun hD => h.eq_of (hCD.mpr hD), fun hl => hCD.mp (h.of_length_eq hl)⟩

theorem of_length_lt (h : a.length < b.length) (hC : ¬ C) : Tight a b C :=
  ⟨Nat.le_of_lt h, fun hC' => absurd hC' hC, fun heq => by omega⟩

theorem of_eq (h : a = b) (hC : C) : Tight a b C := ⟨by rw [h], fun _ => h, fun _ => hC⟩

theorem append (h₁ : Tight a b C) (h₂ : Tight c d D) : Tight (a ++ c) (b ++ d) (C ∧ D) := by
  have hle₁ := h₁.le
  have hle₂ := h₂.le
  refine ⟨?_, fun ⟨hC, hD⟩ => by rw [h₁.eq_of hC, h₂.eq_of hD], fun heq => ?_⟩
  · rw [List.length_append, List.length_append]
    omega
  · rw [List.length_append, List.length_append] at heq
    exact ⟨h₁.of_length_eq (by omega), h₂.of_length_eq (by omega)⟩

theorem trans (h₁ : Tight a b C) (h₂ : Tight b c D) : Tight a c (C ∧ D) := by
  have hle₁ := h₁.le
  have hle₂ := h₂.le
  refine ⟨by omega, fun ⟨hC, hD⟩ => by rw [h₁.eq_of hC, h₂.eq_of hD], fun heq => ?_⟩
  exact ⟨h₁.of_length_eq (by omega), h₂.of_length_eq (by omega)⟩

theorem eq_iff (h : Tight a b C) : a = b ↔ C :=
  ⟨fun heq => h.of_length_eq (by rw [heq]), h.eq_of⟩

/-- Brackets around both texts. -/
theorem bracket (h : Tight a b C) (x y : Bytes) : Tight (x ++ a ++ y) (x ++ b ++ y) C :=
  (((refl x).append h).append (refl y)).congr (by tauto)

end Tight

theorem encodeString_tight {ds s : Bytes} (h : LengthText ds s.length) :
    Tight (encodeString s) (ds ++ byteColon :: s) (NoLeadingZero ds) := by
  have hlen := natDigits_decimalValue_length h.1 h.2.1
  have hds : Tight (natDigits s.length) ds (NoLeadingZero ds) := by
    rw [← h.2.2]
    exact ⟨hlen.1, natDigits_decimalValue h.1 h.2.1, hlen.2.mp⟩
  exact (hds.append (Tight.refl (byteColon :: s))).congr (and_iff_left trivial)

theorem intDigits_natCast (k : Nat) : intDigits (k : Int) = natDigits k := rfl

theorem intDigits_neg {k : Nat} (h : k ≠ 0) : intDigits (-(k : Int)) = minusByte :: natDigits k := by
  obtain ⟨k, rfl⟩ := Nat.exists_eq_succ_of_ne_zero h
  rfl

/-- An accepted integer is spelled as the encoder spells it, or with a plus
sign. -/
theorem intDigits_tight {t : Bytes} {n : Int} (h : IntText t n) :
    Tight (intDigits n) t (t.head? ≠ some plusByte) := by
  obtain ⟨hzero, hneg, hnegz, hparse⟩ := h
  rcases parseInt64_eq_some.mp hparse with ⟨ds, k, rfl, hk, -, rfl⟩ | ⟨ds, k, rfl, hk, -, rfl⟩ |
    ⟨k, hk, -, rfl⟩
  · obtain ⟨hne, hd, rfl⟩ := parseDigits_eq_some.mp hk
    have hz : NoLeadingZero ds := by
      intro hhead
      by_contra hlen
      refine hnegz ⟨?_, rfl, ?_⟩
      · have := List.length_pos_iff.mpr hne
        rw [List.length_cons]
        omega
      · rw [← hhead]
        cases ds <;> rfl
    have hpos : decimalValue ds ≠ 0 := by
      intro h0
      have := natDigits_decimalValue hne hd hz
      rw [h0] at this
      exact hneg (by rw [← this]; rfl)
    refine Tight.of_eq ?_ (by simp [minusByte, plusByte])
    rw [intDigits_neg hpos, natDigits_decimalValue hne hd hz]
  · obtain ⟨hne, hd, rfl⟩ := parseDigits_eq_some.mp hk
    refine Tight.of_length_lt ?_ (by simp)
    rw [intDigits_natCast, List.length_cons]
    exact Nat.lt_succ_of_le (natDigits_decimalValue_length hne hd).1
  · obtain ⟨hne, hd, rfl⟩ := parseDigits_eq_some.mp hk
    have hz : NoLeadingZero t := by
      intro hhead
      by_contra hlen
      have := List.length_pos_iff.mpr hne
      exact hzero ⟨by omega, hhead⟩
    refine Tight.of_eq (natDigits_decimalValue hne hd hz) ?_
    obtain ⟨b, t, rfl⟩ := List.exists_cons_of_ne_nil hne
    intro hplus
    have := hd b List.mem_cons_self
    rw [Option.some_inj.mp hplus] at this
    exact absurd this (by decide)

/-- In a map whose keys are at most `k`, an entry for `k` can only be the last
one. -/
theorem Entries.eq_concat_of_mem {k : Bytes} {d : Entries} (hs : KeysSorted d)
    (hle : ∀ kv ∈ d, kv.1 ≤ k) (hmem : k ∈ d.map Prod.fst) :
    ∃ d₀ v, d = d₀ ++ [(k, v)] ∧ ∀ kv ∈ d₀, kv.1 < k := by
  induction d with
  | nil => exact absurd hmem List.not_mem_nil
  | cons e d ih =>
    obtain ⟨k₀, v₀⟩ := e
    have hcons := Entries.keysSorted_cons.mp hs
    by_cases hk : k = k₀
    · subst hk
      have hnil : d = [] := by
        rw [List.eq_nil_iff_forall_not_mem]
        intro kv hkv
        exact hle kv (List.mem_cons_of_mem _ hkv) (hcons.1 kv hkv)
      exact ⟨[], v₀, by rw [hnil]; rfl, by simp⟩
    · have hmem' : k ∈ d.map Prod.fst := by
        rcases List.mem_cons.mp hmem with h | h
        · exact absurd h hk
        · exact h
      obtain ⟨d₀, v, rfl, hlt⟩ :=
        ih hcons.2 (fun kv hkv => hle kv (List.mem_cons_of_mem _ hkv)) hmem'
      refine ⟨(k₀, v₀) :: d₀, v, rfl, fun kv hkv => ?_⟩
      rcases List.mem_cons.mp hkv with rfl | hkv
      · exact hcons.1 (k, v) (by simp)
      · exact hlt kv hkv

/-- Putting an entry behind the others lengthens the text by the entry, and by
less when the key was there. -/
theorem encodeEntries_put_tight {k : Bytes} {v : Value} {d : Entries} (hs : KeysSorted d)
    (hle : ∀ kv ∈ d, kv.1 ≤ k) :
    Tight (encodeEntries (Entries.put k v d))
      (encodeEntries d ++ (encodeString k ++ encodeValue v)) (k ∉ d.map Prod.fst) := by
  by_cases hmem : k ∈ d.map Prod.fst
  · obtain ⟨d₀, v', rfl, hlt⟩ := Entries.eq_concat_of_mem hs hle hmem
    refine Tight.of_length_lt ?_ (not_not.mpr hmem)
    rw [Entries.put_concat_self hlt, encodeEntries_append, encodeEntries_append]
    simp only [encodeEntries, encodeString, List.length_append, List.length_cons]
    omega
  · refine Tight.of_eq ?_ hmem
    have hlt : ∀ kv ∈ d, kv.1 < k := by
      intro kv hkv
      rcases List.le_iff_lt_or_eq.mp (hle kv hkv) with h | h
      · exact h
      · exact absurd (h ▸ List.mem_map_of_mem hkv) hmem
    rw [Entries.put_of_lt hlt, encodeEntries_append]
    simp [encodeEntries]

namespace Tree

mutual
theorem encodeValue_tight : ∀ {r : Tree}, r.Shaped →
    Tight (encodeValue r.value) r.text r.Canonical
  | .str ds s, h => encodeString_tight h
  | .int t, ⟨n, hn⟩ => by
    rw [value, hn.2.2.2]
    exact (intDigits_tight hn).bracket [byteI] [byteE]
  | .list rs, h => (encodeItems_tight h).bracket [byteL] [byteE]
  | .dict es, h => by
    have hes := (encodeEntries_tight (d := []) h.2 h.1 Entries.keysSorted_nil (by simp)).bracket
      [byteD] [byteE]
    exact hes.congr (by simp [Canonical])

theorem encodeItems_tight : ∀ {rs : List Tree}, ShapedItems rs →
    Tight (encodeItems (values rs)) (textItems rs) (CanonicalItems rs)
  | [], _ => Tight.refl []
  | _ :: _, h => (encodeValue_tight h.1).append (encodeItems_tight h.2)

theorem encodeEntries_tight : ∀ {es : List (Bytes × Bytes × Tree)} {d : Entries},
    ShapedEntries es → (keys es).Pairwise (· ≤ ·) → KeysSorted d →
    (∀ kv ∈ d, ∀ k ∈ keys es, kv.1 ≤ k) →
    Tight (encodeEntries (valueEntries es d)) (encodeEntries d ++ textEntries es)
      (((keys es).Nodup ∧ ∀ k ∈ keys es, k ∉ d.map Prod.fst) ∧ CanonicalEntries es)
  | [], d, _, _, _, _ => Tight.of_eq (by simp [valueEntries, textEntries])
      ⟨⟨List.nodup_nil, by simp [keys]⟩, trivial⟩
  | (ds, k, r) :: es, d, h, hpair, hs, hle => by
    have hcons := List.pairwise_cons.mp hpair
    have hput : ∀ kv ∈ Entries.put k r.value d, ∀ k' ∈ keys es, kv.1 ≤ k' := by
      intro kv hkv k' hk'
      rcases Entries.mem_keys_put.mp (List.mem_map_of_mem hkv) with hk | hk
      · exact hk ▸ hcons.1 k' hk'
      · obtain ⟨kv', hkv', heq⟩ := List.mem_map.mp hk
        exact heq ▸ hle kv' hkv' k' (List.mem_cons_of_mem _ hk')
    have hrest := encodeEntries_tight h.2.2 hcons.2 (Entries.keysSorted_put (v := r.value) hs) hput
    have hnew := encodeEntries_put_tight (v := r.value) hs
      fun kv hkv => hle kv hkv k List.mem_cons_self
    have hentry := (Tight.refl (encodeEntries d)).append
      ((encodeString_tight h.1).append (encodeValue_tight h.2.1))
    have hall := hrest.trans ((hnew.trans hentry).append (Tight.refl (textEntries es)))
    rw [valueEntries]
    simp only [textEntries, List.append_assoc] at hall ⊢
    refine hall.congr ?_
    have hkeys : (∀ k' ∈ keys es, k' ∉ (Entries.put k r.value d).map Prod.fst) ↔
        k ∉ keys es ∧ ∀ k' ∈ keys es, k' ∉ d.map Prod.fst := by
      simp only [Entries.mem_keys_put, not_or]
      constructor
      · exact fun hall => ⟨fun hk => (hall k hk).1 rfl, fun k' hk' => (hall k' hk').2⟩
      · rintro ⟨hk, hd⟩ k' hk'
        exact ⟨fun heq => hk (heq ▸ hk'), hd k' hk'⟩
    rw [hkeys]
    simp only [keys, List.map_cons, List.nodup_cons, List.mem_cons, forall_eq_or_imp,
      CanonicalEntries]
    tauto
end

/-- The encoder reproduces the input exactly when the input was canonical. -/
theorem encodeValue_value_iff {r : Tree} (h : r.Shaped) :
    encodeValue r.value = r.text ↔ r.Canonical :=
  (encodeValue_tight h).eq_iff

end Tree

end Stor.Bencode
