import Stor.Bencode.RoundTrip

/-!
# The grammar of bencoded values

The grammar as it is meant, over bytes and without a decoder: `Sentence depth items text`
says that `text` is one bencoded value that may stand at `depth` and has `items` list
items and dictionary entries in it, at all levels together.  Numerals are canonical, keys
do not decrease, and the limits of the decoder are conditions of the rules.

The decoder reads every sentence.  What else it reads is spelled with leading zeros in a
length or with a plus sign, or is a dictionary with repeated keys that has more entries
than the limit but not more keys: `inGrammar_iff`.
-/

namespace Stor.Bencode

open Lib

mutual
inductive Sentence : Nat → Nat → Bytes → Prop
  | int {depth : Nat} (n : Int) (hdepth : depth ≤ maxDecodeDepth) (hlo : -2 ^ 63 ≤ n)
      (hhi : n < 2 ^ 63) : Sentence depth 0 (byteI :: intDigits n ++ [byteE])
  | str {depth : Nat} (s : Bytes) (hdepth : depth ≤ maxDecodeDepth)
      (hlen : s.length ≤ maxStringLength) :
      Sentence depth 0 (natDigits s.length ++ byteColon :: s)
  | list {depth count items : Nat} {text : Bytes} (hdepth : depth ≤ maxDecodeDepth)
      (hcount : count ≤ maxCollectionSize) (hitems : Sequence (depth + 1) count items text) :
      Sentence depth items (byteL :: text ++ [byteE])
  | dict {depth items : Nat} {keys : List Bytes} {text : Bytes} (hdepth : depth ≤ maxDecodeDepth)
      (hcount : keys.length ≤ maxCollectionSize) (hsorted : keys.Pairwise (· ≤ ·))
      (hpairs : Pairs (depth + 1) keys items text) :
      Sentence depth items (byteD :: text ++ [byteE])

/-- `count` values one after the other. -/
inductive Sequence : Nat → Nat → Nat → Bytes → Prop
  | nil {depth : Nat} : Sequence depth 0 0 []
  | cons {depth count items items' : Nat} {text text' : Bytes}
      (hfirst : Sentence depth items text) (hrest : Sequence depth count items' text') :
      Sequence depth (count + 1) (1 + items + items') (text ++ text')

/-- Keys with their values. -/
inductive Pairs : Nat → List Bytes → Nat → Bytes → Prop
  | nil {depth : Nat} : Pairs depth [] 0 []
  | cons {depth items items' : Nat} (key : Bytes) {keys : List Bytes} {text text' : Bytes}
      (hkey : key.length ≤ maxStringLength) (hvalue : Sentence depth items text)
      (hrest : Pairs depth keys items' text') :
      Pairs depth (key :: keys) (1 + items + items')
        (natDigits key.length ++ byteColon :: key ++ text ++ text')
end

/-- The first `n` bytes are one bencoded value inside the limits. -/
def InGrammar (data : Bytes) (n : Nat) : Prop :=
  n ≤ data.length ∧ ∃ items ≤ maxTotalItems, Sentence 0 items (data.take n)

/-- `DecodeBytes` succeeds and reports `n` consumed bytes. -/
def Accepts (data : Bytes) (n : Nat) : Prop := ∃ v, decodeBytes data = .ok (v, n)

instance (data : Bytes) (n : Nat) : Decidable (Accepts data n) :=
  decidable_of_iff ((decodeBytes data).toOption.any fun p => p.2 = n) (by
    unfold Accepts
    cases decodeBytes data with
    | error e => simp [Except.toOption]
    | ok p => simp [Except.toOption, Prod.ext_iff])

namespace Tree

/- The spellings that the grammar has. -/
mutual
def Plain : Tree → Prop
  | .str ds _ => NoLeadingZero ds
  | .int t => t.head? ≠ some plusByte
  | .list xs => PlainItems xs
  | .dict es => (es.length ≤ maxCollectionSize ∨ (keys es).Nodup) ∧ PlainEntries es

def PlainItems : List Tree → Prop
  | [] => True
  | r :: rs => Plain r ∧ PlainItems rs

def PlainEntries : List (Bytes × Bytes × Tree) → Prop
  | [] => True
  | (ds, _, r) :: es => NoLeadingZero ds ∧ Plain r ∧ PlainEntries es
end

theorem keys_length (es : List (Bytes × Bytes × Tree)) : (keys es).length = es.length :=
  List.length_map _

end Tree

/-- However the first `n` bytes are read as a value, they are spelled as the grammar
spells it. -/
def PlainAt (data : Bytes) (n : Nat) : Prop :=
  ∀ r : Tree, r.Shaped → r.text = data.take n → r.Plain

/-! ## What the decoder accepts -/

theorem accepts_iff {data : Bytes} {n : Nat} :
    Accepts data n ↔ n ≤ data.length ∧ ∃ r : Tree, r.Shaped ∧ r.Limits 0 ∧
      r.items ≤ maxTotalItems ∧ r.text = data.take n := by
  constructor
  · rintro ⟨v, h⟩
    rw [decodeBytes] at h
    split at h
    · simp at h
    · next v' rest total hv =>
      obtain ⟨rfl, rfl⟩ := Prod.mk.inj (Except.ok.inj h)
      obtain ⟨r, hr, hdata, -, hlimits, rfl, htotal⟩ := decodeValue_reads hv
      have hitems := htotal (Nat.zero_le _)
      have hlen := congrArg List.length hdata
      rw [List.length_append] at hlen
      refine ⟨Nat.sub_le _ _, r, hr, hlimits, by omega, ?_⟩
      have hconsumed : data.length - rest.length = r.text.length := by omega
      rw [hconsumed, hdata, List.take_left]
  · rintro ⟨hn, r, hr, hlimits, hitems, htext⟩
    have hdata : data = r.text ++ data.drop n := by rw [htext, List.take_append_drop]
    have hlen : r.text.length = n := by rw [htext, List.length_take, Nat.min_eq_left hn]
    have hdecode := Tree.decodeValue_text (decodeFuel data) 0 0 (data.drop n) hr hlimits
      (by omega) (by rw [decodeFuel]; omega)
    rw [← hdata] at hdecode
    refine ⟨r.value, ?_⟩
    rw [decodeBytes, hdecode]
    simp only [List.length_drop, Except.ok.injEq, Prod.mk.injEq, true_and]
    omega

/-! ## Sentences are trees -/

mutual
theorem Sentence.tree : ∀ {depth items : Nat} {text : Bytes}, Sentence depth items text →
    ∃ r : Tree, r.Shaped ∧ r.Limits depth ∧ r.Plain ∧ r.items = items ∧ r.text = text
  | _, _, _, .int n hdepth hlo hhi => by
    have hn := intText_intDigits hlo hhi
    refine ⟨.int (intDigits n), ⟨n, hn⟩, hdepth, ?_, rfl, rfl⟩
    exact (intDigits_tight hn).of_length_eq rfl
  | _, _, _, .str s hdepth hlen =>
    ⟨.str (natDigits s.length) s, lengthText_natDigits _, ⟨hdepth, hlen⟩,
      natDigits_noLeadingZero _, rfl, rfl⟩
  | _, _, _, .list hdepth hcount hitems => by
    obtain ⟨rs, hs, hl, hp, rfl, rfl, rfl⟩ := Sequence.trees hitems
    exact ⟨.list rs, hs, ⟨hdepth, hcount, hl⟩, hp, rfl, rfl⟩
  | _, _, _, .dict hdepth hcount hsorted hpairs => by
    obtain ⟨es, hs, hl, hp, rfl, rfl, rfl⟩ := Pairs.trees hpairs
    rw [Tree.keys_length] at hcount
    refine ⟨.dict es, ⟨hsorted, hs⟩, ⟨hdepth, Tree.room_of_length ?_, hl⟩, ⟨.inl hcount, hp⟩,
      rfl, rfl⟩
    rwa [List.length_nil, Nat.zero_add]

theorem Sequence.trees : ∀ {depth count items : Nat} {text : Bytes},
    Sequence depth count items text → ∃ rs : List Tree, Tree.ShapedItems rs ∧
      Tree.LimitsItems rs depth ∧ Tree.PlainItems rs ∧ rs.length = count ∧
      Tree.itemsList rs = items ∧ Tree.textItems rs = text
  | _, _, _, _, .nil => ⟨[], trivial, trivial, trivial, rfl, rfl, rfl⟩
  | _, _, _, _, .cons hfirst hrest => by
    obtain ⟨r, hs, hl, hp, rfl, rfl⟩ := Sentence.tree hfirst
    obtain ⟨rs, hss, hls, hps, rfl, rfl, rfl⟩ := Sequence.trees hrest
    exact ⟨r :: rs, ⟨hs, hss⟩, ⟨hl, hls⟩, ⟨hp, hps⟩, rfl, rfl, rfl⟩

theorem Pairs.trees : ∀ {depth items : Nat} {keys : List Bytes} {text : Bytes},
    Pairs depth keys items text → ∃ es : List (Bytes × Bytes × Tree), Tree.ShapedEntries es ∧
      Tree.LimitsEntries es depth ∧ Tree.PlainEntries es ∧ Tree.keys es = keys ∧
      Tree.itemsEntries es = items ∧ Tree.textEntries es = text
  | _, _, _, _, .nil => ⟨[], trivial, trivial, trivial, rfl, rfl, rfl⟩
  | _, _, _, _, .cons key hkey hvalue hrest => by
    obtain ⟨r, hs, hl, hp, rfl, rfl⟩ := Sentence.tree hvalue
    obtain ⟨es, hss, hls, hps, rfl, rfl, rfl⟩ := Pairs.trees hrest
    exact ⟨(natDigits key.length, key, r) :: es, ⟨lengthText_natDigits _, hs, hss⟩,
      ⟨hkey, hl, hls⟩, ⟨natDigits_noLeadingZero _, hp, hps⟩, rfl, rfl, rfl⟩
end

/-! ## Plain trees are sentences -/

/-- A length without leading zeros is the canonical one. -/
theorem LengthText.eq_natDigits {ds : Bytes} {n : Nat} (h : LengthText ds n)
    (hzero : NoLeadingZero ds) : natDigits n = ds := by
  rw [← h.2.2]
  exact natDigits_decimalValue h.1 h.2.1 hzero

namespace Tree

/-- Entries with different keys are as many as the map takes. -/
theorem length_le_of_room {es : List (Bytes × Bytes × Tree)} {d : Entries} (hroom : Room es d)
    (hsorted : (keys es).Pairwise (· ≤ ·)) (hnodup : (keys es).Nodup)
    (hlt : ∀ kv ∈ d, ∀ k ∈ keys es, kv.1 < k) (hd : d.length ≤ maxCollectionSize) :
    d.length + es.length ≤ maxCollectionSize := by
  induction es generalizing d with
  | nil => exact hd
  | cons e es ih =>
    obtain ⟨ds, k, r⟩ := e
    obtain ⟨hfirst, hsorted⟩ := List.pairwise_cons.mp hsorted
    obtain ⟨hnew, hnodup⟩ := List.nodup_cons.mp hnodup
    have hput : Entries.put k r.value d = d ++ [(k, r.value)] :=
      Entries.put_of_lt fun kv hkv => hlt kv hkv k List.mem_cons_self
    have hrest := hroom.2
    rw [hput] at hrest
    have hbehind : ∀ kv ∈ d ++ [(k, r.value)], ∀ k' ∈ keys es, kv.1 < k' := by
      intro kv hkv k' hk'
      rcases List.mem_append.mp hkv with hkv | hkv
      · exact hlt kv hkv k' (List.mem_cons_of_mem _ hk')
      · rw [List.mem_singleton.mp hkv]
        rcases List.le_iff_lt_or_eq.mp (hfirst k' hk') with hless | heq
        · exact hless
        · exact absurd (heq ▸ hk') hnew
    have hlen := ih hrest hsorted hnodup hbehind (by
      rw [List.length_append, List.length_singleton]
      exact hroom.1)
    rw [List.length_append, List.length_singleton] at hlen
    rw [List.length_cons]
    omega

mutual
theorem sentence : ∀ {r : Tree} {depth : Nat}, r.Shaped → r.Limits depth → r.Plain →
    Sentence depth r.items r.text
  | .str ds s, _, hs, hl, hp => by
    rw [text, ← hs.eq_natDigits hp]
    exact .str s hl.1 hl.2
  | .int t, _, ⟨n, hn⟩, hl, hp => by
    obtain ⟨hlo, hhi⟩ := parseInt64_range hn.2.2.2
    rw [text, ← (intDigits_tight hn).eq_of hp]
    exact .int n hl hlo hhi
  | .list rs, _, hs, hl, hp => .list hl.1 hl.2.1 (sequence hs hl.2.2 hp)
  | .dict es, _, hs, hl, hp => by
    have hlen : es.length ≤ maxCollectionSize := by
      rcases hp.1 with hlen | hnodup
      · exact hlen
      · have := length_le_of_room hl.2.1 hs.1 hnodup nofun (Nat.zero_le _)
        rwa [List.length_nil, Nat.zero_add] at this
    exact .dict hl.1 (by rwa [keys_length]) hs.1 (pairs hs.2 hl.2.2 hp.2)

theorem sequence : ∀ {rs : List Tree} {depth : Nat}, ShapedItems rs → LimitsItems rs depth →
    PlainItems rs → Sequence depth rs.length (itemsList rs) (textItems rs)
  | [], _, _, _, _ => .nil
  | _ :: _, _, hs, hl, hp => .cons (sentence hs.1 hl.1 hp.1) (sequence hs.2 hl.2 hp.2)

theorem pairs : ∀ {es : List (Bytes × Bytes × Tree)} {depth : Nat}, ShapedEntries es →
    LimitsEntries es depth → PlainEntries es → Pairs depth (keys es) (itemsEntries es) (textEntries es)
  | [], _, _, _, _ => .nil
  | (ds, k, r) :: es, _, hs, hl, hp => by
    rw [textEntries, ← hs.1.eq_natDigits hp.1]
    exact .cons k hl.1 (sentence hs.2.1 hl.2.1 hp.2.1) (pairs hs.2.2 hl.2.2 hp.2.2)
end

end Tree

/-- A reading that is plain is the only one. -/
theorem plainAt_of_tree {data : Bytes} {n : Nat} {r : Tree} (hr : r.Shaped) (hp : r.Plain)
    (htext : r.text = data.take n) : PlainAt data n := by
  intro r' hr' htext'
  rw [Tree.text_injective hr' hr (htext'.trans htext.symm)]
  exact hp

/-- The decoder accepts the grammar, and beyond it only what is not spelled plainly. -/
theorem inGrammar_iff (data : Bytes) (n : Nat) :
    InGrammar data n ↔ Accepts data n ∧ PlainAt data n := by
  rw [accepts_iff]
  constructor
  · rintro ⟨hn, items, hitems, hsentence⟩
    obtain ⟨r, hr, hlimits, hp, rfl, htext⟩ := hsentence.tree
    exact ⟨⟨hn, r, hr, hlimits, hitems, htext⟩, plainAt_of_tree hr hp htext⟩
  · rintro ⟨⟨hn, r, hr, hlimits, hitems, htext⟩, hplain⟩
    refine ⟨hn, r.items, hitems, ?_⟩
    rw [← htext]
    exact Tree.sentence hr hlimits (hplain r hr htext)

/-- A dictionary with a repeated key, a negative number and a list, and two more bytes. -/
theorem inGrammar_repeatedKey : InGrammar (ascii "d1:ai-5e1:al0:ee!!") 16 := by
  refine (inGrammar_iff _ _).mpr ⟨by rw [ascii_ofList]; decide +kernel, ?_⟩
  have htree : (Tree.dict [([49], [97], .int [45, 53]), ([49], [97], .list [.str [48] []])]).Shaped := by
    decide +kernel
  refine plainAt_of_tree htree ?_ (by rw [ascii_ofList]; decide +kernel)
  have hminus : ([45, 53] : Bytes).head? ≠ some plusByte := by decide
  have hempty : NoLeadingZero [48] := by decide
  exact ⟨.inl (by decide), by decide, hminus, by decide, ⟨hempty, trivial⟩, trivial⟩

/-- A length with a leading zero is read. -/
theorem not_inGrammar_leadingZero :
    Accepts (ascii "03:abc") 6 ∧ ¬ InGrammar (ascii "03:abc") 6 := by
  rw [ascii_ofList]
  refine ⟨by decide +kernel, fun h => ?_⟩
  obtain ⟨-, items, -, hsentence⟩ := h
  obtain ⟨r, hr, -, hp, -, htext⟩ := hsentence.tree
  have hshape : (Tree.str [48, 51] [97, 98, 99]).Shaped := by decide +kernel
  have heq := Tree.text_injective hr hshape (htext.trans (by decide +kernel))
  rw [heq] at hp
  exact absurd (hp rfl) (by decide)

end Stor.Bencode
