import Mathlib.Data.List.Basic

/-! Percent encoding of UTF-8 texts, as the components of a form-encoded query use it: an octet is
written plainly, as `+` when it is a space, or as `%` and two hexadecimal digits of either case.
`Decodes` is the grammar; the decoder is proved to accept exactly its sentences. -/

namespace PercentCodec

def plus : UInt8 := 43
def percent : UInt8 := 37
def space : UInt8 := 32

/-- The octets of a text. -/
def utf8 (s : String) : List UInt8 := s.toByteArray.data.toList

/-- `String::from_utf8`. -/
def fromUtf8 (bytes : List UInt8) : Option String := String.fromUTF8? bytes.toByteArray

theorem fromUtf8_eq_some {bytes : List UInt8} {s : String} :
    fromUtf8 bytes = some s ↔ utf8 s = bytes := by
  have whole : bytes.toByteArray = s.toByteArray ↔ utf8 s = bytes := by
    rw [utf8, ← List.toByteArray_inj, eq_comm]
    exact Iff.of_eq (congrArg (· = _) (ByteArray.ext (by simp)))
  rw [← whole, fromUtf8, String.fromUTF8?]
  constructor
  · intro h
    split at h
    · exact congrArg String.toByteArray (Option.some.inj h)
    · cases h
  · intro h
    have valid : bytes.toByteArray.IsValidUTF8 := h ▸ s.isValidUTF8
    rw [dif_pos valid, Option.some.injEq, ← String.toByteArray_inj]
    exact h

theorem utf8_inj {s t : String} : utf8 s = utf8 t ↔ s = t := by
  rw [← fromUtf8_eq_some, fromUtf8_eq_some.mpr rfl, Option.some.injEq, eq_comm]

theorem utf8_ofList (cs : List Char) :
    utf8 (String.ofList cs) = cs.flatMap String.utf8EncodeChar := by
  simp [utf8, List.utf8Encode]

/-! ### The grammar -/

def lowerDigit (v : UInt8) : UInt8 := if v < 10 then 48 + v else 87 + v

def upperDigit (v : UInt8) : UInt8 := if v < 10 then 48 + v else 55 + v

/-- The octet `c` is a hexadecimal digit of value `v`. -/
def HexDigit (c v : UInt8) : Prop := v < 16 ∧ (c = lowerDigit v ∨ c = upperDigit v)

/-- The octets `raw` are a percent encoding of the octets after them. -/
inductive Decodes : List UInt8 → List UInt8 → Prop where
  | nil : Decodes [] []
  | plus {raw bytes} : Decodes raw bytes → Decodes (plus :: raw) (space :: bytes)
  | escape {h l v raw bytes} : HexDigit h (v / 16) → HexDigit l (v % 16) → Decodes raw bytes →
      Decodes (percent :: h :: l :: raw) (v :: bytes)
  | plain {b raw bytes} : b ≠ PercentCodec.plus → b ≠ percent → Decodes raw bytes →
      Decodes (b :: raw) (b :: bytes)

/-! ### The decoder -/

def hexValue (byte : UInt8) : Option UInt8 :=
  if 48 ≤ byte ∧ byte ≤ 57 then some (byte - 48)
  else if 97 ≤ byte ∧ byte ≤ 102 then some (byte - 97 + 10)
  else if 65 ≤ byte ∧ byte ≤ 70 then some (byte - 65 + 10)
  else none

/-- The loop of `decode_query_component` over the octets that are left. -/
def decodeBytes : List UInt8 → Option (List UInt8)
  | [] => some []
  | byte :: rest =>
    if byte = plus then (decodeBytes rest).map (space :: ·)
    else if byte = percent then
      match rest with
      | h :: l :: rest => do
        let high ← hexValue h
        let low ← hexValue l
        (decodeBytes rest).map ((high <<< 4 ||| low) :: ·)
      | _ => none
    else (decodeBytes rest).map (byte :: ·)

def decodeQueryComponent (raw : String) : Option String := (decodeBytes (utf8 raw)).bind fromUtf8

/-- A statement about all octets is checked on their values. -/
theorem forall_byte {P : UInt8 → Prop} (h : ∀ n : Fin 256, P (UInt8.ofNat n)) (b : UInt8) :
    P b := by
  have here := h ⟨b.toNat, b.toNat_lt⟩
  rwa [UInt8.ofNat_toNat] at here

theorem forall_digit {P : UInt8 → Prop} (h : ∀ n : Fin 16, P (UInt8.ofNat n)) {v : UInt8}
    (small : v < 16) : P v := by
  have here := h ⟨v.toNat, UInt8.lt_iff_toNat_lt.mp small⟩
  rwa [UInt8.ofNat_toNat] at here

section Digits

theorem hexValue_eq_some {c v : UInt8} : hexValue c = some v ↔ HexDigit c v := by
  constructor
  · have values : ∀ n : Fin 256, (hexValue (UInt8.ofNat n)).all fun v => decide (v < 16 ∧
        (UInt8.ofNat n = lowerDigit v ∨ UInt8.ofNat n = upperDigit v)) := by decide +kernel
    refine forall_byte (P := fun c => hexValue c = some v → HexDigit c v) (fun n h => ?_) c
    have here := values n
    rw [h] at here
    simpa [HexDigit] using here
  · rintro ⟨small, rfl | rfl⟩
    · exact forall_digit (P := fun v => hexValue (lowerDigit v) = some v) (by decide) small
    · exact forall_digit (P := fun v => hexValue (upperDigit v) = some v) (by decide) small

theorem digit_small (v : UInt8) : v / 16 < 16 ∧ v % 16 < 16 := by
  simp only [UInt8.lt_iff_toNat_lt, UInt8.toNat_div, UInt8.toNat_mod]
  have := v.toNat_lt
  change v.toNat / 16 < 16 ∧ v.toNat % 16 < 16
  omega

theorem octet_of_digits {high low : UInt8} (h : high < 16) (l : low < 16) :
    (high <<< 4 ||| low) / 16 = high ∧ (high <<< 4 ||| low) % 16 = low := by
  rw [UInt8.lt_iff_toNat_lt] at h l
  change high.toNat < 16 at h
  change low.toNat < 16 at l
  have whole : (high <<< 4 ||| low).toNat = high.toNat * 16 + low.toNat := by
    have shifted : (high <<< 4).toNat = high.toNat <<< 4 := by
      rw [UInt8.toNat_shiftLeft, Nat.shiftLeft_eq, Nat.shiftLeft_eq]
      change high.toNat * 16 % 256 = high.toNat * 16
      omega
    rw [UInt8.toNat_or, shifted, ← Nat.shiftLeft_add_eq_or_of_lt (i := 4) l, Nat.shiftLeft_eq]
  simp only [← UInt8.toNat_inj, UInt8.toNat_div, UInt8.toNat_mod, whole]
  change (high.toNat * 16 + low.toNat) / 16 = high.toNat ∧
    (high.toNat * 16 + low.toNat) % 16 = low.toNat
  omega

/-- Shift and or put the two digits of an octet together. -/
theorem digits_of_octet (v : UInt8) : (v / 16) <<< 4 ||| v % 16 = v := by
  obtain ⟨upper, lower⟩ := octet_of_digits (digit_small v).1 (digit_small v).2
  generalize (v / 16) <<< 4 ||| v % 16 = w at upper lower
  simp only [← UInt8.toNat_inj, UInt8.toNat_div, UInt8.toNat_mod] at upper lower ⊢
  change w.toNat / 16 = v.toNat / 16 at upper
  change w.toNat % 16 = v.toNat % 16 at lower
  omega

theorem digit_upper (v : UInt8) : HexDigit (upperDigit (v / 16)) (v / 16) ∧
    HexDigit (upperDigit (v % 16)) (v % 16) :=
  ⟨⟨(digit_small v).1, .inr rfl⟩, ⟨(digit_small v).2, .inr rfl⟩⟩

end Digits

section Decoding

theorem decodeBytes_of_decodes {raw bytes : List UInt8} (h : Decodes raw bytes) :
    decodeBytes raw = some bytes := by
  induction h with
  | nil => rfl
  | plus _ ih =>
    unfold decodeBytes
    rw [if_pos rfl, ih, Option.map_some]
  | escape high low _ ih =>
    unfold decodeBytes
    rw [if_neg (by decide), if_pos rfl]
    simp only [hexValue_eq_some.mpr high, hexValue_eq_some.mpr low, ih, Option.bind_eq_bind,
      Option.bind_some, Option.map_some, digits_of_octet]
  | plain notPlus notPercent _ ih =>
    unfold decodeBytes
    rw [if_neg notPlus, if_neg notPercent, ih, Option.map_some]

theorem decodes_of_decodeBytes {raw bytes : List UInt8} (h : decodeBytes raw = some bytes) :
    Decodes raw bytes := by
  fun_induction decodeBytes raw generalizing bytes with
  | case1 =>
    cases h
    exact .nil
  | case2 rest ih =>
    obtain ⟨bytes, decoded, rfl⟩ := Option.map_eq_some_iff.mp h
    exact .plus (ih decoded)
  | case3 _ h l rest ih =>
    simp only [Option.bind_eq_bind, Option.bind_eq_some_iff, Option.map_eq_some_iff] at h
    obtain ⟨high, first, low, second, bytes, decoded, rfl⟩ := h
    rw [hexValue_eq_some] at first second
    obtain ⟨upper, lower⟩ := octet_of_digits first.1 second.1
    refine .escape ?_ ?_ (ih decoded)
    · rwa [upper]
    · rwa [lower]
  | case4 => cases h
  | case5 byte rest notPlus notPercent ih =>
    obtain ⟨bytes, decoded, rfl⟩ := Option.map_eq_some_iff.mp h
    exact .plain notPlus notPercent (ih decoded)

theorem decodeBytes_eq_some {raw bytes : List UInt8} :
    decodeBytes raw = some bytes ↔ Decodes raw bytes :=
  ⟨decodes_of_decodeBytes, decodeBytes_of_decodes⟩

/-- A component is accepted exactly when it is a percent encoding of the UTF-8 octets of a text,
and it is read as that text. -/
theorem decodeQueryComponent_eq_some {raw s : String} :
    decodeQueryComponent raw = some s ↔ Decodes (utf8 raw) (utf8 s) := by
  rw [decodeQueryComponent, Option.bind_eq_some_iff]
  constructor
  · rintro ⟨bytes, decoded, text⟩
    rw [fromUtf8_eq_some] at text
    exact text ▸ decodeBytes_eq_some.mp decoded
  · intro h
    exact ⟨_, decodeBytes_eq_some.mpr h, fromUtf8_eq_some.mpr rfl⟩

end Decoding

/-! ### The encoder -/

def unreserved (b : UInt8) : Bool :=
  (65 ≤ b && b ≤ 90) || (97 ≤ b && b ≤ 122) || (48 ≤ b && b ≤ 57) ||
    b == 45 || b == 95 || b == 46 || b == 126

def encodeByte (b : UInt8) : List Char :=
  if unreserved b then [Char.ofNat b.toNat]
  else if b = space then ['+']
  else ['%', Char.ofNat (upperDigit (b / 16)).toNat, Char.ofNat (upperDigit (b % 16)).toNat]

def urlencode (s : String) : String := String.ofList ((utf8 s).flatMap encodeByte)

section Encoding

theorem utf8_encodeByte (b : UInt8) : (encodeByte b).flatMap String.utf8EncodeChar =
    if unreserved b then [b] else if b = space then [plus]
    else [percent, upperDigit (b / 16), upperDigit (b % 16)] :=
  forall_byte (P := fun b => (encodeByte b).flatMap String.utf8EncodeChar =
    if unreserved b then [b] else if b = space then [plus]
    else [percent, upperDigit (b / 16), upperDigit (b % 16)]) (by decide +kernel) b

theorem unreserved_plain {b : UInt8} (h : unreserved b = true) : b ≠ plus ∧ b ≠ percent := by
  constructor
  · rintro rfl
    exact absurd h (by decide)
  · rintro rfl
    exact absurd h (by decide)

/-- What is written for one octet is read as that octet, whatever comes after. -/
theorem encodeByte_decodes (b : UInt8) {raw bytes : List UInt8} (h : Decodes raw bytes) :
    Decodes ((encodeByte b).flatMap String.utf8EncodeChar ++ raw) (b :: bytes) := by
  rw [utf8_encodeByte]
  split_ifs with kept blank
  · exact .plain (unreserved_plain kept).1 (unreserved_plain kept).2 h
  · rw [blank]
    exact .plus h
  · exact .escape (digit_upper b).1 (digit_upper b).2 h

theorem urlencode_decodes (s : String) : Decodes (utf8 (urlencode s)) (utf8 s) := by
  have bytes : ∀ l : List UInt8,
      Decodes ((l.flatMap encodeByte).flatMap String.utf8EncodeChar) l := by
    intro l
    induction l with
    | nil => exact .nil
    | cons b l ih =>
      rw [List.flatMap_cons, List.flatMap_append]
      exact encodeByte_decodes b ih
  rw [urlencode, utf8_ofList]
  exact bytes _

/-- Every text survives the codec. -/
theorem decode_urlencode (s : String) : decodeQueryComponent (urlencode s) = some s :=
  decodeQueryComponent_eq_some.mpr (urlencode_decodes s)

theorem ofNat_ne {b : UInt8} {c : Char} (apart : b.toNat ≠ c.toNat) : Char.ofNat b.toNat ≠ c := by
  rintro rfl
  have valid : b.toNat.isValidChar := .inl (Nat.lt_trans b.toNat_lt (by decide))
  have value : (Char.ofNat b.toNat).toNat = b.toNat := by
    rw [Char.ofNat, dif_pos valid]
    rfl
  exact apart value.symm

theorem digit_separators {v : UInt8} (small : v < 16) :
    Char.ofNat (upperDigit v).toNat ≠ '&' ∧ Char.ofNat (upperDigit v).toNat ≠ '=' :=
  forall_digit (P := fun v => Char.ofNat (upperDigit v).toNat ≠ '&' ∧
    Char.ofNat (upperDigit v).toNat ≠ '=') (by decide) small

/-- The separators of a query are never written. -/
theorem urlencode_separators {s : String} {c : Char} (h : c ∈ (urlencode s).toList) :
    c ≠ '&' ∧ c ≠ '=' := by
  rw [urlencode, String.toList_ofList, List.mem_flatMap] at h
  obtain ⟨b, -, h⟩ := h
  unfold encodeByte at h
  split_ifs at h with kept blank
  · rw [List.mem_singleton] at h
    subst h
    constructor
    · refine ofNat_ne fun same => absurd kept ?_
      have octet : b = 38 := UInt8.toNat_inj.mp (same.trans rfl)
      rw [octet]
      decide
    · refine ofNat_ne fun same => absurd kept ?_
      have octet : b = 61 := UInt8.toNat_inj.mp (same.trans rfl)
      rw [octet]
      decide
  · rw [List.mem_singleton] at h
    subst h
    decide
  · simp only [List.mem_cons, List.not_mem_nil, or_false] at h
    rcases h with rfl | rfl | rfl
    · decide
    · exact digit_separators (digit_small b).1
    · exact digit_separators (digit_small b).2

theorem utf8EncodeChar_ascii {c : Char} (ascii : c.toNat < 128) :
    String.utf8EncodeChar c = [UInt8.ofNat c.toNat] := by
  unfold String.utf8EncodeChar
  exact if_pos (Nat.le_of_lt_succ ascii)

/-- A character of an unreserved octet is written as it is. -/
theorem encode_plain {c : Char} (ascii : c.toNat < 128)
    (kept : unreserved (UInt8.ofNat c.toNat) = true) :
    (String.utf8EncodeChar c).flatMap encodeByte = [c] := by
  have value : (UInt8.ofNat c.toNat).toNat = c.toNat := by
    rw [UInt8.toNat_ofNat', Nat.mod_eq_of_lt (by omega)]
  rw [utf8EncodeChar_ascii ascii, List.flatMap_singleton, encodeByte, if_pos kept, value, Char.ofNat_toNat]

theorem urlencode_eq_self {s : String}
    (h : ∀ c ∈ s.toList, c.toNat < 128 ∧ unreserved (UInt8.ofNat c.toNat) = true) :
    urlencode s = s := by
  have chars : ∀ cs : List Char,
      (∀ c ∈ cs, c.toNat < 128 ∧ unreserved (UInt8.ofNat c.toNat) = true) →
      (cs.flatMap String.utf8EncodeChar).flatMap encodeByte = cs := by
    intro cs
    induction cs with
    | nil => exact fun _ => rfl
    | cons c cs ih =>
      intro h
      rw [List.flatMap_cons, List.flatMap_append, ih fun d hd => h d (.tail _ hd),
        encode_plain (h c (.head _)).1 (h c (.head _)).2, List.singleton_append]
  rw [urlencode, ← String.ofList_toList (s := s), utf8_ofList, chars _ h]

end Encoding

end PercentCodec
