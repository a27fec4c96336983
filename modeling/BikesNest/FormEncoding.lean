import BikesNest.PercentCodec

/-! The body that a browser writes for the fields of a form: pairs of a name and a value between
`&` and around `=`, each octet plain, as `+` or as an escape. A lenient reader leaves an escape
that is not complete as it is. The fields of a form are read back as they were. -/

namespace FormEncoding

open PercentCodec

def ampersand : UInt8 := 38
def equals : UInt8 := 61

/-! ### The serializer -/

def kept (b : UInt8) : Bool :=
  (65 ≤ b && b ≤ 90) || (97 ≤ b && b ≤ 122) || (48 ≤ b && b ≤ 57) ||
    b == 42 || b == 45 || b == 46 || b == 95

def formByte (b : UInt8) : List UInt8 :=
  if kept b then [b]
  else if b = space then [plus]
  else [percent, upperDigit (b / 16), upperDigit (b % 16)]

def formText (s : String) : List UInt8 := (utf8 s).flatMap formByte

def pair (field : String × String) : List UInt8 :=
  formText field.1 ++ equals :: formText field.2

def serialize (fields : List (String × String)) : List UInt8 :=
  [ampersand].intercalate (fields.map pair)

/-! ### The reader -/

def percentDecode : List UInt8 → List UInt8
  | byte :: h :: l :: rest =>
    if byte = percent then
      match hexValue h, hexValue l with
      | some high, some low => (high * 16 + low) :: percentDecode rest
      | _, _ => byte :: percentDecode (h :: l :: rest)
    else byte :: percentDecode (h :: l :: rest)
  | byte :: rest => byte :: percentDecode rest
  | [] => []

def spaced (b : UInt8) : UInt8 := if b = plus then space else b

/-- What comes before the first `=`, and what comes after it, if there is one. -/
def splitPair (bytes : List UInt8) : List UInt8 × List UInt8 :=
  (bytes.takeWhile (· != equals), (bytes.dropWhile (· != equals)).tail)

/-- The octets of the names and values; pieces without an octet are no fields. -/
def parseBytes (bytes : List UInt8) : List (List UInt8 × List UInt8) :=
  (((bytes.splitOn ampersand).filter fun piece => !piece.isEmpty).map splitPair).map fun p =>
    (percentDecode (p.1.map spaced), percentDecode (p.2.map spaced))

section Octets

theorem upperDigit_plain {v : UInt8} (small : v < 16) : upperDigit v ≠ ampersand ∧
    upperDigit v ≠ equals ∧ upperDigit v ≠ plus ∧ upperDigit v < 128 :=
  forall_digit (P := fun v => upperDigit v ≠ ampersand ∧ upperDigit v ≠ equals ∧
    upperDigit v ≠ plus ∧ upperDigit v < 128) (by decide) small

/-- An escape is in ASCII, without a separator or a `+`. -/
theorem escape_plain (b : UInt8) : ∀ c ∈ [percent, upperDigit (b / 16), upperDigit (b % 16)],
    c ≠ ampersand ∧ c ≠ equals ∧ c ≠ plus ∧ c < 128 := by
  intro c hc
  simp only [List.mem_cons, List.not_mem_nil, or_false] at hc
  rcases hc with rfl | rfl | rfl
  · decide
  · exact upperDigit_plain (digit_small b).1
  · exact upperDigit_plain (digit_small b).2

/-- What is written for an octet is no separator. -/
theorem formByte_octets (b : UInt8) : ∀ c ∈ formByte b, c ≠ ampersand ∧ c ≠ equals := by
  intro c hc
  unfold formByte at hc
  split_ifs at hc with plain blank
  · rw [List.mem_singleton] at hc
    subst hc
    constructor <;>
      · rintro rfl
        exact absurd plain (by decide)
  · rw [List.mem_singleton] at hc
    subst hc
    decide
  · exact ⟨(escape_plain b c hc).1, (escape_plain b c hc).2.1⟩

theorem kept_plain {b : UInt8} (h : kept b = true) : b ≠ plus ∧ b ≠ percent ∧ b ≠ space := by
  refine ⟨?_, ?_, ?_⟩ <;>
    · rintro rfl
      exact absurd h (by decide)

theorem percentDecode_three (byte h l : UInt8) (rest : List UInt8) :
    percentDecode (byte :: h :: l :: rest) =
      if byte = percent then
        match hexValue h, hexValue l with
        | some high, some low => (high * 16 + low) :: percentDecode rest
        | _, _ => byte :: percentDecode (h :: l :: rest)
      else byte :: percentDecode (h :: l :: rest) := rfl

theorem percentDecode_cons {b : UInt8} (other : b ≠ percent) (rest : List UInt8) :
    percentDecode (b :: rest) = b :: percentDecode rest := by
  match rest with
  | [] => rfl
  | [_] => rfl
  | h :: l :: rest => rw [percentDecode_three, if_neg other]

theorem hexValue_upper (v : UInt8) : hexValue (upperDigit (v / 16)) = some (v / 16) ∧
    hexValue (upperDigit (v % 16)) = some (v % 16) :=
  ⟨hexValue_eq_some.mpr ⟨(digit_small v).1, .inr rfl⟩,
    hexValue_eq_some.mpr ⟨(digit_small v).2, .inr rfl⟩⟩

theorem octet_mul_add (v : UInt8) : v / 16 * 16 + v % 16 = v := by
  have := v.toNat_lt
  rw [← UInt8.toNat_inj, UInt8.toNat_add, UInt8.toNat_mul, UInt8.toNat_div, UInt8.toNat_mod]
  change (v.toNat / 16 * 16 % 256 + v.toNat % 16) % 256 = v.toNat
  omega

theorem percentDecode_escape (b : UInt8) (rest : List UInt8) :
    percentDecode (percent :: upperDigit (b / 16) :: upperDigit (b % 16) :: rest) =
      b :: percentDecode rest := by
  rw [percentDecode_three, if_pos rfl, (hexValue_upper b).1, (hexValue_upper b).2]
  exact congrArg (· :: percentDecode rest) (octet_mul_add b)

/-- A reader that knows no `+` reads a space as one. -/
theorem percentDecode_formByte (b : UInt8) (rest : List UInt8) :
    percentDecode (formByte b ++ rest) = (if b = space then plus else b) :: percentDecode rest := by
  unfold formByte
  split_ifs with plain blank
  · exact absurd blank (kept_plain plain).2.2
  · exact percentDecode_cons (kept_plain plain).2.1 rest
  · exact percentDecode_cons (by decide) rest
  · exact percentDecode_escape b rest

theorem percentDecode_spaced (b : UInt8) (rest : List UInt8) :
    percentDecode ((formByte b).map spaced ++ rest) = b :: percentDecode rest := by
  unfold formByte
  split_ifs with plain blank
  · rw [List.map_singleton, spaced, if_neg (kept_plain plain).1]
    exact percentDecode_cons (kept_plain plain).2.1 rest
  · rw [blank]
    exact percentDecode_cons (by decide) rest
  · have same : [percent, upperDigit (b / 16), upperDigit (b % 16)].map spaced =
        [percent, upperDigit (b / 16), upperDigit (b % 16)] := by
      simp only [List.map_cons, List.map_nil, spaced, (upperDigit_plain (digit_small b).1).2.2.1,
        (upperDigit_plain (digit_small b).2).2.2.1, if_false]
      rfl
    rw [same]
    exact percentDecode_escape b rest

end Octets

section Texts

theorem formText_octets (s : String) : ∀ c ∈ formText s, c ≠ ampersand ∧ c ≠ equals := by
  intro c hc
  obtain ⟨b, -, hc⟩ := List.mem_flatMap.mp hc
  exact formByte_octets b c hc

theorem utf8EncodeChar_large {c : Char} (large : 128 ≤ c.toNat) :
    ∀ b ∈ String.utf8EncodeChar c, 128 ≤ b.toNat := by
  change 128 ≤ c.val.toNat at large
  have octet : ∀ n : ℕ, 128 ≤ n → n < 256 → 128 ≤ (UInt8.ofNat n).toNat := by
    intro n low high
    rwa [UInt8.toNat_ofNat', Nat.mod_eq_of_lt high]
  unfold String.utf8EncodeChar
  rw [if_neg (by omega)]
  split_ifs <;> simp only [List.mem_cons, List.not_mem_nil, or_false, forall_eq_or_imp, forall_eq]
  · exact ⟨octet _ (by omega) (by omega), octet _ (by omega) (by omega)⟩
  · exact ⟨octet _ (by omega) (by omega), octet _ (by omega) (by omega),
      octet _ (by omega) (by omega)⟩
  · exact ⟨octet _ (by omega) (by omega), octet _ (by omega) (by omega),
      octet _ (by omega) (by omega), octet _ (by omega) (by omega)⟩

/-- The text with a `+` for each space. -/
def withPlus (s : String) : String :=
  String.ofList (s.toList.map fun c => if c = ' ' then '+' else c)

theorem utf8_withPlus (s : String) :
    utf8 (withPlus s) = (utf8 s).map fun b => if b = space then plus else b := by
  have whole : utf8 s = s.toList.flatMap String.utf8EncodeChar := by
    rw [← utf8_ofList, String.ofList_toList]
  rw [withPlus, utf8_ofList, whole, List.map_flatMap, List.flatMap_map]
  refine List.flatMap_congr fun c _ => ?_
  by_cases blank : c = ' '
  · rw [blank]
    decide
  · rw [if_neg blank]
    have other : ∀ b ∈ String.utf8EncodeChar c, (if b = space then plus else b) = b := by
      intro b hb
      refine if_neg ?_
      rintro rfl
      by_cases ascii : c.toNat < 128
      · rw [utf8EncodeChar_ascii ascii, List.mem_singleton] at hb
        have value := congrArg UInt8.toNat hb
        rw [UInt8.toNat_ofNat', Nat.mod_eq_of_lt (by omega)] at value
        exact blank (Char.toNat_inj.mp value.symm)
      · exact absurd (utf8EncodeChar_large (by omega) _ hb) (by decide)
    exact (List.map_congr_left other).trans (List.map_id _) |>.symm

/-- A text with neither spaces nor `+` comes only from itself. -/
theorem withPlus_eq {s t : String} (plain : ∀ c ∈ t.toList, c ≠ ' ' ∧ c ≠ '+') :
    withPlus s = t ↔ s = t := by
  have self : ∀ u : String, ' ' ∉ u.toList → withPlus u = u := by
    intro u none
    have other : ∀ c ∈ u.toList, (if c = ' ' then '+' else c) = c := by
      intro c hc
      refine if_neg ?_
      rintro rfl
      exact none hc
    rw [withPlus, List.map_congr_left other, List.map_id', String.ofList_toList]
  constructor
  · rintro rfl
    refine (self s fun blank => ?_).symm
    have written : '+' ∈ (withPlus s).toList := by
      rw [withPlus, String.toList_ofList]
      exact List.mem_map.mpr ⟨' ', blank, if_pos rfl⟩
    exact (plain '+' written).2 rfl
  · rintro rfl
    exact self s fun blank => (plain ' ' blank).1 rfl

/-- A reader that knows no `+` makes one of a space, and leaves everything else as it was. -/
theorem percentDecode_formText (s : String) : percentDecode (formText s) = utf8 (withPlus s) := by
  rw [formText, utf8_withPlus]
  induction utf8 s with
  | nil => rfl
  | cons b bytes ih => rw [List.flatMap_cons, percentDecode_formByte, ih, List.map_cons]

theorem percentDecode_formText_spaced (s : String) :
    percentDecode ((formText s).map spaced) = utf8 s := by
  rw [formText]
  induction utf8 s with
  | nil => rfl
  | cons b bytes ih => rw [List.flatMap_cons, List.map_append, percentDecode_spaced, ih]

/-- Different texts are written differently. -/
theorem formText_inj {s t : String} : formText s = formText t ↔ s = t := by
  constructor
  · intro same
    rw [← utf8_inj, ← percentDecode_formText_spaced s, same, percentDecode_formText_spaced]
  · rintro rfl
    rfl

theorem formText_kept {s : String} (plain : ∀ b ∈ utf8 s, kept b = true) :
    formText s = utf8 s := by
  rw [formText]
  generalize utf8 s = bytes at plain
  induction bytes with
  | nil => rfl
  | cons b bytes ih =>
    rw [List.flatMap_cons, ih fun c hc => plain c (List.mem_cons_of_mem b hc), formByte,
      if_pos (plain b List.mem_cons_self), List.singleton_append]

end Texts

section Fields

theorem ampersand_notMem_pair (field : String × String) : ampersand ∉ pair field := by
  intro h
  rw [pair, List.mem_append, List.mem_cons] at h
  rcases h with h | h | h
  · exact (formText_octets field.1 _ h).1 rfl
  · exact absurd h (by decide)
  · exact (formText_octets field.2 _ h).1 rfl

/-- The pieces of a written form are its fields; a form without fields has one empty piece. -/
theorem splitOn_serialize (fields : List (String × String)) :
    (serialize fields).splitOn ampersand = if fields = [] then [[]] else fields.map pair := by
  induction fields with
  | nil => rfl
  | cons f fields ih =>
    cases fields with
    | nil =>
      rw [if_neg (List.cons_ne_nil f [])]
      have single : serialize [f] = pair f := by simp [serialize]
      rw [single, List.splitOn_eq_singleton (ampersand_notMem_pair f), List.map_singleton]
    | cons g fields =>
      rw [if_neg (List.cons_ne_nil g fields)] at ih
      have step : serialize (f :: g :: fields) =
          pair f ++ ampersand :: serialize (g :: fields) := by
        simp [serialize]
      rw [step, List.splitOn_append_cons_self_of_not_mem (ampersand_notMem_pair f), ih,
        if_neg (List.cons_ne_nil f _)]
      rfl

theorem splitPair_append {name : List UInt8} (value : List UInt8)
    (first : ∀ c ∈ name, c ≠ equals) : splitPair (name ++ equals :: value) = (name, value) := by
  have before : ∀ c ∈ name, (c != equals) = true := fun c hc => bne_iff_ne.mpr (first c hc)
  rw [splitPair, List.takeWhile_append_of_pos before, List.dropWhile_append_of_pos before]
  simp

theorem splitPair_pair (field : String × String) :
    splitPair (pair field) = (formText field.1, formText field.2) :=
  splitPair_append _ fun c hc => (formText_octets field.1 c hc).2

theorem pair_ne_nil (field : String × String) : pair field ≠ [] := by
  simp [pair]

/-- The fields are read as they were written. -/
theorem parseBytes_serialize (fields : List (String × String)) :
    parseBytes (serialize fields) = fields.map fun f => (utf8 f.1, utf8 f.2) := by
  rw [parseBytes, splitOn_serialize]
  split
  · rename_i none
    subst none
    rfl
  · have all : (fields.map pair).filter (fun piece => !piece.isEmpty) = fields.map pair := by
      refine List.filter_eq_self.mpr fun piece hp => ?_
      obtain ⟨f, -, rfl⟩ := List.mem_map.mp hp
      simpa using pair_ne_nil f
    rw [all, List.map_map, List.map_map]
    refine List.map_congr_left fun f _ => ?_
    simp only [Function.comp_apply, splitPair_pair, percentDecode_formText_spaced]

end Fields

end FormEncoding
