import BikesNest.Outcome
import BikesNest.PercentCodec

/-! Parts of a text between two offsets that count octets, and the octet that a text spells in a
radix, as the standard library cuts and reads them. An offset inside a character bounds no part. -/

namespace TextSlices

open Outcome PercentCodec

/-- The offset is the end of a prefix of the characters. -/
def Boundary (s : String) (i : ℕ) : Prop :=
  ∃ front back : String, s = front ++ back ∧ front.utf8ByteSize = i

/-- `str::get(start..stop)` -/
def get (s : String) (start stop : ℕ) : Option String :=
  if h : ((⟨start⟩ : String.Pos.Raw).IsValid s ∧ (⟨stop⟩ : String.Pos.Raw).IsValid s) ∧
      start ≤ stop then
    some (s.extract ⟨⟨start⟩, h.1.1⟩ ⟨⟨stop⟩, h.1.2⟩)
  else none

/-- The text of octets below 128. -/
def ofAscii (bytes : List UInt8) : String :=
  String.ofList (bytes.map fun b => Char.ofNat b.toNat)

section Octets

theorem length_utf8 (s : String) : (utf8 s).length = s.utf8ByteSize := by
  rw [utf8, Array.length_toList]
  rfl

theorem utf8_append (s t : String) : utf8 (s ++ t) = utf8 s ++ utf8 t := by
  simp [utf8]

theorem utf8_ofAscii {bytes : List UInt8} (ascii : ∀ b ∈ bytes, b < 128) :
    utf8 (ofAscii bytes) = bytes := by
  have octet : ∀ b : UInt8, b < 128 → String.utf8EncodeChar (Char.ofNat b.toNat) = [b] := by
    intro b small
    rw [UInt8.lt_iff_toNat_lt] at small
    change b.toNat < 128 at small
    have value : (Char.ofNat b.toNat).toNat = b.toNat := by
      rw [Char.ofNat, dif_pos (.inl (by omega))]
      rfl
    rw [utf8EncodeChar_ascii (by omega), value, UInt8.ofNat_toNat]
  rw [ofAscii, utf8_ofList]
  induction bytes with
  | nil => rfl
  | cons b bytes ih =>
    rw [List.map_cons, List.flatMap_cons, octet b (ascii b List.mem_cons_self),
      ih fun c hc => ascii c (List.mem_cons_of_mem b hc), List.singleton_append]

theorem utf8_lt {s : String} (ascii : ∀ c ∈ s.toList, c.toNat < 128) : ∀ b ∈ utf8 s, b < 128 := by
  intro b hb
  rw [← String.ofList_toList (s := s), utf8_ofList, List.mem_flatMap] at hb
  obtain ⟨c, hc, hb⟩ := hb
  have small := ascii c hc
  rw [utf8EncodeChar_ascii small, List.mem_singleton] at hb
  rw [hb, UInt8.lt_iff_toNat_lt, UInt8.toNat_ofNat']
  change c.toNat % 256 < 128
  omega

theorem toList_of_ascii {s : String} (ascii : ∀ b ∈ utf8 s, b < 128) :
    s.toList = (utf8 s).map fun b => Char.ofNat b.toNat := by
  have same : s = ofAscii (utf8 s) := utf8_inj.mp (utf8_ofAscii ascii).symm
  conv_lhs => rw [same, ofAscii, String.toList_ofList]

theorem utf8_extract {s : String} (start stop : s.Pos) : utf8 (s.extract start stop) =
    ((utf8 s).drop start.offset.byteIdx).take (stop.offset.byteIdx - start.offset.byteIdx) := by
  simp [utf8, String.toByteArray_extract, ByteArray.data_extract, List.extract_eq_take_drop]

end Octets

section Boundaries

theorem valid_iff {s : String} {i : ℕ} : (⟨i⟩ : String.Pos.Raw).IsValid s ↔ Boundary s i := by
  rw [String.Pos.Raw.isValid_iff_exists_append]
  simp only [String.Pos.Raw.ext_iff, String.byteIdx_rawEndPos, Boundary, eq_comm (a := i)]

theorem boundary_zero (s : String) : Boundary s 0 := ⟨"", s, by simp, rfl⟩

/-- What comes before does not change where the characters end. -/
theorem boundary_append {front s : String} {i : ℕ} :
    Boundary (front ++ s) (front.utf8ByteSize + i) ↔ Boundary s i := by
  constructor
  · rintro ⟨a, b, joined, size⟩
    have chars := congrArg String.toList joined
    rw [String.toList_append, String.toList_append, List.append_eq_append_iff] at chars
    rcases chars with ⟨c, longer, rest⟩ | ⟨c, shorter, -⟩
    · obtain rfl : a = front ++ String.ofList c := by
        rw [← String.toList_inj, longer, String.toList_append, String.toList_ofList]
      obtain rfl : s = String.ofList c ++ b := by
        rw [← String.toList_inj, rest, String.toList_append, String.toList_ofList]
      rw [String.utf8ByteSize_append] at size
      exact ⟨_, b, rfl, by omega⟩
    · obtain rfl : front = a ++ String.ofList c := by
        rw [← String.toList_inj, shorter, String.toList_append, String.toList_ofList]
      rw [String.utf8ByteSize_append] at size
      obtain rfl : i = 0 := by omega
      exact boundary_zero s
  · rintro ⟨a, b, rfl, rfl⟩
    exact ⟨front ++ a, b, String.append_assoc.symm, String.utf8ByteSize_append⟩

/-- Octets below 128 are whole characters. -/
theorem boundary_of_ascii {s : String} {i : ℕ} (inside : i ≤ s.utf8ByteSize)
    (ascii : ∀ b ∈ (utf8 s).take i, b < 128) : Boundary s i := by
  rw [← valid_iff, String.Pos.Raw.isValid_iff_isValidUTF8_extract_zero]
  refine ⟨inside, ?_⟩
  have prefix_eq : s.toByteArray.extract 0 i = (ofAscii ((utf8 s).take i)).toByteArray := by
    have octets : utf8 (ofAscii ((utf8 s).take i)) = (utf8 s).take i := utf8_ofAscii ascii
    apply ByteArray.ext
    apply Array.toList_inj.mp
    rw [← utf8, octets, ByteArray.data_extract, utf8]
    simp
  rw [prefix_eq]
  exact String.isValidUTF8 _

end Boundaries

section Slices

theorem get_eq_none {s : String} {start stop : ℕ} : get s start stop = none ↔
    ¬ (Boundary s start ∧ Boundary s stop ∧ start ≤ stop) := by
  rw [get, ← valid_iff, ← valid_iff, ← and_assoc, dite_eq_right_iff]
  simp

/-- A part is what stands between a prefix and a suffix of the text. -/
theorem get_eq_some {s t : String} {start stop : ℕ} : get s start stop = some t ↔
    ∃ front back, s = front ++ t ++ back ∧ front.utf8ByteSize = start ∧
      (front ++ t).utf8ByteSize = stop := by
  constructor
  · intro h
    unfold get at h
    split at h
    · rename_i inside
      obtain ⟨⟨first, second⟩, le⟩ := inside
      obtain ⟨front, rest, rfl, rfl⟩ := valid_iff.mp first
      obtain ⟨i, rfl⟩ := Nat.exists_eq_add_of_le le
      obtain ⟨mid, back, rfl, rfl⟩ := boundary_append.mp (valid_iff.mp second)
      have same : t = mid := by
        rw [← utf8_inj, ← Option.some.inj h, utf8_extract]
        simp [utf8_append, ← length_utf8]
      subst same
      exact ⟨front, back, String.append_assoc.symm, rfl, String.utf8ByteSize_append⟩
    · cases h
  · rintro ⟨front, back, rfl, rfl, rfl⟩
    have first : Boundary (front ++ t ++ back) front.utf8ByteSize :=
      ⟨front, t ++ back, String.append_assoc, rfl⟩
    have second : Boundary (front ++ t ++ back) (front ++ t).utf8ByteSize := ⟨_, back, rfl, rfl⟩
    have le : front.utf8ByteSize ≤ (front ++ t).utf8ByteSize := by
      rw [String.utf8ByteSize_append]
      omega
    rw [get, dif_pos ⟨⟨valid_iff.mpr first, valid_iff.mpr second⟩, le⟩, Option.some.injEq,
      ← utf8_inj, utf8_extract]
    simp [utf8_append, ← length_utf8]

/-- Offsets shift with what comes before. -/
theorem get_append (front s : String) (start stop : ℕ) :
    get (front ++ s) (front.utf8ByteSize + start) (front.utf8ByteSize + stop) =
      get s start stop := by
  cases part : get s start stop with
  | none =>
    rw [get_eq_none] at part ⊢
    rwa [boundary_append, boundary_append, Nat.add_le_add_iff_left]
  | some t =>
    rw [get_eq_some] at part ⊢
    obtain ⟨a, b, rfl, rfl, rfl⟩ := part
    refine ⟨front ++ a, b, ?_, String.utf8ByteSize_append, ?_⟩
    · simp only [String.append_assoc]
    · rw [String.append_assoc, String.utf8ByteSize_append]

end Slices

/-! ### Octets in a radix -/

inductive IntErrorKind where
  | empty | invalidDigit | posOverflow
  deriving DecidableEq

def minus : UInt8 := 45

/-- `char::to_digit` -/
def toDigit (radix : ℕ) (b : UInt8) : Option ℕ :=
  (if 48 ≤ b ∧ b ≤ 57 then some (b.toNat - 48)
  else if 97 ≤ b ∧ b ≤ 122 then some (b.toNat - 97 + 10)
  else if 65 ≤ b ∧ b ≤ 90 then some (b.toNat - 65 + 10)
  else none).filter (· < radix)

def addDigit (radix : ℕ) (acc b : UInt8) : Except IntErrorKind UInt8 :=
  match toDigit radix b with
  | none => .error .invalidDigit
  | some d =>
    if acc.toNat * radix + d < 256 then .ok (UInt8.ofNat (acc.toNat * radix + d))
    else .error .posOverflow

/-- `u8::from_str_radix`, for a radix from 2 to 36. A sign may stand before the digits, which of an
unsigned number is a plus. -/
def fromStrRadix (src : String) (radix : ℕ) : Except IntErrorKind UInt8 :=
  match utf8 src with
  | [] => .error .empty
  | first :: rest =>
    if rest = [] ∧ (first = plus ∨ first = minus) then .error .invalidDigit
    else (if first = plus then rest else first :: rest).foldlM (addDigit radix) 0

/-- The two octets `x` and `y` are read as `v` in the radix 16. -/
def Pair (x y v : UInt8) : Prop :=
  HexDigit x (v / 16) ∧ HexDigit y (v % 16) ∨ x = plus ∧ HexDigit y v

section Parsing

theorem toDigit_sixteen (b : UInt8) : toDigit 16 b = (hexValue b).map UInt8.toNat :=
  forall_byte (P := fun b => toDigit 16 b = (hexValue b).map UInt8.toNat) (by decide +kernel) b

theorem addDigit_ok {acc b v : UInt8} : addDigit 16 acc b = .ok v ↔
    ∃ d, HexDigit b d ∧ v.toNat = acc.toNat * 16 + d.toNat := by
  simp only [addDigit, toDigit_sixteen, ← hexValue_eq_some]
  cases hexValue b with
  | none => simp
  | some d =>
    simp only [Option.map_some, Option.some.injEq, exists_eq_left']
    split
    · rename_i small
      rw [Except.ok.injEq, ← UInt8.toNat_inj, UInt8.toNat_ofNat', Nat.mod_eq_of_lt small]
      exact eq_comm
    · rename_i large
      have := v.toNat_lt
      constructor
      · intro h
        cases h
      · intro eq
        omega

theorem not_hexDigit_plus {v : UInt8} : ¬ HexDigit plus v := by
  rw [← hexValue_eq_some]
  have none : hexValue plus = none := by decide
  rw [none]
  exact nofun

theorem digit_lt {c v : UInt8} (h : HexDigit c v) : c < 128 := by
  obtain ⟨small, rfl | rfl⟩ := h
  · exact forall_digit (P := fun v => lowerDigit v < 128) (by decide) small
  · exact forall_digit (P := fun v => upperDigit v < 128) (by decide) small

theorem fromStrRadix_pair {src : String} {x y v : UInt8} (two : utf8 src = [x, y]) :
    fromStrRadix src 16 = .ok v ↔ Pair x y v := by
  have octet : ∀ h l : UInt8, h < 16 → l < 16 →
      (v.toNat = h.toNat * 16 + l.toNat ↔ h = v / 16 ∧ l = v % 16) := by
    intro h l high low
    rw [UInt8.lt_iff_toNat_lt] at high low
    simp only [← UInt8.toNat_inj, UInt8.toNat_div, UInt8.toNat_mod]
    change h.toNat < 16 at high
    change l.toNat < 16 at low
    change _ ↔ h.toNat = v.toNat / 16 ∧ l.toNat = v.toNat % 16
    omega
  have run : fromStrRadix src 16 =
      (if x = plus then [y] else [x, y]).foldlM (addDigit 16) 0 := by
    rw [fromStrRadix, two]
    simp
  rw [run, Pair]
  by_cases signed : x = plus
  · subst signed
    have single : [y].foldlM (addDigit 16) 0 = addDigit 16 0 y := by simp
    rw [if_pos rfl, single, addDigit_ok]
    simp [not_hexDigit_plus, UInt8.toNat_inj]
  · have double : [x, y].foldlM (addDigit 16) 0 =
        addDigit 16 0 x >>= fun acc => addDigit 16 acc y := by simp
    rw [if_neg signed, double]
    simp only [bind_ok, addDigit_ok]
    constructor
    · rintro ⟨acc, ⟨h, high, first⟩, l, low, second⟩
      have leading : acc = h := UInt8.toNat_inj.mp (by simpa using first)
      subst leading
      obtain ⟨rfl, rfl⟩ := (octet _ _ high.1 low.1).mp second
      exact .inl ⟨high, low⟩
    · rintro (⟨high, low⟩ | ⟨eq, -⟩)
      · have whole := (octet _ _ high.1 low.1).mpr ⟨rfl, rfl⟩
        exact ⟨v / 16, ⟨_, high, by simp⟩, _, low, whole⟩
      · exact absurd eq signed

end Parsing

end TextSlices
