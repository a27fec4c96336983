import Mathlib.Data.List.Basic
import Mathlib.Data.List.Nodup

/-! The URL-safe base64 alphabet without padding. Three octets are four digits; what is left over
at the end is two or three digits, whose unused bits are zero. The decoder takes a text exactly
when the encoder writes it. -/

namespace Base64Url

def alphabet : List Char :=
  ['A', 'B', 'C', 'D', 'E', 'F', 'G', 'H', 'I', 'J', 'K', 'L', 'M', 'N', 'O', 'P', 'Q', 'R', 'S',
   'T', 'U', 'V', 'W', 'X', 'Y', 'Z', 'a', 'b', 'c', 'd', 'e', 'f', 'g', 'h', 'i', 'j', 'k', 'l',
   'm', 'n', 'o', 'p', 'q', 'r', 's', 't', 'u', 'v', 'w', 'x', 'y', 'z', '0', '1', '2', '3', '4',
   '5', '6', '7', '8', '9', '-', '_']

def digit (n : ℕ) : Char := alphabet.getD n 'A'

def value (c : Char) : Option ℕ := alphabet.idxOf? c

def encode : List UInt8 → List Char
  | a :: b :: c :: rest =>
    digit (a.toNat / 4) :: digit (a.toNat % 4 * 16 + b.toNat / 16) ::
      digit (b.toNat % 16 * 4 + c.toNat / 64) :: digit (c.toNat % 64) :: encode rest
  | [a, b] =>
    [digit (a.toNat / 4), digit (a.toNat % 4 * 16 + b.toNat / 16), digit (b.toNat % 16 * 4)]
  | [a] => [digit (a.toNat / 4), digit (a.toNat % 4 * 16)]
  | [] => []

def octet (n : ℕ) : UInt8 := UInt8.ofNat n

def decode : List Char → Option (List UInt8)
  | w :: x :: y :: z :: rest => do
    let w ← value w
    let x ← value x
    let y ← value y
    let z ← value z
    let bytes ← decode rest
    return octet (w * 4 + x / 16) :: octet (x % 16 * 16 + y / 4) :: octet (y % 4 * 64 + z) :: bytes
  | [w, x, y] => do
    let w ← value w
    let x ← value x
    let y ← value y
    if y % 4 = 0 then return [octet (w * 4 + x / 16), octet (x % 16 * 16 + y / 4)] else none
  | [w, x] => do
    let w ← value w
    let x ← value x
    if x % 16 = 0 then return [octet (w * 4 + x / 16)] else none
  | [_] => none
  | [] => some []

section Equations

theorem digit_def (n : ℕ) : digit n = alphabet.getD n 'A' := rfl

theorem encode_three (a b c : UInt8) (rest : List UInt8) : encode (a :: b :: c :: rest) =
    digit (a.toNat / 4) :: digit (a.toNat % 4 * 16 + b.toNat / 16) ::
      digit (b.toNat % 16 * 4 + c.toNat / 64) :: digit (c.toNat % 64) :: encode rest := rfl

theorem encode_two (a b : UInt8) : encode [a, b] = [digit (a.toNat / 4),
    digit (a.toNat % 4 * 16 + b.toNat / 16), digit (b.toNat % 16 * 4)] := rfl

theorem encode_one (a : UInt8) :
    encode [a] = [digit (a.toNat / 4), digit (a.toNat % 4 * 16)] := rfl

theorem decode_four (w x y z : Char) (rest : List Char) : decode (w :: x :: y :: z :: rest) =
    (value w).bind fun w => (value x).bind fun x => (value y).bind fun y => (value z).bind fun z =>
      (decode rest).bind fun bytes => some (octet (w * 4 + x / 16) ::
        octet (x % 16 * 16 + y / 4) :: octet (y % 4 * 64 + z) :: bytes) := rfl

theorem decode_three (w x y : Char) : decode [w, x, y] =
    (value w).bind fun w => (value x).bind fun x => (value y).bind fun y =>
      if y % 4 = 0 then some [octet (w * 4 + x / 16), octet (x % 16 * 16 + y / 4)] else none := rfl

theorem decode_two (w x : Char) : decode [w, x] =
    (value w).bind fun w => (value x).bind fun x =>
      if x % 16 = 0 then some [octet (w * 4 + x / 16)] else none := rfl

end Equations

section Digits

theorem alphabet_nodup : alphabet.Nodup := by
  have codes : (alphabet.map Char.toNat).Nodup := by
    decide
  exact codes.of_map

theorem digit_eq {n : ℕ} (small : n < alphabet.length) : digit n = alphabet[n] := by
  rw [digit_def, List.getD_eq_getElem?_getD, List.getElem?_eq_getElem small, Option.getD_some]

theorem value_eq_some {c : Char} {n : ℕ} : value c = some n ↔ n < 64 ∧ digit n = c := by
  rw [value, List.idxOf?_eq_some_iff]
  constructor
  · rintro ⟨small, here, -⟩
    exact ⟨small, (digit_eq small).trans here⟩
  · rintro ⟨small, rfl⟩
    have inside : n < alphabet.length := small
    refine ⟨inside, (digit_eq inside).symm, fun j before => ?_⟩
    rw [digit_eq inside]
    exact fun same => Nat.ne_of_lt before (alphabet_nodup.getElem_inj_iff.mp same)

theorem digit_mem {n : ℕ} (small : n < 64) : digit n ∈ alphabet := by
  have inside : n < alphabet.length := small
  rw [digit_eq inside]
  exact List.getElem_mem inside

theorem value_digit {n : ℕ} (small : n < 64) : value (digit n) = some n :=
  value_eq_some.mpr ⟨small, rfl⟩

theorem octet_toNat {n : ℕ} {a : UInt8} (same : n = a.toNat) : octet n = a := by
  rw [octet, same, UInt8.ofNat_toNat]

theorem toNat_octet {n : ℕ} (small : n < 256) : (octet n).toNat = n :=
  UInt8.toNat_ofNat_of_lt small

end Digits

theorem decode_encode (bytes : List UInt8) : decode (encode bytes) = some bytes := by
  induction bytes using encode.induct with
  | case1 a b c rest ih =>
    have ha := a.toNat_lt
    have hb := b.toNat_lt
    have hc := c.toNat_lt
    rw [encode_three, decode_four, value_digit (show a.toNat / 4 < 64 by omega),
      value_digit (show a.toNat % 4 * 16 + b.toNat / 16 < 64 by omega),
      value_digit (show b.toNat % 16 * 4 + c.toNat / 64 < 64 by omega),
      value_digit (show c.toNat % 64 < 64 by omega), ih]
    simp only [Option.bind_some]
    rw [octet_toNat (a := a) (by omega), octet_toNat (a := b) (by omega),
      octet_toNat (a := c) (by omega)]
  | case2 a b =>
    have ha := a.toNat_lt
    have hb := b.toNat_lt
    rw [encode_two, decode_three, value_digit (show a.toNat / 4 < 64 by omega),
      value_digit (show a.toNat % 4 * 16 + b.toNat / 16 < 64 by omega),
      value_digit (show b.toNat % 16 * 4 < 64 by omega)]
    simp only [Option.bind_some]
    rw [if_pos (by omega), octet_toNat (a := a) (by omega), octet_toNat (a := b) (by omega)]
  | case3 a =>
    have ha := a.toNat_lt
    rw [encode_one, decode_two, value_digit (show a.toNat / 4 < 64 by omega),
      value_digit (show a.toNat % 4 * 16 < 64 by omega)]
    simp only [Option.bind_some]
    rw [if_pos (by omega), octet_toNat (a := a) (by omega)]
  | case4 => rfl

theorem encode_decode {cs : List Char} {bytes : List UInt8} (h : decode cs = some bytes) :
    encode bytes = cs := by
  induction cs using decode.induct generalizing bytes with
  | case1 w x y z rest ih =>
    simp only [decode_four, Option.bind_eq_some_iff, Option.some.injEq, value_eq_some] at h
    obtain ⟨w, ⟨hw, rfl⟩, x, ⟨hx, rfl⟩, y, ⟨hy, rfl⟩, z, ⟨hz, rfl⟩, bytes, later, rfl⟩ := h
    rw [encode_three, ih later, toNat_octet (by omega), toNat_octet (by omega),
      toNat_octet (by omega), show (w * 4 + x / 16) / 4 = w by omega,
      show (w * 4 + x / 16) % 4 * 16 + (x % 16 * 16 + y / 4) / 16 = x by omega,
      show (x % 16 * 16 + y / 4) % 16 * 4 + (y % 4 * 64 + z) / 64 = y by omega,
      show (y % 4 * 64 + z) % 64 = z by omega]
  | case2 w x y =>
    simp only [decode_three, Option.bind_eq_some_iff, value_eq_some] at h
    obtain ⟨w, ⟨hw, rfl⟩, x, ⟨hx, rfl⟩, y, ⟨hy, rfl⟩, h⟩ := h
    split_ifs at h with even
    cases h
    rw [encode_two, toNat_octet (by omega), toNat_octet (by omega),
      show (w * 4 + x / 16) / 4 = w by omega,
      show (w * 4 + x / 16) % 4 * 16 + (x % 16 * 16 + y / 4) / 16 = x by omega,
      show (x % 16 * 16 + y / 4) % 16 * 4 = y by omega]
  | case3 w x =>
    simp only [decode_two, Option.bind_eq_some_iff, value_eq_some] at h
    obtain ⟨w, ⟨hw, rfl⟩, x, ⟨hx, rfl⟩, h⟩ := h
    split_ifs at h with even
    cases h
    rw [encode_one, toNat_octet (by omega), show (w * 4 + x / 16) / 4 = w by omega,
      show (w * 4 + x / 16) % 4 * 16 = x by omega]
  | case4 => cases h
  | case5 =>
    cases h
    rfl

theorem decode_eq_some {cs : List Char} {bytes : List UInt8} :
    decode cs = some bytes ↔ cs = encode bytes :=
  ⟨fun h => (encode_decode h).symm, fun h => h ▸ decode_encode bytes⟩

theorem encode_mem (bytes : List UInt8) : ∀ c ∈ encode bytes, c ∈ alphabet := by
  induction bytes using encode.induct with
  | case1 a b c rest ih =>
    have := a.toNat_lt
    have := b.toNat_lt
    intro d hd
    simp only [encode_three, List.mem_cons] at hd
    rcases hd with rfl | rfl | rfl | rfl | later
    · exact digit_mem (by omega)
    · exact digit_mem (by omega)
    · have := c.toNat_lt
      exact digit_mem (by omega)
    · exact digit_mem (by omega)
    · exact ih d later
  | case2 a b =>
    have := a.toNat_lt
    have := b.toNat_lt
    intro d hd
    simp only [encode_two, List.mem_cons, List.not_mem_nil, or_false] at hd
    rcases hd with rfl | rfl | rfl <;> exact digit_mem (by omega)
  | case3 a =>
    have := a.toNat_lt
    intro d hd
    simp only [encode_one, List.mem_cons, List.not_mem_nil, or_false] at hd
    rcases hd with rfl | rfl <;> exact digit_mem (by omega)
  | case4 => exact fun d hd => absurd hd List.not_mem_nil

end Base64Url
