import BikesNest.ClientIp
import BikesNest.Credentials
import BikesNest.TextSlices

/-! The spelling of a session identity in its cookie. The encoder writes two lower-case digits for
each octet; the decoder cuts the text at every second octet and gives each piece to the integer
parser of the standard library, which knows upper-case digits and a sign. A header line is shown
as a text with one character for each byte. -/

namespace SessionCookies

open Parking Outcome PercentCodec TextSlices
open Credentials (splitOnce splitOnce_eq_some)

structure SessionId where
  bytes : Vector UInt8 32
  deriving DecidableEq

inductive Panic where
  | sliceInsideCharacter
  | lengthMismatch
  deriving DecidableEq

/-- `{b:02x}` -/
def hexOctet (b : UInt8) : String := String.ofList ((Nat.toDigits 16 b.toNat).leftpad 2 '0')

def bytesToHex (bytes : List UInt8) : String := bytes.foldl (fun s b => s ++ hexOctet b) ""

def SessionId.toHex (id : SessionId) : String := bytesToHex id.bytes.toList

/-- `&s[start..stop]` -/
def slice (s : String) (start stop : ℕ) : Except Panic String :=
  orFail (get s start stop) .sliceInsideCharacter

/-- The octets of the pairs with these numbers. Collecting into an option stops at the first pair
that is not a number, before the later ones are cut. -/
def collectPairs (s : String) : List ℕ → Except Panic (Option (List UInt8))
  | [] => .ok (some [])
  | i :: is => do
    let pair ← slice s (i * 2) (i * 2 + 2)
    match fromStrRadix pair 16 with
    | .error _ => pure none
    | .ok b => return (← collectPairs s is).map (b :: ·)

def copyFromSlice (bytes : List UInt8) : Except Panic (Vector UInt8 32) :=
  if h : bytes.length = 32 then .ok ⟨bytes.toArray, h⟩ else .error .lengthMismatch

def SessionId.fromHex (s : String) : Except Panic (Option SessionId) :=
  if s.utf8ByteSize ≠ 64 then .ok none
  else do
    match ← collectPairs s (List.range 32) with
    | none => pure none
    | some bytes => return some ⟨← copyFromSlice bytes⟩

def sessionCookie : String := "session_id"

/-- `cookie_value`: of the lines of the header, `get` gives the first. -/
def cookieValue (lines : List String) (name : String) : Option String := do
  let cookie ← lines.head?.bind ClientIp.toStr
  let pair ← ((cookie.toList.splitOn ';').filterMap (splitOnce '=')).find? fun kv =>
    decide (trim (String.ofList kv.1) = name)
  return trim (String.ofList pair.2)

/-- The identity for which `resolve_auth` asks the store. -/
def sessionOf (lines : List String) : Except Panic (Option SessionId) :=
  match cookieValue lines sessionCookie with
  | none => .ok none
  | some raw => SessionId.fromHex raw

/-- `set_session_cookie` -/
def setSessionCookie (id : SessionId) : String :=
  sessionCookie ++ "=" ++ id.toHex ++
    "; HttpOnly; Secure; SameSite=Lax; Path=/; Max-Age=2592000"

/-- What a browser sends back of a cookie that was set, without its attributes. -/
def returned (setCookie : String) : String :=
  String.ofList (setCookie.toList.takeWhile fun c => c != ';')

/-! ### The grammar -/

/-- The octets `raw` are pairs that the integer parser reads as the octets after them. -/
inductive Spells : List UInt8 → List UInt8 → Prop where
  | nil : Spells [] []
  | pair {x y v raw bytes} : Pair x y v → Spells raw bytes → Spells (x :: y :: raw) (v :: bytes)

/-- A digit of either case. -/
def isHexDigit (b : UInt8) : Bool :=
  (48 ≤ b && b ≤ 57) || (97 ≤ b && b ≤ 102) || (65 ≤ b && b ≤ 70)

def isLowerHex (b : UInt8) : Bool := (48 ≤ b && b ≤ 57) || (97 ≤ b && b ≤ 102)

/-- Pairs of two digits, or of a plus sign and a digit. -/
def readable : List UInt8 → Bool
  | [] => true
  | [_] => false
  | x :: y :: raw => (x == plus || isHexDigit x) && isHexDigit y && readable raw

/-- Thirty-two readable pairs, with a sign or an upper-case digit among them. -/
def Alias (s : String) : Prop :=
  s.utf8ByteSize = 64 ∧ readable (utf8 s) ∧ ∃ b ∈ utf8 s, isLowerHex b = false

/-- After readable pairs only, the next pair would end inside a character. -/
def Cut (s : String) : Prop :=
  s.utf8ByteSize = 64 ∧ ∃ k < 32, readable ((utf8 s).take (2 * k)) ∧ ¬ Boundary s (2 * k + 2)

/-- The decoder returns, and gives an identity exactly for the text that the encoder writes. -/
def ReadAsWritten (s : String) : Prop :=
  (∃ r, SessionId.fromHex s = .ok r) ∧
    ∀ id : SessionId, SessionId.fromHex s = .ok (some id) ↔ s = id.toHex

/-- The octet is written with decimal digits, of which the first is not zero. -/
def PlainOctet (b : UInt8) : Prop := 1 ≤ b / 16 ∧ b / 16 ≤ 9 ∧ b % 16 ≤ 9

instance (b : UInt8) : Decidable (PlainOctet b) := inferInstanceAs (Decidable (_ ∧ _ ∧ _))

section Grammar

theorem isHexDigit_iff {b : UInt8} : isHexDigit b = true ↔ ∃ v, HexDigit b v := by
  have same : isHexDigit b = (hexValue b).isSome := by
    unfold isHexDigit hexValue
    split_ifs <;> simp_all
  simp only [same, Option.isSome_iff_exists, hexValue_eq_some]

theorem readable_iff {raw : List UInt8} : readable raw = true ↔ ∃ bytes, Spells raw bytes := by
  fun_induction readable raw with
  | case1 => exact iff_of_true rfl ⟨[], .nil⟩
  | case2 => exact iff_of_false (by rintro ⟨⟩) (by rintro ⟨_, ⟨⟩⟩)
  | case3 x y raw ih =>
    simp only [Bool.and_eq_true, Bool.or_eq_true, beq_iff_eq, isHexDigit_iff, ih]
    constructor
    · rintro ⟨⟨first, l, low⟩, bytes, rest⟩
      rcases first with signed | ⟨h, high⟩
      · exact ⟨_, .pair (.inr ⟨signed, low⟩) rest⟩
      · obtain ⟨upper, lower⟩ := octet_of_digits high.1 low.1
        refine ⟨_, .pair (v := h <<< 4 ||| l) (.inl ⟨?_, ?_⟩) rest⟩
        · rwa [upper]
        · rwa [lower]
    · rintro ⟨_, read⟩
      cases read with
      | pair two rest =>
        rcases two with ⟨high, low⟩ | ⟨signed, low⟩
        · exact ⟨⟨.inr ⟨_, high⟩, _, low⟩, _, rest⟩
        · exact ⟨⟨.inl signed, _, low⟩, _, rest⟩

theorem length_spells {raw bytes : List UInt8} (h : Spells raw bytes) :
    raw.length = 2 * bytes.length := by
  induction h with
  | nil => rfl
  | pair _ _ ih =>
    simp only [List.length_cons, ih]
    omega

theorem octets_of_spells {raw bytes : List UInt8} (read : Spells raw bytes) :
    ∀ b ∈ raw, b = plus ∨ ∃ v, HexDigit b v := by
  induction read with
  | nil => exact fun b hb => absurd hb List.not_mem_nil
  | pair two _ ih =>
    rcases two with ⟨high, low⟩ | ⟨sign, low⟩
    · exact List.forall_mem_cons.mpr ⟨.inr ⟨_, high⟩, List.forall_mem_cons.mpr ⟨.inr ⟨_, low⟩, ih⟩⟩
    · exact List.forall_mem_cons.mpr ⟨.inl sign, List.forall_mem_cons.mpr ⟨.inr ⟨_, low⟩, ih⟩⟩

theorem spells_lt {raw bytes : List UInt8} (read : Spells raw bytes) : ∀ b ∈ raw, b < 128 := by
  intro b hb
  rcases octets_of_spells read b hb with rfl | ⟨v, digit⟩
  · decide
  · exact digit_lt digit

end Grammar

section Decoding

theorem slice_append (front s : String) (start stop : ℕ) :
    slice (front ++ s) (front.utf8ByteSize + start) (front.utf8ByteSize + stop) =
      slice s start stop := by
  rw [slice, get_append, slice]

/-- The pairs after the first one are those of the rest. -/
theorem collectPairs_append {pair s : String} (two : pair.utf8ByteSize = 2) (is : List ℕ) :
    collectPairs (pair ++ s) (is.map Nat.succ) = collectPairs s is := by
  induction is with
  | nil => rfl
  | cons i is ih =>
    have shifted := slice_append pair s (i * 2) (i * 2 + 2)
    rw [two] at shifted
    have start : i.succ * 2 = 2 + i * 2 := by omega
    rw [List.map_cons, collectPairs, collectPairs, ih, start, Nat.add_assoc, shifted]

theorem collectPairs_cut {s : String} (n : ℕ) (inside : ¬ Boundary s 2) :
    collectPairs s (List.range (n + 1)) = .error .sliceInsideCharacter := by
  have none : get s 0 2 = none := get_eq_none.mpr fun h => inside h.2.1
  rw [List.range_succ_eq_map, collectPairs, slice, Nat.zero_mul, Nat.zero_add, none]
  rfl

theorem collectPairs_whole {pair s : String} (n : ℕ) (two : pair.utf8ByteSize = 2) :
    collectPairs (pair ++ s) (List.range (n + 1)) =
      match fromStrRadix pair 16 with
      | .error _ => .ok none
      | .ok b => do return (← collectPairs s (List.range n)).map (b :: ·) := by
  have first : get (pair ++ s) 0 2 = some pair :=
    get_eq_some.mpr ⟨"", s, by simp, rfl, by simp [two]⟩
  rw [List.range_succ_eq_map, collectPairs, slice, Nat.zero_mul, Nat.zero_add, first,
    collectPairs_append two]
  rfl

/-- A text of at least two octets either has its second octet inside a character, or begins with a
text of two octets. -/
theorem boundary_two {s : String} (h : Boundary s 2) :
    ∃ pair rest x y, s = pair ++ rest ∧ utf8 pair = [x, y] ∧ pair.utf8ByteSize = 2 ∧
      utf8 s = x :: y :: utf8 rest := by
  obtain ⟨pair, rest, rfl, two⟩ := h
  obtain ⟨x, y, octets⟩ : ∃ x y, utf8 pair = [x, y] :=
    List.length_eq_two.mp ((length_utf8 pair).trans two)
  exact ⟨pair, rest, x, y, rfl, octets, two, by rw [utf8_append, octets]; rfl⟩

/-- Pairs that are read end at the end of a character. -/
theorem spells_boundary {s : String} {bytes : List UInt8} (size : 2 ≤ s.utf8ByteSize)
    (read : Spells (utf8 s) bytes) : Boundary s 2 :=
  boundary_of_ascii size fun b hb => spells_lt read b (List.mem_of_mem_take hb)

/-- The loop collects octets exactly when the text spells them. -/
theorem collectPairs_some {n : ℕ} {s : String} {bytes : List UInt8}
    (size : s.utf8ByteSize = 2 * n) :
    collectPairs s (List.range n) = .ok (some bytes) ↔ Spells (utf8 s) bytes := by
  induction n generalizing s bytes with
  | zero =>
    have empty : utf8 s = [] := List.eq_nil_of_length_eq_zero ((length_utf8 s).trans size)
    rw [empty]
    constructor
    · rintro ⟨⟩
      exact .nil
    · rintro ⟨⟩
      rfl
  | succ n ih =>
    by_cases inside : Boundary s 2
    · obtain ⟨pair, rest, x, y, rfl, octets, two, whole⟩ := boundary_two inside
      rw [String.utf8ByteSize_append] at size
      rw [collectPairs_whole n two, whole]
      cases parsed : fromStrRadix pair 16 with
      | error e =>
        refine iff_of_false (by simp) ?_
        rintro ⟨⟩
        rename_i v bytes read tail
        rw [(fromStrRadix_pair octets).mpr read] at parsed
        cases parsed
      | ok b =>
        have later : ∀ vs, collectPairs rest (List.range n) = .ok (some vs) ↔
            Spells (utf8 rest) vs := fun vs => ih (by omega)
        simp only [bind_ok, pure_ok]
        constructor
        · rintro ⟨r, collected, eq⟩
          obtain ⟨vs, rfl, rfl⟩ := Option.map_eq_some_iff.mp eq
          exact .pair ((fromStrRadix_pair octets).mp parsed) ((later vs).mp collected)
        · rintro ⟨⟩
          rename_i v vs read tail
          rw [(fromStrRadix_pair octets).mpr read] at parsed
          cases parsed
          exact ⟨some vs, (later vs).mpr tail, rfl⟩
    · rw [collectPairs_cut n inside]
      exact iff_of_false (by rintro ⟨⟩) fun read => inside (spells_boundary (by omega) read)

/-- The loop returns exactly when no pair that it comes to ends inside a character. -/
theorem collectPairs_returns {n : ℕ} {s : String} (size : s.utf8ByteSize = 2 * n) :
    (∃ r, collectPairs s (List.range n) = .ok r) ↔
      ∀ k < n, readable ((utf8 s).take (2 * k)) = true → Boundary s (2 * k + 2) := by
  induction n generalizing s with
  | zero => exact iff_of_true ⟨_, rfl⟩ fun k hk => absurd hk (Nat.not_lt_zero k)
  | succ n ih =>
    by_cases inside : Boundary s 2
    · obtain ⟨pair, rest, x, y, rfl, octets, two, whole⟩ := boundary_two inside
      rw [String.utf8ByteSize_append] at size
      have shift : ∀ k, Boundary (pair ++ rest) (2 * (k + 1) + 2) ↔
          Boundary rest (2 * k + 2) := fun k => by
        have offset : 2 * (k + 1) + 2 = pair.utf8ByteSize + (2 * k + 2) := by omega
        rw [offset, boundary_append]
      have taken : ∀ k, (utf8 (pair ++ rest)).take (2 * (k + 1)) =
          x :: y :: (utf8 rest).take (2 * k) := fun k => by
        rw [whole]
        rfl
      rw [collectPairs_whole n two, Nat.forall_lt_succ_left]
      simp only [taken, shift]
      cases parsed : fromStrRadix pair 16 with
      | error e =>
        refine iff_of_true ⟨_, rfl⟩ ⟨fun _ => inside, fun k _ read => ?_⟩
        obtain ⟨_, ⟨⟩⟩ := readable_iff.mp read
        rename_i v vs first _
        rw [(fromStrRadix_pair octets).mpr first] at parsed
        cases parsed
      | ok b =>
        have first : Pair x y b := (fromStrRadix_pair octets).mp parsed
        have prefixed : ∀ raw, readable (x :: y :: raw) = readable raw := fun raw => by
          rw [Bool.eq_iff_iff, readable_iff, readable_iff]
          constructor
          · rintro ⟨_, ⟨⟩⟩
            exact ⟨_, ‹_›⟩
          · rintro ⟨vs, read⟩
            exact ⟨_, .pair first read⟩
        simp only [prefixed, ← ih (show rest.utf8ByteSize = 2 * n by omega), bind_ok, pure_ok]
        constructor
        · rintro ⟨_, r, collected, -⟩
          exact ⟨fun _ => inside, r, collected⟩
        · rintro ⟨-, r, collected⟩
          exact ⟨_, r, collected, rfl⟩
    · rw [collectPairs_cut n inside]
      refine iff_of_false (by rintro ⟨_, ⟨⟩⟩) fun all => inside ?_
      exact all 0 (Nat.succ_pos n) rfl

theorem copyFromSlice_ok {bytes : List UInt8} {arr : Vector UInt8 32} :
    copyFromSlice bytes = .ok arr ↔ arr.toList = bytes := by
  unfold copyFromSlice
  split
  · rw [Except.ok.injEq, ← Vector.toList_inj]
    exact eq_comm
  · rename_i other
    refine iff_of_false (by rintro ⟨⟩) ?_
    rintro rfl
    exact other arr.length_toList

/-- The decoder accepts the thirty-two pairs that spell the identity, and nothing else. -/
theorem fromHex_some {s : String} {id : SessionId} :
    SessionId.fromHex s = .ok (some id) ↔ Spells (utf8 s) id.bytes.toList := by
  unfold SessionId.fromHex
  split
  · rename_i other
    refine iff_of_false (by simp) fun read => other ?_
    rw [← length_utf8, length_spells read, Vector.length_toList]
  · rename_i size
    rw [← collectPairs_some (n := 32) (not_not.mp size), bind_ok]
    constructor
    · rintro ⟨r, collected, rest⟩
      cases r with
      | none => cases rest
      | some bytes =>
        simp only [bind_ok, copyFromSlice_ok, pure_ok, Option.some.injEq] at rest
        obtain ⟨arr, rfl, rfl⟩ := rest
        exact collected
    · intro collected
      refine ⟨_, collected, ?_⟩
      simp only [bind_ok, copyFromSlice_ok, pure_ok, Option.some.injEq]
      exact ⟨id.bytes, rfl, rfl⟩

/-- Collected octets fill the array, so that only a slice can panic. -/
theorem fromHex_returns {s : String} : (∃ r, SessionId.fromHex s = .ok r) ↔ ¬ Cut s := by
  by_cases size : s.utf8ByteSize = 64
  · have loop := collectPairs_returns (n := 32) size
    have cut : ¬ Cut s ↔ ∀ k < 32, readable ((utf8 s).take (2 * k)) = true →
        Boundary s (2 * k + 2) := by
      simp only [Cut, size, true_and, not_exists, not_and, not_not]
    rw [cut, ← loop, SessionId.fromHex, if_neg (not_not.mpr size)]
    simp only [bind_ok]
    constructor
    · rintro ⟨_, r, collected, -⟩
      exact ⟨r, collected⟩
    · rintro ⟨r, collected⟩
      cases r with
      | none => exact ⟨none, none, collected, rfl⟩
      | some bytes =>
        have full : bytes.length = 32 := by
          have length := length_spells ((collectPairs_some size).mp collected)
          rw [length_utf8, size] at length
          omega
        refine ⟨some ⟨⟨bytes.toArray, full⟩⟩, some bytes, collected, ?_⟩
        simp only [bind_ok, copyFromSlice_ok, pure_ok, Option.some.injEq]
        exact ⟨⟨bytes.toArray, full⟩, rfl, rfl⟩
  · rw [SessionId.fromHex, if_pos size]
    exact iff_of_true ⟨_, rfl⟩ fun cut => size cut.1

end Decoding

section Digits

variable {v : UInt8}

theorem lowerDigit_lower (small : v < 16) : isLowerHex (lowerDigit v) = true :=
  forall_digit (P := fun v => isLowerHex (lowerDigit v) = true) (by decide) small

theorem upperDigit_eq_iff (small : v < 16) : upperDigit v = lowerDigit v ↔ v ≤ 9 :=
  forall_digit (P := fun v => upperDigit v = lowerDigit v ↔ v ≤ 9) (by decide) small

theorem upperDigit_lower (small : v < 16) (lower : isLowerHex (upperDigit v) = true) :
    upperDigit v = lowerDigit v :=
  forall_digit (P := fun v => isLowerHex (upperDigit v) = true → upperDigit v = lowerDigit v)
    (by decide) small lower

/-- A sign can stand for a leading zero. -/
theorem leading_eq_iff (small : v < 16) :
    (if v = 0 then plus else upperDigit v) = lowerDigit v ↔ 1 ≤ v ∧ v ≤ 9 :=
  forall_digit (P := fun v => (if v = 0 then plus else upperDigit v) = lowerDigit v ↔
    1 ≤ v ∧ v ≤ 9) (by decide) small

theorem isHexDigit_of_lower {b : UInt8} (lower : isLowerHex b = true) : isHexDigit b = true := by
  rw [isHexDigit, ← isLowerHex, lower, Bool.true_or]

end Digits

section Encoding

/-- The octets written for one octet. -/
def lowerPair (b : UInt8) : List UInt8 := [lowerDigit (b / 16), lowerDigit (b % 16)]

theorem utf8_toHex (id : SessionId) : utf8 id.toHex = id.bytes.toList.flatMap lowerPair := by
  have octet : ∀ b : UInt8, ((Nat.toDigits 16 b.toNat).leftpad 2 '0').flatMap
      String.utf8EncodeChar = lowerPair b := forall_byte (by decide +kernel)
  -- The loop appends to what has been written before.
  have general : ∀ (bytes : List UInt8) (s : String),
      utf8 (bytes.foldl (fun s b => s ++ hexOctet b) s) = utf8 s ++ bytes.flatMap lowerPair := by
    intro bytes
    induction bytes with
    | nil => simp
    | cons b bytes ih =>
      intro s
      rw [List.foldl_cons, ih, utf8_append, hexOctet, utf8_ofList, octet, List.flatMap_cons,
        List.append_assoc]
  exact general _ ""

theorem spells_lower (bytes : List UInt8) : Spells (bytes.flatMap lowerPair) bytes := by
  induction bytes with
  | nil => exact .nil
  | cons b bytes ih =>
    obtain ⟨high, low⟩ := digit_small b
    exact .pair (.inl ⟨⟨high, .inl rfl⟩, low, .inl rfl⟩) ih

theorem fromHex_toHex (id : SessionId) : SessionId.fromHex id.toHex = .ok (some id) := by
  rw [fromHex_some, utf8_toHex]
  exact spells_lower _

theorem lower_digit {c v : UInt8} (h : HexDigit c v) (lower : isLowerHex c = true) :
    c = lowerDigit v := by
  rcases h with ⟨small, rfl | rfl⟩
  · rfl
  · exact upperDigit_lower small lower

/-- Of the texts that spell the octets, the encoder's is the one in lower-case digits. -/
theorem spells_lower_unique {raw bytes : List UInt8} (read : Spells raw bytes)
    (lower : ∀ b ∈ raw, isLowerHex b = true) : raw = bytes.flatMap lowerPair := by
  induction read with
  | nil => rfl
  | @pair x y v raw bytes two _ ih =>
    have rest := ih fun b hb => lower b (.tail _ (.tail _ hb))
    have first := lower x (.head _)
    have second := lower y (.tail _ (.head _))
    rcases two with ⟨high, low⟩ | ⟨rfl, -⟩
    · rw [List.flatMap_cons, ← rest, lowerPair, ← lower_digit high first, ← lower_digit low second]
      rfl
    · exact absurd first (by decide)

theorem toHex_lower (id : SessionId) : ∀ b ∈ utf8 id.toHex, isLowerHex b = true := by
  intro c hc
  rw [utf8_toHex, List.mem_flatMap] at hc
  obtain ⟨b, -, hb⟩ := hc
  rcases List.mem_pair.mp hb with rfl | rfl
  · exact lowerDigit_lower (digit_small b).1
  · exact lowerDigit_lower (digit_small b).2

theorem toHex_of_spells {s : String} {id : SessionId} (read : Spells (utf8 s) id.bytes.toList)
    (lower : ∀ b ∈ utf8 s, isLowerHex b = true) : s = id.toHex := by
  rw [← utf8_inj, utf8_toHex]
  exact spells_lower_unique read lower

/-- Thirty-two pairs spell an identity. -/
theorem exists_spelled {s : String} (size : s.utf8ByteSize = 64) (pairs : readable (utf8 s) = true) :
    ∃ id : SessionId, Spells (utf8 s) id.bytes.toList := by
  obtain ⟨bytes, read⟩ := readable_iff.mp pairs
  have full : bytes.length = 32 := by
    have length := length_spells read
    rw [length_utf8, size] at length
    omega
  exact ⟨⟨⟨bytes.toArray, full⟩⟩, read⟩

theorem readable_of_lower {raw : List UInt8} (even : raw.length % 2 = 0)
    (lower : ∀ b ∈ raw, isLowerHex b = true) : readable raw = true := by
  fun_induction readable raw with
  | case1 => rfl
  | case2 => simp at even
  | case3 x y raw ih =>
    have rest := ih (by simp only [List.length_cons] at even; omega) fun b hb =>
      lower b (.tail _ (.tail _ hb))
    have first := isHexDigit_of_lower (lower x (.head _))
    have second := isHexDigit_of_lower (lower y (.tail _ (.head _)))
    rw [first, second, rest, Bool.or_true]
    rfl

/-- The encoder writes all the texts of sixty-four lower-case digits. -/
theorem toHex_image (s : String) : (∃ id : SessionId, s = id.toHex) ↔
    s.utf8ByteSize = 64 ∧ ∀ b ∈ utf8 s, isLowerHex b = true := by
  constructor
  · rintro ⟨id, rfl⟩
    refine ⟨?_, toHex_lower id⟩
    rw [← length_utf8, utf8_toHex, length_spells (spells_lower _), Vector.length_toList]
  · rintro ⟨size, lower⟩
    have even : (utf8 s).length % 2 = 0 := by rw [length_utf8, size]
    obtain ⟨id, read⟩ := exists_spelled size (readable_of_lower even lower)
    exact ⟨id, toHex_of_spells read lower⟩

end Encoding

section Spellings

/-- A text is read as it should be unless it is another spelling of an identity or is cut inside a
character. -/
theorem readAsWritten_iff (s : String) : ReadAsWritten s ↔ ¬ Alias s ∧ ¬ Cut s := by
  simp only [ReadAsWritten, fromHex_returns, fromHex_some]
  constructor
  · rintro ⟨returns, written⟩
    refine ⟨?_, returns⟩
    rintro ⟨size, pairs, b, hb, other⟩
    obtain ⟨id, read⟩ := exists_spelled size pairs
    have lower := toHex_lower id b ((written id).mp read ▸ hb)
    rw [lower] at other
    cases other
  · rintro ⟨single, returns⟩
    refine ⟨returns, fun id => ⟨fun read => toHex_of_spells read fun b hb => ?_, ?_⟩⟩
    · by_contra other
      have size : s.utf8ByteSize = 64 := by
        rw [← length_utf8, length_spells read, Vector.length_toList]
      exact single ⟨size, readable_iff.mpr ⟨_, read⟩, b, hb, eq_false_of_ne_true other⟩
    · rintro rfl
      rw [utf8_toHex]
      exact spells_lower _

/-- The octets of another spelling, where there is one: a sign for a leading zero, and upper-case
digits. -/
def otherPair (b : UInt8) : List UInt8 :=
  [if b / 16 = 0 then plus else upperDigit (b / 16), upperDigit (b % 16)]

theorem otherPair_eq_iff (b : UInt8) : otherPair b = lowerPair b ↔ PlainOctet b := by
  simp only [otherPair, lowerPair, List.cons.injEq, and_true, PlainOctet, and_assoc,
    leading_eq_iff (digit_small b).1, upperDigit_eq_iff (digit_small b).2]

/-- Below sixteen the first digit is zero, and the second is the octet itself. -/
theorem leading_zero {b : UInt8} : b / 16 = 0 ↔ b < 16 ∧ b % 16 = b := by
  simp only [← UInt8.toNat_inj, UInt8.lt_iff_toNat_lt, UInt8.toNat_div, UInt8.toNat_mod]
  change b.toNat / 16 = 0 ↔ b.toNat < 16 ∧ b.toNat % 16 = b.toNat
  omega

theorem spells_other (bytes : List UInt8) : Spells (bytes.flatMap otherPair) bytes := by
  induction bytes with
  | nil => exact .nil
  | cons b bytes ih =>
    refine .pair ?_ ih
    obtain ⟨high, low⟩ := digit_small b
    by_cases zero : b / 16 = 0
    · obtain ⟨small, same⟩ := leading_zero.mp zero
      rw [if_pos zero, same]
      exact .inr ⟨rfl, small, .inr rfl⟩
    · rw [if_neg zero]
      exact .inl ⟨⟨high, .inr rfl⟩, low, .inr rfl⟩

/-- A plain octet has one pair that is read as it. -/
theorem pair_of_plain {x y b : UInt8} (plain : PlainOctet b) (two : Pair x y b) :
    [x, y] = lowerPair b := by
  obtain ⟨positive, high, low⟩ := plain
  rcases two with ⟨⟨first, hx⟩, second, hy⟩ | ⟨-, small, -⟩
  · rw [(upperDigit_eq_iff first).mpr high, or_self] at hx
    rw [(upperDigit_eq_iff second).mpr low, or_self] at hy
    rw [lowerPair, hx, hy]
  · have zero : b / 16 = 0 := by
      rw [UInt8.lt_iff_toNat_lt] at small
      rw [← UInt8.toNat_inj, UInt8.toNat_div]
      exact Nat.div_eq_of_lt small
    rw [zero] at positive
    exact absurd positive (by decide)

theorem spells_plain {raw bytes : List UInt8} (plain : ∀ b ∈ bytes, PlainOctet b)
    (read : Spells raw bytes) : raw = bytes.flatMap lowerPair := by
  induction read with
  | nil => rfl
  | pair two _ ih =>
    rw [List.flatMap_cons, ← pair_of_plain (plain _ List.mem_cons_self) two,
      ← ih fun b hb => plain b (List.mem_cons_of_mem _ hb)]
    rfl

theorem plain_of_flatMap {bytes : List UInt8}
    (same : bytes.flatMap otherPair = bytes.flatMap lowerPair) : ∀ b ∈ bytes, PlainOctet b := by
  induction bytes with
  | nil => exact fun b hb => absurd hb List.not_mem_nil
  | cons b bytes ih =>
    rw [List.flatMap_cons, List.flatMap_cons] at same
    obtain ⟨first, rest⟩ := List.append_inj same rfl
    rw [List.forall_mem_cons]
    exact ⟨(otherPair_eq_iff b).mp first, ih rest⟩

/-- An identity has the encoder's spelling alone when no digit has another form and no pair begins
with a zero, for which a sign could stand. -/
theorem spelling_unique_iff (id : SessionId) :
    (∃! s, SessionId.fromHex s = .ok (some id)) ↔ ∀ b ∈ id.bytes.toList, PlainOctet b := by
  constructor
  · intro unique
    have octets : utf8 (ofAscii (id.bytes.toList.flatMap otherPair)) =
        id.bytes.toList.flatMap otherPair := utf8_ofAscii (spells_lt (spells_other _))
    have read : SessionId.fromHex (ofAscii (id.bytes.toList.flatMap otherPair)) =
        .ok (some id) := by
      rw [fromHex_some, octets]
      exact spells_other _
    apply plain_of_flatMap
    rw [← octets, ← utf8_toHex, unique.unique read (fromHex_toHex id)]
  · intro plain
    refine ⟨id.toHex, fromHex_toHex id, fun s read => ?_⟩
    rw [← utf8_inj, utf8_toHex]
    exact spells_plain plain (fromHex_some.mp read)

/-- The decoder treats a text as it should exactly when it is neither another spelling nor one that
is cut inside a character. The encoder's texts are those of sixty-four lower-case digits; each is
read back, and is the only spelling of an identity whose octets are all plain, and of no other. -/
theorem session_spellings_iff (s : String) (id : SessionId) :
    (ReadAsWritten s ↔ ¬ Alias s ∧ ¬ Cut s) ∧
      ((∃ other : SessionId, s = other.toHex) ↔
        s.utf8ByteSize = 64 ∧ ∀ b ∈ utf8 s, isLowerHex b = true) ∧
      SessionId.fromHex id.toHex = .ok (some id) ∧
      ((∃! text, SessionId.fromHex text = .ok (some id)) ↔
        ∀ b ∈ id.bytes.toList, PlainOctet b) :=
  ⟨readAsWritten_iff s, toHex_image s, fromHex_toHex id, spelling_unique_iff id⟩

/-- The identity of thirty-two tens. -/
def tens : SessionId := ⟨Vector.replicate 32 10⟩

/-- An upper-case digit and a sign are taken, and a character across two pairs is a panic. -/
theorem spellings_differ :
    (tens.toHex = "0a0a0a0a0a0a0a0a0a0a0a0a0a0a0a0a0a0a0a0a0a0a0a0a0a0a0a0a0a0a0a0a" ∧
      SessionId.fromHex "0A0a0a0a0a0a0a0a0a0a0a0a0a0a0a0a0a0a0a0a0a0a0a0a0a0a0a0a0a0a0a0a" =
        .ok (some tens) ∧
      SessionId.fromHex "+a0a0a0a0a0a0a0a0a0a0a0a0a0a0a0a0a0a0a0a0a0a0a0a0a0a0a0a0a0a0a0a" =
        .ok (some tens) ∧
      SessionId.fromHex "0é0000000000000000000000000000000000000000000000000000000000000" =
        .error .sliceInsideCharacter) ∧
    ¬ ReadAsWritten "0A0a0a0a0a0a0a0a0a0a0a0a0a0a0a0a0a0a0a0a0a0a0a0a0a0a0a0a0a0a0a0a" ∧
      ¬ ReadAsWritten "+a0a0a0a0a0a0a0a0a0a0a0a0a0a0a0a0a0a0a0a0a0a0a0a0a0a0a0a0a0a0a0a" ∧
      ¬ ReadAsWritten "0é0000000000000000000000000000000000000000000000000000000000000" ∧
      ¬ ∃! s, SessionId.fromHex s = .ok (some tens) := by
  have written : tens.toHex =
      "0a0a0a0a0a0a0a0a0a0a0a0a0a0a0a0a0a0a0a0a0a0a0a0a0a0a0a0a0a0a0a0a" := by decide +kernel
  have upper : SessionId.fromHex
      "0A0a0a0a0a0a0a0a0a0a0a0a0a0a0a0a0a0a0a0a0a0a0a0a0a0a0a0a0a0a0a0a" = .ok (some tens) := by
    decide +kernel
  have signed : SessionId.fromHex
      "+a0a0a0a0a0a0a0a0a0a0a0a0a0a0a0a0a0a0a0a0a0a0a0a0a0a0a0a0a0a0a0a" = .ok (some tens) := by
    decide +kernel
  have cut : SessionId.fromHex
      "0é0000000000000000000000000000000000000000000000000000000000000" =
        .error .sliceInsideCharacter := by decide +kernel
  refine ⟨⟨written, upper, signed, cut⟩, fun read => ?_, fun read => ?_, fun read => ?_,
    fun unique => ?_⟩
  · have same := (read.2 tens).mp upper
    rw [written] at same
    exact absurd same (by decide)
  · have same := (read.2 tens).mp signed
    rw [written] at same
    exact absurd same (by decide)
  · obtain ⟨r, returned⟩ := read.1
    rw [cut] at returned
    cases returned
  · exact absurd (unique.unique upper signed) (by decide)

end Spellings

section Requests

theorem mem_of_splitOn {c d : Char} {cs piece : List Char} (h : piece ∈ cs.splitOn c)
    (hd : d ∈ piece) : d ∈ cs := by
  induction cs generalizing piece with
  | nil =>
    rw [List.splitOn_nil, List.mem_singleton] at h
    exact h ▸ hd
  | cons e cs ih =>
    rw [List.splitOn_cons_eq_if_modifyHead] at h
    split_ifs at h
    · rcases List.mem_cons.mp h with rfl | later
      · exact absurd hd List.not_mem_nil
      · exact List.mem_cons_of_mem _ (ih later hd)
    · cases pieces : cs.splitOn c with
      | nil => simp [pieces] at h
      | cons first rest =>
        rw [pieces, List.modifyHead_cons] at h
        rcases List.mem_cons.mp h with rfl | later
        · rcases List.mem_cons.mp hd with rfl | hd
          · exact List.mem_cons_self
          · exact List.mem_cons_of_mem _ (ih (pieces ▸ List.mem_cons_self) hd)
        · exact List.mem_cons_of_mem _ (ih (pieces ▸ List.mem_cons_of_mem _ later) hd)

theorem cookieValue_ascii {lines : List String} {name raw : String}
    (h : cookieValue lines name = some raw) : ∀ c ∈ raw.toList, c.toNat < 128 := by
  have visible : ∀ c, ClientIp.isVisible c = true → c.toNat < 128 := by
    intro c hc
    unfold ClientIp.isVisible at hc
    by_cases tab : c = '\t'
    · subst tab
      decide
    · have range : 32 ≤ c.toNat ∧ c.toNat < 127 := by simpa [tab] using hc
      omega
  simp only [cookieValue, Option.bind_eq_bind, Option.bind_eq_some_iff, Option.pure_def,
    Option.some.injEq] at h
  obtain ⟨cookie, ⟨line, -, text⟩, ⟨key, value⟩, found, rfl⟩ := h
  obtain ⟨piece, cut, parted⟩ := List.mem_filterMap.mp (List.mem_of_find?_eq_some found)
  obtain ⟨-, rfl⟩ := splitOnce_eq_some.mp parted
  unfold ClientIp.toStr at text
  split at text
  · rename_i all
    cases text
    intro c hc
    have inside : c ∈ value := by simpa using mem_of_mem_trim hc
    refine visible c (List.all_eq_true.mp all c (mem_of_splitOn cut ?_))
    simp [inside]
  · cases text

/-- A request never brings the decoder to a panic: a cookie is visible ASCII, where every offset is
between two characters. -/
theorem sessionOf_returns (lines : List String) : ∃ r, sessionOf lines = .ok r := by
  unfold sessionOf
  split
  · exact ⟨_, rfl⟩
  · rename_i raw value
    have ascii := utf8_lt (cookieValue_ascii value)
    rw [fromHex_returns]
    rintro ⟨size, k, hk, -, inside⟩
    exact inside (boundary_of_ascii (by omega) fun b hb => ascii b (List.mem_of_mem_take hb))

/-- The characters of a spelling pass through a cookie unchanged. -/
theorem chars_of_spells {s : String} {bytes : List UInt8} (read : Spells (utf8 s) bytes) :
    ∀ c ∈ s.toList, ClientIp.isVisible c = true ∧ c ≠ ';' ∧ isWhitespace c = false := by
  let Passes (b : UInt8) : Prop := ClientIp.isVisible (Char.ofNat b.toNat) = true ∧
    Char.ofNat b.toNat ≠ ';' ∧ isWhitespace (Char.ofNat b.toNat) = false
  intro c hc
  rw [toList_of_ascii (spells_lt read)] at hc
  obtain ⟨b, hb, rfl⟩ := List.mem_map.mp hc
  rcases octets_of_spells read b hb with rfl | ⟨v, small, rfl | rfl⟩
  · decide
  · exact forall_digit (P := fun v => Passes (lowerDigit v)) (by decide) small
  · exact forall_digit (P := fun v => Passes (upperDigit v)) (by decide) small

/-- The characters before the value of the session cookie. -/
theorem key_chars : ∀ c ∈ (sessionCookie ++ "=").toList,
    ClientIp.isVisible c = true ∧ c ≠ ';' := by
  simp [sessionCookie, ClientIp.isVisible]

/-- Every spelling of an identity that a request carries is read as the identity, not the encoder's
alone. -/
theorem sessionOf_spelled {s : String} {id : SessionId}
    (read : SessionId.fromHex s = .ok (some id)) :
    sessionOf [sessionCookie ++ "=" ++ s] = .ok (some id) := by
  have chars := chars_of_spells (fromHex_some.mp read)
  have whole : (sessionCookie ++ "=" ++ s).toList = sessionCookie.toList ++ '=' :: s.toList := by
    simp
  have all : ∀ c ∈ (sessionCookie ++ "=" ++ s).toList,
      ClientIp.isVisible c = true ∧ c ≠ ';' := by
    intro c hc
    rw [String.toList_append, List.mem_append] at hc
    rcases hc with hc | hc
    · exact key_chars c hc
    · exact ⟨(chars c hc).1, (chars c hc).2.1⟩
  have visible : ClientIp.toStr (sessionCookie ++ "=" ++ s) = some (sessionCookie ++ "=" ++ s) :=
    if_pos (List.all_eq_true.mpr fun c hc => (all c hc).1)
  have single : (sessionCookie ++ "=" ++ s).toList.splitOn ';' =
      [sessionCookie.toList ++ '=' :: s.toList] := by
    rw [List.splitOn_eq_singleton fun semicolon => (all _ semicolon).2 rfl, whole]
  have parted : splitOnce '=' (sessionCookie.toList ++ '=' :: s.toList) =
      some (sessionCookie.toList, s.toList) := splitOnce_eq_some.mpr ⟨by decide, rfl⟩
  have named : trim sessionCookie = sessionCookie :=
    trim_eq_self (by simp [sessionCookie, isWhitespace])
  have value : cookieValue [sessionCookie ++ "=" ++ s] sessionCookie = some s := by
    simp only [cookieValue, List.head?_cons, Option.bind_eq_bind, Option.bind_some, visible,
      single, List.filterMap_cons, parted, List.filterMap_nil, List.find?_cons,
      String.ofList_toList, named, decide_true, Option.pure_def,
      trim_eq_self fun c hc => (chars c hc).2.2]
  rw [sessionOf, value]
  exact read

/-- The cookie that a sign-in sets comes back as the identity it was set for. -/
theorem sessionOf_setSessionCookie (id : SessionId) :
    sessionOf [returned (setSessionCookie id)] = .ok (some id) := by
  have chars := chars_of_spells (fromHex_some.mp (fromHex_toHex id))
  have before : ∀ c ∈ (sessionCookie ++ "=" ++ id.toHex).toList, (c != ';') = true := by
    intro c hc
    rw [String.toList_append, List.mem_append] at hc
    rcases hc with hc | hc
    · exact bne_iff_ne.mpr (key_chars c hc).2
    · exact bne_iff_ne.mpr (chars c hc).2.1
  have sent : returned (setSessionCookie id) = sessionCookie ++ "=" ++ id.toHex := by
    rw [returned, setSessionCookie, String.toList_append, List.takeWhile_append_of_pos before]
    simp [String.append_assoc]
  rw [sent]
  exact sessionOf_spelled (fromHex_toHex id)

end Requests

end SessionCookies
