import BikesNest.CsrfTokens
import BikesNest.UrlReference

/-! The pages that a visitor is sent back to: after a login that another page asked for, after a
change of language and after a report. Each is taken from what the request says, and is cut down to
a path of this host. -/

namespace ReturnPaths

open PercentCodec TextSlices FormEncoding CsrfTokens UrlReference

/-! ### Paths -/

def refused (b : UInt8) : Bool := b == 92 || decide (b < 32) || b == 127

def safeLocalPath (s : String) : Option String :=
  if (utf8 s).head? ≠ some 47 then none
  else if (utf8 s)[1]? = some 47 ∨ (utf8 s)[1]? = some 92 then none
  else if (utf8 s).any refused then none
  else some s

/-- What comes after the first `://`. -/
def afterScheme : List Char → Option (List Char)
  | [] => none
  | c :: cs =>
    if "://".toList <+: c :: cs then some ((c :: cs).drop 3) else afterScheme cs

/-- `local_part` -/
def localPart (raw : String) : Option String :=
  safeLocalPath <|
    match afterScheme raw.toList with
    | some after =>
      match after.dropWhile (· != '/') with
      | [] => "/"
      | path => String.ofList path
    | none => raw

structure Uri where
  path : String
  query : Option String

def Uri.pathAndQuery (uri : Uri) : String :=
  match uri.query with
  | some query => uri.path ++ "?" ++ query
  | none => uri.path

/-- The page that the request says it was sent from. -/
def fromHeader (headers : HeaderMap) (name : String) : Option String :=
  (headers.text name).bind localPart

/-- The path before its last slash. -/
def parent (path : String) : String :=
  match path.toList.reverse.dropWhile (· != '/') with
  | [] | [_] => "/"
  | _ :: front => (safeLocalPath (String.ofList front.reverse)).getD "/"

def loginNext (method : Method) (uri : Uri) (headers : HeaderMap) : String :=
  if method = .get ∨ method = .head then (safeLocalPath uri.pathAndQuery).getD "/"
  else
    ((fromHeader headers "hx-current-url").or (fromHeader headers "referer")).getD
      (parent uri.path)

def plainQuery (b : UInt8) : Bool :=
  (65 ≤ b && b ≤ 90) || (97 ≤ b && b ≤ 122) || (48 ≤ b && b ≤ 57) ||
    b == 45 || b == 95 || b == 46 || b == 126 || b == 47

def queryByte (b : UInt8) : List UInt8 :=
  if plainQuery b then [b] else [percent, upperDigit (b / 16), upperDigit (b % 16)]

def encodeQueryValue (s : String) : String := ofAscii ((utf8 s).flatMap queryByte)

/-- The query of `login_url`. -/
def loginQuery (next : String) : String := "next=" ++ encodeQueryValue next

def loginDestination (next : String) : String := (safeLocalPath next).getD "/account"

/-- The page to which `set_lang` goes back. -/
def langNext (next : String) (headers : HeaderMap) : String :=
  (((safeLocalPath next).or (fromHeader headers "hx-current-url")).or
    (fromHeader headers "referer")).getD "/"

def reportReturnUrl (page targetType : String) (targetId : ℤ) : String :=
  match safeLocalPath page with
  | some loc => loc ++ (if loc.toList.contains '?' then "&" else "?") ++ "reported=1"
  | none =>
    if targetType = "parking" ∧ 0 < targetId then
      "/parking/" ++ targetId.toNat.repr ++ "?reported=1"
    else "/"

/-! ### The login form -/

/-- A field of a form or of a query, empty where it is not given. -/
def given (lib : Libraries) (parsed : List (List UInt8 × List UInt8)) (name : String) : String :=
  ((parsed.find? fun p => decide (lib.fromUtf8Lossy p.1 = name)).map fun p =>
    lib.fromUtf8Lossy p.2).getD ""

/-- The value of the hidden field `next` on the login page. -/
def loginPage (next : String) : String := (safeLocalPath next).getD ""

/-- The fields of the form, in the order of the page. An empty `next` has no field. -/
def loginFields (csrf hidden email password : String) : List (String × String) :=
  (csrfField, csrf) :: (if hidden = "" then [] else [("next", hidden)]) ++
    [("email", email), ("password", password)]

/-- The `next` of `login_post`: the field of the form, else that of the query. -/
def loginPostNext (lib : Libraries) (query : Option String) (body : List UInt8) : String :=
  let next := given lib (parseBytes body) "next"
  if next = "" then given lib (parseBytes (utf8 (query.getD ""))) "next" else next

/-- The hidden field after attempts that failed. The form has no query. -/
def retry (lib : Libraries) (csrf : String) (hidden : String) : List (String × String) → String
  | [] => hidden
  | (email, password) :: rest =>
    retry lib csrf
      (loginPage (loginPostNext lib none (serialize (loginFields csrf hidden email password)))) rest

/-- Where the visitor lands who was sent to the login page, failed some attempts and then succeeded. -/
def landing (lib : Libraries) (csrf next : String) (failed : List (String × String))
    (email password : String) : String :=
  let shown := loginPage (given lib (parseBytes (utf8 (loginQuery next))) "next")
  loginDestination (loginPostNext lib none
    (serialize (loginFields csrf (retry lib csrf shown failed) email password)))

/-- A redirect to the path can be sent, and leads to a path of this host. -/
structure Stays (path : String) : Prop where
  header : ∀ b ∈ utf8 path, 32 ≤ b ∧ b ≠ 127
  here : ∃ reference, target path.toList = .here reference

section Paths

theorem utf8_toList (s : String) : utf8 s = s.toList.flatMap String.utf8EncodeChar := by
  rw [← utf8_ofList, String.ofList_toList]

/-- A safe path is what it is made from. -/
theorem safe_iff {s p : String} : safeLocalPath s = some p ↔
    p = s ∧ (utf8 s).head? = some 47 ∧ (utf8 s)[1]? ≠ some 47 ∧ (utf8 s)[1]? ≠ some 92 ∧
      ∀ b ∈ utf8 s, refused b = false := by
  unfold safeLocalPath
  split_ifs with root second dark
  · simp [root]
  · rcases second with h | h <;> simp [h]
  · obtain ⟨b, hb, bad⟩ := List.any_eq_true.mp dark
    refine iff_of_false (by simp) ?_
    rintro ⟨-, -, -, -, fine⟩
    rw [fine b hb] at bad
    cases bad
  · rw [not_or] at second
    have fine : ∀ b ∈ utf8 s, refused b = false := fun b hb =>
      Bool.eq_false_iff.mpr fun bad => dark (List.any_eq_true.mpr ⟨b, hb, bad⟩)
    rw [Option.some.injEq]
    exact ⟨fun same => ⟨same.symm, not_not.mp root, second.1, second.2, fine⟩,
      fun h => h.1.symm⟩

theorem safe_safe {s p : String} (h : safeLocalPath s = some p) : safeLocalPath p = some p := by
  obtain ⟨rfl, -⟩ := safe_iff.mp h
  exact h

/-- The octet of an ASCII character. -/
theorem head_utf8EncodeChar (c : Char) (rest : List UInt8) :
    (c.toNat < 128 ∧ String.utf8EncodeChar c ++ rest = UInt8.ofNat c.toNat :: rest) ∨
      ∃ b more, String.utf8EncodeChar c = b :: more ∧ 128 ≤ b.toNat := by
  by_cases ascii : c.toNat < 128
  · exact .inl ⟨ascii, by rw [utf8EncodeChar_ascii ascii]; rfl⟩
  · refine .inr ?_
    cases octets : String.utf8EncodeChar c with
    | nil => exact absurd octets (by simp [String.utf8EncodeChar_ne_nil])
    | cons b more =>
      exact ⟨b, more, rfl, utf8EncodeChar_large (by omega) b (octets ▸ List.mem_cons_self)⟩

theorem toNat_octet {c : Char} (ascii : c.toNat < 128) : (UInt8.ofNat c.toNat).toNat = c.toNat := by
  rw [UInt8.toNat_ofNat', Nat.mod_eq_of_lt (by omega)]

/-- What stands before the other octets tells the character that they begin with. -/
theorem char_of_head {c d : Char} {cs : List Char} (plain : d.toNat < 128)
    (h : ((c :: cs).flatMap String.utf8EncodeChar).head? = some (UInt8.ofNat d.toNat)) : c = d := by
  rw [List.flatMap_cons] at h
  rcases head_utf8EncodeChar c (cs.flatMap String.utf8EncodeChar) with ⟨ascii, octets⟩ | large
  · rw [octets, List.head?_cons, Option.some.injEq, ← UInt8.toNat_inj, toNat_octet ascii,
      toNat_octet plain] at h
    exact Char.toNat_inj.mp h
  · obtain ⟨b, more, octets, large⟩ := large
    rw [octets, List.cons_append, List.head?_cons, Option.some.injEq] at h
    rw [h, toNat_octet plain] at large
    omega

/-- A safe path is a reference from the root. -/
theorem rooted_of_safe {p : String} (h : safeLocalPath p = some p) : Rooted p.toList := by
  obtain ⟨-, root, notSlash, notBackslash, fine⟩ := safe_iff.mp h
  rw [utf8_toList] at root notSlash notBackslash
  cases whole : p.toList with
  | nil =>
    rw [whole] at root
    cases root
  | cons c cs =>
    rw [whole] at root notSlash notBackslash
    have first : c = '/' := @char_of_head c '/' cs (by decide) root
    subst first
    have rest : ∀ i : ℕ, (('/' :: cs).flatMap String.utf8EncodeChar)[i + 1]? =
        (cs.flatMap String.utf8EncodeChar)[i]? := fun i => rfl
    refine ⟨rfl, fun d hd => ?_, fun d hd => ?_⟩
    · rw [rest 0] at notSlash notBackslash
      obtain ⟨ds, rfl⟩ : ∃ ds, cs = d :: ds := by
        cases cs with
        | nil => cases hd
        | cons e ds => exact ⟨ds, congrArg (· :: ds) (Option.some.inj hd)⟩
      rw [Bool.eq_false_iff]
      intro slashed
      rcases (Bool.or_eq_true _ _).mp slashed with here | here
      · rw [beq_iff_eq.mp here] at notSlash
        exact notSlash rfl
      · rw [beq_iff_eq.mp here] at notBackslash
        exact notBackslash rfl
    · by_contra low
      have ascii : d.toNat < 128 := by omega
      have octet : UInt8.ofNat d.toNat ∈ utf8 p := by
        rw [utf8_toList, whole, List.mem_flatMap]
        exact ⟨d, hd, by rw [utf8EncodeChar_ascii ascii]; exact List.mem_singleton.mpr rfl⟩
      have small : UInt8.ofNat d.toNat < 32 := by
        rw [UInt8.lt_iff_toNat_lt, toNat_octet ascii]
        exact Nat.lt_of_not_le low
      have kept := fine _ octet
      rw [refused, decide_eq_true small] at kept
      simp at kept

theorem stays_of_safe {p : String} (h : safeLocalPath p = some p) : Stays p where
  header := by
    obtain ⟨-, -, -, -, fine⟩ := safe_iff.mp h
    intro b hb
    have kept := fine b hb
    simp only [refused, Bool.or_eq_false_iff, beq_eq_false_iff_ne, decide_eq_false_iff_not,
      UInt8.not_lt] at kept
    exact ⟨kept.1.2, kept.2⟩
  here := ⟨_, target_rooted (rooted_of_safe h)⟩

/-- A plain text after a safe path leaves it safe. -/
theorem safe_append {p t : String} (h : safeLocalPath p = some p) (nonempty : utf8 t ≠ [])
    (first : ∀ b ∈ (utf8 t).head?, b ≠ 47 ∧ b ≠ 92) (fine : ∀ b ∈ utf8 t, refused b = false) :
    safeLocalPath (p ++ t) = some (p ++ t) := by
  obtain ⟨-, root, notSlash, notBackslash, all⟩ := safe_iff.mp h
  obtain ⟨rest, octets⟩ := List.head?_eq_some_iff.mp root
  obtain ⟨b, more, added⟩ := List.exists_cons_of_ne_nil nonempty
  have plain := first b (by rw [added]; rfl)
  refine safe_iff.mpr ⟨rfl, ?_, ?_, ?_, fun c hc => ?_⟩
  · rw [utf8_append, octets]
    rfl
  · rw [utf8_append, octets, added]
    rw [octets] at notSlash
    cases rest with
    | nil => exact fun same => plain.1 (Option.some.inj same)
    | cons c rest => exact notSlash
  · rw [utf8_append, octets, added]
    rw [octets] at notBackslash
    cases rest with
    | nil => exact fun same => plain.2 (Option.some.inj same)
    | cons c rest => exact notBackslash
  · rw [utf8_append, List.mem_append] at hc
    exact hc.elim (all c) (fine c)

/-- The text starts with no slash and has no octet that a path is refused for. -/
def joinsPath (t : String) : Bool :=
  (utf8 t).head?.any (fun b => b != 47 && b != 92) && (utf8 t).all fun b => !refused b

theorem safe_joined {p t : String} (h : safeLocalPath p = some p) (joins : joinsPath t = true) :
    safeLocalPath (p ++ t) = some (p ++ t) := by
  rw [joinsPath, Bool.and_eq_true, Option.any_eq_true, List.all_eq_true] at joins
  obtain ⟨⟨b, head, plain⟩, fine⟩ := joins
  rw [Bool.and_eq_true, bne_iff_ne, bne_iff_ne] at plain
  refine safe_append h ?_ (fun c hc => ?_) fun c hc => ?_
  · intro none
    rw [none] at head
    cases head
  · rw [Option.mem_def, head, Option.some.injEq] at hc
    exact hc ▸ plain
  · exact (Bool.not_eq_true' _).mp (fine c hc)

theorem utf8_digits (n : ℕ) : ∀ b ∈ utf8 n.repr, 48 ≤ b ∧ b ≤ 57 := by
  intro b hb
  rw [utf8_toList, List.mem_flatMap] at hb
  obtain ⟨c, hc, hb⟩ := hb
  rw [Nat.toList_repr] at hc
  have digit := Nat.isDigit_of_mem_toDigits (by decide) (by decide) hc
  have range : 48 ≤ c.toNat ∧ c.toNat ≤ 57 := by
    simpa [Char.isDigit, UInt32.le_iff_toNat_le] using digit
  have ascii : c.toNat < 128 := by omega
  rw [utf8EncodeChar_ascii ascii, List.mem_singleton] at hb
  rw [hb, UInt8.le_iff_toNat_le, UInt8.le_iff_toNat_le, toNat_octet ascii]
  exact range

theorem safe_number {p : String} (h : safeLocalPath p = some p) (n : ℕ) :
    safeLocalPath (p ++ n.repr) = some (p ++ n.repr) := by
  refine safe_append h ?_ (fun b hb => ?_) fun b hb => ?_
  · intro none
    have digits : n.repr.toList ≠ [] := by simp [Nat.toDigits_ne_nil]
    obtain ⟨c, hc⟩ := List.exists_mem_of_ne_nil _ digits
    rw [utf8_toList, List.flatMap_eq_nil_iff] at none
    exact String.utf8EncodeChar_ne_nil (none c hc)
  · have range := utf8_digits n b (List.mem_of_head? hb)
    constructor <;>
      · rintro rfl
        exact absurd range (by decide)
  · have range := utf8_digits n b hb
    rw [refused, Bool.or_eq_false_iff, Bool.or_eq_false_iff, beq_eq_false_iff_ne,
      beq_eq_false_iff_ne, decide_eq_false_iff_not]
    refine ⟨⟨?_, fun low => ?_⟩, ?_⟩
    · rintro rfl
      exact absurd range (by decide)
    · have from48 : 48 ≤ b.toNat := UInt8.le_iff_toNat_le.mp range.1
      have below32 : b.toNat < 32 := UInt8.lt_iff_toNat_lt.mp low
      omega
    · rintro rfl
      exact absurd range (by decide)

theorem safe_root : safeLocalPath "/" = some "/" := rfl

theorem safe_getD {s t : String} (h : safeLocalPath t = some t) :
    safeLocalPath ((safeLocalPath s).getD t) = some ((safeLocalPath s).getD t) := by
  cases path : safeLocalPath s with
  | none => exact h
  | some p => exact safe_safe path

theorem safe_fromHeader {headers : HeaderMap} {name p : String}
    (h : fromHeader headers name = some p) : safeLocalPath p = some p := by
  obtain ⟨raw, -, h⟩ := Option.bind_eq_some_iff.mp h
  exact safe_safe h

theorem safe_parent (path : String) : safeLocalPath (parent path) = some (parent path) := by
  unfold parent
  split
  · exact safe_root
  · exact safe_root
  · exact safe_getD safe_root

/-- The page for after the login is a safe path, whatever the request was. -/
theorem safe_loginNext (method : Method) (uri : Uri) (headers : HeaderMap) :
    safeLocalPath (loginNext method uri headers) = some (loginNext method uri headers) := by
  unfold loginNext
  split
  · exact safe_getD safe_root
  · cases first : fromHeader headers "hx-current-url" with
    | some p => exact safe_fromHeader first
    | none =>
      cases second : fromHeader headers "referer" with
      | some p => exact safe_fromHeader second
      | none => exact safe_parent uri.path

theorem safe_langNext (next : String) (headers : HeaderMap) :
    safeLocalPath (langNext next headers) = some (langNext next headers) := by
  unfold langNext
  cases said : safeLocalPath next with
  | some p => exact safe_safe said
  | none =>
    cases first : fromHeader headers "hx-current-url" with
    | some p => exact safe_fromHeader first
    | none =>
      cases second : fromHeader headers "referer" with
      | some p => exact safe_fromHeader second
      | none => exact safe_root

theorem safe_reportReturnUrl (page targetType : String) (targetId : ℤ) :
    safeLocalPath (reportReturnUrl page targetType targetId) =
      some (reportReturnUrl page targetType targetId) := by
  unfold reportReturnUrl
  split
  · rename_i p here
    have separated : ∀ sep ∈ ["&", "?"], safeLocalPath (p ++ sep) = some (p ++ sep) := by
      intro sep hs
      fin_cases hs <;>
        exact safe_joined (safe_safe here) rfl
    refine safe_joined ?_ rfl
    split
    · exact separated "&" (by simp)
    · exact separated "?" (by simp)
  · split
    · have spot : safeLocalPath "/parking/" = some "/parking/" := rfl
      exact safe_joined (safe_number spot _) rfl
    · exact safe_root

/-- Whatever a request says, a redirect after a login, a change of language or a report can be sent
and leads to a path of this host. -/
theorem redirects_stay (method : Method) (uri : Uri) (headers : HeaderMap)
    (next page targetType : String) (targetId : ℤ) :
    Stays (loginNext method uri headers) ∧ Stays (loginDestination next) ∧
      Stays (langNext next headers) ∧ Stays (reportReturnUrl page targetType targetId) := by
  have account : safeLocalPath "/account" = some "/account" := rfl
  exact ⟨stays_of_safe (safe_loginNext method uri headers), stays_of_safe (safe_getD account),
    stays_of_safe (safe_langNext next headers),
    stays_of_safe (safe_reportReturnUrl page targetType targetId)⟩

end Paths

section Logins

variable {lib : Libraries}

theorem queryByte_octets (b : UInt8) :
    ∀ c ∈ queryByte b, c ≠ ampersand ∧ c ≠ equals ∧ c ≠ plus ∧ c < 128 := by
  intro c hc
  unfold queryByte at hc
  split_ifs at hc with plain
  · rw [List.mem_singleton] at hc
    subst hc
    refine ⟨?_, ?_, ?_, ?_⟩
    · rintro rfl
      exact absurd plain (by decide)
    · rintro rfl
      exact absurd plain (by decide)
    · rintro rfl
      exact absurd plain (by decide)
    · simp only [plainQuery, Bool.or_eq_true, Bool.and_eq_true, decide_eq_true_eq, beq_iff_eq]
        at plain
      rcases plain with ((((((upper | lower) | digit) | rfl) | rfl) | rfl) | rfl) | rfl
      · exact UInt8.lt_of_le_of_lt upper.2 (by decide)
      · exact UInt8.lt_of_le_of_lt lower.2 (by decide)
      · exact UInt8.lt_of_le_of_lt digit.2 (by decide)
      all_goals decide
  · exact escape_plain b c hc

theorem percentDecode_queryByte (b : UInt8) (rest : List UInt8) :
    percentDecode (queryByte b ++ rest) = b :: percentDecode rest := by
  unfold queryByte
  split_ifs with plain
  · have other : b ≠ percent := by
      rintro rfl
      exact absurd plain (by decide)
    exact percentDecode_cons other rest
  · exact percentDecode_escape b rest

theorem parseBytes_loginQuery (next : String) :
    parseBytes (utf8 (loginQuery next)) = [(utf8 "next", utf8 next)] := by
  have chars : ∀ c ∈ (utf8 next).flatMap queryByte,
      c ≠ ampersand ∧ c ≠ equals ∧ c ≠ plus ∧ c < 128 := by
    intro c hc
    obtain ⟨b, -, hc⟩ := List.mem_flatMap.mp hc
    exact queryByte_octets b c hc
  have key : utf8 "next=" = utf8 "next" ++ [equals] := rfl
  have keyOctets : ∀ c ∈ utf8 "next", c ≠ ampersand ∧ c ≠ equals := by
    have octets : utf8 "next" = [110, 101, 120, 116] := rfl
    intro c hc
    rw [octets] at hc
    fin_cases hc <;> decide
  have keyRead : percentDecode ((utf8 "next").map spaced) = utf8 "next" := rfl
  have whole : utf8 (loginQuery next) =
      utf8 "next" ++ equals :: (utf8 next).flatMap queryByte := by
    rw [loginQuery, utf8_append, key, encodeQueryValue,
      utf8_ofAscii fun c hc => (chars c hc).2.2.2, List.append_assoc, List.singleton_append]
  have single : ampersand ∉ utf8 "next" ++ equals :: (utf8 next).flatMap queryByte := by
    rw [List.mem_append, List.mem_cons]
    rintro (h | h | h)
    · exact (keyOctets _ h).1 rfl
    · exact absurd h (by decide)
    · exact (chars _ h).1 rfl
  have unspaced : ((utf8 next).flatMap queryByte).map spaced = (utf8 next).flatMap queryByte := by
    refine (List.map_congr_left fun c hc => ?_).trans (List.map_id _)
    exact if_neg (chars c hc).2.2.1
  have valueRead : percentDecode ((utf8 next).flatMap queryByte) = utf8 next := by
    induction utf8 next with
    | nil => rfl
    | cons b bytes ih => rw [List.flatMap_cons, percentDecode_queryByte, ih]
  have filled : (utf8 "next" ++ equals :: (utf8 next).flatMap queryByte).isEmpty = false := by
    simp
  rw [parseBytes, whole, List.splitOn_eq_singleton single, List.filter_singleton, filled]
  simp only [Bool.not_false, cond_true, List.map_singleton,
    splitPair_append _ fun c hc => (keyOctets c hc).2, keyRead, unspaced, valueRead]

/-- The query of the login page gives the page back. -/
theorem given_loginQuery (lawful : lib.Lawful) (next : String) :
    given lib (parseBytes (utf8 (loginQuery next))) "next" = next := by
  rw [parseBytes_loginQuery, given, List.find?_singleton]
  simp [lawful.lossless]

theorem given_serialize (lawful : lib.Lawful) (fields : List (String × String)) (name : String) :
    given lib (parseBytes (serialize fields)) name =
      ((fields.find? fun f => decide (f.1 = name)).map Prod.snd).getD "" := by
  rw [given, parseBytes_serialize, List.find?_map, Option.map_map]
  simp only [Function.comp_def, lawful.lossless]

/-- The hidden field is what a form brings back, also where it is empty. -/
theorem loginPostNext_form (lawful : lib.Lawful) (csrf hidden email password : String) :
    loginPostNext lib none (serialize (loginFields csrf hidden email password)) = hidden := by
  have empty : given lib (parseBytes (utf8 "")) "next" = "" := rfl
  rw [loginPostNext, given_serialize lawful, Option.getD_none, empty]
  by_cases none : hidden = ""
  · simp [loginFields, none, csrfField]
  · simp [loginFields, none, csrfField]

theorem retry_safe (lawful : lib.Lawful) (csrf : String) {hidden : String}
    (safe : safeLocalPath hidden = some hidden) (failed : List (String × String)) :
    retry lib csrf hidden failed = hidden := by
  induction failed with
  | nil => rfl
  | cons attempt rest ih =>
    obtain ⟨email, password⟩ := attempt
    rw [retry, loginPostNext_form lawful, loginPage, safe, Option.getD_some, ih]

/-- A visitor who is asked to log in comes back to the page that the request names, after any number
of failed attempts. -/
theorem login_returns (lawful : lib.Lawful) (method : Method) (uri : Uri) (headers : HeaderMap)
    (csrf email password : String) (failed : List (String × String)) :
    landing lib csrf (loginNext method uri headers) failed email password =
      loginNext method uri headers := by
  have safe := safe_loginNext method uri headers
  rw [landing, given_loginQuery lawful]
  rw [loginPage, safe, Option.getD_some, retry_safe lawful csrf safe, loginPostNext_form lawful,
    loginDestination, safe, Option.getD_some]

/-- A vote that was sent without a session, from a page whose query has separators of its own. -/
theorem vote_returns :
    landing libraries "" (loginNext .post ⟨"/parking/7/vote", none⟩
        [("hx-current-url", "https://bikesnest.test/parking/7?tab=a&b=c+d")])
      [("a@b.c", "wrong words")] "a@b.c" "right words" = "/parking/7?tab=a&b=c+d" :=
  (login_returns libraries_lawful .post ⟨"/parking/7/vote", none⟩
    [("hx-current-url", "https://bikesnest.test/parking/7?tab=a&b=c+d")] "" "a@b.c" "right words"
    [("a@b.c", "wrong words")]).trans (by decide)

end Logins

end ReturnPaths
