import BikesNest.Base64Url
import BikesNest.ClientIp
import BikesNest.Credentials
import BikesNest.FormEncoding
import BikesNest.TextSlices

/-! The token that a request must carry to change something, and the layer that asks for it before
a handler runs. The base64 library and the lossy reader of UTF-8 are parameters. A header line is
shown as a text with one character for each byte; header names are in lower case. -/

namespace CsrfTokens

open Parking PercentCodec TextSlices FormEncoding
open Credentials (splitOnce splitOnce_eq_some)

structure Libraries where
  encode : List UInt8 → String
  decode : String → Option (List UInt8)
  /-- `String::from_utf8_lossy` -/
  fromUtf8Lossy : List UInt8 → String

/-- The base64 library takes a text exactly when it writes it; it refuses padding and unused bits
that are not zero. -/
structure Libraries.Lawful (lib : Libraries) : Prop where
  decoded : ∀ s bytes, lib.decode s = some bytes ↔ s = lib.encode bytes
  alphabet : ∀ bytes, ∀ c ∈ (lib.encode bytes).toList, c ∈ Base64Url.alphabet
  lossless : ∀ s, lib.fromUtf8Lossy (utf8 s) = s

/-! ### Tokens -/

structure CsrfToken where
  bytes : Vector UInt8 32
  deriving DecidableEq

def CsrfToken.toBase64url (lib : Libraries) (t : CsrfToken) : String := lib.encode t.bytes.toList

def CsrfToken.fromBase64url (lib : Libraries) (s : String) : Option CsrfToken := do
  let bytes ← lib.decode s
  if h : bytes.length = 32 then some ⟨bytes.toArray, h⟩ else none

/-- `verify` looks at all octets, whether or not an early one differs. -/
def CsrfToken.verify (lib : Libraries) (t : CsrfToken) (encoded : String) : Bool :=
  match lib.decode encoded with
  | none => false
  | some decoded =>
    if decoded.length ≠ 32 then false
    else (t.bytes.toList.zip decoded).foldl (fun diff p => diff ||| (p.1 ^^^ p.2)) 0 == 0

/-! ### Where a request carries its token -/

def csrfField : String := "csrf"

/-- `url_decode`: an escape that is not complete stays as it is. -/
def urlDecode (lib : Libraries) (bytes : List UInt8) : String :=
  lib.fromUtf8Lossy (percentDecode bytes)

abbrev HeaderMap := List (String × String)

/-- The first line with the name. -/
def HeaderMap.get (headers : HeaderMap) (name : String) : Option String :=
  (headers.find? fun h => decide (h.1 = name)).map Prod.snd

def HeaderMap.text (headers : HeaderMap) (name : String) : Option String :=
  (headers.get name).bind ClientIp.toStr

def csrfFromHeaders (headers : HeaderMap) : Option String := headers.text "x-csrf-token"

def csrfFromQuery (lib : Libraries) (query : Option String) : Option String :=
  ((query.getD "").toList.splitOn '&').findSome? fun pair =>
    match splitOnce '=' pair with
    | some (key, value) =>
      if String.ofList key = csrfField then some (urlDecode lib (utf8 (String.ofList value)))
      else none
    | none => none

def formType : String := "application/x-www-form-urlencoded"

def csrfFromFormBody (lib : Libraries) (bytes : List UInt8) (contentType : Option String) :
    Option String :=
  if formType.toList <+: (contentType.getD "").toList then
    (bytes.splitOn ampersand).findSome? fun pair =>
      match pair.idxOf? equals with
      | some i =>
        if pair.take i = utf8 csrfField then some (urlDecode lib (pair.drop (i + 1))) else none
      | none => none
  else none

/-! ### The layer -/

inductive Method where
  | get | head | options | post
  | other (name : String)
  deriving DecidableEq

structure Request where
  method : Method
  path : String
  query : Option String
  headers : HeaderMap
  /-- The octets of the body, unless the connection breaks. -/
  body : Option (List UInt8)

def csrfBodyLimit : ℕ := 64 * 1024

/-- `to_bytes` -/
def toBytes (body : Option (List UInt8)) (limit : ℕ) : Option (List UInt8) :=
  body.filter fun bytes => decide (bytes.length ≤ limit)

inductive Category where
  | crossSite | staleSession | missing | mismatch
  deriving DecidableEq

/-- What the layer does with a request. -/
inductive Verdict where
  | forwarded (req : Request)
  | payloadTooLarge
  | forbidden (category : Category)

def isSafe (req : Request) : Bool :=
  match req.method with
  | .get | .head | .options => true
  | _ => false

def isCspReport (req : Request) : Bool :=
  decide (req.method = .post) && decide (req.path = "/csp-report")

def crossSite (req : Request) : Bool :=
  decide (req.headers.text "sec-fetch-site" = some "cross-site")

/-- The check, once it is known what the request carries. -/
def admitted (lib : Libraries) (csrf : Option CsrfToken) (staleSession : Bool) (req : Request)
    (submitted : Option String) : Verdict :=
  let ok := !crossSite req &&
    match csrf, submitted with
    | some expected, some sub => expected.verify lib sub
    | _, _ => false
  if ok then .forwarded req
  else .forbidden <|
    if crossSite req then .crossSite
    else if staleSession then .staleSession
    else if submitted.isNone then .missing
    else .mismatch

/-- The part of `auth_middleware` before the handler, for the token that `resolve_auth` expects. -/
def authMiddleware (lib : Libraries) (csrf : Option CsrfToken) (staleSession : Bool)
    (req : Request) : Verdict :=
  if isSafe req || isCspReport req then .forwarded req
  else
    match (csrfFromHeaders req.headers).or (csrfFromQuery lib req.query) with
    | some sub => admitted lib csrf staleSession req (some sub)
    | none =>
      match toBytes req.body csrfBodyLimit with
      | some bytes =>
        -- The body was read to its end, so it is put back for the handler.
        admitted lib csrf staleSession { req with body := some bytes }
          (csrfFromFormBody lib bytes (req.headers.text "content-type"))
      | none => .payloadTooLarge

section Tokens

variable {lib : Libraries}

/-- Octets that differ nowhere are those whose differences come to nothing. -/
theorem foldl_diff_eq_zero {ps : List (UInt8 × UInt8)} {diff : UInt8} :
    ps.foldl (fun diff p => diff ||| (p.1 ^^^ p.2)) diff = 0 ↔
      diff = 0 ∧ ∀ p ∈ ps, p.1 = p.2 := by
  induction ps generalizing diff with
  | nil => simp
  | cons p ps ih =>
    rw [List.foldl_cons, ih, List.forall_mem_cons, UInt8.or_eq_zero_iff, UInt8.xor_eq_zero_iff,
      and_assoc]

theorem zip_equal_iff {as bs : List UInt8} (same : bs.length = as.length) :
    (∀ p ∈ as.zip bs, p.1 = p.2) ↔ bs = as := by
  induction as generalizing bs with
  | nil => simp_all
  | cons a as ih =>
    cases bs with
    | nil => cases same
    | cons b bs =>
      rw [List.zip_cons_cons, List.forall_mem_cons, ih (Nat.succ.inj same), List.cons.injEq]
      exact and_congr_left' eq_comm

/-- The comparison takes a text exactly when the library writes the token so. -/
theorem verify_iff (lawful : lib.Lawful) {t : CsrfToken} {s : String} :
    t.verify lib s = true ↔ s = t.toBase64url lib := by
  have size : t.bytes.toList.length = 32 := t.bytes.length_toList
  unfold CsrfToken.verify CsrfToken.toBase64url
  cases read : lib.decode s with
  | none =>
    refine iff_of_false (by simp) fun written => ?_
    rw [(lawful.decoded s _).mpr written] at read
    cases read
  | some decoded =>
    have written := (lawful.decoded s decoded).mp read
    have same : decoded = t.bytes.toList ↔ s = lib.encode t.bytes.toList := by
      rw [← lawful.decoded, read, Option.some.injEq]
    dsimp only
    split
    · rename_i other
      refine iff_of_false (by simp) fun eq => other ?_
      rw [same.mpr eq, size]
    · rename_i full
      have equal : decoded.length = t.bytes.toList.length := by omega
      rw [beq_iff_eq, foldl_diff_eq_zero, zip_equal_iff equal, ← same]
      exact and_iff_right rfl

theorem fromBase64url_eq_some (lawful : lib.Lawful) {t : CsrfToken} {s : String} :
    CsrfToken.fromBase64url lib s = some t ↔ s = t.toBase64url lib := by
  simp only [CsrfToken.fromBase64url, CsrfToken.toBase64url, Option.bind_eq_bind,
    Option.bind_eq_some_iff, lawful.decoded]
  constructor
  · rintro ⟨bytes, rfl, h⟩
    split at h
    · cases h
      rfl
    · cases h
  · rintro rfl
    refine ⟨_, rfl, ?_⟩
    rw [dif_pos t.bytes.length_toList]
    rfl

theorem toBase64url_inj (lawful : lib.Lawful) {t u : CsrfToken}
    (same : t.toBase64url lib = u.toBase64url lib) : t = u := by
  have read := (fromBase64url_eq_some lawful).mpr same
  rw [(fromBase64url_eq_some lawful).mpr rfl] at read
  exact Option.some.inj read

end Tokens

section Forms

variable {lib : Libraries}

theorem idxOf_pair (f : String × String) :
    (pair f).idxOf? equals = some (formText f.1).length := by
  have before : ∀ c ∈ formText f.1, (c == equals) = false := fun c hc =>
    beq_eq_false_iff_ne.mpr (formText_octets f.1 c hc).2
  simp [List.idxOf?, pair, List.findIdx?_append, List.findIdx?_eq_none_iff.mpr before,
    List.findIdx?_cons]

theorem csrfField_plain : formText csrfField = utf8 csrfField :=
  formText_kept (by
    have octets : utf8 csrfField = ['c', 's', 'r', 'f'].flatMap String.utf8EncodeChar :=
      utf8_ofList _
    have ascii : ['c', 's', 'r', 'f'].flatMap String.utf8EncodeChar = [99, 115, 114, 102] := rfl
    rw [octets, ascii]
    exact List.all_eq_true.mp rfl)

/-- Of the fields of a form, the first that is named so gives the token. -/
theorem csrfFromFormBody_serialize {fields : List (String × String)} {contentType : Option String}
    (form : formType.toList <+: (contentType.getD "").toList) :
    csrfFromFormBody lib (serialize fields) contentType =
      (fields.find? fun f => decide (f.1 = csrfField)).map fun f => urlDecode lib (formText f.2) := by
  rw [csrfFromFormBody, if_pos form, splitOn_serialize]
  split
  · rename_i none
    subst none
    rfl
  · clear * -
    induction fields with
    | nil => rfl
    | cons f fields ih =>
      have named : formText f.1 = utf8 csrfField ↔ f.1 = csrfField := by
        rw [← csrfField_plain, formText_inj]
      have front : (pair f).take (formText f.1).length = formText f.1 := by simp [pair]
      have back : (pair f).drop ((formText f.1).length + 1) = formText f.2 := by simp [pair]
      rw [List.map_cons, List.findSome?_cons, idxOf_pair, List.find?_cons]
      dsimp only
      rw [front, back]
      by_cases here : f.1 = csrfField
      · rw [if_pos (named.mpr here), decide_eq_true here]
        rfl
      · rw [if_neg fun same => here (named.mp same), decide_eq_false here]
        exact ih

theorem urlDecode_formText (lawful : lib.Lawful) (s : String) :
    urlDecode lib (formText s) = withPlus s := by
  rw [urlDecode, percentDecode_formText, lawful.lossless]

/-- No digit of a token stands for something else in a form or in a query. -/
theorem token_chars (lawful : lib.Lawful) (t : CsrfToken) :
    ∀ c ∈ (t.toBase64url lib).toList, c ≠ ' ' ∧ c ≠ '+' ∧ c ≠ '%' ∧ c ≠ '&' ∧ c.toNat < 128 := by
  have digits : (Base64Url.alphabet.all fun c =>
      c != ' ' && c != '+' && c != '%' && c != '&' && decide (c.toNat < 128)) = true := rfl
  intro c hc
  have digit := List.all_eq_true.mp digits c (lawful.alphabet _ c hc)
  simp only [Bool.and_eq_true, bne_iff_ne, decide_eq_true_iff, and_assoc] at digit
  exact digit

/-- Without an escape, a value is what it says. -/
theorem urlDecode_plain (lawful : lib.Lawful) {s : String} (none : percent ∉ utf8 s) :
    urlDecode lib (utf8 s) = s := by
  have same : ∀ bytes : List UInt8, percent ∉ bytes → percentDecode bytes = bytes := by
    intro bytes none
    induction bytes with
    | nil => rfl
    | cons b bytes ih =>
      rw [List.mem_cons, not_or] at none
      rw [percentDecode_cons (Ne.symm none.1), ih none.2]
  rw [urlDecode, same _ none, lawful.lossless]

end Forms

/-! ### What the handlers see -/

section Requests

variable {lib : Libraries} {csrf : Option CsrfToken} {staleSession : Bool} {req : Request}

/-- The text is what the request carries: in the header, else in the query, else in a form that is
not too long. -/
inductive Carries (lib : Libraries) (req : Request) (s : String) : Prop where
  | header : csrfFromHeaders req.headers = some s → Carries lib req s
  | query : csrfFromHeaders req.headers = none → csrfFromQuery lib req.query = some s →
      Carries lib req s
  | form {bytes : List UInt8} : csrfFromHeaders req.headers = none →
      csrfFromQuery lib req.query = none → req.body = some bytes → bytes.length ≤ csrfBodyLimit →
      csrfFromFormBody lib bytes (req.headers.text "content-type") = some s → Carries lib req s

theorem admit_forwarded (lawful : lib.Lawful) {submitted : Option String} {r : Request} :
    admitted lib csrf staleSession req submitted = .forwarded r ↔
      r = req ∧ crossSite req = false ∧ ∃ t, csrf = some t ∧
        submitted = some (t.toBase64url lib) := by
  unfold admitted
  cases far : crossSite req with
  | true => simp
  | false =>
    cases csrf with
    | none => simp
    | some t =>
      cases submitted with
      | none => simp
      | some sub =>
        by_cases same : sub = t.toBase64url lib
        · have accepted : t.verify lib sub = true := (verify_iff lawful).mpr same
          simp only [Bool.not_false, Bool.true_and, accepted, if_true, Verdict.forwarded.injEq]
          exact ⟨fun h => ⟨h.symm, trivial, t, rfl, congrArg some same⟩, fun h => h.1.symm⟩
        · have refused : t.verify lib sub = false :=
            Bool.eq_false_iff.mpr fun h => same ((verify_iff lawful).mp h)
          refine iff_of_false (by simp [refused]) ?_
          rintro ⟨-, -, u, ⟨⟩, ⟨⟩⟩
          exact same rfl

theorem toBytes_eq_some {body : Option (List UInt8)} {limit : ℕ} {bytes : List UInt8} :
    toBytes body limit = some bytes ↔ body = some bytes ∧ bytes.length ≤ limit := by
  rw [toBytes, Option.filter_eq_some_iff, decide_eq_true_iff]

/-- A request reaches its handler unchanged, and only where it needs no token or comes from no
other site and carries the one that is expected. -/
theorem handler_runs_iff (lawful : lib.Lawful) {r : Request} :
    authMiddleware lib csrf staleSession req = .forwarded r ↔
      r = req ∧ (isSafe req = true ∨ isCspReport req = true ∨
        crossSite req = false ∧ ∃ t, csrf = some t ∧ Carries lib req (t.toBase64url lib)) := by
  unfold authMiddleware
  by_cases exempt : isSafe req = true ∨ isCspReport req = true
  · rw [if_pos (by simpa using exempt), ← or_assoc, Verdict.forwarded.injEq]
    exact ⟨fun same => ⟨same.symm, .inl exempt⟩, fun h => h.1.symm⟩
  · rw [if_neg (by simpa using exempt), ← or_assoc, or_iff_right exempt]
    have carried : ∀ s, Carries lib req s ↔
        (csrfFromHeaders req.headers).or (csrfFromQuery lib req.query) = some s ∨
        (csrfFromHeaders req.headers).or (csrfFromQuery lib req.query) = none ∧
          ∃ bytes, toBytes req.body csrfBodyLimit = some bytes ∧
            csrfFromFormBody lib bytes (req.headers.text "content-type") = some s := by
      intro s
      simp only [toBytes_eq_some, Option.or_eq_some_iff, Option.or_eq_none_iff]
      constructor
      · rintro (here | ⟨none, here⟩ | ⟨none, noQuery, body, small, here⟩)
        · exact .inl (.inl here)
        · exact .inl (.inr ⟨none, here⟩)
        · exact .inr ⟨⟨none, noQuery⟩, _, ⟨body, small⟩, here⟩
      · rintro ((here | ⟨none, here⟩) | ⟨⟨none, noQuery⟩, bytes, ⟨body, small⟩, here⟩)
        · exact .header here
        · exact .query none here
        · exact .form none noQuery body small here
    simp only [carried]
    cases (csrfFromHeaders req.headers).or (csrfFromQuery lib req.query) with
    | some sub => simp [admit_forwarded lawful]
    | none =>
      cases read : toBytes req.body csrfBodyLimit with
      | none => simp
      | some bytes =>
        have whole : { req with body := some bytes } = req := by
          rw [← (toBytes_eq_some.mp read).1]
        dsimp only
        rw [whole, admit_forwarded lawful]
        simp

/-- A form whose token is neither in a header nor in the query reaches the handler exactly where it
is not too long and the first field with the name has the token. -/
theorem form_runs_iff (lawful : lib.Lawful) {t : CsrfToken} {fields : List (String × String)}
    {r : Request} (changing : isSafe req = false) (report : isCspReport req = false)
    (form : formType.toList <+: ((req.headers.text "content-type").getD "").toList)
    (header : csrfFromHeaders req.headers = none) (query : csrfFromQuery lib req.query = none)
    (body : req.body = some (serialize fields)) :
    authMiddleware lib (some t) staleSession req = .forwarded r ↔
      r = req ∧ crossSite req = false ∧ (serialize fields).length ≤ csrfBodyLimit ∧
        (fields.find? fun f => decide (f.1 = csrfField)).map Prod.snd =
          some (t.toBase64url lib) := by
  have plain : ∀ c ∈ (t.toBase64url lib).toList, c ≠ ' ' ∧ c ≠ '+' := fun c hc =>
    ⟨(token_chars lawful t c hc).1, (token_chars lawful t c hc).2.1⟩
  have read : csrfFromFormBody lib (serialize fields) (req.headers.text "content-type") =
        some (t.toBase64url lib) ↔
      (fields.find? fun f => decide (f.1 = csrfField)).map Prod.snd =
        some (t.toBase64url lib) := by
    rw [csrfFromFormBody_serialize form]
    simp only [Option.map_eq_some_iff, urlDecode_formText lawful, withPlus_eq plain]
  rw [authMiddleware, if_neg (by simp [changing, report]), header, query, Option.or_none]
  dsimp only
  by_cases small : (serialize fields).length ≤ csrfBodyLimit
  · have whole : { req with body := some (serialize fields) } = req := by rw [← body]
    rw [toBytes_eq_some.mpr ⟨body, small⟩]
    dsimp only
    rw [whole, admit_forwarded lawful]
    simp [small, read]
  · have none : toBytes req.body csrfBodyLimit = none := by
      rw [toBytes, body, Option.filter_some, if_neg (by simpa using small)]
    rw [none]
    simp [small]

theorem csrfFromQuery_token (lawful : lib.Lawful) (t : CsrfToken) :
    csrfFromQuery lib (some (csrfField ++ "=" ++ t.toBase64url lib)) =
      some (t.toBase64url lib) := by
  have chars := token_chars lawful t
  have whole : (csrfField ++ "=" ++ t.toBase64url lib).toList =
      csrfField.toList ++ '=' :: (t.toBase64url lib).toList := by simp
  have single : '&' ∉ csrfField.toList ++ '=' :: (t.toBase64url lib).toList := by
    rw [List.mem_append, List.mem_cons]
    rintro (h | h | h)
    · exact absurd h (by decide)
    · exact absurd h (by decide)
    · exact (chars '&' h).2.2.2.1 rfl
  have parted : splitOnce '=' (csrfField.toList ++ '=' :: (t.toBase64url lib).toList) =
      some (csrfField.toList, (t.toBase64url lib).toList) :=
    splitOnce_eq_some.mpr ⟨by decide, rfl⟩
  have none : percent ∉ utf8 (t.toBase64url lib) := by
    intro h
    rw [← String.ofList_toList (s := t.toBase64url lib), utf8_ofList, List.mem_flatMap] at h
    obtain ⟨c, hc, h⟩ := h
    have ⟨_, _, other, _, ascii⟩ := chars c hc
    rw [utf8EncodeChar_ascii ascii, List.mem_singleton] at h
    have value := congrArg UInt8.toNat h
    rw [UInt8.toNat_ofNat', Nat.mod_eq_of_lt (by omega)] at value
    exact other (Char.toNat_inj.mp value.symm)
  rw [csrfFromQuery, Option.getD_some, whole, List.splitOn_eq_singleton single,
    List.findSome?_singleton, parted]
  dsimp only
  rw [if_pos (String.ofList_toList), String.ofList_toList, urlDecode_plain lawful none]

/-- A form with files sends the token of its page in the query, and its body, of whatever length,
is not read here. -/
theorem query_runs_iff (lawful : lib.Lawful) {t u : CsrfToken} {r : Request}
    (changing : isSafe req = false) (report : isCspReport req = false)
    (header : csrfFromHeaders req.headers = none)
    (query : req.query = some (csrfField ++ "=" ++ u.toBase64url lib)) :
    authMiddleware lib (some t) staleSession req = .forwarded r ↔
      r = req ∧ crossSite req = false ∧ u = t := by
  have same : u.toBase64url lib = t.toBase64url lib ↔ u = t :=
    ⟨toBase64url_inj lawful, fun h => h ▸ rfl⟩
  rw [authMiddleware, if_neg (by simp [changing, report]), header, query,
    csrfFromQuery_token lawful, Option.none_or]
  dsimp only
  rw [admit_forwarded lawful]
  simp [same]

end Requests

/-! ### A browser -/

/-- The library as the base64 crate has it; octets that are no text are shown by one mark. -/
def libraries : Libraries where
  encode bytes := String.ofList (Base64Url.encode bytes)
  decode s := Base64Url.decode s.toList
  fromUtf8Lossy bytes := (fromUtf8 bytes).getD "\uFFFD"

theorem libraries_lawful : libraries.Lawful where
  decoded s bytes := by
    change Base64Url.decode s.toList = some bytes ↔ s = String.ofList (Base64Url.encode bytes)
    rw [Base64Url.decode_eq_some, ← String.toList_inj, String.toList_ofList]
  alphabet bytes c hc := by
    change c ∈ (String.ofList (Base64Url.encode bytes)).toList at hc
    rw [String.toList_ofList] at hc
    exact Base64Url.encode_mem bytes c hc
  lossless s := by
    change (fromUtf8 (utf8 s)).getD _ = s
    rw [fromUtf8_eq_some.mpr rfl, Option.getD_some]

def token : CsrfToken := ⟨Vector.replicate 32 7⟩

def voteFields : List (String × String) :=
  [("location_id", "41"), (csrfField, token.toBase64url libraries), ("vote", "approve")]

def vote : Request where
  method := .post
  path := "/parking/proposals/3/vote"
  query := none
  headers := [("content-type", "application/x-www-form-urlencoded"),
    ("sec-fetch-site", "same-origin")]
  body := some (serialize voteFields)

theorem vote_runs : authMiddleware libraries (some token) false vote = .forwarded vote :=
  (form_runs_iff libraries_lawful rfl rfl (by rfl) rfl rfl rfl).mpr
    ⟨rfl, by rfl, by decide, by simp [voteFields, csrfField]⟩

/-- A script sends the token in a header. -/
def favorite : Request where
  method := .post
  path := "/parking/41/favorite"
  query := none
  headers := [("x-csrf-token", token.toBase64url libraries)]
  body := none

theorem favorite_runs :
    authMiddleware libraries (some token) false favorite = .forwarded favorite :=
  (handler_runs_iff libraries_lawful).mpr
    ⟨rfl, .inr (.inr ⟨by rfl, token, rfl, .header (by rfl)⟩)⟩

def photo : Request where
  method := .post
  path := "/parking/41/photo"
  query := some (csrfField ++ "=" ++ token.toBase64url libraries)
  headers := [("content-type", "multipart/form-data; boundary=x")]
  body := none

theorem photo_runs : authMiddleware libraries (some token) false photo = .forwarded photo :=
  (query_runs_iff libraries_lawful rfl rfl rfl rfl).mpr ⟨rfl, by rfl, rfl⟩

end CsrfTokens
