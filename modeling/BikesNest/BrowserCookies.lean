import BikesNest.CookieJar
import BikesNest.CsrfTokens
import BikesNest.SessionCookies

/-! The cookies that responses set, kept by a browser over a run and read back by later requests.
A session, an anonymous token, a language and the tokens of exports share one jar; each reader gets
what the last response with its cookie gave, until its time is over. -/

namespace BrowserCookies

open Parking PercentCodec DelimitedText CookieJar CsrfTokens SessionCookies
open Credentials (splitOnce splitOnce_eq_some)

/-! ### Lines of the responses -/

def anonCsrfCookie : String := "__Host-csrf"

def clearSessionCookie : String :=
  sessionCookie ++ "=; HttpOnly; Secure; SameSite=Lax; Path=/; Max-Age=0"

def setAnonCsrfCookie (token : String) : String :=
  anonCsrfCookie ++ "=" ++ token ++ "; Path=/; HttpOnly; Secure; SameSite=Lax; Max-Age=3600"

/-- The ids of exports are positive. -/
def exportCookieName (id : ℕ) : String := "export_" ++ id.repr

def exportTokenMaxAgeSeconds : ℕ := 24 * 60 * 60

def setExportCookie (id : ℕ) (token : String) : String :=
  exportCookieName id ++ "=" ++ token ++ "; HttpOnly; Secure; SameSite=Lax; Path=/account/export/" ++
    id.repr ++ "; Max-Age=" ++ exportTokenMaxAgeSeconds.repr

inductive Locale where
  | en | ptBr
  deriving DecidableEq

def Locale.code : Locale → String
  | .en => "en"
  | .ptBr => "pt-br"

def Locale.fromCode (code : String) : Option Locale :=
  let code := String.ofList (code.toList.map Char.toLower)
  if code = "en" then some .en
  else if code = "pt-br" ∨ code = "pt" then some .ptBr
  else none

/-- The cookie of `set_lang`. -/
def setLangCookie (locale : Locale) : String :=
  "lang=" ++ locale.code ++ "; Path=/; Max-Age=31536000; SameSite=Lax"

/-! ### Readers -/

/-- The pairs of the line, as both readers of a line cut it. -/
def pairs (lines : List String) : List (List Char × List Char) :=
  match lines.head?.bind ClientIp.toStr with
  | none => []
  | some cookie => (cookie.toList.splitOn ';').filterMap (splitOnce '=')

/-- `csrf_cookie_value`: a name that comes twice gives nothing. -/
def csrfCookieValue (lines : List String) : Option String :=
  match (pairs lines).filter fun kv => decide (trim (String.ofList kv.1) = anonCsrfCookie) with
  | [pair] => some (trim (String.ofList pair.2))
  | _ => none

def cookieLang (lines : List String) : Option Locale :=
  (cookieValue lines "lang").bind Locale.fromCode

/-- The part of `export_token` that reads the cookie. -/
def exportToken (lines : List String) (id : ℕ) : Option String :=
  cookieValue lines (exportCookieName id)

/-! ### What a response gives -/

inductive Answer where
  | signedIn (id : SessionId)
  | signedOut
  | csrf (token : CsrfToken)
  | lang (locale : Locale)
  | exported (id : ℕ) (token : Vector UInt8 32)

def Answer.setCookie (lib : Libraries) : Answer → String
  | .signedIn id => setSessionCookie id
  | .signedOut => clearSessionCookie
  | .csrf token => setAnonCsrfCookie (token.toBase64url lib)
  | .lang locale => setLangCookie locale
  | .exported id token => setExportCookie id (lib.encode token.toList)

/-- The cookies of the host. -/
inductive Slot where
  | session | csrf | lang
  | download (id : ℕ)
  deriving DecidableEq

def Answer.slot : Answer → Slot
  | .signedIn _ | .signedOut => .session
  | .csrf _ => .csrf
  | .lang _ => .lang
  | .exported id _ => .download id

def Slot.name : Slot → Text
  | .session => sessionCookie.toList
  | .csrf => anonCsrfCookie.toList
  | .lang => "lang".toList
  | .download id => (exportCookieName id).toList

def Slot.path : Slot → Text
  | .session | .csrf | .lang => ['/']
  | .download id => "/account/export/".toList ++ id.repr.toList

def Slot.key (slot : Slot) : Text × Text := (slot.name, slot.path)

def Answer.value (lib : Libraries) : Answer → Text
  | .signedIn id => id.toHex.toList
  | .signedOut => []
  | .csrf token => (token.toBase64url lib).toList
  | .lang locale => locale.code.toList
  | .exported _ token => (lib.encode token.toList).toList

def Answer.maxAge : Answer → ℕ
  | .signedIn _ => 2592000
  | .signedOut => 0
  | .csrf _ => 3600
  | .lang _ => 31536000
  | .exported _ _ => exportTokenMaxAgeSeconds

def Answer.cookie (lib : Libraries) (a : Answer) (time : ℕ) : Cookie :=
  ⟨a.slot.name, a.value lib, a.slot.path, some (time + a.maxAge)⟩

/-- The attributes in the order of each line. -/
def Answer.attributes : Answer → List (Text × Option Text)
  | .signedIn _ =>
    [("HttpOnly".toList, none), ("Secure".toList, none), ("SameSite".toList, some "Lax".toList),
      ("Path".toList, some "/".toList), ("Max-Age".toList, some "2592000".toList)]
  | .signedOut =>
    [("HttpOnly".toList, none), ("Secure".toList, none), ("SameSite".toList, some "Lax".toList),
      ("Path".toList, some "/".toList), ("Max-Age".toList, some "0".toList)]
  | .csrf _ =>
    [("Path".toList, some "/".toList), ("HttpOnly".toList, none), ("Secure".toList, none),
      ("SameSite".toList, some "Lax".toList), ("Max-Age".toList, some "3600".toList)]
  | .lang _ =>
    [("Path".toList, some "/".toList), ("Max-Age".toList, some "31536000".toList),
      ("SameSite".toList, some "Lax".toList)]
  | .exported id _ =>
    [("HttpOnly".toList, none), ("Secure".toList, none), ("SameSite".toList, some "Lax".toList),
      ("Path".toList, some ("/account/export/".toList ++ id.repr.toList)),
      ("Max-Age".toList, some "86400".toList)]

section Lines

variable {lib : Libraries}

theorem setCookie_eq (a : Answer) :
    (a.setCookie lib).toList = write a.slot.name (a.value lib) a.attributes := by
  have age : exportTokenMaxAgeSeconds.repr = "86400" := by decide
  cases a <;>
    · simp only [Answer.setCookie, setSessionCookie, clearSessionCookie, setAnonCsrfCookie,
        setLangCookie, setExportCookie, sessionCookie, anonCsrfCookie, exportCookieName, age,
        Answer.slot, Slot.name, Answer.value, Answer.attributes, write, List.map_cons,
        List.map_nil, join_cons_cons, join_singleton, written, Option.elim_none, Option.elim_some,
        String.toList_append, List.append_assoc]
      repeat rw [String.toList_ofList]
      rfl

/-- A character that a line carries, and a reader gives back. -/
def Carried (c : Char) : Prop := ClientIp.isVisible c = true ∧ c ≠ ';' ∧ isWhitespace c = false

/-- The check of a whole text. -/
def carried (cs : Text) : Bool :=
  cs.all fun c => ClientIp.isVisible c && c != ';' && !isWhitespace c

def named (cs : Text) : Bool := carried cs && !cs.contains '='

theorem carried_chars {cs : Text} (h : carried cs = true) : ∀ c ∈ cs, Carried c := by
  intro c hc
  have good := List.all_eq_true.mp h c hc
  simp only [Bool.and_eq_true, bne_iff_ne, Bool.not_eq_true', and_assoc] at good
  exact good

theorem named_chars {cs : Text} (h : named cs = true) : ∀ c ∈ cs, Carried c ∧ c ≠ '=' := by
  rw [named, Bool.and_eq_true, Bool.not_eq_true'] at h
  intro c hc
  refine ⟨carried_chars h.1 c hc, ?_⟩
  rintro rfl
  have absent := h.2
  rw [List.contains_iff_mem.mpr hc] at absent
  cases absent

theorem blank_of_carried {c : Char} (h : Carried c) : blank c = false := by
  rw [Bool.eq_false_iff]
  intro blanked
  simp only [blank, Bool.or_eq_true, beq_iff_eq] at blanked
  have white : isWhitespace c = true := by
    rcases blanked with rfl | rfl <;> decide
  rw [h.2.2] at white
  cases white

theorem plain_of_carried {cs : Text} (h : ∀ c ∈ cs, Carried c) : Plain cs where
  stripped := strip_of_forall fun c hc => blank_of_carried (h c hc)
  whole := fun semicolon => (h _ semicolon).2.1 rfl

theorem carried_of_digit {c : Char} (digit : c.isDigit = true) : Carried c ∧ c ≠ '=' := by
  have low : 48 ≤ c.toNat ∧ c.toNat ≤ 57 := by
    simpa [Char.isDigit, UInt32.le_iff_toNat_le] using digit
  have apart : ∀ d : Char, d.toNat < 48 ∨ 57 < d.toNat → c ≠ d := by
    rintro d far rfl
    omega
  refine ⟨⟨?_, apart ';' (by decide), ?_⟩, apart '=' (by decide)⟩
  · rw [ClientIp.isVisible, Bool.or_eq_true, Bool.and_eq_true, decide_eq_true_iff,
      decide_eq_true_iff]
    omega
  · simp only [isWhitespace, Bool.or_eq_false_iff, Bool.and_eq_false_iff, decide_eq_false_iff_not,
      beq_eq_false_iff_ne]
    omega

theorem carried_repr (id : ℕ) : ∀ c ∈ id.repr.toList, Carried c ∧ c ≠ '=' := by
  intro c hc
  rw [Nat.toList_repr] at hc
  exact carried_of_digit (Nat.isDigit_of_mem_toDigits (by decide) (by decide) hc)

theorem literal_chars : ∀ text ∈ ["session_id", "__Host-csrf", "lang", "export_"],
    ∀ c ∈ text.toList, Carried c ∧ c ≠ '=' := by
  have all : ["session_id", "__Host-csrf", "lang", "export_"].all fun text =>
      named text.toList := rfl
  exact fun text ht => named_chars (List.all_eq_true.mp all text ht)

theorem name_chars (slot : Slot) : ∀ c ∈ slot.name, Carried c ∧ c ≠ '=' := by
  cases slot with
  | session => exact literal_chars "session_id" (by simp)
  | csrf => exact literal_chars "__Host-csrf" (by simp)
  | lang => exact literal_chars "lang" (by simp)
  | download id =>
    intro c hc
    rw [Slot.name, exportCookieName, String.toList_append, List.mem_append] at hc
    rcases hc with hc | hc
    · exact literal_chars "export_" (by simp) c hc
    · exact carried_repr id c hc

theorem slot_named (slot : Slot) : Name slot.name where
  toPlain := plain_of_carried fun c hc => (name_chars slot c hc).1
  unsplit := fun equals => (name_chars slot _ equals).2 rfl

theorem name_ne_nil (slot : Slot) : slot.name ≠ [] := by
  cases slot <;> simp [Slot.name, sessionCookie, anonCsrfCookie, exportCookieName]

theorem alphabet_carried : ∀ c ∈ Base64Url.alphabet, Carried c := carried_chars rfl

theorem value_chars (lawful : lib.Lawful) (a : Answer) : ∀ c ∈ a.value lib, Carried c := by
  cases a with
  | signedIn id => exact chars_of_spells (fromHex_some.mp (fromHex_toHex id))
  | signedOut => exact fun c hc => absurd hc List.not_mem_nil
  | csrf token => exact fun c hc => alphabet_carried c (lawful.alphabet _ c hc)
  | lang locale => cases locale <;> exact carried_chars rfl
  | exported id token => exact fun c hc => alphabet_carried c (lawful.alphabet _ c hc)

theorem attribute_named : ∀ text ∈ ["HttpOnly", "Secure", "SameSite", "Path", "Max-Age"],
    Name text.toList := by
  have all : ["HttpOnly", "Secure", "SameSite", "Path", "Max-Age"].all fun text =>
      named text.toList := rfl
  intro text ht
  have chars := named_chars (List.all_eq_true.mp all text ht)
  exact ⟨plain_of_carried fun c hc => (chars c hc).1, fun h => (chars _ h).2 rfl⟩

theorem attribute_valued :
    ∀ text ∈ ["Lax", "/", "0", "3600", "86400", "2592000", "31536000"], Plain text.toList := by
  have all : ["Lax", "/", "0", "3600", "86400", "2592000", "31536000"].all fun text =>
      carried text.toList := rfl
  exact fun text ht => plain_of_carried (carried_chars (List.all_eq_true.mp all text ht))

theorem download_path_chars (id : ℕ) :
    ∀ c ∈ "/account/export/".toList ++ id.repr.toList, Carried c := by
  have area : ∀ c ∈ "/account/export/".toList, Carried c := carried_chars rfl
  intro c hc
  rcases List.mem_append.mp hc with hc | hc
  · exact area c hc
  · exact (carried_repr id c hc).1

theorem attributes_plain (a : Answer) :
    ∀ b ∈ a.attributes, Name b.1 ∧ ∀ v ∈ b.2, Plain v := by
  have flag : ∀ {k : Text}, Name k → Name (k, (none : Option Text)).1 ∧
      ∀ v ∈ (k, (none : Option Text)).2, Plain v := fun named => ⟨named, fun v hv => by cases hv⟩
  have valued : ∀ {k v : Text}, Name k → Plain v → Name (k, some v).1 ∧
      ∀ w ∈ (k, some v).2, Plain w := fun named plain => ⟨named, fun w hw => by cases hw; exact plain⟩
  have http := flag (attribute_named "HttpOnly" (by simp))
  have secure := flag (attribute_named "Secure" (by simp))
  have site := valued (attribute_named "SameSite" (by simp)) (attribute_valued "Lax" (by simp))
  have path := attribute_named "Path" (by simp)
  have root := valued path (attribute_valued "/" (by simp))
  have age := attribute_named "Max-Age" (by simp)
  cases a with
  | signedIn id =>
    have time := valued age (attribute_valued "2592000" (by simp))
    simp only [Answer.attributes, List.forall_mem_cons]
    exact ⟨http, secure, site, root, time, by simp⟩
  | signedOut =>
    have time := valued age (attribute_valued "0" (by simp))
    simp only [Answer.attributes, List.forall_mem_cons]
    exact ⟨http, secure, site, root, time, by simp⟩
  | csrf token =>
    have time := valued age (attribute_valued "3600" (by simp))
    simp only [Answer.attributes, List.forall_mem_cons]
    exact ⟨root, http, secure, site, time, by simp⟩
  | lang locale =>
    have time := valued age (attribute_valued "31536000" (by simp))
    simp only [Answer.attributes, List.forall_mem_cons]
    exact ⟨root, time, site, by simp⟩
  | exported id token =>
    have time := valued age (attribute_valued "86400" (by simp))
    have area := valued path (plain_of_carried (download_path_chars id))
    simp only [Answer.attributes, List.forall_mem_cons]
    exact ⟨http, secure, site, area, time, by simp⟩

/-- The line of a response, as a browser reads it. -/
def Answer.read (lib : Libraries) (a : Answer) : SetCookie :=
  ⟨a.slot.name, a.value lib, a.attributes.map fun b => (b.1.map Char.toLower, b.2.getD [])⟩

theorem read_path (a : Answer) (defaultPath : Text) :
    (a.read lib).path defaultPath = a.slot.path := by
  cases a <;> rfl

theorem read_maxAge (a : Answer) : (a.read lib).maxAge = some a.maxAge := by
  cases a <;> rfl

theorem read_allowed (a : Answer) : (a.read lib).allowed = true := by
  cases a with
  | exported id token =>
    have other : "__Host-".toList.isPrefixOf (Slot.download id).name = false := by
      simp [Slot.name, exportCookieName, List.isPrefixOf]
    rw [SetCookie.allowed, Answer.read, Answer.slot, other]
    rfl
  | _ => rfl

/-- A browser stores the cookie of each response as the response means it. -/
theorem receive_setCookie (lawful : lib.Lawful) (jar : Jar) (now : ℕ) (defaultPath : Text)
    (a : Answer) :
    jar.receive now defaultPath (a.setCookie lib).toList = jar.put now (a.cookie lib now) := by
  have parsed : parse (a.setCookie lib).toList = some (a.read lib) := by
    rw [setCookie_eq]
    exact parse_write (slot_named a.slot) (name_ne_nil a.slot)
      (plain_of_carried (value_chars lawful a)) (attributes_plain a)
  have stored : (a.read lib).cookie now defaultPath = a.cookie lib now := by
    rw [SetCookie.cookie, read_path, read_maxAge]
    rfl
  rw [Jar.receive, parsed]
  dsimp only
  rw [if_pos (read_allowed a), stored]

end Lines

/-! ### What a request brings -/

/-- The line that a browser sends. -/
def lineOf (cookies : List Cookie) : List String := (header cookies).toList.map String.ofList

/-- A cookie that a line carries and a reader gives back. -/
structure Readable (c : Cookie) : Prop where
  name : ∀ ch ∈ c.name, Carried ch ∧ ch ≠ '='
  value : ∀ ch ∈ c.value, Carried ch

section Readers

variable {cookies : List Cookie}

theorem toStr_join (all : ∀ c ∈ cookies, Readable c) :
    ClientIp.toStr (String.ofList (join (cookies.map Cookie.pair))) =
      some (String.ofList (join (cookies.map Cookie.pair))) := by
  refine if_pos (List.all_eq_true.mpr fun ch hch => ?_)
  rw [String.toList_ofList] at hch
  rcases mem_join hch with ⟨p, hp, hch⟩ | rfl | rfl
  · obtain ⟨c, hc, rfl⟩ := List.mem_map.mp hp
    rw [Cookie.pair, List.mem_append, List.mem_cons] at hch
    rcases hch with name | rfl | value
    · exact ((all c hc).name ch name).1.1
    · decide
    · exact ((all c hc).value ch value).1
  · decide
  · decide

theorem trim_blank (cs : List Char) :
    trim (String.ofList (' ' :: cs)) = trim (String.ofList cs) := by
  have white : isWhitespace ' ' = true := by decide
  simp only [trim, String.toList_ofList, List.dropWhile_cons_of_pos white]

theorem trim_carried {cs : List Char} (h : ∀ c ∈ cs, Carried c) :
    trim (String.ofList cs) = String.ofList cs :=
  trim_eq_self fun c hc => (h c (by simpa using hc)).2.2

/-- A reader sees the cookies in the order of the line. -/
theorem pairs_line (all : ∀ c ∈ cookies, Readable c) :
    (pairs (lineOf cookies)).map
        (fun kv => (trim (String.ofList kv.1), trim (String.ofList kv.2))) =
      cookies.map fun c => (String.ofList c.name, String.ofList c.value) := by
  cases cookies with
  | nil => rfl
  | cons c cs =>
    have plain : ∀ q ∈ (c :: cs).map Cookie.pair, ';' ∉ q := by
      intro q hq semicolon
      obtain ⟨d, hd, rfl⟩ := List.mem_map.mp hq
      rw [Cookie.pair, List.mem_append, List.mem_cons] at semicolon
      rcases semicolon with name | eq | value
      · exact ((all d hd).name _ name).1.2.1 rfl
      · cases eq
      · exact ((all d hd).value _ value).2.1 rfl
    have line : lineOf (c :: cs) = [String.ofList (join ((c :: cs).map Cookie.pair))] := by
      simp [lineOf, header]
    have parted : ∀ d, Readable d → splitOnce '=' d.pair = some (d.name, d.value) := by
      intro d readable
      exact splitOnce_eq_some.mpr ⟨fun h => (readable.name _ h).2 rfl, rfl⟩
    have blank : ∀ d, Readable d →
        splitOnce '=' (' ' :: d.pair) = some (' ' :: d.name, d.value) := by
      intro d readable
      refine splitOnce_eq_some.mpr ⟨?_, rfl⟩
      rw [List.mem_cons, not_or]
      exact ⟨by decide, fun h => (readable.name _ h).2 rfl⟩
    have read : pairs (lineOf (c :: cs)) =
        (c.name, c.value) :: cs.map fun d => (' ' :: d.name, d.value) := by
      rw [pairs, line, List.head?_cons, Option.bind_some, toStr_join all]
      dsimp only
      rw [String.toList_ofList, List.map_cons, splitOn_join plain,
        List.filterMap_cons_some (parted c (all c List.mem_cons_self)), List.map_map,
        List.filterMap_map]
      refine congrArg _ ?_
      rw [← List.filterMap_eq_map]
      refine List.filterMap_congr fun d hd => ?_
      exact blank d (all d (List.mem_cons_of_mem c hd))
    have value : ∀ d, Readable d → trim (String.ofList d.value) = String.ofList d.value :=
      fun d readable => trim_carried readable.value
    have name : ∀ d, Readable d → trim (String.ofList d.name) = String.ofList d.name :=
      fun d readable => trim_carried fun ch hch => (readable.name ch hch).1
    rw [read, List.map_cons, List.map_cons, List.map_map, name c (all c List.mem_cons_self),
      value c (all c List.mem_cons_self)]
    refine congrArg _ (List.map_congr_left fun d hd => ?_)
    have readable := all d (List.mem_cons_of_mem c hd)
    simp only [Function.comp_apply, trim_blank, name d readable, value d readable]

theorem cookieValue_pairs (lines : List String) (name : String) : cookieValue lines name =
    (((pairs lines).map fun kv => (trim (String.ofList kv.1), trim (String.ofList kv.2))).find?
      fun kv => decide (kv.1 = name)).map Prod.snd := by
  rw [cookieValue, pairs]
  cases lines.head?.bind ClientIp.toStr with
  | none => rfl
  | some cookie =>
    simp only [Option.bind_eq_bind, Option.bind_some, Option.pure_def, List.find?_map,
      Option.map_map, Function.comp_def]
    generalize (cookie.toList.splitOn ';').filterMap (splitOnce '=') = ps
    exact Option.map_eq_bind.symm

/-- The first cookie with the name is read. -/
theorem cookieValue_line (all : ∀ c ∈ cookies, Readable c) (name : String) :
    cookieValue (lineOf cookies) name =
      (cookies.find? fun c => decide (c.name = name.toList)).map fun c =>
        String.ofList c.value := by
  rw [cookieValue_pairs, pairs_line all, List.find?_map, Option.map_map]
  have same : ((fun kv : String × String => decide (kv.1 = name)) ∘ fun c : Cookie =>
      (String.ofList c.name, String.ofList c.value)) = fun c => decide (c.name = name.toList) := by
    funext c
    exact decide_eq_decide.mpr (by rw [← String.toList_inj, String.toList_ofList])
  rw [same]
  rfl

theorem named_line (all : ∀ c ∈ cookies, Readable c) (name : String) :
    ((pairs (lineOf cookies)).filter fun kv => decide (trim (String.ofList kv.1) = name)).map
        (fun kv => (trim (String.ofList kv.1), trim (String.ofList kv.2))) =
      (cookies.filter fun c => decide (c.name = name.toList)).map
        fun c => (String.ofList c.name, String.ofList c.value) := by
  have left := congrArg (List.filter fun kv : String × String => decide (kv.1 = name))
    (pairs_line all)
  rw [List.filter_map, List.filter_map] at left
  have same : ((fun kv : String × String => decide (kv.1 = name)) ∘ fun c : Cookie =>
      (String.ofList c.name, String.ofList c.value)) =
        fun c => decide (c.name = name.toList) := by
    funext c
    exact decide_eq_decide.mpr (by rw [← String.toList_inj, String.toList_ofList])
  rw [same, Function.comp_def] at left
  exact left

theorem csrfCookieValue_line (all : ∀ c ∈ cookies, Readable c) :
    csrfCookieValue (lineOf cookies) =
      match cookies.filter fun c => decide (c.name = anonCsrfCookie.toList) with
      | [c] => some (String.ofList c.value)
      | _ => none := by
  have trimmed := named_line all anonCsrfCookie
  rw [csrfCookieValue]
  generalize (pairs (lineOf cookies)).filter (fun kv =>
    decide (trim (String.ofList kv.1) = anonCsrfCookie)) = found at trimmed
  generalize cookies.filter (fun c => decide (c.name = anonCsrfCookie.toList)) = named at trimmed
  cases found with
  | nil =>
    rw [List.map_nil, eq_comm, List.map_eq_nil_iff] at trimmed
    rw [trimmed]
  | cons kv found =>
    cases named with
    | nil => cases trimmed
    | cons c named =>
      rw [List.map_cons, List.map_cons, List.cons.injEq, Prod.mk.injEq] at trimmed
      obtain ⟨⟨-, value⟩, rest⟩ := trimmed
      cases found with
      | nil =>
        rw [List.map_nil, eq_comm, List.map_eq_nil_iff] at rest
        rw [rest]
        exact congrArg some value
      | cons other found =>
        cases named with
        | nil => cases rest
        | cons d named => rfl

end Readers

/-! ### Runs -/

/-- A browser, with the last response that each cookie came with and its time. -/
structure State where
  jar : Jar
  clock : ℕ
  held : Slot → Option (Answer × ℕ)

inductive Event where
  | wait (seconds : ℕ)
  | answer (a : Answer) (defaultPath : Text)

def initial : State := ⟨Table.empty, 0, fun _ => none⟩

def step (lib : Libraries) (s : State) : Event → State
  | .wait seconds => { s with clock := s.clock + seconds }
  | .answer a defaultPath =>
    { s with
      jar := s.jar.receive s.clock defaultPath (a.setCookie lib).toList
      held := Function.update s.held a.slot (some (a, s.clock)) }

def run (lib : Libraries) (events : List Event) : State := events.foldl (step lib) initial

/-- The line of a request to the path. -/
def State.lines (s : State) (request : Text) : List String := lineOf (s.jar.sent s.clock request)

def inForce (clock : ℕ) (p : Answer × ℕ) : Bool := decide (clock < p.2 + p.1.maxAge)

def State.current (s : State) (slot : Slot) : Option (Answer × ℕ) :=
  (s.held slot).filter (inForce s.clock)

/-- The jar holds what the last responses gave and what has expired since. -/
structure Kept (lib : Libraries) (s : State) : Prop where
  known : ∀ c ∈ s.jar, ∃ a : Answer, ∃ time, c = a.cookie lib time
  slots : ∀ slot p, s.held slot = some p → p.1.slot = slot
  same : ∀ slot : Slot, (s.jar.find slot.key).filter (Cookie.live s.clock) =
    (s.current slot).map fun p => p.1.cookie lib p.2

section Runs

variable {lib : Libraries} {s : State}

theorem name_injective : Function.Injective Slot.name := by
  have apart : ∀ id, (Slot.download id).name.head? = some 'e' := by
    simp [Slot.name, exportCookieName]
  intro a b same
  cases a with
  | download i =>
    cases b with
    | download j =>
      simp only [Slot.name, exportCookieName, String.toList_append, List.append_cancel_left_eq,
        String.toList_inj, Nat.repr_inj] at same
      rw [same]
    | session | csrf | lang =>
      have first := apart i
      rw [same] at first
      exact absurd first (by decide)
  | session | csrf | lang =>
    cases b with
    | download j =>
      have first := apart j
      rw [← same] at first
      exact absurd first (by decide)
    | session | csrf | lang =>
      first
        | rfl
        | exact absurd same (by decide)

theorem key_injective : Function.Injective Slot.key := fun _ _ same =>
  name_injective (congrArg Prod.fst same)

theorem kept_initial : Kept lib initial where
  known := fun c hc => absurd hc (Table.not_mem_empty c)
  slots := fun slot p h => by cases h
  same := fun slot => rfl

theorem filter_filter_of_imp {α : Type*} {p q : α → Bool} (o : Option α)
    (imp : ∀ a, p a = true → q a = true) : (o.filter q).filter p = o.filter p := by
  rw [Option.filter_filter]
  refine congrArg (o.filter ·) (funext fun a => ?_)
  cases here : p a with
  | false => simp
  | true => simp [imp a here]

theorem live_cookie {clock time : ℕ} {a : Answer} :
    (a.cookie lib time).live clock = inForce clock (a, time) := rfl

/-- Time only takes cookies away, on both sides the same ones. -/
theorem kept_wait (kept : Kept lib s) (seconds : ℕ) : Kept lib (step lib s (.wait seconds)) where
  known := kept.known
  slots := kept.slots
  same := fun slot => by
    let later := s.clock + seconds
    have age : ∀ c : Cookie, c.live later = true → c.live s.clock = true := fun c =>
      live_of_le (Nat.le_add_right s.clock seconds)
    have force : ∀ p, inForce later p = true → inForce s.clock p = true := by
      rintro ⟨a, time⟩ h
      exact age (a.cookie lib time) h
    have before := congrArg (Option.filter (Cookie.live later)) (kept.same slot)
    rw [filter_filter_of_imp _ age, Option.filter_map, State.current] at before
    have after : ((s.held slot).filter (inForce s.clock)).filter (inForce later) =
        (s.held slot).filter (inForce later) := filter_filter_of_imp _ force
    exact before.trans (congrArg (Option.map fun p => p.1.cookie lib p.2) after)

theorem kept_answer (lawful : lib.Lawful) (kept : Kept lib s) (a : Answer) (defaultPath : Text) :
    Kept lib (step lib s (.answer a defaultPath)) := by
  have stored := receive_setCookie lawful s.jar s.clock defaultPath a
  refine ⟨fun c hc => ?_, fun slot p h => ?_, fun slot => ?_⟩
  · change c ∈ s.jar.receive s.clock defaultPath (a.setCookie lib).toList at hc
    rw [stored] at hc
    rcases mem_put hc with rfl | hc
    · exact ⟨a, s.clock, rfl⟩
    · exact kept.known c hc
  · change Function.update s.held a.slot (some (a, s.clock)) slot = some p at h
    by_cases here : slot = a.slot
    · subst here
      rw [Function.update_self, Option.some.injEq] at h
      rw [← h]
    · rw [Function.update_of_ne here] at h
      exact kept.slots slot p h
  · change ((s.jar.receive s.clock defaultPath (a.setCookie lib).toList).find slot.key).filter
        (Cookie.live s.clock) =
      ((Function.update s.held a.slot (some (a, s.clock)) slot).filter (inForce s.clock)).map _
    rw [stored, find_put]
    by_cases here : slot = a.slot
    · subst here
      have key : (a.cookie lib s.clock).key = a.slot.key := rfl
      rw [if_pos key, Function.update_self, Option.filter_some, Option.filter_some, live_cookie]
      split <;> rfl
    · have key : (a.cookie lib s.clock).key ≠ slot.key := fun same =>
        here (key_injective same).symm
      rw [if_neg key, Function.update_of_ne here, filter_filter_of_imp _ fun _ h => h]
      exact kept.same slot

theorem kept_run (lawful : lib.Lawful) (events : List Event) : Kept lib (run lib events) := by
  induction events using List.reverseRecOn with
  | nil => exact kept_initial
  | append_singleton events e ih =>
    rw [run, List.foldl_append]
    cases e with
    | wait seconds => exact kept_wait ih seconds
    | answer a defaultPath => exact kept_answer lawful ih a defaultPath

theorem filter_eq_toList {α : Type*} {l : List α} {p : α → Bool} {o : Option α} (nodup : l.Nodup)
    (mem : ∀ a, a ∈ l ∧ p a = true ↔ o = some a) : l.filter p = o.toList := by
  cases o with
  | none =>
    refine List.filter_eq_nil_iff.mpr fun a ha h => ?_
    cases (mem a).mp ⟨ha, h⟩
  | some a =>
    refine List.perm_singleton.mp ((List.perm_ext_iff_of_nodup (nodup.filter p)
      (List.nodup_singleton a)).mpr fun b => ?_)
    rw [List.mem_filter, mem, Option.some.injEq, List.mem_singleton, eq_comm]

/-- Of the cookies that a request brings, one at most has the name of the slot. -/
theorem filter_sent (kept : Kept lib s) (slot : Slot) (request : Text) :
    (s.jar.sent s.clock request).filter (fun c => decide (c.name = slot.name)) =
      (if pathMatch request slot.path then (s.current slot).map fun p => p.1.cookie lib p.2
        else none).toList := by
  refine filter_eq_toList (sent_nodup _ _ _) fun c => ?_
  have stored : c ∈ s.jar → c.name = slot.name → c.key = slot.key := by
    intro hc named
    obtain ⟨a, time, rfl⟩ := kept.known c hc
    exact congrArg Slot.key (name_injective named)
  have holds : (s.current slot).map (fun p => p.1.cookie lib p.2) = some c ↔
      c ∈ s.jar ∧ c.key = slot.key ∧ c.live s.clock = true := by
    rw [← kept.same slot, Option.filter_eq_some_iff, Table.find_eq_some, and_assoc]
  rw [mem_sent, decide_eq_true_iff]
  constructor
  · rintro ⟨⟨hc, live, area⟩, named⟩
    have key := stored hc named
    have path : c.path = slot.path := congrArg Prod.snd key
    rw [path] at area
    rw [if_pos area, holds]
    exact ⟨hc, key, live⟩
  · intro h
    split at h
    · rename_i area
      obtain ⟨hc, key, live⟩ := holds.mp h
      have path : c.path = slot.path := congrArg Prod.snd key
      exact ⟨⟨hc, live, path ▸ area⟩, congrArg Prod.fst key⟩
    · cases h

theorem sent_readable (lawful : lib.Lawful) (kept : Kept lib s) (request : Text) :
    ∀ c ∈ s.jar.sent s.clock request, Readable c := by
  intro c hc
  obtain ⟨a, time, rfl⟩ := kept.known c (mem_sent.mp hc).1
  exact ⟨name_chars a.slot, value_chars lawful a⟩

/-- A reader of one name gets what the last response with the cookie gave. -/
theorem cookieValue_lines (lawful : lib.Lawful) (kept : Kept lib s) (slot : Slot) {name : String}
    (named : name.toList = slot.name) (request : Text) :
    cookieValue (s.lines request) name =
      if pathMatch request slot.path then
        (s.current slot).map fun p => String.ofList (p.1.value lib)
      else none := by
  rw [State.lines, cookieValue_line (sent_readable lawful kept request), named,
    ← List.head?_filter, filter_sent kept]
  split
  · cases s.current slot <;> rfl
  · rfl

theorem csrfCookieValue_lines (lawful : lib.Lawful) (kept : Kept lib s) {request : Text}
    (rooted : request.head? = some '/') :
    csrfCookieValue (s.lines request) =
      (s.current .csrf).map fun p => String.ofList (p.1.value lib) := by
  have root : pathMatch request Slot.csrf.path = true := pathMatch_root rooted
  have sent := filter_sent kept .csrf request
  rw [if_pos root] at sent
  rw [State.lines, csrfCookieValue_line (sent_readable lawful kept request)]
  change (match (s.jar.sent s.clock request).filter fun c => decide (c.name = Slot.csrf.name) with
    | [c] => some (String.ofList c.value)
    | _ => none) = _
  rw [sent]
  cases s.current .csrf <;> rfl

end Runs

/-! ### What the readers know -/

/-- The identity that the browser was last given, while it lasts. -/
def State.session (s : State) : Option SessionId :=
  match s.current .session with
  | some (.signedIn id, _) => some id
  | _ => none

def State.csrf (s : State) : Option CsrfToken :=
  match s.current .csrf with
  | some (.csrf token, _) => some token
  | _ => none

def State.lang (s : State) : Option Locale :=
  match s.current .lang with
  | some (.lang locale, _) => some locale
  | _ => none

def State.export (s : State) (id : ℕ) : Option (Vector UInt8 32) :=
  match s.current (.download id) with
  | some (.exported _ token, _) => some token
  | _ => none

/-- The page of the export, and what lies below it. -/
def InArea (id : ℕ) (request : Text) : Prop :=
  ∃ rest, request = (Slot.download id).path ++ rest ∧ (rest = [] ∨ rest.head? = some '/')

section Readings

variable {lib : Libraries} {s : State}

theorem current_slot (kept : Kept lib s) {slot : Slot} {p : Answer × ℕ}
    (h : s.current slot = some p) : p.1.slot = slot :=
  kept.slots slot p (Option.filter_eq_some_iff.mp h).1

theorem digits_repr (id : ℕ) : ∀ c ∈ id.repr.toList, c.isDigit = true := by
  intro c hc
  rw [Nat.toList_repr] at hc
  exact Nat.isDigit_of_mem_toDigits (by decide) (by decide) hc

theorem download_path (id : ℕ) :
    (Slot.download id).path = "/account/export/".toList ++ id.repr.toList := rfl

theorem area_iff {id : ℕ} {request : Text} :
    pathMatch request (Slot.download id).path = true ↔ InArea id request := by
  have last : (Slot.download id).path.getLast? ≠ some '/' := by
    have digits : id.repr.toList ≠ [] := by simp [Nat.toDigits_ne_nil]
    rw [download_path, List.getLast?_append_of_ne_nil _ digits]
    intro slash
    have digit : Char.isDigit '/' = true := digits_repr id '/' (List.mem_of_getLast? slash)
    simp at digit
  rw [pathMatch_iff]
  constructor
  · rintro (same | ⟨rest, same, slash | slash⟩)
    · exact ⟨[], by rw [same, List.append_nil], .inl rfl⟩
    · exact absurd slash last
    · exact ⟨rest, same, .inr slash⟩
  · rintro ⟨rest, same, rfl | slash⟩
    · exact .inl (by rw [same, List.append_nil])
    · exact .inr ⟨rest, same, .inr slash⟩

theorem takeWhile_digits {digits rest : Text} (all : ∀ c ∈ digits, c.isDigit = true)
    (ends : rest = [] ∨ rest.head? = some '/') :
    (digits ++ rest).takeWhile Char.isDigit = digits := by
  rw [List.takeWhile_append_of_pos all]
  rcases ends with rfl | slash
  · simp
  · obtain ⟨tail, rfl⟩ := List.head?_eq_some_iff.mp slash
    have other : ¬ Char.isDigit '/' = true := by simp
    rw [List.takeWhile_cons_of_neg other, List.append_nil]

/-- No path lies in the areas of two exports, though one number may begin with the other. -/
theorem area_unique {i j : ℕ} {request : Text} (hi : InArea i request) (hj : InArea j request) :
    i = j := by
  obtain ⟨rest, same, ends⟩ := hi
  obtain ⟨tail, other, closes⟩ := hj
  rw [same, download_path, download_path, List.append_assoc, List.append_assoc,
    List.append_cancel_left_eq] at other
  have digits := congrArg (List.takeWhile Char.isDigit) other
  rw [takeWhile_digits (digits_repr i) ends, takeWhile_digits (digits_repr j) closes,
    String.toList_inj] at digits
  exact Nat.repr_injective digits

theorem fromCode_code (locale : Locale) :
    Locale.fromCode (String.ofList locale.code.toList) = some locale := by
  cases locale <;> rfl

theorem sessionOf_lines (lawful : lib.Lawful) (kept : Kept lib s) {request : Text}
    (rooted : request.head? = some '/') : sessionOf (s.lines request) = .ok s.session := by
  have root : pathMatch request Slot.session.path = true := pathMatch_root rooted
  rw [sessionOf, cookieValue_lines lawful kept .session rfl, if_pos root, State.session]
  cases here : s.current .session with
  | none => rfl
  | some p =>
    obtain ⟨a, time⟩ := p
    have slot := current_slot kept here
    cases a with
    | signedIn id =>
      change SessionId.fromHex (String.ofList id.toHex.toList) = _
      rw [String.ofList_toList]
      exact fromHex_toHex id
    | signedOut => rfl
    | csrf _ | lang _ | exported _ _ => cases slot

theorem csrf_lines (lawful : lib.Lawful) (kept : Kept lib s) {request : Text}
    (rooted : request.head? = some '/') :
    (csrfCookieValue (s.lines request)).bind (CsrfToken.fromBase64url lib) = s.csrf := by
  rw [csrfCookieValue_lines lawful kept rooted, State.csrf]
  cases here : s.current .csrf with
  | none => rfl
  | some p =>
    obtain ⟨a, time⟩ := p
    have slot := current_slot kept here
    cases a with
    | csrf token => exact (fromBase64url_eq_some lawful).mpr String.ofList_toList
    | signedIn _ | signedOut | lang _ | exported _ _ => cases slot

theorem cookieLang_lines (lawful : lib.Lawful) (kept : Kept lib s) {request : Text}
    (rooted : request.head? = some '/') : cookieLang (s.lines request) = s.lang := by
  have root : pathMatch request Slot.lang.path = true := pathMatch_root rooted
  rw [cookieLang, cookieValue_lines lawful kept .lang rfl, if_pos root, State.lang]
  cases here : s.current .lang with
  | none => rfl
  | some p =>
    obtain ⟨a, time⟩ := p
    have slot := current_slot kept here
    cases a with
    | lang locale =>
      rw [Option.map_some, Option.bind_some]
      exact fromCode_code locale
    | signedIn _ | signedOut | csrf _ | exported _ _ => cases slot

theorem exportToken_lines (lawful : lib.Lawful) (kept : Kept lib s) {id : ℕ} {request : Text}
    (area : InArea id request) :
    exportToken (s.lines request) id = (s.export id).map fun token => lib.encode token.toList := by
  rw [exportToken, cookieValue_lines lawful kept (.download id) rfl, if_pos (area_iff.mpr area),
    State.export]
  cases here : s.current (.download id) with
  | none => rfl
  | some p =>
    obtain ⟨a, time⟩ := p
    have slot := current_slot kept here
    cases a with
    | exported i token => exact congrArg some String.ofList_toList
    | signedIn _ | signedOut | csrf _ | lang _ => cases slot

/-- What a browser was given last is what every later request shows, under each reader and until
its time is over; a token of an export goes to the paths of that export only. -/
theorem cookies_read_back (lawful : lib.Lawful) (events : List Event) {request : Text}
    (rooted : request.head? = some '/') :
    sessionOf ((run lib events).lines request) = .ok (run lib events).session ∧
    (csrfCookieValue ((run lib events).lines request)).bind (CsrfToken.fromBase64url lib) =
      (run lib events).csrf ∧
    cookieLang ((run lib events).lines request) = (run lib events).lang ∧
    (∀ id, InArea id request → exportToken ((run lib events).lines request) id =
      ((run lib events).export id).map fun token => lib.encode token.toList) ∧
    (∀ id, ¬ InArea id request → exportToken ((run lib events).lines request) id = none) ∧
    (∀ i j, InArea i request → InArea j request → i = j) := by
  have kept := kept_run lawful events
  refine ⟨sessionOf_lines lawful kept rooted, csrf_lines lawful kept rooted,
    cookieLang_lines lawful kept rooted, fun id area => exportToken_lines lawful kept area,
    fun id outside => ?_, fun i j => area_unique⟩
  rw [exportToken, cookieValue_lines lawful kept (.download id) rfl,
    if_neg fun inside => outside (area_iff.mp inside)]

/-- Two exports whose numbers begin alike, asked for a minute apart. -/
def twoExports : List Event :=
  [.answer (.exported 12 (Vector.replicate 32 1)) "/account/privacy/export".toList, .wait 60,
    .answer (.exported 123 (Vector.replicate 32 2)) "/account/privacy/export".toList, .wait 3600]

theorem twoExports_apart :
    exportToken ((run libraries twoExports).lines "/account/export/123/download".toList) 123 =
      some (libraries.encode (List.replicate 32 2)) ∧
    exportToken ((run libraries twoExports).lines "/account/export/123/download".toList) 12 =
      none := by
  have area : InArea 123 "/account/export/123/download".toList :=
    ⟨"/download".toList, by decide +kernel, .inr rfl⟩
  have rooted : "/account/export/123/download".toList.head? = some '/' := rfl
  have read := cookies_read_back libraries_lawful twoExports rooted
  have other : ¬ InArea 12 "/account/export/123/download".toList := fun inside =>
    absurd (read.2.2.2.2.2 12 123 inside area) (by decide)
  exact ⟨read.2.2.2.1 123 area, read.2.2.2.2.1 12 other⟩

end Readings

end BrowserCookies
