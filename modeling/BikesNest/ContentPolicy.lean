import BikesNest.ClientIp
import BikesNest.DelimitedText

/-! The content security policies of the pages. A policy is put together from the configured hosts
and read by a browser as a list of directives; a host that is not an origin is left out, so that no
host can add a directive or change one that is not its own. The Google profile allows more, on map
pages only. -/

namespace ContentPolicy

open DelimitedText

/-! ### How a browser reads a policy -/

/-- A directive: its name in lower case, and its sources. -/
abbrev Directive := Text × List Text

def directive (token : Text) : Option Directive :=
  match words token with
  | [] => none
  | name :: sources => some (name.map Char.toLower, sources)

/-- Of the directives with one name, the first counts. -/
def firsts : List Directive → List Directive
  | [] => []
  | d :: ds => d :: (firsts ds).filter fun e => decide (e.1 ≠ d.1)

def parsePolicy (policy : Text) : List Directive :=
  firsts ((policy.splitOn ';').filterMap directive)

def render (ds : List Directive) : Text := join (ds.map fun d => spaced (d.1 :: d.2))

/-- A directive that a policy can carry. -/
structure Plain (d : Directive) : Prop where
  name : Word d.1
  lower : d.1.map Char.toLower = d.1
  sources : ∀ s ∈ d.2, Word s
  whole : ∀ w ∈ d.1 :: d.2, ';' ∉ w

section Policies

theorem firsts_eq_self {ds : List Directive} (nodup : (ds.map Prod.fst).Nodup) :
    firsts ds = ds := by
  induction ds with
  | nil => rfl
  | cons d ds ih =>
    rw [List.map_cons, List.nodup_cons] at nodup
    rw [firsts, ih nodup.2]
    refine congrArg (d :: ·) (List.filter_eq_self.mpr fun e he => decide_eq_true fun same => ?_)
    exact nodup.1 (same ▸ List.mem_map.mpr ⟨e, he, rfl⟩)

theorem directive_spaced {d : Directive} (plain : Plain d) :
    directive (spaced (d.1 :: d.2)) = some d := by
  have all : ∀ w ∈ d.1 :: d.2, Word w := by
    intro w hw
    rcases List.mem_cons.mp hw with rfl | hw
    · exact plain.name
    · exact plain.sources w hw
  rw [directive, words_spaced all]
  dsimp only
  rw [plain.lower]

theorem directive_blank (token : Text) : directive (' ' :: token) = directive token := by
  rw [directive, words_blank, directive]

/-- A policy is read as it was put together. -/
theorem parsePolicy_render {ds : List Directive} (plain : ∀ d ∈ ds, Plain d)
    (nodup : (ds.map Prod.fst).Nodup) : parsePolicy (render ds) = ds := by
  cases ds with
  | nil => rfl
  | cons d ds =>
    have whole : ∀ q ∈ (d :: ds).map fun d => spaced (d.1 :: d.2), ';' ∉ q := by
      intro q hq semicolon
      obtain ⟨e, he, rfl⟩ := List.mem_map.mp hq
      rcases mem_spaced semicolon with ⟨w, hw, inside⟩ | blank
      · exact (plain e he).whole w hw inside
      · cases blank
    have read : ((ds.map fun d => spaced (d.1 :: d.2)).map (' ' :: ·)).filterMap directive =
        ds := by
      rw [List.map_map, List.filterMap_map]
      have each : ∀ e ∈ ds, (directive ∘ (' ' :: ·) ∘ fun d : Directive => spaced (d.1 :: d.2)) e =
          some e := by
        intro e he
        exact (directive_blank _).trans (directive_spaced (plain e (List.mem_cons_of_mem d he)))
      rw [List.filterMap_congr each, List.filterMap_some]
    rw [parsePolicy, render, List.map_cons, splitOn_join whole,
      List.filterMap_cons_some (directive_spaced (plain d List.mem_cons_self)), read,
      firsts_eq_self nodup]

end Policies

/-! ### The configured hosts -/

def stripPrefix (start : String) (cs : Text) : Option Text :=
  if start.toList <+: cs then some (cs.drop start.length) else none

/-- `rsplit_once` -/
def rsplitOnce (sep : Char) (cs : Text) : Option (Text × Text) :=
  match cs.reverse.dropWhile (· != sep) with
  | [] => none
  | _ :: front => some (front.reverse, (cs.reverse.takeWhile (· != sep)).reverse)

def unsigned : Text → Text
  | '+' :: digits => digits
  | digits => digits

/-- `str::parse::<u16>`, of a text that may start with a plus. -/
def parseU16 (cs : Text) : Option ℕ :=
  let digits := unsigned cs
  if digits ≠ [] ∧ digits.all Char.isDigit ∧ Nat.ofDigitChars 10 digits 0 < 65536 then
    some (Nat.ofDigitChars 10 digits 0)
  else none

def portOk (port : Text) : Bool :=
  (parseU16 port).any (0 < ·) && !decide (port.head? = some '0')

def labelOk (label : Text) : Bool :=
  !label.isEmpty && decide ((String.ofList label).utf8ByteSize ≤ 63) &&
    !decide (label.head? = some '-') && !decide (label.getLast? = some '-') &&
    label.all fun c => c.isAlphanum || c == '-'

/-- `validate_csp_origin`, without the text of its error. -/
def validateCspOrigin (source : String) : Bool :=
  match (stripPrefix "https://" source.toList).or (stripPrefix "http://" source.toList) with
  | none => false
  | some rest =>
    let (host, port) := match rsplitOnce ':' rest with
      | some (host, port) => (host, some port)
      | none => (rest, none)
    let labels := (stripPrefix "*." host).getD host
    port.all portOk && !labels.isEmpty && decide ((String.ofList labels).utf8ByteSize ≤ 253) &&
      (labels.splitOn '.').all labelOk

def validOrigins (hosts : List String) : List String := hosts.filter validateCspOrigin

structure SecurityConfig where
  tileHosts : List String
  geocodeHosts : List String
  mediaHosts : List String

inductive MapConfig where
  | mapLibre | mapbox | google
  deriving DecidableEq

/-! ### The policies -/

structure Sources where
  tileHosts : List String
  geocodeHosts : List String
  mediaHosts : List String
  mapboxMaps : Bool

def joinHosts (hosts : List String) : String :=
  if hosts.isEmpty then "" else " " ++ String.intercalate " " hosts

def googleContent : String :=
  " https://*.googleapis.com" ++ " https://*.gstatic.com" ++ " https://*.google.com" ++
    " https://*.ggpht.com" ++ " https://*.googleusercontent.com"

def googleConnect (google : Bool) : String := if google then " data: blob:" else ""

def frame (google : Bool) : String := if google then "; frame-src https://*.google.com" else ""

def reporting : String := "report-uri /csp-report" ++ "; " ++ "report-to csp-endpoint"

def Sources.mapboxContent (s : Sources) : String :=
  if s.mapboxMaps then " https://api.mapbox.com https://events.mapbox.com" else ""

def Sources.styleImgFont (s : Sources) (google : Bool) : String :=
  "style-src 'self' 'unsafe-inline'" ++ (if google then " https://fonts.googleapis.com" else "") ++
    "; " ++
  "img-src 'self' data: blob:" ++ joinHosts s.tileHosts ++ joinHosts s.mediaHosts ++
    (if google then googleContent else "") ++ s.mapboxContent ++ "; " ++
  "font-src 'self'" ++ joinHosts s.tileHosts ++ (if google then " https://fonts.gstatic.com" else "")

def Sources.enforced (s : Sources) (google : Bool) : String :=
  "default-src 'self'" ++ "; " ++
  "script-src 'self'" ++
    (if google then " 'unsafe-inline' 'unsafe-eval'" ++ googleContent ++ " blob:" else "") ++
    " https://static.cloudflareinsights.com" ++ "; " ++
  s.styleImgFont google ++ "; " ++
  "connect-src 'self'" ++ joinHosts s.tileHosts ++ joinHosts s.geocodeHosts ++
    (if google then googleContent else "") ++ googleConnect google ++ s.mapboxContent ++
    " https://cloudflareinsights.com" ++ "; " ++
  "worker-src 'self' blob:" ++ "; " ++ "object-src 'none'" ++ "; " ++ "base-uri 'self'" ++ "; " ++
  "frame-ancestors 'none'" ++ "; " ++ "form-action 'self'" ++ frame google ++ "; " ++ reporting

/-- The candidate before and after its nonce. -/
def Sources.candidate (s : Sources) (google : Bool) : String × String :=
  ("default-src 'self'" ++ "; " ++ "script-src 'nonce-",
    "' 'strict-dynamic'" ++ (if google then " 'unsafe-eval'" else "") ++ "; " ++
    s.styleImgFont google ++ "; " ++
    "connect-src 'self'" ++ joinHosts s.tileHosts ++ joinHosts s.geocodeHosts ++
      (if google then googleContent else "") ++ googleConnect google ++ s.mapboxContent ++ "; " ++
    "worker-src 'self' blob:" ++ "; " ++ "object-src 'none'" ++ "; " ++ "base-uri 'self'" ++ "; " ++
    "frame-ancestors 'none'" ++ "; " ++ "form-action 'self'" ++ frame google ++ "; " ++ reporting)

def fallbackCsp : String :=
  "default-src 'self'; object-src 'none'; base-uri 'self'; frame-ancestors 'none'; " ++
    "form-action 'self'"

structure Policies where
  enforced : String
  candidateHead : String
  candidateTail : String

/-- `HeaderValue::from_str` -/
def headerValue (text : String) : Option String :=
  if text.toList.all fun c => (32 ≤ c.toNat && c.toNat != 127) || c == '\t' then some text else none

/-- A policy that is no header value is replaced by the one that allows nothing. -/
def Sources.policies (s : Sources) (google : Bool) : Policies :=
  ⟨(headerValue (s.enforced google)).getD fallbackCsp, (s.candidate google).1,
    (s.candidate google).2⟩

structure SecurityHeaders where
  googleMaps : Bool
  page : Policies
  map : Policies

def sourcesOf (config : SecurityConfig) (map : MapConfig) : Sources where
  tileHosts := validOrigins config.tileHosts
  geocodeHosts := validOrigins config.geocodeHosts
  mediaHosts := validOrigins config.mediaHosts
  mapboxMaps := decide (map = .mapbox)

def SecurityHeaders.new (config : SecurityConfig) (map : MapConfig) : SecurityHeaders where
  googleMaps := decide (map = .google)
  page := (sourcesOf config map).policies false
  map := (sourcesOf config map).policies (decide (map = .google))

def SecurityHeaders.policies (s : SecurityHeaders) (mapPage : Bool) : Policies :=
  if mapPage then s.map else s.page

def SecurityHeaders.csp (s : SecurityHeaders) (mapPage : Bool) : String :=
  (ClientIp.toStr (s.policies mapPage).enforced).getD fallbackCsp

def SecurityHeaders.candidateCsp (s : SecurityHeaders) (nonce : String) (mapPage : Bool) : String :=
  (s.policies mapPage).candidateHead ++ nonce ++ (s.policies mapPage).candidateTail

/-- A nonce is written with lower-case digits. -/
structure CspNonce where
  text : String
  digits : ∀ c ∈ text.toList, c ∈ "0123456789abcdef".toList

/-! ### What the policies mean -/

abbrev Table := List (String × List String)

def googleSources : List String :=
  ["https://*.googleapis.com", "https://*.gstatic.com", "https://*.google.com",
    "https://*.ggpht.com", "https://*.googleusercontent.com"]

def whenever (b : Bool) (sources : List String) : List String := if b then sources else []

/-- The end of both policies. Frames are allowed for the Google profile only. -/
def trailer (google : Bool) : Table :=
  (if google then [("frame-src", ["https://*.google.com"])] else []) ++
    [("report-uri", ["/csp-report"]), ("report-to", ["csp-endpoint"])]

/-- What both policies say about everything but scripts. -/
def Sources.shared (s : Sources) (google : Bool) (analytics : List String) : Table :=
  ("style-src", ["'self'", "'unsafe-inline'"] ++ whenever google ["https://fonts.googleapis.com"]) ::
  ("img-src", ["'self'", "data:", "blob:"] ++ s.tileHosts ++ s.mediaHosts ++
    whenever google googleSources ++
    whenever s.mapboxMaps ["https://api.mapbox.com", "https://events.mapbox.com"]) ::
  ("font-src", ["'self'"] ++ s.tileHosts ++ whenever google ["https://fonts.gstatic.com"]) ::
  ("connect-src", ["'self'"] ++ s.tileHosts ++ s.geocodeHosts ++ whenever google googleSources ++
    whenever google ["data:", "blob:"] ++
    whenever s.mapboxMaps ["https://api.mapbox.com", "https://events.mapbox.com"] ++ analytics) ::
  ("worker-src", ["'self'", "blob:"]) :: ("object-src", ["'none'"]) :: ("base-uri", ["'self'"]) ::
  ("frame-ancestors", ["'none'"]) :: ("form-action", ["'self'"]) :: trailer google

def Sources.allowed (s : Sources) (google : Bool) : Table :=
  ("default-src", ["'self'"]) ::
    ("script-src", ["'self'"] ++
      whenever google (["'unsafe-inline'", "'unsafe-eval'"] ++ googleSources ++ ["blob:"]) ++
      ["https://static.cloudflareinsights.com"]) ::
    s.shared google ["https://cloudflareinsights.com"]

def Sources.proposed (s : Sources) (google : Bool) (nonce : CspNonce) : Table :=
  ("default-src", ["'self'"]) ::
    ("script-src", ["'nonce-" ++ nonce.text ++ "'", "'strict-dynamic'"] ++
      whenever google ["'unsafe-eval'"]) ::
    s.shared google []

def directives (table : Table) : List Directive :=
  table.map fun row => (row.1.toList, row.2.map String.toList)

section Texts

variable {s : Sources} {google : Bool}

/-- The sources after the name of a directive. -/
def sourceText (sources : List String) : Text := sources.flatMap fun w => ' ' :: w.toList

def rowText (row : String × List String) : Text := row.1.toList ++ sourceText row.2

theorem spaced_cons (w : Text) (ws : List Text) : spaced (w :: ws) = w ++ ws.flatMap (' ' :: ·) := by
  induction ws generalizing w with
  | nil => simp [spaced]
  | cons v ws ih =>
    have step : spaced (w :: v :: ws) = w ++ ' ' :: spaced (v :: ws) := by simp [spaced]
    rw [step, ih, List.flatMap_cons, List.cons_append]

theorem render_directives (table : Table) : render (directives table) = join (table.map rowText) := by
  rw [render, directives, List.map_map]
  refine congrArg join (List.map_congr_left fun row _ => ?_)
  change spaced (row.1.toList :: row.2.map String.toList) = _
  rw [spaced_cons, List.flatMap_map]
  rfl

theorem sourceText_append (a b : List String) :
    sourceText (a ++ b) = sourceText a ++ sourceText b := List.flatMap_append

theorem toList_joinHosts (hosts : List String) : (joinHosts hosts).toList = sourceText hosts := by
  cases hosts with
  | nil => rfl
  | cons host hosts =>
    have blank : " ".toList = [' '] := rfl
    have joined : (String.intercalate " " (host :: hosts)).toList =
        spaced ((host :: hosts).map String.toList) := by
      rw [String.toList_intercalate, blank, spaced]
    rw [joinHosts, if_neg (by simp), String.toList_append, joined, List.map_cons, spaced_cons,
      List.flatMap_map]
    rfl

/-! A literal is read through its characters: to evaluate it would be to decode its octets. -/

theorem sources_cons {w cs : Text} {ws : List String} (rest : sourceText ws = cs) :
    sourceText (String.ofList w :: ws) = ' ' :: (w ++ cs) := by
  rw [sourceText, List.flatMap_cons, String.toList_ofList]
  exact congrArg (fun cs => ' ' :: (w ++ cs)) rest

theorem head_literal {whole name cs : Text} {sources : List String}
    (texts : sourceText sources = cs) (eq : whole = name ++ cs) :
    (String.ofList whole).toList = (String.ofList name).toList ++ sourceText sources := by
  rw [String.toList_ofList, String.toList_ofList, texts, eq]

theorem row_literal {whole name cs : Text} {sources : List String}
    (texts : sourceText sources = cs) (eq : whole = name ++ cs) :
    rowText (String.ofList name, sources) = (String.ofList whole).toList :=
  (head_literal texts eq).symm

theorem toList_literal {whole : Text} {sources : List String} (texts : sourceText sources = whole) :
    (String.ofList whole).toList = sourceText sources := String.toList_ofList.trans texts.symm

theorem toList_whenever {whole : Text} {sources : List String} (b : Bool)
    (texts : sourceText sources = whole) :
    (if b then String.ofList whole else "").toList = sourceText (whenever b sources) := by
  cases b with
  | false => rfl
  | true => exact toList_literal texts

theorem toList_googleContent (google : Bool) :
    (if google then googleContent else "").toList = sourceText (whenever google googleSources) := by
  cases google with
  | false => rfl
  | true =>
    delta googleContent
    simp only [if_true, String.toList_append, whenever, googleSources, sourceText,
      List.flatMap_cons, List.flatMap_nil, List.append_nil]
    repeat rw [String.toList_ofList]
    rfl

theorem toList_mapboxContent (s : Sources) : s.mapboxContent.toList =
    sourceText (whenever s.mapboxMaps ["https://api.mapbox.com", "https://events.mapbox.com"]) :=
  toList_whenever s.mapboxMaps (sources_cons (sources_cons rfl))

theorem toList_googleConnect (google : Bool) :
    (googleConnect google).toList = sourceText (whenever google ["data:", "blob:"]) :=
  toList_whenever google (sources_cons (sources_cons rfl))

theorem styleImgFont_rows (s : Sources) (google : Bool) :
    (s.styleImgFont google).toList =
      rowText ("style-src", ["'self'", "'unsafe-inline'"] ++
        whenever google ["https://fonts.googleapis.com"]) ++ ';' :: ' ' ::
      (rowText ("img-src", ["'self'", "data:", "blob:"] ++ s.tileHosts ++ s.mediaHosts ++
        whenever google googleSources ++
        whenever s.mapboxMaps ["https://api.mapbox.com", "https://events.mapbox.com"]) ++
          ';' :: ' ' ::
      rowText ("font-src", ["'self'"] ++ s.tileHosts ++
        whenever google ["https://fonts.gstatic.com"])) := by
  have semicolon : "; ".toList = [';', ' '] := rfl
  have style : (if google then " https://fonts.googleapis.com" else "").toList =
      sourceText (whenever google ["https://fonts.googleapis.com"]) :=
    toList_whenever google (sources_cons rfl)
  have font : (if google then " https://fonts.gstatic.com" else "").toList =
      sourceText (whenever google ["https://fonts.gstatic.com"]) :=
    toList_whenever google (sources_cons rfl)
  have styleHead : "style-src 'self' 'unsafe-inline'".toList =
      "style-src".toList ++ sourceText ["'self'", "'unsafe-inline'"] :=
    head_literal (sources_cons (sources_cons rfl)) rfl
  have imgHead : "img-src 'self' data: blob:".toList =
      "img-src".toList ++ sourceText ["'self'", "data:", "blob:"] :=
    head_literal (sources_cons (sources_cons (sources_cons rfl))) rfl
  have fontHead : "font-src 'self'".toList = "font-src".toList ++ sourceText ["'self'"] :=
    head_literal (sources_cons rfl) rfl
  delta Sources.styleImgFont
  simp only [rowText, String.toList_append, sourceText_append, semicolon, style, font, styleHead,
    imgHead, fontHead, toList_joinHosts, toList_googleContent, toList_mapboxContent]
  simp only [List.append_assoc, List.cons_append, List.nil_append]

theorem connect_row (s : Sources) (google : Bool) (analytics : List String) :
    rowText ("connect-src", ["'self'"] ++ s.tileHosts ++ s.geocodeHosts ++
      whenever google googleSources ++ whenever google ["data:", "blob:"] ++
      whenever s.mapboxMaps ["https://api.mapbox.com", "https://events.mapbox.com"] ++ analytics) =
    ("connect-src 'self'" ++ joinHosts s.tileHosts ++ joinHosts s.geocodeHosts ++
      (if google then googleContent else "") ++ googleConnect google ++
      s.mapboxContent).toList ++ sourceText analytics := by
  have head : "connect-src 'self'".toList = "connect-src".toList ++ sourceText ["'self'"] :=
    head_literal (sources_cons rfl) rfl
  simp only [rowText, sourceText_append, String.toList_append, head, toList_joinHosts,
    toList_googleContent, toList_googleConnect, toList_mapboxContent, List.append_assoc]

/-- The part that both policies share, as the rows of its table. -/
theorem shared_rows (s : Sources) (google : Bool) (analytics : List String) :
    join ((s.shared google analytics).map rowText) =
      (s.styleImgFont google ++ "; " ++
        ("connect-src 'self'" ++ joinHosts s.tileHosts ++ joinHosts s.geocodeHosts ++
          (if google then googleContent else "") ++ googleConnect google ++
          s.mapboxContent)).toList ++ sourceText analytics ++
      ("; " ++ "worker-src 'self' blob:" ++ "; " ++ "object-src 'none'" ++ "; " ++
        "base-uri 'self'" ++ "; " ++ "frame-ancestors 'none'" ++ "; " ++
        ("form-action 'self'" ++ frame google ++ "; " ++ reporting)).toList := by
  have semicolon : "; ".toList = [';', ' '] := rfl
  have worker : rowText ("worker-src", ["'self'", "blob:"]) = "worker-src 'self' blob:".toList :=
    row_literal (sources_cons (sources_cons rfl)) rfl
  have object : rowText ("object-src", ["'none'"]) = "object-src 'none'".toList :=
    row_literal (sources_cons rfl) rfl
  have base : rowText ("base-uri", ["'self'"]) = "base-uri 'self'".toList :=
    row_literal (sources_cons rfl) rfl
  have ancestors : rowText ("frame-ancestors", ["'none'"]) = "frame-ancestors 'none'".toList :=
    row_literal (sources_cons rfl) rfl
  have close : join (rowText ("form-action", ["'self'"]) :: (trailer google).map rowText) =
      ("form-action 'self'" ++ frame google ++ "; " ++ reporting).toList := by
    delta reporting
    cases google <;>
      · simp only [trailer, frame, join_cons_cons, join_singleton, rowText, sourceText,
          List.flatMap_cons, List.flatMap_nil, String.toList_append, List.map_cons, List.map_nil,
          List.nil_append, List.cons_append, if_true, Bool.false_eq_true, if_false]
        repeat rw [String.toList_ofList]
        rfl
  rw [Sources.shared]
  simp only [List.map_cons, join_cons_cons, connect_row, worker, object, base, ancestors, close]
  generalize ("connect-src 'self'" ++ joinHosts s.tileHosts ++ joinHosts s.geocodeHosts ++
    (if google then googleContent else "") ++ googleConnect google ++ s.mapboxContent) = connect
  generalize ("form-action 'self'" ++ frame google ++ "; " ++ reporting) = last
  simp only [String.toList_append, styleImgFont_rows, semicolon, List.append_assoc,
    List.cons_append, List.nil_append]

theorem enforced_rows (s : Sources) (google : Bool) :
    (s.enforced google).toList = render (directives (s.allowed google)) := by
  have semicolon : "; ".toList = [';', ' '] := rfl
  have default : rowText ("default-src", ["'self'"]) = "default-src 'self'".toList :=
    row_literal (sources_cons rfl) rfl
  have script : rowText ("script-src", ["'self'"] ++
      whenever google (["'unsafe-inline'", "'unsafe-eval'"] ++ googleSources ++ ["blob:"]) ++
      ["https://static.cloudflareinsights.com"]) =
      ("script-src 'self'" ++
        (if google then " 'unsafe-inline' 'unsafe-eval'" ++ googleContent ++ " blob:" else "") ++
        " https://static.cloudflareinsights.com").toList := by
    have head : "script-src 'self'".toList = "script-src".toList ++ sourceText ["'self'"] :=
      head_literal (sources_cons rfl) rfl
    have google : (if google then " 'unsafe-inline' 'unsafe-eval'" ++ googleContent ++ " blob:"
        else "").toList = sourceText (whenever google
          (["'unsafe-inline'", "'unsafe-eval'"] ++ googleSources ++ ["blob:"])) := by
      cases google with
      | false => rfl
      | true =>
        have eval : " 'unsafe-inline' 'unsafe-eval'".toList =
            sourceText ["'unsafe-inline'", "'unsafe-eval'"] :=
          toList_literal (sources_cons (sources_cons rfl))
        have blob : " blob:".toList = sourceText ["blob:"] := toList_literal (sources_cons rfl)
        have content := toList_googleContent true
        rw [if_pos rfl, whenever, if_pos rfl] at content
        rw [if_pos rfl, String.toList_append, String.toList_append, eval, content, blob, whenever,
          if_pos rfl, sourceText_append, sourceText_append]
    have beacon : " https://static.cloudflareinsights.com".toList =
        sourceText ["https://static.cloudflareinsights.com"] :=
      toList_literal (sources_cons rfl)
    simp only [rowText, sourceText_append, String.toList_append, head, google, beacon,
      List.append_assoc]
  have analytics : sourceText ["https://cloudflareinsights.com"] =
      " https://cloudflareinsights.com".toList :=
    (sources_cons rfl).trans String.toList_ofList.symm
  have shared := shared_rows s google ["https://cloudflareinsights.com"]
  have rows : (s.shared google ["https://cloudflareinsights.com"]).map rowText ≠ [] := by
    simp [Sources.shared]
  rw [render_directives, Sources.allowed, List.map_cons, List.map_cons, default, script,
    join_cons_cons, join_cons rows, shared, analytics]
  delta Sources.enforced
  simp only [String.toList_append, semicolon, List.append_assoc, List.cons_append,
    List.nil_append]

theorem candidate_rows (s : Sources) (google : Bool) (nonce : CspNonce) :
    ((s.candidate google).1 ++ nonce.text ++ (s.candidate google).2).toList =
      render (directives (s.proposed google nonce)) := by
  have semicolon : "; ".toList = [';', ' '] := rfl
  have default : rowText ("default-src", ["'self'"]) = "default-src 'self'".toList :=
    row_literal (sources_cons rfl) rfl
  have script : rowText ("script-src", ["'nonce-" ++ nonce.text ++ "'", "'strict-dynamic'"] ++
      whenever google ["'unsafe-eval'"]) =
      ("script-src 'nonce-" ++ nonce.text ++
        ("' 'strict-dynamic'" ++ (if google then " 'unsafe-eval'" else ""))).toList := by
    have head : "script-src 'nonce-".toList = "script-src".toList ++ ' ' :: "'nonce-".toList := by
      repeat rw [String.toList_ofList]
      rfl
    have dynamic : "' 'strict-dynamic'".toList = "'".toList ++ sourceText ["'strict-dynamic'"] :=
      head_literal (sources_cons rfl) rfl
    have eval : (if google then " 'unsafe-eval'" else "").toList =
        sourceText (whenever google ["'unsafe-eval'"]) :=
      toList_whenever google (sources_cons rfl)
    have tail : ("' 'strict-dynamic'" ++ (if google then " 'unsafe-eval'" else "")).toList =
        "'".toList ++ sourceText (["'strict-dynamic'"] ++ whenever google ["'unsafe-eval'"]) := by
      rw [String.toList_append, dynamic, eval, sourceText_append, List.append_assoc]
    rw [String.toList_append, String.toList_append, head, tail]
    simp only [rowText, sourceText, List.cons_append, List.nil_append, List.flatMap_cons,
      String.toList_append, List.append_assoc]
  have shared := shared_rows s google []
  have rows : (s.shared google []).map rowText ≠ [] := by
    simp [Sources.shared]
  rw [render_directives, Sources.proposed, List.map_cons, List.map_cons, default, script,
    join_cons_cons, join_cons rows, shared]
  delta Sources.candidate
  simp only [String.toList_append, semicolon, List.append_assoc, List.cons_append,
    List.nil_append, sourceText, List.flatMap_nil]

end Texts

/-! ### What the configuration can put in a policy -/

/-- A source as an origin is written. -/
def originChar (c : Char) : Bool := c.isAlphanum || ['-', '.', ':', '*', '/', '+'].contains c

def plainChar (c : Char) : Bool := !white c && c != ';' && ClientIp.isVisible c

/-- A source that stays one source, in a header. -/
def plainSource (w : String) : Bool := filled w.toList && w.toList.all plainChar

section Origins

theorem alphanum_range {c : Char} (h : c.isAlphanum = true) :
    48 ≤ c.toNat ∧ c.toNat ≤ 57 ∨ 65 ≤ c.toNat ∧ c.toNat ≤ 122 := by
  simp [Char.isAlphanum, Char.isAlpha, Char.isUpper, Char.isLower, Char.isDigit,
    UInt32.le_iff_toNat_le, -Char.toNat_val] at h
  have value : c.val.toNat = c.toNat := rfl
  omega

theorem originChar_plain {c : Char} (h : originChar c = true) : plainChar c = true := by
  rcases (Bool.or_eq_true ..).mp h with alphanum | sign
  · have range := alphanum_range alphanum
    have apart : ∀ d : Char, d.toNat < 48 ∨ 57 < d.toNat ∧ d.toNat < 65 → (c == d) = false := by
      intro d far
      refine beq_eq_false_iff_ne.mpr ?_
      rintro rfl
      omega
    have visible : ClientIp.isVisible c = true := by
      rw [ClientIp.isVisible, Bool.or_eq_true, Bool.and_eq_true, decide_eq_true_iff,
        decide_eq_true_iff]
      omega
    have blank : white c = false := by
      simp only [white, apart ' ' (by decide), apart '\t' (by decide), apart '\n' (by decide),
        apart '\x0c' (by decide), apart '\r' (by decide), Bool.or_false]
    rw [plainChar, visible, blank, bne, apart ';' (by decide)]
    rfl
  · have signs := List.contains_iff_mem.mp sign
    simp only [List.mem_cons, List.not_mem_nil, or_false] at signs
    rcases signs with rfl | rfl | rfl | rfl | rfl | rfl <;> decide

theorem mem_stripPrefix {start : String} {cs rest : Text} (h : stripPrefix start cs = some rest) :
    cs = start.toList ++ rest := by
  rw [stripPrefix, Option.ite_none_right_eq_some, Option.some.injEq] at h
  obtain ⟨⟨tail, rfl⟩, rfl⟩ := h
  rw [← String.length_toList, List.drop_left]

theorem rsplitOnce_eq {sep : Char} {cs front back : Text}
    (h : rsplitOnce sep cs = some (front, back)) : cs = front ++ sep :: back := by
  rw [rsplitOnce] at h
  split at h
  · cases h
  · rename_i x rest found
    rw [Option.some.injEq, Prod.mk.injEq] at h
    obtain ⟨rfl, rfl⟩ := h
    have here : x = sep := by
      have kept := List.head?_dropWhile_not (· != sep) cs.reverse
      rw [found] at kept
      simpa using kept
    subst here
    have whole : cs.reverse.takeWhile (· != x) ++ x :: rest = cs.reverse := by
      rw [← found, List.takeWhile_append_dropWhile]
    have back := congrArg List.reverse whole
    rw [List.reverse_reverse, List.reverse_append, List.reverse_cons, List.append_assoc] at back
    exact back.symm

theorem originChar_of_digit {c : Char} (digit : c.isDigit = true) : originChar c = true := by
  rw [originChar, Char.isAlphanum, digit, Bool.or_true, Bool.true_or]

theorem port_chars {port : Text} (ok : portOk port = true) : ∀ c ∈ port, originChar c = true := by
  rw [portOk, Bool.and_eq_true, Option.any_eq_true] at ok
  obtain ⟨⟨n, parsed, -⟩, -⟩ := ok
  obtain ⟨⟨-, digits, -⟩, -⟩ := Option.ite_none_right_eq_some.mp parsed
  intro c hc
  have signed : c = '+' ∨ c ∈ unsigned port := by
    rw [unsigned.eq_def]
    split
    · exact List.mem_cons.mp hc
    · exact .inr hc
  rcases signed with rfl | digit
  · decide
  · exact originChar_of_digit (List.all_eq_true.mp digits c digit)

theorem label_chars {label : Text} (ok : labelOk label = true) :
    ∀ c ∈ label, originChar c = true := by
  intro c hc
  rw [labelOk, Bool.and_eq_true, List.all_eq_true] at ok
  have letter := ok.2 c hc
  rw [Bool.or_eq_true] at letter
  rcases letter with alphanum | hyphen
  · rw [originChar, alphanum, Bool.true_or]
  · rw [beq_iff_eq.mp hyphen]
    decide

theorem host_chars {host : Text}
    (ok : (((stripPrefix "*." host).getD host).splitOn '.').all labelOk) :
    ∀ c ∈ host, originChar c = true := by
  have labels : ∀ c ∈ (stripPrefix "*." host).getD host, originChar c = true := by
    intro c hc
    rcases mem_splitOn '.' hc with rfl | ⟨label, hl, inside⟩
    · decide
    · exact label_chars (List.all_eq_true.mp ok label hl) c inside
  cases wildcard : stripPrefix "*." host with
  | none => rwa [wildcard] at labels
  | some rest =>
    rw [wildcard] at labels
    intro c hc
    rw [mem_stripPrefix wildcard, List.mem_append] at hc
    have start : "*.".toList.all originChar = true := by
      rw [String.toList_ofList]
      rfl
    rcases hc with here | later
    · exact List.all_eq_true.mp start c here
    · exact labels c later

/-- An origin is written in letters, digits and a few signs. -/
theorem origin_chars {source : String} (ok : validateCspOrigin source = true) :
    source.toList ≠ [] ∧ ∀ c ∈ source.toList, originChar c = true := by
  have tls : "https://".toList.all originChar = true := by
    rw [String.toList_ofList]
    rfl
  have plain : "http://".toList.all originChar = true := by
    rw [String.toList_ofList]
    rfl
  rw [validateCspOrigin] at ok
  cases found : (stripPrefix "https://" source.toList).or (stripPrefix "http://" source.toList) with
  | none =>
    rw [found] at ok
    cases ok
  | some rest =>
    rw [found] at ok
    have later : ∀ c ∈ rest, originChar c = true := by
      cases split : rsplitOnce ':' rest with
      | none =>
        simp only [split, Bool.and_eq_true] at ok
        exact host_chars ok.2
      | some ends =>
        simp only [split, Bool.and_eq_true, Option.all_some] at ok
        rw [rsplitOnce_eq split]
        intro c hc
        rcases List.mem_append.mp hc with host | port
        · exact host_chars ok.2 c host
        · rcases List.mem_cons.mp port with rfl | port
          · decide
          · exact port_chars ok.1.1.1 c port
    have whole : ∃ start : String, start.toList.all originChar = true ∧ start.toList ≠ [] ∧
        source.toList = start.toList ++ rest := by
      rcases Option.or_eq_some_iff.mp found with first | ⟨-, second⟩
      · exact ⟨"https://", tls, by simp, mem_stripPrefix first⟩
      · exact ⟨"http://", plain, by simp, mem_stripPrefix second⟩
    obtain ⟨start, signs, nonempty, eq⟩ := whole
    rw [eq]
    refine ⟨List.append_ne_nil_of_left_ne_nil nonempty rest, fun c hc => ?_⟩
    rcases List.mem_append.mp hc with here | there
    · exact List.all_eq_true.mp signs c here
    · exact later c there

theorem plainSource_of_valid {source : String} (ok : validateCspOrigin source = true) :
    plainSource source = true := by
  obtain ⟨nonempty, chars⟩ := origin_chars ok
  rw [plainSource, Bool.and_eq_true, List.all_eq_true]
  exact ⟨by simpa [filled] using nonempty, fun c hc => originChar_plain (chars c hc)⟩

end Origins

/-! ### The policies of every configuration -/

def plainName (name : String) : Bool :=
  plainSource name && decide (name.toList.map Char.toLower = name.toList)

def plainRow (row : String × List String) : Bool := plainName row.1 && row.2.all plainSource

section Tables

variable {table : Table} {s : Sources} {google : Bool}

theorem word_of_plain {w : String} (plain : plainSource w = true) :
    Word w.toList ∧ ';' ∉ w.toList ∧ ∀ c ∈ w.toList, ClientIp.isVisible c = true := by
  rw [plainSource, Bool.and_eq_true, List.all_eq_true] at plain
  have each : ∀ c ∈ w.toList, white c = false ∧ c ≠ ';' ∧ ClientIp.isVisible c = true := by
    intro c hc
    simpa only [plainChar, Bool.and_eq_true, Bool.not_eq_true', bne_iff_ne, and_assoc]
      using plain.2 c hc
  exact ⟨⟨plain.1, fun c hc => (each c hc).1⟩, fun semicolon => (each _ semicolon).2.1 rfl,
    fun c hc => (each c hc).2.2⟩

theorem mem_row {row : String × List String} (plain : plainRow row = true) :
    ∀ w ∈ row.1 :: row.2, plainSource w = true := by
  rw [plainRow, plainName, Bool.and_eq_true, Bool.and_eq_true, List.all_eq_true] at plain
  intro w hw
  rcases List.mem_cons.mp hw with rfl | source
  · exact plain.1.1
  · exact plain.2 w source

theorem plain_of_row {row : String × List String} (plain : plainRow row = true) :
    Plain (row.1.toList, row.2.map String.toList) where
  name := (word_of_plain (mem_row plain _ List.mem_cons_self)).1
  lower := by
    rw [plainRow, plainName, Bool.and_eq_true, Bool.and_eq_true, decide_eq_true_iff] at plain
    exact plain.1.2
  sources := by
    intro w hw
    obtain ⟨source, hs, rfl⟩ := List.mem_map.mp hw
    exact (word_of_plain (mem_row plain source (List.mem_cons_of_mem _ hs))).1
  whole := by
    intro w hw
    change w ∈ row.1.toList :: row.2.map String.toList at hw
    rw [← List.map_cons] at hw
    obtain ⟨source, hs, rfl⟩ := List.mem_map.mp hw
    exact (word_of_plain (mem_row plain source hs)).2.1

theorem parsePolicy_directives (plain : table.all plainRow = true)
    (nodup : (table.map Prod.fst).Nodup) :
    parsePolicy (render (directives table)) = directives table := by
  refine parsePolicy_render (fun d hd => ?_) ?_
  · obtain ⟨row, hr, rfl⟩ := List.mem_map.mp hd
    exact plain_of_row (List.all_eq_true.mp plain row hr)
  · have names : (directives table).map Prod.fst = (table.map Prod.fst).map String.toList := by
      rw [directives, List.map_map, List.map_map]
      rfl
    rw [names]
    exact nodup.map fun a b => String.toList_inj.mp

theorem visible_directives (plain : table.all plainRow = true) :
    ∀ c ∈ render (directives table), ClientIp.isVisible c = true := by
  intro c hc
  rcases mem_join hc with ⟨text, ht, inside⟩ | rfl | rfl
  · obtain ⟨d, hd, rfl⟩ := List.mem_map.mp ht
    obtain ⟨row, hr, rfl⟩ := List.mem_map.mp hd
    rcases mem_spaced inside with ⟨w, hw, inside⟩ | rfl
    · change w ∈ row.1.toList :: row.2.map String.toList at hw
      rw [← List.map_cons] at hw
      obtain ⟨source, hs, rfl⟩ := List.mem_map.mp hw
      have row := mem_row (List.all_eq_true.mp plain row hr) source hs
      exact (word_of_plain row).2.2 c inside
    · decide
  · decide
  · decide

/-- The hosts of the sources are origins. -/
structure Sources.Valid (s : Sources) : Prop where
  tile : s.tileHosts.all plainSource = true
  geocode : s.geocodeHosts.all plainSource = true
  media : s.mediaHosts.all plainSource = true

theorem sourcesOf_valid (config : SecurityConfig) (map : MapConfig) :
    (sourcesOf config map).Valid := by
  have kept : ∀ hosts : List String, (validOrigins hosts).all plainSource = true := by
    intro hosts
    rw [List.all_eq_true]
    intro host hh
    exact plainSource_of_valid (List.mem_filter.mp hh).2
  exact ⟨kept _, kept _, kept _⟩

theorem plain_literal {cs : Text} (plain : (filled cs && cs.all plainChar) = true) :
    plainSource (String.ofList cs) = true := by
  rw [plainSource, String.toList_ofList, plain]

theorem plain_cons {w : String} {ws : List String} (first : plainSource w = true)
    (rest : ws.all plainSource = true) : (w :: ws).all plainSource = true := by
  rw [List.all_cons, first, rest]
  rfl

theorem plain_append {ws vs : List String} (first : ws.all plainSource = true)
    (rest : vs.all plainSource = true) : (ws ++ vs).all plainSource = true := by
  rw [List.all_append, first, rest]
  rfl

theorem whenever_plain {sources : List String} (b : Bool) (plain : sources.all plainSource = true) :
    (whenever b sources).all plainSource = true := by
  cases b with
  | false => rfl
  | true => exact plain

theorem plain_row {name : Text} {sources : List String}
    (named : (filled name && name.all plainChar) = true) (lower : name.map Char.toLower = name)
    (plain : sources.all plainSource = true) : plainRow (String.ofList name, sources) = true := by
  rw [plainRow, plainName, plain_literal named, plain, String.toList_ofList, decide_eq_true lower]
  rfl

theorem self_plain : ["'self'"].all plainSource = true := plain_cons (plain_literal rfl) rfl

theorem google_plain : googleSources.all plainSource = true :=
  plain_cons (plain_literal rfl) (plain_cons (plain_literal rfl) (plain_cons (plain_literal rfl)
    (plain_cons (plain_literal rfl) (plain_cons (plain_literal rfl) rfl))))

theorem trailer_plain (google : Bool) : (trailer google).all plainRow = true := by
  have uri : plainRow ("report-uri", ["/csp-report"]) = true :=
    plain_row rfl rfl (plain_cons (plain_literal rfl) rfl)
  have endpoint : plainRow ("report-to", ["csp-endpoint"]) = true :=
    plain_row rfl rfl (plain_cons (plain_literal rfl) rfl)
  have frames : plainRow ("frame-src", ["https://*.google.com"]) = true :=
    plain_row rfl rfl (plain_cons (plain_literal rfl) rfl)
  cases google with
  | false => simp only [trailer, Bool.false_eq_true, if_false, List.nil_append, List.all_cons,
      List.all_nil, uri, endpoint, Bool.and_self]
  | true => simp only [trailer, if_true, List.cons_append, List.nil_append, List.all_cons,
      List.all_nil, uri, endpoint, frames, Bool.and_self]

theorem shared_plain (valid : s.Valid) {analytics : List String}
    (plain : analytics.all plainSource = true) :
    (s.shared google analytics).all plainRow = true := by
  have mapbox : (whenever s.mapboxMaps
      ["https://api.mapbox.com", "https://events.mapbox.com"]).all plainSource = true :=
    whenever_plain s.mapboxMaps (plain_cons (plain_literal rfl) (plain_cons (plain_literal rfl) rfl))
  have googleHosts := whenever_plain google google_plain
  have none : ["'none'"].all plainSource = true := plain_cons (plain_literal rfl) rfl
  have blob : ["blob:"].all plainSource = true := plain_cons (plain_literal rfl) rfl
  have inline : ["data:", "blob:"].all plainSource = true := plain_cons (plain_literal rfl) blob
  have style := plain_append
    (plain_cons (plain_literal rfl) (plain_cons (plain_literal rfl) rfl) :
      ["'self'", "'unsafe-inline'"].all plainSource = true)
    (whenever_plain google (plain_cons (plain_literal rfl) rfl :
      ["https://fonts.googleapis.com"].all plainSource = true))
  have img := plain_append (plain_append (plain_append (plain_append
    (plain_cons (plain_literal rfl) inline : ["'self'", "data:", "blob:"].all plainSource = true)
    valid.tile) valid.media) googleHosts) mapbox
  have font := plain_append (plain_append self_plain valid.tile)
    (whenever_plain google (plain_cons (plain_literal rfl) rfl :
      ["https://fonts.gstatic.com"].all plainSource = true))
  have connect := plain_append (plain_append (plain_append (plain_append (plain_append
    (plain_append self_plain valid.tile) valid.geocode) googleHosts)
    (whenever_plain google inline)) mapbox) plain
  have worker : ["'self'", "blob:"].all plainSource = true := plain_cons (plain_literal rfl) blob
  simp only [Sources.shared, List.all_cons, Bool.and_eq_true]
  exact ⟨plain_row rfl rfl style, plain_row rfl rfl img, plain_row rfl rfl font,
    plain_row rfl rfl connect, plain_row rfl rfl worker, plain_row rfl rfl none,
    plain_row rfl rfl self_plain, plain_row rfl rfl none, plain_row rfl rfl self_plain,
    trailer_plain google⟩

theorem allowed_plain (valid : s.Valid) : (s.allowed google).all plainRow = true := by
  have loaders : (["'unsafe-inline'", "'unsafe-eval'"] ++ googleSources ++ ["blob:"]).all
      plainSource = true :=
    plain_append (plain_append
      (plain_cons (plain_literal rfl) (plain_cons (plain_literal rfl) rfl)) google_plain)
      (plain_cons (plain_literal rfl) rfl)
  have beacon : ["https://static.cloudflareinsights.com"].all plainSource = true :=
    plain_cons (plain_literal rfl) rfl
  have analytics : ["https://cloudflareinsights.com"].all plainSource = true :=
    plain_cons (plain_literal rfl) rfl
  simp only [Sources.allowed, List.all_cons, Bool.and_eq_true]
  exact ⟨plain_row rfl rfl self_plain,
    plain_row rfl rfl (plain_append (plain_append self_plain (whenever_plain google loaders)) beacon),
    shared_plain valid analytics⟩

theorem nonce_plain (nonce : CspNonce) : plainSource ("'nonce-" ++ nonce.text ++ "'") = true := by
  have start : "'nonce-".toList.all plainChar = true := by
    rw [String.toList_ofList]
    rfl
  have stop : "'".toList.all plainChar = true := by
    rw [String.toList_ofList]
    rfl
  have digits : "0123456789abcdef".toList.all plainChar = true := by
    rw [String.toList_ofList]
    rfl
  have text : nonce.text.toList.all plainChar = true := by
    rw [List.all_eq_true] at digits ⊢
    exact fun c hc => digits c (nonce.digits c hc)
  rw [plainSource, String.toList_append, String.toList_append, List.all_append, List.all_append,
    start, stop, text]
  simp [filled]

theorem proposed_plain (valid : s.Valid) (nonce : CspNonce) :
    (s.proposed google nonce).all plainRow = true := by
  have dynamic : ["'strict-dynamic'"].all plainSource = true := plain_cons (plain_literal rfl) rfl
  have eval := whenever_plain google
    (plain_cons (plain_literal rfl) rfl : ["'unsafe-eval'"].all plainSource = true)
  simp only [Sources.proposed, List.all_cons, Bool.and_eq_true]
  exact ⟨plain_row rfl rfl self_plain,
    plain_row rfl rfl (plain_append (plain_cons (nonce_plain nonce) dynamic) eval),
    shared_plain valid rfl⟩

def names (google : Bool) : List String :=
  ["default-src", "script-src", "style-src", "img-src", "font-src", "connect-src", "worker-src",
    "object-src", "base-uri", "frame-ancestors", "form-action"] ++ (trailer google).map Prod.fst

theorem names_nodup (google : Bool) : (names google).Nodup := by
  cases google <;> simp [names, trailer]

theorem allowed_names (s : Sources) (google : Bool) :
    (s.allowed google).map Prod.fst = names google := rfl

theorem proposed_names (s : Sources) (google : Bool) (nonce : CspNonce) :
    (s.proposed google nonce).map Prod.fst = names google := rfl

theorem headerValue_of_visible {text : String}
    (visible : ∀ c ∈ text.toList, ClientIp.isVisible c = true) : headerValue text = some text := by
  refine if_pos (List.all_eq_true.mpr fun c hc => ?_)
  have seen := visible c hc
  rw [ClientIp.isVisible, Bool.or_eq_true, Bool.and_eq_true, decide_eq_true_iff,
    decide_eq_true_iff] at seen
  rcases seen with ⟨low, high⟩ | tab
  · have far : c.toNat ≠ 127 := by omega
    rw [decide_eq_true low, bne_iff_ne.mpr far]
    rfl
  · rw [tab, Bool.or_true]

theorem enforced_visible (valid : s.Valid) :
    ∀ c ∈ (s.enforced google).toList, ClientIp.isVisible c = true := by
  rw [enforced_rows]
  exact visible_directives (allowed_plain valid)

/-- The policy that is built is the one that is sent. -/
theorem policies_enforced (valid : s.Valid) : (s.policies google).enforced = s.enforced google := by
  rw [Sources.policies, headerValue_of_visible (enforced_visible valid)]
  rfl

end Tables

/-! ### Main theorems -/

section Main

variable (config : SecurityConfig) (map : MapConfig)

theorem new_policies (mapPage : Bool) : (SecurityHeaders.new config map).policies mapPage =
    (sourcesOf config map).policies (mapPage && decide (map = .google)) := by
  cases mapPage <;> rfl

theorem enforced_sent (mapPage : Bool) :
    ((SecurityHeaders.new config map).policies mapPage).enforced =
      (sourcesOf config map).enforced (mapPage && decide (map = .google)) := by
  rw [new_policies, policies_enforced (sourcesOf_valid config map)]

theorem enforced_read (mapPage : Bool) :
    parsePolicy ((SecurityHeaders.new config map).policies mapPage).enforced.toList =
      directives ((sourcesOf config map).allowed (mapPage && decide (map = .google))) := by
  rw [enforced_sent, enforced_rows]
  exact parsePolicy_directives (allowed_plain (sourcesOf_valid config map))
    (allowed_names _ _ ▸ names_nodup _)

/-- Whatever hosts are configured, a browser reads both policies as the directives that are meant:
the Google profile is allowed more, on map pages, and no host can say more than itself. -/
theorem policies_read (mapPage : Bool) (nonce : CspNonce) :
    let headers := SecurityHeaders.new config map
    let google := mapPage && decide (map = .google)
    parsePolicy (headers.csp mapPage).toList =
        directives ((sourcesOf config map).allowed google) ∧
      (headers.policies mapPage).enforced = headers.csp mapPage ∧
      parsePolicy (headers.candidateCsp nonce.text mapPage).toList =
        directives ((sourcesOf config map).proposed google nonce) ∧
      headerValue (headers.candidateCsp nonce.text mapPage) =
        some (headers.candidateCsp nonce.text mapPage) := by
  intro headers google
  have valid := sourcesOf_valid config map
  have read : headers.csp mapPage = (headers.policies mapPage).enforced := by
    rw [SecurityHeaders.csp, enforced_sent, ClientIp.toStr,
      if_pos (List.all_eq_true.mpr (enforced_visible valid))]
    rfl
  have candidate : (headers.candidateCsp nonce.text mapPage).toList =
      render (directives ((sourcesOf config map).proposed google nonce)) := by
    rw [SecurityHeaders.candidateCsp, new_policies]
    exact candidate_rows (sourcesOf config map) google nonce
  refine ⟨?_, read.symm, ?_, headerValue_of_visible ?_⟩
  · rw [read]
    exact enforced_read config map mapPage
  · rw [candidate]
    exact parsePolicy_directives (proposed_plain valid nonce)
      (proposed_names _ google nonce ▸ names_nodup google)
  · rw [candidate]
    exact visible_directives (proposed_plain valid nonce)

end Main

end ContentPolicy
