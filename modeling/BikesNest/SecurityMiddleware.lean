import BikesNest.ContentPolicy
import BikesNest.HeaderFields

/-! The middleware that gives every response its security headers, and the documents that a browser
then shows. A boosted navigation keeps the policy of the document it started from, so a map page
that is reached by one is answered with a redirect to a real load. A document shows a map page only
under the policy that was meant for one. -/

namespace SecurityMiddleware

open ContentPolicy

/-! ### Requests and responses -/

inductive Method where
  | get | head | post
  | other (name : String)
  deriving DecidableEq

/-- The header fields that htmx adds. -/
structure HxHeaders where
  request : Bool
  boosted : Bool
  historyRestore : Bool
  requestType : Option String

structure Request where
  method : Method
  path : String
  pathAndQuery : Option String
  hx : HxHeaders

structure Response where
  status : ℕ
  headers : HeaderFields String
  body : String
  mapPage : Bool

def isFragmentRequest (hx : HxHeaders) : Bool :=
  if !hx.request then false
  else if hx.boosted || hx.historyRestore then false
  else !hx.requestType.any fun v => decide (v.toList.map Char.toLower = "full".toList)

/-- A navigation that replaces the whole document through htmx. -/
def isHtmxDocumentNavigation (hx : HxHeaders) : Bool := hx.request && !isFragmentRequest hx

def isHtml (headers : HeaderFields String) : Bool :=
  ((headers.get "content-type").bind ClientIp.toStr).any fun ct =>
    decide ("text/html".toList <+: ct.toList)

def contains (html part : String) : Bool := decide (part.toList <:+: html.toList)

def mapAssets : String := "<template data-map-assets"

/-- `render`, of a template that gave `html` or failed. -/
def render (html : Option String) (status : ℕ) : Response :=
  match html with
  | some html => ⟨status, [("content-type", "text/html; charset=utf-8")], html,
      contains html mapAssets⟩
  | none => ⟨500, [("content-type", "text/plain; charset=utf-8")], "Internal error", false⟩

/-! ### The middleware -/

def varyFragmentNames : String :=
  "HX-Request, HX-Request-Type, HX-Boosted, Accept-Language, Cookie"

def varyHtml : String := "Accept-Language, Cookie"

def varyFragment (res : Response) : Response :=
  { res with headers := res.headers.append "vary" varyFragmentNames }

def fullNavigation (target : String) : Response :=
  varyFragment
    ⟨204, ((headerValue target).map fun value => ("hx-redirect", value)).toList, "", false⟩

def isPrivatePath (path : String) : Bool :=
  decide ("/account".toList <+: path.toList) || decide ("/admin".toList <+: path.toList) ||
    decide ("/moderation".toList <+: path.toList)

def addVary (headers : HeaderFields String) : HeaderFields String :=
  if !isHtml headers then headers
  else if ((headers.getAll "vary").filterMap ClientIp.toStr).any fun v =>
      contains (String.ofList (v.toList.map Char.toLower)) "hx-request" then headers
  else headers.append "vary" varyHtml

/-- The headers that every response gets. -/
def hardHeaders (tlsOn : Bool) (enforced : String) (candidate : Option String)
    (head : HeaderFields String) : HeaderFields String :=
  let head := head.insert "x-content-type-options" "nosniff"
  let head := head.insert "referrer-policy" "strict-origin-when-cross-origin"
  let head := head.insert "permissions-policy"
    "camera=(), microphone=(), geolocation=(self), interest-cohort=()"
  let head := head.insert "x-frame-options" "DENY"
  let head := head.insert "content-security-policy" enforced
  let head := match candidate with
    | some candidate => head.insert "content-security-policy-report-only" candidate
    | none => head
  let head := head.insert "reporting-endpoints" "csp-endpoint=\"/csp-report\""
  if tlsOn then
    head.insert "strict-transport-security" "max-age=31536000; includeSubDomains"
  else head

def reloadTarget (s : SecurityHeaders) (req : Request) : Option String :=
  if s.googleMaps && (decide (req.method = .get) || decide (req.method = .head)) &&
      isHtmxDocumentNavigation req.hx then
    some (req.pathAndQuery.getD req.path)
  else none

def securityHeaders (s : SecurityHeaders) (tlsOn : Bool) (nonce : CspNonce) (req : Request)
    (next : Response) : Response :=
  let res := match next.mapPage, reloadTarget s req with
    | true, some target => fullNavigation target
    | _, _ => next
  let candidate := headerValue (s.candidateCsp nonce.text res.mapPage)
  let head := hardHeaders tlsOn (s.policies res.mapPage).enforced candidate res.headers
  let head :=
    if !decide ("/static/".toList <+: req.path.toList) || !(200 ≤ res.status && res.status < 300)
    then head.insert "cache-control" "private, no-store"
    else head
  let head := if isPrivatePath req.path then head.insert "x-robots-tag" "noindex, nofollow" else head
  { res with headers := addVary head }

/-! ### What a browser shows -/

def Response.showsMap (r : Response) : Bool := isHtml r.headers && contains r.body mapAssets

/-- What a handler answers: those with a map are marked. -/
structure Reply where
  response : Response
  marked : response.mapPage = response.showsMap

theorem render_marked (html : Option String) (status : ℕ) :
    (render html status).mapPage = (render html status).showsMap := by
  cases html with
  | none =>
    have plain : isHtml (render none status).headers = false := by
      change isHtml [("content-type", "text/plain; charset=utf-8")] = false
      rfl
    rw [Response.showsMap, plain, Bool.false_and]
    rfl
  | some html =>
    have shown : isHtml (render (some html) status).headers = true := by
      change isHtml [("content-type", "text/html; charset=utf-8")] = true
      rfl
    rw [Response.showsMap, shown, Bool.true_and]
    rfl

def rendered (html : Option String) (status : ℕ) : Reply :=
  ⟨render html status, render_marked html status⟩

def csp (r : Response) : List String := r.headers.getAll "content-security-policy"

/-- The page that is shown, and the policies of the document that was loaded. -/
structure Document where
  policies : List String
  map : Bool

def load (r : Response) : Document := ⟨csp r, r.showsMap⟩

/-- A request for a page that a new document is loaded for. -/
def plainGet (target : String) : Request :=
  ⟨.get, target, some target, ⟨false, false, false, none⟩⟩

/-- A request after its redirects, and what it is answered; and, when htmx is told to load a page,
what that page is answered. -/
structure Visit where
  req : Request
  nonce : CspNonce
  reply : Reply
  loadNonce : CspNonce
  loaded : Reply

section Runs

variable (s : SecurityHeaders) (tlsOn : Bool)

def visit (doc : Document) (v : Visit) : Document :=
  let r := securityHeaders s tlsOn v.nonce v.req v.reply.response
  if !v.req.hx.request then load r
  else match r.headers.get "hx-redirect" with
    | some target =>
      load (securityHeaders s tlsOn v.loadNonce (plainGet target) v.loaded.response)
    | none =>
      -- htmx leaves the page as it is on a 204, and a fragment goes into a part of it.
      if isFragmentRequest v.req.hx || decide (r.status = 204) then doc
      else { doc with map := r.showsMap }

/-- A form is answered with a map page only on a map page, whose form it was. -/
def FromMap (doc : Document) (v : Visit) : Prop :=
  v.reply.response.showsMap = true → v.req.method = .get ∨ v.req.method = .head ∨ doc.map = true

inductive Shown : Document → Prop where
  | first (nonce : CspNonce) (target : String) (reply : Reply) :
      Shown (load (securityHeaders s tlsOn nonce (plainGet target) reply.response))
  | next {doc : Document} (v : Visit) : Shown doc → (s.googleMaps = true → FromMap doc v) →
      Shown (visit s tlsOn doc v)

end Runs

section Middleware

variable {s : SecurityHeaders} {tlsOn : Bool} {nonce : CspNonce} {req : Request} {next : Response}
  {enforced : String} {candidate : Option String} {headers : HeaderFields String} {name : String}

theorem getAll_addVary (apart : name ≠ "vary") :
    (addVary headers).getAll name = headers.getAll name := by
  rw [addVary]
  split
  · rfl
  · split
    · rfl
    · exact HeaderFields.getAll_append_of_ne apart.symm

def hardNames : List String :=
  ["x-content-type-options", "referrer-policy", "permissions-policy", "x-frame-options",
    "content-security-policy", "content-security-policy-report-only", "reporting-endpoints",
    "strict-transport-security"]

theorem getAll_hardHeaders_csp :
    (hardHeaders tlsOn enforced candidate headers).getAll "content-security-policy" =
      [enforced] := by
  delta hardHeaders
  cases tlsOn <;> cases candidate <;> simp

theorem getAll_hardHeaders (soft : name ∉ hardNames) :
    (hardHeaders tlsOn enforced candidate headers).getAll name = headers.getAll name := by
  have apart : ∀ hard ∈ hardNames, hard ≠ name := fun hard hh same => soft (same ▸ hh)
  simp only [hardNames, List.forall_mem_cons] at apart
  obtain ⟨options, referrer, permissions, frames, csp, report, endpoints, transport, -⟩ := apart
  delta hardHeaders
  cases tlsOn <;> cases candidate <;>
    simp [options, referrer, permissions, frames, csp, report, endpoints, transport]

/-- The response that the headers are added to. -/
def answered (s : SecurityHeaders) (req : Request) (next : Response) : Response :=
  match next.mapPage, reloadTarget s req with
  | true, some target => fullNavigation target
  | _, _ => next

theorem status_securityHeaders :
    (securityHeaders s tlsOn nonce req next).status = (answered s req next).status := rfl

def softNames : List String := ["cache-control", "x-robots-tag", "vary"]

theorem getAll_securityHeaders (apart : name ∉ softNames) :
    (securityHeaders s tlsOn nonce req next).headers.getAll name =
      (hardHeaders tlsOn (s.policies (answered s req next).mapPage).enforced
        (headerValue (s.candidateCsp nonce.text (answered s req next).mapPage))
        (answered s req next).headers).getAll name := by
  have each : ∀ soft ∈ softNames, soft ≠ name := fun soft hs same => apart (same ▸ hs)
  simp only [softNames, List.forall_mem_cons] at each
  obtain ⟨cache, robots, vary, -⟩ := each
  rw [securityHeaders, getAll_addVary vary.symm, ← answered]
  split_ifs <;> simp [cache, robots]

theorem csp_securityHeaders : csp (securityHeaders s tlsOn nonce req next) =
    [(s.policies (answered s req next).mapPage).enforced] := by
  rw [csp, getAll_securityHeaders (by decide), getAll_hardHeaders_csp]

/-- The handler's other fields are kept. -/
theorem getAll_kept (hard : name ∉ hardNames) (soft : name ∉ softNames) :
    (securityHeaders s tlsOn nonce req next).headers.getAll name =
      (answered s req next).headers.getAll name := by
  rw [getAll_securityHeaders soft, getAll_hardHeaders hard]

theorem showsMap_securityHeaders :
    (securityHeaders s tlsOn nonce req next).showsMap = (answered s req next).showsMap := by
  have kept : (securityHeaders s tlsOn nonce req next).headers.getAll "content-type" =
      (answered s req next).headers.getAll "content-type" :=
    getAll_kept (by decide) (by decide)
  rw [Response.showsMap, Response.showsMap, isHtml, isHtml, HeaderFields.get_eq,
    HeaderFields.get_eq, kept]
  rfl

theorem fullNavigation_showsMap (target : String) : (fullNavigation target).showsMap = false := by
  have textless : isHtml (fullNavigation target).headers = false := by
    rw [isHtml, fullNavigation, varyFragment, HeaderFields.get_eq]
    dsimp only
    rw [HeaderFields.getAll_append_of_ne (by decide)]
    cases headerValue target <;> rfl
  rw [Response.showsMap, textless, Bool.false_and]

/-- A response is sent with the map policy when it shows a map, and only then. -/
theorem answered_marked {reply : Reply} :
    (answered s req reply.response).mapPage = (answered s req reply.response).showsMap := by
  rw [answered]
  split
  · rename_i target _ _
    exact (fullNavigation_showsMap target).symm
  · exact reply.marked

/-- What shows a map is the handler's own, and no reload of it was due. -/
theorem answered_shows {reply : Reply}
    (shows : (answered s req reply.response).showsMap = true) :
    reply.response.showsMap = true ∧ reloadTarget s req = none := by
  rw [answered] at shows
  split at shows
  · rw [fullNavigation_showsMap] at shows
    cases shows
  · rename_i kept
    refine ⟨shows, ?_⟩
    cases due : reloadTarget s req with
    | none => rfl
    | some target => exact absurd due (kept target (reply.marked.trans shows))

theorem reloadTarget_read (google : s.googleMaps = true)
    (read : req.method = .get ∨ req.method = .head)
    (navigation : isHtmxDocumentNavigation req.hx = true) : reloadTarget s req ≠ none := by
  have method : (decide (req.method = .get) || decide (req.method = .head)) = true := by
    rw [Bool.or_eq_true, decide_eq_true_iff, decide_eq_true_iff]
    exact read
  rw [reloadTarget, google, method, navigation]
  exact Option.some_ne_none _

theorem answered_plain (target : String) : answered s (plainGet target) next = next := by
  have due : reloadTarget s (plainGet target) = none :=
    if_neg (by simp [isHtmxDocumentNavigation, plainGet])
  rw [answered, due]
  cases next.mapPage <;> rfl

end Middleware

/-! ### The invariant -/

section Invariant

variable {s : SecurityHeaders} {tlsOn : Bool}

/-- A document was loaded with one policy, which is that for map pages when it shows one. -/
structure Policed (s : SecurityHeaders) (doc : Document) : Prop where
  single : ∃ mapPage, doc.policies = [(s.policies mapPage).enforced]
  map : doc.map = true → doc.policies = [(s.policies true).enforced]

theorem load_policed (nonce : CspNonce) (req : Request) (reply : Reply) :
    Policed s (load (securityHeaders s tlsOn nonce req reply.response)) where
  single := ⟨_, csp_securityHeaders⟩
  map := by
    intro shows
    change Response.showsMap _ = true at shows
    rw [showsMap_securityHeaders, ← answered_marked] at shows
    change csp _ = _
    rw [csp_securityHeaders, shows]

theorem visit_policed {doc : Document} {v : Visit} (policed : Policed s doc)
    (same : s.googleMaps = false → s.page = s.map) (own : s.googleMaps = true → FromMap doc v) :
    Policed s (visit s tlsOn doc v) := by
  rw [visit]
  split
  · exact load_policed v.nonce v.req v.reply
  · rename_i htmx
    split
    · exact load_policed v.loadNonce _ v.loaded
    · split
      · exact policed
      · rename_i swapped
        refine ⟨policed.single, fun shows => ?_⟩
        change Response.showsMap _ = true at shows
        change doc.policies = _
        rw [showsMap_securityHeaders] at shows
        obtain ⟨kept, due⟩ := answered_shows shows
        have navigation : isHtmxDocumentNavigation v.req.hx = true := by
          rw [Bool.or_eq_true, not_or, Bool.not_eq_true] at swapped
          rw [isHtmxDocumentNavigation, swapped.1, Bool.not_false, Bool.and_true]
          simpa using htmx
        cases google : s.googleMaps with
        | true =>
          -- The read of a map page would have been reloaded, so this was a form of one.
          rcases own google kept with get | head | onMap
          · exact absurd due (reloadTarget_read google (.inl get) navigation)
          · exact absurd due (reloadTarget_read google (.inr head) navigation)
          · exact policed.map onMap
        | false =>
          obtain ⟨mapPage, loaded⟩ := policed.single
          rw [loaded, SecurityHeaders.policies, SecurityHeaders.policies, same google, ite_self,
            ite_self]

theorem shown_policed {doc : Document} (same : s.googleMaps = false → s.page = s.map)
    (shown : Shown s tlsOn doc) : Policed s doc := by
  induction shown with
  | first nonce target reply => exact load_policed nonce (plainGet target) reply
  | next v _ own policed => exact visit_policed policed same own

end Invariant

/-! ### Main theorem -/

section Main

/-- In every run, a document has one policy, read as the directives that were meant for a page or
for a map page; and while it shows a map, it is the policy for map pages. -/
theorem documents_policed (config : SecurityConfig) (map : MapConfig) (tlsOn : Bool)
    (doc : Document) (shown : Shown (SecurityHeaders.new config map) tlsOn doc) :
    ∃ mapPage, doc.policies.map (fun policy => parsePolicy policy.toList) =
        [directives ((sourcesOf config map).allowed (mapPage && decide (map = .google)))] ∧
      (doc.map = true → mapPage = true) := by
  have same : (SecurityHeaders.new config map).googleMaps = false →
      (SecurityHeaders.new config map).page = (SecurityHeaders.new config map).map := by
    intro other
    change decide (map = .google) = false at other
    change (sourcesOf config map).policies false =
      (sourcesOf config map).policies (decide (map = .google))
    rw [other]
  have policed := shown_policed same shown
  have read : ∀ mapPage, doc.policies =
      [((SecurityHeaders.new config map).policies mapPage).enforced] →
      doc.policies.map (fun policy => parsePolicy policy.toList) =
        [directives ((sourcesOf config map).allowed (mapPage && decide (map = .google)))] := by
    intro mapPage loaded
    rw [loaded, List.map_singleton, enforced_read]
  cases shows : doc.map with
  | true => exact ⟨true, read true (policed.map shows), fun _ => rfl⟩
  | false =>
    obtain ⟨mapPage, loaded⟩ := policed.single
    refine ⟨mapPage, read mapPage loaded, ?_⟩
    intro absent
    cases absent

theorem zero_digits : ∀ c ∈ "00".toList, c ∈ "0123456789abcdef".toList := by simp

def zeroNonce : CspNonce := ⟨"00", zero_digits⟩

def google : SecurityHeaders := SecurityHeaders.new ⟨[], [], []⟩ .google

/-- A boosted visit of the search page. -/
def search : Visit where
  req := ⟨.get, "/search", some "/search?q=Rua+XV", ⟨true, true, false, some "full"⟩⟩
  nonce := zeroNonce
  reply := rendered (some "<template data-map-assets>") 200
  loadNonce := zeroNonce
  loaded := rendered (some "<template data-map-assets>") 200

def about : Document :=
  load (securityHeaders google true zeroNonce (plainGet "/about")
    (rendered (some "<h1>About</h1>") 200).response)

theorem about_shown : Shown google true about := .first zeroNonce "/about" _

theorem search_shown : Shown google true (visit google true about search) :=
  .next search about_shown fun _ _ => .inl rfl

theorem search_redirected : (securityHeaders google true search.nonce search.req
    search.reply.response).headers.get "hx-redirect" = some "/search?q=Rua+XV" := by
  have reloaded : answered google search.req search.reply.response =
      fullNavigation "/search?q=Rua+XV" := by
    have marked : search.reply.response.mapPage = true := rfl
    have due : reloadTarget google search.req = some "/search?q=Rua+XV" := rfl
    rw [answered, marked, due]
  rw [HeaderFields.get_eq, getAll_kept (by decide) (by decide), reloaded]
  rfl

theorem search_map : (visit google true about search).map = true := by
  have htmx : (!search.req.hx.request) = false := rfl
  have loaded : visit google true about search = load (securityHeaders google true
      search.loadNonce (plainGet "/search?q=Rua+XV") search.loaded.response) := by
    rw [visit, htmx, search_redirected, if_neg Bool.false_ne_true]
  rw [loaded, load, showsMap_securityHeaders, answered_plain]
  rfl

theorem search_policed : (visit google true about search).map = true ∧ ∃ mapPage,
      (visit google true about search).policies.map (fun policy => parsePolicy policy.toList) =
        [directives ((sourcesOf ⟨[], [], []⟩ .google).allowed
          (mapPage && decide (MapConfig.google = .google)))] ∧
      ((visit google true about search).map = true → mapPage = true) :=
  ⟨search_map,
    documents_policed ⟨[], [], []⟩ .google true (visit google true about search) search_shown⟩

end Main

end SecurityMiddleware
