import BikesNest.BrowserCookies

/-! The token of a visitor without a session: one copy in a cookie, one in each page. A page that is
asked for without the cookie mints a token and sets it when its answer arrives, so that answers of
several tabs may cross; sessions come and go beside it. The store of the sessions answers. -/

namespace AnonymousTokens

open DelimitedText CookieJar CsrfTokens SessionCookies BrowserCookies FormEncoding Outcome

/-! ### The layer before and after the handler -/

/-- What `resolve_auth` finds out, with the token that it minted. -/
structure Resolved where
  csrf : CsrfToken
  signedIn : Bool
  staleSession : Bool
  minted : Option CsrfToken

def resolveAuth (lib : Libraries) (store : SessionId → Option CsrfToken) (fresh : CsrfToken)
    (lines : List String) : Except Panic Resolved := do
  match (← sessionOf lines).bind store with
  | some csrf => return ⟨csrf, true, false, none⟩
  | none =>
    let staleSession := (cookieValue lines sessionCookie).isSome
    match (csrfCookieValue lines).bind (CsrfToken.fromBase64url lib) with
    | some token => return ⟨token, false, staleSession, none⟩
    | none => return ⟨fresh, false, staleSession, some fresh⟩

/-- The token that the response sets, after the handler. -/
def tokenCookie (auth : Resolved) (html success : Bool) : Option CsrfToken :=
  if html && !auth.signedIn && success then auth.minted else none

/-! ### A browser with several tabs -/

/-- The answer to a page that was asked for: its token, and the one that it sets. -/
structure Flight where
  token : CsrfToken
  sets : Option CsrfToken
  path : Text

structure World where
  browser : State
  /-- The live sessions of the store. -/
  sessions : SessionId → Option CsrfToken
  flying : List Flight
  /-- The tokens of the open pages. -/
  pages : List CsrfToken

inductive Event where
  | wait (seconds : ℕ)
  /-- A page is asked for; the server answers at once. -/
  | load (path : Text) (fresh : CsrfToken)
  | arrive (index : ℕ)
  | signIn (id : SessionId) (csrf : CsrfToken)
  | signOut
  | revoke (id : SessionId)

def initial : World := ⟨BrowserCookies.initial, fun _ => none, [], []⟩

/-- The answer of the server to a page. -/
def answered (lib : Libraries) (w : World) (path : Text) (fresh : CsrfToken) :
    Except Panic Flight := do
  let auth ← resolveAuth lib w.sessions fresh (w.browser.lines path)
  return ⟨auth.csrf, tokenCookie auth true true, path⟩

/-- A browser takes the answer. -/
def land (lib : Libraries) (browser : State) (f : Flight) : State :=
  match f.sets with
  | some token => BrowserCookies.step lib browser (.answer (.csrf token) f.path)
  | none => browser

def step (lib : Libraries) (w : World) : Event → World
  | .wait seconds => { w with browser := BrowserCookies.step lib w.browser (.wait seconds) }
  | .load path fresh =>
    match answered lib w path fresh with
    | .ok f => { w with flying := w.flying ++ [f] }
    | .error _ => w
  | .arrive index =>
    match w.flying[index]? with
    | some f =>
      { w with
        browser := land lib w.browser f
        flying := w.flying.eraseIdx index
        pages := w.pages ++ [f.token] }
    | none => w
  | .signIn id csrf =>
    { w with
      browser := BrowserCookies.step lib w.browser (.answer (.signedIn id) "/login".toList)
      sessions := Function.update w.sessions id (some csrf) }
  | .signOut =>
    { w with
      browser := BrowserCookies.step lib w.browser (.answer .signedOut "/logout".toList)
      sessions := fun id => if w.browser.session = some id then none else w.sessions id }
  | .revoke id => { w with sessions := Function.update w.sessions id none }

def run (lib : Libraries) (w : World) (events : List Event) : World :=
  events.foldl (step lib) w

/-- A form of a page with the token, sent from the same site. -/
def form (lib : Libraries) (token : CsrfToken) (path : String)
    (fields : List (String × String)) : Request where
  method := .post
  path := path
  query := none
  headers := [("content-type", formType), ("sec-fetch-site", "same-origin")]
  body := some (serialize ((csrfField, token.toBase64url lib) :: fields))

/-- What the layer does with the form, with the cookies of the browser. -/
def submit (lib : Libraries) (w : World) (fresh : CsrfToken) (req : Request) :
    Except Panic Verdict := do
  let auth ← resolveAuth lib w.sessions fresh (w.browser.lines req.path.toList)
  return authMiddleware lib (some auth.csrf) auth.staleSession req

/-- The token that the server expects of the browser. -/
def expected (w : World) (fresh : CsrfToken) : CsrfToken :=
  ((w.browser.session.bind w.sessions).or w.browser.csrf).getD fresh

section Requests

variable {lib : Libraries} {w : World}

/-- What a request shows decides which token is expected, and whether one is minted. -/
theorem resolveAuth_lines (lawful : lib.Lawful) (kept : Kept lib w.browser) (fresh : CsrfToken)
    {path : Text} (rooted : path.head? = some '/') :
    ∃ auth, resolveAuth lib w.sessions fresh (w.browser.lines path) = .ok auth ∧
      auth.csrf = expected w fresh ∧
      auth.signedIn = (w.browser.session.bind w.sessions).isSome ∧
      auth.minted = if w.browser.session.bind w.sessions = none ∧ w.browser.csrf = none then
        some fresh else none := by
  rw [resolveAuth, sessionOf_lines lawful kept rooted, csrf_lines lawful kept rooted, expected]
  change ∃ auth, (match w.browser.session.bind w.sessions with
    | some csrf => _
    | none => _) = Except.ok auth ∧ _
  cases w.browser.session.bind w.sessions with
  | some csrf => exact ⟨_, rfl, rfl, rfl, rfl⟩
  | none =>
    cases w.browser.csrf with
    | some token => exact ⟨_, rfl, rfl, rfl, rfl⟩
    | none => exact ⟨_, rfl, rfl, rfl, rfl⟩

theorem answered_eq (lawful : lib.Lawful) (kept : Kept lib w.browser) (fresh : CsrfToken)
    {path : Text} (rooted : path.head? = some '/') :
    answered lib w path fresh = .ok ⟨expected w fresh,
      if w.browser.session.bind w.sessions = none ∧ w.browser.csrf = none then some fresh else none,
      path⟩ := by
  obtain ⟨auth, resolved, csrf, signedIn, minted⟩ := resolveAuth_lines lawful kept fresh rooted
  rw [answered, resolved]
  change Except.ok (⟨auth.csrf, tokenCookie auth true true, path⟩ : Flight) = _
  rw [csrf, tokenCookie, signedIn, minted]
  cases w.browser.session.bind w.sessions <;> rfl

theorem step_load (lawful : lib.Lawful) (kept : Kept lib w.browser) (fresh : CsrfToken)
    {path : Text} (rooted : path.head? = some '/') :
    step lib w (.load path fresh) = { w with
      flying := w.flying ++ [⟨expected w fresh,
        if w.browser.session.bind w.sessions = none ∧ w.browser.csrf = none then some fresh
        else none, path⟩] } := by
  rw [step, answered_eq lawful kept fresh rooted]

/-- A visitor without a token opens a page: it mints one. -/
theorem step_first (lawful : lib.Lawful) (kept : Kept lib w.browser)
    (anonymous : w.browser.session.bind w.sessions = none) (fresh : w.browser.csrf = none)
    (token : CsrfToken) {path : Text} (rooted : path.head? = some '/') :
    step lib w (.load path token) =
      { w with flying := w.flying ++ [⟨token, some token, path⟩] } := by
  have wanted : expected w token = token := by
    rw [expected, anonymous, fresh]
    rfl
  rw [step_load lawful kept token rooted, wanted, if_pos ⟨anonymous, fresh⟩]

/-- The cookie arrives with the page. -/
theorem run_first (lawful : lib.Lawful) (kept : Kept lib w.browser)
    (anonymous : w.browser.session.bind w.sessions = none) (fresh : w.browser.csrf = none)
    (flying : w.flying = []) (token : CsrfToken) {path : Text} (rooted : path.head? = some '/') :
    run lib w [.load path token, .arrive 0] = { w with
      browser := BrowserCookies.step lib w.browser (.answer (.csrf token) path)
      flying := []
      pages := w.pages ++ [token] } := by
  change step lib (step lib w (.load path token)) (.arrive 0) = _
  rw [step_first lawful kept anonymous fresh token rooted, flying]
  rfl

/-- A form reaches its handler exactly where its page has the token that is expected. -/
theorem submit_forwarded (lawful : lib.Lawful) (kept : Kept lib w.browser) {fresh token : CsrfToken}
    {path : String} {fields : List (String × String)} (rooted : path.toList.head? = some '/')
    (report : path ≠ "/csp-report")
    (small : (serialize ((csrfField, token.toBase64url lib) :: fields)).length ≤ csrfBodyLimit) :
    submit lib w fresh (form lib token path fields) =
        .ok (.forwarded (form lib token path fields)) ↔ token = expected w fresh := by
  obtain ⟨auth, resolved, csrf, -, -⟩ := resolveAuth_lines lawful kept fresh rooted
  have typed : formType.toList <+:
      (((form lib token path fields).headers.text "content-type").getD "").toList := by
    have read : (form lib token path fields).headers.text "content-type" = some formType := rfl
    rw [read]
    exact List.prefix_refl _
  have other : isCspReport (form lib token path fields) = false := by
    simp [isCspReport, form, report]
  rw [submit]
  change (resolveAuth lib w.sessions fresh (w.browser.lines path.toList) >>= _) = _ ↔ _
  rw [resolved]
  change Except.ok (authMiddleware lib (some auth.csrf) auth.staleSession
    (form lib token path fields)) = _ ↔ _
  rw [Except.ok.injEq, form_runs_iff lawful rfl other typed rfl rfl rfl, csrf]
  have near : crossSite (form lib token path fields) = false := rfl
  have first : (((csrfField, token.toBase64url lib) :: fields).find? fun f =>
      decide (f.1 = csrfField)).map Prod.snd = some (token.toBase64url lib) := by
    simp
  rw [first, Option.some.injEq]
  exact ⟨fun h => toBase64url_inj lawful h.2.2.2, fun h => ⟨rfl, near, small, by rw [h]⟩⟩

end Requests

/-! ### Runs -/

section Runs

variable {lib : Libraries} {w : World} {token : CsrfToken}

theorem kept_land (lawful : lib.Lawful) {browser : State} (kept : Kept lib browser) (f : Flight) :
    Kept lib (land lib browser f) := by
  unfold land
  split
  · exact kept_answer lawful kept _ _
  · exact kept

theorem kept_step (lawful : lib.Lawful) (kept : Kept lib w.browser) (e : Event) :
    Kept lib (step lib w e).browser := by
  cases e with
  | wait seconds => exact kept_wait kept seconds
  | load path fresh =>
    rw [step]
    split <;> exact kept
  | arrive index =>
    rw [step]
    split
    · exact kept_land lawful kept _
    · exact kept
  | signIn id csrf => exact kept_answer lawful kept _ _
  | signOut => exact kept_answer lawful kept _ _
  | revoke id => exact kept

theorem run_append (w : World) (events more : List Event) :
    run lib w (events ++ more) = run lib (run lib w events) more := List.foldl_append

theorem kept_run (lawful : lib.Lawful) (kept : Kept lib w.browser) (events : List Event) :
    Kept lib (run lib w events).browser := by
  induction events generalizing w with
  | nil => exact kept
  | cons e events ih => exact ih (kept_step lawful kept e)

/-- In every run, of every order of answers, sign-ins and sign-outs, a form is taken exactly where
the page has the token of the session or else of the cookie that arrived last. -/
theorem form_accepted_iff (lawful : lib.Lawful) (events : List Event) {fresh : CsrfToken}
    {path : String} {fields : List (String × String)} (rooted : path.toList.head? = some '/')
    (report : path ≠ "/csp-report")
    (small : (serialize ((csrfField, token.toBase64url lib) :: fields)).length ≤ csrfBodyLimit) :
    submit lib (run lib initial events) fresh (form lib token path fields) =
        .ok (.forwarded (form lib token path fields)) ↔
      token = expected (run lib initial events) fresh :=
  submit_forwarded lawful (kept_run lawful kept_initial events) rooted report small

def visit : List Event := [.load "/login".toList CsrfTokens.token, .arrive 0]

def loginFields : List (String × String) := [("email", "a@b.c"), ("password", "secret words")]

def spare : CsrfToken := ⟨Vector.replicate 32 9⟩

theorem login_small : (serialize ((csrfField, CsrfTokens.token.toBase64url libraries) ::
    loginFields)).length ≤ csrfBodyLimit := by decide +kernel

theorem login_expected :
    CsrfTokens.token = expected (run libraries initial visit) spare := by
  rw [visit, run_first libraries_lawful kept_initial rfl rfl rfl CsrfTokens.token rfl]
  rfl

theorem login_accepted :
    submit libraries (run libraries initial visit) spare
        (form libraries CsrfTokens.token "/login" loginFields) =
      .ok (.forwarded (form libraries CsrfTokens.token "/login" loginFields)) :=
  (form_accepted_iff libraries_lawful visit rfl (by decide) login_small).mpr login_expected

/-- The visitor has no session and one token, in the cookie, in every page and in every answer that
is still under way. -/
structure Settled (w : World) (token : CsrfToken) (limit : ℕ) : Prop where
  anonymous : w.browser.session.bind w.sessions = none
  cookie : ∃ time, w.browser.held .csrf = some (.csrf token, time) ∧ time + 3600 = limit
  flying : ∀ f ∈ w.flying, f.token = token ∧ f.sets = none
  pages : ∀ page ∈ w.pages, page = token

def Calm : Event → Prop
  | .signIn _ _ => False
  | .load path _ => path.head? = some '/'
  | _ => True

theorem csrf_of_settled {limit : ℕ} (settled : Settled w token limit)
    (within : w.browser.clock < limit) : w.browser.csrf = some token := by
  obtain ⟨time, held, rfl⟩ := settled.cookie
  have current : w.browser.current .csrf = some (.csrf token, time) := by
    have force : inForce w.browser.clock (.csrf token, time) = true := decide_eq_true within
    rw [State.current, held, Option.filter_some, if_pos force]
  rw [State.csrf, current]

theorem session_of_wait {browser : State} {seconds : ℕ} {id : SessionId}
    (h : (BrowserCookies.step lib browser (.wait seconds)).session = some id) :
    browser.session = some id := by
  have current : ∀ p, (BrowserCookies.step lib browser (.wait seconds)).current .session = some p →
      browser.current .session = some p := by
    intro p hp
    obtain ⟨held, force⟩ := Option.filter_eq_some_iff.mp hp
    have before : inForce browser.clock p = true := by
      have later : browser.clock + seconds < p.2 + p.1.maxAge := of_decide_eq_true force
      exact decide_eq_true (by omega)
    exact Option.filter_eq_some_iff.mpr ⟨held, before⟩
  unfold State.session at h ⊢
  split at h
  · rename_i time here
    rw [current _ here]
    exact h
  · cases h

theorem session_of_signOut (browser : State) (defaultPath : Text) :
    (BrowserCookies.step lib browser (.answer .signedOut defaultPath)).session = none := by
  have current :
      (BrowserCookies.step lib browser (.answer .signedOut defaultPath)).current .session =
        (some (Answer.signedOut, browser.clock)).filter (inForce browser.clock) := rfl
  have past : ¬ inForce browser.clock (Answer.signedOut, browser.clock) = true := by
    simp [inForce, Answer.maxAge]
  rw [State.session, current, Option.filter_some, if_neg past]

/-- No step but a sign-in disturbs a visitor whose cookie is still in force. -/
theorem settled_step (lawful : lib.Lawful) (kept : Kept lib w.browser) {limit : ℕ}
    (settled : Settled w token limit) {e : Event} (calm : Calm e)
    (within : w.browser.clock < limit) : Settled (step lib w e) token limit := by
  have none := settled.anonymous
  cases e with
  | wait seconds =>
    refine { settled with anonymous := ?_ }
    change (BrowserCookies.step lib w.browser (.wait seconds)).session.bind w.sessions = _
    cases later : (BrowserCookies.step lib w.browser (.wait seconds)).session with
    | none => rfl
    | some id =>
      rw [session_of_wait later] at none
      exact none
  | load path fresh =>
    have csrf := csrf_of_settled settled within
    have wanted : expected w fresh = token := by
      rw [expected, none, csrf]
      rfl
    rw [step_load lawful kept fresh calm, csrf, wanted]
    refine { settled with flying := fun f hf => ?_ }
    rcases List.mem_append.mp hf with old | new
    · exact settled.flying f old
    · rw [List.mem_singleton] at new
      rw [new]
      exact ⟨rfl, if_neg (by simp)⟩
  | arrive index =>
    rw [step]
    cases here : w.flying[index]? with
    | none => exact settled
    | some f =>
      obtain ⟨same, sets⟩ := settled.flying f (List.mem_of_getElem? here)
      have browser : land lib w.browser f = w.browser := by rw [land, sets]
      dsimp only
      rw [browser]
      refine ⟨none, settled.cookie, fun g hg => ?_, fun page hp => ?_⟩
      · exact settled.flying g (List.mem_of_mem_eraseIdx hg)
      · rcases List.mem_append.mp hp with old | new
        · exact settled.pages page old
        · rw [List.mem_singleton.mp new, same]
  | signIn id csrf => exact calm.elim
  | signOut =>
    refine ⟨?_, settled.cookie, settled.flying, settled.pages⟩
    change (BrowserCookies.step lib w.browser (.answer .signedOut _)).session.bind _ = _
    rw [session_of_signOut]
    rfl
  | revoke id =>
    refine { settled with anonymous := ?_ }
    change w.browser.session.bind (Function.update w.sessions id Option.none) = _
    cases here : w.browser.session with
    | none => rfl
    | some i =>
      rw [here] at none
      rw [Option.bind_some]
      by_cases same : i = id
      · rw [same, Function.update_self]
      · rw [Function.update_of_ne same]
        exact none

def Event.seconds : Event → ℕ
  | .wait seconds => seconds
  | _ => 0

theorem clock_step (w : World) (e : Event) :
    (step lib w e).browser.clock = w.browser.clock + e.seconds := by
  have landed : ∀ f, (land lib w.browser f).clock = w.browser.clock := by
    intro f
    unfold land
    split <;> rfl
  cases e with
  | wait seconds => rfl
  | load path fresh =>
    rw [step]
    split <;> rfl
  | arrive index =>
    rw [step]
    split
    · exact landed _
    · rfl
  | signIn id csrf => rfl
  | signOut => rfl
  | revoke id => rfl

theorem clock_run (w : World) (events : List Event) :
    (run lib w events).browser.clock = w.browser.clock + (events.map Event.seconds).sum := by
  induction events generalizing w with
  | nil => rfl
  | cons e events ih =>
    change (run lib (step lib w e) events).browser.clock = _
    rw [ih, clock_step, List.map_cons, List.sum_cons, Nat.add_assoc]

theorem page_step {page : CsrfToken} (opened : page ∈ w.pages) (e : Event) :
    page ∈ (step lib w e).pages := by
  cases e with
  | load path fresh =>
    rw [step]
    split <;> exact opened
  | arrive index =>
    rw [step]
    split
    · exact List.mem_append_left _ opened
    · exact opened
  | wait | signIn | signOut | revoke => exact opened

theorem page_run {page : CsrfToken} (opened : page ∈ w.pages) (events : List Event) :
    page ∈ (run lib w events).pages := by
  induction events generalizing w with
  | nil => exact opened
  | cons e events ih => exact ih (page_step opened e)

theorem settled_run (lawful : lib.Lawful) (kept : Kept lib w.browser) {limit : ℕ}
    (settled : Settled w token limit) {events : List Event} (calm : ∀ e ∈ events, Calm e)
    (within : (run lib w events).browser.clock < limit) :
    Settled (run lib w events) token limit := by
  induction events generalizing w with
  | nil => exact settled
  | cons e events ih =>
    have now : w.browser.clock < limit := by
      rw [clock_run] at within
      omega
    have next := settled_step lawful kept settled (calm e List.mem_cons_self) now
    exact ih (kept_step lawful kept e) next (fun f hf => calm f (List.mem_cons_of_mem e hf)) within

theorem settled_first (lawful : lib.Lawful) (kept : Kept lib w.browser)
    (anonymous : w.browser.session.bind w.sessions = none) (fresh : w.browser.csrf = none)
    (flying : w.flying = []) (pages : w.pages = []) {path : Text}
    (rooted : path.head? = some '/') :
    Settled (run lib w [.load path token, .arrive 0]) token (w.browser.clock + 3600) := by
  rw [run_first lawful kept anonymous fresh flying token rooted]
  refine ⟨anonymous, ⟨w.browser.clock, rfl, rfl⟩, fun f hf => ?_, fun page hp => ?_⟩
  · cases hf
  · rw [pages] at hp
    exact List.mem_singleton.mp hp

/-- From the first page of a visitor on, while its cookie is in force and whatever tabs do, every
form of every page is taken. -/
theorem first_page_serves (lawful : lib.Lawful) (visits events : List Event) {path : Text}
    (anonymous : (run lib initial visits).browser.session.bind
      (run lib initial visits).sessions = none)
    (fresh : (run lib initial visits).browser.csrf = none)
    (flying : (run lib initial visits).flying = []) (pages : (run lib initial visits).pages = [])
    (rooted : path.head? = some '/') (calm : ∀ e ∈ events, Calm e)
    (within : (run lib initial
        (visits ++ .load path token :: .arrive 0 :: events)).browser.clock <
      (run lib initial visits).browser.clock + 3600) :
    ∀ page ∈ (run lib initial (visits ++ .load path token :: .arrive 0 :: events)).pages,
      ∀ (other : CsrfToken) (target : String) (fields : List (String × String)),
        target.toList.head? = some '/' → target ≠ "/csp-report" →
        (serialize ((csrfField, page.toBase64url lib) :: fields)).length ≤ csrfBodyLimit →
        submit lib (run lib initial (visits ++ .load path token :: .arrive 0 :: events)) other
          (form lib page target fields) = .ok (.forwarded (form lib page target fields)) := by
  have kept : Kept lib (run lib initial visits).browser := kept_run lawful kept_initial visits
  have whole : run lib initial (visits ++ .load path token :: .arrive 0 :: events) =
      run lib (run lib (run lib initial visits) [.load path token, .arrive 0]) events := by
    rw [run_append]
    rfl
  rw [whole] at within ⊢
  generalize run lib initial visits = w at *
  have first : Settled (run lib w [.load path token, .arrive 0]) token
      (w.browser.clock + 3600) := settled_first lawful kept anonymous fresh flying pages rooted
  have keptFirst := kept_run lawful kept [.load path token, .arrive 0]
  have settled := settled_run lawful keptFirst first calm within
  have keptLast := kept_run lawful keptFirst events
  intro page hp other target fields targeted report small
  rw [submit_forwarded lawful keptLast targeted report small, expected, settled.anonymous,
    csrf_of_settled settled within]
  exact settled.pages page hp

/-- Ten minutes later a second tab asks for a page, which would have minted another token. -/
def tabs : List Event := [.wait 600, .load "/register".toList spare, .arrive 0]

theorem tabs_calm : ∀ e ∈ tabs, Calm e := by
  simp [tabs, Calm]

theorem visitor_in_time : (run libraries initial
      ([] ++ .load "/login".toList CsrfTokens.token :: .arrive 0 :: tabs)).browser.clock <
    (run libraries initial []).browser.clock + 3600 := by
  rw [clock_run, clock_run]
  decide

theorem visitor_page : CsrfTokens.token ∈ (run libraries initial
    ([] ++ .load "/login".toList CsrfTokens.token :: .arrive 0 :: tabs)).pages := by
  have whole : run libraries initial
      ([.load "/login".toList CsrfTokens.token, .arrive 0] ++ tabs) = _ := run_append _ _ _
  rw [List.cons_append, List.singleton_append] at whole
  rw [List.nil_append, whole, run_first libraries_lawful kept_initial rfl rfl rfl _ rfl]
  exact page_run (List.mem_singleton.mpr rfl) tabs

theorem visitor_served :
    submit libraries (run libraries initial
          ([] ++ .load "/login".toList CsrfTokens.token :: .arrive 0 :: tabs)) spare
        (form libraries CsrfTokens.token "/login" loginFields) =
      .ok (.forwarded (form libraries CsrfTokens.token "/login" loginFields)) :=
  first_page_serves libraries_lawful [] tabs rfl rfl rfl rfl rfl tabs_calm visitor_in_time
    CsrfTokens.token visitor_page spare "/login" loginFields rfl (by decide) login_small

end Runs

end AnonymousTokens
