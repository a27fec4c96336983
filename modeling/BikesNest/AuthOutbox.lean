import BikesNest.Credentials

/-! The authentication transitions that commit together with the mail they send. Each is one
transaction under the lock of its account's row: what it returns is the store it commits, and a
transaction that stops early rolls back. `now` is the time the application passes, `clock` the
database's own. The mail queue is left out, but for the test on admission, which can roll the
transition back; the idempotency key of a mail holds its fresh token or a fresh notification id,
so no two mails share one. Audit rows are left out. -/

namespace AuthOutbox

open Parking Schema Credentials Outcome

/-- How a transition stops before its commit: with `Ok(None)`, or with an error. -/
inductive Halt where
  | neutral
  | fail (e : AuthError)
  deriving DecidableEq

/-- What the caller sees of a transition. -/
def answer {α : Type} : Except Halt (α × AuthStore) → Except AuthError (Option α)
  | .ok (a, _) => .ok (some a)
  | .error .neutral => .ok none
  | .error (.fail e) => .error e

/-- What the transition leaves in the store. -/
def commit {α : Type} (s : AuthStore) : Except Halt (α × AuthStore) → AuthStore
  | .ok (_, s') => s'
  | .error _ => s

/-- The links and the notification ids in the mails are left out. -/
inductive EmailKind where
  | verifyEmail (expiresAt : Option Instant)
  | resetPassword (expiresAt : Option Instant)
  | confirmEmailChange (expiresAt : Option Instant)
  | passwordChanged
  | emailAddressChanged
  deriving DecidableEq

def EmailKind.expiresAt : EmailKind → Option Instant
  | .verifyEmail e | .resetPassword e | .confirmEmailChange e => e
  | .passwordChanged | .emailAddressChanged => none

structure EmailMessage where
  recipient : String
  accountId : UserId
  locale : LocaleCode
  kind : EmailKind
  deriving DecidableEq

/-- The row that `enqueue_mail_on` looks for before it admits a mail with a token. -/
def tokenRowExpiry (s : AuthStore) (m : EmailMessage) (hash : Digest) (clock : Instant) :
    Option Instant :=
  let verification := (s.verificationTokens.find hash).filter fun t =>
    decide (t.userId = m.accountId ∧ t.email = m.recipient ∧ t.live clock)
  match s.users.find m.accountId with
  | none => none
  | some u =>
    match m.kind, u.accountState with
    | .verifyEmail _, .pendingEmailVerification => verification.map (·.expiresAt)
    | .verifyEmail _, .active => verification.map (·.expiresAt)
    | .confirmEmailChange _, .active => verification.map (·.expiresAt)
    | .resetPassword _, .pendingEmailVerification | .resetPassword _, .active =>
      ((s.resetTokens.find hash).filter fun t =>
        decide (t.userId = m.accountId ∧ u.email = m.recipient ∧ t.live clock)).map (·.expiresAt)
    | _, _ => none

/-- `enqueue`: a mail with a token is admitted while its token stands. -/
def enqueue (s : AuthStore) (m : EmailMessage) (hash : Digest) (expires clock : Instant) :
    Except Halt Unit := do
  ensure (∀ e ∈ m.kind.expiresAt, e = expires) (.fail .internal)
  ensure ((tokenRowExpiry s m hash clock).isSome) (.fail .internal)

/-- The test of `enqueue_mail_on` on a security notice; the audit row it asks for was written by
the same transaction. -/
def noticeAdmitted (s : AuthStore) (m : EmailMessage) : Bool :=
  match s.users.find m.accountId with
  | none => false
  | some u =>
    match m.kind with
    | .passwordChanged => canLogIn u.accountState && eqIgnoreAsciiCase u.email m.recipient
    | .emailAddressChanged =>
      decide (u.accountState = .active) && !eqIgnoreAsciiCase u.email m.recipient
    | _ => false

def enqueueNotice (s : AuthStore) (m : EmailMessage) : Except Halt Unit :=
  ensure (noticeAdmitted s m) (.fail .internal)

structure NewAccount where
  email : UserEmail
  displayName : Option String
  passwordHash : String
  state : AccountState
  locale : LocaleCode

structure TermsAcceptance where
  policyVersionId : ℕ
  version : String
  shownLocale : String

/-- The row test of `validate_registration_terms`. -/
def TermsAcceptance.names (t : TermsAcceptance) (clock : Instant) (p : PolicyRow) : Prop :=
  p.kind = .terms ∧ p.id = t.policyVersionId ∧ p.version = t.version ∧
    p.locale = t.shownLocale ∧ p.effectiveAt ≤ clock ∧ ∀ e ∈ p.supersededAt, clock < e

instance (t : TermsAcceptance) (clock : Instant) (p : PolicyRow) : Decidable (t.names clock p) :=
  inferInstanceAs (Decidable (_ ∧ _ ∧ _ ∧ _ ∧ _ ∧ ∀ e ∈ p.supersededAt, clock < e))

def validateRegistrationTerms (s : AuthStore) (terms : Option TermsAcceptance) (clock : Instant) :
    Except Halt (Option Instant) :=
  match terms with
  | none => .ok none
  | some t => do
    ensure (∃ p ∈ s.policies.find t.policyVersionId, t.names clock p) (.fail .conflict)
    pure (some clock)

/-- The rows that an update of the password login touches. -/
def passwordRows (s : AuthStore) (u : UserId) : ℕ := s.identities.countP fun i => i.isPasswordOf u

def setCredentialHash (s : AuthStore) (u : UserId) (hash : String) : AuthStore :=
  setPassword s u fun i => { i with credentialHash := some hash }

def replacePendingCredential (s : AuthStore) (u : UserId) (new : NewAccount) (now : Instant) :
    Except Halt AuthStore := do
  ensure (passwordRows s u = 1) (.fail .internal)
  let s := setCredentialHash s u new.passwordHash
  let s := setAccount s u (fun a => { a with displayName := new.displayName }) fun _ => rfl
  pure (retireVerificationTokens (revokeSessions s u now) u now)

def insertVerificationToken (s : AuthStore) (t : VerificationTokenRow) : Except Halt AuthStore := do
  let tokens ← orFail (s.verificationTokens.insert t) (.fail .conflict)
  pure { s with verificationTokens := tokens }

def insertResetToken (s : AuthStore) (t : ResetTokenRow) : Except Halt AuthStore := do
  let tokens ← orFail (s.resetTokens.insert t) (.fail .conflict)
  pure { s with resetTokens := tokens }

/-- The branch of `register` for an address that is taken. The dead-lettering of spent mail jobs
is left out with the queue. -/
def registerAgain (s : AuthStore) (new : NewAccount) (token : Digest) (now clock : Instant)
    (message : EmailMessage) (terms : Option TermsAcceptance) : Except Halt (EmailMessage × AuthStore) := do
  let user ← orFail (s.users.rows.find? fun u => decide (u.email = new.email.text))
    (.fail .conflict)
  let _ ← validateRegistrationTerms s terms clock
  ensure (user.accountState = .pendingEmailVerification) .neutral
  let s ← replacePendingCredential s user.id new now
  let message := { message with accountId := user.id, locale := user.locale }
  let s ← insertVerificationToken s ⟨token, user.id, new.email.text, now + hours 24, none⟩
  enqueue s message token (now + hours 24) clock
  pure (message, s)

/-- The branch of `register` for a new address; `fresh` is the id that the sequence of the table
gives. -/
def registerNew (s : AuthStore) (fresh : UserId) (new : NewAccount) (token : Digest)
    (now clock : Instant) (message : EmailMessage) (terms : Option TermsAcceptance) :
    Except Halt (EmailMessage × AuthStore) := do
  let users ← orFail (s.users.insert ⟨fresh, new.email.text, new.displayName, new.state, none,
    none, none, new.locale, true, none, clock⟩) (.fail .conflict)
  let decided ← validateRegistrationTerms s terms clock
  let message := { message with accountId := fresh }
  ensure (subjectTaken s.identities .password new.email.text = false) (.fail .conflict)
  let identities := s.identities ++ [⟨fresh, .password, new.email.text, some new.passwordHash⟩]
  let roles ← orFail (s.roles.insert ⟨fresh, .user, none⟩) (.fail .conflict)
  let s := { s with users := users, identities := identities, roles := roles }
  let s ← insertVerificationToken s ⟨token, fresh, new.email.text, now + hours 24, none⟩
  enqueue s message token (now + hours 24) clock
  match terms, decided with
  | some t, some at' => do
    let acknowledgements ← orFail (s.acknowledgements.insert
      ⟨fresh, t.policyVersionId, t.version, t.shownLocale, at', .signup⟩) (.fail .conflict)
    pure (message, { s with acknowledgements := acknowledgements })
  | _, _ => pure (message, s)

/-- The unique index on addresses in lower case. -/
def addressTaken (env : Casing) (s : AuthStore) (email : String) : Bool :=
  s.users.rows.any fun u => decide (env.lower u.email = env.lower email)

def register (env : Casing) (s : AuthStore) (fresh : UserId) (new : NewAccount) (token : Digest)
    (now clock : Instant) (message : EmailMessage) (terms : Option TermsAcceptance) :
    Except Halt (EmailMessage × AuthStore) :=
  if addressTaken env s new.email.text then registerAgain s new token now clock message terms
  else registerNew s fresh new token now clock message terms

def issueVerification (s : AuthStore) (u : UserId) (email : String) (token : Digest)
    (now clock : Instant) (expected : AccountState) (message : EmailMessage) :
    Except Halt (EmailMessage × AuthStore) := do
  ensure (canLogIn expected) .neutral
  let user ← orFail (s.users.find u) .neutral
  ensure (user.accountState = expected) .neutral
  let s ← insertVerificationToken s ⟨token, u, email, now + hours 24, none⟩
  enqueue s message token (now + hours 24) clock
  pure (message, s)

def issueReset (s : AuthStore) (u : UserId) (token : Digest) (now clock : Instant)
    (message : EmailMessage) : Except Halt (EmailMessage × AuthStore) := do
  let user ← orFail (s.users.find u) .neutral
  ensure (canLogIn user.accountState) .neutral
  let s ← insertResetToken s ⟨token, u, now + hours 1, none⟩
  enqueue s message token (now + hours 1) clock
  pure (message, s)

structure EmailConfirmationOutcome where
  userId : UserId
  emailChanged : Bool
  mail : Option EmailMessage

/-- The two unique indexes that the switch of an address can run into. -/
def addressFree (env : Casing) (s : AuthStore) (u : UserId) (email : String) : Prop :=
  (∀ a ∈ s.users.rows, env.lower a.email = env.lower email → a.id = u) ∧
    (∀ i ∈ s.identities, i.provider = .password → i.providerSubject = email → i.userId = u)

instance (env : Casing) (s : AuthStore) (u : UserId) (email : String) :
    Decidable (addressFree env s u email) :=
  inferInstanceAs (Decidable (_ ∧ _))

/-- The two updates with which `confirm_email` makes an address the account's own. -/
def switchAddress (s : AuthStore) (u : UserId) (email : String) (now : Instant) : AuthStore :=
  let s := setAccount s u (fun a => { a with
    email := email, emailVerifiedAt := some now, accountState := .active }) fun _ => rfl
  setPassword s u fun i => { i with providerSubject := email }

/-- The update that redeems a verification token. -/
def consumeVerification (s : AuthStore) (token : Digest) (u : UserId) (now clock : Instant) :
    AuthStore :=
  let tokens := s.verificationTokens.update
    (fun t => decide (t.tokenHash = token ∧ t.userId = u ∧ t.live (max now clock)))
    (fun t => { t with usedAt := some now }) (VerificationTokenRow.used_key now)
  { s with verificationTokens := tokens }

/-- The update that redeems a reset token. -/
def consumeReset (s : AuthStore) (token : Digest) (u : UserId) (now clock : Instant) :
    AuthStore :=
  let tokens := s.resetTokens.update
    (fun t => decide (t.tokenHash = token ∧ t.userId = u ∧ t.live (max now clock)))
    (fun t => { t with usedAt := some now }) (ResetTokenRow.used_key now)
  { s with resetTokens := tokens }

def confirmEmail (env : Casing) (s : AuthStore) (token : Digest) (now clock : Instant)
    (oldAddressNotice : EmailMessage) (proven : Option String) :
    Except Halt (EmailConfirmationOutcome × AuthStore) := do
  let row ← orFail ((s.verificationTokens.find token).filter fun t =>
    decide (t.live (max now clock))) .neutral
  let user ← orFail (s.users.find row.userId) .neutral
  ensure (canLogIn user.accountState) .neutral
  ensure (oldAddressNotice.accountId = user.id ∧
    eqIgnoreAsciiCase oldAddressNotice.recipient user.email ∧
    oldAddressNotice.locale = user.locale ∧ oldAddressNotice.kind = .emailAddressChanged)
    (.fail .conflict)
  let changed := !eqIgnoreAsciiCase user.email row.email
  ensure (changed → user.accountState = .active) .neutral
  -- activation needs the password that the caller proved to be the stored one still
  ensure (user.accountState = .pendingEmailVerification →
    proven.isSome ∧ (passwordHash s user.id).join = proven) .neutral
  let email ← orFail (UserEmail.parse env row.email) (.fail .internal)
  let s := consumeVerification s token user.id now clock
  ensure (addressFree env s user.id email.text) (.fail .conflict)
  let s := switchAddress s user.id email.text now
  let s := if changed ∨ user.accountState = .pendingEmailVerification
    then revokeSessions s user.id now else s
  let s := retireVerificationTokens s user.id now
  -- only a changed address sends the notice
  ensure (changed → noticeAdmitted s oldAddressNotice) (.fail .internal)
  pure (⟨user.id, changed, if changed then some oldAddressNotice else none⟩, s)

def completePasswordReset (s : AuthStore) (token : Digest) (hash : String)
    (now clock : Instant) (notice : EmailMessage) : Except Halt (EmailMessage × AuthStore) := do
  let row ← orFail ((s.resetTokens.find token).filter fun t =>
    decide (t.live (max now clock))) .neutral
  let user ← orFail (s.users.find row.userId) .neutral
  ensure (canLogIn user.accountState) .neutral
  ensure (notice.accountId = user.id ∧ eqIgnoreAsciiCase notice.recipient user.email ∧
    notice.locale = user.locale ∧ notice.kind = .passwordChanged) (.fail .conflict)
  let s := consumeReset s token user.id now clock
  ensure (passwordRows s user.id = 1) (.fail .internal)
  let s := setCredentialHash s user.id hash
  let s := revokeSessions s user.id now
  let s := retireVerificationTokens (retireResetTokens s user.id now) user.id now
  enqueueNotice s notice
  pure (notice, s)

/-- The session that `change_password` keeps is of the account, unrevoked and unexpired. -/
def sessionStands (s : AuthStore) (u : UserId) (session : Digest) (now : Instant) : Prop :=
  ∃ r ∈ s.sessions.find session, r.userId = u ∧ r.revokedAt = none ∧ now < r.expiresAt

instance (s : AuthStore) (u : UserId) (session : Digest) (now : Instant) :
    Decidable (sessionStands s u session now) :=
  inferInstanceAs (Decidable (∃ r ∈ s.sessions.find session, _))

def revokeOtherSessions (s : AuthStore) (u : UserId) (keep : Digest) (now : Instant) : AuthStore :=
  let sessions := s.sessions.update
    (fun r => decide (r.userId = u ∧ r.tokenHash ≠ keep ∧ r.revokedAt = none))
    (fun r => { r with revokedAt := some now }) (SessionRow.revoked_key now)
  { s with sessions := sessions }

/-- The update of the hash in `change_password`, which names the hash it replaces. -/
def swapHash (s : AuthStore) (u : UserId) (expected hash : String) : AuthStore :=
  setPassword s u fun i =>
    if i.credentialHash = some expected then { i with credentialHash := some hash } else i

def changePassword (s : AuthStore) (u : UserId) (expectedHash hash : String)
    (currentSession : Digest) (now clock : Instant) (notice : EmailMessage) :
    Except Halt (EmailMessage × AuthStore) := do
  let user ← orFail (s.users.find u) .neutral
  let currentHash ← orFail (passwordHash s u) .neutral
  ensure (user.accountState = .active ∧ currentHash = some expectedHash ∧
    sessionStands s u currentSession (max now clock) ∧ notice.accountId = u ∧
    eqIgnoreAsciiCase notice.recipient user.email ∧ notice.locale = user.locale ∧
    notice.kind = .passwordChanged) .neutral
  let rows := s.identities.countP fun i =>
    i.isPasswordOf u && decide (i.credentialHash = some expectedHash)
  ensure (rows = 1) .neutral
  let s := swapHash s u expectedHash hash
  let s := revokeOtherSessions s u currentSession now
  let s := retireVerificationTokens (retireResetTokens s u now) u now
  enqueueNotice s notice
  pure (notice, s)

/-! What a committed transition went through, and the store it leaves. -/

variable {env : Casing} {s s' : AuthStore} {new : NewAccount} {token : Digest}
  {now clock : Instant} {message m : EmailMessage} {terms : Option TermsAcceptance}

/-- The terms that a registration names are in force. -/
def TermsHold (s : AuthStore) (terms : Option TermsAcceptance) (clock : Instant) : Prop :=
  ∀ t ∈ terms, ∃ p ∈ s.policies.find t.policyVersionId, t.names clock p

theorem validateRegistrationTerms_ok {decided : Option Instant} :
    validateRegistrationTerms s terms clock = .ok decided ↔
      TermsHold s terms clock ∧ decided = terms.map fun _ => clock := by
  cases terms with
  | none => simp [validateRegistrationTerms, TermsHold, eq_comm]
  | some t =>
    simp only [validateRegistrationTerms, TermsHold, bind_ok, ensure_ok, pure_ok]
    simp [eq_comm]

theorem insertVerificationToken_ok {row : VerificationTokenRow} :
    insertVerificationToken s row = .ok s' ↔ ∃ tokens,
      s.verificationTokens.insert row = some tokens ∧ s' = { s with verificationTokens := tokens } := by
  simp only [insertVerificationToken, bind_ok, orFail_ok, pure_ok]
  exact exists_congr fun _ => and_congr_right fun _ => eq_comm

theorem insertResetToken_ok {row : ResetTokenRow} :
    insertResetToken s row = .ok s' ↔ ∃ tokens,
      s.resetTokens.insert row = some tokens ∧ s' = { s with resetTokens := tokens } := by
  simp only [insertResetToken, bind_ok, orFail_ok, pure_ok]
  exact exists_congr fun _ => and_congr_right fun _ => eq_comm

theorem registerAgain_ok (h : registerAgain s new token now clock message terms = .ok (m, s')) :
    ∃ user tokens, (s.users.rows.find? fun u => decide (u.email = new.email.text)) = some user ∧
      TermsHold s terms clock ∧ user.accountState = .pendingEmailVerification ∧
      passwordRows s user.id = 1 ∧
      (retireVerificationTokens s user.id now).verificationTokens.insert
        ⟨token, user.id, new.email.text, now + hours 24, none⟩ = some tokens ∧
      s' = { s with
        users := (setAccount s user.id (fun a => { a with displayName := new.displayName })
          fun _ => rfl).users
        identities := (setCredentialHash s user.id new.passwordHash).identities
        sessions := (revokeSessions s user.id now).sessions
        verificationTokens := tokens } := by
  simp only [registerAgain, replacePendingCredential, bind_ok, orFail_ok, ensure_ok, pure_ok,
    Prod.mk.injEq, validateRegistrationTerms_ok, insertVerificationToken_ok] at h
  obtain ⟨user, found, _, ⟨holds, -⟩, _, pending, _, ⟨_, single, rfl⟩, _, ⟨tokens, inserted, rfl⟩,
    -, -, -, rfl⟩ := h
  exact ⟨user, tokens, found, holds, pending, single, inserted, rfl⟩

theorem registerAgain_accountId {user : AccountRow}
    (h : registerAgain s new token now clock message terms = .ok (m, s'))
    (found : (s.users.rows.find? fun u => decide (u.email = new.email.text)) = some user) :
    m.accountId = user.id := by
  simp only [registerAgain, bind_ok, orFail_ok, pure_ok, Prod.mk.injEq] at h
  obtain ⟨user', found', _, -, _, -, _, -, _, -, _, -, rfl, -⟩ := h
  obtain rfl : user = user' := Option.some.inj (found.symm.trans found')
  rfl

theorem registerNew_ok {fresh : UserId}
    (h : registerNew s fresh new token now clock message terms = .ok (m, s')) :
    ∃ users roles tokens acknowledgements,
      s.users.insert ⟨fresh, new.email.text, new.displayName, new.state, none, none, none,
        new.locale, true, none, clock⟩ = some users ∧
      TermsHold s terms clock ∧ subjectTaken s.identities .password new.email.text = false ∧
      s.roles.insert ⟨fresh, .user, none⟩ = some roles ∧
      s.verificationTokens.insert ⟨token, fresh, new.email.text, now + hours 24, none⟩ =
        some tokens ∧
      (match terms with
        | none => acknowledgements = s.acknowledgements
        | some t => s.acknowledgements.insert
            ⟨fresh, t.policyVersionId, t.version, t.shownLocale, clock, .signup⟩ =
          some acknowledgements) ∧
      s' = { s with
        users := users
        identities := s.identities ++
          [⟨fresh, .password, new.email.text, some new.passwordHash⟩]
        roles := roles
        verificationTokens := tokens
        acknowledgements := acknowledgements } := by
  simp only [registerNew, bind_ok, orFail_ok, ensure_ok, validateRegistrationTerms_ok,
    insertVerificationToken_ok] at h
  obtain ⟨users, added, _, ⟨holds, rfl⟩, _, untaken, roles, granted, _, ⟨tokens, inserted, rfl⟩,
    -, -, h⟩ := h
  cases terms with
  | none =>
    simp only [pure_ok, Prod.mk.injEq] at h
    exact ⟨users, roles, tokens, _, added, holds, untaken, granted, inserted, rfl, h.2.symm⟩
  | some t =>
    simp only [Option.map_some, bind_ok, orFail_ok, pure_ok, Prod.mk.injEq] at h
    obtain ⟨acknowledgements, recorded, -, rfl⟩ := h
    exact ⟨users, roles, tokens, acknowledgements, added, holds, untaken, granted, inserted,
      recorded, rfl⟩

theorem registerNew_accountId {fresh : UserId}
    (h : registerNew s fresh new token now clock message terms = .ok (m, s')) :
    m.accountId = fresh := by
  simp only [registerNew, bind_ok] at h
  obtain ⟨_, -, decided, validated, _, -, _, -, _, -, _, -, h⟩ := h
  obtain ⟨-, rfl⟩ := validateRegistrationTerms_ok.mp validated
  cases terms with
  | none =>
    simp only [pure_ok, Prod.mk.injEq] at h
    rw [← h.1]
  | some t =>
    simp only [Option.map_some, bind_ok, pure_ok, Prod.mk.injEq] at h
    obtain ⟨_, -, rfl, -⟩ := h
    rfl

theorem issueVerification_ok {u : UserId} {email : String} {expected : AccountState}
    (h : issueVerification s u email token now clock expected message = .ok (m, s')) :
    ∃ user tokens, s.users.find u = some user ∧ user.accountState = expected ∧
      canLogIn expected = true ∧
      s.verificationTokens.insert ⟨token, u, email, now + hours 24, none⟩ = some tokens ∧
      s' = { s with verificationTokens := tokens } := by
  simp only [issueVerification, bind_ok, orFail_ok, ensure_ok, pure_ok, Prod.mk.injEq,
    insertVerificationToken_ok] at h
  obtain ⟨_, able, user, found, _, state, _, ⟨tokens, inserted, rfl⟩, -, -, -, rfl⟩ := h
  exact ⟨user, tokens, found, state, able, inserted, rfl⟩

theorem issueReset_ok {u : UserId} (h : issueReset s u token now clock message = .ok (m, s')) :
    ∃ user tokens, s.users.find u = some user ∧ canLogIn user.accountState = true ∧
      s.resetTokens.insert ⟨token, u, now + hours 1, none⟩ = some tokens ∧
      s' = { s with resetTokens := tokens } := by
  simp only [issueReset, bind_ok, orFail_ok, ensure_ok, pure_ok, Prod.mk.injEq,
    insertResetToken_ok] at h
  obtain ⟨user, found, _, able, _, ⟨tokens, inserted, rfl⟩, -, -, -, rfl⟩ := h
  exact ⟨user, tokens, found, able, inserted, rfl⟩

theorem confirmEmail_ok {notice : EmailMessage} {proven : Option String}
    {r : EmailConfirmationOutcome}
    (h : confirmEmail env s token now clock notice proven = .ok (r, s')) :
    ∃ row user email, s.verificationTokens.find token = some row ∧ row.live (max now clock) ∧
      s.users.find row.userId = some user ∧ canLogIn user.accountState = true ∧
      (eqIgnoreAsciiCase user.email row.email = false → user.accountState = .active) ∧
      (user.accountState = .pendingEmailVerification →
        proven.isSome ∧ (passwordHash s user.id).join = proven) ∧
      UserEmail.parse env row.email = some email ∧
      s' = { s with
        users := (switchAddress s user.id email.text now).users
        identities := (switchAddress s user.id email.text now).identities
        sessions := if eqIgnoreAsciiCase user.email row.email = false ∨
            user.accountState = .pendingEmailVerification
          then (revokeSessions s user.id now).sessions else s.sessions
        verificationTokens := (retireVerificationTokens
          (consumeVerification s token user.id now clock) user.id now).verificationTokens } := by
  simp only [confirmEmail, bind_ok, orFail_ok, ensure_ok, pure_ok, Prod.mk.injEq,
    Option.filter_eq_some_iff, decide_eq_true_eq] at h
  obtain ⟨row, ⟨found, live⟩, user, account, _, able, _, -, _, ready, _, proof, email, parsed, _, -,
    _, -, -, rfl⟩ := h
  refine ⟨row, user, email, found, live, account, able, by simpa using ready, proof, parsed, ?_⟩
  have same : (!eqIgnoreAsciiCase user.email row.email) = true ↔
      eqIgnoreAsciiCase user.email row.email = false := by simp
  simp only [same]
  split <;> rfl

/-- What a confirmation reports. -/
theorem confirmEmail_outcome {notice : EmailMessage} {proven : Option String}
    {r : EmailConfirmationOutcome} {row : VerificationTokenRow} {user : AccountRow}
    (h : confirmEmail env s token now clock notice proven = .ok (r, s'))
    (found : s.verificationTokens.find token = some row)
    (account : s.users.find row.userId = some user) :
    r.userId = user.id ∧ r.emailChanged = !eqIgnoreAsciiCase user.email row.email := by
  simp only [confirmEmail, bind_ok, orFail_ok, ensure_ok, pure_ok, Prod.mk.injEq,
    Option.filter_eq_some_iff, decide_eq_true_eq] at h
  obtain ⟨row', ⟨found', -⟩, user', account', _, -, _, -, _, -, _, -, email, -, _, -, _, -, rfl, -⟩ := h
  obtain rfl : row = row' := Option.some.inj (found.symm.trans found')
  obtain rfl : user = user' := Option.some.inj (account.symm.trans account')
  exact ⟨rfl, rfl⟩

theorem completePasswordReset_ok {hash : String} {notice : EmailMessage}
    (h : completePasswordReset s token hash now clock notice = .ok (m, s')) :
    ∃ row user, s.resetTokens.find token = some row ∧ row.live (max now clock) ∧
      s.users.find row.userId = some user ∧ canLogIn user.accountState = true ∧
      passwordRows s user.id = 1 ∧
      s' = { s with
        identities := (setCredentialHash s user.id hash).identities
        sessions := (revokeSessions s user.id now).sessions
        verificationTokens := (retireVerificationTokens s user.id now).verificationTokens
        resetTokens := (retireResetTokens (consumeReset s token user.id now clock)
          user.id now).resetTokens } := by
  simp only [completePasswordReset, bind_ok, orFail_ok, ensure_ok, pure_ok, Prod.mk.injEq,
    Option.filter_eq_some_iff, decide_eq_true_eq] at h
  obtain ⟨row, ⟨found, live⟩, user, account, _, able, _, -, _, single, _, -, -, rfl⟩ := h
  exact ⟨row, user, found, live, account, able, single, rfl⟩

theorem completePasswordReset_accountId {hash : String} {notice : EmailMessage}
    {row : ResetTokenRow} {user : AccountRow}
    (h : completePasswordReset s token hash now clock notice = .ok (m, s'))
    (found : s.resetTokens.find token = some row) (account : s.users.find row.userId = some user) :
    m.accountId = user.id := by
  simp only [completePasswordReset, bind_ok, orFail_ok, ensure_ok, pure_ok, Prod.mk.injEq,
    Option.filter_eq_some_iff] at h
  obtain ⟨row', ⟨found', -⟩, user', account', _, -, _, ⟨same, -⟩, _, -, _, -, rfl, -⟩ := h
  obtain rfl : row = row' := Option.some.inj (found.symm.trans found')
  obtain rfl : user = user' := Option.some.inj (account.symm.trans account')
  exact same

theorem changePassword_ok {u : UserId} {expected hash : String} {session : Digest}
    {notice : EmailMessage}
    (h : changePassword s u expected hash session now clock notice = .ok (m, s')) :
    ∃ user, s.users.find u = some user ∧ user.accountState = .active ∧
      passwordHash s u = some (some expected) ∧ sessionStands s u session (max now clock) ∧
      s' = { s with
        identities := (swapHash s u expected hash).identities
        sessions := (revokeOtherSessions s u session now).sessions
        verificationTokens := (retireVerificationTokens s u now).verificationTokens
        resetTokens := (retireResetTokens s u now).resetTokens } := by
  simp only [changePassword, bind_ok, orFail_ok, ensure_ok, pure_ok, Prod.mk.injEq] at h
  obtain ⟨user, found, _, current, _, ⟨active, rfl, stands, -⟩, _, -, _, -, -, rfl⟩ := h
  exact ⟨user, found, active, current, stands, rfl⟩

end AuthOutbox
