import BikesNest.CredentialOps
import BikesNest.Jobs
import BikesNest.Runs

/-! The delivery of mail: the handler of `email.send`, statement by statement, beside the queue of
jobs and the transitions of the accounts. A transition is one transaction that has the row of its
account before it writes, so the others see of it what it commits, and it commits only while no
handler has that row; a purge of tokens asks for no row of an account. A handler runs on a payload
that was copied at some claim, so it may begin on any payload at any time.

A link is the address of the site with a token, and enters as the digest of the token. The rows of
the audit are left out: what the handler is told of them comes with its statement. -/

namespace MailDelivery

open Parking Schema Credentials Outcome Erasure AuthOutbox AccountAdmin CredentialOps Jobs Runs

/-- `code` -/
def code : EmailKind → String
  | .verifyEmail _ => "verify"
  | .resetPassword _ => "reset"
  | .confirmEmailChange _ => "change"
  | .passwordChanged => "password_changed"
  | .emailAddressChanged => "email_changed"

/-- `reference` is the token of the link, or the id of a notice. -/
structure Mail extends EmailMessage where
  reference : Digest
  deriving DecidableEq

/-- `idempotency_key` -/
def idempotencyKey (purpose : String) (reference : Digest) : String :=
  "email:" ++ purpose ++ ":" ++ toString reference

def Mail.key (m : Mail) : String := idempotencyKey (code m.kind) m.reference

/-- `token_hash_from_link` of the `credential_link`; a notice has none. -/
def Mail.tokenHash (m : Mail) : Option Digest :=
  match m.kind with
  | .verifyEmail _ | .resetPassword _ | .confirmEmailChange _ => some m.reference
  | .passwordChanged | .emailAddressChanged => none

/-- What the payloads of the queue are made with, and the digest of addresses. -/
structure Codec where
  encode : Mail → Json
  decode : Json → Option Mail
  digest : String → Digest

def asciiLower (s : String) : String := String.ofList (s.toList.map Char.toLower)

/-! The queue. -/

/-- A mail that is not to be sent any more. -/
def QueuedJob.cancel (error : String) (now : Instant) (j : QueuedJob) : QueuedJob :=
  { j with toJobRow := { j.toJobRow.redact now with
    lastError := (j.toJobRow.redact now).lastError.map fun _ => error } }

def cancelMail (jobs : JobTable) (p : QueuedJob → Bool) (error : String) (now : Instant) :
    JobTable :=
  jobs.update (fun j => j.isMail && p j) (QueuedJob.cancel error now) fun _ => rfl

/-- The verification mails of an account whose attempts are spent. -/
def spent (u : UserId) (clock : Instant) (j : QueuedJob) : Bool :=
  decide (j.mailAccountId = some u ∧ j.mailPurpose = some "verify" ∧
    (j.state = .pending ∨ j.state = .running) ∧ j.maxAttempts ≤ j.attempts ∧
    (j.state = .pending ∨ j.lapsed clock))

/-- The mails whose token expired before `now`. -/
def outlived (purposes : List String) (now : Instant) (j : QueuedJob) : Bool :=
  j.mailPurpose.any (fun p => purposes.contains p) && j.mailTokenExpiresAt.any fun e => e < now

/-- The statements of the repository of jobs, but for the admission of mail. -/
inductive QueueOp where
  | enqueue (id : ℕ) (kind : String) (payload : Json) (runAt : Instant) (maxAttempts : Option ℤ)
      (key : Option String)
  | reserve (id : ℕ) (a : Registration)
  | repair (a : Registration)
  | finalize (kinds : Option (List String)) (locked : ℕ → Bool) (wall : Instant)
  | claim (batch : ℕ) (owner : String) (ttl : ℕ) (kinds : Option (List String))
      (locked : ℕ → Bool) (read : Instant)
  | claimId (id : ℕ) (owner : String) (ttl : ℕ)
  | heartbeat (id : ℕ) (owner : String) (ttl : ℕ)
  | outcome (id : ℕ) (owner : String) (o : Jobs.Outcome)
  | gc (cutoff : Instant)

/-- The table after a statement; one that fails leaves it alone. -/
def QueueOp.apply (cron : Cron) (clock : Instant) (jobs : JobTable) : QueueOp → JobTable
  | .enqueue id kind payload runAt maxAttempts key =>
    ((Jobs.enqueue jobs id kind payload runAt maxAttempts key).toOption.map Prod.fst).getD jobs
  | .reserve id a => ((Jobs.reserve cron jobs id a).toOption.map Prod.fst).getD jobs
  | .repair a => ((Jobs.repair cron jobs a).toOption.map Prod.fst).getD jobs
  | .finalize kinds locked wall => finalizeExhaustedLeases cron jobs kinds locked wall clock
  | .claim batch owner ttl kinds locked read =>
    (Jobs.claim jobs batch owner ttl kinds locked read clock).1
  | .claimId id owner ttl => (Jobs.claimId jobs id owner ttl clock).1
  | .heartbeat id owner ttl => (Jobs.heartbeat jobs id owner ttl clock).toOption.getD jobs
  | .outcome id owner o => (o.write jobs id owner clock).toOption.getD jobs
  | .gc cutoff => Jobs.gc jobs cutoff

/-! The transitions of the accounts, with the mail that each of them sends. -/

/-- The mail of a transition: with a token, or the notice of a change. -/
structure Mailing where
  message : EmailMessage
  token : Option (Digest × Instant)

def withToken (token : Digest) (expires : Instant)
    (t : Except Halt (EmailMessage × AuthStore)) : Except Halt (Option Mailing × AuthStore) :=
  t.map fun (m, s) => (some ⟨m, some (token, expires)⟩, s)

def withNotice (t : Except Halt (EmailMessage × AuthStore)) :
    Except Halt (Option Mailing × AuthStore) :=
  t.map fun (m, s) => (some ⟨m, none⟩, s)

def transact (env : Casing) (clock : Instant) (s : AuthStore) :
    CredentialOp → Except Halt (Option Mailing × AuthStore)
  | .register fresh new token now message terms =>
    withToken token (now + hours 24) (register env s fresh new token now clock message terms)
  | .issueVerification u email token now expected message =>
    withToken token (now + hours 24) (issueVerification s u email token now clock expected message)
  | .issueReset u token now message =>
    withToken token (now + hours 1) (issueReset s u token now clock message)
  | .confirmEmail token now notice proven =>
    (confirmEmail env s token now clock notice proven).map fun (o, s) =>
      (o.mail.map fun m => ⟨m, none⟩, s)
  | .completePasswordReset token hash now notice =>
    withNotice (completePasswordReset s token hash now clock notice)
  | .changePassword u expectedHash hash currentSession now notice =>
    withNotice (changePassword s u expectedHash hash currentSession now clock notice)
  | .suspendByAdmin u => (suspendByAdmin s u clock).map fun s => (none, s)

/-- The account that a registration finds under its address. -/
def registered (s : AuthStore) (new : NewAccount) : Option UserId :=
  (s.users.rows.find? fun u => decide (u.email = new.email.text)).map AccountRow.id

/-- The account whose row a transition has. -/
def account (env : Casing) (s : AuthStore) : CredentialOp → Option UserId
  | .register fresh new _ _ _ _ =>
    if addressTaken env s new.email.text then registered s new else some fresh
  | .issueVerification u _ _ _ _ _ | .issueReset u _ _ _ | .changePassword u _ _ _ _ _
  | .suspendByAdmin u => some u
  | .confirmEmail token _ _ _ => (s.verificationTokens.find token).map VerificationTokenRow.userId
  | .completePasswordReset token _ _ _ => (s.resetTokens.find token).map ResetTokenRow.userId

/-- The registration of a pending address dead-letters its spent mails before it sends another. -/
def retireSpent (env : Casing) (clock : Instant) (s : AuthStore) (jobs : JobTable) :
    CredentialOp → JobTable
  | .register _ new _ _ _ _ =>
    if addressTaken env s new.email.text then
      cancelMail jobs (fun j => (registered s new).any fun u => spent u clock j)
        "mail delivery attempt budget exhausted" clock
    else jobs
  | _ => jobs

/-- What a transition gives its mail: the id of the job, of the notice and of its audit row. -/
structure Envelope where
  job : ℕ
  notice : ℕ
  audit : ℕ
  maxAttempts : ℤ

def Mailing.mail (m : Mailing) (e : Envelope) : Mail :=
  ⟨m.message, (m.token.map Prod.fst).getD e.notice⟩

/-- `enqueue` and `enqueue_notice`, for a mail that passed the tests of the transition. -/
def admitMail (c : Codec) (clock : Instant) (jobs : JobTable) (m : Mailing) (e : Envelope) :
    Option JobTable :=
  let mail := m.mail e
  match enqueueMail jobs e.job
    { payload := c.encode mail, accountId := mail.accountId, tokenHash := m.token.map Prod.fst
      purpose := code mail.kind, tokenExpiresAt := m.token.map Prod.snd
      recipientHash := c.digest (asciiLower mail.recipient)
      transitionAuditId := if m.token.isSome then none else some e.audit
      runAt := clock, maxAttempts := e.maxAttempts, key := mail.key } with
  | .ok (jobs, true) => some jobs
  | _ => none

/-! The handler. -/

structure Metadata where
  tokenHash : Option Digest
  recipientHash : Option Digest
  auditId : Option ℕ

/-- How far an attempt is; `checkedAt` is the time its last query read. -/
inductive Phase where
  | accepted
  | locked (account : Option (AccountState × String))
  | looked (account : Option (AccountState × String)) (metadata : Option Metadata)
  | passed (checkedAt : Instant)
  | handed

structure Attempt where
  id : ℕ
  mail : Mail
  phase : Phase

/-- A mail as it went to the provider. -/
structure Sent where
  mail : Mail
  checkedAt : Instant
  handedAt : Instant
  auth : AuthStore
  purges : List Instant

/-- `purges` has the times that the purges so far ran with. -/
structure World where
  auth : AuthStore
  jobs : JobTable
  now : Instant
  attempts : Table ℕ Attempt Attempt.id
  purges : List Instant
  sent : List Sent

def start (auth : AuthStore) (now : Instant) : World := ⟨auth, .empty, now, .empty, [], []⟩

/-- The attempt has the row of its account, if there is one. -/
def Phase.locking : Phase → Bool
  | .accepted => false
  | .locked account | .looked account _ => account.isSome
  | .passed _ | .handed => true

def World.free (w : World) (u : UserId) : Bool :=
  w.attempts.rows.all fun x => !(decide (x.mail.accountId = u) && x.phase.locking)

/-- What the handler finds in the queue of a mail, or else in its link. -/
def metadata (jobs : JobTable) (m : Mail) : Option Metadata :=
  ((jobs.rows.find? fun j => j.isMail && decide (j.idempotencyKey = some m.key ∧
    j.mailAccountId = some m.accountId ∧ j.mailPurpose = some (code m.kind))).map fun j =>
      ⟨j.mailTokenHash, j.mailRecipientHash, j.mailTransitionAuditId⟩).or
    (m.tokenHash.map fun h => ⟨some h, none, none⟩)

def verificationStands (s : AuthStore) (m : Mail) (hash : Digest) (clock : Instant) : Bool :=
  (s.verificationTokens.find hash).any fun t =>
    decide (t.userId = m.accountId ∧ t.email = m.recipient ∧ t.live clock)

def resetStands (s : AuthStore) (m : Mail) (hash : Digest) (clock : Instant) : Bool :=
  (s.resetTokens.find hash).any fun t => decide (t.userId = m.accountId ∧ t.live clock) &&
    (s.users.find t.userId).any fun u => decide (u.email = m.recipient)

def eligible (c : Codec) (s : AuthStore) (clock : Instant) (audited : Bool) (m : Mail)
    (account : Option (AccountState × String)) (metadata : Option Metadata) : Bool :=
  let recipient := c.digest (asciiLower (trim m.recipient))
  match m.kind, account, metadata with
  | .verifyEmail _, some (state, _), some ⟨some hash, stored, none⟩ =>
    canLogIn state && stored.all (fun h => decide (h = recipient)) &&
      verificationStands s m hash clock
  | .confirmEmailChange _, some (.active, _), some ⟨some hash, stored, none⟩ =>
    stored.all (fun h => decide (h = recipient)) && verificationStands s m hash clock
  | .resetPassword _, some (state, _), some ⟨some hash, stored, none⟩ =>
    canLogIn state && stored.all (fun h => decide (h = recipient)) && resetStands s m hash clock
  | .passwordChanged, some (state, email), some ⟨none, some stored, some _⟩ =>
    decide (stored = recipient) && canLogIn state && eqIgnoreAsciiCase email m.recipient && audited
  | .emailAddressChanged, some (state, _), some ⟨none, some stored, some _⟩ =>
    decide (stored = recipient ∧ state = .active) && audited
  | _, _, _ => false

def World.move (w : World) (x : Attempt) (phase : Phase) : World :=
  let attempts := w.attempts.update (fun y => decide (y.id = x.id))
    (fun y => { y with phase := phase }) fun _ => rfl
  { w with attempts := attempts }

/-- The handler returns, or its connection is lost: its transaction is over either way. -/
def World.leave (w : World) (t : ℕ) : World :=
  { w with attempts := w.attempts.delete fun y => decide (y.id = t) }

def World.record (w : World) (x : Attempt) (checkedAt : Instant) : World :=
  { w with sent := w.sent ++ [⟨x.mail, checkedAt, w.now, w.auth, w.purges⟩] }

/-- The next statement of an attempt; one that waits for a row changes nothing. -/
def advance (c : Codec) (w : World) (x : Attempt) (audited : Bool) : World :=
  match x.phase with
  | .accepted =>
    if w.free x.mail.accountId then
      w.move x (.locked ((w.auth.users.find x.mail.accountId).map fun a =>
        (a.accountState, a.email)))
    else w
  | .locked account => w.move x (.looked account (metadata w.jobs x.mail))
  | .looked account found =>
    if eligible c w.auth w.now audited x.mail account found then w.move x (.passed w.now)
    else w.leave x.id
  | .passed checkedAt => (w.record x checkedAt).move x .handed
  | .handed => w

inductive Event where
  | elapse (gap : ℕ)
  | queue (op : QueueOp)
  | credential (op : CredentialOp) (e : Envelope)
  | restoreByAdmin (u : UserId)
  | anonymize (u : UserId) (now : Instant) (inactiveBefore : Option Instant)
  | purgeVerificationTokens (now : Instant)
  | purgeResetTokens (now : Instant)
  | begin (t : ℕ) (payload : Json)
  | advance (t : ℕ) (audited : Bool)
  | leave (t : ℕ)

/-- What the world runs with. -/
structure Setting where
  casing : Casing
  cron : Cron
  codec : Codec

def World.transition (env : Setting) (w : World) (op : CredentialOp) (e : Envelope) : World :=
  match transact env.casing w.now w.auth op with
  | .error _ => w
  | .ok (none, auth) => { w with auth := auth }
  | .ok (some m, auth) =>
    match admitMail env.codec w.now (retireSpent env.casing w.now w.auth w.jobs op) m e with
    | some jobs => { w with auth := auth, jobs := jobs }
    | none => w

/-- The conditions of `anonymize_guarded`. -/
def erases (env : Casing) (s : AuthStore) (u : UserId) (inactiveBefore : Option Instant) : Prop :=
  (∀ cutoff ∈ inactiveBefore, stillInactive s u cutoff) ∧ ¬ lastAdmin s u ∧ shellAddressFree env s u

instance (env : Casing) (s : AuthStore) (u : UserId) (inactiveBefore : Option Instant) :
    Decidable (erases env s u inactiveBefore) :=
  inferInstanceAs (Decidable ((∀ cutoff ∈ inactiveBefore, _) ∧ _ ∧ _))

def World.erase (w : World) (u : UserId) (now : Instant) : World :=
  { w with
    auth := eraseAccount w.auth u now
    jobs := cancelMail w.jobs (fun j => decide (j.mailAccountId = some u))
      "account deleted; mail cancelled" now }

def World.purge (w : World) (purposes : List String) (now : Instant) (auth : AuthStore) : World :=
  { w with
    auth := auth
    jobs := cancelMail w.jobs (outlived purposes now) "mail credential expired" now
    purges := w.purges ++ [now] }

def step (env : Setting) (w : World) : Event → World
  | .elapse gap => { w with now := w.now + gap }
  | .queue op => { w with jobs := op.apply env.cron w.now w.jobs }
  | .credential op e =>
    if (account env.casing w.auth op).all w.free then w.transition env op e else w
  | .restoreByAdmin u =>
    if w.free u then { w with auth := (AccountAdmin.restoreByAdmin w.auth u).toOption.getD w.auth }
    else w
  | .anonymize u now inactiveBefore =>
    if w.free u ∧ erases env.casing w.auth u inactiveBefore then w.erase u now else w
  | .purgeVerificationTokens now =>
    w.purge ["verify", "change"] now { w.auth with
      verificationTokens := w.auth.verificationTokens.delete fun t => decide (t.expiresAt < now) }
  | .purgeResetTokens now =>
    w.purge ["reset"] now { w.auth with
      resetTokens := w.auth.resetTokens.delete fun t => decide (t.expiresAt < now) }
  | .begin t payload =>
    match env.codec.decode payload with
    | none => w
    | some mail =>
      match w.attempts.insert ⟨t, mail, .accepted⟩ with
      | some attempts => { w with attempts := attempts }
      | none => w
  | .advance t audited =>
    match w.attempts.find t with
    | some x => MailDelivery.advance env.codec w x audited
    | none => w
  | .leave t => w.leave t

/-! What is asked of a mail that goes to the provider. -/

/-- The states in which an account gets a mail with a token. -/
def stateAllows : EmailKind → AccountState → Bool
  | .verifyEmail _, state | .resetPassword _, state => canLogIn state
  | .confirmEmailChange _, state => decide (state = .active)
  | .passwordChanged, _ | .emailAddressChanged, _ => false

/-- The token is the one of the mail's own link, unused, of its account and of the address that
the mail goes to; `valid` says what more is known of its expiry, and whether its row is there. -/
def TokenStands (s : AuthStore) (m : Mail) (valid : Instant → Prop → Prop) : Prop :=
  match m.kind with
  | .verifyEmail _ | .confirmEmailChange _ => ∃ t : VerificationTokenRow,
    t.tokenHash = m.reference ∧ t.userId = m.accountId ∧ t.email = m.recipient ∧
      t.usedAt = none ∧ valid t.expiresAt (s.verificationTokens.find m.reference = some t)
  | .resetPassword _ => (∃ t : ResetTokenRow,
    t.tokenHash = m.reference ∧ t.userId = m.accountId ∧ t.usedAt = none ∧
      valid t.expiresAt (s.resetTokens.find m.reference = some t)) ∧
    ∃ a ∈ s.users.find m.accountId, a.email = m.recipient
  | .passwordChanged | .emailAddressChanged => True

def AccountAllows (s : AuthStore) (m : Mail) : Prop :=
  ∃ a ∈ s.users.find m.accountId, stateAllows m.kind a.accountState = true

/-- The token is unused and unexpired when the mail goes out. -/
def Sent.Live (x : Sent) : Prop :=
  AccountAllows x.auth x.mail ∧
    TokenStands x.auth x.mail fun expires there => there ∧ x.handedAt < expires

/-- The token was unexpired at `checkedAt`; if its row is gone, a purge took it that ran with a
time after its expiry. -/
def Checked (s : AuthStore) (purges : List Instant) (m : Mail) (checkedAt : Instant) : Prop :=
  AccountAllows s m ∧ TokenStands s m fun expires there =>
    checkedAt < expires ∧ (there ∨ ∃ now ∈ purges, expires < now)

/-- What the handler asked for last still holds when the mail goes out, but for the time. -/
def Sent.Bound (x : Sent) : Prop :=
  x.checkedAt ≤ x.handedAt ∧ Checked x.auth x.purges x.mail x.checkedAt

end MailDelivery
