import BikesNest.Accounts
import BikesNest.Credentials

/-! The whole store, and the erasure of an account in it. Columns that nothing here reads or
writes are left out, `updated_at` among them. -/

namespace Erasure

open Parking Proposal Schema Credentials Outcome

inductive JobState where
  | pending | running | succeeded | failed
  deriving DecidableEq

structure JobRow where
  id : ℕ
  kind : String
  payload : Json
  state : JobState
  claimedBy : Option String
  leaseExpiresAt : Option Instant
  heartbeatAt : Option Instant
  lastError : Option String
  finishedAt : Option Instant
  mailAccountId : Option UserId
  mailRecipientHash : Option Digest
  mailTransitionAuditId : Option ℕ
  payloadRedactedAt : Option Instant

structure FavoriteRow where
  userId : UserId
  locationId : LocationId

structure ExportRow where
  id : ℕ
  userId : UserId

structure ConsentRow where
  id : ℕ
  userId : UserId

structure PresentationRow where
  userId : UserId
  termsVersion : String

inductive ReportTargetType where
  | parking | parkingPhoto | review | reviewPhoto
  deriving DecidableEq

inductive ReportState where
  | opened | underReview | resolved | dismissed
  deriving DecidableEq

structure ReportRow where
  id : ℕ
  reporterId : Option UserId
  targetType : ReportTargetType
  targetId : ℕ
  reason : String
  description : String
  state : ReportState
  claimedBy : Option UserId
  resolvedBy : Option UserId
  resolutionNote : Option String
  deriving DecidableEq

inductive PhotoState where
  | pendingReview | approved | rejected | hidden
  deriving DecidableEq

/-- The two tables of photos agree on these columns. -/
structure PhotoRow where
  id : ℕ
  uploaderId : Option UserId
  moderationState : PhotoState
  reviewedBy : Option UserId
  reviewedAt : Option Instant
  deriving DecidableEq

structure AuditRow where
  id : ℕ
  actorUserId : Option UserId
  action : String
  targetType : String
  targetId : String
  deriving DecidableEq

structure PrivacyRequestRow where
  id : ℕ
  userId : Option UserId
  fulfilledBy : Option UserId
  deriving DecidableEq

structure Database where
  auth : AuthStore
  locations : Table LocationId LocationRow LocationRow.id
  hours : Table (LocationId × ℕ × ℕ × ℕ) HoursRow
    fun r => (r.locationId, r.dayOfWeek, r.opensAt, r.closesAt)
  security : Table (LocationId × String) SecurityRow fun r => (r.locationId, r.featureCode)
  revisions : Table (LocationId × ℕ) RevisionRow fun r => (r.locationId, r.version)
  proposals : Table ProposalId ProposalRow ProposalRow.id
  votes : Table (ProposalId × UserId) VoteRow fun r => (r.proposalId, r.voterId)
  reviews : Table ℕ ReviewRow ReviewRow.id
  verifications : Table ℕ VerificationRow VerificationRow.id
  favorites : Table (UserId × LocationId) FavoriteRow fun r => (r.userId, r.locationId)
  jobs : Table ℕ JobRow JobRow.id
  exports : Table ℕ ExportRow ExportRow.id
  consents : Table ℕ ConsentRow ConsentRow.id
  presentations : Table (UserId × String) PresentationRow fun r => (r.userId, r.termsVersion)
  reports : Table ℕ ReportRow ReportRow.id
  parkingPhotos : Table ℕ PhotoRow PhotoRow.id
  reviewPhotos : Table ℕ PhotoRow PhotoRow.id
  auditEvents : Table ℕ AuditRow AuditRow.id
  privacyRequests : Table ℕ PrivacyRequestRow PrivacyRequestRow.id

def empty : Database :=
  ⟨Credentials.empty, .empty, .empty, .empty, .empty, .empty, .empty, .empty, .empty, .empty, .empty,
    .empty, .empty, .empty, .empty, .empty, .empty, .empty, .empty⟩

/-- The columns of an account that the listings read. -/
def userRow (a : AccountRow) : UserRow :=
  ⟨a.id, a.accountState, a.emailVerifiedAt, a.publicContributionName⟩

/-- The part of the store that the listing workflows run on. -/
def Database.listing (db : Database) : Store where
  locations := db.locations
  hours := db.hours
  security := db.security
  revisions := db.revisions
  proposals := db.proposals
  votes := db.votes
  users := db.auth.users.project userRow fun _ => rfl
  roles := db.auth.roles
  reviews := db.reviews
  verifications := db.verifications

@[simp] theorem find_listing_users (db : Database) (u : UserId) :
    db.listing.users.find u = (db.auth.users.find u).map userRow :=
  Table.find_project _ _ (fun _ => rfl) _

/-- `anonymized_email`. -/
def anonymizedEmail (u : UserId) : String := "deleted+" ++ toString u ++ "@bikesnest.invalid"

/-- `last_admin_locked`. -/
def lastAdmin (s : AuthStore) (u : UserId) : Prop :=
  (s.roles.find (u, .admin)).isSome ∧ s.roles.count (fun r => decide (r.role = .admin)) = 1

instance (s : AuthStore) (u : UserId) : Decidable (lastAdmin s u) :=
  inferInstanceAs (Decidable (_ ∧ _))

/-- The recheck of `anonymize_if_inactive` under the lock of the account's row. -/
def stillInactive (s : AuthStore) (u : UserId) (cutoff : Instant) : Prop :=
  (∃ a ∈ s.users.find u, a.accountState ≠ .deleted ∧ a.lastActiveAt < cutoff) ∧
    ∀ r ∈ s.sessions.rows, r.userId = u → r.lastSeenAt < cutoff

instance (s : AuthStore) (u : UserId) (cutoff : Instant) : Decidable (stillInactive s u cutoff) :=
  inferInstanceAs (Decidable ((∃ a ∈ s.users.find u, _) ∧ _))

/-- The unique index on addresses admits the address of the shell. -/
def shellAddressFree (env : Casing) (s : AuthStore) (u : UserId) : Prop :=
  (s.users.find u).isSome →
    ∀ a ∈ s.users.rows, env.lower a.email = env.lower (anonymizedEmail u) → a.id = u

instance (env : Casing) (s : AuthStore) (u : UserId) : Decidable (shellAddressFree env s u) :=
  inferInstanceAs (Decidable (_ → _))

theorem AccountRow.erased_key (u : UserId) (now : Instant) (a : AccountRow) :
    { a with
      email := anonymizedEmail u, displayName := none, emailVerifiedAt := none, suspendedAt := none
      deletedAt := some now, accountState := .deleted, publicContributionName := false
      publicContributionNameUpdatedAt := none }.id = a.id := rfl

/-- The account's row is emptied in place and its logins go. -/
def eraseAccount (s : AuthStore) (u : UserId) (now : Instant) : AuthStore :=
  let s := setAccount s u (fun a => { a with
    email := anonymizedEmail u, displayName := none, emailVerifiedAt := none, suspendedAt := none
    deletedAt := some now, accountState := .deleted, publicContributionName := false
    publicContributionNameUpdatedAt := none }) (AccountRow.erased_key u now)
  let roles := (s.roles.delete fun r => decide (r.userId = u)).update
    (fun r => decide (r.grantedBy = some u)) (fun r => { r with grantedBy := none })
    RoleRow.ungranted_key
  { s with
    identities := s.identities.filter fun i => !decide (i.userId = u)
    roles := roles
    sessions := s.sessions.delete fun r => decide (r.userId = u)
    verificationTokens := s.verificationTokens.delete fun t => decide (t.userId = u)
    resetTokens := s.resetTokens.delete fun t => decide (t.userId = u)
    acknowledgements := s.acknowledgements.delete fun a => decide (a.userId = u) }

def JobRow.isMailOf (u : UserId) (j : JobRow) : Bool :=
  decide (j.kind = "email.send" ∧ j.mailAccountId = some u)

/-- A mail of an erased account is emptied, and cancelled when it was still to be sent. -/
def JobRow.redact (now : Instant) (j : JobRow) : JobRow :=
  let unsent := decide (j.state = .pending ∨ j.state = .running)
  { j with
    payload := .obj []
    state := if unsent then .failed else j.state
    lastError := if unsent || decide (j.state = .failed)
      then some "account deleted; mail cancelled" else none
    finishedAt := if unsent then j.finishedAt.or (some now) else j.finishedAt
    claimedBy := none
    leaseExpiresAt := none
    heartbeatAt := none
    mailRecipientHash := none
    mailTransitionAuditId := none
    payloadRedactedAt := j.payloadRedactedAt.or (some now) }

/-- The update of `report` nulls its three references together. -/
def ReportRow.names (u : UserId) (r : ReportRow) : Prop :=
  r.reporterId = some u ∨ r.claimedBy = some u ∨ r.resolvedBy = some u

instance (u : UserId) (r : ReportRow) : Decidable (r.names u) :=
  inferInstanceAs (Decidable (_ ∨ _ ∨ _))

def ReportRow.unattribute (r : ReportRow) : ReportRow :=
  { r with reporterId := none, claimedBy := none, resolvedBy := none }

def PrivacyRequestRow.names (u : UserId) (r : PrivacyRequestRow) : Prop :=
  r.userId = some u ∨ r.fulfilledBy = some u

instance (u : UserId) (r : PrivacyRequestRow) : Decidable (r.names u) :=
  inferInstanceAs (Decidable (_ ∨ _))

def PrivacyRequestRow.unattribute (r : PrivacyRequestRow) : PrivacyRequestRow :=
  { r with userId := none, fulfilledBy := none }

def PhotoRow.ofUploader (u : UserId) (p : PhotoRow) : Bool := decide (p.uploaderId = some u)

def PhotoRow.unattribute (p : PhotoRow) : PhotoRow := { p with uploaderId := none }

/-- A failed login is audited under the address that was tried. -/
def AuditRow.targets (email : Option String) (a : AuditRow) : Bool :=
  decide (a.targetType = "user" ∧ some a.targetId = email)

def unattributeAudit (audit : Table ℕ AuditRow AuditRow.id) (u : UserId) (email : Option String) :
    Table ℕ AuditRow AuditRow.id :=
  (audit.update (fun a => decide (a.actorUserId = some u))
    (fun a => { a with actorUserId := none }) fun _ => rfl).update
    (fun a => a.targets email) (fun a => { a with targetId := anonymizedEmail u }) fun _ => rfl

def unattributeProposals (proposals : Table ProposalId ProposalRow ProposalRow.id) (u : UserId) :
    Table ProposalId ProposalRow ProposalRow.id :=
  (proposals.update (fun p => decide (p.proposerId = some u))
    (fun p => { p with proposerId := none }) ProposalRow.unproposed_key).update
    (fun p => decide (p.resolvedBy = some u)) (fun p => { p with resolvedBy := none })
    ProposalRow.unresolved_key

def unattributeVerifications (verifications : Table ℕ VerificationRow VerificationRow.id)
    (u : UserId) : Table ℕ VerificationRow VerificationRow.id :=
  (verifications.delete fun v => decide (v.userId = some u ∧ v.signal = .parkedHere)).update
    (fun v => decide (v.userId = some u)) (fun v => { v with userId := none })
    VerificationRow.unattributed_key

/-- The statements of `anonymize_guarded`, each on a table of its own. -/
def Database.erase (db : Database) (u : UserId) (now : Instant) : Database where
  auth := eraseAccount db.auth u now
  locations := db.locations.update (fun r => decide (r.creatorId = some u))
    (fun r => { r with creatorId := none }) LocationRow.unattributed_key
  hours := db.hours
  security := db.security
  revisions := db.revisions.update (fun r => decide (r.editorId = some u))
    (fun r => { r with editorId := none }) RevisionRow.unattributed_key
  proposals := unattributeProposals db.proposals u
  votes := db.votes.delete fun v => decide (v.voterId = u)
  reviews := db.reviews.update (fun r => decide (r.authorId = some u))
    (fun r => { r with authorId := none, publicAuthor := false }) ReviewRow.unattributed_key
  verifications := unattributeVerifications db.verifications u
  favorites := db.favorites.delete fun r => decide (r.userId = u)
  jobs := db.jobs.update (fun j => j.isMailOf u) (JobRow.redact now) fun _ => rfl
  exports := db.exports.delete fun r => decide (r.userId = u)
  consents := db.consents.delete fun r => decide (r.userId = u)
  presentations := db.presentations.delete fun r => decide (r.userId = u)
  reports := db.reports.update (fun r => decide (r.names u)) ReportRow.unattribute fun _ => rfl
  parkingPhotos := db.parkingPhotos.update (fun p => p.ofUploader u) PhotoRow.unattribute
    fun _ => rfl
  reviewPhotos := db.reviewPhotos.update (fun p => p.ofUploader u) PhotoRow.unattribute
    fun _ => rfl
  auditEvents := unattributeAudit db.auditEvents u ((db.auth.users.find u).map AccountRow.email)
  privacyRequests := db.privacyRequests.update (fun r => decide (r.names u))
    PrivacyRequestRow.unattribute fun _ => rfl

structure AnonymizationReport where
  identities : ℕ
  roles : ℕ
  rolesGrantedByAnonymized : ℕ
  sessions : ℕ
  emailVerificationTokens : ℕ
  passwordResetTokens : ℕ
  favorites : ℕ
  parkedHere : ℕ
  exports : ℕ
  consentRecords : ℕ
  termsNoticePresentations : ℕ
  termsAcknowledgements : ℕ
  reviewsAnonymized : ℕ
  verificationsAnonymized : ℕ
  proposalsAnonymized : ℕ
  reportsAnonymized : ℕ
  locationsAnonymized : ℕ
  revisionsAnonymized : ℕ
  parkingPhotosAnonymized : ℕ
  reviewPhotosAnonymized : ℕ
  auditEventsAnonymized : ℕ
  auditTargetsAnonymized : ℕ
  privacyRequestsAnonymized : ℕ
  deriving DecidableEq

/-- The rows that each statement of the erasure touches. A role that the account granted itself
is gone before the grants are counted, a visit before the verifications are. -/
def Database.erasureCounts (db : Database) (u : UserId) : AnonymizationReport where
  identities := db.auth.identities.countP fun i => decide (i.userId = u)
  roles := db.auth.roles.count fun r => decide (r.userId = u)
  rolesGrantedByAnonymized :=
    db.auth.roles.count fun r => decide (r.userId ≠ u ∧ r.grantedBy = some u)
  sessions := db.auth.sessions.count fun r => decide (r.userId = u)
  emailVerificationTokens := db.auth.verificationTokens.count fun t => decide (t.userId = u)
  passwordResetTokens := db.auth.resetTokens.count fun t => decide (t.userId = u)
  favorites := db.favorites.count fun r => decide (r.userId = u)
  parkedHere := db.verifications.count fun v =>
    decide (v.userId = some u ∧ v.signal = .parkedHere)
  exports := db.exports.count fun r => decide (r.userId = u)
  consentRecords := db.consents.count fun r => decide (r.userId = u)
  termsNoticePresentations := db.presentations.count fun r => decide (r.userId = u)
  termsAcknowledgements := db.auth.acknowledgements.count fun a => decide (a.userId = u)
  reviewsAnonymized := db.reviews.count fun r => decide (r.authorId = some u)
  verificationsAnonymized := db.verifications.count fun v =>
    decide (v.userId = some u ∧ v.signal ≠ .parkedHere)
  proposalsAnonymized := db.proposals.count (fun p => decide (p.proposerId = some u)) +
    db.proposals.count fun p => decide (p.resolvedBy = some u)
  reportsAnonymized := db.reports.count fun r => decide (r.names u)
  locationsAnonymized := db.locations.count fun r => decide (r.creatorId = some u)
  revisionsAnonymized := db.revisions.count fun r => decide (r.editorId = some u)
  parkingPhotosAnonymized := db.parkingPhotos.count fun p => p.ofUploader u
  reviewPhotosAnonymized := db.reviewPhotos.count fun p => p.ofUploader u
  auditEventsAnonymized := db.auditEvents.count fun a => decide (a.actorUserId = some u)
  auditTargetsAnonymized := db.auditEvents.count fun a =>
    a.targets ((db.auth.users.find u).map AccountRow.email)
  privacyRequestsAnonymized := db.privacyRequests.count fun r => decide (r.names u)

def anonymizeGuarded (env : Casing) (db : Database) (u : UserId) (now : Instant)
    (inactiveBefore : Option Instant) :
    Except PrivacyError (Option (AnonymizationReport × Database)) :=
  if ∃ cutoff ∈ inactiveBefore, ¬ stillInactive db.auth u cutoff then .ok none
  else do
    ensure (¬ lastAdmin db.auth u) .lastAdmin
    ensure (shellAddressFree env db.auth u) .conflict
    pure (some (db.erasureCounts u, db.erase u now))

def anonymize (env : Casing) (db : Database) (u : UserId) (now : Instant) :
    Except PrivacyError (AnonymizationReport × Database) := do
  orFail (← anonymizeGuarded env db u now none) .internal

def anonymizeIfInactive (env : Casing) (db : Database) (u : UserId) (inactiveBefore now : Instant) :
    Except PrivacyError (Option (AnonymizationReport × Database)) :=
  anonymizeGuarded env db u now (some inactiveBefore)

variable {env : Casing} {db db' : Database} {u : UserId} {now : Instant}
  {report : AnonymizationReport}

theorem anonymizeGuarded_ok {inactiveBefore : Option Instant} :
    anonymizeGuarded env db u now inactiveBefore = .ok (some (report, db')) ↔
      (∀ cutoff ∈ inactiveBefore, stillInactive db.auth u cutoff) ∧ ¬ lastAdmin db.auth u ∧
      shellAddressFree env db.auth u ∧ report = db.erasureCounts u ∧ db' = db.erase u now := by
  unfold anonymizeGuarded
  split
  · rename_i awake
    obtain ⟨cutoff, given, awake⟩ := awake
    simp only [Except.ok.injEq, reduceCtorEq, false_iff, not_and]
    exact fun inactive => absurd (inactive cutoff given) awake
  · rename_i asleep
    simp only [not_exists, not_and, not_not] at asleep
    simp only [bind_ok, ensure_ok, pure_ok, Option.some.injEq, Prod.mk.injEq, exists_and_left,
      exists_const, eq_comm (a := report), eq_comm (a := db')]
    exact ⟨fun h => ⟨asleep, h⟩, fun h => h.2⟩

theorem anonymize_ok :
    anonymize env db u now = .ok (report, db') ↔ ¬ lastAdmin db.auth u ∧
      shellAddressFree env db.auth u ∧ report = db.erasureCounts u ∧ db' = db.erase u now := by
  simp only [anonymize, bind_ok, orFail_ok, exists_eq_right, anonymizeGuarded_ok]
  simp

/-- What the erasure is to the listings. -/
theorem listing_erase (db : Database) (u : UserId) (now : Instant) :
    (db.erase u now).listing = Accounts.scrub db.listing u := by
  have users : (db.erase u now).listing.users = (Accounts.scrub db.listing u).users := by
    apply Table.ext
    change List.map userRow (List.map _ db.auth.users.rows) =
      List.map _ (List.map userRow db.auth.users.rows)
    rw [List.map_map, List.map_map]
    refine List.map_congr_left fun a _ => ?_
    by_cases same : a.id = u <;> simp [userRow, same]
  simp only [Database.listing] at users
  simp only [Database.listing, users]
  rfl

end Erasure
