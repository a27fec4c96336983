import BikesNest.Erasure
import BikesNest.Interleaving
import BikesNest.Publishing
import BikesNest.Reviews

/-! Reports of content and what moderators do with them. Each statement is a step of its own and
can fail on the database; a failed statement leaves the store as it was. The two rate limits of a
report, which count nothing that is read here, enter by their answer. -/

namespace Reports

open Parking Proposal Schema Credentials Outcome Erasure Interleaving

inductive ReportError where
  | notAuthorized
  | selfResolve
  | notFound
  | targetNotFound
  | invalidState
  | alreadyReported
  | invalidReason
  | invalidField (text : String)
  | rateLimited
  | conflict
  | unavailable
  | internal
  deriving DecidableEq

/-- How the database answers when it cannot run a statement. -/
inductive Fault where
  | conflict
  | invalid (constraint : String)
  | unavailable
  | other
  deriving DecidableEq

def Fault.toError : Fault → ReportError
  | .conflict => .conflict
  | .invalid constraint => .invalidField constraint
  | .unavailable => .unavailable
  | .other => .internal

/-- The errors of `set_parking_state` are a part of the errors of the service. -/
def ofModeration : ModerationError → ReportError
  | .notAuthorized => .notAuthorized
  | .notFound => .notFound
  | .invalidState => .invalidState
  | .invalidField hint => .invalidField hint
  | .conflict => .conflict
  | .staleProposal | .invalidProposalField _ | .internal => .internal

structure AuthenticatedUser where
  id : UserId
  roles : List Role

def requireModerator (user : AuthenticatedUser) : Except ReportError Unit :=
  ensure (.moderator ∈ user.roles ∨ .admin ∈ user.roles) .notAuthorized

def reportReasons : List String :=
  ["nonexistent_parking", "incorrect_location", "incorrect_price", "incorrect_hours",
    "incorrect_security", "duplicate", "inappropriate_photo", "inappropriate_review", "spam",
    "abuse", "other"]

def isKnownReportReason (code : String) : Bool := reportReasons.contains code

def reasonAllowedFor (target : ReportTargetType) (reason : String) : Bool :=
  if reason = "inappropriate_photo" then
    decide (target = .parkingPhoto ∨ target = .reviewPhoto)
  else if reason = "inappropriate_review" then
    decide (target = .review ∨ target = .reviewPhoto)
  else if reason = "duplicate" then decide (target = .parking)
  else true

/-- `ReportDescription::new_with_len`. -/
def newDescription (raw : String) (maxLen : ℕ) : Except ReportError String := do
  let trimmed := trim raw
  ensure (trimmed.length ≤ maxLen) (.invalidField ("report description must be at most " ++
    toString maxLen ++ " characters: " ++ toString trimmed.length))
  pure trimmed

structure NewReport where
  id : ℕ
  reporterId : UserId
  targetType : ReportTargetType
  targetId : ℕ
  reason : String
  description : String

inductive ReportOutcome where
  | resolved | dismissed
  deriving DecidableEq

def ReportOutcome.state : ReportOutcome → ReportState
  | .resolved => .resolved
  | .dismissed => .dismissed

/-- Reports that are still to be worked on, over which the unique index runs. -/
def ReportRow.live (r : ReportRow) : Prop := r.state = .opened ∨ r.state = .underReview

instance (r : ReportRow) : Decidable (ReportRow.live r) := inferInstanceAs (Decidable (_ ∨ _))

def targetExists (db : Database) (targetType : ReportTargetType) (targetId : ℕ) : Bool :=
  match targetType with
  | .parking => (db.locations.find targetId).isSome
  | .parkingPhoto => (db.parkingPhotos.find targetId).isSome
  | .review => (db.reviews.find targetId).isSome
  | .reviewPhoto => (db.reviewPhotos.find targetId).isSome

/-- `report_dedupe_idx`. -/
def dedupes (n : NewReport) (r : ReportRow) : Bool :=
  decide (ReportRow.live r ∧ r.reporterId = some n.reporterId ∧ r.targetType = n.targetType ∧
    r.targetId = n.targetId)

def NewReport.row (n : NewReport) : ReportRow :=
  ⟨n.id, some n.reporterId, n.targetType, n.targetId, n.reason, n.description, .opened, none, none,
    none⟩

/-- `create` of the report repository. -/
def createReport (db : Database) (n : NewReport) : Except ReportError Database := do
  ensure (textOk n.description) .internal
  ensure (db.auth.users.find n.reporterId).isSome (.invalidField "report_reporter_id_fkey")
  ensure (db.reports.rows.any (dedupes n) = false) .conflict
  let reports ← orFail (db.reports.insert n.row) .conflict
  pure { db with reports := reports }

def setReport (db : Database) (id : ℕ) (f : ReportRow → ReportRow) (hf : ∀ r, (f r).id = r.id) :
    Database :=
  { db with reports := db.reports.update (fun r => decide (r.id = id)) f hf }

theorem find_setReport (db : Database) (id : ℕ) (f : ReportRow → ReportRow)
    (hf : ∀ r, (f r).id = r.id) (k : ℕ) : (setReport db id f hf).reports.find k =
      (db.reports.find k).map fun r => if r.id = id then f r else r := by
  simp [setReport]

def ReportRow.claim (moderator : UserId) (r : ReportRow) : ReportRow :=
  { r with state := .underReview, claimedBy := some moderator }

def ReportRow.resolve (moderator : UserId) (note : String) (outcome : ReportOutcome)
    (r : ReportRow) : ReportRow :=
  { r with state := outcome.state, resolvedBy := some moderator, resolutionNote := some note }

/-- `claim` of the report repository. -/
def claimReport (db : Database) (id : ℕ) (moderator : UserId) : Except ReportError Database := do
  ensure (∃ r ∈ db.reports.find id, r.state = .opened) .invalidState
  ensure (db.auth.users.find moderator).isSome (.invalidField "report_claimed_by_fkey")
  pure (setReport db id (ReportRow.claim moderator) fun _ => rfl)

/-- `resolve` of the report repository. -/
def resolveRow (db : Database) (id : ℕ) (moderator : UserId) (note : String)
    (outcome : ReportOutcome) : Except ReportError Database := do
  ensure (textOk note) .internal
  ensure (∃ r ∈ db.reports.find id, r.state = .underReview) .invalidState
  ensure (db.auth.users.find moderator).isSome (.invalidField "report_resolved_by_fkey")
  pure (setReport db id (ReportRow.resolve moderator note outcome) fun _ => rfl)

/-- `set_review_state` with nothing beside it. -/
def setReviewState (db : Database) (id : ℕ) (source target : ReviewState) :
    Except ReportError Database := do
  let review ← orFail (db.reviews.find id) .invalidState
  ensure (review.moderationState = source) .invalidState
  let s := Reviews.changeReview id (fun q => { q with moderationState := target })
    (ReviewRow.moderated_key target) db.listing
  let ratings := Reviews.activeRatings s review.locationId
  ensure (Reviews.RatingFits ratings) .internal
  pure { db with
    reviews := s.reviews, locations := (Reviews.setRating review.locationId ratings s).locations }

def hideReview (db : Database) (id : ℕ) : Except ReportError Database :=
  setReviewState db id .active .hidden

abbrev PhotoTable := Table ℕ PhotoRow PhotoRow.id

/-- `hide_photo` on the table of its kind, of the given name. -/
def hidePhoto (db : Database) (table : String) (photos : PhotoTable) (id : ℕ) (moderator : UserId)
    (clock : Instant) : Except ReportError PhotoTable := do
  ensure (∃ p ∈ photos.find id, p.moderationState = .approved) .invalidState
  ensure (db.auth.users.find moderator).isSome (.invalidField (table ++ "_reviewed_by_fkey"))
  pure (photos.update (fun p => decide (p.id = id)) (fun p => { p with
    moderationState := .hidden, reviewedBy := some moderator, reviewedAt := some clock }) fun _ => rfl)

/-- What the listing workflows leave goes back into the store. -/
def withListing (db : Database) (s : Store) : Database :=
  { db with
    locations := s.locations, hours := s.hours, security := s.security, revisions := s.revisions
    proposals := s.proposals, votes := s.votes, reviews := s.reviews
    verifications := s.verifications }

/-- `set_parking_state` from active to invalid. -/
def invalidateParking (env : Env) (db : Database) (id : ℕ) (moderator : UserId) :
    Except ReportError Database := do
  let s ← (Publishing.setParkingState env db.listing id [.active] .invalid moderator).mapError
    ofModeration
  pure (withListing db s)

/-- What `hide_resolved_target` asks of the repositories. -/
def hideTarget (env : Env) (db : Database) (targetType : ReportTargetType) (targetId : ℕ)
    (moderator : UserId) (clock : Instant) : Except ReportError Database :=
  match targetType with
  | .review => hideReview db targetId
  | .parkingPhoto => do
    let photos ← hidePhoto db "parking_photo" db.parkingPhotos targetId moderator clock
    pure { db with parkingPhotos := photos }
  | .reviewPhoto => do
    let photos ← hidePhoto db "review_photo" db.reviewPhotos targetId moderator clock
    pure { db with reviewPhotos := photos }
  | .parking => invalidateParking env db targetId moderator

def recordAudit (db : Database) (row : AuditRow) : Except ReportError Database := do
  ensure (∀ u ∈ row.actorUserId, (db.auth.users.find u).isSome) .internal
  let auditEvents ← orFail (db.auditEvents.insert row) .internal
  pure { db with auditEvents := auditEvents }

/-- The audit rows of the service are about the report; `id` is what the sequence gives. -/
def auditRow (id : ℕ) (actor : UserId) (action : String) (report : ℕ) : AuditRow :=
  ⟨id, some actor, action, "report", toString report⟩

structure Resolving where
  moderator : UserId
  outcome : ReportOutcome
  note : String
  clock : Instant
  auditId : ℕ

/-- What is left of a call. -/
inductive Phase where
  | targetExists (new : NewReport) (auditId : ℕ)
  | create (new : NewReport) (auditId : ℕ)
  | claim (moderator : UserId) (id auditId : ℕ)
  | get (id : ℕ) (call : Resolving)
  | resolve (report : ReportRow) (call : Resolving)
  | hide (report : ReportRow) (call : Resolving)
  | audit (row : AuditRow)

inductive Call where
  | submitReport (user : AuthenticatedUser) (limited : Bool) (maxLen : ℕ) (id : ℕ)
      (targetType : ReportTargetType) (targetId : ℕ) (reason : String)
      (description : Option String) (auditId : ℕ)
  | claimReport (moderator : AuthenticatedUser) (id auditId : ℕ)
  | resolveReport (moderator : AuthenticatedUser) (id : ℕ) (outcome : ReportOutcome)
      (note : String) (clock : Instant) (auditId : ℕ)

abbrev Reply := Except ReportError Unit

def ofChecks (t : Except ReportError Phase) : Progress Phase Reply :=
  match t with
  | .ok phase => .next phase
  | .error e => .done (.error e)

/-- What a call checks before it first asks the database. -/
def entry : Call → Progress Phase Reply
  | .submitReport user limited maxLen id targetType targetId reason description auditId =>
    ofChecks do
      ensure (limited = false) .rateLimited
      ensure (isKnownReportReason reason) .invalidReason
      ensure (reasonAllowedFor targetType reason) .invalidReason
      let text ← newDescription (description.getD "") maxLen
      pure (.targetExists ⟨id, user.id, targetType, targetId, reason, text⟩ auditId)
  | .claimReport moderator id auditId =>
    ofChecks do
      requireModerator moderator
      pure (.claim moderator.id id auditId)
  | .resolveReport moderator id outcome note clock auditId =>
    ofChecks do
      requireModerator moderator
      pure (.get id ⟨moderator.id, outcome, note, clock, auditId⟩)

/-- A statement that writes: it takes the call on, or ends it with its error. -/
def attempt (db : Database) (t : Except ReportError Database) (after : Progress Phase Reply) :
    Database × Progress Phase Reply :=
  match t with
  | .ok db' => (db', after)
  | .error e => (db, .done (.error e))

/-- The violation of the unique index is the reporter's own repetition. -/
def repeated : ReportError → ReportError
  | .conflict => .alreadyReported
  | e => e

/-- A target that is hidden or gone already leaves the resolution standing. -/
def tolerated (db : Database) (t : Except ReportError Database) : Except ReportError Database :=
  match t with
  | .error .invalidState | .error .notFound => .ok db
  | t => t

def ReportOutcome.action : ReportOutcome → String
  | .resolved => "report.resolved"
  | .dismissed => "report.dismissed"

def afterResolve (report : ReportRow) (call : Resolving) : Progress Phase Reply :=
  match call.outcome with
  | .resolved => .next (.hide report call)
  | .dismissed => .next (.audit (auditRow call.auditId call.moderator call.outcome.action report.id))

/-- One statement of a call. -/
def step (env : Env) (phase : Phase) (db : Database) : Database × Progress Phase Reply :=
  match phase with
  | .targetExists new auditId =>
    if targetExists db new.targetType new.targetId then (db, .next (.create new auditId))
    else (db, .done (.error .targetNotFound))
  | .create new auditId => attempt db ((createReport db new).mapError repeated)
      (.next (.audit (auditRow auditId new.reporterId "report.created" new.id)))
  | .claim moderator id auditId => attempt db (claimReport db id moderator)
      (.next (.audit (auditRow auditId moderator "report.claimed" id)))
  | .get id call =>
    match db.reports.find id with
    | none => (db, .done (.error .notFound))
    | some report =>
      if report.reporterId = some call.moderator then (db, .done (.error .selfResolve))
      else (db, .next (.resolve report call))
  | .resolve report call => attempt db
      (resolveRow db report.id call.moderator call.note call.outcome) (afterResolve report call)
  | .hide report call => attempt db
      (tolerated db (hideTarget env db report.targetType report.targetId call.moderator call.clock))
      (.next (.audit (auditRow call.auditId call.moderator call.outcome.action report.id)))
  | .audit row => attempt db (recordAudit db row) (.done (.ok ()))

/-- The error that a failing statement ends the call with; a failing audit is internal. -/
def failure : Phase → Fault → ReportError
  | .create _ _, fault => repeated fault.toError
  | .audit _, _ => .internal
  | _, fault => fault.toError

/-- A statement as the database runs it, or fails to. -/
def stepFaulty (env : Env) (phase : Phase) (fault : Option Fault) (db : Database) :
    Database × Progress Phase Reply :=
  match fault with
  | some fault => (db, .done (.error (failure phase fault)))
  | none => step env phase db

/-! What a statement that succeeds went through. -/

variable {env : Env} {db db' : Database} {id : ℕ} {moderator : UserId} {note : String}
  {outcome : ReportOutcome} {clock : Instant}

theorem createReport_ok {n : NewReport} (h : createReport db n = .ok db') :
    (∀ r ∈ db.reports, dedupes n r = false) ∧
      ∃ reports, db.reports.insert n.row = some reports ∧ db' = { db with reports := reports } := by
  simp only [createReport, bind_ok, ensure_ok, orFail_ok, pure_ok, List.any_eq_false,
    Bool.not_eq_true] at h
  obtain ⟨_, -, _, -, _, single, reports, inserted, rfl⟩ := h
  exact ⟨single, reports, inserted, rfl⟩

theorem claimReport_ok (h : claimReport db id moderator = .ok db') :
    (∃ r, db.reports.find id = some r ∧ r.state = .opened) ∧
      db' = setReport db id (ReportRow.claim moderator) fun _ => rfl := by
  simp only [claimReport, bind_ok, ensure_ok, pure_ok] at h
  obtain ⟨_, ready, _, -, rfl⟩ := h
  exact ⟨ready, rfl⟩

theorem resolveRow_ok : resolveRow db id moderator note outcome = .ok db' ↔
    textOk note = true ∧ (∃ r, db.reports.find id = some r ∧ r.state = .underReview) ∧
      (db.auth.users.find moderator).isSome = true ∧
      db' = setReport db id (ReportRow.resolve moderator note outcome) fun _ => rfl := by
  simp only [resolveRow, bind_ok, ensure_ok, pure_ok, exists_and_left, exists_const,
    eq_comm (a := db')]
  rfl

/-- Hiding a target leaves the reports, the accounts and the audit alone. -/
theorem hideTarget_frame {targetType : ReportTargetType} {targetId : ℕ}
    (h : hideTarget env db targetType targetId moderator clock = .ok db') :
    db'.reports = db.reports ∧ db'.auth = db.auth ∧ db'.auditEvents = db.auditEvents := by
  cases targetType <;>
    simp only [hideTarget, hideReview, setReviewState, invalidateParking, bind_ok, ensure_ok,
      orFail_ok, pure_ok, mapError_ok] at h
  case review =>
    obtain ⟨_, -, _, -, _, -, rfl⟩ := h
    exact ⟨rfl, rfl, rfl⟩
  all_goals
    obtain ⟨_, -, rfl⟩ := h
    exact ⟨rfl, rfl, rfl⟩

theorem recordAudit_ok {row : AuditRow} : recordAudit db row = .ok db' ↔
    (∀ u ∈ row.actorUserId, (db.auth.users.find u).isSome = true) ∧
      ∃ auditEvents, db.auditEvents.insert row = some auditEvents ∧
        db' = { db with auditEvents := auditEvents } := by
  simp only [recordAudit, bind_ok, ensure_ok, orFail_ok, pure_ok, exists_and_left, exists_const,
    eq_comm (a := db')]

theorem recordAudit_frame {row : AuditRow} (h : recordAudit db row = .ok db') :
    db'.reports = db.reports ∧ db'.auth = db.auth := by
  obtain ⟨-, auditEvents, -, rfl⟩ := recordAudit_ok.mp h
  exact ⟨rfl, rfl⟩

theorem tolerated_ok {t : Except ReportError Database} (h : tolerated db t = .ok db') :
    t = .ok db' ∨ db' = db := by
  unfold tolerated at h
  split at h
  · cases h
    exact .inr rfl
  · cases h
    exact .inr rfl
  · exact .inl h

end Reports
