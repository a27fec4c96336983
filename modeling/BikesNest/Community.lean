import BikesNest.Details
import BikesNest.Interleaving
import BikesNest.Reviews

/-! The contribution service: each call is a sequence of database steps, a single statement or
one transaction of a repository. Every call but the vote begins with `require_active`, whose
three statements read the listing; what the repositories then check again is their own affair.
The audit entries written at the end are left out, and so is the limiter, whose answer comes
with the request. -/

namespace Community

open Parking Proposal Schema Contribution Operations Outcome Details Reviews Interleaving

structure AuthenticatedUser where
  id : UserId
  isVerified : Bool

structure NewVerification where
  locationId : LocationId
  userId : UserId
  signal : Signal

def NewVerification.isStillExists (v : NewVerification) : Bool :=
  decide (v.signal = .existence .stillExists)

def parkedHereRetentionDays : ℤ := 90

/-- Instants count microseconds. -/
def days (n : ℤ) : Instant := n * 86400000000

def Signal.expiresAt (now : Instant) : Signal → Option Instant
  | .parkedHere => some (now + days parkedHereRetentionDays)
  | _ => none

def Signal.attributeCode : Signal → Option String
  | .attribute code _ => some code
  | _ => none

/-- `record`: one `INSERT`, with no look at the location beyond its foreign key. -/
def record (s : Store) (id : ℕ) (v : NewVerification) (now : Instant) :
    Except ContributionError Store := do
  ensure ((Signal.attributeCode v.signal).all textOk) .internal
  ensure (s.locations.find v.locationId).isSome (.invalidField "verification_location_id_fkey")
  (requireUser s v.userId "verification_user_id_fkey").mapError DbFailure.toContribution
  let verifications ← orFail (s.verifications.insert ⟨id, v.locationId, some v.userId, v.signal,
    Signal.expiresAt now v.signal⟩) .conflict
  pure { s with verifications := verifications }

/-- `mark_verified_at`: one `UPDATE` by identity. -/
def markVerifiedAt (s : Store) (l : LocationId) (now : Instant) : Store :=
  let locations := s.locations.update (fun r => decide (r.id = l))
    (fun r => { r with lastVerifiedAt := some now }) fun _ => rfl
  { s with locations := locations }

theorem record_frame {s t : Store} {id : ℕ} {v : NewVerification} {now : Instant}
    (h : record s id v now = .ok t) : t = { s with verifications := t.verifications } := by
  simp only [record, bind_ok, ensure_ok, mapError_ok, orFail_ok, pure_ok] at h
  obtain ⟨-, -, -, -, -, -, verifications, -, rfl⟩ := h
  rfl

/-- What an insert of a signal does: one new row, and no other table moves. -/
theorem record_adds {s t : Store} {id : ℕ} {v : NewVerification} {now : Instant}
    (h : record s id v now = .ok t) :
    t.locations = s.locations ∧ (s.locations.find v.locationId).isSome ∧
      s.verifications.find id = none ∧
      ∀ r, r ∈ t.verifications ↔ r ∈ s.verifications ∨
        r = ⟨id, v.locationId, some v.userId, v.signal, Signal.expiresAt now v.signal⟩ := by
  simp only [record, bind_ok, ensure_ok, mapError_ok, orFail_ok, pure_ok] at h
  obtain ⟨-, -, -, located, -, -, verifications, inserted, rfl⟩ := h
  exact ⟨rfl, located, (Table.insert_eq_some.mp inserted).1, fun r => Table.mem_insert inserted⟩

theorem find_markVerifiedAt (s : Store) (l : LocationId) (now : Instant) (k : LocationId) :
    (markVerifiedAt s l now).locations.find k = (s.locations.find k).map fun r =>
      if r.id = l then { r with lastVerifiedAt := some now } else r := by
  simp [markVerifiedAt]

/-- A contribution to a listing, under the name of the service function. New rows come with
the identity they get, a moved pin with what the time zone resolver answers. -/
inductive Submission where
  | upsertReview (id : ℕ) (l : LocationId) (rating : StarRating) (body : ReviewBody)
  | recordVerification (id : ℕ) (signal : NewVerification)
  | applyParkingEdit (id : ProposalId) (l : LocationId) (expectedVersion : ℕ)
      (edit : ParkingEdit)
  | proposeLocationChange (id : ProposalId) (l : LocationId) (kind : ProposalKind)
      (proposed : Json) (resolved : Option Tz)

def Submission.location : Submission → LocationId
  | .upsertReview _ l _ _ => l
  | .recordVerification _ signal => signal.locationId
  | .applyParkingEdit _ l _ _ => l
  | .proposeLocationChange _ l _ _ _ => l

inductive Request where
  | submit (user : AuthenticatedUser) (allowed : Bool) (sub : Submission)
  | voteOnProposal (user : AuthenticatedUser) (id : ProposalId) (vote : ProposalVote)

/-- The writes of the service, each one statement or one transaction. -/
inductive Write where
  | review (d : Draft)
  | verification (id : ℕ) (v : NewVerification)
  | freshness (l : LocationId)
  | proposal (id : ProposalId) (p : NewProposal)
  | vote (id : ProposalId) (voter : UserId) (vote : ProposalVote)

inductive Reply where
  | written
  | proposed (id : ProposalId)
  | voted (totals : ProposalVoteTotals)

inductive Phase where
  | readLocation (user : UserId) (sub : Submission)
  | readHours (user : UserId) (sub : Submission) (row : LocationRow)
  | readSecurity (user : UserId) (sub : Submission) (row : LocationRow) (hours : List HoursRow)
  | write (w : Write)

abbrev Result := Except ContributionError Reply

def validateNameAddress (name address : String) : Except ContributionError Unit := do
  ensure (trim name ≠ "") (.invalidField "name is required")
  ensure (trim address ≠ "") (.invalidField "address is required")

def Submission.validate : Submission → Except ContributionError Unit
  | .applyParkingEdit _ _ _ edit => validateNameAddress edit.name edit.address
  | _ => pure ()

/-- What a call checks before it goes to the database. -/
def accept : Request → Except ContributionError Phase
  | .submit user allowed sub => do
    ensure (user.isVerified = true) .notVerified
    ensure (allowed = true) .rateLimited
    sub.validate
    pure (.readLocation user.id sub)
  | .voteOnProposal user id vote => do
    ensure (user.isVerified = true) .notVerified
    pure (.write (.vote id user.id vote))

/-- The zone stored with a moved pin: the one named, or the one of the new point. -/
def pinTimezone (env : Env) (resolved : Option Tz) :
    ProposedChange → Except ContributionError ProposedChange
  | .moveLocation lat lon timezone => do
    let tz ← match timezone with
      | some name => orFail (env.parseTz name) .timezone
      | none => do
        let _ ← orFail (GeoPoint.new lat lon) (.invalidField "coordinates out of range")
        orFail resolved .timezone
    pure (.moveLocation lat lon (some tz.name))
  | change => pure change

/-- What a call does with the listing `require_active` gave it. -/
def prepare (env : Env) (user : UserId) (current : ParkingLocation) :
    Submission → Except ContributionError Write
  | .upsertReview id l rating body => pure (.review ⟨id, l, user, rating, body⟩)
  | .recordVerification id signal => pure (.verification id signal)
  | .applyParkingEdit id l expectedVersion edit => do
    ensure (current.version = expectedVersion) .versionConflict
    let proposed := Proposal.toJson env edit
    ensure (Proposal.fromJson env proposed).isSome (.invalidField "invalid edit")
    pure (.proposal id ⟨l, user, expectedVersion, .editDetails, proposed⟩)
  | .proposeLocationChange id l kind proposed resolved => do
    let payload := ProposalPayload.fromJson env kind proposed
    ensure (payload.change ≠ .unknown) (.invalidField "invalid proposal")
    ensure (payload.change ≠ .changeExistence true)
      (.invalidField "an active spot already exists")
    let change ← pinTimezone env resolved payload.change
    pure (.proposal id ⟨l, user, current.version, kind, { payload with change }.toJson env⟩)

/-- The end of `require_active`, and what follows up to the first write. -/
def requireActive (env : Env) (user : UserId) (sub : Submission) (row : LocationRow)
    (hours : List HoursRow) (security : List SecurityRow) : Except ContributionError Write := do
  let current ← (toDomain env row hours security).mapError ReaderError.toContribution
  ensure (current.moderationState = .active) .locationNotActive
  prepare env user current sub

def Write.perform (env : Env) (now : Instant) (s : Store) :
    Write → Except ContributionError (Reply × Store)
  | .review d => do
    let (_, t) ← upsertReview s d
    pure (.written, t)
  | .verification id v => do
    let t ← record s id v now
    pure (.written, t)
  | .freshness l => pure (.written, markVerifiedAt s l now)
  | .proposal id p => do
    let t ← createProposal env s id p
    pure (.proposed id, t)
  | .vote id voter position => do
    let (totals, t) ← voteOnProposal env s id voter position now
    pure (.voted totals, t)

/-- A confirmed existence also refreshes the listing, in a statement of its own. -/
def Write.after (reply : Reply) : Write → Progress Phase Result
  | .verification _ v =>
    if v.isStillExists then .next (.write (.freshness v.locationId)) else .done (.ok reply)
  | _ => .done (.ok reply)

/-- One database step of a call, at the time the clock shows. -/
def step (env : Env) (phase : Phase) (now : Instant) (s : Store) : Store × Progress Phase Result :=
  match phase with
  | .readLocation user sub =>
    match s.locations.find sub.location with
    | some row => (s, .next (.readHours user sub row))
    | none => (s, .done (.error .notFound))
  | .readHours user sub row => (s, .next (.readSecurity user sub row (Schema.readHours s row.id)))
  | .readSecurity user sub row hours =>
    match requireActive env user sub row hours (Schema.readSecurity s row.id) with
    | .ok w => (s, .next (.write w))
    | .error e => (s, .done (.error e))
  | .write w =>
    match w.perform env now s with
    | .ok (reply, t) => (t, w.after reply)
    | .error e => (s, .done (.error e))

/-- Calls of the service among the operations of the repositories. -/
def program (env : Env) : Program Store Phase Result Instant Request Op where
  entry request :=
    match accept request with
    | .ok phase => .next phase
    | .error e => .done (.error e)
  step := step env
  apply op s := exec env s op

end Community
