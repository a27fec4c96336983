import BikesNest.Publishing

/-! The contribution repository: adding a location, the direct edit, submitting a proposal
and voting on it. The identity an `INSERT` hands out is an argument, refused when taken. -/

namespace Contribution

open Parking Proposal Schema Publishing Outcome

/-- The row `create` inserts. -/
def newRow (id : LocationId) (new : NewParkingLocation) (tz : Tz) (creator : UserId) :
    LocationRow :=
  let (kind, cents, currency, unit) := costParts new.cost
  { id := id
    name := trim new.name
    address := trim new.address
    description := new.description
    parkingType := new.parkingType
    costKind := kind
    priceCents := cents
    priceCurrency := currency
    priceUnit := unit
    lat := new.point.lat
    lon := new.point.lon
    timezone := tz.name
    hoursUnknown := new.hours.isUnknown
    moderationState := .active
    version := 1
    creatorId := some creator
    ratingAvg := none
    ratingCount := 0
    lastVerifiedAt := none }

/-- The snapshot `create` records, from the request and not from the row. -/
def newSnapshot (env : Env) (new : NewParkingLocation) (tz : Tz) : Json :=
  snapshotOf env new.name new.address new.description new.parkingType new.cost new.point.lat
    new.point.lon tz.name new.hours new.security .active

/-- `create`. -/
def create (env : Env) (s : Store) (id : LocationId) (new : NewParkingLocation)
    (creator : UserId) : Except ContributionError Store := do
  let tz ← orFail new.timezone (.invalidField "timezone is required")
  let row := newRow id new tz creator
  (checkLocation row).mapError DbFailure.toContribution
  (requireUser s creator "parking_location_creator_id_fkey").mapError DbFailure.toContribution
  let locations ← orFail (s.locations.insert row) .conflict
  let s ← writeHours env { s with locations := locations } id new.hours
  let s := writeSecurity s id new.security
  (insertRevision s id 1 creator .create "added" (newSnapshot env new tz)).mapError
    DbFailure.toContribution

/-- The snapshot `apply_edit` records: name, address and untouched columns come from the
updated row, the hours and the security entries from the request. -/
def editSnapshot (env : Env) (row : LocationRow) (edit : ParkingEdit) (point : GeoPoint)
    (tz : Tz) : Json :=
  snapshotOf env row.name row.address row.description row.parkingType edit.cost point.lat
    point.lon tz.name edit.hours edit.security row.moderationState

/-- `apply_edit`. -/
def applyEdit (env : Env) (s : Store) (id : LocationId) (expectedVersion : ℕ)
    (edit : ParkingEdit) (editor : UserId) : Except ContributionError Store := do
  let loc ← orFail (s.locations.find id) .notFound
  ensure (loc.moderationState = .active) .locationNotActive
  ensure (loc.version = expectedVersion) .versionConflict
  let row ← orFail (changedRow loc (.editDetails edit)) .versionConflict
  (checkLocation row).mapError DbFailure.toContribution
  let s := setLocation s row
  let point ← orFail (GeoPoint.new row.lat row.lon) (.invalidField "coordinates out of range")
  let tz ← orFail (env.parseTz row.timezone)
    (.invalidField ("unknown timezone: " ++ row.timezone))
  let s ← writeHours env s id edit.hours
  let s := writeSecurity s id edit.security
  (insertRevision s id row.version editor .edit "edited"
    (editSnapshot env row edit point tz)).mapError DbFailure.toContribution

structure NewProposal where
  locationId : LocationId
  proposerId : UserId
  baseVersion : ℕ
  kind : ProposalKind
  proposed : Json

/-- `create_proposal`. -/
def createProposal (env : Env) (s : Store) (id : ProposalId) (p : NewProposal) :
    Except ContributionError Store := do
  let loc ← orFail (s.locations.find p.locationId) .notFound
  ensure (loc.moderationState = .active) .locationNotActive
  ensure (loc.version = p.baseVersion) .versionConflict
  ensure (ProposedChange.fromJson env p.kind p.proposed ≠ .unknown)
    (.invalidField "invalid proposal")
  let author ← orFail ((s.users.find p.proposerId).filter eligibleVoter) .notVerified
  ensure (p.proposed.storable = true) .internal
  let proposals ← orFail (s.proposals.insert {
    id := id
    locationId := p.locationId
    proposerId := some p.proposerId
    baseVersion := p.baseVersion
    kind := p.kind
    proposed := p.proposed
    status := .pending
    publicAuthor := author.publicContributionName
    resolvedBy := none
    decisionReason := none
    decisionApprovals := none
    decisionRejections := none
    escalatedAt := none }) .conflict
  pure { s with proposals := proposals }

structure ProposalVoteTotals where
  approvals : ℕ
  rejections : ℕ
  published : Bool
  deriving DecidableEq

/-- The vote row: one per voter and proposal, overwritten by a later vote. -/
def upsertVote (s : Store) (id : ProposalId) (voter : UserId) (vote : ProposalVote) : Store :=
  let votes := s.votes.upsert ⟨id, voter, vote⟩ (fun v => { v with vote := vote }) fun _ => rfl
  { s with votes := votes }

def escalate (s : Store) (id : ProposalId) (now : Instant) : Store :=
  let proposals := s.proposals.update (fun p => decide (p.id = id ∧ p.escalatedAt = none))
    (fun p => { p with escalatedAt := some now }) fun _ => rfl
  { s with proposals := proposals }

def publishError : ModerationError → ContributionError
  | .staleProposal => .versionConflict
  | .invalidState => .conflict
  | _ => .internal

/-- The proposal and location a vote locks, after every check made under the locks. -/
def lockForVote (s : Store) (id : ProposalId) (voter : UserId) :
    Except ContributionError ProposalRow := do
  let prop ← orFail (s.proposals.find id) .notFound
  let loc ← orFail (s.locations.find prop.locationId) .notFound
  ensure (loc.moderationState = .active) .locationNotActive
  ensure (prop.baseVersion = loc.version) .versionConflict
  ensure (prop.status = .pending) .conflict
  ensure (prop.proposerId ≠ some voter) .unauthorized
  pure prop

/-- The end of `vote_on_proposal`: publish when six eligible approvals stand, or hand the
proposal to a moderator when its stored payload does not merge. -/
def settleVote (env : Env) (s : Store) (prop : ProposalRow) (voter : UserId) (approvals : ℕ)
    (now : Instant) : Except ContributionError (Bool × Store) :=
  if shouldPublish approvals = true ∧ prop.escalatedAt = none then
    match merge env prop.kind (ProposedChange.fromJson env prop.kind prop.proposed) {} with
    | .ok applied => do
      let s ← (approveInTransaction env s prop.id voter applied).mapError publishError
      pure (true, s)
    | .error _ => pure (false, escalate s prop.id now)
  else pure (false, s)

/-- `vote_on_proposal`. -/
def voteOnProposal (env : Env) (s : Store) (id : ProposalId) (voter : UserId)
    (vote : ProposalVote) (now : Instant) :
    Except ContributionError (ProposalVoteTotals × Store) := do
  let prop ← lockForVote s id voter
  let _ ← orFail ((s.users.find voter).filter eligibleVoter) .notVerified
  let s := upsertVote s id voter vote
  let approvals := countVotes s id .approve
  let rejections := countVotes s id .reject
  let (published, s) ← settleVote env s prop voter approvals now
  pure (⟨approvals, rejections, published⟩, s)

/-- What `create` did. -/
structure Created (env : Env) (s s' : Store) (id : LocationId) (new : NewParkingLocation)
    (creator : UserId) (tz : Tz) (parts : Store) : Prop where
  zoned : new.timezone = some tz
  admissible : checkLocation (newRow id new tz creator) = .ok ()
  creatorExists : (s.users.find creator).isSome
  inserted : s.locations.insert (newRow id new tz creator) = some s'.locations
  written : writeHours env { s with locations := s'.locations } id new.hours = .ok parts
  storable : (newSnapshot env new tz).storable = true
  recorded : s.revisions.insert ⟨id, 1, some creator, .create, "added",
    newSnapshot env new tz⟩ = some s'.revisions
  outcome : s' = { writeSecurity parts id new.security with revisions := s'.revisions }

theorem create_ok {env : Env} {s s' : Store} {id : LocationId} {new : NewParkingLocation}
    {creator : UserId} (h : create env s id new creator = .ok s') :
    ∃ tz parts, Created env s s' id new creator tz parts := by
  simp only [create, bind_ok, orFail_ok, mapError_ok, requireUser_ok] at h
  obtain ⟨tz, zoned, ⟨⟩, admissible, -, creatorExists, locations, inserted, parts, written,
    hrev⟩ := h
  obtain ⟨storable, -, revisions, hins, rfl⟩ := insertRevision_ok.mp hrev
  obtain ⟨-, -, filled, -, rfl⟩ := writeHours_ok.mp written
  exact ⟨tz, _, zoned, admissible, creatorExists, inserted, written, storable, hins, rfl⟩

theorem Created.frame {env : Env} {s s' : Store} {id : LocationId} {new : NewParkingLocation}
    {creator : UserId} {tz : Tz} {parts : Store}
    (h : Created env s s' id new creator tz parts) :
    s'.proposals = s.proposals ∧ s'.votes = s.votes ∧ s'.users = s.users := by
  obtain ⟨-, -, filled, -, hparts⟩ := writeHours_ok.mp h.written
  rw [h.outcome, ← hparts]
  exact ⟨rfl, rfl, rfl⟩

theorem Created.parts_eq {env : Env} {s s' : Store} {id : LocationId}
    {new : NewParkingLocation} {creator : UserId} {tz : Tz} {parts : Store}
    (h : Created env s s' id new creator tz parts) :
    s'.hours = parts.hours ∧ s'.security = (writeSecurity parts id new.security).security ∧
      parts.security = s.security := by
  obtain ⟨-, -, filled, -, hparts⟩ := writeHours_ok.mp h.written
  have outcome := h.outcome
  exact ⟨by rw [outcome]; simp only [writeSecurity_hours], by rw [outcome], by rw [← hparts]⟩

/-- What the direct edit did. -/
structure Edited (env : Env) (s s' : Store) (id : LocationId) (expectedVersion : ℕ)
    (edit : ParkingEdit) (editor : UserId) (loc row : LocationRow) (point : GeoPoint) (tz : Tz)
    (parts : Store) : Prop where
  found : s.locations.find id = some loc
  active : loc.moderationState = .active
  current : loc.version = expectedVersion
  changed : changedRow loc (.editDetails edit) = some row
  admissible : checkLocation row = .ok ()
  pointed : GeoPoint.new row.lat row.lon = some point
  zoned : env.parseTz row.timezone = some tz
  written : writeHours env (setLocation s row) id edit.hours = .ok parts
  storable : (editSnapshot env row edit point tz).storable = true
  editorExists : (s.users.find editor).isSome
  recorded : s.revisions.insert ⟨id, row.version, some editor, .edit, "edited",
    editSnapshot env row edit point tz⟩ = some s'.revisions
  outcome : s' = { writeSecurity parts id edit.security with revisions := s'.revisions }

theorem applyEdit_ok {env : Env} {s s' : Store} {id : LocationId} {expectedVersion : ℕ}
    {edit : ParkingEdit} {editor : UserId}
    (h : applyEdit env s id expectedVersion edit editor = .ok s') :
    ∃ loc row point tz parts,
      Edited env s s' id expectedVersion edit editor loc row point tz parts := by
  simp only [applyEdit, bind_ok, orFail_ok, ensure_ok, mapError_ok] at h
  obtain ⟨loc, found, -, active, -, current, row, changed, ⟨⟩, admissible, point, pointed, tz,
    zoned, parts, written, hrev⟩ := h
  obtain ⟨storable, hed, revisions, hins, rfl⟩ := insertRevision_ok.mp hrev
  obtain ⟨-, -, filled, -, rfl⟩ := writeHours_ok.mp written
  exact ⟨loc, row, point, tz, _, found, active, current, changed, admissible, pointed, zoned,
    written, storable, hed, hins, rfl⟩

theorem Edited.frame {env : Env} {s s' : Store} {id : LocationId} {expectedVersion : ℕ}
    {edit : ParkingEdit} {editor : UserId} {loc row : LocationRow} {point : GeoPoint} {tz : Tz}
    {parts : Store} (h : Edited env s s' id expectedVersion edit editor loc row point tz parts) :
    s'.locations = (setLocation s row).locations ∧ s'.proposals = s.proposals ∧
      s'.votes = s.votes ∧ s'.users = s.users := by
  obtain ⟨-, -, filled, -, hparts⟩ := writeHours_ok.mp h.written
  rw [h.outcome, ← hparts]
  exact ⟨rfl, rfl, rfl, rfl⟩

theorem Edited.parts_eq {env : Env} {s s' : Store} {id : LocationId} {expectedVersion : ℕ}
    {edit : ParkingEdit} {editor : UserId} {loc row : LocationRow} {point : GeoPoint} {tz : Tz}
    {parts : Store} (h : Edited env s s' id expectedVersion edit editor loc row point tz parts) :
    s'.hours = parts.hours ∧ s'.security = (writeSecurity parts id edit.security).security ∧
      parts.security = s.security := by
  obtain ⟨-, -, filled, -, hparts⟩ := writeHours_ok.mp h.written
  have outcome := h.outcome
  exact ⟨by rw [outcome]; simp only [writeSecurity_hours], by rw [outcome],
    by rw [← hparts]; rfl⟩

/-- The row a submitted proposal starts from. -/
def newProposalRow (id : ProposalId) (p : NewProposal) (publicAuthor : Bool) : ProposalRow where
  id := id
  locationId := p.locationId
  proposerId := some p.proposerId
  baseVersion := p.baseVersion
  kind := p.kind
  proposed := p.proposed
  status := .pending
  publicAuthor := publicAuthor
  resolvedBy := none
  decisionReason := none
  decisionApprovals := none
  decisionRejections := none
  escalatedAt := none

/-- What `create_proposal` did. -/
structure Submitted (env : Env) (s s' : Store) (id : ProposalId) (p : NewProposal)
    (loc : LocationRow) (author : UserRow) : Prop where
  located : s.locations.find p.locationId = some loc
  active : loc.moderationState = .active
  current : loc.version = p.baseVersion
  readable : ProposedChange.fromJson env p.kind p.proposed ≠ .unknown
  authored : s.users.find p.proposerId = some author
  eligible : eligibleVoter author = true
  storable : p.proposed.storable = true
  inserted : s.proposals.insert (newProposalRow id p author.publicContributionName) =
    some s'.proposals
  outcome : s' = { s with proposals := s'.proposals }

theorem createProposal_ok {env : Env} {s s' : Store} {id : ProposalId} {p : NewProposal} :
    createProposal env s id p = .ok s' ↔ ∃ loc author, Submitted env s s' id p loc author := by
  simp only [createProposal, bind_ok, orFail_ok, ensure_ok, pure_ok, Option.filter_eq_some_iff]
  constructor
  · rintro ⟨loc, located, -, active, -, current, -, readable, author, ⟨authored, eligible⟩, -,
      storable, proposals, inserted, rfl⟩
    exact ⟨loc, author, located, active, current, readable, authored, eligible, storable,
      inserted, rfl⟩
  · rintro ⟨loc, author, h⟩
    exact ⟨loc, h.located, (), h.active, (), h.current, (), h.readable, author,
      ⟨h.authored, h.eligible⟩, (), h.storable, s'.proposals, h.inserted, h.outcome.symm⟩

/-- The checks a vote passes under its locks. -/
structure Votable (s : Store) (id : ProposalId) (voter : UserId) (prop : ProposalRow)
    (loc : LocationRow) : Prop where
  found : s.proposals.find id = some prop
  located : s.locations.find prop.locationId = some loc
  active : loc.moderationState = .active
  current : prop.baseVersion = loc.version
  pending : prop.status = .pending
  byOther : prop.proposerId ≠ some voter

theorem lockForVote_ok {s : Store} {id : ProposalId} {voter : UserId} {prop : ProposalRow} :
    lockForVote s id voter = .ok prop ↔ ∃ loc, Votable s id voter prop loc := by
  simp only [lockForVote, bind_ok, orFail_ok, ensure_ok, pure_ok]
  constructor
  · rintro ⟨p, found, loc, located, -, active, -, current, -, pending, -, byOther, rfl⟩
    exact ⟨loc, found, located, active, current, pending, byOther⟩
  · rintro ⟨loc, h⟩
    exact ⟨prop, h.found, loc, h.located, (), h.active, (), h.current, (), h.pending, (),
      h.byOther, rfl⟩

/-- The three ways a vote ends: published, escalated, or only counted. -/
theorem settleVote_cases {env : Env} {s s' : Store} {prop : ProposalRow} {voter : UserId}
    {approvals : ℕ} {now : Instant} {published : Bool}
    (h : settleVote env s prop voter approvals now = .ok (published, s')) :
    (published = true ∧ (shouldPublish approvals = true ∧ prop.escalatedAt = none) ∧
      ∃ applied,
        merge env prop.kind (ProposedChange.fromJson env prop.kind prop.proposed) {} =
          .ok applied ∧
        approveInTransaction env s prop.id voter applied = .ok s') ∨
    (published = false ∧ (shouldPublish approvals = true ∧ prop.escalatedAt = none) ∧
      (∃ e, merge env prop.kind (ProposedChange.fromJson env prop.kind prop.proposed) {} =
        .error e) ∧
      s' = escalate s prop.id now) ∨
    (published = false ∧ ¬ (shouldPublish approvals = true ∧ prop.escalatedAt = none) ∧
      s' = s) := by
  unfold settleVote at h
  split at h
  · rename_i hpub
    split at h
    · rename_i applied hm
      simp only [bind_ok, mapError_ok, pure_ok, Prod.mk.injEq] at h
      obtain ⟨t, ht, rfl, rfl⟩ := h
      exact .inl ⟨rfl, hpub, applied, hm, ht⟩
    · rename_i e hm
      simp only [pure_ok, Prod.mk.injEq] at h
      obtain ⟨rfl, rfl⟩ := h
      exact .inr (.inl ⟨rfl, hpub, ⟨e, hm⟩, rfl⟩)
  · rename_i hpub
    simp only [pure_ok, Prod.mk.injEq] at h
    obtain ⟨rfl, rfl⟩ := h
    exact .inr (.inr ⟨rfl, hpub, rfl⟩)

/-- A vote fails to settle only when its publication is refused. -/
theorem settleVote_succeeds {env : Env} {s : Store} {prop : ProposalRow} {voter : UserId}
    (approvals : ℕ) (now : Instant)
    (h : ∀ applied,
      merge env prop.kind (ProposedChange.fromJson env prop.kind prop.proposed) {} =
        .ok applied →
      ∃ t, approveInTransaction env s prop.id voter applied = .ok t) :
    ∃ published t, settleVote env s prop voter approvals now = .ok (published, t) := by
  unfold settleVote
  split
  · split
    · rename_i applied hm
      obtain ⟨t, ht⟩ := h applied hm
      exact ⟨true, t, by simp [ht]⟩
    · exact ⟨false, _, rfl⟩
  · exact ⟨false, s, rfl⟩

theorem voteOnProposal_ok {env : Env} {s s' : Store} {id : ProposalId} {voter : UserId}
    {vote : ProposalVote} {now : Instant} {totals : ProposalVoteTotals} :
    voteOnProposal env s id voter vote now = .ok (totals, s') ↔
      ∃ prop loc u, Votable s id voter prop loc ∧ s.users.find voter = some u ∧
        eligibleVoter u = true ∧
        totals.approvals = countVotes (upsertVote s id voter vote) id .approve ∧
        totals.rejections = countVotes (upsertVote s id voter vote) id .reject ∧
        settleVote env (upsertVote s id voter vote) prop voter totals.approvals now =
          .ok (totals.published, s') := by
  simp only [voteOnProposal, bind_ok, orFail_ok, pure_ok, Option.filter_eq_some_iff,
    lockForVote_ok, Prod.mk.injEq]
  constructor
  · rintro ⟨prop, ⟨loc, hv⟩, u, ⟨hu, he⟩, ⟨published, t⟩, hs, rfl, rfl⟩
    exact ⟨prop, loc, u, hv, hu, he, rfl, rfl, hs⟩
  · rintro ⟨prop, loc, u, hv, hu, he, ha, hr, hs⟩
    refine ⟨prop, ⟨loc, hv⟩, u, ⟨hu, he⟩, (totals.published, s'), ?_, ?_, rfl⟩
    · rw [← ha]
      exact hs
    · rw [← ha, ← hr]

end Contribution
