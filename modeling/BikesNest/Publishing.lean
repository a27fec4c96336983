import BikesNest.Schema

/-! The moderation repository: state changes of a location, decisions on proposals and the
publisher that a moderator's approval shares with the sixth community vote. Each function
is one transaction; an error leaves no trace because the caller drops the new store. -/

namespace Publishing

open Parking Proposal Schema Outcome

/-- `supersede_pending_proposals`: retire the location's pending proposals but `spared`. -/
def supersedePendingProposals (s : Store) (id : LocationId) (spared : Option ProposalId) :
    Store :=
  let proposals := s.proposals.update
    (fun p => decide (p.locationId = id ∧ p.status = .pending ∧ spared ≠ some p.id))
    (fun p => { p with status := .superseded }) ProposalRow.superseded_key
  { s with proposals := proposals }

/-- Record a decision and, with `DECISION_TALLY_SET`, the eligible votes at that moment. -/
def decideProposal (s : Store) (id : ProposalId) (status : ProposalStatus) (resolver : UserId)
    (reason : Option String → Option String) : Store :=
  let proposals := s.proposals.update (fun p => decide (p.id = id))
    (fun p => { p with
      status := status
      resolvedBy := some resolver
      decisionReason := reason p.decisionReason
      decisionApprovals := some (countVotes s id .approve)
      decisionRejections := some (countVotes s id .reject) }) fun _ => rfl
  { s with proposals := proposals }

/-- Overwrite the location row with the key of `row`. -/
def setLocation (s : Store) (row : LocationRow) : Store :=
  let locations := s.locations.update (fun r => decide (r.id = row.id))
    (fun r => if r.id = row.id then row else r) fun r => by split <;> simp_all
  { s with locations := locations }

def moderatedRow (old : LocationRow) (target : ModerationState) : LocationRow :=
  { old with moderationState := target, version := old.version + 1 }

/-- `set_parking_state`. -/
def setParkingState (env : Env) (s : Store) (id : LocationId) (sources : List ModerationState)
    (target : ModerationState) (moderator : UserId) : Except ModerationError Store := do
  let old ← orFail (s.locations.find id) .invalidState
  ensure (old.moderationState ∈ sources) .invalidState
  let row := moderatedRow old target
  let s := setLocation s row
  let s ← (insertRevision s row.id row.version moderator .moderation "moderated"
    (snapshotWith env s row)).mapError DbFailure.toModeration
  pure (supersedePendingProposals s row.id none)

/-- The row an application turns a location into. Only the edit branch tests `ACTIVE`. -/
def changedRow (loc : LocationRow) : ProposalApplication → Option LocationRow
  | .editDetails edit =>
    if loc.moderationState = .active then
      let (kind, cents, currency, unit) := costParts edit.cost
      some { loc with
        name := trim edit.name
        address := trim edit.address
        description := edit.description
        parkingType := edit.parkingType
        costKind := kind
        priceCents := cents
        priceCurrency := currency
        priceUnit := unit
        hoursUnknown := edit.hours.isUnknown
        version := loc.version + 1 }
    else none
  | .moveLocation lat lon timezone =>
    some { loc with lat := lat, lon := lon, timezone := timezone.name,
                    version := loc.version + 1 }
  | .changeExistence present =>
    some { loc with moderationState := if present then .active else .removed,
                    version := loc.version + 1 }

/-- The hours and security rows are rewritten by an edit alone. -/
def writeParts (env : Env) (s : Store) (id : LocationId) :
    ProposalApplication → Except ModerationError Store
  | .editDetails edit => do
    let s ← (writeHours env s id edit.hours).mapError fun _ => .internal
    pure (writeSecurity s id edit.security)
  | .moveLocation _ _ _ | .changeExistence _ => pure s

/-- The write part of `approve_in_transaction`: the version-guarded update of the location
and, for an edit, its hours and security rows. The edit branch writes those rows before it
looks at whether the update matched. -/
def applyChange (env : Env) (s : Store) (loc : LocationRow) (applied : ProposalApplication) :
    Except ModerationError (LocationRow × Store) := do
  let updated := changedRow loc applied
  let s ← match updated with
    | some row => do
      (checkLocation row).mapError DbFailure.toModeration
      pure (setLocation s row)
    | none => pure s
  let s ← writeParts env s loc.id applied
  let row ← orFail updated .staleProposal
  pure (row, s)

def appliedSummary : ProposalApplication → String
  | .editDetails _ => "proposal applied (details)"
  | .moveLocation _ _ _ => "proposal applied (move)"
  | .changeExistence _ => "proposal applied (existence)"

/-- `approve_in_transaction`. -/
def approveInTransaction (env : Env) (s : Store) (id : ProposalId) (moderator : UserId)
    (applied : ProposalApplication) : Except ModerationError Store := do
  let prop ← orFail (s.proposals.find id) .notFound
  let loc ← orFail (s.locations.find prop.locationId) .notFound
  ensure (prop.status = .pending) .invalidState
  ensure (prop.baseVersion = loc.version) .staleProposal
  ensure (prop.kind = applied.kind ∧ prop.proposerId ≠ some moderator) .invalidState
  let (row, s) ← applyChange env s loc applied
  let s ← (insertRevision s loc.id row.version moderator .moderation (appliedSummary applied)
    (snapshotWith env s row)).mapError DbFailure.toModeration
  let s := decideProposal s id .approved moderator (fun r => r)
  pure (supersedePendingProposals s loc.id (some id))

/-- `reject_proposal`: one statement, without the location's lock. -/
def rejectProposal (s : Store) (id : ProposalId) (moderator : UserId) (reason : String) :
    Except ModerationError Store := do
  ensure (textOk reason = true) .internal
  let prop ← orFail (s.proposals.find id) .invalidState
  ensure (prop.status = .pending) .invalidState
  (requireUser s moderator "parking_proposal_resolved_by_fkey").mapError DbFailure.toModeration
  pure (decideProposal s id .rejected moderator fun _ => nonEmpty (trim reason))

@[simp] theorem find_setLocation (s : Store) (row : LocationRow) (k : LocationId) :
    (setLocation s row).locations.find k =
      if k = row.id then (s.locations.find k).map fun _ => row else s.locations.find k := by
  simp only [setLocation, Table.find_update, decide_eq_true_eq]
  cases h : s.locations.find k with
  | none => simp
  | some r =>
    obtain rfl := (Table.find_eq_some.mp h).2
    by_cases hk : r.id = row.id <;> simp [hk]

@[simp] theorem find_supersede (s : Store) (id : LocationId) (spared : Option ProposalId)
    (k : ProposalId) :
    (supersedePendingProposals s id spared).proposals.find k =
      (s.proposals.find k).map fun p =>
        if p.locationId = id ∧ p.status = .pending ∧ spared ≠ some p.id then
          { p with status := .superseded } else p := by
  simp [supersedePendingProposals]

@[simp] theorem find_decide (s : Store) (id : ProposalId) (status : ProposalStatus)
    (resolver : UserId) (reason : Option String → Option String) (k : ProposalId) :
    (decideProposal s id status resolver reason).proposals.find k =
      (s.proposals.find k).map fun p => if k = id then { p with
        status := status
        resolvedBy := some resolver
        decisionReason := reason p.decisionReason
        decisionApprovals := some (countVotes s id .approve)
        decisionRejections := some (countVotes s id .reject) } else p := by
  simp only [decideProposal, Table.find_update, decide_eq_true_eq]
  cases hk : s.proposals.find k with
  | none => rfl
  | some p =>
    obtain rfl := (Table.find_eq_some.mp hk).2
    rfl

theorem changedRow_id {loc row : LocationRow} {applied : ProposalApplication}
    (h : changedRow loc applied = some row) : row.id = loc.id := by
  cases applied with
  | editDetails edit =>
    simp only [changedRow, Option.ite_none_right_eq_some, Option.some.injEq] at h
    rw [← h.2]
  | moveLocation lat lon timezone => simp only [changedRow, Option.some.injEq] at h; rw [← h]
  | changeExistence present => simp only [changedRow, Option.some.injEq] at h; rw [← h]

theorem changedRow_version {loc row : LocationRow} {applied : ProposalApplication}
    (h : changedRow loc applied = some row) : row.version = loc.version + 1 := by
  cases applied with
  | editDetails edit =>
    simp only [changedRow, Option.ite_none_right_eq_some, Option.some.injEq] at h
    rw [← h.2]
  | moveLocation lat lon timezone => simp only [changedRow, Option.some.injEq] at h; rw [← h]
  | changeExistence present => simp only [changedRow, Option.some.injEq] at h; rw [← h]

/-- An edit finds the location active and leaves it so. -/
theorem changedRow_edit_active {loc row : LocationRow} {edit : ParkingEdit}
    (h : changedRow loc (.editDetails edit) = some row) :
    loc.moderationState = .active ∧ row.moderationState = .active := by
  simp only [changedRow, Option.ite_none_right_eq_some, Option.some.injEq] at h
  rw [← h.2]
  exact ⟨h.1, h.1⟩

/-- What a successful `write_parts` leaves alone. -/
structure PartsOnly (s t : Store) : Prop where
  locations : t.locations = s.locations
  revisions : t.revisions = s.revisions
  proposals : t.proposals = s.proposals
  votes : t.votes = s.votes
  users : t.users = s.users
  roles : t.roles = s.roles
  reviews : t.reviews = s.reviews
  verifications : t.verifications = s.verifications

/-- The hours and security rows are written by an edit, and by nothing else. -/
theorem writeParts_cases {env : Env} {s t : Store} {id : LocationId}
    {applied : ProposalApplication} (h : writeParts env s id applied = .ok t) :
    (applied.kind ≠ .editDetails ∧ t = s) ∨
    ∃ edit filled, applied = .editDetails edit ∧ writeHours env s id edit.hours = .ok filled ∧
      t = writeSecurity filled id edit.security := by
  cases applied with
  | editDetails edit =>
    simp only [writeParts, bind_ok, mapError_ok, pure_ok] at h
    obtain ⟨filled, hf, rfl⟩ := h
    exact .inr ⟨edit, filled, rfl, hf, rfl⟩
  | moveLocation lat lon timezone =>
    simp only [writeParts, pure_ok] at h
    exact .inl ⟨by simp [ProposalApplication.kind], h.symm⟩
  | changeExistence present =>
    simp only [writeParts, pure_ok] at h
    exact .inl ⟨by simp [ProposalApplication.kind], h.symm⟩

/-- The security rows after `write_parts`: only an edit writes them. -/
theorem find_security_writeParts {env : Env} {s t : Store} {id : LocationId}
    {applied : ProposalApplication} (h : writeParts env s id applied = .ok t)
    {l : LocationId} (hl : l ≠ id) (code : String) :
    t.security.find (l, code) = s.security.find (l, code) := by
  rcases writeParts_cases h with ⟨-, rfl⟩ | ⟨edit, filled, -, hf, rfl⟩
  · rfl
  · obtain ⟨-, -, rows, -, hfilled⟩ := writeHours_ok.mp hf
    have same : filled.security = s.security := by rw [← hfilled]
    rw [find_writeSecurity, if_neg (fun hc => hl hc.1), same]

theorem hoursOf_writeParts {env : Env} {s t : Store} {id : LocationId}
    {applied : ProposalApplication} (h : writeParts env s id applied = .ok t)
    {l : LocationId} (hl : l ≠ id) : hoursOf t l = hoursOf s l := by
  rcases writeParts_cases h with ⟨-, rfl⟩ | ⟨edit, filled, -, hf, rfl⟩
  · rfl
  · rw [hoursOf_writeSecurity, hoursOf_writeHours hf, if_neg hl]

theorem writeParts_frame {env : Env} {s t : Store} {id : LocationId}
    {applied : ProposalApplication} (h : writeParts env s id applied = .ok t) :
    PartsOnly s t := by
  rcases writeParts_cases h with ⟨-, rfl⟩ | ⟨edit, filled, -, hf, rfl⟩
  · constructor <;> rfl
  · obtain ⟨-, -, rows, -, rfl⟩ := writeHours_ok.mp hf
    constructor <;> rfl

theorem applyChange_ok {env : Env} {s t : Store} {loc row : LocationRow}
    {applied : ProposalApplication} :
    applyChange env s loc applied = .ok (row, t) ↔
      changedRow loc applied = some row ∧ checkLocation row = .ok () ∧
      writeParts env (setLocation s row) loc.id applied = .ok t := by
  cases hc : changedRow loc applied with
  | none => simp [applyChange, hc]
  | some r =>
    simp only [applyChange, hc, bind_ok, orFail_ok, mapError_ok, pure_ok, Option.some.injEq,
      Prod.mk.injEq]
    constructor
    · rintro ⟨⟨⟩, hcheck, _, rfl, t', hparts, r', rfl, rfl, rfl⟩
      exact ⟨rfl, hcheck, hparts⟩
    · rintro ⟨rfl, hcheck, hparts⟩
      exact ⟨(), hcheck, _, rfl, t, hparts, r, rfl, rfl, rfl⟩

/-- What an approval did: the checks it passed, the row it wrote, and the new value of every
table. `parts` is the store between the location's update and the revision. -/
structure Published (env : Env) (s s' : Store) (id : ProposalId) (moderator : UserId)
    (applied : ProposalApplication) (prop : ProposalRow) (loc row : LocationRow)
    (parts : Store) : Prop where
  found : s.proposals.find id = some prop
  located : s.locations.find prop.locationId = some loc
  pending : prop.status = .pending
  current : prop.baseVersion = loc.version
  kind : prop.kind = applied.kind
  byOther : prop.proposerId ≠ some moderator
  changed : changedRow loc applied = some row
  admissible : checkLocation row = .ok ()
  written : writeParts env (setLocation s row) loc.id applied = .ok parts
  storable : (snapshotWith env parts row).storable = true
  moderatorExists : (s.users.find moderator).isSome
  recorded : s.revisions.insert ⟨loc.id, row.version, some moderator, .moderation,
    appliedSummary applied, snapshotWith env parts row⟩ = some s'.revisions
  outcome : s' = supersedePendingProposals
    (decideProposal { parts with revisions := s'.revisions } id .approved moderator fun r => r)
    loc.id (some id)

theorem approve_ok {env : Env} {s s' : Store} {id : ProposalId} {moderator : UserId}
    {applied : ProposalApplication} :
    approveInTransaction env s id moderator applied = .ok s' ↔
      ∃ prop loc row parts, Published env s s' id moderator applied prop loc row parts := by
  simp only [approveInTransaction, bind_ok, orFail_ok, ensure_ok, mapError_ok, pure_ok]
  constructor
  · rintro ⟨prop, found, loc, located, -, pending, -, current, -, ⟨kind, byOther⟩, ⟨row, parts⟩,
      happly, t, hrev, rfl⟩
    obtain ⟨changed, admissible, written⟩ := applyChange_ok.mp happly
    obtain ⟨storable, hmod, revisions, hins, rfl⟩ := insertRevision_ok.mp hrev
    have frame := writeParts_frame written
    rw [frame.users] at hmod
    rw [frame.revisions] at hins
    exact ⟨prop, loc, row, parts, found, located, pending, current, kind, byOther, changed,
      admissible, written, storable, hmod, hins, rfl⟩
  · rintro ⟨prop, loc, row, parts, h⟩
    have frame := writeParts_frame h.written
    refine ⟨prop, h.found, loc, h.located, (), h.pending, (), h.current, (),
      ⟨h.kind, h.byOther⟩, (row, parts),
      applyChange_ok.mpr ⟨h.changed, h.admissible, h.written⟩,
      { parts with revisions := s'.revisions }, ?_, h.outcome.symm⟩
    refine insertRevision_ok.mpr ⟨h.storable, ?_, s'.revisions, ?_, rfl⟩
    · rw [frame.users]
      exact h.moderatorExists
    · rw [frame.revisions]
      exact h.recorded

section Published

variable {env : Env} {s s' : Store} {id : ProposalId} {moderator : UserId}
  {applied : ProposalApplication} {prop : ProposalRow} {loc row : LocationRow} {parts : Store}

theorem Published.locations (h : Published env s s' id moderator applied prop loc row parts) :
    s'.locations = (setLocation s row).locations := by
  rw [h.outcome]
  exact (writeParts_frame h.written).locations

theorem Published.users (h : Published env s s' id moderator applied prop loc row parts) :
    s'.users = s.users := by
  rw [h.outcome]
  exact (writeParts_frame h.written).users

theorem Published.votes (h : Published env s s' id moderator applied prop loc row parts) :
    s'.votes = s.votes := by
  rw [h.outcome]
  exact (writeParts_frame h.written).votes

theorem Published.hours (h : Published env s s' id moderator applied prop loc row parts) :
    s'.hours = parts.hours := by
  rw [h.outcome]
  rfl

theorem Published.security (h : Published env s s' id moderator applied prop loc row parts) :
    s'.security = parts.security := by
  rw [h.outcome]
  rfl

theorem Published.snapshot (h : Published env s s' id moderator applied prop loc row parts) :
    snapshotWith env parts row = snapshotWith env s' row :=
  snapshotWith_congr row h.hours.symm h.security.symm

theorem Published.location_id
    (h : Published env s s' id moderator applied prop loc row parts) :
    loc.id = prop.locationId :=
  (Table.find_eq_some.mp h.located).2

theorem Published.find_proposal
    (h : Published env s s' id moderator applied prop loc row parts) (k : ProposalId) :
    s'.proposals.find k = (s.proposals.find k).map fun p =>
      if k = id then { p with
        status := .approved
        resolvedBy := some moderator
        decisionApprovals := some (countVotes s id .approve)
        decisionRejections := some (countVotes s id .reject) }
      else if p.locationId = prop.locationId ∧ p.status = .pending then
        { p with status := .superseded }
      else p := by
  have frame := writeParts_frame h.written
  have count : ∀ v, countVotes { parts with revisions := s'.revisions } id v =
      countVotes s id v := fun v => countVotes_congr id v frame.votes frame.users
  rw [h.outcome, find_supersede, find_decide, count, count, h.location_id]
  change Option.map _ (Option.map _ (parts.proposals.find k)) = _
  rw [frame.proposals, Option.map_map]
  change Option.map _ (s.proposals.find k) = _
  cases hk : s.proposals.find k with
  | none => rfl
  | some p =>
    obtain rfl := (Table.find_eq_some.mp hk).2
    by_cases he : p.id = id
    · simp [he]
    · have hne : id ≠ p.id := fun hi => he hi.symm
      simp [he, hne]

end Published

/-- What a change of moderation state did. -/
structure Moderated (env : Env) (s s' : Store) (id : LocationId)
    (sources : List ModerationState) (target : ModerationState) (moderator : UserId)
    (old : LocationRow) : Prop where
  found : s.locations.find id = some old
  allowed : old.moderationState ∈ sources
  storable : (snapshotWith env s (moderatedRow old target)).storable = true
  moderatorExists : (s.users.find moderator).isSome
  recorded : s.revisions.insert ⟨id, old.version + 1, some moderator, .moderation, "moderated",
    snapshotWith env s (moderatedRow old target)⟩ = some s'.revisions
  outcome : s' = supersedePendingProposals
    { setLocation s (moderatedRow old target) with revisions := s'.revisions } id none

theorem setParkingState_ok {env : Env} {s s' : Store} {id : LocationId}
    {sources : List ModerationState} {target : ModerationState} {moderator : UserId} :
    setParkingState env s id sources target moderator = .ok s' ↔
      ∃ old, Moderated env s s' id sources target moderator old := by
  simp only [setParkingState, bind_ok, orFail_ok, ensure_ok, mapError_ok, pure_ok]
  constructor
  · rintro ⟨old, found, -, allowed, t, hrev, rfl⟩
    obtain rfl : old.id = id := (Table.find_eq_some.mp found).2
    obtain ⟨storable, hmod, revisions, hins, rfl⟩ := insertRevision_ok.mp hrev
    exact ⟨old, found, allowed, storable, hmod, hins, rfl⟩
  · rintro ⟨old, h⟩
    obtain rfl : old.id = id := (Table.find_eq_some.mp h.found).2
    refine ⟨old, h.found, (), h.allowed, _, ?_, h.outcome.symm⟩
    exact insertRevision_ok.mpr ⟨h.storable, h.moderatorExists, s'.revisions, h.recorded, rfl⟩

theorem Moderated.locations {env : Env} {s s' : Store} {id : LocationId}
    {sources : List ModerationState} {target : ModerationState} {moderator : UserId}
    {old : LocationRow} (h : Moderated env s s' id sources target moderator old) :
    s'.locations = (setLocation s (moderatedRow old target)).locations := by
  rw [h.outcome]
  rfl

theorem rejectProposal_ok {s s' : Store} {id : ProposalId} {moderator : UserId}
    {reason : String} :
    rejectProposal s id moderator reason = .ok s' ↔
      textOk reason = true ∧ ∃ prop, s.proposals.find id = some prop ∧
        prop.status = .pending ∧ (s.users.find moderator).isSome ∧
        decideProposal s id .rejected moderator (fun _ => nonEmpty (trim reason)) = s' := by
  simp only [rejectProposal, bind_ok, orFail_ok, ensure_ok, mapError_ok, requireUser_ok, pure_ok,
    exists_and_left, exists_const]

end Publishing
