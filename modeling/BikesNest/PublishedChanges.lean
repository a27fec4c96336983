import BikesNest.Publishability
import BikesNest.ReadBack

/-! What a published proposal stores, as the listing is read back afterwards: an edit all its
fields, a move the place, a change of existence the moderation state, and none of them more. -/

namespace PublishedChanges

open Parking Proposal Schema Outcome Publishing Contribution Operations Details PayloadCodec OpenNow
  ReadBack Publishability

/-- A proposal is published by a moderator, with what the moderator filled in, or by the vote that
completes the approvals. -/
inductive Publication (env : Env) (s : Store) (prop : ProposalRow) (applied : ProposalApplication)
    (t : Store) : Prop where
  | approved (moderator : UserId) (adjusted : ProposalOverride)
      (found : s.proposals.find prop.id = some prop)
      (merged : merge env prop.kind (ProposedChange.fromJson env prop.kind prop.proposed) adjusted =
        .ok applied)
      (done : approveInTransaction env s prop.id moderator applied = .ok t)
  | voted (voter : UserId) (vote : ProposalVote) (now : Instant) (totals : ProposalVoteTotals)
      (found : s.proposals.find prop.id = some prop)
      (merged : merge env prop.kind (ProposedChange.fromJson env prop.kind prop.proposed) {} =
        .ok applied)
      (published : totals.published = true)
      (done : voteOnProposal env s prop.id voter vote now = .ok (totals, t))

/-- The fields that an edit is about. -/
structure SameDetails (before after : ParkingLocation) : Prop where
  name : after.name = before.name
  address : after.address = before.address
  description : after.description = before.description
  parkingType : after.parkingType = before.parkingType
  cost : after.cost = before.cost
  hours : after.hours = before.hours
  security : after.security = before.security

structure SamePlace (before after : ParkingLocation) : Prop where
  point : after.point = before.point
  timezone : after.timezone = before.timezone

/-- What no proposal is about. -/
structure SameRecord (before after : ParkingLocation) : Prop where
  id : after.id = before.id
  rating : after.rating = before.rating
  lastVerifiedAt : after.lastVerifiedAt = before.lastVerifiedAt

/-- The fields of an edit: trimmed, with the hours in order and an all-day row in its canonical
form, and with every feature of the catalogue. -/
structure EditedAs (edit : ParkingEdit) (after : ParkingLocation) : Prop where
  name : after.name = trim edit.name
  address : after.address = trim edit.address
  description : after.description = edit.description
  parkingType : after.parkingType = edit.parkingType
  cost : after.cost = edit.cost
  known : after.hours.isUnknown = edit.hours.isUnknown
  hours : after.hours.rows.Perm (edit.hours.rows.map fun r => (r.1, storedRange r.2))
  ordered : after.hours.rows.Pairwise Earlier
  security : after.security.Perm (catalogued edit.security)

/-- What a listing is after the publication of a proposal. -/
def Stored (before after : ParkingLocation) : ProposalApplication → Prop
  | .editDetails edit => EditedAs edit after ∧ SamePlace before after ∧
      after.moderationState = before.moderationState ∧ SameRecord before after
  | .moveLocation lat lon timezone => SameDetails before after ∧
      (after.point.lat = lat ∧ after.point.lon = lon ∧ after.timezone = timezone) ∧
      after.moderationState = before.moderationState ∧ SameRecord before after
  | .changeExistence present => SameDetails before after ∧ SamePlace before after ∧
      after.moderationState = (if present then .active else .removed) ∧ SameRecord before after

/-- The times of an edit are whole seconds before 24:00. -/
def Whole : ProposalApplication → Prop
  | .editDetails edit => ∀ r ∈ edit.hours.rows, WholeSeconds r.2
  | _ => True

section Published

variable {env : Env} {s t : Store} {prop : ProposalRow} {applied : ProposalApplication}

/-- Either way the publisher ran, on a store with the same listings. -/
theorem Publication.published (h : Publication env s prop applied t) :
    ∃ u publisher loc row parts, u.locations = s.locations ∧ u.hours = s.hours ∧
      u.security = s.security ∧ Published env u t prop.id publisher applied prop loc row parts := by
  cases h with
  | approved moderator adjusted found merged done =>
    obtain ⟨prop', loc, row, parts, hp⟩ := approve_ok.mp done
    obtain rfl : prop = prop' := Option.some.inj (found.symm.trans hp.found)
    exact ⟨s, moderator, loc, row, parts, rfl, rfl, rfl, hp⟩
  | voted voter vote now totals found merged published done =>
    obtain ⟨prop', _, _, votable, -, -, -, -, settled⟩ := voteOnProposal_ok.mp done
    obtain rfl : prop = prop' := Option.some.inj (found.symm.trans votable.found)
    rcases settleVote_cases settled with ⟨-, -, applied', merged', approved⟩ | ⟨no, -⟩ | ⟨no, -⟩
    · obtain rfl : applied = applied' := Except.ok.inj (merged.symm.trans merged')
      obtain ⟨prop', loc, row, parts, hp⟩ := approve_ok.mp approved
      obtain rfl : prop = prop' := Option.some.inj (found.symm.trans hp.found)
      exact ⟨upsertVote s prop.id voter vote, voter, loc, row, parts, rfl, rfl, rfl, hp⟩
    · rw [published] at no
      cases no
    · rw [published] at no
      cases no

theorem Publication.merged (h : Publication env s prop applied t) : ∃ adjusted,
    merge env prop.kind (ProposedChange.fromJson env prop.kind prop.proposed) adjusted =
      .ok applied := by
  cases h with
  | approved _ adjusted _ merged _ => exact ⟨adjusted, merged⟩
  | voted _ _ _ _ _ merged _ _ => exact ⟨{}, merged⟩

end Published

/-- A merged move is to a place there is, in a zone found by name. -/
theorem merge_moved {env : Env} {kind : ProposalKind} {change : ProposedChange}
    {adjusted : ProposalOverride} {lat lon : ℚ} {timezone : Tz}
    (h : merge env kind change adjusted = .ok (.moveLocation lat lon timezone)) :
    inRange lat lon ∧ ∃ name, env.parseTz name = some timezone := by
  have moved : ∃ x y z, moveLocation env x y z = .ok (.moveLocation lat lon timezone) := by
    have ofKind := merge_kind h
    subst ofKind
    cases change <;> exact ⟨_, _, _, h⟩
  obtain ⟨x, y, z, moved⟩ := moved
  obtain ⟨lat', lon', name, tz, -, -, range, -, found, same⟩ := moveLocation_ok.mp moved
  cases same
  exact ⟨range, name, found⟩

theorem merge_edited {env : Env} {kind : ProposalKind} {change : ProposedChange}
    {adjusted : ProposalOverride} {edit : ParkingEdit}
    (h : merge env kind change adjusted = .ok (.editDetails edit)) :
    kind = .editDetails ∧ change = .editDetails edit := by
  have ofKind := merge_kind h
  subst ofKind
  cases change with
  | editDetails e =>
    simp only [merge, ProposalApplication.kind, Except.ok.injEq,
      ProposalApplication.editDetails.injEq] at h
    exact ⟨rfl, congrArg _ h⟩
  | _ => simp [merge, ProposalApplication.kind] at h

section Stored

variable {env : Env} {s t u : Store} {prop : ProposalRow} {publisher : UserId} {loc row : LocationRow}
  {parts : Store} {applied : ProposalApplication} {before : ParkingLocation}

/-- The listing of a published proposal has the row that was written. -/
theorem find_published (h : Published env u t prop.id publisher applied prop loc row parts) :
    t.locations.find prop.locationId = some row := by
  have same := changedRow_id h.changed
  rw [h.locations, find_setLocation, h.located, if_pos (h.location_id.symm.trans same.symm)]
  rfl

/-- An edit is stored field by field. -/
theorem edit_stored (counts : Counts env) {edit : ParkingEdit}
    (h : Published env u t prop.id publisher (.editDetails edit) prop loc row parts)
    (known : KnownSecurity u) (named : trim edit.name ≠ "" ∧ trim edit.address ≠ "")
    (whole : ∀ r ∈ edit.hours.rows, WholeSeconds r.2)
    (read : Reads env loc (readHours s prop.locationId) (readSecurity s prop.locationId) before) :
    ∃ after, Reads env row (readHours t prop.locationId) (readSecurity t prop.locationId) after ∧
      Stored before after (.editDetails edit) := by
  have changed := h.changed
  simp only [changedRow, Option.ite_none_right_eq_some, Option.some.injEq] at changed
  obtain ⟨-, edited⟩ := changed
  rcases writeParts_cases h.written with ⟨no, -⟩ | ⟨_, filled, same, stored, written⟩
  · exact absurd rfl no
  cases same
  have place : row.id = prop.locationId := (changedRow_id h.changed).trans h.location_id
  have flag : row.hoursUnknown = edit.hours.isUnknown := by rw [← edited]
  have columns : (row.costKind, row.priceCents, row.priceCurrency, row.priceUnit) =
      costParts edit.cost := by rw [← edited]
  have hours : t.hours = filled.hours := by
    rw [h.hours, written, writeSecurity_hours]
  rw [h.location_id] at stored written
  rw [← place] at stored
  have security : t.security = (writeSecurity filled prop.locationId edit.security).security := by
    rw [h.security, written]
  have knownFilled : KnownSecurity filled := by
    obtain ⟨-, -, rows, -, rfl⟩ := writeHours_ok.mp stored
    exact known
  obtain ⟨features, featured, complete⟩ := features_written knownFilled security
  obtain ⟨unknown, perm, ordered⟩ := opening_written counts stored hours flag whole
  obtain ⟨price, priced, costed⟩ := priceOf_columns row edit.cost columns
  rw [place] at unknown perm ordered
  refine ⟨⟨before.id, trim edit.name, trim edit.address, edit.description, edit.parkingType,
    edit.cost, before.point, before.timezone, openingOf env row (readHours t prop.locationId),
    features, before.moderationState, before.rating, before.lastVerifiedAt, loc.version + 1,
    named.1, named.2⟩, ?_, ?_⟩
  · refine ⟨?_, ?_, ?_, ?_, ?_, ⟨price, priced, costed⟩, ?_, ?_, rfl, featured, ?_, ?_, ?_, ?_⟩
    all_goals rw [← edited]
    · exact read.id
    · exact (trim_trim _).symm
    · exact (trim_trim _).symm
    · exact read.point
    · exact read.timezone
    · exact read.moderationState
    · exact read.rating
    · exact read.lastVerifiedAt
  · exact ⟨⟨rfl, rfl, rfl, rfl, rfl, unknown, perm, ordered, complete⟩, ⟨rfl, rfl⟩, rfl,
      ⟨rfl, rfl, rfl⟩⟩

/-- The hours and the features are those of before, unless an edit was published. -/
theorem parts_untouched (h : Published env u t prop.id publisher applied prop loc row parts)
    (other : applied.kind ≠ .editDetails) (hours : u.hours = s.hours)
    (security : u.security = s.security) (l : LocationId) :
    readHours t l = readHours s l ∧ readSecurity t l = readSecurity s l := by
  rcases writeParts_cases h.written with ⟨-, written⟩ | ⟨_, _, edited, -⟩
  · constructor
    · refine readHours_congr ?_ l
      rw [h.hours, written]
      exact hours
    · rw [readSecurity, readSecurity, h.security, written]
      exact congrArg (fun table => Table.filter table _) security
  · rw [edited] at other
    exact absurd rfl other

/-- A move stores the place and the zone. -/
theorem move_stored (lawful : env.Lawful) {lat lon : ℚ} {timezone : Tz}
    (h : Published env u t prop.id publisher (.moveLocation lat lon timezone) prop loc row parts)
    (hours : u.hours = s.hours) (security : u.security = s.security) (range : inRange lat lon)
    (zoned : ∃ name, env.parseTz name = some timezone)
    (read : Reads env loc (readHours s prop.locationId) (readSecurity s prop.locationId) before) :
    ∃ after, Reads env row (readHours t prop.locationId) (readSecurity t prop.locationId) after ∧
      Stored before after (.moveLocation lat lon timezone) := by
  have changed := h.changed
  simp only [changedRow, Option.some.injEq] at changed
  obtain ⟨name, zoned⟩ := zoned
  obtain ⟨sameHours, sameSecurity⟩ :=
    parts_untouched h (by simp [ProposalApplication.kind]) hours security prop.locationId
  rw [sameHours, sameSecurity, ← changed]
  refine ⟨⟨before.id, before.name, before.address, before.description, before.parkingType,
    before.cost, ⟨lat, lon, range⟩, timezone, before.hours, before.security,
    before.moderationState, before.rating, before.lastVerifiedAt, loc.version + 1, before.named,
    before.addressed⟩, ?_, ?_⟩
  · exact ⟨read.id, read.name, read.address, read.description, read.parkingType, read.cost,
      by simp [GeoPoint.new, range], lawful.parseTz_name name timezone zoned ▸ zoned, read.hours,
      read.security, read.moderationState, read.rating, read.lastVerifiedAt, rfl⟩
  · exact ⟨⟨rfl, rfl, rfl, rfl, rfl, rfl, rfl⟩, ⟨rfl, rfl, rfl⟩, rfl, ⟨rfl, rfl, rfl⟩⟩

/-- A change of existence stores the moderation state. -/
theorem existence_stored {present : Bool}
    (h : Published env u t prop.id publisher (.changeExistence present) prop loc row parts)
    (hours : u.hours = s.hours) (security : u.security = s.security)
    (read : Reads env loc (readHours s prop.locationId) (readSecurity s prop.locationId) before) :
    ∃ after, Reads env row (readHours t prop.locationId) (readSecurity t prop.locationId) after ∧
      Stored before after (.changeExistence present) := by
  have changed := h.changed
  simp only [changedRow, Option.some.injEq] at changed
  obtain ⟨sameHours, sameSecurity⟩ :=
    parts_untouched h (by simp [ProposalApplication.kind]) hours security prop.locationId
  rw [sameHours, sameSecurity, ← changed]
  refine ⟨⟨before.id, before.name, before.address, before.description, before.parkingType,
    before.cost, before.point, before.timezone, before.hours, before.security,
    if present then .active else .removed, before.rating, before.lastVerifiedAt, loc.version + 1,
    before.named, before.addressed⟩, ?_, ?_⟩
  · exact ⟨read.id, read.name, read.address, read.description, read.parkingType, read.cost,
      read.point, read.timezone, read.hours, read.security, rfl, read.rating, read.lastVerifiedAt,
      rfl⟩
  · exact ⟨⟨rfl, rfl, rfl, rfl, rfl, rfl, rfl⟩, ⟨rfl, rfl⟩, rfl, ⟨rfl, rfl, rfl⟩⟩

end Stored

/-- No two rows of the hours are stored alike. -/
def Distinct (hours : OpeningHours) : Prop :=
  (hours.rows.map fun r => (r.1, (storedRange r.2).opensAt, (storedRange r.2).closesAt)).Nodup

instance (hours : OpeningHours) : Decidable (Distinct hours) :=
  inferInstanceAs (Decidable (List.Nodup _))

/-- Whole seconds are stored exactly, so different rows are stored differently. -/
theorem storable_of_distinct {env : Env} (counts : Counts env) {hours : OpeningHours}
    (whole : ∀ r ∈ hours.rows, WholeSeconds r.2) (distinct : Distinct hours) :
    StorableHours env hours := by
  have below : ∀ time : NaiveTime, time.frac = 0 → env.timeToSql time ≤ lastTime := by
    intro time exact
    have bound := time.valid.1
    rw [counts.toSql, exact, lastTime]
    omega
  constructor
  · intro r hr
    obtain ⟨opens, closes⟩ := storedRange_whole (whole r hr)
    exact ⟨below _ opens, below _ closes⟩
  · have keys : hours.rows.map (storedKey env) =
        (hours.rows.map fun r => (r.1, (storedRange r.2).opensAt, (storedRange r.2).closesAt)).map
          fun key => (key.1, env.timeToSql key.2.1, env.timeToSql key.2.2) := by
      rw [List.map_map]
      rfl
    rw [keys]
    refine List.Nodup.map_on ?_ distinct
    intro a ha b hb same
    obtain ⟨r, hr, rfl⟩ := List.mem_map.mp ha
    obtain ⟨q, hq, rfl⟩ := List.mem_map.mp hb
    obtain ⟨opens, closes⟩ := storedRange_whole (whole r hr)
    obtain ⟨opens', closes'⟩ := storedRange_whole (whole q hq)
    simp only [Prod.mk.injEq] at same
    obtain ⟨day, sameOpens, sameCloses⟩ := same
    have first := congrArg env.timeOfSql sameOpens
    have last := congrArg env.timeOfSql sameCloses
    rw [HoursForm.carried_whole counts opens, HoursForm.carried_whole counts opens'] at first
    rw [HoursForm.carried_whole counts closes, HoursForm.carried_whole counts closes'] at last
    rw [day, first, last]

/-- A moderator who did not make the proposal can act on it: it is pending at the version the
listing has. -/
structure Actionable (s : Store) (prop : ProposalRow) (loc : LocationRow) (moderator : UserId) :
    Prop where
  found : s.proposals.find prop.id = some prop
  located : s.locations.find prop.locationId = some loc
  pending : prop.status = .pending
  current : prop.baseVersion = loc.version
  byOther : prop.proposerId ≠ some moderator
  user : (s.users.find moderator).isSome

/-- Every publication, by a moderator or by a vote, of a proposal whose times are whole seconds
stores what was proposed and nothing else; and an edit of an active listing whose hours are
different as they are stored is published when a moderator approves it. -/
theorem publishing_stores_proposal (env : Env) (lawful : env.Lawful) (counts : Counts env)
    (ops : List Op) (prop : ProposalRow) (before : ParkingLocation)
    (read : details env (run env empty ops) prop.locationId = .ok (some before)) :
    (∀ applied t, Publication env (run env empty ops) prop applied t → Whole applied →
      ∃ after, details env t prop.locationId = .ok (some after) ∧ Stored before after applied) ∧
    ∀ loc moderator edit, Actionable (run env empty ops) prop loc moderator →
      loc.moderationState = .active →
      ProposedChange.fromJson env prop.kind prop.proposed = .editDetails edit →
      Whole (.editDetails edit) → Distinct edit.hours →
        ∃ t, Publication env (run env empty ops) prop (.editDetails edit) t := by
  obtain ⟨before', found, reads⟩ := details_some.mp read
  constructor
  · intro applied t publication whole
    obtain ⟨u, publisher, loc, row, parts, locations, hours, security, h⟩ := publication.published
    obtain ⟨adjusted, merged⟩ := publication.merged
    have located := h.located
    rw [locations, found] at located
    obtain rfl := Option.some.inj located
    have known : KnownSecurity u := fun k r hr => reachable_known env ops k r (security ▸ hr)
    obtain ⟨after, readAfter, stored⟩ : ∃ after,
        Reads env row (readHours t prop.locationId) (readSecurity t prop.locationId) after ∧
          Stored before after applied := by
      cases applied with
      | editDetails edit =>
        obtain ⟨-, decoded⟩ := fromJson_editDetails.mp (merge_edited merged).2
        obtain ⟨within, -⟩ := within_of_fromJson decoded
        exact edit_stored counts h known ⟨within.named.1, within.addressed.1⟩ whole reads
      | moveLocation lat lon timezone =>
        obtain ⟨range, zoned⟩ := merge_moved merged
        exact move_stored lawful h hours security range zoned reads
      | changeExistence present => exact existence_stored h hours security reads
    exact ⟨after, details_some.mpr ⟨row, find_published h, readAfter⟩, stored⟩
  · intro loc moderator edit act active decoded whole distinct
    obtain ⟨ofKind, fromPayload⟩ := fromJson_editDetails.mp decoded
    have merged : merge env prop.kind (ProposedChange.fromJson env prop.kind prop.proposed) {} =
        .ok (.editDetails edit) := by
      rw [decoded, ofKind]
      rfl
    have sound := reachable_sound env ops
    have written : ∃ row t, applyChange env (run env empty ops) loc (.editDetails edit) =
        .ok (row, t) := by
      refine applyChange_succeeds.mpr ⟨?_, ?_⟩
      · exact merged_admissible lawful (merge_unchanged merged) (sound.payload _ _ act.found)
          (sound.location _ _ act.located) active
      · rintro edit' ⟨⟩
        exact ⟨storable_of_distinct counts whole distinct, (within_of_fromJson fromPayload).1.dated⟩
    obtain ⟨t, done⟩ := approve_of_written lawful sound act.found act.located act.pending act.current
      (merge_kind merged).symm act.byOther act.user (next_revision_free act.located) written
    exact ⟨t, .approved moderator {} act.found merged done⟩

/-- Open in the evening and all of Saturday, at a price. -/
def eveningEdit : ParkingEdit :=
  { sampleEdit with cost := .paid (some ⟨250, ⟨"EUR", by decide⟩, .hour⟩), hours := evenings }

def eveningStart : Store := run Clock.env empty (sampleStart eveningEdit ++ enlist 2)

def eveningProposal : ProposalRow := newProposalRow 1 (proposeEdit eveningEdit) true

theorem publishing_stores_evenings : ∃ before t after,
    details Clock.env eveningStart 1 = .ok (some before) ∧
    Publication Clock.env eveningStart eveningProposal (.editDetails eveningEdit) t ∧
    details Clock.env t 1 = .ok (some after) ∧
    Stored before after (.editDetails eveningEdit) := by
  have readable : ∃ before, details Clock.env eveningStart 1 = .ok (some before) := by
    have there : ((details Clock.env eveningStart 1).toOption.bind fun p => p).isSome = true := by
      decide +kernel
    cases read : details Clock.env eveningStart 1 with
    | error e => simp [read, Except.toOption] at there
    | ok found =>
      cases found with
      | none => simp [read, Except.toOption] at there
      | some before => exact ⟨before, rfl⟩
  obtain ⟨before, read⟩ := readable
  obtain ⟨stores, publishes⟩ := publishing_stores_proposal Clock.env Clock.env_lawful clock_counts
    (sampleStart eveningEdit ++ enlist 2) eveningProposal before read
  have whole : Whole (.editDetails eveningEdit) := by
    simp [Whole, WholeSeconds, eveningEdit, evenings, OpeningHours.rows, TimeRange.allDayRange,
      NaiveTime.midnight, NaiveTime.lastSecond]
  obtain ⟨t, publication⟩ := publishes (newRow 1 sampleRack ⟨"Europe/Berlin"⟩ 1) 2 eveningEdit
    ⟨by decide +kernel, by decide +kernel, rfl, rfl, by decide, by decide +kernel⟩ rfl
    (by decide +kernel) whole (by decide +kernel)
  obtain ⟨after, readAfter, stored⟩ := stores _ t publication whole
  exact ⟨before, t, after, read, publication, readAfter, stored⟩

end PublishedChanges
