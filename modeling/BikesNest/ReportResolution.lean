import BikesNest.Clock
import BikesNest.Reports

/-! `resolve_report` over its four statements, any of which may fail. It closes the report first;
what goes wrong after that leaves it closed, and a target that is in no state to be hidden is
passed over. -/

namespace ReportResolution

open Parking Proposal Schema Credentials Outcome Erasure Interleaving Reports

structure Request where
  moderator : AuthenticatedUser
  id : ℕ
  outcome : ReportOutcome
  note : String
  clock : Instant
  auditId : ℕ

def Request.call (q : Request) : Resolving :=
  ⟨q.moderator.id, q.outcome, q.note, q.clock, q.auditId⟩

/-- The statements of a call that fail, each with its fault. -/
structure Faults where
  get : Option Fault
  resolve : Option Fault
  hide : Option Fault
  audit : Option Fault

def Faults.during (faults : Faults) : Phase → Option Fault
  | .get _ _ => faults.get
  | .resolve _ _ => faults.resolve
  | .hide _ _ => faults.hide
  | .audit _ => faults.audit
  | .targetExists _ _ | .create _ _ | .claim _ _ _ => none

def advance (env : Env) (faults : Faults) :
    Database × Progress Phase Reply → Database × Progress Phase Reply
  | (db, .next phase) => stepFaulty env phase (faults.during phase) db
  | (db, .done reply) => (db, .done reply)

/-- A call with nothing beside it. -/
def resolveReport (env : Env) (faults : Faults) (db : Database) (q : Request) :
    Database × Progress Phase Reply :=
  (advance env faults)^[4]
    (db, entry (.resolveReport q.moderator q.id q.outcome q.note q.clock q.auditId))

/-- The report can be resolved. -/
def UnderReview (db : Database) (id : ℕ) : Prop :=
  ∃ r ∈ db.reports.find id, r.state = .underReview

/-- The target is not on show, if it is there. -/
def Removed (db : Database) (targetType : ReportTargetType) (targetId : ℕ) : Prop :=
  match targetType with
  | .review => ∀ r ∈ db.reviews.find targetId, r.moderationState = .hidden
  | .parkingPhoto => ∀ p ∈ db.parkingPhotos.find targetId, p.moderationState = .hidden
  | .reviewPhoto => ∀ p ∈ db.reviewPhotos.find targetId, p.moderationState = .hidden
  | .parking => ∀ l ∈ db.locations.find targetId, l.moderationState ≠ .active

/-- What a call on the report `id` may leave. -/
structure AllOrNothing (db db' : Database) (id : ℕ) (reply : Reply) : Prop where
  failed : reply ≠ .ok () → UnderReview db id → UnderReview db' id
  resolved : ∀ r, db'.reports.find id = some r → r.state = .resolved →
    Removed db' r.targetType r.targetId ∨ ∃ q, db.reports.find id = some q ∧ q.state = .resolved

/-- The call returns, all or nothing. -/
def Whole (env : Env) (faults : Faults) (db : Database) (q : Request) : Prop :=
  ∃ db' reply, resolveReport env faults db q = (db', .done reply) ∧ AllOrNothing db db' q.id reply

/-- The call gets as far as to close the report `r`. -/
structure Closes (faults : Faults) (db : Database) (q : Request) (r : ReportRow) : Prop where
  allowed : .moderator ∈ q.moderator.roles ∨ .admin ∈ q.moderator.roles
  read : faults.get = none
  found : db.reports.find q.id = some r
  other : r.reporterId ≠ some q.moderator.id
  written : faults.resolve = none
  storable : textOk q.note = true
  claimed : r.state = .underReview
  moderatorExists : (db.auth.users.find q.moderator.id).isSome = true

/-- The repositories can take the target off show. A photo has to be approved for that, the
ratings that remain have to fit, and the revision that says so has to go in. -/
def Hideable (env : Env) (db : Database) (targetType : ReportTargetType) (targetId : ℕ) : Prop :=
  match targetType with
  | .review => ∀ r ∈ db.reviews.find targetId, r.moderationState = .active →
    Reviews.RatingFits (Reviews.activeRatings (Reviews.changeReview targetId
      (fun q => { q with moderationState := .hidden }) (fun _ => rfl) db.listing) r.locationId)
  | .parkingPhoto => ∀ p ∈ db.parkingPhotos.find targetId,
    p.moderationState = .approved ∨ p.moderationState = .hidden
  | .reviewPhoto => ∀ p ∈ db.reviewPhotos.find targetId,
    p.moderationState = .approved ∨ p.moderationState = .hidden
  | .parking => ∀ l ∈ db.locations.find targetId, l.moderationState = .active →
    (snapshotWith env db.listing (Publishing.moderatedRow l .invalid)).storable = true ∧
      db.revisions.find (targetId, l.version + 1) = none

/-- What comes after the report `r` is closed goes through. -/
structure Completes (env : Env) (faults : Faults) (db : Database) (q : Request) (r : ReportRow) :
    Prop where
  hidden : q.outcome = .resolved → faults.hide = none ∧ Hideable env db r.targetType r.targetId
  audited : faults.audit = none
  fresh : db.auditEvents.find q.auditId = none

variable {env : Env} {faults : Faults} {db db' : Database} {q : Request} {r : ReportRow}
  {moderator : UserId} {clock : Instant}

/-! Hiding a target, of each type. -/

/-- A target that is in no state to be hidden is passed over. -/
theorem tolerated_invalidState : tolerated db (.error .invalidState) = .ok db := rfl

theorem hideReview_refused {k : ℕ}
    (hidden : ∀ r, db.reviews.find k = some r → r.moderationState ≠ .active) :
    hideReview db k = .error .invalidState := by
  unfold hideReview setReviewState
  cases found : db.reviews.find k with
  | none => rfl
  | some r =>
    simp only [orFail, ok_bind]
    rw [ensure_not (hidden r found)]
    rfl

theorem tolerated_review {k : ℕ} :
    (∃ db', tolerated db (hideReview db k) = .ok db' ∧ Removed db' .review k) ↔
      Hideable env db .review k := by
  constructor
  · rintro ⟨db', done, removed⟩ r found active
    rcases tolerated_ok done with hidden | rfl
    · simp only [hideReview, setReviewState, bind_ok, orFail_ok, ensure_ok] at hidden
      obtain ⟨review, there, _, -, _, fits, -⟩ := hidden
      obtain rfl : review = r := Option.some.inj (there.symm.trans found)
      exact fits
    · have gone := removed r found
      rw [active] at gone
      cases gone
  · intro hideable
    by_cases shown : ∃ r, db.reviews.find k = some r ∧ r.moderationState = .active
    · obtain ⟨r, found, active⟩ := shown
      have hidden : ∃ db', hideReview db k = .ok db' ∧ ∀ j, db'.reviews.find j =
          (db.reviews.find j).map fun q =>
            if q.id = k then { q with moderationState := .hidden } else q := by
        simp only [hideReview, setReviewState, bind_ok, orFail_ok, ensure_ok, pure_ok]
        refine ⟨_, ⟨r, found, (), active, (), hideable r found active, rfl⟩, fun j => ?_⟩
        simp [Reviews.changeReview, Database.listing]
      obtain ⟨db', hidden, after⟩ := hidden
      refine ⟨db', by rw [hidden]; rfl, fun q there => ?_⟩
      rw [after, found, Option.map_some, if_pos (Table.find_eq_some.mp found).2] at there
      cases there
      rfl
    · push Not at shown
      refine ⟨db, by rw [hideReview_refused shown]; rfl, fun r found => ?_⟩
      cases state : r.moderationState
      · exact absurd state (shown r found)
      · rfl

theorem hidePhoto_ok {table : String} {photos photos' : PhotoTable} {k : ℕ} :
    hidePhoto db table photos k moderator clock = .ok photos' ↔
      (∃ p, photos.find k = some p ∧ p.moderationState = .approved) ∧
        (db.auth.users.find moderator).isSome = true ∧
        photos' = photos.update (fun p => decide (p.id = k)) (fun p => { p with
          moderationState := .hidden, reviewedBy := some moderator
          reviewedAt := some clock }) fun _ => rfl := by
  simp only [hidePhoto, bind_ok, ensure_ok, pure_ok, exists_and_left, exists_const,
    eq_comm (a := photos')]
  rfl

/-- What the two tables of photos have in common: `put` brings the table back into the store. -/
theorem tolerated_photo {table : String} {photos : PhotoTable} {k : ℕ}
    (put : PhotoTable → Database) (get : Database → PhotoTable) (get_put : ∀ t, get (put t) = t)
    (get_db : get db = photos)
    (moderatorExists : (db.auth.users.find moderator).isSome = true) :
    (∃ db', tolerated db (do
        let photos' ← hidePhoto db table photos k moderator clock
        pure (put photos')) = .ok db' ∧ ∀ p ∈ (get db').find k, p.moderationState = .hidden) ↔
      ∀ p ∈ photos.find k, p.moderationState = .approved ∨ p.moderationState = .hidden := by
  constructor
  · rintro ⟨db', done, removed⟩ p found
    rcases tolerated_ok done with hidden | rfl
    · simp only [bind_ok, hidePhoto_ok] at hidden
      obtain ⟨_, ⟨⟨p', there, approved⟩, -, -⟩, -⟩ := hidden
      obtain rfl : p' = p := Option.some.inj (there.symm.trans found)
      exact .inl approved
    · exact .inr (removed p (get_db ▸ found))
  · intro hideable
    by_cases shown : ∃ p, photos.find k = some p ∧ p.moderationState = .approved
    · obtain ⟨photos', hidden⟩ : ∃ photos',
          hidePhoto db table photos k moderator clock = .ok photos' :=
        ⟨_, hidePhoto_ok.mpr ⟨shown, moderatorExists, rfl⟩⟩
      refine ⟨put photos', by rw [hidden]; rfl, fun p there => ?_⟩
      obtain ⟨⟨p', found, -⟩, -, rfl⟩ := hidePhoto_ok.mp hidden
      rw [get_put, Table.find_update, found, Option.map_some, Option.mem_some_iff,
        if_pos (decide_eq_true (Table.find_eq_some.mp found).2)] at there
      rw [← there]
    · have refused : hidePhoto db table photos k moderator clock = .error .invalidState := by
        unfold hidePhoto
        rw [ensure_not (by simpa using shown)]
        rfl
      refine ⟨db, by rw [refused]; rfl, fun p found => ?_⟩
      rw [get_db] at found
      exact (hideable p found).resolve_left fun approved => shown ⟨p, found, approved⟩

theorem tolerated_parking {k : ℕ}
    (moderatorExists : (db.auth.users.find moderator).isSome = true) :
    (∃ db', tolerated db (invalidateParking env db k moderator) = .ok db' ∧
        Removed db' .parking k) ↔ Hideable env db .parking k := by
  constructor
  · rintro ⟨db', done, removed⟩ l found active
    rcases tolerated_ok done with hidden | rfl
    · simp only [invalidateParking, bind_ok, mapError_ok] at hidden
      obtain ⟨s, hidden, -⟩ := hidden
      obtain ⟨old, moderated⟩ := Publishing.setParkingState_ok.mp hidden
      obtain rfl : old = l := Option.some.inj (moderated.found.symm.trans found)
      exact ⟨moderated.storable, (Table.insert_eq_some.mp moderated.recorded).1⟩
    · exact absurd active (removed l found)
  · intro hideable
    by_cases shown : ∃ l, db.locations.find k = some l ∧ l.moderationState = .active
    · obtain ⟨l, found, active⟩ := shown
      obtain ⟨storable, free⟩ := hideable l found active
      obtain rfl : l.id = k := (Table.find_eq_some.mp found).2
      obtain ⟨revisions, recorded⟩ := Table.insert_isSome.mpr
        (show db.listing.revisions.find (RevisionRow.locationId
          ⟨l.id, l.version + 1, some moderator, .moderation, "moderated",
            snapshotWith env db.listing (Publishing.moderatedRow l .invalid)⟩, l.version + 1) = none
          from free)
      let s := Publishing.supersedePendingProposals
        { Publishing.setLocation db.listing (Publishing.moderatedRow l .invalid) with
          revisions := revisions } l.id none
      have moderated : Publishing.Moderated env db.listing s l.id [.active] .invalid moderator l :=
        ⟨found, by simp [active], storable, by simpa using moderatorExists, recorded, rfl⟩
      refine ⟨withListing db s, ?_, ?_⟩
      · unfold invalidateParking
        rw [Publishing.setParkingState_ok.mpr ⟨l, moderated⟩]
        rfl
      · intro row there
        have there : s.locations.find l.id = some row := there
        rw [moderated.locations, Publishing.find_setLocation] at there
        change (if l.id = l.id then (db.locations.find l.id).map fun _ =>
          Publishing.moderatedRow l .invalid else _) = some row at there
        rw [if_pos rfl, found] at there
        cases there
        simp [Publishing.moderatedRow]
    · push Not at shown
      have refused : Publishing.setParkingState env db.listing k [.active] .invalid moderator =
          .error .invalidState := by
        unfold Publishing.setParkingState
        cases found : db.locations.find k with
        | none =>
          rw [show db.listing.locations.find k = none from found]
          rfl
        | some l =>
          rw [show db.listing.locations.find k = some l from found]
          simp only [orFail, ok_bind]
          rw [ensure_not (by simpa using shown l found)]
          rfl
      refine ⟨db, ?_, fun l found => shown l found⟩
      unfold invalidateParking
      rw [refused]
      rfl

/-- A target can be taken off show just when it is hideable. -/
theorem tolerated_hideTarget {targetType : ReportTargetType} {k : ℕ}
    (moderatorExists : (db.auth.users.find moderator).isSome = true) :
    (∃ db', tolerated db (hideTarget env db targetType k moderator clock) = .ok db' ∧
        Removed db' targetType k) ↔ Hideable env db targetType k := by
  cases targetType with
  | review => exact tolerated_review
  | parkingPhoto =>
    exact tolerated_photo (fun t => { db with parkingPhotos := t }) Database.parkingPhotos
      (fun _ => rfl) rfl moderatorExists
  | reviewPhoto =>
    exact tolerated_photo (fun t => { db with reviewPhotos := t }) Database.reviewPhotos
      (fun _ => rfl) rfl moderatorExists
  | parking => exact tolerated_parking moderatorExists

/-! The statements of a call, one after the other. -/

theorem advance_done (n : ℕ) (reply : Reply) :
    (advance env faults)^[n] (db, .done reply) = (db, .done reply) := by
  induction n with
  | zero => rfl
  | succ n ih => rwa [Function.iterate_succ_apply, advance]

/-- The store once the report is closed. -/
def closed (db : Database) (q : Request) : Database :=
  setReport db q.id (ReportRow.resolve q.moderator.id q.note q.outcome) fun _ => rfl

theorem advance_get (q : Request) :
    (∃ e, advance env faults (db, .next (.get q.id q.call)) = (db, .done (.error e)) ∧
        ∀ r, ¬ Closes faults db q r) ∨
      ∃ r, db.reports.find q.id = some r ∧ faults.get = none ∧
        r.reporterId ≠ some q.moderator.id ∧
        advance env faults (db, .next (.get q.id q.call)) = (db, .next (.resolve r q.call)) := by
  simp only [advance, Faults.during]
  cases read : faults.get with
  | some fault =>
    refine .inl ⟨_, rfl, fun r closes => ?_⟩
    cases read.symm.trans closes.read
  | none =>
    simp only [stepFaulty, step]
    cases found : db.reports.find q.id with
    | none =>
      refine .inl ⟨_, rfl, fun r closes => ?_⟩
      cases found.symm.trans closes.found
    | some r =>
      by_cases own : r.reporterId = some q.moderator.id
      · refine .inl ⟨_, if_pos own, fun r' closes => ?_⟩
        cases found.symm.trans closes.found
        exact closes.other own
      · exact .inr ⟨r, rfl, trivial, own, if_neg own⟩

/-- What closes a report that was read. -/
theorem advance_resolve (found : db.reports.find q.id = some r) :
    (∃ e, advance env faults (db, .next (.resolve r q.call)) = (db, .done (.error e)) ∧
        ∀ r', ¬ Closes faults db q r') ∨
      (faults.resolve = none ∧ textOk q.note = true ∧ r.state = .underReview ∧
        (db.auth.users.find q.moderator.id).isSome = true) ∧
      advance env faults (db, .next (.resolve r q.call)) =
        (closed db q, afterResolve r q.call) := by
  have key : r.id = q.id := (Table.find_eq_some.mp found).2
  simp only [advance, Faults.during]
  cases written : faults.resolve with
  | some fault =>
    refine .inl ⟨_, rfl, fun r closes => ?_⟩
    cases written.symm.trans closes.written
  | none =>
    simp only [stepFaulty, step, attempt, key, Request.call]
    cases resolved : resolveRow db q.id q.moderator.id q.note q.outcome with
    | error e =>
      refine .inl ⟨e, rfl, fun r' closes => ?_⟩
      have done : resolveRow db q.id q.moderator.id q.note q.outcome = .ok (closed db q) :=
        resolveRow_ok.mpr ⟨closes.storable, ⟨r', closes.found, closes.claimed⟩,
          closes.moderatorExists, rfl⟩
      cases resolved.symm.trans done
    | ok db' =>
      obtain ⟨storable, ⟨r', there, claimed⟩, exists', rfl⟩ := resolveRow_ok.mp resolved
      cases found.symm.trans there
      exact .inr ⟨⟨trivial, storable, claimed, exists'⟩, rfl⟩

/-- A call is refused with nothing written, or it closes the report and goes on. -/
theorem resolveReport_cases (env : Env) (faults : Faults) (db : Database) (q : Request) :
    (∃ e, resolveReport env faults db q = (db, .done (.error e)) ∧ ∀ r, ¬ Closes faults db q r) ∨
      ∃ r, Closes faults db q r ∧ resolveReport env faults db q =
        (advance env faults)^[2] (closed db q, afterResolve r q.call) := by
  unfold resolveReport
  by_cases allowed : .moderator ∈ q.moderator.roles ∨ .admin ∈ q.moderator.roles
  swap
  · refine .inl ⟨.notAuthorized, ?_, fun r closes => allowed closes.allowed⟩
    simp only [entry, requireModerator, ensure_not allowed, error_bind, ofChecks, advance_done]
  have entered : entry (.resolveReport q.moderator q.id q.outcome q.note q.clock q.auditId) =
      .next (.get q.id q.call) := by
    simp only [entry, requireModerator, ensure, if_pos allowed]
    rfl
  rw [entered, Function.iterate_succ_apply]
  rcases advance_get q with ⟨e, stopped, refused⟩ | ⟨r, found, read, other, got⟩
  · rw [stopped]
    exact .inl ⟨e, advance_done 3 _, refused⟩
  · rw [got, Function.iterate_succ_apply]
    rcases advance_resolve found with ⟨e, stopped, refused⟩ |
      ⟨⟨written, storable, claimed, exists'⟩, went⟩
    · rw [stopped]
      exact .inl ⟨e, advance_done 2 _, refused⟩
    · rw [went]
      exact .inr ⟨r, ⟨allowed, read, found, other, written, storable, claimed, exists'⟩, rfl⟩

theorem advance_hide (env : Env) (faults : Faults) (db : Database) (r : ReportRow)
    (call : Resolving) :
    let hidden := tolerated db
      (hideTarget env db r.targetType r.targetId call.moderator call.clock)
    (∃ e, advance env faults (db, .next (.hide r call)) = (db, .done (.error e)) ∧
        ¬ (faults.hide = none ∧ ∃ db', hidden = .ok db')) ∨
      faults.hide = none ∧ ∃ db', hidden = .ok db' ∧ advance env faults (db, .next (.hide r call)) =
        (db', .next (.audit (auditRow call.auditId call.moderator call.outcome.action r.id))) := by
  simp only [advance, Faults.during]
  cases faults.hide with
  | some fault => exact .inl ⟨_, rfl, fun h => by cases h.1⟩
  | none =>
    simp only [stepFaulty, step, attempt]
    cases tolerated db (hideTarget env db r.targetType r.targetId call.moderator call.clock) with
    | error e =>
      refine .inl ⟨e, rfl, fun h => ?_⟩
      obtain ⟨db', done⟩ := h.2
      cases done
    | ok db' => exact .inr ⟨trivial, db', rfl, rfl⟩

/-- The audit of a call whose moderator is there. -/
theorem advance_audit (env : Env) (faults : Faults) {row : AuditRow}
    (actor : ∀ u ∈ row.actorUserId, (db.auth.users.find u).isSome = true) :
    (∃ e, advance env faults (db, .next (.audit row)) = (db, .done (.error e)) ∧
        ¬ (faults.audit = none ∧ db.auditEvents.find row.id = none)) ∨
      (faults.audit = none ∧ db.auditEvents.find row.id = none) ∧ ∃ auditEvents,
        advance env faults (db, .next (.audit row)) =
          ({ db with auditEvents := auditEvents }, .done (.ok ())) := by
  simp only [advance, Faults.during]
  cases audited : faults.audit with
  | some fault => exact .inl ⟨_, rfl, fun h => by cases h.1⟩
  | none =>
    simp only [stepFaulty, step, attempt]
    cases recorded : recordAudit db row with
    | error e =>
      refine .inl ⟨e, rfl, fun h => ?_⟩
      obtain ⟨auditEvents, inserted⟩ := Table.insert_isSome.mpr h.2
      cases recorded.symm.trans (recordAudit_ok.mpr ⟨actor, auditEvents, inserted, rfl⟩)
    | ok db' =>
      obtain ⟨-, auditEvents, inserted, rfl⟩ := recordAudit_ok.mp recorded
      exact .inr ⟨⟨trivial, (Table.insert_eq_some.mp inserted).1⟩, auditEvents, rfl⟩

/-! What the call leaves. -/

theorem whole_iff_of_eq {reply : Reply}
    (returned : resolveReport env faults db q = (db', .done reply)) :
    Whole env faults db q ↔ AllOrNothing db db' q.id reply := by
  constructor
  · rintro ⟨db'', reply', returned', whole⟩
    cases returned.symm.trans returned'
    exact whole
  · exact fun whole => ⟨db', reply, returned, whole⟩

theorem find_closed (closes : Closes faults db q r) : (closed db q).reports.find q.id =
    some (ReportRow.resolve q.moderator.id q.note q.outcome r) := by
  refine (find_setReport db q.id (ReportRow.resolve q.moderator.id q.note q.outcome)
    (fun _ => rfl) q.id).trans ?_
  rw [closes.found, Option.map_some, if_pos (Table.find_eq_some.mp closes.found).2]

/-- An error after the report is closed leaves it closed. -/
theorem not_allOrNothing_of_closed {e : ReportError} (closes : Closes faults db q r)
    (reports : db'.reports = (closed db q).reports) :
    ¬ AllOrNothing db db' q.id (.error e) := by
  intro whole
  obtain ⟨r', found, claimed⟩ := whole.failed (by simp) ⟨r, closes.found, closes.claimed⟩
  rw [reports, find_closed closes] at found
  cases found
  revert claimed
  simp only [ReportRow.resolve]
  cases q.outcome <;> simp [ReportOutcome.state]

theorem allOrNothing_of_closed (closes : Closes faults db q r)
    (reports : db'.reports = (closed db q).reports) :
    AllOrNothing db db' q.id (.ok ()) ↔
      (q.outcome = .resolved → Removed db' r.targetType r.targetId) := by
  have found := find_closed closes
  rw [← reports] at found
  constructor
  · intro whole outcome
    rcases whole.resolved _ found (by simp [ReportRow.resolve, outcome, ReportOutcome.state]) with
      removed | ⟨r', there, state⟩
    · exact removed
    · cases closes.found.symm.trans there
      rw [closes.claimed] at state
      cases state
  · intro removed
    refine ⟨fun failed => absurd rfl failed, fun r' there state => .inl ?_⟩
    cases found.symm.trans there
    refine removed ?_
    cases outcome : q.outcome with
    | resolved => rfl
    | dismissed => simp [ReportRow.resolve, outcome, ReportOutcome.state] at state

/-- The rest of a call from its audit on. -/
theorem whole_of_audit {d : Database} {n : ℕ} (closes : Closes faults db q r)
    (reports : d.reports = (closed db q).reports) (auth : d.auth = db.auth)
    (events : d.auditEvents = db.auditEvents)
    (returned : resolveReport env faults db q = (advance env faults)^[n + 1]
      (d, .next (.audit (auditRow q.auditId q.moderator.id q.outcome.action r.id)))) :
    Whole env faults db q ↔ (faults.audit = none ∧ db.auditEvents.find q.auditId = none) ∧
      (q.outcome = .resolved → Removed d r.targetType r.targetId) := by
  let row := auditRow q.auditId q.moderator.id q.outcome.action r.id
  have actor : ∀ u ∈ row.actorUserId, (d.auth.users.find u).isSome = true := by
    rintro u ⟨⟩
    rw [auth]
    exact closes.moderatorExists
  rw [Function.iterate_succ_apply] at returned
  rw [← events]
  rcases advance_audit env faults actor with ⟨e, stopped, failed⟩ |
    ⟨went, auditEvents, stopped⟩
  · rw [stopped, advance_done] at returned
    rw [whole_iff_of_eq returned]
    exact ⟨fun whole => absurd whole (not_allOrNothing_of_closed closes reports),
      fun h => absurd h.1 failed⟩
  · rw [stopped, advance_done] at returned
    let d' : Database := { d with auditEvents := auditEvents }
    have same : Removed d' r.targetType r.targetId ↔ Removed d r.targetType r.targetId := by
      cases r.targetType <;> exact Iff.rfl
    have kept : d'.reports = (closed db q).reports := reports
    refine (whole_iff_of_eq returned).trans ((allOrNothing_of_closed closes kept).trans ?_)
    rw [same]
    exact ⟨fun removed => ⟨went, removed⟩, fun h => h.2⟩

/-- After the report is closed, the call is all or nothing just when the rest goes through. -/
theorem whole_of_closes (closes : Closes faults db q r)
    (returned : resolveReport env faults db q =
      (advance env faults)^[2] (closed db q, afterResolve r q.call)) :
    Whole env faults db q ↔ Completes env faults db q r := by
  cases outcome : q.outcome with
  | dismissed =>
    have onward : afterResolve r q.call =
        .next (.audit (auditRow q.auditId q.moderator.id q.outcome.action r.id)) := by
      simp only [afterResolve, Request.call, outcome]
    rw [onward] at returned
    rw [whole_of_audit closes rfl rfl rfl returned]
    constructor
    · rintro ⟨⟨audited, fresh⟩, -⟩
      exact ⟨by simp [outcome], audited, fresh⟩
    · rintro ⟨-, audited, fresh⟩
      exact ⟨⟨audited, fresh⟩, by simp [outcome]⟩
  | resolved =>
    have onward : afterResolve r q.call = .next (.hide r q.call) := by
      simp only [afterResolve, Request.call, outcome]
    have hides : (∃ d, tolerated (closed db q) (hideTarget env (closed db q) r.targetType
        r.targetId q.call.moderator q.call.clock) = .ok d ∧ Removed d r.targetType r.targetId) ↔
          Hideable env db r.targetType r.targetId := by
      have moderatorExists : ((closed db q).auth.users.find q.call.moderator).isSome = true :=
        closes.moderatorExists
      refine (tolerated_hideTarget moderatorExists).trans ?_
      cases r.targetType <;> exact Iff.rfl
    rw [onward, Function.iterate_succ_apply] at returned
    rcases advance_hide env faults (closed db q) r q.call with ⟨e, stopped, failed⟩ |
      ⟨unharmed, d, hidden, went⟩
    · rw [stopped, advance_done] at returned
      rw [whole_iff_of_eq returned]
      refine ⟨fun whole => absurd whole (not_allOrNothing_of_closed closes rfl), fun h => ?_⟩
      obtain ⟨unharmed, possible⟩ := h.hidden outcome
      obtain ⟨d, hidden, -⟩ := hides.mpr possible
      exact absurd ⟨unharmed, d, hidden⟩ failed
    · rw [went] at returned
      have frame : d.reports = (closed db q).reports ∧ d.auth = db.auth ∧
          d.auditEvents = db.auditEvents := by
        rcases tolerated_ok hidden with done | rfl
        · exact hideTarget_frame done
        · exact ⟨rfl, rfl, rfl⟩
      have removes : Removed d r.targetType r.targetId ↔ Hideable env db r.targetType r.targetId := by
        rw [← hides]
        constructor
        · exact fun removed => ⟨d, hidden, removed⟩
        · rintro ⟨d', hidden', removed⟩
          cases hidden.symm.trans hidden'
          exact removed
      rw [whole_of_audit (n := 0) closes frame.1 frame.2.1 frame.2.2 returned, removes]
      constructor
      · rintro ⟨⟨audited, fresh⟩, possible⟩
        exact ⟨fun _ => ⟨unharmed, possible outcome⟩, audited, fresh⟩
      · rintro ⟨possible, audited, fresh⟩
        exact ⟨⟨audited, fresh⟩, fun h => (possible h).2⟩

/-- Over every store, every call and every choice of failing statements: the call is all or
nothing just when either it does not get as far as to close the report, or the rest of it goes
through and the target is one that can be hidden. -/
theorem resolve_report_whole_iff (env : Env) (faults : Faults) (db : Database) (q : Request) :
    Whole env faults db q ↔ ∀ r, Closes faults db q r → Completes env faults db q r := by
  rcases resolveReport_cases env faults db q with ⟨e, returned, refused⟩ | ⟨r, closes, returned⟩
  · rw [whole_iff_of_eq returned]
    refine ⟨fun _ r closes => absurd closes (refused r), fun _ => ⟨fun _ live => live, ?_⟩⟩
    exact fun r found state => .inr ⟨r, found, state⟩
  · rw [whole_of_closes closes returned]
    constructor
    · intro completes r' closes'
      cases closes.found.symm.trans closes'.found
      exact completes
    · exact fun completes => completes r closes

/-- Ada takes on a report of a photo that is still to be approved. -/
def reviewing : Database :=
  let users := Table.insert .empty ⟨1, "ada@x", none, .active, none, none, none, .en, false, none, 0⟩
  let reports := Table.insert .empty
    ⟨5, some 2, .parkingPhoto, 7, "spam", "", .underReview, some 1, none, none⟩
  let photos := Table.insert .empty ⟨7, some 2, .pendingReview, none, none⟩
  { Erasure.empty with
    auth := { Erasure.empty.auth with users := users.getD .empty }
    reports := reports.getD .empty
    parkingPhotos := photos.getD .empty }

def resolving : Request := ⟨⟨1, [.moderator]⟩, 5, .resolved, "gone", 9, 50⟩

/-- The connection is lost where the photo is to be hidden, and the report is closed for good;
without that the call succeeds, and the photo waits on to be approved. -/
theorem closed_report_shown :
    ¬ Whole Clock.env ⟨none, none, some .unavailable, none⟩ reviewing resolving ∧
      ¬ Whole Clock.env ⟨none, none, none, none⟩ reviewing resolving := by
  constructor
  · rintro ⟨db', reply, returned, whole⟩
    obtain ⟨rfl, rfl⟩ : db' = closed reviewing resolving ∧ reply = .error .unavailable := by
      cases returned
      exact ⟨rfl, rfl⟩
    obtain ⟨r, found, claimed⟩ := whole.failed (by simp) ⟨_, rfl, rfl⟩
    cases found
    cases claimed
  · rintro ⟨db', reply, returned, whole⟩
    cases returned
    rcases whole.resolved _ rfl rfl with removed | ⟨r, found, state⟩
    · cases removed _ rfl
    · cases found
      cases state

end ReportResolution
