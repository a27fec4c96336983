import BikesNest.Attribution
import BikesNest.CredentialOps
import BikesNest.Erasure

/-! What the erasure of an account leaves of everyone else's rows. -/

namespace ErasureFrame

open Parking Proposal Schema Credentials Erasure Attribution

/-- A change of a table that is about `u`, where a row names people in these columns only. -/
abbrev SparesRows {κ ρ : Type} {key : ρ → κ} [DecidableEq κ] (u : UserId)
    (columns : List (ρ → Option UserId)) (t t' : Table κ ρ key) : Prop :=
  Spares u columns (RefersTo u columns) t t'

/-- The references of each relation. The row of a failed login names an account by its address. -/
structure Spared (u : UserId) (db db' : Database) : Prop where
  users : SparesRows u [fun a => some a.id] db.auth.users db'.auth.users
  identities : ∀ i ∈ db.auth.identities, i.userId ≠ u → i ∈ db'.auth.identities
  roles : SparesRows u [fun r => some r.userId, RoleRow.grantedBy] db.auth.roles db'.auth.roles
  sessions : SparesRows u [fun r => some r.userId] db.auth.sessions db'.auth.sessions
  verificationTokens : SparesRows u [fun t => some t.userId]
    db.auth.verificationTokens db'.auth.verificationTokens
  resetTokens : SparesRows u [fun t => some t.userId] db.auth.resetTokens db'.auth.resetTokens
  policies : db'.auth.policies = db.auth.policies
  acknowledgements : SparesRows u [fun a => some a.userId]
    db.auth.acknowledgements db'.auth.acknowledgements
  locations : SparesRows u [LocationRow.creatorId] db.locations db'.locations
  hours : db'.hours = db.hours
  security : db'.security = db.security
  revisions : SparesRows u [RevisionRow.editorId] db.revisions db'.revisions
  proposals : SparesRows u [ProposalRow.proposerId, ProposalRow.resolvedBy]
    db.proposals db'.proposals
  votes : SparesRows u [fun v => some v.voterId] db.votes db'.votes
  reviews : SparesRows u [ReviewRow.authorId] db.reviews db'.reviews
  verifications : SparesRows u [VerificationRow.userId] db.verifications db'.verifications
  favorites : SparesRows u [fun r => some r.userId] db.favorites db'.favorites
  jobs : SparesRows u [JobRow.mailAccountId] db.jobs db'.jobs
  exports : SparesRows u [fun r => some r.userId] db.exports db'.exports
  consents : SparesRows u [fun r => some r.userId] db.consents db'.consents
  presentations : SparesRows u [fun r => some r.userId] db.presentations db'.presentations
  reports : SparesRows u [ReportRow.reporterId, ReportRow.claimedBy, ReportRow.resolvedBy]
    db.reports db'.reports
  parkingPhotos : SparesRows u [PhotoRow.uploaderId, PhotoRow.reviewedBy]
    db.parkingPhotos db'.parkingPhotos
  reviewPhotos : SparesRows u [PhotoRow.uploaderId, PhotoRow.reviewedBy]
    db.reviewPhotos db'.reviewPhotos
  auditEvents : Spares u [AuditRow.actorUserId]
    (fun a => a.actorUserId = some u ∨ a.targets ((db.auth.users.find u).map AccountRow.email))
    db.auditEvents db'.auditEvents
  privacyRequests : SparesRows u [PrivacyRequestRow.userId, PrivacyRequestRow.fulfilledBy]
    db.privacyRequests db'.privacyRequests

/-- The reports and the privacy requests that name `u` name nobody else. -/
def Unshared (u : UserId) (db : Database) : Prop :=
  (∀ r ∈ db.reports, r.names u → ∀ v, r.names v → v = u) ∧
    ∀ r ∈ db.privacyRequests, r.names u → ∀ v, r.names v → v = u

section Tables

variable {κ ρ : Type} {key : ρ → κ} [DecidableEq κ] {t : Table κ ρ key} {u : UserId}

/-- Rows that belong to one person go with that person. -/
theorem spares_own_rows {owner : ρ → UserId} :
    SparesRows u [fun r => some (owner r)] t (t.delete fun r => decide (owner r = u)) :=
  spares_delete fun _ hit => ⟨_, List.mem_singleton_self _, congrArg some (of_decide_eq_true hit)⟩

/-- The column of the rows of `u` is cleared, the other columns stay. -/
theorem spares_own_column {columns : List (ρ → Option UserId)} {column : ρ → Option UserId}
    {f : ρ → ρ} (listed : column ∈ columns) (clears : ∀ r, column (f r) = none)
    (keeps : ∀ r, ∀ c ∈ columns, c = column ∨ c (f r) = c r) (hf : ∀ r, key (f r) = key r) :
    SparesRows u columns t (t.update (fun r => decide (column r = some u)) f hf) := by
  refine spares_clear hf (fun r named => ⟨column, listed, named⟩) fun r named c hc => ?_
  rcases keeps r c hc with rfl | same
  · exact .inr ⟨named, clears r⟩
  · exact .inl same

end Tables

variable {u : UserId} {db : Database} {now : Instant}

/-- An update of a table that shows no reference to anyone but its owner. -/
theorem spares_users : SparesRows u [fun a => some a.id]
    db.auth.users (db.erase u now).auth.users := by
  refine spares_update (by intro; rfl) (fun a hit => ⟨_, List.mem_singleton_self _, ?_⟩) fun a _ _ c hc => ?_
  · exact congrArg some (of_decide_eq_true hit)
  · obtain rfl := List.mem_singleton.mp hc
    exact .inl rfl

theorem spares_roles : SparesRows u [fun r => some r.userId, RoleRow.grantedBy]
    db.auth.roles (db.erase u now).auth.roles := by
  refine Spares.trans (db.auth.roles.delete fun r => decide (r.userId = u)) ?_ ?_
  · refine spares_delete fun r hit => ⟨fun r => some r.userId, by simp, ?_⟩
    exact congrArg some (of_decide_eq_true hit)
  · exact spares_own_column (by simp) (fun _ => rfl) (by simp) (by intro; rfl)

/-- The two references of a proposal are cleared apart from each other. -/
theorem spares_proposals : SparesRows u [ProposalRow.proposerId, ProposalRow.resolvedBy]
    db.proposals (db.erase u now).proposals := by
  refine Spares.trans (db.proposals.update (fun p => decide (p.proposerId = some u))
    (fun p => { p with proposerId := none }) fun _ => rfl) ?_ ?_
  · exact spares_own_column (by simp) (fun _ => rfl) (by simp) (by intro; rfl)
  · exact spares_own_column (by simp) (fun _ => rfl) (by simp) (by intro; rfl)

theorem spares_verifications : SparesRows u [VerificationRow.userId]
    db.verifications (db.erase u now).verifications := by
  refine Spares.trans (db.verifications.delete fun v =>
    decide (v.userId = some u ∧ v.signal = .parkedHere)) ?_ ?_
  · refine spares_delete fun v hit => ⟨_, List.mem_singleton_self _, ?_⟩
    exact (of_decide_eq_true hit).1
  · exact spares_own_column (by simp) (fun _ => rfl) (by simp) (by intro; rfl)

theorem spares_jobs : SparesRows u [JobRow.mailAccountId] db.jobs (db.erase u now).jobs := by
  refine spares_update (by intro; rfl) (fun j hit => ⟨_, List.mem_singleton_self _, ?_⟩) fun j _ _ c hc => ?_
  · exact (of_decide_eq_true hit).2
  · obtain rfl := List.mem_singleton.mp hc
    exact .inl rfl

theorem spares_auditEvents : Spares u [AuditRow.actorUserId]
    (fun a => a.actorUserId = some u ∨ a.targets ((db.auth.users.find u).map AccountRow.email))
    db.auditEvents (db.erase u now).auditEvents := by
  refine Spares.trans (db.auditEvents.update (fun a => decide (a.actorUserId = some u))
    (fun a => { a with actorUserId := none }) fun _ => rfl) ?_ ?_
  · refine spares_clear (by intro; rfl) (fun a named => .inl named) fun a named c hc => ?_
    obtain rfl := List.mem_singleton.mp hc
    exact .inr ⟨named, rfl⟩
  · refine spares_update (by intro; rfl) (fun a hit => .inr hit) fun a _ _ c hc => ?_
    obtain rfl := List.mem_singleton.mp hc
    exact .inl rfl

theorem names_iff_report {v : UserId} {r : ReportRow} :
    RefersTo v [ReportRow.reporterId, ReportRow.claimedBy, ReportRow.resolvedBy] r ↔ r.names v := by
  simp [RefersTo, ReportRow.names]

theorem names_iff_request {v : UserId} {r : PrivacyRequestRow} :
    RefersTo v [PrivacyRequestRow.userId, PrivacyRequestRow.fulfilledBy] r ↔ r.names v := by
  simp [RefersTo, PrivacyRequestRow.names]

theorem spares_reports_iff :
    SparesRows u [ReportRow.reporterId, ReportRow.claimedBy, ReportRow.resolvedBy]
      db.reports (db.erase u now).reports ↔
    ∀ r ∈ db.reports, r.names u → ∀ v, r.names v → v = u := by
  refine (spares_update_all_iff (by intro; rfl) (fun r hit => ?_) ?_).trans ?_
  · exact names_iff_report.mpr (of_decide_eq_true hit)
  · simp [ReportRow.unattribute]
  · simp only [decide_eq_true_eq, names_iff_report]

theorem spares_requests_iff :
    SparesRows u [PrivacyRequestRow.userId, PrivacyRequestRow.fulfilledBy]
      db.privacyRequests (db.erase u now).privacyRequests ↔
    ∀ r ∈ db.privacyRequests, r.names u → ∀ v, r.names v → v = u := by
  refine (spares_update_all_iff (by intro; rfl) (fun r hit => ?_) ?_).trans ?_
  · exact names_iff_request.mpr (of_decide_eq_true hit)
  · simp [PrivacyRequestRow.unattribute]
  · simp only [decide_eq_true_eq, names_iff_request]

/-- The erasure is about `u` exactly when the two joint updates meet nobody else. -/
theorem erase_spares_iff : Spared u db (db.erase u now) ↔ Unshared u db := by
  constructor
  · intro spared
    exact ⟨spares_reports_iff.mp spared.reports, spares_requests_iff.mp spared.privacyRequests⟩
  · rintro ⟨reports, requests⟩
    exact {
      users := spares_users
      identities := fun i hi other => List.mem_filter.mpr ⟨hi, by simpa using other⟩
      roles := spares_roles
      sessions := spares_own_rows
      verificationTokens := spares_own_rows
      resetTokens := spares_own_rows
      policies := rfl
      acknowledgements := spares_own_rows
      locations := spares_own_column (by simp) (fun _ => rfl) (by simp) (by intro; rfl)
      hours := rfl
      security := rfl
      revisions := spares_own_column (by simp) (fun _ => rfl) (by simp) (by intro; rfl)
      proposals := spares_proposals
      votes := spares_own_rows
      reviews := spares_own_column (by simp) (fun _ => rfl) (by simp) (by intro; rfl)
      verifications := spares_verifications
      favorites := spares_own_rows
      jobs := spares_jobs
      exports := spares_own_rows
      consents := spares_own_rows
      presentations := spares_own_rows
      reports := spares_reports_iff.mpr reports
      parkingPhotos := spares_own_column (by simp) (fun _ => rfl) (by simp [PhotoRow.unattribute])
        (by intro; rfl)
      reviewPhotos := spares_own_column (by simp) (fun _ => rfl) (by simp [PhotoRow.unattribute])
        (by intro; rfl)
      auditEvents := spares_auditEvents
      privacyRequests := spares_requests_iff.mpr requests }

/-- A successful erasure touches nobody else's rows exactly when the reports and the privacy
requests that name the account name nobody else. -/
theorem anonymize_spares_iff (env : Casing) (db db' : Database) (u : UserId) (now : Instant)
    (report : AnonymizationReport) (h : anonymize env db u now = .ok (report, db')) :
    Spared u db db' ↔ Unshared u db := by
  obtain ⟨-, -, -, rfl⟩ := anonymize_ok.mp h
  exact erase_spares_iff

/-- Ada, a moderator, works on a report of Eve's. -/
def sharedReport : Database :=
  let account (id : UserId) (email : String) : AccountRow :=
    ⟨id, email, none, .active, some 0, none, none, .en, true, none, 0⟩
  { Erasure.empty with
    auth := { Credentials.empty with
      users := ⟨[account 1 "ada@bikes.org", account 2 "eve@bikes.org"], CredentialOps.two_distinct⟩
      roles := ⟨[⟨1, .moderator, none⟩, ⟨1, .user, none⟩, ⟨2, .user, none⟩], by decide⟩ }
    reports := ⟨[⟨5, some 2, .review, 7, "spam", "", .underReview, some 1, none, none⟩],
      by decide⟩ }

theorem anonymize_spares_iff_ada :
    ∃ report db', anonymize CredentialOps.asciiCasing sharedReport 1 9 = .ok (report, db') ∧
      (Spared 1 sharedReport db' ↔ Unshared 1 sharedReport) := by
  have done : anonymize CredentialOps.asciiCasing sharedReport 1 9 =
      .ok (sharedReport.erasureCounts 1, sharedReport.erase 1 9) :=
    anonymize_ok.mpr ⟨by decide, by decide +kernel, rfl, rfl⟩
  exact ⟨_, _, done, anonymize_spares_iff _ _ _ _ _ _ done⟩

/-- Erasing the moderator takes Eve's name off her report. -/
theorem reporter_erased :
    (sharedReport.reports.find 5).bind ReportRow.reporterId = some 2 ∧
      (anonymize CredentialOps.asciiCasing sharedReport 1 9).toOption.map
        (fun r => (r.2.reports.find 5).map ReportRow.reporterId) = some (some none) := by
  decide +kernel

end ErasureFrame
