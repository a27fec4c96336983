import BikesNest.Clock
import BikesNest.Community
import BikesNest.Operations
import BikesNest.PhotoUploads
import BikesNest.ServiceCalls

/-! Contributions that fail half way. A call checks and reads, commits one transaction, and then
refreshes the listing and writes its audit rows in statements of their own; any statement may fail,
and one that fails has no effect. The answers of the limiter, of the time zone resolver and of the
image processor come with the call. -/

namespace ContributionFailures

open Parking Proposal Schema Contribution Outcome Details Photos ServiceCalls
open Community (AuthenticatedUser)
open PhotoUploads (Policy Upload UploadError)

/-- The database, and the store of the photo objects. -/
structure Db where
  parking : Store
  media : PhotoDb

/-- The statements and requests of a call that may fail. -/
inductive Stage where
  | duplicates | readLocation | readHours | readSecurity | commit | freshness | publicationAudit
  | audit | putFull | putThumb | deleteThumb | deleteFull
  deriving DecidableEq

abbrev Faults := Stage → Bool

inductive Failure where
  | contribution (e : ContributionError)
  | photo (e : UploadError)
  /-- What an audit row that is not written is reported as. -/
  | internal

/-- The calls, under the names of the service functions; new rows come with their identities. -/
inductive Call where
  | addParkingLocation (user : AuthenticatedUser) (userAllowed ipAllowed : Bool)
      (resolved : Option Tz) (id : LocationId) (input : NewParkingLocation)
  | contribution (request : Community.Request)
  | uploadPhoto (upload : Upload) (id : ℕ)

/-- What a call has prepared for its transaction. -/
inductive Work where
  | location (id : LocationId) (new : NewParkingLocation) (creator : UserId)
  | contribution (w : Community.Write)
  | photo (id : ℕ) (new : NewPendingPhoto)

inductive Reply where
  | added (id : LocationId)
  | contributed (reply : Community.Reply)
  | uploaded (id : ℕ)

section Model

variable (env : Env) (policy : Policy) (now : Instant) (faults : Faults)

def check (x : Except ContributionError α) : Service Db Failure α :=
  reads fun _ => x.mapError .contribution

/-- A statement that only reads. -/
def query (stage : Stage) (f : Store → Except ContributionError α) : Service Db Failure α :=
  reads fun db =>
    (do
      ensure (faults stage = false) ContributionError.unavailable
      f db.parking).mapError .contribution

/-- A transaction of a repository. -/
def statement (stage : Stage) (f : Store → Except ContributionError (α × Store)) :
    Service Db Failure α :=
  transact fun db =>
    (do
      ensure (faults stage = false) ContributionError.unavailable
      let (a, parking) ← f db.parking
      pure (a, { db with parking := parking })).mapError .contribution

def audit (stage : Stage) : Service Db Failure Unit :=
  reads fun _ => if faults stage then .error .internal else .ok ()

/-- `add_parking_location` up to its insert. The duplicates it finds are only reported. -/
def prepareLocation (user : AuthenticatedUser) (userAllowed ipAllowed : Bool)
    (resolved : Option Tz) (id : LocationId) (input : NewParkingLocation) :
    Service Db Failure Work := do
  check (ensure (user.isVerified = true) .notVerified)
  check (ensure (userAllowed = true) .rateLimited)
  check (ensure (ipAllowed = true) .rateLimited)
  check (Community.validateNameAddress input.name input.address)
  let timezone ← check (orFail (input.timezone.or resolved) .timezone)
  query faults .duplicates fun _ => .ok ()
  pure (.location id { input with timezone := some timezone } user.id)

/-- `require_active` and what a call makes of the listing. -/
def prepareSubmission (user : UserId) (sub : Community.Submission) : Service Db Failure Work := do
  let row ← query faults .readLocation fun s => orFail (s.locations.find sub.location) .notFound
  let hours ← query faults .readHours fun s => .ok (Schema.readHours s row.id)
  let security ← query faults .readSecurity fun s => .ok (Schema.readSecurity s row.id)
  let w ← check (Community.requireActive env user sub row hours security)
  pure (.contribution w)

def prepareContribution : Community.Request → Service Db Failure Work
  | .submit user allowed sub => do
    check (ensure (user.isVerified = true) .notVerified)
    check (ensure (allowed = true) .rateLimited)
    check sub.validate
    prepareSubmission env faults user.id sub
  | .voteOnProposal user id vote => do
    check (ensure (user.isVerified = true) .notVerified)
    pure (.contribution (.vote id user.id vote))

/-- A request to the object store. -/
def request (stage : Stage) (f : ObjectStore → Answer → ObjectStore) : Service Db Failure Unit :=
  let answer := if faults stage then Answer.refused else .done
  effect (fun db => { db with media := { db.media with objects := f db.media.objects answer } })
    (if answer.isError then .error (.photo (.photo .storage)) else .ok ())

/-- A request whose answer is not looked at. -/
def forget (x : Service Db Failure Unit) : Service Db Failure Unit :=
  tryCatch x fun _ => pure ()

/-- `upload_photo` up to its insert. -/
def prepareUpload (upload : Upload) (id : ℕ) : Service Db Failure Work := do
  let new ← reads fun _ => (PhotoUploads.prepare policy upload).mapError .photo
  request faults .putFull fun objects => putAnswered objects new.storageKey now
  tryCatch (request faults .putThumb fun objects => putAnswered objects new.thumbnailKey now)
    fun e => do
      forget (request faults .deleteFull fun objects => deleteAnswered objects new.storageKey)
      throw e
  pure (.photo id new)

def Call.prepare : Call → Service Db Failure Work
  | .addParkingLocation user userAllowed ipAllowed resolved id input =>
    prepareLocation faults user userAllowed ipAllowed resolved id input
  | .contribution request => prepareContribution env faults request
  | .uploadPhoto upload id => prepareUpload policy now faults upload id

/-- The insert of an upload, and what is undone where it fails. -/
def insertPhoto (id : ℕ) (new : NewPendingPhoto) : Service Db Failure Reply :=
  tryCatch
    (transact fun db =>
      if faults .commit then .error (.photo .unavailable)
      else
        match insertPending db.media id new now with
        | some media => .ok (.uploaded id, { db with media := media })
        | none => .error (.photo .conflict))
    fun e => do
      forget (request faults .deleteThumb fun objects => deleteAnswered objects new.thumbnailKey)
      forget (request faults .deleteFull fun objects => deleteAnswered objects new.storageKey)
      throw e

def Work.commit : Work → Service Db Failure Reply
  | .location id new creator => statement faults .commit fun s => do
    let t ← create env s id new creator
    pure (.added id, t)
  | .contribution w => statement faults .commit fun s => do
    let (reply, t) ← w.perform env now s
    pure (.contributed reply, t)
  | .photo id new => insertPhoto now faults id new

/-- A confirmed existence refreshes the listing, in a statement of its own. -/
def refresh (v : Community.NewVerification) : Service Db Failure Unit :=
  if v.isStillExists then
    statement faults .freshness fun s => .ok ((), Community.markVerifiedAt s v.locationId now)
  else pure ()

/-- A vote that published its proposal has an audit row more. -/
def auditPublication : Reply → Service Db Failure Unit
  | .contributed (.voted totals) =>
    if totals.published then audit faults .publicationAudit else pure ()
  | _ => pure ()

/-- What follows the commit. -/
def Work.follow (reply : Reply) : Work → Service Db Failure Reply
  | .contribution (.verification _ v) => do
    refresh now faults v
    audit faults .audit
    pure reply
  | .contribution (.vote _ _ _) => do
    auditPublication faults reply
    audit faults .audit
    pure reply
  | _ => do
    audit faults .audit
    pure reply

def Call.run (call : Call) : Service Db Failure Reply := do
  let w ← call.prepare env policy now faults
  let reply ← w.commit env now faults
  w.follow now faults reply

end Model

/-- The rows that contributions are made of. -/
def rows (db : Db) :=
  (db.parking.locations, db.parking.proposals, db.parking.votes, db.parking.revisions,
    db.parking.reviews, db.parking.verifications, db.media.photos)

/-- The vote published its proposal. -/
def Reply.published : Reply → Bool
  | .contributed (.voted totals) => totals.published
  | _ => false

/-- A step after the commit fails: the refresh of a confirmed listing, the audit row of a change
that a vote published, or the audit row of the call. -/
def Work.followFails (faults : Faults) (reply : Reply) : Work → Bool
  | .contribution (.verification _ v) => (v.isStillExists && faults .freshness) || faults .audit
  | .contribution (.vote _ _ _) => (reply.published && faults .publicationAudit) || faults .audit
  | _ => faults .audit

/-- A call up to its commit. -/
def Call.upToCommit (env : Env) (policy : Policy) (now : Instant) (faults : Faults) (call : Call) :
    Service Db Failure (Work × Reply) := do
  let w ← call.prepare env policy now faults
  let reply ← w.commit env now faults
  pure (w, reply)

section Steps

variable {env : Env} {policy : Policy} {now : Instant} {faults : Faults}

theorem keeps_request {stage : Stage} {f : ObjectStore → Answer → ObjectStore} :
    Keeps rows (request faults stage f) := fun _ => rfl

theorem keeps_forget {x : Service Db Failure Unit} (h : Keeps rows x) : Keeps rows (forget x) :=
  keeps_tryCatch h fun _ => keeps_pure

theorem keeps_prepare (call : Call) : Keeps rows (call.prepare env policy now faults) := by
  cases call with
  | addParkingLocation user userAllowed ipAllowed resolved id input =>
    refine keeps_bind (keeps_reads _) fun _ => keeps_bind (keeps_reads _) fun _ =>
      keeps_bind (keeps_reads _) fun _ => keeps_bind (keeps_reads _) fun _ =>
      keeps_bind (keeps_reads _) fun _ => keeps_bind (keeps_reads _) fun _ => keeps_pure
  | contribution request =>
    cases request with
    | submit user allowed sub =>
      refine keeps_bind (keeps_reads _) fun _ => keeps_bind (keeps_reads _) fun _ =>
        keeps_bind (keeps_reads _) fun _ => ?_
      exact keeps_bind (keeps_reads _) fun _ => keeps_bind (keeps_reads _) fun _ =>
        keeps_bind (keeps_reads _) fun _ => keeps_bind (keeps_reads _) fun _ => keeps_pure
    | voteOnProposal user id vote => exact keeps_bind (keeps_reads _) fun _ => keeps_pure
  | uploadPhoto upload id =>
    refine keeps_bind (keeps_reads _) fun new => keeps_bind keeps_request fun _ =>
      keeps_bind (keeps_tryCatch keeps_request fun e => ?_) fun _ => keeps_pure
    exact keeps_bind (keeps_forget keeps_request) fun _ => keeps_throw

theorem commit_atomic (w : Work) (s : Db) : AtomicAt rows (w.commit env now faults) s := by
  cases w with
  | location id new creator => exact atomicAt_transact _ s
  | contribution w => exact atomicAt_transact _ s
  | photo id new =>
    refine atomicAt_tryCatch (atomicAt_transact _ s) fun e => ?_
    exact keeps_bind (keeps_forget keeps_request) fun _ =>
      keeps_bind (keeps_forget keeps_request) fun _ => keeps_throw

/-- An audit row that is not written ends the call. -/
theorem exec_audit {stage : Stage} {s : Db} {x : Unit → Service Db Failure α} :
    exec (audit faults stage >>= x) s =
      if faults stage then (.error .internal, s) else exec (x ()) s := by
  rw [exec_bind, audit, exec_reads]
  split_ifs
  · rfl
  · rfl

theorem exec_last {reply : Reply} {s : Db} :
    exec (audit faults .audit >>= fun _ => pure reply) s =
      (if faults .audit then .error .internal else .ok reply, s) := by
  rw [exec_audit]
  split_ifs
  · rfl
  · rfl

theorem exec_auditPublication {reply : Reply} {s : Db} : exec (auditPublication faults reply) s =
    (if reply.published && faults .publicationAudit then .error .internal else .ok (), s) := by
  unfold auditPublication Reply.published
  split
  · split_ifs with published lost lost
    · simp only [published, Bool.true_and] at lost
      simp [audit, lost]
    · simp only [published, Bool.true_and] at lost
      simp [audit, lost]
    · simp [published] at lost
    · rfl
  · rfl

/-- What follows a commit is its audit rows, unless a confirmed listing is refreshed. -/
theorem exec_follow {w : Work} {reply : Reply} {s : Db}
    (plain : ∀ id v, w ≠ .contribution (.verification id v)) :
    exec (w.follow now faults reply) s =
      (if w.followFails faults reply then .error .internal else .ok reply, s) := by
  match w, plain with
  | .location _ _ _, _ => exact exec_last
  | .photo _ _, _ => exact exec_last
  | .contribution (.review _), _ => exact exec_last
  | .contribution (.freshness _), _ => exact exec_last
  | .contribution (.proposal _ _), _ => exact exec_last
  | .contribution (.vote _ _ _), _ =>
    simp only [Work.follow, Work.followFails]
    rw [exec_bind, exec_auditPublication]
    by_cases lost : (reply.published && faults .publicationAudit) = true
    · simp [lost]
    · simpa [lost] using exec_last
  | .contribution (.verification id v), plain => exact absurd rfl (plain id v)

theorem exec_refresh {v : Community.NewVerification} {s : Db} : exec (refresh now faults v) s =
    if v.isStillExists then
      if faults .freshness then (.error (.contribution .unavailable), s)
      else (.ok (), ⟨Community.markVerifiedAt s.parking v.locationId now, s.media⟩)
    else (.ok (), s) := by
  unfold refresh
  split_ifs with still lost
  · simp only [statement, exec_transact, lost]
    rfl
  · simp only [statement, exec_transact, lost]
    rfl
  · rfl

/-- After a verification the refresh and the audit row are what may fail, and neither takes the
verification back. -/
theorem exec_follow_verification {id : ℕ} {v : Community.NewVerification} {reply : Reply}
    {s : Db} :
    ∃ answer t, exec (Work.follow now faults reply (.contribution (.verification id v))) s =
        (answer, t) ∧ t.parking.verifications = s.parking.verifications ∧
      ((∃ e, answer = .error e) ↔
        Work.followFails faults reply (.contribution (.verification id v)) = true) := by
  have audited : ∀ t : Db, ∃ answer, exec (audit faults .audit >>= fun _ => pure reply) t =
      (answer, t) ∧ ((∃ e, answer = .error e) ↔ faults .audit = true) := by
    intro t
    refine ⟨_, exec_last, ?_⟩
    split_ifs with lost
    · simp [lost]
    · simp [lost]
  simp only [Work.follow, Work.followFails]
  rw [exec_bind, exec_refresh]
  by_cases still : v.isStillExists = true
  · by_cases lost : faults .freshness = true
    · exact ⟨.error (.contribution .unavailable), s, by simp [still, lost], rfl,
        by simp [still, lost]⟩
    · obtain ⟨answer, ran, fails⟩ :=
        audited ⟨Community.markVerifiedAt s.parking v.locationId now, s.media⟩
      refine ⟨answer, ⟨Community.markVerifiedAt s.parking v.locationId now, s.media⟩, ?_, rfl, ?_⟩
      · simpa [still, lost] using ran
      · simpa [still, lost] using fails
  · obtain ⟨answer, ran, fails⟩ := audited s
    exact ⟨answer, s, by simpa [still] using ran, rfl, by simpa [still] using fails⟩

/-- A verification that is recorded is a row more. -/
theorem verification_moves {id : ℕ} {v : Community.NewVerification} {reply : Reply} {s t : Db}
    (h : exec (Work.commit env now faults (.contribution (.verification id v))) s =
      (.ok reply, t)) : t.parking.verifications ≠ s.parking.verifications := by
  simp only [Work.commit, statement, exec_transact] at h
  split at h
  · rename_i reply' t' done
    simp only [Prod.mk.injEq, Except.ok.injEq] at h
    obtain ⟨rfl, rfl⟩ := h
    simp only [mapError_ok, bind_ok, ensure_ok, pure_ok, Prod.mk.injEq, Prod.exists,
      Community.Write.perform] at done
    obtain ⟨_, -, _, _, ⟨_, _, ⟨_, recorded, rfl, rfl⟩, rfl, rfl⟩, rfl, rfl⟩ := done
    obtain ⟨-, -, fresh, added⟩ := Community.record_adds recorded
    intro same
    have new := (added _).mpr (.inr rfl)
    rw [same] at new
    exact Table.find_eq_none.mp fresh _ new rfl
  · simp at h

/-- A failure after the commit takes nothing back of it. -/
theorem follow_keeps_commit {w : Work} {reply : Reply} {s t u : Db} {e : Failure}
    (committed : exec (w.commit env now faults) s = (.ok reply, t))
    (failed : exec (w.follow now faults reply) t = (.error e, u)) :
    rows u = rows s ↔ rows t = rows s := by
  by_cases plain : ∀ id v, w ≠ .contribution (.verification id v)
  · rw [exec_follow plain] at failed
    rw [(Prod.mk.inj failed).2]
  · push Not at plain
    obtain ⟨id, v, rfl⟩ := plain
    have moved := verification_moves committed
    obtain ⟨answer, u', ran, kept, -⟩ := exec_follow_verification (v := v) (s := t)
    rw [failed] at ran
    obtain rfl := (Prod.mk.inj ran).2
    have moves : ∀ db : Db, db.parking.verifications ≠ s.parking.verifications →
        rows db ≠ rows s := by
      intro db differ same
      simp only [rows, Prod.mk.injEq] at same
      exact differ same.2.2.2.2.2.1
    exact iff_of_false (moves u (kept ▸ moved)) (moves t moved)

theorem follow_fails_iff {w : Work} {reply : Reply} {s : Db} :
    (∃ e u, exec (w.follow now faults reply) s = (.error e, u)) ↔
      w.followFails faults reply = true := by
  by_cases plain : ∀ id v, w ≠ .contribution (.verification id v)
  · rw [exec_follow plain]
    split_ifs with fails
    · simp [fails]
    · simp [fails]
  · push Not at plain
    obtain ⟨id, v, rfl⟩ := plain
    obtain ⟨answer, u, ran, -, fails⟩ := exec_follow_verification (s := s)
    rw [ran, ← fails]
    simp [Prod.mk.injEq]

end Steps

/-- An error of a call leaves every location, proposal, vote, revision, review, verification and
photo as it was, unless the call has committed a change of theirs and a step after the commit
fails. -/
theorem failures_change_nothing_iff (env : Env) (policy : Policy) (now : Instant) (faults : Faults)
    (call : Call) (s : Db) :
    AtomicAt rows (call.run env policy now faults) s ↔
      ¬ ∃ w reply t, exec (call.upToCommit env policy now faults) s = (.ok (w, reply), t) ∧
        rows t ≠ rows s ∧ w.followFails faults reply = true := by
  rw [Call.run, atomicAt_commit (keeps_prepare call) commit_atomic
    fun w reply t t' committed e u failed => follow_keeps_commit committed failed]
  simp only [follow_fails_iff, Call.upToCommit]

section Samples

/-- A store with one user, who has confirmed her address. -/
def settled : Db := ⟨Operations.run Clock.env Schema.empty (Operations.enlist 1), emptyDb⟩

/-- The store in which her rack is listed. -/
def listed : Db :=
  ⟨Operations.run Clock.env settled.parking [.create 1 Operations.sampleRack 1], emptyDb⟩

def samplePolicy : Policy := ⟨10485760, 86400000000⟩

def sampleUpload : Upload :=
  ⟨.parking, 1, 1, true, true, true, 2048, none, .ok (800, 600), "a1"⟩

/-- Only the audit row of the call is not written. -/
def auditLost : Faults := fun stage => stage = .audit

/-- A rack is added, and then a photo of it; each time only the audit row of the call is not
written. Both calls report an error, and the rack and the photo are there. -/
theorem lost_audit_leaves_rows :
    (¬ AtomicAt rows (Call.run Clock.env samplePolicy 0 auditLost
      (.addParkingLocation ⟨1, true⟩ true true none 1 Operations.sampleRack)) settled) ∧
    ¬ AtomicAt rows (Call.run Clock.env samplePolicy 0 auditLost (.uploadPhoto sampleUpload 1))
      listed := by
  constructor
  · intro atomic
    have same := atomic .internal rfl
    have fewer := congrArg (fun r => r.1.rows.length) same
    exact absurd fewer (by decide +kernel)
  · intro atomic
    have same := atomic .internal rfl
    have fewer := congrArg (fun r => (r.2.2.2.2.2.2 .parking).rows.length) same
    exact absurd fewer (by decide +kernel)

end Samples

end ContributionFailures
